/-
# Accumulation.Store.Cut — a store file that was cut off in the middle of a write.

The file holds the first `cut` bytes of what `doWrite` produces.  The records that are wholly in
come back, and nothing behind them does, as long as the rest of the file is buffered by the time the
cut payload is asked for: blocks are fetched at multiples of 4096, so this is the case exactly when
the file ends by the first such multiple at or behind that payload (`load_cut_iff`).  If it does not,
the missing bytes are zeros and `Decode` is asked about a payload that was never written.
-/
import Accumulation.Store.AnyContent

namespace Accumulation.Store

open Accumulation.Go Serialization

variable {α : Type*} [Serialization α]

/-- The length of a request's record in the file. -/
def recordLen (req : α) : Nat := (encode req).1.length + 2

/-- The leading records that end by `cut`. -/
def wholeIn : List α → Nat → List α
  | [], _ => []
  | req :: reqs, cut => if recordLen req ≤ cut then req :: wholeIn reqs (cut - recordLen req) else []

/-- The first `cut` bytes of what `doWrite` writes. -/
def cutFile (reqs : List α) (cut : Nat) : List UInt8 :=
  (FileStore.doWrite ⟨⟨[], 0, []⟩, 0⟩ reqs).2.store.data.take cut

/-- `Load` has returned exactly `whole`, and the offset stands behind these records: they are before
it, or, where they take more than the threshold, `Load` has dropped them from the file. -/
def LoadsExactly (data : List UInt8) (rows : Int) (whole : List α) : Prop :=
  ∃ fs, FileStore.load (openStore data) rows = some ((whole, none), fs) ∧
    if cleanOffsetThreshold < (FileStore.bytesOf whole).length then
      fs.store.data = data.drop (FileStore.bytesOf whole).length ∧ fs.offset = 0
    else fs.store.data = data ∧ fs.offset = (FileStore.bytesOf whole).length

/-- The first end of a block at or behind `x`. -/
def blockEnd (x : Nat) : Nat := (x + (bufSize - 1)) / bufSize * bufSize

/-! ## Read-ahead -/

namespace Window

/-- What is buffered reaches to the end of a block of the file, or of the file itself. -/
def Aligned (size : Nat) (w : Window) : Prop :=
  w.rest.length ≤ size ∧
    w.buffered + (size - w.rest.length) = min (blockEnd (size - w.rest.length)) size

variable {size n : Nat} {w : Window}

theorem aligned_opened (data : List UInt8) : Aligned data.length ⟨0, data⟩ := by
  refine ⟨le_rfl, ?_⟩
  simp [blockEnd, bufSize]

theorem Aligned.wf (h : w.Aligned size) : w.buffered ≤ w.rest.length := by
  obtain ⟨hle, hbuf⟩ := h
  omega

/-- **Reading less than a block keeps the read-ahead aligned.** -/
theorem Aligned.next (h : w.Aligned size) (hn : n ≤ w.rest.length) (hsmall : n < bufSize) :
    (w.next n).Aligned size := by
  obtain ⟨hle, hbuf⟩ := h
  refine ⟨?_, ?_⟩ <;> rw [rest_next, List.length_drop]
  · omega
  · rw [buffered_next, left]
    by_cases hwithin : n ≤ w.buffered
    · rw [if_pos hwithin]
      simp only [blockEnd, bufSize] at hbuf ⊢
      omega
    · -- the buffer is used up, and the next block is fetched
      rw [if_neg hwithin, if_neg (by omega)]
      simp only [blockEnd, bufSize] at hbuf hsmall ⊢
      omega

/-- After `n` bytes all the others are buffered exactly when the file ends by the next block end. -/
theorem Aligned.left_iff (h : w.Aligned size) (hn : n ≤ w.rest.length) (hsmall : n < bufSize) :
    w.left n = w.rest.length - n ↔ size ≤ blockEnd (size - w.rest.length + n) := by
  obtain ⟨-, hbuf⟩ := h.next hn hsmall
  obtain ⟨hle, -⟩ := h
  have hpos : size - (w.rest.length - n) = size - w.rest.length + n := by omega
  rw [rest_next, List.length_drop, buffered_next, hpos] at hbuf
  omega

end Window

theorem le_blockEnd (x : Nat) : x ≤ blockEnd x := by
  simp only [blockEnd, bufSize]
  omega

/-! ## The records of a cut file -/

theorem cutFile_eq (reqs : List α) (cut : Nat) :
    cutFile reqs cut = (FileStore.bytesOf reqs).take cut := by
  rw [cutFile, FileStore.doWrite_healthy [] 0 0 le_rfl]
  show (overwrite [] ([] : List UInt8).length _).take cut = _
  rw [overwrite_end, List.nil_append]

theorem length_record (req : α) : (newRecord (encode req).1).bytes.length = recordLen req :=
  Record.length_bytes _

/-- The record behind the leading ones is wholly there or cut. -/
theorem record_take (req : α) (reqs : List α) (cut : Nat) :
    (FileStore.bytesOf (req :: reqs)).take cut =
      if recordLen req ≤ cut then
        (newRecord (encode req).1).bytes ++ (FileStore.bytesOf reqs).take (cut - recordLen req)
      else (newRecord (encode req).1).bytes.take cut := by
  rw [FileStore.bytesOf_cons, List.take_append, length_record]
  split
  · rw [List.take_of_length_le (by rw [length_record]; assumption)]
  · rw [Nat.sub_eq_zero_of_le (by omega), List.take_zero, List.append_nil]

namespace Window

variable {size : Nat} {w : Window} {req : α}

/-- Two bytes of a record are enough to know the length of its payload. -/
theorem claimed_record (hl : Lossless α 1 255) {more : List UInt8}
    (hrest : w.rest = UInt8.ofInt (newRecord (encode req).1).dLen :: 0 :: more) :
    w.claimed = (encode req).1.length := by
  have hle := hl.le_hi req
  rw [claimed, hrest]
  show int16 (uint16 [_, 0]) = _
  rw [uint16_low, newRecord_head, int16_of_lt (by omega), Nat.mod_eq_of_lt (by omega)]

/-- A record that is wholly there. -/
theorem record_complete (hl : Lossless α 1 255) {more : List UInt8}
    (hrest : w.rest = (newRecord (encode req).1).bytes ++ more) :
    w.Complete ∧ w.payload = (encode req).1 ∧ w.tail.rest = more := by
  have hclaimed := claimed_record hl hrest
  have hlength : w.rest.length = recordLen req + more.length := by
    rw [hrest, List.length_append, length_record]
  have hbody : w.rest.drop 2 = (encode req).1 ++ more := by rw [hrest]; rfl
  refine ⟨⟨?_, ?_, ?_⟩, ?_, ?_⟩
  · rw [hlength, recordLen]
    omega
  · rw [hclaimed]
    exact Int.natCast_nonneg _
  · rw [hclaimed, hlength, recordLen, Int.toNat_natCast]
    omega
  · rw [payload, hclaimed, hbody, Int.toNat_natCast, List.take_left' rfl]
  · rw [tail, hclaimed, rest_next, rest_next, hbody, Int.toNat_natCast, List.drop_left' rfl]

/-- A record that is cut. -/
theorem not_complete_of_cut (hl : Lossless α 1 255) {cut : Nat} (hcut : cut < recordLen req)
    (hrest : w.rest = (newRecord (encode req).1).bytes.take cut) : ¬ w.Complete := by
  rintro ⟨htwo, -, hbody⟩
  have hlength : w.rest.length ≤ cut := by
    rw [hrest, List.length_take]
    exact min_le_left _ _
  obtain ⟨k, rfl⟩ : ∃ k, cut = k + 2 := ⟨cut - 2, by omega⟩
  rw [claimed_record hl hrest, Int.toNat_natCast] at hbody
  rw [recordLen] at hcut
  omega

/-- What is behind the leading records of a cut file. -/
inductive CutTail (reqs : List α) (taken : Nat) (w : Window) : Prop
  | none (hrest : w.rest = [])
  | cut (req : α) (cut : Nat) (hcut : cut < recordLen req)
      (hrest : w.rest = (newRecord (encode req).1).bytes.take cut) (hmore : taken < reqs.length)

/-- **The leading records of a cut file are those that are wholly in it**, and the read-ahead stays
aligned over them. -/
theorem leading_cut (hl : Lossless α 1 255) (reqs : List α) (cut rows : Nat)
    (hrows : reqs.length ≤ rows) (hw : w.Aligned size)
    (hrest : w.rest = (FileStore.bytesOf reqs).take cut) :
    ∃ w', leading rows w = (wholeIn reqs cut, rows - (wholeIn reqs cut).length, w') ∧
      w'.Aligned size ∧ w'.rest = w.rest.drop (FileStore.bytesOf (wholeIn reqs cut)).length ∧
      CutTail reqs (wholeIn reqs cut).length w' := by
  induction reqs generalizing cut rows w with
  | nil =>
    rw [FileStore.bytesOf_nil, List.take_nil] at hrest
    have hnot : ¬ w.Complete := fun h => by
      have htwo := h.1
      rw [hrest] at htwo
      exact absurd htwo (by decide)
    refine ⟨w, ?_, hw, rfl, .none hrest⟩
    cases rows with
    | zero => rfl
    | succ rows => rw [leading, if_neg hnot]; rfl
  | cons req reqs ih =>
    obtain ⟨rows, rfl⟩ : ∃ k, rows = k + 1 := ⟨rows - 1, by rw [List.length_cons] at hrows; omega⟩
    rw [record_take] at hrest
    by_cases hcut : recordLen req ≤ cut
    · rw [if_pos hcut] at hrest
      obtain ⟨hcomplete, hpayload, htail⟩ := record_complete hl hrest
      have hclaimed : w.claimed.toNat = (encode req).1.length := by
        rw [claimed_record hl hrest, Int.toNat_natCast]
      -- both fields of a record are shorter than a block
      have haligned : w.tail.Aligned size := by
        have hsmall := hl.le_hi req
        have hblock : bufSize = 4096 := rfl
        obtain ⟨htwo, -, hbody⟩ := hcomplete
        refine (hw.next htwo (by omega)).next ?_ (by omega)
        rw [rest_next, List.length_drop]
        omega
      obtain ⟨w', hlead, hw', hrest', hend⟩ := ih (cut - recordLen req) rows
        (by rw [List.length_cons] at hrows; omega) haligned htail
      rw [wholeIn, if_pos hcut, List.length_cons, Nat.add_sub_add_right]
      refine ⟨w', ?_, hw', ?_, ?_⟩
      · rw [leading, if_pos hcomplete, hpayload, hl.decode_encode]
        simp only [hlead]
      · rw [hrest', htail, FileStore.bytesOf_cons, List.length_append, hrest, ← List.drop_drop,
          List.drop_left' rfl]
      · cases hend with
        | none hnil => exact .none hnil
        | cut r k hk hr hmore =>
          exact .cut r k hk hr (by rw [List.length_cons]; omega)
    · rw [if_neg hcut] at hrest
      have hcut' : cut < recordLen req := Nat.lt_of_not_le hcut
      rw [wholeIn, if_neg hcut]
      refine ⟨w, ?_, hw, rfl,
        .cut req cut hcut' hrest (by rw [List.length_cons]; exact Nat.succ_pos _)⟩
      rw [leading, if_neg (not_complete_of_cut hl hcut' hrest)]
      rfl

/-! ## What follows them -/

/-- With the rest of the file buffered at the cut payload the loop ends. -/
theorem load_cut_buffered (hl : Lossless α 1 255) {reqs : List α} {taken rows : Nat}
    (hw : w.Aligned size) (htail : CutTail reqs taken w)
    (hend : size ≤ blockEnd (size - w.rest.length + 2)) :
    load rows w = some (([] : List α), 0, false) := by
  cases htail with
  | none hrest => exact load_none rows (read_empty hw.wf hrest)
  | cut req cut hcut hrest hmore =>
    rcases cut with _ | _ | cut
    · exact load_none rows (read_empty hw.wf hrest)
    · -- the header byte is not zero, since the payload is not empty
      have hb : UInt8.ofInt (newRecord (encode req).1).dLen ≠ 0 := by
        intro hzero
        have hhead := newRecord_head (encode req).1
        have hlo := hl.lo_le req
        have hhi := hl.le_hi req
        rw [hzero, Nat.mod_eq_of_lt (by omega)] at hhead
        have : (0 : UInt8).toNat = 0 := rfl
        omega
      have hle := hw.wf
      rw [hrest] at hle
      have hone : w.buffered ≤ 1 := hle
      by_cases hbuf : w.buffered = 0
      · have hread := read_cutHeader hrest hbuf
        rw [if_neg hb] at hread
        exact load_none rows hread
      · exact load_none rows (read_bufferedByte hrest (by omega))
    · have hclaimed := claimed_record hl hrest
      have hlength : w.rest.length = cut + 2 := by
        rw [hrest, List.length_take, length_record]
        omega
      have htwo : 2 ≤ w.rest.length := by omega
      have hall := (hw.left_iff htwo (by decide)).mpr hend
      refine load_none rows (read_allBuffered htwo ?_ ?_ hall)
      · rw [hclaimed]
        exact Int.natCast_nonneg _
      · rw [hclaimed, Int.toNat_natCast, hlength]
        rw [recordLen] at hcut
        omega

/-- Otherwise the next payload is padded with zeros. -/
theorem read_cut_padded (hl : Lossless α 1 255) {reqs : List α} {taken : Nat}
    (hw : w.Aligned size) (htail : CutTail reqs taken w)
    (hend : ¬ size ≤ blockEnd (size - w.rest.length + 2)) :
    taken < reqs.length ∧ w.rest ≠ [] ∧ ∃ bs, w.read = some (some bs, ⟨0, []⟩) := by
  have hblock := le_blockEnd (size - w.rest.length + 2)
  have htwo : 2 ≤ w.rest.length := by omega
  cases htail with
  | none hrest =>
    rw [hrest] at htwo
    exact absurd htwo (by decide)
  | cut req cut hcut hrest hmore =>
    have hlength : w.rest.length = cut := by
      rw [hrest, List.length_take, length_record]
      omega
    have hsome := (hw.left_iff htwo (by decide)).not.mpr hend
    obtain ⟨k, rfl⟩ : ∃ k, cut = k + 2 := ⟨cut - 2, by omega⟩
    have hclaimed := claimed_record hl hrest
    refine ⟨hmore, List.ne_nil_of_length_pos (by omega), _, read_cutBody htwo ?_ ?_ hsome⟩
    · rw [hclaimed]
      exact Int.natCast_nonneg _
    · rw [hclaimed, Int.toNat_natCast, hlength]
      rw [recordLen] at hcut
      omega

end Window

/-! ## `Load` on a cut file -/

theorem length_wholeIn_le (reqs : List α) (cut : Nat) :
    (wholeIn reqs cut).length ≤ reqs.length := by
  induction reqs generalizing cut with
  | nil => exact le_rfl
  | cons req reqs ih =>
    rw [wholeIn]
    split
    · exact Nat.succ_le_succ (ih _)
    · exact Nat.zero_le _

theorem length_bytesOf_wholeIn_le (reqs : List α) (cut : Nat) :
    (FileStore.bytesOf (wholeIn reqs cut)).length ≤ ((FileStore.bytesOf reqs).take cut).length := by
  induction reqs generalizing cut with
  | nil => exact Nat.zero_le _
  | cons req reqs ih =>
    rw [wholeIn, record_take]
    split
    · rw [FileStore.bytesOf_cons, List.length_append, List.length_append]
      exact Nat.add_le_add_left (ih _) _
    · exact Nat.zero_le _

/-- Records before the end of the file, and nothing else that the loop returned. -/
theorem loadsExactly_of_load {data : List UInt8} {rows : Int} {whole : List α}
    (hlength : (FileStore.bytesOf whole).length ≤ data.length)
    (hload : Window.load rows.toNat ⟨0, data⟩ =
      some (whole, (FileStore.bytesOf whole).length, false)) : LoadsExactly data rows whole := by
  obtain ⟨pos', -, hmoves⟩ := FileStore.load_moves 0 (Nat.zero_le _) hload
  rw [Nat.zero_add] at hmoves
  by_cases hover : cleanOffsetThreshold < (FileStore.bytesOf whole).length
  · rw [if_pos hover, FileStore.truncate_healthy _ _ _ hlength] at hmoves
    refine ⟨_, hmoves, ?_⟩
    rw [if_pos hover]
    exact ⟨by simp, rfl⟩
  · rw [if_neg hover] at hmoves
    exact ⟨_, hmoves, by rw [if_neg hover]; exact ⟨rfl, rfl⟩⟩

/-- **What is loaded from a cut file.**  `Load` returns exactly the records that are wholly in it,
and leaves the offset behind the last of them, if and only if the file ends by the first multiple of
4096 at or behind the payload that follows them. -/
theorem load_cut_iff (hl : Lossless α 1 255) (reqs : List α) (cut : Nat) (rows : Int)
    (hrows : reqs.length ≤ rows) :
    LoadsExactly (cutFile reqs cut) rows (wholeIn reqs cut) ↔
      (cutFile reqs cut).length ≤
        blockEnd ((FileStore.bytesOf (wholeIn reqs cut)).length + 2) := by
  have hdata := cutFile_eq reqs cut
  have hlength := length_bytesOf_wholeIn_le reqs cut
  have hmore := length_wholeIn_le reqs cut
  rw [← hdata] at hlength
  generalize cutFile reqs cut = data at hdata hlength ⊢
  obtain ⟨w, hlead, hw, hrest, htail⟩ := Window.leading_cut hl reqs cut rows.toNat (by omega)
    (Window.aligned_opened data) hdata
  obtain ⟨taken, htaken, -, hload⟩ := Window.load_leading rows.toNat (Nat.zero_le _) hlead
  generalize wholeIn reqs cut = whole at hlength hmore hlead hrest htail hload ⊢
  -- the records that were taken are the bytes before the cut one
  change w.rest = data.drop _ at hrest
  change taken + w.rest.length = data.length at htaken
  have hsize : data.length - w.rest.length = (FileStore.bytesOf whole).length := by
    rw [hrest, List.length_drop]
    omega
  obtain rfl : taken = (FileStore.bytesOf whole).length := by omega
  rw [← hsize]
  constructor
  · intro hexact
    by_contra hend
    obtain ⟨hless, hne, bs, hread⟩ := Window.read_cut_padded hl hw htail hend
    obtain ⟨rows', hrows'⟩ : ∃ k, rows.toNat - whole.length = k + 1 :=
      ⟨rows.toNat - whole.length - 1, by omega⟩
    obtain ⟨fs, hexact, hfs⟩ := hexact
    rw [hrows'] at hload
    rcases hdecode : (decode bs : Except Err α) with e | req
    · -- the file has been emptied, although it was not empty
      rw [Window.load_error rows' hread hdecode, Option.map_some] at hload
      rw [openStore, FileStore.load_undecodable (Nat.zero_le _) hload] at hexact
      obtain ⟨-, rfl⟩ := Prod.mk.inj (Option.some.inj hexact)
      split at hfs
      · exact hne (hrest.trans hfs.1.symm)
      · rw [← hfs.1, List.length_nil] at hend
        exact hend (Nat.zero_le _)
    · -- one more request than there were records
      have hdone : Window.load rows' ⟨0, []⟩ = some (([] : List α), 0, false) :=
        Window.load_none rows' (Window.read_empty (Nat.le_refl 0) rfl)
      rw [Window.load_ok rows' hread hdecode, hdone, Option.map_some, Option.map_some] at hload
      obtain ⟨pos', -, hmoves⟩ := FileStore.load_moves 0 (Nat.zero_le _) hload
      rw [openStore, hmoves] at hexact
      have hreqs : whole ++ [req] = whole := by
        split at hexact
        · obtain ⟨res, -, hres⟩ := Option.map_eq_some_iff.mp hexact
          exact (Prod.mk.inj (Prod.mk.inj hres).1).1
        · exact (Prod.mk.inj (Prod.mk.inj (Option.some.inj hexact)).1).1
      exact List.cons_ne_nil req [] (List.append_right_eq_self.mp hreqs)
  · intro hend
    rw [Window.load_cut_buffered hl hw htail hend, Option.map_some] at hload
    simp only [List.append_nil, Nat.add_zero] at hload
    exact loadsExactly_of_load hlength hload

theorem load_cut_iff_bytes :
    LoadsExactly (cutFile [(7 : UInt8), 8] 5) 2 (wholeIn [(7 : UInt8), 8] 5) ↔
      (cutFile [(7 : UInt8), 8] 5).length ≤
        blockEnd ((FileStore.bytesOf (wholeIn [(7 : UInt8), 8] 5)).length + 2) :=
  load_cut_iff byte_lossless [7, 8] 5 2 (Int.le_refl 2)

/-- Sixteen requests of 255 zeros, cut four bytes behind the first block.  Fifteen are wholly in the
file, and sixteen are loaded. -/
theorem cut_loads_more :
    (wholeIn (List.replicate 16 (Wide.mk false)) 4100).length = 15 ∧
      ¬ LoadsExactly (cutFile (List.replicate 16 (Wide.mk false)) 4100) 16
        (wholeIn (List.replicate 16 (Wide.mk false)) 4100) := by
  have hwhole : (wholeIn (List.replicate 16 (Wide.mk false)) 4100).length = 15 := by
    decide +kernel
  have hload : ((openStore (cutFile (List.replicate 16 (Wide.mk false)) 4100)).load 16).map
      (fun (res : (List Wide × Option Err) × FileStore) => (res.1.1.length, res.2.offset)) =
        some (16, 4112) := by
    decide +kernel
  refine ⟨hwhole, ?_⟩
  rintro ⟨fs, hexact, -⟩
  rw [hexact, Option.map_some, Option.some.injEq, Prod.mk.injEq] at hload
  have hlength := hload.1
  simp only [hwhole] at hlength
  omega

end Accumulation.Store
