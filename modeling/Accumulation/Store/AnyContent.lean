/-
# Accumulation.Store.AnyContent — whole runs of a store file that may hold anything.

`Load` takes lengths from the file.  Three kinds of bytes behind the complete records do harm
(`Harmless` excludes them): a header whose high bit is set, on which `make` panics, and a cut header
or a cut body which the reader pads with zeros and `Decode` accepts.  The offset is then moved by
the length that was claimed, past the end of the file, and the next `Truncate` panics.
`survives_iff_loadsHarmless` says that nothing else does: a run neither panics nor moves the offset
past the end of the file exactly when each of its loads finds harmless bytes.
-/
import Accumulation.Store.Leading
import Accumulation.Store.Fifo

namespace Accumulation.Store

open Accumulation.Go Accumulation.Lib.Run Serialization

section

variable (α : Type*) [Serialization α]

/-- `Decode` returns an error. -/
def refuses (bs : List UInt8) : Bool :=
  match (decode bs : Except Err α) with
  | .ok _ => false
  | .error _ => true

/-- What `Load` finds behind the leading records, with `rows` more to take, does no harm. -/
structure Harmless (rows : Nat) (w : Window) : Prop where
  header : 2 ≤ w.rest.length → 0 ≤ w.claimed
  cutHeader : 0 < rows → w.rest = [0] → w.buffered = 0 → refuses α []
  cutBody : 0 < rows → 2 ≤ w.rest.length → w.rest.length < 2 + w.claimed.toNat →
    w.left 2 ≠ w.rest.length - 2 → refuses α (fill w.claimed.toNat (w.rest.drop 2))

/-- A `Load` finds harmless bytes behind the leading ones of the records it takes. -/
def LoadsHarmless (fs : FileStore) : Call α → Prop
  | .load rows =>
    match (Window.leading rows.toNat ⟨0, fs.store.data.drop fs.offset⟩ : List α × _) with
    | (_, rows, w) => Harmless α rows w
  | _ => True

end

variable {α : Type*} [Serialization α]

theorem decode_of_refuses {bs : List UInt8} (h : refuses α bs) :
    ∃ e, (decode bs : Except Err α) = .error e := by
  unfold refuses at h
  split at h
  · cases h
  · exact ⟨_, ‹_›⟩

theorem decode_of_not_refuses {bs : List UInt8} (h : ¬ refuses α bs) :
    ∃ req : α, decode bs = .ok req := by
  unfold refuses at h
  split at h
  · exact ⟨_, ‹_›⟩
  · exact absurd rfl h

/-! ## The step behind the leading records -/

namespace Window

variable {w : Window} {rows : Nat}

/-- A payload that is refused stops the loop, if it is looked at at all. -/
theorem load_refused {w' : Window} {bs : List UInt8} (hread : w.read = some (some bs, w'))
    (hrefuses : 0 < rows → refuses α bs) :
    ∃ undecodable, load rows w = some (([] : List α), 0, undecodable) := by
  cases rows with
  | zero => exact ⟨false, by rw [load_zero, hread]; rfl⟩
  | succ rows =>
    obtain ⟨e, he⟩ := decode_of_refuses (hrefuses (Nat.succ_pos rows))
    exact ⟨true, load_error rows hread he⟩

/-- **Harmless bytes give no record.** -/
theorem load_harmless (hle : w.buffered ≤ w.rest.length)
    (hstuck : 0 < rows → w.Complete → refuses α w.payload) (h : Harmless α rows w) :
    ∃ undecodable, load rows w = some (([] : List α), 0, undecodable) := by
  by_cases htwo : 2 ≤ w.rest.length
  · have hclaimed := h.header htwo
    by_cases hbody : 2 + w.claimed.toNat ≤ w.rest.length
    · have hcomplete : w.Complete := ⟨htwo, hclaimed, hbody⟩
      exact load_refused (read_complete hcomplete) fun hrows => hstuck hrows hcomplete
    · have hcut : w.rest.length < 2 + w.claimed.toNat := Nat.lt_of_not_le hbody
      by_cases hall : w.left 2 = w.rest.length - 2
      · exact ⟨false, load_none rows (read_allBuffered htwo hclaimed hcut hall)⟩
      · exact load_refused (read_cutBody htwo hclaimed hcut hall)
          fun hrows => h.cutBody hrows htwo hcut hall
  · -- at most one byte is left
    rcases hrest : w.rest with _ | ⟨b, _ | ⟨c, bs⟩⟩
    · exact ⟨false, load_none rows (read_empty hle hrest)⟩
    · rw [hrest, List.length_singleton] at hle
      by_cases hbuf : w.buffered = 0
      · have hread := read_cutHeader hrest hbuf
        by_cases hb : b = 0
        · subst hb
          rw [if_pos rfl] at hread
          exact load_refused hread fun hrows => h.cutHeader hrows hrest hbuf
        · rw [if_neg hb] at hread
          exact ⟨false, load_none rows hread⟩
      · exact ⟨false, load_none rows (read_bufferedByte hrest (by omega))⟩
    · rw [hrest] at htwo
      exact absurd (Nat.le_add_left 2 bs.length) htwo

/-- A padded payload that is accepted gives a record longer than what is left. -/
theorem load_padded {bs : List UInt8} (hread : w.read = some (some bs, ⟨0, []⟩))
    (hrows : 0 < rows) (haccepts : ¬ refuses α bs) (hlong : w.rest.length < bs.length + 2) :
    ∃ (req : α) (dataLen : Nat), load rows w = some ([req], dataLen, false) ∧
      w.rest.length < dataLen := by
  obtain ⟨rows, rfl⟩ := Nat.exists_eq_succ_of_ne_zero (Nat.pos_iff_ne_zero.mp hrows)
  obtain ⟨req, hdecode⟩ := decode_of_not_refuses haccepts
  have hend : load rows ⟨0, []⟩ = some (([] : List α), 0, false) :=
    load_none rows (read_empty (Nat.le_refl 0) rfl)
  refine ⟨req, bs.length + 2 + 0, ?_, hlong⟩
  rw [load_ok rows hread hdecode, hend, Option.map_some]

/-- **All other bytes do harm**: a panic, or a record longer than what is left. -/
theorem load_harmful (h : ¬ Harmless α rows w) :
    load rows w = (none : Option (List α × Nat × Bool)) ∨
      ∃ (req : α) (dataLen : Nat), load rows w = some ([req], dataLen, false) ∧
        w.rest.length < dataLen := by
  by_cases hheader : 2 ≤ w.rest.length → 0 ≤ w.claimed
  · right
    by_cases hhead : 0 < rows → w.rest = [0] → w.buffered = 0 → refuses α []
    · have hbody : ¬ (0 < rows → 2 ≤ w.rest.length → w.rest.length < 2 + w.claimed.toNat →
          w.left 2 ≠ w.rest.length - 2 → refuses α (fill w.claimed.toNat (w.rest.drop 2))) :=
        fun hbody => h ⟨hheader, hhead, hbody⟩
      push Not at hbody
      obtain ⟨hrows, htwo, hcut, hsome, haccepts⟩ := hbody
      refine load_padded (read_cutBody htwo (hheader htwo) hcut hsome) hrows haccepts ?_
      rw [fill, List.length_append, List.length_replicate, List.length_drop]
      omega
    · push Not at hhead
      obtain ⟨hrows, hrest, hbuf, haccepts⟩ := hhead
      have hread := read_cutHeader hrest hbuf
      rw [if_pos rfl] at hread
      exact load_padded hread hrows haccepts (by rw [hrest]; decide)
  · left
    push Not at hheader
    exact load_panic rows (read_negative hheader.1 hheader.2)

end Window

/-! ## One call -/

/-- A file whose operations succeed and whose cursor is not behind its end. -/
def FileStore.Healthy (fs : FileStore) : Prop :=
  fs.store.fates = [] ∧ fs.store.pos ≤ fs.store.data.length

/-- The offset is inside the file. -/
def FileStore.Inside (fs : FileStore) : Prop := fs.offset ≤ fs.store.data.length

/-- A call, of which only the state of the store is kept. -/
def FileStore.step (fs : FileStore) (c : Call α) : Option FileStore := (fs.call c).map Prod.snd

namespace FileStore

variable {fs fs' : FileStore}

theorem step_store (fs : FileStore) (reqs : List α) :
    fs.step (.store reqs) = some (fs.doWrite reqs).2 := rfl

/-- `Store` moves neither the offset nor the end of the file back. -/
theorem store_inside (hh : fs.Healthy) (hi : fs.Inside) (reqs : List α) :
    ∃ fs', fs.step (.store reqs) = some fs' ∧ fs'.Healthy ∧ fs'.Inside := by
  obtain ⟨⟨data, pos, fates⟩, offset⟩ := fs
  obtain ⟨rfl, hpos⟩ := hh
  have hlength := length_overwrite data (bytesOf reqs) pos hpos
  refine ⟨_, step_store _ reqs, ?_⟩
  rw [doWrite_healthy data pos offset hpos]
  exact ⟨⟨rfl, hlength ▸ le_max_right _ _⟩, le_trans hi (hlength ▸ le_max_left _ _)⟩

/-- `Truncate` rewinds. -/
theorem truncate_inside (fs : FileStore) (hh : fs.Healthy) (hi : fs.Inside) (before after : List α) :
    ∃ fs', fs.truncate before after = some (none, fs') ∧ fs'.Healthy ∧ fs'.Inside := by
  obtain ⟨⟨data, pos, fates⟩, offset⟩ := fs
  obtain ⟨rfl, -⟩ := hh
  exact ⟨_, truncate_healthy data pos offset hi before after, ⟨rfl, le_rfl⟩, Nat.zero_le _⟩

/-- **A `Load` that finds harmless bytes** stays inside the file. -/
theorem load_inside (hh : fs.Healthy) (hi : fs.Inside) (rows : Int)
    (hc : LoadsHarmless α fs (.load rows)) :
    ∃ fs', fs.step (.load rows : Call α) = some fs' ∧ fs'.Healthy ∧ fs'.Inside := by
  obtain ⟨⟨data, pos, fates⟩, offset⟩ := fs
  obtain ⟨rfl, -⟩ := hh
  have hoff : offset ≤ data.length := hi
  rcases hlead : (Window.leading rows.toNat ⟨0, data.drop offset⟩ : List α × _) with
    ⟨reqs, rows', w⟩
  have hharmless : Harmless α rows' w := by
    simp only [LoadsHarmless, hlead] at hc
    exact hc
  obtain ⟨taken, htaken, hle, hload⟩ :=
    Window.load_leading rows.toNat (Nat.zero_le _) hlead
  have hstuck : 0 < rows' → w.Complete → refuses α w.payload := by
    intro hrows hcomplete
    obtain ⟨e, he⟩ := Window.leading_stuck rows.toNat hlead hrows hcomplete
    simp only [refuses, he]
  obtain ⟨undecodable, hrest⟩ := Window.load_harmless hle hstuck hharmless
  rw [hrest, Option.map_some] at hload
  -- the records that were taken lie inside the file
  have hinside : offset + (taken + 0) ≤ data.length := by
    rw [List.length_drop] at htaken
    omega
  simp only [step, call]
  cases undecodable with
  | true =>
    rw [load_undecodable hoff hload]
    exact ⟨_, rfl, ⟨rfl, le_rfl⟩, le_rfl⟩
  | false =>
    obtain ⟨pos', hpos', hmoves⟩ := load_moves pos hoff hload
    rw [hmoves]
    split
    · obtain ⟨fs', htruncate, hh', hi'⟩ := truncate_inside (α := α)
        ⟨⟨data, pos', []⟩, offset + (taken + 0)⟩ ⟨rfl, hpos'⟩ hinside [] []
      rw [htruncate]
      exact ⟨fs', rfl, hh', hi'⟩
    · exact ⟨_, rfl, ⟨rfl, hpos'⟩, hinside⟩

/-- **A `Load` that does not** panics or leaves the file. -/
theorem load_outside (hh : fs.Healthy) (hi : fs.Inside) (rows : Int)
    (hc : ¬ LoadsHarmless α fs (.load rows)) (hstep : fs.step (.load rows : Call α) = some fs') :
    ¬ fs'.Inside := by
  obtain ⟨⟨data, pos, fates⟩, offset⟩ := fs
  obtain ⟨rfl, -⟩ := hh
  have hoff : offset ≤ data.length := hi
  rcases hlead : (Window.leading rows.toNat ⟨0, data.drop offset⟩ : List α × _) with
    ⟨reqs, rows', w⟩
  have hharmful : ¬ Harmless α rows' w := by
    simp only [LoadsHarmless, hlead] at hc
    exact hc
  obtain ⟨taken, htaken, -, hload⟩ := Window.load_leading rows.toNat (Nat.zero_le _) hlead
  simp only [step, call] at hstep
  rcases Window.load_harmful hharmful with hpanic | ⟨req, dataLen, hrest, hlong⟩
  · rw [hpanic] at hload
    rw [load_panics hoff hload] at hstep
    cases hstep
  · rw [hrest, Option.map_some] at hload
    have houtside : data.length < offset + (taken + dataLen) := by
      rw [List.length_drop] at htaken
      omega
    obtain ⟨pos', -, hmoves⟩ := load_moves pos hoff hload
    rw [hmoves] at hstep
    split at hstep
    · rw [truncate_panics houtside] at hstep
      cases hstep
    · cases hstep
      exact Nat.not_le.mpr houtside

/-- **One call** of a run. -/
theorem step_inside (hh : fs.Healthy) (hi : fs.Inside) (c : Call α) (hc : LoadsHarmless α fs c) :
    ∃ fs', fs.step c = some fs' ∧ fs'.Healthy ∧ fs'.Inside := by
  cases c with
  | store reqs => exact store_inside hh hi reqs
  | load rows => exact load_inside hh hi rows hc
  | truncate before after =>
    obtain ⟨fs', htruncate, hh', hi'⟩ := truncate_inside fs hh hi before after
    refine ⟨fs', ?_, hh', hi'⟩
    simp only [step, call, htruncate, Option.map_some]

theorem loadsHarmless_of_inside (hh : fs.Healthy) (hi : fs.Inside) (c : Call α)
    (hstep : fs.step c = some fs') (hi' : fs'.Inside) : LoadsHarmless α fs c := by
  cases c with
  | store reqs => trivial
  | truncate before after => trivial
  | load rows =>
    by_contra hc
    exact load_outside hh hi rows hc hstep hi'

end FileStore

/-! ## Whole runs -/

/-- **A store file survives any content exactly as far as its loads find harmless bytes.**  No call
panics and the offset stays inside the file if and only if each `Load` of the run finds harmless
bytes behind the leading records. -/
theorem survives_iff_loadsHarmless (data : List UInt8) (calls : List (Call α)) :
    ((∃ fs, exec FileStore.step (openStore data) calls = some fs) ∧
        Always FileStore.step FileStore.Inside (openStore data) calls) ↔
      Along FileStore.step (LoadsHarmless α) (openStore data) calls := by
  have hopened : (openStore data).Healthy ∧ (openStore data).Inside :=
    ⟨⟨rfl, Nat.zero_le _⟩, Nat.zero_le _⟩
  constructor
  · rintro ⟨⟨fs, hrun⟩, hinside⟩
    have hboth : Always FileStore.step (fun fs => fs.Healthy ∧ fs.Inside) (openStore data) calls := by
      refine hinside.and_kept (fun fs c fs' hi hh hstep hi' => ?_) hopened.1
      have hc := FileStore.loadsHarmless_of_inside hh hi c hstep hi'
      obtain ⟨fs'', hstep', hh', -⟩ := FileStore.step_inside hh hi c hc
      rw [Option.some.inj (hstep.symm.trans hstep')]
      exact hh'
    refine along_of_always (fun fs c fs' h hstep h' => ?_) hrun hboth
    exact FileStore.loadsHarmless_of_inside h.1 h.2 c hstep h'.2
  · intro h
    obtain ⟨hrun, hboth⟩ := run_of_along
      (fun fs c (hs : fs.Healthy ∧ fs.Inside) hc => FileStore.step_inside hs.1 hs.2 c hc) hopened h
    exact ⟨hrun, hboth.mono fun fs hs => hs.2⟩

/-! ## Files that do harm -/

/-- Requests that are any bytes, so that `Decode` refuses nothing. -/
structure Raw where
  bytes : List UInt8
  deriving DecidableEq

instance : Serialization Raw where
  encode req := (req.bytes, none)
  decode bs := .ok ⟨bs⟩

/-- A header whose high bit is set makes `Load` panic.  A single zero byte is loaded as an empty
record of two bytes, after which `Truncate` panics. -/
theorem content_not_survived :
    exec FileStore.step (openStore [0, 128]) [(.load 1 : Call Raw)] = none ∧
      (exec FileStore.step (openStore [0]) [(.load 1 : Call Raw)]).map
        (fun fs => (fs.offset, fs.store.data.length)) = some (2, 1) ∧
      exec FileStore.step (openStore [0]) [(.load 1 : Call Raw), .truncate [] []] = none := by
  decide +kernel

end Accumulation.Store
