/-
# Accumulation.Store.Leading — the complete records at the head of a file.

`Window.leading` takes off the records that are wholly there and whose payload can be decoded.
`Load` takes exactly these and then makes one more step (`load_leading`), on bytes that do not
begin with such a record.  What that step does is said case by case, for any bytes:
`read_negative`, `read_allBuffered`, `read_cutBody`, `read_cutHeader`.
-/
import Accumulation.Store.Window

namespace Accumulation.Store

open Accumulation.Go Serialization

namespace Window

/-- The payload length that the header claims.  A header of which one byte is there claims what that
byte says. -/
def claimed (w : Window) : Int := int16 (uint16 (w.rest.take 2))

/-- What is before the reader once it has taken `n` bytes that are there. -/
def next (w : Window) (n : Nat) : Window := ⟨w.left n, w.rest.drop n⟩

/-- The record at the head is wholly there. -/
def Complete (w : Window) : Prop :=
  2 ≤ w.rest.length ∧ 0 ≤ w.claimed ∧ 2 + w.claimed.toNat ≤ w.rest.length

instance (w : Window) : Decidable w.Complete := inferInstanceAs (Decidable (_ ∧ _ ∧ _))

/-- The payload of a complete record. -/
def payload (w : Window) : List UInt8 := (w.rest.drop 2).take w.claimed.toNat

/-- What lies behind a complete record. -/
def tail (w : Window) : Window := (w.next 2).next w.claimed.toNat

variable {α : Type*} [Serialization α]

/-- Take off up to `rows` complete records whose payloads can be decoded.  Returns the requests, how
many more would have been taken, and what is then before the reader. -/
def leading : Nat → Window → List α × Nat × Window
  | 0, w => ([], 0, w)
  | rows + 1, w =>
    if w.Complete then
      match decode w.payload with
      | .ok req => match leading rows w.tail with
        | (reqs, rows, w) => (req :: reqs, rows, w)
      | .error _ => ([], rows + 1, w)
    else ([], rows + 1, w)

/-! ## One step of the reader -/

section

variable {w : Window} {n : Nat}

@[simp]
theorem rest_next : (w.next n).rest = w.rest.drop n := rfl

@[simp]
theorem buffered_next : (w.next n).buffered = w.left n := rfl

theorem left_le (hle : w.buffered ≤ w.rest.length) (hn : n ≤ w.rest.length) :
    w.left n ≤ w.rest.length - n := by
  unfold left
  split
  · omega
  · split <;> omega

/-- The reader never has more buffered than there is. -/
theorem next_wf (hle : w.buffered ≤ w.rest.length) (hn : n ≤ w.rest.length) :
    (w.next n).buffered ≤ (w.next n).rest.length := by
  rw [rest_next, List.length_drop]
  exact left_le hle hn

theorem Complete.tail_wf (h : w.Complete) (hle : w.buffered ≤ w.rest.length) :
    w.tail.buffered ≤ w.tail.rest.length := by
  obtain ⟨htwo, -, hbody⟩ := h
  refine next_wf (next_wf hle htwo) ?_
  rw [rest_next, List.length_drop]
  omega

theorem Complete.length_tail (h : w.Complete) :
    w.payload.length + 2 + w.tail.rest.length = w.rest.length := by
  obtain ⟨htwo, -, hbody⟩ := h
  simp only [payload, tail, rest_next, List.length_take, List.length_drop]
  omega

theorem read_header (htwo : 2 ≤ w.rest.length) :
    w.read = if w.claimed < 0 then none else some ((w.next 2).field w.claimed.toNat) :=
  read_head (field_enough htwo)

/-- A complete record is read as it is. -/
theorem read_complete (h : w.Complete) : w.read = some (some w.payload, w.tail) := by
  obtain ⟨htwo, hclaimed, hbody⟩ := h
  rw [read_header htwo, if_neg (Int.not_lt.mpr hclaimed), field_enough]
  · rfl
  · rw [rest_next, List.length_drop]
    omega

/-- A header that claims a negative length is a panic. -/
theorem read_negative (htwo : 2 ≤ w.rest.length) (hclaimed : w.claimed < 0) : w.read = none := by
  rw [read_header htwo, if_pos hclaimed]

/-- With fewer bytes than the header claims, all of them buffered, `read` ends. -/
theorem read_allBuffered (htwo : 2 ≤ w.rest.length) (hclaimed : 0 ≤ w.claimed)
    (hcut : w.rest.length < 2 + w.claimed.toNat) (hall : w.left 2 = w.rest.length - 2) :
    w.read = some (none, ⟨0, []⟩) := by
  rw [read_header htwo, if_neg (Int.not_lt.mpr hclaimed), field_ended]
  · rw [rest_next, List.length_drop]
    omega
  · rw [rest_next, List.length_drop]
    exact hall

/-- If some of them are not buffered, it makes a record of them, padded with zeros. -/
theorem read_cutBody (htwo : 2 ≤ w.rest.length) (hclaimed : 0 ≤ w.claimed)
    (hcut : w.rest.length < 2 + w.claimed.toNat) (hsome : w.left 2 ≠ w.rest.length - 2) :
    w.read = some (some (fill w.claimed.toNat (w.rest.drop 2)), ⟨0, []⟩) := by
  rw [read_header htwo, if_neg (Int.not_lt.mpr hclaimed), field_padded]
  · rfl
  · rw [rest_next, List.length_drop]
    omega
  · rw [rest_next, List.length_drop]
    exact hsome

/-- At the end of the file `read` ends. -/
theorem read_empty (hle : w.buffered ≤ w.rest.length) (hrest : w.rest = []) :
    w.read = some (none, ⟨0, []⟩) := by
  refine read_end (field_ended ?_ ?_)
  · rw [hrest]
    decide
  · rw [hrest] at hle ⊢
    exact Nat.le_zero.mp hle

/-- A single byte that is buffered is the end of the file as well. -/
theorem read_bufferedByte {b : UInt8} (hrest : w.rest = [b]) (hbuf : w.buffered = 1) :
    w.read = some (none, ⟨0, []⟩) := by
  refine read_end (field_ended ?_ ?_)
  · rw [hrest, List.length_singleton]
    decide
  · rw [hrest, hbuf]
    rfl

/-- A single byte that is not buffered is taken for a header whose high byte is zero.  Only if it
claims nothing is there a record, without a payload. -/
theorem read_cutHeader {b : UInt8} (hrest : w.rest = [b]) (hbuf : w.buffered = 0) :
    w.read = some (if b = 0 then some [] else none, ⟨0, []⟩) := by
  have hfield : w.field 2 = (some [b, 0], ⟨0, []⟩) := by
    rw [field_padded, hrest]
    · rfl
    · rw [hrest, List.length_singleton]
      decide
    · rw [hrest, hbuf, List.length_singleton]
      decide
  have hclaimed : int16 (uint16 [b, 0]) = (b.toNat : Int) := by
    have hlt : b.toNat < 2 ^ 8 := b.toNat_lt
    rw [uint16_low, int16_of_lt (by omega)]
  rw [read_head hfield, hclaimed, if_neg (by omega), Int.toNat_natCast]
  by_cases hb : b = 0
  · rw [if_pos hb, hb]
    rfl
  · have hpos : 0 < b.toNat := by
      rw [Nat.pos_iff_ne_zero]
      exact fun hzero => hb (UInt8.toNat_inj.mp hzero)
    rw [if_neg hb, field_ended hpos rfl]

end

/-! ## `Load` takes the leading records first -/

theorem load_zero (w : Window) : load 0 w = w.read.map fun _ => (([] : List α), 0, false) := rfl

theorem load_none {w w' : Window} (rows : Nat) (hread : w.read = some (none, w')) :
    load rows w = some (([] : List α), 0, false) := by
  cases rows with
  | zero => rw [load_zero, hread]; rfl
  | succ rows => rw [load, hread]

theorem load_panic {w : Window} (rows : Nat) (hread : w.read = none) :
    load rows w = (none : Option (List α × Nat × Bool)) := by
  cases rows with
  | zero => rw [load_zero, hread]; rfl
  | succ rows => rw [load, hread]

theorem load_error {w w' : Window} {bs : List UInt8} {e : Err} (rows : Nat)
    (hread : w.read = some (some bs, w')) (hdecode : (decode bs : Except Err α) = .error e) :
    load (rows + 1) w = some (([] : List α), 0, true) := by
  rw [load, hread]
  simp only [hdecode]

theorem load_ok {w w' : Window} {bs : List UInt8} {req : α} (rows : Nat)
    (hread : w.read = some (some bs, w')) (hdecode : decode bs = .ok req) :
    load (rows + 1) w = (load rows w').map fun (reqs, dataLen, undecodable) =>
      (req :: reqs, bs.length + 2 + dataLen, undecodable) := by
  rw [load, hread]
  simp only [hdecode]

/-- Where no record is taken off there is nothing to show. -/
theorem load_stays (rows : Nat) {w : Window} (hle : w.buffered ≤ w.rest.length) :
    ∃ taken, taken + w.rest.length = w.rest.length ∧ w.buffered ≤ w.rest.length ∧
      load rows w = (load rows w).map fun (more, dataLen, undecodable) =>
        (([] : List α) ++ more, taken + dataLen, undecodable) := by
  refine ⟨0, Nat.zero_add _, hle, ?_⟩
  simp only [List.nil_append, Nat.zero_add]
  exact Option.map_id'.symm

/-- **`Load` takes the leading records**, whose lengths are the bytes it has taken, and goes on with
what is left. -/
theorem load_leading (rows : Nat) {w : Window} (hle : w.buffered ≤ w.rest.length)
    {reqs : List α} {rows' : Nat} {w' : Window} (h : leading rows w = (reqs, rows', w')) :
    ∃ taken, taken + w'.rest.length = w.rest.length ∧ w'.buffered ≤ w'.rest.length ∧
      load rows w = (load rows' w').map fun (more, dataLen, undecodable) =>
        (reqs ++ more, taken + dataLen, undecodable) := by
  induction rows generalizing w reqs with
  | zero =>
    cases h
    exact load_stays 0 hle
  | succ rows ih =>
    rw [leading] at h
    split at h
    · rename_i hcomplete
      rcases hdecode : (decode w.payload : Except Err α) with e | req <;> rw [hdecode] at h
      · cases h
        exact load_stays (rows + 1) hle
      · rcases hrec : (leading rows w.tail : List α × Nat × Window) with ⟨reqs₁, rows₁, w₁⟩
        rw [hrec] at h
        cases h
        obtain ⟨taken, htaken, hle', hload⟩ := ih (hcomplete.tail_wf hle) hrec
        have hlength := hcomplete.length_tail
        refine ⟨w.payload.length + 2 + taken, by omega, hle', ?_⟩
        rw [load_ok rows (read_complete hcomplete) hdecode, hload, Option.map_map]
        simp only [Function.comp_def, List.cons_append, Nat.add_assoc]
    · cases h
      exact load_stays (rows + 1) hle

/-- What is left does not begin with a complete record that can be decoded, unless no more records
were asked for. -/
theorem leading_stuck (rows : Nat) {w : Window} {reqs : List α} {rows' : Nat} {w' : Window}
    (h : leading rows w = (reqs, rows', w')) (hmore : 0 < rows') (hcomplete : w'.Complete) :
    ∃ e, (decode w'.payload : Except Err α) = .error e := by
  induction rows generalizing w reqs with
  | zero =>
    cases h
    exact absurd hmore (Nat.lt_irrefl 0)
  | succ rows ih =>
    rw [leading] at h
    split at h
    · rcases hdecode : (decode w.payload : Except Err α) with e | req <;> rw [hdecode] at h
      · cases h
        exact ⟨e, hdecode⟩
      · rcases hrec : (leading rows w.tail : List α × Nat × Window) with ⟨reqs₁, rows₁, w₁⟩
        rw [hrec] at h
        cases h
        exact ih hrec
    · rename_i hnot
      cases h
      exact absurd hcomplete hnot

end Window

end Accumulation.Store
