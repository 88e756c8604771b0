/-
# Accumulation.Store.Window — reading any bytes, and what is buffered of them.

What `read` makes of the end of a file depends on how much of it has been buffered, since
`readFixedLength` drops the counts of its two reads.  A `Window` is what matters of a reader: the
bytes it has before it and how many of them are buffered.  On windows the reading functions are
plain functions of bytes, and the `_window` theorems say that the code computes them, whatever the
file holds.
-/
import Accumulation.Store.FileStore

namespace Accumulation.Store

open Accumulation.Go Serialization

/-- The bytes up to the end of the file, and how many of them are buffered. -/
structure Window where
  buffered : Nat
  rest : List UInt8
  deriving DecidableEq, Repr

def Window.of (r : Reader) : Window := ⟨r.buffered, r.rest⟩

namespace Window

/-- How many bytes are buffered after `n` bytes have been taken.  A read of a block or more goes past
the buffer. -/
def left (w : Window) (n : Nat) : Nat :=
  if n ≤ w.buffered then w.buffered - n
  else if bufSize ≤ n - w.buffered then 0
  else min bufSize (w.rest.length - w.buffered) - (n - w.buffered)

/-- `readFixedLength` for a length that is not negative.  Where there are too few bytes, it reports
the end of the file if all of them are buffered, and pads them with zeros if not. -/
def field (w : Window) (n : Nat) : Option (List UInt8) × Window :=
  if n ≤ w.rest.length then (some (w.rest.take n), ⟨w.left n, w.rest.drop n⟩)
  else if w.buffered = w.rest.length then (none, ⟨0, []⟩)
  else (some (fill n w.rest), ⟨0, []⟩)

/-- `read`: a payload, or `none` at the end of the file; no result is a panic. -/
def read (w : Window) : Option (Option (List UInt8) × Window) :=
  match w.field 2 with
  | (none, w) => some (none, w)
  | (some head, w) =>
    if int16 (uint16 head) < 0 then none else some (w.field (int16 (uint16 head)).toNat)

variable {α : Type*} [Serialization α]

/-- The loop of `Load`: the requests, the length of their records, and whether a payload could not be
decoded. -/
def load : Nat → Window → Option (List α × Nat × Bool)
  | 0, w => w.read.map fun _ => ([], 0, false)
  | rows + 1, w =>
    match w.read with
    | none => none
    | some (none, _) => some ([], 0, false)
    | some (some data, w) =>
      match decode data with
      | .error _ => some ([], 0, true)
      | .ok req => (load rows w).map fun (reqs, dataLen, undecodable) =>
          (req :: reqs, data.length + 2 + dataLen, undecodable)

end Window

/-! ## The code computes it -/

section

variable {w : Window} {n : Nat}

theorem Window.field_enough (h : n ≤ w.rest.length) :
    w.field n = (some (w.rest.take n), ⟨w.left n, w.rest.drop n⟩) := if_pos h

theorem Window.field_ended (h : w.rest.length < n) (hall : w.buffered = w.rest.length) :
    w.field n = (none, ⟨0, []⟩) := by
  rw [field, if_neg (Nat.not_le.mpr h), if_pos hall]

theorem Window.field_padded (h : w.rest.length < n) (hsome : w.buffered ≠ w.rest.length) :
    w.field n = (some (fill n w.rest), ⟨0, []⟩) := by
  rw [field, if_neg (Nat.not_le.mpr h), if_neg hsome]

end

theorem Window.of_empty {r : Reader} (h : r.rest = []) : Window.of r = ⟨0, []⟩ := by
  have hbuf : r.buf = [] := (List.append_eq_nil_iff.mp h).1
  rw [Window.of, h, Reader.buffered, hbuf, List.length_nil]

/-- **`readFixedLength` on any bytes.** -/
theorem readFixedLength_window {r : Reader} {data : List UInt8} (hon : r.On data) (n : Nat) :
    ∃ r', readFixedLength r n = some (match ((Window.of r).field n).1 with
        | some bs => .ok bs
        | none => .error .eof, r') ∧
      Window.of r' = ((Window.of r).field n).2 ∧ r'.On data := by
  unfold readFixedLength
  rw [if_neg (by omega), Int.toNat_natCast]
  by_cases hrem : r.buffered < n
  · simp only [if_pos hrem]
    -- the buffered part, and a reader whose buffer is then empty
    obtain ⟨r₁, hread, hbuf, hfile⟩ := r.read_all_buffered
    have hon₁ : r₁.On data := by simpa [Reader.On, hfile] using hon
    have hrest : r.rest = r.buf ++ r₁.rest := by simp [Reader.rest, hbuf, hfile]
    have hlength : r.rest.length = r.buffered + r₁.rest.length := by
      rw [hrest, List.length_append]
      rfl
    rw [show r.read r.buffered = _ from hread]
    by_cases hend : r₁.rest = []
    · rw [hend, List.length_nil] at hlength
      have hfield : (Window.of r).field n = (none, ⟨0, []⟩) :=
        Window.field_ended (show r.rest.length < n by omega) hlength.symm
      refine ⟨r₁, ?_, ?_, hon₁⟩
      · rw [hfield]
        simp only [Reader.read_eof hon₁ (n - r.buffered) (by omega) hend]
      · rw [hfield, Window.of_empty hend]
    · have hpos := List.length_pos_iff.mpr hend
      obtain ⟨r₂, hmore, hrest₂, hon₂⟩ :=
        Reader.read_block hon₁ (n - r.buffered) (by omega) hbuf hend
      have hbuffered := Reader.read_block_buffered hon₁ (n - r.buffered) (by omega) hbuf hend
      rw [hmore] at hbuffered
      refine ⟨r₂, ?_, ?_, hon₂⟩
      · simp only [hmore]
        rw [fill_eq (show r.buf.length = r.buffered from rfl)]
        by_cases hn : n ≤ r.rest.length
        · have htake : (r₁.rest.take (n - r.buffered)).length = n - r.buffered := by
            rw [List.length_take]
            omega
          have hall : r.rest.take n = r.buf ++ r₁.rest.take (n - r.buffered) := by
            rw [hrest, List.take_append, List.take_of_length_le (show r.buf.length ≤ n from hrem.le)]
            rfl
          rw [Window.field_enough (show n ≤ (Window.of r).rest.length from hn), fill_eq htake]
          exact congrArg some (Prod.ext (congrArg Except.ok hall.symm) rfl)
        · have hshort : (Window.of r).rest.length < n := Nat.lt_of_not_le hn
          rw [Window.field_padded hshort (show r.buffered ≠ r.rest.length by omega),
            List.take_of_length_le (by omega)]
          show _ = some (Except.ok (fill n r.rest), r₂)
          rw [hrest]
          simp only [fill, Reader.buffered, List.length_append, List.append_assoc, Nat.sub_sub]
      · by_cases hn : n ≤ r.rest.length
        · have hdrop : r₁.rest.drop (n - r.buffered) = r.rest.drop n := by
            rw [hrest, List.drop_append,
              List.drop_eq_nil_of_le (show r.buf.length ≤ n from hrem.le)]
            rfl
          have hleft : (Window.of r).left n = r₂.buffered := by
            rw [hbuffered, Window.left,
              if_neg (show ¬ n ≤ (Window.of r).buffered from Nat.not_le.mpr hrem)]
            show (if bufSize ≤ n - r.buffered then 0
              else min bufSize (r.rest.length - r.buffered) - (n - r.buffered)) = _
            rw [hlength, Nat.add_sub_cancel_left]
          rw [Window.field_enough (show n ≤ (Window.of r).rest.length from hn), hleft, Window.of,
            hrest₂, hdrop]
          rfl
        · have hend₂ : r₂.rest = [] := by
            rw [hrest₂]
            exact List.drop_eq_nil_of_le (by omega)
          have hshort : (Window.of r).rest.length < n := Nat.lt_of_not_le hn
          rw [Window.field_padded hshort (show r.buffered ≠ r.rest.length by omega)]
          exact Window.of_empty hend₂
  · simp only [if_neg hrem]
    have hle : n ≤ r.buf.length := Nat.le_of_not_lt hrem
    have hread : r.read n = (.ok (r.buf.take n), { r with buf := r.buf.drop n }) := by
      by_cases hb : r.buf = []
      · obtain rfl : n = 0 := by simpa [hb] using hle
        simp [Reader.read_zero]
      · exact Reader.read_buffered _ hb
    have hfield : (Window.of r).field n =
        (some (r.buf.take n), Window.of { r with buf := r.buf.drop n }) := by
      have hlength : r.rest.length = r.buf.length + (r.file.data.drop r.file.pos).length :=
        List.length_append
      have hleft : (Window.of r).left n = (r.buf.drop n).length := by
        rw [Window.left, if_pos (show n ≤ (Window.of r).buffered from hle), List.length_drop]
        rfl
      rw [Window.field_enough (show n ≤ r.rest.length by omega), hleft]
      show (some (r.rest.take n), Window.mk _ (r.rest.drop n)) = _
      rw [Reader.rest, List.take_append_of_le_length hle, List.drop_append_of_le_length hle]
      rfl
    refine ⟨{ r with buf := r.buf.drop n }, ?_, by rw [hfield], hon⟩
    rw [hfield]
    simp only [hread]
    rw [fill_eq (by rw [List.length_take]; omega)]

/-- The header's length decides what `read` does next. -/
theorem Window.read_head {w w₁ : Window} {head : List UInt8} (hfield : w.field 2 = (some head, w₁)) :
    w.read = if int16 (uint16 head) < 0 then none
      else some (w₁.field (int16 (uint16 head)).toNat) := by
  rw [Window.read, hfield]

theorem Window.read_end {w w₁ : Window} (hfield : w.field 2 = (none, w₁)) :
    w.read = some (none, w₁) := by
  rw [Window.read, hfield]

/-- **`read` on any bytes** panics where the window does, -/
theorem read_window_none {r : Reader} {data : List UInt8} (hon : r.On data)
    (hw : (Window.of r).read = none) : read r = none := by
  obtain ⟨r₁, hhead, -, -⟩ := readFixedLength_window hon 2
  rw [read, show (2 : Int) = ((2 : Nat) : Int) from rfl, hhead]
  rcases hfield : (Window.of r).field 2 with ⟨_ | head, w₁⟩
  · rw [Window.read_end hfield] at hw
    cases hw
  · rw [Window.read_head hfield] at hw
    rw [onField_ok]
    generalize int16 (uint16 head) = dLen at hw ⊢
    by_cases hneg : dLen < 0
    · rw [readFixedLength, if_pos hneg]
      rfl
    · rw [if_neg hneg] at hw
      cases hw

/-- and otherwise returns what it does. -/
theorem read_window {r : Reader} {data : List UInt8} (hon : r.On data)
    {res : Option (List UInt8)} {w : Window} (hw : (Window.of r).read = some (res, w)) :
    ∃ r' dLen, Window.of r' = w ∧ r'.On data ∧
      read r = some (.ok (res.map fun bs => ⟨dLen, bs⟩), r') := by
  obtain ⟨r₁, hhead, hw₁, hon₁⟩ := readFixedLength_window hon 2
  rw [read, show (2 : Int) = ((2 : Nat) : Int) from rfl, hhead]
  rcases hfield : (Window.of r).field 2 with ⟨_ | head, w₁⟩
  · rw [Window.read_end hfield] at hw
    cases hw
    rw [hfield] at hw₁
    exact ⟨r₁, 0, hw₁, hon₁, rfl⟩
  · rw [Window.read_head hfield] at hw
    rw [hfield] at hw₁
    obtain rfl : Window.of r₁ = w₁ := hw₁
    rw [onField_ok]
    generalize int16 (uint16 head) = dLen at hw ⊢
    by_cases hneg : dLen < 0
    · rw [if_pos hneg] at hw
      cases hw
    · rw [if_neg hneg, Option.some.injEq] at hw
      obtain ⟨n, rfl⟩ := Int.eq_ofNat_of_zero_le (Int.not_lt.mp hneg)
      obtain ⟨r₂, hbody, hw₂, hon₂⟩ := readFixedLength_window hon₁ n
      rw [Int.toNat_natCast] at hw
      rw [hw] at hbody hw₂
      refine ⟨r₂, n, hw₂, hon₂, ?_⟩
      rw [hbody]
      cases res with
      | none => rfl
      | some body => rfl

section

variable {α : Type*} [Serialization α]

/-- **The loop of `Load` on any bytes** panics where the window's does, -/
theorem loadLoop_window_none {data : List UInt8} (rows : Nat) {r : Reader} (hon : r.On data)
    (hw : Window.load rows (Window.of r) = (none : Option (List α × Nat × Bool))) :
    FileStore.loadLoop rows r = (none : Option (List α × Nat × Bool × Reader)) := by
  induction rows generalizing r with
  | zero =>
    rw [Window.load, Option.map_eq_none_iff] at hw
    rw [FileStore.loadLoop, read_window_none hon hw]
    rfl
  | succ rows ih =>
    rw [Window.load] at hw
    rw [FileStore.loadLoop]
    rcases hread : (Window.of r).read with _ | ⟨_ | body, w⟩ <;> rw [hread] at hw
    · rw [read_window_none hon hread]
    · cases hw
    · obtain ⟨r', dLen, rfl, hon', hcode⟩ := read_window hon hread
      rw [hcode]
      simp only [Option.map_some] at hw ⊢
      rcases hdecode : (decode body : Except Err α) with e | req <;> rw [hdecode] at hw
      · cases hw
      · rw [ih hon' (Option.map_eq_none_iff.mp hw)]
        rfl

/-- and otherwise returns what it does. -/
theorem loadLoop_window {data : List UInt8} (rows : Nat) {r : Reader} (hon : r.On data)
    {reqs : List α} {dataLen : Nat} {undecodable : Bool}
    (hw : Window.load rows (Window.of r) = some (reqs, dataLen, undecodable)) :
    ∃ r', FileStore.loadLoop rows r = some (reqs, dataLen, undecodable, r') ∧ r'.On data := by
  induction rows generalizing r reqs dataLen with
  | zero =>
    rw [Window.load, Option.map_eq_some_iff] at hw
    obtain ⟨⟨res, w⟩, hread, hw⟩ := hw
    cases hw
    obtain ⟨r', dLen, -, hon', hcode⟩ := read_window hon hread
    exact ⟨r', by rw [FileStore.loadLoop, hcode]; rfl, hon'⟩
  | succ rows ih =>
    rw [Window.load] at hw
    rw [FileStore.loadLoop]
    rcases hread : (Window.of r).read with _ | ⟨_ | body, w⟩ <;> rw [hread] at hw
    · cases hw
    · cases hw
      obtain ⟨r', dLen, -, hon', hcode⟩ := read_window hon hread
      exact ⟨r', by rw [hcode]; rfl, hon'⟩
    · obtain ⟨r', dLen, rfl, hon', hcode⟩ := read_window hon hread
      rw [hcode]
      simp only [Option.map_some] at hw ⊢
      rcases hdecode : (decode body : Except Err α) with e | req <;> rw [hdecode] at hw
      · cases hw
        exact ⟨r', rfl, hon'⟩
      · obtain ⟨⟨reqs', dataLen', undecodable'⟩, hloop, hw⟩ := Option.map_eq_some_iff.mp hw
        cases hw
        obtain ⟨r'', hcode', hon''⟩ := ih hon' hloop
        exact ⟨r'', by rw [hcode']; rfl, hon''⟩

/-! ## `Load` as a whole -/

namespace FileStore

variable {data : List UInt8} {pos offset : Nat} {rows : Int}

theorem load_panics (hoff : offset ≤ data.length)
    (hw : Window.load rows.toNat ⟨0, data.drop offset⟩ = (none : Option (List α × Nat × Bool))) :
    load ⟨⟨data, pos, []⟩, offset⟩ rows = (none : Option ((List α × Option Err) × FileStore)) := by
  unfold load
  simp only [File.seek_healthy]
  rw [loadLoop_window_none rows.toNat (Reader.new_on data offset hoff) hw]

/-- A payload that cannot be decoded empties the file. -/
theorem load_undecodable (hoff : offset ≤ data.length) {reqs : List α} {dataLen : Nat}
    (hw : Window.load rows.toNat ⟨0, data.drop offset⟩ = some (reqs, dataLen, true)) :
    load ⟨⟨data, pos, []⟩, offset⟩ rows = some ((reqs, none), ⟨⟨[], 0, []⟩, 0⟩) := by
  obtain ⟨⟨⟨bytes, pos', fates⟩, buf⟩, hloop, hbytes, hfates, hpos'⟩ :=
    loadLoop_window rows.toNat (Reader.new_on data offset hoff) hw
  simp only at hbytes hfates
  subst hbytes hfates
  unfold load
  simp only [File.seek_healthy, hloop, if_true, File.truncate_healthy]

/-- Otherwise the offset moves by the lengths of the records. -/
theorem load_moves (pos : Nat) (hoff : offset ≤ data.length) {reqs : List α} {dataLen : Nat}
    (hw : Window.load rows.toNat ⟨0, data.drop offset⟩ = some (reqs, dataLen, false)) :
    ∃ pos', pos' ≤ data.length ∧ load ⟨⟨data, pos, []⟩, offset⟩ rows =
      if cleanOffsetThreshold < offset + dataLen then
        (truncate ⟨⟨data, pos', []⟩, offset + dataLen⟩ ([] : List α) []).map
          fun (_, fs) => ((reqs, none), fs)
      else some ((reqs, none), ⟨⟨data, pos', []⟩, offset + dataLen⟩) := by
  obtain ⟨⟨⟨bytes, pos', fates⟩, buf⟩, hloop, hbytes, hfates, hpos'⟩ :=
    loadLoop_window rows.toNat (Reader.new_on data offset hoff) hw
  simp only at hbytes hfates hpos'
  subst hbytes hfates
  refine ⟨pos', hpos', ?_⟩
  unfold load
  simp only [File.seek_healthy, hloop, Bool.false_eq_true, if_false]

/-- An offset behind the end of the file makes `truncate` panic. -/
theorem truncate_panics (hoff : data.length < offset) (before after : List α) :
    truncate ⟨⟨data, pos, []⟩, offset⟩ before after = none := by
  unfold truncate
  simp only [File.stat_healthy, if_pos hoff]

end FileStore

end

end Accumulation.Store
