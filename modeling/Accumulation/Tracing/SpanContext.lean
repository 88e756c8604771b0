/-
# Accumulation.Tracing.SpanContext — span contexts, and how they travel.

A span context goes from one process to the next in a `traceparent` header: a version, the trace, the
span and the flags, in hexadecimal digits and with a dash between them.  The reader looks at the digits
alone.  It gets back what has been written, and what it makes of any header with digits in the right
places is written with small letters (`w3c_round_trip`).
-/
import Mathlib

namespace Accumulation.Tracing

/-- A C string, which is read by index. -/
abbrev Chars := List UInt8

def char (str : Chars) (i : ℕ) : UInt8 := str.getD i 0

/-! ## Hexadecimal digits -/

/-- `hex` -/
def hex (n : UInt8) : UInt8 := if n < 10 then 48 + n else 87 + n

/-- `bytes_to_hex_string` -/
def bytesToHexString (pin : List UInt8) : Chars :=
  pin.flatMap fun (b : UInt8) => [hex (b >>> 4 &&& 0xF), hex (b &&& 0xF)]

/-- What `hex_string_to_bytes` makes of a character, which is signed. -/
def nib (ch : UInt8) : UInt8 :=
  let c := ch.toBitVec.signExtend 32
  .ofBitVec (((c &&& 0xF) + c.sshiftRight 6 ||| c.sshiftRight 3 &&& 0x8).setWidth 8)

/-- `hex_string_to_bytes`, of the characters from a position on -/
def hexStringToBytes (str : Chars) (start size : ℕ) : List UInt8 :=
  (List.range (size / 2)).map fun i =>
    nib (char str (start + 2 * i)) <<< 4 ||| nib (char str (start + 2 * i + 1))

/-! ## Span contexts -/

structure SpanContext where
  traceID : List UInt8
  spanID : List UInt8
  traceFlags : UInt8
  traceID_length : traceID.length = 16
  spanID_length : spanID.length = 8
  deriving DecidableEq

/-- `span_context_to_w3c_string` -/
def spanContextToW3cString (ctx : SpanContext) : Chars :=
  [48, 48, 45] ++ bytesToHexString ctx.traceID ++ [45] ++ bytesToHexString ctx.spanID ++ [45] ++
    bytesToHexString [ctx.traceFlags]

/-- `w3c_string_to_span_context` -/
def w3cStringToSpanContext (str : Chars) : SpanContext where
  traceID := hexStringToBytes str 3 32
  spanID := hexStringToBytes str 36 16
  traceFlags := (hexStringToBytes str 53 2).headD 0
  traceID_length := by rw [hexStringToBytes, List.length_map, List.length_range]
  spanID_length := by rw [hexStringToBytes, List.length_map, List.length_range]

/-! ## Digits and bytes -/

/-- A hexadecimal digit, small or capital. -/
def IsDigit (ch : UInt8) : Prop :=
  48 ≤ ch ∧ ch ≤ 57 ∨ 65 ≤ ch ∧ ch ≤ 70 ∨ 97 ≤ ch ∧ ch ≤ 102

instance (ch : UInt8) : Decidable (IsDigit ch) := inferInstanceAs (Decidable (_ ∨ _))

/-- The small letter. -/
def lower (ch : UInt8) : UInt8 := if 65 ≤ ch ∧ ch ≤ 70 then ch + 32 else ch

theorem forall_uInt8 {P : UInt8 → Prop} (h : ∀ n : Fin 256, P (.ofNat n)) (b : UInt8) : P b := by
  have hb := h ⟨b.toNat, b.toNat_lt⟩
  rwa [UInt8.ofNat_toNat] at hb

/-- **A byte** is what its digits say. -/
theorem nib_hex (b : UInt8) : nib (hex (b >>> 4 &&& 0xF)) <<< 4 ||| nib (hex (b &&& 0xF)) = b := by
  apply forall_uInt8 (P := fun b => nib (hex (b >>> 4 &&& 0xF)) <<< 4 ||| nib (hex (b &&& 0xF)) = b)
  decide +kernel

/-- **A digit** is what it is read as. -/
theorem hex_nib {ch : UInt8} (h : IsDigit ch) : nib ch < 16 ∧ hex (nib ch) = lower ch := by
  revert h
  apply forall_uInt8 (P := fun ch => IsDigit ch → nib ch < 16 ∧ hex (nib ch) = lower ch)
  decide +kernel

/-- The halves of a byte. -/
theorem halves {x y : UInt8} (hx : x < 16) (hy : y < 16) :
    (x <<< 4 ||| y) >>> 4 &&& 0xF = x ∧ (x <<< 4 ||| y) &&& 0xF = y := by
  have hall : ∀ m n : Fin 16, ((UInt8.ofNat m) <<< 4 ||| UInt8.ofNat n) >>> 4 &&& 0xF = UInt8.ofNat m ∧
      ((UInt8.ofNat m) <<< 4 ||| UInt8.ofNat n) &&& 0xF = UInt8.ofNat n := by
    decide +kernel
  have hxy := hall ⟨x.toNat, UInt8.lt_iff_toNat_lt.mp hx⟩ ⟨y.toNat, UInt8.lt_iff_toNat_lt.mp hy⟩
  simpa only [UInt8.ofNat_toNat] using hxy

theorem length_bytesToHexString (bs : List UInt8) : (bytesToHexString bs).length = 2 * bs.length := by
  induction bs with
  | nil => rfl
  | cons b bs ih =>
    rw [bytesToHexString, List.flatMap_cons, List.length_append, ← bytesToHexString, ih]
    simp only [List.length_cons, List.length_nil]
    omega

/-- The two digits of a byte in a row. -/
theorem char_bytesToHexString (bs : List UInt8) (rest : Chars) {i : ℕ} (hi : i < bs.length) :
    char (bytesToHexString bs ++ rest) (2 * i) = hex (bs[i] >>> 4 &&& 0xF) ∧
      char (bytesToHexString bs ++ rest) (2 * i + 1) = hex (bs[i] &&& 0xF) := by
  induction bs generalizing i with
  | nil => exact absurd hi (Nat.not_lt_zero i)
  | cons b bs ih =>
    cases i with
    | zero => exact ⟨rfl, rfl⟩
    | succ i => exact ih (Nat.lt_of_succ_lt_succ hi)

/-- **Digits are read back**, wherever they stand. -/
theorem hexStringToBytes_bytesToHexString (pre : Chars) (bs : List UInt8) (rest : Chars) :
    hexStringToBytes (pre ++ bytesToHexString bs ++ rest) pre.length (2 * bs.length) = bs := by
  have hskip (i : ℕ) : char (pre ++ bytesToHexString bs ++ rest) (pre.length + i) =
      char (bytesToHexString bs ++ rest) i := by
    unfold char
    rw [List.append_assoc, List.getD_eq_getElem?_getD, List.getElem?_append_right (by omega),
      Nat.add_sub_cancel_left, List.getD_eq_getElem?_getD]
  refine List.ext_getElem (by simp [hexStringToBytes]) fun i hi hi' => ?_
  obtain ⟨hhigh, hlow⟩ := char_bytesToHexString bs rest hi'
  simp only [hexStringToBytes, List.getElem_map, List.getElem_range]
  rw [hskip, Nat.add_assoc, hskip, hhigh, hlow, nib_hex]

/-- Characters, with small letters. -/
def lowered (str : Chars) (start n : ℕ) : Chars :=
  (List.range n).map fun i => lower (char str (start + i))

theorem hexStringToBytes_succ (str : Chars) (start n : ℕ) :
    hexStringToBytes str start (2 * (n + 1)) =
      (nib (char str start) <<< 4 ||| nib (char str (start + 1))) ::
        hexStringToBytes str (start + 2) (2 * n) := by
  have hhalf (m : ℕ) : 2 * m / 2 = m := Nat.mul_div_cancel_left m (by omega)
  rw [hexStringToBytes, hexStringToBytes, hhalf, hhalf, List.range_succ_eq_map, List.map_cons,
    List.map_map]
  refine congrArg (List.cons _) (List.map_congr_left fun i _ => ?_)
  simp only [Function.comp_apply, Nat.succ_eq_add_one]
  rw [show start + 2 * (i + 1) = start + 2 + 2 * i by omega]

theorem lowered_succ (str : Chars) (start n : ℕ) : lowered str start (2 * (n + 1)) =
    lower (char str start) :: lower (char str (start + 1)) :: lowered str (start + 2) (2 * n) := by
  rw [lowered, lowered, Nat.mul_succ, List.range_succ_eq_map, List.range_succ_eq_map]
  simp only [List.map_cons, List.map_map, Function.comp_def, Nat.succ_eq_add_one, Nat.add_zero,
    Nat.zero_add]
  congr 2
  refine List.map_congr_left fun i _ => ?_
  rw [show start + (i + 1 + 1) = start + 2 + i by omega]

/-- **What is read is written** with small letters. -/
theorem bytesToHexString_hexStringToBytes {str : Chars} {start : ℕ} (n : ℕ)
    (hdigits : ∀ i < 2 * n, IsDigit (char str (start + i))) :
    bytesToHexString (hexStringToBytes str start (2 * n)) = lowered str start (2 * n) := by
  induction n generalizing start with
  | zero => rfl
  | succ n ih =>
    obtain ⟨hhigh, hhigh'⟩ := hex_nib (hdigits 0 (by omega))
    obtain ⟨hlow, hlow'⟩ := hex_nib (hdigits 1 (by omega))
    obtain ⟨hfirst, hsecond⟩ := halves hhigh hlow
    have hrest : ∀ i < 2 * n, IsDigit (char str (start + 2 + i)) := by
      intro i hi
      rw [Nat.add_assoc]
      exact hdigits (2 + i) (by omega)
    rw [hexStringToBytes_succ, lowered_succ, bytesToHexString, List.flatMap_cons, ← bytesToHexString,
      ih hrest]
    rw [Nat.add_zero] at hhigh' hfirst hsecond
    rw [hfirst, hsecond, hhigh', hlow']
    rfl

/-! ## Round trips -/

/-- The reader gets back what has been written. -/
theorem read_written (ctx : SpanContext) :
    w3cStringToSpanContext (spanContextToW3cString ctx) = ctx := by
  have htrace := ctx.traceID_length
  have hspan := ctx.spanID_length
  have h₁ := hexStringToBytes_bytesToHexString [48, 48, 45] ctx.traceID
    ([45] ++ bytesToHexString ctx.spanID ++ [45] ++ bytesToHexString [ctx.traceFlags])
  have h₂ := hexStringToBytes_bytesToHexString ([48, 48, 45] ++ bytesToHexString ctx.traceID ++ [45])
    ctx.spanID ([45] ++ bytesToHexString [ctx.traceFlags])
  have h₃ := hexStringToBytes_bytesToHexString
    ([48, 48, 45] ++ bytesToHexString ctx.traceID ++ [45] ++ bytesToHexString ctx.spanID ++ [45])
    [ctx.traceFlags] []
  simp only [List.length_append, length_bytesToHexString, htrace, hspan, List.length_cons,
    List.length_nil, List.append_assoc, List.append_nil] at h₁ h₂ h₃
  rcases ctx with ⟨traceID, spanID, traceFlags, htrace, hspan⟩
  simp only [w3cStringToSpanContext, spanContextToW3cString, List.append_assoc, h₁, h₂, h₃]
  rfl

/-- Hexadecimal digits where the reader looks for them. -/
structure HasDigits (str : Chars) : Prop where
  traceID : ∀ i < 32, IsDigit (char str (3 + i))
  spanID : ∀ i < 16, IsDigit (char str (36 + i))
  traceFlags : ∀ i < 2, IsDigit (char str (53 + i))

/-- **A span context goes round**, in the 55 characters there are for it; and a header with digits where
they belong comes back in small letters, whatever its version and whatever stands between them. -/
theorem w3c_round_trip :
    (∀ ctx, w3cStringToSpanContext (spanContextToW3cString ctx) = ctx ∧
      (spanContextToW3cString ctx).length = 55) ∧
    ∀ str, HasDigits str → spanContextToW3cString (w3cStringToSpanContext str) =
      [48, 48, 45] ++ lowered str 3 32 ++ [45] ++ lowered str 36 16 ++ [45] ++ lowered str 53 2 := by
  refine ⟨fun ctx => ⟨read_written ctx, ?_⟩, fun str h => ?_⟩
  · simp only [spanContextToW3cString, List.length_append, length_bytesToHexString,
      ctx.traceID_length, ctx.spanID_length, List.length_cons, List.length_nil]
  · have hflags : bytesToHexString [(hexStringToBytes str 53 2).headD 0] = lowered str 53 2 :=
      bytesToHexString_hexStringToBytes 1 h.traceFlags
    have htrace : bytesToHexString (hexStringToBytes str 3 32) = lowered str 3 32 :=
      bytesToHexString_hexStringToBytes 16 h.traceID
    have hspan : bytesToHexString (hexStringToBytes str 36 16) = lowered str 36 16 :=
      bytesToHexString_hexStringToBytes 8 h.spanID
    simp only [spanContextToW3cString, w3cStringToSpanContext, hflags, htrace, hspan]

/-- A header in capital letters. -/
def capitals : Chars := "00-0AF7651916CD43DD8448EB211C80319C-B7AD6B7169203331-01".toList.map
  fun c => .ofNat c.toNat

theorem w3c_round_trip_capitals : spanContextToW3cString (w3cStringToSpanContext capitals) =
    [48, 48, 45] ++ lowered capitals 3 32 ++ [45] ++ lowered capitals 36 16 ++ [45] ++
      lowered capitals 53 2 :=
  w3c_round_trip.2 capitals
    ⟨by decide +kernel, by decide +kernel, by decide +kernel⟩

end Accumulation.Tracing
