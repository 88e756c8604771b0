/-
# Accumulation.Xdp.HeaderChecksum — the header checksum is right behind four folds.

`csum_fold_helper` adds the upper bits to the lower sixteen, four times.  Each time the sum stays
what it is modulo 65535, and it is zero only if it was; four times are enough for 64 bits
(`fold_four`).
So the checksum that the program stores makes the words of the header add up to ones
(`four_folds_enough`).  The sum is taken in the byte order of the host, which on a little-endian one
multiplies it by 256: modulo 65535 nothing is lost by that.
-/
import Accumulation.Xdp.Checksum

namespace Accumulation.Xdp

open Accumulation.Lib Accumulation.Xdp.Frame

/-! ## Folding -/

theorem toNat_foldOnce (csum : UInt64) :
    (foldOnce csum).toNat = OnesComplement.fold 65535 csum.toNat := by
  have hlt := csum.toNat_lt
  have hhigh : (csum >>> 16).toNat = csum.toNat / 65536 := by
    rw [UInt64.toNat_shiftRight]
    exact Nat.shiftRight_eq_div_pow _ _
  have hlow : (csum &&& (0xffff : UInt64)).toNat = csum.toNat % 65536 := by
    rw [UInt64.toNat_and]
    exact Nat.and_two_pow_sub_one_eq_mod csum.toNat 16
  unfold foldOnce OnesComplement.fold
  split
  · rw [UInt64.toNat_add, hhigh, hlow]
    omega
  · rename_i hzero
    have hquot : csum.toNat / 65536 = 0 := by
      rw [← hhigh, not_not.mp hzero]
      rfl
    omega

/-- **Four folds** are enough for 64 bits. -/
theorem fold_four (csum : UInt64) : (foldOnce^[4] csum).toNat < 2 ^ 16 ∧
    (foldOnce^[4] csum).toNat ≡ csum.toNat [MOD 65535] ∧
    ((foldOnce^[4] csum).toNat = 0 ↔ csum.toNat = 0) := by
  have hsemi : Function.Semiconj UInt64.toNat foldOnce (OnesComplement.fold 65535) :=
    toNat_foldOnce
  have hfold : (foldOnce^[4] csum).toNat = (OnesComplement.fold 65535)^[4] csum.toNat :=
    hsemi.iterate_right 4 csum
  rw [hfold]
  refine ⟨?_, OnesComplement.fold_iterate 4 csum.toNat⟩
  -- each fold takes sixteen bits away, and the carry is small where there is one
  have hfold₁ {n : ℕ} (h : n < 2 ^ 64) : OnesComplement.fold 65535 n ≤ 2 ^ 48 + 65534 := by
    unfold OnesComplement.fold
    omega
  have hfold₂ {n : ℕ} (h : n ≤ 2 ^ 48 + 65534) : OnesComplement.fold 65535 n ≤ 2 ^ 32 + 65534 := by
    unfold OnesComplement.fold
    omega
  have hfold₃ {n : ℕ} (h : n ≤ 2 ^ 32 + 65534) : OnesComplement.fold 65535 n ≤ 2 ^ 16 + 65534 := by
    unfold OnesComplement.fold
    omega
  have hfold₄ {n : ℕ} (h : n ≤ 2 ^ 16 + 65534) : OnesComplement.fold 65535 n < 2 ^ 16 := by
    unfold OnesComplement.fold
    omega
  exact hfold₄ (hfold₃ (hfold₂ (hfold₁ csum.toNat_lt)))

/-- The four 16-bit parts of a sum. -/
def limbs (csum : UInt64) : List ℕ :=
  [csum.toNat % 65536, csum.toNat / 65536 % 65536, csum.toNat / 65536 / 65536 % 65536,
    csum.toNat / 65536 / 65536 / 65536]

/-- What is left behind the folds is the one's complement sum of the parts. -/
theorem fold_four_eq_sum (csum : UInt64) :
    (foldOnce^[4] csum).toNat = OnesComplement.sum 65535 (limbs csum) := by
  have hlt := csum.toNat_lt
  rcases fold_four csum with ⟨hle, hmod, hzero⟩
  have hlimbs : ∀ w ∈ limbs csum, w ≤ 65535 := by
    intro w hw
    simp only [limbs, List.mem_cons, List.not_mem_nil, or_false] at hw
    rcases hw with rfl | rfl | rfl | rfl <;> omega
  have hsum : (limbs csum).sum ≡ csum.toNat [MOD 65535] := by
    have hfold (n : ℕ) : n % 65536 + n / 65536 ≡ n [MOD 65535] := OnesComplement.fold_modEq n
    calc (limbs csum).sum
        ≡ csum.toNat % 65536 + (csum.toNat / 65536 % 65536 + csum.toNat / 65536 / 65536)
          [MOD 65535] := ((hfold (csum.toNat / 65536 / 65536)).add_left _).add_left _
      _ ≡ csum.toNat % 65536 + csum.toNat / 65536 [MOD 65535] :=
        (hfold (csum.toNat / 65536)).add_left _
      _ ≡ csum.toNat [MOD 65535] := hfold csum.toNat
  refine OnesComplement.eq_of_modEq (by omega) (OnesComplement.foldl_le hlimbs (Nat.zero_le _))
    (hmod.trans (hsum.symm.trans (OnesComplement.sum_modEq _).symm)) ?_
  rw [hzero, OnesComplement.sum_eq_zero_iff]
  simp only [limbs, List.sum_cons, List.sum_nil]
  omega

/-- `csum_fold_helper` returns the complement. -/
theorem toNat_csumFoldHelper (csum : UInt64) :
    (csumFoldHelper csum).toNat = 65535 - (foldOnce^[4] csum).toNat := by
  have hlt := (fold_four csum).1
  have hsize : UInt64.size = 2 ^ 64 := rfl
  rw [csumFoldHelper, UInt64.toNat_toUInt16, UInt64.toNat_not]
  omega

/-! ## Byte orders -/

/-- What a host makes of a 16-bit word, modulo 65535. -/
def ByteOrder.weight : ByteOrder → ℕ
  | .little => 256
  | .big => 1

variable {o : ByteOrder}

theorem coprime_weight (o : ByteOrder) : Nat.Coprime 65535 o.weight := by
  cases o <;> decide

theorem word16_modEq (b : UInt8 × UInt8) :
    (o.word16 b).toNat ≡ o.weight * wire b [MOD 65535] := by
  cases o with
  | little =>
    show (be16 b.2 b.1).toNat ≡ 256 * wire b [MOD 65535]
    rw [toNat_be16, wire, Nat.ModEq]
    omega
  | big =>
    show (be16 b.1 b.2).toNat ≡ 1 * wire b [MOD 65535]
    rw [toNat_be16, one_mul]
    rfl

theorem be32_modEq (x y : UInt16) : (be32 x y).toNat ≡ x.toNat + y.toNat [MOD 65535] := by
  rw [toNat_be32, Nat.ModEq]
  omega

theorem word32_modEq (p q : UInt8 × UInt8) :
    (o.word32 (p, q)).toNat ≡ o.weight * (wire p + wire q) [MOD 65535] := by
  rw [Nat.mul_add]
  cases o with
  | little =>
    refine (be32_modEq _ _).trans ?_
    rw [Nat.add_comm]
    exact (word16_modEq p).add (word16_modEq q)
  | big => exact (be32_modEq _ _).trans ((word16_modEq p).add (word16_modEq q))

theorem eq_of_wire_eq_zero {b : UInt8 × UInt8} (h : wire b = 0) : b = (0, 0) := by
  unfold wire at h
  refine Prod.ext ?_ ?_ <;> apply UInt8.toNat_inj.mp
  · show b.1.toNat = 0
    omega
  · show b.2.toNat = 0
    omega

theorem word32_eq_zero {p q : UInt8 × UInt8} (hp : wire p = 0) (hq : wire q = 0) :
    (o.word32 (p, q)).toNat = 0 := by
  rw [eq_of_wire_eq_zero hp, eq_of_wire_eq_zero hq]
  cases o <;> rfl

/-- The 32-bit words of a text, as a host reads them. -/
def words32 (o : ByteOrder) : List UInt8 → List ℕ
  | a :: b :: c :: d :: rest => (o.word32 ((a, b), c, d)).toNat :: words32 o rest
  | _ => []

/-- **Modulo 65535**, words of 32 bits add up to what words of 16 bits do, but for the byte order. -/
theorem words32_modEq {k : ℕ} {text : List UInt8} (h : text.length = 4 * k) :
    (words32 o text).sum ≡ o.weight * (words text).sum [MOD 65535] ∧
      ((words text).sum = 0 → (words32 o text).sum = 0) := by
  induction k generalizing text with
  | zero =>
    obtain rfl := List.length_eq_zero_iff.mp h
    exact ⟨Nat.ModEq.rfl, fun _ => rfl⟩
  | succ k ih =>
    match text, h with
    | a :: b :: c :: d :: rest, h =>
      have hrest : rest.length = 4 * k := by
        simp only [List.length_cons] at h
        omega
      rcases ih hrest with ⟨hmod, hzero⟩
      simp only [words32, words, List.sum_cons]
      constructor
      · have hword := (word32_modEq (o := o) (a, b) (c, d)).add hmod
        rwa [← Nat.mul_add, Nat.add_assoc] at hword
      · intro hsum
        rw [word32_eq_zero (by omega) (by omega), hzero (by omega)]

/-! ## The checksum of a header -/

/-- `bpf_csum_diff` of a header without options is a one's complement sum of its 32-bit words, in 32
bits. -/
structure SumsWords (o : ByteOrder) (csumDiff : List UInt8 → UInt64) : Prop where
  le : ∀ text : List UInt8, text.length = 20 → (csumDiff text).toNat ≤ 0xffffffff
  modEq : ∀ text : List UInt8, text.length = 20 →
    (csumDiff text).toNat ≡ (words32 o text).sum [MOD 0xffffffff]
  zero : ∀ text : List UInt8, text.length = 20 → (words32 o text).sum = 0 →
    (csumDiff text).toNat = 0

namespace Frame

/-- The first bytes of the IP header in words. -/
def headerWords (frame : Frame) (n : ℕ) : List ℕ := words ((frame.drop 14).take n)

/-- The checksum is valid for the first bytes of the header: with it, the words add up to ones. -/
def HeaderValid (frame : Frame) (n : ℕ) : Prop :=
  OnesComplement.sum 65535 (frame.headerWords n) = 65535

instance (frame : Frame) (n : ℕ) : Decidable (frame.HeaderValid n) :=
  inferInstanceAs (Decidable (_ = _))

/-- The words of a header without options besides the checksum, added up. -/
def headerRest (frame : Frame) : ℕ := ((frame.setPair 24 (0, 0)).headerWords 20).sum

end Frame

variable {frame : Frame} {csumDiff : List UInt8 → UInt64}

theorem headerValid_iff {n : ℕ} : frame.HeaderValid n ↔
    (frame.headerWords n).sum ≠ 0 ∧ (frame.headerWords n).sum ≡ 0 [MOD 65535] :=
  OnesComplement.sum_eq_ones_iff (fun _ hw => le_of_mem_words hw) (by omega)

theorem headerWords_eq {n : ℕ} (hn : 12 ≤ n) (hlength : 26 ≤ frame.length) :
    frame.headerWords n = wire (frame.pairAt 14) :: wire (frame.pairAt 16) ::
      wire (frame.pairAt 18) :: wire (frame.pairAt 20) :: wire (frame.pairAt 22) ::
      wire (frame.pairAt 24) :: words ((frame.drop 26).take (n - 12)) := by
  rw [headerWords, words_take_drop (by omega) (by omega), words_take_drop (by omega) (by omega),
    words_take_drop (by omega) (by omega), words_take_drop (by omega) (by omega),
    words_take_drop (by omega) (by omega), words_take_drop (by omega) (by omega)]
  rfl

/-- The checksum is one of the words. -/
theorem sum_headerWords_setPair {n : ℕ} (hn : 12 ≤ n) (hlength : 26 ≤ frame.length)
    (b : UInt8 × UInt8) : ((frame.setPair 24 b).headerWords n).sum =
      wire b + ((frame.setPair 24 (0, 0)).headerWords n).sum := by
  have hpair (c : UInt8 × UInt8) {j : ℕ} (hj : j + 1 < 24) :
      (frame.setPair 24 c).pairAt j = frame.pairAt j := pairAt_setPair_ne (Or.inl hj)
  have hsum (c : UInt8 × UInt8) : ((frame.setPair 24 c).headerWords n).sum =
      wire (frame.pairAt 14) + (wire (frame.pairAt 16) + (wire (frame.pairAt 18) +
        (wire (frame.pairAt 20) + (wire (frame.pairAt 22) +
          (wire c + (words ((frame.drop 26).take (n - 12))).sum))))) := by
    rw [headerWords_eq hn (by rwa [length_setPair]), hpair c (by omega), hpair c (by omega),
      hpair c (by omega), hpair c (by omega), hpair c (by omega), pairAt_setPair (by omega),
      drop_setPair (by omega)]
    simp only [List.sum_cons]
  have hzero : wire (0, 0) = 0 := rfl
  rw [hsum b, hsum (0, 0), hzero]
  omega

/-- **The stored checksum** makes up for the other words. -/
theorem ipv4Csum_spec (hcsum : SumsWords o csumDiff) (hlength : 34 ≤ frame.length) :
    wire (o.bytes16 (ipv4Csum csumDiff frame)) + frame.headerRest ≡ 0 [MOD 65535] ∧
      wire (o.bytes16 (ipv4Csum csumDiff frame)) + frame.headerRest ≠ 0 := by
  have hheader : (((frame.setPair 24 (0, 0)).drop 14).take 20).length = 20 := by
    rw [List.length_take, List.length_drop, length_setPair]
    omega
  set header := ((frame.setPair 24 (0, 0)).drop 14).take 20 with hdef
  rcases words32_modEq (o := o) (k := 5) hheader with ⟨hwords, hzero⟩
  rcases fold_four (csumDiff header) with ⟨hlt, hfold, hfoldZero⟩
  have hcheck : (ipv4Csum csumDiff frame).toNat = 65535 - (foldOnce^[4] (csumDiff header)).toNat :=
    toNat_csumFoldHelper (csumDiff header)
  have hbytes : o.word16 (o.bytes16 (ipv4Csum csumDiff frame)) = ipv4Csum csumDiff frame :=
    ByteOrder.word16_bytes16 o _
  constructor
  · -- as the host counts, the checksum and the sum of the others are ones
    have hrest : (foldOnce^[4] (csumDiff header)).toNat ≡ o.weight * frame.headerRest
        [MOD 65535] :=
      hfold.trans (((hcsum.modEq header hheader).of_dvd (by decide)).trans hwords)
    have hsum := (word16_modEq (o := o) (o.bytes16 (ipv4Csum csumDiff frame))).symm.add hrest.symm
    rw [hbytes, hcheck, Nat.sub_add_cancel (by omega), ← Nat.mul_add] at hsum
    refine Nat.ModEq.cancel_left_of_coprime (coprime_weight o) (hsum.trans ?_)
    rw [Nat.mul_zero]
    rfl
  · intro hnone
    have hrest : (words32 o header).sum = 0 := hzero (Nat.add_eq_zero_iff.mp hnone).2
    have hsum := hfoldZero.mpr (hcsum.zero header hheader hrest)
    rw [eq_of_wire_eq_zero (Nat.add_eq_zero_iff.mp hnone).1] at hbytes
    rw [← hbytes, hsum] at hcheck
    cases o <;> exact absurd hcheck (by decide)

/-- **Four folds are enough for every checksum.**  They leave the one's complement sum of the 16-bit
parts, which is zero only if all is; and a header whose checksum is taken with them is valid. -/
theorem four_folds_enough (o : ByteOrder) (csumDiff : List UInt8 → UInt64)
    (hcsum : SumsWords o csumDiff) :
    (∀ csum : UInt64, (foldOnce^[4] csum).toNat < 2 ^ 16 ∧
      (foldOnce^[4] csum).toNat ≡ csum.toNat [MOD 65535] ∧
      ((foldOnce^[4] csum).toNat = 0 → csum = 0) ∧
      (csumFoldHelper csum).toNat = 65535 - OnesComplement.sum 65535 (limbs csum)) ∧
    ∀ frame : Frame, 34 ≤ frame.length →
      (frame.store16 o 24 (ipv4Csum csumDiff frame)).HeaderValid 20 := by
  refine ⟨fun csum => ?_, fun frame hlength => ?_⟩
  · rcases fold_four csum with ⟨hlt, hmod, hzero⟩
    refine ⟨hlt, hmod, fun h => UInt64.toNat_inj.mp (hzero.mp h), ?_⟩
    rw [toNat_csumFoldHelper, fold_four_eq_sum]
  · rcases ipv4Csum_spec hcsum hlength with ⟨hmod, hne⟩
    rw [headerValid_iff, store16, sum_headerWords_setPair (by omega) (by omega)]
    exact ⟨hne, hmod⟩

/-! ## A sum of 32-bit words -/

/-- `csumPartial` is one, on a little-endian host. -/
theorem csumPartial_sumsWords : SumsWords .little csumPartial := by
  have hgo (text : List UInt8) : csumPartial.go text = words32 .little text := by
    fun_induction csumPartial.go text with
    | case1 a b c d rest ih => rw [words32, ih]
    | case2 text h => rw [words32]; exact h
  have hle (text : List UInt8) : ∀ w ∈ words32 .little text, w ≤ 0xffffffff := by
    intro w hw
    fun_induction csumPartial.go text with
    | case1 a b c d rest ih =>
      rw [words32] at hw
      rcases List.mem_cons.mp hw with rfl | hw
      · exact Nat.le_of_lt_succ (UInt32.toNat_lt _)
      · exact ih hw
    | case2 text h =>
      rw [words32] at hw
      · nomatch hw
      · exact h
  have hvalue (text : List UInt8) : (csumPartial text).toNat =
      OnesComplement.sum 0xffffffff (words32 .little text) := by
    have hsum := OnesComplement.foldl_le (hle text) (Nat.zero_le 0xffffffff)
    rw [csumPartial, hgo, UInt64.toNat_ofNat']
    exact Nat.mod_eq_of_lt (lt_of_le_of_lt hsum (by decide))
  refine ⟨fun text _ => ?_, fun text _ => ?_, fun text _ hzero => ?_⟩
  · rw [hvalue]
    exact OnesComplement.foldl_le (hle text) (Nat.zero_le _)
  · rw [hvalue]
    exact OnesComplement.sum_modEq _
  · rw [hvalue]
    exact (OnesComplement.sum_eq_zero_iff _).mpr hzero

theorem four_folds_enough_syn : (foldOnce^[4] 0xffffffffffffffff).toNat < 2 ^ 16 ∧
    (syn.store16 .little 24 (ipv4Csum csumPartial syn)).HeaderValid 20 := by
  rcases four_folds_enough .little csumPartial csumPartial_sumsWords with ⟨hfolds, hheader⟩
  exact ⟨(hfolds 0xffffffffffffffff).1, hheader syn (by decide)⟩

end Accumulation.Xdp
