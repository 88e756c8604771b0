/-
# Accumulation.Lib.Wrapping — counters that wrap, and rings that are indexed by them.

A counter of 32 bits stands for a natural number that is never written down.  Two counters that are
less than 2^32 apart still have the right difference (`toNat_sub`), and a ring whose length is a power
of two finds the slot of a position from its counter (`toNat_and_mask`).  Positions in a window no
longer than the ring have slots of their own (`eq_of_mod_eq`).
-/
import Mathlib

namespace Accumulation.Lib.Wrapping

/-- The counter of a number. -/
abbrev counter (n : ℕ) : UInt32 := UInt32.ofNat n

theorem counter_add (m n : ℕ) : counter (m + n) = counter m + counter n := UInt32.ofNat_add m n

/-- **The difference of two counters** is that of their numbers, if it fits. -/
theorem toNat_sub {m n : ℕ} (hmn : m ≤ n) (hfits : n - m < 2 ^ 32) :
    (counter n - counter m).toNat = n - m := by
  have hsplit : counter n = counter (n - m) + counter m := by
    rw [← counter_add, Nat.sub_add_cancel hmn]
  rw [hsplit, UInt32.add_sub_cancel, UInt32.toNat_ofNat', Nat.mod_eq_of_lt hfits]

theorem counter_sub_eq_zero_iff {m n : ℕ} (hmn : m ≤ n) (hfits : n - m < 2 ^ 32) :
    counter n - counter m = 0 ↔ m = n := by
  rw [← UInt32.toNat_inj, toNat_sub hmn hfits]
  simp only [UInt32.toNat_zero]
  omega

/-- **The slot of a position** in a ring of `2 ^ k`. -/
theorem toNat_and_mask {k : ℕ} (hk : k < 32) (n : ℕ) :
    (counter n &&& (counter (2 ^ k) - 1)).toNat = n % 2 ^ k := by
  have hpow : 2 ^ k < 2 ^ 32 := Nat.pow_lt_pow_right (by omega) hk
  have hpos : 1 ≤ 2 ^ k := Nat.one_le_two_pow
  have hmask : (counter (2 ^ k) - 1).toNat = 2 ^ k - 1 := toNat_sub (m := 1) hpos (by omega)
  rw [UInt32.toNat_and, hmask, Nat.and_two_pow_sub_one_eq_mod, UInt32.toNat_ofNat',
    Nat.mod_mod_of_dvd n (Nat.pow_dvd_pow 2 hk.le)]

/-- Two positions of a window have slots of their own. -/
theorem eq_of_mod_eq {low size p q : ℕ} (hp : low ≤ p ∧ p < low + size)
    (hq : low ≤ q ∧ q < low + size) (h : p % size = q % size) : p = q := by
  rcases Nat.le_total p q with hle | hle
  · have hdvd := (Nat.modEq_iff_dvd' hle).mp h
    have hzero := Nat.eq_zero_of_dvd_of_lt hdvd (by omega)
    omega
  · have hdvd := (Nat.modEq_iff_dvd' hle).mp h.symm
    have hzero := Nat.eq_zero_of_dvd_of_lt hdvd (by omega)
    omega

/-! ## Counters of 64 bits -/

abbrev counter64 (n : ℕ) : UInt64 := UInt64.ofNat n

theorem counter64_add (m n : ℕ) : counter64 (m + n) = counter64 m + counter64 n :=
  UInt64.ofNat_add m n

theorem toNat_sub64 {m d : ℕ} (hfits : d < 2 ^ 64) :
    (counter64 (m + d) - counter64 m).toNat = d := by
  rw [Nat.add_comm, counter64_add, UInt64.add_sub_cancel, UInt64.toNat_ofNat_of_lt' hfits]

/-- Two counters are equal if and only if their numbers are, if these are close enough. -/
theorem counter64_add_eq_iff {m d : ℕ} (hfits : d < 2 ^ 64) :
    counter64 (m + d) = counter64 m ↔ d = 0 := by
  refine ⟨fun h => ?_, fun h => by rw [h, Nat.add_zero]⟩
  have hmod : (m + d) % 2 ^ 64 = m % 2 ^ 64 := by
    rw [← UInt64.toNat_ofNat', ← UInt64.toNat_ofNat']
    exact congrArg UInt64.toNat h
  have hsame := eq_of_mod_eq ⟨Nat.le_add_right m d, Nat.add_lt_add_left hfits m⟩
    ⟨le_rfl, Nat.lt_add_of_pos_right (by omega)⟩ hmod
  omega

/-- The slot of a position in a ring of `2 ^ k`. -/
theorem toNat_and_mask64 {k : ℕ} (hk : k < 64) (n : ℕ) :
    (counter64 n &&& (counter64 (2 ^ k) - 1)).toNat = n % 2 ^ k := by
  have hpow : 2 ^ k < 2 ^ 64 := Nat.pow_lt_pow_right (by omega) hk
  have hsize : (counter64 (2 ^ k)).toNat = 2 ^ k := UInt64.toNat_ofNat_of_lt' hpow
  have hpos : (1 : UInt64) ≤ counter64 (2 ^ k) := by
    rw [UInt64.le_iff_toNat_le, hsize]
    exact Nat.one_le_two_pow
  rw [UInt64.toNat_and, UInt64.toNat_sub_of_le _ _ hpos, hsize]
  show (counter64 n).toNat &&& (2 ^ k - 1) = n % 2 ^ k
  rw [Nat.and_two_pow_sub_one_eq_mod, UInt64.toNat_ofNat',
    Nat.mod_mod_of_dvd n (Nat.pow_dvd_pow 2 hk.le)]

end Accumulation.Lib.Wrapping
