/-
# Accumulation.Lib.OnesComplement — sums with an end-around carry.

With a modulus `m` of all ones, `0` and `m` are the two zeros of one's complement arithmetic.  A sum
of numbers up to `m` is congruent to their sum (`sum_modEq`), and it is the plain zero only if all of
them are (`sum_eq_zero_iff`).  So whether the sum is all ones can be told from the plain sum
(`sum_eq_ones_iff`), which is what the checksums of the Internet protocols rest on: a number can be
taken out and another put in, and the checksum stays right exactly when the two are congruent
(`ones_congr`).  A sum that has been taken without the carry is brought back by `fold`.
-/
import Mathlib

namespace Accumulation.Lib.OnesComplement

variable {m : ℕ}

/-- Addition with an end-around carry. -/
def add (m a b : ℕ) : ℕ := if a + b ≤ m then a + b else a + b - m

def sum (m : ℕ) (ws : List ℕ) : ℕ := ws.foldl (add m) 0

theorem add_le {a b : ℕ} (ha : a ≤ m) (hb : b ≤ m) : add m a b ≤ m := by
  unfold add
  split
  · assumption
  · omega

theorem add_modEq (a b : ℕ) : add m a b ≡ a + b [MOD m] := by
  unfold add
  split
  · exact Nat.ModEq.rfl
  · rename_i h
    have hle : m ≤ a + b := by omega
    show (a + b - m) % m = (a + b) % m
    exact (Nat.mod_eq_sub_mod hle).symm

/-- The carry never leaves a zero behind. -/
theorem add_eq_zero_iff {a b : ℕ} : add m a b = 0 ↔ a = 0 ∧ b = 0 := by
  unfold add
  split
  · omega
  · omega

theorem foldl_modEq (ws : List ℕ) (a : ℕ) : ws.foldl (add m) a ≡ a + ws.sum [MOD m] := by
  induction ws generalizing a with
  | nil => exact Nat.ModEq.rfl
  | cons w ws ih =>
    rw [List.foldl_cons, List.sum_cons, ← add_assoc]
    exact (ih _).trans ((add_modEq a w).add_right ws.sum)

theorem sum_modEq (ws : List ℕ) : sum m ws ≡ ws.sum [MOD m] := by
  have h := foldl_modEq (m := m) ws 0
  rwa [zero_add] at h

theorem foldl_eq_zero_iff (ws : List ℕ) (a : ℕ) :
    ws.foldl (add m) a = 0 ↔ a = 0 ∧ ws.sum = 0 := by
  induction ws generalizing a with
  | nil => simp
  | cons w ws ih =>
    rw [List.foldl_cons, List.sum_cons, ih, add_eq_zero_iff]
    omega

theorem sum_eq_zero_iff (ws : List ℕ) : sum m ws = 0 ↔ ws.sum = 0 := by
  rw [sum, foldl_eq_zero_iff]
  exact ⟨fun h => h.2, fun h => ⟨rfl, h⟩⟩

theorem foldl_le {ws : List ℕ} (hws : ∀ w ∈ ws, w ≤ m) {a : ℕ} (ha : a ≤ m) :
    ws.foldl (add m) a ≤ m := by
  induction ws generalizing a with
  | nil => exact ha
  | cons w ws ih =>
    rw [List.foldl_cons]
    apply ih fun v hv => hws v (List.mem_cons_of_mem w hv)
    exact add_le ha (hws w List.mem_cons_self)

theorem eq_ones_of_modEq_zero {a : ℕ} (ha : a ≤ m) (hmod : a ≡ 0 [MOD m]) (hne : a ≠ 0) :
    a = m :=
  le_antisymm ha (Nat.le_of_dvd (Nat.pos_of_ne_zero hne) ((Nat.modEq_zero_iff_dvd).mp hmod))

/-- **The sum is all ones** if the plain sum is a multiple of the modulus, but not zero. -/
theorem sum_eq_ones_iff {ws : List ℕ} (hws : ∀ w ∈ ws, w ≤ m) (hm : 0 < m) :
    sum m ws = m ↔ ws.sum ≠ 0 ∧ ws.sum ≡ 0 [MOD m] := by
  have hmod := sum_modEq (m := m) ws
  have hle := foldl_le hws (Nat.zero_le m)
  have hzero := sum_eq_zero_iff (m := m) ws
  constructor
  · intro h
    refine ⟨fun hsum => ?_, ?_⟩
    · rw [← hzero, h] at hsum
      omega
    · rw [h] at hmod
      exact hmod.symm.trans (by simp [Nat.ModEq])
  · rintro ⟨hne, hcong⟩
    exact eq_ones_of_modEq_zero hle (hmod.trans hcong) (mt hzero.mp hne)

/-- **Replacing a part** of what is summed up. -/
theorem ones_congr {ws vs : List ℕ} (hws : ∀ w ∈ ws, w ≤ m) (hvs : ∀ v ∈ vs, v ≤ m) (hm : 0 < m)
    (hne : vs.sum ≠ 0) {a b rest : ℕ} (ha : ws.sum = a + rest) (hb : vs.sum = b + rest)
    (hones : sum m ws = m) : sum m vs = m ↔ b ≡ a [MOD m] := by
  rcases (sum_eq_ones_iff hws hm).mp hones with ⟨-, hcong⟩
  rw [sum_eq_ones_iff hvs hm, hb]
  rw [ha] at hcong
  constructor
  · rintro ⟨-, h⟩
    exact Nat.ModEq.add_right_cancel' rest (h.trans hcong.symm)
  · intro h
    exact ⟨hb ▸ hne, (h.add_right rest).trans hcong⟩

/-- **Two sums are the same** if they are congruent and the same zero. -/
theorem eq_of_modEq {a b : ℕ} (ha : a ≤ m) (hb : b ≤ m) (hmod : a ≡ b [MOD m])
    (hzero : a = 0 ↔ b = 0) : a = b := by
  have hself : m ≡ 0 [MOD m] := by simp [Nat.ModEq]
  by_cases hzeroMod : a ≡ 0 [MOD m]
  · by_cases hne : a = 0
    · rw [hne, hzero.mp hne]
    · rw [eq_ones_of_modEq_zero ha hzeroMod hne,
        eq_ones_of_modEq_zero hb (hmod.symm.trans hzeroMod) (mt hzero.mpr hne)]
  · have hlt {c : ℕ} (hc : c ≤ m) (hmodc : ¬ c ≡ 0 [MOD m]) : c < m :=
      lt_of_le_of_ne hc fun heq => hmodc (heq ▸ hself)
    exact Nat.ModEq.eq_of_lt_of_lt hmod (hlt ha hzeroMod)
      (hlt hb fun hb0 => hzeroMod (hmod.trans hb0))

/-! ## Folding -/

/-- What has been carried beyond `m` is added at the lower end. -/
def fold (m n : ℕ) : ℕ := n % (m + 1) + n / (m + 1)

theorem fold_modEq (n : ℕ) : fold m n ≡ n [MOD m] := by
  have hdiv := Nat.mod_add_div n (m + 1)
  have hsplit : n = fold m n + m * (n / (m + 1)) := by
    unfold fold
    linarith
  conv_rhs => rw [hsplit]
  exact (Nat.add_mul_mod_self_left _ _ _).symm

theorem fold_eq_zero_iff {n : ℕ} : fold m n = 0 ↔ n = 0 := by
  have hdiv := Nat.mod_add_div n (m + 1)
  unfold fold
  constructor
  · intro h
    rw [(Nat.add_eq_zero_iff.mp h).1, (Nat.add_eq_zero_iff.mp h).2] at hdiv
    omega
  · rintro rfl
    simp

/-- However often it is folded, a number stays what it is modulo `m`, and zero only if it was. -/
theorem fold_iterate (k n : ℕ) : (fold m)^[k] n ≡ n [MOD m] ∧ ((fold m)^[k] n = 0 ↔ n = 0) := by
  induction k generalizing n with
  | zero => exact ⟨Nat.ModEq.rfl, Iff.rfl⟩
  | succ k ih =>
    rw [Function.iterate_succ_apply]
    exact ⟨(ih (fold m n)).1.trans (fold_modEq n), (ih (fold m n)).2.trans fold_eq_zero_iff⟩

end Accumulation.Lib.OnesComplement
