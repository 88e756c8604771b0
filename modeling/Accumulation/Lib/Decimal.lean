/-
# Accumulation.Lib.Decimal — integers in decimal notation.

`spell` writes an integer, `read` reads one; `read` also takes a plus sign and leading zeros, so
only one direction of the round trip holds (`read_spell`).

Behind a text and a dash, an integer can be told from the text but for its sign: the dash may be the
text's last character (`append_spell_inj`).
-/
import Mathlib

namespace Accumulation.Lib.Decimal

/-- The decimal notation of an integer. -/
def spell (n : ℤ) : List Char :=
  if n < 0 then '-' :: Nat.toDigits 10 n.natAbs else Nat.toDigits 10 n.natAbs

/-- The number that a non-empty row of digits denotes. -/
def readDigits (digits : List Char) : Option ℕ :=
  if digits ≠ [] ∧ digits.all Char.isDigit = true then some (Nat.ofDigitChars 10 digits 0) else none

/-- The integer that a row of digits denotes, with or without a sign. -/
def read : List Char → Option ℤ
  | '-' :: digits => (readDigits digits).map fun n : ℕ => -(n : ℤ)
  | '+' :: digits => (readDigits digits).map Int.ofNat
  | digits => (readDigits digits).map Int.ofNat

theorem all_isDigit_toDigits (n : ℕ) : (Nat.toDigits 10 n).all Char.isDigit = true := by
  rw [List.all_eq_true]
  intro c hc
  exact Nat.isDigit_of_mem_toDigits (by omega) (by omega) hc

theorem readDigits_toDigits (n : ℕ) : readDigits (Nat.toDigits 10 n) = some n := by
  rw [readDigits, if_pos ⟨Nat.toDigits_ne_nil, all_isDigit_toDigits n⟩,
    Nat.ofDigitChars_ten_toDigits]

/-- A row of digits starts with one. -/
theorem toDigits_eq_cons (n : ℕ) :
    ∃ c cs, Nat.toDigits 10 n = c :: cs ∧ c.isDigit = true ∧ cs.all Char.isDigit = true := by
  have hall := all_isDigit_toDigits n
  cases h : Nat.toDigits 10 n with
  | nil => exact absurd h Nat.toDigits_ne_nil
  | cons c cs =>
    rw [h, List.all_cons, Bool.and_eq_true] at hall
    exact ⟨c, cs, rfl, hall.1, hall.2⟩

/-- **The round trip**: what was written is read. -/
theorem read_spell (n : ℤ) : read (spell n) = some n := by
  unfold spell
  split
  next hneg =>
    show (readDigits (Nat.toDigits 10 n.natAbs)).map (fun n : ℕ => -(n : ℤ)) = some n
    rw [readDigits_toDigits, Option.map_some]
    congr 1
    show -(n.natAbs : ℤ) = n
    omega
  next hneg =>
    have hread := readDigits_toDigits n.natAbs
    rcases toDigits_eq_cons n.natAbs with ⟨c, cs, h, hc, -⟩
    rw [h] at hread ⊢
    -- the first digit is no sign
    have hminus : c ≠ '-' := by rintro rfl; exact absurd hc (by decide)
    have hplus : c ≠ '+' := by rintro rfl; exact absurd hc (by decide)
    have hdigits : read (c :: cs) = (readDigits (c :: cs)).map Int.ofNat := by
      unfold read
      split
      next heq => exact absurd (List.cons.inj heq).1 hminus
      next heq => exact absurd (List.cons.inj heq).1 hplus
      next => rfl
    rw [hdigits, hread, Option.map_some]
    congr 1
    show (n.natAbs : ℤ) = n
    omega

/-- Only zero starts with the digit zero. -/
theorem toDigits_zero_head {n : ℕ} {cs : List Char} (h : Nat.toDigits 10 n = '0' :: cs) :
    cs = [] := by
  induction n using Nat.strong_induction_on generalizing cs with
  | _ n ih =>
    rcases Nat.lt_or_ge n 10 with hlt | hge
    · rw [Nat.toDigits_of_lt_base hlt] at h
      exact (List.cons.inj h).2.symm
    · rw [Nat.toDigits_of_base_le (by omega) hge] at h
      cases hq : Nat.toDigits 10 (n / 10) with
      | nil => exact absurd hq Nat.toDigits_ne_nil
      | cons d ds =>
        rw [hq, List.cons_append] at h
        obtain rfl := (List.cons.inj h).1
        -- the digits of the quotient are a single zero, so the quotient is zero
        have hds := ih (n / 10) (by omega) hq
        rw [hds] at hq
        have hzero := Nat.ofDigitChars_ten_toDigits (n := n / 10)
        rw [hq] at hzero
        exact absurd (show 0 = n / 10 from hzero) (by omega)

theorem toString_eq_spell (n : ℤ) : (toString n).toList = spell n := by
  rw [Int.toString_eq_repr, Int.repr_eq_if, spell]
  split
  next hpos => rw [if_neg (by omega), Nat.toList_repr, show n.toNat = n.natAbs by omega]
  next hneg =>
    rw [if_pos (by omega), String.toList_append, Nat.toList_repr,
      show (-n).toNat = n.natAbs by omega]
    rfl

/-! ## Digits of other bases -/

section Base

variable {b : ℕ}

theorem exists_of_mem_toDigits (hb : 1 < b) {n : ℕ} {c : Char} (hc : c ∈ Nat.toDigits b n) :
    ∃ d < b, c = Nat.digitChar d := by
  induction n using Nat.strong_induction_on with
  | _ n ih =>
    rcases Nat.lt_or_ge n b with hlt | hge
    · rw [Nat.toDigits_of_lt_base hlt] at hc
      exact ⟨n, hlt, List.mem_singleton.mp hc⟩
    · rw [Nat.toDigits_of_base_le hb hge] at hc
      rcases List.mem_append.mp hc with hc | hc
      · exact ih (n / b) (Nat.div_lt_self (by omega) hb) hc
      · exact ⟨n % b, Nat.mod_lt n (by omega), List.mem_singleton.mp hc⟩

/-- A character that is no digit. -/
theorem notMem_toDigits (hb : 1 < b) (hb' : b ≤ 16) {c : Char}
    (hc : ∀ d < 16, c ≠ Nat.digitChar d) (n : ℕ) : c ∉ Nat.toDigits b n := by
  intro hmem
  obtain ⟨d, hd, heq⟩ := exists_of_mem_toDigits hb hmem
  exact hc d (hd.trans_le hb') heq

theorem digitChar_inj {d e : ℕ} (hd : d < 16) (he : e < 16)
    (h : Nat.digitChar d = Nat.digitChar e) : d = e := by
  have hall : ∀ d < 16, ∀ e < 16, Nat.digitChar d = Nat.digitChar e → d = e := by decide
  exact hall d hd e he h

/-- **Digits tell the number.** -/
theorem toDigits_inj (hb : 1 < b) (hb' : b ≤ 16) {n m : ℕ}
    (h : Nat.toDigits b n = Nat.toDigits b m) : n = m := by
  have hlonger {k : ℕ} (hk : b ≤ k) : 1 < (Nat.toDigits b k).length := by
    rw [Nat.toDigits_of_base_le hb hk, List.length_append]
    have hpos := Nat.length_toDigits_pos (b := b) (n := k / b)
    simpa using hpos
  induction n using Nat.strong_induction_on generalizing m with
  | _ n ih =>
    have hlength := congrArg List.length h
    rcases Nat.lt_or_ge n b with hn | hn <;> rcases Nat.lt_or_ge m b with hm | hm
    · rw [Nat.toDigits_of_lt_base hn, Nat.toDigits_of_lt_base hm] at h
      exact digitChar_inj (by omega) (by omega) (List.cons.inj h).1
    · rw [Nat.toDigits_of_lt_base hn] at hlength
      exact absurd (hlonger hm) (by rw [← hlength]; simp)
    · rw [Nat.toDigits_of_lt_base hm] at hlength
      exact absurd (hlonger hn) (by rw [hlength]; simp)
    · rw [Nat.toDigits_of_base_le hb hn, Nat.toDigits_of_base_le hb hm] at h
      rcases List.append_inj' h rfl with ⟨hinit, hlast⟩
      have hquot := ih (n / b) (Nat.div_lt_self (by omega) hb) hinit
      have hrem := digitChar_inj ((Nat.mod_lt n (by omega)).trans_le hb')
        ((Nat.mod_lt m (by omega)).trans_le hb') (List.cons.inj hlast).1
      rw [← Nat.div_add_mod n b, ← Nat.div_add_mod m b, hquot, hrem]

end Base

/-! ## Behind a text and a dash -/

theorem minus_notMem_toDigits (n : ℕ) : '-' ∉ Nat.toDigits 10 n :=
  notMem_toDigits (by omega) (by omega) (by decide) n

/-- The last separator is where the texts come apart. -/
theorem append_sep_inj {α : Type*} {x : α} {a b c d : List α} (hc : x ∉ c) (hd : x ∉ d)
    (h : a ++ x :: c = b ++ x :: d) : a = b ∧ c = d := by
  rcases List.append_eq_append_iff.mp h with ⟨e, rfl, he⟩ | ⟨e, rfl, he⟩
  · cases e with
    | nil => exact ⟨(List.append_nil a).symm, (List.cons.inj he).2⟩
    | cons y e =>
      obtain ⟨rfl, rfl⟩ := List.cons.inj he
      exact absurd (List.mem_append_right e List.mem_cons_self) hc
  · cases e with
    | nil => exact ⟨List.append_nil b, (List.cons.inj he).2.symm⟩
    | cons y e =>
      obtain ⟨rfl, rfl⟩ := List.cons.inj he
      exact absurd (List.mem_append_right e List.mem_cons_self) hd

theorem append_digits_inj {a b : List Char} {n m : ℕ}
    (h : a ++ '-' :: Nat.toDigits 10 n = b ++ '-' :: Nat.toDigits 10 m) : a = b ∧ n = m :=
  (append_sep_inj (minus_notMem_toDigits n) (minus_notMem_toDigits m) h).imp_right
    (toDigits_inj (by omega) (by omega))

/-- **The parts can be told**, unless the dash is one text's last character and the other number's
sign. -/
theorem append_spell_inj {a b : List Char} {n m : ℤ} :
    a ++ '-' :: spell n = b ++ '-' :: spell m ↔
      (a = b ∧ n = m) ∨ (a = b ++ ['-'] ∧ 0 < n ∧ m = -n) ∨ (b = a ++ ['-'] ∧ 0 < m ∧ n = -m) := by
  have hneg (text : List Char) (k : ℤ) (hk : k < 0) :
      text ++ '-' :: spell k = (text ++ ['-']) ++ '-' :: Nat.toDigits 10 k.natAbs := by
    rw [spell, if_pos hk, List.append_assoc, List.singleton_append]
  have hpos (text : List Char) (k : ℤ) (hk : ¬ k < 0) :
      text ++ '-' :: spell k = text ++ '-' :: Nat.toDigits 10 k.natAbs := by
    rw [spell, if_neg hk]
  constructor
  · intro h
    by_cases hn : n < 0 <;> by_cases hm : m < 0
    · rw [hneg a n hn, hneg b m hm] at h
      rcases append_digits_inj h with ⟨hab, hnm⟩
      exact Or.inl ⟨(List.append_left_inj ['-']).mp hab, by omega⟩
    · rw [hneg a n hn, hpos b m hm] at h
      rcases append_digits_inj h with ⟨hab, hnm⟩
      exact Or.inr (Or.inr ⟨hab.symm, by omega, by omega⟩)
    · rw [hpos a n hn, hneg b m hm] at h
      rcases append_digits_inj h with ⟨hab, hnm⟩
      exact Or.inr (Or.inl ⟨hab, by omega, by omega⟩)
    · rw [hpos a n hn, hpos b m hm] at h
      rcases append_digits_inj h with ⟨hab, hnm⟩
      exact Or.inl ⟨hab, by omega⟩
  · rintro (⟨rfl, rfl⟩ | ⟨rfl, hn, rfl⟩ | ⟨rfl, hm, rfl⟩)
    · rfl
    · rw [hneg b (-n) (by omega), hpos (b ++ ['-']) n (by omega), Int.natAbs_neg]
    · rw [hneg a (-m) (by omega), hpos (a ++ ['-']) m (by omega), Int.natAbs_neg]

end Accumulation.Lib.Decimal
