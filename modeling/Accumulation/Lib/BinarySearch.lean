/-
# Accumulation.Lib.BinarySearch — binary search over an index range, and what it finds in a list.

`search n f` probes a predicate on the indices below `n`.  For any predicate at all it ends at a
border: what lies just before the result fails, and the result itself, if it is below `n`, does not
(`search_border`).  On a list in which the elements that satisfy `p` come last, the border is the
place where they begin, so cutting the list there is the same as filtering it.
-/
import Mathlib

namespace Accumulation.Lib.BinarySearch

/-! ## The search -/

/-- The loop of the search between `i` and `j`; `fuel` bounds the number of probes. -/
def searchLoop (f : Nat → Bool) : Nat → Nat → Nat → Nat
  | 0, i, _ => i
  | fuel + 1, i, j =>
    if i < j then
      if f ((i + j) / 2) then searchLoop f fuel i ((i + j) / 2)
      else searchLoop f fuel ((i + j) / 2 + 1) j
    else i

/-- Binary search for a border of `f` below `n`. -/
def search (n : Nat) (f : Nat → Bool) : Nat := searchLoop f n 0 n

/-- `r` is a border of `f` between `0` and `n`. -/
def Border (n : Nat) (f : Nat → Bool) (r : Nat) : Prop :=
  r ≤ n ∧ (0 < r → f (r - 1) = false) ∧ (r < n → f r = true)

/-- The invariant of the loop: what lies just before `i` fails, and `j` does not. -/
theorem searchLoop_border (f : Nat → Bool) (n fuel i j : Nat) (hij : i ≤ j) (hjn : j ≤ n)
    (hfuel : j - i ≤ fuel) (hi : 0 < i → f (i - 1) = false) (hj : j < n → f j = true) :
    Border n f (searchLoop f fuel i j) := by
  induction fuel generalizing i j with
  | zero =>
    obtain rfl : i = j := by omega
    exact ⟨hjn, hi, hj⟩
  | succ fuel ih =>
    unfold searchLoop
    by_cases hlt : i < j
    · rw [if_pos hlt]
      by_cases hf : f ((i + j) / 2) = true
      · rw [if_pos hf]
        apply ih
        · omega
        · omega
        · omega
        · exact hi
        · intro _
          exact hf
      · rw [if_neg hf]
        apply ih
        · omega
        · omega
        · omega
        · intro _
          rw [Nat.add_sub_cancel]
          exact Bool.eq_false_iff.mpr hf
        · exact hj
    · rw [if_neg hlt]
      obtain rfl : i = j := by omega
      exact ⟨hjn, hi, hj⟩

/-- **Every search ends at a border**, whatever the predicate. -/
theorem search_border (n : Nat) (f : Nat → Bool) : Border n f (search n f) := by
  apply searchLoop_border
  · exact Nat.zero_le n
  · exact le_rfl
  · omega
  · intro h
    exact absurd h (lt_irrefl 0)
  · intro h
    exact absurd h (lt_irrefl n)

/-! ## Searching a list -/

variable {α : Type*}

/-- Search a list for the place where the elements that satisfy `p` begin. -/
def cut (p : α → Bool) (l : List α) : Nat := search l.length fun i => l[i]?.any p

theorem cut_le (p : α → Bool) (l : List α) : cut p l ≤ l.length := (search_border _ _).1

/-- The elements that satisfy `p` come last. -/
def Last (p : α → Bool) (l : List α) : Prop := l.Pairwise fun a b => p a = true → p b = true

theorem getElem_any {p : α → Bool} {l : List α} {i : Nat} (hi : i < l.length) :
    l[i]?.any p = p l[i] := by
  rw [List.getElem?_eq_getElem hi, Option.any_some]

/-- Nothing before the cut satisfies `p`. -/
theorem not_of_mem_take {p : α → Bool} {l : List α} (h : Last p l) :
    ∀ a ∈ l.take (cut p l), p a = false := by
  intro a ha
  obtain ⟨i, hi, rfl⟩ := List.getElem_of_mem ha
  rw [List.length_take] at hi
  rw [List.getElem_take]
  have hle := cut_le p l
  have hborder := (search_border l.length fun i => l[i]?.any p).2.1 (show 0 < cut p l by omega)
  have hlast : cut p l - 1 < l.length := by omega
  change l[cut p l - 1]?.any p = false at hborder
  rw [getElem_any hlast] at hborder
  by_contra hcon
  rw [Bool.not_eq_false] at hcon
  rcases Nat.lt_or_ge i (cut p l - 1) with hlt | hge
  · have := List.pairwise_iff_getElem.mp h i (cut p l - 1) (by omega) hlast hlt hcon
    rw [hborder] at this
    nomatch this
  · obtain rfl : i = cut p l - 1 := by omega
    rw [hborder] at hcon
    nomatch hcon

/-- Everything from the cut on satisfies `p`. -/
theorem of_mem_drop {p : α → Bool} {l : List α} (h : Last p l) :
    ∀ a ∈ l.drop (cut p l), p a = true := by
  intro a ha
  obtain ⟨i, hi, rfl⟩ := List.getElem_of_mem ha
  rw [List.length_drop] at hi
  rw [List.getElem_drop]
  have hfirst : cut p l < l.length := by omega
  have hborder := (search_border l.length fun i => l[i]?.any p).2.2 hfirst
  change l[cut p l]?.any p = true at hborder
  rw [getElem_any hfirst] at hborder
  rcases Nat.eq_zero_or_pos i with rfl | hpos
  · exact hborder
  · exact List.pairwise_iff_getElem.mp h (cut p l) (cut p l + i) hfirst (by omega) (by omega)
      hborder

/-- **Cutting is filtering.** -/
theorem drop_cut {p : α → Bool} {l : List α} (h : Last p l) : l.drop (cut p l) = l.filter p := by
  conv_rhs => rw [← List.take_append_drop (cut p l) l, List.filter_append]
  rw [List.filter_eq_self.mpr fun a ha => of_mem_drop h a ha,
    List.filter_eq_nil_iff.mpr fun a ha => by rw [not_of_mem_take h a ha]; exact Bool.false_ne_true,
    List.nil_append]

/-- **Filtering by cutting**: if what lies behind a place is what a filter lets through, then
nothing before that place gets through. -/
theorem separates_of_perm {p : α → Bool} {l : List α} {n : Nat} (h : (l.drop n).Perm (l.filter p)) :
    (∀ a ∈ l.drop n, p a = true) ∧ ∀ a ∈ l.take n, p a = false := by
  have hdrop : ∀ a ∈ l.drop n, p a = true := by
    intro a ha
    exact (List.mem_filter.mp (h.subset ha)).2
  refine ⟨hdrop, ?_⟩
  have hlength := h.length_eq
  conv_rhs at hlength => rw [← List.take_append_drop n l, List.filter_append]
  rw [List.filter_eq_self.mpr hdrop, List.length_append] at hlength
  have hnone : (l.take n).filter p = [] := List.length_eq_zero_iff.mp (by omega)
  intro a ha
  exact Bool.eq_false_iff.mpr (List.filter_eq_nil_iff.mp hnone a ha)

end Accumulation.Lib.BinarySearch
