/-
# Accumulation.Lib.Chains — tables of chains, each entry in the chain of its index.

A table is a list of chains, and `idx` says which chain an entry belongs to (`Placed`).  Then a search
for entries of one index may look at one chain only (`filter_flatten`), and what one chain loses or
gains the whole table does (`flatten_modify_perm`).  `fill` puts entries into a new table one by one,
each in front of its chain, so that a chain holds them in reverse (`chain_fill`).
-/
import Mathlib

namespace Accumulation.Lib.Chains

variable {ε : Type*} {idx : ε → ℕ} {t : List (List ε)}

def chain (t : List (List ε)) (i : ℕ) : List ε := t.getD i []

/-- Every entry is in the chain of its index, counted from `n`. -/
def PlacedFrom (idx : ε → ℕ) (n : ℕ) (t : List (List ε)) : Prop :=
  ∀ i, ∀ e ∈ chain t i, idx e = n + i

def Placed (idx : ε → ℕ) (t : List (List ε)) : Prop := PlacedFrom idx 0 t

theorem placed_iff : Placed idx t ↔ ∀ i, ∀ e ∈ chain t i, idx e = i := by
  simp [Placed, PlacedFrom]

theorem placedFrom_cons {n : ℕ} {es : List ε} : PlacedFrom idx n (es :: t) ↔
    (∀ e ∈ es, idx e = n) ∧ PlacedFrom idx (n + 1) t := by
  constructor
  · intro h
    refine ⟨h 0, fun i e he => ?_⟩
    rw [h (i + 1) e he]
    omega
  · rintro ⟨hes, ht⟩ (_ | i) e he
    · exact hes e he
    · rw [ht i e he]
      omega

theorem le_idx_of_mem {n : ℕ} (h : PlacedFrom idx n t) {e : ε} (he : e ∈ t.flatten) :
    n ≤ idx e := by
  induction t generalizing n with
  | nil => cases he
  | cons es t ih =>
    rw [placedFrom_cons] at h
    rw [List.flatten_cons, List.mem_append] at he
    rcases he with he | he
    · exact (h.1 e he).ge
    · exact (Nat.le_succ n).trans (ih h.2 he)

/-- **A search in the chain of its index** finds everything. -/
theorem filter_flatten_from {n i : ℕ} (h : PlacedFrom idx n t) {p : ε → Bool}
    (hp : ∀ e, p e = true → idx e = n + i) :
    t.flatten.filter p = (chain t i).filter p := by
  induction t generalizing n i with
  | nil => rfl
  | cons es t ih =>
    have hcons := placedFrom_cons.mp h
    rw [List.flatten_cons, List.filter_append]
    rcases i with _ | i
    · have hrest : t.flatten.filter p = [] := by
        rw [List.filter_eq_nil_iff]
        intro e he hpe
        have hle := le_idx_of_mem hcons.2 he
        rw [hp e hpe] at hle
        omega
      rw [hrest, List.append_nil]
      rfl
    · have hhead : es.filter p = [] := by
        rw [List.filter_eq_nil_iff]
        intro e he hpe
        have heq := hcons.1 e he
        rw [hp e hpe] at heq
        omega
      rw [hhead, List.nil_append]
      refine ih hcons.2 fun e hpe => ?_
      rw [hp e hpe]
      omega

theorem filter_flatten (h : Placed idx t) {i : ℕ} {p : ε → Bool} (hp : ∀ e, p e = true → idx e = i) :
    t.flatten.filter p = (chain t i).filter p :=
  filter_flatten_from h fun e he => by rw [hp e he, Nat.zero_add]

/-! ## One chain -/

theorem chain_modify (t : List (List ε)) (f : List ε → List ε) {i : ℕ} (hi : i < t.length) (j : ℕ) :
    chain (t.modify i f) j = if i = j then f (chain t i) else chain t j := by
  unfold chain
  rw [List.getD_eq_getElem?_getD, List.getElem?_modify]
  split
  · rename_i hij
    subst hij
    simp [hi]
  · simp

theorem Placed.modify (h : Placed idx t) {f : List ε → List ε} {i : ℕ} (hi : i < t.length)
    (hf : ∀ e ∈ f (chain t i), idx e = i) : Placed idx (t.modify i f) := by
  rw [placed_iff] at h ⊢
  intro j e he
  rw [chain_modify t f hi] at he
  split at he
  · rename_i hij
    rw [hf e he, hij]
  · exact h j e he

/-- **What one chain gains and loses**, the table does. -/
theorem flatten_modify_perm {f : List ε → List ε} {i : ℕ} (hi : i < t.length) {xs ys : List ε}
    (h : (xs ++ chain t i).Perm (ys ++ f (chain t i))) :
    (xs ++ t.flatten).Perm (ys ++ (t.modify i f).flatten) := by
  induction t generalizing i with
  | nil => exact absurd hi (Nat.not_lt_zero i)
  | cons es t ih =>
    rcases i with _ | i
    · rw [List.modify_zero_cons, List.flatten_cons, List.flatten_cons, ← List.append_assoc,
        ← List.append_assoc]
      exact h.append_right t.flatten
    · rw [List.modify_succ_cons, List.flatten_cons, List.flatten_cons]
      have hrest := ih (Nat.lt_of_succ_lt_succ hi) h
      calc (xs ++ (es ++ t.flatten)).Perm (es ++ (xs ++ t.flatten)) :=
            List.perm_append_comm_assoc xs es t.flatten
        _ |>.Perm (es ++ (ys ++ (t.modify i f).flatten)) := hrest.append_left es
        _ |>.Perm (ys ++ (es ++ (t.modify i f).flatten)) :=
            List.perm_append_comm_assoc es ys _

/-! ## Filling a table -/

/-- Put an entry in front of its chain. -/
def add (idx : ε → ℕ) (t : List (List ε)) (e : ε) : List (List ε) := t.modify (idx e) (e :: ·)

def fill (idx : ε → ℕ) (n : ℕ) (es : List ε) : List (List ε) :=
  es.foldl (add idx) (List.replicate n [])

theorem length_foldl_add (es : List ε) (t : List (List ε)) :
    (es.foldl (add idx) t).length = t.length := by
  induction es generalizing t with
  | nil => rfl
  | cons e es ih => rw [List.foldl_cons, ih, add, List.length_modify]

@[simp]
theorem length_fill (n : ℕ) (es : List ε) : (fill idx n es).length = n := by
  rw [fill, length_foldl_add, List.length_replicate]

theorem chain_foldl_add {es : List ε} (hes : ∀ e ∈ es, idx e < t.length) (i : ℕ) :
    chain (es.foldl (add idx) t) i = (es.filter (idx · = i)).reverse ++ chain t i := by
  induction es generalizing t with
  | nil => rfl
  | cons e es ih =>
    have he := hes e List.mem_cons_self
    rw [List.foldl_cons, ih (by simpa [add] using fun x hx => hes x (List.mem_cons_of_mem e hx)), add,
      chain_modify t _ he, List.filter_cons]
    by_cases hi : idx e = i <;> simp [hi]

/-- **A chain of a new table** holds its entries in reverse. -/
theorem chain_fill {n : ℕ} {es : List ε} (hes : ∀ e ∈ es, idx e < n) (i : ℕ) :
    chain (fill idx n es) i = (es.filter (idx · = i)).reverse := by
  have hempty : chain (List.replicate n ([] : List ε)) i = [] := by
    unfold chain
    rw [List.getD_eq_getElem?_getD, List.getElem?_replicate]
    split <;> rfl
  rw [fill, chain_foldl_add (by simpa using hes), hempty, List.append_nil]

theorem placed_fill {n : ℕ} {es : List ε} (hes : ∀ e ∈ es, idx e < n) : Placed idx (fill idx n es) := by
  rw [placed_iff]
  intro i e he
  rw [chain_fill hes, List.mem_reverse, List.mem_filter] at he
  simpa using he.2

theorem flatten_foldl_add {es : List ε} (hes : ∀ e ∈ es, idx e < t.length) :
    (es.foldl (add idx) t).flatten.Perm (es ++ t.flatten) := by
  induction es generalizing t with
  | nil => exact List.Perm.refl _
  | cons e es ih =>
    have he := hes e List.mem_cons_self
    rw [List.foldl_cons]
    have hadd : ([e] ++ t.flatten).Perm ([] ++ (add idx t e).flatten) :=
      flatten_modify_perm he (List.Perm.refl _)
    refine (ih (by simpa [add] using fun x hx => hes x (List.mem_cons_of_mem e hx))).trans ?_
    exact (hadd.symm.append_left es).trans List.perm_middle

/-- Nothing is lost. -/
theorem flatten_fill {n : ℕ} {es : List ε} (hes : ∀ e ∈ es, idx e < n) :
    (fill idx n es).flatten.Perm es := by
  have hempty : (List.replicate n ([] : List ε)).flatten = [] := by simp
  have hperm := flatten_foldl_add (t := List.replicate n []) (by simpa using hes)
  rwa [hempty, List.append_nil] at hperm

end Accumulation.Lib.Chains
