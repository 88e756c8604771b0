/-
# Accumulation.Lib.Refinement — machines that answer calls, and one such machine in place of another.

A machine is a step function `step : σ → α → Option (ρ × σ)`: the answer to a call and the state
after it, or `none` where the call panics.  `answers_of_simulation` is the rule for refinement: if
related states answer every call alike and stay related, so do they in a whole run.

Where what a machine stands for leaves it a choice, that is a relation between a state, a call, an
answer and the state after it.  `trace_of_simulation` is the rule for this case, and `Trace.refines`
the one for two such relations.  Where the caller has a contract to keep, the relation binds the
machine only as long as it does (`follows_of_simulation`).
-/
import Mathlib

namespace Accumulation.Lib.Refinement

variable {σ τ α ρ : Type*}

/-- The answers to a list of calls, and the state behind them. -/
def answers (step : σ → α → Option (ρ × σ)) : σ → List α → Option (List ρ × σ)
  | s, [] => some ([], s)
  | s, a :: as =>
    (step s a).bind fun out => (answers step out.2 as).map fun rest => (out.1 :: rest.1, rest.2)

theorem answers_cons {step : σ → α → Option (ρ × σ)} {s s' : σ} {a : α} {r : ρ}
    (h : step s a = some (r, s')) (as : List α) :
    answers step s (a :: as) = (answers step s' as).map fun rest => (r :: rest.1, rest.2) := by
  rw [answers, h]
  rfl

/-- **Refinement**: related states answer alike in every run, and end up related. -/
theorem answers_of_simulation {step : σ → α → Option (ρ × σ)} {step' : τ → α → Option (ρ × τ)}
    {R : σ → τ → Prop}
    (hstep : ∀ s t a, R s t → ∃ r s' t', step s a = some (r, s') ∧ step' t a = some (r, t') ∧ R s' t')
    {s : σ} {t : τ} (h : R s t) (as : List α) :
    ∃ rs s' t', answers step s as = some (rs, s') ∧ answers step' t as = some (rs, t') ∧ R s' t' := by
  induction as generalizing s t with
  | nil => exact ⟨[], s, t, rfl, rfl, h⟩
  | cons a as ih =>
    rcases hstep s t a h with ⟨r, u, v, hs, ht, huv⟩
    rcases ih huv with ⟨rs, s', t', hs', ht', h'⟩
    refine ⟨r :: rs, s', t', ?_, ?_, h'⟩
    · rw [answers_cons hs, hs']
      rfl
    · rw [answers_cons ht, ht']
      rfl

/-! ## Relations -/

/-- The relation allows these answers to a list of calls, and ends in the second state. -/
inductive Trace (spec : τ → α → ρ → τ → Prop) : τ → List α → List ρ → τ → Prop
  | nil (t : τ) : Trace spec t [] [] t
  | cons {t u v : τ} {a : α} {as : List α} {r : ρ} {rs : List ρ} (hspec : spec t a r u)
      (hrest : Trace spec u as rs v) : Trace spec t (a :: as) (r :: rs) v

/-- **Refinement of a relation**: a machine whose answers it allows, one by one, keeps to it in every
run. -/
theorem trace_of_simulation {step : σ → α → Option (ρ × σ)} {spec : τ → α → ρ → τ → Prop}
    {R : σ → τ → Prop}
    (hstep : ∀ s t a, R s t → ∃ r s' t', step s a = some (r, s') ∧ spec t a r t' ∧ R s' t')
    {s : σ} {t : τ} (h : R s t) (as : List α) :
    ∃ rs s' t', answers step s as = some (rs, s') ∧ Trace spec t as rs t' ∧ R s' t' := by
  induction as generalizing s t with
  | nil => exact ⟨[], s, t, rfl, .nil t, h⟩
  | cons a as ih =>
    rcases hstep s t a h with ⟨r, u, v, hs, ht, huv⟩
    rcases ih huv with ⟨rs, s', t', hs', ht', h'⟩
    refine ⟨r :: rs, s', t', ?_, .cons ht ht', h'⟩
    rw [answers_cons hs, hs']
    rfl

/-- **Refinement between relations**: what one allows, step by step, the other allows in every run. -/
theorem Trace.refines {spec : σ → α → ρ → σ → Prop} {spec' : τ → α → ρ → τ → Prop}
    {R : σ → τ → Prop}
    (hstep : ∀ s t a r s', R s t → spec s a r s' → ∃ t', spec' t a r t' ∧ R s' t')
    {s s' : σ} {t : τ} {as : List α} {rs : List ρ} (h : Trace spec s as rs s') (hst : R s t) :
    ∃ t', Trace spec' t as rs t' ∧ R s' t' := by
  induction h generalizing t with
  | nil s => exact ⟨t, .nil t, hst⟩
  | cons hspec _ ih =>
    rcases hstep _ _ _ _ _ hst hspec with ⟨u, ht, hu⟩
    rcases ih hu with ⟨t', hrest, hR⟩
    exact ⟨t', .cons ht hrest, hR⟩

/-- What every step of the relation keeps, under a condition on the calls, holds at the end of every
run of it. -/
theorem Trace.keeps {spec : τ → α → ρ → τ → Prop} {I : τ → Prop} {C : α → Prop}
    (hstep : ∀ t a r u, I t → C a → spec t a r u → I u) {t u : τ} {as : List α} {rs : List ρ}
    (h : Trace spec t as rs u) (ht : I t) (has : ∀ a ∈ as, C a) : I u := by
  induction h with
  | nil t => exact ht
  | @cons t u v a as r rs hspec _ ih =>
    exact ih (hstep t a r u ht (has a List.mem_cons_self) hspec)
      fun b hb => has b (List.mem_cons_of_mem a hb)

/-! ## Contracts -/

/-- The relation allows these answers, up to the first call that breaks the contract. -/
inductive Follows (contract : τ → α → Prop) (spec : τ → α → ρ → τ → Prop) :
    τ → List α → List ρ → Prop
  | nil (t : τ) : Follows contract spec t [] []
  | broken {t : τ} {a : α} {as : List α} {rs : List ρ} (hbroken : ¬ contract t a) :
      Follows contract spec t (a :: as) rs
  | cons {t u : τ} {a : α} {as : List α} {r : ρ} {rs : List ρ} (hspec : spec t a r u)
      (hrest : Follows contract spec u as rs) : Follows contract spec t (a :: as) (r :: rs)

/-- The answers of a machine that never panics. -/
def replies (next : σ → α → ρ × σ) : σ → List α → List ρ
  | _, [] => []
  | s, a :: as => (next s a).1 :: replies next (next s a).2 as

/-- **Refinement under a contract**: calls that keep it get answers that the relation allows. -/
theorem follows_of_simulation {next : σ → α → ρ × σ} {contract : τ → α → Prop}
    {spec : τ → α → ρ → τ → Prop} {R : σ → τ → Prop}
    (hnext : ∀ s t a, R s t → contract t a → ∃ t', spec t a (next s a).1 t' ∧ R (next s a).2 t')
    {s : σ} {t : τ} (h : R s t) (as : List α) : Follows contract spec t as (replies next s as) := by
  induction as generalizing s t with
  | nil => exact .nil t
  | cons a as ih =>
    by_cases hcontract : contract t a
    · rcases hnext s t a h hcontract with ⟨u, hspec, hR⟩
      exact .cons hspec (ih hR)
    · exact .broken hcontract

end Accumulation.Lib.Refinement
