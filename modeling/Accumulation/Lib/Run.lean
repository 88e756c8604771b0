/-
# Accumulation.Lib.Run — runs of a partial step function, and what holds along them.

A system is a step function `step : σ → α → Option σ`: `none` says that the action cannot be
taken in that state.  A run is a list of actions.  Two shapes of statement recur for every such
system, and both are packaged here once:

* `Always step P s as`: every state the run passes through, the first one included, satisfies `P`;
* `Along step C s as`: every action of the run is tried in a state that meets its condition `C`.

`always_of_along` is the invariant rule (a condition on the steps gives a fact about the states) and
`along_of_always` is its converse (a fact about the states forces the condition on the steps);
`run_of_along` says besides that such a run is possible, where the condition makes each step so.
`length_add_le` and `exists_stuck` are for runs that come to an end: where every step lowers a
measure, a run is no longer than that, and it can be continued until nothing is left to do.
-/
import Mathlib

namespace Accumulation.Lib.Run

variable {σ α : Type*}

/-! ## Runs -/

/-- Take the actions of a list in order; `none` as soon as one of them cannot be taken. -/
def exec (step : σ → α → Option σ) : σ → List α → Option σ
  | s, [] => some s
  | s, a :: as => (step s a).bind fun s' => exec step s' as

/-- Every state the run passes through satisfies `P`. -/
def Always (step : σ → α → Option σ) (P : σ → Prop) : σ → List α → Prop
  | s, [] => P s
  | s, a :: as => P s ∧ ∀ s', step s a = some s' → Always step P s' as

/-- Every action of the run is tried in a state that meets `C`. -/
def Along (step : σ → α → Option σ) (C : σ → α → Prop) : σ → List α → Prop
  | _, [] => True
  | s, a :: as => C s a ∧ ∀ s', step s a = some s' → Along step C s' as

variable {step : σ → α → Option σ} {P I : σ → Prop} {C : σ → α → Prop}

@[simp]
theorem exec_nil (s : σ) : exec step s [] = some s := rfl

theorem exec_cons (s : σ) (a : α) (as : List α) :
    exec step s (a :: as) = (step s a).bind fun s' => exec step s' as := rfl

theorem exec_append (s : σ) (as bs : List α) :
    exec step s (as ++ bs) = (exec step s as).bind fun s' => exec step s' bs := by
  induction as generalizing s with
  | nil => rfl
  | cons a as ih =>
    rw [List.cons_append, exec_cons, exec_cons]
    cases step s a with
    | none => rfl
    | some s' => exact ih s'

/-- A step that can always be taken. -/
theorem exec_total {next : σ → α → σ} (hstep : ∀ s a, step s a = some (next s a)) (s : σ)
    (as : List α) : exec step s as = some (as.foldl next s) := by
  induction as generalizing s with
  | nil => rfl
  | cons a as ih =>
    rw [exec_cons, hstep, Option.bind_some, ih]
    rfl

/-- `P` holds where the run starts. -/
theorem Always.head {s : σ} {as : List α} (h : Always step P s as) : P s := by
  cases as with
  | nil => exact h
  | cons a as => exact h.1

/-- `P` holds where the run ends. -/
theorem Always.last {s s' : σ} {as : List α} (h : Always step P s as)
    (hrun : exec step s as = some s') : P s' := by
  induction as generalizing s with
  | nil =>
    obtain rfl := Option.some.inj hrun
    exact h
  | cons a as ih =>
    obtain ⟨t, ht, hrest⟩ := Option.bind_eq_some_iff.mp hrun
    exact ih (h.2 t ht) hrest

theorem Always.mono {Q : σ → Prop} (hPQ : ∀ s, P s → Q s) {s : σ} {as : List α}
    (h : Always step P s as) : Always step Q s as := by
  induction as generalizing s with
  | nil => exact hPQ s h
  | cons a as ih => exact ⟨hPQ s h.1, fun s' hs' => ih (h.2 s' hs')⟩

theorem Always.and {Q : σ → Prop} {s : σ} {as : List α} (hP : Always step P s as)
    (hQ : Always step Q s as) : Always step (fun s => P s ∧ Q s) s as := by
  induction as generalizing s with
  | nil => exact ⟨hP, hQ⟩
  | cons a as ih => exact ⟨⟨hP.1, hQ.1⟩, fun s' hs' => ih (hP.2 s' hs') (hQ.2 s' hs')⟩

/-- What every step between two states that satisfy `P` keeps. -/
theorem Always.and_kept (hkeep : ∀ s a s', P s → I s → step s a = some s' → P s' → I s')
    {s : σ} {as : List α} (h : Always step P s as) (hI : I s) :
    Always step (fun s => I s ∧ P s) s as := by
  induction as generalizing s with
  | nil => exact ⟨hI, h⟩
  | cons a as ih =>
    exact ⟨⟨hI, h.1⟩, fun s' hs' => ih (h.2 s' hs') (hkeep s a s' h.1 hI hs' (h.2 s' hs').head)⟩

/-- What each step of a possible run asks of its action alone. -/
theorem Along.forall_mem {D : α → Prop} {s t : σ} {as : List α}
    (h : Along step (fun _ a => D a) s as) (hrun : exec step s as = some t) : ∀ a ∈ as, D a := by
  induction as generalizing s with
  | nil => exact fun _ ha => (nomatch ha)
  | cons a as ih =>
    obtain ⟨u, hu, hrest⟩ := Option.bind_eq_some_iff.mp hrun
    intro b hb
    rcases List.mem_cons.mp hb with rfl | hb
    · exact h.1
    · exact ih (h.2 u hu) hrest b hb

/-- The step is the only one there is. -/
theorem along_cons {s t : σ} {a : α} {as : List α} (hC : C s a) (hstep : step s a = some t)
    (h : Along step C t as) : Along step C s (a :: as) := by
  refine ⟨hC, fun s' hs' => ?_⟩
  obtain rfl := Option.some.inj (hstep.symm.trans hs')
  exact h

/-- A condition on the actions alone. -/
theorem along_of_forall {D : α → Prop} {as : List α} (hD : ∀ a ∈ as, D a) (s : σ) :
    Along step (fun _ a => D a) s as := by
  induction as generalizing s with
  | nil => trivial
  | cons a as ih =>
    refine ⟨hD a List.mem_cons_self, fun s' _ => ih ?_ s'⟩
    exact fun b hb => hD b (List.mem_cons_of_mem a hb)

/-- A condition on the actions alone can be added to the condition on the steps. -/
theorem Along.and_forall {D : α → Prop} {s : σ} {as : List α} (h : Along step C s as)
    (hD : ∀ a ∈ as, D a) : Along step (fun s a => C s a ∧ D a) s as := by
  induction as generalizing s with
  | nil => trivial
  | cons a as ih =>
    exact ⟨⟨h.1, hD a List.mem_cons_self⟩, fun s' hs' =>
      ih (h.2 s' hs') fun b hb => hD b (List.mem_cons_of_mem a hb)⟩

/-! ## The rules -/

/-- **The invariant rule.**  If every step taken under its condition keeps `I`, a run whose steps
all meet the condition stays in `I`. -/
theorem always_of_along (hstep : ∀ s a s', I s → C s a → step s a = some s' → I s')
    {s : σ} {as : List α} (hI : I s) (h : Along step C s as) : Always step I s as := by
  induction as generalizing s with
  | nil => exact hI
  | cons a as ih =>
    obtain ⟨hC, hrest⟩ := h
    exact ⟨hI, fun s' hs' => ih (hstep s a s' hI hC hs') (hrest s' hs')⟩

/-- The invariant rule without a condition: every step keeps `I`. -/
theorem always_of_step (hstep : ∀ s a s', I s → step s a = some s' → I s')
    {s : σ} (as : List α) (hI : I s) : Always step I s as := by
  induction as generalizing s with
  | nil => exact hI
  | cons a as ih => exact ⟨hI, fun s' hs' => ih (hstep s a s' hI hs')⟩

/-- **The rule for total steps.**  If every step tried under its condition is possible and keeps `I`,
a run whose steps all meet the condition is possible and stays in `I`. -/
theorem run_of_along (hstep : ∀ s a, I s → C s a → ∃ s', step s a = some s' ∧ I s')
    {s : σ} {as : List α} (hI : I s) (h : Along step C s as) :
    (∃ s', exec step s as = some s') ∧ Always step I s as := by
  induction as generalizing s with
  | nil => exact ⟨⟨s, rfl⟩, hI⟩
  | cons a as ih =>
    obtain ⟨t, ht, hIt⟩ := hstep s a hI h.1
    obtain ⟨⟨s', hrun⟩, halways⟩ := ih hIt (h.2 t ht)
    refine ⟨⟨s', by rw [exec_cons, ht]; exact hrun⟩, hI, fun u hu => ?_⟩
    obtain rfl : t = u := Option.some.inj (ht.symm.trans hu)
    exact halways

/-- **The converse rule.**  If a step between two states that satisfy `P` must have met its
condition, then a run all of whose states satisfy `P` took every step under its condition. -/
theorem along_of_always (hback : ∀ s a s', P s → step s a = some s' → P s' → C s a)
    {s s' : σ} {as : List α} (hrun : exec step s as = some s') (h : Always step P s as) :
    Along step C s as := by
  induction as generalizing s with
  | nil => trivial
  | cons a as ih =>
    obtain ⟨t, ht, hrest⟩ := Option.bind_eq_some_iff.mp hrun
    refine ⟨hback s a t h.1 ht (h.2 t ht).head, fun u hu => ?_⟩
    obtain rfl : t = u := Option.some.inj (ht.symm.trans hu)
    exact ih hrest (h.2 t ht)

/-- Under an invariant, two conditions on the steps can come to the same. -/
theorem along_congr {D : σ → α → Prop} (hCD : ∀ s a, I s → (C s a ↔ D s a)) {s : σ} {as : List α}
    (hI : Always step I s as) : Along step C s as ↔ Along step D s as := by
  induction as generalizing s with
  | nil => exact Iff.rfl
  | cons a as ih =>
    refine and_congr (hCD s a hI.1) ?_
    exact forall_congr' fun s' => imp_congr_right fun hs' => ih (hI.2 s' hs')

/-- **The rule for what cannot be undone.**  If `Q` is never left once it holds, and it does not
hold at the end of a run, it holds nowhere on the way. -/
theorem always_not_of_last {Q : σ → Prop} (hstep : ∀ s a s', Q s → step s a = some s' → Q s')
    {s s' : σ} {as : List α} (hrun : exec step s as = some s') (hlast : ¬ Q s') :
    Always step (fun s => ¬ Q s) s as := by
  induction as generalizing s with
  | nil =>
    obtain rfl := Option.some.inj hrun
    exact hlast
  | cons a as ih =>
    obtain ⟨t, ht, hrest⟩ := Option.bind_eq_some_iff.mp hrun
    refine ⟨fun hQ => (ih hrest).head (hstep s a t hQ ht), fun u hu => ?_⟩
    obtain rfl : t = u := Option.some.inj (ht.symm.trans hu)
    exact ih hrest

/-! ## Runs that end -/

/-- No action can be taken under its condition. -/
def Stuck (step : σ → α → Option σ) (C : σ → α → Prop) (s : σ) : Prop :=
  ∀ a, C s a → step s a = none

/-- **The rule for termination.**  If every step lowers a measure, a run is no longer than the measure
where it starts. -/
theorem length_add_le {m : σ → ℕ}
    (hstep : ∀ s a s', I s → C s a → step s a = some s' → I s' ∧ m s' < m s)
    {s t : σ} {as : List α} (hI : I s) (h : Along step C s as) (hrun : exec step s as = some t) :
    as.length + m t ≤ m s := by
  induction as generalizing s with
  | nil =>
    obtain rfl := Option.some.inj hrun
    simp
  | cons a as ih =>
    obtain ⟨u, hu, hrest⟩ := Option.bind_eq_some_iff.mp hrun
    obtain ⟨hIu, hlt⟩ := hstep s a u hI h.1 hu
    have hle := ih hIu (h.2 u hu) hrest
    rw [List.length_cons]
    omega

/-- If every step lowers a measure, every run can be continued until it is stuck. -/
theorem exists_stuck {m : σ → ℕ}
    (hstep : ∀ s a s', I s → C s a → step s a = some s' → I s' ∧ m s' < m s) {s : σ} (hI : I s) :
    ∃ as t, exec step s as = some t ∧ Along step C s as ∧ Stuck step C t := by
  induction hm : m s using Nat.strong_induction_on generalizing s with
  | h n ih =>
    by_cases hstuck : Stuck step C s
    · exact ⟨[], s, rfl, trivial, hstuck⟩
    · simp only [Stuck, not_forall] at hstuck
      obtain ⟨a, hC, hsome⟩ := hstuck
      obtain ⟨u, hu⟩ := Option.ne_none_iff_exists'.mp hsome
      obtain ⟨hIu, hlt⟩ := hstep s a u hI hC hu
      obtain ⟨as, t, hrun, halong, ht⟩ := ih (m u) (hm ▸ hlt) hIu rfl
      refine ⟨a :: as, t, ?_, ⟨hC, ?_⟩, ht⟩
      · rw [exec_cons, hu, Option.bind_some, hrun]
      · intro v hv
        obtain rfl : u = v := Option.some.inj (hu.symm.trans hv)
        exact halong

end Accumulation.Lib.Run
