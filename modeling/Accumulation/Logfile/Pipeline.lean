/-
# Accumulation.Logfile.Pipeline — a pipeline as the composition of its handlers.

A `Pipeline` is a linked list of handlers.  `AddHandler`, `Invoke` and `Rollback` each go along the
list on their own.  Whatever the handlers do, an invocation is one pass over the handlers in the
order in which they were added (`invoke_composes`): each is given what the one before it returned,
the first error ends the pass, and then every handler is rolled back.

Here a handler is anything with a `Behaviour`.  The pipeline of `Logfile.Upload` is one of these
(`invoke_handlers`).
-/
import Accumulation.Logfile.Upload

namespace Accumulation.Logfile

/-! ## Handlers -/

/-- What `Do` and `Rollback` do: `ρ` are the values passed on, `ε` the errors, and `σ` is what the
handlers work on. -/
structure Behaviour (η ρ ε σ : Type*) where
  /-- the result and the error of `Do`; `none` is a panic -/
  do_ : η → ρ → σ → Option (ρ × Option ε) × σ
  rollback : η → σ → σ
  nil : ρ
  /-- `handler is empty` -/
  handlerIsEmpty : ε

/-- A call of a handler's method. -/
inductive HandlerCall (η ρ : Type*)
  | do_ (handler : η) (input : ρ)
  | rollback (handler : η)
  deriving DecidableEq

/-- What the handlers work on, and how they have been called. -/
structure Trail (η ρ σ : Type*) where
  state : σ
  calls : List (HandlerCall η ρ)

variable {η ρ ε σ : Type*}

def Behaviour.callDo (b : Behaviour η ρ ε σ) (handler : η) (input : ρ) (t : Trail η ρ σ) :
    Option (ρ × Option ε) × Trail η ρ σ :=
  let (result, state) := b.do_ handler input t.state
  (result, ⟨state, t.calls ++ [.do_ handler input]⟩)

def Behaviour.callRollback (b : Behaviour η ρ ε σ) (handler : η) (t : Trail η ρ σ) :
    Trail η ρ σ :=
  ⟨b.rollback handler t.state, t.calls ++ [.rollback handler]⟩

/-! ## The linked list -/

/-- A handler, which can be nil, and the next one, if there is one. -/
inductive HandlerContext (η : Type*)
  | last (handler : Option η)
  | link (handler : Option η) (next : HandlerContext η)

namespace HandlerContext

def addLast : HandlerContext η → HandlerContext η → HandlerContext η
  | .last handler, ctx => .link handler ctx
  | .link handler next, ctx => .link handler (next.addLast ctx)

def invoke (b : Behaviour η ρ ε σ) :
    HandlerContext η → ρ → Trail η ρ σ → Option (ρ × Option ε) × Trail η ρ σ
  | .last none, _, t | .link none _, _, t => (some (b.nil, some b.handlerIsEmpty), t)
  | .last (some handler), input, t =>
    match b.callDo handler input t with
    | (some (_, some err), t) => (some (b.nil, some err), t)
    | returned => returned
  | .link (some handler) next, input, t =>
    match b.callDo handler input t with
    | (some (_, some err), t) => (some (b.nil, some err), t)
    | (some (param, none), t) => next.invoke b param t
    | (none, t) => (none, t)

/-- A nil handler ends it. -/
def rollback (b : Behaviour η ρ ε σ) : HandlerContext η → Trail η ρ σ → Trail η ρ σ
  | .last none, t | .link none _, t => t
  | .last (some handler), t => b.callRollback handler t
  | .link (some handler) next, t => next.rollback b (b.callRollback handler t)

end HandlerContext

structure Pipeline (η : Type*) where
  head : Option (HandlerContext η)

namespace Pipeline

def new : Pipeline η := ⟨none⟩

def addHandler (p : Pipeline η) (handler : Option η) : Pipeline η :=
  match p.head with
  | none => ⟨some (.last handler)⟩
  | some head => ⟨some (head.addLast (.last handler))⟩

/-- Without a handler it panics. -/
def invoke (b : Behaviour η ρ ε σ) (p : Pipeline η) (input : ρ) (t : Trail η ρ σ) :
    Option (ρ × Option ε) × Trail η ρ σ :=
  match p.head with
  | none => (none, t)
  | some head =>
    match head.invoke b input t with
    | (some (result, some err), t) => (some (result, some err), head.rollback b t)
    | returned => returned

/-- The pipeline to which these handlers have been added. -/
def ofHandlers (handlers : List η) : Pipeline η :=
  handlers.foldl (fun p handler => p.addHandler (some handler)) new

end Pipeline

/-! ## One pass over the handlers -/

/-- Every handler of a list returns a nil error, and the next one is given its result; `calls` are
the calls that have been made. -/
inductive Passes (b : Behaviour η ρ ε σ) :
    List η → ρ → σ → List (HandlerCall η ρ) → ρ → σ → Prop
  | nil {input s} : Passes b [] input s [] input s
  | cons {handler handlers input s output s' calls result t}
    (hdo : b.do_ handler input s = (some (output, none), s'))
    (hrest : Passes b handlers output s' calls result t) :
    Passes b (handler :: handlers) input s (.do_ handler input :: calls) result t

/-- A handler that does not return a nil error, behind handlers that do. -/
structure EndsAt (b : Behaviour η ρ ε σ) (handlers : List η) (input : ρ) (s : σ)
    (calls : List (HandlerCall η ρ)) (returned : Option (ρ × ε)) (t : σ) : Prop where
  ends : ∃ before handler after calls' input' s', handlers = before ++ handler :: after ∧
    Passes b before input s calls' input' s' ∧ calls = calls' ++ [.do_ handler input'] ∧
    b.do_ handler input' s' = (returned.map fun r => (r.1, some r.2), t)

/-- The handlers rolled back, one after the other. -/
def Behaviour.rollbackAll (b : Behaviour η ρ ε σ) (handlers : List η) (s : σ) : σ :=
  handlers.foldl (fun s handler => b.rollback handler s) s

/-- **A pass over the handlers**, by what it returns. -/
inductive Composes (b : Behaviour η ρ ε σ) (handlers : List η) (input : ρ) (t : Trail η ρ σ) :
    Option (ρ × Option ε) × Trail η ρ σ → Prop
  | returns {calls output s} (h : Passes b handlers input t.state calls output s) :
    Composes b handlers input t (some (output, none), ⟨s, t.calls ++ calls⟩)
  | fails {calls output err s} (h : EndsAt b handlers input t.state calls (some (output, err)) s) :
    Composes b handlers input t (some (b.nil, some err),
      ⟨b.rollbackAll handlers s, t.calls ++ calls ++ handlers.map .rollback⟩)
  | panics {calls s} (h : EndsAt b handlers input t.state calls none s) :
    Composes b handlers input t (none, ⟨s, t.calls ++ calls⟩)

variable {b : Behaviour η ρ ε σ}

/-! ## The linked list of a list -/

/-- The linked list of a handler and those added after it. -/
def HandlerContext.ofList : η → List η → HandlerContext η
  | handler, [] => .last (some handler)
  | handler, next :: rest => .link (some handler) (ofList next rest)

theorem HandlerContext.addLast_ofList (handler : η) (handlers : List η) (new : η) :
    (ofList handler handlers).addLast (.last (some new)) = ofList handler (handlers ++ [new]) := by
  induction handlers generalizing handler with
  | nil => rfl
  | cons next rest ih =>
    show HandlerContext.link (some handler) ((ofList next rest).addLast _) = _
    rw [ih]
    rfl

/-- **Added handlers stand in their order.** -/
theorem Pipeline.head_ofHandlers (handler : η) (handlers : List η) :
    (ofHandlers (handler :: handlers)).head = some (.ofList handler handlers) := by
  have hfold (added handlers : List η) (p : Pipeline η)
      (hp : p.head = some (.ofList handler added)) :
      (handlers.foldl (fun p handler => p.addHandler (some handler)) p).head =
        some (.ofList handler (added ++ handlers)) := by
    induction handlers generalizing added p with
    | nil =>
      rw [List.append_nil]
      exact hp
    | cons next rest ih =>
      rw [List.foldl_cons, List.append_cons]
      apply ih
      rw [addHandler, hp, ← HandlerContext.addLast_ofList]
  exact hfold [] handlers _ rfl

/-- Rolling back goes over all of them. -/
theorem HandlerContext.rollback_ofList (handler : η) (handlers : List η) (t : Trail η ρ σ) :
    (ofList handler handlers).rollback b t =
      ⟨b.rollbackAll (handler :: handlers) t.state,
        t.calls ++ (handler :: handlers).map .rollback⟩ := by
  induction handlers generalizing handler t with
  | nil => rfl
  | cons next rest ih =>
    show (ofList next rest).rollback b (b.callRollback handler t) = _
    rw [ih, Behaviour.callRollback]
    simp [Behaviour.rollbackAll]

/-! ## Composition -/

theorem EndsAt.here {handler : η} {handlers : List η} {input : ρ} {s t : σ}
    {returned : Option (ρ × ε)}
    (h : b.do_ handler input s = (returned.map fun r => (r.1, some r.2), t)) :
    EndsAt b (handler :: handlers) input s [.do_ handler input] returned t :=
  ⟨[], handler, handlers, [], input, s, rfl, .nil, rfl, h⟩

theorem EndsAt.later {handler : η} {handlers : List η} {input output : ρ} {s s' t : σ}
    {calls : List (HandlerCall η ρ)} {returned : Option (ρ × ε)}
    (hdo : b.do_ handler input s = (some (output, none), s'))
    (h : EndsAt b handlers output s' calls returned t) :
    EndsAt b (handler :: handlers) input s (.do_ handler input :: calls) returned t := by
  rcases h.ends with ⟨before, h', after, calls', input', u, rfl, hpasses, rfl, hends⟩
  exact ⟨handler :: before, h', after, _, input', u, rfl, .cons hdo hpasses, rfl, hends⟩

/-- What `Invoke` of a linked list does, before anything is rolled back. -/
theorem HandlerContext.invoke_ofList (handler : η) (handlers : List η) (input : ρ)
    (t : Trail η ρ σ) : ∃ calls s,
      (∃ output, Passes b (handler :: handlers) input t.state calls output s ∧
        (ofList handler handlers).invoke b input t =
          (some (output, none), ⟨s, t.calls ++ calls⟩)) ∨
      (∃ output err, EndsAt b (handler :: handlers) input t.state calls (some (output, err)) s ∧
        (ofList handler handlers).invoke b input t =
          (some (b.nil, some err), ⟨s, t.calls ++ calls⟩)) ∨
      EndsAt b (handler :: handlers) input t.state calls none s ∧
        (ofList handler handlers).invoke b input t = (none, ⟨s, t.calls ++ calls⟩) := by
  induction handlers generalizing handler input t with
  | nil =>
    rcases hdo : b.do_ handler input t.state with ⟨_ | ⟨output, _ | err⟩, s⟩
    · refine ⟨_, s, Or.inr (Or.inr ⟨.here hdo, ?_⟩)⟩
      simp [ofList, invoke, Behaviour.callDo, hdo]
    · refine ⟨_, s, Or.inl ⟨output, .cons hdo .nil, ?_⟩⟩
      simp [ofList, invoke, Behaviour.callDo, hdo]
    · refine ⟨_, s, Or.inr (Or.inl ⟨output, err, .here hdo, ?_⟩)⟩
      simp [ofList, invoke, Behaviour.callDo, hdo]
  | cons next rest ih =>
    rcases hdo : b.do_ handler input t.state with ⟨_ | ⟨output, _ | err⟩, s⟩
    · refine ⟨_, s, Or.inr (Or.inr ⟨.here hdo, ?_⟩)⟩
      simp [ofList, invoke, Behaviour.callDo, hdo]
    · -- the rest of the list goes on with what the handler has returned
      have hinvoke : (ofList handler (next :: rest)).invoke b input t =
          (ofList next rest).invoke b output ⟨s, t.calls ++ [.do_ handler input]⟩ := by
        simp [ofList, invoke, Behaviour.callDo, hdo]
      rw [hinvoke]
      rcases ih next output ⟨s, t.calls ++ [.do_ handler input]⟩ with
        ⟨calls, u, ⟨result, hpasses, hrest⟩ | ⟨result, err, hends, hrest⟩ | ⟨hends, hrest⟩⟩
      · refine ⟨.do_ handler input :: calls, u, Or.inl ⟨result, .cons hdo hpasses, ?_⟩⟩
        simp [hrest]
      · refine ⟨.do_ handler input :: calls, u, Or.inr (Or.inl ⟨result, err, .later hdo hends, ?_⟩)⟩
        simp [hrest]
      · refine ⟨.do_ handler input :: calls, u, Or.inr (Or.inr ⟨.later hdo hends, ?_⟩)⟩
        simp [hrest]
    · refine ⟨_, s, Or.inr (Or.inl ⟨output, err, .here hdo, ?_⟩)⟩
      simp [ofList, invoke, Behaviour.callDo, hdo]

/-- An invocation is a pass over the handlers. -/
theorem Pipeline.composes (b : Behaviour η ρ ε σ) {handlers : List η} (hne : handlers ≠ [])
    (input : ρ) (t : Trail η ρ σ) :
    Composes b handlers input t ((ofHandlers handlers).invoke b input t) := by
  cases handlers with
  | nil => exact absurd rfl hne
  | cons handler handlers =>
    rw [invoke, head_ofHandlers]
    rcases HandlerContext.invoke_ofList (b := b) handler handlers input t with
      ⟨calls, s, ⟨output, hpasses, hinvoke⟩ | ⟨output, err, hends, hinvoke⟩ | ⟨hends, hinvoke⟩⟩
    · simp only [hinvoke]
      exact .returns hpasses
    · simp only [hinvoke, HandlerContext.rollback_ofList]
      exact .fails hends
    · simp only [hinvoke]
      exact .panics hends

/-- A handler whose `Do` is called has handlers before it that have returned nil. -/
theorem Passes.before {handlers : List η} {input result : ρ} {s t : σ}
    {calls : List (HandlerCall η ρ)} (h : Passes b handlers input s calls result t)
    {handler : η} {param : ρ} (hmem : .do_ handler param ∈ calls) :
    ∃ before after calls' u, handlers = before ++ handler :: after ∧
      Passes b before input s calls' param u ∧ calls' <+: calls := by
  induction h with
  | nil => nomatch hmem
  | @cons first rest input s output s' calls result t hdo hrest ih =>
    rcases List.mem_cons.mp hmem with heq | hmem
    · obtain ⟨rfl, rfl⟩ := HandlerCall.do_.inj heq
      exact ⟨[], rest, [], s, rfl, .nil, List.nil_prefix⟩
    · rcases ih hmem with ⟨before, after, calls', u, rfl, hbefore, hprefix⟩
      exact ⟨first :: before, after, _, u, rfl, .cons hdo hbefore,
        List.cons_prefix_cons.mpr ⟨rfl, hprefix⟩⟩

theorem EndsAt.before {handlers : List η} {input : ρ} {s t : σ} {returned : Option (ρ × ε)}
    {calls : List (HandlerCall η ρ)} (h : EndsAt b handlers input s calls returned t)
    {handler : η} {param : ρ} (hmem : .do_ handler param ∈ calls) :
    ∃ before after calls' u, handlers = before ++ handler :: after ∧
      Passes b before input s calls' param u ∧ calls' <+: calls := by
  rcases h.ends with ⟨before, h', after, calls', input', s', rfl, hpasses, rfl, -⟩
  rcases List.mem_append.mp hmem with hmem | hmem
  · rcases hpasses.before hmem with ⟨front, back, calls'', u, rfl, hfront, hprefix⟩
    refine ⟨front, back ++ h' :: after, calls'', u, ?_, hfront,
      hprefix.trans (List.prefix_append _ _)⟩
    rw [List.append_assoc, List.cons_append]
  · obtain ⟨rfl, rfl⟩ := HandlerCall.do_.inj (List.mem_singleton.mp hmem)
    exact ⟨before, after, calls', s', rfl, hpasses, List.prefix_append _ _⟩

theorem Composes.before {handlers : List η} {input : ρ} {s : σ}
    {r : Option (ρ × Option ε) × Trail η ρ σ} (h : Composes b handlers input ⟨s, []⟩ r)
    {handler : η} {param : ρ} (hmem : .do_ handler param ∈ r.2.calls) :
    ∃ before after calls' u, handlers = before ++ handler :: after ∧
      Passes b before input s calls' param u ∧ calls' <+: r.2.calls := by
  cases h with
  | returns h => exact h.before hmem
  | fails h =>
    -- a rollback is no `Do`
    rcases List.mem_append.mp hmem with hmem | hmem
    · rcases h.before hmem with ⟨before, after, calls', u, hhandlers, hpasses, hprefix⟩
      exact ⟨before, after, calls', u, hhandlers, hpasses,
        hprefix.trans (List.prefix_append _ _)⟩
    · rcases List.mem_map.mp hmem with ⟨x, -, hx⟩
      nomatch hx
  | panics h => exact h.before hmem

/-- The last handler of a list that passes has returned a nil error. -/
theorem Passes.last {handlers : List η} {handler : η} {input result : ρ} {s t : σ}
    {calls : List (HandlerCall η ρ)}
    (h : Passes b (handlers ++ [handler]) input s calls result t) :
    ∃ param u, .do_ handler param ∈ calls ∧ b.do_ handler param u = (some (result, none), t) := by
  induction handlers generalizing input s calls with
  | nil =>
    rcases h with _ | ⟨hdo, hrest⟩
    rcases hrest with _ | _
    exact ⟨input, s, List.mem_singleton_self _, hdo⟩
  | cons first rest ih =>
    rcases h with _ | ⟨hdo, hrest⟩
    rcases ih hrest with ⟨param, u, hmem, hlast⟩
    exact ⟨param, u, List.mem_cons_of_mem _ hmem, hlast⟩

/-- **A pipeline is the left-to-right composition of its handlers.**  In the pipeline of
`BuildPipeline` nothing is cleaned up unless the upload has returned a nil error. -/
theorem invoke_composes (b : Behaviour η ρ ε σ) {handlers : List η} (hne : handlers ≠ [])
    (input : ρ) (s : σ) :
    Composes b handlers input ⟨s, []⟩ ((Pipeline.ofHandlers handlers).invoke b input ⟨s, []⟩) ∧
    ∀ (b : Behaviour Handler ρ ε σ) (config : LogConfig) (param : ρ), .do_ .clean param ∈
        ((Pipeline.ofHandlers (buildPipeline config)).invoke b input ⟨s, []⟩).2.calls →
      ∃ desc param' u v, .do_ (.upload desc) param' ∈
          ((Pipeline.ofHandlers (buildPipeline config)).invoke b input ⟨s, []⟩).2.calls ∧
        b.do_ (.upload desc) param' u = (some (param, none), v) := by
  refine ⟨Pipeline.composes b hne input _, fun b config param hmem => ?_⟩
  have hcomposes := Pipeline.composes b (List.cons_ne_nil _ _ : buildPipeline config ≠ []) input
    ⟨s, []⟩
  rcases hcomposes.before hmem with ⟨before, after, calls, u, hhandlers, hpasses, hprefix⟩
  -- the upload is the last one before the clean-up
  obtain ⟨desc, rfl⟩ : ∃ desc, before = [.archive] ++ [.upload desc] := by
    rcases before with _ | ⟨first, _ | ⟨second, _ | ⟨third, rest⟩⟩⟩
    · nomatch hhandlers
    · nomatch hhandlers
    · simp only [List.cons_append, List.cons.injEq] at hhandlers
      rw [← hhandlers.1, ← hhandlers.2.1]
      exact ⟨_, rfl⟩
    · simp at hhandlers
  rcases hpasses.last with ⟨param', v, hcall, hdo⟩
  exact ⟨desc, param', v, u, hprefix.subset hcall, hdo⟩

/-- Three handlers that add their numbers, the last of which fails on more than two. -/
def demoBehaviour : Behaviour ℕ ℕ String (List ℕ) where
  do_ handler input s :=
    if handler = 3 ∧ input > 2 then (some (input, some "too much"), s)
    else (some (input + handler, none), handler :: s)
  rollback handler s := s.erase handler
  nil := 0
  handlerIsEmpty := "handler is empty"

theorem invoke_composes_three :
    Composes demoBehaviour [1, 2, 3] 0 ⟨[], []⟩ (some (0, some "too much"),
      ⟨[], [.do_ 1 0, .do_ 2 1, .do_ 3 3, .rollback 1, .rollback 2, .rollback 3]⟩) :=
  (invoke_composes demoBehaviour (List.cons_ne_nil 1 [2, 3]) 0 []).1

/-! ## The pipeline of an upload -/

/-- The handlers of `Logfile.Upload`, whose `Rollback` does nothing. -/
def uploadBehaviour (host : ArchiveHost) (faults : Faults) (client : Option UploadClient) :
    Behaviour Handler Param TaskError Depot where
  do_ handler := handler.run host faults client
  rollback _ depot := depot
  nil := .nil
  handlerIsEmpty := .text "handler is empty"

/-- **The pass of `Logfile.Upload`** over a list of handlers is what their pipeline does. -/
theorem invoke_handlers (host : ArchiveHost) (faults : Faults) (client : Option UploadClient)
    {handlers : List Handler} (hne : handlers ≠ []) (input : Param) (t : Trail Handler Param Depot) :
    (fun r => (r.1, r.2.state)) ((Pipeline.ofHandlers handlers).invoke
      (uploadBehaviour host faults client) input t) =
        invoke host faults client handlers input t.state := by
  have hstate (handlers : List Handler) (depot : Depot) :
      (uploadBehaviour host faults client).rollbackAll handlers depot = depot := by
    induction handlers with
    | nil => rfl
    | cons handler handlers ih => exact ih
  have hpasses {handlers : List Handler} {input output : Param} {depot depot' : Depot}
      {calls : List (HandlerCall Handler Param)} (rest : List Handler)
      (h : Passes (uploadBehaviour host faults client) handlers input depot calls output depot') :
      invoke host faults client (handlers ++ rest) input depot =
        invoke host faults client rest output depot' := by
    induction h with
    | nil => rfl
    | @cons handler handlers input s output s' calls result t hdo hrest ih =>
      have hrun : handler.run host faults client input s = (some (output, none), s') := hdo
      rw [List.cons_append, invoke, hrun]
      exact ih
  have hcomposes := Pipeline.composes (uploadBehaviour host faults client) hne input t
  generalize (Pipeline.ofHandlers handlers).invoke _ input t = r at hcomposes
  cases hcomposes with
  | returns h =>
    have hall := hpasses [] h
    rw [List.append_nil] at hall
    exact hall.symm
  | @fails calls output err s h =>
    rcases h.ends with ⟨before, handler, after, calls', input', s', rfl, hbefore, -, hends⟩
    have hrun : handler.run host faults client input' s' = (some (output, some err), s) := hends
    rw [hpasses (handler :: after) hbefore, invoke, hrun, hstate]
    rfl
  | @panics calls s h =>
    rcases h.ends with ⟨before, handler, after, calls', input', s', rfl, hbefore, -, hends⟩
    have hrun : handler.run host faults client input' s' = (none, s) := hends
    rw [hpasses (handler :: after) hbefore, invoke, hrun]

end Accumulation.Logfile
