/-
# Accumulation.Report.OneEngine — calls of StartReport and EndReport one after another.

`serve` is a whole call, as it runs when no other overlaps with it (`Service.startReport_leads`,
`Service.endReport_leads`).  The manager initialises when it has no collectors, and a host with no
matching device leaves it with an engine but without collectors.  The next `StartReport` then makes a
second engine, and the first is forgotten.  `oneEngine_iff` says that this is the only way to it.
-/
import Accumulation.Report.ManagerRuns

namespace Accumulation.Report

open Accumulation.Model Accumulation.Lib.Run

/-- A call; `found` is how many devices an initialization in it would find, `none` for an error of
the discovery.  Every collector starts. -/
inductive Request
  | startReport (session : Session) (found : Option Nat)
  | endReport (session : Session)

namespace World

/-- What `buildBandwidthCollector` returns, and that each collector's `Start` succeeds. -/
def started (found : Option Nat) : Option (List Bool) := found.map fun n => List.replicate n true

/-- `Stop` of a task. -/
def stop (w : World) (pointer : Nat) : Outcome × World :=
  match w.heap[pointer]? with
  | some task => (w.stopTask pointer).removeTask task.session
  | none => (.panic, w)

/-- `StartReport` -/
def startReport (w : World) (session : Session) (devices : Option (List Bool)) : Outcome × World :=
  match w.manager.tasks.lookup session.sessionKey with
  | none => w.register session devices
  | some pointer =>
    match w.stop pointer with
    | (.ok, w) => w.register session devices
    | failed => failed

/-- `EndReport` -/
def endReport (w : World) (session : Session) : Outcome × World :=
  match w.manager.tasks.lookup session.sessionKey with
  | none => (.ok, w)
  | some pointer =>
    match w.heap[pointer]? with
    | some task => if task.isRunnable then w.stop pointer else (.ok, w)
    | none => (.panic, w)

def serve (w : World) : Request → Outcome × World
  | .startReport session found => w.startReport session (started found)
  | .endReport session => w.endReport session

/-- A call always ends, and the next one finds the world as it has left it. -/
def step (w : World) (r : Request) : Option World := some (w.serve r).2

/-- **One engine.**  An engine whose cron runs is the manager's; with a task registered the manager's
engine runs and every registered task holds it; without one no engine and no collector runs. -/
structure OneEngine (w : World) : Prop where
  running : ∀ engine, w.engines[engine]? = some (some true) → w.manager.engine = some engine
  tasks : ∀ key pointer, w.manager.tasks.lookup key = some pointer → ∃ task engine,
    w.heap[pointer]? = some task ∧ task.engine = some engine ∧ w.manager.engine = some engine ∧
      w.engines[engine]? = some (some true)
  idle : w.manager.tasks.keys = [] → (∀ engine : Nat, w.engines[engine]? ≠ some (some true)) ∧
    ∀ collector : Nat, w.collectors[collector]? ≠ some true

/-- A `StartReport` while other sessions report finds collectors, or its initialization fails. -/
def NoSecondEngine (w : World) : Request → Prop
  | .startReport session found => (w.manager.tasks.erase session.sessionKey).keys ≠ [] →
    w.manager.collectors ≠ [] ∨ found = none
  | .endReport _ => True

/-! ## What every call keeps -/

/-- What holds between the calls of any run. -/
structure Kept (w : World) : Prop where
  busy : w.manager.tasks.keys ≠ [] → ∃ engine, w.manager.engine = some engine ∧
    w.engines[engine]? = some (some true)
  idle : w.manager.tasks.keys = [] → w.manager.engine = none ∧ w.manager.collectors = []
  collectors : ∀ collector, w.collectors[collector]? = some true →
    collector ∈ w.manager.collectors
  registered : ∀ key pointer, w.manager.tasks.lookup key = some pointer →
    ∃ task, w.heap[pointer]? = some task ∧ task.session.sessionKey = key

/-- The engine of a running cron is the manager's, and so is that of a registered task. -/
structure Single (w : World) : Prop where
  running : ∀ engine, w.engines[engine]? = some (some true) → w.manager.engine = some engine
  tasks : ∀ key pointer, w.manager.tasks.lookup key = some pointer →
    ∃ task, w.heap[pointer]? = some task ∧ task.engine = w.manager.engine

theorem newManager_kept : newManager.Kept where
  busy h := absurd rfl h
  idle _ := ⟨rfl, rfl⟩
  collectors _ h := nomatch h
  registered _ _ h := nomatch h

theorem newManager_single : newManager.Single where
  running _ h := nomatch h
  tasks _ _ h := nomatch h

variable {w w' : World}

theorem OneEngine.single (h : w.OneEngine) : w.Single where
  running := h.running
  tasks key pointer hlookup := by
    obtain ⟨task, engine, htask, hengine, hmanager, -⟩ := h.tasks key pointer hlookup
    exact ⟨task, htask, hengine.trans hmanager.symm⟩

theorem Single.oneEngine (hk : w.Kept) (h : w.Single) : w.OneEngine where
  running := h.running
  tasks key pointer hlookup := by
    obtain ⟨task, htask, hengine⟩ := h.tasks key pointer hlookup
    obtain ⟨engine, hmanager, hcron⟩ := hk.busy (keys_ne_nil_of_lookup hlookup)
    exact ⟨task, engine, htask, hengine.trans hmanager, hmanager, hcron⟩
  idle hempty := by
    obtain ⟨hengine, hcollectors⟩ := hk.idle hempty
    constructor
    · intro engine hcron
      have := h.running engine hcron
      rw [hengine] at this
      nomatch this
    · intro collector hrun
      have := hk.collectors collector hrun
      rw [hcollectors] at this
      nomatch this

/-- A collector that still runs was not among those that were stopped. -/
theorem stopCollectors_running {collectors : List Bool} {pointers : List Nat} {collector : Nat}
    (h : (stopCollectors collectors pointers)[collector]? = some true) :
    collectors[collector]? = some true ∧ collector ∉ pointers := by
  induction pointers generalizing collectors with
  | nil => exact ⟨h, List.not_mem_nil⟩
  | cons pointer pointers ih =>
    obtain ⟨hrun, hnot⟩ := ih h
    have hne : pointer ≠ collector := by
      rintro rfl
      rw [List.getElem?_set_self'] at hrun
      cases hget : collectors[pointer]? <;> rw [hget] at hrun <;> nomatch hrun
    rw [List.getElem?_set_ne hne] at hrun
    refine ⟨hrun, ?_⟩
    rw [List.mem_cons, not_or]
    exact ⟨hne.symm, hnot⟩

/-! ### Stopping a task -/

theorem stopTask_kept (h : w.Kept) (pointer : Nat) : (w.stopTask pointer).Kept where
  busy := h.busy
  idle := h.idle
  collectors := h.collectors
  registered key other hlookup := by
    obtain ⟨task, htask, hkey⟩ := h.registered key other hlookup
    obtain ⟨task', htask', hsession, -, -⟩ := heap_stopTask_mpr pointer htask
    exact ⟨task', htask', by rw [hsession]; exact hkey⟩

theorem stopTask_single (h : w.Single) (pointer : Nat) : (w.stopTask pointer).Single where
  running := h.running
  tasks key other hlookup := by
    obtain ⟨task, htask, hengine⟩ := h.tasks key other hlookup
    obtain ⟨task', htask', -, hengine', -⟩ := heap_stopTask_mpr pointer htask
    exact ⟨task', htask', hengine'.trans hengine⟩

/-- A task that is still registered was registered. -/
theorem lookup_of_erase {tasks : AList fun _ : String => Nat} {key key' : String} {pointer : Nat}
    (h : (tasks.erase key).lookup key' = some pointer) : tasks.lookup key' = some pointer := by
  by_cases heq : key' = key
  · subst heq
    rw [AList.lookup_erase] at h
    nomatch h
  · rwa [AList.lookup_erase_ne heq] at h

theorem removeTask_kept (h : w.Kept) (session : Session) (hbusy : w.manager.tasks.keys ≠ []) :
    (w.removeTask session).1 = .ok ∧ (w.removeTask session).2.Kept := by
  obtain ⟨engine, hengine, hcron⟩ := h.busy hbusy
  by_cases hlast : (w.manager.tasks.erase session.sessionKey).keys = []
  · rw [removeTask_last hlast hengine hcron]
    refine ⟨rfl, ⟨fun hmore => absurd hlast hmore, fun _ => ⟨rfl, rfl⟩, ?_, ?_⟩⟩
    · intro collector hrun
      obtain ⟨hrun, hnot⟩ := stopCollectors_running hrun
      exact absurd (h.collectors collector hrun) hnot
    · intro key pointer hlookup
      exact h.registered key pointer (lookup_of_erase hlookup)
  · rw [removeTask_more hlast]
    refine ⟨rfl, ⟨fun _ => ⟨engine, hengine, hcron⟩, fun hidle => absurd hidle hlast,
      h.collectors, ?_⟩⟩
    intro key pointer hlookup
    exact h.registered key pointer (lookup_of_erase hlookup)

theorem removeTask_single (hk : w.Kept) (h : w.Single) (session : Session)
    (hbusy : w.manager.tasks.keys ≠ []) : (w.removeTask session).2.Single := by
  obtain ⟨engine, hengine, hcron⟩ := hk.busy hbusy
  by_cases hlast : (w.manager.tasks.erase session.sessionKey).keys = []
  · rw [removeTask_last hlast hengine hcron]
    refine ⟨?_, ?_⟩
    · -- the engine that ran has been stopped
      intro other hother
      have hne : engine ≠ other := by
        rintro rfl
        change (w.engines.set engine (some false))[engine]? = _ at hother
        rw [List.getElem?_set_self', hcron] at hother
        nomatch hother
      have hrun : w.engines[other]? = some (some true) := by
        rwa [← List.getElem?_set_ne hne]
      rw [h.running other hrun] at hengine
      exact absurd (Option.some.inj hengine).symm hne
    · intro key pointer hlookup
      exact absurd hlast (keys_ne_nil_of_lookup hlookup)
  · rw [removeTask_more hlast]
    exact ⟨h.running, fun key pointer hlookup => h.tasks key pointer (lookup_of_erase hlookup)⟩

/-- `Stop` on a registered task. -/
theorem stop_eq (h : w.Kept) {key : String} {pointer : Nat}
    (hlookup : w.manager.tasks.lookup key = some pointer) :
    ∃ session : Session, session.sessionKey = key ∧
      w.stop pointer = (w.stopTask pointer).removeTask session := by
  obtain ⟨task, htask, hkey⟩ := h.registered key pointer hlookup
  exact ⟨task.session, hkey, by rw [stop, htask]⟩

theorem stop_kept (h : w.Kept) {key : String} {pointer : Nat}
    (hlookup : w.manager.tasks.lookup key = some pointer) :
    (w.stop pointer).1 = .ok ∧ (w.stop pointer).2.Kept := by
  obtain ⟨session, -, hstop⟩ := stop_eq h hlookup
  rw [hstop]
  exact removeTask_kept (stopTask_kept h pointer) session (keys_ne_nil_of_lookup hlookup)

theorem stop_single (hk : w.Kept) (h : w.Single) {key : String} {pointer : Nat}
    (hlookup : w.manager.tasks.lookup key = some pointer) : (w.stop pointer).2.Single := by
  obtain ⟨session, -, hstop⟩ := stop_eq hk hlookup
  rw [hstop]
  exact removeTask_single (stopTask_kept hk pointer) (stopTask_single h pointer) session
    (keys_ne_nil_of_lookup hlookup)

/-- What `Stop` leaves behind: the other tasks and, if there are any, the collectors. -/
theorem stop_leaves (h : w.Kept) {key : String} {pointer : Nat}
    (hlookup : w.manager.tasks.lookup key = some pointer) :
    (w.stop pointer).2.manager.tasks = w.manager.tasks.erase key ∧
      ((w.manager.tasks.erase key).keys ≠ [] →
        (w.stop pointer).2.manager.collectors = w.manager.collectors) := by
  obtain ⟨session, rfl, hstop⟩ := stop_eq h hlookup
  have hk := stopTask_kept h pointer
  obtain ⟨engine, hengine, hcron⟩ := hk.busy (keys_ne_nil_of_lookup hlookup)
  rw [hstop]
  by_cases hlast : ((w.stopTask pointer).manager.tasks.erase session.sessionKey).keys = []
  · rw [removeTask_last hlast hengine hcron]
    exact ⟨rfl, fun hmore => absurd hlast hmore⟩
  · rw [removeTask_more hlast]
    exact ⟨rfl, fun _ => rfl⟩

/-! ### Registering a task -/

theorem initialization_started (w : World) (n : Nat) :
    w.initialization (some (List.replicate n true)) = (.ok, { w with
      manager.collectors := List.range' w.collectors.length n
      manager.engine := some w.engines.length
      collectors := w.collectors ++ List.replicate n true
      engines := w.engines ++ [some true] }) := by
  rw [initialization, if_pos (by simp [List.all_replicate])]
  simp only [List.length_replicate]

/-- What holds of every registered task, and of the new one, still does when that is registered. -/
theorem registered_addTask {P : String → TaskCell → Prop} (session : Session)
    (hnew : P session.sessionKey ⟨session, w.manager.engine, true, true⟩)
    (hregistered : ∀ key pointer, w.manager.tasks.lookup key = some pointer →
      ∃ task, w.heap[pointer]? = some task ∧ P key task) :
    ∀ key pointer, (w.addTask session).manager.tasks.lookup key = some pointer →
      ∃ task, (w.addTask session).heap[pointer]? = some task ∧ P key task := by
  intro key pointer hlookup
  change (w.manager.tasks.insert session.sessionKey w.heap.length).lookup key = _ at hlookup
  show ∃ task, (w.heap ++ [_])[pointer]? = some task ∧ _
  by_cases hkey : key = session.sessionKey
  · subst hkey
    rw [AList.lookup_insert] at hlookup
    obtain rfl := Option.some.inj hlookup
    exact ⟨_, List.getElem?_concat_length, hnew⟩
  · rw [AList.lookup_insert_ne hkey] at hlookup
    obtain ⟨task, htask, hP⟩ := hregistered key pointer hlookup
    refine ⟨task, ?_, hP⟩
    rw [List.getElem?_append_left (List.getElem?_eq_some_iff.mp htask).1]
    exact htask

theorem addTask_kept (session : Session) {engine : Nat} (hengine : w.manager.engine = some engine)
    (hcron : w.engines[engine]? = some (some true))
    (hcollectors : ∀ collector, w.collectors[collector]? = some true →
      collector ∈ w.manager.collectors)
    (hregistered : ∀ key pointer, w.manager.tasks.lookup key = some pointer →
      ∃ task, w.heap[pointer]? = some task ∧ task.session.sessionKey = key) :
    (w.addTask session).Kept :=
  ⟨fun _ => ⟨engine, hengine, hcron⟩, fun hidle => absurd hidle (keys_insert_ne_nil _ _),
    hcollectors, registered_addTask session rfl hregistered⟩

theorem addTask_single (h : w.Single) (session : Session) : (w.addTask session).Single :=
  ⟨h.running, registered_addTask (P := fun _ task => task.engine = w.manager.engine) session rfl
    h.tasks⟩

/-- The world after an initialization that found `n` devices. -/
def initialized (w : World) (n : Nat) : World := { w with
  manager.collectors := List.range' w.collectors.length n
  manager.engine := some w.engines.length
  collectors := w.collectors ++ List.replicate n true
  engines := w.engines ++ [some true] }

/-- The section of `StartReport`, case by case. -/
theorem register_cases (w : World) (session : Session) (found : Option Nat) :
    (w.manager.collectors ≠ [] ∧
      w.register session (started found) = (.ok, w.addTask session)) ∨
    (w.manager.collectors = [] ∧ found = none ∧
      w.register session (started found) = (.err, w)) ∨
    (w.manager.collectors = [] ∧ ∃ n, found = some n ∧
      w.register session (started found) = (.ok, (w.initialized n).addTask session)) := by
  by_cases hnil : w.manager.collectors = []
  · right
    have hlen : w.manager.collectors.length = 0 := by rw [hnil]; rfl
    cases found with
    | none =>
      left
      exact ⟨hnil, rfl, by rw [register, if_pos hlen]; rfl⟩
    | some n =>
      right
      refine ⟨hnil, n, rfl, ?_⟩
      rw [register, if_pos hlen, started, Option.map_some, initialization_started]
      rfl
  · left
    refine ⟨hnil, ?_⟩
    rw [register, if_neg (by rwa [List.length_eq_zero_iff])]

theorem register_kept (h : w.Kept) (session : Session) (found : Option Nat) :
    (w.register session (started found)).2.Kept := by
  rcases register_cases w session found with ⟨hne, hreg⟩ | ⟨-, -, hreg⟩ | ⟨hnil, n, -, hreg⟩ <;>
    rw [hreg]
  · have hbusy : w.manager.tasks.keys ≠ [] := fun hidle => hne (h.idle hidle).2
    obtain ⟨engine, hengine, hcron⟩ := h.busy hbusy
    exact addTask_kept session hengine hcron h.collectors h.registered
  · exact h
  · refine addTask_kept (w := w.initialized n) session rfl List.getElem?_concat_length ?_ h.registered
    -- none of the old collectors runs
    intro collector hrun
    show collector ∈ List.range' w.collectors.length n
    change (w.collectors ++ List.replicate n true)[collector]? = some true at hrun
    rw [List.mem_range'_1]
    by_cases hold : collector < w.collectors.length
    · rw [List.getElem?_append_left hold] at hrun
      have hmem := h.collectors collector hrun
      rw [hnil] at hmem
      nomatch hmem
    · rw [List.getElem?_append_right (Nat.le_of_not_lt hold), List.getElem?_replicate] at hrun
      split at hrun
      · omega
      · nomatch hrun

/-- Without a second engine the first stays the only one. -/
theorem register_single (hk : w.Kept) (h : w.Single) (session : Session) {found : Option Nat}
    (hsafe : w.manager.tasks.keys ≠ [] → w.manager.collectors ≠ [] ∨ found = none) :
    (w.register session (started found)).2.Single := by
  rcases register_cases w session found with ⟨-, hreg⟩ | ⟨-, -, hreg⟩ | ⟨hnil, n, hfound, hreg⟩ <;>
    rw [hreg]
  · exact addTask_single h session
  · exact h
  · have hidle : w.manager.tasks.keys = [] := by
      by_contra hbusy
      rcases hsafe hbusy with hne | hnone
      · exact hne hnil
      · rw [hfound] at hnone
        nomatch hnone
    refine addTask_single ⟨?_, ?_⟩ session
    · -- no engine ran before
      intro engine hrun
      change (w.engines ++ [some true])[engine]? = _ at hrun
      by_cases hold : engine < w.engines.length
      · rw [List.getElem?_append_left hold] at hrun
        have hengine := h.running engine hrun
        rw [(hk.idle hidle).1] at hengine
        nomatch hengine
      · obtain ⟨hlt, -⟩ := List.getElem?_eq_some_iff.mp hrun
        rw [List.length_append, List.length_singleton] at hlt
        show some w.engines.length = some engine
        rw [show engine = w.engines.length by omega]
    · intro key pointer hlookup
      exact absurd hidle (keys_ne_nil_of_lookup hlookup)

/-- With one, an engine is lost. -/
theorem register_second (hk : w.Kept) (session : Session) {found : Option Nat}
    (hbusy : w.manager.tasks.keys ≠ []) (hnil : w.manager.collectors = []) (hfound : found ≠ none) :
    ¬ (w.register session (started found)).2.Single := by
  rcases register_cases w session found with ⟨hne, -⟩ | ⟨-, hnone, -⟩ | ⟨-, n, -, hreg⟩
  · exact absurd hnil hne
  · exact absurd hnone hfound
  · rw [hreg]
    intro h
    obtain ⟨engine, -, hcron⟩ := hk.busy hbusy
    have hold := (List.getElem?_eq_some_iff.mp hcron).1
    have hlost : some w.engines.length = some engine := by
      refine h.running engine ?_
      show (w.engines ++ [some true])[engine]? = _
      rw [List.getElem?_append_left hold]
      exact hcron
    rw [Option.some.inj hlost] at hold
    exact Nat.lt_irrefl _ hold

/-! ## One call -/

/-- A `StartReport` stops the session's task first; this is the world that the section then finds. -/
theorem startReport_eq (h : w.Kept) (session : Session) (devices : Option (List Bool)) :
    ∃ w₁ : World, w.startReport session devices = w₁.register session devices ∧ w₁.Kept ∧
      (w.Single → w₁.Single) ∧
      w₁.manager.tasks.keys = (w.manager.tasks.erase session.sessionKey).keys ∧
      (w₁.manager.tasks.keys ≠ [] → w₁.manager.collectors = w.manager.collectors) := by
  rcases hlookup : w.manager.tasks.lookup session.sessionKey with _ | pointer
  · refine ⟨w, by rw [startReport, hlookup], h, id, ?_, fun _ => rfl⟩
    have hnot : session.sessionKey ∉ w.manager.tasks.keys := by
      intro hmem
      exact AList.lookup_eq_none.mp hlookup (AList.mem_keys.mpr hmem)
    rw [AList.keys_erase, List.erase_of_not_mem hnot]
  · obtain ⟨hok, hkept⟩ := stop_kept h hlookup
    obtain ⟨htasks, hcollectors⟩ := stop_leaves h hlookup
    refine ⟨(w.stop pointer).2, ?_, hkept, fun hs => stop_single h hs hlookup, by rw [htasks], ?_⟩
    · rw [startReport, hlookup]
      simp only
      rw [← Prod.mk.eta (p := w.stop pointer), hok]
    · rw [htasks]
      exact hcollectors

/-- An `EndReport` stops the session's task or does nothing. -/
theorem endReport_eq (h : w.Kept) (session : Session) :
    (w.endReport session).2 = w ∨ ∃ pointer,
      w.manager.tasks.lookup session.sessionKey = some pointer ∧
      (w.endReport session).2 = (w.stop pointer).2 := by
  rw [endReport]
  rcases hlookup : w.manager.tasks.lookup session.sessionKey with _ | pointer
  · exact Or.inl rfl
  · obtain ⟨task, htask, -⟩ := h.registered _ _ hlookup
    simp only [htask]
    split
    · exact Or.inr ⟨pointer, rfl, rfl⟩
    · exact Or.inl rfl

theorem serve_kept (h : w.Kept) (r : Request) : (w.serve r).2.Kept := by
  cases r with
  | startReport session found =>
    obtain ⟨w₁, hstart, hkept, -⟩ := startReport_eq h session (started found)
    rw [serve, hstart]
    exact register_kept hkept session found
  | endReport session =>
    rcases endReport_eq h session with hsame | ⟨pointer, hlookup, hstop⟩
    · rw [serve, hsame]
      exact h
    · rw [serve, hstop]
      exact (stop_kept h hlookup).2

theorem serve_single (hk : w.Kept) (h : w.Single) {r : Request} (hC : w.NoSecondEngine r) :
    (w.serve r).2.Single := by
  cases r with
  | startReport session found =>
    obtain ⟨w₁, hstart, hkept, hsingle, hkeys, hcollectors⟩ :=
      startReport_eq hk session (started found)
    rw [serve, hstart]
    refine register_single hkept (hsingle h) session fun hbusy => ?_
    rw [hcollectors hbusy]
    exact hC (hkeys ▸ hbusy)
  | endReport session =>
    rcases endReport_eq hk session with hsame | ⟨pointer, hlookup, hstop⟩
    · rw [serve, hsame]
      exact h
    · rw [serve, hstop]
      exact stop_single hk h hlookup

theorem noSecondEngine_of_single (hk : w.Kept) {r : Request} (h : (w.serve r).2.Single) :
    w.NoSecondEngine r := by
  cases r with
  | endReport session => trivial
  | startReport session found =>
    intro hbusy
    by_contra hcon
    obtain ⟨hnil, hfound⟩ := not_or.mp hcon
    obtain ⟨w₁, hstart, hkept, -, hkeys, hcollectors⟩ :=
      startReport_eq hk session (started found)
    rw [serve, hstart] at h
    have hbusy₁ : w₁.manager.tasks.keys ≠ [] := by rwa [hkeys]
    refine register_second hkept session hbusy₁ ?_ hfound h
    rw [hcollectors hbusy₁]
    exact not_not.mp hnil

/-! ## A call on its own -/

end World

namespace Service

/-- The next step of the last call. -/
theorem step_last (w : World) (calls : List ReportCall) (c : ReportCall)
    (devices : Option (List Bool)) :
    step ⟨w, calls ++ [c]⟩ (.run calls.length devices) =
      (advance w c devices).map fun (pc, world) => ⟨world, calls ++ [{ c with pc }]⟩ := by
  simp only [step, List.getElem?_concat_length]
  congr 1
  funext x
  obtain ⟨pc, world⟩ := x
  rw [List.set_append_right _ _ le_rfl, Nat.sub_self]
  rfl

/-- `n` steps of the last call lead from one state of it to another. -/
def Leads (devices : Option (List Bool)) (calls : List ReportCall) (w : World) (c : ReportCall)
    (w' : World) (pc : CallPc) : Prop :=
  ∃ n, exec step ⟨w, calls ++ [c]⟩ (List.replicate n (.run calls.length devices)) =
    some ⟨w', calls ++ [{ c with pc }]⟩

section

variable {devices : Option (List Bool)} {calls : List ReportCall} {w w₂ : World} {c : ReportCall}
  {pc₂ : CallPc}

theorem leads_refl : Leads devices calls w c w c.pc := ⟨0, rfl⟩

theorem leads_step (pc₁ : CallPc) (w₁ : World) (hstep : advance w c devices = some (pc₁, w₁))
    (h : Leads devices calls w₁ { c with pc := pc₁ } w₂ pc₂) :
    Leads devices calls w c w₂ pc₂ := by
  obtain ⟨n, hn⟩ := h
  refine ⟨n + 1, ?_⟩
  rw [List.replicate_succ, exec_cons, step_last, hstep]
  exact hn

/-- `Stop` of a registered task takes two steps. -/
theorem leads_stop (hk : w.Kept) {key : String} {pointer : Nat}
    (hlookup : w.manager.tasks.lookup key = some pointer)
    (h : Leads devices calls (w.stop pointer).2 { c with pc := afterStop c.kind } w₂ pc₂) :
    Leads devices calls w { c with pc := .stop pointer } w₂ pc₂ := by
  obtain ⟨task, htask, -⟩ := hk.registered key pointer hlookup
  obtain ⟨task', htask', hsession, -, -⟩ := World.heap_stopTask_mpr pointer htask
  have hstop : w.stop pointer = (w.stopTask pointer).removeTask task.session := by
    rw [World.stop, htask]
  have hok := (World.stop_kept hk hlookup).1
  refine leads_step _ _ rfl (leads_step (afterStop c.kind) (w.stop pointer).2 ?_ h)
  simp only [advance, htask', hsession, ← hstop]
  rw [← Prod.mk.eta (p := w.stop pointer), hok]
  rfl

/-- The section of `StartReport` takes one. -/
theorem leads_register (session : Session) :
    Leads devices calls w ⟨.startReport, session, .register⟩ (w.register session devices).2
      (after .done (w.register session devices).1) :=
  leads_step _ _ rfl leads_refl

end

theorem after_done (outcome : Outcome) :
    after .done outcome = .done ∨ after .done outcome = .failed ∨
      after .done outcome = .panicked := by
  cases outcome
  · exact Or.inl rfl
  · exact Or.inr (Or.inl rfl)
  · exact Or.inr (Or.inr rfl)

/-- **A `StartReport` that no other call overlaps with** is its steps one after another. -/
theorem startReport_leads {w : World} (hk : w.Kept) (calls : List ReportCall) (session : Session)
    (devices : Option (List Bool)) :
    ∃ pc, (pc = .done ∨ pc = .failed ∨ pc = .panicked) ∧
      Leads devices calls w ⟨.startReport, session, .lookup⟩
        (w.startReport session devices).2 pc := by
  rcases hlookup : w.manager.tasks.lookup session.sessionKey with _ | pointer
  · have hstart : w.startReport session devices = w.register session devices := by
      rw [World.startReport, hlookup]
    rw [hstart]
    refine ⟨_, after_done _, leads_step .register w ?_ (leads_register session)⟩
    simp only [advance, hlookup, afterStop]
  · have hstart : w.startReport session devices =
        (w.stop pointer).2.register session devices := by
      rw [World.startReport, hlookup]
      simp only
      rw [← Prod.mk.eta (p := w.stop pointer), (World.stop_kept hk hlookup).1]
    rw [hstart]
    refine ⟨_, after_done _, leads_step (.stop pointer) w ?_
      (leads_stop hk hlookup (leads_register session))⟩
    simp only [advance, hlookup]

/-- An `EndReport` as well. -/
theorem endReport_leads {w : World} (hk : w.Kept) (calls : List ReportCall) (session : Session)
    (devices : Option (List Bool)) :
    Leads devices calls w ⟨.endReport, session, .lookup⟩ (w.endReport session).2 .done := by
  rcases hlookup : w.manager.tasks.lookup session.sessionKey with _ | pointer
  · have hend : w.endReport session = (.ok, w) := by rw [World.endReport, hlookup]
    rw [hend]
    refine leads_step .done w ?_ leads_refl
    simp only [advance, hlookup, afterStop]
  · obtain ⟨task, htask, -⟩ := hk.registered _ _ hlookup
    refine leads_step (.check pointer) w (by simp only [advance, hlookup]) ?_
    by_cases hflag : task.isRunnable = true
    · have hend : w.endReport session = w.stop pointer := by
        simp only [World.endReport, hlookup, htask, if_pos hflag]
      rw [hend]
      refine leads_step (.stop pointer) w ?_ (leads_stop hk hlookup leads_refl)
      simp only [advance, htask, if_pos hflag]
    · have hend : w.endReport session = (.ok, w) := by
        simp only [World.endReport, hlookup, htask, if_neg hflag]
      rw [hend]
      refine leads_step .done w ?_ leads_refl
      simp only [advance, htask, if_neg hflag]

end Service

namespace World

/-! ## Every sequence of calls -/

/-- **At most one engine.**  In every state of a run of calls one after another, for any sessions and
any results of the discovery, a running engine is the manager's, every registered task holds it, and
no engine or collector runs without a task, if and only if no `StartReport` initialises again while
other sessions report. -/
theorem oneEngine_iff (requests : List Request) :
    Always step OneEngine newManager requests ↔ Along step NoSecondEngine newManager requests := by
  have hkept : Always step Kept newManager requests := by
    refine always_of_step (fun w r w' hw hstep => ?_) requests newManager_kept
    obtain rfl := Option.some.inj hstep
    exact serve_kept hw r
  constructor
  · intro h
    have hrun : exec step newManager requests = some (requests.foldl (fun w r => (w.serve r).2)
        newManager) := exec_total (fun _ _ => rfl) _ _
    refine along_of_always (fun w r w' hw hstep hw' => ?_) hrun (hkept.and h)
    obtain rfl := Option.some.inj hstep
    exact noSecondEngine_of_single hw.1 hw'.2.single
  · intro h
    have hboth : Always step (fun w => w.Kept ∧ w.Single) newManager requests := by
      refine always_of_along (fun w r w' hw hC hstep => ?_) ⟨newManager_kept, newManager_single⟩ h
      obtain rfl := Option.some.inj hstep
      exact ⟨serve_kept hw.1 r, serve_single hw.1 hw.2 hC⟩
    exact hboth.mono fun w hw => hw.2.oneEngine hw.1

/-! ## A host with no matching device -/

def chat : Session := ⟨0, 2, "chat", "", []⟩

/-- Two sessions report and end. -/
def bothReport : List Request :=
  [.startReport Service.game (some 0), .startReport chat (some 0), .endReport chat,
    .endReport Service.game]

/-- The first of two engines is lost, and runs on when no task is left. -/
theorem bothReport_leaks : (exec step newManager bothReport).map
      (fun w => (w.engines, w.manager.tasks.keys)) = some ([some true, some false], []) ∧
    ¬ Always step OneEngine newManager bothReport := by
  have hrun : exec step newManager bothReport =
      some ((exec step newManager bothReport).get rfl) := rfl
  refine ⟨rfl, ?_⟩
  intro h
  have hidle := ((h.last hrun).idle rfl).1 0
  exact hidle rfl

end World

end Accumulation.Report
