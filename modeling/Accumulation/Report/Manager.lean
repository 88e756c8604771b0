/-
# Accumulation.Report.Manager — the report manager and the objects it hands out.

The manager holds pointers: to its collectors, to the engine and, under their session keys, to the
report tasks.  A task keeps the pointer to the engine it was made with.  A `World` is the manager
next to a heap for each kind of object, and an index into a heap is a pointer.  The sections that
the manager runs under its mutex are functions on worlds.

A method called on a nil engine, or `Stop` on an engine whose cron was never made, is a panic.
-/
import Accumulation.Model.Session

namespace Accumulation.Report

open Accumulation.Model

/-- How a call ends. -/
inductive Outcome
  | ok
  | err
  | panic
  deriving DecidableEq, Repr

/-- `BandwidthReportTask`: what the manager sees of it. -/
structure TaskCell where
  session : Session
  engine : Option Nat
  cronRunning : Bool
  isRunnable : Bool
  deriving DecidableEq

/-- `bandwidthReportManager`; no collectors is the `nil` slice. -/
structure Manager where
  collectors : List Nat
  engine : Option Nat
  tasks : AList fun _ : String => Nat

/-- The manager and its objects: whether each collector runs, each engine's cron and whether it
runs, and the tasks. -/
structure World where
  manager : Manager
  collectors : List Bool
  engines : List (Option Bool)
  heap : List TaskCell

namespace World

/-- `NewBandwidthReportManager` -/
def newManager : World := ⟨⟨[], none, ∅⟩, [], [], []⟩

/-- `Stop` of the collectors with these pointers. -/
def stopCollectors (collectors : List Bool) (pointers : List Nat) : List Bool :=
  pointers.foldl (fun collectors pointer => collectors.set pointer false) collectors

/-- `initialization`.  `devices` is what `buildBandwidthCollector` returns, `none` for an error and
otherwise, for each collector it built, whether its `Start` succeeds.  The deferred clean-up after a
failed `Start` stops an engine that has not been started. -/
def initialization (w : World) (devices : Option (List Bool)) : Outcome × World :=
  match devices with
  | none => (.err, w)
  | some starts =>
    if starts.all (fun success => success) then
      (.ok, { w with
        manager.collectors := List.range' w.collectors.length starts.length
        manager.engine := some w.engines.length
        collectors := w.collectors ++ List.replicate starts.length true
        engines := w.engines ++ [some true] })
    else
      (.panic, { w with
        collectors := w.collectors ++ List.replicate starts.length false
        engines := w.engines ++ [none] })

/-- Make a task, start it and enter it under its session's key. -/
def addTask (w : World) (session : Session) : World :=
  { w with
    manager.tasks := w.manager.tasks.insert session.sessionKey w.heap.length
    heap := w.heap ++ [⟨session, w.manager.engine, true, true⟩] }

/-- The section of `StartReport` under the mutex. -/
def register (w : World) (session : Session) (devices : Option (List Bool)) : Outcome × World :=
  match if w.manager.collectors.length = 0 then w.initialization devices else (.ok, w) with
  | (.ok, w) => (.ok, w.addTask session)
  | failed => failed

/-- `RemoveTask`, which is a section under the mutex. -/
def removeTask (w : World) (session : Session) : Outcome × World :=
  let w := { w with manager.tasks := w.manager.tasks.erase session.sessionKey }
  if w.manager.tasks.keys.length = 0 then
    let w := { w with collectors := stopCollectors w.collectors w.manager.collectors }
    match w.manager.engine with
    | none => (.panic, w)
    | some engine =>
      match w.engines[engine]? with
      | some (some _) => (.ok, { w with
          manager.collectors := []
          manager.engine := none
          engines := w.engines.set engine (some false) })
      | _ => (.panic, w)
  else (.ok, w)

/-- The first half of a task's `Stop`: its cron and its flag. -/
def stopTask (w : World) (pointer : Nat) : World :=
  { w with heap := w.heap.modify pointer fun task =>
      { task with cronRunning := false, isRunnable := false } }

/-! ## The engine and the collectors -/

/-- What the tasks rely on: with a task registered there are an engine and collectors, and they run;
without one there are none. -/
structure Ready (w : World) : Prop where
  busy : w.manager.tasks.keys ≠ [] → ∃ engine, w.manager.engine = some engine ∧
    w.engines[engine]? = some (some true) ∧ w.manager.collectors ≠ [] ∧
    ∀ pointer ∈ w.manager.collectors, w.collectors[pointer]? = some true
  idle : w.manager.tasks.keys = [] → w.manager.engine = none ∧ w.manager.collectors = []

theorem newManager_ready : newManager.Ready where
  busy h := absurd rfl h
  idle _ := ⟨rfl, rfl⟩

variable {w w' : World}

/-- A section that initialises finds at least one device, and every collector starts. -/
def Finds (w : World) (devices : Option (List Bool)) : Prop :=
  w.manager.collectors = [] → ∃ n, 0 < n ∧ devices = some (List.replicate n true)

theorem keys_insert_ne_nil {tasks : AList fun _ : String => Nat} (key : String) (pointer : Nat) :
    (tasks.insert key pointer).keys ≠ [] := by
  rw [AList.keys_insert]
  exact List.cons_ne_nil _ _

theorem keys_ne_nil_of_lookup {tasks : AList fun _ : String => Nat} {key : String} {pointer : Nat}
    (h : tasks.lookup key = some pointer) : tasks.keys ≠ [] := by
  intro hnil
  have hmem : key ∈ tasks.keys := AList.mem_keys.mp
    (AList.lookup_isSome.mp (by rw [h]; rfl))
  rw [hnil] at hmem
  nomatch hmem

/-- **The locked section of `StartReport`** registers a running task of the manager's engine, and
that engine and its collectors run. -/
theorem register_spec (h : w.Ready) (session : Session) {devices : Option (List Bool)}
    (hfinds : w.Finds devices) : ∃ w' engine, w.register session devices = (.ok, w') ∧ w'.Ready ∧
      w'.manager.tasks = w.manager.tasks.insert session.sessionKey w.heap.length ∧
      w'.manager.engine = some engine ∧
      w'.heap = w.heap ++ [⟨session, some engine, true, true⟩] ∧
      (w.manager.tasks.keys ≠ [] → w.manager.engine = some engine) := by
  by_cases hnil : w.manager.collectors = []
  · -- nothing is registered yet
    have hidle : w.manager.tasks.keys = [] := by
      by_contra hbusy
      obtain ⟨_, _, _, hne, _⟩ := h.busy hbusy
      exact hne hnil
    obtain ⟨n, hpos, rfl⟩ := hfinds hnil
    have hall : (List.replicate n true).all (fun success => success) = true := by
      simp [List.all_replicate]
    have hregister : w.register session (some (List.replicate n true)) = (.ok, addTask { w with
        manager.collectors := List.range' w.collectors.length (List.replicate n true).length
        manager.engine := some w.engines.length
        collectors := w.collectors ++ List.replicate (List.replicate n true).length true
        engines := w.engines ++ [some true] } session) := by
      rw [register, if_pos (by rw [hnil]; rfl), initialization, if_pos hall]
    refine ⟨_, w.engines.length, hregister, ⟨?_, ?_⟩, rfl, rfl, rfl,
      fun hbusy => absurd hidle hbusy⟩
    · intro _
      refine ⟨w.engines.length, rfl, ?_, ?_, ?_⟩
      · exact List.getElem?_concat_length
      · show List.range' _ (List.replicate n true).length ≠ []
        rw [List.length_replicate, Ne, List.range'_eq_nil_iff]
        omega
      · intro pointer hpointer
        obtain ⟨hlow, hhigh⟩ := List.mem_range'_1.mp hpointer
        show (w.collectors ++ List.replicate (List.replicate n true).length true)[pointer]? = _
        rw [List.getElem?_append_right hlow, List.getElem?_replicate, if_pos (by omega)]
    · intro hempty
      exact absurd hempty (keys_insert_ne_nil _ _)
  · have hbusy : w.manager.tasks.keys ≠ [] := fun hidle => hnil (h.idle hidle).2
    obtain ⟨engine, hengine, hcron, hne, hrun⟩ := h.busy hbusy
    have hlen : ¬ w.manager.collectors.length = 0 := by
      rw [List.length_eq_zero_iff]
      exact hnil
    have hregister : w.register session devices = (.ok, w.addTask session) := by
      rw [register, if_neg hlen]
    refine ⟨_, engine, hregister, ⟨?_, ?_⟩, rfl, hengine, ?_, fun _ => hengine⟩
    · intro _
      exact ⟨engine, hengine, hcron, hne, hrun⟩
    · intro hempty
      exact absurd hempty (keys_insert_ne_nil _ _)
    · rw [← hengine]
      rfl

/-- `RemoveTask` with other tasks registered takes the session's key out. -/
theorem removeTask_more {session : Session}
    (hmore : (w.manager.tasks.erase session.sessionKey).keys ≠ []) :
    w.removeTask session =
      (.ok, { w with manager.tasks := w.manager.tasks.erase session.sessionKey }) := by
  have hlen : ¬ (w.manager.tasks.erase session.sessionKey).keys.length = 0 := by
    rw [List.length_eq_zero_iff]
    exact hmore
  simp only [removeTask, if_neg hlen]

/-- With none left it stops collectors and engine. -/
theorem removeTask_last {session : Session} {engine : Nat} {cron : Bool}
    (hlast : (w.manager.tasks.erase session.sessionKey).keys = [])
    (hengine : w.manager.engine = some engine) (hcron : w.engines[engine]? = some (some cron)) :
    w.removeTask session = (.ok, { w with
      manager := ⟨[], none, w.manager.tasks.erase session.sessionKey⟩
      collectors := stopCollectors w.collectors w.manager.collectors
      engines := w.engines.set engine (some false) }) := by
  have hlen : (w.manager.tasks.erase session.sessionKey).keys.length = 0 := by
    rw [hlast]
    rfl
  simp only [removeTask, if_pos hlen, hengine, hcron]

/-- **`RemoveTask`** while some task is registered takes the session's key out, and stops engine and
collectors with the last one. -/
theorem removeTask_spec (h : w.Ready) (session : Session) (hbusy : w.manager.tasks.keys ≠ []) :
    ∃ w', w.removeTask session = (.ok, w') ∧ w'.Ready ∧
      w'.manager.tasks = w.manager.tasks.erase session.sessionKey ∧ w'.heap = w.heap ∧
      (w'.manager.tasks.keys ≠ [] → w'.manager.engine = w.manager.engine) := by
  obtain ⟨engine, hengine, hcron, hne, hrun⟩ := h.busy hbusy
  by_cases hlast : (w.manager.tasks.erase session.sessionKey).keys = []
  · refine ⟨_, removeTask_last hlast hengine hcron, ⟨?_, ?_⟩, rfl, rfl,
      fun hmore => absurd hlast hmore⟩
    · intro hmore
      exact absurd hlast hmore
    · intro _
      exact ⟨rfl, rfl⟩
  · refine ⟨_, removeTask_more hlast, ⟨?_, ?_⟩, rfl, rfl, fun _ => rfl⟩
    · intro _
      exact ⟨engine, hengine, hcron, hne, hrun⟩
    · intro hidle
      exact absurd hidle hlast

/-- Stopping a task changes its cron and its flag. -/
theorem heap_stopTask {pointer other : Nat} {task' : TaskCell}
    (h : (w.stopTask pointer).heap[other]? = some task') :
    ∃ task, w.heap[other]? = some task ∧ task'.session = task.session ∧
      task'.engine = task.engine ∧ (other ≠ pointer → task' = task) ∧
      (other = pointer → task'.cronRunning = false ∧ task'.isRunnable = false) := by
  simp only [World.stopTask, List.getElem?_modify, Option.map_eq_map, Option.map_eq_some_iff] at h
  obtain ⟨task, htask, rfl⟩ := h
  refine ⟨task, htask, ?_⟩
  by_cases heq : pointer = other
  · rw [if_pos heq]
    exact ⟨rfl, rfl, fun hne => absurd heq.symm hne, fun _ => ⟨rfl, rfl⟩⟩
  · rw [if_neg heq]
    exact ⟨rfl, rfl, fun _ => rfl, fun heq' => absurd heq'.symm heq⟩

theorem heap_stopTask_mpr (pointer : Nat) {other : Nat} {task : TaskCell}
    (h : w.heap[other]? = some task) :
    ∃ task', (w.stopTask pointer).heap[other]? = some task' ∧ task'.session = task.session ∧
      task'.engine = task.engine ∧ (other ≠ pointer → task' = task) := by
  have hsome : (w.stopTask pointer).heap[other]? =
      some (if pointer = other then { task with cronRunning := false, isRunnable := false }
        else task) := by
    simp only [World.stopTask, List.getElem?_modify, h, Option.map_eq_map, Option.map_some]
  obtain ⟨task₀, htask₀, hrest⟩ := heap_stopTask hsome
  obtain rfl := Option.some.inj (h.symm.trans htask₀)
  exact ⟨_, hsome, hrest.1, hrest.2.1, hrest.2.2.1⟩

theorem stopTask_ready (h : w.Ready) (pointer : Nat) : (w.stopTask pointer).Ready :=
  ⟨h.busy, h.idle⟩

end World

end Accumulation.Report
