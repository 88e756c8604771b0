/-
# Accumulation.Report.Isolation — the report tasks of different sessions.

The map of tasks is by session keys, and a call acts on what it finds under the key of its session.
That is a task of the same key (`Owned`), in every run and with every order of steps, so the calls
for one session leave the tasks of another alone as long as no two sessions have one key
(`isolated_step`).
-/
import Accumulation.Report.ManagerRuns

namespace Accumulation.Report

open Accumulation.Model Accumulation.Lib.Run

/-! ## What a section does to the tasks -/

namespace World

variable (w : World) (session : Session) (devices : Option (List Bool))

theorem removeTask_tasks : (w.removeTask session).2.heap = w.heap ∧
    (w.removeTask session).2.manager.tasks = w.manager.tasks.erase session.sessionKey := by
  simp only [removeTask]
  split
  · split
    · exact ⟨rfl, rfl⟩
    · split <;> exact ⟨rfl, rfl⟩
  · exact ⟨rfl, rfl⟩

theorem initialization_tasks : (w.initialization devices).2.heap = w.heap ∧
    (w.initialization devices).2.manager.tasks = w.manager.tasks := by
  cases devices with
  | none => exact ⟨rfl, rfl⟩
  | some starts =>
    simp only [initialization]
    split <;> exact ⟨rfl, rfl⟩

/-- A section that fails registers nothing. -/
theorem register_tasks :
    ((w.register session devices).2.heap = w.heap ∧
      (w.register session devices).2.manager.tasks = w.manager.tasks) ∨
    ∃ engine, (w.register session devices).2.heap = w.heap ++ [⟨session, engine, true, true⟩] ∧
      (w.register session devices).2.manager.tasks =
        w.manager.tasks.insert session.sessionKey w.heap.length := by
  have hadd (v : World) (hheap : v.heap = w.heap) (htasks : v.manager.tasks = w.manager.tasks) :
      ∃ engine, (v.addTask session).heap = w.heap ++ [⟨session, engine, true, true⟩] ∧
        (v.addTask session).manager.tasks =
          w.manager.tasks.insert session.sessionKey w.heap.length := by
    refine ⟨v.manager.engine, ?_, ?_⟩
    · rw [addTask, hheap]
    · rw [addTask, hheap, htasks]
  have hinit := initialization_tasks w devices
  unfold register
  by_cases hnil : w.manager.collectors.length = 0
  · rw [if_pos hnil]
    rcases hend : w.initialization devices with ⟨outcome, v⟩
    rw [hend] at hinit
    cases outcome with
    | ok => exact Or.inr (hadd v hinit.1 hinit.2)
    | err => exact Or.inl hinit
    | panic => exact Or.inl hinit
  · rw [if_neg hnil]
    exact Or.inr (hadd w rfl rfl)

end World

namespace Service

/-! ## What a step does to the tasks -/

/-- **One step of a call** leaves the tasks alone, stops the one it has looked up, takes out the key
of that one, or registers one for its session. -/
theorem advance_cases {w w' : World} {c : ReportCall} {devices : Option (List Bool)} {pc : CallPc}
    (h : advance w c devices = some (pc, w')) :
    (w'.heap = w.heap ∧ w'.manager.tasks = w.manager.tasks ∧
      ∀ pointer, holds { c with pc } = some pointer →
        holds c = some pointer ∨ w.manager.tasks.lookup c.session.sessionKey = some pointer) ∨
    (∃ pointer, holds c = some pointer ∧ pc = .remove pointer ∧ w' = w.stopTask pointer) ∨
    (∃ pointer task, holds c = some pointer ∧ holds { c with pc } = none ∧
      w.heap[pointer]? = some task ∧ w'.heap = w.heap ∧
      w'.manager.tasks = w.manager.tasks.erase task.session.sessionKey) ∨
    ∃ engine, holds { c with pc } = none ∧
      w'.heap = w.heap ++ [⟨c.session, engine, true, true⟩] ∧
      w'.manager.tasks = w.manager.tasks.insert c.session.sessionKey w.heap.length := by
  rcases c with ⟨kind, session, pc₀⟩
  cases pc₀ with
  | lookup =>
    simp only [advance] at h
    cases hlookup : w.manager.tasks.lookup session.sessionKey with
    | none =>
      rw [hlookup] at h
      cases kind with
      | startReport =>
        obtain ⟨rfl, rfl⟩ := Prod.mk.inj (Option.some.inj h)
        exact Or.inl ⟨rfl, rfl, fun _ hcon => absurd hcon.symm (Option.some_ne_none _)⟩
      | endReport =>
        obtain ⟨rfl, rfl⟩ := Prod.mk.inj (Option.some.inj h)
        exact Or.inl ⟨rfl, rfl, fun _ hcon => absurd hcon.symm (Option.some_ne_none _)⟩
    | some pointer =>
      rw [hlookup] at h
      cases kind with
      | startReport =>
        obtain ⟨rfl, rfl⟩ := Prod.mk.inj (Option.some.inj h)
        exact Or.inl ⟨rfl, rfl, fun _ hholds => Or.inr hholds⟩
      | endReport =>
        obtain ⟨rfl, rfl⟩ := Prod.mk.inj (Option.some.inj h)
        exact Or.inl ⟨rfl, rfl, fun _ hholds => Or.inr hholds⟩
  | check pointer =>
    simp only [advance] at h
    cases htask : w.heap[pointer]? with
    | none =>
      rw [htask] at h
      cases h
    | some task =>
      rw [htask] at h
      obtain ⟨rfl, rfl⟩ := Prod.mk.inj (Option.some.inj h)
      refine Or.inl ⟨rfl, rfl, fun pointer' hholds => Or.inl ?_⟩
      cases hflag : task.isRunnable with
      | true =>
        rw [hflag] at hholds
        exact hholds
      | false =>
        rw [hflag] at hholds
        cases hholds
  | stop pointer =>
    obtain ⟨rfl, rfl⟩ := Prod.mk.inj (Option.some.inj h)
    exact Or.inr (Or.inl ⟨pointer, rfl, rfl, rfl⟩)
  | remove pointer =>
    simp only [advance] at h
    cases htask : w.heap[pointer]? with
    | none =>
      rw [htask] at h
      cases h
    | some task =>
      rw [htask] at h
      obtain ⟨rfl, rfl⟩ := Prod.mk.inj (Option.some.inj h)
      refine Or.inr (Or.inr (Or.inl ⟨pointer, task, rfl, ?_, htask, w.removeTask_tasks _⟩))
      cases (w.removeTask task.session).1 <;> cases kind <;> rfl
  | register =>
    obtain ⟨rfl, rfl⟩ := Prod.mk.inj (Option.some.inj h)
    have hholds : holds ⟨kind, session, after .done (w.register session devices).1⟩ = none := by
      cases (w.register session devices).1 <;> rfl
    rcases w.register_tasks session devices with ⟨hheap, htasks⟩ | ⟨engine, hheap, htasks⟩
    · refine Or.inl ⟨hheap, htasks, fun _ hcon => ?_⟩
      exact absurd (hcon.symm.trans hholds) (Option.some_ne_none _)
    · exact Or.inr (Or.inr (Or.inr ⟨engine, hholds, hheap, htasks⟩))
  | done => cases h
  | failed => cases h
  | panicked => cases h

/-! ## The tasks of a set of sessions -/

/-- The calls that are made are for sessions of the set. -/
def CallsFor (sessions : Set Session) : ServiceAction → Prop
  | .call _ session => session ∈ sessions
  | .run _ _ => True

/-- A step of a call for one session leaves the tasks of another as they are, and where they are in
the map. -/
def Isolated (s : Service) : ServiceAction → Prop
  | .call _ _ => True
  | .run number devices => ∀ c s', s.calls[number]? = some c →
      s.step (.run number devices) = some s' →
      ∀ pointer task, s.world.heap[pointer]? = some task → ¬ task.session.Same c.session →
        s'.world.heap[pointer]? = some task ∧
        ∀ key, s.world.manager.tasks.lookup key = some pointer →
          s'.world.manager.tasks.lookup key = some pointer

/-- The tasks and calls are for sessions of the set, a task is under its own key, and a call has
looked up a task of its session's key. -/
structure Owned (sessions : Set Session) (s : Service) : Prop where
  tasks : ∀ task ∈ s.world.heap, task.session ∈ sessions
  calls : ∀ c ∈ s.calls, c.session ∈ sessions
  registered : ∀ key pointer, s.world.manager.tasks.lookup key = some pointer →
    ∃ task, s.world.heap[pointer]? = some task ∧ task.session.sessionKey = key
  held : ∀ c ∈ s.calls, ∀ pointer, holds c = some pointer →
    ∃ task, s.world.heap[pointer]? = some task ∧
      task.session.sessionKey = c.session.sessionKey

/-- No two sessions of the set have one key. -/
def KeysApart (sessions : Set Session) : Prop :=
  ∀ a ∈ sessions, ∀ b ∈ sessions, a.sessionKey = b.sessionKey → a.Same b

variable {sessions : Set Session}

theorem opened_owned : opened.Owned sessions where
  tasks _ h := nomatch h
  calls _ h := nomatch h
  registered _ _ h := nomatch h
  held _ h := nomatch h

/-- A step of a call is a step on the world and a new place for the call. -/
theorem run_cases {s s' : Service} {number : Nat} {devices : Option (List Bool)}
    (h : s.step (.run number devices) = some s') :
    ∃ c pc world, s.calls[number]? = some c ∧ advance s.world c devices = some (pc, world) ∧
      s' = ⟨world, s.calls.set number { c with pc }⟩ := by
  simp only [step] at h
  cases hc : s.calls[number]? with
  | none =>
    rw [hc] at h
    cases h
  | some c =>
    rw [hc] at h
    obtain ⟨⟨pc, world⟩, hadvance, rfl⟩ := Option.map_eq_some_iff.mp h
    exact ⟨c, pc, world, rfl, hadvance, rfl⟩

/-- A world in which no task has gone, and every one in the map is under its own key. -/
theorem owned_of_world {s : Service} (h : s.Owned sessions) {number : Nat} {c : ReportCall}
    (hc : s.calls[number]? = some c) {pc : CallPc} {world : World}
    (htasks : ∀ task ∈ world.heap, task.session ∈ sessions)
    (hregistered : ∀ key pointer, world.manager.tasks.lookup key = some pointer →
      ∃ task, world.heap[pointer]? = some task ∧ task.session.sessionKey = key)
    (hkept : ∀ (pointer : Nat) (task : TaskCell), s.world.heap[pointer]? = some task →
      ∃ task' : TaskCell, world.heap[pointer]? = some task' ∧ task'.session = task.session)
    (hheld : ∀ pointer, holds { c with pc } = some pointer → ∃ task,
      s.world.heap[pointer]? = some task ∧ task.session.sessionKey = c.session.sessionKey) :
    Owned sessions ⟨world, s.calls.set number { c with pc }⟩ where
  tasks := htasks
  calls := forall_mem_set h.calls (h.calls c (List.mem_of_getElem? hc))
  registered := hregistered
  held := by
    have hmoved {key : String} {pointer : Nat} (hsome : ∃ task,
        s.world.heap[pointer]? = some task ∧ task.session.sessionKey = key) :
        ∃ task, world.heap[pointer]? = some task ∧ task.session.sessionKey = key := by
      obtain ⟨task, htask, hkey⟩ := hsome
      obtain ⟨task', htask', hsession⟩ := hkept pointer task htask
      exact ⟨task', htask', by rw [hsession, hkey]⟩
    refine forall_mem_set ?_ ?_
    · exact fun d hd pointer hholds => hmoved (h.held d hd pointer hholds)
    · exact fun pointer hholds => hmoved (hheld pointer hholds)

/-- **Every step** keeps the tasks and calls as they should be. -/
theorem owned_step {s s' : Service} {a : ServiceAction} (h : s.Owned sessions)
    (ha : CallsFor sessions a) (hstep : s.step a = some s') : s'.Owned sessions := by
  cases a with
  | call kind session =>
    obtain rfl := Option.some.inj hstep
    refine ⟨h.tasks, ?_, h.registered, ?_⟩
    · intro c hc
      rcases List.mem_append.mp hc with hc | hc
      · exact h.calls c hc
      · obtain rfl := List.mem_singleton.mp hc
        exact ha
    · intro c hc
      rcases List.mem_append.mp hc with hc | hc
      · exact h.held c hc
      · obtain rfl := List.mem_singleton.mp hc
        exact fun _ hcon => nomatch hcon
  | run number devices =>
    obtain ⟨c, pc, world, hc, hadvance, rfl⟩ := run_cases hstep
    have hmem : c ∈ s.calls := List.mem_of_getElem? hc
    rcases advance_cases hadvance with ⟨hheap, htasks, hholds⟩ | ⟨pointer, hholds, rfl, rfl⟩ |
      ⟨pointer, task, hholds, hnone, htask, hheap, htasks⟩ | ⟨engine, hnone, hheap, htasks⟩
    · refine owned_of_world h hc ?_ ?_ ?_ ?_
      · rw [hheap]
        exact h.tasks
      · rw [hheap, htasks]
        exact h.registered
      · rw [hheap]
        exact fun pointer task htask => ⟨task, htask, rfl⟩
      · intro pointer hpointer
        rcases hholds pointer hpointer with hold | hlookup
        · exact h.held c hmem pointer hold
        · exact h.registered _ _ hlookup
    · have hkept : ∀ (other : Nat) (task : TaskCell), s.world.heap[other]? = some task →
          ∃ task' : TaskCell, (s.world.stopTask pointer).heap[other]? = some task' ∧
            task'.session = task.session := by
        intro other task htask
        obtain ⟨task', htask', hsession, -⟩ := World.heap_stopTask_mpr pointer htask
        exact ⟨task', htask', hsession⟩
      refine owned_of_world h hc ?_ ?_ hkept ?_
      · intro task htask
        obtain ⟨i, hi⟩ := List.getElem?_of_mem htask
        obtain ⟨task₀, htask₀, hsession, -⟩ := World.heap_stopTask hi
        rw [hsession]
        exact h.tasks task₀ (List.mem_of_getElem? htask₀)
      · intro key other hlookup
        obtain ⟨task, htask, hkey⟩ := h.registered key other hlookup
        obtain ⟨task', htask', hsession⟩ := hkept other task htask
        exact ⟨task', htask', by rw [hsession, hkey]⟩
      · intro other hother
        obtain rfl := Option.some.inj hother
        exact h.held c hmem pointer hholds
    · refine owned_of_world h hc ?_ ?_ ?_ ?_
      · rw [hheap]
        exact h.tasks
      · intro key other hlookup
        rw [htasks] at hlookup
        rw [hheap]
        by_cases hkey : key = task.session.sessionKey
        · rw [hkey, AList.lookup_erase] at hlookup
          nomatch hlookup
        · rw [AList.lookup_erase_ne hkey] at hlookup
          exact h.registered key other hlookup
      · rw [hheap]
        exact fun pointer task htask => ⟨task, htask, rfl⟩
      · exact fun _ hcon => nomatch hnone.symm.trans hcon
    · have hkept : ∀ (pointer : Nat) (task : TaskCell), s.world.heap[pointer]? = some task →
          world.heap[pointer]? = some task := by
        intro pointer task htask
        rw [hheap, List.getElem?_append_left (List.getElem?_eq_some_iff.mp htask).1]
        exact htask
      refine owned_of_world h hc ?_ ?_ (fun pointer task htask =>
        ⟨task, hkept pointer task htask, rfl⟩) (fun _ hcon => nomatch hnone.symm.trans hcon)
      · intro task htask
        rw [hheap] at htask
        rcases List.mem_append.mp htask with htask | htask
        · exact h.tasks task htask
        · obtain rfl := List.mem_singleton.mp htask
          exact h.calls c hmem
      · intro key other hlookup
        rw [htasks] at hlookup
        by_cases hkey : key = c.session.sessionKey
        · rw [hkey, AList.lookup_insert] at hlookup
          obtain rfl := Option.some.inj hlookup
          rw [hheap]
          exact ⟨_, List.getElem?_concat_length, hkey.symm⟩
        · rw [AList.lookup_insert_ne hkey] at hlookup
          obtain ⟨task, htask, htaskKey⟩ := h.registered key other hlookup
          exact ⟨task, hkept other task htask, htaskKey⟩

/-- **With keys apart**, a step is for one session only. -/
theorem isolated_step {s : Service} (h : s.Owned sessions) (hapart : KeysApart sessions)
    (a : ServiceAction) : s.Isolated a := by
  cases a with
  | call kind session => trivial
  | run number devices =>
    intro c s' hc hstep pointer task htask hother
    obtain ⟨c', pc, world, hc', hadvance, rfl⟩ := run_cases hstep
    obtain rfl := Option.some.inj (hc.symm.trans hc')
    have hmem : c ∈ s.calls := List.mem_of_getElem? hc
    -- a task under the call's key is the session's own
    have hkey : task.session.sessionKey ≠ c.session.sessionKey := fun heq =>
      hother (hapart _ (h.tasks task (List.mem_of_getElem? htask)) _ (h.calls c hmem) heq)
    have hunder {key : String} (hlookup : s.world.manager.tasks.lookup key = some pointer) :
        key ≠ c.session.sessionKey := by
      obtain ⟨task', htask', rfl⟩ := h.registered key pointer hlookup
      obtain rfl := Option.some.inj (htask.symm.trans htask')
      exact hkey
    rcases advance_cases hadvance with ⟨hheap, htasks, -⟩ | ⟨held, hholds, -, rfl⟩ |
      ⟨held, task', hholds, -, htask', hheap, htasks⟩ | ⟨engine, -, hheap, htasks⟩
    · show world.heap[pointer]? = some task ∧ ∀ key, _ → world.manager.tasks.lookup key = _
      rw [hheap, htasks]
      exact ⟨htask, fun _ hlookup => hlookup⟩
    · refine ⟨?_, fun _ hlookup => hlookup⟩
      obtain ⟨task', htask', hsame⟩ := h.held c hmem held hholds
      have hne : held ≠ pointer := by
        rintro rfl
        obtain rfl := Option.some.inj (htask.symm.trans htask')
        exact hkey hsame
      show (s.world.stopTask held).heap[pointer]? = some task
      exact (List.getElem?_modify_ne _ _ hne).trans htask
    · show world.heap[pointer]? = some task ∧ ∀ key, _ → world.manager.tasks.lookup key = _
      rw [hheap, htasks]
      refine ⟨htask, fun key hlookup => ?_⟩
      obtain ⟨task₀, htask₀, hsame⟩ := h.held c hmem held hholds
      obtain rfl := Option.some.inj (htask'.symm.trans htask₀)
      rw [hsame, AList.lookup_erase_ne (hunder hlookup)]
      exact hlookup
    · show world.heap[pointer]? = some task ∧ ∀ key, _ → world.manager.tasks.lookup key = _
      rw [hheap, htasks]
      refine ⟨?_, fun key hlookup => ?_⟩
      · rw [List.getElem?_append_left (List.getElem?_eq_some_iff.mp htask).1]
        exact htask
      · rw [AList.lookup_insert_ne (hunder hlookup)]
        exact hlookup

/-! ## Which sessions are kept apart -/

theorem keysApart_iff :
    KeysApart sessions ↔ ∀ a ∈ sessions, ∀ b ∈ sessions, ¬ a.Clash b := by
  constructor
  · intro h a ha b hb hclash
    exact hclash.not_same (h a ha b hb (Session.sessionKey_eq_iff.mpr (Or.inr hclash)))
  · intro h a ha b hb hkey
    exact (Session.sessionKey_eq_iff.mp hkey).resolve_right (h a ha b hb)

/-- **A set of sessions is kept apart**, by their keys and in every run of calls for them, exactly
when no two of them clash. -/
theorem sessions_apart_iff (sessions : Set Session) :
    (KeysApart sessions ∧ ∀ actions : List ServiceAction, (∀ a ∈ actions, CallsFor sessions a) →
      Along step Isolated opened actions) ↔
    ∀ a ∈ sessions, ∀ b ∈ sessions, ¬ a.Clash b := by
  rw [← keysApart_iff]
  refine ⟨fun h => h.1, fun hapart => ⟨hapart, fun actions hfor => ?_⟩⟩
  have howned : Always step (Owned sessions) opened actions :=
    always_of_along (fun s a s' => owned_step) opened_owned (along_of_forall hfor opened)
  have hisolated (s : Service) (a : ServiceAction) (hs : s.Owned sessions) :
      s.Isolated a ↔ True := iff_true_intro (isolated_step hs hapart a)
  exact (along_congr hisolated howned).mpr (along_of_forall (fun _ _ => trivial) opened)

/-! ## Two sessions of one key -/

def dashed : Session := ⟨0, 1, "a-", "", []⟩

def negative : Session := ⟨0, -1, "a", "", []⟩

/-- A report for one is running when a report for the other ends. -/
def endedOther : List ServiceAction :=
  [.call .startReport dashed, .run 0 device, .run 0 device, .call .endReport negative,
    .run 1 device, .run 1 device, .run 1 device, .run 1 device]

/-- The first session's task is stopped and taken out. -/
theorem endedOther_stops : dashed.sessionKey = negative.sessionKey ∧ ¬ dashed.Same negative ∧
    ∃ s, exec step opened endedOther = some s ∧
      s.calls.map ReportCall.session = [dashed, negative] ∧
      s.world.heap = [⟨dashed, some 0, false, false⟩] ∧ s.world.manager.tasks.keys = [] := by
  refine ⟨by decide +kernel, ?_, ?_⟩
  · rintro ⟨hinstance, -⟩
    exact absurd hinstance (by decide)
  · exact ⟨_, rfl, rfl, rfl, rfl⟩

end Service

end Accumulation.Report
