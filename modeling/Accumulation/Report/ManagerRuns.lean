/-
# Accumulation.Report.ManagerRuns — overlapping calls of StartReport and EndReport.

A `Service` is the manager's world and the calls made on it so far.  Every lookup in the map of
tasks, every check of a flag, the first half of every `Stop` and every section under the mutex is
one step of one call, and the steps of different calls interleave in any order.

Only the sections are protected, so a call may act on a lookup that no longer holds: `RemoveTask`
takes out whatever is now under the key, and a registration covers it.  `Spared` is what has to hold
of the task there for that to be harmless.  If every section finds it so, every running task stays
registered and usable (`usable_of_orderly`); `startedTwice_not_usable` and `endedTwice_panics` are
two calls for one session that overlap otherwise.
-/
import Accumulation.Lib.Run
import Accumulation.Report.Manager

namespace Accumulation.Report

open Accumulation.Model Accumulation.Lib.Run

inductive Kind
  | startReport
  | endReport
  deriving DecidableEq

/-- The next step of a call; the pointer is to the task it has looked up. -/
inductive CallPc
  | lookup
  /-- `EndReport` checks `IsRunnable` -/
  | check (pointer : Nat)
  /-- the cron and the flag of the task -/
  | stop (pointer : Nat)
  /-- `RemoveTask` with the session of the task -/
  | remove (pointer : Nat)
  /-- the section of `StartReport` -/
  | register
  | done
  | failed
  | panicked
  deriving DecidableEq

structure ReportCall where
  kind : Kind
  session : Session
  pc : CallPc
  deriving DecidableEq

structure Service where
  world : World
  calls : List ReportCall

/-- A new call, or the next step of the call with a number; `devices` is what an initialization in
that step would find. -/
inductive ServiceAction
  | call (kind : Kind) (session : Session)
  | run (number : Nat) (devices : Option (List Bool))

namespace Service

def opened : Service := ⟨World.newManager, []⟩

/-- Where a call goes on when it has removed its task, or found none. -/
def afterStop : Kind → CallPc
  | .startReport => .register
  | .endReport => .done

/-- Where a call goes on after a section that ended so. -/
def after (next : CallPc) : Outcome → CallPc
  | .ok => next
  | .err => .failed
  | .panic => .panicked

/-- One step of a call. -/
def advance (w : World) (c : ReportCall) (devices : Option (List Bool)) :
    Option (CallPc × World) :=
  match c.pc with
  | .lookup =>
    match w.manager.tasks.lookup c.session.sessionKey, c.kind with
    | some pointer, .startReport => some (.stop pointer, w)
    | some pointer, .endReport => some (.check pointer, w)
    | none, kind => some (afterStop kind, w)
  | .check pointer =>
    match w.heap[pointer]? with
    | some task => some (if task.isRunnable then .stop pointer else .done, w)
    | none => none
  | .stop pointer => some (.remove pointer, w.stopTask pointer)
  | .remove pointer =>
    match w.heap[pointer]? with
    | some task =>
      match w.removeTask task.session with
      | (outcome, w) => some (after (afterStop c.kind) outcome, w)
    | none => none
  | .register =>
    match w.register c.session devices with
    | (outcome, w) => some (after .done outcome, w)
  | .done | .failed | .panicked => none

def step (s : Service) : ServiceAction → Option Service
  | .call kind session => some { s with calls := s.calls ++ [⟨kind, session, .lookup⟩] }
  | .run number devices =>
    match s.calls[number]? with
    | none => none
    | some c => (advance s.world c devices).map fun (pc, world) =>
        ⟨world, s.calls.set number { c with pc }⟩

/-- No call is in progress. -/
def Quiet (s : Service) : Prop :=
  ∀ c ∈ s.calls, c.pc = .done ∨ c.pc = .failed ∨ c.pc = .panicked

/-- **Registered and usable.**  No `RemoveTask` has panicked; and when no call is in progress, the
tasks that run are those in the map, each under its own key, and with a task in the map there are an
engine and collectors, they run, and every running task has that engine. -/
def Usable (s : Service) : Prop :=
  (∀ c ∈ s.calls, c.pc ≠ .panicked) ∧
  (s.Quiet →
    (∀ pointer task, s.world.heap[pointer]? = some task → task.cronRunning = true →
      s.world.manager.tasks.lookup task.session.sessionKey = some pointer) ∧
    (∀ key pointer, s.world.manager.tasks.lookup key = some pointer →
      ∃ task, s.world.heap[pointer]? = some task ∧ task.session.sessionKey = key ∧
        task.cronRunning = true ∧ task.isRunnable = true) ∧
    (s.world.manager.tasks.keys ≠ [] → ∃ engine, s.world.manager.engine = some engine ∧
      s.world.engines[engine]? = some (some true) ∧ s.world.manager.collectors ≠ [] ∧
      (∀ pointer ∈ s.world.manager.collectors, s.world.collectors[pointer]? = some true) ∧
      ∀ task ∈ s.world.heap, task.cronRunning = true → task.engine = some engine))

/-- A call that has looked the task up and still has to stop it. -/
def ToStop (pointer : Nat) (c : ReportCall) : Prop := c.pc = .check pointer ∨ c.pc = .stop pointer

/-- The task under a key, if there is one, does not run, or some call still has to stop it. -/
def Spared (s : Service) (key : String) : Prop :=
  ∀ pointer task, s.world.manager.tasks.lookup key = some pointer →
    s.world.heap[pointer]? = some task → task.cronRunning = true →
    ∃ c ∈ s.calls, ToStop pointer c

/-- A `RemoveTask` finds some task registered, and the one under its key spared.  A registration
finds the one under its key spared, and at least one device if it initialises. -/
def Orderly (s : Service) : ServiceAction → Prop
  | .call _ _ => True
  | .run number devices => ∀ c, s.calls[number]? = some c →
    match c.pc with
    | .remove _ => s.world.manager.tasks.keys ≠ [] ∧ s.Spared c.session.sessionKey
    | .register => s.Spared c.session.sessionKey ∧
        (s.world.manager.collectors = [] → devices ≠ some [])
    | _ => True

/-- Initialization succeeds. -/
def Succeeds : ServiceAction → Prop
  | .call _ _ => True
  | .run _ devices => ∃ n, devices = some (List.replicate n true)

/-! ## The invariant -/

/-- A call that will take out what is under a key. -/
def ToRemove (key : String) (c : ReportCall) : Prop :=
  ∃ pointer, c.pc = .remove pointer ∧ c.session.sessionKey = key

/-- The task that a call has looked up. -/
def holds (c : ReportCall) : Option Nat :=
  match c.pc with
  | .check pointer | .stop pointer | .remove pointer => some pointer
  | _ => none

/-- What holds between the steps. -/
structure Sound (s : Service) : Prop where
  ready : s.world.Ready
  /-- a running task is in the map or about to be stopped -/
  running : ∀ pointer task, s.world.heap[pointer]? = some task → task.cronRunning = true →
    s.world.manager.tasks.lookup task.session.sessionKey = some pointer ∨
      ∃ c ∈ s.calls, ToStop pointer c
  /-- a task in the map runs or is about to be taken out -/
  registered : ∀ key pointer, s.world.manager.tasks.lookup key = some pointer →
    ∃ task, s.world.heap[pointer]? = some task ∧ task.session.sessionKey = key ∧
      task.engine = s.world.manager.engine ∧
      (task.cronRunning = true ∨ ∃ c ∈ s.calls, ToRemove key c)
  flags : ∀ task ∈ s.world.heap, task.isRunnable = task.cronRunning
  held : ∀ c ∈ s.calls, ∀ pointer, holds c = some pointer →
    ∃ task, s.world.heap[pointer]? = some task ∧
      task.session.sessionKey = c.session.sessionKey
  calm : ∀ c ∈ s.calls, c.pc ≠ .panicked

theorem opened_sound : opened.Sound where
  ready := World.newManager_ready
  running pointer task h := by simp [opened, World.newManager] at h
  registered key pointer h := by simp [opened, World.newManager] at h
  flags task h := nomatch h
  held c h := nomatch h
  calm c h := nomatch h

/-- **A sound service at rest is usable.** -/
theorem usable_of_sound {s : Service} (h : s.Sound) : s.Usable := by
  refine ⟨h.calm, ?_⟩
  intro hquiet
  have hnoStop : ∀ pointer, ¬ ∃ c ∈ s.calls, ToStop pointer c := by
    rintro pointer ⟨c, hc, hpc | hpc⟩
    · rcases hquiet c hc with h | h | h <;> rw [h] at hpc <;> nomatch hpc
    · rcases hquiet c hc with h | h | h <;> rw [h] at hpc <;> nomatch hpc
  have hnoRemove : ∀ key, ¬ ∃ c ∈ s.calls, ToRemove key c := by
    rintro key ⟨c, hc, pointer, hpc, -⟩
    rcases hquiet c hc with h | h | h <;> rw [h] at hpc <;> nomatch hpc
  have hrunning : ∀ pointer task, s.world.heap[pointer]? = some task → task.cronRunning = true →
      s.world.manager.tasks.lookup task.session.sessionKey = some pointer := by
    intro pointer task htask hcron
    exact (h.running pointer task htask hcron).resolve_right (hnoStop pointer)
  refine ⟨hrunning, ?_, ?_⟩
  · intro key pointer hlookup
    obtain ⟨task, htask, hkey, -, hcron⟩ := h.registered key pointer hlookup
    have hcron := hcron.resolve_right (hnoRemove key)
    exact ⟨task, htask, hkey, hcron,
      (h.flags task (List.mem_of_getElem? htask)).trans hcron⟩
  · intro hbusy
    obtain ⟨engine, hengine, hcron, hne, hcollectors⟩ := h.ready.busy hbusy
    refine ⟨engine, hengine, hcron, hne, hcollectors, ?_⟩
    intro task hmem htaskRuns
    obtain ⟨pointer, hpointer, rfl⟩ := List.getElem_of_mem hmem
    have htask : s.world.heap[pointer]? = some s.world.heap[pointer] :=
      List.getElem?_eq_getElem hpointer
    obtain ⟨task', htask', -, hsame, -⟩ := h.registered _ _ (hrunning pointer _ htask htaskRuns)
    obtain rfl := Option.some.inj (htask.symm.trans htask')
    rw [hsame, hengine]

/-! ## One step -/

/-- What one call has still to do survives the step of another, or of a call that keeps it. -/
theorem exists_mem_set {β : Type*} {P : β → Prop} {l : List β} {n : Nat} {a b : β}
    (h : ∃ x ∈ l, P x) (ha : l[n]? = some a) (hab : P a → P b) : ∃ x ∈ l.set n b, P x := by
  obtain ⟨x, hx, hP⟩ := h
  obtain ⟨m, hm, rfl⟩ := List.getElem_of_mem hx
  obtain ⟨hn, rfl⟩ := List.getElem?_eq_some_iff.mp ha
  by_cases hmn : n = m
  · subst hmn
    exact ⟨b, List.mem_set hn b, hab hP⟩
  · refine ⟨l[m], ?_, hP⟩
    rw [← List.getElem_set_ne hmn (a := b) (by rw [List.length_set]; exact hm)]
    exact List.getElem_mem _

theorem forall_mem_set {β : Type*} {P : β → Prop} {l : List β} {n : Nat} {b : β}
    (h : ∀ x ∈ l, P x) (hb : P b) : ∀ x ∈ l.set n b, P x := by
  intro x hx
  rcases List.mem_or_eq_of_mem_set hx with hx | rfl
  · exact h x hx
  · exact hb

section Steps

variable {s : Service} {n : Nat} {c : ReportCall}

theorem not_toStop {pointer : Nat} (hcheck : c.pc ≠ .check pointer) (hstop : c.pc ≠ .stop pointer) :
    ¬ ToStop pointer c :=
  fun hcon => hcon.elim hcheck hstop

theorem not_toRemove {key : String} (h : ∀ pointer, c.pc ≠ .remove pointer) : ¬ ToRemove key c :=
  fun ⟨pointer, hcon, _⟩ => h pointer hcon

/-- A step of a call that leaves the world alone. -/
theorem move_sound (h : s.Sound) (hc : s.calls[n]? = some c) {pc : CallPc}
    (hstop : ∀ pointer task, s.world.heap[pointer]? = some task → task.cronRunning = true →
      ToStop pointer c → ToStop pointer { c with pc })
    (hremove : ∀ key, ¬ ToRemove key c)
    (hheld : ∀ pointer, holds { c with pc } = some pointer →
      ∃ task, s.world.heap[pointer]? = some task ∧
        task.session.sessionKey = c.session.sessionKey)
    (hcalm : pc ≠ .panicked) : Sound ⟨s.world, s.calls.set n { c with pc }⟩ where
  ready := h.ready
  running := by
    intro pointer task htask hcron
    refine (h.running pointer task htask hcron).imp_right fun hsome => ?_
    exact exists_mem_set hsome hc (hstop pointer task htask hcron)
  registered := by
    intro key pointer hlookup
    obtain ⟨task, htask, hkey, hengine, hcron⟩ := h.registered key pointer hlookup
    refine ⟨task, htask, hkey, hengine, hcron.imp_right fun hsome => ?_⟩
    exact exists_mem_set hsome hc fun hcon => absurd hcon (hremove key)
  flags := h.flags
  held := forall_mem_set h.held hheld
  calm := forall_mem_set h.calm hcalm

theorem lookup_sound (h : s.Sound) (hc : s.calls[n]? = some c) (hpc : c.pc = .lookup)
    {devices : Option (List Bool)} {pc : CallPc} {world : World}
    (hstep : advance s.world c devices = some (pc, world)) :
    Sound ⟨world, s.calls.set n { c with pc }⟩ := by
  have hnoStop (pointer : Nat) : ¬ ToStop pointer c := not_toStop (by simp [hpc]) (by simp [hpc])
  have hnoRemove (key : String) : ¬ ToRemove key c := not_toRemove (by simp [hpc])
  have hfound {pointer : Nat} {pc : CallPc}
      (hlookup : s.world.manager.tasks.lookup c.session.sessionKey = some pointer)
      (hholds : holds { c with pc } = some pointer) (hcalm : pc ≠ .panicked) :
      Sound ⟨s.world, s.calls.set n { c with pc }⟩ := by
    obtain ⟨task, htask, hkey, -⟩ := h.registered _ _ hlookup
    refine move_sound h hc (fun _ _ _ _ hcon => absurd hcon (hnoStop _)) hnoRemove ?_ hcalm
    intro pointer' hpointer'
    obtain rfl := Option.some.inj (hholds.symm.trans hpointer')
    exact ⟨task, htask, hkey⟩
  simp only [advance, hpc] at hstep
  split at hstep
  · rename_i pointer hlookup hkind
    obtain ⟨rfl, rfl⟩ := Prod.mk.inj (Option.some.inj hstep)
    exact hfound hlookup rfl (by simp)
  · rename_i pointer hlookup hkind
    obtain ⟨rfl, rfl⟩ := Prod.mk.inj (Option.some.inj hstep)
    exact hfound hlookup rfl (by simp)
  · obtain ⟨rfl, rfl⟩ := Prod.mk.inj (Option.some.inj hstep)
    refine move_sound h hc (fun _ _ _ _ hcon => absurd hcon (hnoStop _)) hnoRemove ?_ ?_
    · intro pointer' hpointer'
      cases hkind : c.kind <;> simp [holds, afterStop, hkind] at hpointer'
    · cases c.kind <;> simp [afterStop]

theorem check_sound (h : s.Sound) (hc : s.calls[n]? = some c) {pointer : Nat}
    (hpc : c.pc = .check pointer) {devices : Option (List Bool)} {pc : CallPc} {world : World}
    (hstep : advance s.world c devices = some (pc, world)) :
    Sound ⟨world, s.calls.set n { c with pc }⟩ := by
  have hnoRemove (key : String) : ¬ ToRemove key c := not_toRemove (by simp [hpc])
  obtain ⟨task, htask, hkey⟩ := h.held c (List.mem_of_getElem? hc) pointer (by rw [holds, hpc])
  simp only [advance, hpc, htask] at hstep
  obtain ⟨rfl, rfl⟩ := Prod.mk.inj (Option.some.inj hstep)
  by_cases hflag : task.isRunnable = true
  · rw [if_pos hflag]
    refine move_sound h hc ?_ hnoRemove ?_ (by simp)
    · rintro pointer' task' - - (hcon | hcon)
      · rw [hpc] at hcon
        obtain rfl := CallPc.check.inj hcon
        exact Or.inr rfl
      · rw [hpc] at hcon
        nomatch hcon
    · intro pointer' hpointer'
      obtain rfl := Option.some.inj hpointer'
      exact ⟨task, htask, hkey⟩
  · -- the task has been stopped, so there is nothing left to stop
    rw [if_neg hflag]
    refine move_sound h hc ?_ hnoRemove ?_ (by simp)
    · rintro pointer' task' htask' hcron' (hcon | hcon)
      · rw [hpc] at hcon
        obtain rfl := CallPc.check.inj hcon
        obtain rfl := Option.some.inj (htask.symm.trans htask')
        rw [h.flags task (List.mem_of_getElem? htask)] at hflag
        exact absurd hcron' hflag
      · rw [hpc] at hcon
        nomatch hcon
    · intro pointer' hpointer'
      nomatch hpointer'

theorem stop_sound (h : s.Sound) (hc : s.calls[n]? = some c) {pointer : Nat}
    (hpc : c.pc = .stop pointer) {devices : Option (List Bool)} {pc : CallPc} {world : World}
    (hstep : advance s.world c devices = some (pc, world)) :
    Sound ⟨world, s.calls.set n { c with pc }⟩ := by
  simp only [advance, hpc] at hstep
  obtain ⟨rfl, rfl⟩ := Prod.mk.inj (Option.some.inj hstep)
  obtain ⟨held, hheld, hkey⟩ := h.held c (List.mem_of_getElem? hc) pointer (by rw [holds, hpc])
  have hnoRemove (key : String) : ¬ ToRemove key c := not_toRemove (by simp [hpc])
  refine ⟨World.stopTask_ready h.ready pointer, ?_, ?_, ?_, ?_, ?_⟩
  · intro other task' htask' hcron'
    obtain ⟨task, htask, -, -, hsame, hstopped⟩ := World.heap_stopTask htask'
    have hne : other ≠ pointer := by
      intro heq
      rw [(hstopped heq).1] at hcron'
      nomatch hcron'
    obtain rfl := hsame hne
    refine (h.running other _ htask hcron').imp_right fun hsome => exists_mem_set hsome hc ?_
    rintro (hcon | hcon) <;> rw [hpc] at hcon
    · nomatch hcon
    · exact absurd (CallPc.stop.inj hcon).symm hne
  · intro key other hlookup
    obtain ⟨task, htask, htaskKey, hengine, hcron⟩ := h.registered key other hlookup
    obtain ⟨task', htask', hsession, hengine', hsame⟩ :=
      World.heap_stopTask_mpr pointer htask
    refine ⟨task', htask', by rw [hsession]; exact htaskKey, hengine'.trans hengine, ?_⟩
    by_cases heq : other = pointer
    · -- this call will take it out
      subst heq
      obtain rfl := Option.some.inj (htask.symm.trans hheld)
      obtain ⟨hn, -⟩ := List.getElem?_eq_some_iff.mp hc
      exact Or.inr ⟨_, List.mem_set hn _, other, rfl, hkey.symm.trans htaskKey⟩
    · rw [hsame heq]
      exact hcron.imp_right fun hsome =>
        exists_mem_set hsome hc fun hcon => absurd hcon (hnoRemove key)
  · intro task' hmem
    obtain ⟨other, hother, rfl⟩ := List.getElem_of_mem hmem
    obtain ⟨task, htask, -, -, hsame, hstopped⟩ :=
      World.heap_stopTask (List.getElem?_eq_getElem hother)
    by_cases heq : other = pointer
    · rw [(hstopped heq).1, (hstopped heq).2]
    · rw [hsame heq]
      exact h.flags task (List.mem_of_getElem? htask)
  · have hold : ∀ c' : ReportCall, (∀ q, holds c' = some q → ∃ task, s.world.heap[q]? = some task ∧
        task.session.sessionKey = c'.session.sessionKey) →
        ∀ q, holds c' = some q → ∃ task, (s.world.stopTask pointer).heap[q]? = some task ∧
          task.session.sessionKey = c'.session.sessionKey := by
      intro c' hc' q hq
      obtain ⟨task, htask, hkey⟩ := hc' q hq
      obtain ⟨task', htask', hsession, -, -⟩ := World.heap_stopTask_mpr pointer htask
      exact ⟨task', htask', by rw [hsession]; exact hkey⟩
    refine forall_mem_set (fun c' hc' => hold c' (h.held c' hc')) (hold _ ?_)
    intro q hq
    obtain rfl := Option.some.inj hq
    exact ⟨held, hheld, hkey⟩
  · exact forall_mem_set h.calm (by simp)

theorem remove_sound (h : s.Sound) (hc : s.calls[n]? = some c) {pointer : Nat}
    (hpc : c.pc = .remove pointer) (hbusy : s.world.manager.tasks.keys ≠ [])
    (hspared : s.Spared c.session.sessionKey) {devices : Option (List Bool)} {pc : CallPc}
    {world : World} (hstep : advance s.world c devices = some (pc, world)) :
    Sound ⟨world, s.calls.set n { c with pc }⟩ := by
  obtain ⟨held, hheld, hkey⟩ := h.held c (List.mem_of_getElem? hc) pointer (by rw [holds, hpc])
  obtain ⟨w', hremove, hready, htasks, hheap, hengine⟩ :=
    World.removeTask_spec h.ready held.session hbusy
  simp only [advance, hpc, hheld, hremove] at hstep
  obtain ⟨rfl, rfl⟩ := Prod.mk.inj (Option.some.inj hstep)
  rw [hkey] at htasks
  have hnoStop (other : Nat) : ¬ ToStop other c := not_toStop (by simp [hpc]) (by simp [hpc])
  refine ⟨hready, ?_, ?_, ?_, ?_, ?_⟩
  · intro other task htask hcron
    have htask : s.world.heap[other]? = some task := hheap ▸ htask
    have hkeep : (∃ c' ∈ s.calls, ToStop other c') →
        ∃ c' ∈ s.calls.set n { c with pc := after (afterStop c.kind) .ok }, ToStop other c' :=
      fun hsome => exists_mem_set hsome hc fun hcon => absurd hcon (hnoStop other)
    rcases h.running other task htask hcron with hlookup | hsome
    · by_cases hsame : task.session.sessionKey = c.session.sessionKey
      · rw [hsame] at hlookup
        exact Or.inr (hkeep (hspared other task hlookup htask hcron))
      · refine Or.inl ?_
        show w'.manager.tasks.lookup _ = _
        rw [htasks, AList.lookup_erase_ne hsame]
        exact hlookup
    · exact Or.inr (hkeep hsome)
  · intro key other hlookup
    have hmore : w'.manager.tasks.keys ≠ [] := World.keys_ne_nil_of_lookup hlookup
    have hlookup : w'.manager.tasks.lookup key = some other := hlookup
    have hne : key ≠ c.session.sessionKey := by
      rintro rfl
      rw [htasks, AList.lookup_erase] at hlookup
      nomatch hlookup
    rw [htasks, AList.lookup_erase_ne hne] at hlookup
    obtain ⟨task, htask, htaskKey, htaskEngine, hcron⟩ := h.registered key other hlookup
    refine ⟨task, hheap ▸ htask, htaskKey, htaskEngine.trans (hengine hmore).symm, ?_⟩
    refine hcron.imp_right fun hsome => exists_mem_set hsome hc ?_
    rintro ⟨_, _, hcon⟩
    exact absurd hcon.symm hne
  · intro task htask
    exact h.flags task (hheap ▸ htask)
  · refine forall_mem_set (fun c' hc' q hq => ?_) ?_
    · obtain ⟨task, htask, htaskKey⟩ := h.held c' hc' q hq
      exact ⟨task, hheap ▸ htask, htaskKey⟩
    · intro q hq
      cases hkind : c.kind <;> simp [holds, after, afterStop, hkind] at hq
  · refine forall_mem_set h.calm ?_
    cases c.kind <;> simp [after, afterStop]

theorem register_sound (h : s.Sound) (hc : s.calls[n]? = some c) (hpc : c.pc = .register)
    (hspared : s.Spared c.session.sessionKey) {devices : Option (List Bool)}
    (hfinds : s.world.Finds devices) {pc : CallPc} {world : World}
    (hstep : advance s.world c devices = some (pc, world)) :
    Sound ⟨world, s.calls.set n { c with pc }⟩ := by
  obtain ⟨w', engine, hregister, hready, htasks, hengine, hheap, hsame⟩ :=
    World.register_spec h.ready c.session hfinds
  simp only [advance, hpc, hregister] at hstep
  obtain ⟨rfl, rfl⟩ := Prod.mk.inj (Option.some.inj hstep)
  have hnoStop (other : Nat) : ¬ ToStop other c := not_toStop (by simp [hpc]) (by simp [hpc])
  have hold : ∀ (q : Nat) (task : TaskCell), s.world.heap[q]? = some task →
      w'.heap[q]? = some task := by
    intro q task htask
    rw [hheap, List.getElem?_append_left (List.getElem?_eq_some_iff.mp htask).1]
    exact htask
  refine ⟨hready, ?_, ?_, ?_, ?_, ?_⟩
  · intro other task htask hcron
    have htask : w'.heap[other]? = some task := htask
    have hkeep : (∃ c' ∈ s.calls, ToStop other c') →
        ∃ c' ∈ s.calls.set n { c with pc := after .done .ok }, ToStop other c' :=
      fun hsome => exists_mem_set hsome hc fun hcon => absurd hcon (hnoStop other)
    show w'.manager.tasks.lookup _ = _ ∨ _
    rw [htasks]
    rw [hheap, List.getElem?_append] at htask
    split at htask
    · rcases h.running other task htask hcron with hlookup | hsome
      · by_cases hkey : task.session.sessionKey = c.session.sessionKey
        · rw [hkey] at hlookup
          exact Or.inr (hkeep (hspared other task hlookup htask hcron))
        · exact Or.inl (by rw [AList.lookup_insert_ne hkey]; exact hlookup)
      · exact Or.inr (hkeep hsome)
    · -- the new task
      rename_i hnew
      obtain ⟨hlast, rfl⟩ := List.getElem?_eq_some_iff.mp htask
      rw [List.length_singleton] at hlast
      obtain rfl : other = s.world.heap.length := by omega
      left
      rw [List.getElem_singleton]
      exact AList.lookup_insert _
  · intro key other hlookup
    have hlookup : w'.manager.tasks.lookup key = some other := hlookup
    rw [htasks] at hlookup
    by_cases hkey : key = c.session.sessionKey
    · subst hkey
      rw [AList.lookup_insert] at hlookup
      obtain rfl := Option.some.inj hlookup
      refine ⟨⟨c.session, some engine, true, true⟩, ?_, rfl, hengine.symm, Or.inl rfl⟩
      show w'.heap[_]? = _
      rw [hheap]
      exact List.getElem?_concat_length
    · rw [AList.lookup_insert_ne hkey] at hlookup
      obtain ⟨task, htask, htaskKey, htaskEngine, hcron⟩ := h.registered key other hlookup
      have hbusy := World.keys_ne_nil_of_lookup hlookup
      refine ⟨task, hold other task htask, htaskKey, ?_, ?_⟩
      · rw [htaskEngine, hsame hbusy]
        exact hengine.symm
      · refine hcron.imp_right fun hsome => exists_mem_set hsome hc ?_
        rintro ⟨_, hcon, _⟩
        rw [hpc] at hcon
        nomatch hcon
  · intro task htask
    have htask : task ∈ w'.heap := htask
    rw [hheap] at htask
    rcases List.mem_append.mp htask with htask | htask
    · exact h.flags task htask
    · obtain rfl := List.mem_singleton.mp htask
      rfl
  · refine forall_mem_set (fun c' hc' q hq => ?_) ?_
    · obtain ⟨task, htask, htaskKey⟩ := h.held c' hc' q hq
      exact ⟨task, hold q task htask, htaskKey⟩
    · intro q hq
      nomatch hq
  · exact forall_mem_set h.calm (by simp [after])

end Steps

/-- A new call. -/
theorem call_sound {s : Service} (h : s.Sound) (kind : Kind) (session : Session) :
    Sound { s with calls := s.calls ++ [⟨kind, session, .lookup⟩] } where
  ready := h.ready
  running := by
    intro pointer task htask hcron
    refine (h.running pointer task htask hcron).imp_right ?_
    rintro ⟨c, hc, hstop⟩
    exact ⟨c, List.mem_append_left _ hc, hstop⟩
  registered := by
    intro key pointer hlookup
    obtain ⟨task, htask, hkey, hengine, hcron⟩ := h.registered key pointer hlookup
    refine ⟨task, htask, hkey, hengine, hcron.imp_right ?_⟩
    rintro ⟨c, hc, hremove⟩
    exact ⟨c, List.mem_append_left _ hc, hremove⟩
  flags := h.flags
  held := by
    intro c hc pointer hpointer
    rcases List.mem_append.mp hc with hc | hc
    · exact h.held c hc pointer hpointer
    · obtain rfl := List.mem_singleton.mp hc
      nomatch hpointer
  calm := by
    intro c hc
    rcases List.mem_append.mp hc with hc | hc
    · exact h.calm c hc
    · obtain rfl := List.mem_singleton.mp hc
      simp

/-- **One step of any call**, taken under its condition. -/
theorem sound_step {s s' : Service} {a : ServiceAction} (h : s.Sound) (hsucceeds : Succeeds a)
    (hC : s.Orderly a) (hstep : s.step a = some s') : s'.Sound := by
  cases a with
  | call kind session =>
    obtain rfl := Option.some.inj hstep
    exact call_sound h kind session
  | run number devices =>
    simp only [step] at hstep
    split at hstep
    · nomatch hstep
    rename_i c hc
    obtain ⟨⟨pc, world⟩, hadvance, rfl⟩ := Option.map_eq_some_iff.mp hstep
    have hC := hC c hc
    cases hpc : c.pc with
    | lookup => exact lookup_sound h hc hpc hadvance
    | check pointer => exact check_sound h hc hpc hadvance
    | stop pointer => exact stop_sound h hc hpc hadvance
    | remove pointer =>
      simp only [hpc] at hC
      exact remove_sound h hc hpc hC.1 hC.2 hadvance
    | register =>
      simp only [hpc] at hC
      refine register_sound h hc hpc hC.1 ?_ hadvance
      intro hnil
      obtain ⟨k, rfl⟩ := hsucceeds
      refine ⟨k, ?_, rfl⟩
      have hne := hC.2 hnil
      rcases Nat.eq_zero_or_pos k with rfl | hpos
      · exact absurd rfl hne
      · exact hpos
    | done | failed | panicked =>
      simp only [advance, hpc] at hadvance
      nomatch hadvance

/-! ## Every interleaving -/

/-- **Every interleaving** of calls for any sessions, with initialization succeeding: if every
section under the mutex finds the task under its key spared, no `RemoveTask` finds an empty map and
no initialization finds no device, the manager is usable in every state. -/
theorem usable_of_orderly {actions : List ServiceAction}
    (hsucceeds : ∀ a ∈ actions, Succeeds a) (h : Along step Orderly opened actions) :
    Always step Usable opened actions := by
  have hstep : ∀ (s : Service) (a : ServiceAction) (s' : Service), s.Sound →
      s.Orderly a ∧ Succeeds a → s.step a = some s' → s'.Sound :=
    fun s a s' hs hC hs' => sound_step hs hC.2 hC.1 hs'
  exact (always_of_along hstep opened_sound (h.and_forall hsucceeds)).mono
    fun s hs => usable_of_sound hs

/-! ## Two calls for one session -/

def game : Session := ⟨0, 1, "game", "", []⟩

def device : Option (List Bool) := some [true]

/-- One `StartReport` on its own. -/
def startedOnce : List ServiceAction :=
  [.call .startReport game, .run 0 device, .run 0 device]

theorem startedOnce_succeeds : ∀ a ∈ startedOnce, Succeeds a := by
  intro a ha
  simp only [startedOnce, List.mem_cons, List.not_mem_nil, or_false] at ha
  rcases ha with rfl | rfl | rfl
  · trivial
  · exact ⟨1, rfl⟩
  · exact ⟨1, rfl⟩

/-- A call that is not under the mutex. -/
theorem orderly_outside {s : Service} {number : Nat} {devices : Option (List Bool)} {c : ReportCall}
    (hc : s.calls[number]? = some c) (hremove : ∀ pointer, c.pc ≠ .remove pointer)
    (hregister : c.pc ≠ .register) : Orderly s (.run number devices) := by
  intro c' hc'
  obtain rfl := Option.some.inj (hc.symm.trans hc')
  cases hpc : c.pc with
  | remove pointer => exact absurd hpc (hremove pointer)
  | register => exact absurd hpc hregister
  | _ => trivial

/-- A registration under a key that is free. -/
theorem orderly_register {s : Service} {number : Nat} {devices : Option (List Bool)} {c : ReportCall}
    (hc : s.calls[number]? = some c) (hregister : c.pc = .register)
    (hfree : s.world.manager.tasks.lookup c.session.sessionKey = none) (hdevices : devices ≠ some []) :
    Orderly s (.run number devices) := by
  intro c' hc'
  obtain rfl := Option.some.inj (hc.symm.trans hc')
  rw [hregister]
  refine ⟨fun pointer task hlookup => ?_, fun _ => hdevices⟩
  cases hfree.symm.trans hlookup

/-- The removal of a task that has been stopped. -/
theorem orderly_remove {s : Service} {number pointer : Nat} {devices : Option (List Bool)}
    {c : ReportCall} {task : TaskCell} (hc : s.calls[number]? = some c)
    (hremove : c.pc = .remove pointer)
    (hlookup : s.world.manager.tasks.lookup c.session.sessionKey = some pointer)
    (htask : s.world.heap[pointer]? = some task) (hstopped : task.cronRunning = false) :
    Orderly s (.run number devices) := by
  intro c' hc'
  obtain rfl := Option.some.inj (hc.symm.trans hc')
  rw [hremove]
  refine ⟨fun hnil => ?_, fun pointer' task' hlookup' htask' hcron => ?_⟩
  · have hmem : c.session.sessionKey ∈ s.world.manager.tasks := by
      rw [← AList.lookup_isSome, hlookup]
      rfl
    rw [AList.mem_keys, hnil] at hmem
    cases hmem
  · obtain rfl := Option.some.inj (hlookup.symm.trans hlookup')
    rw [Option.some.inj (htask.symm.trans htask'), hcron] at hstopped
    cases hstopped

def otherGame : Session := ⟨0, 2, "other", "", []⟩

/-- A game is ended while another one is started. -/
def inTurns : List ServiceAction :=
  startedOnce ++ [.call .startReport otherGame, .call .endReport game, .run 2 device, .run 1 device,
    .run 2 device, .run 1 device, .run 2 device, .run 2 device]

theorem usable_of_orderly_inTurns :
    (∃ s, exec step opened inTurns = some s ∧ s.Quiet ∧ s.world.manager.tasks.keys =
      [otherGame.sessionKey]) ∧ Always step Usable opened inTurns := by
  have hsucceeds : ∀ a ∈ inTurns, Succeeds a := by
    intro a ha
    rcases List.mem_append.mp ha with ha | ha
    · exact startedOnce_succeeds a ha
    · simp only [List.mem_cons, List.not_mem_nil, or_false] at ha
      rcases ha with rfl | rfl | rfl | rfl | rfl | rfl | rfl | rfl
      · trivial
      · trivial
      all_goals exact ⟨1, rfl⟩
  have hquiet : ((exec step opened inTurns).get rfl).Quiet := by
    unfold Quiet
    decide
  refine ⟨⟨_, (Option.some_get rfl).symm, hquiet, by decide⟩, usable_of_orderly hsucceeds ?_⟩
  have houtside {s : Service} {number : Nat} {c : ReportCall} (hc : s.calls[number]? = some c)
      (hpc : c.pc = .lookup ∨ (∃ pointer, c.pc = .check pointer) ∨ ∃ pointer, c.pc = .stop pointer) :
      Orderly s (.run number device) := by
    refine orderly_outside hc (fun pointer hcon => ?_) fun hcon => ?_ <;>
      rcases hpc with hpc | ⟨_, hpc⟩ | ⟨_, hpc⟩ <;> cases hpc.symm.trans hcon
  -- the first call
  refine along_cons trivial rfl (along_cons (houtside rfl (.inl rfl)) rfl
    (along_cons (orderly_register rfl rfl rfl (by decide)) rfl ?_))
  -- the two that overlap
  refine along_cons trivial rfl (along_cons trivial rfl (along_cons (houtside rfl (.inl rfl)) rfl
    (along_cons (houtside rfl (.inl rfl)) rfl ?_)))
  refine along_cons (houtside rfl (.inr (.inl ⟨0, rfl⟩))) rfl
    (along_cons (orderly_register rfl rfl rfl (by decide)) rfl ?_)
  exact along_cons (houtside rfl (.inr (.inr ⟨0, rfl⟩))) rfl
    (along_cons (orderly_remove rfl rfl rfl rfl rfl) rfl trivial)

/-- The task of the first call has been looked up by two more.  The second of them stops it once
more after the first has registered its own task, and `RemoveTask` takes that one out. -/
def startedTwice : List ServiceAction :=
  startedOnce ++ [.call .startReport game, .call .startReport game, .run 1 device, .run 2 device,
    .run 1 device, .run 1 device, .run 1 device, .run 2 device, .run 2 device, .run 2 device]

theorem startedTwice_not_usable : (∀ a ∈ startedTwice, Succeeds a) ∧
    ∃ s, exec step opened startedTwice = some s ∧ s.Quiet ∧
      s.world.heap.map TaskCell.cronRunning = [false, true, true] ∧
      s.world.manager.tasks.lookup game.sessionKey = some 2 ∧ ¬ s.Usable := by
  have hsucceeds : ∀ a ∈ startedTwice, Succeeds a := by
    intro a ha
    rcases List.mem_append.mp ha with ha | ha
    · exact startedOnce_succeeds a ha
    · simp only [List.mem_cons, List.not_mem_nil, or_false] at ha
      rcases ha with rfl | rfl | rfl | rfl | rfl | rfl | rfl | rfl | rfl | rfl
      · trivial
      · trivial
      all_goals exact ⟨1, rfl⟩
  have hquiet : ((exec step opened startedTwice).get rfl).Quiet := by
    unfold Quiet
    decide
  refine ⟨hsucceeds, (exec step opened startedTwice).get rfl, rfl, hquiet, rfl, rfl, ?_⟩
  intro husable
  have hfirst : ((exec step opened startedTwice).get rfl).world.manager.tasks.lookup
      game.sessionKey = some 1 := (husable.2 hquiet).1 1 ⟨game, some 1, true, true⟩ rfl rfl
  have hsecond : ((exec step opened startedTwice).get rfl).world.manager.tasks.lookup
      game.sessionKey = some 2 := rfl
  rw [hsecond] at hfirst
  nomatch hfirst

/-- Two calls of `EndReport` have both found the task running. -/
def endedTwice : List ServiceAction :=
  startedOnce ++ [.call .endReport game, .call .endReport game, .run 1 device, .run 2 device,
    .run 1 device, .run 2 device, .run 1 device, .run 1 device, .run 2 device, .run 2 device]

theorem endedTwice_panics : ∃ s, exec step opened endedTwice = some s ∧
    s.calls.map ReportCall.pc = [.done, .done, .panicked] := by
  exact ⟨_, rfl, rfl⟩

end Service

end Accumulation.Report
