/-
# Accumulation.Uprobe.LostTime — how long a traced function takes.

A probe at the entry of a function puts the time into a hash map, and a probe at its return takes it
out and emits an event.  The map is shared by all threads, and its key is the process: the upper
half of `pid_tgid`.  So an event is paired with the call that returns only where no other thread of
the process has entered or left the function in between (`paired_iff_inTurn`).

A probe is one step here, though on two processors the map operations of two probes may fall between
one another.  `FunLostTime` and `FetchMessage` are traced alike; what the second keeps besides the
times is the payload.
-/
import Accumulation.Lib.Run

namespace Accumulation.Uprobe

open Accumulation.Lib.Run

variable {μ : Type*}

/-! ## The probes -/

/-- `fun_perf_stat_t`, or `func_perf_stat_t` with its `msg`. -/
structure PerfStat (μ : Type*) where
  startTime : Nat
  endTime : Nat
  pid : UInt32
  msg : μ
  deriving DecidableEq, Repr

/-- `MAX_CONCURRENT` -/
def maxConcurrent : Nat := 50

/-- `BPF_MAP_TYPE_HASH` with `max_entries` entries, from process ids. -/
abbrev HashMap (μ : Type*) := AList fun _ : UInt32 => PerfStat μ

/-- `bpf_map_update_elem` with `BPF_ANY`: a new key is refused when the map is full. -/
def mapUpdateElem (stats : HashMap μ) (key : UInt32) (value : PerfStat μ) : HashMap μ :=
  if key ∈ stats ∨ stats.keys.length < maxConcurrent then stats.insert key value else stats

/-- `bpf_get_current_pid_tgid() >> 32`, as `u32` -/
def pidOf (pidTgid : UInt64) : UInt32 := (pidTgid >>> 32).toUInt32

/-- The probe at the entry. -/
def uprobe (pidTgid : UInt64) (now : Nat) (msg : μ) (stats : HashMap μ) : HashMap μ :=
  let stat : PerfStat μ := ⟨now, 0, pidOf pidTgid, msg⟩
  mapUpdateElem stats stat.pid stat

/-- The probe at the return, with the events it emits. -/
def uretprobe (pidTgid : UInt64) (now : Nat) (stats : HashMap μ) :
    List (PerfStat μ) × HashMap μ :=
  let key := pidOf pidTgid
  match stats.lookup key with
  | none => ([], stats)
  | some stat => ([{ stat with endTime := now }], stats.erase key)

def uprobeFunLostTime (pidTgid : UInt64) (now : Nat) : HashMap Unit → HashMap Unit :=
  uprobe pidTgid now ()

def uretprobeFunLostTime (pidTgid : UInt64) (now : Nat) :
    HashMap Unit → List (PerfStat Unit) × HashMap Unit :=
  uretprobe pidTgid now

/-- `msg` is what `bpf_probe_read` finds. -/
def uprobeFetchMessage (pidTgid : UInt64) (now : Nat) (msg : Vector UInt8 80) :
    HashMap (Vector UInt8 80) → HashMap (Vector UInt8 80) :=
  uprobe pidTgid now msg

def uretprobeFetchMessage (pidTgid : UInt64) (now : Nat) :
    HashMap (Vector UInt8 80) → List (PerfStat (Vector UInt8 80)) × HashMap (Vector UInt8 80) :=
  uretprobe pidTgid now

/-! ## Threads that call the function -/

/-- A thread, by its `pid_tgid`, comes to the function or leaves it. -/
inductive Action (μ : Type*)
  | enter (pidTgid : UInt64) (now : Nat) (msg : μ)
  | leave (pidTgid : UInt64) (now : Nat)
  deriving DecidableEq

def Action.pidTgid : Action μ → UInt64
  | .enter pidTgid _ _ => pidTgid
  | .leave pidTgid _ => pidTgid

/-- A return: when the call that returns was entered, and the events emitted. -/
structure Return (μ : Type*) where
  entered : Nat
  emitted : List (PerfStat μ)
  deriving DecidableEq

structure State (μ : Type*) where
  stats : HashMap μ
  /-- the calls that have not returned, with the time of their entries -/
  opened : AList fun _ : UInt64 => Nat
  /-- what has happened, the latest first -/
  past : List (Action μ)
  returns : List (Return μ)

def State.init : State μ := ⟨∅, ∅, [], []⟩

/-- A thread enters the function if it is not in it, and if not too many are; it leaves it if it is
in it. -/
def State.step (s : State μ) : Action μ → Option (State μ)
  | .enter t now msg =>
    if t ∉ s.opened ∧ s.opened.keys.length < maxConcurrent then
      some { s with
        stats := uprobe t now msg s.stats
        opened := s.opened.insert t now
        past := .enter t now msg :: s.past }
    else none
  | .leave t now =>
    (s.opened.lookup t).map fun entered =>
      { stats := (uretprobe t now s.stats).2
        opened := s.opened.erase t
        past := .leave t now :: s.past
        returns := s.returns ++ [⟨entered, (uretprobe t now s.stats).1⟩] }

/-- Every return has emitted one event, with the time of the entry of the call that returned. -/
def State.Paired (s : State μ) : Prop :=
  ∀ r ∈ s.returns, ∃ event, r.emitted = [event] ∧ event.startTime = r.entered

/-- The last that a process has done. -/
def lastOf (pid : UInt32) (past : List (Action μ)) : Option (Action μ) :=
  past.find? fun a => pidOf a.pidTgid == pid

/-- Before a call returns, the last that its process has done is to enter the function, at the time
at which this call was entered. -/
def State.InTurn (s : State μ) : Action μ → Prop
  | .enter _ _ _ => True
  | .leave t _ => ∃ u entered msg, s.opened.lookup t = some entered ∧
      lastOf (pidOf t) s.past = some (.enter u entered msg)

/-! ## What the map holds -/

/-- What the probe puts into the map at an entry. -/
def Action.stat (pid : UInt32) : Action μ → Option (PerfStat μ)
  | .enter _ now msg => some ⟨now, 0, pid, msg⟩
  | .leave _ _ => none

/-- The map holds the processes that have entered the function last, and the calls they have entered
it with are open. -/
structure State.Valid (s : State μ) : Prop where
  lookup : ∀ pid, s.stats.lookup pid = (lastOf pid s.past).bind (Action.stat pid)
  opened : ∀ pid t now msg, lastOf pid s.past = some (.enter t now msg) →
    s.opened.lookup t = some now

theorem lastOf_cons_self (a : Action μ) {pid : UInt32} (h : pidOf a.pidTgid = pid)
    (past : List (Action μ)) : lastOf pid (a :: past) = some a :=
  List.find?_cons_of_pos (beq_iff_eq.mpr h)

theorem lastOf_cons_ne (a : Action μ) {pid : UInt32} (h : pidOf a.pidTgid ≠ pid)
    (past : List (Action μ)) : lastOf pid (a :: past) = lastOf pid past :=
  List.find?_cons_of_neg (fun heq => h (beq_iff_eq.mp heq))

theorem pidOf_of_lastOf {pid : UInt32} {past : List (Action μ)} {a : Action μ}
    (h : lastOf pid past = some a) : pidOf a.pidTgid = pid := by
  have hfound := List.find?_some (p := fun a : Action μ => pidOf a.pidTgid == pid) h
  exact beq_iff_eq.mp hfound

namespace State

variable {s s' : State μ}

/-- There are no more processes in the map than calls are open. -/
theorem Valid.length_le (h : s.Valid) : s.stats.keys.length ≤ s.opened.keys.length := by
  have hsubset : s.stats.keys ⊆ s.opened.keys.map pidOf := by
    intro pid hpid
    rw [← AList.mem_keys, ← AList.lookup_isSome, h.lookup pid, Option.isSome_iff_exists] at hpid
    rcases hpid with ⟨stat, hstat⟩
    rcases Option.bind_eq_some_iff.mp hstat with ⟨a, ha, hstat⟩
    cases a with
    | leave t now => cases hstat
    | enter t now msg =>
      have hopen := h.opened pid t now msg ha
      have hkey : pidOf (Action.enter t now msg).pidTgid = pid := pidOf_of_lastOf ha
      rw [← hkey]
      apply List.mem_map_of_mem
      rw [← AList.mem_keys, ← AList.lookup_isSome]
      show (s.opened.lookup t).isSome = true
      rw [hopen]
      rfl
  have hlength := (s.stats.keys_nodup.subperm hsubset).length_le
  rw [List.length_map] at hlength
  exact hlength

/-- With room for a call there is room for its process. -/
theorem Valid.uprobe_eq (h : s.Valid) (hroom : s.opened.keys.length < maxConcurrent) (t : UInt64)
    (now : Nat) (msg : μ) :
    uprobe t now msg s.stats = s.stats.insert (pidOf t) ⟨now, 0, pidOf t, msg⟩ := by
  have hlength := h.length_le
  show mapUpdateElem s.stats (pidOf t) ⟨now, 0, pidOf t, msg⟩ = _
  rw [mapUpdateElem, if_pos (.inr (by omega))]

/-- What an entry does. -/
theorem step_enter {t : UInt64} {now : Nat} {msg : μ} (h : s.step (.enter t now msg) = some s') :
    t ∉ s.opened ∧ s.opened.keys.length < maxConcurrent ∧ s' = { s with
      stats := uprobe t now msg s.stats
      opened := s.opened.insert t now
      past := .enter t now msg :: s.past } := by
  rcases Option.ite_none_right_eq_some.mp h with ⟨hguard, hs'⟩
  exact ⟨hguard.1, hguard.2, (Option.some.inj hs').symm⟩

/-- What a return does. -/
theorem step_leave {t : UInt64} {now : Nat} (h : s.step (.leave t now) = some s') :
    ∃ entered, s.opened.lookup t = some entered ∧ s' =
      { stats := (uretprobe t now s.stats).2
        opened := s.opened.erase t
        past := .leave t now :: s.past
        returns := s.returns ++ [⟨entered, (uretprobe t now s.stats).1⟩] } := by
  rcases Option.map_eq_some_iff.mp h with ⟨entered, hentered, hs'⟩
  exact ⟨entered, hentered, hs'.symm⟩

theorem uretprobe_none {t : UInt64} {stats : HashMap μ} (h : stats.lookup (pidOf t) = none)
    (now : Nat) : uretprobe t now stats = ([], stats) := by
  simp only [uretprobe]
  rw [h]

theorem uretprobe_some {t : UInt64} {stats : HashMap μ} {stat : PerfStat μ}
    (h : stats.lookup (pidOf t) = some stat) (now : Nat) :
    uretprobe t now stats = ([{ stat with endTime := now }], stats.erase (pidOf t)) := by
  simp only [uretprobe]
  rw [h]

/-- The probe at a return takes the process out of the map. -/
theorem lookup_uretprobe (t : UInt64) (now : Nat) (stats : HashMap μ) :
    (uretprobe t now stats).2.lookup (pidOf t) = none ∧ ∀ pid, pidOf t ≠ pid →
      (uretprobe t now stats).2.lookup pid = stats.lookup pid := by
  cases h : stats.lookup (pidOf t) with
  | none =>
    rw [uretprobe_none h]
    exact ⟨h, fun _ _ => rfl⟩
  | some stat =>
    rw [uretprobe_some h]
    refine ⟨AList.lookup_erase _ _, ?_⟩
    intro pid hpid
    exact AList.lookup_erase_ne (Ne.symm hpid)

theorem Valid.enter {t : UInt64} {now : Nat} {msg : μ} (h : s.Valid)
    (hstep : s.step (.enter t now msg) = some s') : s'.Valid := by
  rcases step_enter hstep with ⟨hnew, hroom, rfl⟩
  constructor
  · intro pid
    show (uprobe t now msg s.stats).lookup pid = _
    rw [h.uprobe_eq hroom]
    by_cases hpid : pidOf t = pid
    · rw [lastOf_cons_self (.enter t now msg) hpid, ← hpid]
      exact AList.lookup_insert _
    · rw [lastOf_cons_ne (.enter t now msg) hpid, AList.lookup_insert_ne (Ne.symm hpid), h.lookup]
  · intro pid u entered msg' hlast
    by_cases hpid : pidOf t = pid
    · rw [lastOf_cons_self (.enter t now msg) hpid] at hlast
      cases hlast
      exact AList.lookup_insert _
    · rw [lastOf_cons_ne (.enter t now msg) hpid] at hlast
      have hopen := h.opened pid u entered msg' hlast
      -- the thread that enters was not open
      have hne : u ≠ t := by
        rintro rfl
        exact hnew (AList.lookup_isSome.mp (by rw [hopen]; rfl))
      exact (AList.lookup_insert_ne hne).trans hopen

theorem Valid.leave {t : UInt64} {now : Nat} (h : s.Valid)
    (hstep : s.step (.leave t now) = some s') : s'.Valid := by
  rcases step_leave hstep with ⟨entered, hentered, rfl⟩
  have hstats := lookup_uretprobe t now s.stats
  constructor
  · intro pid
    by_cases hpid : pidOf t = pid
    · rw [lastOf_cons_self (.leave t now) hpid, ← hpid]
      exact hstats.1
    · rw [lastOf_cons_ne (.leave t now) hpid, ← h.lookup]
      exact hstats.2 pid hpid
  · intro pid u entered' msg hlast
    by_cases hpid : pidOf t = pid
    · rw [lastOf_cons_self (.leave t now) hpid] at hlast
      cases hlast
    · rw [lastOf_cons_ne (.leave t now) hpid] at hlast
      have hopen := h.opened pid u entered' msg hlast
      have hne : u ≠ t := by
        rintro rfl
        have hkey : pidOf (Action.enter u entered' msg).pidTgid = pid := pidOf_of_lastOf hlast
        exact hpid hkey
      exact (AList.lookup_erase_ne hne).trans hopen

/-- **One step** keeps the map as it should be. -/
theorem Valid.step {a : Action μ} (h : s.Valid) (hstep : s.step a = some s') : s'.Valid := by
  cases a with
  | enter t now msg => exact h.enter hstep
  | leave t now => exact h.leave hstep

theorem valid_init : (init : State μ).Valid where
  lookup _ := rfl
  opened _ _ _ _ h := nomatch h

/-! ## Events and calls -/

/-- The event of a return is the one of its call if and only if the call is in turn. -/
theorem Valid.event_iff {t : UInt64} {now entered : Nat} (h : s.Valid)
    (hentered : s.opened.lookup t = some entered) :
    (∃ event, (uretprobe t now s.stats).1 = [event] ∧ event.startTime = entered) ↔
      s.InTurn (.leave t now) := by
  have hlookup := h.lookup (pidOf t)
  constructor
  · rintro ⟨event, hevent, hstart⟩
    cases hlast : lastOf (pidOf t) s.past with
    | none =>
      rw [hlast] at hlookup
      rw [uretprobe_none hlookup] at hevent
      cases hevent
    | some a =>
      rw [hlast] at hlookup
      cases a with
      | leave u now' =>
        rw [uretprobe_none hlookup] at hevent
        cases hevent
      | enter u now' msg =>
        rw [uretprobe_some hlookup] at hevent
        obtain rfl := (List.cons.inj hevent).1
        obtain rfl : now' = entered := hstart
        exact ⟨u, now', msg, hentered, hlast⟩
  · rintro ⟨u, entered', msg, hopen, hlast⟩
    obtain rfl := Option.some.inj (hentered.symm.trans hopen)
    rw [hlast] at hlookup
    rw [uretprobe_some hlookup]
    exact ⟨_, rfl, rfl⟩

/-- **One step** keeps events and calls paired if and only if a return is in turn. -/
theorem Valid.paired_step_iff {a : Action μ} (h : s.Valid) (hpaired : s.Paired)
    (hstep : s.step a = some s') : s'.Paired ↔ s.InTurn a := by
  cases a with
  | enter t now msg =>
    rcases step_enter hstep with ⟨-, -, rfl⟩
    exact iff_of_true hpaired trivial
  | leave t now =>
    rcases step_leave hstep with ⟨entered, hentered, rfl⟩
    rw [← show _ ↔ s.InTurn (.leave t now) from h.event_iff hentered]
    constructor
    · intro hall
      exact hall ⟨entered, (uretprobe t now s.stats).1⟩
        (List.mem_append_right _ (List.mem_singleton.mpr rfl))
    · intro hevent r hr
      rcases List.mem_append.mp hr with hr | hr
      · exact hpaired r hr
      · rw [List.mem_singleton.mp hr]
        exact hevent

/-- **Whole runs.**  Every return emits one event, with the time of the entry of its own call, if
and only if every return is in turn. -/
theorem paired_iff_inTurn {actions : List (Action μ)}
    (hrun : exec State.step init actions = some s) :
    Along State.step InTurn init actions ↔ Always State.step Paired init actions := by
  have hvalid : Always State.step (Valid (μ := μ)) init actions :=
    always_of_step (fun _ _ _ h hstep => h.step hstep) actions valid_init
  constructor
  · intro hturn
    have hboth : Always State.step (fun s : State μ => s.Valid ∧ s.Paired) init actions := by
      refine always_of_along ?_ ⟨valid_init, nofun⟩ hturn
      rintro t a t' ⟨hvalid, hpaired⟩ hC hstep
      exact ⟨hvalid.step hstep, (hvalid.paired_step_iff hpaired hstep).mpr hC⟩
    exact hboth.mono fun _ h => h.2
  · intro hpaired
    refine along_of_always ?_ hrun (hvalid.and hpaired)
    rintro t a t' ⟨hvalid, hpaired⟩ hstep ⟨-, hpaired'⟩
    exact (hvalid.paired_step_iff hpaired hstep).mp hpaired'

/-- Two processes whose calls overlap. -/
theorem paired_iff_inTurn_processes :
    let actions : List (Action Unit) := [.enter 0x100000001 10 (), .enter 0x200000002 20 (),
      .leave 0x100000001 30, .leave 0x200000002 40]
    Along State.step InTurn init actions ↔ Always State.step Paired init actions :=
  paired_iff_inTurn rfl

/-- Two threads of one process whose calls overlap: the first return emits the time of the second
entry, the second return emits nothing. -/
theorem overlap_not_paired :
    let actions : List (Action Unit) := [.enter 0x100000001 10 (), .enter 0x100000002 20 (),
      .leave 0x100000001 30, .leave 0x100000002 40]
    ∃ s, exec State.step init actions = some s ∧
      (s.returns.map fun r => (r.entered, r.emitted.map PerfStat.startTime)) =
        [(10, [20]), (20, [])] ∧
      ¬Always State.step Paired init actions := by
  intro actions
  refine ⟨_, rfl, by decide, ?_⟩
  intro h
  have hlast := h.last rfl ⟨20, []⟩ (by decide)
  rcases hlast with ⟨event, hevent, -⟩
  cases hevent

end State

end Accumulation.Uprobe
