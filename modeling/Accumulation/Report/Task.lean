/-
# Accumulation.Report.Task — the report task and its time windows.

Every ten seconds a report task reads the clock and asks the engine for the records since
`lastStatTime` and before the reading; every five seconds the engine exports its collectors, each of
which stamps its records with a reading of its own.  A `Watch` runs one task against one engine and
keeps a record of everything exported and of every query's result.

The windows are half open and move on only when a query found something.  With a clock that does not
go back this counts every record once (`counted_once`): the records before `lastStatTime` are
exactly those that some query has returned.  It takes readings after the Unix epoch, because to
`Search` an `endTime` that is not positive means no upper end; `epoch_counted_twice` is what happens
at zero.
-/
import Accumulation.Go.Int
import Accumulation.Store.Engine
import Accumulation.Model.Session

namespace Accumulation.Report

open Accumulation.Go Accumulation.Model Accumulation.Store Accumulation.Lib.Run

/-! ## The task -/

/-- `Bandwidths.Group` -/
def group (bws : List Bandwidth) : Int × Int :=
  bws.foldl (fun (upstream, downstream) traffic =>
    (int32 (upstream + traffic.upLen), int32 (downstream + traffic.downLen))) (0, 0)

/-- `BandwidthReportTask` -/
structure ReportTask where
  session : Session
  lastStatTime : Int
  no : Int

namespace ReportTask

/-- `Start` -/
def start (session : Session) : ReportTask := ⟨session, session.start, 0⟩

/-- The filter on the session's address. -/
def filter (trt : ReportTask) (bandwidth : Bandwidth) : Bool :=
  !(decide (0 < trt.session.streamIp.length) && bandwidth.ip != trt.session.streamIp)

def portFilter (trt : ReportTask) (bandwidth : Bandwidth) : Bool :=
  !(decide (0 < trt.session.streamPorts.length) &&
    !StreamPorts.contains trt.session.streamPorts bandwidth.port)

/-- `periodFetchBandwidth` behind its query: the task, and the four totals if a request is made of
them. -/
def fetched (trt : ReportTask) (bandwidths : List Bandwidth) (now : Int) :
    ReportTask × Option ((Int × Int) × (Int × Int)) :=
  if bandwidths.length = 0 then (trt, none)
  else
    let trt := { trt with lastStatTime := now }
    let total := group bandwidths
    if int32 (total.1 + total.2) < 1 then (trt, none)
    else
      let stream := group (Bandwidths.filter bandwidths trt.portFilter)
      if int32 (stream.1 + stream.2) < 1 then (trt, none)
      else ({ trt with no := int32 (trt.no + 1) }, some (total, stream))

/-- A task's session does not change, and its window moves on if the query found something. -/
theorem fetched_task (trt : ReportTask) (bandwidths : List Bandwidth) (now : Int) :
    (trt.fetched bandwidths now).1.session = trt.session ∧
      (trt.fetched bandwidths now).1.lastStatTime =
        if bandwidths = [] then trt.lastStatTime else now := by
  unfold fetched
  cases bandwidths with
  | nil => exact ⟨rfl, rfl⟩
  | cons b bws =>
    have hne : ¬ (b :: bws).length = 0 := Nat.succ_ne_zero _
    simp only [if_neg hne, if_neg (List.cons_ne_nil b bws)]
    split
    · exact ⟨rfl, rfl⟩
    · split
      · exact ⟨rfl, rfl⟩
      · exact ⟨rfl, rfl⟩

end ReportTask

/-! ## Ticks -/

/-- `ExportAndClean`, with its reading of the clock and the records of its map. -/
def exportAndClean (endTime : Int) (stats : List Bandwidth) : List Bandwidth :=
  stats.map fun v => { v with collectTime := endTime }

/-- What one tick of the engine exports: each collector's reading of the clock and its records. -/
abbrev Exports := List (Int × List Bandwidth)

def exported (exports : Exports) : List Bandwidth :=
  exports.flatMap fun (endTime, stats) => exportAndClean endTime stats

/-- A task and an engine that run side by side. -/
structure Watch where
  engine : FileEngine
  task : ReportTask
  /-- the clock as the task's tick has read it, until its query has run -/
  reading : Option Int
  /-- the last reading of the clock -/
  clock : Int
  /-- every record exported so far -/
  collected : List Bandwidth
  /-- the result of every query so far -/
  results : List (List Bandwidth)

inductive Tick
  /-- `collector`; `room` is the room behind the batch -/
  | collect (exports : Exports) (room : Nat)
  /-- the task's tick begins and reads the clock -/
  | readClock (now : Int)
  /-- the rest of the task's tick -/
  | fetch

namespace Watch

/-- A task started next to a new engine. -/
def opened (defaultCapacity : Nat) (capacity : Int) (session : Session) (clock : Int) : Watch :=
  ⟨newBandwidthEngine defaultCapacity capacity, ReportTask.start session, none, clock, [], []⟩

/-- The clock does not go back, the engine does not have to make room, and no tick of the task
comes before the start of its session. -/
def step (go : Runtime) (s : Watch) : Tick → Option Watch
  | .collect exports room =>
    let bandwidths := exported exports
    if ¬ (s.clock :: exports.map Prod.fst).Pairwise (· ≤ ·) then none
    else if s.engine.capacity < bandwidths.length + s.engine.data.elems.length then none
    else
      (if 0 < bandwidths.length then s.engine.add go ⟨bandwidths, room⟩ else some s.engine).map
        fun engine => { s with
          engine
          clock := (exports.map Prod.fst).getLastD s.clock
          collected := s.collected ++ bandwidths }
  | .readClock now =>
    if s.reading.isSome ∨ now < s.clock ∨ now < s.task.session.start then none
    else some { s with reading := some now, clock := now }
  | .fetch =>
    match s.reading with
    | none => none
    | some now =>
      match s.engine.query s.task.filter s.task.lastStatTime now with
      -- a panic ends the tick
      | none => some { s with reading := none }
      | some bandwidths => some { s with
          task := (s.task.fetched bandwidths now).1
          reading := none
          results := s.results ++ [bandwidths] }

/-- The task reads a time after the Unix epoch. -/
def AfterEpoch : Tick → Prop
  | .readClock now => 0 < now
  | _ => True

/-- The records a task of this session is to count up to some time. -/
def due (task : ReportTask) (upTo : Int) (b : Bandwidth) : Bool :=
  task.filter b && (decide (task.session.start ≤ b.collectTime) && decide (b.collectTime < upTo))

/-! ## One tick -/

/-- What holds between the ticks. -/
structure Sound (s : Watch) : Prop where
  ascending : Bandwidths.Ascending s.engine.data.elems
  held : s.engine.data.elems.Perm s.collected
  past : ∀ b ∈ s.collected, b.collectTime ≤ s.clock
  started : s.task.session.start ≤ s.task.lastStatTime
  behind : s.task.lastStatTime = s.task.session.start ∨ s.task.lastStatTime ≤ s.clock
  reading : ∀ now, s.reading = some now → 0 < now ∧ now ≤ s.clock ∧ s.task.lastStatTime ≤ now
  counted : s.results.flatten.Perm (s.collected.filter (due s.task s.task.lastStatTime))

theorem opened_sound (defaultCapacity : Nat) (capacity : Int) (session : Session) (clock : Int) :
    (opened defaultCapacity capacity session clock).Sound where
  ascending := List.Pairwise.nil
  held := List.Perm.refl _
  past _ hb := nomatch hb
  started := le_refl _
  behind := Or.inl rfl
  reading _ hnow := nomatch hnow
  counted := List.Perm.refl _

theorem le_getLastD {first : Int} {rest : List Int} (h : (first :: rest).Pairwise (· ≤ ·)) :
    first ≤ rest.getLastD first := by
  cases rest with
  | nil => exact le_refl first
  | cons second rest =>
    rw [List.getLastD_cons]
    apply List.rel_of_pairwise_cons h
    rw [← List.getLast_eq_getLastD (List.cons_ne_nil second rest)]
    exact List.getLast_mem _

/-- What is exported ascends from the first reading to the last. -/
theorem exported_ascending {clock : Int} {exports : Exports}
    (h : (clock :: exports.map Prod.fst).Pairwise (· ≤ ·)) :
    Bandwidths.Ascending (exported exports) ∧
      ∀ b ∈ exported exports, clock ≤ b.collectTime ∧
        b.collectTime ≤ (exports.map Prod.fst).getLastD clock := by
  induction exports generalizing clock with
  | nil => exact ⟨List.Pairwise.nil, fun _ hb => nomatch hb⟩
  | cons first exports ih =>
    obtain ⟨endTime, stats⟩ := first
    rw [List.map_cons] at h ⊢
    obtain ⟨hfirst, hrest⟩ := List.pairwise_cons.mp h
    have hclock : clock ≤ endTime := hfirst endTime List.mem_cons_self
    obtain ⟨hasc, hbounds⟩ := ih hrest
    have hlast := le_getLastD hrest
    have hstamp : ∀ b ∈ exportAndClean endTime stats, b.collectTime = endTime := by
      intro b hb
      obtain ⟨v, -, rfl⟩ := List.mem_map.mp hb
      rfl
    have hcons : exported ((endTime, stats) :: exports) =
        exportAndClean endTime stats ++ exported exports := List.flatMap_cons
    rw [hcons, List.getLastD_cons, Bandwidths.ascending_append]
    refine ⟨⟨?_, hasc, ?_⟩, ?_⟩
    · apply List.pairwise_of_forall_mem_list
      intro a ha b hb
      rw [hstamp a ha, hstamp b hb]
    · intro a ha b hb
      rw [hstamp a ha]
      exact (hbounds b hb).1
    · intro b hb
      rcases List.mem_append.mp hb with hb | hb
      · rw [hstamp b hb]
        exact ⟨hclock, hlast⟩
      · obtain ⟨hlow, hhigh⟩ := hbounds b hb
        exact ⟨le_trans hclock hlow, hhigh⟩

variable {go : Runtime} {s s' : Watch}

theorem collect_sound (h : s.Sound) {exports : Exports} {room : Nat}
    (hstep : s.step go (.collect exports room) = some s') :
    s'.Sound ∧ s'.task = s.task := by
  simp only [step] at hstep
  split at hstep
  · nomatch hstep
  rename_i hclock
  split at hstep
  · nomatch hstep
  rename_i hroom
  rw [not_not] at hclock
  rw [Nat.not_lt] at hroom
  obtain ⟨engine, hengine, rfl⟩ := Option.map_eq_some_iff.mp hstep
  obtain ⟨hasc, hbounds⟩ := exported_ascending hclock
  have hlast := le_getLastD hclock
  -- the engine holds what it held and the batch, in the order of time
  have hadd : Bandwidths.Ascending engine.data.elems ∧
      engine.data.elems.Perm (s.engine.data.elems ++ exported exports) := by
    split at hengine
    · obtain ⟨hreduce, t', ht', -, hperm⟩ := FileEngine.add_room go s.engine
        ⟨exported exports, room⟩ hroom
      obtain rfl := Option.some.inj (ht'.symm.trans hengine)
      refine ⟨(FileEngine.addsAscending_iff h.ascending hengine).mp ⟨?_, ?_⟩, hperm⟩
      · exact hasc.sublist (List.drop_sublist _ _)
      · intro _ a ha b hb
        have ha : a ∈ s.engine.data.elems := List.mem_of_mem_drop ha
        exact le_trans (h.past a (h.held.subset ha)) (hbounds b hb).1
    · rename_i hnone
      obtain rfl := Option.some.inj hengine
      have hnil : exported exports = [] := List.length_eq_zero_iff.mp (by omega)
      rw [hnil, List.append_nil]
      exact ⟨h.ascending, List.Perm.refl _⟩
  refine ⟨⟨hadd.1, hadd.2.trans (h.held.append_right _), ?_, h.started, ?_, ?_, ?_⟩, rfl⟩
  · intro b hb
    rcases List.mem_append.mp hb with hb | hb
    · exact le_trans (h.past b hb) hlast
    · exact (hbounds b hb).2
  · exact h.behind.imp_right fun hle => le_trans hle hlast
  · intro now hnow
    obtain ⟨hpos, hle, hstat⟩ := h.reading now hnow
    exact ⟨hpos, le_trans hle hlast, hstat⟩
  · -- nothing new lies before `lastStatTime`
    have hnew : (exported exports).filter (due s.task s.task.lastStatTime) = [] := by
      apply List.filter_eq_nil_iff.mpr
      intro b hb hdue
      have hlow := (hbounds b hb).1
      simp only [due, Bool.and_eq_true, decide_eq_true_eq] at hdue
      rcases h.behind with heq | hle
      · omega
      · omega
    rw [List.filter_append, hnew, List.append_nil]
    exact h.counted

theorem readClock_sound (h : s.Sound) {now : Int} (hpos : 0 < now)
    (hstep : s.step go (.readClock now) = some s') : s'.Sound ∧ s'.task = s.task := by
  simp only [step] at hstep
  split at hstep
  · nomatch hstep
  rename_i hnow
  rw [not_or, not_or, Int.not_lt, Int.not_lt] at hnow
  obtain ⟨-, hclock, hstart⟩ := hnow
  obtain rfl := Option.some.inj hstep
  refine ⟨⟨h.ascending, h.held, ?_, h.started, ?_, ?_, h.counted⟩, rfl⟩
  · intro b hb
    exact le_trans (h.past b hb) hclock
  · exact h.behind.imp_right fun hle => le_trans hle hclock
  · intro now' hnow'
    obtain rfl := Option.some.inj hnow'
    refine ⟨hpos, le_refl _, ?_⟩
    rcases h.behind with heq | hle
    · rw [heq]
      exact hstart
    · exact le_trans hle hclock

/-- **Two windows side by side**: what is due up to the border and what lies between the border and
`now` is what is due up to `now`. -/
theorem due_split (task : ReportTask) (records : List Bandwidth) {now : Int}
    (hstart : task.session.start ≤ task.lastStatTime) (hpos : 0 < now)
    (hnow : task.lastStatTime ≤ now) :
    (records.filter (due task task.lastStatTime) ++
      (records.filter (Bandwidths.inWindow task.lastStatTime now)).filter task.filter).Perm
      (records.filter (due task now)) := by
  have hearly : records.filter (due task task.lastStatTime) =
      (records.filter (due task now)).filter fun b => decide (b.collectTime < task.lastStatTime) := by
    rw [List.filter_filter]
    apply List.filter_congr
    intro b _
    rw [Bool.eq_iff_iff]
    simp only [due, Bool.and_eq_true, decide_eq_true_eq]
    constructor
    · rintro ⟨hfilter, hlow, hhigh⟩
      exact ⟨hhigh, hfilter, hlow, by omega⟩
    · rintro ⟨hhigh, hfilter, hlow, -⟩
      exact ⟨hfilter, hlow, hhigh⟩
  have hlate : (records.filter (Bandwidths.inWindow task.lastStatTime now)).filter task.filter =
      (records.filter (due task now)).filter
        fun b => !decide (b.collectTime < task.lastStatTime) := by
    rw [List.filter_filter, List.filter_filter]
    apply List.filter_congr
    intro b _
    rw [Bool.eq_iff_iff]
    simp only [due, Bandwidths.inWindow, Bool.and_eq_true, Bool.or_eq_true, Bool.not_eq_true',
      decide_eq_true_eq, decide_eq_false_iff_not]
    constructor
    · rintro ⟨hfilter, hlow, hhigh⟩
      exact ⟨by omega, hfilter, by omega, by omega⟩
    · rintro ⟨hlow, hfilter, -, hhigh⟩
      exact ⟨hfilter, by omega, Or.inr hhigh⟩
  rw [hearly, hlate]
  exact List.filter_append_perm _ _

theorem due_congr {task task' : ReportTask} (h : task'.session = task.session) :
    due task' = due task := by
  funext upTo b
  simp only [due, ReportTask.filter, h]

theorem fetch_sound (h : s.Sound) (hstep : s.step go .fetch = some s') :
    s'.Sound ∧ s'.task.session = s.task.session := by
  simp only [step] at hstep
  split at hstep
  · cases hstep
  rename_i now hreading
  obtain ⟨hpos, hclock, hstat⟩ := h.reading now hreading
  rw [FileEngine.query, Bandwidths.search_ascending h.ascending (Or.inl hstat), Option.map_some]
    at hstep
  obtain rfl := Option.some.inj hstep
  generalize hfound : Bandwidths.filter (s.engine.data.elems.filter
    (Bandwidths.inWindow s.task.lastStatTime now)) s.task.filter = found
  obtain ⟨hsession, hmoved⟩ := s.task.fetched_task found now
  have hnew : found.Perm ((s.collected.filter
      (Bandwidths.inWindow s.task.lastStatTime now)).filter s.task.filter) := by
    rw [← hfound]
    exact (h.held.filter _).filter _
  have hcounted : (s.results ++ [found]).flatten.Perm (s.collected.filter (due s.task now)) := by
    rw [List.flatten_append, List.flatten_singleton]
    exact (h.counted.append hnew).trans (due_split s.task s.collected h.started hpos hstat)
  have hdue := due_congr hsession
  refine ⟨⟨h.ascending, h.held, h.past, ?_, ?_, ?_, ?_⟩, hsession⟩
  · show (s.task.fetched found now).1.session.start ≤ (s.task.fetched found now).1.lastStatTime
    rw [hsession, hmoved]
    split
    · exact h.started
    · exact le_trans h.started hstat
  · show (s.task.fetched found now).1.lastStatTime = _ ∨
      (s.task.fetched found now).1.lastStatTime ≤ s.clock
    rw [hsession, hmoved]
    split
    · exact h.behind
    · exact Or.inr hclock
  · intro _ hnone
    cases hnone
  · show (s.results ++ [found]).flatten.Perm (s.collected.filter
      (due (s.task.fetched found now).1 (s.task.fetched found now).1.lastStatTime))
    rw [hdue, hmoved]
    by_cases hempty : found = []
    · -- the window stays, and nothing was found in it
      rw [if_pos hempty, hempty, List.flatten_append, List.flatten_singleton, List.append_nil]
      exact h.counted
    · rw [if_neg hempty]
      exact hcounted

/-- **One tick.** -/
theorem sound_step (h : s.Sound) {tick : Tick} (hepoch : AfterEpoch tick)
    (hstep : s.step go tick = some s') : s'.Sound ∧ s'.task.session = s.task.session := by
  cases tick with
  | collect exports room =>
    obtain ⟨hsound, htask⟩ := collect_sound h hstep
    exact ⟨hsound, by rw [htask]⟩
  | readClock now =>
    obtain ⟨hsound, htask⟩ := readClock_sound h hepoch hstep
    exact ⟨hsound, by rw [htask]⟩
  | fetch => exact fetch_sound h hstep

/-! ## Every interleaving of ticks -/

theorem sound_run {ticks : List Tick} (h : s.Sound) (hepoch : ∀ tick ∈ ticks, AfterEpoch tick)
    (hrun : exec (step go) s ticks = some s') : s'.Sound ∧ s'.task.session = s.task.session := by
  induction ticks generalizing s with
  | nil =>
    obtain rfl := Option.some.inj hrun
    exact ⟨h, rfl⟩
  | cons tick ticks ih =>
    obtain ⟨t, ht, hrest⟩ := Option.bind_eq_some_iff.mp hrun
    obtain ⟨hsound, hsession⟩ := sound_step h (hepoch tick List.mem_cons_self) ht
    obtain ⟨hsound', hsession'⟩ := ih hsound
      (fun tick' htick' => hepoch tick' (List.mem_cons_of_mem tick htick')) hrest
    exact ⟨hsound', hsession'.trans hsession⟩

/-- **Every record is counted once.**  However the ticks of the engine and of the task interleave:
what the queries have returned, taken together, are the records exported so far that pass the
session's filter, are not older than its start and lie before `lastStatTime`, each as often as it
was exported.  So if no two records are alike, no query returns a record twice and no two queries
return the same one. -/
theorem counted_once (go : Runtime) (defaultCapacity : Nat) (capacity : Int) (session : Session)
    (clock : Int) {ticks : List Tick} (hepoch : ∀ tick ∈ ticks, AfterEpoch tick)
    (hrun : exec (step go) (opened defaultCapacity capacity session clock) ticks = some s) :
    s.results.flatten.Perm (s.collected.filter fun b => (ReportTask.start session).filter b &&
      (decide (session.start ≤ b.collectTime) && decide (b.collectTime < s.task.lastStatTime))) ∧
    (s.collected.Nodup →
      (∀ found ∈ s.results, found.Nodup) ∧ s.results.Pairwise List.Disjoint) := by
  obtain ⟨hsound, hsession⟩ := sound_run (opened_sound _ _ _ _) hepoch hrun
  have hcounted := hsound.counted
  have hdue : due s.task = due (ReportTask.start session) := due_congr hsession
  rw [hdue] at hcounted
  refine ⟨hcounted, ?_⟩
  intro hdistinct
  exact List.nodup_flatten.mp (hcounted.nodup_iff.mpr (hdistinct.filter _))

/-- A session without a filter. -/
def sessionFrom (start : Int) : Session := ⟨start, 0, "", "", []⟩

/-- Records of two collectors and a task whose first query finds nothing. -/
def morning : List Tick :=
  [.readClock 10, .fetch, .collect [(12, [FileEngine.recordAt 0]), (13, [FileEngine.recordAt 0])] 0,
    .readClock 13, .fetch, .collect [(15, []), (15, [FileEngine.recordAt 0])] 0, .readClock 20,
    .fetch]

theorem counted_once_morning :
    ∃ s, exec (step FileEngine.insertionRuntime) (opened 4000 0 (sessionFrom 5) 5) morning = some s ∧
      s.results.flatten.Perm (s.collected.filter fun b =>
        (ReportTask.start (sessionFrom 5)).filter b &&
          (decide (5 ≤ b.collectTime) && decide (b.collectTime < s.task.lastStatTime))) := by
  have hrun : exec (step FileEngine.insertionRuntime) (opened 4000 0 (sessionFrom 5) 5) morning =
    some ((exec (step FileEngine.insertionRuntime) (opened 4000 0 (sessionFrom 5) 5) morning).get
      rfl) := rfl
  refine ⟨_, hrun, (counted_once _ _ _ _ _ ?_ hrun).1⟩
  simp [morning, AfterEpoch]

/-- A clock that stands at zero: the window of the first query has no upper end, so it takes the
record of that second, and the next query takes it again. -/
theorem epoch_counted_twice :
    ∃ s, exec (step FileEngine.insertionRuntime) (opened 4000 0 (sessionFrom 0) 0)
        [.collect [(0, [FileEngine.recordAt 0])] 0, .readClock 0, .fetch, .readClock 1, .fetch] =
          some s ∧
      s.collected = [FileEngine.recordAt 0] ∧
      s.results = [[FileEngine.recordAt 0], [FileEngine.recordAt 0]] :=
  ⟨_, rfl, rfl, rfl⟩

end Watch

end Accumulation.Report
