/-
# Accumulation.Report.FailedStart — an initialization in which a collector does not start.

`World.initialization` says in one step what an initialization comes to.  Here it is gone through as
the code has it: the engine is made, the collectors are started one after another until one fails,
and a deferred function stops what has been made.  It stops every collector, started or not, and
then the engine, whose cron is only made by the engine's own `Start`: the deferred function panics.
So a failed start never returns its error (`failedStart_panics`), although it leaves nothing running
and the manager as it was.
-/
import Accumulation.Report.OneEngine

namespace Accumulation.Report

open Accumulation.Model

/-! ## One attempt -/

/-- `BandwidthCollector`: its filter, whether its handle is open and whether it reads packets. -/
structure CollectorCell where
  bpfFilter : String
  handle : Bool
  isRunning : Bool
  deriving DecidableEq

/-- What `pcap` answers to a `Start`: `OpenLive` fails, `SetBPFFilter` fails, or neither does. -/
inductive Live
  | noDevice
  | noFilter
  | capture
  deriving DecidableEq

def Live.starts : Live → Bool
  | .capture => true
  | _ => false

namespace CollectorCell

/-- `NewBandwidthCollector` -/
def new (bpfFilter : String) : CollectorCell := ⟨bpfFilter, false, false⟩

/-- `Start`, with whether it returns nil.  A handle whose filter is refused stays open. -/
def start (tc : CollectorCell) : Live → Bool × CollectorCell
  | .noDevice => (false, { tc with handle := false })
  | .noFilter =>
    if 0 < tc.bpfFilter.length then (false, { tc with handle := true })
    else (true, { tc with handle := true, isRunning := true })
  | .capture => (true, { tc with handle := true, isRunning := true })

/-- `Stop`, which is legal for a collector that was not started. -/
def stop (tc : CollectorCell) : CollectorCell := { tc with handle := false, isRunning := false }

end CollectorCell

/-- The loop over the collectors, which ends with the first that does not start. -/
def startAll : List (CollectorCell × Live) → Bool × List CollectorCell
  | [] => (true, [])
  | (tc, live) :: rest =>
    match tc.start live with
    | (false, tc) => (false, tc :: rest.map Prod.fst)
    | (true, tc) => ((startAll rest).1, tc :: (startAll rest).2)

/-- `fileEngine.Stop`, on the engine's cron; without one it is a call on a nil pointer. -/
def stopEngine : Option Bool → Outcome × Option Bool
  | none => (.panic, none)
  | some _ => (.ok, some false)

/-- What an initialization has made: its collectors, and its engine with the cron of it. -/
structure Attempt where
  collectors : List CollectorCell
  storeEngine : Option (Option Bool)

namespace Attempt

/-- The deferred function, after an error. -/
def cleanUp (a : Attempt) : Outcome × Attempt :=
  let collectors := a.collectors.map CollectorCell.stop
  match a.storeEngine with
  | none => (.err, ⟨collectors, none⟩)
  | some cron =>
    match stopEngine cron with
    | (.ok, cron) => (.err, ⟨collectors, some cron⟩)
    | (failed, cron) => (failed, ⟨collectors, some cron⟩)

def defaultBpfFilter : String := "udp or tcp"

/-- `initialization` without the manager's fields.  `devices` is what `buildBandwidthCollector`
finds, `none` for an error, with the answer to the `Start` of each. -/
def run (bpfFilter : String) (devices : Option (List Live)) : Outcome × Attempt :=
  let bpfFilter := if bpfFilter.length = 0 then defaultBpfFilter else bpfFilter
  match devices with
  | none => cleanUp ⟨[], none⟩
  | some lives =>
    match startAll (lives.map fun live => (CollectorCell.new bpfFilter, live)) with
    | (false, collectors) => cleanUp ⟨collectors, some none⟩
    | (true, collectors) => (.ok, ⟨collectors, some (some true)⟩)

end Attempt

/-! ## The loop -/

/-- With a filter, a collector starts if neither call of `pcap` fails. -/
theorem start_fst {tc : CollectorCell} (hfilter : 0 < tc.bpfFilter.length) (live : Live) :
    (tc.start live).1 = live.starts := by
  cases live with
  | noDevice => rfl
  | noFilter =>
    rw [CollectorCell.start, if_pos hfilter]
    rfl
  | capture => rfl

theorem startAll_cons (tc : CollectorCell) (live : Live) (rest : List (CollectorCell × Live)) :
    startAll ((tc, live) :: rest) =
      if (tc.start live).1 then ((startAll rest).1, (tc.start live).2 :: (startAll rest).2)
      else (false, (tc.start live).2 :: rest.map Prod.fst) := by
  simp only [startAll]
  split
  next h => rw [h]; rfl
  next h => rw [h]; rfl

variable {bpfFilter : String}

/-- **The loop** starts all collectors if each of them starts. -/
theorem startAll_fst (hfilter : 0 < bpfFilter.length) (lives : List Live) :
    (startAll (lives.map fun live => (CollectorCell.new bpfFilter, live))).1 =
      lives.all Live.starts := by
  induction lives with
  | nil => rfl
  | cons live lives ih =>
    rw [List.map_cons, startAll_cons, start_fst hfilter, List.all_cons]
    cases live.starts with
    | false => rfl
    | true => exact ih

/-- It leaves as many collectors as it was given, -/
theorem length_startAll (cells : List (CollectorCell × Live)) :
    (startAll cells).2.length = cells.length := by
  induction cells with
  | nil => rfl
  | cons cell cells ih =>
    rw [startAll_cons]
    split
    · exact congrArg Nat.succ ih
    · rw [List.length_cons, List.length_map, List.length_cons]

/-- and if they have all been started, they all run. -/
theorem isRunning_startAll {cells : List (CollectorCell × Live)} (h : (startAll cells).1 = true) :
    (startAll cells).2.map CollectorCell.isRunning = List.replicate cells.length true := by
  induction cells with
  | nil => rfl
  | cons cell cells ih =>
    rcases cell with ⟨tc, live⟩
    rw [startAll_cons] at h ⊢
    split at h
    next hstart =>
      rw [if_pos hstart, List.map_cons, ih h, List.length_cons, List.replicate_succ]
      congr 1
      cases live with
      | noDevice => cases hstart
      | noFilter =>
        rw [CollectorCell.start] at hstart ⊢
        split at hstart
        next => cases hstart
        next hempty => rw [if_neg hempty]
      | capture => rfl
    next => cases h

/-- `initialization` never takes the empty filter. -/
theorem filter_length_pos (bpfFilter : String) :
    0 < (if bpfFilter.length = 0 then Attempt.defaultBpfFilter else bpfFilter).length := by
  split
  next => decide
  next h => omega

/-- **An attempt in which every collector starts.** -/
theorem run_ok (bpfFilter : String) {lives : List Live} (h : lives.all Live.starts = true) :
    ∃ collectors, Attempt.run bpfFilter (some lives) = (.ok, ⟨collectors, some (some true)⟩) ∧
      collectors.map CollectorCell.isRunning = List.replicate lives.length true := by
  have hall := startAll_fst (filter_length_pos bpfFilter) lives
  rw [h] at hall
  have hrunning := isRunning_startAll hall
  rw [List.length_map] at hrunning
  refine ⟨_, ?_, hrunning⟩
  rw [Attempt.run]
  generalize startAll _ = r at hall ⊢
  obtain ⟨success, collectors⟩ := r
  obtain rfl : success = true := hall
  rfl

/-- **An attempt in which one does not**: all collectors are closed, and then the deferred function
stops an engine that has no cron. -/
theorem run_failed (bpfFilter : String) {lives : List Live} (h : lives.all Live.starts = false) :
    ∃ collectors, Attempt.run bpfFilter (some lives) = (.panic, ⟨collectors, some none⟩) ∧
      collectors.length = lives.length ∧
      ∀ tc ∈ collectors, tc.handle = false ∧ tc.isRunning = false := by
  have hall := startAll_fst (filter_length_pos bpfFilter) lives
  rw [h] at hall
  have hlength := length_startAll (lives.map fun live =>
    (CollectorCell.new (if bpfFilter.length = 0 then Attempt.defaultBpfFilter else bpfFilter),
      live))
  rw [List.length_map] at hlength
  rw [Attempt.run]
  generalize startAll _ = r at hall hlength ⊢
  obtain ⟨success, collectors⟩ := r
  obtain rfl : success = false := hall
  refine ⟨collectors.map CollectorCell.stop, rfl, by rw [List.length_map]; exact hlength, ?_⟩
  intro tc htc
  rcases List.mem_map.mp htc with ⟨tc, -, rfl⟩
  exact ⟨rfl, rfl⟩

/-- An attempt without devices to look at. -/
theorem run_none (bpfFilter : String) : Attempt.run bpfFilter none = (.err, ⟨[], none⟩) := rfl

/-! ## The attempt and the manager -/

namespace World

/-- `initialization`, with what the attempt has made on the heap. -/
def attempt (w : World) (r : Outcome × Attempt) : Outcome × World :=
  let made := { w with
    collectors := w.collectors ++ r.2.collectors.map CollectorCell.isRunning
    engines := w.engines ++ r.2.storeEngine.toList }
  match r.1 with
  | .ok => (.ok, { made with
      manager.collectors := List.range' w.collectors.length r.2.collectors.length
      manager.engine := some w.engines.length })
  | failed => (failed, made)

/-- The first part of `StartReport`, before it takes the mutex. -/
def stopped (w : World) (session : Session) : Outcome × World :=
  match w.manager.tasks.lookup session.sessionKey with
  | none => (.ok, w)
  | some pointer => w.stop pointer

/-- `StartReport`, with the initialization gone through. -/
def startReportOn (w : World) (session : Session) (bpfFilter : String)
    (devices : Option (List Live)) : Outcome × World :=
  match w.stopped session with
  | (.ok, w) =>
    match if w.manager.collectors.length = 0 then w.attempt (Attempt.run bpfFilter devices)
      else (.ok, w) with
    | (.ok, w) => (.ok, w.addTask session)
    | failed => failed
  | failed => failed

variable {w : World}

theorem map_isRunning_closed {collectors : List CollectorCell}
    (h : ∀ tc ∈ collectors, tc.handle = false ∧ tc.isRunning = false) :
    collectors.map CollectorCell.isRunning = List.replicate collectors.length false := by
  rw [List.eq_replicate_iff, List.length_map]
  refine ⟨rfl, ?_⟩
  intro running hrunning
  rcases List.mem_map.mp hrunning with ⟨tc, htc, rfl⟩
  exact (h tc htc).2

/-- **The step of the manager's model** is what the attempt comes to. -/
theorem attempt_run (w : World) (bpfFilter : String) (devices : Option (List Live)) :
    w.attempt (Attempt.run bpfFilter devices) =
      w.initialization (devices.map (List.map Live.starts)) := by
  cases devices with
  | none =>
    rw [run_none]
    show (_, { w with collectors := w.collectors ++ [], engines := w.engines ++ [] }) = (_, w)
    rw [List.append_nil, List.append_nil]
  | some lives =>
    have hall : (lives.map Live.starts).all (fun success => success) = lives.all Live.starts := by
      rw [List.all_map]
      rfl
    rw [Option.map_some, initialization]
    cases hlives : lives.all Live.starts with
    | true =>
      rcases run_ok bpfFilter hlives with ⟨collectors, hrun, hrunning⟩
      have hlength : collectors.length = lives.length := by
        have := congrArg List.length hrunning
        rwa [List.length_map, List.length_replicate] at this
      rw [hrun, if_pos (hall.trans hlives), attempt]
      simp only [hrunning, hlength, List.length_map]
      rfl
    | false =>
      rcases run_failed bpfFilter hlives with ⟨collectors, hrun, hlength, hclosed⟩
      have hneg : ¬(lives.map Live.starts).all (fun success => success) = true := by
        rw [hall, hlives]
        exact Bool.false_ne_true
      rw [hrun, if_neg hneg, attempt]
      simp only [map_isRunning_closed hclosed, hlength, List.length_map]
      rfl

/-- `StartReport` of the manager's model. -/
theorem startReportOn_eq (w : World) (session : Session) (bpfFilter : String)
    (devices : Option (List Live)) : w.startReportOn session bpfFilter devices =
      w.startReport session (devices.map (List.map Live.starts)) := by
  have hsection : ∀ w : World, (match
      if w.manager.collectors.length = 0 then w.attempt (Attempt.run bpfFilter devices)
        else (.ok, w) with
      | (.ok, w) => (.ok, w.addTask session)
      | failed => failed) = w.register session (devices.map (List.map Live.starts)) := by
    intro w
    rw [attempt_run]
    rfl
  rw [startReportOn, startReport, stopped]
  cases w.manager.tasks.lookup session.sessionKey with
  | none => exact hsection w
  | some pointer =>
    dsimp only
    rcases w.stop pointer with ⟨outcome, w'⟩
    cases outcome with
    | ok => exact hsection w'
    | err => rfl
    | panic => rfl

/-! ## A failed start -/

/-- What a failed start should leave of the world in which its initialization began: the manager and
the tasks as they were, nothing of the attempt running, and a manager that can initialise anew. -/
structure Unchanged (before after : World) : Prop where
  manager : after.manager = before.manager
  heap : after.heap = before.heap
  collectors : ∀ i, before.collectors.length ≤ i → after.collectors[i]? ≠ some true
  engines : ∀ i, before.engines.length ≤ i → after.engines[i]? ≠ some (some true)
  again : ∀ (session : Session) bpfFilter lives,
    after.manager.tasks.lookup session.sessionKey = none → lives.all Live.starts = true →
    ∃ w, after.startReportOn session bpfFilter (some lives) = (.ok, w) ∧
      w.manager.engine = some after.engines.length ∧
      w.engines[after.engines.length]? = some (some true) ∧
      w.manager.collectors = List.range' after.collectors.length lives.length ∧
      ∀ pointer ∈ w.manager.collectors, w.collectors[pointer]? = some true

/-- A failed start returns its error and leaves the world as it was. -/
def FailsCleanly (before : World) (r : Outcome × World) : Prop :=
  r.1 = .err ∧ Unchanged before r.2

/-- A manager without collectors initialises if they all start. -/
theorem startReportOn_ok {session : Session}
    (hnone : w.manager.tasks.lookup session.sessionKey = none)
    (hinit : w.manager.collectors = []) (bpfFilter : String) {lives : List Live}
    (hlives : lives.all Live.starts = true) :
    ∃ w', w.startReportOn session bpfFilter (some lives) = (.ok, w') ∧
      w'.manager.engine = some w.engines.length ∧
      w'.engines[w.engines.length]? = some (some true) ∧
      w'.manager.collectors = List.range' w.collectors.length lives.length ∧
      ∀ pointer ∈ w'.manager.collectors, w'.collectors[pointer]? = some true := by
  rcases run_ok bpfFilter hlives with ⟨collectors, hrun, hrunning⟩
  have hlength : collectors.length = lives.length := by
    have := congrArg List.length hrunning
    rwa [List.length_map, List.length_replicate] at this
  refine ⟨addTask { w with
    manager.collectors := List.range' w.collectors.length collectors.length
    manager.engine := some w.engines.length
    collectors := w.collectors ++ collectors.map CollectorCell.isRunning
    engines := w.engines ++ [some true] } session, ?_, ?_⟩
  · rw [startReportOn, stopped, hnone]
    dsimp only
    rw [if_pos (by rw [hinit]; rfl), hrun]
    rfl
  · refine ⟨rfl, List.getElem?_concat_length, ?_, ?_⟩
    · show List.range' _ collectors.length = _
      rw [hlength]
    · intro pointer hpointer
      obtain ⟨hlow, hhigh⟩ := List.mem_range'_1.mp hpointer
      show (w.collectors ++ collectors.map CollectorCell.isRunning)[pointer]? = _
      rw [hrunning, List.getElem?_append_right hlow, List.getElem?_replicate, if_pos (by omega)]

/-- **A failed start panics.**  Whatever collectors the attempt has started before one of them
fails, the world is left as it was, but the call ends with the panic of the deferred function. -/
theorem failedStart_panics (w before : World) (session : Session) (bpfFilter : String)
    (lives : List Live) (hbefore : w.stopped session = (.ok, before))
    (hinit : before.manager.collectors = []) (hfails : ∃ live ∈ lives, live.starts = false) :
    (w.startReportOn session bpfFilter (some lives)).1 = .panic ∧
      Unchanged before (w.startReportOn session bpfFilter (some lives)).2 ∧
      ¬FailsCleanly before (w.startReportOn session bpfFilter (some lives)) := by
  have hlives : lives.all Live.starts = false := by
    rw [List.all_eq_false]
    rcases hfails with ⟨live, hlive, hstarts⟩
    exact ⟨live, hlive, by rw [hstarts]; exact Bool.false_ne_true⟩
  rcases run_failed bpfFilter hlives with ⟨collectors, hrun, -, hclosed⟩
  have hresult : w.startReportOn session bpfFilter (some lives) = (.panic, { before with
      collectors := before.collectors ++ List.replicate collectors.length false
      engines := before.engines ++ [none] }) := by
    rw [startReportOn, hbefore]
    dsimp only
    rw [if_pos (by rw [hinit]; rfl), hrun, ← map_isRunning_closed hclosed]
    rfl
  rw [hresult]
  refine ⟨rfl, ⟨rfl, rfl, ?_, ?_, ?_⟩, ?_⟩
  · intro i hi hrunning
    change (before.collectors ++ List.replicate collectors.length false)[i]? = some true at hrunning
    rw [List.getElem?_append_right hi] at hrunning
    exact nomatch (List.eq_of_mem_replicate (List.mem_of_getElem? hrunning))
  · intro i hi hrunning
    change (before.engines ++ [none])[i]? = some (some true) at hrunning
    rw [List.getElem?_append_right hi] at hrunning
    exact nomatch (List.mem_singleton.mp (List.mem_of_getElem? hrunning))
  · intro session' bpfFilter' lives' hnone hlives'
    exact startReportOn_ok hnone hinit bpfFilter' hlives'
  · rintro ⟨hreturns, -⟩
    cases hreturns

/-- Two devices; the capture starts on the first, and the second cannot be opened. -/
theorem failedStart_panics_two :
    (newManager.startReportOn ⟨0, 7, "vm", "", []⟩ "" (some [.capture, .noDevice])).1 = .panic ∧
      Unchanged newManager
        (newManager.startReportOn ⟨0, 7, "vm", "", []⟩ "" (some [.capture, .noDevice])).2 ∧
      ¬FailsCleanly newManager
        (newManager.startReportOn ⟨0, 7, "vm", "", []⟩ "" (some [.capture, .noDevice])) :=
  failedStart_panics newManager newManager ⟨0, 7, "vm", "", []⟩ "" [.capture, .noDevice] rfl rfl
    ⟨.noDevice, by decide, rfl⟩

/-- One device that cannot be opened. -/
theorem noDevice_not_failsCleanly :
    (newManager.startReportOn ⟨0, 7, "vm", "", []⟩ "" (some [.noDevice])).1 = .panic ∧
      ¬FailsCleanly newManager
        (newManager.startReportOn ⟨0, 7, "vm", "", []⟩ "" (some [.noDevice])) := by
  refine ⟨rfl, ?_⟩
  rintro ⟨hreturns, -⟩
  cases hreturns

end World

end Accumulation.Report
