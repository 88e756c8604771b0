/-
# Accumulation.Report.JobStop — stopping the report job while its loop is still running.

`Stop` clears the flag, takes a snapshot of the ring, writes snapshot, unread records and `tmp` to
the file and closes it.  `Add` and `tryLoadData` hold `job.mutex`, `Stop` does not, so the steps of
one iteration of `loopReport` that had already begun fall anywhere between the steps of `Stop`.

`kept` is what the file will hold if `Stop` goes on alone.  A report and its `Dequeue` cannot harm
it: at worst a reported request is kept as well.  A `tryLoadData` can, in two ways: after the
snapshot it moves requests out of the file and `tmp` into a ring nobody reads again, and after
`Truncate` its compaction may drop what it has loaded.  `nothingLost_iff_noLateLoad` says that these
are the only two.
-/
import Accumulation.Lib.Run
import Accumulation.Report.Job
import Accumulation.Report.Tiers

namespace Accumulation.Report

open Accumulation.Go Accumulation.Store Accumulation.Lib.Run

variable {α : Type*}

/-- The job runs on the records of its file. -/
instance [Serialization α] : ReportStore (RecordLog α) α where
  store log reqs := some (none, log.store reqs)
  load log rows := some (((log.load rows.toNat).1, none), (log.load rows.toNat).2)
  truncate log before after := some (none, log.truncate before after)

/-- The steps of `Stop`. -/
inductive StopPc (α : Type*)
  | begun
  | cleared
  | snapshot (surplus : List α)
  | truncated
  | closed

/-- The steps of an iteration of `loopReport`. -/
inductive LoopPc (α : Type*)
  | top
  | reporting (req : α)
  | dequeuing (req : α)
  | loading
  | finished

/-- Who takes the next step; if it is the loop and its report returns, with which outcome. -/
inductive Turn
  | stop
  | loop (ok : Bool)

/-- A job that is being stopped while an iteration of its loop runs. -/
structure Stopping (α : Type*) where
  job : Job (RecordLog α) α
  stop : StopPc α
  loop : LoopPc α
  /-- what the iteration has reported -/
  reported : List α

namespace Stopping

variable [Serialization α]

def stopStep (s : Stopping α) : Option (Stopping α) :=
  match s.stop with
  | .begun => some { s with job.isRunnable := false, stop := .cleared }
  | .cleared => some { s with stop := .snapshot s.job.ringBuff.surplus.reduceOption }
  | .snapshot surplus =>
    (ReportStore.truncate s.job.store surplus s.job.tmp).map fun (_, store) =>
      { s with job.store := store, stop := .truncated }
  | .truncated => some { s with stop := .closed }
  | .closed => none

def loopStep (s : Stopping α) (ok : Bool) : Option (Stopping α) :=
  match s.loop with
  | .top =>
    match s.job.ringBuff.current with
    | some req => some { s with loop := .reporting req }
    | none => some { s with loop := .loading }
  | .reporting req =>
    if ok then some { s with loop := .dequeuing req, reported := s.reported ++ [req] }
    else some { s with loop := .finished }
  | .dequeuing _ =>
    some { s with job.ringBuff := s.job.ringBuff.dequeue.2, loop := .finished }
  | .loading => s.job.tryLoadData.map fun job => { s with job, loop := .finished }
  | .finished => none

/-- The run is followed until `Stop` returns. -/
def step (s : Stopping α) (turn : Turn) : Option (Stopping α) :=
  match s.stop, turn with
  | .closed, _ => none
  | _, .stop => s.stopStep
  | _, .loop ok => s.loopStep ok

/-- What the file will hold if `Stop` goes on alone. -/
def kept (s : Stopping α) : List α :=
  match s.stop with
  | .begun | .cleared => s.job.queued ++ s.job.store.pending ++ s.job.tmp
  | .snapshot surplus => surplus ++ s.job.store.pending ++ s.job.tmp
  | .truncated | .closed => s.job.store.disk

/-- Everything the job has accepted and not taken out of the ring. -/
def waiting (s : Stopping α) : List α := s.job.queued ++ s.job.store.pending ++ s.job.tmp

/-- What an iteration that has come this far has reported, and what it knows about the ring. -/
def LoopOk (s : Stopping α) : Prop :=
  match s.loop with
  | .top | .loading => s.reported = []
  | .reporting req => s.reported = [] ∧ s.job.queued.head? = some req
  | .dequeuing req => s.reported = [req] ∧ s.job.queued.head? = some req
  | .finished => True

/-- `Stop` begins, and an iteration of the loop has come anywhere. -/
structure Begun (s : Stopping α) : Prop where
  rings : Job.Rings s.job.ringBuff s.job.bufLen s.job.queued
  stop : s.stop = .begun
  loop : s.LoopOk
  running : s.loop ≠ .finished

/-- **Nothing is lost**: each request of `waiting` that the iteration has not reported is in the
file, as often as it was waiting. -/
def NothingLost (waiting : List α) (s : Stopping α) : Prop :=
  waiting.Subperm (s.job.store.disk ++ s.reported)

/-- A `tryLoadData` moves nothing between the snapshot and `Truncate`, and drops nothing from the
file after `Truncate`. -/
def NoLateLoad (s : Stopping α) : Turn → Prop
  | .stop => True
  | .loop _ => s.loop = .loading →
    match s.stop with
    | .snapshot _ =>
      s.job.ringBuff.surplusCount = 0 ∨ s.job.store.pending = [] ∧ s.job.tmp = []
    | .truncated =>
      s.job.ringBuff.surplusCount = 0 ∨
        (FileStore.bytesOf (s.job.store.disk.take
          (s.job.store.moved s.job.ringBuff.surplusCount))).length ≤ cleanOffsetThreshold
    | _ => True

/-! ## One step -/

/-- As long as the iteration runs, what is kept is what was waiting; when it has finished, what was
waiting is kept or reported. -/
def Sound (waiting : List α) (s : Stopping α) : Prop :=
  Job.Rings s.job.ringBuff s.job.bufLen s.job.queued ∧ s.LoopOk ∧
    (s.loop ≠ .finished → s.kept.Perm waiting) ∧
    (s.loop = .finished → waiting.Subperm (s.kept ++ s.reported))

/-- The iteration has finished and something is missing. -/
def Missing (waiting : List α) (s : Stopping α) : Prop :=
  s.loop = .finished ∧ (s.kept ++ s.reported).length < waiting.length

variable {s s' : Stopping α} {waiting : List α}

/-- A step of `Stop` changes neither what is kept nor the ring. -/
theorem stopStep_spec (h : s.stopStep = some s') :
    s'.kept = s.kept ∧ s'.job.ringBuff = s.job.ringBuff ∧ s'.loop = s.loop ∧
      s'.reported = s.reported := by
  simp only [stopStep] at h
  split at h <;> rename_i hstop
  · obtain rfl := Option.some.inj h
    exact ⟨by simp only [kept, hstop]; rfl, rfl, rfl, rfl⟩
  · obtain rfl := Option.some.inj h
    exact ⟨by simp only [kept, hstop]; rfl, rfl, rfl, rfl⟩
  · obtain rfl := Option.some.inj h
    exact ⟨by simp only [kept, hstop]; rfl, rfl, rfl, rfl⟩
  · obtain rfl := Option.some.inj h
    exact ⟨by simp only [kept, hstop], rfl, rfl, rfl⟩
  · nomatch h

theorem step_cases {turn : Turn} (h : s.step turn = some s') :
    s.stop ≠ .closed ∧ ((turn = .stop ∧ s.stopStep = some s') ∨
      ∃ ok, turn = .loop ok ∧ s.loopStep ok = some s') := by
  simp only [step] at h
  split at h
  · nomatch h
  · rename_i hstop
    exact ⟨fun hcon => hstop hcon, Or.inl ⟨rfl, h⟩⟩
  · rename_i ok hstop
    exact ⟨fun hcon => hstop hcon, Or.inr ⟨ok, rfl, h⟩⟩

omit [Serialization α] in
theorem rings_of {job : Job (RecordLog α) α} {len : Nat} {reqs : List α}
    (h : Job.Rings job.ringBuff len reqs) :
    Job.Rings job.ringBuff job.bufLen job.queued ∧ job.queued = reqs := by
  have hqueued : job.queued = reqs := h.reduceOption
  have hlen : job.bufLen = len := h.2
  exact ⟨by rw [hqueued, hlen]; exact h, hqueued⟩

/-- `tryLoadData` does nothing with a full ring; otherwise it moves records of the log and then
requests of `tmp` into the ring. -/
theorem tryLoadData_log {job job' : Job (RecordLog α) α}
    (h : Job.Rings job.ringBuff job.bufLen job.queued) (hload : job.tryLoadData = some job') :
    (job.ringBuff.surplusCount = 0 ∧ job' = job) ∨
    ∃ n m, n = job.ringBuff.surplusCount ∧ 0 < n ∧ m = n - (job.store.pending.take n).length ∧
      Job.Rings job'.ringBuff job.bufLen
        (job.queued ++ job.store.pending.take n ++ job.tmp.take m) ∧
      job'.store = (job.store.load n).2 ∧ job'.tmp = job.tmp.drop m := by
  have hle := h.length_le
  rw [h.surplusCount]
  by_cases hroom : job.queued.length < job.bufLen
  · refine Or.inr ⟨_, _, rfl, by omega, rfl, ?_⟩
    have hlog : ReportStore.load job.store ((job.bufLen - job.queued.length : Nat) : Int) =
        some (((job.store.load (job.bufLen - job.queued.length)).1, none),
          (job.store.load (job.bufLen - job.queued.length)).2) := rfl
    obtain ⟨ringBuff, hrings, htry⟩ := Job.tryLoadData_spec h hroom hlog (List.length_take_le _ _)
    obtain rfl := Option.some.inj (htry.symm.trans hload)
    have hrest : job.bufLen - (job.queued ++ (job.store.load
        (job.bufLen - job.queued.length)).1).length = job.bufLen - job.queued.length -
        (job.store.pending.take (job.bufLen - job.queued.length)).length := by
      rw [List.length_append, Nat.sub_add_eq]
      rfl
    rw [hrest] at hrings ⊢
    refine ⟨hrings, ?_, ?_⟩
    · dsimp only
    · dsimp only
  · refine Or.inl ⟨by omega, ?_⟩
    rw [Job.tryLoadData_full h hroom] at hload
    exact (Option.some.inj hload).symm

/-- A compaction after `Truncate` drops records from the file. -/
theorem load_drops (log : RecordLog α) (n : Nat)
    (h : cleanOffsetThreshold < (FileStore.bytesOf (log.disk.take (log.moved n))).length) :
    (log.load n).2.disk.length < log.disk.length := by
  have hne : log.disk.take (log.moved n) ≠ [] := by
    intro hnil
    rw [hnil] at h
    exact absurd h (Nat.not_lt_zero _)
  have hpos := List.length_pos_iff.mpr hne
  rw [List.length_take] at hpos
  simp only [RecordLog.load, if_pos h, RecordLog.ofDisk, List.length_drop]
  omega

/-- **The load of the iteration.**  Taken under its condition it leaves what is kept as it is up to
order; otherwise something is missing. -/
theorem load_kept {job' : Job (RecordLog α) α}
    (hrings : Job.Rings s.job.ringBuff s.job.bufLen s.job.queued) (hloop : s.loop = .loading)
    (hopen : s.stop ≠ .closed) (hload : s.job.tryLoadData = some job') (ok : Bool) :
    Job.Rings job'.ringBuff job'.bufLen job'.queued ∧
    (NoLateLoad s (.loop ok) → ({ s with job := job', loop := .finished }.kept).Perm s.kept) ∧
    (¬ NoLateLoad s (.loop ok) →
      ({ s with job := job', loop := .finished }.kept).length < s.kept.length) := by
  rcases tryLoadData_log hrings hload with ⟨hfull, rfl⟩ | ⟨n, m, hn, hpos, hm, hrings', hstore, htmp⟩
  · refine ⟨hrings, fun _ => List.Perm.refl _, fun hcon => absurd (fun _ => ?_) hcon⟩
    split
    · exact Or.inl hfull
    · exact Or.inl hfull
    · trivial
  · obtain ⟨hok, hqueued⟩ := rings_of hrings'
    refine ⟨hok, ?_⟩
    have hpending : job'.store.pending = s.job.store.pending.drop n := by
      rw [hstore, RecordLog.pending_load]
    have hmoves : (job'.queued ++ job'.store.pending ++ job'.tmp).Perm
        (s.job.queued ++ s.job.store.pending ++ s.job.tmp) := by
      rw [hqueued, hpending, htmp]
      exact Tiers.load_perm _ _ _ _ _
    cases hstop : s.stop with
    | begun | cleared =>
      simp only [kept, hstop]
      refine ⟨fun _ => hmoves, fun hcon => absurd (fun _ => ?_) hcon⟩
      rw [hstop]
      trivial
    | closed => exact absurd hstop hopen
    | snapshot surplus =>
      simp only [kept, hstop, NoLateLoad, hloop, true_imp_iff, ← hn]
      rw [hpending, htmp]
      refine ⟨fun hC => ?_, fun hcon => ?_⟩
      · obtain ⟨hpending, htmp⟩ := hC.resolve_left (by omega)
        rw [hpending, htmp, List.drop_nil, List.drop_nil]
      · rw [not_or, not_and_or, ← List.length_eq_zero_iff, ← List.length_eq_zero_iff] at hcon
        obtain ⟨-, hcon⟩ := hcon
        rw [List.length_take] at hm
        simp only [List.length_append, List.length_drop]
        omega
    | truncated =>
      simp only [kept, hstop, NoLateLoad, hloop, true_imp_iff, ← hn, hstore]
      refine ⟨fun hC => ?_, fun hcon => ?_⟩
      · have hsmall := hC.resolve_left (by omega)
        simp only [RecordLog.load, if_neg (Nat.not_lt.mpr hsmall)]
        rfl
      · rw [not_or, Nat.not_le] at hcon
        exact load_drops _ _ hcon.2

theorem sound_stop (h : s.Sound waiting) (hstep : s.stopStep = some s') : s'.Sound waiting := by
  obtain ⟨hkept, hring, hloop, hreported⟩ := stopStep_spec hstep
  simp only [Sound, LoopOk, Job.bufLen, Job.queued, hkept, hring, hloop, hreported] at h ⊢
  exact h

theorem missing_stop (h : s.Missing waiting) (hstep : s.stopStep = some s') :
    s'.Missing waiting := by
  obtain ⟨hkept, -, hloop, hreported⟩ := stopStep_spec hstep
  rw [Missing, hkept, hloop, hreported]
  exact h

omit [Serialization α] in
/-- A `Dequeue` takes out of what is kept at most the request it takes out of the ring. -/
theorem dequeue_kept {req : α} (hrings : Job.Rings s.job.ringBuff s.job.bufLen s.job.queued)
    (hhead : s.job.queued.head? = some req) :
    s.kept.Subperm
      ({ s with job.ringBuff := s.job.ringBuff.dequeue.2, loop := .finished }.kept ++ [req]) := by
  have hqueued : ({ s.job with ringBuff := s.job.ringBuff.dequeue.2 } :
      Job (RecordLog α) α).queued = s.job.queued.tail := (rings_of hrings.dequeue).2
  have hmove : (s.job.queued ++ s.job.store.pending ++ s.job.tmp).Perm
      (s.job.queued.tail ++ s.job.store.pending ++ s.job.tmp ++ [req]) := by
    have hcons := List.cons_head?_tail hhead
    rw [← hcons, List.tail_cons, List.cons_append, List.cons_append]
    exact (List.perm_append_singleton req _).symm
  cases hstop : s.stop with
  | begun | cleared =>
    simp only [kept, hstop, hqueued]
    exact hmove.subperm
  | snapshot | truncated | closed =>
    simp only [kept, hstop]
    exact (List.sublist_append_left _ _).subperm

/-- **One step of the loop.** -/
theorem sound_loop (h : s.Sound waiting) (hopen : s.stop ≠ .closed) {ok : Bool}
    (hstep : s.loopStep ok = some s') :
    (NoLateLoad s (.loop ok) → s'.Sound waiting) ∧
      (¬ NoLateLoad s (.loop ok) → s'.Missing waiting) := by
  obtain ⟨hrings, hok, hkept, -⟩ := h
  -- only a load can be late
  have hother : s.loop ≠ .loading → s'.Sound waiting →
      (NoLateLoad s (.loop ok) → s'.Sound waiting) ∧
        (¬ NoLateLoad s (.loop ok) → s'.Missing waiting) :=
    fun hne hsound => ⟨fun _ => hsound, fun hcon => absurd (fun hload => absurd hload hne) hcon⟩
  cases hloop : s.loop with
  | top =>
    have hperm := hkept (by simp [hloop])
    simp only [LoopOk, hloop] at hok
    refine hother (by simp [hloop]) ?_
    simp only [loopStep, hloop, hrings.current] at hstep
    split at hstep
    · rename_i req hhead
      obtain rfl := Option.some.inj hstep
      exact ⟨hrings, ⟨hok, hhead⟩, fun _ => hperm, fun hcon => nomatch hcon⟩
    · obtain rfl := Option.some.inj hstep
      exact ⟨hrings, hok, fun _ => hperm, fun hcon => nomatch hcon⟩
  | reporting req =>
    have hperm := hkept (by simp [hloop])
    simp only [LoopOk, hloop] at hok
    obtain ⟨hnone, hhead⟩ := hok
    refine hother (by simp [hloop]) ?_
    simp only [loopStep, hloop] at hstep
    split at hstep
    · obtain rfl := Option.some.inj hstep
      refine ⟨hrings, ⟨?_, hhead⟩, fun _ => hperm, fun hcon => nomatch hcon⟩
      rw [hnone, List.nil_append]
    · obtain rfl := Option.some.inj hstep
      refine ⟨hrings, trivial, fun hcon => absurd rfl hcon, fun _ => ?_⟩
      exact hperm.symm.subperm.trans (List.sublist_append_left _ _).subperm
  | dequeuing req =>
    have hperm := hkept (by simp [hloop])
    simp only [LoopOk, hloop] at hok
    obtain ⟨hone, hhead⟩ := hok
    refine hother (by simp [hloop]) ?_
    simp only [loopStep, hloop] at hstep
    obtain rfl := Option.some.inj hstep
    refine ⟨(rings_of hrings.dequeue).1, trivial, fun hcon => absurd rfl hcon, fun _ => ?_⟩
    rw [hone]
    exact hperm.symm.subperm.trans (dequeue_kept hrings hhead)
  | loading =>
    have hperm := hkept (by simp [hloop])
    simp only [LoopOk, hloop] at hok
    simp only [loopStep, hloop] at hstep
    obtain ⟨job', hload, rfl⟩ := Option.map_eq_some_iff.mp hstep
    obtain ⟨hrings', hinTime, hlate⟩ := load_kept hrings hloop hopen hload ok
    refine ⟨fun hC => ?_, fun hC => ?_⟩
    · refine ⟨hrings', trivial, fun hcon => absurd rfl hcon, fun _ => ?_⟩
      rw [hok, List.append_nil]
      exact ((hinTime hC).trans hperm).symm.subperm
    · refine ⟨rfl, ?_⟩
      rw [hok, List.append_nil, ← hperm.length_eq]
      exact hlate hC
  | finished =>
    simp only [loopStep, hloop] at hstep
    nomatch hstep

/-- What is missing stays missing: the iteration has nothing left to do. -/
theorem missing_step {turn : Turn} (h : s.Missing waiting) (hstep : s.step turn = some s') :
    s'.Missing waiting := by
  obtain ⟨-, ⟨rfl, hstop⟩ | ⟨ok, rfl, hloop⟩⟩ := step_cases hstep
  · exact missing_stop h hstop
  · simp only [loopStep, h.1] at hloop
    nomatch hloop

/-- **One step of either side.** -/
theorem sound_step {turn : Turn} (h : s.Sound waiting) (hstep : s.step turn = some s') :
    (NoLateLoad s turn → s'.Sound waiting) ∧ (¬ NoLateLoad s turn → s'.Missing waiting) := by
  obtain ⟨hopen, ⟨rfl, hstop⟩ | ⟨ok, rfl, hloop⟩⟩ := step_cases hstep
  · exact ⟨fun _ => sound_stop h hstop, fun hcon => absurd trivial hcon⟩
  · exact sound_loop h hopen hloop

omit [Serialization α] in
theorem not_missing_of_sound (h : s.Sound waiting) : ¬ s.Missing waiting := by
  rintro ⟨hloop, hlen⟩
  have := (h.2.2.2 hloop).length_le
  omega

/-! ## Every interleaving -/

omit [Serialization α] in
theorem begun_sound (h : s.Begun) : s.Sound s.waiting := by
  refine ⟨h.rings, h.loop, fun _ => ?_, fun hcon => absurd hcon h.running⟩
  simp only [kept, h.stop]
  exact List.Perm.refl _

omit [Serialization α] in
/-- When `Stop` has returned, what is kept is in the file. -/
theorem nothingLost_of_sound (h : s.Sound waiting) (hclosed : s.stop = .closed) :
    NothingLost waiting s := by
  obtain ⟨-, -, hkept, hfinished⟩ := h
  simp only [kept, hclosed] at hkept hfinished
  by_cases hloop : s.loop = .finished
  · exact hfinished hloop
  · exact (hkept hloop).symm.subperm.trans (List.sublist_append_left _ _).subperm

omit [Serialization α] in
theorem not_nothingLost_of_missing (h : s.Missing waiting) (hclosed : s.stop = .closed) :
    ¬ NothingLost waiting s := by
  intro hcon
  have hle := List.Subperm.length_le hcon
  have hlt := h.2
  simp only [kept, hclosed] at hlt
  omega

/-- **Every interleaving.**  When `Stop` has returned, each request that was waiting when it began
and has not been reported is in the file, if and only if the iteration's `tryLoadData` neither moved
anything between the snapshot and `Truncate` nor dropped anything from the file after it. -/
theorem nothingLost_iff_noLateLoad {s₀ s : Stopping α} (hbegun : s₀.Begun) {turns : List Turn}
    (hrun : exec step s₀ turns = some s) (hclosed : s.stop = .closed) :
    Along step NoLateLoad s₀ turns ↔ NothingLost s₀.waiting s := by
  have hsound := begun_sound hbegun
  constructor
  · intro h
    have hinv := always_of_along (fun s turn s' hs hC hstep => (sound_step hs hstep).1 hC) hsound h
    exact nothingLost_of_sound (hinv.last hrun) hclosed
  · intro h
    have hstep : ∀ (s : Stopping α) (turn : Turn) (s' : Stopping α),
        s.Sound s₀.waiting ∨ s.Missing s₀.waiting → s.step turn = some s' →
        s'.Sound s₀.waiting ∨ s'.Missing s₀.waiting := by
      rintro s turn s' (hs | hs) hstep
      · by_cases hC : NoLateLoad s turn
        · exact Or.inl ((sound_step hs hstep).1 hC)
        · exact Or.inr ((sound_step hs hstep).2 hC)
      · exact Or.inr (missing_step hs hstep)
    have heither := always_of_step hstep turns (Or.inl hsound)
    have hstays : ∀ (s : Stopping α) (turn : Turn) (s' : Stopping α),
        s.Missing s₀.waiting → s.step turn = some s' → s'.Missing s₀.waiting :=
      fun _ _ _ => missing_step
    have hnever := always_not_of_last hstays hrun
      fun hmissing => not_nothingLost_of_missing hmissing hclosed h
    have hboth := (heither.and hnever).mono fun s hs => hs.1.resolve_right hs.2
    refine along_of_always (fun s turn s' hs hstep hs' => ?_) hrun hboth
    by_contra hC
    exact not_missing_of_sound hs' ((sound_step hs hstep).2 hC)

/-- Alone, the four steps of `Stop` are `Job.stop`, and they write everything in its order. -/
theorem stop_alone (h : s.Begun) : ∃ job s', s.job.stop = some job ∧
    exec step s [.stop, .stop, .stop, .stop] = some s' ∧ s'.stop = .closed ∧ s'.job = job ∧
    s'.job.store.disk = s.waiting := by
  obtain ⟨job, stop, loop, reported⟩ := s
  obtain rfl : stop = .begun := h.stop
  exact ⟨_, _, rfl, rfl, rfl, rfl, rfl⟩

/-- The ring is empty and one request is in the file.  The loop has seen the empty ring, `Stop`
takes its snapshot, the loop loads the request, and `Truncate` then finds nothing to write. -/
def lateLoad : Stopping UInt8 where
  job := ⟨true, RingBuff.newRingBuff 1, [], false, RecordLog.ofDisk [7]⟩
  stop := .begun
  loop := .loading
  reported := []

theorem lateLoad_lost : lateLoad.Begun ∧
    ∃ s, exec step lateLoad [.stop, .stop, .loop true, .stop, .stop] = some s ∧
      s.stop = .closed ∧ lateLoad.waiting = [7] ∧ s.job.store.disk = [] ∧ s.reported = [] ∧
      ¬ NothingLost lateLoad.waiting s := by
  refine ⟨⟨⟨rfl, rfl⟩, rfl, rfl, by simp [lateLoad]⟩,
    (exec step lateLoad [.stop, .stop, .loop true, .stop, .stop]).get rfl, rfl, rfl, rfl, rfl, rfl,
    fun h => ?_⟩
  exact absurd h.length_le (by decide)

theorem nothingLost_iff_noLateLoad_early :
    ∃ s, exec step lateLoad [.stop, .loop true, .stop, .stop, .stop] = some s ∧
      (Along step NoLateLoad lateLoad [.stop, .loop true, .stop, .stop, .stop] ↔
        NothingLost lateLoad.waiting s) := by
  have hbegun : lateLoad.Begun := ⟨⟨rfl, rfl⟩, rfl, rfl, by simp [lateLoad]⟩
  have hrun : exec step lateLoad [.stop, .loop true, .stop, .stop, .stop] =
    some ((exec step lateLoad [.stop, .loop true, .stop, .stop, .stop]).get rfl) := rfl
  exact ⟨_, hrun, nothingLost_iff_noLateLoad hbegun hrun rfl⟩

end Stopping

end Accumulation.Report
