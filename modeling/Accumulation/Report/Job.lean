/-
# Accumulation.Report.Job — the report job over any store.

`BandwidthReportJob` keeps requests in three tiers: the ring that is reported from, the store, and
the slice `tmp` that collects what goes to the store next.  The flag `dataBuffOnly` decides which
tier a new request enters.  The job's functions are translated over an abstract `ReportStore`, so
that the same text runs on the bytes of a `FileStore`, on its `RecordLog` and on a plain queue; a
call of the store may panic, which is the `none` of all functions here.

Each function has one lemma that says what it does to the tiers.
-/
import Accumulation.Report.RingBuff
import Accumulation.Store.RecordLog

namespace Accumulation.Report

open Accumulation.Go Accumulation.Store

/-- The calls the job makes on its store. -/
class ReportStore (σ α : Type*) where
  store : σ → List α → Option (Option Err × σ)
  load : σ → Int → Option ((List α × Option Err) × σ)
  truncate : σ → List α → List α → Option (Option Err × σ)

/-- `BandwidthReportJob`.  The ring holds pointers, of which `none` is `nil`. -/
structure Job (σ α : Type*) where
  isRunnable : Bool
  ringBuff : RingBuff (Option α)
  tmp : List α
  dataBuffOnly : Bool
  store : σ

namespace Job

variable {σ α : Type*}

/-- `BufLen`, which is also what the ring is made with. -/
def bufLen (job : Job σ α) : Nat := job.ringBuff.capacity

/-- `NewBandwidthReportJob` with a store. -/
def newJob (bufLen : Nat) (store : σ) : Job σ α :=
  ⟨false, RingBuff.newRingBuff bufLen, [], false, store⟩

variable [ReportStore σ α]

omit [ReportStore σ α] in
/-- The condition at the head of `doAdd`: the ring is tried if the data is in it only, or if it is
forced. -/
def tryEnqueue (job : Job σ α) (req : α) (forceAdd : Bool) : Bool × Job σ α :=
  if job.dataBuffOnly || forceAdd then
    match job.ringBuff.enqueue (some req) with
    | (ok, ringBuff) => (ok, { job with ringBuff })
  else (false, job)

/-- The rest of `doAdd`: collect the request in `tmp` and write a full `tmp` to the store.  If that
fails `tmp` is kept. -/
def spill (job : Job σ α) (req : α) : Option (Job σ α) :=
  let tmp := job.tmp ++ [req]
  if job.bufLen ≤ tmp.length then
    match ReportStore.store job.store tmp with
    | none => none
    | some (some _, store) => some { job with tmp, store, dataBuffOnly := false }
    | some (none, store) => some { job with tmp := [], store, dataBuffOnly := false }
  else some { job with tmp, dataBuffOnly := false }

def doAdd (job : Job σ α) (req : α) (forceAdd : Bool) : Option (Job σ α) :=
  match job.tryEnqueue req forceAdd with
  | (true, job) => some job
  | (false, job) => job.spill req

/-- `doAdd(req, true)` for each request of a slice. -/
def addAll (job : Job σ α) : List α → Option (Job σ α)
  | [] => some job
  | req :: reqs => (job.doAdd req true).bind fun job => job.addAll reqs

/-- The loop of `tryLoadData` over `tmp`: the requests still to come and the index reached. -/
def drainTmp (job : Job σ α) : List α → Nat → Option (Job σ α)
  | [], _ => some { job with tmp := [], dataBuffOnly := true }
  | t :: ts, index =>
    if 0 < job.ringBuff.surplusCount then
      (job.doAdd t true).bind fun job => job.drainTmp ts (index + 1)
    else some { job with tmp := job.tmp.drop index }

/-- `tryLoadData`: fill the ring from the store first and then from `tmp`. -/
def tryLoadData (job : Job σ α) : Option (Job σ α) :=
  if job.ringBuff.surplusCount = 0 then some job
  else
    match ReportStore.load job.store (job.ringBuff.surplusCount : Int) with
    | none => none
    -- an error is logged, and what was loaded is used
    | some ((reqs, _), store) =>
      (addAll { job with store } reqs).bind fun job => job.drainTmp job.tmp 0

/-- `Start` up to the point where the reporting loop is spawned. -/
def start (job : Job σ α) : Option (Option Err × Job σ α) :=
  let job := { job with isRunnable := true }
  match ReportStore.load job.store (job.bufLen : Int) with
  | none => none
  | some ((_, some e), store) => some (some e, { job with store })
  | some ((reqs, none), store) =>
    (addAll { job with store } reqs).map fun job =>
      (none, if 0 < job.ringBuff.surplusCount then { job with dataBuffOnly := true } else job)

/-- `Stop`.  The ring never holds `nil`, so its snapshot loses nothing to `reduceOption`; errors of
`Truncate` are dropped. -/
def stop (job : Job σ α) : Option (Job σ α) :=
  let job := { job with isRunnable := false }
  let surplus := job.ringBuff.surplus
  (ReportStore.truncate job.store surplus.reduceOption job.tmp).map fun (_, store) =>
    { job with store }

/-! ## What the functions do to the tiers -/

omit [ReportStore σ α] in
/-- The requests in the ring, in the order in which they will be reported. -/
def queued (job : Job σ α) : List α := job.ringBuff.surplus.reduceOption

/-- The ring of the job holds the requests `reqs` and no `nil`. -/
def Rings (ringBuff : RingBuff (Option α)) (bufLen : Nat) (reqs : List α) : Prop :=
  ringBuff.surplus = reqs.map some ∧ ringBuff.capacity = bufLen

section Ring

variable {ringBuff : RingBuff (Option α)} {bufLen : Nat} {reqs : List α}

theorem newRingBuff_rings (bufLen : Nat) :
    Rings (RingBuff.newRingBuff bufLen : RingBuff (Option α)) bufLen [] :=
  ⟨rfl, rfl⟩

theorem Rings.reduceOption (h : Rings ringBuff bufLen reqs) :
    ringBuff.surplus.reduceOption = reqs := by
  rw [h.1, List.reduceOption, List.filterMap_map]
  exact List.filterMap_some

theorem Rings.size (h : Rings ringBuff bufLen reqs) : ringBuff.size = reqs.length := by
  rw [← ringBuff.length_surplus, h.1, List.length_map]

theorem Rings.length_le (h : Rings ringBuff bufLen reqs) : reqs.length ≤ bufLen := by
  rw [← h.size, ← h.2]
  exact ringBuff.size_le

theorem Rings.surplusCount (h : Rings ringBuff bufLen reqs) :
    ringBuff.surplusCount = bufLen - reqs.length := by
  rw [← h.size, ← h.2]
  rfl

theorem Rings.current (h : Rings ringBuff bufLen reqs) : ringBuff.current = reqs.head? := by
  rw [ringBuff.current_eq, h.1]
  cases reqs <;> rfl

theorem Rings.dequeue (h : Rings ringBuff bufLen reqs) :
    Rings ringBuff.dequeue.2 bufLen reqs.tail :=
  ⟨by rw [ringBuff.surplus_dequeue, h.1, List.map_tail], by rw [ringBuff.capacity_dequeue, h.2]⟩

theorem Rings.enqueue (h : Rings ringBuff bufLen reqs) (req : α) (hroom : reqs.length < bufLen) :
    (ringBuff.enqueue (some req)).1 = true ∧
      Rings (ringBuff.enqueue (some req)).2 bufLen (reqs ++ [req]) := by
  obtain ⟨hok, hsurplus⟩ := ringBuff.enqueue_room (some req) (by rw [h.size, h.2]; exact hroom)
  exact ⟨hok, by rw [hsurplus, h.1, List.map_append]; rfl,
    by rw [ringBuff.capacity_enqueue, h.2]⟩

theorem Rings.enqueue_full (h : Rings ringBuff bufLen reqs) (req : α)
    (hfull : ¬ reqs.length < bufLen) : ringBuff.enqueue (some req) = (false, ringBuff) := by
  have := h.length_le
  exact ringBuff.enqueue_full _ (by rw [h.size, h.2]; omega)

end Ring

section Tiers

variable {job : Job σ α} {len : Nat} {reqs : List α}

omit [ReportStore σ α] in
/-- A request enters the ring if the ring is open to it and has room; otherwise nothing changes. -/
theorem tryEnqueue_spec (h : Rings job.ringBuff len reqs) (req : α) (forceAdd : Bool) :
    (reqs.length < len ∧ (job.dataBuffOnly || forceAdd) = true ∧ ∃ ringBuff,
      job.tryEnqueue req forceAdd = (true, { job with ringBuff }) ∧
      Rings ringBuff len (reqs ++ [req])) ∨
    (job.tryEnqueue req forceAdd = (false, job) ∧
      ((job.dataBuffOnly || forceAdd) = true → reqs.length = len)) := by
  unfold tryEnqueue
  by_cases hopen : (job.dataBuffOnly || forceAdd) = true
  · rw [if_pos hopen]
    by_cases hroom : reqs.length < len
    · obtain ⟨hok, hrings⟩ := h.enqueue req hroom
      refine Or.inl ⟨hroom, hopen, _, ?_, hrings⟩
      rw [← Prod.mk.eta (p := job.ringBuff.enqueue (some req)), hok]
    · have := h.length_le
      exact Or.inr ⟨by rw [h.enqueue_full req hroom], fun _ => by omega⟩
  · rw [if_neg hopen]
    exact Or.inr ⟨rfl, fun hcon => absurd hcon hopen⟩

/-- A forced request enters a ring with room. -/
theorem doAdd_room (h : Rings job.ringBuff len reqs) (req : α) (hroom : reqs.length < len) :
    ∃ ringBuff, job.doAdd req true = some { job with ringBuff } ∧
      Rings ringBuff len (reqs ++ [req]) := by
  rcases tryEnqueue_spec h req true with ⟨-, -, ringBuff, henq, hrings⟩ | ⟨-, hfull⟩
  · exact ⟨ringBuff, by rw [doAdd, henq], hrings⟩
  · have := hfull (Bool.or_true _)
    omega

/-- **Forced requests that fit all enter the ring**, and touch nothing else. -/
theorem addAll_spec (more : List α) (h : Rings job.ringBuff len reqs)
    (hroom : reqs.length + more.length ≤ len) :
    ∃ ringBuff, job.addAll more = some { job with ringBuff } ∧
      Rings ringBuff len (reqs ++ more) := by
  induction more generalizing job reqs with
  | nil => exact ⟨job.ringBuff, rfl, by simpa using h⟩
  | cons req more ih =>
    rw [List.length_cons] at hroom
    obtain ⟨ringBuff, hadd, hrings⟩ := doAdd_room h req (by omega)
    have hrest : Rings ({ job with ringBuff } : Job σ α).ringBuff len (reqs ++ [req]) := hrings
    obtain ⟨ringBuff', hall, hrings'⟩ := ih hrest
      (by rw [List.length_append, List.length_singleton]; omega)
    refine ⟨ringBuff', by rw [addAll, hadd]; exact hall, ?_⟩
    rwa [List.append_assoc, List.singleton_append] at hrings'

/-- **The loop over `tmp`** moves requests into the ring while there is room.  If all of `ts` fits,
`tmp` is cleared and the data is in the ring only; otherwise `tmp` is cut at the first request that
did not fit. -/
theorem drainTmp_spec (ts : List α) (index : Nat) (h : Rings job.ringBuff len reqs) :
    ∃ ringBuff, Rings ringBuff len (reqs ++ ts.take (len - reqs.length)) ∧
      job.drainTmp ts index =
        if ts.length ≤ len - reqs.length then
          some { job with ringBuff, tmp := [], dataBuffOnly := true }
        else some { job with ringBuff, tmp := job.tmp.drop (index + (len - reqs.length)) } := by
  induction ts generalizing job reqs index with
  | nil => exact ⟨job.ringBuff, by simpa using h, by simp [drainTmp]⟩
  | cons t ts ih =>
    rw [drainTmp, h.surplusCount]
    by_cases hroom : reqs.length < len
    · obtain ⟨ringBuff, hadd, hrings⟩ := doAdd_room h t hroom
      have hrest : Rings ({ job with ringBuff } : Job σ α).ringBuff len (reqs ++ [t]) := hrings
      obtain ⟨ringBuff', hrings', hdrain⟩ := ih (index + 1) hrest
      have hone : len - reqs.length = (len - (reqs ++ [t]).length) + 1 := by
        rw [List.length_append, List.length_singleton]
        omega
      refine ⟨ringBuff', ?_, ?_⟩
      · rw [hone, List.take_succ_cons]
        rwa [List.append_assoc, List.singleton_append] at hrings'
      · rw [if_pos (by omega), hadd, Option.bind_some, hdrain, List.length_cons, hone]
        simp only [Nat.add_le_add_iff_right]
        rw [show index + 1 + (len - (reqs ++ [t]).length)
          = index + (len - (reqs ++ [t]).length + 1) by omega]
    · have hzero : len - reqs.length = 0 := by omega
      refine ⟨job.ringBuff, by simpa [hzero] using h, ?_⟩
      rw [if_neg (by omega), if_neg (by rw [hzero, List.length_cons]; omega), hzero, Nat.add_zero]

/-- **What `tryLoadData` does**, given what the store loads: the ring takes what was loaded and then
as much of `tmp` as fits, and the data counts as being in the ring only when all of `tmp` did. -/
theorem tryLoadData_spec (h : Rings job.ringBuff len reqs) (hroom : reqs.length < len)
    {loaded : List α} {err : Option Err} {store : σ}
    (hload : ReportStore.load job.store ((len - reqs.length : Nat) : Int) =
      some ((loaded, err), store))
    (hfit : loaded.length ≤ len - reqs.length) :
    ∃ ringBuff, Rings ringBuff len
        (reqs ++ loaded ++ job.tmp.take (len - (reqs ++ loaded).length)) ∧
      job.tryLoadData = some { job with
        ringBuff, store
        tmp := job.tmp.drop (len - (reqs ++ loaded).length)
        dataBuffOnly := job.dataBuffOnly ||
          decide (job.tmp.length ≤ len - (reqs ++ loaded).length) } := by
  have hreloaded : Rings ({ job with store } : Job σ α).ringBuff len reqs := h
  obtain ⟨ringBuff, hadd, hrings⟩ := addAll_spec loaded hreloaded (by omega)
  have hadded : Rings ({ job with ringBuff, store } : Job σ α).ringBuff len (reqs ++ loaded) :=
    hrings
  obtain ⟨ringBuff', hrings', hdrain⟩ := drainTmp_spec job.tmp 0 hadded
  refine ⟨ringBuff', hrings', ?_⟩
  rw [tryLoadData, h.surplusCount, if_neg (by omega), hload]
  simp only [hadd, Option.bind_some, hdrain]
  split
  · rename_i hall
    rw [List.drop_eq_nil_of_le hall, decide_eq_true hall, Bool.or_true]
  · rename_i hall
    rw [decide_eq_false hall, Bool.or_false, Nat.zero_add]

/-- With a full ring `tryLoadData` does nothing. -/
theorem tryLoadData_full (h : Rings job.ringBuff len reqs) (hfull : ¬ reqs.length < len) :
    job.tryLoadData = some job := by
  rw [tryLoadData, h.surplusCount, if_pos (by omega)]

/-- **What `Start` does** to a new job, given what the store loads. -/
theorem start_spec {store store' : σ} {loaded : List α}
    (hload : ReportStore.load store (len : Int) = some ((loaded, none), store'))
    (hfit : loaded.length ≤ len) :
    ∃ ringBuff, Rings ringBuff len loaded ∧ (newJob len store : Job σ α).start =
      some (none, ⟨true, ringBuff, [], decide (loaded.length < len), store'⟩) := by
  have hnew : Rings (⟨true, RingBuff.newRingBuff len, [], false, store'⟩ : Job σ α).ringBuff len
      [] := newRingBuff_rings len
  obtain ⟨ringBuff, hadd, hrings⟩ := addAll_spec loaded hnew (by simpa using hfit)
  refine ⟨ringBuff, hrings, ?_⟩
  rw [start]
  simp only [newJob, bufLen, RingBuff.capacity_newRingBuff, hload, hadd, Option.map_some,
    Rings.surplusCount hrings, List.nil_append]
  by_cases hroom : loaded.length < len
  · rw [if_pos (by omega), decide_eq_true hroom]
  · rw [if_neg (by omega), decide_eq_false hroom]

end Tiers

end Job

end Accumulation.Report
