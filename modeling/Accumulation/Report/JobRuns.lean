/-
# Accumulation.Report.JobRuns — runs of a started report job.

A `System` is a job together with the calls on it that are under way.  Its actions run the source's
own functions; the store is a first-in first-out file whose `Store` writes everything or fails and
writes nothing.  `step_tiers` shows that every action does to the tiers what `Tiers.Step` says, and
the results about whole runs follow from the invariants there.

No request is lost or reported twice, whatever is forced and whatever fails
(`conserved_of_run`).  The order is another matter: it holds in exactly the runs in which every
`tryLoadData` finds the ring full, something in `tmp`, or no more in the file than fits
(`inOrder_iff_loadsInOrder`), and `overtaken` is a run in which one does not.
-/
import Accumulation.Lib.Run
import Accumulation.Report.Job
import Accumulation.Report.Tiers

namespace Accumulation.Report

open Accumulation.Go Accumulation.Store Accumulation.Lib.Run

/-- A store that is an exact queue. -/
structure FifoStore (α : Type*) where
  unread : List α
  /-- whether the next `Store` fails -/
  failing : Bool

variable {α : Type*}

instance : ReportStore (FifoStore α) α where
  store s reqs :=
    some (if s.failing then (some .io, s) else (none, { s with unread := s.unread ++ reqs }))
  load s rows :=
    some ((s.unread.take rows.toNat, none), { s with unread := s.unread.drop rows.toNat })
  truncate s before after := some (none, { s with unread := before ++ s.unread ++ after })

/-- A started job, the `Add` that holds its mutex, the report that is under way, and what went in
and out so far. -/
structure System (α : Type*) where
  job : Job (FifoStore α) α
  adding : Option α
  reporting : Option α
  accepted : List α
  reported : List α

namespace System

/-- `Start` on a file that holds `file`, which then counts as accepted. -/
def started (bufLen : Nat) (file : List α) : Option (System α) :=
  ((Job.newJob bufLen ⟨file, false⟩ : Job (FifoStore α) α).start).map fun (_, job) =>
    ⟨job, none, none, file, []⟩

def step (s : System α) : Action α → Option (System α)
  | .add req forceAdd =>
    if s.adding.isSome then none
    else match s.job.tryEnqueue req forceAdd with
      | (true, job) => some { s with job, accepted := s.accepted ++ [req] }
      | (false, job) => some { s with job, adding := some req, accepted := s.accepted ++ [req] }
  | .spill storeFails =>
    match s.adding with
    | none => none
    | some req =>
      ({ s.job with store.failing := storeFails }.spill req).map fun job =>
        { s with job, adding := none }
  | .current =>
    if s.reporting.isSome then none else some { s with reporting := s.job.ringBuff.current }
  | .reportOk =>
    match s.reporting with
    | none => none
    | some req => some { s with
        job.ringBuff := s.job.ringBuff.dequeue.2
        reported := s.reported ++ [req]
        reporting := none }
  | .reportFailed =>
    match s.reporting with
    | none => none
    | some _ => some { s with reporting := none }
  | .tryLoadData =>
    -- the mutex, and the loop runs one thing at a time
    if s.adding.isSome || s.reporting.isSome then none
    else s.job.tryLoadData.map fun job => { s with job }

/-- `job.mutex` is free. -/
def MutexFree (s : System α) : Prop := s.adding = none

def tiers (s : System α) : Tiers α where
  accepted := s.accepted
  reported := s.reported
  ring := s.job.queued
  unread := s.job.store.unread
  tmp := s.job.tmp
  adding := s.adding
  reporting := s.reporting
  dataBuffOnly := s.job.dataBuffOnly

/-- The ring has `len` cells and holds no `nil`. -/
def RingOk (len : Nat) (s : System α) : Prop := Job.Rings s.job.ringBuff len s.job.queued

theorem ringOk_of {len : Nat} {s : System α} {reqs : List α}
    (h : Job.Rings s.job.ringBuff len reqs) :
    s.RingOk len ∧ s.tiers = { s.tiers with ring := reqs } := by
  have hqueued : s.job.queued = reqs := h.reduceOption
  refine ⟨by rw [RingOk, hqueued]; exact h, ?_⟩
  rw [← hqueued]
  rfl

theorem fifo_load (file : FifoStore α) (rows : Nat) : ReportStore.load file (rows : Int) =
    some ((file.unread.take rows, none), { file with unread := file.unread.drop rows }) := rfl

/-- **`Start`**: the first requests of the file are in the ring, the rest stays in the file, and the
data is in the ring only if the ring could hold more. -/
theorem started_spec (bufLen : Nat) (file : List α) :
    ∃ s, System.started bufLen file = some s ∧ s.RingOk bufLen ∧
      s.tiers = ⟨file, [], file.take bufLen, file.drop bufLen, [], none, none,
        decide ((file.take bufLen).length < bufLen)⟩ := by
  obtain ⟨ringBuff, hrings, hstart⟩ := Job.start_spec (fifo_load ⟨file, false⟩ bufLen)
    (List.length_take_le _ _)
  refine ⟨_, by rw [System.started, hstart]; rfl, ?_⟩
  exact ringOk_of hrings

/-- `spill` writes a full `tmp` to a store that does not fail and keeps it otherwise. -/
theorem spill_spec (job : Job (FifoStore α) α) (req : α) (storeFails : Bool) :
    ({ job with store.failing := storeFails }.spill req = some { job with
        tmp := job.tmp ++ [req], dataBuffOnly := false, store.failing := storeFails } ∧
      (storeFails = true ∨ (job.tmp ++ [req]).length < job.bufLen)) ∨
    ({ job with store.failing := storeFails }.spill req = some { job with
        tmp := [], dataBuffOnly := false
        store := ⟨job.store.unread ++ (job.tmp ++ [req]), storeFails⟩ } ∧
      storeFails = false ∧ job.bufLen ≤ (job.tmp ++ [req]).length) := by
  simp only [Job.spill, ReportStore.store]
  split
  · rename_i hfull
    cases storeFails with
    | true => exact Or.inl ⟨rfl, Or.inl rfl⟩
    | false => exact Or.inr ⟨rfl, rfl, hfull⟩
  · rename_i hfull
    exact Or.inl ⟨rfl, Or.inr (Nat.not_le.mp hfull)⟩

variable {len : Nat} {s s' : System α} {a : Action α}

theorem refines {reqs : List α} (hrings : Job.Rings s'.job.ringBuff len reqs)
    (hstep : Tiers.Step len s.tiers a { s'.tiers with ring := reqs }) :
    s'.RingOk len ∧ Tiers.Step len s.tiers a s'.tiers := by
  obtain ⟨hok, htiers⟩ := ringOk_of hrings
  exact ⟨hok, htiers ▸ hstep⟩

/-- **The job refines its tiers**: every action moves the requests as `Tiers.Step` says. -/
theorem step_tiers (h : s.RingOk len) (hstep : s.step a = some s') :
    s'.RingOk len ∧ Tiers.Step len s.tiers a s'.tiers := by
  cases a with
  | add req forceAdd =>
    simp only [step] at hstep
    split at hstep
    · nomatch hstep
    · rename_i hfree
      have hfree : s.adding = none := Option.not_isSome_iff_eq_none.mp hfree
      rcases Job.tryEnqueue_spec h req forceAdd with
        ⟨hroom, hopen, ringBuff, henq, hrings⟩ | ⟨henq, hclosed⟩
      · rw [henq] at hstep
        obtain rfl := Option.some.inj hstep
        exact refines hrings (.enqueue req forceAdd hfree hroom hopen)
      · rw [henq] at hstep
        obtain rfl := Option.some.inj hstep
        exact ⟨h, .refuse req forceAdd hfree hclosed⟩
  | spill storeFails =>
    simp only [step] at hstep
    split at hstep
    · nomatch hstep
    · rename_i req hadding
      have hcap : s.job.bufLen = len := h.2
      rcases spill_spec s.job req storeFails with ⟨hspill, hkeep⟩ | ⟨hspill, rfl, hfull⟩
      · rw [hspill] at hstep
        obtain rfl := Option.some.inj hstep
        exact ⟨h, .keep req storeFails hadding (hcap ▸ hkeep)⟩
      · rw [hspill] at hstep
        obtain rfl := Option.some.inj hstep
        exact ⟨h, .flush req hadding (hcap ▸ hfull)⟩
  | current =>
    simp only [step] at hstep
    split at hstep
    · nomatch hstep
    · rename_i hidle
      obtain rfl := Option.some.inj hstep
      refine ⟨h, ?_⟩
      rw [tiers]
      simp only [Job.Rings.current h]
      exact .current (Option.not_isSome_iff_eq_none.mp hidle)
  | reportOk =>
    simp only [step] at hstep
    split at hstep
    · nomatch hstep
    · rename_i req hreporting
      obtain rfl := Option.some.inj hstep
      exact refines h.dequeue (.reportOk req hreporting)
  | reportFailed =>
    simp only [step] at hstep
    split at hstep
    · nomatch hstep
    · rename_i req hreporting
      obtain rfl := Option.some.inj hstep
      exact ⟨h, .reportFailed req hreporting⟩
  | tryLoadData =>
    simp only [step] at hstep
    split at hstep
    · nomatch hstep
    · rename_i hidle
      rw [Bool.not_eq_true, Bool.or_eq_false_iff, Option.isSome_eq_false_iff,
        Option.isSome_eq_false_iff, Option.isNone_iff_eq_none, Option.isNone_iff_eq_none] at hidle
      obtain ⟨hfree, hidle⟩ := hidle
      by_cases hroom : s.job.queued.length < len
      · obtain ⟨ringBuff, hrings, hload⟩ := Job.tryLoadData_spec h hroom
          (fifo_load s.job.store _) (List.length_take_le _ _)
        rw [hload] at hstep
        obtain rfl := Option.some.inj hstep
        exact refines hrings (.load hfree hidle hroom)
      · rw [Job.tryLoadData_full h hroom] at hstep
        obtain rfl := Option.some.inj hstep
        exact ⟨h, .loadFull hfree hidle hroom⟩

/-! ## No request is lost or reported twice -/

theorem accepted_of_run {as : List (Action α)} (hok : s.RingOk len)
    (hrun : exec step s as = some s') :
    s'.accepted = s.accepted ++ as.filterMap Action.added := by
  induction as generalizing s with
  | nil =>
    obtain rfl := Option.some.inj hrun
    exact (List.append_nil _).symm
  | cons a as ih =>
    obtain ⟨t, ht, hrest⟩ := Option.bind_eq_some_iff.mp hrun
    obtain ⟨hok', hstep⟩ := step_tiers hok ht
    have hadded : t.accepted = s.accepted ++ a.added.toList := Tiers.accepted_step hstep
    rw [ih hok' hrest, hadded, List.append_assoc]
    cases hreq : a.added <;> simp [hreq]

/-- Where `Start` leaves the job every request of the file is in its place. -/
theorem started_inOrder {bufLen : Nat} {file : List α} {s₀ : System α}
    (hstart : started bufLen file = some s₀) :
    s₀.RingOk bufLen ∧ s₀.tiers.InOrder ∧ s₀.accepted = file := by
  obtain ⟨s, hs, hok, htiers⟩ := started_spec bufLen file
  obtain rfl := Option.some.inj (hs.symm.trans hstart)
  refine ⟨hok, ?_, congrArg Tiers.accepted htiers⟩
  rw [htiers]
  refine ⟨fun req hreq => (Option.some_ne_none req hreq.symm).elim, ?_, fun hopen => ⟨?_, rfl⟩⟩
  · simp only [List.nil_append, List.take_append_drop, Option.toList_none, List.append_nil]
  · have hopen := of_decide_eq_true hopen
    rw [List.length_take] at hopen
    exact List.drop_eq_nil_of_le (by omega)

theorem conserved_of_inOrder {t : Tiers α} (h : t.InOrder) : t.Conserved :=
  ⟨h.1, by rw [h.2.1]⟩

/-- **No request is lost or reported twice.**  Whatever is forced, and whichever reports and stores
fail: when the mutex is free, the requests found in the file and those handed to `Add` are, each as
often as it came in, those reported, in the ring, in the file or in `tmp`.  And a request whose
report failed is the one that is reported next. -/
theorem conserved_of_run {bufLen : Nat} {file : List α} {s₀ : System α}
    (hstart : started bufLen file = some s₀) {as : List (Action α)}
    (hrun : exec step s₀ as = some s) :
    (s.MutexFree → (s.reported ++ s.job.queued ++ s.job.store.unread ++ s.job.tmp).Perm
      (file ++ as.filterMap Action.added)) ∧
    ∀ s', s.step .reportFailed = some s' →
      ∃ req, s.reporting = some req ∧ s'.job.ringBuff.current = some req := by
  obtain ⟨hok, horder, haccepted⟩ := started_inOrder hstart
  have hinv : Always step (fun s => s.RingOk bufLen ∧ s.tiers.Conserved) s₀ as := by
    refine always_of_step (fun s a s' hI hs' => ?_) as ⟨hok, conserved_of_inOrder horder⟩
    obtain ⟨hok', hstep⟩ := step_tiers hI.1 hs'
    exact ⟨hok', Tiers.conserved_step hI.2 hstep⟩
  have hadded := accepted_of_run hok hrun
  obtain ⟨hok, hhead, hperm⟩ := hinv.last hrun
  refine ⟨fun hfree => ?_, fun s' hs' => ?_⟩
  · rw [← haccepted, ← hadded]
    have hfree : s.tiers.adding = none := hfree
    rw [hfree, Option.toList_none, List.append_nil] at hperm
    exact hperm
  · simp only [step] at hs'
    split at hs'
    · nomatch hs'
    · rename_i req hreporting
      obtain rfl := Option.some.inj hs'
      refine ⟨req, hreporting, ?_⟩
      exact (Job.Rings.current hok).trans (hhead req hreporting)

/-- A run with a forced `Add`, a store that fails and one that does not, and reports of both
outcomes. -/
def mixed : List (Action Nat) :=
  [.add 2 false, .current, .spill true, .reportFailed, .add 3 true, .spill false, .current,
    .reportOk, .current, .tryLoadData]

theorem conserved_of_run_mixed :
    ∃ s₀ s, started 1 [1] = some s₀ ∧ exec step s₀ mixed = some s ∧ s.MutexFree ∧
      (s.reported ++ s.job.queued ++ s.job.store.unread ++ s.job.tmp).Perm [1, 2, 3] := by
  have hstart : started 1 [1] = some ((started 1 [1]).get rfl) := rfl
  have hrun : exec step ((started 1 [1]).get rfl) mixed =
    some ((exec step ((started 1 [1]).get rfl) mixed).get rfl) := rfl
  exact ⟨_, _, hstart, hrun, rfl, (conserved_of_run hstart hrun).1 rfl⟩

/-! ## Every request is reported in its turn -/

/-- **The order of the job.**  The reported requests are the first accepted ones, the others wait in
the order ring, file, `tmp`, and when the data counts as being in the ring only the other two are
empty. -/
def InOrder (s : System α) : Prop :=
  s.reported <+: s.accepted ∧
    s.accepted = s.reported ++ s.job.queued ++ s.job.store.unread ++ s.job.tmp ++
      s.adding.toList ∧
    (s.job.dataBuffOnly = true → s.job.store.unread = [] ∧ s.job.tmp = [])

/-- A `tryLoadData` finds the ring full, or something in `tmp`, or no more in the file than the ring
has room for. -/
def LoadsInOrder (s : System α) : Action α → Prop
  | .tryLoadData => s.job.queued.length = s.job.bufLen ∨ s.job.tmp ≠ [] ∨
      s.job.store.unread.length ≤ s.job.ringBuff.surplusCount
  | _ => True

theorem inOrder_iff_tiers (hhead : s.tiers.AtHead) : s.InOrder ↔ s.tiers.InOrder := by
  refine ⟨fun h => ⟨hhead, h.2⟩, fun h => ⟨?_, h.2⟩⟩
  have horder : s.accepted = s.reported ++ s.job.queued ++ s.job.store.unread ++ s.job.tmp ++
    s.adding.toList := h.2.1
  rw [horder]
  simp only [List.append_assoc, List.prefix_append]

theorem loadsInOrder_iff_tiers (hok : s.RingOk len) :
    LoadsInOrder s a ↔ Tiers.LoadsInOrder len s.tiers a := by
  cases a with
  | tryLoadData =>
    have hle := Job.Rings.length_le hok
    have hlen : s.job.bufLen = len := hok.2
    simp only [LoadsInOrder, Tiers.LoadsInOrder, hlen, Job.Rings.surplusCount hok, tiers]
    refine or_congr ⟨fun h => by omega, fun h => by omega⟩ Iff.rfl
  | _ => exact Iff.rfl

/-- **Whole runs.**  In a run without force in which no `Store` fails, the order holds in every
state if and only if every `tryLoadData` finds the ring full, or something in `tmp`, or no more in
the file than the ring has room for. -/
theorem inOrder_iff_loadsInOrder {bufLen : Nat} {file : List α} {s₀ : System α}
    (hstart : started bufLen file = some s₀) {as : List (Action α)}
    (hplain : ∀ a ∈ as, a.Plain) (hrun : exec step s₀ as = some s) :
    Along step LoadsInOrder s₀ as ↔ Always step InOrder s₀ as := by
  obtain ⟨hok, horder, -⟩ := started_inOrder hstart
  have hinv : Always step (fun s => s.RingOk bufLen ∧ s.tiers.AtHead) s₀ as := by
    refine always_of_step (fun s a s' hI hs' => ?_) as ⟨hok, horder.1⟩
    obtain ⟨hok', hstep⟩ := step_tiers hI.1 hs'
    exact ⟨hok', Tiers.atHead_step hI.2 hstep⟩
  constructor
  · intro h
    have hstep : ∀ (s : System α) (a : Action α) (s' : System α),
        s.RingOk bufLen ∧ s.tiers.InOrder → LoadsInOrder s a ∧ a.Plain → s.step a = some s' →
        s'.RingOk bufLen ∧ s'.tiers.InOrder := by
      intro s a s' hI hC hs'
      obtain ⟨hok', hmove⟩ := step_tiers hI.1 hs'
      exact ⟨hok', Tiers.inOrder_step hI.2 hC.2 ((loadsInOrder_iff_tiers hI.1).mp hC.1) hmove⟩
    exact (always_of_along hstep ⟨hok, horder⟩ (h.and_forall hplain)).mono
      fun s hs => (inOrder_iff_tiers hs.2.1).mpr hs.2
  · intro h
    refine along_of_always (fun s a s' hs hstep hs' => ?_) hrun (h.and hinv)
    obtain ⟨-, hmove⟩ := step_tiers hs.2.1 hstep
    exact (loadsInOrder_iff_tiers hs.2.1).mpr
      (Tiers.loadsInOrder_of_step hmove ((inOrder_iff_tiers hs'.2.2).mp hs'.1))

/-- One cell, so the second and third request go to the file.  When the ring has been emptied,
`tryLoadData` moves the second into it and, because `tmp` is empty, opens the ring to new requests
while the third is still in the file. -/
def overtaken : List (Action Nat) :=
  [.add 1 false, .add 2 false, .spill false, .add 3 false, .spill false, .current, .reportOk,
    .current, .tryLoadData, .current, .reportOk, .add 4 false, .current, .reportOk]

theorem overtaken_not_inOrder :
    ∃ s₀ s, started 1 [] = some s₀ ∧ (∀ a ∈ overtaken, a.Plain) ∧
      exec step s₀ overtaken = some s ∧ s.accepted = [1, 2, 3, 4] ∧ s.reported = [1, 2, 4] ∧
      ¬ s.reported <+: s.accepted := by
  refine ⟨(started 1 []).get rfl, (exec step ((started 1 []).get rfl) overtaken).get rfl, rfl, ?_,
    rfl, rfl, rfl, by decide⟩
  simp [overtaken, Action.Plain]

/-- The second request goes to the file, and comes back into the ring when the first is reported. -/
def overflowed : List (Action Nat) :=
  [.add 1 false, .add 2 false, .spill false, .current, .reportOk, .tryLoadData, .current, .reportOk]

theorem inOrder_iff_loadsInOrder_overflowed :
    ∃ s₀ s, started 1 [] = some s₀ ∧ exec step s₀ overflowed = some s ∧ s.reported = [1, 2] ∧
      Always step InOrder s₀ overflowed := by
  have hstart : started 1 ([] : List Nat) = some ((started 1 []).get rfl) := rfl
  have hrun : exec step ((started 1 []).get rfl) overflowed =
    some ((exec step ((started 1 []).get rfl) overflowed).get rfl) := rfl
  refine ⟨_, _, hstart, hrun, rfl,
    (inOrder_iff_loadsInOrder hstart (by simp [overflowed, Action.Plain]) hrun).mp ?_⟩
  -- `tryLoadData` comes to a ring with room for what is in the file
  exact along_cons trivial rfl (along_cons trivial rfl (along_cons trivial rfl
    (along_cons trivial rfl (along_cons trivial rfl (along_cons (Or.inr (Or.inr (by decide))) rfl
      (along_cons trivial rfl (along_cons trivial rfl trivial)))))))

end System

end Accumulation.Report
