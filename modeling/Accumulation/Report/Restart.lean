/-
# Accumulation.Report.Restart — what a stopped job leaves to the next one.

Here the job runs on the bytes of its file.  `Stop` on its own splices the ring and `tmp` around the
unread bytes; a store opened on the result gives everything back, page by page, in the order in
which the stopped job would have reported it.
-/
import Accumulation.Report.Job

namespace Accumulation.Report

open Accumulation.Go Accumulation.Store FileStore

variable {α : Type*} [Serialization α]

/-- The job runs on the bytes of its file. -/
instance : ReportStore FileStore α where
  store fs reqs := some (fs.doWrite reqs)
  load := FileStore.load
  truncate := FileStore.truncate

/-- A sequence of `Load` calls and what each returns. -/
def loads (fs : FileStore) : List Int → Option (List (List α × Option Err) × FileStore)
  | [] => some ([], fs)
  | rows :: more =>
    (fs.load rows).bind fun (page, fs) => (loads fs more).map fun (pages, fs) => (page :: pages, fs)

omit [Serialization α] in
/-- The pages of a list, the first one `rows` long, and so on until the list is used up. -/
def pages (backlog : List α) : List Int → List (List α)
  | [] => []
  | rows :: more => backlog.take rows.toNat :: pages (backlog.drop rows.toNat) more

omit [Serialization α] in
theorem flatten_pages (backlog : List α) (rows : List Int) :
    (pages backlog rows).flatten = backlog.take (rows.map Int.toNat).sum := by
  induction rows generalizing backlog with
  | nil => rfl
  | cons n rows ih =>
    rw [pages, List.flatten_cons, ih, List.map_cons, List.sum_cons, List.take_add]

/-- **Loads turn the pages of the pending records.** -/
theorem loads_holds {lo : Nat} (hl : Lossless α lo 255) (rows : List Int) {fs : FileStore}
    {log : RecordLog α} (h : fs.Holds log) :
    ∃ fs', loads fs rows = some ((pages log.pending rows).map fun page => (page, none), fs') := by
  induction rows generalizing fs log with
  | nil => exact ⟨fs, rfl⟩
  | cons n rows ih =>
    obtain ⟨fs₁, hload, hfs₁⟩ := holds_load hl h n
    obtain ⟨fs₂, hrest⟩ := ih hfs₁
    refine ⟨fs₂, ?_⟩
    rw [RecordLog.pending_load] at hrest
    rw [loads, hload, Option.bind_some]
    change Option.map _ (loads fs₁ rows) = _
    rw [hrest]
    rfl

/-- `Stop` alone leaves a file with the ring, the unread records and `tmp`. -/
theorem stop_file {job : Job FileStore α} {len : Nat} {ring : List α}
    (hrings : Job.Rings job.ringBuff len ring) {disk : List α} {read : Nat}
    (hdata : job.store.store.data = bytesOf disk)
    (hoffset : job.store.offset = (bytesOf (disk.take read)).length)
    (hfates : job.store.store.fates = []) :
    ∃ job', job.stop = some job' ∧
      job'.store.store.data = bytesOf (ring ++ disk.drop read ++ job.tmp) := by
  obtain ⟨isRunnable, ringBuff, tmp, dataBuffOnly, ⟨bytes, pos, fates⟩, offset⟩ := job
  simp only at hrings hdata hoffset hfates
  subst hdata hoffset hfates
  have htruncate := truncate_healthy (bytesOf disk) pos _ (length_bytesOf_take_le disk read)
    ring tmp
  rw [bytesOf_take_drop] at htruncate
  rw [← bytesOf_append, ← bytesOf_append] at htruncate
  refine ⟨⟨false, ringBuff, tmp, dataBuffOnly, ⟨⟨bytesOf (ring ++ disk.drop read ++ tmp),
    (bytesOf (ring ++ disk.drop read ++ tmp)).length, []⟩, 0⟩⟩, ?_, rfl⟩
  simp only [Job.stop, hrings.reduceOption]
  change Option.map _ (FileStore.truncate _ ring tmp) = _
  rw [htruncate]
  rfl

/-- **Stop and restart.**  Take any job whose file is a sequence of records with the offset behind
`read` of them, and whatever its ring has gone through.  After `Stop` a store opened on the file
returns ring, unread records and `tmp`, in this order and nothing else, through any `Load` calls;
and a new job starts with the first of them in its ring. -/
theorem restart_restores {lo : Nat} (hl : Lossless α lo 255) {job : Job FileStore α} {len : Nat}
    {ring : List α} (hrings : Job.Rings job.ringBuff len ring) {disk : List α} {read : Nat}
    (hdata : job.store.store.data = bytesOf disk)
    (hoffset : job.store.offset = (bytesOf (disk.take read)).length)
    (hfates : job.store.store.fates = []) :
    ∃ job', job.stop = some job' ∧
      (∀ rows : List Int, ∃ fs, loads (openStore job'.store.store.data) rows =
          some ((pages (ring ++ disk.drop read ++ job.tmp) rows).map fun page => (page, none), fs) ∧
        (pages (ring ++ disk.drop read ++ job.tmp) rows).flatten =
          (ring ++ disk.drop read ++ job.tmp).take (rows.map Int.toNat).sum) ∧
      ∀ bufLen : Nat, ∃ started,
        (Job.newJob bufLen (openStore job'.store.store.data) : Job FileStore α).start =
          some (none, started) ∧
        Job.Rings started.ringBuff bufLen ((ring ++ disk.drop read ++ job.tmp).take bufLen) := by
  obtain ⟨job', hstop, hfile⟩ := stop_file hrings hdata hoffset hfates
  have hholds := openStore_holds (ring ++ disk.drop read ++ job.tmp)
  refine ⟨job', hstop, fun rows => ?_, fun bufLen => ?_⟩
  · obtain ⟨fs, hloads⟩ := loads_holds hl rows hholds
    exact ⟨fs, by rw [hfile]; exact hloads, flatten_pages _ _⟩
  · obtain ⟨fs, hload, -⟩ := holds_load hl hholds bufLen
    have hpage : ReportStore.load (openStore (bytesOf (ring ++ disk.drop read ++ job.tmp)))
        (bufLen : Int) = some (((ring ++ disk.drop read ++ job.tmp).take bufLen, none), fs) := hload
    obtain ⟨ringBuff, hrings', hstart⟩ := Job.start_spec hpage (List.length_take_le _ _)
    exact ⟨_, by rw [hfile]; exact hstart, hrings'⟩

/-- A job whose ring wraps around; one of the two records of its file has been loaded. -/
def wrapped : Job FileStore UInt8 where
  isRunnable := true
  ringBuff := (((RingBuff.newRingBuff 2).enqueue (some 1)).2.dequeue.2.enqueue (some 2)).2.enqueue
    (some 3) |>.2
  tmp := [6]
  dataBuffOnly := false
  store := ⟨⟨bytesOf ([4, 5] : List UInt8), 0, []⟩, (bytesOf ([4] : List UInt8)).length⟩

theorem restart_restores_wrapped : ∃ job', wrapped.stop = some job' ∧
    (∃ fs, loads (openStore job'.store.store.data) [1, 2, 3] =
      some (([([2], none), ([3, 5], none), ([6], none)] : List (List UInt8 × Option Err)), fs)) ∧
    ∃ started, (Job.newJob 2 (openStore job'.store.store.data) : Job FileStore UInt8).start =
      some (none, started) ∧ Job.Rings started.ringBuff 2 [2, 3] := by
  have hrings : Job.Rings wrapped.ringBuff 2 [2, 3] := ⟨rfl, rfl⟩
  have hdata : wrapped.store.store.data = bytesOf ([4, 5] : List UInt8) := rfl
  have hoffset : wrapped.store.offset = (bytesOf (([4, 5] : List UInt8).take 1)).length := rfl
  obtain ⟨job', hstop, hloads, hstart⟩ := restart_restores byte_lossless hrings hdata hoffset rfl
  obtain ⟨fs, hpages, -⟩ := hloads [1, 2, 3]
  exact ⟨job', hstop, ⟨fs, hpages⟩, hstart 2⟩

end Accumulation.Report
