/-
# Accumulation.Logfile.Upload — the pipeline behind the archive, and its size limit.

`BuildPipeline` chains the archive step, the upload and the clean-up; the first error ends an
invocation.  The upload refuses an archive that is larger than the limit of the configuration.  The
limit is documented in kilobytes, but compared with a number of bytes.  That number has been cut to
32 bits; and for an archive written in the same attempt it is what was in the file before `Close`,
while a retry finds the final size.  `enforced_iff` says for which sizes both answers are right all
the same.
-/
import Accumulation.Logfile.ArchiveCalls

namespace Accumulation.Logfile

open Accumulation.Go

/-! ## The pipeline -/

/-- What `BuildPipeline` reads of the configuration for the upload. -/
structure LogConfig where
  /-- in seconds -/
  uploadTimeCostLimit : Int
  /-- in KB/s -/
  uploadFlowLimit : Int
  /-- in KB -/
  uploadSizeLimit : Int
  deriving DecidableEq, Repr

structure UploadTaskDesc where
  limit : Int
  capacity : Int
  timeout : Int
  deriving DecidableEq, Repr

def newUploadTask (desc : UploadTaskDesc) : UploadTaskDesc :=
  { desc with capacity := if desc.capacity = 0 then 50 * 1024 * 1024 else desc.capacity }

inductive UpdateOption
  /-- the quantum of the bucket -/
  | rateLimit (quantum : Int)
  | timeout (seconds : Int)
  deriving DecidableEq, Repr

/-- `UploadFile`: whether it returns nil. -/
abbrev UploadClient := Bytes → List UpdateOption → Bool

inductive Handler
  | archive
  | upload (desc : UploadTaskDesc)
  | clean
  deriving DecidableEq, Repr

/-- `BuildPipeline` -/
def buildPipeline (config : LogConfig) : List Handler :=
  [.archive,
    .upload (newUploadTask
      ⟨config.uploadFlowLimit, config.uploadSizeLimit, config.uploadTimeCostLimit⟩),
    .clean]

/-- `UploadTask.Do`, which panics on a nil `*FileDesc`. -/
def uploadTaskDo (client : Option UploadClient) (desc : UploadTaskDesc) (input : Param) :
    Option (Param × Option TaskError) :=
  match input, client with
  | .nil, _ => some (.nil, some (.text "input is required"))
  | .file _, none => some (.nil, some (.text "not found upload client uploadServer[%v]"))
  | .file none, some _ => none
  | .file (some file), some client =>
    if file.size > desc.capacity then some (.nil, some (.logSizeExceed desc.capacity))
    else
      let opts := (if desc.limit > 0 then [.rateLimit desc.limit] else []) ++
        (if desc.timeout > 0 then [.timeout desc.timeout] else [])
      some (.rules [⟨file.name, ascii ['*']⟩],
        if client file.name opts then none else some .upload)
  | _, _ => some (.nil, some (.text "uploading components requires  FileDesc,however input[%v]"))

/-- `CleanTask.Do` -/
def cleanTaskDo (host : Host) (input : Param) (depot : Depot) :
    Option (Param × Option TaskError) × Depot :=
  match input with
  | .nil => (some (.nil, some (.text "archive file is required")), depot)
  | .rules files =>
    match forEach (FileFilterRule.remove host fun _ _ => false) files ⟨⟨depot.disk, []⟩, []⟩ with
    | (none, s) => (some (.nil, none), { depot with disk := s.disk })
    | (some (.err e), s) => (some (.nil, some (.remove e)), { depot with disk := s.disk })
    | (some _, s) => (none, { depot with disk := s.disk })
  | _ => (some (.nil, some (.text "archive file need string,however input[%v]")), depot)

def Handler.run (host : ArchiveHost) (faults : Faults) (client : Option UploadClient)
    (handler : Handler) (input : Param) (depot : Depot) :
    Option (Param × Option TaskError) × Depot :=
  match handler with
  | .archive => archiveTaskDo host faults input depot
  | .upload desc => (uploadTaskDo client desc input, depot)
  | .clean => cleanTaskDo host.toHost input depot

/-- `Pipeline.Invoke`: the handlers pass on what they return, until one of them fails. -/
def invoke (host : ArchiveHost) (faults : Faults) (client : Option UploadClient) :
    List Handler → Param → Depot → Option (Param × Option TaskError) × Depot
  | [], param, depot => (some (param, none), depot)
  | handler :: handlers, input, depot =>
    match handler.run host faults client input depot with
    | (none, depot) => (none, depot)
    | (some (_, some e), depot) => (some (.nil, some e), depot)
    | (some (param, none), depot) => invoke host faults client handlers param depot

/-! ## The answer of the upload -/

/-- The invocation ends with a `LogSizeExceedErr`. -/
def Refuses (result : Option (Param × Option TaskError) × Depot) : Prop :=
  ∃ param capacity, result.1 = some (param, some (.logSizeExceed capacity))

variable {host : ArchiveHost} {faults : Faults} {client : UploadClient} {config : LogConfig}
  {desc : ArchiveTaskDesc} {depot depot' : Depot} {file : PackedFile}

theorem cleanTaskDo_err {host : Host} {input param : Param} {capacity : Int} :
    (cleanTaskDo host input depot).1 ≠ some (param, some (.logSizeExceed capacity)) := by
  unfold cleanTaskDo
  split
  · exact fun hcon => (nomatch hcon)
  · split
    · exact fun hcon => (nomatch hcon)
    · exact fun hcon => (nomatch hcon)
    · exact fun hcon => (nomatch hcon)
  · exact fun hcon => (nomatch hcon)

/-- Cleaning up never refuses. -/
theorem clean_not_refuses (host : ArchiveHost) (faults : Faults) (client : Option UploadClient)
    (input : Param) (depot : Depot) :
    ¬ Refuses (invoke host faults client [.clean] input depot) := by
  rintro ⟨param, capacity, h⟩
  have herr (param : Param) := @cleanTaskDo_err depot host.toHost input param capacity
  rw [invoke, Handler.run] at h
  rcases hr : cleanTaskDo host.toHost input depot with ⟨_ | ⟨out, _ | e⟩, depot'⟩
  · rw [hr] at h
    nomatch h
  · rw [hr] at h
    nomatch h
  · rw [hr] at h
    obtain rfl : e = .logSizeExceed capacity :=
      Option.some.inj (Prod.mk.inj (Option.some.inj h)).2
    exact herr out (by rw [hr])

/-- **The upload refuses** what is larger, in the size of its `FileDesc`, than the limit, in its
unit. -/
theorem invoke_refuses_iff (hlimit : config.uploadSizeLimit ≠ 0)
    (harchive : archiveTaskDo host faults (.desc desc) depot =
      (some (.file (some file), none), depot')) :
    Refuses (invoke host faults (some client) (buildPipeline config) (.desc desc) depot) ↔
      config.uploadSizeLimit < file.size := by
  have hcapacity : (newUploadTask ⟨config.uploadFlowLimit, config.uploadSizeLimit,
      config.uploadTimeCostLimit⟩).capacity = config.uploadSizeLimit := if_neg hlimit
  rw [buildPipeline, invoke, Handler.run, harchive]
  dsimp only
  rw [invoke, Handler.run]
  dsimp only [uploadTaskDo]
  rw [hcapacity]
  by_cases hsize : file.size > config.uploadSizeLimit
  · rw [if_pos hsize]
    exact iff_of_true ⟨_, _, rfl⟩ hsize
  · rw [if_neg hsize]
    refine iff_of_false ?_ hsize
    cases client file.name _ with
    | true => exact clean_not_refuses _ _ _ _ _
    | false =>
      rintro ⟨param, capacity, h⟩
      nomatch h

/-! ## The size of the archive -/

/-- A size of `k` bytes exceeds the limit, as an `int32` in bytes. -/
def Exceeds (limit : Int) (k : Nat) : Prop := limit < (k % 2 ^ 32 : Nat) ∧ k % 2 ^ 32 < 2 ^ 31

theorem lt_int32_iff {limit : Int} (hlimit : 0 < limit) (k : Nat) :
    limit < int32 k ↔ Exceeds limit k := by
  unfold int32 Exceeds
  rw [Int.bmod_def]
  push_cast
  split
  · omega
  · omega

/-- How many bytes of a new archive are in its file when it is asked for its size: what the writes
for the selected files have brought there, by their sizes. -/
def flushedSize (host : ArchiveHost) (faults : Faults) (desc : ArchiveTaskDesc) (disk : Disk) :
    Nat :=
  let s := (createIfNeeded host.toHost faults.create desc.archiveFile ⟨⟨disk, []⟩, []⟩).2
  let entries := entriesOf host.toHost desc.files s.disk
  (Writer.brought ((ZipWriter.unended host.zip.toZipLayout entries).map List.length)).1

theorem zipArchive_of_do {answer : Param × Option TaskError} (hpath : desc.archiveFile ≠ [])
    (hzip : desc.archiveType = .zip)
    (h : archiveTaskDo host faults (.desc desc) depot = (some answer, depot')) :
    ∃ zipped, zipArchive host faults desc.files desc.archiveFile depot = (some zipped, depot') ∧
      answer = (.file zipped.file, zipped.err) := by
  rw [archiveTaskDo, if_neg hpath, hzip] at h
  dsimp only at h
  split at h
  · rename_i zipped depot hcall
    obtain ⟨ha, rfl⟩ := Prod.mk.inj h
    exact ⟨zipped, hcall, (Option.some.inj ha).symm⟩
  · nomatch h

/-- The size of an archive **written** in the attempt. -/
theorem size_of_written (hpath : desc.archiveFile ≠ []) (hzip : desc.archiveType = .zip)
    (hnew : depot.disk.lookup (host.locate desc.archiveFile) = none)
    (h : archiveTaskDo host faults (.desc desc) depot =
      (some (.file (some file), none), depot')) :
    file.size = int32 (flushedSize host faults desc depot.disk) := by
  obtain ⟨e, hstat⟩ : ∃ e, host.stat depot.disk desc.archiveFile = .error e := by
    cases hs : host.stat depot.disk desc.archiveFile with
    | error e => exact ⟨e, rfl⟩
    | ok entry =>
      rw [(stat_ok_iff.mp hs).2] at hnew
      nomatch hnew
  rcases zipArchive_of_do hpath hzip h with ⟨zipped, hcall, hanswer⟩
  obtain ⟨hfile, -⟩ := Prod.mk.inj hanswer
  rcases zipArchive_finished hstat (Param.file.inj hfile).symm hcall with
    ⟨s, packing, t, hcreate, hfinished⟩
  have hcloses := congrArg (fun r => r.1.file) hfinished.closes
  have hsize : some (⟨uint32 host.now, int32 packing.zw.flushed, desc.archiveFile⟩ : PackedFile) =
      some file := hcloses.trans (Param.file.inj hfile).symm
  rcases packAll_takes hfinished.packs with ⟨hentries, hholds⟩
  have hflushed := (hholds (ZipWriter.new_holds _ faults.writes)).flushed_eq
  rw [show packing.zw.entries = entriesOf host.toHost desc.files s.disk from hentries] at hflushed
  have hsame : flushedSize host faults desc depot.disk = packing.zw.flushed := by
    rw [hflushed, flushedSize, hcreate]
  rw [← Option.some.inj hsize, hsame]

/-- An archive **found** by the attempt, and its size. -/
theorem found_of_lookup (hpath : desc.archiveFile ≠ []) (hzip : desc.archiveType = .zip)
    {archive : FileCell}
    (hthere : depot.disk.lookup (host.locate desc.archiveFile) = some (.file archive)) :
    archiveTaskDo host faults (.desc desc) depot =
      (some (.file (some ⟨uint32 archive.modTime, int32 archive.content.length,
        desc.archiveFile⟩), none), depot) := by
  rw [archiveTaskDo, if_neg hpath, hzip]
  dsimp only
  rw [zipArchive, stat_ok_iff.mpr ⟨hpath, hthere⟩]
  rfl

/-- The archive step succeeds, and leaves this archive. -/
def Leaves (host : ArchiveHost) (faults : Faults) (desc : ArchiveTaskDesc) (depot : Depot)
    (archive : FileCell) : Prop :=
  ∃ file depot', archiveTaskDo host faults (.desc desc) depot =
      (some (.file (some file), none), depot') ∧
    depot'.disk.lookup (host.locate desc.archiveFile) = some (.file archive)

/-- An attempt that writes an archive of `n` bytes, and one that finds it, are refused exactly if
`n` bytes are more than the limit in kilobytes. -/
structure SizeLimitEnforced (host : ArchiveHost) (client : UploadClient) (config : LogConfig)
    (desc : ArchiveTaskDesc) (n : Nat) (faults : Faults) (depot : Depot) (faults' : Faults)
    (depot' : Depot) : Prop where
  written : Refuses (invoke host faults (some client) (buildPipeline config) (.desc desc) depot) ↔
    1024 * config.uploadSizeLimit < n
  found : Refuses (invoke host faults' (some client) (buildPipeline config) (.desc desc) depot') ↔
    1024 * config.uploadSizeLimit < n

/-- **The size limit is enforced** on an archive of `n` bytes, `m` of which are in the file when it
is asked for its size, if and only if both numbers exceed the limit as an `int32` in bytes, or
neither does, according to whether `n` bytes exceed it in kilobytes. -/
theorem enforced_iff (host : ArchiveHost) (client : UploadClient) (config : LogConfig)
    (desc : ArchiveTaskDesc) (faults faults' : Faults) {depot depot' : Depot}
    {archive : FileCell} (hlimit : 0 < config.uploadSizeLimit)
    (hpath : desc.archiveFile ≠ []) (hzip : desc.archiveType = .zip)
    (hnew : depot.disk.lookup (host.locate desc.archiveFile) = none)
    (hwritten : Leaves host faults desc depot archive)
    (hfound : depot'.disk.lookup (host.locate desc.archiveFile) = some (.file archive)) :
    SizeLimitEnforced host client config desc archive.content.length faults depot faults' depot' ↔
      if (archive.content.length : Int) ≤ 1024 * config.uploadSizeLimit then
        ¬ Exceeds config.uploadSizeLimit (flushedSize host faults desc depot.disk) ∧
          ¬ Exceeds config.uploadSizeLimit archive.content.length
      else
        Exceeds config.uploadSizeLimit (flushedSize host faults desc depot.disk) ∧
          Exceeds config.uploadSizeLimit archive.content.length := by
  rcases hwritten with ⟨file, written, hcall, -⟩
  have hrefuses : Refuses (invoke host faults (some client) (buildPipeline config) (.desc desc)
      depot) ↔ Exceeds config.uploadSizeLimit (flushedSize host faults desc depot.disk) := by
    rw [← lt_int32_iff hlimit, ← size_of_written hpath hzip hnew hcall]
    exact invoke_refuses_iff hlimit.ne' hcall
  have hrefuses' : Refuses (invoke host faults' (some client) (buildPipeline config) (.desc desc)
      depot') ↔ Exceeds config.uploadSizeLimit archive.content.length := by
    rw [← lt_int32_iff hlimit archive.content.length,
      invoke_refuses_iff hlimit.ne' (found_of_lookup hpath hzip hfound)]
  have hboth : SizeLimitEnforced host client config desc archive.content.length faults depot
        faults' depot' ↔
      (Exceeds config.uploadSizeLimit (flushedSize host faults desc depot.disk) ↔
        1024 * config.uploadSizeLimit < archive.content.length) ∧
      (Exceeds config.uploadSizeLimit archive.content.length ↔
        1024 * config.uploadSizeLimit < archive.content.length) := by
    rw [← hrefuses, ← hrefuses']
    exact ⟨fun h => ⟨h.written, h.found⟩, fun h => ⟨h.1, h.2⟩⟩
  rw [hboth]
  split
  · rename_i hsmall
    rw [iff_false_right (Int.not_lt.mpr hsmall), iff_false_right (Int.not_lt.mpr hsmall)]
  · rename_i hlarge
    rw [iff_true_right (Int.not_le.mp hlarge), iff_true_right (Int.not_le.mp hlarge)]

/-! ## An archive of 137 bytes -/

/-- Pack `/a`, which is a day old at most, into `/z`. -/
def demoUpload : ArchiveTaskDesc :=
  ⟨[⟨ascii ['/', 'a'], ascii ['*'], 24 * 3600⟩], .zip, ascii ['/', 'z']⟩

def demoDepot : Depot := ⟨demoDisk [(demoFile, ['1'])], false⟩

/-- What the archive step leaves. -/
def demoPacked : Depot := (archiveTaskDo demoArchiveHost noFaults (.desc demoUpload) demoDepot).2

def demoLimit (uploadSizeLimit : Int) : LogConfig := ⟨0, 0, uploadSizeLimit⟩

theorem demoPacked_size : ∃ archive,
    demoPacked.disk.lookup (demoArchiveHost.locate demoUpload.archiveFile) = some (.file archive) ∧
      archive.content.length = 137 :=
  ⟨_, rfl, by decide +kernel⟩

/-- A limit of 200 KB lets 137 bytes pass, since they are fewer than 200 in the other unit, too. -/
theorem enforced_137 :
    SizeLimitEnforced demoArchiveHost (fun _ _ => true) (demoLimit 200) demoUpload 137 noFaults
      demoDepot noFaults demoPacked := by
  rcases demoPacked_size with ⟨archive, hfound, hlength⟩
  have hnew : demoDepot.disk.lookup (demoArchiveHost.locate demoUpload.archiveFile) = none := rfl
  have hwritten : Leaves demoArchiveHost noFaults demoUpload demoDepot archive :=
    ⟨_, demoPacked, rfl, hfound⟩
  have hiff := enforced_iff demoArchiveHost (fun _ _ => true) (demoLimit 200) demoUpload noFaults
    noFaults (by decide) (by decide) rfl hnew hwritten hfound
  rw [hlength, if_pos (by decide)] at hiff
  refine hiff.mpr ⟨?_, ?_⟩
  · rintro ⟨hlarge, -⟩
    exact absurd hlarge (by decide)
  · rintro ⟨hlarge, -⟩
    exact absurd hlarge (by decide)

/-- A limit of one kilobyte lets 137 bytes pass where they have just been written, since none of
them is in the file yet, and refuses them where they are found. -/
theorem refused_when_found :
    (∃ archive, Leaves demoArchiveHost noFaults demoUpload demoDepot archive ∧
      archive.content.length = 137) ∧
    ¬ Refuses (invoke demoArchiveHost noFaults (some fun _ _ => true)
      (buildPipeline (demoLimit 1)) (.desc demoUpload) demoDepot) ∧
    Refuses (invoke demoArchiveHost noFaults (some fun _ _ => true)
      (buildPipeline (demoLimit 1)) (.desc demoUpload) demoPacked) ∧
    ¬ SizeLimitEnforced demoArchiveHost (fun _ _ => true) (demoLimit 1) demoUpload 137 noFaults
      demoDepot noFaults demoPacked := by
  rcases demoPacked_size with ⟨archive, hfound, hlength⟩
  have hrefuses : Refuses (invoke demoArchiveHost noFaults (some fun _ _ => true)
      (buildPipeline (demoLimit 1)) (.desc demoUpload) demoPacked) := by
    rw [invoke_refuses_iff (by decide) (found_of_lookup (by decide) rfl hfound), hlength]
    show (1 : Int) < int32 (137 : Nat)
    decide
  refine ⟨⟨archive, ⟨_, demoPacked, rfl, hfound⟩, hlength⟩, ?_, hrefuses, fun h => ?_⟩
  · rintro ⟨param, capacity, h⟩
    nomatch h
  · exact absurd (h.found.mp hrefuses) (by decide)

end Accumulation.Logfile
