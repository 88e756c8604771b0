/-
# Accumulation.Logfile.Archive — packing the copied files into a zip archive.

`zipArchive` takes an archive that is there already as it is.  Otherwise it walks the directory of
each `FileDesc`, puts the files that match the wildcard and are young enough into a new archive,
asks the file for its size, and removes what matches the wildcard.  All that happens before the
archive is closed, which is left to a deferred function (`closing`): its error takes the place of
whatever error the function was about to return.

What can fail is listed in `Faults`, so that what is proved holds for every pattern of failures.
The files packed do not change while they are packed.
-/
import Accumulation.Go.Zip
import Accumulation.Logfile.Move

namespace Accumulation.Logfile

open Accumulation.Go

/-! ## The machine -/

structure ArchiveHost extends Host where
  zip : ZipFormat
  /-- `ModTime` and `Size` of a directory -/
  dirInfo : Path → Int × Nat

/-- What becomes of opening and reading a file that is packed. -/
inductive SourceFate
  | ok
  | notOpened (e : Errno)
  /-- an error after `n` bytes -/
  | readUpTo (n : Nat) (e : Errno)
  deriving DecidableEq, Repr

/-- What goes wrong in a call. -/
structure Faults where
  /-- creating the archive -/
  create : Option Errno
  /-- the files packed, in their order; once the list is used up nothing goes wrong -/
  sources : List SourceFate
  /-- the writes to the archive while it is packed -/
  writes : List Fate
  /-- `fw.Stat()` -/
  stat : Option Errno
  /-- `zw.Close()`, and how many bytes it writes before -/
  close : Option Nat
  /-- `fw.Close()` -/
  fileClose : Option Errno

inductive TaskError
  /-- `fmt.Errorf`, with its format -/
  | text (format : String)
  /-- `*os.PathError` -/
  | path (path : Bytes) (errno : Errno)
  /-- an error of the zip writer -/
  | zip (e : Err)
  /-- `fmt.Errorf("src: %s, dst: %s copy err %v", …)` -/
  | copy (src path : Bytes) (err : TaskError)
  | logSizeExceed (capacity : Int)
  /-- the upload client's error -/
  | upload
  /-- an error of `remove` -/
  | remove (err : Error)
  deriving DecidableEq

/-- The `FileDesc` of an archive. -/
structure PackedFile where
  modTime : Nat
  size : Int
  name : Bytes
  deriving DecidableEq, Repr

/-- What the handlers of the pipeline pass on. -/
inductive Param
  | nil
  | desc (desc : ArchiveTaskDesc)
  /-- a `*FileDesc`, which can be nil -/
  | file (file : Option PackedFile)
  | rules (rules : List FileFilterRule)
  deriving DecidableEq

/-! ## Packing -/

/-- The age is an unsigned difference: it is large for a file from the future. -/
def archiveFilter (host : Host) (info : FileDesc) (name : Bytes) (fi : FileCell) : Bool :=
  match host.filepathMatch info.wildcard name with
  | some true => uint32 (host.now - fi.modTime) < info.modTime
  | _ => false

/-- The state of a packing. -/
structure Packing where
  disk : Disk
  zw : ZipWriter
  sources : List SourceFate

def Packing.new (disk : Disk) (faults : Faults) : Packing :=
  ⟨disk, ZipWriter.new ⟨[], 0, faults.writes⟩, faults.sources⟩

/-- `os.Open` -/
def openFault (fi : FileCell) : SourceFate → Option Errno
  | .notOpened e => some e
  | _ => if fi.readable then none else some .denied

/-- What `io.Copy` reads, and the error that stops it. -/
def readFault (fi : FileCell) : SourceFate → Bytes × Option Errno
  | .readUpTo n e => (fi.content.take n, some e)
  | _ => (fi.content, none)

/-- The end of the function `doArchive` walks with: the entry has its header, and the file is
opened and copied. -/
def copyInto (host : ArchiveHost) (src path : Bytes) (fi : FileCell) (s : Packing) :
    Option (Stop TaskError) × Packing :=
  let fate := s.sources.headD .ok
  let s := { s with sources := s.sources.tail }
  match openFault fi fate with
  | some e => (some (.err (.path path e)), s)
  | none =>
    let (content, fault) := readFault fi fate
    match s.zw.copy host.zip.toZipLayout content, fault with
    | (some e, zw), _ => (some (.err (.copy src path (.zip e))), { s with zw })
    | (none, zw), some e => (some (.err (.copy src path (.path path e))), { s with zw })
    | (none, zw), none => (none, { s with zw })

def packFile (host : ArchiveHost) (archiveFile src path : Bytes) (fi : FileCell) (s : Packing) :
    Option (Stop TaskError) × Packing :=
  -- an archive that is packed into itself grows while it is read, where the model does not follow
  if host.locate path = host.locate archiveFile then (some .fuel, s)
  else
    match s.zw.createHeader host.zip.toZipLayout (trimPrefix path src) fi.modTime with
    | (some e, zw) => (some (.err (.zip e)), { s with zw })
    | (none, zw) => copyInto host src path fi { s with zw }

/-- The function `doArchive` walks with. -/
def archiveFunc (host : ArchiveHost) (archiveFile : Bytes) (info : FileDesc) :
    WalkFunc Packing TaskError
  | path, _, some errBack, s => (some (.err (.path path errBack)), s)
  | _, none, none, s => (some .panic, s)
  | _, some (.dir _), none, s => (none, s)
  | path, some (.file fi), none, s =>
    if archiveFilter host.toHost info (basename path) fi then
      packFile host archiveFile info.dir path fi s
    else (none, s)

def packView (host : Host) : View Packing := ⟨host.pwd, Packing.disk, fun s => s⟩

def doArchive (host : ArchiveHost) (archiveFile : Bytes) (info : FileDesc) (s : Packing) :
    Option (Stop TaskError) × Packing :=
  walk (packView host.toHost) (archiveFunc host archiveFile info) host.depth info.dir s

def pathExists (host : Host) (disk : Disk) (path : Bytes) : Bool :=
  match host.stat disk path with
  | .ok _ => true
  | .error _ => false

/-- The first loop of `zipArchive`. -/
def packAll (host : ArchiveHost) (archiveFile : Bytes) :
    List FileDesc → Packing → Option (Stop TaskError) × Packing
  | [], s => (none, s)
  | info :: infos, s =>
    if pathExists host.toHost s.disk info.dir then
      onNil (doArchive host archiveFile info s) (packAll host archiveFile infos)
    else packAll host archiveFile infos s

/-! ## Removing -/

/-- The rule that the second loop of `zipArchive` removes with. -/
def FileDesc.rule (info : FileDesc) : FileFilterRule := ⟨info.dir, info.wildcard⟩

/-- The second loop of `zipArchive`, which looks at no error. -/
def removeSources (host : Host) : List FileDesc → State → Returns
  | [], s => (none, s)
  | info :: infos, s =>
    match info.rule.remove host (fun _ _ => true) s with
    | (none, s) => removeSources host infos s
    | (some (.err _), s) => removeSources host infos s
    | (some stop, s) => (some stop, s)

/-! ## The archive -/

/-- The tree, and whether the file of the archive has been closed. -/
structure Depot where
  disk : Disk
  closed : Bool

/-- What `zipArchive` returns. -/
structure Answer where
  file : Option PackedFile
  err : Option TaskError
  deriving DecidableEq

/-- `createIfNeeded`, which ignores an error of `MkdirAll`. -/
def createIfNeeded (host : Host) (fault : Option Errno) (path : Bytes) (s : State) :
    Option TaskError × State :=
  let create (s : State) : Option TaskError × State :=
    let refused := if path = [] then some .notExist
      else s.disk.createRefused host.denied (host.locate path)
    match fault.or refused with
    | some e => (some (.path path e), s)
    | none => (none, s.occur host (.own (.create (host.locate path))))
  match host.stat s.disk path with
  | .ok _ => create s
  | .error .notExist =>
    let p := host.locate (dir path)
    create (s.call host (dir path) (s.disk.mkdirRefused host.denied p) (.mkdirAll p)).2
  | .error e => (some (.path path e), s)

/-- The deferred function of `zipArchive`. -/
def closing (host : ArchiveHost) (faults : Faults) (archiveFile : Bytes) (zw : ZipWriter)
    (disk : Disk) (file : Option PackedFile) : Answer × Depot :=
  let (err, content) := zw.close host.zip.toZipLayout faults.close
  (⟨file, err.map .zip⟩,
    ⟨disk.rewritten (host.locate archiveFile) content, faults.fileClose.isNone⟩)

/-- What `os.Stat` says of an archive. -/
def fileDesc (host : ArchiveHost) (archiveFile : Bytes) : Entry → PackedFile
  | .file cell => ⟨uint32 cell.modTime, int32 cell.content.length, archiveFile⟩
  | .dir _ =>
    let (modTime, size) := host.dirInfo (host.locate archiveFile)
    ⟨uint32 modTime, int32 size, archiveFile⟩

/-- `zipArchive`; without an answer it panics, or the model does not follow it to its end. -/
def zipArchive (host : ArchiveHost) (faults : Faults) (infos : List FileDesc)
    (archiveFile : Bytes) (depot : Depot) : Option Answer × Depot :=
  match host.stat depot.disk archiveFile with
  | .ok f => (some ⟨some (fileDesc host archiveFile f), none⟩, depot)
  | .error _ =>
    match createIfNeeded host.toHost faults.create archiveFile ⟨⟨depot.disk, []⟩, []⟩ with
    | (some e, s) => (some ⟨none, some e⟩, { depot with disk := s.disk })
    | (none, s) =>
      let returning (packing : Packing) (disk : Disk) (file : Option PackedFile) :=
        closing host faults archiveFile packing.zw disk file
      match packAll host archiveFile infos (Packing.new s.disk faults) with
      | (some (.err _), packing) =>
        let (answer, depot) := returning packing s.disk none
        (some answer, depot)
      | (some _, packing) => (none, (returning packing s.disk none).2)
      | (none, packing) =>
        match faults.stat with
        | some _ =>
          let (answer, depot) := returning packing s.disk none
          (some answer, depot)
        | none =>
          -- the size is what has come out of the buffer so far
          let file : PackedFile := ⟨uint32 host.now, int32 packing.zw.flushed, archiveFile⟩
          match removeSources host.toHost infos s with
          | (none, t) =>
            let (answer, depot) := returning packing t.disk (some file)
            (some answer, depot)
          | (some _, t) => (none, (returning packing t.disk none).2)

/-- `ArchiveTask.Do` -/
def archiveTaskDo (host : ArchiveHost) (faults : Faults) (input : Param) (depot : Depot) :
    Option (Param × Option TaskError) × Depot :=
  match input with
  | .nil => (some (.nil, some (.text "archive file is required")), depot)
  | .desc desc =>
    if desc.archiveFile = [] then (some (.nil, some (.text "archiveFile is empty")), depot)
    else match desc.archiveType with
      | .zip =>
        match zipArchive host faults desc.files desc.archiveFile depot with
        | (some answer, depot) => (some (.file answer.file, answer.err), depot)
        | (none, depot) => (none, depot)
      | .tar => (some (.nil, some (.text "not found archive type")), depot)
  | _ => (some (.nil, some (.text "archive file need string,however input[%v]")), depot)

end Accumulation.Logfile
