/-
# Accumulation.Logfile.Move — copying a game's log files to the temporary directory.

`DoMove` walks the directory of each rule, copies the files the rule selects to a tree under
`logtmp/<FlowID>`, and removes the sources if it is asked to.  Where a file goes is computed on
strings (`destination`): the path loses the parent of the rule's directory, if that is longer than
two bytes.

`CleanExpiredData` runs beside it and removes old entries of `logtmp`.  Which ones, and between
which steps of the call, is part of the initial state (`State.cleaner`), so that what is proved
holds however the two interleave.  Everything that happens to the tree is kept in `Tree.events`.
-/
import Accumulation.Go.Int
import Accumulation.Go.Walk

namespace Accumulation.Logfile

open Accumulation.Go

def ascii (chars : List Char) : Bytes := chars.map fun c => UInt8.ofNat c.toNat

/-! ## Rules and tasks -/

structure FileFilterRule where
  dir : Bytes
  regex : Bytes
  deriving DecidableEq, Repr

/-- `strings.ReplaceAll(s, "//", "/")` -/
def replaceSlashes : Bytes → Bytes
  | a :: b :: rest =>
    if a = slash ∧ b = slash then slash :: replaceSlashes rest
    else a :: replaceSlashes (b :: rest)
  | s => s

/-- The loop of `filePathNormalization`; every pass makes the string shorter. -/
def normalizeLoop : Nat → Bytes → Bytes
  | 0, tmp => tmp
  | n + 1, tmp =>
    if [slash, slash] <:+: tmp then normalizeLoop n (replaceSlashes tmp) else tmp

def filePathNormalization (dir : Bytes) : Bytes := normalizeLoop dir.length (replaceSlashes dir)

/-- `GetDir` on Linux. -/
def FileFilterRule.getDir (rule : FileFilterRule) : Bytes := filePathNormalization rule.dir

structure MoveTask where
  fileFilterRules : List FileFilterRule
  uploadTimeRecentLimit : Int
  isDeleteSourceFile : Bool

def newMoveTask (fileFilterRules : List FileFilterRule) (uploadTimeRecentLimit : Int)
    (isDeleteSourceFile : Bool) : MoveTask where
  fileFilterRules
  uploadTimeRecentLimit :=
    if uploadTimeRecentLimit = 0 then 30 * 24 * 3600 * 24 else uploadTimeRecentLimit
  isDeleteSourceFile

structure FileDesc where
  dir : Bytes
  wildcard : Bytes
  modTime : Nat
  deriving DecidableEq, Repr

inductive ArchiveType
  | zip
  | tar
  deriving DecidableEq, Repr

structure ArchiveTaskDesc where
  files : List FileDesc
  archiveType : ArchiveType
  archiveFile : Bytes
  deriving DecidableEq, Repr

/-! ## The machine -/

/-- What the calls read of the machine they run on. -/
structure Host where
  pwd : Path
  now : Int
  /-- the directory of the path may not be written -/
  denied : Path → Bool
  /-- `filepath.Match`; `none` is `ErrBadPattern` -/
  filepathMatch : Bytes → Bytes → Option Bool
  match_star : ∀ name, slash ∉ name → filepathMatch (ascii ['*']) name = some true
  /-- `fmt.Sprintf` of a format without arguments -/
  sprintf : Bytes → Bytes
  /-- how deep the model follows a walk -/
  depth : Nat

/-- `Dir` -/
def logtmp : Name where
  bytes := ascii ['l', 'o', 'g', 't', 'm', 'p']
  ne_nil := by decide
  no_slash := by decide
  ne_dot := by decide
  ne_dots := by decide

inductive Error
  /-- `*os.PathError` -/
  | path (path : Bytes) (errno : Errno)
  /-- `filepath.ErrBadPattern` -/
  | badPattern
  /-- `fmt.Errorf`, with its format -/
  | errorf (text : String) (err : Error)
  deriving DecidableEq, Repr

/-- What happens to the tree. -/
inductive Event
  | own (op : FileOp)
  /-- `CleanExpiredData` removes something -/
  | cleaned (gone : List Path)
  deriving DecidableEq

def Event.apply (now : Int) (disk : Disk) : Event → Disk
  | .own op => op.apply now disk
  | .cleaned gone => disk.erased gone

structure Tree where
  disk : Disk
  /-- what has happened to it -/
  events : List Event

def Tree.occur (host : Host) (tree : Tree) (event : Event) : Tree :=
  ⟨event.apply host.now tree.disk, tree.events ++ [event]⟩

structure State extends Tree where
  /-- the entries of `logtmp` that `CleanExpiredData` removes before each of the coming steps -/
  cleaner : List (List Name)

/-- The calls here return an error or nil. -/
abbrev Returns := Option (Stop Error) × State

namespace State

def occur (host : Host) (s : State) (event : Event) : State :=
  ⟨s.toTree.occur host event, s.cleaner⟩

/-- The turn of `CleanExpiredData`. -/
def tick (host : Host) (s : State) : State :=
  match s.cleaner with
  | [] => s
  | names :: cleaner =>
    let gone := names.flatMap fun name =>
      s.disk.removable host.denied (host.pwd ++ [logtmp, name])
    ⟨s.toTree.occur host (.cleaned gone), cleaner⟩

/-- An operation on the file at `path`. -/
def call (host : Host) (path : Bytes) (refused : Option Errno) (op : FileOp) (s : State) :
    Returns :=
  match refused with
  | some e => (some (.err (.path path e)), s)
  | none => (none, s.occur host (.own op))

end State

def Host.locate (host : Host) (path : Bytes) : Path := Go.locate host.pwd path

/-- `os.Stat`; there is nothing under the empty string. -/
def Host.stat (host : Host) (disk : Disk) (path : Bytes) : Except Errno Entry :=
  if path = [] then .error .notExist else disk.stat (host.locate path)

theorem stat_ok_iff {host : Host} {disk : Disk} {path : Bytes} {e : Entry} :
    host.stat disk path = .ok e ↔ path ≠ [] ∧ disk.lookup (host.locate path) = some e := by
  unfold Host.stat Disk.stat
  by_cases hpath : path = []
  · simp [hpath]
  · rw [if_neg hpath]
    cases disk.lookup (host.locate path) with
    | none => simp
    | some e' => simp [hpath]

/-- `os.Remove`.  Of a directory, `rmdir` also looks at how the path is spelled. -/
def Host.removeRefused (host : Host) (disk : Disk) (path : Bytes) : Option Errno :=
  let p := host.locate path
  match disk.lookup p with
  | some (.dir _) => (rmdirRefused path).or (disk.removeRefused host.denied p)
  | _ => disk.removeRefused host.denied p

/-- What `os.RemoveAll` removes, where it may not remove what is `denied`: nothing if the path ends
in `.`, and not the directory itself if `rmdir` refuses the path. -/
def Host.removable (host : Host) (denied : Path → Bool) (disk : Disk) (path : Bytes) : List Path :=
  let p := host.locate path
  if endsWithDot path then []
  else disk.removable (fun q => denied q || ((rmdirRefused path).isSome && q = p)) p

def Host.view (host : Host) : View State := ⟨host.pwd, fun s => s.disk, State.tick host⟩

/-- Return the error in a text of one's own. -/
def errorf (text : String) : Returns → Returns
  | (some (.err e), s) => (some (.err (.errorf text e)), s)
  | r => r

/-- A loop over a list that ends with the first error. -/
def forEach {α : Type*} (f : α → State → Returns) : List α → State → Returns
  | [], s => (none, s)
  | a :: as, s => onNil (f a s) (forEach f as)

/-! ## Copying -/

def mkdirIfNeeded (host : Host) (dir : Bytes) (s : State) : Returns :=
  let s := s.tick host
  let p := host.locate dir
  match host.stat s.disk dir with
  | .error .notExist => s.call host dir (s.disk.mkdirRefused host.denied p) (.mkdirAll p)
  | _ => (none, s)

def isDir (host : Host) (disk : Disk) (filePath : Bytes) : Bool :=
  match host.stat disk filePath with
  | .ok (.dir _) => true
  | _ => false

def MoveTask.fileFilter (host : Host) (task : MoveTask) (regex name : Bytes) (fi : FileCell) :
    Bool :=
  match host.filepathMatch regex name with
  | some true => int32 (host.now - fi.modTime) < task.uploadTimeRecentLimit
  | _ => false

/-- Where the file at `path` goes; `none` is an index out of range. -/
def destination (isDir : Bytes → Bool) (srcPath dstPath path : Bytes) : Option Bytes :=
  let trimPath := if isDir srcPath then srcPath else dir srcPath
  if trimPath = [] then none
  else match path[trimPath.length - 1]? with
    | none => none
    | some c =>
      let trimPath := if c = slash then dir trimPath else trimPath
      let tmp := dir trimPath
      let trimPath := if tmp.length > 2 then tmp else trimPath
      some (join [dstPath, trimPrefix path trimPath])

/-- `io.Copy` of the file at `path`, which is opened for it. -/
def copyFrom (host : Host) (path : Bytes) (dst : Path) (s : State) : Returns :=
  let src := host.locate path
  match s.disk.openRefused src with
  | some e => errorf "open srcPath %s:err:%v" (some (.err (.path path e)), s)
  | none =>
    -- a directory can be opened, but not read
    let refused := match s.disk.lookup src with
      | some (.file _) => none
      | _ => some .isDir
    s.call host path refused (.copy src dst)

/-- The function `copyDir` walks with.  It does not look at the error it is given. -/
def copyFile (host : Host) (task : MoveTask) (regex srcPath dstPath : Bytes) : WalkFunc State Error
  -- `info` is nil
  | _, none, _, s => (some .panic, s)
  | _, some (.dir _), _, s => (none, s)
  | path, some (.file fi), _, s =>
    if task.fileFilter host regex (basename path) fi then
      match destination (isDir host s.disk) srcPath dstPath path with
      | none => (some .panic, s)
      | some dstFilePath =>
        let dst := host.locate dstFilePath
        onNil (mkdirIfNeeded host (dir dstFilePath) s) fun s =>
        let s := s.tick host
        onNil (errorf "open dstPath %s:err:%v"
          (s.call host dstFilePath (s.disk.createRefused host.denied dst) (.openFile dst))) fun s =>
        copyFrom host path dst (s.tick host)
    else (none, s)

def copyDir (host : Host) (task : MoveTask) (dstPath : Bytes) (rule : FileFilterRule) (s : State) :
    Returns :=
  let srcPath := rule.getDir
  let s := s.tick host
  match host.stat s.disk srcPath with
  | .error .notExist => (none, s)
  | .error e => errorf "stat srcPath %s err:%v" (some (.err (.path srcPath e)), s)
  | .ok _ => walk host.view (copyFile host task rule.regex srcPath dstPath) host.depth srcPath s

/-- `mkdirEmptyFileIfNeeded`, which passes the name of the new file through `Sprintf`. -/
def mkdirEmptyFileIfNeeded (host : Host) (path : Bytes) (s : State) : State :=
  let s := s.tick host
  match s.disk.readDirNames (host.locate path) with
  | .ok [] =>
    let file := host.sprintf (join [path, ascii ['e', 'm', 'p', 't', 'y']])
    (s.call host file (s.disk.createRefused host.denied (host.locate file))
      (.create (host.locate file))).2
  | _ => s

/-! ## Removing -/

def rmFile (host : Host) (file : Bytes) (s : State) : Returns :=
  let s := s.tick host
  s.call host file (host.removeRefused s.disk file) (.erase [host.locate file])

/-- The function `rmDir` walks with.  `ignoreErr` is also asked about a removal that succeeded, when
its answer makes no difference. -/
def rmMatching (host : Host) (regex : Bytes) (ignoreErr : Bytes → Error → Bool) :
    WalkFunc State Error
  | _, none, _, s => (some .panic, s)
  | path, some _, _, s =>
    match host.filepathMatch regex (basename path) with
    | none =>
      if ignoreErr path .badPattern then (none, s) else (some (.err .badPattern), s)
    | some false => (none, s)
    | some true =>
      match rmFile host path s with
      | (some (.err e), s) => if ignoreErr path e then (none, s) else (some (.err e), s)
      | r => r

def rmDir (host : Host) (dir regex : Bytes) (ignoreErr : Bytes → Error → Bool) (s : State) :
    Returns :=
  let walkDir := walk host.view (rmMatching host regex ignoreErr) host.depth dir
  if regex = ascii ['*'] then
    let s := s.tick host
    let s := s.occur host (.own (.erase (host.removable host.denied s.disk dir)))
    if s.disk.lookup (host.locate dir) = none then (none, s)
    else if ignoreErr dir (.path dir ((rmdirRefused dir).getD .denied)) then walkDir s
    else (none, s)
  else walkDir s

def FileFilterRule.remove (host : Host) (ignoreErr : Bytes → Error → Bool)
    (rule : FileFilterRule) (s : State) : Returns :=
  let dir := rule.getDir
  let s := s.tick host
  match host.stat s.disk dir with
  | .error .notExist => (none, s)
  | .error e => (some (.err (.path dir e)), s)
  | .ok (.dir _) => rmDir host dir rule.regex ignoreErr s
  | .ok (.file _) => rmFile host dir s

/-! ## `DoMove` -/

/-- The callback `DoMove` passes to `remove`. -/
def isPathError (_fileName : Bytes) : Error → Bool
  | .path _ _ => true
  | _ => false

/-- The directory the files are copied to. -/
def Host.dstPath (host : Host) (tmpDir : Bytes) : Bytes :=
  join [render host.pwd, logtmp.bytes, tmpDir]

def Host.archiveFile (host : Host) (tmpDir : Bytes) : Bytes :=
  join [render host.pwd, logtmp.bytes, tmpDir ++ ascii ['.', 'z', 'i', 'p']]

/-- The part of `DoMove` behind the test for the archive. -/
def MoveTask.move (host : Host) (task : MoveTask) (tmpDir : Bytes) (s : State) : Returns :=
  let dstPath := host.dstPath tmpDir
  onNil (errorf "MkdirIfNeeded err:%v" (mkdirIfNeeded host dstPath s)) fun s =>
  onNil (forEach (copyDir host task dstPath) task.fileFilterRules s) fun s =>
  let s := mkdirEmptyFileIfNeeded host dstPath s
  if task.isDeleteSourceFile then
    errorf "remove rsource err:%v"
      (forEach (FileFilterRule.remove host isPathError) task.fileFilterRules s)
  else (none, s)

def MoveTask.doMove (host : Host) (task : MoveTask) (tmpDir : Bytes) (s : State) :
    Except (Stop Error) ArchiveTaskDesc × State :=
  let archiveTaskDesc : ArchiveTaskDesc :=
    { files := [⟨host.dstPath tmpDir, ascii ['*'], 24 * 3600⟩]
      archiveType := .zip
      archiveFile := host.archiveFile tmpDir }
  let s := s.tick host
  -- packed before
  if s.disk.lookup (host.locate (host.archiveFile tmpDir)) ≠ none then (.ok archiveTaskDesc, s)
  else match task.move host tmpDir s with
    | (none, s) => (.ok archiveTaskDesc, s)
    | (some stop, s) => (.error stop, s)

end Accumulation.Logfile
