/-
# Accumulation.Logfile.MoveFaithful — every selected log is below `dstPath`, byte for byte.

Where a file goes is settled by the rules and the tree before the call (`Goes`): a rule's filter
accepts it, and `destination` says where.  A copy that comes to lie below a rule's own directory may
go further.  A call copies every selected log faithfully if the walks see it, no two files go to one
place, no longer file lies where it goes, and neither the other copies nor `CleanExpiredData` nor
the removal of the sources come in the way (`Clear`, `doMove_faithful`).  `Underway` is what each
step of the call keeps under this condition.  In a call where no walk is hindered and no rule's
directory is above or below `dstPath` (`Quiet`) all that lies there in the end can be told from the
tree before it (`Comes`, `Quiet.comes`), so that faithful calls are told exactly.

Nothing in the code makes sure of it.  The destination is opened without truncation, so a longer
file of an earlier call keeps its tail (`leftover_not_faithful`); and the paths of two rules can
lose different parents and come out the same (`demoTwins`).
-/
import Accumulation.Logfile.MoveRuns

namespace Accumulation.Logfile

open Accumulation.Go Accumulation.Lib.Run

variable {host : Host} {task : MoveTask}

/-- A log a rule selects: its age is below the limit. -/
structure Selected (host : Host) (task : MoveTask) (start : Disk) (rule : FileFilterRule) (f : Path)
    (cell : FileCell) : Prop where
  mem : rule ∈ task.fileFilterRules
  below : host.locate rule.dir <+: f
  file : start.lookup f = some (.file cell)
  name : host.filepathMatch rule.regex (basename (render f)) = some true
  age : host.now - cell.modTime < task.uploadTimeRecentLimit

/-- Every selected log is below `dstPath`, byte for byte, and no two files have been copied to one
place. -/
structure Faithful (host : Host) (task : MoveTask) (tmpDir : Bytes) (start : Disk) (tree : Tree) :
    Prop where
  copied : ∀ rule f cell, Selected host task start rule f cell →
    ∃ q copy, tree.disk.lookup (host.locate (host.dstPath tmpDir) ++ q) = some (.file copy) ∧
      copy.content = cell.content
  apart : ∀ src src' dst, .own (.copy src dst) ∈ tree.events →
    .own (.copy src' dst) ∈ tree.events → src = src'

/-! ## Where the files go -/

/-- Where a rule sends what lies at `q` below its path, which is a directory if `q` is not empty. -/
def FileFilterRule.sends (host : Host) (rule : FileFilterRule) (dstPath : Bytes) (q : Path) :
    Option Path :=
  (destination (fun _ => q ≠ []) rule.getDir dstPath (pathTo rule.getDir q)).map host.locate

/-- The file `f` goes to `dst`: it is a file that a rule's filter accepts, or a copy that lies below
a rule's path and matches its pattern. -/
inductive Goes (host : Host) (task : MoveTask) (tmpDir : Bytes) (start : Disk) : Path → Path → Prop
  | log {rule q cell dst} (ha : Accepted host task start rule q cell)
      (hdst : rule.sends host (host.dstPath tmpDir) q = some dst) :
      Goes host task tmpDir start (host.locate rule.getDir ++ q) dst
  | copy {f rule q dst} (hf : Goes host task tmpDir start f (host.locate rule.getDir ++ q))
      (hrule : rule ∈ task.fileFilterRules)
      (hname : host.filepathMatch rule.regex (basename (pathTo rule.getDir q)) = some true)
      (hdst : rule.sends host (host.dstPath tmpDir) q = some dst) :
      Goes host task tmpDir start (host.locate rule.getDir ++ q) dst

/-- A log one of the rules selects. -/
def Wanted (host : Host) (task : MoveTask) (start : Disk) (f : Path) (cell : FileCell) : Prop :=
  ∃ rule, Selected host task start rule f cell

/-- Some rule removes the file `f`. -/
def RemovedBySome (host : Host) (task : MoveTask) (f : Path) : Prop :=
  ∃ rule ∈ task.fileFilterRules, rule.Dooms host f

/-- The walks see the log: no directory on the way refuses to be listed, and its age, as an `int32`,
is below the limit as well. -/
structure Seen (host : Host) (task : MoveTask) (start : Disk) (rule : FileFilterRule) (f : Path)
    (cell : FileCell) : Prop where
  listable : ∀ p, host.locate rule.dir <+: p → p <+: f → start.lookup p ≠ some (.dir false)
  age : int32 (host.now - cell.modTime) < task.uploadTimeRecentLimit

/-- `CleanExpiredData` removes no entry of `logtmp` that holds one of the logs `W`. -/
def SparesLogs (host : Host) (W : Path → FileCell → Prop) (cleaner : List (List Name)) : Prop :=
  ∀ names ∈ cleaner, ∀ name ∈ names, ∀ f cell, W f cell → ¬ host.pwd ++ [logtmp, name] <+: f

/-- Nor one that holds the place such a log goes to. -/
def SparesCopies (host : Host) (task : MoveTask) (tmpDir : Bytes) (start : Disk)
    (W : Path → FileCell → Prop) (cleaner : List (List Name)) : Prop :=
  ∀ names ∈ cleaner, ∀ name ∈ names, ∀ f cell dst, W f cell →
    Goes host task tmpDir start f dst → ¬ host.pwd ++ [logtmp, name] <+: dst

/-- No other file goes where one of the logs `W` goes, or is. -/
structure Apart (host : Host) (task : MoveTask) (tmpDir : Bytes) (start : Disk)
    (W : Path → FileCell → Prop) : Prop where
  apart : ∀ f cell f' dst, W f cell → Goes host task tmpDir start f dst →
    Goes host task tmpDir start f' dst → f' = f
  kept : ∀ f cell f', W f cell → Goes host task tmpDir start f' f → f' = f

/-- Nothing comes in the way of the copies. -/
structure Clear (host : Host) (task : MoveTask) (tmpDir : Bytes) (start : Disk)
    (cleaner : List (List Name)) : Prop where
  seen : ∀ rule f cell, Selected host task start rule f cell → Seen host task start rule f cell
  /-- no two files go to one place -/
  apart : ∀ f f' dst, Goes host task tmpDir start f dst → Goes host task tmpDir start f' dst →
    f = f'
  /-- nothing else goes where a selected log is -/
  kept : ∀ f cell f', Wanted host task start f cell → Goes host task tmpDir start f' f → f' = f
  /-- no file that lies where a log goes is longer than the log -/
  short : ∀ f cell dst old, Wanted host task start f cell →
    Goes host task tmpDir start f dst → start.lookup dst = some (.file old) →
    old.content.length ≤ cell.content.length
  /-- no rule removes a copy -/
  stays : task.isDeleteSourceFile = true → ∀ f cell dst, Wanted host task start f cell →
    Goes host task tmpDir start f dst → ¬ RemovedBySome host task dst
  logs : SparesLogs host (Wanted host task start) cleaner
  /-- `CleanExpiredData` may remove what an earlier call has left until `dstPath` is made -/
  copies : SparesCopies host task tmpDir start (Wanted host task start) (cleaner.drop 2)

/-- Nobody else is at work, every directory can be listed, no age wraps, and no rule's directory is
above or below `dstPath`. -/
structure Quiet (host : Host) (task : MoveTask) (tmpDir : Bytes) (start : Disk)
    (cleaner : List (List Name)) : Prop where
  alone : cleaner = []
  listable : ∀ p, start.lookup p ≠ some (.dir false)
  age : ∀ rule f cell, Selected host task start rule f cell →
    int32 (host.now - cell.modTime) < task.uploadTimeRecentLimit
  outside : ∀ rule ∈ task.fileFilterRules, ∀ x, host.locate (host.dstPath tmpDir) <+: x →
    ¬ host.locate rule.getDir <+: x

/-- What an earlier call has left in the file at `x`. -/
def leftover (start : Disk) (x : Path) : Bytes :=
  match start.lookup x with
  | some (.file cell) => cell.content
  | _ => []

/-- What a file holds when a quiet call ends: a log that goes there and, behind it, the tail of what
was there; or what it held before. -/
inductive Comes (host : Host) (task : MoveTask) (tmpDir : Bytes) (start : Disk) :
    Path → Bytes → Prop
  | sent {f cell x} (hgoes : Goes host task tmpDir start f x)
      (hfile : start.lookup f = some (.file cell)) :
      Comes host task tmpDir start x
        (cell.content ++ (leftover start x).drop cell.content.length)
  | left {x cell} (hfile : start.lookup x = some (.file cell))
      (hnone : ∀ f, ¬ Goes host task tmpDir start f x) :
      Comes host task tmpDir start x cell.content

/-- The file `f` is in the tree, and nothing is copied onto it. -/
def NotOverwritten (host : Host) (task : MoveTask) (tmpDir : Bytes) (start : Disk) (f : Path)
    (cell : FileCell) : Prop :=
  start.lookup f = some (.file cell) ∧ ∀ f', ¬ Goes host task tmpDir start f' f

/-- A file goes where some rule sends it. -/
theorem Goes.ends {tmpDir : Bytes} {start : Disk} {f dst : Path}
    (h : Goes host task tmpDir start f dst) :
    ∃ rule ∈ task.fileFilterRules, ∃ q, rule.sends host (host.dstPath tmpDir) q = some dst := by
  cases h with
  | log ha hdst => exact ⟨_, ha.mem, _, hdst⟩
  | copy _ hrule _ hdst => exact ⟨_, hrule, _, hdst⟩

/-! ## One step -/

/-- What holds all along where nothing comes in the way of the logs `W`; `left` is what stays of the
files of earlier calls at the places the logs go to. -/
structure Sound (host : Host) (task : MoveTask) (tmpDir : Bytes) (start : Disk)
    (W : Path → FileCell → Prop) (left : Path → Bytes) (s : State) : Prop where
  closed : s.disk.Closed
  /-- the files are those of the start and those that have been copied to -/
  files : ∀ x cell, s.disk.lookup x = some (.file cell) →
    start.lookup x = some (.file cell) ∨ ∃ f, Goes host task tmpDir start f x
  copies : ∀ src dst, .own (.copy src dst) ∈ s.events → Goes host task tmpDir start src dst
  spared : ∀ gone, .cleaned gone ∈ s.events → ∀ f cell, W f cell → ∀ p, p <+: f → p ∉ gone
  present : ∀ f cell, W f cell →
    ∃ now, s.disk.lookup f = some (.file now) ∧ now.content = cell.content
  /-- a file where a log goes has, behind the length of the log, what is left there -/
  rest : ∀ f cell dst old, W f cell → Goes host task tmpDir start f dst →
    s.disk.lookup dst = some (.file old) →
      old.content.drop cell.content.length = (left dst).drop cell.content.length
  there : ∀ f cell dst, W f cell → Goes host task tmpDir start f dst → left dst ≠ [] →
    ∃ old, s.disk.lookup dst = some (.file old)
  /-- what has been copied is there -/
  held : ∀ f cell dst, W f cell → .own (.copy f dst) ∈ s.events →
    ∃ copy, s.disk.lookup dst = some (.file copy) ∧
      copy.content = cell.content ++ (left dst).drop cell.content.length

/-- What holds from the time on when `dstPath` has been made. -/
structure Underway (host : Host) (task : MoveTask) (tmpDir : Bytes) (start : Disk)
    (W : Path → FileCell → Prop) (left : Path → Bytes) (s : State) : Prop
    extends Sound host task tmpDir start W left s where
  logs : SparesLogs host W s.cleaner
  copiesStay : SparesCopies host task tmpDir start W s.cleaner

variable {tmpDir : Bytes} {start : Disk} {W : Path → FileCell → Prop} {left : Path → Bytes}
  {s t : State}

/-- A step that copies nothing, and leaves the selected logs and their copies alone. -/
theorem Sound.frame (h : Sound host task tmpDir start W left s) (hclosed : t.disk.Closed)
    (hfile : ∀ x cell, t.disk.lookup x = some (.file cell) → s.disk.lookup x = some (.file cell) ∨
      (s.disk.lookup x = none ∧ cell.content = [] ∧ ∃ f, Goes host task tmpDir start f x))
    (hlogs : ∀ f cell now, W f cell → s.disk.lookup f = some (.file now) →
      t.disk.lookup f = some (.file now))
    (hheld : ∀ f cell dst now, W f cell → Goes host task tmpDir start f dst →
      .own (.copy f dst) ∈ s.events ∨ left dst ≠ [] →
      s.disk.lookup dst = some (.file now) → t.disk.lookup dst = some (.file now))
    (hcopies : ∀ src dst, .own (.copy src dst) ∈ t.events → .own (.copy src dst) ∈ s.events)
    (hspared : ∀ gone, .cleaned gone ∈ t.events → .cleaned gone ∈ s.events ∨
      ∀ f cell, W f cell → ∀ p, p <+: f → p ∉ gone) :
    Sound host task tmpDir start W left t where
  closed := hclosed
  files x cell hx := by
    rcases hfile x cell hx with hold | ⟨-, -, hnew⟩
    · exact h.files x cell hold
    · exact Or.inr hnew
  copies src dst hin := h.copies src dst (hcopies src dst hin)
  spared gone hin := by
    rcases hspared gone hin with hold | hnew
    · exact h.spared gone hold
    · exact hnew
  present f cell hf := by
    obtain ⟨now, hnow, hcontent⟩ := h.present f cell hf
    exact ⟨now, hlogs f cell now hf hnow, hcontent⟩
  rest f cell dst old hf hgoes hdst := by
    rcases hfile dst old hdst with hold | ⟨hnone, hempty, -⟩
    · exact h.rest f cell dst old hf hgoes hold
    · -- where a file is made anew nothing was left
      have hleft : left dst = [] := by
        by_contra hleft
        obtain ⟨old', hold⟩ := h.there f cell dst hf hgoes hleft
        cases hnone.symm.trans hold
      rw [hempty, hleft]
  there f cell dst hf hgoes hleft := by
    obtain ⟨old, hold⟩ := h.there f cell dst hf hgoes hleft
    exact ⟨old, hheld f cell dst old hf hgoes (Or.inr hleft) hold⟩
  held f cell dst hf hin := by
    have hin' := hcopies f dst hin
    obtain ⟨copy, hcopy, hcontent⟩ := h.held f cell dst hf hin'
    exact ⟨copy, hheld f cell dst copy hf (h.copies f dst hin') (Or.inl hin') hcopy, hcontent⟩

/-- `CleanExpiredData` removes no entry of `logtmp` that holds `f`. -/
def NotSwept (host : Host) (f : Path) (cleaner : List (List Name)) : Prop :=
  ∀ names ∈ cleaner, ∀ name ∈ names, ¬ host.pwd ++ [logtmp, name] <+: f

/-- `CleanExpiredData` removes nothing at or above a place that its entries do not hold. -/
theorem tick_lookup {x p : Path} (hx : NotSwept host x s.cleaner) (hp : p <+: x) :
    (s.tick host).disk.lookup p = s.disk.lookup p := by
  rcases tick_cases host s with hsame | ⟨names, cleaner, hcleaner, htick⟩
  · rw [hsame]
  · rw [htick]
    refine lookup_erased fun hmem => ?_
    obtain ⟨name, hname, hbelow, -⟩ := below_of_cleaned hmem
    exact hx names (hcleaner ▸ List.mem_cons_self) name hname (hbelow.trans hp)

theorem cleaner_tick (host : Host) (s : State) : (s.tick host).cleaner = s.cleaner.tail := by
  unfold State.tick
  split
  · rename_i hcleaner
    rw [hcleaner]
    rfl
  · rename_i hcleaner
    rw [hcleaner]
    rfl

/-- It makes and changes nothing. -/
theorem lookup_of_tick {x : Path} {e : Entry} (h : (s.tick host).disk.lookup x = some e) :
    s.disk.lookup x = some e := by
  rcases tick_cases host s with hsame | ⟨names, cleaner, -, htick⟩
  · rwa [hsame] at h
  · rw [htick] at h
    by_cases hgone : x ∈ names.flatMap fun name =>
        s.disk.removable host.denied (host.pwd ++ [logtmp, name])
    · cases (lookup_erased_mem hgone).symm.trans h
    · exact (lookup_erased hgone).symm.trans h

/-- What it removes it removes with everything below it. -/
theorem tick_closed (h : s.disk.Closed) : (s.tick host).disk.Closed := by
  rcases tick_cases host s with hsame | ⟨names, cleaner, -, htick⟩
  · rw [hsame]
    exact h
  · rw [htick]
    refine closed_erased h fun p hp q hq hpq => ?_
    obtain ⟨name, hname, -, hp⟩ := below_of_cleaned hp
    exact List.mem_flatMap.mpr ⟨name, hname, removable_below hp hq hpq⟩

/-- **The turn of `CleanExpiredData`.** -/
theorem Sound.tick (h : Sound host task tmpDir start W left s) (hlogs : SparesLogs host W s.cleaner)
    (hheld : ∀ f cell dst, W f cell → Goes host task tmpDir start f dst →
      .own (.copy f dst) ∈ s.events ∨ left dst ≠ [] → NotSwept host dst s.cleaner) :
    Sound host task tmpDir start W left (s.tick host) := by
  refine h.frame (tick_closed h.closed) (fun x cell hx => Or.inl (lookup_of_tick hx))
    (fun f cell now hf hnow => ?_) (fun f cell dst now hf hgoes hin hnow => ?_) ?_ ?_
  case refine_1 =>
    exact (tick_lookup (fun names hnames name hname => hlogs names hnames name hname f cell hf)
      List.prefix_rfl).trans hnow
  case refine_2 => exact (tick_lookup (hheld f cell dst hf hgoes hin) List.prefix_rfl).trans hnow
  all_goals rcases tick_cases host s with hsame | ⟨names, cleaner, hcleaner, htick⟩
  · rw [hsame]
    exact fun src dst hin => hin
  · rw [htick]
    intro src dst hin
    rcases List.mem_append.mp hin with hin | hin
    · exact hin
    · cases List.mem_singleton.mp hin
  · rw [hsame]
    exact fun gone hin => Or.inl hin
  · rw [htick]
    intro gone hin
    rcases List.mem_append.mp hin with hin | hin
    · exact Or.inl hin
    · obtain rfl := Event.cleaned.inj (List.mem_singleton.mp hin)
      refine Or.inr fun f cell hf p hp hgone => ?_
      obtain ⟨name, hname, hbelow, -⟩ := below_of_cleaned hgone
      exact hlogs names (hcleaner ▸ List.mem_cons_self) name hname f cell hf (hbelow.trans hp)

theorem Underway.not_below (h : Underway host task tmpDir start W left s) {f dst : Path}
    {cell : FileCell} (hf : W f cell) (hgoes : Goes host task tmpDir start f dst) :
    ∀ names ∈ s.cleaner, ∀ name ∈ names, ¬ host.pwd ++ [logtmp, name] <+: dst :=
  fun names hnames name hname => h.copiesStay names hnames name hname f cell dst hf hgoes

theorem Underway.tick (h : Underway host task tmpDir start W left s) :
    Underway host task tmpDir start W left (s.tick host) := by
  refine ⟨h.toSound.tick h.logs fun f cell dst hf hgoes _ => h.not_below hf hgoes, ?_, ?_⟩
  · rw [cleaner_tick]
    exact fun names hnames => h.logs names (List.mem_of_mem_tail hnames)
  · rw [cleaner_tick]
    exact fun names hnames => h.copiesStay names (List.mem_of_mem_tail hnames)

/-- An operation of the call that copies nothing, where the tree allows it. -/
theorem Sound.own {op : FileOp} (h : Sound host task tmpDir start W left s)
    (hop : Event.NotCopying (.own op)) (hclosed : (op.apply host.now s.disk).Closed)
    (hfile : ∀ x cell, (op.apply host.now s.disk).lookup x = some (.file cell) →
      s.disk.lookup x = some (.file cell) ∨
        (s.disk.lookup x = none ∧ cell.content = [] ∧ ∃ f, Goes host task tmpDir start f x))
    (hkeep : ∀ x cell, s.disk.lookup x = some (.file cell) →
      (op.apply host.now s.disk).lookup x = some (.file cell)) :
    Sound host task tmpDir start W left (s.occur host (.own op)) := by
  refine h.frame hclosed hfile (fun x _ now _ => hkeep x now)
    (fun _ _ x now _ _ _ => hkeep x now) ?_ ?_
  · intro src dst hin
    rcases List.mem_append.mp hin with hin | hin
    · exact hin
    · rw [← List.mem_singleton.mp hin] at hop
      exact False.elim hop
  · intro gone hin
    rcases List.mem_append.mp hin with hin | hin
    · exact Or.inl hin
    · cases List.mem_singleton.mp hin

/-- **Making a directory.** -/
theorem Sound.mkdirIfNeeded (h : Sound host task tmpDir start W left (s.tick host)) (dir : Bytes) :
    Sound host task tmpDir start W left (mkdirIfNeeded host dir s).2 ∧
      (mkdirIfNeeded host dir s).2.cleaner = (s.tick host).cleaner := by
  simp only [Logfile.mkdirIfNeeded]
  split
  · unfold State.call
    split
    · exact ⟨h, rfl⟩
    · rename_i hrefused
      have hcross : (s.tick host).disk.crossesFile (host.locate dir) = false := by
        by_contra hcross
        rw [Disk.mkdirRefused, if_pos (by simpa using hcross)] at hrefused
        cases hrefused
      refine ⟨h.own trivial (closed_mkdirs h.closed hcross) ?_ fun x cell => lookup_mkdirs, rfl⟩
      intro x cell hx
      rw [FileOp.apply, lookup_mkdirs_eq] at hx
      refine Or.inl ?_
      cases hold : (s.tick host).disk.lookup x with
      | some e =>
        rw [hold] at hx
        exact hx
      | none =>
        rw [hold] at hx
        dsimp only at hx
        split at hx
        · cases hx
        · cases hx
  · exact ⟨h, rfl⟩

theorem Underway.mkdirIfNeeded (h : Underway host task tmpDir start W left s) (dir : Bytes) :
    Underway host task tmpDir start W left (mkdirIfNeeded host dir s).2 := by
  obtain ⟨hsound, hcleaner⟩ := h.tick.toSound.mkdirIfNeeded dir
  exact ⟨hsound, hcleaner ▸ h.tick.logs, hcleaner ▸ h.tick.copiesStay⟩

/-- **Opening a file** where something goes. -/
theorem Underway.openFile (h : Underway host task tmpDir start W left s) {f dst : Path}
    (hgoes : Goes host task tmpDir start f dst)
    (hrefused : s.disk.createRefused host.denied dst = none) :
    Underway host task tmpDir start W left (s.occur host (.own (.openFile dst))) ∧
      ∃ old, (s.occur host (.own (.openFile dst))).disk.lookup dst = some (.file old) := by
  have hopened : ∃ old, (s.disk.opened host.now dst).lookup dst = some (.file old) := by
    cases hdst : s.disk.lookup dst with
    | none =>
      rw [Disk.opened, if_pos hdst]
      exact ⟨_, AList.lookup_insert _⟩
    | some e =>
      rw [Disk.opened, if_neg (by rw [hdst]; exact Option.some_ne_none _), hdst]
      cases e with
      | file old => exact ⟨old, rfl⟩
      | dir listable =>
        rw [Disk.createRefused, hdst] at hrefused
        cases hrefused
  refine ⟨⟨h.own trivial (closed_opened h.closed hrefused) ?_ fun x cell => lookup_opened, h.logs,
    h.copiesStay⟩, hopened⟩
  intro x cell hx
  rw [FileOp.apply] at hx
  unfold Disk.opened at hx
  split at hx
  · rename_i hnone
    by_cases hself : x = dst
    · rw [hself, AList.lookup_insert] at hx
      refine Or.inr ⟨hself ▸ hnone, ?_, f, hself ▸ hgoes⟩
      rw [← Entry.file.inj (Option.some.inj hx)]
    · rw [AList.lookup_insert_ne hself] at hx
      exact Or.inl hx
  · exact Or.inl hx

/-- A log that is copied onto a file: what is behind it stays. -/
theorem Sound.copied (h : Sound host task tmpDir start W left s) {src dst : Path}
    {cell old : FileCell} (hsrc : W src cell) (hgoes : Goes host task tmpDir start src dst)
    (hold : s.disk.lookup dst = some (.file old)) :
    ∃ copy, (s.disk.copied host.now src dst).lookup dst = some (.file copy) ∧
      copy.content = cell.content ++ (left dst).drop cell.content.length := by
  obtain ⟨now, hnow, hcontent⟩ := h.present src cell hsrc
  obtain ⟨copy, hcopy, hbytes⟩ := lookup_copied host.now hnow hold
  refine ⟨copy, hcopy, ?_⟩
  rw [hbytes, hcontent, h.rest src cell dst old hsrc hgoes hold]

/-- **Copying a file.** -/
theorem Underway.copy (hapart : Apart host task tmpDir start W)
    (h : Underway host task tmpDir start W left s) {src dst : Path}
    (hgoes : Goes host task tmpDir start src dst)
    (hthere : ∀ cell, W src cell → ∃ old, s.disk.lookup dst = some (.file old)) :
    Underway host task tmpDir start W left (s.occur host (.own (.copy src dst))) := by
  have hmem {x y : Path}
      (hin : .own (.copy x y) ∈ (s.occur host (.own (.copy src dst))).events) :
      .own (.copy x y) ∈ s.events ∨ x = src ∧ y = dst := by
    rcases List.mem_append.mp hin with hin | hin
    · exact Or.inl hin
    · obtain ⟨rfl, rfl⟩ := FileOp.copy.inj (Event.own.inj (List.mem_singleton.mp hin))
      exact Or.inr ⟨rfl, rfl⟩
  have hother {x : Path} (hx : x ≠ dst) :
      (s.occur host (.own (.copy src dst))).disk.lookup x = s.disk.lookup x := lookup_copied_ne hx
  refine ⟨⟨closed_copied h.closed src dst, ?_, ?_, ?_, ?_, ?_, ?_, ?_⟩, h.logs, h.copiesStay⟩
  · intro x cell hx
    by_cases hself : x = dst
    · exact Or.inr ⟨src, hself ▸ hgoes⟩
    · exact h.files x cell ((hother hself).symm.trans hx)
  · intro x y hin
    rcases hmem hin with hin | ⟨rfl, rfl⟩
    · exact h.copies x y hin
    · exact hgoes
  · intro gone hin
    rcases List.mem_append.mp hin with hin | hin
    · exact h.spared gone hin
    · cases List.mem_singleton.mp hin
  · intro f cell hf
    by_cases hself : f = dst
    · -- onto itself
      obtain rfl : src = f := hapart.kept f cell src hf (hself ▸ hgoes)
      obtain ⟨now, hnow, hcontent⟩ := h.present src cell hf
      obtain ⟨copy, hcopy, hbytes⟩ := lookup_copied host.now hnow hnow
      refine ⟨copy, hself ▸ hcopy, ?_⟩
      rw [hbytes, List.drop_length, List.append_nil, hcontent]
    · obtain ⟨now, hnow, hcontent⟩ := h.present f cell hf
      exact ⟨now, (hother hself).trans hnow, hcontent⟩
  · intro f cell y old hf hgoes' hy
    by_cases hself : y = dst
    · obtain rfl := hself
      obtain rfl := hapart.apart f cell src y hf hgoes' hgoes
      obtain ⟨old', hold'⟩ := hthere cell hf
      obtain ⟨copy, hcopy, hcontent⟩ := h.copied hf hgoes hold'
      obtain rfl : copy = old := Entry.file.inj (Option.some.inj (hcopy.symm.trans hy))
      rw [hcontent, List.drop_left]
    · exact h.rest f cell y old hf hgoes' ((hother hself).symm.trans hy)
  · intro f cell y hf hgoes' hleft
    obtain ⟨old, hold⟩ := h.there f cell y hf hgoes' hleft
    by_cases hself : y = dst
    · obtain rfl := hself
      obtain rfl := hapart.apart f cell src y hf hgoes' hgoes
      exact (h.copied hf hgoes hold).imp fun _ hcopy => hcopy.1
    · exact ⟨old, (hother hself).trans hold⟩
  · intro f cell y hf hin
    by_cases hself : y = dst
    · obtain rfl := hself
      have hgoes' : Goes host task tmpDir start f y := by
        rcases hmem hin with hin | ⟨rfl, -⟩
        · exact h.copies f y hin
        · exact hgoes
      obtain rfl := hapart.apart f cell src y hf hgoes' hgoes
      obtain ⟨old, hold⟩ := hthere cell hf
      exact h.copied hf hgoes hold
    · rcases hmem hin with hin | ⟨-, hy⟩
      · obtain ⟨copy, hcopy, hcontent⟩ := h.held f cell y hf hin
        exact ⟨copy, (hother hself).trans hcopy, hcontent⟩
      · exact absurd hy hself

/-! ## A walk -/

/-- The string of the root is all that `destination` asks `isDir` about. -/
theorem destination_congr {isDir isDir' : Bytes → Bool} {srcPath : Bytes}
    (h : isDir srcPath = isDir' srcPath) (dstPath path : Bytes) :
    destination isDir srcPath dstPath path = destination isDir' srcPath dstPath path := by
  simp only [destination, h]

/-- In a closed tree a rule's path is a directory if there is something below it. -/
theorem isDir_of_file {d : Disk} (hd : d.Closed) {srcPath : Bytes} (hdir : srcPath ≠ []) {q : Path}
    {cell : FileCell} (hfile : d.lookup (host.locate srcPath ++ q) = some (.file cell)) :
    isDir host d srcPath = decide (q ≠ []) := by
  unfold isDir Host.stat Disk.stat
  rw [if_neg hdir]
  by_cases hq : q = []
  · rw [hq, List.append_nil] at hfile
    rw [hfile, hq]
    rfl
  · obtain ⟨listable, hroot⟩ := hd.dir_above hq (by rw [hfile]; exact Option.some_ne_none _)
    rw [hroot]
    exact (decide_eq_true hq).symm

section Walk

variable {rule : FileFilterRule} {q : Path}

/-- What the filter accepts goes where `destination` says. -/
theorem Underway.goes (h : Underway host task tmpDir start W left s)
    (hrule : rule ∈ task.fileFilterRules) (hdir : rule.getDir ≠ []) {fi : FileCell} {dst : Bytes}
    (hfile : s.disk.lookup (host.locate rule.getDir ++ q) = some (.file fi))
    (hpasses : task.fileFilter host rule.regex (basename (pathTo rule.getDir q)) fi = true)
    (hdst : destination (isDir host s.disk) rule.getDir (host.dstPath tmpDir)
      (pathTo rule.getDir q) = some dst) :
    Goes host task tmpDir start (host.locate rule.getDir ++ q) (host.locate dst) := by
  have hsends : rule.sends host (host.dstPath tmpDir) q = some (host.locate dst) := by
    have hsame : decide (q ≠ []) = isDir host s.disk rule.getDir :=
      (isDir_of_file h.closed hdir hfile).symm
    rw [FileFilterRule.sends, destination_congr hsame, hdst]
    rfl
  rcases h.files _ fi hfile with hstart | ⟨f, hf⟩
  · exact .log ⟨hrule, hdir, hstart, hpasses⟩ hsends
  · refine .copy hf hrule ?_ hsends
    unfold MoveTask.fileFilter at hpasses
    split at hpasses
    · assumption
    · nomatch hpasses

/-- **Opening the destination and writing to it.** -/
theorem Underway.copyTo (hapart : Apart host task tmpDir start W)
    (h : Underway host task tmpDir start W left s) {path dst : Bytes}
    (hgoes : Goes host task tmpDir start (host.locate path) (host.locate dst)) :
    Underway host task tmpDir start W left (onNil (errorf "open dstPath %s:err:%v"
      ((s.tick host).call host dst
        ((s.tick host).disk.createRefused host.denied (host.locate dst))
        (.openFile (host.locate dst))))
      fun s => copyFrom host path (host.locate dst) (s.tick host)).2 := by
  have hticked := h.tick
  generalize s.tick host = u at hticked ⊢
  unfold State.call
  split
  · exact hticked
  · rename_i hrefused
    obtain ⟨hopened, old, hold⟩ := hticked.openFile hgoes hrefused
    -- the file is still there when it is written to
    have hthere : ∀ cell, W (host.locate path) cell →
        ∃ old, (State.tick host (u.occur host (.own (.openFile (host.locate dst))))).disk.lookup
          (host.locate dst) = some (.file old) := by
      intro cell hpath
      exact ⟨old, (tick_lookup (hopened.not_below hpath hgoes) List.prefix_rfl).trans hold⟩
    have hready := hopened.tick
    show Underway host task tmpDir start W left (copyFrom host path (host.locate dst)
      (State.tick host (u.occur host (.own (.openFile (host.locate dst)))))).2
    generalize State.tick host (u.occur host (.own (.openFile (host.locate dst)))) = v
      at hthere hready ⊢
    simp only [copyFrom]
    split
    · exact hready
    · unfold State.call
      split
      · exact hready
      · exact hready.copy hapart hgoes hthere

/-- **What the walk does at one place.** -/
theorem Underway.copyFile (hapart : Apart host task tmpDir start W)
    (h : Underway host task tmpDir start W left s) (hrule : rule ∈ task.fileFilterRules)
    (hdir : rule.getDir ≠ []) (info : Option Entry) (e : Option Errno)
    (hinfo : ∀ cell, info = some (.file cell) →
      s.disk.lookup (host.locate rule.getDir ++ q) = some (.file cell)) :
    Underway host task tmpDir start W left (copyFile host task rule.regex rule.getDir
      (host.dstPath tmpDir) (pathTo rule.getDir q) info e s).2 := by
  rcases info with _ | fi | listable
  · exact h
  · simp only [Logfile.copyFile]
    split
    · rename_i hpasses
      split
      · exact h
      · rename_i dst hdst
        have hplace : host.locate (pathTo rule.getDir q) = host.locate rule.getDir ++ q :=
          (locate_pathTo host.pwd hdir q).1
        have hgoes := h.goes hrule hdir (hinfo fi rfl) hpasses hdst
        rw [← hplace] at hgoes
        have hmade := h.mkdirIfNeeded (Go.dir dst)
        generalize Logfile.mkdirIfNeeded host (Go.dir dst) s = r at hmade ⊢
        rcases r with ⟨_ | stop, u⟩
        · exact Underway.copyTo hapart hmade hgoes
        · exact hmade
    · exact h
  · exact h

/-- **A rule's turn.** -/
theorem Underway.copyDir (hapart : Apart host task tmpDir start W)
    (h : Underway host task tmpDir start W left s) (hrule : rule ∈ task.fileFilterRules) :
    Underway host task tmpDir start W left (copyDir host task (host.dstPath tmpDir) rule s).2 := by
  have hleads (hdir : rule.getDir ≠ []) : Leads host.view (Logfile.copyFile host task rule.regex
      rule.getDir (host.dstPath tmpDir)) rule.getDir
      fun s t => Underway host task tmpDir start W left s →
        Underway host task tmpDir start W left t := by
    refine ⟨⟨fun _ h => h, fun hst htu h => htu (hst h)⟩, fun _ h => h.tick, ?_⟩
    intro q info e s hinfo h
    refine h.copyFile hapart hrule hdir info e fun cell hcell => ?_
    rw [← hinfo cell hcell]
    exact congrArg s.disk.lookup (locate_pathTo host.pwd hdir q).1.symm
  simp only [Logfile.copyDir]
  split
  · exact h.tick
  · rw [errorf_snd]
    exact h.tick
  · rename_i hstat
    exact walk_rel (hleads (stat_ok_iff.mp hstat).1) _ _ h.tick

end Walk

/-! ## A call -/

/-- A call that returns nil comes to its end. -/
theorem move_eq_none {tmpDir : Bytes} {s t : State} (h : task.move host tmpDir s = (none, t)) :
    ∃ u v, mkdirIfNeeded host (host.dstPath tmpDir) s = (none, u) ∧
      forEach (copyDir host task (host.dstPath tmpDir)) task.fileFilterRules u = (none, v) ∧
      if task.isDeleteSourceFile then
        forEach (FileFilterRule.remove host isPathError) task.fileFilterRules
          (mkdirEmptyFileIfNeeded host (host.dstPath tmpDir) v) = (none, t)
      else mkdirEmptyFileIfNeeded host (host.dstPath tmpDir) v = t := by
  obtain ⟨u, hu, h⟩ := onNil_eq_none h
  obtain ⟨v, hv, h⟩ := onNil_eq_none h
  refine ⟨u, v, errorf_eq_none hu, hv, ?_⟩
  dsimp only at h
  split at h
  · rename_i hdelete
    rw [if_pos hdelete]
    exact errorf_eq_none h
  · rename_i hdelete
    rw [if_neg hdelete]
    exact (Prod.mk.inj h).2

/-- Entries removed later do not hold `x`, and what is at `x` is what was there. -/
def Undisturbed (host : Host) (x : Path) (s t : State) : Prop :=
  NotSwept host x s.cleaner → NotSwept host x t.cleaner ∧ t.disk.lookup x = s.disk.lookup x

theorem undisturbed_later (x : Path) : Later (Undisturbed host x) where
  refl _ hs := ⟨hs, rfl⟩
  trans := by
    intro s t u hst htu hs
    obtain ⟨ht, hsame⟩ := hst hs
    obtain ⟨hu, hsame'⟩ := htu ht
    exact ⟨hu, hsame'.trans hsame⟩

theorem undisturbed_tick (x : Path) (s : State) : Undisturbed host x s (s.tick host) :=
  fun hs => ⟨fun names hnames => hs names (List.mem_of_mem_tail (cleaner_tick host s ▸ hnames)),
    tick_lookup hs List.prefix_rfl⟩

theorem undisturbed_erase {x : Path} {gone : List Path} (hx : x ∉ gone) (s : State) :
    Undisturbed host x s (s.occur host (.own (.erase gone))) :=
  fun hs => ⟨hs, lookup_erased hx⟩

/-- **Removing the sources** leaves alone what no rule removes. -/
theorem undisturbed_remove {x : Path} (hx : ¬ RemovedBySome host task x)
    (ignoreErr : Bytes → Error → Bool) (s : State) : Undisturbed host x s
      (forEach (FileFilterRule.remove host ignoreErr) task.fileFilterRules s).2 := by
  refine forEach_rel (undisturbed_later x) _ (fun rule hrule s => Covers.remove ?_ ignoreErr s) s
  refine ⟨undisturbed_later x, undisturbed_tick x, ?_, ?_⟩
  · intro q hq s
    apply (undisturbed_later x).trans (undisturbed_tick x s)
    show Undisturbed host x (s.tick host) (State.call host _ _ _ (s.tick host)).2
    unfold State.call
    split
    · exact (undisturbed_later x).refl _
    · rename_i hrefused
      refine undisturbed_erase (fun hmem => hx ?_) _
      rw [List.mem_singleton.mp hmem]
      exact ⟨rule, hrule, Host.not_denied hrefused, q, (locate_pathTo host.pwd hq.dir q).1.symm, hq⟩
  · intro hdir hstar s
    refine undisturbed_erase (fun hmem => hx ?_) s
    obtain ⟨hthere, ⟨q, hq⟩, hfree⟩ := mem_removable.mp (Host.removable_subset hmem)
    exact ⟨rule, hrule, (hfree x hthere List.prefix_rfl).1, q, hq, hdir, Or.inr (Or.inl hstar)⟩

/-- Nothing is put into a directory that has a copy in it. -/
theorem mkdirEmpty_of_file {path : Bytes} {x : Path} {cell : FileCell}
    (hclosed : (s.tick host).disk.Closed) (hbelow : host.locate path <+: x)
    (hx : (s.tick host).disk.lookup x = some (.file cell)) :
    mkdirEmptyFileIfNeeded host path s = s.tick host := by
  simp only [mkdirEmptyFileIfNeeded]
  split
  · rename_i hnames
    exfalso
    obtain ⟨q, rfl⟩ := hbelow
    unfold Disk.readDirNames at hnames
    cases q with
    | nil =>
      rw [List.append_nil] at hx
      rw [hx] at hnames
      cases hnames
    | cons n q =>
      have hn : (s.tick host).disk.lookup (host.locate path ++ [n]) ≠ none := by
        by_cases hq : q = []
        · rw [← hq, hx]
          exact Option.some_ne_none _
        · rw [List.append_cons] at hx
          obtain ⟨listable, hdir⟩ := hclosed.dir_above hq (by rw [hx]; exact Option.some_ne_none _)
          rw [hdir]
          exact Option.some_ne_none _
      split at hnames
      · cases hnames
      · cases hnames
      · cases hnames
      · rw [← mem_names, Except.ok.inj hnames] at hn
        cases hn
  · rfl

/-- `dstPath` is a path. -/
theorem dstPath_render (host : Host) (tmpDir : Bytes) :
    host.dstPath tmpDir = render (host.locate (host.dstPath tmpDir)) :=
  join_rooted host.pwd host.pwd _

/-- A clean directory is used as it is. -/
theorem getDir_of_render (host : Host) {rule : FileFilterRule} (h : ∃ p, rule.dir = render p) :
    rule.getDir = render (host.locate rule.dir) := by
  rcases h with ⟨p, hp⟩
  show filePathNormalization rule.dir = _
  rw [hp, filePathNormalization_render, Host.locate, locate_render]

/-- From a clean directory every file goes below `dstPath`. -/
theorem goesTo_of_render (host : Host) (tmpDir : Bytes) (p q : Path) :
    GoesTo host (host.locate (host.dstPath tmpDir) <+: ·) (render p) (host.dstPath tmpDir)
      (pathTo (render p) q) := by
  have hbase := dstPath_render host tmpDir
  generalize host.locate (host.dstPath tmpDir) = base at hbase
  intro isDir dst hdst
  rcases destination_render isDir base (List.prefix_append p q) with ⟨q', -, hq'⟩
  rw [hbase, pathTo_render, hq'] at hdst
  obtain rfl := Option.some.inj hdst
  show base <+: Go.locate host.pwd (render (base ++ q'))
  rw [locate_render]
  exact List.prefix_append base q'

/-- Where a rule of a clean directory sends a file is below `dstPath`. -/
theorem sends_below {rule : FileFilterRule} {q dst : Path} (hdir : ∃ p, rule.dir = render p)
    (h : rule.sends host (host.dstPath tmpDir) q = some dst) :
    host.locate (host.dstPath tmpDir) <+: dst := by
  obtain ⟨path, hpath, rfl⟩ := Option.map_eq_some_iff.mp h
  rw [getDir_of_render host hdir] at hpath
  exact goesTo_of_render host tmpDir _ q _ path hpath

/-- It sends every file somewhere. -/
theorem sends_of_render (host : Host) (tmpDir : Bytes) {rule : FileFilterRule}
    (hdir : ∃ p, rule.dir = render p) (q : Path) :
    ∃ dst, rule.sends host (host.dstPath tmpDir) q = some dst := by
  have hbase := dstPath_render host tmpDir
  generalize host.locate (host.dstPath tmpDir) = base at hbase
  obtain ⟨q', -, hq'⟩ := destination_render (fun _ => decide (q ≠ [])) base
    (List.prefix_append (host.locate rule.dir) q)
  refine ⟨host.locate (render (base ++ q')), ?_⟩
  rw [FileFilterRule.sends, getDir_of_render host hdir, pathTo_render, hbase, hq']
  rfl

theorem Goes.under {start : Disk} {f dst : Path}
    (hdirs : ∀ rule ∈ task.fileFilterRules, ∃ p, rule.dir = render p)
    (h : Goes host task tmpDir start f dst) : host.locate (host.dstPath tmpDir) <+: dst := by
  obtain ⟨rule, hrule, q, hdst⟩ := h.ends
  exact sends_below (hdirs rule hrule) hdst

/-- Without an archive, a call that returns a description has moved the files. -/
theorem move_of_doMove {tmpDir : Bytes} {s t : State} {desc : ArchiveTaskDesc}
    (harchive : s.disk.lookup (host.locate (host.archiveFile tmpDir)) = none)
    (h : task.doMove host tmpDir s = (.ok desc, t)) :
    task.move host tmpDir (s.tick host) = (none, t) := by
  have htick : (s.tick host).disk.lookup (host.locate (host.archiveFile tmpDir)) = none := by
    unfold State.tick
    split
    · exact harchive
    · exact lookup_erased_none _ harchive
  simp only [MoveTask.doMove, htick, ne_eq, not_true_eq_false, if_false] at h
  split at h
  · rename_i u hu
    rw [hu, (Prod.mk.inj h).2]
  · nomatch (Prod.mk.inj h).1

/-- A file is in reach if the directories above it can be listed. -/
theorem inReach_of_listable {d : Disk} (hd : d.Closed) {root f : Path} {cell : FileCell}
    (hf : d.lookup f = some (.file cell))
    (h : ∀ p, root <+: p → p <+: f → d.lookup p ≠ some (.dir false)) : InReach d root f := by
  refine ⟨⟨cell, hf⟩, ?_⟩
  rintro p hp ⟨r, rfl⟩ hne
  have hr : r ≠ [] := fun hnil => hne (by rw [hnil, List.append_nil])
  obtain ⟨listable, hdir⟩ := hd.dir_above hr (by rw [hf]; exact Option.some_ne_none _)
  cases listable with
  | true => exact hdir
  | false => exact absurd hdir (h p hp ⟨r, rfl⟩)

/-- A selected log that the walks see is accepted and in reach. -/
theorem Selected.accepted {start : FileTree} {rule : FileFilterRule} {q : Path} {cell : FileCell}
    (hsel : Selected host task start.disk rule (host.locate rule.dir ++ q) cell)
    (hdir : rule.getDir = render (host.locate rule.dir))
    (hseen : Seen host task start.disk rule (host.locate rule.dir ++ q) cell) :
    Accepted host task start.disk rule q cell ∧
      InReach start.disk (host.locate rule.getDir) (host.locate rule.getDir ++ q) := by
  have hroot : host.locate rule.getDir = host.locate rule.dir := by
    rw [hdir, Host.locate, locate_render]
  refine ⟨⟨hsel.mem, ?_, hroot ▸ hsel.file, ?_⟩, ?_⟩
  · rw [hdir]
    exact render_ne_nil _
  · rw [hdir, pathTo_render, MoveTask.fileFilter, hsel.name]
    exact decide_eq_true hseen.age
  · rw [hroot]
    exact inReach_of_listable start.closed hsel.file hseen.listable

theorem notCopying_tick {s : State} (h : ∀ e ∈ s.events, e.NotCopying) :
    ∀ e ∈ (s.tick host).events, e.NotCopying := by
  rcases tick_cases host s with hsame | ⟨names, cleaner, -, htick⟩
  · rw [hsame]
    exact h
  · rw [htick]
    intro e he
    rcases List.mem_append.mp he with he | he
    · exact h e he
    · rw [List.mem_singleton.mp he]
      trivial

/-- **When copying ends** all this holds, if it held before `dstPath` was made. -/
theorem underway_of_copied {start : FileTree} {cleaner : List (List Name)} {u v : State}
    (hapart : Apart host task tmpDir start.disk W)
    (hinit : Sound host task tmpDir start.disk W left ⟨⟨start.disk, []⟩, cleaner⟩)
    (hlogs : SparesLogs host W cleaner)
    (hstay : SparesCopies host task tmpDir start.disk W (cleaner.drop 2))
    (hleft : ∀ f cell dst, W f cell → Goes host task tmpDir start.disk f dst → left dst ≠ [] →
      NotSwept host dst cleaner)
    (hmkdir : (mkdirIfNeeded host (host.dstPath tmpDir)
      (State.tick host ⟨⟨start.disk, []⟩, cleaner⟩)).2 = u)
    (hcopy : (forEach (copyDir host task (host.dstPath tmpDir)) task.fileFilterRules u).2 = v) :
    Underway host task tmpDir start.disk W left v := by
  have hu : Underway host task tmpDir start.disk W left u := by
    -- before `dstPath` is made nothing has been copied, and no copy can be removed
    have hfirst := hinit.tick hlogs fun f cell dst hf hgoes hin =>
      hleft f cell dst hf hgoes (hin.resolve_left List.not_mem_nil)
    have hcleaner := cleaner_tick host ⟨⟨start.disk, []⟩, cleaner⟩
    have hnone : ∀ e ∈ (State.tick host ⟨⟨start.disk, []⟩, cleaner⟩).events, e.NotCopying :=
      notCopying_tick fun e he => absurd he List.not_mem_nil
    generalize State.tick host ⟨⟨start.disk, []⟩, cleaner⟩ = s at hmkdir hfirst hcleaner hnone
    have hlogs' : SparesLogs host W s.cleaner := by
      rw [hcleaner]
      exact fun names hnames => hlogs names (List.mem_of_mem_tail hnames)
    have hsecond := hfirst.tick hlogs' fun f cell dst hf hgoes hin names hnames => by
      rw [hcleaner] at hnames
      exact hleft f cell dst hf hgoes (hin.resolve_left (hnone _)) names
        (List.mem_of_mem_tail hnames)
    obtain ⟨hsound, hrest⟩ := hsecond.mkdirIfNeeded (host.dstPath tmpDir)
    rw [hmkdir, cleaner_tick, hcleaner] at hrest
    rw [hmkdir] at hsound
    refine ⟨hsound, ?_, ?_⟩
    · rw [hrest]
      exact fun names hnames => hlogs names (List.mem_of_mem_tail (List.mem_of_mem_tail hnames))
    · rw [hrest, ← List.drop_one, ← List.drop_one, List.drop_drop]
      exact hstay
  rw [← hcopy]
  exact forEach_rel (R := fun s t => Underway host task tmpDir start.disk W left s →
    Underway host task tmpDir start.disk W left t) ⟨fun _ h => h, fun hst htu h => htu (hst h)⟩
    task.fileFilterRules (fun rule hrule s h => h.copyDir hapart hrule) u hu

/-- What is known of every call: its copies go where the rules send them. -/
theorem copies_go {tmpDir : Bytes} {start : FileTree} {cleaner : List (List Name)} {u v : State}
    (hmkdir : (mkdirIfNeeded host (host.dstPath tmpDir)
      (State.tick host ⟨⟨start.disk, []⟩, cleaner⟩)).2 = u)
    (hcopy : (forEach (copyDir host task (host.dstPath tmpDir)) task.fileFilterRules u).2 = v) :
    v.disk.Closed ∧
      ∀ src dst, .own (.copy src dst) ∈ v.events → Goes host task tmpDir start.disk src dst := by
  have hv : Underway host task tmpDir start.disk (fun _ _ => False) (fun _ => []) v := by
    refine underway_of_copied ⟨fun _ _ _ _ hno => hno.elim, fun _ _ _ hno => hno.elim⟩ ?_
      (fun _ _ _ _ _ _ hno => hno.elim) (fun _ _ _ _ _ _ _ hno => hno.elim)
      (fun _ _ _ hno => hno.elim) hmkdir hcopy
    exact ⟨start.closed, fun x cell hx => Or.inl hx, fun _ _ hin => absurd hin List.not_mem_nil,
      fun _ hin => absurd hin List.not_mem_nil, fun _ _ hno => hno.elim,
      fun _ _ _ _ hno => hno.elim, fun _ _ _ hno => hno.elim, fun _ _ _ hno => hno.elim⟩
  exact ⟨hv.closed, hv.copies⟩

/-- What comes after copying. -/
theorem removing_of_move {tmpDir : Bytes} {v t : State}
    (h : if task.isDeleteSourceFile then
        forEach (FileFilterRule.remove host isPathError) task.fileFilterRules
          (mkdirEmptyFileIfNeeded host (host.dstPath tmpDir) v) = (none, t)
      else mkdirEmptyFileIfNeeded host (host.dstPath tmpDir) v = t) :
    Evolves host (Event.Removing host fun _ => True) v t := by
  have hempty : Evolves host (Event.Removing host fun _ => True) v
      (mkdirEmptyFileIfNeeded host (host.dstPath tmpDir) v) :=
    mkdirEmptyFileIfNeeded_evolves (host.dstPath tmpDir) v
  split at h
  · exact rel_of_eq ((evolves_later _ _).trans hempty (forEach_evolves _
      (fun rule _ => remove_evolves isPathError fun _ _ => trivial) _)) h
  · exact h ▸ hempty

/-- It copies nothing. -/
theorem copy_mem_of_removing {gone : Path → Prop} {v t : State} {src dst : Path}
    (hvt : Evolves host (Event.Removing host gone) v t) (hin : .own (.copy src dst) ∈ t.events) :
    .own (.copy src dst) ∈ v.events := by
  obtain ⟨events, hkind, hevents⟩ := hvt.events
  rw [hevents] at hin
  rcases List.mem_append.mp hin with hin | hin
  · exact hin
  · exact False.elim (hkind _ hin).1

/-- What comes before the end of copying. -/
theorem copying_of_move {cleaner : List (List Name)} {d : Disk} {u v : State}
    (hmkdir : (mkdirIfNeeded host (host.dstPath tmpDir) (State.tick host ⟨⟨d, []⟩, cleaner⟩)).2 = u)
    (hcopy : (forEach (copyDir host task (host.dstPath tmpDir)) task.fileFilterRules u).2 = v) :
    Evolves host (Event.Copying host fun _ => True) ⟨⟨d, []⟩, cleaner⟩ u ∧
      Evolves host (Event.Copying host fun _ => True) u v := by
  have hR := evolves_later host (Event.Copying host fun _ => True)
  constructor
  · rw [← hmkdir]
    exact hR.trans (tick_evolves (fun _ hgone => hgone) _) (mkdirIfNeeded_evolves _ _)
  · rw [← hcopy]
    exact forEach_evolves _ (fun rule _ => copyDir_evolves fun _ _ _ _ => trivial) u

section Quiet

variable {start : FileTree} {cleaner : List (List Name)} {u v t : State} {f dst x : Path}

/-- In a quiet call only accepted files go anywhere. -/
theorem Quiet.accepted (h : Quiet host task tmpDir start.disk cleaner)
    (hdirs : ∀ rule ∈ task.fileFilterRules, ∃ p, rule.dir = render p)
    (hgoes : Goes host task tmpDir start.disk f dst) :
    ∃ rule q cell, f = host.locate rule.getDir ++ q ∧ Accepted host task start.disk rule q cell ∧
      rule.sends host (host.dstPath tmpDir) q = some dst := by
  cases hgoes with
  | log ha hdst => exact ⟨_, _, _, rfl, ha, hdst⟩
  | copy hf hrule _ _ =>
    exact absurd (List.prefix_append _ _) (h.outside _ hrule _ (hf.under hdirs))

/-- **An accepted file is copied** to where its rule sends it, in a quiet call. -/
theorem Quiet.copies (h : Quiet host task tmpDir start.disk cleaner)
    (hdirs : ∀ rule ∈ task.fileFilterRules, ∃ p, rule.dir = render p)
    (hgoes : Goes host task tmpDir start.disk f dst)
    (hmkdir : mkdirIfNeeded host (host.dstPath tmpDir)
      (State.tick host ⟨⟨start.disk, []⟩, cleaner⟩) = (none, u))
    (hcopy : forEach (copyDir host task (host.dstPath tmpDir)) task.fileFilterRules u = (none, v)) :
    .own (.copy f dst) ∈ v.events := by
  obtain ⟨rule, q, cell, rfl, ha, hsends⟩ := h.accepted hdirs hgoes
  obtain ⟨hstart, huv⟩ := copying_of_move (u := u) (v := v) (congrArg Prod.snd hmkdir)
    (congrArg Prod.snd hcopy)
  have hgo := (copies_go (congrArg Prod.snd hmkdir) (congrArg Prod.snd hcopy)).2
  obtain ⟨dst', rfl, hmem⟩ : CopiedTo (· = dst) (host.locate rule.getDir ++ q) v.toTree := by
    refine forEach_copies _ ha (fun _ _ _ _ _ _ => trivial) rfl
      (inReach_of_listable start.closed ha.file fun p _ _ => h.listable p) ?_ hstart hcopy
      fun e he => ?_
    · intro isDir' path hisDir hpath
      rw [isDir_of_file start.closed ha.dir ha.file] at hisDir
      rw [FileFilterRule.sends, ← destination_congr hisDir, hpath] at hsends
      exact Option.some.inj hsends
    · obtain ⟨events, hkind, hevents⟩ :=
        ((evolves_later host (Event.Copying host fun _ => True)).trans hstart huv).events
      have hevent := hkind e (by simpa [hevents] using he)
      refine spares_of_copying hevent.1 (fun src hsrc => ?_) fun gone hgone p _ hin => ?_
      · obtain rfl := hsrc
        exact absurd (List.prefix_append _ _)
          (h.outside rule ha.mem _ ((hgo src _ he).under hdirs))
      · obtain rfl := hgone
        obtain ⟨names, hnames, -⟩ := hevent.2 p hin
        rw [show cleaner = [] from h.alone] at hnames
        exact absurd hnames List.not_mem_nil
  exact hmem

/-- A quiet call keeps the files that nothing is copied onto, and their copies, if no two files go to
one place. -/
theorem Quiet.underway (h : Quiet host task tmpDir start.disk cleaner)
    (hapart : ∀ f f' dst, Goes host task tmpDir start.disk f dst →
      Goes host task tmpDir start.disk f' dst → f = f')
    (hmkdir : (mkdirIfNeeded host (host.dstPath tmpDir)
      (State.tick host ⟨⟨start.disk, []⟩, cleaner⟩)).2 = u)
    (hcopy : (forEach (copyDir host task (host.dstPath tmpDir)) task.fileFilterRules u).2 = v) :
    Underway host task tmpDir start.disk (NotOverwritten host task tmpDir start.disk)
      (leftover start.disk) v := by
  obtain rfl : cleaner = [] := h.alone
  refine underway_of_copied ⟨?_, ?_⟩ ?_ ?_ ?_ ?_ hmkdir hcopy
  · exact fun f _ f' dst _ hgoes hgoes' => hapart f' f dst hgoes' hgoes
  · exact fun f _ f' hf hgoes => absurd hgoes (hf.2 f')
  · refine ⟨start.closed, fun x cell hx => Or.inl hx, ?_, ?_,
      fun f cell hf => ⟨cell, hf.1, rfl⟩, ?_, ?_, ?_⟩
    · exact fun _ _ hin => absurd hin List.not_mem_nil
    · exact fun _ hin => absurd hin List.not_mem_nil
    · intro f cell dst old _ _ hdst
      rw [leftover, show start.disk.lookup dst = some (.file old) from hdst]
    · intro f cell dst _ _ hleft
      unfold leftover at hleft
      split at hleft
      · rename_i old hold
        exact ⟨old, hold⟩
      · exact absurd rfl hleft
    · exact fun _ _ _ _ hin => absurd hin List.not_mem_nil
  · exact fun _ hnames => absurd hnames List.not_mem_nil
  · exact fun _ hnames => absurd hnames List.not_mem_nil
  · exact fun _ _ _ _ _ _ _ hnames => absurd hnames List.not_mem_nil

/-- **What lies where** when copying ends. -/
theorem Quiet.comes (h : Quiet host task tmpDir start.disk cleaner)
    (hdirs : ∀ rule ∈ task.fileFilterRules, ∃ p, rule.dir = render p)
    (hapart : ∀ f f' dst, Goes host task tmpDir start.disk f dst →
      Goes host task tmpDir start.disk f' dst → f = f')
    (hmkdir : mkdirIfNeeded host (host.dstPath tmpDir)
      (State.tick host ⟨⟨start.disk, []⟩, cleaner⟩) = (none, u))
    (hcopy : forEach (copyDir host task (host.dstPath tmpDir)) task.fileFilterRules u = (none, v))
    (bytes : Bytes) :
    (∃ copy, v.disk.lookup x = some (.file copy) ∧ copy.content = bytes) ↔
      Comes host task tmpDir start.disk x bytes := by
  have hv := h.underway hapart (congrArg Prod.snd hmkdir) (congrArg Prod.snd hcopy)
  have hsent {f : Path} (hgoes : Goes host task tmpDir start.disk f x) {cell : FileCell}
      (hfile : start.disk.lookup f = some (.file cell)) :
      ∃ copy, v.disk.lookup x = some (.file copy) ∧
        copy.content = cell.content ++ (leftover start.disk x).drop cell.content.length := by
    refine hv.held f cell x ⟨hfile, fun f' hgoes' => ?_⟩ (h.copies hdirs hgoes hmkdir hcopy)
    obtain ⟨rule, q, cell, rfl, ha, -⟩ := h.accepted hdirs hgoes
    exact h.outside rule ha.mem _ (hgoes'.under hdirs) (List.prefix_append _ _)
  constructor
  · rintro ⟨copy, hcopied, rfl⟩
    by_cases hgoes : ∃ f, Goes host task tmpDir start.disk f x
    · obtain ⟨f, hgoes⟩ := hgoes
      obtain ⟨rule, q, cell, rfl, ha, -⟩ := h.accepted hdirs hgoes
      obtain ⟨copy', hcopied', hcontent⟩ := hsent hgoes ha.file
      obtain rfl : copy = copy' := Entry.file.inj (Option.some.inj (hcopied.symm.trans hcopied'))
      rw [hcontent]
      exact .sent hgoes ha.file
    · have hnone := not_exists.mp hgoes
      rcases hv.files x copy hcopied with hstart | hnew
      · exact .left hstart hnone
      · exact absurd hnew hgoes
  · intro hcomes
    cases hcomes with
    | sent hgoes hfile => exact hsent hgoes hfile
    | left hfile hnone => exact hv.present x _ ⟨hfile, hnone⟩

/-- What comes after copying changes nothing below `dstPath`, if there is a file. -/
theorem Quiet.unchanged (h : Quiet host task tmpDir start.disk cleaner)
    (hmkdir : (mkdirIfNeeded host (host.dstPath tmpDir)
      (State.tick host ⟨⟨start.disk, []⟩, cleaner⟩)).2 = u)
    (hcopy : (forEach (copyDir host task (host.dstPath tmpDir)) task.fileFilterRules u).2 = v)
    (ht : if task.isDeleteSourceFile then
        forEach (FileFilterRule.remove host isPathError) task.fileFilterRules
          (mkdirEmptyFileIfNeeded host (host.dstPath tmpDir) v) = (none, t)
      else mkdirEmptyFileIfNeeded host (host.dstPath tmpDir) v = t)
    (hdst : host.locate (host.dstPath tmpDir) <+: dst) {copy : FileCell}
    (hfile : v.disk.lookup dst = some (.file copy))
    (hx : host.locate (host.dstPath tmpDir) <+: x) : t.disk.lookup x = v.disk.lookup x := by
  obtain ⟨hsu, huv⟩ := copying_of_move hmkdir hcopy
  have hclean (p : Path) : NotSwept host p v.cleaner := by
    intro names hnames
    have hin := hsu.cleaner names (huv.cleaner names hnames)
    rw [show cleaner = [] from h.alone] at hin
    exact absurd hin List.not_mem_nil
  have hempty : mkdirEmptyFileIfNeeded host (host.dstPath tmpDir) v = v.tick host :=
    mkdirEmpty_of_file (tick_closed (copies_go hmkdir hcopy).1) hdst
      ((undisturbed_tick dst v (hclean dst)).2.trans hfile)
  have hkept : ¬ RemovedBySome host task x := by
    rintro ⟨rule, hrule, -, q, rfl, -⟩
    exact h.outside rule hrule _ hx (List.prefix_append _ _)
  have hvt : Undisturbed host x v t := by
    rw [hempty] at ht
    split at ht
    · exact rel_of_eq ((undisturbed_later x).trans (undisturbed_tick x v)
        (undisturbed_remove hkept isPathError _)) ht
    · exact ht ▸ undisturbed_tick x v
  exact (hvt (hclean x)).2

/-- **When a quiet call is faithful**: no two files go to one place, and the bytes of each selected
log come to lie below `dstPath`. -/
theorem Quiet.faithful_iff (h : Quiet host task tmpDir start.disk cleaner)
    (hdirs : ∀ rule ∈ task.fileFilterRules, ∃ p, rule.dir = render p)
    (hmkdir : mkdirIfNeeded host (host.dstPath tmpDir)
      (State.tick host ⟨⟨start.disk, []⟩, cleaner⟩) = (none, u))
    (hcopy : forEach (copyDir host task (host.dstPath tmpDir)) task.fileFilterRules u = (none, v))
    (ht : if task.isDeleteSourceFile then
        forEach (FileFilterRule.remove host isPathError) task.fileFilterRules
          (mkdirEmptyFileIfNeeded host (host.dstPath tmpDir) v) = (none, t)
      else mkdirEmptyFileIfNeeded host (host.dstPath tmpDir) v = t) :
    Faithful host task tmpDir start.disk t.toTree ↔
      (∀ f f' dst, Goes host task tmpDir start.disk f dst →
        Goes host task tmpDir start.disk f' dst → f = f') ∧
      ∀ rule f cell, Selected host task start.disk rule f cell →
        ∃ x, host.locate (host.dstPath tmpDir) <+: x ∧
          Comes host task tmpDir start.disk x cell.content := by
  have hvt := removing_of_move ht
  -- a selected log is copied, so that there is a file below `dstPath`
  have hsame (hapart : ∀ f f' dst, Goes host task tmpDir start.disk f dst →
      Goes host task tmpDir start.disk f' dst → f = f') {rule : FileFilterRule} {f : Path}
      {cell : FileCell} (hsel : Selected host task start.disk rule f cell) {x : Path}
      (hx : host.locate (host.dstPath tmpDir) <+: x) : t.disk.lookup x = v.disk.lookup x := by
    have hroot : host.locate rule.getDir = host.locate rule.dir := locate_getDir host rule
    obtain ⟨q, rfl⟩ := hsel.below
    obtain ⟨ha, -⟩ := hsel.accepted (getDir_of_render host (hdirs rule hsel.mem))
      ⟨fun p _ _ => h.listable p, h.age rule _ cell hsel⟩
    obtain ⟨dst, hdst⟩ := sends_of_render host tmpDir (hdirs rule hsel.mem) q
    obtain ⟨copy, hcopied, -⟩ := (h.comes hdirs hapart hmkdir hcopy _).mpr
      (.sent (.log ha hdst) ha.file)
    exact h.unchanged (congrArg Prod.snd hmkdir) (congrArg Prod.snd hcopy) ht
      (sends_below (hdirs rule hsel.mem) hdst) hcopied hx
  constructor
  · intro hfaithful
    have hapart : ∀ f f' dst, Goes host task tmpDir start.disk f dst →
        Goes host task tmpDir start.disk f' dst → f = f' := by
      intro f f' dst hgoes hgoes'
      exact hfaithful.apart f f' dst (hvt.mem (h.copies hdirs hgoes hmkdir hcopy))
        (hvt.mem (h.copies hdirs hgoes' hmkdir hcopy))
    refine ⟨hapart, fun rule f cell hsel => ?_⟩
    obtain ⟨q, copy, hcopied, hcontent⟩ := hfaithful.copied rule f cell hsel
    refine ⟨_, List.prefix_append _ q,
      (h.comes hdirs hapart hmkdir hcopy _).mp ⟨copy, ?_, hcontent⟩⟩
    exact (hsame hapart hsel (List.prefix_append _ q)).symm.trans hcopied
  · rintro ⟨hapart, hcomes⟩
    refine ⟨fun rule f cell hsel => ?_, fun src src' dst hin hin' => ?_⟩
    · obtain ⟨x, hx, hcome⟩ := hcomes rule f cell hsel
      obtain ⟨copy, hcopied, hcontent⟩ := (h.comes hdirs hapart hmkdir hcopy _).mpr hcome
      have hend := (hsame hapart hsel hx).trans hcopied
      obtain ⟨q, rfl⟩ := hx
      exact ⟨q, copy, hend, hcontent⟩
    · have hgo := (copies_go (congrArg Prod.snd hmkdir) (congrArg Prod.snd hcopy)).2
      exact hapart src src' dst (hgo _ _ (copy_mem_of_removing hvt hin))
        (hgo _ _ (copy_mem_of_removing hvt hin'))

end Quiet

/-- **Where nothing comes in the way** every selected log is copied faithfully. -/
theorem faithful_of_clear {start : FileTree} {cleaner : List (List Name)} {u v t : State}
    (hdirs : ∀ rule ∈ task.fileFilterRules, ∃ p, rule.dir = render p)
    (hclear : Clear host task tmpDir start.disk cleaner)
    (hmkdir : mkdirIfNeeded host (host.dstPath tmpDir)
      (State.tick host ⟨⟨start.disk, []⟩, cleaner⟩) = (none, u))
    (hcopy : forEach (copyDir host task (host.dstPath tmpDir)) task.fileFilterRules u = (none, v))
    (ht : if task.isDeleteSourceFile then
        forEach (FileFilterRule.remove host isPathError) task.fileFilterRules
          (mkdirEmptyFileIfNeeded host (host.dstPath tmpDir) v) = (none, t)
      else mkdirEmptyFileIfNeeded host (host.dstPath tmpDir) v = t) :
    Faithful host task tmpDir start.disk t.toTree := by
  have hplace : ∀ rule ∈ task.fileFilterRules, ∀ q,
      GoesTo host (host.locate (host.dstPath tmpDir) <+: ·) rule.getDir (host.dstPath tmpDir)
        (pathTo rule.getDir q) := by
    intro rule hrule q
    rw [getDir_of_render host (hdirs rule hrule)]
    exact goesTo_of_render host tmpDir _ q
  -- nothing is left behind the end of a log
  have hv : Underway host task tmpDir start.disk (Wanted host task start.disk) (fun _ => []) v := by
    refine underway_of_copied ⟨?_, hclear.kept⟩ ?_ hclear.logs hclear.copies ?_
      (congrArg Prod.snd hmkdir) (congrArg Prod.snd hcopy)
    · exact fun f cell f' dst _ hgoes hgoes' => hclear.apart f' f dst hgoes' hgoes
    · refine ⟨start.closed, fun x cell hx => Or.inl hx, ?_, ?_, ?_, ?_, ?_, ?_⟩
      · exact fun _ _ hin => absurd hin List.not_mem_nil
      · exact fun _ hin => absurd hin List.not_mem_nil
      · rintro f cell ⟨rule, hsel⟩
        exact ⟨cell, hsel.file, rfl⟩
      · intro f cell dst old hf hgoes hdst
        rw [List.drop_nil]
        exact List.drop_of_length_le (hclear.short f cell dst old hf hgoes hdst)
      · exact fun _ _ _ _ _ hleft => absurd rfl hleft
      · exact fun _ _ _ _ hin => absurd hin List.not_mem_nil
    · exact fun _ _ _ _ _ hleft => absurd rfl hleft
  have hcopies (src dst : Path) (hin : .own (.copy src dst) ∈ t.events) :
      Goes host task tmpDir start.disk src dst :=
    hv.copies src dst (copy_mem_of_removing (removing_of_move ht) hin)
  refine ⟨?_, fun src src' dst hin hin' =>
    hclear.apart src src' dst (hcopies _ _ hin) (hcopies _ _ hin')⟩
  intro rule f cell hsel
  have hwanted : Wanted host task start.disk f cell := ⟨rule, hsel⟩
  have hroot : host.locate rule.getDir = host.locate rule.dir := locate_getDir host rule
  obtain ⟨q, rfl⟩ := hsel.below
  obtain ⟨ha, hreach⟩ := hsel.accepted (getDir_of_render host (hdirs rule hsel.mem))
    (hclear.seen rule _ cell hsel)
  -- the walks come to the log
  obtain ⟨dst, hbelow, hmem⟩ : CopiedBelow (host.locate (host.dstPath tmpDir))
      (host.locate rule.getDir ++ q) v.toTree := by
    have hR := evolves_later host
      (Event.Copying host (host.locate (host.dstPath tmpDir) <+: ·))
    have hstart : Evolves host (Event.Copying host (host.locate (host.dstPath tmpDir) <+: ·))
        ⟨⟨start.disk, []⟩, cleaner⟩ u :=
      hR.trans (tick_evolves (fun _ hgone => hgone) _)
        (rel_of_eq (mkdirIfNeeded_evolves _ _) hmkdir)
    have huv : Evolves host (Event.Copying host (host.locate (host.dstPath tmpDir) <+: ·)) u v :=
      rel_of_eq (forEach_evolves _ (fun rule hrule => copyDir_evolves (hplace rule hrule)) u) hcopy
    refine forEach_copies _ ha hplace rfl hreach
      (fun isDir' dst _ => hplace rule hsel.mem q isDir' dst) hstart hcopy fun e he => ?_
    obtain ⟨events, hkind, hevents⟩ := (hR.trans hstart huv).events
    have hevent := (hkind e (by simpa [hevents] using he)).1
    rw [hroot]
    refine spares_of_copying hevent (fun src hsrc => ?_) fun gone hgone => ?_
    · obtain rfl := hsrc
      exact ⟨hclear.kept _ _ src hwanted (hv.copies _ _ he), hevent⟩
    · obtain rfl := hgone
      exact hv.spared gone he _ cell hwanted
  rw [hroot] at hmem
  have hgoes := hv.copies _ _ hmem
  obtain ⟨copy, hcopy, hcontent⟩ := hv.held _ cell dst hwanted hmem
  rw [List.drop_nil, List.append_nil] at hcontent
  have hclean := hv.not_below hwanted hgoes
  -- and what comes after copying leaves the copy alone
  have hempty : mkdirEmptyFileIfNeeded host (host.dstPath tmpDir) v = v.tick host :=
    mkdirEmpty_of_file hv.tick.closed hbelow
      ((undisturbed_tick dst v hclean).2.trans hcopy)
  have hvt : Undisturbed host dst v t := by
    rw [hempty] at ht
    split at ht
    · rename_i hdelete
      exact rel_of_eq ((undisturbed_later dst).trans (undisturbed_tick dst v)
        (undisturbed_remove (hclear.stays hdelete _ cell dst hwanted hgoes) isPathError _)) ht
    · exact ht ▸ undisturbed_tick dst v
  obtain ⟨q', rfl⟩ := hbelow
  exact ⟨q', copy, (hvt hclean).2.trans hcopy, hcontent⟩

/-- **`DoMove` copies every selected log faithfully** where nothing comes in the way.  Of a quiet
call it is known beforehand what each file below `dstPath` comes to hold, and so when it is
faithful. -/
theorem MoveTask.doMove_faithful (host : Host) (task : MoveTask) (tmpDir : Bytes) (start : FileTree)
    (cleaner : List (List Name)) (desc : ArchiveTaskDesc) (t : State)
    (hdirs : ∀ rule ∈ task.fileFilterRules, ∃ p, rule.dir = render p)
    (harchive : start.disk.lookup (host.locate (host.archiveFile tmpDir)) = none)
    (hret : task.doMove host tmpDir ⟨⟨start.disk, []⟩, cleaner⟩ = (.ok desc, t)) :
    (Clear host task tmpDir start.disk cleaner → Faithful host task tmpDir start.disk t.toTree) ∧
      (Quiet host task tmpDir start.disk cleaner →
        (Faithful host task tmpDir start.disk t.toTree ↔
          (∀ f f' dst, Goes host task tmpDir start.disk f dst →
            Goes host task tmpDir start.disk f' dst → f = f') ∧
          ∀ rule f cell, Selected host task start.disk rule f cell →
            ∃ x, host.locate (host.dstPath tmpDir) <+: x ∧
              Comes host task tmpDir start.disk x cell.content)) := by
  obtain ⟨u, v, hmkdir, hcopy, ht⟩ := move_eq_none (move_of_doMove harchive hret)
  exact ⟨fun hclear => faithful_of_clear hdirs hclear hmkdir hcopy ht,
    fun hquiet => hquiet.faithful_iff hdirs hmkdir hcopy ht⟩

/-! ## Calls that do and do not -/

/-- A machine whose clock shows 100 and on which `*` matches every name. -/
def demoHost : Host where
  pwd := locate [] (ascii ['/', 'w'])
  now := 100
  denied _ := false
  filepathMatch regex _ := some (regex = ascii ['*'])
  match_star _ _ := rfl
  sprintf := id
  depth := 8

/-- Copy all files of the given directories. -/
def demoTask (dirs : List (List Char)) : MoveTask :=
  newMoveTask (dirs.map fun dir => ⟨ascii dir, ascii ['*']⟩) 0 false

/-- A tree of files written ten seconds ago. -/
def demoDisk (files : List (List Char × List Char)) : Disk :=
  files.foldl (fun d (path, content) =>
    let p := locate [] (ascii path)
    (d.mkdirs p.dropLast).insert p (.file ⟨ascii content, 90, true, true⟩)) ∅

def demoRun (dirs : List (List Char)) (files : List (List Char × List Char)) :
    Except (Stop Error) ArchiveTaskDesc × State :=
  (demoTask dirs).doMove demoHost (ascii ['7']) ⟨⟨demoDisk files, []⟩, []⟩

/-- `/ab/l/f` -/
def demoLog (content : List Char) : List Char × List Char :=
  (['/', 'a', 'b', '/', 'l', '/', 'f'], content)

/-- `/w/logtmp/7/l/f`, where `/ab/l/f` is copied to -/
def demoCopy (content : List Char) : List Char × List Char :=
  (['/', 'w', '/', 'l', 'o', 'g', 't', 'm', 'p', '/', '7', '/', 'l', '/', 'f'], content)

def demoDir : List Char := ['/', 'a', 'b', '/', 'l']

/-- `/ab/l/f`, and nothing else. -/
def demoTree : FileTree := ⟨demoDisk [demoLog ['1']], Disk.closed_of_keys (by decide)⟩

/-- Two directories, a copy that an earlier call has left, and one of another call. -/
def demoLogs : List (List Char × List Char) :=
  [demoLog ['1'], (['/', 'a', 'b', '/', 'm', '/', 'f'], ['2']), demoCopy ['3'],
    (['/', 'w', '/', 'l', 'o', 'g', 't', 'm', 'p', '/', '8', '/', 'f'], ['4'])]

def demoLeft : FileTree := ⟨demoDisk demoLogs, Disk.closed_of_keys (by decide)⟩

def demoDirs : List (List Char) := [demoDir, ['/', 'a', 'b', '/', 'm']]

/-- Each log goes to its own directory. -/
theorem demo_goes {f dst : Path}
    (h : Goes demoHost (demoTask demoDirs) (ascii ['7']) (demoDisk demoLogs) f dst) :
    f = locate [] (ascii ['/', 'a', 'b', '/', 'l', '/', 'f']) ∧
        dst = locate [] (ascii (demoCopy []).1) ∨
      f = locate [] (ascii ['/', 'a', 'b', '/', 'm', '/', 'f']) ∧
        dst = locate [] (ascii ['/', 'w', '/', 'l', 'o', 'g', 't', 'm', 'p', '/', '7', '/', 'm', '/',
          'f']) := by
  have hrules : ∀ rule ∈ (demoTask demoDirs).fileFilterRules,
      rule = ⟨ascii demoDir, ascii ['*']⟩ ∨ rule = ⟨ascii ['/', 'a', 'b', '/', 'm'], ascii ['*']⟩ :=
    by decide
  have hroot : ∀ rule ∈ (demoTask demoDirs).fileFilterRules,
      (demoHost.locate rule.getDir).length = 2 := by decide
  have hsplit {rule : FileFilterRule} (hrule : rule ∈ (demoTask demoDirs).fileFilterRules)
      {q x : Path} (hx : demoHost.locate rule.getDir ++ q = x) :
      x.take 2 = demoHost.locate rule.getDir ∧ q = x.drop 2 := by
    rw [← hx, ← hroot rule hrule]
    exact ⟨List.take_left.symm ▸ rfl, List.drop_left.symm⟩
  induction h with
  | @log rule q cell dst ha hdst =>
    have hfiles : (demoDisk demoLogs).every (fun p _ => p ∈ demoLogs.map fun file =>
        locate [] (ascii file.1)) id = true := by decide
    have hmem := of_decide_eq_true (Disk.file_of_every hfiles ha.file)
    generalize hx : demoHost.locate rule.getDir ++ q = x at hmem ⊢
    obtain ⟨htake, rfl⟩ := hsplit ha.mem hx
    simp only [demoLogs, List.map_cons, List.map_nil, List.mem_cons, List.not_mem_nil, or_false]
      at hmem
    rcases hrules rule ha.mem with rfl | rfl
    · rcases hmem with rfl | rfl | rfl | rfl
      · exact Or.inl ⟨rfl, Option.some.inj (hdst.symm.trans (by decide))⟩
      · exact absurd htake (by decide)
      · exact absurd htake (by decide)
      · exact absurd htake (by decide)
    · rcases hmem with rfl | rfl | rfl | rfl
      · exact absurd htake (by decide)
      · exact Or.inr ⟨rfl, Option.some.inj (hdst.symm.trans (by decide))⟩
      · exact absurd htake (by decide)
      · exact absurd htake (by decide)
  | @copy f rule q dst _ hrule _ _ ih =>
    rcases ih with ⟨-, hx⟩ | ⟨-, hx⟩
    · have htake := (hsplit hrule hx).1
      rcases hrules rule hrule with rfl | rfl <;> exact absurd htake (by decide)
    · have htake := (hsplit hrule hx).1
      rcases hrules rule hrule with rfl | rfl <;> exact absurd htake (by decide)

/-- The other call's entry of `logtmp` is removed after the directory has been made. -/
def demoCleaner : List (List Name) :=
  [[], [], [⟨ascii ['8'], by decide, by decide, by decide, by decide⟩]]

theorem demo_clear :
    Clear demoHost (demoTask demoDirs) (ascii ['7']) (demoDisk demoLogs) demoCleaner := by
  have hplain : (demoDisk demoLogs).every
      (fun _ fi => fi.modTime = 90 ∧ fi.content.length = 1) id = true := by decide
  have hroot : ∀ rule ∈ (demoTask demoDirs).fileFilterRules, ∀ x : Path,
      x.take 1 = demoHost.pwd → ¬ demoHost.locate rule.dir <+: x := by
    intro rule hrule x hx hbelow
    have hne : ∀ rule ∈ (demoTask demoDirs).fileFilterRules,
        (demoHost.locate rule.dir).take 1 ≠ demoHost.pwd ∧
          1 ≤ (demoHost.locate rule.dir).length := by decide
    obtain ⟨q, rfl⟩ := hbelow
    rw [List.take_append_of_le_length (hne rule hrule).2] at hx
    exact (hne rule hrule).1 hx
  refine ⟨?_, ?_, ?_, ?_, fun hdelete => absurd hdelete (by decide), ?_, ?_⟩
  · intro rule f cell hsel
    refine ⟨fun p _ _ hp => absurd (Disk.dir_of_every hplain hp) Bool.false_ne_true, ?_⟩
    show int32 (100 - cell.modTime) < 30 * 24 * 3600 * 24
    rw [(of_decide_eq_true (Disk.file_of_every hplain hsel.file)).1]
    decide
  · intro f f' dst h h'
    rcases demo_goes h with ⟨rfl, rfl⟩ | ⟨rfl, rfl⟩
    · rcases demo_goes h' with ⟨rfl, -⟩ | ⟨-, hdst⟩
      · rfl
      · exact absurd hdst (by decide)
    · rcases demo_goes h' with ⟨-, hdst⟩ | ⟨rfl, -⟩
      · exact absurd hdst (by decide)
      · rfl
  · rintro f cell f' ⟨rule, hsel⟩ h
    rcases demo_goes h with ⟨-, rfl⟩ | ⟨-, rfl⟩
    · exact absurd hsel.below (hroot rule hsel.mem _ (by decide))
    · exact absurd hsel.below (hroot rule hsel.mem _ (by decide))
  · rintro f cell dst old ⟨rule, hsel⟩ _ hold
    rw [(of_decide_eq_true (Disk.file_of_every hplain hold)).2,
      (of_decide_eq_true (Disk.file_of_every hplain hsel.file)).2]
  · rintro names - name - f cell ⟨rule, hsel⟩ ⟨q, rfl⟩
    exact hroot rule hsel.mem _ rfl hsel.below
  · intro names hnames name hname f cell dst _ h hbelow
    obtain rfl := List.mem_singleton.mp hnames
    obtain rfl := List.mem_singleton.mp hname
    rcases demo_goes h with ⟨-, rfl⟩ | ⟨-, rfl⟩
    · exact absurd hbelow (by decide)
    · exact absurd hbelow (by decide)

/-- `/ab/c/l` and `/ab/d/l`, which lose their parents. -/
def demoTwinDirs : List (List Char) :=
  [['/', 'a', 'b', '/', 'c', '/', 'l'], ['/', 'a', 'b', '/', 'd', '/', 'l']]

/-- A file in each, whose paths meet. -/
def demoTwins : FileTree :=
  ⟨demoDisk [(['/', 'a', 'b', '/', 'c', '/', 'l', '/', 'f'], ['1']),
    (['/', 'a', 'b', '/', 'd', '/', 'l', '/', 'f'], ['2'])], Disk.closed_of_keys (by decide)⟩

theorem demo_quiet :
    Quiet demoHost (demoTask demoTwinDirs) (ascii ['7']) demoTwins.disk [] := by
  have hplain : demoTwins.disk.every (fun _ fi => fi.modTime = 90) id = true := by decide
  have hroot : ∀ rule ∈ (demoTask demoTwinDirs).fileFilterRules,
      ¬ demoHost.locate (demoHost.dstPath (ascii ['7'])) <+: demoHost.locate rule.getDir ∧
        ¬ demoHost.locate rule.getDir <+: demoHost.locate (demoHost.dstPath (ascii ['7'])) := by
    decide
  refine ⟨rfl, fun p hp => absurd (Disk.dir_of_every hplain hp) Bool.false_ne_true, ?_, ?_⟩
  · intro rule f cell hsel
    rw [of_decide_eq_true (Disk.file_of_every hplain hsel.file)]
    decide
  · intro rule hrule x hbase hbelow
    rcases List.prefix_or_prefix_of_prefix hbase hbelow with h | h
    · exact (hroot rule hrule).1 h
    · exact (hroot rule hrule).2 h

/-- Two logs, and at the place of one of them a file that is no longer.  And two logs that go to one
place. -/
theorem doMove_faithful_two :
    (∃ desc t, (demoTask demoDirs).doMove demoHost (ascii ['7'])
        ⟨⟨demoLeft.disk, []⟩, demoCleaner⟩ = (.ok desc, t) ∧
      Faithful demoHost (demoTask demoDirs) (ascii ['7']) demoLeft.disk t.toTree) ∧
    ∃ desc t, (demoTask demoTwinDirs).doMove demoHost (ascii ['7'])
        ⟨⟨demoTwins.disk, []⟩, []⟩ = (.ok desc, t) ∧
      ¬ Faithful demoHost (demoTask demoTwinDirs) (ascii ['7']) demoTwins.disk t.toTree := by
  constructor
  · have hok : ((demoTask demoDirs).doMove demoHost (ascii ['7'])
        ⟨⟨demoLeft.disk, []⟩, demoCleaner⟩).1.isOk = true := by decide +kernel
    have hdirs : ∀ rule ∈ (demoTask demoDirs).fileFilterRules,
        rule.dir = render (locate [] rule.dir) := by decide
    have harchive : demoLeft.disk.lookup
        (demoHost.locate (demoHost.archiveFile (ascii ['7']))) = none := by decide
    rcases hr : (demoTask demoDirs).doMove demoHost (ascii ['7'])
      ⟨⟨demoLeft.disk, []⟩, demoCleaner⟩ with ⟨_ | desc, t⟩
    · rw [hr] at hok
      nomatch hok
    · refine ⟨desc, t, rfl, ?_⟩
      exact (MoveTask.doMove_faithful demoHost (demoTask demoDirs) (ascii ['7']) demoLeft
        demoCleaner desc t (fun rule hrule => ⟨_, hdirs rule hrule⟩) harchive hr).1 demo_clear
  · have hdirs : ∀ rule ∈ (demoTask demoTwinDirs).fileFilterRules,
        rule.dir = render (locate [] rule.dir) := by decide
    have hfirst : Accepted demoHost (demoTask demoTwinDirs) demoTwins.disk
        ⟨ascii ['/', 'a', 'b', '/', 'c', '/', 'l'], ascii ['*']⟩
        ((locate [] (ascii (demoLog []).1)).drop 2) ⟨ascii ['1'], 90, true, true⟩ :=
      ⟨by decide, by decide, by decide, by decide⟩
    have hsecond : Accepted demoHost (demoTask demoTwinDirs) demoTwins.disk
        ⟨ascii ['/', 'a', 'b', '/', 'd', '/', 'l'], ascii ['*']⟩
        ((locate [] (ascii (demoLog []).1)).drop 2) ⟨ascii ['2'], 90, true, true⟩ :=
      ⟨by decide, by decide, by decide, by decide⟩
    refine ⟨_, _, rfl, ?_⟩
    rw [(MoveTask.doMove_faithful demoHost (demoTask demoTwinDirs) (ascii ['7']) demoTwins [] _ _
      (fun rule hrule => ⟨_, hdirs rule hrule⟩) rfl rfl).2 demo_quiet]
    rintro ⟨hapart, -⟩
    have hsame := hapart _ _ (locate [] (ascii (demoCopy []).1)) (.log hfirst (by decide))
      (.log hsecond (by decide))
    exact absurd hsame (by decide)

/-- A longer file of an earlier call keeps its tail. -/
theorem leftover_not_faithful :
    ∃ desc t, demoRun [demoDir] [demoLog ['1'], demoCopy ['2', '2']] = (.ok desc, t) ∧
      ¬ Faithful demoHost (demoTask [demoDir]) (ascii ['7'])
        (demoDisk [demoLog ['1'], demoCopy ['2', '2']]) t.toTree := by
  refine ⟨_, _, rfl, ?_⟩
  intro hfaithful
  have hselected : Selected demoHost (demoTask [demoDir])
      (demoDisk [demoLog ['1'], demoCopy ['2', '2']]) ⟨ascii demoDir, ascii ['*']⟩
      (locate [] (ascii (demoLog []).1)) ⟨ascii ['1'], 90, true, true⟩ :=
    ⟨by decide, by decide, by decide, by decide, by decide⟩
  rcases hfaithful.copied _ _ _ hselected with ⟨q, copy, hcopy, hcontent⟩
  have hother : (demoRun [demoDir] [demoLog ['1'], demoCopy ['2', '2']]).2.disk.every
      (fun p fi => locate [] (ascii (demoLog []).1) = p ∨ fi.content ≠ ascii ['1'])
      (fun _ => true) = true := by
    decide
  rcases of_decide_eq_true (Disk.file_of_every hother hcopy) with hf | hcontent'
  · cases hf
  · exact hcontent' hcontent

end Accumulation.Logfile
