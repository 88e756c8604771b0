/-
# Accumulation.Logfile.MoveRemoves — what `DoMove` removes, and whether it has been copied.

What a rule copies and what it removes are two selections.  `copyDir` looks at the pattern and at the
age of a file; `remove` looks at the pattern alone, at neither for a rule that names a single file,
and takes a whole directory away for the pattern `*` (`FileFilterRule.Removes`).  Nothing is
destroyed without a copy if each file that some rule removes is one that some rule copies
(`MoveTask.doMove_destroys_nothing`).
-/
import Accumulation.Logfile.MoveFaithful
import Accumulation.Logfile.RemoveSources

namespace Accumulation.Logfile

open Accumulation.Go Accumulation.Lib.Run

/-- The file `f` is in the tree, under the path of a rule. -/
def Ruled (host : Host) (task : MoveTask) (start : Disk) (f : Path) : Prop :=
  (∃ cell, start.lookup f = some (.file cell)) ∧
    ∃ rule ∈ task.fileFilterRules, host.locate rule.getDir <+: f

variable {host : Host} {task : MoveTask}

/-! ## What stays in the tree -/

/-- The event does not take the file `f` out of the tree. -/
def Event.Keeps (f : Path) : Event → Prop
  | .own (.erase gone) | .cleaned gone => f ∉ gone
  | .own _ => True

/-- There is a file at `f`. -/
def HasFile (f : Path) (tree : Tree) : Prop := ∃ cell, tree.disk.lookup f = some (.file cell)

/-- **One step**: only a removal takes a file out of the tree. -/
theorem HasFile.step {f : Path} {tree : Tree} {e : Event} (h : HasFile f tree) (he : e.Keeps f) :
    HasFile f (tree.occur host e) := by
  rcases h with ⟨cell, hcell⟩
  match e with
  | .cleaned gone => exact ⟨cell, (lookup_erased he).trans hcell⟩
  | .own (.erase gone) => exact ⟨cell, (lookup_erased he).trans hcell⟩
  | .own (.mkdirAll p) => exact ⟨cell, lookup_mkdirs hcell⟩
  | .own (.openFile p) => exact ⟨cell, lookup_opened hcell⟩
  | .own (.create p) =>
    by_cases hp : f = p
    · obtain rfl := hp
      show ∃ cell, (tree.disk.created host.now f).lookup f = some (.file cell)
      rw [Disk.created, hcell]
      exact ⟨_, AList.lookup_insert _⟩
    · exact ⟨cell, (lookup_created_ne hp).trans hcell⟩
  | .own (.copy src dst) =>
    by_cases hdst : f = dst
    · -- a copy over a file is a file
      obtain rfl := hdst
      show ∃ cell, (tree.disk.copied host.now src f).lookup f = some (.file cell)
      unfold Disk.copied
      split
      · exact ⟨_, AList.lookup_insert _⟩
      · exact ⟨cell, hcell⟩
    · exact ⟨cell, (lookup_copied_ne hdst).trans hcell⟩

theorem NotSwept.not_mem {f p : Path} {cleaner : List (List Name)} {gone : List Path}
    (h : NotSwept host f cleaner) (hswept : Event.SweptBy host cleaner (.cleaned gone))
    (hp : p <+: f) : p ∉ gone := by
  intro hin
  obtain ⟨names, hnames, name, hname, hbelow⟩ := hswept p hin
  exact h names hnames name hname (hbelow.trans hp)

theorem HasFile.later {f : Path} {kind : Event → Prop} {s t : State} (h : HasFile f s.toTree)
    (hst : Evolves host kind s t)
    (hkeeps : ∀ e, kind e → e.SweptBy host s.cleaner → e.Keeps f) : HasFile f t.toTree :=
  hst.keeps (fun _ _ hswept => hswept)
    (fun _ e hI he hswept => HasFile.step hI (hkeeps e he hswept)) h

/-- Copying takes no file out of the tree. -/
theorem keeps_of_copying {f : Path} {cleaner : List (List Name)} (hclean : NotSwept host f cleaner)
    {place : Path → Prop} (e : Event) (he : e.Copying host place)
    (hswept : e.SweptBy host cleaner) : e.Keeps f := by
  match e with
  | .own (.mkdirAll _) | .own (.openFile _) | .own (.copy _ _) => trivial
  | .cleaned gone => exact hclean.not_mem hswept List.prefix_rfl

theorem HasFile.tick {f : Path} {s : State} (h : HasFile f s.toTree)
    (hclean : NotSwept host f s.cleaner) : HasFile f (s.tick host).toTree :=
  have htick : Evolves host (Event.Copying host fun _ => True) s (s.tick host) :=
    tick_evolves (fun _ hgone => hgone) s
  h.later htick (keeps_of_copying hclean)

/-- Every directory can be listed, files are copied below `dstPath`, and none onto a file that is
under a rule's path. -/
structure Plain (host : Host) (task : MoveTask) (tmpDir : Bytes) (start : Disk) : Prop where
  listable : ∀ p, start.lookup p ≠ some (.dir false)
  below : ∀ rule ∈ task.fileFilterRules, ∀ q dst, rule.sends host (host.dstPath tmpDir) q = some dst →
    host.locate (host.dstPath tmpDir) <+: dst
  apart : ∀ f, Ruled host task start f → ∀ f', ¬ Goes host task tmpDir start f' f

theorem Plain.inReach {tmpDir : Bytes} {start : FileTree} {rule : FileFilterRule} {f : Path}
    (h : Plain host task tmpDir start.disk) {cell : FileCell}
    (hf : start.disk.lookup f = some (.file cell)) :
    InReach start.disk (host.locate rule.getDir) f :=
  inReach_of_listable start.closed hf fun p _ _ => h.listable p

end Accumulation.Logfile
