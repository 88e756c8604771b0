/-
# Accumulation.Logfile.Remove — the errors of a rule's removal.

`remove` asks `ignoreErr` about the errors of its calls and goes on where the answer is true.  Here
any of these calls may fail (`Refusals`), and a `Removal` keeps, beside the tree, what has failed so
far.  Where nothing fails that the tree does not refuse, this is the removal of `Logfile.Move`
(`remove_alike`).

A removal that returns nil should have been allowed to: every error was ignored, and every file that
matches is gone or was given up with an ignored error (`Reports`).  Two things are in the way
(`Heeded`).  The error of `RemoveAll` ends the call with nil if it may not be ignored; `RemoveAll`
also fails by itself, on a path such as `/ab/l/.`.  And `rmDir` walks over a directory that it cannot
list as if there was nothing in it.
-/
import Accumulation.Go.Spell
import Accumulation.Logfile.MoveFaithful
import Accumulation.Logfile.RemoveSources

namespace Accumulation.Logfile

open Accumulation.Go

/-- The tree during a removal. -/
structure Removal where
  disk : Disk
  /-- the removals and patterns that have failed, with the path `ignoreErr` is asked about -/
  errors : List (Bytes × Error)

/-- Which calls fail. -/
structure Refusals where
  /-- what `os.Remove` fails with where the tree does not refuse it, after all that has happened -/
  refuses : Removal → Path → Option Errno
  /-- what `os.RemoveAll` does not remove -/
  keeps : Path → Bool
  /-- the path and the error it returns then -/
  error : Bytes × Errno

def Removal.fail (s : Removal) (path : Bytes) (err : Error) : Removal :=
  { s with errors := s.errors ++ [(path, err)] }

def Host.quiet (host : Host) : View Removal := ⟨host.pwd, fun s => s.disk, id⟩

/-- `os.RemoveAll` removes everything that it may. -/
def Refusals.removable (host : Host) (refusals : Refusals) (disk : Disk) (path : Bytes) :
    List Path :=
  host.removable (fun q => host.denied q || refusals.keeps q) disk path

/-- The error of `os.RemoveAll`. -/
def Refusals.allError (refusals : Refusals) (path : Bytes) : Error :=
  if endsWithDot path then .path path .invalid else .path refusals.error.1 refusals.error.2

namespace Refusals

def rmFile (host : Host) (refusals : Refusals) (file : Bytes) (s : Removal) :
    Option (Stop Error) × Removal :=
  let p := host.locate file
  match (host.removeRefused s.disk file).or (refusals.refuses s p) with
  | some e => (some (.err (.path file e)), s.fail file (.path file e))
  | none => (none, { s with disk := s.disk.erased [p] })

/-- The function `rmDir` walks with.  It does not look at the error it is given. -/
def rmMatching (host : Host) (refusals : Refusals) (regex : Bytes)
    (ignoreErr : Bytes → Error → Bool) : WalkFunc Removal Error
  -- `info` is nil
  | _, none, _, s => (some .panic, s)
  | path, some _, _, s =>
    match host.filepathMatch regex (basename path) with
    | none =>
      let s := s.fail path .badPattern
      if ignoreErr path .badPattern then (none, s) else (some (.err .badPattern), s)
    | some false => (none, s)
    | some true =>
      match refusals.rmFile host path s with
      | (some (.err e), s) => if ignoreErr path e then (none, s) else (some (.err e), s)
      | r => r

def rmDir (host : Host) (refusals : Refusals) (dir regex : Bytes) (ignoreErr : Bytes → Error → Bool)
    (s : Removal) : Option (Stop Error) × Removal :=
  let walkDir := walk host.quiet (refusals.rmMatching host regex ignoreErr) host.depth dir
  if regex = ascii ['*'] then
    let s := { s with disk := s.disk.erased (refusals.removable host s.disk dir) }
    if s.disk.lookup (host.locate dir) = none then (none, s)
    else
      let s := s.fail dir (refusals.allError dir)
      if ignoreErr dir (refusals.allError dir) then walkDir s else (none, s)
  else walkDir s

def remove (host : Host) (refusals : Refusals) (ignoreErr : Bytes → Error → Bool)
    (rule : FileFilterRule) (s : Removal) : Option (Stop Error) × Removal :=
  let dir := rule.getDir
  match host.stat s.disk dir with
  | .error .notExist => (none, s)
  | .error e => (some (.err (.path dir e)), s)
  | .ok (.dir _) => refusals.rmDir host dir rule.regex ignoreErr s
  | .ok (.file _) => refusals.rmFile host dir s

end Refusals

/-! ## What is asked of a removal -/

/-- A regular file under the rule's directory whose base name matches the pattern. -/
structure FileFilterRule.Matches (host : Host) (rule : FileFilterRule) (disk : Disk) (q : Path)
    (n : Name) : Prop where
  dir : rule.getDir ≠ []
  file : ∃ cell, disk.lookup (host.locate rule.getDir ++ (q ++ [n])) = some (.file cell)
  regex : host.filepathMatch rule.regex n.bytes = some true

/-- **A removal that ends as `t`** has failed nowhere without leave. -/
structure Reports (host : Host) (ignoreErr : Bytes → Error → Bool) (rule : FileFilterRule)
    (tree : FileTree) (t : Removal) : Prop where
  answered : ∀ failure ∈ t.errors, ignoreErr failure.1 failure.2 = true
  removed : ∀ q n, rule.Matches host tree.disk q n →
    t.disk.lookup (host.locate rule.getDir ++ (q ++ [n])) = none ∨
      ∃ err, (pathTo rule.getDir (q ++ [n]), err) ∈ t.errors

/-- Nothing is passed over. -/
structure Heeded (host : Host) (refusals : Refusals) (ignoreErr : Bytes → Error → Bool)
    (rule : FileFilterRule) (tree : FileTree) : Prop where
  /-- `RemoveAll` is given a path that ends in a name and removes everything, or `ignoreErr` ignores
  its error -/
  all : ∀ listable, host.stat tree.disk rule.getDir = .ok (.dir listable) →
    rule.regex = ascii ['*'] →
    (rmdirRefused rule.getDir = none ∧ host.locate rule.getDir ∈ tree.disk.removable
        (fun q => host.denied q || refusals.keeps q) (host.locate rule.getDir)) ∨
      ignoreErr rule.getDir (refusals.allError rule.getDir) = true
  /-- the directories down to a file that matches can be listed -/
  listable : ∀ q n, rule.Matches host tree.disk q n → ∀ p, p <+: q →
    tree.disk.lookup (host.locate rule.getDir ++ p) = some (.dir true)

/-! ## One call -/

section Calls

variable {host : Host} {refusals : Refusals} {ignoreErr : Bytes → Error → Bool} {s t : Removal}

/-- Removing one file: it fails and nothing happens to the tree, or the file is gone. -/
theorem Refusals.rmFile_cases (host : Host) (refusals : Refusals) (file : Bytes) (s : Removal) :
    (∃ e, refusals.rmFile host file s =
        (some (.err (.path file e)), s.fail file (.path file e))) ∨
      (s.disk.removeRefused host.denied (host.locate file) = none ∧
        refusals.rmFile host file s =
          (none, { s with disk := s.disk.erased [host.locate file] })) := by
  simp only [Refusals.rmFile]
  cases hrefused : host.removeRefused s.disk file with
  | some e => exact Or.inl ⟨e, rfl⟩
  | none =>
    cases refusals.refuses s (host.locate file) with
    | some e => exact Or.inl ⟨e, rfl⟩
    | none => exact Or.inr ⟨Host.removeRefused_none hrefused, rfl⟩

/-- On a directory. -/
theorem Refusals.remove_dir {rule : FileFilterRule} {listable : Bool}
    (hstat : host.stat s.disk rule.getDir = .ok (.dir listable)) :
    refusals.remove host ignoreErr rule s =
      refusals.rmDir host rule.getDir rule.regex ignoreErr s := by
  simp only [Refusals.remove]
  rw [hstat]

/-- `rmdir` refuses what ends in `.`. -/
theorem rmdirRefused_of_endsWithDot {path : Bytes} (h : endsWithDot path = true) :
    rmdirRefused path = some .invalid := by
  have hdot : named [dot] = [[dot]] := by decide
  have hlast : (named path).getLast? = some [dot] := by
    rcases Bool.or_eq_true_iff.mp h with hself | hends
    · rw [of_decide_eq_true hself, hdot]
      rfl
    · obtain ⟨path, rfl⟩ := List.isSuffixOf_iff_suffix.mp hends
      rw [named_append_slash, hdot, List.getLast?_concat]
  rw [rmdirRefused, hlast]
  exact if_pos rfl

/-- **What it takes to remove a directory** and everything in it. -/
theorem Host.mem_removable_self {denied : Path → Bool} {disk : Disk} {path : Bytes} :
    host.locate path ∈ host.removable denied disk path ↔
      rmdirRefused path = none ∧ host.locate path ∈ disk.removable denied (host.locate path) := by
  constructor
  · intro h
    refine ⟨?_, Host.removable_subset h⟩
    unfold Host.removable at h
    split at h
    · nomatch h
    · have hself := mem_removable.mp h
      have hfree := (Bool.or_eq_false_iff.mp (hself.2.2 _ hself.1 List.prefix_rfl).1).2
      simpa using hfree
  · rintro ⟨hfree, hall⟩
    unfold Host.removable
    rw [if_neg fun hdot => by rw [rmdirRefused_of_endsWithDot hdot] at hfree; nomatch hfree]
    simpa only [hfree, Option.isSome_none, Bool.false_and, Bool.or_false] using hall

/-- What `RemoveAll` can remove includes everything below it. -/
theorem Host.removable_below {denied : Path → Bool} {d : Disk} {path : Bytes} {f : Path}
    (hroot : host.locate path ∈ host.removable denied d path) (hf : d.lookup f ≠ none)
    (hbelow : host.locate path <+: f) : f ∈ host.removable denied d path := by
  unfold Host.removable at hroot ⊢
  split at hroot
  · nomatch hroot
  · rename_i hdot
    rw [if_neg hdot]
    exact Go.removable_below hroot hf hbelow

/-- `RemoveAll` removes the whole directory. -/
theorem Refusals.rmDir_all {dir : Bytes}
    (hall : host.locate dir ∈ refusals.removable host s.disk dir) :
    refusals.rmDir host dir (ascii ['*']) ignoreErr s =
      (none, { s with disk := s.disk.erased (refusals.removable host s.disk dir) }) := by
  simp only [Refusals.rmDir, if_true]
  exact if_pos (lookup_erased_mem hall)

/-- It does not, and its error decides. -/
theorem Refusals.rmDir_part {dir : Bytes} (hthere : s.disk.lookup (host.locate dir) ≠ none)
    (hpart : host.locate dir ∉ refusals.removable host s.disk dir) {t : Removal}
    (ht : t = Removal.fail { s with
      disk := s.disk.erased (refusals.removable host s.disk dir) } dir (refusals.allError dir)) :
    refusals.rmDir host dir (ascii ['*']) ignoreErr s =
      if ignoreErr dir (refusals.allError dir) then
        walk host.quiet (refusals.rmMatching host (ascii ['*']) ignoreErr) host.depth dir t
      else (none, t) := by
  subst ht
  simp only [Refusals.rmDir, if_true]
  apply if_neg
  rw [lookup_erased hpart]
  exact hthere

/-- **What `rmDir` does at one place**: nothing, a failure, or a removal. -/
theorem Refusals.rmMatching_cases (host : Host) (refusals : Refusals) (regex : Bytes)
    (ignoreErr : Bytes → Error → Bool) (path : Bytes) (info : Option Entry) (e : Option Errno)
    (s : Removal) {r : Option (Stop Error) × Removal}
    (hr : refusals.rmMatching host regex ignoreErr path info e s = r) :
    (r.2 = s ∧ (r.1 = none → host.filepathMatch regex (basename path) ≠ some true)) ∨
      (∃ err, r.2 = s.fail path err ∧ (r.1 = none → ignoreErr path err = true)) ∨
      (s.disk.removeRefused host.denied (host.locate path) = none ∧
        r.2 = { s with disk := s.disk.erased [host.locate path] }) := by
  subst hr
  cases info with
  | none => exact Or.inl ⟨rfl, fun h => (nomatch h)⟩
  | some info =>
    simp only [Refusals.rmMatching]
    cases hmatch : host.filepathMatch regex (basename path) with
    | none =>
      refine Or.inr (Or.inl ⟨.badPattern, ?_⟩)
      by_cases hignored : ignoreErr path .badPattern = true
      · simp [hignored]
      · simp [hignored]
    | some matched =>
      cases matched with
      | false => exact Or.inl ⟨rfl, fun _ h => (nomatch h)⟩
      | true =>
        rcases refusals.rmFile_cases host path s with ⟨errno, hfail⟩ | ⟨hfree, hgone⟩
        · refine Or.inr (Or.inl ⟨.path path errno, ?_⟩)
          simp only [hfail]
          by_cases hignored : ignoreErr path (.path path errno) = true
          · simp [hignored]
          · simp [hignored]
        · exact Or.inr (Or.inr ⟨hfree, by simp only [hgone]⟩)

/-! ## What a walk leads to -/

/-- Nothing comes to the tree, what is above `f` stays as long as `f` is there, and no error is
forgotten. -/
structure Ebbs (f : Path) (s t : Removal) : Prop where
  thins : Thins f s.disk t.disk
  errors : s.errors <+: t.errors

theorem ebbs_later (f : Path) : Later (Ebbs f) where
  refl s := ⟨Thins.refl f s.disk, List.prefix_rfl⟩
  trans h h' := ⟨h.thins.trans h'.thins, h.errors.trans h'.errors⟩

theorem leads_ebbs (regex : Bytes) (root : Bytes) (f : Path) :
    Leads host.quiet (refusals.rmMatching host regex ignoreErr) root (Ebbs f) where
  toLater := ebbs_later f
  meanwhile s := (ebbs_later f).refl s
  fn := by
    intro q info e s _
    rcases refusals.rmMatching_cases host regex ignoreErr (pathTo root q) info e s rfl with
      ⟨hsame, -⟩ | ⟨err, hfail, -⟩ | ⟨hfree, hgone⟩
    · rw [hsame]
      exact (ebbs_later f).refl s
    · rw [hfail]
      exact ⟨Thins.refl f s.disk, List.prefix_append _ _⟩
    · rw [hgone]
      exact ⟨thins_file hfree, List.prefix_rfl⟩

/-- The file at `f` is gone, or its removal has failed. -/
def Settled (path : Bytes) (f : Path) (t : Removal) : Prop :=
  t.disk.lookup f = none ∨ ∃ err, (path, err) ∈ t.errors

theorem Settled.later {path : Bytes} {f : Path} (h : Settled path f s) (hst : Ebbs f s t) :
    Settled path f t := by
  rcases h with hgone | ⟨err, herr⟩
  · exact Or.inl (hst.thins.gone f hgone)
  · exact Or.inr ⟨err, hst.errors.subset herr⟩

variable {dir regex : Bytes} {q : Path} {n : Name}

/-- **A walk that returns nil settles** the files that match and can be come to. -/
theorem walk_settles (hdir : dir ≠ []) (hmatch : host.filepathMatch regex n.bytes = some true)
    (hfile : s.disk.lookup (host.locate dir ++ (q ++ [n])) = none ∨
      (Leaf s.disk (host.locate dir ++ (q ++ [n])) ∧
        InReach s.disk (host.locate dir) (host.locate dir ++ (q ++ [n]))))
    (hret : walk host.quiet (refusals.rmMatching host regex ignoreErr) host.depth dir s =
      (none, t)) : Settled (pathTo dir (q ++ [n])) (host.locate dir ++ (q ++ [n])) t := by
  have hleads : Leads host.quiet (refusals.rmMatching host regex ignoreErr) dir
    (Ebbs (host.locate dir ++ (q ++ [n]))) := leads_ebbs regex dir _
  have hst := rel_of_eq (walk_rel hleads host.depth s) hret
  rcases hfile with hgone | ⟨hleaf, hreach⟩
  · exact Or.inl (hst.thins.gone _ hgone)
  · by_contra hleft
    -- the file is still there at the end, so the walk has been able to come to it all along
    have hkept (u : Removal) (hsu : Ebbs (host.locate dir ++ (q ++ [n])) s u)
        (hut : Ebbs (host.locate dir ++ (q ++ [n])) u t) :
        InReach u.disk (host.locate dir) (host.locate dir ++ (q ++ [n])) := by
      rcases hleaf.thinned hreach hsu.thins with hgone | ⟨-, hreach'⟩
      · exact absurd (Settled.later (Or.inl hgone) hut) hleft
      · exact hreach'
    refine hleft (walk_reaches hleads (fun u v huv hu => Settled.later hu huv) hdir hret hkept ?_)
    intro u v cell hsu hut hcell hcall
    rcases refusals.rmMatching_cases host regex ignoreErr _ _ _ u hcall with
      ⟨-, hno⟩ | ⟨err, hfail, -⟩ | ⟨-, hgone⟩
    · rw [basename_pathTo hdir] at hno
      exact absurd hmatch (hno rfl)
    · refine Or.inr ⟨err, ?_⟩
      rw [show v = _ from hfail, Removal.fail]
      exact List.mem_append_right _ (List.mem_singleton_self _)
    · refine Or.inl ?_
      rw [show v = _ from hgone]
      apply lookup_erased_mem
      rw [List.mem_singleton, Host.locate, Host.locate, (locate_pathTo host.pwd hdir _).1]

/-- **A walk that returns nil** has only had errors that are ignored. -/
theorem walk_answered (hs : ∀ failure ∈ s.errors, ignoreErr failure.1 failure.2 = true)
    (hret : walk host.quiet (refusals.rmMatching host regex ignoreErr) host.depth dir s =
      (none, t)) : ∀ failure ∈ t.errors, ignoreErr failure.1 failure.2 = true := by
  have hkeeps : Keeps host.quiet (refusals.rmMatching host regex ignoreErr) dir (fun _ => True)
      fun u => ∀ failure ∈ u.errors, ignoreErr failure.1 failure.2 = true := by
    refine ⟨fun _ hu => hu, ?_, fun _ _ _ _ _ _ _ _ => trivial⟩
    intro q info e u v _ hu hcall
    rcases refusals.rmMatching_cases host regex ignoreErr _ _ _ u hcall with
      ⟨hsame, -⟩ | ⟨err, hfail, hignored⟩ | ⟨-, hgone⟩
    · rw [show v = u from hsame]
      exact hu
    · rw [show v = _ from hfail]
      intro failure hfailure
      rcases List.mem_append.mp hfailure with hold | hnew
      · exact hu failure hold
      · rw [List.mem_singleton.mp hnew]
        exact hignored rfl
    · rw [show v = _ from hgone]
      exact hu
  exact walk_keeps hkeeps trivial hs hret

/-! ## What a walk passes over -/

theorem pathTo_inj (hdir : dir ≠ []) {q q' : Path} (h : pathTo dir q = pathTo dir q') : q = q' := by
  have hplace := congrArg (locate []) h
  rwa [(locate_pathTo [] hdir q).1, (locate_pathTo [] hdir q').1,
    List.append_cancel_left_eq] at hplace

/-- What is above `f` is as it was in `d`, and nothing has failed at `path`. -/
structure Untouched (d : Disk) (path : Bytes) (f : Path) (t : Removal) : Prop where
  same : ∀ a, a <+: f → t.disk.lookup a = d.lookup a
  errors : ∀ err, (path, err) ∉ t.errors

/-- A file that is not settled. -/
theorem Untouched.not_settled {d : Disk} {path : Bytes} {f : Path} (h : Untouched d path f t)
    (hf : d.lookup f ≠ none) : ¬ Settled path f t := by
  rintro (hgone | ⟨err, herr⟩)
  · rw [h.same f List.prefix_rfl] at hgone
    exact hf hgone
  · exact h.errors err herr

/-- **Below a directory that cannot be listed** a walk touches nothing. -/
theorem walk_untouched (hdir : dir ≠ []) {d : Disk} {p : Path} (hp : p <+: q)
    (hthere : ∀ a, a <+: host.locate dir ++ (q ++ [n]) → d.lookup a ≠ none)
    (hlocked : d.lookup (host.locate dir ++ p) = some (.dir false))
    (hs : Untouched d (pathTo dir (q ++ [n])) (host.locate dir ++ (q ++ [n])) s)
    (hret : walk host.quiet (refusals.rmMatching host regex ignoreErr) host.depth dir s =
      (none, t)) : Untouched d (pathTo dir (q ++ [n])) (host.locate dir ++ (q ++ [n])) t := by
  have hpf : p <+: q ++ [n] := hp.trans (List.prefix_append q [n])
  -- the places the walk comes to are not below `p`
  have hkeeps : Keeps host.quiet (refusals.rmMatching host regex ignoreErr) dir
      (fun r => p <+: r → r = p)
      (Untouched d (pathTo dir (q ++ [n])) (host.locate dir ++ (q ++ [n]))) := by
    refine ⟨fun _ hu => hu, ?_, ?_⟩
    · intro r info e u v hr hu hcall
      have hne : r ≠ q ++ [n] := by
        rintro rfl
        have hlength := congrArg List.length (hr hpf)
        have hle := hp.length_le
        rw [List.length_append, List.length_singleton] at hlength
        omega
      rcases refusals.rmMatching_cases host regex ignoreErr _ _ _ u hcall with
        ⟨hsame, -⟩ | ⟨err, hfail, -⟩ | ⟨hfree, hgone⟩
      · rw [show v = u from hsame]
        exact hu
      · rw [show v = _ from hfail]
        refine ⟨hu.same, fun err' hmem => ?_⟩
        rcases List.mem_append.mp hmem with hold | hnew
        · exact hu.errors err' hold
        · exact hne (pathTo_inj hdir (Prod.mk.inj (List.mem_singleton.mp hnew)).1).symm
      · rw [show v = _ from hgone]
        refine ⟨fun a ha => ?_, hu.errors⟩
        rw [← hu.same a ha]
        apply lookup_erased
        intro hmem
        rw [List.mem_singleton.mp hmem, Host.locate, (locate_pathTo host.pwd hdir r).1] at ha
        rw [Host.locate, (locate_pathTo host.pwd hdir r).1] at hfree
        exact removeRefused_above ha (fun heq => hne (List.append_cancel_left heq))
          (fun b hb => hu.same b hb ▸ hthere b hb) hfree
    · intro r m names u hr hu hlisted hm hpm
      rcases List.prefix_concat_iff.mp hpm with heq | hbelow
      · exact heq.symm
      · rw [hr hbelow] at hlisted
        have hdir' : u.disk.lookup (host.locate dir ++ p) = some (.dir false) := by
          rw [hu.same _ ((List.prefix_append_right_inj _).mpr hpf)]
          exact hlocked
        rw [(locate_pathTo _ hdir p).1] at hlisted
        change u.disk.readDirNames (host.locate dir ++ p) = _ at hlisted
        rw [Disk.readDirNames, hdir'] at hlisted
        cases hlisted
  refine walk_keeps hkeeps ?_ hs hret
  intro hnil
  exact (List.prefix_nil.mp hnil).symm

end Calls

/-! ## Which removals report their errors -/

section Reports

variable {host : Host} {refusals : Refusals} {ignoreErr : Bytes → Error → Bool}
  {rule : FileFilterRule} {tree : FileTree} {t : Removal} {q : Path} {n : Name}

/-- Where a file matches, the rule names a directory. -/
theorem FileFilterRule.Matches.stat (h : rule.Matches host tree.disk q n) :
    ∃ listable, host.stat tree.disk rule.getDir = .ok (.dir listable) := by
  obtain ⟨cell, hcell⟩ := h.file
  obtain ⟨listable, hlookup⟩ := tree.closed.dir_above (by simp) (hcell ▸ Option.some_ne_none _)
  exact ⟨listable, stat_ok_iff.mpr ⟨h.dir, hlookup⟩⟩

/-- Everything above it is there. -/
theorem FileFilterRule.Matches.leaf (h : rule.Matches host tree.disk q n) :
    Leaf tree.disk (host.locate rule.getDir ++ (q ++ [n])) :=
  leaf_of_closed tree.closed h.file.choose_spec

theorem FileFilterRule.Matches.inReach (h : rule.Matches host tree.disk q n)
    (hlistable : ∀ p, p <+: q →
      tree.disk.lookup (host.locate rule.getDir ++ p) = some (.dir true)) :
    InReach tree.disk (host.locate rule.getDir) (host.locate rule.getDir ++ (q ++ [n])) := by
  refine ⟨h.file, ?_⟩
  rintro _ ⟨p, rfl⟩ hp hne
  rw [List.prefix_append_right_inj] at hp
  rcases List.prefix_concat_iff.mp hp with rfl | hp
  · exact absurd rfl hne
  · exact hlistable p hp

/-- **Where nothing is passed over**, a removal that returns nil reports. -/
theorem Heeded.reports (h : Heeded host refusals ignoreErr rule tree)
    (hret : refusals.remove host ignoreErr rule ⟨tree.disk, []⟩ = (none, t)) :
    Reports host ignoreErr rule tree t := by
  have hnone : ∀ failure ∈ ([] : List (Bytes × Error)), ignoreErr failure.1 failure.2 = true :=
    fun _ hmem => (nomatch hmem)
  have hplain {e : Except Errno Entry} (he : host.stat tree.disk rule.getDir = e)
      (hdir : ∀ listable, e ≠ .ok (.dir listable)) (ht : t.errors = []) :
      Reports host ignoreErr rule tree t := by
    refine ⟨by rw [ht]; exact hnone, fun q n hq => ?_⟩
    obtain ⟨listable, hstat⟩ := hq.stat
    exact absurd (he.symm.trans hstat) (hdir listable)
  rcases hstat : host.stat tree.disk rule.getDir with e | ⟨cell⟩ | ⟨listable⟩
  · simp only [Refusals.remove] at hret
    rw [hstat] at hret
    apply hplain hstat fun _ h => (nomatch h)
    cases e with
    | notExist => exact (Prod.mk.inj hret).2 ▸ rfl
    | notDir => nomatch hret
    | isDir => nomatch hret
    | notEmpty => nomatch hret
    | denied => nomatch hret
    | busy => nomatch hret
    | invalid => nomatch hret
  · simp only [Refusals.remove] at hret
    rw [hstat] at hret
    apply hplain hstat fun _ h => (nomatch h)
    rcases refusals.rmFile_cases host rule.getDir ⟨tree.disk, []⟩ with ⟨e, hfail⟩ | ⟨-, hgone⟩
    · rw [hfail] at hret
      nomatch hret
    · rw [hgone] at hret
      exact (Prod.mk.inj hret).2 ▸ rfl
  · obtain ⟨hdir, hlookup⟩ := stat_ok_iff.mp hstat
    rw [Refusals.remove_dir hstat] at hret
    by_cases hstar : rule.regex = ascii ['*']
    · rw [hstar] at hret
      by_cases hall : host.locate rule.getDir ∈ refusals.removable host tree.disk rule.getDir
      · rw [Refusals.rmDir_all hall] at hret
        obtain rfl := (Prod.mk.inj hret).2
        exact ⟨hnone, fun q n hq => Or.inl (lookup_erased_mem (Host.removable_below hall
          (hq.leaf.above _ List.prefix_rfl) (List.prefix_append _ _)))⟩
      · have hignored := (h.all listable hstat hstar).resolve_left
          fun hfree => hall (Host.mem_removable_self.mpr hfree)
        rw [Refusals.rmDir_part (hlookup ▸ Option.some_ne_none _) hall rfl,
          if_pos hignored] at hret
        refine ⟨walk_answered (fun failure hmem => ?_) hret, fun q n hq => ?_⟩
        · rw [List.mem_singleton.mp hmem]
          exact hignored
        · exact walk_settles hdir (hstar ▸ hq.regex)
            (hq.leaf.thinned (hq.inReach (h.listable q n hq))
              (Host.thins_removable _ _ _)) hret
    · simp only [Refusals.rmDir, if_neg hstar] at hret
      refine ⟨walk_answered hnone hret, fun q n hq => ?_⟩
      exact walk_settles hdir hq.regex
        (Or.inr ⟨hq.leaf, hq.inReach (h.listable q n hq)⟩) hret

/-- **Below a directory that cannot be listed** nothing is settled. -/
theorem remove_passes_over (hq : rule.Matches host tree.disk q n) {p : Path} (hp : p <+: q)
    (hlocked : tree.disk.lookup (host.locate rule.getDir ++ p) = some (.dir false))
    (hret : refusals.remove host ignoreErr rule ⟨tree.disk, []⟩ = (none, t)) :
    ¬ Settled (pathTo rule.getDir (q ++ [n])) (host.locate rule.getDir ++ (q ++ [n])) t := by
  have hdir := hq.dir
  have hthere := hq.leaf.above
  obtain ⟨listable, hstat⟩ := hq.stat
  suffices huntouched : Untouched tree.disk (pathTo rule.getDir (q ++ [n]))
      (host.locate rule.getDir ++ (q ++ [n])) t from
    huntouched.not_settled (hthere _ List.prefix_rfl)
  rw [Refusals.remove_dir hstat] at hret
  by_cases hstar : rule.regex = ascii ['*']
  · -- what is in such a directory stays, and with it everything above
    have hstuck : host.locate rule.getDir ++ (q ++ [n]) ∉
        refusals.removable host tree.disk rule.getDir := by
      intro hmem
      have hfree := (mem_removable.mp (Host.removable_subset hmem)).2.2 _ (hthere _ List.prefix_rfl)
        List.prefix_rfl
      refine hfree.2 _ ?_ (List.prefix_append _ p) ?_ hlocked
      · rw [List.prefix_append_right_inj]
        exact hp.trans (List.prefix_append q [n])
      · intro heq
        have hlength := congrArg List.length (List.append_cancel_left heq)
        have hle := hp.length_le
        rw [List.length_append, List.length_singleton] at hlength
        omega
    have hthins : Thins (host.locate rule.getDir ++ (q ++ [n])) tree.disk
      (tree.disk.erased (refusals.removable host tree.disk rule.getDir)) :=
        Host.thins_removable _ _ _
    have hkept (a : Path) (ha : a <+: host.locate rule.getDir ++ (q ++ [n])) :
        (tree.disk.erased (refusals.removable host tree.disk rule.getDir)).lookup a =
          tree.disk.lookup a := by
      rcases hthins.above hthere with hgone | hsame
      · rw [lookup_erased hstuck] at hgone
        exact absurd hgone (hthere _ List.prefix_rfl)
      · exact hsame a ha
    have hroot : host.locate rule.getDir ∉ refusals.removable host tree.disk rule.getDir :=
      fun hmem => hstuck (Host.removable_below hmem (hthere _ List.prefix_rfl)
        (List.prefix_append _ _))
    obtain ⟨u, hu⟩ : ∃ u, u = Removal.fail ⟨tree.disk.erased (refusals.removable host tree.disk
      rule.getDir), []⟩ rule.getDir (refusals.allError rule.getDir) := ⟨_, rfl⟩
    have hfailed : Untouched tree.disk (pathTo rule.getDir (q ++ [n]))
        (host.locate rule.getDir ++ (q ++ [n])) u := by
      rw [hu]
      refine ⟨hkept, fun err hmem => ?_⟩
      have hpath : pathTo rule.getDir (q ++ [n]) = pathTo rule.getDir [] :=
        (Prod.mk.inj (List.mem_singleton.mp hmem)).1
      exact absurd (pathTo_inj hdir hpath) (by simp)
    rw [hstar, Refusals.rmDir_part (hthere _ (List.prefix_append _ _)) hroot hu] at hret
    by_cases hignored : ignoreErr rule.getDir (refusals.allError rule.getDir) = true
    · rw [if_pos hignored] at hret
      exact walk_untouched hdir hp hthere hlocked hfailed hret
    · rw [if_neg hignored] at hret
      exact (Prod.mk.inj hret).2 ▸ hfailed
  · simp only [Refusals.rmDir, if_neg hstar] at hret
    exact walk_untouched hdir hp hthere hlocked
      ⟨fun _ _ => rfl, fun _ => List.not_mem_nil⟩ hret

/-- **A removal that reports** has passed nothing over. -/
theorem Reports.heeded (h : Reports host ignoreErr rule tree t)
    (hret : refusals.remove host ignoreErr rule ⟨tree.disk, []⟩ = (none, t)) :
    Heeded host refusals ignoreErr rule tree := by
  constructor
  · intro listable hstat hstar
    obtain ⟨hdir, hlookup⟩ := stat_ok_iff.mp hstat
    by_contra hnot
    rw [not_or] at hnot
    rw [Refusals.remove_dir hstat, hstar, Refusals.rmDir_part (hlookup ▸ Option.some_ne_none _)
      (fun hmem => hnot.1 (Host.mem_removable_self.mp hmem)) rfl, if_neg hnot.2] at hret
    obtain rfl := (Prod.mk.inj hret).2
    exact hnot.2 (h.answered (rule.getDir, refusals.allError rule.getDir) List.mem_cons_self)
  · intro q n hq p hp
    obtain ⟨cell, hcell⟩ := hq.file
    have hbelow : ∃ r, r ≠ [] ∧ host.locate rule.getDir ++ (q ++ [n]) =
        host.locate rule.getDir ++ p ++ r := by
      obtain ⟨r, rfl⟩ := hp
      exact ⟨r ++ [n], by simp, by simp⟩
    obtain ⟨r, hr, hplace⟩ := hbelow
    obtain ⟨listable, hdir⟩ := tree.closed.dir_above hr
      (by rw [← hplace, hcell]; exact Option.some_ne_none _)
    cases listable with
    | true => exact hdir
    | false => exact absurd (h.removed q n hq) (remove_passes_over hq hp hdir hret)

/-- **Exactly then** a removal that returns nil reports. -/
theorem remove_reports_iff
    (hret : refusals.remove host ignoreErr rule ⟨tree.disk, []⟩ = (none, t)) :
    Reports host ignoreErr rule tree t ↔ Heeded host refusals ignoreErr rule tree :=
  ⟨fun h => h.heeded hret, fun h => h.reports hret⟩

end Reports

/-- `/ab/l` and all that is in it. -/
def demoRule : FileFilterRule := ⟨ascii demoDir, ascii ['*']⟩

/-- `RemoveAll` is refused everything, and `Remove` nothing. -/
def allRefused : Refusals := ⟨fun _ _ => none, fun _ => true, (ascii demoDir, .denied)⟩

/-- With leave to ignore that, the walk removes the file. -/
theorem remove_reports_one :
    let r := allRefused.remove demoHost (fun _ _ => true) demoRule ⟨demoTree.disk, []⟩
    r.1 = none ∧ Reports demoHost (fun _ _ => true) demoRule demoTree r.2 := by
  have hret : (allRefused.remove demoHost (fun _ _ => true) demoRule ⟨demoTree.disk, []⟩).1 =
      none := by decide
  refine ⟨hret, (remove_reports_iff (Prod.ext hret rfl)).mpr ⟨fun _ _ _ => Or.inr rfl, ?_⟩⟩
  intro q n hq p hp
  have hall : demoTree.disk.every (fun _ _ => true) id = true := by decide
  obtain ⟨r, rfl⟩ := hp
  obtain ⟨cell, hcell⟩ := hq.file
  obtain ⟨listable, hdir⟩ := demoTree.closed.dir_above
    (p := demoHost.locate demoRule.getDir ++ p) (q := r ++ [n]) (by simp)
    (by rw [List.append_assoc, ← List.append_assoc p, hcell]; exact Option.some_ne_none _)
  have htrue : listable = true := Disk.dir_of_every hall hdir
  rw [hdir, htrue]

/-- Without it, the error of `RemoveAll` becomes nil. -/
theorem refused_all_unreported :
    let r := allRefused.remove demoHost (fun _ _ => false) demoRule ⟨demoTree.disk, []⟩
    r.1 = none ∧ ¬ Reports demoHost (fun _ _ => false) demoRule demoTree r.2 := by
  refine ⟨by decide, fun h => ?_⟩
  have hfailed : (ascii demoDir, Error.path (ascii demoDir) .denied) ∈ (allRefused.remove demoHost
      (fun _ _ => false) demoRule ⟨demoTree.disk, []⟩).2.errors := by decide
  nomatch h.answered _ hfailed

-- nothing is refused, but `RemoveAll` does not take this path
example :
    let rule : FileFilterRule := ⟨ascii (demoDir ++ ['/', '.']), ascii ['*']⟩
    let refusals : Refusals := { allRefused with keeps := fun _ => false }
    let r := refusals.remove demoHost (fun _ _ => false) rule ⟨demoTree.disk, []⟩
    r.1 = none ∧ r.2.disk.lookup (locate [] (ascii (demoLog []).1)) ≠ none ∧
      r.2.errors = [(rule.dir, .path rule.dir .invalid)] := by decide

-- a file in a directory that cannot be listed stays, and nobody hears of it
example :
    let disk := demoTree.disk.insert (locate [] (ascii demoDir)) (.dir false)
    let r := allRefused.remove demoHost (fun _ _ => true) demoRule ⟨disk, []⟩
    r.1 = none ∧ r.2.disk.lookup (locate [] (ascii (demoLog []).1)) ≠ none ∧
      r.2.errors.length = 2 := by decide

/-! ## Where nothing fails by itself -/

/-- Nothing fails that the tree does not refuse. -/
def Refusals.none (rule : FileFilterRule) : Refusals where
  refuses _ _ := .none
  keeps _ := false
  error := (rule.getDir, (rmdirRefused rule.getDir).getD .denied)

/-- Nobody else is at work, and the trees are the same. -/
def SameTree (s : State) (t : Removal) : Prop := s.cleaner = [] ∧ s.disk = t.disk

theorem rmFile_alike (host : Host) (rule : FileFilterRule) (file : Bytes) {s : State} {t : Removal}
    (h : SameTree s t) :
    Alike SameTree (rmFile host file s) ((Refusals.none rule).rmFile host file t) := by
  obtain ⟨hs, hdisk⟩ := h
  simp only [rmFile, Refusals.rmFile, tick_quiet hs, State.call, hdisk]
  cases host.removeRefused t.disk file with
  | some e => exact ⟨rfl, hs, hdisk⟩
  | none => exact ⟨rfl, hs, congrArg (Disk.erased · _) hdisk⟩

theorem rmMatching_mirrors (host : Host) (rule : FileFilterRule)
    (ignoreErr : Bytes → Error → Bool) : Mirrors host.view (rmMatching host rule.regex ignoreErr)
      host.quiet ((Refusals.none rule).rmMatching host rule.regex ignoreErr) SameTree where
  pwd := rfl
  disk _ _ h := h.2
  meanwhile s t h := by
    show SameTree (s.tick host) t
    rw [tick_quiet h.1]
    exact h
  fn := by
    intro path info e s t h
    cases info with
    | none => exact ⟨rfl, h⟩
    | some info =>
      simp only [rmMatching, Refusals.rmMatching]
      cases host.filepathMatch rule.regex (basename path) with
      | none =>
        by_cases hignored : ignoreErr path .badPattern = true
        · rw [if_pos hignored, if_pos hignored]
          exact ⟨rfl, h⟩
        · rw [if_neg hignored, if_neg hignored]
          exact ⟨rfl, h⟩
      | some matched =>
        cases matched with
        | false => exact ⟨rfl, h⟩
        | true =>
          obtain ⟨hsame, hstate⟩ := rmFile_alike host rule path h
          rcases hrm : rmFile host path s with ⟨o, u⟩
          rcases hrm' : (Refusals.none rule).rmFile host path t with ⟨o', v⟩
          rw [hrm, hrm'] at hsame hstate
          obtain rfl : o = o' := hsame
          rcases o with _ | ⟨err⟩ | _ | _
          · exact ⟨rfl, hstate⟩
          · by_cases hignored : ignoreErr path err = true
            · simp only [if_pos hignored]
              exact ⟨rfl, hstate⟩
            · simp only [if_neg hignored]
              exact ⟨rfl, hstate⟩
          · exact ⟨rfl, hstate⟩
          · exact ⟨rfl, hstate⟩

/-- **This is the removal of `Logfile.Move`**, where nobody else is at work. -/
theorem remove_alike (host : Host) (rule : FileFilterRule) (ignoreErr : Bytes → Error → Bool)
    {s : State} {t : Removal} (h : SameTree s t) :
    Alike SameTree (rule.remove host ignoreErr s)
      ((Refusals.none rule).remove host ignoreErr rule t) := by
  rcases t with ⟨disk, errors⟩
  obtain ⟨hs, rfl⟩ : s.cleaner = [] ∧ s.disk = disk := h
  have hwalk {s : State} {t : Removal} (h : SameTree s t) :=
    walk_alike (rmMatching_mirrors host rule ignoreErr) host.depth rule.getDir h
  have hall : (Refusals.none rule).removable host s.disk rule.getDir =
      host.removable host.denied s.disk rule.getDir := by
    simp [Refusals.removable, Refusals.none]
  have herror : (Refusals.none rule).allError rule.getDir =
      .path rule.getDir ((rmdirRefused rule.getDir).getD .denied) := by
    unfold Refusals.allError
    split
    · rename_i hdot
      rw [rmdirRefused_of_endsWithDot hdot, Option.getD_some]
    · rfl
  simp only [FileFilterRule.remove, Refusals.remove, tick_quiet hs]
  rcases host.stat s.disk rule.getDir with e | ⟨cell⟩ | ⟨listable⟩
  · cases e with
    | notExist => exact ⟨rfl, hs, rfl⟩
    | notDir => exact ⟨rfl, hs, rfl⟩
    | isDir => exact ⟨rfl, hs, rfl⟩
    | notEmpty => exact ⟨rfl, hs, rfl⟩
    | denied => exact ⟨rfl, hs, rfl⟩
    | busy => exact ⟨rfl, hs, rfl⟩
    | invalid => exact ⟨rfl, hs, rfl⟩
  · exact rmFile_alike host rule rule.getDir ⟨hs, rfl⟩
  · simp only [rmDir, Refusals.rmDir, tick_quiet hs, hall, herror]
    by_cases hstar : rule.regex = ascii ['*']
    · rw [if_pos hstar, if_pos hstar]
      have hgone : SameTree (s.occur host (.own (.erase (host.removable host.denied s.disk
          rule.getDir)))) ⟨s.disk.erased (host.removable host.denied s.disk rule.getDir),
            errors⟩ := ⟨hs, rfl⟩
      generalize s.occur host _ = u at hgone ⊢
      generalize s.disk.erased _ = disk at hgone ⊢
      obtain ⟨hu, rfl⟩ : u.cleaner = [] ∧ u.disk = disk := hgone
      by_cases hroot : u.disk.lookup (host.locate rule.getDir) = none
      · rw [if_pos hroot, if_pos hroot]
        exact ⟨rfl, hu, rfl⟩
      · rw [if_neg hroot, if_neg hroot]
        by_cases hignored : ignoreErr rule.getDir
            (.path rule.getDir ((rmdirRefused rule.getDir).getD .denied)) = true
        · rw [if_pos hignored, if_pos hignored]
          exact hwalk ⟨hu, rfl⟩
        · rw [if_neg hignored, if_neg hignored]
          exact ⟨rfl, hu, rfl⟩
    · rw [if_neg hstar, if_neg hstar]
      exact hwalk ⟨hs, rfl⟩

end Accumulation.Logfile
