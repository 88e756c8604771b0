/-
# Accumulation.Logfile.RemoveSources — which files the removal behind an archive deletes.

`removeSources` looks at no error, and nobody else is at work on the tree.  A file stays if no rule
dooms it: none selects it, or its directory may not be written (`removeSources_spares`).  A file that
a rule dooms is deleted, if the rule's walk can come to it (`removeSources_dooms`).  Until then
everything on the way to the file stays as it is, because a directory with something in it is not
removed (`Shrinks`).
-/
import Accumulation.Go.Spell
import Accumulation.Logfile.ArchivePack
import Accumulation.Logfile.MoveRuns

namespace Accumulation.Logfile

open Accumulation.Go

/-! ## The files of a rule -/

variable {host : Host} {rule : FileFilterRule} {f : Path} {s t : State}

theorem tick_quiet (h : s.cleaner = []) : s.tick host = s := by
  unfold State.tick
  rw [h]

/-- Of a file it does not matter how the path is spelled. -/
theorem Host.removeRefused_file {disk : Disk} {path : Bytes} {cell : FileCell}
    (h : disk.lookup (host.locate path) = some (.file cell)) :
    host.removeRefused disk path = disk.removeRefused host.denied (host.locate path) := by
  simp only [Host.removeRefused]
  rw [h]

/-- Removing one file: it is refused and nothing happens, or the file is gone. -/
theorem rmFile_cases (host : Host) (file : Bytes) (h : s.cleaner = []) :
    ((∃ e, host.removeRefused s.disk file = some e) ∧ (rmFile host file s).2 = s) ∨
      (s.disk.removeRefused host.denied (host.locate file) = none ∧
        rmFile host file s = (none, s.occur host (.own (.erase [host.locate file])))) := by
  simp only [rmFile, tick_quiet h, State.call]
  cases hrefused : host.removeRefused s.disk file with
  | none => exact Or.inr ⟨Host.removeRefused_none hrefused, rfl⟩
  | some e => exact Or.inl ⟨⟨e, rfl⟩, rfl⟩

/-! ## What stays -/

/-- Nobody else is at work, and what is at `f` stays. -/
def Spares (f : Path) (s t : State) : Prop :=
  s.cleaner = [] → t.cleaner = [] ∧
    (s.disk.lookup f ≠ none → t.disk.lookup f = s.disk.lookup f)

theorem spares_later (f : Path) : Later (Spares f) where
  refl _ hs := ⟨hs, fun _ => rfl⟩
  trans := by
    intro s t u hst htu hs
    rcases hst hs with ⟨ht, hf⟩
    rcases htu ht with ⟨hu, hf'⟩
    refine ⟨hu, fun hthere => ?_⟩
    rw [hf' (hf hthere ▸ hthere), hf hthere]

/-- Each step of a removal that does not doom the file spares it. -/
theorem covers_spares (h : ¬ rule.Dooms host f) : Covers host rule (Spares f) where
  toLater := spares_later f
  tick s hs := by
    rw [tick_quiet hs]
    exact ⟨hs, fun _ => rfl⟩
  file q hq s hs := by
    rcases rmFile_cases host (pathTo rule.getDir q) hs with ⟨-, hsame⟩ | ⟨hrefused, hgone⟩
    · rw [hsame]
      exact ⟨hs, fun _ => rfl⟩
    · rw [hgone]
      refine ⟨hs, fun _ => lookup_erased fun hmem => h ?_⟩
      have hplace := List.mem_singleton.mp hmem
      refine ⟨?_, q, ?_, hq⟩
      · by_contra hdenied
        apply removeRefused_of_denied _ hrefused
        rw [← hplace]
        simpa using hdenied
      · rw [hplace, Host.locate, Host.locate, (locate_pathTo host.pwd hq.dir q).1]
  all hdir hstar s hs := by
    refine ⟨hs, fun hthere => lookup_erased fun hmem => h ?_⟩
    rcases mem_removable.mp (Host.removable_subset hmem) with ⟨-, ⟨q, hq⟩, hfree⟩
    exact ⟨(hfree f hthere List.prefix_rfl).1, q, hq, hdir, Or.inr (Or.inl hstar)⟩

/-- **A file that no rule dooms stays.** -/
theorem removeSources_spares {infos : List FileDesc}
    (h : ∀ info ∈ infos, ¬ info.rule.Dooms host f) (s : State) :
    Spares f s (removeSources host infos s).2 := by
  induction infos generalizing s with
  | nil => exact (spares_later f).refl s
  | cons info infos ih =>
    have hfirst := (covers_spares (h info List.mem_cons_self)).remove (fun _ _ => true) s
    have hrest := ih fun i hi => h i (List.mem_cons_of_mem _ hi)
    rw [removeSources]
    split
    · rename_i u hu
      exact (spares_later f).trans (rel_of_eq hfirst hu) (hrest u)
    · rename_i u hu
      exact (spares_later f).trans (rel_of_eq hfirst hu) (hrest u)
    · rename_i u _ _ hu
      exact rel_of_eq hfirst hu

/-! ## What goes -/

/-- Nothing comes to the tree, and as long as `f` is there, everything above it stays as it is. -/
structure Thins (f : Path) (d d' : Disk) : Prop where
  gone : ∀ q, d.lookup q = none → d'.lookup q = none
  above : (∀ q, q <+: f → d.lookup q ≠ none) →
    d'.lookup f = none ∨ ∀ q, q <+: f → d'.lookup q = d.lookup q

theorem Thins.refl (f : Path) (d : Disk) : Thins f d d :=
  ⟨fun _ h => h, fun _ => Or.inr fun _ _ => rfl⟩

theorem Thins.trans {d d' d'' : Disk} (h : Thins f d d') (h' : Thins f d' d'') : Thins f d d'' := by
  refine ⟨fun q hq => h'.gone q (h.gone q hq), fun habove => ?_⟩
  rcases h.above habove with hgone | hsame
  · exact Or.inl (h'.gone f hgone)
  · rcases h'.above fun q hq => hsame q hq ▸ habove q hq with hgone | hsame'
    · exact Or.inl hgone
    · exact Or.inr fun q hq => (hsame' q hq).trans (hsame q hq)

/-- What is above something in the tree cannot be removed. -/
theorem removeRefused_above {denied : Path → Bool} {d : Disk} {p : Path} (hp : p <+: f)
    (hne : p ≠ f) (habove : ∀ q, q <+: f → d.lookup q ≠ none) :
    d.removeRefused denied p ≠ none := by
  rcases hp with ⟨q, rfl⟩
  cases q with
  | nil => exact absurd (List.append_nil p).symm hne
  | cons n q =>
    have hchild : n ∈ d.names p := by
      rw [mem_names]
      exact habove _ ⟨q, by rw [List.append_assoc, List.singleton_append]⟩
    unfold Disk.removeRefused
    split
    · exact Option.some_ne_none _
    · rw [if_pos (List.ne_nil_of_mem hchild)]
      exact Option.some_ne_none _

/-- Nor by `RemoveAll`, as long as what is below stays. -/
theorem not_removable_above {denied : Path → Bool} {d : Disk} {root p : Path} (hp : p <+: f)
    (hthere : d.lookup f ≠ none) (hf : f ∉ d.removable denied root)
    (hmem : p ∈ d.removable denied root) : False := by
  rcases mem_removable.mp hmem with ⟨-, hroot, hfree⟩
  exact hf (mem_removable.mpr ⟨hthere, hroot.trans hp, fun r hr hfr => hfree r hr (hp.trans hfr)⟩)

/-- **Removing a file** that may be removed. -/
theorem thins_file {denied : Path → Bool} {d : Disk} {p : Path}
    (hrefused : d.removeRefused denied p = none) : Thins f d (d.erased [p]) := by
  refine ⟨fun q hq => lookup_erased_none _ hq, fun habove => ?_⟩
  by_cases hself : p = f
  · exact Or.inl (lookup_erased_mem (hself ▸ List.mem_cons_self))
  · refine Or.inr fun q hq => lookup_erased fun hmem => ?_
    rw [List.mem_singleton] at hmem
    rw [hmem] at hq
    exact removeRefused_above hq hself habove hrefused

/-- **Removing everything** that may be removed. -/
theorem thins_all (denied : Path → Bool) (d : Disk) (root : Path) :
    Thins f d (d.erased (d.removable denied root)) := by
  refine ⟨fun q hq => lookup_erased_none _ hq, fun habove => ?_⟩
  by_cases hself : f ∈ d.removable denied root
  · exact Or.inl (lookup_erased_mem hself)
  · exact Or.inr fun p hp => lookup_erased fun hmem =>
      not_removable_above hp (habove f List.prefix_rfl) hself hmem

theorem Host.thins_removable (denied : Path → Bool) (d : Disk) (path : Bytes) :
    Thins f d (d.erased (host.removable denied d path)) := by
  unfold Host.removable
  split
  · exact Thins.refl f d
  · exact thins_all _ d _

/-- Nobody else is at work and nothing comes to the tree, and as long as `f` is there, everything
above it stays as it is. -/
def Shrinks (f : Path) (s t : State) : Prop :=
  s.cleaner = [] → t.cleaner = [] ∧ (∀ q, s.disk.lookup q = none → t.disk.lookup q = none) ∧
    ((∀ q, q <+: f → s.disk.lookup q ≠ none) →
      t.disk.lookup f = none ∨ ∀ q, q <+: f → t.disk.lookup q = s.disk.lookup q)

theorem shrinks_iff {f : Path} : Shrinks f s t ↔
    (s.cleaner = [] → t.cleaner = [] ∧ Thins f s.disk t.disk) :=
  imp_congr_right fun _ => and_congr_right fun _ =>
    ⟨fun h => ⟨h.1, h.2⟩, fun h => ⟨h.gone, h.above⟩⟩

theorem shrinks_later (f : Path) : Later (Shrinks f) where
  refl s := shrinks_iff.mpr fun hs => ⟨hs, Thins.refl f s.disk⟩
  trans := by
    intro s t u hst htu
    rw [shrinks_iff] at hst htu ⊢
    intro hs
    have ht := hst hs
    have hu := htu ht.1
    exact ⟨hu.1, ht.2.trans hu.2⟩

theorem covers_shrinks (host : Host) (rule : FileFilterRule) (f : Path) :
    Covers host rule (Shrinks f) where
  toLater := shrinks_later f
  tick s hs := by
    rw [tick_quiet hs]
    exact (shrinks_later f).refl s hs
  file q hq s := by
    rw [shrinks_iff]
    intro hs
    rcases rmFile_cases host (pathTo rule.getDir q) hs with ⟨-, hsame⟩ | ⟨hrefused, hgone⟩
    · rw [hsame]
      exact ⟨hs, Thins.refl f s.disk⟩
    · rw [hgone]
      exact ⟨hs, thins_file hrefused⟩
  all hdir hstar s := shrinks_iff.mpr fun hs => ⟨hs, Host.thins_removable host.denied s.disk _⟩

/-- A file with everything above it, and nothing below. -/
structure Leaf (d : Disk) (f : Path) : Prop where
  above : ∀ q, q <+: f → d.lookup q ≠ none
  below : ∀ r, f <+: r → r ≠ f → d.lookup r = none

theorem leaf_of_closed {d : Disk} (hd : d.Closed) {cell : FileCell}
    (hf : d.lookup f = some (.file cell)) : Leaf d f where
  above := by
    rintro q ⟨r, rfl⟩
    by_cases hr : r = []
    · rw [hr, List.append_nil] at hf
      rw [hf]
      exact Option.some_ne_none _
    · rcases hd.dir_above hr (by rw [hf]; exact Option.some_ne_none _) with ⟨listable, hdir⟩
      rw [hdir]
      exact Option.some_ne_none _
  below := by
    rintro r ⟨q, rfl⟩ hne
    by_contra hthere
    have hq : q ≠ [] := fun hq => hne (by rw [hq, List.append_nil])
    rcases hd.dir_above hq hthere with ⟨listable, hdir⟩
    rw [hf] at hdir
    nomatch hdir

/-- A leaf that may be removed can be removed. -/
theorem Leaf.removeRefused {d : Disk} (h : Leaf d f) {denied : Path → Bool}
    (hfree : denied f = false) : d.removeRefused denied f = none := by
  have hnames : d.names f = [] := by
    rw [List.eq_nil_iff_forall_not_mem]
    intro n hn
    exact mem_names.mp hn (h.below _ (List.prefix_append f [n]) (by simp))
  unfold Disk.removeRefused
  split
  · rename_i hnone
    exact absurd hnone (h.above f List.prefix_rfl)
  · rw [hnames, if_neg (fun hne => hne rfl), hfree]
    rfl

theorem Leaf.removable {d : Disk} (h : Leaf d f) {denied : Path → Bool} {root : Path}
    (hfree : denied f = false) (hreach : InReach d root f) (hroot : root <+: f) :
    f ∈ d.removable denied root := by
  refine mem_removable.mpr ⟨h.above f List.prefix_rfl, hroot, fun r hr hfr => ?_⟩
  obtain rfl : r = f := by
    by_contra hne
    exact hr (h.below r hfr hne)
  refine ⟨hfree, fun a ha hroot hne hdir => ?_⟩
  rw [hreach.dirs a hroot ha hne] at hdir
  nomatch hdir

/-- `RemoveAll` of a path that does not end in `.` removes a file that may be removed. -/
theorem Leaf.host_removable {d : Disk} (h : Leaf d f) {path : Bytes}
    (hdot : endsWithDot path = false) (hfree : host.denied f = false)
    (hreach : InReach d (host.locate path) f) (hroot : host.locate path <+: f)
    (hne : f ≠ host.locate path) : f ∈ host.removable host.denied d path := by
  unfold Host.removable
  rw [hdot, if_neg Bool.false_ne_true]
  apply h.removable _ hreach hroot
  simp [hfree, hne]

/-- Reach and leaf are kept as long as the file is there. -/
theorem Leaf.thinned {d d' : Disk} {root : Path} (h : Leaf d f) (hreach : InReach d root f)
    (hd : Thins f d d') : d'.lookup f = none ∨ (Leaf d' f ∧ InReach d' root f) := by
  rcases hd.above h.above with hgone | hsame
  · exact Or.inl hgone
  · refine Or.inr ⟨⟨fun q hq => ?_, fun r hfr hne => hd.gone r (h.below r hfr hne)⟩, ?_, ?_⟩
    · rw [hsame q hq]
      exact h.above q hq
    · rw [hsame f List.prefix_rfl]
      exact hreach.file
    · intro p hroot hp hne
      rw [hsame p hp]
      exact hreach.dirs p hroot hp hne

theorem Leaf.later {root : Path} (h : Leaf s.disk f) (hreach : InReach s.disk root f)
    (hs : s.cleaner = []) (hst : Shrinks f s t) :
    t.disk.lookup f = none ∨ (Leaf t.disk f ∧ InReach t.disk root f) :=
  h.thinned hreach (shrinks_iff.mp hst hs).2

/-- The file that `remove` selects is removed when `rmFile` comes to it. -/
theorem rmFile_leaf {file : Bytes} (hs : s.cleaner = []) (hleaf : Leaf s.disk f)
    (hfile : host.locate file = f) (hcell : ∃ cell, s.disk.lookup f = some (.file cell))
    (hfree : host.denied f = false) :
    ∃ t, rmFile host file s = (none, t) ∧ t.cleaner = [] ∧ t.disk.lookup f = none := by
  have hrefused := hleaf.removeRefused hfree
  obtain ⟨cell, hcell⟩ := hcell
  rcases rmFile_cases host file hs with ⟨⟨e, he⟩, -⟩ | ⟨-, hgone⟩
  · rw [Host.removeRefused_file (hfile.symm ▸ hcell), hfile, hrefused] at he
    nomatch he
  · exact ⟨_, hgone, hs, lookup_erased_mem (hfile ▸ List.mem_cons_self)⟩

theorem rmMatching_no_err (regex : Bytes) (path : Bytes) (info : Option Entry)
    (e : Option Errno) (s : State) (err : Error) :
    (rmMatching host regex (fun _ _ => true) path info e s).1 ≠ some (.err err) := by
  cases info with
  | none =>
    intro hcon
    cases hcon
  | some info =>
    simp only [rmMatching, if_true]
    split
    · intro hcon
      cases hcon
    · intro hcon
      cases hcon
    · split
      · intro hcon
        cases hcon
      · rename_i hrm
        intro hcon
        exact hrm err _ (Prod.ext hcon rfl)

/-- What is gone stays gone. -/
theorem Shrinks.gone (h : Shrinks f s t) (hs : s.cleaner = [] ∧ s.disk.lookup f = none) :
    t.cleaner = [] ∧ t.disk.lookup f = none :=
  ⟨(h hs.1).1, (h hs.1).2.1 f hs.2⟩

/-- **The walk removes** a file that matches. -/
theorem walk_dooms {ignoreErr : Bytes → Error → Bool} (hdir : rule.getDir ≠ [])
    (hfree : host.denied f = false) {q : Path} (hq : host.locate rule.getDir ++ q = f)
    (hmatch : host.filepathMatch rule.regex (basename (pathTo rule.getDir q)) = some true)
    (hs : s.cleaner = []) (hleaf : Leaf s.disk f)
    (hreach : InReach s.disk (host.locate rule.getDir) f)
    (hret : walk host.view (rmMatching host rule.regex ignoreErr) host.depth rule.getDir s =
      (none, t)) : t.disk.lookup f = none := by
  have hleads := (covers_shrinks host rule f).leads hdir ignoreErr
  have hst : Shrinks f s t := rel_of_eq (walk_rel hleads host.depth s) hret
  by_contra hthere
  -- the file is still there at the end, so the walk has been able to come to it all along
  have hkept (u : State) (hsu : Shrinks f s u) (hut : Shrinks f u t) :
      u.cleaner = [] ∧ Leaf u.disk f ∧ InReach u.disk (host.locate rule.getDir) f := by
    have hu := (hsu hs).1
    refine ⟨hu, (hleaf.later hreach hs hsu).resolve_left fun hnone => hthere ?_⟩
    exact (hut.gone ⟨hu, hnone⟩).2
  have hdone : t.cleaner = [] ∧ t.disk.lookup f = none := by
    refine walk_reaches hleads (fun u v huv hu => huv.gone hu) hdir hret (q := q) ?_ ?_
    · intro u hsu hut
      rw [← hq] at hkept
      exact (hkept u (hq ▸ hsu) (hq ▸ hut)).2.2
    · intro u v cell hsu hut hfile hcall
      obtain ⟨hu, huleaf, hureach⟩ := hkept u hsu hut
      have hplace : host.locate (pathTo rule.getDir q) = f :=
        ((locate_pathTo host.pwd hdir q).1).trans hq
      obtain ⟨w, hw, hwclean, hwnone⟩ := rmFile_leaf hu huleaf hplace hureach.file hfree
      simp only [rmMatching, hmatch, hw] at hcall
      obtain rfl := (Prod.mk.inj hcall).2
      exact ⟨hwclean, hwnone⟩
  exact hthere hdone.2

/-- **A file that a rule dooms is removed** by a removal that returns nil, if the walk can come to
it. -/
theorem remove_dooms_of_nil {ignoreErr : Bytes → Error → Bool}
    (hignore : ∀ path e, ignoreErr path (.path path e) = true) (hdooms : rule.Dooms host f)
    (hs : s.cleaner = []) (hleaf : Leaf s.disk f)
    (hreach : InReach s.disk (host.locate rule.getDir) f)
    (hret : rule.remove host ignoreErr s = (none, t)) : t.disk.lookup f = none := by
  rcases hdooms with ⟨hfree, q, hq, hremoves⟩
  have hdir := hremoves.dir
  have hroot : host.locate rule.getDir <+: f := ⟨q, hq⟩
  rcases Option.ne_none_iff_exists'.mp (hleaf.above _ hroot) with ⟨entry, hentry⟩
  simp only [FileFilterRule.remove, tick_quiet hs] at hret
  rw [stat_ok_iff.mpr ⟨hdir, hentry⟩] at hret
  cases entry with
  | file cell =>
    have hself : host.locate rule.getDir = f := by
      by_contra hne
      rw [hreach.dirs _ List.prefix_rfl hroot hne] at hentry
      cases hentry
    rcases rmFile_leaf hs hleaf hself hreach.file hfree with ⟨u, hu, -, hnone⟩
    dsimp only at hret
    rw [hu] at hret
    exact (Prod.mk.inj hret).2 ▸ hnone
  | dir listable =>
    have hbelow : f ≠ host.locate rule.getDir := by
      intro hself
      rcases hreach.file with ⟨cell, hcell⟩
      rw [hself, hentry] at hcell
      cases hcell
    have hqne : q ≠ [] := by
      rintro rfl
      exact hbelow (hq.symm.trans (List.append_nil _))
    dsimp only at hret
    simp only [rmDir, if_pos (hignore _ _)] at hret
    by_cases hstar : rule.regex = ascii ['*']
    · rw [if_pos hstar, tick_quiet hs] at hret
      obtain ⟨u, hu⟩ : ∃ u, u = s.occur host (.own (.erase (host.removable host.denied s.disk
          rule.getDir))) := ⟨_, rfl⟩
      have hwalk := walk_rel ((covers_shrinks host rule f).leads hdir ignoreErr) host.depth
      rw [← hu] at hret
      cases hdot : endsWithDot rule.getDir with
      | false =>
        -- everything is removed at once, and what comes after brings nothing back
        have hfirst : u.cleaner = [] ∧ u.disk.lookup f = none :=
          ⟨hu ▸ hs, hu ▸ lookup_erased_mem (hleaf.host_removable hdot hfree hreach hroot hbelow)⟩
        split at hret
        · exact (Prod.mk.inj hret).2 ▸ hfirst.2
        · exact (Shrinks.gone (rel_of_eq (hwalk u) hret) hfirst).2
      | true =>
        -- nothing is, and the walk comes to the file
        have hsame : u.disk = s.disk := by
          rw [hu]
          simp only [Host.removable, hdot, if_true]
          rfl
        have hthere : u.disk.lookup (host.locate rule.getDir) ≠ none := by
          rw [hsame, hentry]
          exact Option.some_ne_none _
        rw [if_neg hthere] at hret
        refine walk_dooms hdir hfree hq ?_ (hu ▸ hs) (hsame ▸ hleaf) (hsame ▸ hreach) hret
        obtain ⟨p, n, rfl⟩ := (List.eq_nil_or_concat' q).resolve_left hqne
        rw [hstar, basename_pathTo hdir]
        exact host.match_star _ n.no_slash
    · rw [if_neg hstar] at hret
      exact walk_dooms hdir hfree hq
        ((hremoves.selects.resolve_left hqne).resolve_left hstar) hs hleaf hreach hret

/-- Where every error is ignored, removing a directory ends with none. -/
theorem rmDir_no_err (dir regex : Bytes) (s : State) (err : Error) :
    (rmDir host dir regex (fun _ _ => true) s).1 ≠ some (.err err) := by
  have hwalk (s : State) : (walk host.view (rmMatching host regex fun _ _ => true) host.depth dir
      s).1 ≠ some (.err err) := walk_no_err (rmMatching_no_err regex) host.depth dir s err
  simp only [rmDir, if_true]
  split
  · split
    · exact fun hcon => by cases hcon
    · exact hwalk _
  · exact hwalk s

/-- **A file that a rule dooms is removed**, whatever the removal returns. -/
theorem remove_dooms (hdooms : rule.Dooms host f) (hs : s.cleaner = []) (hleaf : Leaf s.disk f)
    (hreach : InReach s.disk (host.locate rule.getDir) f)
    (hret : ∀ stop, (rule.remove host (fun _ _ => true) s).1 = some stop → ∃ e, stop = .err e) :
    (rule.remove host (fun _ _ => true) s).2.disk.lookup f = none := by
  rcases hr : rule.remove host (fun _ _ => true) s with ⟨_ | stop, t⟩
  · exact remove_dooms_of_nil (fun _ _ => rfl) hdooms hs hleaf hreach hr
  · exfalso
    rw [hr] at hret
    obtain ⟨e, rfl⟩ := hret stop rfl
    obtain ⟨hfree, q, hq, hremoves⟩ := hdooms
    obtain ⟨entry, hentry⟩ := Option.ne_none_iff_exists'.mp (hleaf.above _ ⟨q, hq⟩)
    simp only [FileFilterRule.remove, tick_quiet hs] at hr
    rw [stat_ok_iff.mpr ⟨hremoves.dir, hentry⟩] at hr
    cases entry with
    | dir listable => exact rmDir_no_err _ _ s e (congrArg Prod.fst hr)
    | file cell =>
      have hself : host.locate rule.getDir = f := by
        by_contra hne
        rw [hreach.dirs _ List.prefix_rfl ⟨q, hq⟩ hne] at hentry
        cases hentry
      obtain ⟨u, hu, -, -⟩ := rmFile_leaf hs hleaf hself hreach.file hfree
      cases hu.symm.trans hr

/-- **A file that one of the rules dooms is removed.** -/
theorem removeSources_dooms {infos : List FileDesc} (hs : s.cleaner = []) (hleaf : Leaf s.disk f)
    (hdoomed : ∃ info ∈ infos, info.rule.Dooms host f ∧
      InReach s.disk (host.locate info.rule.getDir) f)
    (hret : removeSources host infos s = (none, t)) : t.disk.lookup f = none := by
  have hrest (infos : List FileDesc) (s : State) :
      Shrinks f s (removeSources host infos s).2 := by
    induction infos generalizing s with
    | nil => exact (shrinks_later f).refl s
    | cons info infos ih =>
      have hfirst := (covers_shrinks host info.rule f).remove (fun _ _ => true) s
      rw [removeSources]
      split
      · rename_i u hu
        exact (shrinks_later f).trans (rel_of_eq hfirst hu) (ih u)
      · rename_i u hu
        exact (shrinks_later f).trans (rel_of_eq hfirst hu) (ih u)
      · rename_i u _ _ hu
        exact rel_of_eq hfirst hu
  induction infos generalizing s with
  | nil => nomatch hdoomed.choose_spec.1
  | cons info infos ih =>
    have hfirst := (covers_shrinks host info.rule f).remove (fun _ _ => true) s
    obtain ⟨u, hu, hgo, herr⟩ : ∃ u, (info.rule.remove host (fun _ _ => true) s).2 = u ∧
        removeSources host infos u = (none, t) ∧
        ∀ stop, (info.rule.remove host (fun _ _ => true) s).1 = some stop → ∃ e, stop = .err e := by
      rw [removeSources] at hret
      split at hret
      · rename_i u hu
        exact ⟨u, by rw [hu], hret, fun stop hstop => by rw [hu] at hstop; nomatch hstop⟩
      · rename_i e u hu
        refine ⟨u, by rw [hu], hret, fun stop hstop => ⟨e, ?_⟩⟩
        rw [hu] at hstop
        exact (Option.some.inj hstop).symm
      · nomatch hret
    have hut : Shrinks f u t := rel_of_eq (hrest infos u) hgo
    have hclean : u.cleaner = [] := hu ▸ (hfirst hs).1
    by_cases hnone : u.disk.lookup f = none
    · exact (hut hclean).2.1 f hnone
    · rcases hdoomed with ⟨info', hinfo, hdooms, hreach⟩
      rcases List.mem_cons.mp hinfo with rfl | hinfo
      · exact absurd (hu ▸ remove_dooms hdooms hs hleaf hreach herr) hnone
      · rw [hu] at hfirst
        rcases (hleaf.later hreach hs hfirst).resolve_left hnone with ⟨hleaf', hreach'⟩
        exact ih hclean hleaf' ⟨info', hinfo, hdooms, hreach'⟩ hgo

end Accumulation.Logfile
