/-
# Accumulation.Logfile.MoveRuns — what a call of `DoMove` does to the tree.

A call is a run of events on the tree: its own operations and the removals of `CleanExpiredData`.
Copying comes first, rule by rule, and removing after it (`move_phases`).  A file that a rule accepts
has been copied when copying ends without an error, if no event has taken it out of the reach of the
walk before (`forEach_copies`).  What that comes to is said in `Logfile.MoveFaithful` and
`Logfile.MoveRemoves`.
-/
import Accumulation.Lib.Run
import Accumulation.Logfile.Move

namespace Accumulation.Logfile

open Accumulation.Go Accumulation.Lib.Run

/-! ## Strings of clean paths -/

theorem replaceSlashes_of_single {s : Bytes} (h : ¬ [slash, slash] <:+: s) :
    replaceSlashes s = s := by
  fun_induction replaceSlashes s with
  | case1 a b rest hab ih =>
    apply absurd _ h
    rw [hab.1, hab.2]
    exact ⟨[], rest, rfl⟩
  | case2 a b rest hab ih =>
    rw [ih fun hrest => h (hrest.trans (List.infix_cons List.infix_rfl))]
  | case3 s hs => rfl

/-- A clean path is normal. -/
theorem filePathNormalization_render (p : Path) : filePathNormalization (render p) = render p := by
  rw [filePathNormalization, replaceSlashes_of_single (no_double_slash p)]
  cases (render p).length with
  | zero => rfl
  | succ n => exact if_neg (no_double_slash p)

/-- **The destination** keeps the end of the path, from somewhere below the root on. -/
theorem destination_render (isDir : Bytes → Bool) (base : Path) {root f : Path} (hf : root <+: f) :
    ∃ q, q <:+ f ∧
      destination isDir (render root) (render base) (render f) = some (render (base ++ q)) := by
  have hfirst : ∃ t, t <+: f ∧
      (if isDir (render root) then render root else dir (render root)) = render t := by
    split
    · exact ⟨root, hf, rfl⟩
    · exact ⟨root.dropLast, (List.dropLast_prefix root).trans hf, dir_render root⟩
  rcases hfirst with ⟨t, ht, htrim⟩
  have hlength := length_render_le ht
  have hpos := List.length_pos_iff.mpr (render_ne_nil t)
  have hindex : (render t).length - 1 < (render f).length := by omega
  have hsecond (c : UInt8) : ∃ u, u <+: f ∧
      (if c = slash then dir (render t) else render t) = render u := by
    split
    · exact ⟨t.dropLast, (List.dropLast_prefix t).trans ht, dir_render t⟩
    · exact ⟨t, ht, rfl⟩
  rcases hsecond (render f)[(render t).length - 1] with ⟨u, hu, htrim'⟩
  have hthird : ∃ v, v <+: f ∧
      (if (dir (render u)).length > 2 then dir (render u) else render u) = render v := by
    split
    · exact ⟨u.dropLast, (List.dropLast_prefix u).trans hu, dir_render u⟩
    · exact ⟨u, hu, rfl⟩
  rcases hthird with ⟨v, ⟨q, rfl⟩, htrim''⟩
  refine ⟨q, List.suffix_append v q, ?_⟩
  simp only [destination, htrim, if_neg (render_ne_nil t), List.getElem?_eq_getElem hindex, htrim',
    htrim'']
  rw [join_render (named_trimPrefix v q)]

/-! ## The directory of a rule -/

theorem filter_of_head_tail {xs ys : List Bytes} (hhead : xs.head? = ys.head?)
    (htail : xs.tail.filter (· ≠ []) = ys.tail.filter (· ≠ [])) :
    xs.filter (· ≠ []) = ys.filter (· ≠ []) := by
  cases xs with
  | nil => cases ys with
    | nil => rfl
    | cons y ys => nomatch hhead
  | cons x xs => cases ys with
    | nil => nomatch hhead
    | cons y ys =>
      obtain rfl := Option.some.inj hhead
      rw [List.filter_cons, List.filter_cons, show xs.filter _ = ys.filter _ from htail]

/-- The first element and the names behind it, which are left by `replaceSlashes`. -/
theorem elements_replaceSlashes (s : Bytes) :
    (elements (replaceSlashes s)).head? = (elements s).head? ∧
      (elements (replaceSlashes s)).tail.filter (· ≠ []) = (elements s).tail.filter (· ≠ []) := by
  fun_induction replaceSlashes s with
  | case1 a b rest hab ih =>
    rw [hab.1, hab.2]
    refine ⟨by simp [elements], ?_⟩
    have hrest := filter_of_head_tail ih.1 ih.2
    simpa [elements] using hrest
  | case2 a b rest hab ih =>
    by_cases ha : a = slash
    · rw [ha]
      refine ⟨by simp [elements], ?_⟩
      have hrest := filter_of_head_tail ih.1 ih.2
      simpa [elements] using hrest
    · rcases hxs : elements (replaceSlashes (b :: rest)) with _ | ⟨x, xs⟩
      · exact absurd hxs (elements_ne_nil _)
      · rcases hys : elements (b :: rest) with _ | ⟨y, ys⟩
        · exact absurd hys (elements_ne_nil _)
        · rw [hxs, hys] at ih
          obtain rfl := Option.some.inj ih.1
          rw [elements.eq_def (a :: replaceSlashes (b :: rest)), elements.eq_def (a :: b :: rest)]
          dsimp only
          rw [if_neg ha, if_neg ha, hxs, hys]
          exact ⟨rfl, ih.2⟩
  | case3 s hs => exact ⟨rfl, rfl⟩

theorem head_replaceSlashes (s : Bytes) : (replaceSlashes s).head? = s.head? := by
  fun_induction replaceSlashes s with
  | case1 a b rest hab ih => rw [hab.1]; rfl
  | case2 a b rest hab ih => rfl
  | case3 s hs => rfl

/-- A string that leads to the same place, and is empty if the other one is. -/
theorem locate_replaceSlashes (pwd : Path) (s : Bytes) :
    locate pwd (replaceSlashes s) = locate pwd s := by
  rcases elements_replaceSlashes s with ⟨hhead, htail⟩
  rw [locate, locate, head_replaceSlashes, foldl_enter_named, foldl_enter_named _ (elements s)]
  congr 1
  exact filter_of_head_tail hhead htail

theorem normalizeLoop_same (pwd : Path) (n : Nat) (s : Bytes) :
    (normalizeLoop n s).head? = s.head? ∧ locate pwd (normalizeLoop n s) = locate pwd s := by
  induction n generalizing s with
  | zero => exact ⟨rfl, rfl⟩
  | succ n ih =>
    rw [normalizeLoop]
    split
    · have hrest := ih (replaceSlashes s)
      rw [head_replaceSlashes, locate_replaceSlashes] at hrest
      exact hrest
    · exact ⟨rfl, rfl⟩

/-- **A rule's directory** is the one it names. -/
theorem locate_getDir (host : Host) (rule : FileFilterRule) :
    host.locate rule.getDir = host.locate rule.dir := by
  have hloop := (normalizeLoop_same host.pwd rule.dir.length (replaceSlashes rule.dir)).2
  rw [locate_replaceSlashes] at hloop
  exact hloop

theorem getDir_eq_nil (rule : FileFilterRule) : rule.getDir = [] ↔ rule.dir = [] := by
  have hloop := (normalizeLoop_same [] rule.dir.length (replaceSlashes rule.dir)).1
  rw [head_replaceSlashes] at hloop
  rw [← List.head?_eq_none_iff, ← List.head?_eq_none_iff (l := rule.dir)]
  exact hloop ▸ Iff.rfl

/-! ## Runs of events -/

namespace Tree

/-- The machine the events run on. -/
def step (host : Host) (tree : Tree) (event : Event) : Option Tree := some (tree.occur host event)

/-- The events of a run are kept. -/
theorem events_of_exec {host : Host} {s t : Tree} {events : List Event}
    (hrun : exec (step host) s events = some t) : t.events = s.events ++ events := by
  induction events generalizing s with
  | nil =>
    obtain rfl := Option.some.inj hrun
    exact (List.append_nil _).symm
  | cons e events ih =>
    rw [ih hrun]
    show s.events ++ [e] ++ events = s.events ++ e :: events
    rw [List.append_assoc, List.singleton_append]

end Tree

variable {host : Host} {task : MoveTask}

/-- What `CleanExpiredData` removes is in the entries it has in mind. -/
def Event.SweptBy (host : Host) (cleaner : List (List Name)) : Event → Prop
  | .cleaned gone => ∀ p ∈ gone, ∃ names ∈ cleaner, ∃ name ∈ names, host.pwd ++ [logtmp, name] <+: p
  | .own _ => True

theorem Event.SweptBy.mono {cleaner cleaner' : List (List Name)} {e : Event}
    (h : e.SweptBy host cleaner) (hsub : ∀ names ∈ cleaner, names ∈ cleaner') :
    e.SweptBy host cleaner' := by
  cases e with
  | own op => trivial
  | cleaned gone =>
    intro p hp
    obtain ⟨names, hnames, hname⟩ := h p hp
    exact ⟨names, hsub names hnames, hname⟩

/-- Between two states, only events of a kind have happened. -/
def Evolves (host : Host) (kind : Event → Prop) (s t : State) : Prop :=
  ∃ events, (∀ e ∈ events, kind e ∧ e.SweptBy host s.cleaner) ∧
    exec (Tree.step host) s.toTree events = some t.toTree ∧
      ∀ names ∈ t.cleaner, names ∈ s.cleaner

theorem evolves_later (host : Host) (kind : Event → Prop) : Later (Evolves host kind) where
  refl s := ⟨[], fun _ h => (nomatch h), rfl, fun _ h => h⟩
  trans := by
    rintro s t u ⟨es, hes, hst, hcleaner⟩ ⟨fs, hfs, htu, hcleaner'⟩
    refine ⟨es ++ fs, ?_, ?_, fun names hnames => hcleaner names (hcleaner' names hnames)⟩
    · intro e he
      rcases List.mem_append.mp he with he | he
      · exact hes e he
      · exact ⟨(hfs e he).1, (hfs e he).2.mono hcleaner⟩
    · rw [exec_append, hst]
      exact htu

variable {kind : Event → Prop}

theorem Evolves.events {s t : State} (h : Evolves host kind s t) :
    ∃ events, (∀ e ∈ events, kind e ∧ e.SweptBy host s.cleaner) ∧
      t.events = s.events ++ events := by
  rcases h with ⟨es, hes, hrun, -⟩
  exact ⟨es, hes, Tree.events_of_exec hrun⟩

theorem Evolves.cleaner {s t : State} (h : Evolves host kind s t) :
    ∀ names ∈ t.cleaner, names ∈ s.cleaner := by
  rcases h with ⟨-, -, -, hcleaner⟩
  exact hcleaner

theorem Evolves.mem {s t : State} {e : Event} (h : Evolves host kind s t) (he : e ∈ s.events) :
    e ∈ t.events := by
  rcases h.events with ⟨es, _, hes⟩
  rw [hes]
  exact List.mem_append_left _ he

theorem occur_evolves {s : State} {op : FileOp} (hop : kind (.own op)) :
    Evolves host kind s (s.occur host (.own op)) := by
  refine ⟨[.own op], ?_, rfl, fun _ h => h⟩
  intro e he
  rw [List.mem_singleton.mp he]
  exact ⟨hop, trivial⟩

/-- The turn of `CleanExpiredData`: nothing, or entries of `logtmp` are gone. -/
theorem tick_cases (host : Host) (s : State) : s.tick host = s ∨ ∃ names cleaner,
    s.cleaner = names :: cleaner ∧ s.tick host = ⟨s.toTree.occur host (.cleaned (names.flatMap
      fun name => s.disk.removable host.denied (host.pwd ++ [logtmp, name]))), cleaner⟩ := by
  unfold State.tick
  split
  · exact Or.inl rfl
  · rename_i names cleaner hcleaner
    exact Or.inr ⟨names, cleaner, hcleaner, rfl⟩

theorem below_of_cleaned {names : List Name} {disk : Disk} {p : Path}
    (hp : p ∈ names.flatMap fun name => disk.removable host.denied (host.pwd ++ [logtmp, name])) :
    ∃ name ∈ names, host.pwd ++ [logtmp, name] <+: p ∧
      p ∈ disk.removable host.denied (host.pwd ++ [logtmp, name]) := by
  obtain ⟨name, hname, hp⟩ := List.mem_flatMap.mp hp
  exact ⟨name, hname, (mem_removable.mp hp).2.1, hp⟩

/-- `CleanExpiredData` may come in anywhere, and removes entries of `logtmp`. -/
theorem tick_evolves
    (hkind : ∀ gone, (∀ p ∈ gone, host.pwd ++ [logtmp] <+: p) → kind (.cleaned gone)) (s : State) :
    Evolves host kind s (s.tick host) := by
  rcases tick_cases host s with hsame | ⟨names, cleaner, hcleaner, htick⟩
  · rw [hsame]
    exact (evolves_later host kind).refl s
  · rw [htick]
    refine ⟨[_], ?_, rfl, fun names hnames => hcleaner ▸ List.mem_cons_of_mem _ hnames⟩
    intro e he
    rw [List.mem_singleton.mp he]
    refine ⟨hkind _ fun p hp => ?_, fun p hp => ?_⟩
    all_goals obtain ⟨name, hname, hbelow, -⟩ := below_of_cleaned hp
    · refine List.IsPrefix.trans ⟨[name], ?_⟩ hbelow
      rw [List.append_assoc]
      rfl
    · exact ⟨names, hcleaner ▸ List.mem_cons_self, name, hname, hbelow⟩

theorem call_evolves {op : FileOp} (hop : kind (.own op)) (path : Bytes) (refused : Option Errno)
    (s : State) : Evolves host kind s (s.call host path refused op).2 := by
  unfold State.call
  split
  · exact (evolves_later host kind).refl s
  · exact occur_evolves hop

theorem errorf_snd (text : String) (r : Returns) : (errorf text r).2 = r.2 := by
  unfold errorf
  split
  · rfl
  · rfl

theorem errorf_eq_none {text : String} {r : Returns} {t : State} (h : errorf text r = (none, t)) :
    r = (none, t) := by
  unfold errorf at h
  split at h
  · nomatch h
  · exact h

theorem call_eq_none {path : Bytes} {refused : Option Errno} {op : FileOp} {s t : State}
    (h : s.call host path refused op = (none, t)) : t = s.occur host (.own op) := by
  unfold State.call at h
  split at h
  · nomatch h
  · exact (Prod.mk.inj h).2.symm

/-- **A loop leads where its steps lead.** -/
theorem forEach_rel {α : Type*} {f : α → State → Returns} {R : State → State → Prop} (hR : Later R)
    (as : List α) (hf : ∀ a ∈ as, ∀ s, R s (f a s).2) (s : State) : R s (forEach f as s).2 := by
  induction as generalizing s with
  | nil => exact hR.refl s
  | cons a as ih =>
    exact onNil_rel hR (hf a List.mem_cons_self s)
      (ih fun b hb => hf b (List.mem_cons_of_mem a hb))

theorem forEach_evolves {α : Type*} {f : α → State → Returns} (as : List α)
    (hf : ∀ a ∈ as, ∀ s, Evolves host kind s (f a s).2) (s : State) :
    Evolves host kind s (forEach f as s).2 :=
  forEach_rel (evolves_later host kind) as hf s

/-- A loop that returns nil has come through each element with nil. -/
theorem forEach_eq_none {α : Type*} {f : α → State → Returns} {as : List α}
    {R : State → State → Prop} (hR : Later R) (hf : ∀ a ∈ as, ∀ s, R s (f a s).2) {s t : State}
    (h : forEach f as s = (none, t)) {a : α} (ha : a ∈ as) :
    ∃ u v, R s u ∧ f a u = (none, v) ∧ R v t := by
  induction as generalizing s with
  | nil => nomatch ha
  | cons b bs ih =>
    rcases onNil_eq_none h with ⟨v, hfirst, hrest⟩
    have hfs : ∀ c ∈ bs, ∀ s, R s (f c s).2 := fun c hc => hf c (List.mem_cons_of_mem b hc)
    rcases List.mem_cons.mp ha with rfl | ha
    · exact ⟨s, v, hR.refl s, hfirst, rel_of_eq (forEach_rel hR bs hfs v) hrest⟩
    · rcases ih hfs hrest ha with ⟨u, w, hvu, hw, hwt⟩
      exact ⟨u, w, hR.trans (rel_of_eq (hf b List.mem_cons_self s) hfirst) hvu, hw, hwt⟩

/-! ## The events of copying and of removing -/

/-- What happens while files are copied to certain places. -/
def Event.Copying (host : Host) (place : Path → Prop) : Event → Prop
  | .own (.mkdirAll _) | .own (.openFile _) => True
  | .cleaned gone => ∀ p ∈ gone, host.pwd ++ [logtmp] <+: p
  | .own (.copy _ dst) => place dst
  | .own (.create _) | .own (.erase _) => False

def Event.NotCopying : Event → Prop
  | .own (.copy _ _) => False
  | _ => True

instance : DecidablePred Event.NotCopying
  | .own (.copy _ _) => .isFalse id
  | .own (.mkdirAll _) | .own (.openFile _) | .own (.create _) | .own (.erase _) | .cleaned _ =>
    .isTrue trivial

/-- What happens while certain paths are removed. -/
def Event.Removing (host : Host) (place : Path → Prop) : Event → Prop
  | .own (.erase gone) => ∀ p ∈ gone, place p
  | .own (.create _) => True
  | .cleaned gone => ∀ p ∈ gone, host.pwd ++ [logtmp] <+: p
  | .own _ => False

/-- The paths that a rule's `remove` is meant to remove: what the rule names, and what is below it
and matches the pattern. -/
structure FileFilterRule.Removes (host : Host) (rule : FileFilterRule) (q : Path) : Prop where
  dir : rule.getDir ≠ []
  selects : q = [] ∨ rule.regex = ascii ['*'] ∨
    host.filepathMatch rule.regex (basename (pathTo rule.getDir q)) = some true

/-- The rule selects the file at `f`, and it may be removed. -/
def FileFilterRule.Dooms (host : Host) (rule : FileFilterRule) (f : Path) : Prop :=
  host.denied f = false ∧ ∃ q, host.locate rule.getDir ++ q = f ∧ rule.Removes host q

section Copying

variable {place : Path → Prop} {regex srcPath dstPath path : Bytes}

theorem mkdirIfNeeded_evolves (dir : Bytes) (s : State) :
    Evolves host (Event.Copying host place) s (mkdirIfNeeded host dir s).2 := by
  have hR := evolves_later host (Event.Copying host place)
  apply hR.trans (tick_evolves (fun _ hgone => hgone) s)
  simp only [mkdirIfNeeded]
  split
  · exact call_evolves trivial _ _ _
  · exact hR.refl _

theorem copyFrom_evolves {dst : Path} (hdst : place dst) (path : Bytes) (s : State) :
    Evolves host (Event.Copying host place) s (copyFrom host path dst s).2 := by
  simp only [copyFrom]
  split
  · rw [errorf_snd]
    exact (evolves_later _ _).refl s
  · exact call_evolves hdst _ _ _

/-- The path is copied to one of the places, whatever `isDir` says. -/
def GoesTo (host : Host) (place : Path → Prop) (srcPath dstPath path : Bytes) : Prop :=
  ∀ isDir dst, destination isDir srcPath dstPath path = some dst → place (host.locate dst)

theorem copyFile_evolves (hplace : GoesTo host place srcPath dstPath path) (info : Option Entry)
    (e : Option Errno) (s : State) :
    Evolves host (Event.Copying host place) s
      (copyFile host task regex srcPath dstPath path info e s).2 := by
  have hR := evolves_later host (Event.Copying host place)
  cases info with
  | none => exact hR.refl s
  | some info =>
    cases info with
    | dir listable => exact hR.refl s
    | file fi =>
      simp only [copyFile]
      split
      · split
        · exact hR.refl s
        · rename_i dst hdst
          apply onNil_rel hR (mkdirIfNeeded_evolves _ s)
          intro t
          apply onNil_rel hR
          · rw [errorf_snd]
            exact hR.trans (tick_evolves (fun _ hgone => hgone) t) (call_evolves trivial _ _ _)
          · intro u
            exact hR.trans (tick_evolves (fun _ hgone => hgone) u)
              (copyFrom_evolves (hplace _ dst hdst) path _)
      · exact hR.refl s

theorem copyFile_leads (task : MoveTask) (regex : Bytes)
    (hplace : ∀ q, GoesTo host place srcPath dstPath (pathTo srcPath q)) :
    Leads host.view (copyFile host task regex srcPath dstPath) srcPath
      (Evolves host (Event.Copying host place)) where
  toLater := evolves_later _ _
  meanwhile s := tick_evolves (fun _ hgone => hgone) s
  fn q info e s _ := copyFile_evolves (hplace q) info e s

theorem copyDir_evolves {rule : FileFilterRule}
    (hplace : ∀ q, GoesTo host place rule.getDir dstPath (pathTo rule.getDir q)) (s : State) :
    Evolves host (Event.Copying host place) s (copyDir host task dstPath rule s).2 := by
  have hR := evolves_later host (Event.Copying host place)
  apply hR.trans (tick_evolves (fun _ hgone => hgone) s)
  simp only [copyDir]
  split
  · exact hR.refl _
  · rw [errorf_snd]
    exact hR.refl _
  · exact walk_rel (copyFile_leads task rule.regex hplace) _ _

end Copying

section Removing

variable {place : Path → Prop}

theorem mkdirEmptyFileIfNeeded_evolves (path : Bytes) (s : State) :
    Evolves host (Event.Removing host place) s (mkdirEmptyFileIfNeeded host path s) := by
  have hR := evolves_later host (Event.Removing host place)
  apply hR.trans (tick_evolves (fun _ hgone => hgone) s)
  simp only [mkdirEmptyFileIfNeeded]
  split
  · exact call_evolves trivial _ _ _
  · exact hR.refl _

theorem removeRefused_of_denied {denied : Path → Bool} {d : Disk} {p : Path}
    (h : denied p = true) : d.removeRefused denied p ≠ none := by
  unfold Disk.removeRefused
  split
  · exact Option.some_ne_none _
  · rw [h]
    split
    · exact Option.some_ne_none _
    · exact Option.some_ne_none _

/-- How a path is spelled makes nothing easier to remove. -/
theorem Host.removeRefused_none {disk : Disk} {path : Bytes}
    (h : host.removeRefused disk path = none) :
    disk.removeRefused host.denied (host.locate path) = none := by
  simp only [Host.removeRefused] at h
  split at h
  · exact (Option.or_eq_none_iff.mp h).2
  · exact h

theorem Host.not_denied {disk : Disk} {path : Bytes} (h : host.removeRefused disk path = none) :
    host.denied (host.locate path) = false := by
  by_contra hdenied
  exact removeRefused_of_denied (by simpa using hdenied) (Host.removeRefused_none h)

theorem rmFile_evolves {file : Bytes}
    (hfile : host.denied (host.locate file) = false → place (host.locate file)) (s : State) :
    Evolves host (Event.Removing host place) s (rmFile host file s).2 := by
  have hR := evolves_later host (Event.Removing host place)
  apply hR.trans (tick_evolves (fun _ hgone => hgone) s)
  simp only [rmFile]
  unfold State.call
  split
  · exact hR.refl _
  · rename_i hrefused
    refine occur_evolves fun p hp => ?_
    rw [List.mem_singleton.mp hp]
    exact hfile (Host.not_denied hrefused)

theorem Host.removable_subset {denied : Path → Bool} {disk : Disk} {path : Bytes} {f : Path}
    (h : f ∈ host.removable denied disk path) :
    f ∈ disk.removable denied (host.locate path) := by
  unfold Host.removable at h
  split at h
  · nomatch h
  · rw [mem_removable] at h ⊢
    refine ⟨h.1, h.2.1, fun r hr hfr => ⟨?_, (h.2.2 r hr hfr).2⟩⟩
    exact (Bool.or_eq_false_iff.mp (h.2.2 r hr hfr).1).1

/-- A relation that covers each step of a rule's `remove`. -/
structure Covers (host : Host) (rule : FileFilterRule) (R : State → State → Prop) : Prop
    extends Later R where
  tick : ∀ s, R s (s.tick host)
  file : ∀ q, rule.Removes host q → ∀ s, R s (rmFile host (pathTo rule.getDir q) s).2
  all : rule.getDir ≠ [] → rule.regex = ascii ['*'] → ∀ s, R s (s.occur host
    (.own (.erase (host.removable host.denied s.disk rule.getDir))))

variable {rule : FileFilterRule} {R : State → State → Prop}

theorem Covers.leads (h : Covers host rule R) (hdir : rule.getDir ≠ [])
    (ignoreErr : Bytes → Error → Bool) :
    Leads host.view (rmMatching host rule.regex ignoreErr) rule.getDir R where
  toLater := h.toLater
  meanwhile s := h.tick s
  fn := by
    intro q info e s _
    cases info with
    | none => exact h.refl s
    | some info =>
      simp only [rmMatching]
      split
      · split
        · exact h.refl s
        · exact h.refl s
      · exact h.refl s
      · rename_i hmatched
        have hst := h.file q ⟨hdir, Or.inr (Or.inr hmatched)⟩ s
        split
        · rename_i hrm
          have hst := rel_of_eq hst hrm
          split
          · exact hst
          · exact hst
        · exact hst

theorem Covers.rmDir (h : Covers host rule R) (hdir : rule.getDir ≠ [])
    (ignoreErr : Bytes → Error → Bool) (s : State) :
    R s (rmDir host rule.getDir rule.regex ignoreErr s).2 := by
  have hwalk := walk_rel (h.leads hdir ignoreErr) host.depth
  simp only [Logfile.rmDir]
  split
  · rename_i hstar
    have hgone := h.trans (h.tick s) (h.all hdir hstar (s.tick host))
    split
    · exact hgone
    · split
      · exact h.trans hgone (hwalk _)
      · exact hgone
  · exact hwalk s

/-- **What covers the steps of `remove` covers `remove`.** -/
theorem Covers.remove (h : Covers host rule R) (ignoreErr : Bytes → Error → Bool) (s : State) :
    R s (rule.remove host ignoreErr s).2 := by
  apply h.trans (h.tick s)
  simp only [FileFilterRule.remove]
  by_cases hdir : rule.getDir = []
  · -- there is nothing under the empty string
    have hstat : host.stat (s.tick host).disk rule.getDir = .error .notExist := by
      rw [Host.stat, if_pos hdir]
    rw [hstat]
    exact h.refl _
  · split
    · exact h.refl _
    · exact h.refl _
    · exact h.rmDir hdir ignoreErr _
    · exact h.file [] ⟨hdir, Or.inl rfl⟩ _

/-- **`remove` removes what it is meant to**, and nothing else. -/
theorem remove_evolves (ignoreErr : Bytes → Error → Bool) {rule : FileFilterRule}
    (hplace : ∀ p, rule.Dooms host p → place p) (s : State) :
    Evolves host (Event.Removing host place) s (rule.remove host ignoreErr s).2 := by
  refine Covers.remove ⟨evolves_later _ _, ?_, ?_, ?_⟩ ignoreErr s
  · exact tick_evolves fun _ hgone => hgone
  · intro q hq
    have hpath : host.locate (pathTo rule.getDir q) = host.locate rule.getDir ++ q :=
      (locate_pathTo host.pwd hq.dir q).1
    exact rmFile_evolves fun hfree => hplace _ ⟨hfree, q, hpath.symm, hq⟩
  · intro hdir hstar s
    refine occur_evolves fun p hp => ?_
    obtain ⟨hthere, ⟨q, rfl⟩, hfree⟩ := mem_removable.mp (Host.removable_subset hp)
    exact hplace _ ⟨(hfree _ hthere List.prefix_rfl).1, q, rfl, hdir, Or.inr (Or.inl hstar)⟩

end Removing

/-! ## What copying does not overlook -/

/-- A file the filter of a rule accepts, at `q` below the rule's directory. -/
structure Accepted (host : Host) (task : MoveTask) (start : Disk) (rule : FileFilterRule) (q : Path)
    (cell : FileCell) : Prop where
  mem : rule ∈ task.fileFilterRules
  dir : rule.getDir ≠ []
  file : start.lookup (host.locate rule.getDir ++ q) = some (.file cell)
  passes : task.fileFilter host rule.regex (basename (pathTo rule.getDir q)) cell = true

/-- The event leaves the file `f` where it is: it is not cleaned away, and overwritten only with
itself. -/
def Event.Spares (goal : Path → Prop) (f : Path) : Event → Prop
  | .own (.copy src dst) => dst = f → src = f ∧ goal f
  | .own _ => True
  | .cleaned gone => ∀ p, p <+: f → p ∉ gone

/-- The file has been copied to a place that is a goal. -/
def CopiedTo (goal : Path → Prop) (f : Path) (tree : Tree) : Prop :=
  ∃ dst, goal dst ∧ .own (.copy f dst) ∈ tree.events

/-- The file has been copied to a place below `base`. -/
def CopiedBelow (base f : Path) (tree : Tree) : Prop := CopiedTo (base <+: ·) f tree

/-- Until it has been copied a file is as it was, and in reach. -/
structure Intact (goal : Path → Prop) (root f : Path) (cell : FileCell) (tree : Tree) : Prop where
  reach : InReach tree.disk root f
  same : tree.disk.lookup f = some (.file cell) ∨ CopiedTo goal f tree

theorem CopiedTo.occur {goal : Path → Prop} {f : Path} {tree : Tree} (h : CopiedTo goal f tree) (e : Event) :
    CopiedTo goal f (tree.occur host e) := by
  rcases h with ⟨dst, hdst, hmem⟩
  exact ⟨dst, hdst, List.mem_append_left _ hmem⟩

theorem CopiedTo.later {goal : Path → Prop} {f : Path} {s t : State} (h : CopiedTo goal f s.toTree)
    (hst : Evolves host kind s t) : CopiedTo goal f t.toTree := by
  rcases h with ⟨dst, hdst, hmem⟩
  exact ⟨dst, hdst, hst.mem hmem⟩

/-- An event that touches neither the file nor the directories above it. -/
theorem Intact.frame {goal : Path → Prop} {root f : Path} {cell : FileCell} {tree : Tree} {e : Event}
    (h : Intact goal root f cell tree)
    (hfile : ∀ fi, tree.disk.lookup f = some (.file fi) →
      (tree.occur host e).disk.lookup f = some (.file fi))
    (hdir : ∀ p, p <+: f → tree.disk.lookup p = some (.dir true) →
      (tree.occur host e).disk.lookup p = some (.dir true)) :
    Intact goal root f cell (tree.occur host e) := by
  rcases h.reach.file with ⟨now, hnow⟩
  have hafter := hfile now hnow
  refine ⟨⟨⟨now, hafter⟩, ?_⟩, ?_⟩
  · intro p hroot hp hne
    exact hdir p hp (h.reach.dirs p hroot hp hne)
  · rcases h.same with hsame | hcopied
    · exact Or.inl (hfile cell hsame)
    · exact Or.inr (hcopied.occur e)

variable {place : Path → Prop} {goal : Path → Prop} {root f : Path} {cell : FileCell}

/-- **One step** of copying keeps a file intact that it spares. -/
theorem Intact.step {tree : Tree} {e : Event} (h : Intact goal root f cell tree)
    (he : e.Copying host place) (hspares : e.Spares goal f) :
    Intact goal root f cell (tree.occur host e) := by
  match e with
  | .own (.mkdirAll p) => exact h.frame (fun _ => lookup_mkdirs) fun _ _ => lookup_mkdirs
  | .own (.openFile p) => exact h.frame (fun _ => lookup_opened) fun _ _ => lookup_opened
  | .cleaned gone =>
    have hgone (p : Path) (hp : p <+: f) := lookup_erased (d := tree.disk) (hspares p hp)
    apply h.frame
    · intro fi hfi
      exact (hgone f List.prefix_rfl).trans hfi
    · intro p hp hdir
      exact (hgone p hp).trans hdir
  | .own (.copy src dst) =>
    by_cases hdst : dst = f
    · rcases hspares hdst with ⟨hsrc, hgoal⟩
      obtain rfl := hdst
      obtain rfl := hsrc
      rcases h.reach.file with ⟨now, hnow⟩
      rcases lookup_copied host.now hnow hnow with ⟨copied, hcopied, -⟩
      refine ⟨⟨⟨copied, hcopied⟩, ?_⟩, ?_⟩
      · intro p hroot hp hne
        exact lookup_copied_dir (h.reach.dirs p hroot hp hne)
      · exact Or.inr ⟨src, hgoal, List.mem_append_right _ (List.mem_singleton.mpr rfl)⟩
    · apply h.frame
      · intro fi hfi
        exact (lookup_copied_ne (Ne.symm hdst)).trans hfi
      · intro p _ hdir
        exact lookup_copied_dir hdir

/-- While files are copied, all that can come in a file's way is a copy onto it and
`CleanExpiredData`. -/
theorem spares_of_copying {e : Event} (he : e.Copying host place)
    (hcopy : ∀ src, e = .own (.copy src f) → src = f ∧ goal f)
    (hclean : ∀ gone, e = .cleaned gone → ∀ p, p <+: f → p ∉ gone) : e.Spares goal f := by
  cases e with
  | cleaned gone => exact hclean gone rfl
  | own op =>
    cases op with
    | copy src dst =>
      rintro rfl
      exact hcopy src rfl
    | mkdirAll p => trivial
    | openFile p => trivial
    | create p => exact he.elim
    | erase gone => exact he.elim

/-- What each step of a kind keeps that meets a condition on events, a run keeps. -/
theorem Evolves.keeps {I : Tree → Prop} {cond : Event → Prop} {s t : State}
    (hst : Evolves host kind s t) (hcond : ∀ e ∈ t.events, e.SweptBy host s.cleaner → cond e)
    (hstep : ∀ tree e, I tree → kind e → cond e → I (tree.occur host e)) (h : I s.toTree) :
    I t.toTree := by
  rcases hst with ⟨events, hkind, hrun, -⟩
  have hevents := Tree.events_of_exec hrun
  have halong : Along (Tree.step host) (fun _ e => kind e ∧ cond e) s.toTree events := by
    apply along_of_forall
    intro e he
    exact ⟨(hkind e he).1, hcond e (hevents ▸ List.mem_append_right _ he) (hkind e he).2⟩
  apply (always_of_along _ h halong).last hrun
  intro tree e tree' hI hC hnext
  obtain rfl := Option.some.inj hnext
  exact hstep tree e hI hC.1 hC.2

/-! ## What copying does -/

variable {start : Disk} {rule : FileFilterRule} {dstPath : Bytes} {q : Path}

/-- The function of the walk copies each file that passes the filter. -/
theorem copyFile_copies {regex srcPath path : Bytes} {fi : FileCell} {s t : State}
    (hpasses : task.fileFilter host regex (basename path) fi = true)
    (hgoal : ∀ dst, destination (isDir host s.disk) srcPath dstPath path = some dst →
      goal (host.locate dst))
    (h : copyFile host task regex srcPath dstPath path (some (.file fi)) none s = (none, t)) :
    CopiedTo goal (host.locate path) t.toTree := by
  simp only [copyFile, hpasses, if_true] at h
  split at h
  · nomatch h
  · rename_i dst hdst
    rcases onNil_eq_none h with ⟨u, -, h⟩
    rcases onNil_eq_none h with ⟨v, -, h⟩
    simp only [copyFrom] at h
    split at h
    · nomatch errorf_eq_none h
    · rw [call_eq_none h]
      exact ⟨host.locate dst, hgoal dst hdst,
        List.mem_append_right _ (List.mem_singleton.mpr rfl)⟩

/-- While a file is in reach, `isDir` tells the root of the walk from the file itself. -/
theorem isDir_of_inReach {d d' : Disk} {srcPath : Bytes} (hdir : srcPath ≠ [])
    (h : InReach d (host.locate srcPath) (host.locate srcPath ++ q))
    (h' : InReach d' (host.locate srcPath) (host.locate srcPath ++ q)) :
    isDir host d srcPath = isDir host d' srcPath := by
  unfold isDir Host.stat Disk.stat
  rw [if_neg hdir, if_neg hdir]
  by_cases hq : q = []
  · rcases h.file with ⟨cell, hcell⟩
    rcases h'.file with ⟨cell', hcell'⟩
    rw [hq, List.append_nil] at hcell hcell'
    rw [hcell, hcell']
  · have hne : host.locate srcPath ≠ host.locate srcPath ++ q := by
      intro heq
      exact hq (List.append_right_eq_self.mp heq.symm)
    rw [h.dirs _ List.prefix_rfl (List.prefix_append _ _) hne,
      h'.dirs _ List.prefix_rfl (List.prefix_append _ _) hne]

/-- **Accepted files are copied** by a `copyDir` that returns nil. -/
theorem copyDir_copies {s t : State} (ha : Accepted host task start rule q cell)
    (hplace : ∀ q, GoesTo host place rule.getDir dstPath (pathTo rule.getDir q))
    (hreach : InReach start (host.locate rule.getDir) (host.locate rule.getDir ++ q))
    (hgoal : ∀ isDir' dst, isDir' rule.getDir = isDir host start rule.getDir →
      destination isDir' rule.getDir dstPath (pathTo rule.getDir q) = some dst →
      goal (host.locate dst))
    (h : copyDir host task dstPath rule s = (none, t))
    (hintact : ∀ u, Evolves host (Event.Copying host place) s u →
      Evolves host (Event.Copying host place) u t →
      Intact goal (host.locate rule.getDir) (host.locate rule.getDir ++ q) cell u.toTree) :
    CopiedTo goal (host.locate rule.getDir ++ q) t.toTree := by
  have hR := evolves_later host (Event.Copying host place)
  have hs : Evolves host (Event.Copying host place) s (s.tick host) :=
    tick_evolves (fun _ hgone => hgone) s
  have hpath : host.locate (pathTo rule.getDir q) = host.locate rule.getDir ++ q :=
    (locate_pathTo host.pwd ha.dir q).1
  simp only [copyDir] at h
  split at h
  · rename_i hstat
    have ht : s.tick host = t := (Prod.mk.inj h).2
    have hthere := (hintact _ hs (ht ▸ hR.refl t)).reach.lookup_ne_none List.prefix_rfl
      (List.prefix_append _ _)
    rw [Host.stat, if_neg ha.dir] at hstat
    unfold Disk.stat at hstat
    split at hstat
    · nomatch hstat
    · rename_i hnone
      exact absurd hnone hthere
  · nomatch errorf_eq_none h
  · apply walk_reaches (copyFile_leads task rule.regex hplace) _ ha.dir h
    · intro u hu hut
      exact (hintact u (hR.trans hs hu) hut).reach
    · intro u v fi hu hut hfi hvisit
      have hI := hintact u (hR.trans hs hu) hut
      rcases hI.same with hsame | hcopied
      · obtain rfl : fi = cell := Entry.file.inj (Option.some.inj (hfi.symm.trans hsame))
        rw [← hpath]
        exact copyFile_copies ha.passes
          (fun dst => hgoal _ dst (isDir_of_inReach ha.dir hI.reach hreach)) hvisit
      · exact hcopied.later (rel_of_eq (copyFile_evolves (hplace q) _ _ _) hvisit)
    · exact fun u v huv hu => hu.later huv

/-! ## The phases of a call -/

/-- **Accepted files are copied** by a call that gets through copying. -/
theorem forEach_copies (goal : Path → Prop) {s u v : State} (ha : Accepted host task start rule q cell)
    (hplace : ∀ rule ∈ task.fileFilterRules, ∀ q,
      GoesTo host place rule.getDir dstPath (pathTo rule.getDir q))
    (hs : s.disk = start)
    (hreach : InReach start (host.locate rule.getDir) (host.locate rule.getDir ++ q))
    (hgoal : ∀ isDir' dst, isDir' rule.getDir = isDir host start rule.getDir →
      destination isDir' rule.getDir dstPath (pathTo rule.getDir q) = some dst →
      goal (host.locate dst))
    (hsu : Evolves host (Event.Copying host place) s u)
    (hcopy : forEach (copyDir host task dstPath) task.fileFilterRules u = (none, v))
    (hspares : ∀ e ∈ v.events, e.Spares goal (host.locate rule.getDir ++ q)) :
    CopiedTo goal (host.locate rule.getDir ++ q) v.toTree := by
  have hR := evolves_later host (Event.Copying host place)
  rcases forEach_eq_none hR (fun rule hrule => copyDir_evolves (hplace rule hrule)) hcopy ha.mem with
    ⟨x, y, hux, hxy, hyv⟩
  refine CopiedTo.later (copyDir_copies ha (hplace rule ha.mem) hreach hgoal hxy ?_) hyv
  intro w hxw hwy
  have hspares' : ∀ e ∈ w.events, e.Spares goal (host.locate rule.getDir ++ q) :=
    fun e he => hspares e ((hR.trans hwy hyv).mem he)
  apply (hR.trans hsu (hR.trans hux hxw)).keeps fun e he _ => hspares' e he
  · exact fun tree e hI he hC => hI.step he hC
  · exact ⟨hs ▸ hreach, Or.inl (hs ▸ ha.file)⟩

end Accumulation.Logfile
