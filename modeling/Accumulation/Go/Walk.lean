/-
# Accumulation.Go.Walk — `filepath.Walk` over a tree that changes.

`walk` runs over a state that holds a disk.  The tree may change during the walk, by the hands of
the function it calls and of others (`View.meanwhile`), and each directory is listed when the walk
comes to it, as in Go.  `walk_rel` says that a walk leads where its steps lead, and `walk_reaches`
that a file whose directories can be listed all along is visited by a walk that returns `nil`.
-/
import Accumulation.Go.Disk

namespace Accumulation.Go

/-- How a function of the model ends when it does not return a nil error. -/
inductive Stop (ε : Type*)
  | err (e : ε)
  | panic
  /-- a walk has come deeper than the model follows it -/
  | fuel
  deriving DecidableEq, Repr

variable {σ ε : Type*}

/-- Go on if the error was nil. -/
def onNil (r : Option (Stop ε) × σ) (next : σ → Option (Stop ε) × σ) : Option (Stop ε) × σ :=
  match r with
  | (none, s) => next s
  | (some stop, s) => (some stop, s)

/-- What a walk sees of the state, and what becomes of the state while it does not look. -/
structure View (σ : Type*) where
  pwd : Path
  disk : σ → Disk
  meanwhile : σ → σ

/-- The function `Walk` calls with a path, what `Lstat` found there, and the error that kept `Walk`
from it.  None of those modelled here returns `SkipDir`. -/
abbrev WalkFunc (σ ε : Type*) := Bytes → Option Entry → Option Errno → σ → Option (Stop ε) × σ

/-- The loop of `walk` over the names in a directory. -/
def walkNames (view : View σ) (walkFn : WalkFunc σ ε)
    (walkNode : Bytes → Entry → σ → Option (Stop ε) × σ) (path : Bytes) :
    List Name → σ → Option (Stop ε) × σ
  | [], s => (none, s)
  | name :: names, s =>
    let filename := join [path, name.bytes]
    let s := view.meanwhile s
    onNil
      (match (view.disk s).lookup (locate view.pwd filename) with
      | none => walkFn filename none (some .notExist) s
      | some info => walkNode filename info s)
      (walkNames view walkFn walkNode path names)

/-- `walk`, at most `depth` levels deep. -/
def walkNode (view : View σ) (walkFn : WalkFunc σ ε) : Nat → Bytes → Entry → σ →
    Option (Stop ε) × σ
  | 0, _, _, s => (some .fuel, s)
  | _ + 1, path, .file cell, s => walkFn path (some (.file cell)) none s
  | depth + 1, path, .dir listable, s =>
    let s := view.meanwhile s
    match (view.disk s).readDirNames (locate view.pwd path) with
    | .error e => walkFn path (some (.dir listable)) (some e) s
    | .ok names =>
      onNil (walkFn path (some (.dir listable)) none s)
        (walkNames view walkFn (walkNode view walkFn depth) path names)

/-- `filepath.Walk` -/
def walk (view : View σ) (walkFn : WalkFunc σ ε) (depth : Nat) (root : Bytes) (s : σ) :
    Option (Stop ε) × σ :=
  let s := view.meanwhile s
  match (view.disk s).lookup (locate view.pwd root) with
  | none => walkFn root none (some .notExist) s
  | some info => walkNode view walkFn depth root info s

/-! ## What a walk keeps -/

variable {view : View σ} {walkFn : WalkFunc σ ε}

/-- The string a walk from `root` has for the place `q` below it. -/
def pathTo (root : Bytes) (q : Path) : Bytes := q.foldl (fun path n => join [path, n.bytes]) root

theorem pathTo_snoc (root : Bytes) (q : Path) (n : Name) :
    pathTo root (q ++ [n]) = join [pathTo root q, n.bytes] := by
  rw [pathTo, List.foldl_append]
  rfl

/-- **The string leads to the place.** -/
theorem locate_pathTo (pwd : Path) {root : Bytes} (hroot : root ≠ []) (q : Path) :
    locate pwd (pathTo root q) = locate pwd root ++ q ∧ pathTo root q ≠ [] := by
  induction q using List.reverseRecOn with
  | nil => exact ⟨(List.append_nil _).symm, hroot⟩
  | append_singleton q n ih =>
    have hjoin := locate_join_name pwd ih.2 n
    rw [pathTo_snoc, hjoin.1, ih.1, List.append_assoc]
    exact ⟨rfl, hjoin.2⟩

theorem pathTo_render (p q : Path) : pathTo (render p) q = render (p ++ q) := by
  induction q using List.reverseRecOn with
  | nil => rw [List.append_nil]; rfl
  | append_singleton q n ih =>
    rw [pathTo_snoc, ih, join_render (q := [n]) (named_name n), List.append_assoc]

/-- A relation from a state to the later ones. -/
structure Later (R : σ → σ → Prop) : Prop where
  refl : ∀ s, R s s
  trans : ∀ {s t u}, R s t → R t u → R s u

/-- It covers what happens during a walk from `root`. -/
structure Leads (view : View σ) (walkFn : WalkFunc σ ε) (root : Bytes) (R : σ → σ → Prop) : Prop
    extends Later R where
  meanwhile : ∀ s, R s (view.meanwhile s)
  fn : ∀ q info e s,
    (∀ cell, info = some (.file cell) →
      (view.disk s).lookup (locate view.pwd (pathTo root q)) = some (.file cell)) →
    R s (walkFn (pathTo root q) info e s).2

theorem onNil_eq_none {r : Option (Stop ε) × σ} {next : σ → Option (Stop ε) × σ} {u : σ}
    (h : onNil r next = (none, u)) : ∃ t, r = (none, t) ∧ next t = (none, u) := by
  rcases r with ⟨_ | stop, t⟩
  · exact ⟨t, rfl, h⟩
  · nomatch h

theorem onNil_cases (r : Option (Stop ε) × σ) (next : σ → Option (Stop ε) × σ) :
    (∃ t, r = (none, t) ∧ onNil r next = next t) ∨ r.1 ≠ none ∧ onNil r next = r := by
  rcases r with ⟨_ | stop, t⟩
  · exact Or.inl ⟨t, rfl, rfl⟩
  · exact Or.inr ⟨Option.some_ne_none stop, rfl⟩

variable {root : Bytes} {R : σ → σ → Prop}

theorem rel_of_eq {r : Option (Stop ε) × σ} {o : Option (Stop ε)} {s t : σ} (hr : R s r.2)
    (heq : r = (o, t)) : R s t := by
  rw [heq] at hr
  exact hr

theorem onNil_rel (hR : Later R) {r : Option (Stop ε) × σ}
    {next : σ → Option (Stop ε) × σ} {s : σ}
    (hr : R s r.2) (hnext : ∀ t, R t (next t).2) : R s (onNil r next).2 := by
  rcases r with ⟨_ | stop, t⟩
  · exact hR.trans hr (hnext t)
  · exact hr

theorem Leads.fn_none (hR : Leads view walkFn root R) (q : Path) (e : Option Errno) (s : σ) :
    R s (walkFn (pathTo root q) none e s).2 :=
  hR.fn q none e s fun _ h => (nomatch h)

theorem Leads.fn_dir (hR : Leads view walkFn root R) (q : Path) (listable : Bool)
    (e : Option Errno) (s : σ) : R s (walkFn (pathTo root q) (some (.dir listable)) e s).2 :=
  hR.fn q (some (.dir listable)) e s fun _ h => (nomatch h)

/-- What holds of a walk into each place below `root`. -/
def NodeLeads (view : View σ) (root : Bytes) (R : σ → σ → Prop)
    (node : Bytes → Entry → σ → Option (Stop ε) × σ) : Prop :=
  ∀ q info s, (view.disk s).lookup (locate view.pwd (pathTo root q)) = some info →
    R s (node (pathTo root q) info s).2

theorem walkNames_rel (hR : Leads view walkFn root R)
    {node : Bytes → Entry → σ → Option (Stop ε) × σ} (hnode : NodeLeads view root R node)
    (q : Path) (names : List Name) (s : σ) :
    R s (walkNames view walkFn node (pathTo root q) names s).2 := by
  induction names generalizing s with
  | nil => exact hR.refl s
  | cons name names ih =>
    apply onNil_rel hR.toLater _ ih
    apply hR.trans (hR.meanwhile s)
    rw [← pathTo_snoc]
    split
    · exact hR.fn_none _ _ _
    · rename_i info hinfo
      exact hnode _ info _ hinfo

theorem walkNode_rel (hR : Leads view walkFn root R) (depth : Nat) :
    NodeLeads view root R (walkNode view walkFn depth) := by
  induction depth with
  | zero => exact fun _ _ s _ => hR.refl s
  | succ depth ih =>
    intro q info s hinfo
    cases info with
    | file cell =>
      apply hR.fn
      intro cell' hcell'
      rw [hinfo, Option.some.inj hcell']
    | dir listable =>
      apply hR.trans (hR.meanwhile s)
      rw [walkNode]
      split
      · exact hR.fn_dir _ _ _ _
      · exact onNil_rel hR.toLater (hR.fn_dir _ _ _ _) (walkNames_rel hR ih q _)

/-- **A walk leads to a later state** if the function it calls and the others do. -/
theorem walk_rel (hR : Leads view walkFn root R) (depth : Nat) (s : σ) :
    R s (walk view walkFn depth root s).2 := by
  apply hR.trans (hR.meanwhile s)
  simp only [walk]
  split
  · exact hR.fn_none [] _ _
  · rename_i info hinfo
    exact walkNode_rel hR depth [] info _ hinfo

/-! ## Walks that do not fail -/

theorem walkNames_no_err (hfn : ∀ path info e s err, (walkFn path info e s).1 ≠ some (.err err))
    {node : Bytes → Entry → σ → Option (Stop ε) × σ}
    (hnode : ∀ path info s err, (node path info s).1 ≠ some (.err err))
    (path : Bytes) (names : List Name) (s : σ) (err : ε) :
    (walkNames view walkFn node path names s).1 ≠ some (.err err) := by
  induction names generalizing s with
  | nil => exact fun h => (nomatch h)
  | cons name names ih =>
    have hgo (r : Option (Stop ε) × σ) (hr : ∀ err, r.1 ≠ some (.err err)) :
        (onNil r (walkNames view walkFn node path names)).1 ≠ some (.err err) := by
      rcases onNil_cases r (walkNames view walkFn node path names) with ⟨t, -, hgo⟩ | ⟨-, hstop⟩
      · rw [hgo]
        exact ih t
      · rw [hstop]
        exact hr err
    rw [walkNames]
    apply hgo
    split
    · exact hfn _ _ _ _
    · exact hnode _ _ _

/-- **A walk returns no error** that its function does not return. -/
theorem walk_no_err (hfn : ∀ path info e s err, (walkFn path info e s).1 ≠ some (.err err))
    (depth : Nat) (root : Bytes) (s : σ) (err : ε) :
    (walk view walkFn depth root s).1 ≠ some (.err err) := by
  have hnode (depth : Nat) : ∀ path info s err,
      (walkNode view walkFn depth path info s).1 ≠ some (.err err) := by
    induction depth with
    | zero => exact fun _ _ _ _ h => (nomatch h)
    | succ depth ih =>
      intro path info s err
      cases info with
      | file cell => exact hfn _ _ _ _ err
      | dir listable =>
        rw [walkNode]
        split
        · exact hfn _ _ _ _ err
        · rcases onNil_cases (walkFn path (some (.dir listable)) none (view.meanwhile s))
            (walkNames view walkFn (walkNode view walkFn depth) path _) with ⟨t, -, hgo⟩ | ⟨-, hstop⟩
          · rw [hgo]
            exact walkNames_no_err hfn ih path _ t err
          · rw [hstop]
            exact hfn _ _ _ _ err
  rw [walk]
  split
  · exact hfn _ _ _ _ err
  · exact hnode depth _ _ _ err

/-! ## What a walk visits -/

/-- The file `f` is there, and the directories from `root` down to it can be listed. -/
structure InReach (d : Disk) (root f : Path) : Prop where
  file : ∃ cell, d.lookup f = some (.file cell)
  dirs : ∀ p, root <+: p → p <+: f → p ≠ f → d.lookup p = some (.dir true)

/-- In reach means present, with everything on the way. -/
theorem InReach.lookup_ne_none {d : Disk} {root f p : Path} (h : InReach d root f)
    (hroot : root <+: p) (hp : p <+: f) : d.lookup p ≠ none := by
  by_cases hpf : p = f
  · rcases h.file with ⟨cell, hcell⟩
    rw [hpf, hcell]
    exact Option.some_ne_none _
  · rw [h.dirs p hroot hp hpf]
    exact Option.some_ne_none _

variable {Done : σ → Prop}

theorem walkNames_reaches (hR : Leads view walkFn root R)
    {node : Bytes → Entry → σ → Option (Stop ε) × σ} (hnode : NodeLeads view root R node)
    (hdone : ∀ s t, R s t → Done s → Done t) {q : Path} {name : Name} {names : List Name}
    (hname : name ∈ names) {s t : σ}
    (hret : walkNames view walkFn node (pathTo root q) names s = (none, t))
    (hthere : ∀ u, R s u → R u t →
      (view.disk u).lookup (locate view.pwd (pathTo root (q ++ [name]))) ≠ none)
    (hvisit : ∀ u v info, R s u → R u t → R v t →
      (view.disk u).lookup (locate view.pwd (pathTo root (q ++ [name]))) = some info →
      node (pathTo root (q ++ [name])) info u = (none, v) → Done v) : Done t := by
  induction names generalizing s with
  | nil => nomatch hname
  | cons name' names ih =>
    rw [walkNames, ← pathTo_snoc] at hret
    rcases onNil_eq_none hret with ⟨v, hfirst, hrest⟩
    have hvt : R v t := rel_of_eq (walkNames_rel hR hnode q names v) hrest
    have hsu := hR.meanwhile s
    have huv : R (view.meanwhile s) v := by
      apply rel_of_eq _ hfirst
      split
      · exact hR.fn_none _ _ _
      · rename_i info hinfo
        exact hnode _ info _ hinfo
    rcases List.mem_cons.mp hname with rfl | hname
    · apply hdone v t hvt
      split at hfirst
      · rename_i hnone
        exact absurd hnone (hthere _ hsu (hR.trans huv hvt))
      · rename_i info hinfo
        exact hvisit _ _ info hsu (hR.trans huv hvt) hvt hinfo hfirst
    · have hsv := hR.trans hsu huv
      exact ih hname hrest (fun u hvu => hthere u (hR.trans hsv hvu))
        fun u v' info hvu => hvisit u v' info (hR.trans hsv hvu)

theorem walkNode_reaches (hR : Leads view walkFn root R) (hdone : ∀ s t, R s t → Done s → Done t)
    (hroot : root ≠ []) {q₁ q₂ f : Path} (hf : locate view.pwd root ++ (q₁ ++ q₂) = f)
    {depth : Nat} {info : Entry} {s t : σ}
    (hinfo : (view.disk s).lookup (locate view.pwd (pathTo root q₁)) = some info)
    (hret : walkNode view walkFn depth (pathTo root q₁) info s = (none, t))
    (hreach : ∀ u, R s u → R u t → InReach (view.disk u) (locate view.pwd root) f)
    (hvisit : ∀ u v cell, R s u → R u t → (view.disk u).lookup f = some (.file cell) →
      walkFn (pathTo root (q₁ ++ q₂)) (some (.file cell)) none u = (none, v) → Done v) :
    Done t := by
  induction q₂ generalizing q₁ depth info s t with
  | nil =>
    rw [List.append_nil] at hf hvisit
    have hst : R s t := rel_of_eq (walkNode_rel hR depth q₁ info s hinfo) hret
    rcases (hreach s (hR.refl s) hst).file with ⟨cell, hcell⟩
    rw [(locate_pathTo view.pwd hroot q₁).1, hf] at hinfo
    obtain rfl : info = .file cell := Option.some.inj (hinfo.symm.trans hcell)
    cases depth with
    | zero => nomatch hret
    | succ depth => exact hvisit s t cell (hR.refl s) hst hcell hret
  | cons n q₂ ih =>
    have hst : R s t := rel_of_eq (walkNode_rel hR depth q₁ info s hinfo) hret
    have hplace (q : Path) := (locate_pathTo view.pwd hroot q).1
    have hq : q₁ ++ n :: q₂ = q₁ ++ [n] ++ q₂ := List.append_cons q₁ n q₂
    have hpf : locate view.pwd (pathTo root q₁) <+: f := by
      rw [hplace, ← hf, ← List.append_assoc]
      exact List.prefix_append _ _
    have hchild : locate view.pwd (pathTo root (q₁ ++ [n])) <+: f := by
      rw [hplace, ← hf]
      exact ⟨q₂, by simp only [List.append_assoc, List.singleton_append]⟩
    have hbelow (q : Path) : locate view.pwd root <+: locate view.pwd (pathTo root q) := by
      rw [hplace]
      exact List.prefix_append _ _
    have hne : locate view.pwd (pathTo root q₁) ≠ f := by
      intro heq
      have hlength := congrArg List.length (heq.trans hf.symm)
      rw [hplace] at hlength
      simp at hlength
    obtain rfl : info = .dir true :=
      Option.some.inj (hinfo.symm.trans ((hreach s (hR.refl s) hst).dirs _ (hbelow q₁) hpf hne))
    cases depth with
    | zero => nomatch hret
    | succ depth =>
      have hs := hR.meanwhile s
      have hnames : R (view.meanwhile s) t →
          (view.disk (view.meanwhile s)).readDirNames (locate view.pwd (pathTo root q₁)) =
            .ok ((view.disk (view.meanwhile s)).names (locate view.pwd (pathTo root q₁))) := by
        intro ht
        unfold Disk.readDirNames
        rw [(hreach _ hs ht).dirs _ (hbelow q₁) hpf hne]
      have hmem : R (view.meanwhile s) t →
          n ∈ (view.disk (view.meanwhile s)).names (locate view.pwd (pathTo root q₁)) := by
        intro ht
        have hthere := (hreach _ hs ht).lookup_ne_none (hbelow (q₁ ++ [n])) hchild
        rw [hplace, ← List.append_assoc] at hthere
        rw [mem_names, hplace]
        exact hthere
      simp only [walkNode] at hret
      split at hret
      · rename_i e he
        have ht : R (view.meanwhile s) t := rel_of_eq (hR.fn_dir _ _ _ _) hret
        rw [hnames ht] at he
        nomatch he
      · rename_i names hok
        rcases onNil_eq_none hret with ⟨v, hfirst, hrest⟩
        have hv : R (view.meanwhile s) v := rel_of_eq (hR.fn_dir _ _ _ _) hfirst
        have hvt : R v t :=
          rel_of_eq (walkNames_rel hR (walkNode_rel hR depth) q₁ names v) hrest
        have ht := hR.trans hv hvt
        have hsv := hR.trans hs hv
        rw [hnames ht, Except.ok.injEq] at hok
        apply walkNames_reaches hR (walkNode_rel hR depth) hdone (hok ▸ hmem ht) hrest
        · intro u hvu hut
          exact (hreach u (hR.trans hsv hvu) hut).lookup_ne_none (hbelow _) hchild
        · intro u w info hvu hut hwt hinfo' hnode
          have hsu := hR.trans hsv hvu
          rw [hq] at hf hvisit
          exact ih hf hinfo' hnode
            (fun x hux hxw => hreach x (hR.trans hsu hux) (hR.trans hxw hwt))
            fun x y cell hux hxw => hvisit x y cell (hR.trans hsu hux) (hR.trans hxw hwt)

/-- **A file in reach is visited**: where a walk returns nil and a file stays in reach of its root
all along, the walk has called its function on the file. -/
theorem walk_reaches (hR : Leads view walkFn root R) (hdone : ∀ s t, R s t → Done s → Done t)
    (hroot : root ≠ []) {q : Path} {depth : Nat} {s t : σ}
    (hret : walk view walkFn depth root s = (none, t))
    (hreach : ∀ u, R s u → R u t →
      InReach (view.disk u) (locate view.pwd root) (locate view.pwd root ++ q))
    (hvisit : ∀ u v cell, R s u → R u t →
      (view.disk u).lookup (locate view.pwd root ++ q) = some (.file cell) →
      walkFn (pathTo root q) (some (.file cell)) none u = (none, v) → Done v) : Done t := by
  have hs := hR.meanwhile s
  simp only [walk] at hret
  split at hret
  · rename_i hnone
    have ht : R (view.meanwhile s) t := rel_of_eq (hR.fn_none [] _ _) hret
    exact absurd hnone
      ((hreach _ hs ht).lookup_ne_none List.prefix_rfl (List.prefix_append _ _))
  · rename_i info hinfo
    have hf : locate view.pwd root ++ ([] ++ q) = locate view.pwd root ++ q := rfl
    exact walkNode_reaches hR hdone hroot hf hinfo hret
      (fun u hu hut => hreach u (hR.trans hs hu) hut)
      fun u v cell hu hut => hvisit u v cell (hR.trans hs hu) hut

/-! ## What a walk that returns nil keeps -/

/-- Each call that returns nil keeps `I`, at the places that listings lead to. -/
structure Keeps (view : View σ) (walkFn : WalkFunc σ ε) (root : Bytes) (Ok : Path → Prop)
    (I : σ → Prop) : Prop where
  meanwhile : ∀ s, I s → I (view.meanwhile s)
  fn : ∀ q info e s t, Ok q → I s → walkFn (pathTo root q) info e s = (none, t) → I t
  down : ∀ q n names s, Ok q → I s →
    (view.disk s).readDirNames (locate view.pwd (pathTo root q)) = .ok names → n ∈ names →
    Ok (q ++ [n])

variable {Ok : Path → Prop} {I : σ → Prop}

theorem walkNames_keeps (hI : Keeps view walkFn root Ok I)
    {node : Bytes → Entry → σ → Option (Stop ε) × σ}
    (hnode : ∀ q info s t, Ok q → I s → node (pathTo root q) info s = (none, t) → I t) {q : Path}
    {names : List Name} (hnames : ∀ n ∈ names, Ok (q ++ [n])) {s t : σ} (hs : I s)
    (hret : walkNames view walkFn node (pathTo root q) names s = (none, t)) : I t := by
  induction names generalizing s with
  | nil =>
    obtain rfl : s = t := (Prod.mk.inj hret).2
    exact hs
  | cons name names ih =>
    rw [walkNames, ← pathTo_snoc] at hret
    obtain ⟨u, hfirst, hrest⟩ := onNil_eq_none hret
    have hok := hnames name List.mem_cons_self
    have hs' := hI.meanwhile s hs
    refine ih (fun n hn => hnames n (List.mem_cons_of_mem name hn)) ?_ hrest
    split at hfirst
    · exact hI.fn _ _ _ _ _ hok hs' hfirst
    · exact hnode _ _ _ _ hok hs' hfirst

theorem walkNode_keeps (hI : Keeps view walkFn root Ok I) (depth : Nat) :
    ∀ q info s t, Ok q → I s → walkNode view walkFn depth (pathTo root q) info s = (none, t) →
      I t := by
  induction depth with
  | zero => exact fun _ _ _ _ _ _ hret => (nomatch hret)
  | succ depth ih =>
    intro q info s t hok hs hret
    cases info with
    | file cell => exact hI.fn _ _ _ _ _ hok hs hret
    | dir listable =>
      have hs' := hI.meanwhile s hs
      simp only [walkNode] at hret
      split at hret
      · exact hI.fn _ _ _ _ _ hok hs' hret
      · rename_i names hlisted
        obtain ⟨u, hfirst, hrest⟩ := onNil_eq_none hret
        exact walkNames_keeps hI ih (fun n hn => hI.down q n names _ hok hs' hlisted hn)
          (hI.fn _ _ _ _ _ hok hs' hfirst) hrest

/-- **A walk that returns nil keeps** what its calls keep. -/
theorem walk_keeps (hI : Keeps view walkFn root Ok I) (hroot : Ok []) {depth : Nat} {s t : σ}
    (hs : I s) (hret : walk view walkFn depth root s = (none, t)) : I t := by
  have hs' := hI.meanwhile s hs
  simp only [walk] at hret
  split at hret
  · exact hI.fn [] _ _ _ _ hroot hs' hret
  · exact walkNode_keeps hI depth [] _ _ _ hroot hs' hret

/-! ## Walks side by side -/

variable {τ : Type*}

/-- The same return, and states that `S` relates. -/
def Alike (S : σ → τ → Prop) (r : Option (Stop ε) × σ) (r' : Option (Stop ε) × τ) : Prop :=
  r.1 = r'.1 ∧ S r.2 r'.2

/-- The two views show the same tree, and the two functions do the same to it. -/
structure Mirrors (view : View σ) (walkFn : WalkFunc σ ε) (view' : View τ) (walkFn' : WalkFunc τ ε)
    (S : σ → τ → Prop) : Prop where
  pwd : view.pwd = view'.pwd
  disk : ∀ s t, S s t → view.disk s = view'.disk t
  meanwhile : ∀ s t, S s t → S (view.meanwhile s) (view'.meanwhile t)
  fn : ∀ path info e s t, S s t → Alike S (walkFn path info e s) (walkFn' path info e t)

variable {view' : View τ} {walkFn' : WalkFunc τ ε} {S : σ → τ → Prop}

theorem onNil_alike {r : Option (Stop ε) × σ} {r' : Option (Stop ε) × τ}
    {next : σ → Option (Stop ε) × σ} {next' : τ → Option (Stop ε) × τ} (hr : Alike S r r')
    (hnext : ∀ s t, S s t → Alike S (next s) (next' t)) :
    Alike S (onNil r next) (onNil r' next') := by
  rcases r with ⟨o, s⟩
  rcases r' with ⟨o', t⟩
  obtain ⟨rfl, hst⟩ : o = o' ∧ S s t := hr
  cases o with
  | none => exact hnext s t hst
  | some stop => exact ⟨rfl, hst⟩

theorem walkNames_alike (hS : Mirrors view walkFn view' walkFn' S)
    {node : Bytes → Entry → σ → Option (Stop ε) × σ}
    {node' : Bytes → Entry → τ → Option (Stop ε) × τ}
    (hnode : ∀ path info s t, S s t → Alike S (node path info s) (node' path info t))
    (path : Bytes) (names : List Name) {s : σ} {t : τ} (hst : S s t) :
    Alike S (walkNames view walkFn node path names s)
      (walkNames view' walkFn' node' path names t) := by
  induction names generalizing s t with
  | nil => exact ⟨rfl, hst⟩
  | cons name names ih =>
    have hst' := hS.meanwhile s t hst
    simp only [walkNames]
    refine onNil_alike ?_ fun u v huv => ih huv
    rw [hS.disk _ _ hst', hS.pwd]
    cases (view'.disk (view'.meanwhile t)).lookup (locate view'.pwd (join [path, name.bytes])) with
    | none => exact hS.fn _ _ _ _ _ hst'
    | some info => exact hnode _ _ _ _ hst'

theorem walkNode_alike (hS : Mirrors view walkFn view' walkFn' S) (depth : Nat) :
    ∀ path info s t, S s t → Alike S (walkNode view walkFn depth path info s)
      (walkNode view' walkFn' depth path info t) := by
  induction depth with
  | zero => exact fun _ _ _ _ hst => ⟨rfl, hst⟩
  | succ depth ih =>
    intro path info s t hst
    cases info with
    | file cell => exact hS.fn _ _ _ _ _ hst
    | dir listable =>
      have hst' := hS.meanwhile s t hst
      simp only [walkNode]
      rw [hS.disk _ _ hst', hS.pwd]
      cases (view'.disk (view'.meanwhile t)).readDirNames (locate view'.pwd path) with
      | error e => exact hS.fn _ _ _ _ _ hst'
      | ok names =>
        exact onNil_alike (hS.fn _ _ _ _ _ hst') fun u v huv =>
          walkNames_alike hS ih path names huv

/-- **Two walks with mirrored functions** return the same. -/
theorem walk_alike (hS : Mirrors view walkFn view' walkFn' S) (depth : Nat) (root : Bytes) {s : σ}
    {t : τ} (hst : S s t) : Alike S (walk view walkFn depth root s)
      (walk view' walkFn' depth root t) := by
  have hst' := hS.meanwhile s t hst
  simp only [walk]
  rw [hS.disk _ _ hst', hS.pwd]
  cases (view'.disk (view'.meanwhile t)).lookup (locate view'.pwd root) with
  | none => exact hS.fn _ _ _ _ _ hst'
  | some info => exact walkNode_alike hS depth _ _ _ _ hst'

end Accumulation.Go
