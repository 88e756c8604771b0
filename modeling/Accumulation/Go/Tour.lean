/-
# Accumulation.Go.Tour — a walk over a tree that stays as it is.

If neither the function of a walk nor anybody else changes the tree, what the walk calls is settled
before it starts: `tour` is the list of these calls, and the walk goes through it until one of them
returns an error (`walk_tour`).  What can be in the list is said by `mem_tour`, and what must be in
it by `tour_reaches`: every file below the root, unless the list has an error in it.
-/
import Accumulation.Go.Walk

namespace Accumulation.Go

/-- One call that a walk makes. -/
inductive Visit
  | call (path : Bytes) (info : Option Entry) (e : Option Errno)
  /-- below here the model does not follow the walk -/
  | deep
  deriving DecidableEq

/-! ## The list -/

/-- The calls for the names in a directory. -/
def tourNames (d : Disk) (pwd : Path) (node : Bytes → Entry → List Visit) (path : Bytes)
    (names : List Name) : List Visit :=
  names.flatMap fun name =>
    let filename := join [path, name.bytes]
    match d.lookup (locate pwd filename) with
    | none => [.call filename none (some .notExist)]
    | some info => node filename info

def tourNode (d : Disk) (pwd : Path) : Nat → Bytes → Entry → List Visit
  | 0, _, _ => [.deep]
  | _ + 1, path, .file cell => [.call path (some (.file cell)) none]
  | depth + 1, path, .dir listable =>
    match d.readDirNames (locate pwd path) with
    | .error e => [.call path (some (.dir listable)) (some e)]
    | .ok names =>
      .call path (some (.dir listable)) none :: tourNames d pwd (tourNode d pwd depth) path names

/-- The calls of a walk. -/
def tour (d : Disk) (pwd : Path) (depth : Nat) (root : Bytes) : List Visit :=
  match d.lookup (locate pwd root) with
  | none => [.call root none (some .notExist)]
  | some info => tourNode d pwd depth root info

variable {σ ε : Type*} {view : View σ} {walkFn : WalkFunc σ ε}

/-- Make the calls until one of them returns an error. -/
def visitAll (walkFn : WalkFunc σ ε) : List Visit → σ → Option (Stop ε) × σ
  | [], s => (none, s)
  | .deep :: _, s => (some .fuel, s)
  | .call path info e :: visits, s => onNil (walkFn path info e s) (visitAll walkFn visits)

theorem visitAll_append (visits more : List Visit) (s : σ) :
    visitAll walkFn (visits ++ more) s =
      onNil (visitAll walkFn visits s) (visitAll walkFn more) := by
  induction visits generalizing s with
  | nil => rfl
  | cons v visits ih =>
    cases v with
    | deep => rfl
    | call path info e =>
      rw [List.cons_append, visitAll, visitAll]
      rcases walkFn path info e s with ⟨_ | stop, t⟩
      · exact ih t
      · rfl

theorem visitAll_one (path : Bytes) (info : Option Entry) (e : Option Errno) (s : σ) :
    visitAll walkFn [.call path info e] s = walkFn path info e s := by
  rw [visitAll]
  rcases walkFn path info e s with ⟨_ | stop, t⟩
  · rfl
  · rfl

/-! ## A walk is its tour -/

/-- Nothing changes the tree. -/
structure Still (view : View σ) (walkFn : WalkFunc σ ε) : Prop where
  quiet : ∀ s, view.meanwhile s = s
  disk : ∀ path info e s, view.disk (walkFn path info e s).2 = view.disk s

theorem visitAll_disk (h : Still view walkFn) (visits : List Visit) (s : σ) :
    view.disk (visitAll walkFn visits s).2 = view.disk s := by
  induction visits generalizing s with
  | nil => rfl
  | cons v visits ih =>
    cases v with
    | deep => rfl
    | call path info e =>
      have hstep := h.disk path info e s
      rw [visitAll]
      rcases onNil_cases (walkFn path info e s) (visitAll walkFn visits) with
        ⟨t, ht, hgo⟩ | ⟨-, hstop⟩
      · rw [ht] at hstep
        rw [hgo, ih]
        exact hstep
      · rw [hstop]
        exact hstep

theorem walkNames_tour (h : Still view walkFn) {d : Disk}
    {node : Bytes → Entry → σ → Option (Stop ε) × σ} {list : Bytes → Entry → List Visit}
    (hnode : ∀ path info s, view.disk s = d →
      node path info s = visitAll walkFn (list path info) s)
    (path : Bytes) (names : List Name) (s : σ) (hs : view.disk s = d) :
    walkNames view walkFn node path names s =
      visitAll walkFn (tourNames d view.pwd list path names) s := by
  induction names generalizing s with
  | nil => rfl
  | cons name names ih =>
    have hgo (list' : List Visit) (first : Option (Stop ε) × σ)
        (hfirst : first = visitAll walkFn list' s) :
        onNil first (walkNames view walkFn node path names) =
          visitAll walkFn (list' ++ tourNames d view.pwd list path names) s := by
      have hdisk := visitAll_disk h list' s
      rw [visitAll_append, hfirst]
      generalize visitAll walkFn list' s = r at hdisk ⊢
      rcases r with ⟨_ | stop, t⟩
      · exact ih t (hdisk.trans hs)
      · rfl
    rw [walkNames, tourNames, List.flatMap_cons]
    simp only [h.quiet s, hs]
    cases d.lookup (locate view.pwd (join [path, name.bytes])) with
    | none => exact hgo _ _ (visitAll_one _ _ _ s).symm
    | some info => exact hgo _ _ (hnode _ info s hs)

theorem walkNode_tour (h : Still view walkFn) {d : Disk} (depth : Nat) (path : Bytes)
    (info : Entry) (s : σ) (hs : view.disk s = d) :
    walkNode view walkFn depth path info s =
      visitAll walkFn (tourNode d view.pwd depth path info) s := by
  induction depth generalizing path info s with
  | zero => rfl
  | succ depth ih =>
    cases info with
    | file cell => exact (visitAll_one _ _ _ s).symm
    | dir listable =>
      rw [walkNode, tourNode]
      simp only [h.quiet s, hs]
      cases d.readDirNames (locate view.pwd path) with
      | error e => exact (visitAll_one _ _ _ s).symm
      | ok names =>
        have hdisk := h.disk path (some (.dir listable)) none s
        dsimp only
        rw [visitAll]
        generalize walkFn path (some (.dir listable)) none s = r at hdisk ⊢
        rcases r with ⟨_ | stop, t⟩
        · exact walkNames_tour h ih path names t (hdisk.trans hs)
        · rfl

/-- **A walk over a tree that stays as it is** makes the calls of its tour. -/
theorem walk_tour (h : Still view walkFn) (depth : Nat) (root : Bytes) (s : σ) :
    walk view walkFn depth root s =
      visitAll walkFn (tour (view.disk s) view.pwd depth root) s := by
  rw [walk, tour]
  simp only [h.quiet s]
  cases (view.disk s).lookup (locate view.pwd root) with
  | none => exact (visitAll_one _ _ _ s).symm
  | some info => exact walkNode_tour h depth root info s rfl

/-! ## What is on the list -/

variable {d : Disk} {pwd : Path} {root : Bytes}

/-- A call for what is at `q` below the root, with an error if it is a directory that cannot be
listed. -/
def Visit.At (d : Disk) (pwd : Path) (root : Bytes) : Visit → Prop
  | .deep => True
  | .call path info e => ∃ q entry, path = pathTo root q ∧ info = some entry ∧
      d.lookup (locate pwd root ++ q) = some entry ∧ (e ≠ none → entry = .dir false)

theorem tourNode_at (hroot : root ≠ []) (depth : Nat) (q : Path) (info : Entry)
    (hinfo : d.lookup (locate pwd root ++ q) = some info) :
    ∀ v ∈ tourNode d pwd depth (pathTo root q) info, v.At d pwd root := by
  induction depth generalizing q info with
  | zero =>
    intro v hv
    rw [List.mem_singleton.mp hv]
    trivial
  | succ depth ih =>
    have hplace := (locate_pathTo pwd hroot q).1
    cases info with
    | file cell =>
      intro v hv
      rw [List.mem_singleton.mp hv]
      exact ⟨q, _, rfl, rfl, hinfo, fun h => absurd rfl h⟩
    | dir listable =>
      intro v hv
      rw [tourNode, hplace, Disk.readDirNames, hinfo] at hv
      cases listable with
      | false =>
        rw [List.mem_singleton.mp hv]
        exact ⟨q, _, rfl, rfl, hinfo, fun _ => rfl⟩
      | true =>
        rcases List.mem_cons.mp hv with rfl | hv
        · exact ⟨q, _, rfl, rfl, hinfo, fun h => absurd rfl h⟩
        · -- the names listed are there
          rcases List.mem_flatMap.mp hv with ⟨name, hname, hv⟩
          have hthere := mem_names.mp hname
          rw [List.append_assoc] at hthere
          rcases Option.ne_none_iff_exists'.mp hthere with ⟨child, hchild⟩
          rw [← pathTo_snoc] at hv
          dsimp only at hv
          rw [(locate_pathTo pwd hroot (q ++ [name])).1, hchild] at hv
          exact ih (q ++ [name]) child hchild v hv

/-- **Every call** of a tour is for something in the tree. -/
theorem mem_tour (hroot : root ≠ []) (hthere : d.lookup (locate pwd root) ≠ none) (depth : Nat) :
    ∀ v ∈ tour d pwd depth root, v.At d pwd root := by
  rcases Option.ne_none_iff_exists'.mp hthere with ⟨info, hinfo⟩
  rw [tour, hinfo]
  exact tourNode_at hroot depth [] info (by rw [List.append_nil]; exact hinfo)

/-- The list has a call with an error in it, or comes to where the model does not follow. -/
def Broken (visits : List Visit) : Prop :=
  .deep ∈ visits ∨ ∃ path info e, Visit.call path info (some e) ∈ visits

theorem tourNode_reaches (hd : d.Closed) (hroot : root ≠ []) {f : Path} {cell : FileCell}
    (hf : d.lookup f = some (.file cell)) {q₁ q₂ : Path}
    (hsplit : locate pwd root ++ (q₁ ++ q₂) = f) (depth : Nat) {info : Entry}
    (hinfo : d.lookup (locate pwd root ++ q₁) = some info) :
    Broken (tourNode d pwd depth (pathTo root q₁) info) ∨
      (.call (pathTo root (q₁ ++ q₂)) (some (.file cell)) none ∈
          tourNode d pwd depth (pathTo root q₁) info ∧
        ∀ p, locate pwd root ++ q₁ <+: p → p <+: f → p ≠ f → d.lookup p = some (.dir true)) := by
  induction q₂ generalizing q₁ depth info with
  | nil =>
    rw [List.append_nil] at hsplit ⊢
    rw [hsplit, hf] at hinfo
    obtain rfl := Option.some.inj hinfo
    cases depth with
    | zero => exact Or.inl (Or.inl List.mem_cons_self)
    | succ depth =>
      refine Or.inr ⟨List.mem_cons_self, fun p hroot hp hne => ?_⟩
      rw [hsplit] at hroot
      exact absurd (hp.eq_of_length_le hroot.length_le) hne
  | cons n q₂ ih =>
    cases depth with
    | zero => exact Or.inl (Or.inl List.mem_cons_self)
    | succ depth =>
      -- a directory, since there is something below it
      have hbelow : locate pwd root ++ q₁ ++ (n :: q₂) = f := by rw [List.append_assoc]; exact hsplit
      rcases hd.dir_above (List.cons_ne_nil n q₂)
        (by rw [hbelow, hf]; exact Option.some_ne_none _) with ⟨listable, hdir⟩
      rw [hinfo] at hdir
      obtain rfl := Option.some.inj hdir
      rw [tourNode, (locate_pathTo pwd hroot q₁).1, Disk.readDirNames, hinfo]
      cases listable with
      | false => exact Or.inl (Or.inr ⟨_, _, _, List.mem_cons_self⟩)
      | true =>
        have hsplit' : locate pwd root ++ (q₁ ++ [n] ++ q₂) = f := by
          rw [← hsplit, List.append_assoc q₁, List.singleton_append]
        have hthere : d.lookup (locate pwd root ++ (q₁ ++ [n])) ≠ none := by
          by_cases hq₂ : q₂ = []
          · rw [hq₂, List.append_nil] at hsplit'
            rw [hsplit', hf]
            exact Option.some_ne_none _
          · rw [← List.append_assoc] at hsplit'
            rcases hd.dir_above hq₂ (by rw [hsplit', hf]; exact Option.some_ne_none _) with
              ⟨listable, hdir⟩
            rw [hdir]
            exact Option.some_ne_none _
        rcases Option.ne_none_iff_exists'.mp hthere with ⟨child, hchild⟩
        have hname : n ∈ d.names (locate pwd root ++ q₁) := by
          rw [mem_names, List.append_assoc]
          exact hthere
        have hsub : ∀ v ∈ tourNode d pwd depth (pathTo root (q₁ ++ [n])) child,
            v ∈ tourNames d pwd (tourNode d pwd depth) (pathTo root q₁)
              (d.names (locate pwd root ++ q₁)) := by
          intro v hv
          refine List.mem_flatMap.mpr ⟨n, hname, ?_⟩
          rw [← pathTo_snoc]
          dsimp only
          rw [(locate_pathTo pwd hroot (q₁ ++ [n])).1, hchild]
          exact hv
        rcases ih hsplit' depth hchild with (hdeep | ⟨path, info, e, hcall⟩) | ⟨hcall, hdirs⟩
        · exact Or.inl (Or.inl (List.mem_cons_of_mem _ (hsub _ hdeep)))
        · exact Or.inl (Or.inr ⟨path, info, e, List.mem_cons_of_mem _ (hsub _ hcall)⟩)
        · rw [List.append_assoc, List.singleton_append] at hcall
          refine Or.inr ⟨List.mem_cons_of_mem _ (hsub _ hcall), fun p hp hpf hne => ?_⟩
          by_cases heq : p = locate pwd root ++ q₁
          · rw [heq]
            exact hinfo
          · apply hdirs p _ hpf hne
            have hchild : locate pwd root ++ (q₁ ++ [n]) <+: f :=
              ⟨q₂, by rw [List.append_assoc]; exact hsplit'⟩
            apply List.prefix_of_prefix_length_le hchild hpf
            have hlonger : (locate pwd root ++ q₁).length < p.length := by
              rcases hp.length_le.lt_or_eq with hlt | hlen
              · exact hlt
              · exact absurd (hp.eq_of_length hlen).symm heq
            simp only [List.length_append, List.length_singleton] at hlonger ⊢
            omega

/-- **Every file below the root** is on the list and in reach, unless there is an error on it. -/
theorem tour_reaches (hd : d.Closed) (hroot : root ≠ []) {q : Path} {cell : FileCell}
    (hf : d.lookup (locate pwd root ++ q) = some (.file cell)) (depth : Nat) :
    Broken (tour d pwd depth root) ∨
      (.call (pathTo root q) (some (.file cell)) none ∈ tour d pwd depth root ∧
        InReach d (locate pwd root) (locate pwd root ++ q)) := by
  have hthere : d.lookup (locate pwd root) ≠ none := by
    by_cases hq : q = []
    · rw [hq, List.append_nil] at hf
      rw [hf]
      exact Option.some_ne_none _
    · rcases hd.dir_above hq (by rw [hf]; exact Option.some_ne_none _) with ⟨listable, hdir⟩
      rw [hdir]
      exact Option.some_ne_none _
  rcases Option.ne_none_iff_exists'.mp hthere with ⟨info, hinfo⟩
  rw [tour, hinfo]
  have hinfo' : d.lookup (locate pwd root ++ []) = some info := by
    rw [List.append_nil]
    exact hinfo
  rcases tourNode_reaches hd hroot hf rfl depth hinfo' with hbroken | ⟨hcall, hdirs⟩
  · exact Or.inl hbroken
  · rw [List.append_nil] at hdirs
    exact Or.inr ⟨hcall, ⟨cell, hf⟩, hdirs⟩

/-! ## What becomes of the calls -/

/-- A list gone through without an error: each of its calls has returned nil. -/
theorem visitAll_made {R : σ → σ → Prop} (hR : Later R)
    (hfn : ∀ path info e s, R s (walkFn path info e s).2) {visits : List Visit} {s t : σ}
    (h : visitAll walkFn visits s = (none, t)) :
    .deep ∉ visits ∧ R s t ∧ ∀ path info e, Visit.call path info e ∈ visits →
      ∃ u v, R s u ∧ walkFn path info e u = (none, v) ∧ R v t := by
  induction visits generalizing s with
  | nil =>
    obtain rfl := (Prod.mk.inj h).2
    exact ⟨List.not_mem_nil, hR.refl s, fun _ _ _ hv => absurd hv List.not_mem_nil⟩
  | cons v visits ih =>
    cases v with
    | deep => nomatch h
    | call path info e =>
      rcases onNil_eq_none h with ⟨u, hfirst, hrest⟩
      rcases ih hrest with ⟨hdeep, hut, hcalls⟩
      have hsu : R s u := rel_of_eq (hfn path info e s) hfirst
      refine ⟨fun hv => ?_, hR.trans hsu hut, fun path' info' e' hv => ?_⟩
      · rcases List.mem_cons.mp hv with hv | hv
        · nomatch hv
        · exact hdeep hv
      · rcases List.mem_cons.mp hv with hv | hv
        · obtain ⟨rfl, rfl, rfl⟩ := Visit.call.inj hv
          exact ⟨s, u, hR.refl s, hfirst, hut⟩
        · rcases hcalls path' info' e' hv with ⟨u', v', hu', hv', hlast⟩
          exact ⟨u', v', hR.trans hsu hu', hv', hlast⟩

/-- **The invariant rule**: what each call keeps that returns nil. -/
theorem visitAll_keeps {I : σ → Prop} {visits : List Visit}
    (hfn : ∀ path info e, Visit.call path info e ∈ visits →
      ∀ s t, I s → walkFn path info e s = (none, t) → I t)
    {s t : σ} (hs : I s) (h : visitAll walkFn visits s = (none, t)) : I t := by
  induction visits generalizing s with
  | nil =>
    obtain rfl := (Prod.mk.inj h).2
    exact hs
  | cons v visits ih =>
    cases v with
    | deep => nomatch h
    | call path info e =>
      rcases onNil_eq_none h with ⟨u, hfirst, hrest⟩
      have hu := hfn path info e List.mem_cons_self s u hs hfirst
      exact ih (fun path info e hv => hfn path info e (List.mem_cons_of_mem _ hv)) hu hrest

/-- **The rule for calls that cannot fail.** -/
theorem visitAll_no_err {I : σ → Prop} {visits : List Visit}
    (hfn : ∀ path info e, Visit.call path info e ∈ visits →
      ∀ s, I s → (∀ err, (walkFn path info e s).1 ≠ some (.err err)) ∧
        ∀ t, walkFn path info e s = (none, t) → I t)
    {s : σ} (hs : I s) (err : ε) : (visitAll walkFn visits s).1 ≠ some (.err err) := by
  induction visits generalizing s with
  | nil => exact fun h => (nomatch h)
  | cons v visits ih =>
    cases v with
    | deep => exact fun h => (nomatch h)
    | call path info e =>
      have hcall := hfn path info e List.mem_cons_self s hs
      rw [visitAll]
      rcases hr : walkFn path info e s with ⟨_ | stop, t⟩
      · exact ih (fun path info e hv => hfn path info e (List.mem_cons_of_mem _ hv))
          (hcall.2 t hr)
      · have hstop := hcall.1 err
        rw [hr] at hstop
        exact hstop

end Accumulation.Go
