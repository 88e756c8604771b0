/-
# Accumulation.Go.Path — file paths as strings and as lists of names.

Go's `path/filepath` works on strings, and so do the places of the source that cut and join paths.
The functions here are its lexical ones on Linux, on byte strings, because lengths count bytes.  A
`Path` is the list of names a string leads to from the root (`locate`); on rooted strings `clean` is
the string of that path, and the lemmas compute the other functions on the strings of paths.
-/
import Mathlib

namespace Accumulation.Go

/-- A Go string. -/
abbrev Bytes := List UInt8

def slash : UInt8 := 47

def dot : UInt8 := 46

/-! ## Strings -/

/-- The elements of a path string between its separators. -/
def elements : Bytes → List Bytes
  | [] => [[]]
  | c :: cs =>
    if c = slash then [] :: elements cs
    else match elements cs with
      | [] => [[c]]
      | e :: es => (c :: e) :: es

/-- `Clean` on one element, with the elements kept before it, last one first: `.` goes, `..` takes
the one before it along. -/
def push (rooted : Bool) (stack : List Bytes) (e : Bytes) : List Bytes :=
  if e = [] ∨ e = [dot] then stack
  else if e = [dot, dot] then
    match stack with
    | [] => if rooted then [] else [e]
    | top :: rest => if top = [dot, dot] then e :: top :: rest else rest
  else e :: stack

/-- `filepath.Clean` -/
def clean (path : Bytes) : Bytes :=
  let rooted := path.head? == some slash
  let out := (if rooted then [slash] else []) ++
    [slash].intercalate ((elements path).foldl (push rooted) []).reverse
  if out = [] then [dot] else out

/-- `filepath.Dir` -/
def dir (path : Bytes) : Bytes := clean (path.rdropWhile (· ≠ slash))

/-- The `Name()` of what is found at a path. -/
def basename (path : Bytes) : Bytes :=
  let trimmed := path.rdropWhile (· = slash)
  if trimmed = [] then path.take 1 else trimmed.rtakeWhile (· ≠ slash)

/-- `filepath.Join` -/
def join (elem : List Bytes) : Bytes :=
  match elem.dropWhile (· = []) with
  | [] => []
  | rest => clean ([slash].intercalate rest)

/-- `strings.TrimPrefix` -/
def trimPrefix (s p : Bytes) : Bytes := if p.isPrefixOf s then s.drop p.length else s

/-! ## Paths -/

/-- The name of a directory entry. -/
structure Name where
  bytes : Bytes
  ne_nil : bytes ≠ []
  no_slash : slash ∉ bytes
  ne_dot : bytes ≠ [dot]
  ne_dots : bytes ≠ [dot, dot]
  deriving DecidableEq

/-- An absolute clean path. -/
abbrev Path := List Name

/-- Each name behind a separator. -/
def steps (p : Path) : Bytes := p.flatMap fun n => slash :: n.bytes

/-- The string of a path. -/
def render (p : Path) : Bytes := if p = [] then [slash] else steps p

def toName (bytes : Bytes) : Option Name :=
  if h : bytes ≠ [] ∧ slash ∉ bytes ∧ bytes ≠ [dot] ∧ bytes ≠ [dot, dot] then
    some ⟨bytes, h.1, h.2.1, h.2.2.1, h.2.2.2⟩
  else none

/-- The elements that are not empty. -/
def named (path : Bytes) : List Bytes := (elements path).filter (· ≠ [])

/-- One element further. -/
def enter (p : Path) (e : Bytes) : Path :=
  if e = [dot, dot] then p.dropLast
  else match toName e with
    | some n => p ++ [n]
    | none => p

/-- The path a string leads to. -/
def locate (pwd : Path) (path : Bytes) : Path :=
  (elements path).foldl enter (if path.head? = some slash then [] else pwd)

/-! ## The names in a string -/

theorem steps_append (p q : Path) : steps (p ++ q) = steps p ++ steps q := List.flatMap_append

theorem elements_ne_nil (s : Bytes) : elements s ≠ [] := by
  cases s with
  | nil => exact List.cons_ne_nil _ _
  | cons c cs =>
    unfold elements
    split
    · exact List.cons_ne_nil _ _
    · split <;> exact List.cons_ne_nil _ _

/-- A separator separates. -/
theorem elements_append_slash (a b : Bytes) :
    elements (a ++ slash :: b) = elements a ++ elements b := by
  induction a with
  | nil =>
    show elements (slash :: b) = [] :: elements b
    conv_lhs => rw [elements, if_pos rfl]
  | cons c a ih =>
    rw [List.cons_append, elements, elements, ih]
    by_cases hc : c = slash
    · rw [if_pos hc, if_pos hc, List.cons_append]
    · rw [if_neg hc, if_neg hc]
      cases h : elements a with
      | nil => exact absurd h (elements_ne_nil a)
      | cons e es => rfl

theorem elements_of_no_slash {s : Bytes} (h : slash ∉ s) : elements s = [s] := by
  induction s with
  | nil => rfl
  | cons c s ih =>
    rw [List.mem_cons, not_or] at h
    rw [elements, if_neg (fun hc => h.1 hc.symm), ih h.2]

theorem no_slash_of_mem_elements {s e : Bytes} (he : e ∈ elements s) : slash ∉ e := by
  induction s generalizing e with
  | nil =>
    rw [List.mem_singleton.mp he]
    exact List.not_mem_nil
  | cons c s ih =>
    rw [elements] at he
    split at he
    · rcases List.mem_cons.mp he with rfl | he
      · exact List.not_mem_nil
      · exact ih he
    · rename_i hc
      split at he
      · rename_i hnil
        exact absurd hnil (elements_ne_nil s)
      · rename_i e₁ es hes
        rcases List.mem_cons.mp he with rfl | he
        · rw [List.mem_cons, not_or]
          exact ⟨fun h => hc h.symm, ih (hes ▸ List.mem_cons_self)⟩
        · exact ih (hes ▸ List.mem_cons_of_mem e₁ he)

theorem named_append_slash (a b : Bytes) : named (a ++ slash :: b) = named a ++ named b := by
  rw [named, elements_append_slash, List.filter_append]
  rfl

@[simp]
theorem named_nil : named [] = [] := rfl

theorem named_slash (b : Bytes) : named (slash :: b) = named b := named_append_slash [] b

theorem named_name (n : Name) : named n.bytes = [n.bytes] := by
  rw [named, elements_of_no_slash n.no_slash]
  simp [n.ne_nil]

theorem elements_steps (p : Path) : elements (steps p) = [] :: p.map Name.bytes := by
  induction p with
  | nil => rfl
  | cons n p ih =>
    have hcons : steps (n :: p) = [] ++ slash :: (n.bytes ++ steps p) := rfl
    rw [hcons, elements_append_slash]
    cases p with
    | nil =>
      rw [show steps [] = [] from rfl, List.append_nil, elements_of_no_slash n.no_slash]
      rfl
    | cons m p =>
      have hcons' : steps (m :: p) = slash :: (m.bytes ++ steps p) := rfl
      rw [hcons', elements_append_slash, elements_of_no_slash n.no_slash]
      rw [hcons', ← List.nil_append (slash :: _), elements_append_slash] at ih
      have hrest : elements (m.bytes ++ steps p) = (m :: p).map Name.bytes :=
        (List.cons.inj (show [] :: elements (m.bytes ++ steps p) = _ from ih)).2
      rw [hrest]
      rfl

theorem named_steps (p : Path) : named (steps p) = p.map Name.bytes := by
  rw [named, elements_steps, List.filter_cons_of_neg (by simp), List.filter_eq_self]
  intro e he
  rcases List.mem_map.mp he with ⟨n, _, rfl⟩
  exact decide_eq_true n.ne_nil

theorem named_render (p : Path) : named (render p) = p.map Name.bytes := by
  unfold render
  split
  · rename_i hnil
    rw [hnil]
    rfl
  · exact named_steps p

theorem render_head (p : Path) : (render p).head? = some slash := by
  cases p with
  | nil => rfl
  | cons n p => rfl

theorem render_ne_nil (p : Path) : render p ≠ [] := by
  intro hnil
  have hhead := render_head p
  rw [hnil] at hhead
  nomatch hhead

/-- A path has no two separators in a row. -/
theorem no_double_slash (p : Path) : ¬ [slash, slash] <:+: render p := by
  rintro ⟨a, b, hab⟩
  by_cases hp : p = []
  · have hlength := congrArg List.length hab
    rw [hp] at hlength
    simp [render] at hlength
    omega
  · rw [render, if_neg hp] at hab
    have helements := elements_steps p
    rw [← hab, show a ++ [slash, slash] ++ b = a ++ slash :: ([] ++ slash :: b) by simp,
      elements_append_slash, elements_append_slash] at helements
    cases ha : elements a with
    | nil => exact elements_ne_nil a ha
    | cons e es =>
      rw [ha, List.cons_append, List.cons.injEq] at helements
      have hmem : [] ∈ p.map Name.bytes := by
        rw [← helements.2]
        simp [elements]
      rcases List.mem_map.mp hmem with ⟨n, _, hn⟩
      exact n.ne_nil hn

theorem toName_bytes (n : Name) : toName n.bytes = some n :=
  dif_pos ⟨n.ne_nil, n.no_slash, n.ne_dot, n.ne_dots⟩

theorem toName_eq_none {e : Bytes} (h : e = [] ∨ e = [dot]) : toName e = none := by
  unfold toName
  apply dif_neg
  rintro ⟨hne, _, hdot, _⟩
  rcases h with rfl | rfl
  · exact hne rfl
  · exact hdot rfl

@[simp]
theorem enter_nil (p : Path) : enter p [] = p := rfl

theorem enter_name (p : Path) (n : Name) : enter p n.bytes = p ++ [n] := by
  rw [enter, if_neg n.ne_dots, toName_bytes]

/-- Empty elements lead nowhere. -/
theorem foldl_enter_named (p : Path) (es : List Bytes) :
    es.foldl enter p = (es.filter (· ≠ [])).foldl enter p := by
  induction es generalizing p with
  | nil => rfl
  | cons e es ih =>
    by_cases he : e = []
    · rw [List.filter_cons_of_neg (by simp [he]), List.foldl_cons, he, enter_nil]
      exact ih p
    · rw [List.filter_cons_of_pos (by simp [he]), List.foldl_cons, List.foldl_cons]
      exact ih _

theorem foldl_enter_names (p q : Path) : (q.map Name.bytes).foldl enter p = p ++ q := by
  induction q generalizing p with
  | nil => rw [List.map_nil, List.foldl_nil, List.append_nil]
  | cons n q ih =>
    rw [List.map_cons, List.foldl_cons, enter_name, ih, List.append_assoc, List.singleton_append]

theorem locate_of_named {s : Bytes} {p : Path} (hhead : s.head? = some slash)
    (hnamed : named s = p.map Name.bytes) (pwd : Path) : locate pwd s = p := by
  rw [locate, if_pos hhead, foldl_enter_named]
  show (named s).foldl enter [] = p
  rw [hnamed, foldl_enter_names, List.nil_append]

/-- **A path is where its string leads.** -/
@[simp]
theorem locate_render (pwd p : Path) : locate pwd (render p) = p :=
  locate_of_named (render_head p) (named_render p) pwd

/-! ## The string functions on paths -/

/-- The stack of `Clean` holds the path entered so far. -/
theorem push_enter (p : Path) {e : Bytes} (he : slash ∉ e) :
    push true (p.map Name.bytes).reverse e = ((enter p e).map Name.bytes).reverse := by
  by_cases hstay : e = [] ∨ e = [dot]
  · have hdots : e ≠ [dot, dot] := by
      rcases hstay with rfl | rfl
      · decide
      · decide
    rw [push.eq_def, if_pos hstay, enter, if_neg hdots, toName_eq_none hstay]
  · by_cases hdots : e = [dot, dot]
    · rw [push.eq_def, if_neg hstay, if_pos hdots, enter, if_pos hdots]
      rcases List.eq_nil_or_concat' p with rfl | ⟨q, n, rfl⟩
      · rfl
      · simp [n.ne_dots]
    · have hvalid : e ≠ [] ∧ slash ∉ e ∧ e ≠ [dot] ∧ e ≠ [dot, dot] :=
        ⟨fun h => hstay (Or.inl h), he, fun h => hstay (Or.inr h), hdots⟩
      have hname : toName e = some ⟨e, hvalid.1, hvalid.2.1, hvalid.2.2.1, hvalid.2.2.2⟩ :=
        dif_pos hvalid
      rw [push.eq_def, if_neg hstay, if_neg hdots, enter, if_neg hdots, hname]
      simp

theorem foldl_push_enter (p : Path) {es : List Bytes} (hes : ∀ e ∈ es, slash ∉ e) :
    es.foldl (push true) (p.map Name.bytes).reverse =
      ((es.foldl enter p).map Name.bytes).reverse := by
  induction es generalizing p with
  | nil => rfl
  | cons e es ih =>
    rw [List.foldl_cons, push_enter p (hes e List.mem_cons_self)]
    exact ih (enter p e) fun e' he' => hes e' (List.mem_cons_of_mem e he')

theorem intercalate_steps (n : Name) (p : Path) :
    slash :: [slash].intercalate ((n :: p).map Name.bytes) = steps (n :: p) := by
  induction p generalizing n with
  | nil => simp [steps]
  | cons m p ih =>
    have hcons : steps (n :: m :: p) = slash :: (n.bytes ++ steps (m :: p)) := rfl
    rw [hcons, ← ih m, List.map_cons, List.map_cons, List.intercalate_cons_cons]
    simp

/-- **Cleaning** a rooted string gives the string of the path it leads to. -/
theorem clean_of_rooted {s : Bytes} (hhead : s.head? = some slash) (pwd : Path) :
    clean s = render (locate pwd s) := by
  have hrooted : (s.head? == some slash) = true := by rw [hhead]; rfl
  have hstack := foldl_push_enter [] fun e he => no_slash_of_mem_elements (s := s) he
  rw [List.map_nil, List.reverse_nil] at hstack
  simp only [clean, hrooted, if_true, hstack, List.reverse_reverse]
  rw [if_neg (by simp), locate, if_pos hhead]
  cases (elements s).foldl enter [] with
  | nil => rfl
  | cons n p => exact intercalate_steps n p

theorem clean_of_named {s : Bytes} {p : Path} (hhead : s.head? = some slash)
    (hnamed : named s = p.map Name.bytes) : clean s = render p := by
  rw [clean_of_rooted hhead [], locate_of_named hhead hnamed]

/-! ## Any string -/

/-- What `Clean` keeps of a string that is not rooted: names, and leading `..`. -/
def Component (e : Bytes) : Prop := slash ∉ e ∧ e ≠ [] ∧ e ≠ [dot]

/-- Entering what the stack holds leads as far as entering everything. -/
theorem push_unrooted (p : Path) {stack : List Bytes} (hstack : ∀ x ∈ stack, Component x)
    {e : Bytes} (he : slash ∉ e) :
    (∀ x ∈ push false stack e, Component x) ∧
      (push false stack e).reverse.foldl enter p = enter (stack.reverse.foldl enter p) e := by
  by_cases hstay : e = [] ∨ e = [dot]
  · have hdots : e ≠ [dot, dot] := by
      rcases hstay with rfl | rfl
      · decide
      · decide
    rw [push.eq_def, if_pos hstay, enter, if_neg hdots, toName_eq_none hstay]
    exact ⟨hstack, rfl⟩
  · have hcomponent : Component e := ⟨he, fun h => hstay (Or.inl h), fun h => hstay (Or.inr h)⟩
    have hkeep : (∀ x ∈ e :: stack, Component x) ∧
        (e :: stack).reverse.foldl enter p = enter (stack.reverse.foldl enter p) e := by
      refine ⟨?_, by rw [List.reverse_cons, List.foldl_append]; rfl⟩
      intro x hx
      rcases List.mem_cons.mp hx with rfl | hx
      · exact hcomponent
      · exact hstack x hx
    by_cases hdots : e = [dot, dot]
    · rw [push.eq_def, if_neg hstay, if_pos hdots]
      cases stack with
      | nil => exact hkeep
      | cons top rest =>
        by_cases htop : top = [dot, dot]
        · simp only [if_pos htop]
          exact hkeep
        · -- the name on top goes, and so does the last name of the path
          have hvalid := hstack top List.mem_cons_self
          have hname : toName top = some ⟨top, hvalid.2.1, hvalid.1, hvalid.2.2, htop⟩ :=
            dif_pos ⟨hvalid.2.1, hvalid.1, hvalid.2.2, htop⟩
          simp only [if_neg htop]
          refine ⟨fun x hx => hstack x (List.mem_cons_of_mem top hx), ?_⟩
          rw [List.reverse_cons, List.foldl_append, List.foldl_cons, List.foldl_nil, enter,
            if_pos hdots, enter, if_neg htop, hname, List.dropLast_concat]
    · rw [push.eq_def, if_neg hstay, if_neg hdots]
      exact hkeep

theorem foldl_push_unrooted (p : Path) {es stack : List Bytes} (hes : ∀ e ∈ es, slash ∉ e)
    (hstack : ∀ x ∈ stack, Component x) :
    (∀ x ∈ es.foldl (push false) stack, Component x) ∧
      (es.foldl (push false) stack).reverse.foldl enter p =
        es.foldl enter (stack.reverse.foldl enter p) := by
  induction es generalizing stack with
  | nil => exact ⟨hstack, rfl⟩
  | cons e es ih =>
    have hpush := push_unrooted p hstack (hes e List.mem_cons_self)
    rw [List.foldl_cons, List.foldl_cons, ← hpush.2]
    exact ih (fun e' he' => hes e' (List.mem_cons_of_mem e he')) hpush.1

theorem elements_intercalate {es : List Bytes} (hne : es ≠ []) (hes : ∀ e ∈ es, slash ∉ e) :
    elements ([slash].intercalate es) = es := by
  induction es with
  | nil => exact absurd rfl hne
  | cons e es ih =>
    have he := hes e List.mem_cons_self
    cases es with
    | nil => rw [List.intercalate_singleton, elements_of_no_slash he]
    | cons e' es =>
      have hrest := ih (List.cons_ne_nil e' es) fun x hx => hes x (List.mem_cons_of_mem e hx)
      rw [List.intercalate_cons_cons, List.append_assoc, List.singleton_append,
        elements_append_slash, elements_of_no_slash he, hrest, List.singleton_append]

theorem head_intercalate {es : List Bytes} (hes : ∀ e ∈ es, Component e) :
    ([slash].intercalate es).head? ≠ some slash := by
  cases es with
  | nil => exact fun h => (nomatch h)
  | cons e es =>
    have he := hes e List.mem_cons_self
    have hhead : ([slash].intercalate (e :: es)).head? = e.head? := by
      cases es with
      | nil => rw [List.intercalate_singleton]
      | cons e' es =>
        rw [List.intercalate_cons_cons, List.append_assoc, List.head?_append]
        cases e with
        | nil => exact absurd rfl he.2.1
        | cons c e => rfl
    rw [hhead]
    intro hslash
    exact he.1 (List.mem_of_mem_head? hslash)

/-- **A cleaned string leads where the string leads.** -/
theorem locate_clean (pwd : Path) (s : Bytes) : locate pwd (clean s) = locate pwd s := by
  by_cases hhead : s.head? = some slash
  · rw [clean_of_rooted hhead pwd, locate_render]
  · have hrooted : (s.head? == some slash) = false := by
      rw [beq_eq_false_iff_ne]
      exact hhead
    have hstack := foldl_push_unrooted pwd (fun e he => no_slash_of_mem_elements (s := s) he)
      fun x (hx : x ∈ ([] : List Bytes)) => (nomatch hx)
    simp only [clean, hrooted, Bool.false_eq_true, if_false, List.nil_append]
    generalize (elements s).foldl (push false) [] = stack at hstack
    have hcomponents : ∀ x ∈ stack.reverse, Component x :=
      fun x hx => hstack.1 x (List.mem_reverse.mp hx)
    rw [locate.eq_def pwd s, if_neg hhead]
    by_cases hnil : stack.reverse = []
    · rw [hnil] at hstack ⊢
      exact hstack.2
    · have hne : [slash].intercalate stack.reverse ≠ [] := by
        intro hout
        have helements := elements_intercalate hnil fun x hx => (hcomponents x hx).1
        rw [hout] at helements
        have hmem : [] ∈ stack.reverse := by rw [← helements]; exact List.mem_cons_self
        exact (hcomponents [] hmem).2.1 rfl
      rw [if_neg hne, locate, if_neg (head_intercalate hcomponents),
        elements_intercalate hnil fun x hx => (hcomponents x hx).1, hstack.2]
      rfl

theorem clean_ne_nil (s : Bytes) : clean s ≠ [] := by
  have hout (out : Bytes) : (if out = [] then [dot] else out) ≠ [] := by
    split
    · exact List.cons_ne_nil _ _
    · assumption
  exact hout _

/-- **A name joined to a string** leads one step further. -/
theorem locate_join_name (pwd : Path) {path : Bytes} (hpath : path ≠ []) (n : Name) :
    locate pwd (join [path, n.bytes]) = locate pwd path ++ [n] ∧ join [path, n.bytes] ≠ [] := by
  have hjoin : join [path, n.bytes] = clean (path ++ slash :: n.bytes) := by
    unfold join
    rw [List.dropWhile_cons_of_neg (by simp [hpath])]
    simp [List.intercalate]
  refine ⟨?_, hjoin ▸ clean_ne_nil _⟩
  have hhead : (path ++ slash :: n.bytes).head? = path.head? := by
    cases path with
    | nil => exact absurd rfl hpath
    | cons c path => rfl
  rw [hjoin, locate_clean, locate, locate, hhead, elements_append_slash,
    elements_of_no_slash n.no_slash, List.foldl_append, List.foldl_cons, List.foldl_nil, enter_name]

/-! ## The string functions on the strings of paths -/

theorem length_render_le {p f : Path} (h : p <+: f) : (render p).length ≤ (render f).length := by
  rcases h with ⟨q, rfl⟩
  cases p with
  | nil => exact List.length_pos_iff.mpr (render_ne_nil _)
  | cons n p =>
    rw [render, if_neg (List.cons_ne_nil n p), render, if_neg (by simp), steps_append,
      List.length_append]
    exact Nat.le_add_right _ _

/-- **The parent of a path.** -/
theorem dir_render (p : Path) : dir (render p) = render p.dropLast := by
  rcases List.eq_nil_or_concat' p with rfl | ⟨q, n, rfl⟩
  · rfl
  · have hne : q ++ [n] ≠ [] := by simp
    have hrender : render (q ++ [n]) = steps q ++ slash :: n.bytes := by
      rw [render, if_neg hne, steps_append]
      simp [steps]
    have hdrop : (steps q ++ slash :: n.bytes).rdropWhile (· ≠ slash) = steps q ++ [slash] := by
      rw [show steps q ++ slash :: n.bytes = steps q ++ [slash] ++ n.bytes by simp]
      rw [List.rdropWhile, List.reverse_append, List.dropWhile_append_of_pos]
      · simp
      · intro c hc
        rw [List.mem_reverse] at hc
        exact decide_eq_true fun heq => n.no_slash (heq ▸ hc)
    rw [dir, hrender, hdrop, List.dropLast_concat]
    apply clean_of_named
    · cases q with
      | nil => rfl
      | cons m q => rfl
    · rw [named_append_slash, named_steps, named_nil, List.append_nil]

/-- **Joining** a path and a string of names. -/
theorem join_render {p q : Path} {rest : Bytes} (hrest : named rest = q.map Name.bytes) :
    join [render p, rest] = render (p ++ q) := by
  have hne := render_ne_nil p
  have hjoin : join [render p, rest] = clean (render p ++ slash :: rest) := by
    unfold join
    rw [List.dropWhile_cons_of_neg (by simp [hne])]
    simp [List.intercalate]
  rw [hjoin]
  apply clean_of_named
  · rw [List.head?_append, render_head]
    rfl
  · rw [named_append_slash, named_render, hrest, List.map_append]

/-- What is joined to a path is a path. -/
theorem join_rooted (pwd p : Path) (rest : List Bytes) :
    join (render p :: rest) = render (locate pwd (join (render p :: rest))) := by
  have hjoin : join (render p :: rest) = clean ([slash].intercalate (render p :: rest)) := by
    unfold join
    rw [List.dropWhile_cons_of_neg (by simp [render_ne_nil])]
  have hhead : ([slash].intercalate (render p :: rest)).head? = some slash := by
    cases rest with
    | nil => simp [render_head]
    | cons e es => simp [List.intercalate_cons_cons, List.head?_append, render_head]
  rw [hjoin, clean_of_rooted hhead [], locate_render]

/-- **Trimming** a path by one of its ancestors leaves the names behind it. -/
theorem named_trimPrefix (p q : Path) :
    named (trimPrefix (render (p ++ q)) (render p)) = q.map Name.bytes := by
  cases p with
  | nil =>
    cases q with
    | nil => rfl
    | cons n q =>
      have hrender : render ([] ++ n :: q) = slash :: (n.bytes ++ steps q) := rfl
      have htrim : trimPrefix (render ([] ++ n :: q)) (render []) = n.bytes ++ steps q := by
        rw [hrender]
        simp [trimPrefix, render]
      rw [htrim, ← named_slash]
      exact named_steps (n :: q)
  | cons m p =>
    have hrender : render (m :: p ++ q) = render (m :: p) ++ steps q := by
      rw [render, if_neg (by simp), render, if_neg (by simp), steps_append]
    have htrim : trimPrefix (render (m :: p ++ q)) (render (m :: p)) = steps q := by
      rw [hrender, trimPrefix, if_pos, List.drop_left]
      rw [List.isPrefixOf_iff_prefix]
      exact List.prefix_append _ _
    rw [htrim]
    exact named_steps q

end Accumulation.Go
