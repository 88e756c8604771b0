/-
# Accumulation.Go.Spell — `Clean` by components.

`Clean` spells the components it keeps (`clean_eq_spell`): names, behind some `..` if the string is
not rooted (`exists_kept`).  On such spellings `Clean` changes nothing, `Dir` drops the last
component (`dir_spell`) and joining a name adds one, so that the paths of a walk are known for any
root (`pathTo_eq_spell`).

A string without `//` spells its own components, perhaps with a separator behind them
(`exists_spelling`).  What `Clean` drops of these is nothing, or one `.`, or makes the string shorter
by three bytes at least (`foldl_push_weight`).
-/
import Accumulation.Go.Walk

namespace Accumulation.Go

def dots : Bytes := [dot, dot]

/-- The string starts at the root. -/
def rooted (s : Bytes) : Bool := s.head? == some slash

/-- The string with these components. -/
def spell (r : Bool) (es : List Bytes) : Bytes :=
  let out := (if r then [slash] else []) ++ [slash].intercalate es
  if out = [] then [dot] else out

/-- The components that `Clean` keeps. -/
def kept (s : Bytes) : List Bytes := ((elements s).foldl (push (rooted s)) []).reverse

theorem clean_eq_spell (s : Bytes) : clean s = spell (rooted s) (kept s) := rfl

/-! ## What `Clean` keeps -/

/-- The stack of `Clean`, last component first. -/
def stack (ups : ℕ) (ns : Path) : List Bytes :=
  (ns.map Name.bytes).reverse ++ List.replicate ups dots

theorem push_empty (r : Bool) (st : List Bytes) : push r st [] = st := by
  rw [push.eq_def, if_pos (Or.inl rfl)]

theorem push_name (r : Bool) (st : List Bytes) (n : Name) : push r st n.bytes = n.bytes :: st := by
  rw [push.eq_def, if_neg (by simp [n.ne_nil, n.ne_dot]), if_neg n.ne_dots]

theorem push_dots_up (ups : ℕ) :
    push false (List.replicate ups dots) dots = List.replicate (ups + 1) dots := by
  cases ups with
  | zero => rfl
  | succ ups => rfl

/-- **One element** leaves a stack of this kind. -/
theorem push_stack {r : Bool} {ups : ℕ} (hr : r = true → ups = 0) (ns : Path) {e : Bytes}
    (he : slash ∉ e) :
    ∃ ups' ns', push r (stack ups ns) e = stack ups' ns' ∧ (r = true → ups' = 0) := by
  by_cases hstay : e = [] ∨ e = [dot]
  · exact ⟨ups, ns, by rw [push.eq_def, if_pos hstay], hr⟩
  · by_cases hdots : e = dots
    · subst hdots
      rcases List.eq_nil_or_concat' ns with rfl | ⟨ns, n, rfl⟩
      · cases r with
        | true =>
          obtain rfl := hr rfl
          exact ⟨0, [], rfl, fun _ => rfl⟩
        | false => exact ⟨ups + 1, [], push_dots_up ups,
            fun h => absurd h Bool.false_ne_true⟩
      · refine ⟨ups, ns, ?_, hr⟩
        have hcons : stack ups (ns ++ [n]) = n.bytes :: stack ups ns := by simp [stack]
        rw [hcons, push.eq_def, if_neg hstay, if_pos (show dots = [dot, dot] from rfl)]
        exact if_neg n.ne_dots
    · let n : Name := ⟨e, fun h => hstay (Or.inl h), he, fun h => hstay (Or.inr h), hdots⟩
      exact ⟨ups, ns ++ [n], by rw [show e = n.bytes from rfl, push_name]; simp [stack], hr⟩

theorem foldl_push_stack {r : Bool} {es : List Bytes} (hes : ∀ e ∈ es, slash ∉ e) {ups : ℕ}
    (hr : r = true → ups = 0) (ns : Path) :
    ∃ ups' ns', es.foldl (push r) (stack ups ns) = stack ups' ns' ∧ (r = true → ups' = 0) := by
  induction es generalizing ups ns with
  | nil => exact ⟨ups, ns, rfl, hr⟩
  | cons e es ih =>
    obtain ⟨ups', ns', hpush, hr'⟩ := push_stack hr ns (hes e List.mem_cons_self)
    rw [List.foldl_cons, hpush]
    exact ih (fun e' he' => hes e' (List.mem_cons_of_mem e he')) hr' ns'

/-- Components as `Clean` keeps them. -/
def Reduced (r : Bool) (es : List Bytes) : Prop :=
  ∃ (ups : ℕ) (ns : Path), es = List.replicate ups dots ++ ns.map Name.bytes ∧ (r = true → ups = 0)

/-- **What `Clean` keeps.** -/
theorem exists_kept (s : Bytes) : Reduced (rooted s) (kept s) := by
  obtain ⟨ups, ns, hfold, hr⟩ := foldl_push_stack (r := rooted s)
    (fun e he => no_slash_of_mem_elements (s := s) he) (fun _ => rfl) []
  refine ⟨ups, ns, ?_, hr⟩
  rw [kept, show ([] : List Bytes) = stack 0 [] from rfl, hfold]
  simp [stack]

section Reduced

variable {r : Bool} {es : List Bytes}

/-- `Clean` keeps all of it. -/
theorem Reduced.foldl_push (h : Reduced r es) : es.foldl (push r) [] = es.reverse := by
  obtain ⟨ups, ns, rfl, hr⟩ := h
  have hups : (List.replicate ups dots).foldl (push r) [] = List.replicate ups dots := by
    induction ups with
    | zero => rfl
    | succ ups ih =>
      have hfalse : r = false := by
        cases r with
        | true => nomatch hr rfl
        | false => rfl
      subst hfalse
      rw [List.replicate_succ', List.foldl_append, ih (fun h => nomatch h), ← List.replicate_succ']
      exact push_dots_up ups
  have hnames (st : List Bytes) :
      (ns.map Name.bytes).foldl (push r) st = (ns.map Name.bytes).reverse ++ st := by
    induction ns generalizing st with
    | nil => rfl
    | cons n ns ih => rw [List.map_cons, List.foldl_cons, push_name, ih]; simp
  rw [List.foldl_append, hups, hnames]
  simp

/-- What holds of `..` and of every name holds of every component. -/
theorem Reduced.forall_mem (h : Reduced r es) {P : Bytes → Prop} (hdots : P dots)
    (hname : ∀ n : Name, P n.bytes) : ∀ e ∈ es, P e := by
  obtain ⟨ups, ns, rfl, -⟩ := h
  intro e he
  rcases List.mem_append.mp he with he | he
  · rw [List.eq_of_mem_replicate he]
    exact hdots
  · obtain ⟨n, -, rfl⟩ := List.mem_map.mp he
    exact hname n

theorem Reduced.no_slash (h : Reduced r es) : ∀ e ∈ es, slash ∉ e :=
  h.forall_mem (by decide) Name.no_slash

theorem Reduced.ne_nil (h : Reduced r es) : ∀ e ∈ es, e ≠ [] :=
  h.forall_mem (by decide) Name.ne_nil

theorem Reduced.ne_dot (h : Reduced r es) : ∀ e ∈ es, e ≠ [dot] :=
  h.forall_mem (by decide) Name.ne_dot

/-- A component is `..` or a name. -/
theorem Reduced.exists_name (h : Reduced r es) {e : Bytes} (he : e ∈ es) (hdots : e ≠ dots) :
    ∃ n : Name, e = n.bytes :=
  ⟨⟨e, h.ne_nil e he, h.no_slash e he, h.ne_dot e he, hdots⟩, rfl⟩

/-- Names can be added. -/
theorem Reduced.append (h : Reduced r es) (q : Path) : Reduced r (es ++ q.map Name.bytes) := by
  obtain ⟨ups, ns, rfl, hr⟩ := h
  exact ⟨ups, ns ++ q, by simp, hr⟩

theorem Reduced.dropLast (h : Reduced r es) : Reduced r es.dropLast := by
  obtain ⟨ups, ns, rfl, hr⟩ := h
  rcases List.eq_nil_or_concat' ns with rfl | ⟨ns, n, rfl⟩
  · refine ⟨ups - 1, [], by simp, fun h => ?_⟩
    rw [hr h]
  · refine ⟨ups, ns, ?_, hr⟩
    rw [List.map_append, ← List.append_assoc]
    simp

end Reduced

/-! ## Spellings -/

section Spell

variable {r : Bool} {es : List Bytes}

theorem spell_ne_nil (r : Bool) (es : List Bytes) : spell r es ≠ [] := by
  have hout (out : Bytes) : (if out = [] then [dot] else out) ≠ [] := by
    split_ifs with hnil
    · exact List.cons_ne_nil _ _
    · exact hnil
  exact hout _

theorem spell_of_ne_nil (hne : es ≠ []) (hes : ∀ e ∈ es, e ≠ []) :
    spell r es = (if r then [slash] else []) ++ [slash].intercalate es := by
  apply if_neg
  rcases es with _ | ⟨e, es⟩
  · exact absurd rfl hne
  · have he := hes e List.mem_cons_self
    intro hnil
    rcases es with _ | ⟨e', es⟩
    · exact he (by simpa using (List.append_eq_nil_iff.mp hnil).2)
    · simp [List.intercalate_cons_cons] at hnil

theorem intercalate_append {as bs : List Bytes} (ha : as ≠ []) (hb : bs ≠ []) :
    [slash].intercalate (as ++ bs) = [slash].intercalate as ++ slash :: [slash].intercalate bs := by
  induction as with
  | nil => exact absurd rfl ha
  | cons a as ih =>
    rcases as with _ | ⟨a', as⟩
    · rcases bs with _ | ⟨b, bs⟩
      · exact absurd rfl hb
      · simp [List.intercalate_cons_cons]
    · rw [List.cons_append, List.cons_append, List.intercalate_cons_cons, ← List.cons_append,
        ih (List.cons_ne_nil _ _), List.intercalate_cons_cons]
      simp

/-- **Components behind components.** -/
theorem spell_append {as bs : List Bytes} (ha : as ≠ []) (hb : bs ≠ [])
    (has : ∀ e ∈ as, e ≠ []) (hbs : ∀ e ∈ bs, e ≠ []) :
    spell r (as ++ bs) = spell r as ++ slash :: [slash].intercalate bs := by
  rw [spell_of_ne_nil (by simp [ha]) (fun e he => (List.mem_append.mp he).elim (has e) (hbs e)),
    spell_of_ne_nil ha has, intercalate_append ha hb, List.append_assoc]

theorem length_spell_nil (r : Bool) : (spell r []).length = 1 := by
  cases r with
  | true => rfl
  | false => rfl

/-- **A spelling is read back**: where it starts, and its elements, apart from empty ones. -/
theorem elements_spell (hne : es ≠ []) (hes : ∀ e ∈ es, slash ∉ e) (hes' : ∀ e ∈ es, e ≠ []) :
    rooted (spell r es) = r ∧
      elements (spell r es) = (if r then [[]] else []) ++ es := by
  rw [spell_of_ne_nil hne hes']
  have helements := elements_intercalate hne hes
  cases r with
  | true =>
    refine ⟨rfl, ?_⟩
    rw [if_pos rfl, if_pos rfl]
    exact (elements_append_slash [] ([slash].intercalate es)).trans (congrArg _ helements)
  | false =>
    refine ⟨?_, helements⟩
    rcases es with _ | ⟨e, es⟩
    · exact absurd rfl hne
    · have he := hes' e List.mem_cons_self
      have hhead : ([slash].intercalate (e :: es)).head? = e.head? := by
        rcases es with _ | ⟨e', es⟩
        · rw [List.intercalate_singleton]
        · rw [List.intercalate_cons_cons, List.append_assoc, List.head?_append]
          rcases e with _ | ⟨c, e⟩
          · exact absurd rfl he
          · rfl
      show (([slash].intercalate (e :: es)).head? == some slash) = false
      rw [hhead, beq_eq_false_iff_ne]
      intro hslash
      exact hes e List.mem_cons_self (List.mem_of_mem_head? hslash)

/-- What `Clean` makes of a spelling. -/
theorem kept_spell (hne : es ≠ []) (hes : ∀ e ∈ es, slash ∉ e) (hes' : ∀ e ∈ es, e ≠ []) :
    kept (spell r es) = (es.foldl (push r) []).reverse := by
  obtain ⟨hrooted, helements⟩ := elements_spell (r := r) hne hes hes'
  rw [kept, hrooted, helements]
  cases r with
  | true =>
    rw [if_pos rfl, List.singleton_append, List.foldl_cons, push_empty]
  | false => rfl

/-- **`Clean` changes nothing** on what it keeps. -/
theorem Reduced.clean_spell (h : Reduced r es) : clean (spell r es) = spell r es := by
  by_cases hne : es = []
  · subst hne
    cases r with
    | true => decide
    | false => decide
  · rw [clean_eq_spell, (elements_spell hne h.no_slash h.ne_nil).1,
      kept_spell hne h.no_slash h.ne_nil, h.foldl_push, List.reverse_reverse]

end Spell

/-! ## `Dir` and `Join` -/

theorem dir_spell_nil (r : Bool) : dir (spell r []) = spell r [] := by
  cases r with
  | true => decide
  | false => decide

theorem rooted_append {s : Bytes} (hs : s ≠ []) (t : Bytes) : rooted (s ++ t) = rooted s := by
  rcases s with _ | ⟨c, s⟩
  · exact absurd rfl hs
  · rfl

/-- A separator at the end makes no difference, unless it is all there is. -/
theorem kept_append_slash {t : Bytes} (ht : t ≠ []) : kept (t ++ [slash]) = kept t := by
  have helements : elements (t ++ [slash]) = elements t ++ [[]] := elements_append_slash t []
  rw [kept, kept, rooted_append ht, helements, List.foldl_append, List.foldl_cons, List.foldl_nil,
    push_empty]

theorem clean_append_slash {t : Bytes} (ht : t ≠ []) : clean (t ++ [slash]) = clean t := by
  rw [clean_eq_spell, clean_eq_spell, kept_append_slash ht, rooted_append ht]

/-- `Dir` cuts at the last separator. -/
theorem dir_append_slash (t : Bytes) {e : Bytes} (he : slash ∉ e) :
    dir (t ++ slash :: e) = clean (t ++ [slash]) := by
  rw [dir, show t ++ slash :: e = t ++ [slash] ++ e by simp, List.rdropWhile, List.reverse_append,
    List.dropWhile_append_of_pos]
  · simp
  · intro c hc
    rw [List.mem_reverse] at hc
    exact decide_eq_true fun heq => he (heq ▸ hc)

theorem dir_of_no_slash {e : Bytes} (he : slash ∉ e) : dir e = [dot] := by
  have hnil : e.rdropWhile (· ≠ slash) = [] := by
    rw [List.rdropWhile_eq_nil_iff]
    intro c hc
    exact decide_eq_true fun heq => he (heq ▸ hc)
  rw [dir, hnil]
  decide

/-- **`Dir` drops the last component**, whatever `Clean` makes of the others. -/
theorem dir_spell {r : Bool} {es : List Bytes} {e : Bytes} (hes : ∀ x ∈ es, slash ∉ x)
    (hes' : ∀ x ∈ es, x ≠ []) (he : slash ∉ e) (he' : e ≠ []) :
    dir (spell r (es ++ [e])) = spell r (es.foldl (push r) []).reverse := by
  by_cases hne : es = []
  · subst hne
    rw [List.nil_append, spell_of_ne_nil (List.cons_ne_nil _ _) (by simpa using he'),
      List.intercalate_singleton]
    cases r with
    | true =>
      rw [if_pos rfl, List.singleton_append]
      exact dir_append_slash [] he
    | false => exact dir_of_no_slash he
  · rw [spell_append hne (List.cons_ne_nil _ _) hes' (by simpa using he'),
      List.intercalate_singleton, dir_append_slash _ he, clean_append_slash (spell_ne_nil r es),
      clean_eq_spell, (elements_spell hne hes hes').1, kept_spell hne hes hes']

/-- **Joining a name** adds it. -/
theorem join_name {path : Bytes} (hpath : path ≠ []) (n : Name) :
    join [path, n.bytes] = spell (rooted path) (kept path ++ [n.bytes]) := by
  have hjoin : join [path, n.bytes] = clean (path ++ slash :: n.bytes) := by
    unfold join
    rw [List.dropWhile_cons_of_neg (by simp [hpath])]
    simp [List.intercalate]
  rw [hjoin, clean_eq_spell, rooted_append hpath, kept, rooted_append hpath, elements_append_slash,
    elements_of_no_slash n.no_slash, List.foldl_append, List.foldl_cons, List.foldl_nil, push_name,
    List.reverse_cons]
  rfl

/-- **The paths of a walk.** -/
theorem pathTo_eq_spell {root : Bytes} (hroot : root ≠ []) {q : Path} (hq : q ≠ []) :
    pathTo root q = spell (rooted root) (kept root ++ q.map Name.bytes) := by
  induction q using List.reverseRecOn with
  | nil => exact absurd rfl hq
  | append_singleton q n ih =>
    rw [pathTo_snoc]
    by_cases hnil : q = []
    · subst hnil
      exact join_name hroot n
    · have hreduced := (exists_kept root).append q
      have hne : kept root ++ q.map Name.bytes ≠ [] := by simp [hnil]
      rw [ih hnil, join_name (spell_ne_nil _ _),
        (elements_spell hne hreduced.no_slash hreduced.ne_nil).1,
        kept_spell hne hreduced.no_slash hreduced.ne_nil, hreduced.foldl_push, List.reverse_reverse]
      simp

/-! ## Strings without `//` -/

theorem intercalate_elements (s : Bytes) : [slash].intercalate (elements s) = s := by
  induction s with
  | nil => rfl
  | cons c s ih =>
    by_cases hc : c = slash
    · subst hc
      have helements : elements (slash :: s) = [[]] ++ elements s := elements_append_slash [] s
      rw [helements, intercalate_append (List.cons_ne_nil _ _) (elements_ne_nil s), ih]
      rfl
    · rw [elements, if_neg hc]
      rcases helements : elements s with _ | ⟨e, es⟩
      · exact absurd helements (elements_ne_nil s)
      · rw [helements] at ih
        rcases es with _ | ⟨e', es⟩
        · rw [List.intercalate_singleton] at ih ⊢
          rw [ih]
        · rw [List.intercalate_cons_cons] at ih ⊢
          rw [← ih]
          rfl

/-- An empty element stands at an end, or between two separators. -/
theorem elements_ne_empty {t : Bytes} (hne : t ≠ []) (hhead : t.head? ≠ some slash)
    (hlast : t.getLast? ≠ some slash) (hno : ¬ [slash, slash] <:+: t) :
    ∀ e ∈ elements t, e ≠ [] := by
  rintro e he rfl
  obtain ⟨as, bs, hsplit⟩ := List.append_of_mem he
  have ht := intercalate_elements t
  rw [hsplit] at ht
  by_cases ha : as = []
  · subst ha
    by_cases hb : bs = []
    · subst hb
      exact hne (by simpa using ht.symm)
    · rw [List.nil_append, show [] :: bs = [[]] ++ bs from rfl,
        intercalate_append (List.cons_ne_nil _ _) hb] at ht
      rw [← ht] at hhead
      exact hhead rfl
  · rw [intercalate_append ha (List.cons_ne_nil _ _)] at ht
    by_cases hb : bs = []
    · subst hb
      rw [← ht] at hlast
      exact hlast (by simp)
    · rw [show [] :: bs = [[]] ++ bs from rfl, intercalate_append (List.cons_ne_nil _ _) hb] at ht
      apply hno
      rw [← ht]
      exact ⟨[slash].intercalate as, [slash].intercalate bs, by simp⟩

/-- A text that neither begins nor ends with a separator spells its elements. -/
theorem spell_elements {r : Bool} {t : Bytes} (hne : t ≠ []) (hhead : t.head? ≠ some slash)
    (hlast : t.getLast? ≠ some slash) (hno : ¬ [slash, slash] <:+: t) :
    spell r (elements t) = (if r then [slash] else []) ++ t := by
  rw [spell_of_ne_nil (elements_ne_nil t) (elements_ne_empty hne hhead hlast hno),
    intercalate_elements]

/-- How a string is put together: from components, perhaps with a separator behind them. -/
structure Spelling (s : Bytes) (es : List Bytes) (trailing : Bool) : Prop where
  ne_empty : ∀ e ∈ es, e ≠ []
  no_slash : ∀ e ∈ es, slash ∉ e
  ne_nil : rooted s = false ∨ trailing = true → es ≠ []
  eq : s = spell (rooted s) es ++ if trailing then [slash] else []

/-- Without the separator at its end, a string has one less at most. -/
theorem exists_spelling_trailing {r : Bool} {t : Bytes} (hne : t ≠ [])
    (hhead : t.head? ≠ some slash) (hno : ¬ [slash, slash] <:+: t) :
    ∃ (es : List Bytes) (trailing : Bool), es ≠ [] ∧ (∀ e ∈ es, e ≠ []) ∧ (∀ e ∈ es, slash ∉ e) ∧
      (if r then [slash] else []) ++ t = spell r es ++ if trailing then [slash] else [] := by
  by_cases hlast : t.getLast? = some slash
  · rcases List.eq_nil_or_concat' t with rfl | ⟨u, c, rfl⟩
    · exact absurd rfl hne
    · obtain rfl : c = slash := by simpa using hlast
      have hu : u ≠ [] := by
        rintro rfl
        exact hhead rfl
      have huhead : u.head? ≠ some slash := by
        rcases u with _ | ⟨b, u⟩
        · exact absurd rfl hu
        · exact hhead
      have hulast : u.getLast? ≠ some slash := by
        intro hu'
        rcases List.eq_nil_or_concat' u with rfl | ⟨v, b, rfl⟩
        · exact hu rfl
        · obtain rfl : b = slash := by simpa using hu'
          exact hno ⟨v, [], by simp⟩
      have huno : ¬ [slash, slash] <:+: u := fun h => hno (h.trans (List.prefix_append _ _).isInfix)
      refine ⟨elements u, true, elements_ne_nil u, elements_ne_empty hu huhead hulast huno,
        fun e he => no_slash_of_mem_elements he, ?_⟩
      rw [spell_elements hu huhead hulast huno]
      simp
  · refine ⟨elements t, false, elements_ne_nil t, elements_ne_empty hne hhead hlast hno,
      fun e he => no_slash_of_mem_elements he, ?_⟩
    rw [spell_elements hne hhead hlast hno]
    simp

/-- **A string without `//`** has a spelling. -/
theorem exists_spelling {s : Bytes} (hne : s ≠ []) (hno : ¬ [slash, slash] <:+: s) :
    ∃ es trailing, Spelling s es trailing := by
  by_cases hroot : s.head? = some slash
  · rcases s with _ | ⟨c, t⟩
    · exact absurd rfl hne
    · obtain rfl : c = slash := by simpa using hroot
      have hrooted : rooted (slash :: t) = true := rfl
      by_cases ht : t = []
      · subst ht
        exact ⟨[], false, by simp, by simp, by simp [hrooted], rfl⟩
      · have hthead : t.head? ≠ some slash := by
          intro hslash
          rcases t with _ | ⟨b, t⟩
          · exact ht rfl
          · obtain rfl : b = slash := by simpa using hslash
            exact hno ⟨[], t, rfl⟩
        obtain ⟨es, trailing, hes, hempty, hslash, heq⟩ := exists_spelling_trailing (r := true) ht
          hthead fun h => hno (h.trans (List.suffix_cons slash t).isInfix)
        exact ⟨es, trailing, hempty, hslash, fun _ => hes, hrooted ▸ heq⟩
  · have hrooted : rooted s = false := by
      rw [rooted, beq_eq_false_iff_ne]
      exact hroot
    obtain ⟨es, trailing, hes, hempty, hslash, heq⟩ :=
      exists_spelling_trailing (r := false) hne hroot hno
    exact ⟨es, trailing, hempty, hslash, fun _ => hes, hrooted ▸ heq⟩

/-- Without components there is only the root. -/
theorem Spelling.eq_slash {s : Bytes} {trailing : Bool} (h : Spelling s [] trailing) :
    s = [slash] := by
  have hs := h.eq
  cases hrooted : rooted s with
  | true =>
    cases trailing with
    | true => exact absurd rfl (h.ne_nil (Or.inr rfl))
    | false =>
      rw [hrooted] at hs
      exact hs
  | false => exact absurd rfl (h.ne_nil (Or.inl hrooted))

/-- What `Clean` keeps of it. -/
theorem Spelling.kept_eq {s : Bytes} {es : List Bytes} {trailing : Bool}
    (h : Spelling s es trailing) : kept s = (es.foldl (push (rooted s)) []).reverse := by
  by_cases hes : es = []
  · subst hes
    rw [h.eq_slash]
    decide
  · have hspell := kept_spell (r := rooted s) hes h.no_slash h.ne_empty
    rw [← hspell]
    cases trailing with
    | true =>
      have hs := congrArg kept h.eq
      rwa [if_pos rfl, kept_append_slash (spell_ne_nil _ _)] at hs
    | false =>
      have hs := congrArg kept h.eq
      rwa [if_neg Bool.false_ne_true, List.append_nil] at hs

/-! ## How much shorter `Clean` makes a string -/

/-- The length of some components, each with a separator. -/
def weight (es : List Bytes) : ℕ := (es.map fun e => e.length + 1).sum

@[simp]
theorem weight_nil : weight [] = 0 := rfl

@[simp]
theorem weight_cons (e : Bytes) (es : List Bytes) :
    weight (e :: es) = e.length + 1 + weight es := by
  simp [weight]

@[simp]
theorem weight_append (as bs : List Bytes) : weight (as ++ bs) = weight as + weight bs := by
  simp [weight]

@[simp]
theorem weight_reverse (es : List Bytes) : weight es.reverse = weight es := by
  simp [weight]

theorem length_intercalate {es : List Bytes} (hne : es ≠ []) :
    ([slash].intercalate es).length + 1 = weight es := by
  induction es with
  | nil => exact absurd rfl hne
  | cons e es ih =>
    rcases es with _ | ⟨e', es⟩
    · simp
    · have hrest := ih (List.cons_ne_nil _ _)
      rw [List.intercalate_cons_cons, weight_cons, ← hrest]
      simp
      omega

theorem length_spell {r : Bool} {es : List Bytes} (hne : es ≠ []) (hes : ∀ e ∈ es, e ≠ []) :
    (spell r es).length + 1 = (if r then 1 else 0) + weight es := by
  rw [spell_of_ne_nil hne hes, List.length_append, add_assoc, length_intercalate hne]
  cases r <;> rfl

/-- What stands before further components. -/
def lead (r : Bool) (es : List Bytes) : Bytes :=
  (if r then [slash] else []) ++ es.flatMap fun e => e ++ [slash]

theorem length_lead (r : Bool) (es : List Bytes) :
    (lead r es).length = (if r then 1 else 0) + weight es := by
  rw [lead, List.length_append, List.length_flatMap]
  simp only [List.length_append, List.length_singleton]
  cases r <;> rfl

theorem spell_lead {r : Bool} {as bs : List Bytes} (has : ∀ e ∈ as, e ≠ [])
    (hbs : ∀ e ∈ bs, e ≠ []) (hb : bs ≠ []) :
    spell r (as ++ bs) = lead r as ++ [slash].intercalate bs := by
  have hintercalate : [slash].intercalate (as ++ bs) =
      (as.flatMap fun e => e ++ [slash]) ++ [slash].intercalate bs := by
    induction as with
    | nil => rfl
    | cons a as ih =>
      have hne : as ++ bs ≠ [] := by simp [hb]
      rw [List.cons_append, show a :: (as ++ bs) = [a] ++ (as ++ bs) from rfl,
        intercalate_append (List.cons_ne_nil _ _) hne, List.intercalate_singleton,
        ih fun e he => has e (List.mem_cons_of_mem a he)]
      simp
  rw [spell_of_ne_nil (by simp [hb]) (fun e he => (List.mem_append.mp he).elim (has e) (hbs e)),
    hintercalate, lead, List.append_assoc]

theorem lead_eq_spell {r : Bool} {es : List Bytes} (hne : es ≠ []) (hes : ∀ e ∈ es, e ≠ []) :
    lead r es = spell r es ++ [slash] := by
  rcases List.eq_nil_or_concat' es with rfl | ⟨es, e, rfl⟩
  · exact absurd rfl hne
  · rw [spell_lead (fun x hx => hes x (List.mem_append_left _ hx))
      (fun x hx => hes x (List.mem_append_right _ hx)) (List.cons_ne_nil _ _)]
    simp [lead]

/-- **One component** is kept, or it is a `.`, or at least three bytes go. -/
theorem push_weight (r : Bool) (st : List Bytes) {e : Bytes} (he : e ≠ []) :
    push r st e = e :: st ∨ (e = [dot] ∧ push r st e = st) ∨
      weight (push r st e) + 3 ≤ weight st + (e.length + 1) := by
  by_cases hdot : e = [dot]
  · exact Or.inr (Or.inl ⟨hdot, by rw [push.eq_def, if_pos (Or.inr hdot)]⟩)
  · have hstay : ¬ (e = [] ∨ e = [dot]) := by simp [he, hdot]
    rw [push.eq_def, if_neg hstay]
    by_cases hdots : e = [dot, dot]
    · rw [if_pos hdots]
      subst hdots
      rcases st with _ | ⟨top, rest⟩
      · cases r with
        | true => exact Or.inr (Or.inr (by simp))
        | false => exact Or.inl rfl
      · by_cases htop : top = [dot, dot]
        · exact Or.inl (if_pos htop)
        · refine Or.inr (Or.inr ?_)
          simp only [if_neg htop, weight_cons, List.length_cons, List.length_nil]
          omega
    · rw [if_neg hdots]
      exact Or.inl rfl

/-- **All components** are kept, or all but one `.`, or at least three bytes go. -/
theorem foldl_push_weight (r : Bool) {es : List Bytes} (hes : ∀ e ∈ es, e ≠ []) (st : List Bytes) :
    es.foldl (push r) st = es.reverse ++ st ∨
      (∃ as bs, es = as ++ [dot] :: bs ∧ es.foldl (push r) st = (as ++ bs).reverse ++ st) ∨
      weight (es.foldl (push r) st) + 3 ≤ weight st + weight es := by
  induction es generalizing st with
  | nil => exact Or.inl rfl
  | cons e es ih =>
    have hrest := ih (fun x hx => hes x (List.mem_cons_of_mem e hx)) (push r st e)
    have hle : weight (es.foldl (push r) (push r st e)) ≤ weight (push r st e) + weight es := by
      rcases hrest with hall | ⟨as, bs, hsplit, hone⟩ | hshort
      · rw [hall, weight_append, weight_reverse]
        omega
      · rw [hone, hsplit, weight_append, weight_reverse, weight_append, weight_append, weight_cons]
        omega
      · omega
    rw [List.foldl_cons, weight_cons]
    rcases push_weight r st (hes e List.mem_cons_self) with hkeep | ⟨hdot, hdrop⟩ | hpush
    · rw [hkeep] at hrest ⊢
      rcases hrest with hall | ⟨as, bs, hsplit, hone⟩ | hshort
      · exact Or.inl (by rw [hall]; simp)
      · exact Or.inr (Or.inl ⟨e :: as, bs, by rw [hsplit]; rfl, by rw [hone]; simp⟩)
      · refine Or.inr (Or.inr ?_)
        rw [weight_cons] at hshort
        omega
    · rw [hdrop] at hrest hle ⊢
      rcases hrest with hall | ⟨as, bs, hsplit, hone⟩ | hshort
      · exact Or.inr (Or.inl ⟨[], es, by rw [hdot]; rfl, hall⟩)
      · refine Or.inr (Or.inr ?_)
        rw [hone, hsplit, hdot]
        simp
        omega
      · refine Or.inr (Or.inr ?_)
        omega
    · exact Or.inr (Or.inr (by omega))

/-! ## The name at the end -/

theorem lead_last (r : Bool) (es : List Bytes) :
    lead r es = [] ∨ (lead r es).getLast? = some slash := by
  rcases List.eq_nil_or_concat' es with rfl | ⟨es, e, rfl⟩
  · cases r with
    | true => exact Or.inr rfl
    | false => exact Or.inl rfl
  · exact Or.inr (by simp [lead])

theorem basename_append {l e : Bytes} (hl : l = [] ∨ l.getLast? = some slash) (he : slash ∉ e)
    (he' : e ≠ []) : basename (l ++ e) = e := by
  have hdrop : (l ++ e).rdropWhile (· = slash) = l ++ e := by
    rcases List.eq_nil_or_concat' e with rfl | ⟨e, c, rfl⟩
    · exact absurd rfl he'
    · rw [← List.append_assoc]
      apply List.rdropWhile_concat_neg
      intro hc
      exact he (of_decide_eq_true hc ▸ List.mem_append_right _ (List.mem_singleton_self c))
  have hrest : l.reverse.takeWhile (· ≠ slash) = [] := by
    rcases hl with rfl | hlast
    · rfl
    · rcases List.eq_nil_or_concat' l with rfl | ⟨l, c, rfl⟩
      · rfl
      · obtain rfl : c = slash := by simpa using hlast
        simp
  rw [basename, hdrop, if_neg (by simp [he']), List.rtakeWhile, List.reverse_append,
    List.takeWhile_append_of_pos, hrest, List.append_nil, List.reverse_reverse]
  intro c hc
  rw [List.mem_reverse] at hc
  exact decide_eq_true fun heq => he (heq ▸ hc)

/-- **The name of what a walk finds.** -/
theorem basename_pathTo {root : Bytes} (hroot : root ≠ []) (q : Path) (n : Name) :
    basename (pathTo root (q ++ [n])) = n.bytes := by
  have hreduced := (exists_kept root).append q
  rw [pathTo_eq_spell hroot (by simp), List.map_append, ← List.append_assoc, List.map_singleton,
    spell_lead hreduced.ne_nil (by simpa using n.ne_nil) (List.cons_ne_nil _ _),
    List.intercalate_singleton]
  exact basename_append (lead_last _ _) n.no_slash n.ne_nil

end Accumulation.Go
