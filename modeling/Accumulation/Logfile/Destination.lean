/-
# Accumulation.Logfile.Destination — where `copyDir` puts a file.

`copyDir` computes the destination from two spellings of one directory: it indexes the path of the
file, which `Walk` has cleaned, at the length of the rule's directory as the rule spells it, and then
trims a prefix off that path.  A directory is `Placed` where that goes well for every file below it:
there is a destination, it is below the directory copied to, and no two files share it.

Which directories are, `Lands` says.  `exists_spelling` leaves four kinds of them.  As `Clean` spells
it, perhaps with a separator behind it, a directory is trimmed by its parent or by itself.  With one
`.` in it, it is trimmed by its parent or not at all.  With more than that, the index is beyond the
end of a short path.
-/
import Accumulation.Go.Spell
import Accumulation.Logfile.MoveRuns

namespace Accumulation.Logfile

open Accumulation.Go

/-! ## Normal strings -/

/-- A pass makes a string that is not normal shorter. -/
theorem length_replaceSlashes (s : Bytes) :
    (replaceSlashes s).length ≤ s.length ∧
      ([slash, slash] <:+: s → (replaceSlashes s).length < s.length) := by
  fun_induction replaceSlashes s with
  | case1 a b rest hab ih =>
    have hlt : (replaceSlashes rest).length + 1 < rest.length + 2 := by omega
    exact ⟨by simpa using hlt.le, fun _ => by simpa using hlt⟩
  | case2 a b rest hab ih =>
    refine ⟨by simpa using ih.1, fun hin => ?_⟩
    rcases List.infix_cons_iff.mp hin with hahead | hrest
    · rw [List.cons_prefix_cons, List.cons_prefix_cons] at hahead
      exact absurd ⟨hahead.1.symm, hahead.2.1.symm⟩ hab
    · simpa using ih.2 hrest
  | case3 s hs =>
    refine ⟨le_rfl, fun hin => ?_⟩
    rcases s with _ | ⟨a, _ | ⟨b, rest⟩⟩
    · simp at hin
    · simpa using hin.length_le
    · exact absurd rfl (hs a b rest)

theorem normalizeLoop_normal {n : ℕ} {s : Bytes} (hs : s.length ≤ n) :
    ¬ [slash, slash] <:+: normalizeLoop n s := by
  induction n generalizing s with
  | zero =>
    obtain rfl := List.eq_nil_of_length_eq_zero (Nat.le_zero.mp hs)
    intro hin
    have hle : 2 ≤ ([] : Bytes).length := hin.length_le
    nomatch hle
  | succ n ih =>
    rw [normalizeLoop]
    split_ifs with hin
    · have hlt := (length_replaceSlashes s).2 hin
      exact ih (by omega)
    · exact hin

/-- **A rule's directory** has no `//`. -/
theorem getDir_normal (rule : FileFilterRule) : ¬ [slash, slash] <:+: rule.getDir :=
  normalizeLoop_normal (length_replaceSlashes rule.dir).1

/-! ## What is asked of a directory -/

/-- A walk from `src` finds a regular file at `q` below it. -/
def Visits (host : Host) (tree : FileTree) (src : Bytes) (q : Path) : Prop :=
  q ≠ [] ∧ ∃ cell, tree.disk.lookup (host.locate src ++ q) = some (.file cell)

/-- **The files below `src` have destinations**, in any tree and for any directory copied to. -/
structure Placed (src : Bytes) : Prop where
  /-- there is one, strictly below the directory copied to -/
  below : ∀ host tree base q, Visits host tree src q → ∃ f : Path, f ≠ [] ∧
    destination (isDir host tree.disk) src (render base) (pathTo src q) = some (render (base ++ f))
  /-- no two files share it -/
  injective : ∀ host tree base q q', Visits host tree src q → Visits host tree src q' →
    destination (isDir host tree.disk) src (render base) (pathTo src q) =
      destination (isDir host tree.disk) src (render base) (pathTo src q') →
    pathTo src q = pathTo src q'

/-- The spellings of a directory whose files have destinations. -/
def Lands (src : Bytes) : Prop :=
  -- as `Clean` spells it, perhaps with a separator behind it
  ((src = clean src ∨ src = clean src ++ [slash]) ∧ clean src ≠ [dot] ∧
    (2 < (dir (clean src)).length → (kept src).getLast? ≠ some dots)) ∨
  -- with one `.`, behind the last component
  (src = clean src ++ [slash, dot] ∧ 2 < (clean src).length) ∨
  -- with one `.`, before it
  ∃ k < (kept src).length,
    src = spell (rooted src) ((kept src).take k ++ [dot] :: (kept src).drop k) ∧
    if 2 < (dir (clean src)).length then (kept src).getLast? ≠ some dots else dots ∉ kept src

instance (src : Bytes) : Decidable (Lands src) := show Decidable (_ ∨ _) from inferInstance

/-! ## What is trimmed off a path -/

/-- What `copyDir` trims off a path that has `c` where the string of the directory ends. -/
def trimmed (src : Bytes) (c : UInt8) : Bytes :=
  let trimPath := if c = slash then dir src else src
  let tmp := dir trimPath
  if tmp.length > 2 then tmp else trimPath

theorem trimmed_of_ne (src : Bytes) {c : UInt8} (hc : c ≠ slash) :
    trimmed src c = if 2 < (dir src).length then dir src else src := by
  simp only [trimmed, if_neg hc]

theorem join_enter (base : Path) (rest : Bytes) :
    join [render base, rest] = render ((elements rest).foldl enter base) := by
  have hjoin : join [render base, rest] = clean (render base ++ slash :: rest) := by
    unfold join
    rw [List.dropWhile_cons_of_neg (by simp [render_ne_nil base])]
    simp [List.intercalate]
  have hhead : (render base ++ slash :: rest).head? = some slash := by
    rw [List.head?_append, render_head]
    rfl
  have hbase := locate_render [] base
  rw [locate, if_pos (render_head base)] at hbase
  rw [hjoin, clean_of_rooted hhead [], locate, if_pos hhead, elements_append_slash,
    List.foldl_append, hbase]

/-- **The destination**, from what is left of the path. -/
theorem destination_of_dir {isDir : Bytes → Bool} {src : Bytes} (hdir : isDir src = true)
    (hsrc : src ≠ []) (base : Path) (path : Bytes) :
    destination isDir src (render base) path = (path[src.length - 1]?).map fun c =>
      render ((elements (trimPrefix path (trimmed src c))).foldl enter base) := by
  rw [destination, if_pos hdir]
  simp only [if_neg hsrc]
  cases path[src.length - 1]? with
  | none => rfl
  | some c => exact congrArg some (join_enter base _)

theorem Visits.isDir {host : Host} {tree : FileTree} {src : Bytes} {q : Path}
    (h : Visits host tree src q) (hsrc : src ≠ []) : isDir host tree.disk src = true := by
  obtain ⟨hq, cell, hcell⟩ := h
  obtain ⟨listable, hdir⟩ := tree.closed.dir_above hq (by rw [hcell]; exact Option.some_ne_none _)
  simp only [Logfile.isDir, Host.stat, if_neg hsrc, Disk.stat, hdir]

/-- `copyDir` trims `t` off the path of every file below `src`. -/
def Trims (src t : Bytes) : Prop :=
  ∀ q : Path, q ≠ [] → ∃ c, (pathTo src q)[src.length - 1]? = some c ∧ trimmed src c = t

/-- **Files behind one place** have destinations. -/
theorem Trims.placed {src t : Bytes} (h : Trims src t) (hsrc : src ≠ []) (front : Path)
    (hrest : ∀ base q : Path, q ≠ [] →
      (elements (trimPrefix (pathTo src q) t)).foldl enter base = base ++ front ++ q) :
    Placed src := by
  have hgoes {host : Host} {tree : FileTree} (base : Path) {q : Path}
      (hv : Visits host tree src q) : destination (isDir host tree.disk) src (render base)
        (pathTo src q) = some (render (base ++ front ++ q)) := by
    obtain ⟨c, hc, rfl⟩ := h q hv.1
    rw [destination_of_dir (hv.isDir hsrc) hsrc, hc, Option.map_some, hrest base q hv.1]
  constructor
  · intro host tree base q hv
    exact ⟨front ++ q, by simp [hv.1], by rw [hgoes base hv, List.append_assoc]⟩
  · intro host tree base q q' hv hv' heq
    rw [hgoes base hv, hgoes base hv', Option.some.injEq] at heq
    have hplace := congrArg (locate []) heq
    rw [locate_render, locate_render, List.append_cancel_left_eq] at hplace
    rw [hplace]

/-! ## Trees with one file -/

theorem exists_tree {f : Path} (hf : f ≠ []) :
    ∃ (tree : FileTree) (cell : FileCell), tree.disk.lookup f = some (.file cell) := by
  rcases List.eq_nil_or_concat' f with rfl | ⟨p, n, rfl⟩
  · exact absurd rfl hf
  · have hempty : (∅ : Disk).Closed := fun q m h => absurd (AList.lookup_empty _) h
    have hcross : (∅ : Disk).crossesFile p = false := by
      rw [Disk.crossesFile, List.any_eq_false]
      intro q _
      rw [AList.lookup_empty]
      exact Bool.false_ne_true
    have hlookup (q : Path) : ((∅ : Disk).mkdirs p).lookup q =
        if q <+: p then some (.dir true) else none := by
      rw [lookup_mkdirs_eq, AList.lookup_empty]
    have hp := (hlookup p).trans (if_pos List.prefix_rfl)
    have hnew : ((∅ : Disk).mkdirs p).lookup (p ++ [n]) = none := by
      rw [hlookup, if_neg]
      intro hahead
      simpa using hahead.length_le
    have hmade : ((∅ : Disk).mkdirs p).createRefused (fun _ => false) (p ++ [n]) = none := by
      rw [Disk.createRefused, hnew, List.dropLast_concat, hp]
      rfl
    refine ⟨⟨((∅ : Disk).mkdirs p).created 0 (p ++ [n]),
      closed_created (closed_mkdirs hempty hcross) hmade⟩, ⟨[], 0, true, true⟩, ?_⟩
    simp only [Disk.created, hnew, AList.lookup_insert]

/-- **What a directory with destinations promises** of each string. -/
theorem Placed.goes {src : Bytes} (h : Placed src) (hsrc : src ≠ []) (base : Path) {q : Path}
    (hq : q ≠ []) : ∃ c, (pathTo src q)[src.length - 1]? = some c ∧ ∃ f : Path, f ≠ [] ∧
      (elements (trimPrefix (pathTo src q) (trimmed src c))).foldl enter base = base ++ f := by
  let host : Host := ⟨[], 0, fun _ => false, fun _ _ => some true, fun _ _ => rfl, id, 0⟩
  obtain ⟨tree, cell, hcell⟩ := exists_tree (f := host.locate src ++ q) (by simp [hq])
  have hv : Visits host tree src q := ⟨hq, cell, hcell⟩
  obtain ⟨f, hf, hdest⟩ := h.below host tree base q hv
  rw [destination_of_dir (hv.isDir hsrc) hsrc, Option.map_eq_some_iff] at hdest
  obtain ⟨c, hc, hgoes⟩ := hdest
  refine ⟨c, hc, f, hf, ?_⟩
  have hplace := congrArg (locate []) hgoes
  rwa [locate_render, locate_render] at hplace

theorem Placed.rest {src t : Bytes} (h : Placed src) (hsrc : src ≠ []) (htrims : Trims src t)
    (base : Path) {q : Path} (hq : q ≠ []) : ∃ f : Path, f ≠ [] ∧
      (elements (trimPrefix (pathTo src q) t)).foldl enter base = base ++ f := by
  obtain ⟨c, hc, rfl⟩ := htrims q hq
  obtain ⟨c', hc', hf⟩ := h.goes hsrc base hq
  rw [hc, Option.some.injEq] at hc'
  exact hc' ▸ hf

/-! ## The paths of the walk -/

section Paths

variable {src : Bytes}

theorem pathTo_lead (hsrc : src ≠ []) {q : Path} (hq : q ≠ []) : pathTo src q =
    lead (rooted src) (kept src) ++ [slash].intercalate (q.map Name.bytes) := by
  rw [pathTo_eq_spell hsrc hq, spell_lead (exists_kept src).ne_nil _ (by simpa using hq)]
  intro e he
  obtain ⟨n, -, rfl⟩ := List.mem_map.mp he
  exact n.ne_nil

theorem head_names {q : Path} (hq : q ≠ []) :
    ∃ c, c ≠ slash ∧ ([slash].intercalate (q.map Name.bytes))[0]? = some c := by
  rcases q with _ | ⟨n, q⟩
  · exact absurd rfl hq
  · rcases hbytes : n.bytes with _ | ⟨c, cs⟩
    · exact absurd hbytes n.ne_nil
    · refine ⟨c, fun hc => n.no_slash ?_, ?_⟩
      · rw [hbytes, hc]
        exact List.mem_cons_self
      · rcases q with _ | ⟨m, q⟩
        · simp [hbytes]
        · simp [hbytes, List.intercalate_cons_cons]

theorem elements_names {q : Path} (hq : q ≠ []) :
    elements ([slash].intercalate (q.map Name.bytes)) = q.map Name.bytes := by
  apply elements_intercalate (by simpa using hq)
  intro e he
  obtain ⟨n, -, rfl⟩ := List.mem_map.mp he
  exact n.no_slash

theorem trimPrefix_append (t rest : Bytes) : trimPrefix (t ++ rest) t = rest := by
  rw [trimPrefix, if_pos, List.drop_left]
  rw [List.isPrefixOf_iff_prefix]
  exact List.prefix_append t rest

/-- A clean spelling, with what the path of the walk has behind it. -/
theorem pathTo_behind (hsrc : src ≠ []) (hks : kept src ≠ []) {q : Path} (hq : q ≠ []) :
    pathTo src q = clean src ++ slash :: [slash].intercalate (q.map Name.bytes) := by
  rw [pathTo_lead hsrc hq, lead_eq_spell hks (exists_kept src).ne_nil, clean_eq_spell]
  simp

theorem clean_clean (src : Bytes) : clean (clean src) = clean src := by
  rw [clean_eq_spell src]
  exact (exists_kept src).clean_spell

/-- The length of what stands before the names in the paths of the walk. -/
def leadLength (src : Bytes) : ℕ := (if rooted src then 1 else 0) + weight (kept src)

theorem length_clean (hks : kept src ≠ []) : (clean src).length + 1 = leadLength src := by
  rw [clean_eq_spell, length_spell hks (exists_kept src).ne_nil, leadLength]

theorem kept_ne_nil_of_long (h : 2 < (clean src).length) : kept src ≠ [] := by
  intro hnil
  rw [clean_eq_spell, hnil, length_spell_nil] at h
  omega

/-- A clean spelling, perhaps with a separator behind it, is too short to have a `.` in it. -/
theorem length_plain (hks : kept src ≠ [])
    (h : src = clean src ∨ src = clean src ++ [slash]) : src.length ≤ leadLength src := by
  have hclean := length_clean hks
  rcases h with h | h
  · have heq := congrArg List.length h
    omega
  · have heq := congrArg List.length h
    rw [List.length_append, List.length_singleton] at heq
    omega

theorem length_behind (hks : kept src ≠ []) (h : src = clean src ++ [slash, dot]) :
    src.length = leadLength src + 1 := by
  have hclean := length_clean hks
  have heq := congrArg List.length h
  simp only [List.length_append, List.length_cons, List.length_nil] at heq
  omega

/-- The components of a string with one `.` in it. -/
theorem dot_components {as bs : List Bytes} (hks : kept src = as ++ bs) :
    (∀ e ∈ as ++ [dot] :: bs, e ≠ []) ∧ ∀ e ∈ as ++ [dot] :: bs, slash ∉ e := by
  have hreduced := exists_kept src
  rw [hks] at hreduced
  constructor
  · intro e he
    rcases List.mem_append.mp he with he | he
    · exact hreduced.ne_nil e (List.mem_append_left _ he)
    · rcases List.mem_cons.mp he with rfl | he
      · decide
      · exact hreduced.ne_nil e (List.mem_append_right _ he)
  · intro e he
    rcases List.mem_append.mp he with he | he
    · exact hreduced.no_slash e (List.mem_append_left _ he)
    · rcases List.mem_cons.mp he with rfl | he
      · decide
      · exact hreduced.no_slash e (List.mem_append_right _ he)

theorem length_of_dot {as bs : List Bytes} (hks : kept src = as ++ bs)
    (h : src = spell (rooted src) (as ++ [dot] :: bs)) : src.length = leadLength src + 1 := by
  have hlength := length_spell (r := rooted src) (by simp) (dot_components hks).1
  rw [← h, weight_append, weight_cons, List.length_singleton] at hlength
  rw [leadLength, hks, weight_append]
  omega

/-- **As `Clean` spells it**, perhaps with a separator behind it. -/
theorem trims_plain (hsrc : src ≠ []) (hks : kept src ≠ [])
    (h : src = clean src ∨ src = clean src ++ [slash]) :
    Trims src (if 2 < (dir (clean src)).length then dir (clean src) else clean src) := by
  intro q hq
  rw [pathTo_behind hsrc hks hq]
  rcases h with h | h
  · rw [← h]
    rcases List.eq_nil_or_concat' (kept src) with hnil | ⟨es, e, hsnoc⟩
    · exact absurd hnil hks
    · have hreduced := exists_kept src
      rw [hsnoc] at hreduced
      have he : e ∈ es ++ [e] := List.mem_append_right _ (List.mem_singleton_self e)
      have hlead : src = lead (rooted src) es ++ e := by
        conv_lhs => rw [h, clean_eq_spell, hsnoc, spell_lead
          (fun x hx => hreduced.ne_nil x (List.mem_append_left _ hx))
          (fun x hx => hreduced.ne_nil x (List.mem_append_right _ hx)) (List.cons_ne_nil _ _)]
        rw [List.intercalate_singleton]
      rcases List.eq_nil_or_concat' e with rfl | ⟨e, c, rfl⟩
      · exact absurd rfl (hreduced.ne_nil [] he)
      · have hc : c ≠ slash := fun hc =>
          hreduced.no_slash _ he (hc ▸ List.mem_append_right _ (List.mem_singleton_self c))
        refine ⟨c, ?_, trimmed_of_ne src hc⟩
        rw [hlead]
        simp
  · refine ⟨slash, ?_, ?_⟩
    · have hlength := congrArg List.length h
      rw [List.length_append, List.length_singleton] at hlength
      rw [hlength, Nat.add_sub_cancel]
      simp
    · have hdir : dir src = clean src := by
        conv_lhs => rw [h]
        rw [show [slash] = slash :: ([] : Bytes) from rfl, dir_append_slash _ List.not_mem_nil,
          clean_append_slash (clean_ne_nil src), clean_clean]
      rw [trimmed]
      simp only [if_pos, hdir]

/-- **With one `.` in it.** -/
theorem trims_dot (hsrc : src ≠ []) {as bs : List Bytes} (hks : kept src = as ++ bs)
    (h : src = spell (rooted src) (as ++ [dot] :: bs)) :
    Trims src (if 2 < (dir src).length then dir src else src) := by
  intro q hq
  obtain ⟨c, hc, hhead⟩ := head_names hq
  have hindex : src.length - 1 = (lead (rooted src) (kept src)).length := by
    rw [length_of_dot hks h, length_lead]
    rfl
  refine ⟨c, ?_, trimmed_of_ne src hc⟩
  rw [pathTo_lead hsrc hq, hindex, List.getElem?_append_right le_rfl, Nat.sub_self, hhead]

/-- `Dir` does not see a `.` before the last component. -/
theorem dir_spell_dot {r : Bool} {as bs : List Bytes} {e : Bytes}
    (hes : ∀ x ∈ as ++ (bs ++ [e]), slash ∉ x) (hes' : ∀ x ∈ as ++ (bs ++ [e]), x ≠ []) :
    dir (spell r (as ++ [dot] :: (bs ++ [e]))) = dir (spell r (as ++ (bs ++ [e]))) := by
  have hdot {P : Bytes → Prop} (h : ∀ x ∈ as ++ (bs ++ [e]), P x) (hP : P [dot]) :
      (∀ x ∈ as ++ [dot] :: bs, P x) ∧ (∀ x ∈ as ++ bs, P x) ∧ P e := by
    simp only [List.mem_append, List.mem_cons] at h ⊢
    refine ⟨?_, fun x hx => h x (by tauto), h e (by simp)⟩
    rintro x (hx | rfl | hx)
    · exact h x (Or.inl hx)
    · exact hP
    · exact h x (Or.inr (Or.inl hx))
  obtain ⟨hslash, hslash', he⟩ := hdot hes (by decide)
  obtain ⟨hempty, hempty', he'⟩ := hdot hes' (by decide)
  have hpush : (as ++ [dot] :: bs).foldl (push r) [] = (as ++ bs).foldl (push r) [] := by
    rw [List.foldl_append, List.foldl_append, List.foldl_cons]
    exact congrArg (List.foldl (push r) · bs) (if_pos (Or.inr rfl))
  rw [show as ++ [dot] :: (bs ++ [e]) = (as ++ [dot] :: bs) ++ [e] by simp, ← List.append_assoc,
    dir_spell hslash hempty he he', dir_spell hslash' hempty' he he', hpush]

theorem dir_dot_inside {as bs : List Bytes} (hks : kept src = as ++ bs) (hbs : bs ≠ [])
    (h : src = spell (rooted src) (as ++ [dot] :: bs)) : dir src = dir (clean src) := by
  rcases List.eq_nil_or_concat' bs with rfl | ⟨bs, e, rfl⟩
  · exact absurd rfl hbs
  · have hreduced := exists_kept src
    rw [hks] at hreduced
    conv_lhs => rw [h]
    rw [dir_spell_dot hreduced.no_slash hreduced.ne_nil, clean_eq_spell, hks]

theorem dir_dot_last (h : src = spell (rooted src) (kept src ++ [[dot]])) :
    dir src = clean src := by
  have hreduced := exists_kept src
  conv_lhs => rw [h]
  rw [dir_spell hreduced.no_slash hreduced.ne_nil (by decide) (by decide), hreduced.foldl_push,
    List.reverse_reverse, clean_eq_spell]

/-! ## What becomes of each kind -/

/-- Trimmed by itself. -/
theorem placed_of_clean (hsrc : src ≠ []) (hks : kept src ≠ []) (htrims : Trims src (clean src)) :
    Placed src := by
  apply htrims.placed hsrc []
  intro base q hq
  rw [pathTo_behind hsrc hks hq, trimPrefix_append]
  have helements := elements_append_slash [] ([slash].intercalate (q.map Name.bytes))
  rw [elements_names hq, List.nil_append] at helements
  rw [helements, List.append_nil, ← foldl_enter_names]
  rfl

/-- **Trimmed by its parent**: the last component goes along, and must not be `..`. -/
theorem placed_iff_of_dir (hsrc : src ≠ []) (hlong : 2 < (dir (clean src)).length)
    (htrims : Trims src (dir (clean src))) : Placed src ↔ (kept src).getLast? ≠ some dots := by
  have hreduced := exists_kept src
  rcases List.eq_nil_or_concat' (kept src) with hnil | ⟨es, e, hsnoc⟩
  · rw [clean_eq_spell, hnil, dir_spell_nil, length_spell_nil] at hlong
    omega
  rw [hsnoc] at hreduced
  have hes := hreduced.dropLast
  rw [List.dropLast_concat] at hes
  have hdir : dir (clean src) = spell (rooted src) es := by
    rw [clean_eq_spell, hsnoc, dir_spell hes.no_slash hes.ne_nil (hreduced.no_slash e (by simp))
      (hreduced.ne_nil e (by simp)), hes.foldl_push, List.reverse_reverse]
  have hne : es ≠ [] := by
    rintro rfl
    rw [hdir, length_spell_nil] at hlong
    omega
  have hrest (base : Path) {q : Path} (hq : q ≠ []) :
      (elements (trimPrefix (pathTo src q) (dir (clean src)))).foldl enter base =
        enter base e ++ q := by
    have hall := hreduced.append q
    rw [List.append_assoc, List.singleton_append] at hall
    have hbehind : pathTo src q =
        spell (rooted src) es ++ slash :: [slash].intercalate (e :: q.map Name.bytes) := by
      rw [pathTo_eq_spell hsrc hq, hsnoc, List.append_assoc, List.singleton_append]
      exact spell_append hne (List.cons_ne_nil _ _) hes.ne_nil
        fun x hx => hall.ne_nil x (List.mem_append_right _ hx)
    have helements := elements_append_slash [] ([slash].intercalate (e :: q.map Name.bytes))
    rw [elements_intercalate (List.cons_ne_nil _ _)
      fun x hx => hall.no_slash x (List.mem_append_right _ hx), List.nil_append] at helements
    rw [hbehind, hdir, trimPrefix_append, helements, ← foldl_enter_names]
    rfl
  rw [hsnoc, List.getLast?_append, List.getLast?_singleton]
  constructor
  · rintro h hdots
    obtain rfl : e = dots := by simpa using hdots
    obtain ⟨f, hf, hgoes⟩ := h.rest hsrc htrims [logtmp] (List.cons_ne_nil logtmp [])
    rw [hrest _ (List.cons_ne_nil _ _)] at hgoes
    have hlength := congrArg List.length hgoes
    exact hf (by simpa [enter, dots] using hlength)
  · intro hdots
    obtain ⟨n, rfl⟩ := hreduced.exists_name (e := e) (by simp) fun he => hdots (by simp [he])
    apply htrims.placed hsrc [n]
    intro base q hq
    rw [hrest base hq, enter_name]

/-- A name that starts as `.` does. -/
def ellipsis : Name where
  bytes := [dot, dot, dot]
  ne_nil := by decide
  no_slash := by decide
  ne_dot := by decide
  ne_dots := by decide

/-- **Trimmed by itself, with a `.` at its end**: of a file `...` there is a `..` left. -/
theorem not_placed_of_dot_last (hsrc : src ≠ [])
    (h : src = spell (rooted src) (kept src ++ [[dot]])) (htrims : Trims src src) :
    ¬ Placed src := by
  intro hplaced
  have hellipsis := List.cons_ne_nil ellipsis []
  obtain ⟨f, hf, hgoes⟩ := hplaced.rest hsrc htrims [] hellipsis
  have hlead : src = lead (rooted src) (kept src) ++ [dot] := by
    conv_lhs => rw [h]
    rw [spell_lead (exists_kept src).ne_nil (by simp) (List.cons_ne_nil _ _),
      List.intercalate_singleton]
  have hpath : pathTo src [ellipsis] = src ++ dots := by
    rw [pathTo_lead hsrc hellipsis]
    conv_rhs => rw [hlead]
    rw [List.append_assoc, List.map_singleton, List.intercalate_singleton]
    rfl
  rw [hpath, trimPrefix_append] at hgoes
  exact hf hgoes.symm

/-- The elements of a path of the walk. -/
theorem elements_pathTo (hsrc : src ≠ []) {q : Path} (hq : q ≠ []) : elements (pathTo src q) =
    (if rooted src then [[]] else []) ++ (kept src ++ q.map Name.bytes) := by
  have hreduced := (exists_kept src).append q
  rw [pathTo_eq_spell hsrc hq]
  exact (elements_spell (by simp [hq]) hreduced.no_slash hreduced.ne_nil).2

/-- A string with a `.` before its last component is not part of a clean one. -/
theorem trimPrefix_dot_inside (hsrc : src ≠ []) {as bs : List Bytes} (hks : kept src = as ++ bs)
    (hbs : bs ≠ []) (h : src = spell (rooted src) (as ++ [dot] :: bs)) {q : Path} (hq : q ≠ []) :
    trimPrefix (pathTo src q) src = pathTo src q := by
  rw [trimPrefix, if_neg]
  rw [List.isPrefixOf_iff_prefix]
  rintro ⟨rest, hrest⟩
  have hreduced := exists_kept src
  rw [hks] at hreduced
  have hfront : ∀ e ∈ as ++ [[dot]], slash ∉ e ∧ e ≠ [] := by
    intro e he
    rcases List.mem_append.mp he with he | he
    · exact ⟨hreduced.no_slash e (List.mem_append_left _ he),
        hreduced.ne_nil e (List.mem_append_left _ he)⟩
    · rw [List.mem_singleton.mp he]
      decide
  have hsplit : src = spell (rooted src) (as ++ [[dot]]) ++ slash :: [slash].intercalate bs := by
    conv_lhs => rw [h]
    rw [show as ++ [dot] :: bs = (as ++ [[dot]]) ++ bs by simp]
    exact spell_append (by simp) hbs (fun e he => (hfront e he).2)
      fun e he => hreduced.ne_nil e (List.mem_append_right _ he)
  have hdot : [dot] ∈ elements (pathTo src q) := by
    rw [← hrest, hsplit, List.append_assoc, List.cons_append, elements_append_slash,
      (elements_spell (by simp) (fun e he => (hfront e he).1) fun e he => (hfront e he).2).2]
    simp
  rw [elements_pathTo hsrc hq] at hdot
  rcases List.mem_append.mp hdot with hdot | hdot
  · cases hr : rooted src with
    | true => simp [hr] at hdot
    | false => simp [hr] at hdot
  · exact ((exists_kept src).append q).ne_dot _ hdot rfl

/-- **Not trimmed at all**: every component goes along, and none may be `..`. -/
theorem placed_iff_of_dot_inside (hsrc : src ≠ []) {as bs : List Bytes}
    (hks : kept src = as ++ bs) (hbs : bs ≠ [])
    (h : src = spell (rooted src) (as ++ [dot] :: bs)) (htrims : Trims src src) :
    Placed src ↔ dots ∉ kept src := by
  have hrest (base : Path) {q : Path} (hq : q ≠ []) :
      (elements (trimPrefix (pathTo src q) src)).foldl enter base =
        (kept src).foldl enter base ++ q := by
    have hfirst : ((if rooted src then [[]] else []) : List Bytes).foldl enter base = base := by
      cases rooted src with
      | true => rfl
      | false => rfl
    rw [trimPrefix_dot_inside hsrc hks hbs h hq, elements_pathTo hsrc hq, List.foldl_append, hfirst,
      List.foldl_append, foldl_enter_names]
  obtain ⟨ups, ns, hkept, -⟩ := exists_kept src
  cases ups with
  | zero =>
    rw [List.replicate_zero, List.nil_append] at hkept
    refine iff_of_true ?_ ?_
    · apply htrims.placed hsrc ns
      intro base q hq
      rw [hrest base hq, hkept, foldl_enter_names]
    · rw [hkept]
      intro hdots
      obtain ⟨n, -, hn⟩ := List.mem_map.mp hdots
      exact n.ne_dots hn
  | succ ups =>
    refine iff_of_false ?_ fun hno => hno (by simp [hkept, List.replicate_succ])
    intro hplaced
    have hups (n : ℕ) : (List.replicate n dots).foldl enter [] = [] := by
      induction n with
      | zero => rfl
      | succ n ih => exact ih
    -- another name than the first one left
    obtain ⟨m, p, hfirst⟩ := List.exists_cons_of_ne_nil (show ns ++ [logtmp] ≠ [] by simp)
    obtain ⟨x, hx⟩ : ∃ x : Name, x ≠ m := by
      by_cases hm : m = logtmp
      · exact ⟨ellipsis, by rw [hm]; decide⟩
      · exact ⟨logtmp, fun h => hm h.symm⟩
    obtain ⟨f, -, hgoes⟩ := hplaced.rest hsrc htrims [x] (List.cons_ne_nil logtmp [])
    rw [hrest [x] (List.cons_ne_nil _ _), hkept, List.foldl_append, List.replicate_succ,
      List.foldl_cons, show enter [x] dots = [] from rfl, hups, foldl_enter_names, List.nil_append,
      hfirst, List.singleton_append, List.cons.injEq] at hgoes
    exact hx hgoes.1.symm

/-- **A path shorter than the string** has no byte at the index. -/
theorem not_placed_of_short (hsrc : src ≠ []) {q : Path} (hq : q ≠ [])
    (h : (pathTo src q).length < src.length) : ¬ Placed src := by
  intro hplaced
  obtain ⟨c, hc, -⟩ := hplaced.goes hsrc [] hq
  obtain ⟨hindex, -⟩ := List.getElem?_eq_some_iff.mp hc
  omega

/-! ## The kinds of spellings -/

/-- A name of one byte. -/
def letter : Name where
  bytes := ascii ['a']
  ne_nil := by decide
  no_slash := by decide
  ne_dot := by decide
  ne_dots := by decide

theorem length_pathTo_letter (hsrc : src ≠ []) :
    (pathTo src [letter]).length = leadLength src + 1 := by
  rw [pathTo_lead hsrc (List.cons_ne_nil _ _), List.length_append, length_lead, List.map_singleton,
    List.intercalate_singleton]
  rfl

/-- **Every string without `//`** is of one of four kinds. -/
theorem exists_kind (hsrc : src ≠ []) (hno : ¬ [slash, slash] <:+: src) :
    src = [slash] ∨ (kept src ≠ [] ∧ (src = clean src ∨ src = clean src ++ [slash])) ∨
      (∃ as bs, kept src = as ++ bs ∧ src = spell (rooted src) (as ++ [dot] :: bs)) ∨
      (pathTo src [letter]).length < src.length := by
  obtain ⟨es, trailing, hs⟩ := exists_spelling hsrc hno
  by_cases hes : es = []
  · subst hes
    exact Or.inl hs.eq_slash
  · have hkept := hs.kept_eq
    have hlength := length_spell (r := rooted src) hes hs.ne_empty
    have heq := congrArg List.length hs.eq
    rw [List.length_append] at heq
    rw [length_pathTo_letter hsrc, leadLength]
    rcases foldl_push_weight (rooted src) hs.ne_empty [] with hall | ⟨as, bs, rfl, hone⟩ | hshort
    · rw [hall, List.append_nil, List.reverse_reverse] at hkept
      refine Or.inr (Or.inl ⟨hkept ▸ hes, ?_⟩)
      rw [clean_eq_spell, hkept]
      cases trailing with
      | true => exact Or.inr hs.eq
      | false => exact Or.inl (by simpa using hs.eq)
    · rw [hone, List.append_nil, List.reverse_reverse] at hkept
      refine Or.inr (Or.inr ?_)
      cases trailing with
      | true =>
        refine Or.inr ?_
        rw [weight_append, weight_cons, List.length_singleton] at hlength
        rw [if_pos rfl, List.length_singleton] at heq
        rw [hkept, weight_append]
        omega
      | false => exact Or.inl ⟨as, bs, hkept, by simpa using hs.eq⟩
    · refine Or.inr (Or.inr (Or.inr ?_))
      have hweight : weight (kept src) + 3 ≤ weight es := by
        rw [hkept, weight_reverse]
        simpa using hshort
      omega

/-- A string that lands is not too long. -/
theorem Lands.length (h : Lands src) (hsrc : src ≠ []) :
    src.length ≤ (pathTo src [letter]).length := by
  rw [length_pathTo_letter hsrc]
  rcases h with ⟨hplain, hdot, -⟩ | ⟨hbehind, hlong⟩ | ⟨k, hk, hinside, -⟩
  · by_cases hks : kept src = []
    · have hclean := clean_eq_spell src
      rw [hks] at hclean
      cases hr : rooted src with
      | true =>
        rw [hr] at hclean
        rw [hclean] at hplain
        have hone : 1 ≤ leadLength src := by
          rw [leadLength, hr, if_pos rfl]
          omega
        rcases hplain with h | h
        · have heq := congrArg List.length h
          rw [length_spell_nil] at heq
          omega
        · have heq := congrArg List.length h
          rw [List.length_append, length_spell_nil, List.length_singleton] at heq
          omega
      | false =>
        rw [hr] at hclean
        exact absurd hclean hdot
    · exact (length_plain hks hplain).trans (Nat.le_succ _)
  · exact (length_behind (kept_ne_nil_of_long hlong) hbehind).le
  · exact (length_of_dot (List.take_append_drop k _).symm hinside).le

/-- A `.` cannot be both behind the last component and before it. -/
theorem dot_behind_or_inside {as bs : List Bytes} (hks : kept src = as ++ bs) (hbs : bs ≠ [])
    (hinside : src = spell (rooted src) (as ++ [dot] :: bs)) : src ≠ clean src ++ [slash, dot] := by
  intro hbehind
  rcases List.eq_nil_or_concat' bs with rfl | ⟨bs, e, rfl⟩
  · exact absurd rfl hbs
  · have hcomponents := dot_components hks
    have hfirst := (elements_spell (r := rooted src) (by simp) hcomponents.2 hcomponents.1).2
    have hsecond := elements_append_slash (clean src) [dot]
    rw [← hinside] at hfirst
    rw [show clean src ++ slash :: [dot] = src from hbehind.symm, hfirst] at hsecond
    have hlast := congrArg List.getLast? hsecond
    have he : e = [dot] := by
      rw [show as ++ [dot] :: (bs ++ [e]) = (as ++ [dot] :: bs) ++ [e] by simp] at hlast
      rw [← List.append_assoc, List.getLast?_append, List.getLast?_append] at hlast
      simpa [elements_of_no_slash (show slash ∉ [dot] by decide)] using hlast
    exact (exists_kept src).ne_dot e (by simp [hks]) he

theorem not_plain_of_dot {as bs : List Bytes} (hks : kept src = as ++ bs)
    (h : src = spell (rooted src) (as ++ [dot] :: bs)) :
    ¬ ((src = clean src ∨ src = clean src ++ [slash]) ∧ clean src ≠ [dot]) := by
  rintro ⟨hplain, hdot⟩
  by_cases hnil : kept src = []
  · obtain ⟨rfl, rfl⟩ := List.append_eq_nil_iff.mp (hks.symm.trans hnil)
    have hclean := clean_eq_spell src
    rw [hnil] at hclean
    cases hr : rooted src with
    | true =>
      rw [hr] at hclean h
      rw [hclean] at hplain
      rw [h] at hplain
      exact absurd hplain (by decide)
    | false =>
      rw [hr] at hclean
      exact hdot hclean
  · have hlength := length_of_dot hks h
    have hle := length_plain hnil hplain
    omega

theorem clean_ne_dot (hks : kept src ≠ []) : clean src ≠ [dot] := by
  intro hdot
  have hreduced := exists_kept src
  have hkept := kept_spell (r := rooted src) hks hreduced.no_slash hreduced.ne_nil
  rw [hreduced.foldl_push, List.reverse_reverse, ← clean_eq_spell, hdot] at hkept
  exact hks hkept.symm

/-- A directory spelt as `Clean` spells it. -/
theorem placed_iff_of_plain (hsrc : src ≠ []) (hks : kept src ≠ [])
    (h : src = clean src ∨ src = clean src ++ [slash]) : Placed src ↔ Lands src := by
  have htrims := trims_plain hsrc hks h
  have hlands : Lands src ↔
      (2 < (dir (clean src)).length → (kept src).getLast? ≠ some dots) := by
    have hle := length_plain hks h
    constructor
    · rintro (⟨-, -, hlast⟩ | ⟨hbehind, -⟩ | ⟨k, hk, hinside, -⟩)
      · exact hlast
      · have heq := length_behind hks hbehind
        omega
      · have heq := length_of_dot (List.take_append_drop k _).symm hinside
        omega
    · intro hlast
      exact Or.inl ⟨h, clean_ne_dot hks, hlast⟩
  rw [hlands]
  by_cases hlong : 2 < (dir (clean src)).length
  · rw [if_pos hlong] at htrims
    rw [placed_iff_of_dir hsrc hlong htrims]
    exact ⟨fun hlast _ => hlast, fun hlast => hlast hlong⟩
  · rw [if_neg hlong] at htrims
    exact iff_of_true (placed_of_clean hsrc hks htrims) fun h => absurd h hlong

/-- One with a `.` behind its last component. -/
theorem placed_iff_of_dot_last (hsrc : src ≠ [])
    (h : src = spell (rooted src) (kept src ++ [[dot]])) : Placed src ↔ Lands src := by
  have hks : kept src = kept src ++ [] := (List.append_nil _).symm
  have htrims := trims_dot hsrc hks h
  rw [dir_dot_last h] at htrims
  have hbehind (hne : kept src ≠ []) : src = clean src ++ [slash, dot] := by
    conv_lhs => rw [h]
    rw [spell_append hne (List.cons_ne_nil _ _) (exists_kept src).ne_nil (by simp),
      List.intercalate_singleton, clean_eq_spell]
  by_cases hlong : 2 < (clean src).length
  · have hne := kept_ne_nil_of_long hlong
    rw [if_pos hlong] at htrims
    exact iff_of_true (placed_of_clean hsrc hne htrims) (Or.inr (Or.inl ⟨hbehind hne, hlong⟩))
  · rw [if_neg hlong] at htrims
    refine iff_of_false (not_placed_of_dot_last hsrc h htrims) ?_
    rintro (⟨hplain, hdot, -⟩ | ⟨-, hlong'⟩ | ⟨k, hk, hinside, -⟩)
    · exact not_plain_of_dot hks h ⟨hplain, hdot⟩
    · exact hlong hlong'
    · have hdrop : (kept src).drop k ≠ [] :=
        List.ne_nil_of_length_pos (by rw [List.length_drop]; omega)
      exact dot_behind_or_inside (List.take_append_drop k _).symm hdrop hinside
        (hbehind (List.ne_nil_of_length_pos (by omega)))

/-- One with a `.` before it. -/
theorem placed_iff_of_dot_before (hsrc : src ≠ []) {as bs : List Bytes}
    (hks : kept src = as ++ bs) (hbs : bs ≠ [])
    (h : src = spell (rooted src) (as ++ [dot] :: bs)) : Placed src ↔ Lands src := by
  have htrims := trims_dot hsrc hks h
  rw [dir_dot_inside hks hbs h] at htrims
  have hlands : Lands src ↔
      if 2 < (dir (clean src)).length then (kept src).getLast? ≠ some dots
      else dots ∉ kept src := by
    constructor
    · rintro (⟨hplain, hdot, -⟩ | ⟨hbehind, -⟩ | ⟨k, hk, -, hdots⟩)
      · exact absurd ⟨hplain, hdot⟩ (not_plain_of_dot hks h)
      · exact absurd hbehind (dot_behind_or_inside hks hbs h)
      · exact hdots
    · intro hdots
      have hpos := List.length_pos_iff.mpr hbs
      refine Or.inr (Or.inr ⟨as.length, by rw [hks, List.length_append]; omega, ?_, hdots⟩)
      rw [hks, List.take_left, List.drop_left]
      exact h
  rw [hlands]
  by_cases hlong : 2 < (dir (clean src)).length
  · rw [if_pos hlong] at htrims ⊢
    exact placed_iff_of_dir hsrc hlong htrims
  · rw [if_neg hlong] at htrims ⊢
    exact placed_iff_of_dot_inside hsrc hks hbs h htrims

/-- **The root** is trimmed off as it is. -/
theorem placed_root : Placed [slash] := by
  have hpath {q : Path} (hq : q ≠ []) :
      pathTo [slash] q = [slash] ++ [slash].intercalate (q.map Name.bytes) :=
    pathTo_lead (List.cons_ne_nil _ _) hq
  have htrims : Trims [slash] [slash] := fun q hq => ⟨slash, by rw [hpath hq]; rfl, by decide⟩
  apply htrims.placed (List.cons_ne_nil _ _) []
  intro base q hq
  rw [hpath hq, trimPrefix_append, elements_names hq, foldl_enter_names, List.append_nil]

end Paths

/-! ## The rule's directory -/

/-- **Which rules have destinations** for every file below their directory. -/
theorem placed_iff_lands (rule : FileFilterRule) (hdir : rule.dir ≠ []) :
    Placed rule.getDir ↔ Lands rule.getDir := by
  have hsrc := fun hnil => hdir ((getDir_eq_nil rule).mp hnil)
  rcases exists_kind hsrc (getDir_normal rule) with h | ⟨hks, h⟩ | ⟨as, bs, hks, h⟩ | h
  · rw [h]
    exact iff_of_true placed_root (by decide)
  · exact placed_iff_of_plain hsrc hks h
  · by_cases hbs : bs = []
    · rw [hbs, List.append_nil] at hks
      rw [hbs, ← hks] at h
      exact placed_iff_of_dot_last hsrc h
    · exact placed_iff_of_dot_before hsrc hks hbs h
  · refine iff_of_false (not_placed_of_short hsrc (List.cons_ne_nil _ _) h) ?_
    intro hlands
    have hle := hlands.length hsrc
    omega

theorem logs_placed :
    Placed (FileFilterRule.getDir ⟨ascii ['l', 'o', 'g', 's', '/'], ascii ['*']⟩) :=
  (placed_iff_lands _ (by decide)).mpr (by decide)

/-- `./` is longer than the path of a file there. -/
theorem short_path_panics :
    let src := FileFilterRule.getDir ⟨ascii ['.', '/'], ascii ['*']⟩
    src ≠ [] ∧ destination (fun _ => true) src (render [logtmp]) (pathTo src [letter]) = none ∧
      ¬ Placed src :=
  ⟨by decide, by decide, not_placed_of_short (by decide) (List.cons_ne_nil letter []) (by decide)⟩

-- `../../..` loses `../..`, and the `..` left leads out of the directory copied to
example : destination (fun _ => true) (ascii ['.', '.', '/', '.', '.', '/', '.', '.'])
    (render [logtmp, letter]) (pathTo (ascii ['.', '.', '/', '.', '.', '/', '.', '.']) [ellipsis]) =
      some (render [logtmp, ellipsis]) := by decide

end Accumulation.Logfile
