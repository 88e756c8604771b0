/-
# Accumulation.Kimi.CollectCalls — the tool calls that `CollectMessage` collects.

Fragments of tool calls come with the index of the call they belong to.  The entries are assembled
as they should be (`Assembled`) exactly when the fragments are orderly (`Orderly`):

* no index is beyond the next new one: the inner loop lets the list grow until a bound that shrinks
  as the list grows, so it makes only about half of the entries that are missing;
* all writes to one builder happen while the builders lie in one array: `append` moves them
  otherwise, and a builder that was moved panics when it is written to;
* every entry is given a function by some fragment: the loop at the end does not ask.

Otherwise `CollectMessage` panics.  The state after some fragments is known exactly (`Collects`), so
that each fragment either leads to the next such state or to a panic (`collectToolCall_collects`).
-/
import Accumulation.Kimi.Chunk

namespace Accumulation.Kimi

/-! ## Fragments -/

/-- The index a fragment carries. -/
def ToolCall.place (f : ToolCall) : ℕ := ((NullableType.intValue f.index).getD 0).toNat

/-- A fragment that carries an index. -/
structure ToolCall.HasIndex (f : ToolCall) : Prop where
  notNull : NullableType.isNull (T := .int) f.index = false
  value : NullableType.intValue f.index = some (f.place : ℤ)

/-- The fragments of the first delta. -/
def Chunk.fragments (c : Chunk) : List ToolCall :=
  ((c.getDelta.bind (·.toolCalls)).getD []).reduceOption

/-- A chunk whose first delta is not nil, nor is any fragment in it, and these carry indices. -/
def Chunk.HasIndices (c : Chunk) : Prop :=
  ∃ delta, c.getDelta = some delta ∧
    ∀ toolCall ∈ delta.toolCalls.getD [], ∃ f : ToolCall, toolCall = some f ∧ f.HasIndex

/-- How many entries there are after these fragments, if there were `n` before. -/
def count (n : ℕ) (fs : List ToolCall) : ℕ := fs.foldl (fun n f => max n (f.place + 1)) n

/-! ## What is to be assembled -/

def firstNonEmpty : List String → String
  | [] => ""
  | text :: texts => if text = "" then firstNonEmpty texts else text

/-- The fragments of one index. -/
def piecesFor (fs : List ToolCall) (i : ℕ) : List ToolCall := fs.filter (·.place = i)

def functionCalls (pieces : List ToolCall) : List FunctionCall := pieces.filterMap (·.function)

def joinArguments (pieces : List ToolCall) : String :=
  String.join ((functionCalls pieces).map (·.arguments))

/-- The function of an entry, or an empty one. -/
def ToolCall.functionCall (t : ToolCall) : FunctionCall := t.function.getD .zero

/-- The message has an entry for each fragment, and each entry is what the fragments of its index
say. -/
structure Assembles (fs : List ToolCall) (message : Message) : Prop where
  enough : ∀ f ∈ fs, f.place < (message.toolCalls.getD []).length
  entry : ∀ i toolCall, (message.toolCalls.getD [])[i]? = some toolCall → ∃ t, toolCall = some t ∧
    t.id = firstNonEmpty ((piecesFor fs i).map (·.id)) ∧
    t.type = firstNonEmpty ((piecesFor fs i).map (·.type)) ∧
    t.functionCall.name = firstNonEmpty ((functionCalls (piecesFor fs i)).map (·.name)) ∧
    t.functionCall.arguments = joinArguments (piecesFor fs i)

/-- The chunks are collected, and the tool calls are assembled. -/
def Assembled (grow : ℕ → ℕ) (chunks : List Chunk) : Prop :=
  ∃ message, collectMessage grow chunks = some message ∧
    Assembles (chunks.flatMap Chunk.fragments) message

/-! ## Orderly fragments -/

/-- A slice that was made by this many appends. -/
def pushed (grow : ℕ → ℕ) (n : ℕ) : Builders := (Builders.push grow)^[n] .nil

/-- No index is beyond the next new one, if there are `n` entries. -/
def NoGaps : ℕ → List ToolCall → Prop
  | _, [] => True
  | n, f :: fs => f.place ≤ n ∧ NoGaps (max n (f.place + 1)) fs

instance decidableNoGaps : ∀ n fs, Decidable (NoGaps n fs)
  | _, [] => inferInstanceAs (Decidable True)
  | n, f :: fs =>
    have : Decidable (NoGaps (max n (f.place + 1)) fs) := decidableNoGaps _ fs
    inferInstanceAs (Decidable (f.place ≤ n ∧ NoGaps (max n (f.place + 1)) fs))

/-- The writes of arguments: which builder, and the array the builders lie in by then. -/
def writes (grow : ℕ → ℕ) : ℕ → List ToolCall → List (ℕ × ℕ)
  | _, [] => []
  | n, f :: fs =>
    (if f.function.isSome then [(f.place, (pushed grow (max n (f.place + 1))).array)] else []) ++
      writes grow (max n (f.place + 1)) fs

/-- All writes to one builder find it in the same array. -/
def OneArray (ws : List (ℕ × ℕ)) : Prop := ∀ w ∈ ws, ∀ w' ∈ ws, w.1 = w'.1 → w.2 = w'.2

instance (ws : List (ℕ × ℕ)) : Decidable (OneArray ws) :=
  inferInstanceAs (Decidable (∀ w ∈ ws, ∀ w' ∈ ws, w.1 = w'.1 → w.2 = w'.2))

structure Orderly (grow : ℕ → ℕ) (fs : List ToolCall) : Prop where
  noGaps : NoGaps 0 fs
  oneArray : OneArray (writes grow 0 fs)
  functions : ∀ i < count 0 fs, functionCalls (piecesFor fs i) ≠ []

/-! ## One more fragment -/

section Concat

variable (grow : ℕ → ℕ) (n : ℕ) (fs : List ToolCall) (f : ToolCall)

@[simp]
theorem count_concat : count n (fs ++ [f]) = max (count n fs) (f.place + 1) := by
  simp [count]

theorem noGaps_concat : NoGaps n (fs ++ [f]) ↔ NoGaps n fs ∧ f.place ≤ count n fs := by
  induction fs generalizing n with
  | nil => simp [NoGaps, count]
  | cons g fs ih => simp [NoGaps, ih, count, and_assoc]

theorem writes_concat : writes grow n (fs ++ [f]) = writes grow n fs ++
    if f.function.isSome then [(f.place, (pushed grow (count n (fs ++ [f]))).array)] else [] := by
  induction fs generalizing n with
  | nil => simp [writes, count]
  | cons g fs ih => simp [writes, ih, count]

theorem oneArray_concat (ws : List (ℕ × ℕ)) (w : ℕ × ℕ) :
    OneArray (ws ++ [w]) ↔ OneArray ws ∧ ∀ w' ∈ ws, w'.1 = w.1 → w'.2 = w.2 := by
  constructor
  · intro h
    refine ⟨fun v hv v' hv' => h v (by simp [hv]) v' (by simp [hv']), fun w' hw' => ?_⟩
    exact h w' (by simp [hw']) w (by simp)
  · rintro ⟨hws, hw⟩ v hv v' hv' hplace
    rw [List.mem_append, List.mem_singleton] at hv hv'
    rcases hv with hv | rfl <;> rcases hv' with hv' | rfl
    · exact hws v hv v' hv' hplace
    · exact hw v hv hplace
    · exact (hw v' hv' hplace.symm).symm
    · rfl

theorem piecesFor_concat (i : ℕ) : piecesFor (fs ++ [f]) i =
    piecesFor fs i ++ if f.place = i then [f] else [] := by
  by_cases h : f.place = i <;> simp [piecesFor, h]

/-- Every fragment has its entry. -/
theorem place_lt_count {f : ToolCall} (hf : f ∈ fs) : f.place < count n fs := by
  induction fs using List.reverseRecOn with
  | nil => nomatch hf
  | append_singleton fs g ih =>
    rw [count_concat]
    rcases List.mem_append.mp hf with hf | hf
    · have hlt := ih hf
      omega
    · obtain rfl := List.mem_singleton.mp hf
      omega

/-- A new index has had no fragments. -/
theorem piecesFor_count {i : ℕ} (h : count 0 fs ≤ i) : piecesFor fs i = [] := by
  simp only [piecesFor, List.filter_eq_nil_iff, decide_eq_true_eq]
  rintro f hf rfl
  exact absurd (place_lt_count 0 fs hf) (by omega)

/-- A write has the index of a fragment. -/
theorem writes_lt_count {w : ℕ × ℕ} (hw : w ∈ writes grow n fs) : w.1 < count n fs := by
  induction fs using List.reverseRecOn with
  | nil => nomatch hw
  | append_singleton fs f ih =>
    rw [writes_concat] at hw
    rw [count_concat]
    rcases List.mem_append.mp hw with hw | hw
    · have hlt := ih hw
      omega
    · by_cases hf : f.function.isSome
      · obtain rfl : w = _ := by simpa [hf] using hw
        simp
      · simp [hf] at hw

end Concat

/-- The conditions that can fail on the way. -/
def NoPanic (grow : ℕ → ℕ) (fs : List ToolCall) : Prop :=
  NoGaps 0 fs ∧ OneArray (writes grow 0 fs)

/-- **What one more fragment must satisfy.** -/
theorem noPanic_concat (grow : ℕ → ℕ) (fs : List ToolCall) (f : ToolCall) :
    NoPanic grow (fs ++ [f]) ↔ NoPanic grow fs ∧ f.place ≤ count 0 fs ∧
      (f.function.isSome → ∀ w ∈ writes grow 0 fs, w.1 = f.place →
        w.2 = (pushed grow (max (count 0 fs) (f.place + 1))).array) := by
  rw [NoPanic, NoPanic, noGaps_concat, writes_concat, count_concat]
  by_cases hf : f.function.isSome
  · simp only [hf, if_true, oneArray_concat]
    tauto
  · simp [hf]
    tauto

/-! ## Entries and builders -/

@[simp]
theorem firstNonEmpty_concat (texts : List String) (text : String) :
    firstNonEmpty (texts ++ [text]) = keepFirst (firstNonEmpty texts) text := by
  induction texts with
  | nil => by_cases h : text = "" <;> simp [firstNonEmpty, keepFirst, h]
  | cons first texts ih => by_cases h : first = "" <;> simp [firstNonEmpty, keepFirst, h, ih]

/-- The entry of some fragments, before it is given its arguments. -/
def assemble (pieces : List ToolCall) : ToolCall :=
  { index := ""
    id := firstNonEmpty (pieces.map (·.id))
    type := firstNonEmpty (pieces.map (·.type))
    function := if functionCalls pieces = [] then none
      else some ⟨firstNonEmpty ((functionCalls pieces).map (·.name)), ""⟩ }

theorem assemble_nil : assemble [] = .zero := rfl

/-- **One more fragment** is absorbed. -/
theorem assemble_concat (pieces : List ToolCall) (f : ToolCall) :
    assemble (pieces ++ [f]) = (assemble pieces).absorb f := by
  rcases hf : f.function with _ | functionCall
  · simp [assemble, ToolCall.absorb, functionCalls, hf]
  · by_cases hnil : functionCalls pieces = []
    · have hcalls : functionCalls (pieces ++ [f]) = [functionCall] := by
        simp [functionCalls, hf] at hnil ⊢
        exact hnil
      by_cases hname : functionCall.name = "" <;>
        simp [assemble, ToolCall.absorb, hf, hcalls, hnil, firstNonEmpty, keepFirst,
          FunctionCall.zero, hname]
    · have hcalls : functionCalls (pieces ++ [f]) = functionCalls pieces ++ [functionCall] := by
        simp [functionCalls, hf]
      simp [assemble, ToolCall.absorb, hf, hcalls, hnil]

/-- The builder of some fragments, if these are its writes. -/
def builderFor (ws : List (ℕ × ℕ)) (pieces : List ToolCall) (i : ℕ) : Builder :=
  ⟨(ws.find? (·.1 = i)).map fun w => (w.2, i), joinArguments pieces⟩

/-- A new builder has not been written to. -/
theorem builderFor_new {grow : ℕ → ℕ} {fs : List ToolCall} {i : ℕ} (h : count 0 fs ≤ i) :
    builderFor (writes grow 0 fs) (piecesFor fs i) i = .zero := by
  have hnone : (writes grow 0 fs).find? (·.1 = i) = none := by
    simp only [List.find?_eq_none, decide_eq_true_eq]
    rintro w hw rfl
    exact absurd (writes_lt_count grow 0 fs hw) (by omega)
  rw [builderFor, hnone, piecesFor_count fs h]
  rfl

/-- All writes to a builder that has stayed where it is have found it there. -/
theorem find_write {ws : List (ℕ × ℕ)} {i a : ℕ} (h : ∀ w ∈ ws, w.1 = i → w.2 = a) {w : ℕ × ℕ}
    (hfind : ws.find? (·.1 = i) = some w) : w.2 = a :=
  h w (List.mem_of_find?_eq_some hfind) (by simpa using List.find?_some hfind)

/-- **A builder that has stayed where it is** can be written to. -/
theorem builderFor_writeString {ws : List (ℕ × ℕ)} {i a : ℕ} (h : ∀ w ∈ ws, w.1 = i → w.2 = a)
    (pieces : List ToolCall) (s : String) : (builderFor ws pieces i).writeString (a, i) s =
      some ⟨some (a, i), joinArguments pieces ++ s⟩ := by
  rcases hfind : ws.find? (·.1 = i) with _ | w
  · simp [Builder.writeString, builderFor, hfind]
  · have hw := find_write h hfind
    simp [Builder.writeString, builderFor, hfind, hw]

/-- **One that has been moved** cannot. -/
theorem builderFor_moved {ws : List (ℕ × ℕ)} {i a : ℕ} (hone : OneArray ws)
    (h : ¬ ∀ w ∈ ws, w.1 = i → w.2 = a) (pieces : List ToolCall) (s : String) :
    (builderFor ws pieces i).writeString (a, i) s = none := by
  push Not at h
  obtain ⟨w, hw, hplace, hne⟩ := h
  rcases hfind : ws.find? (·.1 = i) with _ | v
  · have hnone := List.find?_eq_none.mp hfind w hw
    simp [hplace] at hnone
  · have hv : v.1 = i := by simpa using List.find?_some hfind
    have hsame : v.2 = w.2 := hone v (List.mem_of_find?_eq_some hfind) w hw (hv.trans hplace.symm)
    simp [Builder.writeString, builderFor, hfind, hsame, hne]

/-- What has been written to a builder. -/
theorem builderFor_concat {ws : List (ℕ × ℕ)} {i a : ℕ} (h : ∀ w ∈ ws, w.1 = i → w.2 = a)
    (pieces : List ToolCall) {f : ToolCall} {functionCall : FunctionCall}
    (hf : f.function = some functionCall) :
    builderFor (ws ++ [(i, a)]) (pieces ++ [f]) i =
      ⟨some (a, i), joinArguments pieces ++ functionCall.arguments⟩ := by
  have harguments : joinArguments (pieces ++ [f]) =
      joinArguments pieces ++ functionCall.arguments := by
    simp [joinArguments, functionCalls, hf, String.join_append]
  rcases hfind : ws.find? (·.1 = i) with _ | w
  · simp [builderFor, List.find?_append, hfind, harguments]
  · have hw := find_write h hfind
    simp [builderFor, List.find?_append, hfind, harguments, hw]

theorem set_map_range {α : Type*} (g : ℕ → α) (m i : ℕ) (x : α) :
    ((List.range m).map g).set i x = (List.range m).map (Function.update g i x) := by
  apply List.ext_getElem
  · simp
  · intro j hj hj'
    by_cases h : i = j
    · subst h
      simp
    · simp [h, Function.update_of_ne (Ne.symm h)]

/-! ## What has been collected -/

/-- **The state after some fragments**, with `m` entries. -/
structure Collects (grow : ℕ → ℕ) (fs : List ToolCall) (m : ℕ) (c : Collecting) : Prop where
  entries : c.entries = (List.range m).map fun i => assemble (piecesFor fs i)
  array : c.toolCallArgumentsBuilders.array = (pushed grow m).array
  cap : c.toolCallArgumentsBuilders.cap = (pushed grow m).cap
  elems : c.toolCallArgumentsBuilders.elems =
    (List.range m).map fun i => builderFor (writes grow 0 fs) (piecesFor fs i) i

section Collects

variable {grow : ℕ → ℕ} {fs : List ToolCall} {m : ℕ} {c : Collecting}

theorem collects_init : Collects grow [] 0 .init := ⟨rfl, rfl, rfl, rfl⟩

/-- Nothing else of the state matters. -/
theorem Collects.congr {c' : Collecting} (hc : Collects grow fs m c)
    (hentries : c'.entries = c.entries)
    (hbuilders : c'.toolCallArgumentsBuilders = c.toolCallArgumentsBuilders) :
    Collects grow fs m c' := by
  refine ⟨hentries.trans hc.entries, ?_, ?_, ?_⟩
  · rw [hbuilders, hc.array]
  · rw [hbuilders, hc.cap]
  · rw [hbuilders, hc.elems]

theorem pushed_length (n : ℕ) : (pushed grow n).elems.length = n := by
  induction n with
  | zero => rfl
  | succ n ih =>
    rw [pushed, Function.iterate_succ_apply', ← pushed, Builders.push]
    split_ifs <;> simp [ih]

/-- **One round** of the inner loop. -/
theorem Collects.push (hc : Collects grow fs m c) (hm : count 0 fs ≤ m) :
    Collects grow fs (m + 1) (c.push grow) := by
  have hlen : c.toolCallArgumentsBuilders.elems.length = m := by simp [hc.elems]
  have hpushed : pushed grow (m + 1) = (pushed grow m).push grow :=
    Function.iterate_succ_apply' _ _ _
  have helems : c.toolCallArgumentsBuilders.elems ++ [.zero] =
      (List.range (m + 1)).map fun i => builderFor (writes grow 0 fs) (piecesFor fs i) i := by
    rw [List.range_succ, List.map_append, List.map_singleton, builderFor_new hm, hc.elems]
  have hentries : (c.push grow).entries =
      (List.range (m + 1)).map fun i => assemble (piecesFor fs i) := by
    rw [List.range_succ, List.map_append, List.map_singleton, piecesFor_count fs hm, assemble_nil,
      ← hc.entries]
    rfl
  by_cases hroom : m < c.toolCallArgumentsBuilders.cap
  · have hroom' : m < (pushed grow m).cap := hc.cap ▸ hroom
    refine ⟨hentries, ?_, ?_, ?_⟩
    · simp [Collecting.push, Builders.push, hpushed, hlen, pushed_length, hroom, hroom', hc.array]
    · simp [Collecting.push, Builders.push, hpushed, hlen, pushed_length, hroom', hc.cap]
    · simpa [Collecting.push, Builders.push, hlen, hroom] using helems
  · have hroom' : ¬ m < (pushed grow m).cap := hc.cap ▸ hroom
    refine ⟨hentries, ?_, ?_, ?_⟩
    · simp [Collecting.push, Builders.push, hpushed, hlen, pushed_length, hroom, hroom', hc.array]
    · simp [Collecting.push, Builders.push, hpushed, hlen, pushed_length, hroom', hc.cap]
    · simpa [Collecting.push, Builders.push, hlen, hroom] using helems

/-- **The inner loop**, for an index that is there or the next new one. -/
theorem Collects.extend (hc : Collects grow fs (count 0 fs) c) {i : ℕ} (hi : i ≤ count 0 fs) :
    Collects grow fs (max (count 0 fs) (i + 1)) (c.extend grow i) := by
  have hlen : c.entries.length = count 0 fs := by simp [hc.entries]
  rcases hi.lt_or_eq with hlt | rfl
  · rw [max_eq_left hlt, Collecting.extend, if_neg (by omega)]
    exact hc
  · have hextend : c.extend grow (count 0 fs) = c.push grow := by
      simp [Collecting.extend, hlen, Collecting.growLoop]
    rw [max_eq_right (by omega), hextend]
    exact hc.push le_rfl

/-- **The inner loop falls short** of an index that is further away: in its first round there is more
than one entry missing, and in each later one its bound has come down by what the loop has made. -/
theorem growLoop_short (grow : ℕ → ℕ) (idx : ℤ) (fuel : ℕ) (i : ℤ) (c : Collecting) (hi : 0 ≤ i)
    (hlen : (c.entries.length : ℤ) ≤ idx) (hstart : 1 ≤ i ∨ (c.entries.length : ℤ) < idx) :
    ((Collecting.growLoop grow idx fuel i c).entries.length : ℤ) ≤ idx := by
  induction fuel generalizing i c with
  | zero => exact hlen
  | succ fuel ih =>
    rw [Collecting.growLoop]
    split_ifs with hround
    · have hpush : ((c.push grow).entries.length : ℤ) = c.entries.length + 1 := by
        simp [Collecting.push, Collecting.entries]
      exact ih (i + 1) (c.push grow) (by omega) (by omega) (Or.inl (by omega))
    · exact hlen

theorem Collects.extend_short (hc : Collects grow fs (count 0 fs) c) {i : ℕ}
    (hi : count 0 fs < i) : (c.extend grow i).entries.length ≤ i := by
  have hlen : c.entries.length = count 0 fs := by simp [hc.entries]
  rw [Collecting.extend, if_pos (by omega)]
  exact_mod_cast growLoop_short grow i _ 0 c le_rfl (by omega) (Or.inr (by omega))

/-! ## One fragment -/

theorem collectToolCall_indexed {f : ToolCall} (hf : f.HasIndex) :
    collectToolCall grow c (some f) = ((c.extend grow f.place).entries[f.place]?).bind fun t =>
      let c := c.extend grow f.place
      let c := { c with toolCalls := some (c.entries.set f.place (t.absorb f)) }
      match f.function with
      | none => some c
      | some functionCall =>
        (c.toolCallArgumentsBuilders.writeString f.place functionCall.arguments).bind fun builders =>
          some { c with toolCallArgumentsBuilders := builders } := by
  have hneg : ¬ (f.place : ℤ) < 0 := by omega
  simp only [collectToolCall, hf.notNull, hf.value, Option.bind_eq_bind, Option.bind_some,
    Int.toNat_natCast, if_neg hneg]
  rfl

/-- What the entries become. -/
theorem Collects.absorb (hc : Collects grow fs m c) (f : ToolCall) :
    c.entries.set f.place ((assemble (piecesFor fs f.place)).absorb f) =
      (List.range m).map fun i => assemble (piecesFor (fs ++ [f]) i) := by
  rw [hc.entries, set_map_range]
  congr 1
  funext i
  by_cases h : i = f.place
  · subst h
    simp [piecesFor_concat, assemble_concat]
  · simp [piecesFor_concat, Function.update_of_ne h, Ne.symm h]

/-- What the builders become, if the fragment has no function. -/
theorem builderFor_none {f : ToolCall} (hf : f.function = none) (i : ℕ) :
    builderFor (writes grow 0 (fs ++ [f])) (piecesFor (fs ++ [f]) i) i =
      builderFor (writes grow 0 fs) (piecesFor fs i) i := by
  by_cases h : f.place = i <;>
    simp [builderFor, writes_concat, piecesFor_concat, hf, h, joinArguments, functionCalls]

/-- What has come of some fragments: a state that collects them, or a panic. -/
def Reached (grow : ℕ → ℕ) (fs : List ToolCall) : Option Collecting → Prop
  | some c => NoPanic grow fs ∧ Collects grow fs (count 0 fs) c
  | none => ¬ NoPanic grow fs

/-- **One fragment.** -/
theorem collectToolCall_collects (hc : Collects grow fs (count 0 fs) c) (hfs : NoPanic grow fs)
    {f : ToolCall} (hf : f.HasIndex) :
    Reached grow (fs ++ [f]) (collectToolCall grow c (some f)) := by
  rw [collectToolCall_indexed hf]
  rcases lt_or_ge (count 0 fs) f.place with hgap | hplace
  · rw [List.getElem?_eq_none (hc.extend_short hgap)]
    intro hpanic
    exact absurd ((noPanic_concat grow fs f).mp hpanic).2.1 (by omega)
  · have hext := hc.extend hplace
    have hlt : f.place < max (count 0 fs) (f.place + 1) := by omega
    have hentry : (c.extend grow f.place).entries[f.place]? =
        some (assemble (piecesFor fs f.place)) := by
      simp [hext.entries, hlt]
    rw [hentry, Option.bind_some]
    rcases hfunction : f.function with _ | functionCall
    · refine ⟨(noPanic_concat grow fs f).mpr ⟨hfs, hplace, by simp [hfunction]⟩, ?_⟩
      rw [count_concat]
      refine ⟨hext.absorb f, hext.array, hext.cap, hext.elems.trans ?_⟩
      exact List.map_congr_left fun i _ => (builderFor_none hfunction i).symm
    · have hbuilder : (c.extend grow f.place).toolCallArgumentsBuilders.elems[f.place]? =
          some (builderFor (writes grow 0 fs) (piecesFor fs f.place) f.place) := by
        simp [hext.elems, hlt]
      simp only [Builders.writeString, hbuilder, Option.bind_some, hext.array]
      by_cases hstay : ∀ w ∈ writes grow 0 fs, w.1 = f.place →
          w.2 = (pushed grow (max (count 0 fs) (f.place + 1))).array
      · rw [builderFor_writeString hstay]
        refine ⟨(noPanic_concat grow fs f).mpr ⟨hfs, hplace, fun _ => hstay⟩, ?_⟩
        rw [count_concat]
        refine ⟨hext.absorb f, rfl, hext.cap, ?_⟩
        show List.set _ _ _ = _
        rw [hext.elems, set_map_range]
        congr 1
        funext i
        by_cases h : i = f.place
        · subst h
          rw [Function.update_self, writes_concat, count_concat, piecesFor_concat, if_pos rfl,
            hfunction, Option.isSome_some, if_pos rfl, builderFor_concat hstay _ hfunction]
        · rw [Function.update_of_ne h, writes_concat, piecesFor_concat, if_neg (Ne.symm h)]
          simp [builderFor, List.find?_append, hfunction, Ne.symm h]
      · rw [builderFor_moved hfs.2 hstay]
        intro hpanic
        exact hstay (((noPanic_concat grow fs f).mp hpanic).2.2 (by simp [hfunction]))

/-! ## All fragments -/

/-- What has panicked once stays so. -/
theorem NoPanic.left {gs : List ToolCall} (h : NoPanic grow (fs ++ gs)) : NoPanic grow fs := by
  induction gs using List.reverseRecOn with
  | nil => simpa using h
  | append_singleton gs g ih =>
    rw [← List.append_assoc] at h
    exact ih ((noPanic_concat grow (fs ++ gs) g).mp h).1

/-- **The fragments of one chunk.** -/
theorem foldlM_collectToolCall_reached (gs : List ToolCall) (hgs : ∀ g ∈ gs, g.HasIndex)
    (hc : Collects grow fs (count 0 fs) c) (hfs : NoPanic grow fs) :
    Reached grow (fs ++ gs) ((gs.map some).foldlM (collectToolCall grow) c) := by
  induction gs generalizing fs c with
  | nil =>
    rw [List.append_nil]
    exact ⟨hfs, hc⟩
  | cons g gs ih =>
    have hstep := collectToolCall_collects hc hfs (hgs g (by simp))
    rw [List.map_cons, List.foldlM_cons]
    rw [show fs ++ g :: gs = fs ++ [g] ++ gs by simp]
    rcases hg : collectToolCall grow c (some g) with _ | c'
    · rw [hg] at hstep
      exact fun hpanic => hstep hpanic.left
    · rw [hg] at hstep
      exact ih (fun h hh => hgs h (by simp [hh])) hstep.2 hstep.1

/-- **One chunk.** -/
theorem collectChunk_reached {chunk : Chunk} (hchunk : chunk.HasIndices)
    (hc : Collects grow fs (count 0 fs) c) (hfs : NoPanic grow fs) :
    Reached grow (fs ++ chunk.fragments) (collectChunk grow c chunk) := by
  obtain ⟨delta, hdelta, hcalls⟩ := hchunk
  have hfragments : delta.toolCalls.getD [] = chunk.fragments.map some := by
    rw [Chunk.fragments, hdelta, Option.bind_some]
    generalize delta.toolCalls.getD [] = toolCalls at hcalls
    induction toolCalls with
    | nil => rfl
    | cons toolCall toolCalls ih =>
      obtain ⟨f, rfl, -⟩ := hcalls toolCall (by simp)
      rw [List.reduceOption_cons_of_some, List.map_cons,
        ← ih fun toolCall hmem => hcalls toolCall (by simp [hmem])]
  have hindexed : ∀ f ∈ chunk.fragments, f.HasIndex := by
    intro f hf
    obtain ⟨g, hg, hindexed⟩ := hcalls (some f) (by simp [hfragments, hf])
    obtain rfl := Option.some.inj hg
    exact hindexed
  have hindex : chunk.getDeltaByIndex 0 = some delta := hdelta
  simp only [collectChunk, Chunk.getDeltaRole, Chunk.getDeltaRoleByIndex, Chunk.getDeltaContent,
    Chunk.getDeltaContentByIndex, Chunk.getToolCalls, Chunk.getToolCallsByIndex, hindex,
    Option.map_some, Option.bind_eq_bind, Option.bind_some]
  rcases hsome : delta.toolCalls with _ | toolCalls
  · have hnone : chunk.fragments = [] := by simpa [hsome] using hfragments
    rw [hnone, List.append_nil]
    refine ⟨hfs, hc.congr ?_ ?_⟩ <;> split_ifs <;> rfl
  · obtain rfl : toolCalls = chunk.fragments.map some := by simpa [hsome] using hfragments
    apply foldlM_collectToolCall_reached chunk.fragments hindexed _ hfs
    refine hc.congr ?_ ?_ <;> split_ifs <;> rfl

/-- **All chunks.** -/
theorem foldlM_collectChunk_reached (chunks : List Chunk)
    (hchunks : ∀ chunk ∈ chunks, chunk.HasIndices)
    (hc : Collects grow fs (count 0 fs) c) (hfs : NoPanic grow fs) :
    Reached grow (fs ++ chunks.flatMap Chunk.fragments) (chunks.foldlM (collectChunk grow) c) := by
  induction chunks generalizing fs c with
  | nil =>
    rw [List.flatMap_nil, List.append_nil]
    exact ⟨hfs, hc⟩
  | cons chunk chunks ih =>
    have hstep := collectChunk_reached (hchunks chunk (by simp)) hc hfs
    rw [List.flatMap_cons, List.foldlM_cons, ← List.append_assoc]
    rcases hchunk : collectChunk grow c chunk with _ | c'
    · rw [hchunk] at hstep
      exact fun hpanic => hstep hpanic.left
    · rw [hchunk] at hstep
      exact ih (fun d hd => hchunks d (by simp [hd])) hstep.2 hstep.1

/-! ## The loop at the end -/

/-- The arguments are given if every entry has a function. -/
theorem giveArguments_map (is : List ℕ) (ws : List (ℕ × ℕ))
    (h : ∀ i ∈ is, functionCalls (piecesFor fs i) ≠ []) :
    giveArguments (is.map fun i => assemble (piecesFor fs i))
        (is.map fun i => builderFor ws (piecesFor fs i) i) =
      some (is.map fun i =>
        { assemble (piecesFor fs i) with
          function := some ⟨firstNonEmpty ((functionCalls (piecesFor fs i)).map (·.name)),
            joinArguments (piecesFor fs i)⟩ }) := by
  induction is with
  | nil => rfl
  | cons i is ih =>
    rw [List.map_cons, List.map_cons, giveArguments, ih fun j hj => h j (by simp [hj])]
    simp [assemble, h i (by simp), builderFor]

/-- One entry without a function is enough for a panic. -/
theorem giveArguments_none (is : List ℕ) (builders : List Builder) {i : ℕ} (hi : i ∈ is)
    (h : functionCalls (piecesFor fs i) = []) :
    giveArguments (is.map fun i => assemble (piecesFor fs i)) builders = none := by
  induction is generalizing builders with
  | nil => nomatch hi
  | cons j is ih =>
    rcases builders with _ | ⟨builder, builders⟩
    · rfl
    · rw [List.map_cons, giveArguments]
      rcases List.mem_cons.mp hi with rfl | hi
      · simp [assemble, h]
      · rw [ih builders hi]
        rcases (assemble (piecesFor fs j)).function with _ | function <;> rfl

/-- The message has the entries that were given their arguments. -/
theorem message_eq_some {toolCalls : List ToolCall}
    (h : giveArguments c.entries c.toolCallArgumentsBuilders.elems = some toolCalls) :
    ∃ message, c.message = some message ∧ message.toolCalls.getD [] = toolCalls.map some := by
  refine ⟨_, by rw [Collecting.message, h]; rfl, ?_⟩
  rcases hnone : c.toolCalls with _ | entries
  · have hentries : c.entries = [] := by simp [Collecting.entries, hnone]
    rw [hentries] at h
    obtain rfl := Option.some.inj h
    rfl
  · rfl

/-- **What is given out**, when all fragments have been collected. -/
theorem Collects.assembles (hc : Collects grow fs (count 0 fs) c)
    (h : ∀ i < count 0 fs, functionCalls (piecesFor fs i) ≠ []) :
    ∃ message, c.message = some message ∧ Assembles fs message := by
  have hgiven := giveArguments_map (List.range (count 0 fs)) (writes grow 0 fs)
    fun i hi => h i (List.mem_range.mp hi)
  rw [← hc.entries, ← hc.elems] at hgiven
  obtain ⟨message, hmessage, htoolCalls⟩ := message_eq_some hgiven
  refine ⟨message, hmessage, ?_, ?_⟩
  · intro f hf
    rw [htoolCalls]
    simpa using place_lt_count 0 fs hf
  · intro i toolCall hentry
    rw [htoolCalls, List.map_map, List.getElem?_map, List.getElem?_range] at hentry
    · obtain rfl := Option.some.inj hentry
      exact ⟨_, rfl, rfl, rfl, rfl, rfl⟩
    · by_contra hlen
      rw [List.getElem?_eq_none (by simpa using hlen)] at hentry
      nomatch hentry

theorem Collects.message_none (hc : Collects grow fs (count 0 fs) c) {i : ℕ}
    (hi : i < count 0 fs) (h : functionCalls (piecesFor fs i) = []) : c.message = none := by
  have hnone := giveArguments_none _ c.toolCallArgumentsBuilders.elems
    (List.mem_range.mpr hi) h
  rw [← hc.entries] at hnone
  simp [Collecting.message, hnone]

end Collects

/-- **The tool calls are assembled exactly when their fragments are orderly.** -/
theorem assembled_iff (grow : ℕ → ℕ) (chunks : List Chunk)
    (hchunks : ∀ chunk ∈ chunks, chunk.HasIndices) :
    Assembled grow chunks ↔ Orderly grow (chunks.flatMap Chunk.fragments) := by
  have hrun := foldlM_collectChunk_reached chunks hchunks (collects_init : Collects grow [] 0 .init)
    ⟨trivial, fun _ h => by nomatch h⟩
  rw [List.nil_append] at hrun
  rw [Assembled, collectMessage]
  generalize chunks.foldlM (collectChunk grow) .init = result at hrun
  rcases result with _ | c
  · constructor
    · rintro ⟨message, hnone, -⟩
      nomatch hnone
    · intro horderly
      exact absurd ⟨horderly.noGaps, horderly.oneArray⟩ hrun
  · obtain ⟨hpanic, hc⟩ := hrun
    constructor
    · rintro ⟨message, hmessage, -⟩
      refine ⟨hpanic.1, hpanic.2, ?_⟩
      intro i hi hnone
      rw [Option.bind_eq_bind, Option.bind_some, hc.message_none hi hnone] at hmessage
      nomatch hmessage
    · intro horderly
      exact hc.assembles horderly.functions

/-! ## A slice that doubles -/

/-- The room that `append` makes in a slice of at most 256 builders. -/
def doubling (cap : ℕ) : ℕ := if cap = 0 then 1 else 2 * cap

/-- A chunk with one fragment. -/
def Chunk.ofFragment (index name arguments : String) : Chunk :=
  ⟨[⟨"0", some { Message.zero with
    toolCalls := some [some ⟨index, "", "function", some ⟨name, arguments⟩⟩] }, ""⟩]⟩

/-- One call after the other. -/
theorem assembled_iff_twice : Assembled doubling
    [.ofFragment "0" "f" "(", .ofFragment "0" "" ")", .ofFragment "1" "g" "()"] := by
  refine (assembled_iff doubling _ ?_).mpr ⟨by decide, by decide, by decide⟩
  intro chunk hchunk
  fin_cases hchunk <;>
  · refine ⟨_, rfl, ?_⟩
    intro toolCall htoolCall
    obtain rfl : toolCall = _ := List.mem_singleton.mp htoolCall
    exact ⟨_, rfl, by decide, by decide⟩

/-- Two calls in turns, where the first builder is moved when the second one is made; a call with
index 1 before there is one with index 0; a call without a function. -/
theorem disorderly_panics :
    collectMessage doubling
      [.ofFragment "0" "f" "(", .ofFragment "1" "g" "(", .ofFragment "0" "" ")"] = none ∧
    collectMessage doubling [.ofFragment "1" "g" "()"] = none ∧
    collectMessage doubling [⟨[⟨"0", some { Message.zero with
      toolCalls := some [some ⟨"0", "id", "function", none⟩] }, ""⟩]⟩] = none := by
  refine ⟨?_, ?_, ?_⟩ <;> rfl

end Accumulation.Kimi
