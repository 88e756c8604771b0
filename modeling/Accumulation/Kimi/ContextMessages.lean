/-
# Accumulation.Kimi.ContextMessages — what comes back when a conversation is stored and scanned.

`Message.stored` says what a message becomes on the way through `Value` and `Scan`, and `scan_value`
that this is so for every conversation whose indexes are integers.  Texts and parts come back as
they were.  Cache options do not: they are written as a string, and a string is read as a text.  An
index comes back as the same integer, in the spelling of `strconv.Itoa`.
-/
import Accumulation.Kimi.Dto

namespace Accumulation.Kimi

open Accumulation.Lib

variable {α β : Type}

/-! ## What comes back -/

def Content.stored (c : Content) : Option Content :=
  if c.text ≠ "" then some { Content.zero with text := c.text }
  else match c.cache, c.parts with
    | some options, _ => some { Content.zero with text := options.build }
    | none, some parts => some { Content.zero with parts := some parts }
    | none, none => none

/-- The same integer, in the spelling of `strconv.Itoa`. -/
def respell (index : String) : String :=
  match atoi index with
  | some n => itoa n
  | none => index

def ToolCall.stored (call : ToolCall) : ToolCall := { call with index := respell call.index }

def ToolCalls.stored (calls : ToolCalls) : ToolCalls :=
  match calls.getD [] with
  | [] => none
  | calls => some (calls.map (Option.map ToolCall.stored))

def Message.stored (m : Message) : Message :=
  { m with content := m.content.bind Content.stored, toolCalls := m.toolCalls.stored }

def ContextMessages.stored (messages : ContextMessages) : ContextMessages :=
  messages.map fun ms => ms.map (Option.map Message.stored)

/-! ## Structs -/

/-- What a value was written as is read as another, over what was there before. -/
def Reads (decode : Decoder β) (old : β) (val : Except DtoError Json) (b : β) : Prop :=
  ∃ j, val = .ok j ∧ decode old j = .ok b

/-- Members of an object that take a struct from one state to another. -/
def Fills (fields : List (String × Decoder α)) (a : α)
    (members : Except DtoError (List (String × Json))) (b : α) : Prop :=
  ∃ ms, members = .ok ms ∧ ms.foldlM (decodeMember fields) a = .ok b

/-- A member goes into the field of its name. -/
theorem fills_member {fields : List (String × Decoder α)} {key : String} {decode : Decoder β}
    {get : α → β} {set : α → β → α}
    (hkey : fields.lookup (foldName key) = some (setter decode get set)) {a b : α} {v : β}
    {val : Except DtoError Json} (h : Reads decode (get a) val v) (hset : set a v = b) :
    Fills fields a (member key val) b := by
  rcases h with ⟨j, rfl, hj⟩
  refine ⟨[(key, j)], rfl, ?_⟩
  show (decodeMember fields a (key, j)).bind pure = _
  rw [decodeMember, hkey]
  show ((decode (get a) j).map (set a)).bind pure = _
  rw [hj, ← hset]
  rfl

/-- A member that is omitted leaves its field as it was, which is empty. -/
theorem fills_omitempty {fields : List (String × Decoder α)} {key : String} {decode : Decoder β}
    {get : α → β} {set : α → β → α}
    (hkey : fields.lookup (foldName key) = some (setter decode get set)) {a b : α} {v : β}
    {isEmpty : Bool} {val : Except DtoError Json}
    (h : isEmpty = false → Reads decode (get a) val v) (hempty : isEmpty = true → set a v = a)
    (hset : set a v = b) : Fills fields a (omitempty isEmpty key val) b := by
  cases isEmpty with
  | false => exact fills_member hkey (h rfl) hset
  | true =>
    refine ⟨[], rfl, ?_⟩
    rw [← hset, hempty rfl]
    rfl

/-- A string field with the option `omitempty`. -/
theorem fills_string {fields : List (String × Decoder α)} {key : String} {get : α → String}
    {set : α → String → α}
    (hkey : fields.lookup (foldName key) = some (setter decodeString get set)) {a b : α}
    {s : String} (hempty : set a "" = a) (hset : set a s = b) :
    Fills fields a (omitempty (s == "") key (marshalString s)) b := by
  apply fills_omitempty hkey (fun _ => ⟨.string s, rfl, rfl⟩) _ hset
  intro hs
  rw [beq_iff_eq.mp hs, hempty]

/-- The members of a struct, one after another. -/
inductive Chain (fields : List (String × Decoder α)) :
    α → List (Except DtoError (List (String × Json))) → α → Prop
  | nil (a : α) : Chain fields a [] a
  | cons {a b c : α} {m : Except DtoError (List (String × Json))}
      {ms : List (Except DtoError (List (String × Json)))} (h : Fills fields a m b)
      (hms : Chain fields b ms c) : Chain fields a (m :: ms) c

theorem Chain.foldlM {fields : List (String × Decoder α)} {a b : α}
    {members : List (Except DtoError (List (String × Json)))} (h : Chain fields a members b) :
    ∃ ms, members.mapM id = .ok ms ∧ ms.flatten.foldlM (decodeMember fields) a = .ok b := by
  induction h with
  | nil a => exact ⟨[], rfl, rfl⟩
  | cons hm _ ih =>
    rcases hm with ⟨m, rfl, hm⟩
    rcases ih with ⟨ms, hms, hfold⟩
    refine ⟨m :: ms, ?_, ?_⟩
    · rw [List.mapM_cons, hms]
      rfl
    · rw [List.flatten_cons, List.foldlM_append, hm]
      exact hfold

/-! ## Pointers and slices -/

/-- **A struct behind a pointer** that was nil is read from an object whose members fill it. -/
theorem Chain.reads {fields : List (String × Decoder α)} {zero a : α}
    {members : List (Except DtoError (List (String × Json)))} (h : Chain fields zero members a) :
    Reads (decodePtr zero (decodeStruct fields)) none (object members) (some a) := by
  rcases h.foldlM with ⟨ms, hms, hfold⟩
  refine ⟨.object ms.flatten, ?_, ?_⟩
  · rw [object, hms]
    rfl
  · show (ms.flatten.foldlM (decodeMember fields) zero).map some = _
    rw [hfold]
    rfl

/-- A pointer is read as what it points to is, and nil as nil. -/
theorem reads_ptr {marshal : α → Except DtoError Json} {decode : Decoder β} {zero : β}
    {p : Option α} {f : α → β}
    (h : ∀ a ∈ p, Reads (decodePtr zero decode) none (marshal a) (some (f a))) :
    Reads (decodePtr zero decode) none (marshalPtr marshal p) (p.map f) := by
  cases p with
  | none => exact ⟨.null, rfl, rfl⟩
  | some a => exact h a rfl

/-- A slice that is not nil is written as an array, and read as its elements are. -/
theorem reads_array {marshal : α → Except DtoError Json} {decode : Decoder β} {zero : β}
    {f : α → β} {as : List α} (h : ∀ a ∈ as, Reads decode zero (marshal a) (f a)) :
    ∃ js, marshalSlice marshal (some as) = .ok (.array js) ∧
      decodeSlice zero decode none (.array js) = .ok (some (as.map f)) := by
  have helems : ∃ js, as.mapM marshal = .ok js ∧
      decodeElems zero decode [] js = .ok (as.map f) := by
    induction as with
    | nil => exact ⟨[], rfl, rfl⟩
    | cons a as ih =>
      rcases h a List.mem_cons_self with ⟨j, hj, ha⟩
      rcases ih fun b hb => h b (List.mem_cons_of_mem a hb) with ⟨js, hjs, has⟩
      refine ⟨j :: js, ?_, ?_⟩
      · rw [List.mapM_cons, hj, hjs]
        rfl
      · -- a fresh slice has no elements to decode into
        show (decode zero j).bind (fun elem => (decodeElems zero decode [] js).bind _) = _
        rw [ha, has]
        rfl
  rcases helems with ⟨js, hjs, has⟩
  refine ⟨js, ?_, ?_⟩
  · show (as.mapM marshal).map _ = _
    rw [hjs]
    rfl
  · show (decodeElems zero decode [] js).map some = _
    rw [has]
    rfl

/-! ## Parts and contents -/

theorem ImageUrl.reads (image : ImageUrl) :
    Reads (decodePtr zero (decodeStruct fields)) none image.marshal (some image) := by
  apply Chain.reads
  apply Chain.cons (fills_member rfl ⟨_, rfl, rfl⟩ rfl)
  exact Chain.cons (fills_string rfl rfl rfl) (Chain.nil _)

theorem Part.reads (part : Part) :
    Reads (decodePtr zero (decodeStruct fields)) none part.marshal (some part) := by
  apply Chain.reads
  apply Chain.cons (fills_member rfl ⟨_, rfl, rfl⟩ rfl)
  apply Chain.cons (fills_string rfl rfl rfl)
  refine Chain.cons (fills_omitempty rfl (v := part.imageUrl) ?_ ?_ rfl) (Chain.nil _)
  · intro _
    have himage := reads_ptr (p := part.imageUrl) (f := id) fun image _ => image.reads
    rw [Option.map_id] at himage
    exact himage
  · intro hnone
    rw [Option.isNone_iff_eq_none.mp hnone]
    rfl

theorem Parts.reads (parts : List (Option Part)) :
    ∃ js, Parts.marshal (some parts) = .ok (.array js) ∧
      Parts.decode none (.array js) = .ok (some parts) := by
  have hparts : ∀ p ∈ parts,
      Reads (decodePtr .zero (decodeStruct Part.fields)) none (marshalPtr Part.marshal p)
        (p.map id) :=
    fun p _ => reads_ptr fun part _ => part.reads
  have harray := reads_array hparts
  rw [Option.map_id_fun, List.map_id] at harray
  exact harray

/-- **A content** comes back as `stored` says. -/
theorem Content.reads (c : Content) :
    Reads (decodePtr zero unmarshalJSON) none c.marshalJSON c.stored := by
  unfold stored
  by_cases htext : c.text = ""
  · rw [if_neg (not_not_intro htext)]
    cases hcache : c.cache with
    | some options =>
      refine ⟨.string options.build, ?_, rfl⟩
      rw [marshalJSON, if_neg (fun h => by rw [hcache] at h; exact nomatch h.2.2),
        if_neg (not_not_intro htext), hcache]
    | none =>
      cases hparts : c.parts with
      | none =>
        refine ⟨.null, ?_, rfl⟩
        rw [marshalJSON, if_pos ⟨htext, hparts, hcache⟩]
      | some parts =>
        rcases Parts.reads parts with ⟨js, hjs, hback⟩
        refine ⟨.array js, ?_, ?_⟩
        · rw [marshalJSON, if_neg (fun h => by rw [hparts] at h; exact nomatch h.2.1),
            if_neg (not_not_intro htext), hcache, hparts]
          exact hjs
        · show ((Parts.decode none (.array js)).map _).map some = _
          rw [hback]
          rfl
  · rw [if_pos htext]
    refine ⟨.string c.text, ?_, rfl⟩
    rw [marshalJSON, if_neg (fun h => htext h.1), if_pos htext]

/-! ## Tool calls -/

/-- An index that `strconv.Atoi` takes is read back in the spelling of `strconv.Itoa`. -/
theorem NullableType.reads {index : String} {n : ℤ} (hne : index ≠ "")
    (hn : atoi index = some n) :
    Reads (unmarshalJSON (T := .int)) "" (marshalJSON (T := .int) index) (itoa n) := by
  refine ⟨.number (.ofInt n), ?_, ?_⟩
  · show (if index = "" then _ else _) = _
    rw [if_neg hne, hn]
  · -- what `strconv.Itoa` spells is in range, because `n` was
    have hrange := (Option.filter_eq_some_iff.mp hn).2
    have hparse : parseInt (Decimal.spell n) = some n := by
      rw [parseInt, Decimal.read_spell]
      exact Option.filter_eq_some_iff.mpr ⟨rfl, hrange⟩
    show (if (parseInt (Decimal.spell n)).isSome then _ else _) = _
    rw [hparse]
    rfl

theorem FunctionCall.reads (call : FunctionCall) :
    Reads (decodePtr zero (decodeStruct fields)) none call.marshal (some call) := by
  apply Chain.reads
  apply Chain.cons (fills_member rfl ⟨_, rfl, rfl⟩ rfl)
  exact Chain.cons (fills_member rfl ⟨_, rfl, rfl⟩ rfl) (Chain.nil _)

/-- The index is null or an integer. -/
def ToolCall.Indexed (call : ToolCall) : Prop :=
  NullableType.isNull (T := .int) call.index = true ∨ (atoi call.index).isSome = true

instance (call : ToolCall) : Decidable call.Indexed := inferInstanceAs (Decidable (_ ∨ _))

theorem ToolCall.reads {call : ToolCall} (h : call.Indexed) :
    Reads (decodePtr zero (decodeStruct fields)) none call.marshal (some call.stored) := by
  apply Chain.reads
  have hindex : Fills fields zero
      (omitempty (call.index == "") "index" (NullableType.marshalJSON (T := .int) call.index))
      { zero with index := respell call.index } := by
    refine fills_omitempty rfl (v := respell call.index) ?_ ?_ rfl
    · intro hne
      rcases h with hnull | hsome
      · rw [show (call.index == "") = true from hnull] at hne
        cases hne
      · rcases Option.isSome_iff_exists.mp hsome with ⟨n, hn⟩
        rw [respell, hn]
        exact NullableType.reads (beq_eq_false_iff_ne.mp hne) hn
    · intro hnull
      rw [beq_iff_eq.mp hnull]
      rfl
  apply Chain.cons hindex
  apply Chain.cons (fills_member rfl ⟨_, rfl, rfl⟩ rfl)
  apply Chain.cons (fills_member rfl ⟨_, rfl, rfl⟩ rfl)
  have hfunction : Reads (decodePtr .zero (decodeStruct FunctionCall.fields)) none
      (marshalPtr FunctionCall.marshal call.function) (call.function.map fun f => f) :=
    reads_ptr fun function _ => function.reads
  rw [Option.map_id'] at hfunction
  exact Chain.cons (fills_member rfl hfunction rfl) (Chain.nil _)

/-! ## Messages -/

/-- The tool calls of a message, less nil pointers. -/
def Message.calls (m : Message) : List ToolCall := (m.toolCalls.getD []).reduceOption

theorem ToolCalls.reads {calls : ToolCalls}
    (h : ∀ call ∈ (calls.getD []).reduceOption, call.Indexed)
    (hne : (calls.getD []).isEmpty = false) :
    Reads ToolCalls.decode none calls.marshal calls.stored := by
  cases calls with
  | none => cases hne
  | some calls =>
    cases calls with
    | nil => cases hne
    | cons p ps =>
      have hcalls : ∀ q ∈ p :: ps, Reads (decodePtr .zero (decodeStruct ToolCall.fields)) none
          (marshalPtr ToolCall.marshal q) (q.map ToolCall.stored) := by
        intro q hq
        apply reads_ptr
        rintro call rfl
        exact ToolCall.reads (h call (List.reduceOption_mem_iff.mpr hq))
      rcases reads_array hcalls with ⟨js, hjs, hback⟩
      exact ⟨.array js, hjs, hback⟩

theorem Message.reads {m : Message} (h : ∀ call ∈ m.calls, call.Indexed) :
    Reads (decodePtr zero (decodeStruct fields)) none m.marshal (some m.stored) := by
  apply Chain.reads
  apply Chain.cons (fills_member rfl ⟨_, rfl, rfl⟩ rfl)
  have hcontent : Reads (decodePtr .zero Content.unmarshalJSON) none
      (marshalPtr Content.marshalJSON m.content) (m.content.bind Content.stored) := by
    cases m.content with
    | none => exact ⟨.null, rfl, rfl⟩
    | some c => exact c.reads
  refine Chain.cons (fills_omitempty rfl (fun _ => hcontent) ?_ rfl) ?_
  · intro hnone
    rw [Option.isNone_iff_eq_none.mp hnone]
    rfl
  apply Chain.cons (fills_string rfl rfl rfl)
  apply Chain.cons (fills_string rfl rfl rfl)
  refine Chain.cons (fills_omitempty rfl (v := m.toolCalls.stored) ?_ ?_ rfl) (Chain.nil _)
  · intro hne
    exact ToolCalls.reads h hne
  · intro hempty
    rw [ToolCalls.stored, List.isEmpty_iff.mp hempty]
    rfl

/-- The messages of a conversation, less nil pointers. -/
def ContextMessages.list (messages : ContextMessages) : List Message :=
  (messages.getD []).reduceOption

/-- **What is scanned** is what `stored` says. -/
theorem ContextMessages.scan_value {messages : ContextMessages}
    (h : ∀ m ∈ messages.list, ∀ call ∈ m.calls, call.Indexed) :
    ∃ text, messages.value = .ok text ∧ scan none (.string text) = .ok messages.stored := by
  have hjson : Reads decode none (marshalSlice (marshalPtr Message.marshal) messages)
      messages.stored := by
    cases messages with
    | none => exact ⟨.null, rfl, rfl⟩
    | some ms =>
      have hms : ∀ p ∈ ms, Reads (decodePtr .zero (decodeStruct Message.fields)) none
          (marshalPtr Message.marshal p) (p.map Message.stored) := by
        intro p hp
        apply reads_ptr
        rintro m rfl
        exact Message.reads (h m (List.reduceOption_mem_iff.mpr hp))
      rcases reads_array hms with ⟨js, hjs, hback⟩
      exact ⟨.array js, hjs, hback⟩
  rcases hjson with ⟨j, hj, hback⟩
  refine ⟨Json.marshalIndent j, ?_, ?_⟩
  · rw [value, hj]
    rfl
  · simp only [scan, Json.unmarshal_marshalIndent]
    exact hback

/-! ## What stays the same -/

/-- Exactly one of a non-empty text, parts and cache options is set. -/
def Content.OneSet (c : Content) : Prop :=
  (c.text ≠ "" ∧ c.parts = none ∧ c.cache = none) ∨
  (c.text = "" ∧ c.parts ≠ none ∧ c.cache = none) ∨
  (c.text = "" ∧ c.parts = none ∧ c.cache ≠ none)

instance (c : Content) : Decidable c.OneSet := inferInstanceAs (Decidable (_ ∨ _ ∨ _))

/-- The conversations that are meant to be stored. -/
structure ContextMessages.Storable (messages : ContextMessages) : Prop where
  oneSet : ∀ m ∈ messages.list, ∀ c ∈ m.content, c.OneSet
  indexed : ∀ m ∈ messages.list, ∀ call ∈ m.calls, call.Indexed

/-- Two indexes are both null or denote the same integer. -/
def SameInteger (index index' : String) : Prop :=
  (index = "" ↔ index' = "") ∧ atoi index = atoi index'

/-- Two tool calls are the same, up to how indexes are compared. -/
structure ToolCall.Same (SameIndex : String → String → Prop) (call call' : ToolCall) : Prop where
  index : SameIndex call.index call'.index
  id : call.id = call'.id
  type : call.type = call'.type
  function : call.function = call'.function

/-- Two messages are the same; a nil slice of tool calls is as good as an empty one. -/
structure Message.Same (SameIndex : String → String → Prop) (m m' : Message) : Prop where
  role : m.role = m'.role
  content : m.content = m'.content
  name : m.name = m'.name
  toolCallID : m.toolCallID = m'.toolCallID
  toolCalls : List.Forall₂ (Option.Rel (ToolCall.Same SameIndex)) (m.toolCalls.getD [])
    (m'.toolCalls.getD [])

namespace ContextMessages

def Same (SameIndex : String → String → Prop) (messages messages' : ContextMessages) : Prop :=
  Option.Rel (List.Forall₂ (Option.Rel (Message.Same SameIndex))) messages messages'

/-- The string that `Value` returns is scanned into the same conversation. -/
def ComesBack (SameIndex : String → String → Prop) (messages : ContextMessages) : Prop :=
  ∃ text back, messages.value = .ok text ∧ scan none (.string text) = .ok back ∧
    Same SameIndex messages back

/-- No message has cache options. -/
def Uncached (messages : ContextMessages) : Prop :=
  ∀ m ∈ messages.list, ∀ c ∈ m.content, c.cache = none

instance (messages : ContextMessages) : Decidable messages.Uncached :=
  inferInstanceAs (Decidable (∀ m ∈ messages.list, ∀ c ∈ m.content, c.cache = none))

/-- Every index is spelled as `strconv.Itoa` spells it. -/
def Spelled (messages : ContextMessages) : Prop :=
  ∀ m ∈ messages.list, ∀ call ∈ m.calls, ∀ n, atoi call.index = some n → call.index = itoa n

end ContextMessages

/-- A list of pointers is the same as its image where every pointer is. -/
theorem forall₂_map_option {R : α → α → Prop} {f : α → α} {as : List (Option α)} :
    List.Forall₂ (Option.Rel R) as (as.map (Option.map f)) ↔ ∀ a ∈ as.reduceOption, R a (f a) := by
  rw [List.forall₂_map_right_iff, List.forall₂_same]
  constructor
  · intro h a ha
    have hrel := h (some a) (List.reduceOption_mem_iff.mp ha)
    cases hrel with
    | some hR => exact hR
  · intro h p hp
    cases p with
    | none => exact .none
    | some a => exact .some (h a (List.reduceOption_mem_iff.mpr hp))

/-- A content with one thing set comes back, unless that is its cache options. -/
theorem Content.stored_eq_self_iff {c : Content} (h : c.OneSet) :
    c.stored = some c ↔ c.cache = none := by
  rcases c with ⟨text, parts, cache⟩
  rcases h with ⟨htext, hparts, hcache⟩ | ⟨htext, hparts, hcache⟩ | ⟨htext, hparts, hcache⟩
  · dsimp only at htext hparts hcache
    subst hparts hcache
    rw [stored, if_pos htext]
    exact iff_of_true rfl rfl
  · dsimp only at htext hparts hcache
    subst htext hcache
    cases parts with
    | none => exact absurd rfl hparts
    | some parts => exact iff_of_true rfl rfl
  · dsimp only at htext hparts hcache
    subst htext hparts
    cases cache with
    | none => exact absurd rfl hcache
    | some options =>
      refine iff_of_false ?_ nofun
      intro heq
      cases congrArg (Option.map Content.cache) heq

theorem respell_eq_self_iff {index : String} :
    index = respell index ↔ ∀ n, atoi index = some n → index = itoa n := by
  unfold respell
  cases atoi index with
  | none => exact iff_of_true rfl nofun
  | some n =>
    constructor
    · rintro h m hm
      rw [← Option.some.inj hm]
      exact h
    · intro h
      exact h n rfl

instance (messages : ContextMessages) : Decidable messages.Spelled :=
  decidable_of_iff (∀ m ∈ messages.list, ∀ call ∈ m.calls, call.index = respell call.index)
    (forall₂_congr fun _ _ => forall₂_congr fun _ _ => respell_eq_self_iff)

/-- Spelling an integer anew does not change it. -/
theorem sameInteger_respell (index : String) : SameInteger index (respell index) := by
  unfold respell
  cases h : atoi index with
  | none => exact ⟨Iff.rfl, rfl⟩
  | some n =>
    have hitoa : atoi (itoa n) = some n := by
      rw [atoi, itoa, String.toList_ofList, parseInt, Decimal.read_spell]
      exact Option.filter_eq_some_iff.mpr ⟨rfl, (Option.filter_eq_some_iff.mp h).2⟩
    refine ⟨iff_of_false ?_ ?_, h.trans hitoa.symm⟩
    · rintro rfl
      cases h
    · intro hempty
      rw [show itoa n = "" from hempty] at hitoa
      cases hitoa

theorem ToolCalls.getD_stored (calls : ToolCalls) :
    calls.stored.getD [] = (calls.getD []).map (Option.map ToolCall.stored) := by
  unfold stored
  cases calls.getD [] with
  | nil => rfl
  | cons p ps => rfl

theorem Message.same_stored_iff {SameIndex : String → String → Prop} {m : Message}
    (h : ∀ c ∈ m.content, c.OneSet) :
    m.Same SameIndex m.stored ↔ (∀ c ∈ m.content, c.cache = none) ∧
      ∀ call ∈ m.calls, SameIndex call.index (respell call.index) := by
  have hcontent : m.content = m.stored.content ↔ ∀ c ∈ m.content, c.cache = none := by
    show m.content = m.content.bind Content.stored ↔ _
    cases hc : m.content with
    | none => exact iff_of_true rfl nofun
    | some c =>
      have hstored := Content.stored_eq_self_iff (h c hc)
      constructor
      · rintro heq d hd
        rw [← Option.some.inj hd]
        exact hstored.mp heq.symm
      · intro hcache
        exact (hstored.mpr (hcache c rfl)).symm
  have hcalls : List.Forall₂ (Option.Rel (ToolCall.Same SameIndex)) (m.toolCalls.getD [])
      (m.stored.toolCalls.getD []) ↔
        ∀ call ∈ m.calls, SameIndex call.index (respell call.index) := by
    show List.Forall₂ _ _ (m.toolCalls.stored.getD []) ↔ _
    rw [ToolCalls.getD_stored, forall₂_map_option]
    -- nothing but the index of a tool call changes
    constructor
    · intro hsame call hcall
      exact (hsame call hcall).index
    · intro hindex call hcall
      exact ⟨hindex call hcall, rfl, rfl, rfl⟩
  constructor
  · intro hsame
    exact ⟨hcontent.mp hsame.content, hcalls.mp hsame.toolCalls⟩
  · rintro ⟨huncached, hindex⟩
    exact ⟨rfl, hcontent.mpr huncached, rfl, rfl, hcalls.mpr hindex⟩

namespace ContextMessages

/-- The conversation comes back if and only if each message is what it is stored as. -/
theorem comesBack_iff_same {SameIndex : String → String → Prop} {messages : ContextMessages}
    (h : messages.Storable) :
    messages.ComesBack SameIndex ↔ ∀ m ∈ messages.list, m.Same SameIndex m.stored := by
  have hsame : messages.Same SameIndex messages.stored ↔
      ∀ m ∈ messages.list, m.Same SameIndex m.stored := by
    cases messages with
    | none => exact iff_of_true .none nofun
    | some ms =>
      show Option.Rel _ (some ms) (some (ms.map (Option.map Message.stored))) ↔ _
      rw [Option.rel_some_some, forall₂_map_option]
      exact Iff.rfl
  rcases scan_value h.indexed with ⟨text, hvalue, hscan⟩
  rw [← hsame]
  constructor
  · rintro ⟨text', back, hvalue', hscan', hback⟩
    obtain rfl := Except.ok.inj (hvalue.symm.trans hvalue')
    obtain rfl := Except.ok.inj (hscan.symm.trans hscan')
    exact hback
  · intro hback
    exact ⟨text, messages.stored, hvalue, hscan, hback⟩

/-- **A stored conversation comes back** if and only if no message has cache options; and its
indexes come back as strings, not just as integers, if they are spelled as `strconv.Itoa` does. -/
theorem comesBack_iff {messages : ContextMessages} (h : messages.Storable) :
    (messages.ComesBack SameInteger ↔ messages.Uncached) ∧
      (messages.ComesBack (· = ·) ↔ messages.Uncached ∧ messages.Spelled) := by
  rw [comesBack_iff_same h, comesBack_iff_same h]
  constructor
  · constructor
    · intro hsame m hm
      exact ((Message.same_stored_iff (h.oneSet m hm)).mp (hsame m hm)).1
    · intro huncached m hm
      rw [Message.same_stored_iff (h.oneSet m hm)]
      exact ⟨huncached m hm, fun call _ => sameInteger_respell call.index⟩
  · constructor
    · intro hsame
      refine ⟨fun m hm => ?_, fun m hm call hcall => ?_⟩
      · exact ((Message.same_stored_iff (h.oneSet m hm)).mp (hsame m hm)).1
      · have hindex := ((Message.same_stored_iff (h.oneSet m hm)).mp (hsame m hm)).2 call hcall
        exact respell_eq_self_iff.mp hindex
    · rintro ⟨huncached, hspelled⟩ m hm
      rw [Message.same_stored_iff (h.oneSet m hm)]
      exact ⟨huncached m hm, fun call hcall => respell_eq_self_iff.mpr (hspelled m hm call hcall)⟩

/-- A question, and a call of a tool, with an index. -/
theorem comesBack_question :
    ComesBack (· = ·) (some [some ⟨"user", some ⟨"2 + 2?", none, none⟩, "", "", none⟩,
      some ⟨"assistant", none, "", "", some [some ⟨"0", "c1", "function", some ⟨"add", "[2, 2]"⟩⟩]⟩,
      none]) :=
  (comesBack_iff ⟨by decide, by decide⟩).2.mpr ⟨by decide, by decide⟩

/-- Cache options come back as a text. -/
theorem cache_comes_back_as_text :
    let messages : ContextMessages :=
      some [some ⟨"cache", some ⟨"", none, some ⟨"c1", 60⟩⟩, "", "", none⟩]
    messages.Storable ∧ ¬messages.ComesBack SameInteger ∧
      ∃ text, messages.value = .ok text ∧ scan none (.string text) = .ok (some
        [some ⟨"cache", some ⟨"cache_id=c1;reset_ttl=60", none, none⟩, "", "", none⟩]) := by
  intro messages
  have hstorable : messages.Storable := ⟨by decide, by decide⟩
  refine ⟨hstorable, ?_, scan_value hstorable.indexed⟩
  rw [comesBack_iff_same hstorable]
  intro hsame
  have hcontent := (hsame _ (List.mem_singleton.mpr rfl)).content
  exact absurd hcontent (by decide)

end ContextMessages

end Accumulation.Kimi
