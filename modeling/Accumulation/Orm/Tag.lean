/-
# Accumulation.Orm.Tag — the settings in a `queryCond` tag, and the filter they build.

A tag is a list of settings `key:value` behind one another, with `;` between them.
`ParseTagSetting` splits it and joins the parts that an escaped separator has torn; at the end of the
tag there is nothing left to join, and it indexes past the last part (`parseTagSetting_iff`).

`BuildFieldFilter` goes over the fields of a struct.  The operator of a tag is compared as it is
written, with the blanks around it, and there is no case for what it does not know: such a condition
is left out, and the query selects more rows than it should (`dropsNone_iff`).
-/
import Accumulation.Go.Text
import Accumulation.Lib.EscapedSplit
import Accumulation.Orm.Filter

namespace Accumulation.Orm

open Accumulation.Go Accumulation.Lib.WhereClause Accumulation.Lib.EscapedSplit

/-! ## Settings -/

/-- A `map[string]string`. -/
abbrev Settings := Text → Option Text

def Settings.empty : Settings := fun _ => none

def Settings.set (settings : Settings) (k v : Text) : Settings := Function.update settings k (some v)

/-- The key of a setting. -/
def settingKey (unicode : Unicode) (s : Text) : Text := trimSpace (unicode.upper s)

/-- What a name, put together from its parts, sets. -/
def setName (unicode : Unicode) (settings : Settings) (name : Text) : Settings :=
  match name.splitOn ':' with
  | [] => settings
  | [value] =>
    let k := settingKey unicode value
    if k = [] then settings else settings.set k k
  | value :: values => settings.set (settingKey unicode value) ([':'].intercalate values)

/-- The loops of `ParseTagSetting`: `name` is `names[j]`, and `names` are those behind it.  The inner
loop joins the next one to it; where there is none, it panics. -/
def parseNames (unicode : Unicode) (sep : Char) (settings : Settings) (name : Text) :
    List Text → Option Settings
  | [] => if name.getLast? = some '\\' then none else some (setName unicode settings name)
  | next :: names =>
    if name.getLast? = some '\\' then
      parseNames unicode sep settings (name.dropLast ++ sep :: next) names
    else parseNames unicode sep (setName unicode settings name) next names

/-- `ParseTagSetting`, for a separator of one rune. -/
def parseTagSetting (unicode : Unicode) (str : Text) (sep : Char) : Option Settings :=
  match str.splitOn sep with
  | [] => some .empty
  | name :: names => parseNames unicode sep .empty name names

/-! ## What a tag says -/

/-- One setting: `key:value` by its first colon, or a key that stands for itself.  A piece of blanks
is none. -/
def readSetting (unicode : Unicode) (settings : Settings) (piece : Text) : Settings :=
  let key := settingKey unicode (piece.takeWhile (· ≠ ':'))
  match piece.dropWhile (· ≠ ':') with
  | _ :: value => settings.set key value
  | [] => if key = [] then settings else settings.set key key

/-- The settings in a text: what its pieces say, later ones in the place of earlier ones. -/
def settingsOf (unicode : Unicode) (str : Text) (sep : Char) : Settings :=
  (pieces '\\' sep str).foldl (readSetting unicode) .empty

variable {unicode : Unicode} {sep : Char}

/-- At its first colon a piece is cut. -/
theorem splitOn_colon (piece : Text) : piece.splitOn ':' =
    piece.takeWhile (· ≠ ':') :: match piece.dropWhile (· ≠ ':') with
      | _ :: value => value.splitOn ':'
      | [] => [] := by
  induction piece with
  | nil => rfl
  | cons c cs ih =>
    rw [List.splitOn_cons_eq_if_modifyHead, ih]
    by_cases hc : c = ':'
    · rw [if_pos (by simp [hc]), ← ih]
      simp [hc]
    · simp [hc]

/-- A piece sets what it says. -/
theorem setName_eq (settings : Settings) (piece : Text) :
    setName unicode settings piece = readSetting unicode settings piece := by
  unfold setName readSetting
  rw [splitOn_colon]
  rcases hdrop : piece.dropWhile (· ≠ ':') with _ | ⟨c, value⟩
  · rfl
  · have hvalue : [':'].intercalate (value.splitOn ':') = value := List.intercalate_splitOn ':'
    rcases hsplit : value.splitOn ':' with _ | ⟨v, vs⟩
    · exact absurd hsplit (List.splitOn_ne_nil ':' value)
    · rw [hsplit] at hvalue
      simp only [hsplit, hvalue]

/-- The loops go over the joined names. -/
theorem parseNames_eq (settings : Settings) (name : Text) (names : List Text) :
    parseNames unicode sep settings name names =
      (merge '\\' sep name names).map fun ps => ps.foldl (readSetting unicode) settings := by
  induction names generalizing settings name with
  | nil =>
    rw [parseNames, merge]
    split
    · rfl
    · rw [setName_eq]
      rfl
  | cons next names ih =>
    rw [parseNames, merge]
    split
    · exact ih settings _
    · rw [ih, setName_eq, Option.map_map]
      rfl

theorem parseTagSetting_eq (str : Text) (hsep : sep ≠ '\\') :
    parseTagSetting unicode str sep =
      if str.getLast? = some '\\' then none else some (settingsOf unicode str sep) := by
  rcases hsplit : str.splitOn sep with _ | ⟨name, names⟩
  · exact absurd hsplit (List.splitOn_ne_nil sep str)
  · rw [parseTagSetting, hsplit]
    dsimp only
    rw [parseNames_eq, merge_splitOn hsep.symm hsplit]
    split
    · rfl
    · rfl

/-- **`ParseTagSetting` returns the settings in a text** if and only if the text does not end with a
backslash. -/
theorem parseTagSetting_iff (unicode : Unicode) (str : Text) {sep : Char} (hsep : sep ≠ '\\') :
    parseTagSetting unicode str sep = some (settingsOf unicode str sep) ↔
      str.getLast? ≠ some '\\' := by
  rw [parseTagSetting_eq str hsep]
  split
  · rename_i hlast
    exact iff_of_false (fun h => (nomatch h)) fun h => h hlast
  · rename_i hlast
    exact iff_of_true rfl hlast

/-- A separator is escaped, and a value holds a colon. -/
theorem parseTagSetting_iff_escaped : ';' ≠ '\\' ∧
    ∃ settings, parseTagSetting .basic "op: a\\;b:c; alias".toList ';' = some settings ∧
      settings "OP".toList = some " a;b:c".toList ∧
      settings "ALIAS".toList = some "ALIAS".toList := by
  have hparse := (parseTagSetting_iff .basic "op: a\\;b:c; alias".toList
    (by decide : ';' ≠ '\\')).mpr (by decide)
  exact ⟨by decide, _, hparse, by decide, by decide⟩

/-- A backslash at the end. -/
theorem parseTagSetting_backslash :
    parseTagSetting .basic "op:=\\".toList ';' = none ∧
      parseTagSetting .basic "op:=\\".toList ';' ≠ some (settingsOf .basic "op:=\\".toList ';') :=
  ⟨rfl, fun h => nomatch h⟩

/-! ## Structs -/

structure StructField (ν : Type*) where
  name : Text
  exported : Bool
  /-- the tag under `queryCond` -/
  tag : Text
  value : ν
  isZero : Bool

/-- A struct value; blank fields, which cannot be set, are left out. -/
structure Struct (ν : Type*) where
  fields : List (StructField ν)
  names_nodup : (fields.map StructField.name).Nodup

/-- A condition of a filter, whatever string its column is. -/
structure Condition (ν : Type*) where
  op : OP
  column : Text
  value : ν
  deriving DecidableEq

def FilterCondition.condition {ν : Type*} : FilterCondition ν → Condition ν
  | .eq c | .neq c | .gte c | .lte c | .like c | .isIn c | .notIn c => ⟨c.op, c.column, c.value⟩

structure QueryCondTag (ν : Type*) where
  value : ν
  column : Text
  tagSetting : Settings

variable {ν : Type*}

namespace QueryCondTag

def getOP (unicode : Unicode) (tag : QueryCondTag ν) : Text :=
  match tag.tagSetting ['O', 'P'] with
  | none | some [] => opText .eq
  | some op => unicode.upper op

def getColumn (tag : QueryCondTag ν) : Text :=
  match tag.tagSetting ['A', 'L', 'I', 'A', 'S'] with
  | none | some [] => tag.column
  | some name => name

/-- The switch over operators, which has no default. -/
def caseOf (op : Text) : Option OP :=
  [.like, .eq, .isIn, .notIn, .lte, .gte, .neq].find? fun o => opText o = op

def addFieldFilter (unicode : Unicode) (tag : QueryCondTag ν) (ff : List (Condition ν)) :
    List (Condition ν) :=
  match caseOf (tag.getOP unicode) with
  | some op => ff ++ [⟨op, tag.getColumn, tag.value⟩]
  | none => ff

/-- **A column that is a word** goes to the function of `FieldFilter` for its operator. -/
theorem addFieldFilter_eq_call (unicode : Unicode) (tag : QueryCondTag ν) (ff : FieldFilter ν)
    (hcolumn : IsWord tag.getColumn) :
    tag.addFieldFilter unicode (ff.conditions.map FilterCondition.condition) =
      (match caseOf (tag.getOP unicode) with
      | some op => (ff.call ⟨op, ⟨tag.getColumn, hcolumn⟩, tag.value⟩).conditions
      | none => ff.conditions).map FilterCondition.condition := by
  unfold addFieldFilter
  cases caseOf (tag.getOP unicode) with
  | none => rfl
  | some op =>
    dsimp only
    rw [conditions_call, List.map_append]
    cases op <;> rfl

end QueryCondTag

def camelCaseToUnderscore (unicode : Unicode) : Text → Text
  | [] => []
  | r :: rs => unicode.toLower r :: rs.flatMap fun r =>
    if unicode.isUpper r then ['_', unicode.toLower r] else [unicode.toLower r]

/-- The loop of `BuildFieldFilter`; `none` is a panic. -/
def buildFields (unicode : Unicode) (val : Struct ν) :
    List (StructField ν) → List (Condition ν) → Option (List (Condition ν))
  | [], fieldFilter => some fieldFilter
  | field :: fields, fieldFilter =>
    if field.tag = [] then buildFields unicode val fields fieldFilter
    else match val.fields.find? fun f => f.name = field.name with
      | none => none
      | some byName =>
        if byName.isZero then buildFields unicode val fields fieldFilter
        else match parseTagSetting unicode field.tag ';' with
          | none => none
          | some tagMap =>
            -- `Interface` panics on a field that is not exported
            if byName.exported then
              let queryCond : QueryCondTag ν :=
                ⟨byName.value, camelCaseToUnderscore unicode field.name, tagMap⟩
              buildFields unicode val fields (queryCond.addFieldFilter unicode fieldFilter)
            else none

/-- `BuildFieldFilter`, with the filter as the list of its conditions. -/
def buildFieldFilter (unicode : Unicode) (condition : Struct ν) : Option (List (Condition ν)) :=
  buildFields unicode condition condition.fields []

/-! ## Filters that say what the tags say -/

namespace StructField

/-- The field has a tag and is not zero. -/
def Wanted (field : StructField ν) : Prop := field.tag ≠ [] ∧ field.isZero = false

instance (field : StructField ν) : Decidable field.Wanted := inferInstanceAs (Decidable (_ ∧ _))

/-- What the tag of the field says. -/
def settings (unicode : Unicode) (field : StructField ν) : Settings :=
  settingsOf unicode field.tag ';'

/-- The operator that the tag names, in any letter case and with any blanks around it. -/
def Names (unicode : Unicode) (field : StructField ν) (op : OP) : Prop :=
  match field.settings unicode ['O', 'P'] with
  | none | some [] => op = .eq
  | some text => unicode.upper (trimSpace text) = opText op

/-- The column of the condition. -/
def column (unicode : Unicode) (field : StructField ν) : Text :=
  match field.settings unicode ['A', 'L', 'I', 'A', 'S'] with
  | none | some [] => camelCaseToUnderscore unicode field.name
  | some name => name

/-- The condition that a field asks for. -/
structure Asks (unicode : Unicode) (field : StructField ν) (c : Condition ν) : Prop where
  value : c.value = field.value
  column : c.column = field.column unicode
  op : ∀ op, field.Names unicode op → c.op = op

end StructField

/-- **No condition is dropped**: where every tag names an operator there is a filter, and a filter has
exactly one condition for each tagged field that is not zero, in their order. -/
structure DropsNone (unicode : Unicode) (s : Struct ν) : Prop where
  builds : (∀ field ∈ s.fields, field.Wanted → ∃ op, field.Names unicode op) →
    ∃ conditions, buildFieldFilter unicode s = some conditions
  matching : ∀ conditions, buildFieldFilter unicode s = some conditions →
    List.Forall₂ (StructField.Asks unicode) (s.fields.filter fun field => field.Wanted) conditions

namespace StructField

/-- `BuildFieldFilter` panics on the field: it is not exported, or its tag ends with a backslash. -/
def Panics (field : StructField ν) : Prop :=
  field.exported = false ∨ field.tag.getLast? = some '\\'

instance (field : StructField ν) : Decidable field.Panics := inferInstanceAs (Decidable (_ ∨ _))

/-- The operator entry, as it is written but for its letter case, is none of the seven. -/
def Unlisted (unicode : Unicode) (field : StructField ν) : Prop :=
  match field.settings unicode ['O', 'P'] with
  | none | some [] => False
  | some text => ∀ op, unicode.upper text ≠ opText op

/-- What `BuildFieldFilter` adds for the field. -/
def added (unicode : Unicode) (field : StructField ν) : Option (Condition ν) :=
  let queryCond : QueryCondTag ν :=
    ⟨field.value, camelCaseToUnderscore unicode field.name, field.settings unicode⟩
  (QueryCondTag.caseOf (queryCond.getOP unicode)).map fun op =>
    ⟨op, queryCond.getColumn, queryCond.value⟩

end StructField

/-! ## What is added for a field -/

theorem opText_injective : Function.Injective opText := by
  intro o o' h
  cases o <;> cases o' <;> first | rfl | simp [opText] at h

theorem QueryCondTag.caseOf_eq_some {text : Text} {op : OP} :
    caseOf text = some op ↔ text = opText op := by
  constructor
  · intro h
    have hop := List.find?_some (p := fun o => decide (opText o = text)) h
    exact (of_decide_eq_true hop).symm
  · rintro rfl
    cases op <;> rfl

theorem QueryCondTag.caseOf_eq_none {text : Text} : caseOf text = none ↔ ∀ op, text ≠ opText op := by
  rw [← Option.not_isSome_iff_eq_none, Option.isSome_iff_exists, not_exists]
  simp only [caseOf_eq_some]

/-- The operators have no blanks at their ends. -/
theorem opText_ends (op : OP) : (∀ c, (opText op).head? = some c → isSpace c = false) ∧
    ∀ c, (opText op).getLast? = some c → isSpace c = false := by
  cases op <;> simp [opText, isSpace]

namespace StructField

variable {field : StructField ν}

/-- **A listed operator** is added, with the column and the value of the field. -/
theorem asks_of_added {c : Condition ν} (h : field.added unicode = some c) :
    field.Asks unicode c := by
  obtain ⟨op, hop, rfl⟩ := Option.map_eq_some_iff.mp h
  refine ⟨rfl, rfl, fun op' hnames => ?_⟩
  rw [QueryCondTag.caseOf_eq_some] at hop
  unfold QueryCondTag.getOP at hop
  unfold Names at hnames
  dsimp only at hop
  split at hop
  · rename_i hnone
    rw [hnone] at hnames
    exact (opText_injective hop).symm.trans hnames.symm
  · rename_i hempty
    rw [hempty] at hnames
    exact (opText_injective hop).symm.trans hnames.symm
  · rename_i text hne htext
    rw [htext] at hnames
    have hnames' : unicode.upper (trimSpace text) = opText op' := by
      cases text with
      | nil => exact absurd rfl hne
      | cons c cs => exact hnames
    -- the entry is the operator as it stands, so there is nothing to trim
    rw [trimSpace_of_upper hop (opText_ends op).1 (opText_ends op).2, hop] at hnames'
    exact opText_injective hnames'

/-- Nothing is added for an operator that is not listed. -/
theorem added_eq_none : field.added unicode = none ↔ field.Unlisted unicode := by
  unfold added Unlisted
  rw [Option.map_eq_none_iff, QueryCondTag.caseOf_eq_none]
  unfold QueryCondTag.getOP
  dsimp only
  split
  · exact iff_of_false (fun h => h .eq rfl) id
  · exact iff_of_false (fun h => h .eq rfl) id
  · rename_i text hne htext
    cases text with
    | nil => exact absurd rfl hne
    | cons c cs => exact Iff.rfl

end StructField

/-! ## The loop over the fields -/

/-- A field is found under its name. -/
theorem Struct.find_name (s : Struct ν) {field : StructField ν} (hfield : field ∈ s.fields) :
    (s.fields.find? fun f => f.name = field.name) = some field := by
  have hnodup := s.names_nodup
  generalize s.fields = fields at hfield hnodup
  induction fields with
  | nil => nomatch hfield
  | cons first rest ih =>
    rw [List.map_cons, List.nodup_cons] at hnodup
    rcases List.mem_cons.mp hfield with rfl | hrest
    · exact List.find?_cons_of_pos (by simp)
    · have hne : first.name ≠ field.name := fun heq =>
        hnodup.1 (heq ▸ List.mem_map_of_mem hrest)
      rw [List.find?_cons_of_neg (by simpa using hne)]
      exact ih hrest hnodup.2

section Loop

variable (s : Struct ν) {field : StructField ν} (fields : List (StructField ν))
  (ff : List (Condition ν)) (hfield : field ∈ s.fields)

include hfield

theorem buildFields_skip (h : ¬ field.Wanted) :
    buildFields unicode s (field :: fields) ff = buildFields unicode s fields ff := by
  rw [buildFields]
  by_cases htag : field.tag = []
  · rw [if_pos htag]
  · have hzero : field.isZero = true := by
      rw [← Bool.not_eq_false]
      exact fun hzero => h ⟨htag, hzero⟩
    rw [if_neg htag, s.find_name hfield]
    exact if_pos hzero

theorem buildFields_panics (h : field.Wanted) (hpanics : field.Panics) :
    buildFields unicode s (field :: fields) ff = none := by
  rw [buildFields, if_neg h.1, s.find_name hfield, parseTagSetting_eq field.tag (by decide)]
  dsimp only
  rw [if_neg (by simp [h.2])]
  rcases hpanics with hunexported | hlast
  · split
    · rfl
    · exact if_neg (by simp [hunexported])
  · rw [if_pos hlast]

theorem buildFields_adds (h : field.Wanted) (hsafe : ¬ field.Panics) :
    buildFields unicode s (field :: fields) ff =
      buildFields unicode s fields (ff ++ (field.added unicode).toList) := by
  have hexported : field.exported = true := by
    rw [← Bool.not_eq_false]
    exact fun hunexported => hsafe (Or.inl hunexported)
  rw [buildFields, if_neg h.1, s.find_name hfield, parseTagSetting_eq field.tag (by decide),
    if_neg fun hlast => hsafe (Or.inr hlast)]
  dsimp only
  rw [if_neg (by simp [h.2]), if_pos hexported]
  congr 1
  unfold QueryCondTag.addFieldFilter StructField.added StructField.settings
  dsimp only
  cases QueryCondTag.caseOf _ with
  | none => exact (List.append_nil ff).symm
  | some op => rfl

end Loop

/-- **The loop** panics on a field or adds what the fields add. -/
theorem buildFields_eq (s : Struct ν) {fields : List (StructField ν)}
    (hfields : ∀ field ∈ fields, field ∈ s.fields) (ff : List (Condition ν)) :
    buildFields unicode s fields ff =
      if ∃ field ∈ fields, field.Wanted ∧ field.Panics then none
      else some (ff ++ (fields.filter fun field => field.Wanted).filterMap
        (StructField.added unicode)) := by
  induction fields generalizing ff with
  | nil => simp [buildFields]
  | cons field fields ih =>
    have hfield := hfields field List.mem_cons_self
    have hrest := ih fun f hf => hfields f (List.mem_cons_of_mem field hf)
    by_cases hwanted : field.Wanted
    · by_cases hpanics : field.Panics
      · rw [buildFields_panics s fields ff hfield hwanted hpanics,
          if_pos ⟨field, List.mem_cons_self, hwanted, hpanics⟩]
      · rw [buildFields_adds s fields ff hfield hwanted hpanics, hrest,
          List.filter_cons_of_pos (by simpa using hwanted), List.filterMap_cons]
        refine if_congr (by simp [hpanics]) rfl ?_
        cases field.added unicode with
        | none => simp
        | some c => simp
    · rw [buildFields_skip s fields ff hfield hwanted, hrest,
        List.filter_cons_of_neg (by simpa using hwanted)]
      exact if_congr (by simp [hwanted]) rfl rfl

/-! ## When no condition is dropped -/

/-- **`BuildFieldFilter` drops no condition** if and only if every tagged field that is not zero is
exported and has a tag that does not end with a backslash and lists its operator without blanks; or it
panics, and some tag names no operator at all. -/
theorem dropsNone_iff (unicode : Unicode) (s : Struct ν) : DropsNone unicode s ↔
    (∀ field ∈ s.fields, field.Wanted → ¬ field.Panics ∧ ¬ field.Unlisted unicode) ∨
      (∃ field ∈ s.fields, field.Wanted ∧ field.Panics) ∧
        ∃ field ∈ s.fields, field.Wanted ∧ ∀ op, ¬ field.Names unicode op := by
  have hbuild : buildFieldFilter unicode s = _ := buildFields_eq s (fun _ h => h) []
  by_cases hpanics : ∃ field ∈ s.fields, field.Wanted ∧ field.Panics
  · -- there is no filter, so some tag must name no operator
    rw [if_pos hpanics] at hbuild
    constructor
    · intro h
      refine Or.inr ⟨hpanics, ?_⟩
      by_contra hall
      push Not at hall
      rcases h.builds hall with ⟨conditions, hconditions⟩
      rw [hbuild] at hconditions
      nomatch hconditions
    · rintro (hsafe | ⟨-, field, hfield, hwanted, hno⟩)
      · rcases hpanics with ⟨field, hfield, hwanted, hpanics⟩
        exact absurd hpanics (hsafe field hfield hwanted).1
      · refine ⟨fun hall => ?_, fun conditions h => ?_⟩
        · rcases hall field hfield hwanted with ⟨op, hop⟩
          exact absurd hop (hno op)
        · rw [hbuild] at h
          nomatch h
  · rw [if_neg hpanics, List.nil_append] at hbuild
    have hwanted (field : StructField ν) :
        field ∈ s.fields.filter (fun field => field.Wanted) ↔ field ∈ s.fields ∧ field.Wanted := by
      simp
    constructor
    · intro h
      refine Or.inl fun field hfield hw => ⟨fun hp => hpanics ⟨field, hfield, hw, hp⟩, ?_⟩
      -- as many conditions as fields: none has been left out
      have hlength := List.Forall₂.length_eq (h.matching _ hbuild)
      have hsome := List.filterMap_length_eq_length.mp hlength.symm field
        ((hwanted field).mpr ⟨hfield, hw⟩)
      intro hunlisted
      rw [StructField.added_eq_none.mpr hunlisted] at hsome
      nomatch hsome
    · rintro (hsafe | ⟨hcon, -⟩)
      · refine ⟨fun _ => ⟨_, hbuild⟩, fun conditions h => ?_⟩
        obtain rfl := Option.some.inj (hbuild.symm.trans h)
        have hall : ∀ field ∈ s.fields.filter (fun field => field.Wanted),
            ∃ c, field.added unicode = some c := by
          intro field hfield
          rcases (hwanted field).mp hfield with ⟨hmem, hw⟩
          rw [← Option.ne_none_iff_exists']
          exact fun hnone => (hsafe field hmem hw).2 (StructField.added_eq_none.mp hnone)
        generalize s.fields.filter (fun field => field.Wanted) = fields at hall
        induction fields with
        | nil => exact .nil
        | cons field fields ih =>
          rcases hall field List.mem_cons_self with ⟨c, hc⟩
          rw [List.filterMap_cons, hc]
          exact .cons (StructField.asks_of_added hc)
            (ih fun f hf => hall f (List.mem_cons_of_mem field hf))
      · exact absurd hcon hpanics

/-- A struct with one field, which is tagged `op: like`. -/
def demoStruct : Struct ℕ :=
  ⟨[⟨"Name".toList, true, "op: like".toList, 1, false⟩], by simp⟩

/-- The blank before the operator is enough for its condition to be left out. -/
theorem blankOperator_dropped :
    buildFieldFilter .basic demoStruct = some [] ∧ ¬ DropsNone .basic demoStruct := by
  have hbuild : buildFieldFilter .basic demoStruct = some [] := by decide
  refine ⟨hbuild, fun h => ?_⟩
  have hlength := List.Forall₂.length_eq (h.matching [] hbuild)
  exact absurd hlength (by decide)

end Accumulation.Orm
