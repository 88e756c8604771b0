/-
# Accumulation.Orm.Filter — `FieldFilter`, and the rows its clauses select.

A filter is a list of conditions; `FillCondition` turns each into the text of a clause, with the
values bound to it, and hands it to gorm's `Where`, which joins the clauses with AND.  What a
condition is for is `FilterCondition.SatisfiedBy`; what its clause selects is up to
`Lib.WhereClause`.

Two kinds of condition part ways with their clauses.  `LIKE` puts its placeholder between percent
signs, which is no SQL; and `IN` over an empty list, which no row satisfies, adds no clause at all.
`exact_iff` says that there is nothing else.
-/
import Accumulation.Lib.WhereClause
import Accumulation.Orm.Tx

namespace Accumulation.Orm

open Accumulation.Lib.WhereClause

variable {κ ν : Type*}

/-! ## Conditions -/

/-- The name of a column. -/
abbrev Column := {name : List Char // IsWord name}

/-- The struct `Eq`, which the other conditions embed. -/
structure EqFields (ν : Type*) where
  column : Column
  value : ν
  op : OP

/-- The texts of the operators. -/
def opText : OP → List Char
  | .eq => ['=']
  | .neq => ['<', '>']
  | .gte => ['>', '=']
  | .lte => ['<', '=']
  | .notIn => ['N', 'O', 'T', ' ', 'I', 'N']
  | .isIn => ['I', 'N']
  | .like => ['L', 'I', 'K', 'E']

inductive FilterCondition (ν : Type*)
  | eq (fields : EqFields ν)
  | neq (fields : EqFields ν)
  | gte (fields : EqFields ν)
  | lte (fields : EqFields ν)
  | like (fields : EqFields ν)
  | isIn (fields : EqFields ν)
  | notIn (fields : EqFields ν)

inductive FilterError (ν : Type*)
  /-- `value is need slice %v` -/
  | needSlice (value : ν)
  /-- `[database]:%s  [table]:%s ,QueryByFields err[%v]` -/
  | queryByFields (database table : String) (err : FilterError ν)

/-- A handle, as far as its WHERE clauses go. -/
abbrev Query (ν : Type*) := List (Clause ν)

/-- gorm's `Where` -/
def Query.where_ (db : Query ν) (text : List Char) (args : List ν) : Query ν := db ++ [⟨text, args⟩]

/-- `(*Eq).buildCondition`: `%v %s ?` -/
def EqFields.buildEq (eq : EqFields ν) (db : Query ν) : Query ν :=
  db.where_ (eq.column.val ++ ' ' :: (opText eq.op ++ [' ', '?'])) [eq.value]

/-- `(*Like).buildCondition`: `%v %s %%?%%` -/
def EqFields.buildLike (like : EqFields ν) (db : Query ν) : Query ν :=
  db.where_ (like.column.val ++ ' ' :: (opText like.op ++ [' ', '%', '?', '%'])) [like.value]

/-- A placeholder for each parameter, with commas between them. -/
def placeholder : List ν → List Char
  | [] => []
  | [_] => ['?']
  | _ :: rest => '?' :: ',' :: placeholder rest

/-- `(*IN).buildCondition`: `%s %s (%s)`.  `elems` are the elements that reflection finds in a slice
or an array, also behind a pointer. -/
def EqFields.buildIN (elems : ν → Option (List ν)) (inn : EqFields ν) (db : Query ν) :
    Except (FilterError ν) (Query ν) :=
  match elems inn.value with
  | none => .error (.needSlice inn.value)
  | some [] => .ok db
  | some (param :: params) =>
    .ok (db.where_ (inn.column.val ++ ' ' :: (opText inn.op ++
      ' ' :: '(' :: (placeholder (param :: params) ++ [')']))) (param :: params))

/-- `buildCondition`, with what the conditions inherit from the structs they embed. -/
def FilterCondition.buildCondition (elems : ν → Option (List ν)) (db : Query ν) :
    FilterCondition ν → Except (FilterError ν) (Query ν)
  | .eq fields | .neq fields | .gte fields | .lte fields => .ok (fields.buildEq db)
  | .like fields => .ok (fields.buildLike db)
  | .isIn fields | .notIn fields => fields.buildIN elems db

/-! ## Filters -/

structure FieldFilter (ν : Type*) where
  conditions : List (FilterCondition ν)

namespace FieldFilter

def new : FieldFilter ν := ⟨[]⟩

def add (ff : FieldFilter ν) (key : Column) (val : ν) : FieldFilter ν :=
  ⟨ff.conditions ++ [.eq ⟨key, val, .eq⟩]⟩

def addNeq (ff : FieldFilter ν) (key : Column) (val : ν) : FieldFilter ν :=
  ⟨ff.conditions ++ [.neq ⟨key, val, .neq⟩]⟩

def addGte (ff : FieldFilter ν) (key : Column) (val : ν) : FieldFilter ν :=
  ⟨ff.conditions ++ [.gte ⟨key, val, .gte⟩]⟩

def addLte (ff : FieldFilter ν) (key : Column) (val : ν) : FieldFilter ν :=
  ⟨ff.conditions ++ [.lte ⟨key, val, .lte⟩]⟩

def addNotIn (ff : FieldFilter ν) (key : Column) (val : ν) : FieldFilter ν :=
  ⟨ff.conditions ++ [.notIn ⟨key, val, .notIn⟩]⟩

def addIn (ff : FieldFilter ν) (key : Column) (val : ν) : FieldFilter ν :=
  ⟨ff.conditions ++ [.isIn ⟨key, val, .isIn⟩]⟩

def addLike (ff : FieldFilter ν) (key : Column) (val : ν) : FieldFilter ν :=
  ⟨ff.conditions ++ [.like ⟨key, val, .like⟩]⟩

/-- The loop of `FillCondition`. -/
def fill (elems : ν → Option (List ν)) (table : DBModel) :
    List (FilterCondition ν) → Query ν → Except (FilterError ν) (Query ν)
  | [], db => .ok db
  | condition :: conditions, db =>
    match condition.buildCondition elems db with
    | .error err => .error (.queryByFields (table.database false) table.tableName err)
    | .ok db => fill elems table conditions db

def fillCondition (elems : ν → Option (List ν)) (ff : FieldFilter ν) (db : Query ν)
    (table : DBModel) : Except (FilterError ν) (Query ν) := fill elems table ff.conditions db

end FieldFilter

/-- A call of one of the seven functions that add a condition. -/
structure Call (ν : Type*) where
  op : OP
  key : Column
  val : ν

def FieldFilter.call (ff : FieldFilter ν) (c : Call ν) : FieldFilter ν :=
  match c.op with
  | .eq => ff.add c.key c.val
  | .neq => ff.addNeq c.key c.val
  | .gte => ff.addGte c.key c.val
  | .lte => ff.addLte c.key c.val
  | .notIn => ff.addNotIn c.key c.val
  | .isIn => ff.addIn c.key c.val
  | .like => ff.addLike c.key c.val

/-- The filter a sequence of calls builds. -/
def FieldFilter.ofCalls (calls : List (Call ν)) : FieldFilter ν := calls.foldl .call .new

/-! ## What conditions are for -/

/-- A row satisfies a condition. -/
def FilterCondition.SatisfiedBy (engine : Engine κ ν) (elems : ν → Option (List ν))
    (row : List Char → κ) : FilterCondition ν → Prop
  | .eq c => engine.compare .eq (row c.column) c.value = true
  | .neq c => engine.compare .neq (row c.column) c.value = true
  | .gte c => engine.compare .gte (row c.column) c.value = true
  | .lte c => engine.compare .lte (row c.column) c.value = true
  | .like c => engine.contains (row c.column) c.value = true
  | .isIn c => ∃ vs, elems c.value = some vs ∧ ∃ v ∈ vs,
      engine.compare .eq (row c.column) v = true
  | .notIn c => ∃ vs, elems c.value = some vs ∧ ∀ v ∈ vs,
      engine.compare .neq (row c.column) v = true

/-- **A filter is exact** if `FillCondition` returns an error, or adds well-formed clauses that select
the rows which satisfy every condition. -/
def FieldFilter.Exact (engine : Engine κ ν) (elems : ν → Option (List ν)) (table : DBModel)
    (ff : FieldFilter ν) : Prop :=
  ∀ db, match ff.fillCondition elems db table with
    | .error _ => True
    | .ok db' => ∃ added, db' = db ++ added ∧ (∀ clause ∈ added, clause.WellFormed) ∧
        ∀ row, (∀ clause ∈ added, clause.SatisfiedBy engine row) ↔
          ∀ condition ∈ ff.conditions, condition.SatisfiedBy engine elems row

/-! ## The clause of a condition -/

/-- The condition a call adds. -/
def Call.condition (c : Call ν) : FilterCondition ν :=
  match c.op with
  | .eq => .eq ⟨c.key, c.val, .eq⟩
  | .neq => .neq ⟨c.key, c.val, .neq⟩
  | .gte => .gte ⟨c.key, c.val, .gte⟩
  | .lte => .lte ⟨c.key, c.val, .lte⟩
  | .notIn => .notIn ⟨c.key, c.val, .notIn⟩
  | .isIn => .isIn ⟨c.key, c.val, .isIn⟩
  | .like => .like ⟨c.key, c.val, .like⟩

theorem conditions_call (ff : FieldFilter ν) (c : Call ν) :
    (ff.call c).conditions = ff.conditions ++ [c.condition] := by
  rcases c with ⟨op, key, val⟩
  cases op with
  | eq | neq | gte | lte | notIn | isIn | like => rfl

/-- A filter has the conditions it was given, in order. -/
theorem conditions_ofCalls (calls : List (Call ν)) :
    (FieldFilter.ofCalls calls).conditions = calls.map Call.condition := by
  have hfold (ff : FieldFilter ν) :
      (calls.foldl .call ff).conditions = ff.conditions ++ calls.map Call.condition := by
    induction calls generalizing ff with
    | nil => exact (List.append_nil _).symm
    | cons c calls ih =>
      rw [List.foldl_cons, ih, conditions_call, List.append_assoc]
      rfl
  exact hfold .new

theorem parseList_placeholder (param : ν) (params : List ν) :
    parseList (lex (placeholder (param :: params) ++ [')'])) = some (params.length + 1) := by
  induction params generalizing param with
  | nil => rfl
  | cons next params ih =>
    show (parseList (lex (placeholder (next :: params) ++ [')']))).map (· + 1) = _
    rw [ih]
    rfl

section Clauses

variable (c : Column)

theorem parse_scalar {op : List Char} {o : OP} (hop : IsWord op) (ho : scalarOp op = some o) :
    parse (lex (c.val ++ ' ' :: (op ++ [' ', '?']))) = some ⟨c.val, o, 1⟩ := by
  rw [lex_word c.property, lex_word hop]
  show (scalarOp op).map _ = _
  rw [ho]
  rfl

theorem parse_like : parse (lex (c.val ++ ' ' :: (opText .like ++ [' ', '%', '?', '%']))) = none := by
  rw [lex_word c.property]
  rfl

theorem parse_isIn (param : ν) (params : List ν) :
    parse (lex (c.val ++ ' ' :: (opText .isIn ++
      ' ' :: '(' :: (placeholder (param :: params) ++ [')'])))) =
      some ⟨c.val, .isIn, params.length + 1⟩ := by
  rw [lex_word c.property, lex_word (by decide)]
  show (parseList (lex (placeholder (param :: params) ++ [')']))).map _ = _
  rw [parseList_placeholder]
  rfl

theorem parse_notIn (param : ν) (params : List ν) :
    parse (lex (c.val ++ ' ' :: (opText .notIn ++
      ' ' :: '(' :: (placeholder (param :: params) ++ [')'])))) =
      some ⟨c.val, .notIn, params.length + 1⟩ := by
  have htext : opText .notIn ++ ' ' :: '(' :: (placeholder (param :: params) ++ [')']) =
      ['N', 'O', 'T'] ++ ' ' :: (['I', 'N'] ++ ' ' :: '(' ::
        (placeholder (param :: params) ++ [')'])) := rfl
  rw [htext, lex_word c.property, lex_word (by decide), lex_word (by decide)]
  show (parseList (lex (placeholder (param :: params) ++ [')']))).map _ = _
  rw [parseList_placeholder]
  rfl

end Clauses

namespace FilterCondition

/-- The condition is a list condition whose value is no list. -/
def Refused (elems : ν → Option (List ν)) : FilterCondition ν → Prop
  | .isIn c | .notIn c => elems c.value = none
  | _ => False

def IsLike : FilterCondition ν → Prop
  | .like _ => True
  | _ => False

/-- The condition is `IN` over an empty list. -/
def EmptyIn (elems : ν → Option (List ν)) : FilterCondition ν → Prop
  | .isIn c => elems c.value = some []
  | _ => False

theorem not_satisfiedBy_of_emptyIn {elems : ν → Option (List ν)} {condition : FilterCondition ν}
    (h : condition.EmptyIn elems) (engine : Engine κ ν) (row : List Char → κ) :
    ¬ condition.SatisfiedBy engine elems row := by
  cases condition with
  | isIn c =>
    rintro ⟨vs, hvs, v, hv, -⟩
    rw [show elems c.value = some [] from h] at hvs
    rw [← Option.some.inj hvs] at hv
    nomatch hv
  | eq c | neq c | gte c | lte c | like c | notIn c => exact False.elim h

end FilterCondition

/-! ## One condition -/

section Exact

variable {engine : Engine κ ν} {elems : ν → Option (List ν)}

/-- A clause with its own comparison is well-formed and means it. -/
theorem meaning_of_parse (engine : Engine κ ν) {text column : List Char} {op : OP} {vars : List ν}
    (h : parse (lex text) = some ⟨column, op, vars.length⟩) :
    (⟨text, vars⟩ : Clause ν).WellFormed ∧ ∀ row : List Char → κ,
      (⟨text, vars⟩ : Clause ν).SatisfiedBy engine row ↔ engine.holds op (row column) vars := by
  have hcomparison : (⟨text, vars⟩ : Clause ν).comparison = some ⟨column, op, vars.length⟩ := by
    rw [Clause.comparison, h]
    exact Option.filter_some_pos (decide_eq_true rfl)
  refine ⟨?_, fun row => Clause.satisfiedBy_iff hcomparison⟩
  rw [Clause.WellFormed, hcomparison]
  exact Option.some_ne_none _

/-- The clauses that are added for a condition.  The condition over an empty list adds none. -/
structure Adds (engine : Engine κ ν) (elems : ν → Option (List ν)) (condition : FilterCondition ν)
    (added : List (Clause ν)) : Prop where
  build : ∀ db, condition.buildCondition elems db = .ok (db ++ added)
  accepted : ¬ condition.Refused elems
  wellFormed : (∀ clause ∈ added, clause.WellFormed) ↔ ¬ condition.IsLike
  satisfied : ¬ condition.IsLike → ∀ row, (∀ clause ∈ added, clause.SatisfiedBy engine row) ↔
    condition.EmptyIn elems ∨ condition.SatisfiedBy engine elems row

/-- A condition that adds one clause with its own meaning. -/
theorem adds_of_parse {condition : FilterCondition ν} {text column : List Char} {op : OP}
    {vars : List ν} (hbuild : ∀ db, condition.buildCondition elems db = .ok (db ++ [⟨text, vars⟩]))
    (haccepted : ¬ condition.Refused elems) (hlike : ¬ condition.IsLike)
    (hempty : ¬ condition.EmptyIn elems)
    (hparse : parse (lex text) = some ⟨column, op, vars.length⟩)
    (hmeaning : ∀ row, engine.holds op (row column) vars ↔
      condition.SatisfiedBy engine elems row) :
    Adds engine elems condition [⟨text, vars⟩] := by
  rcases meaning_of_parse engine hparse with ⟨hwell, hsatisfied⟩
  refine ⟨hbuild, haccepted, ?_, fun _ row => ?_⟩
  · exact ⟨fun _ => hlike, fun _ => List.forall_mem_singleton.mpr hwell⟩
  · rw [List.forall_mem_singleton, hsatisfied, hmeaning]
    exact ⟨Or.inr, fun h => h.resolve_left hempty⟩

/-- The comparisons with one value share their clause. -/
theorem adds_scalar {c : Column} {val : ν} {op : OP} {condition : FilterCondition ν}
    (hbuild : ∀ db, condition.buildCondition elems db =
      .ok (EqFields.buildEq ⟨c, val, op⟩ db))
    (haccepted : ¬ condition.Refused elems) (hlike : ¬ condition.IsLike)
    (hempty : ¬ condition.EmptyIn elems) (hop : IsWord (opText op))
    (hscalar : scalarOp (opText op) = some op)
    (hmeaning : ∀ row, engine.holds op (row c.val) [val] ↔
      condition.SatisfiedBy engine elems row) :
    ∃ added, Adds engine elems condition added :=
  ⟨_, adds_of_parse hbuild haccepted hlike hempty (parse_scalar c hop hscalar) hmeaning⟩

/-- One value is compared as such. -/
theorem holds_singleton {op : OP} (hop : op ≠ .isIn ∧ op ≠ .notIn) (x : κ) (v : ν) :
    engine.holds op x [v] ↔ engine.compare op x v = true := by
  have hone : (∃ u, [v] = [u] ∧ engine.compare op x u = true) ↔ engine.compare op x v = true := by
    constructor
    · rintro ⟨u, hu, h⟩
      rwa [(List.cons.inj hu).1]
    · exact fun h => ⟨v, rfl, h⟩
  cases op with
  | isIn => exact absurd rfl hop.1
  | notIn => exact absurd rfl hop.2
  | eq | neq | gte | lte | like => exact hone

/-- The conditions on a list share their clause, and the branch without one. -/
theorem refused_or_adds_list (condition : FilterCondition ν) {key : Column} {val : ν} {op : OP}
    (hbuild : ∀ db, condition.buildCondition elems db = EqFields.buildIN elems ⟨key, val, op⟩ db)
    (hrefused : condition.Refused elems ↔ elems val = none) (hlike : ¬ condition.IsLike)
    (hempty : condition.EmptyIn elems → elems val = some [])
    (hnone : elems val = some [] → ∀ row,
      condition.EmptyIn elems ∨ condition.SatisfiedBy engine elems row)
    (hparse : ∀ (param : ν) params, parse (lex (key.val ++ ' ' :: (opText op ++
      ' ' :: '(' :: (placeholder (param :: params) ++ [')'])))) =
        some ⟨key.val, op, params.length + 1⟩)
    (hmeaning : ∀ vs, elems val = some vs → ∀ row, engine.holds op (row key.val) vs ↔
      condition.SatisfiedBy engine elems row) :
    (condition.Refused elems ∧ ∀ db, ∃ err, condition.buildCondition elems db = .error err) ∨
      ∃ added, Adds engine elems condition added := by
  rcases helems : elems val with _ | vs
  · refine Or.inl ⟨hrefused.mpr helems, fun db => ⟨.needSlice val, ?_⟩⟩
    rw [hbuild, EqFields.buildIN, helems]
  · have haccepted : ¬ condition.Refused elems := by
      rw [hrefused, helems]
      exact Option.some_ne_none vs
    rcases vs with _ | ⟨param, params⟩
    · refine Or.inr ⟨[], fun db => ?_, haccepted, ?_, fun _ row => ?_⟩
      · rw [hbuild, EqFields.buildIN, helems, List.append_nil]
      · exact ⟨fun _ => hlike, fun _ _ h => (nomatch h)⟩
      · exact ⟨fun _ => hnone helems row, fun _ _ h => (nomatch h)⟩
    · have hadds (db : Query ν) : condition.buildCondition elems db = .ok (db ++
          [⟨key.val ++ ' ' :: (opText op ++ ' ' :: '(' :: (placeholder (param :: params) ++ [')'])),
            param :: params⟩]) := by
        rw [hbuild, EqFields.buildIN, helems]
        rfl
      refine Or.inr ⟨_, adds_of_parse hadds haccepted hlike ?_ (hparse param params)
        (hmeaning _ helems)⟩
      intro h
      rw [hempty h] at helems
      nomatch helems

/-- **One condition**, as a call makes it: it is refused, or its clauses are added. -/
theorem Call.refused_or_adds (engine : Engine κ ν) (elems : ν → Option (List ν)) (c : Call ν) :
    (c.condition.Refused elems ∧ ∀ db, ∃ err, c.condition.buildCondition elems db = .error err) ∨
      ∃ added, Adds engine elems c.condition added := by
  rcases c with ⟨op, key, val⟩
  cases op with
  | eq | neq | gte | lte =>
    exact Or.inr (adds_scalar (fun _ => rfl) not_false not_false not_false (by decide) rfl
      fun row => holds_singleton (by decide) _ _)
  | like =>
    refine Or.inr ⟨[⟨key.val ++ ' ' :: (opText .like ++ [' ', '%', '?', '%']), [val]⟩], ?_⟩
    refine ⟨fun _ => rfl, not_false, ?_, fun h => absurd trivial h⟩
    rw [List.forall_mem_singleton, Clause.WellFormed, Clause.comparison, parse_like]
    exact ⟨fun h => absurd rfl h, fun h => absurd trivial h⟩
  | isIn =>
    refine refused_or_adds_list (.isIn ⟨key, val, .isIn⟩) (fun _ => rfl) Iff.rfl
      not_false id (fun h _ => Or.inl h) (parse_isIn key) ?_
    intro vs hvs row
    show _ ↔ ∃ vs, elems val = some vs ∧ _
    exact ⟨fun h => ⟨vs, hvs, h⟩, fun ⟨_, hus, h⟩ => Option.some.inj (hus.symm.trans hvs) ▸ h⟩
  | notIn =>
    refine refused_or_adds_list (.notIn ⟨key, val, .notIn⟩) (fun _ => rfl) Iff.rfl
      not_false False.elim (fun h _ => Or.inr ⟨[], h, fun _ hv => (nomatch hv)⟩)
      (parse_notIn key) ?_
    intro vs hvs row
    show _ ↔ ∃ vs, elems val = some vs ∧ _
    exact ⟨fun h => ⟨vs, hvs, h⟩, fun ⟨_, hus, h⟩ => Option.some.inj (hus.symm.trans hvs) ▸ h⟩

/-! ## The whole filter -/

/-- What becomes of a filter, from what becomes of its conditions. -/
theorem fill_cases (engine : Engine κ ν) (elems : ν → Option (List ν)) (table : DBModel)
    (calls : List (Call ν)) :
    ((∃ c ∈ calls, c.condition.Refused elems) ∧ ∀ db, ∃ err,
      FieldFilter.fill elems table (calls.map Call.condition) db = .error err) ∨
    ∃ added, (∀ c ∈ calls, ¬ c.condition.Refused elems) ∧
      (∀ db, FieldFilter.fill elems table (calls.map Call.condition) db = .ok (db ++ added)) ∧
      ((∀ clause ∈ added, clause.WellFormed) ↔ ∀ c ∈ calls, ¬ c.condition.IsLike) ∧
      ((∀ c ∈ calls, ¬ c.condition.IsLike) → ∀ row,
        (∀ clause ∈ added, clause.SatisfiedBy engine row) ↔ ∀ c ∈ calls,
          c.condition.EmptyIn elems ∨ c.condition.SatisfiedBy engine elems row) := by
  induction calls with
  | nil =>
    refine Or.inr ⟨[], fun _ h => (nomatch h), fun db => ?_, ?_, fun _ row => ?_⟩
    · rw [List.append_nil]
      rfl
    · exact ⟨fun _ _ h => (nomatch h), fun _ _ h => (nomatch h)⟩
    · exact ⟨fun _ _ h => (nomatch h), fun _ _ h => (nomatch h)⟩
  | cons c calls ih =>
    rcases c.refused_or_adds engine elems with ⟨hrefused, herror⟩ | ⟨first, hadds⟩
    · refine Or.inl ⟨⟨c, List.mem_cons_self, hrefused⟩, fun db => ?_⟩
      rcases herror db with ⟨err, herr⟩
      exact ⟨_, by rw [List.map_cons, FieldFilter.fill, herr]⟩
    · have hstep (db : Query ν) : FieldFilter.fill elems table ((c :: calls).map Call.condition) db =
          FieldFilter.fill elems table (calls.map Call.condition) (db ++ first) := by
        rw [List.map_cons, FieldFilter.fill, hadds.build]
      rcases ih with ⟨⟨d, hd, hrefused⟩, herror⟩ | ⟨added, haccepted, hfill, hwell, hsatisfied⟩
      · refine Or.inl ⟨⟨d, List.mem_cons_of_mem c hd, hrefused⟩, fun db => ?_⟩
        rw [hstep]
        exact herror (db ++ first)
      · refine Or.inr ⟨first ++ added, ?_, fun db => ?_, ?_, fun hlike row => ?_⟩
        · exact List.forall_mem_cons.mpr ⟨hadds.accepted, haccepted⟩
        · rw [hstep, hfill, List.append_assoc]
        · rw [List.forall_mem_append, List.forall_mem_cons, hadds.wellFormed, hwell]
        · rcases List.forall_mem_cons.mp hlike with ⟨hc, hcalls⟩
          rw [List.forall_mem_append, List.forall_mem_cons, hadds.satisfied hc,
            hsatisfied hcalls]

/-- **A filter is exact exactly when** one of its conditions is refused, or none is `LIKE` and an
`IN` over an empty list comes with other conditions that no row satisfies anyway. -/
theorem exact_iff (engine : Engine κ ν) (elems : ν → Option (List ν)) (table : DBModel)
    (calls : List (Call ν)) : (FieldFilter.ofCalls calls).Exact engine elems table ↔
      (∃ c ∈ calls, c.condition.Refused elems) ∨
        (∀ c ∈ calls, ¬ c.condition.IsLike) ∧
          ((∃ c ∈ calls, c.condition.EmptyIn elems) → ∀ row, ∃ c ∈ calls,
            ¬ c.condition.EmptyIn elems ∧ ¬ c.condition.SatisfiedBy engine elems row) := by
  unfold FieldFilter.Exact FieldFilter.fillCondition
  rw [conditions_ofCalls]
  rcases fill_cases engine elems table calls with
    ⟨hrefused, herror⟩ | ⟨added, haccepted, hfill, hwell, hsatisfied⟩
  · refine ⟨fun _ => Or.inl hrefused, fun _ db => ?_⟩
    rcases herror db with ⟨err, herr⟩
    rw [herr]
    trivial
  · have hnone : ¬ ∃ c ∈ calls, c.condition.Refused elems :=
      fun ⟨c, hc, hrefused⟩ => haccepted c hc hrefused
    simp only [hfill, hnone, false_or]
    constructor
    · intro hexact
      rcases hexact [] with ⟨added', hadded, hwell', hrows⟩
      obtain rfl := List.append_cancel_left hadded
      have hlike := hwell.mp hwell'
      refine ⟨hlike, ?_⟩
      rintro ⟨c, hc, hempty⟩ row
      by_contra hall
      apply FilterCondition.not_satisfiedBy_of_emptyIn hempty engine row
      apply (hrows row).mp _ c.condition (List.mem_map_of_mem hc)
      rw [hsatisfied hlike row]
      intro d hd
      by_contra hd'
      exact hall ⟨d, hd, fun h => hd' (Or.inl h), fun h => hd' (Or.inr h)⟩
    · rintro ⟨hlike, hempty⟩ db
      refine ⟨added, rfl, hwell.mpr hlike, fun row => ?_⟩
      rw [hsatisfied hlike row, List.forall_mem_map]
      constructor
      · intro h c hc
        by_contra hnot
        have hc' := (h c hc).resolve_right hnot
        rcases hempty ⟨c, hc, hc'⟩ row with ⟨d, hd, hd', hd''⟩
        exact (h d hd).elim hd' hd''
      · exact fun h c hc => Or.inr (h c hc)

end Exact

/-! ## Filters that go wrong -/

/-- Values are numbers, or lists of them behind a tag; a column contains its own value. -/
def demoEngine : Engine ℕ (ℕ ⊕ List ℕ) where
  compare _ x v := v = .inl x
  contains x v := v = .inl x

def demoElems : ℕ ⊕ List ℕ → Option (List (ℕ ⊕ List ℕ))
  | .inl _ => none
  | .inr ns => some (ns.map .inl)

def demoTable : DBModel := ⟨fun _ => "game", "player"⟩

/-- The column `n`. -/
def demoColumn : Column := ⟨['n'], by decide⟩

/-- `LIKE` makes the clause `n LIKE %?%`. -/
theorem like_not_exact :
    ¬ (FieldFilter.ofCalls [⟨.like, demoColumn, .inl 1⟩]).Exact demoEngine demoElems demoTable := by
  intro hexact
  rcases hexact [] with ⟨added, hadded, hwell, -⟩
  obtain rfl : added = [⟨['n', ' ', 'L', 'I', 'K', 'E', ' ', '%', '?', '%'], [.inl 1]⟩] :=
    hadded.symm
  exact hwell _ List.mem_cons_self rfl

/-- `IN` over an empty list selects every row. -/
theorem emptyIn_not_exact :
    ¬ (FieldFilter.ofCalls [⟨.isIn, demoColumn, .inr []⟩]).Exact demoEngine demoElems demoTable := by
  intro hexact
  rcases hexact [] with ⟨added, hadded, -, hrows⟩
  obtain rfl : added = [] := hadded.symm
  rcases (hrows fun _ => 0).mp (fun _ h => (nomatch h)) (.isIn ⟨demoColumn, .inr [], .isIn⟩)
    (List.mem_singleton.mpr rfl) with ⟨vs, hvs, v, hv, -⟩
  rw [← Option.some.inj hvs] at hv
  nomatch hv

end Accumulation.Orm
