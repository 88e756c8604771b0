/-
# Accumulation.Lib.WhereClause — comparisons in SQL text, with placeholders for their values.

A small part of SQL: a column, an operator, and one placeholder or a list of them in parentheses.
`lex` cuts a text into tokens, `parse` reads a comparison from them, and an `Engine` says which rows
satisfy it.  A column name is a word; before a blank it is one token, whatever follows
(`lex_word`).
-/
import Mathlib.Data.List.Basic

namespace Accumulation.Lib.WhereClause

/-! ## Tokens -/

inductive Token
  | word (chars : List Char)
  | placeholder
  | percent
  | leftParen
  | rightParen
  | comma
  deriving DecidableEq, Repr

/-- The tokens of one character. -/
def special (c : Char) : Option Token :=
  if c = '?' then some .placeholder
  else if c = '%' then some .percent
  else if c = '(' then some .leftParen
  else if c = ')' then some .rightParen
  else if c = ',' then some .comma
  else none

/-- The word that ends here, if there is one. -/
def flush (chars : List Char) : List Token := if chars = [] then [] else [.word chars]

/-- The tokens of a text; `chars` is the word that is being read. -/
def lexFrom (chars : List Char) : List Char → List Token
  | [] => flush chars
  | c :: rest =>
    if c = ' ' then flush chars ++ lexFrom [] rest
    else match special c with
      | some token => flush chars ++ token :: lexFrom [] rest
      | none => lexFrom (chars ++ [c]) rest

def lex (text : List Char) : List Token := lexFrom [] text

/-- The character can stand in a word. -/
def isWordChar (c : Char) : Bool := c ≠ ' ' && (special c).isNone

/-- The text is one word. -/
def IsWord (text : List Char) : Prop := text ≠ [] ∧ text.all isWordChar = true

instance (text : List Char) : Decidable (IsWord text) := inferInstanceAs (Decidable (_ ∧ _))

theorem lexFrom_append {word : List Char} (hword : word.all isWordChar = true)
    (chars rest : List Char) : lexFrom chars (word ++ rest) = lexFrom (chars ++ word) rest := by
  induction word generalizing chars with
  | nil => rw [List.nil_append, List.append_nil]
  | cons c word ih =>
    rw [List.all_cons, Bool.and_eq_true] at hword
    rcases hword with ⟨hc, hword⟩
    simp only [isWordChar, Bool.and_eq_true, decide_eq_true_eq, Option.isNone_iff_eq_none] at hc
    rw [List.cons_append, lexFrom, if_neg hc.1, hc.2]
    show lexFrom (chars ++ [c]) (word ++ rest) = _
    rw [ih hword, List.append_assoc]
    rfl

/-- **A word before a blank** is a token. -/
theorem lex_word {word : List Char} (hword : IsWord word) (rest : List Char) :
    lex (word ++ ' ' :: rest) = .word word :: lex rest := by
  rw [lex, lexFrom_append hword.2, List.nil_append, lexFrom, if_pos rfl, flush, if_neg hword.1]
  rfl

/-! ## Comparisons -/

inductive OP
  | eq
  | neq
  | gte
  | lte
  | notIn
  | isIn
  | like
  deriving DecidableEq, Repr

/-- The operators that take one value. -/
def scalarOp (word : List Char) : Option OP :=
  if word = ['='] then some .eq
  else if word = ['<', '>'] then some .neq
  else if word = ['>', '='] then some .gte
  else if word = ['<', '='] then some .lte
  else if word = ['L', 'I', 'K', 'E'] then some .like
  else none

/-- The placeholders behind a left parenthesis. -/
def parseList : List Token → Option ℕ
  | [.placeholder, .rightParen] => some 1
  | .placeholder :: .comma :: rest => (parseList rest).map (· + 1)
  | _ => none

/-- A comparison of a column with as many values as there are placeholders. -/
structure Comparison where
  column : List Char
  op : OP
  placeholders : ℕ
  deriving DecidableEq, Repr

def parse : List Token → Option Comparison
  | [.word column, .word op, .placeholder] => (scalarOp op).map fun op => ⟨column, op, 1⟩
  | .word column :: .word op :: .leftParen :: rest =>
    if op = ['I', 'N'] then (parseList rest).map fun n => ⟨column, .isIn, n⟩ else none
  | .word column :: .word negation :: .word op :: .leftParen :: rest =>
    if negation = ['N', 'O', 'T'] ∧ op = ['I', 'N'] then
      (parseList rest).map fun n => ⟨column, .notIn, n⟩
    else none
  | _ => none

/-! ## Meaning -/

/-- Which values of a column compare with which values of a query; for `IN` and `NOT IN` see
`holds`. -/
structure Engine (κ ν : Type*) where
  compare : OP → κ → ν → Bool
  /-- the column contains the value -/
  contains : κ → ν → Bool

variable {κ ν : Type*}

/-- A list is compared value by value. -/
def Engine.holds (engine : Engine κ ν) (op : OP) (x : κ) (values : List ν) : Prop :=
  match op with
  | .isIn => ∃ v ∈ values, engine.compare .eq x v = true
  | .notIn => ∀ v ∈ values, engine.compare .neq x v = true
  | op => ∃ v, values = [v] ∧ engine.compare op x v = true

/-- A text and the values bound to its placeholders. -/
structure Clause (ν : Type*) where
  text : List Char
  vars : List ν
  deriving DecidableEq, Repr

/-- What a clause says, if it is well-formed: it is a comparison with as many placeholders as values.
The values are bound in order. -/
def Clause.comparison (clause : Clause ν) : Option Comparison :=
  (parse (lex clause.text)).filter fun c => c.placeholders = clause.vars.length

def Clause.WellFormed (clause : Clause ν) : Prop := clause.comparison ≠ none

instance (clause : Clause ν) : Decidable clause.WellFormed :=
  inferInstanceAs (Decidable (_ ≠ _))

/-- A row satisfies a clause. -/
def Clause.SatisfiedBy (engine : Engine κ ν) (row : List Char → κ) (clause : Clause ν) : Prop :=
  match clause.comparison with
  | some c => engine.holds c.op (row c.column) clause.vars
  | none => False

theorem Clause.satisfiedBy_iff {engine : Engine κ ν} {row : List Char → κ} {clause : Clause ν}
    {c : Comparison} (h : clause.comparison = some c) :
    clause.SatisfiedBy engine row ↔ engine.holds c.op (row c.column) clause.vars := by
  rw [SatisfiedBy, h]

end Accumulation.Lib.WhereClause
