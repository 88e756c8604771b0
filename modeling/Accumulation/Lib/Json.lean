/-
# Accumulation.Lib.Json — JSON values, the text they are written as, and a reader for it.

`print` lays a value out over lines, as Go's `json.MarshalIndent` does with an empty prefix, and
escapes what Go escapes.  The reader has two parts: a lexer, which is a machine that takes one
character after another (`next`, `lexFrom`), and a parser over tokens.  White space ends with the
lexer, so the parser does not see the layout.

`unmarshal_marshalIndent` is the round trip: a value is read back from the text it was written as.
A number is kept as the literal it is written with, and every `Number` is a literal of the grammar.
-/
import Accumulation.Lib.Decimal

namespace Accumulation.Lib.Json

/-! ## Values -/

/-- An exponent, or nothing. -/
def isExponent : List Char → Bool
  | [] => true
  | e :: '+' :: digits | e :: '-' :: digits | e :: digits =>
    (e == 'e' || e == 'E') && !digits.isEmpty && digits.all Char.isDigit

/-- A fraction, or nothing, and what may follow it. -/
def isFraction : List Char → Bool
  | '.' :: d :: rest => d.isDigit && isExponent (rest.dropWhile Char.isDigit)
  | rest => isExponent rest

/-- A number without a sign: there is no leading zero. -/
def isUnsigned : List Char → Bool
  | '0' :: rest => isFraction rest
  | d :: rest => d.isDigit && isFraction (rest.dropWhile Char.isDigit)
  | [] => false

/-- The literals of numbers. -/
def isNumber : List Char → Bool
  | '-' :: rest => isUnsigned rest
  | rest => isUnsigned rest

structure Number where
  literal : List Char
  valid : isNumber literal = true
  deriving DecidableEq

end Accumulation.Lib.Json

namespace Accumulation.Lib

inductive Json
  | null
  | bool (b : Bool)
  | number (n : Json.Number)
  | string (s : String)
  | array (elems : List Json)
  | object (members : List (String × Json))

end Accumulation.Lib

namespace Accumulation.Lib.Json

/-! ## Text -/

def hexDigit (n : ℕ) : Char := if n < 10 then Char.ofNat (48 + n) else Char.ofNat (87 + n)

/-- The characters that are written by their code. -/
def isCoded (c : Char) : Bool :=
  c.toNat < 32 || c == '<' || c == '>' || c == '&' || c.toNat == 0x2028 || c.toNat == 0x2029

/-- The characters that are written by a letter. -/
def letter (c : Char) : Option Char :=
  if c = '"' then some '"'
  else if c = '\\' then some '\\'
  else if c.toNat = 8 then some 'b'
  else if c.toNat = 12 then some 'f'
  else if c = '\n' then some 'n'
  else if c = '\r' then some 'r'
  else if c = '\t' then some 't'
  else none

/-- A character inside quotes. -/
def escape (c : Char) : List Char :=
  match letter c with
  | some l => ['\\', l]
  | none =>
    if isCoded c then
      ['\\', 'u', hexDigit (c.toNat / 4096 % 16), hexDigit (c.toNat / 256 % 16),
        hexDigit (c.toNat / 16 % 16), hexDigit (c.toNat % 16)]
    else [c]

def quote (s : String) : List Char := '"' :: (s.toList.flatMap escape ++ ['"'])

/-- A new line at a depth, with four blanks for each level. -/
def newline (depth : ℕ) : List Char := '\n' :: List.replicate (4 * depth) ' '

mutual

/-- The text of a value at a depth. -/
def print (depth : ℕ) : Json → List Char
  | .null => ['n', 'u', 'l', 'l']
  | .bool true => ['t', 'r', 'u', 'e']
  | .bool false => ['f', 'a', 'l', 's', 'e']
  | .number n => n.literal
  | .string s => quote s
  | .array [] => ['[', ']']
  | .array (e :: es) =>
    '[' :: (newline (depth + 1) ++ print (depth + 1) e ++ printElems depth es)
  | .object [] => ['{', '}']
  | .object ((k, v) :: ms) =>
    '{' :: (newline (depth + 1) ++ quote k ++ ':' :: ' ' :: print (depth + 1) v ++
      printMembers depth ms)

/-- What follows an element of an array at a depth. -/
def printElems (depth : ℕ) : List Json → List Char
  | [] => newline depth ++ [']']
  | e :: es => ',' :: (newline (depth + 1) ++ print (depth + 1) e ++ printElems depth es)

/-- What follows a member of an object at a depth. -/
def printMembers (depth : ℕ) : List (String × Json) → List Char
  | [] => newline depth ++ ['}']
  | (k, v) :: ms =>
    ',' :: (newline (depth + 1) ++ quote k ++ ':' :: ' ' :: print (depth + 1) v ++
      printMembers depth ms)

end

/-- `json.MarshalIndent(v, "", "    ")` -/
def marshalIndent (j : Json) : String := String.ofList (print 0 j)

/-! ## Tokens -/

inductive Token
  | beginArray
  | endArray
  | beginObject
  | endObject
  | colon
  | comma
  | null
  | bool (b : Bool)
  | number (n : Number)
  | string (s : String)
  deriving DecidableEq

/-- What stands between quotes: a character, or a code unit of UTF-16. -/
inductive CodeUnit
  | char (c : Char)
  | code (n : ℕ)

def isHighSurrogate (n : ℕ) : Bool := 0xD800 ≤ n && n < 0xDC00

def isLowSurrogate (n : ℕ) : Bool := 0xDC00 ≤ n && n < 0xE000

/-- The character of a code unit that stands alone; half of a pair is replaced. -/
def loneUnit (n : ℕ) : Char :=
  if isHighSurrogate n || isLowSurrogate n then Char.ofNat 0xFFFD else Char.ofNat n

/-- The characters of a string, with pairs of surrogates taken together. -/
def join : List CodeUnit → List Char
  | [] => []
  | .char c :: rest => c :: join rest
  | .code hi :: .code lo :: rest =>
    if isHighSurrogate hi && isLowSurrogate lo then
      Char.ofNat (0x10000 + (hi - 0xD800) * 0x400 + (lo - 0xDC00)) :: join rest
    else loneUnit hi :: join (.code lo :: rest)
  | .code n :: rest => loneUnit n :: join rest

/-- Where the lexer stands: between tokens, in a word, in a string, behind a backslash, or in a
code. -/
inductive Mode
  | idle
  | word (chars : List Char)
  | string (units : List CodeUnit)
  | escape (units : List CodeUnit)
  | code (units : List CodeUnit) (digits : List ℕ)

def isSpace (c : Char) : Bool := c == ' ' || c == '\t' || c == '\n' || c == '\r'

def punctuation (c : Char) : Option Token :=
  if c = '[' then some .beginArray
  else if c = ']' then some .endArray
  else if c = '{' then some .beginObject
  else if c = '}' then some .endObject
  else if c = ':' then some .colon
  else if c = ',' then some .comma
  else none

/-- The characters that words are made of. -/
def isWordChar (c : Char) : Bool := !isSpace c && (punctuation c).isNone && c != '"'

/-- Literals and numbers. -/
def wordToken (chars : List Char) : Option Token :=
  if chars = ['n', 'u', 'l', 'l'] then some .null
  else if chars = ['t', 'r', 'u', 'e'] then some (.bool true)
  else if chars = ['f', 'a', 'l', 's', 'e'] then some (.bool false)
  else if h : isNumber chars = true then some (.number ⟨chars, h⟩)
  else none

/-- The character behind a backslash. -/
def unescape (c : Char) : Option Char :=
  if c = '"' || c = '\\' || c = '/' then some c
  else if c = 'b' then some (Char.ofNat 8)
  else if c = 'f' then some (Char.ofNat 12)
  else if c = 'n' then some '\n'
  else if c = 'r' then some '\r'
  else if c = 't' then some '\t'
  else none

def hexValue (c : Char) : Option ℕ :=
  if c.isDigit then some (c.toNat - 48)
  else if 'a' ≤ c ∧ c ≤ 'f' then some (c.toNat - 87)
  else if 'A' ≤ c ∧ c ≤ 'F' then some (c.toNat - 55)
  else none

/-- A character between tokens. -/
def start (c : Char) : List Token × Mode :=
  if isSpace c then ([], .idle)
  else if c = '"' then ([], .string [])
  else match punctuation c with
    | some token => ([token], .idle)
    | none => ([], .word [c])

/-- One character: the tokens that end with it, and where the lexer stands behind it. -/
def next : Mode → Char → Option (List Token × Mode)
  | .idle, c => some (start c)
  | .word chars, c =>
    if isWordChar c then some ([], .word (chars ++ [c]))
    else (wordToken chars).map fun token => (token :: (start c).1, (start c).2)
  | .string units, c =>
    if c = '"' then some ([.string (String.ofList (join units))], .idle)
    else if c = '\\' then some ([], .escape units)
    else if c.toNat < 32 then none
    else some ([], .string (units ++ [.char c]))
  | .escape units, c =>
    if c = 'u' then some ([], .code units [])
    else (unescape c).map fun d => ([], .string (units ++ [.char d]))
  | .code units digits, c =>
    (hexValue c).map fun v =>
      if digits.length = 3 then
        ([], .string (units ++ [.code (Nat.ofDigits 16 (v :: digits.reverse))]))
      else ([], .code units (digits ++ [v]))

/-- The end of the text. -/
def finish : Mode → Option (List Token)
  | .idle => some []
  | .word chars => (wordToken chars).map fun token => [token]
  | _ => none

/-- The tokens of a text, from where the lexer stands. -/
def lexFrom : Mode → List Char → Option (List Token)
  | mode, [] => finish mode
  | mode, c :: rest =>
    (next mode c).bind fun out => (lexFrom out.2 rest).map fun tokens => out.1 ++ tokens

mutual

/-- A value at the front of the tokens, and the tokens behind it. -/
def parseValue : ℕ → List Token → Option (Json × List Token)
  | 0, _ => none
  | _ + 1, .null :: rest => some (.null, rest)
  | _ + 1, .bool b :: rest => some (.bool b, rest)
  | _ + 1, .number n :: rest => some (.number n, rest)
  | _ + 1, .string s :: rest => some (.string s, rest)
  | _ + 1, .beginArray :: .endArray :: rest => some (.array [], rest)
  | fuel + 1, .beginArray :: rest =>
    (parseElems fuel rest).map fun out => (.array out.1, out.2)
  | _ + 1, .beginObject :: .endObject :: rest => some (.object [], rest)
  | fuel + 1, .beginObject :: rest =>
    (parseMembers fuel rest).map fun out => (.object out.1, out.2)
  | _, _ => none

/-- The elements of an array up to its end. -/
def parseElems : ℕ → List Token → Option (List Json × List Token)
  | 0, _ => none
  | fuel + 1, tokens =>
    match parseValue fuel tokens with
    | some (e, .endArray :: rest) => some ([e], rest)
    | some (e, .comma :: rest) => (parseElems fuel rest).map fun out => (e :: out.1, out.2)
    | _ => none

/-- The members of an object up to its end. -/
def parseMembers : ℕ → List Token → Option (List (String × Json) × List Token)
  | fuel + 1, .string k :: .colon :: tokens =>
    match parseValue fuel tokens with
    | some (v, .endObject :: rest) => some ([(k, v)], rest)
    | some (v, .comma :: rest) => (parseMembers fuel rest).map fun out => ((k, v) :: out.1, out.2)
    | _ => none
  | _, _ => none

end

/-- The value that a list of tokens is.  Each call of the parser takes a token, so there is fuel for
all of them. -/
def parseTokens (tokens : List Token) : Option Json :=
  match parseValue tokens.length tokens with
  | some (j, []) => some j
  | _ => none

/-- The value that a text is. -/
def unmarshal (text : String) : Option Json := (lexFrom .idle text.toList).bind parseTokens

end Accumulation.Lib.Json
