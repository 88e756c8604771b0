/-
# Accumulation.Lib.JsonRoundTrip — a value is read back from its text.

The proof goes through the tokens of a value.  The lexer, run over a printed value, yields them
(`lexFrom_print`), whatever the depth the value was printed at; and the parser makes the value of
them again (`parseValue_tokens`).  Both are recursions over the value.
-/
import Accumulation.Lib.Json

namespace Accumulation.Lib.Json

/-! ## Numbers -/

theorem dropWhile_isDigit {digits : List Char} (h : digits.all Char.isDigit = true) :
    digits.dropWhile Char.isDigit = [] := by
  rw [List.dropWhile_eq_nil_iff]
  exact List.all_eq_true.mp h

theorem isUnsigned_toDigits (n : ℕ) : isUnsigned (Nat.toDigits 10 n) = true := by
  rcases Decimal.toDigits_eq_cons n with ⟨c, cs, h, hc, hcs⟩
  rw [h]
  by_cases hzero : c = '0'
  · subst hzero
    rw [Decimal.toDigits_zero_head h]
    rfl
  · have hunfold : isUnsigned (c :: cs) =
        (c.isDigit && isFraction (cs.dropWhile Char.isDigit)) := by
      unfold isUnsigned
      split
      next heq => exact absurd (List.cons.inj heq).1 hzero
      next heq =>
        rcases List.cons.inj heq with ⟨rfl, rfl⟩
        rfl
      next heq => exact absurd heq (List.cons_ne_nil c cs)
    rw [hunfold, hc, dropWhile_isDigit hcs]
    rfl

theorem isNumber_spell (n : ℤ) : isNumber (Decimal.spell n) = true := by
  unfold Decimal.spell
  split
  · exact isUnsigned_toDigits n.natAbs
  · have hunsigned := isUnsigned_toDigits n.natAbs
    rcases Decimal.toDigits_eq_cons n.natAbs with ⟨c, cs, h, hc, -⟩
    rw [h] at hunsigned ⊢
    unfold isNumber
    split
    next heq =>
      rw [(List.cons.inj heq).1] at hc
      exact absurd hc (by decide)
    next => exact hunsigned

/-- The literal of an integer. -/
def Number.ofInt (n : ℤ) : Number := ⟨Decimal.spell n, isNumber_spell n⟩

/-- The characters of numbers. -/
def isNumberChar (c : Char) : Bool :=
  c.isDigit || c == '-' || c == '+' || c == '.' || c == 'e' || c == 'E'

theorem isNumberChar_of_isDigit {c : Char} (h : c.isDigit = true) : isNumberChar c = true := by
  rw [isNumberChar, h]
  rfl

theorem all_isNumberChar_of_digits {digits : List Char} (h : digits.all Char.isDigit = true) :
    digits.all isNumberChar = true := by
  rw [List.all_eq_true] at h ⊢
  intro c hc
  exact isNumberChar_of_isDigit (h c hc)

/-- Digits in front do not matter. -/
theorem all_isNumberChar_of_dropWhile {cs : List Char}
    (h : (cs.dropWhile Char.isDigit).all isNumberChar = true) : cs.all isNumberChar = true := by
  rw [← List.takeWhile_append_dropWhile (p := Char.isDigit) (l := cs), List.all_append, h,
    Bool.and_true]
  exact all_isNumberChar_of_digits List.all_takeWhile

theorem all_isNumberChar_of_isExponent {cs : List Char} (h : isExponent cs = true) :
    cs.all isNumberChar = true := by
  -- the letter, the sign if there is one, and the digits
  have hletter : ∀ {e : Char} {digits : List Char},
      ((e == 'e' || e == 'E') && !digits.isEmpty && digits.all Char.isDigit) = true →
        isNumberChar e = true ∧ digits.all isNumberChar = true := by
    intro e digits h
    rw [Bool.and_eq_true, Bool.and_eq_true, Bool.or_eq_true, beq_iff_eq, beq_iff_eq] at h
    rcases h with ⟨⟨rfl | rfl, -⟩, hdigits⟩
    · exact ⟨by decide, all_isNumberChar_of_digits hdigits⟩
    · exact ⟨by decide, all_isNumberChar_of_digits hdigits⟩
  unfold isExponent at h
  split at h
  next => rfl
  next =>
    rcases hletter h with ⟨he, hdigits⟩
    rw [List.all_cons, List.all_cons, he, hdigits]
    rfl
  next =>
    rcases hletter h with ⟨he, hdigits⟩
    rw [List.all_cons, List.all_cons, he, hdigits]
    rfl
  next =>
    rcases hletter h with ⟨he, hdigits⟩
    rw [List.all_cons, he, hdigits]
    rfl

theorem all_isNumberChar_of_isFraction {cs : List Char} (h : isFraction cs = true) :
    cs.all isNumberChar = true := by
  unfold isFraction at h
  split at h
  next d rest =>
    rw [Bool.and_eq_true] at h
    rw [List.all_cons, List.all_cons, isNumberChar_of_isDigit h.1,
      all_isNumberChar_of_dropWhile (all_isNumberChar_of_isExponent h.2)]
    rfl
  next => exact all_isNumberChar_of_isExponent h

theorem all_isNumberChar_of_isUnsigned {cs : List Char} (h : isUnsigned cs = true) :
    cs.all isNumberChar = true := by
  unfold isUnsigned at h
  split at h
  next rest =>
    rw [List.all_cons, all_isNumberChar_of_isFraction h]
    rfl
  next d rest _ =>
    rw [Bool.and_eq_true] at h
    rw [List.all_cons, isNumberChar_of_isDigit h.1,
      all_isNumberChar_of_dropWhile (all_isNumberChar_of_isFraction h.2)]
    rfl
  next => exact absurd h Bool.false_ne_true

theorem Number.all_isNumberChar (n : Number) : n.literal.all isNumberChar = true := by
  have h := n.valid
  unfold isNumber at h
  split at h
  next rest heq =>
    rw [heq, List.all_cons, all_isNumberChar_of_isUnsigned h]
    rfl
  next => exact all_isNumberChar_of_isUnsigned h

theorem Number.literal_ne_nil (n : Number) : n.literal ≠ [] := by
  intro hnil
  have h := n.valid
  rw [hnil] at h
  exact absurd h (by decide)

/-- A number is no literal, so the lexer takes it for what it is. -/
theorem wordToken_number (n : Number) : wordToken n.literal = some (.number n) := by
  have hne : ∀ {chars : List Char}, isNumber chars = false → n.literal ≠ chars := by
    rintro chars h rfl
    rw [n.valid] at h
    exact Bool.noConfusion h
  rw [wordToken, if_neg (hne (by decide)), if_neg (hne (by decide)), if_neg (hne (by decide)),
    dif_pos n.valid]

/-! ## Strings -/

/-- A step of the lexer that ends no token. -/
theorem lexFrom_silent {mode mode' : Mode} {c : Char} (h : next mode c = some ([], mode'))
    (rest : List Char) : lexFrom mode (c :: rest) = lexFrom mode' rest := by
  show (next mode c).bind _ = _
  rw [h, Option.bind_some]
  show (lexFrom mode' rest).map (fun tokens => tokens) = _
  exact Option.map_id'

/-- A step of the lexer that ends a token. -/
theorem lexFrom_emit {mode mode' : Mode} {c : Char} {token : Token}
    (h : next mode c = some ([token], mode')) (rest : List Char) :
    lexFrom mode (c :: rest) = (lexFrom mode' rest).map (token :: ·) := by
  show (next mode c).bind _ = _
  rw [h]
  rfl

/-- How the lexer keeps a character that was written. -/
def unitOf (c : Char) : CodeUnit :=
  if (letter c).isNone && isCoded c then .code c.toNat else .char c

/-- Coded characters are below the surrogates. -/
theorem isCoded_lt {c : Char} (h : isCoded c = true) : c.toNat < 0xD800 := by
  simp only [isCoded, Bool.or_eq_true, decide_eq_true_eq, beq_iff_eq] at h
  rcases h with ((((h | rfl) | rfl) | rfl) | h) | h
  · omega
  · decide
  · decide
  · decide
  · omega
  · omega

theorem join_code {c : Char} (h : c.toNat < 0xD800) (rest : List CodeUnit) :
    join (.code c.toNat :: rest) = c :: join rest := by
  have hhigh : isHighSurrogate c.toNat = false := by
    rw [isHighSurrogate, Bool.and_eq_false_iff, decide_eq_false_iff_not]
    exact .inl (by omega)
  have hlow : isLowSurrogate c.toNat = false := by
    rw [isLowSurrogate, Bool.and_eq_false_iff, decide_eq_false_iff_not]
    exact .inl (by omega)
  have hlone : loneUnit c.toNat = c := by
    rw [loneUnit, hhigh, hlow]
    exact Char.ofNat_toNat c
  cases rest with
  | nil =>
    show [loneUnit c.toNat] = [c]
    rw [hlone]
  | cons unit rest =>
    cases unit with
    | char d =>
      show loneUnit c.toNat :: join (.char d :: rest) = _
      rw [hlone]
    | code lo =>
      show (if isHighSurrogate c.toNat && isLowSurrogate lo then _ else _) = _
      rw [hhigh, Bool.false_and, if_neg Bool.false_ne_true, hlone]

theorem join_map_unitOf (s : List Char) : join (s.map unitOf) = s := by
  induction s with
  | nil => rfl
  | cons c s ih =>
    rw [List.map_cons, unitOf]
    split
    next h =>
      rw [Bool.and_eq_true] at h
      rw [join_code (isCoded_lt h.2), ih]
    next =>
      show c :: join (s.map unitOf) = _
      rw [ih]

theorem hexValue_hexDigit : ∀ n < 16, hexValue (hexDigit n) = some n := by decide

theorem unescape_letter {c l : Char} (h : letter c = some l) : l ≠ 'u' ∧ unescape l = some c := by
  have hchar : ∀ {n : ℕ}, c.toNat = n → c = Char.ofNat n := by
    rintro n rfl
    exact (Char.ofNat_toNat c).symm
  unfold letter at h
  split at h
  next heq => rw [heq, ← Option.some.inj h]; decide
  split at h
  next heq => rw [heq, ← Option.some.inj h]; decide
  split at h
  next heq => rw [hchar heq, ← Option.some.inj h]; decide
  split at h
  next heq => rw [hchar heq, ← Option.some.inj h]; decide
  split at h
  next heq => rw [heq, ← Option.some.inj h]; decide
  split at h
  next heq => rw [heq, ← Option.some.inj h]; decide
  split at h
  next heq => rw [heq, ← Option.some.inj h]; decide
  cases h

/-- The lexer reads the four digits of a code. -/
theorem lexFrom_code {a b c d : ℕ} (ha : a < 16) (hb : b < 16) (hc : c < 16) (hd : d < 16)
    (units : List CodeUnit) (rest : List Char) :
    lexFrom (.code units []) (hexDigit a :: hexDigit b :: hexDigit c :: hexDigit d :: rest) =
      lexFrom (.string (units ++ [.code (Nat.ofDigits 16 [d, c, b, a])])) rest := by
  have hdigit : ∀ {n : ℕ} (digits : List ℕ), n < 16 → digits.length ≠ 3 →
      ∀ text, lexFrom (.code units digits) (hexDigit n :: text) =
        lexFrom (.code units (digits ++ [n])) text := by
    intro n digits hn hlen
    apply lexFrom_silent
    show (hexValue (hexDigit n)).map _ = _
    rw [hexValue_hexDigit n hn, Option.map_some, if_neg hlen]
  rw [hdigit [] ha nofun, List.nil_append, hdigit [a] hb nofun]
  rw [hdigit ([a] ++ [b]) hc nofun]
  apply lexFrom_silent
  show (hexValue (hexDigit d)).map _ = _
  rw [hexValue_hexDigit d hd]
  rfl

theorem ofDigits_code {n : ℕ} (h : n < 65536) :
    Nat.ofDigits 16 [n % 16, n / 16 % 16, n / 256 % 16, n / 4096 % 16] = n := by
  simp only [Nat.ofDigits_cons, Nat.ofDigits_nil]
  omega

/-- The lexer takes an escaped character back. -/
theorem lexFrom_escape (c : Char) (units : List CodeUnit) (rest : List Char) :
    lexFrom (.string units) (escape c ++ rest) = lexFrom (.string (units ++ [unitOf c])) rest := by
  have hbackslash : next (.string units) '\\' = some ([], .escape units) := rfl
  unfold escape unitOf
  split
  next l hl =>
    rcases unescape_letter hl with ⟨hu, hback⟩
    rw [hl, Option.isNone_some, Bool.false_and, if_neg Bool.false_ne_true]
    rw [List.cons_append, lexFrom_silent hbackslash]
    apply lexFrom_silent
    show (if l = 'u' then _ else _) = _
    rw [if_neg hu, hback]
    rfl
  next hl =>
    rw [hl, Option.isNone_none, Bool.true_and]
    split
    next hcoded =>
      have hlt := isCoded_lt hcoded
      rw [List.cons_append, lexFrom_silent hbackslash, List.cons_append,
        lexFrom_silent (show next (.escape units) 'u' = some ([], .code units []) from rfl)]
      refine (lexFrom_code ?_ ?_ ?_ ?_ units rest).trans ?_
      · exact Nat.mod_lt _ (by omega)
      · exact Nat.mod_lt _ (by omega)
      · exact Nat.mod_lt _ (by omega)
      · exact Nat.mod_lt _ (by omega)
      · rw [ofDigits_code (by omega)]
    next hraw =>
      -- neither a quote nor a backslash, which have letters, nor a control character
      have hquote : c ≠ '"' := by rintro rfl; exact absurd hl (by decide)
      have hslash : c ≠ '\\' := by rintro rfl; exact absurd hl (by decide)
      have hcontrol : ¬c.toNat < 32 := by
        intro hlt
        apply hraw
        rw [isCoded, decide_eq_true hlt]
        rfl
      apply lexFrom_silent
      show (if c = '"' then _ else _) = _
      rw [if_neg hquote, if_neg hslash, if_neg hcontrol]

theorem lexFrom_flatMap_escape (s : List Char) (units : List CodeUnit) (rest : List Char) :
    lexFrom (.string units) (s.flatMap escape ++ rest) =
      lexFrom (.string (units ++ s.map unitOf)) rest := by
  induction s generalizing units with
  | nil => rw [List.flatMap_nil, List.map_nil, List.nil_append, List.append_nil]
  | cons c s ih =>
    rw [List.flatMap_cons, List.append_assoc, lexFrom_escape, ih, List.map_cons, List.append_assoc]
    rfl

/-- **A quoted string** is a token. -/
theorem lexFrom_quote (s : String) (rest : List Char) :
    lexFrom .idle (quote s ++ rest) = (lexFrom .idle rest).map (.string s :: ·) := by
  have hopen : next .idle '"' = some ([], .string []) := rfl
  rw [quote, List.cons_append, lexFrom_silent hopen, List.append_assoc, lexFrom_flatMap_escape]
  show lexFrom (.string (s.toList.map unitOf)) ('"' :: rest) = _
  apply lexFrom_emit
  show some ([Token.string (String.ofList (join (s.toList.map unitOf)))], Mode.idle) = _
  rw [join_map_unitOf, String.ofList_toList]

/-! ## Words and white space -/

/-- A word ends before the text. -/
def Delimited (text : List Char) : Prop := ∀ c ∈ text.head?, isWordChar c = false

theorem delimited_cons {c : Char} (h : isWordChar c = false) (rest : List Char) :
    Delimited (c :: rest) := by
  intro d hd
  rw [List.head?_cons, Option.mem_some_iff] at hd
  rw [← hd, h]

theorem lexFrom_word_append {word : List Char} (h : word.all isWordChar = true)
    (chars rest : List Char) :
    lexFrom (.word chars) (word ++ rest) = lexFrom (.word (chars ++ word)) rest := by
  induction word generalizing chars with
  | nil => rw [List.nil_append, List.append_nil]
  | cons c word ih =>
    rw [List.all_cons, Bool.and_eq_true] at h
    have hstep : next (.word chars) c = some ([], .word (chars ++ [c])) := if_pos h.1
    rw [List.cons_append, lexFrom_silent hstep, ih h.2, List.append_assoc]
    rfl

/-- The end of a word ends its token, and the lexer goes on as between tokens. -/
theorem lexFrom_word_end {chars rest : List Char} {token : Token} (hrest : Delimited rest)
    (htoken : wordToken chars = some token) :
    lexFrom (.word chars) rest = (lexFrom .idle rest).map (token :: ·) := by
  cases rest with
  | nil =>
    show (wordToken chars).map _ = _
    rw [htoken]
    rfl
  | cons c rest =>
    have hc := hrest c rfl
    show (next (.word chars) c).bind _ = ((next .idle c).bind _).map _
    have hstep : next (.word chars) c = some (token :: (start c).1, (start c).2) := by
      show (if isWordChar c then _ else _) = _
      rw [hc, if_neg Bool.false_ne_true, htoken]
      rfl
    rw [hstep, show next .idle c = some (start c) from rfl]
    show (lexFrom (start c).2 rest).map _ = ((lexFrom (start c).2 rest).map _).map _
    rw [Option.map_map]
    rfl

/-- **A word before a delimiter** is a token. -/
theorem lexFrom_word {word rest : List Char} {token : Token} (hne : word ≠ [])
    (hword : word.all isWordChar = true) (hrest : Delimited rest)
    (htoken : wordToken word = some token) :
    lexFrom .idle (word ++ rest) = (lexFrom .idle rest).map (token :: ·) := by
  cases word with
  | nil => exact absurd rfl hne
  | cons c word =>
    rw [List.all_cons, Bool.and_eq_true] at hword
    have hstart : next .idle c = some ([], .word [c]) := by
      have hc := hword.1
      simp only [isWordChar, Bool.and_eq_true, Bool.not_eq_true', Option.isNone_iff_eq_none,
        bne_iff_ne] at hc
      rcases hc with ⟨⟨hspace, hpunct⟩, hquote⟩
      show some (start c) = _
      rw [start, hspace, if_neg Bool.false_ne_true, if_neg hquote, hpunct]
    rw [List.cons_append, lexFrom_silent hstart, lexFrom_word_append hword.2]
    exact lexFrom_word_end hrest htoken

theorem isWordChar_of_isNumberChar {c : Char} (h : isNumberChar c = true) :
    isWordChar c = true := by
  simp only [isNumberChar, Bool.or_eq_true, beq_iff_eq] at h
  rcases h with ((((hdigit | rfl) | rfl) | rfl) | rfl) | rfl
  · -- no digit is a blank, a quote or a punctuation mark
    have hne : ∀ {d : Char}, d.isDigit = false → c ≠ d := by
      rintro d hd rfl
      rw [hdigit] at hd
      exact Bool.noConfusion hd
    have hpunct : punctuation c = none := by
      rw [punctuation, if_neg (hne (by decide)), if_neg (hne (by decide)), if_neg (hne (by decide)),
        if_neg (hne (by decide)), if_neg (hne (by decide)), if_neg (hne (by decide))]
    rw [isWordChar, isSpace, hpunct, beq_false_of_ne (hne (by decide)),
      beq_false_of_ne (hne (by decide)), beq_false_of_ne (hne (by decide)),
      beq_false_of_ne (hne (by decide)), bne_iff_ne.mpr (hne (by decide))]
    rfl
  · decide
  · decide
  · decide
  · decide
  · decide

theorem Number.all_isWordChar (n : Number) : n.literal.all isWordChar = true := by
  have hall := n.all_isNumberChar
  rw [List.all_eq_true] at hall ⊢
  intro c hc
  exact isWordChar_of_isNumberChar (hall c hc)

theorem lexFrom_blanks (n : ℕ) (rest : List Char) :
    lexFrom .idle (List.replicate n ' ' ++ rest) = lexFrom .idle rest := by
  induction n with
  | zero => rfl
  | succ n ih =>
    rw [List.replicate_succ, List.cons_append,
      lexFrom_silent (show next .idle ' ' = some ([], .idle) from rfl), ih]

theorem lexFrom_newline (depth : ℕ) (rest : List Char) :
    lexFrom .idle (newline depth ++ rest) = lexFrom .idle rest := by
  rw [newline, List.cons_append,
    lexFrom_silent (show next .idle '\n' = some ([], .idle) from rfl), lexFrom_blanks]

/-! ## Tokens of a value -/

mutual

/-- The tokens of a value. -/
def tokens : Json → List Token
  | .null => [.null]
  | .bool b => [.bool b]
  | .number n => [.number n]
  | .string s => [.string s]
  | .array [] => [.beginArray, .endArray]
  | .array (e :: es) => .beginArray :: (tokens e ++ elemTokens es)
  | .object [] => [.beginObject, .endObject]
  | .object ((k, v) :: ms) =>
    .beginObject :: .string k :: .colon :: (tokens v ++ memberTokens ms)

/-- The tokens behind an element. -/
def elemTokens : List Json → List Token
  | [] => [.endArray]
  | e :: es => .comma :: (tokens e ++ elemTokens es)

/-- The tokens behind a member. -/
def memberTokens : List (String × Json) → List Token
  | [] => [.endObject]
  | (k, v) :: ms => .comma :: .string k :: .colon :: (tokens v ++ memberTokens ms)

end

theorem delimited_printElems (depth : ℕ) (es : List Json) (rest : List Char) :
    Delimited (printElems depth es ++ rest) := by
  cases es with
  | nil => exact delimited_cons (by decide) _
  | cons e es => exact delimited_cons (by decide) _

theorem delimited_printMembers (depth : ℕ) (ms : List (String × Json)) (rest : List Char) :
    Delimited (printMembers depth ms ++ rest) := by
  cases ms with
  | nil => exact delimited_cons (by decide) _
  | cons m ms => exact delimited_cons (by decide) _

/-- A punctuation mark is a token. -/
theorem lexFrom_mark {c : Char} {token : Token} (h : start c = ([token], .idle))
    (rest : List Char) : lexFrom .idle (c :: rest) = (lexFrom .idle rest).map (token :: ·) :=
  lexFrom_emit (show next .idle c = some ([token], .idle) from congrArg some h) rest

/-- A key, its colon, and a value behind them. -/
theorem lexFrom_key (k : String) (text : List Char) :
    lexFrom .idle (quote k ++ ':' :: ' ' :: text) =
      (lexFrom .idle text).map fun ts => .string k :: .colon :: ts := by
  rw [lexFrom_quote, lexFrom_mark (show start ':' = ([.colon], .idle) from rfl),
    lexFrom_silent (show next .idle ' ' = some ([], .idle) from rfl), Option.map_map]
  rfl

mutual

/-- **The lexer yields the tokens of a value** from its text. -/
theorem lexFrom_print (depth : ℕ) : ∀ (j : Json) (rest : List Char), Delimited rest →
    lexFrom .idle (print depth j ++ rest) = (lexFrom .idle rest).map (tokens j ++ ·)
  | .null, _, hrest => by
    rw [print]
    exact lexFrom_word (List.cons_ne_nil _ _) (by decide) hrest rfl
  | .bool true, _, hrest => by
    rw [print]
    exact lexFrom_word (List.cons_ne_nil _ _) (by decide) hrest rfl
  | .bool false, _, hrest => by
    rw [print]
    exact lexFrom_word (List.cons_ne_nil _ _) (by decide) hrest rfl
  | .number n, _, hrest => by
    rw [print]
    exact lexFrom_word n.literal_ne_nil n.all_isWordChar hrest (wordToken_number n)
  | .string s, _, _ => by
    rw [print]
    exact lexFrom_quote s _
  | .array [], _, _ => by
    rw [print, List.cons_append, lexFrom_mark (show start '[' = ([.beginArray], .idle) from rfl),
      List.cons_append, lexFrom_mark (show start ']' = ([.endArray], .idle) from rfl),
      List.nil_append, Option.map_map]
    rfl
  | .array (e :: es), rest, _ => by
    have he := lexFrom_print (depth + 1) e _ (delimited_printElems depth es rest)
    have hes := lexFrom_printElems depth es rest
    rw [print, List.cons_append, lexFrom_mark (show start '[' = ([.beginArray], .idle) from rfl),
      List.append_assoc, List.append_assoc, lexFrom_newline, he, hes, Option.map_map,
      Option.map_map]
    congr 1
    funext ts
    simp [tokens]
  | .object [], _, _ => by
    rw [print, List.cons_append, lexFrom_mark (show start '{' = ([.beginObject], .idle) from rfl),
      List.cons_append, lexFrom_mark (show start '}' = ([.endObject], .idle) from rfl),
      List.nil_append, Option.map_map]
    rfl
  | .object ((k, v) :: ms), rest, _ => by
    have hv := lexFrom_print (depth + 1) v _ (delimited_printMembers depth ms rest)
    have hms := lexFrom_printMembers depth ms rest
    rw [print, List.cons_append, lexFrom_mark (show start '{' = ([.beginObject], .idle) from rfl),
      List.append_assoc, List.append_assoc, List.append_assoc, lexFrom_newline, List.cons_append,
      List.cons_append, lexFrom_key, hv, hms, Option.map_map, Option.map_map, Option.map_map]
    congr 1
    funext ts
    simp [tokens]

theorem lexFrom_printElems (depth : ℕ) : ∀ (es : List Json) (rest : List Char),
    lexFrom .idle (printElems depth es ++ rest) = (lexFrom .idle rest).map (elemTokens es ++ ·)
  | [], rest => by
    rw [printElems, List.append_assoc, lexFrom_newline, List.cons_append,
      lexFrom_mark (show start ']' = ([.endArray], .idle) from rfl)]
    rfl
  | e :: es, rest => by
    have he := lexFrom_print (depth + 1) e _ (delimited_printElems depth es rest)
    have hes := lexFrom_printElems depth es rest
    rw [printElems, List.cons_append, lexFrom_mark (show start ',' = ([.comma], .idle) from rfl),
      List.append_assoc, List.append_assoc, lexFrom_newline, he, hes, Option.map_map,
      Option.map_map]
    congr 1
    funext ts
    simp [elemTokens]

theorem lexFrom_printMembers (depth : ℕ) : ∀ (ms : List (String × Json)) (rest : List Char),
    lexFrom .idle (printMembers depth ms ++ rest) = (lexFrom .idle rest).map (memberTokens ms ++ ·)
  | [], rest => by
    rw [printMembers, List.append_assoc, lexFrom_newline, List.cons_append,
      lexFrom_mark (show start '}' = ([.endObject], .idle) from rfl)]
    rfl
  | (k, v) :: ms, rest => by
    have hv := lexFrom_print (depth + 1) v _ (delimited_printMembers depth ms rest)
    have hms := lexFrom_printMembers depth ms rest
    rw [printMembers, List.cons_append, lexFrom_mark (show start ',' = ([.comma], .idle) from rfl),
      List.append_assoc, List.append_assoc, List.append_assoc, lexFrom_newline, List.cons_append,
      List.cons_append, lexFrom_key, hv, hms, Option.map_map, Option.map_map, Option.map_map]
    congr 1
    funext ts
    simp [memberTokens]

end

/-! ## Parsing -/

/-- A value does not start with the end of an array or an object. -/
theorem tokens_head (j : Json) :
    ∃ t ts, tokens j = t :: ts ∧ t ≠ .endArray ∧ t ≠ .endObject := by
  cases j with
  | null => exact ⟨_, _, rfl, nofun, nofun⟩
  | bool b => exact ⟨_, _, rfl, nofun, nofun⟩
  | number n => exact ⟨_, _, rfl, nofun, nofun⟩
  | string s => exact ⟨_, _, rfl, nofun, nofun⟩
  | array elems =>
    cases elems with
    | nil => exact ⟨_, _, rfl, nofun, nofun⟩
    | cons e es => exact ⟨_, _, rfl, nofun, nofun⟩
  | object members =>
    cases members with
    | nil => exact ⟨_, _, rfl, nofun, nofun⟩
    | cons m ms => exact ⟨_, _, rfl, nofun, nofun⟩

theorem parseValue_array {fuel : ℕ} {t : Token} {ts : List Token} (h : t ≠ .endArray) :
    parseValue (fuel + 1) (.beginArray :: t :: ts) =
      (parseElems fuel (t :: ts)).map fun out => (.array out.1, out.2) := by
  cases t with
  | endArray => exact absurd rfl h
  | _ => rfl

theorem parseElems_last {fuel : ℕ} {ts rest : List Token} {e : Json}
    (h : parseValue fuel ts = some (e, .endArray :: rest)) :
    parseElems (fuel + 1) ts = some ([e], rest) := by
  rw [parseElems, h]

theorem parseElems_more {fuel : ℕ} {ts rest : List Token} {e : Json}
    (h : parseValue fuel ts = some (e, .comma :: rest)) :
    parseElems (fuel + 1) ts = (parseElems fuel rest).map fun out => (e :: out.1, out.2) := by
  rw [parseElems, h]

theorem parseMembers_last {fuel : ℕ} {ts rest : List Token} {v : Json} (k : String)
    (h : parseValue fuel ts = some (v, .endObject :: rest)) :
    parseMembers (fuel + 1) (.string k :: .colon :: ts) = some ([(k, v)], rest) := by
  rw [parseMembers, h]

theorem parseMembers_more {fuel : ℕ} {ts rest : List Token} {v : Json} (k : String)
    (h : parseValue fuel ts = some (v, .comma :: rest)) :
    parseMembers (fuel + 1) (.string k :: .colon :: ts) =
      (parseMembers fuel rest).map fun out => ((k, v) :: out.1, out.2) := by
  rw [parseMembers, h]

mutual

/-- **The parser makes the value** of its tokens again. -/
theorem parseValue_tokens : ∀ (j : Json) (fuel : ℕ) (rest : List Token),
    (tokens j).length ≤ fuel → parseValue fuel (tokens j ++ rest) = some (j, rest)
  | .null, 0, _, h | .bool _, 0, _, h | .number _, 0, _, h | .string _, 0, _, h
  | .array [], 0, _, h | .array (_ :: _), 0, _, h | .object [], 0, _, h
  | .object (_ :: _), 0, _, h => by simp [tokens] at h
  | .null, _ + 1, _, _ => rfl
  | .bool _, _ + 1, _, _ => rfl
  | .number _, _ + 1, _, _ => rfl
  | .string _, _ + 1, _, _ => rfl
  | .array [], _ + 1, _, _ => rfl
  | .array (e :: es), fuel + 1, rest, h => by
    rw [tokens, List.length_cons, Nat.succ_le_succ_iff] at h
    have hes := parseElems_tokens e es fuel rest h
    rcases tokens_head e with ⟨t, ts, ht, hne, -⟩
    rw [ht] at hes
    rw [tokens, ht]
    show parseValue (fuel + 1) (.beginArray :: t :: (ts ++ elemTokens es ++ rest)) = _
    rw [parseValue_array hne]
    show (parseElems fuel (t :: ts ++ elemTokens es ++ rest)).map _ = _
    rw [hes]
    rfl
  | .object [], _ + 1, _, _ => rfl
  | .object ((k, v) :: ms), fuel + 1, rest, h => by
    rw [tokens, List.length_cons, Nat.succ_le_succ_iff] at h
    have hms := parseMembers_tokens k v ms fuel rest h
    rw [tokens]
    show (parseMembers fuel
      (.string k :: .colon :: (tokens v ++ memberTokens ms ++ rest))).map _ = _
    rw [hms]
    rfl

theorem parseElems_tokens : ∀ (e : Json) (es : List Json) (fuel : ℕ) (rest : List Token),
    (tokens e ++ elemTokens es).length ≤ fuel →
      parseElems fuel (tokens e ++ elemTokens es ++ rest) = some (e :: es, rest)
  | _, [], 0, _, h | _, _ :: _, 0, _, h => by simp [elemTokens] at h
  | e, [], fuel + 1, rest, h => by
    rw [elemTokens, List.length_append, List.length_singleton, Nat.succ_le_succ_iff] at h
    have he := parseValue_tokens e fuel (.endArray :: rest) h
    rw [elemTokens, List.append_assoc]
    exact parseElems_last he
  | e, d :: ds, fuel + 1, rest, h => by
    rw [elemTokens, List.length_append, List.length_cons] at h
    have he := parseValue_tokens e fuel (.comma :: (tokens d ++ elemTokens ds ++ rest)) (by omega)
    have hds := parseElems_tokens d ds fuel rest (by omega)
    rw [elemTokens, List.append_assoc]
    refine (parseElems_more he).trans ?_
    rw [hds]
    rfl

theorem parseMembers_tokens : ∀ (k : String) (v : Json) (ms : List (String × Json)) (fuel : ℕ)
    (rest : List Token), (.string k :: .colon :: (tokens v ++ memberTokens ms)).length ≤ fuel →
      parseMembers fuel (.string k :: .colon :: (tokens v ++ memberTokens ms ++ rest)) =
        some ((k, v) :: ms, rest)
  | _, _, [], 0, _, h | _, _, _ :: _, 0, _, h => by simp [memberTokens] at h
  | k, v, [], fuel + 1, rest, h => by
    rw [List.length_cons, List.length_cons, List.length_append] at h
    have hv := parseValue_tokens v fuel (.endObject :: rest) (by omega)
    rw [memberTokens, List.append_assoc]
    exact parseMembers_last k hv
  | k, v, (l, w) :: ms, fuel + 1, rest, h => by
    rw [memberTokens, List.length_cons, List.length_cons, List.length_append, List.length_cons] at h
    have hv := parseValue_tokens v fuel
      (.comma :: .string l :: .colon :: (tokens w ++ memberTokens ms ++ rest)) (by omega)
    have hms := parseMembers_tokens l w ms fuel rest (by omega)
    rw [memberTokens, List.append_assoc]
    refine (parseMembers_more k hv).trans ?_
    rw [hms]
    rfl

end

/-- **The round trip**: a value is read back from the text it was written as. -/
theorem unmarshal_marshalIndent (j : Json) : unmarshal (marshalIndent j) = some j := by
  have hlex := lexFrom_print 0 j [] nofun
  have hparse := parseValue_tokens j (tokens j).length [] (Nat.le_refl _)
  rw [List.append_nil] at hlex hparse
  rw [unmarshal, marshalIndent, String.toList_ofList, hlex]
  show parseTokens (tokens j ++ []) = some j
  rw [List.append_nil, parseTokens, hparse]

end Accumulation.Lib.Json
