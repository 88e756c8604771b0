/-
# Accumulation.Go.MIMEHeader — how package net/textproto reads a header.

A header is read line by line up to an empty line.  Lines that begin with a blank go on with the field
before them, blanks at both ends of a line do not count, and neither a key nor a value may have bytes
that do not belong in one.

Fields that are written one to a line come back with their values trimmed (`readMIMEHeader_render`).
No value that has been read contains a line break or another control byte, whatever the text
(`readMIMEHeader_valid`).
-/
import Accumulation.Go.Lines

namespace Accumulation.Go

/-! ## Bytes -/

def colon : UInt8 := 58

def isBlank (c : UInt8) : Bool := c = 32 || c = 9

/-- `trim`, of blanks at both ends. -/
def trimBlanks (s : Bytes) : Bytes := (s.dropWhile isBlank).rdropWhile isBlank

/-- `validHeaderFieldByte`: letters, digits and the marks of a token. -/
def validHeaderFieldByte (c : UInt8) : Bool :=
  (65 ≤ c && c ≤ 90) || (97 ≤ c && c ≤ 122) || (48 ≤ c && c ≤ 57) ||
    [33, 35, 36, 37, 38, 39, 42, 43, 45, 46, 94, 95, 96, 124, 126].contains c

/-- `validHeaderValueByte`: no control bytes but the tab. -/
def validHeaderValueByte (c : UInt8) : Bool := c = 9 || (32 ≤ c && c ≠ 127)

/-- A capital at the beginning and behind each dash, small letters elsewhere. -/
def capitalize : Bool → Bytes → Bytes
  | _, [] => []
  | upper, c :: s =>
    let c := if upper && 97 ≤ c && c ≤ 122 then c - 32
      else if !upper && 65 ≤ c && c ≤ 90 then c + 32
      else c
    c :: capitalize (c = 45) s

/-- `canonicalMIMEHeaderKey`.  A key with a blank is let through as it is. -/
def canonicalMIMEHeaderKey (a : Bytes) : Option Bytes :=
  if a = [] then none
  else if a.all validHeaderFieldByte then some (capitalize true a)
  else if a.all fun c => validHeaderFieldByte c || c = 32 then some a
  else none

/-! ## `ReadMIMEHeader` -/

/-- The fields in the order in which they have been read.  A map has the values of each key in this
order. -/
abbrev MIMEHeader := List (Bytes × Bytes)

/-- What the map has for a key. -/
def MIMEHeader.values (m : MIMEHeader) (key : Bytes) : List Bytes :=
  (m.filter fun field => field.1 = key).map Prod.snd

inductive HeaderError
  /-- `io.EOF` -/
  | eof
  /-- `malformed MIME header initial line: ` -/
  | initialLine (line : Bytes)
  /-- `malformed MIME header: missing colon: %q` -/
  | missingColon (line : Bytes)
  /-- `malformed MIME header line: ` -/
  | malformed (kv : Bytes)
  deriving DecidableEq, Repr

/-- `ReadLine`, with what comes after the line. -/
def readLine (s : Bytes) : Option (Bytes × Bytes) :=
  if s = [] then none
  else match cut s newline with
    | some (line, rest) => some (dropCR line, rest)
    | none => some (s, [])

/-- The lines that go on with what is in the buffer.  Each takes a byte away at least. -/
def readContinued : ℕ → Bytes → Bytes → Bytes × Bytes
  | 0, buf, rest => (buf, rest)
  | n + 1, buf, rest =>
    if rest.head?.any isBlank then
      match readLine (rest.dropWhile isBlank) with
      | none => (buf ++ [32], [])
      | some (line, rest) => readContinued n (buf ++ 32 :: trimBlanks line) rest
    else (buf, rest)

/-- A line with a field, as `ReadMIMEHeader` takes it apart. -/
def readField (kv : Bytes) : Option (Bytes × Bytes) :=
  match cut kv colon with
  | none => none
  | some (k, v) =>
    match canonicalMIMEHeaderKey k with
    | none => none
    | some key => if v.all validHeaderValueByte then some (key, v.dropWhile isBlank) else none

/-- The fields up to the empty line, and what comes after it.  Each takes a byte away at least. -/
def readFields : ℕ → MIMEHeader → Bytes → Except HeaderError (MIMEHeader × Bytes)
  | 0, _, _ => .error .eof
  | n + 1, m, s =>
    match readLine s with
    | none => .error .eof
    | some (line, rest) =>
      if line = [] then .ok (m, rest)
      else if colon ∉ line then .error (.missingColon line)
      else
        let (kv, rest) := readContinued rest.length (trimBlanks line) rest
        match readField kv with
        | none => .error (.malformed kv)
        | some field => readFields n (m ++ [field]) rest

def readMIMEHeader (s : Bytes) : Except HeaderError (MIMEHeader × Bytes) :=
  if s.head?.any isBlank then .error (.initialLine ((readLine s).elim [] Prod.fst))
  else readFields (s.length + 1) [] s

variable {s line rest buf kv key v : Bytes} {m : MIMEHeader} {field : Bytes × Bytes}

/-! ## Each step takes bytes away -/

theorem length_of_readLine (h : readLine s = some (line, rest)) : rest.length < s.length := by
  rw [readLine] at h
  split_ifs at h with hs
  have hpos : 0 < s.length := List.length_pos_of_ne_nil hs
  cases hcut : cut s newline with
  | none =>
    rw [hcut] at h
    obtain ⟨-, rfl⟩ := Prod.mk.inj (Option.some.inj h)
    exact hpos
  | some parts =>
    rw [hcut] at h
    obtain ⟨-, rfl⟩ := Prod.mk.inj (Option.some.inj h)
    rw [cut] at hcut
    split_ifs at hcut
    obtain rfl := Option.some.inj hcut
    rw [List.length_tail]
    have := (List.dropWhile_suffix (l := s) (· ≠ newline)).length_le
    omega

theorem length_readContinued (n : ℕ) (buf rest : Bytes) :
    (readContinued n buf rest).2.length ≤ rest.length := by
  induction n generalizing buf rest with
  | zero => exact le_rfl
  | succ n ih =>
    rw [readContinued]
    split_ifs with hblank
    · have hdrop := (List.dropWhile_suffix (l := rest) isBlank).length_le
      cases hline : readLine (rest.dropWhile isBlank) with
      | none => exact Nat.zero_le _
      | some parts =>
        have := length_of_readLine hline
        exact (ih _ _).trans (by omega)
    · exact le_rfl

/-- The steps that `readFields` gives for this are enough, too. -/
theorem readContinued_enough {n k : ℕ} (hn : rest.length ≤ n) (hk : rest.length ≤ k) :
    readContinued n buf rest = readContinued k buf rest := by
  induction n generalizing buf rest k with
  | zero =>
    obtain rfl := List.eq_nil_of_length_eq_zero (Nat.le_zero.mp hn)
    cases k with
    | zero => rfl
    | succ k => rw [readContinued, readContinued, if_neg (by simp)]
  | succ n ih =>
    cases k with
    | zero =>
      obtain rfl := List.eq_nil_of_length_eq_zero (Nat.le_zero.mp hk)
      rw [readContinued, readContinued, if_neg (by simp)]
    | succ k =>
      rw [readContinued, readContinued]
      split_ifs with hblank
      · have hdrop := (List.dropWhile_suffix (l := rest) isBlank).length_le
        cases hline : readLine (rest.dropWhile isBlank) with
        | none => rfl
        | some parts =>
          have := length_of_readLine hline
          exact ih (by omega) (by omega)
      · rfl

/-- **There are enough steps** for every text. -/
theorem readFields_enough {n k : ℕ} (hn : s.length < n) (hk : s.length < k) :
    readFields n m s = readFields k m s := by
  induction n generalizing s m k with
  | zero => exact absurd hn (Nat.not_lt_zero _)
  | succ n ih =>
    obtain ⟨k, rfl⟩ := Nat.exists_eq_add_one_of_ne_zero (Nat.ne_zero_of_lt hk)
    rw [readFields, readFields]
    cases hline : readLine s with
    | none => rfl
    | some parts =>
      obtain ⟨line, rest⟩ := parts
      have hrest := length_of_readLine hline
      show (if _ then _ else _) = if _ then _ else _
      split_ifs with hnil hcolon
      · rfl
      · have hshort := length_readContinued rest.length (trimBlanks line) rest
        cases hfield : readField (readContinued rest.length (trimBlanks line) rest).1 with
        | none => simp only [hfield]
        | some field =>
          simp only [hfield]
          exact ih (by omega) (by omega)
      · rfl

/-! ## What is read is valid -/

theorem valid_of_readField (h : readField kv = some field) :
    ∀ c ∈ field.2, validHeaderValueByte c = true := by
  rw [readField] at h
  cases hcut : cut kv colon with
  | none => rw [hcut] at h; cases h
  | some parts =>
    rw [hcut] at h
    cases hkey : canonicalMIMEHeaderKey parts.1 with
    | none => simp only [hkey] at h; cases h
    | some key =>
      simp only [hkey] at h
      split_ifs at h with hall
      obtain rfl := Option.some.inj h
      intro c hc
      exact List.all_eq_true.mp hall c ((List.dropWhile_suffix isBlank).subset hc)

/-- **No value has a control byte** that it should not have, whatever the text. -/
theorem readFields_valid {n : ℕ} (hm : ∀ field ∈ m, ∀ c ∈ field.2, validHeaderValueByte c = true)
    {m' : MIMEHeader} (h : readFields n m s = .ok (m', rest)) :
    ∀ field ∈ m', ∀ c ∈ field.2, validHeaderValueByte c = true := by
  induction n generalizing s m with
  | zero => cases h
  | succ n ih =>
    rw [readFields] at h
    cases hline : readLine s with
    | none => rw [hline] at h; cases h
    | some parts =>
      rw [hline] at h
      change (if _ then _ else _) = _ at h
      split_ifs at h with hnil hcolon
      · obtain ⟨rfl, -⟩ := Prod.mk.inj (Except.ok.inj h)
        exact hm
      · cases hfield : readField (readContinued parts.2.length (trimBlanks parts.1) parts.2).1 with
        | none => simp only [hfield] at h; cases h
        | some field =>
          simp only [hfield] at h
          refine ih ?_ h
          intro f hf
          rcases List.mem_append.mp hf with hf | hf
          · exact hm f hf
          · obtain rfl := List.mem_singleton.mp hf
            exact valid_of_readField hfield

theorem readMIMEHeader_valid (h : readMIMEHeader s = .ok (m, rest)) :
    ∀ field ∈ m, ∀ c ∈ field.2, validHeaderValueByte c = true := by
  rw [readMIMEHeader] at h
  split_ifs at h
  exact readFields_valid (by simp) h

/-! ## What is written -/

def crlf : Bytes := [carriageReturn, newline]

def fieldLine (field : Bytes × Bytes) : Bytes := field.1 ++ colon :: 32 :: field.2 ++ crlf

/-- One field to a line. -/
def renderFields (fields : MIMEHeader) : Bytes := fields.flatMap fieldLine

/-- The fields under the keys they have in the map. -/
def canonicalKeys (fields : MIMEHeader) : MIMEHeader :=
  fields.map fun field => (capitalize true field.1, field.2)

structure IsKey (key : Bytes) : Prop where
  ne_nil : key ≠ []
  token : ∀ c ∈ key, validHeaderFieldByte c = true

/-- A value that may stand in a header. -/
def IsValue (v : Bytes) : Prop := ∀ c ∈ v, validHeaderValueByte c = true

theorem IsKey.canonical (hkey : IsKey key) :
    canonicalMIMEHeaderKey key = some (capitalize true key) := by
  rw [canonicalMIMEHeaderKey, if_neg hkey.ne_nil, if_pos (List.all_eq_true.mpr hkey.token)]

theorem isBlank_of_token {c : UInt8} (h : validHeaderFieldByte c = true) : isBlank c = false := by
  by_contra hblank
  simp only [isBlank, Bool.or_eq_true, decide_eq_true_eq, Bool.not_eq_false] at hblank
  rcases hblank with rfl | rfl
  · cases h
  · cases h

theorem IsKey.notMem (hkey : IsKey key) {c : UInt8} (hc : validHeaderFieldByte c = false) :
    c ∉ key := by
  intro hmem
  rw [hkey.token c hmem] at hc
  cases hc

theorem IsValue.notMem (hv : IsValue v) {c : UInt8} (hc : validHeaderValueByte c = false) :
    c ∉ v := by
  intro hmem
  rw [hv c hmem] at hc
  cases hc

theorem cut_append {sep : UInt8} {before after : Bytes} (h : sep ∉ before) :
    cut (before ++ sep :: after) sep = some (before, after) := by
  have hall : ∀ c ∈ before, decide (c ≠ sep) = true := by
    intro c hc
    rw [decide_eq_true_eq]
    rintro rfl
    exact h hc
  rw [cut, if_pos (by simp), List.takeWhile_append_of_pos hall, List.dropWhile_append_of_pos hall]
  simp

theorem readLine_crlf (hline : newline ∉ line) :
    readLine (line ++ crlf ++ rest) = some (line, rest) := by
  have hsplit : line ++ crlf ++ rest = (line ++ [carriageReturn]) ++ newline :: rest := by
    simp [crlf]
  have hcr : newline ∉ line ++ [carriageReturn] := by
    simpa [carriageReturn, newline] using hline
  rw [hsplit, readLine, if_neg (by simp), cut_append hcr]
  simp [dropCR]

theorem readContinued_stop (n : ℕ) (h : rest.head?.any isBlank = false) :
    readContinued n buf rest = (buf, rest) := by
  cases n with
  | zero => rfl
  | succ n => rw [readContinued, if_neg (by simp [h])]

theorem rdropWhile_append_cons {p : UInt8 → Bool} {c : UInt8} (hc : p c = false) (a b : Bytes) :
    (a ++ c :: b).rdropWhile p = a ++ c :: b.rdropWhile p := by
  rw [List.rdropWhile, List.rdropWhile, List.reverse_append, List.reverse_cons, List.append_assoc,
    List.dropWhile_append]
  split_ifs with hnil
  · simp [List.isEmpty_iff.mp hnil, hc]
  · simp

/-- It does not matter at which end the blanks go first. -/
theorem dropWhile_rdropWhile (p : UInt8 → Bool) (v : Bytes) :
    (v.rdropWhile p).dropWhile p = (v.dropWhile p).rdropWhile p := by
  induction v with
  | nil => rfl
  | cons c v ih =>
    by_cases hc : p c = true
    · by_cases hall : ∀ x ∈ v, p x = true
      · have hnil : (c :: v).rdropWhile p = [] :=
          List.rdropWhile_eq_nil_iff.mpr (List.forall_mem_cons.mpr ⟨hc, hall⟩)
        rw [hnil, List.dropWhile_cons_of_pos hc, List.dropWhile_eq_nil_iff.mpr hall]
        rfl
      · have hcons : (c :: v).rdropWhile p = c :: v.rdropWhile p := by
          rw [List.rdropWhile, List.reverse_cons, List.dropWhile_append, if_neg, List.rdropWhile]
          · simp
          · simpa [List.isEmpty_iff] using hall
        rw [hcons, List.dropWhile_cons_of_pos hc, List.dropWhile_cons_of_pos hc, ih]
    · have hc' : p c = false := by simpa using hc
      have hcons := rdropWhile_append_cons hc' [] v
      rw [List.nil_append, List.nil_append] at hcons
      rw [hcons, List.dropWhile_cons_of_neg hc, List.dropWhile_cons_of_neg hc, hcons]

/-- **A line of a field** is taken apart into its key and its trimmed value. -/
theorem readField_line (hkey : IsKey key) (hv : IsValue v) :
    readField (trimBlanks (key ++ colon :: 32 :: v)) =
      some (capitalize true key, trimBlanks v) := by
  have hhead : (key ++ colon :: 32 :: v).dropWhile isBlank = key ++ colon :: 32 :: v := by
    obtain ⟨c, key, rfl⟩ := List.exists_cons_of_ne_nil hkey.ne_nil
    apply List.dropWhile_cons_of_neg
    rw [isBlank_of_token (hkey.token c (by simp))]
    exact Bool.false_ne_true
  have htrim : (32 :: v).dropWhile isBlank = v.dropWhile isBlank := List.dropWhile_cons_of_pos rfl
  have hall : ((32 :: v).rdropWhile isBlank).all validHeaderValueByte = true := by
    rw [List.all_eq_true]
    intro c hc
    rcases List.mem_cons.mp ((List.rdropWhile_prefix isBlank _).subset hc) with rfl | hc
    · rfl
    · exact hv c hc
  rw [trimBlanks, hhead, rdropWhile_append_cons (by decide), readField,
    cut_append (hkey.notMem (by decide))]
  simp only [hkey.canonical, hall, if_true, dropWhile_rdropWhile, htrim, trimBlanks]

theorem head_renderFields {fields : MIMEHeader} (hkeys : ∀ field ∈ fields, IsKey field.1)
    (hs : s.head?.any isBlank = false) : (renderFields fields ++ s).head?.any isBlank = false := by
  cases fields with
  | nil => exact hs
  | cons field fields =>
    have hkey := hkeys field (by simp)
    obtain ⟨c, key, heq⟩ := List.exists_cons_of_ne_nil hkey.ne_nil
    have hhead : (renderFields (field :: fields) ++ s).head? = some c := by
      simp [renderFields, fieldLine, heq]
    rw [hhead, Option.any_some]
    exact isBlank_of_token (hkey.token c (by simp [heq]))

/-- **Written fields are read**, each with its value trimmed. -/
theorem readFields_render {fields : MIMEHeader} {n : ℕ}
    (hfields : ∀ field ∈ fields, IsKey field.1 ∧ IsValue field.2)
    (hs : s.head?.any isBlank = false) :
    readFields (fields.length + n) m (renderFields fields ++ s) =
      readFields n
        (m ++ fields.map fun field => (capitalize true field.1, trimBlanks field.2)) s := by
  induction fields generalizing m with
  | nil => simp [renderFields]
  | cons field fields ih =>
    obtain ⟨⟨hkey, hv⟩, hfields⟩ := List.forall_mem_cons.mp hfields
    have hnewline : newline ∉ field.1 ++ colon :: 32 :: field.2 := by
      simp only [List.mem_append, List.mem_cons, not_or]
      exact ⟨hkey.notMem (by decide), by decide, by decide, hv.notMem (by decide)⟩
    have hline : readLine (renderFields (field :: fields) ++ s) =
        some (field.1 ++ colon :: 32 :: field.2, renderFields fields ++ s) := by
      rw [← readLine_crlf hnewline]
      simp [renderFields, fieldLine]
    have hstop := head_renderFields (fun f hf => (hfields f hf).1) hs
    rw [List.length_cons, Nat.add_right_comm, readFields, hline]
    show (if _ then _ else if _ then _ else _) = _
    rw [if_neg (by simp), if_neg (by simp), readContinued_stop _ hstop]
    simp only [readField_line hkey hv]
    rw [ih hfields]
    simp

theorem length_le_renderFields (fields : MIMEHeader) :
    fields.length ≤ (renderFields fields).length := by
  induction fields with
  | nil => exact le_rfl
  | cons field fields ih =>
    simp only [renderFields, List.flatMap_cons, List.length_append, List.length_cons, fieldLine]
      at ih ⊢
    omega

/-- **Fields that have been written down** come back, and what is behind the empty line is left. -/
theorem readMIMEHeader_render {fields : MIMEHeader}
    (hfields : ∀ field ∈ fields, IsKey field.1 ∧ IsValue field.2) (body : Bytes) :
    readMIMEHeader (renderFields fields ++ (crlf ++ body)) =
      .ok (fields.map fun field => (capitalize true field.1, trimBlanks field.2), body) := by
  have hs : (crlf ++ body).head?.any isBlank = false := rfl
  have hlength := length_le_renderFields fields
  rw [readMIMEHeader, if_neg (by rw [head_renderFields (fun f hf => (hfields f hf).1) hs]; simp),
    readFields_enough (Nat.lt_succ_self _) (k := fields.length +
      ((renderFields fields ++ (crlf ++ body)).length + 1)) (by omega),
    readFields_render hfields hs, readFields, ← List.nil_append crlf, readLine_crlf (by simp)]
  rfl

/-- A value that is read as it has been written. -/
structure Clean (v : Bytes) : Prop where
  valid : IsValue v
  trimmed : trimBlanks v = v

/-- **Clean values** come back as they are. -/
theorem readMIMEHeader_clean {fields : MIMEHeader} (hkeys : ∀ field ∈ fields, IsKey field.1)
    (hclean : ∀ field ∈ fields, Clean field.2) (body : Bytes) :
    readMIMEHeader (renderFields fields ++ (crlf ++ body)) = .ok (canonicalKeys fields, body) := by
  rw [readMIMEHeader_render fun f hf => ⟨hkeys f hf, (hclean f hf).valid⟩, canonicalKeys]
  congr 2
  exact List.map_congr_left fun f hf => by rw [(hclean f hf).trimmed]

/-- **No others do.** -/
theorem readMIMEHeader_render_iff {fields : MIMEHeader} (hkeys : ∀ field ∈ fields, IsKey field.1)
    (body : Bytes) :
    (∃ m rest, readMIMEHeader (renderFields fields ++ (crlf ++ body)) = .ok (m, rest) ∧
      ∀ key, m.values key = (canonicalKeys fields).values key) ↔ ∀ field ∈ fields, Clean field.2 := by
  constructor
  · rintro ⟨m, rest, hread, hvalues⟩
    have hmem {field : Bytes × Bytes} (hfield : field ∈ fields) :
        field.2 ∈ (canonicalKeys fields).values (capitalize true field.1) := by
      have hin : (capitalize true field.1, field.2) ∈ canonicalKeys fields :=
        List.mem_map.mpr ⟨field, hfield, rfl⟩
      exact List.mem_map.mpr ⟨_, List.mem_filter.mpr ⟨hin, by simp⟩, rfl⟩
    have hvalid : ∀ field ∈ fields, IsValue field.2 := by
      intro field hfield
      have hin := hmem hfield
      rw [← hvalues] at hin
      obtain ⟨f, hf, heq⟩ := List.mem_map.mp hin
      rw [← heq]
      exact readMIMEHeader_valid hread f (List.mem_filter.mp hf).1
    rw [readMIMEHeader_render fun f hf => ⟨hkeys f hf, hvalid f hf⟩] at hread
    obtain ⟨rfl, -⟩ := Prod.mk.inj (Except.ok.inj hread)
    intro field hfield
    refine ⟨hvalid field hfield, ?_⟩
    have hsame := hvalues (capitalize true field.1)
    have htrim (key : Bytes) :
        MIMEHeader.values (fields.map fun f => (capitalize true f.1, trimBlanks f.2)) key =
          ((canonicalKeys fields).values key).map trimBlanks := by
      simp [MIMEHeader.values, canonicalKeys, List.filter_map, Function.comp_def]
    rw [htrim] at hsame
    exact List.map_inj_left.mp (hsame.trans (List.map_id _).symm) _ (hmem hfield)
  · intro hclean
    exact ⟨_, body, readMIMEHeader_clean hkeys hclean body, fun _ => rfl⟩

end Accumulation.Go
