/-
# Accumulation.Go.Text — Go's functions on text, on lists of runes.

A string is the list of its runes here.  Which runes are blank is written out; how runes change
their case is a table (`Unicode`), of which only the ASCII part is fixed.
-/
import Mathlib

namespace Accumulation.Go

abbrev Text := List Char

/-! ## Blanks -/

/-- `unicode.IsSpace` -/
def isSpace (r : Char) : Bool :=
  r ∈ ['\t', '\n', '\x0b', '\x0c', '\r', ' ', '\u0085', '\u00a0', '\u1680', '\u2028', '\u2029',
    '\u202f', '\u205f', '\u3000'] || (0x2000 ≤ r.toNat && r.toNat ≤ 0x200a)

/-- `strings.TrimSpace` -/
def trimSpace (s : Text) : Text := (s.dropWhile isSpace).rdropWhile isSpace

/-- **What is trimmed** is a part of the text, and all of it only if its ends are no blanks. -/
theorem length_trimSpace_le (s : Text) : (trimSpace s).length ≤ s.length :=
  (List.rdropWhile_prefix _ _).length_le.trans (List.dropWhile_suffix _).length_le

theorem trimSpace_eq_of_length {s : Text} (h : (trimSpace s).length = s.length) :
    trimSpace s = s := by
  have hdrop : s.dropWhile isSpace = s := by
    apply (List.dropWhile_suffix isSpace).eq_of_length
    exact le_antisymm (List.dropWhile_suffix _).length_le
      (h ▸ (List.rdropWhile_prefix _ _).length_le)
  have htrim : trimSpace s <+: s := by
    unfold trimSpace
    rw [hdrop]
    exact List.rdropWhile_prefix _ _
  exact htrim.eq_of_length h

/-! ## Upper and lower case -/

/-- The tables of the package `unicode`. -/
structure Unicode where
  toUpper : Char → Char
  toLower : Char → Char
  isUpper : Char → Bool
  ascii : ∀ c, c.toNat < 128 →
    toUpper c = c.toUpper ∧ toLower c = c.toLower ∧ isUpper c = c.isUpper
  space : ∀ c, isSpace c = true → toUpper c = c

/-- `strings.ToUpper` -/
def Unicode.upper (unicode : Unicode) (s : Text) : Text := s.map unicode.toUpper

/-- `strings.ToLower` -/
def Unicode.lower (unicode : Unicode) (s : Text) : Text := s.map unicode.toLower

/-- A blank has no case. -/
theorem toUpper_of_isSpace {c : Char} (h : isSpace c = true) : c.toUpper = c := by
  have hlow : ¬ ('a'.val ≤ c.val ∧ c.val ≤ 'z'.val) := by
    rintro ⟨ha, hz⟩
    have ha' : 97 ≤ c.toNat := ha
    have hz' : c.toNat ≤ 122 := hz
    simp only [isSpace, Bool.or_eq_true, decide_eq_true_eq, Bool.and_eq_true] at h
    rcases h with h | h
    · fin_cases h <;> simp_all
    · omega
  exact dif_neg hlow

/-- The tables, without the letters outside ASCII. -/
def Unicode.basic : Unicode :=
  ⟨Char.toUpper, Char.toLower, Char.isUpper, fun _ _ => ⟨rfl, rfl, rfl⟩,
    fun _ => toUpper_of_isSpace⟩

/-- **A text is trimmed** if there are no blanks at its ends. -/
theorem trimSpace_eq_self {s : Text} (hhead : ∀ c, s.head? = some c → isSpace c = false)
    (hlast : ∀ c, s.getLast? = some c → isSpace c = false) : trimSpace s = s := by
  have hdrop : s.dropWhile isSpace = s := by
    cases s with
    | nil => rfl
    | cons c cs => exact List.dropWhile_cons_of_neg (by simp [hhead c rfl])
  rw [trimSpace, hdrop]
  rcases List.eq_nil_or_concat' s with rfl | ⟨cs, c, rfl⟩
  · rfl
  · exact List.rdropWhile_concat_neg isSpace cs c (by simp [hlast c (by simp)])

/-- What becomes a text without blanks at its ends has none there. -/
theorem trimSpace_of_upper {unicode : Unicode} {s t : Text} (h : unicode.upper s = t)
    (hhead : ∀ c, t.head? = some c → isSpace c = false)
    (hlast : ∀ c, t.getLast? = some c → isSpace c = false) : trimSpace s = s := by
  have hkeep {c : Char} (hc : isSpace (unicode.toUpper c) = false) : isSpace c = false := by
    by_contra hspace
    rw [unicode.space c (by simpa using hspace)] at hc
    exact hspace hc
  subst h
  apply trimSpace_eq_self
  · intro c hc
    exact hkeep (hhead _ (by simp [Unicode.upper, hc]))
  · intro c hc
    exact hkeep (hlast _ (by simp [Unicode.upper, hc]))

end Accumulation.Go
