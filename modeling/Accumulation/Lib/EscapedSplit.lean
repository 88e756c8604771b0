/-
# Accumulation.Lib.EscapedSplit — splitting a list at the separators that are not escaped.

A separator behind an escape character is a part of its piece, without the escape character; any
other separator ends a piece (`pieces`).  A program may do this in two passes: split at every
separator, then join a part that ends with the escape character to the next one (`merge`).  Where
the list ends with the escape character there is no next part.  `merge_splitOn` says that the two
agree everywhere else.
-/
import Mathlib

namespace Accumulation.Lib.EscapedSplit

variable {α : Type*} [DecidableEq α] (esc sep : α)

/-! ## Pieces -/

/-- The pieces of a list between its separators. -/
def pieces : List α → List (List α)
  | [] => [[]]
  | [c] => if c = sep then [[], []] else [[c]]
  | c :: d :: cs =>
    if c = sep then [] :: pieces (d :: cs)
    else if c = esc ∧ d = sep then (pieces cs).modifyHead (sep :: ·)
    else (pieces (d :: cs)).modifyHead (c :: ·)

/-- The same from left to right, with what the piece has so far. -/
def scan : List α → List α → List (List α)
  | pre, [] => [pre]
  | pre, c :: cs =>
    if c = sep then
      if pre.getLast? = some esc then scan (pre.dropLast ++ [sep]) cs else pre :: scan [] cs
    else scan (pre ++ [c]) cs

/-- Join each part that ends with the escape character to the next one. -/
def merge : List α → List (List α) → Option (List (List α))
  | part, [] => if part.getLast? = some esc then none else some [part]
  | part, next :: rest =>
    if part.getLast? = some esc then merge (part.dropLast ++ sep :: next) rest
    else (merge next rest).map (part :: ·)

variable {esc sep}

omit [DecidableEq α] in
theorem modifyHead_append (pre pre' : List α) (ls : List (List α)) :
    (ls.modifyHead (pre' ++ ·)).modifyHead (pre ++ ·) = ls.modifyHead (pre ++ pre' ++ ·) := by
  cases ls with
  | nil => rfl
  | cons l ls => simp

/-- A piece begun is the beginning of the first piece, unless it ends in the middle of an escape. -/
theorem scan_eq_pieces (hne : esc ≠ sep) (pre l : List α)
    (h : ¬ (pre.getLast? = some esc ∧ l.head? = some sep)) :
    scan esc sep pre l = (pieces esc sep l).modifyHead (pre ++ ·) := by
  induction l using pieces.induct esc sep generalizing pre with
  | case1 => simp [scan, pieces]
  | case2 =>
    have hpre : pre.getLast? ≠ some esc := fun hpre => h ⟨hpre, rfl⟩
    simp [scan, pieces, hpre]
  | case3 c hc => simp [scan, pieces, hc]
  | case4 d cs ih =>
    have hpre : pre.getLast? ≠ some esc := fun hpre => h ⟨hpre, rfl⟩
    have hrest := ih [] (by simp)
    rw [scan, if_pos rfl, if_neg hpre, hrest, pieces, if_pos rfl]
    cases hp : pieces esc sep (d :: cs) with
    | nil => simp
    | cons p ps => simp
  | case5 c d cs hc hesc ih =>
    rcases hesc with ⟨rfl, rfl⟩
    have hrest := ih (pre ++ [d]) (by simp [Ne.symm hne])
    rw [scan, if_neg hc, scan, if_pos rfl, if_pos (by simp), List.dropLast_concat, hrest, pieces,
      if_neg hc, if_pos ⟨rfl, rfl⟩]
    exact (modifyHead_append pre [d] _).symm
  | case6 c d cs hc hesc ih =>
    have hrest := ih (pre ++ [c]) (by simpa using hesc)
    rw [scan, if_neg hc, hrest, pieces, if_neg hc, if_neg hesc]
    exact (modifyHead_append pre [c] _).symm

/-- **Two passes** over a list, the first part of which has been begun. -/
theorem merge_scan (hne : esc ≠ sep) (pre l : List α) {part : List α} {rest : List (List α)}
    (hl : l.splitOn sep = part :: rest) :
    merge esc sep (pre ++ part) rest =
      if (pre ++ l).getLast? = some esc then none else some (scan esc sep pre l) := by
  induction l generalizing pre part rest with
  | nil =>
    obtain ⟨rfl, rfl⟩ := List.cons.inj ((List.splitOn_nil sep).symm.trans hl)
    rw [merge, scan, List.append_nil]
  | cons c cs ih =>
    rcases hcs : cs.splitOn sep with _ | ⟨part', rest'⟩
    · exact absurd hcs (List.splitOn_ne_nil sep cs)
    rw [List.splitOn_cons_eq_if_modifyHead, hcs] at hl
    by_cases hc : c = sep
    · rw [if_pos (by simp [hc])] at hl
      obtain ⟨rfl, rfl⟩ := List.cons.inj hl
      rw [List.append_nil, merge, scan, if_pos hc]
      have hlast (pre : List α) : (pre ++ c :: cs).getLast? = some esc ↔
          cs.getLast? = some esc := by
        rcases List.eq_nil_or_concat' cs with rfl | ⟨ds, d, rfl⟩
        · simp [hc, Ne.symm hne]
        · simp [List.getLast?_append, List.getLast?_cons]
      by_cases hpre : pre.getLast? = some esc
      · -- the separator is escaped
        rw [if_pos hpre, if_pos hpre, List.append_cons, ih _ hcs]
        have hsame : (pre.dropLast ++ [sep] ++ cs).getLast? = some esc ↔
            (pre ++ c :: cs).getLast? = some esc := by
          rw [← hc, ← List.append_cons, hlast, hlast]
        rw [if_congr hsame rfl rfl]
      · rw [if_neg hpre, if_neg hpre]
        have hrest := ih [] hcs
        rw [List.nil_append] at hrest
        rw [hrest, if_congr (hlast pre) rfl rfl, List.nil_append]
        split
        · rfl
        · rfl
    · rw [if_neg (by simpa using hc)] at hl
      obtain ⟨rfl, rfl⟩ := List.cons.inj hl
      rw [scan, if_neg hc, List.append_cons pre c part', List.append_cons pre c cs, ih _ hcs]

/-- **Splitting and joining again** gives the pieces, unless the list ends with the escape
character. -/
theorem merge_splitOn (hne : esc ≠ sep) {l part : List α} {rest : List (List α)}
    (hl : l.splitOn sep = part :: rest) :
    merge esc sep part rest =
      if l.getLast? = some esc then none else some (pieces esc sep l) := by
  have hmerge := merge_scan hne [] l hl
  rw [List.nil_append, List.nil_append, scan_eq_pieces hne [] l (by simp)] at hmerge
  rw [hmerge]
  cases pieces esc sep l with
  | nil => rfl
  | cons p ps => rfl

end Accumulation.Lib.EscapedSplit
