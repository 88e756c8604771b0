/-
# Accumulation.Go.Lines — Go's functions that take bytes apart: lines, cuts, blanks.

`bufio.Scanner` is modelled on what it reads as a whole: the lines it gives out, and whether it stops
at one that does not fit into its buffer.  `bytes.TrimSpace` takes runes away, which are given by
their bytes here.
-/
import Accumulation.Go.Path
import Accumulation.Go.Text

namespace Accumulation.Go

/-- The bytes of a text in ASCII. -/
def ascii (s : String) : Bytes := s.toList.map fun c => UInt8.ofNat c.toNat

/-! ## Lines -/

def newline : UInt8 := 10

def carriageReturn : UInt8 := 13

/-- `bufio.MaxScanTokenSize` -/
def maxScanTokenSize : ℕ := 64 * 1024

/-- The lines of a text.  What follows the last newline is one if there is something. -/
def lines (data : Bytes) : List Bytes :=
  let pieces := data.splitOn newline
  if pieces.getLast? = some [] then pieces.dropLast else pieces

def dropCR (line : Bytes) : Bytes :=
  if line.getLast? = some carriageReturn then line.dropLast else line

/-- What a scanner of lines gives out, and whether it then stops with `bufio.ErrTooLong`. -/
def scanLines (data : Bytes) : List Bytes × Bool :=
  let fits := fun line : Bytes => decide (line.length < maxScanTokenSize)
  (((lines data).takeWhile fits).map dropCR, !(lines data).all fits)

/-! ## Cuts -/

/-- `bytes.Cut` at a byte. -/
def cut (s : Bytes) (sep : UInt8) : Option (Bytes × Bytes) :=
  if sep ∈ s then some (s.takeWhile (· ≠ sep), (s.dropWhile (· ≠ sep)).tail) else none

/-! ## Blanks -/

/-- The runes that are blank, each in UTF-8. -/
def spaces : List Bytes :=
  (['\t', '\n', '\x0b', '\x0c', '\r', ' ', '\u0085', '\u00a0', '\u1680', '\u2000', '\u2001',
    '\u2002', '\u2003', '\u2004', '\u2005', '\u2006', '\u2007', '\u2008', '\u2009', '\u200a',
    '\u2028', '\u2029', '\u202f', '\u205f', '\u3000']).map String.utf8EncodeChar

/-- Takes words away at the start, as long as there are any.  The number bounds how many. -/
def trimWords (words : List Bytes) : ℕ → Bytes → Bytes
  | 0, s => s
  | n + 1, s =>
    match words.find? (·.isPrefixOf s) with
    | none => s
    | some word => trimWords words n (s.drop word.length)

/-- `bytes.TrimSpace` -/
def trimSpaceBytes (s : Bytes) : Bytes :=
  let left := trimWords spaces s.length s
  (trimWords (spaces.map List.reverse) left.length left.reverse).reverse

example : trimSpaceBytes (ascii " [DONE] \r" ++ [0xe2, 0x80, 0xa8]) = ascii "[DONE]" := by decide

end Accumulation.Go
