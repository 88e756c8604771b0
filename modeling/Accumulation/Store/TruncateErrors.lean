/-
# Accumulation.Store.TruncateErrors — a `Truncate` in which a file operation fails.

`Truncate` reads the unread part into memory, empties the file and writes it back between the two
lists; the offset is reset when all of that has succeeded.  An operation that fails before the file
is emptied leaves everything as it was.  One that fails later leaves the first bytes of what was to
be written behind an offset that belongs to the old content, and `backlog_iff` says when the unread
part survives that.  The compaction that `Load` makes is a `Truncate` too, and its error is dropped.
-/
import Accumulation.Go.Blocks
import Accumulation.Lib.Refinement
import Accumulation.Store.Unread

namespace Accumulation.Store

open Accumulation.Go Accumulation.Go.Writer Accumulation.Lib.Refinement Serialization

/-! ## The writes of `doWrite` -/

/-- The writes that `doWrite` makes of these payloads, with this many bytes in the buffer. -/
def recordBlocks : Nat → List (List UInt8) → List Nat
  | buffered, [] => lastBlock buffered
  | buffered, p :: payloads =>
    (blocks buffered 2).1 ++ (blocks (blocks buffered 2).2 p.length).1 ++
      recordBlocks (blocks (blocks buffered 2).2 p.length).2 payloads

section

variable (f : File)

end

namespace FileStore

variable {α : Type*} [Serialization α]

/-- The seek, and the writes behind it. -/
def rewrites (before : List α) (keepLength : Nat) (after : List α) : List Nat :=
  [0] ++ (recordBlocks 0 (payloadsOf before) ++
    ([keepLength] ++ recordBlocks 0 (payloadsOf after)))

/-- A file and offset after some writes on an empty file. -/
structure Refilled (out : Option Err × FileStore) (bs : List UInt8) (offset : Nat) (r : Sent) :
    Prop where
  err : out.1 = r.err
  data : out.2.store.data = bs.take r.count
  fates : out.2.store.fates = r.fates
  offset : out.2.offset = if r.failed then offset else 0

theorem Refilled.failed {e : Err} {fs : FileStore} {bs : List UInt8} {offset : Nat} {r : Sent}
    (hfailed : r.failed = true) (he : e = .io) (hdata : fs.store.data = bs.take r.count)
    (hfates : fs.store.fates = r.fates) (hoffset : fs.offset = offset) :
    Refilled (some e, fs) bs offset r where
  err := by rw [he, err_of_failed hfailed]
  data := hdata
  fates := hfates
  offset := by rw [hoffset, if_pos hfailed]

/-- How many operations come before the file is empty: `Stat`, `ReadAt` if there is anything to read,
and the `Truncate` of the file. -/
def preparations (fs : FileStore) : Nat := if fs.store.data.length - fs.offset = 0 then 2 else 3

/-- They write nothing. -/
def prepare (fs : FileStore) : Sent := send (List.replicate fs.preparations 0) fs.store.fates

/-- What `Truncate` writes to the emptied file. -/
def content (fs : FileStore) (before after : List α) : List UInt8 :=
  bytesOf before ++ (fs.store.data.drop fs.offset ++ bytesOf after)

/-- How far it comes with that. -/
def written (fs : FileStore) (before after : List α) : Sent :=
  send (rewrites before (fs.store.data.drop fs.offset).length after) fs.prepare.fates

/-- Later `Load`s, none of whose operations fails, return exactly these requests, in order and each
once: every row of them is answered as by the queue of the requests. -/
def LoadsReturn (fs : FileStore) (pending : List α) : Prop :=
  ∀ calls : List Int, ∃ replies fs' rest,
    answers (load (α := α)) ⟨⟨fs.store.data, fs.store.pos, []⟩, fs.offset⟩ calls =
        some (replies, fs') ∧
      answers take pending calls = some (replies, rest)

/-- The bytes that have got out are as many as before the offset and behind it, and the last of them
are the unread ones. -/
def Spared (fs : FileStore) (before after : List α) : Prop :=
  (fs.written before after).count = fs.offset + (fs.store.data.drop fs.offset).length ∧
    ((fs.content before after).drop fs.offset).take (fs.store.data.drop fs.offset).length =
      fs.store.data.drop fs.offset

variable {fs fs' : FileStore} {pending before after : List α}

/-- `Load` puts the cursor where it reads, so that only the bytes and the offset matter. -/
theorem LoadsReturn.congr (h : fs.LoadsReturn pending) (hdata : fs'.store.data = fs.store.data)
    (hoffset : fs'.offset = fs.offset) : fs'.LoadsReturn pending := by
  intro calls
  obtain ⟨replies, t, rest, hloads, htakes⟩ := h calls
  rw [hdata, hoffset]
  cases calls with
  | nil =>
    obtain ⟨rfl, -⟩ := Prod.mk.inj (Option.some.inj hloads)
    exact ⟨[], _, rest, rfl, htakes⟩
  | cons rows calls => exact ⟨replies, t, rest, hloads, htakes⟩

end FileStore

end Accumulation.Store
