/-
# Accumulation.Store.RecordLog — the store file seen as a list of records.

A `RecordLog` is what the bytes of a well-formed store file stand for: the records on disk and how
many of them have been loaded.  Its operations are those of `FileStore` one level up, compaction
included, and they are total.  `FileStore.Holds` ties the two levels together and the `holds_*`
theorems are the refinement: a call on a file that holds a log does what the log's operation says.
`store` alone needs a condition, that the cursor stands at the end of the file.

One level further up only the pending records are visible, and there the log is a plain queue
(`pending_store`, `pending_load`, `pending_truncate`).
-/
import Accumulation.Store.FileStore

namespace Accumulation.Store

open Accumulation.Go Serialization

/-- The records of a store file and how many of them have been loaded. -/
@[ext]
structure RecordLog (α : Type*) where
  disk : List α
  off : Nat
  off_le : off ≤ disk.length

namespace RecordLog

variable {α : Type*}

/-- The records that have not been loaded yet. -/
def pending (log : RecordLog α) : List α := log.disk.drop log.off

/-- A file whose records are all pending. -/
def ofDisk (disk : List α) : RecordLog α := ⟨disk, 0, Nat.zero_le _⟩

@[simp]
theorem pending_ofDisk (disk : List α) : (ofDisk disk).pending = disk := rfl

/-- Append to the file. -/
def store (log : RecordLog α) (reqs : List α) : RecordLog α :=
  ⟨log.disk ++ reqs, log.off, by have := log.off_le; rw [List.length_append]; omega⟩

/-- How many records have been loaded after a `load` of `rows`. -/
def moved (log : RecordLog α) (rows : Nat) : Nat := log.off + (log.pending.take rows).length

theorem moved_le (log : RecordLog α) (rows : Nat) : log.moved rows ≤ log.disk.length := by
  have h := log.off_le
  simp only [moved, pending, List.length_take, List.length_drop]
  omega

/-- Load the next records; once the loaded ones take more bytes than the threshold they are
dropped from the file. -/
def load [Serialization α] (log : RecordLog α) (rows : Nat) : List α × RecordLog α :=
  (log.pending.take rows,
    if cleanOffsetThreshold < (FileStore.bytesOf (log.disk.take (log.moved rows))).length then
      ofDisk (log.disk.drop (log.moved rows))
    else ⟨log.disk, log.moved rows, log.moved_le rows⟩)

/-- Put records before and behind the pending ones and forget the loaded ones. -/
def truncate (log : RecordLog α) (before after : List α) : RecordLog α :=
  ofDisk (before ++ log.pending ++ after)

/-! ## The log as a queue -/

@[simp]
theorem pending_store (log : RecordLog α) (reqs : List α) :
    (log.store reqs).pending = log.pending ++ reqs :=
  List.drop_append_of_le_length log.off_le

theorem drop_moved (log : RecordLog α) (rows : Nat) :
    log.disk.drop (log.moved rows) = log.pending.drop rows := by
  rw [moved, ← List.drop_drop]
  change log.pending.drop (log.pending.take rows).length = _
  rw [List.length_take]
  by_cases h : rows ≤ log.pending.length
  · rw [Nat.min_eq_left h]
  · rw [Nat.min_eq_right (by omega), List.drop_length, List.drop_eq_nil_of_le (by omega)]

theorem take_moved (log : RecordLog α) (rows : Nat) :
    log.disk.take (log.moved rows) = log.disk.take log.off ++ log.pending.take rows := by
  rw [moved, List.take_add]
  congr 1
  change log.pending.take _ = _
  rw [List.length_take]
  by_cases h : rows ≤ log.pending.length
  · rw [Nat.min_eq_left h]
  · rw [Nat.min_eq_right (by omega), List.take_length, List.take_of_length_le (by omega)]

/-- **Compaction is invisible**: a load takes the loaded records off the pending ones, whether or
not it drops what lies before the offset. -/
@[simp]
theorem pending_load [Serialization α] (log : RecordLog α) (rows : Nat) :
    (log.load rows).2.pending = log.pending.drop rows := by
  unfold load
  split
  · rw [pending_ofDisk, drop_moved]
  · exact log.drop_moved rows

@[simp]
theorem pending_truncate (log : RecordLog α) (before after : List α) :
    (log.truncate before after).pending = before ++ log.pending ++ after := rfl

end RecordLog

/-! ## The file refines the log -/

namespace FileStore

variable {α : Type*} [Serialization α]

/-- The bytes of the file are those of the log and the offset stands behind the loaded records.
About the cursor no more is known than that it is not behind the end of the file. -/
structure Holds (fs : FileStore) (log : RecordLog α) : Prop where
  data : fs.store.data = bytesOf log.disk
  offset : fs.offset = (bytesOf (log.disk.take log.off)).length
  cursor : fs.store.pos ≤ fs.store.data.length
  healthy : fs.store.fates = []

variable {fs : FileStore} {log : RecordLog α}

/-- The unread bytes are those of the pending records. -/
theorem Holds.unread (h : fs.Holds log) :
    fs.offset ≤ fs.store.data.length ∧ fs.store.data.drop fs.offset = bytesOf log.pending := by
  rw [h.data, h.offset]
  exact ⟨length_bytesOf_take_le _ _, bytesOf_take_drop _ _⟩

theorem openStore_holds (disk : List α) :
    (openStore (bytesOf disk)).Holds (RecordLog.ofDisk disk) :=
  ⟨rfl, rfl, Nat.zero_le _, rfl⟩

/-- **`Store` appends when the cursor stands at the end of the file.** -/
theorem holds_doWrite (h : fs.Holds log) (reqs : List α)
    (hend : reqs = [] ∨ fs.store.pos = fs.store.data.length) :
    ∃ fs', fs.doWrite reqs = (none, fs') ∧ fs'.Holds (log.store reqs) := by
  obtain ⟨⟨bytes, pos, fates⟩, offset⟩ := fs
  obtain ⟨hdata, hoffset, hcursor, hfates⟩ := h
  simp only at hdata hoffset hcursor hfates hend
  have hofftake : offset = (bytesOf ((log.store reqs).disk.take (log.store reqs).off)).length := by
    rw [hoffset, RecordLog.store, List.take_append_of_le_length log.off_le]
  rcases hend with rfl | hend
  · refine ⟨⟨⟨bytes, pos, []⟩, offset⟩, ?_, ?_, hofftake, hcursor, rfl⟩
    · rw [hfates]
      rfl
    · simpa [RecordLog.store] using hdata
  · refine ⟨⟨⟨bytes ++ bytesOf reqs, (bytes ++ bytesOf reqs).length, []⟩, offset⟩, ?_, ?_,
      hofftake, le_rfl, rfl⟩
    · rw [hfates, hend, doWrite_end]
    · simp only [RecordLog.store, bytesOf_append, hdata]

/-- **`Truncate` splices the pending records**, wherever the cursor stands. -/
theorem holds_truncate (h : fs.Holds log) (before after : List α) :
    ∃ fs', fs.truncate before after = some (none, fs') ∧ fs'.Holds (log.truncate before after) := by
  obtain ⟨hoff, hunread⟩ := h.unread
  obtain ⟨⟨bytes, pos, fates⟩, offset⟩ := fs
  obtain rfl : fates = [] := h.healthy
  refine ⟨_, truncate_healthy bytes pos offset hoff before after, ?_, rfl, le_rfl, rfl⟩
  simp only at hunread
  simp only [RecordLog.truncate, RecordLog.ofDisk, bytesOf_append, hunread]

/-- **`Load` returns the next pending records**, wherever the cursor stands. -/
theorem holds_load {lo : Nat} (hl : Lossless α lo 255) (h : fs.Holds log) (rows : Int) :
    ∃ fs', fs.load rows = some (((log.load rows.toNat).1, none), fs') ∧
      fs'.Holds (log.load rows.toNat).2 := by
  obtain ⟨hoff, hunread⟩ := h.unread
  obtain ⟨⟨bytes, pos, fates⟩, offset⟩ := fs
  obtain ⟨hdata, hoffset, -, hfates⟩ := h
  simp only at hdata hoffset hfates hunread hoff
  subst hfates
  have hmoved : offset + (bytesOf (log.pending.take rows.toNat)).length =
      (bytesOf (log.disk.take (log.moved rows.toNat))).length := by
    rw [hoffset, RecordLog.take_moved, bytesOf_append, List.length_append]
  obtain ⟨pos', hpos', hload⟩ := load_healthy hl bytes pos offset hoff log.pending hunread rows
  refine ⟨_, hload, ?_⟩
  unfold RecordLog.load
  rw [hmoved]
  split
  · refine ⟨?_, rfl, le_rfl, rfl⟩
    rw [hdata]
    exact bytesOf_take_drop _ _
  · exact ⟨hdata, rfl, hpos', rfl⟩

end FileStore

end Accumulation.Store
