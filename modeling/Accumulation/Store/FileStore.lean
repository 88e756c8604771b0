/-
# Accumulation.Store.FileStore — the store file of the report job.

`FileStore` keeps one file and one offset: what lies before `offset` has been loaded, what lies
behind it is pending.  `store`, `load` and `truncate` are the three calls, with every early return
they have; `none` is a panic.

The file has a single cursor.  `truncate` and `load` seek before they use it, `store` does not: it
writes wherever the last call left the cursor, and `load` leaves it at the end of the last block its
read-ahead fetched.  The specification lemmas below therefore say what each call does to the bytes
of the file for any cursor, and `Holds` relates these bytes to the records of a `RecordLog`.
-/
import Accumulation.Store.Record

namespace Accumulation.Store

open Accumulation.Go

/-- `model.Serialization`. -/
class Serialization (α : Type*) where
  /-- `Encode` returns data and an error, and `doWrite` uses the data in either case -/
  encode : α → List UInt8 × Option Err
  /-- `Decode` on a fresh `Instance` -/
  decode : List UInt8 → Except Err α

open Serialization

/-- `Decode` undoes `Encode`, which never fails and stays within the given lengths. -/
structure Lossless (α : Type*) [Serialization α] (lo hi : Nat) : Prop where
  decode_encode : ∀ a : α, decode (encode a).1 = .ok a
  no_error : ∀ a : α, (encode a).2 = none
  lo_le : ∀ a : α, lo ≤ (encode a).1.length
  le_hi : ∀ a : α, (encode a).1.length ≤ hi

/-- Requests of one byte, which is its own encoding. -/
instance : Serialization UInt8 where
  encode byte := ([byte], none)
  decode
    | [byte] => .ok byte
    | _ => .error .codec

theorem byte_lossless : Lossless UInt8 1 255 where
  decode_encode _ := rfl
  no_error _ := rfl
  lo_le _ := Nat.le_refl 1
  le_hi _ := (by decide : 1 ≤ 255)

/-- `cleanOffsetThreshold` -/
def cleanOffsetThreshold : Nat := 1024 * 1024

structure FileStore where
  store : File
  offset : Nat
  deriving DecidableEq, Repr

/-- `NewFileStore` and `Open` on a path whose file holds `data`. -/
def openStore (data : List UInt8) : FileStore := ⟨⟨data, 0, []⟩, 0⟩

namespace FileStore

variable {α : Type*} [Serialization α]

/-- `fs.doWrite`: an error of `Encode` is looked at and dropped. -/
def doWrite (fs : FileStore) (reqs : List α) : Option Err × FileStore :=
  match writeRecords (Writer.new fs.store) (reqs.map fun req => (encode req).1) with
  | (err, writer) => (err, { fs with store := writer.file })

/-- `fs.Truncate`: write `before`, the unread bytes as they are, and `after` to an emptied file. -/
def truncate (fs : FileStore) (before after : List α) : Option (Option Err × FileStore) :=
  match fs.store.stat with
  | (.error e, file) => some (some e, { fs with store := file })
  | (.ok fileSize, file) =>
    -- `make([]byte, keepLength)` panics on a negative length
    if fileSize < fs.offset then none
    else
      match file.readAt (fileSize - fs.offset) fs.offset with
      | (.error e, file) => some (some e, { fs with store := file })
      | (.ok data, file) =>
        match file.truncate 0 with
        | (some e, file) => some (some e, { fs with store := file })
        | (none, file) =>
          match file.seek 0 with
          | (some e, file) => some (some e, { fs with store := file })
          | (none, file) =>
            match doWrite { fs with store := file } before with
            | (some e, fs) => some (some e, fs)
            | (none, fs) =>
              match fs.store.write data with
              | (_, some e, file) => some (some e, { fs with store := file })
              | (_, none, file) =>
                match doWrite { fs with store := file } after with
                | (some e, fs) => some (some e, fs)
                | (none, fs) => some (none, { fs with offset := 0 })

/-- The loop of `fs.Load`.  It reads one record more than it uses.  Returns the requests, the
length of their records, whether a payload could not be decoded, and the reader. -/
def loadLoop : Nat → Reader → Option (List α × Nat × Bool × Reader)
  | 0, r => (read r).map fun (_, r) => ([], 0, false, r)
  | rows + 1, r =>
    match read r with
    | none => none
    | some (.ok (some record), r) =>
      match decode record.data with
      | .error _ => some ([], 0, true, r)
      | .ok req => (loadLoop rows r).map fun (reqs, dataLen, undecodable, r) =>
          (req :: reqs, record.dataLen + dataLen, undecodable, r)
    | some (_, r) => some ([], 0, false, r)

/-- `fs.Load`: the next `rows` requests.  A payload that cannot be decoded empties the file. -/
def load (fs : FileStore) (rows : Int) : Option ((List α × Option Err) × FileStore) :=
  match fs.store.seek fs.offset with
  | (_, file) =>
    match loadLoop rows.toNat (Reader.new file) with
    | none => none
    | some (reqs, dataLen, undecodable, r) =>
      if undecodable then
        match r.file.truncate 0 with
        | (some e, file) => some (([], some e), { fs with store := file })
        | (none, file) =>
          match file.seek 0 with
          | (some e, file) => some (([], some e), { fs with store := file })
          | (none, file) => some ((reqs, none), ⟨file, 0⟩)
      else
        let fs : FileStore := ⟨r.file, fs.offset + dataLen⟩
        if cleanOffsetThreshold < fs.offset then
          (truncate fs ([] : List α) []).map fun (_, fs) => ((reqs, none), fs)
        else some ((reqs, none), fs)

/-! ## What the calls do to the bytes -/

/-- The bytes of a list of requests in the file. -/
def bytesOf (reqs : List α) : List UInt8 := logBytes (reqs.map fun req => (encode req).1)

@[simp]
theorem bytesOf_nil : bytesOf ([] : List α) = [] := rfl

@[simp]
theorem bytesOf_append (xs ys : List α) : bytesOf (xs ++ ys) = bytesOf xs ++ bytesOf ys := by
  simp [bytesOf]

theorem bytesOf_cons (x : α) (xs : List α) :
    bytesOf (x :: xs) = (newRecord (encode x).1).bytes ++ bytesOf xs := rfl

theorem bytesOf_take_drop (reqs : List α) (n : Nat) :
    (bytesOf reqs).drop (bytesOf (reqs.take n)).length = bytesOf (reqs.drop n) := by
  conv_lhs => rw [← List.take_append_drop n reqs, bytesOf_append]
  rw [List.take_append_drop, List.drop_left' rfl]

theorem length_bytesOf_take_le (reqs : List α) (n : Nat) :
    (bytesOf (reqs.take n)).length ≤ (bytesOf reqs).length := by
  conv_rhs => rw [← List.take_append_drop n reqs, bytesOf_append, List.length_append]
  omega

/-- `doWrite` overwrites the file at its cursor. -/
theorem doWrite_healthy (data : List UInt8) (pos offset : Nat) (hpos : pos ≤ data.length)
    (reqs : List α) : doWrite ⟨⟨data, pos, []⟩, offset⟩ reqs =
      (none, ⟨⟨overwrite data pos (bytesOf reqs), pos + (bytesOf reqs).length, []⟩, offset⟩) := by
  unfold doWrite
  simp only [writeRecords_wrote hpos _ (Writer.new_wrote data pos), List.nil_append]
  rfl

/-- `doWrite` with the cursor at the end appends. -/
theorem doWrite_end (data : List UInt8) (offset : Nat) (reqs : List α) :
    doWrite ⟨⟨data, data.length, []⟩, offset⟩ reqs =
      (none, ⟨⟨data ++ bytesOf reqs, (data ++ bytesOf reqs).length, []⟩, offset⟩) := by
  rw [doWrite_healthy _ _ _ le_rfl, overwrite_end, List.length_append]

/-- **`truncate` splices the unread bytes** between the two lists, and rewinds. -/
theorem truncate_healthy (data : List UInt8) (pos offset : Nat) (hoff : offset ≤ data.length)
    (before after : List α) : truncate ⟨⟨data, pos, []⟩, offset⟩ before after =
      some (none, ⟨⟨bytesOf before ++ data.drop offset ++ bytesOf after,
        (bytesOf before ++ data.drop offset ++ bytesOf after).length, []⟩, 0⟩) := by
  have hbefore := doWrite_end [] offset before
  have hafter := doWrite_end (bytesOf before ++ data.drop offset) offset after
  simp only [List.nil_append, List.length_nil] at hbefore
  unfold truncate
  simp only [File.stat_healthy, if_neg (Nat.not_lt.mpr hoff), File.readAt_healthy _ _ _ hoff,
    File.truncate_healthy, File.seek_healthy, hbefore, File.write_healthy, overwrite_end]
  rw [← List.length_append, hafter]

variable {lo : Nat}

/-- **The loop of `load` reads the next records**, whatever the alignment of their bytes. -/
theorem loadLoop_healthy (hl : Lossless α lo 255) {data : List UInt8} (rows : Nat)
    (pending : List α) {r : Reader} (hon : r.On data) (hrest : r.rest = bytesOf pending) :
    ∃ r', loadLoop rows r =
      some (pending.take rows, (bytesOf (pending.take rows)).length, false, r') ∧ r'.On data := by
  induction rows generalizing pending r with
  | zero =>
    cases pending with
    | nil => exact ⟨r, by simp [loadLoop, read_nil hon hrest], hon⟩
    | cons a pending =>
      obtain ⟨r', hread, -, hon'⟩ := read_newRecord hon _ _ (hl.le_hi a) hrest
      exact ⟨r', by simp [loadLoop, hread], hon'⟩
  | succ rows ih =>
    cases pending with
    | nil => exact ⟨r, by simp [loadLoop, read_nil hon hrest], hon⟩
    | cons a pending =>
      obtain ⟨r₁, hread, hrest₁, hon₁⟩ := read_newRecord hon _ _ (hl.le_hi a) hrest
      obtain ⟨r', hloop, hon'⟩ := ih pending hon₁ hrest₁
      refine ⟨r', ?_, hon'⟩
      rw [loadLoop, hread]
      simp only [hl.decode_encode, hloop, Option.map_some, List.take_succ_cons]
      rw [bytesOf_cons, List.length_append]
      rfl

/-- **`load` on a file whose unread bytes are those of `pending`** returns the next `rows` of them.
It moves the offset behind them, and drops what lies before it once it is over the threshold. -/
theorem load_healthy (hl : Lossless α lo 255) (data : List UInt8) (pos offset : Nat)
    (hoff : offset ≤ data.length) (pending : List α) (hdata : data.drop offset = bytesOf pending)
    (rows : Int) :
    let moved := offset + (bytesOf (pending.take rows.toNat)).length
    ∃ pos', pos' ≤ data.length ∧ load ⟨⟨data, pos, []⟩, offset⟩ rows = some ((pending.take rows.toNat, none),
      if cleanOffsetThreshold < moved then ⟨⟨data.drop moved, (data.drop moved).length, []⟩, 0⟩
      else ⟨⟨data, pos', []⟩, moved⟩) := by
  intro moved
  obtain ⟨⟨⟨bytes, pos', fates⟩, buf⟩, hloop, hbytes, hfates, hpos'⟩ := loadLoop_healthy hl
    rows.toNat pending (Reader.new_on data offset hoff) ((Reader.new_rest data offset).trans hdata)
  simp only at hbytes hfates hpos'
  subst hbytes hfates
  have hmoved : moved ≤ bytes.length := by
    have hlen := congrArg List.length hdata
    rw [List.length_drop] at hlen
    have := length_bytesOf_take_le pending rows.toNat
    omega
  unfold load
  simp only [File.seek_healthy, hloop, Bool.false_eq_true, if_false]
  refine ⟨pos', hpos', ?_⟩
  split
  · rw [truncate_healthy _ _ _ hmoved]
    simp only [bytesOf_nil, List.nil_append, List.append_nil, Option.map_some]
  · rfl

end FileStore

end Accumulation.Store
