/-
# Accumulation.Store.Record — the record format of the store file.

A record is a two-byte header followed by its payload.  `Record.write` fills the header by hand,
its low byte only; `read` decodes it as a little-endian `uint16` turned `int16`.  The two agree
exactly for payloads of at most 255 bytes (`readUntilNil_writeRecords_iff`): a longer one is written
whole under a header that says `length mod 256`.

`readFixedLength` stitches a field from what is buffered and one further read.  On a healthy file
that is enough for every alignment of a record against the blocks (`readFixedLength_ok`).
-/
import Accumulation.Go.File
import Accumulation.Go.Int

namespace Accumulation.Store

open Accumulation.Go

structure Record where
  dLen : Int
  data : List UInt8
  deriving DecidableEq, Repr

/-- The length of the record in the file. -/
def Record.dataLen (r : Record) : Nat := r.data.length + 2

def newRecord (data : List UInt8) : Record := ⟨int16 data.length, data⟩

/-- `Record.write`: the second header byte is never assigned. -/
def Record.write (r : Record) (w : Writer) : Option Err × Writer :=
  let dLen := [UInt8.ofInt r.dLen, 0]
  match w.write dLen with
  | (some e, w) => (some e, w)
  | (none, w) => w.write r.data

/-- A fresh slice of length `n` into which `bs` has been read. -/
def fill (n : Nat) (bs : List UInt8) : List UInt8 := bs ++ List.replicate (n - bs.length) 0

/-- `readFixedLength`; `none` is the panic of `make` on a negative length.  The count that
`r.Read` returns is ignored, so a short read leaves zeros behind. -/
def readFixedLength (r : Reader) (n : Int) : Option (Except Err (List UInt8) × Reader) :=
  if n < 0 then none
  else
    let n := n.toNat
    let remaining := r.buffered
    let len := if remaining < n then remaining else n
    match r.read len with
    | (.error e, r) => some (.error e, r)
    | (.ok bs, r) =>
      if remaining < n then
        match r.read (n - remaining) with
        | (.error e, r) => some (.error e, r)
        | (.ok more, r) => some (.ok (fill len bs ++ fill (n - remaining) more), r)
      else some (.ok (fill len bs), r)

/-- What `read` does after each of its two fields: the end of the file makes it return `nil`, any
other error is returned, and otherwise it goes on with the bytes of the field. -/
def onField (k : List UInt8 → Reader → Option (Except Err (Option Record) × Reader)) :
    Option (Except Err (List UInt8) × Reader) → Option (Except Err (Option Record) × Reader)
  | none => none
  | some (.error .eof, r) => some (.ok none, r)
  | some (.error e, r) => some (.error e, r)
  | some (.ok bs, r) => k bs r

/-- `read`: a record, `nil` at the end of the file, or an error; `none` is a panic. -/
def read (r : Reader) : Option (Except Err (Option Record) × Reader) :=
  onField (fun head r =>
    onField (fun data r => some (.ok (some ⟨int16 (uint16 head), data⟩), r))
      (readFixedLength r (int16 (uint16 head))))
    (readFixedLength r 2)

/-- The loop of `doWrite` on encoded requests: every payload as a record, then a flush. -/
def writeRecords : Writer → List (List UInt8) → Option Err × Writer
  | w, [] => w.flush
  | w, data :: payloads =>
    match (newRecord data).write w with
    | (some e, w) => (some e, w)
    | (none, w) => writeRecords w payloads

/-- Call `read` until it returns `nil` and collect the payloads; `none` if a call fails, panics, or
if `calls` calls are not enough. -/
def readCalls : Nat → Reader → Option (List (List UInt8))
  | 0, _ => none
  | calls + 1, r =>
    match read r with
    | some (.ok none, _) => some []
    | some (.ok (some record), r) => (readCalls calls r).map (record.data :: ·)
    | _ => none

/-- Call `read` until it returns `nil`.  Every record takes at least one byte, so the number of
bytes bounds the number of calls (`readCalls_enough`). -/
def readUntilNil (r : Reader) : Option (List (List UInt8)) :=
  readCalls (r.rest.length + 1) r

/-! ## Writing -/

/-- The bytes of a record in the file. -/
def Record.bytes (r : Record) : List UInt8 := UInt8.ofInt r.dLen :: 0 :: r.data

@[simp]
theorem Record.length_bytes (r : Record) : r.bytes.length = r.dataLen := rfl

/-- The bytes of a log of payloads. -/
def logBytes (payloads : List (List UInt8)) : List UInt8 :=
  payloads.flatMap fun data => (newRecord data).bytes

@[simp]
theorem logBytes_nil : logBytes [] = [] := rfl

@[simp]
theorem logBytes_cons (data : List UInt8) (payloads : List (List UInt8)) :
    logBytes (data :: payloads) = (newRecord data).bytes ++ logBytes payloads := rfl

@[simp]
theorem logBytes_append (xs ys : List (List UInt8)) :
    logBytes (xs ++ ys) = logBytes xs ++ logBytes ys := by
  simp [logBytes]

/-- Writing a record gives its bytes to the writer. -/
theorem Record.write_wrote {w : Writer} {data bs : List UInt8} {pos : Nat}
    (hpos : pos ≤ data.length) (r : Record) (h : w.Wrote data pos bs) :
    (r.write w).1 = none ∧ (r.write w).2.Wrote data pos (bs ++ r.bytes) := by
  obtain ⟨herr, hhead⟩ := h.write hpos [UInt8.ofInt r.dLen, 0]
  obtain ⟨herr', hdata⟩ := hhead.write hpos r.data
  have hwrite : r.write w = (w.write [UInt8.ofInt r.dLen, 0]).2.write r.data := by
    unfold Record.write
    simp only
    rw [← Prod.mk.eta (p := w.write [UInt8.ofInt r.dLen, 0]), herr]
  rw [hwrite]
  exact ⟨herr', by simpa [Record.bytes, List.append_assoc] using hdata⟩

/-- **Writing a list of payloads to a healthy file** overwrites it at the cursor with their log. -/
theorem writeRecords_wrote {data bs : List UInt8} {pos : Nat} (hpos : pos ≤ data.length)
    (payloads : List (List UInt8)) {w : Writer} (h : w.Wrote data pos bs) :
    writeRecords w payloads = (none, ⟨⟨overwrite data pos (bs ++ logBytes payloads),
      pos + (bs ++ logBytes payloads).length, []⟩, [], none⟩) := by
  induction payloads generalizing w bs with
  | nil =>
    rw [logBytes_nil, List.append_nil]
    exact h.flush hpos
  | cons p payloads ih =>
    obtain ⟨herr, hwrote⟩ := (newRecord p).write_wrote hpos h
    rw [writeRecords, ← Prod.mk.eta (p := (newRecord p).write w), herr]
    simp only
    rw [ih hwrote, logBytes_cons, List.append_assoc]

/-- The header byte of a record is the length of its payload modulo 256. -/
theorem newRecord_head (data : List UInt8) :
    (UInt8.ofInt (newRecord data).dLen).toNat = data.length % 256 := by
  simp only [newRecord, int16, UInt8.ofInt]
  have h : ((data.length : Int).bmod (2 ^ 16)) % 2 ^ 8 = ((data.length % 256 : Nat) : Int) := by
    rw [Int.bmod_def]
    split <;> omega
  rw [h, Int.toNat_natCast, UInt8.toNat_ofNat']
  omega

/-! ## Reading -/

section

variable (k : List UInt8 → Reader → Option (Except Err (Option Record) × Reader)) (r : Reader)

@[simp]
theorem onField_ok (bs : List UInt8) : onField k (some (.ok bs, r)) = k bs r := rfl

@[simp]
theorem onField_eof : onField k (some (.error .eof, r)) = some (.ok none, r) := rfl

end

theorem fill_length (bs : List UInt8) : fill bs.length bs = bs := by
  simp [fill]

theorem fill_eq {n : Nat} {bs : List UInt8} (h : bs.length = n) : fill n bs = bs := by
  subst h
  exact fill_length bs

/-- **`readFixedLength` delivers the next `n` bytes whenever there are that many**, wherever the
block boundaries lie. -/
theorem readFixedLength_ok {r : Reader} {data : List UInt8} (hon : r.On data) (n : Nat)
    (hn : n ≤ r.rest.length) :
    ∃ r', readFixedLength r n = some (.ok (r.rest.take n), r') ∧ r'.rest = r.rest.drop n ∧
      r'.On data := by
  unfold readFixedLength
  rw [if_neg (by omega), Int.toNat_natCast]
  by_cases hrem : r.buffered < n
  · simp only [if_pos hrem]
    -- the buffered part, and a reader whose buffer is then empty
    obtain ⟨r₁, hread, hbuf, hfile⟩ := r.read_all_buffered
    have hon₁ : r₁.On data := by simpa [Reader.On, hfile] using hon
    have hrest : r.rest = r.buf ++ r₁.rest := by simp [Reader.rest, hbuf, hfile]
    have hlen : n - r.buffered ≤ r₁.rest.length := by
      rw [hrest, List.length_append] at hn
      have : r.buffered = r.buf.length := rfl
      omega
    obtain ⟨r₂, hmore, hrest₂, hon₂⟩ := Reader.read_block hon₁ (n - r.buffered) (by omega) hbuf
      (by rintro h; rw [h, List.length_nil] at hlen; omega)
    simp only [show r.read r.buffered = _ from hread, hmore]
    refine ⟨r₂, ?_, ?_, hon₂⟩
    · rw [fill_eq (show r.buf.length = r.buffered from rfl),
        fill_eq (by rw [List.length_take]; omega), hrest, List.take_append,
        List.take_of_length_le (show r.buf.length ≤ n from hrem.le)]
      rfl
    · rw [hrest₂, hrest, List.drop_append,
        List.drop_eq_nil_of_le (show r.buf.length ≤ n from hrem.le)]
      rfl
  · simp only [if_neg hrem]
    have hle : n ≤ r.buf.length := Nat.le_of_not_lt hrem
    have htake : r.rest.take n = r.buf.take n := List.take_append_of_le_length hle
    have hread : r.read n = (.ok (r.buf.take n), { r with buf := r.buf.drop n }) := by
      by_cases hb : r.buf = []
      · obtain rfl : n = 0 := by simpa [hb] using hle
        simp [Reader.read_zero]
      · exact Reader.read_buffered _ hb
    simp only [hread]
    refine ⟨{ r with buf := r.buf.drop n }, ?_, (List.drop_append_of_le_length hle).symm, hon⟩
    rw [htake, fill_eq (by rw [List.length_take]; omega)]

/-- At the end of the file `readFixedLength` reports it. -/
theorem readFixedLength_eof {r : Reader} {data : List UInt8} (hon : r.On data) (n : Nat)
    (hn : 0 < n) (hrest : r.rest = []) : readFixedLength r n = some (.error .eof, r) := by
  have hbuf : r.buf = [] := (List.append_eq_nil_iff.mp hrest).1
  unfold readFixedLength
  rw [if_neg (by omega), Int.toNat_natCast]
  simp only [Reader.buffered, hbuf, List.length_nil, if_pos hn, Reader.read_zero, Nat.sub_zero,
    Reader.read_eof hon n hn hrest]

/-- When fewer than `n` bytes are left, `readFixedLength` either reports the end of the file (all of
them were buffered) or pads them with zeros. -/
theorem readFixedLength_short {r : Reader} {data : List UInt8} (hon : r.On data) (n : Nat)
    (hn : r.rest.length < n) :
    ∃ r', r'.rest = [] ∧ r'.On data ∧ (readFixedLength r n = some (.error .eof, r') ∨
      r.rest ≠ [] ∧ readFixedLength r n = some (.ok (fill n r.rest), r')) := by
  obtain ⟨r₁, hread, hbuf, hfile⟩ := r.read_all_buffered
  have hon₁ : r₁.On data := by simpa [Reader.On, hfile] using hon
  have hrest : r.rest = r.buf ++ r₁.rest := by simp [Reader.rest, hbuf, hfile]
  have hlen : r.buffered + r₁.rest.length < n := by
    rw [hrest, List.length_append] at hn
    exact hn
  have hrem : r.buffered < n := by omega
  unfold readFixedLength
  rw [if_neg (by omega), Int.toNat_natCast]
  simp only [if_pos hrem, show r.read r.buffered = _ from hread]
  by_cases hend : r₁.rest = []
  · refine ⟨r₁, hend, hon₁, Or.inl ?_⟩
    rw [Reader.read_eof hon₁ _ (by omega) hend]
  · obtain ⟨r₂, hmore, hrest₂, hon₂⟩ :=
      Reader.read_block hon₁ (n - r.buffered) (by omega) hbuf hend
    refine ⟨r₂, ?_, hon₂, Or.inr ⟨by simp [hrest, hend], ?_⟩⟩
    · rw [hrest₂, List.drop_eq_nil_of_le (by omega)]
    · rw [hmore, hrest, List.take_of_length_le (by omega)]
      simp only [fill, Reader.buffered, Nat.sub_self, List.replicate_zero, List.append_nil,
        List.length_append, List.append_assoc, Nat.sub_sub]

/-- A field never gives bytes back to the reader. -/
theorem readFixedLength_rest_le {r r' : Reader} {data : List UInt8} (hon : r.On data) {n : Int}
    {res : Except Err (List UInt8)} (h : readFixedLength r n = some (res, r')) :
    r'.rest.length ≤ r.rest.length ∧ r'.On data := by
  have hn : 0 ≤ n := by
    by_contra hneg
    rw [readFixedLength, if_pos (by omega)] at h
    cases h
  obtain ⟨n, rfl⟩ := Int.eq_ofNat_of_zero_le hn
  by_cases hlen : n ≤ r.rest.length
  · obtain ⟨r₁, hok, hrest, hon₁⟩ := readFixedLength_ok hon n hlen
    obtain ⟨-, rfl⟩ := Prod.mk.inj (Option.some.inj (hok.symm.trans h))
    exact ⟨by rw [hrest, List.length_drop]; omega, hon₁⟩
  · obtain ⟨r₁, hrest, hon₁, hres⟩ := readFixedLength_short hon n (by omega)
    obtain rfl : r₁ = r' := by
      rcases hres with hres | ⟨-, hres⟩ <;>
        exact (Prod.mk.inj (Option.some.inj (hres.symm.trans h))).2
    exact ⟨by rw [hrest]; exact Nat.zero_le _, hon₁⟩

/-- At the end of the file `read` returns `nil`. -/
theorem read_nil {r : Reader} {data : List UInt8} (hon : r.On data) (hrest : r.rest = []) :
    read r = some (.ok none, r) := by
  rw [read, show (2 : Int) = ((2 : Nat) : Int) from rfl,
    readFixedLength_eof hon 2 (by decide) hrest, onField_eof]

/-- **`read` takes as many bytes of payload as the low header byte says**, if the high one is zero
and that many are there. -/
theorem read_record {r : Reader} {data : List UInt8} (hon : r.On data) (len : UInt8)
    (body tail : List UInt8) (hbody : body.length = len.toNat)
    (hrest : r.rest = len :: 0 :: (body ++ tail)) :
    ∃ r', read r = some (.ok (some ⟨body.length, body⟩), r') ∧ r'.rest = tail ∧ r'.On data := by
  obtain ⟨r₁, hhead, hrest₁, hon₁⟩ := readFixedLength_ok hon 2 (by rw [hrest]; simp)
  rw [hrest] at hhead hrest₁
  simp only [List.take_succ_cons, List.take_zero, List.drop_succ_cons, List.drop_zero]
    at hhead hrest₁
  have hlen : int16 (uint16 [len, 0]) = (body.length : Int) := by
    have hlt : len.toNat < 2 ^ 8 := len.toNat_lt
    rw [hbody, uint16_low, int16_of_lt (by omega)]
  obtain ⟨r₂, hdata, hrest₂, hon₂⟩ := readFixedLength_ok hon₁ body.length (by rw [hrest₁]; simp)
  rw [hrest₁] at hdata hrest₂
  rw [List.take_left'  rfl] at hdata
  refine ⟨r₂, ?_, by rw [hrest₂, List.drop_left' rfl], hon₂⟩
  rw [← hlen] at hdata
  rw [read, show (2 : Int) = ((2 : Nat) : Int) from rfl, hhead, onField_ok, hdata, onField_ok, hlen]

/-- A payload of at most 255 bytes is read back as it was written. -/
theorem read_newRecord {r : Reader} {bytes : List UInt8} (hon : r.On bytes)
    (data tail : List UInt8) (hsmall : data.length ≤ 255)
    (hrest : r.rest = (newRecord data).bytes ++ tail) :
    ∃ r', read r = some (.ok (some ⟨data.length, data⟩), r') ∧ r'.rest = tail ∧ r'.On bytes :=
  read_record hon _ data tail (by rw [newRecord_head]; omega) hrest

/-! ## The log as a whole -/

/-- A record that `read` returns has taken at least one byte. -/
theorem read_shrinks {r r' : Reader} {data : List UInt8} {record : Record} (hon : r.On data)
    (h : read r = some (.ok (some record), r')) :
    r'.rest.length < r.rest.length ∧ r'.On data := by
  -- the header takes two bytes, or all there are
  obtain ⟨head, r₁, hhead, hlt, hon₁⟩ : ∃ head r₁, readFixedLength r ((2 : Nat) : Int) =
      some (.ok head, r₁) ∧ r₁.rest.length < r.rest.length ∧ r₁.On data := by
    by_cases hlen : 2 ≤ r.rest.length
    · obtain ⟨r₁, hok, hrest, hon₁⟩ := readFixedLength_ok hon 2 hlen
      exact ⟨_, r₁, hok, by rw [hrest, List.length_drop]; omega, hon₁⟩
    · obtain ⟨r₁, hrest, hon₁, hres | ⟨hne, hres⟩⟩ :=
        readFixedLength_short hon 2 (Nat.lt_of_not_le hlen)
      · rw [read, show (2 : Int) = ((2 : Nat) : Int) from rfl, hres, onField_eof] at h
        cases h
      · exact ⟨_, r₁, hres, by rw [hrest]; exact List.length_pos_iff.mpr hne, hon₁⟩
  rw [read, show (2 : Int) = ((2 : Nat) : Int) from rfl, hhead, onField_ok] at h
  -- the payload takes the rest
  cases hbody : readFixedLength r₁ (int16 (uint16 head)) with
  | none =>
    rw [hbody] at h
    cases h
  | some res =>
    obtain ⟨body, r₂⟩ := res
    obtain ⟨hle, hon₂⟩ := readFixedLength_rest_le hon₁ hbody
    obtain rfl : r₂ = r' := by
      rw [hbody] at h
      rcases body with e | bs
      · cases e <;> cases h
      · exact (Prod.mk.inj (Option.some.inj h)).2
    exact ⟨by omega, hon₂⟩

/-- More calls than bytes make no difference. -/
theorem readCalls_enough {data : List UInt8} (m n : Nat) {r : Reader} (hon : r.On data)
    (hm : r.rest.length < m) (hn : r.rest.length < n) : readCalls m r = readCalls n r := by
  induction m generalizing n r with
  | zero => omega
  | succ m ih =>
    obtain ⟨n, rfl⟩ : ∃ k, n = k + 1 := ⟨n - 1, by omega⟩
    rw [readCalls, readCalls]
    split
    · rfl
    · rename_i record r' hread
      obtain ⟨hlt, hon'⟩ := read_shrinks hon hread
      rw [ih n hon' (by omega) (by omega)]
    · rfl

/-- Reading a log back, as far as it can be: the payloads come back exactly when every header byte
could hold its payload's length. -/
theorem readCalls_logBytes_iff {data : List UInt8} (payloads : List (List UInt8)) (calls : Nat)
    {r : Reader} (hon : r.On data) (hrest : r.rest = logBytes payloads)
    (hcalls : payloads.length < calls) :
    readCalls calls r = some payloads ↔ ∀ p ∈ payloads, p.length ≤ 255 := by
  induction payloads generalizing calls r with
  | nil =>
    obtain ⟨calls, rfl⟩ : ∃ k, calls = k + 1 := ⟨calls - 1, by omega⟩
    simp [readCalls, read_nil hon hrest]
  | cons p payloads ih =>
    obtain ⟨calls, rfl⟩ : ∃ k, calls = k + 1 := ⟨calls - 1, by omega⟩
    -- the header byte makes `read` return the first `p.length % 256` bytes of the payload
    have hbody : (p.take (p.length % 256)).length = p.length % 256 := by
      rw [List.length_take]
      exact Nat.min_eq_left (Nat.mod_le _ _)
    have hsplit : r.rest = UInt8.ofInt (newRecord p).dLen :: 0 ::
        (p.take (p.length % 256) ++ (p.drop (p.length % 256) ++ logBytes payloads)) := by
      rw [hrest, logBytes_cons, ← List.append_assoc, List.take_append_drop]
      rfl
    obtain ⟨r', hread, hrest', hon'⟩ :=
      read_record hon _ _ _ (hbody.trans (newRecord_head p).symm) hsplit
    rw [readCalls, hread]
    simp only [Option.map_eq_some_iff, List.cons.injEq, List.forall_mem_cons]
    constructor
    · rintro ⟨ps, hps, hp, rfl⟩
      have hlen : p.length % 256 = p.length := by rw [← hbody, hp]
      have hnext : r'.rest = logBytes ps := by
        rw [hrest', hlen, List.drop_length, List.nil_append]
      exact ⟨by omega, (ih calls hon' hnext (by simpa using hcalls)).mp hps⟩
    · rintro ⟨hp, hps⟩
      have hlen : p.length % 256 = p.length := by omega
      have hnext : r'.rest = logBytes payloads := by
        rw [hrest', hlen, List.drop_length, List.nil_append]
      exact ⟨payloads, (ih calls hon' hnext (by simpa using hcalls)).mpr hps,
        by rw [hlen, List.take_length], rfl⟩

/-- A log has more bytes than records. -/
theorem length_le_logBytes (payloads : List (List UInt8)) :
    payloads.length ≤ (logBytes payloads).length := by
  induction payloads with
  | nil => rfl
  | cons p payloads ih =>
    rw [logBytes_cons, List.length_append, List.length_cons, Record.length_bytes, Record.dataLen]
    omega

/-- The file a list of payloads is written to, from empty. -/
def logFile (payloads : List (List UInt8)) : File :=
  (writeRecords (Writer.new ⟨[], 0, []⟩) payloads).2.file

theorem logFile_data (payloads : List (List UInt8)) :
    (logFile payloads).data = logBytes payloads := by
  rw [logFile, writeRecords_wrote le_rfl payloads (Writer.new_wrote [] 0), List.nil_append]
  exact overwrite_end [] _

/-- **Reading undoes writing exactly up to 255 bytes.**  The payloads that were written come back,
all of them and in order, if and only if each of them fits the one header byte that is written. -/
theorem readUntilNil_logFile_iff (payloads : List (List UInt8)) :
    readUntilNil (Reader.new ⟨(logFile payloads).data, 0, []⟩) = some payloads ↔
      ∀ p ∈ payloads, p.length ≤ 255 := by
  refine readCalls_logBytes_iff payloads _ (Reader.new_on _ _ (Nat.zero_le _)) ?_ ?_
  · rw [Reader.new_rest, List.drop_zero, logFile_data]
  · rw [Reader.new_rest, List.drop_zero, logFile_data]
    exact Nat.lt_succ_of_le (length_le_logBytes payloads)

/-- A payload of 256 bytes, far below the 4096 the reader is meant for, does not come back. -/
theorem readUntilNil_logFile_256 :
    (List.replicate 256 (7 : UInt8)).length < 4096 ∧
      readUntilNil (Reader.new ⟨(logFile [List.replicate 256 7]).data, 0, []⟩) ≠
        some [List.replicate 256 7] := by
  have hlost : ∀ p : List UInt8, 255 < p.length →
      readUntilNil (Reader.new ⟨(logFile [p]).data, 0, []⟩) ≠ some [p] := by
    intro p hp h
    have hrest : (Reader.new ⟨(logFile [p]).data, 0, []⟩).rest = logBytes [p] := by
      rw [Reader.new_rest, List.drop_zero, logFile_data]
    have hon := Reader.new_on (logFile [p]).data 0 (Nat.zero_le _)
    have hfits := (readCalls_logBytes_iff [p] _ hon hrest (by
      rw [hrest]
      exact Nat.lt_succ_of_le (length_le_logBytes _))).mp h
    have := hfits p (List.mem_singleton_self p)
    omega
  refine ⟨?_, hlost _ ?_⟩ <;> · rw [List.length_replicate]; decide

end Accumulation.Store
