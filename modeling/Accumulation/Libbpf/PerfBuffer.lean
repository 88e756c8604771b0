/-
# Accumulation.Libbpf.PerfBuffer — how records come out of a perf buffer.

The kernel puts records into a ring of bytes, one after the other, and a record may begin at the end of
the ring and go on at its start.  The reader takes the records that are there when it comes, and puts a
record together in memory of its own if it is in two parts.  The kernel gets the room back when the
reader returns, not before.

To the program the ring is a queue (`Queue`).  The callback gets every record once, as it was put and in
the order in which records were put, while the kernel goes on putting others, and however often the
counters wrap.  It may stop the reader after a record; and the reader stops before a record if there is
no memory for it, which it then finds again the next time (`perf_buffer_refines`).
-/
import Accumulation.Lib.Refinement
import Accumulation.Lib.Wrapping

namespace Accumulation.Libbpf.Perf

open Accumulation.Lib.Refinement Accumulation.Lib.Wrapping

variable {P : Type*}

/-! ## `bpf_perf_event_read_simple` -/

/-- `bpf_perf_event_ret` -/
inductive Ret
  | done
  | error
  | cont
  deriving DecidableEq, Repr

/-- The two ends the reader works between. -/
structure Reader where
  dataHead : UInt64
  dataTail : UInt64

/-- `perf_event_mmap_page`, the memory behind it, and what the reader has besides. -/
structure PerfBuf (P : Type*) where
  dataHead : UInt64
  dataTail : UInt64
  mmapSize : UInt64
  /-- from `base` on -/
  data : ℕ → UInt8
  copySize : ℕ
  /-- the reader, in the middle of its loop -/
  reader : Option Reader
  privateData : P

/-- A `__u16` in memory. -/
def word16 (littleEndian : Bool) (x y : UInt8) : ℕ :=
  if littleEndian then x.toNat + 256 * y.toNat else 256 * x.toNat + y.toNat

namespace PerfBuf

variable (b : PerfBuf P)

/-- `ehdr - base` -/
def offset (pos : UInt64) : ℕ := (pos &&& (b.mmapSize - 1)).toNat

/-- `ehdr->size` -/
def ehdrSize (littleEndian : Bool) (pos : UInt64) : ℕ :=
  word16 littleEndian (b.data (b.offset pos + 6)) (b.data (b.offset pos + 7))

/-- The record does not end before the ring does. -/
def wraps (pos : UInt64) (size : ℕ) : Bool := b.offset pos + size > b.mmapSize.toNat

/-- What `fn` gets: the record where it is, or a copy of its two parts. -/
def ehdr (pos : UInt64) (size : ℕ) : List UInt8 :=
  if b.wraps pos size then
    let lenFirst := b.mmapSize.toNat - b.offset pos
    let lenSecnd := size - lenFirst
    (List.range lenFirst).map (fun i => b.data (b.offset pos + i)) ++ (List.range lenSecnd).map b.data
  else (List.range size).map fun i => b.data (b.offset pos + i)

/-- The reader returns. -/
def leave (dataTail : UInt64) : PerfBuf P := { b with dataTail, reader := none }

end PerfBuf

/-! ## What happens to a buffer -/

inductive Action
  /-- the kernel puts a record -/
  | put (record : List UInt8)
  /-- `bpf_perf_event_read_simple` is called -/
  | enter
  /-- the reader goes round its loop; there is memory or not -/
  | next (malloc : Bool)

inductive Answer
  | put
  | entered
  | returned (ret : Ret)
  /-- `fn` gets a record and says to go on -/
  | passed (record : List UInt8)
  /-- `fn` gets a record and says to stop -/
  | stopped (record : List UInt8) (ret : Ret)
  /-- there is no reader, or there is one already -/
  | stray

/-- The kernel's end. -/
def put (record : List UInt8) (b : PerfBuf P) : PerfBuf P :=
  { b with
    data := fun j =>
      let i := (j + b.mmapSize.toNat - b.offset b.dataHead) % b.mmapSize.toNat
      if i < record.length then record.getD i 0 else b.data j
    dataHead := b.dataHead + .ofNat record.length }

def enter (b : PerfBuf P) : Answer × PerfBuf P :=
  match b.reader with
  | some _ => (.stray, b)
  | none => (.entered, { b with reader := some ⟨b.dataHead, b.dataTail⟩ })

/-- One round of the loop. -/
def next (littleEndian : Bool) (fn : List UInt8 → P → Ret × P) (malloc : Bool) (b : PerfBuf P) :
    Answer × PerfBuf P :=
  match b.reader with
  | none => (.stray, b)
  | some reader =>
    if reader.dataHead = reader.dataTail then (.returned .cont, b.leave reader.dataTail)
    else
      let size := b.ehdrSize littleEndian reader.dataTail
      let copies := b.wraps reader.dataTail size && decide (b.copySize < size)
      if copies && !malloc then
        -- the tail stays before the record
        (.returned .error, { b with copySize := 0 }.leave reader.dataTail)
      else
        let record := b.ehdr reader.dataTail size
        let out := fn record b.privateData
        let dataTail := reader.dataTail + .ofNat size
        let b := { b with
          copySize := if copies then size else b.copySize
          privateData := out.2 }
        if out.1 = .cont then
          (.passed record, { b with reader := some ⟨reader.dataHead, dataTail⟩ })
        -- the record has been passed on, so it is behind the tail
        else (.stopped record out.1, b.leave dataTail)

def step (littleEndian : Bool) (fn : List UInt8 → P → Ret × P) (b : PerfBuf P) :
    Action → Answer × PerfBuf P
  | .put record => (.put, put record b)
  | .enter => enter b
  | .next malloc => next littleEndian fn malloc b

/-- A buffer whose counters stand at a number. -/
def opened (k start : ℕ) (data : ℕ → UInt8) (privateData : P) : PerfBuf P where
  dataHead := counter64 start
  dataTail := counter64 start
  mmapSize := counter64 (2 ^ k)
  data := data
  copySize := 0
  reader := none
  privateData := privateData

/-! ## A queue -/

structure Queue (P : Type*) where
  /-- the bytes of the records that `fn` has got since the reader came -/
  held : ℕ
  unread : List (List UInt8)
  /-- how many of them the reader has still to pass on -/
  reading : Option ℕ
  privateData : P

/-- A record as the kernel puts it: whole words, with its size in the header. -/
structure IsRecord (littleEndian : Bool) (record : List UInt8) : Prop where
  words : 8 ∣ record.length
  header : 8 ≤ record.length
  size : word16 littleEndian (record.getD 6 0) (record.getD 7 0) = record.length

/-- The kernel puts records, and only where there is room. -/
def Contract (littleEndian : Bool) (k : ℕ) (q : Queue P) : Action → Prop
  | .put record =>
    IsRecord littleEndian record ∧ q.held + q.unread.flatten.length + record.length ≤ 2 ^ k
  | .enter => True
  | .next _ => True

/-- A step in which the kernel puts a record only where there is room for it, by the two counters in
the page. -/
def Kept (littleEndian : Bool) (fn : List UInt8 → P → Ret × P) (b : PerfBuf P) (a : Action)
    (answer : Answer) (b' : PerfBuf P) : Prop :=
  (answer, b') = step littleEndian fn b a ∧
    ∀ record, a = .put record → IsRecord littleEndian record ∧
      (b.dataHead - b.dataTail).toNat + record.length ≤ b.mmapSize.toNat

/-- **What the program is promised.** -/
inductive Spec (fn : List UInt8 → P → Ret × P) : Queue P → Action → Answer → Queue P → Prop
  | put (q : Queue P) (record : List UInt8) :
    Spec fn q (.put record) .put { q with unread := q.unread ++ [record] }
  /-- the reader will pass on what is there now -/
  | entered (q : Queue P) (hreading : q.reading = none) :
    Spec fn q .enter .entered { q with reading := some q.unread.length }
  | returned (q : Queue P) (malloc : Bool) (hreading : q.reading = some 0) :
    Spec fn q (.next malloc) (.returned .cont) { q with held := 0, reading := none }
  | passed (held n : ℕ) (record : List UInt8) (rest : List (List UInt8)) (privateData : P)
      (malloc : Bool) (hfn : (fn record privateData).1 = .cont) :
    Spec fn ⟨held, record :: rest, some (n + 1), privateData⟩ (.next malloc) (.passed record)
      ⟨held + record.length, rest, some n, (fn record privateData).2⟩
  | stopped (held n : ℕ) (record : List UInt8) (rest : List (List UInt8)) (privateData : P)
      (malloc : Bool) (hfn : (fn record privateData).1 ≠ .cont) :
    Spec fn ⟨held, record :: rest, some (n + 1), privateData⟩ (.next malloc)
      (.stopped record (fn record privateData).1) ⟨0, rest, none, (fn record privateData).2⟩
  /-- only without memory, and the record stays -/
  | failed (q : Queue P) (n : ℕ) (hreading : q.reading = some (n + 1)) :
    Spec fn q (.next false) (.returned .error) { q with held := 0, reading := none }
  | absent (q : Queue P) (malloc : Bool) (hreading : q.reading = none) :
    Spec fn q (.next malloc) .stray q
  | present (q : Queue P) (n : ℕ) (hreading : q.reading = some n) : Spec fn q .enter .stray q

/-! ## Bytes of the ring -/

variable {k : ℕ} {b : PerfBuf P} {q : Queue P} {littleEndian : Bool}
  {fn : List UInt8 → P → Ret × P}

/-- From a position on the ring holds these bytes. -/
def HoldsAt (k : ℕ) (data : ℕ → UInt8) (pos : ℕ) (bytes : List UInt8) : Prop :=
  ∀ i < bytes.length, data ((pos + i) % 2 ^ k) = bytes.getD i 0

theorem HoldsAt.left {data : ℕ → UInt8} {pos : ℕ} {bytes rest : List UInt8}
    (h : HoldsAt k data pos (bytes ++ rest)) : HoldsAt k data pos bytes := by
  intro i hi
  rw [h i (by rw [List.length_append]; omega), List.getD_append _ _ _ _ hi]

theorem HoldsAt.right {data : ℕ → UInt8} {pos : ℕ} {bytes rest : List UInt8}
    (h : HoldsAt k data pos (bytes ++ rest)) : HoldsAt k data (pos + bytes.length) rest := by
  intro i hi
  rw [Nat.add_assoc, h (bytes.length + i) (by rw [List.length_append]; omega),
    List.getD_append_right _ _ _ _ (Nat.le_add_right _ i), Nat.add_sub_cancel_left]

theorem offset_eq (hk : k < 64) (hsize : b.mmapSize = counter64 (2 ^ k)) (pos : ℕ) :
    b.offset (counter64 pos) = pos % 2 ^ k := by
  rw [PerfBuf.offset, hsize]
  exact toNat_and_mask64 hk pos

theorem toNat_mmapSize (hk : k < 64) (hsize : b.mmapSize = counter64 (2 ^ k)) :
    b.mmapSize.toNat = 2 ^ k := by
  rw [hsize]
  exact UInt64.toNat_ofNat_of_lt' (Nat.pow_lt_pow_right (by omega) hk)

/-- The header is in one part. -/
theorem mod_add_lt (hk : 3 ≤ k) {pos i : ℕ} (hpos : 8 ∣ pos) (hi : i < 8) :
    pos % 2 ^ k + i = (pos + i) % 2 ^ k := by
  obtain ⟨m, rfl⟩ := hpos
  have hring : 2 ^ k = 8 * 2 ^ (k - 3) := by
    rw [show (8 : ℕ) = 2 ^ 3 from rfl, ← pow_add, Nat.add_sub_of_le hk]
  have hpos : 0 < 2 ^ (k - 3) := Nat.two_pow_pos _
  have hlt := Nat.mod_lt m hpos
  have hrest : 8 * (m % 2 ^ (k - 3)) + i < 8 * 2 ^ (k - 3) := by omega
  rw [hring, Nat.add_mod, Nat.mul_mod_mul_left, Nat.mod_eq_of_lt (a := i) (by omega),
    Nat.mod_eq_of_lt hrest]

/-- **The reader sees the size** of the record, and the record itself, in one part or in two. -/
theorem ehdr_eq (hk : 3 ≤ k) (hk' : k < 64) (hsize : b.mmapSize = counter64 (2 ^ k)) {pos : ℕ}
    (hpos : 8 ∣ pos) {record : List UInt8} (hrecord : IsRecord littleEndian record)
    (hfits : record.length ≤ 2 ^ k) (h : HoldsAt k b.data pos record) :
    b.ehdrSize littleEndian (counter64 pos) = record.length ∧
      b.ehdr (counter64 pos) record.length = record := by
  have hheader := hrecord.header
  have hoffset := offset_eq hk' hsize pos
  have hmmap := toNat_mmapSize hk' hsize
  constructor
  · rw [PerfBuf.ehdrSize, hoffset, mod_add_lt hk hpos (by omega), mod_add_lt hk hpos (by omega),
      h 6 (by omega), h 7 (by omega)]
    exact hrecord.size
  · have hlt : pos % 2 ^ k < 2 ^ k := Nat.mod_lt pos (Nat.two_pow_pos k)
    have hget {i : ℕ} (hi : i < record.length) : b.data ((pos + i) % 2 ^ k) = record[i] := by
      rw [h i hi, List.getD_eq_getElem _ _ hi]
    rw [PerfBuf.ehdr, PerfBuf.wraps, hoffset, hmmap]
    by_cases hwraps : pos % 2 ^ k + record.length > 2 ^ k
    · rw [if_pos (decide_eq_true hwraps)]
      have hlength : ((List.range (2 ^ k - pos % 2 ^ k)).map fun i => b.data (pos % 2 ^ k + i)).length =
          2 ^ k - pos % 2 ^ k := by rw [List.length_map, List.length_range]
      refine List.ext_getElem ?_ fun i _ hi => ?_
      · rw [List.length_append, hlength, List.length_map, List.length_range]
        omega
      · rw [← hget hi, Nat.add_mod pos i, Nat.mod_eq_of_lt (a := i) (by omega)]
        by_cases hfirst : i < 2 ^ k - pos % 2 ^ k
        · rw [List.getElem_append_left (hlength.symm ▸ hfirst), List.getElem_map, List.getElem_range,
            Nat.mod_eq_of_lt (a := pos % 2 ^ k + i) (by omega)]
        · -- the second part begins at the start of the ring
          rw [List.getElem_append_right (hlength.symm ▸ Nat.le_of_not_lt hfirst), List.getElem_map,
            List.getElem_range, hlength, Nat.mod_eq_sub_mod (a := pos % 2 ^ k + i) (by omega),
            Nat.mod_eq_of_lt (a := pos % 2 ^ k + i - 2 ^ k) (by omega)]
          congr 1
          omega
    · rw [if_neg (by rw [decide_eq_true_iff]; exact hwraps)]
      refine List.ext_getElem (by simp only [List.length_map, List.length_range]) fun i hi' hi => ?_
      rw [List.getElem_map, List.getElem_range, ← hget hi, Nat.add_mod pos i,
        Nat.mod_eq_of_lt (a := i) (by omega), Nat.mod_eq_of_lt (a := pos % 2 ^ k + i) (by omega)]

/-- How far a slot is behind another one. -/
theorem slot_behind {n h m : ℕ} (hm : m < n) : ((h + m) % n + n - h % n) % n = m := by
  have hlt := Nat.mod_lt h (Nat.zero_lt_of_lt hm)
  rw [Nat.add_mod h m, Nat.mod_eq_of_lt hm]
  by_cases hwraps : h % n + m < n
  · rw [Nat.mod_eq_of_lt hwraps, show h % n + m + n - h % n = m + n by omega, Nat.add_mod_right,
      Nat.mod_eq_of_lt hm]
  · rw [Nat.mod_eq_sub_mod (a := h % n + m) (by omega),
      Nat.mod_eq_of_lt (a := h % n + m - n) (by omega),
      show h % n + m - n + n - h % n = m by omega, Nat.mod_eq_of_lt hm]

/-- **A record is put** behind the bytes that are there. -/
theorem put_holds (hk : k < 64) (hsize : b.mmapSize = counter64 (2 ^ k)) {pos : ℕ}
    {bytes record : List UInt8} (hbytes : HoldsAt k b.data pos bytes)
    (hhead : b.dataHead = counter64 (pos + bytes.length))
    (hroom : bytes.length + record.length ≤ 2 ^ k) :
    HoldsAt k (put record b).data pos (bytes ++ record) := by
  intro i hi
  rw [List.length_append] at hi
  show (if ((pos + i) % 2 ^ k + b.mmapSize.toNat - b.offset b.dataHead) % b.mmapSize.toNat <
      record.length
    then record.getD (((pos + i) % 2 ^ k + b.mmapSize.toNat - b.offset b.dataHead) %
      b.mmapSize.toNat) 0
    else b.data ((pos + i) % 2 ^ k)) = (bytes ++ record).getD i 0
  rw [toNat_mmapSize hk hsize, hhead, offset_eq hk hsize]
  by_cases hold : i < bytes.length
  · have hbehind : ((pos + i) % 2 ^ k + 2 ^ k - (pos + bytes.length) % 2 ^ k) % 2 ^ k =
        2 ^ k - (bytes.length - i) := by
      have hslot : (pos + i) % 2 ^ k = (pos + bytes.length + (2 ^ k - (bytes.length - i))) % 2 ^ k := by
        rw [show pos + bytes.length + (2 ^ k - (bytes.length - i)) = pos + i + 2 ^ k by omega,
          Nat.add_mod_right]
      rw [hslot]
      exact slot_behind (by omega)
    -- an old byte is at least as far ahead as the new record is long
    rw [hbehind, if_neg (by omega), hbytes i hold, List.getD_append _ _ _ _ hold]
  · obtain ⟨m, rfl⟩ := Nat.exists_eq_add_of_le (Nat.le_of_not_lt hold)
    rw [← Nat.add_assoc, slot_behind (by omega), if_pos (by omega),
      List.getD_append_right _ _ _ _ (Nat.le_add_right _ m), Nat.add_sub_cancel_left]

/-! ## The buffer and the queue -/

/-- Where the bytes of the queue are. -/
structure Lies (k : ℕ) (b : PerfBuf P) (q : Queue P) (tail pos : ℕ) : Prop where
  words : 8 ∣ pos
  held : pos = tail + q.held
  dataTail : b.dataTail = counter64 tail
  dataHead : b.dataHead = counter64 (pos + q.unread.flatten.length)
  reader : b.reader = q.reading.map fun n =>
    ⟨counter64 (pos + (q.unread.take n).flatten.length), counter64 pos⟩
  holds : HoldsAt k b.data pos q.unread.flatten

structure Rel (littleEndian : Bool) (k : ℕ) (b : PerfBuf P) (q : Queue P) : Prop where
  mmapSize : b.mmapSize = counter64 (2 ^ k)
  privateData : b.privateData = q.privateData
  records : ∀ record ∈ q.unread, IsRecord littleEndian record
  room : q.held + q.unread.flatten.length ≤ 2 ^ k
  reading : ∀ n, q.reading = some n → n ≤ q.unread.length
  idle : q.reading = none → q.held = 0
  lies : ∃ tail pos, Lies k b q tail pos

theorem rel_opened (k : ℕ) {start : ℕ} (hstart : 8 ∣ start) (data : ℕ → UInt8) (privateData : P) :
    Rel littleEndian k (opened k start data privateData) ⟨0, [], none, privateData⟩ where
  mmapSize := rfl
  privateData := rfl
  records := fun _ h => absurd h List.not_mem_nil
  room := Nat.zero_le _
  reading := fun _ h => by cases h
  idle := fun _ => rfl
  lies := ⟨start, start, hstart, rfl, rfl, rfl, rfl, fun i hi => absurd hi (Nat.not_lt_zero i)⟩

theorem rel_put (hk : k < 64) (h : Rel littleEndian k b q) {record : List UInt8}
    (hrecord : IsRecord littleEndian record)
    (hroom : q.held + q.unread.flatten.length + record.length ≤ 2 ^ k) :
    Rel littleEndian k (put record b) { q with unread := q.unread ++ [record] } := by
  obtain ⟨tail, pos, hlies⟩ := h.lies
  have hflatten : (q.unread ++ [record]).flatten = q.unread.flatten ++ record := by
    rw [List.flatten_append, List.flatten_singleton]
  refine ⟨h.mmapSize, h.privateData, fun r hr => ?_, ?_, fun n hn => ?_, h.idle, tail, pos,
    hlies.words, hlies.held, hlies.dataTail, ?_, ?_, ?_⟩
  · rcases List.mem_append.mp hr with hr | hr
    · exact h.records r hr
    · exact List.mem_singleton.mp hr ▸ hrecord
  · show q.held + (q.unread ++ [record]).flatten.length ≤ 2 ^ k
    rw [hflatten, List.length_append]
    omega
  · show n ≤ (q.unread ++ [record]).length
    rw [List.length_append]
    exact (h.reading n hn).trans (Nat.le_add_right _ _)
  · show b.dataHead + .ofNat record.length = counter64 (pos + (q.unread ++ [record]).flatten.length)
    rw [hlies.dataHead, hflatten, List.length_append, ← Nat.add_assoc, counter64_add _ record.length]
  · show b.reader = q.reading.map fun n =>
      ⟨counter64 (pos + ((q.unread ++ [record]).take n).flatten.length), counter64 pos⟩
    rw [hlies.reader]
    cases hreading : q.reading with
    | none => rfl
    | some n =>
      -- the reader stops where it would have stopped without the new record
      rw [Option.map_some, Option.map_some, List.take_append_of_le_length (h.reading n hreading)]
  · show HoldsAt k (put record b).data pos (q.unread ++ [record]).flatten
    rw [hflatten]
    exact put_holds hk h.mmapSize hlies.holds hlies.dataHead (by omega)

/-- **The reader has returned**, and the kernel has all the room up to where it was. -/
theorem rel_returned {unread : List (List UInt8)} {pos : ℕ} (hmmap : b.mmapSize = counter64 (2 ^ k))
    (hrecords : ∀ record ∈ unread, IsRecord littleEndian record)
    (hroom : unread.flatten.length ≤ 2 ^ k) (hwords : 8 ∣ pos) (htail : b.dataTail = counter64 pos)
    (hhead : b.dataHead = counter64 (pos + unread.flatten.length)) (hreader : b.reader = none)
    (hholds : HoldsAt k b.data pos unread.flatten) :
    Rel littleEndian k b ⟨0, unread, none, b.privateData⟩ where
  mmapSize := hmmap
  privateData := rfl
  records := hrecords
  room := (Nat.zero_add _).trans_le hroom
  reading := fun _ h => by cases h
  idle := fun _ => rfl
  lies := ⟨pos, pos, hwords, rfl, htail, hhead, hreader, hholds⟩

/-- A queue with a record in front, and the reader before it. -/
structure InFront (littleEndian : Bool) (k : ℕ) (b : PerfBuf P) (q : Queue P) (n pos : ℕ)
    (record : List UInt8) (rest : List (List UInt8)) : Prop where
  words : 8 ∣ pos
  words' : 8 ∣ pos + record.length
  isRecord : IsRecord littleEndian record
  others : ∀ r ∈ rest, IsRecord littleEndian r
  room : q.held + (record.length + rest.flatten.length) ≤ 2 ^ k
  reading : n ≤ rest.length
  dataHead : b.dataHead = counter64 (pos + record.length + rest.flatten.length)
  reader : b.reader = some ⟨counter64 (pos + (record.length + (rest.take n).flatten.length)),
    counter64 pos⟩
  front : HoldsAt k b.data pos record
  behind : HoldsAt k b.data (pos + record.length) rest.flatten

theorem Rel.inFront (h : Rel littleEndian k b q) {n : ℕ} (hreading : q.reading = some (n + 1)) :
    ∃ record rest tail pos, q.unread = record :: rest ∧ Lies k b q tail pos ∧
      InFront littleEndian k b q n pos record rest := by
  obtain ⟨tail, pos, hlies⟩ := h.lies
  have hn := h.reading _ hreading
  cases hunread : q.unread with
  | nil =>
    rw [hunread] at hn
    exact absurd hn (Nat.not_succ_le_zero n)
  | cons record rest =>
    have hrecords := h.records
    have hroom := h.room
    have hhead := hlies.dataHead
    have hreader := hlies.reader
    have hholds := hlies.holds
    rw [hunread] at hn hrecords hroom hhead hreader hholds
    rw [List.flatten_cons] at hroom hhead hholds
    rw [List.length_append] at hroom hhead
    rw [hreading, Option.map_some, List.take_succ_cons, List.flatten_cons, List.length_append]
      at hreader
    have hrecord := hrecords record List.mem_cons_self
    exact ⟨record, rest, tail, pos, rfl, hlies, hlies.words, Nat.dvd_add hlies.words hrecord.words,
      hrecord, fun r hr => hrecords r (List.mem_cons_of_mem record hr), hroom,
      Nat.le_of_succ_le_succ hn, by rw [hhead, Nat.add_assoc], hreader, hholds.left, hholds.right⟩

/-- **One round of the loop** with a record in front. -/
theorem next_inFront (hk : 3 ≤ k) (hk' : k < 64) (h : Rel littleEndian k b q) {n : ℕ}
    (hreading : q.reading = some (n + 1)) (malloc : Bool) :
    ∃ q', Spec fn q (.next malloc) (next littleEndian fn malloc b).1 q' ∧
      Rel littleEndian k (next littleEndian fn malloc b).2 q' := by
  obtain ⟨record, rest, tail, pos, hunread, hlies, hfront⟩ := h.inFront hreading
  have hpow : 2 ^ k < 2 ^ 64 := Nat.pow_lt_pow_right (by omega) hk'
  have hroom := hfront.room
  have hheader := hfront.isRecord.header
  obtain ⟨hsize, hehdr⟩ :=
    ehdr_eq hk hk' h.mmapSize hfront.words hfront.isRecord (by omega) hfront.front
  have hmore : counter64 (pos + (record.length + (rest.take n).flatten.length)) ≠ counter64 pos := by
    have htaken : (rest.take n).flatten.length ≤ rest.flatten.length :=
      (List.take_sublist n rest).flatten.length_le
    rw [Ne, counter64_add_eq_iff (by omega)]
    omega
  obtain ⟨held, unread, reading, privateData⟩ := q
  obtain rfl : unread = record :: rest := hunread
  obtain rfl : reading = some (n + 1) := hreading
  obtain rfl : b.privateData = privateData := h.privateData
  have hadvance : counter64 pos + .ofNat record.length = counter64 (pos + record.length) :=
    (counter64_add pos record.length).symm
  unfold next
  rw [hfront.reader]
  simp only [if_neg hmore, hsize, hehdr, hadvance]
  by_cases hfail : (b.wraps (counter64 pos) record.length && decide (b.copySize < record.length) &&
      !malloc) = true
  · -- without memory the record stays where it is
    rw [if_pos hfail]
    obtain rfl : malloc = false := by
      rw [Bool.and_eq_true, Bool.not_eq_true'] at hfail
      exact hfail.2
    refine ⟨_, .failed _ n rfl, rel_returned h.mmapSize h.records ?_ hfront.words rfl
      hlies.dataHead rfl hlies.holds⟩
    exact (Nat.le_add_left _ _).trans h.room
  · rw [if_neg hfail]
    by_cases hcont : (fn record b.privateData).1 = .cont
    · rw [if_pos hcont]
      refine ⟨_, .passed held n record rest b.privateData malloc hcont, h.mmapSize, rfl,
        hfront.others, ?_, ?_, ?_, tail, pos + record.length, hfront.words', ?_, hlies.dataTail,
        hfront.dataHead, ?_, hfront.behind⟩
      · show held + record.length + rest.flatten.length ≤ 2 ^ k
        rw [Nat.add_assoc]
        exact hfront.room
      · rintro m hm
        obtain rfl : n = m := Option.some.inj hm
        exact hfront.reading
      · intro hnone
        cases hnone
      · show pos + record.length = tail + (held + record.length)
        rw [hlies.held, Nat.add_assoc]
      · rw [← Nat.add_assoc]
        rfl
    · rw [if_neg hcont]
      refine ⟨_, .stopped held n record rest b.privateData malloc hcont, rel_returned h.mmapSize
        hfront.others ?_ hfront.words' rfl hfront.dataHead rfl hfront.behind⟩
      omega

/-- **Every action** is as promised, and leaves the buffer and the queue alike. -/
theorem step_spec (hk : 3 ≤ k) (hk' : k < 64) (h : Rel littleEndian k b q) (a : Action)
    (hcontract : Contract littleEndian k q a) :
    ∃ q', Spec fn q a (step littleEndian fn b a).1 q' ∧
      Rel littleEndian k (step littleEndian fn b a).2 q' := by
  obtain ⟨tail, pos, hlies⟩ := h.lies
  cases a with
  | put record => exact ⟨_, .put q record, rel_put hk' h hcontract.1 hcontract.2⟩
  | enter =>
    have hreader := hlies.reader
    rw [step, enter]
    cases hreading : q.reading with
    | none =>
      rw [hreading, Option.map_none] at hreader
      rw [hreader]
      have hpos : pos = tail := by rw [hlies.held, h.idle hreading, Nat.add_zero]
      refine ⟨_, .entered q hreading, h.mmapSize, h.privateData, h.records, h.room, ?_, ?_, tail, pos,
        hlies.words, hlies.held, hlies.dataTail, hlies.dataHead, ?_, hlies.holds⟩
      · rintro n hn
        obtain rfl := Option.some.inj hn
        exact Nat.le_refl _
      · intro hnone
        cases hnone
      · rw [Option.map_some, List.take_length, hlies.dataHead, hlies.dataTail, hpos]
    | some n =>
      rw [hreading, Option.map_some] at hreader
      rw [hreader]
      exact ⟨q, .present q n hreading, h⟩
  | next malloc =>
    rw [step]
    cases hreading : q.reading with
    | none =>
      have hreader := hlies.reader
      rw [hreading, Option.map_none] at hreader
      rw [next, hreader]
      exact ⟨q, .absent q malloc hreading, h⟩
    | some n =>
      cases n with
      | zero =>
        have hreader := hlies.reader
        rw [hreading, Option.map_some, List.take_zero, List.flatten_nil, List.length_nil,
          Nat.add_zero] at hreader
        unfold next
        rw [hreader]
        simp only [if_true]
        refine ⟨_, .returned q malloc hreading, ?_⟩
        rw [← h.privateData]
        exact rel_returned h.mmapSize h.records ((Nat.le_add_left _ _).trans h.room) hlies.words rfl
          hlies.dataHead rfl hlies.holds
      | succ n => exact next_inFront hk hk' h hreading malloc

/-- **Between the two counters** are the records that `fn` has got since the reader came and those it
has not got. -/
theorem Rel.head_sub_tail (h : Rel littleEndian k b q) (hk : k < 64) :
    (b.dataHead - b.dataTail).toNat = q.held + q.unread.flatten.length := by
  obtain ⟨tail, pos, hlies⟩ := h.lies
  have hpow : 2 ^ k < 2 ^ 64 := Nat.pow_lt_pow_right (by omega) hk
  have hroom := h.room
  rw [hlies.dataHead, hlies.dataTail, hlies.held, Nat.add_assoc]
  exact toNat_sub64 (by omega)

/-- The room by the counters is the room in the queue. -/
theorem contract_of_kept (h : Rel littleEndian k b q) (hk : k < 64) {a : Action} {answer : Answer}
    {b' : PerfBuf P} (hkept : Kept littleEndian fn b a answer b') : Contract littleEndian k q a := by
  cases a with
  | put record =>
    obtain ⟨hrecord, hroom⟩ := hkept.2 record rfl
    rw [h.head_sub_tail hk, toNat_mmapSize hk h.mmapSize] at hroom
    exact ⟨hrecord, hroom⟩
  | enter => trivial
  | next malloc => trivial

/-- **The reader and the kernel together** are a queue: whatever order they take their steps in, and
wherever the counters stand at the beginning, the answers are those of a queue of records, as long as
the kernel puts records and keeps to the room there is.  That is the room by its counters, which have
every record between them that `fn` has not got. -/
theorem perf_buffer_refines (littleEndian : Bool) (fn : List UInt8 → P → Ret × P) {k : ℕ}
    (hk : 3 ≤ k) (hk' : k < 64) {start : ℕ} (hstart : 8 ∣ start) (data : ℕ → UInt8) (privateData : P)
    (as : List Action) :
    Follows (Contract littleEndian k) (Spec fn) ⟨0, [], none, privateData⟩ as
        (replies (step littleEndian fn) (opened k start data privateData) as) ∧
      ∀ (answers : List Answer) (b : PerfBuf P),
        Trace (Kept littleEndian fn) (opened k start data privateData) as answers b →
        ∃ q, Trace (Spec fn) ⟨0, [], none, privateData⟩ as answers q ∧
          (b.dataHead - b.dataTail).toNat = q.held + q.unread.flatten.length := by
  have hopened : Rel littleEndian k (opened k start data privateData) ⟨0, [], none, privateData⟩ :=
    rel_opened k hstart data privateData
  refine ⟨follows_of_simulation (R := Rel littleEndian k)
    (fun _ _ a h hcontract => step_spec hk hk' h a hcontract) hopened as, fun answers b htrace => ?_⟩
  have hstep (b : PerfBuf P) (q : Queue P) (a : Action) (answer : Answer) (b' : PerfBuf P)
      (h : Rel littleEndian k b q) (hkept : Kept littleEndian fn b a answer b') :
      ∃ q', Spec fn q a answer q' ∧ Rel littleEndian k b' q' := by
    have hspec : ∃ q', Spec fn q a (step littleEndian fn b a).1 q' ∧
        Rel littleEndian k (step littleEndian fn b a).2 q' :=
      step_spec hk hk' h a (contract_of_kept h hk' hkept)
    rwa [← hkept.1] at hspec
  rcases htrace.refines hstep hopened with ⟨q, hq, hR⟩
  exact ⟨q, hq, hR.head_sub_tail hk'⟩

/-- A record of one word behind its header. -/
def oneWord (b : UInt8) : List UInt8 := [9, 0, 0, 0, 0, 0, 16, 0] ++ List.replicate 8 b

theorem oneWord_isRecord (b : UInt8) : IsRecord true (oneWord b) :=
  ⟨⟨2, rfl⟩, Nat.le_add_right 8 8, rfl⟩

/-- There is room for one record, and the second one waits until the reader has returned. -/
theorem perf_buffer_refines_wrapping : ∃ answers b q,
    Trace (Kept true fun record seen => (.cont, record :: seen)) (opened 4 (2 ^ 64 - 8) (fun _ => 0) [])
        [.put (oneWord 1), .enter, .next true, .next true, .put (oneWord 2)] answers b ∧
      Trace (Spec fun record seen => (.cont, record :: seen)) ⟨0, [], none, []⟩
        [.put (oneWord 1), .enter, .next true, .next true, .put (oneWord 2)] answers q ∧
      (b.dataHead - b.dataTail).toNat = q.held + q.unread.flatten.length := by
  have hrun : ∃ answers b, Trace (Kept true fun record seen => (.cont, record :: seen))
      (opened 4 (2 ^ 64 - 8) (fun _ => 0) [])
      [.put (oneWord 1), .enter, .next true, .next true, .put (oneWord 2)] answers b := by
    refine ⟨_, _, .cons ⟨rfl, ?_⟩ (.cons ⟨rfl, ?_⟩ (.cons ⟨rfl, ?_⟩ (.cons ⟨rfl, ?_⟩
      (.cons ⟨rfl, ?_⟩ (.nil _)))))⟩
    · rintro _ ⟨⟩
      exact ⟨oneWord_isRecord 1, by decide⟩
    · exact fun _ h => by cases h
    · exact fun _ h => by cases h
    · exact fun _ h => by cases h
    · rintro _ ⟨⟩
      exact ⟨oneWord_isRecord 2, by decide⟩
  rcases hrun with ⟨answers, b, hrun⟩
  rcases (perf_buffer_refines true _ (by omega) (by omega) (by omega) _ _ _).2 answers b hrun with
    ⟨q, hq, htail⟩
  exact ⟨answers, b, q, hrun, hq, htail⟩

end Accumulation.Libbpf.Perf
