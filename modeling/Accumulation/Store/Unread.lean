/-
# Accumulation.Store.Unread — the unread part of a store file, in the format that `read` takes.

`RecordLog` is about files that the store itself has written.  Here the file may hold anything, as
long as what lies behind the offset is a row of records as `read` takes them: both bytes of the
header count, and a payload may have up to 32767 bytes.  `FileStore.Unread` says so, and by
`loads_unread` all later `Load`s then return these records, in order and each once.
-/
import Accumulation.Lib.Refinement
import Accumulation.Store.AnyContent

namespace Accumulation.Store

open Accumulation.Go Accumulation.Lib.Refinement Serialization

/-! ## The format -/

/-- The bytes from which `read` takes a payload. -/
def frame (payload : List UInt8) : List UInt8 :=
  UInt8.ofNat payload.length :: UInt8.ofNat (payload.length / 256) :: payload

def frames (payloads : List (List UInt8)) : List UInt8 := payloads.flatMap frame

/-- A length that the header can give as a positive `int16`. -/
def Framed (payloads : List (List UInt8)) : Prop := ∀ p ∈ payloads, p.length < 2 ^ 15

@[simp]
theorem frames_nil : frames [] = [] := rfl

theorem frames_cons (payload : List UInt8) (payloads : List (List UInt8)) :
    frames (payload :: payloads) = frame payload ++ frames payloads := rfl

@[simp]
theorem frames_append (xs ys : List (List UInt8)) : frames (xs ++ ys) = frames xs ++ frames ys :=
  List.flatMap_append

theorem length_frame (payload : List UInt8) : (frame payload).length = payload.length + 2 := rfl

theorem uint16_frame {n : Nat} (h : n < 2 ^ 15) :
    uint16 [UInt8.ofNat n, UInt8.ofNat (n / 256)] = n := by
  simp only [uint16, List.getD_cons_zero, List.getD_cons_succ, UInt8.toNat_ofNat']
  omega

/-- **`read` takes one record off.** -/
theorem read_frame {r : Reader} {data : List UInt8} (hon : r.On data) {payload tail : List UInt8}
    (hframed : payload.length < 2 ^ 15) (hrest : r.rest = frame payload ++ tail) :
    ∃ r', read r = some (.ok (some ⟨payload.length, payload⟩), r') ∧ r'.rest = tail ∧
      r'.On data := by
  obtain ⟨r₁, hhead, hrest₁, hon₁⟩ := readFixedLength_ok hon 2 (by
    rw [hrest, List.length_append, length_frame]
    omega)
  rw [hrest, frame, List.cons_append, List.cons_append] at hhead hrest₁
  simp only [List.take_succ_cons, List.take_zero, List.drop_succ_cons, List.drop_zero]
    at hhead hrest₁
  have hlen : int16 (uint16 [UInt8.ofNat payload.length, UInt8.ofNat (payload.length / 256)]) =
      (payload.length : Int) := by
    rw [uint16_frame hframed, int16_of_lt hframed]
  obtain ⟨r₂, hdata, hrest₂, hon₂⟩ := readFixedLength_ok hon₁ payload.length (by
    rw [hrest₁, List.length_append]
    omega)
  rw [hrest₁, List.take_left' rfl, ← hlen] at hdata
  refine ⟨r₂, ?_, by rw [hrest₂, hrest₁, List.drop_left' rfl], hon₂⟩
  rw [read, show (2 : Int) = ((2 : Nat) : Int) from rfl, hhead, onField_ok, hdata, onField_ok, hlen]

/-- What the store writes for a payload is such a record if and only if one byte can hold the
length. -/
theorem bytes_eq_frame_iff {payload : List UInt8} (hframed : payload.length < 2 ^ 15) :
    (newRecord payload).bytes = frame payload ↔ payload.length ≤ 255 := by
  have hlow : UInt8.ofInt (newRecord payload).dLen = UInt8.ofNat payload.length := by
    rw [← UInt8.toNat_inj, newRecord_head, UInt8.toNat_ofNat']
  have hbytes : (newRecord payload).bytes = UInt8.ofNat payload.length :: 0 :: payload := by
    rw [← hlow]
    rfl
  rw [hbytes, frame]
  simp only [List.cons.injEq, true_and, and_true]
  rw [← UInt8.toNat_inj, UInt8.toNat_ofNat', UInt8.toNat_zero]
  omega

variable {α : Type*} [Serialization α]

/-- The payloads of requests, whatever `Encode` says besides. -/
def payloadsOf (reqs : List α) : List (List UInt8) := reqs.map fun req => (encode req).1

theorem payloadsOf_append (xs ys : List α) :
    payloadsOf (xs ++ ys) = payloadsOf xs ++ payloadsOf ys := List.map_append

/-- The records of the first requests and those of the others. -/
theorem frames_take_append_drop (reqs : List α) (rows : Nat) :
    frames (payloadsOf (reqs.take rows)) ++ frames (payloadsOf (reqs.drop rows)) =
      frames (payloadsOf reqs) := by
  rw [← frames_append, ← payloadsOf_append, List.take_append_drop]

theorem bytesOf_eq (reqs : List α) : FileStore.bytesOf reqs = logBytes (payloadsOf reqs) := rfl

/-- The bytes of a log have the length of its records. -/
theorem length_logBytes (payloads : List (List UInt8)) :
    (logBytes payloads).length = (frames payloads).length := by
  induction payloads with
  | nil => rw [logBytes_nil, frames_nil]
  | cons p payloads ih =>
    rw [logBytes_cons, frames_cons, List.length_append, List.length_append, ih, length_frame,
      Record.length_bytes]
    rfl

/-- A log is a row of records if and only if each of its payloads fits the byte of its header. -/
theorem logBytes_eq_frames_iff {payloads : List (List UInt8)} (hframed : Framed payloads) :
    logBytes payloads = frames payloads ↔ ∀ p ∈ payloads, p.length ≤ 255 := by
  induction payloads with
  | nil => exact iff_of_true (by rw [logBytes_nil, frames_nil]) nofun
  | cons p payloads ih =>
    have hp := bytes_eq_frame_iff (hframed p List.mem_cons_self)
    have hrest := ih fun q hq => hframed q (List.mem_cons_of_mem _ hq)
    rw [logBytes_cons, frames_cons, List.forall_mem_cons, ← hp, ← hrest]
    constructor
    · intro h
      exact List.append_inj h (Record.length_bytes _)
    · rintro ⟨hhead, htail⟩
      rw [hhead, htail]

/-- `Decode` undoes `Encode`, where that succeeds. -/
structure Codec (α : Type*) [Serialization α] : Prop where
  decode_encode : ∀ a : α, (encode a).2 = none → decode (encode a).1 = .ok a

theorem Lossless.codec {lo hi : Nat} (h : Lossless α lo hi) : Codec α where
  decode_encode a _ := h.decode_encode a

/-- Requests that `Encode` takes. -/
def Encodes (reqs : List α) : Prop := ∀ req ∈ reqs, (encode req).2 = none

namespace FileStore

/-- Behind the offset there are exactly the records of these payloads. -/
structure Unread (fs : FileStore) (payloads : List (List UInt8)) : Prop where
  inside : fs.Inside
  framed : Framed payloads
  bytes : fs.store.data.drop fs.offset = frames payloads

/-- The unread bytes have the length of the records. -/
theorem Unread.length {fs : FileStore} {payloads : List (List UInt8)} (h : fs.Unread payloads) :
    fs.store.data.length = fs.offset + (frames payloads).length := by
  have hlength := congrArg List.length h.bytes
  have hinside : fs.offset ≤ fs.store.data.length := h.inside
  rw [List.length_drop] at hlength
  omega

/-- **The loop of `load`** on a row of records. -/
theorem loadLoop_frames (hcodec : Codec α) {data : List UInt8} (rows : Nat) {pending : List α}
    (hencodes : Encodes pending) (hframed : Framed (payloadsOf pending)) {r : Reader}
    (hon : r.On data) (hrest : r.rest = frames (payloadsOf pending)) :
    ∃ r', loadLoop rows r = some (pending.take rows,
      (frames (payloadsOf (pending.take rows))).length, false, r') ∧ r'.On data := by
  induction rows generalizing pending r with
  | zero =>
    cases pending with
    | nil => exact ⟨r, by simp [loadLoop, read_nil hon hrest, payloadsOf], hon⟩
    | cons req pending =>
      obtain ⟨r', hread, -, hon'⟩ := read_frame hon (hframed _ List.mem_cons_self) hrest
      exact ⟨r', by simp [loadLoop, hread, payloadsOf], hon'⟩
  | succ rows ih =>
    cases pending with
    | nil => exact ⟨r, by simp [loadLoop, read_nil hon hrest, payloadsOf], hon⟩
    | cons req pending =>
      obtain ⟨r₁, hread, hrest₁, hon₁⟩ := read_frame hon (hframed _ List.mem_cons_self) hrest
      obtain ⟨r', hloop, hon'⟩ := ih (fun q hq => hencodes q (List.mem_cons_of_mem _ hq))
        (fun p hp => hframed p (List.mem_cons_of_mem _ hp)) hon₁ hrest₁
      refine ⟨r', ?_, hon'⟩
      have hdecode := hcodec.decode_encode req (hencodes req List.mem_cons_self)
      rw [loadLoop, hread]
      have hlength : (frames (payloadsOf (req :: pending.take rows))).length =
          (encode req).1.length + 2 + (frames (payloadsOf (pending.take rows))).length := by
        show (frame (encode req).1 ++ frames (payloadsOf (pending.take rows))).length = _
        rw [List.length_append, length_frame]
      simp only [hdecode, hloop, Option.map_some, List.take_succ_cons, hlength]
      rfl

/-- **`Load` on a row of records** returns the next of them, and leaves the others unread, whether or
not it drops what lies before the offset. -/
theorem load_unread (hcodec : Codec α) {fs : FileStore} (hhealthy : fs.Healthy) {pending : List α}
    (hencodes : Encodes pending) (h : fs.Unread (payloadsOf pending)) (rows : Int) :
    ∃ fs', load fs rows = some ((pending.take rows.toNat, none), fs') ∧ fs'.Healthy ∧
      fs'.Unread (payloadsOf (pending.drop rows.toNat)) := by
  obtain ⟨⟨data, pos, fates⟩, offset⟩ := fs
  obtain ⟨rfl, -⟩ := hhealthy
  have hoff : offset ≤ data.length := h.inside
  have hdrop : data.drop offset = frames (payloadsOf pending) := h.bytes
  have hframed : Framed (payloadsOf (pending.drop rows.toNat)) := by
    intro p hp
    exact h.framed p (((List.drop_sublist _ _).map _).subset hp)
  obtain ⟨⟨⟨bytes, pos', fates'⟩, buf⟩, hloop, hbytes, hfates, hpos'⟩ := loadLoop_frames hcodec
    rows.toNat hencodes h.framed (Reader.new_on data offset hoff)
    ((Reader.new_rest data offset).trans hdrop)
  simp only at hbytes hfates hpos'
  subst hbytes hfates
  -- where the offset is moved to
  have hsplit := frames_take_append_drop pending rows.toNat
  have hlength := h.length
  simp only at hlength
  have hmoved : offset + (frames (payloadsOf (pending.take rows.toNat))).length ≤ bytes.length := by
    rw [hlength, ← hsplit, List.length_append]
    omega
  have hrest : bytes.drop (offset + (frames (payloadsOf (pending.take rows.toNat))).length) =
      frames (payloadsOf (pending.drop rows.toNat)) := by
    rw [← List.drop_drop, hdrop, ← hsplit]
    exact List.drop_left' rfl
  unfold load
  simp only [File.seek_healthy, hloop, Bool.false_eq_true, if_false]
  split
  · rw [truncate_healthy _ _ _ hmoved]
    simp only [bytesOf_nil, List.nil_append, List.append_nil, Option.map_some, hrest]
    exact ⟨_, rfl, ⟨rfl, le_rfl⟩, Nat.zero_le _, hframed, rfl⟩
  · exact ⟨_, rfl, ⟨rfl, hpos'⟩, hmoved, hframed, hrest⟩

/-- The answer of a queue to a `Load`. -/
def take (pending : List α) (rows : Int) : Option ((List α × Option Err) × List α) :=
  some ((pending.take rows.toNat, none), pending.drop rows.toNat)

/-- Later `Load`s return exactly these requests, in order and each once: behind the offset there are
their records, and on a file whose operations succeed every row of `Load`s is answered as by the
queue of them. -/
structure Returns (fs : FileStore) (pending : List α) : Prop where
  unread : fs.Unread (payloadsOf pending)
  loads : fs.Healthy → ∀ calls : List Int, ∃ replies fs' rest,
    answers (load (α := α)) fs calls = some (replies, fs') ∧
      answers take pending calls = some (replies, rest) ∧ fs'.Unread (payloadsOf rest)

/-- **The records behind the offset are what later `Load`s return.** -/
theorem returns_iff (hcodec : Codec α) {fs : FileStore} {pending : List α}
    (hencodes : Encodes pending) : fs.Returns pending ↔ fs.Unread (payloadsOf pending) := by
  refine ⟨fun h => h.unread, fun h => ⟨h, fun hhealthy calls => ?_⟩⟩
  let R : FileStore → List α → Prop := fun fs pending =>
    fs.Healthy ∧ Encodes pending ∧ fs.Unread (payloadsOf pending)
  have hstep : ∀ (fs : FileStore) (pending : List α) (rows : Int), R fs pending →
      ∃ r fs' rest, load (α := α) fs rows = some (r, fs') ∧ take pending rows = some (r, rest) ∧
        R fs' rest := by
    rintro fs pending rows ⟨hhealthy, hencodes, hunread⟩
    obtain ⟨fs', hload, hhealthy', hunread'⟩ := load_unread hcodec hhealthy hencodes hunread rows
    exact ⟨_, fs', pending.drop rows.toNat, hload, rfl, hhealthy',
      fun q hq => hencodes q (List.mem_of_mem_drop hq), hunread'⟩
  obtain ⟨replies, fs', rest, hloads, htakes, -, -, hunread⟩ :=
    answers_of_simulation hstep ⟨hhealthy, hencodes, h⟩ calls
  exact ⟨replies, fs', rest, hloads, htakes, hunread⟩

end FileStore

end Accumulation.Store
