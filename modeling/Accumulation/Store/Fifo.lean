/-
# Accumulation.Store.Fifo — whole runs of a store file against a plain queue.

A `Session` drives a `FileStore` and, next to it, the queue the store is meant to be, with the same
calls.  It is `InStep` when the store has answered every call as the queue did and its file holds
exactly the queue's records.

`Load` seeks before it reads and leaves the cursor wherever its 4096-byte read-ahead stopped.
`Store` does not seek.  So a session stays in step exactly as long as every `Store` that writes
anything finds the cursor at the end of the file (`inStep_iff_storesAtEnd`);
`overrun_not_inStep` is a run in which one does not.
-/
import Accumulation.Lib.Run
import Accumulation.Store.RecordLog

namespace Accumulation.Store

open Accumulation.Go Accumulation.Lib.Run Serialization

/-- A call on a `FileStore`. -/
inductive Call (α : Type*)
  | store (reqs : List α)
  | load (rows : Int)
  | truncate (before after : List α)

/-- What a call returns; only `Load` returns requests. -/
structure Reply (α : Type*) where
  reqs : List α
  err : Option Err
  deriving DecidableEq

variable {α : Type*} [Serialization α]

/-- The store's answer to a call; `none` is a panic. -/
def FileStore.call (fs : FileStore) : Call α → Option (Reply α × FileStore)
  | .store reqs => match fs.doWrite reqs with
    | (err, fs) => some (⟨[], err⟩, fs)
  | .load rows => (fs.load rows).map fun ((reqs, err), fs) => (⟨reqs, err⟩, fs)
  | .truncate before after => (fs.truncate before after).map fun (err, fs) => (⟨[], err⟩, fs)

omit [Serialization α] in
/-- A plain queue's answer to a call. -/
def queueCall (pending : List α) : Call α → Reply α × List α
  | .store reqs => (⟨[], none⟩, pending ++ reqs)
  | .load rows => (⟨pending.take rows.toNat, none⟩, pending.drop rows.toNat)
  | .truncate before after => (⟨[], none⟩, before ++ pending ++ after)

/-- A store and the queue it is compared with, and what the two have answered so far. -/
structure Session (α : Type*) where
  fs : FileStore
  pending : List α
  replies : List (Reply α)
  expected : List (Reply α)

/-- A store opened on an empty file, next to an empty queue. -/
def Session.opened : Session α := ⟨openStore [], [], [], []⟩

/-- Serve one call on both sides. -/
def Session.serve (s : Session α) (c : Call α) : Option (Session α) :=
  (s.fs.call c).map fun (reply, fs) =>
    ⟨fs, (queueCall s.pending c).2, s.replies ++ [reply],
      s.expected ++ [(queueCall s.pending c).1]⟩

/-- The store has answered as the queue did, and its file holds the queue's records. -/
def Session.InStep (s : Session α) : Prop :=
  s.replies = s.expected ∧ ∃ log : RecordLog α, s.fs.Holds log ∧ log.pending = s.pending

/-- A `Store` that writes anything finds the cursor at the end of the file. -/
def StoresAtEnd (s : Session α) : Call α → Prop
  | .store reqs => reqs = [] ∨ s.fs.store.pos = s.fs.store.data.length
  | _ => True

theorem opened_inStep : (Session.opened : Session α).InStep :=
  ⟨rfl, RecordLog.ofDisk [], FileStore.openStore_holds [], rfl⟩

/-- A call on a store whose file holds a log is answered as by the queue of its pending records. -/
theorem call_holds {lo : Nat} (hl : Lossless α lo 255) {s : Session α} {log : RecordLog α}
    (h : s.fs.Holds log) (c : Call α) (hend : StoresAtEnd s c) :
    ∃ fs log', s.fs.call c = some ((queueCall log.pending c).1, fs) ∧ fs.Holds log' ∧
      log'.pending = (queueCall log.pending c).2 := by
  cases c with
  | store reqs =>
    obtain ⟨fs, hwrite, hfs⟩ := FileStore.holds_doWrite h reqs hend
    exact ⟨fs, log.store reqs, by simp only [FileStore.call, hwrite, queueCall], hfs,
      log.pending_store reqs⟩
  | load rows =>
    obtain ⟨fs, hload, hfs⟩ := FileStore.holds_load hl h rows
    exact ⟨fs, (log.load rows.toNat).2, by simp only [FileStore.call, hload, Option.map_some]; rfl,
      hfs, log.pending_load rows.toNat⟩
  | truncate before after =>
    obtain ⟨fs, htruncate, hfs⟩ := FileStore.holds_truncate h before after
    exact ⟨fs, log.truncate before after,
      by simp only [FileStore.call, htruncate, Option.map_some, queueCall], hfs,
      log.pending_truncate before after⟩

/-- **One step.**  A session in step takes every call, and stays in step if a `Store` finds the
cursor at the end of the file. -/
theorem serve_inStep {lo : Nat} (hl : Lossless α lo 255) {s : Session α} (h : s.InStep)
    (c : Call α) (hend : StoresAtEnd s c) : ∃ s', s.serve c = some s' ∧ s'.InStep := by
  obtain ⟨hreplies, log, hfs, hpending⟩ := h
  obtain ⟨fs, log', hcall, hfs', hpending'⟩ := call_holds hl hfs c hend
  rw [hpending] at hcall hpending'
  refine ⟨_, by rw [Session.serve, hcall]; rfl, ?_, log', hfs', hpending'⟩
  simp only [hreplies]

/-- Two files that hold the same number of pending bytes behind the same offset have the same
length. -/
theorem length_of_holds {fs : FileStore} {log : RecordLog α} (h : fs.Holds log) :
    fs.store.data.length = fs.offset + (FileStore.bytesOf log.pending).length := by
  obtain ⟨hoff, hunread⟩ := h.unread
  have hlen := congrArg List.length hunread
  rw [List.length_drop] at hlen
  omega

/-- A request takes at least the two bytes of its header. -/
theorem length_bytesOf_pos {reqs : List α} (h : reqs ≠ []) :
    0 < (FileStore.bytesOf reqs).length := by
  cases reqs with
  | nil => exact absurd rfl h
  | cons a reqs =>
    rw [FileStore.bytesOf_cons, List.length_append, Record.length_bytes, Record.dataLen]
    omega

/-- **A `Store` inside the file breaks the queue**: written before the end, the records cannot all
have been added to what was pending. -/
theorem storesAtEnd_of_inStep {s s' : Session α} {c : Call α} (h : s.InStep)
    (hserve : s.serve c = some s') (h' : s'.InStep) : StoresAtEnd s c := by
  cases c with
  | load rows => trivial
  | truncate before after => trivial
  | store reqs =>
    by_contra hcon
    simp only [StoresAtEnd, not_or] at hcon
    obtain ⟨hne, hpos⟩ := hcon
    obtain ⟨-, log, hfs, hpending⟩ := h
    obtain ⟨-, log', hfs', hpending'⟩ := h'
    have hlen := length_of_holds hfs
    have hlen' := length_of_holds hfs'
    have hcursor := hfs.cursor
    obtain ⟨⟨⟨bytes, pos, fates⟩, offset⟩, pending, replies, expected⟩ := s
    obtain rfl : fates = [] := hfs.healthy
    simp only at hpos hpending hlen hcursor
    simp only [Session.serve, FileStore.call, FileStore.doWrite_healthy _ _ _ hcursor,
      Option.map_some, Option.some.injEq] at hserve
    subst hserve
    simp only [queueCall] at hpending'
    simp only [hpending', ← hpending, FileStore.bytesOf_append, List.length_append,
      length_overwrite _ _ _ hcursor] at hlen'
    have := length_bytesOf_pos hne
    omega

/-- **Whole runs.**  On a file that starts out empty every call is possible and the store answers
as a queue in every state of the run, if and only if every `Store` of the run that writes anything
finds the cursor at the end of the file. -/
theorem inStep_iff_storesAtEnd (hl : Lossless α 1 255) (calls : List (Call α)) :
    Along Session.serve StoresAtEnd Session.opened calls ↔
      (∃ s, exec Session.serve Session.opened calls = some s) ∧
        Always Session.serve Session.InStep Session.opened calls := by
  constructor
  · intro h
    exact run_of_along (fun s c hs hc => serve_inStep hl hs c hc) opened_inStep h
  · rintro ⟨⟨s, hs⟩, h⟩
    exact along_of_always (fun s c s' => storesAtEnd_of_inStep) hs h

/-! ## A run that leaves the queue -/

/-- Requests of which each takes 255 bytes, all equal to its mark. -/
structure Wide where
  mark : Bool
  deriving DecidableEq

def Wide.payload (w : Wide) : List UInt8 := List.replicate 255 (if w.mark then 1 else 0)

instance : Serialization Wide where
  encode w := (w.payload, none)
  decode bytes :=
    if bytes = Wide.payload ⟨true⟩ then .ok ⟨true⟩
    else if bytes = Wide.payload ⟨false⟩ then .ok ⟨false⟩
    else .error .codec

theorem wide_lossless : Lossless Wide 1 255 where
  decode_encode := by rintro ⟨_ | _⟩ <;> decide +kernel
  no_error _ := rfl
  lo_le w := by change 1 ≤ w.payload.length; rw [Wide.payload, List.length_replicate]; decide
  le_hi w := by change w.payload.length ≤ 255; rw [Wide.payload, List.length_replicate]

theorem inStep_iff_storesAtEnd_wide :
    Along Session.serve StoresAtEnd Session.opened [Call.store [Wide.mk true], .load 1] ↔
      (∃ s, exec Session.serve Session.opened [Call.store [Wide.mk true], .load 1] = some s) ∧
        Always Session.serve Session.InStep Session.opened
          [Call.store [Wide.mk true], .load 1] :=
  inStep_iff_storesAtEnd wide_lossless [.store [⟨true⟩], .load 1]

/-- Seventeen requests take 4369 bytes, so a `Load` of one of them leaves the cursor at 4096 and the
next `Store` writes into the middle of the sixteenth.  Sixteen requests are pending before it, and
of the seventeen that should come back only fourteen do. -/
def overrun : List (Call Wide) :=
  [.store (List.replicate 17 ⟨false⟩), .load 1, .store [⟨true⟩], .load 17]

theorem overrun_not_inStep :
    (exec Session.serve Session.opened overrun).map
        (fun s => (s.replies.map Reply.reqs, s.expected.map Reply.reqs)) =
      some ([[], [⟨false⟩], [], List.replicate 14 ⟨false⟩],
        [[], [⟨false⟩], [], List.replicate 16 ⟨false⟩ ++ [⟨true⟩]]) := by
  decide +kernel

end Accumulation.Store
