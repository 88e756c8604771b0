/-
# Accumulation.Store.EncodeErrors — a batch of which some request cannot be encoded.

`doWrite` looks at the error of `Encode` and drops it: it writes whatever data came with the error
as a record and goes on.  `storesOrReports_iff` says when `Store` does what its callers take it to
do.  They drop a batch for which it has returned nil.
-/
import Accumulation.Store.Unread

namespace Accumulation.Store

open Accumulation.Go Serialization

variable {α : Type*} [Serialization α]

/-- `Store` of a batch on a file with these requests unread: if some request cannot be encoded it
returns an error and stores nothing, and otherwise it stores the whole batch behind them. -/
def StoresOrReports (fs : FileStore) (pending reqs : List α) : Prop :=
  ((∃ req ∈ reqs, (encode req).2 ≠ none) →
    (fs.doWrite reqs).1 ≠ none ∧ (fs.doWrite reqs).2.Returns pending) ∧
  (Encodes reqs → (fs.doWrite reqs).1 = none ∧ (fs.doWrite reqs).2.Returns (pending ++ reqs))

variable {fs : FileStore} {pending reqs : List α}

/-- `Store` on a file whose writes succeed never returns an error. -/
theorem doWrite_fst (hh : fs.Healthy) (reqs : List α) : (fs.doWrite reqs).1 = none := by
  obtain ⟨⟨data, pos, fates⟩, offset⟩ := fs
  obtain ⟨rfl, hpos⟩ := hh
  rw [FileStore.doWrite_healthy data pos offset hpos]

/-- What is unread after `Store` are the records before and those of the batch exactly when it has
appended to the file, and each length fits the byte of its header. -/
theorem doWrite_unread_iff (hh : fs.Healthy) (h : fs.Unread (payloadsOf pending)) :
    (fs.doWrite reqs).2.Unread (payloadsOf (pending ++ reqs)) ↔
      (reqs = [] ∨ fs.store.pos = fs.store.data.length) ∧
        ∀ req ∈ reqs, (encode req).1.length ≤ 255 := by
  have hlength := h.length
  have hinside : fs.offset ≤ fs.store.data.length := h.inside
  have hdrop := h.bytes
  have hpending := h.framed
  obtain ⟨⟨data, pos, fates⟩, offset⟩ := fs
  obtain ⟨rfl, hpos⟩ := hh
  simp only at hlength hinside hdrop hpos ⊢
  have hsmall : (∀ req ∈ reqs, (encode req).1.length ≤ 255) ↔
      ∀ p ∈ payloadsOf reqs, p.length ≤ 255 := by
    rw [payloadsOf, List.forall_mem_map]
  rw [FileStore.doWrite_healthy data pos offset hpos, payloadsOf_append, bytesOf_eq, hsmall]
  have hwritten := length_logBytes (payloadsOf reqs)
  have hoverwrite := length_overwrite data (logBytes (payloadsOf reqs)) pos hpos
  constructor
  · intro h'
    have hlength' := h'.length
    have hbytes' := h'.bytes
    simp only [frames_append, List.length_append] at hlength' hbytes'
    -- the file has grown by the whole batch
    have hend : reqs = [] ∨ pos = data.length := by
      rcases eq_or_ne reqs [] with hnil | hne
      · exact .inl hnil
      · have hlong := length_bytesOf_pos hne
        rw [bytesOf_eq] at hlong
        exact .inr (by omega)
    refine ⟨hend, ?_⟩
    rcases hend with rfl | rfl
    · exact fun _ hmem => absurd hmem List.not_mem_nil
    · rw [overwrite_end, List.drop_append_of_le_length hinside, hdrop] at hbytes'
      exact (logBytes_eq_frames_iff fun p hp =>
        h'.framed p (List.mem_append_right _ hp)).mp (List.append_cancel_left hbytes')
  · rintro ⟨hend, hfits⟩
    have hframed : Framed (payloadsOf reqs) := by
      intro p hp
      have := hfits p hp
      omega
    have hbytes := (logBytes_eq_frames_iff hframed).mpr hfits
    have hdata : overwrite data pos (logBytes (payloadsOf reqs)) =
        data ++ frames (payloadsOf reqs) := by
      rcases hend with rfl | rfl
      · exact (List.append_nil data).symm
      · rw [overwrite_end, hbytes]
    rw [hdata]
    refine ⟨?_, ?_, ?_⟩
    · show offset ≤ (data ++ frames (payloadsOf reqs)).length
      rw [List.length_append]
      omega
    · intro p hp
      exact (List.mem_append.mp hp).elim (hpending p) (hframed p)
    · show (data ++ frames (payloadsOf reqs)).drop offset = _
      rw [List.drop_append_of_le_length hinside, hdrop, frames_append]

/-- **`Store` and errors of `Encode`.**  On a file with any records unread and any cursor, whose
writes succeed: `Store` reports what it could not encode and otherwise stores the batch if and only
if every request can be encoded, the cursor stands at the end of the file unless there is nothing to
write, and no payload is longer than 255 bytes. -/
theorem storesOrReports_iff (hcodec : Codec α) (hh : fs.Healthy) (hencodes : Encodes pending)
    (h : fs.Unread (payloadsOf pending)) (reqs : List α) : StoresOrReports fs pending reqs ↔
      Encodes reqs ∧ (reqs = [] ∨ fs.store.pos = fs.store.data.length) ∧
        ∀ req ∈ reqs, (encode req).1.length ≤ 255 := by
  by_cases hreqs : Encodes reqs
  · have hall : Encodes (pending ++ reqs) := fun req hreq =>
      (List.mem_append.mp hreq).elim (hencodes req) (hreqs req)
    have hreturns : (fs.doWrite reqs).2.Returns (pending ++ reqs) ↔ _ :=
      (FileStore.returns_iff hcodec hall).trans (doWrite_unread_iff hh h)
    rw [← hreturns]
    constructor
    · rintro ⟨-, hstores⟩
      exact ⟨hreqs, (hstores hreqs).2⟩
    · rintro ⟨-, hall⟩
      refine ⟨?_, fun _ => ⟨doWrite_fst hh reqs, hall⟩⟩
      rintro ⟨req, hreq, hfails⟩
      exact absurd (hreqs req hreq) hfails
  · -- the error of `Encode` is nowhere to be seen
    refine iff_of_false ?_ fun hC => hreqs hC.1
    rintro ⟨hreports, -⟩
    have hfails : ∃ req ∈ reqs, (encode req).2 ≠ none := by
      by_contra hcon
      apply hreqs
      intro req hreq
      by_contra hne
      exact hcon ⟨req, hreq, hne⟩
    exact (hreports hfails).1 (doWrite_fst hh reqs)

/-! ## A request that cannot be encoded -/

/-- Requests of which one cannot be encoded. -/
inductive Draft
  | byte (b : UInt8)
  | blank
  deriving DecidableEq

instance : Serialization Draft where
  encode
    | .byte b => ([b], none)
    | .blank => ([], some .codec)
  decode
    | [b] => .ok (.byte b)
    | _ => .error .codec

theorem draft_codec : Codec Draft where
  decode_encode a h := by
    cases a with
    | byte b => rfl
    | blank => cases h

/-- A file with a draft unread, and its cursor at the end. -/
def oneDraft : FileStore := ⟨⟨[1, 0, 7], 3, []⟩, 0⟩

theorem storesOrReports_iff_drafts :
    StoresOrReports oneDraft [Draft.byte 7] [.byte 8, .byte 9] ∧
      ¬StoresOrReports oneDraft [Draft.byte 7] [.byte 8, .blank] := by
  have hencodes : ∀ bs : List UInt8, Encodes (bs.map Draft.byte) := by
    intro bs req hreq
    obtain ⟨b, -, rfl⟩ := List.mem_map.mp hreq
    rfl
  have hframed : Framed (payloadsOf [Draft.byte 7]) := by
    intro p hp
    obtain rfl := List.mem_singleton.mp hp
    decide
  have hunread : oneDraft.Unread (payloadsOf [Draft.byte 7]) := ⟨Nat.zero_le _, hframed, rfl⟩
  have hhealthy : oneDraft.Healthy := ⟨rfl, le_rfl⟩
  constructor
  · refine (storesOrReports_iff draft_codec hhealthy (hencodes [7]) hunread _).mpr
      ⟨hencodes [8, 9], Or.inr rfl, ?_⟩
    decide
  · intro h
    have hblank := ((storesOrReports_iff draft_codec hhealthy (hencodes [7]) hunread _).mp h).1
      .blank (by decide)
    cases hblank

/-- `Store` of a good request and one that cannot be encoded returns nil.  The file then holds two
records, and the `Load` that comes upon the second empties it. -/
theorem blank_not_reported :
    (openStore []).doWrite [Draft.byte 7, .blank] = (none, ⟨⟨[1, 0, 7, 0, 0], 5, []⟩, 0⟩) ∧
      FileStore.load ⟨⟨[1, 0, 7, 0, 0], 5, []⟩, 0⟩ 2 =
        some (([Draft.byte 7], none), ⟨⟨[], 0, []⟩, 0⟩) ∧
      ¬StoresOrReports (openStore []) [] [Draft.byte 7, .blank] := by
  have hwrite : (openStore []).doWrite [Draft.byte 7, .blank] =
      (none, ⟨⟨[1, 0, 7, 0, 0], 5, []⟩, 0⟩) := by decide
  refine ⟨hwrite, by decide, ?_⟩
  rintro ⟨hreports, -⟩
  have herr := (hreports ⟨.blank, by decide, by decide⟩).1
  rw [hwrite] at herr
  exact herr rfl

end Accumulation.Store
