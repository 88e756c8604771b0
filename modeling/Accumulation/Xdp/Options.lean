/-
# Accumulation.Xdp.Options — frames whose IP header has options.

The program takes the TCP header to start behind 20 bytes of IP header, and so does its checksum.
With options, bytes of theirs are the ports it looks up, the new port is written over them, and they
are left out of the header checksum.  `respected_iff` says of which frames the program is right all
the same.
-/
import Accumulation.Xdp.HeaderChecksum
import Accumulation.Xdp.Replies

namespace Accumulation.Xdp

open Accumulation.Lib Accumulation.Xdp.Frame

/-! ## What is asked of a frame that is sent on -/

/-- The places of the header checksum, of the TCP checksum, of the destination address and of the
TCP destination port. -/
def Frame.Rewritable (frame : Frame) (i : ℕ) : Prop :=
  (i = 24 ∨ i = 25) ∨ (i = frame.tcp + 16 ∨ i = frame.tcp + 17) ∨ (30 ≤ i ∧ i < 34) ∨
    (i = frame.tcp + 2 ∨ i = frame.tcp + 3)

/-- The ports looked up are those of the TCP header, nothing else is changed than the destination and
the checksums, and the header checksum is valid. -/
structure Respected (o : ByteOrder) (maps : Maps) (frame out : Frame) : Prop where
  source : frame.source o = frame.load16 o frame.tcp
  /-- the destination port is looked up when the source port is not found -/
  dest : ∀ b, route o maps frame = .forward b → frame.dest o = frame.load16 o (frame.tcp + 2)
  length : out.length = frame.length
  changed : ∀ i, out.byteAt i ≠ frame.byteAt i → frame.Rewritable i
  valid : out.HeaderValid (4 * frame.ihl)

/-- The bytes of the options. -/
def Frame.options (frame : Frame) : List UInt8 := (frame.drop 34).take (4 * frame.ihl - 20)

/-- The options start with the ports of the TCP header, the second of which is the backend's already
on the wire, and their words add up to a zero. -/
structure OptionsPass (o : ByteOrder) (maps : Maps) (frame : Frame) : Prop where
  source : frame.pairAt 34 = frame.pairAt frame.tcp
  dest : ∀ b, route o maps frame = .forward b → frame.pairAt 36 = frame.pairAt (frame.tcp + 2)
  port : ∀ b, route o maps frame = .back b ∨ route o maps frame = .forward b →
    frame.pairAt 36 = (hi b.port, lo b.port)
  sum : (words frame.options).sum ≡ 0 [MOD 65535]

variable {o : ByteOrder} {maps : Maps} {frame : Frame} {csumDiff : List UInt8 → UInt64}
  {ip : UInt32} {port : UInt16}

/-! ## Ports -/

theorem word16_inj {p q : UInt8 × UInt8} : o.word16 p = o.word16 q ↔ p = q := by
  have hback (b : UInt8 × UInt8) : o.bytes16 (o.word16 b) = b := by
    cases o with
    | little => simp only [ByteOrder.bytes16, ByteOrder.word16, lo_be16, hi_be16]
    | big => simp only [ByteOrder.bytes16, ByteOrder.word16, lo_be16, hi_be16]
  exact ⟨fun h => by rw [← hback p, h, hback], fun h => by rw [h]⟩

theorem load16_eq_iff {i j : ℕ} :
    frame.load16 o i = frame.load16 o j ↔ frame.pairAt i = frame.pairAt j := word16_inj

/-! ## The words of the options -/

theorem words_append {k : ℕ} {text rest : List UInt8} (h : text.length = 2 * k) :
    words (text ++ rest) = words text ++ words rest := by
  induction k generalizing text with
  | zero =>
    obtain rfl := List.length_eq_zero_iff.mp h
    rfl
  | succ k ih =>
    match text, h with
    | a :: b :: text, h =>
      have htext : text.length = 2 * k := by
        simp only [List.length_cons] at h
        omega
      rw [List.cons_append, List.cons_append, words, words, ih htext, List.cons_append]

/-- Behind the first 20 bytes come the options. -/
theorem headerWords_options {n : ℕ} (hn : 20 ≤ n) (hlength : 34 ≤ frame.length) :
    frame.headerWords n = frame.headerWords 20 ++ words ((frame.drop 34).take (n - 20)) := by
  obtain ⟨m, rfl⟩ := Nat.exists_eq_add_of_le hn
  have hhead : ((frame.drop 14).take 20).length = 2 * 10 := by
    rw [List.length_take, List.length_drop]
    omega
  rw [headerWords, headerWords, List.take_add, words_append hhead, List.drop_drop,
    Nat.add_sub_cancel_left]

/-- A port that is there already changes nothing. -/
theorem setPair_self {i : ℕ} (h : i + 1 < frame.length) :
    frame.setPair i (frame.pairAt i) = frame := by
  have h₀ : i < frame.length := by omega
  rw [setPair, pairAt, byteAt, byteAt, List.getD_eq_getElem frame 0 h₀,
    List.getD_eq_getElem frame 0 h, List.set_getElem_self, List.set_getElem_self]

theorem drop_rewrite_options (hlength : 54 ≤ frame.length)
    (hport : frame.pairAt 36 = o.bytes16 port) :
    (rewrite o csumDiff frame ip port).drop 34 = frame.drop 34 := by
  have hkept : ((frame.setPair 30 (o.bytes32 ip).1).setPair 32 (o.bytes32 ip).2).setPair 36
      (o.bytes16 port) = (frame.setPair 30 (o.bytes32 ip).1).setPair 32 (o.bytes32 ip).2 := by
    have hpair : ((frame.setPair 30 (o.bytes32 ip).1).setPair 32 (o.bytes32 ip).2).pairAt 36 =
        o.bytes16 port := by
      rw [pairAt_setPair_ne (by omega), pairAt_setPair_ne (by omega), hport]
    rw [← hpair]
    exact setPair_self (by rw [length_setPair, length_setPair]; omega)
  rw [rewrite_eq, drop_setPair (by omega), hkept, drop_setPair (by omega), drop_setPair (by omega)]

/-! ## The header checksum -/

/-- **The new checksum** is right for the first 20 bytes, so it is right for all when the words of
the options are a zero. -/
theorem headerValid_rewrite (hcsum : SumsWords o csumDiff) (hlength : 54 ≤ frame.length) {n : ℕ}
    (hn : 20 ≤ n) : (rewrite o csumDiff frame ip port).HeaderValid n ↔
      (words (((rewrite o csumDiff frame ip port).drop 34).take (n - 20))).sum ≡ 0
        [MOD 65535] := by
  have hmid : 34 ≤ ((frame.store32 o 30 ip).store16 o 36 port).length := by
    rw [store16, length_setPair, length_store32]
    omega
  have hsum : ((rewrite o csumDiff frame ip port).headerWords 20).sum =
      wire (o.bytes16 (ipv4Csum csumDiff ((frame.store32 o 30 ip).store16 o 36 port))) +
        ((frame.store32 o 30 ip).store16 o 36 port).headerRest :=
    sum_headerWords_setPair (by omega) (by omega) _
  rcases ipv4Csum_spec hcsum hmid with ⟨hmod, hne⟩
  rw [headerValid_iff, headerWords_options hn (by rw [length_rewrite]; omega), List.sum_append, hsum]
  constructor
  · rintro ⟨-, hvalid⟩
    exact Nat.ModEq.add_left_cancel hmod hvalid
  · intro hoptions
    exact ⟨by omega, hmod.add hoptions⟩

/-! ## Which frames are treated well -/

section Rewrite

variable {b : BackendInfo}

/-- Without options, all is well. -/
theorem respected_plain (hcsum : SumsWords o csumDiff) (hlength : 54 ≤ frame.length)
    (hihl : frame.ihl = 5) :
    Respected o maps frame (rewrite o csumDiff frame b.ip (o.htons b.port)) := by
  have htcp : frame.tcp = 34 := by rw [Frame.tcp, hihl]
  refine ⟨by rw [htcp]; rfl, fun _ _ => by rw [htcp]; rfl, length_rewrite, ?_, ?_⟩
  · intro i hi
    unfold Rewritable
    by_contra hnot
    rw [htcp] at hnot
    exact hi (byteAt_rewrite (by omega) (by omega) (by omega))
  · rw [headerValid_rewrite hcsum hlength (by omega), hihl]
    rfl

/-- With options, it is where they stand in for the ports. -/
theorem respected_options (hcsum : SumsWords o csumDiff) (hlength : 54 ≤ frame.length)
    (hihl : 5 < frame.ihl)
    (hroute : route o maps frame = .back b ∨ route o maps frame = .forward b) :
    Respected o maps frame (rewrite o csumDiff frame b.ip (o.htons b.port)) ↔
      OptionsPass o maps frame := by
  have hwritten : (rewrite o csumDiff frame b.ip (o.htons b.port)).pairAt 36 =
      (hi b.port, lo b.port) := by
    rw [pairAt_rewrite_port hlength, ByteOrder.bytes16_htons]
  have hvalid (hport : frame.pairAt 36 = (hi b.port, lo b.port)) :
      (rewrite o csumDiff frame b.ip (o.htons b.port)).HeaderValid (4 * frame.ihl) ↔
        (words frame.options).sum ≡ 0 [MOD 65535] := by
    rw [headerValid_rewrite hcsum hlength (by omega), drop_rewrite_options hlength
      (by rw [ByteOrder.bytes16_htons]; exact hport)]
    rfl
  have htcp : 38 ≤ frame.tcp := by
    unfold Frame.tcp
    omega
  constructor
  · intro h
    -- the port is written into the options, so it has to be there
    have hsame {i : ℕ} (hi : i = 36 ∨ i = 37) :
        (rewrite o csumDiff frame b.ip (o.htons b.port)).byteAt i = frame.byteAt i := by
      by_contra hne
      have hplace := h.changed i hne
      unfold Rewritable at hplace
      omega
    have hport : frame.pairAt 36 = (hi b.port, lo b.port) := by
      rw [← hwritten]
      exact Prod.ext (hsame (Or.inl rfl)).symm (hsame (Or.inr rfl)).symm
    exact ⟨load16_eq_iff.mp h.source, fun b' hb' => load16_eq_iff.mp (h.dest b' hb'),
      fun b' hb' => backend_unique hroute hb' ▸ hport, (hvalid hport).mp h.valid⟩
  · intro h
    have hport := h.port b hroute
    refine ⟨load16_eq_iff.mpr h.source, fun b' hb' => load16_eq_iff.mpr (h.dest b' hb'),
      length_rewrite, ?_, (hvalid hport).mpr h.sum⟩
    intro i hi
    unfold Rewritable
    by_contra hnot
    by_cases hplace : i = 36 ∨ i = 37
    · have hpair : (rewrite o csumDiff frame b.ip (o.htons b.port)).pairAt 36 =
          frame.pairAt 36 := hwritten.trans hport.symm
      rcases hplace with rfl | rfl
      · exact hi (congrArg Prod.fst hpair)
      · exact hi (congrArg Prod.snd hpair)
    · exact hi (byteAt_rewrite (by omega) (by omega) (by omega))

end Rewrite

/-- **Of a frame that is sent on**, ports, other bytes and header checksum are as they should be
exactly when its header has no options, or these stand in for the ports and add up to a zero. -/
theorem respected_iff (o : ByteOrder) (csumDiff : List UInt8 → UInt64) (maps maps' : Maps)
    (frame out : Frame) (hcsum : SumsWords o csumDiff) (hwhole : frame.Whole)
    (htx : xdpLoadBalancer o csumDiff maps frame = (.tx, out, maps')) :
    Respected o maps frame out ↔ frame.ihl = 5 ∨ OptionsPass o maps frame := by
  obtain ⟨b, hroute, rfl⟩ := rewrite_of_tx htx
  have hlength : 54 ≤ frame.length := by
    rcases hroute with hroute | hroute
    · exact length_of_route hroute Route.noConfusion
    · exact length_of_route hroute Route.noConfusion
  by_cases hihl : frame.ihl = 5
  · exact iff_of_true (respected_plain hcsum hlength hihl) (Or.inl hihl)
  · have hmore : 5 < frame.ihl := lt_of_le_of_ne hwhole.1 (Ne.symm hihl)
    rw [respected_options hcsum hlength hmore hroute, or_iff_right hihl]

/-! ## Frames without and with options -/

/-- A SYN with a router alert, whose value is the port it goes to, and an option that makes up for
the words of the alert.  It comes from port 37892. -/
def passing : Frame :=
  List.replicate 12 0 ++ [0x08, 0x00] ++
    [0x47, 0, 0, 48, 0, 0, 0, 0, 64, 6, 0, 0, 10, 3, 0, 1, 10, 3, 0, 2] ++
    [148, 4, 0, 80, 94, 4, 0x0d, 0xa7] ++
    [0x94, 0x04, 0, 80, 0, 0, 0, 0, 0, 0, 0, 0, 0x50, 0x02, 0x10, 0, 0, 0, 0, 0]

/-- Port 80 is served by port 80 of an address. -/
def samePort (ip : UInt32) : Maps := ⟨AList.insert 80 ⟨ip, 80⟩ ∅, ∅⟩

def passingTo : Action × Frame × Maps :=
  xdpLoadBalancer .little csumPartial (samePort 0x0300030a) passing

theorem respected_iff_passing :
    Respected .little (balanced 0x0300030a) syn (synTo 0x0300030a).2.1 ∧
      passing.ihl = 7 ∧ Respected .little (samePort 0x0300030a) passing passingTo.2.1 := by
  refine ⟨?_, by decide, ?_⟩
  · exact (respected_iff .little csumPartial (balanced 0x0300030a) (synTo 0x0300030a).2.2 syn
      (synTo 0x0300030a).2.1 csumPartial_sumsWords (by decide) (Prod.ext (by decide) rfl)).mpr
      (Or.inl rfl)
  · have hroute : route .little (samePort 0x0300030a) passing = .forward ⟨0x0300030a, 80⟩ := by decide
    refine (respected_iff .little csumPartial (samePort 0x0300030a) passingTo.2.2 passing
      passingTo.2.1 csumPartial_sumsWords (by decide) (Prod.ext (by decide) rfl)).mpr (Or.inr ?_)
    refine ⟨by decide, fun _ _ => by decide, fun b hb => ?_, by decide⟩
    rcases hb with hb | hb
    · cases hroute.symm.trans hb
    · obtain rfl := Route.forward.inj (hroute.symm.trans hb)
      decide

/-- The SYN with a router alert, as a router may have put it in. -/
def alerted : Frame :=
  List.replicate 12 0 ++ [0x08, 0x00] ++
    [0x46, 0, 0, 44, 0, 0, 0, 0, 64, 6, 0xd1, 0x6f, 10, 3, 0, 1, 10, 3, 0, 2, 148, 4, 0, 80] ++
    [0x12, 0x34, 0, 80, 0, 0, 0, 0, 0, 0, 0, 0, 0x50, 0x02, 0x10, 0, 0x79, 0x56, 0, 0]

def alertedTo : Action × Frame × Maps :=
  xdpLoadBalancer .little csumPartial (balanced 0x0300030a) alerted

/-- It is sent on with the port in the router alert and a wrong header checksum. -/
theorem alerted_not_respected : alerted.Whole ∧ alerted.HeaderValid (4 * alerted.ihl) ∧
    alertedTo.1 = .tx ∧ alerted.source .little ≠ alerted.load16 .little alerted.tcp ∧
    alertedTo.2.1.pairAt 36 = (0x1f, 0x90) ∧ ¬ alerted.Rewritable 36 ∧
    alertedTo.2.1.pairAt (alerted.tcp + 2) = (0, 80) ∧
    ¬ alertedTo.2.1.HeaderValid (4 * alerted.ihl) ∧
    ¬ Respected .little (balanced 0x0300030a) alerted alertedTo.2.1 := by
  have hvalid : ¬ alertedTo.2.1.HeaderValid (4 * alerted.ihl) := by decide
  refine ⟨by decide, by decide, by decide, by decide, by decide, ?_, by decide, hvalid,
    fun h => hvalid h.valid⟩
  unfold Rewritable
  decide

end Accumulation.Xdp
