/-
# Accumulation.Xdp.Checksum — what a rewritten destination does to the TCP checksum.

The TCP checksum covers the addresses and ports of the connection.  The program rewrites two of them
and computes the header checksum anew, but leaves the TCP checksum as it is.  A valid checksum stays
valid exactly when the words of the new destination add up to those of the old one
(`tcpValid_iff_sameSum`).
-/
import Accumulation.Lib.OnesComplement
import Accumulation.Xdp.LoadBalancer

namespace Accumulation.Xdp

open Accumulation.Lib Accumulation.Xdp.Frame

/-! ## The checksum of a frame -/

/-- The 16-bit words of a text, which is padded with a zero byte if need be. -/
def words : List UInt8 → List ℕ
  | a :: b :: rest => wire (a, b) :: words rest
  | [a] => [wire (a, 0)]
  | [] => []

namespace Frame

variable (frame : Frame)

/-- The length of the TCP header and the payload. -/
def tcpLen : ℕ := frame.totLen - 4 * frame.ihl

/-- The TCP header and the payload. -/
def segment : List UInt8 := (frame.drop frame.tcp).take frame.tcpLen

/-- What the TCP checksum covers: the pseudo header and the segment. -/
def checksumWords : List ℕ :=
  [wire (frame.pairAt 26), wire (frame.pairAt 28), wire (frame.pairAt 30), wire (frame.pairAt 32),
    frame.protocol.toNat, frame.tcpLen] ++ words frame.segment

/-- The checksum is valid: with it, the words add up to ones. -/
def TcpValid : Prop := OnesComplement.sum 65535 frame.checksumWords = 65535

instance : Decidable frame.TcpValid := inferInstanceAs (Decidable (_ = _))

/-- A frame whose IP header has no options and whose TCP header is there. -/
structure Plain : Prop where
  ihl : frame.ihl = 5
  header : 20 ≤ frame.tcpLen
  fits : 14 + frame.totLen ≤ frame.length

/-- The words of the destination added up. -/
def destSum : ℕ := wire (frame.pairAt 30) + wire (frame.pairAt 32) + wire (frame.pairAt 36)

/-- The words the checksum covers besides the destination. -/
def otherSum : ℕ :=
  wire (frame.pairAt 26) + wire (frame.pairAt 28) + frame.protocol.toNat + frame.tcpLen +
    wire (frame.pairAt 34) + (words ((frame.drop 38).take (frame.tcpLen - 4))).sum

end Frame

/-- The words of a backend's address and port added up. -/
def BackendInfo.wireSum (o : ByteOrder) (b : BackendInfo) : ℕ :=
  wire (o.bytes32 b.ip).1 + wire (o.bytes32 b.ip).2 + b.port.toNat

/-! ## The words of a frame -/

theorem le_of_mem_words {text : List UInt8} {w : ℕ} (hw : w ∈ words text) : w ≤ 65535 := by
  fun_induction words text with
  | case1 a b rest ih =>
    rcases List.mem_cons.mp hw with rfl | hw
    · exact wire_le (a, b)
    · exact ih hw
  | case2 a =>
    rw [List.mem_singleton.mp hw]
    exact wire_le (a, 0)
  | case3 => nomatch hw

variable {frame : Frame}

theorem words_take_drop {i n : ℕ} (hi : i + 1 < frame.length) (hn : 2 ≤ n) :
    words ((frame.drop i).take n) =
      wire (frame.pairAt i) :: words ((frame.drop (i + 2)).take (n - 2)) := by
  obtain ⟨k, rfl⟩ := Nat.exists_eq_add_of_le' hn
  have h₀ : i < frame.length := by omega
  have hpair : frame.pairAt i = (frame[i], frame[i + 1]) := by
    refine Prod.ext ?_ ?_
    · exact List.getD_eq_getElem frame 0 h₀
    · exact List.getD_eq_getElem frame 0 hi
  rw [List.drop_eq_getElem_cons h₀, List.drop_eq_getElem_cons hi, List.take_succ_cons,
    List.take_succ_cons, words, hpair, Nat.add_sub_cancel]

theorem Frame.Plain.lengths (h : frame.Plain) :
    54 ≤ frame.length ∧ frame.tcpLen + 34 ≤ frame.length ∧ frame.totLen = frame.tcpLen + 20 := by
  have hheader := h.header
  have hfits := h.fits
  have hihl := h.ihl
  unfold tcpLen at *
  omega

theorem Frame.Plain.words_segment (h : frame.Plain) : words frame.segment =
    wire (frame.pairAt 34) :: wire (frame.pairAt 36) ::
      words ((frame.drop 38).take (frame.tcpLen - 4)) := by
  have hheader := h.header
  have hlength := h.lengths.1
  have htcp : frame.tcp = 34 := by rw [Frame.tcp, h.ihl]
  rw [segment, htcp, words_take_drop (by omega) (by omega),
    words_take_drop (by omega) (by omega)]
  rfl

/-- **The destination is one part** of what the checksum covers. -/
theorem Frame.Plain.sum_checksumWords (h : frame.Plain) :
    frame.checksumWords.sum = frame.destSum + frame.otherSum := by
  rw [checksumWords, h.words_segment, destSum, otherSum]
  simp only [List.cons_append, List.nil_append, List.sum_cons]
  omega

theorem Frame.Plain.le_of_mem (h : frame.Plain) {w : ℕ} (hw : w ∈ frame.checksumWords) :
    w ≤ 65535 := by
  have hlength := h.lengths.2.2
  have htot := wire_le (frame.pairAt 16)
  have hprotocol := frame.protocol.toNat_lt
  rcases List.mem_append.mp hw with hw | hw
  · simp only [List.mem_cons, List.not_mem_nil, or_false] at hw
    rcases hw with rfl | rfl | rfl | rfl | rfl | rfl
    · exact wire_le _
    · exact wire_le _
    · exact wire_le _
    · exact wire_le _
    · omega
    · show frame.tcpLen ≤ 65535
      unfold totLen at hlength
      omega
  · exact le_of_mem_words hw

/-! ## The new frame -/

section Rewrite

variable {o : ByteOrder} {csumDiff : List UInt8 → UInt64} {ip : UInt32} {port : UInt16}

theorem drop_setPair {i k : ℕ} {b : UInt8 × UInt8} (h : i + 1 < k) :
    (frame.setPair i b).drop k = frame.drop k := by
  rw [setPair, List.drop_set_of_lt h, List.drop_set_of_lt (by omega)]

theorem drop_rewrite : (rewrite o csumDiff frame ip port).drop 38 = frame.drop 38 := by
  rw [rewrite_eq, drop_setPair (by omega), drop_setPair (by omega), drop_setPair (by omega),
    drop_setPair (by omega)]

theorem tcpLen_rewrite : (rewrite o csumDiff frame ip port).tcpLen = frame.tcpLen := by
  rw [tcpLen, ihl_rewrite, totLen, pairAt_rewrite (by omega) (by omega) (by omega)]
  rfl

theorem Frame.Plain.rewrite (h : frame.Plain) : (rewrite o csumDiff frame ip port).Plain where
  ihl := ihl_rewrite.trans h.ihl
  header := by rw [tcpLen_rewrite]; exact h.header
  fits := by
    rw [length_rewrite, totLen, pairAt_rewrite (by omega) (by omega) (by omega)]
    exact h.fits

/-- Nothing else that the checksum covers is changed, the checksum itself included. -/
theorem otherSum_rewrite : (rewrite o csumDiff frame ip port).otherSum = frame.otherSum := by
  rw [otherSum, drop_rewrite, tcpLen_rewrite, protocol,
    byteAt_rewrite (by omega) (by omega) (by omega),
    pairAt_rewrite (by omega) (by omega) (by omega),
    pairAt_rewrite (by omega) (by omega) (by omega),
    pairAt_rewrite (by omega) (by omega) (by omega)]
  rfl

theorem destSum_rewrite (h : 54 ≤ frame.length) (b : BackendInfo) :
    (rewrite o csumDiff frame b.ip (o.htons b.port)).destSum = b.wireSum o := by
  have hport : wire (hi b.port, lo b.port) = b.port.toNat := by
    rw [wire, ← toNat_be16, be16_hi_lo]
  rcases pairAt_rewrite_addr h b.ip (o.htons b.port) with ⟨h₁, h₂⟩
  rw [destSum, h₁, h₂, pairAt_rewrite_port h, ByteOrder.bytes16_htons, hport]
  rfl

end Rewrite

/-- **A valid checksum stays valid exactly when** the words of the new destination add up to those
of the old one. -/
theorem tcpValid_iff_sameSum (o : ByteOrder) (csumDiff : List UInt8 → UInt64) (maps maps' : Maps)
    (frame out : Frame) (hplain : frame.Plain) (hvalid : frame.TcpValid)
    (htx : xdpLoadBalancer o csumDiff maps frame = (.tx, out, maps')) :
    out.TcpValid ↔ ∃ b, (route o maps frame = .back b ∨ route o maps frame = .forward b) ∧
      b.wireSum o ≡ frame.destSum [MOD 65535] := by
  have hrewrite (b : BackendInfo) :
      (rewrite o csumDiff frame b.ip (o.htons b.port)).TcpValid ↔
        b.wireSum o ≡ frame.destSum [MOD 65535] := by
    have hplain' : (rewrite o csumDiff frame b.ip (o.htons b.port)).Plain := hplain.rewrite
    have hsum := hplain'.sum_checksumWords
    rw [destSum_rewrite hplain.lengths.1 b, otherSum_rewrite] at hsum
    refine OnesComplement.ones_congr (fun w => hplain.le_of_mem) (fun w => hplain'.le_of_mem)
      (by decide) ?_ hplain.sum_checksumWords hsum hvalid
    -- the length of the segment is one of the words
    have hheader := hplain'.header
    rw [hplain'.sum_checksumWords, otherSum]
    omega
  obtain ⟨b, hroute, rfl⟩ := rewrite_of_tx htx
  rw [hrewrite]
  constructor
  · exact fun h => ⟨b, hroute, h⟩
  · rintro ⟨b', hroute', h⟩
    rwa [← backend_unique hroute hroute']

/-! ## Frames that do and do not -/

/-- A SYN without payload, with its checksum, from `10.3.0.1:4660` to `10.3.0.2:80`. -/
def syn : Frame :=
  List.replicate 12 0 ++ [0x08, 0x00] ++
    [0x45, 0, 0, 40, 0, 0, 0, 0, 64, 6, 0, 0, 10, 3, 0, 1, 10, 3, 0, 2] ++
    [0x12, 0x34, 0, 80, 0, 0, 0, 0, 0, 0, 0, 0, 0x50, 0x02, 0x10, 0, 0x79, 0x56, 0, 0]

/-- Port 80 is served by port 8080 of an address. -/
def balanced (ip : UInt32) : Maps where
  backendMap := AList.insert 80 ⟨ip, 8080⟩ ∅
  backendBackMap := ∅

def synTo (ip : UInt32) : Action × Frame × Maps :=
  xdpLoadBalancer .little csumPartial (balanced ip) syn

/-- `10.3.224.193` makes up for the change of the port. -/
theorem tcpValid_iff_sameSum_even : (synTo 0xc1e0030a).2.1.TcpValid :=
  (tcpValid_iff_sameSum .little csumPartial (balanced 0xc1e0030a) (synTo 0xc1e0030a).2.2 syn
    (synTo 0xc1e0030a).2.1 ⟨by decide, by decide, by decide⟩ (by decide)
    (Prod.ext (by decide) rfl)).mpr
    ⟨⟨0xc1e0030a, 8080⟩, Or.inr (by decide), by decide⟩

/-- Sent on to `10.3.0.3:8080`, the frame has a wrong checksum. -/
theorem forwarded_not_tcpValid :
    syn.Plain ∧ syn.TcpValid ∧ (synTo 0x0300030a).1 = .tx ∧ ¬ (synTo 0x0300030a).2.1.TcpValid :=
  ⟨⟨by decide, by decide, by decide⟩, by decide, by decide, by decide⟩

end Accumulation.Xdp
