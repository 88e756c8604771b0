/-
# Accumulation.Xdp.ControlPlane — the entries that main.go stores, and the frames that go to them.

`ipToInt` makes a number of an address, the first of its parts in the upper bits.  The number is
stored in the byte order of the host, and the program copies it into the header as it is, while the
port goes through `htons`.  So on a little-endian host the address is on the wire the wrong way round
(`destination_iff`).
-/
import Accumulation.Go.Ip
import Accumulation.Xdp.Replies

namespace Accumulation.Xdp

open Accumulation.Go Accumulation.Lib.Run Accumulation.Xdp.Frame

/-! ## What is stored -/

/-- `bpfBackendInfo` -/
structure BpfBackendInfo where
  ip : UInt32
  port : UInt16
  deriving DecidableEq, Repr

/-- `ipToInt`; `none` is the panic at the index of a nil slice. -/
def ipToInt (parseIPv6 : Text → Option IP) (ip : Text) : Option UInt32 :=
  match (IP.parseIP parseIPv6 ip).to4 with
  | [a, b, c, d] =>
    some (a.toUInt32 <<< 24 ||| b.toUInt32 <<< 16 ||| c.toUInt32 <<< 8 ||| d.toUInt32)
  | _ => none

/-- `struct backend_info`, as the program reads it from the bytes of an entry. -/
def BackendInfo.ofBytes (o : ByteOrder) (bytes : List UInt8) : BackendInfo :=
  ⟨load32 o bytes 0, load16 o bytes 4⟩

/-- The map library writes the fields of a structure at their places, in the byte order of the
host. -/
structure HostOrder (o : ByteOrder) (marshal : BpfBackendInfo → List UInt8) : Prop where
  ip : ∀ info, (pairAt (marshal info) 0, pairAt (marshal info) 2) = o.bytes32 info.ip
  port : ∀ info, pairAt (marshal info) 4 = o.bytes16 info.port

/-- `BackendMap.Put`, which a full map refuses. -/
def Maps.put (o : ByteOrder) (marshal : BpfBackendInfo → List UInt8) (maps : Maps) (key : UInt32)
    (info : BpfBackendInfo) : Option Maps :=
  if maps.backendMap.lookup key = none ∧ maxBackends ≤ maps.backendMap.keys.length then none
  else some { maps with backendMap := maps.backendMap.insert key (.ofBytes o (marshal info)) }

/-- What `main` does with a key, an address and a port; where it fails, it ends. -/
def putBackend (o : ByteOrder) (marshal : BpfBackendInfo → List UInt8)
    (parseIPv6 : Text → Option IP) (maps : Maps) (key : UInt32) (ip : Text) (port : UInt16) :
    Option Maps :=
  (ipToInt parseIPv6 ip).bind fun ip => maps.put o marshal key ⟨ip, port⟩

/-! ## The number of an address -/

theorem shifts_eq_be32 (a b c d : UInt8) :
    a.toUInt32 <<< 24 ||| b.toUInt32 <<< 16 ||| c.toUInt32 <<< 8 ||| d.toUInt32 =
      be32 (be16 a b) (be16 c d) := by
  have ha := a.toNat_lt
  have hb := b.toNat_lt
  have hc := c.toNat_lt
  have hd := d.toNat_lt
  -- each part lies below the bits of the one before
  have hor {i x y : ℕ} (hy : y < 2 ^ i) : 2 ^ i * x ||| y = 2 ^ i * x + y :=
    (Nat.two_pow_add_eq_or_of_lt hy x).symm
  have hab : a.toNat * 2 ^ 24 ||| b.toNat * 2 ^ 16 = 2 ^ 16 * (a.toNat * 256 + b.toNat) := by
    rw [Nat.mul_comm a.toNat, hor (by omega)]
    omega
  have habc : 2 ^ 16 * (a.toNat * 256 + b.toNat) ||| c.toNat * 2 ^ 8 =
      2 ^ 8 * ((a.toNat * 256 + b.toNat) * 256 + c.toNat) := by
    rw [hor (by omega)]
    omega
  have hshift (v : UInt8) (k : UInt32) (n : ℕ) (hk : k.toNat % 32 = n) (hn : n ≤ 24) :
      (v.toUInt32 <<< k).toNat = v.toNat * 2 ^ n := by
    have hv := v.toNat_lt
    have hpow : 2 ^ n ≤ 2 ^ 24 := Nat.pow_le_pow_right (by omega) hn
    rw [UInt32.toNat_shiftLeft, hk, UInt8.toNat_toUInt32, Nat.shiftLeft_eq]
    refine Nat.mod_eq_of_lt ?_
    calc v.toNat * 2 ^ n ≤ 255 * 2 ^ 24 := Nat.mul_le_mul (by omega) hpow
      _ < 2 ^ 32 := by omega
  apply UInt32.toNat_inj.mp
  rw [toNat_be32, toNat_be16, toNat_be16, UInt32.toNat_or, UInt32.toNat_or, UInt32.toNat_or,
    hshift a 24 24 rfl (by omega), hshift b 16 16 rfl (by omega), hshift c 8 8 rfl (by omega),
    UInt8.toNat_toUInt32, hab, habc, hor (by omega)]
  omega

theorem ipToInt_dotted (parseIPv6 : Text → Option IP) (a b c d : UInt8) :
    ipToInt parseIPv6 (IP.dotted a b c d) = some (be32 (be16 a b) (be16 c d)) := by
  rw [ipToInt, IP.to4_parseIP_dotted, ← shifts_eq_be32]

/-! ## What is read -/

variable {o : ByteOrder} {marshal : BpfBackendInfo → List UInt8} {csumDiff : List UInt8 → UInt64}

/-- The program reads what was stored. -/
theorem ofBytes_marshal (hmarshal : HostOrder o marshal) (info : BpfBackendInfo) :
    BackendInfo.ofBytes o (marshal info) = ⟨info.ip, info.port⟩ := by
  rw [BackendInfo.ofBytes, load32, hmarshal.ip, load16, hmarshal.port, ByteOrder.word32_bytes32,
    ByteOrder.word16_bytes16]

theorem lookup_put {maps maps' : Maps} {key : UInt32} {info : BpfBackendInfo}
    (h : maps.put o marshal key info = some maps') :
    maps'.backendMap.lookup key = some (.ofBytes o (marshal info)) := by
  unfold Maps.put at h
  split at h
  · nomatch h
  · obtain rfl := Option.some.inj h
    exact AList.lookup_insert _

/-- **Frames** leave the entries of `backend_map` alone. -/
theorem backendMap_run {s s' : Traffic} {frames : List Frame}
    (hrun : exec (Traffic.step o csumDiff) s frames = some s') :
    s'.maps.backendMap = s.maps.backendMap := by
  have hstep (t : Traffic) (frame : Frame) (t' : Traffic)
      (ht : t.maps.backendMap = s.maps.backendMap) (h : t.step o csumDiff frame = some t') :
      t'.maps.backendMap = s.maps.backendMap := by
    obtain rfl := Option.some.inj h
    rw [← ht]
    show (xdpLoadBalancer o csumDiff t.maps frame).2.2.backendMap = _
    rw [xdpLoadBalancer_eq]
    cases route o t.maps frame <;> rfl
  exact (always_of_step hstep frames rfl).last hrun

/-! ## What is on the wire -/

/-- The destination of a frame, as it is on the wire. -/
def Frame.SentTo (frame : Frame) (a b c d : UInt8) (port : UInt16) : Prop :=
  frame.pairAt 30 = (a, b) ∧ frame.pairAt 32 = (c, d) ∧
    frame.pairAt (frame.tcp + 2) = (hi port, lo port)

instance (frame : Frame) (a b c d : UInt8) (port : UInt16) :
    Decidable (frame.SentTo a b c d port) := inferInstanceAs (Decidable (_ ∧ _ ∧ _))

/-- The TCP destination port of the new frame; behind options it is left as it is. -/
theorem pairAt_tcp_rewrite {frame : Frame} (hwhole : frame.Whole) (hlength : 54 ≤ frame.length)
    {ip : UInt32} {port : UInt16} :
    (rewrite o csumDiff frame ip (o.htons port)).pairAt (frame.tcp + 2) = (hi port, lo port) ↔
      frame.ihl = 5 ∨ frame.pairAt (frame.tcp + 2) = (hi port, lo port) := by
  by_cases hihl : frame.ihl = 5
  · have htcp : frame.tcp + 2 = 36 := by rw [Frame.tcp, hihl]
    rw [htcp, pairAt_rewrite_port hlength, ByteOrder.bytes16_htons]
    exact iff_of_true rfl (Or.inl hihl)
  · have hbehind : 38 < frame.tcp + 2 := by
      have hihl' := hwhole.1
      unfold Frame.tcp
      omega
    rw [pairAt_rewrite (by omega) (by omega) (by omega), or_iff_right hihl]

/-- **On a little-endian host**, a frame that goes to an entry is sent to its address and port
exactly when the address reads the same backwards, and the frame has no options or has the port
already. -/
theorem destination_iff (csumDiff : List UInt8 → UInt64) (marshal : BpfBackendInfo → List UInt8)
    (parseIPv6 : Text → Option IP) (s s' : Traffic) (maps : Maps) (key : UInt32) (a b c d : UInt8)
    (port : UInt16) (frames : List Frame) (frame : Frame) (entry : BackendInfo)
    (hmarshal : HostOrder .little marshal)
    (hput : putBackend .little marshal parseIPv6 s.maps key (IP.dotted a b c d) port = some maps)
    (hrun : exec (Traffic.step .little csumDiff) { s with maps } frames = some s')
    (hwhole : frame.Whole)
    (hkey : (ByteOrder.little.htons (frame.dest .little)).toUInt32 = key)
    (hroute : route .little s'.maps frame = .forward entry) :
    (xdpLoadBalancer .little csumDiff s'.maps frame).2.1.SentTo a b c d port ↔
      a = d ∧ b = c ∧ (frame.ihl = 5 ∨ frame.pairAt (frame.tcp + 2) = (hi port, lo port)) := by
  have hlength := length_of_route hroute Route.noConfusion
  obtain ⟨ip, hip, hput⟩ := Option.bind_eq_some_iff.mp hput
  rw [ipToInt_dotted] at hip
  obtain rfl := Option.some.inj hip
  -- the entry is the one that has been stored
  have hlookup := lookup_of_forward hroute
  rw [hkey, backendMap_run hrun, lookup_put hput, ofBytes_marshal hmarshal] at hlookup
  obtain rfl := Option.some.inj hlookup
  have hout : (xdpLoadBalancer .little csumDiff s'.maps frame).2.1 =
      rewrite .little csumDiff frame (be32 (be16 a b) (be16 c d)) (ByteOrder.little.htons port) := by
    rw [xdpLoadBalancer_eq, hroute]
  rw [hout, SentTo, tcp_rewrite, pairAt_tcp_rewrite hwhole hlength,
    (pairAt_rewrite_addr hlength _ _).1, (pairAt_rewrite_addr hlength _ _).2]
  simp only [ByteOrder.bytes32, ByteOrder.bytes16, lo16_be32, hi16_be32, lo_be16, hi_be16,
    Prod.mk.injEq]
  constructor
  · rintro ⟨⟨hda, hcb⟩, -, hport⟩
    exact ⟨hda.symm, hcb.symm, hport⟩
  · rintro ⟨rfl, rfl, hport⟩
    exact ⟨⟨rfl, rfl⟩, ⟨rfl, rfl⟩, hport⟩

/-! ## Two entries -/

/-- The fields one after the other, with the padding. -/
def fieldBytes (o : ByteOrder) (info : BpfBackendInfo) : List UInt8 :=
  match o.bytes32 info.ip, o.bytes16 info.port with
  | ((a, b), c, d), (p, q) => [a, b, c, d, p, q, 0, 0]

theorem fieldBytes_hostOrder (o : ByteOrder) : HostOrder o (fieldBytes o) where
  ip _ := rfl
  port _ := rfl

/-- Port 8080, for which there is an entry. -/
def toEntry : Frame := segmentFrom (10, 3, 0, 1) (0x12, 0x34) (10, 3, 0, 2) (0x1f, 0x90)

/-- An address and port 80 stored under 8080, and a frame that goes there. -/
def sentTo (a b c d : UInt8) : Option (Action × Frame) :=
  (putBackend .little (fieldBytes .little) (fun _ => none) ⟨∅, ∅⟩ 8080 (IP.dotted a b c d) 80).map
    fun maps => ((xdpLoadBalancer .little csumPartial maps toEntry).1,
      (xdpLoadBalancer .little csumPartial maps toEntry).2.1)

/-- `10.3.3.10` is reached. -/
theorem destination_iff_palindrome : ∃ maps,
    putBackend .little (fieldBytes .little) (fun _ => none) ⟨∅, ∅⟩ 8080 (IP.dotted 10 3 3 10) 80 =
      some maps ∧
    (xdpLoadBalancer .little csumPartial maps toEntry).2.1.SentTo 10 3 3 10 80 :=
  ⟨⟨AList.insert 8080 ⟨0x0a03030a, 80⟩ ∅, ∅⟩, rfl,
    (destination_iff csumPartial (fieldBytes .little) (fun _ => none) ⟨⟨∅, ∅⟩, []⟩
      ⟨⟨AList.insert 8080 ⟨0x0a03030a, 80⟩ ∅, ∅⟩, []⟩ ⟨AList.insert 8080 ⟨0x0a03030a, 80⟩ ∅, ∅⟩ 8080
      10 3 3 10 80 [] toEntry ⟨0x0a03030a, 80⟩ (fieldBytes_hostOrder .little) rfl rfl (by decide)
      (by decide) (by decide)).mpr ⟨rfl, rfl, Or.inl (by decide)⟩⟩

/-- The frames for the entry of `main` are sent to `101.192.113.45`. -/
theorem destination_reversed : IP.dotted 45 113 192 101 = "45.113.192.101".toList ∧
    ∃ out, sentTo 45 113 192 101 = some (.tx, out) ∧ out.pairAt 30 = (101, 192) ∧
      out.pairAt 32 = (113, 45) ∧ ¬ out.SentTo 45 113 192 101 80 :=
  ⟨by decide, ((sentTo 45 113 192 101).get (by decide +kernel)).2, by decide +kernel,
    by decide +kernel, by decide +kernel, by decide +kernel⟩

end Accumulation.Xdp
