/-
# Accumulation.Xdp.LoadBalancer — the XDP program that spreads TCP connections over backends.

A frame that is not TCP over IPv4 is passed on.  Of the others, `backend_back_map` says which come
back from a backend, and `backend_map` by the destination port which go to one.  Either way the
destination is rewritten in place.  The TCP header is taken to start behind an IP header of 20
bytes.

`route` is what the program looks up before it changes anything, and `xdpLoadBalancer_eq` says what
it does then.
-/
import Accumulation.Lib.OnesComplement
import Accumulation.Xdp.Frame

namespace Accumulation.Xdp

open Accumulation.Lib Accumulation.Xdp.Frame

/-! ## The maps -/

structure BackendInfo where
  ip : UInt32
  port : UInt16
  deriving DecidableEq, Repr

structure BackendKey where
  bindaddr : UInt32
  bindport : UInt32
  deriving DecidableEq, Repr

def maxBackends : ℕ := 10

abbrev BackMap := AList fun _ : BackendKey => BackendInfo

structure Maps where
  backendMap : AList fun _ : UInt32 => BackendInfo
  backendBackMap : BackMap

/-- `bpf_map_update_elem` with `BPF_ANY`, whose result the program drops: a full map takes no new
key. -/
def BackMap.update (map : BackMap) (key : BackendKey) (value : BackendInfo) : BackMap :=
  if map.lookup key = none ∧ maxBackends ≤ map.keys.length then map else map.insert key value

def Maps.updateBack (maps : Maps) (key : BackendKey) (value : BackendInfo) : Maps :=
  { maps with backendBackMap := maps.backendBackMap.update key value }

/-! ## Checksums -/

def foldOnce (csum : UInt64) : UInt64 :=
  if csum >>> 16 ≠ 0 then (csum &&& (0xffff : UInt64)) + (csum >>> 16) else csum

def csumFoldHelper (csum : UInt64) : UInt16 := (~~~(foldOnce^[4] csum)).toUInt16

/-- `ipv4_csum`; `bpf_csum_diff` is a function of the kernel. -/
def ipv4Csum (csumDiff : List UInt8 → UInt64) (frame : Frame) : UInt16 :=
  csumFoldHelper (csumDiff (((frame.setPair 24 (0, 0)).drop 14).take 20))

/-- `bpf_csum_diff` without a text to subtract, on a little-endian host: the sum of 32-bit words. -/
def csumPartial (text : List UInt8) : UInt64 :=
  .ofNat (OnesComplement.sum 0xffffffff (go text))
where
  go : List UInt8 → List ℕ
    | a :: b :: c :: d :: rest => (ByteOrder.little.word32 ((a, b), c, d)).toNat :: go rest
    | _ => []

/-! ## The program -/

inductive Action
  | pass
  | tx
  deriving DecidableEq, Repr

/-- What is to become of a frame. -/
inductive Route
  | pass
  /-- an entry of `backend_back_map` -/
  | back (backend : BackendInfo)
  /-- an entry of `backend_map` -/
  | forward (backend : BackendInfo)
  deriving DecidableEq, Repr

/-- The tests for a frame of TCP over IPv4 that holds all three headers. -/
def isTcp (o : ByteOrder) (frame : Frame) : Bool :=
  14 ≤ frame.length && frame.hProto o = o.htons 0x0800 &&
    14 + 20 ≤ frame.length && frame.protocol = 6 && 14 + 20 + 20 ≤ frame.length

/-- The program up to the second lookup. -/
def route (o : ByteOrder) (maps : Maps) (frame : Frame) : Route :=
  if isTcp o frame then
    match maps.backendBackMap.lookup ⟨frame.daddr o, (o.htons (frame.source o)).toUInt32⟩ with
    | some backBackend => .back backBackend
    | none =>
      match maps.backendMap.lookup (o.htons (frame.dest o)).toUInt32 with
      | some backend => .forward backend
      | none => .pass
  else .pass

def xdpLoadBalancer (o : ByteOrder) (csumDiff : List UInt8 → UInt64) (maps : Maps)
    (frame : Frame) : Action × Frame × Maps :=
  match route o maps frame with
  | .pass => (.pass, frame, maps)
  | .back backBackend =>
    let frame := frame.store32 o 30 backBackend.ip
    let frame := frame.store16 o 36 (o.htons backBackend.port)
    (.tx, frame.store16 o 24 (ipv4Csum csumDiff frame), maps)
  | .forward backend =>
    let bindaddr := frame.daddr o
    let frame := frame.store32 o 30 backend.ip
    -- read back from the header that has just been rewritten
    let ip := frame.daddr o
    let frame := frame.store16 o 36 (o.htons backend.port)
    let newBackend : BackendInfo := ⟨ip, frame.dest o⟩
    let bkey : BackendKey := ⟨bindaddr, backend.port.toUInt32⟩
    let frame := frame.store16 o 24 (ipv4Csum csumDiff frame)
    (.tx, frame, maps.updateBack bkey newBackend)

/-! ## What the program does -/

variable {o : ByteOrder} {csumDiff : List UInt8 → UInt64} {maps : Maps} {frame : Frame}

/-- A new destination, with the port as it is in memory, and the header checksum for it. -/
def rewrite (o : ByteOrder) (csumDiff : List UInt8 → UInt64) (frame : Frame) (ip : UInt32)
    (port : UInt16) : Frame :=
  let frame := (frame.store32 o 30 ip).store16 o 36 port
  frame.store16 o 24 (ipv4Csum csumDiff frame)

/-- What is stored for the way back from a backend. -/
def remembered (o : ByteOrder) (backend : BackendInfo) : BackendInfo :=
  ⟨backend.ip, o.htons backend.port⟩

/-- Only frames that hold all three headers are not passed on. -/
theorem length_of_route {r : Route} (h : route o maps frame = r) (hr : r ≠ .pass) :
    54 ≤ frame.length := by
  have htcp : isTcp o frame = true := by
    by_contra hnot
    exact hr (h.symm.trans (if_neg hnot))
  simp only [isTcp, Bool.and_eq_true, decide_eq_true_eq] at htcp
  exact htcp.2

/-- A frame goes back by an entry of `backend_back_map`. -/
theorem lookup_of_back {b : BackendInfo} (h : route o maps frame = .back b) :
    maps.backendBackMap.lookup ⟨frame.daddr o, (o.htons (frame.source o)).toUInt32⟩ = some b := by
  unfold route at h
  split at h
  · split at h
    · rename_i b' hb'
      rw [hb', Route.back.inj h]
    · split at h
      · nomatch h
      · nomatch h
  · nomatch h

/-- A frame is forwarded to an entry of `backend_map`. -/
theorem lookup_of_forward {b : BackendInfo} (h : route o maps frame = .forward b) :
    maps.backendMap.lookup (o.htons (frame.dest o)).toUInt32 = some b := by
  unfold route at h
  split at h
  · split at h
    · nomatch h
    · split at h
      · rename_i b' hb'
        rw [hb', Route.forward.inj h]
      · nomatch h
  · nomatch h

theorem daddr_store32 (h : 34 ≤ frame.length) (ip : UInt32) :
    (frame.store32 o 30 ip).daddr o = ip := by
  rw [daddr, load32, store32, pairAt_setPair_ne (by omega), pairAt_setPair (by omega),
    pairAt_setPair (by rw [length_setPair]; omega), ByteOrder.word32_bytes32]

theorem dest_store16 (h : 38 ≤ frame.length) (port : UInt16) :
    (frame.store16 o 36 port).dest o = port := by
  rw [dest, load16, store16, pairAt_setPair (by omega), ByteOrder.word16_bytes16]

/-- **The program** passes a frame on, or rewrites its destination; what it stores of a connection it
forwards is the backend. -/
theorem xdpLoadBalancer_eq : xdpLoadBalancer o csumDiff maps frame =
    match route o maps frame with
    | .pass => (.pass, frame, maps)
    | .back b => (.tx, rewrite o csumDiff frame b.ip (o.htons b.port), maps)
    | .forward b => (.tx, rewrite o csumDiff frame b.ip (o.htons b.port),
        maps.updateBack ⟨frame.daddr o, b.port.toUInt32⟩ (remembered o b)) := by
  unfold xdpLoadBalancer
  split
  · rfl
  · rfl
  · rename_i b hroute
    have hlength := length_of_route hroute Route.noConfusion
    have haddr : (frame.store32 o 30 b.ip).daddr o = b.ip := daddr_store32 (by omega) b.ip
    have hport (port : UInt16) :
        ((frame.store32 o 30 b.ip).store16 o 36 port).dest o = port := by
      apply dest_store16
      rw [length_store32]
      omega
    simp only [haddr, hport, rewrite, remembered]

/-- A frame that is sent on has been given the address and the port of one backend. -/
theorem rewrite_of_tx {maps' : Maps} {out : Frame}
    (htx : xdpLoadBalancer o csumDiff maps frame = (.tx, out, maps')) :
    ∃ b, (route o maps frame = .back b ∨ route o maps frame = .forward b) ∧
      out = rewrite o csumDiff frame b.ip (o.htons b.port) := by
  rw [xdpLoadBalancer_eq] at htx
  rcases hroute : route o maps frame with _ | b | b
  · rw [hroute] at htx
    nomatch (Prod.mk.inj htx).1
  · rw [hroute] at htx
    exact ⟨b, Or.inl rfl, (Prod.mk.inj (Prod.mk.inj htx).2).1.symm⟩
  · rw [hroute] at htx
    exact ⟨b, Or.inr rfl, (Prod.mk.inj (Prod.mk.inj htx).2).1.symm⟩

/-- It is one backend that has been looked up. -/
theorem backend_unique {b b' : BackendInfo}
    (h : route o maps frame = .back b ∨ route o maps frame = .forward b)
    (h' : route o maps frame = .back b' ∨ route o maps frame = .forward b') : b' = b := by
  rcases h with h | h
  · rw [h] at h'
    exact (h'.resolve_right Route.noConfusion |> Route.back.inj).symm
  · rw [h] at h'
    exact (h'.resolve_left Route.noConfusion |> Route.forward.inj).symm

/-! ### The new frame -/

section Rewrite

variable {ip : UInt32} {port : UInt16}

theorem rewrite_eq : rewrite o csumDiff frame ip port =
    ((((frame.setPair 30 (o.bytes32 ip).1).setPair 32 (o.bytes32 ip).2).setPair 36
      (o.bytes16 port)).setPair 24 (o.bytes16 (ipv4Csum csumDiff
        ((frame.store32 o 30 ip).store16 o 36 port)))) := rfl

@[simp]
theorem length_rewrite : (rewrite o csumDiff frame ip port).length = frame.length := by
  simp only [rewrite_eq, length_setPair]

/-- Only the checksum, the address and the port are touched. -/
theorem byteAt_rewrite {j : ℕ} (hcheck : j ≠ 24 ∧ j ≠ 25) (haddr : j < 30 ∨ 33 < j)
    (hport : j ≠ 36 ∧ j ≠ 37) :
    (rewrite o csumDiff frame ip port).byteAt j = frame.byteAt j := by
  rw [rewrite_eq, byteAt_setPair_ne hcheck.1 hcheck.2, byteAt_setPair_ne hport.1 hport.2,
    byteAt_setPair_ne (by omega) (by omega), byteAt_setPair_ne (by omega) (by omega)]

@[simp]
theorem ihl_rewrite : (rewrite o csumDiff frame ip port).ihl = frame.ihl := by
  rw [Frame.ihl, byteAt_rewrite (by omega) (by omega) (by omega)]
  rfl

@[simp]
theorem tcp_rewrite : (rewrite o csumDiff frame ip port).tcp = frame.tcp := by
  rw [Frame.tcp, ihl_rewrite]
  rfl

theorem pairAt_rewrite {j : ℕ} (hcheck : j + 1 < 24 ∨ 25 < j) (haddr : j + 1 < 30 ∨ 33 < j)
    (hport : j + 1 < 36 ∨ 37 < j) :
    (rewrite o csumDiff frame ip port).pairAt j = frame.pairAt j := by
  refine Prod.ext ?_ ?_
  · exact byteAt_rewrite (by omega) (by omega) (by omega)
  · exact byteAt_rewrite (by omega) (by omega) (by omega)

theorem pairAt_rewrite_addr (h : 54 ≤ frame.length) (ip : UInt32) (port : UInt16) :
    (rewrite o csumDiff frame ip port).pairAt 30 = (o.bytes32 ip).1 ∧
      (rewrite o csumDiff frame ip port).pairAt 32 = (o.bytes32 ip).2 := by
  rw [rewrite_eq, pairAt_setPair_ne (by omega), pairAt_setPair_ne (by omega),
    pairAt_setPair_ne (by omega), pairAt_setPair (by omega), pairAt_setPair_ne (by omega),
    pairAt_setPair_ne (by omega), pairAt_setPair (by rw [length_setPair]; omega)]
  exact ⟨rfl, rfl⟩

theorem pairAt_rewrite_port (h : 54 ≤ frame.length) :
    (rewrite o csumDiff frame ip port).pairAt 36 = o.bytes16 port := by
  rw [rewrite_eq, pairAt_setPair_ne (by omega),
    pairAt_setPair (by rw [length_setPair, length_setPair]; omega)]

theorem daddr_rewrite (h : 54 ≤ frame.length) : (rewrite o csumDiff frame ip port).daddr o = ip := by
  rcases pairAt_rewrite_addr h ip port with ⟨h₁, h₂⟩
  rw [daddr, load32, h₁, h₂]
  exact ByteOrder.word32_bytes32 o ip

end Rewrite

end Accumulation.Xdp
