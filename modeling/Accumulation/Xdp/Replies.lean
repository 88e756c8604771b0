/-
# Accumulation.Xdp.Replies — where the load balancer sends the replies of its backends.

`Traffic` is a run of frames through the program, with the connections it has forwarded.  A reply is
found again by the address it is sent to and the backend's port; the client takes no part in the
key.  What is stored under the key are the address and port the request has just been given, which
are the backend's (`Traffic.backs_run`): the reply goes back to the backend it comes from, or to
another one, and with its port turned round.  So a client gets its reply only where it has a
backend's address (`replies_return_iff`).
-/
import Accumulation.Lib.Run
import Accumulation.Xdp.LoadBalancer

namespace Accumulation.Xdp

open Accumulation.Lib.Run Accumulation.Xdp.Frame

/-! ## Connections -/

/-- An address and a port, as they are in memory. -/
structure Endpoint where
  addr : UInt32
  port : UInt16
  deriving DecidableEq, Repr

namespace Frame

variable (o : ByteOrder) (frame : Frame)

/-- The frame holds an IP header and the TCP header behind it. -/
def Whole : Prop := 5 ≤ frame.ihl ∧ frame.tcp + 20 ≤ frame.length

instance : Decidable frame.Whole := inferInstanceAs (Decidable (_ ∧ _))

def sender : Endpoint := ⟨frame.saddr o, frame.load16 o frame.tcp⟩

def receiver : Endpoint := ⟨frame.daddr o, frame.load16 o (frame.tcp + 2)⟩

end Frame

structure Connection where
  client : Endpoint
  vip : UInt32
  backend : Endpoint
  deriving DecidableEq, Repr

/-- A frame from the backend to the address the client asked and the port it asked from. -/
def Connection.Reply (o : ByteOrder) (c : Connection) (frame : Frame) : Prop :=
  frame.Whole ∧ frame.sender o = c.backend ∧ frame.daddr o = c.vip ∧
    (frame.receiver o).port = c.client.port

/-! ## Runs of frames -/

structure Traffic where
  maps : Maps
  /-- the connections that have been forwarded -/
  forwarded : List Connection

namespace Traffic

variable (o : ByteOrder) (csumDiff : List UInt8 → UInt64)

/-- The connection of a frame, if it is forwarded. -/
def connection (s : Traffic) (frame : Frame) : Option Connection :=
  match route o s.maps frame with
  | .forward _ =>
    if frame.Whole then
      some ⟨frame.sender o, frame.daddr o,
        (xdpLoadBalancer o csumDiff s.maps frame).2.1.receiver o⟩
    else none
  | _ => none

def step (s : Traffic) (frame : Frame) : Option Traffic :=
  some ⟨(xdpLoadBalancer o csumDiff s.maps frame).2.2,
    s.forwarded ++ (s.connection o csumDiff frame).toList⟩

/-- Nothing has been forwarded. -/
def init (backendMap : AList fun _ : UInt32 => BackendInfo) : Traffic := ⟨⟨backendMap, ∅⟩, []⟩

/-- If the frame is a reply and sent on, it is sent to the client that asked. -/
def Returned (s : Traffic) (frame : Frame) : Prop :=
  ∀ c ∈ s.forwarded, c.Reply o frame → (xdpLoadBalancer o csumDiff s.maps frame).1 = .tx →
    (xdpLoadBalancer o csumDiff s.maps frame).2.1.receiver o = c.client

/-- The address the maps have for a reply is the client's.  Behind IP options the port is left as it
is. -/
def ClientIsBackend (s : Traffic) (frame : Frame) : Prop :=
  ∀ c ∈ s.forwarded, c.Reply o frame →
    match route o s.maps frame with
    | .pass => True
    | .back b => ∃ key backend, s.maps.backendMap.lookup key = some backend ∧
        b = remembered o backend ∧ c.client.addr = backend.ip ∧
        (frame.ihl = 5 → c.client.port = backend.port)
    | .forward backend => c.client.addr = backend.ip ∧
        (frame.ihl = 5 → c.client.port = o.htons backend.port)

/-- What is stored for the way back are backends. -/
def Backs (s : Traffic) : Prop :=
  ∀ bkey b, s.maps.backendBackMap.lookup bkey = some b →
    ∃ key backend, s.maps.backendMap.lookup key = some backend ∧ b = remembered o backend

end Traffic

variable {o : ByteOrder} {csumDiff : List UInt8 → UInt64}

theorem BackMap.lookup_update {map : BackMap} {key key' : BackendKey} {value b : BackendInfo}
    (h : (map.update key value).lookup key' = some b) : b = value ∨ map.lookup key' = some b := by
  unfold BackMap.update at h
  split at h
  · exact Or.inr h
  · by_cases hkey : key' = key
    · rw [hkey, AList.lookup_insert] at h
      exact Or.inl (Option.some.inj h).symm
    · rw [AList.lookup_insert_ne hkey] at h
      exact Or.inr h

/-- **One step**: what the program stores are backends. -/
theorem Traffic.backs_step {s t : Traffic} {frame : Frame} (h : s.Backs o)
    (hstep : s.step o csumDiff frame = some t) : t.Backs o := by
  obtain rfl := Option.some.inj hstep
  unfold Backs
  rw [xdpLoadBalancer_eq]
  rcases hroute : route o s.maps frame with _ | b | b
  · exact h
  · exact h
  · have hforward := lookup_of_forward hroute
    intro bkey b' hb'
    rcases BackMap.lookup_update hb' with rfl | hold
    · exact ⟨_, b, hforward, rfl⟩
    · exact h bkey b' hold

/-- **Every run** stores backends only. -/
theorem Traffic.backs_run (backendMap : AList fun _ : UInt32 => BackendInfo)
    (frames : List Frame) :
    Always (Traffic.step o csumDiff) (Traffic.Backs o) (Traffic.init backendMap) frames := by
  apply always_of_step
  · intro s frame t h hstep
    exact Traffic.backs_step h hstep
  · intro bkey b hb
    nomatch hb

/-! ## Where a frame goes -/

theorem receiver_rewrite {frame : Frame} (hwhole : frame.Whole) (hlength : 54 ≤ frame.length)
    {ip : UInt32} {port : UInt16} : (rewrite o csumDiff frame ip port).receiver o =
      ⟨ip, if frame.ihl = 5 then port else (frame.receiver o).port⟩ := by
  rw [receiver, daddr_rewrite hlength, tcp_rewrite]
  congr 1
  split
  · rename_i h
    have htcp' : frame.tcp + 2 = 36 := by rw [Frame.tcp, h]
    rw [htcp', load16, pairAt_rewrite_port hlength, ByteOrder.word16_bytes16]
  · rename_i h
    have hbehind : 38 < frame.tcp + 2 := by
      have hihl' := hwhole.1
      unfold Frame.tcp
      omega
    rw [load16, pairAt_rewrite (by omega) (by omega) (by omega)]
    rfl

/-- Where a reply is sent to, for the address and port the maps have. -/
theorem receiver_eq_client {frame : Frame} {c : Connection} (hreply : c.Reply o frame)
    (hlength : 54 ≤ frame.length) {ip : UInt32} {port : UInt16} :
    (rewrite o csumDiff frame ip port).receiver o = c.client ↔
      c.client.addr = ip ∧ (frame.ihl = 5 → c.client.port = port) := by
  rcases c with ⟨⟨addr, cport⟩, vip, backend⟩
  rcases hreply with ⟨hwhole, -, -, hport⟩
  rw [receiver_rewrite hwhole hlength, Endpoint.mk.injEq]
  apply and_congr eq_comm
  split
  · rename_i h
    exact ⟨fun heq _ => heq.symm, fun himp => (himp h).symm⟩
  · rename_i h
    exact ⟨fun _ hihl => absurd hihl h, fun _ => hport⟩

/-- Under the invariant, a reply returns exactly where the client has a backend's address. -/
theorem Traffic.returned_iff {s : Traffic} (hbacks : s.Backs o) (frame : Frame) :
    s.Returned o csumDiff frame ↔ s.ClientIsBackend o frame := by
  unfold Returned ClientIsBackend
  refine forall_congr' fun c => forall_congr' fun _ => forall_congr' fun hreply => ?_
  rw [xdpLoadBalancer_eq]
  rcases hroute : route o s.maps frame with _ | b | b
  · exact ⟨fun _ => trivial, fun _ h => (nomatch h)⟩
  · have hlength := length_of_route hroute Route.noConfusion
    rcases hbacks _ b (lookup_of_back hroute) with ⟨key, backend, hlookup, rfl⟩
    show (_ → (rewrite o csumDiff frame backend.ip (o.htons (o.htons backend.port))).receiver o =
      c.client) ↔ _
    rw [ByteOrder.htons_htons, receiver_eq_client hreply hlength]
    constructor
    · intro h
      rcases h rfl with ⟨haddr, hport⟩
      exact ⟨key, backend, hlookup, rfl, haddr, hport⟩
    · rintro ⟨key', backend', -, hsame, haddr, hport⟩ -
      rcases BackendInfo.mk.inj hsame with ⟨hip, hports⟩
      have hports' := congrArg o.htons hports
      rw [ByteOrder.htons_htons, ByteOrder.htons_htons] at hports'
      exact ⟨haddr.trans hip.symm, fun h => (hport h).trans hports'.symm⟩
  · have hlength := length_of_route hroute Route.noConfusion
    show (_ → (rewrite o csumDiff frame b.ip (o.htons b.port)).receiver o = c.client) ↔ _
    rw [receiver_eq_client hreply hlength]
    exact ⟨fun h => h rfl, fun h _ => h⟩

/-- **In every run of frames**, the replies return to the clients exactly where these have the
address of the backend they are taken for. -/
theorem replies_return_iff (o : ByteOrder) (csumDiff : List UInt8 → UInt64)
    (backendMap : AList fun _ : UInt32 => BackendInfo) (frames : List Frame) :
    Along (Traffic.step o csumDiff) (Traffic.Returned o csumDiff) (Traffic.init backendMap) frames ↔
      Along (Traffic.step o csumDiff) (Traffic.ClientIsBackend o) (Traffic.init backendMap)
        frames :=
  along_congr (fun _ frame hbacks => Traffic.returned_iff hbacks frame)
    (Traffic.backs_run backendMap frames)

/-! ## A reply that goes astray -/

/-- A frame without options from one address and port to another. -/
def segmentFrom (src : UInt8 × UInt8 × UInt8 × UInt8) (sport : UInt8 × UInt8)
    (dst : UInt8 × UInt8 × UInt8 × UInt8) (dport : UInt8 × UInt8) : Frame :=
  List.replicate 12 0 ++ [0x08, 0x00] ++
    [0x45, 0, 0, 40, 0, 0, 0, 0, 64, 6, 0, 0, src.1, src.2.1, src.2.2.1, src.2.2.2,
      dst.1, dst.2.1, dst.2.2.1, dst.2.2.2] ++
    [sport.1, sport.2, dport.1, dport.2, 0, 0, 0, 0, 0, 0, 0, 0, 0x50, 0x10, 0x10, 0, 0, 0, 0, 0]

/-- The reply of `10.3.0.3:8080` to a request that `10.3.0.1:4660` has sent to `10.3.0.2:80` is sent
back to `10.3.0.3`. -/
theorem reply_not_returned :
    ¬ Along (Traffic.step .little csumPartial) (Traffic.Returned .little csumPartial)
      (Traffic.init (AList.insert 80 ⟨0x0300030a, 8080⟩ ∅))
      [segmentFrom (10, 3, 0, 1) (0x12, 0x34) (10, 3, 0, 2) (0, 80),
        segmentFrom (10, 3, 0, 3) (0x1f, 0x90) (10, 3, 0, 2) (0x12, 0x34)] := by
  intro h
  have hreturned := (h.2 _ rfl).1
    ⟨⟨0x0100030a, 0x3412⟩, 0x0200030a, ⟨0x0300030a, 0x901f⟩⟩ (by decide)
    ⟨by decide, by decide, by decide, by decide⟩ (by decide)
  have hastray : ¬ (⟨0x0300030a, 0x1f90⟩ : Endpoint) = ⟨0x0100030a, 0x3412⟩ := by decide
  exact hastray hreturned

end Accumulation.Xdp
