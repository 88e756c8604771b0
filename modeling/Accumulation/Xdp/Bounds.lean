/-
# Accumulation.Xdp.Bounds — the memory the load balancer touches.

The program gets a frame of any length, and checks against its end before it looks at a header.  Here
it stands once more, load by load and store by store, over a memory where what lies outside the frame
cannot be loaded or stored.  It never does either: it comes to the same end as `xdpLoadBalancer`
(`program_eq`), which does not ask.

So every run of frames goes through, and leaves of each frame all but the checksum, the address and
the port (`frames_go_through`).
-/
import Accumulation.Lib.Refinement
import Accumulation.Xdp.LoadBalancer

namespace Accumulation.Xdp

open Accumulation.Lib.Refinement Accumulation.Xdp.Frame

/-! ## Memory -/

/-- What runs over a frame and the maps, and stops at an access outside the frame. -/
abbrev Access := StateT (Frame × Maps) Option

namespace Access

/-- The bytes of an access, if they are in the frame. -/
def within (i n : ℕ) : Access Frame := fun s =>
  if i + n ≤ s.1.length then some (s.1, s) else none

def load8 (i : ℕ) : Access UInt8 := do
  let frame ← within i 1
  return frame.byteAt i

def load16 (o : ByteOrder) (i : ℕ) : Access UInt16 := do
  let frame ← within i 2
  return frame.load16 o i

def load32 (o : ByteOrder) (i : ℕ) : Access UInt32 := do
  let frame ← within i 4
  return frame.load32 o i

def loadBytes (i n : ℕ) : Access (List UInt8) := do
  let frame ← within i n
  return (frame.drop i).take n

def store16 (o : ByteOrder) (i : ℕ) (v : UInt16) : Access Unit := do
  let frame ← within i 2
  modify fun s => (frame.store16 o i v, s.2)

def store32 (o : ByteOrder) (i : ℕ) (v : UInt32) : Access Unit := do
  let frame ← within i 4
  modify fun s => (frame.store32 o i v, s.2)

/-- `data_end - data` -/
def dataEnd : Access ℕ := fun s => some (s.1.length, s)

def maps : Access Maps := fun s => some (s.2, s)

def updateBack (key : BackendKey) (value : BackendInfo) : Access Unit :=
  modify fun s => (s.1, s.2.updateBack key value)

end Access

/-! ## The program -/

section Program

open Access

variable (o : ByteOrder) (csumDiff : List UInt8 → UInt64)

/-- `ipv4_csum`, with the store of its result. -/
def setIpv4Csum : Access Unit := do
  store16 o 24 0
  let header ← loadBytes 14 20
  store16 o 24 (csumFoldHelper (csumDiff header))

/-- What the program looks at only to print it. -/
def printAddresses : Access Unit := do
  let _ ← load32 o 30
  let _ ← load32 o 26

/-- `xdp_load_balancer`, access by access -/
def program : Access Action := do
  if 14 > (← dataEnd) then return .pass
  else if (← load16 o 12) ≠ o.htons 0x0800 then return .pass
  else if 14 + 20 > (← dataEnd) then return .pass
  else if (← load8 23) ≠ 6 then return .pass
  else
    let bindaddr ← load32 o 30
    if 14 + 20 + 20 > (← dataEnd) then return .pass
    else
      let key := (o.htons (← load16 o 36)).toUInt32
      let bindport := (o.htons (← load16 o 34)).toUInt32
      printAddresses o
      match (← maps).backendBackMap.lookup ⟨bindaddr, bindport⟩ with
      | some backBackend =>
        store32 o 30 backBackend.ip
        store16 o 36 (o.htons backBackend.port)
        setIpv4Csum o csumDiff
        return .tx
      | none =>
        match (← maps).backendMap.lookup key with
        | none => return .pass
        | some backend =>
          printAddresses o
          store32 o 30 backend.ip
          let ip ← load32 o 30
          store16 o 36 (o.htons backend.port)
          let port ← load16 o 36
          setIpv4Csum o csumDiff
          updateBack ⟨bindaddr, backend.port.toUInt32⟩ ⟨ip, port⟩
          return .tx

end Program

/-! ## Inside the frame -/

namespace Access

variable {o : ByteOrder} {frame : Frame} {m : Maps} {i : ℕ}

/-- What an access that succeeds is followed by. -/
theorem bind_of {β γ : Type} {x : Access β} {f : β → Access γ} {s s' : Frame × Maps} {b : β}
    (h : x s = some (b, s')) : (x >>= f) s = f b s' := by
  show (x s).bind _ = _
  rw [h]
  rfl

theorem within_eq {n : ℕ} (h : i + n ≤ frame.length) :
    within i n (frame, m) = some (frame, frame, m) := if_pos h

theorem dataEnd_eq : dataEnd (frame, m) = some (frame.length, frame, m) := rfl

theorem maps_eq : maps (frame, m) = some (m, frame, m) := rfl

theorem load8_eq (h : i + 1 ≤ frame.length) :
    load8 i (frame, m) = some (frame.byteAt i, frame, m) := bind_of (within_eq h)

theorem load16_eq (h : i + 2 ≤ frame.length) :
    load16 o i (frame, m) = some (frame.load16 o i, frame, m) := bind_of (within_eq h)

theorem load32_eq (h : i + 4 ≤ frame.length) :
    load32 o i (frame, m) = some (frame.load32 o i, frame, m) := bind_of (within_eq h)

theorem loadBytes_eq {n : ℕ} (h : i + n ≤ frame.length) :
    loadBytes i n (frame, m) = some ((frame.drop i).take n, frame, m) := bind_of (within_eq h)

theorem store16_eq (v : UInt16) (h : i + 2 ≤ frame.length) :
    store16 o i v (frame, m) = some ((), frame.store16 o i v, m) := bind_of (within_eq h)

theorem store32_eq (v : UInt32) (h : i + 4 ≤ frame.length) :
    store32 o i v (frame, m) = some ((), frame.store32 o i v, m) := bind_of (within_eq h)

end Access

open Access

variable {o : ByteOrder} {csumDiff : List UInt8 → UInt64} {frame : Frame} {m : Maps}

/-- The second of two stores stays. -/
theorem setPair_setPair (i : ℕ) (a b : UInt8 × UInt8) :
    (frame.setPair i a).setPair i b = frame.setPair i b := by
  have hne : i + 1 ≠ i := by omega
  unfold setPair
  rw [List.set_comm a.2 b.1 hne, List.set_set, List.set_set]

@[simp]
theorem length_store16 {i : ℕ} (v : UInt16) : (frame.store16 o i v).length = frame.length :=
  length_setPair

theorem setIpv4Csum_eq (h : 34 ≤ frame.length) : setIpv4Csum o csumDiff (frame, m) =
    some ((), frame.store16 o 24 (ipv4Csum csumDiff frame), m) := by
  have hzero : frame.store16 o 24 0 = frame.setPair 24 (0, 0) := by cases o <;> rfl
  rw [setIpv4Csum, bind_of (store16_eq 0 (by omega)),
    bind_of (loadBytes_eq (by rw [length_store16]; omega)),
    store16_eq _ (by rw [length_store16]; omega), hzero, Frame.store16, setPair_setPair]
  rfl

theorem printAddresses_eq (h : 34 ≤ frame.length) :
    printAddresses o (frame, m) = some ((), frame, m) := by
  rw [printAddresses, bind_of (load32_eq (by omega)), bind_of (load32_eq (by omega))]
  rfl

theorem xdpLoadBalancer_of_not_tcp (h : ¬ isTcp o frame = true) :
    xdpLoadBalancer o csumDiff m frame = (.pass, frame, m) := by
  have hroute : route o m frame = .pass := if_neg h
  rw [xdpLoadBalancer_eq, hroute]

/-- The program behind its tests. -/
theorem program_of_tcp (h : isTcp o frame = true) : program o csumDiff (frame, m) =
    some (xdpLoadBalancer o csumDiff m frame) := by
  have htests := h
  simp only [isTcp, Bool.and_eq_true, decide_eq_true_eq] at htests
  obtain ⟨⟨⟨⟨heth, hproto⟩, hip⟩, hprotocol⟩, htcp⟩ := htests
  have hproto' : ¬ frame.load16 o 12 ≠ o.htons 0x0800 := not_not.mpr hproto
  have hprotocol' : ¬ frame.byteAt 23 ≠ 6 := not_not.mpr hprotocol
  rw [program, bind_of dataEnd_eq, if_neg (by omega), bind_of (load16_eq (by omega)),
    if_neg hproto', bind_of dataEnd_eq, if_neg (by omega),
    bind_of (load8_eq (by omega)), if_neg hprotocol', bind_of (load32_eq (by omega)),
    bind_of dataEnd_eq, if_neg (by omega), bind_of (load16_eq (by omega)),
    bind_of (load16_eq (by omega)), bind_of (printAddresses_eq (by omega)), bind_of maps_eq]
  rcases hback : m.backendBackMap.lookup
    ⟨frame.daddr o, (o.htons (frame.source o)).toUInt32⟩ with _ | backBackend
  · have hback' : m.backendBackMap.lookup
        ⟨frame.load32 o 30, (o.htons (frame.load16 o 34)).toUInt32⟩ = none := hback
    simp only [hback']
    rw [bind_of maps_eq]
    rcases hforward : m.backendMap.lookup (o.htons (frame.dest o)).toUInt32 with _ | backend
    · have hroute : route o m frame = .pass := by
        simp only [route, if_pos h, hback, hforward]
      have hforward' : m.backendMap.lookup (o.htons (frame.load16 o 36)).toUInt32 = none := hforward
      simp only [hforward']
      rw [xdpLoadBalancer, hroute]
      rfl
    · have hroute : route o m frame = .forward backend := by
        simp only [route, if_pos h, hback, hforward]
      have hforward' : m.backendMap.lookup (o.htons (frame.load16 o 36)).toUInt32 = some backend :=
        hforward
      have hlength : (frame.store32 o 30 backend.ip).length = frame.length := length_store32 _
      have hlength' : ((frame.store32 o 30 backend.ip).store16 o 36 (o.htons backend.port)).length =
          frame.length := (length_store16 _).trans hlength
      simp only [hforward']
      rw [bind_of (printAddresses_eq (by omega)), bind_of (store32_eq _ (by omega)),
        bind_of (load32_eq (by omega)), bind_of (store16_eq _ (by omega)),
        bind_of (load16_eq (by omega)), bind_of (setIpv4Csum_eq (by omega)), xdpLoadBalancer, hroute]
      rfl
  · have hroute : route o m frame = .back backBackend := by
      simp only [route, if_pos h, hback]
    have hback' : m.backendBackMap.lookup
        ⟨frame.load32 o 30, (o.htons (frame.load16 o 34)).toUInt32⟩ = some backBackend := hback
    have hlength : (frame.store32 o 30 backBackend.ip).length = frame.length := length_store32 _
    have hlength' : ((frame.store32 o 30 backBackend.ip).store16 o 36
        (o.htons backBackend.port)).length = frame.length := (length_store16 _).trans hlength
    simp only [hback']
    rw [bind_of (store32_eq _ (by omega)), bind_of (store16_eq _ (by omega)),
      bind_of (setIpv4Csum_eq (by omega)), xdpLoadBalancer, hroute]
    rfl

/-- **The program never leaves the frame**, whatever its length and its bytes. -/
theorem program_eq (frame : Frame) (m : Maps) :
    program o csumDiff (frame, m) = some (xdpLoadBalancer o csumDiff m frame) := by
  by_cases htcp : isTcp o frame = true
  · exact program_of_tcp htcp
  · rw [xdpLoadBalancer_of_not_tcp htcp, program, bind_of (dataEnd_eq)]
    simp only [isTcp, Bool.and_eq_true, decide_eq_true_eq] at htcp
    -- each test is made behind those before it
    by_cases heth : 14 > frame.length
    · rw [if_pos heth]
      rfl
    rw [if_neg heth, bind_of (load16_eq (by omega))]
    by_cases hproto : frame.load16 o 12 ≠ o.htons 0x0800
    · rw [if_pos hproto]
      rfl
    rw [if_neg hproto, bind_of dataEnd_eq]
    by_cases hip : 14 + 20 > frame.length
    · rw [if_pos hip]
      rfl
    rw [if_neg hip, bind_of (load8_eq (by omega))]
    by_cases hprotocol : frame.byteAt 23 ≠ 6
    · rw [if_pos hprotocol]
      rfl
    rw [if_neg hprotocol, bind_of (load32_eq (by omega)), bind_of dataEnd_eq, if_pos]
    · rfl
    · by_contra hlong
      exact htcp ⟨⟨⟨⟨by omega, not_not.mp hproto⟩, by omega⟩, not_not.mp hprotocol⟩, by omega⟩

/-! ## Runs of frames -/

/-- A frame through the program. -/
def frameStep (o : ByteOrder) (csumDiff : List UInt8 → UInt64) (m : Maps) (frame : Frame) :
    Option ((Action × Frame) × Maps) :=
  (program o csumDiff (frame, m)).map fun out => ((out.1, out.2.1), out.2.2)

/-- What the program leaves of a frame and of the maps. -/
structure GoesThrough (m : Maps) (frame : Frame) (out : Action × Frame) (m' : Maps) : Prop where
  length : out.2.length = frame.length
  /-- the rest is the checksum, the address and the port -/
  untouched : ∀ j, j ≠ 24 ∧ j ≠ 25 → j < 30 ∨ 33 < j → j ≠ 36 ∧ j ≠ 37 →
    out.2.byteAt j = frame.byteAt j
  pass : out.1 = .pass → out.2 = frame ∧ m' = m
  backends : m'.backendMap = m.backendMap
  remembers : ∀ key, m.backendBackMap.lookup key ≠ none → m'.backendBackMap.lookup key ≠ none
  room : m.backendBackMap.keys.length ≤ maxBackends → m'.backendBackMap.keys.length ≤ maxBackends

theorem BackMap.length_update {map : BackMap} (key : BackendKey) (value : BackendInfo)
    (h : map.keys.length ≤ maxBackends) : (map.update key value).keys.length ≤ maxBackends := by
  unfold BackMap.update
  split
  · exact h
  · rename_i hroom
    rw [AList.keys_insert, List.length_cons, List.length_erase]
    split
    · rename_i hmem
      have hpos : 0 < map.keys.length := List.length_pos_of_mem hmem
      omega
    · rename_i hmem
      have hnone : map.lookup key = none := AList.lookup_eq_none.mpr hmem
      have hlt : ¬ maxBackends ≤ map.keys.length := fun hfull => hroom ⟨hnone, hfull⟩
      omega

theorem BackMap.update_remembers {map : BackMap} (key : BackendKey) (value : BackendInfo)
    {key' : BackendKey} (h : map.lookup key' ≠ none) : (map.update key value).lookup key' ≠ none := by
  unfold BackMap.update
  split
  · exact h
  · by_cases hkey : key' = key
    · rw [hkey, AList.lookup_insert]
      exact Option.some_ne_none value
    · rwa [AList.lookup_insert_ne hkey]

/-- **One frame**. -/
theorem goesThrough (m : Maps) (frame : Frame) :
    ∃ out m', frameStep o csumDiff m frame = some (out, m') ∧ GoesThrough m frame out m' := by
  rw [frameStep, program_eq]
  refine ⟨_, _, rfl, ?_⟩
  rw [xdpLoadBalancer_eq]
  rcases route o m frame with _ | b | b
  · exact ⟨rfl, fun _ _ _ _ => rfl, fun _ => ⟨rfl, rfl⟩, rfl, fun _ h => h, fun h => h⟩
  · exact ⟨length_rewrite, fun _ => byteAt_rewrite, Action.noConfusion, rfl, fun _ h => h, fun h => h⟩
  · exact ⟨length_rewrite, fun _ => byteAt_rewrite, Action.noConfusion, rfl,
      fun _ => BackMap.update_remembers _ _, BackMap.length_update _ _⟩

/-- **Every run of frames goes through**: none of them makes the program leave its frame, it does to
each what `xdpLoadBalancer` does, and changes nothing but the checksum, the address and the port.  The
maps stay as large as they may be. -/
theorem frames_go_through (o : ByteOrder) (csumDiff : List UInt8 → UInt64) (m : Maps)
    (hroom : m.backendBackMap.keys.length ≤ maxBackends) (frames : List Frame) :
    ∃ outs m', answers (frameStep o csumDiff) m frames = some (outs, m') ∧
      Trace (fun t frame out u => (out.1, out.2, u) = xdpLoadBalancer o csumDiff t frame ∧
        GoesThrough t frame out u) m frames outs m' ∧
      m'.backendMap = m.backendMap ∧ m'.backendBackMap.keys.length ≤ maxBackends := by
  have hstep : ∀ s t frame, s = t → ∃ out s' t', frameStep o csumDiff s frame = some (out, s') ∧
      ((out.1, out.2, t') = xdpLoadBalancer o csumDiff t frame ∧ GoesThrough t frame out t') ∧
        s' = t' := by
    rintro s t frame rfl
    obtain ⟨out, s', hrun, hthrough⟩ : ∃ out s', frameStep o csumDiff s frame = some (out, s') ∧
      GoesThrough s frame out s' := goesThrough s frame
    have hsame := hrun
    rw [frameStep, program_eq] at hsame
    obtain ⟨hpair, rfl⟩ := Prod.mk.inj (Option.some.inj hsame)
    exact ⟨out, _, _, hrun, ⟨by rw [← hpair], hthrough⟩, rfl⟩
  obtain ⟨outs, m', _, hrun, htrace, rfl⟩ := trace_of_simulation hstep rfl frames
  have hkept := htrace.keeps
    (I := fun t => t.backendMap = m.backendMap ∧ t.backendBackMap.keys.length ≤ maxBackends)
    (C := fun _ => True)
    (fun t frame out u h _ hthrough => ⟨hthrough.2.backends.trans h.1, hthrough.2.room h.2⟩) ⟨rfl, hroom⟩
    (fun _ _ => trivial)
  exact ⟨outs, m', hrun, htrace, hkept⟩

/-- A SYN to port 80. -/
def knock : Frame :=
  List.replicate 12 0 ++ [0x08, 0x00] ++
    [0x45, 0, 0, 40, 0, 0, 0, 0, 64, 6, 0, 0, 10, 3, 0, 1, 10, 3, 0, 2] ++
    [0x12, 0x34, 0, 80, 0, 0, 0, 0, 0, 0, 0, 0, 0x50, 0x02, 0x10, 0, 0, 0, 0, 0]

/-- It goes to a backend twice, and is passed on where it is cut off. -/
theorem frames_go_through_knock : ∃ outs m',
    answers (frameStep .little csumPartial) ⟨AList.insert 80 ⟨0x0300030a, 8080⟩ ∅, ∅⟩
        [knock, knock.take 50, knock] = some (outs, m') ∧
      outs.map Prod.fst = [.tx, .pass, .tx] ∧
      Trace (fun t frame out u => (out.1, out.2, u) = xdpLoadBalancer .little csumPartial t frame ∧
        GoesThrough t frame out u) ⟨AList.insert 80 ⟨0x0300030a, 8080⟩ ∅, ∅⟩
        [knock, knock.take 50, knock] outs m' := by
  obtain ⟨outs, m', hrun, htrace, -⟩ := frames_go_through .little csumPartial
    ⟨AList.insert 80 ⟨0x0300030a, 8080⟩ ∅, ∅⟩ (Nat.zero_le _) [knock, knock.take 50, knock]
  refine ⟨outs, m', hrun, ?_, htrace⟩
  have hactions : (answers (frameStep .little csumPartial) ⟨AList.insert 80 ⟨0x0300030a, 8080⟩ ∅, ∅⟩
      [knock, knock.take 50, knock]).map (fun out => out.1.map Prod.fst) =
        some [.tx, .pass, .tx] := by decide
  rw [hrun] at hactions
  exact Option.some.inj hactions

end Accumulation.Xdp
