/-
# Accumulation.Collector.Stats — what a collector counts between two exports.

A collector adds the length of every packet to the record of the packet's endpoint, in `int32`.  So
the record holds the sum of the lengths modulo 2^32 (`Tap.Valid`), and the sum itself as long as that
is below 2^31 (`Tap.Valid.exact_iff_lt`).
-/
import Accumulation.Go.Int
import Accumulation.Lib.Decimal
import Accumulation.Model.Bandwidth

namespace Accumulation.Collector

open Accumulation.Go Accumulation.Model

/-! ## The collector -/

inductive TrafficType
  | all
  | up
  | down
  deriving DecidableEq

/-- `Bandwidth.AddPacketLen` -/
def addLen (b : Bandwidth) (pcapDataLen : Int) : TrafficType → Bandwidth
  | .up => { b with upLen := int32 (b.upLen + pcapDataLen) }
  | .down => { b with downLen := int32 (b.downLen + pcapDataLen) }
  | .all => b

/-- `BandwidthCollector.stats` -/
abbrev Stats := AList fun _ : String => Bandwidth

/-- `addPacketLen` -/
def addPacketLen (stats : Stats) (pcapDataLen : Int) (ip port : String)
    (trafficType : TrafficType) : Stats :=
  let bandwidth := (stats.lookup (ip ++ ":" ++ port)).getD ⟨ip, port, 0, 0, 0⟩
  stats.insert (ip ++ ":" ++ port) (addLen bandwidth (int32 pcapDataLen) trafficType)

/-- The records of the map, over which `ExportAndClean` ranges in any order. -/
def Stats.values (stats : Stats) : List Bandwidth := stats.entries.map Sigma.snd

/-! ## Packets -/

/-- An address and the number of a port; the layers of a packet spell the port in decimal. -/
structure Endpoint where
  ip : String
  port : Nat
  deriving DecidableEq

def Endpoint.key (e : Endpoint) : String := e.ip ++ ":" ++ toString e.port

/-- A captured packet, of length 0..65535, as `loopReadPacket` passes it on. -/
structure Packet where
  len : UInt16
  endpoint : Endpoint
  trafficType : TrafficType
  deriving DecidableEq

/-- The bytes of the packets of one endpoint and direction. -/
def bytes (packets : List Packet) (e : Endpoint) (t : TrafficType) : Int :=
  ((packets.filter fun p => p.endpoint == e && p.trafficType == t).map fun p =>
    (p.len.toNat : Int)).sum

theorem bytes_append (packets : List Packet) (p : Packet) (e : Endpoint) (t : TrafficType) :
    bytes (packets ++ [p]) e t =
      bytes packets e t + if p.endpoint = e ∧ p.trafficType = t then (p.len.toNat : Int) else 0 := by
  simp only [bytes, List.filter_append, List.map_append, List.sum_append]
  congr 1
  by_cases h : p.endpoint = e ∧ p.trafficType = t
  · simp [h]
  · have hskip : (p.endpoint == e && p.trafficType == t) = false := by
      rw [Bool.eq_false_iff, ne_eq, Bool.and_eq_true, beq_iff_eq, beq_iff_eq]
      exact h
    rw [if_neg h, List.filter_singleton, hskip]
    rfl

theorem bytes_nonneg (packets : List Packet) (e : Endpoint) (t : TrafficType) :
    0 ≤ bytes packets e t := by
  apply List.sum_nonneg
  intro n hn
  rcases List.mem_map.mp hn with ⟨p, -, rfl⟩
  exact Int.natCast_nonneg _

theorem bytes_of_notMem {packets : List Packet} {e : Endpoint}
    (h : e ∉ packets.map Packet.endpoint) (t : TrafficType) : bytes packets e t = 0 := by
  have hnone : packets.filter (fun p => p.endpoint == e && p.trafficType == t) = [] := by
    rw [List.filter_eq_nil_iff]
    intro p hp hcon
    rw [Bool.and_eq_true, beq_iff_eq] at hcon
    exact h (List.mem_map.mpr ⟨p, hp, hcon.1⟩)
  rw [bytes, hnone]
  rfl

/-- The record an endpoint should have. -/
def tally (packets : List Packet) (e : Endpoint) : Bandwidth :=
  ⟨e.ip, toString e.port, bytes packets e .up, bytes packets e .down, 0⟩

/-- The record an endpoint has. -/
def wrapped (packets : List Packet) (e : Endpoint) : Bandwidth :=
  ⟨e.ip, toString e.port, int32 (bytes packets e .up), int32 (bytes packets e .down), 0⟩

theorem Endpoint.toList_key (e : Endpoint) :
    e.key.toList = e.ip.toList ++ ':' :: Nat.toDigits 10 e.port := by
  rw [key, Nat.toString_eq_ofList_toDigits, String.toList_append, String.toList_append,
    String.toList_ofList, String.toList_ofList, List.append_assoc, List.singleton_append]

theorem colon_notMem (port : Nat) : ':' ∉ (Nat.toDigits 10 port).reverse := by
  rw [List.mem_reverse]
  intro h
  have hdigit := Nat.isDigit_of_mem_toDigits (by omega) (by omega) h
  exact absurd hdigit (by decide)

/-- The first place of `a` divides a list in one way only. -/
theorem split_unique {α : Type*} {a : α} {x₁ x₂ z₁ z₂ : List α} (h₁ : a ∉ x₁) (h₂ : a ∉ x₂)
    (h : x₁ ++ a :: z₁ = x₂ ++ a :: z₂) : x₁ = x₂ ∧ z₁ = z₂ := by
  rcases List.append_eq_append_iff.mp h with ⟨y, hx, hz⟩ | ⟨y, hx, hz⟩
  · cases y with
    | nil => exact ⟨by rw [hx, List.append_nil], (List.cons.inj hz).2⟩
    | cons b y =>
      obtain rfl := (List.cons.inj hz).1
      exact absurd (hx ▸ List.mem_append_right _ List.mem_cons_self) h₂
  · cases y with
    | nil => exact ⟨by rw [hx, List.append_nil], (List.cons.inj hz).2.symm⟩
    | cons b y =>
      obtain rfl := (List.cons.inj hz).1
      exact absurd (hx ▸ List.mem_append_right _ List.mem_cons_self) h₁

/-- The last colon of a key is the one in front of the port. -/
theorem Endpoint.key_injective : Function.Injective Endpoint.key := by
  rintro ⟨ip, port⟩ ⟨ip', port'⟩ h
  have hlist := congrArg (fun key => key.toList.reverse) h
  simp only [toList_key, List.reverse_append, List.reverse_cons, List.append_assoc,
    List.singleton_append] at hlist
  rcases split_unique (colon_notMem _) (colon_notMem _) hlist with ⟨hport, hip⟩
  have hip : ip = ip' := String.toList_injective (List.reverse_injective hip)
  have hnumber := congrArg (fun digits => Nat.ofDigitChars 10 digits 0)
    (List.reverse_injective hport)
  simp only [Nat.ofDigitChars_ten_toDigits] at hnumber
  rw [hip, hnumber]

/-! ## Between two exports -/

/-- A collector, and the packets added to it since its last export. -/
structure Tap where
  stats : Stats
  since : List Packet

namespace Tap

def new : Tap := ⟨∅, []⟩

def capture (tap : Tap) (p : Packet) : Tap where
  stats := addPacketLen tap.stats p.len.toNat p.endpoint.ip (toString p.endpoint.port) p.trafficType
  since := tap.since ++ [p]

/-- The map holds one record for each endpoint of a packet, with the sums as they are wrapped. -/
structure Valid (tap : Tap) : Prop where
  lookup : ∀ e : Endpoint, tap.stats.lookup e.key =
    if e ∈ tap.since.map Packet.endpoint then some (wrapped tap.since e) else none
  keys : ∀ key ∈ tap.stats, ∃ e : Endpoint, key = e.key

/-- Every record of the map has the sums of the lengths added to it: none of them has wrapped. -/
def Exact (tap : Tap) : Prop :=
  ∀ e : Endpoint, tap.stats.lookup e.key =
    if e ∈ tap.since.map Packet.endpoint then some (tally tap.since e) else none

/-- With this packet its endpoint stays below 2^31 bytes in either direction. -/
def InRange (tap : Tap) (p : Packet) : Prop :=
  bytes (tap.since ++ [p]) p.endpoint .up < 2 ^ 31 ∧
    bytes (tap.since ++ [p]) p.endpoint .down < 2 ^ 31

variable {tap : Tap} {p : Packet}

theorem valid_new : new.Valid where
  lookup _ := rfl
  keys _ h := absurd h (AList.notMem_empty _)

/-- What a packet does to the record of an endpoint. -/
theorem wrapped_append (packets : List Packet) (p : Packet) (e : Endpoint) :
    wrapped (packets ++ [p]) e =
      if p.endpoint = e then addLen (wrapped packets e) (int32 p.len.toNat) p.trafficType
      else wrapped packets e := by
  simp only [wrapped, bytes_append]
  by_cases h : p.endpoint = e
  · rw [if_pos h]
    cases ht : p.trafficType with
    | all => simp [h, addLen]
    | up => simp [h, addLen, int32_add]
    | down => simp [h, addLen, int32_add]
  · simp [h]

/-- **One packet** leaves in the map what it should. -/
theorem Valid.capture (h : tap.Valid) (p : Packet) : (tap.capture p).Valid := by
  have hfound : (tap.stats.lookup p.endpoint.key).getD
      ⟨p.endpoint.ip, toString p.endpoint.port, 0, 0, 0⟩ = wrapped tap.since p.endpoint := by
    rw [h.lookup]
    split
    · rfl
    · rename_i hnew
      -- a new record is the record of an endpoint without packets
      simp only [wrapped, bytes_of_notMem hnew]
      rfl
  have hstats : (tap.capture p).stats = tap.stats.insert p.endpoint.key
      (addLen (wrapped tap.since p.endpoint) (int32 p.len.toNat) p.trafficType) := by
    rw [← hfound]
    rfl
  have hsince : (tap.capture p).since = tap.since ++ [p] := rfl
  constructor
  · intro e
    rw [hstats, hsince, wrapped_append]
    simp only [List.map_append, List.mem_append, List.map_singleton, List.mem_singleton]
    by_cases he : p.endpoint = e
    · subst he
      rw [AList.lookup_insert, if_pos (.inr rfl), if_pos rfl]
    · rw [AList.lookup_insert_ne (fun hkey => he (Endpoint.key_injective hkey).symm), h.lookup,
        if_neg he]
      simp only [Ne.symm he, or_false]
  · intro key hkey
    rw [hstats, AList.mem_insert] at hkey
    rcases hkey with rfl | hkey
    · exact ⟨p.endpoint, rfl⟩
    · exact h.keys key hkey

theorem wrapped_eq_tally_iff (packets : List Packet) (e : Endpoint) :
    wrapped packets e = tally packets e ↔
      bytes packets e .up < 2 ^ 31 ∧ bytes packets e .down < 2 ^ 31 := by
  have hup := bytes_nonneg packets e .up
  have hdown := bytes_nonneg packets e .down
  constructor
  · intro h
    have hUp : int32 (bytes packets e .up) = bytes packets e .up := congrArg Bandwidth.upLen h
    have hDown : int32 (bytes packets e .down) = bytes packets e .down :=
      congrArg Bandwidth.downLen h
    exact ⟨by rw [← hUp]; exact int32_lt _, by rw [← hDown]; exact int32_lt _⟩
  · rintro ⟨hUp, hDown⟩
    rw [wrapped, int32_of_range (by omega) hUp, int32_of_range (by omega) hDown]
    rfl

/-- The map is exact as long as every endpoint has fewer than 2^31 bytes in either direction. -/
theorem Valid.exact_iff_lt (h : tap.Valid) : tap.Exact ↔
    ∀ e, bytes tap.since e .up < 2 ^ 31 ∧ bytes tap.since e .down < 2 ^ 31 := by
  simp only [Exact, h.lookup, ← wrapped_eq_tally_iff]
  constructor
  · intro hexact e
    by_cases he : e ∈ tap.since.map Packet.endpoint
    · have := hexact e
      rw [if_pos he, if_pos he] at this
      exact Option.some.inj this
    · simp only [wrapped, tally, bytes_of_notMem he]
      rfl
  · intro hall e
    rw [hall e]

/-- **One packet** keeps the map exact if and only if it keeps its endpoint below 2^31 bytes. -/
theorem Valid.exact_capture_iff (h : tap.Valid) (hexact : tap.Exact) :
    (tap.capture p).Exact ↔ tap.InRange p := by
  rw [(h.capture p).exact_iff_lt]
  constructor
  · intro hall
    exact hall p.endpoint
  · intro hC e
    by_cases he : p.endpoint = e
    · rw [← he]
      exact hC
    · -- the packet is of another endpoint
      have hsame := h.exact_iff_lt.mp hexact e
      simpa [Tap.capture, bytes_append, he] using hsame

/-- **The export.**  In whatever order the map is gone through, the records are those of the
endpoints of the packets since the last export, one for each. -/
theorem Valid.values_perm (h : tap.Valid) : tap.stats.values.Perm
    ((tap.since.map Packet.endpoint).dedup.map (wrapped tap.since)) := by
  have hentries : tap.stats.entries.Perm ((tap.since.map Packet.endpoint).dedup.map fun e =>
      ⟨e.key, wrapped tap.since e⟩) := by
    rw [List.perm_ext_iff_of_nodup tap.stats.nodupKeys.nodup]
    · rintro ⟨key, b⟩
      rw [← AList.mem_lookup_iff, List.mem_map]
      constructor
      · intro hb
        rcases h.keys key (AList.lookup_isSome.mp (by rw [hb]; rfl)) with ⟨e, rfl⟩
        rw [Option.mem_def, h.lookup] at hb
        rcases Option.ite_none_right_eq_some.mp hb with ⟨he, hb⟩
        exact ⟨e, List.mem_dedup.mpr he, by rw [Option.some.inj hb]⟩
      · rintro ⟨e, he, heq⟩
        cases heq
        rw [Option.mem_def, h.lookup, if_pos (List.mem_dedup.mp he)]
    · apply (List.nodup_dedup _).map
      intro e e' heq
      exact Endpoint.key_injective (congrArg Sigma.fst heq)
  have hvalues := hentries.map Sigma.snd
  rwa [List.map_map] at hvalues

end Tap

end Accumulation.Collector
