/-
# Accumulation.Report.Traffic — the bytes of packets, counted on their way to a report.

Lengths are added three times, each time in `int32`: packets into the records of the collectors, the
records of a window into its two totals, and the two totals into the number that tells whether there
was any traffic.  Captured packets, exports and queries of any task, in any order, are exact if and
only if no packet takes its endpoint to 2^31 bytes between two exports and no window that is asked
for has 2^31 bytes (`exact_iff_inRange`).
-/
import Accumulation.Collector.Stats
import Accumulation.Report.Task

namespace Accumulation.Report

open Accumulation.Go Accumulation.Model Accumulation.Store Accumulation.Collector
open Accumulation.Lib.Run

/-! ## The totals of a window -/

/-- The bytes of a list of records, upstream and downstream. -/
def totals (bws : List Bandwidth) : Int × Int :=
  ((bws.map Bandwidth.upLen).sum, (bws.map Bandwidth.downLen).sum)

def total (bws : List Bandwidth) : Int := (totals bws).1 + (totals bws).2

/-- The guard of `periodFetchBandwidth`: a window that counts as empty. -/
def isEmpty (bws : List Bandwidth) : Bool :=
  decide (int32 ((group bws).1 + (group bws).2) < 1)

/-- `periodFetchBandwidth`, by its guards. -/
theorem ReportTask.fetched_eq (trt : ReportTask) (bws : List Bandwidth) (now : Int) :
    (trt.fetched bws now).2 =
      if bws.length = 0 ∨ isEmpty bws ∨ isEmpty (Bandwidths.filter bws trt.portFilter) then none
      else some (group bws, group (Bandwidths.filter bws trt.portFilter)) := by
  unfold fetched
  split
  next hlength => rw [if_pos (.inl hlength)]
  next hlength =>
    dsimp only
    split
    next hall => rw [if_pos (.inr (.inl (decide_eq_true hall)))]
    next hall =>
      split
      next hstream => rw [if_pos (.inr (.inr (decide_eq_true hstream)))]
      next hstream =>
        rw [if_neg]
        · rfl
        · rintro (h | h | h)
          · exact hlength h
          · exact hall (of_decide_eq_true h)
          · exact hstream (of_decide_eq_true h)

theorem totals_cons (b : Bandwidth) (bws : List Bandwidth) :
    totals (b :: bws) = (b.upLen + (totals bws).1, b.downLen + (totals bws).2) := rfl

theorem foldl_group (bws : List Bandwidth) (up down : Int) :
    bws.foldl (fun (upstream, downstream) traffic =>
        (int32 (upstream + traffic.upLen), int32 (downstream + traffic.downLen)))
        (int32 up, int32 down) =
      (int32 (up + (totals bws).1), int32 (down + (totals bws).2)) := by
  induction bws generalizing up down with
  | nil =>
    show (int32 up, int32 down) = (int32 (up + 0), int32 (down + 0))
    rw [Int.add_zero, Int.add_zero]
  | cons b bws ih =>
    rw [List.foldl_cons, totals_cons]
    dsimp only
    rw [int32_add_left, int32_add_left, ih, Int.add_assoc, Int.add_assoc]

/-- **`Group`** returns the sums as they are wrapped. -/
theorem group_eq (bws : List Bandwidth) :
    group bws = (int32 (totals bws).1, int32 (totals bws).2) := by
  have h := foldl_group bws 0 0
  rw [Int.zero_add, Int.zero_add] at h
  exact h

/-- Records of lengths that are none of them negative. -/
def Plain (bws : List Bandwidth) : Prop := ∀ b ∈ bws, 0 ≤ b.upLen ∧ 0 ≤ b.downLen

/-- A part of a window has no more bytes than the window. -/
theorem Plain.totals_le {part bws : List Bandwidth} (h : Plain bws) (hpart : part.Sublist bws) :
    (0 ≤ (totals part).1 ∧ (totals part).1 ≤ (totals bws).1) ∧
      (0 ≤ (totals part).2 ∧ (totals part).2 ≤ (totals bws).2) := by
  have hup : ∀ n ∈ bws.map Bandwidth.upLen, 0 ≤ n := by
    intro n hn
    rcases List.mem_map.mp hn with ⟨b, hb, rfl⟩
    exact (h b hb).1
  have hdown : ∀ n ∈ bws.map Bandwidth.downLen, 0 ≤ n := by
    intro n hn
    rcases List.mem_map.mp hn with ⟨b, hb, rfl⟩
    exact (h b hb).2
  refine ⟨⟨?_, ?_⟩, ?_, ?_⟩
  · exact List.sum_nonneg fun n hn => hup n ((hpart.map _).subset hn)
  · exact (hpart.map _).sum_le_sum hup
  · exact List.sum_nonneg fun n hn => hdown n ((hpart.map _).subset hn)
  · exact (hpart.map _).sum_le_sum hdown

theorem total_nonneg {bws : List Bandwidth} (h : Plain bws) : 0 ≤ total bws := by
  have hall := h.totals_le (List.Sublist.refl bws)
  unfold total
  omega

/-- A window of fewer than 2^31 bytes counts as empty if and only if it has none. -/
theorem isEmpty_iff {bws : List Bandwidth} (h : Plain bws) (htotal : total bws < 2 ^ 31) :
    isEmpty bws = true ↔ total bws = 0 := by
  have hpos := total_nonneg h
  have hall := h.totals_le (List.Sublist.refl bws)
  have hsum : int32 ((group bws).1 + (group bws).2) = total bws := by
    rw [group_eq]
    dsimp only
    rw [int32_add]
    exact int32_of_range (by omega) htotal
  rw [isEmpty, decide_eq_true_eq, hsum]
  omega

/-! ## Packets, exports and queries -/

/-- An export of one collector: the packets added to it since its last one, the reading of the clock
and the records. -/
structure Export where
  packets : List Packet
  endTime : Int
  records : List Bandwidth

/-- One record for each endpoint of a packet, with the true sums of the lengths. -/
def Export.Exact (e : Export) : Prop :=
  e.records.Perm ((e.packets.map Packet.endpoint).dedup.map fun endpoint =>
    { tally e.packets endpoint with collectTime := e.endTime })

theorem Export.Exact.plain {e : Export} (h : e.Exact) : Plain e.records := by
  intro b hb
  rcases List.mem_map.mp (h.subset hb) with ⟨endpoint, -, rfl⟩
  exact ⟨bytes_nonneg _ _ _, bytes_nonneg _ _ _⟩

/-- What `periodFetchBandwidth` of a task found in its window. -/
structure Fetch where
  task : ReportTask
  now : Int
  bandwidths : List Bandwidth

structure Fetch.Exact (f : Fetch) : Prop where
  /-- no sum on the way wraps -/
  group : ∀ part, part <+: f.bandwidths → group part = totals part
  /-- the window counts as empty exactly when it has no bytes -/
  isEmpty : isEmpty f.bandwidths = true ↔ total f.bandwidths = 0
  /-- what is asked for has the true sums, and nothing is asked for without bytes at the ports -/
  request : (f.task.fetched f.bandwidths f.now).2 =
    if total (Bandwidths.filter f.bandwidths f.task.portFilter) = 0 then none
    else some (totals f.bandwidths, totals (Bandwidths.filter f.bandwidths f.task.portFilter))

/-- **A window** is counted as it should be if and only if it has fewer than 2^31 bytes. -/
theorem Fetch.exact_iff_tally {f : Fetch} (h : Plain f.bandwidths) :
    f.Exact ↔ total f.bandwidths < 2 ^ 31 := by
  have hall := h.totals_le (List.Sublist.refl f.bandwidths)
  have hpos := total_nonneg h
  constructor
  · intro hexact
    have hgroup := hexact.group f.bandwidths (List.prefix_refl _)
    rw [group_eq] at hgroup
    have hup : int32 (totals f.bandwidths).1 = (totals f.bandwidths).1 := congrArg Prod.fst hgroup
    have hdown : int32 (totals f.bandwidths).2 = (totals f.bandwidths).2 :=
      congrArg Prod.snd hgroup
    have hupLt := int32_lt (totals f.bandwidths).1
    have hdownLt := int32_lt (totals f.bandwidths).2
    by_contra hlarge
    rw [not_lt] at hlarge
    have htotal : total f.bandwidths = (totals f.bandwidths).1 + (totals f.bandwidths).2 := rfl
    -- the sum of the two totals wraps to a negative number
    have hneg : int32 (total f.bandwidths) < 1 := by
      unfold int32
      rw [Int.bmod_def]
      split <;> omega
    have hempty : Report.isEmpty f.bandwidths = true := by
      rw [Report.isEmpty, decide_eq_true_eq, group_eq]
      dsimp only
      rwa [int32_add]
    have hzero := hexact.isEmpty.mp hempty
    omega
  · intro htotal
    have hpart : ∀ {part : List Bandwidth}, part.Sublist f.bandwidths →
        Report.group part = totals part ∧ total part < 2 ^ 31 := by
      intro part hsub
      have hle := h.totals_le hsub
      have hsum : total part = (totals part).1 + (totals part).2 := rfl
      have hsum' : total f.bandwidths = (totals f.bandwidths).1 + (totals f.bandwidths).2 := rfl
      rw [group_eq, int32_of_range (by omega) (by omega), int32_of_range (by omega) (by omega)]
      exact ⟨rfl, by omega⟩
    have hfilter : (Bandwidths.filter f.bandwidths f.task.portFilter).Sublist f.bandwidths :=
      List.filter_sublist
    have hplain : Plain (Bandwidths.filter f.bandwidths f.task.portFilter) :=
      fun b hb => h b (hfilter.subset hb)
    have hstream := isEmpty_iff hplain (hpart hfilter).2
    refine ⟨fun part hprefix => (hpart hprefix.sublist).1, isEmpty_iff h htotal, ?_⟩
    rw [ReportTask.fetched_eq, (hpart (List.Sublist.refl _)).1, (hpart hfilter).1]
    by_cases hzero : total (Bandwidths.filter f.bandwidths f.task.portFilter) = 0
    · rw [if_pos hzero, if_pos (.inr (.inr (hstream.mpr hzero)))]
    · rw [if_neg hzero, if_neg]
      rintro (hlength | hempty | hempty)
      · -- without a record there are no bytes
        rw [List.length_eq_zero_iff.mp hlength] at hzero
        exact hzero rfl
      · have hle := h.totals_le hfilter
        have hsum : total f.bandwidths = (totals f.bandwidths).1 + (totals f.bandwidths).2 := rfl
        have hzero' := (isEmpty_iff h htotal).mp hempty
        apply hzero
        unfold total
        omega
      · exact hzero (hstream.mp hempty)

/-- Collectors, the engine they are exported to, and what has been exported and fetched. -/
structure Meter where
  taps : List Tap
  engine : FileEngine
  exports : List Export
  fetches : List Fetch

inductive Capture
  /-- a packet is added to a collector -/
  | packet (i : Nat) (p : Packet)
  /-- `fileEngine.collector`, with the order in which it goes through each map and the room behind
  the batch -/
  | collect (exports : Exports) (room : Nat)
  /-- `periodFetchBandwidth` of some task -/
  | fetch (trt : ReportTask) (now : Int)

namespace Meter

/-- New collectors and a new engine. -/
def opened (collectors defaultCapacity : Nat) (capacity : Int) : Meter :=
  ⟨List.replicate collectors Tap.new, newBandwidthEngine defaultCapacity capacity, [], []⟩

/-- What one collector exports. -/
def exportOf (tap : Tap) (x : Int × List Bandwidth) : Export :=
  ⟨tap.since, x.1, exportAndClean x.1 x.2⟩

/-- The engine does not have to make room. -/
def step (go : Runtime) (s : Meter) : Capture → Option Meter
  | .packet i p => s.taps[i]?.map fun tap => { s with taps := s.taps.set i (tap.capture p) }
  | .collect exports room =>
    let bandwidths := exported exports
    if ¬ List.Forall₂ (fun (tap : Tap) (x : Int × List Bandwidth) => x.2.Perm tap.stats.values)
        s.taps exports then none
    else if s.engine.capacity < bandwidths.length + s.engine.data.elems.length then none
    else
      (if 0 < bandwidths.length then s.engine.add go ⟨bandwidths, room⟩ else some s.engine).map
        fun engine => { s with
          taps := s.taps.map fun _ => Tap.new
          engine
          exports := s.exports ++ List.zipWith exportOf s.taps exports }
  | .fetch trt now =>
    match s.engine.query trt.filter trt.lastStatTime now with
    -- a panic ends the tick
    | none => some s
    | some bandwidths => some { s with fetches := s.fetches ++ [⟨trt, now, bandwidths⟩] }

/-- Every sum made so far is the sum of the integers. -/
structure Exact (s : Meter) : Prop where
  taps : ∀ tap ∈ s.taps, tap.Exact
  exports : ∀ e ∈ s.exports, e.Exact
  fetches : ∀ f ∈ s.fetches, f.Exact

/-- A packet leaves its endpoint below 2^31 bytes in either direction since the last export, and a
window that is asked for has fewer than 2^31 bytes in both together. -/
def InRange (s : Meter) : Capture → Prop
  | .packet i p => ∀ tap, s.taps[i]? = some tap → tap.InRange p
  | .collect _ _ => True
  | .fetch trt now => ∀ bandwidths,
      s.engine.query trt.filter trt.lastStatTime now = some bandwidths → total bandwidths < 2 ^ 31

variable {go : Runtime} {s s' : Meter}

/-- What holds of the collectors and the engine while everything is exact. -/
structure Sound (s : Meter) : Prop where
  taps : ∀ tap ∈ s.taps, tap.Valid
  engine : Plain s.engine.data.elems

theorem opened_sound (collectors defaultCapacity : Nat) (capacity : Int) :
    (opened collectors defaultCapacity capacity).Sound where
  taps tap htap := by
    rw [List.eq_of_mem_replicate htap]
    exact Tap.valid_new
  engine := nofun

theorem opened_exact (collectors defaultCapacity : Nat) (capacity : Int) :
    (opened collectors defaultCapacity capacity).Exact where
  taps tap htap := by
    rw [List.eq_of_mem_replicate htap]
    intro e
    rfl
  exports := nofun
  fetches := nofun

/-- What adding a packet does. -/
theorem step_packet {i : Nat} {p : Packet} (h : s.step go (.packet i p) = some s') :
    ∃ tap, s.taps[i]? = some tap ∧ s' = { s with taps := s.taps.set i (tap.capture p) } := by
  rcases Option.map_eq_some_iff.mp h with ⟨tap, htap, hs'⟩
  exact ⟨tap, htap, hs'.symm⟩

/-- What an export does: the batch goes into the engine and the collectors begin anew. -/
theorem step_collect {exports : Exports} {room : Nat}
    (h : s.step go (.collect exports room) = some s') :
    List.Forall₂ (fun (tap : Tap) (x : Int × List Bandwidth) => x.2.Perm tap.stats.values)
      s.taps exports ∧ ∃ engine, s' = { s with
        taps := s.taps.map fun _ => Tap.new
        engine
        exports := s.exports ++ List.zipWith exportOf s.taps exports } ∧
      engine.data.elems.Perm (s.engine.data.elems ++ exported exports) := by
  simp only [step] at h
  split at h
  · cases h
  rename_i hrange
  split at h
  · cases h
  rename_i hroom
  rw [not_not] at hrange
  rw [Nat.not_lt] at hroom
  rcases Option.map_eq_some_iff.mp h with ⟨engine, hengine, hs'⟩
  refine ⟨hrange, engine, hs'.symm, ?_⟩
  split at hengine
  · rcases FileEngine.add_room go s.engine ⟨exported exports, room⟩ hroom with
      ⟨-, t, ht, -, hperm⟩
    obtain rfl := Option.some.inj (ht.symm.trans hengine)
    exact hperm
  · rename_i hnone
    obtain rfl := Option.some.inj hengine
    have hnil : exported exports = [] := List.length_eq_zero_iff.mp (by omega)
    rw [hnil, List.append_nil]

/-- What a tick of a task does. -/
theorem step_fetch {trt : ReportTask} {now : Int} (h : s.step go (.fetch trt now) = some s') :
    (s.engine.query trt.filter trt.lastStatTime now = none ∧ s' = s) ∨
      ∃ bandwidths, s.engine.query trt.filter trt.lastStatTime now = some bandwidths ∧
        s' = { s with fetches := s.fetches ++ [⟨trt, now, bandwidths⟩] } := by
  simp only [step] at h
  split at h
  next hquery => exact .inl ⟨hquery, (Option.some.inj h).symm⟩
  next bandwidths hquery => exact .inr ⟨bandwidths, hquery, (Option.some.inj h).symm⟩

/-- What a query finds is in the engine. -/
theorem query_sublist {t : FileEngine} {filter : Bandwidth → Bool} {startTime endTime : Int}
    {bandwidths : List Bandwidth} (h : t.query filter startTime endTime = some bandwidths) :
    bandwidths.Sublist t.data.elems := by
  rcases Option.map_eq_some_iff.mp h with ⟨data, hdata, rfl⟩
  exact List.filter_sublist.trans (Bandwidths.search_infix hdata).sublist

/-- A collector that is exact exports exactly. -/
theorem exportOf_exact {tap : Tap} (hvalid : tap.Valid) (hexact : tap.Exact)
    {x : Int × List Bandwidth} (hrange : x.2.Perm tap.stats.values) : (exportOf tap x).Exact := by
  have hall := hvalid.exact_iff_lt.mp hexact
  have hwrapped : wrapped tap.since = tally tap.since := by
    funext e
    exact (Tap.wrapped_eq_tally_iff _ _).mpr (hall e)
  have hperm := (hrange.trans hvalid.values_perm).map
    fun v : Bandwidth => { v with collectTime := x.1 }
  rw [hwrapped, List.map_map] at hperm
  exact hperm

/-- Collectors that are exact, each with the order in which its map is gone through. -/
theorem exports_exact {taps : List Tap} {exports : Exports}
    (hrange : List.Forall₂ (fun (tap : Tap) (x : Int × List Bandwidth) =>
      x.2.Perm tap.stats.values) taps exports)
    (hvalid : ∀ tap ∈ taps, tap.Valid) (hexact : ∀ tap ∈ taps, tap.Exact) :
    (∀ e ∈ List.zipWith exportOf taps exports, e.Exact) ∧ Plain (exported exports) := by
  induction hrange with
  | nil => exact ⟨nofun, nofun⟩
  | @cons tap x taps exports hx _ ih =>
    have hexported : exported (x :: exports) = exportAndClean x.1 x.2 ++ exported exports :=
      List.flatMap_cons
    have hfirst := exportOf_exact (hvalid tap List.mem_cons_self) (hexact tap List.mem_cons_self) hx
    have hrest := ih (fun t ht => hvalid t (List.mem_cons_of_mem _ ht))
      (fun t ht => hexact t (List.mem_cons_of_mem _ ht))
    constructor
    · intro e he
      rcases List.mem_cons.mp he with rfl | he
      · exact hfirst
      · exact hrest.1 e he
    · intro b hb
      rw [hexported] at hb
      rcases List.mem_append.mp hb with hb | hb
      · exact hfirst.plain b hb
      · exact hrest.2 b hb

theorem packet_sound {i : Nat} {p : Packet} (h : s.Sound)
    (hstep : s.step go (.packet i p) = some s') : s'.Sound := by
  rcases step_packet hstep with ⟨tap, htap, rfl⟩
  refine ⟨?_, h.engine⟩
  intro t ht
  rcases List.mem_or_eq_of_mem_set ht with ht | rfl
  · exact h.taps t ht
  · exact (h.taps tap (List.mem_of_getElem? htap)).capture p

theorem packet_exact_iff {i : Nat} {p : Packet} (h : s.Sound) (hexact : s.Exact)
    (hstep : s.step go (.packet i p) = some s') : s'.Exact ↔ s.InRange (.packet i p) := by
  rcases step_packet hstep with ⟨tap, htap, rfl⟩
  have hmem := List.mem_of_getElem? htap
  have hiff := (h.taps tap hmem).exact_capture_iff (p := p) (hexact.taps tap hmem)
  have hlt : i < s.taps.length := (List.getElem?_eq_some_iff.mp htap).1
  constructor
  · intro hexact' t ht
    obtain rfl := Option.some.inj (htap.symm.trans ht)
    exact hiff.mp (hexact'.taps _ (List.mem_set hlt _))
  · intro hC
    refine ⟨?_, hexact.exports, hexact.fetches⟩
    intro t ht
    rcases List.mem_or_eq_of_mem_set ht with ht | rfl
    · exact hexact.taps t ht
    · exact hiff.mpr (hC tap htap)

/-- **An export** of collectors that are exact is exact. -/
theorem collect_exact {exports : Exports} {room : Nat} (h : s.Sound) (hexact : s.Exact)
    (hstep : s.step go (.collect exports room) = some s') : s'.Sound ∧ s'.Exact := by
  rcases step_collect hstep with ⟨hrange, engine, rfl, hperm⟩
  rcases exports_exact hrange h.taps hexact.taps with ⟨hexports, hplain⟩
  have hnew : ∀ tap ∈ s.taps.map (fun _ => Tap.new), tap = Tap.new := by
    intro tap htap
    rcases List.mem_map.mp htap with ⟨_, -, rfl⟩
    rfl
  refine ⟨⟨?_, ?_⟩, ?_, ?_, hexact.fetches⟩
  · intro tap htap
    rw [hnew tap htap]
    exact Tap.valid_new
  · intro b hb
    rcases List.mem_append.mp (hperm.subset hb) with hb | hb
    · exact h.engine b hb
    · exact hplain b hb
  · intro tap htap
    rw [hnew tap htap]
    intro e
    rfl
  · intro e he
    rcases List.mem_append.mp he with he | he
    · exact hexact.exports e he
    · exact hexports e he

theorem fetch_sound {trt : ReportTask} {now : Int} (h : s.Sound)
    (hstep : s.step go (.fetch trt now) = some s') : s'.Sound := by
  rcases step_fetch hstep with ⟨-, rfl⟩ | ⟨bandwidths, -, rfl⟩
  · exact h
  · exact ⟨h.taps, h.engine⟩

theorem fetch_exact_iff {trt : ReportTask} {now : Int} (h : s.Sound) (hexact : s.Exact)
    (hstep : s.step go (.fetch trt now) = some s') : s'.Exact ↔ s.InRange (.fetch trt now) := by
  rcases step_fetch hstep with ⟨hquery, rfl⟩ | ⟨bandwidths, hquery, rfl⟩
  · refine iff_of_true hexact ?_
    intro bandwidths hcon
    cases hquery.symm.trans hcon
  · have hplain : Plain bandwidths := fun b hb => h.engine b ((query_sublist hquery).subset hb)
    have hiff := Fetch.exact_iff_tally (f := ⟨trt, now, bandwidths⟩) hplain
    constructor
    · intro hexact' bws hbws
      obtain rfl := Option.some.inj (hquery.symm.trans hbws)
      exact hiff.mp (hexact'.fetches _ (List.mem_append_right _ List.mem_cons_self))
    · intro hC
      refine ⟨hexact.taps, hexact.exports, ?_⟩
      intro f hf
      rcases List.mem_append.mp hf with hf | hf
      · exact hexact.fetches f hf
      · rw [List.mem_singleton.mp hf]
        exact hiff.mpr (hC bandwidths hquery)

/-- **One step** from an exact state leaves an exact one if and only if it is in range. -/
theorem exact_step_iff {a : Capture} (h : s.Sound) (hexact : s.Exact)
    (hstep : s.step go a = some s') : s'.Sound ∧ (s'.Exact ↔ s.InRange a) := by
  cases a with
  | packet i p => exact ⟨packet_sound h hstep, packet_exact_iff h hexact hstep⟩
  | collect exports room =>
    rcases collect_exact h hexact hstep with ⟨hsound', hexact'⟩
    exact ⟨hsound', iff_of_true hexact' trivial⟩
  | fetch trt now => exact ⟨fetch_sound h hstep, fetch_exact_iff h hexact hstep⟩

/-- **Whole runs.**  For any number of collectors, any packets, exports that find room and queries of
any task, in any order: all sums are exact in every state if and only if every packet and every
query is in range. -/
theorem exact_iff_inRange (go : Runtime) (collectors defaultCapacity : Nat) (capacity : Int)
    {captures : List Capture} {s : Meter}
    (hrun : exec (step go) (opened collectors defaultCapacity capacity) captures = some s) :
    Along (step go) InRange (opened collectors defaultCapacity capacity) captures ↔
      Always (step go) Exact (opened collectors defaultCapacity capacity) captures := by
  have hsound := opened_sound collectors defaultCapacity capacity
  have hexact := opened_exact collectors defaultCapacity capacity
  constructor
  · intro hC
    have hboth : Always (step go) (fun s => s.Sound ∧ s.Exact)
        (opened collectors defaultCapacity capacity) captures := by
      refine always_of_along ?_ ⟨hsound, hexact⟩ hC
      rintro t a t' ⟨hsound, hexact⟩ hC hstep
      rcases exact_step_iff hsound hexact hstep with ⟨hsound', hiff⟩
      exact ⟨hsound', hiff.mpr hC⟩
    exact hboth.mono fun _ h => h.2
  · intro halways
    have hkept : Always (step go) (fun s => s.Sound ∧ s.Exact)
        (opened collectors defaultCapacity capacity) captures := by
      refine halways.and_kept ?_ hsound
      intro t a t' hexact hsound hstep _
      exact (exact_step_iff hsound hexact hstep).1
    refine along_of_always ?_ hrun hkept
    rintro t a t' ⟨hsound, hexact⟩ hstep ⟨-, hexact'⟩
    exact (exact_step_iff hsound hexact hstep).2.mp hexact'

/-- One packet, its export and a query of it. -/
theorem exact_iff_inRange_packet :
    let captures : List Capture := [.packet 0 ⟨60, ⟨"10.0.0.1", 80⟩, .up⟩,
      .collect [(5, [⟨"10.0.0.1", "80", 60, 0, 0⟩])] 0,
      .fetch (ReportTask.start ⟨0, 7, "vm", "10.0.0.1", []⟩) 10]
    Along (step FileEngine.insertionRuntime) InRange (opened 1 4000 0) captures ↔
      Always (step FileEngine.insertionRuntime) Exact (opened 1 4000 0) captures :=
  exact_iff_inRange FileEngine.insertionRuntime 1 4000 0 rfl

/-! ## Packets that wrap -/

/-- The same packet many times over. -/
theorem exec_replicate (go : Runtime) (s : Meter) {tap : Tap} (htap : tap.Valid) (p : Packet)
    (n : Nat) : ∃ tap' : Tap, tap'.Valid ∧ tap'.since = tap.since ++ List.replicate n p ∧
      exec (step go) { s with taps := [tap] } (List.replicate n (.packet 0 p)) =
        some { s with taps := [tap'] } := by
  induction n generalizing tap with
  | zero => exact ⟨tap, htap, (List.append_nil _).symm, rfl⟩
  | succ n ih =>
    rcases ih (htap.capture p) with ⟨tap', hvalid, hsince, hexec⟩
    refine ⟨tap', hvalid, ?_, hexec⟩
    show tap'.since = tap.since ++ (p :: List.replicate n p)
    rw [hsince, List.append_cons]
    rfl

theorem bytes_replicate (n : Nat) (p : Packet) :
    bytes (List.replicate n p) p.endpoint p.trafficType = n * p.len.toNat := by
  rw [bytes, List.filter_replicate_of_pos (by simp), List.map_replicate, List.sum_replicate,
    nsmul_eq_mul]

/-- 32769 packets of 65535 bytes within one export interval.  The record says -2147450881 bytes, and
a window with this record counts as empty. -/
theorem wrapped_not_exact :
    let p : Packet := ⟨65535, ⟨"10.0.0.1", 80⟩, .up⟩
    let captures : List Capture := List.replicate 32769 (.packet 0 p)
    ∃ s, exec (step FileEngine.insertionRuntime) (opened 1 4000 0) captures = some s ∧
      (s.taps.map fun tap => tap.stats.lookup "10.0.0.1:80") =
        [some ⟨"10.0.0.1", "80", -2147450881, 0, 0⟩] ∧
      isEmpty [⟨"10.0.0.1", "80", -2147450881, 0, 0⟩] = true ∧
      ¬Always (step FileEngine.insertionRuntime) Exact (opened 1 4000 0) captures := by
  intro p captures
  rcases exec_replicate FileEngine.insertionRuntime (opened 1 4000 0) Tap.valid_new p 32769 with
    ⟨tap, hvalid, hsince, hrun⟩
  have hup : bytes tap.since p.endpoint .up = 2147516415 := by
    rw [hsince]
    exact bytes_replicate 32769 p
  have hdown : bytes tap.since p.endpoint .down = 0 := by
    rw [hsince]
    show bytes (List.replicate 32769 p) p.endpoint .down = 0
    rw [bytes, List.filter_replicate_of_neg (by decide)]
    rfl
  refine ⟨_, hrun, ?_, by decide, ?_⟩
  · have hlookup := hvalid.lookup p.endpoint
    have hkey : p.endpoint.key = "10.0.0.1:80" := by decide
    have hrecord : (⟨p.endpoint.ip, toString p.endpoint.port, int32 2147516415, int32 0, 0⟩ :
        Bandwidth) = ⟨"10.0.0.1", "80", -2147450881, 0, 0⟩ := by decide
    rw [if_pos, wrapped, hup, hdown, hkey, hrecord] at hlookup
    · rw [List.map_singleton, hlookup]
    · rw [hsince]
      exact List.mem_map.mpr ⟨p, List.mem_append_right _ (List.mem_replicate.mpr ⟨by decide, rfl⟩),
        rfl⟩
  · intro h
    have hexact := (h.last hrun).taps tap List.mem_cons_self
    have hlt := (hvalid.exact_iff_lt.mp hexact p.endpoint).1
    rw [hup] at hlt
    exact absurd hlt (by decide)

end Meter

end Accumulation.Report
