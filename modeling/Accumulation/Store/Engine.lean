/-
# Accumulation.Store.Engine — the bandwidth engine and what its queries rest on.

`fileEngine` keeps the records of the collectors in one slice and answers a query by searching that
slice, so it is worth as much as the order of the slice: `queryExact_iff_ascending` says that all
queries agree with a scan of the records exactly when the records ascend.

`Add` is to keep them ascending by `defer t.data.Sort()`.  The receiver of a deferred call is
evaluated at the `defer`, so what is sorted when `Add` returns is the slice as it was on entry.  A
slice is therefore modelled with the room its array has behind it: the sorted old elements are seen
through the new slice only when `append` stayed in that array.
-/
import Accumulation.Lib.Run
import Accumulation.Model.Bandwidth

namespace Accumulation.Store

open Accumulation.Lib.Run Accumulation.Model

/-! ## The engine -/

/-- What the engine takes from Go: `sort.Sort`, which orders equal elements as it likes, and how
much room `append` leaves behind the elements when it moves them to a new array. -/
structure Runtime where
  sort : List Bandwidth → List Bandwidth
  sort_perm : ∀ bws, (sort bws).Perm bws
  sort_ascending : ∀ bws, Bandwidths.Ascending (sort bws)
  growth : Nat → Nat → Nat

/-- A slice: its elements, and the room its array has behind them. -/
structure Slice where
  elems : List Bandwidth
  room : Nat

/-- `fileEngine` -/
structure FileEngine where
  data : Slice
  capacity : Nat

/-- `NewBandwidthEngine`; a positive `capacity` replaces `defaultCapacity`. -/
def newBandwidthEngine (defaultCapacity : Nat) (capacity : Int) : FileEngine :=
  ⟨⟨[], 0⟩, if 0 < capacity then capacity.toNat else defaultCapacity⟩

namespace FileEngine

/-- `Query` -/
def query (t : FileEngine) (filter : Bandwidth → Bool) (startTime endTime : Int) :
    Option (List Bandwidth) :=
  (Bandwidths.search t.data.elems startTime endTime).map fun data => Bandwidths.filter data filter

/-- How many of the oldest records an `Add` of `length` records takes out. -/
def reduce (t : FileEngine) (length : Nat) : Nat :=
  let reduce := length + t.data.elems.length - t.capacity
  if 0 < reduce ∧ reduce < t.capacity / 2 then t.capacity / 2 else reduce

/-- `Add`.  The deferred `Sort` reorders the elements of the slice as it was on entry; the engine
sees that if and only if `append` has not moved its elements to a new array. -/
def add (go : Runtime) (t : FileEngine) (bandwidths : Slice) : Option FileEngine :=
  let length := bandwidths.elems.length
  if t.capacity < length then
    some { t with data := ⟨bandwidths.elems.drop (length - t.capacity), bandwidths.room⟩ }
  else if t.data.elems.length < t.reduce length then none
  else if length ≤ t.data.room then
    some { t with data := ⟨(go.sort t.data.elems).drop (t.reduce length) ++ bandwidths.elems,
      t.data.room - length⟩ }
  else
    some { t with data := ⟨t.data.elems.drop (t.reduce length) ++ bandwidths.elems,
      go.growth (t.data.elems.length - t.reduce length + t.data.room)
        (t.data.elems.length - t.reduce length + length)⟩ }

/-- A query returns the records of the engine in its time window that pass its filter, each once. -/
def QueryExact (t : FileEngine) : Prop :=
  ∀ filter startTime endTime, startTime ≤ endTime ∨ endTime ≤ 0 →
    ∃ r, t.query filter startTime endTime = some r ∧
      r.Perm (t.data.elems.filter fun b => Bandwidths.inWindow startTime endTime b && filter b)

/-- The records of a batch that enter the engine ascend, and none of them is older than a record
that stays. -/
def AddsAscending (t : FileEngine) (bandwidths : Slice) : Prop :=
  Bandwidths.Ascending (bandwidths.elems.drop (bandwidths.elems.length - t.capacity)) ∧
    (bandwidths.elems.length ≤ t.capacity →
      ∀ a ∈ t.data.elems.drop (t.reduce bandwidths.elems.length), ∀ b ∈ bandwidths.elems,
        a.collectTime ≤ b.collectTime)

/-- **Queries and order.** -/
theorem queryExact_iff_ascending (t : FileEngine) :
    t.QueryExact ↔ Bandwidths.Ascending t.data.elems := by
  constructor
  · intro h
    apply Bandwidths.ascending_of_search
    intro startTime
    obtain ⟨r, hr, hperm⟩ := h (fun _ => true) startTime 0 (Or.inr le_rfl)
    obtain ⟨data, hdata, rfl⟩ := Option.map_eq_some_iff.mp hr
    refine ⟨data, hdata, ?_⟩
    simpa only [Bandwidths.filter, List.filter_true, Bool.and_true] using hperm
  · intro h filter startTime endTime hwindow
    refine ⟨_, by rw [query, Bandwidths.search_ascending h hwindow, Option.map_some], ?_⟩
    rw [Bandwidths.filter, List.filter_filter]
    simp only [Bool.and_comm (filter _)]
    exact List.Perm.refl _

/-- Sorting what already ascends leaves the times where they are. -/
theorem map_sort (go : Runtime) {bws : List Bandwidth} (h : Bandwidths.Ascending bws) :
    (go.sort bws).map Bandwidth.collectTime = bws.map Bandwidth.collectTime := by
  apply List.Perm.eq_of_pairwise
  · intro a b _ _ hab hba
    exact le_antisymm hab hba
  · exact Bandwidths.ascending_iff_map.mp (go.sort_ascending bws)
  · exact Bandwidths.ascending_iff_map.mp h
  · exact (go.sort_perm bws).map _

/-- Whether or not the engine sees the deferred `Sort`, the times of the old records are those they
had. -/
theorem ascending_sort_drop (go : Runtime) {bws : List Bandwidth} (h : Bandwidths.Ascending bws)
    (n : Nat) (batch : List Bandwidth) : Bandwidths.Ascending ((go.sort bws).drop n ++ batch) ↔
      Bandwidths.Ascending (bws.drop n ++ batch) := by
  rw [Bandwidths.ascending_iff_map, Bandwidths.ascending_iff_map, List.map_append, List.map_append,
    List.map_drop, List.map_drop, map_sort go h]

variable {go : Runtime} {t t' : FileEngine} {bandwidths : Slice}

/-- **What `Add` leaves**, as far as the order is concerned. -/
theorem add_cases (h : Bandwidths.Ascending t.data.elems) (hadd : t.add go bandwidths = some t') :
    t'.capacity = t.capacity ∧
    ((t.capacity < bandwidths.elems.length ∧ t'.data.elems =
      bandwidths.elems.drop (bandwidths.elems.length - t.capacity)) ∨
    (bandwidths.elems.length ≤ t.capacity ∧ (Bandwidths.Ascending t'.data.elems ↔
      Bandwidths.Ascending
        (t.data.elems.drop (t.reduce bandwidths.elems.length) ++ bandwidths.elems)))) := by
  simp only [add] at hadd
  split at hadd
  · rename_i hlarge
    obtain rfl := Option.some.inj hadd
    exact ⟨rfl, Or.inl ⟨hlarge, rfl⟩⟩
  · rename_i hsmall
    rw [Nat.not_lt] at hsmall
    split at hadd
    · nomatch hadd
    · split at hadd
      · obtain rfl := Option.some.inj hadd
        exact ⟨rfl, Or.inr ⟨hsmall, ascending_sort_drop go h _ _⟩⟩
      · obtain rfl := Option.some.inj hadd
        exact ⟨rfl, Or.inr ⟨hsmall, Iff.rfl⟩⟩

/-- **With room for the whole batch** `Add` takes nothing out. -/
theorem add_room (go : Runtime) (t : FileEngine) (bandwidths : Slice)
    (hroom : bandwidths.elems.length + t.data.elems.length ≤ t.capacity) :
    t.reduce bandwidths.elems.length = 0 ∧ ∃ t', t.add go bandwidths = some t' ∧
      t'.capacity = t.capacity ∧ t'.data.elems.Perm (t.data.elems ++ bandwidths.elems) := by
  have hreduce : t.reduce bandwidths.elems.length = 0 := by
    simp only [reduce, Nat.sub_eq_zero_of_le hroom]
    rfl
  refine ⟨hreduce, ?_⟩
  simp only [add]
  rw [if_neg (by omega), hreduce, if_neg (Nat.not_lt_zero _)]
  split
  · exact ⟨_, rfl, rfl, (go.sort_perm _).append_right _⟩
  · exact ⟨_, rfl, rfl, List.Perm.refl _⟩

/-- **One `Add`** to ascending records leaves ascending records exactly when the batch fits. -/
theorem addsAscending_iff (h : Bandwidths.Ascending t.data.elems)
    (hadd : t.add go bandwidths = some t') :
    AddsAscending t bandwidths ↔ Bandwidths.Ascending t'.data.elems := by
  rcases add_cases h hadd with ⟨-, ⟨hlarge, helems⟩ | ⟨hsmall, hiff⟩⟩
  · rw [helems, AddsAscending]
    constructor
    · intro hC
      exact hC.1
    · intro hasc
      refine ⟨hasc, ?_⟩
      intro hsmall
      omega
  · have hdrop : bandwidths.elems.drop (bandwidths.elems.length - t.capacity) =
        bandwidths.elems := by
      rw [Nat.sub_eq_zero_of_le hsmall, List.drop_zero]
    rw [hiff, Bandwidths.ascending_append, AddsAscending, hdrop]
    constructor
    · intro hC
      exact ⟨h.sublist (List.drop_sublist _ _), hC.1, hC.2 hsmall⟩
    · intro hC
      exact ⟨hC.2.1, fun _ => hC.2.2⟩

/-- **Whole runs.**  For every capacity and every sequence of batches that `Add` takes without a
panic, all queries are exact after every `Add` if and only if every batch ascends and is no older
than what stays. -/
theorem queryExact_iff_addsAscending (go : Runtime) (defaultCapacity : Nat) (capacity : Int)
    {batches : List Slice}
    (hrun : exec (add go) (newBandwidthEngine defaultCapacity capacity) batches = some t) :
    Along (add go) AddsAscending (newBandwidthEngine defaultCapacity capacity) batches ↔
      Always (add go) QueryExact (newBandwidthEngine defaultCapacity capacity) batches := by
  have hempty : (newBandwidthEngine defaultCapacity capacity).QueryExact := by
    rw [queryExact_iff_ascending]
    exact List.Pairwise.nil
  constructor
  · apply always_of_along _ hempty
    intro t batch t' hexact hC hadd
    rw [queryExact_iff_ascending] at hexact ⊢
    exact (addsAscending_iff hexact hadd).mp hC
  · apply along_of_always _ hrun
    intro t batch t' hexact hadd hexact'
    rw [queryExact_iff_ascending] at hexact hexact'
    exact (addsAscending_iff hexact hadd).mpr hexact'

/-! ## A batch out of order -/

/-- A runtime that sorts by insertion and doubles what is needed. -/
def insertionRuntime : Runtime where
  sort bws := bws.insertionSort fun a b => a.collectTime ≤ b.collectTime
  sort_perm bws := List.perm_insertionSort _ bws
  sort_ascending bws := List.pairwise_insertionSort _ bws
  growth _ needed := needed

/-- A record of which only the time matters. -/
def recordAt (collectTime : Int) : Bandwidth := ⟨"", "", 0, 0, collectTime⟩

/-- One batch of two records in the wrong order.  The slice that is sorted when `Add` returns is the
empty one it found, and a query from time 2 on does not see the record of time 2. -/
theorem outOfOrder_not_exact :
    ∃ t, exec (add insertionRuntime) (newBandwidthEngine 4000 10)
        [⟨[recordAt 2, recordAt 1], 0⟩] = some t ∧
      t.data.elems = [recordAt 2, recordAt 1] ∧
      t.query (fun _ => true) 2 0 = some [] ∧ ¬ t.QueryExact := by
  refine ⟨_, rfl, rfl, rfl, ?_⟩
  rw [queryExact_iff_ascending]
  intro hasc
  have hle := (List.pairwise_cons.mp hasc).1 (recordAt 1) List.mem_cons_self
  exact absurd hle (by decide)

theorem queryExact_iff_addsAscending_two :
    Along (add insertionRuntime) AddsAscending (newBandwidthEngine 4000 2)
        [⟨[recordAt 1, recordAt 2], 0⟩, ⟨[recordAt 2], 0⟩] ↔
      Always (add insertionRuntime) QueryExact (newBandwidthEngine 4000 2)
        [⟨[recordAt 1, recordAt 2], 0⟩, ⟨[recordAt 2], 0⟩] :=
  queryExact_iff_addsAscending insertionRuntime 4000 2 rfl

end FileEngine

end Accumulation.Store
