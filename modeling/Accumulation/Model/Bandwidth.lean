/-
# Accumulation.Model.Bandwidth — traffic records and the search by time.

`Search` cuts a list of records by two binary searches on `CollectTime`.  On a list that ascends by
time this is a scan (`search_ascending`), and it is one only there (`ascending_of_search`).
-/
import Accumulation.Lib.BinarySearch

namespace Accumulation.Model

open Accumulation.Lib.BinarySearch

/-- `Bandwidth`: what the engine and the report task read of a record. -/
structure Bandwidth where
  ip : String
  port : String
  upLen : Int
  downLen : Int
  collectTime : Int
  deriving DecidableEq, Repr

namespace Bandwidths

/-- Ascending by `CollectTime`, as `Sort` leaves a list. -/
def Ascending (bws : List Bandwidth) : Prop :=
  bws.Pairwise fun a b => a.collectTime ≤ b.collectTime

/-- `Filter` -/
def filter (bws : List Bandwidth) (filters : Bandwidth → Bool) : List Bandwidth :=
  bws.filter filters

/-- `Search`; the slice expression at its end panics when the indices are out of order. -/
def search (bws : List Bandwidth) (startTime endTime : Int) : Option (List Bandwidth) :=
  let startIndex := cut (fun b => decide (startTime ≤ b.collectTime)) bws
  let endIndex :=
    if 0 < endTime then cut (fun b => decide (endTime ≤ b.collectTime)) bws else bws.length
  if startIndex ≤ endIndex then some ((bws.take endIndex).drop startIndex) else none

/-- The time window of a query; without a positive `endTime` it has no upper end. -/
def inWindow (startTime endTime : Int) (b : Bandwidth) : Bool :=
  decide (startTime ≤ b.collectTime) && (decide (endTime ≤ 0) || decide (b.collectTime < endTime))

/-- The place where the records from `time` on begin. -/
def since (time : Int) (bws : List Bandwidth) : Nat :=
  cut (fun b => decide (time ≤ b.collectTime)) bws

theorem search_eq (bws : List Bandwidth) (startTime endTime : Int) :
    search bws startTime endTime =
      if since startTime bws ≤ (if 0 < endTime then since endTime bws else bws.length) then
        some ((bws.take (if 0 < endTime then since endTime bws else bws.length)).drop
          (since startTime bws))
      else none := rfl

/-- In an ascending list the records from some time on come last. -/
theorem Ascending.last {bws : List Bandwidth} (h : Ascending bws) (time : Int) :
    Last (fun b => decide (time ≤ b.collectTime)) bws := by
  refine h.imp ?_
  intro a b hab ha
  exact decide_eq_true (le_trans (of_decide_eq_true ha) hab)

theorem ascending_append {xs ys : List Bandwidth} : Ascending (xs ++ ys) ↔
    Ascending xs ∧ Ascending ys ∧ ∀ a ∈ xs, ∀ b ∈ ys, a.collectTime ≤ b.collectTime :=
  List.pairwise_append

theorem ascending_iff_map {bws : List Bandwidth} :
    Ascending bws ↔ (bws.map Bandwidth.collectTime).Pairwise (· ≤ ·) :=
  List.pairwise_map.symm

theorem late_of_mem {bws : List Bandwidth} (h : Ascending bws) {time : Int} {b : Bandwidth}
    (hb : b ∈ bws.drop (since time bws)) : time ≤ b.collectTime :=
  of_decide_eq_true (of_mem_drop (h.last time) b hb)

theorem early_of_mem {bws : List Bandwidth} (h : Ascending bws) {time : Int} {b : Bandwidth}
    (hb : b ∈ bws.take (since time bws)) : b.collectTime < time := by
  have := of_decide_eq_false (not_of_mem_take (h.last time) b hb)
  omega

theorem since_mono {bws : List Bandwidth} (h : Ascending bws) {startTime endTime : Int}
    (hle : startTime ≤ endTime) : since startTime bws ≤ since endTime bws := by
  by_contra hcon
  rw [Nat.not_le] at hcon
  have hlength : since startTime bws ≤ bws.length := cut_le _ _
  -- the record at the second place would be late for the one search and early for the other
  have hlt : since endTime bws < bws.length := by omega
  have hlate : endTime ≤ bws[since endTime bws].collectTime := by
    apply late_of_mem h
    rw [List.drop_eq_getElem_cons hlt]
    exact List.mem_cons_self
  have hearly : bws[since endTime bws].collectTime < startTime := by
    apply early_of_mem h
    exact List.mem_take_iff_getElem.mpr
      ⟨since endTime bws, by rw [lt_min_iff]; exact ⟨hcon, hlt⟩, rfl⟩
  omega

/-- **`Search` on an ascending list is a scan.** -/
theorem search_ascending {bws : List Bandwidth} (h : Ascending bws) {startTime endTime : Int}
    (hwindow : startTime ≤ endTime ∨ endTime ≤ 0) :
    search bws startTime endTime = some (bws.filter (inWindow startTime endTime)) := by
  have hstart : bws.drop (since startTime bws) = _ := drop_cut (h.last startTime)
  have hlength : since startTime bws ≤ bws.length := cut_le _ _
  rw [search_eq]
  by_cases hend : 0 < endTime
  · have hle := since_mono h (hwindow.resolve_right (by omega))
    have hlength' : since endTime bws ≤ bws.length := cut_le _ _
    -- what begins at the first place ends with what begins at the second
    have hsplit : bws.drop (since startTime bws) =
        (bws.take (since endTime bws)).drop (since startTime bws) ++
          bws.drop (since endTime bws) := by
      conv_lhs => arg 2; rw [← List.take_append_drop (since endTime bws) bws]
      apply List.drop_append_of_le_length
      rw [List.length_take]
      omega
    have hscan : bws.filter (inWindow startTime endTime) =
        (bws.drop (since startTime bws)).filter fun b => decide (b.collectTime < endTime) := by
      rw [hstart, List.filter_filter]
      apply List.filter_congr
      intro b _
      rw [inWindow, decide_eq_false (by omega : ¬ endTime ≤ 0), Bool.false_or, Bool.and_comm]
    rw [if_pos hend, if_pos hle, hscan, hsplit, List.filter_append]
    rw [List.filter_eq_self.mpr, List.filter_eq_nil_iff.mpr, List.append_nil]
    · intro b hb hcon
      have := late_of_mem h hb
      have := of_decide_eq_true hcon
      omega
    · intro b hb
      exact decide_eq_true (early_of_mem h (List.mem_of_mem_drop hb))
  · rw [if_neg hend, if_pos hlength, List.take_length, hstart]
    congr 1
    apply List.filter_congr
    intro b _
    rw [inWindow, decide_eq_true (by omega : endTime ≤ 0), Bool.true_or, Bool.and_true]

/-- **An exact search from every time on means an ascending list**: the place where the search cuts
separates what is older from what is not. -/
theorem ascending_of_search {bws : List Bandwidth}
    (h : ∀ startTime, ∃ r, search bws startTime 0 = some r ∧
      r.Perm (bws.filter (inWindow startTime 0))) : Ascending bws := by
  apply List.pairwise_iff_getElem.mpr
  intro i j hi hj hij
  obtain ⟨r, hr, hperm⟩ := h bws[i].collectTime
  have hlength : since bws[i].collectTime bws ≤ bws.length := cut_le _ _
  rw [search_eq, if_neg (lt_irrefl 0), if_pos hlength, List.take_length] at hr
  obtain rfl := Option.some.inj hr
  obtain ⟨hlate, hearly⟩ := separates_of_perm hperm
  have hplace : since bws[i].collectTime bws ≤ i := by
    by_contra hcon
    have hself := hearly bws[i] (List.mem_take_iff_getElem.mpr ⟨i, by omega, rfl⟩)
    simp [inWindow] at hself
  have hwindow := hlate bws[j] (List.mem_drop_iff_getElem.mpr
    ⟨j - since bws[i].collectTime bws, by omega, by simp only [show since bws[i].collectTime bws +
      (j - since bws[i].collectTime bws) = j by omega]⟩)
  rw [inWindow, Bool.and_eq_true] at hwindow
  exact of_decide_eq_true hwindow.1

/-! ## Any two bounds -/

/-- A record between the places of two times is of a time between them. -/
theorem between_of_since {bws : List Bandwidth} (h : Ascending bws) {early late : Int}
    (hlt : since early bws < since late bws) :
    ∃ b ∈ bws, early ≤ b.collectTime ∧ b.collectTime < late := by
  have hlength : since late bws ≤ bws.length := cut_le _ _
  have hplace : since early bws < bws.length := by omega
  refine ⟨bws[since early bws], List.getElem_mem hplace, ?_, ?_⟩
  · apply late_of_mem h
    rw [List.drop_eq_getElem_cons hplace]
    exact List.mem_cons_self
  · apply early_of_mem h
    exact List.mem_take_iff_getElem.mpr
      ⟨since early bws, by rw [lt_min_iff]; exact ⟨hlt, hplace⟩, rfl⟩

theorem since_lt_of_between {bws : List Bandwidth} (h : Ascending bws) {early late : Int}
    {b : Bandwidth} (hb : b ∈ bws) (hearly : early ≤ b.collectTime) (hlate : b.collectTime < late) :
    since early bws < since late bws := by
  by_contra hcon
  rw [Nat.not_lt] at hcon
  -- the record is before the one place and behind the other
  have hbefore : b ∈ bws.take (since early bws) := by
    rw [← List.take_append_drop (since late bws) bws, List.mem_append] at hb
    rcases hb with hb | hb
    · exact (List.take_prefix_take_left hcon).mem hb
    · have := late_of_mem h hb
      omega
  have := early_of_mem h hbefore
  omega

/-- `Search` returns, without a panic, the contiguous part of the list that is in the window. -/
def SearchExact (bws : List Bandwidth) (startTime endTime : Int) : Prop :=
  ∃ r, search bws startTime endTime = some r ∧ r <:+: bws ∧
    r = bws.filter (inWindow startTime endTime)

/-- What `Search` returns is a part of the list. -/
theorem search_infix {bws r : List Bandwidth} {startTime endTime : Int}
    (h : search bws startTime endTime = some r) : r <:+: bws := by
  rw [search_eq] at h
  generalize (if 0 < endTime then since endTime bws else bws.length) = endIndex at h
  split at h
  · obtain rfl := Option.some.inj h
    exact (List.drop_suffix _ _).isInfix.trans (List.take_prefix _ _).isInfix
  · cases h

/-- **`Search` with any two bounds.**  On an ascending list it panics exactly when the bounds are
reversed and there is a record between them; otherwise it is a scan. -/
theorem searchExact_iff {bws : List Bandwidth} (h : Ascending bws) (startTime endTime : Int) :
    SearchExact bws startTime endTime ↔ startTime ≤ endTime ∨ endTime ≤ 0 ∨
      ∀ b ∈ bws, ¬(endTime ≤ b.collectTime ∧ b.collectTime < startTime) := by
  by_cases hwindow : startTime ≤ endTime ∨ endTime ≤ 0
  · have hscan := search_ascending h hwindow
    refine iff_of_true ⟨_, hscan, search_infix hscan, rfl⟩ ?_
    rcases hwindow with hle | hend
    · exact .inl hle
    · exact .inr (.inl hend)
  · rw [not_or, not_le, not_le] at hwindow
    rcases hwindow with ⟨hlt, hend⟩
    constructor
    · rintro ⟨r, hr, -, -⟩
      refine .inr (.inr ?_)
      rintro b hb ⟨hearly, hlate⟩
      have hreversed := since_lt_of_between h hb hearly hlate
      rw [search_eq, if_pos hend, if_neg (by omega)] at hr
      cases hr
    · intro hC
      have hnone := (hC.resolve_left (by omega)).resolve_left (by omega)
      have hplaces : since startTime bws = since endTime bws := by
        apply le_antisymm
        · by_contra hcon
          rcases between_of_since h (not_le.mp hcon) with ⟨b, hb, hbetween⟩
          exact hnone b hb hbetween
        · exact since_mono h hlt.le
      have hempty : bws.filter (inWindow startTime endTime) = [] := by
        rw [List.filter_eq_nil_iff]
        intro b _
        rw [inWindow, Bool.and_eq_true, Bool.or_eq_true]
        simp only [decide_eq_true_eq]
        omega
      have hsearch : search bws startTime endTime = some [] := by
        rw [search_eq, if_pos hend, hplaces, if_pos le_rfl, List.drop_eq_nil_of_le]
        rw [List.length_take]
        exact min_le_left _ _
      exact ⟨[], hsearch, List.nil_infix, hempty.symm⟩

theorem searchExact_iff_duplicates :
    SearchExact [⟨"", "", 0, 0, 5⟩, ⟨"", "", 0, 0, 5⟩] 9 7 ↔ (9 : Int) ≤ 7 ∨ (7 : Int) ≤ 0 ∨
      ∀ b ∈ [(⟨"", "", 0, 0, 5⟩ : Bandwidth), ⟨"", "", 0, 0, 5⟩],
        ¬(7 ≤ b.collectTime ∧ b.collectTime < 9) :=
  searchExact_iff (by unfold Ascending; decide) 9 7

/-- A record of the second in which the search is made, for a session that starts later. -/
theorem reversed_not_searchExact :
    Ascending [⟨"", "", 0, 0, 10⟩] ∧ search [⟨"", "", 0, 0, 10⟩] 20 10 = none ∧
      ¬SearchExact [⟨"", "", 0, 0, 10⟩] 20 10 := by
  have hpanic : search [⟨"", "", 0, 0, 10⟩] 20 10 = none := by decide
  refine ⟨List.pairwise_singleton _ _, hpanic, ?_⟩
  rintro ⟨r, hr, -⟩
  rw [hpanic] at hr
  cases hr

end Bandwidths

end Accumulation.Model
