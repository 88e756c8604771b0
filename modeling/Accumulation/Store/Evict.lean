/-
# Accumulation.Store.Evict — which records an `Add` takes out.

When a batch does not fit, `Add` takes the oldest records out, at least half of the capacity.  Two
things can go wrong.  Half of the capacity can be more than there is, and the slice expression
panics.  And the deferred `Sort` reorders the old elements in their array, which the new slice
shares where `append` found room: what then stays of the old records is not the end of the slice as
it was, but the end of the sorted one.  `keepsNewest_iff` says that nothing else goes wrong.
-/
import Accumulation.Store.Engine

namespace Accumulation.Store

open Accumulation.Model

namespace FileEngine

variable {go : Runtime} {t t' : FileEngine} {bandwidths : Slice}

/-- An `Add` keeps the newest records, in whatever order: the end of a batch that is longer than the
capacity, or the whole batch and an end of what was there, all of it if there is room. -/
def KeepsNewest (go : Runtime) (t : FileEngine) (bandwidths : Slice) : Prop :=
  ∃ t', t.add go bandwidths = some t' ∧ t'.data.elems.length ≤ t.capacity ∧
    (t.capacity < bandwidths.elems.length → t'.data.elems.Perm
      (bandwidths.elems.drop (bandwidths.elems.length - t.capacity))) ∧
    (bandwidths.elems.length ≤ t.capacity → ∃ old, old <:+ t.data.elems ∧
      t'.data.elems.Perm (old ++ bandwidths.elems) ∧
      (bandwidths.elems.length + t.data.elems.length ≤ t.capacity → old = t.data.elems))

/-- By how many records the old and the new ones together exceed the capacity. -/
def excess (t : FileEngine) (bandwidths : Slice) : Nat :=
  bandwidths.elems.length + t.data.elems.length - t.capacity

/-- Fewer records are too many than half of the capacity, and there are fewer than that. -/
def Overreaches (t : FileEngine) (bandwidths : Slice) : Prop :=
  bandwidths.elems.length ≤ t.capacity ∧ 0 < t.excess bandwidths ∧
    t.excess bandwidths < t.capacity / 2 ∧ t.data.elems.length < t.capacity / 2

/-- The records before a place stay the same when the slice is sorted. -/
def SortedFront (go : Runtime) (t : FileEngine) (n : Nat) : Prop :=
  ((go.sort t.data.elems).take n).Perm (t.data.elems.take n)

theorem reduce_eq : t.reduce bandwidths.elems.length =
    if 0 < t.excess bandwidths ∧ t.excess bandwidths < t.capacity / 2 then t.capacity / 2
    else t.excess bandwidths := rfl

/-- `Add` panics exactly when it takes out more than there is. -/
theorem length_lt_reduce_iff
    (hsmall : bandwidths.elems.length ≤ t.capacity) :
    t.data.elems.length < t.reduce bandwidths.elems.length ↔ t.Overreaches bandwidths := by
  have hexcess : t.excess bandwidths ≤ t.data.elems.length := by
    unfold excess
    omega
  rw [reduce_eq, Overreaches]
  split
  · rename_i hhalf
    exact ⟨fun h => ⟨hsmall, hhalf.1, hhalf.2, h⟩, fun h => h.2.2.2⟩
  · rename_i hhalf
    refine iff_of_false (by omega) ?_
    intro h
    exact hhalf ⟨h.2.1, h.2.2.1⟩

/-- What stays fits. -/
theorem reduced_fits (hsmall : bandwidths.elems.length ≤ t.capacity) :
    t.data.elems.length - t.reduce bandwidths.elems.length + bandwidths.elems.length ≤
      t.capacity := by
  have hexcess : t.excess bandwidths =
    bandwidths.elems.length + t.data.elems.length - t.capacity := rfl
  rw [reduce_eq]
  split
  · rename_i hhalf
    omega
  · omega

/-- Of two arrangements of the same records the ends are the same if the fronts are. -/
theorem perm_drop_iff {xs ys : List Bandwidth} (h : xs.Perm ys) (n : Nat) :
    (xs.drop n).Perm (ys.drop n) ↔ (xs.take n).Perm (ys.take n) := by
  have hsplit : (xs.take n ++ xs.drop n).Perm (ys.take n ++ ys.drop n) := by
    rw [List.take_append_drop, List.take_append_drop]
    exact h
  constructor
  · intro hdrop
    exact (List.perm_append_right_iff _).mp (hsplit.trans (hdrop.symm.append_left _))
  · intro htake
    exact (List.perm_append_left_iff _).mp (hsplit.trans (htake.symm.append_right _))

theorem reduce_of_fits (hfits : bandwidths.elems.length + t.data.elems.length ≤ t.capacity) :
    t.reduce bandwidths.elems.length = 0 := by
  have hexcess : t.excess bandwidths = 0 := Nat.sub_eq_zero_of_le hfits
  rw [reduce_eq, hexcess]
  rfl

/-- Old records before a batch that keep the newest are what stays behind the front. -/
theorem keepsNewest_of_kept {kept : List Bandwidth} {room : Nat}
    (hsmall : bandwidths.elems.length ≤ t.capacity)
    (hreduce : t.reduce bandwidths.elems.length ≤ t.data.elems.length)
    (hadd : t.add go bandwidths = some { t with data := ⟨kept ++ bandwidths.elems, room⟩ })
    (hlength : kept.length = t.data.elems.length - t.reduce bandwidths.elems.length) :
    KeepsNewest go t bandwidths ↔
      kept.Perm (t.data.elems.drop (t.reduce bandwidths.elems.length)) := by
  constructor
  · rintro ⟨t', ht', -, -, hkeeps⟩
    obtain rfl := Option.some.inj (hadd.symm.trans ht')
    rcases hkeeps hsmall with ⟨old, hsuffix, hperm, -⟩
    have hold : kept.Perm old := (List.perm_append_right_iff _).mp hperm
    -- an end of this length is unique
    rw [List.suffix_iff_eq_drop, ← hold.length_eq, hlength, Nat.sub_sub_self hreduce] at hsuffix
    rw [← hsuffix]
    exact hold
  · intro hperm
    refine ⟨_, hadd, ?_, ?_, ?_⟩
    · show (kept ++ bandwidths.elems).length ≤ _
      rw [List.length_append, hlength]
      exact reduced_fits hsmall
    · intro hlarge
      omega
    · intro _
      refine ⟨_, List.drop_suffix _ _, hperm.append_right _, ?_⟩
      intro hfits
      rw [reduce_of_fits hfits, List.drop_zero]

/-- **An `Add` keeps the newest records** if and only if it does not overreach, and, where the new
slice shares the array of the old one, the records that go are those that `Sort` puts in front. -/
theorem keepsNewest_iff (go : Runtime) (t : FileEngine) (bandwidths : Slice) :
    KeepsNewest go t bandwidths ↔ ¬t.Overreaches bandwidths ∧
      (bandwidths.elems.length ≤ t.capacity → bandwidths.elems.length ≤ t.data.room →
        SortedFront go t (t.reduce bandwidths.elems.length)) := by
  by_cases hsmall : bandwidths.elems.length ≤ t.capacity
  · by_cases hover : t.Overreaches bandwidths
    · -- the slice expression panics
      have hpanic : t.add go bandwidths = none := by
        simp only [add]
        rw [if_neg (by omega), if_pos ((length_lt_reduce_iff hsmall).mpr hover)]
      refine iff_of_false ?_ fun h => h.1 hover
      rintro ⟨t', ht', -⟩
      rw [hpanic] at ht'
      cases ht'
    · have hreduce := Nat.not_lt.mp (mt (length_lt_reduce_iff hsmall).mp hover)
      by_cases hroom : bandwidths.elems.length ≤ t.data.room
      · have hadd : t.add go bandwidths = some { t with data :=
            ⟨(go.sort t.data.elems).drop (t.reduce bandwidths.elems.length) ++ bandwidths.elems,
              t.data.room - bandwidths.elems.length⟩ } := by
          simp only [add]
          rw [if_neg (by omega), if_neg (by omega), if_pos hroom]
        have hkept := keepsNewest_of_kept hsmall hreduce hadd (by
          rw [List.length_drop, (go.sort_perm _).length_eq])
        rw [hkept, perm_drop_iff (go.sort_perm _)]
        exact ⟨fun h => ⟨hover, fun _ _ => h⟩, fun h => h.2 hsmall hroom⟩
      · have hadd : ∃ room, t.add go bandwidths = some { t with data :=
            ⟨t.data.elems.drop (t.reduce bandwidths.elems.length) ++ bandwidths.elems, room⟩ } := by
          simp only [add]
          rw [if_neg (by omega), if_neg (by omega), if_neg hroom]
          exact ⟨_, rfl⟩
        rcases hadd with ⟨room, hadd⟩
        rw [keepsNewest_of_kept hsmall hreduce hadd List.length_drop]
        exact iff_of_true (List.Perm.refl _) ⟨hover, fun _ h => absurd h hroom⟩
  · have hadd : t.add go bandwidths = some { t with data :=
        ⟨bandwidths.elems.drop (bandwidths.elems.length - t.capacity), bandwidths.room⟩ } := by
      simp only [add]
      rw [if_pos (by omega)]
    refine iff_of_true ⟨_, hadd, ?_, fun _ => List.Perm.refl _, fun h => absurd h hsmall⟩
      ⟨fun h => hsmall h.1, fun h => absurd h hsmall⟩
    show (bandwidths.elems.drop _).length ≤ _
    rw [List.length_drop]
    omega

/-- Two records in an engine of capacity ten, and a batch of nine: five are to go. -/
theorem overreach_panics :
    let t : FileEngine := ⟨⟨[recordAt 1, recordAt 2], 0⟩, 10⟩
    let batch : Slice := ⟨List.replicate 9 (recordAt 3), 0⟩
    t.data.elems.length ≤ t.capacity ∧ t.add insertionRuntime batch = none ∧
      ¬KeepsNewest insertionRuntime t batch := by
  intro t batch
  have hpanic : t.add insertionRuntime batch = none := by decide
  refine ⟨by decide, hpanic, ?_⟩
  rintro ⟨t', ht', -⟩
  rw [hpanic] at ht'
  cases ht'

end FileEngine

end Accumulation.Store
