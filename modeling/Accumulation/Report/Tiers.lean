/-
# Accumulation.Report.Tiers — the report job as three queues and a flag.

What the report job is for: requests go in, wait, and come out once.  `Tiers` is the job with its
data structures forgotten.  The ring, the unread part of the file and `tmp` are lists, `accepted`
and `reported` record what went in and what came out, and `Tiers.Step` says which request each
action moves from where to where.

Two invariants are read off that relation.  `Conserved` holds whatever happens: every accepted
request is in exactly one place.  `InOrder` says that the places, taken in the order reported, ring,
file, `tmp`, list the requests as they were accepted; it is kept by every step except one kind of
`tryLoadData` (`LoadsInOrder`).
-/
import Mathlib

namespace Accumulation.Report

variable {α : Type*}

/-- What can happen to a started job.  `Add` is two actions, because it may be overtaken by a report
between its failed `Enqueue` and the rest of `doAdd`; a report attempt is two, because requests may
be added between `Current` and the outcome of the report. -/
inductive Action (α : Type*)
  /-- `Add` takes the mutex and tries the ring -/
  | add (req : α) (forceAdd : Bool)
  /-- the rest of an `Add` whose request did not enter the ring -/
  | spill (storeFails : Bool)
  /-- `loopReport` reads `Current` -/
  | current
  /-- the report succeeded, `Dequeue` -/
  | reportOk
  /-- the report failed -/
  | reportFailed
  | tryLoadData

/-- Added without force, and never to a failing store. -/
def Action.Plain : Action α → Prop
  | .add _ forceAdd => forceAdd = false
  | .spill storeFails => storeFails = false
  | _ => True

/-- The request that an action hands to `Add`. -/
def Action.added : Action α → Option α
  | .add req _ => some req
  | _ => none

/-- Where the requests of a running job are. -/
structure Tiers (α : Type*) where
  accepted : List α
  reported : List α
  ring : List α
  unread : List α
  tmp : List α
  /-- the request of an `Add` that holds the mutex -/
  adding : Option α
  /-- the request that is being reported -/
  reporting : Option α
  dataBuffOnly : Bool

namespace Tiers

/-- What `tryLoadData` leaves of the ring's room for `tmp`. -/
def roomForTmp (len : Nat) (t : Tiers α) : Nat :=
  len - (t.ring ++ t.unread.take (len - t.ring.length)).length

/-- **What each action does**, with a ring of `len` cells. -/
inductive Step (len : Nat) (t : Tiers α) : Action α → Tiers α → Prop
  | enqueue (req : α) (forceAdd : Bool) (hfree : t.adding = none) (hroom : t.ring.length < len)
      (hopen : (t.dataBuffOnly || forceAdd) = true) :
      Step len t (.add req forceAdd)
        { t with ring := t.ring ++ [req], accepted := t.accepted ++ [req] }
  | refuse (req : α) (forceAdd : Bool) (hfree : t.adding = none)
      (hclosed : (t.dataBuffOnly || forceAdd) = true → t.ring.length = len) :
      Step len t (.add req forceAdd)
        { t with adding := some req, accepted := t.accepted ++ [req] }
  | keep (req : α) (storeFails : Bool) (hadding : t.adding = some req)
      (hkeep : storeFails = true ∨ (t.tmp ++ [req]).length < len) :
      Step len t (.spill storeFails)
        { t with tmp := t.tmp ++ [req], adding := none, dataBuffOnly := false }
  | flush (req : α) (hadding : t.adding = some req) (hfull : len ≤ (t.tmp ++ [req]).length) :
      Step len t (.spill false)
        { t with unread := t.unread ++ (t.tmp ++ [req]), tmp := [], adding := none,
                 dataBuffOnly := false }
  | current (hidle : t.reporting = none) :
      Step len t .current { t with reporting := t.ring.head? }
  | reportOk (req : α) (hreporting : t.reporting = some req) :
      Step len t .reportOk
        { t with ring := t.ring.tail, reported := t.reported ++ [req], reporting := none }
  | reportFailed (req : α) (hreporting : t.reporting = some req) :
      Step len t .reportFailed { t with reporting := none }
  | loadFull (hfree : t.adding = none) (hidle : t.reporting = none)
      (hfull : ¬ t.ring.length < len) : Step len t .tryLoadData t
  | load (hfree : t.adding = none) (hidle : t.reporting = none) (hroom : t.ring.length < len) :
      Step len t .tryLoadData
        { t with
          ring := t.ring ++ t.unread.take (len - t.ring.length) ++ t.tmp.take (t.roomForTmp len)
          unread := t.unread.drop (len - t.ring.length)
          tmp := t.tmp.drop (t.roomForTmp len)
          dataBuffOnly := t.dataBuffOnly || decide (t.tmp.length ≤ t.roomForTmp len) }

variable {len : Nat} {t t' : Tiers α} {a : Action α}

/-- Exactly `Add` accepts, and what it is given. -/
theorem accepted_step (hstep : Step len t a t') :
    t'.accepted = t.accepted ++ a.added.toList := by
  cases hstep with
  | enqueue | refuse => rfl
  | keep | flush | current | reportOk | reportFailed | loadFull | load =>
    exact (List.append_nil _).symm

/-! ## The request being reported -/

/-- What is being reported is what the ring will give up next. -/
def AtHead (t : Tiers α) : Prop := ∀ req, t.reporting = some req → t.ring.head? = some req

theorem AtHead.cons (h : t.AtHead) {req : α} (hreporting : t.reporting = some req) :
    t.ring = req :: t.ring.tail :=
  (List.cons_head?_tail (h req hreporting)).symm

theorem atHead_step (h : t.AtHead) (hstep : Step len t a t') : t'.AtHead := by
  cases hstep with
  | enqueue req forceAdd hfree hroom hopen =>
    intro r hr
    simp only [List.head?_append, h r hr, Option.some_or]
  | refuse | keep | flush | loadFull => exact h
  | current => exact fun _ hr => hr
  | reportOk | reportFailed => exact fun _ hr => nomatch hr
  | load hfree hidle => exact fun r hr => nomatch hidle.symm.trans hr

/-! ## Every request is somewhere -/

/-- **Conservation.**  What was accepted is what was reported and what is waiting. -/
def Conserved (t : Tiers α) : Prop :=
  t.AtHead ∧
    (t.reported ++ t.ring ++ t.unread ++ t.tmp ++ t.adding.toList).Perm t.accepted

/-- Requests that move from the front of one list to the end of the list before it. -/
theorem take_append_drop_middle (xs ys zs : List α) (n : Nat) :
    xs ++ ys.take n ++ (ys.drop n ++ zs) = xs ++ (ys ++ zs) := by
  rw [List.append_assoc, ← List.append_assoc (ys.take n), List.take_append_drop]

/-- A load moves every request to another tier without changing the set of them.  Only what the
loaded requests of the file overtake can change places. -/
theorem load_perm (xs unread tmp : List α) (m n : Nat) :
    (xs ++ unread.take m ++ tmp.take n ++ unread.drop m ++ tmp.drop n).Perm
      (xs ++ unread ++ tmp) := by
  have hswap : (tmp.take n ++ unread.drop m).Perm (unread.drop m ++ tmp.take n) :=
    List.perm_append_comm
  have h := (hswap.append_right (tmp.drop n)).append_left (xs ++ unread.take m)
  rw [List.append_assoc (unread.drop m), List.take_append_drop, take_append_drop_middle] at h
  simpa only [List.append_assoc] using h

theorem conserved_step (h : t.Conserved) (hstep : Step len t a t') : t'.Conserved := by
  obtain ⟨hhead, hperm⟩ := h
  refine ⟨atHead_step hhead hstep, ?_⟩
  cases hstep with
  | enqueue req forceAdd hfree =>
    rw [hfree, Option.toList_none, List.append_nil] at hperm
    have hmove : ([req] ++ (t.unread ++ t.tmp)).Perm (t.unread ++ t.tmp ++ [req]) :=
      List.perm_append_comm
    have hend := (hmove.append_left (t.reported ++ t.ring)).trans
      (by simpa only [List.append_assoc] using hperm.append_right [req])
    simpa only [hfree, Option.toList_none, List.append_nil, List.append_assoc] using hend
  | refuse req forceAdd hfree =>
    rw [hfree, Option.toList_none, List.append_nil] at hperm
    exact hperm.append_right [req]
  | keep req storeFails hadding =>
    rw [hadding] at hperm
    simpa only [Option.toList_none, Option.toList_some, List.append_nil, List.append_assoc]
      using hperm
  | flush req hadding =>
    rw [hadding] at hperm
    simpa only [Option.toList_none, Option.toList_some, List.append_nil, List.append_assoc]
      using hperm
  | current | reportFailed | loadFull => exact hperm
  | reportOk req hreporting =>
    rw [hhead.cons hreporting] at hperm
    simpa only [List.append_assoc, List.singleton_append, List.cons_append, List.nil_append]
      using hperm
  | load hfree =>
    rw [hfree, Option.toList_none, List.append_nil] at hperm ⊢
    refine List.Perm.trans ?_ hperm
    have h := load_perm (t.reported ++ t.ring) t.unread t.tmp (len - t.ring.length)
      (t.roomForTmp len)
    simpa only [List.append_assoc] using h

/-! ## Every request is in its turn -/

/-- **Order.**  Reported, ring, file and `tmp` list the requests as they were accepted, and when the
data counts as being in the ring only there is nothing in the file and in `tmp`. -/
def InOrder (t : Tiers α) : Prop :=
  t.AtHead ∧
    t.accepted = t.reported ++ t.ring ++ t.unread ++ t.tmp ++ t.adding.toList ∧
    (t.dataBuffOnly = true → t.unread = [] ∧ t.tmp = [])

/-- A `tryLoadData` that finds the ring full, or something in `tmp`, or no more in the file than the
ring has room for. -/
def LoadsInOrder (len : Nat) (t : Tiers α) : Action α → Prop
  | .tryLoadData => ¬ t.ring.length < len ∨ t.tmp ≠ [] ∨ t.unread.length ≤ len - t.ring.length
  | _ => True

/-- `tmp` gets room in the ring only after the whole file. -/
theorem unread_of_roomForTmp (h : t.roomForTmp len ≠ 0) :
    t.unread.length ≤ len - t.ring.length := by
  simp only [roomForTmp, List.length_append, List.length_take] at h
  omega

theorem inOrder_step (h : t.InOrder) (hplain : a.Plain) (hC : LoadsInOrder len t a)
    (hstep : Step len t a t') : t'.InOrder := by
  obtain ⟨hhead, horder, hflag⟩ := h
  refine ⟨atHead_step hhead hstep, ?_⟩
  cases hstep with
  | enqueue req forceAdd hfree hroom hopen =>
    -- without force the ring is open only when there is nothing behind it
    obtain rfl : forceAdd = false := hplain
    rw [Bool.or_false] at hopen
    obtain ⟨hunread, htmp⟩ := hflag hopen
    refine ⟨?_, hflag⟩
    simp only [horder, hunread, htmp, hfree, Option.toList_none, List.append_nil,
      List.append_assoc]
  | refuse req forceAdd hfree =>
    refine ⟨?_, hflag⟩
    simp only [horder, hfree, Option.toList_none, Option.toList_some, List.append_nil]
  | keep req storeFails hadding =>
    refine ⟨?_, fun hcon => nomatch hcon⟩
    simp only [horder, hadding, Option.toList_none, Option.toList_some, List.append_nil,
      List.append_assoc]
  | flush req hadding =>
    refine ⟨?_, fun hcon => nomatch hcon⟩
    simp only [horder, hadding, Option.toList_none, Option.toList_some, List.append_nil,
      List.append_assoc]
  | current | reportFailed | loadFull => exact ⟨horder, hflag⟩
  | reportOk req hreporting =>
    refine ⟨?_, hflag⟩
    rw [hhead.cons hreporting] at horder
    simpa only [List.append_assoc, List.singleton_append, List.cons_append, List.nil_append]
      using horder
  | load hfree hidle hroom =>
    have hC : t.tmp ≠ [] ∨ t.unread.length ≤ len - t.ring.length :=
      hC.resolve_left (not_not.mpr hroom)
    by_cases hall : t.unread.length ≤ len - t.ring.length
    · refine ⟨?_, fun hopen => ⟨List.drop_eq_nil_of_le hall, ?_⟩⟩
      · simp only [horder, List.take_of_length_le hall, List.drop_eq_nil_of_le hall,
          List.append_nil, List.append_assoc, List.take_append_drop]
      · rcases Bool.or_eq_true_iff.mp hopen with hopen | hopen
        · rw [(hflag hopen).2, List.drop_nil]
        · exact List.drop_eq_nil_of_le (of_decide_eq_true hopen)
    · -- the file fills the ring, so `tmp` stays where it is and the flag is left alone
      have hzero : t.roomForTmp len = 0 := by
        by_contra hne
        exact hall (unread_of_roomForTmp hne)
      have hne := hC.resolve_right hall
      have hpos : ¬ t.tmp.length ≤ 0 := by
        rw [Nat.le_zero, List.length_eq_zero_iff]
        exact hne
      refine ⟨?_, fun hopen => ?_⟩
      · simp only [hzero, List.take_zero, List.drop_zero, List.append_nil, horder]
        simp only [List.append_assoc, List.take_append_drop]
      · rw [hzero, decide_eq_false hpos, Bool.or_false] at hopen
        exact absurd (hflag hopen).2 hne

/-- **The one step that loses the order**: `tryLoadData` with an empty `tmp` and more in the file
than fits leaves the rest of the file behind an open ring. -/
theorem loadsInOrder_of_step (hstep : Step len t a t') (h' : t'.InOrder) :
    LoadsInOrder len t a := by
  cases hstep with
  | enqueue | refuse | keep | flush | current | reportOk | reportFailed => trivial
  | loadFull hfree hidle hfull => exact Or.inl hfull
  | load hfree hidle hroom =>
    by_contra hcon
    simp only [LoadsInOrder, not_or, not_not] at hcon
    obtain ⟨-, htmp, hmore⟩ := hcon
    have hopen : (t.dataBuffOnly || decide (t.tmp.length ≤ t.roomForTmp len)) = true := by
      rw [htmp, List.length_nil, decide_eq_true (Nat.zero_le _), Bool.or_true]
    have hleft := (h'.2.2 hopen).1
    rw [List.drop_eq_nil_iff] at hleft
    exact hmore hleft

end Tiers

end Accumulation.Report
