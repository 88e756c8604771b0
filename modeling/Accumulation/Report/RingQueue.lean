/-
# Accumulation.Report.RingQueue — the ring buffer is a bounded queue.

`RingBuff` has what its operations keep among its fields, so that its indices cannot leave the
array.  Here the struct is taken without them (`Ring`), with operations that panic where Go does: at
an index outside the array and at a remainder by zero.  From `NewRingBuff` on the two walk together,
so no run of calls panics, and its answers are those of a queue kept as a list (`Ring.answers_new`).
-/
import Accumulation.Lib.Refinement
import Accumulation.Report.RingBuff

namespace Accumulation.Report

open Accumulation.Lib.Refinement

variable {T : Type*} [Inhabited T]

/-! ## The struct as it is in memory -/

/-- The fields of `RingBuff[T]`. -/
structure Ring (T : Type*) where
  items : List T
  size : Nat
  capacity : Nat
  head : Nat
  tail : Nat

inductive RingCall (T : Type*)
  | enqueue (val : T)
  | dequeue
  | current
  | size
  | surplus
  | surplusCount

inductive RingReply (T : Type*)
  | enqueue (ok : Bool)
  | dequeue (val : T) (ok : Bool)
  | current (val : T)
  | size (n : Nat)
  | surplus (elems : List T)
  | surplusCount (n : Int)

/-- `a % b`, which panics if `b` is zero. -/
def remainder (a b : Nat) : Option Nat := if b = 0 then none else some (a % b)

namespace Ring

/-- `NewRingBuff` -/
def new (capacity : Nat) : Ring T := ⟨List.replicate capacity default, 0, capacity, 0, 0⟩

omit [Inhabited T] in
def enqueue (rb : Ring T) (val : T) : Option (Bool × Ring T) :=
  if rb.size = rb.capacity then some (false, rb)
  else if rb.tail < rb.items.length then
    (remainder (rb.tail + 1) rb.capacity).map fun tail =>
      (true, { rb with items := rb.items.set rb.tail val, tail, size := rb.size + 1 })
  else none

def dequeue (rb : Ring T) : Option ((T × Bool) × Ring T) :=
  if rb.size = 0 then some ((default, false), rb)
  else rb.items[rb.head]?.bind fun val =>
    (remainder (rb.head + 1) rb.capacity).map fun head =>
      ((val, true), { rb with head, size := rb.size - 1 })

def current (rb : Ring T) : Option T :=
  if rb.size = 0 then some default else rb.items[rb.head]?

omit [Inhabited T] in
def surplus (rb : Ring T) : Option (List T) :=
  (List.range rb.size).mapM fun index =>
    (remainder (index + rb.head) rb.capacity).bind fun cell => rb.items[cell]?

omit [Inhabited T] in
def surplusCount (rb : Ring T) : Int := rb.capacity - rb.size

/-- One call; `none` is a panic. -/
def step (rb : Ring T) : RingCall T → Option (RingReply T × Ring T)
  | .enqueue val => (rb.enqueue val).map fun out => (.enqueue out.1, out.2)
  | .dequeue => rb.dequeue.map fun out => (.dequeue out.1.1 out.1.2, out.2)
  | .current => rb.current.map fun val => (.current val, rb)
  | .size => some (.size rb.size, rb)
  | .surplus => rb.surplus.map fun elems => (.surplus elems, rb)
  | .surplusCount => some (.surplusCount rb.surplusCount, rb)

/-- Where the counters stand in a ring that has cells. -/
structure InBounds (rb : Ring T) : Prop where
  head : rb.head < rb.capacity
  tail : rb.tail < rb.capacity
  size : rb.size ≤ rb.capacity
  tail_eq : rb.tail = (rb.head + rb.size) % rb.capacity

end Ring

/-! ## The queue -/

/-- A queue of at most `capacity` elements, the oldest one first. -/
@[ext]
structure BoundedQueue (T : Type*) where
  capacity : Nat
  elems : List T
  bounded : elems.length ≤ capacity

namespace BoundedQueue

omit [Inhabited T] in
def empty (capacity : Nat) : BoundedQueue T := ⟨capacity, [], Nat.zero_le _⟩

omit [Inhabited T] in
/-- An element is refused exactly when the queue is full. -/
def enqueue (q : BoundedQueue T) (val : T) : Bool × BoundedQueue T :=
  if h : q.elems.length = q.capacity then (false, q)
  else
    (true, { q with
      elems := q.elems ++ [val]
      bounded := by
        have := q.bounded
        rw [List.length_append, List.length_singleton]
        omega })

/-- The oldest element, or the zero value and false. -/
def dequeue (q : BoundedQueue T) : (T × Bool) × BoundedQueue T :=
  ((q.elems.headD default, !q.elems.isEmpty), { q with
    elems := q.elems.tail
    bounded := by
      have := q.bounded
      rw [List.length_tail]
      omega })

def step (q : BoundedQueue T) : RingCall T → Option (RingReply T × BoundedQueue T)
  | .enqueue val => some (.enqueue (q.enqueue val).1, (q.enqueue val).2)
  | .dequeue => some (.dequeue q.dequeue.1.1 q.dequeue.1.2, q.dequeue.2)
  | .current => some (.current (q.elems.headD default), q)
  | .size => some (.size q.elems.length, q)
  | .surplus => some (.surplus q.elems, q)
  | .surplusCount => some (.surplusCount (q.capacity - q.elems.length), q)

end BoundedQueue

/-! ## The three side by side -/

namespace RingBuff

variable (rb : RingBuff T)

omit [Inhabited T] in
/-- The fields alone. -/
def fields : Ring T := ⟨rb.items, rb.size, rb.capacity, rb.head, rb.tail⟩

/-- The queue a ring stands for. -/
def queue : BoundedQueue T := ⟨rb.capacity, rb.surplus, rb.length_surplus_le⟩

omit [Inhabited T] in
theorem remainder_eq {a b : Nat} (h : 0 < b) : remainder a b = some (a % b) := by
  rw [remainder, if_neg (by omega)]

omit [Inhabited T] in
theorem fields_enqueue (val : T) :
    rb.fields.enqueue val = some ((rb.enqueue val).1, (rb.enqueue val).2.fields) := by
  unfold Ring.enqueue enqueue
  by_cases h : rb.size = rb.capacity
  · rw [if_pos (show rb.fields.size = rb.fields.capacity from h), dif_pos h]
  · have hcapacity : 0 < rb.capacity := by have := rb.size_le; omega
    have htail : rb.tail < rb.items.length := by
      rw [rb.length_items, rb.tail_eq]
      exact Nat.mod_lt _ hcapacity
    rw [if_neg (show ¬rb.fields.size = rb.fields.capacity from h), dif_neg h,
      if_pos (show rb.fields.tail < rb.fields.items.length from htail),
      show remainder (rb.fields.tail + 1) rb.fields.capacity = _ from remainder_eq hcapacity]
    rfl

/-- The head cell of a ring with elements is there. -/
theorem items_head (h : rb.size ≠ 0) : rb.items[rb.head]? = some (rb.items.getD rb.head default) := by
  have hhead : rb.head < rb.items.length := by
    have := rb.size_le
    have := rb.head_le
    rw [rb.length_items]
    omega
  rw [List.getD_eq_getElem?_getD, List.getElem?_eq_getElem hhead, Option.getD_some]

theorem fields_dequeue : rb.fields.dequeue = some (rb.dequeue.1, rb.dequeue.2.fields) := by
  unfold Ring.dequeue dequeue
  by_cases h : rb.size = 0
  · rw [if_pos (show rb.fields.size = 0 from h), dif_pos h]
  · have hcapacity : 0 < rb.capacity := by have := rb.size_le; omega
    rw [if_neg (show ¬rb.fields.size = 0 from h), dif_neg h,
      show rb.fields.items[rb.fields.head]? = _ from rb.items_head h, Option.bind_some,
      show remainder (rb.fields.head + 1) rb.fields.capacity = _ from remainder_eq hcapacity]
    rfl

theorem fields_current : rb.fields.current = some rb.current := by
  unfold Ring.current current
  by_cases h : rb.size = 0
  · rw [if_pos (show rb.fields.size = 0 from h), if_pos h]
  · rw [if_neg (show ¬rb.fields.size = 0 from h), if_neg h]
    exact rb.items_head h

omit [Inhabited T] in
theorem mapM_some {ι β : Type*} {f : ι → Option β} {g : ι → β} {is : List ι}
    (h : ∀ i ∈ is, f i = some (g i)) : is.mapM f = some (is.map g) := by
  induction is with
  | nil => rfl
  | cons i is ih =>
    rw [List.mapM_cons, h i List.mem_cons_self,
      ih fun j hj => h j (List.mem_cons_of_mem i hj)]
    rfl

theorem fields_surplus : rb.fields.surplus = some rb.surplus := by
  have hcell : ∀ index ∈ List.range rb.size,
      ((remainder (index + rb.head) rb.capacity).bind fun cell => rb.items[cell]?) =
        some (rb.items.getD ((index + rb.head) % rb.capacity) default) := by
    intro index hindex
    have hcapacity : 0 < rb.capacity := by
      have := List.mem_range.mp hindex
      have := rb.size_le
      omega
    have hlt : (index + rb.head) % rb.capacity < rb.items.length := by
      rw [rb.length_items]
      exact Nat.mod_lt _ hcapacity
    rw [remainder_eq hcapacity, Option.bind_some, List.getD_eq_getElem?_getD,
      List.getElem?_eq_getElem hlt, Option.getD_some]
  exact mapM_some hcell

/-- `Enqueue` is the queue's. -/
theorem queue_enqueue (val : T) : (rb.enqueue val).1 = (rb.queue.enqueue val).1 ∧
    (rb.enqueue val).2.queue = (rb.queue.enqueue val).2 := by
  have hlength : rb.queue.elems.length = rb.size := rb.length_surplus
  unfold BoundedQueue.enqueue
  by_cases h : rb.size = rb.capacity
  · rw [rb.enqueue_full val h, dif_pos (show rb.queue.elems.length = rb.queue.capacity from
      hlength.trans h)]
    exact ⟨rfl, rfl⟩
  · have hroom : rb.size < rb.capacity := by have := rb.size_le; omega
    rcases rb.enqueue_room val hroom with ⟨hok, helems⟩
    rw [dif_neg (show ¬rb.queue.elems.length = rb.queue.capacity by rw [hlength]; exact h)]
    refine ⟨hok, ?_⟩
    apply BoundedQueue.ext
    · exact rb.capacity_enqueue val
    · exact helems

/-- `Dequeue` is the queue's. -/
theorem queue_dequeue :
    rb.dequeue.1 = rb.queue.dequeue.1 ∧ rb.dequeue.2.queue = rb.queue.dequeue.2 := by
  constructor
  · show _ = (rb.surplus.headD default, !rb.surplus.isEmpty)
    by_cases h : rb.size = 0
    · have hnil : rb.surplus = [] := List.length_eq_zero_iff.mp (by rw [length_surplus, h])
      rw [dequeue, dif_pos h, hnil]
      rfl
    · rw [rb.surplus_cons h, dequeue, dif_neg h]
      rfl
  · apply BoundedQueue.ext
    · exact rb.capacity_dequeue
    · exact rb.surplus_dequeue

/-- **One call**: the struct, the ring and the queue stay together. -/
theorem step_together (call : RingCall T) : ∃ (reply : RingReply T) (rb' : RingBuff T),
    rb.fields.step call = some (reply, rb'.fields) ∧
      rb.queue.step call = some (reply, rb'.queue) ∧ rb'.capacity = rb.capacity := by
  cases call with
  | enqueue val =>
    refine ⟨.enqueue (rb.enqueue val).1, (rb.enqueue val).2, ?_, ?_, rb.capacity_enqueue val⟩
    · rw [Ring.step, rb.fields_enqueue]
      rfl
    · rw [BoundedQueue.step, ← (rb.queue_enqueue val).1, ← (rb.queue_enqueue val).2]
  | dequeue =>
    refine ⟨.dequeue rb.dequeue.1.1 rb.dequeue.1.2, rb.dequeue.2, ?_, ?_, rb.capacity_dequeue⟩
    · rw [Ring.step, rb.fields_dequeue]
      rfl
    · rw [BoundedQueue.step, ← rb.queue_dequeue.1, ← rb.queue_dequeue.2]
  | current =>
    refine ⟨.current rb.current, rb, ?_, ?_, rfl⟩
    · rw [Ring.step, rb.fields_current]
      rfl
    · rw [rb.current_eq]
      rfl
  | size =>
    refine ⟨.size rb.size, rb, rfl, ?_, rfl⟩
    rw [← rb.length_surplus]
    rfl
  | surplus =>
    refine ⟨.surplus rb.surplus, rb, ?_, rfl, rfl⟩
    rw [Ring.step, rb.fields_surplus]
    rfl
  | surplusCount =>
    refine ⟨.surplusCount (rb.capacity - rb.size), rb, rfl, ?_, rfl⟩
    rw [← rb.length_surplus]
    rfl

omit [Inhabited T] in
theorem inBounds (h : 0 < rb.capacity) : rb.fields.InBounds where
  head := by
    show rb.head < rb.capacity
    have := rb.head_le
    omega
  tail := by
    show rb.tail < rb.capacity
    rw [rb.tail_eq]
    exact Nat.mod_lt _ h
  size := rb.size_le
  tail_eq := rb.tail_eq

end RingBuff

/-- **`RingBuff` is a bounded queue.**  From `NewRingBuff` on no call panics, every answer is that
of the queue, and the counters stay where they should. -/
theorem Ring.answers_new (capacity : Nat) (calls : List (RingCall T)) :
    ∃ replies rb q, answers Ring.step (Ring.new capacity) calls = some (replies, rb) ∧
      answers BoundedQueue.step (BoundedQueue.empty capacity) calls = some (replies, q) ∧
      (0 < capacity → rb.capacity = capacity ∧ rb.InBounds) := by
  let R (s : Ring T) (q : BoundedQueue T) : Prop :=
    ∃ rb : RingBuff T, s = rb.fields ∧ q = rb.queue ∧ rb.capacity = capacity
  have hstep : ∀ s q call, R s q → ∃ reply s' q', s.step call = some (reply, s') ∧
      q.step call = some (reply, q') ∧ R s' q' := by
    rintro s q call ⟨rb, rfl, rfl, hcapacity⟩
    rcases rb.step_together call with ⟨reply, rb', hs, hq, hcapacity'⟩
    exact ⟨reply, rb'.fields, rb'.queue, hs, hq, rb', rfl, rfl, hcapacity'.trans hcapacity⟩
  have hnew : R (Ring.new capacity) (BoundedQueue.empty capacity) :=
    ⟨RingBuff.newRingBuff capacity, rfl, rfl, rfl⟩
  rcases answers_of_simulation hstep hnew calls with ⟨replies, _, _, hs, hq, rb, rfl, rfl, hcap⟩
  refine ⟨replies, rb.fields, rb.queue, hs, hq, ?_⟩
  intro hpos
  exact ⟨hcap, rb.inBounds (by omega)⟩

end Accumulation.Report
