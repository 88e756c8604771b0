/-
# Accumulation.Report.RingBuff — the ring buffer of the report job.

`RingBuff` is the source's struct together with what its operations keep true: the cell array has
the ring's capacity, the head stands inside it, and the tail is `size` cells behind the head.  The
operations are translated as they stand.  Seen from outside a ring is the list `surplus` of its
elements from head to tail; the lemmas below say what each operation does to that list.
-/
import Mathlib

namespace Accumulation.Report

/-- `RingBuff[T]`; the zero value of `T` is `default`. -/
structure RingBuff (T : Type*) where
  items : List T
  size : Nat
  capacity : Nat
  head : Nat
  tail : Nat
  length_items : items.length = capacity
  size_le : size ≤ capacity
  head_le : head ≤ capacity - 1
  tail_eq : tail = (head + size) % capacity

namespace RingBuff

variable {T : Type*} [Inhabited T]

/-- `NewRingBuff` -/
def newRingBuff (capacity : Nat) : RingBuff T where
  items := List.replicate capacity default
  size := 0
  capacity := capacity
  head := 0
  tail := 0
  length_items := List.length_replicate
  size_le := Nat.zero_le _
  head_le := Nat.zero_le _
  tail_eq := (Nat.zero_mod _).symm

omit [Inhabited T] in
def enqueue (rb : RingBuff T) (val : T) : Bool × RingBuff T :=
  if h : rb.size = rb.capacity then (false, rb)
  else
    (true, { rb with
      items := rb.items.set rb.tail val
      tail := (rb.tail + 1) % rb.capacity
      size := rb.size + 1
      length_items := by rw [List.length_set, rb.length_items]
      size_le := by have := rb.size_le; omega
      tail_eq := by rw [rb.tail_eq, Nat.mod_add_mod, Nat.add_assoc] })

def dequeue (rb : RingBuff T) : (T × Bool) × RingBuff T :=
  if h : rb.size = 0 then ((default, false), rb)
  else
    ((rb.items.getD rb.head default, true), { rb with
      head := (rb.head + 1) % rb.capacity
      size := rb.size - 1
      size_le := by have := rb.size_le; omega
      head_le := by
        have hlt : (rb.head + 1) % rb.capacity < rb.capacity :=
          Nat.mod_lt _ (by have := rb.size_le; omega)
        omega
      tail_eq := by
        rw [rb.tail_eq, Nat.mod_add_mod]
        congr 1
        omega })

def current (rb : RingBuff T) : T :=
  if rb.size = 0 then default else rb.items.getD rb.head default

/-- The elements from head to tail. -/
def surplus (rb : RingBuff T) : List T :=
  (List.range rb.size).map fun index => rb.items.getD ((index + rb.head) % rb.capacity) default

omit [Inhabited T] in
def surplusCount (rb : RingBuff T) : Nat := rb.capacity - rb.size

/-! ## The ring as a list -/

variable (rb : RingBuff T)

@[simp]
theorem length_surplus : rb.surplus.length = rb.size := by
  simp [surplus]

theorem length_surplus_le : rb.surplus.length ≤ rb.capacity := by
  rw [length_surplus]
  exact rb.size_le

@[simp]
theorem surplus_newRingBuff (capacity : Nat) : (newRingBuff capacity : RingBuff T).surplus = [] :=
  rfl

@[simp]
theorem capacity_newRingBuff (capacity : Nat) :
    (newRingBuff capacity : RingBuff T).capacity = capacity := rfl

omit [Inhabited T] in
/-- A cell between head and tail is not the tail cell. -/
theorem cell_ne_tail {index : Nat} (hindex : index < rb.size) (hroom : rb.size < rb.capacity) :
    (index + rb.head) % rb.capacity ≠ rb.tail := by
  rw [rb.tail_eq, Nat.add_comm rb.head]
  intro h
  have hmod : index ≡ rb.size [MOD rb.capacity] :=
    Nat.ModEq.add_right_cancel' rb.head h
  have := hmod.eq_of_lt_of_lt (by omega) hroom
  omega

omit [Inhabited T] in
/-- A full ring refuses and stays as it is. -/
theorem enqueue_full (val : T) (h : rb.size = rb.capacity) : rb.enqueue val = (false, rb) := by
  rw [enqueue, dif_pos h]

/-- **A ring with room takes the element at its end.** -/
theorem enqueue_room (val : T) (h : rb.size < rb.capacity) :
    (rb.enqueue val).1 = true ∧ (rb.enqueue val).2.surplus = rb.surplus ++ [val] := by
  rw [enqueue, dif_neg (by omega)]
  refine ⟨rfl, ?_⟩
  simp only [surplus]
  rw [List.range_succ, List.map_append, List.map_singleton]
  congr 1
  · refine List.map_congr_left fun index hindex => ?_
    have hne := rb.cell_ne_tail (List.mem_range.mp hindex) h
    rw [List.getD_eq_getElem?_getD, List.getD_eq_getElem?_getD, List.getElem?_set_ne hne.symm]
  · have htail : rb.tail < rb.items.length := by
      rw [rb.length_items, rb.tail_eq]
      exact Nat.mod_lt _ (by omega)
    rw [Nat.add_comm, ← rb.tail_eq, List.getD_eq_getElem?_getD, List.getElem?_set_self htail]
    rfl

omit [Inhabited T] in
@[simp]
theorem capacity_enqueue (val : T) : (rb.enqueue val).2.capacity = rb.capacity := by
  unfold enqueue
  split <;> rfl

/-- The head cell holds the first element. -/
theorem surplus_cons (h : rb.size ≠ 0) :
    rb.surplus = rb.items.getD rb.head default :: (rb.dequeue).2.surplus := by
  obtain ⟨n, hn⟩ : ∃ n, rb.size = n + 1 := ⟨rb.size - 1, by omega⟩
  have hcap : 0 < rb.capacity := by have := rb.size_le; omega
  have hhead : rb.head < rb.capacity := by have := rb.head_le; omega
  rw [dequeue, dif_neg h]
  simp only [surplus, hn, Nat.add_sub_cancel]
  rw [List.range_succ_eq_map, List.map_cons, Nat.zero_add, Nat.mod_eq_of_lt hhead, List.map_map]
  congr 1
  refine List.map_congr_left fun index _ => ?_
  simp only [Function.comp_apply, Nat.add_mod_mod]
  rw [show index.succ + rb.head = index + (rb.head + 1) by omega]

/-- **`Dequeue` takes the first element.** -/
theorem surplus_dequeue : (rb.dequeue).2.surplus = rb.surplus.tail := by
  by_cases h : rb.size = 0
  · have hnil : rb.surplus = [] := List.length_eq_zero_iff.mp (by rw [length_surplus, h])
    rw [dequeue, dif_pos h, hnil]
    rfl
  · rw [rb.surplus_cons h]
    rfl

@[simp]
theorem capacity_dequeue : (rb.dequeue).2.capacity = rb.capacity := by
  unfold dequeue
  split <;> rfl

/-- **`Current` is the first element**, or the zero value when there is none. -/
theorem current_eq : rb.current = rb.surplus.headD default := by
  by_cases h : rb.size = 0
  · have hnil : rb.surplus = [] := List.length_eq_zero_iff.mp (by rw [length_surplus, h])
    rw [current, if_pos h, hnil]
    rfl
  · rw [current, if_neg h, rb.surplus_cons h]
    rfl

end RingBuff

end Accumulation.Report
