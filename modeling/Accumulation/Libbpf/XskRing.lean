/-
# Accumulation.Libbpf.XskRing — the rings of an AF_XDP socket.

User space and the kernel share a ring and two counters of 32 bits that never stop.  Each end keeps
copies of both: it works on its own one and reads the other's again only when it has to.

To its clients a ring is a tape (`Tape`): positions are never used twice, and three marks move along
it.  On the way to the kernel they are what the kernel has taken, what was submitted and what was
reserved; on the way from it, what was released, what was peeked at and what the kernel has put.  The
ends answer as the tape does in any interleaving with the kernel, however often the counters wrap
(`xsk_ring_prod_refines`, `xsk_ring_cons_refines`).

The kernel's end is not here.  It is an action that may happen at any time: it takes entries that were
submitted, in their order, or puts entries where there is room.
-/
import Accumulation.Lib.Refinement
import Accumulation.Lib.Wrapping

namespace Accumulation.Libbpf

open Accumulation.Lib.Refinement Accumulation.Lib.Wrapping

variable {α : Type*}

/-! ## The ring -/

/-- `xsk_ring_prod` and `xsk_ring_cons`. -/
structure XskRing (α : Type*) where
  cachedProd : UInt32
  cachedCons : UInt32
  mask : UInt32
  size : UInt32
  /-- shared with the kernel, as are the next two -/
  producer : UInt32
  consumer : UInt32
  ring : List α

namespace XskRing

/-- Where the entry of an index is: `&addrs[idx & mask]`. -/
def slot (r : XskRing α) (idx : UInt32) : ℕ := (idx &&& r.mask).toNat

/-- `xsk_prod_nb_free` -/
def prodNbFree (r : XskRing α) (nb : UInt32) : UInt32 × XskRing α :=
  let freeEntries := r.cachedCons - r.cachedProd
  if freeEntries ≥ nb then (freeEntries, r)
  else
    let cachedCons := r.consumer + r.size
    (cachedCons - r.cachedProd, { r with cachedCons })

/-- `xsk_cons_nb_avail` -/
def consNbAvail (r : XskRing α) (nb : UInt32) : UInt32 × XskRing α :=
  let refreshed :=
    if r.cachedProd - r.cachedCons = 0 then { r with cachedProd := r.producer } else r
  let entries := refreshed.cachedProd - refreshed.cachedCons
  (if entries > nb then nb else entries, refreshed)

/-- `xsk_ring_prod__reserve`: how many, and `*idx` if it is set. -/
def prodReserve (r : XskRing α) (nb : ℕ) : (ℕ × Option UInt32) × XskRing α :=
  let free := r.prodNbFree (.ofNat nb)
  if free.1.toNat < nb then ((0, none), free.2)
  else
    ((nb, some free.2.cachedProd),
      { free.2 with cachedProd := free.2.cachedProd + .ofNat nb })

/-- `xsk_ring_prod__submit` -/
def prodSubmit (r : XskRing α) (nb : ℕ) : XskRing α :=
  { r with producer := r.producer + .ofNat nb }

/-- `xsk_ring_cons__peek` -/
def consPeek (r : XskRing α) (nb : ℕ) : (ℕ × Option UInt32) × XskRing α :=
  let avail := r.consNbAvail (.ofNat nb)
  if avail.1 > 0 then
    ((avail.1.toNat, some avail.2.cachedCons),
      { avail.2 with cachedCons := avail.2.cachedCons + avail.1 })
  else ((0, none), avail.2)

/-- `xsk_ring_cons__release` -/
def consRelease (r : XskRing α) (nb : ℕ) : XskRing α :=
  { r with consumer := r.consumer + .ofNat nb }

/-- A ring of `xsk_umem__create` or `xsk_socket__create` that is filled from here. -/
def setUpProd (size producer consumer : UInt32) (ring : List α) : XskRing α where
  cachedProd := producer
  cachedCons := consumer + size
  mask := size - 1
  size := size
  producer := producer
  consumer := consumer
  ring := ring

/-- A ring of `xsk_umem__create` or `xsk_socket__create` that is emptied from here. -/
def setUpCons (size producer consumer : UInt32) (ring : List α) : XskRing α where
  cachedProd := producer
  cachedCons := consumer
  mask := size - 1
  size := size
  producer := producer
  consumer := consumer
  ring := ring

/-! ## What happens to a ring -/

inductive ProdAction (α : Type*)
  | reserve (nb : ℕ)
  /-- through `xsk_ring_prod__fill_addr` or `xsk_ring_prod__tx_desc` -/
  | write (idx : UInt32) (value : α)
  | submit (nb : ℕ)
  /-- the kernel takes this many -/
  | kernel (n : ℕ)

inductive ProdAnswer (α : Type*)
  | reserved (nb : ℕ) (idx : Option UInt32)
  | wrote
  | submitted
  | took (entries : List (Option α))
  /-- the index is not in the ring -/
  | outside

/-- What the kernel reads. -/
def kernelTakes (r : XskRing α) (n : ℕ) : List (Option α) :=
  (List.range n).map fun i => r.ring[r.slot (r.consumer + .ofNat i)]?

def prodNext (r : XskRing α) : ProdAction α → ProdAnswer α × XskRing α
  | .reserve nb => (.reserved (r.prodReserve nb).1.1 (r.prodReserve nb).1.2, (r.prodReserve nb).2)
  | .write idx value =>
    if r.slot idx < r.ring.length then
      (.wrote, { r with ring := r.ring.set (r.slot idx) value })
    else (.outside, r)
  | .submit nb => (.submitted, r.prodSubmit nb)
  | .kernel n => (.took (r.kernelTakes n), { r with consumer := r.consumer + .ofNat n })

inductive ConsAction (α : Type*)
  | peek (nb : ℕ)
  /-- through `xsk_ring_cons__comp_addr` or `xsk_ring_cons__rx_desc` -/
  | read (idx : UInt32)
  | release (nb : ℕ)
  /-- the kernel puts these -/
  | kernel (values : List α)

inductive ConsAnswer (α : Type*)
  | peeked (nb : ℕ) (idx : Option UInt32)
  | entry (value : α)
  | released
  | put
  /-- the index is not in the ring -/
  | outside

/-- What the kernel writes. -/
def kernelPuts (r : XskRing α) : List α → XskRing α
  | [] => r
  | value :: values =>
    kernelPuts { r with
      ring := r.ring.set (r.slot r.producer) value
      producer := r.producer + 1 } values

def consNext (r : XskRing α) : ConsAction α → ConsAnswer α × XskRing α
  | .peek nb => (.peeked (r.consPeek nb).1.1 (r.consPeek nb).1.2, (r.consPeek nb).2)
  | .read idx =>
    match r.ring[r.slot idx]? with
    | some value => (.entry value, r)
    | none => (.outside, r)
  | .release nb => (.released, r.consRelease nb)
  | .kernel values => (.put, r.kernelPuts values)

end XskRing

/-! ## The tape -/

/-- Three marks on a tape, and what is written on it. -/
structure Tape (α : Type*) where
  low : ℕ
  mid : ℕ
  high : ℕ
  values : ℕ → Option α

namespace Tape

/-- A tape that nothing has happened to. -/
def blank (base : ℕ) : Tape α := ⟨base, base, base, fun _ => none⟩

/-- An entry is put behind the last one. -/
def put (t : Tape α) (value : α) : Tape α :=
  { t with high := t.high + 1, values := Function.update t.values t.high (some value) }

@[simp]
theorem put_values (t : Tape α) (value : α) :
    (t.put value).values = Function.update t.values t.high (some value) := rfl

end Tape

open XskRing

/-- What a client that fills a ring may do, and the kernel with it: write where it has reserved, submit
what it has written, and take what was submitted. -/
def ProdContract (t : Tape α) : ProdAction α → Prop
  | .reserve _ => True
  | .write idx _ => ∃ pos, t.mid ≤ pos ∧ pos < t.high ∧ idx = counter pos
  | .submit nb => t.mid + nb ≤ t.high ∧ ∀ pos, t.mid ≤ pos → pos < t.mid + nb → t.values pos ≠ none
  | .kernel n => t.low + n ≤ t.mid

/-- What a tape of so many entries answers to it: a reservation fails only for want of room, and the
kernel gets what was written, in its order. -/
inductive ProdSpec (size : ℕ) : Tape α → ProdAction α → ProdAnswer α → Tape α → Prop
  | reserved {t : Tape α} {nb : ℕ} (hroom : t.high + nb ≤ t.low + size) :
      ProdSpec size t (.reserve nb) (.reserved nb (some (counter t.high)))
        { t with high := t.high + nb }
  | full {t : Tape α} {nb : ℕ} (hfull : t.low + size < t.high + nb) :
      ProdSpec size t (.reserve nb) (.reserved 0 none) t
  | wrote {t : Tape α} {pos : ℕ} (value : α) (hpos : t.mid ≤ pos ∧ pos < t.high) :
      ProdSpec size t (.write (counter pos) value) .wrote
        { t with values := Function.update t.values pos (some value) }
  | submitted (t : Tape α) (nb : ℕ) :
      ProdSpec size t (.submit nb) .submitted { t with mid := t.mid + nb }
  | took (t : Tape α) (n : ℕ) :
      ProdSpec size t (.kernel n) (.took ((List.range n).map fun i => t.values (t.low + i)))
        { t with low := t.low + n }

/-- What a client that empties a ring may do, and the kernel with it: read what it has peeked at and
not released, release what it has peeked at, and put entries where there is room. -/
def ConsContract (size : ℕ) (t : Tape α) : ConsAction α → Prop
  | .peek _ => True
  | .read idx => ∃ pos, t.low ≤ pos ∧ pos < t.mid ∧ idx = counter pos
  | .release nb => t.low + nb ≤ t.mid
  | .kernel values => t.high + values.length ≤ t.low + size

/-- What a tape answers to it: the client peeks at entries in the order the kernel has put them in, at
no more than it wants, and at none only if there is none. -/
inductive ConsSpec : Tape α → ConsAction α → ConsAnswer α → Tape α → Prop
  | peeked {t : Tape α} {nb n : ℕ} (hpos : 0 < n) (hn : n ≤ nb) (havail : t.mid + n ≤ t.high) :
      ConsSpec t (.peek nb) (.peeked n (some (counter t.mid))) { t with mid := t.mid + n }
  | empty {t : Tape α} {nb : ℕ} (hempty : t.mid = t.high ∨ 2 ^ 32 ∣ nb) :
      ConsSpec t (.peek nb) (.peeked 0 none) t
  | entry {t : Tape α} {pos : ℕ} {value : α} (hpos : t.low ≤ pos ∧ pos < t.mid)
      (hvalue : t.values pos = some value) : ConsSpec t (.read (counter pos)) (.entry value) t
  | released (t : Tape α) (nb : ℕ) :
      ConsSpec t (.release nb) .released { t with low := t.low + nb }
  | put (t : Tape α) (values : List α) : ConsSpec t (.kernel values) .put (values.foldl Tape.put t)

/-! ## The invariant -/

namespace XskRing

variable {k : ℕ} {r : XskRing α} {t : Tape α}

/-- The window of a ring on its tape, and what the ring holds of it. -/
structure Holds (k : ℕ) (r : XskRing α) (t : Tape α) : Prop where
  small : k < 32
  size : r.size = counter (2 ^ k)
  mask : r.mask = counter (2 ^ k) - 1
  length : r.ring.length = 2 ^ k
  mid : t.low ≤ t.mid ∧ t.mid ≤ t.high
  high : t.high ≤ t.low + 2 ^ k
  consumer : r.consumer = counter t.low
  slots : ∀ pos value, t.low ≤ pos → pos < t.high → t.values pos = some value →
    r.ring[pos % 2 ^ k]? = some value

/-- `cachedCons` is a whole ring ahead of what was free when it was read. -/
structure ProdInv (k : ℕ) (r : XskRing α) (t : Tape α) : Prop extends Holds k r t where
  producer : r.producer = counter t.mid
  cachedProd : r.cachedProd = counter t.high
  cachedCons : ∃ freed, freed ≤ t.low ∧ t.high ≤ freed + 2 ^ k ∧ r.cachedCons = counter (freed + 2 ^ k)
  fresh : ∀ pos, t.high ≤ pos → t.values pos = none
  written : ∀ pos, t.low ≤ pos → pos < t.mid → t.values pos ≠ none

/-- `cachedProd` is what there was when it was read. -/
structure ConsInv (k : ℕ) (r : XskRing α) (t : Tape α) : Prop extends Holds k r t where
  producer : r.producer = counter t.high
  cachedCons : r.cachedCons = counter t.mid
  cachedProd : ∃ seen, t.mid ≤ seen ∧ seen ≤ t.high ∧ r.cachedProd = counter seen
  written : ∀ pos, t.low ≤ pos → pos < t.high → t.values pos ≠ none

theorem pow_lt (hk : k < 32) : 2 ^ k < 2 ^ 32 := Nat.pow_lt_pow_right (by omega) hk

theorem slot_eq (h : Holds k r t) (pos : ℕ) : r.slot (counter pos) = pos % 2 ^ k := by
  rw [slot, h.mask, toNat_and_mask h.small]

theorem slot_lt (h : Holds k r t) (pos : ℕ) : r.slot (counter pos) < r.ring.length := by
  rw [slot_eq h, h.length]
  exact Nat.mod_lt pos (Nat.two_pow_pos k)

/-- **An entry is written** at a position of the window. -/
theorem slots_set (h : Holds k r t) {pos : ℕ} (hpos : t.low ≤ pos ∧ pos < t.low + 2 ^ k) (value : α)
    {high : ℕ} (hhigh : high ≤ t.low + 2 ^ k) (hold : ∀ p, t.low ≤ p → p < high → p ≠ pos → p < t.high)
    (p : ℕ) (v : α) (hp : t.low ≤ p) (hlt : p < high)
    (hv : Function.update t.values pos (some value) p = some v) :
    (r.ring.set (r.slot (counter pos)) value)[p % 2 ^ k]? = some v := by
  by_cases hsame : p = pos
  · subst hsame
    rw [Function.update_self] at hv
    rw [slot_eq h, List.getElem?_set_self (by
      rw [h.length]
      exact Nat.mod_lt p (Nat.two_pow_pos k)), hv]
  · rw [Function.update_of_ne hsame] at hv
    have hslot : r.slot (counter pos) ≠ p % 2 ^ k := by
      rw [slot_eq h]
      intro hmod
      exact hsame (eq_of_mod_eq ⟨hp, by omega⟩ hpos hmod.symm)
    rw [List.getElem?_set_ne hslot]
    exact h.slots p v hp (hold p hp hlt hsame) hv

/-! ## Filling -/

/-- **The free entries**, as they are or as they were when the kernel's counter was read last. -/
theorem prodNbFree_spec (h : ProdInv k r t) (nb : UInt32) :
    ∃ freed, freed ≤ t.low ∧ t.high ≤ freed + 2 ^ k ∧
      (r.prodNbFree nb).1.toNat = freed + 2 ^ k - t.high ∧
      (r.prodNbFree nb).2 = { r with cachedCons := counter (freed + 2 ^ k) } ∧
      (nb.toNat ≤ freed + 2 ^ k - t.high ∨ freed = t.low) := by
  obtain ⟨freed, hfreed, hroom, hcached⟩ := h.cachedCons
  have hpow := pow_lt h.small
  have hlow := h.mid
  have hfree : (counter (freed + 2 ^ k) - counter t.high).toNat = freed + 2 ^ k - t.high :=
    toNat_sub hroom (by omega)
  by_cases hnb : r.cachedCons - r.cachedProd ≥ nb
  · have hkept : r.prodNbFree nb = (r.cachedCons - r.cachedProd, r) := if_pos hnb
    rw [hcached, h.cachedProd, ge_iff_le, UInt32.le_iff_toNat_le, hfree] at hnb
    refine ⟨freed, hfreed, hroom, ?_, ?_, Or.inl hnb⟩
    · rw [hkept, hcached, h.cachedProd, hfree]
    · rw [hkept, ← hcached]
  · have hread : r.prodNbFree nb =
        (r.consumer + r.size - r.cachedProd, { r with cachedCons := r.consumer + r.size }) :=
      if_neg hnb
    have hsum : r.consumer + r.size = counter (t.low + 2 ^ k) := by
      rw [h.consumer, h.size, counter_add]
    refine ⟨t.low, le_rfl, h.high, ?_, ?_, Or.inr rfl⟩
    · rw [hread, hsum, h.cachedProd]
      exact toNat_sub h.high (by omega)
    · rw [hread, hsum]

theorem prodReserve_spec (h : ProdInv k r t) (nb : ℕ) :
    ∃ t', ProdSpec (2 ^ k) t (.reserve nb) (.reserved (r.prodReserve nb).1.1 (r.prodReserve nb).1.2)
      t' ∧ ProdInv k (r.prodReserve nb).2 t' := by
  obtain ⟨freed, hfreed, hroom, hfree, hring, hread⟩ := prodNbFree_spec h (.ofNat nb)
  have hpow := pow_lt h.small
  have hmid := h.mid
  rw [UInt32.toNat_ofNat'] at hread
  by_cases hlt : (r.prodNbFree (.ofNat nb)).1.toNat < nb
  · have hnone : r.prodReserve nb = ((0, none), (r.prodNbFree (.ofNat nb)).2) := if_pos hlt
    rw [hnone, hring]
    rw [hfree] at hlt
    refine ⟨t, .full ?_, { h with cachedCons := ⟨freed, hfreed, hroom, rfl⟩ }⟩
    rcases hread with hread | rfl
    · -- more than 2^32 were asked for
      have hbig : 2 ^ 32 ≤ nb := by
        by_contra hsmall
        rw [Nat.mod_eq_of_lt (by omega)] at hread
        omega
      omega
    · omega
  · have hsome : r.prodReserve nb = ((nb, some (r.prodNbFree (.ofNat nb)).2.cachedProd),
        { (r.prodNbFree (.ofNat nb)).2 with
          cachedProd := (r.prodNbFree (.ofNat nb)).2.cachedProd + .ofNat nb }) := if_neg hlt
    rw [hfree] at hlt
    rw [hsome, hring]
    simp only [h.cachedProd]
    refine ⟨_, .reserved (by omega), ?_⟩
    exact
      { small := h.small, size := h.size, mask := h.mask, length := h.length
        mid := ⟨hmid.1, by dsimp only; omega⟩
        high := by dsimp only; omega
        consumer := h.consumer
        slots := fun pos value hlow _ hvalue => by
          by_cases hpos : pos < t.high
          · exact h.slots pos value hlow hpos hvalue
          · rw [h.fresh pos (Nat.le_of_not_lt hpos)] at hvalue
            cases hvalue
        producer := h.producer
        cachedProd := (counter_add t.high nb).symm
        cachedCons := ⟨freed, hfreed, by dsimp only; omega, rfl⟩
        fresh := fun pos hpos => h.fresh pos (by dsimp only at hpos; omega)
        written := h.written }

theorem kernelTakes_eq (h : Holds k r t) {n : ℕ} (hn : t.low + n ≤ t.high)
    (hwritten : ∀ pos, t.low ≤ pos → pos < t.low + n → t.values pos ≠ none) :
    r.kernelTakes n = (List.range n).map fun i => t.values (t.low + i) := by
  refine List.map_congr_left fun i hi => ?_
  have hlt := List.mem_range.mp hi
  obtain ⟨value, hvalue⟩ := Option.ne_none_iff_exists'.mp
    (hwritten (t.low + i) (Nat.le_add_right _ _) (by omega))
  have hslot : r.slot (r.consumer + .ofNat i) = (t.low + i) % 2 ^ k := by
    rw [h.consumer, ← counter_add, slot_eq h]
  rw [hslot, hvalue]
  exact h.slots _ value (Nat.le_add_right _ _) (by omega) hvalue

/-- **Every step of the end that fills**, and of the kernel with it. -/
theorem prodNext_spec (h : ProdInv k r t) (a : ProdAction α) (hcontract : ProdContract t a) :
    ∃ t', ProdSpec (2 ^ k) t a (r.prodNext a).1 t' ∧ ProdInv k (r.prodNext a).2 t' := by
  have hmid := h.mid
  have hhigh := h.high
  cases a with
  | reserve nb => exact prodReserve_spec h nb
  | write idx value =>
    obtain ⟨pos, hsubmitted, hreserved, rfl⟩ := hcontract
    have hnext : r.prodNext (.write (counter pos) value) =
        (.wrote, { r with ring := r.ring.set (r.slot (counter pos)) value }) :=
      if_pos (slot_lt h.toHolds pos)
    rw [hnext]
    refine ⟨_, .wrote value ⟨hsubmitted, hreserved⟩, ?_⟩
    exact
      { h with
        length := List.length_set.trans h.length
        slots := slots_set h.toHolds ⟨by omega, by omega⟩ value hhigh fun p _ hp _ => hp
        fresh := fun p hp => by
          have hne : p ≠ pos := by dsimp only at hp; omega
          exact (Function.update_of_ne hne _ _).trans (h.fresh p hp)
        written := fun p hlow hp => by
          have hne : p ≠ pos := by dsimp only at hp; omega
          exact (Function.update_of_ne hne _ _).trans_ne (h.written p hlow hp) }
  | submit nb =>
    refine ⟨_, .submitted t nb, ?_⟩
    exact
      { h with
        mid := ⟨by dsimp only; omega, hcontract.1⟩
        producer := by
          rw [prodNext, prodSubmit, h.producer]
          exact (counter_add t.mid nb).symm
        written := fun p hlow hp => by
          by_cases hsubmitted : p < t.mid
          · exact h.written p hlow hsubmitted
          · exact hcontract.2 p (Nat.le_of_not_lt hsubmitted) hp }
  | kernel n =>
    have hn : t.low + n ≤ t.mid := hcontract
    have htakes : r.kernelTakes n = (List.range n).map fun i => t.values (t.low + i) :=
      kernelTakes_eq h.toHolds (by omega) fun p hlow hp => h.written p hlow (by omega)
    obtain ⟨freed, hfreed, hroom, hcached⟩ := h.cachedCons
    refine ⟨{ t with low := t.low + n }, ?_, ?_⟩
    · rw [prodNext, htakes]
      exact .took t n
    · exact
        { h with
          mid := ⟨hn, hmid.2⟩
          high := by dsimp only; omega
          consumer := by
            rw [prodNext, h.consumer]
            exact (counter_add t.low n).symm
          slots := fun p value hlow hp hvalue =>
            h.slots p value (by dsimp only at hlow; omega) hp hvalue
          cachedCons := ⟨freed, by dsimp only; omega, hroom, hcached⟩
          written := fun p hlow hp => h.written p (by dsimp only at hlow; omega) hp }

theorem setUpProd_inv (hk : k < 32) (base : ℕ) {ring : List α} (hring : ring.length = 2 ^ k) :
    ProdInv k (setUpProd (counter (2 ^ k)) (counter base) (counter base) ring) (.blank base) where
  small := hk
  size := rfl
  mask := rfl
  length := hring
  mid := ⟨le_rfl, le_rfl⟩
  high := Nat.le_add_right base _
  consumer := rfl
  slots := fun _ _ _ _ hvalue => by cases hvalue
  producer := rfl
  cachedProd := rfl
  cachedCons := ⟨base, le_rfl, Nat.le_add_right base _, (counter_add base _).symm⟩
  fresh := fun _ _ => rfl
  written := fun p hlow hp => absurd hp (Nat.not_lt_of_le hlow)

/-! ## Emptying -/

/-- **The entries there are**, as they are or as they were when the kernel's counter was read last. -/
theorem consNbAvail_spec (h : ConsInv k r t) (nb : UInt32) :
    ∃ seen, t.mid ≤ seen ∧ seen ≤ t.high ∧
      (r.consNbAvail nb).1.toNat = min nb.toNat (seen - t.mid) ∧
      (r.consNbAvail nb).2 = { r with cachedProd := counter seen } ∧
      (seen = t.mid → t.mid = t.high) := by
  obtain ⟨seen, hmid, hhigh, hcached⟩ := h.cachedProd
  have hpow := pow_lt h.small
  have hwindow := h.high
  have hlow := h.mid
  have hmin : ∀ last, t.mid ≤ last → last ≤ t.high →
      (if counter last - counter t.mid > nb then nb else counter last - counter t.mid).toNat =
        min nb.toNat (last - t.mid) := by
    intro last hfrom hto
    have hentries : (counter last - counter t.mid).toNat = last - t.mid := toNat_sub hfrom (by omega)
    split
    · rename_i hgt
      rw [gt_iff_lt, UInt32.lt_iff_toNat_lt, hentries] at hgt
      omega
    · rename_i hgt
      rw [gt_iff_lt, UInt32.lt_iff_toNat_lt, hentries] at hgt
      rw [hentries]
      omega
  have hzero : r.cachedProd - r.cachedCons = 0 ↔ t.mid = seen := by
    rw [hcached, h.cachedCons]
    exact counter_sub_eq_zero_iff hmid (by omega)
  by_cases hnone : t.mid = seen
  · have hread : r.consNbAvail nb = (if r.producer - r.cachedCons > nb then nb else
        r.producer - r.cachedCons, { r with cachedProd := r.producer }) := by
      simp only [consNbAvail, if_pos (hzero.mpr hnone)]
    rw [hread, h.producer, h.cachedCons]
    exact ⟨t.high, hlow.2, le_rfl, hmin t.high hlow.2 le_rfl, rfl, Eq.symm⟩
  · have hkept : r.consNbAvail nb = (if r.cachedProd - r.cachedCons > nb then nb else
        r.cachedProd - r.cachedCons, r) := by
      simp only [consNbAvail, if_neg (hzero.not.mpr hnone)]
    rw [hkept, hcached, h.cachedCons]
    refine ⟨seen, hmid, hhigh, hmin seen hmid hhigh, ?_, fun hsame => absurd hsame.symm hnone⟩
    rw [← hcached, ← h.cachedCons]

theorem consPeek_spec (h : ConsInv k r t) (nb : ℕ) :
    ∃ t', ConsSpec t (.peek nb) (.peeked (r.consPeek nb).1.1 (r.consPeek nb).1.2) t' ∧
      ConsInv k (r.consPeek nb).2 t' := by
  obtain ⟨seen, hmid, hhigh, havail, hring, hread⟩ := consNbAvail_spec h (.ofNat nb)
  have hlow := h.mid
  rw [UInt32.toNat_ofNat'] at havail
  have hpos : (r.consNbAvail (.ofNat nb)).1 > 0 ↔ 0 < (r.consNbAvail (.ofNat nb)).1.toNat := by
    rw [gt_iff_lt, UInt32.lt_iff_toNat_lt, UInt32.toNat_zero]
  by_cases hsome : (r.consNbAvail (.ofNat nb)).1 > 0
  · have hpeek : r.consPeek nb = (((r.consNbAvail (.ofNat nb)).1.toNat,
        some (r.consNbAvail (.ofNat nb)).2.cachedCons), { (r.consNbAvail (.ofNat nb)).2 with
          cachedCons := (r.consNbAvail (.ofNat nb)).2.cachedCons +
            (r.consNbAvail (.ofNat nb)).1 }) := if_pos hsome
    have hle := Nat.mod_le nb (2 ^ 32)
    rw [hpos] at hsome
    rw [hpeek, hring]
    simp only [h.cachedCons]
    refine ⟨_, .peeked hsome (by omega) (by omega), ?_⟩
    exact
      { h with
        mid := ⟨by dsimp only; omega, by dsimp only; omega⟩
        cachedCons := by
          dsimp only
          rw [counter_add, counter, counter, UInt32.ofNat_toNat]
        cachedProd := ⟨seen, by dsimp only; omega, hhigh, rfl⟩ }
  · have hpeek : r.consPeek nb = ((0, none), (r.consNbAvail (.ofNat nb)).2) := if_neg hsome
    rw [hpos] at hsome
    rw [hpeek, hring]
    refine ⟨t, .empty ?_, { h with cachedProd := ⟨seen, hmid, hhigh, rfl⟩ }⟩
    by_cases hnb : nb % 2 ^ 32 = 0
    · exact Or.inr (Nat.dvd_of_mod_eq_zero hnb)
    · exact Or.inl (hread (by omega))

/-- **The kernel puts an entry** behind the last one. -/
theorem put_inv (h : ConsInv k r t) (value : α) (hroom : t.high + 1 ≤ t.low + 2 ^ k) :
    ConsInv k { r with
      ring := r.ring.set (r.slot r.producer) value
      producer := r.producer + 1 } (t.put value) := by
  have hmid := h.mid
  obtain ⟨seen, hseen, hhigh, hcached⟩ := h.cachedProd
  exact
    { h with
      length := List.length_set.trans h.length
      mid := ⟨hmid.1, by dsimp only [Tape.put]; omega⟩
      high := hroom
      slots := by
        rw [h.producer]
        exact slots_set h.toHolds ⟨by omega, by omega⟩ value hroom fun p _ hp hne =>
          Nat.lt_of_le_of_ne (Nat.le_of_lt_succ hp) hne
      producer := by
        rw [h.producer]
        exact (counter_add t.high 1).symm
      cachedProd := ⟨seen, hseen, Nat.le_succ_of_le hhigh, hcached⟩
      written := fun p hlow hp => by
        by_cases hlast : p = t.high
        · rw [Tape.put_values, hlast, Function.update_self]
          exact Option.some_ne_none value
        · rw [Tape.put_values, Function.update_of_ne hlast]
          exact h.written p hlow (by dsimp only [Tape.put] at hp; omega) }

theorem kernelPuts_inv (h : ConsInv k r t) (values : List α)
    (hroom : t.high + values.length ≤ t.low + 2 ^ k) :
    ConsInv k (r.kernelPuts values) (values.foldl Tape.put t) := by
  induction values generalizing r t with
  | nil => exact h
  | cons value values ih =>
    rw [List.length_cons] at hroom
    exact ih (put_inv h value (by omega)) (by dsimp only [Tape.put]; omega)

/-- **Every step of the end that empties**, and of the kernel with it. -/
theorem consNext_spec (h : ConsInv k r t) (a : ConsAction α) (hcontract : ConsContract (2 ^ k) t a) :
    ∃ t', ConsSpec t a (r.consNext a).1 t' ∧ ConsInv k (r.consNext a).2 t' := by
  have hmid := h.mid
  cases a with
  | peek nb => exact consPeek_spec h nb
  | read idx =>
    obtain ⟨pos, hlow, hpos, rfl⟩ := hcontract
    obtain ⟨value, hvalue⟩ := Option.ne_none_iff_exists'.mp (h.written pos hlow (by omega))
    have hslot := h.slots pos value hlow (by omega) hvalue
    rw [← slot_eq h.toHolds] at hslot
    refine ⟨t, ?_, ?_⟩
    · simp only [consNext, hslot]
      exact .entry ⟨hlow, hpos⟩ hvalue
    · simp only [consNext, hslot]
      exact h
  | release nb =>
    have hnb : t.low + nb ≤ t.mid := hcontract
    have hhigh := h.high
    refine ⟨_, .released t nb, ?_⟩
    exact
      { h with
        mid := ⟨hnb, hmid.2⟩
        high := by dsimp only; omega
        consumer := by
          rw [consNext, consRelease, h.consumer]
          exact (counter_add t.low nb).symm
        slots := fun p value hlow hp hvalue =>
          h.slots p value (by dsimp only at hlow; omega) hp hvalue
        written := fun p hlow hp => h.written p (by dsimp only at hlow; omega) hp }
  | kernel values => exact ⟨_, .put t values, kernelPuts_inv h values hcontract⟩

theorem setUpCons_inv (hk : k < 32) (base : ℕ) {ring : List α} (hring : ring.length = 2 ^ k) :
    ConsInv k (setUpCons (counter (2 ^ k)) (counter base) (counter base) ring) (.blank base) where
  small := hk
  size := rfl
  mask := rfl
  length := hring
  mid := ⟨le_rfl, le_rfl⟩
  high := Nat.le_add_right base _
  consumer := rfl
  slots := fun _ _ _ _ hvalue => by cases hvalue
  producer := rfl
  cachedCons := rfl
  cachedProd := ⟨base, le_rfl, le_rfl, rfl⟩
  written := fun p hlow hp => absurd hp (Nat.not_lt_of_le hlow)

end XskRing

/-! ## Runs -/

/-- **A ring on the way to the kernel** answers as the tape does, in every order of what the client
and the kernel do, wherever its counters start. -/
theorem xsk_ring_prod_refines (k : ℕ) (hk : k < 32) (base : ℕ) (ring : List α)
    (hring : ring.length = 2 ^ k) (actions : List (ProdAction α)) :
    Follows ProdContract (ProdSpec (2 ^ k)) (.blank base) actions
      (replies prodNext (setUpProd (counter (2 ^ k)) (counter base) (counter base) ring) actions) :=
  follows_of_simulation (R := ProdInv k) (fun _ _ a h hcontract => prodNext_spec h a hcontract)
    (setUpProd_inv hk base hring) actions

/-- Two entries and a third one for which there is no room at first, while the counters wrap. -/
theorem xsk_ring_prod_refines_wrapping :
    Follows ProdContract (ProdSpec 2) (.blank 4294967295)
      [.reserve 2, .write 4294967295 'a', .write 0 'b', .submit 2, .reserve 1, .kernel 1, .reserve 1]
      [.reserved 2 (some 4294967295), .wrote, .wrote, .submitted, .reserved 0 none,
        .took [some 'a'], .reserved 1 (some 1)] :=
  xsk_ring_prod_refines 1 (by omega) 4294967295 ['x', 'y'] rfl
    [.reserve 2, .write 4294967295 'a', .write 0 'b', .submit 2, .reserve 1, .kernel 1, .reserve 1]

/-- **A ring on the way from the kernel** does so, too. -/
theorem xsk_ring_cons_refines (k : ℕ) (hk : k < 32) (base : ℕ) (ring : List α)
    (hring : ring.length = 2 ^ k) (actions : List (ConsAction α)) :
    Follows (ConsContract (2 ^ k)) ConsSpec (.blank base) actions
      (replies consNext (setUpCons (counter (2 ^ k)) (counter base) (counter base) ring) actions) :=
  follows_of_simulation (R := ConsInv k) (fun _ _ a h hcontract => consNext_spec h a hcontract)
    (setUpCons_inv hk base hring) actions

theorem xsk_ring_cons_refines_wrapping :
    Follows (ConsContract 2) ConsSpec (.blank 4294967295)
      [.peek 1, .kernel ['a', 'b'], .peek 3, .read 0, .release 2, .kernel ['c'], .peek 1, .read 1]
      [.peeked 0 none, .put, .peeked 2 (some 4294967295), .entry 'b', .released, .put,
        .peeked 1 (some 1), .entry 'c'] :=
  xsk_ring_cons_refines 1 (by omega) 4294967295 ['x', 'y'] rfl
    [.peek 1, .kernel ['a', 'b'], .peek 3, .read 0, .release 2, .kernel ['c'], .peek 1, .read 1]

end Accumulation.Libbpf
