/-
# Accumulation.Libbpf.HashMap — the hash map of libbpf.

An array of chains that doubles when it is three quarters full.  `hashmap__insert` takes a strategy:
it may keep an entry that is already there, replace it, insist on it, or put another one beside it.

To its callers the map is a bag of entries (`Spec`): every run of calls gives answers that a bag may
give, whatever the hash function, and an insertion runs out of memory only if an allocation fails or
the array would be too large for any (`hashmap_refines`).  Without `HASHMAP_APPEND` a bag holds each
key at most once (`hashmap_keys_distinct`).

With it the entries of a key stand newest first, as the comment on `HASHMAP_APPEND` says, until the
array grows: that turns them round (`appended_order`).

`hashmap_grow` and `hashmap__clear` count the buckets with an `int`, which overflows from 2^31 of them
on; the model goes on counting.
-/
import Accumulation.Lib.Chains
import Accumulation.Lib.Refinement

namespace Accumulation.Libbpf

open Accumulation.Lib.Chains Accumulation.Lib.Refinement

variable {κ ν : Type*}

/-! ## The map -/

/-- `hash_fn` and `equal_fn`. -/
structure Keys (κ : Type*) where
  hash : κ → UInt64
  equal : κ → κ → Bool
  /-- what a shift by the whole width of a word leaves, which C does not say -/
  shiftedOut : UInt64 → ℕ

structure HashMap (κ ν : Type*) where
  /-- `none` is `NULL` -/
  buckets : Option (List (List (κ × ν)))
  cap : ℕ
  capBits : ℕ
  sz : ℕ

inductive InsertStrategy
  | add
  | set
  | update
  | append
  deriving DecidableEq, Repr

inductive Status
  | ok
  /-- `-EEXIST` -/
  | exist
  /-- `-ENOENT` -/
  | noEnt
  /-- `-ENOMEM` -/
  | noMem
  deriving DecidableEq, Repr

/-- Which allocations of a call succeed. -/
structure Memory where
  calloc : Bool
  malloc : Bool

def hashmapMinCapBits : ℕ := 2

/-- `hash_bits` -/
def hashBits (keys : Keys κ) (h : UInt64) (bits : ℕ) : ℕ :=
  if bits = 0 then keys.shiftedOut h
  else (h * 11400714819323198485).toNat >>> (64 - bits)

namespace HashMap

variable (keys : Keys κ)

/-- `hashmap__init` -/
def init : HashMap κ ν := ⟨none, 0, 0, 0⟩

/-- Everything in it, in the order of `hashmap__for_each_entry`. -/
def entries (map : HashMap κ ν) : List (κ × ν) := (map.buckets.getD []).flatten

/-- The bucket of a key. -/
def place (map : HashMap κ ν) (key : κ) : ℕ := hashBits keys (keys.hash key) map.capBits

def needsToGrow (map : HashMap κ ν) : Prop := map.cap = 0 ∨ (map.sz + 1) * 4 / 3 > map.cap

instance (map : HashMap κ ν) : Decidable map.needsToGrow := inferInstanceAs (Decidable (_ ∨ _))

/-- `hashmap_grow`; `none` is `-ENOMEM`.  `calloc` refuses an array of 2^64 bytes. -/
def grow (memory : Memory) (map : HashMap κ ν) : Option (HashMap κ ν) :=
  let newCapBits := max (map.capBits + 1) hashmapMinCapBits
  if memory.calloc ∧ newCapBits < 61 then
    some { map with
      buckets := some (fill (fun e => hashBits keys (keys.hash e.1) newCapBits) (2 ^ newCapBits)
        map.entries)
      cap := 2 ^ newCapBits
      capBits := newCapBits }
  else none

/-- The loop of `hashmap_find_entry`: where in the chain the entry stands. -/
def findFrom (key : κ) (j : ℕ) : List (κ × ν) → Option (ℕ × κ × ν)
  | [] => none
  | cur :: next => if keys.equal cur.1 key then some (j, cur) else findFrom key (j + 1) next

def findEntry (map : HashMap κ ν) (key : κ) (hash : ℕ) : Option (ℕ × κ × ν) :=
  match map.buckets with
  | none => none
  | some buckets => findFrom keys key 0 (chain buckets hash)

/-- A chain becomes another one. -/
def withChain (map : HashMap κ ν) (h : ℕ) (f : List (κ × ν) → List (κ × ν)) : HashMap κ ν :=
  { map with buckets := map.buckets.map fun buckets => buckets.modify h f }

/-- `hashmap__insert`: what it returns, with the entry that was there, and the map. -/
def insert (memory : Memory) (map : HashMap κ ν) (key : κ) (value : ν) (strategy : InsertStrategy) :
    (Status × Option (κ × ν)) × HashMap κ ν :=
  let h := map.place keys key
  match if strategy = .append then none else map.findEntry keys key h with
  | some (j, entry) =>
    if strategy = .set ∨ strategy = .update then
      ((.ok, some entry), map.withChain h fun entries => entries.set j (key, value))
    else ((.exist, some entry), map)
  | none =>
    if strategy = .update then ((.noEnt, none), map)
    else match if map.needsToGrow then map.grow keys memory else some map with
      | none => ((.noMem, none), map)
      | some map =>
        if memory.malloc then
          let map := map.withChain (map.place keys key) ((key, value) :: ·)
          ((.ok, none), { map with sz := map.sz + 1 })
        else ((.noMem, none), map)

/-- `hashmap__find` -/
def find (map : HashMap κ ν) (key : κ) : Option ν :=
  (map.findEntry keys key (map.place keys key)).map fun found => found.2.2

/-- `hashmap__delete`, with the entry that was there. -/
def delete (map : HashMap κ ν) (key : κ) : Option (κ × ν) × HashMap κ ν :=
  let h := map.place keys key
  match map.findEntry keys key h with
  | none => (none, map)
  | some (j, entry) =>
    let map := map.withChain h fun entries => entries.eraseIdx j
    (some entry, { map with sz := map.sz - 1 })

/-- What `hashmap__for_each_key_entry` goes over. -/
def keyEntries (map : HashMap κ ν) (key : κ) : List (κ × ν) :=
  match map.buckets with
  | none => []
  | some buckets => (chain buckets (map.place keys key)).filter fun cur => keys.equal cur.1 key

end HashMap

/-! ## Calls -/

inductive Call (κ ν : Type*)
  | insert (memory : Memory) (key : κ) (value : ν) (strategy : InsertStrategy)
  | find (key : κ)
  | delete (key : κ)
  | size
  /-- `hashmap__for_each_entry` -/
  | forEachEntry
  /-- `hashmap__for_each_key_entry` -/
  | forEachKeyEntry (key : κ)
  | clear

inductive Answer (κ ν : Type*)
  | inserted (status : Status) (old : Option (κ × ν))
  | found (value : Option ν)
  | deleted (old : Option (κ × ν))
  | count (n : ℕ)
  | entries (es : List (κ × ν))
  | cleared

def HashMap.step (keys : Keys κ) (map : HashMap κ ν) :
    Call κ ν → Option (Answer κ ν × HashMap κ ν)
  | .insert memory key value strategy =>
    let r := map.insert keys memory key value strategy
    some (.inserted r.1.1 r.1.2, r.2)
  | .find key => some (.found (map.find keys key), map)
  | .delete key => some (.deleted (map.delete keys key).1, (map.delete keys key).2)
  | .size => some (.count map.sz, map)
  | .forEachEntry => some (.entries map.entries, map)
  | .forEachKeyEntry key => some (.entries (map.keyEntries keys key), map)
  | .clear => some (.cleared, .init)

/-! ## A bag of entries -/

/-- No entry has the key. -/
def Absent (keys : Keys κ) (key : κ) (bag : Multiset (κ × ν)) : Prop :=
  ∀ e ∈ bag, keys.equal e.1 key = false

/-- An insertion cannot get its memory. -/
def Short (memory : Memory) (bag : Multiset (κ × ν)) : Prop :=
  memory.calloc = true → memory.malloc = true → 3 * 2 ^ 58 ≤ bag.card

/-- **What the answers to an insertion say** of the bag. -/
inductive Inserts (keys : Keys κ) (memory : Memory) (key : κ) (value : ν) (strategy : InsertStrategy)
    (bag : Multiset (κ × ν)) : Status → Option (κ × ν) → Multiset (κ × ν) → Prop
  | new (hstrategy : strategy ≠ .update) (habsent : strategy = .append ∨ Absent keys key bag) :
      Inserts keys memory key value strategy bag .ok none ((key, value) ::ₘ bag)
  | replaced {old : κ × ν} {rest : Multiset (κ × ν)}
      (hstrategy : strategy = .set ∨ strategy = .update) (hkey : keys.equal old.1 key = true)
      (hbag : bag = old ::ₘ rest) :
      Inserts keys memory key value strategy bag .ok (some old) ((key, value) ::ₘ rest)
  | exist {old : κ × ν} (hstrategy : strategy = .add) (hkey : keys.equal old.1 key = true)
      (hold : old ∈ bag) :
      Inserts keys memory key value strategy bag .exist (some old) bag
  | noEnt (hstrategy : strategy = .update) (habsent : Absent keys key bag) :
      Inserts keys memory key value strategy bag .noEnt none bag
  | noMem (hstrategy : strategy ≠ .update) (habsent : strategy = .append ∨ Absent keys key bag)
      (hshort : Short memory bag) :
      Inserts keys memory key value strategy bag .noMem none bag

/-- **What a map is for**: the answers that a bag of entries may give. -/
inductive Spec (keys : Keys κ) (bag : Multiset (κ × ν)) :
    Call κ ν → Answer κ ν → Multiset (κ × ν) → Prop
  | insert {memory : Memory} {key : κ} {value : ν} {strategy : InsertStrategy} {status : Status}
      {old : Option (κ × ν)} {bag' : Multiset (κ × ν)}
      (h : Inserts keys memory key value strategy bag status old bag') :
      Spec keys bag (.insert memory key value strategy) (.inserted status old) bag'
  | found {key : κ} {e : κ × ν} (he : e ∈ bag) (hkey : keys.equal e.1 key = true) :
      Spec keys bag (.find key) (.found (some e.2)) bag
  | notFound {key : κ} (habsent : Absent keys key bag) : Spec keys bag (.find key) (.found none) bag
  | deleted {key : κ} {old : κ × ν} {rest : Multiset (κ × ν)} (hkey : keys.equal old.1 key = true)
      (hbag : bag = old ::ₘ rest) : Spec keys bag (.delete key) (.deleted (some old)) rest
  | notDeleted {key : κ} (habsent : Absent keys key bag) :
      Spec keys bag (.delete key) (.deleted none) bag
  | size : Spec keys bag .size (.count bag.card) bag
  | entries {es : List (κ × ν)} (hes : ↑es = bag) : Spec keys bag .forEachEntry (.entries es) bag
  | keyEntries {key : κ} {es : List (κ × ν)}
      (hes : ↑es = bag.filter fun e => keys.equal e.1 key = true) :
      Spec keys bag (.forEachKeyEntry key) (.entries es) bag
  | clear : Spec keys bag .clear .cleared 0

/-! ## Buckets -/

section Buckets

variable {keys : Keys κ}

theorem hashBits_lt (h : UInt64) {bits : ℕ} (hlow : 1 ≤ bits) (hhigh : bits ≤ 64) :
    hashBits keys h bits < 2 ^ bits := by
  rw [hashBits, if_neg (by omega), Nat.shiftRight_eq_div_pow, Nat.div_lt_iff_lt_mul (by positivity),
    ← pow_add, Nat.add_sub_cancel' hhigh]
  exact UInt64.toNat_lt _

/-- The loop finds the first entry of the key, if there is one. -/
theorem findFrom_eq_some {key : κ} {j i : ℕ} {es : List (κ × ν)} {e : κ × ν}
    (h : HashMap.findFrom keys key j es = some (i, e)) :
    keys.equal e.1 key = true ∧ ∃ n, i = j + n ∧ es[n]? = some e := by
  induction es generalizing j with
  | nil => cases h
  | cons cur next ih =>
    rw [HashMap.findFrom] at h
    split at h
    · rename_i hequal
      obtain ⟨rfl, rfl⟩ := Prod.mk.inj (Option.some.inj h)
      exact ⟨hequal, 0, rfl, rfl⟩
    · obtain ⟨hequal, n, hi, hn⟩ := ih h
      exact ⟨hequal, n + 1, by omega, hn⟩

theorem findFrom_eq_none {key : κ} {j : ℕ} {es : List (κ × ν)}
    (h : HashMap.findFrom keys key j es = none) : ∀ e ∈ es, keys.equal e.1 key = false := by
  induction es generalizing j with
  | nil => exact fun e he => absurd he List.not_mem_nil
  | cons cur next ih =>
    rw [HashMap.findFrom] at h
    split at h
    · cases h
    · rename_i hequal
      intro e he
      rcases List.mem_cons.mp he with rfl | he
      · simpa using hequal
      · exact ih h e he

end Buckets

/-! ## The invariant -/

/-- Equal keys have equal hashes. -/
def Keys.Compatible (keys : Keys κ) : Prop := ∀ a b, keys.equal a b = true → keys.hash a = keys.hash b

namespace HashMap

/-- The array, if there is one: a power of two chains, each entry in its own, and at most three
quarters full. -/
structure Filled (keys : Keys κ) (map : HashMap κ ν) (buckets : List (List (κ × ν))) : Prop where
  cap : map.cap = 2 ^ map.capBits
  length : buckets.length = 2 ^ map.capBits
  low : 2 ≤ map.capBits
  high : map.capBits < 61
  placed : Placed (fun e => map.place keys e.1) buckets
  sz : map.sz = buckets.flatten.length
  load : map.sz * 4 / 3 ≤ map.cap

def Inv (keys : Keys κ) (map : HashMap κ ν) : Prop :=
  match map.buckets with
  | none => map.cap = 0 ∧ map.capBits = 0 ∧ map.sz = 0
  | some buckets => map.Filled keys buckets

variable {keys : Keys κ} {map : HashMap κ ν} {buckets : List (List (κ × ν))}

theorem inv_iff_filled (h : map.buckets = some buckets) : map.Inv keys ↔ map.Filled keys buckets := by
  rw [Inv, h]

theorem entries_eq (h : map.buckets = some buckets) : map.entries = buckets.flatten := by
  rw [entries, h]
  rfl

theorem Filled.place_lt (h : map.Filled keys buckets) (key : κ) :
    map.place keys key < buckets.length := by
  rw [h.length]
  exact hashBits_lt _ (by have := h.low; omega) (by have := h.high; omega)

theorem init_inv (keys : Keys κ) : (init : HashMap κ ν).Inv keys := ⟨rfl, rfl, rfl⟩

theorem Inv.sz_eq (h : map.Inv keys) : map.sz = map.entries.length := by
  rcases hbuckets : map.buckets with _ | buckets
  · simp only [Inv, hbuckets] at h
    simp [entries, hbuckets, h.2.2]
  · simp only [Inv, hbuckets] at h
    simpa [entries, hbuckets] using h.sz

theorem place_eq (hkeys : keys.Compatible) {a b : κ} (h : keys.equal a b = true) :
    map.place keys a = map.place keys b := by
  rw [place, place, hkeys a b h]

/-- **The entries of a key** are found in its chain. -/
theorem keyEntries_eq (hkeys : keys.Compatible) (h : map.Inv keys) (key : κ) :
    map.keyEntries keys key = map.entries.filter fun e => keys.equal e.1 key := by
  rcases hbuckets : map.buckets with _ | buckets
  · simp [keyEntries, entries, hbuckets]
  · simp only [Inv, hbuckets] at h
    simp only [keyEntries, entries, hbuckets, Option.getD_some]
    exact (filter_flatten h.placed fun e he => place_eq hkeys he).symm

/-- **`hashmap_find_entry`** finds an entry of the key where the key belongs, if there is one. -/
theorem findEntry_cases (hkeys : keys.Compatible) (h : map.Inv keys) (key : κ) :
    (map.findEntry keys key (map.place keys key) = none ∧
      Absent keys key (map.entries : Multiset (κ × ν))) ∨
      ∃ buckets j e, map.buckets = some buckets ∧ map.Filled keys buckets ∧
        map.findEntry keys key (map.place keys key) = some (j, e) ∧ keys.equal e.1 key = true ∧
        (chain buckets (map.place keys key))[j]? = some e := by
  have habsent (hnone : map.keyEntries keys key = []) :
      Absent keys key (map.entries : Multiset (κ × ν)) := by
    intro e he
    rw [keyEntries_eq hkeys h, List.filter_eq_nil_iff] at hnone
    simpa using hnone e he
  rcases hbuckets : map.buckets with _ | buckets
  · exact Or.inl ⟨by simp [findEntry, hbuckets], habsent (by simp [keyEntries, hbuckets])⟩
  · have hfilled := (inv_iff_filled hbuckets).mp h
    rcases hfind : findFrom keys key 0 (chain buckets (map.place keys key)) with _ | ⟨j, e⟩
    · refine Or.inl ⟨by simp [findEntry, hbuckets, hfind], habsent ?_⟩
      simp only [keyEntries, hbuckets, List.filter_eq_nil_iff]
      exact fun e he => by simp [findFrom_eq_none hfind e he]
    · obtain ⟨hequal, n, hn, he⟩ := findFrom_eq_some hfind
      obtain rfl : j = n := by omega
      exact Or.inr ⟨buckets, j, e, rfl, hfilled, by simp [findEntry, hbuckets, hfind], hequal, he⟩

/-! ## One chain -/

/-- **A chain becomes another one**: what the map gains and loses by it. -/
theorem withChain_inv (hbuckets : map.buckets = some buckets) (hfilled : map.Filled keys buckets)
    (key : κ) (xs ys : List (κ × ν)) {f : List (κ × ν) → List (κ × ν)} {sz : ℕ}
    (hperm : (xs ++ chain buckets (map.place keys key)).Perm
      (ys ++ f (chain buckets (map.place keys key))))
    (hxs : ∀ e ∈ xs, map.place keys e.1 = map.place keys key)
    (hsz : xs.length + map.sz = ys.length + sz) (hload : sz * 4 / 3 ≤ map.cap) :
    ({ map.withChain (map.place keys key) f with sz } : HashMap κ ν).Inv keys ∧
      (xs ++ map.entries).Perm
        (ys ++ ({ map.withChain (map.place keys key) f with sz } : HashMap κ ν).entries) := by
  have hlt := hfilled.place_lt key
  have hflat := flatten_modify_perm hlt hperm
  have hmodified : ({ map.withChain (map.place keys key) f with sz } : HashMap κ ν).buckets =
      some (buckets.modify (map.place keys key) f) := by rw [withChain, hbuckets]; rfl
  constructor
  · rw [inv_iff_filled hmodified]
    refine ⟨hfilled.cap, ?_, hfilled.low, hfilled.high, ?_, ?_, hload⟩
    · rw [List.length_modify]
      exact hfilled.length
    · refine Placed.modify hfilled.placed hlt fun e he => ?_
      have hmem : e ∈ xs ++ chain buckets (map.place keys key) :=
        hperm.symm.subset (List.mem_append_right ys he)
      rcases List.mem_append.mp hmem with he | he
      · exact hxs e he
      · exact placed_iff.mp hfilled.placed _ e he
    · have hlength := hflat.length_eq
      rw [List.length_append, List.length_append, ← hfilled.sz] at hlength
      show sz = _
      omega
  · rw [entries_eq hbuckets, entries_eq hmodified]
    exact hflat

/-! ## Growing -/

/-- The map has an array, with room for one more. -/
def Roomy (keys : Keys κ) (map : HashMap κ ν) : Prop :=
  ∃ buckets, map.buckets = some buckets ∧ map.Filled keys buckets ∧ (map.sz + 1) * 4 / 3 ≤ map.cap

/-- The array is at most three quarters full, or there is none. -/
theorem Inv.load (h : map.Inv keys) : map.sz * 4 / 3 ≤ map.cap := by
  rcases hbuckets : map.buckets with _ | buckets
  · simp only [Inv, hbuckets] at h
    simp [h.2.2]
  · exact ((inv_iff_filled hbuckets).mp h).load

theorem Inv.cap_le (h : map.Inv keys) : map.cap ≤ 2 ^ map.capBits := by
  rcases hbuckets : map.buckets with _ | buckets
  · simp only [Inv, hbuckets] at h
    simp [h.1]
  · exact ((inv_iff_filled hbuckets).mp h).cap.le

theorem Inv.capBits_lt (h : map.Inv keys) : map.capBits < 61 := by
  rcases hbuckets : map.buckets with _ | buckets
  · simp only [Inv, hbuckets] at h
    omega
  · exact ((inv_iff_filled hbuckets).mp h).high

/-- **A grown map** holds the same entries in twice the room. -/
theorem grow_spec {memory : Memory} {map' : HashMap κ ν} (h : map.Inv keys)
    (hgrow : map.grow keys memory = some map') :
    map'.Roomy keys ∧ map'.entries.Perm map.entries ∧ map'.sz = map.sz := by
  rw [grow] at hgrow
  split at hgrow
  · rename_i hroom
    obtain rfl := Option.some.inj hgrow
    have hlow : 2 ≤ max (map.capBits + 1) hashmapMinCapBits := le_max_right _ _
    have hidx : ∀ e ∈ map.entries, hashBits keys (keys.hash e.1)
        (max (map.capBits + 1) hashmapMinCapBits) < 2 ^ max (map.capBits + 1) hashmapMinCapBits :=
      fun e _ => hashBits_lt _ (by omega) (by omega)
    have hperm := flatten_fill hidx
    have hdouble : 2 * map.cap ≤ 2 ^ max (map.capBits + 1) hashmapMinCapBits := by
      calc 2 * map.cap ≤ 2 * 2 ^ map.capBits := Nat.mul_le_mul_left 2 h.cap_le
        _ = 2 ^ (map.capBits + 1) := by rw [pow_succ, mul_comm]
        _ ≤ _ := Nat.pow_le_pow_right (by omega) (le_max_left _ _)
    have hfour : 2 ^ 2 ≤ 2 ^ max (map.capBits + 1) hashmapMinCapBits :=
      Nat.pow_le_pow_right (by omega) hlow
    have hload := h.load
    refine ⟨⟨_, rfl, ⟨rfl, length_fill _ _, hlow, hroom.2, placed_fill hidx, ?_, ?_⟩, ?_⟩, hperm, rfl⟩
    · rw [hperm.length_eq, ← h.sz_eq]
    · show map.sz * 4 / 3 ≤ 2 ^ max (map.capBits + 1) hashmapMinCapBits
      omega
    · show (map.sz + 1) * 4 / 3 ≤ 2 ^ max (map.capBits + 1) hashmapMinCapBits
      omega
  · cases hgrow

/-- The map grows unless the memory is short. -/
theorem grow_eq_none {memory : Memory} (h : map.Inv keys) (hneeds : map.needsToGrow)
    (hgrow : map.grow keys memory = none) (hcalloc : memory.calloc = true) :
    3 * 2 ^ 58 ≤ map.entries.length := by
  rw [grow] at hgrow
  split at hgrow
  · cases hgrow
  · rename_i hlarge
    have hhigh := h.capBits_lt
    have hsixty : map.capBits = 60 := by
      have : ¬ max (map.capBits + 1) hashmapMinCapBits < 61 := fun hlt => hlarge ⟨hcalloc, hlt⟩
      rw [hashmapMinCapBits] at this
      omega
    rcases hbuckets : map.buckets with _ | buckets
    · simp only [Inv, hbuckets] at h
      omega
    · have hcap := ((inv_iff_filled hbuckets).mp h).cap
      rw [hsixty] at hcap
      rw [← h.sz_eq]
      rcases hneeds with hneeds | hneeds <;> omega

/-! ## The calls -/

/-- **An entry is put into** a map with room. -/
theorem add_spec (hroomy : map.Roomy keys) (key : κ) (value : ν) :
    ({ map.withChain (map.place keys key) ((key, value) :: ·) with sz := map.sz + 1 } :
        HashMap κ ν).Inv keys ∧
      ((key, value) :: map.entries).Perm
        ({ map.withChain (map.place keys key) ((key, value) :: ·) with sz := map.sz + 1 } :
          HashMap κ ν).entries := by
  obtain ⟨buckets, hbuckets, hfilled, hload⟩ := hroomy
  exact withChain_inv hbuckets hfilled key [(key, value)] [] (List.Perm.refl _)
    (by simp) (by simp [Nat.add_comm]) hload

/-- **An entry takes the place** of another one of its bucket. -/
theorem replace_spec (hbuckets : map.buckets = some buckets) (hfilled : map.Filled keys buckets)
    {key : κ} (value : ν) {j : ℕ} {old : κ × ν}
    (hat : (chain buckets (map.place keys key))[j]? = some old) :
    (map.withChain (map.place keys key) fun entries => entries.set j (key, value)).Inv keys ∧
      ∃ rest : Multiset (κ × ν), ↑map.entries = old ::ₘ rest ∧
        ↑(map.withChain (map.place keys key) fun entries => entries.set j (key, value)).entries =
          (key, value) ::ₘ rest := by
  obtain ⟨hlt, hget⟩ := List.getElem?_eq_some_iff.mp hat
  have hset := List.set_perm_cons_eraseIdx hlt (key, value)
  have herase := List.getElem_cons_eraseIdx_perm hlt
  rw [hget] at herase
  have hperm : ([(key, value)] ++ chain buckets (map.place keys key)).Perm
      ([old] ++ (chain buckets (map.place keys key)).set j (key, value)) :=
    calc ((key, value) :: chain buckets (map.place keys key)).Perm
          ((key, value) :: old :: (chain buckets (map.place keys key)).eraseIdx j) :=
          herase.symm.cons _
      _ |>.Perm (old :: (key, value) :: (chain buckets (map.place keys key)).eraseIdx j) :=
          List.Perm.swap _ _ _
      _ |>.Perm _ := hset.symm.cons _
  obtain ⟨hinv, hentries⟩ := withChain_inv hbuckets hfilled key [(key, value)] [old]
    (f := fun entries => entries.set j (key, value)) hperm (by simp) rfl hfilled.load
  have hmem : old ∈ (map.entries : Multiset (κ × ν)) := by
    rw [Multiset.mem_coe, entries_eq hbuckets]
    have hold := List.mem_of_getElem? hat
    unfold chain at hold
    rw [List.getD_eq_getElem?_getD] at hold
    rcases hchain : buckets[map.place keys key]? with _ | es
    · rw [hchain] at hold
      cases hold
    · rw [hchain] at hold
      exact List.mem_flatten.mpr ⟨es, List.mem_of_getElem? hchain, hold⟩
  obtain ⟨rest, hrest⟩ := Multiset.exists_cons_of_mem hmem
  refine ⟨hinv, rest, hrest, ?_⟩
  have hbags := Multiset.coe_eq_coe.mpr hentries
  rw [← Multiset.coe_add, ← Multiset.coe_add, hrest] at hbags
  have hcons : (key, value) ::ₘ old ::ₘ rest = old ::ₘ
      (map.withChain (map.place keys key) fun entries => entries.set j (key, value)).entries := hbags
  rw [Multiset.cons_swap, Multiset.cons_inj_right] at hcons
  exact hcons.symm

/-- **An entry is taken out** of its bucket. -/
theorem remove_spec (hbuckets : map.buckets = some buckets) (hfilled : map.Filled keys buckets)
    {key : κ} {j : ℕ} {old : κ × ν} (hat : (chain buckets (map.place keys key))[j]? = some old) :
    ({ map.withChain (map.place keys key) (·.eraseIdx j) with sz := map.sz - 1 } :
        HashMap κ ν).Inv keys ∧
      map.entries.Perm (old :: ({ map.withChain (map.place keys key) (·.eraseIdx j) with
        sz := map.sz - 1 } : HashMap κ ν).entries) := by
  obtain ⟨hlt, hget⟩ := List.getElem?_eq_some_iff.mp hat
  have herase := List.getElem_cons_eraseIdx_perm hlt
  rw [hget] at herase
  have hpos : 0 < map.sz := by
    rw [hfilled.sz, List.length_pos_iff]
    intro hnil
    have hempty : chain buckets (map.place keys key) = [] := by
      unfold chain
      rw [List.getD_eq_getElem?_getD]
      rcases hchain : buckets[map.place keys key]? with _ | es
      · rfl
      · exact List.flatten_eq_nil_iff.mp hnil es (List.mem_of_getElem? hchain)
    rw [hempty] at hlt
    exact Nat.not_lt_zero j hlt
  have hload := hfilled.load
  exact withChain_inv hbuckets hfilled key [] [old] herase.symm (by simp)
    (by simp only [List.length_nil, List.length_singleton]; omega) (by omega)

theorem Inv.absent_or (h : map.Inv keys) (hkeys : keys.Compatible) {key : κ}
    {strategy : InsertStrategy}
    (hnone : (if strategy = .append then none
      else map.findEntry keys key (map.place keys key)) = none) :
    strategy = .append ∨ Absent keys key (map.entries : Multiset (κ × ν)) := by
  by_cases happend : strategy = .append
  · exact Or.inl happend
  · rw [if_neg happend] at hnone
    rcases findEntry_cases hkeys h key with ⟨-, habsent⟩ | ⟨-, j, e, -, -, hfound, -, -⟩
    · exact Or.inr habsent
    · rw [hnone] at hfound
      cases hfound

/-- The map that an entry is put into: grown, if it has to be. -/
def room (keys : Keys κ) (memory : Memory) (map : HashMap κ ν) : Option (HashMap κ ν) :=
  if map.needsToGrow then map.grow keys memory else some map

theorem room_spec {memory : Memory} {grown : HashMap κ ν} (h : map.Inv keys)
    (hroom : map.room keys memory = some grown) :
    grown.Roomy keys ∧ grown.entries.Perm map.entries := by
  unfold room at hroom
  split at hroom
  · obtain ⟨hroomy, hperm, -⟩ := grow_spec h hroom
    exact ⟨hroomy, hperm⟩
  · rename_i hneeds
    obtain rfl := Option.some.inj hroom
    rw [needsToGrow, not_or] at hneeds
    rcases hbuckets : map.buckets with _ | buckets
    · simp only [Inv, hbuckets] at h
      exact absurd h.1 hneeds.1
    · exact ⟨⟨buckets, hbuckets, (inv_iff_filled hbuckets).mp h, Nat.le_of_not_lt hneeds.2⟩,
        List.Perm.refl _⟩

theorem Roomy.inv (h : map.Roomy keys) : map.Inv keys := by
  obtain ⟨buckets, hbuckets, hfilled, -⟩ := h
  exact (inv_iff_filled hbuckets).mpr hfilled

/-- **An insertion where nothing is found.** -/
theorem insert_new (h : map.Inv keys) (hkeys : keys.Compatible) (memory : Memory) {key : κ}
    (value : ν) {strategy : InsertStrategy}
    (hnone : (if strategy = .append then none
      else map.findEntry keys key (map.place keys key)) = none) :
    (map.insert keys memory key value strategy).2.Inv keys ∧
      Inserts keys memory key value strategy (map.entries : Multiset (κ × ν))
        (map.insert keys memory key value strategy).1.1
        (map.insert keys memory key value strategy).1.2
        (map.insert keys memory key value strategy).2.entries := by
  have habsent := h.absent_or hkeys hnone
  by_cases hupdate : strategy = .update
  · have hinsert : map.insert keys memory key value strategy = ((.noEnt, none), map) := by
      simp only [insert, hnone, if_pos hupdate]
    rw [hinsert]
    refine ⟨h, .noEnt hupdate (habsent.resolve_left ?_)⟩
    rw [hupdate]
    exact InsertStrategy.noConfusion
  · rcases hroom : map.room keys memory with _ | grown
    · have hinsert : map.insert keys memory key value strategy = ((.noMem, none), map) := by
        simp only [insert, hnone, if_neg hupdate]
        unfold room at hroom
        simp only [hroom]
      rw [hinsert]
      refine ⟨h, .noMem hupdate habsent fun hcalloc _ => ?_⟩
      unfold room at hroom
      split at hroom
      · rename_i hneeds
        exact grow_eq_none h hneeds hroom hcalloc
      · cases hroom
    · obtain ⟨hroomy, hgrown⟩ := room_spec h hroom
      unfold room at hroom
      by_cases hmalloc : memory.malloc = true
      · have hinsert : map.insert keys memory key value strategy = ((.ok, none),
            { grown.withChain (grown.place keys key) ((key, value) :: ·) with
              sz := grown.sz + 1 }) := by
          simp only [insert, hnone, if_neg hupdate, hroom, if_pos hmalloc]
          rfl
        obtain ⟨hinv, hperm⟩ := add_spec hroomy key value
        rw [hinsert]
        refine ⟨hinv, ?_⟩
        rw [Multiset.coe_eq_coe.mpr (hperm.symm.trans (hgrown.cons _))]
        exact .new hupdate habsent
      · have hinsert : map.insert keys memory key value strategy = ((.noMem, none), grown) := by
          simp only [insert, hnone, if_neg hupdate, hroom, if_neg hmalloc]
        rw [hinsert, Multiset.coe_eq_coe.mpr hgrown]
        exact ⟨hroomy.inv, .noMem hupdate habsent fun _ h => absurd h hmalloc⟩

/-- **`hashmap__insert`** -/
theorem insert_spec (hkeys : keys.Compatible) (h : map.Inv keys) (memory : Memory) (key : κ)
    (value : ν) (strategy : InsertStrategy) :
    (map.insert keys memory key value strategy).2.Inv keys ∧
      Inserts keys memory key value strategy (map.entries : Multiset (κ × ν))
        (map.insert keys memory key value strategy).1.1
        (map.insert keys memory key value strategy).1.2
        (map.insert keys memory key value strategy).2.entries := by
  by_cases happend : strategy = .append
  · exact insert_new h hkeys memory value (if_pos happend)
  · rcases findEntry_cases hkeys h key with ⟨hnone, -⟩ | ⟨buckets, j, old, hbuckets, hfilled, hfound,
      hequal, hat⟩
    · exact insert_new h hkeys memory value (by rw [if_neg happend, hnone])
    · obtain ⟨hinv, rest, hold, hnew⟩ := replace_spec hbuckets hfilled value hat
      by_cases hset : strategy = .set ∨ strategy = .update
      · have hinsert : map.insert keys memory key value strategy = ((.ok, some old),
            map.withChain (map.place keys key) fun entries => entries.set j (key, value)) := by
          simp only [insert, if_neg happend, hfound, if_pos hset]
        rw [hinsert, hnew]
        exact ⟨hinv, .replaced hset hequal hold⟩
      · have hinsert : map.insert keys memory key value strategy = ((.exist, some old), map) := by
          simp only [insert, if_neg happend, hfound, if_neg hset]
        rw [hinsert]
        refine ⟨h, .exist ?_ hequal (hold ▸ Multiset.mem_cons_self old rest)⟩
        cases strategy with
        | add => rfl
        | append => exact absurd rfl happend
        | set => exact absurd (Or.inl rfl) hset
        | update => exact absurd (Or.inr rfl) hset

/-- **Every call** keeps the invariant, and its answer is one that the bag may give. -/
theorem step_spec (hkeys : keys.Compatible) (h : map.Inv keys) (call : Call κ ν) :
    ∃ answer map', map.step keys call = some (answer, map') ∧
      Spec keys (map.entries : Multiset (κ × ν)) call answer map'.entries ∧ map'.Inv keys := by
  cases call with
  | insert memory key value strategy =>
    obtain ⟨hinv, hinserts⟩ := insert_spec hkeys h memory key value strategy
    exact ⟨_, _, rfl, .insert hinserts, hinv⟩
  | find key =>
    refine ⟨_, map, rfl, ?_, h⟩
    rcases findEntry_cases hkeys h key with ⟨hnone, habsent⟩ | ⟨buckets, j, e, hbuckets, hfilled,
      hfound, hequal, hat⟩
    · rw [find, hnone]
      exact .notFound habsent
    · obtain ⟨-, rest, hold, -⟩ := replace_spec hbuckets hfilled e.2 hat
      rw [find, hfound]
      exact .found (hold ▸ Multiset.mem_cons_self e rest) hequal
  | delete key =>
    rcases findEntry_cases hkeys h key with ⟨hnone, habsent⟩ | ⟨buckets, j, e, hbuckets, hfilled,
      hfound, hequal, hat⟩
    · have hdelete : map.delete keys key = (none, map) := by simp only [delete, hnone]
      refine ⟨_, _, rfl, ?_, ?_⟩
      · rw [hdelete]
        exact .notDeleted habsent
      · rw [hdelete]
        exact h
    · have hdelete : map.delete keys key = (some e,
          { map.withChain (map.place keys key) (·.eraseIdx j) with sz := map.sz - 1 }) := by
        simp only [delete, hfound]
        rfl
      obtain ⟨hinv, hperm⟩ := remove_spec hbuckets hfilled hat
      refine ⟨_, _, rfl, ?_, ?_⟩
      · rw [hdelete]
        exact .deleted hequal (Multiset.coe_eq_coe.mpr hperm)
      · rw [hdelete]
        exact hinv
  | size =>
    refine ⟨_, map, rfl, ?_, h⟩
    rw [h.sz_eq]
    exact .size
  | forEachEntry => exact ⟨_, map, rfl, .entries rfl, h⟩
  | forEachKeyEntry key =>
    refine ⟨_, map, rfl, .keyEntries ?_, h⟩
    rw [keyEntries_eq hkeys h, Multiset.filter_coe]
    congr 2
    simp only [Bool.decide_eq_true]
  | clear => exact ⟨_, _, rfl, .clear, init_inv keys⟩

end HashMap

/-! ## Keys that are there once -/

/-- Equality of keys is one, and respects the hash. -/
structure Keys.Lawful (keys : Keys κ) : Prop where
  compatible : keys.Compatible
  symm : ∀ a b, keys.equal a b = true → keys.equal b a = true
  trans : ∀ a b c, keys.equal a b = true → keys.equal b c = true → keys.equal a c = true

/-- How many entries have a key. -/
def copies (keys : Keys κ) (key : κ) (bag : Multiset (κ × ν)) : ℕ :=
  bag.countP fun e => keys.equal e.1 key = true

def Distinct (keys : Keys κ) (bag : Multiset (κ × ν)) : Prop := ∀ key, copies keys key bag ≤ 1

/-- The call does not put an entry beside another one. -/
def Call.NoAppend : Call κ ν → Prop
  | .insert _ _ _ strategy => strategy ≠ .append
  | _ => True

section Distinct

variable {keys : Keys κ} {bag bag' : Multiset (κ × ν)}

theorem copies_cons (key : κ) (e : κ × ν) : copies keys key (e ::ₘ bag) =
    copies keys key bag + if keys.equal e.1 key = true then 1 else 0 := by
  unfold copies
  rw [Multiset.countP_cons]

theorem copies_of_absent (hkeys : keys.Lawful) {key key' : κ} (h : Absent keys key bag)
    (hkey : keys.equal key key' = true) : copies keys key' bag = 0 := by
  rw [copies, Multiset.countP_eq_zero]
  intro e he hequal
  have hfound := hkeys.trans e.1 key' key hequal (hkeys.symm key key' hkey)
  rw [h e he] at hfound
  cases hfound

/-- **Every call but `HASHMAP_APPEND`** leaves each key at most once. -/
theorem Spec.distinct (hkeys : keys.Lawful) {call : Call κ ν} {answer : Answer κ ν}
    (h : Spec keys bag call answer bag') (hcall : call.NoAppend) (hbag : Distinct keys bag) :
    Distinct keys bag' := by
  cases h with
  | @insert memory key value strategy status old _ h =>
    cases h with
    | new hstrategy habsent =>
      intro key'
      rw [copies_cons]
      split
      · rename_i hequal
        rw [copies_of_absent hkeys (habsent.resolve_left hcall) hequal]
      · exact hbag key'
    | @replaced _ rest hstrategy hkey hold =>
      intro key'
      have hcopies := hbag key'
      rw [hold, copies_cons] at hcopies
      rw [copies_cons]
      split
      · rename_i hequal
        rwa [if_pos (hkeys.trans _ _ _ hkey hequal)] at hcopies
      · omega
    | exist hstrategy hkey hold => exact hbag
    | noEnt hstrategy habsent => exact hbag
    | noMem hstrategy habsent hshort => exact hbag
  | deleted hkey hold =>
    intro key'
    have hcopies := hbag key'
    rw [hold, copies_cons] at hcopies
    omega
  | clear => exact fun key' => Nat.zero_le 1
  | found he hkey => exact hbag
  | notFound habsent => exact hbag
  | notDeleted habsent => exact hbag
  | size => exact hbag
  | entries hes => exact hbag
  | keyEntries hes => exact hbag

end Distinct

/-! ## The order of the entries of a key -/

namespace HashMap

variable {keys : Keys κ} {map : HashMap κ ν}

theorem findFrom_eq_head (key : κ) (j : ℕ) (es : List (κ × ν)) :
    (findFrom keys key j es).map (fun found => found.2.2) =
      (es.filter fun e => keys.equal e.1 key).head?.map Prod.snd := by
  induction es generalizing j with
  | nil => rfl
  | cons cur next ih =>
    rw [findFrom, List.filter_cons]
    split
    · rfl
    · exact ih (j + 1)

/-- **`hashmap__find`** returns the first value of a key. -/
theorem find_eq_head (map : HashMap κ ν) (key : κ) :
    map.find keys key = (map.keyEntries keys key).head?.map Prod.snd := by
  rw [find, findEntry, keyEntries]
  cases map.buckets with
  | none => rfl
  | some buckets => exact findFrom_eq_head key 0 _

/-- **Growing turns round** the entries of a key. -/
theorem keyEntries_grow (hkeys : keys.Compatible) (h : map.Inv keys) {memory : Memory}
    {map' : HashMap κ ν} (hgrow : map.grow keys memory = some map') (key : κ) :
    map'.keyEntries keys key = (map.keyEntries keys key).reverse := by
  rw [keyEntries_eq hkeys h]
  rw [grow] at hgrow
  split at hgrow
  · rename_i hroom
    obtain rfl := Option.some.inj hgrow
    have hlow : 2 ≤ max (map.capBits + 1) hashmapMinCapBits := le_max_right _ _
    have hidx : ∀ e ∈ map.entries, hashBits keys (keys.hash e.1)
        (max (map.capBits + 1) hashmapMinCapBits) < 2 ^ max (map.capBits + 1) hashmapMinCapBits :=
      fun e _ => hashBits_lt _ (by omega) (by omega)
    show List.filter _ (chain _ (hashBits keys (keys.hash key) _)) = _
    rw [chain_fill hidx, List.filter_reverse, List.filter_filter]
    congr 1
    refine List.filter_congr fun e _ => ?_
    rcases hequal : keys.equal e.1 key with _ | _
    · rfl
    · simp [hkeys e.1 key hequal]
  · cases hgrow

/-- The entries of a key after making room. -/
theorem keyEntries_room (hkeys : keys.Compatible) (h : map.Inv keys) {memory : Memory}
    {grown : HashMap κ ν} (hroom : map.room keys memory = some grown) (key : κ) :
    grown.keyEntries keys key =
      if map.needsToGrow then (map.keyEntries keys key).reverse else map.keyEntries keys key := by
  unfold room at hroom
  split at hroom
  · rename_i hneeds
    rw [if_pos hneeds, keyEntries_grow hkeys h hroom]
  · rename_i hneeds
    rw [if_neg hneeds, ← Option.some.inj hroom]

/-- **What an insertion does** to the array: nothing, unless it goes on to make room for a new entry,
which it puts in front of its chain if there is memory for it. -/
theorem insert_cases {memory : Memory} {key : κ} {value : ν} {strategy : InsertStrategy}
    {status : Status} {old : Option (κ × ν)} {map' : HashMap κ ν}
    (h : map.insert keys memory key value strategy = ((status, old), map')) :
    map'.cap = map.cap ∧ (strategy = .append → status ≠ .ok) ∨
      ∃ grown, map.room keys memory = some grown ∧
        (status = .ok ∧ map' = { grown.withChain (grown.place keys key) ((key, value) :: ·) with
            sz := grown.sz + 1 } ∨
          status = .noMem ∧ map' = grown) := by
  unfold insert at h
  dsimp only at h
  split at h
  · rename_i j entry hfound
    have happend : strategy ≠ .append := by
      rintro rfl
      rw [if_pos rfl] at hfound
      cases hfound
    refine Or.inl ⟨?_, fun hcon => absurd hcon happend⟩
    split at h
    · rw [← (Prod.mk.inj h).2]
      rfl
    · rw [← (Prod.mk.inj h).2]
  · split at h
    · rename_i hupdate
      refine Or.inl ⟨by rw [← (Prod.mk.inj h).2], fun hcon => ?_⟩
      rw [hupdate] at hcon
      cases hcon
    · split at h
      · obtain ⟨hanswer, rfl⟩ := Prod.mk.inj h
        refine Or.inl ⟨rfl, fun _ hok => ?_⟩
        rw [← (Prod.mk.inj hanswer).1] at hok
        cases hok
      · rename_i grown hroom
        refine Or.inr ⟨grown, hroom, ?_⟩
        split at h
        · obtain ⟨hanswer, rfl⟩ := Prod.mk.inj h
          exact Or.inl ⟨(Prod.mk.inj hanswer).1.symm, rfl⟩
        · obtain ⟨hanswer, rfl⟩ := Prod.mk.inj h
          exact Or.inr ⟨(Prod.mk.inj hanswer).1.symm, rfl⟩

theorem keyEntries_add (hroomy : map.Roomy keys) (hkeys : keys.Compatible) (key : κ) (value : ν)
    (key' : κ) :
    ({ map.withChain (map.place keys key) ((key, value) :: ·) with sz := map.sz + 1 } :
        HashMap κ ν).keyEntries keys key' =
      (if keys.equal key key' = true then [(key, value)] else []) ++ map.keyEntries keys key' := by
  obtain ⟨buckets, hbuckets, hfilled, -⟩ := hroomy
  have hmodified : (map.withChain (map.place keys key) ((key, value) :: ·)).buckets =
      some (buckets.modify (map.place keys key) ((key, value) :: ·)) := by rw [withChain, hbuckets]; rfl
  rw [keyEntries, keyEntries]
  simp only [hmodified, hbuckets]
  show List.filter _ (chain _ (map.place keys key')) = _
  rw [chain_modify _ _ (hfilled.place_lt key)]
  by_cases hequal : keys.equal key key' = true
  · rw [if_pos (place_eq hkeys hequal), place_eq hkeys hequal, List.filter_cons, if_pos hequal,
      if_pos hequal]
    rfl
  · rw [if_neg hequal, List.nil_append]
    split
    · rename_i hplace
      rw [List.filter_cons, if_neg hequal, hplace]
    · rfl

end HashMap

/-! ## Runs -/

theorem run_spec {keys : Keys κ} (hkeys : keys.Compatible) (calls : List (Call κ ν)) :
    ∃ rs map, answers (HashMap.step keys) .init calls = some (rs, map) ∧
      Trace (Spec keys) 0 calls rs (map.entries : Multiset (κ × ν)) ∧ map.Inv keys := by
  have hstep : ∀ (map : HashMap κ ν) (bag : Multiset (κ × ν)) (call : Call κ ν),
      ↑map.entries = bag ∧ map.Inv keys → ∃ answer map' bag',
        map.step keys call = some (answer, map') ∧ Spec keys bag call answer bag' ∧
          ↑map'.entries = bag' ∧ map'.Inv keys := by
    rintro map bag call ⟨rfl, h⟩
    obtain ⟨answer, map', hcall, hspec, hinv⟩ := HashMap.step_spec hkeys h call
    exact ⟨answer, map', map'.entries, hcall, hspec, rfl, hinv⟩
  obtain ⟨rs, map, bag, hrun, htrace, rfl, hinv⟩ :=
    trace_of_simulation hstep ⟨rfl, HashMap.init_inv keys⟩ calls
  exact ⟨rs, map, hrun, htrace, hinv⟩

/-- What is known of the map behind a run. -/
theorem of_run {keys : Keys κ} (hkeys : keys.Compatible) {calls : List (Call κ ν)}
    {rs : List (Answer κ ν)} {map : HashMap κ ν}
    (hrun : answers (HashMap.step keys) .init calls = some (rs, map)) :
    Trace (Spec keys) 0 calls rs (map.entries : Multiset (κ × ν)) ∧ map.Inv keys := by
  obtain ⟨rs', map', hrun', hspec⟩ := run_spec hkeys calls
  obtain ⟨rfl, rfl⟩ := Prod.mk.inj (Option.some.inj (hrun.symm.trans hrun'))
  exact hspec

/-- Numbers as keys. -/
def numbers : Keys ℕ := ⟨fun n => UInt64.ofNat n, fun a b => a == b, fun _ => 0⟩

theorem numbers_lawful : numbers.Lawful where
  compatible a b h := by rw [beq_iff_eq.mp h]
  symm a b h := by rw [beq_iff_eq.mp h]; exact beq_self_eq_true b
  trans a b c hab hbc := by rwa [beq_iff_eq.mp hab]

def ample : Memory := ⟨true, true⟩

/-- **Every run of calls on a new map** gives answers that a bag of entries may give, and leaves a map
that is at most three quarters full. -/
theorem hashmap_refines (keys : Keys κ) (hkeys : keys.Compatible) (calls : List (Call κ ν)) :
    ∃ rs map, answers (HashMap.step keys) .init calls = some (rs, map) ∧
      Trace (Spec keys) 0 calls rs (map.entries : Multiset (κ × ν)) ∧ map.sz * 4 / 3 ≤ map.cap := by
  obtain ⟨rs, map, hrun, htrace, hinv⟩ := run_spec hkeys calls
  exact ⟨rs, map, hrun, htrace, hinv.load⟩

theorem hashmap_refines_numbers : ∃ rs map,
    answers (HashMap.step numbers) .init [.insert ample 1 10 .add, .find 1] = some (rs, map) ∧
      Trace (Spec numbers) 0 [.insert ample 1 10 .add, .find 1] rs
        (map.entries : Multiset (ℕ × ℕ)) ∧ map.sz * 4 / 3 ≤ map.cap :=
  hashmap_refines numbers numbers_lawful.compatible _

/-- **Without `HASHMAP_APPEND`** the map has at most one entry of each key. -/
theorem hashmap_keys_distinct (keys : Keys κ) (hkeys : keys.Lawful) (calls : List (Call κ ν))
    (hcalls : ∀ call ∈ calls, call.NoAppend) (rs : List (Answer κ ν)) (map : HashMap κ ν)
    (hrun : answers (HashMap.step keys) .init calls = some (rs, map)) (key : κ) :
    (map.keyEntries keys key).length ≤ 1 := by
  obtain ⟨htrace, hinv⟩ := of_run hkeys.compatible hrun
  have hdistinct : Distinct keys (map.entries : Multiset (κ × ν)) :=
    htrace.keeps (I := Distinct keys) (fun _ _ _ _ hbag hcall h => h.distinct hkeys hcall hbag)
      (fun key => Nat.zero_le 1) hcalls
  have hcopies := hdistinct key
  rw [copies, Multiset.coe_countP, List.countP_eq_length_filter] at hcopies
  rw [HashMap.keyEntries_eq hkeys.compatible hinv]
  simpa using hcopies

theorem hashmap_keys_distinct_numbers :
    ((⟨some [[], [], [(1, 20)], []], 4, 2, 1⟩ : HashMap ℕ ℕ).keyEntries numbers 1).length ≤ 1 :=
  hashmap_keys_distinct numbers numbers_lawful [.insert ample 1 10 .add, .insert ample 1 20 .set]
    (by simp [Call.NoAppend]) [.inserted .ok none, .inserted .ok (some (1, 10))] _ rfl 1

/-- **With it** a new entry goes in front of those of its key, and `hashmap__find` returns the one in
front.  Whatever the strategy, an insertion that grows turns the entries of every key round first, also
if it then finds no memory for its own. -/
theorem appended_order (keys : Keys κ) (hkeys : keys.Compatible) (calls : List (Call κ ν))
    (rs : List (Answer κ ν)) (map : HashMap κ ν)
    (hrun : answers (HashMap.step keys) .init calls = some (rs, map)) (key' : κ) :
    map.find keys key' = (map.keyEntries keys key').head?.map Prod.snd ∧
      (∀ (memory : Memory) (key : κ) (value : ν) (map' : HashMap κ ν),
        map.insert keys memory key value .append = ((.ok, none), map') →
        map'.keyEntries keys key' = (if keys.equal key key' = true then [(key, value)] else []) ++
            (if map.needsToGrow then (map.keyEntries keys key').reverse
              else map.keyEntries keys key') ∧
          map'.find keys key' = (map'.keyEntries keys key').head?.map Prod.snd) ∧
      ∀ (memory : Memory) (key : κ) (value : ν) (strategy : InsertStrategy) (status : Status)
        (old : Option (κ × ν)) (map' : HashMap κ ν),
        map.insert keys memory key value strategy = ((status, old), map') → map'.cap ≠ map.cap →
        map'.keyEntries keys key' =
          (if status = .ok ∧ keys.equal key key' = true then [(key, value)] else []) ++
            (map.keyEntries keys key').reverse := by
  obtain ⟨-, hinv⟩ := of_run hkeys hrun
  refine ⟨HashMap.find_eq_head map key', fun memory key value map' hinsert =>
    ⟨?_, HashMap.find_eq_head map' key'⟩,
    fun memory key value strategy status old map' hinsert hcap => ?_⟩
  · rcases HashMap.insert_cases hinsert with ⟨-, hstrategy⟩ | ⟨grown, hroom, hadded⟩
    · exact absurd rfl (hstrategy rfl)
    · rcases hadded with ⟨-, rfl⟩ | ⟨hstatus, -⟩
      · rw [HashMap.keyEntries_add (HashMap.room_spec hinv hroom).1 hkeys,
          HashMap.keyEntries_room hkeys hinv hroom]
      · cases hstatus
  · rcases HashMap.insert_cases hinsert with ⟨hsame, -⟩ | ⟨grown, hroom, hadded⟩
    · exact absurd hsame hcap
    · have hneeds : map.needsToGrow := by
        by_contra hneeds
        rw [HashMap.room, if_neg hneeds] at hroom
        obtain rfl := Option.some.inj hroom
        rcases hadded with ⟨-, rfl⟩ | ⟨-, rfl⟩
        · exact hcap rfl
        · exact hcap rfl
      have hgrown := HashMap.keyEntries_room hkeys hinv hroom key'
      rw [if_pos hneeds] at hgrown
      rcases hadded with ⟨rfl, rfl⟩ | ⟨rfl, rfl⟩
      · rw [HashMap.keyEntries_add (HashMap.room_spec hinv hroom).1 hkeys, hgrown]
        simp
      · simpa using hgrown

/-- The fourth entry makes the array grow, and now the first value of `1` is found, not the last. -/
theorem appended_order_numbers :
    (⟨some [[], [(2, 40)], [], [], [(1, 10), (1, 20)], [], [(3, 30)], []], 8, 3, 4⟩ :
        HashMap ℕ ℕ).keyEntries numbers 1 = [] ++ [(1, 20), (1, 10)].reverse ∧
      (⟨some [[], [(2, 40)], [], [], [(1, 10), (1, 20)], [], [(3, 30)], []], 8, 3, 4⟩ :
        HashMap ℕ ℕ).find numbers 1 = some 10 :=
  (appended_order numbers numbers_lawful.compatible
    [.insert ample 1 10 .append, .insert ample 1 20 .append, .insert ample 3 30 .append]
    [.inserted .ok none, .inserted .ok none, .inserted .ok none]
    ⟨some [[], [], [(1, 20), (1, 10)], [(3, 30)]], 4, 2, 3⟩ rfl 1).2.1 ample 2 40 _ rfl

end Accumulation.Libbpf
