/-
# Accumulation.Go.Ip — the addresses of Go's package net.

An `IP` is a slice of bytes.  An IPv4 address is written in four of them, or in sixteen behind a
prefix (`canon` takes the prefix off); `equal` does not tell the two apart, and neither does the text
of an address.  So two addresses have one text exactly when they are equal (`string_eq_iff`): an IPv6
address can be found again in its text, though a run of zeros is left out of it.  An IPv4 address in
dotted form is read as its four numbers (`to4_parseIP_dotted`).
-/
import Accumulation.Go.Text
import Accumulation.Lib.Decimal

namespace Accumulation.Go

open Accumulation.Lib

/-- `net.IP` -/
abbrev IP := List UInt8

namespace IP

def v4InV6Prefix : IP := [0, 0, 0, 0, 0, 0, 0, 0, 0, 0, 0xff, 0xff]

/-- An IPv4 address in sixteen bytes. -/
def Mapped (ip : IP) : Prop := ip.length = 16 ∧ ip.take 12 = v4InV6Prefix

instance (ip : IP) : Decidable ip.Mapped := inferInstanceAs (Decidable (_ ∧ _))

/-- `To4`, with the empty slice for nil. -/
def to4 (ip : IP) : IP :=
  if ip.length = 4 then ip else if ip.Mapped then ip.drop 12 else []

/-- `Equal` -/
def equal (ip x : IP) : Bool :=
  if ip.length = x.length then ip = x
  else if ip.length = 4 ∧ x.length = 16 then x.take 12 = v4InV6Prefix ∧ ip = x.drop 12
  else if ip.length = 16 ∧ x.length = 4 then ip.take 12 = v4InV6Prefix ∧ ip.drop 12 = x
  else false

/-! ## Texts -/

def decimal (v : UInt8) : Text := Nat.toDigits 10 v.toNat

/-- The numbers of an IPv4 address with dots between them. -/
def dotted (a b c d : UInt8) : Text :=
  decimal a ++ '.' :: decimal b ++ '.' :: decimal c ++ '.' :: decimal d

/-- The bytes of an IPv6 address in pairs. -/
def groups : IP → List ℕ
  | a :: b :: rest => (a.toNat * 256 + b.toNat) :: groups rest
  | _ => []

/-- How many zeros a list starts with. -/
def zeros (gs : List ℕ) : ℕ := (gs.takeWhile (· = 0)).length

/-- The run of at least two zeros from a group on, if it is longer than the one found before. -/
def longer (gs : List ℕ) (run : ℕ × ℕ) (i : ℕ) : ℕ × ℕ :=
  if 2 ≤ zeros (gs.drop i) ∧ run.2 - run.1 < zeros (gs.drop i) then (i, i + zeros (gs.drop i))
  else run

/-- Where the first of the longest runs starts and ends; eight where there is none. -/
def zeroRun (gs : List ℕ) : ℕ × ℕ := (List.range 8).foldl (longer gs) (8, 8)

def hex (n : ℕ) : Text := Nat.toDigits 16 n

/-- What stands between the colons: a run of zeros leaves an empty field, and one more at an end. -/
def fieldsOf (gs : List ℕ) (run : ℕ × ℕ) : List Text :=
  if run.1 = 8 then gs.map hex
  else (if run.1 = 0 then [[]] else (gs.take run.1).map hex) ++ [[]] ++
    (if run.2 = 8 then [[]] else (gs.drop run.2).map hex)

def text6 (ip : IP) : Text := [':'].intercalate (fieldsOf ip.groups (zeroRun ip.groups))

def hexString (ip : IP) : Text :=
  ip.flatMap fun v => [Nat.digitChar (v.toNat / 16), Nat.digitChar (v.toNat % 16)]

/-- `String` -/
def string (ip : IP) : Text :=
  if ip.length = 0 then "<nil>".toList
  else if ip.length ≠ 4 ∧ ip.length ≠ 16 then '?' :: ip.hexString
  else
    match ip.to4 with
    | [a, b, c, d] => dotted a b c d
    | _ => ip.text6

/-! ## Equality -/

/-- An address without the prefix of an IPv4 address. -/
def canon (ip : IP) : IP := if ip.Mapped then ip.drop 12 else ip

variable {ip x : IP}

theorem length_canon (h : ip.Mapped) : ip.canon.length = 4 := by
  rw [canon, if_pos h, List.length_drop, h.1]

theorem equal_eq_or : ip.equal x = true ↔
    ip = x ∨ (ip.length = 4 ∧ x.Mapped ∧ ip = x.drop 12) ∨
      (x.length = 4 ∧ ip.Mapped ∧ ip.drop 12 = x) := by
  have hlength (h : ip = x) : ip.length = x.length := congrArg List.length h
  unfold equal Mapped
  split_ifs with hsame h46 h64 <;> grind

/-- `Equal` does not look at the prefix. -/
theorem equal_iff : ip.equal x = true ↔ ip.canon = x.canon := by
  have hsplit {y : IP} (h : y.Mapped) : y = v4InV6Prefix ++ y.canon := by
    rw [canon, if_pos h, ← h.2, List.take_append_drop]
  rw [equal_eq_or]
  by_cases hip : ip.Mapped <;> by_cases hx : x.Mapped
  · have hsixteen : ip.length ≠ 4 ∧ x.length ≠ 4 := by rw [hip.1, hx.1]; decide
    constructor
    · rintro (rfl | ⟨h, -⟩ | ⟨h, -⟩)
      · rfl
      · exact absurd h hsixteen.1
      · exact absurd h hsixteen.2
    · exact fun h => Or.inl (by rw [hsplit hip, hsplit hx, h])
  · have hcanon : x.canon = x := if_neg hx
    rw [hcanon]
    constructor
    · rintro (rfl | ⟨-, h, -⟩ | ⟨-, -, h⟩)
      · exact absurd hip hx
      · exact absurd h hx
      · rw [canon, if_pos hip, h]
    · rintro rfl
      exact Or.inr (Or.inr ⟨length_canon hip, hip, (if_pos hip).symm⟩)
  · have hcanon : ip.canon = ip := if_neg hip
    rw [hcanon]
    constructor
    · rintro (rfl | ⟨-, -, h⟩ | ⟨-, h, -⟩)
      · exact absurd hx hip
      · rw [canon, if_pos hx, h]
      · exact absurd h hip
    · rintro rfl
      exact Or.inr (Or.inl ⟨length_canon hx, hx, if_pos hx⟩)
  · rw [canon, canon, if_neg hip, if_neg hx]
    exact or_iff_left (by rintro (⟨-, h, -⟩ | ⟨-, h, -⟩) <;> contradiction)

/-! ## The text of an IPv6 address -/

/-- A run of zeros among eight groups, or none. -/
def IsRun (gs : List ℕ) (run : ℕ × ℕ) : Prop :=
  run = (8, 8) ∨ (run.1 < run.2 ∧ run.2 ≤ 8 ∧
    (gs.drop run.1).take (run.2 - run.1) = List.replicate (run.2 - run.1) 0)

theorem take_zeros (gs : List ℕ) : gs.take (zeros gs) = List.replicate (zeros gs) 0 := by
  have htake : gs.takeWhile (· = 0) = gs.take (zeros gs) :=
    List.prefix_iff_eq_take.mp (List.takeWhile_prefix _)
  rw [← htake, List.eq_replicate_iff]
  exact ⟨rfl, fun g hg => by simpa using List.mem_takeWhile_imp hg⟩

variable {gs hs : List ℕ} {run run' : ℕ × ℕ}

/-- **The search** finds a run of zeros, if any. -/
theorem isRun_zeroRun (hlength : gs.length = 8) : IsRun gs (zeroRun gs) := by
  have hsearch (is : List ℕ) (run : ℕ × ℕ) (hrun : IsRun gs run) :
      IsRun gs (is.foldl (longer gs) run) := by
    induction is generalizing run with
    | nil => exact hrun
    | cons i is ih =>
      refine ih _ ?_
      unfold longer
      split
      · rename_i h
        have hle : zeros (gs.drop i) ≤ (gs.drop i).length :=
          (List.takeWhile_prefix _).length_le
        rw [List.length_drop] at hle
        refine Or.inr ⟨by omega, by omega, ?_⟩
        rw [Nat.add_sub_cancel_left]
        exact take_zeros (gs.drop i)
      · exact hrun
  exact hsearch (List.range 8) (8, 8) (Or.inl rfl)

theorem hex_ne_nil (n : ℕ) : hex n ≠ [] := Nat.toDigits_ne_nil

theorem filter_map_hex (l : List ℕ) : (l.map hex).filter (· ≠ []) = l.map hex := by
  rw [List.filter_eq_self]
  intro f hf
  obtain ⟨n, -, rfl⟩ := List.mem_map.mp hf
  simpa using hex_ne_nil n

theorem nil_notMem_map_hex (l : List ℕ) : [] ∉ l.map hex := by
  intro hmem
  obtain ⟨n, -, hn⟩ := List.mem_map.mp hmem
  exact hex_ne_nil n hn

/-- The first empty field is where the run starts. -/
theorem idxOf_fieldsOf (hlength : gs.length = 8) (hrun : IsRun gs run) :
    (fieldsOf gs run).idxOf [] = run.1 := by
  unfold fieldsOf
  split
  · rename_i h
    rw [List.idxOf_eq_length (nil_notMem_map_hex gs), List.length_map, hlength, h]
  · rename_i h
    have hlt : run.1 ≤ 8 := by
      rcases hrun with rfl | ⟨h₁, h₂, -⟩ <;> omega
    split
    · rename_i hzero
      rw [hzero]
      rfl
    · rw [List.append_assoc, List.idxOf_append_of_notMem (nil_notMem_map_hex _), List.length_map,
        List.length_take, hlength, List.singleton_append, List.idxOf_cons_self, Nat.add_zero,
        min_eq_left hlt]

/-- The others are the groups outside the run. -/
theorem filter_fieldsOf (hlength : gs.length = 8) (hrun : IsRun gs run) :
    (fieldsOf gs run).filter (· ≠ []) = (gs.take run.1 ++ gs.drop run.2).map hex := by
  unfold fieldsOf
  split
  · rename_i h
    rcases hrun with rfl | ⟨h₁, h₂, -⟩
    · rw [filter_map_hex, List.take_of_length_le hlength.le, List.drop_of_length_le hlength.le,
        List.append_nil]
    · omega
  · rw [List.filter_append, List.filter_append, List.map_append]
    congr 1
    · rw [show ([[]] : List Text).filter (· ≠ []) = [] from rfl, List.append_nil]
      split
      · rename_i hzero
        rw [hzero]
        rfl
      · exact filter_map_hex _
    · split
      · rename_i height
        rw [height, List.drop_of_length_le hlength.le]
        rfl
      · exact filter_map_hex _

theorem hex_injective : Function.Injective hex := fun _ _ h =>
  Decimal.toDigits_inj (by omega) (by omega) h

/-- The groups outside a run, and a run of zeros between them. -/
theorem eq_of_isRun (hlength : gs.length = 8) (hrun : IsRun gs run) :
    gs = gs.take run.1 ++ (List.replicate (run.2 - run.1) 0 ++ gs.drop run.2) := by
  rcases hrun with rfl | ⟨h₁, h₂, hzeros⟩
  · simp [List.take_of_length_le hlength.le, List.drop_of_length_le hlength.le]
  · have hdrop : gs.drop run.2 = (gs.drop run.1).drop (run.2 - run.1) := by
      rw [List.drop_drop, Nat.add_sub_cancel' h₁.le]
    rw [hdrop, ← hzeros, List.take_append_drop, List.take_append_drop]

/-- **The fields tell the groups**, though the run is left out. -/
theorem fieldsOf_inj (hgs : gs.length = 8) (hhs : hs.length = 8) (hrun : IsRun gs run)
    (hrun' : IsRun hs run') (h : fieldsOf gs run = fieldsOf hs run') : gs = hs := by
  have hstart : run.1 = run'.1 := by
    rw [← idxOf_fieldsOf hgs hrun, ← idxOf_fieldsOf hhs hrun', h]
  have hothers : gs.take run.1 ++ gs.drop run.2 = hs.take run'.1 ++ hs.drop run'.2 := by
    apply hex_injective.list_map
    rw [← filter_fieldsOf hgs hrun, ← filter_fieldsOf hhs hrun', h]
  rcases List.append_inj hothers (by rw [List.length_take, List.length_take, hgs, hhs, hstart])
    with ⟨htake, hdrop⟩
  have hend : run.2 = run'.2 := by
    have hlengths := congrArg List.length hdrop
    rw [List.length_drop, List.length_drop, hgs, hhs] at hlengths
    rcases hrun with rfl | ⟨-, h₂, -⟩ <;> rcases hrun' with rfl | ⟨-, h₂', -⟩ <;> omega
  rw [eq_of_isRun hgs hrun, eq_of_isRun hhs hrun', htake, hdrop, hstart, hend]

theorem groups_inj {k : ℕ} {ip x : IP} (hip : ip.length = 2 * k) (hx : x.length = 2 * k)
    (h : ip.groups = x.groups) : ip = x := by
  induction k generalizing ip x with
  | zero => rw [List.length_eq_zero_iff.mp hip, List.length_eq_zero_iff.mp hx]
  | succ k ih =>
    match ip, x, hip, hx, h with
    | a :: b :: ip, c :: d :: x, hip, hx, h =>
      simp only [List.length_cons] at hip hx
      rw [groups, groups] at h
      rcases List.cons.inj h with ⟨hpair, hrest⟩
      have ha := a.toNat_lt
      have hb := b.toNat_lt
      have hc := c.toNat_lt
      have hd := d.toNat_lt
      rw [ih (by omega) (by omega) hrest, UInt8.toNat_inj.mp (show a.toNat = c.toNat by omega),
        UInt8.toNat_inj.mp (show b.toNat = d.toNat by omega)]

theorem length_groups {k : ℕ} {ip : IP} (hip : ip.length = 2 * k) : ip.groups.length = k := by
  induction k generalizing ip with
  | zero => rw [List.length_eq_zero_iff.mp hip]; rfl
  | succ k ih =>
    match ip, hip with
    | a :: b :: ip, hip =>
      simp only [List.length_cons] at hip
      rw [groups, List.length_cons, ih (by omega)]

theorem colon_ne_digitChar : ∀ d < 16, ':' ≠ Nat.digitChar d := by decide

theorem colon_notMem_hex (n : ℕ) : ':' ∉ hex n :=
  Decimal.notMem_toDigits (by omega) le_rfl colon_ne_digitChar n

theorem colon_notMem_field {f : Text} (hf : f ∈ fieldsOf gs run) : ':' ∉ f := by
  have hhex {l : List ℕ} (hf : f ∈ l.map hex) : ':' ∉ f := by
    obtain ⟨n, -, rfl⟩ := List.mem_map.mp hf
    exact colon_notMem_hex n
  have hempty (hf : f ∈ ([[]] : List Text)) : ':' ∉ f := by
    rw [List.mem_singleton.mp hf]
    exact List.not_mem_nil
  unfold fieldsOf at hf
  split_ifs at hf with h hstart hend hend
  · exact hhex hf
  all_goals
    simp only [List.mem_append] at hf
    rcases hf with (hf | hf) | hf <;> first | exact hempty hf | exact hhex hf

theorem one_lt_length_fieldsOf (hlength : gs.length = 8) (run : ℕ × ℕ) :
    1 < (fieldsOf gs run).length := by
  unfold fieldsOf
  split_ifs with h hstart hend hend
  all_goals simp only [List.length_append, List.length_map, List.length_take, List.length_drop,
    List.length_singleton]
  all_goals omega

theorem splitOn_text6 (hip : ip.length = 16) :
    ip.text6.splitOn ':' = fieldsOf ip.groups (zeroRun ip.groups) := by
  have hlength := one_lt_length_fieldsOf (length_groups (k := 8) hip) (zeroRun ip.groups)
  refine List.splitOn_intercalate ':' (fun f => colon_notMem_field) ?_
  intro hnil
  rw [hnil] at hlength
  exact absurd hlength (Nat.not_lt_zero 1)

theorem colon_mem_text6 (hip : ip.length = 16) : ':' ∈ ip.text6 := by
  by_contra hnone
  have hlength := one_lt_length_fieldsOf (length_groups (k := 8) hip) (zeroRun ip.groups)
  rw [← splitOn_text6 hip, List.splitOn_eq_singleton hnone] at hlength
  exact absurd hlength (Nat.lt_irrefl 1)

theorem text6_inj (hip : ip.length = 16) (hx : x.length = 16)
    (h : ip.text6 = x.text6) : ip = x := by
  have hgroups := length_groups (k := 8) hip
  have hgroups' := length_groups (k := 8) hx
  refine groups_inj (k := 8) hip hx (fieldsOf_inj hgroups hgroups' (isRun_zeroRun hgroups)
    (isRun_zeroRun hgroups') ?_)
  rw [← splitOn_text6 hip, ← splitOn_text6 hx, h]

/-! ## The other texts -/

theorem decimal_inj {v w : UInt8} (h : decimal v = decimal w) : v = w :=
  UInt8.toNat_inj.mp (Decimal.toDigits_inj (by omega) (by omega) h)

theorem dot_notMem_decimal (v : UInt8) : '.' ∉ decimal v :=
  Decimal.notMem_toDigits (by omega) (by omega) (by decide) v.toNat

theorem colon_notMem_decimal (v : UInt8) : ':' ∉ decimal v :=
  Decimal.notMem_toDigits (by omega) (by omega) colon_ne_digitChar v.toNat

theorem dotted_inj {a b c d a' b' c' d' : UInt8} (h : dotted a b c d = dotted a' b' c' d') :
    a = a' ∧ b = b' ∧ c = c' ∧ d = d' := by
  rcases Decimal.append_sep_inj (dot_notMem_decimal d) (dot_notMem_decimal d') h with ⟨h, hd⟩
  rcases Decimal.append_sep_inj (dot_notMem_decimal c) (dot_notMem_decimal c') h with ⟨h, hc⟩
  rcases Decimal.append_sep_inj (dot_notMem_decimal b) (dot_notMem_decimal b') h with ⟨ha, hb⟩
  exact ⟨decimal_inj ha, decimal_inj hb, decimal_inj hc, decimal_inj hd⟩

theorem hexString_inj {ip x : IP} (h : ip.hexString = x.hexString) : ip = x := by
  induction ip generalizing x with
  | nil =>
    cases x with
    | nil => rfl
    | cons w x => nomatch h
  | cons v ip ih =>
    cases x with
    | nil => nomatch h
    | cons w x =>
      obtain ⟨hhigh, hrest⟩ := List.cons.inj h
      obtain ⟨hlow, hrest⟩ := List.cons.inj hrest
      have hv := v.toNat_lt
      have hw := w.toNat_lt
      have hquot := Decimal.digitChar_inj (by omega) (by omega) hhigh
      have hrem := Decimal.digitChar_inj (by omega) (by omega) hlow
      rw [ih hrest, UInt8.toNat_inj.mp (show v.toNat = w.toNat by omega)]

/-! ## Which text is whose -/

/-- What tells the forms of a text apart. -/
def form (s : Text) : ℕ :=
  if ':' ∈ s then 6 else if s.head? = some '<' then 0 else if s.head? = some '?' then 1 else 4

theorem form_hexString (ip : IP) : form ('?' :: ip.hexString) = 1 := by
  have hnone : ':' ∉ '?' :: ip.hexString := by
    intro hmem
    rcases List.mem_cons.mp hmem with h | hmem
    · exact absurd h (by decide)
    · obtain ⟨v, -, hmem⟩ := List.mem_flatMap.mp hmem
      have hv := v.toNat_lt
      simp only [List.mem_cons, List.not_mem_nil, or_false] at hmem
      rcases hmem with h | h
      · exact colon_ne_digitChar _ (by omega) h
      · exact colon_ne_digitChar _ (by omega) h
  rw [form, if_neg hnone]
  rfl

theorem form_dotted (a b c d : UInt8) : form (dotted a b c d) = 4 := by
  have hnone : ':' ∉ dotted a b c d := by
    simp only [dotted, List.mem_append, List.mem_cons, colon_notMem_decimal, or_false, false_or]
    decide
  obtain ⟨e, es, hhead, hdigit, -⟩ := Decimal.toDigits_eq_cons a.toNat
  have hne (r : Char) (hr : r.isDigit = false) : (dotted a b c d).head? ≠ some r := by
    intro h
    rw [dotted, decimal, hhead] at h
    rw [Option.some.inj h, hr] at hdigit
    nomatch hdigit
  rw [form, if_neg hnone, if_neg (hne '<' (by decide)), if_neg (hne '?' (by decide))]

theorem not_mapped_canon (ip : IP) : ¬ ip.canon.Mapped := by
  by_cases h : ip.Mapped
  · intro hcanon
    exact absurd ((length_canon h).symm.trans hcanon.1) (by decide)
  · rwa [canon, if_neg h]

/-- The prefix is not seen in the text. -/
theorem string_canon (ip : IP) : ip.string = ip.canon.string := by
  by_cases h : ip.Mapped
  · have hto4 : ip.to4 = ip.canon.to4 := by
      rw [to4, if_neg (by rw [h.1]; decide), if_pos h, to4, if_pos (length_canon h), canon, if_pos h]
    obtain ⟨a, b, c, d, hfour⟩ := List.length_eq_four.mp (length_canon h)
    have hcanon : ip.to4 = [a, b, c, d] := by
      rw [hto4, hfour]
      rfl
    unfold string
    rw [if_neg (by rw [h.1]; decide), if_neg (by rw [h.1]; decide), hcanon, hfour]
    rfl
  · rw [canon, if_neg h]

/-- The four kinds of addresses without the prefix. -/
theorem string_cases (hip : ¬ ip.Mapped) :
    (form ip.string = 0 ∧ ip = []) ∨
    (form ip.string = 1 ∧ ip.string = '?' :: ip.hexString) ∨
    (form ip.string = 4 ∧ ∃ a b c d, ip = [a, b, c, d] ∧ ip.string = dotted a b c d) ∨
    (form ip.string = 6 ∧ ip.length = 16 ∧ ip.string = ip.text6) := by
  by_cases hzero : ip.length = 0
  · obtain rfl := List.length_eq_zero_iff.mp hzero
    exact Or.inl ⟨by decide, rfl⟩
  by_cases hfour : ip.length = 4
  · obtain ⟨a, b, c, d, rfl⟩ := List.length_eq_four.mp hfour
    exact Or.inr (Or.inr (Or.inl ⟨form_dotted a b c d, a, b, c, d, rfl, rfl⟩))
  by_cases hsixteen : ip.length = 16
  · have hstring : ip.string = ip.text6 := by
      rw [string, if_neg hzero, if_neg (by omega), to4, if_neg hfour, if_neg hip]
    refine Or.inr (Or.inr (Or.inr ⟨?_, hsixteen, hstring⟩))
    rw [hstring, form, if_pos (colon_mem_text6 hsixteen)]
  · have hstring : ip.string = '?' :: ip.hexString := by
      rw [string, if_neg hzero, if_pos ⟨hfour, hsixteen⟩]
    refine Or.inr (Or.inl ⟨?_, hstring⟩)
    rw [hstring]
    exact form_hexString ip

/-- Without the prefix, the text tells the address. -/
theorem string_inj (hip : ¬ ip.Mapped) (hx : ¬ x.Mapped) (h : ip.string = x.string) : ip = x := by
  have hform := congrArg form h
  rcases string_cases hip with ⟨hf, hi⟩ | ⟨hf, hi⟩ | ⟨hf, a, b, c, d, rfl, hi⟩ | ⟨hf, hl, hi⟩ <;>
    rcases string_cases hx with ⟨hf', hj⟩ | ⟨hf', hj⟩ | ⟨hf', a', b', c', d', rfl, hj⟩ |
      ⟨hf', hl', hj⟩ <;> rw [hf, hf'] at hform <;> try exact absurd hform (by decide)
  · rw [hi, hj]
  · rw [hi, hj] at h
    exact hexString_inj (List.cons.inj h).2
  · rw [hi, hj] at h
    rcases dotted_inj h with ⟨rfl, rfl, rfl, rfl⟩
    rfl
  · rw [hi, hj] at h
    exact text6_inj hl hl' h

/-- **Two addresses have one text** exactly when they are equal. -/
theorem string_eq_iff {ip x : IP} : ip.string = x.string ↔ ip.equal x = true := by
  rw [equal_iff, string_canon ip, string_canon x]
  constructor
  · exact string_inj (not_mapped_canon ip) (not_mapped_canon x)
  · exact fun h => by rw [h]

example : string [0x20, 1, 0xd, 0xb8, 0, 0, 0, 0, 0, 1, 0, 0, 0, 0, 0, 1] =
    "2001:db8::1:0:0:1".toList := by decide

/-! ## The characters of a text -/

theorem mem_or_of_mem_intercalate {α : Type*} {x : α} {sep : List α} {ls : List (List α)}
    (h : x ∈ sep.intercalate ls) : x ∈ sep ∨ ∃ l ∈ ls, x ∈ l := by
  induction ls with
  | nil => cases h
  | cons l ls ih =>
    rcases ls with _ | ⟨l', ls⟩
    · rw [List.intercalate_singleton] at h
      exact Or.inr ⟨l, List.mem_cons_self, h⟩
    · rw [List.intercalate_cons_cons, List.mem_append, List.mem_append] at h
      rcases h with (h | h) | h
      · exact Or.inr ⟨l, List.mem_cons_self, h⟩
      · exact Or.inl h
      · rcases ih h with h | ⟨m, hm, h⟩
        · exact Or.inl h
        · exact Or.inr ⟨m, List.mem_cons_of_mem l hm, h⟩

section Characters

variable {c : Char} (hc : ∀ d < 16, c ≠ Nat.digitChar d)

include hc

theorem notMem_text6 (hcolon : c ≠ ':') : c ∉ ip.text6 := by
  have hhex (l : List ℕ) {f : Text} (hf : f ∈ l.map hex) : c ∉ f := by
    obtain ⟨n, -, rfl⟩ := List.mem_map.mp hf
    exact Decimal.notMem_toDigits (by omega) le_rfl hc n
  have hfield {f : Text} (hf : f ∈ fieldsOf ip.groups (zeroRun ip.groups)) : c ∉ f := by
    intro hmem
    have hothers : f ∈ (fieldsOf ip.groups (zeroRun ip.groups)).filter (· ≠ []) := by
      rw [List.mem_filter]
      exact ⟨hf, by simpa using List.ne_nil_of_mem hmem⟩
    unfold fieldsOf at hothers
    split_ifs at hothers <;> simp only [List.filter_append, List.mem_append, filter_map_hex] at hothers
    · exact hhex _ hothers hmem
    all_goals
      rcases hothers with (h | h) | h <;> first
        | exact hhex _ h hmem
        | exact absurd h (by simp)
  intro hmem
  rcases mem_or_of_mem_intercalate hmem with h | ⟨f, hf, h⟩
  · exact hcolon (List.mem_singleton.mp h)
  · exact hfield hf h

theorem notMem_hexString : c ∉ ip.hexString := by
  intro hmem
  obtain ⟨v, -, hmem⟩ := List.mem_flatMap.mp hmem
  have hv := v.toNat_lt
  simp only [List.mem_cons, List.not_mem_nil, or_false] at hmem
  rcases hmem with h | h
  · exact hc _ (by omega) h
  · exact hc _ (by omega) h

theorem notMem_dotted (hdot : c ≠ '.') (a b d e : UInt8) : c ∉ dotted a b d e := by
  have hdecimal (v : UInt8) : c ∉ decimal v := Decimal.notMem_toDigits (by omega) (by omega) hc _
  simp only [dotted, List.mem_append, List.mem_cons, hdecimal, hdot, or_false, not_false_iff]

end Characters

/-- An address of IPv6 proper. -/
def Six (ip : IP) : Prop := ip.length = 16 ∧ ¬ ip.Mapped

instance (ip : IP) : Decidable ip.Six := inferInstanceAs (Decidable (_ ∧ _))

theorem string_six (h : ip.Six) : ip.string = ip.text6 := by
  rw [string, if_neg (by rw [h.1]; omega), if_neg (by rw [h.1]; omega), to4, if_neg (by rw [h.1]; omega),
    if_neg h.2]

/-- **The other texts** have no colon and no bracket. -/
theorem string_plain (h : ¬ ip.Six) : ∀ c ∈ ip.string, c ∉ [':', '[', ']'] := by
  have hnil : ∀ c ∈ "<nil>".toList, c ∉ [':', '[', ']'] := by simp
  have hdigits : ∀ c ∈ [':', '[', ']'], ∀ d < 16, c ≠ Nat.digitChar d := by
    intro c hc
    simp only [List.mem_cons, List.not_mem_nil, or_false] at hc
    rcases hc with rfl | rfl | rfl <;> decide
  intro c hmem hc
  rw [string_canon] at hmem
  rcases string_cases (not_mapped_canon ip) with ⟨-, hempty⟩ | ⟨-, htext⟩ |
    ⟨-, a, b, d, e, -, htext⟩ | ⟨-, hlength, -⟩
  · rw [hempty] at hmem
    exact hnil c hmem hc
  · rw [htext] at hmem
    rcases List.mem_cons.mp hmem with rfl | hmem
    · exact absurd hc (by decide)
    · exact notMem_hexString (hdigits c hc) hmem
  · rw [htext] at hmem
    refine notMem_dotted (hdigits c hc) ?_ a b d e hmem
    rintro rfl
    exact absurd hc (by decide)
  · by_cases hmapped : ip.Mapped
    · rw [length_canon hmapped] at hlength
      cases hlength
    · rw [canon, if_neg hmapped] at hlength
      exact h ⟨hlength, hmapped⟩

/-! ## Reading an IPv4 address -/

/-- The numbers of an IPv4 address, behind those that have been read and the digits of the next.  A
number has no leading zeros and is not above 255. -/
def parseIPv4 (fields : IP) (val digLen : ℕ) : Text → Option IP
  | [] => if fields.length < 3 then none else some (fields ++ [.ofNat val])
  | c :: s =>
    if c.isDigit then
      if digLen = 1 ∧ val = 0 then none
      else if 255 < val * 10 + (c.toNat - '0'.toNat) then none
      else parseIPv4 fields (val * 10 + (c.toNat - '0'.toNat)) (digLen + 1) s
    else if c = '.' then
      -- there are digits on both sides of a dot
      if digLen = 0 ∨ s = [] then none
      else if fields.length = 3 then none
      else parseIPv4 (fields ++ [.ofNat val]) 0 0 s
    else none

/-- `ParseIP`, with the empty slice for nil: the first dot or colon tells the form of the address. -/
def parseIP (parseIPv6 : Text → Option IP) (s : Text) : IP :=
  match s.find? (· ∈ ['.', ':', '%']) with
  | some '.' => ((parseIPv4 [] 0 0 s).map (v4InV6Prefix ++ ·)).getD []
  | some ':' => (parseIPv6 s).getD []
  | _ => []

theorem parseIPv4_digit {fields : IP} {val digLen d : ℕ} {rest : Text} (hd : d < 10)
    (hlead : ¬ (digLen = 1 ∧ val = 0)) (hle : val * 10 + d ≤ 255) :
    parseIPv4 fields val digLen (Nat.digitChar d :: rest) =
      parseIPv4 fields (val * 10 + d) (digLen + 1) rest := by
  have hvalue : (Nat.digitChar d).toNat - '0'.toNat = d := by
    rw [Nat.toNat_digitChar_of_lt_ten hd]
    exact Nat.add_sub_cancel_left 48 d
  have hdigit : (Nat.digitChar d).isDigit = true :=
    (List.all_eq_true.mp (Decimal.all_isDigit_toDigits d) _ (by
      rw [Nat.toDigits_of_lt_base hd]
      exact List.mem_singleton_self _))
  rw [parseIPv4, if_pos hdigit, if_neg hlead, hvalue, if_neg (by omega)]

/-- A number is read. -/
theorem parseIPv4_decimal (fields : IP) (v : UInt8) (rest : Text) :
    ∃ n, 0 < n ∧ parseIPv4 fields 0 0 (decimal v ++ rest) = parseIPv4 fields v.toNat n rest := by
  have hv := v.toNat_lt
  have htwo {k : ℕ} (hk : 10 ≤ k) :
      Nat.toDigits 10 k = Nat.toDigits 10 (k / 10) ++ [(k % 10).digitChar] :=
    Nat.toDigits_of_base_le (by omega) hk
  have hone {k : ℕ} (hk : k < 10) : Nat.toDigits 10 k = [k.digitChar] := Nat.toDigits_of_lt_base hk
  unfold decimal
  rcases Nat.lt_or_ge v.toNat 10 with hlt | hge
  · refine ⟨1, by omega, ?_⟩
    rw [hone hlt, List.singleton_append, parseIPv4_digit hlt (by omega) (by omega), Nat.zero_mul,
      Nat.zero_add]
  rcases Nat.lt_or_ge v.toNat 100 with hlt' | hge'
  · refine ⟨2, by omega, ?_⟩
    rw [htwo hge, hone (by omega), List.append_assoc, List.singleton_append, List.singleton_append,
      parseIPv4_digit (by omega) (by omega) (by omega),
      parseIPv4_digit (by omega) (by omega) (by omega)]
    congr 1
    omega
  · refine ⟨3, by omega, ?_⟩
    rw [htwo hge, htwo (by omega), hone (by omega), List.append_assoc, List.append_assoc,
      List.singleton_append, List.singleton_append, List.singleton_append,
      parseIPv4_digit (by omega) (by omega) (by omega),
      parseIPv4_digit (by omega) (by omega) (by omega),
      parseIPv4_digit (by omega) (by omega) (by omega)]
    congr 1
    omega

theorem parseIPv4_dot {fields : IP} {val digLen : ℕ} {rest : Text} (hdigits : 0 < digLen)
    (hrest : rest ≠ []) (hfields : fields.length < 3) :
    parseIPv4 fields val digLen ('.' :: rest) = parseIPv4 (fields ++ [.ofNat val]) 0 0 rest := by
  have hsides : ¬ (digLen = 0 ∨ rest = []) := by
    rintro (h | h)
    · omega
    · exact hrest h
  rw [parseIPv4, if_neg (by decide), if_pos rfl, if_neg hsides, if_neg (by omega)]

/-- A number and the dot behind it. -/
theorem parseIPv4_field {fields : IP} (v : UInt8) {rest : Text} (hrest : rest ≠ [])
    (hfields : fields.length < 3) :
    parseIPv4 fields 0 0 (decimal v ++ '.' :: rest) = parseIPv4 (fields ++ [v]) 0 0 rest := by
  obtain ⟨n, hn, hparse⟩ := parseIPv4_decimal fields v ('.' :: rest)
  rw [hparse, parseIPv4_dot hn hrest hfields, UInt8.ofNat_toNat]

/-- **What is written is read.** -/
theorem parseIPv4_dotted (a b c d : UInt8) :
    parseIPv4 [] 0 0 (dotted a b c d) = some [a, b, c, d] := by
  have hne (v : UInt8) (rest : Text) : decimal v ++ rest ≠ [] := by
    intro h
    exact Nat.toDigits_ne_nil (List.append_eq_nil_iff.mp h).1
  have hlast : parseIPv4 [a, b, c] 0 0 (decimal d) = some [a, b, c, d] := by
    obtain ⟨n, -, hparse⟩ := parseIPv4_decimal [a, b, c] d []
    rw [List.append_nil] at hparse
    have hthree : ¬ ([a, b, c] : IP).length < 3 := Nat.lt_irrefl 3
    rw [hparse, parseIPv4, if_neg hthree, UInt8.ofNat_toNat]
    rfl
  calc parseIPv4 [] 0 0 (dotted a b c d)
      = parseIPv4 [] 0 0 (decimal a ++ '.' :: (decimal b ++ '.' ::
          (decimal c ++ '.' :: decimal d))) := by
        simp only [dotted, List.append_assoc, List.cons_append]
    _ = parseIPv4 [a] 0 0 (decimal b ++ '.' :: (decimal c ++ '.' :: decimal d)) :=
        parseIPv4_field a (hne b _) (show 0 < 3 by omega)
    _ = parseIPv4 [a, b] 0 0 (decimal c ++ '.' :: decimal d) :=
        parseIPv4_field b (hne c _) (show 1 < 3 by omega)
    _ = parseIPv4 [a, b, c] 0 0 (decimal d) :=
        parseIPv4_field c Nat.toDigits_ne_nil (show 2 < 3 by omega)
    _ = some [a, b, c, d] := hlast

theorem to4_parseIP_dotted (parseIPv6 : Text → Option IP) (a b c d : UInt8) :
    (parseIP parseIPv6 (dotted a b c d)).to4 = [a, b, c, d] := by
  have hfind : (dotted a b c d).find? (· ∈ ['.', ':', '%']) = some '.' := by
    have hnone : (decimal a).find? (· ∈ ['.', ':', '%']) = none := by
      rw [List.find?_eq_none]
      intro r hr
      obtain ⟨e, he, rfl⟩ := Decimal.exists_of_mem_toDigits (by omega) hr
      clear hr
      revert e
      decide
    simp only [dotted, List.append_assoc, List.cons_append]
    rw [List.find?_append, hnone, Option.none_or]
    rfl
  rw [parseIP, hfind]
  simp only [parseIPv4_dotted, Option.map_some, Option.getD_some]
  rfl

end IP

end Accumulation.Go
