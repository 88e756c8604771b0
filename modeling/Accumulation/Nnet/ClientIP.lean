/-
# Accumulation.Nnet.ClientIP — the address of the client, from the headers of a request.

Behind proxies the address is in a header, and `getClientIP` looks for it in three of them.  In the
Forwarded header it takes the first parameter that starts with `for=` in any letter case; but the
name is taken off only in lower case, and blanks only after that.  `clientIP_eq_host_iff` says for
which headers it returns the host of the first `for` parameter all the same.
-/
import Accumulation.Go.HostPort

namespace Accumulation.Nnet

open Accumulation.Go

/-! ## The code -/

/-- `http.Request`: the first value of each header, by its name, and the address of the peer. -/
structure Request where
  header : String → Text
  remoteAddr : Text

def forKey : Text := "for=".toList

/-- The loop over the parts of the Forwarded header. -/
def forPart (unicode : Unicode) : List Text → Option Text
  | [] => none
  | part :: parts =>
    if forKey.isPrefixOf (unicode.lower part) then
      some (trimSpace (if forKey.isPrefixOf part then part.drop forKey.length else part))
    else forPart unicode parts

/-- `GetClientIP` up to its deferred function. -/
def clientIP (unicode : Unicode) (r : Request) : Text :=
  let xff := r.header "X-Forwarded-For"
  if xff ≠ [] then trimSpace ((xff.splitOn ',').headD [])
  else
    let xri := r.header "X-Real-IP"
    if xri ≠ [] then xri
    else
      let forwarded := r.header "Forwarded"
      if forwarded ≠ [] then (forPart unicode (forwarded.splitOn ';')).getD r.remoteAddr
      else r.remoteAddr

/-- The deferred function takes the port off, if there is one. -/
def withoutPort (ip : Text) : Text :=
  if 0 < ip.length then
    match splitHostPort ip with
    | .error _ => ip
    | .ok (host, _) => host
  else ip

def getClientIP (unicode : Unicode) (r : Request) : Text := withoutPort (clientIP unicode r)

/-! ## Forwarded headers -/

def blanks : List Char := [' ', '\t']

/-- A parameter, with the blanks around it. -/
structure Param where
  lead : Text
  name : Text
  value : Text
  trail : Text
  deriving DecidableEq, Repr

namespace Param

def text (p : Param) : Text := p.lead ++ p.name ++ '=' :: (p.value ++ p.trail)

/-- The blanks are blanks, the name is ASCII without blanks and separators, and the value does not
hold a semicolon. -/
structure WellFormed (p : Param) : Prop where
  lead : ∀ c ∈ p.lead, c ∈ blanks
  name : ∀ c ∈ p.name, c.toNat < 128 ∧ c ∉ blanks ∧ c ≠ '=' ∧ c ≠ ';'
  value : ';' ∉ p.value
  trail : ∀ c ∈ p.trail, c ∈ blanks

instance (p : Param) : Decidable p.WellFormed :=
  decidable_of_iff (p.lead.all (· ∈ blanks) ∧
      p.name.all (fun c => c.toNat < 128 ∧ c ∉ blanks ∧ c ≠ '=' ∧ c ≠ ';') ∧
      ';' ∉ p.value ∧ p.trail.all (· ∈ blanks)) <| by
    simp only [List.all_eq_true, decide_eq_true_eq]
    exact ⟨fun h => ⟨h.1, h.2.1, h.2.2.1, h.2.2.2⟩, fun h => ⟨h.lead, h.name, h.value, h.trail⟩⟩

/-- The name is `for`, in any letter case. -/
def IsFor (p : Param) : Prop := p.name.map Char.toLower = "for".toList

instance (p : Param) : Decidable p.IsFor := inferInstanceAs (Decidable (_ = _))

/-- The parameter is a `for` parameter right behind a semicolon or at the start. -/
def Recognised (p : Param) : Prop := p.lead = [] ∧ p.IsFor

instance (p : Param) : Decidable p.Recognised := inferInstanceAs (Decidable (_ ∧ _))

end Param

/-- The parameters with semicolons between them. -/
def forwardedText (params : List Param) : Text := [';'].intercalate (params.map Param.text)

/-- A character of a host name, of an IPv4 address or of a port. -/
def Plain (c : Char) : Prop := c ∉ [':', '[', ']', '=', ';'] ∧ isSpace c = false

instance (c : Char) : Decidable (Plain c) := inferInstanceAs (Decidable (_ ∧ _))

/-- A host, or a host and a port. -/
def IsNode (host value : Text) : Prop :=
  (∀ c ∈ host, Plain c) ∧
    (value = host ∨ ∃ port, (∀ c ∈ port, Plain c) ∧ value = host ++ ':' :: port)

/-- The parameter that is recognised first is spelled `for` and has the host, or there is none and
the peer has it. -/
def HostTaken (params : List Param) (remoteAddr host : Text) : Prop :=
  match params.find? (fun p => p.Recognised) with
  | some p => p.name = "for".toList ∧ withoutPort (trimSpace p.value) = host
  | none => withoutPort remoteAddr = host

/-! ## Blanks and ports -/

variable {host value s t : Text}

theorem blank_cases {c : Char} (h : c ∈ blanks) : c = ' ' ∨ c = '\t' := by
  simpa only [blanks, List.mem_cons, List.not_mem_nil, or_false] using h

theorem isSpace_of_blank {c : Char} (h : c ∈ blanks) : isSpace c = true := by
  rcases blank_cases h with rfl | rfl <;> decide

/-- Nothing is dropped beyond an element that stays. -/
theorem rdropWhile_append_cons {f : Char → Bool} {a : Char} (ha : f a = false) (l r : Text) :
    (l ++ a :: r).rdropWhile f = l ++ a :: r.rdropWhile f := by
  induction r using List.reverseRecOn with
  | nil => exact List.rdropWhile_concat_neg f l a (by simp [ha])
  | append_singleton r x ih =>
    rw [← List.cons_append, ← List.append_assoc, List.rdropWhile_concat, List.rdropWhile_concat]
    split
    · exact ih
    · rw [List.append_assoc, List.cons_append]

/-- Blanks at the end are trimmed. -/
theorem trimSpace_append (ht : ∀ c ∈ t, isSpace c = true) : trimSpace (s ++ t) = trimSpace s := by
  have hright (l : Text) : (l ++ t).rdropWhile isSpace = l.rdropWhile isSpace := by
    rw [List.rdropWhile, List.reverse_append, List.dropWhile_append_of_pos, List.rdropWhile]
    exact fun c hc => ht c (List.mem_reverse.mp hc)
  rw [trimSpace, trimSpace, List.dropWhile_append]
  split
  · rename_i h
    rw [List.isEmpty_iff.mp h, List.dropWhile_eq_nil_iff.mpr ht]
  · exact hright _

/-- The host of a node is what is left. -/
theorem withoutPort_node (h : IsNode host value) : withoutPort (trimSpace value) = host := by
  obtain ⟨hhost, hvalue⟩ := h
  have hspace : ∀ c ∈ value, isSpace c = false := by
    rcases hvalue with rfl | ⟨port, hport, rfl⟩
    · exact fun c hc => (hhost c hc).2
    · intro c hc
      rcases List.mem_append.mp hc with hc | hc
      · exact (hhost c hc).2
      · rcases List.mem_cons.mp hc with rfl | hc
        · decide
        · exact (hport c hc).2
  have htrim : trimSpace value = value :=
    trimSpace_eq_self (fun c hc => hspace c (List.mem_of_head? hc))
      fun c hc => hspace c (List.mem_of_getLast? hc)
  have hplain {l : Text} (hl : ∀ c ∈ l, Plain c) : ∀ c ∈ l, c ∉ [':', '[', ']'] := by
    intro c hc hmem
    refine (hl c hc).1 ?_
    simp only [List.mem_cons, List.not_mem_nil, or_false] at hmem ⊢
    tauto
  rw [htrim, withoutPort]
  rcases hvalue with rfl | ⟨port, hport, rfl⟩
  · have hcolon : ':' ∉ value := fun hmem => hplain hhost ':' hmem (by decide)
    rw [splitHostPort_of_notMem hcolon]
    exact ite_self value
  · rw [if_pos (by simp), splitHostPort_plain (hplain hhost) (hplain hport)]

/-! ## The name of a parameter -/

variable {unicode : Unicode} {p : Param}

/-- What becomes a letter of `for=`. -/
theorem of_toLower_mem {c : Char} (hc : c.toNat < 128) (h : c.toLower ∈ forKey) :
    c ∈ ['f', 'F', 'o', 'O', 'r', 'R', '='] ∧ (c.toLower = '=' → c = '=') := by
  have hall : ∀ n < 128, (Char.ofNat n).toLower ∈ forKey →
      Char.ofNat n ∈ ['f', 'F', 'o', 'O', 'r', 'R', '='] ∧
        ((Char.ofNat n).toLower = '=' → Char.ofNat n = '=') := by
    decide +kernel
  have hofNat := Char.ofNat_toNat c
  rw [← hofNat] at h ⊢
  exact hall c.toNat hc h

theorem lower_eq {l : Text} (h : ∀ c ∈ l, c.toNat < 128) : unicode.lower l = l.map Char.toLower :=
  List.map_congr_left fun c hc => (unicode.ascii c (h c hc)).2.1

/-- The first separator is where two texts come apart. -/
theorem append_first_inj {x : Char} {a b c d : Text} (ha : x ∉ a) (hb : x ∉ b)
    (h : a ++ x :: c = b ++ x :: d) : a = b ∧ c = d := by
  have htake {l r : Text} (hl : x ∉ l) : (l ++ x :: r).takeWhile (· ≠ x) = l := by
    rw [List.takeWhile_append_of_pos, List.takeWhile_cons_of_neg (by simp), List.append_nil]
    intro y hy
    rw [decide_eq_true_eq]
    rintro rfl
    exact hl hy
  have hab : a = b := by rw [← htake (r := c) ha, h, htake hb]
  subst hab
  exact ⟨rfl, (List.cons.inj (List.append_cancel_left h)).2⟩

namespace Param

theorem lower_text_nil (h : p.WellFormed) (hlead : p.lead = []) : unicode.lower p.text =
    p.name.map Char.toLower ++ '=' :: unicode.lower (p.value ++ p.trail) := by
  have hsep : unicode.toLower '=' = '=' := (unicode.ascii '=' (by decide)).2.1
  rw [text, hlead, List.nil_append, Unicode.lower, List.map_append, List.map_cons, hsep]
  congr 1
  exact lower_eq fun c hc => (h.name c hc).1

theorem sep_notMem_lower (h : p.WellFormed) : '=' ∉ p.name.map Char.toLower := by
  intro hmem
  obtain ⟨c, hc, hlower⟩ := List.mem_map.mp hmem
  obtain ⟨hascii, -, hne, -⟩ := h.name c hc
  exact hne ((of_toLower_mem hascii (by rw [hlower]; decide)).2 hlower)

/-- **A part is recognised** without blanks in front of it. -/
theorem isPrefixOf_lower (unicode : Unicode) (h : p.WellFormed) :
    forKey.isPrefixOf (unicode.lower p.text) = true ↔ p.Recognised := by
  rw [List.isPrefixOf_iff_prefix, Recognised]
  rcases hlead : p.lead with _ | ⟨c, lead⟩
  · rw [lower_text_nil h hlead, and_iff_right rfl, IsFor]
    constructor
    · rintro ⟨rest, hrest⟩
      rw [show forKey ++ rest = "for".toList ++ '=' :: rest from rfl] at hrest
      exact (append_first_inj (by decide) (sep_notMem_lower h) hrest).1.symm
    · intro hname
      rw [hname]
      exact ⟨_, rfl⟩
  · -- a blank stays one
    have hblank : c ∈ blanks := h.lead c (by rw [hlead]; exact List.mem_cons_self)
    have hhead : (unicode.lower p.text).head? = some (unicode.toLower c) := by
      rw [text, hlead]
      rfl
    constructor
    · rintro ⟨rest, hrest⟩
      rw [← hrest] at hhead
      have hc : unicode.toLower c = 'f' := (Option.some.inj hhead).symm
      rcases blank_cases hblank with rfl | rfl
      · rw [(unicode.ascii ' ' (by decide)).2.1] at hc
        exact absurd hc (by decide)
      · rw [(unicode.ascii '\t' (by decide)).2.1] at hc
        exact absurd hc (by decide)
    · rintro ⟨hnil, -⟩
      nomatch hnil

/-- What is made of a recognised parameter. -/
theorem trimmed_for (h : p.WellFormed) (hlead : p.lead = []) (hname : p.name = "for".toList) :
    forKey.isPrefixOf p.text = true ∧
      trimSpace (p.text.drop forKey.length) = trimSpace p.value := by
  have htext : p.text = forKey ++ (p.value ++ p.trail) := by
    rw [text, hlead, hname]
    rfl
  refine ⟨?_, ?_⟩
  · rw [List.isPrefixOf_iff_prefix, htext]
    exact List.prefix_append _ _
  · rw [htext, List.drop_left]
    exact trimSpace_append fun c hc => isSpace_of_blank (h.trail c hc)

theorem isPrefixOf_text (h : p.WellFormed) (hlead : p.lead = []) (hname : p.name ≠ "for".toList) :
    forKey.isPrefixOf p.text = false := by
  refine Bool.eq_false_of_not_eq_true fun hpre => hname ?_
  obtain ⟨rest, hrest⟩ := List.isPrefixOf_iff_prefix.mp hpre
  rw [text, hlead, List.nil_append,
    show forKey ++ rest = "for".toList ++ '=' :: rest from rfl] at hrest
  exact (append_first_inj (by decide) (fun hmem => (h.name '=' hmem).2.2.1 rfl) hrest).1.symm

/-- The letters of the name, when it is recognised. -/
theorem letter_of_isFor (h : p.WellFormed) (hfor : p.IsFor) {c : Char} (hc : c ∈ p.name) :
    isSpace c = false ∧ c ≠ ':' ∧ c ≠ '[' := by
  have hlower : c.toLower ∈ forKey := by
    have hmem : c.toLower ∈ p.name.map Char.toLower := List.mem_map_of_mem hc
    rw [hfor] at hmem
    exact List.mem_append_left ['='] hmem
  have hcases := (of_toLower_mem (h.name c hc).1 hlower).1
  simp only [List.mem_cons, List.not_mem_nil, or_false] at hcases
  rcases hcases with rfl | rfl | rfl | rfl | rfl | rfl | rfl <;> decide

/-- **Another spelling** of the name is left in front of the host. -/
theorem sep_mem_withoutPort (h : p.WellFormed) (hlead : p.lead = []) (hfor : p.IsFor) :
    '=' ∈ withoutPort (trimSpace p.text) := by
  obtain ⟨c, name, hname⟩ : ∃ c name, p.name = c :: name := by
    cases hname : p.name with
    | nil =>
      rw [IsFor, hname] at hfor
      nomatch hfor
    | cons c name => exact ⟨c, name, rfl⟩
  have hletter {d : Char} (hd : d ∈ c :: name) : isSpace d = false ∧ d ≠ ':' ∧ d ≠ '[' :=
    letter_of_isFor h hfor (hname ▸ hd)
  have htext : p.text = c :: (name ++ '=' :: (p.value ++ p.trail)) := by
    rw [text, hlead, hname]
    rfl
  -- trimming leaves the name and the equals sign
  obtain ⟨rest, htrim⟩ : ∃ rest, trimSpace p.text = (c :: name) ++ '=' :: rest := by
    have hsep : isSpace '=' = false := by decide
    rw [trimSpace, htext, List.dropWhile_cons_of_neg (by simp [(hletter List.mem_cons_self).1])]
    exact ⟨_, rdropWhile_append_cons hsep (c :: name) (p.value ++ p.trail)⟩
  rw [htrim, withoutPort, if_pos (by simp)]
  cases hsplit : splitHostPort ((c :: name) ++ '=' :: rest) with
  | error _ => simp
  | ok hostport =>
    obtain ⟨host, port⟩ := hostport
    have hhead : ((c :: name) ++ '=' :: rest).head? ≠ some '[' := fun hcon =>
      (hletter List.mem_cons_self).2.2 (Option.some.inj hcon)
    have heq := eq_append_of_splitHostPort hhead hsplit
    -- the colon stands behind the name, so the equals sign stands before it
    rcases List.append_eq_append_iff.mp heq with ⟨more, rfl, hmore⟩ | ⟨more, hmore, hcolon⟩
    · cases more with
      | nil => exact absurd (List.cons.inj hmore).1 (by decide)
      | cons d more =>
        obtain rfl := (List.cons.inj hmore).1
        exact List.mem_append_right _ List.mem_cons_self
    · cases more with
      | nil => exact absurd (List.cons.inj hcolon).1 (by decide)
      | cons d more =>
        obtain rfl := (List.cons.inj hcolon).1
        have hmem : ':' ∈ c :: name := by
          rw [hmore]
          exact List.mem_append_right _ List.mem_cons_self
        exact absurd rfl (hletter hmem).2.1

end Param

/-! ## Which parameter is taken -/

theorem splitOn_forwardedText {params : List Param} (hne : params ≠ [])
    (hformed : ∀ p ∈ params, p.WellFormed) :
    (forwardedText params).splitOn ';' = params.map Param.text := by
  refine List.splitOn_intercalate ';' ?_ (by simpa using hne)
  intro l hl hmem
  obtain ⟨p, hp, rfl⟩ := List.mem_map.mp hl
  have h := hformed p hp
  rw [Param.text] at hmem
  simp only [List.mem_append, List.mem_cons] at hmem
  rcases hmem with (hmem | hmem) | hmem | hmem | hmem
  · exact absurd (blank_cases (h.lead ';' hmem)) (by decide)
  · exact (h.name ';' hmem).2.2.2 rfl
  · exact absurd hmem (by decide)
  · exact h.value hmem
  · exact absurd (blank_cases (h.trail ';' hmem)) (by decide)

/-- The loop stops at the first parameter that is recognised. -/
theorem forPart_texts {params : List Param} (hformed : ∀ p ∈ params, p.WellFormed) :
    forPart unicode (params.map Param.text) =
      (params.find? (fun p => p.Recognised)).map fun p =>
        trimSpace (if forKey.isPrefixOf p.text then p.text.drop forKey.length else p.text) := by
  induction params with
  | nil => rfl
  | cons p params ih =>
    have hp := Param.isPrefixOf_lower unicode (hformed p List.mem_cons_self)
    rw [List.map_cons, forPart]
    by_cases hrec : p.Recognised
    · rw [if_pos (hp.mpr hrec), List.find?_cons_of_pos (by simpa using hrec), Option.map_some]
    · rw [if_neg (mt hp.mp hrec), List.find?_cons_of_neg (by simpa using hrec)]
      exact ih fun q hq => hformed q (List.mem_cons_of_mem p hq)

/-- **What the result is**, for a host without an equals sign. -/
theorem clientIP_eq_iff {r : Request} {params : List Param} (hxff : r.header "X-Forwarded-For" = [])
    (hxri : r.header "X-Real-IP" = []) (hforwarded : r.header "Forwarded" = forwardedText params)
    (hne : params ≠ []) (hformed : ∀ p ∈ params, p.WellFormed) (hhost : '=' ∉ host) :
    getClientIP unicode r = host ↔ HostTaken params r.remoteAddr host := by
  have hsplit := splitOn_forwardedText hne hformed
  have hnonempty : forwardedText params ≠ [] := by
    obtain ⟨p, ps, rfl⟩ := List.exists_cons_of_ne_nil hne
    intro hnil
    rw [hnil, List.splitOn_nil, List.map_cons] at hsplit
    have hsep : '=' ∈ p.text := List.mem_append_right _ List.mem_cons_self
    rw [← (List.cons.inj hsplit).1] at hsep
    nomatch hsep
  rw [getClientIP, clientIP, if_neg (by simpa using hxff), if_neg (by simpa using hxri), hforwarded,
    if_pos hnonempty, hsplit, forPart_texts hformed, HostTaken]
  cases htaken : params.find? (fun p => p.Recognised) with
  | none => rfl
  | some p =>
    have hrec : p.Recognised := by simpa using List.find?_some htaken
    have hp : p.WellFormed := hformed p (List.mem_of_find?_eq_some htaken)
    rw [Option.map_some, Option.getD_some]
    show _ ↔ p.name = "for".toList ∧ withoutPort (trimSpace p.value) = host
    by_cases hname : p.name = "for".toList
    · rcases p.trimmed_for hp hrec.1 hname with ⟨hpre, htrim⟩
      rw [if_pos hpre, htrim, and_iff_right hname]
    · -- the name is still there
      rw [if_neg (by rw [p.isPrefixOf_text hp hrec.1 hname]; exact Bool.false_ne_true)]
      refine iff_of_false (fun h => hhost ?_) (fun h => hname h.1)
      rw [← h]
      exact p.sep_mem_withoutPort hp hrec.1 hrec.2

/-- **The result is the host of the first `for` parameter** exactly when that is spelled `for` and
has no blanks in front of it, or has some and what is taken in its place has the same host. -/
theorem clientIP_eq_host_iff (unicode : Unicode) (r : Request) (before after : List Param)
    (first : Param) (host : Text) (hxff : r.header "X-Forwarded-For" = [])
    (hxri : r.header "X-Real-IP" = [])
    (hforwarded : r.header "Forwarded" = forwardedText (before ++ first :: after))
    (hformed : ∀ p ∈ before ++ first :: after, p.WellFormed)
    (hbefore : ∀ p ∈ before, ¬ p.IsFor) (hfirst : first.IsFor) (hnode : IsNode host first.value) :
    getClientIP unicode r = host ↔
      (first.lead = [] ∧ first.name = "for".toList) ∨
        (first.lead ≠ [] ∧ HostTaken after r.remoteAddr host) := by
  have hhost : '=' ∉ host := fun hmem => (hnode.1 '=' hmem).1 (by decide)
  rw [clientIP_eq_iff hxff hxri hforwarded (by simp) hformed hhost]
  have hfind : (before ++ first :: after).find? (fun p => p.Recognised) =
      if first.lead = [] then some first else after.find? (fun p => p.Recognised) := by
    have hnone : before.find? (fun p => p.Recognised) = none := by
      rw [List.find?_eq_none]
      intro p hp
      rw [decide_eq_true_eq]
      exact fun hrec => hbefore p hp hrec.2
    rw [List.find?_append, hnone, Option.none_or, List.find?_cons]
    by_cases hlead : first.lead = []
    · rw [if_pos hlead, decide_eq_true (show first.Recognised from ⟨hlead, hfirst⟩)]
    · rw [if_neg hlead, decide_eq_false (fun hrec : first.Recognised => hlead hrec.1)]
  rw [HostTaken, hfind]
  by_cases hlead : first.lead = []
  · rw [if_pos hlead, or_iff_left (fun h => h.1 hlead), and_iff_right hlead]
    exact and_iff_left (withoutPort_node hnode)
  · rw [if_neg hlead, or_iff_right (fun h => hlead h.1), and_iff_right hlead]
    rfl

/-! ## Headers that are read, and headers that are not -/

/-- A request from `10.0.0.9:4711` with a Forwarded header. -/
def forwardedFrom (params : List Param) : Request where
  header name := if name = "Forwarded" then forwardedText params else []
  remoteAddr := "10.0.0.9:4711".toList

def param (lead name value : String) : Param := ⟨lead.toList, name.toList, value.toList, []⟩

theorem isNode_plain {host : Text} (h : host.all (fun c => Plain c) = true) : IsNode host host :=
  ⟨by simpa only [List.all_eq_true, decide_eq_true_eq] using h, Or.inl rfl⟩

/-- `for=1.2.3.4; proto=http` -/
theorem clientIP_eq_host_iff_first : getClientIP Unicode.basic
    (forwardedFrom [param "" "for" "1.2.3.4", param " " "proto" "http"]) = "1.2.3.4".toList := by
  have hformed : ∀ p ∈ [param "" "for" "1.2.3.4", param " " "proto" "http"], p.WellFormed := by
    intro p hp
    simp only [List.mem_cons, List.not_mem_nil, or_false] at hp
    rcases hp with rfl | rfl <;> decide +kernel
  exact (clientIP_eq_host_iff Unicode.basic
    (forwardedFrom [param "" "for" "1.2.3.4", param " " "proto" "http"]) []
    [param " " "proto" "http"] (param "" "for" "1.2.3.4") "1.2.3.4".toList rfl rfl rfl hformed
    (fun _ h => nomatch h) (by decide) (isNode_plain (by decide +kernel))).mpr
    (Or.inl ⟨rfl, rfl⟩)

/-- `For=1.2.3.4` keeps its name, and with `proto=http; for=1.2.3.4` the peer is taken. -/
theorem clientIP_missed :
    ((param "" "For" "1.2.3.4").WellFormed ∧ (param "" "For" "1.2.3.4").IsFor ∧
      IsNode "1.2.3.4".toList (param "" "For" "1.2.3.4").value ∧
      getClientIP Unicode.basic (forwardedFrom [param "" "For" "1.2.3.4"]) =
        "For=1.2.3.4".toList) ∧
    ((param "" "proto" "http").WellFormed ∧ (param " " "for" "1.2.3.4").WellFormed ∧
      getClientIP Unicode.basic
        (forwardedFrom [param "" "proto" "http", param " " "for" "1.2.3.4"]) =
          "10.0.0.9".toList) :=
  ⟨⟨by decide +kernel, by decide, isNode_plain (by decide +kernel), by decide +kernel⟩,
    by decide +kernel, by decide +kernel, by decide +kernel⟩

end Accumulation.Nnet
