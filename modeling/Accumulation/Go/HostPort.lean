/-
# Accumulation.Go.HostPort — `SplitHostPort` of Go's package net.

A port stands behind the last colon, and a host with colons of its own stands in brackets.  Without
brackets and other colons, what stands before the colon is the host (`splitHostPort_plain`).
-/
import Accumulation.Go.Text

namespace Accumulation.Go

/-- Where the last colon is. -/
def lastColon (s : Text) : Option ℕ :=
  if ':' ∈ s then some (s.length - 1 - (s.reverse.takeWhile (· ≠ ':')).length) else none

/-- `SplitHostPort`, with the reason of its error. -/
def splitHostPort (hostport : Text) : Except String (Text × Text) :=
  match lastColon hostport with
  | none => .error "missing port in address"
  | some i =>
    if hostport.head? = some '[' then
      -- the first closing bracket has to stand just before the last colon
      match hostport.idxOf? ']' with
      | none => .error "missing ']' in address"
      | some close =>
        if close + 1 = i then
          if '[' ∈ hostport.drop 1 then .error "unexpected '[' in address"
          else if ']' ∈ hostport.drop (close + 1) then .error "unexpected ']' in address"
          else .ok ((hostport.take close).drop 1, hostport.drop (i + 1))
        else if hostport[close + 1]? = some ':' then .error "too many colons in address"
        else .error "missing port in address"
    else if ':' ∈ hostport.take i then .error "too many colons in address"
    else if '[' ∈ hostport then .error "unexpected '[' in address"
    else if ']' ∈ hostport then .error "unexpected ']' in address"
    else .ok (hostport.take i, hostport.drop (i + 1))

variable {host port : Text}

theorem lastColon_append (hport : ':' ∉ port) :
    lastColon (host ++ ':' :: port) = some host.length := by
  have hall : ∀ c ∈ port.reverse, decide (c ≠ ':') = true := by
    intro c hc
    rw [decide_eq_true_eq]
    rintro rfl
    exact hport (List.mem_reverse.mp hc)
  have hbehind : ((host ++ ':' :: port).reverse.takeWhile (· ≠ ':')).length = port.length := by
    rw [List.reverse_append, List.reverse_cons, List.append_assoc, List.singleton_append,
      List.takeWhile_append_of_pos hall]
    simp
  rw [lastColon, if_pos (by simp), hbehind]
  simp only [List.length_append, List.length_cons, Option.some.injEq]
  omega

/-- **A plain host and port** come apart. -/
theorem splitHostPort_plain (hhost : ∀ c ∈ host, c ∉ [':', '[', ']'])
    (hport : ∀ c ∈ port, c ∉ [':', '[', ']']) :
    splitHostPort (host ++ ':' :: port) = .ok (host, port) := by
  have hnone {c : Char} (hc : c ∈ [':', '[', ']']) (hne : c ≠ ':') : c ∉ host ++ ':' :: port := by
    intro hmem
    rcases List.mem_append.mp hmem with h | h
    · exact hhost c h hc
    · rcases List.mem_cons.mp h with h | h
      · exact hne h
      · exact hport c h hc
  have hopen := hnone (c := '[') (by decide) (by decide)
  have hclose := hnone (c := ']') (by decide) (by decide)
  have hhead : (host ++ ':' :: port).head? ≠ some '[' := fun h => hopen (List.mem_of_head? h)
  rw [splitHostPort, lastColon_append fun h => hport ':' h (by decide)]
  show (if _ then _ else _) = _
  rw [if_neg hhead, List.take_left', if_neg fun h => hhost ':' h (by decide), if_neg hopen,
    if_neg hclose, List.drop_append]
  · simp
  · rfl

/-- A host with a colon of its own, and without brackets. -/
theorem splitHostPort_colon (hhead : host.head? ≠ some '[') (hhost : ':' ∈ host)
    (hport : ':' ∉ port) :
    splitHostPort (host ++ ':' :: port) = .error "too many colons in address" := by
  have hhead' : (host ++ ':' :: port).head? ≠ some '[' := by
    cases host with
    | nil => cases hhost
    | cons c host => exact hhead
  rw [splitHostPort, lastColon_append hport]
  show (if _ then _ else _) = _
  rw [if_neg hhead', List.take_left', if_pos hhost]
  rfl

/-- Without a colon there is no port. -/
theorem splitHostPort_of_notMem {s : Text} (h : ':' ∉ s) :
    splitHostPort s = .error "missing port in address" := by
  rw [splitHostPort, lastColon, if_neg h]

/-- **Without brackets**, what comes apart was joined by a colon. -/
theorem eq_append_of_splitHostPort {s : Text} (hhead : s.head? ≠ some '[')
    (h : splitHostPort s = .ok (host, port)) : s = host ++ ':' :: port := by
  by_cases hcolon : ':' ∈ s
  · obtain ⟨behind, before, hsplit, hbehind⟩ :=
      List.eq_append_cons_of_mem (List.mem_reverse.mpr hcolon)
    have hs : s = before.reverse ++ ':' :: behind.reverse := by
      rw [← List.reverse_reverse s, hsplit]
      simp
    have hlast : lastColon s = some before.reverse.length := by
      rw [hs]
      exact lastColon_append fun hmem => hbehind (List.mem_reverse.mp hmem)
    rw [splitHostPort, hlast] at h
    simp only [if_neg hhead] at h
    split_ifs at h
    obtain ⟨rfl, rfl⟩ := Prod.mk.inj (Except.ok.inj h)
    rw [hs, List.take_left', List.drop_append]
    · simp
    · rfl
  · rw [splitHostPort_of_notMem hcolon] at h
    nomatch h

end Accumulation.Go
