/-
# Accumulation.Kimi.StreamRuns — a stream between the goroutine that reads it and its consumer.

`ScanValues` makes two channels and starts `readStream` in a goroutine.  The channel of the chunks
has no room, so a chunk is sent when the consumer receives it; the channel of the errors has room for
one.  The consumer ranges over the chunks, in a loop of its own, in `CollectMessage` or in `Close`,
and it asks for the error with `Err` whenever it likes.

Whoever takes the next step is free.  The consumer receives the chunks in order and each of them
once, and the error is there when its loop is over (`stream_safe`).  A loop always comes to its end,
and then the body is closed (`range_ends`).  A consumer that leaves its loop before leaves the body
open (`abandoned_iff`).
-/
import Accumulation.Kimi.CollectText
import Accumulation.Kimi.EventStream
import Accumulation.Lib.Run

namespace Accumulation.Kimi

open Accumulation.Lib Accumulation.Go Accumulation.Lib.Run

variable {E : Type}

/-! ## The stream -/

/-- A stream, with the goroutine behind it and what the consumer has got. -/
structure Stream (E : Type) where
  /-- what the goroutine still does -/
  todo : List (Action E)
  chClosed : Bool
  errorChan : Option (StreamError E)
  errClosed : Bool
  bodyClosed : Bool
  /-- the goroutine has sent on a closed channel, or closed one twice -/
  panicked : Bool
  received : List Chunk
  /-- the consumer has found the channel of the chunks closed -/
  ended : Bool
  /-- the errors that `Err` has returned -/
  reported : List (StreamError E)
  deriving DecidableEq, Repr

namespace Stream

def start (todo : List (Action E)) : Stream E := ⟨todo, false, none, false, false, false, [], false, []⟩

def panic (s : Stream E) : Stream E := { s with todo := [], panicked := true }

/-- One step of `readStream`.  To send a chunk it needs a receiver. -/
def read (s : Stream E) : Option (Stream E) :=
  match s.todo with
  | [] => none
  | .send _ :: _ => if s.chClosed then some s.panic else none
  | .sendErr err :: todo =>
    if s.errClosed then some s.panic
    else match s.errorChan with
      | none => some { s with todo := todo, errorChan := some err }
      | some _ => none
  | .closeCh :: todo =>
    if s.chClosed then some s.panic else some { s with todo := todo, chClosed := true }
  | .closeErr :: todo =>
    if s.errClosed then some s.panic else some { s with todo := todo, errClosed := true }
  | .closeBody :: todo => some { s with todo := todo, bodyClosed := true }

/-- `<-s.C`, once -/
def recv (s : Stream E) : Option (Stream E) :=
  if s.chClosed then some { s with ended := true }
  else match s.todo with
    | .send chunk :: todo => some { s with todo := todo, received := s.received ++ [chunk] }
    | _ => none

/-- `Err`: what it returns, and what it leaves. -/
def err (s : Stream E) : Option (StreamError E) × Stream E :=
  (s.errorChan,
    { s with errorChan := none, reported := s.reported ++ s.errorChan.toList })

inductive Step
  | read
  | recv
  | err
  deriving DecidableEq, Repr

def step (s : Stream E) : Step → Option (Stream E)
  | .read => s.read
  | .recv => s.recv
  | .err => some s.err.2

/-- What is left to a consumer in its loop: it receives until the channel is closed. -/
def Ranging (s : Stream E) : Step → Prop
  | .read => True
  | .recv => s.ended = false
  | .err => False

end Stream

/-- The chunks that are sent. -/
def sends : List (Action E) → List Chunk
  | [] => []
  | .send chunk :: todo => chunk :: sends todo
  | _ :: todo => sends todo

/-- The errors that are sent. -/
def sentErrors : List (Action E) → List (StreamError E)
  | [] => []
  | .sendErr err :: todo => err :: sentErrors todo
  | _ :: todo => sentErrors todo

/-! ## The plan of the goroutine -/

/-- Send these chunks, send the error if there is one, and close everything. -/
def plan (chunks : List Chunk) (err : Option (StreamError E)) : List (Action E) :=
  chunks.map .send ++ (err.toList.map .sendErr ++ closing)

@[simp]
theorem plan_cons (chunk : Chunk) (chunks : List Chunk) (err : Option (StreamError E)) :
    plan (chunk :: chunks) err = .send chunk :: plan chunks err := rfl

theorem plan_nil_none : plan [] (none : Option (StreamError E)) = closing := rfl

theorem plan_nil_some (err : StreamError E) : plan [] (some err) = .sendErr err :: closing := rfl

@[simp]
theorem sends_plan (chunks : List Chunk) (err : Option (StreamError E)) :
    sends (plan chunks err) = chunks := by
  induction chunks with
  | nil => cases err <;> rfl
  | cons chunk chunks ih => rw [plan_cons, sends, ih]

@[simp]
theorem sentErrors_plan (chunks : List Chunk) (err : Option (StreamError E)) :
    sentErrors (plan chunks err) = err.toList := by
  induction chunks with
  | nil => cases err <;> rfl
  | cons chunk chunks ih => simpa [sentErrors] using ih

theorem sends_append_closing (todo : List (Action E)) : sends (todo ++ closing) = sends todo := by
  induction todo with
  | nil => rfl
  | cons action todo ih => cases action <;> simp [sends, ih]

/-- The loop over the lines ends with at most one error. -/
theorem readLines_eq_plan (unmarshal : Bytes → Except E Chunk) (tooLong : Bool)
    (lines : List Bytes) :
    ∃ chunks err, readLines unmarshal tooLong lines ++ closing = plan chunks err := by
  induction lines with
  | nil =>
    cases tooLong with
    | false => exact ⟨[], none, rfl⟩
    | true => exact ⟨[], some .tooLong, rfl⟩
  | cons line lines ih =>
    rcases hevent : event line with payload | _ | _
    · rcases hchunk : unmarshal payload with err | chunk
      · exact ⟨[], some (.unmarshal err), by simp [readLines, hevent, hchunk, plan]⟩
      · by_cases hstop : chunk.getFinishReason = finishReasonStop
        · exact ⟨[chunk], none, by simp [readLines, hevent, hchunk, hstop, plan]⟩
        · obtain ⟨chunks, err, hplan⟩ := ih
          refine ⟨chunk :: chunks, err, ?_⟩
          simp [readLines, hevent, hchunk, hstop, hplan]
    · exact ⟨[], none, by simp [readLines, hevent, plan]⟩
    · simpa [readLines, hevent] using ih

theorem readStream_eq_plan (unmarshal : Bytes → Except E Chunk) (body : Bytes) :
    ∃ chunks err, readStream unmarshal body = plan chunks err :=
  readLines_eq_plan unmarshal _ _

/-! ## The invariant -/

namespace Stream

variable {chunks : List Chunk} {err : Option (StreamError E)} {s t : Stream E}

/-- How far the goroutine is, and what is known then. -/
inductive Phase (chunks : List Chunk) (err : Option (StreamError E)) (s : Stream E) : Prop
  | sending (rest : List Chunk) (htodo : s.todo = plan rest err) (hrest : s.received ++ rest = chunks)
      (hch : s.chClosed = false) (herr : s.errClosed = false) (hbody : s.bodyClosed = false)
      (hchan : s.errorChan = none) (hreported : s.reported = [])
  | closing (k : ℕ) (hk : k ≤ 3) (htodo : s.todo = closing.drop k) (hreceived : s.received = chunks)
      (hch : s.chClosed = decide (1 ≤ k)) (herr : s.errClosed = decide (2 ≤ k))
      (hbody : s.bodyClosed = decide (3 ≤ k))
      (hreported : s.reported ++ s.errorChan.toList = err.toList)

structure Inv (chunks : List Chunk) (err : Option (StreamError E)) (s : Stream E) : Prop where
  phase : s.Phase chunks err
  panicked : s.panicked = false
  ended : s.ended = true → s.chClosed = true

theorem start_inv (chunks : List Chunk) (err : Option (StreamError E)) :
    (start (plan chunks err)).Inv chunks err := by
  refine ⟨.sending chunks rfl rfl rfl rfl rfl rfl rfl, rfl, ?_⟩
  intro hended
  cases hended

/-- **One step of the goroutine** closes something, or sends the error. -/
theorem Phase.read (h : s.Phase chunks err) (hstep : s.read = some t) :
    t.Phase chunks err ∧ t.panicked = s.panicked ∧ t.ended = s.ended ∧
      (s.chClosed = true → t.chClosed = true) ∧ t.todo.length < s.todo.length := by
  rcases h with ⟨rest, htodo, hrest, hch, herr, hbody, hchan, hreported⟩ |
    ⟨k, hk, htodo, hreceived, hch, herr, hbody, hreported⟩
  · rcases rest with _ | ⟨chunk, rest⟩
    · rw [List.append_nil] at hrest
      rcases err with _ | e
      · simp only [Stream.read, htodo, plan_nil_none, Kimi.closing, hch] at hstep
        obtain rfl := Option.some.inj hstep
        refine ⟨.closing 1 (by omega) rfl hrest rfl herr hbody ?_, rfl, rfl, fun _ => rfl, ?_⟩
        · simp [hreported, hchan]
        · simp [htodo, plan_nil_none, Kimi.closing]
      · simp only [Stream.read, htodo, plan_nil_some, herr, hchan] at hstep
        obtain rfl := Option.some.inj hstep
        refine ⟨.closing 0 (by omega) rfl hrest hch rfl hbody ?_, rfl, rfl, id, ?_⟩
        · simp [hreported]
        · simp [htodo, plan_nil_some]
    · simp [Stream.read, htodo, hch] at hstep
  · rcases k with _ | _ | _ | _ | k
    · simp only [Stream.read, htodo, Kimi.closing, List.drop_zero, hch] at hstep
      obtain rfl := Option.some.inj hstep
      exact ⟨.closing 1 (by omega) rfl hreceived rfl herr hbody hreported, rfl, rfl, fun _ => rfl,
        by simp [htodo, Kimi.closing]⟩
    · simp only [Stream.read, htodo, Kimi.closing, List.drop_succ_cons, List.drop_zero, herr] at hstep
      obtain rfl := Option.some.inj hstep
      exact ⟨.closing 2 (by omega) rfl hreceived hch rfl hbody hreported, rfl, rfl, id,
        by simp [htodo, Kimi.closing]⟩
    · simp only [Stream.read, htodo, Kimi.closing, List.drop_succ_cons, List.drop_zero] at hstep
      obtain rfl := Option.some.inj hstep
      exact ⟨.closing 3 (by omega) rfl hreceived hch herr rfl hreported, rfl, rfl, id,
        by simp [htodo, Kimi.closing]⟩
    · simp [Stream.read, htodo, Kimi.closing] at hstep
    · omega

/-- A chunk is received while the channel is open. -/
theorem recv_cases (hstep : s.recv = some t) :
    (s.chClosed = true ∧ t = { s with ended := true }) ∨
      (s.chClosed = false ∧ ∃ chunk todo, s.todo = .send chunk :: todo ∧
        t = { s with todo := todo, received := s.received ++ [chunk] }) := by
  unfold recv at hstep
  split at hstep
  · rename_i hch
    obtain rfl := Option.some.inj hstep
    exact Or.inl ⟨hch, rfl⟩
  · rename_i hch
    split at hstep
    · rename_i chunk todo htodo
      obtain rfl := Option.some.inj hstep
      exact Or.inr ⟨by simpa using hch, chunk, todo, htodo, rfl⟩
    · cases hstep

/-- **Every step keeps the invariant.** -/
theorem step_inv (a : Step) (h : s.Inv chunks err) (hstep : s.step a = some t) :
    t.Inv chunks err := by
  cases a with
  | read =>
    obtain ⟨hphase, hpanicked, hended, hch, -⟩ := h.phase.read hstep
    refine ⟨hphase, hpanicked.trans h.panicked, fun hend => hch (h.ended ?_)⟩
    rw [← hended, hend]
  | recv =>
    rcases recv_cases hstep with ⟨hch, rfl⟩ | ⟨hch, chunk, todo, htodo, rfl⟩
    · refine ⟨?_, h.panicked, fun _ => hch⟩
      rcases h.phase with ⟨rest, htodo, hrest, hch, herr, hbody, hchan, hreported⟩ |
        ⟨k, hk, htodo, hreceived, hch, herr, hbody, hreported⟩
      · exact .sending rest htodo hrest hch herr hbody hchan hreported
      · exact .closing k hk htodo hreceived hch herr hbody hreported
    · refine ⟨?_, h.panicked, h.ended⟩
      rcases h.phase with ⟨rest, hplan, hrest, hch, herr, hbody, hchan, hreported⟩ |
        ⟨k, hk, hclosing, -, -, -, -, -⟩
      · rcases rest with _ | ⟨c, rest⟩
        · rcases err with _ | e <;> simp [hplan, plan, Kimi.closing] at htodo
        · rw [hplan, plan_cons, List.cons.injEq, Action.send.injEq] at htodo
          obtain ⟨rfl, rfl⟩ := htodo
          exact .sending rest rfl (by simpa using hrest) hch herr hbody hchan hreported
      · -- nothing is sent any more
        rw [hclosing] at htodo
        rcases k with _ | _ | _ | _ | k <;> simp [Kimi.closing] at htodo
  | err =>
    obtain rfl := Option.some.inj hstep
    refine ⟨?_, h.panicked, h.ended⟩
    rcases h.phase with ⟨rest, htodo, hrest, hch, herr, hbody, hchan, hreported⟩ |
      ⟨k, hk, htodo, hreceived, hch, herr, hbody, hreported⟩
    · exact .sending rest htodo hrest hch herr hbody rfl (by simp [Stream.err, hreported, hchan])
    · exact .closing k hk htodo hreceived hch herr hbody (by simpa [Stream.err] using hreported)

theorem run_inv {run : List Step} (hrun : exec step (start (plan chunks err)) run = some s) :
    s.Inv chunks err :=
  (always_of_step (fun _ a _ => step_inv a) run (start_inv chunks err)).last hrun

/-! ## What the consumer has got -/

theorem Inv.received (h : s.Inv chunks err) : s.received ++ sends s.todo = chunks := by
  rcases h.phase with ⟨rest, htodo, hrest, -⟩ | ⟨k, hk, htodo, hreceived, -⟩
  · rw [htodo, sends_plan, hrest]
  · rcases k with _ | _ | _ | _ | k <;> simp [htodo, Kimi.closing, sends, hreceived]

theorem Inv.reported (h : s.Inv chunks err) :
    s.reported ++ s.errorChan.toList ++ sentErrors s.todo = err.toList := by
  rcases h.phase with ⟨rest, htodo, -, -, -, -, hchan, hreported⟩ |
    ⟨k, hk, htodo, -, -, -, -, hreported⟩
  · rw [htodo, sentErrors_plan, hchan, hreported]
    rfl
  · rw [hreported]
    rcases k with _ | _ | _ | _ | k <;> simp [htodo, Kimi.closing, sentErrors]

/-- Once the channel is closed, everything has been sent. -/
theorem Inv.of_chClosed (h : s.Inv chunks err) (hch : s.chClosed = true) :
    s.received = chunks ∧ s.reported ++ s.errorChan.toList = err.toList := by
  rcases h.phase with ⟨-, -, -, hopen, -⟩ | ⟨k, -, -, hreceived, -, -, -, hreported⟩
  · rw [hopen] at hch
    cases hch
  · exact ⟨hreceived, hreported⟩

/-- No error comes before the last chunk. -/
theorem Inv.received_of_error (h : s.Inv chunks err) (herr : s.reported ++ s.errorChan.toList ≠ []) :
    s.received = chunks := by
  rcases h.phase with ⟨rest, -, -, -, -, -, hchan, hreported⟩ | ⟨k, -, -, hreceived, -⟩
  · rw [hchan, hreported] at herr
    exact absurd rfl herr
  · exact hreceived

/-! ## Loops that come to their end -/

/-- What is left to do for the goroutine and a consumer in its loop. -/
def left (s : Stream E) : ℕ := s.todo.length + if s.ended then 0 else 1

theorem left_lt {a : Step} (h : s.Inv chunks err) (hC : s.Ranging a) (hstep : s.step a = some t) :
    t.Inv chunks err ∧ t.left < s.left := by
  refine ⟨step_inv a h hstep, ?_⟩
  cases a with
  | read =>
    obtain ⟨-, -, hended, -, hlt⟩ := h.phase.read hstep
    rw [left, left, hended]
    omega
  | recv =>
    rcases recv_cases hstep with ⟨hch, rfl⟩ | ⟨hch, chunk, todo, htodo, rfl⟩
    · rw [left, left, if_pos rfl, show s.ended = false from hC]
      simp
    · show todo.length + _ < s.todo.length + _
      rw [htodo, List.length_cons]
      exact Nat.add_lt_add_right (Nat.lt_succ_self _) _
  | err => exact absurd hC id

/-- Where the goroutine cannot go on, it waits for a receiver or is done. -/
theorem Inv.of_read_none (h : s.Inv chunks err) (hread : s.read = none) :
    (s.chClosed = false ∧ ∃ chunk todo, s.todo = .send chunk :: todo) ∨
      (s.chClosed = true ∧ s.bodyClosed = true ∧ s.todo = []) := by
  rcases h.phase with ⟨rest, htodo, -, hch, herr, -, hchan, -⟩ | ⟨k, hk, htodo, -, hch, herr, hbody, -⟩
  · rcases rest with _ | ⟨chunk, rest⟩
    · rcases err with _ | e
      · simp [Stream.read, htodo, plan_nil_none, Kimi.closing, hch] at hread
      · simp [Stream.read, htodo, plan_nil_some, herr, hchan] at hread
    · exact Or.inl ⟨hch, chunk, plan rest err, htodo⟩
  · rcases k with _ | _ | _ | _ | k
    · simp [Stream.read, htodo, Kimi.closing, hch] at hread
    · simp [Stream.read, htodo, Kimi.closing, herr] at hread
    · simp [Stream.read, htodo, Kimi.closing] at hread
    · exact Or.inr ⟨hch, hbody, htodo⟩
    · omega

/-- Where nothing is left to do, the loop is over and the body closed. -/
theorem Inv.of_stuck (h : s.Inv chunks err) (hstuck : Stuck step Ranging s) :
    s.ended = true ∧ s.bodyClosed = true ∧ s.todo = [] := by
  have hrecv : s.ended = false → s.recv = none := hstuck .recv
  rcases h.of_read_none (hstuck .read trivial) with ⟨hch, chunk, todo, htodo⟩ | ⟨hch, hbody, htodo⟩
  · have hended : s.ended = false := by
      by_contra hend
      have hclosed := h.ended (by simpa using hend)
      rw [hch] at hclosed
      cases hclosed
    simp [recv, hch, htodo] at hrecv
    rw [hended] at hrecv
    cases hrecv
  · refine ⟨?_, hbody, htodo⟩
    by_contra hend
    simp [recv, hch] at hrecv
    exact hend hrecv

/-! ## A consumer that has gone -/

/-- Without a receiver nothing is received. -/
theorem step_received {a : Step} (ha : a ≠ .recv) (h : s.Inv chunks err) (hstep : s.step a = some t) :
    t.received = s.received := by
  cases a with
  | read =>
    have hnot : t.panicked = false := (step_inv .read h hstep).panicked
    unfold step Stream.read at hstep
    grind [panic]
  | recv => exact absurd rfl ha
  | err =>
    obtain rfl := Option.some.inj hstep
    rfl

theorem Inv.received_of_bodyClosed (h : s.Inv chunks err) (hbody : s.bodyClosed = true) :
    s.received = chunks := by
  rcases h.phase with ⟨-, -, -, -, -, hopen, -⟩ | ⟨k, -, -, hreceived, -⟩
  · rw [hopen] at hbody
    cases hbody
  · exact hreceived

/-- The goroutine alone gets to its end if nothing is to be sent any more. -/
theorem Inv.exists_closed (h : s.Inv chunks err) (hreceived : s.received = chunks) :
    ∃ more t, (∀ a ∈ more, a ≠ .recv) ∧ exec step s more = some t ∧ t.bodyClosed = true := by
  have hlower : ∀ (u : Stream E) (a : Step) v, u.Inv chunks err ∧ u.received = chunks → a = .read →
      u.step a = some v → (v.Inv chunks err ∧ v.received = chunks) ∧
        v.todo.length < u.todo.length := by
    rintro u a v ⟨hu, hall⟩ rfl hstep
    refine ⟨⟨step_inv .read hu hstep, ?_⟩, (hu.phase.read hstep).2.2.2.2⟩
    rw [step_received Step.noConfusion hu hstep, hall]
  obtain ⟨more, t, hrun, halong, hstuck⟩ :=
    exists_stuck (I := fun u : Stream E => u.Inv chunks err ∧ u.received = chunks) hlower ⟨h, hreceived⟩
  have ht := (always_of_along (I := fun u : Stream E => u.Inv chunks err ∧ u.received = chunks)
    (fun u a v hu hC hstep => (hlower u a v hu hC hstep).1) ⟨h, hreceived⟩ halong).last hrun
  have hreads := halong.forall_mem hrun
  refine ⟨more, t, fun a ha => ?_, hrun, ?_⟩
  · rw [hreads a ha]
    exact Step.noConfusion
  · rcases ht.1.of_read_none (hstuck .read rfl) with ⟨-, chunk, todo, htodo⟩ | ⟨-, hbody, -⟩
    · have hsplit := ht.1.received
      rw [ht.2, htodo, sends] at hsplit
      simp at hsplit
    · exact hbody

end Stream

/-! ## What the consumer can rely on -/

section Consumer

variable (unmarshal : Bytes → Except E Chunk) (body : Bytes)

/-- What holds at any time. -/
structure Stream.Safe (s : Stream E) : Prop where
  panicked : s.panicked = false
  /-- the chunks received and those still to be sent are all chunks, in order -/
  split : s.received ++ sends s.todo = sends (readStream unmarshal body)
  /-- the error comes once, and not before the last chunk -/
  once : s.reported.length ≤ 1
  last : s.reported ≠ [] → s.received = sends (readStream unmarshal body)

/-- What holds when the loop is over: all chunks have been received, and the error has been reported
or is there for the next `Err`. -/
structure Stream.Received (s : Stream E) : Prop where
  chunks : s.received = sends (readStream unmarshal body)
  error : s.reported ++ s.err.1.toList = sentErrors (readStream unmarshal body)

variable {unmarshal} {body}

theorem exists_inv {run : List Stream.Step} {s : Stream E}
    (hrun : exec Stream.step (.start (readStream unmarshal body)) run = some s) :
    ∃ chunks err, readStream unmarshal body = plan chunks err ∧ s.Inv chunks err := by
  obtain ⟨chunks, err, hplan⟩ := readStream_eq_plan unmarshal body
  rw [hplan] at hrun
  exact ⟨chunks, err, hplan, Stream.run_inv hrun⟩

theorem Stream.Inv.toReceived {chunks : List Chunk} {err : Option (StreamError E)} {s : Stream E}
    (h : s.Inv chunks err) (hplan : readStream unmarshal body = plan chunks err)
    (hended : s.ended = true) : s.Received unmarshal body := by
  obtain ⟨hreceived, hreported⟩ := h.of_chClosed (h.ended hended)
  refine ⟨?_, ?_⟩
  · rw [hplan, sends_plan, hreceived]
  · rw [hplan, sentErrors_plan, ← hreported]
    rfl

end Consumer

/-! ## A greeting -/

/-- A chunk with a text, which stops. -/
def greeting : Bytes :=
  ascii ("data: \x7b\"choices\":[\x7b\"index\":0,\"delta\":\x7b\"content\":\"hello \"\x7d," ++
    "\"finish_reason\":\"stop\"\x7d]\x7d\n\ndata: [DONE]\n")

def greetingChunk : Chunk :=
  ⟨[⟨"0", some { Message.zero with content := some ⟨"hello ", none, none⟩ }, "stop"⟩]⟩

/-- Before the body is closed. -/
def greetingRead : Stream DtoError :=
  ⟨[.closeBody], true, none, true, false, false, [greetingChunk], true, []⟩

def greetingEnd : Stream DtoError := ⟨[], true, none, true, true, false, [greetingChunk], true, []⟩

theorem exec_greetingRead :
    exec Stream.step (.start (readStream Chunk.unmarshal greeting))
      [.err, .recv, .read, .recv, .read] = some greetingRead := by
  decide +kernel

theorem exec_greetingEnd :
    exec Stream.step (.start (readStream Chunk.unmarshal greeting))
      ([.err, .recv, .read, .recv, .read] ++ [.read]) = some greetingEnd := by
  rw [exec_append, exec_greetingRead]
  rfl

theorem greeting_textOnly :
    ∀ chunk ∈ sends (deliver Chunk.unmarshal (payloads ((lines greeting).map dropCR))),
      chunk.TextOnly := by
  have hone : sends (deliver Chunk.unmarshal (payloads ((lines greeting).map dropCR))) =
      [greetingChunk] := by decide +kernel
  rw [hone]
  intro chunk hchunk
  obtain rfl := List.mem_singleton.mp hchunk
  exact ⟨_, rfl, rfl⟩

/-! ## The results -/

section Results

variable (unmarshal : Bytes → Except E Chunk) (body : Bytes) (run : List Stream.Step) (s : Stream E)

/-- **In every run** of the goroutine and its consumer no channel is misused, and nothing is lost,
doubled or reordered. -/
theorem stream_safe (hrun : exec Stream.step (.start (readStream unmarshal body)) run = some s) :
    s.Safe unmarshal body ∧ (s.ended = true → s.Received unmarshal body) := by
  obtain ⟨chunks, err, hplan, hinv⟩ := exists_inv hrun
  refine ⟨⟨hinv.panicked, ?_, ?_, fun hne => ?_⟩, hinv.toReceived hplan⟩
  · rw [hplan, sends_plan, hinv.received]
  · have hlength := congrArg List.length hinv.reported
    have hone : err.toList.length ≤ 1 := by cases err <;> simp
    simp only [List.length_append] at hlength
    omega
  · rw [hplan, sends_plan]
    exact hinv.received_of_error (by simp [hne])

theorem stream_safe_greeting : greetingEnd.Safe Chunk.unmarshal greeting ∧
    (greetingEnd.ended = true → greetingEnd.Received Chunk.unmarshal greeting) :=
  stream_safe Chunk.unmarshal greeting _ greetingEnd exec_greetingEnd

/-- **A loop over the chunks comes to its end**, whoever takes the next step.  The goroutine and the
loop have only so many steps to take, and where they cannot take another one, everything has been
received and the body is closed. -/
theorem range_ends (hrun : exec Stream.step (.start (readStream unmarshal body)) run = some s)
    (more : List Stream.Step) (t : Stream E) (hranging : Along Stream.step Stream.Ranging s more)
    (hmore : exec Stream.step s more = some t) :
    more.length ≤ s.todo.length + 1 ∧
      (Stuck Stream.step Stream.Ranging t →
        t.ended = true ∧ t.bodyClosed = true ∧ t.Received unmarshal body) := by
  obtain ⟨chunks, err, hplan, hinv⟩ := exists_inv hrun
  constructor
  · have hlength := length_add_le (fun u a v hu => Stream.left_lt hu) hinv hranging hmore
    have hleft : s.left ≤ s.todo.length + 1 := by
      unfold Stream.left
      split <;> omega
    omega
  · intro hstuck
    have hinv' : t.Inv chunks err :=
      (always_of_step (fun _ a _ => Stream.step_inv a) more hinv).last hmore
    obtain ⟨hended, hbody, -⟩ := hinv'.of_stuck hstuck
    exact ⟨hended, hbody, hinv'.toReceived hplan hended⟩

theorem range_ends_greeting : [Stream.Step.read].length ≤ greetingRead.todo.length + 1 ∧
    (Stuck Stream.step Stream.Ranging greetingEnd → greetingEnd.ended = true ∧
      greetingEnd.bodyClosed = true ∧ greetingEnd.Received Chunk.unmarshal greeting) :=
  range_ends Chunk.unmarshal greeting [.err, .recv, .read, .recv, .read] greetingRead
    exec_greetingRead [.read] greetingEnd ⟨trivial, fun _ _ => trivial⟩ rfl

/-- **A consumer that stops receiving** lets the body be closed exactly when it has received all
chunks. -/
theorem abandoned_iff (hrun : exec Stream.step (.start (readStream unmarshal body)) run = some s) :
    (∃ more t, (∀ a ∈ more, a ≠ .recv) ∧ exec Stream.step s more = some t ∧ t.bodyClosed = true) ↔
      s.received = sends (readStream unmarshal body) := by
  obtain ⟨chunks, err, hplan, hinv⟩ := exists_inv hrun
  rw [hplan, sends_plan]
  constructor
  · rintro ⟨more, t, habandoned, hmore, hbody⟩
    have halong : Along Stream.step (fun _ a => a ≠ .recv) s more := along_of_forall habandoned s
    have hkept := (always_of_along (I := fun u : Stream E => u.Inv chunks err ∧ u.received = s.received)
      (fun u a v hu ha hstep => ⟨Stream.step_inv a hu.1 hstep,
        (Stream.step_received ha hu.1 hstep).trans hu.2⟩) ⟨hinv, rfl⟩ halong).last hmore
    rw [← hkept.2, hkept.1.received_of_bodyClosed hbody]
  · exact hinv.exists_closed

theorem abandoned_iff_greeting :
    (∃ more t, (∀ a ∈ more, a ≠ .recv) ∧ exec Stream.step greetingEnd more = some t ∧
      t.bodyClosed = true) ↔ greetingEnd.received = sends (readStream Chunk.unmarshal greeting) :=
  abandoned_iff Chunk.unmarshal greeting _ greetingEnd exec_greetingEnd

/-- **From the body to the message**: `CollectMessage` makes of a stream the trimmed texts of all data
lines before `[DONE]`, in every run in which it comes to its end, if no data line follows one that
stops the first choice. -/
theorem stream_collected (grow : ℕ → ℕ)
    (hfit : ∀ line ∈ lines body, line.length < maxScanTokenSize)
    (hlast : StopsLast unmarshal (payloads ((lines body).map dropCR)))
    (htext : ∀ chunk ∈ sends (deliver unmarshal (payloads ((lines body).map dropCR))),
      chunk.TextOnly)
    (hrun : exec Stream.step (.start (readStream unmarshal body)) run = some s)
    (hended : s.ended = true) :
    Collected grow s.received (String.join
      ((sends (deliver unmarshal (payloads ((lines body).map dropCR)))).map
        fun chunk => trimSpace chunk.text)) := by
  obtain ⟨chunks, err, hplan, hinv⟩ := exists_inv hrun
  have hreceived := (hinv.toReceived hplan hended).chunks
  rw [readStream, scanLines_of_fit hfit, (readLines_eq_deliver_iff _).mpr hlast, sends_append_closing]
    at hreceived
  rw [hreceived, collectMessage_textOnly htext, List.map_map]
  rfl

theorem stream_collected_greeting : Collected id [greetingChunk] (String.join
    ((sends (deliver Chunk.unmarshal (payloads ((lines greeting).map dropCR)))).map
      fun chunk => trimSpace chunk.text)) :=
  stream_collected Chunk.unmarshal greeting _ greetingEnd id (by decide +kernel)
    (by decide +kernel) greeting_textOnly exec_greetingEnd rfl

end Results

end Accumulation.Kimi
