/-
# Accumulation.Kimi.EventStream — `readStream`, which turns a body of events into chunks.

It reads the body line by line, sends a chunk for each line `data: …`, and stops at `data: [DONE]`,
at a line that is no chunk, or after a chunk whose first choice has the finish reason `stop`.  With
several choices the others may still have chunks to come, and these are never sent
(`delivers_iff`).

How a chunk is read from JSON is a parameter of the statements.
-/
import Accumulation.Go.Lines
import Accumulation.Kimi.Chunk

namespace Accumulation.Kimi

open Accumulation.Lib Accumulation.Go

variable {E : Type}

/-! ## The reader -/

def serverSentEventData : Bytes := ascii "data"

def serverSentEventDone : Bytes := ascii "[DONE]"

def serverSentEventColon : UInt8 := 58

inductive StreamError (E : Type)
  | unmarshal (err : E)
  /-- `bufio.ErrTooLong` -/
  | tooLong
  deriving DecidableEq, Repr

/-- What `readStream` does to its two channels and the body. -/
inductive Action (E : Type)
  | send (chunk : Chunk)
  | sendErr (err : StreamError E)
  | closeCh
  | closeErr
  | closeBody
  deriving DecidableEq, Repr

/-- What a line stands for. -/
inductive Event
  | data (payload : Bytes)
  | done
  | other
  deriving DecidableEq, Repr

def event (data : Bytes) : Event :=
  match cut data serverSentEventColon with
  | none => .other
  | some (before, after) =>
    if trimSpaceBytes before = serverSentEventData then
      if trimSpaceBytes after = serverSentEventDone then .done else .data (trimSpaceBytes after)
    else .other

section Reader

variable (unmarshal : Bytes → Except E Chunk)

/-- The loop over the lines, up to the scanner's error. -/
def readLines (tooLong : Bool) : List Bytes → List (Action E)
  | [] => if tooLong then [.sendErr .tooLong] else []
  | line :: lines =>
    match event line with
    | .other => readLines tooLong lines
    -- the scanner has not failed when the loop is left
    | .done => []
    | .data payload =>
      match unmarshal payload with
      | .error err => [.sendErr (.unmarshal err)]
      | .ok chunk =>
        .send chunk ::
          if chunk.getFinishReason = finishReasonStop then [] else readLines tooLong lines

/-- What the deferred calls do. -/
def closing : List (Action E) := [.closeCh, .closeErr, .closeBody]

def readStream (body : Bytes) : List (Action E) :=
  readLines unmarshal (scanLines body).2 (scanLines body).1 ++ closing

/-! ## What is to be delivered -/

/-- The payloads of the data lines before the first `[DONE]`. -/
def payloads : List Bytes → List Bytes
  | [] => []
  | line :: lines =>
    match event line with
    | .other => payloads lines
    | .done => []
    | .data payload => payload :: payloads lines

/-- A chunk for each payload, up to one that is no chunk. -/
def deliver : List Bytes → List (Action E)
  | [] => []
  | payload :: payloads =>
    match unmarshal payload with
    | .error err => [.sendErr (.unmarshal err)]
    | .ok chunk => .send chunk :: deliver payloads

/-- **The reader delivers**: the chunks before `[DONE]`, or up to a line that is none, and then the
channels are closed. -/
def Delivers (body : Bytes) : Prop :=
  readStream unmarshal body = deliver unmarshal (payloads ((lines body).map dropCR)) ++ closing

instance [DecidableEq E] (body : Bytes) : Decidable (Delivers unmarshal body) :=
  inferInstanceAs (Decidable (readStream unmarshal body =
    deliver unmarshal (payloads ((lines body).map dropCR)) ++ closing))

/-- No payload follows a chunk whose first choice stops, unless one before it is no chunk. -/
def StopsLast : List Bytes → Prop
  | [] => True
  | payload :: payloads =>
    match unmarshal payload with
    | .error _ => True
    | .ok chunk =>
      (chunk.getFinishReason = finishReasonStop → payloads = []) ∧ StopsLast payloads

instance decidableStopsLast : ∀ payloads, Decidable (StopsLast unmarshal payloads)
  | [] => .isTrue trivial
  | payload :: payloads =>
    match h : unmarshal payload with
    | .error _ => .isTrue (by simp [StopsLast, h])
    | .ok chunk =>
      have : Decidable (StopsLast unmarshal payloads) := decidableStopsLast payloads
      decidable_of_iff ((chunk.getFinishReason = finishReasonStop → payloads = []) ∧
        StopsLast unmarshal payloads) (by simp [StopsLast, h])

end Reader

/-! ## The reader against what is to be delivered -/

section Delivers

variable {unmarshal : Bytes → Except E Chunk}

/-- Something is delivered for every payload. -/
theorem deliver_eq_nil_iff {payloads : List Bytes} :
    deliver unmarshal payloads = [] ↔ payloads = [] := by
  rcases payloads with _ | ⟨payload, payloads⟩
  · simp [deliver]
  · rcases h : unmarshal payload with err | chunk <;> simp [deliver, h]

/-- **The loop**, line by line. -/
theorem readLines_eq_deliver_iff (lines : List Bytes) :
    readLines unmarshal false lines = deliver unmarshal (payloads lines) ↔
      StopsLast unmarshal (payloads lines) := by
  induction lines with
  | nil => simp [readLines, payloads, deliver, StopsLast]
  | cons line lines ih =>
    rcases hevent : event line with payload | _ | _
    · rcases hchunk : unmarshal payload with err | chunk
      · simp [readLines, payloads, deliver, StopsLast, hevent, hchunk]
      · by_cases hstop : chunk.getFinishReason = finishReasonStop
        · simp only [readLines, payloads, deliver, StopsLast, hevent, hchunk, hstop, if_true,
            List.cons.injEq, true_and, forall_const]
          rw [eq_comm, deliver_eq_nil_iff]
          constructor
          · intro hnil
            rw [hnil]
            exact ⟨rfl, trivial⟩
          · exact And.left
        · simp [readLines, payloads, deliver, StopsLast, hevent, hchunk, hstop, ih]
    · simp [readLines, payloads, deliver, StopsLast, hevent]
    · simp [readLines, payloads, hevent, ih]

/-- A scanner that is not stopped gives out all lines. -/
theorem scanLines_of_fit {body : Bytes} (h : ∀ line ∈ lines body, line.length < maxScanTokenSize) :
    scanLines body = ((lines body).map dropCR, false) := by
  have hall : (lines body).all (fun line => decide (line.length < maxScanTokenSize)) = true := by
    simpa using h
  have htake : (lines body).takeWhile (fun line => decide (line.length < maxScanTokenSize)) =
      lines body := by
    rw [List.takeWhile_eq_self_iff]
    simpa using h
  simp [scanLines, hall, htake]

end Delivers

/-- **The reader delivers exactly when no data line follows a chunk that stops the first choice.** -/
theorem delivers_iff (unmarshal : Bytes → Except E Chunk) (body : Bytes)
    (hfit : ∀ line ∈ lines body, line.length < maxScanTokenSize) :
    Delivers unmarshal body ↔ StopsLast unmarshal (payloads ((lines body).map dropCR)) := by
  rw [Delivers, readStream, scanLines_of_fit hfit, List.append_left_inj]
  exact readLines_eq_deliver_iff _

/-! ## Chunks in JSON -/

def Choice.zero : Choice := ⟨"", none, ""⟩

def Choice.fields : List (String × Decoder Choice) :=
  [("index", setter (NullableType.unmarshalJSON (T := .int)) (·.index)
      fun choice index => { choice with index }),
    ("delta", setter (decodePtr .zero (decodeStruct Message.fields)) (·.delta)
      fun choice delta => { choice with delta }),
    ("finish_reason", setter (NullableType.unmarshalJSON (T := .string)) (·.finishReason)
      fun choice finishReason => { choice with finishReason })]

def Chunk.fields : List (String × Decoder Chunk) :=
  [("choices", setter (decodeSlice .zero (decodeStruct Choice.fields)) (fun c => some c.choices)
      fun c choices => { c with choices := choices.getD [] })]

/-- `json.Unmarshal` of a text in ASCII. -/
def Chunk.unmarshal (data : Bytes) : Except DtoError Chunk :=
  match Json.unmarshal (String.ofList (data.map fun b => Char.ofNat b.toNat)) with
  | none => .error .noJSON
  | some j => decodeStruct Chunk.fields ⟨[]⟩ j

/-! ## Two choices -/

/-- The last chunk of a choice, as a line. -/
def lastChunk (index : String) : String :=
  "data: \x7b\"choices\":[\x7b\"index\":" ++ index ++
    ",\"delta\":\x7b\x7d,\"finish_reason\":\"stop\"\x7d]\x7d\n"

/-- One choice, with a comment and a blank line. -/
theorem delivers_iff_one :
    Delivers Chunk.unmarshal (ascii (": comment\n\n" ++ lastChunk "0" ++ "data: [DONE]\n")) :=
  (delivers_iff Chunk.unmarshal _ (by decide +kernel)).mpr (by decide +kernel)

/-- The chunk of the second choice is not sent, as the first one has stopped. -/
theorem second_choice_lost :
    ¬ Delivers Chunk.unmarshal (ascii (lastChunk "0" ++ lastChunk "1" ++ "data: [DONE]\n")) := by
  decide +kernel

end Accumulation.Kimi
