/-
# Accumulation.Kimi.UploadBody — the body of an upload, written on one side of a pipe.

A goroutine writes the multipart body into a pipe, and `Read` reads from the other end.  When the
goroutine fails it sends its error on a channel, closes that, and then closes the pipe; when it is
done it closes the pipe first.  `Read` looks at the channel before it reads from the pipe, and it
believes the end of the pipe only if it has found the channel closed before.

An `io.ErrClosedPipe` is not sent, because that is how a write fails once the reader is closed.  But
the file may fail with it as well, and then the body ends too early without an error
(`always_trusted_iff`).

The pipe hands one write at a time to the reads, and the channel has room for one error, as Go
documents them.  Whoever takes the next step is free.
-/
import Accumulation.Go.Lines
import Accumulation.Lib.Run

namespace Accumulation.Kimi

open Accumulation.Go Accumulation.Lib Accumulation.Lib.Run

/-! ## Errors -/

inductive ReadError
  /-- `io.EOF` -/
  | eof
  /-- `io.ErrClosedPipe` -/
  | closedPipe
  | other (text : String)
  /-- an error that wraps another one -/
  | wrap (text : String) (err : ReadError)
  deriving DecidableEq, Repr

/-- `errors.Is(err, io.ErrClosedPipe)` -/
def ReadError.isClosedPipe : ReadError → Bool
  | .closedPipe => true
  | .wrap _ err => err.isClosedPipe
  | _ => false

/-! ## Requests -/

/-- What `File` gives out: its reads, and the error after the last one. -/
structure UploadFile where
  name : Option Bytes
  reads : List Bytes
  last : ReadError

structure UploadFileRequest where
  file : UploadFile
  filename : Bytes
  purpose : Bytes
  /-- the boundary that `multipart.NewWriter` makes -/
  boundary : Bytes

/-! ## The multipart body -/

/-- `escapeQuotes` of the package `mime/multipart` -/
def escapeQuotes (s : Bytes) : Bytes :=
  s.flatMap fun b => if b = 92 then [92, 92] else if b = 34 then [92, 34] else [b]

namespace UploadFileRequest

variable (r : UploadFileRequest)

def sentFilename : Bytes :=
  if r.filename ≠ [] then r.filename else r.file.name.getD []

/-- `WriteField("purpose", …)` writes this and the purpose. -/
def purposeHeader : Bytes :=
  ascii "--" ++ r.boundary ++
    ascii "\r\nContent-Disposition: form-data; name=\"purpose\"\r\n\r\n"

/-- `CreateFormFile("file", …)` writes this. -/
def fileHeader : Bytes :=
  ascii "\r\n--" ++ r.boundary ++
    ascii "\r\nContent-Disposition: form-data; name=\"file\"; filename=\"" ++
    escapeQuotes r.sentFilename ++ ascii "\"\r\nContent-Type: application/octet-stream\r\n\r\n"

/-- `Close` of the multipart writer writes this. -/
def closingBoundary : Bytes := ascii "\r\n--" ++ r.boundary ++ ascii "--\r\n"

/-- The complete body. -/
def body : Bytes :=
  r.purposeHeader ++ r.purpose ++ r.fileHeader ++ r.file.reads.flatten ++ r.closingBoundary

end UploadFileRequest

/-! ## The producer -/

/-- What the goroutine does, one thing after the other. -/
inductive Op
  | write (b : Bytes)
  /-- it returns with an error of the file -/
  | fail (err : ReadError)
  /-- `pipeWriter.Close()` -/
  | closePipe
  deriving DecidableEq, Repr

/-- `io.Copy`: an end of the file is no error, anything else is. -/
def copyOps (file : UploadFile) (rest : List Op) : List Op :=
  file.reads.map .write ++ if file.last = .eof then rest else [.fail file.last]

def UploadFileRequest.ops (r : UploadFileRequest) : List Op :=
  [.write r.purposeHeader, .write r.purpose, .write r.fileHeader] ++
    copyOps r.file [.write r.closingBoundary, .closePipe]

/-- Where the goroutine is. -/
inductive Producer
  | running (ops : List Op)
  /-- in `Write` of the pipe, before the rest -/
  | writing (ops : List Op)
  /-- in the deferred function, which sends, closes the channel, and closes the pipe -/
  | sending (err : Option ReadError)
  | closingChan
  | closingPipe
  | done
  deriving DecidableEq, Repr

/-! ## The consumer -/

/-- Where `Read` is, with the length of its buffer. -/
inductive Consumer
  | idle
  /-- before it looks at the channel -/
  | polling (size : ℕ)
  /-- before it reads from the pipe -/
  | reading (size : ℕ) (chanClosed : Bool)
  deriving DecidableEq, Repr

structure Upload where
  producer : Producer
  /-- what is left of the write in the pipe -/
  pending : Option Bytes
  writerClosed : Bool
  readerClosed : Bool
  errorChan : Option ReadError
  chanClosed : Bool
  consumer : Consumer
  /-- what the calls of `Read` have returned: bytes, and errors -/
  delivered : Bytes
  errors : List ReadError
  /-- the error the goroutine has failed with -/
  failure : Option ReadError
  deriving DecidableEq, Repr

/-- After `init`. -/
def UploadFileRequest.init (r : UploadFileRequest) : Upload :=
  ⟨.running r.ops, none, false, false, none, false, .idle, [], [], none⟩

namespace Upload

/-- The goroutine returns. -/
def leave (s : Upload) (err : Option ReadError) : Upload :=
  { s with producer := .sending err, pending := none, failure := err }

/-- `Read` returns an error. -/
def returnErr (s : Upload) (err : ReadError) : Upload :=
  { s with consumer := .idle, errors := s.errors ++ [err] }

def produce (s : Upload) : Option Upload :=
  match s.producer with
  | .running [] => some (s.leave none)
  | .running (.write b :: ops) =>
    if s.readerClosed then some (s.leave (some .closedPipe))
    else some { s with producer := .writing ops, pending := some b }
  | .running (.fail err :: _) => some (s.leave (some err))
  | .running (.closePipe :: ops) => some { s with producer := .running ops, writerClosed := true }
  | .writing ops =>
    match s.pending with
    | none => some { s with producer := .running ops }
    -- blocked, unless the other end is closed
    | some _ => if s.readerClosed then some (s.leave (some .closedPipe)) else none
  | .sending err =>
    match err with
    | some e =>
      if e.isClosedPipe then some { s with producer := .closingChan }
      else some { s with producer := .closingChan, errorChan := some e }
    | none => some { s with producer := .closingChan }
  | .closingChan => some { s with producer := .closingPipe, chanClosed := true }
  | .closingPipe => some { s with producer := .done, writerClosed := true }
  | .done => none

/-- One step of `Read`.  Its variable `alreadyEOF` is made anew in each round of its loop, so it is
never true when it is looked at. -/
def consume (s : Upload) : Option Upload :=
  match s.consumer with
  | .idle => none
  | .polling size =>
    match s.errorChan with
    | some err => some ({ s with errorChan := none }.returnErr err)
    | none => some { s with consumer := .reading size s.chanClosed }
  | .reading size chanClosed =>
    if s.readerClosed then some (s.returnErr .closedPipe)
    else match s.pending with
      | some b =>
        some { s with
          consumer := .idle
          delivered := s.delivered ++ b.take size
          -- a write is over when it has been read once and nothing is left of it
          pending := if b.length ≤ size then none else some (b.drop size) }
      | none =>
        if s.writerClosed then
          if chanClosed then some (s.returnErr .eof) else some { s with consumer := .polling size }
        else none

inductive Action
  | produce
  /-- a call of `Read` with a buffer of this length -/
  | call (size : ℕ)
  | consume
  /-- the finalizer, whenever it runs -/
  | closeReader
  deriving DecidableEq, Repr

def step (s : Upload) : Action → Option Upload
  | .produce => s.produce
  | .call size => if s.consumer = .idle then some { s with consumer := .polling size } else none
  | .consume => s.consume
  | .closeReader => some { s with readerClosed := true }

end Upload

/-! ## What a caller relies on -/

/-- The end of the body can be trusted: if it is the first error, the body is complete; and an error
of the producer is returned before it. -/
structure Upload.Trusted (r : UploadFileRequest) (s : Upload) : Prop where
  complete : s.errors.head? = some .eof → s.delivered = r.body
  reported : ∀ pre post, s.errors = pre ++ .eof :: post → ∀ err, s.failure = some err →
    err.isClosedPipe = false → err ∈ pre

/-! ## The plan of the producer -/

namespace UploadFileRequest

/-- Everything the goroutine writes if it gets through. -/
def writes (r : UploadFileRequest) : List Bytes :=
  [r.purposeHeader, r.purpose, r.fileHeader] ++ r.file.reads ++
    if r.file.last = .eof then [r.closingBoundary] else []

/-- What it does in the end. -/
def ending (r : UploadFileRequest) : Op :=
  if r.file.last = .eof then .closePipe else .fail r.file.last

theorem ops_eq (r : UploadFileRequest) : r.ops = r.writes.map .write ++ [r.ending] := by
  by_cases h : r.file.last = .eof <;> simp [ops, copyOps, writes, ending, h]

/-- The body is complete if the file has been read to its end. -/
theorem flatten_writes (r : UploadFileRequest) : r.writes.flatten =
    if r.file.last = .eof then r.body else
      r.purposeHeader ++ r.purpose ++ r.fileHeader ++ r.file.reads.flatten := by
  by_cases h : r.file.last = .eof <;> simp [writes, body, h]

end UploadFileRequest

/-! ## The invariant -/

namespace Upload

variable {r : UploadFileRequest} {s t : Upload}

/-- The goroutine has not returned. -/
structure Fresh (s : Upload) : Prop where
  failure : s.failure = none
  errorChan : s.errorChan = none
  chanClosed : s.chanClosed = false

/-- How the goroutine has returned: with all of the body written, or with an error, which is that of
a closed pipe only if the reader is closed. -/
structure Outcome (r : UploadFileRequest) (s : Upload) : Prop where
  done : s.failure = none → s.delivered = r.body
  failed : ∀ err, s.failure = some err →
    err ≠ .eof ∧ (err.isClosedPipe = true → s.readerClosed = true)

/-- Where its error is: in the channel, or returned. -/
structure Reported (s : Upload) : Prop where
  channel : ∀ err, s.errorChan = some err → s.failure = some err
  somewhere : ∀ err, s.failure = some err → err.isClosedPipe = false →
    s.errorChan = some err ∨ err ∈ s.errors

/-- How far the goroutine is, and what is known then. -/
inductive Phase (r : UploadFileRequest) (s : Upload) : Prop
  | running (ws : List Bytes) (hproducer : s.producer = .running (ws.map .write ++ [r.ending]))
      (hfresh : s.Fresh) (hpending : s.pending = none)
      (hbytes : s.delivered ++ ws.flatten = r.writes.flatten)
  | writing (ws : List Bytes) (hproducer : s.producer = .writing (ws.map .write ++ [r.ending]))
      (hfresh : s.Fresh)
      (hbytes : s.delivered ++ s.pending.getD [] ++ ws.flatten = r.writes.flatten)
  | ended (hproducer : s.producer = .running []) (hfresh : s.Fresh) (hpending : s.pending = none)
      (hbytes : s.delivered = r.body)
  | sending (hproducer : s.producer = .sending s.failure) (herrorChan : s.errorChan = none)
      (hchanClosed : s.chanClosed = false) (hpending : s.pending = none) (houtcome : s.Outcome r)
  | closingChan (hproducer : s.producer = .closingChan) (hchanClosed : s.chanClosed = false)
      (hpending : s.pending = none) (hreported : s.Reported) (houtcome : s.Outcome r)
  | closed (hproducer : s.producer = .closingPipe ∨ s.producer = .done) (hpending : s.pending = none)
      (hreported : s.Reported) (houtcome : s.Outcome r)

structure Inv (r : UploadFileRequest) (s : Upload) : Prop where
  phase : s.Phase r
  /-- `Read` has found the channel closed -/
  reading : ∀ size, s.consumer = .reading size true → s.chanClosed = true ∧ s.errorChan = none
  ended : .eof ∈ s.errors → s.chanClosed = true
  trusted : s.Trusted r

/-- What leaves the goroutine alone. -/
theorem Phase.mono (h : s.Phase r) (hproducer : t.producer = s.producer)
    (hpending : t.pending = s.pending) (hdelivered : t.delivered = s.delivered)
    (hfailure : t.failure = s.failure) (herrorChan : t.errorChan = s.errorChan)
    (hchanClosed : t.chanClosed = s.chanClosed)
    (hreader : s.readerClosed = true → t.readerClosed = true) (herrors : s.errors ⊆ t.errors) :
    t.Phase r := by
  have hfresh (h : s.Fresh) : t.Fresh :=
    ⟨hfailure.trans h.failure, herrorChan.trans h.errorChan, hchanClosed.trans h.chanClosed⟩
  have houtcome (h : s.Outcome r) : t.Outcome r := by
    refine ⟨fun hnone => hdelivered.trans (h.done (hfailure ▸ hnone)), fun err herr => ?_⟩
    obtain ⟨hne, hpipe⟩ := h.failed err (hfailure ▸ herr)
    exact ⟨hne, fun hclosed => hreader (hpipe hclosed)⟩
  have hreported (h : s.Reported) : t.Reported := by
    refine ⟨fun err herr => hfailure.trans (h.channel err (herrorChan ▸ herr)), ?_⟩
    intro err herr hpipe
    rcases h.somewhere err (hfailure ▸ herr) hpipe with hchannel | hreturned
    · exact Or.inl (herrorChan.trans hchannel)
    · exact Or.inr (herrors hreturned)
  rcases h with ⟨ws, hp, hf, hn, hb⟩ | ⟨ws, hp, hf, hb⟩ | ⟨hp, hf, hn, hb⟩ | ⟨hp, he, hc, hn, ho⟩ |
    ⟨hp, hc, hn, hr, ho⟩ | ⟨hp, hn, hr, ho⟩
  · exact .running ws (hproducer.trans hp) (hfresh hf) (hpending.trans hn) (by rw [hdelivered, hb])
  · exact .writing ws (hproducer.trans hp) (hfresh hf) (by rw [hdelivered, hpending, hb])
  · exact .ended (hproducer.trans hp) (hfresh hf) (hpending.trans hn) (hdelivered.trans hb)
  · exact .sending (by rw [hproducer, hp, hfailure]) (herrorChan.trans he) (hchanClosed.trans hc)
      (hpending.trans hn) (houtcome ho)
  · exact .closingChan (hproducer.trans hp) (hchanClosed.trans hc) (hpending.trans hn) (hreported hr)
      (houtcome ho)
  · exact .closed (by rwa [hproducer]) (hpending.trans hn) (hreported hr) (houtcome ho)

/-- While there is something in the pipe, the goroutine is writing. -/
theorem Phase.writing_of_pending (h : s.Phase r) {b : Bytes} (hb : s.pending = some b) :
    ∃ ws : List Bytes, s.producer = .writing (ws.map .write ++ [r.ending]) ∧ s.Fresh ∧
      s.delivered ++ b ++ ws.flatten = r.writes.flatten := by
  rcases h with ⟨ws, hp, hf, hn, -⟩ | ⟨ws, hp, hf, hbytes⟩ | ⟨-, -, hn, -⟩ | ⟨-, -, -, hn, -⟩ |
    ⟨-, -, hn, -, -⟩ | ⟨-, hn, -, -⟩
  case writing =>
    rw [hb] at hbytes
    exact ⟨ws, hp, hf, hbytes⟩
  all_goals
    rw [hn] at hb
    nomatch hb

/-- What is known of the error in the channel, and once that is closed. -/
theorem Phase.reported (h : s.Phase r) (herr : s.errorChan ≠ none ∨ s.chanClosed = true) :
    s.Reported ∧ s.Outcome r := by
  rcases h with ⟨-, -, hf, -, -⟩ | ⟨-, -, hf, -⟩ | ⟨-, hf, -, -⟩ | ⟨-, he, hc, -, -⟩ |
    ⟨-, -, -, hr, ho⟩ | ⟨-, -, hr, ho⟩
  case closingChan => exact ⟨hr, ho⟩
  case closed => exact ⟨hr, ho⟩
  case sending => simp [he, hc] at herr
  all_goals simp [hf.errorChan, hf.chanClosed] at herr

/-! ## What `Read` returns -/

/-- The end of the body after some errors, of which the last one is another. -/
theorem eof_split_concat {errors pre post : List ReadError} {err : ReadError} (herr : err ≠ .eof)
    (h : errors ++ [err] = pre ++ .eof :: post) : ∃ post', errors = pre ++ .eof :: post' := by
  rcases List.eq_nil_or_concat' post with rfl | ⟨post', last, rfl⟩
  · exact absurd (List.append_inj' h rfl).2 (by simpa using herr)
  · refine ⟨post', ?_⟩
    rw [← List.cons_append, ← List.append_assoc] at h
    exact (List.append_inj' h rfl).1

/-- Another error than the end of the body can be returned at any time. -/
theorem Trusted.returnErr (h : s.Trusted r) {err : ReadError} (herr : err ≠ .eof)
    (herrors : t.errors = s.errors ++ [err]) (hdelivered : t.delivered = s.delivered)
    (hfailure : t.failure = s.failure) : t.Trusted r := by
  constructor
  · intro hhead
    rw [hdelivered]
    apply h.complete
    rw [herrors] at hhead
    rcases hs : s.errors with _ | ⟨first, rest⟩
    · rw [hs] at hhead
      exact absurd (Option.some.inj hhead) herr
    · rw [hs] at hhead
      exact hhead
  · intro pre post hsplit e he hpipe
    obtain ⟨post', hsplit'⟩ := eof_split_concat herr (herrors ▸ hsplit)
    exact h.reported pre post' hsplit' e (hfailure ▸ he) hpipe

/-- **The end of the body is returned** once the channel has been found closed: what was in it has
been returned before, and if there was nothing the body is complete. -/
theorem Inv.returnEof (h : s.Inv r) (hreader : s.readerClosed = false)
    (hreading : s.chanClosed = true ∧ s.errorChan = none) : (s.returnErr .eof).Inv r := by
  obtain ⟨hreported, houtcome⟩ := h.phase.reported (Or.inr hreading.1)
  have hthere : ∀ err, s.failure = some err → err.isClosedPipe = false → err ∈ s.errors := by
    intro err herr hpipe
    refine (hreported.somewhere err herr hpipe).resolve_left ?_
    rw [hreading.2]
    exact (Option.some_ne_none err).symm
  have hpipe : ∀ err, s.failure = some err → err.isClosedPipe = false := by
    intro err herr
    by_contra hclosed
    have hcontra := (houtcome.failed err herr).2 (by simpa using hclosed)
    rw [hreader] at hcontra
    nomatch hcontra
  refine ⟨h.phase.mono rfl rfl rfl rfl rfl rfl id (List.subset_append_left _ _), ?_,
    fun _ => hreading.1, ?_, ?_⟩
  · intro size hsize
    nomatch hsize
  · intro hhead
    rcases herrors : s.errors with _ | ⟨first, rest⟩
    · apply houtcome.done
      rcases hfailure : s.failure with _ | err
      · rfl
      · have hmem := hthere err hfailure (hpipe err hfailure)
        rw [herrors] at hmem
        nomatch hmem
    · apply h.trusted.complete
      simpa [returnErr, herrors] using hhead
  · intro pre post hsplit err herr hnot
    rcases List.eq_nil_or_concat' post with rfl | ⟨post', last, rfl⟩
    · have hpre : s.errors = pre := (List.append_inj' hsplit rfl).1
      rw [← hpre]
      exact hthere err herr hnot
    · rw [← List.cons_append, ← List.append_assoc] at hsplit
      exact h.trusted.reported pre post' (List.append_inj' hsplit rfl).1 err herr hnot

/-! ## One step -/

theorem init_inv (r : UploadFileRequest) : r.init.Inv r := by
  refine ⟨.running r.writes (by simp [UploadFileRequest.init, r.ops_eq]) ⟨rfl, rfl, rfl⟩ rfl rfl,
    ?_, ?_, ?_, ?_⟩
  · intro size hsize
    nomatch hsize
  · intro hmem
    nomatch hmem
  · intro hhead
    nomatch hhead
  · intro pre post hsplit
    simp [UploadFileRequest.init] at hsplit

/-- The goroutine returns with an error. -/
theorem Phase.leave {err : ReadError} (hfresh : s.Fresh) (herr : err ≠ .eof)
    (hpipe : err.isClosedPipe = true → s.readerClosed = true) : (s.leave (some err)).Phase r := by
  refine .sending rfl hfresh.errorChan hfresh.chanClosed rfl ⟨?_, ?_⟩
  · intro hnone
    nomatch hnone
  · intro e he
    obtain rfl := Option.some.inj he
    exact ⟨herr, hpipe⟩

/-- **One step of the goroutine**, if the file does not fail as a closed pipe does. -/
theorem produce_phase (hfile : r.file.last.isClosedPipe = false) (h : s.Phase r)
    (hstep : s.produce = some t) : t.Phase r := by
  rcases h with ⟨ws, hp, hf, hn, hb⟩ | ⟨ws, hp, hf, hb⟩ | ⟨hp, hf, hn, hb⟩ | ⟨hp, he, hc, hn, ho⟩ |
    ⟨hp, hc, hn, hr, ho⟩ | ⟨hp | hp, hn, hr, ho⟩
  case running =>
    rcases ws with _ | ⟨b, ws⟩
    · by_cases heof : r.file.last = .eof
      · simp only [produce, hp, UploadFileRequest.ending, heof, if_true, List.map_nil,
          List.nil_append] at hstep
        obtain rfl := Option.some.inj hstep
        refine .ended rfl ⟨hf.failure, hf.errorChan, hf.chanClosed⟩ hn ?_
        rw [r.flatten_writes, if_pos heof] at hb
        simpa using hb
      · simp only [produce, hp, UploadFileRequest.ending, heof, if_false, List.map_nil,
          List.nil_append] at hstep
        obtain rfl := Option.some.inj hstep
        exact .leave hf heof fun hclosed => by rw [hfile] at hclosed; nomatch hclosed
    · simp only [produce, hp, List.map_cons, List.cons_append] at hstep
      split_ifs at hstep with hclosed
      · obtain rfl := Option.some.inj hstep
        exact .leave hf (by decide) fun _ => hclosed
      · obtain rfl := Option.some.inj hstep
        exact .writing ws rfl ⟨hf.failure, hf.errorChan, hf.chanClosed⟩ (by simpa using hb)
  case writing =>
    rcases hpending : s.pending with _ | b
    · simp only [produce, hp, hpending] at hstep
      obtain rfl := Option.some.inj hstep
      exact .running ws rfl ⟨hf.failure, hf.errorChan, hf.chanClosed⟩ rfl
        (by simpa [hpending] using hb)
    · simp only [produce, hp, hpending] at hstep
      split_ifs at hstep with hclosed
      obtain rfl := Option.some.inj hstep
      exact .leave hf (by decide) fun _ => hclosed
  case ended =>
    simp only [produce, hp] at hstep
    obtain rfl := Option.some.inj hstep
    refine .sending rfl hf.errorChan hf.chanClosed rfl ⟨fun _ => hb, ?_⟩
    intro e herr
    nomatch herr
  case sending =>
    have hchannel {e : ReadError} (herr : s.errorChan = some e) : s.failure = some e := by
      rw [he] at herr
      nomatch herr
    generalize hfailure : s.failure = failure at hp
    rcases failure with _ | err
    · simp only [produce, hp] at hstep
      obtain rfl := Option.some.inj hstep
      refine .closingChan rfl hc hn ⟨fun e => hchannel, ?_⟩ ⟨ho.done, ho.failed⟩
      intro e herr
      rw [show s.failure = some e from herr] at hfailure
      nomatch hfailure
    · simp only [produce, hp] at hstep
      split_ifs at hstep with hclosed
      · obtain rfl := Option.some.inj hstep
        refine .closingChan rfl hc hn ⟨fun e => hchannel, ?_⟩ ⟨ho.done, ho.failed⟩
        intro e herr hnot
        obtain rfl : err = e := Option.some.inj (hfailure.symm.trans herr)
        rw [hclosed] at hnot
        nomatch hnot
      · obtain rfl := Option.some.inj hstep
        refine .closingChan rfl hc hn ⟨?_, ?_⟩ ⟨ho.done, ho.failed⟩
        · intro e herr
          obtain rfl := Option.some.inj herr
          exact hfailure
        · intro e herr _
          obtain rfl : err = e := Option.some.inj (hfailure.symm.trans herr)
          exact Or.inl rfl
  case closingChan =>
    simp only [produce, hp] at hstep
    obtain rfl := Option.some.inj hstep
    exact .closed (Or.inl rfl) hn ⟨hr.channel, hr.somewhere⟩ ⟨ho.done, ho.failed⟩
  case closed.inl =>
    simp only [produce, hp] at hstep
    obtain rfl := Option.some.inj hstep
    exact .closed (Or.inr rfl) hn ⟨hr.channel, hr.somewhere⟩ ⟨ho.done, ho.failed⟩
  case closed.inr =>
    simp only [produce, hp] at hstep
    nomatch hstep

/-- The goroutine leaves alone what `Read` has done. -/
theorem produce_frame (hstep : s.produce = some t) :
    t.consumer = s.consumer ∧ t.errors = s.errors ∧ t.delivered = s.delivered := by
  revert hstep
  fun_cases produce s <;> rintro ⟨⟩ <;> exact ⟨rfl, rfl, rfl⟩

/-- Once the channel is closed, the goroutine only closes the pipe. -/
theorem produce_closed (h : s.Phase r) (hclosed : s.chanClosed = true)
    (hstep : s.produce = some t) :
    t.chanClosed = true ∧ t.errorChan = s.errorChan ∧ t.failure = s.failure := by
  rcases h with ⟨-, -, hf, -, -⟩ | ⟨-, -, hf, -⟩ | ⟨-, hf, -, -⟩ | ⟨-, -, hc, -, -⟩ |
    ⟨-, hc, -, -, -⟩ | ⟨hp | hp, -, -, -⟩
  case sending => simp [hc] at hclosed
  case closingChan => simp [hc] at hclosed
  case closed.inl =>
    simp only [produce, hp] at hstep
    obtain rfl := Option.some.inj hstep
    exact ⟨hclosed, rfl, rfl⟩
  case closed.inr =>
    simp only [produce, hp] at hstep
    nomatch hstep
  all_goals simp [hf.chanClosed] at hclosed

theorem Inv.produce (hfile : r.file.last.isClosedPipe = false) (h : s.Inv r)
    (hstep : s.produce = some t) : t.Inv r := by
  obtain ⟨hconsumer, herrors, hdelivered⟩ := produce_frame hstep
  refine ⟨produce_phase hfile h.phase hstep, ?_, ?_, ?_, ?_⟩
  · intro size hsize
    obtain ⟨hclosed, hchannel⟩ := h.reading size (hconsumer ▸ hsize)
    obtain ⟨hclosed', hchannel', -⟩ := produce_closed h.phase hclosed hstep
    exact ⟨hclosed', hchannel'.trans hchannel⟩
  · intro hmem
    exact (produce_closed h.phase (h.ended (herrors ▸ hmem)) hstep).1
  · intro hhead
    exact hdelivered.trans (h.trusted.complete (herrors ▸ hhead))
  · intro pre post hsplit err herr hnot
    rw [herrors] at hsplit
    have hmem : .eof ∈ s.errors := by simp [hsplit]
    have hfailure := (produce_closed h.phase (h.ended hmem) hstep).2.2
    exact h.trusted.reported pre post hsplit err (hfailure ▸ herr) hnot

/-- **`Read` takes an error from the channel.** -/
theorem Inv.receive (h : s.Inv r) {err : ReadError} (herr : s.errorChan = some err) :
    ({ s with errorChan := none }.returnErr err).Inv r := by
  obtain ⟨hreported, houtcome⟩ := h.phase.reported (Or.inl (by simp [herr]))
  have hfailure := hreported.channel err herr
  have hne : err ≠ .eof := (houtcome.failed err hfailure).1
  have hreported' : ({ s with errorChan := none }.returnErr err).Reported := by
    refine ⟨fun e he => (nomatch he), fun e he _ => Or.inr ?_⟩
    obtain rfl : err = e := Option.some.inj (hfailure.symm.trans he)
    simp [returnErr]
  have houtcome' : ({ s with errorChan := none }.returnErr err).Outcome r :=
    ⟨houtcome.done, houtcome.failed⟩
  refine ⟨?_, fun size hsize => (nomatch hsize), ?_,
    h.trusted.returnErr hne rfl rfl rfl⟩
  · rcases h.phase with ⟨-, -, hf, -, -⟩ | ⟨-, -, hf, -⟩ | ⟨-, hf, -, -⟩ | ⟨-, he, -, -, -⟩ |
      ⟨hp, hc, hn, -, -⟩ | ⟨hp, hn, -, -⟩
    case sending => simp [he] at herr
    case closingChan => exact .closingChan hp hc hn hreported' houtcome'
    case closed => exact .closed hp hn hreported' houtcome'
    all_goals simp [hf.errorChan] at herr
  · intro hmem
    apply h.ended
    simpa [returnErr, hne.symm] using hmem

/-- **`Read` takes bytes from the pipe.** -/
theorem Inv.deliver (h : s.Inv r) {b : Bytes} (hb : s.pending = some b) (size : ℕ) :
    Inv r { s with
      consumer := .idle
      delivered := s.delivered ++ b.take size
      pending := if b.length ≤ size then none else some (b.drop size) } := by
  obtain ⟨ws, hproducer, hfresh, hbytes⟩ := h.phase.writing_of_pending hb
  have hnot : .eof ∉ s.errors := by
    intro hmem
    have hclosed := h.ended hmem
    rw [hfresh.chanClosed] at hclosed
    nomatch hclosed
  refine ⟨.writing ws hproducer ⟨hfresh.failure, hfresh.errorChan, hfresh.chanClosed⟩ ?_,
    fun _ hsize => (nomatch hsize), fun hmem => absurd hmem hnot, ?_, ?_⟩
  · by_cases hsize : b.length ≤ size
    · simpa [hsize, List.take_of_length_le hsize] using hbytes
    · rw [if_neg hsize, Option.getD_some, List.append_assoc s.delivered, List.take_append_drop]
      exact hbytes
  · intro hhead
    exact absurd (List.mem_of_head? hhead) hnot
  · intro pre post hsplit
    exact absurd (by simp [show s.errors = _ from hsplit]) hnot

theorem Inv.consume (h : s.Inv r) (hstep : s.consume = some t) : t.Inv r := by
  rcases hconsumer : s.consumer with _ | size | ⟨size, chanClosed⟩
  · simp only [Upload.consume, hconsumer] at hstep
    nomatch hstep
  · rcases hchannel : s.errorChan with _ | err
    · simp only [Upload.consume, hconsumer, hchannel] at hstep
      obtain rfl := Option.some.inj hstep
      refine ⟨h.phase.mono rfl rfl rfl rfl hchannel.symm rfl id (List.Subset.refl _), ?_, h.ended,
        h.trusted.complete, h.trusted.reported⟩
      intro size' hsize
      injection hsize with _ hclosed
      exact ⟨hclosed, rfl⟩
    · simp only [Upload.consume, hconsumer, hchannel] at hstep
      obtain rfl := Option.some.inj hstep
      exact h.receive hchannel
  · by_cases hreader : s.readerClosed = true
    · simp only [Upload.consume, hconsumer, if_pos hreader] at hstep
      obtain rfl := Option.some.inj hstep
      refine ⟨h.phase.mono rfl rfl rfl rfl rfl rfl id (List.subset_append_left _ _),
        fun _ hsize => (nomatch hsize), ?_, h.trusted.returnErr (by decide) rfl rfl rfl⟩
      intro hmem
      apply h.ended
      simpa [returnErr] using hmem
    · rcases hpending : s.pending with _ | b
      · simp only [Upload.consume, hconsumer, if_neg hreader, hpending] at hstep
        split_ifs at hstep with hwriter hclosed
        · obtain rfl := Option.some.inj hstep
          subst hclosed
          exact h.returnEof (by simpa using hreader) (h.reading size hconsumer)
        · obtain rfl := Option.some.inj hstep
          exact ⟨h.phase.mono rfl hpending.symm rfl rfl rfl rfl id (List.Subset.refl _),
            fun _ hsize => (nomatch hsize), h.ended, h.trusted.complete, h.trusted.reported⟩
      · simp only [Upload.consume, hconsumer, if_neg hreader, hpending] at hstep
        obtain rfl := Option.some.inj hstep
        exact h.deliver hpending size

/-- **Every step keeps the invariant**, if the file does not fail as a closed pipe does. -/
theorem step_inv (hfile : r.file.last.isClosedPipe = false) (a : Action) (h : s.Inv r)
    (hstep : s.step a = some t) : t.Inv r := by
  rcases a with _ | size | _ | _
  · exact h.produce hfile hstep
  · rw [step] at hstep
    split_ifs at hstep with hidle
    obtain rfl := Option.some.inj hstep
    exact ⟨h.phase.mono rfl rfl rfl rfl rfl rfl id (List.Subset.refl _),
      fun _ hsize => (nomatch hsize), h.ended, h.trusted.complete, h.trusted.reported⟩
  · exact h.consume hstep
  · obtain rfl := Option.some.inj hstep
    exact ⟨h.phase.mono rfl rfl rfl rfl rfl rfl (fun _ => rfl) (List.Subset.refl _), h.reading,
      h.ended, h.trusted.complete, h.trusted.reported⟩

/-! ## A run that is cut short -/

/-- The goroutine has still this to do, and everything before has been read. -/
def midway (ops : List Op) (delivered : Bytes) : Upload :=
  ⟨.running ops, none, false, false, none, false, .idle, delivered, [], none⟩

/-- One write, and one call of `Read` that takes all of it. -/
def pass (b : Bytes) : List Action := [.produce, .call b.length, .consume, .consume, .produce]

theorem exec_pass (b : Bytes) (ops : List Op) (delivered : Bytes) :
    exec step (midway (.write b :: ops) delivered) (pass b) =
      some (midway ops (delivered ++ b)) := by
  simp [pass, exec, step, Upload.produce, Upload.consume, midway]

theorem exec_passes (ws : List Bytes) (ops : List Op) (delivered : Bytes) :
    exec step (midway (ws.map .write ++ ops) delivered) (ws.flatMap pass) =
      some (midway ops (delivered ++ ws.flatten)) := by
  induction ws generalizing delivered with
  | nil => simp
  | cons b ws ih =>
    rw [List.flatMap_cons, exec_append, List.map_cons, List.cons_append, exec_pass,
      Option.bind_some, ih, List.flatten_cons, List.append_assoc]

/-- **A file that fails as a closed pipe does** ends the body early: all that was written is read, and
then comes its end. -/
theorem exists_untrusted (hfile : r.file.last.isClosedPipe = true) :
    ∃ run s, exec step r.init run = some s ∧ ¬ s.Trusted r := by
  have hne : r.file.last ≠ .eof := by
    intro heof
    rw [heof] at hfile
    nomatch hfile
  have hinit : r.init = midway (r.writes.map .write ++ [.fail r.file.last]) [] := by
    rw [UploadFileRequest.init, r.ops_eq, UploadFileRequest.ending, if_neg hne]
    rfl
  refine ⟨r.writes.flatMap pass ++
    [.produce, .produce, .produce, .produce, .call 0, .consume, .consume],
    ⟨.done, none, true, false, none, true, .idle, r.writes.flatten, [.eof], some r.file.last⟩,
    ?_, ?_⟩
  · rw [hinit, exec_append, exec_passes, List.nil_append, Option.bind_some]
    simp [exec, step, Upload.produce, Upload.consume, midway, leave, returnErr, hfile]
  · intro htrusted
    have hbody : r.writes.flatten = r.body := htrusted.complete rfl
    rw [r.flatten_writes, if_neg hne, UploadFileRequest.body, List.self_eq_append_right] at hbody
    simp [UploadFileRequest.closingBoundary, ascii] at hbody

end Upload

/-- **The end of the body can be trusted in every run exactly when the file does not fail as a closed
pipe does.** -/
theorem always_trusted_iff (r : UploadFileRequest) :
    (∀ run, Always Upload.step (Upload.Trusted r) r.init run) ↔
      r.file.last.isClosedPipe = false := by
  constructor
  · intro halways
    by_contra hfile
    obtain ⟨run, s, hrun, hnot⟩ := Upload.exists_untrusted (r := r) (by simpa using hfile)
    exact hnot ((halways run).last hrun)
  · intro hfile run
    have hinv := always_of_step (fun s a t => Upload.step_inv hfile a) run (Upload.init_inv r)
    exact hinv.mono fun s h => h.trusted

/-- The file is the reading end of another pipe, closed after four bytes. -/
theorem closed_file_untrusted :
    ¬ ∀ run, Always Upload.step
      (Upload.Trusted ⟨⟨none, [ascii "half"], .closedPipe⟩, ascii "f", ascii "p", ascii "b"⟩)
      (UploadFileRequest.init ⟨⟨none, [ascii "half"], .closedPipe⟩, ascii "f", ascii "p", ascii "b"⟩)
      run := by
  intro halways
  obtain ⟨run, s, hrun, hnot⟩ := Upload.exists_untrusted
    (r := ⟨⟨none, [ascii "half"], .closedPipe⟩, ascii "f", ascii "p", ascii "b"⟩) rfl
  exact hnot ((halways run).last hrun)

end Accumulation.Kimi
