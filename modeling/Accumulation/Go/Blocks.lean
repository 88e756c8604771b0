/-
# Accumulation.Go.Blocks — the writes that a `bufio.Writer` makes, and how far they get.

What a `Writer` is given goes to its file in writes whose sizes depend on sizes alone (`blocks`).  So
it can be said beforehand what a write that fails leaves in the file: `send` tells how many bytes a
row of writes brings to a file whose operations have given fates, and `Writer.write_send` and
`Writer.flush_send` say that a `Writer` at the end of its file sends that many of the bytes it has
been given.
-/
import Accumulation.Go.File

namespace Accumulation.Go

/-! ## A row of writes -/

/-- How far a row of writes has got: the bytes that are out, whether a write has failed, and the
fates that are left. -/
structure Sent where
  count : Nat
  failed : Bool
  fates : List Fate
  deriving DecidableEq

/-- Writes of these sizes, one after another until one of them fails. -/
def send : List Nat → List Fate → Sent
  | [], fates => ⟨0, false, fates⟩
  | n :: ns, [] => { send ns [] with count := n + (send ns []).count }
  | n :: ns, .ok :: fates => { send ns fates with count := n + (send ns fates).count }
  | _ :: _, .fail :: fates => ⟨0, true, fates⟩
  | n :: _, .short m :: fates => ⟨min m n, true, fates⟩

@[simp]
theorem send_nil (fates : List Fate) : send [] fates = ⟨0, false, fates⟩ := rfl

/-- A row of writes is its first write and then the others. -/
theorem send_cons (n : Nat) (ns : List Nat) (fates : List Fate) : send (n :: ns) fates =
    if (send [n] fates).failed then send [n] fates
    else { send ns (send [n] fates).fates with
      count := (send [n] fates).count + (send ns (send [n] fates).fates).count } := by
  cases fates with
  | nil => rfl
  | cons fate fates => cases fate <;> rfl

/-- Writes that do not fail bring out all of their bytes. -/
theorem count_of_sent {ns : List Nat} {fates : List Fate} (h : (send ns fates).failed = false) :
    (send ns fates).count = ns.sum := by
  induction ns generalizing fates with
  | nil => rfl
  | cons n ns ih =>
    cases fates with
    | nil => exact congrArg (n + ·) (ih h)
    | cons fate fates =>
      cases fate with
      | ok => exact congrArg (n + ·) (ih h)
      | fail => cases h
      | short m => cases h

theorem count_le_sum (ns : List Nat) (fates : List Fate) : (send ns fates).count ≤ ns.sum := by
  induction ns generalizing fates with
  | nil => exact le_rfl
  | cons n ns ih =>
    cases fates with
    | nil => exact Nat.add_le_add_left (ih []) n
    | cons fate fates =>
      cases fate with
      | ok => exact Nat.add_le_add_left (ih fates) n
      | fail => exact Nat.zero_le _
      | short m => exact le_trans (min_le_right m n) (Nat.le_add_right n _)

/-- Where no write fails, the row comes to its end. -/
theorem send_ok (ns : List Nat) {fates : List Fate} (h : ∀ fate ∈ fates, fate = .ok) :
    (send ns fates).failed = false ∧ ∀ fate ∈ (send ns fates).fates, fate = .ok := by
  induction ns generalizing fates with
  | nil => exact ⟨rfl, h⟩
  | cons n ns ih =>
    cases fates with
    | nil => exact ih h
    | cons fate fates =>
      obtain rfl := h fate List.mem_cons_self
      exact ih fun fate hfate => h fate (List.mem_cons_of_mem _ hfate)

/-- The file after some of `bs` has been written at its end. -/
def File.reached (data bs : List UInt8) (r : Sent) : File :=
  ⟨data ++ bs.take r.count, (data ++ bs.take r.count).length, r.fates⟩

def Sent.err (r : Sent) : Option Err := if r.failed then some .io else none

/-- One write at the end of a file. -/
theorem File.write_send (data p : List UInt8) (fates : List Fate) :
    (File.mk data data.length fates).write p =
      ((send [p.length] fates).count, (send [p.length] fates).err,
        File.reached data p (send [p.length] fates)) := by
  cases fates with
  | nil =>
    simp only [File.write, File.next, send, Sent.err, File.reached, Nat.add_zero, List.take_length,
      overwrite_end, List.length_append, Bool.false_eq_true, if_false]
  | cons fate fates =>
    cases fate with
    | ok =>
      simp only [File.write, File.next, send, Sent.err, File.reached, Nat.add_zero,
        List.take_length, overwrite_end, List.length_append, Bool.false_eq_true, if_false]
    | fail =>
      simp only [File.write, File.next, send, Sent.err, File.reached, List.take_zero,
        List.append_nil, if_true]
    | short m =>
      simp only [File.write, File.next, send, Sent.err, File.reached, if_true, overwrite_end,
        List.length_append, List.length_take]
      rw [← List.take_take, List.take_length, min_assoc, min_self]

/-! ## The writer -/

/-- The sizes of the writes that `w.Write(p)` makes with this many bytes in the buffer and `n` in
`p`, and how many are in the buffer afterwards. -/
def blocks (buffered n : Nat) : List Nat × Nat :=
  if n ≤ bufSize - buffered then ([], buffered + n)
  else if buffered = 0 then ([n], 0)
  else
    let rest := n - (bufSize - buffered)
    if rest ≤ bufSize then ([bufSize], rest) else ([bufSize, rest], 0)

/-- The write that `w.Flush()` makes. -/
def lastBlock (buffered : Nat) : List Nat := if buffered = 0 then [] else [buffered]

namespace Writer

/-- A writer that has not failed, at the end of its file. -/
def atEnd (data buf : List UInt8) (fates : List Fate) : Writer :=
  ⟨⟨data, data.length, fates⟩, buf, none⟩

/-- A call on a writer whose bytes are `bs` has brought as many of them to the file as these writes
bring, and if it has not failed the others are in the buffer. -/
structure Brings (out : Option Err × Writer) (data bs : List UInt8) (r : Sent) : Prop where
  err : out.1 = r.err
  file : out.2.file = File.reached data bs r
  going : r.failed = false →
    out.2 = atEnd (data ++ bs.take r.count) (bs.drop r.count) r.fates

variable {data buf p : List UInt8} {fates : List Fate}

theorem err_of_failed {r : Sent} (h : r.failed = true) : r.err = some .io := by
  rw [Sent.err, if_pos h]

theorem err_of_not_failed {r : Sent} (h : r.failed = false) : r.err = none := by
  rw [Sent.err, h]
  rfl

/-- A flush of what is buffered is one write. -/
theorem flush_of_ne (hbuf : buf ≠ []) : (atEnd data buf fates).flush =
    if (send [buf.length] fates).failed then
      (some .io, ⟨File.reached data buf (send [buf.length] fates),
        buf.drop (send [buf.length] fates).count, some .io⟩)
    else (none, ⟨File.reached data buf (send [buf.length] fates), [], none⟩) := by
  have hwrite : (atEnd data buf fates).file.write (atEnd data buf fates).buf = _ :=
    File.write_send data buf fates
  unfold flush
  show (if (atEnd data buf fates).buf = [] then _ else _) = _
  rw [if_neg (show ¬(atEnd data buf fates).buf = [] from hbuf), hwrite]
  cases hfailed : (send [buf.length] fates).failed with
  | true =>
    rw [err_of_failed hfailed, if_pos rfl]
    rfl
  | false => rw [err_of_not_failed hfailed, if_neg Bool.false_ne_true]

/-- A write that fits into the buffer goes there. -/
theorem write_fits (h : p.length ≤ bufSize - buf.length) :
    (atEnd data buf fates).write p = (none, atEnd data (buf ++ p) fates) := by
  have hdone : ¬((atEnd data buf fates).available < p.length ∧ (atEnd data buf fates).err = none) :=
    fun hcon => absurd hcon.1 (Nat.not_lt.mpr h)
  unfold write
  rw [writeLoop, if_neg hdone]
  rfl

/-- The loop of a write ends with an error, or when the rest fits into the buffer. -/
theorem writeLoop_stop (rounds : Nat) {w : Writer}
    (h : w.err ≠ none ∨ p.length ≤ w.available) : writeLoop rounds w p = (w, p) := by
  cases rounds with
  | zero => rfl
  | succ rounds =>
    rw [writeLoop, if_neg]
    rintro ⟨hlong, herr⟩
    rcases h with h | h
    · exact h herr
    · omega

/-- With an empty buffer a long slice is sent as it is. -/
theorem writeLoop_direct (rounds : Nat) (hlong : bufSize < p.length) :
    writeLoop (rounds + 1) (atEnd data [] fates) p =
      (⟨File.reached data p (send [p.length] fates), [], (send [p.length] fates).err⟩,
        p.drop (send [p.length] fates).count) := by
  have hwrite : (atEnd data [] fates).file.write p = _ := File.write_send data p fates
  rw [writeLoop, if_pos ⟨hlong, rfl⟩]
  dsimp only
  rw [hwrite]
  apply writeLoop_stop
  cases hfailed : (send [p.length] fates).failed with
  | true => exact .inl (by rw [err_of_failed hfailed]; exact Option.some_ne_none _)
  | false =>
    refine .inr ?_
    rw [count_of_sent hfailed, List.sum_singleton, List.drop_length]
    exact Nat.zero_le _

/-- With bytes in the buffer, a slice that does not fit fills it, and it is flushed. -/
theorem writeLoop_fill (rounds : Nat) (hbuf : buf ≠ []) (hlong : bufSize - buf.length < p.length) :
    writeLoop (rounds + 1) (atEnd data buf fates) p =
      writeLoop rounds (atEnd data (buf ++ p.take (bufSize - buf.length)) fates).flush.2
        (p.drop (bufSize - buf.length)) := by
  rw [writeLoop, if_pos ⟨hlong, rfl⟩, if_neg (show ¬(atEnd data buf fates).buf = [] from hbuf)]
  rfl

theorem write_err {w w' : Writer} {rest : List UInt8} {e : Err}
    (h : writeLoop 2 w p = (w', rest)) (herr : w'.err = some e) : w.write p = (some e, w') := by
  unfold write
  rw [h]
  simp only [herr]

theorem write_ok {w w' : Writer} {rest : List UInt8} (h : writeLoop 2 w p = (w', rest))
    (herr : w'.err = none) : w.write p = (none, { w' with buf := w'.buf ++ rest }) := by
  unfold write
  rw [h]
  simp only [herr]

/-- A loop that ends with an empty buffer has sent all but the rest. -/
theorem brings_of_loop {w : Writer} {bs rest : List UInt8} {r : Sent}
    (h : writeLoop 2 w p = (⟨File.reached data bs r, [], r.err⟩, rest))
    (hrest : r.failed = false → rest = bs.drop r.count) : Brings (w.write p) data bs r := by
  cases hfailed : r.failed with
  | true =>
    rw [write_err h (err_of_failed hfailed)]
    exact ⟨(err_of_failed hfailed).symm, rfl, fun hcon => by rw [hfailed] at hcon; cases hcon⟩
  | false =>
    rw [write_ok h (err_of_not_failed hfailed)]
    refine ⟨(err_of_not_failed hfailed).symm, rfl, fun _ => ?_⟩
    rw [err_of_not_failed hfailed, hrest hfailed]
    rfl

/-- What is reached in two goes. -/
theorem reached_append (data xs ys : List UInt8) (r : Sent) :
    File.reached (data ++ xs) ys r =
      File.reached data (xs ++ ys) { r with count := xs.length + r.count } := by
  simp only [File.reached, List.take_length_add_append, List.append_assoc]

/-- What a write that fails has reached is in the bytes before it. -/
theorem reached_of_le {xs ys : List UInt8} {r : Sent} (h : r.count ≤ xs.length) :
    File.reached data xs r = File.reached data (xs ++ ys) r := by
  simp only [File.reached, List.take_append_of_le_length h]

/-- **`w.Write(p)`** brings what its blocks bring. -/
theorem write_send (data p : List UInt8) (fates : List Fate) (hbuf : buf.length ≤ bufSize) :
    Brings ((atEnd data buf fates).write p) data (buf ++ p)
      (send (blocks buf.length p.length).1 fates) := by
  unfold blocks
  split
  next hfits =>
    rw [write_fits hfits]
    refine ⟨rfl, ?_, fun _ => ?_⟩
    · show File.mk data data.length fates = File.reached data (buf ++ p) ⟨0, false, fates⟩
      rw [File.reached, List.take_zero, List.append_nil]
    · show atEnd data (buf ++ p) fates = atEnd (data ++ (buf ++ p).take 0) ((buf ++ p).drop 0) fates
      rw [List.take_zero, List.append_nil, List.drop_zero]
  next hlong =>
    rw [Nat.not_le] at hlong
    split
    next hempty =>
      obtain rfl := List.length_eq_zero_iff.mp hempty
      exact brings_of_loop (writeLoop_direct 1 (by simpa using hlong)) fun _ => rfl
    next hne =>
      have hne' : buf ≠ [] := fun h => hne (by rw [h]; rfl)
      -- the buffer is filled, and what does not fit into it is left
      obtain ⟨full, hfull⟩ : ∃ full, full = buf ++ p.take (bufSize - buf.length) := ⟨_, rfl⟩
      obtain ⟨rest, hrest⟩ : ∃ rest, rest = p.drop (bufSize - buf.length) := ⟨_, rfl⟩
      have hbs : buf ++ p = full ++ rest := by
        rw [hfull, hrest, List.append_assoc, List.take_append_drop]
      have hlength : full.length = bufSize := by
        rw [hfull, List.length_append, List.length_take]
        omega
      have hleft : p.length - (bufSize - buf.length) = rest.length := by
        rw [hrest, List.length_drop]
      have hloop : writeLoop 2 (atEnd data buf fates) p = _ := writeLoop_fill 1 hne' hlong
      rw [← hfull, ← hrest, flush_of_ne (by rintro rfl; cases hlength), hlength] at hloop
      rw [hbs]
      dsimp only
      rw [hleft]
      have hcount : (send [bufSize] fates).count ≤ full.length :=
        hlength ▸ count_le_sum [bufSize] fates
      cases hfailed : (send [bufSize] fates).failed with
      | true =>
        rw [hfailed, if_pos rfl, writeLoop_stop 1 (.inl (Option.some_ne_none _))] at hloop
        have hsame : send (if rest.length ≤ bufSize then ([bufSize], rest.length)
            else ([bufSize, rest.length], 0)).1 fates = send [bufSize] fates := by
          split
          · rfl
          · rw [send_cons, if_pos hfailed]
        rw [hsame, write_err hloop rfl]
        exact ⟨(err_of_failed hfailed).symm, reached_of_le hcount,
          fun hcon => by rw [hfailed] at hcon; cases hcon⟩
      | false =>
        have hall : (send [bufSize] fates).count = full.length :=
          (count_of_sent hfailed).trans hlength.symm
        have hstate : (⟨File.reached data full (send [bufSize] fates), [], none⟩ : Writer) =
            atEnd (data ++ full) [] (send [bufSize] fates).fates := by
          rw [File.reached, hall, List.take_length]
          rfl
        rw [hfailed, if_neg Bool.false_ne_true] at hloop
        split
        next hfits =>
          rw [writeLoop_stop 1 (.inr (by simpa [available] using hfits)),
            @reached_of_le _ _ rest _ hcount, ← err_of_not_failed hfailed] at hloop
          refine brings_of_loop hloop fun _ => ?_
          rw [hall, List.drop_left]
        next hover =>
          rw [Nat.not_le] at hover
          dsimp only at hloop
          rw [hstate, writeLoop_direct 0 hover, reached_append] at hloop
          have hboth : send [bufSize, rest.length] fates =
              { send [rest.length] (send [bufSize] fates).fates with
                count := full.length + (send [rest.length] (send [bufSize] fates).fates).count } := by
            rw [send_cons, if_neg (by rw [hfailed]; exact Bool.false_ne_true), hall]
          rw [hboth]
          refine brings_of_loop hloop fun _ => ?_
          dsimp only
          rw [← List.drop_drop, List.drop_left]

/-- What is not sent is in the buffer. -/
theorem sum_blocks {buffered : Nat} (hbuf : buffered ≤ bufSize) (n : Nat) :
    (blocks buffered n).1.sum + (blocks buffered n).2 = buffered + n ∧
      (blocks buffered n).2 ≤ bufSize := by
  unfold blocks
  split
  · exact ⟨Nat.zero_add _, by dsimp only; omega⟩
  · split
    · simp only [List.sum_singleton]
      omega
    · dsimp only
      split
      · simp only [List.sum_singleton]
        omega
      · simp only [List.sum_cons, List.sum_nil]
        omega

theorem take_append_take (xs ys : List UInt8) {n : Nat} (h : n ≤ xs.length) (k : Nat) :
    xs.take n ++ (xs.drop n ++ ys).take k = (xs ++ ys).take (n + k) := by
  rw [List.take_add, List.take_append_of_le_length h, List.drop_append_of_le_length h]

theorem drop_append_drop (xs ys : List UInt8) {n : Nat} (h : n ≤ xs.length) (k : Nat) :
    (xs.drop n ++ ys).drop k = (xs ++ ys).drop (n + k) := by
  rw [← List.drop_drop, List.drop_append_of_le_length h]

variable {out : Option Err × Writer} {bs more : List UInt8} {r r' : Sent}

/-- After a failure nothing more is sent. -/
theorem Brings.extend (h : Brings out data bs r) (hfailed : r.failed = true)
    (hcount : r.count ≤ bs.length) (more : List UInt8) : Brings out data (bs ++ more) r where
  err := h.err
  file := by rw [h.file, reached_of_le hcount]
  going hcon := by rw [hfailed] at hcon; cases hcon

/-- A call on the writer that another has left. -/
theorem Brings.after (hcount : r.count ≤ bs.length)
    (h : Brings out (data ++ bs.take r.count) (bs.drop r.count ++ more) r') :
    Brings out data (bs ++ more) { r' with count := r.count + r'.count } := by
  have htake := take_append_take bs more hcount r'.count
  refine ⟨h.err, ?_, fun hgoing => ?_⟩
  · rw [h.file, File.reached, File.reached, List.append_assoc, htake]
  · rw [h.going hgoing, List.append_assoc, htake, drop_append_drop bs more hcount]

end Writer

end Accumulation.Go
