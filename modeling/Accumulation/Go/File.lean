/-
# Accumulation.Go.File — an open file and the two buffered ends the record log puts on it.

`File` is an `*os.File`: its bytes, the one cursor that `Read`, `Write` and `Seek` share, and the
fates of the coming operations, so that a caller's error paths can be run.  `Writer` and `Reader`
are `bufio.Writer` and `bufio.Reader` with their default buffer of 4096 bytes.

The facts that callers use are stated for a *healthy* file (no operation left that fails): a
`Writer` that has been flushed has overwritten the file at its cursor with exactly what was written
to it (`Writer.Wrote`), and a `Reader` hands out, block by block, exactly the bytes from its
position on (`Reader.rest`).
-/
import Mathlib

namespace Accumulation.Go

/-- The errors the modelled calls return. -/
inductive Err
  /-- `io.EOF` -/
  | eof
  /-- a file operation the operating system refused -/
  | io
  /-- `Encode` or `Decode` refused its argument -/
  | codec
  deriving DecidableEq, Repr

/-- What the operating system does with one file operation. -/
inductive Fate
  | ok
  /-- nothing happens and an error comes back -/
  | fail
  /-- a write stops with an error after `n` bytes; any other operation fails -/
  | short (n : Nat)
  deriving DecidableEq, Repr

/-- An open `*os.File`. -/
structure File where
  data : List UInt8
  /-- the cursor shared by `Read`, `Write` and `Seek` -/
  pos : Nat
  /-- what becomes of the coming operations; once the list is used up they succeed -/
  fates : List Fate
  deriving DecidableEq, Repr

/-- The file's bytes after writing `p` at position `pos`; a gap before `pos` reads as zeros. -/
def overwrite (data : List UInt8) (pos : Nat) (p : List UInt8) : List UInt8 :=
  if p = [] then data
  else data.take pos ++ List.replicate (pos - data.length) 0 ++ p ++ data.drop (pos + p.length)

namespace File

/-- The fate of the next operation. -/
def next (f : File) : Fate × File :=
  match f.fates with
  | [] => (.ok, f)
  | fate :: fates => (fate, { f with fates })

/-- `f.Seek(off, io.SeekStart)` -/
def seek (f : File) (off : Nat) : Option Err × File :=
  match f.next with
  | (.ok, f) => (none, { f with pos := off })
  | (_, f) => (some .io, f)

/-- `f.Truncate(size)`; the cursor stays where it is. -/
def truncate (f : File) (size : Nat) : Option Err × File :=
  match f.next with
  | (.ok, f) =>
    (none, { f with data := f.data.take size ++ List.replicate (size - f.data.length) 0 })
  | (_, f) => (some .io, f)

/-- `f.Stat()`, of which only the size is used. -/
def stat (f : File) : Except Err Nat × File :=
  match f.next with
  | (.ok, f) => (.ok f.data.length, f)
  | (_, f) => (.error .io, f)

/-- `f.ReadAt(data, off)` for `len(data) = n`: all `n` bytes, or an error. -/
def readAt (f : File) (n off : Nat) : Except Err (List UInt8) × File :=
  if n = 0 then (.ok [], f)
  else
    match f.next with
    | (.ok, f) =>
      if off + n ≤ f.data.length then (.ok ((f.data.drop off).take n), f) else (.error .eof, f)
    | (_, f) => (.error .io, f)

/-- `f.Write(p)`: how many bytes went out, and the error that stopped it. -/
def write (f : File) (p : List UInt8) : Nat × Option Err × File :=
  match f.next with
  | (.ok, f) =>
    (p.length, none, { f with data := overwrite f.data f.pos p, pos := f.pos + p.length })
  | (.fail, f) => (0, some .io, f)
  | (.short n, f) =>
    let q := p.take n
    (q.length, some .io, { f with data := overwrite f.data f.pos q, pos := f.pos + q.length })

/-- `f.Read(p)` for `len(p) = n`: a read is filled while data remains. -/
def read (f : File) (n : Nat) : Except Err (List UInt8) × File :=
  if n = 0 then (.ok [], f)
  else
    match f.next with
    | (.ok, f) =>
      let got := (f.data.drop f.pos).take n
      if got = [] then (.error .eof, f) else (.ok got, { f with pos := f.pos + got.length })
    | (_, f) => (.error .io, f)

variable (data p : List UInt8) (pos n : Nat)

@[simp]
theorem seek_healthy : (File.mk data pos []).seek n = (none, ⟨data, n, []⟩) := rfl

@[simp]
theorem truncate_healthy :
    (File.mk data pos []).truncate 0 = (none, ⟨[], pos, []⟩) := by
  simp [truncate, next]

@[simp]
theorem stat_healthy : (File.mk data pos []).stat = (.ok data.length, ⟨data, pos, []⟩) := rfl

@[simp]
theorem write_healthy : (File.mk data pos []).write p =
    (p.length, none, ⟨overwrite data pos p, pos + p.length, []⟩) := rfl

/-- Reading everything from `off` on. -/
theorem readAt_healthy (hoff : n ≤ data.length) :
    (File.mk data pos []).readAt (data.length - n) n = (.ok (data.drop n), ⟨data, pos, []⟩) := by
  unfold readAt
  split
  · rename_i h
    rw [List.drop_eq_nil_of_le (by omega)]
  · simp only [next]
    rw [if_pos (by omega), List.take_of_length_le (by rw [List.length_drop])]

/-- At the end of the file there is nothing to read. -/
theorem read_healthy_eof (hn : 0 < n) (hpos : data.length ≤ pos) :
    (File.mk data pos []).read n = (.error .eof, ⟨data, pos, []⟩) := by
  have hdrop : data.drop pos = [] := List.drop_eq_nil_of_le hpos
  simp [read, next, hdrop, show n ≠ 0 by omega]

/-- Before the end of the file a read takes as much as there is, up to what was asked for. -/
theorem read_healthy (hn : 0 < n) (hpos : pos < data.length) :
    (File.mk data pos []).read n =
      (.ok ((data.drop pos).take n), ⟨data, pos + ((data.drop pos).take n).length, []⟩) := by
  have hgot : (data.drop pos).take n ≠ [] := by
    intro h
    have hlen := congrArg List.length h
    rw [List.length_take, List.length_drop, List.length_nil] at hlen
    omega
  unfold read
  rw [if_neg (by omega)]
  simp only [next]
  rw [if_neg hgot]

end File

/-! ## Overwriting -/

@[simp]
theorem overwrite_nil (data : List UInt8) (pos : Nat) : overwrite data pos [] = data := rfl

/-- Inside the file there is no gap to fill. -/
theorem overwrite_eq (data p : List UInt8) (pos : Nat) (hpos : pos ≤ data.length) :
    overwrite data pos p = data.take pos ++ p ++ data.drop (pos + p.length) := by
  unfold overwrite
  split
  · rename_i h
    subst h
    simp
  · rw [Nat.sub_eq_zero_of_le hpos]
    simp

/-- Writing at the end appends. -/
@[simp]
theorem overwrite_end (data p : List UInt8) : overwrite data data.length p = data ++ p := by
  rw [overwrite_eq _ _ _ le_rfl]
  simp

theorem length_overwrite (data p : List UInt8) (pos : Nat) (hpos : pos ≤ data.length) :
    (overwrite data pos p).length = max data.length (pos + p.length) := by
  rw [overwrite_eq _ _ _ hpos]
  simp only [List.length_append, List.length_take, List.length_drop]
  omega

/-- Two writes in a row are one write. -/
theorem overwrite_append (data p q : List UInt8) (pos : Nat) (hpos : pos ≤ data.length) :
    overwrite (overwrite data pos p) (pos + p.length) q = overwrite data pos (p ++ q) := by
  have hlen : pos + p.length ≤ (overwrite data pos p).length := by
    rw [length_overwrite _ _ _ hpos]
    exact le_max_right _ _
  rw [overwrite_eq _ _ _ hlen, overwrite_eq _ _ _ hpos, overwrite_eq _ _ _ hpos]
  have htake : (data.take pos ++ p).length = pos + p.length := by
    rw [List.length_append, List.length_take]
    omega
  rw [List.take_append_of_le_length (by omega), List.take_of_length_le (by omega),
    List.drop_append, List.drop_eq_nil_of_le (by omega), htake, List.nil_append, List.drop_drop,
    List.length_append]
  rw [show pos + p.length + (pos + p.length + q.length - (pos + p.length))
    = pos + (p.length + q.length) by omega]
  simp only [List.append_assoc]

/-! ## `bufio.Writer` -/

/-- The default size of the buffers of package `bufio`. -/
def bufSize : Nat := 4096

/-- A `bufio.Writer` on a file. -/
structure Writer where
  file : File
  /-- `b.buf[0:b.n]` -/
  buf : List UInt8
  /-- the sticky error -/
  err : Option Err

namespace Writer

/-- `bufio.NewWriter(f)` -/
def new (f : File) : Writer := ⟨f, [], none⟩

def available (w : Writer) : Nat := bufSize - w.buf.length

/-- `w.Flush()` -/
def flush (w : Writer) : Option Err × Writer :=
  match w.err with
  | some e => (some e, w)
  | none =>
    if w.buf = [] then (none, w)
    else
      match w.file.write w.buf with
      | (n, some e, file) => (some e, ⟨file, w.buf.drop n, some e⟩)
      | (_, none, file) => (none, ⟨file, [], none⟩)

/-- The loop of `w.Write(p)`: while `p` does not fit, send it out directly when the buffer is empty
and fill and flush the buffer otherwise.  Returns what is left of `p`. -/
def writeLoop : Nat → Writer → List UInt8 → Writer × List UInt8
  | 0, w, p => (w, p)
  | rounds + 1, w, p =>
    if w.available < p.length ∧ w.err = none then
      if w.buf = [] then
        match w.file.write p with
        | (n, err, file) => writeLoop rounds { w with file, err } (p.drop n)
      else
        let full := { w with buf := w.buf ++ p.take w.available }
        writeLoop rounds full.flush.2 (p.drop w.available)
    else (w, p)

/-- `w.Write(p)`.  Its loop ends within two rounds (`writeLoop_done`). -/
def write (w : Writer) (p : List UInt8) : Option Err × Writer :=
  let (w, p) := writeLoop 2 w p
  match w.err with
  | some e => (some e, w)
  | none => (none, { w with buf := w.buf ++ p })

/-- **The write loop is done after two rounds**: what is left fits into the buffer, or the writer
has failed. -/
theorem writeLoop_done (w : Writer) (p : List UInt8) :
    ¬ ((writeLoop 2 w p).1.available < (writeLoop 2 w p).2.length ∧
      (writeLoop 2 w p).1.err = none) := by
  -- from an empty buffer one direct write is enough
  have hempty : ∀ (u : Writer) (q : List UInt8), u.buf = [] →
      ¬ ((writeLoop 1 u q).1.available < (writeLoop 1 u q).2.length ∧
        (writeLoop 1 u q).1.err = none) := by
    intro u q hu
    rw [writeLoop]
    split
    · simp only [writeLoop]
      rintro ⟨hfit, herr⟩
      simp only [File.write] at hfit herr
      split at herr <;> simp_all
    · assumption
  by_cases hfit : w.available < p.length ∧ w.err = none
  · rw [writeLoop, if_pos hfit]
    by_cases hbuf : w.buf = []
    · rw [if_pos hbuf]
      exact hempty _ _ hbuf
    · rw [if_neg hbuf]
      -- after the flush the buffer is empty, or the error stops the loop
      generalize hfull : ({ w with buf := w.buf ++ p.take w.available } : Writer) = full
      have hflush : full.flush.2.buf = [] ∨ full.flush.2.err ≠ none := by
        have herr : full.err = none := by rw [← hfull]; exact hfit.2
        have hne : full.buf ≠ [] := by rw [← hfull]; simp [hbuf]
        unfold flush
        rw [herr]
        simp only [if_neg hne]
        split <;> simp
      rcases hflush with h | h
      · exact hempty _ _ h
      · rw [writeLoop, if_neg (by simp [h])]
        simp [h]
  · rw [writeLoop, if_neg hfit]
    exact hfit

/-- The writer has been given `bs` since it was opened on a healthy file `⟨data, pos, []⟩`: some of
it is in the file, the rest in the buffer. -/
def Wrote (w : Writer) (data : List UInt8) (pos : Nat) (bs : List UInt8) : Prop :=
  ∃ out, bs = out ++ w.buf ∧ w.file = ⟨overwrite data pos out, pos + out.length, []⟩ ∧ w.err = none

theorem new_wrote (data : List UInt8) (pos : Nat) : (new ⟨data, pos, []⟩).Wrote data pos [] :=
  ⟨[], rfl, rfl, rfl⟩

variable {w : Writer} {data bs : List UInt8} {pos : Nat}

/-- Flushing puts everything into the file. -/
theorem Wrote.flush (hpos : pos ≤ data.length) (h : w.Wrote data pos bs) :
    w.flush = (none, ⟨⟨overwrite data pos bs, pos + bs.length, []⟩, [], none⟩) := by
  obtain ⟨out, hbs, hfile, herr⟩ := h
  obtain ⟨file, buf, err⟩ := w
  simp only at hbs hfile herr
  subst hbs hfile herr
  unfold Writer.flush
  by_cases hbuf : buf = []
  · subst hbuf
    simp
  · simp only [if_neg hbuf, File.write_healthy]
    rw [overwrite_append _ _ _ _ hpos, List.length_append, Nat.add_assoc]

/-- A round of the write loop moves bytes from `p` to the writer and loses none. -/
theorem Wrote.writeLoop (hpos : pos ≤ data.length) (rounds : Nat) {p : List UInt8}
    (h : w.Wrote data pos bs) :
    ∃ sent, p = sent ++ (Writer.writeLoop rounds w p).2 ∧
      (Writer.writeLoop rounds w p).1.Wrote data pos (bs ++ sent) := by
  induction rounds generalizing w p bs with
  | zero => exact ⟨[], rfl, by simpa [Writer.writeLoop] using h⟩
  | succ rounds ih =>
    rw [Writer.writeLoop]
    split
    · split
      · rename_i hbuf
        obtain ⟨out, hbs, hfile, herr⟩ := h
        rw [hfile, File.write_healthy]
        simp only
        have hall : Writer.Wrote ⟨⟨overwrite (overwrite data pos out) (pos + out.length) p,
            pos + out.length + p.length, []⟩, w.buf, none⟩ data pos (bs ++ p) := by
          refine ⟨out ++ p, by simp [hbs, hbuf], ?_, rfl⟩
          rw [overwrite_append _ _ _ _ hpos, List.length_append, Nat.add_assoc]
        obtain ⟨sent, hsent, hwrote⟩ := ih (p := p.drop p.length) hall
        refine ⟨p ++ sent, ?_, by simpa [List.append_assoc] using hwrote⟩
        rw [List.append_assoc, ← hsent, List.drop_length, List.append_nil]
      · obtain ⟨out, hbs, hfile, herr⟩ := h
        have hfull : Writer.Wrote { w with buf := w.buf ++ p.take w.available } data pos
            (bs ++ p.take w.available) := ⟨out, by simp [hbs], hfile, herr⟩
        simp only
        rw [hfull.flush hpos]
        have hempty : Writer.Wrote ⟨⟨overwrite data pos (bs ++ p.take w.available),
            pos + (bs ++ p.take w.available).length, []⟩, [], none⟩ data pos
            (bs ++ p.take w.available) := ⟨_, (List.append_nil _).symm, rfl, rfl⟩
        obtain ⟨sent, hsent, hwrote⟩ := ih (p := p.drop w.available) hempty
        refine ⟨p.take w.available ++ sent, ?_, by simpa [List.append_assoc] using hwrote⟩
        rw [List.append_assoc, ← hsent, List.take_append_drop]
    · exact ⟨[], rfl, by simpa using h⟩

/-- **Writing appends to what the writer has been given.** -/
theorem Wrote.write (hpos : pos ≤ data.length) (p : List UInt8) (h : w.Wrote data pos bs) :
    (w.write p).1 = none ∧ (w.write p).2.Wrote data pos (bs ++ p) := by
  obtain ⟨sent, hsent, out, hbs, hfile, herr⟩ := h.writeLoop hpos 2 (p := p)
  unfold Writer.write
  simp only [herr, true_and]
  refine ⟨out, ?_, hfile, rfl⟩
  simp only
  rw [← List.append_assoc, ← hbs, List.append_assoc, ← hsent]

end Writer

/-! ## `bufio.Reader` -/

/-- A `bufio.Reader` on a file.  An error of the file is handed on at once, since `os.File.Read`
returns bytes or an error but never both, so none is ever pending. -/
structure Reader where
  file : File
  /-- `b.buf[b.r:b.w]` -/
  buf : List UInt8

namespace Reader

/-- `bufio.NewReader(f)` -/
def new (f : File) : Reader := ⟨f, []⟩

/-- `r.Buffered()` -/
def buffered (r : Reader) : Nat := r.buf.length

/-- `r.Read(p)` for `len(p) = n`: one read of the underlying file at most. -/
def read (r : Reader) (n : Nat) : Except Err (List UInt8) × Reader :=
  if n = 0 then (.ok [], r)
  else if r.buf = [] then
    if bufSize ≤ n then
      match r.file.read n with
      | (got, file) => (got, { r with file })
    else
      match r.file.read bufSize with
      | (.error e, file) => (.error e, { r with file })
      | (.ok block, file) => (.ok (block.take n), ⟨file, block.drop n⟩)
  else (.ok (r.buf.take n), { r with buf := r.buf.drop n })

/-- The bytes the reader has still to hand out. -/
def rest (r : Reader) : List UInt8 := r.buf ++ r.file.data.drop r.file.pos

/-- The reader works on the bytes `data` of a healthy file, whose cursor is not behind their end. -/
def On (r : Reader) (data : List UInt8) : Prop :=
  r.file.data = data ∧ r.file.fates = [] ∧ r.file.pos ≤ data.length

theorem new_on (data : List UInt8) (pos : Nat) (hpos : pos ≤ data.length) :
    (new ⟨data, pos, []⟩).On data :=
  ⟨rfl, rfl, hpos⟩

@[simp]
theorem new_rest (data : List UInt8) (pos : Nat) :
    (new ⟨data, pos, []⟩).rest = data.drop pos := rfl

variable {r : Reader} {data : List UInt8}

/-- With bytes in the buffer a read takes them from there. -/
theorem read_buffered (n : Nat) (hbuf : r.buf ≠ []) :
    r.read n = (.ok (r.buf.take n), { r with buf := r.buf.drop n }) := by
  unfold read
  split
  · rename_i hn
    subst hn
    simp
  · rfl

theorem read_zero : r.read 0 = (.ok [], r) := rfl

/-- Reading as much as is buffered empties the buffer and leaves the file alone. -/
theorem read_all_buffered (r : Reader) :
    ∃ r', r.read r.buf.length = (.ok r.buf, r') ∧ r'.buf = [] ∧ r'.file = r.file := by
  by_cases hb : r.buf = []
  · exact ⟨r, by simp [hb, read_zero], hb, rfl⟩
  · refine ⟨{ r with buf := r.buf.drop r.buf.length }, ?_, List.drop_length, rfl⟩
    rw [read_buffered _ hb, List.take_length]

/-- With an empty buffer a read of a healthy file takes the next `n` bytes, or what is left. -/
theorem read_block (hon : r.On data) (n : Nat) (hn : 0 < n) (hbuf : r.buf = [])
    (hrest : r.rest ≠ []) :
    ∃ r', r.read n = (.ok (r.rest.take n), r') ∧ r'.rest = r.rest.drop n ∧ r'.On data := by
  obtain ⟨⟨bytes, pos, fates⟩, buf⟩ := r
  obtain ⟨hdata, hfates, -⟩ := hon
  simp only at hdata hfates hbuf
  subst hdata hfates hbuf
  have hpos : pos < bytes.length := by
    by_contra h
    exact hrest (by simpa [rest] using Nat.le_of_not_lt h)
  -- what a block read of size `k` leaves behind it
  have hback : ∀ k, n ≤ k → ((bytes.drop pos).take k).drop n ++
      bytes.drop (pos + ((bytes.drop pos).take k).length) = (bytes.drop pos).drop n := by
    intro k hk
    rw [← List.drop_drop, List.drop_take, List.length_take]
    by_cases hlen : k ≤ (bytes.drop pos).length
    · rw [Nat.min_eq_left hlen, ← Nat.add_sub_cancel' hk, ← List.drop_drop, Nat.add_sub_cancel_left,
        List.take_append_drop]
    · rw [Nat.min_eq_right (by omega), List.drop_length, List.append_nil,
        List.take_of_length_le (by rw [List.length_drop]; omega)]
  -- and where it leaves the cursor
  have hcursor : ∀ k, pos + ((bytes.drop pos).take k).length ≤ bytes.length := by
    intro k
    rw [List.length_take, List.length_drop]
    omega
  simp only [rest, List.nil_append, On, read]
  rw [if_neg (by omega), if_pos trivial]
  split
  · rw [File.read_healthy _ _ _ hn hpos]
    refine ⟨_, rfl, ?_, rfl, rfl, hcursor n⟩
    simpa using hback n le_rfl
  · rename_i hsmall
    rw [File.read_healthy _ _ _ (by decide) hpos]
    simp only [List.take_take, Nat.min_eq_left (show n ≤ bufSize by omega)]
    exact ⟨_, rfl, hback bufSize (by omega), rfl, rfl, hcursor bufSize⟩

/-- What such a read leaves in the buffer: the rest of a block, unless it asks for a block or more. -/
theorem read_block_buffered (hon : r.On data) (n : Nat) (hn : 0 < n) (hbuf : r.buf = [])
    (hrest : r.rest ≠ []) : (r.read n).2.buffered =
      if bufSize ≤ n then 0 else min bufSize r.rest.length - n := by
  obtain ⟨⟨bytes, pos, fates⟩, buf⟩ := r
  obtain ⟨hdata, hfates, -⟩ := hon
  simp only at hdata hfates hbuf
  subst hdata hfates hbuf
  have hpos : pos < bytes.length := by
    by_contra h
    exact hrest (by simpa [rest] using Nat.le_of_not_lt h)
  simp only [rest, List.nil_append, read]
  rw [if_neg (by omega), if_pos trivial]
  split
  · rw [File.read_healthy _ _ _ hn hpos]
    rfl
  · rw [File.read_healthy _ _ _ (by decide) hpos]
    simp only [buffered, List.length_drop, List.length_take]

/-- With nothing buffered and nothing left in the file a read reports the end of the file. -/
theorem read_eof (hon : r.On data) (n : Nat) (hn : 0 < n) (hrest : r.rest = []) :
    r.read n = (.error .eof, r) := by
  obtain ⟨⟨bytes, pos, fates⟩, buf⟩ := r
  obtain ⟨hdata, hfates, -⟩ := hon
  simp only at hdata hfates
  subst hdata hfates
  obtain ⟨rfl, hdrop⟩ : buf = [] ∧ bytes.length ≤ pos := by simpa [rest] using hrest
  simp only [read]
  rw [if_neg (by omega), if_pos trivial]
  split
  · rw [File.read_healthy_eof _ _ _ hn hdrop]
  · rw [File.read_healthy_eof _ _ _ (by decide) hdrop]

end Reader

end Accumulation.Go
