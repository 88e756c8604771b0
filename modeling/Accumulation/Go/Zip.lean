/-
# Accumulation.Go.Zip — a `zip.Writer` on a file.

How an entry is encoded is left open: a `ZipLayout` says what the writer gives to its buffer on each
call, and a `ZipFormat` has a reader that gets the entries back from an archive that is complete
(`unzip_bytes`).  What matters here is the order.  An entry is ended by the next `CreateHeader` or by
`Close`; what has been written is in the buffer or in the file; and only `Close` writes the directory
and brings out what the buffer still holds.  As long as no call has returned an error, the writer
`Holds` its entries, and then `Close` makes a complete archive of them (`Holds.close`).
-/
import Accumulation.Go.Blocks
import Accumulation.Go.Path

namespace Accumulation.Go

/-! ## The archive -/

/-- What is read back from an archive. -/
structure ZipFile where
  name : Bytes
  content : Bytes
  deriving DecidableEq, Repr

structure ZipEntry extends ZipFile where
  modTime : Int
  deriving DecidableEq, Repr

/-- What the writer gives to its buffer, write by write. -/
structure ZipLayout where
  /-- `CreateHeader` -/
  header : Bytes → Int → List Bytes
  /-- `Write`, for a content that is copied -/
  body : Bytes → List Bytes
  /-- the end of an entry -/
  finish : ZipEntry → List Bytes
  /-- `Close`, behind the last entry -/
  directory : List ZipEntry → List Bytes

namespace ZipLayout

def entry (layout : ZipLayout) (e : ZipEntry) : List Bytes :=
  layout.header e.name e.modTime ++ layout.body e.content ++ layout.finish e

/-- The complete archive. -/
def bytes (layout : ZipLayout) (entries : List ZipEntry) : Bytes :=
  (entries.flatMap layout.entry ++ layout.directory entries).flatten

end ZipLayout

structure ZipFormat extends ZipLayout where
  /-- `zip.NewReader` and reading all files -/
  unzip : Bytes → Option (List ZipFile)
  unzip_bytes : ∀ entries, unzip (toZipLayout.bytes entries) = some (entries.map ZipEntry.toZipFile)

/-! ## The writer -/

namespace Writer

/-- One write after another, until one fails. -/
def writeAll : List Bytes → Writer → Option Err × Writer
  | [], w => (none, w)
  | p :: ps, w =>
    match w.write p with
    | (some e, w) => (some e, w)
    | (none, w) => writeAll ps w

end Writer

/-- A `zip.Writer`. -/
structure ZipWriter where
  /-- the buffer and the file below it -/
  out : Writer
  /-- `zw.dir`; the last entry is open -/
  entries : List ZipEntry

namespace ZipWriter

variable (layout : ZipLayout)

/-- `zip.NewWriter(f)` -/
def new (f : File) : ZipWriter := ⟨Writer.new f, []⟩

/-- What ends the open entry. -/
def ending (entries : List ZipEntry) : List Bytes :=
  match entries.getLast? with
  | none => []
  | some e => layout.finish e

/-- `zw.CreateHeader(fh)` -/
def createHeader (name : Bytes) (modTime : Int) (zw : ZipWriter) : Option Err × ZipWriter :=
  match zw.out.writeAll (ending layout zw.entries) with
  | (some e, out) => (some e, ⟨out, zw.entries⟩)
  | (none, out) =>
    let (err, out) := out.writeAll (layout.header name modTime)
    (err, ⟨out, zw.entries ++ [⟨⟨name, []⟩, modTime⟩]⟩)

/-- The open entry has this content. -/
def setContent (content : Bytes) (entries : List ZipEntry) : List ZipEntry :=
  match entries.getLast? with
  | none => []
  | some e => entries.dropLast ++ [{ e with content }]

/-- `io.Copy(w, fr)`, as far as the content could be read. -/
def copy (content : Bytes) (zw : ZipWriter) : Option Err × ZipWriter :=
  let (err, out) := zw.out.writeAll (layout.body content)
  (err, ⟨out, setContent content zw.entries⟩)

/-- How many bytes of the archive are in the file. -/
def flushed (zw : ZipWriter) : Nat := zw.out.file.data.length

/-- `zw.Close()`, and what the file holds then.  Everything goes out or, if a write fails, the first
`fault` bytes of it; a writer that has failed before writes nothing more. -/
def close (fault : Option Nat) (zw : ZipWriter) : Option Err × Bytes :=
  let data := zw.out.file.data
  let rest := zw.out.buf ++ (ending layout zw.entries ++ layout.directory zw.entries).flatten
  match zw.out.err, fault with
  | some e, _ => (some e, data)
  | none, some n => (some .io, data ++ rest.take n)
  | none, none => (none, data ++ rest)

end ZipWriter

/-! ## What a writer holds -/

namespace Writer

/-- How many bytes a new writer has brought to its file, and how many it has in its buffer, after
writes of these sizes. -/
def brought (sizes : List Nat) : Nat × Nat :=
  sizes.foldl (fun (sent, buffered) n =>
    (sent + (blocks buffered n).1.sum, (blocks buffered n).2)) (0, 0)

theorem brought_concat (sizes : List Nat) (n : Nat) :
    brought (sizes ++ [n]) = ((brought sizes).1 + (blocks (brought sizes).2 n).1.sum,
      (blocks (brought sizes).2 n).2) := by
  rw [brought, List.foldl_append]
  rfl

/-- These writes have been made and nothing has failed: the bytes are in the file or in the
buffer. -/
def Holds (w : Writer) (ps : List Bytes) : Prop :=
  ∃ data buf fates, w = atEnd data buf fates ∧ buf.length ≤ bufSize ∧ data ++ buf = ps.flatten ∧
    (data.length, buf.length) = brought (ps.map List.length)

theorem new_holds (fates : List Fate) : (new ⟨[], 0, fates⟩).Holds [] :=
  ⟨[], [], fates, rfl, Nat.zero_le _, rfl, rfl⟩

/-- A write that returns nil. -/
theorem Holds.write {w w' : Writer} {ps : List Bytes} {p : Bytes} (h : w.Holds ps)
    (hwrite : w.write p = (none, w')) : w'.Holds (ps ++ [p]) := by
  rcases h with ⟨data, buf, fates, rfl, hbuf, hbytes, hsizes⟩
  have hsend := write_send data p fates hbuf
  rw [hwrite] at hsend
  have hgoing : (send (blocks buf.length p.length).1 fates).failed = false := by
    by_contra hfailed
    have herr := hsend.err
    rw [err_of_failed (by simpa using hfailed)] at herr
    nomatch herr
  -- what the blocks have not brought out fits into the buffer
  have hcount := count_of_sent hgoing
  have hsum := sum_blocks hbuf p.length
  have hdata : data.length = _ := congrArg Prod.fst hsizes
  have hbuffered : buf.length = _ := congrArg Prod.snd hsizes
  refine ⟨_, _, _, hsend.going hgoing, ?_, ?_, ?_⟩
  · rw [List.length_drop, List.length_append, hcount]
    omega
  · rw [List.append_assoc, List.take_append_drop, ← List.append_assoc, hbytes]
    simp
  · rw [List.map_append, List.map_singleton, brought_concat, ← hdata, ← hbuffered, hcount]
    simp only [List.length_append, List.length_take, List.length_drop]
    exact Prod.ext (by omega) (by dsimp only; omega)

theorem Holds.writeAll {w w' : Writer} {ps ps' : List Bytes} (h : w.Holds ps)
    (hwrite : w.writeAll ps' = (none, w')) : w'.Holds (ps ++ ps') := by
  induction ps' generalizing w ps with
  | nil =>
    obtain rfl := (Prod.mk.inj hwrite).2
    rwa [List.append_nil]
  | cons p ps' ih =>
    rw [Writer.writeAll] at hwrite
    split at hwrite
    · nomatch hwrite
    · rename_i hp
      have hrest := ih (h.write hp) hwrite
      rwa [List.append_assoc] at hrest

/-- Without a write that fails there is no error. -/
theorem Holds.write_ok {w : Writer} {ps : List Bytes} (h : w.Holds ps)
    (hfates : ∀ fate ∈ w.file.fates, fate = .ok) (p : Bytes) :
    ∃ w', w.write p = (none, w') ∧ ∀ fate ∈ w'.file.fates, fate = .ok := by
  rcases h with ⟨data, buf, fates, rfl, hbuf, -⟩
  have hsend := write_send data p fates hbuf
  have hok := send_ok (blocks buf.length p.length).1 hfates
  rcases hw : (atEnd data buf fates).write p with ⟨err, w'⟩
  rw [hw] at hsend
  refine ⟨w', ?_, ?_⟩
  · rw [show err = none from hsend.err.trans (err_of_not_failed hok.1)]
  · rw [show w'.file.fates = _ from congrArg File.fates hsend.file]
    exact hok.2

theorem Holds.writeAll_ok {w : Writer} {ps : List Bytes} (h : w.Holds ps)
    (hfates : ∀ fate ∈ w.file.fates, fate = .ok) (ps' : List Bytes) :
    ∃ w', w.writeAll ps' = (none, w') ∧ ∀ fate ∈ w'.file.fates, fate = .ok := by
  induction ps' generalizing w ps with
  | nil => exact ⟨w, rfl, hfates⟩
  | cons p ps' ih =>
    rcases h.write_ok hfates p with ⟨u, hp, hfates'⟩
    rcases ih (h.write hp) hfates' with ⟨w', hps, hlast⟩
    refine ⟨w', ?_, hlast⟩
    rw [Writer.writeAll, hp]
    exact hps

end Writer

namespace ZipWriter

variable {layout : ZipLayout} {zw zw' : ZipWriter}

/-- Nothing has failed, and what has been written are the entries, but for the end of the last. -/
def Holds (layout : ZipLayout) (zw : ZipWriter) : Prop :=
  ∃ ps, zw.out.Holds ps ∧ ps ++ ending layout zw.entries = zw.entries.flatMap layout.entry

theorem new_holds (layout : ZipLayout) (fates : List Fate) : (new ⟨[], 0, fates⟩).Holds layout :=
  ⟨[], Writer.new_holds fates, rfl⟩

/-- The first of the two calls that put a file into the archive, where it returns nil. -/
theorem createHeader_nil {name : Bytes} {modTime : Int}
    (h : zw.createHeader layout name modTime = (none, zw')) :
    zw'.entries = zw.entries ++ [⟨⟨name, []⟩, modTime⟩] ∧
      ∃ out, zw.out.writeAll (ending layout zw.entries) = (none, out) ∧
        out.writeAll (layout.header name modTime) = (none, zw'.out) := by
  rw [createHeader] at h
  split at h
  · nomatch h
  · rename_i out hend
    rcases hw : out.writeAll (layout.header name modTime) with ⟨err, out'⟩
    rw [hw] at h
    obtain ⟨rfl, rfl⟩ := Prod.mk.inj h
    exact ⟨rfl, out, hend, hw⟩

/-- The second one. -/
theorem copy_nil {content : Bytes} (h : zw.copy layout content = (none, zw')) :
    zw'.entries = setContent content zw.entries ∧
      zw.out.writeAll (layout.body content) = (none, zw'.out) := by
  rw [copy] at h
  rcases hw : zw.out.writeAll (layout.body content) with ⟨err, out⟩
  rw [hw] at h
  obtain ⟨rfl, rfl⟩ := Prod.mk.inj h
  exact ⟨rfl, rfl⟩

@[simp]
theorem setContent_concat (content : Bytes) (entries : List ZipEntry) (e : ZipEntry) :
    setContent content (entries ++ [e]) = entries ++ [{ e with content }] := by
  simp [setContent]

variable {name content : Bytes} {modTime : Int} {zw'' : ZipWriter}

/-- The new entry. -/
theorem copied_entries (hheader : zw.createHeader layout name modTime = (none, zw'))
    (hcopy : zw'.copy layout content = (none, zw'')) :
    zw''.entries = zw.entries ++ [⟨⟨name, content⟩, modTime⟩] := by
  rw [(copy_nil hcopy).1, (createHeader_nil hheader).1, setContent_concat]

/-- **A file put into the archive**, header and content. -/
theorem Holds.copied (h : zw.Holds layout)
    (hheader : zw.createHeader layout name modTime = (none, zw'))
    (hcopy : zw'.copy layout content = (none, zw'')) : zw''.Holds layout := by
  rcases h with ⟨ps, hps, hentries⟩
  rcases (createHeader_nil hheader).2 with ⟨out, hend, hhead⟩
  have hheld := ((hps.writeAll hend).writeAll hhead).writeAll (copy_nil hcopy).2
  refine ⟨_, hheld, ?_⟩
  rw [hentries, copied_entries hheader hcopy]
  simp [ending, ZipLayout.entry]

/-- Without a write that fails, the file gets into the archive. -/
theorem Holds.copied_ok (h : zw.Holds layout) (hfates : ∀ fate ∈ zw.out.file.fates, fate = .ok)
    (name content : Bytes) (modTime : Int) :
    ∃ zw' zw'', zw.createHeader layout name modTime = (none, zw') ∧
      zw'.copy layout content = (none, zw'') ∧ ∀ fate ∈ zw''.out.file.fates, fate = .ok := by
  rcases h with ⟨ps, hps, -⟩
  rcases hps.writeAll_ok hfates (ending layout zw.entries) with ⟨out₁, hend, hfates₁⟩
  have hout₁ := hps.writeAll hend
  rcases hout₁.writeAll_ok hfates₁ (layout.header name modTime) with ⟨out₂, hhead, hfates₂⟩
  have hout₂ := hout₁.writeAll hhead
  rcases hout₂.writeAll_ok hfates₂ (layout.body content) with ⟨out₃, hbody, hfates₃⟩
  let entries := zw.entries ++ [⟨⟨name, []⟩, modTime⟩]
  refine ⟨⟨out₂, entries⟩, ⟨out₃, setContent content entries⟩, ?_, ?_, hfates₃⟩
  · rw [createHeader, hend]
    dsimp only
    rw [hhead]
  · rw [copy]
    dsimp only
    rw [hbody]

/-- **`Close` makes a complete archive** of what the writer holds. -/
theorem Holds.close {fault : Option Nat} (h : zw.Holds layout) :
    zw.close layout fault =
      match fault with
      | none => (none, layout.bytes zw.entries)
      | some n => (some .io, (layout.bytes zw.entries).take (zw.flushed + n)) := by
  rcases h with ⟨ps, ⟨data, buf, fates, hout, -, hbytes, -⟩, hentries⟩
  have hall : layout.bytes zw.entries = data ++
      (buf ++ (ending layout zw.entries ++ layout.directory zw.entries).flatten) := by
    rw [ZipLayout.bytes, ← hentries]
    simp only [List.flatten_append, ← hbytes, List.append_assoc]
  unfold ZipWriter.close flushed
  rw [hall, hout]
  cases fault with
  | none => rfl
  | some n =>
    show _ = (some Err.io, (data ++ _).take (data.length + n))
    rw [List.take_length_add_append]
    rfl

/-- The writes that put these entries into an archive, up to `Close`. -/
def unended (layout : ZipLayout) (entries : List ZipEntry) : List Bytes :=
  (entries.flatMap layout.entry).rdrop (ending layout entries).length

/-- **How much is in the file** goes by the sizes of the writes. -/
theorem Holds.flushed_eq (h : zw.Holds layout) :
    zw.flushed = (Writer.brought ((unended layout zw.entries).map List.length)).1 := by
  rcases h with ⟨ps, ⟨data, buf, fates, hout, -, -, hsizes⟩, hentries⟩
  rw [unended, ← hentries, List.rdrop_append_length, ← hsizes, flushed, hout]
  rfl

end ZipWriter

/-! ## A format -/

namespace ZipFormat

/-- A string in which every byte is marked, so that its end can be told. -/
def marked (s : Bytes) : Bytes := s.flatMap fun b => [1, b]

def readMarked : Bytes → Option (Bytes × Bytes)
  | 0 :: rest => some ([], rest)
  | 1 :: b :: rest => (readMarked rest).map fun (s, rest) => (b :: s, rest)
  | _ => none

/-- Read entries up to the directory. -/
def readEntries : Nat → Bytes → Option (List ZipFile)
  | _, 2 :: _ => some []
  | 0, _ => none
  | n + 1, bs => do
    let (name, bs) ← readMarked (bs.drop 36)
    let (content, bs) ← readMarked bs
    let files ← readEntries n (bs.drop 14)
    return ⟨name, content⟩ :: files

theorem readMarked_marked (s rest : Bytes) :
    readMarked (marked s ++ 0 :: rest) = some (s, rest) := by
  induction s with
  | nil => rfl
  | cons b s ih =>
    show (readMarked (marked s ++ 0 :: rest)).map _ = _
    rw [ih]
    rfl

/-- A format with marked names and contents, padded to the sizes that `archive/zip` writes for a name
of two bytes and a content of one. -/
def plainLayout : ZipLayout where
  header name _ := [List.replicate 36 0 ++ marked name ++ [0]]
  body content := [marked content]
  finish _ := [0 :: List.replicate 14 0]
  directory entries := [2 :: List.replicate (57 * entries.length + 21) 0]

theorem readEntries_directory (n : Nat) (rest : Bytes) : readEntries n (2 :: rest) = some [] := by
  cases n with
  | zero => rfl
  | succ n => rfl

theorem readEntries_entry (n : Nat) (name content rest : Bytes) :
    readEntries (n + 1) (List.replicate 36 0 ++ (marked name ++ 0 :: (marked content ++
      0 :: (List.replicate 14 0 ++ rest)))) =
      (readEntries n rest).map (⟨name, content⟩ :: ·) := by
  rw [readEntries, List.drop_left' (List.length_replicate)]
  · rw [readMarked_marked]
    simp only [Option.bind_eq_bind, Option.bind_some, readMarked_marked]
    rw [List.drop_left' (List.length_replicate)]
    cases readEntries n rest with
    | none => rfl
    | some files => rfl
  · exact fun tail hcon => by cases hcon

theorem readEntries_entries (entries : List ZipEntry) (n : Nat) (hn : entries.length ≤ n)
    (rest : Bytes) : readEntries n ((entries.flatMap plainLayout.entry).flatten ++ 2 :: rest) =
      some (entries.map ZipEntry.toZipFile) := by
  induction entries generalizing n with
  | nil => exact readEntries_directory n rest
  | cons e entries ih =>
    obtain ⟨n, rfl⟩ : ∃ m, n = m + 1 := ⟨n - 1, by simp at hn; omega⟩
    have hbytes : ((e :: entries).flatMap plainLayout.entry).flatten ++ 2 :: rest =
        List.replicate 36 0 ++ (marked e.name ++ 0 :: (marked e.content ++
          0 :: (List.replicate 14 0 ++
            ((entries.flatMap plainLayout.entry).flatten ++ 2 :: rest)))) := by
      simp only [ZipLayout.entry, plainLayout, List.flatMap_cons, List.flatten_cons,
        List.append_assoc, List.cons_append, List.nil_append]
    rw [hbytes, readEntries_entry, ih n (by simp at hn; omega)]
    rfl

def plain : ZipFormat where
  toZipLayout := plainLayout
  unzip bs := readEntries bs.length bs
  unzip_bytes entries := by
    have hbytes : plainLayout.bytes entries = (entries.flatMap plainLayout.entry).flatten ++
        2 :: List.replicate (57 * entries.length + 21) 0 := by
      rw [ZipLayout.bytes, List.flatten_append]
      exact congrArg _ (List.append_nil _)
    rw [hbytes]
    apply readEntries_entries
    -- the directory alone has more bytes than there are entries
    rw [List.length_append, List.length_cons, List.length_replicate]
    omega

end ZipFormat

end Accumulation.Go
