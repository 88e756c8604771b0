/-
# Accumulation.Logfile.ArchivePack — what a packing puts into the archive.

A `FileDesc` selects the files below its directory whose name matches and which are young enough
(`FileDesc.Selects`).  The tree does not change while files are packed, so that the walks are tours.
A packing that returns nil has put exactly the selected files into the archive, and has met no
directory that it could not list (`packAll_packs`).  It returns nil, or goes where the model does not
follow it, if nothing is in its way (`packAll_no_err`).
-/
import Accumulation.Go.Tour
import Accumulation.Logfile.Archive

namespace Accumulation.Logfile

open Accumulation.Go

/-- The file at `q` below the directory, as it is in the archive. -/
def FileDesc.entry (info : FileDesc) (q : Path) (content : Bytes) : ZipFile :=
  ⟨trimPrefix (pathTo info.dir q) info.dir, content⟩

/-- A file that the filter selects, as it is in the archive. -/
def FileDesc.Selects (host : Host) (disk : Disk) (info : FileDesc) (x : ZipFile) : Prop :=
  info.dir ≠ [] ∧ ∃ q cell, disk.lookup (host.locate info.dir ++ q) = some (.file cell) ∧
    archiveFilter host info (basename (pathTo info.dir q)) cell = true ∧
    x = info.entry q cell.content

/-- A file that is chosen for the archive. -/
def Chosen (host : Host) (infos : List FileDesc) (disk : Disk) (x : ZipFile) : Prop :=
  ∃ info ∈ infos, info.Selects host disk x

variable {host : ArchiveHost} {archiveFile : Bytes} {info : FileDesc} {infos : List FileDesc}
  {s t : Packing}

/-! ## One file -/

/-- What every call keeps: the tree, and the entries so far. -/
def Grows (s t : Packing) : Prop := t.disk = s.disk ∧ s.zw.entries <+: t.zw.entries

theorem grows_later : Later Grows where
  refl _ := ⟨rfl, List.prefix_rfl⟩
  trans hst htu := ⟨htu.1.trans hst.1, hst.2.trans htu.2⟩

theorem createHeader_grows (layout : ZipLayout) (name : Bytes) (modTime : Int) (zw : ZipWriter) :
    (zw.createHeader layout name modTime).2.entries = zw.entries ∨
      (zw.createHeader layout name modTime).2.entries = zw.entries ++ [⟨⟨name, []⟩, modTime⟩] := by
  unfold ZipWriter.createHeader
  split
  · exact Or.inl rfl
  · exact Or.inr rfl

/-- After the header only the content of the new entry is changed. -/
theorem copyInto_entries (host : ArchiveHost) (src path : Bytes) (fi : FileCell) (s : Packing) :
    (copyInto host src path fi s).2.disk = s.disk ∧
      ((copyInto host src path fi s).2.zw.entries = s.zw.entries ∨
        ∃ content, (copyInto host src path fi s).2.zw.entries =
          ZipWriter.setContent content s.zw.entries) := by
  unfold copyInto
  dsimp only
  split
  · exact ⟨rfl, Or.inl rfl⟩
  · split
    · rename_i hcopy
      exact ⟨rfl, Or.inr ⟨_, (congrArg (fun r => r.2.entries) hcopy).symm⟩⟩
    · rename_i hcopy _
      exact ⟨rfl, Or.inr ⟨_, (congrArg (fun r => r.2.entries) hcopy).symm⟩⟩
    · rename_i hcopy _
      exact ⟨rfl, Or.inr ⟨_, (congrArg (fun r => r.2.entries) hcopy).symm⟩⟩

theorem packFile_grows (host : ArchiveHost) (archiveFile src path : Bytes) (fi : FileCell)
    (s : Packing) : Grows s (packFile host archiveFile src path fi s).2 := by
  unfold packFile
  split
  · exact grows_later.refl s
  · have hentries := createHeader_grows host.zip.toZipLayout (trimPrefix path src) fi.modTime s.zw
    split
    · rename_i e zw hheader
      rw [hheader] at hentries
      refine ⟨rfl, ?_⟩
      rcases hentries with h | h
      · exact h ▸ List.prefix_rfl
      · exact h ▸ List.prefix_append _ _
    · rename_i zw hheader
      have hnew := (ZipWriter.createHeader_nil hheader).1
      rcases copyInto_entries host src path fi { s with zw } with ⟨hdisk, h | ⟨content, h⟩⟩
      · refine ⟨hdisk, ?_⟩
        rw [h, hnew]
        exact List.prefix_append _ _
      · refine ⟨hdisk, ?_⟩
        rw [h, hnew, ZipWriter.setContent_concat]
        exact List.prefix_append _ _

/-- A file that has been copied without an error. -/
theorem copyInto_nil {src path : Bytes} {fi : FileCell}
    (h : copyInto host src path fi s = (none, t)) :
    s.zw.copy host.zip.toZipLayout fi.content = (none, t.zw) := by
  unfold copyInto at h
  dsimp only at h
  split at h
  · nomatch h
  · split at h
    · nomatch h
    · nomatch h
    · rename_i zw hcopy hfault
      obtain rfl := (Prod.mk.inj h).2
      have hcontent : (readFault fi (s.sources.headD .ok)).1 = fi.content := by
        unfold readFault at hfault ⊢
        split at hfault
        · nomatch hfault
        · rfl
      rw [hcontent] at hcopy
      exact hcopy

/-- **A file that is packed** without an error is in the archive, with its whole content. -/
theorem packFile_nil {src path : Bytes} {fi : FileCell}
    (h : packFile host archiveFile src path fi s = (none, t)) :
    host.locate path ≠ host.locate archiveFile ∧
      t.zw.entries = s.zw.entries ++ [⟨⟨trimPrefix path src, fi.content⟩, fi.modTime⟩] ∧
      (s.zw.Holds host.zip.toZipLayout → t.zw.Holds host.zip.toZipLayout) := by
  unfold packFile at h
  split at h
  · nomatch h
  · rename_i hne
    split at h
    · nomatch h
    · rename_i zw hheader
      have hcopy := copyInto_nil h
      exact ⟨hne, ZipWriter.copied_entries hheader hcopy,
        fun hholds => hholds.copied hheader hcopy⟩

/-- Nothing is in the way of the packing. -/
structure Smooth (host : ArchiveHost) (s : Packing) : Prop where
  holds : s.zw.Holds host.zip.toZipLayout
  writes : ∀ fate ∈ s.zw.out.file.fates, fate = .ok
  sources : ∀ source ∈ s.sources, source = .ok

/-- **A readable file is packed**, if nothing is in the way. -/
theorem packFile_smooth (hs : Smooth host s) {src path : Bytes} {fi : FileCell}
    (hne : host.locate path ≠ host.locate archiveFile) (hread : fi.readable = true) :
    ∃ t, packFile host archiveFile src path fi s = (none, t) ∧ Smooth host t := by
  rcases hs.holds.copied_ok hs.writes (trimPrefix path src) fi.content fi.modTime with
    ⟨zw', zw'', hheader, hcopy, hfates⟩
  have hfate : s.sources.headD .ok = .ok := by
    cases hsources : s.sources with
    | nil => rfl
    | cons source rest => exact hs.sources source (hsources ▸ List.mem_cons_self)
  refine ⟨⟨s.disk, zw'', s.sources.tail⟩, ?_, hs.holds.copied hheader hcopy, hfates,
    fun source hsource => hs.sources source (List.mem_of_mem_tail hsource)⟩
  rw [packFile, if_neg hne, hheader]
  dsimp only
  unfold copyInto
  dsimp only
  rw [hfate]
  simp only [openFault, hread, if_true, readFault, hcopy]

/-! ## One directory -/

theorem archiveFunc_grows (host : ArchiveHost) (archiveFile : Bytes) (info : FileDesc)
    (path : Bytes) (i : Option Entry) (e : Option Errno) (s : Packing) :
    Grows s (archiveFunc host archiveFile info path i e s).2 := by
  unfold archiveFunc
  split
  · exact grows_later.refl s
  · exact grows_later.refl s
  · exact grows_later.refl s
  · split
    · exact packFile_grows host archiveFile info.dir path _ s
    · exact grows_later.refl s

theorem archiveFunc_still (host : ArchiveHost) (archiveFile : Bytes) (info : FileDesc) :
    Still (packView host.toHost) (archiveFunc host archiveFile info) where
  quiet _ := rfl
  disk path i e s := (archiveFunc_grows host archiveFile info path i e s).1

/-- The calls of `doArchive`. -/
theorem doArchive_tour (host : ArchiveHost) (archiveFile : Bytes) (info : FileDesc) (s : Packing) :
    doArchive host archiveFile info s =
      visitAll (archiveFunc host archiveFile info) (tour s.disk host.pwd host.depth info.dir) s :=
  walk_tour (archiveFunc_still host archiveFile info) host.depth info.dir s

/-! ## The entries -/

/-- The entry that a call of the walk makes, if it returns nil. -/
def FileDesc.packed (host : Host) (info : FileDesc) : Visit → Option ZipEntry
  | .call path (some (.file fi)) none =>
    if archiveFilter host info (basename path) fi then
      some ⟨⟨trimPrefix path info.dir, fi.content⟩, fi.modTime⟩
    else none
  | _ => none

/-- The entries of everything that is selected, in the order of the walks. -/
def entriesOf (host : Host) (infos : List FileDesc) (disk : Disk) : List ZipEntry :=
  infos.flatMap fun info =>
    if pathExists host disk info.dir then
      (tour disk host.pwd host.depth info.dir).filterMap (info.packed host)
    else []

/-- The writer has got these entries, and nothing has failed in between. -/
def Takes (host : ArchiveHost) (entries : List ZipEntry) (s t : Packing) : Prop :=
  t.zw.entries = s.zw.entries ++ entries ∧
    (s.zw.Holds host.zip.toZipLayout → t.zw.Holds host.zip.toZipLayout)

theorem takes_nil (s : Packing) : Takes host [] s s := ⟨(List.append_nil _).symm, id⟩

theorem Takes.append {entries more : List ZipEntry} {u : Packing} (h : Takes host entries s t)
    (hmore : Takes host more t u) : Takes host (entries ++ more) s u :=
  ⟨by rw [hmore.1, h.1, List.append_assoc], fun hs => hmore.2 (h.2 hs)⟩

theorem archiveFunc_takes {path : Bytes} {i : Option Entry} {e : Option Errno}
    (h : archiveFunc host archiveFile info path i e s = (none, t)) :
    Takes host (info.packed host.toHost (.call path i e)).toList s t := by
  unfold archiveFunc at h
  split at h
  · nomatch h
  · nomatch h
  · obtain rfl := (Prod.mk.inj h).2
    exact takes_nil s
  · rename_i fi
    rw [FileDesc.packed]
    split at h
    · rename_i hselected
      rw [if_pos hselected]
      exact (packFile_nil h).2
    · rename_i hselected
      rw [if_neg hselected]
      obtain rfl := (Prod.mk.inj h).2
      exact takes_nil s

theorem visitAll_takes {visits : List Visit}
    (h : visitAll (archiveFunc host archiveFile info) visits s = (none, t)) :
    Takes host (visits.filterMap (info.packed host.toHost)) s t := by
  induction visits generalizing s with
  | nil =>
    obtain rfl := (Prod.mk.inj h).2
    exact takes_nil s
  | cons v visits ih =>
    cases v with
    | deep => nomatch h
    | call path i e =>
      rcases onNil_eq_none h with ⟨u, hfirst, hrest⟩
      have hboth := (archiveFunc_takes hfirst).append (ih hrest)
      rw [List.filterMap_cons]
      cases hentry : info.packed host.toHost (.call path i e) with
      | none =>
        rw [hentry] at hboth
        exact hboth
      | some entry =>
        rw [hentry] at hboth
        exact hboth

/-- **A packing that returns nil** has put everything that is selected into the archive. -/
theorem packAll_takes (h : packAll host archiveFile infos s = (none, t)) :
    Takes host (entriesOf host.toHost infos s.disk) s t := by
  induction infos generalizing s with
  | nil =>
    obtain rfl := (Prod.mk.inj h).2
    exact takes_nil s
  | cons info infos ih =>
    rw [packAll] at h
    rw [entriesOf, List.flatMap_cons]
    split at h
    · rename_i hexists
      rcases onNil_eq_none h with ⟨u, hfirst, hrest⟩
      rw [doArchive_tour] at hfirst
      have hdisk := visitAll_disk (archiveFunc_still host archiveFile info)
        (tour s.disk host.pwd host.depth info.dir) s
      rw [hfirst] at hdisk
      have hu := ih hrest
      rw [show u.disk = s.disk from hdisk] at hu
      rw [if_pos hexists]
      exact (visitAll_takes hfirst).append hu
    · rename_i hmissing
      rw [if_neg hmissing]
      exact ih h

/-! ## What has been selected -/

/-- What a packing that returns nil has done. -/
structure Packs (host : ArchiveHost) (archiveFile : Bytes) (infos : List FileDesc)
    (s t : Packing) : Prop where
  grows : Grows s t
  sound : ∀ e ∈ t.zw.entries, e ∈ s.zw.entries ∨ Chosen host.toHost infos s.disk e.toZipFile
  complete : ∀ x, Chosen host.toHost infos s.disk x → ∃ e ∈ t.zw.entries, e.toZipFile = x
  /-- every directory on the way to a file could be listed -/
  reach : ∀ info ∈ infos, info.dir ≠ [] → ∀ q cell,
    s.disk.lookup (host.locate info.dir ++ q) = some (.file cell) →
    InReach s.disk (host.locate info.dir) (host.locate info.dir ++ q)
  /-- the archive itself has not been selected -/
  apart : ∀ info ∈ infos, info.dir ≠ [] → ∀ q cell,
    s.disk.lookup (host.locate info.dir ++ q) = some (.file cell) →
    archiveFilter host.toHost info (basename (pathTo info.dir q)) cell = true →
    host.locate info.dir ++ q ≠ host.locate archiveFile

/-- A call with an error does not return nil. -/
theorem not_broken_of_made {visits : List Visit} (hdeep : Visit.deep ∉ visits)
    (hcalls : ∀ path i e, Visit.call path i e ∈ visits →
      ∃ u v, archiveFunc host archiveFile info path i e u = (none, v)) : ¬ Broken visits := by
  rintro (h | ⟨path, i, e, h⟩)
  · exact hdeep h
  · rcases hcalls path i (some e) h with ⟨u, v, hcall⟩
    nomatch hcall

/-- **A directory that is packed** without an error. -/
theorem doArchive_packs (hclosed : s.disk.Closed)
    (hthere : s.disk.lookup (host.locate info.dir) ≠ none) (hdir : info.dir ≠ [])
    (h : doArchive host archiveFile info s = (none, t)) : Packs host archiveFile [info] s t := by
  rw [doArchive_tour] at h
  rcases visitAll_made grows_later (archiveFunc_grows host archiveFile info) h with
    ⟨hdeep, hgrows, hcalls⟩
  have hat := mem_tour hdir hthere host.depth
  have hreach (q : Path) (cell : FileCell)
      (hf : s.disk.lookup (host.locate info.dir ++ q) = some (.file cell)) :=
    (tour_reaches hclosed hdir hf host.depth).resolve_left
      (not_broken_of_made hdeep fun path i e hv => by
        rcases hcalls path i e hv with ⟨u, v, -, hcall, -⟩
        exact ⟨u, v, hcall⟩)
  -- a file that is selected has been packed
  have hpacked (q : Path) (cell : FileCell)
      (hf : s.disk.lookup (host.locate info.dir ++ q) = some (.file cell))
      (hselected : archiveFilter host.toHost info (basename (pathTo info.dir q)) cell = true) :
      ∃ u v, packFile host archiveFile info.dir (pathTo info.dir q) cell u = (none, v) ∧
        Grows v t := by
    rcases hcalls _ _ _ (hreach q cell hf).1 with ⟨u, v, -, hcall, hv⟩
    rw [archiveFunc, if_pos hselected] at hcall
    exact ⟨u, v, hcall, hv⟩
  refine ⟨hgrows, ?_, ?_, ?_, ?_⟩
  · -- each call adds at most the file it is about
    refine visitAll_keeps (I := fun u => ∀ e ∈ u.zw.entries, e ∈ s.zw.entries ∨
      Chosen host.toHost [info] s.disk e.toZipFile) ?_ (fun e he => Or.inl he) h
    intro path i e hv u w hu hcall
    rcases hat _ hv with ⟨q, entry, rfl, rfl, hlookup, -⟩
    unfold archiveFunc at hcall
    split at hcall
    · nomatch hcall
    · nomatch hcall
    · rwa [← (Prod.mk.inj hcall).2]
    · rename_i fi hfile
      split at hcall
      · rename_i hselected
        rw [(packFile_nil hcall).2.1]
        intro x hx
        rcases List.mem_append.mp hx with hx | hx
        · exact hu x hx
        · obtain rfl := List.mem_singleton.mp hx
          obtain rfl := Option.some.inj hfile
          exact Or.inr ⟨info, List.mem_singleton_self info, hdir, q, fi, hlookup, hselected, rfl⟩
      · rwa [← (Prod.mk.inj hcall).2]
  · rintro x ⟨info', hinfo, -, q, cell, hf, hselected, rfl⟩
    obtain rfl := List.mem_singleton.mp hinfo
    rcases hpacked q cell hf hselected with ⟨u, v, hpack, hv⟩
    have hentries := (packFile_nil hpack).2.1
    exact ⟨⟨⟨trimPrefix (pathTo info'.dir q) info'.dir, cell.content⟩, cell.modTime⟩,
      hv.2.subset (hentries ▸ List.mem_append_right _ (List.mem_singleton_self _)), rfl⟩
  · intro info' hinfo _ q cell hf
    obtain rfl := List.mem_singleton.mp hinfo
    exact (hreach q cell hf).2
  · intro info' hinfo _ q cell hf hselected
    obtain rfl := List.mem_singleton.mp hinfo
    rcases hpacked q cell hf hselected with ⟨u, v, hpack, -⟩
    have hplace : host.locate (pathTo info'.dir q) = host.locate info'.dir ++ q :=
      (locate_pathTo host.pwd hdir q).1
    exact hplace ▸ (packFile_nil hpack).1

/-! ## All directories -/

theorem Packs.cons {u : Packing} (h : Packs host archiveFile [info] s t)
    (hrest : Packs host archiveFile infos t u) : Packs host archiveFile (info :: infos) s u where
  grows := grows_later.trans h.grows hrest.grows
  sound e he := by
    rcases hrest.sound e he with he | ⟨info', hinfo, hselects⟩
    · rcases h.sound e he with he | ⟨info', hinfo, hselects⟩
      · exact Or.inl he
      · rw [List.mem_singleton.mp hinfo] at hselects
        exact Or.inr ⟨info, List.mem_cons_self, hselects⟩
    · rw [h.grows.1] at hselects
      exact Or.inr ⟨info', List.mem_cons_of_mem _ hinfo, hselects⟩
  complete := by
    rintro x ⟨info', hinfo, hselects⟩
    rcases List.mem_cons.mp hinfo with rfl | hinfo
    · rcases h.complete x ⟨info', List.mem_singleton_self _, hselects⟩ with ⟨e, he, hx⟩
      exact ⟨e, hrest.grows.2.subset he, hx⟩
    · exact hrest.complete x ⟨info', hinfo, h.grows.1.symm ▸ hselects⟩
  reach info' hinfo hdir q cell hf := by
    rcases List.mem_cons.mp hinfo with rfl | hinfo
    · exact h.reach info' (List.mem_singleton_self _) hdir q cell hf
    · rw [← h.grows.1] at hf ⊢
      exact hrest.reach info' hinfo hdir q cell hf
  apart info' hinfo hdir q cell hf := by
    rcases List.mem_cons.mp hinfo with rfl | hinfo
    · exact h.apart info' (List.mem_singleton_self _) hdir q cell hf
    · rw [← h.grows.1] at hf
      exact hrest.apart info' hinfo hdir q cell hf

/-- A directory that is not there is left out. -/
theorem packs_of_missing (hclosed : s.disk.Closed)
    (h : info.dir ≠ [] → s.disk.lookup (host.locate info.dir) = none) :
    Packs host archiveFile [info] s s := by
  have hnone (hdir : info.dir ≠ []) (q : Path) (cell : FileCell) :
      s.disk.lookup (host.locate info.dir ++ q) ≠ some (.file cell) := by
    intro hf
    by_cases hq : q = []
    · rw [hq, List.append_nil, h hdir] at hf
      nomatch hf
    · rcases hclosed.dir_above hq (by rw [hf]; exact Option.some_ne_none _) with ⟨listable, hd⟩
      rw [h hdir] at hd
      nomatch hd
  refine ⟨grows_later.refl s, fun e he => Or.inl he, ?_, ?_, ?_⟩
  · rintro x ⟨info', hinfo, hdir, q, cell, hf, -⟩
    rw [List.mem_singleton.mp hinfo] at hdir hf
    exact absurd hf (hnone hdir q cell)
  · intro info' hinfo hdir q cell hf
    rw [List.mem_singleton.mp hinfo] at hdir hf
    exact absurd hf (hnone hdir q cell)
  · intro info' hinfo hdir q cell hf
    rw [List.mem_singleton.mp hinfo] at hdir hf
    exact absurd hf (hnone hdir q cell)

theorem pathExists_iff {host : Host} {disk : Disk} {path : Bytes} :
    pathExists host disk path = true ↔ path ≠ [] ∧ disk.lookup (host.locate path) ≠ none := by
  unfold pathExists
  cases hstat : host.stat disk path with
  | ok e =>
    rcases stat_ok_iff.mp hstat with ⟨hpath, he⟩
    rw [he]
    exact iff_of_true rfl ⟨hpath, Option.some_ne_none e⟩
  | error errno =>
    refine iff_of_false Bool.false_ne_true ?_
    rintro ⟨hpath, hthere⟩
    rcases Option.ne_none_iff_exists'.mp hthere with ⟨e, he⟩
    have hok := stat_ok_iff.mpr ⟨hpath, he⟩
    rw [hstat] at hok
    nomatch hok

/-- **What a packing has done** that returns nil. -/
theorem packAll_packs (hclosed : s.disk.Closed)
    (h : packAll host archiveFile infos s = (none, t)) : Packs host archiveFile infos s t := by
  induction infos generalizing s with
  | nil =>
    obtain rfl := (Prod.mk.inj h).2
    exact ⟨grows_later.refl s, fun e he => Or.inl he,
      fun x hx => (nomatch hx.choose_spec.1), fun _ hinfo => (nomatch hinfo),
      fun _ hinfo => (nomatch hinfo)⟩
  | cons info infos ih =>
    rw [packAll] at h
    split at h
    · rename_i hexists
      rcases pathExists_iff.mp hexists with ⟨hdir, hthere⟩
      rcases onNil_eq_none h with ⟨u, hfirst, hrest⟩
      have hpacks := doArchive_packs hclosed hthere hdir hfirst
      exact hpacks.cons (ih (hpacks.grows.1 ▸ hclosed) hrest)
    · rename_i hmissing
      refine (packs_of_missing hclosed fun hdir => ?_).cons (ih hclosed h)
      by_contra hthere
      exact hmissing (pathExists_iff.mpr ⟨hdir, hthere⟩)

/-- The tree lets itself be packed. -/
structure Packable (host : Host) (infos : List FileDesc) (disk : Disk) : Prop where
  listable : ∀ info ∈ infos, info.dir ≠ [] → ∀ q listable,
    disk.lookup (host.locate info.dir ++ q) = some (.dir listable) → listable = true
  readable : ∀ info ∈ infos, info.dir ≠ [] → ∀ q cell,
    disk.lookup (host.locate info.dir ++ q) = some (.file cell) →
    archiveFilter host info (basename (pathTo info.dir q)) cell = true → cell.readable = true

/-- What a packing keeps that meets no fault. -/
theorem doArchive_smooth (hpackable : Packable host.toHost [info] s.disk) (hs : Smooth host s)
    (hthere : s.disk.lookup (host.locate info.dir) ≠ none) (hdir : info.dir ≠ []) :
    (∀ err, (doArchive host archiveFile info s).1 ≠ some (.err err)) ∧
      ∀ t, doArchive host archiveFile info s = (none, t) → Smooth host t := by
  have hat := mem_tour hdir hthere host.depth
  have hcall (path : Bytes) (i : Option Entry) (e : Option Errno)
      (hv : Visit.call path i e ∈ tour s.disk host.pwd host.depth info.dir) (u : Packing)
      (hu : Smooth host u) :
      (∀ err, (archiveFunc host archiveFile info path i e u).1 ≠ some (.err err)) ∧
        ∀ v, archiveFunc host archiveFile info path i e u = (none, v) → Smooth host v := by
    rcases hat _ hv with ⟨q, entry, rfl, rfl, hlookup, hfault⟩
    obtain rfl : e = none := by
      by_contra he
      obtain rfl := hfault he
      have := hpackable.listable info (List.mem_singleton_self _) hdir q false hlookup
      nomatch this
    cases entry with
    | dir listable =>
      refine ⟨fun _ h => (nomatch h), fun v h => ?_⟩
      rwa [← (Prod.mk.inj h).2]
    | file fi =>
      rw [archiveFunc]
      split
      · rename_i hselected
        have hread := hpackable.readable info (List.mem_singleton_self _) hdir q fi hlookup
          hselected
        by_cases hself : host.locate (pathTo info.dir q) = host.locate archiveFile
        · rw [packFile, if_pos hself]
          exact ⟨fun _ h => (nomatch h), fun v h => (nomatch h)⟩
        · obtain ⟨v, hpack, hv⟩ : ∃ v, packFile host archiveFile info.dir (pathTo info.dir q) fi u =
              (none, v) ∧ Smooth host v := packFile_smooth hu hself hread
          rw [hpack]
          refine ⟨fun _ h => (nomatch h), fun w h => ?_⟩
          rwa [← (Prod.mk.inj h).2]
      · refine ⟨fun _ h => (nomatch h), fun v h => ?_⟩
        rwa [← (Prod.mk.inj h).2]
  rw [doArchive_tour]
  exact ⟨visitAll_no_err hcall hs,
    fun t ht => visitAll_keeps (fun p i e hv u w hu hw => (hcall p i e hv u hu).2 w hw) hs ht⟩

/-- **A packing does not fail** if the tree lets itself be packed and nothing is in the way. -/
theorem packAll_no_err (hpackable : Packable host.toHost infos s.disk) (hs : Smooth host s)
    (err : TaskError) : (packAll host archiveFile infos s).1 ≠ some (.err err) := by
  induction infos generalizing s with
  | nil => exact fun h => (nomatch h)
  | cons info infos ih =>
    have hrest : Packable host.toHost infos s.disk :=
      ⟨fun i hi => hpackable.listable i (List.mem_cons_of_mem _ hi),
        fun i hi => hpackable.readable i (List.mem_cons_of_mem _ hi)⟩
    rw [packAll]
    split
    · rename_i hexists
      rcases pathExists_iff.mp hexists with ⟨hdir, hthere⟩
      have hone : Packable host.toHost [info] s.disk :=
        ⟨fun i hi => hpackable.listable i (List.mem_singleton.mp hi ▸ List.mem_cons_self),
          fun i hi => hpackable.readable i (List.mem_singleton.mp hi ▸ List.mem_cons_self)⟩
      have hfirst : (∀ err, (doArchive host archiveFile info s).1 ≠ some (.err err)) ∧
          ∀ t, doArchive host archiveFile info s = (none, t) → Smooth host t :=
        doArchive_smooth hone hs hthere hdir
      have hdisk : (doArchive host archiveFile info s).2.disk = s.disk := by
        rw [doArchive_tour]
        exact visitAll_disk (archiveFunc_still host archiveFile info) _ s
      rcases hr : doArchive host archiveFile info s with ⟨_ | stop, u⟩
      · rw [hr] at hdisk
        exact ih (hdisk ▸ hrest) (hfirst.2 u hr)
      · have hstop := hfirst.1 err
        rw [hr] at hstop
        exact hstop
    · exact ih hrest hs

end Accumulation.Logfile
