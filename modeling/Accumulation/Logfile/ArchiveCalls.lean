/-
# Accumulation.Logfile.ArchiveCalls — how a call of `zipArchive` can go.

Where there is no archive yet, `createIfNeeded` makes an empty one and leaves the other files alone
(`createIfNeeded_nil`).  A call that returns has then been stopped before, has failed while files
were packed, or has come to its end (`zipArchive_cases`); only in the last case does it return a
`FileDesc`.
-/
import Accumulation.Logfile.ArchivePack
import Accumulation.Logfile.MoveFaithful

namespace Accumulation.Logfile

open Accumulation.Go

/-! ## The new archive -/

section Create

variable {host : Host} {fault : Option Errno} {path : Bytes} {disk : Disk} {s : State}

/-- A tree in which the archive has been created. -/
structure Created (host : Host) (fault : Option Errno) (path : Bytes) (disk : Disk)
    (s : State) : Prop where
  unfailing : fault = none
  nonempty : path ≠ []
  free : host.denied (host.locate path) = false
  reachable : disk.mkdirRefused host.denied (host.locate path) = none
  clean : s.cleaner = []
  closed : s.disk.Closed
  archive : s.disk.lookup (host.locate path) = some (.file ⟨[], host.now, true, true⟩)
  file : ∀ f cell, f ≠ host.locate path →
    (s.disk.lookup f = some (.file cell) ↔ disk.lookup f = some (.file cell))
  dir : ∀ f listable, s.disk.lookup f = some (.dir listable) →
    disk.lookup f = some (.dir listable) ∨ listable = true

/-- What `MkdirAll` may have done. -/
structure Widened (denied : Path → Bool) (p : Path) (disk disk' : Disk) : Prop where
  closed : disk'.Closed
  file : ∀ f cell, disk'.lookup f = some (.file cell) ↔ disk.lookup f = some (.file cell)
  dir : ∀ f listable, disk'.lookup f = some (.dir listable) →
    disk.lookup f = some (.dir listable) ∨ listable = true
  new : ∀ f, disk.lookup f = none → disk'.lookup f ≠ none →
    f <+: p ∧ disk.mkdirRefused denied p = none

theorem call_mkdirAll_widens (hclosed : disk.Closed) (path : Bytes) (p : Path) (s : State)
    (hs : s.disk = disk) :
    Widened host.denied p disk
        (s.call host path (disk.mkdirRefused host.denied p) (.mkdirAll p)).2.disk ∧
      (s.call host path (disk.mkdirRefused host.denied p) (.mkdirAll p)).2.cleaner =
        s.cleaner := by
  cases hrefused : disk.mkdirRefused host.denied p with
  | some e =>
    refine ⟨?_, rfl⟩
    show Widened host.denied p disk s.disk
    rw [hs]
    exact ⟨hclosed, fun _ _ => Iff.rfl, fun _ _ h => Or.inl h, fun f hnone h => absurd hnone h⟩
  | none =>
    refine ⟨?_, rfl⟩
    show Widened host.denied p disk (s.disk.mkdirs p)
    rw [hs]
    have hcross : disk.crossesFile p = false := by
      by_contra hcross
      rw [Disk.mkdirRefused, if_pos (by simpa using hcross)] at hrefused
      cases hrefused
    refine ⟨closed_mkdirs hclosed hcross, fun f cell => ?_, fun f listable h => ?_,
      fun f hnone h => ⟨?_, hrefused⟩⟩
    · rw [lookup_mkdirs_eq]
      cases hf : disk.lookup f with
      | some e => exact Iff.rfl
      | none =>
        dsimp only
        split
        · exact iff_of_false (fun h => by cases h) fun h => by cases h
        · exact Iff.rfl
    · rw [lookup_mkdirs_eq] at h
      cases hf : disk.lookup f with
      | some e =>
        rw [hf] at h
        exact Or.inl h
      | none =>
        rw [hf] at h
        dsimp only at h
        split at h
        · exact Or.inr (Entry.dir.inj (Option.some.inj h)).symm
        · cases h
    · rw [lookup_mkdirs_eq, hnone] at h
      by_contra hnot
      exact h (if_neg hnot)

/-- A path that nothing stands in the way of. -/
theorem mkdirRefused_eq_none {denied : Path → Bool} {p : Path} (hcross : disk.crossesFile p = false)
    (hfree : ∀ r, r <+: p → disk.lookup r = none → denied r = false) :
    disk.mkdirRefused denied p = none := by
  rw [Disk.mkdirRefused, if_neg (by rw [hcross]; exact Bool.false_ne_true), if_neg]
  intro hany
  rw [List.any_eq_true] at hany
  rcases hany with ⟨r, hr, hboth⟩
  rw [Bool.and_eq_true, decide_eq_true_eq] at hboth
  rw [hfree r ((List.mem_inits r p).mp hr) hboth.1] at hboth
  cases hboth.2

theorem free_of_mkdirRefused {denied : Path → Bool} {p r : Path}
    (h : disk.mkdirRefused denied p = none) (hr : r <+: p) (hnone : disk.lookup r = none) :
    denied r = false := by
  rw [Disk.mkdirRefused] at h
  split at h
  · cases h
  · split at h
    · cases h
    · rename_i hany
      rw [List.any_eq_true] at hany
      by_contra hdenied
      exact hany ⟨r, (List.mem_inits r p).mpr hr, by simp [hnone, hdenied]⟩

theorem stat_notExist (hpath : path ≠ []) (h : host.stat disk path = .error .notExist) :
    disk.lookup (host.locate path) = none ∧ disk.crossesFile (host.locate path) = false := by
  rw [Host.stat, if_neg hpath, Disk.stat] at h
  split at h
  · cases h
  · rename_i hnone
    refine ⟨hnone, ?_⟩
    by_contra hcross
    rw [Bool.not_eq_false] at hcross
    rw [hcross] at h
    cases h

/-- Everything above a path with a directory is there. -/
theorem lookup_above {d : Disk} (hd : d.Closed) {p r : Path} {listable : Bool}
    (hparent : d.lookup p.dropLast = some (.dir listable)) (hr : r <+: p) (hne : r ≠ p) :
    d.lookup r ≠ none := by
  rcases hr with ⟨q, rfl⟩
  have hq : q ≠ [] := fun hnil => hne (by rw [hnil, List.append_nil])
  rw [List.dropLast_append_of_ne_nil hq] at hparent
  by_cases hqd : q.dropLast = []
  · rw [hqd, List.append_nil] at hparent
    rw [hparent]
    exact Option.some_ne_none _
  · rcases hd.dir_above hqd (by rw [hparent]; exact Option.some_ne_none _) with ⟨_, hdir⟩
    rw [hdir]
    exact Option.some_ne_none _

/-- What `os.Create` finds where nothing was before. -/
theorem createRefused_absent {denied : Path → Bool} {d : Disk} {p : Path}
    (hfile : ∀ cell, d.lookup p ≠ some (.file cell)) (h : d.createRefused denied p = none) :
    d.lookup p = none ∧ denied p = false ∧
      ∃ listable, d.lookup p.dropLast = some (.dir listable) := by
  unfold Disk.createRefused at h
  split at h
  · rename_i cell hcell
    exact absurd hcell (hfile cell)
  · nomatch h
  · rename_i hnone
    split at h
    · rename_i listable hparent
      split at h
      · nomatch h
      · rename_i hfree
        exact ⟨hnone, by simpa using hfree, listable, hparent⟩
    · nomatch h
    · nomatch h

/-- The archive, made in the tree that `MkdirAll` has left. -/
theorem Widened.created {p : Path} {u : State} (h : Widened host.denied p disk u.disk)
    (hu : u.cleaner = []) (hpath : path ≠ []) (hnone : disk.lookup (host.locate path) = none)
    (hcross : disk.crossesFile (host.locate path) = false)
    (hrefused : u.disk.createRefused host.denied (host.locate path) = none) :
    Created host none path disk (u.occur host (.own (.create (host.locate path)))) := by
  have hnofile (cell : FileCell) : u.disk.lookup (host.locate path) ≠ some (.file cell) := by
    rw [Ne, h.file, hnone]
    exact fun hcon => (nomatch hcon)
  rcases createRefused_absent hnofile hrefused with ⟨hthere, hfree, listable, hparent⟩
  have hself : (u.disk.created host.now (host.locate path)).lookup (host.locate path) =
      some (.file ⟨[], host.now, true, true⟩) := by
    unfold Disk.created
    rw [hthere]
    exact AList.lookup_insert _
  refine ⟨rfl, hpath, hfree, ?_, hu, closed_created h.closed hrefused, hself, ?_, ?_⟩
  · refine mkdirRefused_eq_none hcross fun r hr hmissing => ?_
    by_cases heq : r = host.locate path
    · rw [heq]
      exact hfree
    · -- what was missing above the archive has been made
      rcases h.new r hmissing (lookup_above h.closed hparent hr heq) with ⟨hrp, hmade⟩
      exact free_of_mkdirRefused hmade hrp hmissing
  · intro f cell hf
    show (u.disk.created host.now (host.locate path)).lookup f = _ ↔ _
    rw [lookup_created_ne hf]
    exact h.file f cell
  · intro f listable hf
    change (u.disk.created host.now (host.locate path)).lookup f = _ at hf
    by_cases heq : f = host.locate path
    · rw [heq, hself] at hf
      nomatch hf
    · rw [lookup_created_ne heq] at hf
      exact h.dir f listable hf

/-- **A new archive**: it is empty, and the other files are as they were. -/
theorem createIfNeeded_nil (hclosed : disk.Closed) {e : Errno}
    (hstat : host.stat disk path = .error e)
    (h : createIfNeeded host fault path ⟨⟨disk, []⟩, []⟩ = (none, s)) :
    Created host fault path disk s := by
  unfold createIfNeeded at h
  dsimp only at h
  rw [hstat] at h
  cases e with
  | notExist =>
    dsimp only at h
    have hwide := @call_mkdirAll_widens host disk hclosed (dir path) (host.locate (dir path))
      ⟨⟨disk, []⟩, []⟩ rfl
    generalize (State.call host (dir path) (disk.mkdirRefused host.denied (host.locate (dir path)))
      (.mkdirAll (host.locate (dir path))) ⟨⟨disk, []⟩, []⟩).2 = u at h hwide
    split at h
    · nomatch h
    · rename_i hnone
      obtain rfl := (Prod.mk.inj h).2
      rcases Option.or_eq_none_iff.mp hnone with ⟨rfl, hrefused⟩
      by_cases hpath : path = []
      · rw [if_pos hpath] at hrefused
        nomatch hrefused
      · rw [if_neg hpath] at hrefused
        rcases stat_notExist hpath hstat with ⟨habsent, hcross⟩
        exact hwide.1.created hwide.2 hpath habsent hcross hrefused
  | notDir => nomatch h
  | isDir => nomatch h
  | notEmpty => nomatch h
  | denied => nomatch h
  | busy => nomatch h
  | invalid => nomatch h

/-- An archive that could not be created is not there. -/
theorem createIfNeeded_err (hclosed : disk.Closed)
    (hplain : ¬ host.locate path <+: host.locate (dir path))
    (hnone : disk.lookup (host.locate path) = none) {err : TaskError}
    (h : createIfNeeded host fault path ⟨⟨disk, []⟩, []⟩ = (some err, s)) :
    s.disk.lookup (host.locate path) = none := by
  have hmade := (@call_mkdirAll_widens host disk hclosed (dir path) (host.locate (dir path))
    ⟨⟨disk, []⟩, []⟩ rfl).1
  unfold createIfNeeded at h
  dsimp only at h
  split at h
  · split at h
    · rw [← (Prod.mk.inj h).2]
      exact hnone
    · nomatch h
  · split at h
    · rw [← (Prod.mk.inj h).2]
      by_contra hthere
      exact hplain (hmade.new _ hnone hthere).1
    · nomatch h
  · rw [← (Prod.mk.inj h).2]
    exact hnone

end Create

/-! ## The calls -/

variable {host : ArchiveHost} {faults : Faults} {infos : List FileDesc} {archiveFile : Bytes}
  {depot depot' : Depot} {answer : Answer}

/-- A call that packs, removes and closes. -/
structure Finished (host : ArchiveHost) (faults : Faults) (infos : List FileDesc)
    (archiveFile : Bytes) (s : State) (packing : Packing) (t : State) (answer : Answer)
    (depot : Depot) : Prop where
  packs : packAll host archiveFile infos (Packing.new s.disk faults) = (none, packing)
  stat : faults.stat = none
  removes : removeSources host.toHost infos s = (none, t)
  closes : closing host faults archiveFile packing.zw t.disk
    (some ⟨uint32 host.now, int32 packing.zw.flushed, archiveFile⟩) = (answer, depot)

/-- **The ways a call can go** that finds no archive and returns. -/
theorem zipArchive_cases {e : Errno} (hstat : host.stat depot.disk archiveFile = .error e)
    (h : zipArchive host faults infos archiveFile depot = (some answer, depot')) :
    (∃ err s, createIfNeeded host.toHost faults.create archiveFile ⟨⟨depot.disk, []⟩, []⟩ =
        (some err, s) ∧ answer = ⟨none, some err⟩ ∧ depot' = { depot with disk := s.disk }) ∨
      ∃ s, createIfNeeded host.toHost faults.create archiveFile ⟨⟨depot.disk, []⟩, []⟩ =
          (none, s) ∧
        (((∃ err, (packAll host archiveFile infos (Packing.new s.disk faults)).1 =
              some (.err err)) ∨ faults.stat ≠ none) ∧ answer.file = none ∧
            (∃ content, depot'.disk = s.disk.rewritten (host.locate archiveFile) content) ∨
          ∃ packing t, Finished host faults infos archiveFile s packing t answer depot') := by
  rw [zipArchive, hstat] at h
  dsimp only at h
  split at h
  · rename_i err s hcreate
    obtain ⟨ha, rfl⟩ := Prod.mk.inj h
    exact Or.inl ⟨err, s, hcreate, (Option.some.inj ha).symm, rfl⟩
  · rename_i s hcreate
    refine Or.inr ⟨s, hcreate, ?_⟩
    split at h
    · rename_i err packing hpack
      obtain ⟨ha, rfl⟩ := Prod.mk.inj h
      exact Or.inl ⟨Or.inl ⟨err, by rw [hpack]⟩, by rw [← Option.some.inj ha]; rfl, _, rfl⟩
    · nomatch h
    · rename_i packing hpack
      split at h
      · rename_i errno hfault
        obtain ⟨ha, rfl⟩ := Prod.mk.inj h
        refine Or.inl ⟨Or.inr ?_, by rw [← Option.some.inj ha]; rfl, _, rfl⟩
        rw [hfault]
        exact Option.some_ne_none _
      · rename_i hfault
        split at h
        · rename_i t hremove
          obtain ⟨ha, rfl⟩ := Prod.mk.inj h
          exact Or.inr ⟨packing, t, hpack, hfault, hremove, Prod.ext (Option.some.inj ha) rfl⟩
        · nomatch h

/-- A call that returns a `FileDesc` has come to its end. -/
theorem zipArchive_finished {e : Errno} (hstat : host.stat depot.disk archiveFile = .error e)
    {file : PackedFile} (hfile : answer.file = some file)
    (h : zipArchive host faults infos archiveFile depot = (some answer, depot')) :
    ∃ s packing t, createIfNeeded host.toHost faults.create archiveFile ⟨⟨depot.disk, []⟩, []⟩ =
      (none, s) ∧ Finished host faults infos archiveFile s packing t answer depot' := by
  rcases zipArchive_cases hstat h with
    ⟨err, s, -, rfl, -⟩ | ⟨s, hcreate, ⟨-, hnone, -⟩ | ⟨packing, t, h⟩⟩
  · nomatch hfile
  · rw [hnone] at hfile
    nomatch hfile
  · exact ⟨s, packing, t, hcreate, h⟩

/-- What a finished call has put into its archive, and what it returns. -/
theorem Finished.closed {s t : State} {packing : Packing}
    (h : Finished host faults infos archiveFile s packing t answer depot')
    (hclosed : s.disk.Closed) :
    Packs host archiveFile infos (Packing.new s.disk faults) packing ∧
      answer.file = some ⟨uint32 host.now, int32 packing.zw.flushed, archiveFile⟩ ∧
      depot'.closed = faults.fileClose.isNone ∧
      (answer.err = none ↔ faults.close = none) ∧
      ∃ content, depot'.disk = t.disk.rewritten (host.locate archiveFile) content ∧
        (faults.close = none → content = host.zip.toZipLayout.bytes packing.zw.entries) := by
  have hpacks := packAll_packs hclosed h.packs
  have hheld := (packAll_takes h.packs).2 (ZipWriter.new_holds _ faults.writes)
  have hcloses := h.closes
  rw [closing, hheld.close] at hcloses
  obtain ⟨rfl, rfl⟩ := Prod.mk.inj hcloses
  refine ⟨hpacks, rfl, rfl, ?_, _, rfl, ?_⟩
  · cases faults.close with
    | none => exact iff_of_true rfl rfl
    | some n => exact iff_of_false (fun hcon => (nomatch hcon)) fun hcon => (nomatch hcon)
  · intro hnone
    rw [hnone]

/-! ## A machine -/

def ArchiveHost.atTime (host : ArchiveHost) (now : Int) : ArchiveHost := { host with now }

/-- At a time when these directories may not be written. -/
def ArchiveHost.denying (host : ArchiveHost) (now : Int) (denied : Path → Bool) : ArchiveHost :=
  { host with now, denied }

def demoArchiveHost : ArchiveHost := { demoHost with zip := .plain, dirInfo := fun _ => (100, 4096) }

def noFaults : Faults := ⟨none, [], [], none, none, none⟩

/-- `/a/f` -/
def demoFile : List Char := ['/', 'a', '/', 'f']

end Accumulation.Logfile
