/-
# Accumulation.Logfile.ArchiveRemoves — whether the removal behind an archive deletes only what is
in it.

Two loops of `zipArchive` go over the same `FileDesc`s.  The first packs the files that match the
wildcard and are young enough; the second removes what matches the wildcard, whatever its age, and
does so before the archive is closed.  So a file is lost if it is too old, or has a time in the
future, which counts as an age of more than a century, and every file is lost if `Close` fails.
`removesOnlyArchived_iff` says that there is no other way to lose one.
-/
import Accumulation.Logfile.ArchiveCalls
import Accumulation.Logfile.RemoveSources

namespace Accumulation.Logfile

open Accumulation.Go

/-- The archive has been created, in this state. -/
def Started (host : ArchiveHost) (faults : Faults) (archiveFile : Bytes) (disk : Disk)
    (s : State) : Prop :=
  createIfNeeded host.toHost faults.create archiveFile ⟨⟨disk, []⟩, []⟩ = (none, s)

/-- The file at `f` is among these files, under a name that one of the `FileDesc`s has for it. -/
def IsIn (host : Host) (infos : List FileDesc) (f : Path) (content : Bytes)
    (files : ZipFile → Prop) : Prop :=
  ∃ info ∈ infos, info.dir ≠ [] ∧ ∃ q, host.locate info.dir ++ q = f ∧
    files (info.entry q content)

/-- Every regular file that is gone after the call is in the archive with its whole content, and the
archive has been finished and closed without an error. -/
def RemovesOnlyArchived (host : ArchiveHost) (faults : Faults) (infos : List FileDesc)
    (archiveFile : Bytes) (disk : Disk) (answer : Answer) (depot : Depot) : Prop :=
  ∀ s, Started host faults archiveFile disk s → ∀ f cell, s.disk.lookup f = some (.file cell) →
    depot.disk.lookup f = none →
    answer.err = none ∧ depot.closed = true ∧
      ∃ archive files, depot.disk.lookup (host.locate archiveFile) = some (.file archive) ∧
        host.zip.unzip archive.content = some files ∧
        IsIn host.toHost infos f cell.content fun x => x ∈ files

/-- Every regular file that the wildcards let be removed is chosen for the archive, too, and is not
the archive itself; and if there is such a file, closing the archive succeeds. -/
def LoopsAgree (host : ArchiveHost) (faults : Faults) (infos : List FileDesc)
    (archiveFile : Bytes) (disk : Disk) : Prop :=
  ∀ f cell, disk.lookup f = some (.file cell) →
    (∃ info ∈ infos, info.rule.Dooms host.toHost f) →
    f ≠ host.locate archiveFile ∧ faults.close = none ∧ faults.fileClose = none ∧
      IsIn host.toHost infos f cell.content (Chosen host.toHost infos disk)

variable {host : ArchiveHost} {faults : Faults} {infos : List FileDesc} {archiveFile : Bytes}
  {disk : Disk} {s t : State} {packing : Packing} {answer : Answer} {depot : Depot}

/-- What a packing has met: the removal can come to each file it selects. -/
theorem Packs.inReach {s t : Packing} (h : Packs host archiveFile infos s t) {info : FileDesc}
    (hinfo : info ∈ infos) {f : Path} {cell : FileCell} (hf : s.disk.lookup f = some (.file cell))
    (hdooms : info.rule.Dooms host.toHost f) :
    InReach s.disk (host.locate info.rule.getDir) f := by
  rcases hdooms with ⟨-, q, hq, hremoves⟩
  have hdir : info.dir ≠ [] := fun hnil => hremoves.dir ((getDir_eq_nil info.rule).mpr hnil)
  rw [locate_getDir] at hq ⊢
  rw [← hq] at hf ⊢
  exact h.reach info hinfo hdir q cell hf

/-- **The files that are gone** after the removal. -/
theorem gone_iff_doomed (hclosed : s.disk.Closed) (hclean : s.cleaner = [])
    (hpacks : Packs host archiveFile infos (Packing.new s.disk faults) packing)
    (hremoves : removeSources host.toHost infos s = (none, t)) {f : Path} {cell : FileCell}
    (hf : s.disk.lookup f = some (.file cell)) :
    t.disk.lookup f = none ↔ ∃ info ∈ infos, info.rule.Dooms host.toHost f := by
  constructor
  · intro hgone
    by_contra hno
    have hspared := removeSources_spares (fun info hinfo hdooms => hno ⟨info, hinfo, hdooms⟩) s
    rw [hremoves] at hspared
    have hkept := (hspared hclean).2 (by rw [hf]; exact Option.some_ne_none _)
    rw [hgone, hf] at hkept
    nomatch hkept
  · rintro ⟨info, hinfo, hdooms⟩
    exact removeSources_dooms hclean (leaf_of_closed hclosed hf)
      ⟨info, hinfo, hdooms, hpacks.inReach hinfo hf hdooms⟩ hremoves

/-- What is read from the finished archive is what has been chosen for it. -/
theorem mem_files_iff (hpacks : Packs host archiveFile infos (Packing.new disk faults) packing)
    (x : ZipFile) :
    x ∈ packing.zw.entries.map ZipEntry.toZipFile ↔ Chosen host.toHost infos disk x := by
  rw [List.mem_map]
  constructor
  · rintro ⟨e, he, rfl⟩
    exact (hpacks.sound e he).resolve_left fun hold => (nomatch hold)
  · intro hx
    exact hpacks.complete x hx

/-- **A call that comes to its end** removes only what it has archived if and only if its loops
agree. -/
theorem Finished.gone_archived_iff
    (h : Finished host faults infos archiveFile s packing t answer depot)
    (hcreated : Created host.toHost faults.create archiveFile disk s) :
    (∀ f cell, s.disk.lookup f = some (.file cell) → depot.disk.lookup f = none →
      answer.err = none ∧ depot.closed = true ∧
        ∃ archive files, depot.disk.lookup (host.locate archiveFile) = some (.file archive) ∧
          host.zip.unzip archive.content = some files ∧
          IsIn host.toHost infos f cell.content fun x => x ∈ files) ↔
      LoopsAgree host faults infos archiveFile s.disk := by
  rcases h.closed hcreated.closed with ⟨hpacks, -, hdone, herr, content, hdisk, hcontent⟩
  have hgone {f : Path} {cell : FileCell} (hf : s.disk.lookup f = some (.file cell)) :
      depot.disk.lookup f = none ↔ ∃ info ∈ infos, info.rule.Dooms host.toHost f := by
    rw [hdisk, lookup_rewritten_eq_none]
    exact gone_iff_doomed hcreated.closed hcreated.clean hpacks h.removes hf
  have hfileClose : depot.closed = true ↔ faults.fileClose = none := by
    rw [hdone, Option.isNone_iff_eq_none]
  constructor
  · intro honly f cell hf hdoomed
    rcases honly f cell hf ((hgone hf).mpr hdoomed) with
      ⟨hclose, hfile, archive, files, harchive, hunzip, info, hinfo, hdir, q, hq, hmem⟩
    rw [herr] at hclose
    rw [hdisk] at harchive
    rw [content_of_rewritten harchive, hcontent hclose, host.zip.unzip_bytes] at hunzip
    refine ⟨?_, hclose, hfileClose.mp hfile, info, hinfo, hdir, q, hq, ?_⟩
    · rintro rfl
      have hnone := (hgone hf).mpr hdoomed
      rw [hdisk, harchive] at hnone
      nomatch hnone
    · rw [← Option.some.inj hunzip] at hmem
      exact (mem_files_iff hpacks _).mp hmem
  · intro hagree f cell hf hnone
    rcases hagree f cell hf ((hgone hf).mp hnone) with
      ⟨-, hclose, hfile, info, hinfo, hdir, q, hq, hchosen⟩
    -- the archive itself is not removed
    have hthere : depot.disk.lookup (host.locate archiveFile) ≠ none := fun hlost =>
      (hagree _ _ hcreated.archive ((hgone hcreated.archive).mp hlost)).1 rfl
    have hspared := removeSources_spares (fun info hinfo hdooms =>
      (hagree _ _ hcreated.archive ⟨info, hinfo, hdooms⟩).1 rfl) s
    rw [h.removes] at hspared
    have hkept := (hspared hcreated.clean).2 (by rw [hcreated.archive]; exact Option.some_ne_none _)
    rw [hcreated.archive] at hkept
    refine ⟨herr.mpr hclose, hfileClose.mpr hfile, _, _, hdisk ▸ lookup_rewritten hkept content, ?_,
      info, hinfo, hdir, q, hq, (mem_files_iff hpacks _).mpr hchosen⟩
    show host.zip.unzip content = _
    rw [hcontent hclose]
    exact host.zip.unzip_bytes _

/-- **`zipArchive` removes only what it has archived** if and only if, where it comes to the removal,
its loops agree on the files and closing the archive succeeds. -/
theorem removesOnlyArchived_iff (host : ArchiveHost) (faults : Faults) (infos : List FileDesc)
    (archiveFile : Bytes) (tree : FileTree) (closed : Bool)
    (hnew : tree.disk.lookup (host.locate archiveFile) = none)
    (hcall : zipArchive host faults infos archiveFile ⟨tree.disk, closed⟩ = (some answer, depot)) :
    RemovesOnlyArchived host faults infos archiveFile tree.disk answer depot ↔
      ∀ s, Started host faults archiveFile tree.disk s →
        (packAll host archiveFile infos (Packing.new s.disk faults)).1 = none →
        faults.stat = none → LoopsAgree host faults infos archiveFile s.disk := by
  obtain ⟨e, hstat⟩ : ∃ e, host.stat tree.disk archiveFile = .error e := by
    cases hs : host.stat tree.disk archiveFile with
    | error e => exact ⟨e, rfl⟩
    | ok entry =>
      rw [(stat_ok_iff.mp hs).2] at hnew
      nomatch hnew
  have hsame {s s' : State} (hs : Started host faults archiveFile tree.disk s)
      (hs' : Started host faults archiveFile tree.disk s') : s' = s :=
    (Prod.mk.inj (hs'.symm.trans hs)).2
  rcases zipArchive_cases hstat hcall with ⟨err, s, hcreate, -⟩ | ⟨s, hcreate, hrest⟩
  · -- no archive, and nothing is removed
    have hno (s' : State) : ¬ Started host faults archiveFile tree.disk s' := fun hs' => by
      nomatch hcreate.symm.trans hs'
    exact iff_of_true (fun s' hs' => absurd hs' (hno s')) fun s' hs' => absurd hs' (hno s')
  · rcases hrest with ⟨hfails, -, content, hdisk⟩ | ⟨packing, t, hfinished⟩
    · -- the files that could not be packed stay
      refine iff_of_true (fun s' hs' f cell hf hnone => ?_) fun s' hs' hpack hstat => ?_
      · rw [hdisk, lookup_rewritten_eq_none, ← hsame hcreate hs', hf] at hnone
        nomatch hnone
      · rw [hsame hcreate hs'] at hpack
        rcases hfails with ⟨err, herr⟩ | hfault
        · rw [herr] at hpack
          nomatch hpack
        · exact absurd hstat hfault
    · have hiff := hfinished.gone_archived_iff (createIfNeeded_nil tree.closed hstat hcreate)
      constructor
      · intro honly s' hs' _ _
        rw [hsame hcreate hs']
        exact hiff.mp (honly s hcreate)
      · intro hagree s' hs'
        rw [hsame hcreate hs']
        exact hiff.mpr (hagree s hcreate (congrArg Prod.fst hfinished.packs) hfinished.stat)

/-! ## Calls that do and do not -/

/-- Pack `/a` into `/z` at a given time. -/
def demoZip (now : Int) (modTime : Nat) (faults : Faults) : Option Answer × Depot :=
  zipArchive (demoArchiveHost.atTime now) faults [⟨ascii ['/', 'a'], ascii ['*'], modTime⟩]
    (ascii ['/', 'z']) ⟨demoDisk [(demoFile, ['1'])], false⟩

/-- A file of ten seconds, which is packed with a limit of a day. -/
theorem removesOnlyArchived_one :
    ∃ answer depot, demoZip 100 (24 * 3600) noFaults = (some answer, depot) ∧
      RemovesOnlyArchived (demoArchiveHost.atTime 100) noFaults
        [⟨ascii ['/', 'a'], ascii ['*'], 24 * 3600⟩] (ascii ['/', 'z'])
        (demoDisk [(demoFile, ['1'])]) answer depot := by
  refine ⟨_, _, rfl, ?_⟩
  rw [removesOnlyArchived_iff (demoArchiveHost.atTime 100) noFaults
    [⟨ascii ['/', 'a'], ascii ['*'], 24 * 3600⟩] (ascii ['/', 'z'])
    ⟨demoDisk [(demoFile, ['1'])], Disk.closed_of_keys (by decide)⟩ false rfl rfl]
  intro s hs _ _ f cell hf hdoomed
  obtain rfl := (Prod.mk.inj hs).2
  have hfiles : (createIfNeeded demoHost none (ascii ['/', 'z'])
      ⟨⟨demoDisk [(demoFile, ['1'])], []⟩, []⟩).2.disk.every
      (fun p fi => p = locate [] (ascii ['/', 'z']) ∨
        p = locate [] (ascii demoFile) ∧ fi = ⟨ascii ['1'], 90, true, true⟩)
      (fun _ => true) = true := by
    decide
  have hfile := of_decide_eq_true (Disk.file_of_every hfiles hf)
  rcases hfile with hself | ⟨hplace, hcell⟩
  · -- `/z` is not below `/a`
    rcases hdoomed with ⟨info, hinfo, -, q, hq, -⟩
    obtain rfl := List.mem_singleton.mp hinfo
    have hprefix := List.prefix_append (locate [] (ascii ['/', 'a'])) q
    have hplace : locate [] (ascii ['/', 'a']) ++ q = f := hq
    rw [hplace, show f = _ from hself] at hprefix
    exact absurd hprefix (by decide)
  · obtain rfl : f = locate [] (ascii demoFile) := hplace
    obtain rfl : cell = _ := hcell
    refine ⟨by decide, rfl, rfl, _, List.mem_singleton_self _, by decide,
      (locate [] (ascii demoFile)).drop 1, rfl, _, List.mem_singleton_self _, by decide,
      (locate [] (ascii demoFile)).drop 1, _, rfl, by decide, rfl⟩

/-- A file that is too old, a file from the future, and a file in an archive that is not closed. -/
theorem removed_not_archived :
    (∃ answer depot, demoZip 100 5 noFaults = (some answer, depot) ∧
      ¬ RemovesOnlyArchived (demoArchiveHost.atTime 100) noFaults
        [⟨ascii ['/', 'a'], ascii ['*'], 5⟩] (ascii ['/', 'z'])
        (demoDisk [(demoFile, ['1'])]) answer depot) ∧
    (∃ answer depot, demoZip 80 (24 * 3600) noFaults = (some answer, depot) ∧
      ¬ RemovesOnlyArchived (demoArchiveHost.atTime 80) noFaults
        [⟨ascii ['/', 'a'], ascii ['*'], 24 * 3600⟩] (ascii ['/', 'z'])
        (demoDisk [(demoFile, ['1'])]) answer depot) ∧
    ∃ answer depot, demoZip 100 (24 * 3600) { noFaults with close := some 0 } =
        (some answer, depot) ∧
      ¬ RemovesOnlyArchived (demoArchiveHost.atTime 100) { noFaults with close := some 0 }
        [⟨ascii ['/', 'a'], ascii ['*'], 24 * 3600⟩] (ascii ['/', 'z'])
        (demoDisk [(demoFile, ['1'])]) answer depot := by
  refine ⟨⟨_, _, rfl, fun h => ?_⟩, ⟨_, _, rfl, fun h => ?_⟩, ⟨_, _, rfl, fun h => ?_⟩⟩
  · rcases h _ rfl (locate [] (ascii demoFile)) ⟨ascii ['1'], 90, true, true⟩ rfl rfl with
      ⟨-, -, archive, files, harchive, hunzip, info, -, -, q, -, hmem⟩
    obtain rfl : (⟨2 :: List.replicate 21 0, 100, true, true⟩ : FileCell) = archive :=
      Entry.file.inj (Option.some.inj harchive)
    obtain rfl : [] = files := Option.some.inj hunzip
    nomatch hmem
  · rcases h _ rfl (locate [] (ascii demoFile)) ⟨ascii ['1'], 90, true, true⟩ rfl rfl with
      ⟨-, -, archive, files, harchive, hunzip, info, -, -, q, -, hmem⟩
    obtain rfl : (⟨2 :: List.replicate 21 0, 80, true, true⟩ : FileCell) = archive :=
      Entry.file.inj (Option.some.inj harchive)
    obtain rfl : [] = files := Option.some.inj hunzip
    nomatch hmem
  · rcases h _ rfl (locate [] (ascii demoFile)) ⟨ascii ['1'], 90, true, true⟩ rfl rfl with
      ⟨herr, -⟩
    nomatch herr

end Accumulation.Logfile
