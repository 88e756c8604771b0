/-
# Accumulation.Logfile.ArchiveRuns — what a successful archive step promises, call after call.

A row of calls of `ArchiveTask.Do` for one `ArchiveTaskDesc` starts without an archive.  Between the
calls others may change the tree as they like, but for the archive.  A step is `Honest` if a nil
error means a complete archive: closed, and with every file in it that the filter selected when the
archive was built.

The code does not keep this promise.  `Close` in the deferred function takes the place of any error
met before it, and an archive left by a call that failed is taken for complete by the next one.  The
promise is kept in every row of calls in which nothing fails once the archive has been created
(`always_honest`).
-/
import Accumulation.Lib.Run
import Accumulation.Logfile.ArchiveCalls
import Accumulation.Logfile.RemoveSources

namespace Accumulation.Logfile

open Accumulation.Go Accumulation.Lib.Run

/-! ## Rows of calls -/

/-- A call of `ArchiveTask.Do`: the tree and the time it finds, and what goes wrong in it. -/
structure Call where
  tree : FileTree
  now : Int
  faults : Faults

/-- What there is between two calls. -/
structure Attempts where
  /-- what is at the path of the archive -/
  archive : Option Entry
  /-- its file has been closed -/
  closed : Bool
  /-- when it was created, and the tree of that time -/
  built : Option (Int × Disk)
  /-- what the last call returned -/
  last : Option (Param × Option TaskError)

namespace Attempts

def start : Attempts := ⟨none, false, none, none⟩

/-- The next call; it finds the archive as the calls before have left it. -/
def step (host : ArchiveHost) (desc : ArchiveTaskDesc) (s : Attempts) (call : Call) :
    Option Attempts :=
  let p := host.locate desc.archiveFile
  if call.tree.disk.lookup p = s.archive then
    match archiveTaskDo (host.atTime call.now) call.faults (.desc desc)
      ⟨call.tree.disk, s.closed⟩ with
    | (none, _) => none
    | (some answer, depot) =>
      let archive := depot.disk.lookup p
      let built := if s.archive = none ∧ archive ≠ none then some (call.now, call.tree.disk)
        else s.built
      some ⟨archive, depot.closed, built, some answer⟩
  else none

/-- A closed archive with all files that were selected when it was built. -/
structure Complete (host : ArchiveHost) (desc : ArchiveTaskDesc) (s : Attempts) : Prop where
  closed : s.closed = true
  contains : ∃ cell files now disk, s.archive = some (.file cell) ∧
    host.zip.unzip cell.content = some files ∧ s.built = some (now, disk) ∧
    ∀ x, Chosen (host.atTime now).toHost desc.files disk x → x ∈ files

/-- If the last call has returned a nil error, it has returned a file, and the archive is complete. -/
def Honest (host : ArchiveHost) (desc : ArchiveTaskDesc) (s : Attempts) : Prop :=
  ∀ param, s.last = some (param, none) →
    (∃ file, param = .file (some file) ∧ file.name = desc.archiveFile) ∧ s.Complete host desc

end Attempts

/-! ## The condition -/

/-- The archive cannot be created. -/
def Uncreatable (host : ArchiveHost) (desc : ArchiveTaskDesc) (call : Call) : Prop :=
  call.faults.create ≠ none ∨
    call.tree.disk.mkdirRefused host.denied (host.locate desc.archiveFile) ≠ none

/-- Nothing fails once the archive has been created, and it is not among what is removed. -/
structure Unfailing (host : ArchiveHost) (desc : ArchiveTaskDesc) (call : Call) : Prop where
  packable : Packable (host.atTime call.now).toHost desc.files call.tree.disk
  sources : ∀ source ∈ call.faults.sources, source = .ok
  writes : ∀ fate ∈ call.faults.writes, fate = .ok
  stat : call.faults.stat = none
  close : call.faults.close = none
  fileClose : call.faults.fileClose = none
  kept : ∀ info ∈ desc.files,
    ¬ info.rule.Dooms (host.atTime call.now).toHost (host.locate desc.archiveFile)

/-- A call that builds an archive, at a path that cannot be taken for a directory to be made, fails
before there is one or not at all. -/
def Unmasked (host : ArchiveHost) (desc : ArchiveTaskDesc) (s : Attempts) (call : Call) : Prop :=
  s.archive ≠ none ∨
    ¬ host.locate desc.archiveFile <+: host.locate (dir desc.archiveFile) ∧
      (Uncreatable host desc call ∨ Unfailing host desc call)

variable {host : ArchiveHost} {desc : ArchiveTaskDesc} {s s' : Attempts} {call : Call}

/-! ## One call -/

/-- The tree with the new archive in it lets itself be packed, too. -/
theorem Created.packable {host : Host} {fault : Option Errno} {path : Bytes} {disk : Disk}
    {s : State} {infos : List FileDesc} (h : Created host fault path disk s)
    (hpackable : Packable host infos disk) : Packable host infos s.disk where
  listable info hinfo hdir q listable hq := by
    rcases h.dir _ listable hq with hold | hnew
    · exact hpackable.listable info hinfo hdir q listable hold
    · exact hnew
  readable info hinfo hdir q cell hq hselected := by
    by_cases hself : host.locate info.dir ++ q = host.locate path
    · rw [hself, h.archive] at hq
      rw [← Entry.file.inj (Option.some.inj hq)]
    · exact hpackable.readable info hinfo hdir q cell ((h.file _ cell hself).mp hq) hselected

/-- What is chosen from the tree is chosen from it with the archive, too. -/
theorem Created.chosen {host : Host} {fault : Option Errno} {path : Bytes} {disk : Disk}
    {s : State} {infos : List FileDesc} {x : ZipFile} (h : Created host fault path disk s)
    (hnone : disk.lookup (host.locate path) = none) (hx : Chosen host infos disk x) :
    Chosen host infos s.disk x := by
  rcases hx with ⟨info, hinfo, hdir, q, cell, hq, hselected, rfl⟩
  refine ⟨info, hinfo, hdir, q, cell, (h.file _ cell ?_).mpr hq, hselected, rfl⟩
  intro hself
  rw [hself, hnone] at hq
  nomatch hq

/-- **A call without a fault** makes a complete archive. -/
theorem Finished.complete {faults : Faults} {depot : Depot} {disk : Disk} {st t : State}
    {packing : Packing} {answer : Answer} {infos : List FileDesc} {archiveFile : Bytes}
    (h : Finished host faults infos archiveFile st packing t answer depot)
    (hcreated : Created host.toHost faults.create archiveFile disk st)
    (hnone : disk.lookup (host.locate archiveFile) = none) (hclose : faults.close = none)
    (hkept : ∀ info ∈ infos, ¬ info.rule.Dooms host.toHost (host.locate archiveFile)) :
    ∃ cell files, depot.disk.lookup (host.locate archiveFile) = some (.file cell) ∧
      host.zip.unzip cell.content = some files ∧
      ∀ x, Chosen host.toHost infos disk x → x ∈ files := by
  rcases h.closed hcreated.closed with ⟨hpacks, -, -, -, content, hdisk, hcontent⟩
  -- the archive outlives the removal
  have hspared := removeSources_spares hkept st
  rw [h.removes] at hspared
  have hthere := (hspared hcreated.clean).2 (by rw [hcreated.archive]; exact Option.some_ne_none _)
  rw [hcreated.archive] at hthere
  refine ⟨_, packing.zw.entries.map ZipEntry.toZipFile, hdisk ▸ lookup_rewritten hthere content,
    ?_, ?_⟩
  · show host.zip.unzip content = _
    rw [hcontent hclose]
    exact host.zip.unzip_bytes _
  · intro x hx
    rcases hpacks.complete x (hcreated.chosen hnone hx) with ⟨e, he, rfl⟩
    exact List.mem_map_of_mem he

/-- **A call that finds no archive**, under its condition, fails before there is one or makes a
complete one. -/
theorem zipArchive_builds {disk : Disk} {closed : Bool} {answer : Answer} {depot : Depot}
    (hclosed : disk = call.tree.disk) (hnone : disk.lookup (host.locate desc.archiveFile) = none)
    (hplain : ¬ host.locate desc.archiveFile <+: host.locate (dir desc.archiveFile))
    (hC : Uncreatable host desc call ∨ Unfailing host desc call)
    (h : zipArchive (host.atTime call.now) call.faults desc.files desc.archiveFile
      ⟨disk, closed⟩ = (some answer, depot)) :
    (answer.err ≠ none ∧ depot.disk.lookup (host.locate desc.archiveFile) = none) ∨
      (∃ file, answer.file = some file ∧ file.name = desc.archiveFile) ∧ depot.closed = true ∧
        ∃ cell files, depot.disk.lookup (host.locate desc.archiveFile) = some (.file cell) ∧
          host.zip.unzip cell.content = some files ∧
          ∀ x, Chosen (host.atTime call.now).toHost desc.files disk x → x ∈ files := by
  subst hclosed
  have hclosed := call.tree.closed
  obtain ⟨e, hstat⟩ : ∃ e, (host.atTime call.now).stat call.tree.disk desc.archiveFile =
      .error e := by
    cases hs : (host.atTime call.now).stat call.tree.disk desc.archiveFile with
    | error e => exact ⟨e, rfl⟩
    | ok entry =>
      have hthere : call.tree.disk.lookup (host.locate desc.archiveFile) = some entry :=
        (stat_ok_iff.mp hs).2
      rw [hnone] at hthere
      nomatch hthere
  rcases zipArchive_cases hstat h with ⟨err, s, hcreate, rfl, rfl⟩ | ⟨s, hcreate, hrest⟩
  · have hgone := fun hplain hnone => createIfNeeded_err hclosed hplain hnone hcreate
    exact Or.inl ⟨Option.some_ne_none err, hgone hplain hnone⟩
  · have hcreated := createIfNeeded_nil hclosed hstat hcreate
    have hunfailing : Unfailing host desc call := by
      apply hC.resolve_left
      rintro (hfault | hrefused)
      · exact hfault hcreated.unfailing
      · exact hrefused hcreated.reachable
    rcases hrest with ⟨hfails | hfails, -⟩ | ⟨packing, t, hfinished⟩
    · -- a packing that meets no fault does not fail
      rcases hfails with ⟨err, herr⟩
      exact absurd herr (packAll_no_err (hcreated.packable hunfailing.packable)
        ⟨ZipWriter.new_holds _ _, hunfailing.writes, hunfailing.sources⟩ err)
    · exact absurd hunfailing.stat hfails
    · rcases hfinished.closed hcreated.closed with ⟨-, hfile, hdone, -⟩
      refine Or.inr ⟨⟨_, hfile, rfl⟩, ?_, ?_⟩
      · rw [hdone, hunfailing.fileClose]
        rfl
      · exact hfinished.complete hcreated hnone hunfailing.close hunfailing.kept

namespace Attempts

/-- What holds between the calls: there is no archive, or a complete one. -/
structure Sound (host : ArchiveHost) (desc : ArchiveTaskDesc) (s : Attempts) : Prop where
  honest : s.Honest host desc
  complete : s.archive ≠ none → s.Complete host desc

theorem start_sound : start.Sound host desc :=
  ⟨fun _ h => (nomatch h), fun h => absurd rfl h⟩

/-- After a call that has left everything as it was. -/
theorem Sound.unchanged (h : s.Sound host desc) {answer : Param × Option TaskError}
    (hanswer : answer.2 = none → (∃ file, answer.1 = .file (some file) ∧
      file.name = desc.archiveFile) ∧ s.archive ≠ none) :
    (Attempts.mk s.archive s.closed s.built (some answer)).Sound host desc where
  honest := by
    intro param hparam
    obtain rfl := Option.some.inj hparam
    rcases hanswer rfl with ⟨hfile, hthere⟩
    exact ⟨hfile, (h.complete hthere).closed, (h.complete hthere).contains⟩
  complete hthere := ⟨(h.complete hthere).closed, (h.complete hthere).contains⟩

/-- After a call that has built nothing and returns an error. -/
theorem sound_of_err {closed : Bool} {built : Option (Int × Disk)} {param : Param}
    {err : Option TaskError} (herr : err ≠ none) :
    (Attempts.mk none closed built (some (param, err))).Sound host desc where
  honest := by
    intro param hparam
    exact absurd (Prod.mk.inj (Option.some.inj hparam)).2 herr
  complete h := absurd rfl h

/-- The state after a call. -/
def after (desc : ArchiveTaskDesc) (host : ArchiveHost) (s : Attempts) (call : Call)
    (answer : Param × Option TaskError) (depot : Depot) : Attempts :=
  let archive := depot.disk.lookup (host.locate desc.archiveFile)
  ⟨archive, depot.closed, if s.archive = none ∧ archive ≠ none then
    some (call.now, call.tree.disk) else s.built, some answer⟩

/-- What the next call finds, and what is there after it. -/
theorem step_some (h : step host desc s call = some s') :
    call.tree.disk.lookup (host.locate desc.archiveFile) = s.archive ∧
      ∃ answer depot, archiveTaskDo (host.atTime call.now) call.faults (.desc desc)
        ⟨call.tree.disk, s.closed⟩ = (some answer, depot) ∧
        s' = after desc host s call answer depot := by
  unfold step at h
  dsimp only at h
  split at h
  · rename_i hfound
    split at h
    · nomatch h
    · rename_i answer depot hcall
      exact ⟨hfound, answer, depot, hcall, (Option.some.inj h).symm⟩
  · nomatch h

/-- The state after a call that has left everything as it was. -/
theorem after_same (hfound : call.tree.disk.lookup (host.locate desc.archiveFile) = s.archive)
    (answer : Param × Option TaskError) :
    after desc host s call answer ⟨call.tree.disk, s.closed⟩ =
      ⟨s.archive, s.closed, s.built, some answer⟩ := by
  unfold after
  dsimp only
  rw [hfound, if_neg fun hcon => hcon.2 hcon.1]

/-- **One call** keeps what holds between the calls. -/
theorem step_sound (h : s.Sound host desc) (hC : Unmasked host desc s call)
    (hstep : step host desc s call = some s') : s'.Sound host desc := by
  rcases step_some hstep with ⟨hfound, answer, depot, hcall, rfl⟩
  unfold archiveTaskDo at hcall
  dsimp only at hcall
  split at hcall
  · -- no name for the archive
    obtain ⟨ha, rfl⟩ := Prod.mk.inj hcall
    rw [← Option.some.inj ha, after_same hfound]
    apply h.unchanged
    intro hcon
    cases hcon
  · rename_i hpath
    split at hcall
    · split at hcall
      · rename_i zipped depot hzip
        obtain ⟨ha, rfl⟩ := Prod.mk.inj hcall
        rw [← Option.some.inj ha]
        cases harchive : s.archive with
        | some entry =>
          -- the archive is taken as it is
          have hstat : (host.atTime call.now).stat call.tree.disk desc.archiveFile = .ok entry :=
            stat_ok_iff.mpr ⟨hpath, hfound.trans harchive⟩
          rw [zipArchive, hstat] at hzip
          obtain ⟨hz, rfl⟩ := Prod.mk.inj hzip
          rw [after_same hfound, ← Option.some.inj hz]
          refine h.unchanged fun _ => ⟨⟨_, rfl, ?_⟩, ?_⟩
          · cases entry with
            | file cell => rfl
            | dir listable => rfl
          · rw [harchive]
            exact Option.some_ne_none _
        | none =>
          rw [harchive] at hfound
          rcases hC with hthere | ⟨hplain, hC⟩
          · exact absurd harchive hthere
          rcases zipArchive_builds rfl hfound hplain hC hzip with
            ⟨herr, hnone⟩ | ⟨⟨file, hfile, hname⟩, hdone, cell, files, hcell, hunzip, hfiles⟩
          · unfold after
            dsimp only
            rw [hnone]
            exact sound_of_err herr
          · have hbuilt : (after desc host s call (.file zipped.file, zipped.err) depot).built =
                some (call.now, call.tree.disk) :=
              if_pos ⟨harchive, by rw [hcell]; exact Option.some_ne_none _⟩
            have hcomplete : (after desc host s call (.file zipped.file, zipped.err)
                depot).Complete host desc :=
              ⟨hdone, cell, files, call.now, call.tree.disk, hcell, hunzip, hbuilt, hfiles⟩
            refine ⟨fun param hparam => ⟨⟨file, ?_, hname⟩, hcomplete⟩, fun _ => hcomplete⟩
            rw [← (Prod.mk.inj (Option.some.inj hparam)).1, hfile]
      · cases hcall
    · obtain ⟨ha, rfl⟩ := Prod.mk.inj hcall
      rw [← Option.some.inj ha, after_same hfound]
      apply h.unchanged
      intro hcon
      cases hcon

/-- **A successful archive step means a complete archive**, in every row of calls in which nothing
fails once the archive has been created. -/
theorem always_honest (host : ArchiveHost) (desc : ArchiveTaskDesc) {calls : List Call}
    (h : Along (step host desc) (Unmasked host desc) start calls) :
    Always (step host desc) (Honest host desc) start calls :=
  (always_of_along (fun _ _ _ => step_sound) start_sound h).mono fun _ hs => hs.honest

/-! ## Calls that do and do not -/

/-- Pack `/a`, which is a day old at most, into `/z`. -/
def demoDesc : ArchiveTaskDesc :=
  ⟨[⟨ascii ['/', 'a'], ascii ['*'], 24 * 3600⟩], .zip, ascii ['/', 'z']⟩

/-- A call that finds `/a/f`. -/
def demoCall (faults : Faults) : Call :=
  ⟨⟨demoDisk [(demoFile, ['1'])], Disk.closed_of_keys (by decide)⟩, 100, faults⟩

/-- A call that finds what another has left. -/
def demoRetry (faults : Faults) : Call :=
  ⟨⟨(archiveTaskDo demoArchiveHost { noFaults with close := some 0 } (.desc demoDesc)
      ⟨demoDisk [(demoFile, ['1'])], false⟩).2.disk,
    Disk.closed_of_keys (by decide)⟩, 100, faults⟩

/-- A call that finds a complete archive. -/
def demoFound : Call :=
  ⟨⟨(archiveTaskDo demoArchiveHost noFaults (.desc demoDesc)
      ⟨demoDisk [(demoFile, ['1'])], false⟩).2.disk,
    Disk.closed_of_keys (by decide)⟩, 200, { noFaults with close := some 0 }⟩

/-- A file of ten seconds is packed without a fault. -/
theorem demoCall_unmasked (s : Attempts) :
    Unmasked demoArchiveHost demoDesc s (demoCall noFaults) := by
  refine Or.inr ⟨by decide, Or.inr ⟨⟨?_, ?_⟩, ?_, ?_, rfl, rfl, rfl, ?_⟩⟩
  · intro info _ _ q listable hq
    have hall : (demoDisk [(demoFile, ['1'])]).every (fun _ _ => true) id = true := by decide
    exact Disk.dir_of_every hall hq
  · intro info _ _ q cell hq _
    have hall : (demoDisk [(demoFile, ['1'])]).every (fun _ fi => fi.readable)
        (fun _ => true) = true := by
      decide
    exact Disk.file_of_every hall hq
  · intro _ h
    cases h
  · intro _ h
    cases h
  · rintro info hinfo ⟨-, q, hq, -⟩
    -- `/z` is not below `/a`
    obtain rfl := List.mem_singleton.mp hinfo
    have hprefix := List.prefix_append (demoHost.locate (ascii ['/', 'a'])) q
    have hplace : demoHost.locate (ascii ['/', 'a']) ++ q = demoHost.locate (ascii ['/', 'z']) := hq
    rw [hplace] at hprefix
    exact absurd hprefix (by decide)

/-- The archive cannot be created, then it is, and then it is found. -/
def demoRow : List Call :=
  [demoCall { noFaults with create := some .denied }, demoCall noFaults, demoFound]

theorem always_honest_demoRow :
    (∃ s, exec (step demoArchiveHost demoDesc) start demoRow = some s ∧ s.archive ≠ none) ∧
      Always (step demoArchiveHost demoDesc) (Honest demoArchiveHost demoDesc) start demoRow := by
  have hrefused : Unmasked demoArchiveHost demoDesc start
      (demoCall { noFaults with create := some .denied }) :=
    Or.inr ⟨by decide, Or.inl (Or.inl (Option.some_ne_none _))⟩
  refine ⟨⟨_, rfl, Option.some_ne_none _⟩, always_honest demoArchiveHost demoDesc ?_⟩
  exact along_cons hrefused rfl (along_cons (demoCall_unmasked _) rfl
    (along_cons (Or.inl (Option.some_ne_none _)) rfl trivial))

/-- A file that cannot be opened is reported as success without an archive, since `Close` succeeds.
An archive that could not be closed is found by the next call, and taken for complete. -/
theorem failures_hidden :
    (∃ s, exec (step demoArchiveHost demoDesc) start
        [demoCall { noFaults with sources := [.notOpened .denied] }] = some s ∧
      ¬ s.Honest demoArchiveHost demoDesc) ∧
    ∃ s, exec (step demoArchiveHost demoDesc) start
        [demoCall { noFaults with close := some 0 }, demoRetry noFaults] = some s ∧
      ¬ s.Honest demoArchiveHost demoDesc := by
  constructor
  · refine ⟨_, rfl, fun h => ?_⟩
    rcases h _ rfl with ⟨⟨file, hfile, -⟩, -⟩
    nomatch hfile
  · refine ⟨_, rfl, fun h => ?_⟩
    rcases (h _ rfl).2.contains with ⟨cell, files, now, disk, hcell, hfiles, -⟩
    have hempty : cell.content = [] := by
      obtain rfl : (⟨[], 100, true, true⟩ : FileCell) = cell :=
        Entry.file.inj (Option.some.inj hcell)
      rfl
    rw [hempty] at hfiles
    nomatch hfiles

end Attempts

end Accumulation.Logfile
