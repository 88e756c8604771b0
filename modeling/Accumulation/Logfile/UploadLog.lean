/-
# Accumulation.Logfile.UploadLog — three attempts to upload an archive.

`UploadLog` has the logs copied, and leaves the rest to a loop that invokes the pipeline up to three
times.  An invocation that fails is rolled back, which does nothing: the next one finds the tree as it
was left.  So it takes the archive for its own, and every upload is of that archive; once the loop
reports success it is gone (`uploads_one_archive`).

`DoMove` has started `CleanExpiredData`, which goes on beside the loop and may remove an archive that
is old enough between two attempts, or between the handlers of one.  As long as it does not, what is
uploaded in all attempts is one archive, byte for byte.  A handler is taken as one step here, and the
turns of `CleanExpiredData` come before the handlers.

`createUploadClient` returns nil here, so that nothing is ever uploaded; the loop is modelled for
whatever it returns.
-/
import Accumulation.Logfile.Pipeline
import Accumulation.Logfile.ArchiveRuns

namespace Accumulation.Logfile

open Accumulation.Go

/-! ## The loop -/

/-- What `UploadLog` reads of its configuration. -/
structure StopGameLogConfig where
  logConfig : LogConfig
  moveTask : MoveTask
  status : Int
  flowID : Bytes

def StopGameLogConfig.isUpload (config : StopGameLogConfig) : Bool := config.status = 2

/-- What an attempt meets. -/
structure Attempt where
  now : Int
  denied : Path → Bool
  faults : Faults
  /-- what `createUploadClient` returns -/
  client : Option UploadClient
  /-- the tree it finds, by what the attempt before has left -/
  finds : Disk → FileTree

/-- A call of `UploadFile`. -/
structure Sent where
  file : Bytes
  /-- what is there -/
  entry : Option Entry
  ok : Bool

/-- What the handlers work on, with the uploads there have been. -/
structure Desk where
  depot : Depot
  sent : List Sent
  /-- the entries of `logtmp` that `CleanExpiredData` removes before each of the coming handlers -/
  cleaner : List (List Name)

/-- The turn of `CleanExpiredData`. -/
def Desk.tick (host : Host) (s : Desk) : Desk :=
  let t := State.tick host ⟨⟨s.depot.disk, []⟩, s.cleaner⟩
  ⟨{ s.depot with disk := t.disk }, s.sent, t.cleaner⟩

def Attempt.on (a : Attempt) (host : ArchiveHost) : ArchiveHost := host.denying a.now a.denied

/-- What an attempt starts from. -/
def Attempt.start (a : Attempt) (s : Desk) : Desk :=
  ⟨⟨(a.finds s.depot.disk).disk, s.depot.closed⟩, s.sent, s.cleaner⟩

/-- The upload a handler makes. -/
def sends (host : ArchiveHost) (client : Option UploadClient) (handler : Handler) (input : Param)
    (depot : Depot) : List Sent :=
  match handler, input, client with
  | .upload desc, .file (some file), some client =>
    if file.size > desc.capacity then []
    else [⟨file.name, depot.disk.lookup (host.locate file.name),
      (uploadTaskDo (some client) desc (.file (some file))).map Prod.snd = some none⟩]
  | _, _, _ => []

/-- The handlers of `BuildPipeline`, whose `Rollback` does nothing. -/
def recording (host : ArchiveHost) (faults : Faults) (client : Option UploadClient) :
    Behaviour Handler Param TaskError Desk where
  do_ handler input s :=
    let s := s.tick host.toHost
    ((handler.run host faults client input s.depot).1,
      ⟨(handler.run host faults client input s.depot).2,
        s.sent ++ sends host client handler input s.depot, s.cleaner⟩)
  rollback _ s := s
  nil := .nil
  handlerIsEmpty := .text "handler is empty"

def isLogSizeExceedErr : TaskError → Bool
  | .logSizeExceed _ => true
  | _ => false

inductive Outcome
  | success
  | sizeExceeded
  /-- the attempts are used up -/
  | gaveUp
  /-- it is recovered, and the loop is over -/
  | panicked
  deriving DecidableEq, Repr

/-- One invocation of the pipeline. -/
def attempt (host : ArchiveHost) (config : LogConfig) (desc : ArchiveTaskDesc) (a : Attempt)
    (s : Desk) : Option (Param × Option TaskError) × Desk :=
  let r := (Pipeline.ofHandlers (buildPipeline config)).invoke
    (recording (a.on host) a.faults a.client) (.desc desc) ⟨a.start s, []⟩
  (r.1, r.2.state)

/-- The loop, for the attempts that are left. -/
def retry (host : ArchiveHost) (config : LogConfig) (desc : ArchiveTaskDesc) :
    List Attempt → Desk → Outcome × Desk
  | [], s => (.gaveUp, s)
  | a :: as, s =>
    match attempt host config desc a s with
    | (none, s) => (.panicked, s)
    | (some (_, none), s) => (.success, s)
    | (some (_, some err), s) =>
      if isLogSizeExceedErr err then (.sizeExceeded, s) else retry host config desc as s

/-- `UploadLog`, with the loop it starts; `none` if it does not start one. -/
def uploadLog (host : ArchiveHost) (config : StopGameLogConfig) (env : ℕ → Attempt) (s : State) :
    Option (Outcome × Desk) :=
  if config.isUpload then
    match config.moveTask.doMove host.toHost config.flowID s with
    | (.error _, _) => none
    | (.ok desc, s) =>
      some (retry host config.logConfig desc ((List.range 3).map env)
        ⟨⟨s.disk, false⟩, [], s.cleaner⟩)
  else none

/-! ## One attempt -/

variable {host : ArchiveHost} {config : LogConfig} {desc : ArchiveTaskDesc} {a : Attempt} {s : Desk}

@[simp]
theorem Attempt.start_sent (a : Attempt) (s : Desk) : (a.start s).sent = s.sent := rfl

@[simp]
theorem Desk.tick_sent (host : Host) (s : Desk) : (s.tick host).sent = s.sent := rfl

/-- **An attempt**, step by step. -/
theorem attempt_eq : attempt host config desc a s =
    let found := (a.start s).tick (a.on host).toHost
    match archiveTaskDo (a.on host) a.faults (.desc desc) found.depot with
    | (none, depot) => (none, ⟨depot, s.sent, found.cleaner⟩)
    | (some (_, some err), depot) => (some (.nil, some err), ⟨depot, s.sent, found.cleaner⟩)
    | (some (param, none), depot) =>
      let packed := Desk.tick (a.on host).toHost ⟨depot, s.sent, found.cleaner⟩
      let upload := newUploadTask
        ⟨config.uploadFlowLimit, config.uploadSizeLimit, config.uploadTimeCostLimit⟩
      let sent := s.sent ++ sends (a.on host) a.client (.upload upload) param packed.depot
      match uploadTaskDo a.client upload param with
      | none => (none, ⟨packed.depot, sent, packed.cleaner⟩)
      | some (_, some err) => (some (.nil, some err), ⟨packed.depot, sent, packed.cleaner⟩)
      | some (param, none) =>
        let uploaded := Desk.tick (a.on host).toHost ⟨packed.depot, sent, packed.cleaner⟩
        match cleanTaskDo (a.on host).toHost param uploaded.depot with
        | (none, depot) => (none, ⟨depot, sent, uploaded.cleaner⟩)
        | (some (_, some err), depot) => (some (.nil, some err), ⟨depot, sent, uploaded.cleaner⟩)
        | (some (param, none), depot) => (some (param, none), ⟨depot, sent, uploaded.cleaner⟩) := by
  have hhead : (Pipeline.ofHandlers (buildPipeline config)).head = some (.link (some .archive)
      (.link (some (.upload (newUploadTask
        ⟨config.uploadFlowLimit, config.uploadSizeLimit, config.uploadTimeCostLimit⟩)))
        (.last (some .clean)))) := rfl
  have hnone (input : Param) (depot : Depot) :
      sends (a.on host) a.client .archive input depot = [] ∧
        sends (a.on host) a.client .clean input depot = [] := ⟨rfl, rfl⟩
  unfold attempt
  simp only [Pipeline.invoke, hhead]
  rcases harchive : archiveTaskDo (a.on host) a.faults (.desc desc)
    ((a.start s).tick (a.on host).toHost).depot with ⟨_ | ⟨param, _ | err⟩, depot⟩
  · simp [HandlerContext.invoke, Behaviour.callDo, recording, Handler.run, harchive, hnone]
  · simp only [HandlerContext.invoke, Behaviour.callDo, recording, Handler.run, harchive, hnone,
      List.append_nil, Desk.tick_sent, Attempt.start_sent]
    rcases uploadTaskDo a.client (newUploadTask ⟨config.uploadFlowLimit, config.uploadSizeLimit,
      config.uploadTimeCostLimit⟩) param with _ | ⟨param', _ | err⟩
    · rfl
    · dsimp only
      generalize Desk.tick _ (Desk.mk _ (_ ++ _) _) = uploaded
      rcases cleanTaskDo (a.on host).toHost param' uploaded.depot with
        ⟨_ | ⟨param'', _ | err⟩, depot'⟩ <;> rfl
    · rfl
  · simp [HandlerContext.invoke, HandlerContext.rollback, Behaviour.callDo, Behaviour.callRollback,
      recording, Handler.run, harchive, hnone]

/-! ## The archive -/

section Archive

variable {faults : Faults} {depot depot' : Depot} {answer : Param × Option TaskError} {p : Path}

/-- What the archive step needs of its description: the archive is a file of a directory, and not
among what is removed. -/
structure Packed (host : ArchiveHost) (desc : ArchiveTaskDesc) (p : Path) : Prop where
  zip : desc.archiveType = .zip
  path : desc.archiveFile = render p
  plain : ¬ p <+: host.locate (dir desc.archiveFile)
  kept : ∀ info ∈ desc.files, ∀ q, host.locate info.rule.getDir ++ q ≠ p

theorem Packed.nonempty (h : Packed host desc p) : desc.archiveFile ≠ [] := by
  rw [h.path]
  exact render_ne_nil p

theorem Packed.locate (h : Packed host desc p) : host.locate desc.archiveFile = p := by
  rw [h.path]
  exact locate_render host.pwd p

theorem Packed.on (h : Packed host desc p) (a : Attempt) : Packed (a.on host) desc p :=
  ⟨h.zip, h.path, h.plain, h.kept⟩

/-- **The archive step where there is no archive**: it fails before there is one, or leaves one. -/
theorem archiveTaskDo_makes (hpacked : Packed host desc p) (hclosed : depot.disk.Closed)
    (hnone : depot.disk.lookup p = none)
    (h : archiveTaskDo host faults (.desc desc) depot = (some answer, depot')) :
    (answer.2 ≠ none ∧ depot'.disk.lookup p = none) ∨
      ∃ cell, depot'.disk.lookup p = some (.file cell) := by
  have hlocate := hpacked.locate
  obtain ⟨e, hstat⟩ : ∃ e, host.stat depot.disk desc.archiveFile = .error e := by
    cases hs : host.stat depot.disk desc.archiveFile with
    | error e => exact ⟨e, rfl⟩
    | ok entry =>
      rw [← hlocate, (stat_ok_iff.mp hs).2] at hnone
      cases hnone
  obtain ⟨zipped, hcall, rfl⟩ := zipArchive_of_do hpacked.nonempty hpacked.zip h
  rcases zipArchive_cases hstat hcall with ⟨err, s, hcreate, rfl, rfl⟩ | ⟨s, hcreate, hrest⟩
  · refine Or.inl ⟨Option.some_ne_none err, ?_⟩
    rw [← hlocate] at hnone ⊢
    exact createIfNeeded_err hclosed (hlocate.symm ▸ hpacked.plain) hnone hcreate
  · have hcreated := createIfNeeded_nil hclosed hstat hcreate
    rw [← hlocate]
    refine Or.inr ?_
    rcases hrest with ⟨-, -, content, hdisk⟩ | ⟨packing, t, hfinished⟩
    · rw [hdisk]
      exact ⟨_, lookup_rewritten hcreated.archive content⟩
    · obtain ⟨-, -, -, -, content, hdisk, -⟩ := hfinished.closed hcreated.closed
      have hspared : Spares (host.locate desc.archiveFile) s _ :=
        removeSources_spares (fun info hinfo hdooms => by
          obtain ⟨-, q, hq, -⟩ := hdooms
          exact hpacked.kept info hinfo q (hq.trans hlocate)) s
      rw [hfinished.removes] at hspared
      have hthere := (hspared hcreated.clean).2
        (by rw [hcreated.archive]; exact Option.some_ne_none _)
      rw [hcreated.archive] at hthere
      rw [hdisk]
      exact ⟨_, lookup_rewritten hthere content⟩

/-- What the archive step returns is called like its archive. -/
theorem name_of_archiveTaskDo (hpacked : Packed host desc p) {file : PackedFile}
    {err : Option TaskError}
    (h : archiveTaskDo host faults (.desc desc) depot = (some (.file (some file), err), depot')) :
    file.name = render p := by
  rw [← hpacked.path]
  obtain ⟨zipped, hcall, hanswer⟩ := zipArchive_of_do hpacked.nonempty hpacked.zip h
  have hfile := Param.file.inj (Prod.mk.inj hanswer).1
  cases hstat : host.stat depot.disk desc.archiveFile with
  | ok entry =>
    rw [zipArchive, hstat] at hcall
    obtain rfl := (Option.some.inj (Prod.mk.inj hcall).1).symm
    rw [Option.some.inj hfile]
    cases entry with
    | file cell => rfl
    | dir listable => rfl
  | error e =>
    obtain ⟨s, packing, t, hcreate, hfinished⟩ := zipArchive_finished hstat hfile.symm hcall
    have hname : some (⟨uint32 host.now, int32 packing.zw.flushed, desc.archiveFile⟩ : PackedFile) =
        some file := (congrArg (fun r => r.1.file) hfinished.closes).trans hfile.symm
    rw [← Option.some.inj hname]

end Archive

/-! ## The upload and the clean-up -/

section Upload

variable {client : Option UploadClient} {upload : UploadTaskDesc} {param : Param}

/-- A handler makes one upload at most, of the file it is given. -/
theorem sends_cases (host : ArchiveHost) (client : Option UploadClient) (upload : UploadTaskDesc)
    (param : Param) (depot : Depot) : sends host client (.upload upload) param depot = [] ∨
    ∃ file c ok, param = .file (some file) ∧ client = some c ∧
      sends host client (.upload upload) param depot =
        [⟨file.name, depot.disk.lookup (host.locate file.name), ok⟩] := by
  rcases param with _ | desc | (_ | file) | rules
  · exact Or.inl rfl
  · exact Or.inl rfl
  · exact Or.inl rfl
  · rcases client with _ | client
    · exact Or.inl rfl
    · by_cases hsize : file.size > upload.capacity
      · exact Or.inl (if_pos hsize)
      · exact Or.inr ⟨file, client, _, rfl, rfl, if_neg hsize⟩
  · exact Or.inl rfl

/-- An upload step that panics has been given a nil file. -/
theorem uploadTaskDo_none (host : ArchiveHost) (depot : Depot)
    (h : uploadTaskDo client upload param = none) :
    param = .file none ∧ sends host client (.upload upload) param depot = [] := by
  rcases param with _ | desc | (_ | file) | rules
  · cases client <;> cases h
  · cases client <;> cases h
  · exact ⟨rfl, rfl⟩
  · rcases client with _ | client
    · cases h
    · simp only [uploadTaskDo] at h
      split at h
      · cases h
      · cases h
  · cases client <;> cases h

/-- **An upload step that succeeds** has made an upload, and passes on what is to be removed. -/
theorem uploadTaskDo_nil (host : ArchiveHost) (depot : Depot) {next : Param}
    (h : uploadTaskDo client upload param = some (next, none)) :
    ∃ file c, param = .file (some file) ∧ client = some c ∧
      next = .rules [⟨file.name, ascii ['*']⟩] ∧ sends host client (.upload upload) param depot =
        [⟨file.name, depot.disk.lookup (host.locate file.name), true⟩] := by
  rcases param with _ | desc | (_ | file) | rules
  · cases client <;> cases h
  · cases client <;> cases h
  · cases client <;> cases h
  · rcases client with _ | client
    · cases h
    · have hstep := h
      simp only [uploadTaskDo] at h
      by_cases hsize : file.size > upload.capacity
      · rw [if_pos hsize] at h
        cases h
      · rw [if_neg hsize] at h
        obtain ⟨hnext, -⟩ := Prod.mk.inj (Option.some.inj h)
        refine ⟨file, client, rfl, rfl, hnext.symm, ?_⟩
        rw [sends, if_neg hsize, hstep]
        rfl
  · cases client <;> cases h

/-- **Cleaning up** an archive is refused and changes nothing, or the archive is gone. -/
theorem cleanTaskDo_archive (host : Host) {depot : Depot} {p : Path}
    (hplain : ∀ listable, depot.disk.lookup p ≠ some (.dir listable)) :
    (∃ err, cleanTaskDo host (.rules [⟨render p, ascii ['*']⟩]) depot =
        (some (.nil, some (.remove err)), depot)) ∨
      ∃ depot', cleanTaskDo host (.rules [⟨render p, ascii ['*']⟩]) depot =
        (some (.nil, none), depot') ∧ depot'.disk.lookup p = none := by
  have hdir : (⟨render p, ascii ['*']⟩ : FileFilterRule).getDir = render p :=
    filePathNormalization_render p
  have hlocate : host.locate (render p) = p := locate_render host.pwd p
  have hquiet : State.tick host ⟨⟨depot.disk, []⟩, []⟩ = ⟨⟨depot.disk, []⟩, []⟩ := tick_quiet rfl
  rcases hlookup : depot.disk.lookup p with _ | cell | listable
  · -- somebody has removed it already
    have hremove : (⟨render p, ascii ['*']⟩ : FileFilterRule).remove host (fun _ _ => false)
        ⟨⟨depot.disk, []⟩, []⟩ = (none, ⟨⟨depot.disk, []⟩, []⟩) ∨
        ∃ err, (⟨render p, ascii ['*']⟩ : FileFilterRule).remove host (fun _ _ => false)
          ⟨⟨depot.disk, []⟩, []⟩ = (some (.err err), ⟨⟨depot.disk, []⟩, []⟩) := by
      cases hstat : host.stat depot.disk (render p) with
      | ok entry =>
        have hthere := (stat_ok_iff.mp hstat).2
        rw [hlocate, hlookup] at hthere
        cases hthere
      | error e =>
        simp only [FileFilterRule.remove, hdir, hquiet, hstat]
        cases e with
        | notExist => exact Or.inl rfl
        | _ => exact Or.inr ⟨_, rfl⟩
    rcases hremove with hremove | ⟨err, hremove⟩
    · refine Or.inr ⟨depot, ?_, hlookup⟩
      simp only [cleanTaskDo, forEach, hremove]
      rfl
    · refine Or.inl ⟨err, ?_⟩
      simp only [cleanTaskDo, forEach, hremove]
      rfl
  · have hstat : host.stat depot.disk (render p) = .ok (.file cell) :=
      stat_ok_iff.mpr ⟨render_ne_nil p, hlocate.symm ▸ hlookup⟩
    have hremove : (⟨render p, ascii ['*']⟩ : FileFilterRule).remove host (fun _ _ => false)
        ⟨⟨depot.disk, []⟩, []⟩ = rmFile host (render p) ⟨⟨depot.disk, []⟩, []⟩ := by
      simp only [FileFilterRule.remove, hdir, hquiet, hstat]
    simp only [cleanTaskDo, forEach, hremove]
    rcases hrefused : host.removeRefused depot.disk (render p) with _ | e
    · refine Or.inr ⟨{ depot with disk := depot.disk.erased [p] }, ?_,
        lookup_erased_mem List.mem_cons_self⟩
      simp only [rmFile, hquiet, State.call, hlocate, hrefused]
      rfl
    · refine Or.inl ⟨.path (render p) e, ?_⟩
      simp only [rmFile, hquiet, State.call, hrefused]
      rfl
  · exact absurd hlookup (hplain listable)

end Upload

/-! ## Attempts in a row -/

section Attempts

variable {spared : Prop} {p : Path}

/-- Every upload has been of the archive at `p`, which is no directory.  If the archive is `spared`
by `CleanExpiredData`, then nothing has been uploaded and there is no archive, or there is one, and
it is what has been uploaded. -/
structure OneArchive (host : Host) (spared : Prop) (p : Path) (s : Desk) : Prop where
  named : ∀ x ∈ s.sent, x.file = render p
  plain : ∀ listable, s.depot.disk.lookup p ≠ some (.dir listable)
  same : spared → (s.sent = [] ∧ s.depot.disk.lookup p = none) ∨
    ∃ cell, s.depot.disk.lookup p = some (.file cell) ∧ ∀ x ∈ s.sent, x.entry = some (.file cell)
  held : spared → NotSwept host p s.cleaner

/-- What an attempt comes to. -/
inductive Attempted (host : Host) (spared : Prop) (client : Option UploadClient) (p : Path)
    (s : Desk) : Option (Param × Option TaskError) × Desk → Prop
  | panics {t : Desk} (hsent : t.sent = s.sent) (hnone : spared → s.sent = []) :
      Attempted host spared client p s (none, t)
  | fails {param : Param} {err : TaskError} {t : Desk} (hone : OneArchive host spared p t)
      (hsent : t.sent = s.sent ∨ client ≠ none ∧ ∃ x, t.sent = s.sent ++ [x]) :
      Attempted host spared client p s (some (param, some err), t)
  | succeeds {param : Param} {t : Desk} {e : Option Entry} (hclient : client ≠ none)
      (hgone : t.depot.disk.lookup p = none) (hsent : t.sent = s.sent ++ [⟨render p, e, true⟩])
      (hsame : spared → ∃ cell, ∀ x ∈ t.sent, x.entry = some (.file cell)) :
      Attempted host spared client p s (some (param, none), t)

/-- What another program does elsewhere makes no difference. -/
theorem OneArchive.start (h : OneArchive host.toHost spared p s)
    (hfinds : (a.finds s.depot.disk).disk.lookup p = s.depot.disk.lookup p) :
    OneArchive host.toHost spared p (a.start s) where
  named := h.named
  plain := by
    show ∀ listable, (a.finds s.depot.disk).disk.lookup p ≠ some (.dir listable)
    rw [hfinds]
    exact h.plain
  same := by
    show spared → _ ∧ (a.finds s.depot.disk).disk.lookup p = none ∨
      ∃ cell, (a.finds s.depot.disk).disk.lookup p = _ ∧ _
    rw [hfinds]
    exact h.same
  held := h.held

/-- `CleanExpiredData` leaves what it spares. -/
theorem lookup_tick (hheld : NotSwept host.toHost p s.cleaner) (a : Attempt) :
    (s.tick (a.on host).toHost).depot.disk.lookup p = s.depot.disk.lookup p :=
  tick_lookup (s := ⟨⟨s.depot.disk, []⟩, s.cleaner⟩) hheld List.prefix_rfl

/-- The turn of `CleanExpiredData`. -/
theorem OneArchive.tick (h : OneArchive host.toHost spared p s) (a : Attempt) :
    OneArchive host.toHost spared p (s.tick (a.on host).toHost) where
  named := h.named
  plain listable hdir := h.plain listable (lookup_of_tick hdir)
  same hspared := by
    rw [lookup_tick (h.held hspared)]
    exact h.same hspared
  held hspared := by
    show NotSwept host.toHost p (State.tick _ _).cleaner
    rw [cleaner_tick]
    exact fun names hnames => h.held hspared names (List.mem_of_mem_tail hnames)

/-- Another upload. -/
theorem OneArchive.add (h : OneArchive host.toHost spared p s) {x : Sent} (hx : x.file = render p)
    (hentry : spared → ∃ cell, s.depot.disk.lookup p = some (.file cell) ∧
      ∀ y ∈ s.sent ++ [x], y.entry = some (.file cell)) :
    OneArchive host.toHost spared p ⟨s.depot, s.sent ++ [x], s.cleaner⟩ where
  named y hy := by
    rcases List.mem_append.mp hy with hy | hy
    · exact h.named y hy
    · rw [List.mem_singleton.mp hy]
      exact hx
  plain := h.plain
  same hspared := Or.inr (hentry hspared)
  held := h.held

/-- The archive step where there is an archive. -/
theorem found_archive (hpacked : Packed host desc p) {cell : FileCell}
    (hcell : s.depot.disk.lookup p = some (.file cell)) :
    archiveTaskDo (a.on host) a.faults (.desc desc) s.depot =
      (some (.file (some ⟨uint32 cell.modTime, int32 cell.content.length, desc.archiveFile⟩), none),
        s.depot) := by
  apply found_of_lookup hpacked.nonempty hpacked.zip
  rw [(hpacked.on a).locate]
  exact hcell

/-- What there is after an archive step that returns. -/
theorem oneArchive_archive {depot : Depot} {answer : Param × Option TaskError}
    (hpacked : Packed host desc p) (hclosed : s.depot.disk.Closed)
    (h : OneArchive host.toHost spared p s)
    (harchive : archiveTaskDo (a.on host) a.faults (.desc desc) s.depot = (some answer, depot)) :
    OneArchive host.toHost spared p ⟨depot, s.sent, s.cleaner⟩ ∧ (answer.2 = none → spared →
      ∃ cell, depot.disk.lookup p = some (.file cell) ∧
        ∀ x ∈ s.sent, x.entry = some (.file cell)) := by
  rcases hlookup : s.depot.disk.lookup p with _ | cell | listable
  · have hempty (hspared : spared) (P : Sent → Prop) : ∀ x ∈ s.sent, P x := by
      rcases h.same hspared with ⟨hsent, -⟩ | ⟨cell, hcell, -⟩
      · rw [hsent]
        exact fun x hx => absurd hx List.not_mem_nil
      · cases hlookup.symm.trans hcell
    rcases archiveTaskDo_makes (hpacked.on a) hclosed hlookup harchive with
      ⟨herr, hnone⟩ | ⟨cell, hcell⟩
    · refine ⟨⟨h.named, fun listable hdir => ?_, fun hspared => Or.inl ⟨?_, hnone⟩, h.held⟩,
        fun hnil => absurd hnil herr⟩
      · cases hnone.symm.trans hdir
      · exact List.eq_nil_iff_forall_not_mem.mpr (hempty hspared fun _ => False)
    · refine ⟨⟨h.named, fun listable hdir => ?_, fun hspared => Or.inr ⟨cell, hcell, ?_⟩, h.held⟩,
        fun _ hspared => ⟨cell, hcell, hempty hspared _⟩⟩
      · cases hcell.symm.trans hdir
      · exact hempty hspared _
  · rw [found_archive hpacked hlookup] at harchive
    obtain ⟨-, rfl⟩ := Prod.mk.inj harchive
    refine ⟨h, fun _ hspared => ?_⟩
    rcases h.same hspared with ⟨-, hnone⟩ | hcell
    · cases hlookup.symm.trans hnone
    · exact hcell
  · exact absurd hlookup (h.plain listable)

/-- Where the archive step returns no file, nothing has been uploaded before. -/
theorem sent_eq_nil (hpacked : Packed host desc p) (h : OneArchive host.toHost spared p s)
    (hno : ∀ file, (archiveTaskDo (a.on host) a.faults (.desc desc) s.depot).1 ≠
        some (.file (some file), none)) (hspared : spared) : s.sent = [] := by
  rcases h.same hspared with ⟨hsent, -⟩ | ⟨cell, hcell, -⟩
  · exact hsent
  · rw [found_archive hpacked hcell] at hno
    exact absurd rfl (hno _)

/-- **An attempt** uploads what has been uploaded before it, if anything has. -/
theorem attempt_spec (hpacked : Packed host desc p)
    (hfinds : (a.finds s.depot.disk).disk.lookup p = s.depot.disk.lookup p)
    (h : OneArchive host.toHost spared p s) :
    Attempted host.toHost spared a.client p s (attempt host config desc a s) := by
  have hlocate : (a.on host).locate (render p) = p := locate_render _ p
  rw [attempt_eq]
  have hfound := (h.start hfinds).tick a
  have hclosed : ((a.start s).tick (a.on host).toHost).depot.disk.Closed :=
    tick_closed (s := ⟨⟨(a.start s).depot.disk, []⟩, s.cleaner⟩) (a.finds s.depot.disk).closed
  have hsent : ((a.start s).tick (a.on host).toHost).sent = s.sent := rfl
  generalize (a.start s).tick (a.on host).toHost = found at hfound hclosed hsent ⊢
  dsimp only
  rw [← hsent]
  have hnil := sent_eq_nil hpacked (a := a) hfound
  rcases harchive : archiveTaskDo (a.on host) a.faults (.desc desc) found.depot with
    ⟨_ | ⟨param, _ | err⟩, depot⟩
  · rw [harchive] at hnil
    exact .panics hsent fun hspared => hsent ▸ hnil (fun file hcon => by cases hcon) hspared
  · obtain ⟨hone, hthere⟩ := oneArchive_archive hpacked hclosed hfound harchive
    have hname : ∀ file, param = .file (some file) → file.name = render p := by
      rintro file rfl
      exact name_of_archiveTaskDo (hpacked.on a) harchive
    rw [harchive] at hnil
    -- `CleanExpiredData` comes before the upload
    have hkept := fun hspared => lookup_tick (hone.held hspared) a
    have hupload := hone.tick a
    have hsent' : (Desk.tick (a.on host).toHost ⟨depot, found.sent, found.cleaner⟩).sent =
      found.sent := rfl
    dsimp only
    generalize Desk.tick (a.on host).toHost ⟨depot, found.sent, found.cleaner⟩ = packed
      at hkept hupload hsent' ⊢
    rw [← hsent']
    have hthere' : ∀ ok, spared → ∃ cell, packed.depot.disk.lookup p = some (.file cell) ∧
        ∀ x ∈ packed.sent ++ [⟨render p, packed.depot.disk.lookup p, ok⟩],
          x.entry = some (.file cell) := by
      intro ok hspared
      obtain ⟨cell, hcell, hsame⟩ := hthere rfl hspared
      have hcell' := (hkept hspared).trans hcell
      refine ⟨cell, hcell', fun x hx => ?_⟩
      rcases List.mem_append.mp hx with hx | hx
      · exact hsame x (hsent' ▸ hx)
      · rw [List.mem_singleton.mp hx]
        exact hcell'
    generalize newUploadTask _ = upload
    rcases htask : uploadTaskDo a.client upload param with _ | ⟨next, _ | err⟩
    · -- the `FileDesc` is nil
      have hpanic := uploadTaskDo_none (a.on host) packed.depot htask
      rw [hpanic.1] at hnil
      rw [hpanic.2, List.append_nil]
      exact .panics (hsent'.trans hsent) fun hspared =>
        hsent ▸ hnil (fun file hcon => by cases hcon) hspared
    · obtain ⟨file, c, rfl, hclient, rfl, hsends⟩ := uploadTaskDo_nil (a.on host) packed.depot htask
      have hsome : a.client ≠ none := by
        rw [hclient]
        exact Option.some_ne_none c
      rw [hsends, hname file rfl, hlocate]
      dsimp only
      -- and once more before the archive is removed
      have hadded := hupload.add rfl (hthere' true)
      have hclean := hadded.tick a
      generalize huploaded : Desk.tick (a.on host).toHost _ = uploaded at hclean ⊢
      have hmore : packed.sent ++ [⟨render p, packed.depot.disk.lookup p, true⟩] =
          uploaded.sent := by rw [← huploaded]; rfl
      have hsent'' : uploaded.sent = s.sent ++ [⟨render p, packed.depot.disk.lookup p, true⟩] := by
        rw [← hmore, hsent', hsent]
      rw [hmore]
      rcases cleanTaskDo_archive (a.on host).toHost hclean.plain with ⟨err, hrefused⟩ |
        ⟨depot', hremoved, hgone⟩
      · rw [hrefused]
        exact .fails hclean (Or.inr ⟨hsome, _, hsent''⟩)
      · rw [hremoved]
        refine .succeeds hsome hgone hsent'' fun hspared => ?_
        obtain ⟨cell, -, hsame⟩ := hthere' true hspared
        rw [hmore] at hsame
        exact ⟨cell, hsame⟩
    · rcases sends_cases (a.on host) a.client upload param packed.depot with
        hsends | ⟨file, c, ok, rfl, hclient, hsends⟩
      · rw [hsends, List.append_nil]
        exact .fails hupload (Or.inl (hsent'.trans hsent))
      · have hsome : a.client ≠ none := by
          rw [hclient]
          exact Option.some_ne_none c
        rw [hsends, hname file rfl, hlocate]
        refine .fails (hupload.add rfl (hthere' ok)) (Or.inr ⟨hsome,
          ⟨render p, packed.depot.disk.lookup p, ok⟩, ?_⟩)
        rw [hsent', hsent]
  · exact .fails (oneArchive_archive hpacked hclosed hfound harchive).1 (Or.inl hsent)

/-- What the loop comes to, if it starts with `n` uploads made. -/
structure Uploads (spared : Prop) (p : Path) (n : ℕ) (r : Outcome × Desk) : Prop where
  named : ∀ x ∈ r.2.sent, x.file = render p
  bounded : r.2.sent.length ≤ n
  /-- success is reported behind an upload that has succeeded, when the archive is gone -/
  success : r.1 = .success →
    r.2.depot.disk.lookup p = none ∧ ∃ x, r.2.sent.getLast? = some x ∧ x.ok = true
  /-- it is one archive -/
  same : spared → ∃ cell, ∀ x ∈ r.2.sent, x.entry = some (.file cell)
  /-- without success what has been uploaded is still there -/
  there : spared → r.1 ≠ .success → r.2.sent ≠ [] →
    ∃ cell, r.2.depot.disk.lookup p = some (.file cell) ∧ ∀ x ∈ r.2.sent, x.entry = some (.file cell)

theorem uploads_of_nil {n : ℕ} (hnamed : ∀ x ∈ s.sent, x.file = render p) (hn : s.sent.length ≤ n)
    (hsent : spared → s.sent = []) {o : Outcome} (ho : o ≠ .success) : Uploads spared p n (o, s) where
  named := hnamed
  bounded := hn
  success := fun hcon => absurd hcon ho
  same := fun hspared =>
    ⟨⟨[], 0, true, true⟩, fun _ hx => absurd (hsent hspared ▸ hx) List.not_mem_nil⟩
  there := fun hspared _ hne => absurd (hsent hspared) hne

theorem OneArchive.uploads (h : OneArchive host.toHost spared p s) {n : ℕ} (hn : s.sent.length ≤ n)
    {o : Outcome} (ho : o ≠ .success) : Uploads spared p n (o, s) where
  named := h.named
  bounded := hn
  success := fun hcon => absurd hcon ho
  same hspared := by
    rcases h.same hspared with ⟨hsent, -⟩ | ⟨cell, -, hone⟩
    · exact ⟨⟨[], 0, true, true⟩, fun x hx => absurd (hsent ▸ hx) List.not_mem_nil⟩
    · exact ⟨cell, hone⟩
  there hspared _ hne := by
    rcases h.same hspared with ⟨hsent, -⟩ | hcell
    · exact absurd hsent hne
    · exact hcell

theorem Uploads.mono {m n : ℕ} {r : Outcome × Desk} (h : Uploads spared p m r) (hmn : m ≤ n) :
    Uploads spared p n r := { h with bounded := h.bounded.trans hmn }

/-- **The loop.** -/
theorem retry_uploads (hpacked : Packed host desc p) (as : List Attempt)
    (hfinds : ∀ a ∈ as, ∀ disk, (a.finds disk).disk.lookup p = disk.lookup p)
    (h : OneArchive host.toHost spared p s) :
    Uploads spared p (s.sent.length + as.length) (retry host config desc as s) := by
  induction as generalizing s with
  | nil => exact h.uploads (Nat.le_add_right _ _) Outcome.noConfusion
  | cons a as ih =>
    have hattempt : Attempted host.toHost spared a.client p s (attempt host config desc a s) :=
      attempt_spec hpacked (hfinds a List.mem_cons_self _) h
    rw [retry]
    generalize attempt host config desc a s = r at hattempt
    cases hattempt with
    | @panics t hsent hnone =>
      refine uploads_of_nil ?_ ?_ (fun hspared => hsent.trans (hnone hspared)) Outcome.noConfusion
      · rw [hsent]
        exact h.named
      · rw [hsent]
        exact Nat.le_add_right _ _
    | @fails param err t hone hsent =>
      have hlength : t.sent.length ≤ s.sent.length + 1 := by
        rcases hsent with hsame | ⟨-, x, hmore⟩
        · rw [hsame]
          exact Nat.le_succ _
        · rw [hmore, List.length_append, List.length_singleton]
      dsimp only
      split
      · exact hone.uploads (by rw [List.length_cons]; omega) Outcome.noConfusion
      · exact (ih (fun b hb => hfinds b (List.mem_cons_of_mem a hb)) hone).mono
          (by rw [List.length_cons]; omega)
    | @succeeds param t e hclient hgone hsent hsame =>
      refine ⟨fun x hx => ?_, ?_, fun _ => ⟨hgone, ⟨render p, e, true⟩, ?_, rfl⟩, hsame,
        fun _ hcon => absurd rfl hcon⟩
      · rw [hsent] at hx
        rcases List.mem_append.mp hx with hx | hx
        · exact h.named x hx
        · rw [List.mem_singleton.mp hx]
      · dsimp only
        rw [hsent]
        simp only [List.length_append, List.length_cons, List.length_nil]
        omega
      · dsimp only
        rw [hsent]
        exact List.getLast?_concat

/-- Without an upload client nothing is uploaded, and nothing succeeds. -/
theorem retry_clientless (hpacked : Packed host desc p) (as : List Attempt)
    (hfinds : ∀ a ∈ as, ∀ disk, (a.finds disk).disk.lookup p = disk.lookup p)
    (h : OneArchive host.toHost spared p s) (hsent : s.sent = [])
    (hclient : ∀ a ∈ as, a.client = none) :
    (retry host config desc as s).2.sent = [] ∧ (retry host config desc as s).1 ≠ .success := by
  induction as generalizing s with
  | nil => exact ⟨hsent, Outcome.noConfusion⟩
  | cons a as ih =>
    have hattempt : Attempted host.toHost spared a.client p s (attempt host config desc a s) :=
      attempt_spec hpacked (hfinds a List.mem_cons_self _) h
    have hnone := hclient a List.mem_cons_self
    rw [retry]
    generalize attempt host config desc a s = r at hattempt
    cases hattempt with
    | panics hsame => exact ⟨hsame.trans hsent, Outcome.noConfusion⟩
    | @fails param err t hone hadded =>
      have hsent' : t.sent = [] := by
        rcases hadded with hsame | ⟨hsome, -⟩
        · exact hsame.trans hsent
        · exact absurd hnone hsome
      dsimp only
      split
      · exact ⟨hsent', Outcome.noConfusion⟩
      · exact ih (fun b hb => hfinds b (List.mem_cons_of_mem a hb)) hone hsent'
          fun b hb => hclient b (List.mem_cons_of_mem a hb)
    | succeeds hsome => exact absurd hnone hsome

end Attempts

/-! ## `UploadLog` -/

def zipSuffix : Bytes := ascii ['.', 'z', 'i', 'p']

/-- The name of the archive. -/
def zipName (flow : Name) : Name where
  bytes := flow.bytes ++ zipSuffix
  ne_nil := List.append_ne_nil_of_left_ne_nil flow.ne_nil _
  no_slash := by
    have hsuffix : slash ∉ zipSuffix := by decide
    exact fun hmem => (List.mem_append.mp hmem).elim flow.no_slash hsuffix
  ne_dot := by
    intro heq
    have hlength := congrArg List.length heq
    rw [List.length_append] at hlength
    exact absurd hlength (by simp [zipSuffix, ascii])
  ne_dots := by
    intro heq
    have hlength := congrArg List.length heq
    rw [List.length_append] at hlength
    exact absurd hlength (by simp [zipSuffix, ascii])

/-- Where the archive of a flow is. -/
def archivePath (host : Host) (flow : Name) : Path := host.pwd ++ [logtmp, zipName flow]

theorem join_logtmp (host : Host) (n : Name) :
    join [render host.pwd, logtmp.bytes, n.bytes] = render (host.pwd ++ [logtmp, n]) := by
  have hjoin : join [render host.pwd, logtmp.bytes, n.bytes] =
      join [render host.pwd, logtmp.bytes ++ slash :: n.bytes] := by
    unfold join
    rw [List.dropWhile_cons_of_neg (by simp [render_ne_nil]),
      List.dropWhile_cons_of_neg (by simp [render_ne_nil])]
    simp [List.intercalate]
  rw [hjoin]
  apply join_render
  rw [named_append_slash, named_name, named_name]
  rfl

theorem archiveFile_eq (host : Host) (flow : Name) :
    host.archiveFile flow.bytes = render (archivePath host flow) := join_logtmp host (zipName flow)

/-- **The description** that `DoMove` makes of an archive. -/
theorem packed_of_doMove {task : MoveTask} {flow : Name} {s t : State} {desc : ArchiveTaskDesc}
    (h : task.doMove host.toHost flow.bytes s = (.ok desc, t)) :
    Packed host desc (archivePath host.toHost flow) := by
  obtain rfl : desc = ⟨[⟨host.dstPath flow.bytes, ascii ['*'], 24 * 3600⟩], .zip,
      host.archiveFile flow.bytes⟩ := by
    rw [MoveTask.doMove] at h
    split at h
    · exact ((Except.ok.injEq _ _).mp (Prod.mk.inj h).1).symm
    · split at h
      · exact ((Except.ok.injEq _ _).mp (Prod.mk.inj h).1).symm
      · cases h
  refine ⟨rfl, archiveFile_eq _ flow, ?_, ?_⟩
  · intro hprefix
    rw [archiveFile_eq, dir_render, Host.locate, locate_render] at hprefix
    have hlength := hprefix.length_le
    simp [archivePath] at hlength
  · intro info hinfo q hq
    obtain rfl := List.mem_singleton.mp hinfo
    have hdst : host.dstPath flow.bytes = render (host.pwd ++ [logtmp, flow]) :=
      join_logtmp host.toHost flow
    have hdir : FileFilterRule.getDir
        (FileDesc.rule ⟨host.dstPath flow.bytes, ascii ['*'], 24 * 3600⟩) =
          render (host.pwd ++ [logtmp, flow]) := by
      show filePathNormalization (host.dstPath flow.bytes) = _
      rw [hdst, filePathNormalization_render]
    rw [hdir, Host.locate, locate_render, archivePath, List.append_assoc,
      List.append_cancel_left_eq] at hq
    have hflow : flow = zipName flow := (List.cons.inj (List.cons.inj hq).2).1
    have hlength := congrArg (fun n => n.bytes.length) hflow
    simp [zipName, zipSuffix, ascii] at hlength

/-- `CleanExpiredData` does not come to the archive once `DoMove` has named it. -/
def ArchiveSpared (host : Host) (config : StopGameLogConfig) (flow : Name) (s : State) : Prop :=
  ∀ desc t, config.moveTask.doMove host config.flowID s = (.ok desc, t) →
    NotSwept host (archivePath host flow) t.cleaner

/-- **The three attempts upload one archive.**  Whatever fails in them and whatever
`CleanExpiredData` removes, every upload is of the archive `DoMove` has named; there are three at most,
and behind a success the archive is gone.  As long as `CleanExpiredData` spares the archive, every
upload is of the same bytes, and without a success what has been uploaded is still there.  Without an
upload client there is no upload. -/
theorem uploads_one_archive (host : ArchiveHost) (config : StopGameLogConfig) (flow : Name)
    (hflow : config.flowID = flow.bytes) (env : ℕ → Attempt) (s : State)
    (hfinds : ∀ i disk, ((env i).finds disk).disk.lookup (archivePath host.toHost flow) =
      disk.lookup (archivePath host.toHost flow))
    (harchive : ∀ desc t listable, config.moveTask.doMove host.toHost config.flowID s = (.ok desc, t) →
      t.disk.lookup (archivePath host.toHost flow) ≠ some (.dir listable))
    (r : Outcome × Desk) (hrun : uploadLog host config env s = some r) :
    Uploads (ArchiveSpared host.toHost config flow s) (archivePath host.toHost flow) 3 r ∧
      ((∀ i, (env i).client = none) → r.2.sent = [] ∧ r.1 ≠ .success) := by
  rw [uploadLog] at hrun
  split at hrun
  · split at hrun
    · cases hrun
    · rename_i desc t hmove
      obtain rfl := Option.some.inj hrun
      have hstart : OneArchive host.toHost (ArchiveSpared host.toHost config flow s)
          (archivePath host.toHost flow) ⟨⟨t.disk, false⟩, [], t.cleaner⟩ := by
        have hempty (P : Sent → Prop) : ∀ x ∈ [], P x := fun x hx => absurd hx List.not_mem_nil
        refine ⟨hempty _, fun listable => harchive desc t listable hmove, fun _ => ?_,
          fun hspared => hspared desc t hmove⟩
        rcases hlookup : t.disk.lookup (archivePath host.toHost flow) with _ | cell | listable
        · exact Or.inl ⟨rfl, rfl⟩
        · exact Or.inr ⟨cell, rfl, hempty _⟩
        · exact absurd hlookup (harchive desc t listable hmove)
      rw [hflow] at hmove
      have hpacked := packed_of_doMove hmove
      have hfinds' : ∀ a ∈ (List.range 3).map env, ∀ disk,
          (a.finds disk).disk.lookup (archivePath host.toHost flow) =
            disk.lookup (archivePath host.toHost flow) := by
        intro a ha
        obtain ⟨i, -, rfl⟩ := List.mem_map.mp ha
        exact hfinds i
      refine ⟨?_, fun hclient => ?_⟩
      · exact retry_uploads hpacked _ hfinds' hstart
      · refine retry_clientless hpacked _ hfinds' hstart rfl fun a ha => ?_
        obtain ⟨i, -, rfl⟩ := List.mem_map.mp ha
        exact hclient i
  · cases hrun

/-! ## An archive that is uploaded twice -/

/-- Something is put into a directory of a tree. -/
theorem closed_insert {d : Disk} (hd : d.Closed) {p : Path} (hp : d.lookup p = none) {listable : Bool}
    (hdir : d.lookup p.dropLast = some (.dir listable)) (e : Entry) : Disk.Closed (d.insert p e) := by
  intro q n hqn
  by_cases hself : q ++ [n] = p
  · have hq : q = p.dropLast := by rw [← hself, List.dropLast_concat]
    have hne : q ≠ p := fun hqp => by simp [hqp] at hself
    refine ⟨listable, ?_⟩
    rw [AList.lookup_insert_ne hne, hq, hdir]
  · rw [AList.lookup_insert_ne hself] at hqn
    obtain ⟨listable', hq⟩ := hd q n hqn
    have hne : q ≠ p := by
      rintro rfl
      rw [hp] at hq
      cases hq
    exact ⟨listable', by rw [AList.lookup_insert_ne hne, hq]⟩

def demoFlow : Name := ⟨ascii ['7'], by decide, by decide, by decide, by decide⟩

/-- The directory of the archives, with nothing in it. -/
def demoShelf : FileTree :=
  ⟨(∅ : Disk).mkdirs (archivePath demoHost demoFlow).dropLast, Disk.closed_of_keys (by decide)⟩

/-- The tree of an attempt: what is at the path of the archive, and nothing else. -/
def demoFinds (disk : Disk) : FileTree :=
  match disk.lookup (archivePath demoHost demoFlow) with
  | none => demoShelf
  | some e => ⟨demoShelf.disk.insert (archivePath demoHost demoFlow) e,
      closed_insert demoShelf.closed (by decide)
        (show _ = some (Entry.dir true) by decide) e⟩

theorem demoFinds_lookup (disk : Disk) :
    (demoFinds disk).disk.lookup (archivePath demoHost demoFlow) =
      disk.lookup (archivePath demoHost demoFlow) := by
  unfold demoFinds
  split
  · rename_i hnone
    rw [hnone]
    decide
  · rename_i e he
    rw [he]
    exact AList.lookup_insert _

/-- The first upload fails, and the second one does not. -/
def demoEnv (i : ℕ) : Attempt := ⟨100, fun _ => false, noFaults, some fun _ _ => i = 1, demoFinds⟩

def demoConfig : StopGameLogConfig := ⟨⟨0, 0, 0⟩, demoTask [], 2, demoFlow.bytes⟩

/-- An archive that has been packed before, and the entries of `logtmp` that go meanwhile. -/
def demoPackedBefore (cleaner : List (List Name)) : State :=
  ⟨⟨demoShelf.disk.insert (archivePath demoHost demoFlow) (.file ⟨ascii ['1'], 90, true, true⟩), []⟩,
    cleaner⟩

theorem demoPackedBefore_moved {cleaner : List (List Name)} {desc : ArchiveTaskDesc} {t : State}
    (hmove : demoConfig.moveTask.doMove demoHost demoConfig.flowID
      (demoPackedBefore ([] :: cleaner)) = (.ok desc, t)) :
    t.disk.lookup (archivePath demoHost demoFlow) = some (.file ⟨ascii ['1'], 90, true, true⟩) ∧
      t.cleaner = cleaner := by
  obtain rfl := (Prod.mk.inj hmove).2
  exact ⟨rfl, rfl⟩

/-- The first upload fails.  The second one is of the same archive if that has been spared, and of
another one if it has gone before the second attempt, which then packs what there is. -/
theorem uploads_one_archive_twice :
    (∃ r, uploadLog demoArchiveHost demoConfig demoEnv (demoPackedBefore [[], [demoFlow]]) = some r ∧
        r.2.sent.length = 2 ∧ ∃ cell, ∀ x ∈ r.2.sent, x.entry = some (.file cell)) ∧
      ∃ r, uploadLog demoArchiveHost demoConfig demoEnv
          (demoPackedBefore [[], [], [], [zipName demoFlow]]) = some r ∧
        (r.2.sent.map Sent.entry).Nodup ∧
          ∀ x ∈ r.2.sent, x.file = render (archivePath demoHost demoFlow) := by
  constructor
  · refine ⟨_, rfl, rfl, (uploads_one_archive demoArchiveHost demoConfig demoFlow rfl demoEnv
      (demoPackedBefore [[], [demoFlow]]) (fun _ => demoFinds_lookup) ?_ _ rfl).1.same ?_⟩
    · intro desc t listable hmove hdir
      cases (demoPackedBefore_moved hmove).1.symm.trans hdir
    · intro desc t hmove names hnames name hname
      rw [(demoPackedBefore_moved hmove).2] at hnames
      obtain rfl := List.mem_singleton.mp hnames
      obtain rfl := List.mem_singleton.mp hname
      decide
  · refine ⟨_, rfl, by decide, (uploads_one_archive demoArchiveHost demoConfig demoFlow rfl demoEnv
      (demoPackedBefore [[], [], [], [zipName demoFlow]]) (fun _ => demoFinds_lookup) ?_ _ rfl).1.named⟩
    intro desc t listable hmove hdir
    cases (demoPackedBefore_moved hmove).1.symm.trans hdir

end Accumulation.Logfile
