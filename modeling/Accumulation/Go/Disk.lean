/-
# Accumulation.Go.Disk — a file tree and the operations that change it.

A `Disk` maps the paths of a tree to its files and directories.  Each operation comes as two parts:
why the operating system refuses it (`mkdirRefused` and its siblings), and what it does when it is
not refused (`FileOp.apply`).  Callers mostly need to know of the second that it leaves what is at
other paths as it is.
-/
import Accumulation.Go.File
import Accumulation.Go.Path

namespace Accumulation.Go

/-! ## The tree -/

/-- Why the operating system refuses an operation. -/
inductive Errno
  | notExist
  | notDir
  | isDir
  | notEmpty
  | denied
  | busy
  | invalid
  deriving DecidableEq, Repr

/-- What `rmdir` says of a path that does not end in a name. -/
def rmdirRefused (path : Bytes) : Option Errno :=
  match (named path).getLast? with
  | none => some .busy
  | some e => if e = [dot] then some .invalid else if e = [dot, dot] then some .notEmpty else none

/-- `endsWithDot` of package `os` -/
def endsWithDot (path : Bytes) : Bool := path = [dot] || [slash, dot].isSuffixOf path

/-- A regular file. -/
structure FileCell where
  content : Bytes
  modTime : Int
  readable : Bool
  writable : Bool
  deriving DecidableEq, Repr

inductive Entry
  | file (cell : FileCell)
  | dir (listable : Bool)
  deriving DecidableEq, Repr

abbrev Disk := AList fun _ : Path => Entry

namespace Disk

/-- Whatever is in the tree is in a directory of the tree. -/
def Closed (d : Disk) : Prop :=
  ∀ p n, d.lookup (p ++ [n]) ≠ none → ∃ listable, d.lookup p = some (.dir listable)

theorem Closed.lookup_below {d : Disk} (h : d.Closed) {p : Path} (n : Name)
    (hp : ∀ listable, d.lookup p ≠ some (.dir listable)) : d.lookup (p ++ [n]) = none := by
  by_contra hne
  obtain ⟨listable, hdir⟩ := h p n hne
  exact hp listable hdir

/-- Above a file there are directories only. -/
theorem Closed.dir_above {d : Disk} (h : d.Closed) {p q : Path} (hq : q ≠ [])
    (hpq : d.lookup (p ++ q) ≠ none) : ∃ listable, d.lookup p = some (.dir listable) := by
  induction q using List.reverseRecOn with
  | nil => exact absurd rfl hq
  | append_singleton q n ih =>
    rw [← List.append_assoc] at hpq
    rcases h (p ++ q) n hpq with ⟨listable, hdir⟩
    by_cases hnil : q = []
    · rw [hnil, List.append_nil] at hdir
      exact ⟨listable, hdir⟩
    · apply ih hnil
      rw [hdir]
      exact Option.some_ne_none _

theorem closed_of_keys {d : Disk}
    (h : ∀ q ∈ d.keys, q ≠ [] → ∃ listable, d.lookup q.dropLast = some (.dir listable)) :
    d.Closed := by
  intro p n hpn
  rw [← Option.isSome_iff_ne_none, AList.lookup_isSome, AList.mem_keys] at hpn
  have hdir := h _ hpn (by simp)
  rw [List.dropLast_concat] at hdir
  exact hdir

/-- Every file and every directory passes a test. -/
def every (d : Disk) (file : Path → FileCell → Bool) (dir : Bool → Bool) : Bool :=
  d.entries.all fun x => match x.2 with
    | .file cell => file x.1 cell
    | .dir listable => dir listable

section Every

variable {d : Disk} {file : Path → FileCell → Bool} {dir : Bool → Bool} {p : Path}

theorem file_of_every (h : d.every file dir = true) {cell : FileCell}
    (hp : d.lookup p = some (.file cell)) : file p cell = true :=
  List.all_eq_true.mp h _ (AList.mem_lookup_iff.mp (Option.mem_def.mpr hp))

theorem dir_of_every (h : d.every file dir = true) {listable : Bool}
    (hp : d.lookup p = some (.dir listable)) : dir listable = true :=
  List.all_eq_true.mp h _ (AList.mem_lookup_iff.mp (Option.mem_def.mpr hp))

end Every

/-- A file stands where the path needs a directory. -/
def crossesFile (d : Disk) (p : Path) : Bool :=
  p.inits.any fun q => match d.lookup q with
    | some (.file _) => true
    | _ => false

/-- `os.Stat` -/
def stat (d : Disk) (p : Path) : Except Errno Entry :=
  match d.lookup p with
  | some e => .ok e
  | none => .error (if d.crossesFile p then .notDir else .notExist)

/-- The names in a directory, sorted. -/
def names (d : Disk) (p : Path) : List Name :=
  (d.keys.filterMap fun q => if q.dropLast = p then q.getLast? else none).insertionSort
    fun n m => n.bytes ≤ m.bytes

def readDirNames (d : Disk) (p : Path) : Except Errno (List Name) :=
  match d.lookup p with
  | none => .error .notExist
  | some (.file _) => .error .notDir
  | some (.dir false) => .error .denied
  | some (.dir true) => .ok (d.names p)

/-! ## What is refused

`denied p` says that the directory of `p` may not be written, so that `p` can be neither made nor
removed. -/

/-- `os.MkdirAll` -/
def mkdirRefused (denied : Path → Bool) (d : Disk) (p : Path) : Option Errno :=
  if d.crossesFile p then some .notDir
  else if p.inits.any fun q => d.lookup q = none && denied q then some .denied
  else none

/-- `os.OpenFile` with `O_CREATE` -/
def createRefused (denied : Path → Bool) (d : Disk) (p : Path) : Option Errno :=
  match d.lookup p with
  | some (.file cell) => if cell.readable && cell.writable then none else some .denied
  | some (.dir _) => some .isDir
  | none =>
    match d.lookup p.dropLast with
    | some (.dir _) => if denied p then some .denied else none
    | some (.file _) => some .notDir
    | none => some .notExist

/-- `os.Open` -/
def openRefused (d : Disk) (p : Path) : Option Errno :=
  match d.lookup p with
  | some (.file cell) => if cell.readable then none else some .denied
  | some (.dir listable) => if listable then none else some .denied
  | none => some .notExist

/-- `os.Remove` -/
def removeRefused (denied : Path → Bool) (d : Disk) (p : Path) : Option Errno :=
  match d.lookup p with
  | none => some .notExist
  | some _ => if d.names p ≠ [] then some .notEmpty else if denied p then some .denied else none

/-- `os.RemoveAll` removes everything it can: what stays below `p` is what it may not remove, what
is in a directory it cannot list, and the directories above these. -/
def removable (denied : Path → Bool) (d : Disk) (p : Path) : List Path :=
  let stuck (r : Path) := denied r ||
    r.inits.any fun a => p.isPrefixOf a && a != r && d.lookup a == some (.dir false)
  d.keys.filter fun q => p.isPrefixOf q && !d.keys.any fun r => q.isPrefixOf r && stuck r

end Disk

/-- A tree as one finds it. -/
structure FileTree where
  disk : Disk
  closed : disk.Closed

/-! ## The operations -/

namespace Disk

/-- `os.MkdirAll` -/
def mkdirs (d : Disk) (p : Path) : Disk :=
  p.inits.foldl (fun d q => if d.lookup q = none then d.insert q (.dir true) else d) d

/-- `os.OpenFile` with `O_RDWR|O_CREATE` -/
def opened (now : Int) (d : Disk) (p : Path) : Disk :=
  if d.lookup p = none then d.insert p (.file ⟨[], now, true, true⟩) else d

/-- `io.Copy` from one open file to another, from the beginning of both. -/
def copied (now : Int) (d : Disk) (src dst : Path) : Disk :=
  match d.lookup src, d.lookup dst with
  | some (.file source), some (.file cell) =>
    d.insert dst (.file { cell with
      content := overwrite cell.content 0 source.content
      modTime := if source.content = [] then cell.modTime else now })
  | _, _ => d

/-- `os.Create` -/
def created (now : Int) (d : Disk) (p : Path) : Disk :=
  match d.lookup p with
  | some (.file cell) => d.insert p (.file { cell with content := [], modTime := now })
  | some (.dir _) => d
  | none => d.insert p (.file ⟨[], now, true, true⟩)

/-- `os.Remove` or `os.RemoveAll`, with all that it removes. -/
def erased (d : Disk) (gone : List Path) : Disk := gone.foldl (fun d q => d.erase q) d

/-- The file at `p`, if it is still there, with what has been written to it since it was opened. -/
def rewritten (d : Disk) (p : Path) (content : Bytes) : Disk :=
  match d.lookup p with
  | some (.file cell) => d.insert p (.file { cell with content })
  | _ => d

end Disk

/-- An operation that changes the tree. -/
inductive FileOp
  | mkdirAll (p : Path)
  | openFile (p : Path)
  | copy (src dst : Path)
  | create (p : Path)
  | erase (gone : List Path)
  deriving DecidableEq

/-- The tree after an operation at time `now`. -/
def FileOp.apply (now : Int) (d : Disk) : FileOp → Disk
  | .mkdirAll p => d.mkdirs p
  | .openFile p => d.opened now p
  | .copy src dst => d.copied now src dst
  | .create p => d.created now p
  | .erase gone => d.erased gone

/-! ## What an operation does to what is in the tree -/

variable {now : Int} {d : Disk} {p q : Path} {e : Entry}

/-- What is made anew is made elsewhere. -/
theorem lookup_insert_new (h : d.lookup q = some e) (hp : d.lookup p = none) (e' : Entry) :
    (d.insert p e').lookup q = some e := by
  have hne : q ≠ p := by
    intro hqp
    rw [hqp, hp] at h
    nomatch h
  rw [AList.lookup_insert_ne hne]
  exact h

theorem lookup_mkdirs (h : d.lookup q = some e) : (d.mkdirs p).lookup q = some e := by
  unfold Disk.mkdirs
  induction p.inits generalizing d with
  | nil => exact h
  | cons r rs ih =>
    rw [List.foldl_cons]
    apply ih
    split
    · rename_i hr
      exact lookup_insert_new h hr _
    · exact h

theorem lookup_opened (h : d.lookup q = some e) : (d.opened now p).lookup q = some e := by
  unfold Disk.opened
  split
  · rename_i hp
    exact lookup_insert_new h hp _
  · exact h

theorem lookup_copied_ne {src dst : Path} (hq : q ≠ dst) :
    (d.copied now src dst).lookup q = d.lookup q := by
  unfold Disk.copied
  split
  · exact AList.lookup_insert_ne hq
  · rfl

/-- Nothing is copied onto a directory. -/
theorem lookup_copied_dir {src dst : Path} {listable : Bool}
    (h : d.lookup q = some (.dir listable)) :
    (d.copied now src dst).lookup q = some (.dir listable) := by
  by_cases hq : q = dst
  · unfold Disk.copied
    rw [← hq, h]
    split
    · rename_i hfile
      nomatch hfile
    · exact h
  · rw [lookup_copied_ne hq]
    exact h

theorem lookup_created_ne (hq : q ≠ p) : (d.created now p).lookup q = d.lookup q := by
  unfold Disk.created
  split
  · exact AList.lookup_insert_ne hq
  · rfl
  · exact AList.lookup_insert_ne hq

theorem lookup_erased {gone : List Path} (hq : q ∉ gone) :
    (d.erased gone).lookup q = d.lookup q := by
  unfold Disk.erased
  induction gone generalizing d with
  | nil => rfl
  | cons p gone ih =>
    rw [List.mem_cons, not_or] at hq
    rw [List.foldl_cons, ih hq.2, AList.lookup_erase_ne hq.1]

/-- Nothing comes back. -/
theorem lookup_erased_none (gone : List Path) (h : d.lookup q = none) :
    (d.erased gone).lookup q = none := by
  unfold Disk.erased
  induction gone generalizing d with
  | nil => exact h
  | cons p gone ih =>
    apply ih
    by_cases hq : q = p
    · rw [hq]
      exact AList.lookup_erase p d
    · rw [AList.lookup_erase_ne hq]
      exact h

theorem lookup_rewritten_ne (hq : q ≠ p) (content : Bytes) :
    (d.rewritten p content).lookup q = d.lookup q := by
  unfold Disk.rewritten
  split
  · exact AList.lookup_insert_ne hq
  · rfl

theorem lookup_rewritten {cell : FileCell} (h : d.lookup p = some (.file cell)) (content : Bytes) :
    (d.rewritten p content).lookup p = some (.file { cell with content }) := by
  unfold Disk.rewritten
  rw [h]
  exact AList.lookup_insert d

/-- Nothing comes or goes. -/
theorem lookup_rewritten_eq_none (content : Bytes) :
    (d.rewritten p content).lookup q = none ↔ d.lookup q = none := by
  by_cases hq : q = p
  · subst hq
    unfold Disk.rewritten
    split
    · rename_i cell hcell
      rw [AList.lookup_insert, hcell]
      exact iff_of_false (fun h => (nomatch h)) fun h => (nomatch h)
    · exact Iff.rfl
  · rw [lookup_rewritten_ne hq]

/-- A file there holds what has been written. -/
theorem content_of_rewritten {content : Bytes} {cell : FileCell}
    (h : (d.rewritten p content).lookup p = some (.file cell)) : cell.content = content := by
  unfold Disk.rewritten at h
  split at h
  · rw [AList.lookup_insert] at h
    rw [← Entry.file.inj (Option.some.inj h)]
  · rename_i hno
    exact absurd h (hno cell)

/-- What is removed is gone. -/
theorem lookup_erased_mem {gone : List Path} (hq : q ∈ gone) : (d.erased gone).lookup q = none := by
  induction gone generalizing d with
  | nil => nomatch hq
  | cons p gone ih =>
    rcases List.mem_cons.mp hq with rfl | hq
    · exact lookup_erased_none gone (AList.lookup_erase q d)
    · exact ih hq

/-- **A copy** holds what its source holds, and behind it what was there before. -/
theorem lookup_copied (now : Int) {src dst : Path} {source cell : FileCell}
    (hsrc : d.lookup src = some (.file source)) (hdst : d.lookup dst = some (.file cell)) :
    ∃ copied, (d.copied now src dst).lookup dst = some (.file copied) ∧
      copied.content = source.content ++ cell.content.drop source.content.length := by
  unfold Disk.copied
  rw [hsrc, hdst]
  refine ⟨_, AList.lookup_insert _, ?_⟩
  show overwrite cell.content 0 source.content = _
  unfold overwrite
  split
  · rename_i hnil
    rw [hnil]
    rfl
  · rw [Nat.zero_add]
    simp

theorem mem_names {d : Disk} {p : Path} {n : Name} :
    n ∈ d.names p ↔ d.lookup (p ++ [n]) ≠ none := by
  rw [Disk.names, List.mem_insertionSort, List.mem_filterMap, ← Option.isSome_iff_ne_none,
    AList.lookup_isSome, AList.mem_keys]
  constructor
  · rintro ⟨q, hq, hn⟩
    split at hn
    · rename_i hp
      have hlast := List.dropLast_append_getLast? n hn
      rw [hp] at hlast
      rw [hlast]
      exact hq
    · nomatch hn
  · intro hq
    exact ⟨p ++ [n], hq, by simp⟩

/-- What `RemoveAll` removes: nothing at or below it is stuck. -/
theorem mem_removable {denied : Path → Bool} {root f : Path} : f ∈ d.removable denied root ↔
    d.lookup f ≠ none ∧ root <+: f ∧ ∀ r, d.lookup r ≠ none → f <+: r → denied r = false ∧
      ∀ a, a <+: r → root <+: a → a ≠ r → d.lookup a ≠ some (.dir false) := by
  have hkeys (q : Path) : q ∈ d.keys ↔ d.lookup q ≠ none := by
    rw [← AList.mem_keys, ← AList.lookup_isSome, Option.isSome_iff_ne_none]
  simp only [Disk.removable, List.mem_filter, hkeys, Bool.and_eq_true, Bool.not_eq_true',
    List.isPrefixOf_iff_prefix, List.any_eq_false, Bool.or_eq_true, List.any_eq_true,
    List.mem_inits, not_and, not_or, not_exists, bne_iff_ne, beq_iff_eq, Bool.not_eq_true]
  refine and_congr_right fun _ => and_congr_right fun _ => forall_congr' fun r => ?_
  refine imp_congr_right fun _ => imp_congr_right fun _ => and_congr_right fun _ => ?_
  exact forall_congr' fun a => by tauto

/-! ## Closed trees -/

/-- A path is in the tree after `MkdirAll` if it was there before or leads to the directory made. -/
theorem lookup_mkdirs_eq (d : Disk) (p q : Path) : (d.mkdirs p).lookup q =
    match d.lookup q with
    | some e => some e
    | none => if q <+: p then some (.dir true) else none := by
  have hmade (qs : List Path) (d : Disk) :
      (qs.foldl (fun d q => if d.lookup q = none then d.insert q (.dir true) else d) d).lookup q =
        (d.lookup q).or (if q ∈ qs then some (.dir true) else none) := by
    induction qs generalizing d with
    | nil => simp
    | cons r qs ih =>
      rw [List.foldl_cons, ih]
      by_cases hq : q = r
      · subst hq
        cases hd : d.lookup q with
        | none => simp
        | some e => simp [hd]
      · have hsame : (if d.lookup r = none then d.insert r (.dir true) else d).lookup q =
            d.lookup q := by
          split
          · exact AList.lookup_insert_ne hq
          · rfl
        rw [hsame]
        simp [hq]
  rw [Disk.mkdirs, hmade]
  simp only [List.mem_inits]
  cases d.lookup q with
  | none => rfl
  | some e => rfl

theorem crossesFile_eq_false (h : d.crossesFile p = false) (hq : q <+: p) (cell : FileCell) :
    d.lookup q ≠ some (.file cell) := by
  intro hfile
  have hno := List.any_eq_false.mp h q ((List.mem_inits q p).mpr hq)
  rw [hfile] at hno
  exact hno rfl

/-- **`MkdirAll` keeps a tree closed.** -/
theorem closed_mkdirs (hd : d.Closed) (h : d.crossesFile p = false) : (d.mkdirs p).Closed := by
  intro r n hrn
  rw [lookup_mkdirs_eq] at hrn ⊢
  cases hr : d.lookup r with
  | some e =>
    cases e with
    | dir listable => exact ⟨listable, rfl⟩
    | file cell =>
      -- below a file there is nothing, and nothing is made
      exfalso
      rw [hd.lookup_below n (by simp [hr])] at hrn
      by_cases hprefix : r ++ [n] <+: p
      · exact crossesFile_eq_false h ((List.prefix_append r [n]).trans hprefix) cell hr
      · exact hrn (if_neg hprefix)
  | none =>
    refine ⟨true, if_pos ?_⟩
    rw [hd.lookup_below n (by simp [hr])] at hrn
    by_contra hnot
    exact hrn (if_neg fun hprefix => hnot ((List.prefix_append r [n]).trans hprefix))

/-- **A file made in a closed tree** leaves it closed. -/
theorem closed_created {denied : Path → Bool} (hd : d.Closed)
    (h : d.createRefused denied p = none) : (d.created now p).Closed := by
  have hparent (hp : d.lookup p = none) :
      ∃ listable, d.lookup p.dropLast = some (.dir listable) := by
    unfold Disk.createRefused at h
    rw [hp] at h
    dsimp only at h
    split at h
    · rename_i listable hdir
      exact ⟨listable, hdir⟩
    · nomatch h
    · nomatch h
  -- the entries of the new tree are those of the old one and the file
  have hkey (q : Path) (hq : (d.created now p).lookup q ≠ none) : q = p ∨ d.lookup q ≠ none := by
    by_cases hqp : q = p
    · exact Or.inl hqp
    · rw [lookup_created_ne hqp] at hq
      exact Or.inr hq
  have hdirs (q : Path) (hq : ∃ listable, d.lookup q = some (.dir listable)) :
      ∃ listable, (d.created now p).lookup q = some (.dir listable) := by
    rcases hq with ⟨listable, hq⟩
    refine ⟨listable, ?_⟩
    by_cases hqp : q = p
    · subst hqp
      unfold Disk.createRefused at h
      rw [hq] at h
      nomatch h
    · rw [lookup_created_ne hqp]
      exact hq
  intro r n hrn
  apply hdirs
  rcases hkey _ hrn with hp | hold
  · by_cases hthere : d.lookup p = none
    · rcases hparent hthere with ⟨listable, hdir⟩
      rw [← hp, List.dropLast_concat] at hdir
      exact ⟨listable, hdir⟩
    · rw [← hp] at hthere
      exact hd r n hthere
  · exact hd r n hold

/-- So does opening a file. -/
theorem closed_opened {denied : Path → Bool} (hd : d.Closed)
    (h : d.createRefused denied p = none) : (d.opened now p).Closed := by
  by_cases hp : d.lookup p = none
  · have hsame : d.opened now p = d.created now p := by
      rw [Disk.opened, if_pos hp, Disk.created, hp]
    rw [hsame]
    exact closed_created hd h
  · rw [Disk.opened, if_neg hp]
    exact hd

/-- And writing to one. -/
theorem closed_copied (hd : d.Closed) (src dst : Path) : (d.copied now src dst).Closed := by
  intro q n hqn
  have hold : d.lookup (q ++ [n]) ≠ none := by
    intro hnone
    apply hqn
    by_cases hself : q ++ [n] = dst
    · unfold Disk.copied
      split
      · rename_i hdst
        rw [← hself, hnone] at hdst
        nomatch hdst
      · exact hnone
    · exact (lookup_copied_ne hself).trans hnone
  obtain ⟨listable, hdir⟩ := hd q n hold
  exact ⟨listable, lookup_copied_dir hdir⟩

/-- **A tree stays closed** where what is removed takes everything below it along. -/
theorem closed_erased (hd : d.Closed) {gone : List Path}
    (hbelow : ∀ p ∈ gone, ∀ q, d.lookup q ≠ none → p <+: q → q ∈ gone) :
    (d.erased gone).Closed := by
  intro q n hqn
  have hstays : q ++ [n] ∉ gone := fun hmem => hqn (lookup_erased_mem hmem)
  rw [lookup_erased hstays] at hqn
  obtain ⟨listable, hdir⟩ := hd q n hqn
  refine ⟨listable, ?_⟩
  rw [lookup_erased fun hmem => hstays (hbelow q hmem _ hqn (List.prefix_append q [n]))]
  exact hdir

theorem removable_below {denied : Path → Bool} {root f : Path} (h : p ∈ d.removable denied root)
    (hf : d.lookup f ≠ none) (hpf : p <+: f) : f ∈ d.removable denied root := by
  rw [mem_removable] at h ⊢
  exact ⟨hf, h.2.1.trans hpf, fun r hr hfr => h.2.2 r hr (hpf.trans hfr)⟩

end Accumulation.Go
