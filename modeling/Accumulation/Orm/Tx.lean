/-
# Accumulation.Orm.Tx — `DoTransaction`, and what its result says about the database.

gorm is a parameter: a handle is whatever `*gorm.DB` is, and `Gorm.Atomic` is what the code relies on,
that a transaction works on a state of its own which a successful `Commit` puts in the place of the
committed one.  The body of a transaction is a tree of statements; what it does next may depend on
what a statement returned.

Whatever happens, the statements are committed together or not at all (`doTransaction_atomic`).  But
the deferred function recovers from a panic of the body and `DoTransaction` has no named result, so
it then returns nil, as it does after a commit.  Its result can be relied on exactly when the body
does not panic (`doTransaction_honest_iff`).
-/
import Mathlib.Data.List.Basic

namespace Accumulation.Orm

/-! ## gorm -/

/-- Errors, with the texts of the module's own. -/
inductive Error
  | driver (text : String)
  /-- `not found database,record[%v]` -/
  | notFoundDatabase (database : String)
  /-- `%w: rolling back transaction: %v` -/
  | rollingBack (err : Error)
  /-- `committing transaction: %v` -/
  | committing (err : Error)
  deriving DecidableEq, Repr

/-- What is used of gorm: `η` are the handles, `σ` is everything they refer to, and a statement of
`ψ` returns a value of `ν` if it does not fail. -/
structure Gorm (η σ ψ ν : Type*) where
  begin : η → σ → η × σ
  exec : η → ψ → σ → Except Error ν × σ
  commit : η → σ → η × σ
  rollback : η → σ → η × σ
  /-- the field `Error` -/
  error : η → Option Error

/-- A database as its users think of it: its committed state, the state each transaction works on,
and what statements do to a state. -/
structure Database (η σ ψ ν δ : Type*) where
  committed : σ → δ
  inTx : η → Prop
  working : η → σ → Option δ
  meaning : ψ → δ → Option (δ × ν)

variable {η σ ψ ν δ : Type*}

/-- **gorm's transactions are atomic.** -/
structure Gorm.Atomic (gorm : Gorm η σ ψ ν) (data : Database η σ ψ ν δ) : Prop where
  begin_inTx : ∀ db s, data.inTx (gorm.begin db s).1
  begin_committed : ∀ db s, data.committed (gorm.begin db s).2 = data.committed s
  begin_ok : ∀ db s, gorm.error (gorm.begin db s).1 = none →
    data.working (gorm.begin db s).1 (gorm.begin db s).2 = some (data.committed s)
  begin_failed : ∀ db s, gorm.error (gorm.begin db s).1 ≠ none →
    data.working (gorm.begin db s).1 (gorm.begin db s).2 = none
  exec_committed : ∀ tx statement s, data.inTx tx →
    data.committed (gorm.exec tx statement s).2 = data.committed s
  exec_ok : ∀ tx statement s v t, data.inTx tx → gorm.exec tx statement s = (.ok v, t) →
    ∃ w w', data.working tx s = some w ∧ data.meaning statement w = some (w', v) ∧
      data.working tx t = some w'
  exec_failed : ∀ tx statement s e t, data.inTx tx → gorm.exec tx statement s = (.error e, t) →
    data.working tx t = data.working tx s
  commit_ok : ∀ tx s, data.inTx tx → gorm.error (gorm.commit tx s).1 = none →
    data.working tx s = some (data.committed (gorm.commit tx s).2)
  commit_failed : ∀ tx s, data.inTx tx → gorm.error (gorm.commit tx s).1 ≠ none →
    data.committed (gorm.commit tx s).2 = data.committed s
  rollback_committed : ∀ tx s, data.inTx tx →
    data.committed (gorm.rollback tx s).2 = data.committed s

/-- One statement after the other, each on the state the one before has left. -/
def Database.meanings (data : Database η σ ψ ν δ) (statements : List ψ) (w : δ) : Option δ :=
  statements.foldlM (fun w statement => (data.meaning statement w).map Prod.fst) w

/-! ## Contexts -/

structure DBModel where
  database : Bool → String
  tableName : String

structure DbProvider (η : Type*) where
  getDB : String → Option η
  sharding : Bool

/-- A context, as far as it is looked at: the value under `transactionKey`. -/
structure Context (η : Type*) where
  transaction : Option η

def newTxContext (ctx : Context η) (db : η) : Context η := { ctx with transaction := some db }

def getTxContext (ctx : Context η) : Option η := ctx.transaction

/-- `GetGorm`: the transaction of the context before any database. -/
def getGorm (ctx : Context η) (record : DBModel) (data : DbProvider η) : Except Error η :=
  match getTxContext ctx with
  | some db => .ok db
  | none =>
    match data.getDB (record.database data.sharding) with
    | some db => .ok db
    | none => .error (.notFoundDatabase (record.database data.sharding))

/-- Under the context of a transaction every record is looked for in it. -/
theorem getGorm_newTxContext (ctx : Context η) (tx : η) (record : DBModel) (data : DbProvider η) :
    getGorm (newTxContext ctx tx) record data = .ok tx := rfl

/-! ## Bodies -/

/-- How a function is left. -/
inductive Exit
  | returned (err : Option Error)
  | panicked
  deriving DecidableEq, Repr

/-- The body of a transaction. -/
inductive Body (ψ ν : Type*)
  | exit (how : Exit)
  | exec (record : DBModel) (statement : ψ) (next : Except Error ν → Body ψ ν)

/-- What has come of a body: how it was left, and which statements have not failed. -/
structure Ran (σ ψ : Type*) where
  exit : Exit
  done : List ψ
  state : σ

def Body.run (gorm : Gorm η σ ψ ν) (provider : DbProvider η) (ctx : Context η) :
    Body ψ ν → σ → Ran σ ψ
  | .exit how, s => ⟨how, [], s⟩
  | .exec record statement next, s =>
    match getGorm ctx record provider with
    | .error e => run gorm provider ctx (next (.error e)) s
    | .ok db =>
      match gorm.exec db statement s with
      | (.error e, s) => run gorm provider ctx (next (.error e)) s
      | (.ok v, s) =>
        let ran := run gorm provider ctx (next (.ok v)) s
        { ran with done := statement :: ran.done }

/-- `DoTransaction` -/
def doTransaction (gorm : Gorm η σ ψ ν) (provider : DbProvider η) (ctx : Context η) (db : η)
    (fn : Body ψ ν) (s : σ) : Exit × σ :=
  let tx := (gorm.begin db s).1
  let ran := fn.run gorm provider (newTxContext ctx tx) (gorm.begin db s).2
  match ran.exit with
  -- recovered, and the result, which has no name, is nil
  | .panicked => (.returned none, (gorm.rollback tx ran.state).2)
  -- what `Rollback` returns is a handle, and never nil
  | .returned (some err) =>
    (.returned (some (.rollingBack err)), (gorm.rollback tx ran.state).2)
  | .returned none =>
    let ormDb := gorm.commit tx ran.state
    match gorm.error ormDb.1 with
    | some e => (.returned (some (.committing e)), ormDb.2)
    | none => (.returned none, ormDb.2)

/-! ## What a body does -/

section Atomic

variable {gorm : Gorm η σ ψ ν} {data : Database η σ ψ ν δ} {provider : DbProvider η}
  {ctx : Context η} {tx : η}

/-- In a transaction a statement is executed on its handle. -/
theorem Body.run_exec (record : DBModel) (statement : ψ) (next : Except Error ν → Body ψ ν)
    (s : σ) : (Body.exec record statement next).run gorm provider (newTxContext ctx tx) s =
      match gorm.exec tx statement s with
      | (.error e, t) => (next (.error e)).run gorm provider (newTxContext ctx tx) t
      | (.ok v, t) =>
        let ran := (next (.ok v)).run gorm provider (newTxContext ctx tx) t
        { ran with done := statement :: ran.done } := by
  simp only [Body.run, getGorm_newTxContext]

/-- **A body** leaves the committed state alone. -/
theorem Body.run_committed (hgorm : gorm.Atomic data) (htx : data.inTx tx) (fn : Body ψ ν) (s : σ) :
    data.committed (fn.run gorm provider (newTxContext ctx tx) s).state = data.committed s := by
  induction fn generalizing s with
  | exit e => rfl
  | exec record statement next ih =>
    have hexec := hgorm.exec_committed tx statement s htx
    rw [Body.run_exec]
    generalize gorm.exec tx statement s = r at hexec
    rcases r with ⟨e | v, t⟩
    · exact (ih (.error e) t).trans hexec
    · exact (ih (.ok v) t).trans hexec

/-- **A body** takes the state the transaction works on through its statements. -/
theorem Body.run_working (hgorm : gorm.Atomic data) (htx : data.inTx tx) (fn : Body ψ ν) {s : σ}
    {w : δ} (hw : data.working tx s = some w) :
    data.working tx (fn.run gorm provider (newTxContext ctx tx) s).state =
      data.meanings (fn.run gorm provider (newTxContext ctx tx) s).done w := by
  induction fn generalizing s w with
  | exit e => exact hw
  | exec record statement next ih =>
    rw [Body.run_exec]
    rcases hr : gorm.exec tx statement s with ⟨e | v, t⟩
    · exact ih (.error e) ((hgorm.exec_failed tx statement s e t htx hr).trans hw)
    · rcases hgorm.exec_ok tx statement s v t htx hr with ⟨u, w', hu, hmeaning, hw'⟩
      obtain rfl : u = w := Option.some.inj (hu.symm.trans hw)
      show _ = List.foldlM _ u (statement :: _)
      rw [List.foldlM_cons, hmeaning]
      exact ih (.ok v) hw'

/-- Without a transaction no statement gets through. -/
theorem Body.run_dead (hgorm : gorm.Atomic data) (htx : data.inTx tx) (fn : Body ψ ν) {s : σ}
    (hw : data.working tx s = none) :
    data.working tx (fn.run gorm provider (newTxContext ctx tx) s).state = none := by
  induction fn generalizing s with
  | exit e => exact hw
  | exec record statement next ih =>
    rw [Body.run_exec]
    rcases hr : gorm.exec tx statement s with ⟨e | v, t⟩
    · exact ih (.error e) ((hgorm.exec_failed tx statement s e t htx hr).trans hw)
    · rcases hgorm.exec_ok tx statement s v t htx hr with ⟨u, w', hu, -, -⟩
      rw [hw] at hu
      nomatch hu

/-! ## What `DoTransaction` does -/

section Call

variable (gorm : Gorm η σ ψ ν) (provider : DbProvider η) (ctx : Context η) (db : η) (fn : Body ψ ν)
  (s : σ)

/-- The run of the body in its transaction. -/
def bodyRun : Ran σ ψ :=
  fn.run gorm provider (newTxContext ctx (gorm.begin db s).1) (gorm.begin db s).2

/-- The call of `Commit` on what the body has left. -/
def commitRun : η × σ :=
  gorm.commit (gorm.begin db s).1 (bodyRun gorm provider ctx db fn s).state

/-- The body has returned nil and `Commit` has succeeded. -/
def Committed : Prop :=
  (bodyRun gorm provider ctx db fn s).exit = .returned none ∧
    gorm.error (commitRun gorm provider ctx db fn s).1 = none

/-- What a caller takes from the result: nil says that the statements are in the committed state,
anything else that the committed state is as before. -/
structure Honest (data : Database η σ ψ ν δ) : Prop where
  committed : Committed gorm provider ctx db fn s →
    (doTransaction gorm provider ctx db fn s).1 = .returned none ∧
      data.meanings (bodyRun gorm provider ctx db fn s).done (data.committed s) =
        some (data.committed (doTransaction gorm provider ctx db fn s).2)
  discarded : ¬ Committed gorm provider ctx db fn s →
    (doTransaction gorm provider ctx db fn s).1 ≠ .returned none ∧
      data.committed (doTransaction gorm provider ctx db fn s).2 = data.committed s

end Call

variable (gorm provider ctx) (db : η) (fn : Body ψ ν) (s : σ)

/-- **The ways through a call**: it commits, `Commit` fails, or it rolls back. -/
theorem doTransaction_cases :
    (Committed gorm provider ctx db fn s ∧ doTransaction gorm provider ctx db fn s =
      (.returned none, (commitRun gorm provider ctx db fn s).2)) ∨
    (∃ e, (bodyRun gorm provider ctx db fn s).exit = .returned none ∧
      gorm.error (commitRun gorm provider ctx db fn s).1 = some e ∧
      doTransaction gorm provider ctx db fn s =
        (.returned (some (.committing e)), (commitRun gorm provider ctx db fn s).2)) ∨
    (∃ result, (bodyRun gorm provider ctx db fn s).exit ≠ .returned none ∧
      (result = .returned none ↔ (bodyRun gorm provider ctx db fn s).exit = .panicked) ∧
      doTransaction gorm provider ctx db fn s =
        (result, (gorm.rollback (gorm.begin db s).1
          (bodyRun gorm provider ctx db fn s).state).2)) := by
  have hcall : doTransaction gorm provider ctx db fn s =
      match (bodyRun gorm provider ctx db fn s).exit with
      | .panicked => (.returned none,
          (gorm.rollback (gorm.begin db s).1 (bodyRun gorm provider ctx db fn s).state).2)
      | .returned (some err) => (.returned (some (.rollingBack err)),
          (gorm.rollback (gorm.begin db s).1 (bodyRun gorm provider ctx db fn s).state).2)
      | .returned none =>
        match gorm.error (commitRun gorm provider ctx db fn s).1 with
        | some e => (.returned (some (.committing e)), (commitRun gorm provider ctx db fn s).2)
        | none => (.returned none, (commitRun gorm provider ctx db fn s).2) := rfl
  rw [hcall]
  rcases hexit : (bodyRun gorm provider ctx db fn s).exit with (_ | err) | _
  · rcases herror : gorm.error (commitRun gorm provider ctx db fn s).1 with _ | e
    · exact Or.inl ⟨⟨hexit, herror⟩, rfl⟩
    · exact Or.inr (Or.inl ⟨e, rfl, rfl, rfl⟩)
  · exact Or.inr (Or.inr ⟨_, by simp, by simp, rfl⟩)
  · exact Or.inr (Or.inr ⟨_, by simp, by simp, rfl⟩)

variable {gorm provider ctx db fn s}

theorem bodyRun_committed (hgorm : gorm.Atomic data) :
    data.committed (bodyRun gorm provider ctx db fn s).state = data.committed s :=
  (fn.run_committed hgorm (hgorm.begin_inTx db s) _).trans (hgorm.begin_committed db s)

/-- What a successful `Commit` commits are the statements of the body. -/
theorem commitRun_meanings (hgorm : gorm.Atomic data)
    (hcommit : gorm.error (commitRun gorm provider ctx db fn s).1 = none) :
    data.meanings (bodyRun gorm provider ctx db fn s).done (data.committed s) =
      some (data.committed (commitRun gorm provider ctx db fn s).2) := by
  have htx := hgorm.begin_inTx db s
  have hworking := hgorm.commit_ok _ (bodyRun gorm provider ctx db fn s).state htx hcommit
  by_cases hbegin : gorm.error (gorm.begin db s).1 = none
  · exact (fn.run_working hgorm htx (hgorm.begin_ok db s hbegin)).symm.trans hworking
  · rw [bodyRun, fn.run_dead hgorm htx (hgorm.begin_failed db s hbegin)] at hworking
    nomatch hworking

/-- **All or nothing**, whatever the result says. -/
theorem doTransaction_atomic (hgorm : gorm.Atomic data) :
    data.committed (doTransaction gorm provider ctx db fn s).2 = data.committed s ∨
      data.meanings (bodyRun gorm provider ctx db fn s).done (data.committed s) =
        some (data.committed (doTransaction gorm provider ctx db fn s).2) := by
  have htx := hgorm.begin_inTx db s
  rcases doTransaction_cases gorm provider ctx db fn s with ⟨hcommitted, hcall⟩ |
    ⟨e, -, herror, hcall⟩ | ⟨result, -, -, hcall⟩
  · rw [hcall]
    exact Or.inr (commitRun_meanings hgorm hcommitted.2)
  · rw [hcall]
    refine Or.inl ((hgorm.commit_failed _ _ htx ?_).trans (bodyRun_committed hgorm))
    show gorm.error (commitRun gorm provider ctx db fn s).1 ≠ none
    rw [herror]
    exact Option.some_ne_none e
  · rw [hcall]
    exact Or.inl ((hgorm.rollback_committed _ _ htx).trans (bodyRun_committed hgorm))

/-- **The result is honest exactly when the body does not panic.** -/
theorem doTransaction_honest_iff (gorm : Gorm η σ ψ ν) (data : Database η σ ψ ν δ)
    (hgorm : gorm.Atomic data) (provider : DbProvider η) (ctx : Context η) (db : η)
    (fn : Body ψ ν) (s : σ) :
    Honest gorm provider ctx db fn s data ↔ (bodyRun gorm provider ctx db fn s).exit ≠ .panicked := by
  have htx := hgorm.begin_inTx db s
  rcases doTransaction_cases gorm provider ctx db fn s with ⟨hcommitted, hcall⟩ |
    ⟨e, hexit, herror, hcall⟩ | ⟨result, hexit, hresult, hcall⟩
  · constructor
    · intro _ hpanicked
      rw [hcommitted.1] at hpanicked
      nomatch hpanicked
    · intro _
      refine ⟨fun _ => ?_, fun hnot => absurd hcommitted hnot⟩
      rw [hcall]
      exact ⟨rfl, commitRun_meanings hgorm hcommitted.2⟩
  · have hne : gorm.error (commitRun gorm provider ctx db fn s).1 ≠ none := by
      rw [herror]
      exact Option.some_ne_none e
    constructor
    · intro _ hpanicked
      rw [hexit] at hpanicked
      nomatch hpanicked
    · intro _
      refine ⟨fun hcommitted => absurd hcommitted.2 hne, fun _ => ?_⟩
      rw [hcall]
      exact ⟨by simp, (hgorm.commit_failed _ _ htx hne).trans (bodyRun_committed hgorm)⟩
  · constructor
    · intro hhonest hpanicked
      apply (hhonest.discarded fun hcommitted => hexit hcommitted.1).1
      rw [hcall]
      exact hresult.mpr hpanicked
    · intro hnot
      refine ⟨fun hcommitted => absurd hcommitted.1 hexit, fun _ => ?_⟩
      rw [hcall]
      exact ⟨fun h => hnot (hresult.mp h),
        (hgorm.rollback_committed _ _ htx).trans (bodyRun_committed hgorm)⟩

end Atomic

/-! ## A database in memory -/

namespace Memory

/-- The numbers in the database, and those of the open transaction. -/
structure World where
  committed : List Nat
  working : Option (List Nat)

structure Handle where
  inTx : Bool
  error : Option Error

/-- Statements insert a number; there is room for numbers below ten. -/
def gorm : Gorm Handle World Nat Unit where
  begin _ s := (⟨true, none⟩, { s with working := some s.committed })
  exec h n s :=
    if n < 10 then
      match h.inTx, s.working with
      | true, some w => (.ok (), { s with working := some (n :: w) })
      | true, none => (.error (.driver "invalid transaction"), s)
      | false, _ => (.ok (), { s with committed := n :: s.committed })
    else (.error (.driver "out of range"), s)
  commit h s :=
    match s.working with
    | some w => (h, ⟨w, none⟩)
    | none => ({ h with error := some (.driver "invalid transaction") }, s)
  rollback h s := (h, { s with working := none })
  error := Handle.error

def database : Database Handle World Nat Unit (List Nat) where
  committed := World.committed
  inTx h := h.inTx = true ∧ h.error = none
  working _ := World.working
  meaning n w := if n < 10 then some (n :: w, ()) else none

theorem atomic : gorm.Atomic database where
  begin_inTx _ _ := ⟨rfl, rfl⟩
  begin_committed _ _ := rfl
  begin_ok _ _ _ := rfl
  begin_failed _ _ h := absurd rfl h
  exec_committed := by
    rintro tx n s ⟨htx, -⟩
    simp only [gorm, htx]
    split
    · rcases s.working with _ | w
      · rfl
      · rfl
    · rfl
  exec_ok := by
    rintro tx n s v t ⟨htx, -⟩ h
    simp only [gorm, htx] at h
    split at h
    · rename_i hn
      rcases hw : s.working with _ | w
      · rw [hw] at h
        nomatch h
      · rw [hw] at h
        obtain rfl := (Prod.mk.inj h).2
        exact ⟨w, n :: w, hw, if_pos hn, rfl⟩
    · nomatch h
  exec_failed := by
    rintro tx n s e t ⟨htx, -⟩ h
    simp only [gorm, htx] at h
    split at h
    · rcases hw : s.working with _ | w
      · rw [hw] at h
        obtain rfl := (Prod.mk.inj h).2
        rfl
      · rw [hw] at h
        nomatch h
    · obtain rfl := (Prod.mk.inj h).2
      rfl
  commit_ok := by
    rintro tx ⟨c, _ | w⟩ - h
    · nomatch h
    · rfl
  commit_failed := by
    rintro tx ⟨c, _ | w⟩ ⟨-, htx⟩ h
    · rfl
    · exact absurd htx h
  rollback_committed _ _ _ := rfl

def provider : DbProvider Handle := ⟨fun _ => none, false⟩

def record : DBModel := ⟨fun _ => "numbers", "number"⟩

/-- Insert a number and go on, or panic if that fails. -/
def insert (n : Nat) (next : Body Nat Unit) : Body Nat Unit :=
  .exec record n fun
    | .ok () => next
    | .error _ => .exit .panicked

/-- Two numbers fit. -/
theorem doTransaction_honest_two :
    Honest gorm provider ⟨none⟩ ⟨false, none⟩ (insert 1 (insert 2 (.exit (.returned none))))
      ⟨[], none⟩ database :=
  (doTransaction_honest_iff gorm database atomic provider ⟨none⟩ ⟨false, none⟩ _ _).mpr (by decide)

/-- The second number is too large, and the body panics. -/
theorem panicked_not_honest :
    ¬ Honest gorm provider ⟨none⟩ ⟨false, none⟩ (insert 1 (insert 20 (.exit (.returned none))))
      ⟨[], none⟩ database := by
  intro hhonest
  have hnot : ¬ Committed gorm provider ⟨none⟩ ⟨false, none⟩
      (insert 1 (insert 20 (.exit (.returned none)))) ⟨[], none⟩ := by
    rintro ⟨hexit, -⟩
    nomatch hexit
  exact (hhonest.discarded hnot).1 rfl

end Memory

end Accumulation.Orm
