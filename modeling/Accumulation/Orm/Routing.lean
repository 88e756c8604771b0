/-
# Accumulation.Orm.Routing — which database a record is written to.

`Save`, `Upsert`, `Update` and their batch forms ask `GetGorm` for a handle once and write everything
on it.  A record names its database itself (`Database(sharding)`), but `GetGorm` prefers the
transaction of the context whatever database that was begun on, and of a batch only the first record
is asked.

gorm is a parameter: `Writer.Carries` says that a statement which fails has written nothing, and
that one which succeeds has written its records to the database of its handle.  Under this the calls
that route every record are known exactly (`routed_iff`).
-/
import Accumulation.Orm.Tx

namespace Accumulation.Orm

/-! ## Statements that write -/

/-- `clause.OnConflict` -/
structure OnConflict where
  columns : List String
  doUpdates : List String
  deriving DecidableEq, Repr

/-- Which of gorm's methods is called. -/
inductive WriteMethod
  | create
  | createInBatches (batchSize : Nat)
  | updates
  deriving DecidableEq, Repr

/-- A statement, with the records it is about: `none` is a value which is no `DBModel`. -/
structure WriteStatement where
  method : WriteMethod
  value : List (Option DBModel)
  onConflict : Option OnConflict

def WriteStatement.records (statement : WriteStatement) : List DBModel :=
  statement.value.filterMap id

variable {η σ ι : Type*}

/-- What is used of gorm. -/
structure Writer (η σ : Type*) where
  exec : η → WriteStatement → σ → Option Error × σ

/-- **A statement is carried out as a whole or not at all**: `written` are the records that have
been written so far, each with the database it went to, and `home` is the database of a handle. -/
structure Writer.Carries (gorm : Writer η σ) (home : η → ι) (written : σ → List (ι × DBModel)) :
    Prop where
  failed : ∀ db statement s e t, gorm.exec db statement s = (some e, t) → written t = written s
  done : ∀ db statement s t, gorm.exec db statement s = (none, t) →
    written t = written s ++ statement.records.map (Prod.mk (home db))

/-! ## The repository -/

inductive RepoError
  /-- an error of `GetGorm`, as it is -/
  | getGorm (err : Error)
  /-- `value is need slice %v` -/
  | needSlice (value : String)
  /-- `value is need DBModel %v` -/
  | needDBModel (value : String)
  /-- `[database]:%s  [table]:%s ,` and the operation, ` err[%v]` -/
  | write (database table operation : String) (err : Error)
  deriving DecidableEq, Repr

/-- A value that is given to a batch, with how `%v` prints it. -/
inductive BatchValue
  /-- a slice, or a pointer to one -/
  | slice (elems : List (Option DBModel)) (text : String)
  | other (text : String)

def BatchValue.elems : BatchValue → List (Option DBModel)
  | .slice elems _ => elems
  | .other _ => []

/-- `fetchDbModel`, where `none` is a panic: `Index(0)` of a slice without elements. -/
def fetchDbModel : BatchValue → Option (Except RepoError (DBModel × Nat))
  | .other text => some (.error (.needSlice text))
  | .slice [] _ => none
  | .slice (none :: _) text => some (.error (.needDBModel text))
  | .slice (some dbModel :: rest) _ => some (.ok (dbModel, rest.length + 1))

section Repo

variable (gorm : Writer η σ) (data : DbProvider η) (ctx : Context η)

/-- What the five functions have in common once the model is known. -/
def writeFor (operation : String) (dbModel : DBModel) (statement : WriteStatement) (s : σ) :
    Option RepoError × σ :=
  match getGorm ctx dbModel data with
  | .error err => (some (.getGorm err), s)
  | .ok db =>
    match gorm.exec db statement s with
    | (some err, s) =>
      (some (.write (dbModel.database data.sharding) dbModel.tableName operation err), s)
    | (none, s) => (none, s)

/-- What the two batch functions have in common. -/
def writeBatch (operation : String) (value : BatchValue) (onConflict : Option OnConflict) (s : σ) :
    Option (Option RepoError × σ) :=
  match fetchDbModel value with
  | none => none
  | some (.error err) => some (some err, s)
  | some (.ok (dbModel, batchSize)) =>
    some (writeFor gorm data ctx operation dbModel
      ⟨.createInBatches batchSize, value.elems, onConflict⟩ s)

def save (record : DBModel) : σ → Option RepoError × σ :=
  writeFor gorm data ctx "Save" record ⟨.create, [some record], none⟩

def batchSave (value : BatchValue) : σ → Option (Option RepoError × σ) :=
  writeBatch gorm data ctx "BatchSave" value none

def upsert (updateColumns conflictColumns : List String) (record : DBModel) :
    σ → Option RepoError × σ :=
  writeFor gorm data ctx "Upsert" record
    ⟨.create, [some record], some ⟨conflictColumns, updateColumns⟩⟩

def batchUpsert (updateColumns conflictColumns : List String) (value : BatchValue) :
    σ → Option (Option RepoError × σ) :=
  writeBatch gorm data ctx "BatchUpsert" value (some ⟨conflictColumns, updateColumns⟩)

def update (record : DBModel) : σ → Option RepoError × σ :=
  writeFor gorm data ctx "Update" record ⟨.updates, [some record], none⟩

end Repo

/-! ## Requests -/

/-- A call of one of the five, with the records it is to write. -/
inductive Request
  | save (record : DBModel)
  | batchSave (records : List DBModel) (text : String)
  | upsert (updateColumns conflictColumns : List String) (record : DBModel)
  | batchUpsert (updateColumns conflictColumns : List String) (records : List DBModel)
      (text : String)
  | update (record : DBModel)

namespace Request

def records : Request → List DBModel
  | .save record | .upsert _ _ record | .update record => [record]
  | .batchSave records _ | .batchUpsert _ _ records _ => records

/-- The call, where `none` is a panic. -/
def call (gorm : Writer η σ) (data : DbProvider η) (ctx : Context η) (s : σ) :
    Request → Option (Option RepoError × σ)
  | .save record => some (Orm.save gorm data ctx record s)
  | .batchSave records text =>
    Orm.batchSave gorm data ctx (.slice (records.map some) text) s
  | .upsert updateColumns conflictColumns record =>
    some (Orm.upsert gorm data ctx updateColumns conflictColumns record s)
  | .batchUpsert updateColumns conflictColumns records text =>
    Orm.batchUpsert gorm data ctx updateColumns conflictColumns (.slice (records.map some) text) s
  | .update record => some (Orm.update gorm data ctx record s)

/-- The name under which errors report the call. -/
def operation : Request → String
  | .save _ => "Save"
  | .batchSave _ _ => "BatchSave"
  | .upsert _ _ _ => "Upsert"
  | .batchUpsert _ _ _ _ => "BatchUpsert"
  | .update _ => "Update"

/-- The statement that goes to gorm. -/
def statement (request : Request) : WriteStatement :=
  { method := match request with
      | .save _ | .upsert _ _ _ => .create
      | .batchSave records _ | .batchUpsert _ _ records _ => .createInBatches records.length
      | .update _ => .updates
    value := request.records.map some
    onConflict := match request with
      | .upsert updateColumns conflictColumns _ | .batchUpsert updateColumns conflictColumns _ _ =>
        some ⟨conflictColumns, updateColumns⟩
      | _ => none }

@[simp]
theorem statement_records (request : Request) : request.statement.records = request.records := by
  simp [WriteStatement.records, statement, List.filterMap_map]

/-- **One handle for all records**: the one `GetGorm` finds for the first of them. -/
theorem call_cons (request : Request) {record : DBModel} {rest : List DBModel}
    (hrecords : request.records = record :: rest) (gorm : Writer η σ) (data : DbProvider η)
    (ctx : Context η) (s : σ) : request.call gorm data ctx s =
      some (writeFor gorm data ctx request.operation record request.statement s) := by
  rcases request with _ | ⟨records, text⟩ | _ | ⟨_, _, records, text⟩ | _
  · obtain rfl : _ = record := (List.cons.inj hrecords).1
    rfl
  · obtain rfl : records = record :: rest := hrecords
    simp [call, Orm.batchSave, writeBatch, fetchDbModel, BatchValue.elems, operation, statement,
      Request.records]
  · obtain rfl : _ = record := (List.cons.inj hrecords).1
    rfl
  · obtain rfl : records = record :: rest := hrecords
    simp [call, Orm.batchUpsert, writeBatch, fetchDbModel, BatchValue.elems, operation, statement,
      Request.records]
  · obtain rfl : _ = record := (List.cons.inj hrecords).1
    rfl

/-- Without records there is no first one. -/
theorem call_nil (request : Request) (hrecords : request.records = []) (gorm : Writer η σ)
    (data : DbProvider η) (ctx : Context η) (s : σ) : request.call gorm data ctx s = none := by
  rcases request with _ | ⟨records, text⟩ | _ | ⟨_, _, records, text⟩ | _
  · nomatch hrecords
  · obtain rfl : records = [] := hrecords
    rfl
  · nomatch hrecords
  · obtain rfl : records = [] := hrecords
    rfl
  · nomatch hrecords

end Request

/-! ## Routing -/

/-- The record names this database. -/
def Names (data : DbProvider η) (home : η → ι) (record : DBModel) (place : ι) : Prop :=
  ∃ db, data.getDB (record.database data.sharding) = some db ∧ home db = place

/-- What a caller relies on: an error and nothing written, or every record where it belongs. -/
inductive Routed (data : DbProvider η) (home : η → ι) (written : σ → List (ι × DBModel))
    (records : List DBModel) (s : σ) : Option (Option RepoError × σ) → Prop
  | failed (err : RepoError) (t : σ) (hwritten : written t = written s) :
      Routed data home written records s (some (some err, t))
  | done (t : σ) (placed : List (ι × DBModel)) (hwritten : written t = written s ++ placed)
      (hrecords : placed.map Prod.snd = records)
      (hplaced : ∀ entry ∈ placed, Names data home entry.2 entry.1) :
      Routed data home written records s (some (none, t))

/-- gorm takes the statement. -/
def Writer.Takes (gorm : Writer η σ) (db : η) (statement : WriteStatement) (s : σ) : Prop :=
  (gorm.exec db statement s).1 = none

/-- There are records, and if gorm takes them on the handle that is found for the first, then this
handle is of the database that each of them names. -/
def OneHome (gorm : Writer η σ) (data : DbProvider η) (ctx : Context η) (home : η → ι) (s : σ)
    (request : Request) : Prop :=
  ∃ first rest, request.records = first :: rest ∧
    ∀ db, getGorm ctx first data = .ok db → gorm.Takes db request.statement s →
      ∀ record ∈ request.records, Names data home record (home db)

section Routing

variable {gorm : Writer η σ} {home : η → ι} {written : σ → List (ι × DBModel)}
  {data : DbProvider η} {ctx : Context η} {s : σ}

/-- **A write on one handle** is routed exactly when the handle is of the database each record
names. -/
theorem writeFor_routed_iff (hgorm : gorm.Carries home written) (data : DbProvider η)
    (ctx : Context η) (s : σ) (operation : String) (dbModel : DBModel)
    (statement : WriteStatement) :
    Routed data home written statement.records s
        (some (writeFor gorm data ctx operation dbModel statement s)) ↔
      ∀ db, getGorm ctx dbModel data = .ok db → gorm.Takes db statement s →
        ∀ record ∈ statement.records, Names data home record (home db) := by
  rcases hdb : getGorm ctx dbModel data with err | db
  · simp only [writeFor, hdb]
    constructor
    · intro _ db heq
      nomatch heq
    · intro _
      exact .failed _ s rfl
  · rcases hexec : gorm.exec db statement s with ⟨err | _, t⟩
    · have hcall : writeFor gorm data ctx operation dbModel statement s = (none, t) := by
        simp [writeFor, hdb, hexec]
      have hwritten := hgorm.done db statement s t hexec
      rw [hcall]
      constructor
      · rintro (_ | ⟨_, placed, hplacedAll, hrecords, hplaced⟩) db' heq - record hrecord
        obtain rfl : db = db' := Except.ok.inj heq
        have hsame : placed = statement.records.map (Prod.mk (home db)) :=
          List.append_cancel_left (hplacedAll.symm.trans hwritten)
        refine hplaced (home db, record) ?_
        rw [hsame]
        exact List.mem_map_of_mem hrecord
      · intro hall
        refine .done t _ hwritten (by simp [Function.comp_def]) ?_
        intro entry hentry
        obtain ⟨record, hrecord, rfl⟩ := List.mem_map.mp hentry
        exact hall db rfl (by simp [Writer.Takes, hexec]) record hrecord
    · have hcall : ∃ e, writeFor gorm data ctx operation dbModel statement s = (some e, t) := by
        simp [writeFor, hdb, hexec]
      obtain ⟨e, hcall⟩ := hcall
      rw [hcall]
      constructor
      · intro _ db' heq htakes
        obtain rfl : db = db' := Except.ok.inj heq
        simp [Writer.Takes, hexec] at htakes
      · intro _
        exact .failed e t (hgorm.failed db statement s _ t hexec)

end Routing

/-- **Every record is written to the database it names exactly when there is one, and all of them
name the database of the handle that the first is given.** -/
theorem routed_iff (gorm : Writer η σ) (home : η → ι) (written : σ → List (ι × DBModel))
    (hgorm : gorm.Carries home written) (data : DbProvider η) (ctx : Context η) (s : σ)
    (request : Request) :
    Routed data home written request.records s (request.call gorm data ctx s) ↔
      OneHome gorm data ctx home s request := by
  rcases hrecords : request.records with _ | ⟨first, rest⟩
  · rw [request.call_nil hrecords]
    constructor
    · rintro ⟨⟩
    · rintro ⟨first, rest, hcons, -⟩
      rw [hrecords] at hcons
      nomatch hcons
  · have hwrite := writeFor_routed_iff hgorm data ctx s request.operation first request.statement
    rw [Request.statement_records] at hwrite
    rw [request.call_cons hrecords, ← hrecords, hwrite]
    constructor
    · intro hall
      exact ⟨first, rest, hrecords, hall⟩
    · rintro ⟨first', rest', hcons, hall⟩
      obtain ⟨rfl, rfl⟩ := List.cons.inj (hrecords.symm.trans hcons)
      exact hall

/-! ## Shards in memory -/

namespace Shards

/-- Two databases, whose handles are their names, and what has been written. -/
def gorm : Writer String (List (String × DBModel)) where
  exec db statement s := (none, s ++ statement.records.map (Prod.mk db))

theorem carries : gorm.Carries id id where
  failed _ _ _ _ _ h := by nomatch h
  done _ _ _ _ h := (Prod.mk.inj h).2.symm

def provider : DbProvider String :=
  ⟨fun database => if database = "a" ∨ database = "b" then some database else none, true⟩

def record (database : String) : DBModel := ⟨fun _ => database, "record"⟩

/-- Two records of one database. -/
theorem routed_iff_two : Routed provider id id [record "a", record "a"] []
    ((Request.batchSave [record "a", record "a"] "").call gorm provider ⟨none⟩ []) := by
  refine (routed_iff gorm id id carries provider ⟨none⟩ []
    (.batchSave [record "a", record "a"] "")).mpr ⟨_, _, rfl, ?_⟩
  rintro db hdb - _ hrecord
  obtain rfl : "a" = db := Except.ok.inj hdb
  obtain rfl : _ = record "a" := by simpa [Request.records] using hrecord
  exact ⟨"a", rfl, rfl⟩

/-- The second of two records goes to the database of the first, a record to that of the
transaction, and an empty list panics. -/
theorem misrouted :
    ¬ Routed provider id id [record "a", record "b"] []
      ((Request.batchSave [record "a", record "b"] "").call gorm provider ⟨none⟩ []) ∧
    ¬ Routed provider id id [record "b"] []
      ((Request.save (record "b")).call gorm provider (newTxContext ⟨none⟩ "a") []) ∧
    ¬ Routed provider id id [] []
      ((Request.batchSave [] "[]").call gorm provider ⟨none⟩ []) := by
  have hb : ¬ Names provider id (record "b") "a" := by
    rintro ⟨db, hdb, rfl⟩
    nomatch Option.some.inj hdb
  refine ⟨?_, ?_, ?_⟩
  · have hcall : (Request.batchSave [record "a", record "b"] "").call gorm provider ⟨none⟩ [] =
        some (none, [("a", record "a"), ("a", record "b")]) := rfl
    rw [hcall]
    rintro (_ | ⟨_, placed, hwritten, -, hplaced⟩)
    obtain rfl : _ = placed := hwritten
    exact hb (hplaced ("a", record "b") (by simp))
  · have hcall : (Request.save (record "b")).call gorm provider (newTxContext ⟨none⟩ "a") [] =
        some (none, [("a", record "b")]) := rfl
    rw [hcall]
    rintro (_ | ⟨_, placed, hwritten, -, hplaced⟩)
    obtain rfl : _ = placed := hwritten
    exact hb (hplaced ("a", record "b") (by simp))
  · rw [show (Request.batchSave [] "[]").call gorm provider ⟨none⟩ [] = none from rfl]
    rintro ⟨⟩

end Shards

end Accumulation.Orm
