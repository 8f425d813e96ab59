import Leibrix.EpochEngine

/-!
# The source clients

Both clients run a query in a task of their own and hand its batches over through a
channel. The JDBC client builds batches from rows, the ADBC client passes on the batches of
each endpoint. An error ends the task and is logged there. What the driver and the Arrow
library answer is given with the source.
-/

set_option autoImplicit false

namespace Leibrix.SourceClients
open ArrowBatch EpochEngine

inductive SourceError where
  | config (catalog reason : String)
  | network (catalog source : String)
  | engineUnavailable (catalog reason : String)
  | query (catalog message : String)
  | protocol (catalog message : String)
  | internal (catalog source : String)
  deriving DecidableEq

def SourceError.text : SourceError → String
  | .config catalog reason => "configuration error for `" ++ catalog ++ "`: " ++ reason
  | .network catalog source => "network error for `" ++ catalog ++ "`: " ++ source
  | .engineUnavailable catalog reason => "engine `" ++ catalog ++ "` unavailable: " ++ reason
  | .query catalog message => "query error on `" ++ catalog ++ "`: " ++ message
  | .protocol catalog message => "protocol error on `" ++ catalog ++ "`: " ++ message
  | .internal catalog source => "internal adapter error on `" ++ catalog ++ "`: " ++ source

abbrev Item := Except SourceError RecordBatch

abbrev RecordBatchStream := List (Except StorageError RecordBatch)

/-- How a query task ends. -/
inductive Ended where
  | done
  | failed (e : SourceError)
  | panicked (message : String)
  deriving DecidableEq

def receiverStream (backend : String) (sent : List Item) : RecordBatchStream :=
  sent.map fun item => item.mapError fun e => .backend backend e.text

section Jdbc

/-- The types that a column can be read as. -/
inductive SqlType where
  | bool | i32 | i64 | f64 | string | date | timestamp
  deriving DecidableEq

/-- Dates count days and timestamps count microseconds from 1970. -/
def SqlType.holds : SqlType → Value → Bool
  | .bool, .bool _ => true
  | .i32, .int n => signedRange 32 n
  | .i64, .int n => signedRange 64 n
  | .f64, .float _ | .string, .text _ => true
  | .date, .int days => signedRange 32 days
  | .timestamp, .int micros => signedRange 64 micros
  | _, _ => false

structure MySqlRow where
  tryGet : SqlType → Nat → Except String (Option Value)
  typed : ∀ ty idx v, tryGet ty idx = .ok (some v) → ty.holds v = true

abbrev I128 := { n : Int // signedRange 128 n = true }

/-- What the Arrow library answers: the texts of types, the precisions and scales of decimals that
it takes, and its error for columns that do not make a batch. -/
structure Arrow where
  debugType : DataType → String
  decimalOk : Nat → Int → Bool
  tryNew : Schema → List Row → Option String

variable (arrow : Arrow) (parseDecimal : String → Int → Except String I128) (schema : Schema)

def createBatchBuilders : Except String Unit :=
  schema.forM fun field =>
    match field.dataType with
    | .boolean | .int32 | .int64 | .float64 | .utf8 | .date32 | .timestamp _ => .ok ()
    | .decimal128 precision scale =>
      if arrow.decimalOk precision scale then .ok () else .error "invalid precision or scale"
    | dataType => .error ("Unsupported data type: " ++ arrow.debugType dataType)

def getOpt (catalog : String) (row : MySqlRow) (ty : SqlType) (what : String) (idx : Nat) :
    Except SourceError Cell :=
  (row.tryGet ty idx).mapError fun e =>
    .protocol catalog ("failed to get " ++ what ++ " at index " ++ toString idx ++ ": " ++ e)

def addRowToBuilder (catalog : String) (row : MySqlRow) (idx : Nat) (field : Field) :
    Except SourceError Cell :=
  match field.dataType with
  | .boolean => getOpt catalog row .bool "bool" idx
  | .int32 => getOpt catalog row .i32 "i32" idx
  | .int64 => getOpt catalog row .i64 "i64" idx
  | .float64 => getOpt catalog row .f64 "f64" idx
  | .utf8 => getOpt catalog row .string "string" idx
  | .date32 => getOpt catalog row .date "date" idx
  | .timestamp _ => getOpt catalog row .timestamp "timestamp" idx
  | .decimal128 _ scale =>
    match getOpt catalog row .string "decimal" idx with
    | .error e => .error e
    | .ok (some (.text v)) =>
      match parseDecimal v scale with
      | .ok scaled => .ok (some (.int scaled))
      | .error e => .error (.protocol catalog ("failed to parse decimal '" ++ v ++ "': " ++ e))
    | .ok _ => .ok none
  | dataType => .error (.protocol catalog ("unsupported data type: " ++ arrow.debugType dataType))

def addRow (catalog : String) (row : MySqlRow) : Nat → List Field → Except SourceError Row
  | _, [] => .ok []
  | idx, field::fields =>
    match addRowToBuilder arrow parseDecimal catalog row idx field with
    | .error e => .error e
    | .ok cell =>
      match addRow catalog row (idx + 1) fields with
      | .error e => .error e
      | .ok cells => .ok (cell :: cells)

variable {catalog : String} {row : MySqlRow} {idx : Nat} {cell : Cell}

variable {ty : SqlType} {what : String}

theorem getOpt_holds (h : getOpt catalog row ty what idx = .ok cell) :
    ∀ v, cell = some v → ty.holds v = true := by
  unfold getOpt at h
  cases hget : row.tryGet ty idx with
  | error e =>
    rw [hget] at h
    cases h
  | ok got =>
    rw [hget] at h
    cases h
    intro v hv
    subst hv
    exact row.typed ty idx v hget

theorem fits_of_getOpt {dataType : DataType} (h : getOpt catalog row ty what idx = .ok cell)
    (hty : ∀ v, ty.holds v = true → dataType.fits v = true) : cell.all dataType.fits = true := by
  cases cell with
  | none => rfl
  | some v => exact hty v (getOpt_holds h v rfl)

theorem addRowToBuilder_fits {field : Field}
    (h : addRowToBuilder arrow parseDecimal catalog row idx field = .ok cell) :
    cell.all field.dataType.fits = true := by
  unfold addRowToBuilder at h
  split at h
  case h_8 precision scale htype =>
    rw [htype]
    split at h
    · cases h
    · split at h
      · rename_i scaled _
        cases h
        exact scaled.2
      · cases h
    · cases h
      rfl
  case h_9 => cases h
  all_goals
    rename_i htype
    rw [htype]
    refine fits_of_getOpt h fun v hv => ?_
    cases v <;> exact hv

theorem addRow_fits {fields : List Field} {cells : Row}
    (h : addRow arrow parseDecimal catalog row idx fields = .ok cells) : RowFits fields cells := by
  induction fields generalizing idx cells with
  | nil =>
    cases h
    exact .nil
  | cons field fields ih =>
    rw [addRow] at h
    split at h
    · cases h
    · rename_i cell hcell
      split at h
      · cases h
      · rename_i rest hrest
        cases h
        exact .cons (addRowToBuilder_fits arrow parseDecimal hcell) (ih hrest)

abbrev FitRow := { row : Row // RowFits schema row }

def convertRow (catalog : String) (schema : Schema) (row : MySqlRow) :
    Except SourceError (FitRow schema) :=
  match h : addRow arrow parseDecimal catalog row 0 schema with
  | .error e => .error e
  | .ok cells => .ok ⟨cells, addRow_fits arrow parseDecimal h⟩

def finalizeBatch (catalog : String) (schema : Schema) (builders : List (FitRow schema)) :
    Except SourceError RecordBatch :=
  match arrow.tryNew schema (builders.map (·.1)) with
  | some e => .error (.internal catalog e)
  | none => .ok ⟨schema, builders.map (·.1), fun _ hrow => by
      obtain ⟨fit, -, rfl⟩ := List.mem_map.mp hrow
      exact fit.2⟩

def runRows (catalog : String) (schema : Schema) (batchSize : Nat) :
    List (FitRow schema) → List (Except String MySqlRow) → List Item × Ended
  | builders, [] =>
    if 0 < builders.length then
      match finalizeBatch arrow catalog schema builders with
      | .ok batch => ([.ok batch], .done)
      | .error e => ([], .failed e)
    else ([], .done)
  | _, .error e::_ => ([], .failed (.query catalog ("failed to fetch row: " ++ e)))
  | builders, .ok row::rest =>
    match convertRow arrow parseDecimal catalog schema row with
    | .error e => ([], .failed e)
    | .ok converted =>
      if batchSize ≤ (builders ++ [converted]).length then
        match finalizeBatch arrow catalog schema (builders ++ [converted]) with
        | .error e => ([], .failed e)
        | .ok batch =>
          let (sent, ended) := runRows catalog schema batchSize [] rest
          (.ok batch :: sent, ended)
      else runRows catalog schema batchSize (builders ++ [converted]) rest

/-- A JDBC source: how its pool was set up, the client's state, and what the query fetches. A
query that cannot get a connection fetches an error. -/
structure JdbcSource where
  pool : Except SourceError Unit
  isClosing : Bool
  batchSize : Option Nat
  fetched : List (Except String MySqlRow)

def defaultBatchSize : Nat := 8192

variable (s : JdbcSource)

def JdbcSource.batchSz : Nat :=
  max 1 (min (s.batchSize.getD defaultBatchSize) 100000)

def runQueryAsync : List Item × Ended :=
  match createBatchBuilders arrow schema with
  | .error message => ([], .panicked message)
  | .ok () => runRows arrow parseDecimal "starrocks" schema s.batchSz [] s.fetched

def jdbcQuery : Except StorageError RecordBatchStream :=
  if s.isClosing then .error (.backend "starrocks-jdbc" "client is shutting down")
  else .ok (receiverStream "starrocks-jdbc" (runQueryAsync arrow parseDecimal schema s).1)

end Jdbc

/-- An endpoint without a ticket is passed over. The batches of a stream end at its first error. -/
structure Endpoint where
  ticket : Bool
  doGet : Except String (List (Except String RecordBatch))

structure AdbcSource where
  catalogName : String
  permit : Except String Unit
  uri : String
  validUri : Except String Unit
  connect : Except String Unit
  execute : Except String (List Endpoint)

variable (catalog : String)

def runBatches : List (Except String RecordBatch) → List Item × Ended
  | [] => ([], .done)
  | .error e::_ => ([], .failed (.protocol catalog ("error reading result stream: " ++ e)))
  | .ok batch::rest =>
    let (sent, ended) := runBatches rest
    (.ok batch :: sent, ended)

def runEndpoints : List Endpoint → List Item × Ended
  | [] => ([], .done)
  | endpoint::rest =>
    if endpoint.ticket then
      match endpoint.doGet with
      | .error e => ([], .failed (.protocol catalog ("failed to fetch results: " ++ e)))
      | .ok batches =>
        match runBatches catalog batches with
        | (sent, .done) =>
          let (more, ended) := runEndpoints rest
          (sent ++ more, ended)
        | (sent, ended) => (sent, ended)
    else runEndpoints rest

def runQueryBlocking (s : AdbcSource) : List Item × Ended :=
  match s.validUri with
  | .error e => ([], .failed (.config s.catalogName ("invalid URI '" ++ s.uri ++ "': " ++ e)))
  | .ok () =>
    match s.connect with
    | .error e => ([], .failed (.network s.catalogName e))
    | .ok () =>
      match s.execute with
      | .error e => ([], .failed (.query s.catalogName ("failed to execute query: " ++ e)))
      | .ok endpoints => runEndpoints s.catalogName endpoints

def adbcQuery (s : AdbcSource) : Except SourceError RecordBatchStream :=
  match s.permit with
  | .error e => .error (.engineUnavailable s.catalogName ("semaphore closed: " ++ e))
  | .ok () => .ok (receiverStream "starrocks-flight" (runQueryBlocking s).1)

def storageErrorText : StorageError → String
  | .invalidArgument message => "Invalid argument: " ++ message
  | .backend backend message => "Backend error (" ++ backend ++ "): " ++ message
  | .shuttingDown => "Engine shutting down"
  | .failed context => context

/-- A source as its catalog names it. -/
inductive Source where
  | iceberg (uri : String)
  | starRocks (source : AdbcSource)
  | jdbc (source : JdbcSource)

def streamData (arrow : Arrow) (parseDecimal : String → Int → Except String I128)
    (schema : Schema) : Source → Except StorageError RecordBatchStream
  | .iceberg uri => .error (.failed ("Iceberg catalog '" ++ uri ++
      "' is not yet supported; planned for a future release"))
  | .starRocks source => (adbcQuery source).mapError fun e => .backend "starrocks-adbc" e.text
  | .jdbc source =>
    match source.pool with
    | .error e => .error (.failed e.text)
    | .ok () =>
      (jdbcQuery arrow parseDecimal schema source).mapError fun e =>
        .backend "starrocks-jdbc" (storageErrorText e)

end Leibrix.SourceClients
