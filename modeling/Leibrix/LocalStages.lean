import Leibrix.ExchangeRuntime
import Leibrix.ProtoConvert

/-!
# Stages on the local executor

A stage is run for each of its target workers in turn, in the database of that worker or in
a new empty one. What the database does with the tables and the text of a stage is a
parameter; how the tables are chosen, the limits checked and the output split and stored
is as in the executor. Clocks are read as numbers of nanoseconds.
-/

set_option autoImplicit false

namespace Leibrix.LocalStages
open ArrowBatch LdpTypes LdpCut ExchangeRuntime ProtoConvert SqlAst

inductive StageExecutionError where
  | stageNotFound (stage : Nat)
  | workerUnavailable (worker : WorkerId) (detail : String)
  | executionFailed (detail : String)
  | limitsExceeded (limitType : String) (actual limit : Nat)
  | inputNotReady (name : String)
  deriving DecidableEq

def StageExecutionError.display : StageExecutionError → String
  | stageNotFound stage => "Stage " ++ toString stage ++ " not found"
  | workerUnavailable worker detail => "Worker " ++ worker ++ " unavailable: " ++ detail
  | executionFailed detail => "Execution failed: " ++ detail
  | limitsExceeded limitType actual limit =>
    limitType ++ " limit exceeded: " ++ toString actual ++ " > " ++ toString limit
  | inputNotReady name => "Input " ++ name ++ " not ready"

def displayExecutionError : ExecutionError → String
  | .stageNotFound stage => "Stage " ++ toString stage ++ " not found"
  | .stageFailed stage detail => "Stage " ++ toString stage ++ " execution failed: " ++ detail
  | .exchangeFailed detail => "Exchange failed: " ++ detail
  | .invalidPlan detail => "Invalid plan: " ++ detail

variable {Db : Type}

section Databases

/-- Where the database gives up on a stage, with its own words. -/
inductive SqlFailure where
  | connect (detail : String)
  | register (tableName detail : String)
  | prepare (detail : String)
  | execute (detail : String)
  | panicked (detail : String)

/-- `connecting` is what is reported of a connection that was not made. -/
def SqlFailure.error (connecting : String) : SqlFailure → StageExecutionError
  | connect detail => .executionFailed (connecting ++ detail)
  | register tableName detail =>
    .executionFailed ("Failed to register table '" ++ tableName ++ "': " ++ detail)
  | prepare detail => .executionFailed ("Failed to prepare SQL: " ++ detail)
  | execute detail => .executionFailed ("Failed to execute SQL: " ++ detail)
  | panicked detail => .executionFailed ("spawn_blocking panicked: " ++ detail)

/-- Databases with tables of their own: what one answers to a text when further tables have been
registered, with the schema of the answer. -/
structure Duckdb (Db : Type) where
  inMemory : Db
  query : Db → Inputs → String → Except SqlFailure (Schema × List RecordBatch)

variable (duckdb : Duckdb Db)

def registered (inputs : Inputs) : Inputs :=
  fun tableName => (inputs tableName).filter fun batches => !batches.isEmpty

def runSqlWithInputs (connecting : String) (db : Db) (stageSql : String) (inputs : Inputs) :
    Except StageExecutionError (List RecordBatch) :=
  match duckdb.query db (registered inputs) stageSql with
  | .ok (schema, batches) => .ok (orSchema schema batches)
  | .error failure => .error (failure.error connecting)

end Databases

structure Monitor where
  rowsProduced : Nat
  bytesProduced : Nat

inductive LimitExceededError where
  | timeout (elapsed limit : Nat)
  | rowsOutput (produced limit : Nat)
  | bytesOutput (produced limit : Nat)

/-- `debug` writes a duration. -/
def LimitExceededError.display (debug : Nat → String) : LimitExceededError → String
  | timeout elapsed limit => "Query timeout exceeded: " ++ debug elapsed ++ " > " ++ debug limit
  | rowsOutput produced limit =>
    "Output rows limit exceeded: " ++ toString produced ++ " > " ++ toString limit
  | bytesOutput produced limit =>
    "Output bytes limit exceeded: " ++ toString produced ++ " > " ++ toString limit

def nanosPerMilli : Nat := 1000000

/-- Nobody else holds the monitor, so it is not cancelled; no scanned rows are reported to it. -/
def Monitor.checkLimits (monitor : Monitor) (limits : StageLimits) (elapsed : Nat) :
    Except LimitExceededError Unit :=
  if limits.timeoutMs.toNat * nanosPerMilli < elapsed then
    .error (.timeout elapsed (limits.timeoutMs.toNat * nanosPerMilli))
  else if limits.maxRowsOutput.toNat < monitor.rowsProduced then
    .error (.rowsOutput monitor.rowsProduced limits.maxRowsOutput.toNat)
  else if limits.maxBytesOutput.toNat < monitor.bytesProduced then
    .error (.bytesOutput monitor.bytesProduced limits.maxBytesOutput.toNat)
  else .ok ()

/-- What a local executor works with. -/
structure LocalExecutor (Db : Type) where
  duckdb : Duckdb Db
  workerDatabases : WorkerId → Option Db
  memorySize : RecordBatch → Nat
  debugDuration : Nat → String
  lower : String → String
  partition : Partitioner

abbrev Outputs := String → Option (List RecordBatch)

namespace LocalExecutor

variable (executor : LocalExecutor Db)

def executeSql (worker : WorkerId) (stageSql : String) (inputs : Inputs)
    (requiresLocalCatalog : Bool) : Except StageExecutionError (List RecordBatch) :=
  match executor.workerDatabases worker with
  | some db =>
    runSqlWithInputs executor.duckdb
      ("Failed to get DuckDB connection for worker '" ++ worker ++ "': ") db stageSql inputs
  | none =>
    if requiresLocalCatalog then
      .error (.executionFailed ("Missing worker database for '" ++ worker ++
        "' while stage requires local catalog access"))
    else
      runSqlWithInputs executor.duckdb "Failed to open DuckDB: " executor.duckdb.inMemory stageSql
        inputs

/-- The monitor counts what all workers of one submission have produced so far. -/
def executeSqlWithMonitor (worker : WorkerId) (stageSql : String) (inputs : Inputs)
    (requiresLocalCatalog : Bool) (limits : StageLimits) (elapsed : Nat) (monitor : Monitor) :
    Except StageExecutionError (List RecordBatch × Monitor) :=
  if stageSql = "" then .ok ([], monitor)
  else do
    let batches ← executor.executeSql worker stageSql inputs requiresLocalCatalog
    let monitor : Monitor :=
      ⟨monitor.rowsProduced + (batchRows batches).length,
        monitor.bytesProduced + (batches.map executor.memorySize).sum⟩
    (monitor.checkLimits limits elapsed).mapError fun e => .executionFailed
      ("Limit exceeded during execution: " ++ e.display executor.debugDuration)
    return (batches, monitor)

def checkOutputLimits (batches : List RecordBatch) (limits : StageLimits) :
    Except StageExecutionError Unit :=
  let rowsProduced := (batchRows batches).length
  let bytesProduced := (batches.map executor.memorySize).sum
  if limits.maxRowsOutput.toNat < rowsProduced then
    .error (.limitsExceeded "rows" rowsProduced limits.maxRowsOutput.toNat)
  else if limits.maxBytesOutput.toNat < bytesProduced then
    .error (.limitsExceeded "bytes" bytesProduced limits.maxBytesOutput.toNat)
  else .ok ()

def concatBatches (schema : Schema) (batches : List RecordBatch) : Except String RecordBatch :=
  if h : ∀ batch ∈ batches, batch.schema = schema then
    .ok ⟨schema, batchRows batches, fun row hrow => by
      obtain ⟨batch, hbatch, hrow⟩ := List.mem_flatMap.mp hrow
      exact h batch hbatch ▸ batch.fits row hrow⟩
  else .error "Schemas do not match"

def partitionBatches (batches : List RecordBatch) (numPartitions : Nat)
    (columnRefs : List ColumnRef) : Except StageExecutionError (List (List RecordBatch)) :=
  match batches with
  | [] => .ok (List.replicate numPartitions [])
  | first::_ => do
    let combined ← (concatBatches first.schema batches).mapError fun e =>
      .executionFailed ("Failed to concatenate batches for partitioning: " ++ e)
    if combined.rows.isEmpty then return List.replicate numPartitions []
    let fieldIndices ← (resolveColumnIndices executor.lower columnRefs first.schema).mapError
      fun e => .executionFailed ("Failed to resolve column references: " ++ displayError e)
    let partitions ← (executor.partition combined fieldIndices numPartitions).mapError
      fun e => .executionFailed ("Partitioning failed: " ++ displayError e)
    return partitions.map fun batch => if batch.rows.isEmpty then [] else [batch]

def storedParts (queryId : String) (stage : SentStage) (worker : WorkerId)
    (output : List RecordBatch) :
    Except StageExecutionError (List (StageTicket × List RecordBatch)) :=
  match stage.output with
  | .stream => .ok [(.new queryId stage.stageId worker, output)]
  | .partitioned partitions columnRefs => do
    let parts ← executor.partitionBatches output partitions.toNat columnRefs
    return parts.mapIdx fun p part => (.partitioned queryId stage.stageId worker p, part)

structure Submitted where
  monitor : Monitor
  stored : List (StageTicket × List RecordBatch)

def submitForWorker (queryId : String) (stage : SentStage) (inputs : Inputs)
    (elapsed : WorkerId → Nat) (submitted : Submitted) (worker : WorkerId) :
    Except StageExecutionError Submitted := do
  let (output, monitor) ← executor.executeSqlWithMonitor worker stage.stageSql inputs
    (decide (.localCatalog ∈ stage.inputs)) stage.limits (elapsed worker) submitted.monitor
  executor.checkOutputLimits output stage.limits
  let parts ← executor.storedParts queryId stage worker output
  return ⟨monitor, submitted.stored ++ parts⟩

/-- `elapsed` is what the clock of the submission shows after each worker. -/
def submitStage (queryId : String) (stage : SentStage) (inputs : Inputs)
    (elapsed : WorkerId → Nat) :
    Except StageExecutionError (List (StageTicket × List RecordBatch)) := do
  let submitted ← stage.targetWorkers.foldlM
    (executor.submitForWorker queryId stage inputs elapsed) ⟨⟨0, 0⟩, []⟩
  return submitted.stored

end LocalExecutor

/-- The outputs are stored one after the other; a ticket of the same name replaces an older one. -/
def Outputs.store (outputs : Outputs) (stored : List (StageTicket × List RecordBatch)) : Outputs :=
  stored.foldl (fun outputs part => fun ticketId =>
    if ticketId = part.1.ticketId then some part.2 else outputs ticketId) outputs

end Leibrix.LocalStages
