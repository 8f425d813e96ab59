import Leibrix.ArrowBatch
import Mathlib.Logic.Function.Basic

/-!
# The storage engine

One thread owns the database and takes commands from a channel. An epoch is known by its
key alone: a start opens it, batches are buffered and appended to its table, and a finish
commits it and answers the caller who opened it. What the database does with a command
comes with the command. Commands that only read are left out, and so are the schemas kept
for empty macros, sizes, times and metrics.
-/

set_option autoImplicit false

namespace Leibrix.EpochEngine
open ArrowBatch

inductive StorageError where
  | invalidArgument (message : String)
  | backend (backend message : String)
  | shuttingDown
  | failed (context : String)
  deriving DecidableEq

structure EpochView where
  epochId : String
  tableName : String
  deriving DecidableEq

structure TableMetadata where
  tableName : String
  totalRows : Nat
  schema : Schema
  deriving DecidableEq

/-- `done` is the caller whose start opened the epoch. -/
structure EpochInProgress (ι : Type) where
  epochView : EpochView
  pendingBatches : List RecordBatch
  pendingRows : Nat
  totalRowsCommitted : Nat
  firstError : Option StorageError
  done : ι

structure EngineState (ι : Type) where
  tables : String → Option (List Row)
  committed : String → Option (EpochView × TableMetadata)
  inProgress : String → Option (EpochInProgress ι)
  replies : ι → Option (Except StorageError TableMetadata)
  shutdown : Bool

def EngineState.fresh (ι : Type) : EngineState ι :=
  ⟨fun _ => none, fun _ => none, fun _ => none, fun _ => none, false⟩

inductive EngineCom (ι : Type) where
  | startEpoch (datasetId : String) (epochView : EpochView) (schema : Schema) (done : ι)
  | ingestBatch (key : String) (batch : RecordBatch)
  | finishEpoch (key : String)

/-- What the database does with one command. A failed append may leave rows behind. -/
structure Duck where
  creates : Bool := true
  appends : Bool := true
  leftover : List Row := []
  describes : Option Schema := some []
  drops : Bool := true

def epochKey (datasetId epochId : String) : String := datasetId ++ "__" ++ epochId

section Engine

variable {ι : Type} [DecidableEq ι] (threshold : Nat) (duck : Duck) (s : EngineState ι)

def EngineState.reply (done : ι) (result : Except StorageError TableMetadata) : EngineState ι :=
  { s with replies := Function.update s.replies done (some result) }

def onStartEpoch (datasetId : String) (epochView : EpochView) (done : ι) : EngineState ι :=
  let key := epochKey datasetId epochView.epochId
  if s.shutdown then s.reply done (.error .shuttingDown)
  else if (s.inProgress key).isSome || (s.committed key).isSome then
    s.reply done (.error (.invalidArgument ("Epoch table " ++ epochView.epochId ++
      " for dataset " ++ datasetId ++ " already exists.")))
  else if (s.tables epochView.tableName).isSome || !duck.creates then
    s.reply done (.error (.failed ("Failed to create table " ++ epochView.tableName)))
  else
    { s with
      tables := Function.update s.tables epochView.tableName (some [])
      inProgress := Function.update s.inProgress key (some ⟨epochView, [], 0, 0, none, done⟩) }

/-- Appends the buffered batches to the epoch's table. -/
def flushPendingBatches (tables : String → Option (List Row)) (ep : EpochInProgress ι) :
    (String → Option (List Row)) × Except StorageError (EpochInProgress ι) :=
  let table := ep.epochView.tableName
  if ep.pendingBatches.isEmpty then (tables, .ok ep)
  else
    match tables table with
    | none => (tables, .error (.failed ("Failed to create appender for " ++ table)))
    | some rows =>
      if duck.appends then
        (Function.update tables table (some (rows ++ batchRows ep.pendingBatches)),
          .ok { ep with
            pendingBatches := []
            pendingRows := 0
            totalRowsCommitted := ep.totalRowsCommitted + ep.pendingRows })
      else
        (Function.update tables table (some (rows ++ duck.leftover)),
          .error (.failed "Failed to flush appender to DuckDB"))

def onIngestBatch (key : String) (batch : RecordBatch) : EngineState ι :=
  match s.inProgress key with
  | none => s
  | some ep =>
    if ep.firstError.isSome then s
    else
      let ep := { ep with
        pendingRows := ep.pendingRows + batch.rows.length
        pendingBatches := ep.pendingBatches ++ [batch] }
      if threshold ≤ ep.pendingRows then
        match flushPendingBatches duck s.tables ep with
        | (tables, .ok ep) =>
          { s with tables := tables, inProgress := Function.update s.inProgress key (some ep) }
        | (tables, .error e) =>
          { s with
            tables := tables
            inProgress := Function.update s.inProgress key (some { ep with
              pendingBatches := []
              pendingRows := 0
              firstError := some e }) }
      else { s with inProgress := Function.update s.inProgress key (some ep) }

def onFinishEpoch (key : String) : EngineState ι :=
  match s.inProgress key with
  | none => s
  | some ep =>
    let s := { s with inProgress := Function.update s.inProgress key none }
    match ep.firstError with
    | some e => s.reply ep.done (.error e)
    | none =>
      match flushPendingBatches duck s.tables ep with
      | (tables, .error e) => { s with tables := tables }.reply ep.done (.error e)
      | (tables, .ok ep) =>
        let s := { s with tables := tables }
        if ep.totalRowsCommitted = 0 then
          s.reply ep.done (.error (.invalidArgument "Arrow stream for epoch is empty"))
        else
          match duck.describes with
          | none =>
            s.reply ep.done
              (.error (.failed ("Failed to query schema for table " ++ ep.epochView.tableName)))
          | some schema =>
            let metadata := ⟨ep.epochView.tableName, ep.totalRowsCommitted, schema⟩
            { s with
              committed := Function.update s.committed key
                (some (ep.epochView, metadata)) }.reply ep.done (.ok metadata)

def onDropEpoch (datasetId epochId : String) : Except StorageError Unit × EngineState ι :=
  let key := epochKey datasetId epochId
  if (s.inProgress key).isSome then
    (.error (.failed ("Cannot drop epoch " ++ epochId ++ " for dataset " ++ datasetId ++
      " while ingestion is in progress")), s)
  else
    match s.committed key with
    | none =>
      (.error (.invalidArgument ("Epoch " ++ epochId ++ " for dataset " ++ datasetId ++
        " not found")), s)
    | some (epochView, _) =>
      -- the entry goes before the table does
      let s := { s with committed := Function.update s.committed key none }
      if duck.drops then
        (.ok (), { s with tables := Function.update s.tables epochView.tableName none })
      else (.error (.failed ("Failed to drop table " ++ epochView.tableName)), s)

def engineStep : EngineCom ι → EngineState ι
  | .startEpoch datasetId epochView _ done => onStartEpoch duck s datasetId epochView done
  | .ingestBatch key batch => onIngestBatch threshold duck s key batch
  | .finishEpoch key => onFinishEpoch duck s key

end Engine

def okBatches : List (Except StorageError RecordBatch) → List RecordBatch
  | .ok batch::rest => batch :: okBatches rest
  | _ => []

def streamError : List (Except StorageError RecordBatch) → Option StorageError
  | [] => none
  | .ok _::rest => streamError rest
  | .error e::_ => some e

/-- One call of `create_epoch_table`. -/
structure Call where
  datasetId : String
  epochView : EpochView
  stream : List (Except StorageError RecordBatch)

namespace Call

def key (c : Call) : String := epochKey c.datasetId c.epochView.epochId

def batches (c : Call) : List RecordBatch := okBatches c.stream

def rows (c : Call) : List Row := batchRows c.batches

/-- The stream has a batch and no error. -/
def ends (c : Call) : Bool := !c.stream.isEmpty && (streamError c.stream).isNone

/-- The commands that the call sends. It goes on whether or not its start was accepted, and an
error of the stream ends it without a finish. -/
def commands {ι : Type} (c : Call) (done : ι) : List (EngineCom ι) :=
  match c.batches with
  | [] => []
  | first::rest =>
    .startEpoch c.datasetId c.epochView first.schema done ::
      ((first::rest).map (.ingestBatch c.key) ++ if c.ends then [.finishEpoch c.key] else [])

/-- What the call returns once its commands are sent and the engine has answered. -/
def returned (c : Call) (reply : Option (Except StorageError TableMetadata)) :
    Option (Except StorageError TableMetadata) :=
  match streamError c.stream with
  | some e => some (.error e)
  | none => if c.stream.isEmpty then some (.error (.failed "Arrow stream is empty")) else reply

end Call

end Leibrix.EpochEngine
