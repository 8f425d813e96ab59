import Leibrix.HashPartition
import Leibrix.LdpCut

/-!
# Exchanges at run time

A stage leaves tickets for its outputs, and the stages after it resolve their inputs from
them. In local mode the outputs lie in one store under the ticket's name. In distributed
mode the coordinator registers bytes for each worker and fetches with them over the network.
How a worker answers and how a batch is partitioned are parameters.
-/

set_option autoImplicit false

namespace Leibrix.ExchangeRuntime
open ArrowBatch HashPartition LdpTypes LdpCut

abbrev Bytes := List UInt8

def asBytes (s : String) : Bytes := s.toUTF8.data.toList

structure StageTicket where
  queryId : String
  stageId : Nat
  workerId : WorkerId
  partition : Option Nat
  ticketId : String
  flightTicketBytes : Option Bytes
  deriving DecidableEq

namespace StageTicket

def new (queryId : String) (stageId : Nat) (workerId : WorkerId) : StageTicket where
  queryId := queryId
  stageId := stageId
  workerId := workerId
  partition := none
  ticketId := "stage_" ++ toString stageId ++ "_worker_" ++ workerId
  flightTicketBytes := none

def partitioned (queryId : String) (stageId : Nat) (workerId : WorkerId) (partition : Nat) :
    StageTicket where
  queryId := queryId
  stageId := stageId
  workerId := workerId
  partition := some partition
  ticketId := "stage_" ++ toString stageId ++ "_worker_" ++ workerId ++ "_p" ++ toString partition
  flightTicketBytes := none

def registeredBytes (ticket : StageTicket) : Bytes :=
  ticket.flightTicketBytes.getD (asBytes ticket.ticketId)

end StageTicket

def workerTickets (queryId : String) (stageId : Nat) (output : StageOutput) (worker : WorkerId)
    (resultTicket : Bytes) : List StageTicket :=
  match output with
  | .stream => [{ StageTicket.new queryId stageId worker with flightTicketBytes := resultTicket }]
  -- the bytes that the worker answered with are dropped
  | .partitioned partitions _ =>
    (List.range partitions.toNat).map (StageTicket.partitioned queryId stageId worker)

def submitStage (queryId : String) (stageId : Nat) (output : StageOutput)
    (resultTicket : WorkerId → Bytes) (targetWorkers : List WorkerId) : List StageTicket :=
  targetWorkers.flatMap fun worker =>
    workerTickets queryId stageId output worker (resultTicket worker)

variable (lower : String → String) (schema : Schema)

def fieldIndex (p : String → Bool) : Option Nat :=
  schema.findIdx? fun field => p field.name

def qualifiedName (col : ColumnRef) : Option String := col.table.map fun t => t ++ "." ++ col.column

def findColumnIndex (col : ColumnRef) : Except ExchangeError Nat :=
  let exact := (qualifiedName col).bind fun name => fieldIndex schema (· == name)
  let byName := fieldIndex schema (· == col.column)
  let ignoringCase := fieldIndex schema fun name => lower name == lower col.column
  match (exact.orElse fun _ => byName).orElse fun _ => ignoringCase with
  | some i => .ok i
  | none => .error (.columnNotFound ("Column '" ++ (qualifiedName col).getD col.column ++
      "' not found in schema. Available columns: [" ++ ", ".intercalate (schema.map (·.name)) ++
      "]"))

def resolveColumnIndices (columnRefs : List ColumnRef) (schema : Schema) :
    Except ExchangeError (List Nat) :=
  columnRefs.mapM (findColumnIndex lower schema)

/-- A way to split a batch by key columns. -/
abbrev Partitioner := RecordBatch → List Nat → Nat → Except ExchangeError (List RecordBatch)

variable (batches : List RecordBatch)

def lastSchema : Option Schema :=
  (batches.filter fun b => 0 < b.schema.length).getLast?.map (·.schema)

def orEmptyBatch : List RecordBatch :=
  if batches.isEmpty then
    match lastSchema batches with
    | some schema => [.newEmpty schema]
    | none => batches
  else batches

def localPartitions (partitionToWorker : List WorkerId) (worker : WorkerId) : List Nat :=
  (List.range partitionToWorker.length).filter fun p => partitionToWorker[p]? = some worker

def filledPartition (parts : List RecordBatch) (p : Nat) : List RecordBatch :=
  parts[p]?.toList.filter fun part => !part.rows.isEmpty

def orSchema : List RecordBatch :=
  if batches.isEmpty then [.newEmpty schema] else batches

variable (partition : Partitioner)

section Local

variable (outputs : String → Option (List RecordBatch))

def fetchOutput (ticket : StageTicket) : Except ExchangeError (List RecordBatch) :=
  match outputs ticket.ticketId with
  | some batches => .ok batches
  | none => .error (.fetchFailed ("Failed to fetch " ++ ticket.ticketId ++ ": Input " ++
      ticket.ticketId ++ " not ready"))

variable (tickets : List StageTicket)

def fetchOutputs : Except ExchangeError (List RecordBatch) := do
  let fetched ← tickets.mapM (fetchOutput outputs)
  return fetched.flatten

def executeGatherLocal : Except ExchangeError (List RecordBatch) := do
  let batches ← fetchOutputs outputs tickets
  return orEmptyBatch batches

def executeHashPartitionForWorker (columnRefs : List ColumnRef) (numPartitions : Nat)
    (partitionToWorker : List WorkerId) (worker : WorkerId) :
    Except ExchangeError (List RecordBatch) := do
  let batches ← fetchOutputs outputs tickets
  match batches with
  | [] => return orEmptyBatch []
  | first::_ =>
    let fieldRefs ← resolveColumnIndices lower columnRefs first.schema
    let mine := localPartitions partitionToWorker worker
    if mine.isEmpty then return [.newEmpty first.schema]
    else
      let split ← batches.mapM fun batch => partition batch fieldRefs numPartitions
      return orSchema first.schema (mine.flatMap fun p => split.flatMap (filledPartition · p))

def executeExchangeForWorker (edge : ExchangeEdge) (tickets : List StageTicket)
    (worker : WorkerId) : Except ExchangeError (List RecordBatch) :=
  match edge.kind with
  | .gather _ | .broadcast _ => executeGatherLocal outputs tickets
  | .hashPartition columnRefs partitions =>
    executeHashPartitionForWorker lower partition outputs tickets columnRefs partitions.toNat
      edge.partitionToWorker worker

def localInput (stageOutputs : Nat → Option (List StageTicket)) (edge : ExchangeEdge)
    (worker : WorkerId) : Except ExchangeError (List RecordBatch) :=
  match stageOutputs edge.fromStage with
  | none => .error (.upstreamNotReady edge.fromStage)
  | some tickets => executeExchangeForWorker lower partition outputs edge tickets worker

/-- The tables that a stage reads besides its own catalog. -/
abbrev Inputs := String → Option (List RecordBatch)

def Inputs.insert (inputs : Inputs) (tableName : String) (batches : List RecordBatch) : Inputs :=
  fun name => if name = tableName then some batches else inputs name

def addLocalInput (plan : LdpPlan) (worker : WorkerId)
    (stageOutputs : Nat → Option (List StageTicket)) (inputs : Inputs) :
    StageInput → Except ExchangeError Inputs
  | .localCatalog => .ok inputs
  | .exchangeInput exchangeId tableName =>
    match plan.edges.find? (·.exchangeId = exchangeId) with
    | none => .error (.exchangeNotFound exchangeId)
    | some edge => do
      let batches ← localInput lower partition outputs stageOutputs edge worker
      return inputs.insert tableName batches

def resolveInputsForWorker (plan : LdpPlan) (stageId : Nat) (worker : WorkerId)
    (stageOutputs : Nat → Option (List StageTicket)) : Except ExchangeError Inputs :=
  match plan.stages.find? (·.stageId = stageId) with
  | none => .error (.stageNotFound stageId)
  | some stage =>
    stage.inputs.foldlM (addLocalInput lower partition outputs plan worker stageOutputs)
      fun _ => none

end Local

def displayError : ExchangeError → String
  | .stageNotFound stage => "Stage " ++ toString stage ++ " not found"
  | .exchangeNotFound exchange => "Exchange " ++ toString exchange ++ " not found"
  | .upstreamNotReady stage => "Upstream stage " ++ toString stage ++ " not ready"
  | .fetchFailed detail => "Fetch failed: " ++ detail
  | .partitionFailed detail => "Partition failed: " ++ detail
  | .noBatches => "No batches to process"
  | .concatFailed detail => "Concat failed: " ++ detail
  | .columnNotFound detail => "Column not found: " ++ detail

inductive ExecutionError where
  | stageNotFound (stage : Nat)
  | stageFailed (stage : Nat) (detail : String)
  | exchangeFailed (detail : String)
  | invalidPlan (detail : String)
  deriving DecidableEq

/-- Where workers are reached, and what they answer to the bytes of a ticket. -/
structure Network where
  endpoint : WorkerId → Option String
  doGet : String → Bytes → Except String (List RecordBatch)

section Distributed

variable (network : Network)

abbrev RemoteTickets := String → Option Bytes

def ticketKey (queryId : String) (stageId : Nat) (worker : WorkerId) : String :=
  queryId ++ ":" ++ toString stageId ++ ":" ++ worker

variable (remote : RemoteTickets)

def registerTicket (ticket : StageTicket) : RemoteTickets :=
  fun key =>
    if key = ticketKey ticket.queryId ticket.stageId ticket.workerId then
      some ticket.registeredBytes
    else remote key

def registerTickets (tickets : List StageTicket) : RemoteTickets :=
  tickets.foldl registerTicket remote

def fetchFromWorker (queryId : String) (stageId : Nat)
    (worker : WorkerId) : Except ExchangeError (List RecordBatch) :=
  match remote (ticketKey queryId stageId worker) with
  | none => .error (.fetchFailed ("No ticket for query=" ++ queryId ++ ", stage=" ++
      toString stageId ++ ", worker=" ++ worker))
  | some bytes =>
    match network.endpoint worker with
    | none => .error (.fetchFailed ("No endpoint registered for worker " ++ worker))
    | some endpoint =>
      match network.doGet endpoint bytes with
      | .ok batches => .ok batches
      | .error e => .error (.fetchFailed ("Flight fetch from " ++ worker ++ " failed: " ++ e))

def fetchErrors (queryId : String) (stageId : Nat) (sources : List WorkerId) : List String :=
  sources.filterMap fun worker =>
    match fetchFromWorker network remote queryId stageId worker with
    | .ok _ => none
    | .error e => some (worker ++ ": " ++ displayError e)

def fetchedBatches (queryId : String) (stageId : Nat)
    (sources : List WorkerId) : List RecordBatch :=
  sources.flatMap fun worker =>
    match fetchFromWorker network remote queryId stageId worker with
    | .ok batches => batches
    | .error _ => []

def executeGather (queryId : String) (stageId : Nat)
    (sources : List WorkerId) : Except ExchangeError (List RecordBatch) :=
  let errors := fetchErrors network remote queryId stageId sources
  let batches := fetchedBatches network remote queryId stageId sources
  if errors.isEmpty then .ok (orEmptyBatch batches)
  else .error (.fetchFailed (toString errors.length ++ " of " ++ toString sources.length ++
    " source workers failed (discarding " ++ toString batches.length ++
    " batches collected from other workers): " ++ "; ".intercalate errors))

def executeHashPartition (queryId : String) (stageId : Nat) (sources : List WorkerId)
    (columnRefs : List ColumnRef) (numPartitions : Nat)
    (partitionToWorker : List WorkerId) (worker : WorkerId) :
    Except ExchangeError (List RecordBatch) := do
  let batches ← executeGather network remote queryId stageId sources
  match batches with
  | [] => return []
  | first::_ =>
    let fieldRefs ← resolveColumnIndices lower columnRefs first.schema
    let mine := localPartitions partitionToWorker worker
    let split ← batches.mapM fun batch => partition batch fieldRefs numPartitions
    return orSchema first.schema (split.flatMap fun parts => mine.flatMap (filledPartition parts))

/-- The exchange of an edge for one of the workers of the stage it leads to. -/
def executeEdge (queryId : String) (edge : ExchangeEdge) (tickets : List StageTicket)
    (worker : WorkerId) : Except ExecutionError (List RecordBatch) :=
  let sources := tickets.map (·.workerId)
  let failing (r : Except ExchangeError (List RecordBatch)) :=
    r.mapError fun e => ExecutionError.exchangeFailed (displayError e)
  match edge.kind with
  | .gather target =>
    if worker ≠ target then .ok []
    else failing (executeGather network remote queryId edge.fromStage sources)
  | .broadcast targets =>
    if ¬ targets.contains worker then .ok []
    else
      -- one source stands for all
      match sources with
      | [] => .error (.exchangeFailed "No source worker for broadcast")
      | source::_ => failing (fetchFromWorker network remote queryId edge.fromStage source)
  | .hashPartition columnRefs partitions =>
    failing (executeHashPartition lower partition network remote queryId edge.fromStage sources
      columnRefs partitions.toNat edge.partitionToWorker worker)

/-- One exchange input in distributed mode. An edge without upstream tickets gives no table. -/
def distributedInput (queryId : String) (stageOutputs : Nat → Option (List StageTicket))
    (edge : ExchangeEdge) (worker : WorkerId) :
    Except ExecutionError (Option (List RecordBatch)) :=
  match stageOutputs edge.fromStage with
  | none => .ok none
  | some tickets =>
    (executeEdge lower partition network remote queryId edge tickets worker).map some

/-- Resolves one input of a stage in distributed mode. -/
def addDistributedInput (plan : LdpPlan) (queryId : String) (worker : WorkerId)
    (stageOutputs : Nat → Option (List StageTicket)) (remote : RemoteTickets) (inputs : Inputs) :
    StageInput → Except ExecutionError Inputs
  | .localCatalog => .ok inputs
  | .exchangeInput exchangeId tableName =>
    match plan.edges.find? (·.exchangeId = exchangeId) with
    -- an input without its edge is passed over
    | none => .ok inputs
    | some edge => do
      let batches ← distributedInput lower partition network remote queryId stageOutputs edge worker
      return match batches with
        | some batches => inputs.insert tableName batches
        | none => inputs

def resolveDistributedInputsForWorker (plan : LdpPlan) (queryId : String) (stageId : Nat)
    (worker : WorkerId) (stageOutputs : Nat → Option (List StageTicket))
    (remote : RemoteTickets) : Except ExecutionError Inputs :=
  match plan.stages.find? (·.stageId = stageId) with
  | none => .error (.stageNotFound stageId)
  | some stage =>
    stage.inputs.foldlM (addDistributedInput lower partition network plan queryId worker
      stageOutputs remote) fun _ => none

end Distributed

end Leibrix.ExchangeRuntime
