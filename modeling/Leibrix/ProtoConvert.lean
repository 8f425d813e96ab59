import Leibrix.LdpShape
import Leibrix.StageCtes
import Leibrix.HashRows

/-!
# Plans on the wire

A plan is sent as a protobuf message. Each message field that is a message itself may be
missing on the wire, so reading back is fallible. The message of a plan has no field for the
root stage; the reader takes the last stage for it. Identifiers are copied as they are.
-/

set_option autoImplicit false

namespace Leibrix.ProtoConvert
open SqlAst LdpTypes LdpAnnotate LdpCut StageSql StageCtes HashRows List

structure StageLimits where
  maxBytesOutput : UInt64 := 5 * 1024 * 1024 * 1024
  maxRowsOutput : UInt64 := 100000000
  timeoutMs : UInt64 := 300000
  memoryBytes : UInt64 := 2 * 1024 * 1024 * 1024
  deriving DecidableEq

/-- A stage as it is sent, with the text of its SQL. -/
structure SentStage where
  stageId : Nat
  targetWorkers : List WorkerId
  inputs : List StageInput
  output : StageOutput
  stageSql : String
  limits : StageLimits

structure SentPlan where
  queryId : String
  coordinator : WorkerId
  stages : List SentStage
  edges : List ExchangeEdge
  rootStage : Nat

/-- `print` writes a query with the CTE definitions that it gets. -/
def sentStage (print : List Cte → QuerySql → String) (cteDefinitions : List Cte) (stage : Stage) :
    SentStage where
  stageId := stage.stageId
  targetWorkers := stage.targetWorkers
  inputs := stage.inputs
  output := stage.output
  stageSql := print (filterCtesForStage stage.plan cteDefinitions) (generateSql stage.plan)
  limits := {}

def cutPlan (text : SqlText) (print : List Cte → QuerySql → String) (root : AnnotatedPlan)
    (policy : PlannerPolicy) (queryId : String) (cteDefinitions : List Cte) : Option SentPlan := do
  let plan ← cutIntoStages text root policy
  return ⟨queryId, plan.coordinator, plan.stages.map (sentStage print cteDefinitions), plan.edges,
    plan.rootStage⟩

namespace Proto

structure ColumnRef where
  table : Option String
  column : String

inductive ExchangeType where
  | gather (targetWorkerId : String)
  | broadcast (targetWorkerIds : List String)
  | hashPartition (columnRefs : List ColumnRef) (partitions : UInt32)

structure Exchange where
  exchangeType : Option ExchangeType

inductive InputType where
  | localCatalog
  | exchange (exchangeId : Nat) (tableName : String)

structure StageInput where
  inputType : Option InputType

inductive OutputType where
  | stream
  | partitioned (partitions : UInt32) (columnRefs : List ColumnRef)

structure StageOutput where
  outputType : Option OutputType

structure StageLimits where
  maxBytesOutput : UInt64
  maxRowsOutput : UInt64
  timeoutMs : UInt64
  memoryBytes : UInt64

structure Stage where
  stageId : Nat
  targetWorkerIds : List String
  inputs : List StageInput
  output : Option StageOutput
  stageSql : String
  limits : Option StageLimits

structure ExchangeEdge where
  exchangeId : Nat
  kind : Option Exchange
  fromStageId : Nat
  toStageId : Nat
  partitionToWorker : List String

structure LdpPlan where
  queryId : String
  coordinatorWorkerId : String
  stages : List Stage
  edges : List ExchangeEdge

end Proto

def columnRefsToProto (refs : List ColumnRef) : List Proto.ColumnRef :=
  refs.map fun r => ⟨r.table, r.column⟩

def exchangeToProto (exchange : Exchange) : Proto.Exchange where
  exchangeType := some (match exchange with
    | .gather target => .gather target
    | .broadcast targets => .broadcast targets
    | .hashPartition columnRefs partitions =>
      .hashPartition (columnRefsToProto columnRefs) partitions)

def inputToProto (input : StageInput) : Proto.StageInput where
  inputType := some (match input with
    | .localCatalog => .localCatalog
    | .exchangeInput exchangeId tableName => .exchange exchangeId tableName)

def outputToProto (output : StageOutput) : Proto.StageOutput where
  outputType := some (match output with
    | .stream => .stream
    | .partitioned partitions columnRefs => .partitioned partitions (columnRefsToProto columnRefs))

def limitsToProto (limits : StageLimits) : Proto.StageLimits where
  maxBytesOutput := limits.maxBytesOutput
  maxRowsOutput := limits.maxRowsOutput
  timeoutMs := limits.timeoutMs
  memoryBytes := limits.memoryBytes

def stageToProto (stage : SentStage) : Proto.Stage where
  stageId := stage.stageId
  targetWorkerIds := stage.targetWorkers
  inputs := stage.inputs.map inputToProto
  output := some (outputToProto stage.output)
  stageSql := stage.stageSql
  limits := some (limitsToProto stage.limits)

def edgeToProto (edge : ExchangeEdge) : Proto.ExchangeEdge where
  exchangeId := edge.exchangeId
  kind := some (exchangeToProto edge.kind)
  fromStageId := edge.fromStage
  toStageId := edge.toStage
  partitionToWorker := edge.partitionToWorker

def planToProto (plan : SentPlan) : Proto.LdpPlan where
  queryId := plan.queryId
  coordinatorWorkerId := plan.coordinator
  stages := plan.stages.map stageToProto
  edges := plan.edges.map edgeToProto

inductive ConversionError where
  | missingField (name : String)
  | decodeError (detail : String)
  deriving DecidableEq

abbrev ConversionResult := Except ConversionError

def protoToColumnRefs (refs : List Proto.ColumnRef) : List ColumnRef :=
  refs.map fun r => ⟨r.table, r.column⟩

def exchangeFromProto (proto : Proto.Exchange) : ConversionResult Exchange :=
  match proto.exchangeType with
  | some (.gather target) => .ok (.gather target)
  | some (.broadcast targets) => .ok (.broadcast targets)
  | some (.hashPartition columnRefs partitions) =>
    .ok (.hashPartition (protoToColumnRefs columnRefs) partitions)
  | none => .error (.missingField "exchange_type")

def inputFromProto (proto : Proto.StageInput) : ConversionResult StageInput :=
  match proto.inputType with
  | some .localCatalog => .ok .localCatalog
  | some (.exchange exchangeId tableName) => .ok (.exchangeInput exchangeId tableName)
  | none => .error (.missingField "input_type")

def outputFromProto (proto : Proto.StageOutput) : ConversionResult StageOutput :=
  match proto.outputType with
  | some .stream => .ok .stream
  | some (.partitioned partitions columnRefs) =>
    .ok (.partitioned partitions (protoToColumnRefs columnRefs))
  | none => .error (.missingField "output_type")

def limitsFromProto (proto : Proto.StageLimits) : StageLimits where
  maxBytesOutput := proto.maxBytesOutput
  maxRowsOutput := proto.maxRowsOutput
  timeoutMs := proto.timeoutMs
  memoryBytes := proto.memoryBytes

def stageFromProto (proto : Proto.Stage) : ConversionResult SentStage := do
  let output ←
    match proto.output with
    | some output => outputFromProto output
    | none => .ok .stream
  let inputs ← proto.inputs.mapM inputFromProto
  return ⟨proto.stageId, proto.targetWorkerIds, inputs, output, proto.stageSql,
    (proto.limits.map limitsFromProto).getD {}⟩

def edgeFromProto (proto : Proto.ExchangeEdge) : ConversionResult ExchangeEdge :=
  match proto.kind with
  | none => .error (.missingField "kind")
  | some kind => do
    return ⟨proto.exchangeId, ← exchangeFromProto kind, proto.fromStageId, proto.toStageId,
      proto.partitionToWorker⟩

def planFromProto (proto : Proto.LdpPlan) : ConversionResult SentPlan := do
  let stages ← proto.stages.mapM stageFromProto
  let edges ← proto.edges.mapM edgeFromProto
  return ⟨proto.queryId, proto.coordinatorWorkerId, stages, edges,
    (stages.getLast?.map (·.stageId)).getD 0⟩

/-- What is used of the protobuf library: bytes that can be read back. -/
structure Prost where
  Bytes : Type
  encode : Proto.LdpPlan → Bytes
  decode : Bytes → Except String Proto.LdpPlan
  decode_encode : ∀ message, decode (encode message) = .ok message

section Serialize
variable (prost : Prost)

def serializeLdpPlan (plan : SentPlan) : prost.Bytes := prost.encode (planToProto plan)

def deserializeLdpPlan (bytes : prost.Bytes) : ConversionResult SentPlan :=
  match prost.decode bytes with
  | .error detail => .error (.decodeError detail)
  | .ok message => planFromProto message

end Serialize

@[simp] theorem protoToColumnRefs_columnRefsToProto (refs : List ColumnRef) :
    protoToColumnRefs (columnRefsToProto refs) = refs := by
  simp [protoToColumnRefs, columnRefsToProto, Function.comp_def]

theorem exchangeFromProto_toProto (exchange : Exchange) :
    exchangeFromProto (exchangeToProto exchange) = .ok exchange := by
  cases exchange <;> simp [exchangeFromProto, exchangeToProto]

theorem inputFromProto_toProto (input : StageInput) :
    inputFromProto (inputToProto input) = .ok input := by
  cases input <;> rfl

theorem outputFromProto_toProto (output : StageOutput) :
    outputFromProto (outputToProto output) = .ok output := by
  cases output <;> simp [outputFromProto, outputToProto]

theorem mapM_back {α β : Type} {write : α → β} {read : β → ConversionResult α}
    (h : ∀ a, read (write a) = .ok a) (l : List α) : (l.map write).mapM read = .ok l := by
  rw [mapM_map, mapM_eq_ok (g := read ∘ write) (h := id) fun a _ => h a, map_id]

theorem stageFromProto_toProto (stage : SentStage) :
    stageFromProto (stageToProto stage) = .ok stage := by
  simp only [stageFromProto, stageToProto, outputFromProto_toProto,
    mapM_back inputFromProto_toProto]
  rfl

theorem edgeFromProto_toProto (edge : ExchangeEdge) :
    edgeFromProto (edgeToProto edge) = .ok edge := by
  simp only [edgeFromProto, edgeToProto, exchangeFromProto_toProto]
  rfl

theorem planFromProto_toProto (plan : SentPlan) :
    planFromProto (planToProto plan) =
      .ok { plan with rootStage := (plan.stages.getLast?.map (·.stageId)).getD 0 } := by
  simp only [planFromProto, planToProto, mapM_back stageFromProto_toProto,
    mapM_back edgeFromProto_toProto]
  rfl

theorem cutPlan_root {text : SqlText} {print : List Cte → QuerySql → String}
    {root : AnnotatedPlan} {policy : PlannerPolicy} {queryId : String} {cteDefinitions : List Cte}
    {plan : SentPlan} (h : cutPlan text print root policy queryId cteDefinitions = some plan) :
    plan.stages.getLast?.map (·.stageId) = some plan.rootStage := by
  obtain ⟨cut, hcut, rfl⟩ : ∃ cut, cutIntoStages text root policy = some cut ∧
      (⟨queryId, cut.coordinator, cut.stages.map (sentStage print cteDefinitions), cut.edges,
        cut.rootStage⟩ : SentPlan) = plan := by
    simpa [cutPlan, Option.bind_eq_some_iff] using h
  obtain ⟨k, st, linked, last, rfl⟩ := LdpShape.cut_linked hcut
  have wf := LdpShape.wellFormed_finish policy.coordinator k linked last
  have ids := congrArg getLast? wf.stageIds
  rw [← wf.rootLast, range_succ, getLast?_concat, getLast?_map] at ids
  rw [← ids, getLast?_map, Option.map_map]
  rfl

/-- Reading back what has been sent of a plan that cutting returns gives the plan. -/
theorem plan_round_trip (prost : Prost) (text : SqlText) (print : List Cte → QuerySql → String)
    (root : AnnotatedPlan) (policy : PlannerPolicy) (queryId : String) (cteDefinitions : List Cte)
    {plan : SentPlan} (h : cutPlan text print root policy queryId cteDefinitions = some plan) :
    deserializeLdpPlan prost (serializeLdpPlan prost plan) = .ok plan := by
  simp only [deserializeLdpPlan, serializeLdpPlan, prost.decode_encode, planFromProto_toProto,
    cutPlan_root h, Option.getD_some]

def plainProst : Prost := ⟨Proto.LdpPlan, id, .ok, fun _ => rfl⟩

/-- A plan with two stages and a hash partition between them. -/
theorem plan_round_trip_spread :
    ∃ plan, cutPlan LdpCutCorrect.identText (fun _ _ => "SELECT 1") LdpShape.spreadFilter
        (.withCoordinator "w1") "q" [] = some plan ∧ plan.stages.length = 2 ∧
      deserializeLdpPlan plainProst (serializeLdpPlan plainProst plan) = .ok plan :=
  ⟨_, rfl, rfl, plan_round_trip plainProst LdpCutCorrect.identText (fun _ _ => "SELECT 1")
    LdpShape.spreadFilter (.withCoordinator "w1") "q" [] rfl⟩

end Leibrix.ProtoConvert
