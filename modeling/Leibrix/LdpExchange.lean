import Leibrix.LdpTypes

/-!
# Requirements and exchange selection

What each operator asks of its inputs, and the exchange that is put under an
input that does not meet it. Joins choose the exchanges of both sides together.
-/

set_option autoImplicit false

namespace Leibrix.LdpExchange
open LdpTypes

def getLogicalPlanRequirements : LogicalPlan → List RequiredDistribution
  | .scan .. => []
  | .exchangeRead .. => []
  | .filter .. | .project .. => [.any]
  | .sort .. | .limit .. => [.singleton]
  | .aggregate _ _ _ _ groupKeys =>
    if groupKeys.isEmpty then [.singleton] else [.hashPartitioned groupKeys]
  | .join _ _ _ leftKeys rightKeys =>
    if leftKeys.isEmpty || rightKeys.isEmpty then [.any, .singleton]
    else [.hashPartitioned leftKeys, .hashPartitioned rightKeys]
  | .setOp _ _ op quantifier =>
    match op, quantifier with
    | .union, .all => [.any, .any]
    | _, _ => [.singleton, .singleton]
  | .window _ _ partitionKeys =>
    if partitionKeys.isEmpty then [.singleton] else [.hashPartitioned partitionKeys]
  | .subqueryScan .. => [.any]

inductive RejectReason where
  | shuffleTooLarge (estimatedBytes limit : UInt64)
  | gatherTooLarge (estimatedRows estimatedBytes rowLimit byteLimit : UInt64)
  deriving DecidableEq

inductive ExchangeDecision where
  | none
  | insert (exchange : Exchange)
  | reject (reason : RejectReason)
  deriving DecidableEq

def determineGatherExchange (estRows estBytes : UInt64) (statsExact : Bool)
    (policy : PlannerPolicy) : ExchangeDecision :=
  if policy.canGatherWithSafety estRows estBytes statsExact then
    .insert (.gather policy.coordinator)
  else .reject (.gatherTooLarge estRows estBytes policy.gatherRowsMax policy.gatherBytesMax)

def determineHashOrBroadcastExchange (actual : Distribution) (ann : DistributionAnnotation)
    (requiredColumnRefs : List ColumnRef) (policy : PlannerPolicy) (isJoinContext : Bool)
    (targetWorkers : List WorkerId) : ExchangeDecision :=
  let estBytes := (ann.withSafetyFactor policy.safetyFactor).2
  if policy.canOptimizeToBroadcast estBytes ann.statsSource.isExact isJoinContext then
    .insert (.broadcast (if targetWorkers.isEmpty then actual.workers else targetWorkers))
  else if policy.canShuffle estBytes then
    .insert (.hashPartition requiredColumnRefs policy.defaultPartitions)
  else .reject (.shuffleTooLarge estBytes policy.shuffleBytesMax)

def determineExchange (actual : Distribution) (ann : DistributionAnnotation)
    (required : RequiredDistribution) (policy : PlannerPolicy) (isJoinContext : Bool)
    (targetWorkers : List WorkerId) : ExchangeDecision :=
  if required.isSatisfiedBy actual then .none
  else
    match required with
    | .any => .none
    | .singleton =>
      -- the estimates already carry the safety factor, and the gather check applies it again
      let (estRows, estBytes) := ann.withSafetyFactor policy.safetyFactor
      determineGatherExchange estRows estBytes ann.statsSource.isExact policy
    | .hashPartitioned columnRefs =>
      determineHashOrBroadcastExchange actual ann columnRefs policy isJoinContext
        targetWorkers

structure JoinExchangeContext where
  leftAnnotation : DistributionAnnotation
  rightAnnotation : DistributionAnnotation
  leftActual : Distribution
  rightActual : Distribution
  leftKeys : List ColumnRef
  rightKeys : List ColumnRef
  policy : PlannerPolicy
  targetWorkers : List WorkerId

namespace JoinExchangeContext

variable (ctx : JoinExchangeContext)

def leftSatisfied : Bool :=
  (RequiredDistribution.hashPartitioned ctx.leftKeys).isSatisfiedBy ctx.leftActual

def rightSatisfied : Bool :=
  (RequiredDistribution.hashPartitioned ctx.rightKeys).isSatisfiedBy ctx.rightActual

def leftBytes : UInt64 := (ctx.leftAnnotation.withSafetyFactor ctx.policy.safetyFactor).2

def rightBytes : UInt64 := (ctx.rightAnnotation.withSafetyFactor ctx.policy.safetyFactor).2

def leftCanBroadcast : Bool :=
  ctx.policy.canOptimizeToBroadcast ctx.leftBytes ctx.leftAnnotation.statsSource.isExact true

def rightCanBroadcast : Bool :=
  ctx.policy.canOptimizeToBroadcast ctx.rightBytes ctx.rightAnnotation.statsSource.isExact true

def coPartitioned : Bool :=
  match ctx.leftActual, ctx.rightActual with
  | .hashPartitioned leftPartitionKeys leftWorkers,
    .hashPartitioned rightPartitionKeys rightWorkers =>
    keysMatch leftPartitionKeys ctx.leftKeys && keysMatch rightPartitionKeys ctx.rightKeys &&
      decide (leftWorkers = rightWorkers)
  | _, _ => false

def broadcastLeft : ExchangeDecision × ExchangeDecision :=
  (if ctx.leftSatisfied then .none
    else .insert (.broadcast
      (if ctx.targetWorkers.isEmpty then ctx.rightActual.workers else ctx.targetWorkers)),
    .none)

def broadcastRight : ExchangeDecision × ExchangeDecision :=
  (.none,
    if ctx.rightSatisfied then .none
    else .insert (.broadcast
      (if ctx.targetWorkers.isEmpty then ctx.leftActual.workers else ctx.targetWorkers)))

def shuffleBoth : ExchangeDecision × ExchangeDecision :=
  let totalShuffle := ctx.leftBytes + ctx.rightBytes
  if ctx.policy.canShuffle totalShuffle then
    (if ctx.leftSatisfied then .none
      else .insert (.hashPartition ctx.leftKeys ctx.policy.defaultPartitions),
      if ctx.rightSatisfied then .none
      else .insert (.hashPartition ctx.rightKeys ctx.policy.defaultPartitions))
  else
    let reason := RejectReason.shuffleTooLarge totalShuffle ctx.policy.shuffleBytesMax
    (.reject reason, .reject reason)

end JoinExchangeContext

def determineJoinExchanges (ctx : JoinExchangeContext) : ExchangeDecision × ExchangeDecision :=
  if ctx.rightActual.isReplicated then (.none, .none)
  else if ctx.coPartitioned then (.none, .none)
  else if ctx.leftSatisfied && ctx.rightSatisfied then (.none, .none)
  else
    match ctx.leftCanBroadcast, ctx.rightCanBroadcast with
    | true, true => if ctx.leftBytes ≤ ctx.rightBytes then ctx.broadcastLeft else ctx.broadcastRight
    | true, false => ctx.broadcastLeft
    | false, true => ctx.broadcastRight
    | false, false => ctx.shuffleBoth

end Leibrix.LdpExchange
