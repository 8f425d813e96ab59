import Leibrix.LdpAnnotate
import Mathlib.Data.List.Dedup
import Mathlib.Data.List.Sort

/-!
# Stage cutting

An annotated plan is cut below every node that has an exchange: the node's subtree becomes
a stage of its own and the parent reads it through an `ExchangeRead` placeholder. Columns
that a `Sort` orders by are added to what travels through the exchanges under it.

Indexing into a list of rebuilt children panics when the list is too short, so the
functions that do it return `none` there. The recursion of `cut_recursive` runs over
children whose plans were changed on the way down; it is counted down from the depth of the
tree.
-/

set_option autoImplicit false

namespace Leibrix.LdpCut
open SqlAst LdpTypes LdpAnnotate

/-- How the parser's tree prints expressions and select items. -/
structure SqlText where
  expr : Expr → String
  item : SelectItem → String

def textContains (s sub : String) : Bool := sub.isEmpty || decide (1 < (s.splitOn sub).length)

def lastDotPart (s : String) : String := (s.splitOn ".").getLast?.getD s

mutual

def extractAllColumnsFromExpr : Expr → List Expr
  | .identifier ident => [.identifier ident]
  | .compoundIdentifier parts => if parts.isEmpty then [] else [.compoundIdentifier parts]
  | .binaryOp left _ right => extractAllColumnsFromExpr left ++ extractAllColumnsFromExpr right
  | .unaryOp _ expr => extractAllColumnsFromExpr expr
  | .nested inner => extractAllColumnsFromExpr inner
  | .case operand conditions elseResult =>
    extractAllColumnsFromOption operand ++ extractAllColumnsFromConditions conditions ++
      extractAllColumnsFromOption elseResult
  | .function ⟨_, .list args, _, _, _⟩ => extractAllColumnsFromArgs args
  | .cast expr _ => extractAllColumnsFromExpr expr
  | .inList expr list _ => extractAllColumnsFromExpr expr ++ extractAllColumnsFromList list
  | _ => []

def extractAllColumnsFromOption : Option Expr → List Expr
  | none => []
  | some e => extractAllColumnsFromExpr e

def extractAllColumnsFromConditions : List (Expr × Expr) → List Expr
  | [] => []
  | (condition, result)::rest =>
    extractAllColumnsFromExpr condition ++ extractAllColumnsFromExpr result ++
      extractAllColumnsFromConditions rest

def extractAllColumnsFromArgs : List FunctionArg → List Expr
  | [] => []
  | .unnamed (.expr e)::rest => extractAllColumnsFromExpr e ++ extractAllColumnsFromArgs rest
  | _::rest => extractAllColumnsFromArgs rest

def extractAllColumnsFromList : List Expr → List Expr
  | [] => []
  | e::rest => extractAllColumnsFromExpr e ++ extractAllColumnsFromList rest

end

def extractColumnFromExpr : Expr → List Expr
  | .identifier ident => [.identifier ident]
  | .compoundIdentifier parts => if parts.isEmpty then [] else [.compoundIdentifier parts]
  | .binaryOp left _ right => extractColumnFromExpr left ++ extractColumnFromExpr right
  | .unaryOp _ expr => extractColumnFromExpr expr
  | .nested inner => extractColumnFromExpr inner
  | expr => extractAllColumnsFromExpr expr

def extractOrderByColumns (orderBy : List OrderByExpr) : List Expr :=
  orderBy.flatMap fun o => extractColumnFromExpr o.expr

def getColumnAlias : Expr → String
  | .identifier ident => ident.value
  | .compoundIdentifier parts =>
    match parts.getLast? with
    | some p => p.value
    | none => "order_by_col"
  | _ => "order_by_col"

def getOutputColumnName : SelectItem → Option String
  | .exprWithAlias _ aliasName => some aliasName.value
  | .unnamedExpr (.identifier ident) => some ident.value
  | .unnamedExpr (.compoundIdentifier parts) => parts.getLast?.map (·.value)
  | _ => none

def itemMatchesColumn (item : SelectItem) (colStr : String) : Bool :=
  match getOutputColumnName item with
  | some name => eqIgnoreAsciiCase name (lastDotPart colStr)
  | none => false

variable (text : SqlText)

section AddColumns

variable (columns : List Expr)

def aliasedColumn (col : Expr) : SelectItem := .exprWithAlias col ⟨getColumnAlias col, none⟩

variable (items : List SelectItem)

def addToProject (col : Expr) : List SelectItem :=
  if items.any fun item =>
      ((getOutputColumnName item).map (eqIgnoreAsciiCase · (getColumnAlias col))).getD false then
    items
  else items ++ [aliasedColumn col]

def addToAggregate (col : Expr) : List SelectItem :=
  if items.any fun item => textContains (text.item item) (text.expr col) then items
  else items ++ [.unnamedExpr col]

def addToWindow (col : Expr) : List SelectItem :=
  if items.any fun item => itemMatchesColumn item (text.expr col) then items
  else items ++ [aliasedColumn col]

/-- Puts the columns into the output list of the plan's first node that has one; a join, a set
operation or a leaf is wrapped in a projection. -/
def addColumnsToPlan (plan : LogicalPlan) : LogicalPlan :=
  if columns.isEmpty then plan
  else
    match plan with
    | .project input items => .project input (columns.foldl addToProject items)
    | .aggregate input groupBy aggrExprs having groupKeys =>
      .aggregate input groupBy (columns.foldl (addToAggregate text) aggrExprs) having groupKeys
    | .filter input predicate => .filter (addColumnsToPlan input) predicate
    | .join left right joinOp leftKeys rightKeys =>
      .project (.join left right joinOp leftKeys rightKeys)
        (.wildcard :: columns.map aliasedColumn)
    | .sort input orderBy => .sort (addColumnsToPlan input) orderBy
    | .limit input limit offset => .limit (addColumnsToPlan input) limit offset
    | .window input windowExprs partitionKeys =>
      .window (addColumnsToPlan input) (columns.foldl (addToWindow text) windowExprs) partitionKeys
    | .subqueryScan input aliasName => .subqueryScan (addColumnsToPlan input) aliasName
    | .scan tableName aliasName factor =>
      .project (.scan tableName aliasName factor) (columns.map .unnamedExpr)
    | .exchangeRead id name => .project (.exchangeRead id name) (columns.map .unnamedExpr)
    | .setOp left right op quantifier =>
      .project (.setOp left right op quantifier) (columns.map .unnamedExpr)

def addColumnsToPlanSafe (plan : LogicalPlan) : Option LogicalPlan :=
  if columns.isEmpty then none
  else
    match plan with
    | .project .. | .aggregate .. | .window .. => some (addColumnsToPlan text columns plan)
    | _ => none

mutual

def addOrderByColumnsInSubtree : AnnotatedPlan → AnnotatedPlan
  | .mk plan annotation exchange pre children =>
    match addColumnsToPlanSafe text columns plan with
    | some newPlan => .mk newPlan annotation exchange pre children
    | none => .mk plan annotation exchange pre (addOrderByColumnsInSubtrees children)

def addOrderByColumnsInSubtrees : List AnnotatedPlan → List AnnotatedPlan
  | [] => []
  | child::rest =>
    (if child.exchangeBefore.isNone then addOrderByColumnsInSubtree child else child) ::
      addOrderByColumnsInSubtrees rest

end

mutual

def addOrderByColumnsToExchangeChildren : AnnotatedPlan → AnnotatedPlan
  | .mk plan annotation exchange pre children =>
    .mk ((addColumnsToPlanSafe text columns plan).getD plan) annotation exchange pre
      (addOrderByColumnsToExchangeChildrenList children)

def addOrderByColumnsToExchangeChildrenList : List AnnotatedPlan → List AnnotatedPlan
  | [] => []
  | child::rest =>
    (if child.exchangeBefore.isSome then
      match addColumnsToPlanSafe text columns child.plan with
      | some newPlan => child.withPlan newPlan
      | none => addOrderByColumnsInSubtree text columns child
    else addOrderByColumnsToExchangeChildren child) ::
      addOrderByColumnsToExchangeChildrenList rest

end

end AddColumns

def extractInnerProjectionItems : LogicalPlan → Option (List SelectItem)
  | .project _ items => some items
  | .limit input _ _ | .sort input _ => extractInnerProjectionItems input
  | .window _ windowExprs _ => some windowExprs
  | _ => none

mutual

def hasExchangeInDescendants : AnnotatedPlan → Bool
  | .mk _ _ exchange _ children => exchange.isSome || hasExchangeInAny children

def hasExchangeInAny : List AnnotatedPlan → Bool
  | [] => false
  | child::rest => hasExchangeInDescendants child || hasExchangeInAny rest

end

def reconstructPlanWithChildren (plan : LogicalPlan) (newChildren : List LogicalPlan) :
    Option LogicalPlan :=
  match plan with
  | .scan tableName aliasName factor => some (.scan tableName aliasName factor)
  | .exchangeRead id name => some (.exchangeRead id name)
  | .filter _ predicate => do return .filter (← newChildren[0]?) predicate
  | .project _ items => do return .project (← newChildren[0]?) items
  | .aggregate _ groupBy aggrExprs having groupKeys => do
    return .aggregate (← newChildren[0]?) groupBy aggrExprs having groupKeys
  | .sort _ orderBy => do return .sort (← newChildren[0]?) orderBy
  | .limit _ limit offset => do return .limit (← newChildren[0]?) limit offset
  | .join _ _ joinOp leftKeys rightKeys => do
    return .join (← newChildren[0]?) (← newChildren[1]?) joinOp leftKeys rightKeys
  | .setOp _ _ op quantifier => do
    return .setOp (← newChildren[0]?) (← newChildren[1]?) op quantifier
  | .window _ windowExprs partitionKeys => do
    return .window (← newChildren[0]?) windowExprs partitionKeys
  | .subqueryScan _ aliasName => do return .subqueryScan (← newChildren[0]?) aliasName

def deriveRelationAlias : LogicalPlan → Option TableAlias
  | .scan tableName aliasName _ =>
    some (aliasName.getD { name := ⟨tableName, none⟩, columns := [], explicit := true })
  | .subqueryScan _ aliasName => some aliasName
  | _ => none

def collectExchangeReads : LogicalPlan → List (Nat × String)
  | .exchangeRead id name => [(id, name)]
  | .scan .. => []
  | .filter input _ | .project input _ | .aggregate input _ _ _ _ | .sort input _ | .limit input _ _
  | .window input _ _ | .subqueryScan input _ => collectExchangeReads input
  | .join left right _ _ _ | .setOp left right _ _ =>
    collectExchangeReads left ++ collectExchangeReads right

def hasLocalScan : LogicalPlan → Bool
  | .exchangeRead .. => false
  | .scan .. => true
  | .filter input _ | .project input _ | .aggregate input _ _ _ _ | .sort input _ | .limit input _ _
  | .window input _ _ | .subqueryScan input _ => hasLocalScan input
  | .join left right _ _ _ | .setOp left right _ _ => hasLocalScan left || hasLocalScan right

inductive StageInput where
  | localCatalog
  | exchangeInput (exchangeId : Nat) (tableName : String)
  deriving DecidableEq

inductive StageOutput where
  | stream
  | partitioned (partitions : UInt32) (columnRefs : List ColumnRef)
  deriving DecidableEq

structure Stage where
  stageId : Nat
  targetWorkers : List WorkerId
  inputs : List StageInput
  output : StageOutput
  plan : LogicalPlan

structure ExchangeEdge where
  exchangeId : Nat
  kind : Exchange
  fromStage : Nat
  toStage : Nat
  partitionToWorker : List WorkerId

structure LdpPlan where
  coordinator : WorkerId
  stages : List Stage
  edges : List ExchangeEdge
  rootStage : Nat

abbrev PendingEdge := Nat × Nat × Exchange

/-- The plan under construction together with the counters and the stages' annotations. -/
structure CutState where
  stages : List Stage
  edges : List ExchangeEdge
  nextStageId : Nat
  nextExchangeId : Nat
  stageAnnotations : List (Nat × DistributionAnnotation)

variable (annotated : AnnotatedPlan)

def determineStageOutput : StageOutput :=
  match annotated.exchangeBefore with
  | some (.hashPartition columnRefs partitions) => .partitioned partitions columnRefs
  | _ => .stream

def sortOrderByColumns : LogicalPlan → List Expr
  | .sort _ orderBy | .limit (.sort _ orderBy) _ _ => extractOrderByColumns orderBy
  | _ => []

/-- The placeholder under which a stage reads a child through a new exchange. -/
def readExchange (child : AnnotatedPlan) (kind : Exchange) (fromStage : Nat) (st : CutState) :
    LogicalPlan × List PendingEdge × CutState :=
  let exchangeId := st.nextExchangeId
  let read := LogicalPlan.exchangeRead exchangeId ("__exchange_" ++ toString exchangeId)
  (match deriveRelationAlias child.plan with
    | some relationAlias => .subqueryScan read relationAlias
    | none => read,
    [(exchangeId, fromStage, kind)],
    { st with nextExchangeId := st.nextExchangeId + 1 })

/-- Projects a sorted stage back to the columns it had before the ordering columns came in. -/
def restoreOutputColumns (plan : LogicalPlan) (columns : List Expr) (stagePlan : LogicalPlan) :
    LogicalPlan :=
  if columns.isEmpty then stagePlan
  else
    match extractInnerProjectionItems plan with
    | none => stagePlan
    | some originalItems =>
      let wrapperItems := originalItems.filterMap fun item =>
        (getOutputColumnName item).map fun name => SelectItem.unnamedExpr (.identifier ⟨name, none⟩)
      if wrapperItems.length = originalItems.length then .project stagePlan wrapperItems
      else stagePlan

def stageAnnotation : DistributionAnnotation :=
  match annotated.preExchangeDistribution with
  | some pre => { annotated.annotation with distribution := pre }
  | none => annotated.annotation

def pushStage (stagePlan : LogicalPlan) (pending : List PendingEdge)
    (st : CutState) : Nat × CutState :=
  let inputs := (collectExchangeReads stagePlan).map (fun (id, name) => .exchangeInput id name) ++
    if hasLocalScan stagePlan then [StageInput.localCatalog] else []
  let stageId := st.nextStageId
  let edges := pending.map fun (exchangeId, fromStage, kind) =>
    (⟨exchangeId, kind, fromStage, stageId, []⟩ : ExchangeEdge)
  (stageId,
    { stages := st.stages ++ [⟨stageId, [], inputs, determineStageOutput annotated, stagePlan⟩]
      edges := st.edges ++ edges
      nextStageId := stageId + 1
      nextExchangeId := st.nextExchangeId
      stageAnnotations := (stageId, stageAnnotation annotated) :: st.stageAnnotations })

def mapChildren
    (f : AnnotatedPlan → CutState → Option (LogicalPlan × List PendingEdge × CutState)) :
    List AnnotatedPlan → CutState → Option (List LogicalPlan × List PendingEdge × CutState)
  | [], st => some ([], [], st)
  | child::rest, st => do
    let (plan, edges, st) ← f child st
    let (plans, moreEdges, st) ← mapChildren f rest st
    return (plan::plans, edges ++ moreEdges, st)

section Cut

variable (cut : AnnotatedPlan → CutState → Option (Nat × CutState))
  (extract : AnnotatedPlan → CutState → Option (LogicalPlan × List PendingEdge × CutState))

/-- A child of a stage's root: a stage of its own below an exchange, else part of this stage. -/
def cutChild (columns : List Expr) (child : AnnotatedPlan) (st : CutState) :
    Option (LogicalPlan × List PendingEdge × CutState) :=
  match child.exchangeBefore with
  | some kind => do
    let (fromStage, st) ← cut (child.withPlan (addColumnsToPlan text columns child.plan)) st
    return readExchange child kind fromStage st
  | none =>
    extract
      (if !columns.isEmpty && hasExchangeInDescendants child then
        addOrderByColumnsToExchangeChildren text columns child
      else child) st

def extractChild (child : AnnotatedPlan) (st : CutState) :
    Option (LogicalPlan × List PendingEdge × CutState) :=
  match child.exchangeBefore with
  | some kind => do
    let (fromStage, st) ← cut child st
    return readExchange child kind fromStage st
  | none => extract child st

mutual

def cutRecursive : Nat → AnnotatedPlan → CutState → Option (Nat × CutState)
  | 0, _, _ => none
  | depth + 1, annotated, st => do
    let columns := sortOrderByColumns annotated.plan
    let (childPlans, pending, st) ←
      mapChildren (cutChild text (cutRecursive depth) (extractStagePlan depth) columns)
        annotated.children st
    let stagePlan ← reconstructPlanWithChildren annotated.plan childPlans
    return pushStage annotated (restoreOutputColumns annotated.plan columns stagePlan) pending st

def extractStagePlan :
    Nat → AnnotatedPlan → CutState → Option (LogicalPlan × List PendingEdge × CutState)
  | 0, _, _ => none
  | depth + 1, annotated, st =>
    if annotated.children.isEmpty then some (annotated.plan, [], st)
    else do
      let (newChildren, pending, st) ←
        mapChildren (extractChild (cutRecursive depth) (extractStagePlan depth))
          annotated.children st
      let plan ← reconstructPlanWithChildren annotated.plan newChildren
      return (plan, pending, st)

end

mutual

def treeDepth : AnnotatedPlan → Nat
  | .mk _ _ _ _ children => treeDepths children + 1

def treeDepths : List AnnotatedPlan → Nat
  | [] => 0
  | child::rest => max (treeDepth child) (treeDepths rest)

end

end Cut

def stageWorkers (coordinator : WorkerId) (d : Distribution) : List WorkerId :=
  let workers := (d.workers.insertionSort (· ≤ ·)).dedup
  if workers.isEmpty then [coordinator] else workers

def assignTargetWorkers (coordinator : WorkerId)
    (annotations : List (Nat × DistributionAnnotation)) (stage : Stage) : Stage :=
  { stage with targetWorkers :=
      match annotations.lookup stage.stageId with
      | some annotation => stageWorkers coordinator annotation.distribution
      | none => [coordinator] }

def assignPartitions (stages : List Stage) (edge : ExchangeEdge) : ExchangeEdge :=
  match edge.kind, stages.find? (·.stageId == edge.toStage) with
  | .hashPartition _ partitions, some toStage =>
    let workers := toStage.targetWorkers
    { edge with partitionToWorker :=
        (List.range partitions.toNat).map fun i => workers.getD (i % workers.length) "" }
  | _, _ => edge

def assignStageWorkers (plan : LdpPlan) (annotations : List (Nat × DistributionAnnotation)) :
    LdpPlan :=
  let stages := plan.stages.map (assignTargetWorkers plan.coordinator annotations)
  { plan with stages := stages, edges := plan.edges.map (assignPartitions stages) }

def streamRoot (plan : LdpPlan) : LdpPlan :=
  { plan with stages := plan.stages.map fun stage =>
      if stage.stageId = plan.rootStage then { stage with output := .stream } else stage }

def cutIntoStages (text : SqlText) (root : AnnotatedPlan) (policy : PlannerPolicy) :
    Option LdpPlan := do
  let (finalStageId, st) ← cutRecursive text (treeDepth root) root ⟨[], [], 0, 0, []⟩
  return streamRoot
    (assignStageWorkers ⟨policy.coordinator, st.stages, st.edges, finalStageId⟩ st.stageAnnotations)

end Leibrix.LdpCut
