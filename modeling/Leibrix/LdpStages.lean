import Leibrix.LdpCut

/-!
# Putting the stages together again

What a list of stages says about the query: each `ExchangeRead` stands for the
plan of the stage that feeds it. Reading the root stage in this way gives a plan
again, which should be the plan that was cut, up to the columns that a sort orders
by and the wrappers that keep names.
-/

set_option autoImplicit false

namespace Leibrix.LdpStages
open SqlAst LdpTypes LdpAnnotate LdpCut

variable (read : Nat → Option LogicalPlan)

def substReads : LogicalPlan → Option LogicalPlan
  | .exchangeRead id _ => read id
  | .scan tableName aliasName factor => some (.scan tableName aliasName factor)
  | .filter input predicate => do return .filter (← substReads input) predicate
  | .project input items => do return .project (← substReads input) items
  | .aggregate input groupBy aggrExprs having groupKeys => do
    return .aggregate (← substReads input) groupBy aggrExprs having groupKeys
  | .sort input orderBy => do return .sort (← substReads input) orderBy
  | .limit input limit offset => do return .limit (← substReads input) limit offset
  | .window input windowExprs partitionKeys => do
    return .window (← substReads input) windowExprs partitionKeys
  | .subqueryScan input aliasName => do return .subqueryScan (← substReads input) aliasName
  | .join left right joinOp leftKeys rightKeys => do
    return .join (← substReads left) (← substReads right) joinOp leftKeys rightKeys
  | .setOp left right op quantifier => do
    return .setOp (← substReads left) (← substReads right) op quantifier

/-- The plans of the stages and the stage that feeds each exchange. -/
structure Wiring where
  stagePlan : Nat → Option LogicalPlan
  source : Nat → Option Nat

/-- The plan of a stage with its exchanges read, through at most `fuel` stages. -/
def Wiring.resolve (w : Wiring) : Nat → Nat → Option LogicalPlan
  | 0, _ => none
  | fuel + 1, stage => do
    substReads (fun id => do w.resolve fuel (← w.source id)) (← w.stagePlan stage)

variable (plan : LdpPlan)

def LdpPlan.wiring : Wiring where
  stagePlan k := (plan.stages.find? (·.stageId == k)).map (·.plan)
  source id := (plan.edges.find? (·.exchangeId == id)).map (·.fromStage)

def reassembled : Option LogicalPlan :=
  (LdpPlan.wiring plan).resolve plan.stages.length plan.rootStage

/-- Every column that a sort of the plan orders by. -/
def orderColumns : LogicalPlan → List Expr
  | .scan .. => []
  | .exchangeRead .. => []
  | .filter input _ | .project input _ | .aggregate input _ _ _ _ => orderColumns input
  | .sort input orderBy => extractOrderByColumns orderBy ++ orderColumns input
  | .limit input _ _ | .window input _ _ | .subqueryScan input _ => orderColumns input
  | .join left right _ _ _ | .setOp left right _ _ => orderColumns left ++ orderColumns right

section Restores

variable (cols : List Expr)

def IsHelper (item : SelectItem) : Prop :=
  ∃ col ∈ cols, item = aliasedColumn col ∨ item = .unnamedExpr col

def Extended (items items' : List SelectItem) : Prop :=
  ∃ helpers, (∀ item ∈ helpers, IsHelper cols item) ∧ items' = items ++ helpers

def IsName (item : SelectItem) : Prop := ∃ name, item = .unnamedExpr (.identifier ⟨name, none⟩)

/-- The second plan has the operators of the first, with the same children in the same order and
the same predicates. Output lists may carry helper columns, a relation may be wrapped in its own
alias, and a sorted plan in a projection onto the names of its own output columns. -/
inductive Restores : LogicalPlan → LogicalPlan → Prop
  | scan (tableName : String) (aliasName : Option TableAlias) (factor : TableFactor) :
    Restores (.scan tableName aliasName factor) (.scan tableName aliasName factor)
  | filter {i j : LogicalPlan} (predicate : Expr) :
    Restores i j → Restores (.filter i predicate) (.filter j predicate)
  | project {i j : LogicalPlan} {items items' : List SelectItem} :
    Restores i j → Extended cols items items' → Restores (.project i items) (.project j items')
  | aggregate {i j : LogicalPlan} (groupBy : GroupByExpr) {items items' : List SelectItem}
      (having : Option Expr) (groupKeys : List ColumnRef) :
    Restores i j → Extended cols items items' →
      Restores (.aggregate i groupBy items having groupKeys)
        (.aggregate j groupBy items' having groupKeys)
  | sort {i j : LogicalPlan} (orderBy : List OrderByExpr) :
    Restores i j → Restores (.sort i orderBy) (.sort j orderBy)
  | limit {i j : LogicalPlan} (limit offset : Option Expr) :
    Restores i j → Restores (.limit i limit offset) (.limit j limit offset)
  | window {i j : LogicalPlan} {items items' : List SelectItem} (partitionKeys : List ColumnRef) :
    Restores i j → Extended cols items items' →
      Restores (.window i items partitionKeys) (.window j items' partitionKeys)
  | subqueryScan {i j : LogicalPlan} (aliasName : TableAlias) :
    Restores i j → Restores (.subqueryScan i aliasName) (.subqueryScan j aliasName)
  | join {i j k l : LogicalPlan} (joinOp : JoinOperator) (leftKeys rightKeys : List ColumnRef) :
    Restores i j → Restores k l →
      Restores (.join i k joinOp leftKeys rightKeys) (.join j l joinOp leftKeys rightKeys)
  | setOp {i j k l : LogicalPlan} (op : SetOperator) (quantifier : SetQuantifier) :
    Restores i j → Restores k l → Restores (.setOp i k op quantifier) (.setOp j l op quantifier)
  | named {p q : LogicalPlan} (relationAlias : TableAlias) :
    deriveRelationAlias p = some relationAlias → Restores p q →
      Restores p (.subqueryScan q relationAlias)
  | restored {p q : LogicalPlan} {original items : List SelectItem} :
    sortOrderByColumns p ≠ [] → extractInnerProjectionItems p = some original →
      items.map getOutputColumnName = original.map getOutputColumnName →
      (∀ item ∈ items, IsName item) → Restores p q → Restores p (.project q items)

end Restores

def readIds : List Nat :=
  plan.stages.flatMap fun stage => (collectExchangeReads stage.plan).map Prod.fst

/-- Cutting goes through, the stages stand for the plan that was cut, and each exchange is read
once. -/
def CutPreserves (text : SqlText) (policy : PlannerPolicy) (root : AnnotatedPlan) : Prop :=
  ∃ plan, cutIntoStages text root policy = some plan ∧
    (∃ q, reassembled plan = some q ∧ Restores (orderColumns root.plan) root.plan q) ∧
    ∀ edge ∈ plan.edges, (readIds plan).count edge.exchangeId = 1

def takesColumns : LogicalPlan → Bool
  | .scan .. | .exchangeRead .. | .join .. | .setOp .. => false
  | _ => true

mutual

/-- No sort at the root of a stage has an exchange right above a scan, a join or a set
operation. -/
def cuttable (stageRoot : Bool) : AnnotatedPlan → Bool
  | .mk plan _ _ _ children =>
    (!stageRoot || (sortOrderByColumns plan).isEmpty ||
      children.all fun child => child.exchangeBefore.isNone || takesColumns child.plan) &&
      allCuttable children

def allCuttable : List AnnotatedPlan → Bool
  | [] => true
  | child::rest => cuttable child.exchangeBefore.isSome child && allCuttable rest

end

end Leibrix.LdpStages
