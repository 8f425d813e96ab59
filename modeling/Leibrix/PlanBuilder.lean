import Leibrix.SqlScopes
import Leibrix.LdpTypes

/-!
# Building logical plans

A query becomes a tree of relational operators from its body outwards. A table name that
is a key of the CTE map is replaced by the plan of the CTE's body, unless that body has no
FROM clause; the body is built at that place, with the map that is in force there. Nothing
bounds the number of such replacements, so they are counted down and building can be left
unfinished. Which definition a name finds, and in which map, is a parameter.
-/

set_option autoImplicit false

namespace Leibrix.PlanBuilder
open SqlAst LdpTypes

inductive PlanBuildError where
  | unsupportedStatement (name : String)
  | unsupportedFeature (feature : String)
  deriving DecidableEq

/-- Why there is no plan. -/
inductive Stop where
  | error (e : PlanBuildError)
  | unfinished
  deriving DecidableEq

abbrev Build := Except Stop

def unsupported {α : Type} (feature : String) : Build α :=
  .error (.error (.unsupportedFeature feature))

/-- Text functions of the standard library and of the parser's tree. -/
structure PlanText where
  toLowercase : String → String
  tableFactor : TableFactor → String
  discriminant : SetExpr → String

/-- Newest entry first. The builder reads the queries of the definitions. -/
abbrev CteMap := List (String × Cte)

def qualified (table column : String) : ColumnRef := ⟨some table, column⟩

def objectNameToString (name : ObjectName) : String :=
  match name.getLast? with
  | some (.identifier ident) => ident.value
  | some (.function display) => display
  | none => ""

def exprToColumnRef : Expr → Option ColumnRef
  | .identifier ident => some (ColumnRef.unqualified ident.value)
  | .compoundIdentifier parts =>
    match parts.reverse with
    | column::table::_ => some (qualified table.value column.value)
    | _ => none
  | _ => none

def isFromTables (col : ColumnRef) (tables : List String) : Bool :=
  match col.table with
  | some t => tables.any fun name => eqIgnoreAsciiCase name t
  | none => false

variable (leftTables rightTables : List String)

/-- The pairs of an ON condition, left side first. -/
def extractEquiKeys : Expr → List (ColumnRef × ColumnRef)
  | .binaryOp left .eq right =>
    match exprToColumnRef left, exprToColumnRef right with
    | some l, some r =>
      if isFromTables l leftTables && isFromTables r rightTables then [(l, r)]
      else if isFromTables l rightTables && isFromTables r leftTables then [(r, l)]
      else []
    | _, _ => []
  | .binaryOp left .and right => extractEquiKeys left ++ extractEquiKeys right
  | .nested inner => extractEquiKeys inner
  | _ => []

def extractJoinKeysFromOperator (joinOp : JoinOperator) (leftTables rightTables : List String) :
    List ColumnRef × List ColumnRef :=
  match extractJoinConstraint joinOp with
  | some (.on expr) => (extractEquiKeys leftTables rightTables expr).unzip
  | some (.using columns) =>
    let keys := columns.map fun name => ColumnRef.unqualified (objectNameToString name)
    (keys, keys)
  | _ => ([], [])

def collectTableNames : LogicalPlan → List String
  | .scan tableName «alias» _ => tableName::(«alias».map (·.name.value)).toList
  | .subqueryScan _ «alias» => [«alias».name.value]
  | .exchangeRead _ «alias» => [«alias»]
  | .filter input _ | .project input _ | .aggregate input _ _ _ _ | .sort input _ | .limit input _ _
  | .window input _ _ => collectTableNames input
  | .join left right _ _ _ | .setOp left right _ _ =>
    collectTableNames left ++ collectTableNames right

def extractGroupKeys : GroupByExpr → List ColumnRef
  | .all => []
  | .expressions exprs _ => exprs.filterMap exprToColumnRef

mutual

def windowSpecs : Expr → List (List Expr)
  | .function ⟨_, args, _, _, window⟩ => windowPartition window ++ argumentWindowSpecs args
  | .binaryOp left _ right => windowSpecs left ++ windowSpecs right
  | .unaryOp _ inner | .nested inner => windowSpecs inner
  | .case operand conditions elseResult =>
    optionWindowSpecs operand ++ conditionWindowSpecs conditions ++ optionWindowSpecs elseResult
  | _ => []

def windowPartition : Option WindowType → List (List Expr)
  | some (.windowSpec partitionBy _) => [partitionBy]
  | _ => []

def argumentWindowSpecs : FunctionArguments → List (List Expr)
  | .list args => argWindowSpecs args
  | _ => []

def argWindowSpecs : List FunctionArg → List (List Expr)
  | [] => []
  | .unnamed (.expr e)::rest | .named _ (.expr e)::rest => windowSpecs e ++ argWindowSpecs rest
  | _::rest => argWindowSpecs rest

def optionWindowSpecs : Option Expr → List (List Expr)
  | none => []
  | some e => windowSpecs e

def conditionWindowSpecs : List (Expr × Expr) → List (List Expr)
  | [] => []
  | (condition, result)::rest =>
    windowSpecs condition ++ windowSpecs result ++ conditionWindowSpecs rest

end

def itemExpr : SelectItem → Option Expr
  | .unnamedExpr expr | .exprWithAlias expr _ => some expr
  | _ => none

def intersectColumnRefs (a b : List ColumnRef) : List ColumnRef :=
  a.filter fun col => b.any col.matches

/-- The keys that all window specifications partition by. -/
def extractWindowPartitionKeys (items : List SelectItem) : List ColumnRef :=
  match ((items.filterMap itemExpr).flatMap windowSpecs).map (·.filterMap exprToColumnRef) with
  | [] => []
  | keys::rest => rest.foldl intersectColumnRefs keys

mutual

def exprHasWindow : Expr → Bool
  | .function ⟨_, _, _, _, window⟩ => window.isSome
  | .binaryOp left _ right => exprHasWindow left || exprHasWindow right
  | .unaryOp _ expr => exprHasWindow expr
  | .nested inner => exprHasWindow inner
  | .case operand conditions elseResult =>
    optionHasWindow operand || conditionsHaveWindow conditions || optionHasWindow elseResult
  | _ => false

def optionHasWindow : Option Expr → Bool
  | none => false
  | some e => exprHasWindow e

def conditionsHaveWindow : List (Expr × Expr) → Bool
  | [] => false
  | (condition, result)::rest =>
    exprHasWindow condition || exprHasWindow result || conditionsHaveWindow rest

end

def aggregateFunctions : List String :=
  ["sum", "count", "avg", "min", "max", "count_star", "group_concat", "string_agg", "array_agg",
   "bool_and", "bool_or", "bit_and", "bit_or", "bit_xor", "stddev", "stddev_pop", "stddev_samp",
   "variance", "var_pop", "var_samp", "covar_pop", "covar_samp", "corr", "percentile_cont",
   "percentile_disc", "median", "mode", "approx_count_distinct", "approx_quantile", "first",
   "last", "any_value", "list", "histogram", "argmin", "argmax", "arg_min", "arg_max",
   "arbitrary", "kurtosis", "skewness", "entropy", "mad", "quantile", "reservoir_quantile",
   "regr_avgx", "regr_avgy", "regr_count", "regr_intercept", "regr_r2", "regr_slope", "regr_sxx",
   "regr_sxy", "regr_syy"]

def isAggregateFunctionName (name : ObjectName) : Bool :=
  aggregateFunctions.any fun agg => eqIgnoreAsciiCase agg (objectNameToString name)

mutual

def exprHasAggregate : Expr → Bool
  | .function ⟨name, _, _, _, window⟩ => !window.isSome && isAggregateFunctionName name
  | .binaryOp left _ right => exprHasAggregate left || exprHasAggregate right
  | .unaryOp _ expr => exprHasAggregate expr
  | .nested inner => exprHasAggregate inner
  | .case operand conditions elseResult =>
    optionHasAggregate operand || conditionsHaveAggregate conditions ||
      optionHasAggregate elseResult
  | _ => false

def optionHasAggregate : Option Expr → Bool
  | none => false
  | some e => exprHasAggregate e

def conditionsHaveAggregate : List (Expr × Expr) → Bool
  | [] => false
  | (condition, result)::rest =>
    exprHasAggregate condition || exprHasAggregate result || conditionsHaveAggregate rest

end

def selectItemHasWindow (item : SelectItem) : Bool := ((itemExpr item).map exprHasWindow).getD false

def selectItemHasAggregate (item : SelectItem) : Bool :=
  ((itemExpr item).map exprHasAggregate).getD false

def hasGroupBy : GroupByExpr → Bool
  | .expressions exprs _ => !exprs.isEmpty
  | .all => true

def withSelection (selection : Option Expr) (plan : LogicalPlan) : LogicalPlan :=
  match selection with
  | some predicate => .filter plan predicate
  | none => plan

def withProjection (projection : List SelectItem) (groupBy : GroupByExpr) (having : Option Expr)
    (plan : LogicalPlan) : LogicalPlan :=
  if hasGroupBy groupBy || projection.any selectItemHasAggregate then
    .aggregate plan groupBy projection having (extractGroupKeys groupBy)
  else if projection.any selectItemHasWindow then
    .window plan projection (extractWindowPartitionKeys projection)
  else .project plan projection

def withOrderBy (orderBy : Option OrderBy) (plan : LogicalPlan) : LogicalPlan :=
  match orderBy with
  | some (.expressions exprs) => if exprs.isEmpty then plan else .sort plan exprs
  | some .all => .sort plan []
  | none => plan

variable (limitClause : Option LimitClause)

def extractLimitOffset (fetch : Option Fetch) : Option Expr × Option Expr :=
  let (limit, offset) :=
    match limitClause with
    | some (.limitOffset limit offset _) => (limit, offset)
    | some (.offsetCommaLimit offset limit) => (some limit, some offset)
    | none => (none, none)
  (if limit.isNone then fetch.bind (·.quantity) else limit, offset)

def withLimit (fetch : Option Fetch) (plan : LogicalPlan) : LogicalPlan :=
  let (limit, offset) := extractLimitOffset limitClause fetch
  if limit.isSome || offset.isSome then .limit plan limit offset else plan

def crossJoin (left right : LogicalPlan) : LogicalPlan :=
  .join left right (.plain .crossJoin .none) [] []

def joinPlans (joinOp : JoinOperator) (left right : LogicalPlan) : LogicalPlan :=
  let (leftKeys, rightKeys) :=
    extractJoinKeysFromOperator joinOp (collectTableNames left) (collectTableNames right)
  .join left right joinOp leftKeys rightKeys

mutual

def queryHasFrom : Query → Bool
  | ⟨_, _, .select select, _, _, _⟩ => !select.from.isEmpty
  | ⟨_, _, .query inner, _, _, _⟩ => queryHasFrom inner
  | ⟨_, _, .setOperation _ _ left right, _, _, _⟩ => setExprHasFrom left || setExprHasFrom right
  | _ => false

def setExprHasFrom : SetExpr → Bool
  | .select select => !select.from.isEmpty
  | .query inner => queryHasFrom inner
  | _ => false

end

section Build
variable (text : PlanText)

def cteEntry (cte : Cte) : String × Cte := (text.toLowercase cte.alias.name.value, cte)

def insertCtes (map : CteMap) (ctes : List Cte) : CteMap :=
  ctes.foldl (fun map cte => cteEntry text cte::map) map

def subqueryScan (name : ObjectName) («alias» : Option TableAlias) (plan : LogicalPlan) :
    LogicalPlan :=
  .subqueryScan plan («alias».getD { name := ⟨objectNameToString name, none⟩ })

variable (resolve : CteMap → ObjectName → Option (Build LogicalPlan))

mutual

def buildFromQueryWithCtes (outer : CteMap) : Query → Build LogicalPlan
  | ⟨_, ctes, body, orderBy, limitClause, fetch⟩ => do
    let plan ← buildSetExpr (insertCtes text outer ctes) body
    return withLimit limitClause fetch (withOrderBy orderBy plan)

def buildSetExpr (map : CteMap) : SetExpr → Build LogicalPlan
  | .select select => buildSelect map select
  | .query query => buildFromQueryWithCtes map query
  | .setOperation op quantifier left right => do
    let leftPlan ← buildSetExpr map left
    let rightPlan ← buildSetExpr map right
    return .setOp leftPlan rightPlan op quantifier
  | .values _ => unsupported "VALUES clause"
  | other => unsupported ("SetExpr variant: " ++ text.discriminant other)

def buildSelect (map : CteMap) : Select → Build LogicalPlan
  | ⟨_, projection, «from», selection, groupBy, having, _, _⟩ => do
    let plan ← buildFromClause map «from»
    return withProjection projection groupBy having (withSelection selection plan)

def buildFromClause (map : CteMap) : List TableWithJoins → Build LogicalPlan
  | [] => unsupported "SELECT without FROM"
  | twj::rest => do
    let plan ← buildTableWithJoins map twj
    buildCrossJoins map plan rest

def buildCrossJoins (map : CteMap) (plan : LogicalPlan) : List TableWithJoins → Build LogicalPlan
  | [] => .ok plan
  | twj::rest => do
    let right ← buildTableWithJoins map twj
    buildCrossJoins map (crossJoin plan right) rest

def buildTableWithJoins (map : CteMap) : TableWithJoins → Build LogicalPlan
  | ⟨relation, joins⟩ => do
    let plan ← buildTableFactor map relation
    buildJoins map plan joins

def buildJoins (map : CteMap) (plan : LogicalPlan) : List Join → Build LogicalPlan
  | [] => .ok plan
  | ⟨relation, joinOperator⟩::joins => do
    let right ← buildTableFactor map relation
    buildJoins map (joinPlans joinOperator plan right) joins

def buildTableFactor (map : CteMap) : TableFactor → Build LogicalPlan
  | .table name «alias» args =>
    match resolve map name with
    | some built => do
      let plan ← built
      return subqueryScan name «alias» plan
    | none => .ok (.scan (objectNameToString name) «alias» (.table name «alias» args))
  | .derived _ subquery «alias» => do
    let plan ← buildFromQueryWithCtes map subquery
    match «alias» with
    | some «alias» => return .subqueryScan plan «alias»
    | none => unsupported "derived table without alias"
  | .nestedJoin tableWithJoins «alias» => do
    let plan ← buildTableWithJoins map tableWithJoins
    match «alias» with
    | some «alias» => return .subqueryScan plan «alias»
    | none => return plan
  | .function lateral name args «alias» =>
    .ok (.scan (objectNameToString name) «alias» (.function lateral name args «alias»))
  | other => .ok (.scan (text.tableFactor other) none other)

end

/-- Where a name is looked up: the definition it finds, and the map in which that is built. -/
abbrev Find := CteMap → ObjectName → Option (Cte × CteMap)

def findAtUse : Find := fun map name =>
  (map.lookup (text.toLowercase (objectNameToString name))).map fun cte => (cte, map)

def expandWith (find : Find) (build : CteMap → Query → Build LogicalPlan) (map : CteMap)
    (name : ObjectName) : Option (Build LogicalPlan) :=
  match find map name with
  | some (cte, env) => if queryHasFrom cte.query then some (build env cte.query) else none
  | none => none

/-- At most `fuel` replacements, one inside the other. -/
def buildPlan (find : Find) : Nat → CteMap → Query → Build LogicalPlan
  | 0 => fun _ _ => .error .unfinished
  | fuel+1 => buildFromQueryWithCtes text (expandWith find (buildPlan find fuel))

structure BuildResult where
  plan : LogicalPlan
  cteDefinitions : List Cte

def buildLogicalPlan (fuel : Nat) : Statement → Build BuildResult
  | .query query => do
    let plan ← buildPlan text (findAtUse text) fuel [] query
    return ⟨plan, query.ctes⟩
  | .other name => .error (.error (.unsupportedStatement name))

end Build

end Leibrix.PlanBuilder
