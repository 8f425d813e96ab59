import Leibrix.SqlAst

/-!
# Discovery of logical tables

One pass over the statement collects the table factors whose last name part is
a registered dataset, in the order of the traversal. It enters CTE bodies, FROM
items, ON conditions, WHERE, the SELECT list and HAVING, and within
expressions only the forms listed here; everything else is skipped.
-/

set_option autoImplicit false

namespace Leibrix.SqlDiscovery
open SqlAst

inductive SqlTransformError where
  | parseError (message : String)
  | multipleStatements
  | unsupportedStatement (name : String)
  deriving DecidableEq

structure TableReference where
  datasetId : String
  «alias» : Option String
  deriving DecidableEq

def TableReference.effectiveName (t : TableReference) : String := t.alias.getD t.datasetId

abbrev Found := Except SqlTransformError (List TableReference)

variable (registered : List String)

mutual

def visitQuery : Query → Found
  | ⟨_, ctes, body, _, _, _⟩ => do
    let inCtes ← visitCtes ctes
    let inBody ← visitSetExpr body
    return inCtes ++ inBody

def visitCtes : List Cte → Found
  | [] => .ok []
  | ⟨_, query⟩::ctes => do
    let here ← visitQuery query
    let rest ← visitCtes ctes
    return here ++ rest

def visitSetExpr : SetExpr → Found
  | .select select => visitSelect select
  | .query query => visitQuery query
  | .setOperation _ _ left right => do
    let inLeft ← visitSetExpr left
    let inRight ← visitSetExpr right
    return inLeft ++ inRight
  | .values _ => .ok []
  | .insert _ => .error (.unsupportedStatement "INSERT")
  | .update _ => .error (.unsupportedStatement "UPDATE")
  | .table _ => .ok []

def visitSelect : Select → Found
  | ⟨_, projection, «from», selection, _, having, _, _⟩ => do
    let inFrom ← visitFrom «from»
    let inSelection ← visitOptExpr selection
    let inProjection ← visitProjection projection
    let inHaving ← visitOptExpr having
    return inFrom ++ inSelection ++ inProjection ++ inHaving

def visitFrom : List TableWithJoins → Found
  | [] => .ok []
  | twj::«from» => do
    let here ← visitTableWithJoins twj
    let rest ← visitFrom «from»
    return here ++ rest

def visitProjection : List SelectItem → Found
  | [] => .ok []
  | item::items => do
    let here ← visitSelectItem item
    let rest ← visitProjection items
    return here ++ rest

def visitSelectItem : SelectItem → Found
  | .unnamedExpr expr | .exprWithAlias expr _ => visitExprForSubqueries expr
  | _ => .ok []

def visitTableWithJoins : TableWithJoins → Found
  | ⟨relation, joins⟩ => do
    let inRelation ← visitTableFactor relation
    let inJoins ← visitJoins joins
    return inRelation ++ inJoins

def visitJoins : List Join → Found
  | [] => .ok []
  | ⟨relation, joinOperator⟩::joins => do
    let inRelation ← visitTableFactor relation
    let inOn ← visitJoinOperator joinOperator
    let rest ← visitJoins joins
    return inRelation ++ inOn ++ rest

def visitJoinOperator : JoinOperator → Found
  | .plain _ constraint | .asOf _ constraint => visitJoinConstraint constraint
  | .apply _ => .ok []

def visitJoinConstraint : JoinConstraint → Found
  | .on expr => visitExprForSubqueries expr
  | _ => .ok []

def visitTableFactor : TableFactor → Found
  | .table name «alias» _ =>
    if registered.contains (extractTableName name) then
      .ok [⟨extractTableName name, «alias».map (·.name.value)⟩]
    else .ok []
  | .derived _ subquery _ => visitQuery subquery
  | .nestedJoin tableWithJoins _ => visitTableWithJoins tableWithJoins
  | _ => .ok []

def visitExprForSubqueries : Expr → Found
  | .subquery query => visitQuery query
  | .inSubquery _ subquery _ | .exists subquery _ => visitQuery subquery
  | .binaryOp left _ right => do
    let inLeft ← visitExprForSubqueries left
    let inRight ← visitExprForSubqueries right
    return inLeft ++ inRight
  | .unaryOp _ expr => visitExprForSubqueries expr
  | .nested inner => visitExprForSubqueries inner
  | .between expr _ low high => do
    let inExpr ← visitExprForSubqueries expr
    let inLow ← visitExprForSubqueries low
    let inHigh ← visitExprForSubqueries high
    return inExpr ++ inLow ++ inHigh
  | .case operand conditions elseResult => do
    let inOperand ← visitOptExpr operand
    let inConditions ← visitConditions conditions
    let inElse ← visitOptExpr elseResult
    return inOperand ++ inConditions ++ inElse
  | .function func => visitFunction func
  | _ => .ok []

def visitOptExpr : Option Expr → Found
  | none => .ok []
  | some expr => visitExprForSubqueries expr

def visitConditions : List (Expr × Expr) → Found
  | [] => .ok []
  | (condition, result)::rest => do
    let inCondition ← visitExprForSubqueries condition
    let inResult ← visitExprForSubqueries result
    let inRest ← visitConditions rest
    return inCondition ++ inResult ++ inRest

def visitFunction : Function → Found
  | ⟨_, args, _, _, _⟩ => visitFunctionArguments args

def visitFunctionArguments : FunctionArguments → Found
  | .list args => visitArgs args
  | _ => .ok []

def visitArgs : List FunctionArg → Found
  | [] => .ok []
  | arg::args => do
    let here ← visitArg arg
    let rest ← visitArgs args
    return here ++ rest

def visitArg : FunctionArg → Found
  | .unnamed arg => visitArgExpr arg
  | _ => .ok []

def visitArgExpr : FunctionArgExpr → Found
  | .expr e => visitExprForSubqueries e
  | _ => .ok []

end

def discover : Statement → Found
  | .query query => visitQuery registered query
  | .other name => .error (.unsupportedStatement name)

end Leibrix.SqlDiscovery
