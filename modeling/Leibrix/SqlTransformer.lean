import Leibrix.SqlAnalyzer
import Leibrix.SqlDiscovery

/-!
# Rewriting logical tables to macro calls

A transformed statement has each logical table replaced by a call of its macro
with a date range. The ranges come from the top-level WHERE clause and are kept
per dataset. The rewriting pass is written separately from discovery and skips
the arms of CASE expressions, which discovery enters.
-/

set_option autoImplicit false

namespace Leibrix.SqlTransformer
open SqlAst SqlInterval SqlAnalyzer SqlDiscovery

structure RegisteredDataset where
  datasetId : String
  timeColumnName : String
  macroName : String
  deriving DecidableEq

def RegisteredDataset.new (datasetId timeColumnName : String) : RegisteredDataset :=
  ⟨datasetId, timeColumnName, "scan_" ++ datasetId⟩

/-- Datasets by id; a later registration shadows an earlier one. -/
abbrev Registry := List RegisteredDataset

namespace Registry

variable (reg : Registry)

def registerDataset (dataset : RegisteredDataset) : Registry := dataset::reg

def unregisterDataset (datasetId : String) : Registry :=
  reg.filter (·.datasetId != datasetId)

def getDataset (datasetId : String) : Option RegisteredDataset :=
  reg.find? (·.datasetId == datasetId)

def ids : List String := reg.map (·.datasetId)

end Registry

abbrev Table (α : Type) := List (String × α)

abbrev Replacements := Table (RegisteredDataset × DateRange)

section
variable {D : Type} [LinearOrder D] (c : Chrono D)

def extractIntervals (timeColumns : String → Option String) (expr : Expr)
    (tables : List TableReference) : Table Interval :=
  tables.foldl
    (fun intervals table =>
      match timeColumns table.datasetId with
      | none => intervals
      | some timeCol =>
        (table.datasetId, analyzeForTable c table.effectiveName timeCol expr)::intervals) []

def extractWhereClause : Statement → Option Expr
  | .query ⟨_, _, .select select, _, _, _⟩ => select.selection
  | _ => none

variable (reg : Registry)

def dateRanges (stmt : Statement) (tables : List TableReference) : Table DateRange :=
  match extractWhereClause stmt with
  | some expr =>
    (extractIntervals c (fun id => (reg.getDataset id).map (·.timeColumnName)) expr tables).map
      fun (k, v) => (k, .ofInterval v)
  | none => tables.map fun t => (t.datasetId, {})

def replacements (tables : List TableReference) (ranges : Table DateRange) : Replacements :=
  tables.filterMap fun t =>
    match reg.getDataset t.datasetId, ranges.lookup t.datasetId with
    | some dataset, some range => some (t.datasetId, dataset, range)
    | _, _ => none

def createMacroCall (dataset : RegisteredDataset) (range : DateRange)
    (originalAlias : Option TableAlias) : TableFactor :=
  .function false [.identifier ⟨dataset.macroName, none⟩]
    [.unnamed (.expr (formatDateArgs c range).1), .unnamed (.expr (formatDateArgs c range).2)]
    originalAlias

variable (ρ : Replacements)

mutual

def rewriteQuery : Query → Query
  | ⟨recursive, ctes, body, orderBy, limitClause, fetch⟩ =>
    ⟨recursive, rewriteCtes ctes, rewriteSetExpr body, orderBy, limitClause, fetch⟩

def rewriteCtes : List Cte → List Cte
  | [] => []
  | ⟨«alias», query⟩::ctes => ⟨«alias», rewriteQuery query⟩::rewriteCtes ctes

def rewriteSetExpr : SetExpr → SetExpr
  | .select select => .select (rewriteSelect select)
  | .query query => .query (rewriteQuery query)
  | .setOperation op quantifier left right =>
    .setOperation op quantifier (rewriteSetExpr left) (rewriteSetExpr right)
  | e => e

def rewriteSelect : Select → Select
  | ⟨distinct, projection, «from», selection, groupBy, having, namedWindow, qualify⟩ =>
    ⟨distinct, rewriteProjection projection, rewriteFrom «from»,
      rewriteOptExpr selection, groupBy, rewriteOptExpr having, namedWindow, qualify⟩

def rewriteFrom : List TableWithJoins → List TableWithJoins
  | [] => []
  | twj::«from» => rewriteTableWithJoins twj::rewriteFrom «from»

def rewriteProjection : List SelectItem → List SelectItem
  | [] => []
  | item::items => rewriteSelectItem item::rewriteProjection items

def rewriteSelectItem : SelectItem → SelectItem
  | .unnamedExpr expr => .unnamedExpr (rewriteExprSubqueries expr)
  | .exprWithAlias expr «alias» => .exprWithAlias (rewriteExprSubqueries expr) «alias»
  | item => item

def rewriteTableWithJoins : TableWithJoins → TableWithJoins
  | ⟨relation, joins⟩ => ⟨rewriteTableFactor relation, rewriteJoins joins⟩

def rewriteJoins : List Join → List Join
  | [] => []
  | ⟨relation, joinOperator⟩::joins =>
    ⟨rewriteTableFactor relation, rewriteJoinOperator joinOperator⟩::rewriteJoins joins

def rewriteJoinOperator : JoinOperator → JoinOperator
  | .plain kind constraint => .plain kind (rewriteJoinConstraint constraint)
  | .asOf matchCondition constraint => .asOf matchCondition (rewriteJoinConstraint constraint)
  | .apply outer => .apply outer

def rewriteJoinConstraint : JoinConstraint → JoinConstraint
  | .on expr => .on (rewriteExprSubqueries expr)
  | constraint => constraint

def rewriteTableFactor : TableFactor → TableFactor
  | .table name «alias» args =>
    match ρ.lookup (extractTableName name) with
    | some (dataset, range) => createMacroCall c dataset range «alias»
    | none => .table name «alias» args
  | .derived lateral subquery «alias» => .derived lateral (rewriteQuery subquery) «alias»
  | .nestedJoin tableWithJoins «alias» => .nestedJoin (rewriteTableWithJoins tableWithJoins) «alias»
  | factor => factor

def rewriteExprSubqueries : Expr → Expr
  | .subquery query => .subquery (rewriteQuery query)
  | .inSubquery expr subquery negated => .inSubquery expr (rewriteQuery subquery) negated
  | .exists subquery negated => .exists (rewriteQuery subquery) negated
  | .binaryOp left op right =>
    .binaryOp (rewriteExprSubqueries left) op (rewriteExprSubqueries right)
  | .unaryOp op inner => .unaryOp op (rewriteExprSubqueries inner)
  | .nested inner => .nested (rewriteExprSubqueries inner)
  | .between inner negated low high =>
    .between (rewriteExprSubqueries inner) negated (rewriteExprSubqueries low)
      (rewriteExprSubqueries high)
  | .case operand conditions elseResult =>
    -- the arms are skipped
    .case (rewriteOptExpr operand) conditions (rewriteOptExpr elseResult)
  | .function func => .function (rewriteFunction func)
  | e => e

def rewriteOptExpr : Option Expr → Option Expr
  | none => none
  | some e => some (rewriteExprSubqueries e)

def rewriteFunction : Function → Function
  | ⟨name, args, filter, withinGroup, «over»⟩ =>
    ⟨name, rewriteFunctionArguments args, filter, withinGroup, «over»⟩

def rewriteFunctionArguments : FunctionArguments → FunctionArguments
  | .list args => .list (rewriteArgs args)
  | args => args

def rewriteArgs : List FunctionArg → List FunctionArg
  | [] => []
  | arg::args => rewriteArg arg::rewriteArgs args

def rewriteArg : FunctionArg → FunctionArg
  | .unnamed arg => .unnamed (rewriteArgExpr arg)
  | arg => arg

def rewriteArgExpr : FunctionArgExpr → FunctionArgExpr
  | .expr e => .expr (rewriteExprSubqueries e)
  | arg => arg

end

def rewriteStatement : Statement → Except SqlTransformError Statement
  | .query query => .ok (.query (rewriteQuery c ρ query))
  | .other _ => .error (.unsupportedStatement "Only SELECT queries are supported")

/-- What `transform` computes between parsing and printing. -/
structure Rewritten where
  statement : Statement
  tables : List TableReference
  dateRanges : Table DateRange

def transformStatement (stmt : Statement) : Except SqlTransformError Rewritten := do
  let tables ← discover reg.ids stmt
  if tables.isEmpty then
    return ⟨stmt, [], []⟩
  let ranges := dateRanges c reg stmt tables
  let stmt' ← rewriteStatement c (replacements reg tables ranges) stmt
  return ⟨stmt', tables, ranges⟩

end

/-- The SQL parser at its generic dialect, and its printer. -/
structure Parser where
  parse : String → Except String (List Statement)
  toSql : Statement → String

def Parser.parseSql (parser : Parser) (sql : String) : Except SqlTransformError Statement :=
  match parser.parse sql with
  | .error message => .error (.parseError message)
  | .ok [] => .error (.parseError "Empty SQL statement")
  | .ok [stmt] => .ok stmt
  | .ok _ => .error .multipleStatements

structure TransformResult where
  originalSql : String
  transformedSql : String
  tablesReplaced : List String
  dateRanges : Table DateRange

def transform {D : Type} [LinearOrder D] (c : Chrono D) (parser : Parser) (reg : Registry)
    (sql : String) : Except SqlTransformError TransformResult := do
  let stmt ← parser.parseSql sql
  let r ← transformStatement c reg stmt
  return ⟨sql, if r.tables.isEmpty then sql else parser.toSql r.statement,
    r.tables.map (·.datasetId), r.dateRanges⟩

end Leibrix.SqlTransformer
