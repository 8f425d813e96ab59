import Leibrix.SqlAst

/-!
# Names and scopes in a query

Every place of a query is reached by a path of child numbers. A place has a
context: the CTE names that hide tables there, the FROM items that a column
qualifier is looked up in, innermost SELECT first, and whether the rewriting
pass comes by. Table and column names compare without regard to ASCII case.
-/

set_option autoImplicit false

namespace Leibrix.SqlScopes
open SqlAst

/-- What a FROM item is called in its SELECT. A plain table without an alias
goes by its own name. -/
inductive FromItem where
  | aliased (name : String)
  | table (visited : Bool) (name : String)
  | function (name : String)
  | anonymous
  deriving DecidableEq

namespace FromItem

def exposed : FromItem → Option String
  | aliased name | table _ name | function name => some name
  | anonymous => none

def answersTo (item : FromItem) (qualifier : String) : Bool :=
  match item.exposed with
  | some name => eqIgnoreAsciiCase name qualifier
  | none => false

def orAlias (item : FromItem) : Option TableAlias → FromItem
  | some a => .aliased a.name.value
  | none => item

end FromItem

variable (visited : Bool)

mutual

def factorItems : TableFactor → List FromItem
  | .table name a _ => [(FromItem.table visited (extractTableName name)).orAlias a]
  | .derived _ _ a | .tableFunction _ a => [FromItem.anonymous.orAlias a]
  | .function _ name _ a => [(FromItem.function (extractTableName name)).orAlias a]
  | .nestedJoin tableWithJoins none => joinedItems tableWithJoins
  | .nestedJoin _ (some a) => [.aliased a.name.value]
  | .other _ => [.anonymous]

def joinedItems : TableWithJoins → List FromItem
  | ⟨relation, joins⟩ => factorItems relation ++ joinItems joins

def joinItems : List Join → List FromItem
  | [] => []
  | ⟨relation, _⟩::joins => factorItems relation ++ joinItems joins

end

structure Ctx where
  visited : Bool
  ctes : List String
  frames : List (List FromItem)

namespace Ctx

def skipped (ctx : Ctx) : Ctx := { ctx with visited := false }

def withCtes (ctx : Ctx) (ctes : List String) : Ctx := { ctx with ctes := ctes }

def inSelect (ctx : Ctx) («from» : List TableWithJoins) : Ctx :=
  { ctx with frames := «from».flatMap (joinedItems ctx.visited)::ctx.frames }

def inDerived (ctx : Ctx) (lateral : Bool) : Ctx :=
  if lateral then ctx else { ctx with frames := ctx.frames.tail }

end Ctx

inductive Node where
  | query (query : Query)
  | setExpr (setExpr : SetExpr)
  | select (select : Select)
  | tableWithJoins (tableWithJoins : TableWithJoins)
  | tableFactor (factor : TableFactor)
  | expr (expr : Expr)
  | qualifiedWildcard (name : ObjectName)

abbrev Places := List (Ctx × Node)

def exprs (ctx : Ctx) (es : List Expr) : Places := es.map fun e => (ctx, .expr e)

def argExprNodes (ctx : Ctx) : FunctionArgExpr → Places
  | .expr e => [(ctx, .expr e)]
  | .qualifiedWildcard name => [(ctx, .qualifiedWildcard name)]
  | .wildcard => []

def argNodes (ctx : Ctx) : FunctionArg → Places
  | .unnamed arg => argExprNodes ctx arg
  | .named _ arg => argExprNodes ctx.skipped arg
  | .exprNamed name arg => (ctx.skipped, .expr name)::argExprNodes ctx.skipped arg

def windowExprs : WindowType → List Expr
  | .windowSpec partitionBy orderBy => partitionBy ++ orderBy.map (·.expr)
  | .namedWindow _ => []

def argumentsNodes (ctx : Ctx) : FunctionArguments → Places
  | .none => []
  | .subquery query => [(ctx.skipped, .query query)]
  | .list args => args.flatMap (argNodes ctx)

def functionNodes (ctx : Ctx) (func : Function) : Places :=
  argumentsNodes ctx func.args ++
    exprs ctx.skipped (func.filter.toList ++ func.withinGroup.map (·.expr) ++
      (func.over.map windowExprs).getD [])

def exprNodes (ctx : Ctx) : Expr → Places
  | .identifier _ | .compoundIdentifier _ | .value _ | .typedString _ _ => []
  | .cast inner _ => exprs ctx.skipped [inner]
  | .binaryOp left _ right => exprs ctx [left, right]
  | .unaryOp _ inner | .nested inner => exprs ctx [inner]
  | .between inner _ low high => exprs ctx [inner, low, high]
  | .case operand conditions elseResult =>
    exprs ctx operand.toList ++ exprs ctx.skipped (conditions.flatMap fun c => [c.1, c.2]) ++
      exprs ctx elseResult.toList
  | .function func => functionNodes ctx func
  | .subquery query => [(ctx, .query query)]
  | .inSubquery inner subquery _ => [(ctx.skipped, .expr inner), (ctx, .query subquery)]
  | .exists subquery _ => [(ctx, .query subquery)]
  | .inList inner list _ => exprs ctx.skipped (inner::list)
  | .form _ operands => exprs ctx.skipped operands

def cteNodes (ctx : Ctx) (recursive : Bool) : List String → List Cte → Places
  | _, [] => []
  | env, cte::ctes =>
    (ctx.withCtes (if recursive then cte.alias.name.value::env else env), .query cte.query)::
      cteNodes ctx recursive (cte.alias.name.value::env) ctes

def cteNames (env : List String) (ctes : List Cte) : List String :=
  ctes.foldl (fun env cte => cte.alias.name.value::env) env

def orderByExprs : Option OrderBy → List Expr
  | some (.expressions es) => es.map (·.expr)
  | _ => []

def limitExprs : Option LimitClause → List Expr
  | some (.limitOffset limit offset limitBy) => limit.toList ++ offset.toList ++ limitBy
  | some (.offsetCommaLimit offset limit) => [offset, limit]
  | none => []

def fetchExprs : Option Fetch → List Expr
  | some fetch => fetch.quantity.toList
  | none => []

def trailingCtx (ctx : Ctx) : SetExpr → Ctx
  | .select select => ctx.inSelect select.from
  | _ => ctx

def queryNodes (ctx : Ctx) (query : Query) : Places :=
  let body := ctx.withCtes (cteNames ctx.ctes query.ctes)
  cteNodes ctx query.recursive ctx.ctes query.ctes ++ [(body, .setExpr query.body)] ++
    exprs (trailingCtx body query.body).skipped
      (orderByExprs query.orderBy ++ limitExprs query.limitClause ++ fetchExprs query.fetch)

def setExprNodes (ctx : Ctx) : SetExpr → Places
  | .select select => [(ctx, .select select)]
  | .query query => [(ctx, .query query)]
  | .setOperation _ _ left right => [(ctx, .setExpr left), (ctx, .setExpr right)]
  | .values rows => exprs ctx.skipped rows.flatten
  | .insert _ | .update _ | .table _ => []

def itemNodes (ctx : Ctx) : SelectItem → Places
  | .unnamedExpr e | .exprWithAlias e _ => [(ctx, .expr e)]
  | .qualifiedWildcard name => [(ctx, .qualifiedWildcard name)]
  | .wildcard => []

def groupByExprs : GroupByExpr → List Expr
  | .all => []
  | .expressions es _ => es

def selectNodes (ctx : Ctx) (select : Select) : Places :=
  let inner := ctx.inSelect select.from
  select.from.map (fun t => (inner, .tableWithJoins t)) ++ exprs inner select.selection.toList ++
    select.projection.flatMap (itemNodes inner) ++ exprs inner select.having.toList ++
    exprs inner.skipped (select.distinct.getD [] ++ groupByExprs select.groupBy ++
      select.namedWindow.flatMap windowExprs ++ select.qualify.toList)

def constraintNodes (ctx : Ctx) : JoinConstraint → Places
  | .on e => [(ctx, .expr e)]
  | _ => []

def operatorNodes (ctx : Ctx) : JoinOperator → Places
  | .plain _ constraint => constraintNodes ctx constraint
  | .asOf matchCondition constraint =>
    (ctx.skipped, .expr matchCondition)::constraintNodes ctx constraint
  | .apply _ => []

def joinNodes (ctx : Ctx) (join : Join) : Places :=
  (ctx, .tableFactor join.relation)::operatorNodes ctx join.joinOperator

def factorNodes (ctx : Ctx) : TableFactor → Places
  | .table _ _ args => (args.getD []).flatMap (argNodes ctx.skipped)
  | .derived lateral subquery _ => [(ctx.inDerived lateral, .query subquery)]
  | .tableFunction e _ => exprs ctx.skipped [e]
  | .function _ _ args _ => args.flatMap (argNodes ctx.skipped)
  | .nestedJoin tableWithJoins _ => [(ctx, .tableWithJoins tableWithJoins)]
  | .other _ => []

/-- The places directly below a node. -/
def children (ctx : Ctx) : Node → Places
  | .query query => queryNodes ctx query
  | .setExpr setExpr => setExprNodes ctx setExpr
  | .select select => selectNodes ctx select
  | .tableWithJoins twj => (ctx, .tableFactor twj.relation)::twj.joins.flatMap (joinNodes ctx)
  | .tableFactor factor => factorNodes ctx factor
  | .expr e => exprNodes ctx e
  | .qualifiedWildcard _ => []

def walk (ctx : Ctx) (node : Node) : List Nat → Option (Ctx × Node)
  | [] => some (ctx, node)
  | i::path =>
    match (children ctx node)[i]? with
    | some (ctx', child) => walk ctx' child path
    | none => none

def rootCtx : Ctx := ⟨true, [], []⟩

def place (query : Query) (path : List Nat) : Option (Ctx × Node) :=
  walk rootCtx (.query query) path

/-- The name of a plain table reference, in a FROM clause or as `TABLE name`. -/
def plainRef : Node → Option ObjectName
  | .tableFactor (.table name _ _) => some name
  | .setExpr (.table name) => some [.identifier ⟨name, none⟩]
  | _ => none

def resolvesToCte (ctx : Ctx) : ObjectName → Bool
  | [.identifier ident] => ctx.ctes.any (eqIgnoreAsciiCase · ident.value)
  | _ => false

def resolvesToDataset (ids : List String) (ctx : Ctx) (name : ObjectName) : Bool :=
  !resolvesToCte ctx name && ids.any (eqIgnoreAsciiCase · (extractTableName name))

def qualifierOf : Node → Option String
  | .expr (.compoundIdentifier parts) =>
    match parts.reverse with
    | _::qualifier::_ => some qualifier.value
    | _ => none
  | .qualifiedWildcard name => some (extractTableName name)
  | _ => none

/-- The FROM item a qualifier denotes: the first that answers, innermost first. -/
def resolve (ctx : Ctx) (qualifier : String) : Option Nat :=
  ctx.frames.flatten.findIdx? (·.answersTo qualifier)

end Leibrix.SqlScopes
