import Leibrix.LdpCut

/-!
# The SQL of a stage

A stage is sent to its workers as SQL, built from its plan from the top down. What is
printed is kept here as a tree: the clauses in the order in which they are written, with
the expressions that go into them. Qualifiers are taken off the column references of a
clause where the plan below reads an exchange; which test decides that depends on the
clause.
-/

set_option autoImplicit false

namespace Leibrix.StageSql
open SqlAst LdpTypes

/-- The plan comes down to exchange data, along single inputs. -/
def isExchangeBackedPlan : LogicalPlan → Bool
  | .exchangeRead .. => true
  | .subqueryScan input _ | .filter input _ | .project input _ | .aggregate input _ _ _ _
  | .sort input _ | .limit input _ _ | .window input _ _ => isExchangeBackedPlan input
  | .join .. | .setOp .. | .scan .. => false

/-- Some branch reads exchange data that no alias is put on. -/
def planContainsBareExchange : LogicalPlan → Bool
  | .exchangeRead .. => true
  | .subqueryScan .. => false
  | .filter input _ | .project input _ | .aggregate input _ _ _ _ | .sort input _ | .limit input _ _
  | .window input _ _ => planContainsBareExchange input
  | .join left right _ _ _ | .setOp left right _ _ =>
    planContainsBareExchange left || planContainsBareExchange right
  | .scan .. => false

mutual

def dequalifyExpr : Expr → Expr
  | .compoundIdentifier parts =>
    match parts.getLast? with
    | some ident => .identifier ident
    | none => .compoundIdentifier parts
  | .binaryOp left op right => .binaryOp (dequalifyExpr left) op (dequalifyExpr right)
  | .unaryOp op expr => .unaryOp op (dequalifyExpr expr)
  | .nested inner => .nested (dequalifyExpr inner)
  | .cast expr dataType => .cast (dequalifyExpr expr) dataType
  -- a function's filter, its ordering, its window and its named arguments stay as they are
  | .function ⟨name, .list args, filter, withinGroup, window⟩ =>
    .function ⟨name, .list (dequalifyArgs args), filter, withinGroup, window⟩
  | .case operand conditions elseResult =>
    .case (dequalifyOption operand) (dequalifyConditions conditions) (dequalifyOption elseResult)
  | .between expr negated low high =>
    .between (dequalifyExpr expr) negated (dequalifyExpr low) (dequalifyExpr high)
  | .inList expr list negated => .inList (dequalifyExpr expr) (dequalifyList list) negated
  | .inSubquery expr subquery negated => .inSubquery (dequalifyExpr expr) subquery negated
  | .form (.other display) operands => .form (.other display) operands
  | .form form operands => .form form (dequalifyList operands)
  | expr => expr

def dequalifyOption : Option Expr → Option Expr
  | none => none
  | some e => some (dequalifyExpr e)

def dequalifyList : List Expr → List Expr
  | [] => []
  | e::rest => dequalifyExpr e :: dequalifyList rest

def dequalifyConditions : List (Expr × Expr) → List (Expr × Expr)
  | [] => []
  | (condition, result)::rest =>
    (dequalifyExpr condition, dequalifyExpr result) :: dequalifyConditions rest

def dequalifyArgs : List FunctionArg → List FunctionArg
  | [] => []
  | .unnamed (.expr e)::rest => .unnamed (.expr (dequalifyExpr e)) :: dequalifyArgs rest
  | arg::rest => arg :: dequalifyArgs rest

end

def dequalifyOrderByExpr (o : OrderByExpr) : OrderByExpr := { o with expr := dequalifyExpr o.expr }

def dequalifyGroupBy : GroupByExpr → GroupByExpr
  | .expressions exprs modifiers => .expressions (dequalifyList exprs) modifiers
  | .all => .all

def dequalifySelectItem : SelectItem → SelectItem
  | .unnamedExpr expr => .unnamedExpr (dequalifyExpr expr)
  | .exprWithAlias expr aliasName => .exprWithAlias (dequalifyExpr expr) aliasName
  | item => item

def dequalifyConstraint : JoinConstraint → JoinConstraint
  | .on expr => .on (dequalifyExpr expr)
  | constraint => constraint

mutual

/-- An empty list of items is printed as `*`. -/
inductive QuerySql where
  | select (items : List SelectItem) (source : FromSql) (groupBy : Option GroupByExpr)
      (having : Option Expr)
  | orderBy (body : QuerySql) (exprs : List OrderByExpr)
  | limit (body : QuerySql) (limit offset : Option Expr)
  | setOp (left right : QuerySql) (op : SetOperator) (quantifier : SetQuantifier)

/-- What follows `FROM`. A join is printed with the keyword of its operator. -/
inductive FromSql where
  | factor (tableFactor : TableFactor)
  | exchange (exchangeId : Nat) (name : String)
  | join (left right : FromSql) (joinOp : JoinOperator) (constraint : Option JoinConstraint)
  | filtered (source : FromSql) (predicate : Expr)
  | derived (body : QuerySql) («alias» : TableAlias)

end

section Clauses

def selectAll (source : FromSql) : QuerySql := .select [] source none none

def stripIf {α : Type} (strips : Bool) (dequalify : α → α) (a : α) : α :=
  if strips then dequalify a else a

variable (input : LogicalPlan)

def sortSql (body : QuerySql) (orderBy : List OrderByExpr) : QuerySql :=
  .orderBy body (orderBy.map (stripIf (isExchangeBackedPlan input) dequalifyOrderByExpr))

def hasGroupBy : GroupByExpr → Bool
  | .expressions exprs _ => !exprs.isEmpty
  | .all => true

def aggregateSql (source : FromSql) (groupBy : GroupByExpr) (aggrExprs : List SelectItem)
    (having : Option Expr) : QuerySql :=
  let exchangeBacked := isExchangeBackedPlan input
  .select (aggrExprs.map (stripIf exchangeBacked dequalifySelectItem)) source
    (if hasGroupBy groupBy then some (stripIf exchangeBacked dequalifyGroupBy groupBy) else none)
    (having.map (stripIf exchangeBacked dequalifyExpr))

def projectSql (source : FromSql) (items : List SelectItem) : QuerySql :=
  .select (items.map (stripIf (planContainsBareExchange input) dequalifySelectItem)) source none
    none

def windowSql (source : FromSql) (windowExprs : List SelectItem) : QuerySql :=
  .select windowExprs source none none

def filterSql (source : FromSql) (predicate : Expr) : FromSql :=
  .filtered source (stripIf (planContainsBareExchange input) dequalifyExpr predicate)

def joinSql (left right : LogicalPlan) (leftSource rightSource : FromSql)
    (joinOp : JoinOperator) : FromSql :=
  let hasExchange := planContainsBareExchange left || planContainsBareExchange right
  .join leftSource rightSource joinOp
    ((extractJoinConstraint joinOp).map (stripIf hasExchange dequalifyConstraint))

/-- The alias of a query that stands in a `FROM` clause without one. -/
def subqueryAlias : TableAlias := { name := ⟨"__subquery", none⟩ }

end Clauses

mutual

def generateSql : LogicalPlan → QuerySql
  | .limit input limit offset => .limit (generateSql input) limit offset
  | .sort input orderBy => sortSql input (generateSql input) orderBy
  | .aggregate input groupBy aggrExprs having _ =>
    aggregateSql input (generateFromFragment input) groupBy aggrExprs having
  | .project input items => projectSql input (generateFromFragment input) items
  | .window input windowExprs _ => windowSql (generateFromFragment input) windowExprs
  | .setOp left right op quantifier => .setOp (generateSql left) (generateSql right) op quantifier
  | .subqueryScan input _ => generateSql input
  | .scan _ _ tableFactor => selectAll (.factor tableFactor)
  | .exchangeRead exchangeId name => selectAll (.exchange exchangeId name)
  | .filter input predicate => selectAll (filterSql input (generateFromFragment input) predicate)
  | .join left right joinOp _ _ =>
    selectAll (joinSql left right (generateFromFragment left) (generateFromFragment right) joinOp)

def generateFromFragment : LogicalPlan → FromSql
  | .scan _ _ tableFactor => .factor tableFactor
  | .exchangeRead exchangeId name => .exchange exchangeId name
  | .join left right joinOp _ _ =>
    joinSql left right (generateFromFragment left) (generateFromFragment right) joinOp
  | .filter input predicate => filterSql input (generateFromFragment input) predicate
  | .subqueryScan input aliasName => .derived (generateSql input) aliasName
  -- every other node is a query of its own
  | .limit input limit offset => .derived (.limit (generateSql input) limit offset) subqueryAlias
  | .sort input orderBy => .derived (sortSql input (generateSql input) orderBy) subqueryAlias
  | .aggregate input groupBy aggrExprs having _ =>
    .derived (aggregateSql input (generateFromFragment input) groupBy aggrExprs having)
      subqueryAlias
  | .project input items =>
    .derived (projectSql input (generateFromFragment input) items) subqueryAlias
  | .window input windowExprs _ =>
    .derived (windowSql (generateFromFragment input) windowExprs) subqueryAlias
  | .setOp left right op quantifier =>
    .derived (.setOp (generateSql left) (generateSql right) op quantifier) subqueryAlias

end

end Leibrix.StageSql
