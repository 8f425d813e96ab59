import Leibrix.StageSql
import Leibrix.NameScopes
import Leibrix.LdpStages

/-!
# What the names of a query mean

The columns that a clause of a query sees, on the plan of the query. A source column is one
of a relation of the `FROM` clause; a derived table is such a relation, so every `SELECT` is
a level of its own.

Joins are taken to be on a condition or without one. `USING` and `NATURAL` merge columns,
which is left out here.
-/

set_option autoImplicit false

namespace Leibrix.PlanNames
open SqlAst LdpTypes LdpCut StageSql NameScopes Option

abbrev Name := List Char

/-- Names are compared without regard to case. -/
def fold (s : String) : Name := s.toList.map Char.toLower

structure Source where
  relation : List Name
  column : Name
  deriving DecidableEq

abbrev Columns := List (Column Name Source)
abbrev Scope := List (Relation Name Source)
abbrev SqlEnv := Env Name Source

def ref? (parts : List Ident) : Option (Ref Name) :=
  parts.getLast?.map fun ident => ⟨parts.dropLast.map fun i => fold i.value, fold ident.value⟩

def relation (names : List Name) (columns : List (Option Name)) : Relation Name Source :=
  ⟨names, columns.map fun name => ⟨name, name.map fun column => ⟨names, column⟩⟩⟩

def objectNames (name : ObjectName) : List Name :=
  name.map fun
    | .identifier ident => fold ident.value
    | .function display => fold display

def aliasNames (aliasName : Option TableAlias) (names : List Name) : List Name :=
  match aliasName with
  | some a => [fold a.name.value]
  | none => names

def factorNames : TableFactor → List Name
  | .table name aliasName _ | .function _ name _ aliasName =>
    aliasNames aliasName (objectNames name)
  | .derived _ _ aliasName | .tableFunction _ aliasName | .nestedJoin _ aliasName =>
    aliasNames aliasName []
  | .other _ => []

def aliasRelation (aliasName : TableAlias) (outs : Columns) : Relation Name Source :=
  relation [fold aliasName.name.value]
    (aliasName.columns.map (fun ident => some (fold ident.value)) ++
      (outs.map Column.name).drop aliasName.columns.length)

def visible {α : Type} : JoinOperator → List α → List α → List α
  | .plain .semi _, left, _ | .plain .leftSemi _, left, _ | .plain .anti _, left, _
  | .plain .leftAnti _, left, _ => left
  | .plain .rightSemi _, _, right | .plain .rightAnti _, _, right => right
  | _, left, right => left ++ right

variable (scope : Scope)

def exprSource : Expr → Option Source
  | .identifier ident => (ref? [ident]).bind (Env.lookup ⟨[], scope⟩)
  | .compoundIdentifier parts => (ref? parts).bind (Env.lookup ⟨[], scope⟩)
  | _ => none

def itemColumns : SelectItem → Columns
  | .wildcard => columnsOf scope
  | .qualifiedWildcard name => columnsOf (scope.filter (·.answers (objectNames name)))
  | .unnamedExpr expr =>
    [⟨(getOutputColumnName (.unnamedExpr expr)).map fold, exprSource scope expr⟩]
  | .exprWithAlias expr aliasName => [⟨some (fold aliasName.value), exprSource scope expr⟩]

def selected (items : List SelectItem) : Columns :=
  if items.isEmpty then columnsOf scope else items.flatMap (itemColumns scope)

variable (catalog : TableFactor → List Name)

def scanRelation (factor : TableFactor) : Relation Name Source :=
  relation (factorNames factor) ((catalog factor).map some)

/-- What a node offers in a `FROM` clause, and what an `ORDER BY` on top of it sees. -/
structure Meaning where
  scope : Scope
  env : SqlEnv

def Meaning.table : Meaning := ⟨scope, ⟨columnsOf scope, scope⟩⟩

def Meaning.query (env : SqlEnv) : Meaning := ⟨[aliasRelation subqueryAlias env.outs], env⟩

/-- A plan of the query itself reads no exchange. -/
def meaning : LogicalPlan → Meaning
  | .scan _ _ factor => .table [scanRelation catalog factor]
  | .exchangeRead .. => .table []
  | .filter input _ => .table (meaning input).scope
  | .join left right joinOp _ _ =>
    .table (visible joinOp (meaning left).scope (meaning right).scope)
  | .project input items => .query ⟨selected (meaning input).scope items, (meaning input).scope⟩
  | .aggregate input _ aggrExprs _ _ =>
    .query ⟨selected (meaning input).scope aggrExprs, (meaning input).scope⟩
  | .window input windowExprs _ =>
    .query ⟨selected (meaning input).scope windowExprs, (meaning input).scope⟩
  | .sort input _ | .limit input _ _ => .query (meaning input).env
  | .setOp left _ _ _ => .query ⟨(meaning left).env.outs, []⟩
  | .subqueryScan input aliasName => .table [aliasRelation aliasName (meaning input).env.outs]

end Leibrix.PlanNames
