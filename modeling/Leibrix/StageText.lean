import Leibrix.StageSql
import Leibrix.SqlGrouping
import Leibrix.LdpReassemble

/-!
# The text of a stage

The SQL of a stage is written clause by clause, without parentheses except around derived
tables. A plan that reads no exchange has a tree of its own; what is written for it is the
text of that tree.
-/

set_option autoImplicit false

namespace Leibrix.StageText
open SqlAst LdpTypes StageSql SqlGrouping LdpReassemble

def formatJoinType : JoinOperator → JoinWord
  | .plain .join _ | .plain .inner _ => .join
  | .plain .left _ | .plain .leftOuter _ => .left
  | .plain .right _ | .plain .rightOuter _ => .right
  | .plain .fullOuter _ => .fullOuter
  | .plain .crossJoin _ => .cross
  | .plain .semi _ => .semi
  | .plain .leftSemi _ => .leftSemi
  | .plain .rightSemi _ => .rightSemi
  | .plain .anti _ => .anti
  | .plain .leftAnti _ => .leftAnti
  | .plain .rightAnti _ => .rightAnti
  | .apply false => .crossApply
  | .apply true => .outerApply
  | .asOf .. => .asOf
  | .plain .straightJoin _ => .straight

mutual

def printQuery : QuerySql → List QueryToken
  | .select items source groupBy having => [.select items (printFrom source) groupBy having]
  | .orderBy body exprs => printQuery body ++ if exprs.isEmpty then [] else [.orderBy exprs]
  | .limit body limit offset =>
    printQuery body ++ (limit.toList.map .limit ++ offset.toList.map .offset)
  | .setOp left right op quantifier => printQuery left ++ .setOp op quantifier::printQuery right

def printFrom : FromSql → List FromToken
  | .factor tableFactor => [.factor tableFactor]
  | .exchange _ name => [.factor (.table [.identifier ⟨name, none⟩] none none)]
  | .join left right joinOp constraint =>
    printFrom left ++
      .join (formatJoinType joinOp)::(printFrom right ++ writeConstraint (constraint.getD .none))
  | .filtered source predicate => printFrom source ++ [.where predicate]
  | .derived body «alias» => [.group (printQuery body) «alias»]

end

def matchConditionOf : JoinOperator → Option Expr
  | .asOf matchCondition _ => some matchCondition
  | _ => none

def joinTree (joinOp : JoinOperator) (left right : FromTree) : FromTree :=
  .join left right (formatJoinType joinOp) (matchConditionOf joinOp)
    ((extractJoinConstraint joinOp).getD .none)

def grouping (groupBy : GroupByExpr) : Option GroupByExpr :=
  if hasGroupBy groupBy then some groupBy else none

def allOf (source : FromTree) : QueryTree := .select { items := [] } source

mutual

/-- The query that a plan stands for. -/
def planTree : LogicalPlan → QueryTree
  | .limit input limit offset => .limit (planTree input) limit offset
  | .sort input orderBy => .orderBy (planTree input) orderBy
  | .aggregate input groupBy aggrExprs having _ =>
    .select { items := aggrExprs, groupBy := grouping groupBy, having } (planFrom input)
  | .project input items => .select { items } (planFrom input)
  | .window input windowExprs _ => .select { items := windowExprs } (planFrom input)
  | .setOp left right op quantifier => .setOp op quantifier (planTree left) (planTree right)
  | .subqueryScan input _ => planTree input
  | .scan _ _ tableFactor => allOf (.factor tableFactor)
  | .exchangeRead _ name => allOf (.factor (.table [.identifier ⟨name, none⟩] none none))
  | .filter input predicate => allOf (.filtered (planFrom input) predicate)
  | .join left right joinOp _ _ => allOf (joinTree joinOp (planFrom left) (planFrom right))

/-- The same in a FROM clause. -/
def planFrom : LogicalPlan → FromTree
  | .scan _ _ tableFactor => .factor tableFactor
  | .exchangeRead _ name => .factor (.table [.identifier ⟨name, none⟩] none none)
  | .join left right joinOp _ _ => joinTree joinOp (planFrom left) (planFrom right)
  | .filter input predicate => .filtered (planFrom input) predicate
  | .subqueryScan input «alias» => .derived (planTree input) «alias» {}
  | .limit input limit offset => .derived (.limit (planTree input) limit offset) subqueryAlias {}
  | .sort input orderBy => .derived (.orderBy (planTree input) orderBy) subqueryAlias {}
  | .aggregate input groupBy aggrExprs having _ =>
    .derived (.select { items := aggrExprs, groupBy := grouping groupBy, having } (planFrom input))
      subqueryAlias {}
  | .project input items => .derived (.select { items } (planFrom input)) subqueryAlias {}
  | .window input windowExprs _ =>
    .derived (.select { items := windowExprs } (planFrom input)) subqueryAlias {}
  | .setOp left right op quantifier =>
    .derived (.setOp op quantifier (planTree left) (planTree right)) subqueryAlias {}

end

section Text

theorem not_exchange {p : LogicalPlan} (h : ReadFree p) :
    isExchangeBackedPlan p = false ∧ planContainsBareExchange p = false := by
  induction p with
  | scan => exact ⟨rfl, rfl⟩
  | exchangeRead => cases h
  | filter _ _ ih | project _ _ ih | aggregate _ _ _ _ _ ih | sort _ _ ih | limit _ _ _ ih
  | window _ _ _ ih => exact ih h
  | subqueryScan _ _ ih => exact ⟨(ih h).1, rfl⟩
  | join _ _ _ _ _ ihl ihr | setOp _ _ _ _ ihl ihr =>
    obtain ⟨hl, hr⟩ := List.append_eq_nil_iff.mp h
    exact ⟨rfl, by simp [planContainsBareExchange, (ihl hl).2, (ihr hr).2]⟩

@[simp] theorem stripIf_false {α : Type} (f : α → α) : stripIf false f = id := rfl

theorem printFrom_join (left right : LogicalPlan) (joinOp : JoinOperator)
    (hl : planContainsBareExchange left = false) (hr : planContainsBareExchange right = false)
    {l r : FromSql} {tl tr : FromTree} (ihl : printFrom l = writeFrom tl)
    (ihr : printFrom r = writeFrom tr) :
    printFrom (joinSql left right l r joinOp) = writeFrom (joinTree joinOp tl tr) := by
  simp [joinSql, hl, hr, printFrom, joinTree, writeFrom, ihl, ihr]

attribute [local simp] generateSql generateFromFragment printQuery printFrom planTree planFrom
  writeQuery writeFrom

/-- What is written for a plan without exchanges is the text of its tree. -/
theorem print_plan {p : LogicalPlan} (h : ReadFree p) :
    printQuery (generateSql p) = writeQuery (planTree p) ∧
      printFrom (generateFromFragment p) = writeFrom (planFrom p) := by
  induction p with
  | scan => exact ⟨rfl, rfl⟩
  | exchangeRead => cases h
  | filter input predicate ih =>
    have from' := (ih h).2
    have stripped := (not_exchange (p := input) h).2
    simp [filterSql, stripped, selectAll, allOf, from']
  | project input items ih =>
    have from' := (ih h).2
    have stripped := (not_exchange (p := input) h).2
    simp [projectSql, stripped, from']
  | aggregate input groupBy items having keys ih =>
    have from' := (ih h).2
    have stripped := (not_exchange (p := input) h).1
    simp [aggregateSql, stripped, grouping, from']
  | sort input orderBy ih =>
    have query := (ih h).1
    have stripped := (not_exchange (p := input) h).1
    simp [sortSql, stripped, query]
  | limit _ _ _ ih | subqueryScan _ _ ih => simp [(ih h).1]
  | window input items keys ih => simp [windowSql, (ih h).2]
  | join left right joinOp _ _ ihl ihr =>
    obtain ⟨hl, hr⟩ := List.append_eq_nil_iff.mp h
    have written := printFrom_join left right joinOp (not_exchange hl).2 (not_exchange hr).2
      (ihl hl).2 (ihr hr).2
    simp [selectAll, allOf, written]
  | setOp left right op quantifier ihl ihr =>
    obtain ⟨hl, hr⟩ := List.append_eq_nil_iff.mp h
    simp [(ihl hl).1, (ihr hr).1]

end Text

end Leibrix.StageText
