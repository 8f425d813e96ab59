import Leibrix.LdpCutCorrect
import Leibrix.RowSpread

/-!
# Evaluating a plan

The query engine is a parameter: what its operators do to bags of rows, where an
expression may hold subqueries and so may read tables. A plan is evaluated over
whole tables. The stage of a node runs on the workers of its output.
-/

set_option autoImplicit false

namespace Leibrix.LdpRun
open SqlAst LdpTypes LdpAnnotate LdpCut PlacedJoin List

abbrev Tables (ρ : Type) := String → Multiset ρ

/-- What the operators of the query engine do. A limit keeps rows by the order of its input. -/
structure Engine (ρ κ : Type) where
  key : List ColumnRef → ρ → κ
  scan : String → Option TableAlias → TableFactor → ρ → Option ρ
  holds : Expr → Tables ρ → ρ → Bool
  project : List SelectItem → Tables ρ → ρ → ρ
  rename : TableAlias → ρ → ρ
  aggregate : GroupByExpr → List SelectItem → Option Expr → Tables ρ → Multiset ρ → Multiset ρ
  window : List SelectItem → Tables ρ → Multiset ρ → Multiset ρ
  limit : LogicalPlan → Option Expr → Option Expr → Tables ρ → Multiset ρ → Multiset ρ
  setOp : SetOperator → SetQuantifier → Multiset ρ → Multiset ρ → Multiset ρ
  on : JoinOperator → Tables ρ → ρ → ρ → Bool
  glue : JoinOperator → Option ρ × Option ρ → ρ
  otherJoin : JoinOperator → Tables ρ → Multiset ρ → Multiset ρ → Multiset ρ

def joinType : JoinKind → JoinType
  | .join | .inner | .straightJoin => .inner
  | .crossJoin => .cross
  | .left | .leftOuter => .left
  | .right | .rightOuter => .right
  | .fullOuter => .full
  | .semi | .leftSemi => .leftSemi
  | .rightSemi => .rightSemi
  | .anti | .leftAnti => .leftAnti
  | .rightAnti => .rightAnti

variable {ρ κ : Type} (e : Engine ρ κ)

section Operators

variable (T : Tables ρ)

def rowwise : LogicalPlan → Option (ρ → Option ρ)
  | .filter _ predicate => some fun x => if e.holds predicate T x then some x else none
  | .project _ items => some fun x => some (e.project items T x)
  | .subqueryScan _ aliasName => some fun x => some (e.rename aliasName x)
  | .sort _ _ => some some
  | _ => none

def bagwise : LogicalPlan → Option (Multiset ρ → Multiset ρ)
  | .aggregate _ groupBy aggrExprs having _ => some (e.aggregate groupBy aggrExprs having T)
  | .window _ windowExprs _ => some (e.window windowExprs T)
  | .limit input limit offset => some (e.limit input limit offset T)
  | _ => none

def joinRows (op : JoinOperator) (L R : Multiset ρ) : Multiset ρ :=
  match op with
  | .plain kind constraint =>
    (join (e.on (.plain kind constraint) T) (joinType kind) L R).map
      (e.glue (.plain kind constraint))
  | op => e.otherJoin op T L R

def setOpRows (op : SetOperator) (quantifier : SetQuantifier) (L R : Multiset ρ) : Multiset ρ :=
  match op, quantifier with
  | .union, .all => L + R
  | op, quantifier => e.setOp op quantifier L R

/-- What a node does to the bags of its children. -/
def operate (plan : LogicalPlan) : List (Multiset ρ) → Multiset ρ
  | [] =>
    match plan with
    | .scan tableName aliasName factor =>
      (T tableName).filterMap (e.scan tableName aliasName factor)
    | _ => 0
  | [B] =>
    match rowwise e T plan, bagwise e T plan with
    | some g, _ => B.filterMap g
    | none, some op => op B
    | none, none => 0
  | [L, R] =>
    match plan with
    | .join _ _ op _ _ => joinRows e T op L R
    | .setOp _ _ op quantifier => setOpRows e op quantifier L R
    | _ => 0
  | _ => 0

def eval : LogicalPlan → Multiset ρ
  | .scan tableName aliasName factor => operate e T (.scan tableName aliasName factor) []
  | .exchangeRead id name => operate e T (.exchangeRead id name) []
  | .filter input predicate => operate e T (.filter input predicate) [eval input]
  | .project input items => operate e T (.project input items) [eval input]
  | .aggregate input groupBy aggrExprs having groupKeys =>
    operate e T (.aggregate input groupBy aggrExprs having groupKeys) [eval input]
  | .sort input orderBy => operate e T (.sort input orderBy) [eval input]
  | .limit input limit offset => operate e T (.limit input limit offset) [eval input]
  | .window input windowExprs partitionKeys =>
    operate e T (.window input windowExprs partitionKeys) [eval input]
  | .subqueryScan input aliasName => operate e T (.subqueryScan input aliasName) [eval input]
  | .join left right joinOp leftKeys rightKeys =>
    operate e T (.join left right joinOp leftKeys rightKeys) [eval left, eval right]
  | .setOp left right op quantifier =>
    operate e T (.setOp left right op quantifier) [eval left, eval right]

theorem eval_eq (p : LogicalPlan) : eval e T p = operate e T p (p.children.map (eval e T)) := by
  cases p <;> rfl

end Operators

section Stages

variable (coordinator : WorkerId)

/-- The workers of the stage of which a node is the root. -/
def stageSet (a : AnnotatedPlan) : Finset WorkerId :=
  (stageWorkers coordinator <| DistributionAnnotation.distribution <| stageAnnotation a).toFinset

theorem stageSet_nonempty (a : AnnotatedPlan) : (stageSet coordinator a).Nonempty := by
  rw [stageSet, toFinset_nonempty_iff, stageWorkers]
  split
  · exact cons_ne_nil _ _
  · rename_i h
    rwa [List.isEmpty_iff] at h

end Stages

end Leibrix.LdpRun
