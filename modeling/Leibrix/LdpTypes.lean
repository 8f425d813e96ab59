import Leibrix.SqlAst

/-!
# Logical plans and distributions

The relational tree that the planner works on, the column references it reads partitioning
keys from, and the vocabulary of placement: where the rows of a node are, what an operator
asks of its inputs, and the exchanges in between. Row and byte estimates are 64-bit words
that wrap, and the factors applied to them are floating-point numbers.
-/

set_option autoImplicit false

namespace Leibrix.LdpTypes
open SqlAst

abbrev WorkerId := String

structure ColumnRef where
  table : Option String
  column : String
  deriving DecidableEq

namespace ColumnRef

def unqualified (column : String) : ColumnRef := ⟨none, column⟩

def «matches» (c d : ColumnRef) : Bool :=
  let colEq := eqIgnoreAsciiCase c.column d.column
  match c.table, d.table with
  | some a, some b => eqIgnoreAsciiCase a b && colEq
  | _, _ => colEq

theorem matches_comm (c d : ColumnRef) : c.matches d = d.matches c := by
  have comm : ∀ a b, eqIgnoreAsciiCase a b = eqIgnoreAsciiCase b a := fun a b =>
    Bool.eq_iff_iff.mpr ⟨eqIgnoreAsciiCase_symm a b, eqIgnoreAsciiCase_symm b a⟩
  obtain ⟨t, c⟩ := c
  obtain ⟨u, d⟩ := d
  cases t with
  | none => cases u <;> simp [ColumnRef.matches, comm c d]
  | some t => cases u <;> simp [ColumnRef.matches, comm c d, comm t]

end ColumnRef

inductive LogicalPlan where
  | scan (tableName : String) («alias» : Option TableAlias) (tableFactor : TableFactor)
  | filter (input : LogicalPlan) (predicate : Expr)
  | project (input : LogicalPlan) (items : List SelectItem)
  | aggregate (input : LogicalPlan) (groupBy : GroupByExpr) (aggrExprs : List SelectItem)
      (having : Option Expr) (groupKeys : List ColumnRef)
  | sort (input : LogicalPlan) (orderBy : List OrderByExpr)
  | limit (input : LogicalPlan) (limit offset : Option Expr)
  | join (left right : LogicalPlan) (joinOp : JoinOperator) (leftKeys rightKeys : List ColumnRef)
  | setOp (left right : LogicalPlan) (op : SetOperator) (setQuantifier : SetQuantifier)
  | window (input : LogicalPlan) (windowExprs : List SelectItem) (partitionKeys : List ColumnRef)
  | subqueryScan (input : LogicalPlan) («alias» : TableAlias)
  | exchangeRead (exchangeId : Nat) («alias» : String)

def LogicalPlan.children : LogicalPlan → List LogicalPlan
  | .scan .. => []
  | .exchangeRead .. => []
  | .filter input _ | .project input _ | .aggregate input _ _ _ _ | .sort input _ | .limit input _ _
  | .window input _ _ | .subqueryScan input _ => [input]
  | .join left right _ _ _ | .setOp left right _ _ => [left, right]

theorem LogicalPlan.induction_on_children {motive : LogicalPlan → Prop}
    (h : ∀ p : LogicalPlan, (∀ c ∈ p.children, motive c) → motive p) (p : LogicalPlan) :
    motive p := by
  induction p with
  | scan | exchangeRead => exact h _ (by simp [children])
  | filter _ _ ih | project _ _ ih | aggregate _ _ _ _ _ ih | sort _ _ ih | limit _ _ _ ih
  | window _ _ _ ih | subqueryScan _ _ ih => exact h _ (by simpa [children] using ih)
  | join _ _ _ _ _ ihl ihr | setOp _ _ _ _ ihl ihr =>
    exact h _ (by simpa [children] using ⟨ihl, ihr⟩)

inductive StatsSource where
  | exact | estimated | unknown
  deriving DecidableEq

def StatsSource.isExact : StatsSource → Bool
  | .exact => true
  | _ => false

def combineStatsSources : StatsSource → StatsSource → StatsSource
  | .exact, .exact => .exact
  | .unknown, _ | _, .unknown => .unknown
  | _, _ => .estimated

inductive Distribution where
  | singleton (worker : WorkerId)
  | hashPartitioned (columnRefs : List ColumnRef) (workers : List WorkerId)
  | epochPartitioned (workers : List WorkerId)
  | replicated (workers : List WorkerId)
  deriving DecidableEq

namespace Distribution

def workers : Distribution → List WorkerId
  | singleton w => [w]
  | hashPartitioned _ ws | epochPartitioned ws | replicated ws => ws

@[simp] theorem workers_singleton (w : WorkerId) : (singleton w).workers = [w] := rfl

@[simp] theorem workers_hashPartitioned (refs : List ColumnRef) (ws : List WorkerId) :
    (hashPartitioned refs ws).workers = ws := rfl

@[simp] theorem workers_epochPartitioned (ws : List WorkerId) :
    (epochPartitioned ws).workers = ws := rfl

@[simp] theorem workers_replicated (ws : List WorkerId) : (replicated ws).workers = ws := rfl

def isSingleton : Distribution → Bool
  | singleton _ => true
  | _ => false

def isReplicated : Distribution → Bool
  | replicated _ => true
  | _ => false

end Distribution

/-- `(value as f64 * factor) as u64`. -/
def scaled (value : UInt64) (factor : Float) : UInt64 :=
  (value.toFloat * factor).toUInt64

structure DistributionAnnotation where
  distribution : Distribution
  estRows : UInt64
  estBytes : UInt64
  statsSource : StatsSource
  deriving DecidableEq

def DistributionAnnotation.withSafetyFactor (a : DistributionAnnotation) (factor : Float) :
    UInt64 × UInt64 :=
  if a.statsSource.isExact then (a.estRows, a.estBytes)
  else (scaled a.estRows factor, scaled a.estBytes factor)

def keysMatch : List ColumnRef → List ColumnRef → Bool
  | [], [] => true
  | a::as, b::bs => a.matches b && keysMatch as bs
  | _, _ => false

theorem keysMatch_comm (as bs : List ColumnRef) : keysMatch as bs = keysMatch bs as := by
  induction as generalizing bs with
  | nil => cases bs <;> rfl
  | cons a as ih =>
    cases bs with
    | nil => rfl
    | cons b bs => rw [keysMatch, keysMatch, ColumnRef.matches_comm, ih]

inductive RequiredDistribution where
  | any
  | singleton
  | hashPartitioned (columnRefs : List ColumnRef)
  deriving DecidableEq

def RequiredDistribution.isSatisfiedBy : RequiredDistribution → Distribution → Bool
  | .any, _ => true
  | .singleton, actual => actual.isSingleton
  | .hashPartitioned refs, .hashPartitioned actualRefs _ => keysMatch refs actualRefs
  | .hashPartitioned _, .replicated _ => true
  | .hashPartitioned _, _ => false

inductive Exchange where
  | gather (target : WorkerId)
  | broadcast (targets : List WorkerId)
  | hashPartition (columnRefs : List ColumnRef) (partitions : UInt32)
  deriving DecidableEq

structure TableScanStats where
  rows : UInt64
  bytes : UInt64
  workers : List WorkerId
  statsSource : StatsSource
  distribution : Option Distribution
  deriving DecidableEq

def TableScanStats.toDistribution (s : TableScanStats) : Distribution :=
  match s.distribution with
  | some d => d
  | none =>
    match s.workers with
    | [w] => .singleton w
    | ws => .epochPartitioned ws

/-- What the planner asks of the catalog: the statistics of a table's scan. -/
structure Metadata where
  getTableScanStats : String → TableScanStats

structure PlannerPolicy where
  broadcastBytesMax : UInt64
  shuffleBytesMax : UInt64
  gatherRowsMax : UInt64
  gatherBytesMax : UInt64
  defaultPartitions : UInt32
  coordinator : WorkerId
  safetyFactor : Float

namespace PlannerPolicy

def withCoordinator (coordinator : WorkerId) : PlannerPolicy where
  broadcastBytesMax := 256 * 1024 * 1024
  shuffleBytesMax := 2 * 1024 * 1024 * 1024
  gatherRowsMax := 50000000
  gatherBytesMax := 5 * 1024 * 1024 * 1024
  defaultPartitions := 16
  coordinator := coordinator
  safetyFactor := 2.0

variable (policy : PlannerPolicy)

def canOptimizeToBroadcast (estimatedBytes : UInt64) (statsExact isJoinContext : Bool) : Bool :=
  isJoinContext && statsExact && decide (estimatedBytes ≤ policy.broadcastBytesMax)

def canShuffle (estimatedBytes : UInt64) : Bool :=
  decide (estimatedBytes ≤ policy.shuffleBytesMax)

def canGatherWithSafety (estimatedRows estimatedBytes : UInt64) (statsExact : Bool) : Bool :=
  let (rows, bytes) :=
    if statsExact then (estimatedRows, estimatedBytes)
    else (scaled estimatedRows policy.safetyFactor, scaled estimatedBytes policy.safetyFactor)
  decide (rows ≤ policy.gatherRowsMax) && decide (bytes ≤ policy.gatherBytesMax)

end PlannerPolicy

end Leibrix.LdpTypes
