import Leibrix.LdpAnnotate
import Mathlib.Algebra.Order.Floor.Semiring
import Mathlib.Data.Rat.Floor

/-!
# The safety factor of a gather

Uncertain estimates are multiplied by the policy's safety factor before they are compared
with its limits. On the way to a gather this is done twice: when the exchange is chosen and
when the policy checks it. The choice of a gather is written here over any way to multiply.
It is the planner's own for its floating-point product, and is then taken with exact products,
which are rounded down and stop at the largest value that fits.
-/

set_option autoImplicit false

namespace Leibrix.GatherSafety
open SqlAst LdpTypes LdpExchange LdpAnnotate

section Choice

/-- The choice of a gather with estimates that are multiplied by `scale`, once for the decision and
once more where they are compared with the limits. -/
def determineGatherBy (scale : UInt64 → UInt64) (ann : DistributionAnnotation)
    (policy : PlannerPolicy) : ExchangeDecision :=
  let safe (value : UInt64) := if ann.statsSource.isExact then value else scale value
  let rows := safe ann.estRows
  let bytes := safe ann.estBytes
  if safe rows ≤ policy.gatherRowsMax ∧ safe bytes ≤ policy.gatherBytesMax then
    .insert (.gather policy.coordinator)
  else .reject (.gatherTooLarge rows bytes policy.gatherRowsMax policy.gatherBytesMax)

theorem determineExchange_singleton {actual : Distribution} (hspread : actual.isSingleton = false)
    (ann : DistributionAnnotation) (policy : PlannerPolicy) (isJoinContext : Bool)
    (targetWorkers : List WorkerId) :
    determineExchange actual ann .singleton policy isJoinContext targetWorkers =
      determineGatherBy (fun value => scaled value policy.safetyFactor) ann policy := by
  simp only [determineExchange, RequiredDistribution.isSatisfiedBy, hspread, Bool.false_eq_true,
    if_false, determineGatherExchange, PlannerPolicy.canGatherWithSafety, determineGatherBy,
    DistributionAnnotation.withSafetyFactor]
  split_ifs <;> simp_all

end Choice

section Exact

def maxU64 : Nat := 2 ^ 64 - 1

/-- The product with a rational factor, rounded down and cut off at the largest value. -/
def timesFactor (f : ℚ) (value : UInt64) : UInt64 :=
  UInt64.ofNat (min ⌊f * value.toNat⌋₊ maxU64)

def once (f : ℚ) (value : UInt64) : Nat := ⌊f * value.toNat⌋₊

/-- An estimate with the factor applied twice, cut off at the largest value. -/
def twice (f : ℚ) (value : UInt64) : Nat := min ⌊f * once f value⌋₊ maxU64

variable {f : ℚ}

theorem toNat_le_maxU64 (value : UInt64) : value.toNat ≤ maxU64 :=
  Nat.le_sub_one_of_lt value.toNat_lt

theorem toNat_timesFactor (f : ℚ) (value : UInt64) :
    (timesFactor f value).toNat = min (once f value) maxU64 := by
  have small : min ⌊f * value.toNat⌋₊ maxU64 < 2 ^ 64 := by
    have := min_le_right ⌊f * (value.toNat : ℚ)⌋₊ maxU64
    unfold maxU64 at *
    omega
  rw [timesFactor, UInt64.toNat_ofNat_of_lt' small, once]

theorem le_floor_mul (hf : 1 ≤ f) (n : Nat) : n ≤ ⌊f * n⌋₊ :=
  Nat.le_floor (le_mul_of_one_le_left (Nat.cast_nonneg n) hf)

theorem once_le_twice (hf : 1 ≤ f) (value : UInt64) : min (once f value) maxU64 ≤ twice f value :=
  min_le_min_right _ (le_floor_mul hf _)

theorem toNat_timesFactor_twice (hf : 1 ≤ f) (value : UInt64) :
    (timesFactor f (timesFactor f value)).toNat = twice f value := by
  rw [toNat_timesFactor, once, toNat_timesFactor, twice]
  rcases le_total (once f value) maxU64 with fits | large
  · rw [min_eq_left fits]
  · rw [min_eq_right large, min_eq_right (le_floor_mul hf maxU64),
      min_eq_right (large.trans (le_floor_mul hf _))]

/-- Both estimates are within the limits of a gather. -/
def Within (policy : PlannerPolicy) (rows bytes : Nat) : Prop :=
  rows ≤ policy.gatherRowsMax.toNat ∧ bytes ≤ policy.gatherBytesMax.toNat

/-- With exact products, the planner puts a gather on the coordinator over the node. -/
def Accepted (f : ℚ) (policy : PlannerPolicy) (a : AnnotatedPlan) : Prop :=
  determineGatherBy (timesFactor f) a.annotation policy = .insert (.gather policy.coordinator)

variable {policy : PlannerPolicy} {metadata : Metadata} {a : AnnotatedPlan} {tableName : String}
  {aliasName : Option TableAlias} {factor : TableFactor}

theorem annotateLogicalPlan_scan
    (ha : annotateLogicalPlan (.scan tableName aliasName factor) policy metadata = .ok a) :
    a.distribution = (metadata.getTableScanStats tableName).toDistribution ∧
      a.annotation.estRows = (metadata.getTableScanStats tableName).rows ∧
      a.annotation.estBytes = (metadata.getTableScanStats tableName).bytes ∧
      a.annotation.statsSource = (metadata.getTableScanStats tableName).statsSource := by
  cases ha
  exact ⟨rfl, rfl, rfl, rfl⟩

theorem accepted_iff (hf : 1 ≤ f) (huncertain : a.annotation.statsSource.isExact = false) :
    Accepted f policy a ↔
      Within policy (twice f a.annotation.estRows) (twice f a.annotation.estBytes) := by
  rw [Within, ← toNat_timesFactor_twice hf, ← toNat_timesFactor_twice hf,
    ← UInt64.le_iff_toNat_le, ← UInt64.le_iff_toNat_le]
  simp only [Accepted, determineGatherBy, huncertain, Bool.false_eq_true, if_false]
  split_ifs with h <;> simpa using h

/-- The planner's choice is the one here with its floating-point product. With exact products, a
gather over a scan with uncertain statistics is accepted exactly for the estimates that the factor,
applied once, leaves within the limits, if and only if applied twice it does so too, and estimates
that are cut off are not. -/
theorem factor_once_iff (f : ℚ) (hf : 1 ≤ f) (policy : PlannerPolicy) (metadata : Metadata)
    (tableName : String) (aliasName : Option TableAlias) (factor : TableFactor) (a : AnnotatedPlan)
    (isJoinContext : Bool) (targetWorkers : List WorkerId)
    (ha : annotateLogicalPlan (.scan tableName aliasName factor) policy metadata = .ok a)
    (hspread : (metadata.getTableScanStats tableName).toDistribution.isSingleton = false)
    (huncertain : (metadata.getTableScanStats tableName).statsSource.isExact = false) :
    let r := (metadata.getTableScanStats tableName).rows
    let b := (metadata.getTableScanStats tableName).bytes
    (determineExchange a.distribution a.annotation .singleton policy isJoinContext targetWorkers =
        determineGatherBy (fun value => scaled value policy.safetyFactor) a.annotation policy) ∧
      ((Accepted f policy a ↔ Within policy (once f r) (once f b)) ↔
        (Within policy (once f r) (once f b) → Within policy (twice f r) (twice f b)) ∧
        ((once f r ≤ maxU64 ∧ once f b ≤ maxU64) ∨
          ¬ Within policy (twice f r) (twice f b))) := by
  intro r b
  obtain ⟨distribution, estRows, estBytes, source⟩ := annotateLogicalPlan_scan ha
  refine ⟨determineExchange_singleton (distribution ▸ hspread) .., ?_⟩
  have decided : Accepted f policy a ↔ Within policy (twice f r) (twice f b) := by
    rw [accepted_iff hf (source ▸ huncertain), estRows, estBytes]
  have rows := toNat_le_maxU64 policy.gatherRowsMax
  have bytes := toNat_le_maxU64 policy.gatherBytesMax
  have rowsGrow := once_le_twice hf r
  have bytesGrow := once_le_twice hf b
  rw [decided]
  unfold Within
  omega

def uncertainTable : Metadata where
  getTableScanStats _ := ⟨10, 10, ["w1", "w2"], .estimated, none⟩

def limitedTo (limit : UInt64) : PlannerPolicy :=
  { PlannerPolicy.withCoordinator "w1" with gatherRowsMax := limit, gatherBytesMax := limit }

def tableFactor : TableFactor := .table [.identifier ⟨"t", none⟩] none none

def scanned : AnnotatedPlan :=
  .mk (.scan "t" none tableFactor) ⟨uncertainTable.getTableScanStats "t" |>.toDistribution,
    10, 10, .estimated⟩ none none []

theorem factor_once_iff_roomy :
    Accepted 2 (limitedTo 40) scanned ↔ Within (limitedTo 40) (once 2 10) (once 2 10) :=
  (factor_once_iff 2 (by norm_num) (limitedTo 40) uncertainTable "t" none tableFactor
    scanned false [] rfl rfl rfl).2.mpr
    ⟨fun _ => by constructor <;> decide +kernel, .inl (by constructor <;> decide +kernel)⟩

/-- Ten rows that may be twenty are within a limit of thirty, and are rejected. -/
theorem factor_compounded :
    annotateLogicalPlan (.scan "t" none tableFactor) (limitedTo 30) uncertainTable =
        .ok scanned ∧
      Within (limitedTo 30) (once 2 10) (once 2 10) ∧
      determineGatherBy (timesFactor 2) scanned.annotation (limitedTo 30) =
        .reject (.gatherTooLarge 20 20 30 30) := by
  refine ⟨rfl, ?_, ?_⟩
  · constructor <;> decide +kernel
  · decide +kernel

end Exact

end Leibrix.GatherSafety
