import Leibrix.LdpExchange
import Mathlib.Data.UInt
import Mathlib.Data.List.Forall2

/-!
# Plan annotation

The bottom-up pass that labels each node of a logical plan with the
distribution of its output and puts exchanges under the inputs that need them.
-/

set_option autoImplicit false

namespace Leibrix.LdpAnnotate
open SqlAst LdpTypes LdpExchange

/-- When `exchangeBefore` is set, `annotation` holds the distribution after the exchange and
`preExchangeDistribution` the one the node itself produces. -/
inductive AnnotatedPlan where
  | mk (plan : LogicalPlan) (ann : DistributionAnnotation)
      (exchangeBefore : Option Exchange) (preExchangeDistribution : Option Distribution)
      (children : List AnnotatedPlan)

namespace AnnotatedPlan

def plan : AnnotatedPlan → LogicalPlan
  | mk p _ _ _ _ => p

def annotation : AnnotatedPlan → DistributionAnnotation
  | mk _ a _ _ _ => a

def exchangeBefore : AnnotatedPlan → Option Exchange
  | mk _ _ e _ _ => e

def preExchangeDistribution : AnnotatedPlan → Option Distribution
  | mk _ _ _ d _ => d

def children : AnnotatedPlan → List AnnotatedPlan
  | mk _ _ _ _ cs => cs

/-- The distribution the parent sees. -/
abbrev distribution (a : AnnotatedPlan) : Distribution := a.annotation.distribution

def withPlan (a : AnnotatedPlan) (p : LogicalPlan) : AnnotatedPlan :=
  mk p a.annotation a.exchangeBefore a.preExchangeDistribution a.children

end AnnotatedPlan

inductive PlanningError where
  | rejected (reason : RejectReason)
  deriving DecidableEq

def handleJoinExchanges (leftKeys rightKeys : List ColumnRef) (left right : AnnotatedPlan)
    (policy : PlannerPolicy) (targetWorkers : List WorkerId) :
    Except PlanningError (ExchangeDecision × ExchangeDecision) :=
  if leftKeys.isEmpty || rightKeys.isEmpty then
    if right.distribution.isSingleton then .ok (.none, .none)
    else
      match determineExchange right.distribution right.annotation .singleton policy false
          targetWorkers with
      | .reject reason => .error (.rejected reason)
      | decision => .ok (.none, decision)
  else
    match determineJoinExchanges
        ⟨left.annotation, right.annotation, left.distribution, right.distribution,
          leftKeys, rightKeys, policy, targetWorkers⟩ with
    | (.reject reason, _) | (_, .reject reason) => .error (.rejected reason)
    | decisions => .ok decisions

def ExchangeDecision.toExchange : ExchangeDecision → Option Exchange
  | .insert e => some e
  | _ => none

variable (policy : PlannerPolicy)

/-- The exchange under each child of an operator other than a join. -/
def requiredExchanges (targetWorkers : List WorkerId) :
    List AnnotatedPlan → List RequiredDistribution → Except PlanningError (List (Option Exchange))
  | child::children, required::requirements =>
    match determineExchange child.distribution child.annotation required policy false
        targetWorkers with
    | .reject reason => .error (.rejected reason)
    | decision => do
      let rest ← requiredExchanges targetWorkers children requirements
      return ExchangeDecision.toExchange decision :: rest
  | children, _ => .ok (children.map fun _ => none)

def computePostExchangeDistribution (exchange : Exchange) (policy : PlannerPolicy)
    (upstreamWorkers : List WorkerId) : Distribution :=
  match exchange with
  | .gather target => .singleton target
  | .broadcast targets => .replicated targets
  | .hashPartition columnRefs partitions =>
    .hashPartitioned columnRefs
      (if upstreamWorkers.isEmpty then List.replicate partitions.toNat policy.coordinator
        else upstreamWorkers)

variable (child : AnnotatedPlan)

def applyExchange : Option Exchange → AnnotatedPlan
  | none => child
  | some e =>
    .mk child.plan
      { child.annotation with
        distribution := computePostExchangeDistribution e policy child.distribution.workers }
      (some e) (some child.distribution) child.children

@[simp] theorem applyExchange_none : applyExchange policy child none = child := rfl

@[simp] theorem applyExchange_distribution
    (e : Exchange) : (applyExchange policy child (some e)).distribution =
      computePostExchangeDistribution e policy child.distribution.workers := rfl

def applyExchanges (children : List AnnotatedPlan)
    (exchanges : List (Option Exchange)) : List AnnotatedPlan :=
  List.zipWith (applyExchange policy) children exchanges

def estimateGroupCardinality (inputRows : UInt64) (numGroupKeys : Nat) : UInt64 :=
  if numGroupKeys = 0 then 1
  else
    let base := inputRows.toFloat.sqrt.toUInt64
    let factor := numGroupKeys.toFloat.sqrt
    scaled base factor

def aggregateStats (groupKeys : List ColumnRef) (child : DistributionAnnotation) :
    UInt64 × UInt64 :=
  if groupKeys.isEmpty then (1, 100)
  else
    let estimatedGroups := estimateGroupCardinality child.estRows groupKeys.length
    let bytesPerRow := if child.estRows > 0 then child.estBytes / child.estRows else 100
    (estimatedGroups, estimatedGroups * bytesPerRow)

def aggregateDistribution (coordinator : WorkerId) : Distribution → Distribution
  | .singleton w => .singleton w
  | .hashPartitioned refs ws => .hashPartitioned refs ws
  | _ => .singleton coordinator

def joinDistribution (left right : Distribution) : Distribution :=
  match left, right with
  | .replicated _, _ => right
  | _, .replicated _ => left
  | _, _ => left

theorem joinDistribution_eq (l r : Distribution) :
    joinDistribution l r = if l.isReplicated then r else l := by
  cases l <;> cases r <;> rfl

def joinStats (left right : DistributionAnnotation) : UInt64 × UInt64 :=
  let estRows := scaled left.estRows 0.1
  let bytesPerRow :=
    if left.estRows > 0 then (left.estBytes + right.estBytes) / max left.estRows 1 else 100
  (estRows, estRows * bytesPerRow)

def windowDistribution (partitionKeys : List ColumnRef) (child : Distribution) : Distribution :=
  if partitionKeys.isEmpty then child
  else
    match child with
    | .hashPartitioned refs ws =>
      -- matching keys keep the label; so does the fallback that returns the input as it is
      .hashPartitioned refs ws
    | .replicated ws => .hashPartitioned partitionKeys ws
    | other => other

def emptyAnnotation : DistributionAnnotation :=
  ⟨.singleton policy.coordinator, 0, 0, .unknown⟩

variable (metadata : Metadata)

def computeOutputDistribution : LogicalPlan → List AnnotatedPlan → DistributionAnnotation
  | .scan tableName _ _, _ =>
    let stats := metadata.getTableScanStats tableName
    ⟨stats.toDistribution, stats.rows, stats.bytes, stats.statsSource⟩
  | .exchangeRead .., _ => emptyAnnotation policy
  | .filter .., child::_ =>
    ⟨child.distribution, scaled child.annotation.estRows 0.5, scaled child.annotation.estBytes 0.5,
      child.annotation.statsSource⟩
  | .project .., child::_ | .subqueryScan .., child::_ => child.annotation
  | .sort .., child::_ | .limit .., child::_ =>
    { child.annotation with distribution := .singleton policy.coordinator }
  | .aggregate _ _ _ _ groupKeys, child::_ =>
    let (rows, bytes) := aggregateStats groupKeys child.annotation
    ⟨aggregateDistribution policy.coordinator child.distribution, rows, bytes,
      child.annotation.statsSource⟩
  | .join .., left::right::_ =>
    let (rows, bytes) := joinStats left.annotation right.annotation
    ⟨joinDistribution left.distribution right.distribution, rows, bytes,
      combineStatsSources left.annotation.statsSource right.annotation.statsSource⟩
  | .setOp .., first::rest =>
    let all := first::rest
    ⟨first.distribution, (all.map fun c => c.annotation.estRows).sum,
      (all.map fun c => c.annotation.estBytes).sum,
      all.foldl (fun acc c => combineStatsSources acc c.annotation.statsSource) .exact⟩
  | .window _ _ partitionKeys, child::_ =>
    { child.annotation with distribution := windowDistribution partitionKeys child.distribution }
  | .setOp .., [] => { emptyAnnotation policy with statsSource := .exact }
  | _, _ => emptyAnnotation policy

variable (targetWorkers : List WorkerId)

def nodeExchanges (plan : LogicalPlan) (children : List AnnotatedPlan) :
    Except PlanningError (List (Option Exchange)) :=
  match plan, children with
  | .join _ _ _ leftKeys rightKeys, [left, right] => do
    let (leftExchange, rightExchange) ←
      handleJoinExchanges leftKeys rightKeys left right policy targetWorkers
    return [ExchangeDecision.toExchange leftExchange, ExchangeDecision.toExchange rightExchange]
  | plan, children =>
    requiredExchanges policy targetWorkers children (getLogicalPlanRequirements plan)

def annotateNode (plan : LogicalPlan) (children : List AnnotatedPlan) :
    Except PlanningError AnnotatedPlan := do
  let exchanges ← nodeExchanges policy targetWorkers plan children
  let children := applyExchanges policy children exchanges
  return .mk plan (computeOutputDistribution policy metadata plan children) none none children

def annotateRecursive : LogicalPlan → Except PlanningError AnnotatedPlan
  | .scan tableName aliasName factor =>
    annotateNode policy metadata targetWorkers (.scan tableName aliasName factor) []
  | .exchangeRead id name => annotateNode policy metadata targetWorkers (.exchangeRead id name) []
  | .filter input predicate => do
    let child ← annotateRecursive input
    annotateNode policy metadata targetWorkers (.filter input predicate) [child]
  | .project input items => do
    let child ← annotateRecursive input
    annotateNode policy metadata targetWorkers (.project input items) [child]
  | .aggregate input groupBy aggrExprs having groupKeys => do
    let child ← annotateRecursive input
    annotateNode policy metadata targetWorkers
      (.aggregate input groupBy aggrExprs having groupKeys) [child]
  | .sort input orderBy => do
    let child ← annotateRecursive input
    annotateNode policy metadata targetWorkers (.sort input orderBy) [child]
  | .limit input limit offset => do
    let child ← annotateRecursive input
    annotateNode policy metadata targetWorkers (.limit input limit offset) [child]
  | .join left right joinOp leftKeys rightKeys => do
    let leftChild ← annotateRecursive left
    let rightChild ← annotateRecursive right
    annotateNode policy metadata targetWorkers (.join left right joinOp leftKeys rightKeys)
      [leftChild, rightChild]
  | .setOp left right op quantifier => do
    let leftChild ← annotateRecursive left
    let rightChild ← annotateRecursive right
    annotateNode policy metadata targetWorkers (.setOp left right op quantifier)
      [leftChild, rightChild]
  | .window input windowExprs partitionKeys => do
    let child ← annotateRecursive input
    annotateNode policy metadata targetWorkers (.window input windowExprs partitionKeys) [child]
  | .subqueryScan input aliasName => do
    let child ← annotateRecursive input
    annotateNode policy metadata targetWorkers (.subqueryScan input aliasName) [child]

def annotateLogicalPlan (plan : LogicalPlan) (policy : PlannerPolicy) (metadata : Metadata) :
    Except PlanningError AnnotatedPlan :=
  annotateRecursive policy metadata [] plan

section Inversion

variable {policy : PlannerPolicy} {metadata : Metadata} {targetWorkers : List WorkerId}
  {plan : LogicalPlan} {children : List AnnotatedPlan} {a : AnnotatedPlan}

theorem annotateRecursive_inv (h : annotateRecursive policy metadata targetWorkers plan = .ok a) :
    ∃ cs, List.Forall₂
        (fun p c => annotateRecursive policy metadata targetWorkers p = .ok c) plan.children cs ∧
      annotateNode policy metadata targetWorkers plan cs = .ok a := by
  cases plan with
  | scan | exchangeRead => exact ⟨[], .nil, h⟩
  | filter | project | aggregate | sort | limit | window | subqueryScan =>
    obtain ⟨child, hchild, hnode⟩ := bind_eq_ok.mp h
    exact ⟨[child], .cons hchild .nil, hnode⟩
  | join | setOp =>
    obtain ⟨left, hleft, h⟩ := bind_eq_ok.mp h
    obtain ⟨right, hright, hnode⟩ := bind_eq_ok.mp h
    exact ⟨[left, right], .cons hleft (.cons hright .nil), hnode⟩

theorem exists_left_of_forall₂ {α β : Type} {R : α → β → Prop} {as : List α} {bs : List β}
    (h : List.Forall₂ R as bs) {b : β} (hb : b ∈ bs) : ∃ a ∈ as, R a b := by
  induction h with
  | nil => cases hb
  | @cons a' b' as bs hab _ ih =>
    rcases List.mem_cons.mp hb with rfl | hb
    · exact ⟨a', by simp, hab⟩
    · obtain ⟨a, ha, hr⟩ := ih hb
      exact ⟨a, by simp [ha], hr⟩

theorem annotateNode_inv (h : annotateNode policy metadata targetWorkers plan children = .ok a) :
    ∃ exchanges, nodeExchanges policy targetWorkers plan children = .ok exchanges ∧
      a = .mk plan
        (computeOutputDistribution policy metadata plan (applyExchanges policy children exchanges))
        none none (applyExchanges policy children exchanges) := by
  obtain ⟨exchanges, hex, heq⟩ := bind_eq_ok.mp h
  cases heq
  exact ⟨exchanges, hex, rfl⟩

variable {exchanges : List (Option Exchange)}

theorem requiredExchanges_length {requirements : List RequiredDistribution}
    (h : requiredExchanges policy targetWorkers children requirements = .ok exchanges) :
    exchanges.length = children.length := by
  induction children generalizing requirements exchanges with
  | nil =>
    cases h
    rfl
  | cons child children ih =>
    cases requirements with
    | nil =>
      cases h
      simp
    | cons required requirements =>
      simp only [requiredExchanges] at h
      split at h
      · cases h
      · obtain ⟨rest, hrest, heq⟩ := bind_eq_ok.mp h
        cases heq
        simp [ih hrest]

theorem nodeExchanges_length
    (h : nodeExchanges policy targetWorkers plan children = .ok exchanges) :
    exchanges.length = children.length := by
  unfold nodeExchanges at h
  split at h
  · obtain ⟨decisions, -, heq⟩ := bind_eq_ok.mp h
    cases heq
    rfl
  · exact requiredExchanges_length h

@[simp] theorem applyExchange_plan (child : AnnotatedPlan) (e : Option Exchange) :
    (applyExchange policy child e).plan = child.plan := by
  cases e <;> rfl

@[simp] theorem applyExchange_children (child : AnnotatedPlan) (e : Option Exchange) :
    (applyExchange policy child e).children = child.children := by
  cases e <;> rfl

theorem applyExchanges_length (h : exchanges.length = children.length) :
    (applyExchanges policy children exchanges).length = children.length := by
  simp [applyExchanges, h]

end Inversion

end Leibrix.LdpAnnotate
