import Leibrix.LdpCut
import Leibrix.RowSpread

/-!
# Distributed joins

A join runs on the workers of its stage, each over the rows it holds or is sent.
Hash-partitioned rows reach the worker of their key. In one process gathered and broadcast
rows reach every worker of the stage; between workers they reach the targets, and only the
first source worker is asked for them. Whether the local results add up to the join of the
whole inputs depends on the join type and on how the two inputs lie.
-/

set_option autoImplicit false

namespace Leibrix.LdpJoin
open LdpTypes LdpExchange LdpAnnotate LdpCut PlacedJoin RowSpread Multiset

variable {κ : Type}

def byJoinKey (keys refs : List ColumnRef) : Bool := !keys.isEmpty && keysMatch keys refs

def Holders (pm : PartitionMap κ WorkerId) (keys : List ColumnRef) :
    Distribution → κ → Finset WorkerId → Prop
  | .singleton w, _, H => H = {w}
  | .epochPartitioned ws, _, H => ∃ w ∈ ws, H = {w}
  | .hashPartitioned refs ws, k, H =>
    ∃ w ∈ ws, (byJoinKey keys refs → w = pm.worker ws.toFinset k) ∧ H = {w}
  | .replicated ws, _, H => ws ≠ [] ∧ H = ws.toFinset

/-- Who resolves the inputs of a stage: the executor of one process, or the coordinator for
workers that fetch from each other. -/
inductive Runtime where
  | localExchange | distributedExchange
  deriving DecidableEq

/-- The worker of the first ticket of the stage before an exchange. -/
def firstSource (policy : PlannerPolicy) (d : Distribution) : WorkerId :=
  (stageWorkers policy.coordinator d).headD policy.coordinator

def delivered (runtime : Runtime) (pm : PartitionMap κ WorkerId) (S : Finset WorkerId)
    (first : WorkerId) (exchange : Option Exchange) (k : κ) (H : Finset WorkerId) : WorkerId → ℕ :=
  match exchange, runtime with
  | none, _ => copiesOn 1 H
  | some (.hashPartition _ _), _ => fun w => if w = pm.worker S k then H.card else 0
  | some _, .localExchange => copiesOn H.card S
  | some (.gather target), .distributedExchange => copiesOn H.card {target}
  | some (.broadcast targets), .distributedExchange =>
    copiesOn (if first ∈ H then 1 else 0) targets.toFinset

abbrev Held (α : Type) := Multiset (α × Finset WorkerId)

def deliver {α : Type} (runtime : Runtime) (pm : PartitionMap κ WorkerId) (S : Finset WorkerId)
    (first : WorkerId) (exchange : Option Exchange) (key : α → κ) (P : Held α) :
    Placed α WorkerId :=
  P.map fun p => (p.1, delivered runtime pm S first exchange (key p.1) p.2)

def joinStage (policy : PlannerPolicy) (left right : AnnotatedPlan)
    (decisions : ExchangeDecision × ExchangeDecision) : Finset WorkerId :=
  let left := applyExchange policy left (ExchangeDecision.toExchange decisions.1)
  let right := applyExchange policy right (ExchangeDecision.toExchange decisions.2)
  (stageWorkers policy.coordinator (joinDistribution left.distribution right.distribution)).toFinset

variable (κ) in
/-- For every partition map, every pair of inputs that lie as their distributions say and every
join condition that implies equal keys, the local joins add up to the join of the inputs. -/
def JoinCorrect (runtime : Runtime) (policy : PlannerPolicy) (leftKeys rightKeys : List ColumnRef)
    (left right : AnnotatedPlan) (decisions : ExchangeDecision × ExchangeDecision)
    (type : JoinType) : Prop :=
  ∀ (pm : PartitionMap κ WorkerId) (α β : Type) (keyL : α → κ) (keyR : β → κ)
    (on : α → β → Bool), (∀ a b, on a b → keyL a = keyR b) →
    ∀ (P : Held α) (Q : Held β),
      (∀ p ∈ P, Holders pm leftKeys left.distribution (keyL p.1) p.2) →
      (∀ q ∈ Q, Holders pm rightKeys right.distribution (keyR q.1) q.2) →
      let S := joinStage policy left right decisions
      joinOver S on type
        (deliver runtime pm S (firstSource policy left.distribution)
          (ExchangeDecision.toExchange decisions.1) keyL P)
        (deliver runtime pm S (firstSource policy right.distribution)
          (ExchangeDecision.toExchange decisions.2) keyR Q) =
        join on type (P.map Prod.fst) (Q.map Prod.fst)

section Condition

/-- What the planner does about a join's inputs. -/
inductive Movement where
  | stay | gatherRight | broadcastLeft | broadcastRight | shuffle
  deriving DecidableEq

variable (policy : PlannerPolicy) (leftKeys rightKeys : List ColumnRef)
  (left right : DistributionAnnotation)

def satisfied (keys : List ColumnRef) (a : DistributionAnnotation) : Bool :=
  (RequiredDistribution.hashPartitioned keys).isSatisfiedBy a.distribution

def safeBytes (a : DistributionAnnotation) : UInt64 := (a.withSafetyFactor policy.safetyFactor).2

def small (a : DistributionAnnotation) : Bool :=
  policy.canOptimizeToBroadcast (safeBytes policy a) a.statsSource.isExact true

def movement : Movement :=
  if leftKeys.isEmpty || rightKeys.isEmpty then
    if right.distribution.isSingleton then .stay else .gatherRight
  else if right.distribution.isReplicated || (satisfied leftKeys left && satisfied rightKeys right)
  then .stay
  else if small policy left &&
      (!small policy right || decide (safeBytes policy left ≤ safeBytes policy right)) then
    if satisfied leftKeys left then .stay else .broadcastLeft
  else if small policy right then
    if satisfied rightKeys right then .stay else .broadcastRight
  else .shuffle

def resting (keys : List ColumnRef) : Distribution → Spread WorkerId
  | .singleton w => .once false {w}
  | .epochPartitioned ws => .once false ws.toFinset
  | .hashPartitioned refs ws => .once (byJoinKey keys refs) ws.toFinset
  | .replicated ws => .copied 1 ws.toFinset

def sentToAll (S : Finset WorkerId) : Distribution → Spread WorkerId
  | .replicated ws => .copied ws.toFinset.card S
  | d => .copied (if d.workers.isEmpty then 0 else 1) S

def shuffled (S : Finset WorkerId) (keys : List ColumnRef) (a : DistributionAnnotation) :
    Spread WorkerId :=
  if satisfied keys a then resting keys a.distribution
  else .once true (if a.distribution.workers.isEmpty then ∅ else S)

def workersOf (d : Distribution) : Finset WorkerId :=
  (stageWorkers policy.coordinator d).toFinset

/-- The stage's workers and how the two inputs lie on them. -/
def joinLayout (runtime : Runtime) : Finset WorkerId × Spread WorkerId × Spread WorkerId :=
  -- the output follows the left input, or the right one when the left is replicated
  let S := workersOf policy
    (if left.distribution.isReplicated then right.distribution else left.distribution)
  match movement policy leftKeys rightKeys left right with
  | .stay => (S, resting leftKeys left.distribution, resting rightKeys right.distribution)
  | .gatherRight =>
    let S := if left.distribution.isReplicated then {policy.coordinator}
      else workersOf policy left.distribution
    let receivers := match runtime with
      | .localExchange => S
      | .distributedExchange => {policy.coordinator}
    (S, resting leftKeys left.distribution, sentToAll receivers right.distribution)
  | .broadcastLeft =>
    let S := workersOf policy right.distribution
    (S, sentToAll S left.distribution, resting rightKeys right.distribution)
  | .broadcastRight =>
    let S := workersOf policy left.distribution
    (S, resting leftKeys left.distribution, sentToAll S right.distribution)
  | .shuffle => (S, shuffled S leftKeys left, shuffled S rightKeys right)

/-- A broadcast between workers misses rows: there is no target, or another worker than the first
source has some. -/
def misses (targets : List WorkerId) (d : Distribution) : Bool :=
  !d.workers.isEmpty && (targets.isEmpty || decide (d.workers.toFinset.card ≠ 1))

/-- The broadcasts between workers that miss rows of the left and of the right input. -/
def missed (runtime : Runtime) : Bool × Bool :=
  match runtime, movement policy leftKeys rightKeys left right with
  | .distributedExchange, .broadcastLeft =>
    (misses right.distribution.workers left.distribution, false)
  | .distributedExchange, .broadcastRight =>
    (false, misses left.distribution.workers right.distribution)
  | _, _ => (false, false)

def JoinSafe (runtime : Runtime) (type : JoinType) : Prop :=
  let missed := missed policy leftKeys rightKeys left right runtime
  let (S, L, R) := joinLayout policy leftKeys rightKeys left right runtime
  if missed.1 then right.distribution.workers = [] ∧ .leftUnmatched ∉ type.parts
  else if missed.2 then left.distribution.workers = [] ∧ .rightUnmatched ∉ type.parts
  else ∀ p ∈ type.parts, PartCond S L R p

instance (runtime : Runtime) (type : JoinType) :
    Decidable (JoinSafe policy leftKeys rightKeys left right runtime type) :=
  inferInstanceAs (Decidable (if (_ : Bool) then _ ∧ _ else if (_ : Bool) then _ ∧ _
    else ∀ p ∈ type.parts, PartCond _ _ _ p))

end Condition

section Sights

variable (pm : PartitionMap κ WorkerId) (S : Finset WorkerId) (keys : List ColumnRef)

theorem not_replicated_of_unsatisfied {keys : List ColumnRef} {a : DistributionAnnotation}
    (h : ¬satisfied keys a) : a.distribution.isReplicated = false := by
  unfold satisfied at h
  cases hd : a.distribution with
  | replicated ws => simp [hd, RequiredDistribution.isSatisfiedBy] at h
  | _ => rfl

def sightsOf (runtime : Runtime) (first : WorkerId) (d : Distribution)
    (exchange : Option Exchange) : Sights κ WorkerId := fun k =>
  {s | ∃ H, Holders pm keys d k H ∧ s = delivered runtime pm S first exchange k H}

theorem copiesOn_one_singleton (w : WorkerId) : copiesOn 1 {w} = oneAt w := by
  funext v
  simp [copiesOn, oneAt]

attribute [local simp] Holders Spread.sights

theorem sightsOf_resting (runtime : Runtime) (first : WorkerId) (d : Distribution) :
    sightsOf pm S keys runtime first d none = (resting keys d).sights pm := by
  funext k
  ext s
  cases d with
  | singleton w => simp [sightsOf, delivered, resting, copiesOn_one_singleton]
  | epochPartitioned | hashPartitioned =>
    simp only [sightsOf, Holders, delivered, resting, Spread.sights, Set.mem_ofPred_eq,
      List.mem_toFinset, ← exists_and_right, and_assoc]
    rw [exists_comm]
    simp [copiesOn_one_singleton]
  | replicated ws => simp [sightsOf, delivered, resting, and_assoc]

variable {d : Distribution} {k : κ} {H : Finset WorkerId} {α : Type}

theorem holders_singleton (hd : d.isReplicated = false) (h : Holders pm keys d k H) :
    ∃ w ∈ d.workers, H = {w} := by
  cases d with
  | singleton w => exact ⟨w, List.mem_singleton_self w, h⟩
  | epochPartitioned => exact h
  | hashPartitioned =>
    obtain ⟨w, hw, -, rfl⟩ := h
    exact ⟨w, hw, rfl⟩
  | replicated => cases hd

theorem holders_card (hd : d.isReplicated = false) (h : Holders pm keys d k H) : H.card = 1 := by
  obtain ⟨w, -, rfl⟩ := holders_singleton pm keys hd h
  rfl

theorem exists_holders_iff (d : Distribution) (k : κ) :
    (∃ H, Holders pm keys d k H) ↔ d.workers ≠ [] := by
  cases d with
  | singleton w => simp [Distribution.workers]
  | epochPartitioned ws | hashPartitioned _ ws =>
    constructor
    · rintro ⟨_, w, hw, -⟩
      exact List.ne_nil_of_mem hw
    · intro hne
      have mem := pm.worker_mem ws.toFinset k ((List.toFinset_nonempty_iff ws).mpr hne)
      exact ⟨{pm.worker ws.toFinset k}, _, List.mem_toFinset.mp mem, by simp⟩
  | replicated ws => simp [Distribution.workers]

/-- All copies of the rows are sent to the workers of `A`. -/
theorem sightsOf_sentToAll {A : Finset WorkerId} (hA : A.Nonempty) (runtime : Runtime)
    (first : WorkerId) (d : Distribution) {exchange : Option Exchange}
    (all : ∀ k H, Holders pm keys d k H →
      delivered runtime pm S first exchange k H = copiesOn H.card A) :
    sightsOf pm S keys runtime first d exchange = (sentToAll A d).sights pm := by
  funext k
  ext s
  have sent : s ∈ sightsOf pm S keys runtime first d exchange k ↔
      ∃ H, Holders pm keys d k H ∧ s = copiesOn H.card A :=
    exists_congr fun H => and_congr_right fun hH => by rw [all k H hH]
  rw [sent]
  by_cases hd : d.isReplicated
  · obtain ⟨ws, rfl⟩ : ∃ ws, d = .replicated ws := by
      cases d <;> simp [Distribution.isReplicated] at hd ⊢
    simp [sentToAll, hA, and_assoc]
  · have copies : sentToAll A d = .copied (if d.workers.isEmpty then 0 else 1) A := by
      cases d <;> first | rfl | exact absurd rfl hd
    have exists_iff := exists_holders_iff pm keys d k
    rw [copies]
    simp only [Spread.sights, Set.mem_ofPred_eq, hA, true_and]
    constructor
    · rintro ⟨H, hH, rfl⟩
      have hw := exists_iff.mp ⟨H, hH⟩
      simp [holders_card pm keys (by simpa using hd) hH, hw]
    · rintro ⟨hpos, rfl⟩
      have hw : d.workers ≠ [] := by
        intro h0
        simp [h0] at hpos
      obtain ⟨H, hH⟩ := exists_iff.mpr hw
      refine ⟨H, hH, ?_⟩
      simp [holders_card pm keys (by simpa using hd) hH, hw]

theorem sightsOf_shuffled (hS : S.Nonempty) (runtime : Runtime) (first : WorkerId)
    (a : DistributionAnnotation) (partitions : UInt32) :
    sightsOf pm S keys runtime first a.distribution
        (if satisfied keys a then none else some (.hashPartition keys partitions)) =
      (shuffled S keys a).sights pm := by
  unfold shuffled
  split
  · exact sightsOf_resting pm S keys runtime first a.distribution
  · rename_i hsat
    have hd := not_replicated_of_unsatisfied hsat
    funext k
    ext s
    have exists_iff := exists_holders_iff pm keys a.distribution k
    simp only [sightsOf, Spread.sights, Set.mem_ofPred_eq, forall_const]
    constructor
    · rintro ⟨H, hH, rfl⟩
      have hw := exists_iff.mp ⟨H, hH⟩
      refine ⟨_, ?_, rfl, ?_⟩
      · simpa [hw] using pm.worker_mem S k hS
      · funext w
        simp [delivered, oneAt, holders_card pm keys hd hH, hw]
    · rintro ⟨w, hw, hk, rfl⟩
      have hne : a.distribution.workers ≠ [] := by
        intro h0
        simp [h0] at hw
      obtain ⟨H, hH⟩ := exists_iff.mpr hne
      refine ⟨H, hH, ?_⟩
      funext v
      simp [delivered, oneAt, holders_card pm keys hd hH, hk, hne]

theorem exists_held (runtime : Runtime) (first : WorkerId) (key : α → κ) (d : Distribution)
    (exchange : Option Exchange) (P : Placed α WorkerId)
    (hP : Admissible key (sightsOf pm S keys runtime first d exchange) P) :
    ∃ H : Held α, (∀ p ∈ H, Holders pm keys d (key p.1) p.2) ∧
      deliver runtime pm S first exchange key H = P := by
  induction P using Multiset.induction with
  | empty => exact ⟨0, by simp, rfl⟩
  | cons p P ih =>
    obtain ⟨H, hH, hd⟩ := ih fun q hq => hP q (mem_cons_of_mem hq)
    obtain ⟨K, hK, hs⟩ := hP p (mem_cons_self p P)
    refine ⟨(p.1, K) ::ₘ H, ?_, ?_⟩
    · simpa [mem_cons] using ⟨hK, fun a b hab => hH (a, b) hab⟩
    · simp [deliver, ← hs, ← hd]

theorem rows_deliver (runtime : Runtime) (first : WorkerId) (key : α → κ)
    (exchange : Option Exchange) (P : Held α) :
    rows (deliver runtime pm S first exchange key P) = P.map Prod.fst := by
  simp [rows, deliver, map_map]

end Sights

section Broadcasts

variable (policy : PlannerPolicy) {d : Distribution}

theorem workersOf_eq (d : Distribution) :
    workersOf policy d =
      if d.workers.isEmpty then {policy.coordinator} else d.workers.toFinset := by
  unfold workersOf stageWorkers
  cases hws : d.workers with
  | nil => simp
  | cons w ws =>
    have mem : w ∈ ((w::ws).insertionSort (· ≤ ·)).dedup := by simp
    simp only [List.isEmpty_cons, Bool.false_eq_true, if_false]
    rw [if_neg (by simpa using List.ne_nil_of_mem mem)]
    ext v
    simp

theorem workersOf_nonempty (d : Distribution) : (workersOf policy d).Nonempty := by
  rw [workersOf_eq]
  split
  · exact Finset.singleton_nonempty _
  · rename_i h
    exact (List.toFinset_nonempty_iff _).mpr (by simpa using h)

theorem firstSource_mem (h : d.workers ≠ []) : firstSource policy d ∈ d.workers := by
  have mem : firstSource policy d ∈ workersOf policy d := by
    unfold firstSource workersOf
    cases hws : stageWorkers policy.coordinator d with
    | nil =>
      have none := workersOf_nonempty policy d
      simp [workersOf, hws] at none
    | cons w ws => simp
  rw [workersOf_eq, if_neg (by simpa using h)] at mem
  exact List.mem_toFinset.mp mem

variable {targets : List WorkerId} (S : Finset WorkerId) (keys : List ColumnRef)
  (hd : d.isReplicated = false)
include hd

/-- A broadcast that misses nothing sends the rows of one worker to all targets. -/
theorem delivered_broadcast (pm : PartitionMap κ WorkerId) {receiver : Distribution}
    (h : misses receiver.workers d = false) (k : κ) (H : Finset WorkerId)
    (hH : Holders pm keys d k H) :
    delivered .distributedExchange pm S (firstSource policy d)
        (some (.broadcast receiver.workers)) k H =
      copiesOn H.card (workersOf policy receiver) := by
  have hw : d.workers ≠ [] := (exists_holders_iff pm keys d k).mp ⟨H, hH⟩
  obtain ⟨hto, hone⟩ : receiver.workers ≠ [] ∧ d.workers.toFinset.card = 1 := by
    simpa [misses, hw] using h
  obtain ⟨w, hmem, rfl⟩ := holders_singleton pm keys hd hH
  have same : firstSource policy d = w :=
    Finset.card_le_one.mp hone.le _ (List.mem_toFinset.mpr (firstSource_mem policy hw)) _
      (List.mem_toFinset.mpr hmem)
  rw [workersOf_eq, if_neg (by simpa using hto)]
  simp [delivered, same]

/-- A broadcast that misses rows leaves some row unseen. -/
theorem lost_of_misses (h : misses targets d = true) (k : κ) :
    ∃ pm : PartitionMap κ WorkerId, 0 ∈ sightsOf pm S keys .distributedExchange
      (firstSource policy d) d (some (.broadcast targets)) k := by
  obtain ⟨hw, hlost⟩ : d.workers ≠ [] ∧ (targets = [] ∨ d.workers.toFinset.card ≠ 1) := by
    simpa [misses] using h
  obtain ⟨w, hmem, hunseen⟩ : ∃ w ∈ d.workers,
      targets = [] ∨ firstSource policy d ≠ w := by
    have first := firstSource_mem policy hw
    rcases hlost with hlost | hlost
    · exact ⟨_, first, .inl hlost⟩
    · by_contra hall
      push Not at hall
      refine hlost (Finset.card_eq_one.mpr ⟨firstSource policy d, ?_⟩)
      ext v
      simp only [List.mem_toFinset, Finset.mem_singleton]
      exact ⟨fun hv => (hall v hv).2.symm, fun hv => hv ▸ first⟩
  obtain ⟨pm, hpm⟩ := exists_partitionMap (κ := κ) true true (List.mem_toFinset.mpr hmem)
    (List.mem_toFinset.mpr hmem) fun _ => rfl
  have held : Holders pm keys d k {w} := by
    cases d with
    | singleton v => rw [List.mem_singleton.mp hmem]; rfl
    | epochPartitioned ws => exact ⟨w, hmem, rfl⟩
    | hashPartitioned refs ws => exact ⟨w, hmem, fun _ => (hpm k).1 rfl, rfl⟩
    | replicated => cases hd
  refine ⟨pm, {w}, held, ?_⟩
  funext v
  rcases hunseen with rfl | hne
  · simp [delivered, copiesOn]
  · simp [delivered, copiesOn, hne]

end Broadcasts

section Decisions

variable (policy : PlannerPolicy) (leftKeys rightKeys : List ColumnRef)
  (left right : AnnotatedPlan) (decisions : ExchangeDecision × ExchangeDecision)

/-- How the workers of the join stage see the rows of an input after its exchange. -/
def joinSights (runtime : Runtime) (pm : PartitionMap κ WorkerId) (keys : List ColumnRef)
    (input : AnnotatedPlan) (decision : ExchangeDecision) : Sights κ WorkerId :=
  sightsOf pm (joinStage policy left right decisions) keys runtime
    (firstSource policy input.distribution) input.distribution
    (ExchangeDecision.toExchange decision)

theorem joinCorrect_iff_distributes (runtime : Runtime) (type : JoinType) :
    JoinCorrect κ runtime policy leftKeys rightKeys left right decisions type ↔
      ∀ pm : PartitionMap κ WorkerId, JoinDistributes (joinStage policy left right decisions)
        (joinSights policy left right decisions runtime pm leftKeys left decisions.1)
        (joinSights policy left right decisions runtime pm rightKeys right decisions.2) type := by
  constructor
  · intro h pm α β keyL keyR on hon P Q hP hQ
    obtain ⟨P, holdL, rfl⟩ := exists_held pm _ leftKeys runtime _ keyL _ _ P hP
    obtain ⟨Q, holdR, rfl⟩ := exists_held pm _ rightKeys runtime _ keyR _ _ Q hQ
    simpa only [rows_deliver] using h pm α β keyL keyR on hon P Q holdL holdR
  · intro h pm α β keyL keyR on hon P Q hP hQ S
    have admissible := h pm α β keyL keyR on hon
      (deliver runtime pm S (firstSource policy left.distribution)
        (ExchangeDecision.toExchange decisions.1) keyL P)
      (deliver runtime pm S (firstSource policy right.distribution)
        (ExchangeDecision.toExchange decisions.2) keyR Q)
    simp only [rows_deliver] at admissible
    refine admissible ?_ ?_ <;> intro p hp <;> obtain ⟨q, hq, rfl⟩ := mem_map.mp hp
    · exact ⟨q.2, hP q hq, rfl⟩
    · exact ⟨q.2, hQ q hq, rfl⟩

def Movement.exchanges : Movement → Option Exchange × Option Exchange
  | .stay => (none, none)
  | .gatherRight => (none, some (.gather policy.coordinator))
  | .broadcastLeft => (some (.broadcast right.distribution.workers), none)
  | .broadcastRight => (none, some (.broadcast left.distribution.workers))
  | .shuffle =>
    (if satisfied leftKeys left.annotation then none
      else some (.hashPartition leftKeys policy.defaultPartitions),
      if satisfied rightKeys right.annotation then none
      else some (.hashPartition rightKeys policy.defaultPartitions))

theorem satisfied_of_coPartitioned (ctx : JoinExchangeContext) (h : ctx.coPartitioned) :
    ctx.leftSatisfied && ctx.rightSatisfied := by
  unfold JoinExchangeContext.coPartitioned at h
  split at h
  · rename_i refs ws refs' ws' hl hr
    simp only [Bool.and_eq_true] at h
    simp [JoinExchangeContext.leftSatisfied, JoinExchangeContext.rightSatisfied, hl, hr,
      RequiredDistribution.isSatisfiedBy, keysMatch_comm _ refs, keysMatch_comm _ refs', h.1]
  · cases h

theorem determineExchange_gather {d : DistributionAnnotation} {dec : ExchangeDecision}
    (hs : d.distribution.isSingleton = false)
    (h : determineExchange d.distribution d .singleton policy false [] = dec)
    (hr : ∀ reason, dec ≠ .reject reason) : dec = .insert (.gather policy.coordinator) := by
  subst h
  simp only [determineExchange, RequiredDistribution.isSatisfiedBy, hs, Bool.false_eq_true,
    if_false, determineGatherExchange] at hr ⊢
  split
  · rfl
  · rename_i hg
    exact absurd (if_neg hg) (hr _)

theorem determineJoinExchanges_eq (ctx : JoinExchangeContext) (ht : ctx.targetWorkers = [])
    (hr : ∀ reason, (determineJoinExchanges ctx).1 ≠ .reject reason) :
    determineJoinExchanges ctx =
      if ctx.rightActual.isReplicated || (ctx.leftSatisfied && ctx.rightSatisfied) then
        (.none, .none)
      else if ctx.leftCanBroadcast &&
          (!ctx.rightCanBroadcast || decide (ctx.leftBytes ≤ ctx.rightBytes)) then
        (if ctx.leftSatisfied then .none else .insert (.broadcast ctx.rightActual.workers), .none)
      else if ctx.rightCanBroadcast then
        (.none, if ctx.rightSatisfied then .none else .insert (.broadcast ctx.leftActual.workers))
      else
        (if ctx.leftSatisfied then .none
          else .insert (.hashPartition ctx.leftKeys ctx.policy.defaultPartitions),
          if ctx.rightSatisfied then .none
          else .insert (.hashPartition ctx.rightKeys ctx.policy.defaultPartitions)) := by
  unfold determineJoinExchanges at hr ⊢
  by_cases hrep : ctx.rightActual.isReplicated
  · simp [hrep]
  by_cases hsat : ctx.leftSatisfied && ctx.rightSatisfied
  · simp [hrep, hsat]
  have hco : ctx.coPartitioned = false :=
    Bool.eq_false_iff.mpr fun h => hsat (satisfied_of_coPartitioned ctx h)
  simp only [hrep, hco, hsat, Bool.false_eq_true, if_false, Bool.or_self] at hr ⊢
  cases hl : ctx.leftCanBroadcast <;> cases hR : ctx.rightCanBroadcast
  · simp only [hl, hR, JoinExchangeContext.shuffleBoth] at hr ⊢
    split at hr
    · rename_i hshuffle
      simp [hshuffle]
    · exact absurd rfl (hr _)
  · simp [JoinExchangeContext.broadcastRight, ht]
  · simp [JoinExchangeContext.broadcastLeft, ht]
  · by_cases hle : ctx.leftBytes ≤ ctx.rightBytes <;>
      simp [hle, JoinExchangeContext.broadcastLeft, JoinExchangeContext.broadcastRight, ht]

theorem handleJoinExchanges_ok
    (h : handleJoinExchanges leftKeys rightKeys left right policy [] = .ok decisions) :
    (ExchangeDecision.toExchange decisions.1, ExchangeDecision.toExchange decisions.2) =
      (movement policy leftKeys rightKeys left.annotation right.annotation).exchanges policy
        leftKeys rightKeys left right := by
  unfold handleJoinExchanges at h
  unfold movement
  by_cases hkeys : (leftKeys.isEmpty || rightKeys.isEmpty) = true
  · rw [if_pos hkeys] at h ⊢
    by_cases hs : right.annotation.distribution.isSingleton = true
    · rw [if_pos hs] at h ⊢
      cases h
      rfl
    · rw [if_neg hs] at h ⊢
      have gather := determineExchange_gather policy (Bool.eq_false_iff.mpr hs) rfl
      cases hdec : determineExchange right.annotation.distribution right.annotation .singleton
          policy false [] with
      | reject reason => simp [hdec] at h
      | none => simp [hdec] at gather
      | insert e =>
        rw [hdec] at h gather
        cases h
        rw [gather (by simp)]
        rfl
  · rw [if_neg hkeys] at h ⊢
    have eq := determineJoinExchanges_eq
      ⟨left.annotation, right.annotation, left.annotation.distribution,
        right.annotation.distribution, leftKeys, rightKeys, policy, []⟩ rfl
    change _ → _ = ite (right.annotation.distribution.isReplicated ||
      (satisfied leftKeys left.annotation && satisfied rightKeys right.annotation)) _
      (ite (small policy left.annotation && (!small policy right.annotation ||
        decide (safeBytes policy left.annotation ≤ safeBytes policy right.annotation)))
        (ite (satisfied leftKeys left.annotation) _ _, _) (ite (small policy right.annotation)
          (_, ite (satisfied rightKeys right.annotation) _ _)
          (ite (satisfied leftKeys left.annotation) _ _,
            ite (satisfied rightKeys right.annotation) _ _))) at eq
    revert h eq
    generalize determineJoinExchanges _ = dec
    intro h eq
    obtain ⟨d1, d2⟩ := dec
    have ok : (∀ reason, d1 ≠ .reject reason) ∧ decisions = (d1, d2) := by
      cases d1 <;> cases d2 <;> simp at h ⊢ <;> exact h.symm
    obtain ⟨hr, rfl⟩ := ok
    rw [eq hr]
    split_ifs <;> simp [Movement.exchanges, ExchangeDecision.toExchange, *]

theorem workersOf_hashPartitioned (refs : List ColumnRef) (n : UInt32) (d : Distribution) :
    workersOf policy (computePostExchangeDistribution (.hashPartition refs n) policy d.workers) =
      workersOf policy d := by
  simp only [workersOf_eq, computePostExchangeDistribution, Distribution.workers_hashPartitioned]
  generalize d.workers = ws
  cases ws with
  | nil =>
    simp only [List.isEmpty_nil, if_true]
    by_cases hn : n.toNat = 0 <;> simp [hn, List.toFinset_replicate_of_ne_zero]
  | cons w ws => simp

theorem stage_of_movement (m : Movement) :
    let moved := m.exchanges policy leftKeys rightKeys left right
    workersOf policy (joinDistribution (applyExchange policy left moved.1).distribution
        (applyExchange policy right moved.2).distribution) =
      match m with
      | .broadcastLeft => workersOf policy right.distribution
      | .broadcastRight => workersOf policy left.distribution
      | .gatherRight =>
        if left.distribution.isReplicated then {policy.coordinator}
        else workersOf policy left.distribution
      | _ => workersOf policy
        (if left.distribution.isReplicated then right.distribution else left.distribution) := by
  cases m with
  | stay => simp [Movement.exchanges, joinDistribution_eq]
  | broadcastLeft => rfl
  | gatherRight | broadcastRight =>
    simp only [Movement.exchanges, joinDistribution_eq, applyExchange_none,
      applyExchange_distribution, computePostExchangeDistribution]
    split
    · simp [workersOf_eq]
    · rfl
  | shuffle =>
    -- a side that moves keeps its workers, and a replicated side does not move
    have workers_post : ∀ (a : AnnotatedPlan) (keys : List ColumnRef),
        workersOf policy (applyExchange policy a (if satisfied keys a.annotation then none
          else some (.hashPartition keys policy.defaultPartitions))).distribution =
          workersOf policy a.distribution := by
      intro a keys
      split
      · rfl
      · exact workersOf_hashPartitioned policy keys _ a.distribution
    have replicated_post : (applyExchange policy left
          (if satisfied leftKeys left.annotation then none
          else some (.hashPartition leftKeys policy.defaultPartitions))).distribution.isReplicated =
          left.distribution.isReplicated := by
      split
      · rfl
      · rename_i hsat
        exact (not_replicated_of_unsatisfied hsat).symm
    simp only [Movement.exchanges, joinDistribution_eq, replicated_post]
    split <;> exact workers_post _ _

theorem not_replicated_of_movement (left right : DistributionAnnotation) :
    (movement policy leftKeys rightKeys left right = .broadcastLeft →
      left.distribution.isReplicated = false) ∧
    (movement policy leftKeys rightKeys left right = .broadcastRight →
      right.distribution.isReplicated = false) := by
  unfold movement
  split_ifs with _ _ hstay _ hleft _ hright
  all_goals simp
  · exact not_replicated_of_unsatisfied hleft
  · exact not_replicated_of_unsatisfied hright

/-- Where no broadcast misses rows, the workers see the inputs as they lie in the layout. -/
theorem joinLayout_eq (runtime : Runtime)
    (h : handleJoinExchanges leftKeys rightKeys left right policy [] = .ok decisions)
    (hmissed : missed policy leftKeys rightKeys left.annotation right.annotation runtime =
      (false, false)) :
    let layout := joinLayout policy leftKeys rightKeys left.annotation right.annotation runtime
    joinStage policy left right decisions = layout.1 ∧ ∀ pm : PartitionMap κ WorkerId,
      joinSights policy left right decisions runtime pm leftKeys left decisions.1 =
        layout.2.1.sights pm ∧
      joinSights policy left right decisions runtime pm rightKeys right decisions.2 =
        layout.2.2.sights pm := by
  have ok := handleJoinExchanges_ok policy leftKeys rightKeys left right decisions h
  have left_eq : ExchangeDecision.toExchange decisions.1 = _ := congrArg Prod.fst ok
  have right_eq : ExchangeDecision.toExchange decisions.2 = _ := congrArg Prod.snd ok
  have stage := stage_of_movement policy leftKeys rightKeys left right
    (movement policy leftKeys rightKeys left.annotation right.annotation)
  simp only [← left_eq, ← right_eq] at stage
  have nonempty := workersOf_nonempty policy
  have single := not_replicated_of_movement policy leftKeys rightKeys left.annotation
    right.annotation
  simp only [joinSights, show joinStage policy left right decisions = _ from stage, left_eq,
    right_eq, joinLayout]
  unfold missed at hmissed
  cases hm : movement policy leftKeys rightKeys left.annotation right.annotation with
  | stay => exact ⟨rfl, fun pm => ⟨sightsOf_resting pm _ _ _ _ _, sightsOf_resting pm _ _ _ _ _⟩⟩
  | gatherRight =>
    have gathered : (if left.distribution.isReplicated then {policy.coordinator}
        else workersOf policy left.distribution).Nonempty := by
      split
      · exact Finset.singleton_nonempty _
      · exact nonempty _
    refine ⟨rfl, fun pm => ⟨sightsOf_resting pm _ _ _ _ _, ?_⟩⟩
    cases runtime with
    | localExchange => exact sightsOf_sentToAll pm _ _ gathered _ _ _ fun _ _ _ => rfl
    | distributedExchange =>
      exact sightsOf_sentToAll pm _ _ (Finset.singleton_nonempty _) _ _ _ fun _ _ _ => rfl
  | broadcastLeft =>
    refine ⟨rfl, fun pm => ⟨?_, sightsOf_resting pm _ _ _ _ _⟩⟩
    refine sightsOf_sentToAll pm _ _ (nonempty _) _ _ _ ?_
    cases runtime with
    | localExchange => exact fun _ _ _ => rfl
    | distributedExchange =>
      rw [hm] at hmissed
      exact delivered_broadcast policy _ _ (single.1 hm) pm (congrArg Prod.fst hmissed)
  | broadcastRight =>
    refine ⟨rfl, fun pm => ⟨sightsOf_resting pm _ _ _ _ _, ?_⟩⟩
    refine sightsOf_sentToAll pm _ _ (nonempty _) _ _ _ ?_
    cases runtime with
    | localExchange => exact fun _ _ _ => rfl
    | distributedExchange =>
      rw [hm] at hmissed
      exact delivered_broadcast policy _ _ (single.2 hm) pm (congrArg Prod.snd hmissed)
  | shuffle =>
    exact ⟨rfl, fun pm => ⟨sightsOf_shuffled pm _ _ (nonempty _) _ _ _ _,
      sightsOf_shuffled pm _ _ (nonempty _) _ _ _ _⟩⟩

theorem sightsOf_nonempty_iff (runtime : Runtime) (pm : PartitionMap κ WorkerId)
    (keys : List ColumnRef) (input : AnnotatedPlan) (decision : ExchangeDecision) (k : κ) :
    (joinSights policy left right decisions runtime pm keys input decision k).Nonempty ↔
      input.distribution.workers ≠ [] := by
  rw [← exists_holders_iff pm keys input.distribution k]
  constructor
  · rintro ⟨s, H, hH, -⟩
    exact ⟨H, hH⟩
  · rintro ⟨H, hH⟩
    exact ⟨_, H, hH, rfl⟩

/-- With a row lost on one side, the join is right only if the other side has no workers. -/
theorem distributes_of_lost {S : Finset WorkerId}
    {sL sR : PartitionMap κ WorkerId → Sights κ WorkerId} {k : κ} (lost : ∃ pm, 0 ∈ sL pm k)
    {workers : List WorkerId} (hR : ∀ pm k, (sR pm k).Nonempty ↔ workers ≠ []) (type : JoinType) :
    (∀ pm, JoinDistributes S (sL pm) (sR pm) type) ↔
      workers = [] ∧ .leftUnmatched ∉ type.parts := by
  have vacant (pm : PartitionMap κ WorkerId) : workers = [] → ∀ k, sR pm k = ∅ := by
    intro h k
    rw [← Set.not_nonempty_iff_eq_empty, hR]
    exact not_not.mpr h
  obtain ⟨pm, hs⟩ := lost
  constructor
  · intro h
    have either : (sR pm k).Nonempty ∨ ∀ k, sR pm k = ∅ := by
      by_cases hw : workers = []
      · exact .inr (vacant pm hw)
      · exact .inl ((hR pm k).mpr hw)
    obtain ⟨hempty, hmem⟩ := (joinDistributes_of_lost hs either type).mp (h pm)
    refine ⟨not_not.mp fun hw => ?_, hmem⟩
    exact Set.not_nonempty_iff_eq_empty.mpr (hempty k) ((hR pm k).mpr hw)
  · rintro ⟨hw, hmem⟩ pm
    rw [joinDistributes_iff]
    intro p hp
    refine partSafe_of_vacant (vacant pm hw) ?_
    rintro rfl
    exact hmem hp

theorem missed_cases (left right : DistributionAnnotation) (runtime : Runtime) :
    let m := missed policy leftKeys rightKeys left right runtime
    m = (false, false) ∨
      (m = (true, false) ∧ runtime = .distributedExchange ∧
        movement policy leftKeys rightKeys left right = .broadcastLeft ∧
        misses right.distribution.workers left.distribution = true) ∨
      (m = (false, true) ∧ runtime = .distributedExchange ∧
        movement policy leftKeys rightKeys left right = .broadcastRight ∧
        misses left.distribution.workers right.distribution = true) := by
  unfold missed
  cases runtime with
  | localExchange => exact .inl rfl
  | distributedExchange =>
    cases movement policy leftKeys rightKeys left right with
    | broadcastLeft => cases misses right.distribution.workers left.distribution <;> simp
    | broadcastRight => cases misses left.distribution.workers right.distribution <;> simp
    | stay | gatherRight | shuffle => exact .inl rfl

/-- The local joins of a planned join add up to the join of its inputs, over every partition map,
placement and join condition, exactly when no broadcast misses rows that count and its parts can be
computed on the chosen layout. -/
theorem join_correct_iff [Nonempty κ] (runtime : Runtime) (type : JoinType)
    (h : handleJoinExchanges leftKeys rightKeys left right policy [] = .ok decisions) :
    JoinCorrect κ runtime policy leftKeys rightKeys left right decisions type ↔
      JoinSafe policy leftKeys rightKeys left.annotation right.annotation runtime type := by
  have ok := handleJoinExchanges_ok policy leftKeys rightKeys left right decisions h
  have single := not_replicated_of_movement policy leftKeys rightKeys left.annotation
    right.annotation
  rw [joinCorrect_iff_distributes]
  unfold JoinSafe
  rcases missed_cases policy leftKeys rightKeys left.annotation right.annotation runtime with
    hm | ⟨hm, rfl, hmove, hmisses⟩ | ⟨hm, rfl, hmove, hmisses⟩
  · obtain ⟨stage, sights⟩ :=
      joinLayout_eq (κ := κ) policy leftKeys rightKeys left right decisions runtime h hm
    simp only [sights, hm, Bool.false_eq_true, if_false]
    rw [stage]
    exact joinDistributes_spread_iff _ _ _ type
  · simp only [hm, if_true]
    have sent : ExchangeDecision.toExchange decisions.1 =
        some (.broadcast right.distribution.workers) := by
      rw [hmove] at ok
      exact congrArg Prod.fst ok
    refine distributes_of_lost (k := Classical.arbitrary κ) ?_
      (sightsOf_nonempty_iff policy left right decisions _ · _ right _ ·) type
    simp only [joinSights, sent]
    exact lost_of_misses policy _ _ (single.1 hmove) hmisses _
  · simp only [hm, Bool.false_eq_true, if_false, if_true]
    have sent : ExchangeDecision.toExchange decisions.2 =
        some (.broadcast left.distribution.workers) := by
      rw [hmove] at ok
      exact congrArg Prod.snd ok
    rw [forall_congr' fun pm => joinDistributes_swap type]
    refine (distributes_of_lost (k := Classical.arbitrary κ) ?_
      (sightsOf_nonempty_iff policy left right decisions _ · _ left _ ·) type.swap).trans ?_
    · simp only [joinSights, sent]
      exact lost_of_misses policy _ _ (single.2 hmove) hmisses _
    · rw [mem_parts_swap]
      rfl

end Decisions

/-- The thresholds of the planner's own tests, with `w1` as coordinator. -/
def testPolicy : PlannerPolicy :=
  { broadcastBytesMax := 1000, shuffleBytesMax := 10000, gatherRowsMax := 10000,
    gatherBytesMax := 100000, defaultPartitions := 16, coordinator := "w1", safetyFactor := 2.0 }

def epochInput (tableName : String) (bytes : UInt64) : AnnotatedPlan :=
  .mk (.scan tableName none (.other tableName))
    ⟨.epochPartitioned ["w1", "w2"], 10, bytes, .exact⟩ none none []

def idKey : List ColumnRef := [.unqualified "id"]

def leftBroadcast : ExchangeDecision × ExchangeDecision :=
  (.insert (.broadcast ["w1", "w2"]), .none)

theorem handle_leftBroadcast :
    handleJoinExchanges idKey idKey (epochInput "dim" 100) (epochInput "fact" 5000) testPolicy [] =
      .ok leftBroadcast := by
  decide

/-- An inner join is safe when its left input is broadcast. -/
theorem join_correct_iff_broadcast :
    handleJoinExchanges idKey idKey (epochInput "dim" 100) (epochInput "fact" 5000) testPolicy [] =
      .ok leftBroadcast ∧
    JoinCorrect Unit .localExchange testPolicy idKey idKey (epochInput "dim" 100)
      (epochInput "fact" 5000) leftBroadcast .inner ∧
    ¬JoinCorrect Unit .distributedExchange testPolicy idKey idKey (epochInput "dim" 100)
      (epochInput "fact" 5000) leftBroadcast .inner :=
  ⟨handle_leftBroadcast,
    (join_correct_iff _ _ _ _ _ _ _ .inner handle_leftBroadcast).mpr (by decide),
    fun h => absurd ((join_correct_iff _ _ _ _ _ _ _ .inner handle_leftBroadcast).mp h) (by decide)⟩

/-- A left join puts out an unmatched row of a broadcast left input on every worker. -/
theorem join_incorrect_broadcast :
    handleJoinExchanges idKey idKey (epochInput "dim" 100) (epochInput "fact" 5000) testPolicy [] =
      .ok leftBroadcast ∧
    ¬JoinCorrect Unit .localExchange testPolicy idKey idKey (epochInput "dim" 100)
      (epochInput "fact" 5000) leftBroadcast .left := by
  refine ⟨handle_leftBroadcast, fun h => ?_⟩
  obtain ⟨pm, -⟩ := exists_partitionMap (κ := Unit) false false
    (Finset.mem_singleton_self "w1") (Finset.mem_singleton_self "w1") fun _ => rfl
  have held : ∀ p ∈ ({((), {"w1"})} : Held Unit),
      Holders pm idKey (epochInput "dim" 100).distribution () p.2 := by
    intro p hp
    rw [mem_singleton.mp hp]
    exact ⟨"w1", by simp, rfl⟩
  have eq := h pm Unit Unit (fun _ => ()) (fun _ => ()) (fun _ _ => true) (fun _ _ _ => rfl)
    {((), {"w1"})} 0 held (by simp)
  have stage : joinStage testPolicy (epochInput "dim" 100) (epochInput "fact" 5000) leftBroadcast =
      {"w1", "w2"} := by decide
  have sent (first : WorkerId) : deliver .localExchange pm {"w1", "w2"} first
      (ExchangeDecision.toExchange leftBroadcast.1) (fun _ => ()) {((), {"w1"})} =
        {((), copiesOn 1 {"w1", "w2"})} := rfl
  have nothing (first : WorkerId) : deliver .localExchange pm {"w1", "w2"} first
      (ExchangeDecision.toExchange leftBroadcast.2) (fun _ => ()) (0 : Held Unit) = 0 := rfl
  have twice := congrArg card eq
  simp only [stage, sent, nothing] at twice
  exact absurd twice (by decide)

end Leibrix.LdpJoin
