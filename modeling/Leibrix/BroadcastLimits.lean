import Leibrix.LdpJoin
import Leibrix.LdpLabels

/-!
# Sizes of broadcast join sides

A side of a join is broadcast when its statistics count as exact and its estimated size is
within the limit. Estimates start from the statistics of tables; a filter takes half of
them, a join a tenth, an aggregate a power of the row count or 100 bytes, and all of them go
on to count as exact. A side without filters, joins, windows and keyed aggregates has true
bounds, if its projections do not enlarge rows and its other aggregates fit into 100 bytes.
-/

set_option autoImplicit false

namespace Leibrix.BroadcastLimits
open SqlAst LdpTypes LdpExchange LdpAnnotate LdpCutCorrect LdpJoin LdpRun LdpLabels List

variable {ρ κ : Type}

section Sizes

variable (size : ρ → ℕ)

def bytes (B : Multiset ρ) : ℕ := (B.map size).sum

theorem bytes_filterMap_le {g : ρ → Option ρ} (h : ∀ x y, g x = some y → size y ≤ size x)
    (B : Multiset ρ) : bytes size (B.filterMap g) ≤ bytes size B := by
  induction B using Multiset.induction_on with
  | empty => exact Nat.le_refl 0
  | cons x B ih =>
    simp only [bytes, Multiset.map_cons, Multiset.sum_cons] at ih ⊢
    cases hx : g x with
    | none =>
      rw [Multiset.filterMap_cons_none _ _ hx]
      omega
    | some y =>
      rw [Multiset.filterMap_cons_some _ _ _ hx, Multiset.map_cons, Multiset.sum_cons]
      have := h x y hx
      omega

/-- Operators that only pass rows on make them no bigger. -/
structure Thrifty (e : Engine ρ κ) : Prop where
  scan : ∀ tableName aliasName factor x y, e.scan tableName aliasName factor x = some y →
    size y ≤ size x
  rename : ∀ aliasName x, size (e.rename aliasName x) ≤ size x
  limit : ∀ input limit offset T B, bytes size (e.limit input limit offset T B) ≤ bytes size B
  setOp : ∀ op quantifier L R,
    bytes size (e.setOp op quantifier L R) ≤ bytes size L + bytes size R

/-- The data set has the statistics of the catalog, and they are exact. -/
def Matching (metadata : Metadata) (T : Tables ρ) : Prop :=
  ∀ t, (metadata.getTableScanStats t).statsSource = .exact ∧
    (T t).card = (metadata.getTableScanStats t).rows.toNat ∧
    bytes size (T t) = (metadata.getTableScanStats t).bytes.toNat

/-- The true size of a node's output is within its estimate. -/
def Bounded (e : Engine ρ κ) (T : Tables ρ) (a : AnnotatedPlan) : Prop :=
  bytes size (eval e T a.plan) ≤ a.annotation.estBytes.toNat

/-- The bytes of the tables below a plan, with 100 bytes for each aggregate. -/
def baseBytes (metadata : Metadata) : LogicalPlan → ℕ
  | .scan tableName _ _ => (metadata.getTableScanStats tableName).bytes.toNat
  | .exchangeRead .. => 0
  | .aggregate .. => 100
  | .filter input _ | .project input _ | .sort input _ | .limit input _ _ | .window input _ _
  | .subqueryScan input _ => baseBytes metadata input
  | .join left right _ _ _ | .setOp left right _ _ =>
    baseBytes metadata left + baseBytes metadata right

/-- No operator of the plan has a guessed estimate that the data can exceed. -/
def Unguessed (metadata : Metadata) (e : Engine ρ κ) : LogicalPlan → Prop
  | .scan .. | .exchangeRead .. => True
  | .sort input _ | .limit input _ _ | .subqueryScan input _ => Unguessed metadata e input
  | .project input items =>
    (∀ T x, size (e.project items T x) ≤ size x) ∧ Unguessed metadata e input
  | .aggregate input groupBy aggrExprs having groupKeys =>
    (groupKeys = [] ∧ ∀ T B, bytes size (e.aggregate groupBy aggrExprs having T B) ≤ 100) ∧
      Unguessed metadata e input
  | .setOp left right _ _ =>
    baseBytes metadata left + baseBytes metadata right < 2 ^ 64 ∧
      Unguessed metadata e left ∧ Unguessed metadata e right
  | .filter .. | .join .. | .window .. => False

end Sizes

variable {policy : PlannerPolicy} {metadata : Metadata}

section Estimates

variable {a b c : AnnotatedPlan} {S : Finset WorkerId}

theorem estBytes_planned (h : Planned policy metadata b) : b.annotation.estBytes =
    (computeOutputDistribution policy metadata b.plan b.children).estBytes := by
  obtain ⟨q, a, e, ha, rfl⟩ := h
  obtain ⟨cs, -, hnode⟩ := annotateRecursive_inv ha
  obtain ⟨exchanges, -, rfl⟩ := annotateNode_inv hnode
  cases e <;> rfl

variable {size : ρ → ℕ} {e : Engine ρ κ} {T : Tables ρ}

/-- Without guesses the true size is within the bytes of the tables. -/
theorem bytes_le_baseBytes (thrifty : Thrifty size e) (matching : Matching size metadata T)
    {p : LogicalPlan} (h : Unguessed size metadata e p) :
    bytes size (eval e T p) ≤ baseBytes metadata p := by
  induction p using LogicalPlan.induction_on_children with
  | h p ih =>
    rw [eval_eq]
    cases p with
    | scan tableName aliasName factor =>
      calc bytes size ((T tableName).filterMap (e.scan tableName aliasName factor))
          ≤ bytes size (T tableName) :=
            bytes_filterMap_le size (thrifty.scan tableName aliasName factor) _
        _ = _ := (matching tableName).2.2
    | exchangeRead => exact Nat.zero_le _
    | filter | join | window => exact h.elim
    | sort input =>
      exact (bytes_filterMap_le size (fun x y hy => by cases hy; exact Nat.le_refl _) _).trans
        (ih input mem_cons_self h)
    | limit input limit offset =>
      exact (thrifty.limit _ limit offset T _).trans (ih input mem_cons_self h)
    | subqueryScan input aliasName =>
      exact (bytes_filterMap_le size (fun x y hy => by cases hy; exact thrifty.rename aliasName x)
        _).trans (ih input mem_cons_self h)
    | project input items =>
      exact (bytes_filterMap_le size (fun x y hy => by cases hy; exact h.1 T x) _).trans
        (ih input mem_cons_self h.2)
    | aggregate input groupBy aggrExprs having groupKeys => exact h.1.2 T _
    | setOp left right op quantifier =>
      have hleft := ih left mem_cons_self h.2.1
      have hright := ih right (mem_cons_of_mem _ mem_cons_self) h.2.2
      have both : bytes size (setOpRows e op quantifier (eval e T left) (eval e T right)) ≤
          bytes size (eval e T left) + bytes size (eval e T right) := by
        unfold setOpRows
        split
        · simp [bytes]
        · exact thrifty.setOp _ _ _ _
      exact both.trans (Nat.add_le_add hleft hright)

/-- Without guesses the planner's estimate is the bytes of the tables. -/
theorem estBytes_eq_baseBytes (h : Planned policy metadata b)
    (hp : Unguessed size metadata e b.plan) :
    b.annotation.estBytes.toNat = baseBytes metadata b.plan := by
  generalize hq : b.plan = q at hp
  induction q using LogicalPlan.induction_on_children generalizing b with
  | h q ih =>
    obtain ⟨plans, planned⟩ := h.children
    have below {c : AnnotatedPlan} (hc : c ∈ b.children) (hu : Unguessed size metadata e c.plan) :
        c.annotation.estBytes.toNat = baseBytes metadata c.plan := by
      refine ih c.plan ?_ (planned c hc) rfl hu
      rw [← hq, plans]
      exact mem_map_of_mem hc
    rw [estBytes_planned h, hq]
    rw [hq] at plans
    generalize b.children = cs at plans below
    cases q with
    | scan | exchangeRead => rw [map_eq_nil_iff.mp plans.symm]; rfl
    | filter | join | window => exact hp.elim
    | sort | limit | subqueryScan =>
      obtain ⟨c, rfl, rfl⟩ := map_eq_singleton_iff.mp plans.symm
      exact below (mem_singleton_self c) hp
    | project =>
      obtain ⟨c, rfl, rfl⟩ := map_eq_singleton_iff.mp plans.symm
      exact below (mem_singleton_self c) hp.2
    | aggregate _ _ _ _ groupKeys =>
      obtain ⟨c, rfl, rfl⟩ := map_eq_singleton_iff.mp plans.symm
      obtain ⟨⟨rfl, -⟩, -⟩ := hp
      rfl
    | setOp _ _ op quantifier =>
      obtain ⟨l, rest, rfl, rfl, hrest⟩ := map_eq_cons_iff.mp plans.symm
      obtain ⟨r, rfl, rfl⟩ := map_eq_singleton_iff.mp hrest
      obtain ⟨room, hl, hr⟩ := hp
      have left := below mem_cons_self hl
      have right := below (mem_cons_of_mem _ mem_cons_self) hr
      have sum : ([l, r].map fun c : AnnotatedPlan => c.annotation.estBytes).sum =
          l.annotation.estBytes + r.annotation.estBytes := by simp
      change ([l, r].map fun c : AnnotatedPlan => c.annotation.estBytes).sum.toNat = _
      rw [sum, UInt64.toNat_add, left, right]
      exact Nat.mod_eq_of_lt room

theorem unguessed_child {p c : LogicalPlan} (h : Unguessed size metadata e p)
    (hc : c ∈ p.children) : Unguessed size metadata e c := by
  cases p with
  | scan | exchangeRead => cases hc
  | filter | join | window => exact h.elim
  | sort | limit | subqueryScan => exact mem_singleton.mp hc ▸ h
  | project | aggregate => exact mem_singleton.mp hc ▸ h.2
  | setOp left right =>
    rcases mem_cons.mp hc with rfl | hc
    · exact h.2.1
    · exact mem_singleton.mp hc ▸ h.2.2

theorem bounded_of_unguessed (thrifty : Thrifty size e) (matching : Matching size metadata T)
    (h : Planned policy metadata b) (hp : Unguessed size metadata e b.plan)
    (hc : Occurs policy b S c) : Bounded size e T c := by
  have inner : Planned policy metadata c ∧ Unguessed size metadata e c.plan := by
    induction hc with
    | root => exact ⟨h, hp⟩
    | child _ hx ih =>
      obtain ⟨plans, planned⟩ := ih.1.children
      exact ⟨planned _ hx, unguessed_child ih.2 (plans ▸ mem_map_of_mem hx)⟩
  rw [Bounded, estBytes_eq_baseBytes inner.1 inner.2]
  exact bytes_le_baseBytes thrifty matching inner.2

end Estimates

section Decisions

variable {p : LogicalPlan} {a b d : AnnotatedPlan} {children : List AnnotatedPlan}
  {exchanges : List (Option Exchange)} {S : Finset WorkerId} {ws : List WorkerId}

theorem determineExchange_ne_broadcast (actual : Distribution) (ann : DistributionAnnotation)
    (required : RequiredDistribution) (targetWorkers : List WorkerId) :
    ExchangeDecision.toExchange (determineExchange actual ann required policy false
      targetWorkers) ≠ some (.broadcast ws) := by
  unfold determineExchange determineGatherExchange determineHashOrBroadcastExchange
  cases required <;> simp only [PlannerPolicy.canOptimizeToBroadcast, Bool.false_and] <;>
    split_ifs <;> simp [ExchangeDecision.toExchange] at *

theorem requiredExchanges_ne_broadcast {requirements : List RequiredDistribution}
    (h : requiredExchanges policy [] children requirements = .ok exchanges) :
    some (.broadcast ws) ∉ exchanges := by
  induction children generalizing requirements exchanges with
  | nil =>
    cases h
    simp
  | cons child children ih =>
    cases requirements with
    | nil =>
      cases h
      simp
    | cons required requirements =>
      simp only [requiredExchanges] at h
      split at h
      · cases h
      · obtain ⟨rest, hrest, heq⟩ := bind_eq_ok.mp h
        cases heq
        intro hmem
        rcases mem_cons.mp hmem with hhere | hmem
        · exact determineExchange_ne_broadcast _ _ _ _ hhere.symm
        · exact ih hrest hmem

theorem small_of_movement (policy : PlannerPolicy) (leftKeys rightKeys : List ColumnRef)
    (left right : DistributionAnnotation) :
    (movement policy leftKeys rightKeys left right = .broadcastLeft → small policy left = true) ∧
    (movement policy leftKeys rightKeys left right = .broadcastRight →
      small policy right = true) := by
  unfold movement
  split_ifs <;> simp_all

/-- A side that is broadcast counts as exact and small. -/
theorem small_of_broadcast (h : nodeExchanges policy [] p children = .ok exchanges) {i : Nat}
    (hchild : children[i]? = some b) (hexchange : exchanges[i]? = some (some (.broadcast ws))) :
    small policy b.annotation = true := by
  unfold nodeExchanges at h
  split at h
  · rename_i leftKeys rightKeys left right
    obtain ⟨decisions, hdecisions, heq⟩ := bind_eq_ok.mp h
    cases heq
    have moved := handleJoinExchanges_ok policy leftKeys rightKeys left right decisions hdecisions
    obtain ⟨hleft, hright⟩ := small_of_movement policy leftKeys rightKeys
      left.annotation right.annotation
    generalize movement policy leftKeys rightKeys left.annotation right.annotation = m at *
    have first := congrArg Prod.fst moved
    have second := congrArg Prod.snd moved
    match i with
    | 0 =>
      cases hchild
      have sent := (Option.some.inj hexchange).symm.trans first
      cases m with
      | broadcastLeft => exact hleft rfl
      | shuffle =>
        simp only [Movement.exchanges] at sent
        split at sent <;> cases sent
      | _ => cases sent
    | 1 =>
      cases hchild
      have sent := (Option.some.inj hexchange).symm.trans second
      cases m with
      | broadcastRight => exact hright rfl
      | shuffle =>
        simp only [Movement.exchanges] at sent
        split at sent <;> cases sent
      | _ => cases sent
    | i + 2 => cases hchild
  · exact absurd (mem_of_getElem? hexchange) (requiredExchanges_ne_broadcast h)

theorem exact_of_broadcast (ha : annotateLogicalPlan p policy metadata = .ok a)
    (hb : Occurs policy a S b) (hex : b.exchangeBefore = some (.broadcast ws)) :
    b.annotation.statsSource.isExact = true ∧
      b.annotation.estBytes ≤ policy.broadcastBytesMax := by
  cases hb with
  | root =>
    rw [(annotateRecursive_plan ha).2] at hex
    cases hex
  | child hparent hchild =>
    obtain ⟨q, x, e, hx, rfl⟩ := hparent.planned ha
    rw [applyExchange_children] at hchild
    obtain ⟨cs, hcs, hnode⟩ := annotateRecursive_inv hx
    obtain ⟨exchanges, hexchanges, rfl⟩ := annotateNode_inv hnode
    obtain ⟨i, hi⟩ := mem_iff_getElem?.mp hchild
    obtain ⟨c, sent, hc, hsent, rfl⟩ : ∃ c sent, cs[i]? = some c ∧ exchanges[i]? = some sent ∧
        applyExchange policy c sent = b := by
      simpa [applyExchanges, getElem?_zipWith_eq_some, AnnotatedPlan.children] using hi
    obtain ⟨q', -, hq'⟩ := exists_left_of_forall₂ hcs (mem_of_getElem? hc)
    cases sent with
    | none =>
      rw [applyExchange_none, (annotateRecursive_plan hq').2] at hex
      cases hex
    | some sent =>
      cases hex
      have small := small_of_broadcast hexchanges hc hsent
      simp only [LdpJoin.small, PlannerPolicy.canOptimizeToBroadcast, Bool.true_and,
        Bool.and_eq_true, decide_eq_true_eq] at small
      obtain ⟨exact, le⟩ := small
      rw [safeBytes, DistributionAnnotation.withSafetyFactor, if_pos exact] at le
      exact ⟨exact, le⟩

end Decisions

section Cases

/-- Rows that are known by their size. An aggregate takes the greatest row. -/
def sizesOnly : Engine ℕ Unit where
  key _ _ := ()
  scan _ _ _ := some
  holds _ _ _ := true
  project _ _ := id
  rename _ := id
  aggregate _ _ _ _ B := {B.fold max 0}
  window _ _ := id
  limit _ _ _ _ := id
  setOp _ _ L R := L + R
  on _ _ _ _ := true
  glue _ _ := 0
  otherJoin _ _ _ _ := 0

theorem thrifty_sizesOnly : Thrifty id sizesOnly where
  scan _ _ _ x y h := by
    cases h
    exact Nat.le_refl _
  rename _ _ := Nat.le_refl _
  limit _ _ _ _ _ := Nat.le_refl _
  setOp _ _ L R := by simp [bytes, sizesOnly]

variable (row : UInt64)

def bigAndSmall : Metadata where
  getTableScanStats t :=
    if t = "big" then ⟨10, 10000000000, ["w1", "w2"], .exact, none⟩
    else ⟨1, row, ["w1"], .exact, none⟩

def rowsOf : Tables ℕ :=
  fun t => if t = "big" then Multiset.replicate 10 1000000000 else {row.toNat}

theorem matching_rowsOf : Matching id (bigAndSmall row) (rowsOf row) := by
  intro t
  unfold bigAndSmall rowsOf
  by_cases h : t = "big" <;> simp [h, bytes]

def scanOf (tableName : String) : LogicalPlan := .scan tableName none (.other tableName)

/-- `SELECT … FROM big JOIN side USING (k)`. -/
def joinWith (side : LogicalPlan) : LogicalPlan :=
  .join (scanOf "big") side (.plain .inner (.using [[.identifier ⟨"k", none⟩]]))
    [.unqualified "k"] [.unqualified "k"]

/-- `SELECT max(k) AS k FROM small`. -/
def greatest : LogicalPlan :=
  .aggregate (scanOf "small") (.expressions [] []) [] none []

def sent (side : LogicalPlan) (rows bytes : UInt64) (children : List AnnotatedPlan) :
    AnnotatedPlan :=
  .mk side ⟨.replicated ["w1", "w2"], rows, bytes, .exact⟩ (some (.broadcast ["w1", "w2"]))
    (some (.singleton "w1")) children

def bigScan : AnnotatedPlan :=
  .mk (scanOf "big") ⟨.epochPartitioned ["w1", "w2"], 10, 10000000000, .exact⟩ none none []

def smallScan : AnnotatedPlan :=
  .mk (scanOf "small") ⟨.singleton "w1", 1, row, .exact⟩ none none []

def joined (side : AnnotatedPlan) : AnnotatedPlan :=
  .mk (joinWith side.plan)
    ⟨.epochPartitioned ["w1", "w2"], (joinStats bigScan.annotation side.annotation).1,
      (joinStats bigScan.annotation side.annotation).2, .exact⟩ none none [bigScan, side]

/-- `SELECT * FROM small UNION ALL SELECT * FROM small`. -/
def twice : LogicalPlan := .setOp (scanOf "small") (scanOf "small") .union .all

end Cases

end Leibrix.BroadcastLimits
