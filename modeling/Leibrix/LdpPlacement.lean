import Leibrix.LdpCutCorrect

/-!
# Where the stages run

A stage is placed by the label of its root. The tables that it scans in place have
to be held there: every row of such a table needs a holder among the stage's
workers. Most operators keep the label of their input; a sort, a limit, an
aggregation, a join and a set operation can run on other workers than those that
hold the tables below them.
-/

set_option autoImplicit false

namespace Leibrix.LdpPlacement
open SqlAst LdpTypes LdpExchange LdpAnnotate LdpCut LdpStages LdpCutCorrect LdpCutRule List Option

def holderSets : Distribution → List (List WorkerId)
  | .singleton w => [[w]]
  | .epochPartitioned ws | .hashPartitioned _ ws => ws.map ([·])
  | .replicated ws => if ws.isEmpty then [] else [ws]

/-- Every row has a holder among the workers. -/
def Reaches (workers : List WorkerId) (d : Distribution) : Prop :=
  ∀ H ∈ holderSets d, ∃ w ∈ H, w ∈ workers

instance (workers : List WorkerId) (d : Distribution) : Decidable (Reaches workers d) :=
  inferInstanceAs (Decidable (∀ H ∈ holderSets d, ∃ w ∈ H, w ∈ workers))

def scannedTables : LogicalPlan → List String
  | .scan tableName _ _ => [tableName]
  | .exchangeRead .. => []
  | .filter input _ | .project input _ | .aggregate input _ _ _ _ | .sort input _ | .limit input _ _
  | .window input _ _ | .subqueryScan input _ => scannedTables input
  | .join left right _ _ _ | .setOp left right _ _ => scannedTables left ++ scannedTables right

section

variable (policy : PlannerPolicy) (metadata : Metadata)

def tableDistribution (t : String) : Distribution := (metadata.getTableScanStats t).toDistribution

/-- Every stage runs where the tables it scans are held. -/
def PlacementCovers (plan : LdpPlan) : Prop :=
  ∀ stage ∈ plan.stages, ∀ t ∈ scannedTables stage.plan,
    Reaches stage.targetWorkers (tableDistribution metadata t)

mutual

def inPlace : AnnotatedPlan → List String
  | .mk plan _ _ _ [] => scannedTables plan
  | .mk _ _ _ _ children => inPlaceBelow children

def inPlaceBelow : List AnnotatedPlan → List String
  | [] => []
  | child::rest => (if child.exchangeBefore.isNone then inPlace child else []) ++ inPlaceBelow rest

end

/-- The label after which an operator is placed when it does not keep that of its only input. -/
def newPlace : LogicalPlan → List AnnotatedPlan → Option Distribution
  | .sort .., _ | .limit .., _ => some (.singleton policy.coordinator)
  | .aggregate .., child::_ =>
    if child.distribution.isReplicated then some (.singleton policy.coordinator) else none
  | .join .., left::right::_ =>
    some (if left.distribution.isReplicated then right.distribution else left.distribution)
  | .setOp .., first::_ => some first.distribution
  | _, _ => none

mutual

/-- No operator runs away from the tables that are read in place for it. -/
def steady : AnnotatedPlan → Bool
  | .mk plan _ _ _ children =>
    ((newPlace policy plan children).all fun place => (inPlaceBelow children).all fun t =>
      decide (Reaches (stageWorkers policy.coordinator place) (tableDistribution metadata t))) &&
      allSteady children

def allSteady : List AnnotatedPlan → Bool
  | [] => true
  | child::rest => steady child && allSteady rest

end

end

variable {cs : List AnnotatedPlan}

section Reach

theorem reaches_own (coordinator : WorkerId) (d : Distribution) :
    Reaches (stageWorkers coordinator d) d := by
  have mem : ∀ w ∈ d.workers, w ∈ stageWorkers coordinator d := by
    intro w hw
    have hw' : w ∈ (d.workers.insertionSort (· ≤ ·)).dedup := by simpa using hw
    unfold stageWorkers
    simp only
    rw [if_neg (by simpa using ne_nil_of_mem hw')]
    exact hw'
  intro H hH
  cases d with
  | singleton w =>
    rw [mem_singleton.mp hH]
    exact ⟨w, by simp, mem w (by simp)⟩
  | epochPartitioned ws | hashPartitioned _ ws =>
    obtain ⟨w, hw, rfl⟩ := List.mem_map.mp hH
    exact ⟨w, by simp, mem w hw⟩
  | replicated ws =>
    cases ws with
    | nil => cases hH
    | cons w ws =>
      rw [mem_singleton.mp hH]
      exact ⟨w, by simp, mem w (by simp)⟩

theorem mem_inPlaceBelow {t : String} :
    t ∈ inPlaceBelow cs ↔ ∃ c ∈ cs, c.exchangeBefore = none ∧ t ∈ inPlace c := by
  induction cs with
  | nil => simp [inPlaceBelow]
  | cons c cs ih =>
    simp only [inPlaceBelow, mem_append, ih, mem_cons, exists_eq_or_imp]
    cases c.exchangeBefore <;> simp

theorem inPlace_eq (a : AnnotatedPlan) :
    inPlace a = if a.children = [] then scannedTables a.plan else inPlaceBelow a.children := by
  obtain ⟨p, ann, ex, pre, cs⟩ := a
  cases cs <;> rfl

variable {policy : PlannerPolicy} {metadata : Metadata}

theorem allSteady_iff : allSteady policy metadata cs ↔ ∀ c ∈ cs, steady policy metadata c := by
  induction cs with
  | nil => simp [allSteady]
  | cons c cs ih => simp [allSteady, ih]

theorem steady_iff {a : AnnotatedPlan} : steady policy metadata a ↔
    (∀ place, newPlace policy a.plan a.children = some place → ∀ t ∈ inPlaceBelow a.children,
      Reaches (stageWorkers policy.coordinator place) (tableDistribution metadata t)) ∧
    ∀ c ∈ a.children, steady policy metadata c := by
  obtain ⟨p, ann, ex, pre, cs⟩ := a
  simp only [steady, Bool.and_eq_true, allSteady_iff, AnnotatedPlan.plan, AnnotatedPlan.children]
  refine and_congr_left fun _ => ?_
  cases newPlace policy p cs <;> simp

end Reach

variable {ds : List AnnotatedPlan}

section Labels

variable (policy : PlannerPolicy) (metadata : Metadata)

/-- Every node of the tree, taken as the root of a stage, runs where the tables that are read in
place for it are held. -/
inductive Grounded : AnnotatedPlan → Prop
  | mk {p : LogicalPlan} {ann : DistributionAnnotation} {ex : Option Exchange}
      {pre : Option Distribution} {cs : List AnnotatedPlan} :
    (cs = [] ∨ ∀ t al factor, p ≠ .scan t al factor) →
      (∀ t ∈ inPlace (.mk p ann ex pre cs),
        Reaches (stageWorkers policy.coordinator <|
            DistributionAnnotation.distribution <| stageAnnotation (.mk p ann ex pre cs))
          (tableDistribution metadata t)) →
      (∀ c ∈ cs, Grounded c) → Grounded (.mk p ann ex pre cs)

variable {policy metadata}

variable {a c : AnnotatedPlan} {p : LogicalPlan} {e : Option Exchange}

variable (h : Grounded policy metadata a)
include h

theorem Grounded.reaches :
    ∀ t ∈ inPlace a, Reaches
      (stageWorkers policy.coordinator <| DistributionAnnotation.distribution <| stageAnnotation a)
      (tableDistribution metadata t) := by
  cases h
  assumption

theorem Grounded.child (hc : c ∈ a.children) : Grounded policy metadata c := by
  cases h with
  | mk _ _ hcs => exact hcs c hc

theorem Grounded.scanLeaf : a.children = [] ∨ ∀ t al factor, a.plan ≠ .scan t al factor := by
  cases h
  assumption

omit h

theorem stageWorkers_congr {coordinator : WorkerId} {d d' : Distribution}
    (h : d.workers = d'.workers) : stageWorkers coordinator d = stageWorkers coordinator d' := by
  simp only [stageWorkers, h]

variable {exchanges : List (Option Exchange)}

/-- The exchange under the only input of an operator; without one the requirement is met. -/
theorem requiredExchanges_single {child : AnnotatedPlan} {required : RequiredDistribution}
    {targetWorkers : List WorkerId}
    (h : requiredExchanges policy targetWorkers [child] [required] = .ok exchanges) :
    ∃ e, exchanges = [e] ∧ (e = none → required.isSatisfiedBy child.distribution) := by
  simp only [requiredExchanges] at h
  split at h
  · cases h
  · rename_i hreject
    obtain ⟨rest, hrest, heq⟩ := bind_eq_ok.mp h
    cases hrest
    cases heq
    refine ⟨_, rfl, fun hnone => ?_⟩
    by_contra hsat
    unfold determineExchange at hreject hnone
    rw [if_neg hsat] at hreject hnone
    cases required with
    | any => exact hsat rfl
    | singleton =>
      simp only [determineGatherExchange] at hreject hnone
      split at hnone
      · cases hnone
      · exact hreject _ (by rw [if_neg (by assumption)])
    | hashPartitioned refs =>
      simp only [determineHashOrBroadcastExchange] at hreject hnone
      split at hnone
      · cases hnone
      · split at hnone
        · cases hnone
        · exact hreject _ (by rw [if_neg (by assumption), if_neg (by assumption)])

/-- An operator without a place of its own runs on the workers of its input. -/
theorem label_workers_of_no_place (hp : p.children.length = 1)
    (hplace : newPlace policy p [applyExchange policy c e] = none)
    (hex : nodeExchanges policy [] p [c] = .ok [e]) :
    (computeOutputDistribution policy metadata p [applyExchange policy c e]).distribution.workers =
      (applyExchange policy c e).distribution.workers := by
  cases p with
  | filter | project | subqueryScan => rfl
  | window _ _ partitionKeys =>
    simp only [computeOutputDistribution, windowDistribution]
    split
    · rfl
    · cases (applyExchange policy c e).distribution <;> rfl
  | aggregate _ _ _ _ groupKeys =>
    simp only [computeOutputDistribution]
    cases hd : (applyExchange policy c e).distribution with
    | singleton | hashPartitioned => rfl
    | replicated => simp [newPlace, hd, Distribution.isReplicated] at hplace
    | epochPartitioned ws =>
      -- no exchange leaves an epoch label, and no requirement of an aggregate is met by one
      cases e with
      | some e => cases e <;> simp [computePostExchangeDistribution] at hd
      | none =>
        rw [applyExchange_none] at hd
        simp only [nodeExchanges, getLogicalPlanRequirements] at hex
        split at hex
        all_goals
          obtain ⟨_, heq, sat⟩ := requiredExchanges_single hex
          cases heq
          simp [hd, RequiredDistribution.isSatisfiedBy, Distribution.isSingleton] at sat
  | sort | limit => cases hplace
  | scan | exchangeRead | join | setOp => cases hp

theorem label_eq_place {place : Distribution} (h : newPlace policy p ds = some place) :
    (computeOutputDistribution policy metadata p ds).distribution = place := by
  cases p with
  | sort | limit =>
    cases h
    cases ds <;> rfl
  | aggregate =>
    cases ds with
    | nil => cases h
    | cons d ds =>
      simp only [newPlace] at h
      cases hd : d.distribution <;> simp [hd, Distribution.isReplicated] at h
      simp [computeOutputDistribution, hd, aggregateDistribution, h]
  | join =>
    obtain _ | ⟨l, _ | ⟨r, ds⟩⟩ := ds
    · cases h
    · cases h
    · cases h
      simp only [computeOutputDistribution, joinDistribution]
      cases l.distribution <;> cases r.distribution <;> rfl
  | setOp =>
    cases ds <;> cases h
    rfl
  | _ => cases h

theorem steady_applyExchange :
    steady policy metadata (applyExchange policy c e) ↔ steady policy metadata c := by
  rw [steady_iff, steady_iff, applyExchange_children, applyExchange_plan]

theorem Grounded.applyExchange (h : Grounded policy metadata c)
    (hpre : c.preExchangeDistribution = none) (e : Option Exchange) :
    Grounded policy metadata (applyExchange policy c e) := by
  cases e with
  | none => exact h
  | some e =>
    obtain ⟨p, ann, ex, pre, cs⟩ := c
    cases hpre
    cases h with
    | mk hleaf hreach hcs =>
      refine .mk hleaf ?_ hcs
      rw [inPlace_eq] at hreach ⊢
      exact hreach

theorem annotateRecursive_pre (h : annotateRecursive policy metadata [] p = .ok a) :
    a.preExchangeDistribution = none := by
  obtain ⟨cs, -, hnode⟩ := annotateRecursive_inv h
  obtain ⟨exchanges, -, rfl⟩ := annotateNode_inv hnode
  rfl

theorem Grounded.reaches_in_place
    (h : Grounded policy metadata (LdpAnnotate.applyExchange policy c e))
    (hpre : c.preExchangeDistribution = none)
    (hnone : (LdpAnnotate.applyExchange policy c e).exchangeBefore = none) :
    ∀ t ∈ inPlace (LdpAnnotate.applyExchange policy c e),
      Reaches (stageWorkers policy.coordinator
        (LdpAnnotate.applyExchange policy c e).distribution) (tableDistribution metadata t) := by
  intro t ht
  have reaches := h.reaches t ht
  cases e with
  | some e => cases hnone
  | none =>
    rw [applyExchange_none] at reaches ⊢
    simpa only [ stageAnnotation, hpre] using reaches

theorem single_of_no_place (hshape : p.children.length = cs.length)
    (hlength : exchanges.length = cs.length) (hchildren : cs ≠ [])
    (hnew : newPlace policy p (applyExchanges policy cs exchanges) = none) :
    p.children.length = 1 := by
  cases p with
  | scan | exchangeRead => exact absurd (length_eq_zero_iff.mp hshape.symm) hchildren
  | join | setOp =>
    obtain ⟨l, r, rfl⟩ := length_eq_two.mp hshape.symm
    obtain ⟨e, e', rfl⟩ := length_eq_two.mp hlength
    cases hnew
  | _ => rfl

/-- Labels of a steady plan name workers that hold what is read in place. -/
theorem grounded_of_steady (h : annotateRecursive policy metadata [] p = .ok a)
    (hsteady : steady policy metadata a) : Grounded policy metadata a := by
  induction p using LogicalPlan.induction_on_children generalizing a with
  | h p ih =>
    obtain ⟨cs, hcs, hnode⟩ := annotateRecursive_inv h
    obtain ⟨exchanges, hex, rfl⟩ := annotateNode_inv hnode
    obtain ⟨hplace, hbelow⟩ := steady_iff.mp hsteady
    simp only [AnnotatedPlan.plan, AnnotatedPlan.children] at hplace hbelow
    have grounded : ∀ d ∈ applyExchanges policy cs exchanges, Grounded policy metadata d := by
      intro d hd
      obtain ⟨c, hc, e, rfl⟩ := mem_applyExchanges hd
      obtain ⟨q, hq, hqc⟩ := exists_left_of_forall₂ hcs hc
      exact (ih q hq hqc (steady_applyExchange.mp (hbelow _ hd))).applyExchange
        (annotateRecursive_pre hqc) e
    have hlength := nodeExchanges_length hex
    have hshape : p.children.length = cs.length := hcs.length_eq
    refine .mk ?_ ?_ grounded
    · cases p with
      | scan =>
        obtain rfl := forall₂_nil_left_iff.mp hcs
        exact .inl rfl
      | _ => exact .inr (by simp)
    intro t ht
    simp only [ stageAnnotation, AnnotatedPlan.preExchangeDistribution, AnnotatedPlan.annotation]
    by_cases hleaf : cs = []
    · subst hleaf
      cases p with
      | scan tableName =>
        obtain rfl : t = tableName := by simpa [inPlace, applyExchanges, scannedTables] using ht
        exact reaches_own policy.coordinator (tableDistribution metadata t)
      | exchangeRead => cases ht
      | _ => cases hshape
    have hbelow : t ∈ inPlaceBelow (applyExchanges policy cs exchanges) := by
      rw [inPlace_eq, if_neg] at ht
      · exact ht
      · intro (hnil : applyExchanges policy cs exchanges = [])
        have hsame : (applyExchanges policy cs exchanges).length = cs.length :=
          applyExchanges_length hlength
        rw [hnil] at hsame
        exact hleaf (length_eq_zero_iff.mp hsame.symm)
    cases hnew : newPlace policy p (applyExchanges policy cs exchanges) with
    | some place =>
      rw [label_eq_place hnew]
      exact hplace place hnew t hbelow
    | none =>
      have hone := single_of_no_place hshape hlength hleaf hnew
      obtain ⟨c, rfl⟩ := length_eq_one_iff.mp (hshape.symm.trans hone)
      obtain ⟨e, rfl⟩ := length_eq_one_iff.mp hlength
      obtain ⟨d, hd, hnone, hdt⟩ := mem_inPlaceBelow.mp hbelow
      obtain rfl := mem_singleton.mp hd
      have workers_eq : (computeOutputDistribution policy metadata p
          (applyExchanges policy [c] [e])).distribution.workers =
            (applyExchange policy c e).distribution.workers :=
        label_workers_of_no_place hone hnew hex
      rw [stageWorkers_congr workers_eq]
      obtain ⟨q, -, hqc⟩ := exists_left_of_forall₂ hcs (mem_singleton_self c)
      exact (grounded _ hd).reaches_in_place (annotateRecursive_pre hqc) hnone t hdt

end Labels

section Shrinking

variable (text : SqlText) (columns : List Expr)

/-- A tree with the same labels whose plans scan no new tables. -/
inductive Shrunk : AnnotatedPlan → AnnotatedPlan → Prop
  | mk {p q : LogicalPlan} {ann : DistributionAnnotation} {ex : Option Exchange}
      {pre : Option Distribution} {cs ds : List AnnotatedPlan} :
    scannedTables q ⊆ scannedTables p → (∀ t al factor, q = .scan t al factor → q = p) →
      List.Forall₂ Shrunk cs ds → Shrunk (.mk p ann ex pre cs) (.mk q ann ex pre ds)

theorem Shrunk.exchangeBefore {a b : AnnotatedPlan} (h : Shrunk a b) :
    b.exchangeBefore = a.exchangeBefore := by
  cases h
  rfl

theorem scannedTables_addColumnsToPlan (p : LogicalPlan) :
    scannedTables (addColumnsToPlan text columns p) = scannedTables p := by
  induction p with
  | scan | exchangeRead | join | setOp | project | aggregate =>
    unfold addColumnsToPlan
    split <;> rfl
  | filter _ _ ih | sort _ _ ih | limit _ _ _ ih | window _ _ _ ih | subqueryScan _ _ ih =>
    unfold addColumnsToPlan
    split
    · rfl
    · exact ih

theorem shrunk_node (p : LogicalPlan) {ann : DistributionAnnotation} {ex : Option Exchange}
    {pre : Option Distribution} (hcs : List.Forall₂ Shrunk cs ds) :
    Shrunk (.mk p ann ex pre cs) (.mk (addColumnsToPlan text columns p) ann ex pre ds) := by
  refine .mk ?_ (fun t al factor h => ?_) hcs
  · rw [scannedTables_addColumnsToPlan]
    exact Subset.refl _
  · unfold addColumnsToPlan at h ⊢
    split
    · rfl
    · rename_i hne
      rw [if_neg hne] at h
      cases p <;> cases h

theorem shrunk_widening : LdpReassemble.Widening text columns Shrunk := by
  intro p q ann ex pre cs ds hq hcs
  rcases hq with rfl | hq
  · exact .mk (Subset.refl _) (fun _ _ _ _ => rfl) hcs
  · cases LdpReassemble.addColumnsToPlanSafe_eq text columns hq
    exact shrunk_node text columns p hcs

theorem shrunk_refl (a : AnnotatedPlan) : Shrunk a a :=
  (shrunk_widening ⟨fun _ => "", fun _ => ""⟩ []).refl a

theorem shrunk_addColumns (a : AnnotatedPlan) :
    Shrunk a (a.withPlan (addColumnsToPlan text columns a.plan)) := by
  cases a
  exact shrunk_node text columns _ ((shrunk_widening text columns).refls _)

mutual

theorem inPlace_shrunk : ∀ {a b : AnnotatedPlan}, Shrunk a b → inPlace b ⊆ inPlace a
  | .mk _ _ _ _ [], _, .mk hsub _ .nil => hsub
  | .mk _ _ _ _ (_::_), _, .mk _ _ (.cons hc hcs) => inPlaceBelow_shrunk (.cons hc hcs)

theorem inPlaceBelow_shrunk : ∀ {cs ds : List AnnotatedPlan}, List.Forall₂ Shrunk cs ds →
    inPlaceBelow ds ⊆ inPlaceBelow cs
  | [], _, .nil => Subset.refl _
  | c::cs, d::ds, .cons hc hcs => by
    have first := inPlace_shrunk hc
    have rest := inPlaceBelow_shrunk hcs
    intro t ht
    simp only [inPlaceBelow, hc.exchangeBefore, mem_append] at ht ⊢
    refine ht.imp (fun ht => ?_) fun ht => rest ht
    split at ht
    · rename_i hnone
      rw [if_pos hnone]
      exact first ht
    · cases ht

end

variable {policy : PlannerPolicy} {metadata : Metadata}

mutual

theorem grounded_shrunk : ∀ {a b : AnnotatedPlan}, Shrunk a b → Grounded policy metadata a →
    Grounded policy metadata b
  | .mk p ann ex pre cs, .mk q _ _ _ ds, h, .mk hleaf hreach hcs => by
    have reach := inPlace_shrunk h
    obtain ⟨-, hscan, hds⟩ := h
    refine .mk ?_ (fun t ht => hreach t (reach ht)) (grounded_shrunks hds hcs)
    refine hleaf.imp (fun hnil => ?_) fun hne t al factor hq => ?_
    · subst hnil
      exact forall₂_nil_left_iff.mp hds
    · exact hne t al factor ((hscan t al factor hq).symm.trans hq)

theorem grounded_shrunks : ∀ {cs ds : List AnnotatedPlan}, List.Forall₂ Shrunk cs ds →
    (∀ c ∈ cs, Grounded policy metadata c) → ∀ d ∈ ds, Grounded policy metadata d
  | [], _, .nil, _ => by simp
  | c::cs, d::ds, .cons hc hcs, h => by
    intro x hx
    rcases mem_cons.mp hx with rfl | hx
    · exact grounded_shrunk hc (h c (by simp))
    · exact grounded_shrunks hcs (fun c hc => h c (by simp [hc])) x hx

end

end Shrinking

section Stages

variable (policy : PlannerPolicy) (metadata : Metadata)

/-- Every stage so far has a label that names workers which hold its tables. -/
structure GroundedState (st : CutState) : Prop where
  below : ∀ s ∈ st.stages, s.stageId < st.nextStageId
  labelled : ∀ s ∈ st.stages, ∃ ann, st.stageAnnotations.lookup s.stageId = some ann ∧
    ∀ t ∈ scannedTables s.plan,
      Reaches (stageWorkers policy.coordinator ann.distribution) (tableDistribution metadata t)

def Extracted (c : AnnotatedPlan) (st : CutState) (q : LogicalPlan) (st' : CutState) : Prop :=
  GroundedState policy metadata st → GroundedState policy metadata st' ∧
    ∀ t ∈ scannedTables q, c.exchangeBefore = none ∧ t ∈ inPlace c

variable {policy metadata}

theorem scannedTables_aliased (p q : LogicalPlan) :
    scannedTables (LdpReassemble.aliased p q) = scannedTables q := by
  unfold LdpReassemble.aliased
  split <;> rfl

theorem scannedTables_restoreOutputColumns (p : LogicalPlan) (columns : List Expr)
    (q : LogicalPlan) : scannedTables (restoreOutputColumns p columns q) = scannedTables q := by
  obtain keep | ⟨-, _, items, -, -, -, wrap⟩ := LdpReassemble.restoreOutputColumns_cases p columns
  · rw [keep]
  · rw [wrap]
    rfl

variable {qs : List LogicalPlan} {st : CutState}

theorem scannedTables_reconstruct {p r : LogicalPlan}
    (h : reconstructPlanWithChildren p qs = some r) :
    (∃ t al factor, p = .scan t al factor ∧ r = p) ∨
      ∀ t ∈ scannedTables r, ∃ q ∈ qs, t ∈ scannedTables q := by
  cases p with
  | scan =>
    cases h
    exact .inl ⟨_, _, _, rfl, rfl⟩
  | exchangeRead =>
    cases h
    exact .inr (by simp [scannedTables])
  | filter | project | aggregate | sort | limit | window | subqueryScan =>
    simp only [reconstructPlanWithChildren, bind_eq_bind, bind_eq_some_iff,
      Option.pure_def, Option.some.injEq] at h
    obtain ⟨q, hq, rfl⟩ := h
    exact .inr fun t ht => ⟨q, mem_of_getElem? hq, ht⟩
  | join | setOp =>
    simp only [reconstructPlanWithChildren, bind_eq_bind, bind_eq_some_iff,
      Option.pure_def, Option.some.injEq] at h
    obtain ⟨q, hq, q', hq', rfl⟩ := h
    refine .inr fun t ht => ?_
    rcases mem_append.mp ht with ht | ht
    · exact ⟨q, mem_of_getElem? hq, ht⟩
    · exact ⟨q', mem_of_getElem? hq', ht⟩

variable {q : LogicalPlan}

theorem pushStage_grounded {a : AnnotatedPlan} (pending : List PendingEdge)
    (h : GroundedState policy metadata st) (hq : ∀ t ∈ scannedTables q,
      Reaches
        (stageWorkers policy.coordinator <| DistributionAnnotation.distribution <|
          stageAnnotation a)
        (tableDistribution metadata t)) :
    GroundedState policy metadata (pushStage a q pending st).2 := by
  refine ⟨fun s hs => ?_, fun s hs => ?_⟩
  all_goals
    simp only [pushStage, mem_append, mem_singleton] at hs ⊢
  · rcases hs with hs | rfl
    · exact (h.below s hs).trans (Nat.lt_succ_self _)
    · exact Nat.lt_succ_self _
  · rcases hs with hs | rfl
    · obtain ⟨ann, hlookup, hreach⟩ := h.labelled s hs
      refine ⟨ann, ?_, hreach⟩
      rw [lookup_cons, show (s.stageId == st.nextStageId) = false from
        beq_false_of_ne (h.below s hs).ne]
      exact hlookup
    · exact ⟨ stageAnnotation a, by simp, hq⟩

theorem inPlace_of_reconstruct {b : AnnotatedPlan}
    (hleaf : b.children = [] ∨ ∀ t al factor, b.plan ≠ .scan t al factor)
    (hscan : ∀ q ∈ qs, ∀ t ∈ scannedTables q, t ∈ inPlaceBelow b.children)
    (hq : reconstructPlanWithChildren b.plan qs = some q) :
    ∀ t ∈ scannedTables q, t ∈ inPlace b := by
  intro t ht
  rw [inPlace_eq]
  obtain ⟨_, _, _, hp, rfl⟩ | below := scannedTables_reconstruct hq
  · rw [if_pos (hleaf.resolve_right fun h => h _ _ _ hp)]
    exact ht
  · obtain ⟨q', hq', ht'⟩ := below t ht
    have hin := hscan q' hq' t ht'
    rw [if_neg fun hnil => by simp [hnil, inPlaceBelow] at hin]
    exact hin

variable {st' : CutState}

theorem readExchange_extracted {child : AnnotatedPlan} (kind : Exchange) (k : Nat)
    (h : GroundedState policy metadata st → GroundedState policy metadata st') :
    Extracted policy metadata child st (readExchange child kind k st').1
      (readExchange child kind k st').2.2 := by
  intro hst
  refine ⟨⟨(h hst).below, (h hst).labelled⟩, fun t ht => ?_⟩
  have none_scanned : scannedTables (readExchange child kind k st').1 = [] :=
    scannedTables_aliased child.plan (.exchangeRead _ _)
  rw [none_scanned] at ht
  cases ht

variable (policy metadata) in
def GroundsStage : OnCut := fun b st _ st' =>
  Grounded policy metadata b → GroundedState policy metadata st →
    GroundedState policy metadata st'

variable (policy metadata) in
def GroundsPart : OnPart := fun b st q _ st' =>
  Grounded policy metadata b → GroundedState policy metadata st →
    GroundedState policy metadata st' ∧ ∀ t ∈ scannedTables q, t ∈ inPlace b

theorem grounded_through {stage inner : AnnotatedPlan → AnnotatedPlan} {pending : List PendingEdge}
    (through : Through (Child (GroundsStage policy metadata) (GroundsPart policy metadata) stage
      inner) cs st qs pending st') (hground : ∀ c ∈ cs, Grounded policy metadata c)
    (hstage : ∀ c, Shrunk c (stage c)) (hinner : ∀ c, Shrunk c (inner c))
    (h : GroundedState policy metadata st) :
    (∀ q ∈ qs, ∀ t ∈ scannedTables q, t ∈ inPlaceBelow cs) ∧
      GroundedState policy metadata st' := by
  refine through.keeps (I := fun st _ => GroundedState policy metadata st) (P := []) h ?_
  intro c hc st _ q edges st' child hst
  have extracted : Extracted policy metadata c st q st' := by
    cases child with
    | @exchange kind k st₁ _ _ _ _ hcut hread =>
      have hst₁ := hcut (grounded_shrunk (hstage c) (hground c hc))
      have read : Extracted policy metadata c st _ _ := readExchange_extracted kind k hst₁
      rw [hread] at read
      exact read
    | inner hex hpart =>
      intro hst
      obtain ⟨hst', hin⟩ := hpart (grounded_shrunk (hinner c) (hground c hc)) hst
      exact ⟨hst', fun t ht => ⟨hex, inPlace_shrunk (hinner c) (hin t ht)⟩⟩
  obtain ⟨hst', hin⟩ := extracted hst
  exact ⟨fun t ht => mem_inPlaceBelow.mpr ⟨c, hc, hin t ht⟩, hst'⟩

theorem grounded_rule (text : SqlText) :
    CutRule text (GroundsStage policy metadata) (GroundsPart policy metadata) where
  stage := by
    intro b st st₁ qs q pending through hq hb h
    obtain ⟨hscan, hst₁⟩ := grounded_through through (fun c hc => hb.child hc)
      (fun c => shrunk_addColumns text _ c)
      (fun c => by
        unfold keptChild
        split
        · exact (shrunk_widening text _).toExchangeChildren c
        · exact shrunk_refl c) h
    refine pushStage_grounded pending hst₁ fun t ht => hb.reaches t ?_
    rw [stageOf, scannedTables_restoreOutputColumns] at ht
    exact inPlace_of_reconstruct hb.scanLeaf hscan hq t ht
  leaf := by
    intro b st hleaf _ h
    refine ⟨h, fun t ht => ?_⟩
    rw [inPlace_eq, if_pos hleaf]
    exact ht
  node := by
    intro b st st₁ qs q pending through hq hb h
    obtain ⟨hscan, hst₁⟩ :=
      grounded_through through (fun c hc => hb.child hc) shrunk_refl shrunk_refl h
    exact ⟨hst₁, inPlace_of_reconstruct hb.scanLeaf hscan hq⟩

variable (text : SqlText)

/-- When no operator runs away from the tables that are read in place for it, every stage runs
where the tables it scans are held. -/
theorem placement_covers (p : LogicalPlan) (a : AnnotatedPlan) (plan : LdpPlan)
    (ha : annotateLogicalPlan p policy metadata = .ok a)
    (hcut : cutIntoStages text a policy = some plan) (hsteady : steady policy metadata a) :
    PlacementCovers metadata plan := by
  obtain ⟨k, st, hst, rfl⟩ := cutIntoStages_eq_some.mp hcut
  have grounded := (grounded_rule text).cutRecursive hst (grounded_of_steady ha hsteady)
    ⟨by simp, by simp⟩
  intro stage hstage t ht
  obtain ⟨f, hf, stages_eq⟩ := finish_stages policy.coordinator k st
  rw [stages_eq] at hstage
  obtain ⟨s, hs, rfl⟩ := List.mem_map.mp hstage
  obtain ⟨ann, hlookup, reaches⟩ := grounded.labelled s hs
  obtain ⟨-, hplan, htarget⟩ := hf s
  rw [htarget, assignTargetWorkers, hlookup]
  rw [hplan] at ht
  exact reaches t ht

end Stages

def onSecondWorker : Metadata := ⟨fun _ => ⟨10, 100, ["w2"], .exact, none⟩⟩

/-- Sorting a table that is spread over two workers gathers it. -/
theorem placement_covers_gathered : ∃ plan,
    cutIntoStages identText (annotatedSort (selectA "t") 10 [annotatedScan "t"])
      (.withCoordinator "w1") = some plan ∧ PlacementCovers onTwoWorkers plan :=
  ⟨_, rfl, placement_covers identText (orderByA (selectA "t"))
    (annotatedSort (selectA "t") 10 [annotatedScan "t"]) _ rfl rfl (by decide)⟩

/-- `SELECT a FROM t ORDER BY a` over a table on one worker runs on the coordinator, which does
not hold the table. -/
theorem placement_misses_table : ∃ a plan,
    annotateLogicalPlan (orderByA (selectA "t")) (.withCoordinator "w1") onSecondWorker = .ok a ∧
    cutIntoStages identText a (.withCoordinator "w1") = some plan ∧
    plan.stages.map (·.targetWorkers) = [["w1"]] ∧ ¬PlacementCovers onSecondWorker plan := by
  refine ⟨_, _, rfl, rfl, by decide, fun h => ?_⟩
  obtain ⟨w, hw, hmem⟩ := h _ (mem_singleton_self _) "t" (by decide) ["w2"] (by decide)
  revert w
  decide

end Leibrix.LdpPlacement
