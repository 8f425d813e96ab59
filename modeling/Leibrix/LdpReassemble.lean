import Leibrix.LdpStages

/-!
# What cutting builds

Cutting and reading the stages back is one function on the annotated plan, without
stage numbers, exchange numbers or a state. It fails where cutting panics.
-/

set_option autoImplicit false

namespace Leibrix.LdpReassemble
open SqlAst LdpTypes LdpAnnotate LdpCut LdpStages List Option

def aliased (plan image : LogicalPlan) : LogicalPlan :=
  match deriveRelationAlias plan with
  | some relationAlias => .subqueryScan image relationAlias
  | none => image

def allImages (f : AnnotatedPlan → Option LogicalPlan) :
    List AnnotatedPlan → Option (List LogicalPlan)
  | [] => some []
  | child::rest => do return (← f child) :: (← allImages f rest)

variable (text : SqlText) (stage fragment : AnnotatedPlan → Option LogicalPlan)

def cutChildImage (columns : List Expr) (child : AnnotatedPlan) : Option LogicalPlan :=
  match child.exchangeBefore with
  | some _ =>
    (stage (child.withPlan (addColumnsToPlan text columns child.plan))).map (aliased child.plan)
  | none =>
    fragment
      (if !columns.isEmpty && hasExchangeInDescendants child then
        addOrderByColumnsToExchangeChildren text columns child
      else child)

def extractChildImage (child : AnnotatedPlan) : Option LogicalPlan :=
  match child.exchangeBefore with
  | some _ => (stage child).map (aliased child.plan)
  | none => fragment child

mutual

def stageImage : Nat → AnnotatedPlan → Option LogicalPlan
  | 0, _ => none
  | depth + 1, annotated => do
    let columns := sortOrderByColumns annotated.plan
    let images ←
      allImages (cutChildImage text (stageImage depth) (fragmentImage depth) columns)
        annotated.children
    let image ← reconstructPlanWithChildren annotated.plan images
    return restoreOutputColumns annotated.plan columns image

def fragmentImage : Nat → AnnotatedPlan → Option LogicalPlan
  | 0, _ => none
  | depth + 1, annotated =>
    if annotated.children.isEmpty then some annotated.plan
    else do
      let images ←
        allImages (extractChildImage (stageImage depth) (fragmentImage depth)) annotated.children
      reconstructPlanWithChildren annotated.plan images

end

def ReadFree (p : LogicalPlan) : Prop := collectExchangeReads p = []

instance (p : LogicalPlan) : Decidable (ReadFree p) :=
  inferInstanceAs (Decidable (collectExchangeReads p = []))

attribute [local simp] substReads mapChildren allImages

theorem substReads_of_readFree (read : Nat → Option LogicalPlan) (p : LogicalPlan)
    (h : ReadFree p) : substReads read p = some p := by
  induction p with
  | scan => rfl
  | exchangeRead => cases h
  | filter _ _ ih | project _ _ ih | aggregate _ _ _ _ _ ih | sort _ _ ih | limit _ _ _ ih
  | window _ _ _ ih | subqueryScan _ _ ih => simp [ih h]
  | join _ _ _ _ _ ihl ihr | setOp _ _ _ _ ihl ihr =>
    obtain ⟨hl, hr⟩ := append_eq_nil_iff.mp h
    simp [ihl hl, ihr hr]

variable {image : LogicalPlan}

theorem substReads_aliased (read : Nat → Option LogicalPlan) (plan : LogicalPlan) (q : LogicalPlan)
    (h : substReads read q = some image) :
    substReads read (aliased plan q) = some (aliased plan image) := by
  unfold aliased
  split <;> simp [h]

theorem names_restored {original items : List SelectItem}
    (h : items = original.filterMap fun item =>
      (getOutputColumnName item).map fun name => .unnamedExpr (.identifier ⟨name, none⟩))
    (hlength : items.length = original.length) :
    items.map getOutputColumnName = original.map getOutputColumnName ∧
      ∀ item ∈ items, IsName item := by
  subst h
  induction original with
  | nil => simp
  | cons item original ih =>
    have le := length_filterMap_le (fun item => (getOutputColumnName item).map fun name =>
      SelectItem.unnamedExpr (.identifier ⟨name, none⟩)) original
    cases hname : getOutputColumnName item with
    | none =>
      simp only [filterMap_cons, hname, map_none, length_cons] at hlength
      omega
    | some name =>
      simp only [filterMap_cons, hname, map_some, length_cons,
        Nat.add_right_cancel_iff] at hlength
      obtain ⟨names, allNames⟩ := ih hlength
      simp only [filterMap_cons, hname, map_some, map_cons, names,
        forall_mem_cons]
      exact ⟨rfl, ⟨name, rfl⟩, allNames⟩

theorem restoreOutputColumns_cases (plan : LogicalPlan) (columns : List Expr) :
    (∀ q, restoreOutputColumns plan columns q = q) ∨
      columns ≠ [] ∧ ∃ original items, extractInnerProjectionItems plan = some original ∧
        items.map getOutputColumnName = original.map getOutputColumnName ∧
        (∀ item ∈ items, IsName item) ∧
        ∀ q, restoreOutputColumns plan columns q = .project q items := by
  by_cases hc : columns.isEmpty
  · exact .inl fun q => by simp [restoreOutputColumns, hc]
  cases hi : extractInnerProjectionItems plan with
  | none => exact .inl fun q => by simp [restoreOutputColumns, hc, hi]
  | some original =>
    simp only [restoreOutputColumns, hc, hi, Bool.false_eq_true, if_false]
    split
    · rename_i hlength
      obtain ⟨names, allNames⟩ := names_restored rfl hlength
      exact .inr ⟨by simpa using hc, original, _, rfl, names, allNames, fun q => rfl⟩
    · exact .inl fun q => rfl

variable {q : LogicalPlan}

theorem substReads_restore (read : Nat → Option LogicalPlan) (plan : LogicalPlan)
    (columns : List Expr) (h : substReads read q = some image) :
    substReads read (restoreOutputColumns plan columns q) =
      some (restoreOutputColumns plan columns image) := by
  obtain keep | ⟨-, _, items, -, -, -, wrap⟩ := restoreOutputColumns_cases plan columns
  · rw [keep, keep, h]
  · simp [wrap, h]

theorem substReads_reconstruct (read : Nat → Option LogicalPlan) (plan : LogicalPlan)
    (hplan : ∀ id name, plan ≠ .exchangeRead id name) {qs images : List LogicalPlan}
    (h : List.Forall₂ (fun q image => substReads read q = some image) qs images) :
    (reconstructPlanWithChildren plan qs).bind (substReads read) =
      reconstructPlanWithChildren plan images := by
  -- only the first two children are looked at
  rcases h with _ | ⟨h, h'⟩
  · cases plan <;> simp_all [reconstructPlanWithChildren]
  · rcases h' with _ | ⟨h', -⟩ <;> cases plan <;>
      simp_all [reconstructPlanWithChildren]

section Simulation

def Wiring.read (w : Wiring) (fuel id : Nat) : Option LogicalPlan := do
  w.resolve fuel (← w.source id)

/-- The wiring agrees with the stages and edges built so far, pending ones included. -/
structure Covers (w : Wiring) (st : CutState) (pending : List PendingEdge) : Prop where
  stage : ∀ s ∈ st.stages, w.stagePlan s.stageId = some s.plan
  edge : ∀ e ∈ st.edges, w.source e.exchangeId = some e.fromStage
  pending : ∀ x ∈ pending, w.source x.1 = some x.2.1

/-- Stages are numbered in order, and each exchange has one edge, pending ones included. -/
structure Numbered (st : CutState) (pending : List PendingEdge) : Prop where
  edges : (st.edges.map (·.exchangeId) ++ pending.map Prod.fst).Perm (List.range st.nextExchangeId)
  stageIds : st.stages.map (·.stageId) = List.range st.nextStageId

structure Grows (st : CutState) (pending : List PendingEdge) (st' : CutState) : Prop where
  stages : st.stages ⊆ st'.stages
  edges : st.edges ⊆ st'.edges
  next : st.nextStageId ≤ st'.nextStageId
  numbered : ∀ P, Numbered st P → Numbered st' (P ++ pending)

theorem Grows.refl (st : CutState) : Grows st [] st :=
  ⟨Subset.refl _, Subset.refl _, le_refl _, fun P h => by simpa using h⟩

variable {st st' : CutState} {pending : List PendingEdge} {w : Wiring} {a : AnnotatedPlan}
  {p : LogicalPlan}

variable {pending' : List PendingEdge}

theorem Grows.trans {st'' : CutState} (h : Grows st pending st') (h' : Grows st' pending' st'') :
    Grows st (pending ++ pending') st'' :=
  ⟨Subset.trans h.stages h'.stages, Subset.trans h.edges h'.edges,
    h.next.trans h'.next, fun P hP => by simpa using h'.numbered _ (h.numbered P hP)⟩

variable {P : List PendingEdge} {qs ps : List LogicalPlan}

theorem numbered_readExchange (child : AnnotatedPlan) (kind : Exchange) (k : Nat)
    (h : Numbered st P) :
    Numbered (readExchange child kind k st).2.2 (P ++ (readExchange child kind k st).2.1) := by
  refine ⟨?_, h.stageIds⟩
  simp only [readExchange, map_append, map_cons, map_nil, ← append_assoc]
  exact (h.edges.append_right _).trans (by rw [← range_succ])

theorem numbered_pushStage (a : AnnotatedPlan) (q : LogicalPlan) (h : Numbered st (P ++ pending)) :
    Numbered (pushStage a q pending st).2 P := by
  refine ⟨.trans ?_ h.edges, ?_⟩
  · simp only [pushStage, map_append, List.map_map, Function.comp_def, append_assoc]
    exact perm_append_comm.append_left _
  · simp only [pushStage, map_append, map_cons, map_nil, h.stageIds,
      range_succ]

theorem grows_readExchange (child : AnnotatedPlan) (kind : Exchange) (k : Nat)
    (h : Grows st [] st') :
    Grows st (readExchange child kind k st').2.1 (readExchange child kind k st').2.2 := by
  refine ⟨h.stages, h.edges, h.next, fun P hP => ?_⟩
  have numbered := h.numbered P hP
  rw [append_nil] at numbered
  exact numbered_readExchange child kind k numbered

theorem grows_pushStage (a : AnnotatedPlan) (q : LogicalPlan) (h : Grows st pending st') :
    Grows st [] (pushStage a q pending st').2 := by
  refine ⟨?_, ?_, ?_, fun P hP => ?_⟩
  · exact Subset.trans h.stages (subset_append_left _ _)
  · exact Subset.trans h.edges (subset_append_left _ _)
  · exact h.next.trans (Nat.le_succ _)
  · rw [append_nil]
    exact numbered_pushStage a q (h.numbered P hP)

theorem Covers.mono {more : List PendingEdge} (h : Covers w st' pending') (hg : Grows st more st')
    (hp : pending ⊆ pending') : Covers w st pending :=
  ⟨fun s hs => h.stage s (hg.stages hs), fun e he => h.edge e (hg.edges he),
    fun x hx => h.pending x (hp hx)⟩

theorem Covers.of_readExchange {child : AnnotatedPlan} {kind : Exchange} {k : Nat}
    (h : Covers w (readExchange child kind k st).2.2 (readExchange child kind k st).2.1) :
    w.source st.nextExchangeId = some k ∧ Covers w st [] :=
  ⟨h.pending (st.nextExchangeId, k, kind) (by simp [readExchange]), h.stage, h.edge, by simp⟩

theorem Covers.of_pushStage (h : Covers w (pushStage a q pending st).2 []) :
    w.stagePlan st.nextStageId = some q ∧ Covers w st pending := by
  refine ⟨h.stage _ (mem_append_right _ (mem_singleton_self _)),
    fun s hs => h.stage s (by simp [pushStage, hs]), fun e he => h.edge e (by simp [pushStage, he]),
    ?_⟩
  intro x hx
  refine h.edge ⟨x.1, x.2.2, x.2.1, st.nextStageId, []⟩ ?_
  simp only [pushStage, mem_append, List.mem_map]
  exact .inr ⟨x, hx, rfl⟩

def StageResult (st : CutState) (image : Option LogicalPlan) : Option (Nat × CutState) → Prop
  | none => image = none
  | some (k, st') => ∃ p, image = some p ∧ Grows st [] st' ∧ k < st'.nextStageId ∧
    ∀ w, Covers w st' [] → ∀ fuel, k < fuel → w.resolve fuel k = some p

def FragmentResult (st : CutState) (image : Option LogicalPlan) :
    Option (LogicalPlan × List PendingEdge × CutState) → Prop
  | none => image = none
  | some (q, pending, st') => ∃ p, image = some p ∧ Grows st pending st' ∧
    ∀ w, Covers w st' pending → ∀ fuel, st'.nextStageId ≤ fuel →
      substReads (Wiring.read w fuel) q = some p

def ChildrenResult (st : CutState) (images : Option (List LogicalPlan)) :
    Option (List LogicalPlan × List PendingEdge × CutState) → Prop
  | none => images = none
  | some (qs, pending, st') =>
    ∃ ps, images = some ps ∧ qs.length = ps.length ∧ Grows st pending st' ∧
    ∀ w, Covers w st' pending → ∀ fuel, st'.nextStageId ≤ fuel →
      List.Forall₂ (fun q p => substReads (Wiring.read w fuel) q = some p) qs ps

theorem mapChildren_result
    (f : AnnotatedPlan → CutState → Option (LogicalPlan × List PendingEdge × CutState))
    (g : AnnotatedPlan → Option LogicalPlan) (cs : List AnnotatedPlan)
    (h : ∀ c ∈ cs, ∀ st, FragmentResult st (g c) (f c st)) (st : CutState) :
    ChildrenResult st (allImages g cs) (mapChildren f cs st) := by
  induction cs generalizing st with
  | nil => exact ⟨[], rfl, rfl, .refl st, fun _ _ _ _ => .nil⟩
  | cons c cs ih =>
    have hc := h c (by simp) st
    cases hf : f c st with
    | none =>
      rw [hf] at hc
      simp [hf, show g c = none from hc, ChildrenResult]
    | some r =>
      obtain ⟨q, pending, st1⟩ := r
      rw [hf] at hc
      obtain ⟨p, hg, grows, read⟩ := hc
      have hcs := ih (fun d hd => h d (by simp [hd])) st1
      cases hm : mapChildren f cs st1 with
      | none =>
        rw [hm] at hcs
        simp [hf, hm, show allImages g cs = none from hcs, ChildrenResult]
      | some r =>
        obtain ⟨qs, more, st2⟩ := r
        rw [hm] at hcs
        obtain ⟨ps, hgs, length_eq, grows', reads⟩ := hcs
        rw [show mapChildren f (c::cs) st = some (q::qs, pending ++ more, st2) by
          simp [hf, hm]]
        refine ⟨p::ps, by simp [hg, hgs], by simp [length_eq], grows.trans grows',
          fun w hw fuel hfuel => ?_⟩
        exact .cons
          (read w (hw.mono grows' (subset_append_left _ _)) fuel (grows'.next.trans hfuel))
          (reads w (hw.mono (.refl _) (subset_append_right _ _)) fuel hfuel)

theorem readExchange_result (child : AnnotatedPlan) (kind : Exchange) {image : Option LogicalPlan}
    {r : Option (Nat × CutState)} (h : StageResult st image r) :
    FragmentResult st (image.map (aliased child.plan))
      (r.bind fun r => some (readExchange child kind r.1 r.2)) := by
  cases r with
  | none => simp [FragmentResult, show image = none from h]
  | some r =>
    obtain ⟨k, st'⟩ := r
    obtain ⟨p, hp, grows, hk, resolve⟩ := h
    refine ⟨aliased child.plan p, by simp [hp], grows_readExchange child kind k grows, ?_⟩
    intro w hw fuel hfuel
    obtain ⟨source, covers⟩ := @Covers.of_readExchange st' w child kind k hw
    refine substReads_aliased _ child.plan (.exchangeRead _ _) ?_
    simpa [Wiring.read, source] using
      resolve w covers fuel (Nat.lt_of_lt_of_le hk hfuel)

theorem pushStage_result (annotated : AnnotatedPlan) (q : LogicalPlan)
    (grows : Grows st pending st')
    (read : ∀ w, Covers w st' pending → ∀ fuel, st'.nextStageId ≤ fuel →
      substReads (Wiring.read w fuel) q = some p) :
    StageResult st (some p) (some (pushStage annotated q pending st')) := by
  refine ⟨p, rfl, grows_pushStage annotated q grows, Nat.lt_succ_self _, ?_⟩
  intro w hw fuel hfuel
  obtain ⟨fuel, rfl⟩ := Nat.exists_eq_add_of_lt hfuel
  obtain ⟨plan, covers⟩ := hw.of_pushStage
  have resolved := read w covers (st'.nextStageId + fuel) (Nat.le_add_right _ _)
  simp only [Wiring.resolve, plan, bind_eq_bind, bind_some]
  exact resolved

/-- Every node of an annotated plan has a plan of one kind. -/
inductive Everywhere (P : LogicalPlan → Prop) : AnnotatedPlan → Prop
  | mk {p : LogicalPlan} {ann : DistributionAnnotation} {ex : Option Exchange}
      {pre : Option Distribution} {cs : List AnnotatedPlan} :
    P p → (∀ c ∈ cs, Everywhere P c) → Everywhere P (.mk p ann ex pre cs)

variable {c : AnnotatedPlan}

section Everywhere

variable {P : LogicalPlan → Prop}

theorem Everywhere.here (h : Everywhere P a) : P a.plan := by
  cases h
  assumption

theorem Everywhere.child (h : Everywhere P a) (hc : c ∈ a.children) : Everywhere P c := by
  cases h with
  | mk _ hcs => exact hcs c hc

theorem Everywhere.withPlan (h : Everywhere P a) (hp : P p) : Everywhere P (a.withPlan p) := by
  cases h with
  | mk _ hcs => exact .mk hp hcs

end Everywhere

/-- No node of an annotated plan has an `ExchangeRead` in its plan. -/
abbrev Closed (a : AnnotatedPlan) : Prop := Everywhere ReadFree a

variable (columns : List Expr)

theorem addColumnsToPlan_nil (p : LogicalPlan) : addColumnsToPlan text [] p = p := by
  unfold addColumnsToPlan
  rfl

theorem readFree_addColumnsToPlan (h : ReadFree p) :
    ReadFree (addColumnsToPlan text columns p) := by
  induction p with
  | scan | exchangeRead | join | setOp | project | aggregate =>
    unfold addColumnsToPlan
    split <;> exact h
  | filter _ _ ih | sort _ _ ih | limit _ _ _ ih | window _ _ _ ih | subqueryScan _ _ ih =>
    unfold addColumnsToPlan
    split
    · exact h
    · exact ih h

theorem addColumnsToPlanSafe_eq (h : addColumnsToPlanSafe text columns p = some q) :
    q = addColumnsToPlan text columns p := by
  unfold addColumnsToPlanSafe at h
  split at h
  · cases h
  · split at h <;> cases h <;> rfl

section AddedColumns

variable {P : LogicalPlan → Prop} {R : AnnotatedPlan → AnnotatedPlan → Prop}

variable (P) in
def KeptByColumns : Prop := ∀ p, P p → P (addColumnsToPlan text columns p)

variable (R) in
/-- A relation that holds between nodes whose children are related, if the plan stays or gets
the columns. -/
def Widening : Prop :=
  ∀ ⦃p q : LogicalPlan⦄ ⦃ann : DistributionAnnotation⦄ ⦃ex : Option Exchange⦄
    ⦃pre : Option Distribution⦄ ⦃cs ds : List AnnotatedPlan⦄,
    q = p ∨ addColumnsToPlanSafe text columns p = some q → List.Forall₂ R cs ds →
      R (.mk p ann ex pre cs) (.mk q ann ex pre ds)

variable {text columns}

mutual

theorem Widening.refl (node : Widening text columns R) : ∀ a : AnnotatedPlan, R a a
  | .mk _ _ _ _ cs => node (.inl rfl) (node.refls cs)

theorem Widening.refls (node : Widening text columns R) :
    ∀ cs : List AnnotatedPlan, List.Forall₂ R cs cs
  | [] => .nil
  | c::cs => .cons (node.refl c) (node.refls cs)

end

theorem Widening.withPlan (node : Widening text columns R) (a : AnnotatedPlan)
    (hq : addColumnsToPlanSafe text columns a.plan = some q) : R a (a.withPlan q) := by
  cases a
  exact node (.inr hq) (node.refls _)

mutual

theorem Widening.inSubtree (node : Widening text columns R) :
    ∀ a : AnnotatedPlan, R a (addOrderByColumnsInSubtree text columns a)
  | .mk p ann ex pre cs => by
    unfold addOrderByColumnsInSubtree
    split
    · rename_i q hq
      exact node.withPlan (.mk p ann ex pre cs) hq
    · exact node (.inl rfl) (node.inSubtrees cs)

theorem Widening.inSubtrees (node : Widening text columns R) : ∀ cs : List AnnotatedPlan,
    List.Forall₂ R cs (addOrderByColumnsInSubtrees text columns cs)
  | [] => .nil
  | c::cs => by
    refine .cons ?_ (node.inSubtrees cs)
    split
    · exact node.inSubtree c
    · exact node.refl c

end

mutual

theorem Widening.toExchangeChildren (node : Widening text columns R) :
    ∀ a : AnnotatedPlan, R a (addOrderByColumnsToExchangeChildren text columns a)
  | .mk p ann ex pre cs => by
    refine node ?_ (node.toExchangeChildrenList cs)
    cases addColumnsToPlanSafe text columns p with
    | none => exact .inl rfl
    | some q => exact .inr rfl

theorem Widening.toExchangeChildrenList (node : Widening text columns R) :
    ∀ cs : List AnnotatedPlan,
    List.Forall₂ R cs (addOrderByColumnsToExchangeChildrenList text columns cs)
  | [] => .nil
  | c::cs => by
    refine .cons ?_ (node.toExchangeChildrenList cs)
    split
    · split
      · exact node.withPlan c (by assumption)
      · exact node.inSubtree c
    · exact node.toExchangeChildren c

end

variable (text columns)

theorem everywhere_toExchangeChildren (hadd : KeptByColumns text columns P) :
    Everywhere P a → Everywhere P (addOrderByColumnsToExchangeChildren text columns a) := by
  have node : Widening text columns fun a b => Everywhere P a → Everywhere P b := by
    rintro p q ann ex pre cs ds hq hcs (⟨hp, hall⟩)
    refine .mk ?_ fun d hd => ?_
    · rcases hq with rfl | hq
      · exact hp
      · exact addColumnsToPlanSafe_eq text columns hq ▸ hadd p hp
    · obtain ⟨c, hc, hcd⟩ := exists_left_of_forall₂ hcs hd
      exact hcd (hall c hc)
  exact node.toExchangeChildren a

end AddedColumns

theorem closed_toExchangeChildren (h : Closed a) :
    Closed (addOrderByColumnsToExchangeChildren text columns a) :=
  everywhere_toExchangeChildren text columns (fun _ => readFree_addColumnsToPlan text columns) h

theorem not_exchangeRead (h : ReadFree p) (id : Nat) (name : String) :
    p ≠ .exchangeRead id name := by
  rintro rfl
  cases h

theorem reconstruct_eq_none_congr (plan : LogicalPlan) (h : qs.length = ps.length) :
    reconstructPlanWithChildren plan qs = none ↔ reconstructPlanWithChildren plan ps = none := by
  rcases qs with _ | ⟨q, _ | ⟨q', qs⟩⟩ <;> rcases ps with _ | ⟨p, _ | ⟨p', ps⟩⟩ <;>
    simp at h <;> cases plan <;> simp [reconstructPlanWithChildren]

theorem reconstruct_result {plan : LogicalPlan} (hplan : ReadFree plan)
    (length_eq : qs.length = ps.length)
    (reads : ∀ w, Covers w st pending → ∀ fuel, st.nextStageId ≤ fuel →
      List.Forall₂ (fun q p => substReads (Wiring.read w fuel) q = some p) qs ps) :
    (reconstructPlanWithChildren plan qs = none ∧ reconstructPlanWithChildren plan ps = none) ∨
      ∃ q p, reconstructPlanWithChildren plan qs = some q ∧
        reconstructPlanWithChildren plan ps = some p ∧
        ∀ w, Covers w st pending → ∀ fuel, st.nextStageId ≤ fuel →
          substReads (Wiring.read w fuel) q = some p := by
  have none_iff := reconstruct_eq_none_congr plan length_eq
  cases hq : reconstructPlanWithChildren plan qs with
  | none => exact .inl ⟨rfl, none_iff.mp hq⟩
  | some q =>
    cases hp : reconstructPlanWithChildren plan ps with
    | none => simp [hq, hp] at none_iff
    | some p =>
      refine .inr ⟨q, p, rfl, rfl, fun w hw fuel hfuel => ?_⟩
      have eq := substReads_reconstruct (Wiring.read w fuel) plan (not_exchangeRead hplan)
        (reads w hw fuel hfuel)
      simpa [hq, hp] using eq

section Children

variable {cut : AnnotatedPlan → CutState → Option (Nat × CutState)}
  {extract : AnnotatedPlan → CutState → Option (LogicalPlan × List PendingEdge × CutState)}
  {stage fragment : AnnotatedPlan → Option LogicalPlan}

variable {child : AnnotatedPlan}
  (hcut : ∀ a, Closed a → ∀ st, StageResult st (stage a) (cut a st))
  (hextract : ∀ a, Closed a → ∀ st, FragmentResult st (fragment a) (extract a st))
include hcut hextract

theorem cutChild_result (h : Closed child) (st : CutState) :
    FragmentResult st (cutChildImage text stage fragment columns child)
      (cutChild text cut extract columns child st) := by
  cases hex : child.exchangeBefore with
  | some kind =>
    have closed := h.withPlan (readFree_addColumnsToPlan text columns h.here)
    simp only [cutChild, cutChildImage, hex]
    exact readExchange_result child kind (hcut _ closed st)
  | none =>
    simp only [cutChild, cutChildImage, hex]
    refine hextract _ ?_ st
    split
    · exact closed_toExchangeChildren text columns h
    · exact h

theorem extractChild_result (h : Closed child) (st : CutState) :
    FragmentResult st (extractChildImage stage fragment child)
      (extractChild cut extract child st) := by
  cases hex : child.exchangeBefore with
  | some kind =>
    simp only [extractChild, extractChildImage, hex]
    exact readExchange_result child kind (hcut _ h st)
  | none =>
    simp only [extractChild, extractChildImage, hex]
    exact hextract _ h st

end Children

mutual

theorem cutRecursive_result : ∀ (depth : Nat) (a : AnnotatedPlan), Closed a → ∀ st : CutState,
    StageResult st (stageImage text depth a) (cutRecursive text depth a st)
  | 0, _, _, _ => rfl
  | depth + 1, a, h, st => by
    have children := mapChildren_result _ _ a.children (fun c hc =>
      cutChild_result text (sortOrderByColumns a.plan) (cutRecursive_result depth)
        (extractStagePlan_result depth) (h.child hc)) st
    simp only [cutRecursive, stageImage]
    cases hm : mapChildren _ a.children st with
    | none =>
      rw [hm] at children
      simp [show allImages _ a.children = none from children, StageResult]
    | some r =>
      obtain ⟨qs, pending, st'⟩ := r
      rw [hm] at children
      obtain ⟨ps, hps, length_eq, grows, reads⟩ := children
      obtain ⟨hq, hp⟩ | ⟨q, p, hq, hp, read⟩ := reconstruct_result h.here length_eq reads
      · simp [hps, hq, hp, StageResult]
      · simp only [hps, hq, hp, bind_eq_bind, bind_some, Option.pure_def]
        exact pushStage_result a _ grows fun w hw fuel hfuel =>
          substReads_restore _ _ _ (read w hw fuel hfuel)

theorem extractStagePlan_result : ∀ (depth : Nat) (a : AnnotatedPlan), Closed a → ∀ st : CutState,
    FragmentResult st (fragmentImage text depth a) (extractStagePlan text depth a st)
  | 0, _, _, _ => rfl
  | depth + 1, a, h, st => by
    unfold extractStagePlan fragmentImage
    split
    · exact ⟨a.plan, rfl, .refl st, fun w _ fuel _ => substReads_of_readFree _ _ h.here⟩
    have children := mapChildren_result _ _ a.children (fun c hc =>
      extractChild_result (cutRecursive_result depth) (extractStagePlan_result depth)
        (h.child hc)) st
    cases hm : mapChildren _ a.children st with
    | none =>
      rw [hm] at children
      simp [show allImages _ a.children = none from children, FragmentResult]
    | some r =>
      obtain ⟨qs, pending, st'⟩ := r
      rw [hm] at children
      obtain ⟨ps, hps, length_eq, grows, reads⟩ := children
      obtain ⟨hq, hp⟩ | ⟨q, p, hq, hp, read⟩ := reconstruct_result h.here length_eq reads
      · simp [hps, hq, hp, FragmentResult]
      · simp only [hps, hq, hp, bind_eq_bind, bind_some]
        exact ⟨p, rfl, grows, read⟩

end

end Simulation

end Leibrix.LdpReassemble
