import Leibrix.PlanParts
import Leibrix.LdpCutCorrect

/-!
# The items of stage plans

Cutting takes a plan apart and adds columns that sorts order by. The scans and expressions
of the stages are those of the plan that was cut; all that is new are column references.
-/

set_option autoImplicit false

namespace Leibrix.CutItems
open SqlAst SqlScopes LdpTypes LdpAnnotate LdpCut LdpStages LdpReassemble LdpCutSound
open LdpCutCorrect LdpCutRule PlanBuilder PlanParts List

def IsColumn : Expr → Prop
  | .identifier _ | .compoundIdentifier _ => True
  | _ => False

theorem isColumn_of_expr (e : Expr) : ∀ col ∈ extractAllColumnsFromExpr e, IsColumn col := by
  apply extractAllColumnsFromExpr.induct
    (fun e => ∀ col ∈ extractAllColumnsFromExpr e, IsColumn col)
    (fun l => ∀ col ∈ extractAllColumnsFromList l, IsColumn col)
    (fun l => ∀ col ∈ extractAllColumnsFromArgs l, IsColumn col)
    (fun l => ∀ col ∈ extractAllColumnsFromConditions l, IsColumn col)
    (fun e => ∀ col ∈ extractAllColumnsFromOption e, IsColumn col)
  all_goals grind [extractAllColumnsFromExpr, extractAllColumnsFromList,
    extractAllColumnsFromArgs, extractAllColumnsFromConditions, extractAllColumnsFromOption,
    IsColumn]

theorem isColumn_of_orderBy (e : Expr) : ∀ col ∈ extractColumnFromExpr e, IsColumn col := by
  fun_induction extractColumnFromExpr e with
  | case1 => simp [IsColumn]
  | case2 => nofun
  | case3 => simp [IsColumn]
  | case4 left _ right ihl ihr => exact forall_mem_append.mpr ⟨ihl, ihr⟩
  | case5 _ _ ih | case6 _ ih => exact ih
  | case7 e => exact isColumn_of_expr e

theorem isColumn_of_sort (p : LogicalPlan) : ∀ col ∈ sortOrderByColumns p, IsColumn col := by
  intro col hcol
  unfold sortOrderByColumns at hcol
  split at hcol
  case h_3 => cases hcol
  all_goals
    obtain ⟨o, -, ho⟩ := mem_flatMap.mp hcol
    exact isColumn_of_orderBy o.expr col ho

variable {qs : List LogicalPlan} {text : SqlText} {columns : List Expr}

theorem itemExprs_extended {items items' : List SelectItem} (h : Extended columns items items') :
    (items'.filterMap itemExpr).map Item.expr ⊆
      columns.map .expr ++ (items.filterMap itemExpr).map .expr := by
  obtain ⟨helpers, hh, rfl⟩ := h
  rw [filterMap_append, map_append]
  refine append_subset.mpr ⟨subset_append_right _ _, ?_⟩
  refine subset_append_of_subset_left _ (map_subset _ fun e he => ?_)
  obtain ⟨item, hitem, he⟩ := mem_filterMap.mp he
  obtain ⟨col, hcol, rfl | rfl⟩ := hh item hitem <;>
  · cases he
    exact hcol

theorem beside_subset {added own own' inner inner' : List Item} (ho : own' ⊆ added ++ own)
    (hi : inner' ⊆ added ++ inner) : own' ++ inner' ⊆ added ++ (own ++ inner) := by
  intro item hitem
  have hown := @ho item
  have hinner := @hi item
  simp only [mem_append] at hitem hown hinner ⊢
  rcases hitem with hitem | hitem
  · exact (hown hitem).imp_right .inl
  · exact (hinner hitem).imp_right .inr

/-- A plan with columns added has no other new items. -/
theorem planItems_addColumns (p : LogicalPlan) :
    planItems (addColumnsToPlan text columns p) ⊆ columns.map .expr ++ planItems p := by
  have kept : ∀ items : List Item, items ⊆ columns.map .expr ++ items := fun items =>
    subset_append_right _ _
  have extended {add : List SelectItem → Expr → List SelectItem} (items : List SelectItem)
      (step : ∀ items col, add items col = items ∨
        add items col = items ++ [aliasedColumn col] ∨
        add items col = items ++ [.unnamedExpr col]) :=
    itemExprs_extended (extended_foldl columns step (fun _ h => h) (extended_refl columns items))
  by_cases hnone : columns.isEmpty
  · cases List.isEmpty_iff.mp hnone
    rw [addColumnsToPlan_nil]
    exact kept _
  induction p with (unfold addColumnsToPlan; rw [if_neg hnone])
  | scan | exchangeRead | setOp =>
    rw [planItems]
    refine append_subset.mpr ⟨?_, kept _⟩
    simp [filterMap_map, itemExpr, Function.comp_def]
  | join =>
    rw [planItems]
    refine append_subset.mpr ⟨?_, kept _⟩
    simp [filterMap_cons, filterMap_map, itemExpr, aliasedColumn, Function.comp_def]
  | project _ items => exact beside_subset (extended items addToProject_cases) (kept _)
  | aggregate _ groupBy items having =>
    refine beside_subset ?_ (kept _)
    simp only [map_append]
    exact beside_subset (extended items (addToAggregate_cases text)) (kept _)
  | window _ items _ ih => exact beside_subset (extended items (addToWindow_cases text)) ih
  | filter _ predicate ih => exact beside_subset (kept [.expr predicate]) ih
  | sort _ _ ih | limit _ _ _ ih => exact beside_subset (kept _) ih
  | subqueryScan _ _ ih => exact ih

def ownItems : LogicalPlan → List Item
  | .scan tableName _ tableFactor => [.scan tableName tableFactor]
  | .exchangeRead _ _ => []
  | .filter _ predicate => [.expr predicate]
  | .project _ items => (items.filterMap itemExpr).map .expr
  | .aggregate _ groupBy items having _ =>
    (items.filterMap itemExpr ++ (groupByExprs groupBy ++ having.toList)).map .expr
  | .sort _ orderBy => orderBy.map fun o => .expr o.expr
  | .limit _ limit offset => (limit.toList ++ offset.toList).map .expr
  | .window _ items _ => (items.filterMap itemExpr).map .expr
  | .join _ _ joinOp _ _ => (extractJoinOnExpr joinOp).toList.map .expr
  | .setOp _ _ _ _ => []
  | .subqueryScan _ _ => []

theorem planItems_eq (p : LogicalPlan) :
    planItems p = ownItems p ++ p.children.flatMap planItems := by
  cases p <;> simp [planItems, ownItems, LogicalPlan.children]

theorem reconstruct_items {p q : LogicalPlan} (h : reconstructPlanWithChildren p qs = some q) :
    ownItems q = ownItems p ∧ q.children ⊆ qs := by
  cases p <;> simp only [reconstructPlanWithChildren, Option.bind_eq_bind, Option.pure_def,
    Option.bind_eq_some_iff, Option.some.injEq] at h
  case scan | exchangeRead =>
    cases h
    exact ⟨rfl, nil_subset _⟩
  case join | setOp =>
    obtain ⟨l, hl, r, hr, rfl⟩ := h
    refine ⟨rfl, ?_⟩
    simp [LogicalPlan.children, mem_of_getElem? hl, mem_of_getElem? hr]
  all_goals
    obtain ⟨c, hc, rfl⟩ := h
    exact ⟨rfl, by simp [LogicalPlan.children, mem_of_getElem? hc]⟩

section Made

variable (given : List Item)

def Made (p : LogicalPlan) : Prop :=
  ∀ item ∈ planItems p, item ∈ given ∨ ∃ col, item = .expr col ∧ IsColumn col

def AllMade (st : CutState) : Prop := ∀ s ∈ st.stages, Made given s.plan

variable {given}

theorem made_addColumns (hc : ∀ col ∈ columns, IsColumn col) :
    KeptByColumns text columns (Made given) := by
  intro p hp item hitem
  rcases mem_append.mp (planItems_addColumns p hitem) with hitem | hitem
  · obtain ⟨col, hcol, rfl⟩ := mem_map.mp hitem
    exact .inr ⟨col, rfl, hc col hcol⟩
  · exact hp item hitem

variable {p q : LogicalPlan} {a : AnnotatedPlan} {policy : PlannerPolicy}

theorem made_iff : Made given p ↔
    (∀ item ∈ ownItems p, item ∈ given ∨ ∃ col, item = .expr col ∧ IsColumn col) ∧
      ∀ c ∈ p.children, Made given c := by
  unfold Made
  rw [planItems_eq, forall_mem_append]
  simp only [mem_flatMap, forall_exists_index, and_imp]
  exact and_congr_right' ⟨fun h c hc item hitem => h item c hc hitem,
    fun h item c hc hitem => h c hc item hitem⟩

theorem made_reconstruct (hp : Made given p) (hqs : ∀ c ∈ qs, Made given c)
    (h : reconstructPlanWithChildren p qs = some q) : Made given q := by
  obtain ⟨own, below⟩ := reconstruct_items h
  rw [made_iff] at hp ⊢
  rw [own]
  exact ⟨hp.1, fun c hc => hqs c (below hc)⟩

theorem made_restore (p : LogicalPlan) (hq : Made given q) :
    Made given (restoreOutputColumns p columns q) := by
  obtain keep | ⟨-, _, items, -, -, names, wrap⟩ := restoreOutputColumns_cases p columns
  · rwa [keep]
  · rw [wrap, made_iff]
    refine ⟨fun item hitem => .inr ?_, by simpa [LogicalPlan.children] using hq⟩
    obtain ⟨e, he, rfl⟩ := mem_map.mp hitem
    obtain ⟨selected, hselected, he⟩ := mem_filterMap.mp he
    obtain ⟨name, rfl⟩ := names selected hselected
    cases he
    exact ⟨_, rfl, trivial⟩

variable {pending : List PendingEdge}

theorem made_readExchange {child : AnnotatedPlan} {kind : Exchange} {k : Nat} {st st' : CutState}
    (h : AllMade given st) (read : readExchange child kind k st = (q, pending, st')) :
    Made given q ∧ AllMade given st' := by
  cases read
  refine ⟨?_, h⟩
  split <;> (intro item hitem; cases hitem)

variable (given) in
def MadeStage : OnCut := fun a st _ st' =>
  Everywhere (Made given) a → AllMade given st → AllMade given st'

variable (given) in
def MadePart : OnPart := fun a st q _ st' =>
  Everywhere (Made given) a → AllMade given st → Made given q ∧ AllMade given st'

theorem made_through {stage inner : AnnotatedPlan → AnnotatedPlan} {cs : List AnnotatedPlan}
    {st st' : CutState}
    (through : Through (Child (MadeStage given) (MadePart given) stage inner) cs st qs pending st')
    (hstage : ∀ c ∈ cs, Everywhere (Made given) (stage c))
    (hinner : ∀ c ∈ cs, Everywhere (Made given) (inner c)) (h : AllMade given st) :
    (∀ q ∈ qs, Made given q) ∧ AllMade given st' := by
  refine through.keeps (I := fun st _ => AllMade given st) (P := []) h ?_
  intro c hc st _ q edges st' child hst
  cases child with
  | exchange _ hcut hread => exact made_readExchange (hcut (hstage c hc) hst) hread
  | inner _ hpart => exact hpart (hinner c hc) hst

theorem made_rule (text : SqlText) : CutRule text (MadeStage given) (MadePart given) where
  stage := by
    intro a st st₁ qs q pending through hq ha h
    have kept : KeptByColumns text (sortOrderByColumns a.plan) (Made given) :=
      made_addColumns (isColumn_of_sort a.plan)
    obtain ⟨hqs, hst₁⟩ := made_through through
      (fun c hc => (ha.child hc).withPlan (kept _ (ha.child hc).here))
      (fun c hc => by
        unfold keptChild
        split
        · exact everywhere_toExchangeChildren text _ kept (ha.child hc)
        · exact ha.child hc) h
    refine forall_mem_append.mpr ⟨hst₁, forall_mem_singleton.mpr ?_⟩
    exact made_restore a.plan (made_reconstruct ha.here hqs hq)
  leaf := by
    intro a st _ ha h
    exact ⟨ha.here, h⟩
  node := by
    intro a st st₁ qs q pending through hq ha h
    obtain ⟨hqs, hst₁⟩ := made_through through (fun c hc => ha.child hc) (fun c hc => ha.child hc) h
    exact ⟨made_reconstruct ha.here hqs hq, hst₁⟩

theorem made_stages {metadata : Metadata} {plan : LdpPlan}
    (ha : annotateLogicalPlan p policy metadata = .ok a)
    (hcut : cutIntoStages text a policy = some plan) :
    ∀ s ∈ plan.stages, Made (planItems p) s.plan := by
  obtain ⟨k, st, hst, rfl⟩ := cutIntoStages_eq_some.mp hcut
  have everywhere : Everywhere (Made (planItems p)) a :=
    everywhere_annotated (fun _ hq => (made_iff.mp hq).2) (fun _ => .inl) ha
  have start : AllMade (planItems p) ⟨[], [], 0, 0, []⟩ := by
    intro s hs
    cases hs
  have all := (made_rule text).cutRecursive hst everywhere start
  obtain ⟨f, hf, stages_eq⟩ := finish_stages policy.coordinator k st
  intro s hs
  rw [stages_eq] at hs
  obtain ⟨stage, hstage, rfl⟩ := mem_map.mp hs
  rw [(hf stage).2.1]
  exact all stage hstage

end Made

end Leibrix.CutItems
