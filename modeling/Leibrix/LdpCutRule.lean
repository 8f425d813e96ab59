import Leibrix.LdpCut

/-!
# Induction over cutting

Cutting a stage and extracting the plan of one call each other over the children of a node.
What they return is put together in three ways: a stage from its children, the plan of a
leaf, and the plan of a node from its children. Facts about cutting follow from these.
-/

set_option autoImplicit false

namespace Leibrix.LdpCutRule
open SqlAst LdpTypes LdpAnnotate LdpCut Option

abbrev OnCut := AnnotatedPlan → CutState → Nat → CutState → Prop

abbrev OnPart := AnnotatedPlan → CutState → LogicalPlan → List PendingEdge → CutState → Prop

/-- The children one after the other. -/
inductive Through (R : OnPart) :
    List AnnotatedPlan → CutState → List LogicalPlan → List PendingEdge → CutState → Prop
  | nil (st : CutState) : Through R [] st [] [] st
  | cons {c : AnnotatedPlan} {cs : List AnnotatedPlan} {st st₁ st₂ : CutState} {q : LogicalPlan}
      {qs : List LogicalPlan} {edges more : List PendingEdge} :
    R c st q edges st₁ → Through R cs st₁ qs more st₂ →
      Through R (c::cs) st (q::qs) (edges ++ more) st₂

/-- A child is read from a stage of its own, or it is part of the stage of its parent. The two
nodes are what cutting makes of the child in either case. -/
inductive Child (cut : OnCut) (part : OnPart) (stage inner : AnnotatedPlan → AnnotatedPlan)
    (c : AnnotatedPlan) (st : CutState) : LogicalPlan → List PendingEdge → CutState → Prop
  | exchange {kind : Exchange} {k : Nat} {st₁ st₂ : CutState} {q : LogicalPlan}
      {edges : List PendingEdge} :
    c.exchangeBefore = some kind → cut (stage c) st k st₁ →
      readExchange c kind k st₁ = (q, edges, st₂) → Child cut part stage inner c st q edges st₂
  | inner {q : LogicalPlan} {edges : List PendingEdge} {st₁ : CutState} :
    c.exchangeBefore = none → part (inner c) st q edges st₁ →
      Child cut part stage inner c st q edges st₁

variable {R : OnPart} {cs : List AnnotatedPlan} {qs : List LogicalPlan} {pending : List PendingEdge}

theorem through_of_mapChildren
    {f : AnnotatedPlan → CutState → Option (LogicalPlan × List PendingEdge × CutState)}
    (hf : ∀ c st q edges st', f c st = some (q, edges, st') → R c st q edges st')
    {st st' : CutState} (h : mapChildren f cs st = some (qs, pending, st')) :
    Through R cs st qs pending st' := by
  induction cs generalizing st qs pending with
  | nil =>
    cases h
    exact .nil _
  | cons c cs ih =>
    simp only [mapChildren, bind_eq_bind, bind_eq_some_iff, Prod.exists,
      pure_def, Option.some.injEq, Prod.mk.injEq] at h
    obtain ⟨q, edges, st₁, hfirst, qs', more, st₂, hrest, rfl, rfl, rfl⟩ := h
    exact .cons (hf c st q edges st₁ hfirst) (ih hrest)

theorem Through.keeps {I : CutState → List PendingEdge → Prop} {Q : LogicalPlan → Prop}
    {st st' : CutState} {P : List PendingEdge} (h : Through R cs st qs pending st') (hst : I st P)
    (step : ∀ c ∈ cs, ∀ st P q edges st', R c st q edges st' → I st P →
      Q q ∧ I st' (P ++ edges)) : (∀ q ∈ qs, Q q) ∧ I st' (P ++ pending) := by
  induction h generalizing P with
  | nil => exact ⟨nofun, by simpa using hst⟩
  | @cons c cs st st₁ st₂ q qs edges more hc _ ih =>
    obtain ⟨hq, hst₁⟩ := step c List.mem_cons_self st P q edges st₁ hc hst
    obtain ⟨hqs, hst₂⟩ := ih hst₁ fun d hd => step d (List.mem_cons_of_mem _ hd)
    rw [← List.append_assoc]
    exact ⟨List.forall_mem_cons.mpr ⟨hq, hqs⟩, hst₂⟩

section Rule

variable (text : SqlText)

def sentChild (columns : List Expr) (c : AnnotatedPlan) : AnnotatedPlan :=
  c.withPlan (addColumnsToPlan text columns c.plan)

def keptChild (columns : List Expr) (c : AnnotatedPlan) : AnnotatedPlan :=
  if !columns.isEmpty && hasExchangeInDescendants c then
    addOrderByColumnsToExchangeChildren text columns c
  else c

def stageOf (a : AnnotatedPlan) (q : LogicalPlan) : LogicalPlan :=
  restoreOutputColumns a.plan (sortOrderByColumns a.plan) q

variable {text} {cut : OnCut} {part : OnPart}

variable (text cut part) in
/-- What the three ways keep. -/
structure CutRule : Prop where
  stage : ∀ {a : AnnotatedPlan} {st st₁ : CutState} {qs : List LogicalPlan} {q : LogicalPlan}
    {pending : List PendingEdge},
    Through (Child cut part (sentChild text (sortOrderByColumns a.plan))
      (keptChild text (sortOrderByColumns a.plan))) a.children st qs pending st₁ →
    reconstructPlanWithChildren a.plan qs = some q →
    cut a st (pushStage a (stageOf a q) pending st₁).1 (pushStage a (stageOf a q) pending st₁).2
  leaf : ∀ {a : AnnotatedPlan} (st : CutState), a.children = [] → part a st a.plan [] st
  node : ∀ {a : AnnotatedPlan} {st st₁ : CutState} {qs : List LogicalPlan} {q : LogicalPlan}
    {pending : List PendingEdge},
    Through (Child cut part id id) a.children st qs pending st₁ →
    reconstructPlanWithChildren a.plan qs = some q → part a st q pending st₁

section Children

variable {cutTo : AnnotatedPlan → CutState → Option (Nat × CutState)}
  {extract : AnnotatedPlan → CutState → Option (LogicalPlan × List PendingEdge × CutState)}
  {c : AnnotatedPlan} {st st' : CutState} {q : LogicalPlan} {edges : List PendingEdge}

variable (hcut : ∀ a st k st', cutTo a st = some (k, st') → cut a st k st')
  (hextract : ∀ a st q pending st', extract a st = some (q, pending, st') → part a st q pending st')
include hcut hextract

theorem child_of_cutChild {columns : List Expr}
    (h : cutChild text cutTo extract columns c st = some (q, edges, st')) :
    Child cut part (sentChild text columns) (keptChild text columns) c st q edges st' := by
  unfold cutChild at h
  split at h
  · rename_i kind hex
    simp only [bind_eq_bind, bind_eq_some_iff, Prod.exists, pure_def,
      Option.some.injEq] at h
    obtain ⟨k, st₁, hfrom, hread⟩ := h
    exact .exchange hex (hcut _ _ _ _ hfrom) hread
  · rename_i hex
    exact .inner hex (hextract _ _ _ _ _ h)

theorem child_of_extractChild (h : extractChild cutTo extract c st = some (q, edges, st')) :
    Child cut part id id c st q edges st' := by
  unfold extractChild at h
  split at h
  · rename_i kind hex
    simp only [bind_eq_bind, bind_eq_some_iff, Prod.exists, pure_def,
      Option.some.injEq] at h
    obtain ⟨k, st₁, hfrom, hread⟩ := h
    exact .exchange hex (hcut _ _ _ _ hfrom) hread
  · rename_i hex
    exact .inner hex (hextract _ _ _ _ _ h)

end Children

theorem CutRule.both (rule : CutRule text cut part) (depth : Nat) :
    (∀ a st k st', cutRecursive text depth a st = some (k, st') → cut a st k st') ∧
      ∀ a st q pending st', extractStagePlan text depth a st = some (q, pending, st') →
        part a st q pending st' := by
  induction depth with
  | zero => exact ⟨nofun, nofun⟩
  | succ depth ih =>
    constructor
    · intro a st k st' h
      simp only [cutRecursive, bind_eq_bind, bind_eq_some_iff, Prod.exists,
        pure_def, Option.some.injEq] at h
      obtain ⟨qs, pending, st₁, hchildren, q, hq, hpush⟩ := h
      have through := rule.stage (through_of_mapChildren
        (fun c st q edges st' hc => by exact child_of_cutChild ih.1 ih.2 hc) hchildren) hq
      rw [stageOf, hpush] at through
      exact through
    · intro a st q pending st' h
      unfold extractStagePlan at h
      split at h
      · rename_i hleaf
        cases h
        exact rule.leaf st (List.isEmpty_iff.mp hleaf)
      · simp only [bind_eq_bind, bind_eq_some_iff, Prod.exists, pure_def,
          Option.some.injEq, Prod.mk.injEq] at h
        obtain ⟨qs, pending', st₁, hchildren, q', hq, rfl, rfl, rfl⟩ := h
        exact rule.node (through_of_mapChildren
          (fun c st q edges st' hc => by exact child_of_extractChild ih.1 ih.2 hc) hchildren) hq

theorem CutRule.cutRecursive (rule : CutRule text cut part) {depth : Nat} {a : AnnotatedPlan}
    {st st' : CutState} {k : Nat} (h : LdpCut.cutRecursive text depth a st = some (k, st')) :
    cut a st k st' :=
  (rule.both depth).1 a st k st' h

end Rule

end Leibrix.LdpCutRule
