import Leibrix.LdpReassemble

/-!
# Cutting preserves the query

While cutting goes down a tree, the plans of the nodes below a sort are changed.
The changed tree keeps the operators of the annotated plan as long as the ordering
columns find an output list; where they do not, a join or a set operation loses a
branch and a scan makes the cut panic.
-/

set_option autoImplicit false

namespace Leibrix.LdpCutSound
open SqlAst LdpTypes LdpAnnotate LdpCut LdpStages LdpReassemble List

variable {p q : LogicalPlan} (text : SqlText) (cols : List Expr)

section Heads

variable (items : List SelectItem)

theorem extended_refl : Extended cols items items :=
  ⟨[], by simp, by simp⟩

variable {cols} in
theorem extended_push {items items' : List SelectItem} (h : Extended cols items items')
    {item : SelectItem} (hi : IsHelper cols item) : Extended cols items (items' ++ [item]) := by
  obtain ⟨helpers, hh, rfl⟩ := h
  refine ⟨helpers ++ [item], ?_, by simp⟩
  intro x hx
  rcases mem_append.mp hx with hx | hx
  · exact hh x hx
  · rw [mem_singleton.mp hx]
    exact hi

theorem extended_foldl {add : List SelectItem → Expr → List SelectItem}
    (step : ∀ items col, add items col = items ∨
      add items col = items ++ [aliasedColumn col] ∨ add items col = items ++ [.unnamedExpr col])
    {columns : List Expr} (hc : ∀ col ∈ columns, col ∈ cols) {items items' : List SelectItem}
    (h : Extended cols items items') : Extended cols items (columns.foldl add items') := by
  induction columns generalizing items' with
  | nil => exact h
  | cons col columns ih =>
    refine ih (fun c hc' => hc c (by simp [hc'])) ?_
    have hcol := hc col (by simp)
    rcases step items' col with eq | eq | eq <;> rw [eq]
    · exact h
    · exact extended_push h ⟨col, hcol, .inl rfl⟩
    · exact extended_push h ⟨col, hcol, .inr rfl⟩

variable (col : Expr)

theorem addToProject_cases :
    addToProject items col = items ∨ addToProject items col = items ++ [aliasedColumn col] ∨
      addToProject items col = items ++ [.unnamedExpr col] := by
  unfold addToProject
  split <;> simp

theorem addToAggregate_cases : addToAggregate text items col = items ∨
      addToAggregate text items col = items ++ [aliasedColumn col] ∨
      addToAggregate text items col = items ++ [.unnamedExpr col] := by
  unfold addToAggregate
  split <;> simp

theorem addToWindow_cases : addToWindow text items col = items ∨
      addToWindow text items col = items ++ [aliasedColumn col] ∨
      addToWindow text items col = items ++ [.unnamedExpr col] := by
  unfold addToWindow
  split <;> simp

/-- The same operator, with output lists that may carry helper columns; what a node's plan says
of its inputs may differ, except under a sort or a limit. -/
inductive SameHead : LogicalPlan → LogicalPlan → Prop
  | scan (tableName : String) (aliasName : Option TableAlias) (factor : TableFactor) :
    SameHead (.scan tableName aliasName factor) (.scan tableName aliasName factor)
  | filter (i j : LogicalPlan) (predicate : Expr) :
    SameHead (.filter i predicate) (.filter j predicate)
  | project (i j : LogicalPlan) {items items' : List SelectItem} :
    Extended cols items items' → SameHead (.project i items) (.project j items')
  | aggregate (i j : LogicalPlan) (groupBy : GroupByExpr) {items items' : List SelectItem}
      (having : Option Expr) (groupKeys : List ColumnRef) :
    Extended cols items items' → SameHead (.aggregate i groupBy items having groupKeys)
      (.aggregate j groupBy items' having groupKeys)
  | sort (i : LogicalPlan) (orderBy : List OrderByExpr) :
    SameHead (.sort i orderBy) (.sort i orderBy)
  | limit (i : LogicalPlan) (limit offset : Option Expr) :
    SameHead (.limit i limit offset) (.limit i limit offset)
  | window (i j : LogicalPlan) {items items' : List SelectItem} (partitionKeys : List ColumnRef) :
    Extended cols items items' → SameHead (.window i items partitionKeys)
      (.window j items' partitionKeys)
  | subqueryScan (i j : LogicalPlan) (aliasName : TableAlias) :
    SameHead (.subqueryScan i aliasName) (.subqueryScan j aliasName)
  | join (i j k l : LogicalPlan) (joinOp : JoinOperator) (leftKeys rightKeys : List ColumnRef) :
    SameHead (.join i k joinOp leftKeys rightKeys) (.join j l joinOp leftKeys rightKeys)
  | setOp (i j k l : LogicalPlan) (op : SetOperator) (quantifier : SetQuantifier) :
    SameHead (.setOp i k op quantifier) (.setOp j l op quantifier)

def ordered : LogicalPlan → Bool
  | .sort .. | .limit .. => true
  | _ => false

theorem SameHead.refl (h : ReadFree p) : SameHead cols p p := by
  cases p with
  | exchangeRead => cases h
  | _ => constructor <;> exact extended_refl cols _

variable {cols}

theorem SameHead.takesColumns (h : SameHead cols p q) : takesColumns q = takesColumns p := by
  cases h <;> rfl

variable (h : SameHead cols p q)
include h

theorem SameHead.alias_eq : deriveRelationAlias q = deriveRelationAlias p := by
  cases h <;> rfl

theorem SameHead.eq_of_sortColumns (hq : sortOrderByColumns q ≠ []) : q = p := by
  cases h with
  | sort | limit => rfl
  | _ => simp [sortOrderByColumns] at hq

theorem SameHead.sortColumns : sortOrderByColumns q = sortOrderByColumns p := by
  cases h <;> rfl

theorem SameHead.addColumns {columns : List Expr} (hc : ∀ col ∈ columns, col ∈ cols)
    (ht : columns = [] ∨ LdpStages.takesColumns p ∧ ordered p = false) :
    SameHead cols p (addColumnsToPlan text columns q) := by
  unfold addColumnsToPlan
  split
  · exact h
  · rename_i hne
    obtain ⟨ht, ho⟩ := ht.resolve_left (by simpa using hne)
    cases h with
    | scan | join | setOp => cases ht
    | project i j he => exact .project _ _ (extended_foldl cols addToProject_cases hc he)
    | aggregate i j _ _ _ he =>
      exact .aggregate _ _ _ _ _ (extended_foldl cols (addToAggregate_cases text) hc he)
    | window i j _ he => exact .window _ _ _ (extended_foldl cols (addToWindow_cases text) hc he)
    | sort | limit => cases ho
    | filter => exact .filter _ _ _
    | subqueryScan => exact .subqueryScan _ _ _

theorem SameHead.addColumnsSafe {columns : List Expr} (hc : ∀ col ∈ columns, col ∈ cols)
    {q' : LogicalPlan} (hs : addColumnsToPlanSafe text columns q = some q') :
    SameHead cols p q' := by
  rw [addColumnsToPlanSafe_eq text columns hs]
  refine h.addColumns text hc (.inr ?_)
  unfold addColumnsToPlanSafe at hs
  split at hs
  · cases hs
  · cases h <;> first | exact ⟨rfl, rfl⟩ | cases hs

end Heads

section Trees

/-- A tree with the same shape and labels, whose plans have the same heads. -/
inductive Augmented : AnnotatedPlan → AnnotatedPlan → Prop
  | mk {p q : LogicalPlan} {ann : DistributionAnnotation} {ex : Option Exchange}
      {pre : Option Distribution} {cs ds : List AnnotatedPlan} :
    SameHead cols p q → List.Forall₂ Augmented cs ds →
      Augmented (.mk p ann ex pre cs) (.mk q ann ex pre ds)

/-- The children of each node are those of its plan, and no sort reads a sort or a limit through
an exchange. -/
inductive Faithful : AnnotatedPlan → Prop
  | mk {p : LogicalPlan} {ann : DistributionAnnotation} {ex : Option Exchange}
      {pre : Option Distribution} {cs : List AnnotatedPlan} :
    p.children = cs.map (·.plan) →
      (ordered p → ∀ c ∈ cs, c.exchangeBefore = none ∨ ordered c.plan = false) →
      (∀ c ∈ cs, Faithful c) → Faithful (.mk p ann ex pre cs)

variable {cols} {a b : AnnotatedPlan}

variable (h : Augmented cols a b)
include h

theorem Augmented.sameHead : SameHead cols a.plan b.plan := by
  cases h
  assumption

theorem Augmented.children : List.Forall₂ (Augmented cols) a.children b.children := by
  cases h
  assumption

theorem Augmented.exchangeBefore : b.exchangeBefore = a.exchangeBefore := by
  cases h
  rfl

theorem Augmented.withPlan (hq : SameHead cols a.plan q) : Augmented cols a (b.withPlan q) := by
  cases h with
  | mk _ hcs => exact .mk hq hcs

omit h

theorem Faithful.plans (h : Faithful a) : a.plan.children = a.children.map (·.plan) := by
  cases h
  assumption

theorem Faithful.ordered {c : AnnotatedPlan} (h : Faithful a) (ha : ordered a.plan)
    (hc : c ∈ a.children) (hex : c.exchangeBefore ≠ none) : LdpCutSound.ordered c.plan = false := by
  cases h with
  | mk _ ho _ => exact (ho ha c hc).resolve_left hex

theorem Faithful.child {c : AnnotatedPlan} (h : Faithful a) (hc : c ∈ a.children) : Faithful c := by
  cases h with
  | mk _ _ hcs => exact hcs c hc

mutual

theorem augmented_refl : ∀ {a : AnnotatedPlan}, Closed a → Augmented cols a a
  | .mk _ _ _ _ _, h => .mk (SameHead.refl cols h.here) (augmented_refls fun _ hc => h.child hc)

theorem augmented_refls : ∀ {cs : List AnnotatedPlan}, (∀ c ∈ cs, Closed c) →
    List.Forall₂ (Augmented cols) cs cs
  | [], _ => .nil
  | c::_, h =>
    .cons (augmented_refl (h c (by simp))) (augmented_refls fun d hd => h d (by simp [hd]))

end

variable {columns : List Expr}

theorem augmented_toExchangeChildren (hcols : ∀ col ∈ columns, col ∈ cols)
    (h : Augmented cols a b) :
    Augmented cols a (addOrderByColumnsToExchangeChildren text columns b) := by
  have node : Widening text columns fun b b' => ∀ a, Augmented cols a b → Augmented cols a b' := by
    rintro p q ann ex pre cs ds hq hcs ⟨o, _, _, _, os⟩ (⟨hh, has⟩)
    refine .mk ?_ ?_
    · rcases hq with rfl | hq
      · exact hh
      · exact hh.addColumnsSafe text hcols hq
    · induction hcs generalizing os with
      | nil => exact has
      | cons hcd _ ih =>
        cases has with
        | cons hac has => exact .cons (hcd _ hac) (ih _ has)
  exact node.toExchangeChildren b a h

end Trees

section Restoring

variable {cols : List Expr}

theorem SameHead.reconstruct (h : SameHead cols p q) {images : List LogicalPlan}
    (hi : List.Forall₂ (Restores cols) p.children images) :
    ∃ r, reconstructPlanWithChildren q images = some r ∧ Restores cols p r := by
  cases h with
  | scan => exact ⟨_, rfl, .scan _ _ _⟩
  | filter | project | aggregate | sort | limit | window | subqueryScan =>
    obtain _ | ⟨h1, _ | _⟩ := hi
    exact ⟨_, rfl, by constructor <;> assumption⟩
  | join | setOp =>
    obtain _ | ⟨h1, _ | ⟨h2, _ | _⟩⟩ := hi
    exact ⟨_, rfl, by constructor <;> assumption⟩

theorem SameHead.leaf (h : SameHead cols p q) (hp : p.children = []) :
    q = p ∧ Restores cols p q := by
  cases h with
  | scan => exact ⟨rfl, .scan _ _ _⟩
  | _ => cases hp

variable {r : LogicalPlan}

theorem restores_aliased (h : SameHead cols p q) (hr : Restores cols p r) :
    Restores cols p (aliased q r) := by
  unfold aliased
  split
  · rename_i relationAlias ha
    exact .named relationAlias (h.alias_eq ▸ ha) hr
  · exact hr

theorem restores_restoreOutputColumns (h : SameHead cols p q) (hr : Restores cols p r) :
    Restores cols p (restoreOutputColumns q (sortOrderByColumns q) r) := by
  obtain keep | ⟨hne, original, items, hi, names, allNames, wrap⟩ :=
    restoreOutputColumns_cases q (sortOrderByColumns q)
  · rw [keep]
    exact hr
  · rw [wrap]
    obtain rfl := h.eq_of_sortColumns hne
    exact .restored hne hi names allNames hr

theorem orderColumns_child {c : LogicalPlan} (hc : c ∈ p.children) :
    orderColumns c ⊆ orderColumns p := by
  intro x hx
  cases p <;> simp only [LogicalPlan.children, mem_cons, not_mem_nil, or_false] at hc <;>
    simp only [orderColumns, mem_append] <;> grind

theorem ordered_of_sortColumns (h : sortOrderByColumns p ≠ []) : ordered p := by
  cases p <;> first | rfl | simp [sortOrderByColumns] at h

theorem sortColumns_subset : sortOrderByColumns p ⊆ orderColumns p := by
  intro x hx
  unfold sortOrderByColumns at hx
  split at hx
  · exact mem_append_left _ hx
  · exact mem_append_left _ hx
  · cases hx

mutual

theorem treeDepth_child : ∀ {a c : AnnotatedPlan}, c ∈ a.children → treeDepth c < treeDepth a
  | .mk _ _ _ _ cs, c, hc => by
    have := treeDepths_mem (show c ∈ cs from hc)
    simp only [treeDepth]
    omega

theorem treeDepths_mem : ∀ {cs : List AnnotatedPlan} {c : AnnotatedPlan}, c ∈ cs →
    treeDepth c ≤ treeDepths cs
  | d::ds, c, hc => by
    simp only [treeDepths]
    rcases mem_cons.mp hc with rfl | hc
    · exact Nat.le_max_left _ _
    · exact (treeDepths_mem hc).trans (Nat.le_max_right _ _)

end

theorem allCuttable_iff {cs : List AnnotatedPlan} :
    allCuttable cs ↔ ∀ c ∈ cs, cuttable c.exchangeBefore.isSome c := by
  induction cs with
  | nil => simp [allCuttable]
  | cons c cs ih => simp [allCuttable, ih]

theorem cuttable_iff {root : Bool} {a : AnnotatedPlan} :
    cuttable root a ↔
      (root → sortOrderByColumns a.plan = [] ∨
        ∀ c ∈ a.children, c.exchangeBefore = none ∨ takesColumns c.plan) ∧
      ∀ c ∈ a.children, cuttable c.exchangeBefore.isSome c := by
  obtain ⟨p, ann, ex, pre, cs⟩ := a
  simp only [cuttable, Bool.and_eq_true, allCuttable_iff, AnnotatedPlan.plan,
    AnnotatedPlan.children]
  refine and_congr_left fun _ => ?_
  cases root <;> simp [List.isEmpty_iff]

theorem allImages_restores {f : AnnotatedPlan → Option LogicalPlan}
    {cs ds : List AnnotatedPlan} (hds : List.Forall₂ (Augmented cols) cs ds)
    (h : ∀ c d, c ∈ cs → Augmented cols c d → ∃ r, f d = some r ∧ Restores cols c.plan r) :
    ∃ images, allImages f ds = some images ∧
      List.Forall₂ (Restores cols) (cs.map (·.plan)) images := by
  induction hds with
  | nil => exact ⟨[], rfl, .nil⟩
  | cons hd _ ih =>
    obtain ⟨r, hr, restores⟩ := h _ _ (by simp) hd
    obtain ⟨images, himages, rest⟩ := ih fun c d hc => h c d (by simp [hc])
    exact ⟨r::images, by simp [allImages, hr, himages], .cons restores rest⟩

variable (cols) in
/-- A node as cutting meets it: `b` is what has become of the node `a` of the annotated plan. -/
structure Met (a b : AnnotatedPlan) : Prop where
  faithful : Faithful a
  closed : Closed a
  columns : orderColumns a.plan ⊆ cols
  augmented : Augmented cols a b

variable {a b c d : AnnotatedPlan}

variable (h : Met cols a b)
include h

theorem Met.child (hc : c ∈ a.children) (hd : Augmented cols c d) : Met cols c d where
  faithful := h.faithful.child hc
  closed := h.closed.child hc
  columns := by
    refine Subset.trans (orderColumns_child ?_) h.columns
    rw [h.faithful.plans]
    exact mem_map_of_mem hc
  augmented := hd

theorem Met.leaf (hleaf : b.children.isEmpty) :
    a.children = [] ∧ b.plan = a.plan ∧ Restores cols a.plan b.plan := by
  have hchildren : a.children = [] := by
    have children := h.augmented.children
    rw [List.isEmpty_iff.mp hleaf] at children
    exact forall₂_nil_right_iff.mp children
  exact ⟨hchildren, h.augmented.sameHead.leaf (by rw [h.faithful.plans, hchildren]; rfl)⟩

theorem Met.sortColumns_eq : sortOrderByColumns b.plan = sortOrderByColumns a.plan :=
  h.augmented.sameHead.sortColumns

theorem Met.sortColumns : ∀ col ∈ sortOrderByColumns b.plan, col ∈ cols := by
  intro col hcol
  rw [h.sortColumns_eq] at hcol
  exact h.columns (sortColumns_subset hcol)

theorem Met.exchangedChild (hc : c ∈ a.children) (hd : Augmented cols c d)
    (hex : c.exchangeBefore ≠ none) (takes : sortOrderByColumns a.plan = [] ∨ takesColumns c.plan) :
    Met cols c (d.withPlan (addColumnsToPlan text (sortOrderByColumns b.plan) d.plan)) := by
  refine { h.child hc hd with
    augmented := hd.withPlan (hd.sameHead.addColumns text h.sortColumns ?_) }
  rw [h.sortColumns_eq]
  by_cases hcols : sortOrderByColumns a.plan = []
  · exact .inl hcols
  · exact .inr ⟨takes.resolve_left hcols, h.faithful.ordered (ordered_of_sortColumns hcols) hc hex⟩

theorem Met.innerChild (hc : c ∈ a.children) (hd : Augmented cols c d) :
    Met cols c
      (if !(sortOrderByColumns b.plan).isEmpty && hasExchangeInDescendants d then
        addOrderByColumnsToExchangeChildren text (sortOrderByColumns b.plan) d else d) := by
  refine { h.child hc hd with augmented := ?_ }
  split
  · exact augmented_toExchangeChildren text h.sortColumns hd
  · exact hd

omit h

mutual

theorem stageImage_restores : ∀ (depth : Nat) {a b : AnnotatedPlan}, Met cols a b →
    cuttable true a → treeDepth a ≤ depth →
      ∃ r, stageImage text depth b = some r ∧ Restores cols a.plan r
  | 0, .mk _ _ _ _ _, _, _, _, hdepth => by simp [treeDepth] at hdepth
  | depth + 1, a, b, h, hcut, hdepth => by
    obtain ⟨takes, below⟩ := cuttable_iff.mp hcut
    obtain ⟨images, himages, restored⟩ := allImages_restores h.augmented.children
      (f := cutChildImage text (stageImage text depth) (fragmentImage text depth)
        (sortOrderByColumns b.plan)) (by
      intro c d hc hd
      have smaller : treeDepth c ≤ depth := by
        have := treeDepth_child hc
        omega
      have hcuttable := below c hc
      cases hex : c.exchangeBefore with
      | some kind =>
        rw [hex] at hcuttable
        have takes := (takes rfl).imp_right fun t => (t c hc).resolve_left (by simp [hex])
        obtain ⟨r, hr, restores⟩ := stageImage_restores depth
          (h.exchangedChild text hc hd (by simp [hex]) takes)
          hcuttable smaller
        rw [← hd.exchangeBefore] at hex
        exact ⟨_, by simp [cutChildImage, hex, hr], restores_aliased hd.sameHead restores⟩
      | none =>
        rw [hex] at hcuttable
        obtain ⟨r, hr, restores⟩ := fragmentImage_restores depth (h.innerChild text hc hd)
          hcuttable smaller
        rw [← hd.exchangeBefore] at hex
        exact ⟨r, by simp only [cutChildImage, hex, hr], restores⟩)
    rw [← h.faithful.plans] at restored
    obtain ⟨r, hr, restores⟩ := h.augmented.sameHead.reconstruct restored
    exact ⟨_, by simp [stageImage, himages, hr],
      restores_restoreOutputColumns h.augmented.sameHead restores⟩

theorem fragmentImage_restores : ∀ (depth : Nat) {a b : AnnotatedPlan}, Met cols a b →
    cuttable false a → treeDepth a ≤ depth →
      ∃ r, fragmentImage text depth b = some r ∧ Restores cols a.plan r
  | 0, .mk _ _ _ _ _, _, _, _, hdepth => by simp [treeDepth] at hdepth
  | depth + 1, a, b, h, hcut, hdepth => by
    obtain ⟨-, below⟩ := cuttable_iff.mp hcut
    unfold fragmentImage
    split
    · rename_i hleaf
      exact ⟨_, rfl, (h.leaf hleaf).2.2⟩
    obtain ⟨images, himages, restored⟩ := allImages_restores h.augmented.children
      (f := extractChildImage (stageImage text depth) (fragmentImage text depth)) (by
      intro c d hc hd
      have smaller : treeDepth c ≤ depth := by
        have := treeDepth_child hc
        omega
      have hcuttable := below c hc
      cases hex : c.exchangeBefore with
      | some kind =>
        rw [hex] at hcuttable
        obtain ⟨r, hr, restores⟩ := stageImage_restores depth (h.child hc hd) hcuttable smaller
        rw [← hd.exchangeBefore] at hex
        exact ⟨_, by simp [extractChildImage, hex, hr], restores_aliased hd.sameHead restores⟩
      | none =>
        rw [hex] at hcuttable
        obtain ⟨r, hr, restores⟩ := fragmentImage_restores depth (h.child hc hd) hcuttable smaller
        rw [← hd.exchangeBefore] at hex
        exact ⟨r, by simp only [extractChildImage, hex, hr], restores⟩)
    rw [← h.faithful.plans] at restored
    obtain ⟨r, hr, restores⟩ := h.augmented.sameHead.reconstruct restored
    exact ⟨r, by simp [himages, hr], restores⟩

end

end Restoring

end Leibrix.LdpCutSound
