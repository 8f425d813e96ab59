import Leibrix.PlanBuilder
import Leibrix.LdpExchange
import Mathlib.Logic.Relation

/-!
# Calls in a SELECT list

An aggregate call makes its SELECT an aggregate, and a call with OVER makes it a window,
wherever the call stands in an expression. The builder looks for both by walking through
operators, parentheses and CASE; every other expression ends the walk.
-/

set_option autoImplicit false

namespace Leibrix.SelectCalls
open SqlAst SqlScopes LdpTypes LdpExchange PlanBuilder List

section Occurrence

def nodeExpr : Node → Option Expr
  | .expr e => some e
  | _ => none

/-- The expressions directly below an expression. A subquery is not one of them. -/
def operands (e : Expr) : List Expr := (exprNodes rootCtx e).filterMap fun place => nodeExpr place.2

def openOperands : Expr → List Expr
  | .binaryOp left _ right => [left, right]
  | .unaryOp _ inner | .nested inner => [inner]
  | .case operand conditions elseResult =>
    operand.toList ++ (conditions.flatMap fun c => [c.1, c.2]) ++ elseResult.toList
  | _ => []

/-- `d` is found in `e` by going from an expression to its operands. -/
def Below (sub : Expr → List Expr) (e d : Expr) : Prop :=
  Relation.ReflTransGen (fun a b => b ∈ sub a) e d

def Calls (sub : Expr → List Expr) (p : Function → Prop) (e : Expr) : Prop :=
  ∃ f, Below sub e (.function f) ∧ p f

variable {sub : Expr → List Expr} {p : Function → Prop}

theorem calls_step (e : Expr) :
    Calls sub p e ↔ (∃ f, e = .function f ∧ p f) ∨ ∃ d ∈ sub e, Calls sub p d := by
  constructor
  · rintro ⟨f, hf, hp⟩
    rcases hf.cases_head with rfl | ⟨d, hd, hf⟩
    · exact .inl ⟨f, rfl, hp⟩
    · exact .inr ⟨d, hd, f, hf, hp⟩
  · rintro (⟨f, rfl, hp⟩ | ⟨d, hd, f, hf, hp⟩)
    · exact ⟨f, .refl, hp⟩
    · exact ⟨f, .head hd hf, hp⟩

variable {sub' : Expr → List Expr}

theorem Below.mono (h : ∀ e, sub e ⊆ sub' e) {e d : Expr} (hd : Below sub e d) : Below sub' e d :=
  Relation.ReflTransGen.mono (fun a _ hb => h a hb) _ _ hd

theorem Calls.mono (h : ∀ e, sub e ⊆ sub' e) {e : Expr} (hc : Calls sub p e) : Calls sub' p e := by
  obtain ⟨f, hf, hp⟩ := hc
  exact ⟨f, hf.mono h, hp⟩

theorem openOperands_subset (e : Expr) : openOperands e ⊆ operands e := by
  cases e <;> simp [openOperands, operands, exprNodes, exprs, nodeExpr, filterMap_map,
    Function.comp_def]

theorem sizeOf_openOperands {e d : Expr} (h : d ∈ openOperands e) : sizeOf d < sizeOf e := by
  cases e with
  | binaryOp left op right =>
    simp only [openOperands, mem_cons, not_mem_nil, or_false] at h
    rcases h with rfl | rfl <;> simp <;> omega
  | unaryOp op inner | nested inner =>
    rw [mem_singleton.mp h]
    simp +arith
  | case operand conditions elseResult =>
    simp only [openOperands, mem_append, Option.mem_toList, mem_flatMap,
      mem_cons, not_mem_nil, or_false] at h
    rcases h with (rfl | ⟨c, hc, rfl | rfl⟩) | rfl
    · simp; omega
    · have := sizeOf_lt_of_mem hc
      have : sizeOf c.1 < sizeOf c := by
        obtain ⟨condition, result⟩ := c
        change sizeOf condition < 1 + sizeOf condition + sizeOf result
        omega
      simp; omega
    · have := sizeOf_lt_of_mem hc
      have : sizeOf c.2 < sizeOf c := by
        obtain ⟨condition, result⟩ := c
        change sizeOf result < 1 + sizeOf condition + sizeOf result
        omega
      simp; omega
    · simp; omega
  | _ => cases h

theorem walk_iff {has : Expr → Bool}
    (step : ∀ e, has e = true ↔ (∃ f, e = .function f ∧ p f) ∨ ∃ d ∈ openOperands e, has d = true)
    (e : Expr) : has e = true ↔ Calls openOperands p e := by
  rw [step, calls_step]
  refine or_congr_right (exists_congr fun d => and_congr_right fun hd => ?_)
  have := sizeOf_openOperands hd
  exact walk_iff step d
termination_by sizeOf e

end Occurrence

def AggregateCall (f : Function) : Prop := f.over = none ∧ isAggregateFunctionName f.name = true

def WindowCall (f : Function) : Prop := f.over.isSome = true

theorem optionHasWindow_eq (e : Option Expr) : optionHasWindow e = e.toList.any exprHasWindow := by
  cases e <;> simp [optionHasWindow]

variable (l : List (Expr × Expr))

theorem conditionsHaveWindow_eq :
    conditionsHaveWindow l = (l.flatMap fun c => [c.1, c.2]).any exprHasWindow := by
  induction l with
  | nil => rfl
  | cons c l ih => simp [conditionsHaveWindow, ih, Bool.or_assoc]

theorem exprHasWindow_step (e : Expr) : exprHasWindow e = true ↔
    (∃ f, e = .function f ∧ WindowCall f) ∨ ∃ d ∈ openOperands e, exprHasWindow d = true := by
  cases e with
  | function f =>
    obtain ⟨_, _, _, _, _⟩ := f
    simp [exprHasWindow, openOperands, WindowCall]
  | case operand conditions elseResult =>
    simp only [exprHasWindow, optionHasWindow_eq, conditionsHaveWindow_eq, ← any_append,
      any_eq_true, openOperands, reduceCtorEq, false_and, exists_false, false_or]
  | _ => simp [exprHasWindow, openOperands]

theorem optionHasAggregate_eq (e : Option Expr) :
    optionHasAggregate e = e.toList.any exprHasAggregate := by
  cases e <;> simp [optionHasAggregate]

theorem conditionsHaveAggregate_eq :
    conditionsHaveAggregate l = (l.flatMap fun c => [c.1, c.2]).any exprHasAggregate := by
  induction l with
  | nil => rfl
  | cons c l ih => simp [conditionsHaveAggregate, ih, Bool.or_assoc]

theorem exprHasAggregate_step (e : Expr) : exprHasAggregate e = true ↔
    (∃ f, e = .function f ∧ AggregateCall f) ∨
      ∃ d ∈ openOperands e, exprHasAggregate d = true := by
  cases e with
  | function f =>
    obtain ⟨_, _, _, _, _⟩ := f
    simp [exprHasAggregate, openOperands, AggregateCall]
  | case operand conditions elseResult =>
    simp only [exprHasAggregate, optionHasAggregate_eq, conditionsHaveAggregate_eq,
      ← any_append, any_eq_true, openOperands, reduceCtorEq, false_and, exists_false,
      false_or]
  | _ => simp [exprHasAggregate, openOperands]

/-- Some expression of the list has such a call. -/
def ListCalls (sub : Expr → List Expr) (p : Function → Prop) (items : List SelectItem) : Prop :=
  ∃ e ∈ items.filterMap itemExpr, Calls sub p e

theorem any_item_iff {has : Expr → Bool} {p : Function → Prop}
    (walk : ∀ e, has e = true ↔ Calls openOperands p e) (items : List SelectItem) :
    items.any (fun item => ((itemExpr item).map has).getD false) = true ↔
      ListCalls openOperands p items := by
  simp only [any_eq_true, ListCalls, mem_filterMap]
  constructor
  · rintro ⟨item, hitem, h⟩
    cases he : itemExpr item with
    | none => simp [he] at h
    | some e => exact ⟨e, ⟨item, hitem, he⟩, (walk e).mp (by simpa [he] using h)⟩
  · rintro ⟨e, ⟨item, hitem, he⟩, h⟩
    exact ⟨item, hitem, by simpa [he] using (walk e).mpr h⟩

variable (items : List SelectItem)

theorem any_hasWindow_iff :
    items.any selectItemHasWindow = true ↔ ListCalls openOperands WindowCall items :=
  any_item_iff (walk_iff exprHasWindow_step) items

theorem any_hasAggregate_iff :
    items.any selectItemHasAggregate = true ↔ ListCalls openOperands AggregateCall items :=
  any_item_iff (walk_iff exprHasAggregate_step) items

def IsAggregate : LogicalPlan → Prop
  | .aggregate .. => True
  | _ => False

def IsWindow : LogicalPlan → Prop
  | .window .. => True
  | _ => False

/-- What the calls of a SELECT list ask of the plan's node: an aggregate, or a window, or an
aggregate that has all its input on one worker. -/
structure Recognised (items : List SelectItem) (plan : LogicalPlan) : Prop where
  aggregate : ListCalls operands AggregateCall items → IsAggregate plan
  window : ListCalls operands WindowCall items →
    IsWindow plan ∨ IsAggregate plan ∧ getLogicalPlanRequirements plan = [.singleton]

/-- The SELECT list does not hide its calls: an aggregate call goes with a GROUP BY clause or with
an open aggregate call, and a call with OVER goes with one of these or with an open call with OVER,
and never with grouping columns. -/
structure CallsOpen (groupBy : GroupByExpr) (items : List SelectItem) : Prop where
  aggregate : ListCalls operands AggregateCall items →
    hasGroupBy groupBy = true ∨ ListCalls openOperands AggregateCall items
  window : ListCalls operands WindowCall items → extractGroupKeys groupBy = [] ∧
    (hasGroupBy groupBy = true ∨ ListCalls openOperands AggregateCall items ∨
      ListCalls openOperands WindowCall items)

theorem extractGroupKeys_of_not {groupBy : GroupByExpr} (h : ¬hasGroupBy groupBy = true) :
    extractGroupKeys groupBy = [] := by
  cases groupBy with
  | all => rfl
  | expressions exprs _ =>
    cases exprs with
    | nil => rfl
    | cons => exact absurd rfl h

theorem withProjection_recognised_iff (groupBy : GroupByExpr) (having : Option Expr)
    (input : LogicalPlan) :
    Recognised items (withProjection items groupBy having input) ↔ CallsOpen groupBy items := by
  have shownAggregate := any_hasAggregate_iff items
  have shownWindow := any_hasWindow_iff items
  unfold withProjection
  split
  next h =>
    -- an aggregate; what can be wrong is that it spreads its groups
    rw [Bool.or_eq_true, shownAggregate] at h
    refine ⟨fun r => ⟨fun _ => h, fun hw => ⟨?_, ?_⟩⟩, fun c => ⟨fun _ => trivial, fun hw => ?_⟩⟩
    · obtain hwin | ⟨-, hreq⟩ := r.window hw
      · exact hwin.elim
      · cases hkeys : extractGroupKeys groupBy with
        | nil => rfl
        | cons => simp [getLogicalPlanRequirements, hkeys] at hreq
    · rcases h with h | h
      · exact .inl h
      · exact .inr (.inl h)
    · exact .inr ⟨trivial, by simp [getLogicalPlanRequirements, (c.window hw).1]⟩
  next h =>
    rw [Bool.or_eq_true, shownAggregate, not_or] at h
    obtain ⟨ungrouped, hidden⟩ := h
    split
    next hw =>
      rw [shownWindow] at hw
      refine ⟨fun r => ⟨fun ha => (r.aggregate ha).elim, fun _ => ?_⟩,
        fun c => ⟨fun ha => ?_, fun _ => .inl trivial⟩⟩
      · exact ⟨extractGroupKeys_of_not ungrouped, .inr (.inr hw)⟩
      · rcases c.aggregate ha with h | h
        · exact absurd h ungrouped
        · exact absurd h hidden
    next hw =>
      rw [shownWindow] at hw
      refine ⟨fun r => ⟨fun ha => (r.aggregate ha).elim, fun hwin => ?_⟩,
        fun c => ⟨fun ha => ?_, fun hwin => ?_⟩⟩
      · obtain h | ⟨h, -⟩ := r.window hwin <;> exact h.elim
      · rcases c.aggregate ha with h | h
        · exact absurd h ungrouped
        · exact absurd h hidden
      · rcases (c.window hwin).2 with h | h | h
        · exact absurd h ungrouped
        · exact absurd h hidden
        · exact absurd h hw

theorem buildSelect_eq_ok {text : PlanText}
    {resolve : CteMap → ObjectName → Option (Build LogicalPlan)} {map : CteMap} {select : Select}
    {plan : LogicalPlan} (h : buildSelect text resolve map select = .ok plan) :
    ∃ source, buildFromClause text resolve map select.from = .ok source ∧
      withProjection select.projection select.groupBy select.having
        (withSelection select.selection source) = plan := by
  obtain ⟨_, _, «from», _, _, _, _, _⟩ := select
  rw [buildSelect] at h
  obtain ⟨source, hsource, heq⟩ := bind_eq_ok.mp h
  exact ⟨source, hsource, pure_eq_ok.mp heq⟩

/-- The calls of a SELECT list are recognised exactly if the list does not hide them. -/
theorem calls_recognised_iff (text : PlanText)
    (resolve : CteMap → ObjectName → Option (Build LogicalPlan)) (map : CteMap) (select : Select)
    {plan : LogicalPlan} (h : buildSelect text resolve map select = .ok plan) :
    Recognised select.projection plan ↔ CallsOpen select.groupBy select.projection := by
  obtain ⟨source, -, rfl⟩ := buildSelect_eq_ok h
  exact withProjection_recognised_iff _ _ _ _

def column (name : String) : Expr := .identifier ⟨name, none⟩

def call (name : String) (arg : Expr) (window : Option WindowType) : Expr :=
  .function ⟨[.identifier ⟨name, none⟩], .list [.unnamed (.expr arg)], none, [], window⟩

def tableNamed (name : String) : TableFactor := .table [.identifier ⟨name, none⟩] none none

/-- `SELECT items FROM t`. -/
def selectFrom (items : List SelectItem) (groupBy : GroupByExpr) : Select :=
  ⟨none, items, [⟨tableNamed "t", []⟩], none, groupBy, none, [], none⟩

def plainText : PlanText := ⟨id, fun _ => "", fun _ => ""⟩

def noCtes : CteMap → ObjectName → Option (Build LogicalPlan) := fun _ _ => none

/-- `1 + sum(a)`. -/
def addedSum : List SelectItem :=
  [.unnamedExpr (.binaryOp (.value (.number "1")) (.other "+") (call "sum" (column "a") none))]

/-- `SELECT 1 + sum(a) FROM t` has all rows of `t` on one worker. -/
theorem calls_recognised_iff_sum :
    ∃ plan, buildSelect plainText noCtes [] (selectFrom addedSum (.expressions [] [])) = .ok plan ∧
      ListCalls operands AggregateCall addedSum ∧ Recognised addedSum plan := by
  have shown : ListCalls openOperands AggregateCall addedSum :=
    ⟨_, mem_cons_self .., _, .single (mem_cons_of_mem _ (mem_cons_self ..)), rfl,
      by decide⟩
  refine ⟨_, rfl, ?_, (calls_recognised_iff plainText noCtes []
    (selectFrom addedSum (.expressions [] [])) rfl).mpr ⟨fun _ => .inr shown, fun _ => ?_⟩⟩
  · obtain ⟨e, he, hcalls⟩ := shown
    exact ⟨e, he, hcalls.mono openOperands_subset⟩
  · exact ⟨rfl, .inr (.inl shown)⟩

/-- `SELECT CAST(sum(a) AS BIGINT) FROM t` is planned as a projection, which every worker runs on
its own rows. -/
theorem cast_hides_sum :
    ∃ plan, buildSelect plainText noCtes [] (selectFrom
        [.unnamedExpr (.cast (call "sum" (column "a") none) (.other "BIGINT"))]
        (.expressions [] [])) = .ok plan ∧
      getLogicalPlanRequirements plan = [.any] ∧
      ¬Recognised [.unnamedExpr (.cast (call "sum" (column "a") none) (.other "BIGINT"))] plan := by
  refine ⟨_, rfl, rfl, fun r => r.aggregate ?_⟩
  exact ⟨_, mem_cons_self .., _, .single (mem_cons_self ..), rfl, by decide⟩

end Leibrix.SelectCalls
