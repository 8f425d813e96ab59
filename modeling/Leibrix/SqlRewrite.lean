import Leibrix.SqlTransformer
import Leibrix.SqlScopes

/-!
# The rewriting pass, place by place

The pass keeps the shape of a query. The places below a node stay the same, in
the same order, except below a table it replaces; their contexts change only in
what replaced tables are called. What the pass does to a whole query follows by
induction along the path to a place.
-/

set_option autoImplicit false

namespace Leibrix.SqlRewrite
open SqlAst SqlInterval SqlAnalyzer SqlTransformer SqlScopes List

def renameItem (macroOf : String → Option String) : FromItem → FromItem
  | .table true name =>
    match macroOf name with
    | some m => .function m
    | none => .table true name
  | item => item

def renameCtx (macroOf : String → Option String) (ctx : Ctx) : Ctx :=
  { ctx with frames := ctx.frames.map (·.map (renameItem macroOf)) }

variable (names : String → Bool)

def replaced (ctx : Ctx) : Node → Bool
  | .tableFactor (.table name _ _) => ctx.visited && names (extractTableName name)
  | _ => false

def replacedAbove : Ctx → Node → List Nat → Bool
  | _, _, [] => false
  | ctx, node, i::path =>
    replaced names ctx node ||
      match (children ctx node)[i]? with
      | some (ctx', child) => replacedAbove ctx' child path
      | none => false

section
variable {D : Type} [LinearOrder D] (c : Chrono D) (ρ : Replacements)

def macroOf (name : String) : Option String := (ρ.lookup name).map (·.1.macroName)

def rewriteNode : Node → Node
  | .query query => .query (rewriteQuery c ρ query)
  | .setExpr setExpr => .setExpr (rewriteSetExpr c ρ setExpr)
  | .select select => .select (rewriteSelect c ρ select)
  | .tableWithJoins twj => .tableWithJoins (rewriteTableWithJoins c ρ twj)
  | .tableFactor factor => .tableFactor (rewriteTableFactor c ρ factor)
  | .expr e => .expr (rewriteExprSubqueries c ρ e)
  | .qualifiedWildcard name => .qualifiedWildcard name

def rewritePlace (place : Ctx × Node) : Ctx × Node :=
  (renameCtx (macroOf ρ) place.1,
   if place.1.visited then rewriteNode c ρ place.2 else place.2)

def has (name : String) : Bool := (ρ.lookup name).isSome

variable {c ρ}

theorem renameItem_orAlias (μ : String → Option String) (item : FromItem) (a : Option TableAlias) :
    renameItem μ (item.orAlias a) = (renameItem μ item).orAlias a := by
  cases a <;> rfl

variable {name : ObjectName} {a : Option TableAlias}

variable {args : Option (List FunctionArg)}

theorem rewriteTableFactor_replaced {r : RegisteredDataset × DateRange}
    (h : ρ.lookup (extractTableName name) = some r) :
    rewriteTableFactor c ρ (.table name a args) = createMacroCall c r.1 r.2 a := by
  rw [rewriteTableFactor, h]

theorem rewriteTableFactor_kept (h : ρ.lookup (extractTableName name) = none) :
    rewriteTableFactor c ρ (.table name a args) = .table name a args := by
  rw [rewriteTableFactor, h]

theorem joinedItems_rewrite (twj : TableWithJoins) :
    joinedItems true (rewriteTableWithJoins c ρ twj) =
      (joinedItems true twj).map (renameItem (macroOf ρ)) := by
  apply joinedItems.induct
    (fun factor => factorItems true (rewriteTableFactor c ρ factor) =
      (factorItems true factor).map (renameItem (macroOf ρ)))
    (fun twj => joinedItems true (rewriteTableWithJoins c ρ twj) =
      (joinedItems true twj).map (renameItem (macroOf ρ)))
    (fun joins => joinItems true (rewriteJoins c ρ joins) =
      (joinItems true joins).map (renameItem (macroOf ρ)))
  case case2 =>
    intro name a args
    cases h : ρ.lookup (extractTableName name) with
    | none =>
      rw [rewriteTableFactor_kept h, factorItems, map_singleton, renameItem_orAlias]
      simp [renameItem, macroOf, h]
    | some r =>
      have hm : macroOf ρ (extractTableName name) = some r.1.macroName := by simp [macroOf, h]
      rw [rewriteTableFactor_replaced h, createMacroCall, factorItems, factorItems,
        map_singleton, renameItem_orAlias]
      simp only [renameItem, hm]
      rfl
  all_goals
    intros
    simp_all [rewriteTableFactor, rewriteTableWithJoins, rewriteJoins, factorItems, joinedItems,
      joinItems, renameItem_orAlias]
  all_goals rfl

theorem joinedItems_skipped (μ : String → Option String) (twj : TableWithJoins) :
    (joinedItems false twj).map (renameItem μ) = joinedItems false twj := by
  apply joinedItems.induct
    (fun factor => (factorItems false factor).map (renameItem μ) = factorItems false factor)
    (fun twj => (joinedItems false twj).map (renameItem μ) = joinedItems false twj)
    (fun joins => (joinItems false joins).map (renameItem μ) = joinItems false joins)
  all_goals
    intros
    simp_all [factorItems, joinedItems, joinItems, renameItem_orAlias]
  all_goals rfl

/-! ## Contexts -/

@[simp]
theorem renameCtx_ctes (μ : String → Option String) (ctx : Ctx) :
    (renameCtx μ ctx).ctes = ctx.ctes := rfl

@[simp]
theorem skipped_visited (ctx : Ctx) : ctx.skipped.visited = false := rfl

variable (μ : String → Option String) (ctx : Ctx)
include μ ctx

@[simp]
theorem skipped_renameCtx : (renameCtx μ ctx).skipped = renameCtx μ ctx.skipped := rfl

@[simp]
theorem withCtes_renameCtx (ctes : List String) :
    (renameCtx μ ctx).withCtes ctes = renameCtx μ (ctx.withCtes ctes) := rfl

@[simp]
theorem inDerived_renameCtx (lateral : Bool) :
    (renameCtx μ ctx).inDerived lateral = renameCtx μ (ctx.inDerived lateral) := by
  cases lateral <;> simp [Ctx.inDerived, renameCtx]

omit μ ctx

@[simp]
theorem withCtes_visited (ctx : Ctx) (ctes : List String) :
    (ctx.withCtes ctes).visited = ctx.visited := rfl

@[simp]
theorem inDerived_visited (ctx : Ctx) (lateral : Bool) :
    (ctx.inDerived lateral).visited = ctx.visited := by
  cases lateral <;> rfl

variable {ctx : Ctx} {node : Node}

/-- What the pass makes of a part of a query that it meets in the context. -/
def rewriteIn {α : Type} (ctx : Ctx) (rewrite : α → α) : α → α :=
  if ctx.visited then rewrite else id

theorem inSelect_rewrite («from» : List TableWithJoins) :
    (renameCtx (macroOf ρ) ctx).inSelect («from».map (rewriteIn ctx (rewriteTableWithJoins c ρ))) =
      renameCtx (macroOf ρ) (ctx.inSelect «from») := by
  cases hv : ctx.visited <;>
    simp [Ctx.inSelect, renameCtx, rewriteIn, hv, flatMap_map, map_flatMap,
      joinedItems_rewrite, joinedItems_skipped]

/-! ## Places below a node -/

theorem rewritePlace_skipped (hv : ctx.visited = false) (node : Node) :
    rewritePlace c ρ (ctx, node) = (renameCtx (macroOf ρ) ctx, node) := by
  simp [rewritePlace, hv]

theorem rewritePlace_visited (hv : ctx.visited = true) (node : Node) :
    rewritePlace c ρ (ctx, node) = (renameCtx (macroOf ρ) ctx, rewriteNode c ρ node) := by
  simp [rewritePlace, hv]

attribute [local simp] rewriteIn rewritePlace rewriteNode

theorem exprs_rewrite (es : List Expr) : (exprs ctx es).map (rewritePlace c ρ) =
    exprs (renameCtx (macroOf ρ) ctx) (es.map (rewriteIn ctx (rewriteExprSubqueries c ρ))) := by
  cases hv : ctx.visited <;>
    simp [exprs, Function.comp_def, hv]

theorem rewriteOptExpr_toList (e : Option Expr) :
    (rewriteOptExpr c ρ e).toList = e.toList.map (rewriteExprSubqueries c ρ) := by
  cases e <;> rfl

theorem rewriteArgs_eq_map (args : List FunctionArg) :
    rewriteArgs c ρ args = args.map (rewriteArg c ρ) := by
  induction args with
  | nil => rfl
  | cons arg args ih => rw [rewriteArgs, ih, map_cons]

theorem rewriteProjection_eq_map (items : List SelectItem) :
    rewriteProjection c ρ items = items.map (rewriteSelectItem c ρ) := by
  induction items with
  | nil => rfl
  | cons item items ih => rw [rewriteProjection, ih, map_cons]

theorem rewriteFrom_eq_map («from» : List TableWithJoins) :
    rewriteFrom c ρ «from» = «from».map (rewriteTableWithJoins c ρ) := by
  induction «from» with
  | nil => rfl
  | cons twj rest ih => rw [rewriteFrom, ih, map_cons]

theorem argNodes_rewrite (arg : FunctionArg) : (argNodes ctx arg).map (rewritePlace c ρ) =
    argNodes (renameCtx (macroOf ρ) ctx) (rewriteIn ctx (rewriteArg c ρ) arg) := by
  have expr : ∀ (ctx : Ctx) (arg : FunctionArgExpr),
      (argExprNodes ctx arg).map (rewritePlace c ρ) =
        argExprNodes (renameCtx (macroOf ρ) ctx) (rewriteIn ctx (rewriteArgExpr c ρ) arg) := by
    intro ctx arg
    cases hv : ctx.visited <;> cases arg <;>
      simp [argExprNodes, hv, rewriteArgExpr]
  cases hv : ctx.visited <;> cases arg <;>
    simp [argNodes, expr, hv, rewriteArg]

attribute [local simp] exprs_rewrite argNodes_rewrite rewriteSetExpr

theorem functionNodes_rewrite (func : Function) :
    (functionNodes ctx func).map (rewritePlace c ρ) =
      functionNodes (renameCtx (macroOf ρ) ctx) (rewriteIn ctx (rewriteFunction c ρ) func) := by
  obtain ⟨name, args, filter, withinGroup, window⟩ := func
  cases hv : ctx.visited <;> cases args <;>
    simp [functionNodes, rewriteFunction, rewriteFunctionArguments, argumentsNodes, map_flatMap,
      flatMap_map, rewriteArgs_eq_map, hv]

theorem exprNodes_rewrite (e : Expr) : (exprNodes ctx e).map (rewritePlace c ρ) =
    exprNodes (renameCtx (macroOf ρ) ctx) (rewriteIn ctx (rewriteExprSubqueries c ρ) e) := by
  cases hv : ctx.visited <;> cases e <;>
    simp [exprNodes, rewriteExprSubqueries, hv, functionNodes_rewrite, rewriteOptExpr_toList]

theorem cteNames_rewrite (env : List String) (ctes : List Cte) :
    cteNames env (rewriteCtes c ρ ctes) = cteNames env ctes := by
  induction ctes generalizing env with
  | nil => rfl
  | cons cte ctes ih =>
    obtain ⟨name, query⟩ := cte
    rw [rewriteCtes]
    exact ih (name.name.value::env)

theorem cteNodes_rewrite (recursive : Bool) (env : List String) (ctes : List Cte) :
    (cteNodes ctx recursive env ctes).map (rewritePlace c ρ) =
      cteNodes (renameCtx (macroOf ρ) ctx) recursive env
        (rewriteIn ctx (rewriteCtes c ρ) ctes) := by
  induction ctes generalizing env with
  | nil => cases hv : ctx.visited <;> simp [cteNodes, hv, rewriteCtes]
  | cons cte ctes ih =>
    obtain ⟨name, query⟩ := cte
    cases hv : ctx.visited <;>
      simp [cteNodes, rewriteCtes, ih, hv]

theorem rewriteSelect_from (select : Select) : (rewriteIn ctx (rewriteSelect c ρ) select).from =
    select.from.map (rewriteIn ctx (rewriteTableWithJoins c ρ)) := by
  cases select
  cases hv : ctx.visited <;> simp [hv, rewriteSelect, rewriteFrom_eq_map]

theorem trailingCtx_rewrite (body : SetExpr) :
    trailingCtx (renameCtx (macroOf ρ) ctx) (rewriteIn ctx (rewriteSetExpr c ρ) body) =
      renameCtx (macroOf ρ) (trailingCtx ctx body) := by
  cases body with
  | select select =>
    rw [trailingCtx, ← inSelect_rewrite (c := c), ← rewriteSelect_from]
    cases hv : ctx.visited <;> simp [hv, trailingCtx]
  | _ => cases hv : ctx.visited <;> simp [hv, trailingCtx]

theorem queryNodes_rewrite (query : Query) : (queryNodes ctx query).map (rewritePlace c ρ) =
    queryNodes (renameCtx (macroOf ρ) ctx) (rewriteIn ctx (rewriteQuery c ρ) query) := by
  have body :=
    @trailingCtx_rewrite _ _ c ρ (ctx.withCtes (cteNames ctx.ctes query.ctes)) query.body
  obtain ⟨recursive, ctes, body, orderBy, limitClause, fetch⟩ := query
  cases hv : ctx.visited <;>
    simp_all [queryNodes, rewriteQuery, cteNodes_rewrite, cteNames_rewrite]

theorem setExprNodes_rewrite (body : SetExpr) :
    (setExprNodes ctx body).map (rewritePlace c ρ) =
      setExprNodes (renameCtx (macroOf ρ) ctx) (rewriteIn ctx (rewriteSetExpr c ρ) body) := by
  cases hv : ctx.visited <;> cases body <;>
    simp [setExprNodes, hv]

theorem selectNodes_rewrite (select : Select) :
    (selectNodes ctx select).map (rewritePlace c ρ) =
      selectNodes (renameCtx (macroOf ρ) ctx) (rewriteIn ctx (rewriteSelect c ρ) select) := by
  have item : ∀ (ctx : Ctx) (item : SelectItem), (itemNodes ctx item).map (rewritePlace c ρ) =
      itemNodes (renameCtx (macroOf ρ) ctx) (rewriteIn ctx (rewriteSelectItem c ρ) item) := by
    intro ctx item
    cases hv : ctx.visited <;> cases item <;>
      simp [itemNodes, rewriteSelectItem, hv]
  have hi : (ctx.inSelect select.from).visited = ctx.visited := rfl
  simp only [selectNodes, rewriteSelect_from, inSelect_rewrite]
  obtain ⟨distinct, projection, «from», selection, groupBy, having, windows, qualify⟩ := select
  cases hv : ctx.visited <;> rw [hv] at hi <;>
    simp [rewriteSelect, map_flatMap, flatMap_map, item, rewriteProjection_eq_map, hv, hi,
      Function.comp_def, rewriteOptExpr_toList]

theorem joinsNodes_rewrite (joins : List Join) :
    (joins.flatMap (joinNodes ctx)).map (rewritePlace c ρ) =
      (rewriteIn ctx (rewriteJoins c ρ) joins).flatMap
        (joinNodes (renameCtx (macroOf ρ) ctx)) := by
  have op : ∀ op, (operatorNodes ctx op).map (rewritePlace c ρ) =
      operatorNodes (renameCtx (macroOf ρ) ctx) (rewriteIn ctx (rewriteJoinOperator c ρ) op) := by
    intro op
    have constraint : ∀ constraint, (constraintNodes ctx constraint).map (rewritePlace c ρ) =
        constraintNodes (renameCtx (macroOf ρ) ctx)
          (rewriteIn ctx (rewriteJoinConstraint c ρ) constraint) := by
      intro constraint
      cases hv : ctx.visited <;> cases constraint <;>
        simp [constraintNodes, rewriteJoinConstraint, hv]
    cases hv : ctx.visited <;> cases op <;>
      simp [operatorNodes, rewriteJoinOperator, constraint, hv]
  induction joins with
  | nil => cases hv : ctx.visited <;> simp [hv, rewriteJoins]
  | cons join joins ih =>
    obtain ⟨relation, joinOperator⟩ := join
    cases hv : ctx.visited <;>
      simp_all [rewriteJoins, joinNodes]

theorem factorNodes_rewrite (factor : TableFactor)
    (hr : replaced (has ρ) ctx (.tableFactor factor) = false) :
    (factorNodes ctx factor).map (rewritePlace c ρ) =
      factorNodes (renameCtx (macroOf ρ) ctx) (rewriteIn ctx (rewriteTableFactor c ρ) factor) := by
  cases factor with
  | table name a args =>
    have kept :
        rewriteIn ctx (rewriteTableFactor c ρ) (.table name a args) = .table name a args := by
      cases hv : ctx.visited with
      | false => simp [hv]
      | true =>
        have hl : ρ.lookup (extractTableName name) = none := by
          simpa [replaced, has, hv] using hr
        simp [hv, rewriteTableFactor_kept hl]
    rw [kept]
    simp [factorNodes, map_flatMap]
  | _ =>
    cases hv : ctx.visited <;>
      simp [factorNodes, rewriteTableFactor, map_flatMap, hv]

theorem children_rewrite (hr : replaced (has ρ) ctx node = false) :
    children (rewritePlace c ρ (ctx, node)).1 (rewritePlace c ρ (ctx, node)).2 =
      (children ctx node).map (rewritePlace c ρ) := by
  cases node with
  | tableWithJoins twj =>
    obtain ⟨relation, joins⟩ := twj
    cases hv : ctx.visited <;>
      simp [children, rewriteTableWithJoins, hv, joinsNodes_rewrite]
  | tableFactor factor =>
    have factor := factorNodes_rewrite (c := c) factor hr
    cases hv : ctx.visited <;>
      simp [children, hv, factor]
  | _ =>
    cases hv : ctx.visited <;>
      simp [children, hv, queryNodes_rewrite, setExprNodes_rewrite, selectNodes_rewrite,
        exprNodes_rewrite]

/-! ## Whole paths -/

theorem walk_rewrite (path : List Nat) (ctx : Ctx) (node : Node)
    (h : replacedAbove (has ρ) ctx node path = false) :
    walk (rewritePlace c ρ (ctx, node)).1 (rewritePlace c ρ (ctx, node)).2 path =
      (walk ctx node path).map (rewritePlace c ρ) := by
  induction path generalizing ctx node with
  | nil => rfl
  | cons i path ih =>
    simp only [replacedAbove, Bool.or_eq_false_iff] at h
    rw [walk, walk, children_rewrite h.1, getElem?_map]
    cases hc : (children ctx node)[i]? with
    | none => rfl
    | some place =>
      obtain ⟨ctx', child⟩ := place
      rw [hc] at h
      exact ih ctx' child h.2

def IsDateArg (node : Node) : Prop := ∃ default bound, node = .expr (boundArg default bound)

theorem children_boundArg (ctx : Ctx) (default : String) (bound : Option DateBound) :
    children ctx (.expr (boundArg default bound)) = [] := by
  rcases bound with _ | (s | p) <;> rfl

theorem walk_dateArg (ctx : Ctx) (h : IsDateArg node) (path : List Nat) :
    walk ctx node path = none ∨ path = [] := by
  obtain ⟨default, bound, rfl⟩ := h
  cases path with
  | nil => exact Or.inr rfl
  | cons i path => simp [walk, children_boundArg]

theorem replaced_iff {names : String → Bool} : replaced names ctx node = true ↔
    ∃ name a args, node = .tableFactor (.table name a args) ∧ ctx.visited = true ∧
      names (extractTableName name) = true := by
  fun_cases replaced names ctx node
  case case1 name a args => simp
  case case2 other =>
    refine ⟨nofun, ?_⟩
    rintro ⟨name, a, args, rfl, -⟩
    exact (other name a args rfl).elim

theorem children_replaced (hr : replaced (has ρ) ctx node = true) (place : Ctx × Node)
    (h : place ∈ children (rewritePlace c ρ (ctx, node)).1 (rewritePlace c ρ (ctx, node)).2) :
    IsDateArg place.2 := by
  obtain ⟨name, a, args, rfl, hv, hl⟩ := replaced_iff.mp hr
  obtain ⟨r, hl⟩ := Option.isSome_iff_exists.mp hl
  rw [rewritePlace_visited hv, rewriteNode, rewriteTableFactor_replaced hl] at h
  simp only [children, createMacroCall, factorNodes, flatMap_cons, flatMap_nil,
    argNodes, argExprNodes, mem_append, mem_singleton, not_mem_nil,
    or_false] at h
  rcases h with rfl | rfl <;> exact ⟨_, _, rfl⟩

theorem walk_cons {i : Nat} {path : List Nat} {place : Ctx × Node} :
    walk ctx node (i::path) = some place ↔
      ∃ child, (children ctx node)[i]? = some child ∧ walk child.1 child.2 path = some place := by
  rw [walk]
  cases (children ctx node)[i]? <;> simp

/-- Below a replaced table the rewritten query has date arguments only. -/
theorem walk_replaced (path : List Nat) (ctx : Ctx) (node : Node)
    (h : replacedAbove (has ρ) ctx node path = true) (place : Ctx × Node)
    (hw : walk (rewritePlace c ρ (ctx, node)).1 (rewritePlace c ρ (ctx, node)).2 path =
      some place) : IsDateArg place.2 := by
  induction path generalizing ctx node with
  | nil => cases h
  | cons i path ih =>
    obtain ⟨child, hc, hw⟩ := walk_cons.mp hw
    cases hr : replaced (has ρ) ctx node with
    | true =>
      have hd := children_replaced hr child (mem_of_getElem? hc)
      rcases walk_dateArg child.1 hd path with hn | rfl
      · cases hn.symm.trans hw
      · cases hw
        exact hd
    | false =>
      simp only [replacedAbove, hr, Bool.false_or] at h
      rw [children_rewrite hr, getElem?_map, Option.map_eq_some_iff] at hc
      obtain ⟨source, hc, rfl⟩ := hc
      rw [hc] at h
      exact ih source.1 source.2 h hw

end
end Leibrix.SqlRewrite
