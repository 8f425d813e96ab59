import Leibrix.PlanParts
import Leibrix.StageSql

/-!
# Table names in the SQL of a stage

A stage gets all CTE definitions of the query or none of them, by the names of its scans.
The SQL that is generated from its plan has the factors of the scans and the expressions of
the clauses. Qualifiers may be taken off these, which keeps the queries inside an expression,
so that a name in the SQL is a name in an item of the plan.
-/

set_option autoImplicit false

namespace Leibrix.StageCtes
open SqlAst SqlScopes LdpTypes PlanBuilder PlanParts StageSql List

section Context

/-- Exchange reads and no scans of the local catalog. -/
def isPurelyExchangeBacked : LogicalPlan → Bool
  | .exchangeRead .. => true
  | .scan .. => false
  | .subqueryScan input _ | .filter input _ | .project input _ | .aggregate input _ _ _ _
  | .sort input _ | .limit input _ _ | .window input _ _ => isPurelyExchangeBacked input
  | .join left right _ _ _ | .setOp left right _ _ =>
    isPurelyExchangeBacked left && isPurelyExchangeBacked right

/-- The alias of a subquery counts as a name unless all of its data comes from exchanges. -/
def collectScanNames : LogicalPlan → List String
  | .scan tableName _ _ => [tableName]
  | .exchangeRead .. => []
  | .filter input _ | .project input _ | .aggregate input _ _ _ _ | .sort input _ | .limit input _ _
  | .window input _ _ => collectScanNames input
  | .subqueryScan input aliasName =>
    (if isPurelyExchangeBacked input then [] else [aliasName.name.value]) ++ collectScanNames input
  | .join left right _ _ _ | .setOp left right _ _ =>
    collectScanNames left ++ collectScanNames right

def filterCtesForStage (plan : LogicalPlan) (cteDefinitions : List Cte) : List Cte :=
  if cteDefinitions.isEmpty then []
  else if cteDefinitions.any fun cte =>
      (collectScanNames plan).any (eqIgnoreAsciiCase · cte.alias.name.value) then
    cteDefinitions
  else []

variable {plan : LogicalPlan} {tableName : String} {factor : TableFactor}

theorem mem_collectScanNames (h : .scan tableName factor ∈ planItems plan) :
    tableName ∈ collectScanNames plan := by
  induction plan with
  | scan => simp_all [planItems, collectScanNames]
  | exchangeRead => cases h
  | filter _ _ ih | project _ _ ih | aggregate _ _ _ _ _ ih | sort _ _ ih | limit _ _ _ ih
  | window _ _ _ ih => exact ih (by simpa [planItems] using h)
  | subqueryScan _ _ ih => exact mem_append_right _ (ih h)
  | join _ _ _ _ _ ihl ihr | setOp _ _ _ _ ihl ihr =>
    have sides := h
    simp only [planItems, mem_append, mem_map, reduceCtorEq, and_false, exists_false,
      false_or] at sides
    exact mem_append.mpr (sides.imp ihl ihr)

theorem filterCtesForStage_eq {ctes : List Cte} {cte : Cte} (hcte : cte ∈ ctes)
    (hscan : .scan tableName factor ∈ planItems plan)
    (hname : eqIgnoreAsciiCase tableName cte.alias.name.value = true) :
    filterCtesForStage plan ctes = ctes := by
  have referenced : (ctes.any fun cte =>
      (collectScanNames plan).any (eqIgnoreAsciiCase · cte.alias.name.value)) = true := by
    rw [any_eq_true]
    refine ⟨cte, hcte, ?_⟩
    rw [any_eq_true]
    exact ⟨tableName, mem_collectScanNames hscan, hname⟩
  have some : ctes.isEmpty = false := isEmpty_eq_false_iff_exists_mem.mpr ⟨cte, hcte⟩
  rw [filterCtesForStage, some, referenced]
  rfl

theorem filterCtesForStage_cases (plan : LogicalPlan) (ctes : List Cte) :
    filterCtesForStage plan ctes = ctes ∨ filterCtesForStage plan ctes = [] := by
  unfold filterCtesForStage
  split
  · exact .inr rfl
  · split
    · exact .inl rfl
    · exact .inr rfl

end Context

variable {name : ObjectName}

section Mentions

variable (ctx : Ctx)

def MentionsAt (node : Node) (path : List Nat) (name : ObjectName) : Prop :=
  ∃ ctx' node', walk ctx node path = some (ctx', node') ∧ plainRef node' = some name ∧
    resolvesToCte ctx' name = false

def Mentions (node : Node) (name : ObjectName) : Prop := ∃ path, MentionsAt rootCtx node path name

variable {path : List Nat}

theorem mentionsAt_cons {ctx : Ctx} {node : Node} {i : Nat} :
    MentionsAt ctx node (i::path) name ↔
      ∃ place, (children ctx node)[i]? = some place ∧ MentionsAt place.1 place.2 path name := by
  unfold MentionsAt
  rw [walk]
  cases (children ctx node)[i]? with
  | none | some place => simp

/-- A place, and what stands there once qualifiers are taken off. -/
inductive Stripped : Ctx × Node → Ctx × Node → Prop
  | same (place : Ctx × Node) : Stripped place place
  | expr (ctx : Ctx) (e : Expr) : Stripped (ctx, .expr e) (ctx, .expr (dequalifyExpr e))

theorem stripped_same (places : Places) : List.Forall₂ Stripped places places :=
  forall₂_same.mpr fun place _ => .same place

theorem stripped_list (es : List Expr) :
    List.Forall₂ Stripped (exprs ctx es) (exprs ctx (dequalifyList es)) := by
  induction es with
  | nil => exact .nil
  | cons e es ih => exact .cons (.expr ctx e) ih

theorem stripped_option (e : Option Expr) :
    List.Forall₂ Stripped (exprs ctx e.toList) (exprs ctx (dequalifyOption e).toList) := by
  cases e with
  | none => exact .nil
  | some e => exact stripped_list ctx [e]

theorem stripped_conditions (conditions : List (Expr × Expr)) :
    List.Forall₂ Stripped (exprs ctx (conditions.flatMap fun c => [c.1, c.2]))
      (exprs ctx ((dequalifyConditions conditions).flatMap fun c => [c.1, c.2])) := by
  induction conditions with
  | nil => exact .nil
  | cons c conditions ih => exact .cons (.expr ctx c.1) (.cons (.expr ctx c.2) ih)

theorem stripped_args (args : List FunctionArg) :
    List.Forall₂ Stripped (args.flatMap (argNodes ctx))
      ((dequalifyArgs args).flatMap (argNodes ctx)) := by
  induction args with
  | nil => exact .nil
  | cons arg args ih =>
    rcases arg with (e | _ | _) | _ | _
    · exact .cons (.expr ctx e) ih
    all_goals exact rel_append (stripped_same _) ih

theorem stripped_exprNodes (e : Expr) :
    List.Forall₂ Stripped (exprNodes ctx e) (exprNodes ctx (dequalifyExpr e)) := by
  cases e with
  | identifier | value | typedString | subquery | «exists» => exact stripped_same _
  | compoundIdentifier parts =>
    unfold dequalifyExpr
    split <;> exact .nil
  | cast inner | unaryOp _ inner | nested inner => exact stripped_list _ [inner]
  | binaryOp left _ right => exact stripped_list ctx [left, right]
  | between inner _ low high => exact stripped_list ctx [inner, low, high]
  | case operand conditions elseResult =>
    exact rel_append (rel_append (stripped_option ctx operand)
      (stripped_conditions ctx.skipped conditions)) (stripped_option ctx elseResult)
  | function func =>
    obtain ⟨name, args, filter, withinGroup, «over»⟩ := func
    cases args with
    | none | subquery => exact stripped_same _
    | list args => exact rel_append (stripped_args ctx args) (stripped_same _)
  | inSubquery inner subquery => exact .cons (.expr _ inner) (stripped_same _)
  | inList inner list => exact stripped_list _ (inner::list)
  | form form operands =>
    cases form with
    | other => exact stripped_same _
    | _ => exact stripped_list _ operands

theorem mentionsAt_of_stripped {place place' : Ctx × Node} (h : Stripped place place')
    (hm : MentionsAt place'.1 place'.2 path name) : MentionsAt place.1 place.2 path name := by
  induction path generalizing place place' with
  | nil =>
    cases h with
    | same => exact hm
    | expr ctx e =>
      obtain ⟨ctx', node', hwalk, href, -⟩ := hm
      cases hwalk
      cases href
  | cons i path ih =>
    cases h with
    | same => exact hm
    | expr ctx e =>
      obtain ⟨found, hfound, hm⟩ := mentionsAt_cons.mp hm
      have below := stripped_exprNodes ctx e
      obtain ⟨hi, rfl⟩ := List.getElem?_eq_some_iff.mp hfound
      have hi' : i < (exprNodes ctx e).length := below.length_eq ▸ hi
      refine mentionsAt_cons.mpr ⟨_, getElem?_eq_getElem hi', ?_⟩
      exact ih (below.get hi' hi) hm

end Mentions

def constraintExprs : Option JoinConstraint → List Expr
  | some (.on e) => [e]
  | _ => []

def exprsOf (es : List Expr) : List Node := es.map .expr

mutual

def sqlNodes : QuerySql → List Node
  | .select items source groupBy having =>
    exprsOf (items.filterMap itemExpr ++ ((groupBy.map groupByExprs).getD [] ++ having.toList)) ++
      fromNodes source
  | .orderBy body exprs => exprsOf (exprs.map (·.expr)) ++ sqlNodes body
  | .limit body limit offset => exprsOf (limit.toList ++ offset.toList) ++ sqlNodes body
  | .setOp left right _ _ => sqlNodes left ++ sqlNodes right

def fromNodes : FromSql → List Node
  | .factor tableFactor => [.tableFactor tableFactor]
  | .exchange _ _ => []
  | .join left right _ constraint =>
    exprsOf (constraintExprs constraint) ++ (fromNodes left ++ fromNodes right)
  | .filtered source predicate => .expr predicate::fromNodes source
  | .derived body _ => sqlNodes body

end

def SqlMentions (sql : QuerySql) (name : ObjectName) : Prop :=
  ∃ node ∈ sqlNodes sql, Mentions node name

def Printed (items : List Item) (nodes : List Node) : Prop :=
  ∀ node ∈ nodes, ∃ item ∈ items,
    node = item.node ∨ ∃ e, item = .expr e ∧ node = .expr (dequalifyExpr e)

theorem Printed.append {items items' : List Item} {nodes nodes' : List Node}
    (h : Printed items nodes) (h' : Printed items' nodes') :
    Printed (items ++ items') (nodes ++ nodes') := by
  intro node hnode
  rcases mem_append.mp hnode with hnode | hnode
  · obtain ⟨item, hitem, heq⟩ := h node hnode
    exact ⟨item, mem_append_left _ hitem, heq⟩
  · obtain ⟨item, hitem, heq⟩ := h' node hnode
    exact ⟨item, mem_append_right _ hitem, heq⟩

theorem printed_exprs (es : List Expr) : Printed (es.map .expr) (exprsOf es) := by
  intro node hnode
  obtain ⟨e, he, rfl⟩ := mem_map.mp hnode
  exact ⟨.expr e, mem_map_of_mem he, .inl rfl⟩

section Clauses

variable (strips : Bool)

theorem printed_stripIf (es : List Expr) :
    Printed (es.map .expr) (exprsOf (es.map (stripIf strips dequalifyExpr))) := by
  intro node hnode
  obtain ⟨e', he', rfl⟩ := mem_map.mp hnode
  obtain ⟨e, he, rfl⟩ := mem_map.mp he'
  refine ⟨.expr e, mem_map_of_mem he, ?_⟩
  cases strips with
  | false => exact .inl rfl
  | true => exact .inr ⟨e, rfl, rfl⟩

theorem dequalifyList_eq (es : List Expr) : dequalifyList es = es.map dequalifyExpr := by
  induction es with
  | nil => rfl
  | cons e es ih => rw [dequalifyList, ih, map_cons]

theorem itemExprs_stripIf (items : List SelectItem) :
    (items.map (stripIf strips dequalifySelectItem)).filterMap itemExpr =
      (items.filterMap itemExpr).map (stripIf strips dequalifyExpr) := by
  induction items with
  | nil => rfl
  | cons item items ih =>
    cases item <;> cases strips <;>
      simp_all [filterMap_cons, itemExpr, stripIf, dequalifySelectItem]

theorem orderByExprs_stripIf (orderBy : List OrderByExpr) :
    (orderBy.map (stripIf strips dequalifyOrderByExpr)).map (·.expr) =
      (orderBy.map (·.expr)).map (stripIf strips dequalifyExpr) := by
  cases strips <;> simp [stripIf, dequalifyOrderByExpr, Function.comp_def]

theorem groupByExprs_stripIf (groupBy : GroupByExpr) :
    (((if StageSql.hasGroupBy groupBy then some (stripIf strips dequalifyGroupBy groupBy)
        else none).map groupByExprs).getD []) =
      (groupByExprs groupBy).map (stripIf strips dequalifyExpr) := by
  rcases groupBy with _ | ⟨_ | ⟨e, es⟩, modifiers⟩
  · cases strips <;> rfl
  · rfl
  · cases strips with
    | false => exact (map_id _).symm
    | true => exact dequalifyList_eq _

theorem constraintExprs_stripIf (joinOp : JoinOperator) :
    constraintExprs ((extractJoinConstraint joinOp).map (stripIf strips dequalifyConstraint)) =
      (extractJoinOnExpr joinOp).toList.map (stripIf strips dequalifyExpr) := by
  unfold extractJoinOnExpr
  cases extractJoinConstraint joinOp with
  | none => rfl
  | some constraint => cases constraint <;> cases strips <;> rfl

end Clauses

section Nodes

variable {input : LogicalPlan} {source : FromSql} {body : QuerySql}

theorem printed_sort (h : Printed (planItems input) (sqlNodes body)) (orderBy : List OrderByExpr) :
    Printed (planItems (.sort input orderBy)) (sqlNodes (sortSql input body orderBy)) := by
  rw [sortSql, sqlNodes, orderByExprs_stripIf, planItems]
  have exprs := printed_stripIf (isExchangeBackedPlan input) (orderBy.map (·.expr))
  rw [map_map] at exprs
  exact exprs.append h

variable (h : Printed (planItems input) (fromNodes source))
include h

theorem printed_aggregate (groupBy : GroupByExpr) (items : List SelectItem) (having : Option Expr)
    (groupKeys : List ColumnRef) :
    Printed (planItems (.aggregate input groupBy items having groupKeys))
      (sqlNodes (aggregateSql input source groupBy items having)) := by
  simp only [aggregateSql, sqlNodes, itemExprs_stripIf, groupByExprs_stripIf, Option.toList_map,
    ← map_append, planItems]
  exact (printed_stripIf _ _).append h

theorem printed_project (items : List SelectItem) :
    Printed (planItems (.project input items)) (sqlNodes (projectSql input source items)) := by
  simp only [projectSql, sqlNodes, itemExprs_stripIf, planItems, Option.map_none, Option.getD_none,
    Option.toList_none, append_nil]
  exact (printed_stripIf _ _).append h

theorem printed_window (items : List SelectItem) (partitionKeys : List ColumnRef) :
    Printed (planItems (.window input items partitionKeys))
      (sqlNodes (windowSql source items)) := by
  simp only [windowSql, sqlNodes, planItems, Option.map_none, Option.getD_none,
    Option.toList_none, append_nil]
  exact (printed_exprs _).append h

theorem printed_filter (predicate : Expr) :
    Printed (planItems (.filter input predicate)) (fromNodes (filterSql input source predicate)) :=
  (printed_stripIf _ [predicate]).append h

omit h

theorem printed_join {left right : LogicalPlan} {leftSource rightSource : FromSql}
    (hl : Printed (planItems left) (fromNodes leftSource))
    (hr : Printed (planItems right) (fromNodes rightSource)) (joinOp : JoinOperator)
    (leftKeys rightKeys : List ColumnRef) :
    Printed (planItems (.join left right joinOp leftKeys rightKeys))
      (fromNodes (joinSql left right leftSource rightSource joinOp)) := by
  rw [joinSql, fromNodes, constraintExprs_stripIf, planItems]
  exact (printed_stripIf _ _).append (hl.append hr)

theorem printed_factor (tableName : String) (aliasName : Option TableAlias)
    (factor : TableFactor) : Printed (planItems (.scan tableName aliasName factor))
      (fromNodes (.factor factor)) := by
  intro node hnode
  cases mem_singleton.mp hnode
  exact ⟨_, mem_singleton.mpr rfl, .inl rfl⟩

end Nodes

theorem printed_plan (p : LogicalPlan) : Printed (planItems p) (sqlNodes (generateSql p)) ∧
    Printed (planItems p) (fromNodes (generateFromFragment p)) := by
  induction p with
  | limit input limit offset ih =>
    exact ⟨(printed_exprs _).append ih.1, (printed_exprs _).append ih.1⟩
  | sort input orderBy ih => exact ⟨printed_sort ih.1 orderBy, printed_sort ih.1 orderBy⟩
  | aggregate input groupBy items having groupKeys ih =>
    have h := printed_aggregate ih.2 groupBy items having groupKeys
    exact ⟨h, h⟩
  | project input items ih => exact ⟨printed_project ih.2 items, printed_project ih.2 items⟩
  | window input items keys ih =>
    exact ⟨printed_window ih.2 items keys, printed_window ih.2 items keys⟩
  | setOp left right op quantifier hl hr => exact ⟨hl.1.append hr.1, hl.1.append hr.1⟩
  | subqueryScan input aliasName ih => exact ⟨ih.1, ih.1⟩
  | scan tableName aliasName factor =>
    have h := printed_factor tableName aliasName factor
    exact ⟨h, h⟩
  | exchangeRead => exact ⟨nofun, nofun⟩
  | filter input predicate ih =>
    exact ⟨printed_filter ih.2 predicate, printed_filter ih.2 predicate⟩
  | join left right joinOp leftKeys rightKeys hl hr =>
    have h := printed_join hl.2 hr.2 joinOp leftKeys rightKeys
    exact ⟨h, h⟩

theorem mentioned_item {p : LogicalPlan} (h : SqlMentions (generateSql p) name) :
    ∃ item ∈ planItems p, Mentions item.node name := by
  obtain ⟨node, hnode, path, hm⟩ := h
  obtain ⟨item, hitem, rfl | ⟨e, rfl, rfl⟩⟩ := (printed_plan p).1 node hnode
  · exact ⟨item, hitem, path, hm⟩
  · exact ⟨.expr e, hitem, path, mentionsAt_of_stripped (.expr rootCtx e) hm⟩

end Leibrix.StageCtes
