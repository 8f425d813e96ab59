import Leibrix.PlanExpansion
import Leibrix.StageCtes
import Leibrix.StageText
import Leibrix.SelectCalls

/-!
# From a query to its SQL and back

The tree of a query has all its clauses, with the names of CTEs replaced as the builder
replaces them. The plan of the query keeps some of them: DISTINCT, QUALIFY, named windows,
LIMIT BY, the flags of FETCH, LATERAL, the column list and the arguments of a CTE, a WITH
clause inside the query and HAVING without aggregation are left behind. What is written for
the plan is the query again exactly if every clause fits its place and no HAVING is lost.
-/

set_option autoImplicit false

namespace Leibrix.PlanClauses
open SqlAst SqlScopes LdpTypes PlanBuilder PlanParts StageSql SqlGrouping StageText StageCtes
open LdpReassemble Option
open PlanExpansion (Defines nameKey)

section Trees

def filteredTree (selection : Option Expr) (source : FromTree) : FromTree :=
  match selection with
  | some predicate => .filtered source predicate
  | none => source

def orderedTree (orderBy : Option OrderBy) (tree : QueryTree) : QueryTree :=
  match orderBy with
  | some (.expressions exprs) => if exprs.isEmpty then tree else .orderBy tree exprs
  | some .all => .orderBy tree []
  | none => tree

def boundsTree (limit offset : Option Expr) (tree : QueryTree) : QueryTree :=
  if limit.isSome || offset.isSome then .limit tree limit offset else tree

def limitParts : Option LimitClause → Option Expr × Option Expr × List Expr
  | some (.limitOffset limit offset limitBy) => (limit, offset, limitBy)
  | some (.offsetCommaLimit offset limit) => (some limit, some offset, [])
  | none => (none, none, [])

def isLimit (fetch : Fetch) : Bool := !fetch.withTies && !fetch.percent && fetch.quantity.isSome

def limitedTree (limitClause : Option LimitClause) (fetch : Option Fetch) (tree : QueryTree) :
    QueryTree :=
  let (limit, offset, limitBy) := limitParts limitClause
  match fetch with
  | some fetch =>
    if isLimit fetch && limit.isNone && limitBy.isEmpty then boundsTree fetch.quantity offset tree
    else .fetch tree limit offset fetch
  | none =>
    if limitBy.isEmpty then boundsTree limit offset tree else .limitBy tree limit offset limitBy

def starOf : FromTree → QueryTree
  | .derived body _ _ => body
  | source => allOf source

def renamed : FromTree → DerivedParts
  | .derived _ «alias» parts =>
    { parts with columns := «alias».columns ++ parts.columns.drop «alias».columns.length }
  | _ => {}

def aliasedTree («alias» : TableAlias) (source : FromTree) : FromTree :=
  .derived (starOf source) «alias» (renamed source)

variable (text : PlanText)
  (resolve : CteMap → ObjectName → Option (Build (QueryTree × List Ident)))

variable (query : Query)

/-- An expression of the query, or of the body of a CTE in it, has a subquery that mentions the
name. -/
def InExpression (key : String) : Prop :=
  ∃ body ext node i path name,
    (body = query ∨ ∃ entry, Defines text query entry ∧ body = entry.2.query) ∧
      (ext, node) ∈ queryParts text body ∧ MentionsAt rootCtx node (i::path) name ∧
      nameKey text name = key

/-- The query needs no WITH clause once the names in its FROM clauses are replaced. -/
def Dissolves : Prop :=
  ∀ cte ∈ query.ctes, queryHasFrom cte.query = true ∧
    ¬InExpression text query (text.toLowercase cte.alias.name.value)

open Classical in
noncomputable def underWith (tree : QueryTree) : QueryTree :=
  if query.ctes.isEmpty then tree
  else if Dissolves text query then tree
  else .withCtes query.ctes tree

mutual

noncomputable def treeOfQuery (outer : CteMap) : Query → Build QueryTree
  | ⟨recursive, ctes, body, orderBy, limitClause, fetch⟩ => do
    let tree ← treeOfSetExpr (insertCtes text outer ctes) body
    return underWith text ⟨recursive, ctes, body, orderBy, limitClause, fetch⟩
      (limitedTree limitClause fetch (orderedTree orderBy tree))

noncomputable def treeOfSetExpr (map : CteMap) : SetExpr → Build QueryTree
  | .select select => treeOfSelect map select
  | .query query => treeOfQuery map query
  | .setOperation op quantifier left right => do
    let leftTree ← treeOfSetExpr map left
    let rightTree ← treeOfSetExpr map right
    return .setOp op quantifier leftTree rightTree
  | .values _ => unsupported "VALUES clause"
  | other => unsupported ("SetExpr variant: " ++ text.discriminant other)

noncomputable def treeOfSelect (map : CteMap) : Select → Build QueryTree
  | ⟨distinct, projection, «from», selection, groupBy, having, namedWindow, qualify⟩ => do
    let source ← treeOfFromClause map «from»
    return .select ⟨distinct, projection, grouping groupBy, having, namedWindow, qualify⟩
      (filteredTree selection source)

noncomputable def treeOfFromClause (map : CteMap) : List TableWithJoins → Build FromTree
  | [] => unsupported "SELECT without FROM"
  | twj::rest => do
    let source ← treeOfTableWithJoins map twj
    treeOfCrossJoins map source rest

noncomputable def treeOfCrossJoins (map : CteMap) (source : FromTree) :
    List TableWithJoins → Build FromTree
  | [] => .ok source
  | twj::rest => do
    let right ← treeOfTableWithJoins map twj
    treeOfCrossJoins map (joinTree (.plain .crossJoin .none) source right) rest

noncomputable def treeOfTableWithJoins (map : CteMap) : TableWithJoins → Build FromTree
  | ⟨relation, joins⟩ => do
    let source ← treeOfTableFactor map relation
    treeOfJoins map source joins

noncomputable def treeOfJoins (map : CteMap) (source : FromTree) : List Join → Build FromTree
  | [] => .ok source
  | ⟨relation, joinOperator⟩::joins => do
    let right ← treeOfTableFactor map relation
    treeOfJoins map (joinTree joinOperator source right) joins

noncomputable def treeOfTableFactor (map : CteMap) : TableFactor → Build FromTree
  | .table name «alias» args =>
    match resolve map name with
    | some built => do
      let (tree, columns) ← built
      return .derived tree («alias».getD { name := ⟨objectNameToString name, none⟩ })
        { columns, args }
    | none => .ok (.factor (.table name «alias» args))
  | .derived lateral subquery «alias» => do
    let tree ← treeOfQuery map subquery
    match «alias» with
    | some «alias» => return .derived tree «alias» { lateral }
    | none => unsupported "derived table without alias"
  | .nestedJoin tableWithJoins «alias» => do
    let source ← treeOfTableWithJoins map tableWithJoins
    match «alias» with
    | some «alias» => return aliasedTree «alias» source
    | none => return source
  | other => .ok (.factor other)

end

variable (find : Find)

def expandTree (build : CteMap → Query → Build QueryTree) (map : CteMap)
    (name : ObjectName) : Option (Build (QueryTree × List Ident)) :=
  match find map name with
  | some (cte, env) =>
    if queryHasFrom cte.query then
      some (do return (← build env cte.query, cte.alias.columns))
    else none
  | none => none

noncomputable def treeOf : Nat → CteMap → Query → Build QueryTree
  | 0 => fun _ _ => .error .unfinished
  | fuel+1 => treeOfQuery text (expandTree find (treeOf fuel))

/-- The tree of a statement. Its own WITH clause is written before the SQL of the plan. -/
noncomputable def statementTree (fuel : Nat) (query : Query) : Build QueryTree :=
  match fuel with
  | 0 => .error .unfinished
  | fuel+1 => do
    let tree ← treeOfSetExpr text (expandTree find (treeOf text find fuel))
      (insertCtes text [] query.ctes) query.body
    return limitedTree query.limitClause query.fetch (orderedTree query.orderBy tree)

end Trees

variable (clauses : SelectClauses)

def aggregates : Bool :=
  clauses.groupBy.isSome || clauses.items.any selectItemHasAggregate

def keptClauses : SelectClauses where
  items := clauses.items
  groupBy := clauses.groupBy
  having := if aggregates clauses then clauses.having else none

mutual

def keep : QueryTree → QueryTree
  | .select clauses source => .select (keptClauses clauses) (keepFrom source)
  | .setOp op quantifier left right => .setOp op quantifier (keep left) (keep right)
  | .orderBy body exprs => .orderBy (keep body) exprs
  | .limit body limit offset => .limit (keep body) limit offset
  | .limitBy body limit offset _ => boundsTree limit offset (keep body)
  | .fetch body limit offset fetch =>
    boundsTree (if limit.isNone then fetch.quantity else limit) offset (keep body)
  | .withCtes _ body => keep body

def keepFrom : FromTree → FromTree
  | .factor tableFactor => .factor tableFactor
  | .derived body «alias» _ => .derived (keep body) «alias» {}
  | .join left right word matchCondition constraint =>
    .join (keepFrom left) (keepFrom right) word matchCondition constraint
  | .filtered source predicate => .filtered (keepFrom source) predicate

end

mutual

/-- No HAVING stands without aggregation. -/
def HavingKept : QueryTree → Prop
  | .select clauses source =>
    (clauses.having.isSome = true → aggregates clauses = true) ∧ HavingKeptFrom source
  | .setOp _ _ left right => HavingKept left ∧ HavingKept right
  | .orderBy body _ | .limit body _ _ | .limitBy body _ _ _ | .fetch body _ _ _ | .withCtes _ body =>
    HavingKept body

def HavingKeptFrom : FromTree → Prop
  | .factor _ => True
  | .derived body _ _ => HavingKept body
  | .join left right _ _ _ => HavingKeptFrom left ∧ HavingKeptFrom right
  | .filtered source _ => HavingKeptFrom source

end

theorem keep_fits (t : QueryTree) : ∀ {n}, Fits n t → Fits n (keep t) := by
  apply keep.induct (fun t => ∀ {n}, Fits n t → Fits n (keep t))
    (fun t => ∀ {n}, FitsFrom n t → FitsFrom n (keepFrom t))
  case case1 => exact fun clauses source ih n h => ⟨⟨rfl, rfl, rfl⟩, ih h.2⟩
  case case4 =>
    intro body limit offset ih n h
    cases limit <;> cases offset <;> simp_all [keep, Fits]
  all_goals grind [keep, keepFrom, Fits, FitsFrom]

theorem keptClauses_eq_iff {clauses : SelectClauses} (h : clauses.Written) :
    keptClauses clauses = clauses ↔ (clauses.having.isSome = true → aggregates clauses = true) := by
  obtain ⟨distinct, items, groupBy, having, windows, qualify⟩ := clauses
  obtain ⟨rfl, rfl, rfl⟩ : distinct = none ∧ windows = [] ∧ qualify = none := h
  cases having with
  | none => simp [keptClauses]
  | some having =>
    simp only [keptClauses, SelectClauses.mk.injEq, true_and, and_true, isSome_some,
      forall_const]
    split <;> simp_all

theorem keep_eq_iff (t : QueryTree) : ∀ {n}, Fits n t → (keep t = t ↔ HavingKept t) := by
  apply keep.induct (fun t => ∀ {n}, Fits n t → (keep t = t ↔ HavingKept t))
    (fun t => ∀ {n}, FitsFrom n t → (keepFrom t = t ↔ HavingKeptFrom t))
  case case1 =>
    intro clauses source ih n h
    rw [keep, HavingKept, QueryTree.select.injEq, keptClauses_eq_iff h.1, ih h.2]
  case case4 =>
    intro body limit offset ih n h
    cases limit <;> cases offset <;> grind [keep, Fits, HavingKept]
  all_goals grind [keep, keepFrom, Fits, FitsFrom, HavingKept, HavingKeptFrom]

section Built

/-- The plan is what is kept of the query. -/
structure StandsFor (plan : LogicalPlan) (tree : QueryTree) : Prop where
  readFree : ReadFree plan
  tree : planTree plan = keep tree

structure StandsIn (plan : LogicalPlan) (source : FromTree) : Prop where
  readFree : ReadFree plan
  tree : planFrom plan = keepFrom source

theorem planTree_eq_starOf (p : LogicalPlan) : planTree p = starOf (planFrom p) := by
  cases p <;> rfl

theorem keep_starOf (source : FromTree) : keep (starOf source) = starOf (keepFrom source) := by
  cases source <;> simp [starOf, allOf, keep, keepFrom, keptClauses]

variable {plan : LogicalPlan} {tree : QueryTree} {source : FromTree}

theorem keep_underWith (text : PlanText) (query : Query) (t : QueryTree) :
    keep (underWith text query t) = keep t := by
  unfold underWith
  split
  · rfl
  · split
    · rfl
    · rw [keep]

theorem StandsFor.underWith (h : StandsFor plan tree) (text : PlanText) (query : Query) :
    StandsFor plan (underWith text query tree) :=
  ⟨h.readFree, h.tree.trans (keep_underWith text query tree).symm⟩

theorem StandsFor.withOrderBy (h : StandsFor plan tree) (orderBy : Option OrderBy) :
    StandsFor (withOrderBy orderBy plan) (orderedTree orderBy tree) := by
  match orderBy with
  | none => exact h
  | some .all => exact ⟨h.readFree, congrArg (QueryTree.orderBy · []) h.tree⟩
  | some (.expressions exprs) =>
    simp only [PlanBuilder.withOrderBy, orderedTree]
    split
    · exact h
    · exact ⟨h.readFree, congrArg (QueryTree.orderBy · exprs) h.tree⟩

theorem keep_boundsTree (limit offset : Option Expr) (t : QueryTree) :
    keep (boundsTree limit offset t) = boundsTree limit offset (keep t) := by
  unfold boundsTree
  split <;> simp [keep]

theorem StandsFor.bounds (h : StandsFor plan tree) (limit offset : Option Expr) :
    StandsFor (if limit.isSome || offset.isSome then .limit plan limit offset else plan)
      (boundsTree limit offset tree) := by
  unfold boundsTree
  split
  · exact ⟨h.readFree, by rw [planTree, keep, h.tree]⟩
  · exact h

theorem keep_limitedTree (limitClause : Option LimitClause) (fetch : Option Fetch)
    (t : QueryTree) : keep (limitedTree limitClause fetch t) =
      keep (boundsTree (extractLimitOffset limitClause fetch).1
        (extractLimitOffset limitClause fetch).2 t) := by
  have parts : extractLimitOffset limitClause fetch =
      (if (limitParts limitClause).1.isNone then fetch.bind (·.quantity)
        else (limitParts limitClause).1, (limitParts limitClause).2.1) := by
    match limitClause with
    | some (.limitOffset ..) | some (.offsetCommaLimit ..) | none => rfl
  rw [parts, limitedTree, keep_boundsTree]
  generalize limitParts limitClause = bounds
  obtain ⟨limit, offset, limitBy⟩ := bounds
  cases fetch with
  | none =>
    simp only [bind_none]
    cases limit <;> split <;> simp [keep_boundsTree, keep]
  | some fetch =>
    simp only [bind_some]
    split
    next h =>
      have hlimit : limit.isNone = true := by simp_all
      rw [keep_boundsTree, if_pos hlimit]
    next => rw [keep]

theorem StandsFor.withLimit (h : StandsFor plan tree) (limitClause : Option LimitClause)
    (fetch : Option Fetch) :
    StandsFor (withLimit limitClause fetch plan) (limitedTree limitClause fetch tree) := by
  have bounds := h.bounds (extractLimitOffset limitClause fetch).1
    (extractLimitOffset limitClause fetch).2
  exact ⟨bounds.readFree, bounds.tree.trans (keep_limitedTree limitClause fetch tree).symm⟩

theorem StandsIn.withSelection (h : StandsIn plan source) (selection : Option Expr) :
    StandsIn (withSelection selection plan) (filteredTree selection source) := by
  cases selection with
  | none => exact h
  | some predicate => exact ⟨h.readFree, by rw [filteredTree, keepFrom, ← h.tree]; rfl⟩

theorem grouping_isSome (groupBy : GroupByExpr) :
    (grouping groupBy).isSome = PlanBuilder.hasGroupBy groupBy := by
  cases groupBy with
  | all => rfl
  | expressions exprs modifiers => cases exprs <;> rfl

theorem StandsIn.withProjection (h : StandsIn plan source) (distinct : Option (List Expr))
    (items : List SelectItem) (groupBy : GroupByExpr) (having : Option Expr)
    (windows : List WindowType) (qualify : Option Expr) :
    StandsFor (withProjection items groupBy having plan)
      (.select ⟨distinct, items, grouping groupBy, having, windows, qualify⟩ source) := by
  have grouped := grouping_isSome groupBy
  unfold PlanBuilder.withProjection
  split
  next hagg =>
    refine ⟨h.readFree, ?_⟩
    simp only [planTree, keep, keptClauses, aggregates, grouped, hagg, if_true, h.tree]
  next hagg =>
    have ungrouped : grouping groupBy = none := by
      rw [← not_isSome_iff_eq_none, grouped]
      simp_all
    have kept : keep (.select ⟨distinct, items, grouping groupBy, having, windows, qualify⟩
        source) = .select { items } (planFrom plan) := by
      have alone : aggregates ⟨distinct, items, grouping groupBy, having, windows, qualify⟩ ≠
          true := by
        rw [aggregates, grouped]
        exact hagg
      rw [keep, keptClauses, if_neg alone, h.tree, ungrouped]
    split
    · exact ⟨h.readFree, kept.symm⟩
    · exact ⟨h.readFree, kept.symm⟩

theorem StandsIn.join {left right : LogicalPlan} {l r : FromTree} (hl : StandsIn left l)
    (hr : StandsIn right r) (joinOp : JoinOperator) (leftKeys rightKeys : List ColumnRef) :
    StandsIn (.join left right joinOp leftKeys rightKeys) (joinTree joinOp l r) := by
  refine ⟨List.append_eq_nil_iff.mpr ⟨hl.readFree, hr.readFree⟩, ?_⟩
  rw [planFrom, hl.tree, hr.tree]
  rfl

theorem StandsIn.aliased (h : StandsIn plan source) (aliasName : TableAlias) :
    StandsIn (.subqueryScan plan aliasName) (aliasedTree aliasName source) := by
  refine ⟨h.readFree, ?_⟩
  rw [planFrom, planTree_eq_starOf, h.tree, ← keep_starOf]
  rfl

theorem StandsFor.derived (h : StandsFor plan tree) (aliasName : TableAlias)
    (parts : DerivedParts) :
    StandsIn (.subqueryScan plan aliasName) (.derived tree aliasName parts) := by
  refine ⟨h.readFree, ?_⟩
  rw [planFrom, h.tree]
  rfl

/-- Both ways of replacing names replace the same ones, by plans that stand for the trees. -/
structure Agree (resolve : CteMap → ObjectName → Option (Build LogicalPlan))
    (resolveTree : CteMap → ObjectName → Option (Build (QueryTree × List Ident))) : Prop where
  none : ∀ map name, resolve map name = none → resolveTree map name = none
  some : ∀ map name plan, resolve map name = some (.ok plan) →
    ∃ tree columns, resolveTree map name = some (.ok (tree, columns)) ∧ StandsFor plan tree

variable {text : PlanText} {resolve : CteMap → ObjectName → Option (Build LogicalPlan)}
  {resolveTree : CteMap → ObjectName → Option (Build (QueryTree × List Ident))}

/-- Where the first computation succeeds, so does the second, with a related result. -/
def Refines {α β : Type} (R : α → β → Prop) (x : Build α) (y : Build β) : Prop :=
  ∀ a, x = .ok a → ∃ b, y = .ok b ∧ R a b

section
variable {α β γ δ : Type} {R : α → β → Prop} {S : γ → δ → Prop} {x : Build α} {y : Build β}

theorem refines_ok {a : α} {b : β} (h : R a b) : Refines R (.ok a) (.ok b) := by
  rintro _ ⟨⟩
  exact ⟨b, rfl, h⟩

theorem refines_error {e : Stop} : Refines R (.error e) y := nofun

theorem Refines.bind {f : α → Build γ} {g : β → Build δ} (h : Refines R x y)
    (hf : ∀ a b, R a b → Refines S (f a) (g b)) : Refines S (x >>= f) (y >>= g) := by
  intro c hc
  obtain ⟨a, ha, hc⟩ := bind_eq_ok.mp hc
  obtain ⟨b, hb, hab⟩ := h a ha
  obtain ⟨d, hd, hcd⟩ := hf a b hab c hc
  exact ⟨d, bind_eq_ok.mpr ⟨b, hb, hd⟩, hcd⟩

theorem Refines.map {f : α → γ} {g : β → δ} (h : Refines R x y)
    (hf : ∀ a b, R a b → S (f a) (g b)) :
    Refines S (do let a ← x; return f a) (do let b ← y; return g b) :=
  h.bind fun a b hab => refines_ok (hf a b hab)

end

theorem buildQuery_stands (agree : Agree resolve resolveTree) (map : CteMap) (query : Query) :
    Refines StandsFor (buildFromQueryWithCtes text resolve map query)
      (treeOfQuery text resolveTree map query) := by
  apply buildFromQueryWithCtes.induct text resolve
    (fun map query => Refines StandsFor (buildFromQueryWithCtes text resolve map query)
      (treeOfQuery text resolveTree map query))
    (fun map body => Refines StandsFor (buildSetExpr text resolve map body)
      (treeOfSetExpr text resolveTree map body))
    (fun map select => Refines StandsFor (buildSelect text resolve map select)
      (treeOfSelect text resolveTree map select))
    (fun map «from» => Refines StandsIn (buildFromClause text resolve map «from»)
      (treeOfFromClause text resolveTree map «from»))
    (fun map acc rest => ∀ source, StandsIn acc source →
      Refines StandsIn (buildCrossJoins text resolve map acc rest)
        (treeOfCrossJoins text resolveTree map source rest))
    (fun map twj => Refines StandsIn (buildTableWithJoins text resolve map twj)
      (treeOfTableWithJoins text resolveTree map twj))
    (fun map acc joins => ∀ source, StandsIn acc source →
      Refines StandsIn (buildJoins text resolve map acc joins)
        (treeOfJoins text resolveTree map source joins))
    (fun map factor => Refines StandsIn (buildTableFactor text resolve map factor)
      (treeOfTableFactor text resolveTree map factor))
  all_goals
    intros
    simp only [buildFromQueryWithCtes, buildSetExpr, buildSelect, buildFromClause, buildCrossJoins,
      buildTableWithJoins, buildJoins, buildTableFactor, treeOfQuery, treeOfSetExpr, treeOfSelect,
      treeOfFromClause, treeOfCrossJoins, treeOfTableWithJoins, treeOfJoins, treeOfTableFactor]
  case case1 body =>
    exact body.map fun _ _ stands => ((stands.withOrderBy _).withLimit _ _).underWith text _
  case case4 left right =>
    refine left.bind fun _ _ standsLeft => right.map fun _ _ standsRight => ?_
    refine ⟨List.append_eq_nil_iff.mpr ⟨standsLeft.readFree, standsRight.readFree⟩, ?_⟩
    rw [planTree, keep, standsLeft.tree, standsRight.tree]
  case case7 source =>
    exact source.map fun _ _ stands => (stands.withSelection _).withProjection _ _ _ _ _ _
  case case8 first rest | case16 first rest => exact first.bind fun plan source => rest plan source
  case case18 right rest source stands | case20 right rest source stands =>
    exact right.bind fun plan _ standsRight => rest plan _ (stands.join standsRight _ _ _)
  case case9 map name _ _ built hres =>
    intro plan h
    rw [hres] at h
    obtain ⟨inner, rfl, heq⟩ := bind_eq_ok.mp h
    cases heq
    obtain ⟨tree, columns, hresTree, stands⟩ := agree.some map name inner hres
    exact ⟨_, by rw [hresTree]; rfl, stands.derived _ _⟩
  case case10 map name _ _ hres =>
    rw [hres, agree.none map name hres]
    exact refines_ok ⟨rfl, rfl⟩
  case case11 aliasName inner =>
    refine inner.bind fun _ _ stands => ?_
    cases aliasName with
    | none => exact refines_error
    | some aliasName => exact refines_ok (stands.derived aliasName _)
  case case12 aliasName inner =>
    refine inner.bind fun _ _ stands => ?_
    cases aliasName with
    | none => exact refines_ok stands
    | some aliasName => exact refines_ok (stands.aliased aliasName)
  case case2 | case3 => assumption
  case case5 | case6 | case15 => exact refines_error
  case case13 | case14 => exact refines_ok ⟨rfl, rfl⟩
  case case17 stands | case19 stands => exact refines_ok stands

theorem agree_expand {find : Find} {build : CteMap → Query → Build LogicalPlan}
    {tree : CteMap → Query → Build QueryTree}
    (h : ∀ map query, Refines StandsFor (build map query) (tree map query)) :
    Agree (expandWith find build) (expandTree find tree) := by
  constructor
  · intro map name hnone
    cases hfind : find map name with
    | none => simp only [expandTree, hfind]
    | some entry =>
      obtain ⟨cte, env⟩ := entry
      simp only [expandWith, expandTree, hfind] at hnone ⊢
      by_cases hfrom : queryHasFrom cte.query
      · simp [hfrom] at hnone
      · simp [hfrom]
  · intro map name plan hsome
    cases hfind : find map name with
    | none => simp [expandWith, hfind] at hsome
    | some entry =>
      obtain ⟨cte, env⟩ := entry
      simp only [expandWith, expandTree, hfind] at hsome ⊢
      by_cases hfrom : queryHasFrom cte.query
      · rw [if_pos hfrom] at hsome ⊢
        obtain ⟨t, ht, stands⟩ := h env cte.query plan (Option.some.inj hsome)
        refine ⟨t, cte.alias.columns, ?_, stands⟩
        rw [ht]
        rfl
      · simp [hfrom] at hsome

theorem buildPlan_stands {find : Find} (fuel : Nat) (map : CteMap) (query : Query) :
    Refines StandsFor (buildPlan text find fuel map query) (treeOf text find fuel map query) := by
  induction fuel generalizing map query with
  | zero => exact refines_error
  | succ fuel ih => exact buildQuery_stands (agree_expand ih) map query

theorem treeOf_eq (text : PlanText) (find : Find) (fuel : Nat) (query : Query) :
    treeOf text find fuel [] query =
      (do return underWith text query (← statementTree text find fuel query)) := by
  cases fuel with
  | zero => rfl
  | succ fuel =>
    obtain ⟨recursive, ctes, body, orderBy, limitClause, fetch⟩ := query
    rw [treeOf, treeOfQuery, statementTree]
    cases treeOfSetExpr text (expandTree find (treeOf text find fuel)) (insertCtes text [] ctes)
      body with
    | error e | ok tree => rfl

theorem statement_stands {find : Find} {fuel : Nat} {query : Query} {plan : LogicalPlan}
    (h : buildPlan text find fuel [] query = .ok plan) :
    ∃ tree, statementTree text find fuel query = .ok tree ∧ StandsFor plan tree := by
  obtain ⟨whole, hwhole, stands⟩ := buildPlan_stands fuel [] query plan h
  rw [treeOf_eq] at hwhole
  obtain ⟨tree, htree, heq⟩ := bind_eq_ok.mp hwhole
  cases heq
  exact ⟨tree, htree, stands.readFree, stands.tree.trans (keep_underWith text query tree)⟩

end Built

/-- The query that the SQL of a plan is read as. -/
def reread (plan : LogicalPlan) : Option QueryTree := readQuery (printQuery (generateSql plan))

theorem reread_eq {plan : LogicalPlan} (h : ReadFree plan) :
    reread plan = readQuery (writeQuery (planTree plan)) := by
  rw [reread, (print_plan h).1]

/-- The SQL of a plan is read as the query of the plan, with its set operations and joins, its
orderings and limits and its join conditions in their places, exactly if every part fits the place
where it stands. -/
theorem grouping_kept_iff (text : PlanText) (find : Find) (fuel : Nat) (map : CteMap)
    (query : Query) {plan : LogicalPlan} (h : buildPlan text find fuel map query = .ok plan) :
    reread plan = some (planTree plan) ↔ Fits 5 (planTree plan) := by
  obtain ⟨tree, -, stands⟩ := buildPlan_stands fuel map query plan h
  rw [reread_eq stands.readFree]
  exact readQuery_writeQuery_iff _

section Cases

open SelectCalls

/-- `SELECT items FROM …`. -/
def selectOf (items : List SelectItem) («from» : List TableWithJoins) : Select :=
  ⟨none, items, «from», none, .expressions [] [], none, [], none⟩

/-- `SELECT x FROM name`. -/
def selectX (name : String) : SetExpr :=
  .select (selectOf [.unnamedExpr (column "x")] [⟨tableNamed name, []⟩])

def treeX (name : String) : QueryTree :=
  .select { items := [.unnamedExpr (column "x")] } (.factor (tableNamed name))

def queryOf (body : SetExpr) : Query := ⟨false, [], body, none, none, none⟩

def builtPlan (query : Query) : Build LogicalPlan :=
  buildPlan plainText (findAtUse plainText) 1 [] query

noncomputable def builtTree (query : Query) : Build QueryTree :=
  statementTree plainText (findAtUse plainText) 1 query

def joinOn (condition : String) : JoinOperator := .plain .join (.on (column condition))

/-- `SELECT x FROM a JOIN (b JOIN c ON p) ON q UNION SELECT x FROM d INTERSECT SELECT x FROM e`,
with `LIMIT 3`. -/
def nestedJoins : Query :=
  { queryOf (.setOperation .union .none
      (.select (selectOf [.unnamedExpr (column "x")] [⟨tableNamed "a",
        [⟨.nestedJoin ⟨tableNamed "b", [⟨tableNamed "c", joinOn "p"⟩]⟩ none, joinOn "q"⟩]⟩]))
      (.setOperation .intersect .none (selectX "d") (selectX "e"))) with
    limitClause := some (.limitOffset (some (.value (.number "3"))) none []) }

/-- The condition `q` comes after `p` and closes the outer join. -/
theorem grouping_kept_iff_nested :
    ∃ plan, builtPlan nestedJoins = .ok plan ∧ reread plan = some (planTree plan) := by
  refine ⟨_, rfl, (grouping_kept_iff plainText (findAtUse plainText) 1 [] nestedJoins rfl).mpr ?_⟩
  exact ⟨by decide, by decide, ⟨⟨rfl, rfl, rfl⟩, by decide, trivial, rfl, trivial, by decide,
    trivial, rfl, trivial, trivial⟩, by decide, ⟨⟨rfl, rfl, rfl⟩, trivial⟩, ⟨rfl, rfl, rfl⟩,
    trivial⟩

/-- `(SELECT x FROM a UNION SELECT x FROM b) INTERSECT SELECT x FROM c`. -/
def unionFirst : Query :=
  queryOf (.setOperation .intersect .none
    (.query (queryOf (.setOperation .union .none (selectX "a") (selectX "b")))) (selectX "c"))

/-- Without its parentheses the union takes the intersection for its right side. -/
theorem union_regrouped :
    ∃ plan, builtPlan unionFirst = .ok plan ∧
      planTree plan =
        .setOp .intersect .none (.setOp .union .none (treeX "a") (treeX "b")) (treeX "c") ∧
      reread plan =
        some (.setOp .union .none (treeX "a") (.setOp .intersect .none (treeX "b") (treeX "c"))) ∧
      reread plan ≠ some (planTree plan) := by
  refine ⟨_, rfl, rfl, rfl, fun h => ?_⟩
  cases (show some (QueryTree.setOp .union .none (treeX "a")
    (.setOp .intersect .none (treeX "b") (treeX "c"))) = some (.setOp .intersect .none
      (.setOp .union .none (treeX "a") (treeX "b")) (treeX "c")) from h)

/-- `SELECT x, sum(y) FROM t GROUP BY x HAVING p ORDER BY x LIMIT 3 OFFSET 1`. -/
def groupedQuery : Query :=
  { queryOf (.select { selectOf [.unnamedExpr (column "x"), .unnamedExpr (call "sum" (column "y")
        none)] [⟨tableNamed "t", []⟩] with
      groupBy := .expressions [column "x"] []
      having := some (column "p") }) with
    orderBy := some (.expressions [⟨column "x", {}⟩])
    limitClause := some (.limitOffset (some (.value (.number "3"))) (some (.value (.number "1")))
      []) }

/-- `SELECT DISTINCT x FROM a`. -/
def distinctQuery : Query :=
  queryOf (.select { selectOf [.unnamedExpr (column "x")] [⟨tableNamed "a", []⟩] with
    distinct := some [] })

end Cases

end Leibrix.PlanClauses
