import Leibrix.PlanBuilder

/-!
# What a plan is built from

The builder goes through the FROM clauses of a query and through the queries in them, and
keeps the expressions of every clause as they are. The parts of a query are the factors
and expressions it meets, each with the CTE entries that were added on the way. What the
builder makes of a query depends on its parts only, and what is in a plan is a part of the
query, or came in with a replaced name.
-/

set_option autoImplicit false

namespace Leibrix.PlanParts
open SqlAst SqlScopes LdpTypes PlanBuilder List

abbrev Parts := List (CteMap × Node)

def exprParts (es : List Expr) : Parts := es.map fun e => ([], .expr e)

variable {ctes : List Cte} {parts : Parts} {es : List Expr} (text : PlanText)

section
def entries (ctes : List Cte) : CteMap := (ctes.map (cteEntry text)).reverse

def below (ctes : List Cte) (parts : Parts) : Parts :=
  parts.map fun part => (part.1 ++ entries text ctes, part.2)

mutual

def queryParts : Query → Parts
  | ⟨_, ctes, body, orderBy, limitClause, fetch⟩ =>
    below text ctes (setExprParts body ++
      exprParts (orderByExprs orderBy ++ (limitExprs limitClause ++ fetchExprs fetch)))

def setExprParts : SetExpr → Parts
  | .select select => selectParts select
  | .query query => queryParts query
  | .setOperation _ _ left right => setExprParts left ++ setExprParts right
  | _ => []

def selectParts : Select → Parts
  | ⟨_, projection, «from», selection, groupBy, having, _, _⟩ =>
    fromParts «from» ++ exprParts (selection.toList ++
      (projection.filterMap itemExpr ++ (groupByExprs groupBy ++ having.toList)))

def fromParts : List TableWithJoins → Parts
  | [] => []
  | twj::rest => twjParts twj ++ fromParts rest

def twjParts : TableWithJoins → Parts
  | ⟨relation, joins⟩ => factorParts relation ++ joinsParts joins

def joinsParts : List Join → Parts
  | [] => []
  | ⟨relation, joinOperator⟩::joins =>
    factorParts relation ++ (exprParts (extractJoinOnExpr joinOperator).toList ++ joinsParts joins)

def factorParts : TableFactor → Parts
  | .derived _ subquery _ => queryParts subquery
  | .nestedJoin tableWithJoins _ => twjParts tableWithJoins
  | factor => [([], .tableFactor factor)]

end

theorem insertCtes_eq (map : CteMap) (ctes : List Cte) :
    insertCtes text map ctes = entries text ctes ++ map := by
  unfold insertCtes entries
  induction ctes generalizing map with
  | nil => rfl
  | cons cte ctes ih =>
    rw [foldl_cons, ih, map_cons, reverse_cons, append_assoc]
    rfl

variable {ext : CteMap}

theorem mem_below {node : Node} (h : (ext, node) ∈ parts) :
    (ext ++ entries text ctes, node) ∈ below text ctes parts :=
  mem_map.mpr ⟨(ext, node), h, rfl⟩

theorem mem_exprParts {node : Node} (h : (ext, node) ∈ exprParts es) :
    ext = [] ∧ ∃ e ∈ es, node = .expr e := by
  obtain ⟨e, he, heq⟩ := mem_map.mp h
  cases heq
  exact ⟨rfl, e, he, rfl⟩

end

section Relate

/-- A relation between two ways to build that respects the steps of the builder. -/
structure Congruence where
  rel : Build LogicalPlan → Build LogicalPlan → Prop
  ok : ∀ plan, rel (.ok plan) (.ok plan)
  error : ∀ e, rel (.error (.error e)) (.error (.error e))
  bind : ∀ {x y : Build LogicalPlan} {f g : LogicalPlan → Build LogicalPlan},
    rel x y → (∀ plan, rel (f plan) (g plan)) → rel (x >>= f) (y >>= g)

theorem Congruence.map (c : Congruence) {x y : Build LogicalPlan} (f : LogicalPlan → LogicalPlan)
    (h : c.rel x y) : c.rel (do let plan ← x; return f plan) (do let plan ← y; return f plan) :=
  c.bind h fun plan => c.ok (f plan)

variable (c : Congruence) (resolve resolve' : CteMap → ObjectName → Option (Build LogicalPlan))

/-- The table names among the parts are resolved to related results. -/
def Matching (map map' : CteMap) (parts : Parts) : Prop :=
  ∀ ext name a args, (ext, Node.tableFactor (.table name a args)) ∈ parts →
    Option.Rel c.rel (resolve (ext ++ map) name) (resolve' (ext ++ map') name)

variable {c resolve resolve'} {map map' : CteMap}

variable {a b : Parts} (h : Matching c resolve resolve' map map' (a ++ b))
include h

theorem Matching.left : Matching c resolve resolve' map map' a :=
  fun ext name al args hmem => h ext name al args (mem_append_left _ hmem)

theorem Matching.right : Matching c resolve resolve' map map' b :=
  fun ext name al args hmem => h ext name al args (mem_append_right _ hmem)

omit h

theorem Matching.below (h : Matching c resolve resolve' map map' (below text ctes parts)) :
    Matching c resolve resolve' (insertCtes text map ctes) (insertCtes text map' ctes) parts := by
  intro ext name a args hmem
  rw [insertCtes_eq, insertCtes_eq, ← append_assoc, ← append_assoc]
  exact h _ name a args (mem_below text hmem)

variable (c resolve resolve') in
/-- From matching maps the builder comes to related results. -/
def Related (map : CteMap) (parts : Parts)
    (build : (CteMap → ObjectName → Option (Build LogicalPlan)) → CteMap → Build LogicalPlan) :
    Prop :=
  ∀ map', Matching c resolve resolve' map map' parts →
    c.rel (build resolve map) (build resolve' map')

theorem buildQuery_rel (query : Query)
    (h : Matching c resolve resolve' map map' (queryParts text query)) :
    c.rel (buildFromQueryWithCtes text resolve map query)
      (buildFromQueryWithCtes text resolve' map' query) := by
  revert map'
  change Related c resolve resolve' map (queryParts text query)
    (buildFromQueryWithCtes text · · query)
  apply buildFromQueryWithCtes.induct text resolve
    (fun map query => Related c resolve resolve' map (queryParts text query)
      (buildFromQueryWithCtes text · · query))
    (fun map body => Related c resolve resolve' map (setExprParts text body)
      (buildSetExpr text · · body))
    (fun map select => Related c resolve resolve' map (selectParts text select)
      (buildSelect text · · select))
    (fun map «from» => Related c resolve resolve' map (fromParts text «from»)
      (buildFromClause text · · «from»))
    (fun map plan rest => Related c resolve resolve' map (fromParts text rest)
      (buildCrossJoins text · · plan rest))
    (fun map twj => Related c resolve resolve' map (twjParts text twj)
      (buildTableWithJoins text · · twj))
    (fun map plan joins => Related c resolve resolve' map (joinsParts text joins)
      (buildJoins text · · plan joins))
    (fun map factor => Related c resolve resolve' map (factorParts text factor)
      (buildTableFactor text · · factor))
  all_goals
    intros
    simp only [queryParts, setExprParts, selectParts, fromParts, twjParts, joinsParts, factorParts,
      buildFromQueryWithCtes, buildSetExpr, buildSelect, buildFromClause, buildCrossJoins,
      buildTableWithJoins, buildJoins, buildTableFactor]
  case case1 body => exact fun map' h => c.map _ (body _ h.below.left)
  case case4 left right =>
    exact fun map' h => c.bind (left map' h.left) fun _ => c.map _ (right map' h.right)
  case case7 source => exact fun map' h => c.map _ (source map' h.left)
  case case8 first rest | case16 first rest | case18 first rest =>
    exact fun map' h => c.bind (first map' h.left) fun plan => rest plan map' h.right
  case case20 first rest =>
    exact fun map' h => c.bind (first map' h.left) fun plan => rest plan map' h.right.right
  case case9 map name a args _ _ | case10 map name a args _ =>
    intro map' h
    have found := h [] name a args (mem_singleton.mpr rfl)
    rw [nil_append, nil_append] at found
    dsimp only
    generalize resolve map name = r at found ⊢
    generalize resolve' map' name = r' at found ⊢
    cases found with
    | some hb => exact c.map _ hb
    | none => exact c.ok _
  case case11 a inner =>
    refine fun map' h => c.bind (inner map' h) fun plan => ?_
    cases a with
    | some a => exact c.ok _
    | none => exact c.error _
  case case12 a inner =>
    refine fun map' h => c.bind (inner map' h) fun plan => ?_
    cases a with
    | some a | none => exact c.ok _
  case case2 | case3 => assumption
  case case5 | case6 | case15 => exact fun _ _ => c.error _
  case case13 | case14 | case17 | case19 => exact fun _ _ => c.ok _

end Relate

section Trace

/-- What a plan has at its leaves and in its clauses. -/
inductive Item where
  | scan (tableName : String) (tableFactor : TableFactor)
  | expr (e : Expr)

def Item.node : Item → Node
  | .scan _ tableFactor => .tableFactor tableFactor
  | .expr e => .expr e

def planItems : LogicalPlan → List Item
  | .scan tableName _ tableFactor => [.scan tableName tableFactor]
  | .exchangeRead _ _ => []
  | .filter input predicate => .expr predicate::planItems input
  | .project input items => (items.filterMap itemExpr).map .expr ++ planItems input
  | .aggregate input groupBy items having _ =>
    (items.filterMap itemExpr ++ (groupByExprs groupBy ++ having.toList)).map .expr ++
      planItems input
  | .sort input orderBy => orderBy.map (fun o => .expr o.expr) ++ planItems input
  | .limit input limit offset => (limit.toList ++ offset.toList).map .expr ++ planItems input
  | .window input items _ => (items.filterMap itemExpr).map .expr ++ planItems input
  | .join left right joinOp _ _ =>
    (extractJoinOnExpr joinOp).toList.map .expr ++ (planItems left ++ planItems right)
  | .setOp left right _ _ => planItems left ++ planItems right
  | .subqueryScan input _ => planItems input

variable (resolve : CteMap → ObjectName → Option (Build LogicalPlan))

/-- Where an item of a plan comes from: it is a part that was not replaced, or it came in with
the plan of a part that was. -/
inductive Traced (map : CteMap) (parts : Parts) (item : Item) : Prop where
  | part (ext : CteMap) (hmem : (ext, item.node) ∈ parts)
      (hkept : ∀ name a args, item.node = .tableFactor (.table name a args) →
        item = .scan (objectNameToString name) (.table name a args) ∧
          resolve (ext ++ map) name = none)
  | replaced (ext : CteMap) (name : ObjectName) (a : Option TableAlias)
      (args : Option (List FunctionArg)) (plan : LogicalPlan)
      (hmem : (ext, .tableFactor (.table name a args)) ∈ parts)
      (hres : resolve (ext ++ map) name = some (.ok plan)) (hitem : item ∈ planItems plan)

/-- What a finished plan says of the parts that it was built from. -/
structure Built (map : CteMap) (parts : Parts) (items : List Item) : Prop where
  resolved : ∀ ext name a args built, (ext, Node.tableFactor (.table name a args)) ∈ parts →
    resolve (ext ++ map) name = some built → ∃ plan, built = .ok plan
  traced : ∀ item ∈ items, Traced resolve map parts item

variable {text resolve} {map : CteMap}

variable {a b : Parts} {m n : List Item}

theorem Traced.mono {item : Item} (h : Traced resolve map a item) (hsub : a ⊆ b) :
    Traced resolve map b item := by
  cases h with
  | part ext hmem hkept => exact .part ext (hsub hmem) hkept
  | replaced ext name a args plan hmem hres hitem =>
    exact .replaced ext name a args plan (hsub hmem) hres hitem

theorem Built.append (h : Built resolve map a m) (h' : Built resolve map b n) :
    Built resolve map (a ++ b) (m ++ n) := by
  constructor
  · intro ext name al args built hmem
    rcases mem_append.mp hmem with hmem | hmem
    · exact h.resolved ext name al args built hmem
    · exact h'.resolved ext name al args built hmem
  · intro item hitem
    rcases mem_append.mp hitem with hitem | hitem
    · exact (h.traced item hitem).mono (subset_append_left a b)
    · exact (h'.traced item hitem).mono (subset_append_right a b)

theorem built_nil : Built resolve map [] [] := ⟨nofun, nofun⟩

theorem Built.weaken (h : Built resolve map parts m) (hsub : n ⊆ m) : Built resolve map parts n :=
  ⟨h.resolved, fun item hitem => h.traced item (hsub hitem)⟩

theorem built_exprs (es : List Expr) : Built resolve map (exprParts es) (es.map .expr) := by
  constructor
  · intro ext name a args built hmem
    obtain ⟨-, e, -, heq⟩ := mem_exprParts hmem
    cases heq
  · intro item hitem
    obtain ⟨e, he, rfl⟩ := mem_map.mp hitem
    exact .part [] (mem_map.mpr ⟨e, he, rfl⟩) nofun

theorem Built.clauses (h : Built resolve map parts m) (hsub : n ⊆ m ++ es.map .expr) :
    Built resolve map (parts ++ exprParts es) n :=
  (h.append (built_exprs es)).weaken hsub

theorem built_scan {tableName : String} {factor : TableFactor}
    (hkept : ∀ name a args, factor = .table name a args →
      tableName = objectNameToString name ∧ resolve map name = none) :
    Built resolve map [([], .tableFactor factor)] [.scan tableName factor] := by
  constructor
  · intro ext name a args built hmem hres
    cases mem_singleton.mp hmem
    rw [nil_append, (hkept name a args rfl).2] at hres
    cases hres
  · intro item hitem
    cases mem_singleton.mp hitem
    refine .part [] (mem_singleton.mpr rfl) fun name a args heq => ?_
    cases heq
    obtain ⟨rfl, hres⟩ := hkept name a args rfl
    exact ⟨rfl, hres⟩

theorem built_replaced {name : ObjectName} {a : Option TableAlias}
    {args : Option (List FunctionArg)} {plan : LogicalPlan}
    (hres : resolve map name = some (.ok plan)) :
    Built resolve map [([], .tableFactor (.table name a args))] (planItems plan) := by
  constructor
  · intro ext name' a' args' built hmem hres'
    cases mem_singleton.mp hmem
    rw [nil_append, hres] at hres'
    cases hres'
    exact ⟨plan, rfl⟩
  · intro item hitem
    exact .replaced [] name a args plan (mem_singleton.mpr rfl) hres hitem

theorem Built.below {items : List Item} (h : Built resolve (insertCtes text map ctes) parts items) :
    Built resolve map (below text ctes parts) items := by
  have hmap : ∀ ext, ext ++ insertCtes text map ctes = (ext ++ entries text ctes) ++ map := by
    intro ext
    rw [insertCtes_eq, append_assoc]
  constructor
  · intro ext name a args built hmem hres
    obtain ⟨⟨ext', item⟩, hmem', heq⟩ := mem_map.mp hmem
    cases heq
    rw [← hmap] at hres
    exact h.resolved ext' name a args built hmem' hres
  · intro item hitem
    cases h.traced item hitem with
    | part ext hmem hkept =>
      refine .part _ (mem_below text hmem) fun name a args heq => ?_
      rw [← hmap]
      exact hkept name a args heq
    | replaced ext name a args plan hmem hres hitem =>
      rw [hmap] at hres
      exact .replaced _ name a args plan (mem_below text hmem) hres hitem

theorem planItems_withLimit (limitClause : Option LimitClause) (fetch : Option Fetch)
    (plan : LogicalPlan) : planItems (withLimit limitClause fetch plan) ⊆
      planItems plan ++ (limitExprs limitClause ++ fetchExprs fetch).map .expr := by
  have hexprs : (extractLimitOffset limitClause fetch).1.toList ++
      (extractLimitOffset limitClause fetch).2.toList ⊆
        limitExprs limitClause ++ fetchExprs fetch := by
    have quantity : (fetch.bind (·.quantity)).toList = fetchExprs fetch := by cases fetch <;> rfl
    cases limitClause with
    | none => simp [extractLimitOffset, limitExprs, quantity]
    | some clause =>
      cases clause with
      | limitOffset limit offset limitBy =>
        cases limit <;> simp [extractLimitOffset, limitExprs, quantity]
      | offsetCommaLimit offset limit => simp [extractLimitOffset, limitExprs]
  unfold withLimit
  simp only
  split
  · rw [planItems]
    exact append_subset.mpr ⟨subset_append_of_subset_right _ (map_subset _ hexprs),
      subset_append_left _ _⟩
  · exact subset_append_left _ _

theorem planItems_withOrderBy (orderBy : Option OrderBy) (plan : LogicalPlan) :
    planItems (withOrderBy orderBy plan) ⊆ planItems plan ++ (orderByExprs orderBy).map .expr := by
  unfold withOrderBy
  split
  · rename_i exprs
    split
    · exact subset_append_left _ _
    · intro item hitem
      simpa [planItems, orderByExprs, or_comm] using hitem
  · exact subset_append_left _ _
  · exact subset_append_left _ _

theorem planItems_withSelection (selection : Option Expr) (plan : LogicalPlan) :
    planItems (withSelection selection plan) ⊆ planItems plan ++ selection.toList.map .expr := by
  intro item hitem
  cases selection with
  | none => simpa [withSelection] using hitem
  | some e => simpa [withSelection, planItems, or_comm] using hitem

theorem planItems_withProjection (projection : List SelectItem) (groupBy : GroupByExpr)
    (having : Option Expr) (plan : LogicalPlan) :
    planItems (withProjection projection groupBy having plan) ⊆ planItems plan ++
      (projection.filterMap itemExpr ++ (groupByExprs groupBy ++ having.toList)).map .expr := by
  unfold withProjection
  split
  · rw [planItems]
    exact append_subset.mpr ⟨subset_append_right _ _, subset_append_left _ _⟩
  · split <;>
    · rw [planItems]
      exact append_subset.mpr ⟨subset_append_of_subset_right _
        (map_subset _ (subset_append_left _ _)), subset_append_left _ _⟩

theorem planItems_crossJoin (left right : LogicalPlan) :
    planItems (crossJoin left right) = planItems left ++ planItems right := rfl

theorem planItems_joinPlans (joinOp : JoinOperator) (left right : LogicalPlan) :
    planItems (joinPlans joinOp left right) =
      (extractJoinOnExpr joinOp).toList.map .expr ++ (planItems left ++ planItems right) := rfl

theorem buildQuery_built (query : Query) (plan : LogicalPlan)
    (h : buildFromQueryWithCtes text resolve map query = .ok plan) :
    Built resolve map (queryParts text query) (planItems plan) := by
  revert plan
  apply buildFromQueryWithCtes.induct text resolve
    (fun map query => ∀ plan, buildFromQueryWithCtes text resolve map query = .ok plan →
      Built resolve map (queryParts text query) (planItems plan))
    (fun map body => ∀ plan, buildSetExpr text resolve map body = .ok plan →
      Built resolve map (setExprParts text body) (planItems plan))
    (fun map select => ∀ plan, buildSelect text resolve map select = .ok plan →
      Built resolve map (selectParts text select) (planItems plan))
    (fun map «from» => ∀ plan, buildFromClause text resolve map «from» = .ok plan →
      Built resolve map (fromParts text «from») (planItems plan))
    (fun map acc rest => ∀ plan, buildCrossJoins text resolve map acc rest = .ok plan →
      ∃ items, Built resolve map (fromParts text rest) items ∧
        planItems plan ⊆ planItems acc ++ items)
    (fun map twj => ∀ plan, buildTableWithJoins text resolve map twj = .ok plan →
      Built resolve map (twjParts text twj) (planItems plan))
    (fun map acc joins => ∀ plan, buildJoins text resolve map acc joins = .ok plan →
      ∃ items, Built resolve map (joinsParts text joins) items ∧
        planItems plan ⊆ planItems acc ++ items)
    (fun map factor => ∀ plan, buildTableFactor text resolve map factor = .ok plan →
      Built resolve map (factorParts text factor) (planItems plan))
  all_goals
    intros
    simp only [queryParts, setExprParts, selectParts, fromParts, twjParts, joinsParts, factorParts,
      buildFromQueryWithCtes, buildSetExpr, buildSelect, buildFromClause, buildCrossJoins,
      buildTableWithJoins, buildJoins, buildTableFactor] at *
  case case1 ih plan h =>
    obtain ⟨inner, hinner, heq⟩ := bind_eq_ok.mp h
    cases heq
    apply Built.below
    rw [exprParts, map_append, ← append_assoc]
    exact ((ih inner hinner).clauses (planItems_withOrderBy _ _)).clauses
      (planItems_withLimit _ _ _)
  case case4 ihleft ihright plan h =>
    obtain ⟨left, hleft, h⟩ := bind_eq_ok.mp h
    obtain ⟨right, hright, heq⟩ := bind_eq_ok.mp h
    cases heq
    exact (ihleft left hleft).append (ihright right hright)
  case case7 ih plan h =>
    obtain ⟨source, hsource, heq⟩ := bind_eq_ok.mp h
    cases heq
    rw [exprParts, map_append, ← append_assoc]
    exact ((ih source hsource).clauses (planItems_withSelection _ _)).clauses
      (planItems_withProjection _ _ _ _)
  case case8 ihfirst ihrest plan h | case16 ihfirst ihrest plan h =>
    obtain ⟨first, hfirst, h⟩ := bind_eq_ok.mp h
    obtain ⟨items, hrest, hsub⟩ := ihrest first plan h
    exact ((ihfirst first hfirst).append hrest).weaken hsub
  case case18 ihright ihrest plan h =>
    obtain ⟨right, hright, h⟩ := bind_eq_ok.mp h
    obtain ⟨items, hrest, hsub⟩ := ihrest right plan h
    refine ⟨_, (ihright right hright).append hrest, ?_⟩
    rwa [planItems_crossJoin, append_assoc] at hsub
  case case20 ihright ihrest plan h =>
    obtain ⟨right, hright, h⟩ := bind_eq_ok.mp h
    obtain ⟨items, hrest, hsub⟩ := ihrest right plan h
    refine ⟨_, (ihright right hright).append ((built_exprs _).append hrest), ?_⟩
    rw [planItems_joinPlans] at hsub
    grind
  case case9 hres plan h =>
    rw [hres] at h
    obtain ⟨inner, rfl, heq⟩ := bind_eq_ok.mp h
    cases heq
    rw [subqueryScan, planItems]
    exact built_replaced hres
  case case10 hres plan h =>
    rw [hres] at h
    cases h
    apply built_scan
    intro name' a' args' heq
    cases heq
    exact ⟨rfl, hres⟩
  case case11 a ih plan h =>
    obtain ⟨inner, hinner, h⟩ := bind_eq_ok.mp h
    cases a with
    | none => cases h
    | some a =>
      cases h
      exact ih inner hinner
  case case12 a ih plan h =>
    obtain ⟨inner, hinner, h⟩ := bind_eq_ok.mp h
    cases a with
    | none =>
      cases h
      exact ih plan hinner
    | some a =>
      cases h
      exact ih inner hinner
  case case2 ih plan h | case3 ih plan h => exact ih plan h
  case case5 h | case6 h | case15 h => cases h
  case case13 h | case14 h =>
    cases h
    apply built_scan
    simp_all
  case case17 h | case19 h =>
    cases h
    exact ⟨[], built_nil, subset_append_left _ _⟩

end Trace

end Leibrix.PlanParts
