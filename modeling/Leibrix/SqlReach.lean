import Leibrix.SqlRewrite

/-!
# Discovery reaches what the rewriting pass comes by

Discovery and rewriting are separate traversals. Discovery enters every place
that the rewriting pass enters, so a dataset met while rewriting always has a
replacement, and the transformed statement can be described by the registry
alone.
-/

set_option autoImplicit false

namespace Leibrix.SqlReach
open SqlAst SqlDiscovery SqlScopes SqlRewrite List

section
variable {registered : List String}

variable (registered) in
def visitNode : Node → Found
  | .query query => visitQuery registered query
  | .setExpr body => visitSetExpr registered body
  | .select select => visitSelect registered select
  | .tableWithJoins twj => visitTableWithJoins registered twj
  | .tableFactor factor => visitTableFactor registered factor
  | .expr e => visitExprForSubqueries registered e
  | .qualifiedWildcard _ => .ok []

variable (registered) in
def Reached (found : List TableReference) (node : Node) : Prop :=
  ∃ ts, visitNode registered node = .ok ts ∧ ts ⊆ found

variable {a b ts : List TableReference} {ctx : Ctx} {es : List Expr} {select : Select} {ctx' : Ctx}

variable {node : Node}

theorem Reached.mono (h : Reached registered a node) (hab : a ⊆ b) : Reached registered b node := by
  obtain ⟨ts, hv, hs⟩ := h
  exact ⟨ts, hv, Subset.trans hs hab⟩

/-! ## Contexts along a path -/

/-- The inner context sees the same FROM items and is entered only with the outer. -/
structure SameScope (outer inner : Ctx) : Prop where
  visited : inner.visited = true → outer.visited = true
  frames : inner.frames = outer.frames

@[simp] theorem sameScope_refl (ctx : Ctx) : SameScope ctx ctx := ⟨id, rfl⟩

@[simp] theorem sameScope_skipped (ctx : Ctx) : SameScope ctx ctx.skipped := ⟨nofun, rfl⟩

theorem exprs_scope (h : SameScope ctx ctx') (es : List Expr) :
    ∀ place ∈ exprs ctx' es, SameScope ctx place.1 := by
  simp [exprs, h]

theorem argNodes_scope (ctx : Ctx) (args : List FunctionArg) :
    ∀ place ∈ args.flatMap (argNodes ctx), SameScope ctx place.1 := by
  refine forall_mem_flatMap.mpr fun arg _ => ?_
  rcases arg with (_ | _ | _) | ⟨_, (_ | _ | _)⟩ | ⟨_, (_ | _ | _)⟩ <;>
    simp [argNodes, argExprNodes]

theorem exprNodes_scope (ctx : Ctx) (e : Expr) :
    ∀ place ∈ exprNodes ctx e, SameScope ctx place.1 := by
  have same := exprs_scope (sameScope_refl ctx)
  have skip := exprs_scope (sameScope_skipped ctx)
  cases e with
  | case operand conditions elseResult =>
    simp only [exprNodes, forall_mem_append]
    exact ⟨⟨same _, skip _⟩, same _⟩
  | function func =>
    obtain ⟨name, args, filter, withinGroup, window⟩ := func
    refine forall_mem_append.mpr ⟨?_, skip _⟩
    cases args with
    | list args => exact argNodes_scope ctx args
    | _ => simp [argumentsNodes]
  | _ => simp [exprNodes, exprs]

theorem cteNodes_scope (ctx : Ctx) (recursive : Bool) (env : List String) (ctes : List Cte) :
    ∀ place ∈ cteNodes ctx recursive env ctes, SameScope ctx place.1 := by
  induction ctes generalizing env with
  | nil => nofun
  | cons cte ctes ih => exact forall_mem_cons.mpr ⟨⟨id, rfl⟩, ih _⟩

theorem selectNodes_scope (ctx : Ctx) (select : Select) :
    ∀ place ∈ selectNodes ctx select, SameScope (ctx.inSelect select.from) place.1 := by
  have items : ∀ place ∈ select.projection.flatMap (itemNodes (ctx.inSelect select.from)),
      SameScope (ctx.inSelect select.from) place.1 := by
    refine forall_mem_flatMap.mpr fun item _ => ?_
    cases item <;> simp [itemNodes]
  simp only [selectNodes, forall_mem_append]
  have same := exprs_scope (sameScope_refl (ctx.inSelect select.from))
  exact ⟨⟨⟨⟨by simp, same _⟩, items⟩, same _⟩, exprs_scope (sameScope_skipped _) _⟩

theorem joinNodes_scope (ctx : Ctx) (join : Join) :
    ∀ place ∈ joinNodes ctx join, SameScope ctx place.1 := by
  rcases join with ⟨relation, ⟨_, (_ | _ | _ | _)⟩ | ⟨_, (_ | _ | _ | _)⟩ | _⟩ <;>
    simp [joinNodes, operatorNodes, constraintNodes]

/-! ## Places that discovery comes by -/

variable (registered) in
/-- Discovery came by those of the places that the rewriting pass enters. -/
def Covers (found : List TableReference) (places : Places) : Prop :=
  ∀ place ∈ places, place.1.visited = true → Reached registered found place.2

variable {p q : Places}

theorem covers_nil : Covers registered a [] := nofun

theorem covers_node (h : visitNode registered node = .ok a) :
    Covers registered a [(ctx, node)] := by
  intro place hp _
  cases mem_singleton.mp hp
  exact ⟨a, h, Subset.refl a⟩

theorem covers_skipped (ctx : Ctx) (h : ∀ place ∈ p, SameScope ctx.skipped place.1) :
    Covers registered a p := by
  intro place hp hv
  cases (h place hp).visited hv

theorem covers_exprs_skipped : Covers registered a (exprs ctx.skipped es) :=
  covers_skipped ctx (exprs_scope (sameScope_refl _) es)

theorem Covers.append (ha : Covers registered a p) (hb : Covers registered b q) :
    Covers registered (a ++ b) (p ++ q) := by
  intro place hp hv
  rcases mem_append.mp hp with hp | hp
  · exact (ha place hp hv).mono (subset_append_left a b)
  · exact (hb place hp hv).mono (subset_append_right a b)

theorem Covers.cons (h : visitNode registered node = .ok a) (hb : Covers registered b q) :
    Covers registered (a ++ b) ((ctx, node)::q) :=
  (covers_node h).append hb

theorem Covers.append_skipped (h : Covers registered a p) :
    Covers registered a (p ++ exprs ctx.skipped es) := by
  rw [← append_nil a]
  exact h.append covers_exprs_skipped

theorem visitFrom_covers {«from» : List TableWithJoins} (h : visitFrom registered «from» = .ok ts)
    (ctx : Ctx) : Covers registered ts («from».map fun t => (ctx, .tableWithJoins t)) := by
  induction «from» generalizing ts with
  | nil => exact covers_nil
  | cons twj rest ih =>
    simp only [visitFrom, bind_eq_ok, pure_eq_ok] at h
    obtain ⟨here, hh, tail, hr, rfl⟩ := h
    exact .cons hh (ih hr)

theorem visitOptExpr_covers {e : Option Expr} (h : visitOptExpr registered e = .ok ts)
    (ctx : Ctx) : Covers registered ts (exprs ctx e.toList) := by
  cases e with
  | none => exact covers_nil
  | some y => exact covers_node h

theorem visitProjection_covers {items : List SelectItem}
    (h : visitProjection registered items = .ok ts) (ctx : Ctx) :
    Covers registered ts (items.flatMap (itemNodes ctx)) := by
  induction items generalizing ts with
  | nil => exact covers_nil
  | cons item items ih =>
    simp only [visitProjection, bind_eq_ok, pure_eq_ok] at h
    obtain ⟨here, hh, tail, hr, rfl⟩ := h
    refine Covers.append ?_ (ih hr)
    cases item with
    | wildcard => exact covers_nil
    | _ => exact covers_node hh

theorem visitJoinOperator_covers {op : JoinOperator} (h : visitJoinOperator registered op = .ok ts)
    (ctx : Ctx) : Covers registered ts (operatorNodes ctx op) := by
  have constraint : ∀ k, visitJoinConstraint registered k = .ok ts →
      Covers registered ts (constraintNodes ctx k) := by
    intro k hk
    cases k with
    | on e => exact covers_node hk
    | _ => exact covers_nil
  cases op with
  | plain kind k => exact constraint k h
  | asOf condition k =>
    have skipped : Covers registered [] (exprs ctx.skipped [condition]) := covers_exprs_skipped
    exact skipped.append (constraint k h)
  | apply outer => exact covers_nil

theorem visitJoins_covers {joins : List Join} (h : visitJoins registered joins = .ok ts)
    (ctx : Ctx) : Covers registered ts (joins.flatMap (joinNodes ctx)) := by
  induction joins generalizing ts with
  | nil => exact covers_nil
  | cons join joins ih =>
    obtain ⟨relation, op⟩ := join
    simp only [visitJoins, bind_eq_ok, pure_eq_ok] at h
    obtain ⟨a, ha, b, hb, tail, hr, rfl⟩ := h
    exact Covers.append (.cons ha (visitJoinOperator_covers hb ctx)) (ih hr)

theorem visitCtes_covers {ctes : List Cte} (h : visitCtes registered ctes = .ok ts) (ctx : Ctx)
    (recursive : Bool) (env : List String) :
    Covers registered ts (cteNodes ctx recursive env ctes) := by
  induction ctes generalizing ts env with
  | nil => exact covers_nil
  | cons cte ctes ih =>
    obtain ⟨name, query⟩ := cte
    simp only [visitCtes, bind_eq_ok, pure_eq_ok] at h
    obtain ⟨here, hh, tail, hr, rfl⟩ := h
    exact .cons hh (ih hr _)

theorem visitArgs_covers {args : List FunctionArg} (h : visitArgs registered args = .ok ts)
    (ctx : Ctx) : Covers registered ts (args.flatMap (argNodes ctx)) := by
  induction args generalizing ts with
  | nil => exact covers_nil
  | cons arg args ih =>
    simp only [visitArgs, bind_eq_ok, pure_eq_ok] at h
    obtain ⟨here, hh, tail, hr, rfl⟩ := h
    refine Covers.append ?_ (ih hr)
    rcases arg with (_ | _ | _) | ⟨_, (_ | _ | _)⟩ | ⟨_, (_ | _ | _)⟩
    case unnamed.wildcard => exact covers_nil
    case unnamed.expr | unnamed.qualifiedWildcard => exact covers_node hh
    -- named arguments are skipped
    all_goals exact covers_skipped ctx (by simp [argNodes, argExprNodes])

theorem exprNodes_covered {e : Expr} (h : visitExprForSubqueries registered e = .ok ts)
    (ctx : Ctx) : Covers registered ts (exprNodes ctx e) := by
  cases e with
  | identifier | compoundIdentifier | value | typedString => exact covers_nil
  | cast | inList | form => exact covers_exprs_skipped
  | unaryOp | nested | subquery | «exists» => exact covers_node h
  | binaryOp left op right =>
    simp only [visitExprForSubqueries, bind_eq_ok, pure_eq_ok] at h
    obtain ⟨a, ha, b, hb, rfl⟩ := h
    exact .cons ha (covers_node hb)
  | between inner negated low high =>
    simp only [visitExprForSubqueries, bind_eq_ok, pure_eq_ok] at h
    obtain ⟨a, ha, b, hb, d, hd, rfl⟩ := h
    rw [append_assoc]
    exact .cons ha (.cons hb (covers_node hd))
  | case operand conditions elseResult =>
    simp only [visitExprForSubqueries, bind_eq_ok, pure_eq_ok] at h
    obtain ⟨a, ha, b, hb, d, hd, rfl⟩ := h
    exact ((visitOptExpr_covers ha ctx).append covers_exprs_skipped).append
      (visitOptExpr_covers hd ctx)
  | function func =>
    obtain ⟨name, args, filter, withinGroup, window⟩ := func
    refine Covers.append_skipped ?_
    cases args with
    | none => exact covers_nil
    | subquery query => exact covers_skipped ctx (by simp [argumentsNodes])
    | list args => exact visitArgs_covers h ctx
  | inSubquery inner subquery negated =>
    have skipped : Covers registered [] (exprs ctx.skipped [inner]) := covers_exprs_skipped
    exact skipped.append (covers_node h)

theorem selectNodes_covered (h : visitSelect registered select = .ok ts) (ctx : Ctx) :
    Covers registered ts (selectNodes ctx select) := by
  obtain ⟨distinct, projection, «from», selection, groupBy, having, windows, qualify⟩ := select
  simp only [visitSelect, bind_eq_ok, pure_eq_ok] at h
  obtain ⟨a, ha, b, hb, d, hd, e, he, rfl⟩ := h
  exact ((((visitFrom_covers ha _).append (visitOptExpr_covers hb _)).append
    (visitProjection_covers hd _)).append (visitOptExpr_covers he _)).append_skipped

variable {found : List TableReference}

/-- Below a node that discovery came by, it came by every place that the
rewriting pass enters. -/
theorem children_reached (h : Reached registered found node) (ctx : Ctx) :
    Covers registered found (children ctx node) := by
  obtain ⟨ts, hts, hsub⟩ := h
  suffices Covers registered ts (children ctx node) from
    fun place hp hv => (this place hp hv).mono hsub
  cases node with
  | query query =>
    obtain ⟨recursive, ctes, body, orderBy, limitClause, fetch⟩ := query
    simp only [visitNode, visitQuery, bind_eq_ok, pure_eq_ok] at hts
    obtain ⟨a, ha, b, hb, rfl⟩ := hts
    have bodies : Covers registered b [(ctx.withCtes (cteNames ctx.ctes ctes), .setExpr body)] :=
      covers_node hb
    exact ((visitCtes_covers ha ctx _ _).append bodies).append_skipped
  | setExpr body =>
    cases body with
    | select | query => exact covers_node hts
    | setOperation op quantifier left right =>
      simp only [visitNode, visitSetExpr, bind_eq_ok, pure_eq_ok] at hts
      obtain ⟨a, ha, b, hb, rfl⟩ := hts
      exact .cons ha (covers_node hb)
    | values rows => exact covers_exprs_skipped
    | insert | update | table => exact covers_nil
  | select select => exact selectNodes_covered hts ctx
  | tableWithJoins twj =>
    obtain ⟨relation, joins⟩ := twj
    simp only [visitNode, visitTableWithJoins, bind_eq_ok, pure_eq_ok] at hts
    obtain ⟨a, ha, b, hb, rfl⟩ := hts
    exact .cons ha (visitJoins_covers hb ctx)
  | tableFactor factor =>
    cases factor with
    | table | function => exact covers_skipped _ (argNodes_scope _ _)
    | derived | nestedJoin => exact covers_node hts
    | tableFunction e a => exact covers_exprs_skipped
    | other display => exact covers_nil
  | expr e => exact exprNodes_covered hts ctx
  | qualifiedWildcard name => exact covers_nil

/-! ## Names of FROM items -/

variable (registered) in
def ItemsKnown (found : List TableReference) (items : List FromItem) : Prop :=
  ∀ name, FromItem.table true name ∈ items → name ∈ registered →
    name ∈ found.map (·.datasetId)

theorem ItemsKnown.mono {items : List FromItem} (h : ItemsKnown registered a items) (hab : a ⊆ b) :
    ItemsKnown registered b items :=
  fun name hn hr => map_subset _ hab (h name hn hr)

theorem ItemsKnown.append {p q : List FromItem} (ha : ItemsKnown registered a p)
    (hb : ItemsKnown registered b q) : ItemsKnown registered (a ++ b) (p ++ q) := by
  intro name hn hr
  rcases mem_append.mp hn with hn | hn
  · exact ha.mono (subset_append_left a b) name hn hr
  · exact hb.mono (subset_append_right a b) name hn hr

attribute [local simp] factorItems FromItem.orAlias

theorem joinedItems_known (twj : TableWithJoins) : ∀ ts,
    visitTableWithJoins registered twj = .ok ts →
      ItemsKnown registered ts (joinedItems true twj) := by
  apply joinedItems.induct
    (fun factor => ∀ ts, visitTableFactor registered factor = .ok ts →
      ItemsKnown registered ts (factorItems true factor))
    (fun twj => ∀ ts, visitTableWithJoins registered twj = .ok ts →
      ItemsKnown registered ts (joinedItems true twj))
    (fun joins => ∀ ts, visitJoins registered joins = .ok ts →
      ItemsKnown registered ts (joinItems true joins))
  case case1 =>
    intro relation joins hrelation hjoins ts h
    simp only [visitTableWithJoins, bind_eq_ok, pure_eq_ok] at h
    obtain ⟨a, ha, b, hb, rfl⟩ := h
    exact (hrelation a ha).append (hjoins b hb)
  case case2 =>
    intro name a args ts h n hn hr
    cases a with
    | some a => simp at hn
    | none =>
      cases mem_singleton.mp hn
      have hc : registered.contains (extractTableName name) = true := contains_iff_mem.mpr hr
      rw [visitTableFactor, if_pos hc] at h
      cases h
      exact mem_singleton.mpr rfl
  case case6 => exact fun twj ih ts h => ih ts h
  case case10 =>
    intro relation op joins hrelation hjoins ts h
    simp only [visitJoins, bind_eq_ok, pure_eq_ok] at h
    obtain ⟨a, ha, b, hb, d, hd, rfl⟩ := h
    exact ((hrelation a ha).mono (subset_append_left a b)).append (hjoins d hd)
  -- the other items carry an alias or no table name
  case case3 | case4 | case5 =>
    intros
    intro n hn
    rename Option TableAlias => a
    cases a <;> simp at hn
  all_goals
    intros
    intro n hn
    simp [joinItems] at hn

theorem joinedItems_unvisited (n : String) (twj : TableWithJoins) :
    FromItem.table true n ∉ joinedItems false twj := by
  apply joinedItems.induct (fun factor => FromItem.table true n ∉ factorItems false factor)
    (fun twj => FromItem.table true n ∉ joinedItems false twj)
    (fun joins => FromItem.table true n ∉ joinItems false joins)
  case case2 | case3 | case4 | case5 =>
    intros
    rename Option TableAlias => a
    cases a <;> simp
  all_goals
    intros
    simp_all [joinedItems, joinItems]

variable (registered) in
/-- What discovery knows of a place. -/
structure Known (found : List TableReference) (ctx : Ctx) (node : Node) : Prop where
  reached : ctx.visited = true → Reached registered found node
  items : ItemsKnown registered found ctx.frames.flatten

theorem inSelect_known (h : Known registered found ctx (.select select)) :
    ItemsKnown registered found (ctx.inSelect select.from).frames.flatten := by
  intro name hn hreg
  rw [Ctx.inSelect, flatten_cons] at hn
  rcases mem_append.mp hn with hn | hn
  case inr => exact h.items name hn hreg
  obtain ⟨t, ht, hj⟩ := mem_flatMap.mp hn
  cases hv : ctx.visited with
  | false =>
    rw [hv] at hj
    exact (joinedItems_unvisited name t hj).elim
  | true =>
    rw [hv] at hj
    obtain ⟨ts, hts, hsub⟩ := h.reached hv
    obtain ⟨distinct, projection, «from», selection, groupBy, having, windows, qualify⟩ := select
    simp only [visitNode, visitSelect, bind_eq_ok, pure_eq_ok] at hts
    obtain ⟨a, ha, b, -, d, -, e, -, rfl⟩ := hts
    obtain ⟨us, hus, hua⟩ := visitFrom_covers ha ctx _ (mem_map_of_mem ht) hv
    have known := joinedItems_known t us hus name hj hreg
    refine map_subset _ ?_ known
    intro r hr
    exact hsub (by simp [hua hr])

theorem tail_known {frames : List (List FromItem)}
    (h : ItemsKnown registered found frames.flatten) :
    ItemsKnown registered found frames.tail.flatten := by
  intro name hn hr
  obtain ⟨items, hf, hn⟩ := mem_flatten.mp hn
  exact h name (mem_flatten.mpr ⟨items, mem_of_mem_tail hf, hn⟩) hr

theorem inDerived_known (lateral : Bool) (h : ItemsKnown registered found ctx.frames.flatten) :
    ItemsKnown registered found (ctx.inDerived lateral).frames.flatten := by
  cases lateral with
  | true => exact h
  | false => exact tail_known h

/-- The scope a place lies in, given the node above it. -/
inductive ScopeBelow (ctx : Ctx) : Node → Ctx → Prop where
  | same {node : Node} {inner : Ctx} (h : SameScope ctx inner) : ScopeBelow ctx node inner
  | select {select : Select} {inner : Ctx} (h : SameScope (ctx.inSelect select.from) inner) :
      ScopeBelow ctx (.select select) inner
  | trailing {query : Query} {select : Select} {inner : Ctx} (hb : query.body = .select select)
      (hv : inner.visited = false) (hf : inner.frames = (ctx.inSelect select.from).frames) :
      ScopeBelow ctx (.query query) inner
  | derived {node : Node} {lateral : Bool} {inner : Ctx}
      (h : SameScope (ctx.inDerived lateral) inner) : ScopeBelow ctx node inner

theorem children_scope (ctx : Ctx) (node : Node) :
    ∀ place ∈ children ctx node, ScopeBelow ctx node place.1 := by
  have same : ∀ {places : Places}, (∀ place ∈ places, SameScope ctx place.1) →
      ∀ place ∈ places, ScopeBelow ctx node place.1 := fun h place hp => .same (h place hp)
  cases node with
  | query query =>
    simp only [children, queryNodes, forall_mem_append]
    refine ⟨⟨same (cteNodes_scope ctx _ _ _), same (by simpa using ⟨id, rfl⟩)⟩, ?_⟩
    -- ORDER BY and LIMIT see the FROM items of a plain SELECT
    intro place hp
    obtain ⟨e, -, rfl⟩ := mem_map.mp hp
    cases hb : query.body with
    | select select => exact .trailing hb rfl rfl
    | _ => exact .same ⟨fun hv => absurd hv Bool.false_ne_true, rfl⟩
  | setExpr body =>
    cases body with
    | values rows => exact same (exprs_scope (sameScope_skipped ctx) _)
    | _ => exact same (by simp [children, setExprNodes])
  | select select => exact fun place hp => .select (selectNodes_scope ctx select place hp)
  | tableWithJoins twj =>
    refine same (forall_mem_cons.mpr ⟨sameScope_refl ctx, ?_⟩)
    exact forall_mem_flatMap.mpr fun join _ => joinNodes_scope ctx join
  | tableFactor factor =>
    have args : ∀ args : List FunctionArg, ∀ place ∈ args.flatMap (argNodes ctx.skipped),
        SameScope ctx place.1 :=
      fun args place hp =>
        have h := argNodes_scope ctx.skipped args place hp
        ⟨fun hv => absurd (h.visited hv) Bool.false_ne_true, h.frames⟩
    cases factor with
    | table | function => exact same (args _)
    | derived lateral subquery a =>
      intro place hp
      cases mem_singleton.mp hp
      exact .derived (sameScope_refl (ctx.inDerived lateral))
    | tableFunction | nestedJoin | other => exact same (by simp [children, factorNodes, exprs])
  | expr e => exact same (exprNodes_scope ctx e)
  | qualifiedWildcard name =>
    intro place hp
    cases hp

theorem children_visited {place : Ctx × Node} (hp : place ∈ children ctx node)
    (hv : place.1.visited = true) : ctx.visited = true := by
  cases children_scope ctx node _ hp with
  | same h | select h => exact h.visited hv
  | trailing _ h => rw [h] at hv; cases hv
  | derived h => exact (inDerived_visited ctx _).symm.trans (h.visited hv)

theorem children_known (h : Known registered found ctx node) {place : Ctx × Node}
    (hp : place ∈ children ctx node) : Known registered found place.1 place.2 where
  reached hv := children_reached (h.reached (children_visited hp hv)) ctx place hp hv
  items := by
    cases children_scope ctx node _ hp with
    | same hs => exact hs.frames ▸ h.items
    | select hs => exact hs.frames ▸ inSelect_known h
    | derived hs => exact hs.frames ▸ inDerived_known _ h.items
    | @trailing query select _ hb _ hf =>
      have hk : Known registered found ctx (.select select) := by
        refine ⟨fun hv => ?_, h.items⟩
        have body := children_reached (h.reached hv) ctx
          (ctx.withCtes (cteNames ctx.ctes query.ctes), .setExpr query.body)
          (by simp [children, queryNodes]) hv
        rw [hb] at body
        exact children_reached body ctx (ctx, .select select) (mem_singleton.mpr rfl) hv
      exact hf ▸ inSelect_known hk

theorem walk_known (path : List Nat) (h : Known registered found ctx node) {place : Ctx × Node}
    (hw : walk ctx node path = some place) : Known registered found place.1 place.2 := by
  induction path generalizing ctx node with
  | nil =>
    cases hw
    exact h
  | cons i path ih =>
    rw [walk] at hw
    cases hc : (children ctx node)[i]? with
    | none => simp [hc] at hw
    | some child =>
      simp only [hc] at hw
      exact ih (children_known h (mem_of_getElem? hc)) hw

theorem place_known {query : Query} (h : visitQuery registered query = .ok found) {path : List Nat}
    (hw : place query path = some (ctx, node)) : Known registered found ctx node := by
  have root : Known registered found rootCtx (.query query) := by
    refine ⟨fun _ => ⟨found, h, Subset.refl _⟩, fun name hn => ?_⟩
    cases hn
  exact walk_known path root hw

theorem table_known {name : ObjectName} {a : Option TableAlias} {args : Option (List FunctionArg)}
    (h : Known registered found ctx (.tableFactor (.table name a args))) (hv : ctx.visited = true)
    (hr : extractTableName name ∈ registered) :
    extractTableName name ∈ found.map (·.datasetId) := by
  obtain ⟨ts, hts, hsub⟩ := h.reached hv
  rw [visitNode, visitTableFactor, if_pos (contains_iff_mem.mpr hr)] at hts
  cases hts
  exact mem_map.mpr ⟨_, hsub (mem_singleton.mpr rfl), rfl⟩

end
end Leibrix.SqlReach
