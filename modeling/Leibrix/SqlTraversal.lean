import Leibrix.SqlTransformer

/-!
# Maps over the table factors of a query

The rewriting pass changes table factors and keeps everything around them. Here is the map
that applies a function to the factors it comes by, apart from derived tables and nested
joins, which it enters. Maps compose, the rewriting is one of them, and discovery finds no
more after a map that makes no new reference.
-/

set_option autoImplicit false

namespace Leibrix.SqlTraversal
open SqlAst SqlInterval SqlDiscovery SqlTransformer

def isLeaf : TableFactor → Bool
  | .derived _ _ _ | .nestedJoin _ _ => false
  | _ => true

/-- What a traversal does with the factors that it does not enter. -/
@[ext]
structure LeafMap where
  toFun : TableFactor → TableFactor
  leaf : ∀ factor, isLeaf factor = true → isLeaf (toFun factor) = true

def LeafMap.comp (f g : LeafMap) : LeafMap :=
  ⟨f.toFun ∘ g.toFun, fun factor h => f.leaf _ (g.leaf factor h)⟩

variable {factor : TableFactor}

theorem isLeaf_of_not_entered
    (hderived : ∀ lateral subquery a, factor = .derived lateral subquery a → False)
    (hnested : ∀ twj a, factor = .nestedJoin twj a → False) : isLeaf factor = true := by
  cases factor with
  | derived lateral subquery a => exact (hderived _ _ _ rfl).elim
  | nestedJoin twj a => exact (hnested _ _ rfl).elim
  | _ => rfl

section Map
variable (f : LeafMap)

mutual

def mapQuery : Query → Query
  | ⟨recursive, ctes, body, orderBy, limitClause, fetch⟩ =>
    ⟨recursive, mapCtes ctes, mapSetExpr body, orderBy, limitClause, fetch⟩

def mapCtes : List Cte → List Cte
  | [] => []
  | ⟨«alias», query⟩::ctes => ⟨«alias», mapQuery query⟩::mapCtes ctes

def mapSetExpr : SetExpr → SetExpr
  | .select select => .select (mapSelect select)
  | .query query => .query (mapQuery query)
  | .setOperation op quantifier left right =>
    .setOperation op quantifier (mapSetExpr left) (mapSetExpr right)
  | e => e

def mapSelect : Select → Select
  | ⟨distinct, projection, «from», selection, groupBy, having, namedWindow, qualify⟩ =>
    ⟨distinct, mapProjection projection, mapFrom «from», mapOptExpr selection, groupBy,
      mapOptExpr having, namedWindow, qualify⟩

def mapFrom : List TableWithJoins → List TableWithJoins
  | [] => []
  | twj::«from» => mapTableWithJoins twj::mapFrom «from»

def mapProjection : List SelectItem → List SelectItem
  | [] => []
  | item::items => mapSelectItem item::mapProjection items

def mapSelectItem : SelectItem → SelectItem
  | .unnamedExpr expr => .unnamedExpr (mapExpr expr)
  | .exprWithAlias expr «alias» => .exprWithAlias (mapExpr expr) «alias»
  | item => item

def mapTableWithJoins : TableWithJoins → TableWithJoins
  | ⟨relation, joins⟩ => ⟨mapTableFactor relation, mapJoins joins⟩

def mapJoins : List Join → List Join
  | [] => []
  | ⟨relation, joinOperator⟩::joins =>
    ⟨mapTableFactor relation, mapJoinOperator joinOperator⟩::mapJoins joins

def mapJoinOperator : JoinOperator → JoinOperator
  | .plain kind constraint => .plain kind (mapJoinConstraint constraint)
  | .asOf matchCondition constraint => .asOf matchCondition (mapJoinConstraint constraint)
  | .apply outer => .apply outer

def mapJoinConstraint : JoinConstraint → JoinConstraint
  | .on expr => .on (mapExpr expr)
  | constraint => constraint

def mapTableFactor : TableFactor → TableFactor
  | .derived lateral subquery «alias» => .derived lateral (mapQuery subquery) «alias»
  | .nestedJoin tableWithJoins «alias» => .nestedJoin (mapTableWithJoins tableWithJoins) «alias»
  | factor => f.toFun factor

def mapExpr : Expr → Expr
  | .subquery query => .subquery (mapQuery query)
  | .inSubquery expr subquery negated => .inSubquery expr (mapQuery subquery) negated
  | .exists subquery negated => .exists (mapQuery subquery) negated
  | .binaryOp left op right => .binaryOp (mapExpr left) op (mapExpr right)
  | .unaryOp op inner => .unaryOp op (mapExpr inner)
  | .nested inner => .nested (mapExpr inner)
  | .between inner negated low high => .between (mapExpr inner) negated (mapExpr low) (mapExpr high)
  | .case operand conditions elseResult =>
    .case (mapOptExpr operand) conditions (mapOptExpr elseResult)
  | .function func => .function (mapFunction func)
  | e => e

def mapOptExpr : Option Expr → Option Expr
  | none => none
  | some e => some (mapExpr e)

def mapFunction : Function → Function
  | ⟨name, args, filter, withinGroup, «over»⟩ =>
    ⟨name, mapFunctionArguments args, filter, withinGroup, «over»⟩

def mapFunctionArguments : FunctionArguments → FunctionArguments
  | .list args => .list (mapArgs args)
  | args => args

def mapArgs : List FunctionArg → List FunctionArg
  | [] => []
  | arg::args => mapArg arg::mapArgs args

def mapArg : FunctionArg → FunctionArg
  | .unnamed arg => .unnamed (mapArgExpr arg)
  | arg => arg

def mapArgExpr : FunctionArgExpr → FunctionArgExpr
  | .expr e => .expr (mapExpr e)
  | arg => arg

end

theorem mapTableFactor_leaf (h : isLeaf factor = true) :
    mapTableFactor f factor = f.toFun factor := by
  cases factor <;> first | rfl | cases h

end Map

section Compose
variable (f g : LeafMap)

theorem mapQuery_mapQuery (query : Query) :
    mapQuery f (mapQuery g query) = mapQuery (f.comp g) query := by
  -- along the recursion of the map; at all but the factors that it does not enter, both sides
  -- build the same node from equal parts
  apply mapQuery.induct
    (fun x => mapQuery f (mapQuery g x) = mapQuery (f.comp g) x)
    (fun x => mapSetExpr f (mapSetExpr g x) = mapSetExpr (f.comp g) x)
    (fun x => mapSelect f (mapSelect g x) = mapSelect (f.comp g) x)
    (fun x => mapOptExpr f (mapOptExpr g x) = mapOptExpr (f.comp g) x)
    (fun x => mapExpr f (mapExpr g x) = mapExpr (f.comp g) x)
    (fun x => mapFunction f (mapFunction g x) = mapFunction (f.comp g) x)
    (fun x => mapFunctionArguments f (mapFunctionArguments g x) = mapFunctionArguments (f.comp g) x)
    (fun x => mapArgs f (mapArgs g x) = mapArgs (f.comp g) x)
    (fun x => mapArg f (mapArg g x) = mapArg (f.comp g) x)
    (fun x => mapArgExpr f (mapArgExpr g x) = mapArgExpr (f.comp g) x)
    (fun x => mapFrom f (mapFrom g x) = mapFrom (f.comp g) x)
    (fun x => mapTableWithJoins f (mapTableWithJoins g x) = mapTableWithJoins (f.comp g) x)
    (fun x => mapJoins f (mapJoins g x) = mapJoins (f.comp g) x)
    (fun x => mapJoinOperator f (mapJoinOperator g x) = mapJoinOperator (f.comp g) x)
    (fun x => mapJoinConstraint f (mapJoinConstraint g x) = mapJoinConstraint (f.comp g) x)
    (fun x => mapTableFactor f (mapTableFactor g x) = mapTableFactor (f.comp g) x)
    (fun x => mapProjection f (mapProjection g x) = mapProjection (f.comp g) x)
    (fun x => mapSelectItem f (mapSelectItem g x) = mapSelectItem (f.comp g) x)
    (fun x => mapCtes f (mapCtes g x) = mapCtes (f.comp g) x)
  case case35 =>
    intro factor hderived hnested
    have leaf := isLeaf_of_not_entered hderived hnested
    rw [mapTableFactor_leaf g leaf, mapTableFactor_leaf f (g.leaf factor leaf),
      mapTableFactor_leaf _ leaf]
    rfl
  all_goals
    intros
    simp_all only [mapQuery, mapSetExpr, mapSelect, mapOptExpr, mapExpr, mapFunction,
      mapFunctionArguments, mapArgs, mapArg, mapArgExpr, mapFrom, mapTableWithJoins, mapJoins,
      mapJoinOperator, mapJoinConstraint, mapTableFactor, mapProjection, mapSelectItem, mapCtes]

end Compose

section Rewriting
variable {D : Type} [LinearOrder D] (c : Chrono D) (ρ : Replacements)

def replaceTable : TableFactor → TableFactor
  | .table name «alias» args =>
    match ρ.lookup (extractTableName name) with
    | some (dataset, range) => createMacroCall c dataset range «alias»
    | none => .table name «alias» args
  | factor => factor

theorem replaceTable_leaf (h : isLeaf factor = true) : isLeaf (replaceTable c ρ factor) = true := by
  cases factor with
  | table name a args =>
    rw [replaceTable]
    split <;> rfl
  | _ => exact h

def replacing : LeafMap := ⟨replaceTable c ρ, fun _ => replaceTable_leaf c ρ⟩

theorem rewriteQuery_eq (query : Query) :
    rewriteQuery c ρ query = mapQuery (replacing c ρ) query := by
  apply mapQuery.induct
    (fun x => rewriteQuery c ρ x = mapQuery (replacing c ρ) x)
    (fun x => rewriteSetExpr c ρ x = mapSetExpr (replacing c ρ) x)
    (fun x => rewriteSelect c ρ x = mapSelect (replacing c ρ) x)
    (fun x => rewriteOptExpr c ρ x = mapOptExpr (replacing c ρ) x)
    (fun x => rewriteExprSubqueries c ρ x = mapExpr (replacing c ρ) x)
    (fun x => rewriteFunction c ρ x = mapFunction (replacing c ρ) x)
    (fun x => rewriteFunctionArguments c ρ x = mapFunctionArguments (replacing c ρ) x)
    (fun x => rewriteArgs c ρ x = mapArgs (replacing c ρ) x)
    (fun x => rewriteArg c ρ x = mapArg (replacing c ρ) x)
    (fun x => rewriteArgExpr c ρ x = mapArgExpr (replacing c ρ) x)
    (fun x => rewriteFrom c ρ x = mapFrom (replacing c ρ) x)
    (fun x => rewriteTableWithJoins c ρ x = mapTableWithJoins (replacing c ρ) x)
    (fun x => rewriteJoins c ρ x = mapJoins (replacing c ρ) x)
    (fun x => rewriteJoinOperator c ρ x = mapJoinOperator (replacing c ρ) x)
    (fun x => rewriteJoinConstraint c ρ x = mapJoinConstraint (replacing c ρ) x)
    (fun x => rewriteTableFactor c ρ x = mapTableFactor (replacing c ρ) x)
    (fun x => rewriteProjection c ρ x = mapProjection (replacing c ρ) x)
    (fun x => rewriteSelectItem c ρ x = mapSelectItem (replacing c ρ) x)
    (fun x => rewriteCtes c ρ x = mapCtes (replacing c ρ) x)
  case case35 =>
    intro factor hderived hnested
    cases factor with
    | derived => exact (hderived _ _ _ rfl).elim
    | nestedJoin => exact (hnested _ _ rfl).elim
    | _ => rfl
  all_goals
    intros
    simp_all only [mapQuery, mapSetExpr, mapSelect, mapOptExpr, mapExpr, mapFunction,
      mapFunctionArguments, mapArgs, mapArg, mapArgExpr, mapFrom, mapTableWithJoins, mapJoins,
      mapJoinOperator, mapJoinConstraint, mapTableFactor, mapProjection, mapSelectItem, mapCtes,
      rewriteQuery, rewriteSetExpr, rewriteSelect, rewriteOptExpr, rewriteExprSubqueries,
      rewriteFunction, rewriteFunctionArguments, rewriteArgs, rewriteArg, rewriteArgExpr,
      rewriteFrom, rewriteTableWithJoins, rewriteJoins, rewriteJoinOperator, rewriteJoinConstraint,
      rewriteTableFactor, rewriteProjection, rewriteSelectItem, rewriteCtes]

end Rewriting

section Discovery

/-- The first traversal succeeds when the second does, and finds nothing else. -/
def Within (a b : Found) : Prop := ∀ ts, b = .ok ts → ∃ ts', a = .ok ts' ∧ ts' ⊆ ts

theorem within_refl (a : Found) : Within a a := fun ts h => ⟨ts, h, List.Subset.refl ts⟩

theorem within_pure {a b : List TableReference} (h : a ⊆ b) : Within (pure a) (pure b) := by
  intro ts hts
  rw [pure_eq_ok] at hts
  subst hts
  exact ⟨a, rfl, h⟩

theorem within_bind {a b : Found} {f g : List TableReference → Found} (h : Within a b)
    (hf : ∀ x y, x ⊆ y → Within (f x) (g y)) : Within (a >>= f) (b >>= g) := by
  intro ts hts
  obtain ⟨y, hy, hts⟩ := bind_eq_ok.mp hts
  obtain ⟨x, hx, hsub⟩ := h y hy
  obtain ⟨ts', hts', hin⟩ := hf x y hsub ts hts
  exact ⟨ts', bind_eq_ok.mpr ⟨x, hx, hts'⟩, hin⟩

theorem append_subset {a a' b b' : List TableReference} (h : a ⊆ a') (h' : b ⊆ b') :
    a ++ b ⊆ a' ++ b' :=
  List.append_subset.mpr
    ⟨List.subset_append_of_subset_left _ h, List.subset_append_of_subset_right _ h'⟩

theorem within_two {a a' b b' : Found} (ha : Within a a') (hb : Within b b') :
    Within (do let x ← a; let y ← b; return x ++ y) (do let x ← a'; let y ← b'; return x ++ y) :=
  within_bind ha fun _ _ hx => within_bind hb fun _ _ hy => within_pure (append_subset hx hy)

theorem within_three {a a' b b' d d' : Found} (ha : Within a a') (hb : Within b b')
    (hd : Within d d') :
    Within (do let x ← a; let y ← b; let z ← d; return x ++ y ++ z)
      (do let x ← a'; let y ← b'; let z ← d'; return x ++ y ++ z) :=
  within_bind ha fun _ _ hx => within_bind hb fun _ _ hy => within_bind hd fun _ _ hz =>
    within_pure (append_subset (append_subset hx hy) hz)

def Quieter (ids : List String) (g h : LeafMap) : Prop :=
  ∀ factor, isLeaf factor = true →
    Within (visitTableFactor ids (g.toFun factor)) (visitTableFactor ids (h.toFun factor))

variable {ids : List String} {g h : LeafMap}

theorem visitQuery_within (q : Quieter ids g h) (query : Query) :
    Within (visitQuery ids (mapQuery g query)) (visitQuery ids (mapQuery h query)) := by
  apply mapQuery.induct
    (fun x => Within (visitQuery ids (mapQuery g x)) (visitQuery ids (mapQuery h x)))
    (fun x => Within (visitSetExpr ids (mapSetExpr g x)) (visitSetExpr ids (mapSetExpr h x)))
    (fun x => Within (visitSelect ids (mapSelect g x)) (visitSelect ids (mapSelect h x)))
    (fun x => Within (visitOptExpr ids (mapOptExpr g x)) (visitOptExpr ids (mapOptExpr h x)))
    (fun x => Within (visitExprForSubqueries ids (mapExpr g x))
      (visitExprForSubqueries ids (mapExpr h x)))
    (fun x => Within (visitFunction ids (mapFunction g x)) (visitFunction ids (mapFunction h x)))
    (fun x => Within (visitFunctionArguments ids (mapFunctionArguments g x))
      (visitFunctionArguments ids (mapFunctionArguments h x)))
    (fun x => Within (visitArgs ids (mapArgs g x)) (visitArgs ids (mapArgs h x)))
    (fun x => Within (visitArg ids (mapArg g x)) (visitArg ids (mapArg h x)))
    (fun x => Within (visitArgExpr ids (mapArgExpr g x)) (visitArgExpr ids (mapArgExpr h x)))
    (fun x => Within (visitFrom ids (mapFrom g x)) (visitFrom ids (mapFrom h x)))
    (fun x => Within (visitTableWithJoins ids (mapTableWithJoins g x))
      (visitTableWithJoins ids (mapTableWithJoins h x)))
    (fun x => Within (visitJoins ids (mapJoins g x)) (visitJoins ids (mapJoins h x)))
    (fun x => Within (visitJoinOperator ids (mapJoinOperator g x))
      (visitJoinOperator ids (mapJoinOperator h x)))
    (fun x => Within (visitJoinConstraint ids (mapJoinConstraint g x))
      (visitJoinConstraint ids (mapJoinConstraint h x)))
    (fun x => Within (visitTableFactor ids (mapTableFactor g x))
      (visitTableFactor ids (mapTableFactor h x)))
    (fun x => Within (visitProjection ids (mapProjection g x))
      (visitProjection ids (mapProjection h x)))
    (fun x => Within (visitSelectItem ids (mapSelectItem g x))
      (visitSelectItem ids (mapSelectItem h x)))
    (fun x => Within (visitCtes ids (mapCtes g x)) (visitCtes ids (mapCtes h x)))
  case case35 =>
    intro factor hderived hnested
    have leaf := isLeaf_of_not_entered hderived hnested
    rw [mapTableFactor_leaf g leaf, mapTableFactor_leaf h leaf]
    exact q factor leaf
  case case8 =>
    -- the arms are the same on both sides
    intro operand conditions elseResult hoperand helse
    exact within_three hoperand (within_refl _) helse
  case case23 =>
    intro _ projection «from» selection _ having _ _ hprojection hfrom hselection hhaving
    exact within_bind hfrom fun _ _ hx => within_bind hselection fun _ _ hy =>
      within_bind hprojection fun _ _ hz => within_bind hhaving fun _ _ hw =>
      within_pure (append_subset (append_subset (append_subset hx hy) hz) hw)
  all_goals
    intros
    first
    | assumption
    | exact within_two (by assumption) (by assumption)
    | exact within_three (by assumption) (by assumption) (by assumption)
    | exact within_refl _
    | -- nothing is entered, so that nothing has changed
      simp_all only [mapSetExpr, mapExpr, mapFunctionArguments, mapArg, mapArgExpr, mapSelectItem,
        mapJoinConstraint]
      exact within_refl _

end Discovery

end Leibrix.SqlTraversal
