import Leibrix.PlanExpansion
import Leibrix.StageCtes
import Leibrix.CutItems

/-!
# Scopes of CTE names in plans

By the rules of SQL a name in the body of a CTE is looked up where the CTE is defined. The
builder looks it up where the CTE is used. The two agree when no two definitions share a
name and no base table has the name of one. A definition without a FROM clause stays a name
in the plan; the stage that scans it has the definition when that is in the outermost WITH
clause.
-/

set_option autoImplicit false

namespace Leibrix.PlanLexical
open SqlAst SqlScopes LdpTypes LdpAnnotate LdpCut PlanBuilder PlanParts PlanExpansion StageSql
open StageCtes CutItems List Option

variable {key : String} (text : PlanText)

section Lexical

def findFrom (key : String) : CteMap → Option (Cte × CteMap)
  | [] => none
  | (k, cte)::map => if k = key then some (cte, map) else findFrom key map

def findAtDefinition : Find := fun map name =>
  match name with
  | [.identifier ident] => findFrom (text.toLowercase ident.value) map
  | _ => none

variable {text} {map env : CteMap} {name : ObjectName} {cte : Cte}

theorem findFrom_mem (h : findFrom key map = some (cte, env)) : (key, cte) ∈ map ∧ env ⊆ map := by
  induction map with
  | nil => cases h
  | cons entry map ih =>
    rw [findFrom] at h
    split at h
    · rename_i hkey
      cases h
      exact ⟨by simp [← hkey], subset_cons_self _ _⟩
    · obtain ⟨hmem, hsub⟩ := ih h
      exact ⟨mem_cons_of_mem _ hmem, subset_cons_of_subset _ hsub⟩

theorem lookup_eq_findFrom (key : String) (map : CteMap) :
    map.lookup key = (findFrom key map).map Prod.fst := by
  induction map with
  | nil => rfl
  | cons entry map ih =>
    rw [findFrom, lookup_cons]
    by_cases hkey : entry.1 = key
    · simp [hkey]
    · rw [beq_false_of_ne (Ne.symm hkey), if_neg hkey]
      exact ih

theorem findFrom_of_mem (h : (key, cte) ∈ map) :
    ∃ found env, findFrom key map = some (found, env) := by
  induction map with
  | nil => cases h
  | cons entry map ih =>
    rw [findFrom]
    split
    · exact ⟨_, _, rfl⟩
    · rename_i hkey
      refine ih ((mem_cons.mp h).resolve_left ?_)
      rintro rfl
      exact hkey rfl

theorem findAtDefinition_mem (h : findAtDefinition text map name = some (cte, env)) :
    (nameKey text name, cte) ∈ map ∧ env ⊆ map := by
  unfold findAtDefinition at h
  split at h
  · exact findFrom_mem h
  · cases h

theorem findAtUse_eq (map : CteMap) (name : ObjectName) : findAtUse text map name =
    ((findFrom (nameKey text name) map).map Prod.fst).map fun cte => (cte, map) := by
  rw [findAtUse, lookup_eq_findFrom]
  rfl

theorem findAtUse_mem {used : CteMap} (h : findAtUse text map name = some (cte, used)) :
    (nameKey text name, cte) ∈ map ∧ used = map := by
  rw [findAtUse_eq, Option.map_map] at h
  obtain ⟨⟨found, env⟩, hfound, heq⟩ := map_eq_some_iff.mp h
  cases heq
  exact ⟨(findFrom_mem hfound).1, rfl⟩

theorem findAtUse_of_mem (h : (nameKey text name, cte) ∈ map) :
    ∃ found, findAtUse text map name = some (found, map) := by
  obtain ⟨found, env, hfound⟩ := findFrom_of_mem h
  exact ⟨found, by rw [findAtUse_eq, hfound]; rfl⟩

end Lexical

section Scopes

variable (query : Query)

def Reached (body : CteMap × Query) : Prop :=
  Relation.ReflTransGen (fun caller callee => Replaces text (findAtDefinition text) callee caller)
    ([], query) body

def InScope (map : CteMap) (node : Node) : Prop :=
  ∃ outer body ext, Reached text query (outer, body) ∧ (ext, node) ∈ queryParts text body ∧
    map = ext ++ outer

def Bound (key : String) (cte : Cte) : Prop :=
  ∃ map node, InScope text query map node ∧ (key, cte) ∈ map

/-- A body, with the map in which it is built and with what is in scope at its definition. -/
inductive Visits : CteMap → CteMap → Query → Prop
  | root : Visits [] [] query
  | body {used defined used' defined' ext : CteMap} {body : Query} {name : ObjectName}
      {a : Option TableAlias} {args : Option (List FunctionArg)} {cte : Cte} :
    Visits used defined body → (ext, .tableFactor (.table name a args)) ∈ queryParts text body →
      findAtUse text (ext ++ used) name = some (cte, used') →
      findAtDefinition text (ext ++ defined) name = some (cte, defined') →
      queryHasFrom cte.query = true → Visits used' defined' cte.query

/-- Each name is taken for the CTE that it denotes, or for a base table. -/
def ResolvedLexically : Prop :=
  ∀ used defined body, Visits text query used defined body →
    ∀ ext name a args, (ext, .tableFactor (.table name a args)) ∈ queryParts text body →
      (findAtUse text (ext ++ used) name).map Prod.fst =
        (findAtDefinition text (ext ++ defined) name).map Prod.fst

def Denotes (name : ObjectName) (cte : Cte) : Prop :=
  ∃ map node env, InScope text query map node ∧ Mentions node name ∧
    findAtDefinition text map name = some (cte, env)

/-- The CTEs that the SQL of a stage mentions are among those that it defines. -/
structure Defined (ctes : List Cte) (stagePlan : LogicalPlan) : Prop where
  inBody : ∀ name cte, SqlMentions (generateSql stagePlan) name → Denotes text query name cte →
    cte ∈ filterCtesForStage stagePlan ctes
  inDefinitions : ∀ earlier cte later, ctes = earlier ++ cte::later →
    cte ∈ filterCtesForStage stagePlan ctes → ∀ name found env,
      Mentions (.query cte.query) name →
      findAtDefinition text (entries text earlier) name = some (found, env) →
      found ∈ filterCtesForStage stagePlan ctes

structure ScopedLexically (sqlText : SqlText) (r : BuildResult) : Prop where
  resolved : ResolvedLexically text query
  plan : ∃ fuel, buildPlan text (findAtDefinition text) fuel [] query = .ok r.plan
  stages : ∀ policy metadata a plan, annotateLogicalPlan r.plan policy metadata = .ok a →
    cutIntoStages sqlText a policy = some plan →
    ∀ s ∈ plan.stages, Defined text query r.cteDefinitions s.plan

/-- No two CTEs share a name, and no base table has the name of a CTE. No query inside an
expression mentions a CTE, and one without a FROM clause is defined in the outermost WITH. -/
structure WellScoped : Prop where
  unique : ∀ key cte cte', Bound text query key cte → Bound text query key cte' → cte = cte'
  found : ∀ map name a args cte, InScope text query map (.tableFactor (.table name a args)) →
    Bound text query (nameKey text name) cte → findAtDefinition text map name ≠ none
  inFrom : ∀ map node path name cte, InScope text query map node → path ≠ [] →
    MentionsAt rootCtx node path name → ¬ Bound text query (nameKey text name) cte
  outermost : ∀ map name a args cte env,
    InScope text query map (.tableFactor (.table name a args)) →
    findAtDefinition text map name = some (cte, env) → queryHasFrom cte.query = false →
    cte ∈ query.ctes ∧ eqIgnoreAsciiCase (objectNameToString name) cte.alias.name.value = true

end Scopes

variable {node : Node} {text : PlanText} {query : Query}

section Agreement

variable {used defined : CteMap} {body : Query}

variable {map env : CteMap} {name : ObjectName} {cte : Cte}

theorem bound_of_found (hscope : InScope text query map node)
    (h : findAtDefinition text map name = some (cte, env)) :
    Bound text query (nameKey text name) cte :=
  ⟨map, node, hscope, (findAtDefinition_mem h).1⟩

variable {ext : CteMap} {a : Option TableAlias} {args : Option (List FunctionArg)}

theorem Reached.replaced (h : Reached text query (map, body))
    (hmem : (ext, .tableFactor (.table name a args)) ∈ queryParts text body)
    (hfind : findAtDefinition text (ext ++ map) name = some (cte, env))
    (hfrom : queryHasFrom cte.query = true) : Reached text query (env, cte.query) :=
  h.tail (mem_replacements hmem hfind hfrom)

/-- What is in scope at the definition is also there at the use, and all of it is bound. -/
structure Within (text : PlanText) (query : Query) (used defined : CteMap) (body : Query) :
    Prop where
  reached : Reached text query (defined, body)
  subset : defined ⊆ used
  bound : ∀ key cte, (key, cte) ∈ used → Bound text query key cte

theorem Within.bound_ext (h : Within text query used defined body)
    (hmem : (ext, node) ∈ queryParts text body) (hcte : (key, cte) ∈ ext ++ used) :
    Bound text query key cte := by
  rcases mem_append.mp hcte with hcte | hcte
  · exact ⟨_, node, ⟨defined, body, ext, h.reached, hmem, rfl⟩, mem_append_left _ hcte⟩
  · exact h.bound key cte hcte

theorem within_of_visits (h : Visits text query used defined body) :
    Within text query used defined body := by
  induction h with
  | root => exact ⟨.refl, Subset.refl _, nofun⟩
  | @body used defined used' defined' ext body name a args cte _ hmem huse hdef hfrom ih =>
    obtain ⟨-, rfl⟩ := findAtUse_mem huse
    refine ⟨ih.reached.replaced hmem hdef hfrom, ?_, fun key cte hcte => ih.bound_ext hmem hcte⟩
    refine Subset.trans (findAtDefinition_mem hdef).2 (append_subset.mpr ⟨?_, ?_⟩)
    · exact subset_append_left _ _
    · exact subset_append_of_subset_right _ ih.subset

theorem same_found (hw : WellScoped text query) (h : Within text query used defined body)
    (hmem : (ext, .tableFactor (.table name a args)) ∈ queryParts text body) :
    (findAtUse text (ext ++ used) name).map Prod.fst =
      (findAtDefinition text (ext ++ defined) name).map Prod.fst := by
  have hscope : InScope text query (ext ++ defined) (.tableFactor (.table name a args)) :=
    ⟨defined, body, ext, h.reached, hmem, rfl⟩
  cases hdef : findAtDefinition text (ext ++ defined) name with
  | none =>
    cases huse : findAtUse text (ext ++ used) name with
    | none => rfl
    | some found =>
      have hbound := h.bound_ext hmem (findAtUse_mem huse).1
      exact absurd hdef (hw.found _ name a args _ hscope hbound)
  | some found =>
    obtain ⟨cte, env⟩ := found
    have hcte : (nameKey text name, cte) ∈ ext ++ used := by
      rcases mem_append.mp (findAtDefinition_mem hdef).1 with hcte | hcte
      · exact mem_append_left _ hcte
      · exact mem_append_right _ (h.subset hcte)
    obtain ⟨cte', huse⟩ := findAtUse_of_mem hcte
    rw [huse]
    exact congrArg some (hw.unique _ _ _ (h.bound_ext hmem (findAtUse_mem huse).1)
      (h.bound_ext hmem hcte))

def same : Congruence where
  rel x y := x = y
  ok _ := rfl
  error _ := rfl
  bind := by
    rintro x _ f g rfl h
    cases x with
    | error e => rfl
    | ok plan => exact h plan

theorem build_eq (hw : WellScoped text query) (fuel : Nat)
    (h : Visits text query used defined body) :
    buildPlan text (findAtUse text) fuel used body =
      buildPlan text (findAtDefinition text) fuel defined body := by
  induction fuel generalizing used defined body with
  | zero => rfl
  | succ fuel ih =>
    refine buildQuery_rel text (c := same) body fun ext name a args hmem => ?_
    have agree := same_found hw (within_of_visits h) hmem
    cases hdef : findAtDefinition text (ext ++ defined) name with
    | none =>
      rw [hdef, map_none, map_eq_none_iff] at agree
      simp only [expandWith, agree, hdef]
      exact .none
    | some found =>
      obtain ⟨cte, env⟩ := found
      rw [hdef, map_some, map_eq_some_iff] at agree
      obtain ⟨⟨cte', used'⟩, huse, rfl⟩ := agree
      simp only [expandWith, huse, hdef]
      split
      · rename_i hfrom
        exact .some (ih (.body h hmem huse hdef hfrom))
      · exact .none

end Agreement

section Items

variable {item : Item}

theorem item_inScope (fuel : Nat) {map : CteMap} {body : Query} {plan : LogicalPlan}
    (hreached : Reached text query (map, body))
    (hb : buildPlan text (findAtDefinition text) fuel map body = .ok plan)
    (hitem : item ∈ planItems plan) :
    ∃ scope, InScope text query scope item.node ∧
      ∀ name a args, item.node = .tableFactor (.table name a args) →
        item = .scan (objectNameToString name) (.table name a args) ∧
          ∀ cte env, findAtDefinition text scope name = some (cte, env) →
            queryHasFrom cte.query = false := by
  induction fuel generalizing map body plan with
  | zero => cases hb
  | succ fuel ih =>
    cases (buildQuery_built body plan hb).traced item hitem with
    | part ext hmem hkept =>
      refine ⟨ext ++ map, ⟨map, body, ext, hreached, hmem, rfl⟩, fun name a args hnode => ?_⟩
      obtain ⟨hscan, hnone⟩ := hkept name a args hnode
      refine ⟨hscan, fun cte env hfind => ?_⟩
      simpa [expandWith, hfind] using hnone
    | replaced ext name a args inner hmem hres hitem =>
      unfold expandWith at hres
      split at hres
      · rename_i cte env hfind
        split at hres
        · rename_i hfrom
          exact ih (hreached.replaced hmem hfind hfrom) (Option.some.inj hres) hitem
        · cases hres
      · cases hres

theorem no_mention_of_column {col : Expr} (h : IsColumn col) (name : ObjectName) :
    ¬ Mentions (.expr col) name := by
  rintro ⟨path, hm⟩
  cases path with
  | nil =>
    obtain ⟨ctx, node, hwalk, href, -⟩ := hm
    cases hwalk
    cases href
  | cons i path =>
    obtain ⟨place, hplace, -⟩ := mentionsAt_cons.mp hm
    cases col with
    | identifier | compoundIdentifier => cases hplace
    | _ => cases h

theorem mentionsAt_nil {name : ObjectName} (h : MentionsAt rootCtx item.node [] name) :
    ∃ a args, item.node = .tableFactor (.table name a args) := by
  obtain ⟨ctx, node, hwalk, href, -⟩ := h
  cases hwalk
  rcases item with ⟨tableName, factor⟩ | e
  · cases factor <;> cases href
    exact ⟨_, _, rfl⟩
  · cases href

theorem stage_defined (hw : WellScoped text query) {fuel : Nat} {plan stagePlan : LogicalPlan}
    (hb : buildPlan text (findAtDefinition text) fuel [] query = .ok plan)
    (hmade : Made (planItems plan) stagePlan) : Defined text query query.ctes stagePlan where
  inBody := by
    rintro name cte hmention ⟨map, node, env, hscope, -, hfind⟩
    have hbound := bound_of_found hscope hfind
    obtain ⟨item, hitem, path, hm⟩ := mentioned_item hmention
    have hgiven : item ∈ planItems plan := by
      rcases hmade item hitem with hgiven | ⟨col, rfl, hcol⟩
      · exact hgiven
      · exact absurd ⟨path, hm⟩ (no_mention_of_column hcol name)
    obtain ⟨scope, hitemScope, hkept⟩ := item_inScope fuel .refl hb hgiven
    by_cases hpath : path = []
    · subst hpath
      obtain ⟨a, args, hnode⟩ := mentionsAt_nil hm
      obtain ⟨rfl, htrivial⟩ := hkept name a args hnode
      obtain ⟨⟨cte', env'⟩, hfind'⟩ :=
        ne_none_iff_exists'.mp (hw.found _ name a args _ hitemScope hbound)
      have heq : cte' = cte := hw.unique _ _ _ (bound_of_found hitemScope hfind') hbound
      subst heq
      obtain ⟨hcte, hname⟩ :=
        hw.outermost _ name a args _ _ hitemScope hfind' (htrivial _ _ hfind')
      rw [filterCtesForStage_eq hcte hitem hname]
      exact hcte
    · exact absurd hbound (hw.inFrom _ _ path name cte hitemScope hpath hm)
  inDefinitions := by
    rintro earlier cte later hctes hcte name found env - hfind
    obtain ⟨hmem, -⟩ := findAtDefinition_mem hfind
    have hearlier : found ∈ earlier := by
      obtain ⟨entry, hentry, heq⟩ := List.mem_map.mp (mem_reverse.mp hmem)
      rw [← (Prod.mk.inj heq).2]
      exact hentry
    rcases filterCtesForStage_cases stagePlan query.ctes with hall | hnone
    · rw [hall, hctes]
      exact mem_append_left _ hearlier
    · rw [hnone] at hcte
      cases hcte

end Items

/-- `one (x) AS (SELECT 1)`. -/
def oneCte : Cte := ⟨{ name := ⟨"one", none⟩, columns := [⟨"x", none⟩] }, SqlAdmission.oneValue⟩

def aCte : Cte := cteNamed "a" (selectAllFrom [] "one")

def bCte : Cte := cteNamed "b" (selectAllFrom [] "a")

/-- `WITH one (x) AS (SELECT 1), a AS (SELECT * FROM one), b AS (SELECT * FROM a)
SELECT * FROM b`. -/
def scopedQuery : Query := selectAllFrom [oneCte, aCte, bCte] "b"

theorem reached_mem {bodies : List (CteMap × Query)}
    (start : ([], query) ∈ bodies)
    (step : ∀ body ∈ bodies, replacements text (findAtDefinition text) body ⊆ bodies)
    {body : CteMap × Query} (h : Reached text query body) : body ∈ bodies := by
  induction h with
  | refl => exact start
  | tail _ hreplaces ih => exact step _ ih hreplaces

theorem scopedQuery_inScope {map : CteMap} (h : InScope asciiText scopedQuery map node) :
    (map = entries asciiText [oneCte, aCte, bCte] ∧ node = .tableFactor (tableNamed "b")) ∨
      (map = entries asciiText [oneCte, aCte] ∧ node = .tableFactor (tableNamed "a")) ∨
      (map = entries asciiText [oneCte] ∧ node = .tableFactor (tableNamed "one")) := by
  obtain ⟨outer, body, ext, hreached, hmem, rfl⟩ := h
  have bodies : (outer, body) ∈ [([], scopedQuery),
      (entries asciiText [oneCte, aCte], bCte.query),
      (entries asciiText [oneCte], aCte.query)] := by
    refine reached_mem (.head _) ?_ hreached
    simp only [forall_mem_cons, not_mem_nil, false_imp_iff, implies_true, and_true]
    refine ⟨?_, ?_, ?_⟩
    · change [(entries asciiText [oneCte, aCte], bCte.query)] ⊆ _
      simp
    · change [(entries asciiText [oneCte], aCte.query)] ⊆ _
      simp
    · exact nil_subset _
  simp only [mem_cons, Prod.mk.injEq, not_mem_nil, or_false] at bodies
  rcases bodies with ⟨rfl, rfl⟩ | ⟨rfl, rfl⟩ | ⟨rfl, rfl⟩ <;> cases mem_singleton.mp hmem
  · exact .inl ⟨rfl, rfl⟩
  · exact .inr (.inl ⟨rfl, rfl⟩)
  · exact .inr (.inr ⟨rfl, rfl⟩)

theorem scopedQuery_bound {cte : Cte} (h : Bound asciiText scopedQuery key cte) :
    (key, cte) ∈ entries asciiText [oneCte, aCte, bCte] := by
  obtain ⟨map, node, hscope, hmem⟩ := h
  rcases scopedQuery_inScope hscope with ⟨rfl, -⟩ | ⟨rfl, -⟩ | ⟨rfl, -⟩
  · exact hmem
  · exact mem_cons_of_mem _ hmem
  · exact mem_cons_of_mem _ (mem_cons_of_mem _ hmem)

theorem scopedQuery_wellScoped : WellScoped asciiText scopedQuery where
  unique := by
    intro key cte cte' h h'
    have mem := scopedQuery_bound h
    have mem' := scopedQuery_bound h'
    change (key, cte) ∈ [("b", bCte), ("a", aCte), ("one", oneCte)] at mem
    change (key, cte') ∈ [("b", bCte), ("a", aCte), ("one", oneCte)] at mem'
    simp only [mem_cons, Prod.mk.injEq, not_mem_nil, or_false] at mem mem'
    rcases mem with ⟨rfl, rfl⟩ | ⟨rfl, rfl⟩ | ⟨rfl, rfl⟩ <;> simpa [eq_comm] using mem'
  found := by
    intro map name a args cte hscope _
    rcases scopedQuery_inScope hscope with ⟨rfl, heq⟩ | ⟨rfl, heq⟩ | ⟨rfl, heq⟩ <;> cases heq <;>
      exact nofun
  inFrom := by
    intro map node path name cte hscope hpath hm
    have leaf (t : String) : ¬ MentionsAt rootCtx (.tableFactor (tableNamed t)) path name := by
      intro hm
      cases path with
      | nil => exact hpath rfl
      | cons i path =>
        obtain ⟨place, hplace, -⟩ := mentionsAt_cons.mp hm
        cases hplace
    rcases scopedQuery_inScope hscope with ⟨-, rfl⟩ | ⟨-, rfl⟩ | ⟨-, rfl⟩ <;>
      exact absurd hm (leaf _)
  outermost := by
    intro map name a args cte env hscope hfind hfrom
    rcases scopedQuery_inScope hscope with ⟨rfl, heq⟩ | ⟨rfl, heq⟩ | ⟨rfl, heq⟩ <;> cases heq <;>
      cases hfind
    · cases hfrom
    · cases hfrom
    · exact ⟨.head _, rfl⟩

def readsB : Cte := cteNamed "a" (selectAllFrom [] "b")

/-- `WITH a AS (SELECT * FROM b), b AS (SELECT * FROM base) SELECT * FROM a`. -/
def laterQuery : Query := selectAllFrom [readsB, cteNamed "b" (selectAllFrom [] "base")] "a"

theorem laterQuery_not_recursive : ¬ SqlAdmission.RecursiveSomewhere (.query laterQuery) := by
  refine selectAllFrom_not_recursive (fun cte hcte ctx => ?_) rootCtx
  rcases mem_pair.mp hcte with rfl | rfl
  · exact plainSelect_not_recursive "b" ctx
  · exact plainSelect_not_recursive "base" ctx

theorem laterQuery_not_lexical : ¬ ResolvedLexically asciiText laterQuery := by
  intro h
  have visits : Visits asciiText laterQuery (entries asciiText laterQuery.ctes) [] readsB.query :=
    .body .root (.head _) rfl rfl rfl
  have agree := h _ _ _ visits [] _ _ _ (.head _)
  cases agree

def innerCte : Cte := cteNamed "c" SqlAdmission.oneValue

def derivedNamed (name : String) (query : Query) : TableFactor :=
  .derived false query (some { name := ⟨name, none⟩ })

/-- `SELECT * FROM (WITH c AS (SELECT 1) SELECT * FROM c) AS d`. -/
def innerQuery : Query := selectAllOf [] (derivedNamed "d" (selectAllFrom [innerCte] "c"))

theorem oneValue_not_recursive (ctx : Ctx) : ¬ RecursiveFrom ctx (.query SqlAdmission.oneValue) :=
  -- query, body, SELECT, literal: one after the other, with one child each
  only_child rfl rfl (only_child rfl rfl (only_child rfl rfl (not_recursive rfl nofun)))

theorem innerQuery_not_recursive : ¬ SqlAdmission.RecursiveSomewhere (.query innerQuery) := by
  have inner (ctx : Ctx) : ¬ RecursiveFrom ctx (.query (selectAllFrom [innerCte] "c")) := by
    refine selectAllFrom_not_recursive (fun cte hcte ctx => ?_) ctx
    cases mem_singleton.mp hcte
    exact oneValue_not_recursive ctx
  apply selectAllOf_not_recursive
  · intro cte hcte
    cases hcte
  · intro ctx
    exact only_child rfl rfl (inner _)

def innerPlan : LogicalPlan :=
  .project (.subqueryScan (.project (.scan "c" none (tableNamed "c")) [.wildcard])
    { name := ⟨"d", none⟩ }) [.wildcard]

theorem innerPlan_not_defined : ¬ Defined asciiText innerQuery [] innerPlan := by
  intro h
  have mentioned : SqlMentions (generateSql innerPlan) [.identifier ⟨"c", none⟩] :=
    ⟨.tableFactor (tableNamed "c"), .head _, [], rootCtx, _, rfl, rfl, rfl⟩
  have denoted : Denotes asciiText innerQuery [.identifier ⟨"c", none⟩] innerCte :=
    ⟨entries asciiText [innerCte], .tableFactor (tableNamed "c"), [],
      ⟨[], innerQuery, entries asciiText [innerCte], .refl, .head _, rfl⟩,
      ⟨[], rootCtx, _, rfl, rfl, rfl⟩, rfl⟩
  cases h.inBody _ _ mentioned denoted

end Leibrix.PlanLexical
