import Mathlib.Data.Nat.Find
import Leibrix.PlanParts
import Leibrix.SqlAdmission

/-!
# Termination of plan building

Building a query replaces CTE names by the plans of their bodies, and the names in those
bodies again. A CTE map has the CTE itself and the later ones, so a body that mentions its own
name begins an endless chain. Building comes to an end when the names can be put in an order
in which every body mentions only names before its own.
-/

set_option autoImplicit false

namespace Leibrix.PlanExpansion
open SqlAst SqlScopes LdpTypes PlanBuilder PlanParts List

variable {map : CteMap} (text : PlanText)

section
variable (find : Find)

def replacement (map : CteMap) : CteMap × Node → Option (CteMap × Query)
  | (ext, .tableFactor (.table name _ _)) =>
    match find (ext ++ map) name with
    | some (cte, env) => if queryHasFrom cte.query then some (env, cte.query) else none
    | none => none
  | _ => none

def replacements (caller : CteMap × Query) : List (CteMap × Query) :=
  (queryParts text caller.2).filterMap (replacement find caller.1)

def Replaces (callee caller : CteMap × Query) : Prop := callee ∈ replacements text find caller

def Steady (n : Nat) (query : CteMap × Query) : Prop :=
  ∀ fuel, n ≤ fuel →
    buildPlan text find fuel query.1 query.2 = buildPlan text find (fuel + 1) query.1 query.2 ∧
      buildPlan text find fuel query.1 query.2 ≠ .error .unfinished

/-- Both ends are the same, and reached. -/
def settled : Congruence where
  rel x y := x = y ∧ x ≠ .error .unfinished
  ok _ := ⟨rfl, nofun⟩
  error _ := ⟨rfl, nofun⟩
  bind := by
    rintro x y f g ⟨rfl, hx⟩ h
    cases x with
    | error e => exact ⟨rfl, hx⟩
    | ok plan => exact h plan

variable {text find}

theorem mem_replacements {query : Query} {ext : CteMap} {name : ObjectName} {a : Option TableAlias}
    {args : Option (List FunctionArg)} {cte : Cte} {env : CteMap}
    (hmem : (ext, .tableFactor (.table name a args)) ∈ queryParts text query)
    (hfind : find (ext ++ map) name = some (cte, env)) (hfrom : queryHasFrom cte.query = true) :
    (env, cte.query) ∈ replacements text find (map, query) := by
  refine mem_filterMap.mpr ⟨_, hmem, ?_⟩
  simp only [replacement, hfind, hfrom, if_true]

theorem steady_all (queries : List (CteMap × Query))
    (h : ∀ query ∈ queries, ∃ n, Steady text find n query) :
    ∃ n, ∀ query ∈ queries, Steady text find n query := by
  induction queries with
  | nil => exact ⟨0, nofun⟩
  | cons first rest ih =>
    obtain ⟨n, hn⟩ := h first mem_cons_self
    obtain ⟨m, hm⟩ := ih fun query hq => h query (mem_cons_of_mem _ hq)
    refine ⟨max n m, fun query hq fuel hfuel => ?_⟩
    rcases mem_cons.mp hq with rfl | hq
    · exact hn fuel ((Nat.le_max_left n m).trans hfuel)
    · exact hm query hq fuel ((Nat.le_max_right n m).trans hfuel)

variable {n : Nat}

theorem steady_step {query : CteMap × Query}
    (h : ∀ callee ∈ replacements text find query, Steady text find n callee) :
    Steady text find (n + 1) query := by
  intro fuel hfuel
  obtain ⟨fuel, rfl⟩ : ∃ k, fuel = k + 1 := ⟨fuel - 1, by omega⟩
  have hn : n ≤ fuel := by omega
  refine buildQuery_rel text (c := settled) query.2 fun ext name a args hmem => ?_
  cases hfind : find (ext ++ query.1) name with
  | none =>
    simp only [expandWith, hfind]
    exact .none
  | some found =>
    obtain ⟨cte, env⟩ := found
    simp only [expandWith, hfind]
    split
    · rename_i hfrom
      exact .some (h _ (mem_replacements hmem hfind hfrom) fuel hn)
    · exact .none

theorem steady_of_acc {query : CteMap × Query} (h : Acc (Replaces text find) query) :
    ∃ n, Steady text find n query := by
  induction h with
  | intro query _ ih =>
    obtain ⟨n, hn⟩ := steady_all (replacements text find query) ih
    exact ⟨n + 1, steady_step hn⟩

theorem Steady.eq {query : CteMap × Query} (h : Steady text find n query) (fuel : Nat)
    (hfuel : n ≤ fuel) : buildPlan text find fuel query.1 query.2 =
      buildPlan text find n query.1 query.2 := by
  induction fuel, hfuel using Nat.le_induction with
  | base => rfl
  | succ fuel hle ih => rw [← (h fuel hle).1, ih]

end

section Names

variable (query : Query)

/-- The name under which a table is looked up among the CTEs. -/
def nameKey (name : ObjectName) : String := text.toLowercase (objectNameToString name)

/-- A FROM clause of the query, or of a query inside it, has the name. -/
def Mentions (key : String) : Prop :=
  ∃ ext name a args, (ext, .tableFactor (.table name a args)) ∈ queryParts text query ∧
    nameKey text name = key

/-- The CTEs of a query, of the queries in its FROM clauses, and of their bodies. -/
inductive Defines : String × Cte → Prop
  | here {ext : CteMap} {node : Node} {entry : String × Cte}
      (part : (ext, node) ∈ queryParts text query) (mem : entry ∈ ext) : Defines entry
  | inside {key : String} {cte : Cte} {ext : CteMap} {node : Node} {entry : String × Cte}
      (outer : Defines (key, cte)) (part : (ext, node) ∈ queryParts text cte.query)
      (mem : entry ∈ ext) : Defines entry

/-- The names that a query mentions, and those that the CTEs of such names mention. -/
inductive Reaches : String → Prop
  | here {key : String} (mentions : Mentions text query key) : Reaches key
  | through {key inner : String} {cte : Cte} (outer : Reaches key)
      (defines : Defines text query (key, cte)) (from_ : queryHasFrom cte.query = true)
      (mentions : Mentions text cte.query inner) : Reaches inner

/-- The names can be numbered so that each CTE with a FROM clause that the query reaches mentions
only names with smaller numbers than its own. -/
def Ordered : Prop :=
  ∃ rank : String → Nat, ∀ key cte, Reaches text query key → Defines text query (key, cte) →
    queryHasFrom cte.query = true → ∀ inner, Mentions text cte.query inner → rank inner < rank key

/-- The query itself is the only one with CTEs, and these have different names. -/
structure Flat : Prop where
  outer : ∀ part ∈ queryParts text query, part.1 = entries text query.ctes
  inner : ∀ cte ∈ query.ctes, ∀ part ∈ queryParts text cte.query, part.1 = []
  names : ((entries text query.ctes).map (·.1)).Nodup

end Names

section Ordered

variable {query : Query}

variable {cte : Cte}

theorem findAtUse_some {name : ObjectName} {env : CteMap}
    (h : findAtUse text map name = some (cte, env)) :
    map.lookup (nameKey text name) = some cte ∧ env = map := by
  obtain ⟨found, hfound, heq⟩ := Option.map_eq_some_iff.mp h
  cases heq
  exact ⟨hfound, rfl⟩

/-- What replaces a name is the body of a CTE of that name in the map. -/
theorem mem_replacements_iff {query : Query} {callee : CteMap × Query} :
    callee ∈ replacements text (findAtUse text) (map, query) ↔
      ∃ ext name a args cte, (ext, .tableFactor (.table name a args)) ∈ queryParts text query ∧
        (ext ++ map).lookup (nameKey text name) = some cte ∧ queryHasFrom cte.query = true ∧
        callee = (ext ++ map, cte.query) := by
  constructor
  · intro h
    obtain ⟨⟨ext, node⟩, hmem, hrep⟩ := mem_filterMap.mp h
    unfold replacement at hrep
    split at hrep
    · rename_i ext' name a args heq
      cases heq
      split at hrep
      · rename_i cte env hfind
        split at hrep
        · rename_i hfrom
          cases hrep
          obtain ⟨hlookup, rfl⟩ := findAtUse_some text hfind
          exact ⟨ext, name, a, args, cte, hmem, hlookup, hfrom, rfl⟩
        · cases hrep
      · cases hrep
    · cases hrep
  · rintro ⟨ext, name, a, args, cte, hmem, hlookup, hfrom, rfl⟩
    refine mem_replacements hmem ?_ hfrom
    rw [nameKey] at hlookup
    rw [findAtUse, hlookup]
    rfl

theorem mem_of_lookup {key : String} (h : map.lookup key = some cte) : (key, cte) ∈ map := by
  induction map with
  | nil => cases h
  | cons entry map ih =>
    obtain ⟨key', cte'⟩ := entry
    rw [lookup_cons] at h
    cases same : key == key' with
    | true =>
      rw [same] at h
      cases h
      rw [beq_iff_eq.mp same]
      exact mem_cons_self
    | false =>
      rw [same] at h
      exact mem_cons_of_mem _ (ih h)

/-- The body of a reached CTE begins no endless chain, by induction on the number of its name. -/
theorem acc_of_rank {rank : String → Nat}
    (ranked : ∀ key cte, Reaches text query key → Defines text query (key, cte) →
      queryHasFrom cte.query = true → ∀ inner, Mentions text cte.query inner →
        rank inner < rank key) {key : String} (reached : Reaches text query key)
    (defined : Defines text query (key, cte)) (hfrom : queryHasFrom cte.query = true)
    (known : ∀ entry ∈ map, Defines text query entry) :
    Acc (Replaces text (findAtUse text)) (map, cte.query) := by
  induction hn : rank key using Nat.strong_induction_on generalizing key cte map with
  | _ n ih =>
    constructor
    intro callee hcallee
    obtain ⟨ext, name, a, args, inner, hmem, hlookup, hfrom', rfl⟩ :=
      (mem_replacements_iff text).mp hcallee
    have mentions : Mentions text cte.query (nameKey text name) := ⟨ext, name, a, args, hmem, rfl⟩
    have known' : ∀ entry ∈ ext ++ map, Defines text query entry := by
      intro entry hentry
      rcases mem_append.mp hentry with hentry | hentry
      · exact .inside defined hmem hentry
      · exact known entry hentry
    exact ih _ (hn ▸ ranked key cte reached defined hfrom _ mentions)
      (.through reached defined hfrom mentions) (known' _ (mem_of_lookup hlookup)) hfrom' known' rfl

theorem acc_of_ordered (h : Ordered text query) :
    Acc (Replaces text (findAtUse text)) ([], query) := by
  obtain ⟨rank, ranked⟩ := h
  constructor
  intro callee hcallee
  obtain ⟨ext, name, a, args, cte, hmem, hlookup, hfrom, rfl⟩ :=
    (mem_replacements_iff text).mp hcallee
  rw [append_nil] at hlookup ⊢
  have known : ∀ entry ∈ ext, Defines text query entry := fun entry hentry => .here hmem hentry
  exact acc_of_rank text ranked (.here ⟨ext, name, a, args, hmem, rfl⟩)
    (known _ (mem_of_lookup hlookup)) hfrom known

end Ordered

section Built

variable {query : Query} {key : String} {cte : Cte}

theorem lookup_of_mem (names : (map.map (·.1)).Nodup) (h : (key, cte) ∈ map) :
    map.lookup key = some cte := by
  induction map with
  | nil => cases h
  | cons entry map ih =>
    obtain ⟨other, rest⟩ := nodup_cons.mp names
    rw [lookup_cons]
    rcases mem_cons.mp h with rfl | h
    · simp
    · have ne : (key == entry.1) = false := by
        rw [beq_eq_false_iff_ne]
        intro same
        exact other (mem_map.mpr ⟨(key, cte), h, same⟩)
      rw [ne]
      exact ih rest h

theorem mem_ctes {ctes : List Cte} (h : (key, cte) ∈ entries text ctes) : cte ∈ ctes := by
  obtain ⟨found, hfound, heq⟩ := mem_map.mp (mem_reverse.mp h)
  cases heq
  exact hfound

theorem Flat.mem_entries (flat : Flat text query) {entry : String × Cte}
    (h : Defines text query entry) : entry ∈ entries text query.ctes := by
  induction h with
  | here part mem =>
    have whole := flat.outer _ part
    subst whole
    exact mem
  | inside outer part mem ih =>
    have none := flat.inner _ (mem_ctes text ih) _ part
    subst none
    cases mem

theorem Flat.lookup (flat : Flat text query) (h : Defines text query (key, cte)) :
    (entries text query.ctes).lookup key = some cte :=
  lookup_of_mem flat.names (flat.mem_entries text h)

variable {fuel : Nat}

/-- A query that is built has the bodies of its names built, one replacement earlier. -/
theorem built_mentions {plan : LogicalPlan}
    (h : buildPlan text (findAtUse text) (fuel + 1) map query = .ok plan) {ext : CteMap}
    {name : ObjectName} {a : Option TableAlias} {args : Option (List FunctionArg)}
    (hmem : (ext, .tableFactor (.table name a args)) ∈ queryParts text query)
    (hlookup : (ext ++ map).lookup (nameKey text name) = some cte)
    (hfrom : queryHasFrom cte.query = true) :
    ∃ inner, buildPlan text (findAtUse text) fuel (ext ++ map) cte.query = .ok inner := by
  have hres : expandWith (findAtUse text) (buildPlan text (findAtUse text) fuel) (ext ++ map) name =
      some (buildPlan text (findAtUse text) fuel (ext ++ map) cte.query) := by
    rw [nameKey] at hlookup
    simp only [expandWith, findAtUse, hlookup, Option.map_some, hfrom, if_true]
  exact (buildQuery_built query plan h).resolved ext name a args _ hmem hres

/-- The CTE that a name of a flat query stands for is built with this fuel. -/
def BuiltAt (text : PlanText) (query : Query) (key : String) (fuel : Nat) : Prop :=
  ∃ cte plan, (entries text query.ctes).lookup key = some cte ∧ queryHasFrom cte.query = true ∧
    buildPlan text (findAtUse text) fuel (entries text query.ctes) cte.query = .ok plan

theorem BuiltAt.inner (flat : Flat text query) (h : BuiltAt text query key fuel)
    (defined : Defines text query (key, cte)) {inner : String}
    (mentions : Mentions text cte.query inner) {cte' : Cte}
    (hlookup : (entries text query.ctes).lookup inner = some cte')
    (hfrom : queryHasFrom cte'.query = true) :
    ∃ fuel', fuel = fuel' + 1 ∧ BuiltAt text query inner fuel' := by
  obtain ⟨found, plan, hfound, -, hplan⟩ := h
  rw [flat.lookup text defined] at hfound
  cases hfound
  obtain ⟨ext, name, a, args, hmem, rfl⟩ := mentions
  cases fuel with
  | zero => cases hplan
  | succ fuel =>
    have plain : ext = [] := flat.inner cte (mem_ctes text (flat.mem_entries text defined)) _ hmem
    subst plain
    obtain ⟨inner, hinner⟩ := built_mentions text hplan hmem hlookup hfrom
    exact ⟨fuel, rfl, cte', inner, hlookup, hfrom, hinner⟩

theorem builtAt_of_reaches (flat : Flat text query) {plan : LogicalPlan}
    (h : buildPlan text (findAtUse text) fuel [] query = .ok plan)
    (reached : Reaches text query key) (defined : Defines text query (key, cte))
    (hfrom : queryHasFrom cte.query = true) : ∃ fuel', BuiltAt text query key fuel' := by
  induction reached generalizing cte with
  | here mentions =>
    obtain ⟨ext, name, a, args, hmem, rfl⟩ := mentions
    have whole : ext = entries text query.ctes := flat.outer _ hmem
    subst whole
    cases fuel with
    | zero => cases h
    | succ fuel =>
      have hlookup := flat.lookup text defined
      obtain ⟨inner, hinner⟩ := built_mentions text h hmem (by rwa [append_nil]) hfrom
      rw [append_nil] at hinner
      exact ⟨fuel, cte, inner, hlookup, hfrom, hinner⟩
  | through _ definedOuter hfromOuter mentions ih =>
    obtain ⟨fuel', built⟩ := ih definedOuter hfromOuter
    obtain ⟨fuel'', -, built⟩ :=
      built.inner text flat definedOuter mentions (flat.lookup text defined) hfrom
    exact ⟨fuel'', built⟩

open Classical in
/-- Zero for a base table, and else one more than the fuel with which the CTE is built first. -/
noncomputable def builtRank (text : PlanText) (query : Query) (key : String) : Nat :=
  if h : ∃ fuel, BuiltAt text query key fuel then Nat.find h + 1 else 0

open Classical in
theorem BuiltAt.builtRank_le (h : BuiltAt text query key fuel) :
    builtRank text query key ≤ fuel + 1 := by
  rw [builtRank, dif_pos ⟨fuel, h⟩]
  exact Nat.succ_le_succ (Nat.find_min' _ h)

open Classical in
theorem ordered_of_built (flat : Flat text query) {plan : LogicalPlan}
    (h : buildPlan text (findAtUse text) fuel [] query = .ok plan) : Ordered text query := by
  refine ⟨builtRank text query, fun key cte reached defined hfrom inner mentions => ?_⟩
  have built := builtAt_of_reaches text flat h reached defined hfrom
  rw [builtRank.eq_def text query key, dif_pos built]
  by_cases more : ∃ fuel, BuiltAt text query inner fuel
  · obtain ⟨_, cte', _, hlookup, hfrom', _⟩ := more
    obtain ⟨fuel', heq, below⟩ :=
      (Nat.find_spec built).inner text flat defined mentions hlookup hfrom'
    rw [heq]
    exact Nat.lt_succ_of_le (below.builtRank_le text)
  · rw [builtRank, dif_neg more]
    exact Nat.succ_pos _

end Built

/-- Building ends with a plan or an error. -/
def Terminates (stmt : Statement) : Prop :=
  ∃ n result, result ≠ .error .unfinished ∧
    ∀ fuel, n ≤ fuel → buildLogicalPlan text fuel stmt = result

def asciiText : PlanText where
  toLowercase s := String.ofList (s.toList.map Char.toLower)
  tableFactor _ := ""
  discriminant _ := ""

def tableNamed (name : String) : TableFactor := .table [.identifier ⟨name, none⟩] none none

/-- `SELECT * FROM name`, with a WITH clause. -/
def selectAllFrom (ctes : List Cte) (name : String) : Query :=
  ⟨false, ctes, .select ⟨none, [.wildcard], [⟨tableNamed name, []⟩], none, .expressions [] [], none,
    [], none⟩, none, none, none⟩

def cteNamed (name : String) (query : Query) : Cte := ⟨{ name := ⟨name, none⟩ }, query⟩

/-- `WITH a AS (SELECT * FROM base), b AS (SELECT * FROM a) SELECT * FROM b`. -/
def chainQuery : Query :=
  selectAllFrom [cteNamed "a" (selectAllFrom [] "base"), cteNamed "b" (selectAllFrom [] "a")] "b"

variable {name : String}

theorem selectAllFrom_part {ctes : List Cte} {part : CteMap × Node}
    (h : part ∈ queryParts text (selectAllFrom ctes name)) :
    part = (entries text ctes, .tableFactor (tableNamed name)) :=
  mem_singleton.mp h

theorem selectAllFrom_mentions {ctes : List Cte} {key : String}
    (h : Mentions text (selectAllFrom ctes name) key) : text.toLowercase name = key := by
  obtain ⟨ext, name', a, args, hmem, rfl⟩ := h
  cases selectAllFrom_part text hmem
  rfl

theorem chainQuery_flat : Flat asciiText chainQuery where
  outer part hpart := congrArg Prod.fst (selectAllFrom_part asciiText hpart)
  inner cte hcte part hpart := by
    simp only [chainQuery, selectAllFrom, mem_cons, not_mem_nil, or_false] at hcte
    rcases hcte with rfl | rfl <;> exact congrArg Prod.fst (selectAllFrom_part asciiText hpart)
  names := by decide

def selfCte : Cte := cteNamed "t" (selectAllFrom [] "t")

/-- `WITH t AS (SELECT * FROM t) SELECT * FROM t`. -/
def selfQuery : Query := selectAllFrom [selfCte] "t"

variable {ctes : List Cte}

theorem selectAllFrom_unfinished (text : PlanText)
    {resolve : CteMap → ObjectName → Option (Build LogicalPlan)}
    (h : resolve (insertCtes text map ctes) [.identifier ⟨name, none⟩] =
      some (.error .unfinished)) :
    buildFromQueryWithCtes text resolve map (selectAllFrom ctes name) = .error .unfinished := by
  simp only [selectAllFrom, buildFromQueryWithCtes, buildSetExpr, buildSelect, buildFromClause,
    buildTableWithJoins, buildTableFactor, tableNamed, h]
  rfl

theorem findAtUse_self (text : PlanText) (h : map.lookup (text.toLowercase "t") = some selfCte) :
    findAtUse text map [.identifier ⟨"t", none⟩] = some (selfCte, map) := by
  simp only [findAtUse, objectNameToString, getLast?_singleton, h, Option.map_some]

theorem selfCte_unfinished (text : PlanText) (fuel : Nat)
    (h : map.lookup (text.toLowercase "t") = some selfCte) :
    buildPlan text (findAtUse text) fuel map selfCte.query = .error .unfinished := by
  induction fuel with
  | zero => rfl
  | succ fuel ih =>
    change buildFromQueryWithCtes text _ map (selectAllFrom [] "t") = _
    apply selectAllFrom_unfinished
    change expandWith (findAtUse text) (buildPlan text (findAtUse text) fuel) map
      [.identifier ⟨"t", none⟩] = some (.error .unfinished)
    rw [expandWith, findAtUse_self text h]
    exact congrArg some ih

theorem selfQuery_unfinished (text : PlanText) (fuel : Nat) :
    buildLogicalPlan text fuel (.query selfQuery) = .error .unfinished := by
  have hmap : (insertCtes text [] [selfCte]).lookup (text.toLowercase "t") = some selfCte := by
    simp [insertCtes, cteEntry, selfCte, cteNamed]
  have hplan : buildPlan text (findAtUse text) fuel [] selfQuery = .error .unfinished := by
    cases fuel with
    | zero => rfl
    | succ fuel =>
      apply selectAllFrom_unfinished
      rw [expandWith, findAtUse_self text hmap]
      exact congrArg some (selfCte_unfinished text fuel hmap)
  rw [buildLogicalPlan, hplan]
  rfl

section NotRecursive

/-- A `WITH RECURSIVE` at the node or below it. -/
def RecursiveFrom (ctx : Ctx) (node : Node) : Prop :=
  ∃ path ctx' node', walk ctx node path = some (ctx', node') ∧ SqlAdmission.isRecursive node' = true

variable {ctx : Ctx}

theorem not_recursive {node : Node} (h : SqlAdmission.isRecursive node = false)
    (below : ∀ place ∈ children ctx node, ¬ RecursiveFrom place.1 place.2) :
    ¬ RecursiveFrom ctx node := by
  rintro ⟨_ | ⟨i, path⟩, ctx', node', hwalk, hrec⟩
  · cases hwalk
    rw [h] at hrec
    cases hrec
  · rw [walk] at hwalk
    split at hwalk
    · rename_i ctx₁ child hplace
      exact below (ctx₁, child) (mem_of_getElem? hplace) ⟨path, ctx', node', hwalk, hrec⟩
    · cases hwalk

theorem only_child {node : Node} {place : Ctx × Node} (h : SqlAdmission.isRecursive node = false)
    (only : children ctx node = [place]) (below : ¬ RecursiveFrom place.1 place.2) :
    ¬ RecursiveFrom ctx node :=
  not_recursive h (only ▸ forall_mem_singleton.mpr below)

theorem cteNodes_mem {recursive : Bool} {env : List String} {place : Ctx × Node}
    (h : place ∈ cteNodes ctx recursive env ctes) : ∃ cte ∈ ctes, place.2 = .query cte.query := by
  induction ctes generalizing env with
  | nil => cases h
  | cons cte ctes ih =>
    rcases mem_cons.mp h with rfl | h
    · exact ⟨cte, mem_cons_self, rfl⟩
    · obtain ⟨found, hfound, heq⟩ := ih h
      exact ⟨found, mem_cons_of_mem _ hfound, heq⟩

/-- `SELECT * FROM factor`, with a WITH clause. -/
def selectAllOf (ctes : List Cte) (factor : TableFactor) : Query :=
  ⟨false, ctes, .select ⟨none, [.wildcard], [⟨factor, []⟩], none, .expressions [] [], none,
    [], none⟩, none, none, none⟩

theorem selectAllOf_not_recursive {factor : TableFactor}
    (hctes : ∀ cte ∈ ctes, ∀ ctx, ¬ RecursiveFrom ctx (.query cte.query))
    (hfactor : ∀ ctx, ¬ RecursiveFrom ctx (.tableFactor factor)) (ctx : Ctx) :
    ¬ RecursiveFrom ctx (.query (selectAllOf ctes factor)) := by
  -- query, body, SELECT, table with joins: one after the other, with one child each
  refine not_recursive rfl fun place hplace => ?_
  rcases mem_append.mp hplace with hplace | hplace
  · rcases mem_append.mp hplace with hplace | hplace
    · obtain ⟨cte, hcte, heq⟩ := cteNodes_mem hplace
      rw [heq]
      exact hctes cte hcte _
    · cases mem_singleton.mp hplace
      exact only_child rfl rfl (only_child rfl rfl (only_child rfl rfl (hfactor _)))
  · cases hplace

theorem table_not_recursive (name : String) (ctx : Ctx) :
    ¬ RecursiveFrom ctx (.tableFactor (tableNamed name)) :=
  not_recursive rfl nofun

theorem selectAllFrom_not_recursive {name : String}
    (hctes : ∀ cte ∈ ctes, ∀ ctx, ¬ RecursiveFrom ctx (.query cte.query)) (ctx : Ctx) :
    ¬ RecursiveFrom ctx (.query (selectAllFrom ctes name)) :=
  selectAllOf_not_recursive hctes (table_not_recursive name) ctx

theorem plainSelect_not_recursive (name : String) (ctx : Ctx) :
    ¬ RecursiveFrom ctx (.query (selectAllFrom [] name)) := by
  apply selectAllFrom_not_recursive
  intro cte hcte
  cases hcte

end NotRecursive

theorem selfQuery_not_recursive : ¬ SqlAdmission.RecursiveSomewhere (.query selfQuery) := by
  refine selectAllFrom_not_recursive (fun cte hcte ctx => ?_) rootCtx
  cases mem_singleton.mp hcte
  exact plainSelect_not_recursive "t" ctx

end Leibrix.PlanExpansion
