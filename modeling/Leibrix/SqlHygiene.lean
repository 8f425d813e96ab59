import Mathlib.Data.List.Induction
import Leibrix.SqlReach

/-!
# Completeness and hygiene of the rewriting

A transformed query is described place by place from the registry. Plain tables that the
pass comes by and that are spelled as a dataset become macro calls, whatever the name means
there. From this description: when no dataset reference survives, when no CTE reference is
replaced, and when column qualifiers keep their meaning.
-/

set_option autoImplicit false

namespace Leibrix.SqlHygiene
open SqlAst SqlInterval SqlAnalyzer SqlDiscovery SqlTransformer SqlScopes SqlRewrite SqlReach
open List Option

/-! ## Replacements -/

variable {name : String}

theorem getDataset_isSome {reg : Registry} :
    (reg.getDataset name).isSome = true ↔ name ∈ reg.ids := by
  simp [Registry.getDataset, Registry.ids]

/-- The reference whose interval counts for a dataset. -/
def lastReference (tables : List TableReference) (name : String) : Option TableReference :=
  tables.reverse.find? (·.datasetId == name)

theorem lastReference_isSome {tables : List TableReference} :
    (lastReference tables name).isSome = true ↔ name ∈ tables.map (·.datasetId) := by
  simp [lastReference]

section
variable {D : Type} [LinearOrder D] {c : Chrono D}

theorem lookup_extractIntervals (timeColumns : String → Option String) (expr : Expr)
    (tables : List TableReference) (name timeCol : String) (ht : timeColumns name = some timeCol) :
    (extractIntervals c timeColumns expr tables).lookup name =
      (lastReference tables name).map fun t =>
        analyzeForTable c t.effectiveName timeCol expr := by
  induction tables using reverseRecOn with
  | nil => rfl
  | append_singleton tables t ih =>
    unfold extractIntervals lastReference at ih ⊢
    rw [foldl_append, foldl_cons, foldl_nil, reverse_append,
      reverse_singleton, singleton_append, find?_cons]
    by_cases hn : t.datasetId = name
    · subst hn
      simp [ht]
    · have hb : (t.datasetId == name) = false := by simpa using hn
      have hb' : (name == t.datasetId) = false := by simpa using Ne.symm hn
      rw [hb]
      cases htc : timeColumns t.datasetId with
      | none => exact ih
      | some col => simpa [lookup_cons, hb'] using ih

variable {α : Type} {name : String} {μ μ' : String → Option String} {node' : Node}

theorem lookup_map_snd {β : Type} (f : α → β) (table : Table α) (name : String) :
    List.lookup name (table.map fun kv => (kv.1, f kv.2)) = (table.lookup name).map f := by
  induction table with
  | nil => rfl
  | cons kv table ih =>
    obtain ⟨k, v⟩ := kv
    cases hk : name == k <;> simp [lookup_cons, hk, ih]

theorem lookup_const (a : α) (tables : List TableReference) (name : String)
    (h : name ∈ tables.map (·.datasetId)) :
    List.lookup name (tables.map fun t => (t.datasetId, a)) = some a := by
  induction tables with
  | nil => cases h
  | cons t tables ih =>
    by_cases hk : name = t.datasetId
    · simp [hk]
    · rw [map_cons, lookup_cons, beq_false_of_ne hk]
      exact ih (mem_of_ne_of_mem hk h)

variable {ranges : Table DateRange} {ds : RegisteredDataset}

theorem lookup_replacements {reg : Registry} {tables : List TableReference} {range : DateRange} :
    (replacements reg tables ranges).lookup name = some (ds, range) ↔
      name ∈ tables.map (·.datasetId) ∧ reg.getDataset name = some ds ∧
        ranges.lookup name = some range := by
  induction tables with
  | nil => simp [replacements]
  | cons t tables ih =>
    unfold replacements at ih ⊢
    rw [filterMap_cons, map_cons, mem_cons]
    by_cases hk : name = t.datasetId
    · subst hk
      cases hd : reg.getDataset t.datasetId <;> cases hr : ranges.lookup t.datasetId <;>
        simp [hd, hr, ih]
    · have other : (name == t.datasetId) = false := beq_false_of_ne hk
      cases hd : reg.getDataset t.datasetId <;> cases hr : ranges.lookup t.datasetId <;>
        simp [lookup_cons, other, hk, ih]

theorem dateRanges_complete (reg : Registry) (stmt : Statement) (tables : List TableReference)
    (name : String) (hn : name ∈ tables.map (·.datasetId)) (hr : name ∈ reg.ids) :
    ∃ range, (dateRanges c reg stmt tables).lookup name = some range := by
  obtain ⟨ds, hd⟩ := isSome_iff_exists.mp (getDataset_isSome.mpr hr)
  obtain ⟨t, ht⟩ := isSome_iff_exists.mp (lastReference_isSome.mpr hn)
  unfold dateRanges
  split
  · rename_i expr _
    refine ⟨.ofInterval (analyzeForTable c t.effectiveName ds.timeColumnName expr), ?_⟩
    rw [lookup_map_snd, lookup_extractIntervals _ _ _ name ds.timeColumnName (by simp [hd]), ht]
    rfl
  · exact ⟨_, lookup_const _ tables name hn⟩

/-! ## Places of a transformed query -/

def isDataset (reg : Registry) (name : String) : Bool := (reg.getDataset name).isSome

def datasetMacro (reg : Registry) (name : String) : Option String :=
  (reg.getDataset name).map (·.macroName)

def isFunctionFactor : Node → Bool
  | .tableFactor (.function _ _ _ _) => true
  | _ => false

variable (c) in
/-- What becomes of a node: a macro call for a dataset the pass comes by, else a
node that is called the same and refers the same. -/
inductive Image (reg : Registry) (ranges : Table DateRange) (ctx : Ctx) : Node → Node → Prop where
  | call (name : ObjectName) (a : Option TableAlias) (args : Option (List FunctionArg))
      (ds : RegisteredDataset) (range : DateRange) (hv : ctx.visited = true)
      (hd : reg.getDataset (extractTableName name) = some ds)
      (hr : ranges.lookup (extractTableName name) = some range) :
      Image reg ranges ctx (.tableFactor (.table name a args))
        (.tableFactor (createMacroCall c ds range a))
  | kept (node node' : Node) (hr : replaced (isDataset reg) ctx node = false)
      (hp : plainRef node' = plainRef node) (hq : qualifierOf node' = qualifierOf node)
      (hf : isFunctionFactor node' = isFunctionFactor node) :
      Image reg ranges ctx node node'

theorem renameItem_none (item : FromItem) : renameItem (fun _ => none) item = item := by
  cases item with
  | table visited name => cases visited <;> rfl
  | _ => rfl

theorem renameItem_congr {item : FromItem}
    (h : ∀ name, item = .table true name → μ name = μ' name) :
    renameItem μ item = renameItem μ' item := by
  cases item with
  | table visited name =>
    cases visited with
    | true => simp only [renameItem, h name rfl]
    | false => rfl
  | _ => rfl

variable {ctx : Ctx}

theorem renameCtx_congr
    (h : ∀ name, FromItem.table true name ∈ ctx.frames.flatten → μ name = μ' name) :
    renameCtx μ ctx = renameCtx μ' ctx := by
  have hf : ctx.frames.map (·.map (renameItem μ)) = ctx.frames.map (·.map (renameItem μ')) := by
    refine map_congr_left fun items hi => map_congr_left fun item hit => ?_
    apply renameItem_congr
    rintro name rfl
    exact h name (mem_flatten.mpr ⟨items, hi, hit⟩)
  rw [renameCtx, renameCtx, hf]

theorem renameCtx_none (ctx : Ctx) : renameCtx (fun _ => none) ctx = ctx := by
  have hi : renameItem (fun _ => none) = id := funext renameItem_none
  simp [renameCtx, hi]

variable {node : Node}

attribute [local simp] isDataset replaced

theorem rewriteNode_kept {ρ : Replacements} (hv : ctx.visited = true)
    (hr : replaced (has ρ) ctx node = false) :
    plainRef (rewriteNode c ρ node) = plainRef node ∧
      qualifierOf (rewriteNode c ρ node) = qualifierOf node ∧
      isFunctionFactor (rewriteNode c ρ node) = isFunctionFactor node := by
  cases node with
  | setExpr body => cases body <;> exact ⟨rfl, rfl, rfl⟩
  | tableFactor factor =>
    cases factor with
    | table name a args =>
      have hl : ρ.lookup (extractTableName name) = none := by
        simpa [has, hv] using hr
      rw [rewriteNode, rewriteTableFactor_kept hl]
      exact ⟨rfl, rfl, rfl⟩
    | _ => exact ⟨rfl, rfl, rfl⟩
  | expr e => cases e <;> exact ⟨rfl, rfl, rfl⟩
  | _ => exact ⟨rfl, rfl, rfl⟩

variable {reg : Registry} {stmt : Statement} {tables : List TableReference}

variable (c reg stmt tables) in
def replacementsOf : Replacements := replacements reg tables (dateRanges c reg stmt tables)

variable (c stmt) in
theorem lookup_found {name : String} (hn : name ∈ tables.map (·.datasetId))
    (hd : reg.getDataset name = some ds) :
    ∃ range, (dateRanges c reg stmt tables).lookup name = some range ∧
      (replacementsOf c reg stmt tables).lookup name = some (ds, range) := by
  have hr : name ∈ reg.ids := getDataset_isSome.mp (by rw [hd]; rfl)
  obtain ⟨range, h⟩ := dateRanges_complete (c := c) reg stmt tables name hn hr
  exact ⟨range, h, lookup_replacements.mpr ⟨hn, hd, h⟩⟩

theorem has_eq_isDataset (h : name ∈ reg.ids → name ∈ tables.map (·.datasetId)) :
    has (replacementsOf c reg stmt tables) name = isDataset reg name ∧
      macroOf (replacementsOf c reg stmt tables) name = datasetMacro reg name := by
  cases hd : reg.getDataset name with
  | some ds =>
    obtain ⟨range, -, hl⟩ := lookup_found c stmt (h (getDataset_isSome.mp (by rw [hd]; rfl))) hd
    simp [has, macroOf, datasetMacro, hl, hd]
  | none =>
    have hl : (replacementsOf c reg stmt tables).lookup name = none :=
      eq_none_iff_forall_ne_some.mpr fun r hl => by
        cases hd.symm.trans (lookup_replacements.mp hl).2.1
    simp [has, macroOf, datasetMacro, hl, hd]

variable (c stmt) in
theorem replaced_eq (h : Known reg.ids tables ctx node) :
    replaced (has (replacementsOf c reg stmt tables)) ctx node =
      replaced (isDataset reg) ctx node := by
  rw [Bool.eq_iff_iff, replaced_iff, replaced_iff]
  refine exists₃_congr fun name a args => and_congr_right ?_
  rintro rfl
  refine and_congr_right fun hv => ?_
  rw [(has_eq_isDataset fun hr => table_known h hv hr).1]

variable (c stmt) in
theorem replacedAbove_eq (path : List Nat) (h : Known reg.ids tables ctx node) :
    replacedAbove (has (replacementsOf c reg stmt tables)) ctx node path =
      replacedAbove (isDataset reg) ctx node path := by
  induction path generalizing ctx node with
  | nil => rfl
  | cons i path ih =>
    rw [replacedAbove, replacedAbove, replaced_eq c stmt h]
    cases hc : (children ctx node)[i]? with
    | none => rfl
    | some child =>
      simp only
      rw [ih (children_known h (mem_of_getElem? hc))]

variable (c stmt) in
theorem renameCtx_known (h : Known reg.ids tables ctx node) :
    renameCtx (macroOf (replacementsOf c reg stmt tables)) ctx =
      renameCtx (datasetMacro reg) ctx :=
  renameCtx_congr fun name hn => (has_eq_isDataset (h.items name hn)).2

theorem image_of_known (h : Known reg.ids tables ctx node) :
    Image c reg (dateRanges c reg stmt tables) ctx node
      (rewritePlace c (replacementsOf c reg stmt tables) (ctx, node)).2 := by
  cases hr : replaced (isDataset reg) ctx node with
  | false =>
    cases hv : ctx.visited with
    | false =>
      rw [rewritePlace_skipped hv]
      exact .kept node node hr rfl rfl rfl
    | true =>
      rw [rewritePlace_visited hv]
      obtain ⟨hp, hq, hf⟩ := rewriteNode_kept (c := c) hv ((replaced_eq c stmt h).trans hr)
      exact .kept node _ hr hp hq hf
  | true =>
    obtain ⟨name, a, args, rfl, hv, hd⟩ := replaced_iff.mp hr
    obtain ⟨ds, hd⟩ := isSome_iff_exists.mp hd
    have hn := table_known h hv (getDataset_isSome.mp (by rw [hd]; rfl))
    obtain ⟨range, hrange, hl⟩ := lookup_found c stmt hn hd
    rw [rewritePlace_visited hv, rewriteNode, rewriteTableFactor_replaced hl]
    exact .call name a args ds range hv hd hrange

theorem transformStatement_cases {query : Query} {r : Rewritten}
    (h : transformStatement c reg (.query query) = .ok r) :
    ∃ tables, visitQuery reg.ids query = .ok tables ∧
      (tables = [] ∧ r.statement = .query query ∨
        tables ≠ [] ∧ r.dateRanges = dateRanges c reg (.query query) tables ∧
          r.statement =
            .query (rewriteQuery c (replacementsOf c reg (.query query) tables) query)) := by
  simp only [transformStatement, bind_eq_ok, discover] at h
  obtain ⟨tables, ht, h⟩ := h
  refine ⟨tables, ht, ?_⟩
  cases tables with
  | nil =>
    left
    cases h
    exact ⟨rfl, rfl⟩
  | cons t ts =>
    right
    simp only [isEmpty_cons, Bool.false_eq_true, if_false, rewriteStatement, bind_eq_ok,
      Except.ok.injEq, exists_eq_left', pure_eq_ok] at h
    subst h
    exact ⟨cons_ne_nil t ts, rfl, rfl⟩

theorem transformStatement_dateRanges {query : Query} {r : Rewritten}
    (h : transformStatement c reg (.query query) = .ok r)
    (ht : visitQuery reg.ids query = .ok tables) (hn : name ∈ tables.map (·.datasetId)) :
    r.dateRanges = dateRanges c reg (.query query) tables := by
  obtain ⟨tables', ht', ⟨rfl, -⟩ | ⟨-, hr, -⟩⟩ := transformStatement_cases h
  · cases ht.symm.trans ht'
    cases hn
  · cases ht.symm.trans ht'
    exact hr

theorem root_known {query : Query} (h : visitQuery reg.ids query = .ok tables) :
    Known reg.ids tables rootCtx (.query query) := by
  have hp : place query [] = some (rootCtx, .query query) := rfl
  exact place_known h hp

theorem replaced_none (ctx : Ctx) (node : Node) :
    replaced (has (replacementsOf c reg stmt [])) ctx node = false := by
  fun_cases replaced (has (replacementsOf c reg stmt [])) ctx node
  · simp [has, replacementsOf, replacements]
  · rfl

theorem replacedAbove_none (path : List Nat) (ctx : Ctx) (node : Node) :
    replacedAbove (has (replacementsOf c reg stmt [])) ctx node path = false := by
  induction path generalizing ctx node with
  | nil => rfl
  | cons i path ih =>
    rw [replacedAbove, replaced_none, Bool.false_or]
    cases (children ctx node)[i]? with
    | none => rfl
    | some child => exact ih child.1 child.2

variable {path : List Nat}

variable {query query' : Query} {r : Rewritten}
  (h : transformStatement c reg (.query query) = .ok r) (hq : r.statement = .query query')
include h hq

theorem place_image (hp : place query path = some (ctx, node))
    (ha : replacedAbove (isDataset reg) rootCtx (.query query) path = false) :
    ∃ node', place query' path = some (renameCtx (datasetMacro reg) ctx, node') ∧
      Image c reg r.dateRanges ctx node node' := by
  obtain ⟨tables, ht, hs⟩ := transformStatement_cases h
  have known := place_known ht hp
  rcases hs with ⟨rfl, hs⟩ | ⟨-, hranges, hs⟩ <;> cases hq.symm.trans hs
  · refine ⟨node, ?_, .kept node node ?_ rfl rfl rfl⟩
    · rw [hp, renameCtx_congr, renameCtx_none]
      intro name hn
      cases hd : reg.getDataset name with
      | none => simp [datasetMacro, hd]
      | some ds => cases known.items name hn (getDataset_isSome.mp (by rw [hd]; rfl))
    · -- nothing was found, so no dataset stands where the pass comes by
      rw [← replaced_eq c (.query query) known, replaced_none]
  · rw [hranges]
    refine ⟨_, ?_, image_of_known known⟩
    rw [← replacedAbove_eq c (.query query) path (root_known ht)] at ha
    rw [← renameCtx_known c (.query query) known]
    exact (walk_rewrite path rootCtx (.query query) ha).trans (congrArg _ hp)

theorem place_source {ctx' : Ctx} (hp : place query' path = some (ctx', node')) :
    (replacedAbove (isDataset reg) rootCtx (.query query) path = false ∧
      ∃ ctx node, place query path = some (ctx, node)) ∨ IsDateArg node' := by
  obtain ⟨tables, ht, hs⟩ := transformStatement_cases h
  rw [← replacedAbove_eq c (.query query) path (root_known ht)]
  rcases hs with ⟨rfl, hs⟩ | ⟨-, -, hs⟩ <;> cases hq.symm.trans hs
  · exact .inl ⟨replacedAbove_none path rootCtx (.query query), ctx', node', hp⟩
  · cases ha : replacedAbove (has (replacementsOf c reg (.query query) tables)) rootCtx
        (.query query) path with
    | true => exact .inr (walk_replaced path rootCtx (.query query) ha _ hp)
    | false =>
      have source := (walk_rewrite path rootCtx (.query query) ha).symm.trans hp
      obtain ⟨⟨ctx, node⟩, hpl, -⟩ := map_eq_some_iff.mp source
      exact .inl ⟨rfl, ctx, node, hpl⟩

/-! ## Names after the rewriting -/

omit h hq

def macroItem (reg : Registry) : FromItem → Option String
  | .table true name => datasetMacro reg name
  | _ => none

def KeepsName (reg : Registry) (items : List FromItem) (qualifier : String) (i : Nat) : Prop :=
  (∀ item m, items[i]? = some item → macroItem reg item = some m →
    eqIgnoreAsciiCase m qualifier = true) ∧
  ∀ k < i, ∀ item m, items[k]? = some item → macroItem reg item = some m →
    eqIgnoreAsciiCase m qualifier = false

theorem answersTo_renameItem (reg : Registry) (item : FromItem) (qualifier : String) :
    (renameItem (datasetMacro reg) item).answersTo qualifier =
      match macroItem reg item with
      | some m => eqIgnoreAsciiCase m qualifier
      | none => item.answersTo qualifier := by
  cases item with
  | table visited name =>
    cases visited with
    | false => rfl
    | true =>
      cases hm : datasetMacro reg name with
      | none => simp [renameItem, macroItem, hm]
      | some m => simp [renameItem, macroItem, hm, FromItem.answersTo, FromItem.exposed]
  | _ => rfl

theorem resolve_renameCtx_iff {qualifier : String} {i : Nat} (h : resolve ctx qualifier = some i) :
    resolve (renameCtx (datasetMacro reg) ctx) qualifier = some i ↔
      KeepsName reg ctx.frames.flatten qualifier i := by
  have hf : (renameCtx (datasetMacro reg) ctx).frames.flatten =
      ctx.frames.flatten.map (renameItem (datasetMacro reg)) := by
    simp [renameCtx, map_flatten]
  unfold resolve at h ⊢
  rw [findIdx?_eq_some_iff_getElem] at h
  obtain ⟨hi, hans, hbefore⟩ := h
  rw [hf, findIdx?_eq_some_iff_getElem]
  simp only [length_map, getElem_map, answersTo_renameItem]
  constructor
  · rintro ⟨_, hans', hbefore'⟩
    constructor
    · intro item m hit hm
      obtain ⟨_, rfl⟩ := List.getElem?_eq_some_iff.mp hit
      simpa [hm] using hans'
    · intro k hk item m hit hm
      obtain ⟨_, rfl⟩ := List.getElem?_eq_some_iff.mp hit
      simpa [hm] using hbefore' k hk
  · rintro ⟨hkeep, hfree⟩
    refine ⟨hi, ?_, fun k hk => ?_⟩
    · cases hm : macroItem reg (ctx.frames.flatten[i]) with
      | none => exact hans
      | some m => exact hkeep _ m (getElem?_eq_getElem hi) hm
    · have hkl : k < ctx.frames.flatten.length := Nat.lt_trans hk hi
      cases hm : macroItem reg (ctx.frames.flatten[k]) with
      | none => exact hbefore k hk
      | some m => simpa using hfree k hk _ m (getElem?_eq_getElem hkl) hm

/-! ## Completeness and hygiene -/

/-- No dataset is left as a plain table, no CTE became a macro call, and each
column qualifier denotes the FROM item it denoted. -/
structure RewriteSound (reg : Registry) (query query' : Query) : Prop where
  complete : ∀ path ctx node name, place query' path = some (ctx, node) →
    plainRef node = some name → resolvesToDataset reg.ids ctx name = false
  ctesKept : ∀ path ctx node name, place query path = some (ctx, node) →
    plainRef node = some name → resolvesToCte ctx name = true →
    ∀ ctx' node', place query' path = some (ctx', node') → isFunctionFactor node' = false
  qualifiersKept : ∀ path ctx node qualifier i, place query path = some (ctx, node) →
    qualifierOf node = some qualifier → resolve ctx qualifier = some i →
    ∃ ctx' node', place query' path = some (ctx', node') ∧
      qualifierOf node' = some qualifier ∧ resolve ctx' qualifier = some i

/-- The condition on the query: each dataset reference stands where the pass
comes by and is spelled as registered, no CTE reference there is spelled as a
dataset, and no qualifier denotes, or is hidden by, a table that a macro call
renames. Places in the arguments of a replaced table are dropped with it. -/
structure Rewritable (reg : Registry) (query : Query) : Prop where
  reached : ∀ path ctx node name, place query path = some (ctx, node) →
    plainRef node = some name → resolvesToDataset reg.ids ctx name = true →
    replaced (isDataset reg) ctx node = true ∨
      replacedAbove (isDataset reg) rootCtx (.query query) path = true
  noClash : ∀ path ctx node name, place query path = some (ctx, node) →
    plainRef node = some name → resolvesToCte ctx name = true →
    replaced (isDataset reg) ctx node = false
  names : ∀ path ctx node qualifier i, place query path = some (ctx, node) →
    qualifierOf node = some qualifier → resolve ctx qualifier = some i →
    replacedAbove (isDataset reg) rootCtx (.query query) path = false ∧
      KeepsName reg ctx.frames.flatten qualifier i

theorem dateArg_refers_nothing (h : IsDateArg node) :
    plainRef node = none ∧ qualifierOf node = none ∧ isFunctionFactor node = false := by
  obtain ⟨default, bound, rfl⟩ := h
  rcases bound with _ | (s | p) <;> exact ⟨rfl, rfl, rfl⟩

theorem Image.replaced_call (h : Image c reg ranges ctx node node')
    (hr : replaced (isDataset reg) ctx node = true) : isFunctionFactor node' = true := by
  cases h with
  | call => rfl
  | kept _ _ hk => rw [hk] at hr; cases hr

theorem walk_visited (path : List Nat) {place : Ctx × Node} (hw : walk ctx node path = some place)
    (hv : place.1.visited = true) : ctx.visited = true := by
  induction path generalizing ctx node with
  | nil =>
    cases hw
    exact hv
  | cons i path ih =>
    obtain ⟨child, hc, hw⟩ := walk_cons.mp hw
    exact children_visited (mem_of_getElem? hc) (ih hw)

theorem table_children_skipped {name : ObjectName} {a : Option TableAlias}
    {args : Option (List FunctionArg)} {place : Ctx × Node}
    (h : place ∈ children ctx (.tableFactor (.table name a args))) : place.1.visited = false :=
  Bool.eq_false_iff.mpr fun hv => by cases (argNodes_scope ctx.skipped _ _ h).visited hv

theorem replacedAbove_of_visited {names : String → Bool} (path : List Nat) {place : Ctx × Node}
    (hw : walk ctx node path = some place) (hv : place.1.visited = true) :
    replacedAbove names ctx node path = false := by
  induction path generalizing ctx node with
  | nil => rfl
  | cons i path ih =>
    obtain ⟨child, hc, hrest⟩ := walk_cons.mp hw
    simp only [replacedAbove, hc, ih hrest, Bool.or_false, Bool.eq_false_iff]
    intro hr
    obtain ⟨name, a, args, rfl, -⟩ := replaced_iff.mp hr
    cases (table_children_skipped (mem_of_getElem? hc)).symm.trans (walk_visited path hrest hv)

theorem rewriteSound_of_rewritable (h : transformStatement c reg (.query query) = .ok r)
    (hq : r.statement = .query query') (hr : Rewritable reg query) :
    RewriteSound reg query query' where
  complete path ctx' node' name hp hn := by
    rcases place_source h hq hp with ⟨ha, ctx, node, hpl⟩ | hd
    · obtain ⟨node'', hp', image⟩ := place_image h hq hpl ha
      cases hp.symm.trans hp'
      cases image with
      | call => cases hn
      | kept _ _ hrep hplain =>
        cases hres : resolvesToDataset reg.ids (renameCtx (datasetMacro reg) ctx) name with
        | false => rfl
        | true =>
          rcases hr.reached path ctx node name hpl (hplain ▸ hn) hres with hx | hx
          · rw [hrep] at hx
            cases hx
          · rw [ha] at hx
            cases hx
    · rw [(dateArg_refers_nothing hd).1] at hn
      cases hn
  ctesKept path ctx node name hp hn hcte ctx' node' hp' := by
    rcases place_source h hq hp' with ⟨ha, -⟩ | hd
    · obtain ⟨node'', hp'', image⟩ := place_image h hq hp ha
      cases hp'.symm.trans hp''
      have hrep := hr.noClash path ctx node name hp hn hcte
      cases image with
      | call name a args ds range hv hd => simp [hv, hd] at hrep
      | kept _ _ _ _ _ hf =>
        rw [hf]
        cases node with
        | tableFactor factor => cases factor <;> first | rfl | cases hn
        | _ => rfl
    · exact (dateArg_refers_nothing hd).2.2
  qualifiersKept path ctx node qualifier i hp hn hres := by
    obtain ⟨ha, hkeep⟩ := hr.names path ctx node qualifier i hp hn hres
    obtain ⟨node', hp', image⟩ := place_image h hq hp ha
    refine ⟨_, node', hp', ?_, (resolve_renameCtx_iff hres).mpr hkeep⟩
    cases image with
    | call => cases hn
    | kept _ _ _ _ hqual => rw [hqual, hn]

theorem rewritable_of_rewriteSound (h : transformStatement c reg (.query query) = .ok r)
    (hq : r.statement = .query query') (hs : RewriteSound reg query query') :
    Rewritable reg query where
  reached path ctx node name hp hn hres := by
    cases ha : replacedAbove (isDataset reg) rootCtx (.query query) path with
    | true => exact Or.inr rfl
    | false =>
      obtain ⟨node', hp', image⟩ := place_image h hq hp ha
      cases image with
      | call name a args ds range hv hd =>
        left
        simp [hv, hd]
      | kept _ _ hrep hplain =>
        have := hs.complete path _ node' name hp' (hplain.trans hn)
        rw [show resolvesToDataset reg.ids (renameCtx (datasetMacro reg) ctx) name =
          resolvesToDataset reg.ids ctx name from rfl, hres] at this
        cases this
  noClash path ctx node name hp hn hcte := by
    cases hrep : replaced (isDataset reg) ctx node with
    | false => rfl
    | true =>
      have hv : ctx.visited = true := by
        cases node with
        | tableFactor factor =>
          cases factor with
          | table => exact (Bool.and_eq_true_iff.mp hrep).1
          | _ => cases hrep
        | _ => cases hrep
      obtain ⟨node', hp', image⟩ := place_image h hq hp (replacedAbove_of_visited path hp hv)
      have hfun := hs.ctesKept path ctx node name hp hn hcte _ node' hp'
      rw [image.replaced_call hrep] at hfun
      cases hfun
  names path ctx node qualifier i hp hn hres := by
    obtain ⟨ctx', node', hp', hqual, hres'⟩ :=
      hs.qualifiersKept path ctx node qualifier i hp hn hres
    rcases place_source h hq hp' with ⟨ha, -⟩ | hd
    · obtain ⟨node'', hp'', -⟩ := place_image h hq hp ha
      cases hp'.symm.trans hp''
      exact ⟨ha, (resolve_renameCtx_iff hres).mp hres'⟩
    · rw [(dateArg_refers_nothing hd).2.1] at hqual
      cases hqual

/-- A transformed query is complete and hygienic exactly when the query is
rewritable. -/
theorem rewrite_sound_iff (h : transformStatement c reg (.query query) = .ok r)
    (hq : r.statement = .query query') : RewriteSound reg query query' ↔ Rewritable reg query :=
  ⟨rewritable_of_rewriteSound h hq, rewriteSound_of_rewritable h hq⟩

end

/-! ## Queries that break the condition -/

def salesRegistry : Registry := [.new "sales" "dt"]

def ident (name : String) : Ident := ⟨name, none⟩

def selectFrom (projection : List SelectItem) (table : String) (a : Option TableAlias)
    (selection : Option Expr) : SetExpr :=
  .select ⟨none, projection, [⟨.table [.identifier (ident table)] a none, []⟩], selection,
    .expressions [] [], none, [], none⟩

def bareQuery (ctes : List Cte) (body : SetExpr) : Query := ⟨false, ctes, body, none, none, none⟩

/-- `SELECT CASE WHEN EXISTS (SELECT * FROM sales) THEN 1 END FROM sales`. -/
def caseArmQuery : Query :=
  bareQuery [] (selectFrom
    [.unnamedExpr (.case none
      [(.exists (bareQuery [] (selectFrom [.wildcard] "sales" none none)) false,
        .value (.number "1"))] none)] "sales" none none)

/-- `WITH sales AS (SELECT * FROM orders) SELECT * FROM sales`. -/
def shadowingQuery : Query :=
  bareQuery [⟨⟨ident "sales", [], true⟩, bareQuery [] (selectFrom [.wildcard] "orders" none none)⟩]
    (selectFrom [.wildcard] "sales" none none)

/-- `SELECT sales.amount FROM sales`. -/
def qualifiedQuery : Query :=
  bareQuery [] (selectFrom [.unnamedExpr (.compoundIdentifier [ident "sales", ident "amount"])]
    "sales" none none)

/-- `SELECT s.amount FROM sales AS s`. -/
def aliasedQuery : Query :=
  bareQuery [] (selectFrom [.unnamedExpr (.compoundIdentifier [ident "s", ident "amount"])]
    "sales" (some ⟨ident "s", [], true⟩) none)

theorem aliasedQuery_rewritable : Rewritable salesRegistry aliasedQuery := by
  -- the only table is at path 0.0.0.0 and the only qualifier at 0.0.1
  have places : ∀ path ctx node, place aliasedQuery path = some (ctx, node) →
      (plainRef node = none ∨ path = [0, 0, 0, 0]) ∧
        (qualifierOf node = none ∨ path = [0, 0, 1]) := by
    intro path ctx node hp
    rcases path with _ | ⟨_ | i, _ | ⟨_ | j, _ | ⟨_ | _ | k, _ | ⟨_ | l, _ | ⟨m, path⟩⟩⟩⟩⟩ <;>
      first | (cases hp; decide) | cases hp
  refine ⟨?_, ?_, ?_⟩
  · intro path ctx node name hp hn hres
    rcases (places path ctx node hp).1 with h | rfl
    · rw [h] at hn
      cases hn
    · cases hp
      exact Or.inl (by decide)
  · intro path ctx node name hp hn hcte
    rcases (places path ctx node hp).1 with h | rfl
    · rw [h] at hn
      cases hn
    · cases hp
      cases hn
      exact absurd hcte (by decide)
  · intro path ctx node qualifier i hp hn hres
    rcases (places path ctx node hp).2 with h | rfl
    · rw [h] at hn
      cases hn
    · cases hp
      cases hn
      cases hres
      refine ⟨by decide, fun item m hit hm => ?_, fun k hk => ?_⟩
      · cases hit
        cases hm
      · cases hk

theorem rewrite_sound_iff_aliased :
    ∃ r query', transformStatement gregorian salesRegistry (.query aliasedQuery) = .ok r ∧
      r.statement = .query query' ∧ RewriteSound salesRegistry aliasedQuery query' :=
  ⟨_, _, rfl, rfl, (rewrite_sound_iff (c := gregorian) rfl rfl).mpr aliasedQuery_rewritable⟩

/-- The query is rewritten into one with another meaning. -/
def Distorted (query : Query) : Prop :=
  ∃ r query', transformStatement gregorian salesRegistry (.query query) = .ok r ∧
    r.statement = .query query' ∧ ¬ RewriteSound salesRegistry query query'

/-- A subquery in a CASE arm keeps its plain table, a CTE named like a dataset is
replaced by the macro, and a table name used as a qualifier is lost. -/
theorem rewrite_unsound :
    Distorted caseArmQuery ∧ Distorted shadowingQuery ∧ Distorted qualifiedQuery := by
  refine ⟨?_, ?_, ?_⟩
  · refine ⟨_, _, rfl, rfl, fun h => ?_⟩
    exact absurd (h.complete [0, 0, 1, 0, 0, 0, 0, 0, 0] _ _ _ rfl rfl) (by decide)
  · refine ⟨_, _, rfl, rfl, fun h => ?_⟩
    exact absurd (h.ctesKept [1, 0, 0, 0] _ _ _ rfl rfl (by decide) _ _ rfl) (by decide)
  · refine ⟨_, _, rfl, rfl, fun h => ?_⟩
    obtain ⟨ctx', node', hp, -, hres⟩ :=
      h.qualifiersKept [0, 0, 1] _ _ "sales" 0 rfl rfl (by decide)
    cases hp
    exact absurd hres (by decide)

end Leibrix.SqlHygiene
