import Leibrix.SqlHygiene
import Leibrix.SqlTraversal

/-!
# Transforming a transformed query

The text of a macro call reads back as a table reference with arguments. A second
transformation finds only what the first one found and left alone, so it has nothing to
replace and prints the same text.
-/

set_option autoImplicit false

namespace Leibrix.SqlIdempotent
open SqlAst SqlInterval SqlAnalyzer SqlDiscovery SqlTransformer SqlHygiene SqlTraversal List

/-- How the parser reads the text of a factor: a call without `LATERAL` is a table with
arguments. -/
def asTable : TableFactor → TableFactor
  | .function false name args «alias» => .table name «alias» (some args)
  | factor => factor

theorem asTable_leaf {factor : TableFactor} (h : isLeaf factor = true) :
    isLeaf (asTable factor) = true := by
  unfold asTable
  split
  · rfl
  · exact h

def reading : LeafMap := ⟨asTable, fun _ => asTable_leaf⟩

def asParsed : Statement → Statement
  | .query query => .query (mapQuery reading query)
  | .other name => .other name

variable {stmt : Statement} {sql : String}

section
variable {D : Type} [LinearOrder D] (c : Chrono D)

/-- What is known of the SQL parser and its printer. -/
structure ReadsBack (parser : Parser) (reg : Registry) : Prop where
  /-- Calls without `LATERAL` are never parsed as function factors. -/
  asParsed_parsed : ∀ sql stmt, parser.parse sql = .ok [stmt] → asParsed stmt = stmt
  /-- Printing is undone by parsing on what parsing can produce. -/
  parse_toSql : ∀ sql stmt, parser.parse sql = .ok [stmt] →
    parser.parse (parser.toSql stmt) = .ok [stmt]
  /-- Both forms of a call have one text. -/
  toSql_asParsed : ∀ stmt, parser.toSql (asParsed stmt) = parser.toSql stmt
  /-- A statement with macro calls of the registry can be parsed. -/
  parsed_rewritten : ∀ sql stmt r, parser.parse sql = .ok [stmt] →
    transformStatement c reg stmt = .ok r → ∃ sql', parser.parse sql' = .ok [asParsed r.statement]

variable {c} {reg : Registry}

variable {ρ : Replacements}

theorem replaceTable_kept {name : ObjectName} {a : Option TableAlias}
    {args : Option (List FunctionArg)} (h : ρ.lookup (extractTableName name) = none) :
    replaceTable c ρ (.table name a args) = .table name a args := by
  rw [replaceTable, h]

theorem asTable_asTable (factor : TableFactor) : asTable (asTable factor) = asTable factor := by
  cases factor with
  | function lateral name args a => cases lateral <;> rfl
  | _ => rfl

/-- A factor that is read, transformed and read again: a table without a replacement, the
reading of a macro call, or neither. -/
inductive Settled (ρ : Replacements) (read : TableFactor) : TableFactor → Prop where
  | kept (name : ObjectName) (a : Option TableAlias) (args : Option (List FunctionArg))
      (hread : read = .table name a args) (h : ρ.lookup (extractTableName name) = none) :
      Settled ρ read (.table name a args)
  | call (dataset : RegisteredDataset) (range : DateRange) (name : String)
      (a : Option TableAlias) (args : List FunctionArg)
      (h : ρ.lookup name = some (dataset, range)) :
      Settled ρ read (.table [.identifier ⟨dataset.macroName, none⟩] a (some args))
  | plain (h : ∀ name a args, read ≠ .table name a args) : Settled ρ read read

theorem settled (ρ : Replacements) (factor : TableFactor) :
    Settled ρ (asTable factor) (asTable (replaceTable c ρ (asTable factor))) := by
  generalize hread : asTable factor = read
  have fixed : asTable read = read := by rw [← hread, asTable_asTable]
  cases read with
  | table name a args =>
    cases hl : ρ.lookup (extractTableName name) with
    | none =>
      rw [replaceTable_kept hl]
      exact .kept name a args rfl hl
    | some r =>
      rw [replaceTable, hl]
      exact .call r.1 r.2 (extractTableName name) a _ hl
  | _ =>
    rw [replaceTable, fixed]
    · refine .plain ?_
      rintro _ _ _ ⟨⟩
    · rintro _ _ _ ⟨⟩

variable (c) in
/-- Reading, the first transformation, and reading its text. -/
def once (ρ : Replacements) : LeafMap := reading.comp ((replacing c ρ).comp reading)

/-- No replacement of the second table is for a macro, or for a name that the first one lacks. -/
structure Leaves (ρ ρ' : Replacements) : Prop where
  lookup_called : ∀ name dataset range, ρ.lookup name = some (dataset, range) →
    ρ'.lookup dataset.macroName = none
  lookup_kept : ∀ name, ρ.lookup name = none → ρ'.lookup name = none

theorem replacing_once {ρ' : Replacements} (h : Leaves ρ ρ') :
    (replacing c ρ').comp (once c ρ) = once c ρ := by
  ext factor
  change replaceTable c ρ' (asTable (replaceTable c ρ (asTable factor))) =
    asTable (replaceTable c ρ (asTable factor))
  have hs := settled (c := c) ρ factor
  generalize asTable (replaceTable c ρ (asTable factor)) = factor' at hs ⊢
  cases hs with
  | kept name a args hread hl => exact replaceTable_kept (h.lookup_kept _ hl)
  | call dataset range name a args hl => exact replaceTable_kept (h.lookup_called _ _ _ hl)
  | plain hread =>
    cases hf : asTable factor with
    | table name a args => exact (hread name a args hf).elim
    | _ => rfl

theorem quieter_once {ids : List String}
    (h : ∀ name dataset range, ρ.lookup name = some (dataset, range) →
      dataset.macroName ∉ ids) : Quieter ids (once c ρ) reading := by
  intro factor _
  change Within (visitTableFactor ids (asTable (replaceTable c ρ (asTable factor))))
    (visitTableFactor ids (asTable factor))
  have hs := settled (c := c) ρ factor
  generalize asTable (replaceTable c ρ (asTable factor)) = factor' at hs ⊢
  cases hs with
  | kept name a args hread hl =>
    rw [hread]
    exact within_refl _
  | call dataset range name a args hl =>
    intro ts _
    refine ⟨[], ?_, nil_subset ts⟩
    rw [visitTableFactor, if_neg]
    simpa [extractTableName] using h name dataset range hl
  | plain hread => exact within_refl _

theorem transformStatement_nil {query : Query} (h : visitQuery reg.ids query = .ok []) :
    transformStatement c reg (.query query) = .ok ⟨.query query, [], []⟩ := by
  simp only [transformStatement, discover, h]
  rfl

theorem transformStatement_cons {query : Query} {tables : List TableReference}
    (h : visitQuery reg.ids query = .ok tables) (hne : tables ≠ []) :
    transformStatement c reg (.query query) =
      .ok ⟨.query (rewriteQuery c (replacementsOf c reg (.query query) tables) query), tables,
        dateRanges c reg (.query query) tables⟩ := by
  cases tables with
  | nil => exact (hne rfl).elim
  | cons t tables =>
    simp only [transformStatement, discover, h]
    rfl

theorem reading_rewriteQuery {query : Query} (hread : mapQuery reading query = query)
    (ρ : Replacements) : mapQuery reading (rewriteQuery c ρ query) = mapQuery (once c ρ) query := by
  rw [rewriteQuery_eq]
  nth_rewrite 1 [← hread]
  rw [mapQuery_mapQuery, mapQuery_mapQuery]
  rfl

section SecondPass
variable (hnames : ∀ id dataset, reg.getDataset id = some dataset → dataset.macroName ∉ reg.ids)
  {query : Query} {tables : List TableReference}
  (hread : mapQuery reading query = query) (hv : visitQuery reg.ids query = .ok tables)

include hnames

theorem call_unfound (stmt : Statement) (tables : List TableReference) (name : String)
    (dataset : RegisteredDataset) (range : DateRange)
    (h : (replacementsOf c reg stmt tables).lookup name = some (dataset, range)) :
    dataset.macroName ∉ reg.ids :=
  hnames name dataset (lookup_replacements.mp h).2.1

theorem leaves_replacementsOf {stmt' : Statement} {found : List TableReference}
    (hsub : found ⊆ tables) :
    Leaves (replacementsOf c reg stmt tables) (replacementsOf c reg stmt' found) := by
  constructor
  · intro name dataset range h
    by_contra hs
    obtain ⟨r, hr⟩ := Option.ne_none_iff_exists'.mp hs
    exact call_unfound hnames stmt tables name dataset range h
      (getDataset_isSome.mp (by rw [(lookup_replacements.mp hr).2.1]; rfl))
  · intro name h
    by_contra hs
    obtain ⟨r, hr⟩ := Option.ne_none_iff_exists'.mp hs
    obtain ⟨hn, hd, -⟩ := lookup_replacements.mp hr
    obtain ⟨range, -, hl⟩ := lookup_found c stmt (map_subset _ hsub hn) hd
    cases h.symm.trans hl

include hread hv

theorem transformStatement_once :
    ∃ r, transformStatement c reg (.query (mapQuery
        (once c (replacementsOf c reg (.query query) tables)) query)) = .ok r ∧
      r.statement = .query (mapQuery
        (once c (replacementsOf c reg (.query query) tables)) query) := by
  have quieter := quieter_once (c := c) (call_unfound (c := c) hnames (.query query) tables)
  rw [← hread] at hv
  obtain ⟨found, hfound, hsub⟩ := visitQuery_within quieter query tables hv
  by_cases hne : found = []
  · subst hne
    exact ⟨_, transformStatement_nil hfound, rfl⟩
  · refine ⟨_, transformStatement_cons hfound hne, ?_⟩
    rw [rewriteQuery_eq, mapQuery_mapQuery,
      replacing_once (leaves_replacementsOf hnames hsub)]

end SecondPass

variable {parser : Parser}

theorem parseSql_eq_ok : parser.parseSql sql = .ok stmt ↔ parser.parse sql = .ok [stmt] := by
  unfold Parser.parseSql
  split <;> simp_all

theorem transform_eq_ok {r : TransformResult} :
    transform c parser reg sql = .ok r ↔ ∃ stmt w, parser.parse sql = .ok [stmt] ∧
      transformStatement c reg stmt = .ok w ∧
      r = ⟨sql, if w.tables.isEmpty then sql else parser.toSql w.statement,
        w.tables.map (·.datasetId), w.dateRanges⟩ := by
  simp only [transform, bind_eq_ok, parseSql_eq_ok, pure_eq_ok]
  constructor
  · rintro ⟨stmt, hp, w, hw, rfl⟩
    exact ⟨stmt, w, hp, hw, rfl⟩
  · rintro ⟨stmt, w, hp, hw, rfl⟩
    exact ⟨stmt, hp, w, hw, rfl⟩

theorem parse_rewritten (hp : ReadsBack c parser reg) {query : Query} {w : Rewritten}
    (hparse : parser.parse sql = .ok [.query query])
    (hw : transformStatement c reg (.query query) = .ok w) :
    parser.parse (parser.toSql w.statement) = .ok [asParsed w.statement] := by
  obtain ⟨sql', hsql'⟩ := hp.parsed_rewritten sql _ w hparse hw
  rw [← hp.toSql_asParsed]
  exact hp.parse_toSql sql' _ hsql'

/-- Transforming the output of a transformation gives the output back. -/
theorem transform_idempotent {parser : Parser} (hp : ReadsBack c parser reg)
    (hnames : ∀ id dataset, reg.getDataset id = some dataset → dataset.macroName ∉ reg.ids)
    {sql : String} {r : TransformResult} (h : transform c parser reg sql = .ok r) :
    ∃ r', transform c parser reg r.transformedSql = .ok r' ∧
      r'.transformedSql = r.transformedSql := by
  obtain ⟨stmt, w, hparse, hw, rfl⟩ := transform_eq_ok.mp h
  by_cases hempty : w.tables.isEmpty = true
  · -- the text itself was the output
    simp only [hempty, if_true] at h ⊢
    exact ⟨_, h, rfl⟩
  simp only [hempty, Bool.false_eq_true, if_false]
  cases stmt with
  | other name => cases hw
  | query query =>
    have hread : mapQuery reading query = query :=
      Statement.query.inj (hp.asParsed_parsed sql _ hparse)
    obtain ⟨tables, hv, -⟩ := transformStatement_cases hw
    have hne : tables ≠ [] := by
      rintro rfl
      rw [transformStatement_nil hv] at hw
      cases hw
      exact hempty rfl
    have hparse' := parse_rewritten hp hparse hw
    rw [transformStatement_cons hv hne] at hw
    cases hw
    have hasParsed : asParsed (.query
        (rewriteQuery c (replacementsOf c reg (.query query) tables) query)) =
        .query (mapQuery (once c (replacementsOf c reg (.query query) tables)) query) := by
      rw [asParsed, reading_rewriteQuery hread]
    rw [hasParsed] at hparse'
    obtain ⟨w', hw', hsame⟩ := transformStatement_once (c := c) hnames hread hv
    refine ⟨_, transform_eq_ok.mpr ⟨_, w', hparse', hw', rfl⟩, ?_⟩
    simp only [hsame]
    split
    · rfl
    · rw [← hasParsed]
      exact hp.toSql_asParsed _

end

/-! ## An example -/

theorem asParsed_asParsed (stmt : Statement) : asParsed (asParsed stmt) = asParsed stmt := by
  have twice : reading.comp reading = reading := by
    ext factor
    exact asTable_asTable factor
  cases stmt with
  | other name => rfl
  | query query => rw [asParsed, asParsed, mapQuery_mapQuery, twice]

def salesText : String := "SELECT * FROM sales"

def callText : String := "SELECT * FROM scan_sales(DATE '1970-01-01', DATE '9999-12-31')"

def salesQuery : Query := bareQuery [] (selectFrom [.wildcard] "sales" none none)

def callQuery : Query :=
  bareQuery [] (.select ⟨none, [.wildcard],
    [⟨.table [.identifier (ident "scan_sales")] none
      (some [.unnamed (.expr (createDateLiteral "1970-01-01")),
        .unnamed (.expr (createDateLiteral "9999-12-31"))]), []⟩],
    none, .expressions [] [], none, [], none⟩)

def twoTexts : Parser where
  parse sql :=
    if sql = salesText then .ok [.query salesQuery]
    else if sql = callText then .ok [.query callQuery]
    else .error "unexpected token"
  toSql stmt :=
    match discover salesRegistry.ids (asParsed stmt) with
    | .ok [] => callText
    | _ => salesText

theorem twoTexts_cases (h : twoTexts.parse sql = .ok [stmt]) :
    stmt = .query salesQuery ∨ stmt = .query callQuery := by
  simp only [twoTexts] at h
  split_ifs at h
  · cases h
    exact Or.inl rfl
  · cases h
    exact Or.inr rfl

theorem twoTexts_readsBack : ReadsBack gregorian twoTexts salesRegistry where
  asParsed_parsed sql stmt h := by
    rcases twoTexts_cases h with rfl | rfl <;> rfl
  parse_toSql sql stmt h := by
    rcases twoTexts_cases h with rfl | rfl <;> rfl
  toSql_asParsed stmt := by
    simp only [twoTexts, asParsed_asParsed]
  parsed_rewritten sql stmt r h hr := by
    rcases twoTexts_cases h with rfl | rfl <;> cases hr <;> exact ⟨callText, rfl⟩

theorem salesRegistry_names (id : String) (dataset : RegisteredDataset)
    (h : salesRegistry.getDataset id = some dataset) : dataset.macroName ∉ salesRegistry.ids := by
  have hmem := mem_of_find?_eq_some h
  simp only [salesRegistry, mem_singleton] at hmem
  subst hmem
  decide

theorem transform_idempotent_sales : ∃ r r',
    transform gregorian twoTexts salesRegistry salesText = .ok r ∧ r.transformedSql = callText ∧
      transform gregorian twoTexts salesRegistry r.transformedSql = .ok r' ∧
      r'.transformedSql = r.transformedSql := by
  obtain ⟨r', hr', hsame⟩ := transform_idempotent twoTexts_readsBack salesRegistry_names
    (show transform gregorian twoTexts salesRegistry salesText = .ok _ from rfl)
  exact ⟨_, r', rfl, rfl, hr', hsame⟩

end Leibrix.SqlIdempotent
