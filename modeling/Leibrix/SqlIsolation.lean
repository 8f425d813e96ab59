import Leibrix.SqlHygiene
import Leibrix.SqlPruning

/-!
# Scope isolation of pruning

A record is needed from a table reference when the WHERE clause of its SELECT can be true on
a joined row with that record. The ranges are computed once per dataset, from the top-level
WHERE clause and under the name of the reference that discovery met last. So a reference is
pruned soundly when that clause does not restrict the dataset, or when it is the reference's
own clause under the reference's own name.
-/

set_option autoImplicit false

namespace Leibrix.SqlIsolation
open SqlAst SqlInterval SqlAnalyzer SqlDiscovery SqlTransformer SqlScopes SqlRewrite SqlReach
open SqlHygiene SqlPruning

def ownWhere (ctx : Ctx) (node : Node) (clause : Option Expr) : List Nat → Option Expr
  | [] => clause
  | i::path =>
    match (children ctx node)[i]? with
    | some (ctx', child) =>
      ownWhere ctx' child (match node with | .select s => s.selection | _ => clause) path
    | none => clause

def clauseAt (query : Query) (path : List Nat) : Option Expr :=
  ownWhere rootCtx (.query query) none path

def factorName (name : ObjectName) (a : Option TableAlias) : String :=
  (a.map (·.name.value)).getD (extractTableName name)

section
variable {D : Type} [LinearOrder D] (c : Chrono D)

/-- Where the macro gets a default, the date is within it. -/
def WithinDefaults (d : D) (args : Expr × Expr) : Prop :=
  (args.1 = createDateLiteral wideScanStart → ∃ s, c.parse wideScanStart = some s ∧ s ≤ d) ∧
    (args.2 = createDateLiteral wideScanEnd → ∃ e, c.parse wideScanEnd = some e ∧ d < e)

/-- Each macro call admits every record that the replaced reference can need, the last day of the
calendar and what lies outside the defaults apart. -/
def ScopeIsolated (reg : Registry) (query query' : Query) : Prop :=
  ∀ path ctx name a args ds ctx' lateral f start stop a',
    place query path = some (ctx, .tableFactor (.table name a args)) →
    reg.getDataset (extractTableName name) = some ds →
    place query' path = some (ctx', .tableFactor
      (.function lateral f [.unnamed (.expr start), .unnamed (.expr stop)] a')) →
    ∀ (row : Row D) d, (∃ later, d < later) → WithinDefaults c d (start, stop) →
      row.Holds (factorName name a) ds.timeColumnName d →
      (∀ clause, clauseAt query path = some clause → row.eval c clause = some true) →
      row.InRange c d (start, stop)

/-- The top-level clause does not narrow this reference: it does not restrict the
dataset, as seen under the name of its last reference, or it is the clause the
reference stands under, by the same name. -/
def Unnarrowed (query : Query) (last : TableReference) (timeCol : String)
    (own : Option Expr) (name : String) : Prop :=
  ∀ top, extractWhereClause (.query query) = some top →
    unrestricted c last.effectiveName timeCol top = true ∨
      own = some top ∧ eqIgnoreAsciiCase name last.effectiveName = true ∧
        placeholderSafe c last.effectiveName timeCol top = true

variable {c}

variable {a b timeCol : String} {row : Row D} {d : D}

theorem isTimeColumnRef_congr (h : eqIgnoreAsciiCase a b = true) (e : Expr) :
    isTimeColumnRef a timeCol e = isTimeColumnRef b timeCol e := by
  have hab : ∀ q, eqIgnoreAsciiCase q a = eqIgnoreAsciiCase q b := by
    intro q
    simp only [eqIgnoreAsciiCase, beq_iff_eq] at h
    simp only [eqIgnoreAsciiCase, h]
  unfold isTimeColumnRef
  split
  · rfl
  · split
    · rw [hab]
    · rfl
    · rfl
  · rfl

omit [LinearOrder D] in
theorem holds_congr (h : eqIgnoreAsciiCase a b = true) (hh : row.Holds a timeCol d) :
    row.Holds b timeCol d := by
  intro e he
  rw [← isTimeColumnRef_congr h] at he
  exact hh e he

theorem WithinDefaults.cover {i : Interval}
    (h : WithinDefaults c d (formatDateArgs c (.ofInterval i))) : DefaultsCover c i d := by
  rw [formatDateArgs_ofInterval] at h
  refine ⟨fun hs => h.1 ?_, fun he => h.2 ?_⟩
  · rw [hs]
    rfl
  · rw [he]
    rfl

theorem withinDefaults_of_inRange {args : Expr × Expr} (h : row.InRange c d args) :
    WithinDefaults c d args := by
  obtain ⟨s, e, hs, he, hsd, hde⟩ := h
  refine ⟨fun hstart => ⟨s, ?_, hsd⟩, fun hend => ⟨e, ?_, hde⟩⟩
  · rw [hstart] at hs
    exact hs
  · rw [hend] at he
    exact he

theorem dateRanges_lookup {reg : Registry} {query : Query} {tables : List TableReference}
    {name : String} {ds : RegisteredDataset} {range : DateRange} {last : TableReference}
    (hd : reg.getDataset name = some ds) (hl : lastReference tables name = some last)
    (hr : (dateRanges c reg (.query query) tables).lookup name = some range) :
    (extractWhereClause (.query query) = none ∧ range = .ofInterval .universe) ∨
      ∃ top, extractWhereClause (.query query) = some top ∧
        range = .ofInterval (analyzeForTable c last.effectiveName ds.timeColumnName top) := by
  unfold dateRanges at hr
  split at hr
  · rename_i top htop
    right
    refine ⟨top, htop, ?_⟩
    rw [lookup_map_snd, lookup_extractIntervals _ _ _ name ds.timeColumnName (by simp [hd]), hl]
      at hr
    exact (Option.some.inj hr).symm
  · rename_i htop
    left
    have hn : name ∈ tables.map (·.datasetId) := lastReference_isSome.mp (by rw [hl]; rfl)
    rw [lookup_const _ tables name hn] at hr
    exact ⟨htop, (Option.some.inj hr).symm⟩

/-- References that the top-level clause does not narrow are pruned soundly, and what lies outside
the defaults is always lost. -/
theorem scope_isolated {reg : Registry} {query query' : Query} {r : Rewritten}
    (tables : List TableReference) (hdefaults : DefaultsParsed c)
    (h : transformStatement c reg (.query query) = .ok r)
    (hq : r.statement = .query query') (ht : visitQuery reg.ids query = .ok tables)
    (hu : ∀ path ctx name a args ds last,
      place query path = some (ctx, .tableFactor (.table name a args)) →
      ctx.visited = true → reg.getDataset (extractTableName name) = some ds →
      lastReference tables (extractTableName name) = some last →
      Unnarrowed c query last ds.timeColumnName (clauseAt query path) (factorName name a)) :
    ScopeIsolated c reg query query' ∧
      ∀ (row : Row D) d args, row.InRange c d args → WithinDefaults c d args := by
  refine ⟨?_, fun row d args => withinDefaults_of_inRange⟩
  intro path ctx name a args ds ctx' lateral f start stop a' hp hd hp' row d hlater hwithin hrow
    hown
  -- the call at this place is the image of the reference
  have ha : replacedAbove (isDataset reg) rootCtx (.query query) path = false := by
    rcases place_source h hq hp' with ⟨ha, -⟩ | hdate
    · exact ha
    · have := (dateArg_refers_nothing hdate).2.2
      cases this
  obtain ⟨node', hp'', image⟩ := place_image h hq hp ha
  cases hp'.symm.trans hp''
  cases image with
  | kept _ _ _ hplain => cases hplain
  | call _ _ _ ds' range hv hd' hrange =>
    cases hd.symm.trans hd'
    have hn := table_known (place_known ht hp) hv (getDataset_isSome.mp (by rw [hd]; rfl))
    obtain ⟨last, hlast⟩ := Option.isSome_iff_exists.mp (lastReference_isSome.mpr hn)
    rw [transformStatement_dateRanges h ht hn] at hrange
    rcases dateRanges_lookup hd hlast hrange with ⟨-, rfl⟩ | ⟨top, htop, rfl⟩
    · exact inRange_iff.mpr ⟨contains_universe, hwithin.cover⟩
    · rcases hu path ctx name a args ds last hp hv hd hlast top htop with hun | ⟨heq, hname, hsafe⟩
      · refine inRange_iff.mpr ⟨?_, hwithin.cover⟩
        rw [analyzeForTable_unrestricted hun]
        exact contains_universe
      · exact pruningSound_of_safe hdefaults hsafe row d hlater hwithin.cover
          (holds_congr hname hrow) (hown top heq)

end

/-! ## Examples -/

def dtOf (table : String) : Expr := .compoundIdentifier [ident table, ident "dt"]

def dateIs (table : String) (op : BinaryOperator) (date : String) : Expr :=
  .binaryOp (dtOf table) op (.value (.singleQuotedString date))

def aliasOf (name : String) : Option TableAlias := some ⟨ident name, [], true⟩

/-- `SELECT * FROM sales AS s WHERE s.dt <= '2024-06-01'`. -/
def ownClauseQuery : Query :=
  bareQuery [] (selectFrom [.wildcard] "sales" (aliasOf "s") (some (dateIs "s" .ltEq "2024-06-01")))

theorem ownClauseQuery_tables {path : List Nat} {ctx : Ctx} {name : ObjectName}
    {a : Option TableAlias} {args : Option (List FunctionArg)}
    (hp : place ownClauseQuery path = some (ctx, .tableFactor (.table name a args))) :
    path = [0, 0, 0, 0] := by
  rcases path with _ | ⟨_ | i, _ | ⟨_ | j, _ | ⟨_ | _ | k, _ | ⟨_ | _ | l, _ | ⟨m, path⟩⟩⟩⟩⟩ <;>
    first | rfl | cases hp

theorem scope_isolated_ownClause : ∃ r query',
    transformStatement gregorian salesRegistry (.query ownClauseQuery) = .ok r ∧
      r.statement = .query query' ∧
      ScopeIsolated gregorian salesRegistry ownClauseQuery query' := by
  refine ⟨_, _, rfl, rfl, (scope_isolated [⟨"sales", some "s"⟩] lastDay_inCalendar.defaultsParsed
    rfl rfl rfl ?_).1⟩
  intro path ctx name a args ds last hp hv hd hl top htop
  cases ownClauseQuery_tables hp
  cases hp
  cases hd
  cases hl
  cases htop
  exact Or.inr ⟨rfl, by decide, by decide⟩

/-- `SELECT * FROM sales AS s1, sales AS s2 WHERE s2.dt = '2025-01-15'`. -/
def selfJoinQuery : Query :=
  bareQuery [] (.select ⟨none, [.wildcard],
    [⟨.table [.identifier (ident "sales")] (aliasOf "s1") none, []⟩,
     ⟨.table [.identifier (ident "sales")] (aliasOf "s2") none, []⟩],
    some (dateIs "s2" .eq "2025-01-15"), .expressions [] [], none, [], none⟩)

/-- `WITH old AS (SELECT * FROM sales AS s1) SELECT * FROM old, sales AS s2 WHERE
s2.dt = '2025-01-15'`. -/
def otherScopeQuery : Query :=
  bareQuery [⟨⟨ident "old", [], true⟩,
      bareQuery [] (selectFrom [.wildcard] "sales" (aliasOf "s1") none)⟩]
    (.select ⟨none, [.wildcard],
      [⟨.table [.identifier (ident "old")] none none, []⟩,
       ⟨.table [.identifier (ident "sales")] (aliasOf "s2") none, []⟩],
      some (dateIs "s2" .eq "2025-01-15"), .expressions [] [], none, [], none⟩)

def twoDatesRow : Row CivilDate.Date where
  column e :=
    if isTimeColumnRef "s1" "dt" e then some lastDay
    else some ⟨2025, 1, 15, by decide⟩
  param _ := lastDay
  truth _ := none

/-- The query is rewritten, and one scope prunes another. -/
def Leaks (query : Query) : Prop :=
  ∃ r query', transformStatement gregorian salesRegistry (.query query) = .ok r ∧
    r.statement = .query query' ∧ ¬ ScopeIsolated gregorian salesRegistry query query'

/-- The predicate on `s2` prunes the records of `s1`, in the same FROM clause or
inside a CTE. -/
theorem scope_not_isolated : Leaks selfJoinQuery ∧ Leaks otherScopeQuery := by
  have holds : twoDatesRow.Holds "s1" "dt" lastDay := by
    intro e he
    simp [twoDatesRow, he]
  have within : WithinDefaults gregorian lastDay
      (createDateLiteral "2025-01-15", createDateLiteral "2025-01-16") := by
    simp [WithinDefaults, createDateLiteral, wideScanStart, wideScanEnd]
  have outside : ¬ twoDatesRow.InRange gregorian lastDay
      (createDateLiteral "2025-01-15", createDateLiteral "2025-01-16") := by
    rintro ⟨s, e, hs, -, hle, -⟩
    have hs' : some s = some (⟨2025, 1, 15, by decide⟩ : CivilDate.Date) :=
      hs.symm.trans (by decide)
    cases hs'
    exact absurd hle (by decide)
  constructor
  · refine ⟨_, _, rfl, rfl, fun h => outside ?_⟩
    refine h [0, 0, 0, 0] _ _ _ _ _ _ _ _ _ _ _ rfl rfl rfl twoDatesRow lastDay
      lastDay_inCalendar.later within holds ?_
    intro clause hc
    cases hc
    decide
  · refine ⟨_, _, rfl, rfl, fun h => outside ?_⟩
    refine h [0, 0, 0, 0, 0] _ _ _ _ _ _ _ _ _ _ _ rfl rfl rfl twoDatesRow lastDay
      lastDay_inCalendar.later within holds ?_
    intro clause hc
    cases hc

end Leibrix.SqlIsolation
