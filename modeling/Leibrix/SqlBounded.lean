import Leibrix.SqlAdmission
import Leibrix.SqlIsolation

/-!
# Bounded scans of admitted queries

Admission asks for a mention of the time column in some predicate of the query. The range
of a scan comes from the top-level WHERE clause, read under the last name of the dataset.
A scan has a bound just when that clause restricts the column on one side, which a mention
does not say.
-/

set_option autoImplicit false

namespace Leibrix.SqlBounded
open SqlAst SqlInterval SqlAnalyzer SqlDiscovery SqlTransformer SqlScopes SqlReach
open SqlHygiene SqlPruning SqlIsolation SqlAdmission Option

section
variable {D : Type} [LinearOrder D] {c : Chrono D}

theorem tighter_isSome (pick : DateBound → DateBound → DateBound) (s t : Option DateBound) :
    (Interval.tighter pick s t).isSome = (s.isSome || t.isSome) := by
  cases s <;> cases t <;> rfl

theorem wider_isSome (pick : DateBound → DateBound → DateBound) (s t : Option DateBound) :
    (Interval.wider pick s t).isSome = (s.isSome && t.isSome) := by
  cases s <;> cases t <;> rfl

variable (side : Side)

theorem bound_intersect_isSome (i j : Interval) : (side.bound (i.intersect c j)).isSome =
      ((side.bound i).isSome || (side.bound j).isSome) := by
  unfold Interval.intersect
  split_ifs with he
  · -- both bounds of the empty interval are set, and so are those of the empty operand
    have hempty : (side.bound .empty).isSome = true := by cases side <;> rfl
    rw [Bool.or_eq_true] at he
    rcases he with he | he
    · obtain ⟨s, hs⟩ := isEmpty_bound he side
      rw [hempty, hs, isSome_some, Bool.true_or]
    · obtain ⟨s, hs⟩ := isEmpty_bound he side
      rw [hempty, hs, isSome_some, Bool.or_true]
  · cases side with
    | lower | upper => exact tighter_isSome _ _ _

theorem bound_union_isSome (i j : Interval) : (side.bound (i.union c j)).isSome =
      ((side.bound i).isSome && (side.bound j).isSome) := by
  unfold Interval.union
  split_ifs with hi hj hu
  · obtain ⟨s, hs⟩ := isEmpty_bound hi side
    rw [hs, isSome_some, Bool.true_and]
  · obtain ⟨s, hs⟩ := isEmpty_bound hj side
    rw [hs, isSome_some, Bool.and_true]
  · simp only [Interval.isUniverse, Bool.or_eq_true, Bool.and_eq_true, isNone_iff_eq_none]
      at hu
    rcases hu with ⟨hs, he⟩ | ⟨hs, he⟩ <;> cases side <;>
      simp [Side.bound, Interval.universe, hs, he]
  · cases side with
    | lower | upper => exact wider_isSome _ _ _

theorem both_ne_absent {k l : BoundKind} : k.both l ≠ .absent ↔ k ≠ .absent ∨ l ≠ .absent := by
  cases k <;> cases l <;> simp [BoundKind.both]

theorem either_ne_absent {k l : BoundKind} : k.either l ≠ .absent ↔ k ≠ .absent ∧ l ≠ .absent := by
  cases k <;> cases l <;> simp [BoundKind.either, BoundKind.both]

theorem bound_of_restricts {side : Side} {op : BinaryOperator} (b : DateBound)
    (h : side.restricts op = true) : (side.bound (comparisonInterval c op b)).isSome = true := by
  cases side <;> cases op <;> first | rfl | cases h

variable (tableName timeCol : String)

/-- What an expression announces on one side becomes a bound of its interval. -/
theorem bound_of_boundKind (e : Expr) (h : boundKind c side tableName timeCol e ≠ .absent) :
    (side.bound (analyzeForTable c tableName timeCol e)).isSome = true := by
  induction e using analyzeForTable.induct c tableName timeCol with
  | case1 left right hl hr =>
    rw [boundKind, both_ne_absent] at h
    rw [analyzeForTable, bound_intersect_isSome, Bool.or_eq_true]
    exact h.imp hl hr
  | case2 left right hl hr =>
    rw [boundKind, either_ne_absent] at h
    rw [analyzeForTable, bound_union_isSome, Bool.and_eq_true]
    exact ⟨hl h.1, hr h.2⟩
  | case3 expr low high s e ht =>
    rw [analyzeForTable, ht]
    cases side <;> rfl
  | case4 expr low high ht =>
    rw [boundKind, ht] at h
    exact (h rfl).elim
  | case5 left op right ha ho op' b ht =>
    rw [boundKind_comparison ha ho, ht] at h
    rw [analyzeForTable_comparison ha ho, ht]
    apply bound_of_restricts b
    by_contra hr
    simp only [hr, if_false] at h
    exact h rfl
  | case6 left op right ha ho ht =>
    rw [boundKind_comparison ha ho, ht] at h
    exact (h rfl).elim
  | case7 inner ih =>
    apply ih
    rw [boundKind] at h
    exact h
  | case8 e h1 h2 h3 h4 h5 =>
    rw [boundKind.eq_6 c side tableName timeCol e h1 h2 h3 h4 h5] at h
    exact (h rfl).elim

def Bounded (range : DateRange) : Prop := range.start.isSome = true ∨ range.end.isSome = true

theorem bounded_analyze_iff (e : Expr) :
    Bounded (.ofInterval (analyzeForTable c tableName timeCol e)) ↔
      unrestricted c tableName timeCol e = false := by
  constructor
  · intro h
    rw [← Bool.not_eq_true]
    intro hu
    rw [analyzeForTable_unrestricted hu] at h
    rcases h with h | h <;> cases h
  · intro h
    simp only [unrestricted, Bool.and_eq_false_iff, decide_eq_false_iff_not] at h
    rcases h with h | h
    · exact Or.inl (bound_of_boundKind .lower tableName timeCol e h)
    · exact Or.inr (bound_of_boundKind .upper tableName timeCol e h)

/-- Each reference that the pass replaces gets a range with a bound. -/
def BoundedScans (reg : Registry) (query : Query) (ranges : Table DateRange) : Prop :=
  ∀ path ctx name a args ds range,
    place query path = some (ctx, .tableFactor (.table name a args)) → ctx.visited = true →
    reg.getDataset (extractTableName name) = some ds →
    ranges.lookup (extractTableName name) = some range → Bounded range

variable (c) in
/-- The top-level clause restricts each dataset that the pass replaces, on one side at least,
as seen under the name of its last reference. -/
def Restricted (reg : Registry) (query : Query) : Prop :=
  ∀ path ctx name a args ds tables last,
    place query path = some (ctx, .tableFactor (.table name a args)) → ctx.visited = true →
    reg.getDataset (extractTableName name) = some ds → visitQuery reg.ids query = .ok tables →
    lastReference tables (extractTableName name) = some last →
    ∃ top, extractWhereClause (.query query) = some top ∧
      unrestricted c last.effectiveName ds.timeColumnName top = false

variable {reg : Registry} {query : Query}

theorem bounded_dateRanges_iff {tables : List TableReference} {name : String}
    {ds : RegisteredDataset} {range : DateRange} {last : TableReference}
    (hd : reg.getDataset name = some ds) (hl : lastReference tables name = some last)
    (hr : (dateRanges c reg (.query query) tables).lookup name = some range) :
    Bounded range ↔ ∃ top, extractWhereClause (.query query) = some top ∧
      unrestricted c last.effectiveName ds.timeColumnName top = false := by
  rcases dateRanges_lookup hd hl hr with ⟨hnone, rfl⟩ | ⟨top, htop, rfl⟩
  · constructor
    · rintro (h | h) <;> cases h
    · rintro ⟨top, htop, -⟩
      rw [hnone] at htop
      cases htop
  · rw [bounded_analyze_iff]
    constructor
    · intro h
      exact ⟨top, htop, h⟩
    · rintro ⟨top', htop', h⟩
      cases htop.symm.trans htop'
      exact h

theorem boundedScans_iff {r : Rewritten} (h : transformStatement c reg (.query query) = .ok r) :
    BoundedScans reg query r.dateRanges ↔ Restricted c reg query := by
  constructor
  · intro bounded path ctx name a args ds tables last hp hv hd ht hl
    have hn := lastReference_isSome.mp (isSome_iff_exists.mpr ⟨last, hl⟩)
    obtain ⟨range, hrange, -⟩ := lookup_found c (.query query) hn hd
    apply (bounded_dateRanges_iff hd hl hrange).mp
    apply bounded path ctx name a args ds range hp hv hd
    rw [transformStatement_dateRanges h ht hn]
    exact hrange
  · intro restricted path ctx name a args ds range hp hv hd hrange
    obtain ⟨tables, ht, -⟩ := transformStatement_cases h
    have hn := table_known (place_known ht hp) hv (getDataset_isSome.mp (by rw [hd]; rfl))
    obtain ⟨last, hl⟩ := isSome_iff_exists.mp (lastReference_isSome.mpr hn)
    rw [transformStatement_dateRanges h ht hn] at hrange
    exact (bounded_dateRanges_iff hd hl hrange).mpr
      (restricted path ctx name a args ds tables last hp hv hd ht hl)

/-- An admitted query has bounded scans just when its top-level clause restricts each dataset. -/
theorem admitted_bounded_iff {r : Rewritten} (h : transformStatement c reg (.query query) = .ok r) :
    (checkStatement reg (.query query) = .ok () → BoundedScans reg query r.dateRanges) ↔
      (checkStatement reg (.query query) = .ok () → Restricted c reg query) := by
  rw [boundedScans_iff h]

end

theorem admitted_bounded_ownClause : ∃ r,
    transformStatement gregorian salesRegistry (.query ownClauseQuery) = .ok r ∧
      checkStatement salesRegistry (.query ownClauseQuery) = .ok () ∧
      BoundedScans salesRegistry ownClauseQuery r.dateRanges := by
  refine ⟨_, rfl, rfl, (admitted_bounded_iff (c := gregorian) rfl).mpr ?_ rfl⟩
  intro _ path ctx name a args ds tables last hp hv hd ht hl
  cases ownClauseQuery_tables hp
  cases hp
  cases hd
  cases ht
  cases hl
  exact ⟨_, rfl, by decide⟩

/-- `SELECT * FROM sales WHERE dt = dt`. -/
def everyDayQuery : Query :=
  bareQuery [] (selectFrom [.wildcard] "sales" none
    (some (.binaryOp (.identifier (ident "dt")) .eq (.identifier (ident "dt")))))

/-- `SELECT * FROM (SELECT * FROM sales WHERE sales.dt >= '2024-01-01') AS t`. -/
def innerClauseQuery : Query :=
  bareQuery [] (.select ⟨none, [.wildcard],
    [⟨.derived false (bareQuery [] (selectFrom [.wildcard] "sales" none
      (some (dateIs "sales" .gtEq "2024-01-01")))) (aliasOf "t"), []⟩],
    none, .expressions [] [], none, [], none⟩)

/-- The query is admitted, and a dataset is scanned from its first day to its last. -/
def ScansAll (query : Query) : Prop :=
  checkStatement salesRegistry (.query query) = .ok () ∧
    ∃ r, transformStatement gregorian salesRegistry (.query query) = .ok r ∧
      ¬ BoundedScans salesRegistry query r.dateRanges

theorem admitted_unbounded : ScansAll everyDayQuery ∧ ScansAll innerClauseQuery := by
  constructor
  · refine ⟨rfl, _, rfl, fun bounded => ?_⟩
    rcases bounded [0, 0, 0, 0] _ _ _ _ _ _ rfl rfl rfl rfl with h | h <;> cases h
  · refine ⟨rfl, _, rfl, fun bounded => ?_⟩
    rcases bounded [0, 0, 0, 0, 0, 0, 0, 0, 0] _ _ _ _ _ _ rfl rfl rfl rfl with h | h <;> cases h

end Leibrix.SqlBounded
