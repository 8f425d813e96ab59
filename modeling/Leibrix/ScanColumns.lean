import Leibrix.ScanMacro

/-!
# Columns of the scan macro

The macro of a dataset is the union of its tables, cut to a range of dates. The union takes
its column names from the first table and matches all others by position. What the database
does with a date comes with the scan. Column types, and the columns of a macro without tables,
are left out.
-/

set_option autoImplicit false

namespace Leibrix.ScanColumns
open ArrowBatch ScanMacro List

structure Table where
  columns : List String
  rows : List Row
  deriving DecidableEq

def unionAll : List Table → Option Table
  | [] => none
  | t::ts =>
    if ts.all fun t' => t'.columns.length == t.columns.length then
      some ⟨t.columns, (t::ts).flatMap (·.rows)⟩
    else none

def valueOf (columns : List String) (row : Row) (name : String) : Option (Option Value) :=
  (columns.zip row).lookup name

/-- The rows of a table by column name. -/
def Table.named (t : Table) : List (String → Option (Option Value)) :=
  t.rows.map (valueOf t.columns)

section Scan

variable (inRange : Option (Option Value) → Bool)

def Table.filterDate (dateColumn : String) (t : Table) : Option Table :=
  if dateColumn ∈ t.columns then
    some ⟨t.columns, t.rows.filter fun row => inRange (valueOf t.columns row dateColumn)⟩
  else none

def scan (db : String → Option Table) (body : MacroBody) : Option Table :=
  if body.tables.isEmpty then some ⟨[], []⟩
  else ((body.tables.mapM db).bind unionAll).bind (Table.filterDate inRange body.dateColumn)

/-- What a scan shows of each row of a table, under the given column names. -/
def shown (dateColumn : String) (columns : List String) (t : Table) :
    List (Option (String → Option (Option Value))) :=
  t.rows.map fun row =>
    if inRange (valueOf columns row dateColumn) then some (valueOf columns row) else none

/-- The scan shows each row of each table as the table itself has it. -/
def ValuesKept (db : String → Option Table) (dateColumn : String) (names : List String) : Prop :=
  ∃ result tables, scan inRange db ⟨dateColumn, names⟩ = some result ∧
    names.mapM db = some tables ∧
    result.named =
      tables.flatMap (fun t => (shown inRange dateColumn result.columns t).reduceOption) ∧
    ∀ t ∈ tables, shown inRange dateColumn result.columns t = shown inRange dateColumn t.columns t

/-- The row is in the range under neither order of the columns, or has the same values by name
under both. -/
def SameReading (dateColumn : String) (columns columns' : List String) (row : Row) : Prop :=
  (inRange (valueOf columns row dateColumn) = false ∧
    inRange (valueOf columns' row dateColumn) = false) ∨
  ∀ name, valueOf columns row name = valueOf columns' row name

variable {inRange} {db : String → Option Table} {columns names : List String} {dateColumn : String}
  {tables : List Table} {t : Table}

theorem mapM_tables (stored : ∀ n ∈ names, ∃ t, db n = some t ∧ t.columns.Perm columns) :
    ∃ tables, names.mapM db = some tables ∧ ∀ t ∈ tables, t.columns.Perm columns := by
  induction names with
  | nil => exact ⟨[], rfl, nofun⟩
  | cons n names ih =>
    obtain ⟨t, ht, same⟩ := stored n mem_cons_self
    obtain ⟨tables, htables, all⟩ := ih fun n hn => stored n (mem_cons_of_mem _ hn)
    refine ⟨t::tables, by simp [mapM_cons, ht, htables], ?_⟩
    simpa [same] using all

theorem mem_mapM (h : names.mapM db = some tables) : t ∈ tables ↔ ∃ n ∈ names, db n = some t := by
  induction names generalizing tables with
  | nil =>
    cases h
    simp
  | cons n names ih =>
    rw [mapM_cons] at h
    obtain ⟨u, hu, h⟩ := Option.bind_eq_some_iff.mp h
    obtain ⟨us, hus, h⟩ := Option.bind_eq_some_iff.mp h
    cases h
    simp [ih hus, hu, eq_comm]

/-- A scan shows every row under the columns of the first table. -/
theorem scan_shown (inRange : Option (Option Value) → Bool) {n : String} {rest : List Table}
    (htables : (n::names).mapM db = some (t::rest))
    (all : ∀ t' ∈ t::rest, t'.columns.Perm columns) (dated : dateColumn ∈ columns) :
    ∃ result, scan inRange db ⟨dateColumn, n::names⟩ = some result ∧
      result.columns = t.columns ∧ result.named =
        (t::rest).flatMap fun t' => (shown inRange dateColumn t.columns t').reduceOption := by
  have first : t.columns.Perm columns := all t mem_cons_self
  have widths : rest.all (fun t' => t'.columns.length == t.columns.length) = true := by
    rw [all_eq_true]
    intro t' ht'
    exact beq_iff_eq.mpr ((all t' (mem_cons_of_mem _ ht')).length_eq.trans first.length_eq.symm)
  have here : dateColumn ∈ t.columns := first.mem_iff.mpr dated
  refine ⟨⟨t.columns, ((t::rest).flatMap (·.rows)).filter fun row =>
    inRange (valueOf t.columns row dateColumn)⟩, ?_, rfl, ?_⟩
  · rw [scan, if_neg (by simp), htables]
    simp only [Option.bind_some, unionAll, if_pos widths, Table.filterDate, if_pos here]
  · simp only [Table.named, filter_flatMap, map_flatMap]
    refine flatMap_congr fun t' _ => ?_
    change _ = filterMap id (map _ t'.rows)
    rw [filterMap_map]
    induction t'.rows with
    | nil => rfl
    | cons row rows ih =>
      by_cases h : inRange (valueOf t.columns row dateColumn) = true <;> simp [h, ih]

theorem shown_eq_iff (columns columns' : List String) (t : Table) :
    shown inRange dateColumn columns t = shown inRange dateColumn columns' t ↔
      ∀ row ∈ t.rows, SameReading inRange dateColumn columns columns' row := by
  rw [shown, shown, map_inj_left]
  refine forall₂_congr fun row _ => ?_
  unfold SameReading
  cases h : inRange (valueOf columns row dateColumn) <;>
    cases h' : inRange (valueOf columns' row dateColumn)
  case false.false => simp
  case true.true => simp [funext_iff]
  all_goals
    simp only [Bool.false_eq_true, if_false, if_true, reduceCtorEq, false_iff, not_or]
    refine ⟨by simp, fun same => ?_⟩
    rw [same, h'] at h
    cases h

/-- Whatever the order of the tables in the macro, each row of each table keeps its values under
their names, exactly if each row of a table in the range is read alike under the columns of every
other. -/
theorem scan_values_kept_iff (inRange : Option (Option Value) → Bool) (db : String → Option Table)
    (names columns : List String) (dateColumn : String)
    (stored : ∀ n ∈ names, ∃ t, db n = some t ∧ t.columns.Perm columns)
    (dated : dateColumn ∈ columns) :
    (∀ names', names'.Perm names → ValuesKept inRange db dateColumn names') ↔
      ∀ n ∈ names, ∀ n' ∈ names, ∀ t t', db n = some t → db n' = some t' →
        ∀ row ∈ t.rows, SameReading inRange dateColumn t'.columns t.columns row := by
  constructor
  · intro kept n hn n' hn' t t' ht ht'
    -- the order in which the other table comes first
    obtain ⟨result, tables, hscan, htables, -, own⟩ :=
      kept (n'::names.erase n') (perm_cons_erase hn').symm
    have reordered : ∀ m, m ∈ n'::names.erase n' ↔ m ∈ names :=
      fun m => (perm_cons_erase hn').symm.mem_iff
    obtain ⟨others, hothers, -⟩ := mapM_tables fun m hm =>
      stored m ((reordered m).mp (mem_cons_of_mem _ hm))
    have split : (n'::names.erase n').mapM db = some (t'::others) := by
      simp [mapM_cons, ht', hothers]
    rw [split] at htables
    cases htables
    have alike : ∀ u ∈ t'::others, u.columns.Perm columns := by
      intro u hu
      obtain ⟨m, hm, hu⟩ := (mem_mapM split).mp hu
      obtain ⟨v, hv, same⟩ := stored m ((reordered m).mp hm)
      rw [hu] at hv
      cases hv
      exact same
    obtain ⟨result', hscan', named, -⟩ := scan_shown inRange split alike dated
    rw [hscan] at hscan'
    cases hscan'
    rw [named] at own
    exact (shown_eq_iff t'.columns t.columns t).mp
      (own t ((mem_mapM split).mpr ⟨n, (reordered n).mpr hn, ht⟩))
  · intro alike names' reordered
    obtain ⟨tables, htables, columnsAlike⟩ := mapM_tables fun m hm =>
      stored m (reordered.mem_iff.mp hm)
    cases names' with
    | nil =>
      cases htables
      exact ⟨⟨[], []⟩, [], rfl, rfl, rfl, nofun⟩
    | cons n' rest =>
      cases tables with
      | nil => simp [mapM_cons, Option.bind_eq_some_iff] at htables
      | cons t' others =>
        obtain ⟨result, hscan, columnsOf, named⟩ :=
          scan_shown inRange htables columnsAlike dated
        refine ⟨result, t'::others, hscan, htables, ?_, fun t ht => ?_⟩
        · rw [columnsOf]
          exact named
        · obtain ⟨n, hn, htn⟩ := (mem_mapM htables).mp ht
          obtain ⟨m, hm, htm⟩ := (mem_mapM htables).mp (mem_cons_self (a := t') (l := others))
          rw [columnsOf, shown_eq_iff]
          exact alike n (reordered.mem_iff.mp hn) m (reordered.mem_iff.mp hm) t t' htn htm

end Scan

/-- Two epochs of one row each, with the columns of the second in the given order. -/
def twoEpochs (columns : List String) : String → Option Table
  | "jan" => some ⟨["day", "id"], [[some (.int 1), some (.int 2)]]⟩
  | "feb" => some ⟨columns, [[some (.int 3), some (.int 4)]]⟩
  | _ => none

/-- Two epochs with their columns in different order: in the range the first has only a row with
equal values, and the second has none. -/
def harmlessEpochs : String → Option Table
  | "jan" => some ⟨["day", "id"], [[some (.int 1), some (.int 1)]]⟩
  | "feb" => some ⟨["id", "day"], [[some (.int 3), some (.int 4)]]⟩
  | _ => none

theorem scan_values_kept_iff_harmless :
    ValuesKept (· == some (some (.int 1))) harmlessEpochs "day" ["feb", "jan"] := by
  have stored : ∀ n ∈ ["jan", "feb"], ∃ t, harmlessEpochs n = some t ∧
      t.columns.Perm ["day", "id"] := by
    simp [harmlessEpochs, Perm.swap]
  refine (scan_values_kept_iff (· == some (some (.int 1))) harmlessEpochs ["jan", "feb"]
    ["day", "id"] "day" stored (by decide)).mpr ?_ ["feb", "jan"] (Perm.swap "jan" "feb" [])
  have equal : ∀ name, valueOf ["id", "day"] [some (.int 1), some (.int 1)] name =
      valueOf ["day", "id"] [some (.int 1), some (.int 1)] name := by
    intro name
    simp only [valueOf, zip_cons_cons, lookup_cons]
    cases name == "id" <;> cases name == "day" <;> rfl
  have outside : SameReading (· == some (some (.int 1))) "day" ["day", "id"] ["id", "day"]
      [some (.int 3), some (.int 4)] := .inl ⟨by decide, by decide⟩
  simp only [mem_cons, not_mem_nil, or_false]
  rintro n (rfl | rfl) n' (rfl | rfl) t t' ⟨⟩ ⟨⟩ row hrow <;> cases mem_singleton.mp hrow
  · exact .inr fun _ => rfl
  · exact .inr equal
  · exact outside
  · exact .inr fun _ => rfl

/-- The second table has the id first. With the first table in front, the ids of the second are
its days. -/
theorem scan_moves_values :
    ((scan (fun _ => true) (twoEpochs ["id", "day"]) ⟨"day", ["jan", "feb"]⟩).map fun r =>
      r.named.map fun row => (row "day", row "id")) =
      some [(some (some (.int 1)), some (some (.int 2))),
        (some (some (.int 3)), some (some (.int 4)))] ∧
    ((scan (fun _ => true) (twoEpochs ["id", "day"]) ⟨"day", ["feb", "jan"]⟩).map fun r =>
      r.named.map fun row => (row "day", row "id")) =
      some [(some (some (.int 4)), some (some (.int 3))),
        (some (some (.int 2)), some (some (.int 1)))] := by
  decide +kernel

end Leibrix.ScanColumns
