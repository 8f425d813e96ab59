import Leibrix.SelectCalls
import Leibrix.PlanNames

/-!
# Window partitions and partition keys

The input of a window node is spread over workers by the keys that the builder takes from
the PARTITION BY lists of its calls. A partition stays on one worker when its list
determines the keys. The builder sees inline windows in the operands it goes to; the keys
that it intersects are compared by name, and a name without a qualifier is taken for every
qualified one.
-/

set_option autoImplicit false

namespace Leibrix.WindowPartitions
open SqlAst SqlScopes LdpTypes PlanBuilder SelectCalls PlanNames List

section Keys

def foldRef (c : ColumnRef) : Option Name × Name := (c.table.map fold, fold c.column)

def plainColumn : Expr → Option ColumnRef
  | .identifier ident => some (ColumnRef.unqualified ident.value)
  | .compoundIdentifier [table, column] => some (qualified table.value column.value)
  | .nested inner => plainColumn inner
  | _ => none

/-- What the expressions of a SELECT list and the keys of a plan mean on the rows of its input. -/
structure Reading where
  Row : Type
  Value : Type
  eval : Expr → Row → Value
  key : (Option Name × Name) → Row → Value
  eval_column : ∀ e c, plainColumn e = some c → eval e = key (foldRef c)

def partitionBy (definitions : Ident → List Expr) : WindowType → List Expr
  | .windowSpec exprs _ => exprs
  | .namedWindow name => definitions name

def HasWindow (items : List SelectItem) (w : WindowType) : Prop :=
  ListCalls operands (fun f => f.over = some w) items

/-- Wherever rows that agree on the keys are on one worker, so is every partition. -/
def PartitionsKept (reading : Reading) (definitions : Ident → List Expr)
    (items : List SelectItem) (keys : List ColumnRef) : Prop :=
  ∀ place : reading.Row → WorkerId,
    (∀ r s, (∀ k ∈ keys, reading.key (foldRef k) r = reading.key (foldRef k) s) →
      place r = place s) →
    ∀ w, HasWindow items w → ∀ r s,
      (∀ e ∈ partitionBy definitions w, reading.eval e r = reading.eval e s) → place r = place s

/-- Every window of the SELECT list, wherever it stands, is partitioned by the column. -/
def ByAll (definitions : Ident → List Expr) (items : List SelectItem) (k : ColumnRef) : Prop :=
  ∀ w, HasWindow items w → ∃ e ∈ partitionBy definitions w, ∃ c,
    plainColumn e = some c ∧ foldRef c = foldRef k

/-- Rows are free to have any Boolean in each column; other expressions do not tell them apart. -/
def freeReading : Reading where
  Row := Option Name × Name → Bool
  Value := Bool
  eval e r := ((plainColumn e).map fun c => r (foldRef c)).getD false
  key k r := r k
  eval_column e c h := by
    funext r
    simp [h]

variable {definitions : Ident → List Expr} {items : List SelectItem} {keys : List ColumnRef}

theorem partitionsKept_of_byAll (h : ∀ k ∈ keys, ByAll definitions items k)
    (reading : Reading) : PartitionsKept reading definitions items keys := by
  intro place colocated w hw r s agree
  refine colocated r s fun k hk => ?_
  obtain ⟨e, he, c, hc, hfold⟩ := h k hk w hw
  rw [← hfold, ← reading.eval_column e c hc]
  exact agree e he

theorem byAll_of_free (h : PartitionsKept freeReading definitions items keys) :
    ∀ k ∈ keys, ByAll definitions items k := by
  intro k hk w hw
  by_contra none
  -- two rows that differ in the column `k` only, and workers by that column
  have split := h (fun r => if r (foldRef k) then "w1" else "w2")
    (fun r s agree => by rw [show r (foldRef k) = s (foldRef k) from agree k hk])
    w hw (fun _ => false) (fun x => decide (x = foldRef k)) ?_
  · simp at split
  · intro e he
    change _ = ((plainColumn e).map fun c => decide (foldRef c = foldRef k)).getD false
    cases hc : plainColumn e with
    | none => simp [freeReading, hc]
    | some c =>
      have differs : foldRef c ≠ foldRef k := fun heq => none ⟨e, he, c, hc, heq⟩
      simp [freeReading, hc, differs]

end Keys

section Visible

def argExpr : FunctionArg → Option Expr
  | .unnamed (.expr e) | .named _ (.expr e) => some e
  | _ => none

/-- The operands in which the builder looks for windows: those of operators, parentheses and CASE,
and the arguments of calls. -/
def seenOperands : Expr → List Expr
  | .function ⟨_, .list args, _, _, _⟩ => args.filterMap argExpr
  | e => openOperands e

/-- The call has `OVER (PARTITION BY partition …)`. -/
def Inline (partition : List Expr) (f : Function) : Prop :=
  ∃ orderBy, f.over = some (.windowSpec partition orderBy)

/-- The inline window that comes first in the text, of those below seen operands only. -/
inductive First : List Expr → List Expr → Prop
  | here {f : Function} {partition es : List Expr} (own : Inline partition f) :
      First (.function f::es) partition
  | later {e : Expr} {partition es : List Expr}
      (other : ∀ f own, e = .function f → ¬Inline own f)
      (below : First (seenOperands e ++ es) partition) : First (e::es) partition

def ownSpecs : Expr → List (List Expr)
  | .function f => windowPartition f.over
  | _ => []

variable {e : Expr} {es partition : List Expr} {items : List SelectItem} {k : ColumnRef}

theorem mem_ownSpecs : partition ∈ ownSpecs e ↔ ∃ f, e = .function f ∧ Inline partition f := by
  cases e with
  | function f =>
    obtain ⟨name, args, filter, withinGroup, window⟩ := f
    cases window with
    | none => simp [ownSpecs, windowPartition, Inline]
    | some w => cases w <;> simp [ownSpecs, windowPartition, Inline, eq_comm]
  | _ => simp [ownSpecs]

theorem argWindowSpecs_eq (args : List FunctionArg) :
    argWindowSpecs args = (args.filterMap argExpr).flatMap windowSpecs := by
  induction args with
  | nil => rfl
  | cons arg args ih =>
    cases arg with
    | unnamed arg | named name arg =>
      cases arg <;> simp [argWindowSpecs, argExpr, ih, filterMap_cons]
    | exprNamed name arg => simp [argWindowSpecs, argExpr, ih, filterMap_cons]

theorem conditionWindowSpecs_eq (l : List (Expr × Expr)) :
    conditionWindowSpecs l = (l.flatMap fun c => [c.1, c.2]).flatMap windowSpecs := by
  induction l with
  | nil => rfl
  | cons c l ih => simp [conditionWindowSpecs, ih]

theorem optionWindowSpecs_eq (e : Option Expr) :
    optionWindowSpecs e = e.toList.flatMap windowSpecs := by
  cases e <;> simp [optionWindowSpecs]

theorem windowSpecs_step (e : Expr) :
    windowSpecs e = ownSpecs e ++ (seenOperands e).flatMap windowSpecs := by
  cases e with
  | function f =>
    obtain ⟨name, args, filter, withinGroup, window⟩ := f
    cases args <;>
      simp [windowSpecs, ownSpecs, seenOperands, openOperands, argumentWindowSpecs,
        argWindowSpecs_eq]
  | case operand conditions elseResult =>
    simp only [windowSpecs, ownSpecs, seenOperands, openOperands, optionWindowSpecs_eq,
      conditionWindowSpecs_eq, flatMap_append, nil_append]
  | _ => simp [windowSpecs, ownSpecs, seenOperands, openOperands]

theorem sizeOf_seenOperands {d : Expr} (h : d ∈ seenOperands e) : sizeOf d < sizeOf e := by
  cases e with
  | function f =>
    obtain ⟨name, args, filter, withinGroup, window⟩ := f
    cases args with
    | list args =>
      obtain ⟨arg, harg, hd⟩ := mem_filterMap.mp h
      have inList := sizeOf_lt_of_mem harg
      have inArg : sizeOf d < sizeOf arg := by
        cases arg with
        | unnamed arg | named name arg =>
          cases arg <;> cases hd
          simp
          omega
        | exprNamed name arg => cases hd
      simp
      omega
    | none | subquery query => cases h
  | _ => exact sizeOf_openOperands h

theorem mem_windowSpecs (e : Expr) (partition : List Expr) :
    partition ∈ windowSpecs e ↔ Calls seenOperands (Inline partition) e := by
  rw [windowSpecs_step, mem_append, mem_ownSpecs, mem_flatMap, calls_step]
  refine or_congr_right (exists_congr fun d => and_congr_right fun hd => ?_)
  have := sizeOf_seenOperands hd
  exact mem_windowSpecs d partition
termination_by sizeOf e

theorem head_of_first (h : First es partition) :
    ∃ rest, es.flatMap windowSpecs = partition::rest := by
  induction h with
  | @here f partition es own =>
    obtain ⟨orderBy, hover⟩ := own
    rw [flatMap_cons, windowSpecs_step, ownSpecs, hover]
    exact ⟨_, rfl⟩
  | @later e partition es other below ih =>
    have none : ownSpecs e = [] := by
      refine eq_nil_iff_forall_not_mem.mpr fun own hown => ?_
      obtain ⟨f, rfl, inline⟩ := mem_ownSpecs.mp hown
      exact other f own rfl inline
    rw [flatMap_cons, windowSpecs_step, none, nil_append, ← flatMap_append]
    exact ih

def Finds (es : List Expr) : Prop :=
  ∀ partition rest, es.flatMap windowSpecs = partition::rest → First es partition

/-- The search goes through an expression and on to the rest of the text. -/
theorem finds_cons (e : Expr) {es : List Expr} (hes : Finds es) : Finds (e::es) := by
  intro partition rest h
  rw [flatMap_cons, windowSpecs_step] at h
  cases hown : ownSpecs e with
  | cons own more =>
    obtain ⟨f, rfl, inline⟩ := mem_ownSpecs.mp (hown ▸ mem_cons_self : own ∈ ownSpecs e)
    rw [hown] at h
    cases h
    exact .here inline
  | nil =>
    refine .later (fun f own heq inline => ?_) ?_
    · have := mem_ownSpecs.mpr ⟨f, heq, inline⟩
      rw [hown] at this
      cases this
    · have all : ∀ ds, (∀ d ∈ ds, sizeOf d < sizeOf e) → Finds (ds ++ es) := by
        intro ds smaller
        induction ds with
        | nil => exact hes
        | cons d ds ih =>
          have := smaller d mem_cons_self
          exact finds_cons d (ih fun x hx => smaller x (mem_cons_of_mem d hx))
      rw [hown, nil_append, ← flatMap_append] at h
      exact all _ (fun d hd => sizeOf_seenOperands hd) partition rest h
termination_by sizeOf e

theorem first_of_head {rest : List (List Expr)}
    (h : es.flatMap windowSpecs = partition::rest) : First es partition := by
  have all : Finds es := by
    clear h
    induction es with
    | nil =>
      intro partition rest h
      cases h
    | cons e es ih => exact finds_cons e ih
  exact all partition rest h

/-- The SELECT list has the inline window where the builder sees it. -/
def Sees (items : List SelectItem) (partition : List Expr) : Prop :=
  ListCalls seenOperands (Inline partition) items

/-- No column of the PARTITION BY list has the name of the column. -/
def Lacks (partition : List Expr) (k : ColumnRef) : Prop :=
  ∀ e ∈ partition, ∀ c, exprToColumnRef e = some c → k.matches c = false

theorem mem_specs :
    partition ∈ (items.filterMap itemExpr).flatMap windowSpecs ↔ Sees items partition := by
  simp only [mem_flatMap, mem_windowSpecs, Sees, ListCalls]

theorem mem_foldl_intersect (keys : List ColumnRef) (rest : List (List ColumnRef)) :
    k ∈ rest.foldl intersectColumnRefs keys ↔
      k ∈ keys ∧ ∀ others ∈ rest, others.any k.matches = true := by
  induction rest generalizing keys with
  | nil => simp
  | cons others rest ih =>
    rw [foldl_cons, ih, intersectColumnRefs, mem_filter, forall_mem_cons, and_assoc]

theorem not_lacks :
    (partition.filterMap exprToColumnRef).any k.matches = true ↔ ¬Lacks partition k := by
  simp only [Lacks, any_eq_true, mem_filterMap, not_forall, Bool.not_eq_false]
  constructor
  · rintro ⟨c, ⟨e, he, hc⟩, hmatch⟩
    exact ⟨e, he, c, hc, hmatch⟩
  · rintro ⟨e, he, c, hc, hmatch⟩
    exact ⟨c, ⟨e, he, hc⟩, hmatch⟩

theorem matches_self (k : ColumnRef) : k.matches k = true := by
  obtain ⟨table, column⟩ := k
  cases table <;> simp [ColumnRef.matches, eqIgnoreAsciiCase]

theorem not_lacks_own (he : e ∈ partition) (hk : exprToColumnRef e = some k) :
    ¬Lacks partition k := by
  intro lacks
  have same := matches_self k
  rw [lacks e he k hk] at same
  cases same

/-- The keys are the columns of the first window that no window the builder sees lacks. -/
theorem mem_extractWindowPartitionKeys : k ∈ extractWindowPartitionKeys items ↔
      ∃ partition, First (items.filterMap itemExpr) partition ∧
        (∃ e ∈ partition, exprToColumnRef e = some k) ∧
        ∀ other, Sees items other → ¬Lacks other k := by
  unfold extractWindowPartitionKeys
  simp only [← mem_specs]
  cases hspecs : (items.filterMap itemExpr).flatMap windowSpecs with
  | nil =>
    constructor
    · intro h
      cases h
    · rintro ⟨partition, first, -⟩
      obtain ⟨rest, heq⟩ := head_of_first first
      rw [hspecs] at heq
      cases heq
  | cons own rest =>
    simp only [map_cons, mem_foldl_intersect, mem_filterMap, forall_mem_map, not_lacks]
    constructor
    · rintro ⟨⟨e, he, hk⟩, others⟩
      refine ⟨own, first_of_head hspecs, ⟨e, he, hk⟩, fun other hother => ?_⟩
      rcases mem_cons.mp hother with rfl | hother
      · exact not_lacks_own he hk
      · exact others other hother
    · rintro ⟨partition, first, hk, others⟩
      obtain ⟨rest', heq⟩ := head_of_first first
      rw [hspecs] at heq
      cases heq
      exact ⟨hk, fun other hother => others other (mem_cons_of_mem _ hother)⟩

/-- Each column of the first window is a column of all windows, or has a name that some window the
builder sees lacks. -/
def Agreed (definitions : Ident → List Expr) (items : List SelectItem) : Prop :=
  ∀ partition, First (items.filterMap itemExpr) partition → ∀ e ∈ partition, ∀ k,
    exprToColumnRef e = some k →
      (∃ other, Sees items other ∧ Lacks other k) ∨ ByAll definitions items k

theorem agreed_iff {definitions : Ident → List Expr} :
    (∀ k ∈ extractWindowPartitionKeys items, ByAll definitions items k) ↔
      Agreed definitions items := by
  constructor
  · intro h partition first e he k hk
    by_cases lacking : ∃ other, Sees items other ∧ Lacks other k
    · exact .inl lacking
    · refine .inr (h k (mem_extractWindowPartitionKeys.mpr ⟨partition, first, ⟨e, he, hk⟩, ?_⟩))
      exact fun other sees lacks => lacking ⟨other, sees, lacks⟩
  · intro h k hk
    obtain ⟨partition, first, ⟨e, he, hcolumn⟩, others⟩ := mem_extractWindowPartitionKeys.mp hk
    rcases h partition first e he k hcolumn with ⟨other, sees, lacks⟩ | all
    · exact absurd lacks (others other sees)
    · exact all

end Visible

theorem withProjection_window {items projection : List SelectItem} {groupBy : GroupByExpr}
    {having : Option Expr} {plan input : LogicalPlan} {keys : List ColumnRef}
    (h : withProjection projection groupBy having plan = .window input items keys) :
    items = projection ∧ keys = extractWindowPartitionKeys projection := by
  unfold withProjection at h
  split at h
  next => cases h
  next =>
    split at h
    · cases h
      exact ⟨rfl, rfl⟩
    · cases h

/-- Whatever the columns of the input are, a window node keeps the partitions of its SELECT list
together exactly if the PARTITION BY lists agree on the columns of the first one. -/
theorem partitions_kept_iff (text : PlanText)
    (resolve : CteMap → ObjectName → Option (Build LogicalPlan)) (map : CteMap) (select : Select)
    (definitions : Ident → List Expr) {input : LogicalPlan} {items : List SelectItem}
    {keys : List ColumnRef}
    (h : buildSelect text resolve map select = .ok (.window input items keys)) :
    (∀ reading : Reading, PartitionsKept reading definitions items keys) ↔
      Agreed definitions select.projection := by
  obtain ⟨source, -, hplan⟩ := buildSelect_eq_ok h
  obtain ⟨rfl, rfl⟩ := withProjection_window hplan
  rw [← agreed_iff]
  exact ⟨fun kept => byAll_of_free (kept freeReading), partitionsKept_of_byAll⟩

/-- `OVER (PARTITION BY names)`. -/
def overColumns (names : List String) : WindowType := .windowSpec (names.map column) []

/-- `sum(a) OVER …`. -/
def sumOver (w : WindowType) : SelectItem := .unnamedExpr (call "sum" (column "a") (some w))

theorem not_calls_column {p : Function → Prop} {name : String} :
    ¬Calls operands p (column name) := by
  rw [calls_step]
  rintro (⟨f, hf, -⟩ | ⟨d, hd, -⟩)
  · cases hf
  · cases hd

theorem operands_call (name arg : String) (names : List String) :
    operands (call name (column arg) (some (overColumns names))) =
      column arg::names.map column := by
  simp [operands, call, overColumns, exprNodes, functionNodes, argumentsNodes, argNodes,
    argExprNodes, exprs, windowExprs, nodeExpr, filterMap_map, Function.comp_def]

theorem hasWindow_sumOver {names : List (List String)} {w : WindowType}
    (h : HasWindow (names.map fun l => sumOver (overColumns l)) w) :
    ∃ l ∈ names, w = overColumns l := by
  obtain ⟨e, he, hcalls⟩ := h
  obtain ⟨item, hitem, hexpr⟩ := mem_filterMap.mp he
  obtain ⟨l, hl, rfl⟩ := mem_map.mp hitem
  cases hexpr
  rcases (calls_step _).mp hcalls with ⟨f, hf, hover⟩ | ⟨d, hd, hcalls⟩
  · cases hf
    exact ⟨l, hl, (Option.some.inj hover).symm⟩
  · rw [operands_call, ← map_cons] at hd
    obtain ⟨name, -, rfl⟩ := mem_map.mp hd
    exact absurd hcalls not_calls_column

/-- `sum(a) OVER (PARTITION BY b, c), sum(a) OVER (PARTITION BY c)`. -/
def nestedWindows : List SelectItem :=
  [["b", "c"], ["c"]].map fun l => sumOver (overColumns l)

/-- The key is `c`, and both windows partition by it. -/
theorem partitions_kept_iff_nested :
    ∃ input, buildSelect plainText noCtes [] (selectFrom nestedWindows (.expressions [] [])) =
        .ok (.window input nestedWindows [ColumnRef.unqualified "c"]) ∧
      ∀ reading : Reading,
        PartitionsKept reading (fun _ => []) nestedWindows [ColumnRef.unqualified "c"] := by
  refine ⟨_, rfl, (partitions_kept_iff plainText noCtes []
    (selectFrom nestedWindows (.expressions [] [])) (fun _ => []) rfl).mpr ?_⟩
  intro partition first e he k hk
  obtain ⟨rest, heq⟩ := head_of_first first
  obtain ⟨rfl, rfl⟩ : [column "b", column "c"] = partition ∧ [[column "c"]] = rest :=
    cons.inj heq
  rcases mem_cons.mp he with rfl | he
  · cases hk
    refine .inl ⟨[column "c"], mem_specs.mp (by simp [heq]), fun e he c hc => ?_⟩
    obtain rfl := mem_singleton.mp he
    cases hc
    decide
  · obtain rfl := mem_singleton.mp he
    cases hk
    refine .inr fun w hw => ?_
    obtain ⟨l, hl, rfl⟩ := hasWindow_sumOver hw
    have hc : "c" ∈ l := by
      rcases mem_cons.mp hl with rfl | hl
      · simp
      · rw [mem_singleton.mp hl]
        simp
    exact ⟨column "c", mem_map_of_mem hc, _, rfl, rfl⟩

/-- `sum(a) OVER (PARTITION BY b), sum(a) OVER w`. -/
def namedWindows : List SelectItem :=
  [sumOver (overColumns ["b"]), sumOver (.namedWindow ⟨"w", none⟩)]

/-- With `WINDOW w AS (PARTITION BY c)` the only key is `b`: rows with one value of `c` and two
values of `b` are on two workers. -/
theorem named_window_split :
    ∃ input, buildSelect plainText noCtes [] (selectFrom namedWindows (.expressions [] [])) =
        .ok (.window input namedWindows [ColumnRef.unqualified "b"]) ∧
      ¬PartitionsKept freeReading (fun _ => [column "c"]) namedWindows
        [ColumnRef.unqualified "b"] := by
  refine ⟨_, rfl, fun kept => ?_⟩
  have named : HasWindow namedWindows (.namedWindow ⟨"w", none⟩) :=
    ⟨_, mem_cons_of_mem _ (mem_cons_self ..), _, .refl, rfl⟩
  have split := kept (fun r => if r (none, fold "b") then "w1" else "w2")
    (fun r s agree => by
      rw [show r (none, fold "b") = s (none, fold "b") from agree _ (mem_cons_self ..)])
    _ named (fun _ => false) (fun x => decide (x = (none, fold "b")))
    (fun e he => by
      rw [mem_singleton.mp he]
      rfl)
  exact absurd split (by decide)

end Leibrix.WindowPartitions
