import Leibrix.SqlPruning
import Mathlib.Data.Prod.Lex
import Mathlib.Order.Fin.Basic

/-!
# Pruning on timestamp columns

The macro filters on the calendar date of the time column. A timestamp lies anywhere in its
day, and a date literal stands for the midnight at which its day begins. Of the comparisons
only a strict lower bound does not pass from the timestamp to its date, because the rest of
the bound's own day is past its midnight. The range is therefore right when it would be the
same with `>` read as `>=`.
-/

set_option autoImplicit false

namespace Leibrix.SqlTimestamps
open SqlAst SqlInterval SqlAnalyzer SqlPruning Option

/-- A day and the microseconds since its midnight. -/
abbrev Timestamp (D : Type) := Lex (D × Fin 86400000000)

variable {D : Type}

namespace Timestamp
def date (t : Timestamp D) : D := (ofLex t).1

def midnight (d : D) : Timestamp D := toLex (d, 0)

@[simp] theorem date_midnight (d : D) : date (midnight d) = d := rfl

variable [LinearOrder D]

theorem midnight_le (d : D) (t : Timestamp D) : midnight d ≤ t ↔ d ≤ date t := by
  rw [Prod.Lex.le_iff]
  constructor
  · rintro (h | ⟨h, -⟩)
    · exact h.le
    · exact h.le
  · intro h
    rcases h.lt_or_eq with h | h
    · exact .inl h
    · exact .inr ⟨h, Fin.zero_le _⟩

theorem lt_midnight (d : D) (t : Timestamp D) : t < midnight d ↔ date t < d := by
  rw [← not_le, ← not_le, midnight_le]

theorem date_le_of_le_midnight {d : D} {t : Timestamp D} (h : t ≤ midnight d) : date t ≤ d :=
  (Prod.Lex.le_iff.mp h).elim le_of_lt fun h => h.1.le

theorem compareDates_date {t : Timestamp D} {d : D} {op : BinaryOperator} (hop : op ≠ .gt)
    (hne : op ≠ .notEq) (h : compareDates t (midnight d) op ≠ some false) :
    compareDates (date t) d op ≠ some false := by
  cases op <;> simp only [compareDates, ne_eq, Option.some.injEq, decide_eq_false_iff_not,
    not_not, reduceCtorEq, not_false_eq_true] at h ⊢
  case eq => rw [h, date_midnight]
  case notEq => exact absurd rfl hne
  case gt => exact absurd rfl hop
  case lt => exact (lt_midnight d t).mp h
  case gtEq => exact (midnight_le d t).mp h
  case ltEq => exact date_le_of_le_midnight h

end Timestamp

open Timestamp

/-- A joined row whose date columns carry a time of day. -/
structure TimedRow (D : Type) where
  column : Expr → Option (Timestamp D)
  param : String → D
  truth : Expr → Option Bool

section
variable [LinearOrder D] (c : Chrono D)

/-- The instant an operand of a comparison denotes. -/
def TimedRow.time (row : TimedRow D) : Expr → Option (Timestamp D)
  | .identifier ident => row.column (.identifier ident)
  | .compoundIdentifier parts => row.column (.compoundIdentifier parts)
  | .value (.singleQuotedString s) => (c.parse s).map midnight
  | .value (.placeholder p) => some (midnight (row.param p))
  | .typedString .date (.singleQuotedString s) => (c.parse s).map midnight
  | .cast inner .date => (row.time inner).map fun t => midnight t.date
  | .nested inner => row.time inner
  | _ => none

def TimedRow.comparison (row : TimedRow D) (left : Expr) (op : BinaryOperator) (right : Expr) :
    Option Bool :=
  if isColumn left || isColumn right then
    match row.time c left, row.time c right with
    | some x, some y =>
      match compareDates x y op with
      | some b => some b
      | none => row.truth (.binaryOp left op right)
    | _, _ => row.truth (.binaryOp left op right)
  else row.truth (.binaryOp left op right)

def TimedRow.eval (row : TimedRow D) : Expr → Option Bool
  | .binaryOp left .and right => and3 (row.eval left) (row.eval right)
  | .binaryOp left .or right => or3 (row.eval left) (row.eval right)
  | .unaryOp .not inner => not3 (row.eval inner)
  | .nested inner => row.eval inner
  | .between expr negated low high =>
    let inside := and3 (row.comparison c expr .gtEq low) (row.comparison c expr .ltEq high)
    if negated then not3 inside else inside
  | .binaryOp left op right => row.comparison c left op right
  | e => row.truth e

/-- References to the table's time column denote the instant `t`. -/
def TimedRow.Holds (row : TimedRow D) (tableName timeCol : String) (t : Timestamp D) : Prop :=
  ∀ e, isTimeColumnRef tableName timeCol e = true → row.column e = some t

/-- The row as the macro sees it, with each column cast to a date. -/
def TimedRow.dates (row : TimedRow D) : Row D :=
  ⟨fun e => (row.column e).map date, row.param, row.truth⟩

variable (tableName timeCol : String)

/-- No record that the expression accepts has its date outside the emitted range, the last day of
the calendar and what lies outside the defaults apart. -/
def TimestampsKept (e : Expr) : Prop :=
  ∀ (row : TimedRow D) (t : Timestamp D), (∃ later, t.date < later) →
    DefaultsCover c (analyzeForTable c tableName timeCol e) t.date →
    row.Holds tableName timeCol t → row.eval c e = some true →
    row.dates.InRange c t.date (macroArgs c tableName timeCol e)

def orEqual : BinaryOperator → BinaryOperator
  | .gt => .gtEq
  | .lt => .ltEq
  | op => op

/-- The expression with each strict lower bound on the time column made inclusive. -/
def relaxed : Expr → Expr
  | .binaryOp left .and right => .binaryOp (relaxed left) .and (relaxed right)
  | .binaryOp left .or right => .binaryOp (relaxed left) .or (relaxed right)
  | .binaryOp left op right =>
    match timeComparison c tableName timeCol left op right with
    | some (.gt, _) => .binaryOp left (orEqual op) right
    | _ => .binaryOp left op right
  | .nested inner => .nested (relaxed inner)
  | e => e

/-- No comparison is a strict lower bound on the time column. -/
def strictFree : Expr → Prop
  | .binaryOp left .and right | .binaryOp left .or right => strictFree left ∧ strictFree right
  | .binaryOp left op right => ∀ b, timeComparison c tableName timeCol left op right ≠ some (.gt, b)
  | .nested inner => strictFree inner
  | _ => True

end

section
variable [LinearOrder D] {c : Chrono D} {tableName timeCol : String}

variable {e : Expr} {b : DateBound} {row : TimedRow D} {t : Timestamp D} {left right : Expr}
  {op : BinaryOperator}

theorem extractDateBound_time (row : TimedRow D) (h : extractDateBound c e = some b) :
    row.time c e = (b.date c row.param).map midnight := by
  induction e using extractDateBound.induct with
  | case1 s | case3 s => rw [(literalBound_some h).1]; rfl
  | case2 p => cases h; rfl
  | case4 inner ih =>
    rw [TimedRow.time, ih h, map_map]
    rfl
  | case5 e h1 h2 h3 h4 =>
    rw [extractDateBound.eq_5 c e h1 h2 h3 h4] at h
    cases h

theorem timeColumn_time (hh : row.Holds tableName timeCol t)
    (h : isTimeColumnRef tableName timeCol e = true) :
    isColumn e = true ∧ row.time c e = some t := by
  have hc := hh e h
  unfold isTimeColumnRef at h
  split at h
  · exact ⟨rfl, hc⟩
  · exact ⟨rfl, hc⟩
  · cases h

variable {op' : BinaryOperator} (hh : row.Holds tableName timeCol t)
  (ht : timeComparison c tableName timeCol left op right = some (op', b))
include hh ht

theorem timeComparison_time :
    ∃ x, b.date c row.param = some x ∧
      row.comparison c left op right =
        ((compareDates t (midnight x) op').map some).getD
          (row.truth (.binaryOp left op right)) := by
  obtain ⟨x, hx⟩ := isSome_iff_exists.mp (date_isSome (timeComparison_parsed ht) row.param)
  refine ⟨x, hx, ?_⟩
  rcases timeComparison_sides ht with ⟨hcol, hb, rfl⟩ | ⟨hcol, hb, rfl⟩
  · obtain ⟨hcol, hd⟩ := timeColumn_time (c := c) hh hcol
    simp only [TimedRow.comparison, hcol, hd, extractDateBound_time row hb, hx, map_some,
      Bool.true_or, if_true]
    cases compareDates t (midnight x) op' <;> rfl
  · obtain ⟨hcol, hd⟩ := timeColumn_time (c := c) hh hcol
    simp only [TimedRow.comparison, hcol, hd, extractDateBound_time row hb, hx, map_some,
      Bool.or_true, if_true, compareDates_mirrored]
    cases compareDates (midnight x) t op <;> rfl

theorem timeComparison_not_false (h : row.comparison c left op right = some true) :
    ∃ x, b.date c row.param = some x ∧ compareDates t (midnight x) op' ≠ some false := by
  obtain ⟨x, hx, hcmp⟩ := timeComparison_time hh ht
  refine ⟨x, hx, fun hf => ?_⟩
  rw [hcmp, hf] at h
  cases h

omit hh ht

/-- Without strict lower bounds, what is true at an instant restricts its day as the analyzer
says. -/
theorem TimedRow.acceptance {later : D} (hd : t.date < later) (hh : row.Holds tableName timeCol t) :
    Acceptance c tableName timeCol row.param t.date
      (fun e => row.eval c e = some true ∧ strictFree c tableName timeCol e) where
  and left right h := by
    obtain ⟨h, hl, hr⟩ := h
    simp only [TimedRow.eval, and3_eq_true] at h
    exact ⟨⟨h.1, hl⟩, h.2, hr⟩
  or left right h := by
    obtain ⟨h, hl, hr⟩ := h
    simp only [TimedRow.eval, or3_eq_true] at h
    exact h.imp (fun h => ⟨h, hl⟩) fun h => ⟨h, hr⟩
  nested inner h := h
  between expr low high h := by
    simp only [TimedRow.eval, Bool.false_eq_true, if_false, and3_eq_true] at h
    have inclusive : ∀ op bound b, op = .gtEq ∨ op = .ltEq →
        timeComparison c tableName timeCol expr op bound ≠ some (.gt, b) := by
      rintro op bound b (rfl | rfl) ht <;> unfold timeComparison at ht <;>
        split_ifs at ht <;> simp [mirrored] at ht
    exact ⟨⟨h.1.1, fun b => inclusive _ low b (.inl rfl)⟩,
      ⟨h.1.2, fun b => inclusive _ high b (.inr rfl)⟩⟩
  comparison left op right op' b ha ho ht h hparam := by
    obtain ⟨h, hstrict⟩ := h
    rw [TimedRow.eval.eq_6 c row left op right ha ho] at h
    rw [strictFree.eq_3 c tableName timeCol left op right ha ho] at hstrict
    obtain ⟨x, hx, hcmp⟩ := timeComparison_not_false hh ht h
    by_cases hne : op' = .notEq
    · subst hne
      exact contains_universe
    · have hop : op' ≠ .gt := by
        rintro rfl
        exact hstrict b ht
      exact comparisonInterval_contains hx (compareDates_date hop hne hcmp) hparam hd

/-! ## Inclusive lower bounds -/

theorem mirrored_orEqual (op : BinaryOperator) : mirrored (orEqual op) = orEqual (mirrored op) := by
  cases op <;> rfl

theorem orEqual_connective (ha : op ≠ .and) (ho : op ≠ .or) :
    orEqual op ≠ .and ∧ orEqual op ≠ .or := by
  cases op <;> simp_all [orEqual]

theorem timeComparison_orEqual (left : Expr) (op : BinaryOperator) (right : Expr) :
    timeComparison c tableName timeCol left (orEqual op) right =
      (timeComparison c tableName timeCol left op right).map fun p => (orEqual p.1, p.2) := by
  unfold timeComparison
  split_ifs <;> simp [map_map, Function.comp_def, mirrored_orEqual]

variable (c tableName timeCol) in
theorem relaxed_comparison (left right : Expr) (ha : op ≠ .and)
    (ho : op ≠ .or) :
    (∃ b, timeComparison c tableName timeCol left op right = some (.gt, b) ∧
        relaxed c tableName timeCol (.binaryOp left op right) =
          .binaryOp left (orEqual op) right) ∨
      (∀ b, timeComparison c tableName timeCol left op right ≠ some (.gt, b)) ∧
        relaxed c tableName timeCol (.binaryOp left op right) = .binaryOp left op right := by
  rw [relaxed.eq_3 c tableName timeCol left op right ha ho]
  split
  · rename_i b ht
    exact .inl ⟨b, ht, rfl⟩
  · rename_i hne
    exact .inr ⟨hne, rfl⟩

theorem strictFree_relaxed (e : Expr) :
    strictFree c tableName timeCol (relaxed c tableName timeCol e) := by
  induction e using strictFree.induct with
  | case1 left right hl hr | case2 left right hl hr => exact ⟨hl, hr⟩
  | case3 left op right ha ho =>
    rcases relaxed_comparison c tableName timeCol left right ha ho with
      ⟨b, ht, hrelaxed⟩ | ⟨hne, hrelaxed⟩
    · have hop := orEqual_connective ha ho
      rw [hrelaxed, strictFree.eq_3 c tableName timeCol _ _ _ hop.1 hop.2]
      intro b' ht'
      rw [timeComparison_orEqual, ht] at ht'
      cases ht'
    · rw [hrelaxed, strictFree.eq_3 c tableName timeCol _ _ _ ha ho]
      exact hne
  | case4 inner ih => exact ih
  | case5 e h1 h2 h3 h4 =>
    rw [relaxed.eq_5 c tableName timeCol e h1 h2 h3 h4]
    rw [strictFree.eq_5 c tableName timeCol e h1 h2 h3 h4]
    trivial

theorem placeholderFree_relaxed (e : Expr) :
    placeholderFree (relaxed c tableName timeCol e) = placeholderFree e := by
  induction e using strictFree.induct with
  | case1 left right hl hr | case2 left right hl hr => simp only [relaxed, placeholderFree, hl, hr]
  | case3 left op right ha ho =>
    rcases relaxed_comparison c tableName timeCol left right ha ho with
      ⟨b, -, hrelaxed⟩ | ⟨-, hrelaxed⟩
    · rw [hrelaxed]
      rfl
    · rw [hrelaxed]
  | case4 inner ih => exact ih
  | case5 e h1 h2 h3 h4 => rw [relaxed.eq_5 c tableName timeCol e h1 h2 h3 h4]

/-- Making lower bounds inclusive keeps every true expression true. -/
theorem eval_relaxed (hh : row.Holds tableName timeCol t) (e : Expr)
    (h : row.eval c e = some true) : row.eval c (relaxed c tableName timeCol e) = some true := by
  induction e using strictFree.induct with
  | case1 left right hl hr =>
    simp only [TimedRow.eval, and3_eq_true, relaxed] at h ⊢
    exact ⟨hl h.1, hr h.2⟩
  | case2 left right hl hr =>
    simp only [TimedRow.eval, or3_eq_true, relaxed] at h ⊢
    exact h.imp hl hr
  | case3 left op right ha ho =>
    rcases relaxed_comparison c tableName timeCol left right ha ho with
      ⟨b, ht, hrelaxed⟩ | ⟨-, hrelaxed⟩
    · have hop := orEqual_connective ha ho
      rw [TimedRow.eval.eq_6 c row left op right ha ho] at h
      rw [hrelaxed, TimedRow.eval.eq_6 c row _ _ _ hop.1 hop.2]
      obtain ⟨x, hx, hcmp⟩ := timeComparison_not_false hh ht h
      have ht' : timeComparison c tableName timeCol left (orEqual op) right = some (.gtEq, b) := by
        rw [timeComparison_orEqual, ht]
        rfl
      obtain ⟨y, hy, heq⟩ := timeComparison_time hh ht'
      cases hx.symm.trans hy
      have hle : midnight x ≤ t := by
        simp only [compareDates, ne_eq, Option.some.injEq, decide_eq_false_iff_not, not_not] at hcmp
        exact hcmp.le
      rw [heq]
      simp [compareDates, hle]
    · rw [hrelaxed]
      exact h
  | case4 inner ih => exact ih h
  | case5 e h1 h2 h3 h4 =>
    rw [relaxed.eq_5 c tableName timeCol e h1 h2 h3 h4]
    exact h

theorem timestampsKept_of_relaxed (hs : (c.parse wideScanStart).isSome = true)
    (he : (c.parse wideScanEnd).isSome = true) (hf : placeholderFree e = true)
    (hsame : analyzeForTable c tableName timeCol (relaxed c tableName timeCol e) =
      analyzeForTable c tableName timeCol e) : TimestampsKept c tableName timeCol e := by
  rintro row t ⟨later, hd⟩ hcover hh htrue
  have hsafe : placeholderSafe c tableName timeCol (relaxed c tableName timeCol e) = true :=
    placeholderSafe_of_free _ ((placeholderFree_relaxed e).trans hf)
  have hcontains := (TimedRow.acceptance hd hh).contains hs he _ hsafe
    ⟨eval_relaxed hh e htrue, strictFree_relaxed e⟩
  rw [hsame] at hcontains
  exact inRange_iff.mpr ⟨hcontains, hcover⟩

/-- A row that holds one instant in every reference to the time column. -/
def instantRow (tableName timeCol : String) (t : Timestamp D) : TimedRow D where
  column e := if isTimeColumnRef tableName timeCol e then some t else none
  param _ := t.date
  truth _ := none

omit [LinearOrder D] in
variable (tableName timeCol) in
theorem instantRow_holds (t : Timestamp D) :
    (instantRow tableName timeCol t).Holds tableName timeCol t := by
  intro e he
  simp [instantRow, he]

def afterMidnight (d : D) : Timestamp D := toLex (d, 1)

theorem midnight_lt_afterMidnight (d : D) : midnight d < afterMidnight d :=
  Prod.Lex.lt_iff.mpr (.inr ⟨rfl, show (0 : Fin 86400000000) < 1 by decide⟩)

/-- A strict lower bound loses the rest of the bound's own day. -/
theorem strict_comparison_lost {s : String} {x hi : D} (ha : op ≠ .and) (ho : op ≠ .or)
    (ht : timeComparison c tableName timeCol left op right = some (.gt, .literal s))
    (hx : c.parse s = some x) (hhi : c.parse wideScanEnd = some hi) (hxhi : x < hi) :
    ¬ TimestampsKept c tableName timeCol (.binaryOp left op right) := by
  intro hkept
  have hh := instantRow_holds tableName timeCol (afterMidnight x)
  have htrue : (instantRow tableName timeCol (afterMidnight x)).eval c (.binaryOp left op right) =
      some true := by
    rw [TimedRow.eval.eq_6 c _ left op right ha ho]
    obtain ⟨y, hy, heq⟩ := timeComparison_time hh ht
    cases hx.symm.trans hy
    rw [heq]
    simp [compareDates, midnight_lt_afterMidnight]
  have hinterval : analyzeForTable c tableName timeCol (.binaryOp left op right) =
      ⟨some (addOneDay c (.literal s)), none⟩ := by
    rw [analyzeForTable_comparison ha ho, ht]
    rfl
  have hcover : DefaultsCover c (analyzeForTable c tableName timeCol (.binaryOp left op right))
      (afterMidnight x).date := by
    rw [hinterval]
    refine ⟨fun hnone => ?_, fun _ => ⟨hi, hhi, hxhi⟩⟩
    cases hnone
  -- the emitted start is the next day, which exists because the calendar goes on past `x`
  have hrange := hkept _ (afterMidnight x) ⟨hi, hxhi⟩ hcover hh htrue
  rw [macroArgs, hinterval, inRange_iff] at hrange
  obtain ⟨start, hs, hle⟩ := hrange.1.1 _ rfl
  simp only [addOneDay, hx, bind_some] at hs
  cases hsucc : c.succOpt x with
  | none => exact absurd (c.succ_none x hsucc hi) (not_le.mpr hxhi)
  | some y =>
    rw [hsucc] at hs
    have hstart : y = start := Option.some.inj ((c.parse_format y).symm.trans hs)
    rw [← hstart] at hle
    exact absurd hle (not_le.mpr (c.succ_covers x y hsucc).1)

/-- Pruning by literal dates keeps the timestamps that an expression accepts when its range is the
same with strict lower bounds made inclusive; what lies outside the defaults of an open side is
always lost, and of single comparisons only those with that range keep their timestamps. -/
theorem timestamps_kept (hs : (c.parse wideScanStart).isSome = true) {hi : D}
    (hhi : c.parse wideScanEnd = some hi) :
    (∀ e, placeholderFree e = true →
      analyzeForTable c tableName timeCol (relaxed c tableName timeCol e) =
        analyzeForTable c tableName timeCol e → TimestampsKept c tableName timeCol e) ∧
      (∀ e (row : TimedRow D) t, row.dates.InRange c t (macroArgs c tableName timeCol e) →
        DefaultsCover c (analyzeForTable c tableName timeCol e) t) ∧
      ∀ left op right op' s x, op ≠ .and → op ≠ .or →
        timeComparison c tableName timeCol left op right = some (op', .literal s) →
        c.parse s = some x → x < hi →
        TimestampsKept c tableName timeCol (.binaryOp left op right) →
        analyzeForTable c tableName timeCol
            (relaxed c tableName timeCol (.binaryOp left op right)) =
          analyzeForTable c tableName timeCol (.binaryOp left op right) := by
  have he : (c.parse wideScanEnd).isSome = true := by rw [hhi]; rfl
  refine ⟨fun e => timestampsKept_of_relaxed hs he, fun e row t h => (inRange_iff.mp h).2, ?_⟩
  intro left op right op' s x ha ho ht hx hxhi hkept
  rcases relaxed_comparison c tableName timeCol left right ha ho with
      ⟨b, hgt, -⟩ | ⟨-, hrelaxed⟩
  · cases ht.symm.trans hgt
    exact absurd hkept (strict_comparison_lost ha ho ht hx hhi hxhi)
  · rw [hrelaxed]

def calendarEnd : CivilDate.Date := ⟨9999, 12, 31, by decide⟩

/-- `dt > '2024-05-20' AND dt BETWEEN '2024-06-01' AND '2024-06-30'`: the strict bound is not the
start of the range. -/
theorem timestamps_kept_between :
    TimestampsKept gregorian "sales" "dt"
        (.binaryOp (.binaryOp dtColumn .gt (.value (.singleQuotedString "2024-05-20"))) .and
          (.between dtColumn false (.value (.singleQuotedString "2024-06-01"))
            (.value (.singleQuotedString "2024-06-30")))) ∧
      ¬ TimestampsKept gregorian "sales" "dt"
        (.binaryOp (.value (.singleQuotedString "2024-06-01")) .lt dtColumn) :=
  have h := @timestamps_kept _ _ gregorian "sales" "dt" (by decide) calendarEnd (by decide)
  ⟨h.1 _ (by decide) (by decide +kernel), fun hkept => absurd
    (h.2.2 _ _ _ .gt "2024-06-01" lastDay (by decide) (by decide) (by decide) (by decide)
      (by decide) hkept) (by decide +kernel)⟩

def oldNoon : Timestamp CivilDate.Date := toLex (⟨1950, 1, 1, by decide⟩, 43200000000)

/-- `dt > '2024-06-01'` is true of every instant of that day after midnight and starts the range
on the next day; `dt < '1960-01-01'` is true of a day in 1950 and starts the range in 1970. -/
theorem strict_bound_prunes_own_day :
    ¬ TimestampsKept gregorian "sales" "dt"
        (.binaryOp dtColumn .gt (.value (.singleQuotedString "2024-06-01"))) ∧
      (instantRow "sales" "dt" oldNoon).eval gregorian
        (.binaryOp dtColumn .lt (.value (.singleQuotedString "1960-01-01"))) = some true ∧
      ¬ (instantRow "sales" "dt" oldNoon).dates.InRange gregorian oldNoon.date
        (macroArgs gregorian "sales" "dt"
          (.binaryOp dtColumn .lt (.value (.singleQuotedString "1960-01-01")))) := by
  refine ⟨?_, by decide, fun hrange => ?_⟩
  · have hend : gregorian.parse wideScanEnd = some calendarEnd := by decide
    exact strict_comparison_lost (s := "2024-06-01") (x := lastDay) (by decide) (by decide)
      (by decide) (by decide) hend (by decide)
  · obtain ⟨start, hstart, hle⟩ := (inRange_iff.mp hrange).2.1 rfl
    have hfirst : start = ⟨1970, 1, 1, by decide⟩ :=
      Option.some.inj (hstart.symm.trans (by decide))
    rw [hfirst] at hle
    exact absurd hle (by decide)

end

end Leibrix.SqlTimestamps
