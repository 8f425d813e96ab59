import Leibrix.SqlAnalyzer

/-!
# Soundness of epoch pruning

SQL three-valued logic over one joined row, where `none` is unknown. A comparison in which a
date column takes part is decided by the dates; every expression the analysis cannot see
into has an arbitrary truth value. Pruning is sound for an expression when each row on
which it is true has its date inside the macro's range. Literals are always handled
soundly. With placeholders the range is computed from text whose dates are not known yet,
so soundness needs a condition on where they stand.
-/

set_option autoImplicit false

namespace Leibrix.SqlPruning
open SqlAst SqlInterval SqlAnalyzer

def and3 : Option Bool → Option Bool → Option Bool
  | some false, _ | _, some false => some false
  | some true, some true => some true
  | _, _ => none

def or3 : Option Bool → Option Bool → Option Bool
  | some true, _ | _, some true => some true
  | some false, some false => some false
  | _, _ => none

def not3 (a : Option Bool) : Option Bool := a.map not

@[simp]
theorem and3_eq_true (a b : Option Bool) :
    and3 a b = some true ↔ a = some true ∧ b = some true := by
  rcases a with _ | _ | _ <;> rcases b with _ | _ | _ <;> decide

@[simp]
theorem or3_eq_true (a b : Option Bool) : or3 a b = some true ↔ a = some true ∨ b = some true := by
  rcases a with _ | _ | _ <;> rcases b with _ | _ | _ <;> decide

/-- A joined row with the placeholders' values. `column` gives the date of each
reference to a DATE column; `truth` is the value of an expression that is not
decided by dates. -/
structure Row (D : Type) where
  column : Expr → Option D
  param : String → D
  truth : Expr → Option Bool

section
variable {D : Type} [LinearOrder D] (c : Chrono D)

def isColumn : Expr → Bool
  | .identifier _ | .compoundIdentifier _ => true
  | _ => false

def Row.date (row : Row D) : Expr → Option D
  | .identifier ident => row.column (.identifier ident)
  | .compoundIdentifier parts => row.column (.compoundIdentifier parts)
  | .value (.singleQuotedString s) => c.parse s
  | .value (.placeholder p) => some (row.param p)
  | .typedString .date (.singleQuotedString s) => c.parse s
  | .cast inner .date | .nested inner => row.date inner
  | _ => none

def compareDates (x y : D) : BinaryOperator → Option Bool
  | .eq => some (x = y)
  | .notEq => some (x ≠ y)
  | .gt => some (y < x)
  | .lt => some (x < y)
  | .gtEq => some (y ≤ x)
  | .ltEq => some (x ≤ y)
  | _ => none

/-- A comparison of dates, once a date column makes it one. -/
def Row.comparison (row : Row D) (left : Expr) (op : BinaryOperator) (right : Expr) : Option Bool :=
  if isColumn left || isColumn right then
    match row.date c left, row.date c right with
    | some x, some y =>
      match compareDates x y op with
      | some b => some b
      | none => row.truth (.binaryOp left op right)
    | _, _ => row.truth (.binaryOp left op right)
  else row.truth (.binaryOp left op right)

def Row.eval (row : Row D) : Expr → Option Bool
  | .binaryOp left .and right => and3 (row.eval left) (row.eval right)
  | .binaryOp left .or right => or3 (row.eval left) (row.eval right)
  | .unaryOp .not inner => not3 (row.eval inner)
  | .nested inner => row.eval inner
  | .between expr negated low high =>
    let inside := and3 (row.comparison c expr .gtEq low) (row.comparison c expr .ltEq high)
    if negated then not3 inside else inside
  | .binaryOp left op right => row.comparison c left op right
  | e => row.truth e

/-- The row holds a record of the table, dated `d`, and references to the
table's time column denote it. -/
def Row.Holds (row : Row D) (tableName timeCol : String) (d : D) : Prop :=
  ∀ e, isTimeColumnRef tableName timeCol e = true → row.column e = some d

/-- The half-open range that the macro's arguments denote for this row. -/
def Row.InRange (row : Row D) (d : D) (args : Expr × Expr) : Prop :=
  ∃ s e, row.date c args.1 = some s ∧ row.date c args.2 = some e ∧ s ≤ d ∧ d < e

def InCalendar (d : D) : Prop :=
  ∃ s e, c.parse wideScanStart = some s ∧ c.parse wideScanEnd = some e ∧ s ≤ d ∧ d < e

variable (tableName timeCol : String)

def macroArgs (e : Expr) : Expr × Expr :=
  formatDateArgs c (.ofInterval (analyzeForTable c tableName timeCol e))

/-- The date is within the defaults that the macro gets for the sides an interval leaves open. -/
def DefaultsCover (i : Interval) (d : D) : Prop :=
  (i.start = none → ∃ s, c.parse wideScanStart = some s ∧ s ≤ d) ∧
    (i.end = none → ∃ e, c.parse wideScanEnd = some e ∧ d < e)

/-- No record that the expression accepts is outside the emitted range, the last day of the calendar
and what lies outside the defaults of an open side apart. -/
def PruningSound (e : Expr) : Prop :=
  ∀ (row : Row D) (d : D), (∃ later, d < later) →
    DefaultsCover c (analyzeForTable c tableName timeCol e) d → row.Holds tableName timeCol d →
    row.eval c e = some true → row.InRange c d (macroArgs c tableName timeCol e)

end

/-! ## Where placeholders may stand -/

inductive BoundKind where
  | absent | literal | placeholder
  deriving DecidableEq

namespace BoundKind

def ofBound : DateBound → BoundKind
  | .literal _ => .literal
  | .parameter _ => .placeholder

def both : BoundKind → BoundKind → BoundKind
  | .absent, k => k
  | k, .absent => k
  | .literal, .literal => .literal
  | _, _ => .placeholder

def either : BoundKind → BoundKind → BoundKind
  | .absent, _ | _, .absent => .absent
  | k, l => both k l

end BoundKind

inductive Side where
  | lower | upper
  deriving DecidableEq

namespace Side

def bound : Side → Interval → Option DateBound
  | .lower, i => i.start
  | .upper, i => i.end

def restricts : Side → BinaryOperator → Bool
  | .lower, .gtEq | .lower, .gt | .lower, .eq | .upper, .lt | .upper, .ltEq | .upper, .eq => true
  | _, _ => false

def pick : Side → DateBound × DateBound → DateBound
  | .lower, b => b.1
  | .upper, b => b.2

end Side

def includesBound : BinaryOperator → Bool
  | .ltEq | .eq => true
  | _ => false

section
variable {D : Type} [LinearOrder D] (c : Chrono D)

/-- No operand of the boolean structure mentions a placeholder. -/
def placeholderFree : Expr → Bool
  | .value (.placeholder _) => false
  | .cast inner _ => placeholderFree inner
  | .binaryOp left _ right => placeholderFree left && placeholderFree right
  | .unaryOp _ inner | .nested inner => placeholderFree inner
  | .between expr _ low high => placeholderFree expr && placeholderFree low && placeholderFree high
  | _ => true

variable (side : Side)

/-- What restricts the time column on one side in an expression. -/
def boundKind (tableName timeCol : String) : Expr → BoundKind
  | .binaryOp left .and right =>
    (boundKind tableName timeCol left).both (boundKind tableName timeCol right)
  | .binaryOp left .or right =>
    (boundKind tableName timeCol left).either (boundKind tableName timeCol right)
  | .between expr false low high =>
    match timeBetween c tableName timeCol expr low high with
    | some b => .ofBound (side.pick b)
    | none => .absent
  | .binaryOp left op right =>
    match timeComparison c tableName timeCol left op right with
    | some (op, b) => if side.restricts op then .ofBound b else .absent
    | none => .absent
  | .nested inner => boundKind tableName timeCol inner
  | _ => .absent

/-- The union of two ranges has to compare a placeholder with another bound. -/
def comparesPlaceholder (i j : Interval) : Bool :=
  match side.bound i, side.bound j with
  | some (.literal _), some (.literal _) => false
  | some _, some _ => true
  | _, _ => false

/-- One of the two ranges is empty, or their bounds are compared as dates. -/
def unitesDates (i j : Interval) : Bool :=
  i.isEmpty c || j.isEmpty c || (!comparesPlaceholder .lower i j && !comparesPlaceholder .upper i j)

variable (tableName timeCol : String)

def unrestricted (e : Expr) : Bool :=
  boundKind c .lower tableName timeCol e = .absent &&
    boundKind c .upper tableName timeCol e = .absent

/-- No placeholder is the last day of a range (`= $1`, `<= $1`, `BETWEEN .. AND $1`),
and no disjunction that restricts the time column has to compare a placeholder
with another bound. An operand with an empty range decides a conjunction alone. -/
def placeholderSafe : Expr → Bool
  | .binaryOp left .and right =>
    let safeLeft := placeholderSafe left
    let safeRight := placeholderSafe right
    (safeLeft && safeRight) || (safeLeft && (analyzeForTable c tableName timeCol left).isEmpty c) ||
      (safeRight && (analyzeForTable c tableName timeCol right).isEmpty c)
  | .binaryOp left .or right =>
    unrestricted c tableName timeCol left || unrestricted c tableName timeCol right ||
      (placeholderSafe left && placeholderSafe right &&
        unitesDates c (analyzeForTable c tableName timeCol left)
          (analyzeForTable c tableName timeCol right))
  | .between expr false low high =>
    match timeBetween c tableName timeCol expr low high with
    | some (_, .parameter _) => false
    | _ => true
  | .binaryOp left op right =>
    match timeComparison c tableName timeCol left op right with
    | some (op, .parameter _) => !includesBound op
    | _ => true
  | .nested inner => placeholderSafe inner
  | _ => true

end

/-! ## Atoms -/

section
variable {D : Type} [LinearOrder D] {c : Chrono D} {tableName timeCol : String}

variable {b : DateBound} {e : Expr} {row : Row D} {d : D} {left right : Expr}
  {op op' : BinaryOperator} {σ : String → D} {i : Interval} {side : Side} {k : BoundKind}

theorem date_isSome (h : b.Parsed c) (σ : String → D) : (b.date c σ).isSome = true := by
  cases b with
  | literal s => exact h
  | parameter p => rfl

theorem literalBound_some {s : String} (h : literalBound c s = some b) :
    b = .literal s ∧ b.Parsed c := by
  unfold literalBound isValidDate at h
  split_ifs at h with hv
  cases h
  exact ⟨rfl, hv⟩

/-- What is read as a bound is a date or a placeholder, with its meaning. -/
theorem extractDateBound_spec (h : extractDateBound c e = some b) :
    b.Parsed c ∧ (∀ row : Row D, row.date c e = b.date c row.param) ∧
      (placeholderFree e = true → BoundKind.ofBound b = .literal) := by
  induction e using extractDateBound.induct with
  | case1 s | case3 s =>
    obtain ⟨rfl, parsed⟩ := literalBound_some h
    exact ⟨parsed, fun _ => rfl, fun _ => rfl⟩
  | case2 p =>
    cases h
    exact ⟨trivial, fun _ => rfl, fun hf => by cases hf⟩
  | case4 inner ih => exact ih h
  | case5 e h1 h2 h3 h4 =>
    rw [extractDateBound.eq_5 c e h1 h2 h3 h4] at h
    cases h

theorem timeColumn_date (hh : row.Holds tableName timeCol d)
    (h : isTimeColumnRef tableName timeCol e = true) :
    isColumn e = true ∧ row.date c e = some d := by
  have hc := hh e h
  unfold isTimeColumnRef at h
  split at h
  · exact ⟨rfl, hc⟩
  · exact ⟨rfl, hc⟩
  · cases h

theorem compareDates_mirrored (x y : D) (op : BinaryOperator) :
    compareDates x y (mirrored op) = compareDates y x op := by
  cases op <;> simp [compareDates, mirrored, eq_comm]

variable (ht : timeComparison c tableName timeCol left op right = some (op', b))
include ht

/-- A comparison of the time column has the column on one side and the bound on the other. -/
theorem timeComparison_sides :
    (isTimeColumnRef tableName timeCol left = true ∧ extractDateBound c right = some b ∧
      op' = op) ∨
    (isTimeColumnRef tableName timeCol right = true ∧ extractDateBound c left = some b ∧
      op' = mirrored op) := by
  unfold timeComparison at ht
  split_ifs at ht with hl hr <;>
  · obtain ⟨b', hb, he⟩ := Option.map_eq_some_iff.mp ht
    cases he
    simp_all

theorem timeComparison_parsed : b.Parsed c := by
  rcases timeComparison_sides ht with ⟨-, hb, -⟩ | ⟨-, hb, -⟩ <;>
    exact (extractDateBound_spec hb).1

omit ht

theorem timeComparison_free (hf : placeholderFree (.binaryOp left op right) = true)
    (ht : timeComparison c tableName timeCol left op right = some (op', b)) :
    BoundKind.ofBound b = .literal := by
  simp only [placeholderFree, Bool.and_eq_true] at hf
  rcases timeComparison_sides ht with ⟨-, hb, -⟩ | ⟨-, hb, -⟩
  · exact (extractDateBound_spec hb).2.2 hf.2
  · exact (extractDateBound_spec hb).2.2 hf.1

theorem timeComparison_date (hh : row.Holds tableName timeCol d)
    (ht : timeComparison c tableName timeCol left op right = some (op', b))
    (h : row.comparison c left op right = some true) :
    ∃ x, b.date c row.param = some x ∧ compareDates d x op' ≠ some false := by
  obtain ⟨x, hx⟩ := Option.isSome_iff_exists.mp (date_isSome (timeComparison_parsed ht) row.param)
  refine ⟨x, hx, fun hf => ?_⟩
  rcases timeComparison_sides ht with ⟨hcol, hb, rfl⟩ | ⟨hcol, hb, rfl⟩
  · obtain ⟨hcol, hd⟩ := timeColumn_date (c := c) hh hcol
    simp [Row.comparison, hcol, hd, (extractDateBound_spec hb).2.1, hx, hf] at h
  · obtain ⟨hcol, hd⟩ := timeColumn_date (c := c) hh hcol
    rw [compareDates_mirrored] at hf
    simp [Row.comparison, hcol, hd, (extractDateBound_spec hb).2.1, hx, hf] at h

theorem comparisonInterval_contains {x h : D} (hx : b.date c σ = some x)
    (hc : compareDates d x op ≠ some false) (hs : ∀ p, b = .parameter p → includesBound op = false)
    (hh : d < h) : (comparisonInterval c op b).Contains c σ d := by
  have last : includesBound op = true → d ≤ x → (addOneDay c b).UpperFor c σ d := by
    intro hi hd
    cases b with
    | parameter p => rw [hs p rfl] at hi; cases hi
    | literal s => exact addOneDay_upper s σ d x h hx hd hh
  cases op <;> simp only [compareDates, ne_eq, Option.some.injEq, decide_eq_false_iff_not,
    not_not, reduceCtorEq, not_false_eq_true] at hc <;>
    refine ⟨fun b' hb => ?_, fun b' hb => ?_⟩ <;> cases hb
  case eq.refine_1 => exact ⟨x, hx, hc ▸ le_refl _⟩
  case eq.refine_2 => exact last rfl (le_of_eq hc)
  case gt.refine_1 => exact addOneDay_lower b σ d x hx hc
  case lt.refine_2 => exact ⟨x, hx, hc⟩
  case gtEq.refine_1 => exact ⟨x, hx, hc⟩
  case ltEq.refine_2 => exact last rfl hc

theorem timeBetween_some {expr low high : Expr} {s e : DateBound}
    (h : timeBetween c tableName timeCol expr low high = some (s, e)) :
    timeComparison c tableName timeCol expr .gtEq low = some (.gtEq, s) ∧
      timeComparison c tableName timeCol expr .ltEq high = some (.ltEq, e) := by
  unfold timeBetween at h
  split_ifs at h with hcol
  split at h
  · rename_i s' e' hs he
    cases h
    simp [timeComparison, hcol, hs, he]
  · cases h

/-! ## Bounds of composed intervals -/

theorem isEmpty_bound (h : i.isEmpty c = true) (side : Side) :
    ∃ s, side.bound i = some (.literal s) := by
  unfold Interval.isEmpty at h
  split at h
  · rename_i s e hs he
    cases side with
    | lower => exact ⟨s, hs⟩
    | upper => exact ⟨e, he⟩
  · cases h

variable {j : Interval}

theorem bound_intersect (h : side.bound (i.intersect c j) = some b) :
    side.bound i = some b ∨ side.bound j = some b ∨
      (i.isEmpty c = true ∨ j.isEmpty c = true) ∧ side.bound .empty = some b := by
  unfold Interval.intersect at h
  split_ifs at h with he
  · exact Or.inr (Or.inr ⟨by simpa using he, h⟩)
  · rw [← or_assoc]
    left
    cases side with
    | lower => exact Interval.tighter_cases maxBound_cases h
    | upper => exact Interval.tighter_cases minBound_cases h

theorem bound_union (h : side.bound (i.union c j) = some b) :
    ∃ x y, side.bound i = some x ∧ side.bound j = some y ∧ (b = x ∨ b = y) := by
  unfold Interval.union at h
  split_ifs at h with hi hj hu
  · obtain ⟨s, hs⟩ := isEmpty_bound hi side
    exact ⟨_, b, hs, h, Or.inr rfl⟩
  · obtain ⟨s, hs⟩ := isEmpty_bound hj side
    exact ⟨b, _, h, hs, Or.inl rfl⟩
  · cases side <;> cases h
  · cases side with
    | lower =>
      obtain ⟨x, y, hx, hy, rfl⟩ := Interval.wider_some h
      exact ⟨x, y, hx, hy, minBound_cases x y⟩
    | upper =>
      obtain ⟨x, y, hx, hy, rfl⟩ := Interval.wider_some h
      exact ⟨x, y, hx, hy, maxBound_cases x y⟩

def BoundKind.Covers (k : BoundKind) (b : DateBound) : Prop :=
  k = .ofBound b ∨ k = .placeholder

theorem BoundKind.Covers.ne_absent (h : k.Covers b) : k ≠ .absent := by
  rintro rfl
  cases b <;> rcases h with h | h <;> cases h

variable {l : BoundKind}

theorem BoundKind.covers_both (h : k.Covers b ∨ l.Covers b) : (k.both l).Covers b := by
  cases b <;> cases k <;> cases l <;> simp_all [BoundKind.Covers, BoundKind.ofBound, BoundKind.both]

theorem BoundKind.covers_either {x y : DateBound} (hx : k.Covers x) (hy : l.Covers y)
    (h : b = x ∨ b = y) : (k.either l).Covers b := by
  have hk := hx.ne_absent
  have hl := hy.ne_absent
  have he : k.either l = k.both l := by
    cases k <;> cases l <;> first | rfl | contradiction
  rw [he]
  rcases h with rfl | rfl
  · exact covers_both (Or.inl hx)
  · exact covers_both (Or.inr hy)

theorem ofBound_addOneDay (b : DateBound) :
    BoundKind.ofBound (addOneDay c b) = BoundKind.ofBound b := by
  cases b with
  | parameter p => rfl
  | literal s =>
    simp only [addOneDay]
    split <;> rfl

theorem bound_comparisonInterval {b' : DateBound}
    (h : side.bound (comparisonInterval c op b) = some b') :
    side.restricts op = true ∧ (b' = b ∨ b' = addOneDay c b) := by
  cases side <;> cases op <;> cases h <;> simp [Side.restricts]

theorem analyzeForTable_comparison (ha : op ≠ .and) (ho : op ≠ .or) :
    analyzeForTable c tableName timeCol (.binaryOp left op right) =
      match timeComparison c tableName timeCol left op right with
      | some (op, b) => comparisonInterval c op b
      | none => .universe :=
  analyzeForTable.eq_4 c tableName timeCol left op right ha ho

theorem boundKind_comparison (ha : op ≠ .and) (ho : op ≠ .or) :
    boundKind c side tableName timeCol (.binaryOp left op right) =
      match timeComparison c tableName timeCol left op right with
      | some (op, b) => if side.restricts op then .ofBound b else .absent
      | none => .absent :=
  boundKind.eq_4 c side tableName timeCol left op right ha ho

theorem bound_universe : side.bound .universe ≠ some b := by
  cases side <;> exact nofun

/-- Each bound of the interval is announced by the expression, and is a date if it is literal. -/
theorem analyzeForTable_bound (side : Side) (e : Expr) (b : DateBound)
    (h : side.bound (analyzeForTable c tableName timeCol e) = some b) :
    (boundKind c side tableName timeCol e).Covers b ∧
      ((c.parse wideScanStart).isSome = true → (c.parse wideScanEnd).isSome = true →
        b.Parsed c) := by
  induction e using analyzeForTable.induct c tableName timeCol generalizing b with
  | case1 left right hl hr =>
    rw [analyzeForTable] at h
    rw [boundKind]
    rcases bound_intersect h with h | h | ⟨he, h⟩
    · exact ⟨BoundKind.covers_both (.inl (hl b h).1), (hl b h).2⟩
    · exact ⟨BoundKind.covers_both (.inr (hr b h).1), (hr b h).2⟩
    · -- the canonical empty interval is literal, and so is the operand it stands for
      have hb : BoundKind.ofBound b = .literal := by cases side <;> cases h <;> rfl
      refine ⟨BoundKind.covers_both (he.imp (fun he => ?_) fun he => ?_), fun hs he => ?_⟩
      · obtain ⟨s, hs⟩ := isEmpty_bound he side
        have hk := (hl _ hs).1
        rwa [BoundKind.Covers, hb]
      · obtain ⟨s, hs⟩ := isEmpty_bound he side
        have hk := (hr _ hs).1
        rwa [BoundKind.Covers, hb]
      · cases side <;> cases h
        · exact he
        · exact hs
  | case2 left right hl hr =>
    rw [analyzeForTable] at h
    rw [boundKind]
    obtain ⟨x, y, hx, hy, hb⟩ := bound_union h
    refine ⟨BoundKind.covers_either (hl x hx).1 (hr y hy).1 hb, ?_⟩
    rcases hb with rfl | rfl
    · exact (hl b hx).2
    · exact (hr b hy).2
  | case3 expr low high s e ht =>
    rw [analyzeForTable, ht] at h
    rw [boundKind, ht]
    obtain ⟨hls, hle⟩ := timeBetween_some ht
    cases side <;> cases h
    · exact ⟨.inl rfl, fun _ _ => timeComparison_parsed hls⟩
    · exact ⟨.inl (ofBound_addOneDay e).symm,
        fun _ _ => addOneDay_parsed e (timeComparison_parsed hle)⟩
  | case5 left op right ha ho op' b' ht =>
    rw [analyzeForTable_comparison ha ho, ht] at h
    obtain ⟨hr, hb⟩ := bound_comparisonInterval h
    rw [boundKind_comparison ha ho, ht]
    simp only [hr, if_true]
    have hp := timeComparison_parsed ht
    rcases hb with rfl | rfl
    · exact ⟨.inl rfl, fun _ _ => hp⟩
    · exact ⟨.inl (ofBound_addOneDay b').symm, fun _ _ => addOneDay_parsed b' hp⟩
  | case7 inner ih => exact ih b h
  | case4 | case6 | case8 => simp_all [analyzeForTable, bound_universe]

/-! ## Soundness -/

theorem analyzeForTable_unrestricted (h : unrestricted c tableName timeCol e = true) :
    analyzeForTable c tableName timeCol e = .universe := by
  simp only [unrestricted, Bool.and_eq_true, decide_eq_true_eq] at h
  have absent : ∀ side, boundKind c side tableName timeCol e = .absent →
      side.bound (analyzeForTable c tableName timeCol e) = none := by
    intro side hk
    cases hb : side.bound (analyzeForTable c tableName timeCol e) with
    | none => rfl
    | some b => exact ((analyzeForTable_bound side e b hb).1.ne_absent hk).elim
  have hs := absent .lower h.1
  have he := absent .upper h.2
  rcases hi : analyzeForTable c tableName timeCol e with ⟨s, t⟩
  rw [hi] at hs he
  simp only [Side.bound] at hs he
  rw [hs, he]
  rfl

theorem contains_universe : Interval.universe.Contains c σ d :=
  ⟨nofun, nofun⟩

theorem union_universe_left (i : Interval) : Interval.universe.union c i = .universe := by
  unfold Interval.union
  split_ifs <;> first | rfl | simp_all [Interval.universe, Interval.isEmpty]

theorem union_universe_right (i : Interval) : i.union c Interval.universe = .universe := by
  unfold Interval.union
  split_ifs <;> first | rfl | simp_all [Interval.isUniverse, Interval.universe, Interval.isEmpty]

theorem comparable_of_literal (hs : (c.parse wideScanStart).isSome = true)
    (he : (c.parse wideScanEnd).isSome = true)
    (h : comparesPlaceholder side (analyzeForTable c tableName timeCol left)
      (analyzeForTable c tableName timeCol right) = false) :
    Interval.Comparable c (side.bound (analyzeForTable c tableName timeCol left))
      (side.bound (analyzeForTable c tableName timeCol right)) := by
  intro a b ha hb
  have hpa := (analyzeForTable_bound side left a ha).2 hs he
  have hpb := (analyzeForTable_bound side right b hb).2 hs he
  rw [comparesPlaceholder, ha, hb] at h
  cases a with
  | parameter p => cases h
  | literal p =>
    cases b with
    | parameter q => cases h
    | literal q =>
      obtain ⟨x, hx⟩ := Option.isSome_iff_exists.mp hpa
      obtain ⟨y, hy⟩ := Option.isSome_iff_exists.mp hpb
      exact ⟨p, q, x, y, rfl, rfl, hx, hy⟩

/-- How the acceptance of an expression passes on to its parts, down to the comparisons of the
time column with a bound. -/
structure Acceptance (c : Chrono D) (tableName timeCol : String) (σ : String → D) (d : D)
    (accepts : Expr → Prop) : Prop where
  and : ∀ left right, accepts (.binaryOp left .and right) → accepts left ∧ accepts right
  or : ∀ left right, accepts (.binaryOp left .or right) → accepts left ∨ accepts right
  nested : ∀ inner, accepts (.nested inner) → accepts inner
  between : ∀ expr low high, accepts (.between expr false low high) →
    accepts (.binaryOp expr .gtEq low) ∧ accepts (.binaryOp expr .ltEq high)
  comparison : ∀ left op right op' b, op ≠ .and → op ≠ .or →
    timeComparison c tableName timeCol left op right = some (op', b) →
    accepts (.binaryOp left op right) → (∀ p, b = .parameter p → includesBound op' = false) →
    (comparisonInterval c op' b).Contains c σ d

/-- The interval of a safe expression contains the date of whatever it accepts. -/
theorem Acceptance.contains {accepts : Expr → Prop}
    (rule : Acceptance c tableName timeCol σ d accepts) (hs : (c.parse wideScanStart).isSome = true)
    (he : (c.parse wideScanEnd).isSome = true) (e : Expr)
    (hsafe : placeholderSafe c tableName timeCol e = true) (h : accepts e) :
    (analyzeForTable c tableName timeCol e).Contains c σ d := by
  induction e using analyzeForTable.induct c tableName timeCol with
  | case1 left right hl hr =>
    simp only [placeholderSafe, Bool.or_eq_true, Bool.and_eq_true] at hsafe
    obtain ⟨hleft, hright⟩ := rule.and left right h
    rw [analyzeForTable]
    rcases hsafe with (⟨hsl, hsr⟩ | ⟨hsl, hempty⟩) | ⟨hsr, hempty⟩
    · exact Interval.contains_intersect (hl hsl hleft) (hr hsr hright)
    · rw [Interval.not_isEmpty_of_contains (hl hsl hleft)] at hempty
      cases hempty
    · rw [Interval.not_isEmpty_of_contains (hr hsr hright)] at hempty
      cases hempty
  | case2 left right hl hr =>
    simp only [placeholderSafe, unitesDates, Bool.or_eq_true, Bool.and_eq_true,
      Bool.not_eq_true'] at hsafe
    rw [analyzeForTable]
    rcases hsafe with (hu | hu) | ⟨⟨hsl, hsr⟩, hunites⟩
    · rw [analyzeForTable_unrestricted hu, union_universe_left]
      exact contains_universe
    · rw [analyzeForTable_unrestricted hu, union_universe_right]
      exact contains_universe
    · have compared : ∀ {i j : Interval}, ((i.isEmpty c = true ∨ j.isEmpty c = true) ∨
          comparesPlaceholder .lower i j = false ∧ comparesPlaceholder .upper i j = false) →
          i.isEmpty c = false → j.isEmpty c = false →
          comparesPlaceholder .lower i j = false ∧ comparesPlaceholder .upper i j = false := by
        rintro i j ((h | h) | h) hi hj
        · rw [hi] at h
          cases h
        · rw [hj] at h
          cases h
        · exact h
      apply Interval.contains_union ((rule.or left right h).imp (hl hsl) (hr hsr))
      · exact fun hi hj => comparable_of_literal hs he (compared hunites hi hj).1
      · exact fun hi hj => comparable_of_literal hs he (compared hunites hi hj).2
  | case3 expr low high s e ht =>
    obtain ⟨hls, hle⟩ := timeBetween_some ht
    simp only [placeholderSafe, ht] at hsafe
    obtain ⟨hlow, hhigh⟩ := rule.between expr low high h
    have hstart := rule.comparison _ _ _ _ _ (by decide) (by decide) hls hlow (fun _ _ => rfl)
    have hend := rule.comparison _ _ _ _ _ (by decide) (by decide) hle hhigh
      (fun p hp => by subst hp; cases hsafe)
    rw [analyzeForTable, ht]
    exact ⟨hstart.1, hend.2⟩
  | case5 left op right ha ho op' b ht =>
    rw [placeholderSafe.eq_4 c tableName timeCol left op right ha ho, ht] at hsafe
    rw [analyzeForTable_comparison ha ho, ht]
    apply rule.comparison left op right op' b ha ho ht h
    rintro p rfl
    simpa using hsafe
  | case7 inner ih => exact ih hsafe (rule.nested inner h)
  | case4 | case6 | case8 => simp_all [analyzeForTable, contains_universe]

theorem Row.acceptance {later : D} (hd : d < later) (hh : row.Holds tableName timeCol d) :
    Acceptance c tableName timeCol row.param d (fun e => row.eval c e = some true) where
  and left right h := by simpa only [Row.eval, and3_eq_true] using h
  or left right h := by simpa only [Row.eval, or3_eq_true] using h
  nested inner h := h
  between expr low high h := by
    simpa only [Row.eval, Bool.false_eq_true, if_false, and3_eq_true] using h
  comparison left op right op' b ha ho ht h hparam := by
    rw [Row.eval.eq_6 c row left op right ha ho] at h
    obtain ⟨x, hx, hxd⟩ := timeComparison_date hh ht h
    exact comparisonInterval_contains hx hxd hparam hd

theorem date_boundArg (row : Row D) (default : String) (b : Option DateBound) :
    row.date c (boundArg default b) =
      (b.getD (.literal default)).date c row.param := by
  rcases b with _ | (s | p) <;> rfl

theorem formatDateArgs_ofInterval (i : Interval) :
    formatDateArgs c (.ofInterval i) =
      (boundArg wideScanStart i.start, boundArg wideScanEnd i.end) := by
  rcases i with ⟨s, _ | (t | p)⟩ <;> rfl

theorem inRange_iff : row.InRange c d (formatDateArgs c (.ofInterval i)) ↔
      i.Contains c row.param d ∧ DefaultsCover c i d := by
  have lower : (∃ s, row.date c (boundArg wideScanStart i.start) = some s ∧ s ≤ d) ↔
      i.Below c row.param d ∧ (i.start = none → ∃ s, c.parse wideScanStart = some s ∧ s ≤ d) := by
    rw [date_boundArg]
    cases hs : i.start with
    | none => simp [Interval.Below, hs, DateBound.date]
    | some b => simp [Interval.Below, hs, DateBound.LowerFor]
  have upper : (∃ e, row.date c (boundArg wideScanEnd i.end) = some e ∧ d < e) ↔
      i.Above c row.param d ∧ (i.end = none → ∃ e, c.parse wideScanEnd = some e ∧ d < e) := by
    rw [date_boundArg]
    cases he : i.end with
    | none => simp [Interval.Above, he, DateBound.date]
    | some b => simp [Interval.Above, he, DateBound.UpperFor]
  rw [formatDateArgs_ofInterval]
  constructor
  · rintro ⟨s, e, hs, he, hsd, hde⟩
    obtain ⟨hbelow, hstart⟩ := lower.mp ⟨s, hs, hsd⟩
    obtain ⟨habove, hend⟩ := upper.mp ⟨e, he, hde⟩
    exact ⟨⟨hbelow, habove⟩, hstart, hend⟩
  · rintro ⟨⟨hbelow, habove⟩, hstart, hend⟩
    obtain ⟨s, hs, hsd⟩ := lower.mpr ⟨hbelow, hstart⟩
    obtain ⟨e, he, hde⟩ := upper.mpr ⟨habove, hend⟩
    exact ⟨s, e, hs, he, hsd, hde⟩

theorem defaultsCover_of_inCalendar (hcal : InCalendar c d) (i : Interval) :
    DefaultsCover c i d := by
  obtain ⟨lo, hi, hlo, hhi, hld, hdh⟩ := hcal
  exact ⟨fun _ => ⟨lo, hlo, hld⟩, fun _ => ⟨hi, hhi, hdh⟩⟩

variable (c) in
/-- The defaults of the macro are dates. -/
def DefaultsParsed : Prop :=
  (c.parse wideScanStart).isSome = true ∧ (c.parse wideScanEnd).isSome = true

theorem InCalendar.defaultsParsed (hcal : InCalendar c d) : DefaultsParsed c := by
  obtain ⟨lo, hi, hlo, hhi, -, -⟩ := hcal
  exact ⟨by rw [hlo]; rfl, by rw [hhi]; rfl⟩

theorem InCalendar.later (hcal : InCalendar c d) : ∃ later, d < later := by
  obtain ⟨lo, hi, -, -, -, hd⟩ := hcal
  exact ⟨hi, hd⟩

theorem pruningSound_of_safe (hdefaults : DefaultsParsed c)
    (h : placeholderSafe c tableName timeCol e = true) : PruningSound c tableName timeCol e := by
  rintro row d ⟨later, hlater⟩ hcover hh htrue
  exact inRange_iff.mpr
    ⟨(Row.acceptance hlater hh).contains hdefaults.1 hdefaults.2 e h htrue, hcover⟩

/-! ## Expressions without placeholders -/

theorem between_free {expr low high : Expr} {negated : Bool}
    (hf : placeholderFree (.between expr negated low high) = true) :
    placeholderFree (.binaryOp expr .gtEq low) = true ∧
      placeholderFree (.binaryOp expr .ltEq high) = true := by
  simp only [placeholderFree, Bool.and_eq_true] at hf ⊢
  exact ⟨hf.1, hf.1.1, hf.2⟩

theorem boundKind_free (side : Side) (e : Expr) (hf : placeholderFree e = true) :
    boundKind c side tableName timeCol e ≠ .placeholder := by
  induction e using analyzeForTable.induct c tableName timeCol with
  | case1 left right hl hr | case2 left right hl hr =>
    simp only [placeholderFree, Bool.and_eq_true] at hf
    have hl := hl hf.1
    have hr := hr hf.2
    rw [boundKind]
    revert hl hr
    cases boundKind c side tableName timeCol left <;>
      cases boundKind c side tableName timeCol right <;> simp [BoundKind.either, BoundKind.both]
  | case3 expr low high s e ht =>
    obtain ⟨hs, he⟩ := timeBetween_some ht
    obtain ⟨hfs, hfe⟩ := between_free hf
    rw [boundKind, ht]
    cases side with
    | lower => simp [Side.pick, timeComparison_free hfs hs]
    | upper => simp [Side.pick, timeComparison_free hfe he]
  | case5 left op right ha ho op' b ht =>
    rw [boundKind_comparison ha ho, ht]
    simp only [timeComparison_free hf ht]
    split_ifs <;> exact nofun
  | case7 inner ih => exact ih hf
  | case4 | case6 | case8 => simp_all [boundKind]

theorem bound_free (hf : placeholderFree e = true)
    (h : side.bound (analyzeForTable c tableName timeCol e) = some b) : ∃ s, b = .literal s := by
  rcases (analyzeForTable_bound side e b h).1 with hk | hk
  · cases b with
    | literal s => exact ⟨s, rfl⟩
    | parameter p => exact absurd hk (boundKind_free side e hf)
  · exact absurd hk (boundKind_free side e hf)

theorem placeholderSafe_of_free (e : Expr) (hf : placeholderFree e = true) :
    placeholderSafe c tableName timeCol e = true := by
  induction e using analyzeForTable.induct c tableName timeCol with
  | case1 left right hl hr =>
    simp only [placeholderFree, Bool.and_eq_true] at hf
    simp [placeholderSafe, hl hf.1, hr hf.2]
  | case2 left right hl hr =>
    simp only [placeholderFree, Bool.and_eq_true] at hf
    have compares : ∀ side, comparesPlaceholder side (analyzeForTable c tableName timeCol left)
        (analyzeForTable c tableName timeCol right) = false := by
      intro side
      rw [comparesPlaceholder]
      cases ha : side.bound (analyzeForTable c tableName timeCol left) with
      | none => rfl
      | some a =>
        obtain ⟨s, rfl⟩ := bound_free hf.1 ha
        cases hb : side.bound (analyzeForTable c tableName timeCol right) with
        | none => rfl
        | some b =>
          obtain ⟨t, rfl⟩ := bound_free hf.2 hb
          rfl
    simp [placeholderSafe, unitesDates, hl hf.1, hr hf.2, compares]
  | case3 expr low high s e ht =>
    have he := timeComparison_free (between_free hf).2 (timeBetween_some ht).2
    cases e with
    | literal t => simp [placeholderSafe, ht]
    | parameter p => cases he
  | case5 left op right ha ho op' b ht =>
    have hb := timeComparison_free hf ht
    rw [placeholderSafe.eq_4 c tableName timeCol left op right ha ho, ht]
    cases b with
    | literal t => rfl
    | parameter p => cases hb
  | case7 inner ih => exact ih hf
  | case4 | case6 | case8 => simp_all [placeholderSafe]

/-- A row that holds one dated record and whose placeholders all have that date. -/
def sameDayRow (tableName timeCol : String) (d : D) : Row D where
  column e := if isTimeColumnRef tableName timeCol e then some d else none
  param _ := d
  truth _ := none

omit [LinearOrder D] in
theorem sameDayRow_holds (d : D) : (sameDayRow tableName timeCol d).Holds tableName timeCol d := by
  intro e he
  simp [sameDayRow, he]

/-- Pruning by literal dates loses no record: when the expression is true on a
joined row, the record's date is in the emitted range. -/
theorem literal_pruning_sound (e : Expr) (hf : placeholderFree e = true) (row : Row D) (d : D)
    (hcal : InCalendar c d) (hrow : row.Holds tableName timeCol d)
    (htrue : row.eval c e = some true) : row.InRange c d (macroArgs c tableName timeCol e) :=
  pruningSound_of_safe hcal.defaultsParsed (placeholderSafe_of_free e hf) row d hcal.later
    (defaultsCover_of_inCalendar hcal _) hrow htrue

def dtColumn : Expr := .identifier ⟨"dt", none⟩

def lastDay : CivilDate.Date := ⟨2024, 6, 1, by decide⟩

theorem lastDay_inCalendar : InCalendar gregorian lastDay :=
  ⟨⟨1970, 1, 1, by decide⟩, ⟨9999, 12, 31, by decide⟩, by decide, by decide, by decide, by decide⟩

/-- `(NOT flag OR (sales.dt BETWEEN DATE '2024-05-01' AND '2024-06-01')) AND
'2024-05-20' < dt`, with `flag` unknown, on the last day of the range. -/
theorem literal_pruning_sound_last_day :
    (sameDayRow "sales" "dt" lastDay).InRange gregorian lastDay
      (macroArgs gregorian "sales" "dt"
        (.binaryOp
          (.binaryOp (.unaryOp .not (.identifier ⟨"flag", none⟩)) .or
            (.nested (.between (.compoundIdentifier [⟨"sales", none⟩, ⟨"dt", none⟩]) false
              (createDateLiteral "2024-05-01") (.value (.singleQuotedString "2024-06-01")))))
          .and (.binaryOp (.value (.singleQuotedString "2024-05-20")) .lt dtColumn))) :=
  literal_pruning_sound _ (by decide) _ _ lastDay_inCalendar (sameDayRow_holds _) (by decide)

/-! ## Expressions with placeholders -/

/-- A placeholder compared with the time column is pruned soundly exactly when
it is not itself the last day. -/
theorem comparison_sound_iff {col : Expr} {p : String} (hcal : ∃ d, InCalendar c d)
    (hcol : isTimeColumnRef tableName timeCol col = true)
    (hop : op ∈ [.eq, .lt, .ltEq, .gt, .gtEq]) :
    PruningSound c tableName timeCol (.binaryOp col op (.value (.placeholder p))) ↔
      placeholderSafe c tableName timeCol (.binaryOp col op (.value (.placeholder p))) = true := by
  have ha : op ≠ .and := by rintro rfl; simp at hop
  have ho : op ≠ .or := by rintro rfl; simp at hop
  have ht : timeComparison c tableName timeCol col op (.value (.placeholder p)) =
      some (op, .parameter p) := by
    simp [timeComparison, hcol, extractDateBound]
  obtain ⟨d, hd⟩ := hcal
  refine ⟨fun hsound => ?_, pruningSound_of_safe hd.defaultsParsed⟩
  rw [placeholderSafe.eq_4 c tableName timeCol _ op _ ha ho, ht]
  by_contra hinc
  simp only [Bool.not_eq_true', Bool.not_eq_false] at hinc
  have hh : (sameDayRow tableName timeCol d).Holds tableName timeCol d := sameDayRow_holds d
  obtain ⟨hc, hdate⟩ := timeColumn_date (c := c) hh hcol
  have htrue : (sameDayRow tableName timeCol d).eval c
      (.binaryOp col op (.value (.placeholder p))) = some true := by
    rw [Row.eval.eq_6 c _ col op _ ha ho]
    have hp : (sameDayRow tableName timeCol d).date c (.value (.placeholder p)) = some d := rfl
    cases op <;> simp_all [includesBound, Row.comparison, compareDates]
  -- the emitted end is the placeholder itself, which excludes its own date
  obtain ⟨s, e, -, he, -, hde⟩ :=
    hsound _ d hd.later (defaultsCover_of_inCalendar hd _) hh htrue
  have hend : (macroArgs c tableName timeCol (.binaryOp col op (.value (.placeholder p)))).2 =
      .value (.placeholder p) := by
    unfold macroArgs
    rw [analyzeForTable_comparison ha ho, ht]
    cases op <;> first | rfl | cases hinc
  rw [hend] at he
  cases he
  exact lt_irrefl d hde

/-- Every safe expression is pruned soundly, whatever dates the placeholders get; what lies outside
the defaults of an open side is always lost, and among single comparisons of the time column the
safe ones are the sound ones. -/
theorem placeholder_pruning_sound (hcal : ∃ d, InCalendar c d) :
    (∀ e, placeholderSafe c tableName timeCol e = true → PruningSound c tableName timeCol e) ∧
      (∀ e (row : Row D) d, row.InRange c d (macroArgs c tableName timeCol e) →
        DefaultsCover c (analyzeForTable c tableName timeCol e) d) ∧
      ∀ col op p, isTimeColumnRef tableName timeCol col = true →
        op ∈ [.eq, .lt, .ltEq, .gt, .gtEq] →
        PruningSound c tableName timeCol (.binaryOp col op (.value (.placeholder p))) →
        placeholderSafe c tableName timeCol (.binaryOp col op (.value (.placeholder p))) = true :=
  ⟨fun _ => pruningSound_of_safe hcal.choose_spec.defaultsParsed,
    fun _ _ _ h => (inRange_iff.mp h).2,
    fun _ _ _ hcol hop => (comparison_sound_iff hcal hcol hop).mp⟩

/-- `dt > '2024-01-02' AND dt < '2024-01-01'`. -/
def noDay : Expr :=
  .binaryOp (.binaryOp dtColumn .gt (.value (.singleQuotedString "2024-01-02"))) .and
    (.binaryOp dtColumn .lt (.value (.singleQuotedString "2024-01-01")))

/-- `dt < $1 AND dt >= '2024-01-01'` is safe, as is `dt >= $1` beside a branch without a day, and
`dt > $1` is safe because it is sound. -/
theorem placeholder_pruning_sound_exclusive :
    PruningSound gregorian "sales" "dt"
        (.binaryOp (.binaryOp dtColumn .lt (createPlaceholder "$1")) .and
          (.binaryOp dtColumn .gtEq (.value (.singleQuotedString "2024-01-01")))) ∧
      PruningSound gregorian "sales" "dt"
        (.binaryOp (.binaryOp dtColumn .gtEq (createPlaceholder "$1")) .or (.nested noDay)) ∧
      placeholderSafe gregorian "sales" "dt" (.binaryOp dtColumn .gt (createPlaceholder "$1"))
        = true :=
  have h := @placeholder_pruning_sound _ _ gregorian "sales" "dt" ⟨lastDay, lastDay_inCalendar⟩
  ⟨h.1 _ (by decide), h.1 _ (by decide),
    h.2.2 dtColumn .gt "$1" (by decide) (by decide) (h.1 _ (by decide))⟩

/-- `dt >= '2025-01-01' OR dt >= $1`. -/
def literalOrPlaceholder : Expr :=
  .binaryOp (.binaryOp dtColumn .gtEq (.value (.singleQuotedString "2025-01-01"))) .or
    (.binaryOp dtColumn .gtEq (createPlaceholder "$1"))

/-- `dt = $1` prunes the very day it selects, and a disjunction of a literal with
a placeholder prunes by the literal alone. -/
theorem placeholder_pruning_unsound :
    ¬ PruningSound gregorian "sales" "dt" (.binaryOp dtColumn .eq (createPlaceholder "$1")) ∧
      ¬ PruningSound gregorian "sales" "dt" literalOrPlaceholder := by
  constructor
  · intro h
    obtain ⟨s, e, -, he, -, hlt⟩ := h (sameDayRow "sales" "dt" lastDay) lastDay
      lastDay_inCalendar.later (defaultsCover_of_inCalendar lastDay_inCalendar _)
      (sameDayRow_holds _) (by decide)
    have he' : some lastDay = some e := he
    cases he'
    exact lt_irrefl _ hlt
  · intro h
    obtain ⟨s, e, hs, -, hle, -⟩ := h (sameDayRow "sales" "dt" lastDay) lastDay
      lastDay_inCalendar.later (defaultsCover_of_inCalendar lastDay_inCalendar _)
      (sameDayRow_holds _) (by decide)
    have hs' : some s = some (⟨2025, 1, 1, by decide⟩ : CivilDate.Date) := hs.symm.trans (by decide)
    cases hs'
    exact absurd hle (by decide)

end
end Leibrix.SqlPruning
