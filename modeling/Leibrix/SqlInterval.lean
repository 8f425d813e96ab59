import Mathlib.Order.Basic
import Mathlib.Order.Lattice
import Leibrix.CivilDate

/-!
# Interval algebra for date ranges

Bounds are date literals, compared by the date they denote, or placeholders, which have no
date until the query runs. An interval is half open and an absent bound is infinite. The
operations only ever see the bounds' text. Intersection is sound for every assignment of
dates to placeholders, because it keeps one of the two bounds on each side. The union has to
keep the weaker bound, so it is sound only when the order it compares by is the order of
the dates.
-/

set_option autoImplicit false

namespace Leibrix.SqlInterval

/-- What the SQL module uses of the `chrono` crate at format `%Y-%m-%d`:
`NaiveDate::parse_from_str`, `succ_opt` and `format`, with the behaviour
documented for them. -/
structure Chrono (D : Type) [LinearOrder D] where
  parse : String → Option D
  succOpt : D → Option D
  format : D → String
  parse_format : ∀ d, parse (format d) = some d
  succ_covers : ∀ d e, succOpt d = some e → d < e ∧ ∀ x, d < x → e ≤ x
  succ_none : ∀ d, succOpt d = none → ∀ x, x ≤ d

def gregorian : Chrono CivilDate.Date where
  parse := CivilDate.parse
  succOpt := CivilDate.Date.succ
  format := CivilDate.format
  parse_format := CivilDate.parse_format
  succ_covers := CivilDate.Date.succ_covers
  succ_none := CivilDate.Date.succ_none

inductive DateBound where
  | literal (s : String)
  | parameter (p : String)
  deriving DecidableEq

structure Interval where
  start : Option DateBound
  «end» : Option DateBound
  deriving DecidableEq

section
variable {D : Type} [LinearOrder D] (c : Chrono D)

/-- `Ord for DateBound`: literals by date when both parse, else by text;
every literal before every placeholder; placeholders by name. -/
def DateBound.cmp : DateBound → DateBound → Ordering
  | .literal a, .literal b =>
    match c.parse a, c.parse b with
    | some x, some y => compare x y
    | _, _ => compare a b
  | .literal _, .parameter _ => .lt
  | .parameter _, .literal _ => .gt
  | .parameter a, .parameter b => compare a b

variable (a b : DateBound)

/-- `std::cmp::max`, which returns the second argument on a tie. -/
def maxBound : DateBound := if a.cmp c b = .gt then a else b

/-- `std::cmp::min`, which returns the first argument on a tie. -/
def minBound : DateBound := if a.cmp c b = .gt then b else a

def addOneDay : DateBound → DateBound
  | .literal s =>
    match (c.parse s).bind c.succOpt with
    | some d => .literal (c.format d)
    | none => .literal s
  | .parameter p => .parameter p

namespace Interval

def empty : Interval := ⟨some (.literal "9999-12-31"), some (.literal "1970-01-01")⟩

def «universe» : Interval := ⟨none, none⟩

def point (date : DateBound) : Interval := ⟨some date, some (addOneDay c date)⟩

def fromBounds (start stop : Option DateBound) : Interval := ⟨start, stop⟩

def isEmpty (i : Interval) : Bool :=
  match i.start, i.end with
  | some (.literal s), some (.literal e) =>
    match c.parse s, c.parse e with
    | some x, some y => decide (y ≤ x)
    | _, _ => false
  | _, _ => false

def isUniverse (i : Interval) : Bool := i.start.isNone && i.end.isNone

variable (pick : DateBound → DateBound → DateBound)

def tighter : Option DateBound → Option DateBound → Option DateBound
  | none, s => s
  | s, none => s
  | some a, some b => some (pick a b)

def wider : Option DateBound → Option DateBound → Option DateBound
  | none, _ | _, none => none
  | some a, some b => some (pick a b)

def intersect (i j : Interval) : Interval :=
  if i.isEmpty c || j.isEmpty c then empty
  else ⟨tighter (maxBound c) i.start j.start, tighter (minBound c) i.end j.end⟩

def union (i j : Interval) : Interval :=
  if i.isEmpty c then j
  else if j.isEmpty c then i
  else if i.isUniverse || j.isUniverse then «universe»
  else ⟨wider (minBound c) i.start j.start, wider (maxBound c) i.end j.end⟩

end Interval

/-- The date of a bound once the placeholders have values. -/
def DateBound.date (σ : String → D) : DateBound → Option D
  | .literal s => c.parse s
  | .parameter p => some (σ p)

def DateBound.LowerFor (σ : String → D) (d : D) (b : DateBound) : Prop :=
  ∃ x, b.date c σ = some x ∧ x ≤ d

def DateBound.UpperFor (σ : String → D) (d : D) (b : DateBound) : Prop :=
  ∃ x, b.date c σ = some x ∧ d < x

def DateBound.Parsed : DateBound → Prop
  | .literal s => (c.parse s).isSome = true
  | .parameter _ => True

namespace Interval

def Below (σ : String → D) (d : D) (i : Interval) : Prop :=
  ∀ b, i.start = some b → b.LowerFor c σ d

def Above (σ : String → D) (d : D) (i : Interval) : Prop :=
  ∀ b, i.end = some b → b.UpperFor c σ d

def Contains (σ : String → D) (d : D) (i : Interval) : Prop := i.Below c σ d ∧ i.Above c σ d

/-- Two bounds whose comparison is the comparison of their dates. -/
def Comparable (s t : Option DateBound) : Prop :=
  ∀ a b, s = some a → t = some b →
    ∃ p q x y, a = .literal p ∧ b = .literal q ∧ c.parse p = some x ∧ c.parse q = some y

end Interval

variable {c}

theorem maxBound_cases : maxBound c a b = a ∨ maxBound c a b = b := by
  unfold maxBound
  split_ifs
  · exact Or.inl rfl
  · exact Or.inr rfl

theorem minBound_cases : minBound c a b = a ∨ minBound c a b = b := by
  unfold minBound
  split_ifs
  · exact Or.inr rfl
  · exact Or.inl rfl

theorem addOneDay_parsed (b : DateBound) (h : b.Parsed c) : (addOneDay c b).Parsed c := by
  cases b with
  | parameter p => trivial
  | literal s =>
    simp only [addOneDay]
    split
    · simp [DateBound.Parsed, c.parse_format]
    · exact h

theorem addOneDay_upper (s : String) (σ : String → D) (d x h : D) (hx : c.parse s = some x)
    (hd : d ≤ x) (hh : d < h) : (addOneDay c (.literal s)).UpperFor c σ d := by
  simp only [addOneDay, hx, Option.bind_some]
  cases hs : c.succOpt x with
  | some y => exact ⟨y, c.parse_format y, lt_of_le_of_lt hd (c.succ_covers x y hs).1⟩
  | none => exact ⟨x, hx, lt_of_lt_of_le hh (c.succ_none x hs h)⟩

theorem addOneDay_lower (b : DateBound) (σ : String → D) (d x : D) (hx : b.date c σ = some x)
    (hd : x < d) : (addOneDay c b).LowerFor c σ d := by
  cases b with
  | parameter p => exact ⟨x, hx, le_of_lt hd⟩
  | literal s =>
    simp only [DateBound.date] at hx
    simp only [addOneDay, hx, Option.bind_some]
    cases hs : c.succOpt x with
    | some y => exact ⟨y, c.parse_format y, (c.succ_covers x y hs).2 d hd⟩
    | none => exact ⟨x, hx, le_of_lt hd⟩

namespace Interval

theorem not_isEmpty_of_contains {i : Interval} {σ : String → D} {d : D}
    (h : i.Contains c σ d) : i.isEmpty c = false := by
  unfold isEmpty
  split
  · rename_i s e hs he
    obtain ⟨x, hx, hxd⟩ := h.1 _ hs
    obtain ⟨y, hy, hdy⟩ := h.2 _ he
    simp only [DateBound.date] at hx hy
    simp only [hx, hy, decide_eq_false_iff_not, not_le]
    exact lt_of_le_of_lt hxd hdy
  · rfl

theorem tighter_cases {pick : DateBound → DateBound → DateBound}
    (hp : ∀ a b, pick a b = a ∨ pick a b = b) {s t : Option DateBound} {b : DateBound}
    (h : tighter pick s t = some b) : s = some b ∨ t = some b := by
  cases s with
  | none => exact Or.inr h
  | some x =>
    cases t with
    | none => exact Or.inl h
    | some y =>
      rcases hp x y with he | he <;> simp only [tighter, he] at h
      · exact Or.inl h
      · exact Or.inr h

theorem contains_intersect {i j : Interval} {σ : String → D} {d : D}
    (hi : i.Contains c σ d) (hj : j.Contains c σ d) : (i.intersect c j).Contains c σ d := by
  unfold intersect
  rw [not_isEmpty_of_contains hi, not_isEmpty_of_contains hj]
  simp only [Bool.or_self, Bool.false_eq_true, if_false]
  constructor
  · intro b hb
    rcases tighter_cases maxBound_cases hb with h | h
    · exact hi.1 b h
    · exact hj.1 b h
  · intro b hb
    rcases tighter_cases minBound_cases hb with h | h
    · exact hi.2 b h
    · exact hj.2 b h

variable {a b : String} {x y : D} (ha : c.parse a = some x) (hb : c.parse b = some y)
  (σ : String → D)
include ha hb σ

theorem maxBound_date : (maxBound c (.literal a) (.literal b)).date c σ = some (max x y) := by
  simp only [maxBound, DateBound.cmp, ha, hb, compare_gt_iff_gt]
  split_ifs with h
  · rw [DateBound.date, ha, max_eq_left h.le]
  · rw [DateBound.date, hb, max_eq_right (not_lt.mp h)]

theorem minBound_date : (minBound c (.literal a) (.literal b)).date c σ = some (min x y) := by
  simp only [minBound, DateBound.cmp, ha, hb, compare_gt_iff_gt]
  split_ifs with h
  · rw [DateBound.date, hb, min_eq_right h.le]
  · rw [DateBound.date, ha, min_eq_left (not_lt.mp h)]

omit ha hb σ

theorem wider_some {pick : DateBound → DateBound → DateBound} {s t : Option DateBound}
    {b : DateBound} (h : wider pick s t = some b) :
    ∃ x y, s = some x ∧ t = some y ∧ b = pick x y := by
  cases s with
  | none => cases h
  | some x =>
    cases t with
    | none => cases h
    | some y => exact ⟨x, y, rfl, rfl, (Option.some.inj h).symm⟩

/-- An absent bound, or one whose date is as it should be. -/
def Admits (c : Chrono D) (σ : String → D) (P : D → Prop) (s : Option DateBound) : Prop :=
  ∀ b, s = some b → ∃ x, b.date c σ = some x ∧ P x

variable {σ : String → D}

theorem date_literal {s : String} {x : D} (h : c.parse s = some x) :
    (DateBound.literal s).date c σ = some x := h

section Picks

variable {P : D → Prop} {s t : Option DateBound} {pick : DateBound → DateBound → DateBound}
  {f : D → D → D}
  (hpick : ∀ a b x y, c.parse a = some x → c.parse b = some y →
    (pick (.literal a) (.literal b)).date c σ = some (f x y))
  (hst : Comparable c s t)
include hpick hst

theorem admits_tighter (hP : ∀ x y, P (f x y) ↔ P x ∧ P y) :
    Admits c σ P (tighter pick s t) ↔ Admits c σ P s ∧ Admits c σ P t := by
  cases s with
  | none => simp [tighter, Admits]
  | some a =>
    cases t with
    | none => simp [tighter, Admits]
    | some b =>
      obtain ⟨p, q, x, y, rfl, rfl, hx, hy⟩ := hst a b rfl rfl
      simp [tighter, Admits, hpick p q x y hx hy, hP, date_literal hx, date_literal hy]

theorem admits_wider (hP : ∀ x y, P (f x y) ↔ P x ∨ P y) :
    Admits c σ P (wider pick s t) ↔ Admits c σ P s ∨ Admits c σ P t := by
  cases s with
  | none => simp [wider, Admits]
  | some a =>
    cases t with
    | none => simp [wider, Admits]
    | some b =>
      obtain ⟨p, q, x, y, rfl, rfl, hx, hy⟩ := hst a b rfl rfl
      simp [wider, Admits, hpick p q x y hx hy, hP, date_literal hx, date_literal hy]

end Picks

variable {i j : Interval} {d : D}

/-- Of two intervals that are not empty the union has every date that lies past a start and before
an end, if the bounds it compares are dates. -/
theorem contains_union_iff (hi : i.isEmpty c = false) (hj : j.isEmpty c = false)
    (hs : Comparable c i.start j.start) (he : Comparable c i.end j.end) :
    (i.union c j).Contains c σ d ↔
      (i.Below c σ d ∨ j.Below c σ d) ∧ (i.Above c σ d ∨ j.Above c σ d) := by
  simp only [union, hi, hj, Bool.false_eq_true, if_false]
  split_ifs with huniverse
  · have absent : (i.start = none ∧ i.end = none) ∨ (j.start = none ∧ j.end = none) := by
      simpa [isUniverse] using huniverse
    rcases absent with ⟨hs, he⟩ | ⟨hs, he⟩ <;>
      simp [Contains, Below, Above, «universe», hs, he]
  · exact and_congr
      (admits_wider (fun _ _ _ _ ha hb => minBound_date ha hb σ) hs fun _ _ => min_le_iff)
      (admits_wider (fun _ _ _ _ ha hb => maxBound_date ha hb σ) he fun _ _ => lt_max_iff)

/-- The union covers both operands when the bounds it compares are dates. -/
theorem contains_union (h : i.Contains c σ d ∨ j.Contains c σ d)
    (hs : i.isEmpty c = false → j.isEmpty c = false → Comparable c i.start j.start)
    (he : i.isEmpty c = false → j.isEmpty c = false → Comparable c i.end j.end) :
    (i.union c j).Contains c σ d := by
  cases hi : i.isEmpty c with
  | true =>
    rcases h with h | h
    · rw [not_isEmpty_of_contains h] at hi
      cases hi
    · simpa [union, hi] using h
  | false =>
    cases hj : j.isEmpty c with
    | true =>
      rcases h with h | h
      · simpa [union, hi, hj] using h
      · rw [not_isEmpty_of_contains h] at hj
        cases hj
    | false =>
      rw [contains_union_iff hi hj (hs hi hj) (he hi hj)]
      exact ⟨h.imp And.left And.left, h.imp And.right And.right⟩

end Interval
end
end Leibrix.SqlInterval
