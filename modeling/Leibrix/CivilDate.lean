import Mathlib.Order.Basic
import Mathlib.Order.Lattice
import Mathlib.Algebra.Order.Ring.Int
import Mathlib.Tactic.IntervalCases
import Mathlib.Tactic.Ring

/-!
# Civil dates of the proleptic Gregorian calendar

A date carries the proof that it exists. The calendar is bounded on both sides, so the last
day has no successor. Dates are written `YYYY-MM-DD`, with a sign in front of a year outside
`0..9999`, and read back by the rules of a numeric date parser: at most four digits for an
unsigned year, at most two for a month or a day, nothing after the day. Leading blanks are
not read here.
-/

set_option autoImplicit false

namespace Leibrix.CivilDate
open List Option

def minYear : Int := -262143

def maxYear : Int := 262142

def isLeap (y : Int) : Bool := y % 4 == 0 && (y % 100 != 0 || y % 400 == 0)

def daysInMonth (y : Int) (m : Nat) : Nat :=
  if m = 2 then (if isLeap y then 29 else 28)
  else if m = 4 ∨ m = 6 ∨ m = 9 ∨ m = 11 then 30 else 31

theorem daysInMonth_pos (y : Int) (m : Nat) : 1 ≤ daysInMonth y m := by
  unfold daysInMonth
  split_ifs <;> decide

theorem daysInMonth_le (y : Int) (m : Nat) : daysInMonth y m ≤ 31 := by
  unfold daysInMonth
  split_ifs <;> decide

def Valid (y : Int) (m d : Nat) : Prop :=
  minYear ≤ y ∧ y ≤ maxYear ∧ 1 ≤ m ∧ m ≤ 12 ∧ 1 ≤ d ∧ d ≤ daysInMonth y m

instance (y : Int) (m d : Nat) : Decidable (Valid y m d) :=
  inferInstanceAs (Decidable (_ ∧ _ ∧ _ ∧ _ ∧ _ ∧ _))

structure Date where
  year : Int
  month : Nat
  day : Nat
  valid : Valid year month day
  deriving DecidableEq

variable (d : Date)

def Date.rank : Int := d.year*512+d.month*32+d.day

theorem Date.bounds : 1 ≤ d.month ∧ d.month ≤ 12 ∧ 1 ≤ d.day ∧ d.day ≤ 31 := by
  obtain ⟨_, _, hm, hm', hd, hd'⟩ := d.valid
  exact ⟨hm, hm', hd, hd'.trans (daysInMonth_le _ _)⟩

theorem Date.rank_injective : Function.Injective Date.rank := by
  intro a b h
  have ha := a.bounds
  have hb := b.bounds
  simp only [Date.rank] at h
  have hy : a.year = b.year := by omega
  have hm : a.month = b.month := by omega
  have hd : a.day = b.day := by omega
  cases a
  cases b
  simp_all

instance : LinearOrder Date := LinearOrder.lift' Date.rank Date.rank_injective

theorem Date.le_iff (a b : Date) : a ≤ b ↔ a.rank ≤ b.rank := Iff.rfl

theorem Date.lt_iff (a b : Date) : a < b ↔ a.rank < b.rank := by
  rw [← not_le, ← not_le, Date.le_iff]

/-- The following day, or nothing after the last day of the calendar. -/
def Date.succ : Option Date :=
  if hd : d.day < daysInMonth d.year d.month then
    some ⟨d.year, d.month, d.day+1, by
      obtain ⟨h1, h2, h3, h4, _, _⟩ := d.valid
      exact ⟨h1, h2, h3, h4, by omega, by omega⟩⟩
  else if hm : d.month < 12 then
    some ⟨d.year, d.month+1, 1, by
      obtain ⟨h1, h2, h3, _, _, _⟩ := d.valid
      exact ⟨h1, h2, by omega, by omega, le_refl _, daysInMonth_pos _ _⟩⟩
  else if hy : d.year < maxYear then
    some ⟨d.year+1, 1, 1, by
      obtain ⟨h1, _, _, _, _, _⟩ := d.valid
      exact ⟨by omega, by omega, le_refl _, by decide, le_refl _, daysInMonth_pos _ _⟩⟩
  else none

theorem Date.succ_covers (d e : Date) (h : d.succ = some e) : d < e ∧ ∀ x, d < x → e ≤ x := by
  have hd := d.bounds
  simp only [Date.lt_iff, Date.le_iff]
  unfold Date.succ at h
  split_ifs at h with h1 h2 h3 <;> cases h <;>
    refine ⟨by simp only [Date.rank]; omega, fun x hx => ?_⟩
  · simp only [Date.rank] at *
    omega
  -- A later date of the same month would be past the month's last day.
  all_goals
    have hb := x.bounds
    have hv := x.valid.2.2.2.2.2
    simp only [Date.rank] at *
    by_cases hs : x.year = d.year ∧ x.month = d.month
    · rw [hs.1, hs.2] at hv
      omega
    · omega

theorem Date.succ_none (h : d.succ = none) (x : Date) : x ≤ d := by
  have hd := d.bounds
  have hb := x.bounds
  have hv := x.valid
  unfold Date.succ at h
  split_ifs at h with h1 h2 h3
  rw [Date.le_iff]
  simp only [Date.rank]
  have hy : x.year ≤ d.year := by
    have := hv.2.1
    omega
  by_cases hs : x.year = d.year ∧ x.month = d.month
  · have := hv.2.2.2.2.2
    rw [hs.1, hs.2] at this
    omega
  · omega

variable (n : Nat)

def digit : Char := Char.ofNat (48+n)

def digitValue (c : Char) : Option Nat :=
  if 48 ≤ c.toNat ∧ c.toNat ≤ 57 then some (c.toNat-48) else none

theorem digitValue_digit (h : n < 10) : digitValue (digit n) = some n := by
  interval_cases n <;> rfl

/-- The last `w` decimal digits of a number, padded with zeros. -/
def digits : Nat → Nat → List Char
  | 0, _ => []
  | w+1, n => digits w (n/10) ++ [digit (n%10)]

/-- Reads digits greedily, at most `w` of them. -/
def scan : Nat → Nat → List Char → Nat × List Char
  | 0, acc, cs => (acc, cs)
  | _+1, acc, [] => (acc, [])
  | w+1, acc, c::cs =>
    match digitValue c with
    | some v => scan w (10*acc+v) cs
    | none => (acc, c::cs)

theorem scan_digits (w k n acc : Nat) (rest : List Char) (h : n < 10^w) :
    scan (w+k) acc (digits w n ++ rest) = scan k (acc*10^w+n) rest := by
  induction w generalizing n acc k rest with
  | zero =>
    have hn : n = 0 := by simpa using h
    simp [digits, hn]
  | succ w ih =>
    have hq : n/10 < 10^w := by
      rw [pow_succ] at h
      omega
    have hr : n%10 < 10 := Nat.mod_lt _ (by decide)
    rw [digits, append_assoc, show w+1+k = w+(k+1) by omega, ih _ _ _ _ hq]
    simp only [singleton_append, scan, digitValue_digit _ hr]
    congr 1
    have hn := Nat.div_add_mod n 10
    rw [pow_succ, ← hn]
    simp only [Nat.mul_add_div (by decide : 0 < 10), Nat.mul_add_mod]
    generalize n/10 = q at *
    generalize n%10 = r at *
    have hz : r/10 = 0 := Nat.div_eq_of_lt hr
    have hm : r%10 = r := Nat.mod_eq_of_lt hr
    rw [hz, hm]
    ring

theorem scan_stop (w acc : Nat) (cs : List Char) : scan w acc ('-'::cs) = (acc, '-'::cs) := by
  cases w <;> rfl

def number (w : Nat) : List Char → Option (Nat × List Char)
  | [] => none
  | c::cs => if (digitValue c).isSome then some (scan w 0 (c::cs)) else none

theorem digits_head (w n : Nat) : ∃ v cs, v < 10 ∧ digits (w+1) n = digit v::cs := by
  induction w generalizing n with
  | zero => exact ⟨n%10, [], Nat.mod_lt _ (by decide), rfl⟩
  | succ w ih =>
    obtain ⟨v, cs, hv, hc⟩ := ih (n/10)
    exact ⟨v, cs ++ [digit (n%10)], hv, by rw [digits, hc]; rfl⟩

theorem number_digits (w k n : Nat) (rest : List Char) (h : n < 10^(w+1)) :
    number (w+1+k) (digits (w+1) n ++ rest) = some (scan k n rest) := by
  obtain ⟨v, cs, hv, hc⟩ := digits_head w n
  have hs := scan_digits (w+1) k n 0 rest h
  rw [hc, cons_append] at hs ⊢
  simp only [number, digitValue_digit v hv, isSome_some, if_true, hs]
  simp

def yearWidth : Nat := if n < 10000 then 3 else if n < 100000 then 4 else 5

def formatYear (y : Int) : List Char :=
  if y < 0 then '-'::digits (yearWidth y.natAbs+1) y.natAbs
  else if 10000 ≤ y then '+'::digits (yearWidth y.natAbs+1) y.natAbs
  else digits 4 y.natAbs

def format : String :=
  String.ofList (formatYear d.year ++ '-'::(digits 2 d.month ++ '-'::digits 2 d.day))

def mk? (y : Int) (m d : Nat) : Option Date :=
  if h : Valid y m d then some ⟨y, m, d, h⟩ else none

def parseYear : List Char → Option (Int × List Char)
  | '-'::cs => (number cs.length cs).map fun r => (-(r.1 : Int), r.2)
  | '+'::cs => (number cs.length cs).map fun r => ((r.1 : Int), r.2)
  | cs => (number 4 cs).map fun r => ((r.1 : Int), r.2)

def parseDay (y : Int) (m : Nat) (cs : List Char) : Option Date :=
  match number 2 cs with
  | some (d, []) => mk? y m d
  | _ => none

def parseMonth (y : Int) (cs : List Char) : Option Date :=
  match number 2 cs with
  | some (m, '-'::rest) => parseDay y m rest
  | _ => none

def parse (s : String) : Option Date :=
  match parseYear s.toList with
  | some (y, '-'::rest) => parseMonth y rest
  | _ => none

theorem mk?_self : mk? d.year d.month d.day = some d := by
  simp [mk?, d.valid]

theorem parseDay_digits (y : Int) (m d : Nat) (h : d < 100) :
    parseDay y m (digits 2 d) = mk? y m d := by
  have hn := number_digits 1 0 d [] (by omega)
  rw [append_nil] at hn
  simp only [parseDay, hn, scan]

theorem parseMonth_digits (y : Int) (m d : Nat) (hm : m < 100) (hd : d < 100) :
    parseMonth y (digits 2 m ++ '-'::digits 2 d) = mk? y m d := by
  have hn := number_digits 1 0 m ('-'::digits 2 d) (by omega)
  simp only [parseMonth, hn, scan]
  exact parseDay_digits y m d hd

theorem digits_length (w n : Nat) : (digits w n).length = w := by
  induction w generalizing n with
  | zero => rfl
  | succ w ih => simp [digits, ih]

theorem yearWidth_bound (h : n < 1000000) : n < 10^(yearWidth n+1) := by
  unfold yearWidth
  split_ifs <;> omega

theorem signed_number (h : n < 1000000) (rest : List Char) :
    number (digits (yearWidth n+1) n ++ '-'::rest).length
      (digits (yearWidth n+1) n ++ '-'::rest) = some (n, '-'::rest) := by
  have hl : (digits (yearWidth n+1) n ++ '-'::rest).length = yearWidth n+1+(rest.length+1) := by
    simp [digits_length]
  rw [hl, number_digits _ _ _ _ (yearWidth_bound n h), scan_stop]

theorem parseYear_unsigned (c : Char) (cs : List Char) (hm : c ≠ '-') (hp : c ≠ '+') :
    parseYear (c::cs) = (number 4 (c::cs)).map fun r => ((r.1 : Int), r.2) := by
  unfold parseYear
  split
  · exact absurd (cons.inj ‹_›).1 hm
  · exact absurd (cons.inj ‹_›).1 hp
  · rfl

theorem digit_not_sign (v : Nat) (h : v < 10) : digit v ≠ '-' ∧ digit v ≠ '+' := by
  interval_cases v <;> decide

theorem parseYear_formatYear (y : Int) (rest : List Char) (hlo : minYear ≤ y) (hhi : y ≤ maxYear) :
    parseYear (formatYear y ++ '-'::rest) = some (y, '-'::rest) := by
  simp only [minYear, maxYear] at hlo hhi
  have hn : y.natAbs < 1000000 := by omega
  unfold formatYear
  split_ifs with h1 h2
  rotate_left 2
  · obtain ⟨v, cs, hv, hc⟩ := digits_head 3 y.natAbs
    have hs := number_digits 3 0 y.natAbs ('-'::rest) (by omega)
    rw [hc, cons_append] at hs ⊢
    rw [parseYear_unsigned _ _ (digit_not_sign v hv).1 (digit_not_sign v hv).2, hs]
    simp only [scan, map_some, Option.some.injEq, Prod.mk.injEq, and_true]
    omega
  all_goals
    rw [cons_append, parseYear, signed_number _ hn]
    simp only [map_some, Option.some.injEq, Prod.mk.injEq, and_true]
    omega

theorem parse_format : parse (format d) = some d := by
  obtain ⟨h1, h2, _, h4, _, h6⟩ := d.valid
  have hd := h6.trans (daysInMonth_le _ _)
  rw [parse, format, String.toList_ofList, parseYear_formatYear d.year _ h1 h2]
  simp only
  rw [parseMonth_digits _ _ _ (by omega) (by omega), mk?_self]

example : (parse "2024-02-28").bind Date.succ = parse "2024-02-29" := by decide

example : (parse "9999-12-31").bind (fun d => d.succ.map format) = some "+10000-01-01" := by decide

end Leibrix.CivilDate
