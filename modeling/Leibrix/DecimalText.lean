import Leibrix.ArrowBatch
import Mathlib.Algebra.Order.Ring.Int
import Mathlib.Tactic.NormNum
import Mathlib.Tactic.Ring

/-!
# Decimals read from text

The text of a decimal cell becomes an integer that counts units of its scale. The sign is
taken off first, but the integer parser that reads what stands before the point takes a sign
of its own. An arithmetic overflow stops a build with overflow checks and gives a wrapped
number in one without.
-/

set_option autoImplicit false

namespace Leibrix.DecimalText
open ArrowBatch

section Parser

inductive Failure where
  | message (text : String)
  | overflow
  deriving DecidableEq

def isWhitespace (c : Char) : Bool :=
  let n := c.toNat
  9 ≤ n ∧ n ≤ 13 ∨ 0x2000 ≤ n ∧ n ≤ 0x200a ∨
    n ∈ [0x20, 0x85, 0xa0, 0x1680, 0x2028, 0x2029, 0x202f, 0x205f, 0x3000]

def trim (text : List Char) : List Char :=
  ((text.dropWhile isWhitespace).reverse.dropWhile isWhitespace).reverse

def stripSign : List Char → Bool × List Char
  | '-' :: rest => (true, rest)
  | '+' :: rest => (false, rest)
  | text => (false, text)

def signed (negative : Bool) (n : Int) : Int := if negative then -n else n

abbrev digit (c : Char) : Nat := c.toNat - '0'.toNat

/-- The digits of an `i128`. After a minus sign they are counted down. -/
def readDigits (negative : Bool) : List Char → Int → Except String Int
  | [], result => .ok result
  | c::digits, result =>
    let next := 10 * result + signed negative (digit c)
    if ¬ c.isDigit then .error "invalid digit found in string"
    else if signedRange 128 (10 * result) ∧ signedRange 128 next then
      readDigits negative digits next
    else .error (if negative then "number too small to fit in target type"
      else "number too large to fit in target type")

def parseI128 (text : List Char) : Except String Int :=
  let (negative, digits) := stripSign text
  if text = [] then .error "cannot parse integer from empty string"
  else if digits = [] then .error "invalid digit found in string"
  else readDigits negative digits 0

def parsePart (name : String) (text : List Char) : Except Failure Int :=
  (parseI128 text).mapError fun e =>
    .message ("invalid " ++ name ++ " '" ++ String.ofList text ++ "': " ++ e)

def within (failure : Failure) (n : Int) : Except Failure Int :=
  if signedRange 128 n then .ok n else .error failure

structure Cut where
  neg : Bool
  int : List Char
  frac : List Char

/-- The text without its sign, cut at its first point. -/
def cut (text : List Char) : Cut :=
  let (neg, s) := stripSign text
  ⟨neg, s.takeWhile (· ≠ '.'), (s.dropWhile (· ≠ '.')).tail⟩

def rawFraction (frac : List Char) : Except Failure Int :=
  if frac = [] then .ok 0 else parsePart "fractional digits" frac

def scaledFraction (frac : List Char) (scale : Nat) : Except Failure Int :=
  if ¬ frac.all Char.isDigit then
    .error (.message ("invalid fractional part '" ++ String.ofList frac ++ "'"))
  else if scale < frac.length then
    .error (.message ("fractional precision " ++ toString frac.length ++
      " exceeds declared scale " ++ toString scale))
  else do
    let fracRaw ← rawFraction frac
    let fracPow ← within .overflow (10 ^ (scale - frac.length))
    within .overflow (fracRaw * fracPow)

def orZero (int : List Char) : List Char := if int = [] then ['0'] else int

def parseParts (c : Cut) (scale : Nat) : Except Failure Int := do
  let intVal ← parsePart "integer part" (orZero c.int)
  let pow10 ← within .overflow (10 ^ scale)
  let fracScaled ← scaledFraction c.frac scale
  let product ← within (.message "overflow scaling integer part") (intVal * pow10)
  let out ← within (.message "overflow adding fractional part") (product + fracScaled)
  if c.neg then within .overflow (-out) else .ok out

def parseDecimalToI128 (input : String) (scale : Int) : Except Failure Int :=
  let s := trim input.toList
  if scale < 0 then .error (.message ("negative scale is not supported: " ++ toString scale))
  else if s = [] then .error (.message "empty decimal string")
  else parseParts (cut s) scale.toNat

end Parser

section Digits

variable {text digits : List Char}

abbrev value (digits : List Char) : Nat := Nat.ofDigitChars 10 digits 0

/-- The text starts with a sign. -/
def Signed (text : List Char) : Prop := ∃ c ∈ text.head?, c = '+' ∨ c = '-'

theorem signedRange_natCast (n : Nat) : signedRange 128 n = true ↔ n < 2 ^ 127 := by
  rw [signedRange, decide_eq_true_iff]
  omega

theorem not_signed_of_digits (h : text.all Char.isDigit) : ¬ Signed text := by
  rintro ⟨c, hc, hsign⟩
  have digit := List.all_eq_true.mp h c (List.mem_of_mem_head? hc)
  rcases hsign with rfl | rfl <;> exact absurd digit (by decide)

/-- The parser takes digits whose number fits, and no other text. -/
theorem readDigits_ok_iff (digits : List Char) {n : Nat} (hn : n < 2 ^ 127) (m : Int) :
    readDigits false digits n = .ok m ↔ digits.all Char.isDigit ∧
      Nat.ofDigitChars 10 digits n < 2 ^ 127 ∧ m = (Nat.ofDigitChars 10 digits n : Nat) := by
  induction digits generalizing n with
  | nil =>
    simp only [readDigits, Except.ok.injEq, Nat.ofDigitChars_nil, List.all_nil, true_and, hn,
      eq_comm]
  | cons c digits ih =>
    have next : 10 * (n : Int) + signed false (digit c) = (10 * n + digit c : Nat) := by
      simp [signed]
    have tens : 10 * (n : Int) = (10 * n : Nat) := by simp
    have grows : 10 * n + digit c ≤ Nat.ofDigitChars 10 digits (10 * n + digit c) := by
      rw [Nat.ofDigitChars_eq_ofDigitChars_zero]
      exact Nat.le_add_right_of_le (Nat.le_mul_of_pos_left _ (Nat.pow_pos (by decide)))
    rw [readDigits, next, tens, List.all_cons, Nat.ofDigitChars_cons]
    simp only [signedRange_natCast]
    by_cases hc : c.isDigit = true
    · by_cases fits : 10 * n + digit c < 2 ^ 127
      · rw [if_neg (not_not.mpr hc), if_pos ⟨by omega, fits⟩, ih fits, hc, Bool.true_and]
      · rw [if_neg (not_not.mpr hc), if_neg fun both => fits both.2]
        exact iff_of_false (by simp) fun h => fits (grows.trans_lt h.2.1)
    · simp [hc]

theorem parseI128_ok_iff (h : ¬ Signed text) (some : text ≠ []) (i : Int) :
    parseI128 text = .ok i ↔
      text.all Char.isDigit ∧ value text < 2 ^ 127 ∧ i = (value text : Nat) := by
  have strip : stripSign text = (false, text) := by
    unfold stripSign
    split
    · exact absurd ⟨_, rfl, .inr rfl⟩ h
    · exact absurd ⟨_, rfl, .inl rfl⟩ h
    · rfl
  rw [parseI128, strip]
  simp only [if_neg some]
  exact readDigits_ok_iff text (by decide) i

theorem value_lt (h : digits.all Char.isDigit) : value digits < 10 ^ digits.length := by
  induction digits with
  | nil => decide
  | cons c digits ih =>
    rw [List.all_cons, Bool.and_eq_true] at h
    have hc : c.toNat - '0'.toNat ≤ 9 := by
      have := Char.isDigit_iff_toNat.mp h.1
      have ends : '0'.toNat = 48 ∧ '9'.toNat = 57 := by decide
      omega
    have rest : Nat.ofDigitChars 10 digits 0 < 10 ^ digits.length := ih h.2
    have := Nat.mul_le_mul_left (10 ^ digits.length) hc
    rw [value, Nat.ofDigitChars_cons, Nat.ofDigitChars_eq_ofDigitChars_zero, Nat.mul_zero,
      Nat.zero_add, List.length_cons, Nat.pow_succ]
    omega

/-- What the integer parser makes of an integer part without a sign of its own. -/
theorem integer_ok_iff {int : List Char} (h : ¬ Signed int) (i : Int) :
    parseI128 (orZero int) = .ok i ↔
      int.all Char.isDigit ∧ value int < 2 ^ 127 ∧ i = (value int : Nat) := by
  cases int with
  | nil => exact parseI128_ok_iff (not_signed_of_digits (by decide)) (by decide) i
  | cons c int => exact parseI128_ok_iff h (List.cons_ne_nil c int) i

end Digits

section Outcomes

variable {c : Cut} {text frac : List Char} {scale : Nat} {i : Int}

theorem ok_bind (n : Int) (f : Int → Except Failure Int) : (Except.ok n >>= f) = f n := rfl

theorem parsePart_ok {name : String} (read : parseI128 text = .ok i) :
    parsePart name text = .ok i := by
  rw [parsePart, read]
  rfl

theorem pow_lt_iff {k : Nat} : 10 ^ k < 2 ^ 127 ↔ k ≤ 38 := by
  constructor
  · intro h
    by_contra! large
    exact absurd (h.trans_le' (Nat.pow_le_pow_right (by decide) large)) (by norm_num)
  · intro h
    exact (Nat.pow_le_pow_right (by decide) h).trans_lt (by norm_num)

theorem pow_fits_iff (k : Nat) : signedRange 128 (10 ^ k) = true ↔ k ≤ 38 := by
  rw [← pow_lt_iff, ← signedRange_natCast]
  push_cast
  rfl

theorem within_pow {k : Nat} (h : k ≤ 38) : within .overflow (10 ^ k) = .ok (10 ^ k) :=
  if_pos ((pow_fits_iff k).mpr h)

/-- What stands behind the point are digits, and there are places for them. -/
def Fine (frac : List Char) (scale : Nat) : Prop := frac.all Char.isDigit ∧ frac.length ≤ scale

/-- The fraction with zeros up to the last place. -/
def pad (frac : List Char) (scale : Nat) : List Char :=
  frac ++ List.replicate (scale - frac.length) '0'

/-- The checked arithmetic goes through with the integer part `i`. -/
def Taken (i : Int) (frac : List Char) (scale : Nat) : Prop :=
  Fine frac scale ∧ signedRange 128 (i * 10 ^ scale) = true ∧
    signedRange 128 (i * 10 ^ scale + value (pad frac scale)) = true

theorem value_pad : (value (pad frac scale) : Int) = value frac * 10 ^ (scale - frac.length) := by
  rw [pad, value, Nat.ofDigitChars_append, Nat.ofDigitChars_replicate_zero]
  push_cast
  ring

theorem Fine.length_pad (fine : Fine frac scale) : (pad frac scale).length = scale := by
  rw [pad, List.length_append, List.length_replicate, Nat.add_sub_cancel' fine.2]

theorem scaledFraction_fine (fine : Fine frac scale) (hscale : scale ≤ 38) :
    scaledFraction frac scale = .ok (value (pad frac scale) : Nat) := by
  have padded := fine.length_pad
  obtain ⟨hdigits, hlen⟩ := fine
  have digits : (pad frac scale).all Char.isDigit := by
    rw [pad, List.all_append, hdigits]
    simp
  have small := (value_lt digits).trans (pow_lt_iff.mpr (padded.trans_le hscale))
  have raw : rawFraction frac = .ok (value frac : Nat) := by
    by_cases none : frac = []
    · rw [none]
      rfl
    · exact (if_neg none).trans (parsePart_ok
        ((parseI128_ok_iff (not_signed_of_digits hdigits) none _).mpr
          ⟨hdigits, (value_lt hdigits).trans (pow_lt_iff.mpr (hlen.trans hscale)), rfl⟩))
  rw [scaledFraction, if_neg (not_not.mpr hdigits), if_neg (Nat.not_lt.mpr hlen), raw, ok_bind,
    within_pow ((Nat.sub_le _ _).trans hscale), ok_bind, ← value_pad]
  exact if_pos ((signedRange_natCast _).mpr small)

theorem scaledFraction_refused (coarse : ¬ Fine frac scale) :
    ∃ m, scaledFraction frac scale = .error (.message m) := by
  rw [scaledFraction]
  by_cases hdigits : frac.all Char.isDigit
  · rw [if_neg (not_not.mpr hdigits), if_pos (by simpa [Fine, hdigits] using coarse)]
    exact ⟨_, rfl⟩
  · rw [if_pos hdigits]
    exact ⟨_, rfl⟩

theorem parseParts_taken (read : parseI128 (orZero c.int) = .ok i) (hscale : scale ≤ 38)
    (taken : Taken i c.frac scale) :
    parseParts c scale =
      within .overflow (signed c.neg (i * 10 ^ scale + value (pad c.frac scale))) := by
  obtain ⟨fine, product, sum⟩ := taken
  rw [parseParts, parsePart_ok read, ok_bind, within_pow hscale, ok_bind,
    scaledFraction_fine fine hscale, ok_bind, within, if_pos product, ok_bind, within,
    if_pos sum, ok_bind]
  cases c.neg with
  | false => exact (if_pos sum).symm
  | true => rfl

theorem parseParts_refused (read : parseI128 (orZero c.int) = .ok i) (hscale : scale ≤ 38)
    (refused : ¬ Taken i c.frac scale) : ∃ m, parseParts c scale = .error (.message m) := by
  rw [parseParts, parsePart_ok read, ok_bind, within_pow hscale, ok_bind]
  by_cases fine : Fine c.frac scale
  · rw [scaledFraction_fine fine hscale, ok_bind, within]
    split
    · rename_i product
      rw [ok_bind, within, if_neg fun sum => refused ⟨fine, product, sum⟩]
      exact ⟨_, rfl⟩
    · exact ⟨_, rfl⟩
  · obtain ⟨m, hm⟩ := scaledFraction_refused fine
    exact ⟨m, by rw [hm]; rfl⟩

end Outcomes

section Exactness

variable {c : Cut} {scale : Nat} {n : Int}

/-- Digits with at most one point, behind it no more digits than places. Padded with zeros to the
last place, they are the digits of `n`. -/
def Numeral (c : Cut) (scale : Nat) (n : Int) : Prop :=
  c.int.all Char.isDigit ∧ Fine c.frac scale ∧ c.int ++ c.frac ≠ [] ∧
    n = signed c.neg (value (c.int ++ pad c.frac scale))

/-- The text without its sign has more than a point. If an `i128` stands before the point, where
nothing stands for 0, there are at most 38 places, and one with a sign of its own is refused for
what stands behind the point or for its size. -/
def Safe (c : Cut) (scale : Nat) : Prop :=
  c.int ++ c.frac ≠ [] ∧ ∀ i, parseI128 (orZero c.int) = .ok i →
    scale ≤ 38 ∧ (Signed c.int → ¬ Taken i c.frac scale)

/-- The outcome is a number just for the numerals that fit, and nothing overflows. -/
def Exact (outcome : Except Failure Int) (c : Cut) (scale : Nat) : Prop :=
  outcome ≠ .error .overflow ∧ ∀ n, outcome = .ok n ↔ Numeral c scale n ∧ n.natAbs < 2 ^ 127

theorem value_digits (fine : Fine c.frac scale) : (value (c.int ++ pad c.frac scale) : Int) =
    value c.int * 10 ^ scale + value (pad c.frac scale) := by
  rw [value, Nat.ofDigitChars_append, Nat.ofDigitChars_eq_ofDigitChars_zero, fine.length_pad]
  push_cast
  ring

theorem natAbs_signed (neg : Bool) (a : Nat) : (signed neg a).natAbs = a := by
  cases neg <;> simp [signed]

theorem within_signed (neg : Bool) {a : Nat} (h : a < 2 ^ 127) :
    within .overflow (signed neg a) = .ok (signed neg a) := by
  refine if_pos ?_
  rw [signedRange, decide_eq_true_iff]
  cases neg <;> simp only [signed] <;> omega

/-- A numeral that fits is read and taken. -/
theorem Numeral.taken (h : Numeral c scale n) (small : n.natAbs < 2 ^ 127) :
    parseI128 (orZero c.int) = .ok (value c.int : Nat) ∧ Taken (value c.int) c.frac scale := by
  obtain ⟨hint, fine, -, rfl⟩ := h
  rw [natAbs_signed] at small
  have sum := value_digits (c := c) fine
  have scaled : value c.int ≤ value c.int * 10 ^ scale :=
    Nat.le_mul_of_pos_right _ (Nat.pow_pos (by decide))
  have cast : (value c.int : Int) * 10 ^ scale = (value c.int * 10 ^ scale : Nat) := by
    push_cast; rfl
  rw [cast] at sum
  refine ⟨(integer_ok_iff (not_signed_of_digits hint) _).mpr ⟨hint, by omega, rfl⟩, fine, ?_, ?_⟩
  · rw [cast]
    exact (signedRange_natCast _).mpr (by omega)
  · rw [cast, ← sum]
    exact (signedRange_natCast _).mpr small

theorem exact_message {m : String} (h : ∀ n, Numeral c scale n → ¬ n.natAbs < 2 ^ 127) :
    Exact (.error (.message m)) c scale := by
  simpa [Exact] using h

/-- Of the texts that are taken, those with one sign at most and a digit are read exactly. -/
theorem exact_taken_iff {i : Int} (read : parseI128 (orZero c.int) = .ok i) (hscale : scale ≤ 38)
    (taken : Taken i c.frac scale) :
    Exact (within .overflow (signed c.neg (i * 10 ^ scale + value (pad c.frac scale)))) c scale ↔
      Safe c scale := by
  by_cases sign : Signed c.int
  · refine iff_of_false (fun ⟨whole, ok⟩ => ?_) fun h => (h.2 i read).2 sign taken
    unfold within at whole ok
    split at whole
    · exact not_signed_of_digits ((ok _).mp (if_pos ‹_›)).1.1 sign
    · exact whole rfl
  · obtain ⟨hint, -, rfl⟩ := (integer_ok_iff sign i).mp read
    have small := taken.2.2
    rw [← value_digits taken.1, signedRange_natCast] at small
    rw [← value_digits taken.1, within_signed c.neg small]
    constructor
    · intro h
      exact ⟨((h.2 _).mp rfl).1.2.2.1, fun _ _ => ⟨hscale, fun s => absurd s sign⟩⟩
    · intro h
      refine ⟨nofun, fun n => ⟨?_, fun hn => by rw [hn.1.2.2.2]⟩⟩
      rintro ⟨⟩
      exact ⟨⟨hint, taken.1, h.1, rfl⟩, (natAbs_signed c.neg _).trans_lt small⟩

theorem exact_iff : Exact (parseParts c scale) c scale ↔ Safe c scale := by
  cases read : parseI128 (orZero c.int) with
  | error e =>
    have some : c.int ++ c.frac ≠ [] := fun none => by
      rw [(List.append_eq_nil_iff.mp none).1] at read
      cases read
    rw [parseParts, parsePart, read]
    refine iff_of_true (exact_message fun n h small => ?_) ⟨some, fun i hi => ?_⟩
    · cases read.symm.trans (h.taken small).1
    · cases read.symm.trans hi
  | ok i =>
    by_cases hscale : scale ≤ 38
    · by_cases taken : Taken i c.frac scale
      · rw [parseParts_taken read hscale taken]
        exact exact_taken_iff read hscale taken
      · obtain ⟨m, failed⟩ := parseParts_refused read hscale taken
        rw [failed]
        refine iff_of_true (exact_message fun n h small => ?_) ⟨fun none => taken ?_, ?_⟩
        · obtain ⟨read', taken'⟩ := h.taken small
          cases read.symm.trans read'
          exact taken taken'
        · rw [(List.append_eq_nil_iff.mp none).1] at read
          cases read
          rw [(List.append_eq_nil_iff.mp none).2, Taken, value_pad]
          simp [Fine, signed, signedRange]
        · intro j hj
          cases read.symm.trans hj
          exact ⟨hscale, fun _ => taken⟩
    · rw [parseParts, parsePart_ok read, ok_bind, within, if_neg (mt (pow_fits_iff _).mp hscale)]
      exact iff_of_false (fun h => h.1 rfl) fun h => hscale (h.2 i read).1

/-- A text is read exactly just when it is empty, or safe. -/
theorem decimal_exact_iff (input : String) (scale : Nat) :
    Exact (parseDecimalToI128 input scale) (cut (trim input.toList)) scale ↔
      (trim input.toList ≠ [] → Safe (cut (trim input.toList)) scale) := by
  rw [parseDecimalToI128, if_neg (by omega), Int.toNat_natCast]
  by_cases none : trim input.toList = []
  · rw [if_pos none, none]
    exact iff_of_true (exact_message fun n h => absurd rfl h.2.2.1) fun h => absurd rfl h
  · rw [if_neg none, exact_iff]
    exact ⟨fun h _ => h, fun h => h none⟩

/-- A sign alone counts as zero, a second sign is read with the digits, and 39 places are more
than a power of ten can have. -/
theorem lone_sign_accepted :
    parseDecimalToI128 "-" 2 = .ok 0 ∧ parseDecimalToI128 "--5" 2 = .ok 500 ∧
    parseDecimalToI128 "1" 39 = .error .overflow ∧
    ∀ n, ¬ Numeral (cut ['-']) 2 n ∧ ¬ Numeral (cut ['-', '-', '5']) 2 n :=
  ⟨by decide, by decide, by decide, fun _ => ⟨fun h => h.2.2.1 rfl, fun h => by cases h.1⟩⟩

end Exactness

end Leibrix.DecimalText
