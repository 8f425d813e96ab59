import Leibrix.HashColocation
import Mathlib.Algebra.Order.Field.Power
import Mathlib.Tactic.NormNum

/-!
# Keys of different types

SQL compares numbers, and dates and timestamps, by what they stand for: the stored integer
times the unit of its type. The hash is taken over the bytes of the stored integer. Two
types go together exactly if they write as many bytes and count in the same unit; decimals
whose scales lie so far apart that only zero is common to them go together as well.
-/

set_option autoImplicit false

namespace Leibrix.HashTypes
open ArrowBatch HashPartition HashRows HashColocation List

inductive Kind where
  | number | instant
  deriving DecidableEq

/-- The decimal places in which the stored integers count numbers, or seconds. -/
def decimalPlaces : DataType → ℤ
  | .decimal128 _ scale | .decimal256 _ scale => scale
  | .date64 => 3
  | .timestamp .second => 0
  | .timestamp .millisecond => 3
  | .timestamp .microsecond => 6
  | .timestamp .nanosecond => 9
  | _ => 0

def kind : DataType → Option Kind
  | .int8 | .int16 | .int32 | .int64 | .uint8 | .uint16 | .uint32 | .uint64
  | .decimal128 _ _ | .decimal256 _ _ => some .number
  | .date32 | .date64 | .timestamp _ => some .instant
  | _ => none

def sqlUnit (t : DataType) : ℚ := if t = .date32 then 86400 else 10 ^ (-decimalPlaces t)

def Comparable (t u : DataType) : Prop := (kind t).isSome = true ∧ kind t = kind u

/-- A null equals nothing. -/
def SqlEqual : DataType × Cell → DataType × Cell → Prop
  | (t, some (.int n)), (u, some (.int m)) => Comparable t u ∧ (n : ℚ) * sqlUnit t = m * sqlUnit u
  | _, _ => False

variable {m : ℤ}

section Bytes

def written : DataType → Nat
  | .int8 | .uint8 => 1
  | .int16 | .uint16 => 2
  | .int32 | .uint32 | .date32 => 4
  | .int64 | .uint64 | .date64 | .timestamp _ => 8
  | .decimal128 _ _ => 16
  | .decimal256 _ _ => 40
  | _ => 0

def bytesOf (width : Nat) (n : ℤ) : List UInt8 :=
  if width = 40 then sliceBytes (intBytes 32 n) else intBytes width n

theorem hashColumnValue_int {t : DataType} (h : (kind t).isSome = true) (n : ℤ) :
    hashColumnValue t (some (.int n)) = .ok (bytesOf (written t) n) := by
  cases t <;> simp_all [kind, hashColumnValue, bytesOf, written]

theorem length_bytesOf (width : Nat) (n : ℤ) : (bytesOf width n).length = width := by
  unfold bytesOf
  split_ifs with h
  · simp [sliceBytes, intBytes, h]
  · simp [intBytes]

variable {width : Nat}

theorem intBytes_one_ne (hw : 0 < width) (hm : 2 ∣ m) : intBytes width 1 ≠ intBytes width m := by
  intro h
  have range : List.range width = 0 :: (List.range (width - 1)).map Nat.succ := by
    rw [← range_succ_eq_map, Nat.sub_add_cancel hw]
  have first := congrArg head? h
  simp only [intBytes, range, map_cons, head?_cons, pow_zero, Nat.div_one,
    Option.some.injEq] at first
  have modulus : (2 : ℤ) ∣ 2 ^ (8 * width) := dvd_pow_self 2 (by omega)
  have big : (1 : ℤ) < 2 ^ (8 * width) := one_lt_pow₀ (by norm_num) (by omega)
  have one : (1 : ℤ) % 2 ^ (8 * width) = 1 := Int.emod_eq_of_lt (by norm_num) big
  have even : m % 2 ^ (8 * width) % 2 = 0 :=
    (Int.emod_emod_of_dvd m modulus).trans (Int.emod_eq_zero_of_dvd hm)
  have nonneg : 0 ≤ m % 2 ^ (8 * width) := Int.emod_nonneg m (by positivity)
  have lowest := congrArg UInt8.toNat first
  rw [one, UInt8.toNat_ofNat', UInt8.toNat_ofNat'] at lowest
  omega

theorem bytesOf_one_ne (hw : 0 < width) (hm : 2 ∣ m) : bytesOf width 1 ≠ bytesOf width m := by
  unfold bytesOf
  split_ifs with h
  · intro same
    have lengths : (intBytes 32 1).length = (intBytes 32 m).length := by simp [intBytes]
    simp only [sliceBytes, lengths] at same
    exact intBytes_one_ne (by norm_num) hm (append_cancel_left same)
  · exact intBytes_one_ne hw hm

end Bytes

variable {n : ℤ}

section Pairs

def reach (t : DataType) : Nat := if written t = 40 then 76 else if written t = 16 then 38 else 18

/-- Equal values of the two types write the same bytes. Decimals with scales too far apart have only
zero in common. -/
def Alike (t u : DataType) : Prop :=
  written t = written u ∧
    (decimalPlaces t = decimalPlaces u ∨ reach t < (decimalPlaces t - decimalPlaces u).natAbs)

variable {t u : DataType}

theorem sqlUnit_ne_zero (t : DataType) : sqlUnit t ≠ 0 := by
  unfold sqlUnit
  split_ifs <;> positivity

theorem date32_iff (h : Comparable t u) (hwritten : written t = written u) :
    t = .date32 ↔ u = .date32 := by
  obtain ⟨hkind, hsame⟩ := h
  constructor
  · rintro rfl
    cases u <;> simp_all [kind, written]
  · rintro rfl
    cases t <;> simp_all [kind, written]

theorem sqlUnit_eq (h : Comparable t u) (hwritten : written t = written u)
    (hplaces : decimalPlaces t = decimalPlaces u) : sqlUnit t = sqlUnit u := by
  have days := date32_iff h hwritten
  unfold sqlUnit
  simp only [days, hplaces]

variable (h : (kind t).isSome = true)
include h

theorem places_bound (h16 : written t ≠ 16) (h40 : written t ≠ 40) :
    0 ≤ decimalPlaces t ∧ decimalPlaces t ≤ 9 := by
  cases t with
  | timestamp unit => cases unit <;> decide
  | decimal128 | decimal256 => simp [written] at h16 h40
  | _ => simp_all [kind, decimalPlaces]

theorem fits_lt (h16 : written t = 16 ∨ written t = 40) (hfits : t.fits (.int n) = true) :
    |n| < 10 ^ (reach t + 1) := by
  cases t with
  | decimal128 | decimal256 =>
    simp only [DataType.fits, signedRange, decide_eq_true_eq] at hfits
    rw [abs_lt]
    norm_num [reach, written] at hfits ⊢
    omega
  | _ => simp_all [kind, written]

theorem written_pos : 0 < written t := by
  cases t <;> simp_all [kind, written]

theorem fits_zero : t.fits (.int 0) = true := by
  cases t <;> simp_all [kind, DataType.fits, signedRange, unsignedRange]

theorem fits_power
    (hkind : written t = 16 ∨ written t = 40 ∨ (kind t = some .instant ∧ t ≠ .date32)) {d : Nat}
    (hd : d ≤ reach t) : t.fits (.int (10 ^ d)) = true := by
  have grow : (10 : ℤ) ^ d ≤ 10 ^ reach t := pow_le_pow_right₀ (by norm_num) hd
  have pos : (0 : ℤ) < 10 ^ d := by positivity
  cases t with
  | decimal128 | decimal256 | date64 | timestamp =>
    simp only [DataType.fits, signedRange, decide_eq_true_eq]
    norm_num [reach, written] at grow ⊢
    omega
  | _ => simp_all [kind, written]

omit h

theorem eq_mul_pow {p q : ℤ} {d : Nat} (hd : p - q = d) :
    (n : ℚ) * 10 ^ (-p) = m * 10 ^ (-q) ↔ n = m * 10 ^ d := by
  have split : (10 : ℚ) ^ (-q) = 10 ^ d * 10 ^ (-p) := by
    rw [← zpow_natCast, ← hd, ← zpow_add₀ (by norm_num : (10 : ℚ) ≠ 0)]
    congr 1
    omega
  have nonzero : (10 : ℚ) ^ (-p) ≠ 0 := by positivity
  rw [split, ← mul_assoc, mul_left_inj' nonzero]
  exact_mod_cast Iff.rfl

theorem eq_zero_of_far {d r : Nat} (hd : r < d) (hn : |n| < 10 ^ (r + 1)) (h : n = m * 10 ^ d) :
    n = 0 ∧ m = 0 := by
  by_cases hm : m = 0
  · exact ⟨by simp [h, hm], hm⟩
  · have large : (10 : ℤ) ^ (r + 1) ≤ |n| := by
      rw [h, abs_mul, abs_of_pos (by positivity : (0 : ℤ) < 10 ^ d)]
      calc (10 : ℤ) ^ (r + 1) ≤ 10 ^ d := pow_le_pow_right₀ (by norm_num) hd
        _ = 1 * 10 ^ d := (one_mul _).symm
        _ ≤ |m| * 10 ^ d := by gcongr; exact Int.one_le_abs hm
    omega

theorem bytes_eq_of_alike (h : Comparable t u) (halike : Alike t u) (hn : t.fits (.int n) = true)
    (hm : u.fits (.int m) = true) (hvalue : (n : ℚ) * sqlUnit t = m * sqlUnit u) :
    bytesOf (written t) n = bytesOf (written u) m := by
  obtain ⟨hwritten, hplaces | far⟩ := halike
  · rw [sqlUnit_eq h hwritten hplaces, mul_left_inj' (sqlUnit_ne_zero u)] at hvalue
    rw [hwritten, Int.cast_injective hvalue]
  · have ht := h.1
    have hu : (kind u).isSome = true := h.2 ▸ h.1
    have reaches : reach u = reach t := by rw [reach, reach, hwritten]
    have decimal : written t = 16 ∨ written t = 40 := by
      by_contra hnot
      push Not at hnot
      have left := places_bound ht hnot.1 hnot.2
      have right := places_bound hu (hwritten ▸ hnot.1) (hwritten ▸ hnot.2)
      rw [reach, if_neg hnot.2, if_neg hnot.1] at far
      omega
    have days : t ≠ .date32 := by
      rintro rfl
      simp [written] at decimal
    rw [sqlUnit, sqlUnit, if_neg days, if_neg fun h' => days ((date32_iff h hwritten).mpr h')]
      at hvalue
    have zeros : n = 0 ∧ m = 0 := by
      rcases le_total (decimalPlaces u) (decimalPlaces t) with hle | hle
      · have hd : decimalPlaces t - decimalPlaces u =
            ((decimalPlaces t - decimalPlaces u).natAbs : ℤ) := by omega
        exact eq_zero_of_far far (fits_lt ht decimal hn) ((eq_mul_pow hd).mp hvalue)
      · have hd : decimalPlaces u - decimalPlaces t =
            ((decimalPlaces t - decimalPlaces u).natAbs : ℤ) := by omega
        have bound := fits_lt hu (hwritten ▸ decimal) hm
        rw [reaches] at bound
        exact (eq_zero_of_far far bound ((eq_mul_pow hd).mp hvalue.symm)).symm
    rw [zeros.1, zeros.2, hwritten]

def Distinguishable (t u : DataType) : Prop :=
  ∃ n m : ℤ, t.fits (.int n) = true ∧ u.fits (.int m) = true ∧
    (n : ℚ) * sqlUnit t = m * sqlUnit u ∧ bytesOf (written t) n ≠ bytesOf (written u) m

theorem Distinguishable.symm (h : Distinguishable t u) : Distinguishable u t := by
  obtain ⟨n, m, hn, hm, hvalue, hne⟩ := h
  exact ⟨m, n, hm, hn, hvalue.symm, hne.symm⟩

theorem distinguishable_of_places (h : Comparable t u) (hwritten : written t = written u)
    (hlt : decimalPlaces t < decimalPlaces u)
    (hreach : (decimalPlaces u - decimalPlaces t).natAbs ≤ reach t) : Distinguishable t u := by
  have hu : (kind u).isSome = true := h.2 ▸ h.1
  have reaches : reach u = reach t := by rw [reach, reach, hwritten]
  have large : written t = 16 ∨ written t = 40 ∨ (kind t = some .instant ∧ t ≠ .date32) := by
    obtain ⟨hkind, hsame⟩ := h
    cases t <;> cases u <;> simp_all [kind, written, decimalPlaces]
  have days : t ≠ .date32 := by
    rintro rfl
    simp [written] at large
  have large' : written u = 16 ∨ written u = 40 ∨ (kind u = some .instant ∧ u ≠ .date32) := by
    rw [← hwritten, ← h.2, ← (date32_iff h hwritten).ne]
    exact large
  have hd : decimalPlaces u - decimalPlaces t =
      ((decimalPlaces u - decimalPlaces t).natAbs : ℤ) := by omega
  refine ⟨1, 10 ^ (decimalPlaces u - decimalPlaces t).natAbs, ?_, ?_, ?_, ?_⟩
  · exact fits_power h.1 large (d := 0) (Nat.zero_le _)
  · exact fits_power hu large' (reaches.symm ▸ hreach)
  · rw [sqlUnit, sqlUnit, if_neg days, if_neg fun h' => days ((date32_iff h hwritten).mpr h')]
    exact ((eq_mul_pow hd).mpr (one_mul _).symm).symm
  · rw [← hwritten]
    exact bytesOf_one_ne (written_pos h.1) (dvd_pow (by norm_num) (by omega))

theorem distinguishable_of_not_alike (h : Comparable t u) (hnot : ¬ Alike t u) :
    Distinguishable t u := by
  by_cases hwritten : written t = written u
  · have reaches : reach u = reach t := by rw [reach, reach, hwritten]
    have places : decimalPlaces t ≠ decimalPlaces u := fun heq => hnot ⟨hwritten, .inl heq⟩
    have near : (decimalPlaces t - decimalPlaces u).natAbs ≤ reach t :=
      not_lt.mp fun far => hnot ⟨hwritten, .inr far⟩
    rcases places.lt_or_gt with hlt | hgt
    · exact distinguishable_of_places h hwritten hlt (by omega)
    · have back : Comparable u t := ⟨h.2 ▸ h.1, h.2.symm⟩
      exact (distinguishable_of_places back hwritten.symm hgt (by omega)).symm
  · -- zero has the same bytes in any number of them, but not as many
    refine ⟨0, 0, fits_zero h.1, fits_zero (h.2 ▸ h.1), by simp, fun same => hwritten ?_⟩
    simpa only [length_bytesOf] using congrArg length same

end Pairs

def KeyTypes (batch : RecordBatch) (fieldRefs : List Nat) (types : List DataType) : Prop :=
  fieldRefs.map (fun i => batch.schema[i]?.map (·.dataType)) = types.map some

/-- Rows of two partitioned batches whose keys are equal to SQL come out under the same number. -/
def Meet (keys : List (DataType × DataType)) : Prop :=
  ∀ (hasher : Hasher) (n : Nat) (left right : RecordBatch) (leftRefs rightRefs : List Nat),
    KeyTypes left leftRefs (keys.map (·.1)) → KeyTypes right rightRefs (keys.map (·.2)) →
    ∀ leftParts rightParts, hashPartitionBatchTraditional hasher left leftRefs n = .ok leftParts →
      hashPartitionBatchTraditional hasher right rightRefs n = .ok rightParts →
    ∀ row ∈ left.rows, ∀ row' ∈ right.rows,
      List.Forall₂ SqlEqual (keyCells left.schema leftRefs row)
        (keyCells right.schema rightRefs row') →
    ∀ (p q : Nat) (part part' : RecordBatch), leftParts[p]? = some part → row ∈ part.rows →
      rightParts[q]? = some part' → row' ∈ part'.rows → p = q

/-- The cells of the key columns have the types of the columns and fit them. -/
theorem keyCells_typed {schema : Schema} {row : Row} (hrow : RowFits schema row)
    (fieldRefs : List Nat) :
    (∀ types : List DataType,
      fieldRefs.map (fun i => schema[i]?.map (·.dataType)) = types.map some →
        (keyCells schema fieldRefs row).map (·.1) = types) ∧
      ∀ c ∈ keyCells schema fieldRefs row, c.2.all c.1.fits = true := by
  have lengths := hrow.length_eq
  constructor
  · intro types htypes
    induction fieldRefs generalizing types with
    | nil =>
      cases types with
      | nil => rfl
      | cons t types => simp at htypes
    | cons i fieldRefs ih =>
      cases types with
      | nil => simp at htypes
      | cons t types =>
        simp only [map_cons, List.cons.injEq, Option.map_eq_some_iff] at htypes
        obtain ⟨⟨field, hfield, rfl⟩, hrest⟩ := htypes
        obtain ⟨hi, -⟩ := List.getElem?_eq_some_iff.mp hfield
        have hi' : i < row.length := lengths ▸ hi
        have hcell : row[i]? = some row[i] := getElem?_eq_getElem hi'
        rw [keyCells, filterMap_cons, hfield, hcell]
        exact congrArg _ (ih types hrest)
  · intro c hc
    obtain ⟨i, -, hi⟩ := mem_filterMap.mp hc
    split at hi
    · rename_i field cell hfield hcell
      cases hi
      obtain ⟨hi, rfl⟩ := List.getElem?_eq_some_iff.mp hfield
      obtain ⟨hi', rfl⟩ := List.getElem?_eq_some_iff.mp hcell
      exact hrow.get hi hi'
    · cases hi

theorem hashColumnValue_eq {c d : DataType × Cell} (hequal : SqlEqual c d) (halike : Alike c.1 d.1)
    (hc : c.2.all c.1.fits = true) (hd : d.2.all d.1.fits = true) :
    hashColumnValue c.1 c.2 = hashColumnValue d.1 d.2 := by
  obtain ⟨t, cell⟩ := c
  obtain ⟨u, cell'⟩ := d
  match cell, cell', hequal with
  | some (.int n), some (.int m), ⟨comparable, hvalue⟩ =>
    rw [hashColumnValue_int comparable.1, hashColumnValue_int (comparable.2 ▸ comparable.1),
      bytes_eq_of_alike comparable halike hc hd hvalue]

theorem meet_of_alike {keys : List (DataType × DataType)} (h : ∀ key ∈ keys, Alike key.1 key.2) :
    Meet keys := by
  intro hasher n left right leftRefs rightRefs htypes htypes' leftParts rightParts hleft hright row
    hrow row' hrow' hequal p q part part' hp hmem hq hmem'
  obtain ⟨types, fits⟩ := keyCells_typed (left.fits row hrow) leftRefs
  obtain ⟨types', fits'⟩ := keyCells_typed (right.fits row' hrow') rightRefs
  have alike : Forall₂ (fun c d : DataType × Cell => Alike c.1 d.1)
      (keyCells left.schema leftRefs row) (keyCells right.schema rightRefs row') := by
    have typed : Forall₂ Alike (keys.map (·.1)) (keys.map (·.2)) := by
      rw [forall₂_map_left_iff, forall₂_map_right_iff]
      exact forall₂_same.mpr h
    rw [← types _ htypes, ← types' _ htypes', forall₂_map_left_iff,
      forall₂_map_right_iff] at typed
    exact typed
  have same : hashKey (keyCells left.schema leftRefs row) =
      hashKey (keyCells right.schema rightRefs row') := by
    refine hashKey_congr (forall₂_iff_get.mpr ⟨hequal.length_eq, fun i hi hi' => ?_⟩)
    exact hashColumnValue_eq (hequal.get hi hi') (alike.get hi hi')
      (fits _ (getElem_mem hi)) (fits' _ (getElem_mem hi'))
  have here := traditional_part hasher hleft hp hmem
  have there := traditional_part hasher hright hq hmem'
  have lengths : leftRefs.length = rightRefs.length := by
    have := congrArg length htypes
    have := congrArg length htypes'
    simp only [length_map] at *
    omega
  by_cases hrefs : leftRefs.isEmpty = true
  · have hrefs' : rightRefs.isEmpty = true := by
      rw [isEmpty_iff_length_eq_zero] at hrefs ⊢
      omega
    rw [if_pos hrefs] at here
    rw [if_pos hrefs'] at there
    rw [here, there]
  · have hrefs' : ¬ rightRefs.isEmpty = true := by
      rw [isEmpty_iff_length_eq_zero] at hrefs ⊢
      omega
    rw [if_neg hrefs, hashedPartition, same] at here
    rw [if_neg hrefs', hashedPartition] at there
    exact Except.ok.inj (here.symm.trans there)

def single (t : DataType) (n : ℤ) (h : t.fits (.int n) = true) : RecordBatch where
  schema := [⟨"k", t⟩]
  rows := [[some (.int n)]]
  fits row hrow := by
    cases List.mem_singleton.mp hrow
    exact .cons h .nil

theorem single_part (hasher : Hasher) {t : DataType} (ht : (kind t).isSome = true)
    (h : t.fits (.int n) = true) {numPartitions : Nat} (hpos : 0 < numPartitions) :
    ∃ parts part, hashPartitionBatchTraditional hasher (single t n h) [0] numPartitions =
        .ok parts ∧
      parts[(hasher (bytesOf (written t) n)).toNat % numPartitions]? = some part ∧
      [some (.int n)] ∈ part.rows := by
  have number : hashedPartition hasher (single t n h).schema [0] numPartitions [some (.int n)] =
      .ok ((hasher (bytesOf (written t) n)).toNat % numPartitions) := by
    simp [hashedPartition, hashKey, keyCells, single, hashColumnValue_int ht, bind, Except.bind,
      pure, Except.pure]
  have numbers : (single t n h).rows.mapM
      (hashedPartition hasher (single t n h).schema [0] numPartitions) =
        .ok [(hasher (bytesOf (written t) n)).toNat % numPartitions] := by
    have rows : (single t n h).rows = [[some (.int n)]] := rfl
    rw [rows, mapM_cons, number]
    rfl
  have bound := Nat.mod_lt (hasher (bytesOf (written t) n)).toNat hpos
  have split : hashPartitionBatchTraditional hasher (single t n h) [0] numPartitions =
      .ok ((List.range numPartitions).map fun p => (single t n h).filterRows
        ([(hasher (bytesOf (written t) n)).toNat % numPartitions].map (· == p))) := by
    rw [hashPartitionBatchTraditional, if_neg (by simp [single]), if_neg (by simp), numbers]
    rfl
  refine ⟨_, (single t n h).filterRows
    ([(hasher (bytesOf (written t) n)).toNat % numPartitions].map
      (· == (hasher (bytesOf (written t) n)).toNat % numPartitions)), split, ?_, ?_⟩
  · rw [getElem?_map, getElem?_range bound, Option.map_some]
  · simp [RecordBatch.filterRows, single]

theorem not_meet {t u : DataType} (h : Comparable t u) (hdiff : Distinguishable t u) :
    ¬ Meet [(t, u)] := by
  intro meet
  obtain ⟨n, m, hn, hm, hvalue, hne⟩ := hdiff
  let hasher : Hasher := fun bytes => if bytes = bytesOf (written t) n then 0 else 1
  have hu : (kind u).isSome = true := h.2 ▸ h.1
  obtain ⟨leftParts, part, hleft, hp, hmem⟩ := single_part hasher h.1 hn (Nat.zero_lt_two)
  obtain ⟨rightParts, part', hright, hq, hmem'⟩ := single_part hasher hu hm (Nat.zero_lt_two)
  have equal : Forall₂ SqlEqual (keyCells (single t n hn).schema [0] [some (.int n)])
      (keyCells (single u m hm).schema [0] [some (.int m)]) := .cons ⟨h, hvalue⟩ .nil
  have same := meet hasher 2 (single t n hn) (single u m hm) [0] [0] rfl rfl leftParts rightParts
    hleft hright _ (mem_singleton_self _) _ (mem_singleton_self _) equal _ _ part part' hp
    hmem hq hmem'
  have first : hasher (bytesOf (written t) n) = 0 := if_pos rfl
  have second : hasher (bytesOf (written u) m) = 1 := if_neg hne.symm
  rw [first, second] at same
  exact absurd same (by decide)

/-- Key columns that SQL can compare send equal values to the same partition under every hash
function, in every choice of some of the columns as a key, exactly if the types of each pair of
columns are alike. -/
theorem equal_keys_meet_iff (columns : List (DataType × DataType))
    (hcomparable : ∀ column ∈ columns, Comparable column.1 column.2) :
    (∀ keys : List (DataType × DataType), (∀ key ∈ keys, key ∈ columns) → Meet keys) ↔
      ∀ column ∈ columns, Alike column.1 column.2 := by
  constructor
  · intro meet column hcolumn
    by_contra hnot
    refine not_meet (hcomparable column hcolumn)
      (distinguishable_of_not_alike (hcomparable column hcolumn) hnot) (meet [column] ?_)
    intro key hkey
    rwa [mem_singleton.mp hkey]
  · intro alike keys hkeys
    exact meet_of_alike fun key hkey => alike key (hkeys key hkey)

theorem equal_keys_meet_iff_milliseconds :
    Meet [(.int32, .uint32), (.date64, .timestamp .millisecond)] :=
  (equal_keys_meet_iff [(.int32, .uint32), (.date64, .timestamp .millisecond)]
    (by simp [Comparable, kind])).mpr (by simp [Alike, written, decimalPlaces]) _ fun _ => id

/-- The number five, stored in 32 and in 64 bits, goes to the first and to the second partition. -/
theorem five_apart : let hasher : Hasher := fun bytes => if bytes.length = 4 then 0 else 1
    SqlEqual (.int32, some (.int 5)) (.int64, some (.int 5)) ∧
      hashedPartition hasher [⟨"k", .int32⟩] [0] 2 [some (.int 5)] = .ok 0 ∧
      hashedPartition hasher [⟨"k", .int64⟩] [0] 2 [some (.int 5)] = .ok 1 := by
  refine ⟨⟨⟨rfl, rfl⟩, ?_⟩, rfl, rfl⟩
  simp [sqlUnit, decimalPlaces]

end Leibrix.HashTypes
