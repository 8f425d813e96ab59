import Leibrix.HashRows

/-!
# Rows with equal keys in two partitioned batches

Two batches are partitioned into the same number of partitions. Where a row goes
depends on a route: the bytes that are hashed for it, or the place of its key in the
hash set of the most frequent keys. Routes that agree lead to the same partition
under every hasher and every order of the sets, and only those.
-/

set_option autoImplicit false

namespace Leibrix.HashColocation
open ArrowBatch HashPartition HashRows List

/-- A batch that is partitioned, with what was found out about its skew. -/
structure Run where
  batch : RecordBatch
  fieldRefs : List Nat
  skew : SkewDetectionResult
  roundRobin : Bool

def Run.detect (ops : FloatOps) (floatText : FloatText) (mapOrder : HashOrder (String × Nat))
    (config : SkewHandlingConfig ops.F64) (batch : RecordBatch) (fieldRefs : List Nat) : Run where
  batch := batch
  fieldRefs := fieldRefs
  skew := detectSkew ops floatText mapOrder config batch fieldRefs
  roundRobin := config.enableRoundRobinDistribution

variable {key : String}

section Rows

variable (hasher : Hasher) (floatText : FloatText) (setOrder : HashOrder String)

def rowPartition (run : Run) (n : Nat) (row : Row) : Except ExchangeError Nat :=
  if run.skew.isSkewed then
    .ok (skewedRowPartition hasher floatText setOrder run.roundRobin run.batch.schema run.fieldRefs
      n run.skew row)
  else if run.fieldRefs.isEmpty then .ok 0
  else hashedPartition hasher run.batch.schema run.fieldRefs n row

theorem traditional_part {batch : RecordBatch} {fieldRefs : List Nat} {n p : Nat}
    {parts : List RecordBatch} {part : RecordBatch} {row : Row}
    (h : hashPartitionBatchTraditional hasher batch fieldRefs n = .ok parts)
    (hp : parts[p]? = some part) (hrow : row ∈ part.rows) :
    if fieldRefs.isEmpty then p = 0
    else hashedPartition hasher batch.schema fieldRefs n row = .ok p := by
  have rows := congrArg (·[p]?) (traditional_rows h).2
  simp only [getElem?_map, hp, Option.map_some] at rows
  obtain ⟨q, hq, filtered⟩ := Option.map_eq_some_iff.mp rows.symm
  obtain ⟨hpn, rfl⟩ := List.getElem?_eq_some_iff.mp hq
  rw [← filtered, mem_filter, decide_eq_true_eq, getElem_range] at hrow
  split_ifs at hrow ⊢ with hrefs
  · exact (Except.ok.inj hrow.2).symm
  · exact hrow.2

theorem mem_topKeySet {skew : SkewDetectionResult} :
    (topKeySet setOrder skew).contains key = true ↔ key ∈ (skew.topKeys.map (·.1)).dedup := by
  rw [contains_iff_mem, topKeySet, (setOrder.perm _).mem_iff]

variable {set : List String}

theorem skewedPartition_hot (n : Nat) (h : set.contains key = true) :
    skewedPartition hasher true set n key = set.idxOf key % n := by
  rw [skewedPartition, if_pos h, if_pos rfl]

theorem skewedPartition_hashed {roundRobin : Bool} (n : Nat)
    (h : ¬ (roundRobin = true ∧ set.contains key = true)) :
    skewedPartition hasher roundRobin set n key = computeHashPartition hasher key n := by
  rw [skewedPartition]
  by_cases hkey : set.contains key = true
  · rw [if_pos hkey, if_neg fun hr => h ⟨hr, hkey⟩]
  · rw [if_neg hkey]

end Rows

/-- How the partition of a row is found. -/
inductive Route where
  | first
  | hashed (bytes : List UInt8)
  | hot (keys : List String) (key : String) (nodup : keys.Nodup) (mem : key ∈ keys)
  | failed

namespace Route

def partition (hasher : Hasher) (setOrder : HashOrder String) (n : Nat) : Route → Option Nat
  | first => some 0
  | hashed bytes => some ((hasher bytes).toNat % n)
  | hot keys key _ _ => some ((setOrder.iter keys).idxOf key % n)
  | failed => none

def Pinned : Route → Prop
  | first => True
  | hot keys _ _ _ => keys.length = 1
  | _ => False

def Agrees : Route → Route → Prop
  | failed, _ | _, failed => True
  | hashed bytes, hashed bytes' => bytes = bytes'
  | r, r' => r.Pinned ∧ r'.Pinned

end Route

def route (floatText : FloatText) (run : Run) (row : Row) : Route :=
  let cells := keyCells run.batch.schema run.fieldRefs row
  if run.skew.isSkewed then
    if h : run.roundRobin ∧ compositeKey floatText cells ∈ (run.skew.topKeys.map (·.1)).dedup then
      .hot _ _ (List.nodup_dedup _) h.2
    else .hashed (strBytes (compositeKey floatText cells))
  else if run.fieldRefs.isEmpty then .first
  else
    match hashKey cells with
    | .ok bytes => .hashed bytes
    | .error _ => .failed

theorem rowPartition_route (hasher : Hasher) (floatText : FloatText) (setOrder : HashOrder String)
    (run : Run) (n : Nat) (row : Row) :
    (rowPartition hasher floatText setOrder run n row).toOption =
      (route floatText run row).partition hasher setOrder n := by
  rw [rowPartition, route]
  by_cases hskew : run.skew.isSkewed = true
  · rw [if_pos hskew, if_pos hskew, skewedRowPartition]
    by_cases h : run.roundRobin = true ∧
        compositeKey floatText (keyCells run.batch.schema run.fieldRefs row) ∈
          (run.skew.topKeys.map (·.1)).dedup
    · rw [dif_pos h, h.1, skewedPartition_hot hasher n ((mem_topKeySet setOrder).mpr h.2)]
      rfl
    · rw [dif_neg h, skewedPartition_hashed hasher n fun h' =>
        h ⟨h'.1, (mem_topKeySet setOrder).mp h'.2⟩]
      rfl
  · rw [if_neg hskew, if_neg hskew]
    by_cases hrefs : run.fieldRefs.isEmpty = true
    · rw [if_pos hrefs, if_pos hrefs]
      rfl
    · rw [if_neg hrefs, if_neg hrefs, hashedPartition]
      cases hashKey (keyCells run.batch.schema run.fieldRefs row) <;> rfl

variable {keys : List String}

def keyFirst (key : String) : HashOrder String where
  iter l := if key ∈ l then key::l.erase key else l
  perm l := by
    by_cases h : key ∈ l
    · rw [if_pos h]
      exact (List.perm_cons_erase h).symm
    · rw [if_neg h]

/-- Gives out a key second, if there is another one. -/
def keySecond (key : String) : HashOrder String where
  iter l := if key ∈ l then
      match l.erase key with
      | [] => l
      | other::rest => other::key::rest
    else l
  perm l := by
    by_cases h : key ∈ l
    · rw [if_pos h]
      have hl := List.perm_cons_erase h
      cases he : l.erase key with
      | nil => exact .refl l
      | cons other rest =>
        rw [he] at hl
        exact (List.Perm.swap key other rest).trans hl.symm
    · rw [if_neg h]

theorem idxOf_keyFirst (h : key ∈ keys) : ((keyFirst key).iter keys).idxOf key = 0 := by
  simp [keyFirst, h]

theorem idxOf_keySecond (hnodup : keys.Nodup) (h : key ∈ keys) (hlen : keys.length ≠ 1) :
    ((keySecond key).iter keys).idxOf key = 1 := by
  have herase : (keys.erase key).length = keys.length - 1 := length_erase_of_mem h
  have hpos : 0 < keys.length := length_pos_of_mem h
  cases he : keys.erase key with
  | nil =>
    rw [he] at herase
    simp at herase
    omega
  | cons other rest =>
    have hother : other ∈ keys.erase key := by rw [he]; exact mem_cons_self
    have hne : other ≠ key := ((Nodup.mem_erase_iff hnodup).mp hother).1
    simp [keySecond, h, he, hne]

namespace Route

variable {n : Nat}

variable {r : Route}

theorem Pinned.partition_eq (h : r.Pinned) (hasher : Hasher) (setOrder : HashOrder String) :
    r.partition hasher setOrder n = some 0 := by
  cases r with
  | first => rfl
  | hashed bytes | failed => exact h.elim
  | hot keys key nodup mem =>
    obtain ⟨k, rfl⟩ := length_eq_one_iff.mp h
    obtain rfl := mem_singleton.mp mem
    simp [partition, perm_singleton.mp (setOrder.perm [key])]

theorem spreads_of_not_pinned (hn : 2 ≤ n) {nodup : keys.Nodup} {mem : key ∈ keys}
    (h : ¬ (hot keys key nodup mem).Pinned) (hasher : Hasher) :
    (hot keys key nodup mem).partition hasher (keyFirst key) n = some 0 ∧
      (hot keys key nodup mem).partition hasher (keySecond key) n = some 1 := by
  constructor
  · rw [partition, idxOf_keyFirst mem, Nat.zero_mod]
  · rw [partition, idxOf_keySecond nodup mem h, Nat.mod_eq_of_lt hn]

/-- Two routes lead to the same partition, whenever both lead to one. -/
def Meet (n : Nat) (r r' : Route) : Prop :=
  ∀ hasher setOrder setOrder' p q, r.partition hasher setOrder n = some p →
    r'.partition hasher setOrder' n = some q → p = q

variable {r' : Route}

theorem Meet.symm (h : Meet n r r') : Meet n r' r :=
  fun hasher o o' p q hp hq => (h hasher o' o q p hq hp).symm

theorem Agrees.meet (h : r.Agrees r') : Meet n r r' := by
  intro hasher o o' p q hp hq
  have pinned (hr : r.Pinned) (hr' : r'.Pinned) : p = q := by
    rw [hr.partition_eq] at hp
    rw [hr'.partition_eq] at hq
    exact Option.some.inj (hp.symm.trans hq)
  cases r with
  | failed => cases hp
  | first | hot keys key nodup mem =>
    cases r' with
    | failed => cases hq
    | _ => exact pinned h.1 h.2
  | hashed bytes =>
    cases r' with
    | failed => cases hq
    | hashed bytes' =>
      obtain rfl : bytes = bytes' := h
      exact Option.some.inj (hp.symm.trans hq)
    | _ => exact pinned h.1 h.2

theorem not_meet_hashed (hn : 2 ≤ n) {bytes : List UInt8}
    (hr : ∃ setOrder q, ∀ hasher, r.partition hasher setOrder n = some q) :
    ¬ Meet n (hashed bytes) r := by
  obtain ⟨o, q, hq⟩ := hr
  intro hmeet
  have h0 := hmeet (fun _ => 0) o o _ q rfl (hq _)
  have h1 := hmeet (fun _ => 1) o o _ q rfl (hq _)
  have hmod : 1 % n = 1 := Nat.mod_eq_of_lt hn
  simp [hmod] at h0 h1
  omega

theorem hashed_of_meet (hn : 2 ≤ n) {bytes bytes' : List UInt8}
    (h : Meet n (hashed bytes) (hashed bytes')) : bytes = bytes' := by
  by_contra hne
  -- a hasher that tells the two apart
  have split := h (fun b => if b = bytes then 0 else 1) (keyFirst "") (keyFirst "") _ _ rfl rfl
  have hmod : 1 % n = 1 := Nat.mod_eq_of_lt hn
  simp [Ne.symm hne, hmod] at split

theorem pinned_of_meet (hn : 2 ≤ n) (h : Meet n r r') (hr : ∀ bytes, r ≠ hashed bytes)
    (hr' : ∃ setOrder q, ∀ hasher,
      r'.partition hasher setOrder n = some q) (hfail : r ≠ failed) : r.Pinned := by
  obtain ⟨o, q, hq⟩ := hr'
  cases r with
  | first => trivial
  | hashed bytes => exact absurd rfl (hr bytes)
  | failed => exact absurd rfl hfail
  | hot keys key nodup mem =>
    by_contra hpinned
    have two := spreads_of_not_pinned hn hpinned fun _ => 0
    have h0 := h _ _ o _ q two.1 (hq _)
    have h1 := h _ _ o _ q two.2 (hq _)
    omega

theorem meet_iff (hn : 2 ≤ n) (r r' : Route) : Meet n r r' ↔ r.Agrees r' := by
  refine ⟨fun h => ?_, Agrees.meet⟩
  have first_fixed : ∃ setOrder q, ∀ hasher, first.partition hasher setOrder n = some q :=
    ⟨keyFirst "", 0, fun _ => rfl⟩
  have hot_fixed (keys key nodup mem) :
      ∃ setOrder q, ∀ hasher, (hot keys key nodup mem).partition hasher setOrder n = some q :=
    ⟨keyFirst "", _, fun _ => rfl⟩
  cases r with
  | failed => exact trivial
  | first =>
    cases r' with
    | failed => exact trivial
    | first => exact ⟨trivial, trivial⟩
    | hashed bytes => exact absurd h.symm (not_meet_hashed hn first_fixed)
    | hot keys key nodup mem =>
      exact ⟨trivial, pinned_of_meet hn h.symm (by simp) first_fixed (by simp)⟩
  | hashed bytes =>
    cases r' with
    | failed => exact trivial
    | first => exact absurd h (not_meet_hashed hn first_fixed)
    | hashed bytes' => exact hashed_of_meet hn h
    | hot keys key nodup mem => exact absurd h (not_meet_hashed hn (hot_fixed ..))
  | hot keys key nodup mem =>
    cases r' with
    | failed => exact trivial
    | first => exact ⟨pinned_of_meet hn h (by simp) first_fixed (by simp), trivial⟩
    | hashed bytes => exact absurd h.symm (not_meet_hashed hn (hot_fixed ..))
    | hot keys' key' nodup' mem' =>
      exact ⟨pinned_of_meet hn h (by simp) (hot_fixed ..) (by simp),
        pinned_of_meet hn h.symm (by simp) (hot_fixed ..) (by simp)⟩

theorem partition_lt (hn : 0 < n) {hasher : Hasher} {setOrder : HashOrder String} {p : Nat}
    (h : r.partition hasher setOrder n = some p) : p < n := by
  cases r with
  | first => simpa [← Option.some.inj h] using hn
  | failed => simp [partition] at h
  | hashed bytes | hot keys key nodup mem => exact Option.some.inj h ▸ Nat.mod_lt _ hn

end Route

/-- Rows of two batches whose keys count as the same have the same partition number, under every
hasher and every order in which the two hash sets give out their keys. -/
def Colocated (floatText : FloatText) (n : Nat)
    (same : List (DataType × Cell) → List (DataType × Cell) → Prop) (run run' : Run) : Prop :=
  ∀ hasher setOrder setOrder', ∀ row ∈ run.batch.rows, ∀ row' ∈ run'.batch.rows,
    same (keyCells run.batch.schema run.fieldRefs row)
      (keyCells run'.batch.schema run'.fieldRefs row') →
    ∀ p q, rowPartition hasher floatText setOrder run n row = .ok p →
      rowPartition hasher floatText setOrder' run' n row' = .ok q → p = q

/-- Equal keys meet just when there is one partition, or their routes agree. -/
theorem colocated_iff (floatText : FloatText) {n : Nat} (hn : 0 < n)
    (same : List (DataType × Cell) → List (DataType × Cell) → Prop) (run run' : Run) :
    Colocated floatText n same run run' ↔
      n = 1 ∨ ∀ row ∈ run.batch.rows, ∀ row' ∈ run'.batch.rows,
        same (keyCells run.batch.schema run.fieldRefs row)
          (keyCells run'.batch.schema run'.fieldRefs row') →
        (route floatText run row).Agrees (route floatText run' row') := by
  have ok_iff (hasher : Hasher) (setOrder : HashOrder String) (run : Run) (row : Row) (p : Nat) :
      rowPartition hasher floatText setOrder run n row = .ok p ↔
        (route floatText run row).partition hasher setOrder n = some p := by
    rw [← rowPartition_route]
    cases rowPartition hasher floatText setOrder run n row <;> simp [Except.toOption]
  simp only [Colocated, ok_iff]
  by_cases h1 : n = 1
  · simp only [h1, true_or, iff_true]
    intro hasher o o' row _ row' _ _ p q hp hq
    have := Route.partition_lt (by omega) hp
    have := Route.partition_lt (by omega) hq
    omega
  · simp only [h1, false_or, ← Route.meet_iff (show 2 ≤ n by omega), Route.Meet]
    constructor
    · intro h row hrow row' hrow' hsame hasher o o'
      exact h hasher o o' row hrow row' hrow' hsame
    · intro h hasher o o' row hrow row' hrow' hsame
      exact h row hrow row' hrow' hsame hasher o o'

theorem agrees_of_even {floatText : FloatText} {run run' : Run} {row row' : Row}
    (hskew : run.skew.isSkewed = false) (hskew' : run'.skew.isSkewed = false)
    (hrefs : run.fieldRefs.isEmpty = run'.fieldRefs.isEmpty)
    (hcells : keyCells run.batch.schema run.fieldRefs row =
      keyCells run'.batch.schema run'.fieldRefs row') :
    (route floatText run row).Agrees (route floatText run' row') := by
  simp only [route, hskew, hskew', hrefs, hcells, Bool.false_eq_true, if_false]
  by_cases h : run'.fieldRefs.isEmpty = true
  · simp [h, Route.Agrees, Route.Pinned]
  · rw [if_neg h]
    cases hashKey (keyCells run'.batch.schema run'.fieldRefs row') <;> simp [Route.Agrees]

theorem colocated_iff_even :
    Colocated (fun _ _ => "") 2 Eq
      (.detect rationalOps (fun _ _ => "") (sameOrder _) (.default rationalOps)
        (textBatch ["a", "b"]) [0])
      (.detect rationalOps (fun _ _ => "") (sameOrder _) (.default rationalOps)
        (textBatch ["b"]) [0]) :=
  (colocated_iff _ (by decide) _ _ _).mpr (.inr fun _ _ _ _ hcells =>
    agrees_of_even rfl rfl rfl hcells)

def hotConfig : SkewHandlingConfig rationalOps.F64 where
  skewThreshold := (1 / 4 : ℚ)
  topKeyPercentage := (1 : ℚ)
  maxTopKeys := 20
  minRowsForSkewDetection := 0
  enableRoundRobinDistribution := true

def reverseOrder (α : Type) : HashOrder α := ⟨List.reverse, List.reverse_perm⟩

theorem detectSkew_hot :
    detectSkew rationalOps (fun _ _ => "") (sameOrder _) hotConfig
      (textBatch ["a", "a", "a", "b"]) [0] = ⟨true, [("a", 3), ("b", 1)]⟩ := by
  have counts : analyzeKeyDistribution (fun _ _ => "") (textBatch ["a", "a", "a", "b"]) [0] =
      [("a", 3), ("b", 1)] := by decide +kernel
  have sorted : [("a", 3), ("b", 1)].mergeSort (fun a b : String × Nat => decide (b.2 ≤ a.2)) =
      [("a", 3), ("b", 1)] := mergeSort_of_pairwise (by simp)
  rw [detectSkew, if_neg (by simp [hotConfig]), counts]
  show SkewDetectionResult.mk _ (([("a", 3), ("b", 1)].mergeSort _).take _) = _
  rw [sorted]
  decide +kernel

/-- One batch partitioned twice: its frequent keys change places with the order of the set. -/
theorem hot_key_moves :
    ¬ Colocated (fun _ _ => "") 2 Eq
      (.detect rationalOps (fun _ _ => "") (sameOrder _) hotConfig
        (textBatch ["a", "a", "a", "b"]) [0])
      (.detect rationalOps (fun _ _ => "") (sameOrder _) hotConfig
        (textBatch ["a", "a", "a", "b"]) [0]) := by
  rw [Run.detect, detectSkew_hot]
  intro h
  have here := h (fun _ => 0) (sameOrder _) (reverseOrder _) [some (.text "a")]
    (by simp [textBatch]) [some (.text "a")] (by simp [textBatch]) rfl 0 1
  exact absurd (here (by decide +kernel) (by decide +kernel)) (by decide)

end Leibrix.HashColocation
