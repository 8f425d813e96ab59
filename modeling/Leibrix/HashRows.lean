import Leibrix.HashPartition

/-!
# Which rows a partitioned batch keeps

Without skew the partitions are the buckets of the hashed keys, so all rows are kept
whenever every key cell can be hashed. With skew each partition holds the last row
that was moved to it, so all rows are kept just when no two rows share a partition.
-/

set_option autoImplicit false

namespace Leibrix.HashRows
open ArrowBatch Buckets HashPartition List Function

section Fallible

variable {α β ε : Type} {g : α → Except ε β}

variable {l : List α}

theorem mapM_eq_ok {h : α → β} (hg : ∀ x ∈ l, g x = .ok (h x)) : l.mapM g = .ok (l.map h) := by
  induction l with
  | nil => rfl
  | cons x xs ih =>
    rw [mapM_cons, hg x mem_cons_self, ih fun y hy => hg y (mem_cons_of_mem x hy)]
    rfl

variable {r : List β}

theorem mapM_ok_iff : l.mapM g = .ok r ↔ List.Forall₂ (fun x y => g x = .ok y) l r := by
  induction l generalizing r with
  | nil => simp [pure, Except.pure, eq_comm]
  | cons a as ih =>
    rw [mapM_cons, forall₂_cons_left_iff]
    simp only [← ih]
    cases g a with
    | error e => simp [bind, Except.bind]
    | ok b => cases as.mapM g <;> simp [bind, Except.bind, pure, Except.pure, eq_comm]

theorem ok_of_mapM (h : l.mapM g = .ok r) {x : α} (hx : x ∈ l) : ∃ y, g x = .ok y := by
  have hall := mapM_ok_iff.mp h
  clear h
  induction hall with
  | nil => simp at hx
  | cons hab _ ih =>
    rcases mem_cons.mp hx with rfl | hx
    · exact ⟨_, hab⟩
    · exact ih hx

theorem exists_mapM_iff : (∃ r, l.mapM g = .ok r) ↔ ∀ x ∈ l, ∃ y, g x = .ok y := by
  constructor
  · rintro ⟨r, hr⟩ x hx
    exact ok_of_mapM hr hx
  · intro h
    induction l with
    | nil => exact ⟨[], rfl⟩
    | cons a as ih =>
      obtain ⟨b, hb⟩ := h a mem_cons_self
      obtain ⟨bs, hbs⟩ := ih fun x hx => h x (mem_cons_of_mem a hx)
      exact ⟨b::bs, by rw [mapM_cons, hb, hbs]; rfl⟩

theorem mapM_total [Inhabited β] (h : l.mapM g = .ok r) :
    ∃ f : α → β, (∀ x ∈ l, g x = .ok (f x)) ∧ r = l.map f := by
  have hf : ∀ x ∈ l, g x = .ok ((g x).toOption.getD default) := by
    intro x hx
    obtain ⟨y, hy⟩ := ok_of_mapM h hx
    simp [hy, Except.toOption]
  exact ⟨_, hf, (Except.ok.inj ((mapM_eq_ok hf).symm.trans h)).symm⟩

end Fallible

/-- The result is as many batches as asked for, with the rows of the batch, each as often. -/
def Keeps (batch : RecordBatch) (numPartitions : Nat)
    (result : Except ExchangeError (List RecordBatch)) : Prop :=
  ∃ parts, result = .ok parts ∧ parts.length = numPartitions ∧
    (batchRows parts : Multiset Row) = batch.rows

variable {fieldRefs : List Nat}

def Hashes (c : DataType × Cell) : Prop :=
  c.2 = none ∨ (∀ display, c.1 ≠ .dictionary display) ∧ ∀ display, c.1 ≠ .other display

theorem hashColumnValue_ok_iff (c : DataType × Cell) :
    (∃ b, hashColumnValue c.1 c.2 = .ok b) ↔ Hashes c := by
  obtain ⟨t, cell⟩ := c
  cases cell with
  | none => simp [Hashes, hashColumnValue]
  | some v => cases t <;> cases v <;> simp [Hashes, hashColumnValue]

theorem hashKey_ok_iff (cells : List (DataType × Cell)) :
    (∃ b, hashKey cells = .ok b) ↔ ∀ c ∈ cells, Hashes c := by
  have each := exists_mapM_iff (g := fun c : DataType × Cell => hashColumnValue c.1 c.2)
    (l := cells)
  simp only [hashColumnValue_ok_iff] at each
  rw [← each, hashKey]
  cases cells.mapM fun c => hashColumnValue c.1 c.2 <;> simp [bind, Except.bind, pure, Except.pure]

theorem hashKey_congr {left right : List (DataType × Cell)}
    (h : List.Forall₂ (fun c d => hashColumnValue c.1 c.2 = hashColumnValue d.1 d.2) left right) :
    hashKey left = hashKey right := by
  have parts : (left.mapM fun c => hashColumnValue c.1 c.2) =
      right.mapM fun c => hashColumnValue c.1 c.2 := by
    induction h with
    | nil => rfl
    | cons hcd _ ih => rw [mapM_cons, mapM_cons, hcd, ih]
  rw [hashKey, hashKey, parts]

theorem hashedPartition_ok_iff (hasher : Hasher) (schema : Schema) (fieldRefs : List Nat) (n : Nat)
    (row : Row) :
    (∃ p, hashedPartition hasher schema fieldRefs n row = .ok p) ↔
      ∀ c ∈ keyCells schema fieldRefs row, Hashes c := by
  rw [← hashKey_ok_iff, hashedPartition]
  cases hashKey (keyCells schema fieldRefs row) <;> simp [bind, Except.bind, pure, Except.pure]

theorem hashedPartition_lt {hasher : Hasher} {schema : Schema} {n p : Nat} {row : Row} (hn : 0 < n)
    (h : hashedPartition hasher schema fieldRefs n row = .ok p) : p < n := by
  rw [hashedPartition] at h
  cases hk : hashKey (keyCells schema fieldRefs row) with
  | error e => simp [hk, bind, Except.bind] at h
  | ok b =>
    simp only [hk, bind, Except.bind, pure, Except.pure, Except.ok.injEq] at h
    rw [← h]
    exact Nat.mod_lt _ hn

variable {parts : List RecordBatch}

theorem filterRows_rows (batch : RecordBatch) (f : Row → Bool) :
    (batch.filterRows (batch.rows.map f)).rows = batch.rows.filter f := by
  show (((batch.rows.zip (batch.rows.map f)).filter (·.2)).map (·.1)) = _
  induction batch.rows with
  | nil => rfl
  | cons row rows ih => by_cases h : f row = true <;> simp [h, ih]

theorem filterRows_bucket (batch : RecordBatch) (f : Row → Nat) (p : Nat) :
    (batch.filterRows ((batch.rows.map f).map (· == p))).rows = bucket f batch.rows p := by
  rw [map_map, filterRows_rows, bucket]
  rfl

theorem batchRows_buckets (batch : RecordBatch) (f : Row → Nat) (n : Nat) :
    batchRows ((List.range n).map fun p => batch.filterRows ((batch.rows.map f).map (· == p))) =
      (List.range n).flatMap (bucket f batch.rows) := by
  rw [batchRows, flatMap_map]
  congr 1
  funext p
  exact filterRows_bucket batch f p

/-- The batches that come out hold the rows by their partition, in the order they had. -/
theorem traditional_rows {hasher : Hasher} {batch : RecordBatch} {n : Nat}
    (h : hashPartitionBatchTraditional hasher batch fieldRefs n = .ok parts) :
    (∀ part ∈ parts, part.schema = batch.schema) ∧
    parts.map (·.rows) = (List.range n).map fun p => batch.rows.filter fun row =>
      (if fieldRefs.isEmpty then .ok 0 else hashedPartition hasher batch.schema fieldRefs n row) =
        .ok p := by
  rw [hashPartitionBatchTraditional] at h
  by_cases hrows : batch.rows = []
  · simp only [hrows, isEmpty_nil, if_true, Except.ok.injEq] at h
    subst h
    exact ⟨fun part hp => by rw [(mem_replicate.mp hp).2], by simp [hrows]⟩
  rw [if_neg (by simpa using hrows)] at h
  by_cases hrefs : fieldRefs = []
  · simp only [hrefs, isEmpty_nil, if_true, Except.ok.injEq] at h ⊢
    subst h
    cases n with
    | zero => simp
    | succ n =>
      rw [replicate_succ, set_cons_zero, range_succ_eq_map]
      constructor
      · simp +contextual [RecordBatch.newEmpty]
      · simp [RecordBatch.newEmpty, comp_def]
  rw [if_neg (by simpa using hrefs)] at h
  rw [isEmpty_eq_false_iff.mpr hrefs]
  cases hids : batch.rows.mapM (hashedPartition hasher batch.schema fieldRefs n) with
  | error e => simp [hids, bind, Except.bind] at h
  | ok ids =>
    obtain ⟨f, hf, rfl⟩ := mapM_total hids
    simp only [hids, bind, Except.bind, pure, Except.pure, Except.ok.injEq] at h
    subst h
    refine ⟨by simp [RecordBatch.filterRows], ?_⟩
    rw [map_map]
    refine map_congr_left fun p _ => (filterRows_bucket batch f p).trans ?_
    exact filter_congr fun row hrow => by simp [hf row hrow]

theorem traditional_keeps_iff (hasher : Hasher) (batch : RecordBatch) (fieldRefs : List Nat)
    {n : Nat} (hn : 0 < n) :
    Keeps batch n (hashPartitionBatchTraditional hasher batch fieldRefs n) ↔
      fieldRefs = [] ∨
        ∀ row ∈ batch.rows, ∀ c ∈ keyCells batch.schema fieldRefs row, Hashes c := by
  rw [hashPartitionBatchTraditional]
  by_cases hrows : batch.rows = []
  · simp [Keeps, hrows, batchRows]
  by_cases hrefs : fieldRefs = []
  · obtain ⟨m, rfl⟩ : ∃ m, n = m + 1 := ⟨n - 1, by omega⟩
    have none : batchRows (replicate m (.newEmpty batch.schema)) = [] := by
      simp [batchRows, RecordBatch.newEmpty]
    simp only [batchRows] at none
    simp [Keeps, hrows, hrefs, batchRows, replicate_succ, none]
  rw [if_neg (by simpa using hrows), if_neg (by simpa using hrefs)]
  simp only [hrefs, false_or, ← hashedPartition_ok_iff hasher batch.schema fieldRefs n]
  rw [← exists_mapM_iff]
  constructor
  · rintro ⟨parts, hparts, -, -⟩
    cases hm : batch.rows.mapM (hashedPartition hasher batch.schema fieldRefs n) with
    | error e => simp [hm, bind, Except.bind] at hparts
    | ok ids => exact ⟨ids, rfl⟩
  · rintro ⟨ids, hids⟩
    obtain ⟨f, hf, rfl⟩ := mapM_total hids
    refine ⟨_, by rw [hids]; rfl, by simp, ?_⟩
    rw [batchRows_buckets]
    exact flatMap_bucket fun row hrow => hashedPartition_lt hn (hf row hrow)

section Skewed

variable {batch : RecordBatch} {id : Row → Nat} {n : Nat}

theorem zip_singleRowMask {α : Type} (l : List α) (k : Nat) :
    ((l.zip (createSingleRowMask l.length k)).filter (·.2)).map (·.1) = l[k]?.toList := by
  induction l generalizing k with
  | nil => simp [createSingleRowMask]
  | cons x xs ih =>
    cases k with
    | zero =>
      have rest : (xs.zip ((range xs.length).map fun i => i + 1 == 0)).filter (·.2) = [] := by
        rw [filter_eq_nil_iff]
        intro entry hentry
        have := (of_mem_zip hentry).2
        simp at this
        simp [← this.2]
      simp [createSingleRowMask, range_succ_eq_map, comp_def] at rest ⊢
      exact rest
    | succ k =>
      have rest := ih k
      simp only [createSingleRowMask] at rest
      simpa [createSingleRowMask, range_succ_eq_map, comp_def] using rest

variable {k : Nat}

theorem singleRow_rows (hk : k < batch.rows.length) :
    (batch.filterRows (createSingleRowMask batch.rows.length k)).rows = [batch.rows[k]] := by
  have kept := zip_singleRowMask batch.rows k
  rw [getElem?_eq_getElem hk] at kept
  exact kept

def Moved (batch : RecordBatch) (id : Row → Nat) (n k : Nat) (parts : List RecordBatch) : Prop :=
  parts.map (·.rows) = (List.range n).map (lastOf id (batch.rows.take k)) ∧
    ∀ part ∈ parts, part.schema = batch.schema

theorem moved_zero : Moved batch id n 0 (List.replicate n (.newEmpty batch.schema)) := by
  constructor
  · apply ext_getElem
    · simp
    · intro p hp hp'
      simp [RecordBatch.newEmpty, lastOf, bucket]
  · intro part hpart
    rw [(mem_replicate.mp hpart).2]
    rfl

theorem concatenate_eq {batch1 batch2 : RecordBatch} (hschema : batch1.schema = batch2.schema)
    (hrows : batch2.rows ≠ []) : concatenateBatchesWithSchema batch1 batch2 = .ok batch2 := by
  simp [concatenateBatchesWithSchema, hschema, hrows]

theorem moveRow_eq (hk : k < batch.rows.length)
    (hschema : ∀ part ∈ parts, part.schema = batch.schema) :
    moveRow batch id parts k = .ok (parts.set (id batch.rows[k])
      (batch.filterRows (createSingleRowMask batch.rows.length k))) := by
  have current : (parts.getD (id batch.rows[k]) (.newEmpty batch.schema)).schema =
      batch.schema := by
    rw [getD_eq_getElem?_getD]
    cases hp : parts[id batch.rows[k]]? with
    | none => rfl
    | some part => exact hschema part (mem_of_getElem? hp)
  have row : batch.rows.getD k [] = batch.rows[k] := by simp [hk]
  rw [moveRow, row]
  generalize parts.getD (id batch.rows[k]) (.newEmpty batch.schema) = part at current
  by_cases hempty : part.rows = []
  · simp [hempty]
  · have kept : concatenateBatchesWithSchema part
        (batch.filterRows (createSingleRowMask batch.rows.length k)) =
          .ok (batch.filterRows (createSingleRowMask batch.rows.length k)) :=
      concatenate_eq current (by simp [singleRow_rows hk])
    simp [hempty, kept, bind, Except.bind, pure, Except.pure]

theorem moveRow_moved (hk : k < batch.rows.length) (h : Moved batch id n k parts) :
    ∃ parts', moveRow batch id parts k = .ok parts' ∧ Moved batch id n (k + 1) parts' := by
  refine ⟨_, moveRow_eq hk h.2, ?_, ?_⟩
  · rw [map_set, h.1, singleRow_rows hk, take_succ_eq_append_getElem hk]
    apply ext_getElem
    · simp
    · intro p hp hp'
      simp only [getElem_set, getElem_map, getElem_range, lastOf_concat]
  · intro part hpart
    rcases mem_or_eq_of_mem_set hpart with hpart | rfl
    · exact h.2 part hpart
    · rfl

theorem moveRows_moved (id : Row → Nat) (n : Nat) (hk : k ≤ batch.rows.length) :
    ∃ parts, (List.range k).foldlM (moveRow batch id)
        (List.replicate n (.newEmpty batch.schema)) = .ok parts ∧
      Moved batch id n k parts := by
  induction k with
  | zero => exact ⟨_, rfl, moved_zero⟩
  | succ k ih =>
    obtain ⟨parts, hparts, hmoved⟩ := ih (by omega)
    obtain ⟨parts', hparts', hmoved'⟩ := moveRow_moved (by omega) hmoved
    refine ⟨parts', ?_, hmoved'⟩
    rw [range_succ, foldlM_append, hparts]
    simp [bind, Except.bind, hparts', pure, Except.pure]

theorem moveRows_keeps_iff (hid : ∀ row ∈ batch.rows, id row < n) :
    Keeps batch n ((List.range batch.rows.length).foldlM (moveRow batch id)
      (List.replicate n (.newEmpty batch.schema))) ↔ (batch.rows.map id).Nodup := by
  obtain ⟨parts, hparts, hmoved⟩ := moveRows_moved id n (le_refl batch.rows.length)
  have hlen : parts.length = n := by simpa using congrArg length hmoved.1
  have rows : batchRows parts = (range n).flatMap (lastOf id batch.rows) := by
    rw [batchRows, flatMap_def, hmoved.1, take_length, flatMap_def]
  rw [← flatMap_lastOf_iff hid, ← rows, hparts]
  simp [Keeps, hlen]

theorem skewedRowPartition_lt (hasher : Hasher) (floatText : FloatText)
    (setOrder : HashOrder String) (roundRobin : Bool) (schema : Schema) (fieldRefs : List Nat)
    (hn : 0 < n) (skew : SkewDetectionResult) (row : Row) :
    skewedRowPartition hasher floatText setOrder roundRobin schema fieldRefs n skew row < n := by
  rw [skewedRowPartition, skewedPartition]
  split
  · split
    · exact Nat.mod_lt _ hn
    · exact Nat.mod_lt _ hn
  · exact Nat.mod_lt _ hn

end Skewed

section Claim

variable (ops : FloatOps) (hasher : Hasher) (floatText : FloatText)
  (mapOrder : HashOrder (String × Nat)) (setOrder : HashOrder String)
  (config : SkewHandlingConfig ops.F64)

/-- When the partitions hold all rows. -/
def Separable (batch : RecordBatch) (fieldRefs : List Nat) (numPartitions : Nat) : Prop :=
  let skew := detectSkew ops floatText mapOrder config batch fieldRefs
  if skew.isSkewed then
    (batch.rows.map (skewedRowPartition hasher floatText setOrder
      config.enableRoundRobinDistribution batch.schema fieldRefs numPartitions skew)).Nodup
  else fieldRefs = [] ∨
    ∀ row ∈ batch.rows, ∀ c ∈ keyCells batch.schema fieldRefs row, Hashes c

/-- All rows come out, in as many batches as asked for, just when the hash accepts the keys of an
even batch, or the rows of a skewed one all go to partitions of their own. -/
theorem rows_kept_iff (batch : RecordBatch) (fieldRefs : List Nat) {numPartitions : Nat}
    (hn : 0 < numPartitions) :
    Keeps batch numPartitions (skewAwareHashPartition ops hasher floatText mapOrder setOrder config
        batch fieldRefs numPartitions) ↔
      Separable ops hasher floatText mapOrder setOrder config batch fieldRefs numPartitions := by
  rw [skewAwareHashPartition, Separable]
  by_cases hskew : (detectSkew ops floatText mapOrder config batch fieldRefs).isSkewed = true
  · simp only [hskew, if_true]
    exact moveRows_keeps_iff fun row _ => skewedRowPartition_lt _ _ _ _ _ _ hn _ _
  · simp only [hskew]
    exact traditional_keeps_iff hasher batch fieldRefs hn

end Claim

def floorSqrt (m : Nat) : Nat := ((List.range (m + 1)).filter fun k => k * k ≤ m).length - 1

/-- Rational arithmetic, with square roots rounded down above and below the line. -/
def rationalOps : FloatOps where
  F64 := ℚ
  literal := id
  add := (· + ·)
  sub := (· - ·)
  mul := (· * ·)
  div := (· / ·)
  sqrt q := (floorSqrt q.num.toNat : ℚ) / floorSqrt q.den
  gt a b := decide (b < a)
  eq a b := decide (a = b)
  asUsize q := q.floor.toNat

def sameOrder (α : Type) : HashOrder α := ⟨id, fun l => .refl l⟩

def textBatch (keys : List String) : RecordBatch where
  schema := [⟨"k", .utf8⟩]
  rows := keys.map fun key => [some (.text key)]
  fits row h := by
    obtain ⟨key, -, rfl⟩ := List.mem_map.mp h
    exact .cons rfl .nil

def eagerConfig : SkewHandlingConfig rationalOps.F64 where
  skewThreshold := (1 / 2 : ℚ)
  topKeyPercentage := (1 / 20 : ℚ)
  maxTopKeys := 20
  minRowsForSkewDetection := 0
  enableRoundRobinDistribution := true

theorem rows_kept_iff_even :
    Keeps (textBatch ["a", "b", "a"]) 2 (skewAwareHashPartition rationalOps
      (fun bytes => bytes.length.toUInt64) (fun _ _ => "") (sameOrder _) (sameOrder _)
      (.default rationalOps) (textBatch ["a", "b", "a"]) [0] 2) :=
  (rows_kept_iff _ _ _ _ _ _ _ _ (by decide)).mpr (by
    rw [Separable]
    simp [detectSkew, textBatch, SkewHandlingConfig.default, keyCells, Hashes])

/-- Five rows with one key and a sixth with another: only the last one is kept. -/
theorem skewed_rows_lost :
    ¬ Keeps (textBatch ["a", "a", "a", "a", "a", "b"]) 2 (skewAwareHashPartition rationalOps
      (fun _ => 0) (fun _ _ => "") (sameOrder _) (sameOrder _) eagerConfig
      (textBatch ["a", "a", "a", "a", "a", "b"]) [0] 2) := by
  have skewed : (detectSkew rationalOps (fun _ _ => "") (sameOrder _) eagerConfig
      (textBatch ["a", "a", "a", "a", "a", "b"]) [0]).isSkewed = true := by decide +kernel
  rw [skewAwareHashPartition, if_pos skewed, handleSkewedPartitioning,
    moveRows_keeps_iff fun row _ => skewedRowPartition_lt _ _ _ _ _ _ (by decide) _ _]
  decide +kernel

end Leibrix.HashRows
