import Leibrix.HashColocation

/-!
# The regular partitioner over a streaming hasher

The hasher reads the key cells of a row one after the other, byte by byte, and the
partition is the rest of what it ends with. Two zeros of a floating-point column are
equal but have two bit patterns, and the hasher reads the bits.
-/

set_option autoImplicit false

namespace Leibrix.HashStream
open ArrowBatch HashPartition HashRows HashColocation List

structure StreamingHasher (σ : Type) where
  new : σ
  write : σ → UInt8 → σ
  finish : σ → UInt64

section Streams

variable {σ : Type} (h : StreamingHasher σ)

def StreamingHasher.hasher : Hasher := fun bytes => h.finish (bytes.foldl h.write h.new)

/-- The loop over the key columns of one row, and the partition it gives. -/
def streamedPartition (schema : Schema) (fieldRefs : List Nat) (numPartitions : Nat) (row : Row) :
    Except ExchangeError Nat := do
  let state ← (keyCells schema fieldRefs row).foldlM
    (fun state c => do return (← hashColumnValue c.1 c.2).foldl h.write state) h.new
  return (h.finish state).toNat % numPartitions

theorem foldlM_cells (cells : List (DataType × Cell)) (state : σ) :
    cells.foldlM (fun state c => do return (← hashColumnValue c.1 c.2).foldl h.write state) state =
      (hashKey cells).map fun bytes => bytes.foldl h.write state := by
  induction cells generalizing state with
  | nil => rfl
  | cons c cells ih =>
    rw [foldlM_cons, hashKey, mapM_cons]
    cases hashColumnValue c.1 c.2 with
    | error e => rfl
    | ok bytes =>
      simp only [bind, Except.bind, pure, Except.pure] at ih ⊢
      rw [ih, hashKey]
      cases cells.mapM fun c => hashColumnValue c.1 c.2 <;>
        simp [bind, Except.bind, pure, Except.pure, Except.map]

theorem streamedPartition_eq (schema : Schema) (fieldRefs : List Nat) (n : Nat) (row : Row) :
    streamedPartition h schema fieldRefs n row =
      hashedPartition h.hasher schema fieldRefs n row := by
  rw [streamedPartition, foldlM_cells, hashedPartition]
  cases hashKey (keyCells schema fieldRefs row) <;> rfl

end Streams

/-- Every key is a column of the schema, of a type that can be hashed. -/
def Hashable (schema : Schema) (fieldRefs : List Nat) : Prop :=
  ∀ i ∈ fieldRefs, ∃ field, schema[i]? = some field ∧
    (∀ display, field.dataType ≠ .dictionary display) ∧ ∀ display, field.dataType ≠ .other display

theorem Hashable.hashes {schema : Schema} {fieldRefs : List Nat} (h : Hashable schema fieldRefs)
    (row : Row) : ∀ c ∈ keyCells schema fieldRefs row, Hashes c := by
  intro c hc
  obtain ⟨i, hi, hcell⟩ := mem_filterMap.mp hc
  obtain ⟨field, hfield, types⟩ := h i hi
  rw [hfield] at hcell
  cases hr : row[i]? with
  | none => simp [hr] at hcell
  | some cell =>
    simp only [hr, Option.some.injEq] at hcell
    rw [← hcell]
    exact .inr types

/-- The two bit patterns of zero. -/
def zeros : DataType → List UInt64
  | .float32 => [0, 0x80000000]
  | .float64 => [0, 0x8000000000000000]
  | _ => []

def isNan : DataType → UInt64 → Bool
  | .float32, bits => isNan32 bits
  | .float64, bits => isNan64 bits
  | _, _ => false

/-- Equal cells of one type: a number that is not one equals itself, and so do the zeros. -/
inductive EqualCells : DataType × Cell → DataType × Cell → Prop
  | same (c : DataType × Cell) : EqualCells c c
  | nans {t : DataType} {bits bits' : UInt64} : isNan t bits → isNan t bits' →
      EqualCells (t, some (.float bits)) (t, some (.float bits'))
  | zeros {t : DataType} {bits bits' : UInt64} : bits ∈ zeros t → bits' ∈ zeros t →
      EqualCells (t, some (.float bits)) (t, some (.float bits'))

/-- A zero meets no zero but the one of its sign. -/
def OneZero (c c' : DataType × Cell) : Prop :=
  ∀ t, ∀ bits ∈ zeros t, c = (t, some (.float bits)) → c' = c

theorem not_isNan_of_zero {t : DataType} {bits : UInt64} (h : bits ∈ zeros t) : ¬ isNan t bits := by
  cases t <;> simp only [zeros, mem_cons, not_mem_nil, or_false] at h
  all_goals obtain rfl | rfl := h <;> decide

/-- Equal cells write equally many bytes, and the same ones unless they are zeros of two signs. -/
theorem EqualCells.written {c c' : DataType × Cell} (h : EqualCells c c') (hashes : Hashes c) :
    ∃ bytes bytes', hashColumnValue c.1 c.2 = .ok bytes ∧ hashColumnValue c'.1 c'.2 = .ok bytes' ∧
      bytes.length = bytes'.length ∧ (bytes = bytes' ↔ OneZero c c') := by
  cases h with
  | same =>
    obtain ⟨bytes, hbytes⟩ := (hashColumnValue_ok_iff c).mpr hashes
    exact ⟨bytes, bytes, hbytes, hbytes, rfl, by simp [OneZero]⟩
  | @nans t bits bits' hb hb' =>
    have one : OneZero (t, some (.float bits)) (t, some (.float bits')) := by
      rintro t b hz ⟨⟩
      exact absurd hb (not_isNan_of_zero hz)
    refine ⟨strBytes "NaN", strBytes "NaN", ?_, ?_, rfl, by simp [one]⟩ <;>
      cases t <;> simp_all [hashColumnValue, isNan]
  | @zeros t bits bits' hb hb' =>
    have one : OneZero (t, some (.float bits)) (t, some (.float bits')) ↔ bits = bits' := by
      constructor
      · intro one
        have same := one t bits hb rfl
        simp only [Prod.mk.injEq, Option.some.injEq, Value.float.injEq, true_and] at same
        exact same.symm
      · rintro rfl
        simp [OneZero]
    rw [one]
    cases t <;> simp only [HashStream.zeros, mem_cons, not_mem_nil, or_false] at hb hb'
    all_goals
      obtain rfl | rfl := hb <;> obtain rfl | rfl := hb' <;>
        exact ⟨_, _, rfl, rfl, by decide, by decide⟩

theorem hashKey_cons (c : DataType × Cell) (cells : List (DataType × Cell)) :
    hashKey (c::cells) = (do
      let bytes ← hashColumnValue c.1 c.2
      let rest ← hashKey cells
      return bytes ++ rest) := by
  rw [hashKey, mapM_cons]
  cases hashColumnValue c.1 c.2 with
  | error e => rfl
  | ok bytes =>
    simp only [bind, Except.bind, pure, Except.pure, hashKey]
    cases cells.mapM fun c => hashColumnValue c.1 c.2 <;> rfl

theorem hashKey_equal {cells cells' : List (DataType × Cell)}
    (equal : Forall₂ EqualCells cells cells') (hashes : ∀ c ∈ cells, Hashes c) :
    ∃ bytes bytes', hashKey cells = .ok bytes ∧ hashKey cells' = .ok bytes' ∧
      (bytes = bytes' ↔ Forall₂ OneZero cells cells') := by
  induction equal with
  | nil => exact ⟨[], [], rfl, rfl, by simp⟩
  | @cons c c' cells cells' hc _ ih =>
    obtain ⟨bytes, bytes', hb, hb', length, one⟩ := hc.written (hashes c mem_cons_self)
    obtain ⟨rest, rest', hr, hr', ones⟩ := ih fun c hc => hashes c (mem_cons_of_mem _ hc)
    refine ⟨bytes ++ rest, bytes' ++ rest', by rw [hashKey_cons, hb, hr]; rfl,
      by rw [hashKey_cons, hb', hr']; rfl, ?_⟩
    rw [forall₂_cons, ← one, ← ones]
    exact ⟨fun same => append_inj same length, fun ⟨same, same'⟩ => by rw [same, same']⟩

section Calls

variable {σ : Type} (h : StreamingHasher σ) {batch batch' : RecordBatch}
  {fieldRefs fieldRefs' : List Nat} {n : Nat}

/-- The call gives one batch for each partition, with the rows of its number in their order. -/
def Exact (batch : RecordBatch) (fieldRefs : List Nat) (n : Nat) : Prop :=
  ∃ parts, hashPartitionBatchTraditional h.hasher batch fieldRefs n = .ok parts ∧
    (∀ part ∈ parts, part.schema = batch.schema) ∧
    parts.map (·.rows) = (List.range n).map (fun p => batch.rows.filter fun row =>
      streamedPartition h batch.schema fieldRefs n row = .ok p) ∧
    (batchRows parts : Multiset Row) = batch.rows

/-- Rows with equal keys come out under the same number in two calls. -/
def EqualKeysMeet (batch batch' : RecordBatch) (fieldRefs fieldRefs' : List Nat) (n : Nat) : Prop :=
  ∀ parts parts', hashPartitionBatchTraditional h.hasher batch fieldRefs n = .ok parts →
    hashPartitionBatchTraditional h.hasher batch' fieldRefs' n = .ok parts' →
  ∀ (p : Nat) (part : RecordBatch), parts[p]? = some part → ∀ row ∈ part.rows,
  ∀ (q : Nat) (part' : RecordBatch), parts'[q]? = some part' → ∀ row' ∈ part'.rows,
    Forall₂ EqualCells (keyCells batch.schema fieldRefs row)
      (keyCells batch'.schema fieldRefs' row') → p = q

theorem exact (hn : 0 < n) (hrefs : fieldRefs ≠ []) (keys : Hashable batch.schema fieldRefs) :
    Exact h batch fieldRefs n := by
  obtain ⟨parts, hparts, -, bag⟩ := (traditional_keeps_iff h.hasher batch fieldRefs hn).mpr
    (.inr fun row _ => keys.hashes row)
  have notEmpty : fieldRefs.isEmpty = false := by simpa using hrefs
  refine ⟨parts, hparts, (traditional_rows hparts).1, ?_, bag⟩
  simpa [notEmpty, streamedPartition_eq] using (traditional_rows hparts).2

variable {p : Nat} {row : Row}

section Parts

variable {parts : List RecordBatch} {part : RecordBatch}
  (hparts : hashPartitionBatchTraditional h.hasher batch fieldRefs n = .ok parts)
  (hp : parts[p]? = some part) (hrow : row ∈ part.rows)
include hparts hp hrow

theorem mem_of_part : row ∈ batch.rows := by
  have rows := congrArg (·[p]?) (traditional_rows hparts).2
  simp only [getElem?_map, hp, Option.map_some] at rows
  obtain ⟨q, -, filtered⟩ := Option.map_eq_some_iff.mp rows.symm
  rw [← filtered] at hrow
  exact (mem_filter.mp hrow).1

theorem part_streamed (hrefs : fieldRefs ≠ []) :
    streamedPartition h batch.schema fieldRefs n row = .ok p := by
  have place := traditional_part h.hasher hparts hp hrow
  rwa [if_neg (by simpa using hrefs), ← streamedPartition_eq] at place

end Parts

theorem Exact.part (exact : Exact h batch fieldRefs n) (hrow : row ∈ batch.rows) (hp : p < n)
    (place : streamedPartition h batch.schema fieldRefs n row = .ok p) :
    ∃ parts part, hashPartitionBatchTraditional h.hasher batch fieldRefs n = .ok parts ∧
      parts[p]? = some part ∧ row ∈ part.rows := by
  obtain ⟨parts, hparts, -, rows, -⟩ := exact
  have here := congrArg (·[p]?) rows
  simp only [getElem?_map, getElem?_range hp, Option.map_some] at here
  obtain ⟨part, hpart, filtered⟩ := Option.map_eq_some_iff.mp here
  refine ⟨parts, part, hparts, hpart, ?_⟩
  rw [filtered, mem_filter]
  exact ⟨hrow, by simpa using place⟩

/-- A hasher that keeps what it reads and tells one text from all others. -/
def telling (bytes : List UInt8) : StreamingHasher (List UInt8) where
  new := []
  write state byte := state ++ [byte]
  finish state := if state = bytes then 0 else 1

theorem telling_hasher (bytes read : List UInt8) :
    (telling bytes).hasher read = if read = bytes then 0 else 1 := by
  have kept (state : List UInt8) : read.foldl (telling bytes).write state = state ++ read := by
    induction read generalizing state with
    | nil => simp
    | cons byte read ih => rw [foldl_cons, ih, telling, append_assoc, singleton_append]
  rw [StreamingHasher.hasher, kept]
  rfl

end Calls

/-- The regular partitioner splits the rows by their streamed hash, in the order they have, and
equal keys meet in two calls, whatever the hasher, exactly if there is one partition only or no
two equal keys hold zeros of two signs. -/
theorem regular_partitions_exact_iff {batch batch' : RecordBatch} {fieldRefs fieldRefs' : List Nat}
    {n : Nat} (hn : 0 < n) (hrefs : fieldRefs ≠ []) (hrefs' : fieldRefs' ≠ [])
    (keys : Hashable batch.schema fieldRefs) (keys' : Hashable batch'.schema fieldRefs') :
    (∀ (σ : Type) (h : StreamingHasher σ),
      Exact h batch fieldRefs n ∧ EqualKeysMeet h batch batch' fieldRefs fieldRefs' n) ↔
    (n = 1 ∨ ∀ row ∈ batch.rows, ∀ row' ∈ batch'.rows,
      Forall₂ EqualCells (keyCells batch.schema fieldRefs row)
        (keyCells batch'.schema fieldRefs' row') →
      Forall₂ OneZero (keyCells batch.schema fieldRefs row)
        (keyCells batch'.schema fieldRefs' row')) := by
  constructor
  · intro holds
    by_cases one : n = 1
    · exact .inl one
    refine .inr fun row hrow row' hrow' equal => ?_
    obtain ⟨bytes, bytes', hb, hb', same⟩ := hashKey_equal equal (keys.hashes row)
    refine same.mp ?_
    by_contra differ
    -- the hasher that knows the key of the first row sends the second elsewhere
    obtain ⟨whole, meet⟩ := holds _ (telling bytes)
    have place : streamedPartition (telling bytes) batch.schema fieldRefs n row = .ok 0 := by
      rw [streamedPartition_eq, hashedPartition, hb]
      simp [bind, Except.bind, pure, Except.pure, telling_hasher]
    have place' : streamedPartition (telling bytes) batch'.schema fieldRefs' n row' = .ok 1 := by
      rw [streamedPartition_eq, hashedPartition, hb']
      simp [bind, Except.bind, pure, Except.pure, telling_hasher, Ne.symm differ,
        Nat.mod_eq_of_lt (show 1 < n by omega)]
    obtain ⟨parts, part, hparts, hp, hmem⟩ := whole.part _ hrow hn place
    obtain ⟨parts', part', hparts', hq, hmem'⟩ :=
      (exact (telling bytes) hn hrefs' keys').part _ hrow' (by omega) place'
    exact absurd (meet _ _ hparts hparts' _ _ hp _ hmem _ _ hq _ hmem' equal) (by omega)
  · intro cond σ h
    refine ⟨exact h hn hrefs keys, ?_⟩
    intro parts parts' hparts hparts' p part hp row hmem q part' hq row' hmem' equal
    have left := part_streamed h hparts hp hmem hrefs
    have right := part_streamed h hparts' hq hmem' hrefs'
    rw [streamedPartition_eq, hashedPartition] at left right
    obtain ⟨bytes, bytes', hb, hb', same⟩ := hashKey_equal equal (keys.hashes row)
    rw [hb] at left
    rw [hb'] at right
    obtain rfl : (h.hasher bytes).toNat % n = p := Except.ok.inj left
    obtain rfl : (h.hasher bytes').toNat % n = q := Except.ok.inj right
    obtain rfl | ones := cond
    · rw [Nat.mod_one, Nat.mod_one]
    · rw [same.mpr (ones row (mem_of_part h hparts hp hmem) row' (mem_of_part h hparts' hq hmem')
        equal)]

def lastByte : StreamingHasher UInt8 := ⟨0, fun _ byte => byte, UInt8.toUInt64⟩

def floats (bits : List UInt64) : RecordBatch where
  schema := [⟨"x", .float64⟩]
  rows := bits.map fun b => [some (.float b)]
  fits row h := by
    obtain ⟨b, -, rfl⟩ := List.mem_map.mp h
    exact .cons rfl .nil

theorem floats_hashable (bits : List UInt64) : Hashable (floats bits).schema [0] :=
  fun i hi => ⟨⟨"x", .float64⟩, by rw [mem_singleton.mp hi]; rfl, nofun, nofun⟩

theorem regular_partitions_exact_iff_positive :
    Exact lastByte (floats [0, 1, 0]) [0] 3 ∧
      EqualKeysMeet lastByte (floats [0, 1, 0]) (floats [1, 0]) [0] [0] 3 := by
  refine (regular_partitions_exact_iff (by decide) (cons_ne_nil 0 []) (cons_ne_nil 0 [])
    (floats_hashable _) (floats_hashable _)).mpr (.inr fun row hrow row' hrow' equal => ?_) _ _
  obtain ⟨b, hb, rfl⟩ := mem_map.mp hrow
  obtain ⟨b', hb', rfl⟩ := mem_map.mp hrow'
  obtain ⟨first, -⟩ := forall₂_cons.mp equal
  refine .cons ?_ .nil
  rintro t bits hz ⟨⟩
  cases first with
  | same => rfl
  | nans hnan => exact absurd hnan (not_isNan_of_zero hz)
  | zeros _ hz' =>
    obtain rfl : b = 0 := by simp [zeros] at hz hb; grind
    obtain rfl : b' = 0 := by simp [zeros] at hz' hb'; grind
    rfl

/-- The two zeros are equal, and a hasher that reads the sign sends them apart. -/
theorem zeros_apart :
    EqualCells (.float64, some (.float 0)) (.float64, some (.float 0x8000000000000000)) ∧
    ∃ parts, hashPartitionBatchTraditional lastByte.hasher (floats [0, 0x8000000000000000]) [0] 3 =
        .ok parts ∧
      parts.map (·.rows) = [[[some (.float 0)]], [], [[some (.float 0x8000000000000000)]]] :=
  ⟨.zeros (by decide) (by decide), _, rfl, by decide +kernel⟩

end Leibrix.HashStream
