import Leibrix.ArrowBatch
import Leibrix.Buckets

/-!
# Hash partitioning of batches

A batch is split by the hash of its key cells. When the key counts of the batch look
skewed, another path takes over: it encodes the key cells as text, gives the most
frequent keys a partition by their place in a hash set, hashes the other texts, and
moves the rows one by one. The hasher is a function of the bytes written to it, and
the iteration orders of hash tables are arbitrary permutations.
-/

set_option autoImplicit false

namespace Leibrix.HashPartition
open ArrowBatch

inductive ExchangeError where
  | stageNotFound (stage : Nat)
  | exchangeNotFound (exchange : Nat)
  | upstreamNotReady (stage : Nat)
  | fetchFailed (detail : String)
  | partitionFailed (detail : String)
  | noBatches
  | concatFailed (detail : String)
  | columnNotFound (detail : String)
  deriving DecidableEq

abbrev Hasher := List UInt8 → UInt64

def intBytes (width : Nat) (n : Int) : List UInt8 :=
  (List.range width).map fun i => UInt8.ofNat ((n % 2 ^ (8 * width)).toNat / 256 ^ i)

def strBytes (s : String) : List UInt8 := s.toUTF8.data.toList ++ [0xff]

def sliceBytes (b : List UInt8) : List UInt8 := intBytes 8 b.length ++ b

def isNan32 (bits : UInt64) : Bool :=
  bits &&& 0x7f800000 == 0x7f800000 && bits &&& 0x7fffff != 0

def isNan64 (bits : UInt64) : Bool :=
  bits &&& 0x7ff0000000000000 == 0x7ff0000000000000 && bits &&& 0xfffffffffffff != 0

/-- What a cell writes to the hasher. Cells that do not fit their type do not occur. -/
def hashColumnValue : DataType → Cell → Except ExchangeError (List UInt8)
  | _, none => .ok (strBytes "NULL_VALUE")
  | .int8, some (.int n) => .ok (intBytes 1 n)
  | .int16, some (.int n) => .ok (intBytes 2 n)
  | .int32, some (.int n) => .ok (intBytes 4 n)
  | .int64, some (.int n) => .ok (intBytes 8 n)
  | .uint8, some (.int n) => .ok (intBytes 1 n)
  | .uint16, some (.int n) => .ok (intBytes 2 n)
  | .uint32, some (.int n) => .ok (intBytes 4 n)
  | .uint64, some (.int n) => .ok (intBytes 8 n)
  | .float32, some (.float bits) =>
    .ok (if isNan32 bits then strBytes "NaN" else intBytes 4 bits.toNat)
  | .float64, some (.float bits) =>
    .ok (if isNan64 bits then strBytes "NaN" else intBytes 8 bits.toNat)
  | .utf8, some (.text s) | .largeUtf8, some (.text s) => .ok (strBytes s)
  | .date32, some (.int n) => .ok (intBytes 4 n)
  | .date64, some (.int n) | .timestamp _, some (.int n) => .ok (intBytes 8 n)
  | .decimal128 _ _, some (.int n) => .ok (intBytes 16 n)
  | .decimal256 _ _, some (.int n) => .ok (sliceBytes (intBytes 32 n))
  | .boolean, some (.bool b) => .ok (intBytes 1 (if b then 1 else 0))
  | .binary, some (.bytes b) | .largeBinary, some (.bytes b) | .fixedSizeBinary _, some (.bytes b) =>
    .ok (sliceBytes b)
  | .dictionary display, some _ => .error (.partitionFailed
      ("Dictionary type not fully supported for hash partitioning: " ++ display))
  | .other display, some _ =>
    .error (.partitionFailed ("Unsupported data type for hash partitioning: " ++ display))
  | _, some _ => .ok []

/-- How floating-point numbers are printed, by their type. -/
abbrev FloatText := DataType → UInt64 → String

/-- `{:?}` of a byte slice. -/
def debugBytes (b : List UInt8) : String :=
  "[" ++ ", ".intercalate (b.map (toString ·.toNat)) ++ "]"

def getRowValueAsString (floatText : FloatText) : DataType → Cell → String
  | _, none => "NULL"
  | .dictionary _, some _ | .other _, some _ => "other"
  | _, some (.int n) => toString n
  | t, some (.float bits) => floatText t bits
  | _, some (.text s) => s
  | _, some (.bool b) => toString b
  | _, some (.bytes b) => debugBytes b
  | _, some (.other display) => display

def keyCells (schema : Schema) (fieldRefs : List Nat) (row : Row) : List (DataType × Cell) :=
  fieldRefs.filterMap fun i =>
    match schema[i]?, row[i]? with
    | some field, some cell => some (field.dataType, cell)
    | _, _ => none

def hashKey (cells : List (DataType × Cell)) : Except ExchangeError (List UInt8) := do
  let written ← cells.mapM fun c => hashColumnValue c.1 c.2
  return written.flatten

def compositeKey (floatText : FloatText) (cells : List (DataType × Cell)) : String :=
  "|".intercalate (cells.map fun c => getRowValueAsString floatText c.1 c.2)

section Traditional

variable (hasher : Hasher)

def hashedPartition (schema : Schema) (fieldRefs : List Nat) (numPartitions : Nat) (row : Row) :
    Except ExchangeError Nat := do
  let written ← hashKey (keyCells schema fieldRefs row)
  return (hasher written).toNat % numPartitions

def hashPartitionBatchTraditional (batch : RecordBatch) (fieldRefs : List Nat)
    (numPartitions : Nat) : Except ExchangeError (List RecordBatch) :=
  if batch.rows.isEmpty then .ok (List.replicate numPartitions batch)
  else if fieldRefs.isEmpty then
    .ok ((List.replicate numPartitions (.newEmpty batch.schema)).set 0 batch)
  else do
    let partitionIds ← batch.rows.mapM
      (hashedPartition hasher batch.schema fieldRefs numPartitions)
    return (List.range numPartitions).map fun p => batch.filterRows (partitionIds.map (· == p))

end Traditional

/-- The double-precision operations that skew detection uses. -/
structure FloatOps where
  F64 : Type
  literal : ℚ → F64
  add : F64 → F64 → F64
  sub : F64 → F64 → F64
  mul : F64 → F64 → F64
  div : F64 → F64 → F64
  sqrt : F64 → F64
  gt : F64 → F64 → Bool
  eq : F64 → F64 → Bool
  /-- `as usize` -/
  asUsize : F64 → Nat

structure SkewHandlingConfig (F64 : Type) where
  skewThreshold : F64
  topKeyPercentage : F64
  maxTopKeys : Nat
  minRowsForSkewDetection : Nat
  enableRoundRobinDistribution : Bool

/-- The limits of `SkewHandler::new`. -/
def SkewHandlingConfig.default (ops : FloatOps) : SkewHandlingConfig ops.F64 where
  skewThreshold := ops.literal (3 / 2)
  topKeyPercentage := ops.literal (1 / 20)
  maxTopKeys := 20
  minRowsForSkewDetection := 1000
  enableRoundRobinDistribution := true

structure SkewDetectionResult where
  isSkewed : Bool
  topKeys : List (String × Nat)
  deriving DecidableEq

/-- In which order a hash table gives out its entries. -/
structure HashOrder (α : Type) where
  iter : List α → List α
  perm : ∀ l, (iter l).Perm l

section Skew

variable (ops : FloatOps) (hasher : Hasher) (floatText : FloatText)
  (mapOrder : HashOrder (String × Nat)) (setOrder : HashOrder String)
  (config : SkewHandlingConfig ops.F64)

def countKey : List (String × Nat) → String → List (String × Nat)
  | [], key => [(key, 1)]
  | (k, n)::rest, key => if k = key then (k, n + 1)::rest else (k, n)::countKey rest key

variable (batch : RecordBatch) (fieldRefs : List Nat)

def analyzeKeyDistribution : List (String × Nat) :=
  (batch.rows.map fun row => compositeKey floatText (keyCells batch.schema fieldRefs row)).foldl
    countKey []

def calculateSkewCoefficient (counts : List Nat) (mean : ops.F64) : ops.F64 :=
  if counts.isEmpty || ops.eq mean (ops.literal 0) then ops.literal 0
  else
    let squares := counts.map fun count =>
      let diff := ops.sub (ops.literal count) mean
      ops.mul diff diff
    let variance := ops.div (squares.foldl ops.add (ops.literal 0)) (ops.literal counts.length)
    ops.div (ops.sqrt variance) mean

def detectSkew : SkewDetectionResult :=
  if batch.rows.length < config.minRowsForSkewDetection then ⟨false, []⟩
  else
    let keyCounts := mapOrder.iter (analyzeKeyDistribution floatText batch fieldRefs)
    if keyCounts.isEmpty then ⟨false, []⟩
    else
      let distinctKeys := ops.literal keyCounts.length
      let avgRowsPerKey := ops.div (ops.literal batch.rows.length) distinctKeys
      let coefficient := calculateSkewCoefficient ops (keyCounts.map (·.2)) avgRowsPerKey
      let sortedKeys := keyCounts.mergeSort fun a b => decide (b.2 ≤ a.2)
      let topKeyCount := min config.maxTopKeys
        (ops.asUsize (ops.mul distinctKeys config.topKeyPercentage))
      ⟨ops.gt coefficient config.skewThreshold, sortedKeys.take topKeyCount⟩

def computeHashPartition (key : String) (numPartitions : Nat) : Nat :=
  (hasher (strBytes key)).toNat % numPartitions

variable (roundRobin : Bool)

def skewedPartition (topKeySet : List String) (numPartitions : Nat) (key : String) : Nat :=
  if topKeySet.contains key then
    if roundRobin then topKeySet.idxOf key % numPartitions
    else computeHashPartition hasher key numPartitions
  else computeHashPartition hasher key numPartitions

def concatenateBatchesWithSchema (batch1 batch2 : RecordBatch) : Except ExchangeError RecordBatch :=
  if batch1.schema ≠ batch2.schema then .error (.concatFailed "Schemas do not match")
  else if batch1.rows.isEmpty then .ok batch2
  else if batch2.rows.isEmpty then .ok batch1
  -- the rows of the first batch are not taken over
  else .ok batch2

def createSingleRowMask (totalRows rowIdx : Nat) : List Bool :=
  (List.range totalRows).map (· == rowIdx)

def moveRow (partitionId : Row → Nat) (partitions : List RecordBatch)
    (rowIdx : Nat) : Except ExchangeError (List RecordBatch) :=
  let id := partitionId (batch.rows.getD rowIdx [])
  let single := batch.filterRows (createSingleRowMask batch.rows.length rowIdx)
  let current := partitions.getD id (.newEmpty batch.schema)
  if current.rows.isEmpty then .ok (partitions.set id single)
  else do
    let joined ← concatenateBatchesWithSchema current single
    return partitions.set id joined

def topKeySet (skew : SkewDetectionResult) : List String :=
  setOrder.iter (skew.topKeys.map (·.1)).dedup

def skewedRowPartition (schema : Schema) (fieldRefs : List Nat) (numPartitions : Nat)
    (skew : SkewDetectionResult) (row : Row) : Nat :=
  skewedPartition hasher roundRobin (topKeySet setOrder skew) numPartitions
    (compositeKey floatText (keyCells schema fieldRefs row))

def handleSkewedPartitioning (batch : RecordBatch) (fieldRefs : List Nat) (numPartitions : Nat)
    (skew : SkewDetectionResult) : Except ExchangeError (List RecordBatch) :=
  (List.range batch.rows.length).foldlM
    (moveRow batch (skewedRowPartition hasher floatText setOrder roundRobin batch.schema fieldRefs
      numPartitions skew))
    (List.replicate numPartitions (.newEmpty batch.schema))

variable (numPartitions : Nat)

def skewAwareHashPartition : Except ExchangeError (List RecordBatch) :=
  let skew := detectSkew ops floatText mapOrder config batch fieldRefs
  if skew.isSkewed then
    handleSkewedPartitioning hasher floatText setOrder config.enableRoundRobinDistribution batch
      fieldRefs numPartitions skew
  else hashPartitionBatchTraditional hasher batch fieldRefs numPartitions

def hashPartitionBatchWithSkewHandling
    (enableSkewHandling : Bool) : Except ExchangeError (List RecordBatch) :=
  if enableSkewHandling then
    skewAwareHashPartition ops hasher floatText mapOrder setOrder (.default ops) batch fieldRefs
      numPartitions
  else hashPartitionBatchTraditional hasher batch fieldRefs numPartitions

def hashPartitionBatch : Except ExchangeError (List RecordBatch) :=
  hashPartitionBatchWithSkewHandling ops hasher floatText mapOrder setOrder batch fieldRefs
    numPartitions true

end Skew

end Leibrix.HashPartition
