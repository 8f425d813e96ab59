import Mathlib.Algebra.GroupWithZero.Nat
import Mathlib.Algebra.Ring.Int.Defs
import Mathlib.Data.List.Forall2

/-!
# Record batches

Columnar batches as the executor sees them: a schema and rows of cells, where an
empty cell is null. Integers, dates, timestamps and the unscaled values of decimals
are integers; floating-point numbers are kept as their bits. The types that the
executor does not look into carry their display text.
-/

set_option autoImplicit false

namespace Leibrix.ArrowBatch

inductive TimeUnit where
  | second | millisecond | microsecond | nanosecond
  deriving DecidableEq

inductive DataType where
  | int8 | int16 | int32 | int64 | uint8 | uint16 | uint32 | uint64
  | float32 | float64 | utf8 | largeUtf8 | date32 | date64
  | timestamp (unit : TimeUnit)
  | decimal128 (precision : Nat) (scale : Int)
  | decimal256 (precision : Nat) (scale : Int)
  | boolean | binary | largeBinary
  | fixedSizeBinary (size : Nat)
  | dictionary (display : String)
  | other (display : String)
  deriving DecidableEq

inductive Value where
  | int (n : Int)
  | float (bits : UInt64)
  | text (s : String)
  | bool (b : Bool)
  | bytes (b : List UInt8)
  | other (display : String)
  deriving DecidableEq

abbrev Cell := Option Value

abbrev Row := List Cell

def signedRange (bits : Nat) (n : Int) : Bool := decide (-2 ^ (bits - 1) ≤ n ∧ n < 2 ^ (bits - 1))

def unsignedRange (bits : Nat) (n : Int) : Bool := decide (0 ≤ n ∧ n < 2 ^ bits)

/-- A value that an array of the type can hold. -/
def DataType.fits : DataType → Value → Bool
  | .int8, .int n => signedRange 8 n
  | .int16, .int n => signedRange 16 n
  | .int32, .int n => signedRange 32 n
  | .int64, .int n => signedRange 64 n
  | .uint8, .int n => unsignedRange 8 n
  | .uint16, .int n => unsignedRange 16 n
  | .uint32, .int n => unsignedRange 32 n
  | .uint64, .int n => unsignedRange 64 n
  | .float32, .float bits => decide (bits.toNat < 2 ^ 32)
  | .float64, .float _ | .utf8, .text _ | .largeUtf8, .text _ => true
  | .date32, .int n => signedRange 32 n
  | .date64, .int n | .timestamp _, .int n => signedRange 64 n
  | .decimal128 _ _, .int n => signedRange 128 n
  | .decimal256 _ _, .int n => signedRange 256 n
  | .boolean, .bool _ | .binary, .bytes _ | .largeBinary, .bytes _ => true
  | .fixedSizeBinary size, .bytes b => decide (b.length = size)
  | .dictionary _, _ | .other _, _ => true
  | _, _ => false

structure Field where
  name : String
  dataType : DataType
  deriving DecidableEq

abbrev Schema := List Field

abbrev RowFits (schema : Schema) (row : Row) : Prop :=
  List.Forall₂ (fun (f : Field) (c : Cell) => c.all f.dataType.fits = true) schema row

structure RecordBatch where
  schema : Schema
  rows : List Row
  fits : ∀ row ∈ rows, RowFits schema row

namespace RecordBatch

def newEmpty (schema : Schema) : RecordBatch := ⟨schema, [], nofun⟩

def filterRows (batch : RecordBatch) (mask : List Bool) : RecordBatch where
  schema := batch.schema
  rows := ((batch.rows.zip mask).filter (·.2)).map (·.1)
  fits row h := by
    obtain ⟨entry, hentry, rfl⟩ := List.mem_map.mp h
    exact batch.fits _ (List.of_mem_zip (List.mem_filter.mp hentry).1).1

end RecordBatch

def batchRows (batches : List RecordBatch) : List Row := batches.flatMap (·.rows)

end Leibrix.ArrowBatch
