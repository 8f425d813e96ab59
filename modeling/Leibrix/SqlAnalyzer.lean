import Leibrix.SqlAst
import Leibrix.SqlInterval

/-!
# Date ranges from boolean expressions

The analyzer reads a WHERE expression for one table and returns an interval:
conjunction intersects, disjunction takes the hull, and an expression it does
not understand restricts nothing. The interval becomes the two arguments of
the table macro. A comparison is first put into the form "time column, operator,
bound", whichever side the column stands on.
-/

set_option autoImplicit false

namespace Leibrix.SqlAnalyzer
open SqlAst SqlInterval

/-- An unqualified column matches by name alone; a qualified one must also name
the table. -/
def isTimeColumnRef (tableName timeCol : String) : Expr → Bool
  | .identifier ident => eqIgnoreAsciiCase ident.value timeCol
  | .compoundIdentifier parts =>
    match parts.reverse with
    | col::qualifier::_ =>
      eqIgnoreAsciiCase col.value timeCol && eqIgnoreAsciiCase qualifier.value tableName
    | [col] => eqIgnoreAsciiCase col.value timeCol
    | [] => false
  | _ => false

section
variable {D : Type} [LinearOrder D] (c : Chrono D)

def isValidDate (s : String) : Bool := (c.parse s).isSome

def literalBound (s : String) : Option DateBound :=
  if isValidDate c s then some (.literal s) else none

def extractDateBound : Expr → Option DateBound
  | .value (.singleQuotedString s) => literalBound c s
  | .value (.placeholder p) => some (.parameter p)
  | .typedString .date (.singleQuotedString s) => literalBound c s
  | .cast inner .date => extractDateBound inner
  | _ => none

def mirrored : BinaryOperator → BinaryOperator
  | .ltEq => .gtEq
  | .lt => .gt
  | .gt => .lt
  | .gtEq => .ltEq
  | op => op

variable (tableName timeCol : String)

/-- A comparison of the time column with a bound, column first. When the column
stands on the left the right side is the only candidate for the bound. -/
def timeComparison (left : Expr) (op : BinaryOperator)
    (right : Expr) : Option (BinaryOperator × DateBound) :=
  if isTimeColumnRef tableName timeCol left then
    (extractDateBound c right).map fun b => (op, b)
  else if isTimeColumnRef tableName timeCol right then
    (extractDateBound c left).map fun b => (mirrored op, b)
  else none

/-- `<time column> <op> bound` as an interval. -/
def comparisonInterval : BinaryOperator → DateBound → Interval
  | .gtEq, b => .fromBounds (some b) none
  | .gt, b => .fromBounds (some (addOneDay c b)) none
  | .lt, b => .fromBounds none (some b)
  | .ltEq, b => .fromBounds none (some (addOneDay c b))
  | .eq, b => .point c b
  | _, _ => .universe

def timeBetween (expr low high : Expr) : Option (DateBound × DateBound) :=
  if isTimeColumnRef tableName timeCol expr then
    match extractDateBound c low, extractDateBound c high with
    | some s, some e => some (s, e)
    | _, _ => none
  else none

def analyzeForTable : Expr → Interval
  | .binaryOp left .and right => (analyzeForTable left).intersect c (analyzeForTable right)
  | .binaryOp left .or right => (analyzeForTable left).union c (analyzeForTable right)
  | .between expr false low high =>
    match timeBetween c tableName timeCol expr low high with
    | some (s, e) => .fromBounds (some s) (some (addOneDay c e))
    | none => .universe
  | .binaryOp left op right =>
    match timeComparison c tableName timeCol left op right with
    | some (op, b) => comparisonInterval c op b
    | none => .universe
  | .nested inner => analyzeForTable inner
  | _ => .universe

end

def wideScanStart : String := "1970-01-01"

def wideScanEnd : String := "9999-12-31"

structure DateRange where
  start : Option DateBound := none
  «end» : Option DateBound := none
  endInclusive : Bool := false
  deriving DecidableEq

def DateRange.ofInterval (i : Interval) : DateRange := ⟨i.start, i.end, false⟩

def createDateLiteral (s : String) : Expr := .typedString .date (.singleQuotedString s)

def createPlaceholder (p : String) : Expr := .value (.placeholder p)

def boundArg (default : String) : Option DateBound → Expr
  | some (.literal s) => createDateLiteral s
  | some (.parameter p) => createPlaceholder p
  | none => createDateLiteral default

def formatDateArgs {D : Type} [LinearOrder D] (c : Chrono D) (range : DateRange) : Expr × Expr :=
  (boundArg wideScanStart range.start,
   boundArg wideScanEnd
     (match range.end with
      | some (.literal s) =>
        if range.endInclusive then some (addOneDay c (.literal s)) else some (.literal s)
      | e => e))

end Leibrix.SqlAnalyzer
