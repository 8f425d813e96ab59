/-!
# The SQL syntax tree

The statement forms that the SQL module reads, with the field names of the parser's tree. A
variant whose operands are expressions only, and that no pass tells from its neighbours, is
a `form` node. Text that no pass looks into (data types other than `DATE`, window frames,
hints) is carried as text or left out. Names keep their spelling.
-/

set_option autoImplicit false

namespace Leibrix.SqlAst

structure Ident where
  value : String
  quoteStyle : Option Char := none
  deriving DecidableEq

inductive ObjectNamePart where
  | identifier (ident : Ident)
  | function (display : String)
  deriving DecidableEq

abbrev ObjectName := List ObjectNamePart

structure TableAlias where
  name : Ident
  columns : List Ident := []
  explicit : Bool := true
  deriving DecidableEq

inductive Value where
  | singleQuotedString (s : String)
  | placeholder (p : String)
  | number (s : String)
  | boolean (b : Bool)
  | null
  | other (display : String)
  deriving DecidableEq

inductive DataType where
  | date
  | other (display : String)
  deriving DecidableEq

inductive BinaryOperator where
  | and | or | eq | notEq | gt | lt | gtEq | ltEq
  | other (display : String)
  deriving DecidableEq

inductive UnaryOperator where
  | not | plus | minus
  | other (display : String)
  deriving DecidableEq

inductive SetOperator where
  | union | except | intersect | minus
  deriving DecidableEq

inductive SetQuantifier where
  | all | distinct | byName | allByName | distinctByName | none
  deriving DecidableEq

/-- Join keywords that carry one constraint. -/
inductive JoinKind where
  | join | inner | left | leftOuter | right | rightOuter | fullOuter | crossJoin
  | semi | leftSemi | rightSemi | anti | leftAnti | rightAnti | straightJoin
  deriving DecidableEq

inductive ExprForm where
  | isNull | isNotNull | isTrue | isNotTrue | isFalse | isNotFalse | isUnknown | isNotUnknown
  | isDistinctFrom | isNotDistinctFrom | like | iLike | similarTo
  | extract | substring | trim | tuple
  | other (display : String)
  deriving DecidableEq

structure OrderByOptions where
  asc : Option Bool := none
  nullsFirst : Option Bool := none
  deriving DecidableEq

mutual

inductive Expr where
  | identifier (ident : Ident)
  | compoundIdentifier (parts : List Ident)
  | value (v : Value)
  | typedString (dataType : DataType) (v : Value)
  | cast (expr : Expr) (dataType : DataType)
  | binaryOp (left : Expr) (op : BinaryOperator) (right : Expr)
  | unaryOp (op : UnaryOperator) (expr : Expr)
  | nested (expr : Expr)
  | between (expr : Expr) (negated : Bool) (low high : Expr)
  | case (operand : Option Expr) (conditions : List (Expr × Expr)) (elseResult : Option Expr)
  | function (func : Function)
  | subquery (query : Query)
  | inSubquery (expr : Expr) (subquery : Query) (negated : Bool)
  | exists (subquery : Query) (negated : Bool)
  | inList (expr : Expr) (list : List Expr) (negated : Bool)
  | form (form : ExprForm) (operands : List Expr)

structure Function where
  name : ObjectName
  args : FunctionArguments
  filter : Option Expr
  withinGroup : List OrderByExpr
  «over» : Option WindowType

inductive FunctionArguments where
  | none
  | subquery (query : Query)
  | list (args : List FunctionArg)

inductive FunctionArg where
  | unnamed (arg : FunctionArgExpr)
  | named (name : Ident) (arg : FunctionArgExpr)
  | exprNamed (name : Expr) (arg : FunctionArgExpr)

inductive FunctionArgExpr where
  | expr (e : Expr)
  | qualifiedWildcard (name : ObjectName)
  | wildcard

inductive WindowType where
  | windowSpec (partitionBy : List Expr) (orderBy : List OrderByExpr)
  | namedWindow (name : Ident)

structure OrderByExpr where
  expr : Expr
  options : OrderByOptions

structure Query where
  recursive : Bool
  ctes : List Cte
  body : SetExpr
  orderBy : Option OrderBy
  limitClause : Option LimitClause
  fetch : Option Fetch

structure Fetch where
  withTies : Bool
  percent : Bool
  quantity : Option Expr

inductive OrderBy where
  | expressions (exprs : List OrderByExpr)
  | all

inductive LimitClause where
  | limitOffset (limit offset : Option Expr) (limitBy : List Expr)
  | offsetCommaLimit (offset limit : Expr)

structure Cte where
  «alias» : TableAlias
  query : Query

inductive SetExpr where
  | select (select : Select)
  | query (query : Query)
  | setOperation (op : SetOperator) (quantifier : SetQuantifier) (left right : SetExpr)
  | values (rows : List (List Expr))
  | insert (display : String)
  | update (display : String)
  | table (name : String)

structure Select where
  distinct : Option (List Expr)
  projection : List SelectItem
  «from» : List TableWithJoins
  selection : Option Expr
  groupBy : GroupByExpr
  having : Option Expr
  namedWindow : List WindowType
  qualify : Option Expr

inductive SelectItem where
  | unnamedExpr (expr : Expr)
  | exprWithAlias (expr : Expr) («alias» : Ident)
  | qualifiedWildcard (name : ObjectName)
  | wildcard

inductive GroupByExpr where
  | all
  | expressions (exprs : List Expr) (modifiers : List String)

structure TableWithJoins where
  relation : TableFactor
  joins : List Join

structure Join where
  relation : TableFactor
  joinOperator : JoinOperator

inductive JoinOperator where
  | plain (kind : JoinKind) (constraint : JoinConstraint)
  | asOf (matchCondition : Expr) (constraint : JoinConstraint)
  | apply (outer : Bool)

inductive JoinConstraint where
  | on (expr : Expr)
  | using (columns : List ObjectName)
  | natural
  | none

inductive TableFactor where
  | table (name : ObjectName) («alias» : Option TableAlias) (args : Option (List FunctionArg))
  | derived (lateral : Bool) (subquery : Query) («alias» : Option TableAlias)
  | tableFunction (expr : Expr) («alias» : Option TableAlias)
  | function (lateral : Bool) (name : ObjectName) (args : List FunctionArg)
      («alias» : Option TableAlias)
  | nestedJoin (tableWithJoins : TableWithJoins) («alias» : Option TableAlias)
  | other (display : String)

end

inductive Statement where
  | query (query : Query)
  | other (name : String)

/-- `str::eq_ignore_ascii_case`. -/
def eqIgnoreAsciiCase (a b : String) : Bool :=
  a.toList.map Char.toLower == b.toList.map Char.toLower

theorem eqIgnoreAsciiCase_symm (a b : String) (h : eqIgnoreAsciiCase a b = true) :
    eqIgnoreAsciiCase b a = true := by
  simp only [eqIgnoreAsciiCase, beq_iff_eq] at *
  exact h.symm

/-- The constraint of a join, when its operator has one. -/
def extractJoinConstraint : JoinOperator → Option JoinConstraint
  | .plain _ c | .asOf _ c => some c
  | .apply _ => none

def extractJoinOnExpr (op : JoinOperator) : Option Expr :=
  match extractJoinConstraint op with
  | some (.on e) => some e
  | _ => none

/-- The last part of a name when it is an identifier, else the empty name. -/
def extractTableName (name : ObjectName) : String :=
  match name.getLast? with
  | some (.identifier ident) => ident.value
  | _ => ""

theorem bind_eq_ok {ε α β : Type} {x : Except ε α} {f : α → Except ε β} {b : β} :
    x >>= f = .ok b ↔ ∃ a, x = .ok a ∧ f a = .ok b := by
  cases x with
  | error e | ok a => simp [bind, Except.bind]

theorem pure_eq_ok {ε α : Type} {a b : α} : (pure a : Except ε α) = .ok b ↔ a = b := by
  simp [pure, Except.pure]

end Leibrix.SqlAst
