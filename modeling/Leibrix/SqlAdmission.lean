import Leibrix.SqlTransformer
import Leibrix.SqlScopes
import Mathlib.Logic.Relation

/-!
# Admission of queries

A query is admitted when two traversals find nothing against it: one looks for recursive
WITH clauses, the other for logical tables without a mention of their time column. Each
enters the parts of the query that are listed here and no others. The datasets are looked at
in the order of their first references; another order changes only which of them an error
names.
-/

set_option autoImplicit false

namespace Leibrix.SqlAdmission
open SqlAst SqlDiscovery SqlTransformer List

inductive AdmissionError where
  | recursiveCte (cteName : String)
  | missingTimeRange (tableName timeColumn : String)
  | parseError (message : String)
  | unsupportedStatement (message : String)
  deriving DecidableEq

abbrev AdmissionResult := Except AdmissionError Unit

def firstCteName : List Cte → String
  | [] => "unknown"
  | cte::_ => cte.alias.name.value

mutual

def checkQueryForRecursiveCte : Query → AdmissionResult
  | ⟨recursive, ctes, body, _, _, _⟩ =>
    if recursive then .error (.recursiveCte (firstCteName ctes))
    else do
      checkCtesForRecursiveCte ctes
      checkSetExprForRecursiveCte body

def checkCtesForRecursiveCte : List Cte → AdmissionResult
  | [] => .ok ()
  | ⟨_, query⟩::ctes => do
    checkQueryForRecursiveCte query
    checkCtesForRecursiveCte ctes

def checkSetExprForRecursiveCte : SetExpr → AdmissionResult
  | .select select => checkSelectForRecursiveCte select
  | .query query => checkQueryForRecursiveCte query
  | .setOperation _ _ left right => do
    checkSetExprForRecursiveCte left
    checkSetExprForRecursiveCte right
  | _ => .ok ()

def checkSelectForRecursiveCte : Select → AdmissionResult
  | ⟨_, _, «from», selection, _, _, _, _⟩ => do
    checkFromForRecursiveCte «from»
    checkOptExprForRecursiveCte selection

def checkFromForRecursiveCte : List TableWithJoins → AdmissionResult
  | [] => .ok ()
  | twj::«from» => do
    checkTableWithJoinsForRecursiveCte twj
    checkFromForRecursiveCte «from»

def checkTableWithJoinsForRecursiveCte : TableWithJoins → AdmissionResult
  | ⟨relation, joins⟩ => do
    checkTableFactorForRecursiveCte relation
    checkJoinsForRecursiveCte joins

def checkJoinsForRecursiveCte : List Join → AdmissionResult
  | [] => .ok ()
  | ⟨relation, _⟩::joins => do
    checkTableFactorForRecursiveCte relation
    checkJoinsForRecursiveCte joins

def checkTableFactorForRecursiveCte : TableFactor → AdmissionResult
  | .derived _ subquery _ => checkQueryForRecursiveCte subquery
  | .nestedJoin tableWithJoins _ => checkTableWithJoinsForRecursiveCte tableWithJoins
  | _ => .ok ()

def checkExprForRecursiveCte : Expr → AdmissionResult
  | .subquery query => checkQueryForRecursiveCte query
  | .inSubquery _ subquery _ | .exists subquery _ => checkQueryForRecursiveCte subquery
  | .binaryOp left _ right => do
    checkExprForRecursiveCte left
    checkExprForRecursiveCte right
  | .unaryOp _ inner | .nested inner => checkExprForRecursiveCte inner
  | _ => .ok ()

def checkOptExprForRecursiveCte : Option Expr → AdmissionResult
  | none => .ok ()
  | some expr => checkExprForRecursiveCte expr

end

def checkRecursiveCte : Statement → AdmissionResult
  | .query query => checkQueryForRecursiveCte query
  | .other _ => .ok ()

section TimeRanges

structure QualifiedTableRef where
  tableName : String
  «alias» : Option String
  deriving DecidableEq

def tableNameOf (name : ObjectName) : Option String :=
  match name.getLast? with
  | some (.identifier ident) => some ident.value
  | _ => none

mutual

def collectQualifiedTableRefs : Query → List QualifiedTableRef
  | ⟨_, ctes, body, _, _, _⟩ => collectRefsFromCtes ctes ++ collectQualifiedRefsFromSetExpr body

def collectRefsFromCtes : List Cte → List QualifiedTableRef
  | [] => []
  | ⟨_, query⟩::ctes => collectQualifiedTableRefs query ++ collectRefsFromCtes ctes

def collectQualifiedRefsFromSetExpr : SetExpr → List QualifiedTableRef
  | .select select => collectQualifiedRefsFromSelect select
  | .query query => collectQualifiedTableRefs query
  | .setOperation _ _ left right =>
    collectQualifiedRefsFromSetExpr left ++ collectQualifiedRefsFromSetExpr right
  | _ => []

def collectQualifiedRefsFromSelect : Select → List QualifiedTableRef
  | ⟨_, _, «from», _, _, _, _, _⟩ => collectRefsFromFrom «from»

def collectRefsFromFrom : List TableWithJoins → List QualifiedTableRef
  | [] => []
  | twj::«from» => collectQualifiedRefsFromTableWithJoins twj ++ collectRefsFromFrom «from»

def collectQualifiedRefsFromTableWithJoins : TableWithJoins → List QualifiedTableRef
  | ⟨relation, joins⟩ => collectQualifiedRefsFromTableFactor relation ++ collectRefsFromJoins joins

def collectRefsFromJoins : List Join → List QualifiedTableRef
  | [] => []
  | ⟨relation, _⟩::joins =>
    collectQualifiedRefsFromTableFactor relation ++ collectRefsFromJoins joins

def collectQualifiedRefsFromTableFactor : TableFactor → List QualifiedTableRef
  | .table name «alias» _ =>
    (tableNameOf name).toList.map fun tableName => ⟨tableName, «alias».map (·.name.value)⟩
  | .derived _ subquery _ => collectQualifiedTableRefs subquery
  | .nestedJoin tableWithJoins _ => collectQualifiedRefsFromTableWithJoins tableWithJoins
  | _ => []

end

mutual

def collectPredicates : Query → List Expr
  | ⟨_, ctes, body, _, _, _⟩ => collectPredicatesFromCtes ctes ++ collectPredicatesFromSetExpr body

def collectPredicatesFromCtes : List Cte → List Expr
  | [] => []
  | ⟨_, query⟩::ctes => collectPredicates query ++ collectPredicatesFromCtes ctes

def collectPredicatesFromSetExpr : SetExpr → List Expr
  | .select select => collectPredicatesFromSelect select
  | .query query => collectPredicates query
  | .setOperation _ _ left right =>
    collectPredicatesFromSetExpr left ++ collectPredicatesFromSetExpr right
  | _ => []

def collectPredicatesFromSelect : Select → List Expr
  | ⟨_, _, «from», selection, _, _, _, _⟩ => selection.toList ++ collectPredicatesFromFrom «from»

def collectPredicatesFromFrom : List TableWithJoins → List Expr
  | [] => []
  | twj::«from» => collectPredicatesFromTableWithJoins twj ++ collectPredicatesFromFrom «from»

def collectPredicatesFromTableWithJoins : TableWithJoins → List Expr
  | ⟨relation, joins⟩ =>
    collectPredicatesFromTableFactor relation ++ collectPredicatesFromJoins joins

def collectPredicatesFromJoins : List Join → List Expr
  | [] => []
  | ⟨relation, joinOperator⟩::joins =>
    collectPredicatesFromTableFactor relation ++ (extractJoinOnExpr joinOperator).toList ++
      collectPredicatesFromJoins joins

def collectPredicatesFromTableFactor : TableFactor → List Expr
  | .derived _ subquery _ => collectPredicates subquery
  | .nestedJoin tableWithJoins _ => collectPredicatesFromTableWithJoins tableWithJoins
  | _ => []

end

variable (columnName : String) (validQualifiers : List String)

/-- A mention of the column, on either side of any operator. -/
def exprReferencesColumn : Expr → Bool
  | .identifier ident => eqIgnoreAsciiCase ident.value columnName
  | .compoundIdentifier parts =>
    match parts.reverse with
    | [] => false
    | [col] => eqIgnoreAsciiCase col.value columnName
    | col::qualifier::_ =>
      eqIgnoreAsciiCase col.value columnName &&
        validQualifiers.any (eqIgnoreAsciiCase · qualifier.value)
  | .binaryOp left _ right =>
    exprReferencesColumn left ||
      exprReferencesColumn right
  | .between inner _ _ _ | .inList inner _ _ | .nested inner => exprReferencesColumn inner
  | _ => false

def hasTimePredicate (predicates : List Expr) (timeColumn : String)
    (validQualifiers : List String) : Bool :=
  predicates.any (exprReferencesColumn timeColumn validQualifiers)

variable (reg : Registry) (refs : List QualifiedTableRef)

def qualifiersOf (datasetId : String) : List String :=
  refs.flatMap fun r =>
    if r.tableName = datasetId then r.tableName::r.alias.toList else []

def checkDatasets (predicates : List Expr) : List String → AdmissionResult
  | [] => .ok ()
  | datasetId::rest =>
    match reg.getDataset datasetId with
    | none => checkDatasets predicates rest
    | some dataset =>
      if hasTimePredicate predicates dataset.timeColumnName (qualifiersOf refs datasetId) then
        checkDatasets predicates rest
      else .error (.missingTimeRange dataset.datasetId dataset.timeColumnName)

def checkQueryTimeRanges (query : Query) : AdmissionResult :=
  let refs := collectQualifiedTableRefs query
  checkDatasets reg refs (collectPredicates query) (refs.map (·.tableName)).eraseDups

def checkTimeRangePredicates : Statement → AdmissionResult
  | .query query => checkQueryTimeRanges reg query
  | .other _ => .error (.unsupportedStatement "Only SELECT queries are supported")

def checkStatement (stmt : Statement) : AdmissionResult := do
  checkRecursiveCte stmt
  checkTimeRangePredicates reg stmt

def ofTransformError : SqlTransformError → AdmissionError
  | .parseError message => .parseError message
  | .unsupportedStatement message => .unsupportedStatement message
  | .multipleStatements =>
    .parseError "Multiple statements not supported; expected single SELECT query"

def check (parser : Parser) (sql : String) : AdmissionResult :=
  match parser.parseSql sql with
  | .error e => .error (ofTransformError e)
  | .ok stmt => checkStatement reg stmt

end TimeRanges

section Examined

open SqlScopes

/-- The nodes below a node that the search for recursion enters. -/
def examined : Node → List Node
  | .query query => query.ctes.map (fun cte => .query cte.query) ++ [.setExpr query.body]
  | .setExpr (.select select) => [.select select]
  | .setExpr (.query query) => [.query query]
  | .setExpr (.setOperation _ _ left right) => [.setExpr left, .setExpr right]
  | .select select => select.from.map .tableWithJoins ++ select.selection.toList.map .expr
  | .tableWithJoins twj =>
    .tableFactor twj.relation::twj.joins.map (fun join => .tableFactor join.relation)
  | .tableFactor (.derived _ subquery _) => [.query subquery]
  | .tableFactor (.nestedJoin tableWithJoins _) => [.tableWithJoins tableWithJoins]
  | .expr (.subquery query) => [.query query]
  | .expr (.inSubquery _ subquery _) | .expr (.exists subquery _) => [.query subquery]
  | .expr (.binaryOp left _ right) => [.expr left, .expr right]
  | .expr (.unaryOp _ inner) | .expr (.nested inner) => [.expr inner]
  | _ => []

def isRecursive : Node → Bool
  | .query query => query.recursive
  | _ => false

def checkNode : Node → AdmissionResult
  | .query query => checkQueryForRecursiveCte query
  | .setExpr body => checkSetExprForRecursiveCte body
  | .select select => checkSelectForRecursiveCte select
  | .tableWithJoins twj => checkTableWithJoinsForRecursiveCte twj
  | .tableFactor factor => checkTableFactorForRecursiveCte factor
  | .expr e => checkExprForRecursiveCte e
  | .qualifiedWildcard _ => .ok ()

theorem both_ok {x y : AdmissionResult} :
    (do x; y : AdmissionResult) = .ok () ↔ x = .ok () ∧ y = .ok () := by
  cases x with
  | error e | ok u => simp [bind, Except.bind]

attribute [local simp] isRecursive checkNode both_ok

theorem checkCtes_ok (ctes : List Cte) : checkCtesForRecursiveCte ctes = .ok () ↔
    ∀ cte ∈ ctes, checkQueryForRecursiveCte cte.query = .ok () := by
  induction ctes with
  | nil => simp [checkCtesForRecursiveCte]
  | cons cte ctes ih =>
    obtain ⟨«alias», query⟩ := cte
    simp [checkCtesForRecursiveCte, ih]

theorem checkFrom_ok («from» : List TableWithJoins) : checkFromForRecursiveCte «from» = .ok () ↔
    ∀ twj ∈ «from», checkTableWithJoinsForRecursiveCte twj = .ok () := by
  induction «from» with
  | nil => simp [checkFromForRecursiveCte]
  | cons twj rest ih => simp [checkFromForRecursiveCte, ih]

theorem checkJoins_ok (joins : List Join) : checkJoinsForRecursiveCte joins = .ok () ↔
    ∀ join ∈ joins, checkTableFactorForRecursiveCte join.relation = .ok () := by
  induction joins with
  | nil => simp [checkJoinsForRecursiveCte]
  | cons join joins ih =>
    obtain ⟨relation, joinOperator⟩ := join
    simp [checkJoinsForRecursiveCte, ih]

theorem checkOptExpr_ok (e : Option Expr) : checkOptExprForRecursiveCte e = .ok () ↔
    ∀ expr ∈ e.toList, checkExprForRecursiveCte expr = .ok () := by
  cases e <;> simp [checkOptExprForRecursiveCte]

theorem checkNode_ok (node : Node) : checkNode node = .ok () ↔
    isRecursive node = false ∧ ∀ child ∈ examined node, checkNode child = .ok () := by
  cases node with
  | query query =>
    obtain ⟨recursive, ctes, body, orderBy, limitClause, fetch⟩ := query
    cases recursive with
    | true => simp [checkQueryForRecursiveCte]
    | false => simp [checkQueryForRecursiveCte, checkCtes_ok, examined, or_imp, forall_and]
  | setExpr body => cases body <;> simp [checkSetExprForRecursiveCte, examined]
  | select select =>
    obtain ⟨distinct, projection, «from», selection, groupBy, having, windows, qualify⟩ := select
    simp [checkSelectForRecursiveCte, checkFrom_ok, checkOptExpr_ok, examined, or_imp, forall_and]
  | tableWithJoins twj =>
    obtain ⟨relation, joins⟩ := twj
    simp [checkTableWithJoinsForRecursiveCte, checkJoins_ok, examined]
  | tableFactor factor => cases factor <;> simp [checkTableFactorForRecursiveCte, examined]
  | expr e => cases e <;> simp [checkExprForRecursiveCte, examined]
  | qualifiedWildcard name => simp [examined]

theorem examined_smaller {node child : Node} (h : child ∈ examined node) :
    sizeOf child < sizeOf node := by
  revert h
  fun_cases examined node
  case case1 query =>
    obtain ⟨recursive, ctes, body, orderBy, limitClause, fetch⟩ := query
    simp only [mem_append, mem_map, mem_singleton]
    rintro (⟨⟨«alias», query⟩, hcte, rfl⟩ | rfl)
    · have inList := sizeOf_lt_of_mem hcte
      simp at inList ⊢
      omega
    · simp +arith
  case case5 select =>
    obtain ⟨distinct, projection, «from», selection, groupBy, having, windows, qualify⟩ := select
    simp only [mem_append, mem_map, Option.mem_toList]
    rintro (⟨twj, htwj, rfl⟩ | ⟨e, rfl, rfl⟩)
    · have inList := sizeOf_lt_of_mem htwj
      simp
      omega
    · simp
      omega
  case case6 twj =>
    obtain ⟨relation, joins⟩ := twj
    simp only [mem_cons, mem_map]
    rintro (rfl | ⟨⟨relation', joinOperator⟩, hjoin, rfl⟩)
    · simp
      omega
    · have inList := sizeOf_lt_of_mem hjoin
      simp at inList ⊢
      omega
  case case4 | case12 =>
    simp only [mem_cons, not_mem_nil, or_false]
    rintro (rfl | rfl) <;> simp +arith
  case case15 => exact fun h => absurd h not_mem_nil
  all_goals
    simp only [mem_singleton]
    rintro rfl
    simp +arith

theorem checkNode_ok_iff (node : Node) : checkNode node = .ok () ↔
    ∀ reached, Relation.ReflTransGen (fun n m => m ∈ examined n) node reached →
      isRecursive reached = false := by
  constructor
  · intro passes reached path
    have there : checkNode reached = .ok () := by
      induction path with
      | refl => exact passes
      | tail _ step ih => exact ((checkNode_ok _).mp ih).2 _ step
    exact ((checkNode_ok reached).mp there).1
  · intro clean
    rw [checkNode_ok]
    refine ⟨clean node .refl, fun child hchild => ?_⟩
    have smaller := examined_smaller hchild
    exact (checkNode_ok_iff child).mpr fun reached path => clean reached (.head hchild path)
termination_by sizeOf node

/-- The statement has a `WITH RECURSIVE` at some place. -/
def RecursiveSomewhere : Statement → Prop
  | .query query => ∃ path ctx node, place query path = some (ctx, node) ∧ isRecursive node
  | .other _ => False

/-- The statement has a `WITH RECURSIVE` where the search comes by. -/
def RecursiveExamined : Statement → Prop
  | .query query => ∃ node,
    Relation.ReflTransGen (fun n m => m ∈ examined n) (.query query) node ∧ isRecursive node
  | .other _ => False

theorem checkRecursiveCte_ok_iff (stmt : Statement) :
    checkRecursiveCte stmt = .ok () ↔ ¬ RecursiveExamined stmt := by
  cases stmt with
  | other name => simp [checkRecursiveCte, RecursiveExamined]
  | query query =>
    rw [checkRecursiveCte, RecursiveExamined, not_exists]
    exact (checkNode_ok_iff (.query query)).trans
      (forall_congr' fun node => by simp [not_and, Bool.not_eq_true])

/-- An admitted statement has no recursion just when recursion that it has anywhere is also where
the search comes by, or the other check rejects the statement. -/
theorem recursion_rejected_iff (reg : Registry) (stmt : Statement) :
    (checkStatement reg stmt = .ok () → ¬ RecursiveSomewhere stmt) ↔
      (RecursiveSomewhere stmt →
        RecursiveExamined stmt ∨ checkTimeRangePredicates reg stmt ≠ .ok ()) := by
  rw [checkStatement, both_ok, checkRecursiveCte_ok_iff]
  constructor
  · intro rejects somewhere
    by_contra neither
    rw [not_or, not_not] at neither
    exact rejects neither somewhere
  · rintro covered ⟨unexamined, inTime⟩ somewhere
    rcases covered somewhere with examined | late
    · exact unexamined examined
    · exact late inTime

def selectOnly (projection : List SelectItem) («from» : List TableWithJoins)
    (selection : Option Expr) : Query :=
  ⟨false, [], .select ⟨none, projection, «from», selection, .expressions [] [], none, [], none⟩,
    none, none, none⟩

def oneValue : Query := selectOnly [.unnamedExpr (.value (.number "1"))] [] none

/-- `WITH RECURSIVE r AS (SELECT 1) SELECT 1`. -/
def recursiveQuery : Query :=
  ⟨true, [⟨{ name := ⟨"r", none⟩ }, oneValue⟩], oneValue.body, none, none, none⟩

/-- `SELECT (WITH RECURSIVE r AS (SELECT 1) SELECT 1)` is admitted. -/
theorem recursion_in_projection_admitted :
    checkStatement [] (.query (selectOnly [.unnamedExpr (.subquery recursiveQuery)] [] none)) =
        .ok () ∧
      RecursiveSomewhere
        (.query (selectOnly [.unnamedExpr (.subquery recursiveQuery)] [] none)) :=
  ⟨rfl, [0, 0, 0, 0], _, .query recursiveQuery, rfl, rfl⟩

end Examined

end Leibrix.SqlAdmission
