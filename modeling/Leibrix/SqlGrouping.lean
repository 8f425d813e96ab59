import Leibrix.SqlAst

/-!
# Query text without parentheses

A query as a tree, and as the text that has its clauses one after the other. A derived
table stands in parentheses; branches of set operations and operands of joins do not. The
text is read back by the rules of SQL: INTERSECT binds tighter than the other set
operations, which associate to the left, as joins do; the condition of a join closes the
last join that is still open. ORDER BY, LIMIT and OFFSET belong to the whole query that they
end. The text of a tree is read as that tree exactly if every part of it fits the place
where it stands.
-/

set_option autoImplicit false

namespace Leibrix.SqlGrouping
open SqlAst Option

inductive JoinWord where
  | join | left | right | fullOuter | cross | semi | leftSemi | rightSemi | anti | leftAnti
  | rightAnti | crossApply | outerApply | asOf | straight
  deriving DecidableEq

def JoinWord.takesCondition : JoinWord → Bool
  | .cross | .crossApply | .outerApply => false
  | _ => true

/-- The clauses of a SELECT besides FROM and WHERE. -/
structure SelectClauses where
  distinct : Option (List Expr) := none
  items : List SelectItem
  groupBy : Option GroupByExpr := none
  having : Option Expr := none
  windows : List WindowType := []
  qualify : Option Expr := none

/-- What a derived table may have besides its query and alias: the column list of the CTE that it
stands for, arguments after the name of that CTE, and LATERAL. -/
structure DerivedParts where
  columns : List Ident := []
  args : Option (List FunctionArg) := none
  lateral : Bool := false

mutual

/-- ORDER BY with an empty list is ORDER BY ALL. A WITH clause has the CTEs whose names the query
still needs. -/
inductive QueryTree where
  | select (clauses : SelectClauses) (source : FromTree)
  | setOp (op : SetOperator) (quantifier : SetQuantifier) (left right : QueryTree)
  | orderBy (body : QueryTree) (exprs : List OrderByExpr)
  | limit (body : QueryTree) (limit offset : Option Expr)
  | limitBy (body : QueryTree) (limit offset : Option Expr) (exprs : List Expr)
  | fetch (body : QueryTree) (limit offset : Option Expr) (fetch : Fetch)
  | withCtes (ctes : List Cte) (body : QueryTree)

inductive FromTree where
  | factor (tableFactor : TableFactor)
  | derived (body : QueryTree) («alias» : TableAlias) (parts : DerivedParts)
  | join (left right : FromTree) (word : JoinWord) (matchCondition : Option Expr)
      (constraint : JoinConstraint)
  | filtered (source : FromTree) (predicate : Expr)

end

mutual

inductive QueryToken where
  | select (items : List SelectItem) (source : List FromToken) (groupBy : Option GroupByExpr)
      (having : Option Expr)
  | setOp (op : SetOperator) (quantifier : SetQuantifier)
  | orderBy (exprs : List OrderByExpr)
  | limit (count : Expr)
  | offset (count : Expr)

/-- A group is a query in parentheses, with its alias. -/
inductive FromToken where
  | factor (tableFactor : TableFactor)
  | group (query : List QueryToken) («alias» : TableAlias)
  | join (word : JoinWord)
  | on (condition : Expr)
  | using (columns : List ObjectName)
  | where (predicate : Expr)

end

def writeConstraint : JoinConstraint → List FromToken
  | .on condition => [.on condition]
  | .using columns => [.using columns]
  | _ => []

mutual

def writeQuery : QueryTree → List QueryToken
  | .select clauses source =>
    [.select clauses.items (writeFrom source) clauses.groupBy clauses.having]
  | .setOp op quantifier left right => writeQuery left ++ .setOp op quantifier::writeQuery right
  | .orderBy body exprs => writeQuery body ++ if exprs.isEmpty then [] else [.orderBy exprs]
  | .limit body limit offset =>
    writeQuery body ++ (limit.toList.map .limit ++ offset.toList.map .offset)
  | .limitBy body limit offset _ =>
    writeQuery body ++ (limit.toList.map .limit ++ offset.toList.map .offset)
  | .fetch body limit offset _ =>
    writeQuery body ++ (limit.toList.map .limit ++ offset.toList.map .offset)
  | .withCtes _ body => writeQuery body

def writeFrom : FromTree → List FromToken
  | .factor tableFactor => [.factor tableFactor]
  | .derived body «alias» _ => [.group (writeQuery body) «alias»]
  | .join left right word _ constraint =>
    writeFrom left ++ .join word::(writeFrom right ++ writeConstraint constraint)
  | .filtered source predicate => writeFrom source ++ [.where predicate]

end

section Reading

/-- What has been read of a query: the left side of a set operation other than INTERSECT, if one is
open, and then nothing, or the left side of an open INTERSECT, or a branch; or a whole query with
an ORDER BY, OFFSET or LIMIT that may be followed by others. -/
inductive QueryState where
  | first (pending : Option (QueryTree × SetOperator × SetQuantifier))
  | tight (pending : Option (QueryTree × SetOperator × SetQuantifier)) (left : QueryTree)
      (quantifier : SetQuantifier)
  | complete (pending : Option (QueryTree × SetOperator × SetQuantifier)) (tree : QueryTree)
  | ordered (tree : QueryTree)
  | skipped (body : QueryTree) (offset : Expr)
  | limited (body : QueryTree) (limit : Expr)
  | done (tree : QueryTree)

def close (pending : Option (QueryTree × SetOperator × SetQuantifier)) (tree : QueryTree) :
    QueryTree :=
  match pending with
  | none => tree
  | some (left, op, quantifier) => .setOp op quantifier left tree

namespace QueryState

def finish : QueryState → Option QueryTree
  | complete pending tree => some (close pending tree)
  | ordered tree => some tree
  | skipped body offset => some (.limit body none (some offset))
  | limited body limit => some (.limit body (some limit) none)
  | done tree => some tree
  | _ => none

def operand (tree : QueryTree) : QueryState → Option QueryState
  | first pending => some (complete pending tree)
  | tight pending left quantifier =>
    some (complete pending (.setOp .intersect quantifier left tree))
  | _ => none

def operator (op : SetOperator) (quantifier : SetQuantifier) : QueryState → Option QueryState
  | complete pending tree =>
    some (if op = .intersect then tight pending tree quantifier
      else first (some (close pending tree, op, quantifier)))
  | _ => none

def order (exprs : List OrderByExpr) : QueryState → Option QueryState
  | complete pending tree =>
    if exprs.isEmpty then none else some (ordered (.orderBy (close pending tree) exprs))
  | _ => none

def offset (count : Expr) : QueryState → Option QueryState
  | complete pending tree => some (skipped (close pending tree) count)
  | ordered tree => some (skipped tree count)
  | limited body limit => some (done (.limit body (some limit) (some count)))
  | _ => none

def limit (count : Expr) : QueryState → Option QueryState
  | complete pending tree => some (limited (close pending tree) count)
  | ordered tree => some (limited tree count)
  | skipped body offset => some (done (.limit (.limit body none (some offset)) (some count) none))
  | _ => none

end QueryState

/-- What has been read of a FROM clause: the joins that are still open and the operand after them,
or the whole clause with WHERE. -/
inductive FromState where
  | joins («open» : List (FromTree × JoinWord)) (current : Option FromTree)
  | done (tree : FromTree)

namespace FromState

def finish : FromState → Option FromTree
  | joins [] current => current
  | done tree => some tree
  | _ => none

def operand (tree : FromTree) : FromState → Option FromState
  | joins [] none => some (joins [] tree)
  | joins ((left, word)::rest) none =>
    some (if word.takesCondition then joins ((left, word)::rest) tree
      else joins rest (some (.join left tree word none .none)))
  | _ => none

def join (word : JoinWord) : FromState → Option FromState
  | joins «open» (some left) => some (joins ((left, word)::«open») none)
  | _ => none

def condition (constraint : JoinConstraint) : FromState → Option FromState
  | joins ((left, word)::rest) (some right) =>
    some (joins rest (some (.join left right word none constraint)))
  | _ => none

def filter (predicate : Expr) : FromState → Option FromState
  | joins [] (some tree) => some (done (.filtered tree predicate))
  | _ => none

end FromState

mutual

def stepQuery (state : QueryState) : QueryToken → Option QueryState
  | .select items source groupBy having => do
    let source ← (← runFrom (.joins [] none) source).finish
    state.operand (.select { items, groupBy, having } source)
  | .setOp op quantifier => state.operator op quantifier
  | .orderBy exprs => state.order exprs
  | .limit count => state.limit count
  | .offset count => state.offset count

def runQuery (state : QueryState) : List QueryToken → Option QueryState
  | [] => some state
  | token::rest => do runQuery (← stepQuery state token) rest

def stepFrom (state : FromState) : FromToken → Option FromState
  | .factor tableFactor => state.operand (.factor tableFactor)
  | .group query «alias» => do
    let body ← (← runQuery (.first none) query).finish
    state.operand (.derived body «alias» {})
  | .join word => state.join word
  | .on condition => state.condition (.on condition)
  | .using columns => state.condition (.using columns)
  | .where predicate => state.filter predicate

def runFrom (state : FromState) : List FromToken → Option FromState
  | [] => some state
  | token::rest => do runFrom (← stepFrom state token) rest

end

def readQuery (tokens : List QueryToken) : Option QueryTree := do
  (← runQuery (.first none) tokens).finish

end Reading

def Written : JoinConstraint → Prop
  | .on _ | .using _ => True
  | _ => False

def SelectClauses.Written (clauses : SelectClauses) : Prop :=
  clauses.distinct = none ∧ clauses.windows = [] ∧ clauses.qualify = none

mutual

/-- The query fits a place: 0 the right side of INTERSECT, 1 its left side or the right side of
another set operation, 2 the left side of one or below ORDER BY, 3 below OFFSET, 4 below LIMIT, and
5 where a whole query stands. -/
def Fits (place : Nat) : QueryTree → Prop
  | .select clauses source => clauses.Written ∧ FitsFrom 2 source
  | .setOp op _ left right =>
    if op = .intersect then 1 ≤ place ∧ Fits 1 left ∧ Fits 0 right
    else 2 ≤ place ∧ Fits 2 left ∧ Fits 1 right
  | .orderBy body exprs => 3 ≤ place ∧ exprs ≠ [] ∧ Fits 2 body
  | .limit body none (some _) => 4 ≤ place ∧ Fits 3 body
  | .limit body (some _) none => 5 ≤ place ∧ Fits 4 body
  | .limit body (some _) (some _) => 5 ≤ place ∧ Fits 3 body
  | .limit _ none none | .limitBy .. | .fetch .. | .withCtes .. => False

def FitsFrom (place : Nat) : FromTree → Prop
  | .factor _ => True
  | .derived body _ parts => parts = {} ∧ Fits 5 body
  | .join left right word matchCondition constraint =>
    1 ≤ place ∧ FitsFrom 1 left ∧ matchCondition = none ∧
      if word.takesCondition then Written constraint ∧ FitsFrom 1 right
      else constraint = .none ∧ FitsFrom 0 right
  | .filtered source _ => 2 ≤ place ∧ FitsFrom 1 source

end

theorem Fits.mono {m n : Nat} (hmn : m ≤ n) : ∀ {t : QueryTree}, Fits m t → Fits n t
  | .select .., h => h
  | .setOp op _ _ _, h => by
    rw [Fits] at h ⊢
    by_cases hop : op = .intersect
    · rw [if_pos hop] at h ⊢
      exact ⟨Nat.le_trans h.1 hmn, h.2⟩
    · rw [if_neg hop] at h ⊢
      exact ⟨Nat.le_trans h.1 hmn, h.2⟩
  | .orderBy .., h | .limit _ none (some _), h | .limit _ (some _) none, h
  | .limit _ (some _) (some _), h => ⟨Nat.le_trans h.1 hmn, h.2⟩
  | .limit _ none none, h | .limitBy .., h | .fetch .., h | .withCtes .., h => h.elim

theorem FitsFrom.mono {m n : Nat} (hmn : m ≤ n) : ∀ {t : FromTree}, FitsFrom m t → FitsFrom n t
  | .factor _, h | .derived .., h => h
  | .join .., h | .filtered .., h => ⟨Nat.le_trans h.1 hmn, h.2⟩

variable {op : SetOperator} {exprs : List OrderByExpr} {t : QueryTree}

section RoundTrip

attribute [local simp] runQuery stepQuery

theorem runQuery_append (a b : List QueryToken) (state : QueryState) :
    runQuery state (a ++ b) = (runQuery state a).bind fun s => runQuery s b := by
  induction a generalizing state with
  | nil => rfl
  | cons token a ih => simp [ih, bind_assoc]

theorem runFrom_append (a b : List FromToken) (state : FromState) :
    runFrom state (a ++ b) = (runFrom state a).bind fun s => runFrom s b := by
  induction a generalizing state with
  | nil => rfl
  | cons token a ih => simp [runFrom, ih, bind_assoc]

namespace QueryState

/-- The place that a query would need which ends in this state. -/
def stage : QueryState → Nat
  | complete .. => 2
  | ordered _ => 3
  | skipped .. => 4
  | _ => 5

variable {s : QueryState}

theorem operator_of_stage (hop : op ≠ .intersect) (quantifier : SetQuantifier)
    (ht : s.finish = some t) (hs : s.stage ≤ 2) :
    s.operator op quantifier = some (.first (some (t, op, quantifier))) := by
  cases s with
  | complete =>
    cases ht
    rw [operator, if_neg hop]
  | _ => simp [stage] at hs

theorem order_of_stage (hexprs : exprs ≠ []) (ht : s.finish = some t) (hs : s.stage ≤ 2) :
    s.order exprs = some (.ordered (.orderBy t exprs)) := by
  cases s with
  | complete =>
    cases ht
    simp [order, hexprs]
  | _ => simp [stage] at hs

variable (count : Expr) (ht : s.finish = some t)
include count ht

theorem offset_of_stage (hs : s.stage ≤ 3) : s.offset count = some (.skipped t count) := by
  cases s with
  | complete | ordered =>
    cases ht
    rfl
  | _ => simp [stage] at hs

theorem limit_of_stage (hs : s.stage ≤ 3) : s.limit count = some (.limited t count) := by
  cases s with
  | complete | ordered =>
    cases ht
    rfl
  | _ => simp [stage] at hs

theorem limit_finish (hs : s.stage ≤ 4) :
    ∃ s', s.limit count = some s' ∧ s'.finish = some (.limit t (some count) none) ∧
      s'.stage ≤ 5 := by
  cases s with
  | complete | ordered | skipped =>
    cases ht
    exact ⟨_, rfl, rfl, Nat.le_refl 5⟩
  | _ => simp [stage] at hs ht

end QueryState

/-- How the text of a query is read, by the places that the query fits. -/
structure ReadsBack (t : QueryTree) : Prop where
  tight : Fits 0 t → ∀ pending left quantifier,
    runQuery (.tight pending left quantifier) (writeQuery t) =
      some (.complete pending (.setOp .intersect quantifier left t))
  branch : Fits 1 t → ∀ pending, runQuery (.first pending) (writeQuery t) =
    some (.complete pending t)
  whole : ∀ n, 2 ≤ n → Fits n t → ∃ s, runQuery (.first none) (writeQuery t) = some s ∧
    s.finish = some t ∧ s.stage ≤ n

theorem ReadsBack.readQuery (h : ReadsBack t) (hfits : Fits 5 t) :
    readQuery (writeQuery t) = some t := by
  obtain ⟨s, hrun, hfinish, -⟩ := h.whole 5 (by decide) hfits
  simp [SqlGrouping.readQuery, hrun, hfinish]

theorem readsBack_of_high (high : ¬Fits 1 t)
    (whole : ∀ n, 2 ≤ n → Fits n t → ∃ s, runQuery (.first none) (writeQuery t) = some s ∧
      s.finish = some t ∧ s.stage ≤ n) : ReadsBack t :=
  ⟨fun h => absurd (h.mono (by decide)) high, fun h => absurd h high, whole⟩

/-- The text of a part of a FROM clause is read as an operand, or from a state that it cannot
close. -/
structure ReadsFromBack (t : FromTree) : Prop where
  operand : FitsFrom 0 t → ∀ state, runFrom state (writeFrom t) = state.operand t
  side : FitsFrom 1 t → ∀ «open», (∀ top ∈ «open».head?, top.2.takesCondition = true) →
    runFrom (.joins «open» none) (writeFrom t) = some (.joins «open» (some t))
  whole : FitsFrom 2 t →
    ((runFrom (.joins [] none) (writeFrom t)).bind FromState.finish) = some t

theorem operand_open {«open» : List (FromTree × JoinWord)} {t : FromTree}
    (h : ∀ top ∈ «open».head?, top.2.takesCondition = true) :
    (FromState.joins «open» none).operand t = some (.joins «open» (some t)) := by
  cases «open» with
  | nil => rfl
  | cons top rest => rw [FromState.operand, if_pos (h top rfl)]

theorem readsFromBack_of_operand {t : FromTree} (fits : ∀ n, FitsFrom n t → FitsFrom 0 t)
    (operand : FitsFrom 0 t → ∀ state, runFrom state (writeFrom t) = state.operand t) :
    ReadsFromBack t := by
  refine ⟨operand, fun h «open» hopen => ?_, fun h => ?_⟩
  · rw [operand (fits 1 h), operand_open hopen]
  · rw [operand (fits 2 h)]
    rfl

theorem readsFromBack_join {left right : FromTree} (l : ReadsFromBack left)
    (r : ReadsFromBack right) (word : JoinWord) (matchCondition : Option Expr)
    (constraint : JoinConstraint) :
    ReadsFromBack (.join left right word matchCondition constraint) := by
  have side : ∀ n, FitsFrom n (.join left right word matchCondition constraint) →
      ∀ «open», (∀ top ∈ «open».head?, top.2.takesCondition = true) →
      runFrom (.joins «open» none) (writeFrom (.join left right word matchCondition constraint)) =
        some (.joins «open» (some (.join left right word matchCondition constraint))) := by
    rintro n ⟨-, hl, rfl, hr⟩ «open» hopen
    rw [writeFrom, runFrom_append, l.side hl _ hopen, bind_some, runFrom, stepFrom,
      FromState.join, bind_eq_bind, bind_some, runFrom_append]
    split at hr
    next hword =>
      -- the condition closes the join
      rw [r.side hr.2 _ (fun _ htop => by cases htop; exact hword), bind_some]
      cases constraint with
      | on | «using» => rfl
      | _ => exact hr.1.elim
    next hword =>
      obtain ⟨rfl, hr⟩ := hr
      rw [r.operand hr, FromState.operand, if_neg hword]
      rfl
  refine ⟨fun h => ?_, side 1, fun h => ?_⟩
  · exact absurd h.1 (by decide)
  · rw [side 2 h [] (by simp)]
    rfl

mutual

theorem readsBack : ∀ t : QueryTree, ReadsBack t
  | .select clauses source => by
    have read : Fits 5 (.select clauses source) → ∀ state,
        runQuery state (writeQuery (.select clauses source)) =
          state.operand (.select clauses source) := by
      rintro ⟨⟨hd, hw, hq⟩, hsource⟩ state
      have read := (readsFromBack source).whole hsource
      obtain ⟨distinct, items, groupBy, having, windows, qualify⟩ := clauses
      obtain rfl : distinct = none := hd
      obtain rfl : windows = [] := hw
      obtain rfl : qualify = none := hq
      simp [writeQuery, ← bind_assoc, read]
    exact ⟨fun h _ _ _ => read h _, fun h _ => read h _,
      fun n hn h => ⟨_, read h _, rfl, hn⟩⟩
  | .setOp op quantifier left right => by
    have l := readsBack left
    have r := readsBack right
    by_cases hop : op = .intersect
    · subst hop
      have fits : ∀ n, Fits n (.setOp .intersect quantifier left right) →
          1 ≤ n ∧ Fits 1 left ∧ Fits 0 right := fun n h => by simpa [Fits] using h
      have branch : ∀ n, Fits n (.setOp .intersect quantifier left right) → ∀ pending,
          runQuery (.first pending) (writeQuery (.setOp .intersect quantifier left right)) =
            some (.complete pending (.setOp .intersect quantifier left right)) := by
        intro n h pending
        obtain ⟨-, hl, hr⟩ := fits n h
        rw [writeQuery, runQuery_append, l.branch hl, bind_some, runQuery, stepQuery]
        exact r.tight hr pending left quantifier
      refine ⟨fun h => ?_, branch 1, fun n hn h => ⟨_, branch n h none, rfl, hn⟩⟩
      exact absurd (fits 0 h).1 (by decide)
    · have fits : ∀ n, Fits n (.setOp op quantifier left right) →
          2 ≤ n ∧ Fits 2 left ∧ Fits 1 right := fun n h => by simpa [Fits, hop] using h
      refine readsBack_of_high (fun h => absurd (fits 1 h).1 (by decide)) fun n hn h => ?_
      obtain ⟨-, hl, hr⟩ := fits n h
      obtain ⟨s, hrun, hfinish, hstage⟩ := l.whole 2 (by decide) hl
      refine ⟨.complete (some (left, op, quantifier)) right, ?_, rfl, hn⟩
      rw [writeQuery, runQuery_append, hrun, bind_some, runQuery, stepQuery,
        QueryState.operator_of_stage hop quantifier hfinish hstage]
      exact r.branch hr _
  | .orderBy body exprs => by
    refine readsBack_of_high (fun h => absurd h.1 (by decide)) ?_
    rintro n - ⟨hn, hexprs, hbody⟩
    obtain ⟨s, hrun, hfinish, hstage⟩ := (readsBack body).whole 2 (by decide) hbody
    refine ⟨.ordered (.orderBy body exprs), ?_, rfl, hn⟩
    rw [writeQuery, runQuery_append, hrun, bind_some, if_neg (by simpa using hexprs),
      runQuery, stepQuery, QueryState.order_of_stage hexprs hfinish hstage]
    rfl
  | .limit body none (some offset) => by
    refine readsBack_of_high (fun h => absurd h.1 (by decide)) ?_
    rintro n - ⟨hn, hbody⟩
    obtain ⟨s, hrun, hfinish, hstage⟩ := (readsBack body).whole 3 (by decide) hbody
    refine ⟨.skipped body offset, ?_, rfl, hn⟩
    rw [writeQuery, runQuery_append, hrun, bind_some]
    simp [QueryState.offset_of_stage offset hfinish hstage]
  | .limit body (some limit) none => by
    refine readsBack_of_high (fun h => absurd h.1 (by decide)) ?_
    rintro n - ⟨hn, hbody⟩
    obtain ⟨s, hrun, hfinish, hstage⟩ := (readsBack body).whole 4 (by decide) hbody
    obtain ⟨s', hlimit, hfinish', hstage'⟩ := QueryState.limit_finish limit hfinish hstage
    refine ⟨s', ?_, hfinish', Nat.le_trans hstage' hn⟩
    rw [writeQuery, runQuery_append, hrun, bind_some]
    simp [hlimit]
  | .limit body (some limit) (some offset) => by
    refine readsBack_of_high (fun h => absurd h.1 (by decide)) ?_
    rintro n - ⟨hn, hbody⟩
    obtain ⟨s, hrun, hfinish, hstage⟩ := (readsBack body).whole 3 (by decide) hbody
    refine ⟨.done (.limit body (some limit) (some offset)), ?_, rfl, hn⟩
    rw [writeQuery, runQuery_append, hrun, bind_some]
    simp [QueryState.limit_of_stage limit hfinish hstage, QueryState.offset]
  | .limit _ none none | .limitBy .. | .fetch .. | .withCtes .. =>
    readsBack_of_high (fun h => h) fun _ _ h => h.elim

theorem readsFromBack : ∀ t : FromTree, ReadsFromBack t
  | .factor tableFactor => by
    refine readsFromBack_of_operand (fun _ h => h) fun _ state => ?_
    simp [writeFrom, runFrom, stepFrom]
  | .derived body aliasName parts => by
    refine readsFromBack_of_operand (fun _ h => h) ?_
    rintro ⟨rfl, hbody⟩ state
    have read : (runQuery (.first none) (writeQuery body)).bind QueryState.finish = some body :=
      (readsBack body).readQuery hbody
    simp [writeFrom, runFrom, stepFrom, ← bind_assoc, read]
  | .join left right word matchCondition constraint =>
    readsFromBack_join (readsFromBack left) (readsFromBack right) word matchCondition constraint
  | .filtered source predicate => by
    refine ⟨fun h => absurd h.1 (by decide), fun h => absurd h.1 (by decide), fun h => ?_⟩
    rw [writeFrom, runFrom_append, (readsFromBack source).side h.2 [] (by simp)]
    rfl

end

end RoundTrip

def PendingFits : Option (QueryTree × SetOperator × SetQuantifier) → Prop
  | none => True
  | some (left, op, _) => op ≠ .intersect ∧ Fits 2 left

def QueryState.Fitting : QueryState → Prop
  | .first pending => PendingFits pending
  | .tight pending left _ => PendingFits pending ∧ Fits 1 left
  | .complete pending tree => PendingFits pending ∧ Fits 1 tree
  | .ordered tree => Fits 3 tree
  | .skipped body _ | .limited body _ => Fits 3 body
  | .done tree => Fits 5 tree

def OpenFits (join : FromTree × JoinWord) : Prop :=
  FitsFrom 1 join.1 ∧ join.2.takesCondition = true

def FromState.Fitting : FromState → Prop
  | .joins «open» current =>
    match current, «open» with
    | some tree, «open» => FitsFrom 1 tree ∧ ∀ join ∈ «open», OpenFits join
    | none, (left, _)::rest => FitsFrom 1 left ∧ ∀ join ∈ rest, OpenFits join
    | none, [] => True
  | .done tree => FitsFrom 2 tree

theorem close_fits {pending : Option (QueryTree × SetOperator × SetQuantifier)}
    (hp : PendingFits pending) (ht : Fits 1 t) : Fits 2 (close pending t) := by
  match pending, hp with
  | none, _ => exact ht.mono (by decide)
  | some (left, op, quantifier), hp =>
    rw [close, Fits, if_neg hp.1]
    exact ⟨by decide, hp.2, ht⟩

namespace QueryState

variable {s s' : QueryState}

theorem Fitting.finish (h : s.Fitting) (ht : s.finish = some t) : Fits 5 t := by
  cases s <;> cases ht
  case complete => exact (close_fits h.1 h.2).mono (by decide)
  case ordered => exact Fits.mono (by decide) h
  case skipped => exact ⟨by decide, h⟩
  case limited => exact ⟨by decide, Fits.mono (by decide) h⟩
  case done => exact h

theorem Fitting.operand (h : s.Fitting) (ht : Fits 0 t) (hs : s.operand t = some s') :
    s'.Fitting := by
  cases s <;> cases hs
  case first => exact ⟨h, ht.mono (by decide)⟩
  case tight =>
    refine ⟨h.1, ?_⟩
    rw [Fits, if_pos rfl]
    exact ⟨by decide, h.2, ht⟩

theorem Fitting.operator {quantifier : SetQuantifier} (h : s.Fitting)
    (hs : s.operator op quantifier = some s') : s'.Fitting := by
  cases s <;> cases hs
  split
  next => exact h
  next hop => exact ⟨hop, close_fits h.1 h.2⟩

theorem Fitting.order (h : s.Fitting) (hs : s.order exprs = some s') : s'.Fitting := by
  cases s with
  | complete pending tree =>
    rw [QueryState.order] at hs
    split at hs
    next => cases hs
    next hexprs =>
      cases hs
      exact ⟨by decide, by simpa using hexprs, close_fits h.1 h.2⟩
  | _ => cases hs

variable {count : Expr}

theorem Fitting.offset (h : s.Fitting) (hs : s.offset count = some s') : s'.Fitting := by
  cases s <;> cases hs
  case complete => exact (close_fits h.1 h.2).mono (by decide)
  case ordered => exact h
  case limited => exact ⟨by decide, h⟩

theorem Fitting.limit (h : s.Fitting) (hs : s.limit count = some s') : s'.Fitting := by
  cases s <;> cases hs
  case complete => exact (close_fits h.1 h.2).mono (by decide)
  case ordered => exact h
  case skipped => exact ⟨by decide, by decide, h⟩

end QueryState

namespace FromState

variable {s s' : FromState} {t : FromTree}

theorem Fitting.finish (h : s.Fitting) (ht : s.finish = some t) : FitsFrom 2 t := by
  match s, ht with
  | .joins [] (some _), rfl => exact h.1.mono (by decide)
  | .done _, rfl => exact h

theorem Fitting.operand (h : s.Fitting) (ht : FitsFrom 0 t) (hs : s.operand t = some s') :
    s'.Fitting := by
  match s, hs with
  | .joins [] none, rfl => exact ⟨ht.mono (by decide), by simp⟩
  | .joins ((left, word)::rest) none, rfl =>
    split
    next hword => exact ⟨ht.mono (by decide), List.forall_mem_cons.mpr ⟨⟨h.1, hword⟩, h.2⟩⟩
    next hword =>
      refine ⟨⟨by decide, h.1, rfl, ?_⟩, h.2⟩
      rw [if_neg hword]
      exact ⟨rfl, ht⟩

theorem Fitting.join {word : JoinWord} (h : s.Fitting) (hs : s.join word = some s') :
    s'.Fitting := by
  match s, hs with
  | .joins _ (some _), rfl => exact h

theorem Fitting.condition {constraint : JoinConstraint} (hc : Written constraint) (h : s.Fitting)
    (hs : s.condition constraint = some s') : s'.Fitting := by
  match s, hs with
  | .joins ((left, word)::rest) (some right), rfl =>
    obtain ⟨hright, hopen⟩ := h
    obtain ⟨⟨hleft, hword⟩, hrest⟩ := List.forall_mem_cons.mp hopen
    have fits : FitsFrom 1 (.join left right word none constraint) := by
      refine ⟨by decide, hleft, rfl, ?_⟩
      rw [if_pos hword]
      exact ⟨hc, hright⟩
    exact ⟨fits, hrest⟩

theorem Fitting.filter {predicate : Expr} (h : s.Fitting) (hs : s.filter predicate = some s') :
    s'.Fitting := by
  match s, hs with
  | .joins [] (some _), rfl => exact ⟨by decide, h.1⟩

end FromState

mutual

theorem stepQuery_fitting : ∀ (token : QueryToken) {s s' : QueryState}, s.Fitting →
    stepQuery s token = some s' → s'.Fitting
  | .select items source groupBy having, s, s', h, hs => by
    simp only [stepQuery, bind_eq_bind, bind_eq_some_iff] at hs
    obtain ⟨fs, hrun, tree, hfinish, hs⟩ := hs
    have fits := (runFrom_fitting source (s := .joins [] none) trivial hrun).finish hfinish
    have core : Fits 0 (.select { items, groupBy, having } tree) := ⟨⟨rfl, rfl, rfl⟩, fits⟩
    exact h.operand core hs
  | .setOp .., _, _, h, hs => h.operator hs
  | .orderBy _, _, _, h, hs => h.order hs
  | .limit _, _, _, h, hs => h.limit hs
  | .offset _, _, _, h, hs => h.offset hs

theorem runQuery_fitting : ∀ (tokens : List QueryToken) {s s' : QueryState}, s.Fitting →
    runQuery s tokens = some s' → s'.Fitting
  | [], _, _, h, hs => by
    cases hs
    exact h
  | token::rest, _, _, h, hs => by
    obtain ⟨_, hstep, hrest⟩ := bind_eq_some_iff.mp hs
    exact runQuery_fitting rest (stepQuery_fitting token h hstep) hrest

theorem stepFrom_fitting : ∀ (token : FromToken) {s s' : FromState}, s.Fitting →
    stepFrom s token = some s' → s'.Fitting
  | .factor _, _, _, h, hs => h.operand (by trivial) hs
  | .group query aliasName, _, _, h, hs => by
    simp only [stepFrom, bind_eq_bind, bind_eq_some_iff] at hs
    obtain ⟨qs, hrun, tree, hfinish, hs⟩ := hs
    have fits : FitsFrom 0 (.derived tree aliasName {}) :=
      ⟨rfl, (runQuery_fitting query (s := .first none) trivial hrun).finish hfinish⟩
    exact h.operand fits hs
  | .join _, _, _, h, hs => h.join hs
  | .on _, _, _, h, hs | .using _, _, _, h, hs => h.condition (by trivial) hs
  | .where _, _, _, h, hs => h.filter hs

theorem runFrom_fitting : ∀ (tokens : List FromToken) {s s' : FromState}, s.Fitting →
    runFrom s tokens = some s' → s'.Fitting
  | [], _, _, h, hs => by
    cases hs
    exact h
  | token::rest, _, _, h, hs => by
    obtain ⟨_, hstep, hrest⟩ := bind_eq_some_iff.mp hs
    exact runFrom_fitting rest (stepFrom_fitting token h hstep) hrest

end

theorem fits_of_readQuery {tokens : List QueryToken}
    (h : readQuery tokens = some t) : Fits 5 t := by
  obtain ⟨s, hrun, hfinish⟩ := bind_eq_some_iff.mp h
  exact (runQuery_fitting tokens (s := .first none) trivial hrun).finish hfinish

theorem readQuery_writeQuery_iff (t : QueryTree) : readQuery (writeQuery t) = some t ↔ Fits 5 t :=
  ⟨fits_of_readQuery, (readsBack t).readQuery⟩

end Leibrix.SqlGrouping
