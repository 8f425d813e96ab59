import Leibrix.PlanNames
import Leibrix.SelectCalls

/-!
# The keys of an equi-join

A join is hashed on the columns that its ON condition equates. The builder tells the sides
of an equation by the last qualifier of its names, among names that it collects from the
plans; a base name is collected even where an alias hides it. The keys are right when each
finds a column of its input, and the equations of the condition, as the database reads
them, link the two.
-/

set_option autoImplicit false

namespace Leibrix.JoinKeys
open SqlAst LdpTypes PlanBuilder NameScopes PlanNames List

section Condition

abbrev JoinColumn := Source ⊕ Source

def refParts : Expr → Option (List Ident)
  | .identifier ident => some [ident]
  | .compoundIdentifier parts => some parts
  | _ => none

/-- How the database finds the column of a reference in an ON condition. -/
abbrev Finds := List Ident → Option JoinColumn

variable (find : Finds)

def equations : Expr → List (JoinColumn × JoinColumn)
  | .binaryOp left .and right => equations left ++ equations right
  | .nested inner => equations inner
  | .binaryOp left .eq right =>
    match (refParts left).bind find, (refParts right).bind find with
    | some x, some y => [(x, y)]
    | _, _ => []
  | _ => []

/-- The condition is TRUE on a pair of rows. An equation of columns is TRUE when both have the same
value and none is NULL; `holds` tells what other conditions are. -/
def OnTrue {Value : Type} (holds : Expr → (JoinColumn → Option Value) → Prop)
    (row : JoinColumn → Option Value) : Expr → Prop
  | .binaryOp left .and right => OnTrue holds row left ∧ OnTrue holds row right
  | .nested inner => OnTrue holds row inner
  | .binaryOp left .eq right =>
    match (refParts left).bind find, (refParts right).bind find with
    | some x, some y => ∃ v, row x = some v ∧ row y = some v
    | _, _ => holds (.binaryOp left .eq right) row
  | e => holds e row

def Linked (condition : Expr) (x y : JoinColumn) : Prop :=
  Relation.EqvGen (fun a b => (a, b) ∈ equations find condition) x y

variable {find} {Value : Type} {holds : Expr → (JoinColumn → Option Value) → Prop}
  {row : JoinColumn → Option Value}

variable {x y : JoinColumn}

theorem equation_of_onTrue {condition : Expr} (h : OnTrue find holds row condition)
    (hxy : (x, y) ∈ equations find condition) : row x = row y := by
  fun_induction equations find condition with
  | case1 left right ihl ihr =>
    rcases mem_append.mp hxy with hxy | hxy
    · exact ihl h.1 hxy
    · exact ihr h.2 hxy
  | case2 inner ih => exact ih h hxy
  | case3 left right a b ha hb =>
    cases mem_singleton.mp hxy
    simp only [OnTrue, ha, hb] at h
    obtain ⟨v, hx, hy⟩ := h
    rw [hx, hy]
  | case4 | case5 => cases hxy

theorem onTrue_of_equations {condition : Expr}
    (h : ∀ e ∈ equations find condition, ∃ v, row e.1 = some v ∧ row e.2 = some v) :
    OnTrue find (fun _ _ => True) row condition := by
  fun_induction equations find condition with
  | case1 left right ihl ihr =>
    exact ⟨ihl fun e he => h e (mem_append_left _ he),
      ihr fun e he => h e (mem_append_right _ he)⟩
  | case2 inner ih => exact ih h
  | case3 left right a b ha hb =>
    simp only [OnTrue, ha, hb]
    exact h (a, b) (mem_singleton_self _)
  | case4 left right hnone =>
    rw [OnTrue]
    split
    next ha hb => exact (hnone _ _ ha hb).elim
    next => trivial
  | case5 e hand hnested heq =>
    unfold OnTrue
    split
    next l r => exact (hand l r rfl).elim
    next inner => exact (hnested inner rfl).elim
    next l r => exact (heq l r rfl).elim
    next => trivial

theorem eq_of_linked {condition : Expr} (h : OnTrue find holds row condition)
    (hxy : Linked find condition x y) : row x = row y := by
  induction hxy with
  | rel _ _ hmem => exact equation_of_onTrue h hmem
  | refl _ => rfl
  | symm _ _ _ ih => exact ih.symm
  | trans _ _ _ _ _ ihx ihy => exact ihx.trans ihy

theorem linked_of_eq (Value : Type) [Nontrivial Value] {condition : Expr}
    (h : ∀ row : JoinColumn → Option Value,
      OnTrue find (fun _ _ => True) row condition → row x = row y) : Linked find condition x y := by
  classical
  obtain ⟨v, w, hvw⟩ := exists_pair_ne Value
  -- one value for what `x` is linked to, and another for the rest
  have equal := h (fun z => some (if Linked find condition x z then v else w))
    (onTrue_of_equations fun e he => by
      have step : Linked find condition x e.1 ↔ Linked find condition x e.2 :=
        ⟨fun hx => .trans _ _ _ hx (.rel _ _ he),
          fun hx => .trans _ _ _ hx (.symm _ _ (.rel _ _ he))⟩
      exact ⟨if Linked find condition x e.1 then v else w, rfl, by simp only [step]⟩)
  by_contra apart
  rw [if_pos (.refl x), if_neg apart] at equal
  exact hvw (Option.some.inj equal)

end Condition

section Keys

def keyColumn (scope : Scope) (key : ColumnRef) : Option Source :=
  Env.lookup ⟨[], scope⟩ ⟨(key.table.map fold).toList, fold key.column⟩

/-- Both lists have one length, each key finds a column of its side, and the values of paired keys
are the same on every pair of rows on which the condition is TRUE. -/
structure KeysSound (Value : Type) (find : Finds) (left right : Scope) (condition : Expr)
    (leftKeys rightKeys : List ColumnRef) : Prop where
  length : leftKeys.length = rightKeys.length
  leftFound : ∀ k ∈ leftKeys, (keyColumn left k).isSome
  rightFound : ∀ k ∈ rightKeys, (keyColumn right k).isSome
  equal : ∀ (holds : Expr → (JoinColumn → Option Value) → Prop) (row : JoinColumn → Option Value),
    OnTrue find holds row condition →
      (leftKeys.map fun k => (keyColumn left k).map fun x => row (.inl x)) =
        rightKeys.map fun k => (keyColumn right k).map fun y => row (.inr y)

/-- The left key finds a column of the left input, the right key one of the right input, and the
condition links the two. -/
def KeysLinked (find : Finds) (left right : Scope) (condition : Expr) (k l : ColumnRef) : Prop :=
  ∃ x y, keyColumn left k = some x ∧ keyColumn right l = some y ∧
    Linked find condition (.inl x) (.inr y)

variable {find : Finds} {left right : Scope} {condition : Expr}

theorem keysSound_iff (Value : Type) [Nontrivial Value] (pairs : List (ColumnRef × ColumnRef)) :
    KeysSound Value find left right condition (pairs.map Prod.fst) (pairs.map Prod.snd) ↔
      ∀ p ∈ pairs, KeysLinked find left right condition p.1 p.2 := by
  constructor
  · intro h p hp
    obtain ⟨x, hx⟩ := Option.isSome_iff_exists.mp (h.leftFound p.1 (mem_map_of_mem hp))
    obtain ⟨y, hy⟩ := Option.isSome_iff_exists.mp (h.rightFound p.2 (mem_map_of_mem hp))
    refine ⟨x, y, hx, hy, linked_of_eq Value fun row htrue => ?_⟩
    have equal := h.equal _ row htrue
    simp only [map_map, map_inj_left, Function.comp_apply] at equal
    simpa [hx, hy] using equal p hp
  · intro h
    refine ⟨by simp, ?_, ?_, ?_⟩
    · intro k hk
      obtain ⟨p, hp, rfl⟩ := mem_map.mp hk
      obtain ⟨x, y, hx, -, -⟩ := h p hp
      simp [hx]
    · intro k hk
      obtain ⟨p, hp, rfl⟩ := mem_map.mp hk
      obtain ⟨x, y, -, hy, -⟩ := h p hp
      simp [hy]
    · intro holds row htrue
      simp only [map_map, map_inj_left, Function.comp_apply]
      intro p hp
      obtain ⟨x, y, hx, hy, linked⟩ := h p hp
      simp [hx, hy, eq_of_linked htrue linked]

end Keys

section Sides

/-- The sides of the equations in the AND chain of a condition, parentheses aside. -/
def equated : Expr → List (Expr × Expr)
  | .binaryOp left .and right => equated left ++ equated right
  | .nested inner => equated inner
  | .binaryOp left .eq right => [(left, right)]
  | _ => []

def ownNames : LogicalPlan → List String
  | .scan name «alias» _ => name::(«alias».map (·.name.value)).toList
  | .subqueryScan _ «alias» => [«alias».name.value]
  | .exchangeRead _ «alias» => [«alias»]
  | _ => []

/-- The inputs of an operator whose names can be used outside it. -/
def openInputs : LogicalPlan → List LogicalPlan
  | .subqueryScan _ _ => []
  | plan => plan.children

/-- The names of the tables, aliases and derived tables of an input. The name of a table is one
of them even if it has an alias. -/
inductive Names : LogicalPlan → String → Prop
  | own {plan : LogicalPlan} {name : String} (mem : name ∈ ownNames plan) : Names plan name
  | inner {plan input : LogicalPlan} {name : String} (mem : input ∈ openInputs plan)
      (h : Names input name) : Names plan name

variable (plan : LogicalPlan)

/-- The reference has a qualifier, which is a name of the input; `key` is its last two parts. -/
def Belongs (e : Expr) (key : ColumnRef) : Prop :=
  ∃ (pre : List Ident) (table column : Ident) (name : String),
    e = .compoundIdentifier (pre ++ [table, column]) ∧ Names plan name ∧
      eqIgnoreAsciiCase name table.value = true ∧ key = qualified table.value column.value

/-- The left side of the equation is given to the left input, and the right side to the right. -/
def Straight (left right : LogicalPlan) (p q : Expr) (k l : ColumnRef) : Prop :=
  Belongs left p k ∧ Belongs right q l

theorem names_step (name : String) :
    Names plan name ↔ name ∈ ownNames plan ∨ ∃ input ∈ openInputs plan, Names input name := by
  constructor
  · intro h
    cases h with
    | own mem => exact .inl mem
    | inner mem h => exact .inr ⟨_, mem, h⟩
  · rintro (mem | ⟨input, mem, h⟩)
    · exact .own mem
    · exact .inner mem h

theorem mem_collectTableNames (name : String) :
    name ∈ collectTableNames plan ↔ Names plan name := by
  rw [names_step]
  induction plan with
  | scan | subqueryScan | exchangeRead =>
    simp [collectTableNames, ownNames, openInputs, LogicalPlan.children]
  | filter input _ ih | project input _ ih | aggregate input _ _ _ _ ih | sort input _ ih
  | limit input _ _ ih | window input _ _ ih =>
    rw [← names_step] at ih
    simp [collectTableNames, ownNames, openInputs, LogicalPlan.children, ih]
  | join left right _ _ _ ihl ihr | setOp left right _ _ ihl ihr =>
    rw [← names_step] at ihl ihr
    simp [collectTableNames, ownNames, openInputs, LogicalPlan.children, ihl, ihr]

theorem belongs_iff {plan : LogicalPlan} {e : Expr} {key : ColumnRef} :
    Belongs plan e key ↔
      exprToColumnRef e = some key ∧ isFromTables key (collectTableNames plan) = true := by
  constructor
  · rintro ⟨pre, table, column, name, rfl, names, same, rfl⟩
    refine ⟨by simp [exprToColumnRef], any_eq_true.mpr ⟨name, ?_, same⟩⟩
    exact (mem_collectTableNames plan name).mpr names
  · rintro ⟨hkey, hfrom⟩
    cases e with
    | identifier ident =>
      cases hkey
      cases hfrom
    | compoundIdentifier parts =>
      rw [exprToColumnRef] at hkey
      split at hkey
      · rename_i column table rest hrev
        cases hkey
        obtain ⟨name, hname, same⟩ := any_eq_true.mp hfrom
        refine ⟨rest.reverse, table, column, name, ?_,
          (mem_collectTableNames plan name).mp hname, same, rfl⟩
        rw [← reverse_reverse parts, hrev]
        simp
      · cases hkey
    | _ => cases hkey

variable {left right : LogicalPlan}

theorem straight_iff {p q : Expr} {a b : ColumnRef} (ha : exprToColumnRef p = some a)
    (hb : exprToColumnRef q = some b) (k l : ColumnRef) :
    Straight left right p q k l ↔ (k, l) = (a, b) ∧
      isFromTables a (collectTableNames left) = true ∧
      isFromTables b (collectTableNames right) = true := by
  rw [Straight, belongs_iff, belongs_iff, ha, hb]
  constructor
  · rintro ⟨⟨hk, hleft⟩, hl, hright⟩
    cases hk
    cases hl
    exact ⟨rfl, hleft, hright⟩
  · rintro ⟨heq, hleft, hright⟩
    cases heq
    exact ⟨⟨rfl, hleft⟩, rfl, hright⟩

/-- The equation is given to the inputs as it stands if it can be, and else turned. -/
def Given (left right : LogicalPlan) (p q : Expr) (k l : ColumnRef) : Prop :=
  Straight left right p q k l ∨
    (¬∃ k l, Straight left right p q k l) ∧ Straight left right q p k l

theorem mem_equation (p q : Expr) (k l : ColumnRef) :
    (k, l) ∈ extractEquiKeys (collectTableNames left) (collectTableNames right)
        (.binaryOp p .eq q) ↔ Given left right p q k l := by
  rw [extractEquiKeys]
  split
  · rename_i a b ha hb
    rw [Given, straight_iff ha hb, straight_iff hb ha]
    simp only [straight_iff ha hb, Prod.mk.injEq, Bool.and_eq_true]
    split
    · rename_i hstraight
      simp [hstraight]
    · rename_i hstraight
      split
      · rename_i hturned
        simp [hstraight, hturned]
      · rename_i hturned
        have hturned' : ¬(isFromTables b (collectTableNames left) = true ∧
            isFromTables a (collectTableNames right) = true) := fun h => hturned h.symm
        simp [hstraight, hturned']
  · rename_i hnone
    have noKeys (x y : Expr) (hxy : x = p ∧ y = q ∨ x = q ∧ y = p) (k l : ColumnRef) :
        ¬Straight left right x y k l := by
      rintro ⟨hx, hy⟩
      rcases hxy with ⟨rfl, rfl⟩ | ⟨rfl, rfl⟩
      · exact hnone _ _ (belongs_iff.mp hx).1 (belongs_iff.mp hy).1
      · exact hnone _ _ (belongs_iff.mp hy).1 (belongs_iff.mp hx).1
    constructor
    · intro h
      cases h
    · rintro (h | ⟨-, h⟩)
      · exact absurd h (noKeys p q (.inl ⟨rfl, rfl⟩) k l)
      · exact absurd h (noKeys q p (.inr ⟨rfl, rfl⟩) k l)

theorem extractEquiKeys_eq (leftTables rightTables : List String) (condition : Expr) :
    extractEquiKeys leftTables rightTables condition = (equated condition).flatMap fun e =>
      extractEquiKeys leftTables rightTables (.binaryOp e.1 .eq e.2) := by
  fun_induction equated condition with
  | case1 l r ihl ihr => rw [extractEquiKeys, ihl, ihr, flatMap_append]
  | case2 inner ih => rw [extractEquiKeys, ih]
  | case3 l r => rw [flatMap_singleton]
  | case4 e hand hnested heq =>
    rw [flatMap_nil]
    unfold extractEquiKeys
    split
    next l r => exact (heq l r rfl).elim
    next l r => exact (hand l r rfl).elim
    next inner => exact (hnested inner rfl).elim
    next => rfl

/-- The keys are the pairs that the equations of the condition are given as. -/
theorem mem_extractEquiKeys (condition : Expr) (k l : ColumnRef) :
    (k, l) ∈ extractEquiKeys (collectTableNames left) (collectTableNames right) condition ↔
      ∃ e ∈ equated condition, Given left right e.1 e.2 k l := by
  rw [extractEquiKeys_eq, mem_flatMap]
  exact exists_congr fun e => and_congr_right fun _ => mem_equation e.1 e.2 k l

end Sides

def scopeOf (catalog : TableFactor → List Name) (plan : LogicalPlan) : Scope :=
  (meaning catalog plan).scope

/-- The keys of a join with an ON condition are sound exactly if its equations are given to the
right inputs. -/
theorem join_keys_sound_iff (Value : Type) [Nontrivial Value] (catalog : TableFactor → List Name)
    (find : Finds) (left right : LogicalPlan) (joinOp : JoinOperator) {condition : Expr}
    (hon : extractJoinConstraint joinOp = some (.on condition))
    {leftKeys rightKeys : List ColumnRef}
    (h : joinPlans joinOp left right = .join left right joinOp leftKeys rightKeys) :
    KeysSound Value find (scopeOf catalog left) (scopeOf catalog right) condition leftKeys
        rightKeys ↔
      ∀ e ∈ equated condition, ∀ k l, Given left right e.1 e.2 k l →
        KeysLinked find (scopeOf catalog left) (scopeOf catalog right) condition k l := by
  simp only [joinPlans, extractJoinKeysFromOperator, hon, unzip_eq_map,
    LogicalPlan.join.injEq] at h
  obtain ⟨-, -, -, rfl, rfl⟩ := h
  rw [keysSound_iff Value]
  constructor
  · intro linked e he k l given
    exact linked (k, l) ((mem_extractEquiKeys condition k l).mpr ⟨e, he, given⟩)
  · intro linked pair hpair
    obtain ⟨e, he, given⟩ := (mem_extractEquiKeys condition pair.1 pair.2).mp hpair
    exact linked e he pair.1 pair.2 given

section Cases

def sided (side : Source → JoinColumn) (R : Relation Name Source) : Relation Name JoinColumn :=
  ⟨R.names, R.columns.map fun column => ⟨column.name, column.source.map side⟩⟩

/-- The rules for names on the relations of both sides. -/
def findByName (left right : Scope) : Finds := fun parts =>
  (ref? parts).bind (Env.lookup ⟨[], left.map (sided .inl) ++ right.map (sided .inr)⟩)

def ident (name : String) : Ident := ⟨name, none⟩

variable (names : List String)

def path : Expr := .compoundIdentifier (names.map ident)

def tableAt («alias» : Option TableAlias) : TableFactor :=
  .table (names.map fun name => .identifier (ident name)) «alias» none

def columnsXY : TableFactor → List Name := fun _ => [fold "x", fold "y"]

def equation (left right : List String) : Expr := .binaryOp (path left) .eq (path right)

def joinOn (condition : Expr) : JoinOperator := .plain .join (.on condition)

def scanAt («alias» : Option TableAlias) : LogicalPlan :=
  .scan (names.getLast?.getD "") «alias» (tableAt names «alias»)

def aliasOf (name : String) : TableAlias := { name := ident name }

/-- `t AS a`. -/
def aliasedA : LogicalPlan := scanAt ["t"] (some (aliasOf "a"))

/-- `t AS b`. -/
def aliasedB : LogicalPlan := scanAt ["t"] (some (aliasOf "b"))

/-- The keys of `t AS a JOIN t AS b ON b.x = a.y` are `a.y` and `b.x`. -/
theorem join_keys_sound_iff_self :
    joinPlans (joinOn (equation ["b", "x"] ["a", "y"])) aliasedA aliasedB =
        .join aliasedA aliasedB (joinOn (equation ["b", "x"] ["a", "y"])) [qualified "a" "y"]
          [qualified "b" "x"] ∧
      KeysSound Nat (findByName (scopeOf columnsXY aliasedA) (scopeOf columnsXY aliasedB))
        (scopeOf columnsXY aliasedA) (scopeOf columnsXY aliasedB) (equation ["b", "x"] ["a", "y"])
        [qualified "a" "y"] [qualified "b" "x"] := by
  have keys : joinPlans (joinOn (equation ["b", "x"] ["a", "y"])) aliasedA aliasedB =
      .join aliasedA aliasedB (joinOn (equation ["b", "x"] ["a", "y"])) [qualified "a" "y"]
        [qualified "b" "x"] := rfl
  refine ⟨keys, (join_keys_sound_iff Nat columnsXY _ aliasedA aliasedB _ rfl keys).mpr ?_⟩
  intro e he k l given
  obtain rfl := mem_singleton.mp he
  obtain ⟨rfl, rfl⟩ : k = qualified "a" "y" ∧ l = qualified "b" "x" :=
    Prod.mk.inj (mem_singleton.mp ((mem_equation _ _ k l).mpr given))
  exact ⟨⟨[fold "a"], fold "y"⟩, ⟨[fold "b"], fold "x"⟩, rfl, rfl,
    .symm _ _ (.rel _ _ (mem_singleton_self _))⟩

def tableS1 : LogicalPlan := scanAt ["s1", "t"] none

def tableS2 : LogicalPlan := scanAt ["s2", "t"] none

/-- The left row is `x = 1, y = 2` and the right one `x = 2, y = 9`. -/
def rowsXY : JoinColumn → Option Nat
  | .inl ⟨_, column⟩ => if column = fold "x" then some 1 else some 2
  | .inr ⟨_, column⟩ => if column = fold "x" then some 2 else some 9

/-- In `s1.t JOIN s2.t ON s2.t.x = s1.t.y` both names end in `t`, and the equation is taken for
`s1.t.x = s2.t.y`. -/
theorem schema_qualifier_lost :
    buildTableWithJoins SelectCalls.plainText SelectCalls.noCtes []
        ⟨tableAt ["s1", "t"] none, [⟨tableAt ["s2", "t"] none,
          joinOn (equation ["s2", "t", "x"] ["s1", "t", "y"])⟩]⟩ =
        .ok (.join tableS1 tableS2 (joinOn (equation ["s2", "t", "x"] ["s1", "t", "y"]))
          [qualified "t" "x"] [qualified "t" "y"]) ∧
      ¬KeysSound Nat (findByName (scopeOf columnsXY tableS1) (scopeOf columnsXY tableS2))
        (scopeOf columnsXY tableS1) (scopeOf columnsXY tableS2)
        (equation ["s2", "t", "x"] ["s1", "t", "y"]) [qualified "t" "x"] [qualified "t" "y"] := by
  refine ⟨rfl, fun sound => ?_⟩
  have equal := sound.equal (fun _ _ => False) rowsXY ⟨2, rfl, rfl⟩
  exact absurd equal (by decide)

end Cases

end Leibrix.JoinKeys
