import Leibrix.LdpRun
import Leibrix.PlanBuilder

/-!
# What a partitioning label promises

A node labelled as hash-partitioned on some keys promises that its output has those keys as
columns, and that rows with equal keys lie on one worker. Rows are lists of values under the
columns that the plan gives them, and a reference picks the first column it matches. The
engine is left open: a computed column may hold any value, a predicate may drop any row.
-/

set_option autoImplicit false

namespace Leibrix.LdpLabels
open SqlAst LdpTypes LdpAnnotate LdpCut PlacedJoin RowSpread LdpRun
open LdpReassemble LdpCutSound LdpCutCorrect List

variable (schema : String → List String)

section Columns

def position (columns : List ColumnRef) (k : ColumnRef) : Option ℕ :=
  columns.findIdx? (·.matches k)

def keyOf {ν : Type} (columns keys : List ColumnRef) (row : List ν) : List (Option ν) :=
  keys.map fun k => (position columns k).bind (row[·]?)

def Names (keys columns : List ColumnRef) : Prop := ∀ k ∈ keys, (position columns k).isSome

variable (text : SqlText)

abbrev Sources := List (ColumnRef × Option ℕ)

variable (input : List ColumnRef)

def exprSource : Expr → Option ℕ
  | .identifier ident => position input ⟨none, ident.value⟩
  | .compoundIdentifier parts =>
    match parts.reverse with
    | column::qualifier::_ => position input ⟨some qualifier.value, column.value⟩
    | [column] => position input ⟨none, column.value⟩
    | [] => none
  | _ => none

def exprName : Expr → String
  | .identifier ident => ident.value
  | .compoundIdentifier parts => (parts.getLast?.map (·.value)).getD ""
  | expr => text.expr expr

def itemSources : SelectItem → Sources
  | .unnamedExpr expr => [(⟨none, exprName text expr⟩, exprSource input expr)]
  | .exprWithAlias expr aliasName => [(⟨none, aliasName.value⟩, exprSource input expr)]
  | .wildcard => input.zipIdx.map fun c => (⟨none, c.1.column⟩, some c.2)
  | .qualifiedWildcard name =>
    (input.zipIdx.filter fun c => c.1.table = some (PlanBuilder.objectNameToString name)).map
      fun c => (⟨none, c.1.column⟩, some c.2)

def aliasSources (name : String) (newNames : List Ident) (input : List ColumnRef) : Sources :=
  input.zipIdx.map fun c =>
    (⟨some name, ((newNames[c.2]?).map (·.value)).getD c.1.column⟩, some c.2)

def sources : LogicalPlan → Sources
  | .scan tableName none _ => aliasSources tableName [] input
  | .scan _ (some aliasName) _ => aliasSources aliasName.name.value aliasName.columns input
  | .project _ items => items.flatMap (itemSources text input)
  | .aggregate _ _ aggrExprs _ _ => aggrExprs.flatMap (itemSources text input)
  | .window _ windowExprs _ => windowExprs.flatMap (itemSources text input)
  | .subqueryScan _ aliasName => aliasSources aliasName.name.value aliasName.columns input
  | _ => input.zipIdx.map fun c => (c.1, some c.2)

def joinKind : JoinOperator → JoinType
  | .plain kind _ => joinType kind
  | .asOf _ _ => .inner
  | .apply outer => if outer then .left else .inner

def joinColumns (type : JoinType) (left right : List ColumnRef) : List ColumnRef :=
  match type with
  | .leftSemi | .leftAnti => left
  | .rightSemi | .rightAnti => right
  | _ => left ++ right

def storedColumns (tableName : String) : List ColumnRef :=
  (schema tableName).map ColumnRef.unqualified

def columns : LogicalPlan → List ColumnRef
  | .scan t al factor => (sources text (storedColumns schema t) (.scan t al factor)).map (·.1)
  | .filter input predicate => (sources text (columns input) (.filter input predicate)).map (·.1)
  | .project input items => (sources text (columns input) (.project input items)).map (·.1)
  | .aggregate input groupBy aggrExprs having groupKeys =>
    (sources text (columns input) (.aggregate input groupBy aggrExprs having groupKeys)).map (·.1)
  | .sort input orderBy => (sources text (columns input) (.sort input orderBy)).map (·.1)
  | .limit input limit offset =>
    (sources text (columns input) (.limit input limit offset)).map (·.1)
  | .window input windowExprs keys =>
    (sources text (columns input) (.window input windowExprs keys)).map (·.1)
  | .subqueryScan input al => (sources text (columns input) (.subqueryScan input al)).map (·.1)
  | .join left right op _ _ => joinColumns (joinKind op) (columns left) (columns right)
  | .setOp left _ _ _ => columns left
  | .exchangeRead .. => []

end Columns

/-- An input of a node: its columns, and the label of where it lies. -/
structure Input where
  columns : List ColumnRef
  label : Distribution

variable {ν : Type}

section Rows

variable (null : ν) (text : SqlText)

def Copies (src : Sources) (x y : List ν) : Prop :=
  y.length = src.length ∧ ∀ j s : ℕ, (src[j]?).bind Prod.snd = some s → y[j]? = x[s]?

/-- The row that a join makes of a left and a right row, one of which may be missing. -/
def joinRow (type : JoinType) (left right : List ColumnRef) :
    Option (List ν) × Option (List ν) → List ν
  | (a, b) =>
    let a := a.getD (left.map fun _ => null)
    let b := b.getD (right.map fun _ => null)
    match type with
    | .leftSemi | .leftAnti => a
    | .rightSemi | .rightAnti => b
    | _ => a ++ b

def partRows (L R : Set (List ν)) : Part → Set (Option (List ν) × Option (List ν))
  | .pairs => {x | ∃ a ∈ L, ∃ b ∈ R, x = (some a, some b)}
  | .leftMatched => {x | ∃ a ∈ L, R.Nonempty ∧ x = (some a, none)}
  | .leftUnmatched => {x | ∃ a ∈ L, x = (some a, none)}
  | .rightMatched => {x | ∃ b ∈ R, L.Nonempty ∧ x = (none, some b)}
  | .rightUnmatched => {x | ∃ b ∈ R, x = (none, some b)}

/-- The rows that a worker may put out, for some engine. -/
def outputs : LogicalPlan → List Input → List (Set (List ν)) → Set (List ν)
  | .join _ _ op _ _, [l, r], [L, R] =>
    {y | ∃ part ∈ (joinKind op).parts, ∃ x ∈ partRows L R part,
      y = joinRow null (joinKind op) l.columns r.columns x}
  | .setOp .., [_, _], [L, R] => L ∪ R
  | plan, [i], [B] => {y | ∃ x ∈ B, Copies (sources text i.columns plan) x y}
  | _, _, _ => ∅

/-- Rows that lie as a label says. -/
structure LiesBy (pm : PartitionMap (List (Option ν)) WorkerId) (i : Input)
    (r : WorkerId → Set (List ν)) : Prop where
  shape : ∀ w, ∀ x ∈ r w, x.length = i.columns.length
  site : ∀ w, ∀ x ∈ r w, w ∈ i.label.workers
  hashed : ∀ keys ws, i.label = .hashPartitioned keys ws →
    ∀ w, ∀ x ∈ r w, w = pm.worker ws.toFinset (keyOf i.columns keys x)
  copied : ∀ ws, i.label = .replicated ws → ∀ v ∈ ws, ∀ w ∈ ws, r v = r w

/-- Rows with equal keys lie on one of the workers. -/
def Colocated (columns keys : List ColumnRef) (ws : List WorkerId)
    (r : WorkerId → Set (List ν)) : Prop :=
  ∀ v w, ∀ y ∈ r v, ∀ z ∈ r w, keyOf columns keys y = keyOf columns keys z → v = w ∧ v ∈ ws

end Rows

section Conditions

variable (text : SqlText)

def Carried (keysIn : List ColumnRef) (inPosition : ColumnRef → Option ℕ) (keys : List ColumnRef)
    (outPosition : ColumnRef → Option ℕ) : Prop :=
  ∀ k ∈ keysIn, ∀ s ∈ inPosition k, ∃ k' ∈ keys, outPosition k' = some s

def copiedFrom (src : Sources) (k : ColumnRef) : Option ℕ :=
  (position (src.map (·.1)) k).bind fun j => (src[j]?).bind Prod.snd

def rightPosition (left right : List ColumnRef) (k : ColumnRef) : Option ℕ :=
  if (position left k).isSome then none else position right k

def partSites (left right : List WorkerId) : Part → List WorkerId
  | .pairs | .leftMatched | .rightMatched => left.filter (· ∈ right)
  | .leftUnmatched => left
  | .rightUnmatched => right

def sites : LogicalPlan → List Input → List WorkerId
  | .join _ _ op _ _, [l, r] =>
    (joinKind op).parts.flatMap (partSites l.label.workers r.label.workers)
  | .setOp .., [l, r] => l.label.workers ++ r.label.workers
  | _, [i] => i.label.workers
  | _, _ => []

variable (keys : List ColumnRef)

def LeftKept (right : Input) : JoinType → Prop
  | .inner | .cross | .left | .leftSemi | .leftAnti => True
  | .right | .full => right.label.workers = []
  | .rightSemi | .rightAnti =>
    match right.label with
    | .hashPartitioned rightKeys _ =>
      Carried rightKeys (position right.columns) keys (position right.columns)
    | _ => False

def RightKept (left right : Input) : JoinType → Prop
  | .rightSemi | .rightAnti => True
  | .inner | .cross | .right =>
    Carried keys (position right.columns) keys (rightPosition left.columns right.columns)
  | .left | .full => left.label.workers = [] ∧
    Carried keys (position right.columns) keys (rightPosition left.columns right.columns)
  | .leftSemi | .leftAnti => False

variable (ws : List WorkerId)

def UnionKept (left right : Input) : Prop :=
  right.label.workers = [] ∨
    match right.label with
    | .hashPartitioned rightKeys rightWorkers => rightWorkers.toFinset = ws.toFinset ∧
        keys.map (position left.columns) = rightKeys.map (position right.columns)
    | _ => False

/-- The keys of an output row tell where it is. -/
def KeysKept : LogicalPlan → List Input → Prop
  | .join _ _ op _ _, [l, r] =>
    if l.label.isReplicated then RightKept keys l r (joinKind op)
    else LeftKept keys r (joinKind op)
  | .setOp .., [l, r] => UnionKept keys ws l r
  | plan, [i] =>
    match i.label with
    | .hashPartitioned keysIn _ =>
      Carried keysIn (position i.columns) keys (copiedFrom (sources text i.columns plan))
    | _ => False
  | _, _ => False

def KeepsLabel (plan : LogicalPlan) (ins : List Input) : Prop :=
  (∀ w ∈ sites plan ins, w ∈ ws) ∧
    ((∀ v ∈ sites plan ins, ∀ w ∈ sites plan ins, v = w) ∨ KeysKept text keys ws plan ins)

end Conditions

variable {keysIn : List ColumnRef}

section Keys

variable {cols keys : List ColumnRef} {x y : List ν}

theorem keyOf_eq_iff : keyOf cols keys x = keyOf cols keys y ↔
      ∀ k ∈ keys, ∀ s ∈ position cols k, x[s]? = y[s]? := by
  rw [keyOf, keyOf, map_inj_left]
  refine forall₂_congr fun k _ => ?_
  cases position cols k <;> simp

theorem Carried.key_eq {outPosition : ColumnRef → Option ℕ}
    (h : Carried keysIn (position cols) keys outPosition)
    (hout : ∀ k ∈ keys, ∀ s ∈ outPosition k, x[s]? = y[s]?) :
    keyOf cols keysIn x = keyOf cols keysIn y := by
  rw [keyOf_eq_iff]
  intro k hk s hs
  obtain ⟨k', hk', hpos⟩ := h k hk s hs
  exact hout k' hk' s hpos

theorem Copies.eq_of_key {src : Sources} {x' y' : List ν} (h : Copies src x y)
    (h' : Copies src x' y') (hkey : keyOf (src.map (·.1)) keys y = keyOf (src.map (·.1)) keys y') :
    ∀ k ∈ keys, ∀ s ∈ copiedFrom src k, x[s]? = x'[s]? := by
  intro k hk s hs
  obtain ⟨j, hj, hsource⟩ := Option.bind_eq_some_iff.mp hs
  rw [← h.2 j s hsource, ← h'.2 j s hsource]
  exact keyOf_eq_iff.mp hkey k hk j hj

theorem position_append (left right : List ColumnRef) (k : ColumnRef) :
    position (left ++ right) k =
      (position left k).or ((position right k).map (· + left.length)) := by
  rw [position, findIdx?_append]
  rfl

theorem position_lt {k : ColumnRef} {s : ℕ} (h : s ∈ position cols k) : s < cols.length := by
  obtain ⟨hs, -⟩ := findIdx?_eq_some_iff_getElem.mp h
  exact hs

variable {left right : List ColumnRef} {a a' b b' : List ν} (ha : a.length = left.length)
  (ha' : a'.length = left.length)
  (h : keyOf (left ++ right) keys (a ++ b) = keyOf (left ++ right) keys (a' ++ b'))
include ha ha' h

theorem keyOf_left : keyOf left keys a = keyOf left keys a' := by
  rw [keyOf_eq_iff] at h ⊢
  intro k hk s hs
  have hlt := position_lt hs
  have := h k hk s (by rw [position_append, show position left k = some s from hs]; rfl)
  rwa [getElem?_append_left (by omega), getElem?_append_left (by omega)] at this

theorem eq_right_of_keyOf : ∀ k ∈ keys, ∀ s ∈ rightPosition left right k, b[s]? = b'[s]? := by
  intro k hk s hs
  rw [rightPosition] at hs
  split at hs
  · cases hs
  · rename_i hnone
    have hleft : position left k = none := by simpa using hnone
    have := keyOf_eq_iff.mp h k hk (s + left.length)
      (by rw [position_append, hleft, show position right k = some s from hs]; rfl)
    rwa [getElem?_append_right (by omega), getElem?_append_right (by omega), ha, ha',
      Nat.add_sub_cancel] at this

end Keys

section Nodes

variable {null : ν} {text : SqlText} {pm : PartitionMap (List (Option ν)) WorkerId}
  {keys : List ColumnRef} {ws : List WorkerId}

variable {i : Input} {v w : WorkerId} {y : List ν} {part : Part}
  {x : Option (List ν) × Option (List ν)}

theorem LiesBy.sameSite {r : WorkerId → Set (List ν)} (h : LiesBy pm i r) {wsIn : List WorkerId}
    (hlabel : i.label = .hashPartitioned keysIn wsIn) {x : List ν} (hx : x ∈ r v) (hy : y ∈ r w)
    (hkey : keyOf i.columns keysIn x = keyOf i.columns keysIn y) : v = w := by
  rw [h.hashed _ _ hlabel v x hx, h.hashed _ _ hlabel w y hy, hkey]

theorem LiesBy.empty {s : WorkerId → Set (List ν)} (h : LiesBy pm i s)
    (hnone : i.label.workers = []) (w : WorkerId) : s w = ∅ :=
  Set.eq_empty_of_forall_notMem fun x hx => by simpa [hnone] using h.site w x hx

theorem union_sameSite {l r : Input} {rl rr : WorkerId → Set (List ν)} (hl : LiesBy pm l rl)
    (hr : LiesBy pm r rr) (hlabel : l.label = .hashPartitioned keys ws)
    (kept : UnionKept keys ws l r) {z : List ν} (hy : y ∈ rl v ∪ rr v) (hz : z ∈ rl w ∪ rr w)
    (hkey : keyOf l.columns keys y = keyOf l.columns keys z) : v = w := by
  -- every row lies by the key that the left columns give it
  have located : ∀ u, ∀ x ∈ rl u ∪ rr u, u = pm.worker ws.toFinset (keyOf l.columns keys x) := by
    rintro u x (hx | hx)
    · exact hl.hashed _ _ hlabel u x hx
    · rcases kept with hnone | kept
      · rw [hr.empty hnone u] at hx
        exact hx.elim
      · split at kept
        · rename_i rightKeys rightWorkers hright
          have same : keyOf r.columns rightKeys x = keyOf l.columns keys x := by
            have := congrArg (List.map fun p : Option ℕ => p.bind (x[·]?)) kept.2
            rw [map_map, map_map] at this
            exact this.symm
          rw [← kept.1, ← same]
          exact hr.hashed _ _ hright u x hx
        · exact kept.elim
  rw [located v y hy, located w z hz, hkey]

variable {l r : Input} {rl rr : WorkerId → Set (List ν)} {type : JoinType}

variable {L R : Set (List ν)} (h : x ∈ partRows L R part)
include h

theorem mem_partRows : (∀ a ∈ x.1, a ∈ L) ∧ (∀ b ∈ x.2, b ∈ R) := by
  cases part with
  | pairs =>
    obtain ⟨a, ha, b, hb, rfl⟩ := h
    simp [ha, hb]
  | leftMatched | rightMatched =>
    obtain ⟨a, ha, -, rfl⟩ := h
    simp [ha]
  | leftUnmatched | rightUnmatched =>
    obtain ⟨a, ha, rfl⟩ := h
    simp [ha]

theorem partRows_left (hmatched : part ≠ .rightMatched)
    (hunmatched : part = .rightUnmatched → R = ∅) : ∃ a ∈ L, x.1 = some a := by
  cases part with
  | pairs =>
    obtain ⟨a, ha, b, hb, rfl⟩ := h
    exact ⟨a, ha, rfl⟩
  | leftMatched =>
    obtain ⟨a, ha, -, rfl⟩ := h
    exact ⟨a, ha, rfl⟩
  | leftUnmatched =>
    obtain ⟨a, ha, rfl⟩ := h
    exact ⟨a, ha, rfl⟩
  | rightMatched => exact absurd rfl hmatched
  | rightUnmatched =>
    obtain ⟨b, hb, -⟩ := h
    rw [hunmatched rfl] at hb
    exact hb.elim

theorem partRows_right (hmatched : part ≠ .leftMatched)
    (hunmatched : part = .leftUnmatched → L = ∅) :
    ∃ b ∈ R, x.2 = some b := by
  cases part with
  | pairs =>
    obtain ⟨a, ha, b, hb, rfl⟩ := h
    exact ⟨b, hb, rfl⟩
  | rightMatched =>
    obtain ⟨b, hb, -, rfl⟩ := h
    exact ⟨b, hb, rfl⟩
  | rightUnmatched =>
    obtain ⟨b, hb, rfl⟩ := h
    exact ⟨b, hb, rfl⟩
  | leftMatched => exact absurd rfl hmatched
  | leftUnmatched =>
    obtain ⟨a, ha, -⟩ := h
    rw [hunmatched rfl] at ha
    exact ha.elim

attribute [local simp] JoinType.parts partSites LeftKept

omit h

theorem LeftKept.left (hr : LiesBy pm r rr) (kept : LeftKept keys r type)
    (htype : type ≠ .rightSemi ∧ type ≠ .rightAnti) (hpart : part ∈ type.parts)
    (hx : x ∈ partRows (rl v) (rr v) part) : ∃ a ∈ rl v, x.1 = some a := by
  refine partRows_left hx ?_ fun hpart' => hr.empty ?_ v
  · rintro rfl
    cases type <;> simp_all
  · subst hpart'
    cases type <;> simp_all

theorem left_sameSite (hl : LiesBy pm l rl) (hlabel : l.label = .hashPartitioned keys ws)
    (htype : type ≠ .rightSemi ∧ type ≠ .rightAnti) {a a' : List ν} {b b' : Option (List ν)}
    (ha : a ∈ rl v) (ha' : a' ∈ rl w) (hkey : keyOf (joinColumns type l.columns r.columns) keys
        (joinRow null type l.columns r.columns (some a, b)) =
      keyOf (joinColumns type l.columns r.columns) keys
        (joinRow null type l.columns r.columns (some a', b'))) : v = w := by
  refine hl.sameSite hlabel ha ha' ?_
  cases type with
  | leftSemi | leftAnti => exact hkey
  | rightSemi | rightAnti => simp at htype
  | inner | cross | left | right | full =>
    exact keyOf_left (hl.shape v a ha) (hl.shape w a' ha') hkey

theorem right_sameSite (hl : LiesBy pm l rl) (hr : LiesBy pm r rr)
    (hlabel : r.label = .hashPartitioned keys ws)
    (carried : Carried keys (position r.columns) keys (rightPosition l.columns r.columns))
    (htype : type = .inner ∨ type = .cross ∨ type = .left ∨ type = .right ∨ type = .full)
    {a a' : Option (List ν)} {b b' : List ν} (hb : b ∈ rr v) (hb' : b' ∈ rr w)
    (ha : ∀ c ∈ a, c ∈ rl v) (ha' : ∀ c ∈ a', c ∈ rl w)
    (hkey : keyOf (joinColumns type l.columns r.columns) keys
        (joinRow null type l.columns r.columns (a, some b)) =
      keyOf (joinColumns type l.columns r.columns) keys
        (joinRow null type l.columns r.columns (a', some b'))) : v = w := by
  have filled : ∀ u (c : Option (List ν)), (∀ x ∈ c, x ∈ rl u) →
      (c.getD (l.columns.map fun _ => null)).length = l.columns.length := by
    intro u c hc
    cases c with
    | none => simp
    | some x => exact hl.shape u x (hc x rfl)
  refine hr.sameSite hlabel hb hb' (carried.key_eq ?_)
  have lengths := filled v a ha
  have lengths' := filled w a' ha'
  rcases htype with rfl | rfl | rfl | rfl | rfl <;> exact eq_right_of_keyOf lengths lengths' hkey

theorem RightKept.right (hl : LiesBy pm l rl) (kept : RightKept keys l r type)
    (hpart : part ∈ type.parts) (hx : x ∈ partRows (rl v) (rr v) part) :
    ∃ b ∈ rr v, x.2 = some b := by
  refine partRows_right hx ?_ fun hpart' => hl.empty ?_ v
  · rintro rfl
    cases type <;> simp_all [RightKept]
  · subst hpart'
    cases type <;> simp_all [RightKept]

theorem LeftKept.semi (hr : LiesBy pm r rr) (kept : LeftKept keys r type)
    (htype : type = .rightSemi ∨ type = .rightAnti) {b b' : List ν} (hb : b ∈ rr v)
    (hb' : b' ∈ rr w) (hkey : keyOf r.columns keys b = keyOf r.columns keys b') : v = w := by
  cases hlabel : r.label with
  | hashPartitioned rightKeys rightWorkers =>
    have carried : Carried rightKeys (position r.columns) keys (position r.columns) := by
      rcases htype with rfl | rfl <;> simpa [hlabel] using kept
    exact hr.sameSite hlabel hb hb' (carried.key_eq (keyOf_eq_iff.mp hkey))
  | _ => rcases htype with rfl | rfl <;> simp [hlabel] at kept

theorem join_sameSite (hl : LiesBy pm l rl) (hr : LiesBy pm r rr)
    (hlabel : joinDistribution l.label r.label = .hashPartitioned keys ws)
    (kept : if l.label.isReplicated then RightKept keys l r type else LeftKept keys r type)
    {part' : Part} (hpart : part ∈ type.parts) (hpart' : part' ∈ type.parts)
    {x' : Option (List ν) × Option (List ν)} (hx : x ∈ partRows (rl v) (rr v) part)
    (hx' : x' ∈ partRows (rl w) (rr w) part')
    (hkey : keyOf (joinColumns type l.columns r.columns) keys
        (joinRow null type l.columns r.columns x) =
      keyOf (joinColumns type l.columns r.columns) keys
        (joinRow null type l.columns r.columns x')) : v = w := by
  rw [joinDistribution_eq] at hlabel
  obtain ⟨xl, xr⟩ := x
  obtain ⟨xl', xr'⟩ := x'
  split at kept
  · rename_i hrep
    rw [if_pos hrep] at hlabel
    obtain ⟨b, hb, rfl⟩ := kept.right hl hpart hx
    obtain ⟨b', hb', rfl⟩ := kept.right hl hpart' hx'
    have lefts := (mem_partRows hx).1
    have lefts' := (mem_partRows hx').1
    cases type with
    | leftSemi | leftAnti => exact kept.elim
    | rightSemi | rightAnti => exact hr.sameSite hlabel hb hb' hkey
    | inner | cross | right =>
      exact right_sameSite hl hr hlabel kept (by simp) hb hb' lefts lefts' hkey
    | left | full => exact right_sameSite hl hr hlabel kept.2 (by simp) hb hb' lefts lefts' hkey
  · rename_i hrep
    rw [if_neg hrep] at hlabel
    by_cases htype : type = .rightSemi ∨ type = .rightAnti
    · have right : ∀ part ∈ type.parts, part ≠ .leftMatched ∧ part ≠ .leftUnmatched := by
        rcases htype with rfl | rfl <;> decide
      obtain ⟨b, hb, rfl⟩ := partRows_right hx (right _ hpart).1 fun h =>
        absurd h (right _ hpart).2
      obtain ⟨b', hb', rfl⟩ := partRows_right hx' (right _ hpart').1 fun h =>
        absurd h (right _ hpart').2
      refine kept.semi hr htype hb hb' ?_
      rcases htype with rfl | rfl <;> exact hkey
    · have htype : type ≠ .rightSemi ∧ type ≠ .rightAnti := not_or.mp htype
      obtain ⟨a, ha, rfl⟩ := kept.left hr htype hpart hx
      obtain ⟨a', ha', rfl⟩ := kept.left hr htype hpart' hx'
      exact left_sameSite hl hlabel htype ha ha' hkey

variable (text) in
def outColumns : LogicalPlan → List Input → List ColumnRef
  | .join _ _ op _ _, [l, r] => joinColumns (joinKind op) l.columns r.columns
  | .setOp .., [l, _] => l.columns
  | plan, [i] => (sources text i.columns plan).map (·.1)
  | _, _ => []

def LabelRule (keys : List ColumnRef) (ws : List WorkerId) : LogicalPlan → List Input → Prop
  | .join .., [l, r] => joinDistribution l.label r.label = .hashPartitioned keys ws
  | .setOp .., [l, _] => l.label = .hashPartitioned keys ws
  | _, _ => True

theorem partRows_site (hl : LiesBy pm l rl) (hr : LiesBy pm r rr)
    (hx : x ∈ partRows (rl w) (rr w) part) :
    w ∈ partSites l.label.workers r.label.workers part := by
  cases part with
  | pairs =>
    obtain ⟨a, ha, b, hb, -⟩ := hx
    simp [hl.site w a ha, hr.site w b hb]
  | leftMatched =>
    obtain ⟨a, ha, ⟨b, hb⟩, -⟩ := hx
    simp [hl.site w a ha, hr.site w b hb]
  | rightMatched =>
    obtain ⟨b, hb, ⟨a, ha⟩, -⟩ := hx
    simp [hl.site w a ha, hr.site w b hb]
  | leftUnmatched =>
    obtain ⟨a, ha, -⟩ := hx
    exact hl.site w a ha
  | rightUnmatched =>
    obtain ⟨b, hb, -⟩ := hx
    exact hr.site w b hb

variable {plan : LogicalPlan} {ins : List Input} {rs : List (WorkerId → Set (List ν))}

/-- A row comes from a worker that the inputs allow, and, if the keys are kept, from the one that
its keys tell. -/
theorem colocated_of_keeps (hrs : List.Forall₂ (LiesBy pm) ins rs)
    (hrule : LabelRule keys ws plan ins) (keeps : KeepsLabel text keys ws plan ins) :
    Colocated (outColumns text plan ins) keys ws
      (fun w => outputs null text plan ins (rs.map (· w))) := by
  intro v w y hy z hz hkey
  suffices h : (v ∈ sites plan ins ∧ w ∈ sites plan ins) ∧
      (KeysKept text keys ws plan ins → v = w) by
    obtain ⟨⟨hv, hw⟩, same⟩ := h
    refine ⟨?_, keeps.1 v hv⟩
    rcases keeps.2 with one | kept
    · exact one v hv w hw
    · exact same kept
  rcases hrs with _ | @⟨l, rl, _, _, hl, _ | @⟨r, rr, _, _, hr, _ | _⟩⟩
  · cases plan <;> exact hy.elim
  · have unary : ∀ src : Sources, (∃ x ∈ rl v, Copies src x y) → (∃ x ∈ rl w, Copies src x z) →
        keyOf (src.map (·.1)) keys y = keyOf (src.map (·.1)) keys z →
          (v ∈ l.label.workers ∧ w ∈ l.label.workers) ∧
            ((match l.label with
              | .hashPartitioned keysIn _ =>
                Carried keysIn (position l.columns) keys (copiedFrom src)
              | _ => False) → v = w) := by
      rintro src ⟨x, hx, hxy⟩ ⟨x', hx', hxz⟩ hkey
      refine ⟨⟨hl.site v x hx, hl.site w x' hx'⟩, fun kept => ?_⟩
      split at kept
      · rename_i hlabel
        exact hl.sameSite hlabel hx hx' (kept.key_eq (hxy.eq_of_key hxz hkey))
      · exact kept.elim
    cases plan <;> exact unary _ hy hz hkey
  · cases plan with
    | join left right op leftKeys rightKeys =>
      obtain ⟨part, hpart, x, hx, rfl⟩ := hy
      obtain ⟨part', hpart', x', hx', rfl⟩ := hz
      refine ⟨⟨mem_flatMap.mpr ⟨part, hpart, partRows_site hl hr hx⟩,
        mem_flatMap.mpr ⟨part', hpart', partRows_site hl hr hx'⟩⟩, fun kept => ?_⟩
      exact join_sameSite hl hr hrule kept hpart hpart' hx hx' hkey
    | setOp left right op quantifier =>
      have site : ∀ u, ∀ x ∈ rl u ∪ rr u, u ∈ l.label.workers ++ r.label.workers :=
        fun u x hx => mem_append.mpr (hx.imp (hl.site u x) (hr.site u x))
      exact ⟨⟨site v y hy, site w z hz⟩, fun kept => union_sameSite hl hr hrule kept hy hz hkey⟩
    | _ => exact hy.elim
  · cases plan <;> exact hy.elim

end Nodes

section Plans

variable (text : SqlText) (policy : PlannerPolicy) (metadata : Metadata)

/-- The label of what a node itself puts out, before any exchange. -/
def outputLabel (a : AnnotatedPlan) : Distribution := a.preExchangeDistribution.getD a.distribution

def nodeInputs (a : AnnotatedPlan) : List Input :=
  match a.plan with
  | .scan t _ _ => [⟨storedColumns schema t, (metadata.getTableScanStats t).toDistribution⟩]
  | _ => a.children.map fun c => ⟨columns schema text c.plan, c.distribution⟩

/-- Whenever the inputs lie as their labels say, the output does. -/
def LabelSound (a : AnnotatedPlan) : Prop :=
  ∀ keys ws, outputLabel a = .hashPartitioned keys ws →
    Names keys (columns schema text a.plan) ∧
    ∀ (ν : Type) (null : ν) (pm : PartitionMap (List (Option ν)) WorkerId)
      (rs : List (WorkerId → Set (List ν))),
      List.Forall₂ (LiesBy pm) (nodeInputs schema text metadata a) rs →
        Colocated (columns schema text a.plan) keys ws fun w =>
          outputs null text a.plan (nodeInputs schema text metadata a) (rs.map (· w))

/-- The rows that a hash exchange delivers to the workers `S` of the reading stage. -/
def hashed {ν : Type} (pm : PartitionMap (List (Option ν)) WorkerId) (S : Finset WorkerId)
    (columns keys : List ColumnRef) (r : WorkerId → Set (List ν)) : WorkerId → Set (List ν) :=
  fun w => {x | (∃ v, x ∈ r v) ∧ w = pm.worker S (keyOf columns keys x)}

def ExchangeSound (S : Finset WorkerId) (a : AnnotatedPlan) : Prop :=
  ∀ refs n, a.exchangeBefore = some (.hashPartition refs n) →
    ∀ keys ws, a.distribution = .hashPartitioned keys ws →
      Names keys (columns schema text a.plan) ∧
      ∀ (ν : Type) (pm : PartitionMap (List (Option ν)) WorkerId) (r : WorkerId → Set (List ν)),
        LiesBy pm ⟨columns schema text a.plan, outputLabel a⟩ r →
          Colocated (columns schema text a.plan) keys ws
            (hashed pm S (columns schema text a.plan) refs r)

def NodeKept (a : AnnotatedPlan) : Prop :=
  ∀ keys ws, outputLabel a = .hashPartitioned keys ws →
    Names keys (columns schema text a.plan) ∧
      KeepsLabel text keys ws a.plan (nodeInputs schema text metadata a)

/-- The label of an exchange names the workers that its rows go to. -/
def ExchangeKept (S : Finset WorkerId) (a : AnnotatedPlan) : Prop :=
  ∀ refs n, a.exchangeBefore = some (.hashPartition refs n) →
    Names refs (columns schema text a.plan) ∧
      ((outputLabel a).workers = [] ∨ ∀ w ∈ S, w ∈ (outputLabel a).workers)

/-- A node occurs in a plan, in the stage with the workers `S`. -/
inductive Occurs (root : AnnotatedPlan) : Finset WorkerId → AnnotatedPlan → Prop
  | root : Occurs root (stageSet policy.coordinator root) root
  | child {S : Finset WorkerId} {a c : AnnotatedPlan} : Occurs root S a → c ∈ a.children →
    Occurs root (if c.exchangeBefore.isNone then S else stageSet policy.coordinator c) c

/-- The label of a node follows from those of its children, and the one above an exchange from
the exchange. -/
structure Labelled (a : AnnotatedPlan) : Prop where
  output : outputLabel a =
    (computeOutputDistribution policy metadata a.plan a.children).distribution
  exchanged : ∀ e, a.exchangeBefore = some e →
    a.distribution = computePostExchangeDistribution e policy (outputLabel a).workers

variable {schema text policy metadata} {a b : AnnotatedPlan} {p : LogicalPlan}
  {S : Finset WorkerId}

def Planned (policy : PlannerPolicy) (metadata : Metadata) (b : AnnotatedPlan) : Prop :=
  ∃ q c e, annotateRecursive policy metadata [] q = .ok c ∧ b = applyExchange policy c e

theorem Planned.children (h : Planned policy metadata b) :
    b.plan.children = b.children.map (·.plan) ∧ ∀ c ∈ b.children, Planned policy metadata c := by
  obtain ⟨q, a, e, ha, rfl⟩ := h
  obtain ⟨cs, hcs, hnode⟩ := annotateRecursive_inv ha
  obtain ⟨exchanges, hex, rfl⟩ := annotateNode_inv hnode
  have plans : q.children = cs.map (·.plan) := by
    rw [← forall₂_eq_eq_eq, forall₂_map_right_iff]
    exact hcs.imp fun _ _ h => (annotateRecursive_plan h).1.symm
  rw [applyExchange_plan, applyExchange_children]
  refine ⟨?_, fun d hd => ?_⟩
  · exact plans.trans (applyExchanges_plans (nodeExchanges_length hex)).symm
  · obtain ⟨c, hc, e', rfl⟩ := mem_applyExchanges hd
    obtain ⟨q', -, hq'⟩ := exists_left_of_forall₂ hcs hc
    exact ⟨q', c, e', hq', rfl⟩

theorem Planned.labelled (h : Planned policy metadata b) : Labelled policy metadata b := by
  obtain ⟨q, a, e, ha, rfl⟩ := h
  obtain ⟨cs, -, hnode⟩ := annotateRecursive_inv ha
  obtain ⟨exchanges, -, rfl⟩ := annotateNode_inv hnode
  cases e with
  | none => exact ⟨rfl, nofun⟩
  | some e => exact ⟨rfl, fun e' he => by cases he; rfl⟩

theorem Occurs.planned (h : Occurs policy a S b)
    (ha : annotateLogicalPlan p policy metadata = .ok a) : Planned policy metadata b := by
  induction h with
  | root => exact ⟨p, a, none, ha, rfl⟩
  | child _ hc ih => exact ih.children.2 _ hc

variable (h : Planned policy metadata b)
include h

theorem Planned.columns :
    columns schema text b.plan = outColumns text b.plan (nodeInputs schema text metadata b) := by
  have plans := h.children.1
  obtain ⟨plan, ann, ex, pre, cs⟩ := b
  change plan.children = cs.map (·.plan) at plans
  cases plan with
  | scan => rfl
  | exchangeRead =>
    rw [map_eq_nil_iff.mp plans.symm]
    rfl
  | join | setOp =>
    obtain ⟨l, rest, rfl, rfl, hrest⟩ := map_eq_cons_iff.mp plans.symm
    obtain ⟨r, rfl, rfl⟩ := map_eq_singleton_iff.mp hrest
    rfl
  | _ =>
    obtain ⟨c, rfl, rfl⟩ := map_eq_singleton_iff.mp plans.symm
    rfl

theorem Planned.rule {keys : List ColumnRef} {ws : List WorkerId}
    (hlabel : outputLabel b = .hashPartitioned keys ws) :
    LabelRule keys ws b.plan (nodeInputs schema text metadata b) := by
  have plans := h.children.1
  rw [h.labelled.output] at hlabel
  obtain ⟨plan, ann, ex, pre, cs⟩ := b
  change plan.children = cs.map (·.plan) at plans
  cases plan with
  | join | setOp =>
    obtain ⟨l, rest, rfl, rfl, hrest⟩ := map_eq_cons_iff.mp plans.symm
    obtain ⟨r, rfl, rfl⟩ := map_eq_singleton_iff.mp hrest
    exact hlabel
  | _ => trivial

theorem labelSound_of_kept (kept : NodeKept schema text metadata b) :
    LabelSound schema text metadata b := by
  intro keys ws hlabel
  obtain ⟨names, keeps⟩ := kept keys ws hlabel
  refine ⟨names, fun ν null pm rs hrs => ?_⟩
  rw [h.columns]
  exact colocated_of_keeps hrs (h.rule hlabel) keeps

theorem exchangeSound_of_kept (kept : ExchangeKept schema text S b) (hS : S.Nonempty) :
    ExchangeSound schema text S b := by
  intro refs n hex keys ws hlabel
  obtain ⟨names, sites⟩ := kept refs n hex
  rw [h.labelled.exchanged _ hex, computePostExchangeDistribution] at hlabel
  obtain ⟨rfl, rfl⟩ := Distribution.hashPartitioned.inj hlabel
  refine ⟨names, fun ν pm r hr v w y hy z hz hkey => ⟨?_, ?_⟩⟩
  · rw [hy.2, hz.2, hkey]
  · obtain ⟨⟨u, hu⟩, rfl⟩ := hy
    have held := hr.site u y hu
    have some : (outputLabel b).workers.isEmpty = false := by
      rw [isEmpty_eq_false_iff]
      exact ne_nil_of_mem held
    rw [some, if_neg Bool.false_ne_true]
    exact sites.resolve_left (ne_nil_of_mem held) _ (pm.worker_mem S _ hS)

omit h

theorem Occurs.nonempty (h : Occurs policy a S b) : S.Nonempty := by
  induction h with
  | root => exact stageSet_nonempty _ _
  | child _ _ ih =>
    split
    · exact ih
    · exact stageSet_nonempty _ _

/-- The labels of a planned query are sound where they are kept. -/
theorem labels_sound (ha : annotateLogicalPlan p policy metadata = .ok a)
    (hb : Occurs policy a S b) :
    (NodeKept schema text metadata b → LabelSound schema text metadata b) ∧
      ∀ c ∈ b.children, ExchangeKept schema text S c → ExchangeSound schema text S c :=
  ⟨labelSound_of_kept (hb.planned ha), fun c hc kept =>
    exchangeSound_of_kept ((hb.planned ha).children.2 c hc) kept hb.nonempty⟩

end Plans

section Cases

def columnK : Expr := .identifier ⟨"k", none⟩

def countRows : Expr := .function ⟨[.identifier ⟨"count", none⟩], .list [], none, [], none⟩

variable (items : List SelectItem)

/-- `SELECT items FROM t GROUP BY k`. -/
def groupedByK : LogicalPlan :=
  .aggregate (.scan "t" none (.other "t")) (.expressions [columnK] []) items none
    [.unqualified "k"]

def columnsK : String → List String := fun _ => ["k"]

def sentByK : AnnotatedPlan :=
  .mk (.scan "t" none (.other "t"))
    ⟨.hashPartitioned [.unqualified "k"] ["w1", "w2"], 10, 100, .exact⟩
    (some (.hashPartition [.unqualified "k"] 16)) (some (.epochPartitioned ["w1", "w2"])) []

def annotatedGroup : AnnotatedPlan :=
  .mk (groupedByK items)
    ⟨.hashPartitioned [.unqualified "k"] ["w1", "w2"],
      (aggregateStats [.unqualified "k"] sentByK.annotation).1,
      (aggregateStats [.unqualified "k"] sentByK.annotation).2, .exact⟩ none none [sentByK]

theorem annotate_grouped :
    annotateLogicalPlan (groupedByK items) (.withCoordinator "w1") onTwoWorkers =
      .ok (annotatedGroup items) := rfl

/-- `SELECT k, count() FROM t GROUP BY k` keeps its label. -/
theorem labels_sound_grouped :
    outputLabel (annotatedGroup [.unnamedExpr columnK, .unnamedExpr countRows]) =
      .hashPartitioned [.unqualified "k"] ["w1", "w2"] ∧
    LabelSound columnsK identText onTwoWorkers
      (annotatedGroup [.unnamedExpr columnK, .unnamedExpr countRows]) := by
  refine ⟨rfl, (labels_sound (annotate_grouped _) .root).1 ?_⟩
  intro keys ws hlabel
  obtain ⟨rfl, rfl⟩ := Distribution.hashPartitioned.inj hlabel
  refine ⟨by unfold Names; decide, by decide, .inr ?_⟩
  show Carried _ _ _ _
  unfold Carried
  decide

noncomputable def twoWays : PartitionMap (List (Option ℕ)) WorkerId where
  worker A k :=
    if "w1" ∈ A ∧ k = [some 1] then "w1" else if "w2" ∈ A then "w2"
    else if h : A.Nonempty then h.choose else ""
  worker_mem A k h := by
    split
    · rename_i h1
      exact h1.1
    · split
      · assumption
      · exact h.choose_spec

/-- `SELECT count() AS k FROM t GROUP BY k` puts out a `k` that is not the one its rows lie by. -/
theorem label_unsound_renamed :
    outputLabel (annotatedGroup [.exprWithAlias countRows ⟨"k", none⟩]) =
      .hashPartitioned [.unqualified "k"] ["w1", "w2"] ∧
    ¬LabelSound columnsK identText onTwoWorkers
      (annotatedGroup [.exprWithAlias countRows ⟨"k", none⟩]) := by
  refine ⟨rfl, fun sound => ?_⟩
  -- one row with `k = 1` on the first worker and one with `k = 2` on the second
  let rows : WorkerId → Set (List ℕ) := fun w =>
    if w = "w1" then {[1]} else if w = "w2" then {[2]} else ∅
  have mem_rows : ∀ w, ∀ x ∈ rows w, w = "w1" ∧ x = [1] ∨ w = "w2" ∧ x = [2] := by
    intro w x hx
    simp only [rows] at hx
    split at hx
    · exact .inl ⟨‹_›, hx⟩
    · split at hx
      · exact .inr ⟨‹_›, hx⟩
      · exact hx.elim
  have lies : LiesBy twoWays
      ⟨columns columnsK identText sentByK.plan, sentByK.distribution⟩ rows := by
    refine ⟨fun w x hx => ?_, fun w x hx => ?_, fun keys ws hlabel w x hx => ?_, nofun⟩
    · rcases mem_rows w x hx with ⟨rfl, rfl⟩ | ⟨rfl, rfl⟩ <;> rfl
    · rcases mem_rows w x hx with ⟨rfl, rfl⟩ | ⟨rfl, rfl⟩ <;> decide
    · obtain ⟨rfl, rfl⟩ := Distribution.hashPartitioned.inj hlabel
      have keyed : ∀ n : ℕ, keyOf (columns columnsK identText sentByK.plan) [.unqualified "k"] [n] =
          [some n] := fun n => rfl
      rcases mem_rows w x hx with ⟨rfl, rfl⟩ | ⟨rfl, rfl⟩ <;> simp [keyed, twoWays]
  have colocated := (sound _ _ rfl).2 ℕ 0 twoWays [rows] (.cons lies .nil)
  have out : ∀ w, ∀ x ∈ rows w,
      [1] ∈ outputs 0 identText (groupedByK [.exprWithAlias countRows ⟨"k", none⟩])
      (nodeInputs columnsK identText onTwoWorkers
        (annotatedGroup [.exprWithAlias countRows ⟨"k", none⟩])) [rows w] := by
    intro w x hx
    refine ⟨x, hx, rfl, fun j s hs => ?_⟩
    cases j <;> cases hs
  have same := (colocated "w1" "w2" [1] (out "w1" [1] (by simp [rows])) [1]
    (out "w2" [2] (by simp [rows])) rfl).1
  exact absurd same (by decide)

end Cases

end Leibrix.LdpLabels
