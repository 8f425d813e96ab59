import Leibrix.ExchangeRuntime
import Leibrix.HashRows

/-!
# The columns that partition keys denote

A partition key is looked up among the field names of the producing stage's result, while
it is meant as a column of that stage's query. A field name has lost the table its column
comes from, and it may have been changed where two columns share a name.
-/

set_option autoImplicit false

namespace Leibrix.KeyColumns
open LdpTypes ArrowBatch ExchangeRuntime List Option

/-- A column of the producing stage's query, with the table or alias it comes from. -/
structure OutputColumn where
  relation : Option String
  name : String

section Keys

variable (lower : String → String) (columns : List OutputColumn) (schema : Schema)

def Denotes (key : ColumnRef) (i : Nat) : Prop :=
  ∃ column ∈ columns[i]?, lower column.name = lower key.column ∧
    ∀ table ∈ key.table, ∃ relation ∈ column.relation, lower relation = lower table

/-- The key denotes the column at `i` and no other. -/
def Identifies (key : ColumnRef) (i : Nat) : Prop := ∀ j, Denotes lower columns key j ↔ j = i

/-- The indices are those of the denoted columns, and there are none if a key denotes no
column or several. -/
def Exact (keys : List ColumnRef) : Prop :=
  ∀ indices, resolveColumnIndices lower keys schema = .ok indices ↔
    List.Forall₂ (Identifies lower columns) keys indices

def Unnamed (p : String → Bool) : Prop := ∀ field ∈ schema, p field.name = false

def FirstNamed (p : String → Bool) (i : Nat) : Prop :=
  (∃ field ∈ schema[i]?, p field.name = true) ∧ ∀ j < i, ∀ field ∈ schema[j]?, p field.name = false

/-- No field has the qualified name of the key. -/
def Undotted (key : ColumnRef) : Prop := ∀ name ∈ qualifiedName key, Unnamed schema (· == name)

/-- The field at `i` is the first with the qualified name of the key, or there is none and it is the
first with its column name, or there is none of these and it is the first with that name in any
case. -/
def FirstFor (key : ColumnRef) (i : Nat) : Prop :=
  (∃ name ∈ qualifiedName key, FirstNamed schema (· == name) i) ∨
  Undotted schema key ∧
    (FirstNamed schema (· == key.column) i ∨
      Unnamed schema (· == key.column) ∧ FirstNamed schema (lower · == lower key.column) i)

/-- No field has a name of the key. -/
def NoneFor (key : ColumnRef) : Prop :=
  Undotted schema key ∧ Unnamed schema (lower · == lower key.column)

end Keys

variable {lower : String → String} {columns : List OutputColumn} {schema : Schema}
  {key : ColumnRef} {keys : List ColumnRef} {i : Nat} {p : String → Bool}

theorem fieldIndex_eq_some : fieldIndex schema p = some i ↔ FirstNamed schema p i := by
  rw [fieldIndex, findIdx?_eq_some_iff_getElem]
  constructor
  · rintro ⟨hi, hp, before⟩
    refine ⟨⟨schema[i], by simp [hi], hp⟩, fun j hj field hfield => ?_⟩
    obtain ⟨hlt, rfl⟩ := List.getElem?_eq_some_iff.mp hfield
    simpa using before j hj
  · rintro ⟨⟨field, hfield, hp⟩, before⟩
    obtain ⟨hi, rfl⟩ := List.getElem?_eq_some_iff.mp hfield
    refine ⟨hi, hp, fun j hj => ?_⟩
    have hlt : j < schema.length := Nat.lt_trans hj hi
    simpa using before j hj schema[j] (by simp [hlt])

theorem fieldIndex_eq_none : fieldIndex schema p = none ↔ Unnamed schema p := by
  rw [fieldIndex, findIdx?_eq_none_iff]
  rfl

theorem qualified_eq_none :
    ((qualifiedName key).bind fun name => fieldIndex schema (· == name)) = none ↔
      Undotted schema key := by
  rw [bind_eq_none_iff]
  exact forall₂_congr fun name _ => fieldIndex_eq_none

/-- A field found by its name in any case is missing only if it is missing by its exact name. -/
theorem Unnamed.exact (h : Unnamed schema (lower · == lower key.column)) :
    Unnamed schema (· == key.column) := by
  intro field hfield
  have other := h field hfield
  simp only [beq_eq_false_iff_ne, ne_eq] at other ⊢
  intro same
  exact other (congrArg lower same)

theorem findColumnIndex_ok_iff :
    findColumnIndex lower schema key = .ok i ↔ FirstFor lower schema key i := by
  unfold FirstFor findColumnIndex
  cases hqualified : (qualifiedName key).bind fun name => fieldIndex schema (· == name) with
  | some j =>
    obtain ⟨name, hname, hfound⟩ := bind_eq_some_iff.mp hqualified
    have named : ¬ Undotted schema key := by
      rw [← qualified_eq_none, hqualified]
      simp
    have only : (∃ name ∈ qualifiedName key, FirstNamed schema (· == name) i) ↔
        FirstNamed schema (· == name) i := by
      simp [hname]
    simp only [orElse_some, named, false_and, or_false, only]
    rw [← fieldIndex_eq_some, hfound, Except.ok.injEq, Option.some.injEq]
  | none =>
    have unnamed := qualified_eq_none.mp hqualified
    have other : ¬ ∃ name ∈ qualifiedName key, FirstNamed schema (· == name) i := by
      rintro ⟨name, hname, first⟩
      rw [← fieldIndex_eq_some, fieldIndex_eq_none.mpr (unnamed name hname)] at first
      cases first
    simp only [orElse_none, other, false_or, unnamed, true_and]
    rw [← fieldIndex_eq_some, ← fieldIndex_eq_none, ← fieldIndex_eq_some]
    cases hname : fieldIndex schema (· == key.column) with
    | some j => simp
    | none => cases hcase : fieldIndex schema fun name => lower name == lower key.column <;> simp

theorem findColumnIndex_error_iff :
    (∀ i, findColumnIndex lower schema key ≠ .ok i) ↔ NoneFor lower schema key := by
  rw [NoneFor, ← qualified_eq_none, ← fieldIndex_eq_none, findColumnIndex]
  cases (qualifiedName key).bind fun name => fieldIndex schema (· == name) with
  | some j => simp
  | none =>
    cases hcase : fieldIndex schema fun name => lower name == lower key.column with
    | none =>
      rw [fieldIndex_eq_none.mpr (fieldIndex_eq_none.mp hcase).exact]
      simp
    | some j => cases fieldIndex schema (· == key.column) <;> simp

section Lists

variable {α β : Type} {R S : α → β → Prop} {l : List α} {bs : List β}

theorem exists_forall₂ (h : ∀ a ∈ l, ∃ b, R a b) : ∃ bs, List.Forall₂ R l bs := by
  induction l with
  | nil => exact ⟨[], .nil⟩
  | cons a l ih =>
    obtain ⟨b, hb⟩ := h a mem_cons_self
    obtain ⟨bs, hbs⟩ := ih fun a ha => h a (mem_cons_of_mem _ ha)
    exact ⟨b::bs, .cons hb hbs⟩

theorem forall₂_both (h : List.Forall₂ R l bs) (h' : List.Forall₂ S l bs) (a : α) (ha : a ∈ l) :
    ∃ b, R a b ∧ S a b := by
  induction h with
  | nil => cases ha
  | @cons a' b l bs hab _ ih =>
    obtain ⟨hS, hrest⟩ := forall₂_cons.mp h'
    rcases mem_cons.mp ha with rfl | ha
    · exact ⟨b, hab, hS⟩
    · exact ih hrest ha

theorem forall₂_imp_of_mem (h : List.Forall₂ R l bs) (himp : ∀ a ∈ l, ∀ b, R a b → S a b) :
    List.Forall₂ S l bs := by
  induction h with
  | nil => exact .nil
  | cons hab _ ih =>
    exact .cons (himp _ mem_cons_self _ hab) (ih fun a ha => himp a (mem_cons_of_mem _ ha))

/-- Two partial functions on the members of a list give the same results for the list exactly if
both fail on a member, or they give the same result on each. -/
theorem forall₂_same_iff
    (hR : ∀ a b b', R a b → R a b' → b = b') (hS : ∀ a b b', S a b → S a b' → b = b') :
    (∀ bs, List.Forall₂ R l bs ↔ List.Forall₂ S l bs) ↔
      ((∃ a ∈ l, ∀ b, ¬ R a b) ∧ ∃ a ∈ l, ∀ b, ¬ S a b) ∨ ∀ a ∈ l, ∃ b, R a b ∧ S a b := by
  constructor
  · intro same
    by_cases all : ∀ a ∈ l, ∃ b, R a b
    · obtain ⟨bs, hbs⟩ := exists_forall₂ all
      right
      intro a ha
      obtain ⟨b, hR, hS⟩ := forall₂_both hbs ((same bs).mp hbs) a ha
      exact ⟨b, hR, hS⟩
    · left
      refine ⟨by simpa using all, ?_⟩
      by_contra every
      push Not at every
      obtain ⟨bs, hbs⟩ := exists_forall₂ every
      refine all fun a ha => ?_
      obtain ⟨b, hR, -⟩ := forall₂_both ((same bs).mpr hbs) hbs a ha
      exact ⟨b, hR⟩
  · rintro (⟨⟨a, ha, noR⟩, a', ha', noS⟩ | both) bs
    · constructor
      · intro h
        obtain ⟨b, hb, -⟩ := forall₂_both h h a ha
        exact absurd hb (noR b)
      · intro h
        obtain ⟨b, hb, -⟩ := forall₂_both h h a' ha'
        exact absurd hb (noS b)
    · refine ⟨fun h => forall₂_imp_of_mem h fun a ha b hb => ?_,
        fun h => forall₂_imp_of_mem h fun a ha b hb => ?_⟩
      · obtain ⟨b', hR', hS'⟩ := both a ha
        rw [hR a b b' hb hR']
        exact hS'
      · obtain ⟨b', hR', hS'⟩ := both a ha
        rw [hS a b b' hb hS']
        exact hR'

end Lists

/-- Keys resolve to the columns they denote exactly if the first field for each key stands where
the only column is that the key denotes, or if for some key there is no field and some key does not
denote one column. -/
theorem keys_resolved_iff (lower : String → String) (columns : List OutputColumn) (schema : Schema)
    (keys : List ColumnRef) :
    Exact lower columns schema keys ↔
      ((∃ key ∈ keys, NoneFor lower schema key) ∧
        ∃ key ∈ keys, ∀ i, ¬ Identifies lower columns key i) ∨
      ∀ key ∈ keys, ∃ i, FirstFor lower schema key i ∧ Identifies lower columns key i := by
  have found : ∀ key i i', findColumnIndex lower schema key = .ok i →
      findColumnIndex lower schema key = .ok i' → i = i' := by
    intro key i i' h h'
    rw [h] at h'
    exact Except.ok.inj h'
  have identified : ∀ key i i', Identifies lower columns key i → Identifies lower columns key i' →
      i = i' := by
    intro key i i' h h'
    exact (h' i).mp ((h i).mpr rfl)
  simp only [Exact, resolveColumnIndices, HashRows.mapM_ok_iff]
  rw [forall₂_same_iff found identified]
  have failed : ∀ key, (∀ i, ¬ findColumnIndex lower schema key = .ok i) ↔
      NoneFor lower schema key := fun key => findColumnIndex_error_iff
  simp only [failed]
  simp only [findColumnIndex_ok_iff]

def joined : List OutputColumn := [⟨some "a", "id"⟩, ⟨some "b", "id"⟩]

/-- With the second field renamed, `b.id` is resolved to the column `a.id`; with both fields
called `id`, a key that denotes both columns is resolved to the first. -/
theorem shared_name_resolved :
    resolveColumnIndices id [⟨some "b", "id"⟩] [⟨"id", .int64⟩, ⟨"id_1", .int64⟩] = .ok [0] ∧
    Identifies id joined ⟨some "b", "id"⟩ 1 ∧
    resolveColumnIndices id [⟨none, "id"⟩] [⟨"id", .int64⟩, ⟨"id", .int64⟩] = .ok [0] ∧
    Denotes id joined ⟨none, "id"⟩ 0 ∧ Denotes id joined ⟨none, "id"⟩ 1 := by
  refine ⟨rfl, ?_, rfl, ⟨_, rfl, by simp⟩, ⟨_, rfl, by simp⟩⟩
  rintro (_ | _ | j) <;> simp [Denotes, joined]

end Leibrix.KeyColumns
