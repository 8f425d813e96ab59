import Mathlib.Data.List.Nodup
import Mathlib.Data.Set.Finite.Basic
import Mathlib.Logic.Relation
import Mathlib.Order.WellFounded

/-!
# Layers of a finite relation

A point's layer is the length of the longest path that ends in it. It exists unless a
cycle reaches the point. A worklist that counts the unfinished predecessors of each point
finds the layers: taking a point off the list lowers the counts of its targets by the
number of edges, and a target whose count comes down to zero is put on the list.
-/

set_option autoImplicit false

namespace Leibrix.Layering
open List

variable {α : Type}

section Paths
variable {r : α → α → Prop}

variable (r) in
/-- Some path of that many edges ends in the point. -/
inductive PathTo : Nat → α → Prop
  | nil (v : α) : PathTo 0 v
  | snoc {n : Nat} {u v : α} : PathTo n u → r u v → PathTo (n+1) v

variable {n : Nat} {v : α}

theorem pathTo_succ_iff : PathTo r (n+1) v ↔ ∃ u, r u v ∧ PathTo r n u := by
  constructor
  · intro h
    cases h with
    | snoc hu huv => exact ⟨_, huv, hu⟩
  · rintro ⟨u, huv, hu⟩
    exact .snoc hu huv

theorem PathTo.tail (h : PathTo r (n+1) v) : PathTo r n v := by
  induction n generalizing v with
  | zero => exact .nil v
  | succ n ih =>
    obtain ⟨u, huv, hu⟩ := pathTo_succ_iff.mp h
    exact .snoc (ih hu) huv

theorem PathTo.shorter {m : Nat} (h : PathTo r n v) (hmn : m ≤ n) : PathTo r m v := by
  induction hmn with
  | refl => exact h
  | step _ ih => exact ih h.tail

variable (r) in
def Longest (n : Nat) (v : α) : Prop := PathTo r n v ∧ ∀ m, PathTo r m v → m ≤ n

theorem longest_iff : Longest r n v ↔ PathTo r n v ∧ ¬ PathTo r (n+1) v := by
  constructor
  · rintro ⟨hn, hmax⟩
    exact ⟨hn, fun h => Nat.not_succ_le_self n (hmax _ h)⟩
  · rintro ⟨hn, hlonger⟩
    refine ⟨hn, fun m hm => ?_⟩
    by_contra hlt
    exact hlonger (hm.shorter (by omega))

variable (r) in
def Acyclic : Prop := ∀ v, ¬ Relation.TransGen r v v

variable (r) in
def CycleReaches (v : α) : Prop := ∃ u, Relation.TransGen r u u ∧ Relation.ReflTransGen r u v

theorem acyclic_iff : Acyclic r ↔ ∀ v, ¬ CycleReaches r v :=
  ⟨fun h _ ⟨u, hu, _⟩ => h u hu, fun h v hv => h v ⟨v, hv, .refl⟩⟩

theorem CycleReaches.pred (h : CycleReaches r v) : ∃ u, r u v ∧ CycleReaches r u := by
  obtain ⟨u, hcycle, hreach⟩ := h
  cases hreach with
  | refl =>
    obtain ⟨w, huw, hwu⟩ := Relation.TransGen.tail'_iff.mp hcycle
    exact ⟨w, hwu, _, hcycle, huw⟩
  | tail huw hwv => exact ⟨_, hwv, u, hcycle, huw⟩

theorem CycleReaches.pathTo (h : CycleReaches r v) (n : Nat) : PathTo r n v := by
  induction n generalizing v with
  | zero => exact .nil v
  | succ n ih =>
    obtain ⟨u, huv, hu⟩ := h.pred
    exact .snoc (ih hu) huv

theorem cycleReaches_of_stuck {s : List α} (h : ∀ v ∈ s, ∃ u ∈ s, r u v) (hv : v ∈ s) :
    CycleReaches r v := by
  by_contra hfree
  -- the ancestors of `v` in the set are finitely many and on no cycle, so one of them is minimal
  let A := { u : α // u ∈ s ∧ Relation.ReflTransGen r u v }
  let before : A → A → Prop := fun a b => Relation.TransGen r a.1 b.1
  have finite : Finite A := (s.finite_toSet.subset fun _ hu => hu.1).to_subtype
  have trans : IsTrans A before := ⟨fun _ _ _ hab hbc => Relation.TransGen.trans hab hbc⟩
  have irrefl : Std.Irrefl before := ⟨fun a haa => hfree ⟨a.1, haa, a.2.2⟩⟩
  obtain ⟨least, -, hleast⟩ :=
    (Finite.wellFounded_of_trans_of_irrefl before).has_min Set.univ ⟨⟨v, hv, .refl⟩, trivial⟩
  obtain ⟨u, hu, hedge⟩ := h least.1 least.2.1
  exact hleast ⟨u, hu, .head hedge least.2.2⟩ trivial (.single hedge)

end Paths

section Release
variable [DecidableEq α]

/-- One edge into `v` is done with. A point that was taken off the list before is not put on it
again. -/
def releaseOne (visited : α → Bool) (state : (α → Option Nat) × List α) (v : α) :
    (α → Option Nat) × List α :=
  match state.1 v with
  | some degree =>
    (Function.update state.1 v (some (degree-1)),
      if degree-1 = 0 && !visited v then state.2 ++ [v] else state.2)
  | none => state

def release (visited : α → Bool) (state : (α → Option Nat) × List α) (targets : List α) :
    (α → Option Nat) × List α :=
  targets.foldl (releaseOne visited) state

def counting (known : List α) (count : α → Nat) (v : α) : Option Nat :=
  if v ∈ known then some (count v) else none

theorem counting_update {known : List α} {count : α → Nat} {v : α} (hv : v ∈ known) (n : Nat) :
    Function.update (counting known count) v (some n) =
      counting known (Function.update count v n) := by
  funext w
  by_cases h : w = v
  · subst h
    simp [counting, hv]
  · simp [counting, h]

/-- Releasing all edges of a point lowers each count by the number of edges and lists the points
whose last edges these were, each once. -/
theorem release_spec {visited : α → Bool} {known : List α} {targets : List α} (base : α → Nat)
    (queue : List α) (hknown : ∀ v ∈ targets, v ∈ known)
    (hfresh : ∀ v ∈ targets, visited v = false) :
    ∃ ready, ready.Nodup ∧ (∀ v, v ∈ ready ↔ v ∈ targets ∧ base v = 0) ∧
      release visited (counting known fun v => base v + targets.count v, queue) targets =
        (counting known base, queue ++ ready) := by
  induction targets generalizing queue with
  | nil => exact ⟨[], nodup_nil, by simp, by simp [release]⟩
  | cons t targets ih =>
    have lowered : Function.update (counting known fun v => base v + (t::targets).count v) t
        (some (base t + targets.count t)) =
          counting known fun v => base v + targets.count v := by
      rw [counting_update (hknown t mem_cons_self)]
      congr 1
      funext v
      by_cases h : v = t
      · subst h
        simp
      · simp [h, count_cons_of_ne (Ne.symm h)]
    have first :
        releaseOne visited (counting known fun v => base v + (t::targets).count v, queue) t =
        (counting known fun v => base v + targets.count v,
          if base t + targets.count t = 0 then queue ++ [t] else queue) := by
      have hcount : (counting known fun v => base v + (t::targets).count v) t =
          some (base t + targets.count t + 1) := by
        simp [counting, hknown t mem_cons_self, Nat.add_assoc]
      simp [releaseOne, hcount, lowered, hfresh t mem_cons_self]
    have hknown' : ∀ v ∈ targets, v ∈ known := fun v hv => hknown v (mem_cons_of_mem t hv)
    have hfresh' : ∀ v ∈ targets, visited v = false :=
      fun v hv => hfresh v (mem_cons_of_mem t hv)
    by_cases hlast : base t + targets.count t = 0
    · -- the last edge into `t`
      obtain ⟨hbase, hcount⟩ := Nat.add_eq_zero_iff.mp hlast
      have hnot : t ∉ targets := count_eq_zero.mp hcount
      obtain ⟨ready, hnodup, hmem, heq⟩ := ih (queue ++ [t]) hknown' hfresh'
      refine ⟨t::ready, nodup_cons.mpr ⟨fun h => hnot ((hmem t).mp h).1, hnodup⟩, ?_, ?_⟩
      · intro v
        rw [mem_cons, mem_cons, hmem]
        constructor
        · rintro (rfl | ⟨hv, hb⟩)
          · exact ⟨.inl rfl, hbase⟩
          · exact ⟨.inr hv, hb⟩
        · rintro ⟨rfl | hv, hb⟩
          · exact .inl rfl
          · exact .inr ⟨hv, hb⟩
      · rw [release, foldl_cons, first, if_pos hlast]
        rw [append_assoc] at heq
        exact heq
    · obtain ⟨ready, hnodup, hmem, heq⟩ := ih queue hknown' hfresh'
      refine ⟨ready, hnodup, ?_, ?_⟩
      · intro v
        rw [hmem, mem_cons]
        constructor
        · rintro ⟨hv, hb⟩
          exact ⟨.inr hv, hb⟩
        · rintro ⟨rfl | hv, hb⟩
          · refine ⟨?_, hb⟩
            by_contra hnot
            exact hlast (by rw [hb, count_eq_zero.mpr hnot])
          · exact ⟨hv, hb⟩
      · rw [release, foldl_cons, first, if_neg hlast]
        exact heq

end Release

end Leibrix.Layering
