import Leibrix.SpreadBag

/-!
# Lists cut into buckets

Each item of a list has a bucket number. Taking the buckets in turn gives back the
items, and taking only the last item of each bucket gives them back exactly when no
two items share a bucket.
-/

set_option autoImplicit false

namespace Leibrix.Buckets
open SpreadBag Finset

variable {α : Type} (f : α → ℕ) {l : List α} {n : ℕ}

def bucket (l : List α) (p : ℕ) : List α := l.filter fun x => f x = p

def lastOf (l : List α) (p : ℕ) : List α := (bucket f l p).getLast?.toList

variable {f}

theorem coe_flatMap_range (g : ℕ → List α) :
    ((List.range n).flatMap g : Multiset α) = ∑ p ∈ Finset.range n, (g p : Multiset α) := by
  induction n with
  | zero => rfl
  | succ n ih =>
    rw [List.range_succ, List.flatMap_append, sum_range_succ, ← ih]
    simp

theorem flatMap_bucket (h : ∀ x ∈ l, f x < n) :
    ((List.range n).flatMap (bucket f l) : Multiset α) = l := by
  have whole := sum_filter_location (R := (l : Multiset α)) (S := range n) (f := f)
    (by simpa using h)
  rw [coe_flatMap_range]
  simpa [bucket] using whole

theorem length_lastOf_le (p : ℕ) : (lastOf f l p).length ≤ (bucket f l p).length := by
  rw [lastOf]
  cases hb : bucket f l p with
  | nil => simp
  | cons x xs => simp [List.getLast?_cons]

theorem length_lastOf_le_one (p : ℕ) : (lastOf f l p).length ≤ 1 := by
  rw [lastOf]
  cases (bucket f l p).getLast? <;> simp

theorem lastOf_eq_bucket {p : ℕ} (h : (bucket f l p).length ≤ 1) : lastOf f l p = bucket f l p := by
  rw [lastOf]
  match hb : bucket f l p, h with
  | [], _ | [x], _ => rfl

theorem lastOf_concat (x : α) (p : ℕ) :
    lastOf f (l ++ [x]) p = if f x = p then [x] else lastOf f l p := by
  by_cases hx : f x = p <;> simp [lastOf, bucket, List.filter_append, hx]

theorem nodup_map_iff : (l.map f).Nodup ↔ ∀ p, (bucket f l p).length ≤ 1 := by
  rw [List.nodup_iff_count_le_one]
  apply forall_congr'
  intro p
  rw [List.count, List.countP_map, List.countP_eq_length_filter, bucket]
  simp [Function.comp_def, beq_eq_decide]

theorem flatMap_lastOf_iff (h : ∀ x ∈ l, f x < n) :
    ((List.range n).flatMap (lastOf f l) : Multiset α) = l ↔ (l.map f).Nodup := by
  rw [nodup_map_iff]
  constructor
  · intro heq p
    by_cases hp : p < n
    · -- equal sizes in total force equal sizes bucket by bucket
      have sizes : ∑ q ∈ range n, (lastOf f l q).length =
          ∑ q ∈ range n, (bucket f l q).length := by
        have hs := congrArg Multiset.card (heq.trans (flatMap_bucket h).symm)
        rw [coe_flatMap_range, coe_flatMap_range] at hs
        simpa using hs
      have each := (sum_eq_sum_iff_of_le fun q _ => length_lastOf_le q).mp sizes
      rw [← each p (mem_range.mpr hp)]
      exact length_lastOf_le_one p
    · have none : bucket f l p = [] := by
        simp only [bucket, List.filter_eq_nil_iff, decide_eq_true_eq]
        intro x hx hxp
        have := h x hx
        omega
      simp [none]
  · intro hone
    rw [← flatMap_bucket h, coe_flatMap_range, coe_flatMap_range]
    exact sum_congr rfl fun p _ => by rw [lastOf_eq_bucket (hone p)]

end Leibrix.Buckets
