import Mathlib.Algebra.BigOperators.Group.Finset.Piecewise
import Mathlib.Algebra.BigOperators.Module
import Mathlib.Algebra.Module.BigOperators
import Mathlib.Data.Multiset.Bind

/-!
# Bags spread over workers

The shares of a bag that workers hold make up the bag when each row is with the one
worker that a function of the row names.
-/

set_option autoImplicit false

namespace Leibrix.SpreadBag
open Multiset

variable {ω ρ γ : Type} {S : Finset ω} {R : Multiset ρ}

theorem nsmul_eq_self_iff {m : Nat} (hm : 0 < m) : m • R = R ↔ m = 1 ∨ R = 0 := by
  constructor
  · intro h
    have hc := congrArg card h
    rw [card_nsmul] at hc
    by_cases hR : R = 0
    · exact .inr hR
    · have hpos : 0 < R.card := card_pos.mpr hR
      exact .inl (Nat.eq_of_mul_eq_mul_right hpos (by omega))
  · rintro (rfl | rfl)
    · exact one_nsmul R
    · exact nsmul_zero m

theorem sum_hom [AddCommMonoid γ] (op : Multiset ρ → γ) (zero : op 0 = 0)
    (add : ∀ A B, op (A + B) = op A + op B) (S : Finset ω) (r : ω → Multiset ρ) :
    op (∑ w ∈ S, r w) = ∑ w ∈ S, op (r w) :=
  map_sum ({ toFun := op, map_zero' := zero, map_add' := add } : Multiset ρ →+ γ) r S

variable [DecidableEq ω]

theorem sum_filter_some {loc : ρ → Option ω} (hloc : ∀ x ∈ R, ∃ w ∈ S, loc x = some w) :
    ∑ w ∈ S, R.filter (fun x => loc x = some w) = R := by
  induction R using Multiset.induction with
  | empty => simp
  | cons x R ih =>
    obtain ⟨v, hv, hx⟩ := hloc x (mem_cons_self x R)
    have one : ∑ w ∈ S, (if loc x = some w then {x} else 0 : Multiset ρ) = {x} := by
      simp [hx, hv]
    rw [← singleton_add]
    simp only [filter_add, filter_singleton, Finset.sum_add_distrib,
      ih fun y hy => hloc y (mem_cons_of_mem hy)]
    exact congrArg (· + R) one

theorem sum_filter_location {f : ρ → ω} (hf : ∀ x ∈ R, f x ∈ S) :
    ∑ w ∈ S, R.filter (fun x => f x = w) = R := by
  simpa using sum_filter_some (R := R) (S := S) fun x hx => ⟨f x, hf x hx, rfl⟩

end Leibrix.SpreadBag
