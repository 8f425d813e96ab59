import Leibrix.SqlInterval
import Mathlib.Order.Closure
import Mathlib.Order.CompletePartialOrder
import Mathlib.Order.Interval.Set.OrdConnected

/-!
# Intervals as sets of dates

An interval whose bounds are dates is read as a set of dates, over any calendar. The
intersection of two intervals has the dates that both have. Their union has the dates
between any two that they have. On ISO dates no interval with fewer dates contains both, so
the laws of the operations are those of intersection and of convex hulls of sets.
-/

set_option autoImplicit false

namespace Leibrix.IntervalLattice
open CivilDate SqlInterval SqlInterval.Interval

section Hull

variable {D : Type} [LinearOrder D]

/-- What lies between two members of a set. -/
def hull : ClosureOperator (Set D) :=
  .ofPred (fun A => { x | ∃ u ∈ A, ∃ v ∈ A, u ≤ x ∧ x ≤ v }) Set.OrdConnected
    (fun _ x hx => ⟨x, hx, x, hx, le_rfl, le_rfl⟩)
    (fun _ => ⟨fun _ ⟨u, hu, _, _, hux, _⟩ _ ⟨_, _, v, hv, _, hyv⟩ _ ⟨hxz, hzy⟩ =>
      ⟨u, hu, v, hv, hux.trans hxz, hzy.trans hyv⟩⟩)
    (fun _ _ hAB hB _ ⟨_, hu, _, hv, hux, hxv⟩ => hB.out (hAB hu) (hAB hv) ⟨hux, hxv⟩)

end Hull

section Sets

/-- Both bounds, where there are any, have the property. -/
structure Bounds (P : DateBound → Prop) (i : Interval) : Prop where
  start : ∀ b, i.start = some b → P b
  stop : ∀ b, i.end = some b → P b

variable {D : Type} [LinearOrder D] {c : Chrono D} {P : DateBound → Prop} {i j : Interval}

theorem Bounds.intersect (hempty : Bounds P empty) (hi : Bounds P i) (hj : Bounds P j) :
    Bounds P (i.intersect c j) := by
  unfold SqlInterval.Interval.intersect
  split_ifs
  · exact hempty
  · constructor <;> intro b hb
    · exact (tighter_cases maxBound_cases hb).elim (hi.start b) (hj.start b)
    · exact (tighter_cases minBound_cases hb).elim (hi.stop b) (hj.stop b)

theorem Bounds.union (hi : Bounds P i) (hj : Bounds P j) : Bounds P (i.union c j) := by
  unfold SqlInterval.Interval.union
  split_ifs
  · exact hj
  · exact hi
  · exact ⟨nofun, nofun⟩
  · constructor <;> intro b hb <;> obtain ⟨x, y, hx, hy, rfl⟩ := wider_some hb
    · rcases minBound_cases (c := c) x y with h | h <;> rw [h]
      · exact hi.start x hx
      · exact hj.start y hy
    · rcases maxBound_cases (c := c) x y with h | h <;> rw [h]
      · exact hi.stop x hx
      · exact hj.stop y hy

/-- The bound is a date with a date before it. -/
def Dated (c : Chrono D) (b : DateBound) : Prop :=
  ∃ s d, b = .literal s ∧ c.parse s = some d ∧ ∃ e, e < d

def datesIn (c : Chrono D) (σ : String → D) (i : Interval) : Set D := { d | i.Contains c σ d }

variable {σ : String → D}

theorem comparable_of_dated {s t : Option DateBound} (hs : ∀ b, s = some b → Dated c b)
    (ht : ∀ b, t = some b → Dated c b) : Comparable c s t := by
  intro a b ha hb
  obtain ⟨p, x, rfl, hx, -⟩ := hs a ha
  obtain ⟨q, y, rfl, hy, -⟩ := ht b hb
  exact ⟨p, q, x, y, rfl, rfl, hx, hy⟩

theorem dates_nonempty (hi : Bounds (Dated c) i) (h : i.isEmpty c = false) :
    (datesIn c σ i).Nonempty := by
  obtain ⟨s, e⟩ := i
  cases s with
  | none =>
    cases e with
    | none => exact ⟨σ "", nofun, nofun⟩
    | some b =>
      obtain ⟨text, x, rfl, hx, d, hd⟩ := hi.stop b rfl
      refine ⟨d, nofun, ?_⟩
      rintro _ ⟨⟩
      exact ⟨x, hx, hd⟩
  | some a =>
    obtain ⟨text, x, rfl, hx, -⟩ := hi.start a rfl
    refine ⟨x, ?_, fun b hb => ?_⟩
    · rintro b ⟨⟩
      exact ⟨x, hx, le_rfl⟩
    · obtain ⟨text', y, rfl, hy, -⟩ := hi.stop b hb
      obtain rfl : e = _ := hb
      refine ⟨y, hy, ?_⟩
      simpa [isEmpty, hx, hy] using h

theorem isEmpty_iff (hi : Bounds (Dated c) i) : i.isEmpty c = true ↔ datesIn c σ i = ∅ := by
  constructor
  · intro h
    refine Set.eq_empty_of_forall_notMem fun d hd => ?_
    rw [not_isEmpty_of_contains hd] at h
    cases h
  · intro h
    by_contra hne
    have some := dates_nonempty (σ := σ) hi (by simpa using hne)
    rw [h] at some
    exact Set.not_nonempty_empty some

theorem dates_intersect (hempty : Bounds (Dated c) empty) (hnone : empty.isEmpty c = true)
    (hi : Bounds (Dated c) i) (hj : Bounds (Dated c) j) :
    datesIn c σ (i.intersect c j) = datesIn c σ i ∩ datesIn c σ j := by
  refine Set.Subset.antisymm (fun d hd => ?_) fun d hd => contains_intersect hd.1 hd.2
  unfold SqlInterval.Interval.intersect at hd
  split_ifs at hd with he
  · rw [(isEmpty_iff (σ := σ) hempty).mp hnone] at hd
    cases hd
  · have starts := (admits_tighter (fun _ _ _ _ ha hb => maxBound_date ha hb σ)
      (comparable_of_dated hi.start hj.start) fun _ _ => max_le_iff).mp hd.1
    have stops := (admits_tighter (fun _ _ _ _ ha hb => minBound_date ha hb σ)
      (comparable_of_dated hi.stop hj.stop) fun _ _ => lt_min_iff).mp hd.2
    exact ⟨⟨starts.1, stops.1⟩, ⟨starts.2, stops.2⟩⟩

theorem ordConnected_dates : (datesIn c σ i).OrdConnected := by
  constructor
  rintro x ⟨hx, -⟩ y ⟨-, hy⟩ z ⟨hxz, hzy⟩
  refine ⟨fun b hb => ?_, fun b hb => ?_⟩
  · obtain ⟨a, ha, hax⟩ := hx b hb
    exact ⟨a, ha, hax.trans hxz⟩
  · obtain ⟨a, ha, hya⟩ := hy b hb
    exact ⟨a, ha, lt_of_le_of_lt hzy hya⟩

theorem hull_dates : hull (datesIn c σ i) = datesIn c σ i :=
  hull.isClosed_iff.mp ordConnected_dates

theorem exists_le {d : D} (hne : (datesIn c σ i).Nonempty) (h : i.Below c σ d) :
    ∃ u ∈ datesIn c σ i, u ≤ d := by
  obtain ⟨p, hp⟩ := hne
  rcases le_total p d with hpd | hdp
  · exact ⟨p, hp, hpd⟩
  · refine ⟨d, ⟨h, fun b hb => ?_⟩, le_rfl⟩
    obtain ⟨x, hx, hpx⟩ := hp.2 b hb
    exact ⟨x, hx, lt_of_le_of_lt hdp hpx⟩

theorem exists_ge {d : D} (hne : (datesIn c σ i).Nonempty) (h : i.Above c σ d) :
    ∃ v ∈ datesIn c σ i, d ≤ v := by
  obtain ⟨p, hp⟩ := hne
  rcases le_total p d with hpd | hdp
  · refine ⟨d, ⟨fun b hb => ?_, h⟩, le_rfl⟩
    obtain ⟨x, hx, hxp⟩ := hp.1 b hb
    exact ⟨x, hx, hxp.trans hpd⟩
  · exact ⟨p, hp, hdp⟩

/-- The union has what lies between dates of its operands. -/
theorem dates_union (hi : Bounds (Dated c) i) (hj : Bounds (Dated c) j) :
    datesIn c σ (i.union c j) = hull (datesIn c σ i ∪ datesIn c σ j) := by
  cases hei : i.isEmpty c with
  | true =>
    rw [(isEmpty_iff hi).mp hei, Set.empty_union, hull_dates, SqlInterval.Interval.union,
      if_pos hei]
  | false =>
    cases hej : j.isEmpty c with
    | true =>
      rw [(isEmpty_iff hj).mp hej, Set.union_empty, hull_dates, SqlInterval.Interval.union]
      simp [hei, hej]
    | false =>
      have union := fun d => contains_union_iff (σ := σ) (d := d) hei hej
        (comparable_of_dated hi.start hj.start) (comparable_of_dated hi.stop hj.stop)
      apply Set.Subset.antisymm
      · intro d hd
        obtain ⟨lower, upper⟩ := (union d).mp hd
        have first : ∃ u ∈ datesIn c σ i ∪ datesIn c σ j, u ≤ d := by
          rcases lower with h | h
          · obtain ⟨u, hu, hud⟩ := exists_le (dates_nonempty hi hei) h
            exact ⟨u, .inl hu, hud⟩
          · obtain ⟨u, hu, hud⟩ := exists_le (dates_nonempty hj hej) h
            exact ⟨u, .inr hu, hud⟩
        have last : ∃ v ∈ datesIn c σ i ∪ datesIn c σ j, d ≤ v := by
          rcases upper with h | h
          · obtain ⟨v, hv, hdv⟩ := exists_ge (dates_nonempty hi hei) h
            exact ⟨v, .inl hv, hdv⟩
          · obtain ⟨v, hv, hdv⟩ := exists_ge (dates_nonempty hj hej) h
            exact ⟨v, .inr hv, hdv⟩
        obtain ⟨u, hu, hud⟩ := first
        obtain ⟨v, hv, hdv⟩ := last
        exact ⟨u, hu, v, hv, hud, hdv⟩
      · refine hull.closure_min (Set.union_subset ?_ ?_) ordConnected_dates
        · exact fun d hd => (union d).mpr ⟨.inl hd.1, .inl hd.2⟩
        · exact fun d hd => (union d).mpr ⟨.inr hd.1, .inr hd.2⟩

end Sets

/-- An ISO date has no sign before its year. -/
def IsoBound (b : DateBound) : Prop := ∃ s d, b = .literal s ∧ parse s = some d ∧ 0 ≤ d.year

abbrev Iso (i : Interval) : Prop := Bounds IsoBound i

abbrev dates (σ : String → Date) (i : Interval) : Set Date := datesIn gregorian σ i

theorem iso_empty : Iso empty := by
  constructor <;> rintro b ⟨⟩
  · exact ⟨_, ⟨9999, 12, 31, by decide⟩, rfl, rfl, by decide⟩
  · exact ⟨_, ⟨1970, 1, 1, by decide⟩, rfl, rfl, by decide⟩

/-- An ISO date is not the first of the calendar. -/
theorem IsoBound.dated {b : DateBound} (h : IsoBound b) : Dated gregorian b := by
  obtain ⟨text, x, rfl, hx, hyear⟩ := h
  refine ⟨text, x, rfl, hx, ⟨-1, 1, 1, by decide⟩, ?_⟩
  have bounds := x.bounds
  rw [Date.lt_iff]
  simp only [Date.rank]
  omega

theorem Bounds.dated {i : Interval} (h : Iso i) : Bounds (Dated gregorian) i :=
  ⟨fun b hb => (h.start b hb).dated, fun b hb => (h.stop b hb).dated⟩

/-- On intervals of ISO dates the operations are intersection and smallest common interval of the
sets of dates, emptiness is that of the set, and the laws of a lattice hold. -/
theorem interval_algebra (σ : String → Date) {i j k : Interval} (hi : Iso i) (hj : Iso j)
    (hk : Iso k) :
    dates σ (i.intersect gregorian j) = dates σ i ∩ dates σ j ∧
    IsLeast { S | (∃ m, Iso m ∧ S = dates σ m) ∧ dates σ i ∪ dates σ j ⊆ S }
      (dates σ (i.union gregorian j)) ∧
    (i.isEmpty gregorian = true ↔ dates σ i = ∅) ∧
    dates σ (i.intersect gregorian j) = dates σ (j.intersect gregorian i) ∧
    dates σ (i.union gregorian j) = dates σ (j.union gregorian i) ∧
    dates σ ((i.intersect gregorian j).intersect gregorian k) =
      dates σ (i.intersect gregorian (j.intersect gregorian k)) ∧
    dates σ ((i.union gregorian j).union gregorian k) =
      dates σ (i.union gregorian (j.union gregorian k)) ∧
    dates σ (i.intersect gregorian i) = dates σ i ∧ dates σ (i.union gregorian i) = dates σ i ∧
    dates σ (i.intersect gregorian (i.union gregorian j)) = dates σ i ∧
    dates σ (i.union gregorian (i.intersect gregorian j)) = dates σ i := by
  have both {i j : Interval} (hi : Iso i) (hj : Iso j) :
      dates σ (i.intersect gregorian j) = dates σ i ∩ dates σ j :=
    dates_intersect iso_empty.dated (by decide) hi.dated hj.dated
  have span {i j : Interval} (hi : Iso i) (hj : Iso j) :
      dates σ (i.union gregorian j) = hull (dates σ i ∪ dates σ j) :=
    dates_union hi.dated hj.dated
  have least : IsLeast { S | (∃ m, Iso m ∧ S = dates σ m) ∧ dates σ i ∪ dates σ j ⊆ S }
      (dates σ (i.union gregorian j)) := by
    refine ⟨⟨⟨_, hi.union hj, rfl⟩, ?_⟩, ?_⟩
    · rw [span hi hj]
      exact hull.le_closure _
    · rintro _ ⟨⟨m, -, rfl⟩, covers⟩
      rw [span hi hj]
      exact hull.closure_min covers ordConnected_dates
  refine ⟨both hi hj, least, isEmpty_iff hi.dated, ?_, ?_, ?_, ?_, ?_, ?_, ?_, ?_⟩
  · rw [both hi hj, both hj hi, Set.inter_comm]
  · rw [span hi hj, span hj hi, Set.union_comm]
  · rw [both (.intersect iso_empty hi hj) hk, both hi (.intersect iso_empty hj hk), both hi hj,
      both hj hk, Set.inter_assoc]
  · rw [span (hi.union hj) hk, span hi (hj.union hk), span hi hj, span hj hk]
    exact (hull.closure_sup_closure_left _ _).trans
      ((congrArg hull (Set.union_assoc _ _ _)).trans (hull.closure_sup_closure_right _ _).symm)
  · rw [both hi hi, Set.inter_self]
  · rw [span hi hi, Set.union_self, hull_dates]
  · rw [both hi (hi.union hj), Set.inter_eq_left]
    exact Set.subset_union_left.trans least.1.2
  · rw [span hi (.intersect iso_empty hi hj), both hi hj,
      Set.union_eq_left.mpr Set.inter_subset_left, hull_dates]

def january : Interval := ⟨some (.literal "2024-01-01"), some (.literal "2024-02-01")⟩

def midJanuary : Interval := ⟨none, some (.literal "2024-01-15")⟩

theorem interval_algebra_january : Iso january ∧ Iso midJanuary ∧ ∀ σ,
    dates σ (january.intersect gregorian midJanuary) = dates σ january ∩ dates σ midJanuary := by
  have iso : Iso january := by
    constructor <;> rintro b ⟨⟩
    · exact ⟨_, ⟨2024, 1, 1, by decide⟩, rfl, rfl, by decide⟩
    · exact ⟨_, ⟨2024, 2, 1, by decide⟩, rfl, rfl, by decide⟩
  have iso' : Iso midJanuary :=
    ⟨nofun, by rintro b ⟨⟩; exact ⟨_, ⟨2024, 1, 15, by decide⟩, rfl, rfl, by decide⟩⟩
  exact ⟨iso, iso', fun σ => (interval_algebra σ iso iso' iso).1⟩

end Leibrix.IntervalLattice
