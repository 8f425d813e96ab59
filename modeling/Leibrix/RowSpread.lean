import Leibrix.PlacedJoin
import Mathlib.Algebra.BigOperators.Ring.Finset

/-!
# Where the rows of a bag lie

The ways in which the workers of a stage see the rows of one join input: each row
on one worker, chosen by its key or not, or copies of each row on several. For
each part of a join the condition on sights is worked out for these, over every
partition map.
-/

set_option autoImplicit false

namespace Leibrix.RowSpread
open PlacedJoin Finset

variable {κ ω : Type}

/-- The worker of each key, for each set of workers a bag is partitioned over. -/
structure PartitionMap (κ ω : Type) where
  worker : Finset ω → κ → ω
  worker_mem : ∀ A k, A.Nonempty → worker A k ∈ A

variable [DecidableEq ω]

def oneAt (a : ω) : ω → ℕ := fun w => if w = a then 1 else 0

def copiesOn (n : ℕ) (A : Finset ω) : ω → ℕ := fun w => if w ∈ A then n else 0

/-- `once byKey A` puts each row on one worker of `A`, and on the worker of its key if `byKey`;
`copied n A` puts `n` copies of each row on every worker of `A`. -/
inductive Spread (ω : Type) where
  | once (byKey : Bool) (A : Finset ω)
  | copied (n : ℕ) (A : Finset ω)

namespace Spread

def sights (pm : PartitionMap κ ω) : Spread ω → Sights κ ω
  | once byKey A, k => {s | ∃ a ∈ A, (byKey → a = pm.worker A k) ∧ s = oneAt a}
  | copied n A, _ => {s | 0 < n ∧ A.Nonempty ∧ s = copiesOn n A}

/-- There can be rows at all. -/
def Holds : Spread ω → Prop
  | once _ A => A.Nonempty
  | copied n A => 0 < n ∧ A.Nonempty

instance : ∀ L : Spread ω, Decidable L.Holds
  | once _ A => inferInstanceAs (Decidable A.Nonempty)
  | copied n A => inferInstanceAs (Decidable (0 < n ∧ A.Nonempty))

end Spread

open Spread

def SameMap (byKey : Bool) (A : Finset ω) (byKey' : Bool) (B : Finset ω) : Prop :=
  byKey ∧ byKey' ∧ A = B

def MeetCond (S : Finset ω) : Spread ω → Spread ω → Prop
  | once byKey A, once byKey' B => A ⊆ S ∧ (SameMap byKey A byKey' B ∨ ∀ a ∈ A, B = {a})
  | once _ A, copied n B => n = 1 ∧ A ⊆ B ∩ S
  | copied m A, once _ B => m = 1 ∧ B ⊆ A ∩ S
  | copied m A, copied n B => m * n * (A ∩ B ∩ S).card = 1

def MatchCond (S : Finset ω) : Spread ω → Spread ω → Prop
  | once byKey A, once byKey' B => A ⊆ S ∧ (SameMap byKey A byKey' B ∨ ∀ a ∈ A, B = {a})
  | once _ A, copied _ B => A ⊆ B ∩ S
  | copied m A, once byKey B => m = 1 ∧ B ⊆ A ∩ S ∧ (byKey ∨ B.card = 1)
  | copied m A, copied _ B => m * (A ∩ B ∩ S).card = 1

def OnceCond (S : Finset ω) : Spread ω → Prop
  | once _ A => A ⊆ S
  | copied n A => n * (A ∩ S).card = 1

def CoverCond (S : Finset ω) : Spread ω → Spread ω → Prop
  | once byKey A, once byKey' B => SameMap byKey A byKey' B ∨ ∀ a ∈ A ∩ S, B = {a}
  | once _ A, copied _ B => A ∩ S ⊆ B
  | copied _ A, once _ B => ∀ a ∈ A ∩ S, B = {a}
  | copied _ A, copied _ B => A ∩ S ⊆ B

def PartCond (S : Finset ω) (L R : Spread ω) : Part → Prop
  | .pairs => L.Holds → R.Holds → MeetCond S L R
  | .leftMatched => L.Holds → R.Holds → MatchCond S L R
  | .leftUnmatched => L.Holds → OnceCond S L ∧ (R.Holds → CoverCond S L R)
  | .rightMatched => L.Holds → R.Holds → MatchCond S R L
  | .rightUnmatched => R.Holds → OnceCond S R ∧ (L.Holds → CoverCond S R L)

instance (byKey : Bool) (A : Finset ω) (byKey' : Bool) (B : Finset ω) :
    Decidable (SameMap byKey A byKey' B) := inferInstanceAs (Decidable (_ ∧ _ ∧ _))

instance (S : Finset ω) : ∀ L R, Decidable (MeetCond S L R)
  | once _ _, once _ _ | once _ _, copied _ _ | copied _ _, once _ _ =>
    inferInstanceAs (Decidable (_ ∧ _))
  | copied _ _, copied _ _ => inferInstanceAs (Decidable (_ = _))

instance (S : Finset ω) : ∀ L R, Decidable (MatchCond S L R)
  | once _ _, once _ _ => inferInstanceAs (Decidable (_ ∧ _))
  | once _ A, copied _ B => inferInstanceAs (Decidable (A ⊆ B ∩ S))
  | copied _ _, once _ _ => inferInstanceAs (Decidable (_ ∧ _))
  | copied _ _, copied _ _ => inferInstanceAs (Decidable (_ = _))

instance (S : Finset ω) : ∀ L, Decidable (OnceCond S L)
  | once _ A => inferInstanceAs (Decidable (A ⊆ S))
  | copied _ _ => inferInstanceAs (Decidable (_ = _))

instance (S : Finset ω) : ∀ L R, Decidable (CoverCond S L R)
  | once _ _, once _ _ => inferInstanceAs (Decidable (_ ∨ _))
  | once _ A, copied _ B => inferInstanceAs (Decidable (A ∩ S ⊆ B))
  | copied _ A, once _ B => inferInstanceAs (Decidable (∀ a ∈ A ∩ S, B = {a}))
  | copied _ A, copied _ B => inferInstanceAs (Decidable (A ∩ S ⊆ B))

instance (S : Finset ω) (L R : Spread ω) : ∀ p, Decidable (PartCond S L R p)
  | .pairs | .leftMatched | .rightMatched => inferInstanceAs (Decidable (_ → _ → _))
  | .leftUnmatched | .rightUnmatched => inferInstanceAs (Decidable (_ → _ ∧ (_ → _)))

variable (S : Finset ω)

theorem oneAt_pos (a w : ω) : 0 < oneAt a w ↔ w = a := by
  by_cases h : w = a <;> simp [oneAt, h]

theorem copiesOn_pos (n : ℕ) (A : Finset ω) (w : ω) : 0 < copiesOn n A w ↔ w ∈ A ∧ 0 < n := by
  by_cases h : w ∈ A <;> simp [copiesOn, h]

theorem oneAt_eq_one (a w : ω) : oneAt a w = 1 ↔ w = a := by
  by_cases h : w = a <;> simp [oneAt, h]

theorem copiesOn_eq_one (n : ℕ) (A : Finset ω) (w : ω) : copiesOn n A w = 1 ↔ n = 1 ∧ w ∈ A := by
  by_cases h : w ∈ A <;> simp [copiesOn, h]

theorem sum_oneAt_mul (a : ω) (t : ω → ℕ) : ∑ w ∈ S, oneAt a w * t w = 1 ↔ a ∈ S ∧ t a = 1 := by
  by_cases h : a ∈ S <;> simp [oneAt, h]

theorem sum_mul_oneAt (b : ω) (s : ω → ℕ) : ∑ w ∈ S, s w * oneAt b w = 1 ↔ b ∈ S ∧ s b = 1 := by
  by_cases h : b ∈ S <;> simp [oneAt, h]

theorem sum_oneAt (a : ω) : ∑ w ∈ S, oneAt a w = 1 ↔ a ∈ S := by
  by_cases h : a ∈ S <;> simp [oneAt, h]

theorem sum_ite_oneAt (a : ω) (c : ω → Prop) [DecidablePred c] :
    ∑ w ∈ S, (if c w then oneAt a w else 0) = 1 ↔ a ∈ S ∧ c a := by
  have factor : ∀ w, (if c w then oneAt a w else 0) = oneAt a w * if c w then 1 else 0 := by simp
  simp only [factor, sum_oneAt_mul]
  simp

theorem sum_ite_pos_oneAt (b : ω) (s : ω → ℕ) :
    ∑ w ∈ S, (if 0 < oneAt b w then s w else 0) = 1 ↔ b ∈ S ∧ s b = 1 := by
  by_cases h : b ∈ S <;> simp [oneAt_pos, h]

theorem sum_copiesOn (n : ℕ) (A : Finset ω) : ∑ w ∈ S, copiesOn n A w = n * (A ∩ S).card := by
  rw [inter_comm, mul_comm]
  simp [copiesOn]

theorem sum_copiesOn_mul (m n : ℕ) (A B : Finset ω) :
    ∑ w ∈ S, copiesOn m A w * copiesOn n B w = m * n * (A ∩ B ∩ S).card := by
  rw [← sum_copiesOn]
  refine sum_congr rfl fun w _ => ?_
  by_cases ha : w ∈ A <;> by_cases hb : w ∈ B <;> simp [copiesOn, ha, hb]

/-- Two workers can be the places of one key, unless one map places both bags. -/
theorem exists_partitionMap (byKey byKey' : Bool) {A B : Finset ω} {a b : ω} (ha : a ∈ A)
    (hb : b ∈ B) (h : SameMap byKey A byKey' B → a = b) :
    ∃ pm : PartitionMap κ ω,
      ∀ k, (byKey → a = pm.worker A k) ∧ (byKey' → b = pm.worker B k) := by
  classical
  let first := if byKey then a else if A = B then b else a
  have hfirst : first ∈ A := by
    unfold first
    split
    · exact ha
    · split
      · rename_i hAB
        exact hAB ▸ hb
      · exact ha
  refine ⟨⟨fun X _ => if X = A then first else if X = B then b else
    if hX : ∃ x, x ∈ X then hX.choose else a, ?_⟩, fun k => ⟨?_, ?_⟩⟩
  · intro X k hX
    split
    · rename_i hXA
      exact hXA ▸ hfirst
    · split
      · rename_i hXB
        exact hXB ▸ hb
      · rw [dif_pos (show ∃ x, x ∈ X from hX)]
        exact Exists.choose_spec (p := fun x => x ∈ X) hX
  · intro hk
    simp [first, hk]
  · intro hk'
    by_cases hBA : B = A
    · by_cases hk : byKey
      · simp [hBA, first, hk, h ⟨hk, hk', hBA.symm⟩]
      · simp [hBA, first, hk]
    · simp [hBA]

section Conditions

def Joint (f : (ω → ℕ) → (ω → ℕ) → Prop) : Spread ω → Spread ω → Prop
  | once byKey A, once byKey' B =>
    ∀ a ∈ A, ∀ b ∈ B, (SameMap byKey A byKey' B → a = b) → f (oneAt a) (oneAt b)
  | once _ A, copied n B => ∀ a ∈ A, f (oneAt a) (copiesOn n B)
  | copied m A, once _ B => ∀ b ∈ B, f (copiesOn m A) (oneAt b)
  | copied m A, copied n B => f (copiesOn m A) (copiesOn n B)

theorem forall_sights_iff_joint [Nonempty κ] (f : (ω → ℕ) → (ω → ℕ) → Prop) (L R : Spread ω) :
    (∀ (pm : PartitionMap κ ω) (k : κ), ∀ s ∈ L.sights pm k, ∀ t ∈ R.sights pm k, f s t) ↔
      (L.Holds → R.Holds → Joint f L R) := by
  have k := Classical.arbitrary κ
  constructor
  · intro h hL hR
    cases L with
    | once byKey A =>
      cases R with
      | once byKey' B =>
        intro a ha b hb hab
        obtain ⟨pm, hpm⟩ := exists_partitionMap byKey byKey' ha hb hab
        exact h pm k _ ⟨a, ha, (hpm k).1, rfl⟩ _ ⟨b, hb, (hpm k).2, rfl⟩
      | copied n B =>
        intro a ha
        obtain ⟨pm, hpm⟩ := exists_partitionMap byKey byKey ha ha fun _ => rfl
        exact h pm k _ ⟨a, ha, (hpm k).1, rfl⟩ _ ⟨hR.1, hR.2, rfl⟩
    | copied m A =>
      cases R with
      | once byKey' B =>
        intro b hb
        obtain ⟨pm, hpm⟩ := exists_partitionMap byKey' byKey' hb hb fun _ => rfl
        exact h pm k _ ⟨hL.1, hL.2, rfl⟩ _ ⟨b, hb, (hpm k).2, rfl⟩
      | copied n B =>
        obtain ⟨a, ha⟩ := hL.2
        obtain ⟨pm, -⟩ := exists_partitionMap false false ha ha fun _ => rfl
        exact h pm k _ ⟨hL.1, hL.2, rfl⟩ _ ⟨hR.1, hR.2, rfl⟩
  · intro h pm k s hs t ht
    cases L with
    | once byKey A =>
      obtain ⟨a, ha, hk, rfl⟩ := hs
      cases R with
      | once byKey' B =>
        obtain ⟨b, hb, hk', rfl⟩ := ht
        refine h ⟨a, ha⟩ ⟨b, hb⟩ a ha b hb ?_
        rintro ⟨h1, h2, rfl⟩
        rw [hk h1, hk' h2]
      | copied n B =>
        obtain ⟨hn, hB, rfl⟩ := ht
        exact h ⟨a, ha⟩ ⟨hn, hB⟩ a ha
    | copied m A =>
      obtain ⟨hm, hA, rfl⟩ := hs
      cases R with
      | once byKey' B =>
        obtain ⟨b, hb, -, rfl⟩ := ht
        exact h ⟨hm, hA⟩ ⟨b, hb⟩ b hb
      | copied n B =>
        obtain ⟨hn, hB, rfl⟩ := ht
        exact h ⟨hm, hA⟩ ⟨hn, hB⟩

omit [DecidableEq ω] in
theorem eq_singleton_iff_forall {B : Finset ω} (hB : B.Nonempty) (a : ω) :
    B = {a} ↔ ∀ b ∈ B, a = b := by
  simp [eq_singleton_iff_nonempty_unique_mem, hB, eq_comm]

theorem coveredTogether_iff {byKey byKey' : Bool} {A B : Finset ω} (hB : B.Nonempty) :
    (∀ a ∈ A, ∀ b ∈ B, (SameMap byKey A byKey' B → a = b) → a ∈ S → a = b) ↔
      SameMap byKey A byKey' B ∨ ∀ a ∈ A ∩ S, B = {a} := by
  simp only [eq_singleton_iff_forall hB, mem_inter]
  by_cases hm : SameMap byKey A byKey' B <;> grind

theorem onceTogether_iff {byKey byKey' : Bool} {A B : Finset ω} (hB : B.Nonempty) :
    (∀ a ∈ A, ∀ b ∈ B, (SameMap byKey A byKey' B → a = b) → a ∈ S ∧ a = b) ↔
      A ⊆ S ∧ (SameMap byKey A byKey' B ∨ ∀ a ∈ A, B = {a}) := by
  simp only [eq_singleton_iff_forall hB, subset_iff]
  by_cases hm : SameMap byKey A byKey' B
  · have hAB : A = B := hm.2.2
    grind
  · obtain ⟨b, hb⟩ := hB
    grind

variable [Nonempty κ] (L R : Spread ω)

theorem meetOnce_iff : (∀ pm : PartitionMap κ ω, MeetOnce S (L.sights pm) (R.sights pm)) ↔
      (L.Holds → R.Holds → MeetCond S L R) := by
  refine (forall_sights_iff_joint (fun s t => ∑ w ∈ S, s w * t w = 1) L R).trans ?_
  refine forall_congr' fun hL => forall_congr' fun hR => ?_
  cases L with
  | once byKey A =>
    cases R with
    | once byKey' B =>
      simp only [Joint, MeetCond, sum_oneAt_mul, oneAt_eq_one, onceTogether_iff S hR]
    | copied n B =>
      obtain ⟨a, ha⟩ := hL
      simp only [Joint, MeetCond, sum_oneAt_mul, copiesOn_eq_one, subset_iff,
        mem_inter]
      grind
  | copied m A =>
    cases R with
    | once byKey' B =>
      obtain ⟨b, hb⟩ := hR
      simp only [Joint, MeetCond, sum_mul_oneAt, copiesOn_eq_one, subset_iff,
        mem_inter]
      grind
    | copied n B => simp only [Joint, MeetCond, sum_copiesOn_mul]

theorem seenOnce_iff (L : Spread ω) :
    (∀ pm : PartitionMap κ ω, SeenOnce S (L.sights pm)) ↔ (L.Holds → OnceCond S L) := by
  have self := forall_sights_iff_joint (κ := κ) (fun s _ => ∑ w ∈ S, s w = 1) L L
  have same : (∀ pm : PartitionMap κ ω, SeenOnce S (L.sights pm)) ↔ _ :=
    Iff.trans ⟨fun h pm k s hs t _ => h pm k s hs, fun h pm k s hs => h pm k s hs s hs⟩ self
  refine same.trans (forall_congr' fun hL => ?_)
  rw [imp_iff_right hL]
  cases L with
  | once byKey A =>
    simp only [Joint, OnceCond, sum_oneAt, subset_iff]
    grind
  | copied n A => simp only [Joint, OnceCond, sum_copiesOn]

theorem covered_iff : (∀ pm : PartitionMap κ ω, Covered S (L.sights pm) (R.sights pm)) ↔
      (L.Holds → R.Holds → CoverCond S L R) := by
  refine (forall_sights_iff_joint (fun s t => ∀ w ∈ S, 0 < s w → 0 < t w) L R).trans ?_
  refine forall_congr' fun hL => forall_congr' fun hR => ?_
  cases L with
  | once byKey A =>
    cases R with
    | once byKey' B =>
      simp only [Joint, CoverCond, oneAt_pos, ← coveredTogether_iff S hR]
      grind
    | copied n B =>
      simp only [Joint, CoverCond, oneAt_pos, copiesOn_pos, subset_iff, mem_inter]
      have := hR.1
      grind
  | copied m A =>
    cases R with
    | once byKey' B =>
      simp only [Joint, CoverCond, oneAt_pos, copiesOn_pos, mem_inter,
        eq_singleton_iff_forall hR]
      have := hL.1
      grind
    | copied n B =>
      simp only [Joint, CoverCond, copiesOn_pos, subset_iff, mem_inter]
      have := hL.1
      have := hR.1
      grind

theorem matchOnce_iff : (∀ pm : PartitionMap κ ω, MatchOnce S (L.sights pm) (R.sights pm)) ↔
      (L.Holds → R.Holds → MatchCond S L R) := by
  have joint := forall_sights_iff_joint (κ := κ)
    (fun s t => ∑ w ∈ S, (if 0 < t w then s w else 0) = 1) L R
  have diagonal : (∀ pm : PartitionMap κ ω, MatchOnce S (L.sights pm) (R.sights pm)) →
      L.Holds → R.Holds → Joint (fun s t => ∑ w ∈ S, (if 0 < t w then s w else 0) = 1) L R :=
    fun h => joint.mp fun pm k s hs t ht => by simpa using h pm k s hs t ht t ht
  cases L with
  | once byKey A =>
    -- a row on one worker has one chance to meet a partner, so one partner tells all
    have single : (∀ pm : PartitionMap κ ω, MatchOnce S ((once byKey A).sights pm) (R.sights pm)) ↔
        (Holds (once byKey A) → R.Holds →
          Joint (fun s t => ∑ w ∈ S, (if 0 < t w then s w else 0) = 1) (once byKey A) R) := by
      refine ⟨diagonal, fun h pm k s hs t ht t' ht' => ?_⟩
      have one := joint.mpr h pm k s hs t ht
      obtain ⟨a, ha, -, rfl⟩ := hs
      rw [sum_ite_oneAt] at one ⊢
      exact ⟨one.1, .inl one.2⟩
    refine single.trans (forall_congr' fun hL => forall_congr' fun hR => ?_)
    cases R with
    | once byKey' B => simp only [Joint, MatchCond, sum_ite_oneAt, oneAt_pos, onceTogether_iff S hR]
    | copied n B =>
      have := hR.1
      simp only [Joint, MatchCond, sum_ite_oneAt, copiesOn_pos, subset_iff,
        mem_inter]
      grind
  | copied m A =>
    cases R with
    | once byKey' B =>
      simp only [Joint, sum_ite_pos_oneAt, copiesOn_eq_one] at diagonal
      constructor
      · intro h hL hR
        have each := diagonal h hL hR
        obtain ⟨b, hb⟩ := hR
        refine ⟨(each b hb).2.1, fun b' hb' =>
          mem_inter.mpr ⟨(each b' hb').2.2, (each b' hb').1⟩, ?_⟩
        by_contra hno
        obtain ⟨hkey, hcard⟩ := not_or.mp hno
        obtain ⟨b', hb', hne⟩ : ∃ b' ∈ B, b' ≠ b := by
          by_contra hall
          push Not at hall
          exact hcard (card_eq_one.mpr ⟨b, by ext c; grind⟩)
        -- two partners on different workers both meet the row's copies
        obtain ⟨pm, -⟩ := exists_partitionMap (κ := κ) byKey' byKey' hb hb fun _ => rfl
        have two := h pm (Classical.arbitrary κ) _ ⟨hL.1, hL.2, rfl⟩
          _ ⟨b, hb, fun hk => absurd hk hkey, rfl⟩ _ ⟨b', hb', fun hk => absurd hk hkey, rfl⟩
        have le := sum_le_sum_of_subset (f := fun w =>
            if 0 < oneAt b w ∨ 0 < oneAt b' w then copiesOn m A w else 0)
          (show {b, b'} ⊆ S by grind)
        rw [two, sum_pair hne.symm] at le
        simp [oneAt_pos, copiesOn, each b hb, each b' hb'] at le
      · rintro h pm k s ⟨hm, hA, rfl⟩ t ⟨b, hb, hk, rfl⟩ t' ⟨b', hb', hk', rfl⟩
        obtain ⟨hone, hB, hkey⟩ := h ⟨hm, hA⟩ ⟨b, hb⟩
        have same : b = b' := by
          rcases hkey with hkey | hcard
          · rw [hk hkey, hk' hkey]
          · exact card_le_one.mp hcard.le b hb b' hb'
        have hbAS := mem_inter.mp (hB hb)
        simp only [← same, or_self, sum_ite_pos_oneAt, copiesOn_eq_one]
        exact ⟨hbAS.2, hone, hbAS.1⟩
    | copied n B =>
      have sum_eq : 0 < n → ∑ w ∈ S, (if 0 < copiesOn n B w then copiesOn m A w else 0) =
          m * (A ∩ B ∩ S).card := by
        intro hn
        rw [← Nat.mul_one m, ← sum_copiesOn_mul S m 1 A B]
        refine sum_congr rfl fun w _ => ?_
        by_cases hw : w ∈ B <;> simp [copiesOn, hw, hn]
      constructor
      · intro h hL hR
        rw [MatchCond, ← sum_eq hR.1]
        exact diagonal h hL hR
      · rintro h pm k s ⟨hm, hA, rfl⟩ t ⟨hn, hB, rfl⟩ t' ⟨-, -, rfl⟩
        simp only [or_self, sum_eq hn]
        exact h ⟨hm, hA⟩ ⟨hn, hB⟩

theorem partSafe_iff (p : Part) :
    (∀ pm : PartitionMap κ ω, PartSafe S (L.sights pm) (R.sights pm) p) ↔ PartCond S L R p := by
  cases p with
  | pairs => exact meetOnce_iff S L R
  | leftMatched => exact matchOnce_iff S L R
  | rightMatched => exact (matchOnce_iff S R L).trans imp.swap
  | leftUnmatched | rightUnmatched =>
    simp only [PartSafe, PartCond, forall_and, seenOnce_iff, covered_iff]

theorem joinDistributes_spread_iff (type : JoinType) :
    (∀ pm : PartitionMap κ ω, JoinDistributes S (L.sights pm) (R.sights pm) type) ↔
      ∀ p ∈ type.parts, PartCond S L R p := by
  simp only [joinDistributes_iff, ← partSafe_iff (κ := κ)]
  exact ⟨fun h p hp pm => h pm p hp, fun h pm p hp => h p hp pm⟩

end Conditions

end Leibrix.RowSpread
