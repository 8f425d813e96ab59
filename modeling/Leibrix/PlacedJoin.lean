import Mathlib.Algebra.BigOperators.Group.Multiset.Basic
import Mathlib.Algebra.BigOperators.Module
import Mathlib.Algebra.Module.BigOperators
import Mathlib.Data.Multiset.Bind
import Mathlib.Data.Multiset.Count

/-!
# Joins of bags that are spread over workers

A row of a bag is seen on some workers, each with some number of copies: its *sight*. A join
is run on every worker of a stage over what that worker sees, and the results are added up.
A join type is a choice of parts, the matching pairs and the rows of one side with or
without a partner, and each part has an exact condition on the sights under which running it
apart gives the join of the whole bags.
-/

set_option autoImplicit false

namespace Leibrix.PlacedJoin
open Multiset

section Bags

variable {α β ω : Type}

abbrev Placed (α ω : Type) := Multiset (α × (ω → ℕ))

def rows (P : Placed α ω) : Multiset α := P.map Prod.fst

def seenAt (w : ω) (P : Placed α ω) : Multiset α := (P.map fun p => p.2 w • {p.1}).sum

variable (on : α → β → Bool)

def pair (a : α) (b : β) : Multiset (Option α × Option β) :=
  if on a b then {(some a, some b)} else 0

def pairs (L : Multiset α) (R : Multiset β) : Multiset (Option α × Option β) :=
  (L.map fun a => (R.map fun b => pair on a b).sum).sum

def partners (R : Multiset β) (a : α) : ℕ := R.countP fun b => on a b

def matched (L : Multiset α) (R : Multiset β) : Multiset α :=
  L.filter fun a => 0 < partners on R a

def unmatched (L : Multiset α) (R : Multiset β) : Multiset α :=
  L.filter fun a => partners on R a = 0

inductive Part where
  | pairs | leftMatched | leftUnmatched | rightMatched | rightUnmatched
  deriving DecidableEq

def part (L : Multiset α) (R : Multiset β) : Part → Multiset (Option α × Option β)
  | .pairs => pairs on L R
  | .leftMatched => (matched on L R).map fun a => (some a, none)
  | .leftUnmatched => (unmatched on L R).map fun a => (some a, none)
  | .rightMatched => (matched (fun b a => on a b) R L).map fun b => (none, some b)
  | .rightUnmatched => (unmatched (fun b a => on a b) R L).map fun b => (none, some b)

inductive JoinType where
  | inner | cross | left | right | full | leftSemi | rightSemi | leftAnti | rightAnti
  deriving DecidableEq

def JoinType.parts : JoinType → List Part
  | .inner | .cross => [.pairs]
  | .left => [.pairs, .leftUnmatched]
  | .right => [.pairs, .rightUnmatched]
  | .full => [.pairs, .leftUnmatched, .rightUnmatched]
  | .leftSemi => [.leftMatched]
  | .rightSemi => [.rightMatched]
  | .leftAnti => [.leftUnmatched]
  | .rightAnti => [.rightUnmatched]

def join (type : JoinType) (L : Multiset α) (R : Multiset β) : Multiset (Option α × Option β) :=
  (type.parts.map (part on L R)).sum

/-- What the workers of `S` produce together. -/
def joinOver (S : Finset ω) (on : α → β → Bool) (type : JoinType) (P : Placed α ω)
    (Q : Placed β ω) : Multiset (Option α × Option β) :=
  ∑ w ∈ S, join on type (seenAt w P) (seenAt w Q)

@[simp] theorem seenAt_zero (w : ω) : seenAt w (0 : Placed α ω) = 0 := rfl

@[simp] theorem seenAt_cons (w : ω) (p : α × (ω → ℕ)) (P : Placed α ω) :
    seenAt w (p ::ₘ P) = p.2 w • {p.1} + seenAt w P := by
  simp [seenAt]

theorem mem_seenAt (w : ω) (P : Placed α ω) (a : α) :
    a ∈ seenAt w P ↔ ∃ p ∈ P, 0 < p.2 w ∧ p.1 = a := by
  rw [show seenAt w P = P.bind fun p => p.2 w • {p.1} from rfl, mem_bind]
  simp [nsmul_singleton, mem_replicate, Nat.pos_iff_ne_zero, eq_comm]

variable {γ : Type}

theorem sum_map_sum_comm (S : Finset ω) (P : Multiset α) (f : ω → α → Multiset γ) :
    ∑ w ∈ S, (P.map (f w)).sum = (P.map fun p => ∑ w ∈ S, f w p).sum := by
  induction P using Multiset.induction with
  | empty => simp
  | cons p P ih => simp [Finset.sum_add_distrib, ih]

theorem partners_pos (R : Multiset β) (a : α) : 0 < partners on R a ↔ ∃ b ∈ R, on a b := by
  simp [partners, countP_pos]

theorem partners_seenAt_pos (w : ω) (Q : Placed β ω) (a : α) :
    0 < partners on (seenAt w Q) a ↔ ∃ q ∈ Q, 0 < q.2 w ∧ on a q.1 := by
  simp only [partners_pos, mem_seenAt]
  constructor
  · rintro ⟨_, ⟨q, hq, hw, rfl⟩, hon⟩
    exact ⟨q, hq, hw, hon⟩
  · rintro ⟨q, hq, hw, hon⟩
    exact ⟨_, ⟨q, hq, hw, rfl⟩, hon⟩

theorem partners_rows_pos (Q : Placed β ω) (a : α) :
    0 < partners on (rows Q) a ↔ ∃ q ∈ Q, on a q.1 := by
  simp [partners_pos, rows]

theorem filter_distributes (S : Finset ω) (P : Placed α ω) (c : ω → α → Prop) (d : α → Prop)
    [∀ w, DecidablePred (c w)] [DecidablePred d]
    (h : ∀ p ∈ P, ∑ w ∈ S, (if c w p.1 then p.2 w else 0) = if d p.1 then 1 else 0) :
    ∑ w ∈ S, (seenAt w P).filter (c w) = (rows P).filter d := by
  induction P using Multiset.induction with
  | empty => simp [rows]
  | cons p P ih =>
    have hp := h p (mem_cons_self p P)
    have here : ∑ w ∈ S, (p.2 w • ({p.1} : Multiset α)).filter (c w) =
        if d p.1 then {p.1} else 0 := by
      have split : ∀ w, (p.2 w • ({p.1} : Multiset α)).filter (c w) =
          (if c w p.1 then p.2 w else 0) • {p.1} := by
        intro w
        by_cases hc : c w p.1 <;>
          simp +contextual [nsmul_singleton, mem_replicate, hc]
      simp only [split, ← Finset.sum_smul, hp]
      split <;> simp
    simp only [seenAt_cons, filter_add, Finset.sum_add_distrib, here,
      ih fun q hq => h q (mem_cons_of_mem hq)]
    by_cases hd : d p.1 <;> simp [rows, hd]

theorem sum_map_seenAt (w : ω) (P : Placed α ω) (f : α → Multiset γ) :
    ((seenAt w P).map f).sum = (P.map fun p => p.2 w • f p.1).sum := by
  induction P using Multiset.induction with
  | empty => simp
  | cons p P ih => simp [ih, nsmul_singleton]

theorem pairs_seenAt (w : ω) (P : Placed α ω) (Q : Placed β ω) :
    pairs on (seenAt w P) (seenAt w Q) =
      (P.map fun p => (Q.map fun q => (p.2 w * q.2 w) • pair on p.1 q.1).sum).sum := by
  simp only [pairs, sum_map_seenAt, mul_smul, sum_map_nsmul]

theorem pairs_distributes (S : Finset ω) (on : α → β → Bool) (P : Placed α ω) (Q : Placed β ω)
    (h : ∀ p ∈ P, ∀ q ∈ Q, on p.1 q.1 → ∑ w ∈ S, p.2 w * q.2 w = 1) :
    ∑ w ∈ S, pairs on (seenAt w P) (seenAt w Q) = pairs on (rows P) (rows Q) := by
  simp only [pairs_seenAt, sum_map_sum_comm]
  simp only [pairs, rows, map_map, Function.comp_def]
  refine congrArg sum (Multiset.map_congr rfl fun p hp => ?_)
  refine congrArg sum (Multiset.map_congr rfl fun q hq => ?_)
  rw [← Finset.sum_smul]
  by_cases hon : on p.1 q.1
  · rw [h p hp q hq hon, one_smul]
  · simp [pair, hon]

end Bags

section Sights

variable {κ ω : Type}

abbrev Sights (κ ω : Type) := κ → Set (ω → ℕ)

variable (S : Finset ω) (sL sR : Sights κ ω)

def MeetOnce : Prop := ∀ k, ∀ s ∈ sL k, ∀ t ∈ sR k, ∑ w ∈ S, s w * t w = 1

def SeenOnce : Prop := ∀ k, ∀ s ∈ sL k, ∑ w ∈ S, s w = 1

def Covered : Prop := ∀ k, ∀ s ∈ sL k, ∀ t ∈ sR k, ∀ w ∈ S, 0 < s w → 0 < t w

def MatchOnce : Prop := ∀ k, ∀ s ∈ sL k, ∀ t ∈ sR k, ∀ t' ∈ sR k,
  ∑ w ∈ S, (if 0 < t w ∨ 0 < t' w then s w else 0) = 1

def PartSafe : Part → Prop
  | .pairs => MeetOnce S sL sR
  | .leftMatched => MatchOnce S sL sR
  | .leftUnmatched => SeenOnce S sL ∧ Covered S sL sR
  | .rightMatched => MatchOnce S sR sL
  | .rightUnmatched => SeenOnce S sR ∧ Covered S sR sL

def Admissible {α : Type} (key : α → κ) (s : Sights κ ω) (P : Placed α ω) : Prop :=
  ∀ p ∈ P, p.2 ∈ s (key p.1)

/-- Running the join on the workers of `S` gives the join of the whole bags, whatever the rows
and the join condition, as long as the condition implies equal keys. -/
def JoinDistributes (type : JoinType) : Prop :=
  ∀ (α β : Type) (keyL : α → κ) (keyR : β → κ) (on : α → β → Bool),
    (∀ a b, on a b → keyL a = keyR b) →
    ∀ (P : Placed α ω) (Q : Placed β ω), Admissible keyL sL P → Admissible keyR sR Q →
      joinOver S on type P Q = join on type (rows P) (rows Q)

section Sufficiency

variable {S sL sR} {α β : Type} {keyL : α → κ} {keyR : β → κ} {on : α → β → Bool}
  {P : Placed α ω} {Q : Placed β ω}

theorem MatchOnce.distributes (hs : MatchOnce S sL sR) (hon : ∀ a b, on a b → keyL a = keyR b)
    (hP : Admissible keyL sL P) (hQ : Admissible keyR sR Q) :
    ∑ w ∈ S, matched on (seenAt w P) (seenAt w Q) = matched on (rows P) (rows Q) := by
  refine filter_distributes S P (fun w a => 0 < partners on (seenAt w Q) a)
    (fun a => 0 < partners on (rows Q) a) fun p hp => ?_
  by_cases hm : 0 < partners on (rows Q) p.1
  · rw [if_pos hm]
    obtain ⟨q, hq, hpq⟩ := (partners_rows_pos on Q p.1).mp hm
    have seen : ∀ q ∈ Q, on p.1 q.1 → q.2 ∈ sR (keyL p.1) := by
      intro q hq hpq
      rw [hon _ _ hpq]
      exact hQ q hq
    have one := hs _ _ (hP p hp) _ (seen q hq hpq) _ (seen q hq hpq)
    rw [← one]
    refine Finset.sum_congr rfl fun w hw => ?_
    by_cases hqw : 0 < q.2 w
    · rw [if_pos ((partners_seenAt_pos on w Q p.1).mpr ⟨q, hq, hqw, hpq⟩), if_pos (.inl hqw)]
    rw [if_neg (show ¬(0 < q.2 w ∨ 0 < q.2 w) by simpa using hqw)]
    split
    · -- another partner is seen here: the row itself is not, or two partners would see it twice
      rename_i hex
      obtain ⟨q', hq', hqw', hpq'⟩ := (partners_seenAt_pos on w Q p.1).mp hex
      have both := hs _ _ (hP p hp) _ (seen q hq hpq) _ (seen q' hq' hpq')
      have le : ∀ v ∈ S, (if 0 < q.2 v ∨ 0 < q.2 v then p.2 v else 0) ≤
          if 0 < q.2 v ∨ 0 < q'.2 v then p.2 v else 0 := by
        intro v _
        by_cases hv : 0 < q.2 v <;> simp [hv]
      have eq := (Finset.sum_eq_sum_iff_of_le le).mp (one.trans both.symm) w hw
      simpa [hqw, hqw'] using eq.symm
    · rfl
  · rw [if_neg hm]
    refine Finset.sum_eq_zero fun w _ => if_neg fun hw => hm ?_
    obtain ⟨q, hq, -, hpq⟩ := (partners_seenAt_pos on w Q p.1).mp hw
    exact (partners_rows_pos on Q p.1).mpr ⟨q, hq, hpq⟩

theorem SeenOnce.distributes (hs : SeenOnce S sL) (hc : Covered S sL sR)
    (hon : ∀ a b, on a b → keyL a = keyR b) (hP : Admissible keyL sL P)
    (hQ : Admissible keyR sR Q) :
    ∑ w ∈ S, unmatched on (seenAt w P) (seenAt w Q) = unmatched on (rows P) (rows Q) := by
  refine filter_distributes S P (fun w a => partners on (seenAt w Q) a = 0)
    (fun a => partners on (rows Q) a = 0) fun p hp => ?_
  by_cases hm : partners on (rows Q) p.1 = 0
  · rw [if_pos hm, ← hs _ _ (hP p hp)]
    refine Finset.sum_congr rfl fun w _ => if_pos (Nat.eq_zero_of_not_pos fun hw => ?_)
    obtain ⟨q, hq, -, hpq⟩ := (partners_seenAt_pos on w Q p.1).mp hw
    exact ((partners_rows_pos on Q p.1).mpr ⟨q, hq, hpq⟩).ne' hm
  · rw [if_neg hm]
    obtain ⟨q, hq, hpq⟩ := (partners_rows_pos on Q p.1).mp (Nat.pos_of_ne_zero hm)
    have hqs : q.2 ∈ sR (keyL p.1) := by
      rw [hon _ _ hpq]
      exact hQ q hq
    refine Finset.sum_eq_zero fun w hw => ?_
    split
    · rename_i hno
      by_contra hpw
      have hqw := hc _ _ (hP p hp) _ hqs w hw (Nat.pos_of_ne_zero hpw)
      exact ((partners_seenAt_pos on w Q p.1).mpr ⟨q, hq, hqw, hpq⟩).ne' hno
    · rfl

theorem sum_map_of_sum {γ δ : Type} {f : ω → Multiset γ} {A : Multiset γ} (g : γ → δ)
    (h : ∑ w ∈ S, f w = A) : ∑ w ∈ S, (f w).map g = A.map g := by
  rw [← h]
  exact (map_sum (mapAddMonoidHom g) _ _).symm

theorem PartSafe.distributes {p : Part} (hs : PartSafe S sL sR p)
    (hon : ∀ a b, on a b → keyL a = keyR b) (hP : Admissible keyL sL P)
    (hQ : Admissible keyR sR Q) :
    ∑ w ∈ S, part on (seenAt w P) (seenAt w Q) p = part on (rows P) (rows Q) p := by
  have flip : ∀ b a, on a b → keyR b = keyL a := fun b a h => (hon a b h).symm
  cases p with
  | pairs =>
    refine pairs_distributes S on P Q fun p hp q hq hpq => hs _ _ (hP p hp) _ ?_
    rw [hon _ _ hpq]
    exact hQ q hq
  | leftMatched => exact sum_map_of_sum _ (MatchOnce.distributes hs hon hP hQ)
  | leftUnmatched => exact sum_map_of_sum _ (SeenOnce.distributes hs.1 hs.2 hon hP hQ)
  | rightMatched => exact sum_map_of_sum _ (MatchOnce.distributes hs flip hQ hP)
  | rightUnmatched => exact sum_map_of_sum _ (SeenOnce.distributes hs.1 hs.2 flip hQ hP)

theorem joinDistributes_of_safe {type : JoinType} (hs : ∀ p ∈ type.parts, PartSafe S sL sR p) :
    JoinDistributes S sL sR type := by
  intro α β keyL keyR on hon P Q hP hQ
  have part_eq : ∀ p ∈ type.parts, ∑ w ∈ S, part on (seenAt w P) (seenAt w Q) p =
      part on (rows P) (rows Q) p :=
    fun p hp => (hs p hp).distributes hon hP hQ
  unfold joinOver join
  generalize type.parts = ps at part_eq
  induction ps with
  | nil => simp
  | cons p ps ih =>
    simp only [List.map_cons, List.sum_cons, Finset.sum_add_distrib]
    rw [part_eq p (by simp), ih fun q hq => part_eq q (by simp [hq])]

end Sufficiency

section Necessity

def Part.shape : Part → Option Unit × Option Unit
  | .pairs => (some (), some ())
  | .leftMatched | .leftUnmatched => (some (), none)
  | .rightMatched | .rightUnmatched => (none, some ())

/-- The size of a part when each side has one kind of row, `n` on the left and `m` on the right,
and they all match or none does. -/
def Part.size (b : Bool) (n m : ℕ) : Part → ℕ
  | .pairs => if b then n * m else 0
  | .leftMatched => if b ∧ 0 < m then n else 0
  | .leftUnmatched => if b ∧ 0 < m then 0 else n
  | .rightMatched => if b ∧ 0 < n then m else 0
  | .rightUnmatched => if b ∧ 0 < n then 0 else m

theorem partners_replicate (b : Bool) (m : ℕ) :
    partners (fun _ _ : Unit => b) (Multiset.replicate m ()) () = if b then m else 0 := by
  cases b <;> simp [partners]

attribute [local simp] Part.size Part.shape

theorem part_replicate (b : Bool) (n m : ℕ) (p : Part) :
    part (fun _ _ : Unit => b) (Multiset.replicate n ()) (Multiset.replicate m ()) p =
      Multiset.replicate (p.size b n m) p.shape := by
  have filtered : ∀ (c : Unit → Prop) [DecidablePred c] (n : ℕ),
      (replicate n ()).filter c = replicate (if c () then n else 0) () := by
    intro c _ n
    by_cases hc : c () <;> simp [hc]
  cases p with
  | pairs => cases b <;> simp [part, pairs, pair, nsmul_singleton, nsmul_replicate]
  | leftMatched | rightMatched => cases b <;> simp [part, matched, filtered, partners_replicate]
  | leftUnmatched | rightUnmatched =>
    simp only [part, unmatched, filtered, partners_replicate, map_replicate]
    cases b <;> cases m <;> cases n <;> simp

variable {type : JoinType} {p : Part}

theorem count_join (b : Bool) (n m : ℕ) (hp : p ∈ type.parts) :
    (join (fun _ _ : Unit => b) type (Multiset.replicate n ()) (Multiset.replicate m ())).count
      p.shape = p.size b n m := by
  cases type <;> simp only [JoinType.parts, List.mem_cons, List.not_mem_nil, or_false] at hp <;>
    rcases hp with rfl | rfl | rfl <;>
    simp [join, JoinType.parts, part_replicate, count_replicate]

theorem seenAt_units (w : ω) (P : Multiset (ω → ℕ)) :
    seenAt w (P.map fun s => ((), s)) = Multiset.replicate (P.map fun s => s w).sum () := by
  induction P using Multiset.induction with
  | empty => simp
  | cons s P ih => simp [ih, nsmul_singleton, replicate_add]

theorem rows_units (P : Multiset (ω → ℕ)) :
    rows (P.map fun s => ((), s)) = Multiset.replicate (Multiset.card P) () := by
  simp [rows, map_const']

variable {S sL sR} in
theorem JoinDistributes.size_eq {type : JoinType} (h : JoinDistributes S sL sR type) {p : Part}
    (hp : p ∈ type.parts) (b : Bool) {k : κ} {P Q : Multiset (ω → ℕ)}
    (hP : ∀ s ∈ P, s ∈ sL k) (hQ : ∀ t ∈ Q, t ∈ sR k) :
    ∑ w ∈ S, p.size b (P.map fun s => s w).sum (Q.map fun t => t w).sum =
      p.size b (Multiset.card P) (Multiset.card Q) := by
  have eq := h Unit Unit (fun _ => k) (fun _ => k) (fun _ _ => b) (fun _ _ _ => rfl)
    (P.map fun s => ((), s)) (Q.map fun t => ((), t))
    (by simpa [Admissible] using hP) (by simpa [Admissible] using hQ)
  have counted := congrArg (count p.shape) eq
  simpa only [joinOver, seenAt_units, rows_units, count_sum', count_join b _ _ hp]
    using counted

variable {S sL sR} in
/-- One row against one or two partners, or against none, tells every part's condition. -/
theorem JoinDistributes.partSafe (h : JoinDistributes S sL sR type) (hp : p ∈ type.parts) :
    PartSafe S sL sR p := by
  have size_eq := fun k P Q => h.size_eq hp true (k := k) (P := P) (Q := Q)
  cases p with
  | pairs =>
    intro k s hs t ht
    simpa using size_eq k {s} {t} (by simpa using hs) (by simpa using ht)
  | leftMatched =>
    intro k s hs t ht t' ht'
    simpa using size_eq k {s} {t, t'} (by simpa using hs) (by simp [ht, ht'])
  | leftUnmatched =>
    constructor
    · intro k s hs
      simpa using size_eq k {s} 0 (by simpa using hs) (by simp)
    · intro k s hs t ht w hw hsw
      have none := size_eq k {s} {t} (by simpa using hs) (by simpa using ht)
      by_contra htw
      have := Finset.sum_eq_zero_iff.mp (none.trans (by simp)) w hw
      simp [htw] at this
      omega
  | rightMatched =>
    intro k t ht s hs s' hs'
    simpa using size_eq k {s, s'} {t} (by simp [hs, hs']) (by simpa using ht)
  | rightUnmatched =>
    constructor
    · intro k t ht
      simpa using size_eq k 0 {t} (by simp) (by simpa using ht)
    · intro k t ht s hs w hw htw
      have none := size_eq k {s} {t} (by simpa using hs) (by simpa using ht)
      by_contra hsw
      have := Finset.sum_eq_zero_iff.mp (none.trans (by simp)) w hw
      simp [hsw] at this
      omega

theorem joinDistributes_iff (type : JoinType) :
    JoinDistributes S sL sR type ↔ ∀ p ∈ type.parts, PartSafe S sL sR p :=
  ⟨fun h _ hp => h.partSafe hp, joinDistributes_of_safe⟩

end Necessity

section Lost

def Part.swap : Part → Part
  | .pairs => .pairs
  | .leftMatched => .rightMatched
  | .leftUnmatched => .rightUnmatched
  | .rightMatched => .leftMatched
  | .rightUnmatched => .leftUnmatched

theorem partSafe_swap (p : Part) : PartSafe S sL sR p ↔ PartSafe S sR sL p.swap := by
  cases p with
  | pairs =>
    have comm (s t : ω → ℕ) : ∑ w ∈ S, s w * t w = ∑ w ∈ S, t w * s w :=
      Finset.sum_congr rfl fun w _ => Nat.mul_comm _ _
    exact ⟨fun h k s hs t ht => comm s t ▸ h k t ht s hs,
      fun h k s hs t ht => comm s t ▸ h k t ht s hs⟩
  | leftMatched | leftUnmatched | rightMatched | rightUnmatched => exact Iff.rfl

variable {S sL sR} {k : κ}

/-- A row that no worker sees spoils every part, as soon as there can be a partner. -/
theorem not_partSafe_of_lost (hs : 0 ∈ sL k) {t : ω → ℕ} (ht : t ∈ sR k) (p : Part) :
    ¬PartSafe S sL sR p := by
  cases p with
  | pairs =>
    intro h
    simpa using h k 0 hs t ht
  | leftMatched =>
    intro h
    simpa using h k 0 hs t ht t ht
  | leftUnmatched =>
    intro h
    simpa using h.1 k 0 hs
  | rightMatched =>
    intro h
    simpa using h k t ht 0 hs 0 hs
  | rightUnmatched =>
    intro h
    have none : ∀ w ∈ S, t w = 0 := fun w hw => by
      simpa using h.2 k t ht 0 hs w hw
    have one := h.1 k t ht
    rw [Finset.sum_eq_zero none] at one
    cases one

theorem partSafe_of_vacant (hR : ∀ k, sR k = ∅) {p : Part} (hp : p ≠ .leftUnmatched) :
    PartSafe S sL sR p := by
  have none : ∀ k, ∀ t, t ∉ sR k := fun k t => by simp [hR k]
  cases p with
  | pairs | leftMatched => exact fun k s _ t ht => absurd ht (none k t)
  | leftUnmatched => exact absurd rfl hp
  | rightMatched => exact fun k t ht => absurd ht (none k t)
  | rightUnmatched => exact ⟨fun k t ht => absurd ht (none k t), fun k t ht => absurd ht (none k t)⟩

/-- With a row of the left bag lost, the join is right only if there can be no rows on the right
and it puts out no unmatched rows of the left bag. -/
theorem joinDistributes_of_lost (hs : 0 ∈ sL k) (hR : (sR k).Nonempty ∨ ∀ k, sR k = ∅)
    (type : JoinType) :
    JoinDistributes S sL sR type ↔ (∀ k, sR k = ∅) ∧ .leftUnmatched ∉ type.parts := by
  rw [joinDistributes_iff]
  constructor
  · intro h
    have vacant : ∀ k, sR k = ∅ := by
      refine hR.resolve_left fun hne => ?_
      obtain ⟨t, ht⟩ := hne
      obtain ⟨p, hp⟩ : ∃ p, p ∈ type.parts := by cases type <;> exact ⟨_, List.mem_cons_self⟩
      exact not_partSafe_of_lost hs ht p (h p hp)
    refine ⟨vacant, fun hmem => ?_⟩
    simpa using (h _ hmem).1 k 0 hs
  · rintro ⟨vacant, hmem⟩ p hp
    refine partSafe_of_vacant vacant ?_
    rintro rfl
    exact hmem hp

def JoinType.swap : JoinType → JoinType
  | .inner => .inner
  | .cross => .cross
  | .left => .right
  | .right => .left
  | .full => .full
  | .leftSemi => .rightSemi
  | .rightSemi => .leftSemi
  | .leftAnti => .rightAnti
  | .rightAnti => .leftAnti

theorem mem_parts_swap (type : JoinType) (p : Part) :
    p ∈ type.swap.parts ↔ p.swap ∈ type.parts := by
  cases type <;> cases p <;> decide

theorem joinDistributes_swap (type : JoinType) :
    JoinDistributes S sL sR type ↔ JoinDistributes S sR sL type.swap := by
  rw [joinDistributes_iff, joinDistributes_iff]
  constructor
  · intro h p hp
    rw [partSafe_swap]
    exact h _ ((mem_parts_swap type p).mp hp)
  · intro h p hp
    rw [partSafe_swap]
    refine h _ ((mem_parts_swap type p.swap).mpr ?_)
    cases p <;> exact hp

end Lost

end Sights

end Leibrix.PlacedJoin
