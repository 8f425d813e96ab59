import Mathlib.Data.List.Basic

/-!
# Runs of a step function

A run takes a list of moves one after another. What each step keeps, a run keeps; a
condition on the moves may look at the state in which a move is made. A step starts an entry
of a table or changes the one that is there.
-/

set_option autoImplicit false

namespace Leibrix.Runs

variable {σ α : Type} (step : σ → α → σ)

def run (s : σ) (moves : List α) : σ := moves.foldl step s

@[simp] theorem run_nil (s : σ) : run step s [] = s := rfl

@[simp] theorem run_cons (s : σ) (m : α) (moves : List α) :
    run step s (m::moves) = run step (step s m) moves := rfl

theorem run_append (s : σ) (moves more : List α) :
    run step s (moves ++ more) = run step (run step s moves) more :=
  List.foldl_append

/-- Every move is made in a state that allows it. -/
def Along (allowed : σ → α → Prop) : σ → List α → Prop
  | _, [] => True
  | s, m::moves => allowed s m ∧ Along allowed (step s m) moves

variable {step}

variable {allowed : σ → α → Prop} {I : σ → Prop} {s : σ} {moves : List α}

theorem run_kept (kept : ∀ s m, I s → allowed s m → I (step s m)) (h : I s)
    (along : Along step allowed s moves) : I (run step s moves) := by
  induction moves generalizing s with
  | nil => exact h
  | cons m moves ih => exact ih (kept s m h along.1) along.2

theorem along_append (allowed : σ → α → Prop) (s : σ) (moves more : List α) :
    Along step allowed s (moves ++ more) ↔
      Along step allowed s moves ∧ Along step allowed (run step s moves) more := by
  induction moves generalizing s with
  | nil => exact ⟨fun h => ⟨trivial, h⟩, And.right⟩
  | cons m moves ih => rw [List.cons_append, Along, Along, run_cons, ih, and_assoc]

theorem along_and {also : σ → α → Prop} (h : Along step allowed s moves)
    (h' : Along step also s moves) : Along step (fun s m => allowed s m ∧ also s m) s moves := by
  induction moves generalizing s with
  | nil => trivial
  | cons m moves ih => exact ⟨⟨h.1, h'.1⟩, ih h.2 h'.2⟩

theorem along_of_forall (h : ∀ m ∈ moves, ∀ s, allowed s m) (s : σ) :
    Along step allowed s moves := by
  induction moves generalizing s with
  | nil => trivial
  | cons m moves ih =>
    exact ⟨h m List.mem_cons_self s, ih (fun m hm => h m (List.mem_cons_of_mem _ hm)) _⟩

theorem run_invariant (kept : ∀ s m, I s → I (step s m)) (h : I s) (moves : List α) :
    I (run step s moves) := by
  induction moves generalizing s with
  | nil => exact h
  | cons m moves ih => exact ih (kept s m h)

section Entries

variable {κ β : Type} [DecidableEq κ] {new : β → Prop} {moved : β → β → Prop}

/-- What a step makes of an entry of a table. -/
inductive Entry (new : β → Prop) (moved : β → β → Prop) : Option β → Option β → Prop
  | none : Entry new moved none none
  | started {b : β} (h : new b) : Entry new moved none (some b)
  | changed {a b : β} (h : moved a b) : Entry new moved (some a) (some b)

namespace Entry

theorem same (h : ∀ a, moved a a) (o : Option β) : Entry new moved o o := by
  cases o with
  | none => exact .none
  | some a => exact .changed (h a)

variable {o : Option β}

theorem set {f : κ → Option β} {i k : κ} (h : ∀ a, moved a a)
    (hk : i = k → Entry new moved (f i) o) :
    Entry new moved (f i) (if i = k then o else f i) := by
  split_ifs with hi
  · exact hk hi
  · exact same h _

theorem before {b : β} (h : Entry new moved o (some b)) :
    (∃ a, o = some a ∧ moved a b) ∨ (o = Option.none ∧ new b) := by
  cases h with
  | started h => exact .inr ⟨rfl, h⟩
  | changed h => exact .inl ⟨_, rfl, h⟩

theorem after {a : β} (h : Entry new moved (some a) o) : ∃ b, o = some b ∧ moved a b := by
  cases h with
  | changed h => exact ⟨_, rfl, h⟩

end Entry

end Entries

end Leibrix.Runs
