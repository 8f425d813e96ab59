import Leibrix.EpochCalls

/-!
# A call that is alone on its key

While no other call of its key is under way, what a call has sent tells what the engine
holds for the key, and what it returns tells whether the epoch was committed.
-/

set_option autoImplicit false

namespace Leibrix.EpochAlone
open EpochEngine EpochEffects EpochCalls Function

variable {ι : Type}

def Free (e : EngineState ι) (κ : String) : Prop :=
  e.inProgress κ = none ∧ e.committed κ = none

def Kept (e : EngineState ι) (κ : String) : Prop :=
  e.inProgress κ = none ∧ (e.committed κ).isSome

/-- What the engine knows of a call that is alone on its key after some of its commands. -/
def Sending (e : EngineState ι) (c : Call) (i : ι) (sent : Nat) : Prop :=
  sent ≤ (c.commands i).length ∧
    if sent = 0 then Free e c.key
    else if sent < (c.commands i).length then
      e.committed c.key = none ∧
        ((e.inProgress c.key = none ∧ ∃ error, e.replies i = some (.error error)) ∨
          ∃ ep, e.inProgress c.key = some ep ∧ ep.done = i)
    else
      (Kept e c.key ∧ ∃ metadata, e.replies i = some (.ok metadata)) ∨
        (Free e c.key ∧ ∃ error, e.replies i = some (.error error))

variable {e e' : EngineState ι} {c : Call} {i : ι} {sent : Nat}

theorem Sending.frame (h : Sending e c i sent)
    (hprogress : e'.inProgress c.key = e.inProgress c.key)
    (hcommitted : e'.committed c.key = e.committed c.key) (hreply : e'.replies i = e.replies i) :
    Sending e' c i sent := by
  simp only [Sending, Free, Kept, hprogress, hcommitted, hreply] at h ⊢
  exact h

variable {n : Nat} {com : EngineCom ι}

theorem commands_length (herror : streamError c.stream = none)
    (hcom : (c.commands i)[n]? = some com) :
    c.ends ∧ (c.commands i).length = c.batches.length + 2 := by
  have batches : c.batches ≠ [] := by
    intro h
    simp [Call.commands, h] at hcom
  have ends : c.ends := by
    simp only [Call.ends, Bool.and_eq_true, Bool.not_eq_true', Option.isNone_iff_eq_none]
    refine ⟨?_, herror⟩
    cases hstream : c.stream with
    | nil => simp [Call.batches, hstream, okBatches] at batches
    | cons item rest => rfl
  obtain ⟨schema, hcommands⟩ := commands_eq c i batches
  exact ⟨ends, by simp [hcommands, ends]⟩

theorem sending_step [DecidableEq ι] (herror : streamError c.stream = none) (h : Sending e c i sent)
    (hcom : (c.commands i)[sent]? = some com) (effect : Effect e com e') :
    Sending e' c i (sent + 1) := by
  obtain ⟨-, hlength⟩ := commands_length herror hcom
  have below := (List.getElem?_eq_some_iff.mp hcom).1
  obtain ⟨-, h⟩ := h
  refine ⟨below, ?_⟩
  rw [if_neg (Nat.succ_ne_zero sent)]
  -- who opened the epoch that is open after the start
  have owner : ∀ {ep : EpochInProgress ι}, sent ≠ 0 → e.inProgress c.key = some ep →
      e.committed c.key = none ∧ ep.done = i := by
    intro ep started hep
    rw [if_neg started, if_pos below] at h
    refine ⟨h.1, ?_⟩
    rcases h.2 with ⟨hnone, -⟩ | ⟨now, hnow, howner⟩
    · cases hnone.symm.trans hep
    · cases hep.symm.trans hnow
      exact howner
  rcases commands_cases c i hcom with
    ⟨rfl, schema, rfl⟩ | ⟨k, batch, rfl, hbatch, rfl⟩ | ⟨-, hsent, hlast, rfl⟩
  · rw [if_pos rfl] at h
    rw [if_pos (by omega)]
    cases effect with
    | refused error => exact ⟨h.2, .inl ⟨h.1, error, update_self _ _ _⟩⟩
    | opened => exact ⟨h.2, .inr ⟨_, update_self _ _ _, rfl⟩⟩
  · have some_batch := (List.getElem?_eq_some_iff.mp hbatch).1
    rw [if_pos (by omega)]
    cases effect with
    | ignored => rwa [if_neg (Nat.succ_ne_zero k), if_pos below] at h
    | ingested hep _ hdone =>
      obtain ⟨uncommitted, own⟩ := owner (Nat.succ_ne_zero k) hep
      exact ⟨uncommitted, .inr ⟨_, update_self _ _ _, hdone.trans own⟩⟩
  · have started : sent ≠ 0 := by omega
    rw [if_neg (by omega)]
    cases effect with
    | idle free =>
      rw [if_neg started, if_pos below] at h
      rcases h.2 with ⟨-, hreply⟩ | ⟨now, hnow, -⟩
      · exact .inr ⟨⟨free, h.1⟩, hreply⟩
      · cases free.symm.trans hnow
    | failed hep _ error =>
      obtain ⟨uncommitted, rfl⟩ := owner started hep
      exact .inr ⟨⟨update_self _ _ _, uncommitted⟩, error, update_self _ _ _⟩
    | finished hep _ metadata =>
      obtain ⟨-, rfl⟩ := owner started hep
      exact .inl ⟨⟨update_self _ _ _, by simp⟩, metadata, update_self _ _ _⟩

/-- Once all commands are sent, what the call returns says what the engine holds. -/
theorem sending_returned (herror : streamError c.stream = none) (h : Sending e c i sent)
    (hover : (c.commands i)[sent]? = none) {result : Except StorageError TableMetadata}
    (hresult : c.returned (e.replies i) = some result) :
    (∃ metadata, result = .ok metadata ∧ Kept e c.key) ∨
      ∃ error, result = .error error ∧ Free e c.key := by
  have complete : sent = (c.commands i).length :=
    Nat.le_antisymm h.1 (List.getElem?_eq_none_iff.mp hover)
  have state := h.2
  cases hstream : c.stream with
  | nil =>
    have silent : sent = 0 := by
      rw [complete]
      simp [Call.commands, Call.batches, hstream, okBatches]
    rw [if_pos silent] at state
    rw [Call.returned, hstream] at hresult
    cases hresult
    exact .inr ⟨_, rfl, state⟩
  | cons item rest =>
    have ends : c.ends := by
      rw [hstream] at herror
      simp [Call.ends, herror, hstream]
    obtain ⟨schema, hcommands⟩ := commands_eq c i (batches_of_ends ends)
    have sent_some : sent ≠ 0 := by
      rw [complete, hcommands]
      simp
    rw [returned_of_ends ends] at hresult
    rw [if_neg sent_some, if_neg (by omega), hresult] at state
    rcases state with ⟨kept, metadata, hreply⟩ | ⟨free, error, hreply⟩
    · cases hreply
      exact .inl ⟨metadata, rfl, kept⟩
    · cases hreply
      exact .inr ⟨error, rfl, free⟩

theorem effect_replies [DecidableEq ι] (hcom : (c.commands i)[n]? = some com)
    (effect : Effect e com e') {j : ι} (hsender : j ≠ i)
    (howner : ∀ ep, e.inProgress c.key = some ep → ep.done ≠ j) : e'.replies j = e.replies j := by
  rcases commands_cases c i hcom with
    ⟨-, schema, rfl⟩ | ⟨k, batch, -, -, rfl⟩ | ⟨-, -, -, rfl⟩ <;> cases effect
  case refused => exact update_of_ne hsender _ _
  case failed hep | finished hep => exact update_of_ne (howner _ hep).symm _ _
  all_goals rfl

/-- An open epoch was opened by the sender, under the key of its call, or was open before. -/
theorem effect_owner [DecidableEq ι] (hcom : (c.commands i)[n]? = some com)
    (effect : Effect e com e') {κ : String} {ep : EpochInProgress ι}
    (hep : e'.inProgress κ = some ep) :
    (ep.done = i ∧ κ = c.key) ∨
      ∃ before, e.inProgress κ = some before ∧ before.done = ep.done := by
  rcases commands_cases c i hcom with
    ⟨-, schema, rfl⟩ | ⟨k, batch, -, -, rfl⟩ | ⟨-, -, -, rfl⟩ <;> cases effect
  case refused | ignored | idle => exact .inr ⟨ep, hep, rfl⟩
  all_goals
    rcases ne_or_eq κ c.key with hκ | rfl
    · exact .inr ⟨ep, (update_of_ne hκ _ _).symm.trans hep, rfl⟩
    simp only [Call.key, update_self, Option.some.injEq, reduceCtorEq] at hep
  · exact .inl ⟨hep ▸ rfl, rfl⟩
  · subst hep
    exact .inr ⟨_, ‹_›, Eq.symm ‹_›⟩

end Leibrix.EpochAlone
