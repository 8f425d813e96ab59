import Leibrix.DispatcherAnswers

/-!
# Waiting for a drain

A drain waits until no phase is loading. A task that has still to write its phase may stand
under another one: an eviction changes the phase while the load goes on.
-/

set_option autoImplicit false

namespace Leibrix.DispatcherDrain
open Dispatcher DispatcherKeys DispatcherCalm Runs
open DispatcherAnswers
open DispatcherEvict (oneLoader salesKey assigned nextKey loadedInTurns
  quiet_loadedInTurns)
open Function

section Drain

variable {l : Loader} {o : Outcome} {s s' : State} {k : EpochKey} {i : Nat} {t : Task} {pc : TaskPc}

/-- `wait_for_drain` finds no load in progress. -/
def Drained (s : State) : Prop := ∀ k, s.phases k ≠ some .loading

/-- An assignment comes only for a key that no task is loading. -/
def Apart (s : State) : Move → Prop
  | .receive (.assignment a) => NoBusy s a.key
  | _ => True

def InHand (s : State) : Receiver → Prop
  | .marking a => NoBusy s a.key ∧ s.draining = false
  | .converting a => NoBusy s a.key ∧ s.draining = false ∧ Marked s a.key
  | .evicting key phase => phase = some .active ∨ phase = none → NoBusy s key
  | _ => True

/-- The phase of a key tells of the task that has still to write it, and there is one at most. -/
structure Tracked (s : State) : Prop where
  marked : ∀ (i : Nat) (t : Task), s.tasks[i]? = some t → busy t.pc = true → Marked s t.key
  alone : ∀ (i j : Nat) (t u : Task), s.tasks[i]? = some t → s.tasks[j]? = some u →
    busy t.pc = true → busy u.pc = true → t.key = u.key → i = j
  inHand : InHand s s.receiver

theorem tracked_initial : Tracked initial := ⟨by simp [initial], by simp [initial], trivial⟩

theorem Tracked.noBusy (h : Tracked s) (hk : ¬ Marked s k) : NoBusy s k := by
  intro i t ht own
  by_contra working
  exact hk (own ▸ h.marked i t ht (by simpa using working))

theorem taskMove_before (move : TaskMove o s s' i t pc) (ht : s.tasks[i]? = some t) {j : Nat}
    {u : Task} (hu : s'.tasks[j]? = some u) (hbusy : busy u.pc = true) :
    ∃ u₀, s.tasks[j]? = some u₀ ∧ busy u₀.pc = true ∧ u₀.key = u.key := by
  rw [move.tasks] at hu
  rcases getElem?_set_cases hu with ⟨rfl, rfl⟩ | ⟨-, hu⟩
  · refine ⟨t, ht, ?_, rfl⟩
    rcases move.phases with ⟨-, same⟩ | ⟨-, done, -⟩
    · exact same ▸ hbusy
    · exact absurd hbusy (by simp [done])
  · exact ⟨u, hu, hbusy, rfl⟩

theorem taskMove_noBusy (move : TaskMove o s s' i t pc) (ht : s.tasks[i]? = some t)
    (h : NoBusy s k) : NoBusy s' k := by
  intro j u hu own
  by_contra working
  obtain ⟨u₀, hu₀, hbusy, same⟩ := taskMove_before move ht hu (by simpa using working)
  exact absurd hbusy (by simp [h j u₀ hu₀ (same.trans own)])

theorem taskMove_marked (move : TaskMove o s s' i t pc)
    (hk : busy t.pc = true → busy pc = false → t.key ≠ k) (h : Marked s k) : Marked s' k := by
  rcases move.phases with ⟨same, -⟩ | ⟨hbusy, done, phase, same⟩
  · rwa [Marked, same]
  · rwa [Marked, same, update_of_ne (hk hbusy done).symm]

variable (h : Tracked s)
include h

theorem tracked_task (ht : s.tasks[i]? = some t) (move : TaskMove o s s' i t pc) : Tracked s' := by
  refine ⟨fun j u hu hbusy => ?_, fun j₁ j₂ u₁ u₂ hu₁ hu₂ hbusy₁ hbusy₂ same => ?_, ?_⟩
  · obtain ⟨u₀, hu₀, hbusy₀, own⟩ := taskMove_before move ht hu hbusy
    refine taskMove_marked move (fun working done same => ?_) (own ▸ h.marked j u₀ hu₀ hbusy₀)
    -- a task that writes the phase is the only one of its key, and is done with it
    have here := h.alone i j t u₀ ht hu₀ working hbusy₀ (same.trans own.symm)
    subst here
    rw [move.tasks, getElem?_set_here ht] at hu
    cases hu
    simp [done] at hbusy
  · obtain ⟨v₁, hv₁, working₁, own₁⟩ := taskMove_before move ht hu₁ hbusy₁
    obtain ⟨v₂, hv₂, working₂, own₂⟩ := taskMove_before move ht hu₂ hbusy₂
    exact h.alone _ _ v₁ v₂ hv₁ hv₂ working₁ working₂ (own₁.trans (same.trans own₂.symm))
  · have inHand := h.inHand
    rw [move.receiver]
    cases hr : s.receiver with
    | marking a =>
      rw [hr] at inHand
      exact ⟨taskMove_noBusy move ht inHand.1, move.draining.trans inHand.2⟩
    | converting a =>
      rw [hr] at inHand
      obtain ⟨nobody, undrained, marked⟩ := inHand
      refine ⟨taskMove_noBusy move ht nobody, move.draining.trans undrained,
        taskMove_marked move ?_ marked⟩
      exact fun working _ own => absurd working (by simp [nobody i t ht own])
    | evicting key phase =>
      rw [hr] at inHand
      exact fun resting => taskMove_noBusy move ht (inHand resting)
    | _ => trivial

theorem Tracked.write (nobody : NoBusy s k) (hinHand : InHand s' s'.receiver := by trivial)
    (htasks : s'.tasks = s.tasks := by rfl) (hphases : ∀ κ, κ ≠ k → s'.phases κ = s.phases κ := by
      exact fun κ hκ => Function.update_of_ne hκ _ _) : Tracked s' := by
  refine ⟨fun i t ht hbusy => ?_, fun i j t u ht hu => ?_, hinHand⟩
  · rw [htasks] at ht
    have other : t.key ≠ k := fun own => absurd hbusy (by simp [nobody i t ht own])
    rw [Marked, hphases t.key other]
    exact h.marked i t ht hbusy
  · rw [htasks] at ht hu
    exact h.alone i j t u ht hu

theorem Tracked.keep (hinHand : InHand s' s'.receiver := by trivial)
    (htasks : s'.tasks = s.tasks := by rfl) (hphases : s'.phases = s.phases := by rfl) :
    Tracked s' := by
  refine ⟨fun i t ht hbusy => ?_, fun i j t u ht hu => ?_, hinHand⟩
  · rw [Marked, hphases]
    exact h.marked i t (htasks ▸ ht) hbusy
  · exact h.alone i j t u (htasks ▸ ht) (htasks ▸ hu)

theorem Tracked.spawn (nobody : NoBusy s k) (marked : Marked s k) (own : t.key = k) :
    Tracked { s with tasks := s.tasks ++ [t], receiver := .idle } := by
  refine ⟨fun j u hu hbusy => ?_, fun i j u v hu hv hbusy hbusy' same => ?_, trivial⟩
  · rcases getElem?_append_cases hu with hu | ⟨-, rfl⟩
    · exact h.marked j u hu hbusy
    · exact own ▸ marked
  · rcases getElem?_append_cases hu with old | ⟨hi, rfl⟩ <;>
      rcases getElem?_append_cases hv with old' | ⟨hj, rfl⟩
    · exact h.alone i j u v old old' hbusy hbusy' same
    · exact absurd hbusy (by simp [nobody i u old (same.trans own)])
    · exact absurd hbusy' (by simp [nobody j v old' (same.symm.trans own)])
    · exact hi.trans hj.symm

theorem Tracked.evict (key : EpochKey) :
    Tracked { s.setPhase key (some .evicting) with receiver := .idle } := by
  refine ⟨fun i t ht hbusy => ?_, h.alone, trivial⟩
  by_cases own : t.key = key
  · exact .inr (own ▸ update_self _ _ _)
  · exact (h.marked i t ht hbusy).imp (update_of_ne own _ _).trans
      (update_of_ne own _ _).trans

theorem tracked_receiver : Tracked (receiverStep o s) := by
  have inHand := h.inHand
  fun_cases receiverStep o s <;> rw [‹s.receiver = _›] at inHand
  case case1 => exact h
  case case2 => exact h.keep trivial (reportStatus_tasks ..) (reportStatus_phases ..)
  case case3 => exact h.write inHand.1 ⟨inHand.1, inHand.2, .inl (update_self _ _ _)⟩
  case case4 => exact h.write inHand.1
  case case5 hrequest => exact h.spawn inHand.1 inHand.2.2 (request_key hrequest)
  case case6 => exact h.evict _
  case case8 => exact h.write (inHand (.inl rfl))
  case case9 => exact h.write (inHand (.inr rfl))
  all_goals exact h.keep

theorem tracked_receive {command : ControlCommand} (apart : Apart s (.receive command)) :
    Tracked (receive s command) := by
  revert apart
  fun_cases receive s command <;> intro apart
  case case1 => exact h.keep
  case case5 hr => exact h.keep (by simp only [hr]; trivial)
  case case3 hdraining _ => exact h.keep ⟨apart, by simpa using hdraining⟩
  case case4 =>
    refine h.keep fun resting => h.noBusy ?_
    rintro (loading | evicting)
    · simp [loading] at resting
    · simp [evicting] at resting
  all_goals exact h

omit h

theorem tracked_step {m : Move} (h : Tracked s) (apart : Apart s m) : Tracked (step l s m) := by
  cases m with
  | receive command => exact tracked_receive h apart
  | receiver o => exact tracked_receiver h
  | task i o =>
    simp only [step]
    split
    · rename_i t ht
      obtain ⟨pc, move⟩ := taskStep_move l o ht
      exact tracked_task h ht move
    · exact h

/-- All loads have ended and none will be started. -/
structure Still (n : Nat) (s : State) : Prop where
  draining : s.draining = true
  receiver : ∀ a, s.receiver ≠ .marking a ∧ s.receiver ≠ .converting a
  length : s.tasks.length = n
  ended : ∀ t ∈ s.tasks, t.pc = .finished

variable {n : Nat}

theorem Still.keep (h : Still n s) (hdraining : s'.draining = s.draining := by rfl)
    (hreceiver : ∀ a, s'.receiver ≠ .marking a ∧ s'.receiver ≠ .converting a := by simp)
    (htasks : s'.tasks = s.tasks := by rfl) : Still n s' :=
  ⟨hdraining.trans h.draining, hreceiver, htasks ▸ h.length, htasks ▸ h.ended⟩

theorem still_receiver (h : Still n s) (o : Outcome) : Still n (receiverStep o s) := by
  fun_cases receiverStep o s
  case case1 => exact h
  case case2 => exact h.keep (reportStatus_draining ..) (by simp) (reportStatus_tasks ..)
  case case3 => exact absurd ‹_› (h.receiver _).1
  case case4 | case5 => exact absurd ‹_› (h.receiver _).2
  all_goals exact h.keep

theorem still_receive (h : Still n s) (command : ControlCommand) : Still n (receive s command) := by
  fun_cases receive s command
  case case1 | case4 => exact h.keep
  case case3 hdraining _ => exact absurd h.draining hdraining
  case case5 => exact h.keep h.draining.symm h.receiver
  all_goals exact h

/-- A task that has ended does nothing. -/
theorem still_task (h : Still n s) (i : Nat) (o : Outcome) : step l s (.task i o) = s := by
  simp only [step]
  split
  · rename_i t ht
    rw [taskStep, h.ended t (List.mem_of_getElem? ht)]
  · rfl

theorem still_step (h : Still n s) (m : Move) : Still n (step l s m) := by
  cases m with
  | receive command => exact still_receive h command
  | receiver o => exact still_receiver h o
  | task i o => rwa [still_task h i o]

/-- From here on no load task runs or writes to storage, and none is started. -/
def Stopped (l : Loader) (s : State) : Prop :=
  ∀ more, let s' := run (step l) s more
    s'.tasks.length = s.tasks.length ∧ (∀ t ∈ s'.tasks, t.pc = .finished) ∧
      ∀ i o, (step l s' (.task i o)).engine = s'.engine

theorem Still.stopped (h : Still s.tasks.length s) : Stopped l s := by
  intro more
  have after : Still s.tasks.length (run (step l) s more) :=
    run_invariant (I := Still s.tasks.length) (fun _ m h => still_step h m) h more
  exact ⟨after.length, after.ended, fun i o => by rw [still_task after]⟩

/-- The task has written its last phase and has still to report. -/
def reporting : TaskPc → Bool
  | .reportCompleted | .reportFailed _ => true
  | _ => false

theorem finished_of_idle (idle : busy pc = false) (told : reporting pc = false) :
    pc = .finished := by
  cases pc <;> simp_all [busy, reporting]

/-- No task has still to report, and none that is at work has its key evicted. -/
def Settled (s : State) : Prop :=
  ∀ t ∈ s.tasks, reporting t.pc = false ∧ (busy t.pc = true → s.phases t.key ≠ some .evicting)

/-- If no assignment comes for a key that is being loaded, then a drain that is over has waited
for all loads exactly if none has still to report and none at work is being evicted. -/
theorem drain_waits_iff {moves : List Move} (apart : Along (step l) Apart initial moves)
    (draining : (run (step l) initial moves).draining = true)
    (drained : Drained (run (step l) initial moves)) :
    Stopped l (run (step l) initial moves) ↔ Settled (run (step l) initial moves) := by
  have tracked : Tracked (run (step l) initial moves) :=
    run_kept (I := Tracked) (fun _ _ => tracked_step) tracked_initial apart
  constructor
  · intro stopped t ht
    have ended : t.pc = .finished := (stopped []).2.1 t ht
    simp [ended, reporting, busy]
  · intro settled
    refine Still.stopped ⟨draining, fun a => ⟨fun hr => ?_, fun hr => ?_⟩, rfl, fun t ht => ?_⟩
    · have inHand := tracked.inHand
      rw [hr] at inHand
      simp [inHand.2] at draining
    · have inHand := tracked.inHand
      rw [hr] at inHand
      simp [inHand.2.1] at draining
    · obtain ⟨told, unevicted⟩ := settled t ht
      refine finished_of_idle (Bool.eq_false_iff.mpr fun working => ?_) told
      obtain ⟨i, hi⟩ := List.mem_iff_getElem?.mp ht
      -- a task at work is marked as loading, which the wait excludes, or as evicting
      rcases tracked.marked i t hi working with loading | evicting
      · exact drained t.key loading
      · exact unevicted working evicting

theorem drain_waits_iff_loaded :
    Stopped oneLoader (run (step oneLoader) initial (loadedInTurns ++ [.receive .drain])) := by
  have apart : Along (step oneLoader) Apart initial (loadedInTurns ++ [.receive .drain]) := by
    refine ⟨by simp [Apart, NoBusy, initial], trivial, trivial, fun i t ht own => ?_, trivial,
      trivial, trivial, trivial, trivial, trivial, trivial, trivial, trivial, trivial, trivial,
      trivial, trivial, trivial, trivial, trivial, trivial, trivial, trivial, trivial, trivial,
      trivial, trivial, trivial⟩
    cases i with
    | zero =>
      cases ht
      exact absurd own (by decide)
    | succ i => cases ht
  have phases : (run (step oneLoader) initial (loadedInTurns ++ [.receive .drain])).phases =
      update (update (update (update (fun _ => none) salesKey (some .loading)) nextKey
        (some .loading)) salesKey (some .active)) nextKey (some .active) := rfl
  have drained : Drained (run (step oneLoader) initial (loadedInTurns ++ [.receive .drain])) := by
    intro k
    rw [phases]
    by_cases hn : k = nextKey
    · simp [hn]
    · rw [update_of_ne hn]
      by_cases hk : k = salesKey
      · simp [hk]
      · simp [hn, hk]
  refine (drain_waits_iff apart rfl drained).mpr fun t ht => ?_
  have ended : t.pc = .finished := quiet_loadedInTurns.2 t ht
  simp [ended, reporting, busy]

def evictedAndDrained : List Move :=
  assigned ++ [.receive (.evictEpoch salesKey "retention"), .receiver {}, .receive .drain]

/-- The drain does not wait for the load, and it goes on to commit its epoch. -/
theorem drain_misses_evicted_load :
    Drained (run (step oneLoader) initial evictedAndDrained) ∧
    (run (step oneLoader) initial evictedAndDrained).draining ∧
    ((run (step oneLoader) (run (step oneLoader) initial evictedAndDrained)
      (List.replicate 5 (.task 0 {}))).engine.committed salesKey.engineKey).isSome := by
  refine ⟨fun k => ?_, rfl, rfl⟩
  have phases : (run (step oneLoader) initial evictedAndDrained).phases =
      update (update (fun _ => none) salesKey (some .loading)) salesKey
        (some .evicting) := rfl
  rw [phases]
  by_cases hk : k = salesKey
  · simp [hk]
  · simp [hk]

end Drain

end Leibrix.DispatcherDrain
