import Leibrix.PlanSubmissions

/-!
# Moves of the coordinator

What a move does to one execution, to one cancellation and to the status of one stage.
-/

set_option autoImplicit false

namespace Leibrix.CoordinatorMoves
open PlanExecution Runs

variable {cfg : Config} {shards : Shards} {s s' : State shards.count} {m : Move}

variable {n : Nat}

section Executions

variable {i : Nat} {e e' : Execution}

/-- What a move does to an execution. -/
inductive Moved (cfg : Config) (m : Move) (i : Nat) (e : Execution) : Execution → Prop
  | same : Moved cfg m i e e
  | staged (position : Nat) (answer : Answer) (hm : m = .stage i position answer) :
      Moved cfg m i e (e.stageStep cfg position answer).1
  | proceeded {next : Execution × Effect} (h : Proceeds e next) : Moved cfg m i e next.1
  | stopped (h : e.phase = .failing) : Moved cfg m i e { e with phase := .ended }
  | streamed (position : Nat) (ok : Bool) : Moved cfg m i e (e.streamEnds position ok)

theorem streamEnds_eq (e : Execution) (position : Nat) (ok : Bool) :
    ∃ streams, e.streamEnds position ok = { e with streams := streams } ∧
      (e.streams = [] → streams = []) := by
  unfold Execution.streamEnds
  split
  · exact ⟨_, rfl, fun h => by simp [h]⟩
  · exact ⟨e.streams, rfl, id⟩

theorem Moved.frame (h : Moved cfg m i e e') : e'.plan = e.plan ∧ e'.queryId = e.queryId := by
  cases h with
  | same | stopped => exact ⟨rfl, rfl⟩
  | staged position answer =>
    rcases stageStep_cases cfg e position answer with heq | ⟨stages, rest, k, p, -, -, heq⟩ <;>
      rw [heq] <;> exact ⟨rfl, rfl⟩
  | proceeded h =>
    cases h with
    | streams next hphase hplan hquery => exact ⟨hplan, hquery⟩
    | _ => exact ⟨rfl, rfl⟩
  | streamed position ok =>
    obtain ⟨streams, heq, -⟩ := streamEnds_eq e position ok
    rw [heq]
    exact ⟨rfl, rfl⟩

theorem executions_apply (s : State n) (i : Nat) (queryId : String) (effect : Effect) :
    (s.apply i queryId effect).executions = s.executions := by
  cases effect with
  | cancelQuery =>
    simp only [State.apply]
    split <;> rfl
  | _ => rfl

theorem executions_cancelStep (s : State shards.count) (caller : Caller)
    (c : CancelCall shards.count) :
    (s.cancelStep cfg shards caller c).executions = s.executions := by
  unfold State.cancelStep
  split
  case h_3 =>
    unfold State.cancelStage
    split
    · rfl
    · split <;> rfl
  all_goals rfl

theorem executions_stepped (h : Stepped cfg shards s m s') (i : Nat) :
    Entry (fun e => ∃ queryId plan keys, e = .new cfg queryId plan keys) (Moved cfg m i)
      (s.executions i) (s'.executions i) := by
  have same : ∀ e, Moved cfg m i e e := fun _ => .same
  cases h with
  | idle | monitors | starts | sends => exact .same same _
  | cancels =>
    rw [executions_cancelStep]
    exact .same same _
  | executes k queryId plan keys hk =>
    refine .set same ?_
    rintro rfl
    exact hk ▸ .started ⟨queryId, plan, keys, rfl⟩
  | stages k e position answer he =>
    simp only [State.setExecution, executions_apply]
    refine .set same ?_
    rintro rfl
    exact he ▸ .changed (.staged position answer rfl)
  | proceeds k e collected next he hnext =>
    simp only [State.setExecution, executions_apply]
    refine .set same ?_
    rintro rfl
    exact he ▸ .changed (.proceeded hnext)
  | stops k e collected he hphase =>
    refine .set same ?_
    rintro rfl
    exact he ▸ .changed (.stopped hphase)
  | streams k e position ok he =>
    refine .set same ?_
    rintro rfl
    exact he ▸ .changed (.streamed position ok)

theorem moved_step (cfg : Config) (he : s.executions i = some e) (m : Move) :
    ∃ e', (s.step cfg shards m).executions i = some e' ∧ Moved cfg m i e e' :=
  (he ▸ executions_stepped (stepped_step cfg shards s m) i).after

theorem step_stage (he : s.executions i = some e) (position : Nat) (answer : Answer) :
    s.step cfg shards (.stage i position answer) =
      (s.apply i e.queryId (e.stageStep cfg position answer).2).setExecution i
        (e.stageStep cfg position answer).1 := by
  simp only [State.step, he]

end Executions

section Cancellations

variable {caller : Caller} {c c' : CancelCall shards.count}

/-- What a step of a cancellation makes of its call. -/
def next (cfg : Config) (shards : Shards) (s : State shards.count)
    (c : CancelCall shards.count) : CancelCall shards.count :=
  match c.place with
  | .scanning (shard::rest) found =>
    { c with place := .scanning rest (found ++ s.inFlight shards c.queryId shard) }
  | .scanning [] found => { c with place := .cancelling found found }
  | .cancelling (_::left) found =>
    { c with
      place := .cancelling left found
      tasks := if cfg.distributed then c.tasks ++ [.spawned] else c.tasks }
  | .cancelling [] found => { c with place := .clearingStatus (List.finRange shards.count) found }
  | .clearingStatus (_::rest) found => { c with place := .clearingStatus rest found }
  | .clearingStatus [] found =>
    { c with place := .clearingMonitors (List.finRange shards.count) found }
  | .clearingMonitors (_::rest) found => { c with place := .clearingMonitors rest found }
  | .clearingMonitors [] found | .returned found => { c with place := .returned found }

theorem cancels_cancelStage (s : State n) (caller : Caller) (c : CancelCall n) (k : Nat)
    (place : Canceller n) :
    (s.cancelStage cfg caller c k place).cancels = (s.setCancel caller { c with
      place := place
      tasks := if cfg.distributed then c.tasks ++ [.spawned] else c.tasks }).cancels := by
  unfold State.cancelStage
  by_cases hd : cfg.distributed = true
  · simp only [hd, if_true]
  · simp only [hd, Bool.false_eq_true, if_false]
    split <;> rfl

theorem cancels_cancelStep (hc : s.cancels caller = some c) :
    (s.cancelStep cfg shards caller c).cancels =
      (s.setCancel caller (next cfg shards s c)).cancels := by
  obtain ⟨queryId, place, tasks⟩ := c
  match place with
  | .scanning [] _ | .scanning (_::_) _ | .cancelling [] _ | .clearingStatus [] _
  | .clearingStatus (_::_) _ | .clearingMonitors [] _ | .clearingMonitors (_::_) _ => rfl
  | .cancelling (k::left) found => exact cancels_cancelStage _ _ _ _ _
  | .returned found =>
    funext k
    by_cases hk : k = caller
    · subst hk
      simpa [State.setCancel, next, State.cancelStep] using hc
    · simp [State.setCancel, State.cancelStep, hk]

/-- What a move does to a cancellation. -/
inductive CancelMoved (cfg : Config) (shards : Shards) (s : State shards.count)
    (c : CancelCall shards.count) : CancelCall shards.count → Prop
  | same : CancelMoved cfg shards s c c
  | stepped : CancelMoved cfg shards s c (next cfg shards s c)
  | sent (task : Nat) (connected : Bool) : CancelMoved cfg shards s c
      { c with tasks := c.tasks.modify task (·.step cfg connected) }

theorem cancels_stepped (h : Stepped cfg shards s m s') (caller : Caller) :
    Entry (fun c => ∃ queryId, c = .new shards.count queryId) (CancelMoved cfg shards s)
      (s.cancels caller) (s'.cancels caller) := by
  have same : ∀ c, CancelMoved cfg shards s c c := fun _ => .same
  have applied : ∀ i queryId effect,
      Entry (fun c => ∃ queryId, c = .new shards.count queryId) (CancelMoved cfg shards s)
        (s.cancels caller) ((s.apply i queryId effect).cancels caller) := by
    intro i queryId effect
    cases effect with
    | cancelQuery =>
      simp only [State.apply]
      split
      · exact .same same _
      · next hnone =>
        refine .set same ?_
        rintro rfl
        exact Option.not_isSome_iff_eq_none.mp hnone ▸ .started ⟨queryId, rfl⟩
    | _ => exact .same same _
  cases h with
  | idle | executes | stops | streams | monitors => exact .same same _
  | stages | proceeds => exact applied _ _ _
  | starts j queryId hnone =>
    refine .set same ?_
    rintro rfl
    exact hnone ▸ .started ⟨queryId, rfl⟩
  | cancels caller' c hc =>
    rw [cancels_cancelStep hc]
    refine .set same ?_
    rintro rfl
    exact hc ▸ .changed .stepped
  | sends caller' c task connected hc =>
    refine .set same ?_
    rintro rfl
    exact hc ▸ .changed (.sent task connected)

theorem cancelMoved_step (cfg : Config) (hc : s.cancels caller = some c) (m : Move) :
    ∃ c', (s.step cfg shards m).cancels caller = some c' ∧ CancelMoved cfg shards s c c' :=
  (hc ▸ cancels_stepped (stepped_step cfg shards s m) caller).after

end Cancellations

section Statuses

variable {key : StageKey} {status : StageStatus}

theorem status_setStageStatus {s : State n} {key' : StageKey} {status' : StageStatus}
    (h : (key, status) ∈ (s.setStageStatus key' status').stageStatus) :
    (key, status) ∈ s.stageStatus ∨ (key = key' ∧ status = status') := by
  rcases List.mem_cons.mp h with heq | hmem
  · cases heq
    exact .inr ⟨rfl, rfl⟩
  · exact .inl (List.mem_filter.mp hmem).1

theorem status_cancelStep {caller : Caller} {c : CancelCall shards.count}
    (h : (key, status) ∈ (s.cancelStep cfg shards caller c).stageStatus) :
    (key, status) ∈ s.stageStatus := by
  obtain ⟨queryId, place, tasks⟩ := c
  match place with
  | .scanning [] _ | .scanning (_::_) _ | .cancelling [] _ | .clearingStatus [] _
  | .clearingMonitors [] _ | .clearingMonitors (_::_) _ | .returned _ => exact h
  | .clearingStatus (_::_) _ => exact (List.mem_filter.mp h).1
  | .cancelling (k::left) found =>
    simp only [State.cancelStep, State.cancelStage] at h
    split at h
    · exact h
    · split at h <;> exact h

theorem status_step (h : Stepped cfg shards s m s') (hstatus : (key, status) ∈ s'.stageStatus) :
    (key, status) ∈ s.stageStatus ∨ status = .completed ∨ cfg.distributed = true := by
  cases h with
  | idle | executes | stops | streams | monitors | starts | sends => exact .inl hstatus
  | cancels => exact .inl (status_cancelStep hstatus)
  | stages i e position answer he =>
    rcases stageStep_cases cfg e position answer with heq | ⟨stages, rest, k, p, -, -, heq⟩
    · rw [heq] at hstatus
      exact .inl hstatus
    · rw [heq] at hstatus
      by_cases hd : cfg.distributed = true
      · exact .inr (.inr hd)
      · simp only [hd, Bool.false_and, Bool.false_eq_true, if_false] at hstatus
        exact .inl hstatus
  | proceeds i e collected next he hnext =>
    cases hnext with
    | notes k left rest hphase =>
      rcases status_setStageStatus hstatus with h | ⟨-, h⟩
      · exact .inl h
      · exact .inr (.inl h)
    | fails =>
      simp only [State.apply] at hstatus
      split at hstatus <;> exact .inl hstatus
    | _ => exact .inl hstatus

end Statuses

end Leibrix.CoordinatorMoves
