import Leibrix.DispatcherEvict
import Mathlib.Algebra.BigOperators.Group.List.Basic

/-!
# Answers to assignments

Each assignment that the dispatcher takes owes one final status until it is reported. The
receive task owes it first and hands it on to the load task. An assignment that meets an
eviction is dropped without one, and so is a load that is evicted.
-/

set_option autoImplicit false

namespace Leibrix.DispatcherAnswers
open Dispatcher DispatcherKeys DispatcherCalm Runs
open DispatcherEvict (oneLoader salesAssignment salesKey assigned nextKey loadedInTurns
  quiet_loadedInTurns)
open List

variable {l : Loader} {o : Outcome} {s : State}

section Task

def owes : TaskPc → Nat
  | .dropping | .dropMacro | .clearing | .finished => 0
  | _ => 1

def gives : TaskPc → Nat
  | .reportCompleted | .reportFailed _ => 1
  | _ => 0

def answers (s : State) (k : EpochKey) : Nat :=
  s.reported.countP fun update => update.key = k ∧ update.status ≠ .inProgress

def Undisturbed (o : Outcome) (s : State) (t : Task) : Prop :=
  match t.pc with
  | .queued => o.permit = true
  | .loaded (.ok _) => s.phases t.key ≠ some .evicting
  | _ => True

@[simp] theorem reportStatus_draining (s : State) (o : Outcome) (key : EpochKey)
    (status : LoadStatus) (error : Option String) :
    (s.reportStatus o key status error).draining = s.draining := by
  unfold State.reportStatus
  split <;> rfl

theorem answers_report (s : State) (hdelivers : o.delivers = true)
    (key k : EpochKey) (status : LoadStatus) (error : Option String) :
    answers (s.reportStatus o key status error) k =
      answers s k + if key = k ∧ status ≠ .inProgress then 1 else 0 := by
  simp [answers, State.reportStatus, hdelivers, countP_cons]

/-- What a step of a task does to the phases, the tasks and the reports. A phase is written with
the step that ends the task's work on it. -/
structure TaskMove (o : Outcome) (s s' : State) (i : Nat) (t : Task) (pc : TaskPc) : Prop where
  tasks : s'.tasks = s.tasks.set i { t with pc := pc }
  receiver : s'.receiver = s.receiver
  draining : s'.draining = s.draining
  phases : (s'.phases = s.phases ∧ busy pc = busy t.pc) ∨
    (busy t.pc = true ∧ busy pc = false ∧
      ∃ phase, s'.phases = Function.update s.phases t.key phase)
  answers : o.delivers = true → ∀ k,
    answers s' k = answers s k + if t.key = k then gives t.pc else 0
  owes : Undisturbed o s t → owes t.pc = owes pc + gives t.pc

variable {i : Nat} {t : Task} {pc : TaskPc}

theorem move_same {s₁ : State} (howes : Undisturbed o s t → owes t.pc = owes pc := by intros; rfl)
    (htasks : s₁.tasks = s.tasks := by rfl) (hreceiver : s₁.receiver = s.receiver := by rfl)
    (hdraining : s₁.draining = s.draining := by rfl) (hphases : s₁.phases = s.phases := by rfl)
    (hreported : s₁.reported = s.reported := by rfl) (hbusy : busy pc = busy t.pc := by rfl)
    (hgives : gives t.pc = 0 := by rfl) : TaskMove o s (s₁.setPc i t pc) i t pc where
  tasks := by rw [State.setPc, htasks]
  receiver := hreceiver
  draining := hdraining
  phases := .inl ⟨hphases, hbusy⟩
  answers _ k := by simp [answers, State.setPc, hreported, hgives]
  owes h := by rw [howes h, hgives]; rfl

theorem move_phase (phase : Option EpochPhase)
    (howes : Undisturbed o s t → owes t.pc = owes pc := by intros; rfl)
    (hbusy : busy t.pc = true := by rfl) (hdone : busy pc = false := by rfl)
    (hgives : gives t.pc = 0 := by rfl) :
    TaskMove o s ((s.setPhase t.key phase).setPc i t pc) i t pc where
  tasks := rfl
  receiver := rfl
  draining := rfl
  phases := .inr ⟨hbusy, hdone, phase, rfl⟩
  answers _ k := by simp [answers, State.setPc, State.setPhase, hgives]
  owes h := by rw [howes h, hgives]; rfl

theorem move_report (status : LoadStatus) (error : Option String) (hbusy : busy pc = busy t.pc)
    (howes : Undisturbed o s t → owes t.pc = owes pc + gives t.pc)
    (hgives : gives t.pc = if status ≠ .inProgress then 1 else 0) :
    TaskMove o s ((s.reportStatus o t.key status error).setPc i t pc) i t pc where
  tasks := by rw [State.setPc, reportStatus_tasks]
  receiver := reportStatus_receiver ..
  draining := reportStatus_draining ..
  phases := .inl ⟨reportStatus_phases .., hbusy⟩
  answers h k := by
    refine (answers_report s h t.key k status error).trans ?_
    rw [hgives, ite_and]
  owes := howes

variable (l o) in
theorem taskStep_move (ht : s.tasks[i]? = some t) :
    ∃ pc, TaskMove o s (taskStep l o s i t) i t pc := by
  -- a step that waits leaves everything as it is
  have stays (hgives : gives t.pc = 0) : TaskMove o s s i t t.pc := by
    obtain ⟨hi, rfl⟩ := List.getElem?_eq_some_iff.mp ht
    exact ⟨(set_getElem_self hi).symm, rfl, rfl, .inl ⟨rfl, rfl⟩, by simp [hgives],
      by simp [hgives]⟩
  obtain ⟨request, column, pc⟩ := t
  unfold taskStep
  cases pc with
  | queued =>
    simp only
    split
    · exact ⟨_, move_report _ _ rfl (fun _ => rfl) rfl⟩
    · rename_i hpermit
      exact ⟨_, move_phase _ (fun h => absurd h hpermit)⟩
  | loading sent =>
    simp only
    split
    · exact ⟨_, move_same⟩
    split
    · exact ⟨_, move_same⟩
    split
    · exact ⟨_, move_same⟩
    · exact ⟨_, stays rfl⟩
  | loaded result =>
    cases result with
    | error e => exact ⟨_, move_phase _⟩
    | ok metadata =>
      simp only
      split
      · rename_i hevicting
        exact ⟨_, move_same (fun h => absurd hevicting h)⟩
      split <;> exact ⟨_, move_same⟩
  | dropping =>
    simp only
    split
    · exact ⟨_, move_same⟩
    split <;> exact ⟨_, move_same⟩
  | dropMacro | registering => exact ⟨_, move_same⟩
  | updatingMacro =>
    simp only
    split <;> exact ⟨_, move_same⟩
  | clearing | publishing | retracting message => exact ⟨_, move_phase _⟩
  | reportCompleted | reportFailed message => exact ⟨_, move_report _ _ rfl (fun _ => rfl) rfl⟩
  | finished => exact ⟨_, stays rfl⟩

end Task

section Answers

variable {k : EpochKey}

def receiverOwes (k : EpochKey) : Receiver → Nat
  | .reporting key _ => if key = k then 1 else 0
  | .marking a | .converting a => if a.key = k then 1 else 0
  | _ => 0

def taskOwes (k : EpochKey) (t : Task) : Nat := if t.key = k then owes t.pc else 0

def balance (s : State) (k : EpochKey) : Nat :=
  answers s k + receiverOwes k s.receiver + (s.tasks.map (taskOwes k)).sum

def taken (s : State) : Move → Option EpochKey
  | .receive (.assignment a) =>
    match s.receiver with
    | .idle => some a.key
    | _ => none
  | _ => none

def handled (l : Loader) (k : EpochKey) : State → List Move → Nat
  | _, [] => 0
  | s, m::moves => (if taken s m = some k then 1 else 0) + handled l k (step l s m) moves

/-- Updates arrive, no assignment comes for a key that is being evicted, every load gets its permit
and none is evicted. -/
def Undisturbing (s : State) : Move → Prop
  | .receive (.assignment a) => s.draining = false → s.phases a.key ≠ some .evicting
  | .receive _ => True
  | .receiver o => o.delivers = true
  | .task i o => o.delivers = true ∧ ∀ t, s.tasks[i]? = some t → Undisturbed o s t

theorem sum_set {tasks : List Task} {i : Nat} {t : Task} (h : tasks[i]? = some t) (u : Task)
    (f : Task → Nat) : ((tasks.set i u).map f).sum + f t = (tasks.map f).sum + f u := by
  induction tasks generalizing i with
  | nil => cases h
  | cons x tasks ih =>
    cases i with
    | zero =>
      cases h
      simp only [set_cons_zero, map_cons, sum_cons]
      omega
    | succ i =>
      have rest := ih (i := i) h
      simp only [set_cons_succ, map_cons, sum_cons]
      omega

theorem task_balance {i : Nat} {t : Task} (ht : s.tasks[i]? = some t)
    (hdelivers : o.delivers = true) (h : Undisturbed o s t) :
    balance (taskStep l o s i t) k = balance s k := by
  obtain ⟨pc, move⟩ := taskStep_move l o ht
  have sums := sum_set ht { t with pc := pc } (taskOwes k)
  have paid : taskOwes k t =
      taskOwes k { t with pc := pc } + if t.key = k then gives t.pc else 0 := by
    have own : Task.key { t with pc := pc } = t.key := rfl
    rw [taskOwes, taskOwes, own, move.owes h]
    split_ifs <;> rfl
  simp only [balance, move.answers hdelivers k, move.receiver, move.tasks]
  omega

attribute [local simp] receiverOwes balance taken

theorem receiver_balance (hdelivers : o.delivers = true) :
    balance (receiverStep o s) k = balance s k := by
  fun_cases receiverStep o s
  case case2 key message hr _ =>
    have told := answers_report s hdelivers key k .failed (some message)
    have same : balance { s.reportStatus o key .failed (some message) with receiver := .idle } k =
        answers (s.reportStatus o key .failed (some message)) k + 0 +
          ((s.reportStatus o key .failed (some message)).tasks.map (taskOwes k)).sum := rfl
    rw [same, told, reportStatus_tasks, balance, hr]
    simp
  case case5 a hr request hrequest =>
    have own : Task.key ⟨request, a.timeColumnName, .queued⟩ = a.key := request_key hrequest
    simp [answers, taskOwes, owes, hr, own]
    omega
  all_goals simp [answers, *] <;> rfl

theorem receive_balance {command : ControlCommand} (h : Undisturbing s (.receive command)) :
    balance (receive s command) k =
      balance s k + if taken s (.receive command) = some k then 1 else 0 := by
  unfold receive
  cases hr : s.receiver with
  | idle =>
    cases command with
    | assignment a =>
      simp only [taken, hr, Option.some.injEq]
      split
      · simp [answers, hr]
        omega
      · rename_i hdraining
        rw [if_neg (h (by simpa using hdraining))]
        simp [answers, hr]
        omega
    | evictEpoch key reason | drain => simp [answers, hr]
    | unknown eventType => simp
  | _ => cases command <;> simp [hr]

theorem balance_run {moves : List Move} (along : Along (step l) Undisturbing s moves) :
    balance (run (step l) s moves) k = balance s k + handled l k s moves := by
  induction moves generalizing s with
  | nil => rfl
  | cons m moves ih =>
    obtain ⟨hm, along⟩ := along
    have one : balance (step l s m) k = balance s k + if taken s m = some k then 1 else 0 := by
      cases m with
      | receive command => exact receive_balance hm
      | receiver o => exact receiver_balance hm
      | task i o =>
        simp only [step]
        split
        · rename_i t ht
          exact task_balance ht hm.1 (hm.2 t ht)
        · rfl
    rw [run_cons, ih along, one, handled]
    omega

theorem owed_quiet (quiet : Quiet s) : balance s k = answers s k := by
  have none : (s.tasks.map (taskOwes k)).sum = 0 := by
    apply sum_eq_zero
    intro n hn
    obtain ⟨t, ht, rfl⟩ := mem_map.mp hn
    simp [taskOwes, owes, quiet.2 t ht]
  rw [balance, none, quiet.1]
  rfl

/-- Without evictions of keys that are loading, and with all permits and updates, every assignment
that was taken has one final status once all tasks have finished. -/
theorem assignments_answered {moves : List Move} (along : Along (step l) Undisturbing initial moves)
    (quiet : Quiet (run (step l) initial moves)) (k : EpochKey) :
    answers (run (step l) initial moves) k = handled l k initial moves := by
  have total := balance_run (k := k) along
  rw [owed_quiet quiet] at total
  have nothing : balance initial k = 0 := rfl
  omega

theorem assignments_answered_in_turns :
    answers (run (step oneLoader) initial loadedInTurns) salesKey = 1 ∧
      answers (run (step oneLoader) initial loadedInTurns) nextKey = 1 := by
  have task : ∀ (i : Nat) (s : State) (t : Task), s.tasks[i]? = some t → Undisturbed {} s t →
      Undisturbing s (.task i {}) :=
    fun i s t ht h => ⟨rfl, fun u hu => Option.some.inj (ht.symm.trans hu) ▸ h⟩
  have unlike : some EpochPhase.loading ≠ some .evicting := by decide
  have along : Along (step oneLoader) Undisturbing initial loadedInTurns :=
    ⟨fun _ => nofun, rfl, rfl, fun _ => nofun, rfl, rfl,
      task 0 _ _ rfl rfl, task 1 _ _ rfl rfl, task 0 _ _ rfl trivial, task 1 _ _ rfl trivial,
      task 0 _ _ rfl trivial, task 1 _ _ rfl trivial, task 0 _ _ rfl trivial,
      task 1 _ _ rfl trivial, task 0 _ _ rfl trivial, task 1 _ _ rfl trivial,
      task 0 _ _ rfl unlike, task 1 _ _ rfl unlike, task 0 _ _ rfl trivial,
      task 1 _ _ rfl trivial, task 0 _ _ rfl trivial, task 1 _ _ rfl trivial,
      task 0 _ _ rfl trivial, task 1 _ _ rfl trivial, task 0 _ _ rfl trivial,
      task 1 _ _ rfl trivial, trivial⟩
  rw [assignments_answered along quiet_loadedInTurns,
    assignments_answered along quiet_loadedInTurns]
  exact ⟨rfl, rfl⟩

/-- The load is evicted while it waits, and the epoch is assigned again. -/
def evictedAndAssigned : List Move :=
  assigned ++ [.receive (.evictEpoch salesKey "retention"), .receiver {},
    .receive (.assignment salesAssignment)] ++ List.replicate 9 (.task 0 {})

/-- Neither of the two assignments gets a final status. -/
theorem evicted_load_unanswered :
    Quiet (run (step oneLoader) initial evictedAndAssigned) ∧
    handled oneLoader salesKey initial evictedAndAssigned = 2 ∧
    answers (run (step oneLoader) initial evictedAndAssigned) salesKey = 0 := by
  refine ⟨⟨rfl, fun t ht => ?_⟩, rfl, rfl⟩
  cases ht with
  | head => rfl
  | tail _ h => cases h

end Answers

end Leibrix.DispatcherAnswers
