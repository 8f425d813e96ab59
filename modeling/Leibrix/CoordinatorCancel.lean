import Leibrix.CoordinatorMoves

/-!
# What a cancellation of a query stops

A stage is found by a cancellation exactly while its status says that it is running, which
only distributed executions note. What an execution has left to submit, it submits.
-/

set_option autoImplicit false

namespace Leibrix.CoordinatorCancel
open LdpTypes LdpCut PlanExecution PlanSubmissions CoordinatorMoves Runs StageRetry List

variable {cfg : Config} {e e' : Execution} {shards : Shards} {s s' : State shards.count} {i : Nat}

variable {m : Move}

theorem quiet_moved (h : Quiet cfg e.plan e.phase) (hmoved : Moved cfg m i e e') :
    Quiet cfg e'.plan e'.phase ∧ e'.submissions = e.submissions := by
  rw [hmoved.frame.1]
  cases hmoved with
  | same => exact ⟨h, rfl⟩
  | staged position answer => exact h.stageStep position answer
  | proceeded hnext => exact h.proceeds hnext
  | stopped => exact ⟨trivial, rfl⟩
  | streamed position ok =>
    obtain ⟨streams, heq, -⟩ := streamEnds_eq e position ok
    rw [heq]
    exact ⟨h, rfl⟩

def NoFurther (cfg : Config) (shards : Shards) (s : State shards.count) (i : Nat)
    (e : Execution) : Prop :=
  ∀ moves e', (run (State.step cfg shards) s moves).executions i = some e' →
    e'.submissions = e.submissions

theorem noFurther_of_quiet (he : s.executions i = some e) (h : Quiet cfg e.plan e.phase) :
    NoFurther cfg shards s i e := by
  intro moves e' he'
  induction moves generalizing s e with
  | nil =>
    cases he.symm.trans he'
    rfl
  | cons m moves ih =>
    obtain ⟨x, hx, moved⟩ := moved_step cfg he m
    have next := quiet_moved h moved
    exact (ih hx next.1 he').trans next.2

def Batch (e : Execution) : Prop := ¬ Streaming e.phase ∧ e.streams = []

theorem batch_startBatch (e : Execution) (h : e.streams = []) : Batch e.startBatch := by
  have streams : e.startBatch.streams = e.streams := by
    unfold Execution.startBatch
    split <;> rfl
  refine ⟨?_, streams.trans h⟩
  obtain ⟨-, -, hended | ⟨levels, -, hphase⟩⟩ := startBatch_phase e
  · rw [hended]
    exact id
  · rw [hphase]
    exact id

theorem batch_new (hd : cfg.distributed = true) (queryId : String) (plan : LdpPlan)
    (keys : List Nat) : Batch (.new cfg queryId plan keys) := by
  have batch : (cfg.enableStreamingPipeline && !cfg.distributed) = false := by simp [hd]
  simp only [Execution.new, batch, Bool.false_eq_true, if_false]
  exact batch_startBatch _ rfl

theorem Batch.moved (h : Batch e) (hmoved : Moved cfg m i e e') : Batch e' := by
  cases hmoved with
  | same => exact h
  | staged position answer =>
    rcases stageStep_cases cfg e position answer with heq | ⟨_, _, _, _, -, -, heq⟩ <;> rw [heq]
    · exact h
    · exact ⟨id, h.2⟩
  | proceeded hnext =>
    cases hnext with
    | waits => exact h
    | streams next hphase => exact absurd hphase h.1
    | _ => exact ⟨id, h.2⟩
  | stopped => exact ⟨id, h.2⟩
  | streamed position ok =>
    obtain ⟨streams, heq, hnil⟩ := streamEnds_eq e position ok
    rw [heq]
    exact ⟨h.1, hnil h.2⟩

variable {queryId : String} {k : Nat} {caller : Caller} {c c' : CancelCall shards.count}

def Covers (workers : List WorkerId) : CancelTask → Prop
  | .spawned => True
  | .sending left tried => ∀ w ∈ workers, w ∈ left ∨ ∃ sent, (w, sent) ∈ tried

theorem covers_step {task : CancelTask} (h : Covers cfg.workerIds task) (connected : Bool) :
    Covers cfg.workerIds (task.step cfg connected) := by
  match task, h with
  | .spawned, _ => exact fun w hw => .inl hw
  | .sending [] tried, h => exact h
  | .sending (worker::left) tried, h =>
    intro w hw
    rcases h w hw with hleft | ⟨sent, htried⟩
    · rcases mem_cons.mp hleft with rfl | hleft
      · exact .inr ⟨connected, by simp⟩
      · exact .inl hleft
    · exact .inr ⟨sent, mem_append_left _ htried⟩

def Scanned (shards : Shards) (c : CancelCall shards.count) : Prop :=
  match c.place with
  | .scanning left found => left.Nodup ∧ ∀ k ∈ found, shards.status (c.queryId, k) ∉ left
  | _ => True

theorem mem_inFlight {shard : Fin shards.count} :
    k ∈ s.inFlight shards queryId shard ↔
      ((queryId, k), .running) ∈ s.stageStatus ∧ shards.status (queryId, k) = shard := by
  rw [State.inFlight, (shards.order.perm _).mem_iff]
  constructor
  · intro h
    obtain ⟨⟨⟨q, k'⟩, status⟩, hentry, rfl⟩ := mem_map.mp h
    obtain ⟨hmem, hmatch⟩ := mem_filter.mp hentry
    simp only [decide_eq_true_eq] at hmatch
    obtain ⟨rfl, rfl, hshard⟩ := hmatch
    exact ⟨hmem, hshard⟩
  · rintro ⟨hmem, hshard⟩
    exact mem_map.mpr ⟨((queryId, k), .running),
      mem_filter.mpr ⟨hmem, by simp [hshard]⟩, rfl⟩

theorem Scanned.moved (h : Scanned shards c) (hmoved : CancelMoved cfg shards s c c') :
    Scanned shards c' := by
  cases hmoved with
  | same | sent => exact h
  | stepped =>
    obtain ⟨queryId, place, tasks⟩ := c
    match place, h with
    | .scanning (shard::rest) found, h =>
      obtain ⟨hnodup, hfound⟩ := h
      refine ⟨(nodup_cons.mp hnodup).2, fun k hk => ?_⟩
      rcases mem_append.mp hk with hk | hk
      · exact fun hmem => hfound k hk (mem_cons_of_mem _ hmem)
      · have hshard : shards.status (queryId, k) = shard := (mem_inFlight.mp hk).2
        exact fun hmem => (nodup_cons.mp hnodup).1 (hshard ▸ hmem)
    | .scanning [] _, _ | .cancelling [] _, _ | .cancelling (_::_) _, _
    | .clearingStatus [] _, _ | .clearingStatus (_::_) _, _ | .clearingMonitors [] _, _
    | .clearingMonitors (_::_) _, _ | .returned _, _ => trivial

def CoversAll (cfg : Config) (c : CancelCall shards.count) : Prop :=
  ∀ task ∈ c.tasks, Covers cfg.workerIds task

theorem CoversAll.moved (h : CoversAll cfg c) (hmoved : CancelMoved cfg shards s c c') :
    CoversAll cfg c' := by
  cases hmoved with
  | same => exact h
  | stepped =>
    obtain ⟨queryId, place, tasks⟩ := c
    match place with
    | .cancelling (k::left) found =>
      intro task htask
      by_cases hd : cfg.distributed = true
      · simp only [CoordinatorMoves.next, hd, if_true] at htask
        rcases mem_append.mp htask with htask | htask
        · exact h task htask
        · cases mem_singleton.mp htask
          trivial
      · simp only [CoordinatorMoves.next, hd, Bool.false_eq_true, if_false] at htask
        exact h task htask
    | .scanning [] _ | .scanning (_::_) _ | .cancelling [] _ | .clearingStatus [] _
    | .clearingStatus (_::_) _ | .clearingMonitors [] _ | .clearingMonitors (_::_) _
    | .returned _ => exact h
  | sent task connected =>
    intro task' htask
    obtain ⟨n, hn⟩ := mem_iff_getElem?.mp htask
    rw [getElem?_modify] at hn
    obtain ⟨old, hold, heq⟩ := Option.map_eq_some_iff.mp hn
    have before := h old (mem_of_getElem? hold)
    split at heq
    · exact heq ▸ covers_step before connected
    · exact heq ▸ before

structure Inv (cfg : Config) (shards : Shards) (s : State shards.count) : Prop where
  batch : cfg.distributed = true → ∀ i e, s.executions i = some e → Batch e
  running : ∀ key, (key, .running) ∈ s.stageStatus → cfg.distributed = true
  scanned : ∀ caller c, s.cancels caller = some c → Scanned shards c
  covers : ∀ caller c, s.cancels caller = some c → CoversAll cfg c

theorem inv_start (cfg : Config) (shards : Shards) : Inv cfg shards (start shards.count) where
  batch hd i e h := by simp [start] at h
  running key h := by simp [start] at h
  scanned caller c h := by simp [start] at h
  covers caller c h := by simp [start] at h

theorem inv_step (inv : Inv cfg shards s) (m : Move) : Inv cfg shards (s.step cfg shards m) where
  batch hd i e' h := by
    rcases (h ▸ executions_stepped (stepped_step cfg shards s m) i).before with
      ⟨e, he, moved⟩ | ⟨-, queryId, plan, keys, rfl⟩
    · exact (inv.batch hd i e he).moved moved
    · exact batch_new hd queryId plan keys
  running key h := by
    rcases status_step (stepped_step cfg shards s m) h with h | h | h
    · exact inv.running key h
    · cases h
    · exact h
  scanned caller c' h := by
    rcases (h ▸ cancels_stepped (stepped_step cfg shards s m) caller).before with
      ⟨c, hc, moved⟩ | ⟨-, queryId, rfl⟩
    · exact (inv.scanned caller c hc).moved moved
    · exact ⟨nodup_finRange _, fun k hk => by cases hk⟩
  covers caller c' h := by
    rcases (h ▸ cancels_stepped (stepped_step cfg shards s m) caller).before with
      ⟨c, hc, moved⟩ | ⟨-, queryId, rfl⟩
    · exact (inv.covers caller c hc).moved moved
    · exact fun task htask => by cases htask

theorem inv_run (cfg : Config) (shards : Shards) (moves : List Move) :
    Inv cfg shards (run (State.step cfg shards) (start shards.count) moves) :=
  run_invariant (I := Inv cfg shards) (fun _ m inv => inv_step inv m) (inv_start cfg shards) moves

variable {key : StageKey}

def Driven (e : Execution) (k : Nat) : Prop :=
  ∃ stages rest p, e.phase = .level stages rest ∧ (k, p) ∈ stages ∧
    p ≠ .unstarted ∧ ∀ ok, p ≠ .finished ok

/-- The stage has been started, and its future or its task has not ended. -/
def InFlight (e : Execution) (k : Nat) : Prop := Driven e k ∨ (k, .running) ∈ e.streams

/-- The cancellation is about to visit the shard of the stage. -/
def Visits (shards : Shards) (s : State shards.count) (caller : Caller) (key : StageKey) : Prop :=
  ∃ rest found tasks, s.cancels caller =
    some ⟨key.1, .scanning (shards.status key::rest) found, tasks⟩

def counted {n : Nat} : Canceller n → List Nat
  | .scanning _ found | .cancelling _ found | .clearingStatus _ found
  | .clearingMonitors _ found | .returned found => found

/-- The cancellation counts the stage, and when it has returned it has told the stage's monitor or
has spawned a task that sends the cancellation to every worker. -/
structure Reaches (cfg : Config) (shards : Shards) (s : State shards.count) (caller : Caller)
    (key : StageKey) : Prop where
  counts : ∃ c, (s.step cfg shards (.cancel caller)).cancels caller = some c ∧
    key.2 ∈ counted c.place
  tells : ∀ moves c found,
    (run (State.step cfg shards) s (.cancel caller::moves)).cancels caller = some c →
      c.place = .returned found →
        (∃ monitor, s.monitorOf key = some monitor ∧
          monitor ∈ (run (State.step cfg shards) s (.cancel caller::moves)).cancelled) ∨
        ∃ task ∈ c.tasks, Covers cfg.workerIds task

def Due (k : Nat) (c : CancelCall shards.count) : Prop :=
  (∃ left found, c.place = .scanning left found ∧ k ∈ found) ∨
    (∃ left found, c.place = .cancelling left found ∧ k ∈ left) ∨ c.tasks ≠ []

theorem Due.moved (hd : cfg.distributed = true) (h : Due k c)
    (hmoved : CancelMoved cfg shards s c c') : Due k c' := by
  cases hmoved with
  | same => exact h
  | sent task connected =>
    refine h.imp id (Or.imp id fun hne hnil => hne ?_)
    have lengths := congrArg length hnil
    rw [length_modify] at lengths
    exact length_eq_zero_iff.mp lengths
  | stepped =>
    obtain ⟨queryId, place, tasks⟩ := c
    rcases h with ⟨left, found, hplace, hk⟩ | ⟨left, found, hplace, hk⟩ | hne
    · obtain rfl : place = .scanning left found := hplace
      cases left with
      | nil => exact .inr (.inl ⟨found, found, rfl, hk⟩)
      | cons shard rest => exact .inl ⟨rest, _, rfl, mem_append_left _ hk⟩
    · obtain rfl : place = .cancelling left found := hplace
      cases left with
      | nil => cases hk
      | cons k' left => exact .inr (.inr (by simp [CoordinatorMoves.next, hd]))
    · refine .inr (.inr ?_)
      cases place with
      | cancelling left =>
        cases left with
        | nil => exact hne
        | cons => simp [CoordinatorMoves.next, hd]
      | scanning left | clearingStatus left | clearingMonitors left => cases left <;> exact hne
      | returned => exact hne

theorem due_run (hd : cfg.distributed = true) (hc : s.cancels caller = some c) (h : Due k c)
    (moves : List Move) :
    ∃ c', (run (State.step cfg shards) s moves).cancels caller = some c' ∧ Due k c' := by
  induction moves generalizing s c with
  | nil => exact ⟨c, hc, h⟩
  | cons m moves ih =>
    obtain ⟨x, hx, moved⟩ := cancelMoved_step cfg hc m
    exact ih hx (h.moved hd moved)

theorem visited (cfg : Config) (h : Visits shards s caller key) : ∃ rest found tasks,
    s.cancels caller = some ⟨key.1, .scanning (shards.status key::rest) found, tasks⟩ ∧
    (s.step cfg shards (.cancel caller)).cancels caller = some ⟨key.1,
      .scanning rest (found ++ s.inFlight shards key.1 (shards.status key)), tasks⟩ := by
  obtain ⟨rest, found, tasks, hc⟩ := h
  refine ⟨rest, found, tasks, hc, ?_⟩
  simp [State.step, hc, State.cancelStep, State.setCancel]

theorem running_of_counts (inv : Inv cfg shards s) (hvisit : Visits shards s caller key)
    (h : Reaches cfg shards s caller key) : (key, .running) ∈ s.stageStatus := by
  obtain ⟨rest, found, tasks, hc, hnext⟩ := visited cfg hvisit
  obtain ⟨c, hc', hk⟩ := h.counts
  cases hnext.symm.trans hc'
  rcases mem_append.mp hk with hk | hk
  · -- a stage that has been found is not in a shard that is left
    have scanned := inv.scanned caller _ hc
    exact absurd mem_cons_self (scanned.2 key.2 hk)
  · exact (mem_inFlight.mp hk).1

theorem reaches_of_running (inv : Inv cfg shards s) (hvisit : Visits shards s caller key)
    (h : (key, .running) ∈ s.stageStatus) : Reaches cfg shards s caller key := by
  obtain ⟨rest, found, tasks, hc, hnext⟩ := visited cfg hvisit
  have mem : key.2 ∈ found ++ s.inFlight shards key.1 (shards.status key) :=
    mem_append_right _ (mem_inFlight.mpr ⟨h, rfl⟩)
  refine ⟨⟨_, hnext, mem⟩, fun moves c left hreturned hplace => .inr ?_⟩
  have hd := inv.running key h
  obtain ⟨c', hc', due⟩ := due_run hd hnext (.inl ⟨rest, _, rfl, mem⟩) moves
  rw [run_cons, hc'] at hreturned
  cases hreturned
  have spawned : c.tasks ≠ [] := by
    rcases due with ⟨_, _, h, -⟩ | ⟨_, _, h, -⟩ | h
    · simp [hplace] at h
    · simp [hplace] at h
    · exact h
  obtain ⟨task, htask⟩ := exists_mem_of_ne_nil _ spawned
  have later := run_invariant (I := Inv cfg shards) (fun _ m inv => inv_step inv m)
    (inv_step inv (.cancel caller)) moves
  exact ⟨task, htask, later.covers caller c hc' task htask⟩

def Clearing {n : Nat} : Canceller n → Prop
  | .clearingStatus _ _ | .clearingMonitors _ _ | .returned _ => True
  | .scanning _ _ | .cancelling _ _ => False

/-- A cancellation of the query has begun to clear the registries. -/
def Cleared {n : Nat} (s : State n) (queryId : String) : Prop :=
  ∃ caller c, s.cancels caller = some c ∧ c.queryId = queryId ∧ Clearing c.place

theorem Cleared.step (h : Cleared s queryId) (m : Move) :
    Cleared (s.step cfg shards m) queryId := by
  obtain ⟨caller, c, hc, rfl, hplace⟩ := h
  obtain ⟨c', hc', moved⟩ := cancelMoved_step cfg hc m
  refine ⟨caller, c', hc', ?_⟩
  cases moved with
  | same | sent => exact ⟨rfl, hplace⟩
  | stepped =>
    obtain ⟨queryId, place, tasks⟩ := c
    match place, hplace with
    | .clearingStatus [] _, _ | .clearingStatus (_::_) _, _ | .clearingMonitors [] _, _
    | .clearingMonitors (_::_) _, _ | .returned _, _ => exact ⟨rfl, trivial⟩

theorem running_setStageStatus {n : Nat} {s : State n} (h : (key, .running) ∈ s.stageStatus)
    (key' : StageKey) (status : StageStatus) :
    (key, .running) ∈ (s.setStageStatus key' status).stageStatus ∨
      (key = key' ∧ status ≠ .running) := by
  by_cases hkey : key = key'
  · by_cases hstatus : status = .running
    · subst hkey hstatus
      exact .inl mem_cons_self
    · exact .inr ⟨hkey, hstatus⟩
  · exact .inl (mem_cons_of_mem _ (mem_filter.mpr ⟨h, by simpa using hkey⟩))

def Notes (e : Execution) (k : Nat) : Prop :=
  ∃ left rest, e.phase = .results ((k, true)::left) rest

/-- A stage that is noted to run stays so until it is complete or its query is cleared. -/
theorem running_stepped (hstep : Stepped cfg shards s m s') (h : (key, .running) ∈ s.stageStatus) :
    (key, .running) ∈ s'.stageStatus ∨ Cleared s key.1 ∨
      ∃ i e, s.executions i = some e ∧ e.queryId = key.1 ∧ Notes e key.2 := by
  cases hstep with
  | idle | executes | stops | streams | monitors | starts | sends => exact .inl h
  | cancels caller c hc =>
    obtain ⟨queryId, place, tasks⟩ := c
    by_cases hcleared : queryId = key.1 ∧ Clearing place
    · exact .inr (.inl ⟨caller, _, hc, hcleared⟩)
    left
    match place, hcleared with
    | .scanning [] _, _ | .scanning (_::_) _, _ | .cancelling [] _, _
    | .clearingStatus [] _, _ | .clearingMonitors [] _, _ | .clearingMonitors (_::_) _, _
    | .returned _, _ => exact h
    | .clearingStatus (_::_) _, hcleared =>
      refine mem_filter.mpr ⟨h, ?_⟩
      simp only [decide_eq_true_eq]
      exact fun hkey => hcleared ⟨hkey.1.symm, trivial⟩
    | .cancelling (_::_) _, _ =>
      simp only [State.cancelStep, State.cancelStage]
      split
      · exact h
      · split <;> exact h
  | stages i e position answer he =>
    left
    rcases stageStep_cases cfg e position answer with heq | ⟨stages, rest, k, p, -, -, heq⟩
    · rw [heq]
      exact h
    · rw [heq]
      dsimp only
      split
      · rcases running_setStageStatus h (e.queryId, k) .running with h | ⟨-, hne⟩
        · exact h
        · exact absurd rfl hne
      · exact h
  | proceeds i e collected next he hnext =>
    cases hnext with
    | notes k left rest hphase =>
      rcases running_setStageStatus h (e.queryId, k) .completed with h | ⟨hkey, -⟩
      · exact .inl h
      · subst hkey
        exact .inr (.inr ⟨i, e, he, rfl, left, rest, hphase⟩)
    | fails =>
      left
      simp only [State.apply]
      split <;> exact h
    | _ => exact .inl h

theorem not_driven_new (cfg : Config) (queryId : String) (plan : LdpPlan) (keys : List Nat)
    (k : Nat) : ¬ Driven (.new cfg queryId plan keys) k := by
  rintro ⟨stages, rest, p, hphase, -⟩
  unfold Execution.new at hphase
  split at hphase
  · cases hphase
  · obtain ⟨-, -, hended | ⟨levels, -, hresults⟩⟩ :=
      startBatch_phase ⟨queryId, plan, keys, [], .ended, []⟩
    · rw [hended] at hphase
      cases hphase
    · rw [hresults] at hphase
      cases hphase

/-- A stage is driven before a move, or the move starts it. -/
theorem Driven.before (hmoved : Moved cfg m i e e') (h : Driven e' k) :
    Driven e k ∨ ∃ position answer stages rest, m = .stage i position answer ∧
      e.phase = .level stages rest ∧ stages[position]? = some (k, .unstarted) ∧
        (getStage e.plan k).isSome = true := by
  cases hmoved with
  | same => exact .inl h
  | staged position answer hm =>
    rcases stageStep_cases cfg e position answer with
      heq | ⟨stages, rest, k', p, hphase, hstage, heq⟩
    · rw [heq] at h
      exact .inl h
    rw [heq] at h
    obtain ⟨_, _, p', hlevel, hmem, hstarted, hopen⟩ := h
    cases hlevel
    rcases mem_or_eq_of_mem_set hmem with hmem | heq
    · exact .inl ⟨stages, rest, p', hphase, hmem, hstarted, hopen⟩
    · cases heq
      cases p with
      | unstarted =>
        cases hget : getStage e.plan k with
        | none => exact absurd (by simp [StageProgress.step, hget]) (hopen false)
        | some stage => exact .inr ⟨position, answer, stages, rest, hm, hphase, hstage, by simp⟩
      | finished ok => exact absurd rfl (hopen ok)
      | _ => exact .inl ⟨stages, rest, _, hphase, mem_of_getElem? hstage, by simp, by simp⟩
  | proceeded hnext =>
    obtain ⟨stages, rest, p, hlevel, hmem, hstarted, hopen⟩ := h
    cases hnext with
    | waits => exact .inl ⟨stages, rest, p, hlevel, hmem, hstarted, hopen⟩
    | drives level rest' hphase =>
      cases hlevel
      obtain ⟨k', -, heq⟩ := mem_map.mp hmem
      cases heq
      exact absurd rfl hstarted
    | looks | notes | fails | fetches | ends => cases hlevel
    | streams next hphase hplan hquery hnext =>
      rcases hnext with hstream | hended | ⟨levels, -, hresults⟩
      · rw [hlevel] at hstream
        cases hstream
      · rw [hended] at hlevel
        cases hlevel
      · rw [hresults] at hlevel
        cases hlevel
  | stopped =>
    obtain ⟨_, _, _, hlevel, -⟩ := h
    cases hlevel
  | streamed position ok =>
    obtain ⟨streams, heq, -⟩ := streamEnds_eq e position ok
    rw [heq] at h
    exact .inl h

def Shared {n : Nat} (s : State n) (i : Nat) (queryId : String) : Prop :=
  ∃ i' e', i' ≠ i ∧ s.executions i' = some e' ∧ e'.queryId = queryId

theorem Shared.step (h : Shared s i queryId) (m : Move) :
    Shared (s.step cfg shards m) i queryId := by
  obtain ⟨i', e', hne, he', rfl⟩ := h
  obtain ⟨x, hx, moved⟩ := moved_step cfg he' m
  exact ⟨i', x, hne, hx, moved.frame.2⟩

def Noted {n : Nat} (s : State n) : Prop :=
  ∀ i e k, s.executions i = some e → Driven e k →
    ((e.queryId, k), .running) ∈ s.stageStatus ∨ Cleared s e.queryId ∨ Shared s i e.queryId

theorem noted_step (hd : cfg.distributed = true) (h : Noted s) (m : Move) :
    Noted (s.step cfg shards m) := by
  intro i e' k he' hdriven
  have stepped := stepped_step cfg shards s m
  rcases (he' ▸ executions_stepped stepped i).before with
    ⟨e, he, moved⟩ | ⟨-, queryId, plan, keys, rfl⟩
  swap
  · exact absurd hdriven (not_driven_new cfg queryId plan keys k)
  rw [moved.frame.2]
  rcases hdriven.before moved with
    before | ⟨position, answer, stages, rest, rfl, hphase, hstage, hget⟩
  · rcases h i e k he before with running | cleared | shared
    · rcases running_stepped stepped running with running | cleared | ⟨i', x, hx, hquery, hnotes⟩
      · exact .inl running
      · exact .inr (.inl (cleared.step m))
      · -- an execution that looks at results drives no stage
        refine .inr (.inr (Shared.step ⟨i', x, ?_, hx, hquery⟩ m))
        rintro rfl
        cases he.symm.trans hx
        obtain ⟨_, _, _, hlevel, -⟩ := before
        obtain ⟨_, _, hresults⟩ := hnotes
        cases hlevel.symm.trans hresults
    · exact .inr (.inl (cleared.step m))
    · exact .inr (.inr (shared.step m))
  · left
    rw [step_stage he]
    simp only [Execution.stageStep, hphase, hstage, hd, hget]
    exact mem_cons_self

theorem noted_run (hd : cfg.distributed = true) (moves : List Move) :
    Noted (run (State.step cfg shards) (start shards.count) moves) :=
  run_invariant (I := Noted) (fun _ m h => noted_step hd h m)
    (fun i e k he => by simp [start] at he) moves

section Stops

/-- A cancellation that visits a stage in flight counts it and tells the workers exactly if the
execution is distributed and the stage is noted to run, which it is unless an earlier cancellation
clears the registries or the query id is not the execution's own. No submission follows if the
execution has nothing left to submit. -/
theorem cancel_stops (cfg : Config) (shards : Shards) (moves : List Move)
    {s : State shards.count} (hs : s = run (State.step cfg shards) (start shards.count) moves)
    {i k : Nat} {e : Execution} (he : s.executions i = some e) (hflight : InFlight e k)
    {caller : Caller} (hvisit : Visits shards s caller (e.queryId, k)) :
    (Reaches cfg shards s caller (e.queryId, k) ↔
      cfg.distributed = true ∧ ((e.queryId, k), .running) ∈ s.stageStatus) ∧
    (cfg.distributed = true → ¬ Cleared s e.queryId → ¬ Shared s i e.queryId →
      Reaches cfg shards s caller (e.queryId, k)) ∧
    (Quiet cfg e.plan e.phase → NoFurther cfg shards s i e) := by
  have inv : Inv cfg shards s := hs ▸ inv_run cfg shards moves
  refine ⟨⟨fun reaches => ?_, fun ⟨_, running⟩ => reaches_of_running inv hvisit running⟩,
    fun hd hcleared hshared => ?_, noFurther_of_quiet he⟩
  · have running := running_of_counts inv hvisit reaches
    exact ⟨inv.running _ running, running⟩
  · -- a pipeline is not distributed
    have driven : Driven e k := by
      rcases hflight with hdriven | hstream
      · exact hdriven
      · rw [(inv.batch hd i e he).2] at hstream
        cases hstream
    have noted : Noted s := hs ▸ noted_run hd moves
    rcases noted i e k he driven with running | cleared | shared
    · exact reaches_of_running inv hvisit running
    · exact absurd cleared hcleared
    · exact absurd shared hshared

def oneShard : Shards := ⟨1, fun _ => 0, fun _ => 0, ⟨id, fun _ => .refl _⟩⟩

def setting (distributed : Bool) : Config := ⟨distributed, false, 0, asciiTable, ["w1"]⟩

def stageOf (stageId : Nat) (inputs : List StageInput) : Stage :=
  ⟨stageId, ["w1"], inputs, .stream, .exchangeRead 0 "__exchange_0"⟩

def oneStage : LdpPlan := ⟨"w1", [stageOf 0 [.localCatalog]], [], 0⟩

def twoStages : LdpPlan :=
  ⟨"w1", [stageOf 0 [.localCatalog], stageOf 1 [.exchangeInput 0 "__exchange_0"]],
    [⟨0, .gather "w1", 0, 1, []⟩], 1⟩

variable (plan : LdpPlan)

/-- The first stage of the plan has been submitted, and a client cancels the query. -/
def submitted : List Move :=
  [.execute 0 "q" plan [0, 1], .proceed 0 true, .stage 0 0 none, .stage 0 0 none,
    .cancelQuery 0 "q"]

abbrev after (distributed : Bool) (moves : List Move) : State oneShard.count :=
  run (State.step (setting distributed) oneShard) (start oneShard.count) moves

def waits (rest : List (List Nat)) : Execution :=
  ⟨"q", plan, [0, 1], [], .level [(0, .waiting ["w1"] [] 0)] rest, [(0, ["w1"])]⟩

theorem inFlight_waits (rest : List (List Nat)) : InFlight (waits plan rest) 0 :=
  .inl ⟨_, rest, _, rfl, mem_cons_self, by simp, by simp⟩

theorem cancel_stops_last :
    Reaches (setting true) oneShard (after true (submitted oneStage)) (.client 0) ("q", 0) ∧
      NoFurther (setting true) oneShard (after true (submitted oneStage)) 0
        (waits oneStage []) := by
  have visits : Visits oneShard (after true (submitted oneStage)) (.client 0) ("q", 0) :=
    ⟨_, _, _, rfl⟩
  obtain ⟨reaches, -, noFurther⟩ := cancel_stops (setting true) oneShard (submitted oneStage) rfl
    (i := 0) (e := waits oneStage []) rfl (inFlight_waits _ _) visits
  refine ⟨reaches.mpr ⟨rfl, mem_cons_self⟩, noFurther ⟨fun k p hmem => ?_, .inr ?_⟩⟩
  · cases mem_singleton.mp hmem
    exact ⟨rfl, Nat.le_refl 0⟩
  · exact fun level hlevel => by cases hlevel

/-- The rest of the cancellation, and then the rest of the plan up to its second stage. -/
def goesOn : List Move :=
  List.replicate 8 (.cancel (.client 0)) ++
    [.stage 0 0 none, .stage 0 0 none, .proceed 0 true, .proceed 0 true, .proceed 0 true,
      .stage 0 0 none, .stage 0 0 none]

/-- A distributed execution submits its second stage after the cancellation has returned. A local
execution is not reached at all. -/
theorem submitted_after_cancel :
    (after true (submitted twoStages)).executions 0 = some (waits twoStages [[1]]) ∧
    InFlight (waits twoStages [[1]]) 0 ∧
    Visits oneShard (after true (submitted twoStages)) (.client 0) ("q", 0) ∧
    (∃ c e, (after true (submitted twoStages ++ goesOn)).cancels (.client 0) = some c ∧
      c.place = .returned [0] ∧
      (after true (submitted twoStages ++ goesOn)).executions 0 = some e ∧
      e.submissions = [(0, ["w1"]), (1, ["w1"])]) ∧
    (after false (submitted twoStages)).executions 0 = some (waits twoStages [[1]]) ∧
    Visits oneShard (after false (submitted twoStages)) (.client 0) ("q", 0) ∧
    ¬ Reaches (setting false) oneShard (after false (submitted twoStages)) (.client 0)
      ("q", 0) := by
  refine ⟨rfl, inFlight_waits _ _, ⟨_, _, _, rfl⟩, ⟨_, _, rfl, rfl, rfl, rfl⟩, rfl,
    ⟨_, _, _, rfl⟩, ?_⟩
  rintro ⟨⟨c, hc, hk⟩, -⟩
  cases hc
  cases hk

end Stops

end Leibrix.CoordinatorCancel
