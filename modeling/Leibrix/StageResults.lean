import Leibrix.StageCancel

/-!
# Results of cancelled stages

A cancellation removes the results of its query, and a handler stores the result of its
stage when the task has ended, without a look at the flag. So a result can appear after
its query has been cancelled, exactly when the stage could still succeed at that time.
-/

set_option autoImplicit false

namespace Leibrix.StageResults
open ArrowBatch FlightTickets Runs StageTasks StageCancel

variable {shards : Shards} {memorySize : RecordBatch → Nat} {n : Nat} {i j : Nat} {c c' : Call}

section Results

def Stored (s : State n) (i : Nat) : Prop := ∃ key r, s.results key = some r ∧ r.createdBy = i

def Fetches (s : State n) (i : Nat) : Prop :=
  ∃ ticket r, s.results (.fromTicket ticket) = some r ∧ r.createdBy = i ∧
    handleStageResultDoGet s.service ticket = .ok (.stageResult r.batches)

theorem fetches_iff (s : State n) (i : Nat) : Fetches s i ↔ Stored s i := by
  constructor
  · rintro ⟨ticket, r, hr, hi, -⟩
    exact ⟨_, r, hr, hi⟩
  · rintro ⟨⟨queryId, stageId, partition⟩, r, hr, hi⟩
    have hticket : StageResultKey.fromTicket ⟨s.tenantId, queryId, stageId, partition⟩ =
        ⟨queryId, stageId, partition⟩ := rfl
    refine ⟨⟨s.tenantId, queryId, stageId, partition⟩, r, hticket ▸ hr, hi, ?_⟩
    simp [handleStageResultDoGet, State.service, hticket, hr]

def CanSucceed (memorySize : RecordBatch → Nat) (limits : Option StageLimits) (cancelled : Bool) :
    Task → Prop
  | .unspawned => False
  | .queued | .connected | .published => cancelled = false
  | .checked | .executing => True
  | .ended (.ok batches) => checkLimits memorySize limits batches = .ok ()
  | .ended (.error _) => False

/-- The handler can still come to store a result. -/
def CanStore (memorySize : RecordBatch → Nat) (tenantId : String) (c : Call) : Prop :=
  match c.handler with
  | .received => c.Admitted tenantId ∧ (c.request.stageSql = "" ∨ c.cancelled = false)
  | .registered => c.cancelled = false
  | .spawned | .awaiting => CanSucceed memorySize c.request.limits c.cancelled c.task
  | .executed batches => checkLimits memorySize c.request.limits batches = .ok ()
  | .answered _ | .dropped => False

variable {limits : Option StageLimits}

attribute [local simp] State.step State.handlerStep CanSucceed

theorem canSucceed_taskStep (o : Outcome)
    (h : CanSucceed memorySize limits (c.taskStep o).cancelled (c.taskStep o).task) :
    CanSucceed memorySize limits c.cancelled c.task := by
  revert h
  fun_cases Call.taskStep c o <;> simp_all

theorem canSucceed_flagged {t : Task} (h : CanSucceed memorySize limits true t) (cancelled : Bool) :
    CanSucceed memorySize limits cancelled t := by
  cases t with
  | queued | connected | published => cases h
  | unspawned | checked | executing => exact h
  | ended result => cases result <;> exact h

/-- No step makes it possible to store a result when it was not. -/
theorem canStore_moved {s : State n} {m : Move} (h : CallMoved memorySize s m i c c')
    (hc : s.calls i = some c) (hcan : CanStore memorySize s.tenantId c') :
    CanStore memorySize s.tenantId c := by
  cases h with
  | same | fired => exact hcan
  | flagged =>
    unfold CanStore at hcan ⊢
    cases hh : c.handler with
    | spawned | awaiting =>
      simp only [hh] at hcan
      exact canSucceed_flagged hcan c.cancelled
    | _ => simp_all [Call.Admitted]
  | tasked o =>
    unfold CanStore at hcan ⊢
    rw [taskStep_handler] at hcan
    cases hh : c.handler with
    | spawned | awaiting =>
      simp only [hh, taskStep_request] at hcan
      exact canSucceed_taskStep o hcan
    | _ => simp_all [Call.Admitted]
  | handled hm h hc' =>
    cases h
    case waits =>
      obtain rfl : c = c' := Option.some.inj (hc.symm.trans hc')
      exact hcan
    all_goals obtain rfl := Option.some.inj ((State.setCall_self _ _ _).symm.trans hc')
    case fails | drops | stores => exact hcan.elim
    all_goals simp_all [CanStore]

variable {key : StageResultKey} {s : State shards.count}

variable {r : CachedStageResult}

theorem results_handled {s s' : State n} (h : Handled memorySize s i c s')
    (hr : s'.results key = some r) : s.results key = some r ∨
      r.createdBy = i ∧ c.resultKey = key ∧ CanStore memorySize s.tenantId c := by
  cases h with
  | stores batches h hlimits =>
    simp only [State.answer, State.setCall, State.store] at hr
    split at hr
    · next heq =>
      cases hr
      exact .inr ⟨rfl, heq.symm, by simp [CanStore, h, hlimits]⟩
    · exact .inl hr
  | waits | fails | drops | skips | registers | spawns | deregisters | finishes => exact .inl hr

/-- A result that was not there before has been stored by its call. -/
theorem results_step (shards : Shards) (memorySize : RecordBatch → Nat) (s : State shards.count)
    (m : Move) (hr : (s.step shards memorySize m).results key = some r) :
    s.results key = some r ∨ ∃ c, s.calls r.createdBy = some c ∧ c.resultKey = key ∧
      CanStore memorySize s.tenantId c := by
  revert hr
  fun_cases State.step shards memorySize s m <;> intro hr
  case case3 k wake d hd =>
    rcases results_handled (handled_handlerStep memorySize s k d wake) hr with
      hr | ⟨rfl, hkey, hcan⟩
    · exact .inl hr
    · exact .inr ⟨d, hd, hkey, hcan⟩
  case case9 j canceller hj =>
    left
    revert hr
    fun_cases State.cancelStep shards s j canceller
    case case7 => exact fun hr => (Option.ite_none_left_eq_some.mp hr).2
    all_goals exact id
  case case11 expired => exact .inl (Option.ite_none_left_eq_some.mp hr).2
  all_goals exact .inl hr

theorem gone_step (memorySize : RecordBatch → Nat) (hc : s.calls i = some c)
    (hcan : ¬ CanStore memorySize s.tenantId c) (m : Move) :
    (∃ c', (s.step shards memorySize m).calls i = some c' ∧
        ¬ CanStore memorySize (s.step shards memorySize m).tenantId c') ∧
      (Stored (s.step shards memorySize m) i → Stored s i) := by
  constructor
  · obtain ⟨c', hc', moved⟩ := callMoved_step memorySize hc m
    refine ⟨c', hc', fun h => hcan (canStore_moved moved hc ?_)⟩
    rwa [tenantId_step] at h
  · rintro ⟨key, r, hr, rfl⟩
    rcases results_step shards memorySize s m hr with hr | ⟨d, hd, -, hcan'⟩
    · exact ⟨key, r, hr, rfl⟩
    · obtain rfl : d = c := Option.some.inj (hd.symm.trans hc)
      exact absurd hcan' hcan

theorem gone_run (memorySize : RecordBatch → Nat) (hc : s.calls i = some c)
    (hcan : ¬ CanStore memorySize s.tenantId c) (moves : List Move) :
    (∃ c', (run (State.step shards memorySize) s moves).calls i = some c' ∧
        ¬ CanStore memorySize (run (State.step shards memorySize) s moves).tenantId c') ∧
      (Stored (run (State.step shards memorySize) s moves) i → Stored s i) := by
  induction moves generalizing s c with
  | nil => exact ⟨⟨c, hc, hcan⟩, id⟩
  | cons m moves ih =>
    obtain ⟨⟨c', hc', hcan'⟩, hstored⟩ := gone_step memorySize hc hcan m
    exact ⟨(ih hc' hcan').1, hstored ∘ (ih hc' hcan').2⟩

def MayStore (shards : Shards) (memorySize : RecordBatch → Nat) (s : State shards.count)
    (i : Nat) : Prop :=
  ∃ moves, Stored (run (State.step shards memorySize) s moves) i

theorem MayStore.before (m : Move) (h : MayStore shards memorySize (s.step shards memorySize m) i) :
    MayStore shards memorySize s i := by
  obtain ⟨moves, hmoves⟩ := h
  exact ⟨m::moves, hmoves⟩

theorem mayStore_executed {batches : List RecordBatch} (hc : s.calls i = some c)
    (hh : c.handler = .executed batches)
    (hlimits : checkLimits memorySize c.request.limits batches = .ok ()) :
    MayStore shards memorySize s i := by
  refine .before (.handler i .ready) ⟨[], c.resultKey, ⟨batches, i⟩, ?_, rfl⟩
  simp [hc, hh, hlimits, State.answer, State.setCall, State.store]

theorem checkLimits_nil (memorySize : RecordBatch → Nat) (limits : Option StageLimits) :
    checkLimits memorySize limits [] = .ok () := by
  cases limits <;> simp [checkLimits, batchRows]

def remaining : Task → Nat
  | .queued => 5
  | .connected => 4
  | .published => 3
  | .checked => 2
  | .executing => 1
  | .unspawned | .ended _ => 0

theorem canSucceed_next (h : CanSucceed memorySize c.request.limits c.cancelled c.task) :
    (∃ batches, c.task = .ended (.ok batches) ∧
        checkLimits memorySize c.request.limits batches = .ok ()) ∨
      CanSucceed memorySize c.request.limits c.cancelled (c.taskStep (.ok [])).task ∧
        remaining (c.taskStep (.ok [])).task < remaining c.task := by
  cases ht : c.task with
  | ended result => cases result <;> simp_all
  | _ => simp_all [Call.taskStep, remaining, checkLimits_nil]

variable (hc : s.calls i = some c)
include hc

theorem mayStore_awaiting (hh : c.handler = .awaiting)
    (hcan : CanSucceed memorySize c.request.limits c.cancelled c.task) :
    MayStore shards memorySize s i := by
  induction hk : remaining c.task using Nat.strong_induction_on generalizing s c with
  | _ k ih =>
    rcases canSucceed_next hcan with ⟨batches, ht, hlimits⟩ | ⟨hcan', hless⟩
    · refine .before (.handler i .ready)
        (mayStore_executed (c := { c with handler := .executed batches }) ?_ rfl hlimits)
      simp [hc, hh, ht]
    · refine .before (.task i (.ok [])) (ih _ (hk ▸ hless) (c := c.taskStep (.ok [])) ?_ ?_ ?_ rfl)
      · simp [hc]
      · rw [taskStep_handler, hh]
      · rwa [taskStep_request, taskStep_cancelled]

theorem mayStore_spawned (hh : c.handler = .spawned)
    (hcan : CanSucceed memorySize c.request.limits c.cancelled c.task) :
    MayStore shards memorySize s i := by
  refine .before (.handler i .ready)
    (mayStore_awaiting (c := { c with handler := .awaiting }) ?_ rfl hcan)
  simp [hc, hh]

theorem mayStore_registered (hh : c.handler = .registered) (hflag : c.cancelled = false) :
    MayStore shards memorySize s i := by
  refine .before (.handler i .ready)
    (mayStore_spawned (c := { c with handler := .spawned, task := .queued }) ?_ rfl hflag)
  simp [hc, hh]

theorem mayStore_of_canStore (hcan : CanStore memorySize s.tenantId c) :
    MayStore shards memorySize s i := by
  unfold CanStore at hcan
  split at hcan
  case h_1 hh =>
    obtain ⟨⟨htenant, inputs, hinputs⟩, hsql⟩ := hcan
    have tenant : validateTenant s.service c.request.tenantId = .ok () :=
      validateTenant_eq_ok.mpr htenant
    by_cases hempty : c.request.stageSql = ""
    · refine .before (.handler i .ready) (mayStore_executed
        (c := { c with handler := .executed [] }) ?_ rfl (checkLimits_nil _ _))
      simp [hc, hh, tenant, hinputs, hempty]
    · refine .before (.handler i .ready) (mayStore_registered
        (c := { c with handler := .registered }) ?_ rfl (hsql.resolve_left hempty))
      simp [hc, hh, tenant, hinputs, hempty]
  case h_2 hh => exact mayStore_registered hc hh hcan
  case h_3 hh => exact mayStore_spawned hc hh hcan
  case h_4 hh => exact mayStore_awaiting hc hh hcan
  case h_5 batches hh => exact mayStore_executed hc hh hcan
  case h_6 | h_7 => exact hcan.elim

theorem never_stored_iff :
    (∀ moves, ¬ Stored (run (State.step shards memorySize) s moves) i) ↔
      ¬ Stored s i ∧ ¬ CanStore memorySize s.tenantId c := by
  constructor
  · intro h
    refine ⟨h [], fun hcan => ?_⟩
    have may : MayStore shards memorySize s i := mayStore_of_canStore hc hcan
    exact may.elim h
  · rintro ⟨hstored, hcan⟩ moves h
    exact hstored ((gone_run memorySize hc hcan moves).2 h)

omit hc

/-- Every result lies under the key of the call that stored it. -/
def Owned (s : State n) : Prop :=
  ∀ key r, s.results key = some r → ∃ c, s.calls r.createdBy = some c ∧ c.resultKey = key

theorem owned_step (shards : Shards) (memorySize : RecordBatch → Nat) (s : State shards.count)
    (m : Move) (h : Owned s) : Owned (s.step shards memorySize m) := by
  intro key r hr
  have before : ∃ c, s.calls r.createdBy = some c ∧ c.resultKey = key := by
    rcases results_step shards memorySize s m hr with hr | ⟨c, hc, hkey, -⟩
    · exact h key r hr
    · exact ⟨c, hc, hkey⟩
  obtain ⟨c, hc, hkey⟩ := before
  obtain ⟨c', hc', moved⟩ := callMoved_step memorySize hc m
  refine ⟨c', hc', ?_⟩
  rw [← hkey, Call.resultKey, moved.request hc]
  rfl

theorem owned_run (shards : Shards) (memorySize : RecordBatch → Nat) (tenantId : String)
    (moves : List Move) :
    Owned (run (State.step shards memorySize) (start shards.count tenantId) moves) :=
  run_invariant (I := Owned) (fun s m h => owned_step shards memorySize s m h)
    (fun key r hr => by simp [start] at hr) moves

/-- The cancellation has not visited the shard of a result key yet, or no result of the call
is left. -/
def Cleared (shards : Shards) (s : State shards.count) (i : Nat) (key : StageResultKey) :
    Canceller shards.count → Prop
  | .removing rest => shards.results key ∈ rest ∨ ¬ Stored s i
  | .returned => ¬ Stored s i
  | _ => True

theorem cleared_of_stored {s' : State shards.count} {place : Canceller shards.count}
    (hstored : Stored s' i → Stored s i) (h : Cleared shards s i key place) :
    Cleared shards s' i key place := by
  cases place with
  | removing rest => exact h.imp_right fun hs hs' => hs (hstored hs')
  | returned => exact fun hs' => h (hstored hs')
  | scanning | flagging | interrupting => trivial

/-- A step of the cancellation of the query clears one shard. -/
theorem cleared_cancelStep (howned : Owned s) (hc : s.calls i = some c)
    {canceller d : CancelCall shards.count} (hj : s.cancels j = some canceller)
    (hquery : canceller.queryId = c.request.queryId)
    (h : Cleared shards s i c.resultKey canceller.place)
    (hd : (s.cancelStep shards j canceller).cancels j = some d) : d.queryId = canceller.queryId ∧
      Cleared shards (s.cancelStep shards j canceller) i c.resultKey d.place := by
  revert hd
  fun_cases State.cancelStep shards s j canceller <;> intro hd
  case case8 hplace =>
    obtain rfl : canceller = d := Option.some.inj (hj.symm.trans hd)
    exact ⟨rfl, h⟩
  all_goals
    obtain rfl := Option.some.inj (hd.symm.trans (if_pos rfl))
    refine ⟨rfl, ?_⟩
  case case7 shard rest hplace _ =>
    rw [hplace] at h
    have kept : ∀ key r, (if key.queryId = canceller.queryId ∧ shards.results key = shard then none
        else s.results key) = some r → r.createdBy = i →
        shards.results c.resultKey ≠ shard ∧ Stored s i := by
      intro key r hr hi
      obtain ⟨hne, hr⟩ := Option.ite_none_left_eq_some.mp hr
      obtain ⟨c₁, hc₁, hkey⟩ := howned key r hr
      obtain rfl : c₁ = c := Option.some.inj (hc₁.symm.trans (hi ▸ hc))
      subst hkey
      exact ⟨fun hshard => hne ⟨hquery.symm, hshard⟩, c₁.resultKey, r, hr, hi⟩
    by_cases hshard : shards.results c.resultKey = shard
    · right
      rintro ⟨key, r, hr, hi⟩
      exact (kept key r hr hi).1 hshard
    · refine h.imp (fun hmem => (List.mem_cons.mp hmem).resolve_left hshard) fun hgone => ?_
      rintro ⟨key, r, hr, hi⟩
      exact hgone (kept key r hr hi).2
  case case1 hplace => exact .inl (List.mem_finRange _)
  case case6 hplace =>
    rw [hplace] at h
    exact h.resolve_left List.not_mem_nil
  all_goals trivial

/-- A call that can store nothing, and a cancellation of its query on its way. -/
structure Clearing (shards : Shards) (memorySize : RecordBatch → Nat) (request : SubmitStageRequest)
    (s : State shards.count) (i j : Nat) : Prop where
  owned : Owned s
  call : ∃ c, s.calls i = some c ∧ c.request = request ∧ ¬ CanStore memorySize s.tenantId c
  cancel : ∃ canceller, s.cancels j = some canceller ∧ canceller.queryId = request.queryId ∧
    Cleared shards s i (.new request.queryId request.stageId) canceller.place

theorem clearing_step {request : SubmitStageRequest} (m : Move)
    (h : Clearing shards memorySize request s i j) :
    Clearing shards memorySize request (s.step shards memorySize m) i j := by
  obtain ⟨howned, ⟨c, hc, rfl, hcan⟩, canceller, hj, hquery, hcleared⟩ := h
  obtain ⟨⟨c', hc', hcan'⟩, hstored⟩ := gone_step memorySize hc hcan m
  have hrequest : c'.request = c.request := by
    obtain ⟨d, hd, moved⟩ := callMoved_step memorySize hc m
    obtain rfl : d = c' := Option.some.inj (hd.symm.trans hc')
    exact moved.request hc
  refine ⟨owned_step shards memorySize s m howned, ⟨c', hc', hrequest, hcan'⟩, ?_⟩
  by_cases hm : m = .cancel j
  · subst hm
    have hsome : ∃ d, (s.cancelStep shards j canceller).cancels j = some d := by
      unfold State.cancelStep
      split <;> simp [State.setCancel, hj]
    obtain ⟨d, hd⟩ := hsome
    obtain ⟨hd', hcleared'⟩ := cleared_cancelStep howned hc hj hquery hcleared hd
    have next : s.step shards memorySize (.cancel j) = s.cancelStep shards j canceller := by
      simp [hj]
    rw [next]
    exact ⟨d, hd, hd'.trans hquery, hcleared'⟩
  · refine ⟨canceller, ?_, hquery, cleared_of_stored hstored hcleared⟩
    rw [cancels_step_other shards memorySize s hm (by simp [hj]), hj]

/-- After `cancel_query` has returned, no result of a stage that was submitted before is stored or
can be fetched, just when at that time none is stored and the stage cannot succeed any more. So it
is for a stage that could not succeed any more when the cancellation was received. -/
theorem results_gone_iff (shards : Shards) (memorySize : RecordBatch → Nat) (tenantId : String)
    (before during : List Move) {s s' : State shards.count}
    (hs : s = run (State.step shards memorySize) (start shards.count tenantId) before)
    (hc : s.calls i = some c) (hj : s.cancels j = none)
    (hs' : s' = run (State.step shards memorySize) s
      (.cancelQuery j c.request.queryId::during))
    (hc' : s'.calls i = some c') (hreturned : Returned s' j) :
    ((∀ more, ¬ Stored (run (State.step shards memorySize) s' more) i ∧
        ¬ Fetches (run (State.step shards memorySize) s' more) i) ↔
      ¬ Stored s' i ∧ ¬ CanStore memorySize s'.tenantId c') ∧
    (¬ CanStore memorySize s.tenantId c →
      ¬ Stored s' i ∧ ¬ CanStore memorySize s'.tenantId c') := by
  constructor
  · simp only [fetches_iff, and_self]
    exact never_stored_iff hc'
  · intro hcan
    have howned : Owned s := hs ▸ owned_run shards memorySize tenantId before
    have first : Clearing shards memorySize c.request
        (s.step shards memorySize (.cancelQuery j c.request.queryId)) i j := by
      have next : s.step shards memorySize (.cancelQuery j c.request.queryId) =
          s.setCancel j ⟨c.request.queryId, .scanning (List.finRange shards.count), 0⟩ := by
        simp [hj]
      rw [next]
      exact ⟨howned, ⟨c, hc, rfl, hcan⟩, _, if_pos rfl, rfl, trivial⟩
    have last : Clearing shards memorySize c.request s' i j := by
      rw [hs', run_cons]
      exact run_invariant (I := fun s => Clearing shards memorySize c.request s i j)
        (fun s m h => clearing_step m h) first during
    obtain ⟨-, ⟨d, hd, -, hcan'⟩, canceller, hj', -, hcleared⟩ := last
    obtain rfl : d = c' := Option.some.inj (hd.symm.trans hc')
    obtain ⟨canceller', hj'', hplace⟩ := hreturned
    obtain rfl : canceller = canceller' := Option.some.inj (hj'.symm.trans hj'')
    rw [hplace] at hcleared
    exact ⟨hcleared, hcan'⟩

def answeredEmpty : List Move :=
  [.submit 0 { selectOne with stageSql := "" }, .handler 0 .ready, .handler 0 .ready]

theorem results_gone_iff_answered :
    (∃ r, (after answeredEmpty).results (.new "q" 0) = some r) ∧
      ¬ Stored (run (State.step oneShard fun _ => 0) (after answeredEmpty)
        (.cancelQuery 0 "q"::List.replicate 5 (.cancel 0))) 0 := by
  refine ⟨⟨⟨[], 0⟩, rfl⟩, ?_⟩
  have call : (after answeredEmpty).calls 0 = some ⟨{ selectOne with stageSql := "" },
      .answered (.ok ()), .unspawned, false, false, false⟩ := rfl
  have later : (run (State.step oneShard fun _ => 0) (after answeredEmpty)
      (.cancelQuery 0 "q"::List.replicate 5 (.cancel 0))).calls 0 =
        some ⟨{ selectOne with stageSql := "" }, .answered (.ok ()), .unspawned, false, false,
          false⟩ := rfl
  have returned : Returned (run (State.step oneShard fun _ => 0) (after answeredEmpty)
      (.cancelQuery 0 "q"::List.replicate 5 (.cancel 0))) 0 := ⟨⟨"q", .returned, 0⟩, rfl, rfl⟩
  exact ((results_gone_iff oneShard (fun _ => 0) "t" answeredEmpty (List.replicate 5 (.cancel 0))
    rfl call rfl rfl later returned).2 id).1

/-- The statement has ended when its query is cancelled, and the handler stores its result after
the cancellation has returned. -/
theorem result_stored_after_cancel :
    let s := after ([.submit 0 selectOne, .handler 0 .ready, .handler 0 .ready, .handler 0 .ready]
      ++ List.replicate 5 (.task 0 (.ok [])) ++ [.cancelQuery 0 "q"]
      ++ List.replicate 5 (.cancel 0))
    Returned s 0 ∧ s.results (.new "q" 0) = none ∧
      (run (State.step oneShard fun _ => 0) s (List.replicate 2 (.handler 0 .ready))).results
        (.new "q" 0) = some ⟨[], 0⟩ :=
  ⟨⟨_, rfl, rfl⟩, rfl, rfl⟩

end Results

end Leibrix.StageResults
