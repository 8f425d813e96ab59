import Leibrix.FlightTickets
import Leibrix.HashPartition
import Leibrix.Runs

/-!
# Stages in flight

A worker handles submitted stages and cancellations side by side. The handler of a stage
lists a handle under the query and the stage, hands the statement to a blocking task,
takes the handle off the list and waits for the task. The task publishes an interrupt
handle, looks at the cancellation flag and runs the statement. A cancellation visits the
list shard by shard, sets the flag of each handle that it finds, fires the interrupt
handle if there is one, and then removes the results of the query.
-/

set_option autoImplicit false

namespace Leibrix.StageTasks
open ArrowBatch FlightTickets HashPartition Runs

abbrev StageKey := String × UInt32

/-- Where the blocking task of a stage stands. -/
inductive Task where
  | unspawned
  | queued
  | connected
  | published
  | checked
  | executing
  | ended (result : Except String (List RecordBatch))

/-- Where the handler of `submit_stage` stands. A handler is dropped when its client goes. -/
inductive Handler where
  | received
  | registered
  | spawned
  | awaiting
  | executed (batches : List RecordBatch)
  | answered (reply : Except Status Unit)
  | dropped

/-- A submitted stage with its handle: the flag of the monitor, whether the interrupt handle of
the connection has been stored, and whether it has been fired. -/
structure Call where
  request : SubmitStageRequest
  handler : Handler
  task : Task
  cancelled : Bool
  interruptHandle : Bool
  interrupted : Bool

namespace Call

def new (request : SubmitStageRequest) : Call :=
  ⟨request, .received, .unspawned, false, false, false⟩

def key (c : Call) : StageKey := (c.request.queryId, c.request.stageId)

def resultKey (c : Call) : StageResultKey := .new c.request.queryId c.request.stageId

end Call

/-- What the world does with a step of the blocking task. -/
inductive Outcome where
  | ok (batches : List RecordBatch)
  | failed (detail : String)
  | panicked (message : String)

def Call.taskStep (c : Call) (o : Outcome) : Call :=
  match c.task, o with
  | .unspawned, _ | .ended _, _ => c
  | _, .panicked message => { c with task := .ended (.error ("Task join error: " ++ message)) }
  | .queued, .failed e =>
    { c with task := .ended (.error ("Failed to get pooled DB connection: " ++ e)) }
  | .queued, .ok _ => { c with task := .connected }
  | .connected, _ => { c with task := .published, interruptHandle := true }
  | .published, _ =>
    if c.cancelled then
      { c with task := .ended (.error "Stage cancelled before execution started") }
    else { c with task := .checked }
  -- the exchange inputs become temporary tables
  | .checked, .failed e => { c with task := .ended (.error ("Failed to register table " ++ e)) }
  | .checked, .ok _ => { c with task := .executing }
  | .executing, .failed e =>
    { c with task := .ended (.error ("Stage SQL execution failed: " ++ e)) }
  | .executing, .ok batches => { c with task := .ended (.ok batches) }

/-- A stored result, with the call that stored it. -/
structure CachedStageResult where
  batches : List RecordBatch
  createdBy : Nat

/-- The hash tables of the service are divided into shards. -/
structure Shards where
  count : Nat
  active : StageKey → Fin count
  results : StageResultKey → Fin count
  order : HashOrder Nat

/-- Where a handler of `cancel_query` stands, with the shards that it has not visited and the
handles that it has found in the shard it is visiting. -/
inductive Canceller (n : Nat) where
  | scanning (shards : List (Fin n))
  | flagging (found : List Nat) (shards : List (Fin n))
  | interrupting (call : Nat) (found : List Nat) (shards : List (Fin n))
  | removing (shards : List (Fin n))
  | returned

structure CancelCall (n : Nat) where
  queryId : String
  place : Canceller n
  stagesCancelled : Nat

structure State (n : Nat) where
  tenantId : String
  results : StageResultKey → Option CachedStageResult
  active : List (StageKey × Nat)
  calls : Nat → Option Call
  cancels : Nat → Option (CancelCall n)

/-- How a waiting handler is woken. -/
inductive Wake where
  | ready | timedOut | dropped
  deriving DecidableEq

inductive Move where
  | submit (i : Nat) (request : SubmitStageRequest)
  | handler (i : Nat) (wake : Wake)
  | task (i : Nat) (o : Outcome)
  | cancelQuery (j : Nat) (queryId : String)
  | cancel (j : Nat)
  | evict (expired : StageResultKey → Bool)

def start (n : Nat) (tenantId : String) : State n :=
  ⟨tenantId, fun _ => none, [], fun _ => none, fun _ => none⟩

variable {n : Nat}

namespace State

variable (s : State n)

/-- The kept results as requests for data see them. -/
def service : Service := ⟨s.tenantId, fun k => (s.results k).map (·.batches)⟩

def setCall (i : Nat) (c : Call) : State n :=
  { s with calls := fun k => if k = i then some c else s.calls k }

@[simp] theorem setCall_self (i : Nat) (c : Call) : (s.setCall i c).calls i = some c := if_pos rfl

def setCancel (j : Nat) (c : CancelCall n) : State n :=
  { s with cancels := fun k => if k = j then some c else s.cancels k }

def answer (i : Nat) (c : Call) (reply : Except Status Unit) : State n :=
  s.setCall i { c with handler := .answered reply }

def insertActive (key : StageKey) (i : Nat) : State n :=
  { s with active := (key, i)::s.active.filter fun e => e.1 ≠ key }

def removeActive (key : StageKey) : State n :=
  { s with active := s.active.filter fun e => e.1 ≠ key }

def store (key : StageResultKey) (result : CachedStageResult) : State n :=
  { s with results := fun k => if k = key then some result else s.results k }

def handlerStep (memorySize : RecordBatch → Nat) (s : State n) (i : Nat) (c : Call)
    (wake : Wake) : State n :=
  match c.handler with
  | .received =>
    match validateTenant s.service c.request.tenantId with
    | .error e => s.answer i c (.error e)
    | .ok () =>
      match c.request.exchangeInputs with
      | .error e => s.answer i c
          (.error (.internal ("Failed to deserialize exchange inputs: " ++ e)))
      | .ok _ =>
        if c.request.stageSql = "" then s.setCall i { c with handler := .executed [] }
        else (s.insertActive c.key i).setCall i { c with handler := .registered }
  | .registered => s.setCall i { c with handler := .spawned, task := .queued }
  -- the handle goes before the task has been awaited
  | .spawned => (s.removeActive c.key).setCall i { c with handler := .awaiting }
  | .awaiting =>
    match wake, c.task with
    | .timedOut, _ => s.answer i c (.error (.deadlineExceeded
        ("Stage execution timed out after " ++ toString (timeoutOf c.request) ++ "ms")))
    | .dropped, _ => s.setCall i { c with handler := .dropped }
    | .ready, .ended (.ok batches) => s.setCall i { c with handler := .executed batches }
    | .ready, .ended (.error e) =>
      s.answer i c (.error (.internal ("Stage execution failed: " ++ e)))
    | .ready, _ => s
  | .executed batches =>
    match checkLimits memorySize c.request.limits batches with
    | .error e => s.answer i c (.error e)
    | .ok () => (s.store c.resultKey ⟨batches, i⟩).answer i c (.ok ())
  | .answered _ | .dropped => s

def found (shards : Shards) (s : State shards.count) (queryId : String)
    (shard : Fin shards.count) : List Nat :=
  shards.order.iter
    ((s.active.filter fun e => e.1.1 = queryId ∧ shards.active e.1 = shard).map (·.2))

def cancelStep (shards : Shards) (s : State shards.count) (j : Nat)
    (c : CancelCall shards.count) : State shards.count :=
  match c.place with
  | .scanning [] => s.setCancel j { c with place := .removing (List.finRange shards.count) }
  | .scanning (shard::rest) =>
    s.setCancel j { c with place := .flagging (s.found shards c.queryId shard) rest }
  | .flagging [] rest => s.setCancel j { c with place := .scanning rest }
  | .flagging (i::found) rest =>
    { s.setCancel j { c with place := .interrupting i found rest } with
      calls := fun k => if k = i then (s.calls i).map fun h => { h with cancelled := true }
        else s.calls k }
  | .interrupting i found rest =>
    { s.setCancel j
        { c with place := .flagging found rest, stagesCancelled := c.stagesCancelled + 1 } with
      calls := fun k =>
        if k = i then
          (s.calls i).map fun h => { h with interrupted := h.interrupted || h.interruptHandle }
        else s.calls k }
  | .removing [] => s.setCancel j { c with place := .returned }
  | .removing (shard::rest) =>
    { s.setCancel j { c with place := .removing rest } with
      results := fun k =>
        if k.queryId = c.queryId ∧ shards.results k = shard then none else s.results k }
  | .returned => s

def step (shards : Shards) (memorySize : RecordBatch → Nat) (s : State shards.count) :
    Move → State shards.count
  | .submit i request => if (s.calls i).isSome then s else s.setCall i (.new request)
  | .handler i wake =>
    match s.calls i with
    | some c => s.handlerStep memorySize i c wake
    | none => s
  | .task i o =>
    match s.calls i with
    | some c => s.setCall i (c.taskStep o)
    | none => s
  | .cancelQuery j queryId =>
    if (s.cancels j).isSome then s
    else s.setCancel j ⟨queryId, .scanning (List.finRange shards.count), 0⟩
  | .cancel j =>
    match s.cancels j with
    | some c => s.cancelStep shards j c
    | none => s
  | .evict expired => { s with results := fun k => if expired k then none else s.results k }

end State

variable {shards : Shards} {memorySize : RecordBatch → Nat} {i : Nat} {c : Call}

section Inversion

def Call.Admitted (tenantId : String) (c : Call) : Prop :=
  c.request.tenantId = tenantId ∧ ∃ inputs, c.request.exchangeInputs = .ok inputs

/-- The handler is between listing its handle and taking it off. -/
def Call.Listed (c : Call) : Prop := c.handler = .registered ∨ c.handler = .spawned

/-- What a step of a handler can do. -/
inductive Handled (memorySize : RecordBatch → Nat) (s : State n) (i : Nat) (c : Call) :
    State n → Prop
  | waits : Handled memorySize s i c s
  | fails (status : Status) (h : ¬ c.Listed) :
      Handled memorySize s i c (s.answer i c (.error status))
  | drops (h : c.handler = .awaiting) :
      Handled memorySize s i c (s.setCall i { c with handler := .dropped })
  | skips (h : c.handler = .received) (hadmitted : c.Admitted s.tenantId)
      (hsql : c.request.stageSql = "") :
      Handled memorySize s i c (s.setCall i { c with handler := .executed [] })
  | registers (h : c.handler = .received) (hadmitted : c.Admitted s.tenantId)
      (hsql : c.request.stageSql ≠ "") :
      Handled memorySize s i c
        ((s.insertActive c.key i).setCall i { c with handler := .registered })
  | spawns (h : c.handler = .registered) :
      Handled memorySize s i c (s.setCall i { c with handler := .spawned, task := .queued })
  | deregisters (h : c.handler = .spawned) :
      Handled memorySize s i c ((s.removeActive c.key).setCall i { c with handler := .awaiting })
  | finishes (batches : List RecordBatch) (h : c.handler = .awaiting)
      (htask : c.task = .ended (.ok batches)) :
      Handled memorySize s i c (s.setCall i { c with handler := .executed batches })
  | stores (batches : List RecordBatch) (h : c.handler = .executed batches)
      (hlimits : checkLimits memorySize c.request.limits batches = .ok ()) :
      Handled memorySize s i c ((s.store c.resultKey ⟨batches, i⟩).answer i c (.ok ()))

theorem validateTenant_eq_ok {service : Service} {tenant : String} :
    validateTenant service tenant = .ok () ↔ tenant = service.tenantId := by
  by_cases h : tenant = service.tenantId <;> simp [validateTenant, h]

theorem handled_handlerStep (memorySize : RecordBatch → Nat) (s : State n) (i : Nat) (c : Call)
    (wake : Wake) : Handled memorySize s i c (s.handlerStep memorySize i c wake) := by
  unfold State.handlerStep
  split
  case h_1 h =>
    have unlisted : ¬ c.Listed := by simp [Call.Listed, h]
    cases htenant : validateTenant s.service c.request.tenantId with
    | error status => exact .fails status unlisted
    | ok =>
      cases hinputs : c.request.exchangeInputs with
      | error e => exact .fails _ unlisted
      | ok inputs =>
        have hadmitted : c.Admitted s.tenantId := ⟨validateTenant_eq_ok.mp htenant, inputs, hinputs⟩
        by_cases hsql : c.request.stageSql = ""
        · simpa [hsql] using Handled.skips h hadmitted hsql
        · simpa [hsql] using Handled.registers h hadmitted hsql
  case h_2 h => exact .spawns h
  case h_3 h => exact .deregisters h
  case h_4 h =>
    have unlisted : ¬ c.Listed := by simp [Call.Listed, h]
    split
    · exact .fails _ unlisted
    · exact .drops h
    · next htask => exact .finishes _ h htask
    · exact .fails _ unlisted
    · exact .waits
  case h_5 batches h =>
    have unlisted : ¬ c.Listed := by simp [Call.Listed, h]
    cases hlimits : checkLimits memorySize c.request.limits batches with
    | error status => exact .fails status unlisted
    | ok => exact .stores batches h hlimits
  case h_6 => exact .waits
  case h_7 => exact .waits

variable {s s' : State n}

theorem Handled.calls_other (h : Handled memorySize s i c s') {k : Nat} (hk : k ≠ i) :
    s'.calls k = s.calls k := by
  cases h <;> simp [State.answer, State.setCall, State.insertActive, State.removeActive,
    State.store, hk]

theorem Handled.calls_self (h : Handled memorySize s i c s') (hc : s.calls i = some c) :
    ∃ c', s'.calls i = some c' := by
  cases h <;> simp [State.answer, State.setCall, State.insertActive, State.removeActive,
    State.store, hc]

/-- What a step of the service can do to a call that is there. -/
inductive CallMoved (memorySize : RecordBatch → Nat) (s : State n) (m : Move) (i : Nat) (c : Call) :
    Call → Prop
  | same : CallMoved memorySize s m i c c
  | handled {s' : State n} {c' : Call} {wake : Wake} (hm : m = .handler i wake)
      (h : Handled memorySize s i c s') (hc : s'.calls i = some c') :
      CallMoved memorySize s m i c c'
  | tasked (o : Outcome) : CallMoved memorySize s m i c (c.taskStep o)
  | flagged : CallMoved memorySize s m i c { c with cancelled := true }
  | fired (h : c.interruptHandle = true) :
      CallMoved memorySize s m i c { c with interrupted := true }

theorem calls_cancelStep (memorySize : RecordBatch → Nat) (s : State shards.count) (j i : Nat)
    (canceller : CancelCall shards.count) :
    Entry (fun c => ∃ request, c = .new request) (CallMoved memorySize s (.cancel j) i) (s.calls i)
      ((s.cancelStep shards j canceller).calls i) := by
  fun_cases State.cancelStep shards s j canceller
  case case4 k found rest hplace =>
    refine .set (fun _ => .same) ?_
    rintro rfl
    cases s.calls i with
    | none => exact .none
    | some c => exact .changed .flagged
  case case5 k found rest hplace =>
    refine .set (fun _ => .same) ?_
    rintro rfl
    cases s.calls i with
    | none => exact .none
    | some c =>
      obtain ⟨_, _, _, _, interruptHandle, _⟩ := c
      refine .changed ?_
      cases interruptHandle with
      | true =>
        simp only [Bool.or_true]
        exact .fired rfl
      | false =>
        simp only [Bool.or_false]
        exact .same
  all_goals exact .same (fun _ => .same) _

/-- A call that is there after a step was there before, or has just been received. -/
theorem calls_step (memorySize : RecordBatch → Nat) (s : State shards.count) (m : Move) (i : Nat) :
    Entry (fun c => ∃ request, c = .new request) (CallMoved memorySize s m i) (s.calls i)
      ((s.step shards memorySize m).calls i) := by
  fun_cases State.step shards memorySize s m
  case case2 k request hnone =>
    refine .set (fun _ => .same) ?_
    rintro rfl
    exact Option.not_isSome_iff_eq_none.mp hnone ▸ .started ⟨request, rfl⟩
  case case3 k wake c hc =>
    have handled := handled_handlerStep memorySize s k c wake
    by_cases hk : i = k
    · subst hk
      obtain ⟨c', hc'⟩ := handled.calls_self hc
      rw [hc, hc']
      exact .changed (.handled rfl handled hc')
    · rw [handled.calls_other hk]
      exact .same (fun _ => .same) _
  case case5 k o c hc =>
    refine .set (fun _ => .same) ?_
    rintro rfl
    exact hc ▸ .changed (.tasked o)
  case case9 j canceller hj => exact calls_cancelStep memorySize s j i canceller
  all_goals exact .same (fun _ => .same) _

theorem callMoved_step (memorySize : RecordBatch → Nat) {s : State shards.count}
    (hc : s.calls i = some c) (m : Move) :
    ∃ c', (s.step shards memorySize m).calls i = some c' ∧ CallMoved memorySize s m i c c' :=
  (hc ▸ calls_step memorySize s m i).after

end Inversion

section Calls

variable {c c' : Call}

@[simp] theorem taskStep_request (c : Call) (o : Outcome) : (c.taskStep o).request = c.request := by
  unfold Call.taskStep
  split <;> try rfl
  split <;> rfl

@[simp] theorem taskStep_handler (c : Call) (o : Outcome) : (c.taskStep o).handler = c.handler := by
  unfold Call.taskStep
  split <;> try rfl
  split <;> rfl

@[simp] theorem taskStep_cancelled (c : Call) (o : Outcome) :
    (c.taskStep o).cancelled = c.cancelled := by
  unfold Call.taskStep
  split <;> try rfl
  split <;> rfl

theorem Handled.call {s s' : State n} (h : Handled memorySize s i c s') (hc : s.calls i = some c)
    (hc' : s'.calls i = some c') : ∃ handler task, c' = { c with handler, task } ∧
      (task = c.task ∨ c.handler = .registered ∧ task = .queued) := by
  cases h with
  | waits =>
    obtain rfl : c = c' := Option.some.inj (hc.symm.trans hc')
    exact ⟨_, _, rfl, .inl rfl⟩
  | spawns h =>
    simp only [State.setCall, if_true, Option.some.injEq] at hc'
    exact ⟨_, _, hc'.symm, .inr ⟨h, rfl⟩⟩
  | fails | drops | skips | registers | deregisters | finishes | stores =>
    simp only [State.answer, State.setCall, if_true, Option.some.injEq] at hc'
    exact ⟨_, _, hc'.symm, .inl rfl⟩

variable {s : State n} {m : Move} (h : CallMoved memorySize s m i c c') (hc : s.calls i = some c)
include h hc

theorem CallMoved.request : c'.request = c.request := by
  cases h with
  | same | flagged | fired => rfl
  | tasked o => simp
  | handled hm h hc' =>
    obtain ⟨handler, task, rfl, -⟩ := h.call hc hc'
    rfl

theorem CallMoved.key : c'.key = c.key := by
  rw [Call.key, h.request hc]
  rfl

theorem CallMoved.cancelled (hcancelled : c.cancelled = true) : c'.cancelled = true := by
  cases h with
  | same | fired => exact hcancelled
  | flagged => rfl
  | tasked o => simpa using hcancelled
  | handled hm h hc' =>
    obtain ⟨handler, task, rfl, -⟩ := h.call hc hc'
    exact hcancelled

omit h hc

/-- A call that is there after a step was there before, or has just been received. -/
theorem callMoved_inv (memorySize : RecordBatch → Nat) {s : State shards.count}
    (h : (s.step shards memorySize m).calls i = some c') :
    (∃ c, s.calls i = some c ∧ CallMoved memorySize s m i c c') ∨
      s.calls i = none ∧ ∃ request, c' = .new request :=
  (h ▸ calls_step memorySize s m i).before

end Calls

section Frames

variable {i j : Nat}

variable {m : Move} {s s' : State n}

theorem active_step_other (shards : Shards) (memorySize : RecordBatch → Nat)
    (s : State shards.count) (h : ∀ k wake, m ≠ .handler k wake) :
    (s.step shards memorySize m).active = s.active := by
  revert h
  fun_cases State.step shards memorySize s m <;> intro h
  case case3 k wake _ _ => exact absurd rfl (h k wake)
  case case9 j c _ => fun_cases State.cancelStep shards s j c <;> rfl
  all_goals rfl

theorem cancels_handled (h : Handled memorySize s i c s') : s'.cancels = s.cancels := by
  cases h <;> rfl

theorem cancels_step_other (shards : Shards) (memorySize : RecordBatch → Nat)
    (s : State shards.count) (hm : m ≠ .cancel j) (hj : (s.cancels j).isSome) :
    (s.step shards memorySize m).cancels j = s.cancels j := by
  revert hm
  fun_cases State.step shards memorySize s m <;> intro hm
  case case3 k wake c _ => rw [cancels_handled (handled_handlerStep memorySize s k c wake)]
  case case8 k queryId hk =>
    have hne : j ≠ k := by
      rintro rfl
      exact hk hj
    simp [State.setCancel, hne]
  case case9 k c _ =>
    have hne : j ≠ k := by
      rintro rfl
      exact hm rfl
    fun_cases State.cancelStep shards s k c <;> first | rfl | exact if_neg hne
  all_goals rfl

theorem tenantId_handled (h : Handled memorySize s i c s') : s'.tenantId = s.tenantId := by
  cases h <;> rfl

theorem tenantId_step (shards : Shards) (memorySize : RecordBatch → Nat) (s : State shards.count)
    (m : Move) : (s.step shards memorySize m).tenantId = s.tenantId := by
  fun_cases State.step shards memorySize s m
  case case3 k wake c _ => exact tenantId_handled (handled_handlerStep memorySize s k c wake)
  case case9 j c _ => fun_cases State.cancelStep shards s j c <;> rfl
  all_goals rfl

end Frames

end Leibrix.StageTasks
