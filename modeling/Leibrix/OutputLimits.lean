import Leibrix.FlightTickets
import Leibrix.LocalStages

/-!
# Output limits of a stage, here and on the workers

The local executor runs a stage for one worker after the other and has all of them report
to one monitor, so its limits hold for what they produce together. A worker that gets the
stage by itself checks its own output.
-/

set_option autoImplicit false

namespace Leibrix.OutputLimits
open ArrowBatch ExchangeRuntime FlightTickets LdpTypes LocalStages ProtoConvert SqlAst

/-- No more rows and bytes than the limits say. -/
def Allows (limits : ProtoConvert.StageLimits) (monitor : Monitor) : Prop :=
  monitor.rowsProduced ≤ limits.maxRowsOutput.toNat ∧
    monitor.bytesProduced ≤ limits.maxBytesOutput.toNat

variable {Db : Type} {executor : LocalExecutor Db} {queryId : String} {stage : SentStage}
  {inputs : Inputs} {elapsed : WorkerId → Nat} {output : WorkerId → List RecordBatch}
  {memorySize : RecordBatch → Nat} {limits : ProtoConvert.StageLimits} {monitor : Monitor}

variable {batches : List RecordBatch}

section Local

def outputOf (executor : LocalExecutor Db) (stage : SentStage) (inputs : Inputs)
    (worker : WorkerId) : Except StageExecutionError (List RecordBatch) :=
  if stage.stageSql = "" then .ok []
  else executor.executeSql worker stage.stageSql inputs (decide (.localCatalog ∈ stage.inputs))

/-- The stage runs in time on all its workers, and each output can be stored. -/
structure RunsLocally (executor : LocalExecutor Db) (queryId : String) (stage : SentStage)
    (inputs : Inputs) (elapsed : WorkerId → Nat) (output : WorkerId → List RecordBatch) : Prop where
  ran : ∀ w ∈ stage.targetWorkers, outputOf executor stage inputs w = .ok (output w)
  inTime : ∀ w ∈ stage.targetWorkers, elapsed w ≤ stage.limits.timeoutMs.toNat * nanosPerMilli
  storable : ∀ w ∈ stage.targetWorkers, ∃ parts,
    executor.storedParts queryId stage w (output w) = .ok parts

def rowsOf (batches : List RecordBatch) : Nat := (batchRows batches).length

def bytesOf (memorySize : RecordBatch → Nat) (batches : List RecordBatch) : Nat :=
  (batches.map memorySize).sum

def counted (memorySize : RecordBatch → Nat) (monitor : Monitor) (batches : List RecordBatch) :
    Monitor :=
  ⟨monitor.rowsProduced + rowsOf batches, monitor.bytesProduced + bytesOf memorySize batches⟩

theorem two_limits_ok_iff {ε : Type} {e e' : ε} {a b rows bytes : Nat} :
    (if a < rows then .error e else if b < bytes then .error e' else .ok ()) = Except.ok () ↔
      rows ≤ a ∧ bytes ≤ b := by
  split_ifs <;> simp <;> omega

variable (monitor) in
theorem checkLimits_ok_iff {t : Nat} (h : t ≤ limits.timeoutMs.toNat * nanosPerMilli) :
    monitor.checkLimits limits t = .ok () ↔ Allows limits monitor := by
  rw [Monitor.checkLimits, if_neg (Nat.not_lt.mpr h)]
  exact two_limits_ok_iff

theorem checkOutputLimits_ok (h : Allows limits (counted executor.memorySize monitor batches)) :
    executor.checkOutputLimits batches limits = .ok () :=
  two_limits_ok_iff.mpr ⟨(Nat.le_add_left _ monitor.rowsProduced).trans h.1,
    (Nat.le_add_left _ monitor.bytesProduced).trans h.2⟩

theorem mapError_eq_ok_iff {ε ε' α : Type} {x : Except ε α} {f : ε → ε'} {a : α} :
    x.mapError f = .ok a ↔ x = .ok a := by
  cases x <;> simp [Except.mapError]

variable (h : RunsLocally executor queryId stage inputs elapsed output) {w : WorkerId}
  (hw : w ∈ stage.targetWorkers)
include h hw

theorem executeSqlWithMonitor_ok_iff (fits : Allows stage.limits monitor)
    (result : List RecordBatch × Monitor) :
    executor.executeSqlWithMonitor w stage.stageSql inputs (decide (.localCatalog ∈ stage.inputs))
        stage.limits (elapsed w) monitor = .ok result ↔
      Allows stage.limits (counted executor.memorySize monitor (output w)) ∧
        result = (output w, counted executor.memorySize monitor (output w)) := by
  have ran := h.ran w hw
  rw [outputOf] at ran
  rw [LocalExecutor.executeSqlWithMonitor]
  split_ifs at ran ⊢ with empty
  · obtain ran : [] = output w := Except.ok.inj ran
    have same : counted executor.memorySize monitor [] = monitor := rfl
    rw [← ran, same]
    simp [fits, eq_comm]
  · simp only [bind_eq_ok, ran, Except.ok.injEq, exists_eq_left', mapError_eq_ok_iff, pure_eq_ok]
    have checked := checkLimits_ok_iff (counted executor.memorySize monitor (output w))
      (h.inTime w hw)
    constructor
    · rintro ⟨⟨⟩, ok, rfl⟩
      exact ⟨checked.mp ok, rfl⟩
    · rintro ⟨allowed, rfl⟩
      exact ⟨(), checked.mpr allowed, rfl⟩

/-- One worker of the loop is accepted if what was produced so far still fits with its output. -/
theorem submitForWorker_ok_iff {s s' : LocalExecutor.Submitted}
    (fits : Allows stage.limits s.monitor) :
    executor.submitForWorker queryId stage inputs elapsed s w = .ok s' ↔
      Allows stage.limits (counted executor.memorySize s.monitor (output w)) ∧
      ∃ parts, executor.storedParts queryId stage w (output w) = .ok parts ∧
        s' = ⟨counted executor.memorySize s.monitor (output w), s.stored ++ parts⟩ := by
  rw [LocalExecutor.submitForWorker, bind_eq_ok]
  simp only [executeSqlWithMonitor_ok_iff h hw fits]
  constructor
  · rintro ⟨-, ⟨allowed, rfl⟩, rest⟩
    simp only [bind_eq_ok, checkOutputLimits_ok allowed, pure_eq_ok] at rest
    obtain ⟨-, -, parts, hparts, rfl⟩ := rest
    exact ⟨allowed, parts, hparts, rfl⟩
  · rintro ⟨allowed, parts, hparts, rfl⟩
    refine ⟨_, ⟨allowed, rfl⟩, ?_⟩
    simp only [bind_eq_ok, checkOutputLimits_ok allowed, pure_eq_ok]
    exact ⟨(), trivial, parts, hparts, rfl⟩

omit h hw

/-- What the workers of the list produce together, after what the monitor has. -/
def together (memorySize : RecordBatch → Nat) (output : WorkerId → List RecordBatch)
    (monitor : Monitor) (workers : List WorkerId) : Monitor :=
  ⟨monitor.rowsProduced + (workers.map fun w => rowsOf (output w)).sum,
    monitor.bytesProduced + (workers.map fun w => bytesOf memorySize (output w)).sum⟩

theorem submit_ok_iff (h : RunsLocally executor queryId stage inputs elapsed output)
    {workers : List WorkerId} (hws : workers ⊆ stage.targetWorkers) {s : LocalExecutor.Submitted}
    (fits : Allows stage.limits s.monitor) :
    (∃ s', workers.foldlM (executor.submitForWorker queryId stage inputs elapsed) s = .ok s') ↔
      Allows stage.limits (together executor.memorySize output s.monitor workers) := by
  induction workers generalizing s with
  | nil => exact iff_of_true ⟨s, rfl⟩ fits
  | cons w workers ih =>
    have hw := hws List.mem_cons_self
    have rest := List.subset_of_cons_subset hws
    have step : together executor.memorySize output s.monitor (w::workers) =
        together executor.memorySize output (counted executor.memorySize s.monitor (output w))
          workers := by
      simp [together, counted, Nat.add_assoc]
    rw [List.foldlM_cons, step]
    simp only [bind_eq_ok, submitForWorker_ok_iff h hw fits]
    constructor
    · rintro ⟨s', -, ⟨allowed, parts, -, rfl⟩, next⟩
      exact (ih rest allowed).mp ⟨s', next⟩
    · intro allowed
      have here : Allows stage.limits (counted executor.memorySize s.monitor (output w)) :=
        ⟨(Nat.le_add_right _ _).trans allowed.1, (Nat.le_add_right _ _).trans allowed.2⟩
      obtain ⟨parts, hparts⟩ := h.storable w hw
      obtain ⟨s', hs'⟩ := (ih (s := ⟨_, s.stored ++ parts⟩) rest here).mpr allowed
      exact ⟨s', _, ⟨here, parts, hparts, rfl⟩, hs'⟩

end Local

section Remote

/-- The limits of a stage as a worker gets them. -/
def sentLimits (limits : ProtoConvert.StageLimits) : FlightTickets.StageLimits :=
  ⟨limits.maxRowsOutput.toNat, limits.maxBytesOutput.toNat, limits.timeoutMs.toNat⟩

/-- A worker takes the request and its engine finishes in time, with the output. -/
structure RunsRemotely
    (run : SubmitStageRequest → List (String × List RecordBatch) → StageRun) (stage : SentStage)
    (service : Service) (request : SubmitStageRequest) (batches : List RecordBatch) : Prop where
  tenant : request.tenantId = service.tenantId
  sql : request.stageSql = stage.stageSql
  limits : request.limits = some (sentLimits stage.limits)
  ran : ∃ ins, request.exchangeInputs = .ok ins ∧
    executeStage run request ins = .ok batches

variable {json : JsonCodec}
  {run : SubmitStageRequest → List (String × List RecordBatch) → StageRun}

theorem RunsRemotely.accepted_iff {service : Service} {request : SubmitStageRequest}
    (h : RunsRemotely run stage service request batches) :
    (∃ reply, handleSubmitStage json memorySize run service request = .ok reply) ↔
      Allows stage.limits (counted memorySize ⟨0, 0⟩ batches) := by
  obtain ⟨ins, hins, ran⟩ := h.ran
  have checked : checkLimits memorySize request.limits batches = .ok () ↔
      Allows stage.limits (counted memorySize ⟨0, 0⟩ batches) := by
    rw [h.limits, Allows, counted, Nat.zero_add, Nat.zero_add]
    exact two_limits_ok_iff
  simp only [handleSubmitStage_ok_iff, h.tenant, hins, ran, Except.ok.injEq, exists_and_left,
    exists_eq_left', true_and, exists_eq, and_true, checked]

end Remote

/-- The local executor agrees with the workers unless each output fits and all of them together
do not. -/
theorem limits_agree_iff (here : RunsLocally executor queryId stage inputs elapsed output)
    (json : JsonCodec)
    {run : SubmitStageRequest → List (String × List RecordBatch) → StageRun}
    {service : WorkerId → Service} {request : WorkerId → SubmitStageRequest}
    (there : ∀ w ∈ stage.targetWorkers,
      RunsRemotely run stage (service w) (request w) (output w)) :
    ((∃ stored, executor.submitStage queryId stage inputs elapsed = .ok stored) ↔
      ∀ w ∈ stage.targetWorkers, ∃ reply,
        handleSubmitStage json executor.memorySize run (service w) (request w) = .ok reply) ↔
    Allows stage.limits (together executor.memorySize output ⟨0, 0⟩ stage.targetWorkers) ∨
      ∃ w ∈ stage.targetWorkers,
        ¬ Allows stage.limits (counted executor.memorySize ⟨0, 0⟩ (output w)) := by
  have accepted : (∃ stored, executor.submitStage queryId stage inputs elapsed = .ok stored) ↔
      Allows stage.limits (together executor.memorySize output ⟨0, 0⟩ stage.targetWorkers) := by
    rw [← submit_ok_iff here (List.Subset.refl _) (s := ⟨⟨0, 0⟩, []⟩)
      ⟨Nat.zero_le _, Nat.zero_le _⟩]
    simp only [LocalExecutor.submitStage, bind_eq_ok, pure_eq_ok]
    exact ⟨fun ⟨_, s, hs, _⟩ => ⟨s, hs⟩, fun ⟨s, hs⟩ => ⟨_, s, hs, rfl⟩⟩
  have each : (∀ w ∈ stage.targetWorkers, ∃ reply,
      handleSubmitStage json executor.memorySize run (service w) (request w) = .ok reply) ↔
      ∀ w ∈ stage.targetWorkers,
        Allows stage.limits (counted executor.memorySize ⟨0, 0⟩ (output w)) :=
    forall₂_congr fun w hw => (there w hw).accepted_iff
  have split (all : Allows stage.limits
      (together executor.memorySize output ⟨0, 0⟩ stage.targetWorkers)) (w : WorkerId)
      (hw : w ∈ stage.targetWorkers) :
      Allows stage.limits (counted executor.memorySize ⟨0, 0⟩ (output w)) :=
    ⟨(Nat.add_le_add_left (List.le_sum_of_mem (List.mem_map_of_mem hw)) _).trans all.1,
      (Nat.add_le_add_left (List.le_sum_of_mem (List.mem_map_of_mem hw)) _).trans all.2⟩
  rw [accepted, each]
  constructor
  · intro same
    by_contra! neither
    exact neither.1 (same.mpr neither.2)
  · rintro (all | ⟨w, hw, exceeded⟩)
    · exact ⟨split, fun _ => all⟩
    · exact ⟨split, fun fit => absurd (fit w hw) exceeded⟩

/-- An executor whose database answers everything with one row. -/
def oneRowEach : LocalExecutor Unit where
  duckdb := ⟨(), fun _ _ _ => .ok (oneRow.schema, [oneRow])⟩
  workerDatabases _ := none
  memorySize _ := 0
  debugDuration _ := ""
  lower := id
  partition batch _ n := .ok (List.replicate n batch)

def countedStage (rows : UInt64) (workers : List WorkerId) : SentStage :=
  ⟨0, workers, [], .stream, "SELECT 1", { maxRowsOutput := rows }⟩

def oneRowRequest (rows : UInt64) : SubmitStageRequest :=
  ⟨"t", "q", 0, "SELECT 1", .ok [], some (sentLimits (countedStage rows []).limits)⟩

theorem limits_agree_two_workers :
    ((∃ stored, oneRowEach.submitStage "q" (countedStage 2 ["w1", "w2"]) (fun _ => none)
        (fun _ => 0) = .ok stored) ↔
      ∀ w ∈ ["w1", "w2"], ∃ reply, handleSubmitStage objectCodec (fun _ => 0)
        (fun _ _ => .finished [oneRow]) emptyService (oneRowRequest 2) = .ok reply) := by
  have here : RunsLocally oneRowEach "q" (countedStage 2 ["w1", "w2"]) (fun _ => none)
      (fun _ => 0) fun _ => [oneRow] :=
    ⟨fun _ _ => rfl, fun _ _ => Nat.zero_le _, fun _ _ => ⟨_, rfl⟩⟩
  have there : RunsRemotely (fun _ _ => .finished [oneRow]) (countedStage 2 ["w1", "w2"])
      emptyService (oneRowRequest 2) [oneRow] :=
    ⟨rfl, rfl, rfl, _, rfl, rfl⟩
  exact (limits_agree_iff here objectCodec fun _ _ => there).mpr (.inl ⟨by decide, by decide⟩)

/-- Each of two workers may produce its row, but the local executor stops at the second. -/
theorem limits_counted_together :
    (∃ e, oneRowEach.submitStage "q" (countedStage 1 ["w1", "w2"]) (fun _ => none) (fun _ => 0) =
      .error e) ∧
    ∃ reply, handleSubmitStage objectCodec (fun _ => 0) (fun _ _ => .finished [oneRow]) emptyService
      (oneRowRequest 1) = .ok reply :=
  ⟨⟨_, rfl⟩, _, rfl⟩

end Leibrix.OutputLimits
