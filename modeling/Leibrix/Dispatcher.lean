import Leibrix.SourceLoad

/-!
# The runtime dispatcher

The receive task handles one control command after another; each accepted assignment
gets a load task of its own. The tasks share the map of epoch phases and the storage
engine, and every access to either is a step by itself, so that other tasks may come in
between. What the database, the macro update, the semaphore and the status channel do
comes with the step.
-/

set_option autoImplicit false

namespace Leibrix.Dispatcher
open ArrowBatch EpochEngine SourceClients SourceLoad

inductive EpochPhase where
  | loading | active | evicting
  deriving DecidableEq

structure EpochKey where
  datasetId : String
  epochId : String
  deriving DecidableEq

def EpochKey.engineKey (key : EpochKey) : String := epochKey key.datasetId key.epochId

inductive LoadStatus where
  | inProgress | completed | failed
  deriving DecidableEq

structure StatusUpdate where
  key : EpochKey
  status : LoadStatus
  error : Option String
  deriving DecidableEq

/-- The schema bytes of an assignment are kept as what they decode to. -/
structure LoadAssignment where
  datasetId : String
  epochId : String
  destinationTableName : String
  timeColumnName : String
  schema : Except String Schema
  source : Source

def LoadAssignment.key (a : LoadAssignment) : EpochKey := ⟨a.datasetId, a.epochId⟩

def intoLoadRequest (a : LoadAssignment) : Except String LoadRequest :=
  match a.schema with
  | .error _ =>
    .error ("failed to decode Arrow schema for epoch " ++ a.datasetId ++ "/" ++ a.epochId)
  | .ok schema => .ok ⟨a.datasetId, ⟨a.epochId, a.destinationTableName⟩, a.source, schema⟩

inductive ControlCommand where
  | assignment (a : LoadAssignment)
  | evictEpoch (key : EpochKey) (reason : String)
  | drain
  | unknown (eventType : String)

/-- Where a load task stands: what it does next. -/
inductive TaskPc where
  | queued
  | loading (sent : Nat)
  | loaded (result : Except StorageError TableMetadata)
  | dropping
  | dropMacro
  | clearing
  | registering
  | updatingMacro
  | publishing
  | retracting (message : String)
  | reportCompleted
  | reportFailed (message : String)
  | finished

structure Task where
  request : LoadRequest
  timeColumnName : String
  pc : TaskPc

def Task.key (t : Task) : EpochKey := ⟨t.request.datasetId, t.request.epochView.epochId⟩

/-- Where the receive task stands. An eviction carries the phase that it has read. -/
inductive Receiver where
  | idle
  | reporting (key : EpochKey) (message : String)
  | marking (a : LoadAssignment)
  | converting (a : LoadAssignment)
  | evicting (key : EpochKey) (phase : Option EpochPhase)
  | dropping (key : EpochKey)
  | updatingMacro (key : EpochKey)

/-- `tasks` has all tasks ever spawned; a task is known to the engine by its place.
The newest status update comes first in `reported`. -/
structure State where
  phases : EpochKey → Option EpochPhase
  engine : EngineState Nat
  tasks : List Task
  receiver : Receiver
  draining : Bool
  datasets : String → Option String
  reported : List StatusUpdate

def initial : State :=
  ⟨fun _ => none, EngineState.fresh Nat, [], .idle, false, fun _ => none, []⟩

variable (s : State)

def State.listLoadedEpochs : Set EpochKey := { key | s.phases key = some .active }

/-- What the world does with one step. -/
structure Outcome where
  duck : Duck := {}
  macroError : Option String := none
  permit : Bool := true
  delivers : Bool := true

def State.setPhase (key : EpochKey) (phase : Option EpochPhase) : State :=
  { s with phases := Function.update s.phases key phase }

def State.reportStatus (o : Outcome) (key : EpochKey) (status : LoadStatus)
    (error : Option String) : State :=
  if o.delivers then { s with reported := ⟨key, status, error⟩ :: s.reported } else s

section Report

variable (s : State) (o : Outcome) (key : EpochKey) (status : LoadStatus) (error : Option String)

@[simp] theorem reportStatus_tasks : (s.reportStatus o key status error).tasks = s.tasks := by
  unfold State.reportStatus
  split <;> rfl

@[simp] theorem reportStatus_receiver :
    (s.reportStatus o key status error).receiver = s.receiver := by
  unfold State.reportStatus
  split <;> rfl

@[simp] theorem reportStatus_phases : (s.reportStatus o key status error).phases = s.phases := by
  unfold State.reportStatus
  split <;> rfl

@[simp] theorem reportStatus_engine : (s.reportStatus o key status error).engine = s.engine := by
  unfold State.reportStatus
  split <;> rfl

end Report

def State.setPc (i : Nat) (t : Task) (pc : TaskPc) : State :=
  { s with tasks := s.tasks.set i { t with pc := pc } }

/-- The receive task takes a command when it is idle. -/
def receive (s : State) (command : ControlCommand) : State :=
  match s.receiver with
  | .idle =>
    match command with
    | .assignment a =>
      if s.draining then { s with receiver := .reporting a.key "worker is draining" }
      else if s.phases a.key = some .evicting then s
      else { s with receiver := .marking a }
    | .evictEpoch key _ => { s with receiver := .evicting key (s.phases key) }
    | .drain => { s with draining := true }
    | .unknown _ => s
  | _ => s

def receiverStep (o : Outcome) (s : State) : State :=
  match s.receiver with
  | .idle => s
  | .reporting key message => { s.reportStatus o key .failed (some message) with receiver := .idle }
  | .marking a => { s.setPhase a.key (some .loading) with receiver := .converting a }
  | .converting a =>
    match intoLoadRequest a with
    | .error e => { s.setPhase a.key none with receiver := .reporting a.key e }
    | .ok request =>
      { s with tasks := s.tasks ++ [⟨request, a.timeColumnName, .queued⟩], receiver := .idle }
  | .evicting key phase =>
    match phase with
    | some .loading => { s.setPhase key (some .evicting) with receiver := .idle }
    | some .evicting => { s with receiver := .idle }
    | some .active | none => { s.setPhase key none with receiver := .dropping key }
  | .dropping key =>
    match onDropEpoch o.duck s.engine key.datasetId key.epochId with
    | (.error _, engine) => { s with engine := engine, receiver := .idle }
    | (.ok (), engine) =>
      match s.datasets key.datasetId with
      | some _ => { s with engine := engine, receiver := .updatingMacro key }
      | none => { s with engine := engine, receiver := .idle }
  | .updatingMacro _ => { s with receiver := .idle }

section Load

/-- The data loader, with the flush threshold of its engine. -/
structure Loader where
  threshold : Nat
  arrow : Arrow
  parseDecimal : String → Int → Except String I128

def Loader.stream (l : Loader) (request : LoadRequest) : Except StorageError RecordBatchStream :=
  streamData l.arrow l.parseDecimal request.schema request.source

def callOf (request : LoadRequest) (stream : RecordBatchStream) : Call :=
  ⟨request.datasetId, request.epochView, stream⟩

variable (l : Loader)

def taskStep (o : Outcome) (s : State) (i : Nat) (t : Task) : State :=
  match t.pc with
  | .queued =>
    if o.permit then (s.reportStatus o t.key .inProgress none).setPc i t (.loading 0)
    else (s.setPhase t.key none).setPc i t .finished
  | .loading sent =>
    match l.stream t.request with
    | .error e => s.setPc i t (.loaded (.error e))
    | .ok stream =>
      match ((callOf t.request stream).commands i)[sent]? with
      | some com =>
        { s with engine := engineStep l.threshold o.duck s.engine com }.setPc i t
          (.loading (sent + 1))
      | none =>
        match (callOf t.request stream).returned (s.engine.replies i) with
        | some result => s.setPc i t (.loaded result)
        | none => s
  | .loaded (.error e) => (s.setPhase t.key none).setPc i t (.reportFailed (storageErrorText e))
  | .loaded (.ok _) =>
    if s.phases t.key = some .evicting then s.setPc i t .dropping
    else if t.timeColumnName = "" then s.setPc i t .publishing
    else s.setPc i t .registering
  | .dropping =>
    match onDropEpoch o.duck s.engine t.key.datasetId t.key.epochId with
    | (.error _, engine) => { s with engine := engine }.setPc i t .clearing
    | (.ok (), engine) =>
      { s with engine := engine }.setPc i t
        (if t.timeColumnName = "" then .clearing else .dropMacro)
  | .dropMacro => s.setPc i t .clearing
  | .clearing => (s.setPhase t.key none).setPc i t .finished
  | .registering =>
    { s with
      datasets := Function.update s.datasets t.key.datasetId
        (some t.timeColumnName) }.setPc i t .updatingMacro
  | .updatingMacro =>
    match o.macroError with
    | none => s.setPc i t .publishing
    | some e => s.setPc i t (.retracting ("macro update failed: " ++ e))
  | .publishing => (s.setPhase t.key (some .active)).setPc i t .reportCompleted
  | .retracting message => (s.setPhase t.key none).setPc i t (.reportFailed message)
  | .reportCompleted => (s.reportStatus o t.key .completed none).setPc i t .finished
  | .reportFailed message => (s.reportStatus o t.key .failed (some message)).setPc i t .finished
  | .finished => s

inductive Move where
  | receive (command : ControlCommand)
  | receiver (o : Outcome)
  | task (i : Nat) (o : Outcome)

def step (s : State) : Move → State
  | .receive command => receive s command
  | .receiver o => receiverStep o s
  | .task i o =>
    match s.tasks[i]? with
    | some t => taskStep l o s i t
    | none => s

def Quiet (s : State) : Prop :=
  s.receiver = .idle ∧ ∀ t ∈ s.tasks, t.pc = .finished

end Load

end Leibrix.Dispatcher
