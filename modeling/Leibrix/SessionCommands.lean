import Leibrix.Dispatcher
import Mathlib.Data.List.Infix

/-!
# Commands received by a session

A session reads the first message of its stream as the answer to its registration and
hands the rest, one after the other, to the dispatcher. Of a message only its payload is
read. Addresses, times and the fields of an assignment that no load reads are left out.
-/

set_option autoImplicit false

namespace Leibrix.SessionCommands
open ArrowBatch SourceClients Dispatcher List

structure ConversionError where
  messageType : String
  field : String
  deriving DecidableEq

def required {α : Type} (messageType field : String) : Option α → Except ConversionError α
  | some a => .ok a
  | none => .error ⟨messageType, field⟩

structure TimeRangeProto where
  startInclusive : Option Int
  endExclusive : Option Int

structure ResolvedPartition where
  timeRange : Option TimeRangeProto
  timeColumnName : String

/-- A catalog is kept as the source that it leads to. -/
structure CatalogProto where
  catalogType : Option Source

structure DataSourceProto where
  catalog : Option CatalogProto

structure LoadPlan where
  source : Option DataSourceProto
  destinationTableName : String
  arrowSchema : Except String Schema
  resolvedPartition : Option ResolvedPartition

structure DataAssignmentEvent where
  datasetId : String
  epochId : String
  loadPlan : Option LoadPlan

structure CommonAckEvent where
  eventType : String
  fields : List (String × String)

inductive Payload where
  | dataAssignment (ev : DataAssignmentEvent)
  | commonAck (ack : CommonAckEvent)
  | other

def dataSourceFromProto (ds : DataSourceProto) : Except ConversionError Source := do
  let catalog ← required "DataSource" "catalog" ds.catalog
  required "Catalog" "catalog_type" catalog.catalogType

def timeRangeFromProto (tr : TimeRangeProto) : Except ConversionError (Int × Int) := do
  let start ← required "TimeRange" "start_inclusive" tr.startInclusive
  let stop ← required "TimeRange" "end_exclusive" tr.endExclusive
  return (start, stop)

def assignmentFromProto (ev : DataAssignmentEvent) : Except ConversionError LoadAssignment := do
  let plan ← required "DataAssignmentEvent" "load_plan" ev.loadPlan
  let sourceProto ← required "LoadPlan" "source" plan.source
  let source ← dataSourceFromProto sourceProto
  let timeColumnName ←
    match plan.resolvedPartition with
    | none => pure ""
    | some rp => do
      let _ ← rp.timeRange.mapM timeRangeFromProto
      pure rp.timeColumnName
  return ⟨ev.datasetId, ev.epochId, plan.destinationTableName, timeColumnName, plan.arrowSchema,
    source⟩

def CommonAckEvent.field (ack : CommonAckEvent) (name : String) : String :=
  (ack.fields.lookup name).getD ""

def commandFromAck (ack : CommonAckEvent) : ControlCommand :=
  if ack.eventType = "evict_epoch" then
    .evictEpoch ⟨ack.field "dataset_id", ack.field "epoch_id"⟩ (ack.field "reason")
  else if ack.eventType = "drain_command" then .drain
  else .unknown ack.eventType

/-- What the receive side of a stream comes to. -/
inductive Received where
  | message (payload : Option Payload)
  | streamError (status : String)
  | closed
  | cancelled

inductive SessionError where
  | registrationRejected (reason : String)
  | streamClosed (reason : String)
  | handshakeTimeout
  deriving DecidableEq

def handleInbound : Option Payload → List ControlCommand
  | some (.dataAssignment ev) =>
    match assignmentFromProto ev with
    | .ok assignment => [.assignment assignment]
    | .error _ => []
  | some (.commonAck ack) => [commandFromAck ack]
  | some .other => []
  | none => []

def runReceiveTask : List Received → List ControlCommand
  | .message payload::rest => handleInbound payload ++ runReceiveTask rest
  | _ => []

def contains (text part : String) : Bool := decide (part.toList <:+: text.toList)

/-- The commands that reach the dispatcher once the stream is open. -/
def start : List Received → Except SessionError (List ControlCommand)
  | [] | .cancelled::_ => .error .handshakeTimeout
  | .streamError status::_ =>
    .error (.streamClosed ("stream error during registration: " ++ status))
  | .closed::_ => .error (.streamClosed "server closed stream during registration handshake")
  | .message (some (.commonAck ack))::rest =>
    if ack.eventType = "registration_ack" then .ok (runReceiveTask rest)
    else if contains ack.eventType "reject" then .error (.registrationRejected ack.eventType)
    else .ok (runReceiveTask rest)
  -- any other first message is treated as an answer too
  | .message _::rest => .ok (runReceiveTask rest)

def messages : List Received → List (Option Payload)
  | .message payload::rest => payload :: messages rest
  | _ => []

def known : ControlCommand → Bool
  | .unknown _ => false
  | _ => true

/-- The assignment or command that a message carries. An acknowledgement carries none. -/
def wanted (payload : Option Payload) : List ControlCommand := (handleInbound payload).filter known

theorem runReceiveTask_filter (stream : List Received) :
    (runReceiveTask stream).filter known = (messages stream).flatMap wanted := by
  induction stream with
  | nil => rfl
  | cons received rest ih =>
    cases received with
    | message payload => rw [runReceiveTask, messages, filter_append, ih, flatMap_cons, wanted]
    | streamError status | closed | cancelled => rfl

theorem start_ok {stream : List Received} {commands : List ControlCommand}
    (h : start stream = .ok commands) :
    ∃ first rest, stream = .message first::rest ∧ commands = runReceiveTask rest := by
  unfold start at h
  split at h
  · cases h
  · cases h
  · cases h
  · cases h
  · split at h
    · cases h
      exact ⟨_, _, rfl, rfl⟩
    split at h
    · cases h
    · cases h
      exact ⟨_, _, rfl, rfl⟩
  · cases h
    exact ⟨_, _, rfl, rfl⟩

/-- The dispatcher gets all assignments and commands of the stream, in order, exactly if the first
message carries none. -/
theorem commands_delivered_iff {stream : List Received} {commands : List ControlCommand}
    (h : start stream = .ok commands) :
    commands.filter known = (messages stream).flatMap wanted ↔
      ∀ first rest, stream = .message first::rest → wanted first = [] := by
  obtain ⟨first, rest, rfl, rfl⟩ := start_ok h
  rw [runReceiveTask_filter, messages, flatMap_cons]
  constructor
  · rintro whole _ _ ⟨⟩
    exact self_eq_append_left.mp whole
  · intro none
    rw [none first rest rfl, nil_append]

def registrationAck : Received := .message (some (.commonAck ⟨"registration_ack", []⟩))

def salesEvent : Received :=
  .message (some (.dataAssignment ⟨"sales", "2024", some ⟨some ⟨some ⟨some (.iceberg "s3")⟩⟩,
    "sales_2024", .ok [], none⟩⟩))

theorem commands_delivered_after_ack :
    ∃ commands, start [registrationAck, salesEvent, .closed] = .ok commands ∧
      commands.filter known = (messages [registrationAck, salesEvent, .closed]).flatMap wanted := by
  refine ⟨_, rfl, (commands_delivered_iff rfl).mpr ?_⟩
  rintro _ _ ⟨⟩
  rfl

/-- An assignment in front of the acknowledgement is lost. -/
theorem first_assignment_lost :
    start [salesEvent, registrationAck] = .ok [.unknown "registration_ack"] ∧
    (messages [salesEvent, registrationAck]).flatMap wanted =
      [.assignment ⟨"sales", "2024", "sales_2024", "", .ok [], .iceberg "s3"⟩] :=
  ⟨rfl, rfl⟩

end Leibrix.SessionCommands
