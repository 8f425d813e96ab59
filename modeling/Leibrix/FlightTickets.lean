import Leibrix.ArrowBatch
import Mathlib.Algebra.GroupWithZero.Nat
import Mathlib.Data.List.Basic

/-!
# Stage results behind tickets

The service of a worker runs a stage, keeps its batches under a key and hands out the
bytes of a ticket. A later request with bytes is decoded, checked for its tenant and
sent to the query path or to the kept results. Objects are read as the derived
decoders do: unknown members are passed over, repeated ones are refused, optional
ones may be absent or null. How objects are printed and parsed is a parameter.
-/

set_option autoImplicit false

namespace Leibrix.FlightTickets
open ArrowBatch List Option

section Objects

inductive Json where
  | null
  | str (s : String)
  | num (n : Nat)
  | other (text : String)
  deriving DecidableEq

abbrev JsonObject := List (String × Json)

/-- Printing and parsing of objects. -/
structure JsonCodec where
  Bytes : Type
  render : JsonObject → Bytes
  parse : Bytes → Option JsonObject
  parse_render : ∀ o, parse (render o) = some o

def Json.asString : Json → Option String
  | .str s => some s
  | _ => none

def Json.asNat (bits : Nat) : Json → Option Nat
  | .num n => if n < 2 ^ bits then some n else none
  | _ => none

variable {α : Type} (o : JsonObject) (name : String)

def members : List Json :=
  (o.filter fun m => m.1 = name).map (·.2)

variable (read : Json → Option α)

def required : Option α :=
  match members o name with
  | [v] => read v
  | _ => none

def optional : Option (Option α) :=
  match members o name with
  | [] | [.null] => some none
  | [v] => (read v).map some
  | _ => none

end Objects

structure QueryTicket where
  sql : String
  tenantId : String
  memoryLimitMb : Option Nat
  timeoutSecs : Option Nat
  deriving DecidableEq

def QueryTicket.ofObject (o : JsonObject) : Option QueryTicket := do
  let sql ← required o "sql" Json.asString
  let tenantId ← required o "tenant_id" Json.asString
  let memoryLimitMb ← optional o "memory_limit_mb" (Json.asNat 64)
  let timeoutSecs ← optional o "timeout_secs" (Json.asNat 64)
  return ⟨sql, tenantId, memoryLimitMb, timeoutSecs⟩

structure StageResultTicket where
  tenantId : String
  queryId : String
  stageId : UInt32
  partition : Option UInt32
  deriving DecidableEq

namespace StageResultTicket

def new (tenantId queryId : String) (stageId : UInt32) : StageResultTicket :=
  ⟨tenantId, queryId, stageId, none⟩

def toObject (t : StageResultTicket) : JsonObject :=
  [("tenant_id", .str t.tenantId), ("query_id", .str t.queryId), ("stage_id", .num t.stageId.toNat)]
    ++ t.partition.toList.map fun p => ("partition", .num p.toNat)

def ofObject (o : JsonObject) : Option StageResultTicket := do
  let tenantId ← required o "tenant_id" Json.asString
  let queryId ← required o "query_id" Json.asString
  let stageId ← required o "stage_id" (Json.asNat 32)
  let partition ← optional o "partition" (Json.asNat 32)
  return ⟨tenantId, queryId, .ofNat stageId, partition.map .ofNat⟩

def encode (json : JsonCodec) (t : StageResultTicket) : json.Bytes := json.render t.toObject

end StageResultTicket

inductive FlightTicket where
  | query (ticket : QueryTicket)
  | stageResult (ticket : StageResultTicket)
  deriving DecidableEq

namespace FlightTicket

/-- The unified form: the member `type` names the variant, the others are its fields. -/
def ofTagged (o : JsonObject) : Option FlightTicket := do
  let tag ← required o "type" Json.asString
  let fields := o.filter fun m => m.1 ≠ "type"
  if tag = "query" then query <$> QueryTicket.ofObject fields
  else if tag = "stage_result" then stageResult <$> StageResultTicket.ofObject fields
  else none

def decode (json : JsonCodec) (bytes : json.Bytes) : Option FlightTicket :=
  (json.parse bytes).bind fun o => (ofTagged o).orElse fun _ => query <$> QueryTicket.ofObject o

def tenantId : FlightTicket → String
  | query ticket | stageResult ticket => ticket.tenantId

end FlightTicket

inductive Status where
  | invalidArgument (detail : String)
  | permissionDenied (detail : String)
  | notFound (detail : String)
  | internal (detail : String)
  | deadlineExceeded (detail : String)
  | resourceExhausted (detail : String)
  deriving DecidableEq

structure StageResultKey where
  queryId : String
  stageId : UInt32
  partition : Option UInt32
  deriving DecidableEq

def StageResultKey.new (queryId : String) (stageId : UInt32) : StageResultKey :=
  ⟨queryId, stageId, none⟩

def StageResultKey.fromTicket (t : StageResultTicket) : StageResultKey :=
  ⟨t.queryId, t.stageId, t.partition⟩

structure StageLimits where
  maxRowsOutput : Nat
  maxBytesOutput : Nat
  timeoutMs : Nat

/-- How the engine ends with the SQL of a stage. -/
inductive StageRun where
  | finished (batches : List RecordBatch)
  | failed (detail : String)
  | timedOut

structure SubmitStageRequest where
  tenantId : String
  queryId : String
  stageId : UInt32
  stageSql : String
  /-- The inputs, or why they could not be read. -/
  exchangeInputs : Except String (List (String × List RecordBatch))
  limits : Option StageLimits

structure Service where
  tenantId : String
  stageResults : StageResultKey → Option (List RecordBatch)

/-- What a request for data is answered with, and by which path. -/
inductive Reply where
  | queryResult (batches : List RecordBatch)
  | stageResult (batches : List RecordBatch)

section Requests

variable (json : JsonCodec) (memorySize : RecordBatch → Nat)
  (run : SubmitStageRequest → List (String × List RecordBatch) → StageRun)
  (runQuery : QueryTicket → Except Status (List RecordBatch)) (parseError : json.Bytes → String)

variable (service : Service)

def validateTenant (tenant : String) : Except Status Unit :=
  if tenant ≠ service.tenantId then
    .error (.permissionDenied ("Tenant ID mismatch: expected '" ++ service.tenantId ++ "', got '" ++
      tenant ++ "'"))
  else .ok ()

variable (request : SubmitStageRequest)

def timeoutOf : Nat :=
  (request.limits.map (·.timeoutMs)).getD 300000

def executeStage (inputs : List (String × List RecordBatch)) : Except Status (List RecordBatch) :=
  if request.stageSql = "" then .ok []
  else
    match run request inputs with
    | .finished batches => .ok batches
    | .failed detail => .error (.internal ("Stage execution failed: " ++ detail))
    | .timedOut => .error (.deadlineExceeded
        ("Stage execution timed out after " ++ toString (timeoutOf request) ++ "ms"))

def checkLimits (limits : Option StageLimits) (batches : List RecordBatch) : Except Status Unit :=
  let rows := (batchRows batches).length
  let bytes := (batches.map memorySize).sum
  match limits with
  | none => .ok ()
  | some l =>
    if l.maxRowsOutput < rows then
      .error (.resourceExhausted
        ("Stage exceeded row limit: " ++ toString rows ++ " > " ++ toString l.maxRowsOutput))
    else if l.maxBytesOutput < bytes then
      .error (.resourceExhausted
        ("Stage exceeded byte limit: " ++ toString bytes ++ " > " ++ toString l.maxBytesOutput))
    else .ok ()

def Service.store (key : StageResultKey) (batches : List RecordBatch) : Service :=
  { service with stageResults := fun k => if k = key then some batches else service.stageResults k }

def Service.evict (expired : StageResultKey → Bool) : Service :=
  { service with stageResults := fun k => if expired k then none else service.stageResults k }

/-- The service after a stage and the bytes of the ticket in the response. -/
def handleSubmitStage : Except Status (json.Bytes × Service) := do
  validateTenant service request.tenantId
  let inputs ← request.exchangeInputs.mapError fun e =>
    Status.internal ("Failed to deserialize exchange inputs: " ++ e)
  let batches ← executeStage run request inputs
  checkLimits memorySize request.limits batches
  let ticket := StageResultTicket.new request.tenantId request.queryId request.stageId
  return (ticket.encode json, service.store (.new request.queryId request.stageId) batches)

/-- `{:?}` of an optional partition. -/
def debugPartition : Option UInt32 → String
  | none => "None"
  | some p => "Some(" ++ toString p.toNat ++ ")"

def handleStageResultDoGet (ticket : StageResultTicket) : Except Status Reply :=
  match service.stageResults (.fromTicket ticket) with
  | some batches => .ok (.stageResult batches)
  | none => .error (.notFound ("Stage result not found: query=" ++ ticket.queryId ++ ", stage=" ++
      toString ticket.stageId.toNat ++ ", partition=" ++ debugPartition ticket.partition))

def doGet (bytes : json.Bytes) : Except Status Reply :=
  match FlightTicket.decode json bytes with
  | none => .error (.invalidArgument
      ("Invalid ticket: Failed to deserialize ticket: " ++ parseError bytes))
  | some ticket => do
    validateTenant service ticket.tenantId
    match ticket with
    | .query query => .queryResult <$> runQuery query
    | .stageResult stage => handleStageResultDoGet service stage

/-- What changes the kept results: a submitted stage, or the removal of old results. -/
inductive Event where
  | submit (request : SubmitStageRequest)
  | evict (expired : StageResultKey → Bool)

def step : Event → Service
  | .submit request =>
    match handleSubmitStage json memorySize run service request with
    | .ok (_, after) => after
    | .error _ => service
  | .evict expired => service.evict expired

/-- The event may replace or remove the result under a key. -/
def Event.touches (key : StageResultKey) : Event → Bool
  | .submit request => StageResultKey.new request.queryId request.stageId = key
  | .evict expired => expired key

end Requests

variable {json : JsonCodec} {memorySize : RecordBatch → Nat}
  {run : SubmitStageRequest → List (String × List RecordBatch) → StageRun}

section Runs

attribute [local simp] Except.bind Except.mapError

theorem handleSubmitStage_ok_iff {service : Service} {request : SubmitStageRequest}
    {out : json.Bytes × Service} : handleSubmitStage json memorySize run service request = .ok out ↔
      request.tenantId = service.tenantId ∧ ∃ inputs batches,
        request.exchangeInputs = .ok inputs ∧ executeStage run request inputs = .ok batches ∧
        checkLimits memorySize request.limits batches = .ok () ∧
        out = ((StageResultTicket.new request.tenantId request.queryId request.stageId).encode json,
          service.store (.new request.queryId request.stageId) batches) := by
  rw [handleSubmitStage, validateTenant]
  by_cases htenant : request.tenantId = service.tenantId
  · cases hin : request.exchangeInputs with
    | error e => simp [htenant, bind]
    | ok inputs =>
      cases hrun : executeStage run request inputs with
      | error e => simp [htenant, bind, hrun]
      | ok batches =>
        cases hlim : checkLimits memorySize request.limits batches <;>
          simp [htenant, bind, pure, Except.pure, hrun, hlim, eq_comm]
  · simp [htenant, bind]

variable {key : StageResultKey}

theorem step_stageResults (service : Service) {event : Event} (h : event.touches key = false) :
    (step json memorySize run service event).stageResults key = service.stageResults key ∧
      (step json memorySize run service event).tenantId = service.tenantId := by
  cases event with
  | evict expired => exact ⟨by simp [step, Service.evict, show expired key = false from h], rfl⟩
  | submit request =>
    simp only [step]
    cases hs : handleSubmitStage json memorySize run service request with
    | error e => exact ⟨rfl, rfl⟩
    | ok out =>
      obtain ⟨-, _, batches, -, -, -, rfl⟩ := handleSubmitStage_ok_iff.mp hs
      have hkey : key ≠ .new request.queryId request.stageId := by
        rintro rfl
        simp [Event.touches] at h
      exact ⟨if_neg hkey, rfl⟩

theorem run_stageResults (json : JsonCodec) (memorySize : RecordBatch → Nat)
    (run : SubmitStageRequest → List (String × List RecordBatch) → StageRun) (service : Service)
    {events : List Event} (h : ∀ event ∈ events, event.touches key = false) :
    (events.foldl (step json memorySize run) service).stageResults key =
        service.stageResults key ∧
      (events.foldl (step json memorySize run) service).tenantId = service.tenantId := by
  induction events generalizing service with
  | nil => exact ⟨rfl, rfl⟩
  | cons event rest ih =>
    have tail := ih (step json memorySize run service event) fun e he =>
      h e (mem_cons_of_mem event he)
    rw [foldl_cons, tail.1, tail.2]
    exact step_stageResults service (h event mem_cons_self)

end Runs

section Redeem

/-- The bytes of a ticket with a member `type` before its fields, or without one. -/
def encodeWith (json : JsonCodec) (tag : Option String) (t : StageResultTicket) : json.Bytes :=
  json.render (tag.toList.map (fun s => ("type", Json.str s)) ++ t.toObject)

theorem asNat_toNat (p : UInt32) : Json.asNat 32 (.num p.toNat) = some p.toNat := by
  simp [Json.asNat, p.toNat_lt]

variable (t : StageResultTicket)

theorem ofObject_toObject : StageResultTicket.ofObject t.toObject = some t := by
  obtain ⟨tenant, query, stage, partition⟩ := t
  cases partition <;>
    simp [StageResultTicket.ofObject, StageResultTicket.toObject, required, optional, members,
      Json.asString, asNat_toNat]

theorem queryTicket_none (tag : Option String) (t : StageResultTicket) :
    QueryTicket.ofObject (tag.toList.map (fun s => ("type", Json.str s)) ++ t.toObject) = none := by
  obtain ⟨tenant, query, stage, partition⟩ := t
  cases tag <;> cases partition <;>
    simp [QueryTicket.ofObject, StageResultTicket.toObject, required, members]

theorem filter_toObject : t.toObject.filter (fun m => m.1 ≠ "type") = t.toObject := by
  obtain ⟨tenant, query, stage, partition⟩ := t
  cases partition <;> simp [StageResultTicket.toObject]

theorem members_type : members t.toObject "type" = [] := by
  obtain ⟨tenant, query, stage, partition⟩ := t
  cases partition <;> simp [StageResultTicket.toObject, members]

/-- Only the tag of stage results makes a stage ticket readable. -/
theorem decode_encodeWith (json : JsonCodec) (tag : Option String) (t : StageResultTicket) :
    FlightTicket.decode json (encodeWith json tag t) =
      if tag = some "stage_result" then some (.stageResult t) else none := by
  have legacy := queryTicket_none tag t
  rw [FlightTicket.decode, encodeWith, json.parse_render, bind_some, legacy]
  cases tag with
  | none =>
    have untagged : FlightTicket.ofTagged t.toObject = none := by
      simp [FlightTicket.ofTagged, required, members_type]
    simp [untagged]
  | some tag =>
    have htag : members (("type", .str tag)::t.toObject) "type" = [.str tag] := by
      have rest := members_type t
      simp only [members, map_eq_nil_iff] at rest
      simp [members, rest]
    have hfields : (("type", Json.str tag)::t.toObject).filter (fun m => m.1 ≠ "type") =
        t.toObject := by
      rw [filter_cons_of_neg (by simp), filter_toObject]
    have hquery : QueryTicket.ofObject t.toObject = none := queryTicket_none none t
    have tagged : FlightTicket.ofTagged (("type", .str tag)::t.toObject) =
        if tag = "stage_result" then some (.stageResult t) else none := by
      rw [FlightTicket.ofTagged, required, htag]
      simp only [Json.asString, bind_eq_bind, bind_some, hfields, hquery,
        ofObject_toObject, Option.map_eq_map, map_none, map_some]
      by_cases hq : tag = "query"
      · simp [hq]
      · rw [if_neg hq]
    show (FlightTicket.ofTagged (("type", .str tag)::t.toObject)).orElse _ = _
    rw [tagged]
    by_cases hs : tag = "stage_result" <;> simp [hs]

/-- A stage result can be fetched with the fields of its ticket, after any run of the service that
leaves it in place, just when the bytes also carry the tag of stage results. The response to
`submit_stage` carries the fields without a tag. -/
theorem stage_ticket_redeemable_iff (runQuery : QueryTicket → Except Status (List RecordBatch))
    (parseError : json.Bytes → String) {service after : Service} {request : SubmitStageRequest}
    {bytes : json.Bytes}
    (h : handleSubmitStage json memorySize run service request = .ok (bytes, after))
    (events : List Event)
    (hkept : ∀ event ∈ events, event.touches (.new request.queryId request.stageId) = false) :
    bytes = encodeWith json none (.new request.tenantId request.queryId request.stageId) ∧
      ∀ tag, (∃ batches, after.stageResults (.new request.queryId request.stageId) = some batches ∧
          doGet json runQuery parseError (events.foldl (step json memorySize run) after)
            (encodeWith json tag (.new request.tenantId request.queryId request.stageId)) =
              .ok (.stageResult batches)) ↔
        tag = some "stage_result" := by
  obtain ⟨htenant, _, batches, -, -, -, heq⟩ := handleSubmitStage_ok_iff.mp h
  obtain ⟨hbytes, rfl⟩ := Prod.mk.inj heq
  refine ⟨hbytes, fun tag => ?_⟩
  have stored : (service.store (.new request.queryId request.stageId) batches).stageResults
      (.new request.queryId request.stageId) = some batches := if_pos rfl
  obtain ⟨kept, tenant⟩ := run_stageResults json memorySize run
    (service.store (.new request.queryId request.stageId) batches) hkept
  generalize events.foldl (step json memorySize run) _ = now at kept tenant ⊢
  rw [doGet, decode_encodeWith]
  by_cases htag : tag = some "stage_result"
  · have passed : validateTenant now request.tenantId = .ok () := by
      rw [validateTenant, tenant]
      exact if_neg (not_not.mpr htenant)
    have found : handleStageResultDoGet now
        (.new request.tenantId request.queryId request.stageId) = .ok (.stageResult batches) := by
      have key : StageResultKey.fromTicket (.new request.tenantId request.queryId
        request.stageId) = .new request.queryId request.stageId := rfl
      rw [handleStageResultDoGet, key, kept, stored]
    simp only [htag, if_true, iff_true]
    refine ⟨batches, stored, ?_⟩
    show (do validateTenant now request.tenantId; handleStageResultDoGet now _) = _
    rw [passed, found]
    rfl
  · simp [htag]

def objectCodec : JsonCodec := ⟨JsonObject, id, some, fun _ => rfl⟩

def emptyService : Service := ⟨"t", fun _ => none⟩

def oneRow : RecordBatch := ⟨[⟨"id", .int64⟩], [[none]], by simp [RowFits]⟩

def oneRowStage (stageId : UInt32) : SubmitStageRequest :=
  ⟨"t", "q", stageId, "SELECT 1", .ok [], none⟩

/-- The result is still there after another stage of the query has stored its own. -/
theorem stage_ticket_redeemable_iff_tagged :
    doGet objectCodec (fun _ => .ok []) (fun _ => "")
      ((emptyService.store (.new "q" 0) [oneRow]).store (.new "q" 1) [oneRow])
      (encodeWith objectCodec (some "stage_result") (.new "t" "q" 0)) =
        .ok (.stageResult [oneRow]) := by
  have submitted : handleSubmitStage objectCodec (fun _ => 0) (fun _ _ => .finished [oneRow])
      emptyService (oneRowStage 0) =
        .ok ((StageResultTicket.new "t" "q" 0).encode objectCodec,
          emptyService.store (.new "q" 0) [oneRow]) := rfl
  have redeemed := ((stage_ticket_redeemable_iff (fun _ => .ok []) (fun _ => "") submitted
    [.submit (oneRowStage 1)] (by decide)).2 (some "stage_result")).mpr rfl
  obtain ⟨batches, hstored, hget⟩ := redeemed
  obtain rfl : [oneRow] = batches := Option.some.inj hstored
  exact hget

/-- The bytes in the response to a submitted stage are refused. -/
theorem stage_ticket_refused :
    handleSubmitStage objectCodec (fun _ => 0) (fun _ _ => .finished [oneRow]) emptyService
        (oneRowStage 0) =
      .ok ((StageResultTicket.new "t" "q" 0).encode objectCodec,
        emptyService.store (.new "q" 0) [oneRow]) ∧
    doGet objectCodec (fun _ => .ok []) (fun _ => "missing field")
        (emptyService.store (.new "q" 0) [oneRow])
        ((StageResultTicket.new "t" "q" 0).encode objectCodec) =
      .error (.invalidArgument "Invalid ticket: Failed to deserialize ticket: missing field") :=
  ⟨rfl, rfl⟩

end Redeem

end Leibrix.FlightTickets
