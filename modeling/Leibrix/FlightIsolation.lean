import Leibrix.StageResults

/-!
# Requests to the Flight service and tenants

Submitted stages and cancellations are handled by moves over the tables of the service; the
other calls are answered at once, from the kept results or from the datasets that the worker
holds. Each handler makes its own tenant check or none. A request is isolated when the moves
of its handler change no handle, no flag and no result, and its answer is the one that it
would get from a worker without results and with any other datasets.
-/

set_option autoImplicit false

namespace Leibrix.FlightIsolation
open ArrowBatch FlightTickets Runs StageTasks StageCancel StageResults List

inductive FlightStatus where
  | status (s : Status)
  | unauthenticated (detail : String)
  | unimplemented (detail : String)
  deriving DecidableEq

variable (json : JsonCodec)

inductive Rpc where
  | handshake
  | listFlights
  | getFlightInfo (cmd : json.Bytes)
  | pollFlightInfo
  | getSchema (cmd : json.Bytes)
  | doGet (ticket : json.Bytes)
  | doPut
  | doExchange
  | doAction (type : String) (body : json.Bytes)
  | listActions

/-- `header` is the value of `x-tenant-id`, if there is one; it may not be text. -/
structure Request where
  header : Option (Option String)
  rpc : Rpc json

inductive Answer where
  | data (reply : Reply)
  | body (text : String)
  | submitted (ticket : json.Bytes)
  | schema (schema : Schema)
  | flightInfo (schema : Schema) (sql : json.Bytes) (tenantId : String)
  | flights (datasetIds : List String)
  | actions (types : List String)

/-- The engine over datasets, the transformer and the decoders. -/
structure Backend (D : Type) where
  memorySize : RecordBatch → Nat
  runQuery : D → QueryTicket → Except Status (List RecordBatch)
  describe : D → json.Bytes → Except Status Schema
  datasetIds : D → List String
  parseError : json.Bytes → String
  decodeSubmit : json.Bytes → Except String SubmitStageRequest

def cancelledQuery (body : json.Bytes) : Option String :=
  (json.parse body).bind fun o => required o "query_id" Json.asString

variable {json} {D : Type} (b : Backend json D) {n : Nat}

def validateTenantFromMetadata (service : Service) :
    Option (Option String) → Except FlightStatus Unit
  | some (some tenant) => (validateTenant service tenant).mapError .status
  | some none => .error (.status (.invalidArgument "x-tenant-id header contains invalid UTF-8"))
  | none => .error (.unauthenticated "Missing required x-tenant-id metadata header")

variable (s : State n) (i : Nat)

/-- What the handler of a submitted stage has answered, if it has. -/
def submitStage (body : json.Bytes) : Option (Except FlightStatus (Answer json)) :=
  match b.decodeSubmit body with
  | .error e => some (.error (.status (.invalidArgument ("Invalid SubmitStageRequest: " ++ e))))
  | .ok request =>
    (s.calls i).bind fun c =>
      match c.handler with
      | .answered (.ok ()) => some (.ok (.submitted
          ((StageResultTicket.new request.tenantId request.queryId request.stageId).encode json)))
      | .answered (.error e) => some (.error (.status e))
      | _ => none

/-- What the handler of a cancellation has answered, if it has. -/
def handleCancelQuery (body : json.Bytes) : Option (Except FlightStatus (Answer json)) :=
  match cancelledQuery json body with
  | none => some (.error (.status
      (.invalidArgument ("Invalid cancel query request: " ++ b.parseError body))))
  | some queryId =>
    (s.cancels i).bind fun c =>
      match c.place with
      | .returned => some (.ok (.body ("Query " ++ queryId ++ " cancelled (" ++
          toString c.stagesCancelled ++ " active stage(s) interrupted)")))
      | _ => none

def doAction (type : String) (body : json.Bytes) : Option (Except FlightStatus (Answer json)) :=
  if type = "health_check" then some (.ok (.body "OK"))
  else if type = "submit_stage" then submitStage b s i body
  else if type = "cancel_query" then handleCancelQuery b s i body
  else some (.error (.status (.invalidArgument ("Unknown action type: " ++ type))))

/-- The answer to the request with number `i`, if it has been given. -/
def reply (data : D) (s : State n) (i : Nat) (request : Request json) :
    Option (Except FlightStatus (Answer json)) :=
  match request.rpc with
  | .handshake => some (.error (.unimplemented "Handshake is not implemented"))
  | .listFlights => some do
      validateTenantFromMetadata s.service request.header
      return .flights (b.datasetIds data)
  | .getFlightInfo cmd => some do
      validateTenantFromMetadata s.service request.header
      let schema ← (b.describe data cmd).mapError .status
      return .flightInfo schema cmd s.tenantId
  | .pollFlightInfo => some (.error (.unimplemented "poll_flight_info is not implemented"))
  | .getSchema cmd => some do
      validateTenantFromMetadata s.service request.header
      let schema ← (b.describe data cmd).mapError .status
      return .schema schema
  | .doGet ticket => some (.data <$>
      (doGet json (b.runQuery data) b.parseError s.service ticket).mapError .status)
  | .doPut => some
      (.error (.unimplemented "DoPut is not supported; this is a read-only query service"))
  | .doExchange => some (.error (.unimplemented "DoExchange is not implemented"))
  | .doAction type body => doAction b s i type body
  | .listActions => some (.ok (.actions ["health_check", "submit_stage", "cancel_query"]))

/-- The moves by which the service handles the request with number `i`. -/
def Handles (rpc : Rpc json) : Move → Prop
  | .submit k stage => k = i ∧ ∃ body, rpc = .doAction "submit_stage" body ∧
      b.decodeSubmit body = .ok stage
  | .handler k _ | .task k _ => k = i ∧ ∃ body, rpc = .doAction "submit_stage" body
  | .cancelQuery k queryId => k = i ∧ ∃ body, rpc = .doAction "cancel_query" body ∧
      cancelledQuery json body = some queryId
  | .cancel k => k = i ∧ ∃ body, rpc = .doAction "cancel_query" body
  | .evict _ => False

section Tenants

def tenants (request : Request json) : List String :=
  (request.header.bind id).toList ++
    match request.rpc with
    | .doGet ticket => ((FlightTicket.decode json ticket).map (·.tenantId)).toList
    | .doAction type body =>
      if type = "submit_stage" then ((b.decodeSubmit body).toOption.map (·.tenantId)).toList
      else []
    | _ => []

def queryOf (request : Request json) : Option String :=
  match request.rpc with
  | .doGet ticket =>
    (FlightTicket.decode json ticket).bind fun
      | .stageResult t => some t.queryId
      | .query _ => none
  | .doAction type body =>
    if type = "submit_stage" then (b.decodeSubmit body).toOption.map (·.queryId)
    else if type = "cancel_query" then cancelledQuery json body
    else none
  | _ => none

/-- The request carries another tenant, or its query belongs to one. -/
def Foreign (owner : String → String) (tenantId : String) (request : Request json) : Prop :=
  (∃ tenant ∈ tenants b request, tenant ≠ tenantId) ∨
    ∃ queryId, queryOf b request = some queryId ∧ owner queryId ≠ tenantId

/-- No handle has been listed or taken off, no flag set and no result stored or removed. -/
structure Unchanged (s s' : State n) : Prop where
  active : s'.active = s.active
  results : s'.results = s.results
  calls : ∀ k c, s.calls k = some c → s'.calls k = some c

variable (s : State n)

def withResults (results : StageResultKey → Option CachedStageResult) : State n :=
  { s with results := results }

/-- As far as its handler goes, the request changes nothing, and it is answered as by a worker
that keeps no results and holds other datasets. -/
def Isolated (shards : Shards) (data : D) (s : State shards.count) (i : Nat)
    (request : Request json) : Prop :=
  ∀ moves, (∀ m ∈ moves, Handles b i request.rpc m) →
    Unchanged s (run (State.step shards b.memorySize) s moves) ∧
    ∀ other, reply b data (run (State.step shards b.memorySize) s moves) i request =
      reply b other (run (State.step shards b.memorySize) (withResults s fun _ => none) moves) i
        request

/-- The cancellation has done to the call all that it can do. -/
def Hit (c : Call) : Prop := c.cancelled = true ∧ (c.interruptHandle = true → c.interrupted = true)

def HitAt (k : Nat) : Prop := ∀ c, s.calls k = some c → Hit c

def SubmitHarmless (tenantId : String) (body : json.Bytes) : Prop :=
  ∀ stage, b.decodeSubmit body = .ok stage → stage.tenantId = tenantId →
    ∀ inputs, stage.exchangeInputs ≠ .ok inputs

def CancelHarmless (body : json.Bytes) : Prop :=
  ∀ queryId, cancelledQuery json body = some queryId →
    (∀ key k, (key, k) ∈ s.active → key.1 = queryId → HitAt s k) ∧
    ∀ key, key.queryId = queryId → s.results key = none

/-- The answer to the query is the same over any datasets. -/
def Dataless (query : QueryTicket) : Prop :=
  ∀ data other, b.runQuery data query = b.runQuery other query

def GetHarmless (bytes : json.Bytes) : Prop :=
  ∀ ticket, FlightTicket.decode json bytes = some ticket → ticket.tenantId = s.tenantId →
    match ticket with
    | .query query => Dataless b query
    | .stageResult t => s.results (.fromTicket t) = none

def Harmless (request : Request json) : Prop :=
  match request.rpc with
  | .doGet ticket => GetHarmless b s ticket
  | .doAction type body =>
    (type = "submit_stage" → SubmitHarmless b s.tenantId body) ∧
    (type = "cancel_query" → CancelHarmless s body)
  | _ => True

end Tenants

section Data

variable {shards : Shards} {memorySize : RecordBatch → Nat}

theorem handlerStep_withResults (s : State n) (i : Nat) (c : Call) (wake : Wake)
    (results : StageResultKey → Option CachedStageResult) :
    ∃ results', (withResults s results).handlerStep memorySize i c wake =
      withResults (s.handlerStep memorySize i c wake) results' := by
  unfold State.handlerStep
  cases c.handler with
  | received =>
    have tenant : validateTenant (withResults s results).service c.request.tenantId =
        validateTenant s.service c.request.tenantId := rfl
    simp only [tenant]
    cases validateTenant s.service c.request.tenantId with
    | error e => exact ⟨_, rfl⟩
    | ok =>
      cases c.request.exchangeInputs with
      | error e => exact ⟨_, rfl⟩
      | ok inputs =>
        by_cases hsql : c.request.stageSql = ""
        · simp only [hsql, if_true]
          exact ⟨_, rfl⟩
        · simp only [hsql, if_false]
          exact ⟨_, rfl⟩
  | registered | spawned | answered | dropped => exact ⟨_, rfl⟩
  | awaiting =>
    cases wake with
    | timedOut | dropped => exact ⟨_, rfl⟩
    | ready =>
      cases c.task with
      | ended result => cases result <;> exact ⟨_, rfl⟩
      | _ => exact ⟨_, rfl⟩
  | executed batches =>
    dsimp only
    cases checkLimits memorySize c.request.limits batches <;> exact ⟨_, rfl⟩

theorem cancelStep_withResults (s : State shards.count) (j : Nat) (c : CancelCall shards.count)
    (results : StageResultKey → Option CachedStageResult) :
    ∃ results', (withResults s results).cancelStep shards j c =
      withResults (s.cancelStep shards j c) results' := by
  obtain ⟨queryId, place, stagesCancelled⟩ := c
  cases place with
  | scanning rest | removing rest => cases rest <;> exact ⟨_, rfl⟩
  | flagging found rest => cases found <;> exact ⟨_, rfl⟩
  | interrupting | returned => exact ⟨_, rfl⟩

/-- No step looks at the kept results but to store and to remove them. -/
theorem step_withResults (memorySize : RecordBatch → Nat) (s : State shards.count) (m : Move)
    (results : StageResultKey → Option CachedStageResult) :
    ∃ results', (withResults s results).step shards memorySize m =
      withResults (s.step shards memorySize m) results' := by
  have calls : (withResults s results).calls = s.calls := rfl
  have cancels : (withResults s results).cancels = s.cancels := rfl
  cases m with
  | submit i request =>
    simp only [State.step, calls]
    split <;> exact ⟨_, rfl⟩
  | handler i wake =>
    simp only [State.step, calls]
    cases s.calls i with
    | none => exact ⟨_, rfl⟩
    | some c => exact handlerStep_withResults s i c wake results
  | task i o =>
    simp only [State.step, calls]
    cases s.calls i <;> exact ⟨_, rfl⟩
  | cancelQuery j queryId =>
    simp only [State.step, cancels]
    split <;> exact ⟨_, rfl⟩
  | cancel j =>
    simp only [State.step, cancels]
    cases s.cancels j with
    | none => exact ⟨_, rfl⟩
    | some c => exact cancelStep_withResults s j c results
  | evict expired => exact ⟨_, rfl⟩

theorem run_withResults (memorySize : RecordBatch → Nat) (s : State shards.count)
    (moves : List Move) (results : StageResultKey → Option CachedStageResult) :
    ∃ results', run (State.step shards memorySize) (withResults s results) moves =
      withResults (run (State.step shards memorySize) s moves) results' := by
  induction moves generalizing s results with
  | nil => exact ⟨results, rfl⟩
  | cons m moves ih =>
    obtain ⟨between, hbetween⟩ := step_withResults memorySize s m results
    rw [run_cons, run_cons, hbetween]
    exact ih _ between

/-- The answers of the handlers that move tell nothing of the kept results and the datasets. -/
theorem doAction_withResults (s : State shards.count) (i : Nat) (type : String)
    (body : json.Bytes) (moves : List Move)
    (results : StageResultKey → Option CachedStageResult) :
    doAction b (run (State.step shards memorySize) (withResults s results) moves) i type body =
      doAction b (run (State.step shards memorySize) s moves) i type body := by
  obtain ⟨results', h⟩ := run_withResults memorySize s moves results
  rw [h]
  rfl

end Data

section Submitting

variable {shards : Shards} {memorySize : RecordBatch → Nat} {s s' : State shards.count} {i : Nat}
  {stage : SubmitStageRequest}

/-- Where the service stands while it turns a stage away. -/
structure Refusing (s : State shards.count) (i : Nat) (s' : State shards.count) : Prop where
  tenant : s'.tenantId = s.tenantId
  active : s'.active = s.active
  results : s'.results = s.results
  others : ∀ k, k ≠ i → s'.calls k = s.calls k
  call : ∀ c, s'.calls i = some c → ¬ c.Admitted s.tenantId ∧ c.task = .unspawned ∧
    (c.handler = .received ∨ ∃ e, c.handler = .answered (.error e))

theorem Refusing.answer (h : Refusing s i s') {c : Call} (hc : s'.calls i = some c) (e : Status) :
    Refusing s i (s'.answer i c (.error e)) where
  tenant := h.tenant
  active := h.active
  results := h.results
  others k hk := (if_neg hk).trans (h.others k hk)
  call d hd := by
    obtain rfl : { c with handler := .answered (.error e) } = d :=
      Option.some.inj ((if_pos rfl).symm.trans hd)
    obtain ⟨hadmitted, htask, -⟩ := h.call c hc
    exact ⟨hadmitted, htask, .inr ⟨e, rfl⟩⟩

theorem Refusing.handled (h : Refusing s i s') {c : Call} (hc : s'.calls i = some c)
    {s'' : State shards.count} (step : Handled memorySize s' i c s'') : Refusing s i s'' := by
  obtain ⟨hadmitted, -, hhandler⟩ := h.call c hc
  cases step with
  | waits => exact h
  | fails status => exact h.answer hc status
  | skips _ admitted | registers _ admitted => exact absurd (h.tenant ▸ admitted) hadmitted
  | drops hh | spawns hh | deregisters hh | finishes _ hh | stores _ hh =>
    rcases hhandler with hr | ⟨e, hr⟩ <;> cases hh.symm.trans hr

theorem Refusing.step {b : Backend json D} {body : json.Bytes}
    (harmless : SubmitHarmless b s.tenantId body) {m : Move}
    (hm : Handles b i (.doAction "submit_stage" body) m) (h : Refusing s i s') :
    Refusing s i (s'.step shards memorySize m) := by
  cases m with
  | submit k stage =>
    obtain ⟨rfl, _, ⟨⟩, hdecode⟩ := hm
    simp only [State.step]
    split
    · exact h
    · refine ⟨h.tenant, h.active, h.results, fun j hj => (if_neg hj).trans (h.others j hj), ?_⟩
      intro c hc
      obtain rfl : Call.new stage = c := Option.some.inj ((if_pos rfl).symm.trans hc)
      refine ⟨?_, rfl, .inl rfl⟩
      rintro ⟨htenant, inputs, hinputs⟩
      exact harmless stage hdecode htenant inputs hinputs
  | handler k wake =>
    obtain ⟨rfl, -⟩ := hm
    simp only [State.step]
    cases hc : s'.calls k with
    | none => exact h
    | some c => exact h.handled hc (handled_handlerStep memorySize s' k c wake)
  | task k o =>
    obtain ⟨rfl, -⟩ := hm
    simp only [State.step]
    cases hc : s'.calls k with
    | none => exact h
    | some c =>
      have idle : c.taskStep o = c := by simp [Call.taskStep, (h.call c hc).2.1]
      simp only [idle]
      refine ⟨h.tenant, h.active, h.results, fun j hj => (if_neg hj).trans (h.others j hj), ?_⟩
      intro d hd
      obtain rfl : c = d := Option.some.inj ((if_pos rfl).symm.trans hd)
      exact h.call c hc
  | cancelQuery | cancel => simp [Handles] at hm
  | evict => exact hm.elim

theorem Refusing.unchanged (h : Refusing s i s') (hi : s.calls i = none) : Unchanged s s' where
  active := h.active
  results := h.results
  calls k c hc := by
    have hk : k ≠ i := by
      rintro rfl
      cases hi.symm.trans hc
    rw [h.others k hk, hc]

theorem refusing_self (hi : s.calls i = none) : Refusing s i s :=
  ⟨rfl, rfl, rfl, fun _ _ => rfl, fun c hc => by cases hi.symm.trans hc⟩

/-- A stage with the worker's own tenant and readable inputs gets its handle listed, or its empty
result stored. -/
theorem submit_changes (memorySize : RecordBatch → Nat) (hi : s.calls i = none) (inv : Inv s)
    (howned : Owned s) (htenant : stage.tenantId = s.tenantId)
    {inputs : List (String × List RecordBatch)} (hinputs : stage.exchangeInputs = .ok inputs) :
    ¬ (Unchanged s (run (State.step shards memorySize) s [.submit i stage, .handler i .ready]) ∧
      Unchanged s (run (State.step shards memorySize) s
        [.submit i stage, .handler i .ready, .handler i .ready])) := by
  rintro ⟨first, second⟩
  have tenant : validateTenant (s.setCall i (.new stage)).service stage.tenantId = .ok () :=
    validateTenant_eq_ok.mpr htenant
  have received : s.step shards memorySize (.submit i stage) = s.setCall i (.new stage) := by
    simp [State.step, hi]
  have admitted : (s.setCall i (.new stage)).step shards memorySize (.handler i .ready) =
      if stage.stageSql = "" then
        (s.setCall i (.new stage)).setCall i { Call.new stage with handler := .executed [] }
      else ((s.setCall i (.new stage)).insertActive (stage.queryId, stage.stageId) i).setCall i
        { Call.new stage with handler := .registered } := by
    have handler : (Call.new stage).handler = .received := rfl
    have request : (Call.new stage).request = stage := rfl
    simp only [State.step, State.setCall_self, State.handlerStep, handler, request, tenant, hinputs]
    rfl
  simp only [run_cons, run_nil, received, admitted] at first second
  by_cases hsql : stage.stageSql = ""
  · have stored := congrFun second.results (.new stage.queryId stage.stageId)
    simp only [hsql, if_true, State.step, State.setCall_self, State.handlerStep, checkLimits_nil]
      at stored
    obtain ⟨c, hc, -⟩ := howned _ _ (stored.symm.trans (if_pos rfl))
    cases hi.symm.trans hc
  · have listed := first.active
    simp only [hsql, if_false] at listed
    have own : ((stage.queryId, stage.stageId), i) ∈ s.active := listed.subst mem_cons_self
    obtain ⟨c, hc, -⟩ := inv.listed _ _ own
    cases hi.symm.trans hc

end Submitting

section Cancelling

variable {shards : Shards} {memorySize : RecordBatch → Nat} {s s' : State shards.count} {i : Nat}
  {queryId : String}

/-- The handles that the cancellation has found are those of its query. -/
def FoundIn (s : State shards.count) (queryId : String) : Canceller shards.count → Prop
  | .flagging found _ => ∀ k ∈ found, ∃ key, (key, k) ∈ s.active ∧ key.1 = queryId
  | .interrupting k found _ => ∀ k' ∈ k::found, ∃ key, (key, k') ∈ s.active ∧ key.1 = queryId
  | _ => True

structure Idling (s : State shards.count) (i : Nat) (queryId : String)
    (s' : State shards.count) : Prop where
  active : s'.active = s.active
  results : s'.results = s.results
  calls : s'.calls = s.calls
  canceller : ∀ c, s'.cancels i = some c → c.queryId = queryId ∧ FoundIn s queryId c.place

theorem Idling.setCancel (h : Idling s i queryId s') (place : Canceller shards.count) (count : Nat)
    (hplace : FoundIn s queryId place) :
    Idling s i queryId (s'.setCancel i ⟨queryId, place, count⟩) where
  active := h.active
  results := h.results
  calls := h.calls
  canceller c hc := by
    obtain rfl : ⟨queryId, place, count⟩ = c := Option.some.inj ((if_pos rfl).symm.trans hc)
    exact ⟨rfl, hplace⟩

theorem Idling.setCalls (h : Idling s i queryId s') {k : Nat} {mark : Call → Call}
    (same : ∀ c, s.calls k = some c → mark c = c) :
    Idling s i queryId
      { s' with calls := fun j => if j = k then (s'.calls k).map mark else s'.calls j } where
  active := h.active
  results := h.results
  calls := by
    funext j
    by_cases hj : j = k
    · subst hj
      refine (if_pos rfl).trans ?_
      rw [h.calls]
      cases hc : s.calls j with
      | none => rfl
      | some c => rw [Option.map_some, same c hc]
    · exact (if_neg hj).trans (congrFun h.calls j)
  canceller := h.canceller

variable (hit : ∀ key k, (key, k) ∈ s.active → key.1 = queryId → HitAt s k)
  (gone : ∀ key, key.queryId = queryId → s.results key = none)
include hit gone

/-- A step of a cancellation that finds nothing left to do. -/
theorem Idling.cancelStep (h : Idling s i queryId s') (place : Canceller shards.count)
    (count : Nat) (hplace : FoundIn s queryId place) :
    Idling s i queryId (s'.cancelStep shards i ⟨queryId, place, count⟩) := by
  have hitAt {k : Nat} (hk : ∃ key, (key, k) ∈ s.active ∧ key.1 = queryId) : HitAt s k := by
    obtain ⟨key, hmem, hkey⟩ := hk
    exact hit key k hmem hkey
  cases place with
  | scanning rest =>
    cases rest with
    | nil => exact h.setCancel _ _ trivial
    | cons shard rest =>
      refine h.setCancel _ _ fun k hk => ?_
      obtain ⟨key, hquery, -, hmem⟩ := (mem_found s' queryId shard k).mp hk
      exact ⟨key, h.active ▸ hmem, hquery⟩
  | flagging found rest =>
    cases found with
    | nil => exact h.setCancel _ _ trivial
    | cons k found =>
      refine (h.setCancel (.interrupting k found rest) count hplace).setCalls fun c hc => ?_
      have flagged : c.cancelled = true := (hitAt (hplace k mem_cons_self) c hc).1
      rw [← flagged]
  | interrupting k found rest =>
    have later : FoundIn s queryId (.flagging found rest) :=
      fun k' hk' => hplace k' (mem_cons_of_mem k hk')
    refine (h.setCancel (.flagging found rest) (count + 1) later).setCalls fun c hc => ?_
    have fired := (hitAt (hplace k mem_cons_self) c hc).2
    have same : (c.interrupted || c.interruptHandle) = c.interrupted := by
      cases hi : c.interruptHandle with
      | false => simp
      | true => simp [fired hi]
    rw [same]
  | removing rest =>
    cases rest with
    | nil => exact h.setCancel _ _ trivial
    | cons shard rest =>
      have idle := h.setCancel (.removing rest) count trivial
      refine ⟨idle.active, ?_, idle.calls, idle.canceller⟩
      funext key
      by_cases hkey : key.queryId = queryId ∧ shards.results key = shard
      · exact (if_pos hkey).trans (gone key hkey.1).symm
      · exact (if_neg hkey).trans (congrFun h.results key)
  | returned => exact h

theorem Idling.step {b : Backend json D} {body : json.Bytes}
    (hbody : cancelledQuery json body = some queryId) {m : Move}
    (hm : Handles b i (.doAction "cancel_query" body) m) (h : Idling s i queryId s') :
    Idling s i queryId (s'.step shards memorySize m) := by
  cases m with
  | cancelQuery k q =>
    obtain ⟨rfl, _, ⟨⟩, hq⟩ := hm
    obtain rfl : queryId = q := Option.some.inj (hbody.symm.trans hq)
    simp only [State.step]
    split
    · exact h
    · exact h.setCancel _ 0 trivial
  | cancel k =>
    obtain ⟨rfl, -⟩ := hm
    simp only [State.step]
    cases hc : s'.cancels k with
    | none => exact h
    | some c =>
      obtain ⟨q, place, count⟩ := c
      obtain ⟨rfl, hplace⟩ := h.canceller _ hc
      exact h.cancelStep hit gone place count hplace
  | submit | handler | task => simp [Handles] at hm
  | evict => exact hm.elim

omit hit gone

/-- Some steps of the cancellation lead from one state to the other. -/
def Goes (shards : Shards) (memorySize : RecordBatch → Nat) (i : Nat)
    (s s' : State shards.count) : Prop :=
  ∃ count, s' = run (State.step shards memorySize) s (replicate count (.cancel i))

theorem Goes.refl (s : State shards.count) : Goes shards memorySize i s s := ⟨0, rfl⟩

theorem Goes.before {c : CancelCall shards.count} (hc : s.cancels i = some c)
    (h : Goes shards memorySize i (s.cancelStep shards i c) s') :
    Goes shards memorySize i s s' := by
  obtain ⟨count, rfl⟩ := h
  refine ⟨count + 1, ?_⟩
  rw [replicate_succ, run_cons, State.step, hc]

theorem Goes.trans {s'' : State shards.count} (h : Goes shards memorySize i s s')
    (h' : Goes shards memorySize i s' s'') : Goes shards memorySize i s s'' := by
  obtain ⟨count, rfl⟩ := h
  obtain ⟨count', rfl⟩ := h'
  exact ⟨count + count', by rw [replicate_add, run_append]⟩

variable {count : Nat} {rest : List (Fin shards.count)}

/-- The cancellation marks every handle that it has found. -/
theorem goes_flagging (memorySize : RecordBatch → Nat) {found : List Nat}
    (hc : s.cancels i = some ⟨queryId, .flagging found rest, count⟩) :
    ∃ s' count', Goes shards memorySize i s s' ∧
      s'.cancels i = some ⟨queryId, .scanning rest, count'⟩ ∧ s'.active = s.active ∧
      ∀ k, k ∈ found ∨ HitAt s k → HitAt s' k := by
  induction found generalizing s count with
  | nil =>
    refine ⟨_, count, .before hc (.refl _), if_pos rfl, rfl, ?_⟩
    rintro k (hk | hk)
    · cases hk
    · exact hk
  | cons k found ih =>
    -- one step sets the flag, the next one fires the interrupt handle
    let flagged := s.cancelStep shards i ⟨queryId, .flagging (k::found) rest, count⟩
    have hflagged : flagged.cancels i = some ⟨queryId, .interrupting k found rest, count⟩ :=
      if_pos rfl
    let fired := flagged.cancelStep shards i ⟨queryId, .interrupting k found rest, count⟩
    have hfired : fired.cancels i = some ⟨queryId, .flagging found rest, count + 1⟩ := if_pos rfl
    have marked : ∀ j, j = k ∨ HitAt s j → HitAt fired j := by
      intro j hj c hcall
      by_cases hjk : j = k
      · subst hjk
        have twice : fired.calls j = ((s.calls j).map fun h => { h with cancelled := true }).map
            fun h => { h with interrupted := h.interrupted || h.interruptHandle } := by
          simp [fired, flagged, State.cancelStep]
        rw [twice] at hcall
        cases hs : s.calls j with
        | none => simp [hs] at hcall
        | some d =>
          simp only [hs, Option.map_some, Option.some.injEq] at hcall
          subst hcall
          refine ⟨rfl, fun handle => ?_⟩
          simp only [Bool.or_eq_true]
          exact .inr handle
      · have same : fired.calls j = s.calls j := by
          simp [fired, flagged, State.cancelStep, hjk, State.setCancel]
        exact hj.resolve_left hjk c (same ▸ hcall)
    obtain ⟨s', count', goes, hs', hactive, hhit⟩ := ih hfired
    refine ⟨s', count', .before hc (.before hflagged goes), hs', hactive, fun j hj => hhit j ?_⟩
    rcases hj with hj | hj
    · rcases mem_cons.mp hj with rfl | hj
      · exact .inr (marked _ (.inl rfl))
      · exact .inl hj
    · exact .inr (marked j (.inr hj))

theorem goes_scanning (memorySize : RecordBatch → Nat)
    (hc : s.cancels i = some ⟨queryId, .scanning rest, count⟩) :
    ∃ s' count', Goes shards memorySize i s s' ∧
      s'.cancels i = some ⟨queryId, .removing (finRange shards.count), count'⟩ ∧
      ∀ k, (∃ key, (key, k) ∈ s.active ∧ key.1 = queryId ∧ shards.active key ∈ rest) ∨ HitAt s k →
        HitAt s' k := by
  induction rest generalizing s count with
  | nil =>
    refine ⟨_, count, .before hc (.refl _), if_pos rfl, ?_⟩
    rintro k (⟨key, -, -, hk⟩ | hk)
    · cases hk
    · exact hk
  | cons shard rest ih =>
    let found := s.cancelStep shards i ⟨queryId, .scanning (shard::rest), count⟩
    have hfound : found.cancels i =
        some ⟨queryId, .flagging (s.found shards queryId shard) rest, count⟩ := if_pos rfl
    obtain ⟨marked, count', goes, hmarked, hactive, hhit⟩ := goes_flagging memorySize hfound
    obtain ⟨s', count'', goes', hs', hhit'⟩ := ih hmarked
    refine ⟨s', count'', .before hc (goes.trans goes'), hs', fun k hk => hhit' k ?_⟩
    rcases hk with ⟨key, hmem, hquery, hshard⟩ | hk
    · rcases mem_cons.mp hshard with hshard | hshard
      · exact .inr (hhit k (.inl ((mem_found s queryId shard k).mpr ⟨key, hquery, hshard, hmem⟩)))
      · exact .inl ⟨key, hactive ▸ hmem, hquery, hshard⟩
    · exact .inr (hhit k (.inr hk))

theorem goes_removing (memorySize : RecordBatch → Nat)
    (hc : s.cancels i = some ⟨queryId, .removing rest, count⟩) :
    ∃ s', Goes shards memorySize i s s' ∧ s'.calls = s.calls ∧
      ∀ key, (key.queryId = queryId ∧ shards.results key ∈ rest) ∨ s.results key = none →
        s'.results key = none := by
  induction rest generalizing s count with
  | nil =>
    refine ⟨s, .refl s, rfl, ?_⟩
    rintro key (⟨-, hk⟩ | hk)
    · cases hk
    · exact hk
  | cons shard rest ih =>
    let removed := s.cancelStep shards i ⟨queryId, .removing (shard::rest), count⟩
    have hremoved : removed.cancels i = some ⟨queryId, .removing rest, count⟩ := if_pos rfl
    obtain ⟨s', goes, hcalls, hnone⟩ := ih hremoved
    refine ⟨s', .before hc goes, hcalls, fun key hkey => hnone key ?_⟩
    rcases hkey with ⟨hquery, hshard⟩ | hkey
    · rcases mem_cons.mp hshard with hshard | hshard
      · exact .inr (if_pos ⟨hquery, hshard⟩)
      · exact .inl ⟨hquery, hshard⟩
    · refine .inr ?_
      by_cases hthis : key.queryId = queryId ∧ shards.results key = shard
      · exact if_pos hthis
      · exact (if_neg hthis).trans hkey

/-- A cancellation that is handled to its end has marked every listed handle of its query and
removed every result. -/
theorem cancel_served (memorySize : RecordBatch → Nat) (hi : s.cancels i = none)
    (queryId : String) :
    ∃ s', Goes shards memorySize i (s.step shards memorySize (.cancelQuery i queryId)) s' ∧
      (∀ key k, (key, k) ∈ s.active → key.1 = queryId → HitAt s' k) ∧
      ∀ key, key.queryId = queryId → s'.results key = none := by
  have received : (s.step shards memorySize (.cancelQuery i queryId)).cancels i =
      some ⟨queryId, .scanning (finRange shards.count), 0⟩ := by
    simp [State.step, hi, State.setCancel]
  have active : (s.step shards memorySize (.cancelQuery i queryId)).active = s.active :=
    active_step_other shards memorySize s (by simp)
  obtain ⟨marked, count, goes, hmarked, hhit⟩ := goes_scanning memorySize received
  obtain ⟨s', goes', hcalls, hnone⟩ := goes_removing memorySize hmarked
  refine ⟨s', goes.trans goes', fun key k hmem hkey c hc => ?_, fun key hkey => ?_⟩
  · exact hhit k (.inl ⟨key, active ▸ hmem, hkey, mem_finRange _⟩) c (hcalls ▸ hc)
  · exact hnone key (.inl ⟨hkey, mem_finRange _⟩)

end Cancelling

section Isolation

variable {b} {shards : Shards} {data : D} {s : State shards.count} {i : Nat}
  {header : Option (Option String)}

/-- A request that no handler moves for is isolated if its answer tells nothing. -/
theorem isolated_iff_reply {request : Request json} (idle : ∀ m, ¬ Handles b i request.rpc m) :
    Isolated b shards data s i request ↔ ∀ other, reply b data s i request =
      reply b other (withResults s fun _ => none) i request := by
  constructor
  · intro h
    exact (h [] (by simp)).2
  · intro h moves hmoves
    cases moves with
    | nil => exact ⟨⟨rfl, rfl, fun _ _ hc => hc⟩, h⟩
    | cons m moves => exact absurd (hmoves m mem_cons_self) (idle m)

theorem isolated_submit_iff (hi : s.calls i = none) (inv : Inv s) (howned : Owned s)
    (body : json.Bytes) :
    Isolated b shards data s i ⟨header, .doAction "submit_stage" body⟩ ↔
      SubmitHarmless b s.tenantId body := by
  constructor
  · intro h stage hdecode htenant inputs hinputs
    have first : Handles b i (.doAction "submit_stage" body) (.submit i stage) :=
      ⟨rfl, body, rfl, hdecode⟩
    have next : Handles b i (.doAction "submit_stage" body) (.handler i .ready) :=
      ⟨rfl, body, rfl⟩
    refine submit_changes b.memorySize hi inv howned htenant hinputs
      ⟨(h _ ?_).1, (h _ ?_).1⟩
    · simp [first, next]
    · simp [first, next]
  · intro harmless moves hmoves
    have refusing : Refusing s i (run (State.step shards b.memorySize) s moves) :=
      run_kept (fun s' m h hm => h.step harmless hm) (refusing_self hi)
        (along_of_forall (fun m hm _ => hmoves m hm) s)
    exact ⟨refusing.unchanged hi, fun other => (doAction_withResults b s i _ body moves _).symm⟩

theorem handles_cancel {body : json.Bytes} {queryId : String}
    (hbody : cancelledQuery json body = some queryId) (count : Nat) :
    ∀ m ∈ Move.cancelQuery i queryId::replicate count (.cancel i),
      Handles b i (.doAction "cancel_query" body) m := by
  intro m hm
  rcases mem_cons.mp hm with rfl | hm
  · exact ⟨rfl, body, rfl, hbody⟩
  · obtain rfl := eq_of_mem_replicate hm
    exact ⟨rfl, body, rfl⟩

theorem isolated_cancel_iff (hi : s.cancels i = none) (body : json.Bytes) :
    Isolated b shards data s i ⟨header, .doAction "cancel_query" body⟩ ↔
      CancelHarmless s body := by
  constructor
  · intro h queryId hbody
    obtain ⟨s', ⟨count, hs'⟩, hhit, hnone⟩ := cancel_served b.memorySize hi queryId
    have unchanged : Unchanged s s' := hs' ▸ (h _ (handles_cancel hbody count)).1
    refine ⟨fun key k hmem hkey c hc => hhit key k hmem hkey c (unchanged.calls k c hc),
      fun key hkey => ?_⟩
    rw [← unchanged.results]
    exact hnone key hkey
  · intro harmless moves hmoves
    refine ⟨?_, fun other => (doAction_withResults b s i _ body moves _).symm⟩
    cases hbody : cancelledQuery json body with
    | none =>
      have still : run (State.step shards b.memorySize) s moves = s := by
        refine run_kept (I := fun s' => s' = s) (fun s' m h hm => ?_) rfl
          (along_of_forall (fun m hm _ => hmoves m hm) s)
        subst h
        cases m with
        | cancelQuery k q =>
          obtain ⟨-, _, ⟨⟩, hq⟩ := hm
          cases hbody.symm.trans hq
        | cancel k =>
          obtain ⟨rfl, -⟩ := hm
          simp [State.step, hi]
        | submit | handler | task => simp [Handles] at hm
        | evict => exact hm.elim
      rw [still]
      exact ⟨rfl, rfl, fun _ _ hc => hc⟩
    | some queryId =>
      obtain ⟨hit, gone⟩ := harmless queryId hbody
      have idling : Idling s i queryId (run (State.step shards b.memorySize) s moves) :=
        run_kept (fun s' m h hm => h.step hit gone hbody hm)
          ⟨rfl, rfl, rfl, fun c hc => by cases hi.symm.trans hc⟩
          (along_of_forall (fun m hm _ => hmoves m hm) s)
      exact ⟨idling.active, idling.results, fun k c hc => idling.calls ▸ hc⟩

theorem data_inj {result result' : Except Status Reply} :
    (Answer.data <$> result.mapError .status : Except FlightStatus (Answer json)) =
      Answer.data <$> result'.mapError .status ↔ result = result' := by
  cases result <;> cases result' <;> simp [Except.mapError]

attribute [local simp] Except.bind bind

theorem isolated_doGet_iff (bytes : json.Bytes) :
    Isolated b shards data s i ⟨header, .doGet bytes⟩ ↔ GetHarmless b s bytes := by
  rw [isolated_iff_reply (fun m => by cases m <;> simp [Handles])]
  simp only [reply, Option.some.injEq, data_inj]
  unfold FlightTickets.doGet GetHarmless
  cases FlightTicket.decode json bytes with
  | none => simp
  | some ticket =>
    simp only [Option.some.injEq, forall_eq']
    have check : validateTenant (withResults s fun _ => none).service ticket.tenantId =
        validateTenant s.service ticket.tenantId := rfl
    simp only [check]
    cases htenant : validateTenant s.service ticket.tenantId with
    | error e =>
      have other : ticket.tenantId ≠ s.tenantId := by
        intro h
        cases htenant.symm.trans (validateTenant_eq_ok.mpr h)
      simp [other]
    | ok =>
      have own : ticket.tenantId = s.tenantId := validateTenant_eq_ok.mp htenant
      rw [imp_iff_right own]
      cases ticket with
      | query query =>
        have answers (result result' : Except Status (List RecordBatch)) :
            Reply.queryResult <$> result = Reply.queryResult <$> result' ↔ result = result' := by
          cases result <;> cases result' <;> simp
        change (∀ other, Reply.queryResult <$> b.runQuery data query =
          Reply.queryResult <$> b.runQuery other query) ↔ Dataless b query
        simp only [answers]
        exact ⟨fun same first second => (same first).symm.trans (same second), fun h => h data⟩
      | stageResult t =>
        change (D → handleStageResultDoGet s.service t =
          handleStageResultDoGet (withResults s fun _ => none).service t) ↔
            s.results (.fromTicket t) = none
        have : Nonempty D := ⟨data⟩
        rw [forall_const]
        cases hkept : s.results (.fromTicket t) <;>
          simp [handleStageResultDoGet, State.service, withResults, hkept]

/-- The calls that look at the header alone turn another tenant away. -/
theorem isolated_metadata {tenant : String} (htenant : tenant ≠ s.tenantId)
    {rpc : Rpc json} (hrpc : ∀ ticket, rpc ≠ .doGet ticket)
    (haction : ∀ type body, rpc ≠ .doAction type body) :
    Isolated b shards data s i ⟨some (some tenant), rpc⟩ := by
  have idle : ∀ m, ¬ Handles b i rpc m := by
    intro m
    cases m with
    | submit | cancelQuery =>
      rintro ⟨-, body, h, -⟩
      exact haction _ body h
    | handler | task | cancel =>
      rintro ⟨-, body, h⟩
      exact haction _ body h
    | evict => exact id
  have refused : validateTenantFromMetadata s.service (some (some tenant)) =
      .error (.status (.permissionDenied ("Tenant ID mismatch: expected '" ++ s.tenantId ++
        "', got '" ++ tenant ++ "'"))) := by
    simp [validateTenantFromMetadata, validateTenant, htenant, State.service, Except.mapError]
  have alike : validateTenantFromMetadata (withResults s fun _ => none).service
      (some (some tenant)) = validateTenantFromMetadata s.service (some (some tenant)) := rfl
  rw [isolated_iff_reply idle]
  intro other
  cases rpc with
  | doGet ticket => exact absurd rfl (hrpc ticket)
  | doAction type body => exact absurd rfl (haction type body)
  | listFlights | getFlightInfo | getSchema => simp only [reply, alike, refused, bind, Except.bind]
  | handshake | pollFlightInfo | doPut | doExchange | listActions => rfl

theorem isolated_action_iff (hcall : s.calls i = none) (hcancel : s.cancels i = none) (inv : Inv s)
    (howned : Owned s) (type : String) (body : json.Bytes) :
    Isolated b shards data s i ⟨header, .doAction type body⟩ ↔
      Harmless b s ⟨header, .doAction type body⟩ := by
  by_cases submit : type = "submit_stage"
  · subst submit
    rw [isolated_submit_iff hcall inv howned]
    simp [Harmless]
  · by_cases cancel : type = "cancel_query"
    · subst cancel
      rw [isolated_cancel_iff hcancel]
      simp [Harmless]
    · rw [isolated_iff_reply (fun m => by cases m <;> simp [Handles, submit, cancel])]
      simp only [Harmless, submit, cancel, false_imp_iff, and_self, iff_true]
      exact fun _ => rfl

/-- A request of another tenant, or about another tenant's query, is kept off the worker's stages,
results and data just when it is harmless: no stage with the worker's own tenant and readable
inputs, no cancellation of a query with a handle still to be marked or a kept result, and no ticket
with the worker's own tenant for a kept result or for a query over the datasets. -/
theorem foreign_isolated_iff (b : Backend json D) (shards : Shards) (owner : String → String)
    (tenantId : String) (moves : List Move) {s : State shards.count}
    (hs : s = run (State.step shards b.memorySize) (start shards.count tenantId) moves) (data : D)
    {i : Nat} (hcall : s.calls i = none) (hcancel : s.cancels i = none) (request : Request json) :
    (Foreign b owner s.tenantId request → Isolated b shards data s i request) ↔
      (Foreign b owner s.tenantId request → Harmless b s request) := by
  refine imp_congr_right fun foreign => ?_
  obtain ⟨header, rpc⟩ := request
  cases rpc with
  | doGet ticket => exact isolated_doGet_iff ticket
  | doAction type body =>
    have inv : Inv s := hs ▸ inv_run shards b.memorySize tenantId moves
    have howned : Owned s := hs ▸ owned_run shards b.memorySize tenantId moves
    exact isolated_action_iff hcall hcancel inv howned type body
  | handshake | listFlights | getFlightInfo | pollFlightInfo | getSchema | doPut | doExchange
  | listActions =>
    refine iff_of_true ?_ trivial
    obtain ⟨tenant, htenant, hne⟩ | ⟨queryId, hquery, -⟩ := foreign
    · obtain rfl : header = some (some tenant) := by
        simpa [tenants, Option.bind_eq_some_iff] using htenant
      exact isolated_metadata hne (by simp) (by simp)
    · cases hquery

def plainBackend : Backend objectCodec (List RecordBatch) :=
  ⟨fun _ => 0, fun data _ => .ok data, fun _ _ => .ok [], fun _ => [], fun _ => "",
    fun _ => .error ""⟩

/-- The result of one stage is kept, and another one is listed and has its connection. -/
def busyMoves : List Move :=
  [.submit 0 ⟨"a", "q", 0, "", .ok [], none⟩, .handler 0 .ready, .handler 0 .ready,
    .submit 1 ⟨"a", "q", 1, "SELECT 1", .ok [], none⟩, .handler 1 .ready, .handler 1 .ready,
    .task 1 (.ok []), .task 1 (.ok [])]

def busyWorker : State oneShard.count :=
  run (State.step oneShard fun _ => 0) (start oneShard.count "a") busyMoves

def cancelByOther (queryId : String) : Request objectCodec :=
  ⟨some (some "b"), .doAction "cancel_query" [("query_id", .str queryId)]⟩

theorem foreign_isolated_iff_other_query :
    Isolated plainBackend oneShard [] busyWorker 2 (cancelByOther "p") := by
  have active : busyWorker.active = [(("q", 1), 1)] := rfl
  have kept : busyWorker.results = fun k => if k = .new "q" 0 then some ⟨[], 0⟩ else none := rfl
  have harmless : @CancelHarmless objectCodec _ busyWorker [("query_id", .str "p")] := by
    intro queryId hq
    obtain rfl : "p" = queryId := Option.some.inj hq
    constructor
    · intro key k hmem hkey
      simp only [active, mem_singleton, Prod.mk.injEq] at hmem
      obtain ⟨rfl, -⟩ := hmem
      exact absurd hkey (by decide)
    · intro key hkey
      rw [kept]
      refine if_neg ?_
      rintro rfl
      exact absurd hkey (by decide)
  have submits : "cancel_query" ≠ "submit_stage" := by decide
  exact (foreign_isolated_iff plainBackend oneShard (fun _ => "a") "a" busyMoves rfl [] rfl rfl
    (cancelByOther "p")).mpr (fun _ => ⟨fun h => absurd h submits, fun _ => harmless⟩)
    (.inl ⟨"b", mem_cons_self, by decide⟩)

/-- Another tenant cancels the query: its stage is interrupted and its result removed. -/
theorem other_tenant_cancels :
    let after := run (State.step oneShard fun _ => 0) busyWorker
      (.cancelQuery 2 "q"::replicate 7 (.cancel 2))
    Foreign plainBackend (fun _ => "a") busyWorker.tenantId (cancelByOther "q") ∧
      (∃ c, busyWorker.calls 1 = some c ∧ c.cancelled = false ∧ c.interrupted = false) ∧
      (∃ c, after.calls 1 = some c ∧ c.cancelled = true ∧ c.interrupted = true) ∧
      (busyWorker.results (.new "q" 0)).isSome ∧ after.results (.new "q" 0) = none ∧
      ¬ Isolated plainBackend oneShard [] busyWorker 2 (cancelByOther "q") := by
  refine ⟨.inl ⟨"b", mem_cons_self, by decide⟩, ⟨_, rfl, rfl, rfl⟩, ⟨_, rfl, rfl, rfl⟩, rfl, rfl,
    fun isolated => ?_⟩
  have kept := congrFun (isolated _ (handles_cancel rfl 7)).1.results (.new "q" 0)
  have gone : (none : Option CachedStageResult) = some ⟨[], 0⟩ := kept
  cases gone

end Isolation

end Leibrix.FlightIsolation
