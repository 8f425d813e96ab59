import Leibrix.ExecutionLevels
import Leibrix.StageRetry

/-!
# Executions of plans

A coordinator executes plans and takes cancellations side by side. In a batch execution
the stages of a level are driven together: each is submitted to its workers one after
another and again after a transient failure. A pipelined execution spawns all stages and
falls back to a batch if anything fails; what it has spawned goes on. A cancellation
collects the running stages of a query shard by shard, cancels each and then forgets the
query. What the workers, the databases and the network answer comes with a move.
-/

set_option autoImplicit false

namespace Leibrix.PlanExecution
open LdpTypes LdpCut ExecutionLevels ExchangeRuntime HashPartition LocalStages StageRetry

/-- The coordinator's settings, and the workers with a known endpoint. -/
structure Config where
  distributed : Bool
  enableStreamingPipeline : Bool
  maxStageRetries : Nat
  table : LowerTable
  workerIds : List WorkerId

section Stages

/-- Where the future of a stage in a level stands: before its stage is looked up, before the
inputs for the next workers are resolved, waiting for an answer, or before another try. -/
inductive StageProgress where
  | unstarted
  | resolving (groups : List (List WorkerId))
  | waiting (group : List WorkerId) (groups : List (List WorkerId)) (retries : Nat)
  | sleeping (group : List WorkerId) (groups : List (List WorkerId)) (retries : Nat)
  | finished (ok : Bool)
  deriving DecidableEq

def hasExchangeInputs (stage : Stage) : Bool :=
  stage.inputs.any fun
    | .exchangeInput _ _ => true
    | .localCatalog => false

variable (cfg : Config)

def groups (stage : Stage) : List (List WorkerId) :=
  if cfg.distributed || hasExchangeInputs stage then stage.targetWorkers.map ([·])
  else [stage.targetWorkers]

def getStage (plan : LdpPlan) (stageId : Nat) : Option Stage :=
  plan.stages.find? (·.stageId == stageId)

abbrev Answer := Option StageExecutionError

def retries (stageId : Nat) (error : StageExecutionError) : Bool :=
  isRetryableError cfg.table (.stageFailed stageId error.display)

namespace StageProgress

def step (plan : LdpPlan) (stageId : Nat) : StageProgress → Answer → StageProgress
  | unstarted, _ =>
    match getStage plan stageId with
    | some stage => resolving (groups cfg stage)
    | none => finished false
  | resolving [], _ => finished true
  | resolving (group::groups), none => waiting group groups 0
  | resolving (_::_), some _ => finished false
  | waiting _ groups _, none => resolving groups
  | waiting group groups retried, some error =>
    if retries cfg stageId error && decide (retried + 1 ≤ cfg.maxStageRetries) then
      sleeping group groups (retried + 1)
    else finished false
  | sleeping group groups retried, _ => waiting group groups retried
  | finished ok, _ => finished ok

def submits : StageProgress → Answer → List (List WorkerId)
  | resolving (group::_), none | sleeping group _ _, _ => [group]
  | _, _ => []

end StageProgress

end Stages

/-- A stage task of a pipelined execution. -/
inductive Stream where
  | running
  | ended (ok : Bool)
  deriving DecidableEq

/-- What an execution is doing: spawning the stages of a pipeline, with the exchanges left; waiting
for its handles in turn and for the result; driving a level; looking at its results; cancelling
the query after a failure; fetching the output. -/
inductive Phase where
  | spawning (left : List Stage) (channels : List Nat)
  | joining (handle : Nat)
  | level (stages : List (Nat × StageProgress)) (rest : List (List Nat))
  | results (left : List (Nat × Bool)) (rest : List (List Nat))
  | failing
  | fetching
  | ended

/-- `keys` is the order in which the map of in-degrees is iterated. -/
structure Execution where
  queryId : String
  plan : LdpPlan
  keys : List Nat
  streams : List (Nat × Stream)
  phase : Phase
  submissions : List (Nat × List WorkerId)

inductive StageStatus where
  | pending | running | completed | failed
  deriving DecidableEq

/-- What a step of an execution does to the coordinator. -/
inductive Effect where
  | nothing
  | setStageStatus (stageId : Nat) (status : StageStatus)
  | cancelQuery

/-- The exchanges that are left when a stage has taken its inputs. -/
def resolveInputStreams : List StageInput → List Nat → Except ExecutionError (List Nat)
  | [], channels => .ok channels
  | .localCatalog::inputs, channels => resolveInputStreams inputs channels
  | .exchangeInput exchangeId _::inputs, channels =>
    if exchangeId ∈ channels then
      resolveInputStreams inputs (channels.filter (· ≠ exchangeId))
    else
      .error (.exchangeFailed
        ("Exchange " ++ toString exchangeId ++ " not found in stage channels"))

namespace Execution

variable (cfg : Config) (e : Execution)

def levels : Option (List (List Nat)) :=
  match computeExecutionLevels e.keys (e.plan.stages.length + 1) e.plan with
  | some (.ok levels) => some levels
  | _ => none

def startBatch : Execution :=
  match e.levels with
  | some levels => { e with phase := .results [] levels }
  | none => { e with phase := .ended }

def new (queryId : String) (plan : LdpPlan) (keys : List Nat) : Execution :=
  let e : Execution := ⟨queryId, plan, keys, [], .ended, []⟩
  if cfg.enableStreamingPipeline && !cfg.distributed then
    { e with phase := .spawning plan.stages (plan.edges.map (·.exchangeId)) }
  else e.startBatch

/-- A stage of the level goes on. Only a distributed execution notes that it runs. -/
def stageStep (position : Nat) (answer : Answer) : Execution × Effect :=
  match e.phase with
  | .level stages rest =>
    match stages[position]? with
    | some (stageId, progress) =>
      ({ e with
          phase := .level (stages.set position
            (stageId, progress.step cfg e.plan stageId answer)) rest
          submissions := e.submissions ++ (progress.submits answer).map (stageId, ·) },
        if cfg.distributed && progress = .unstarted && (getStage e.plan stageId).isSome then
          .setStageStatus stageId .running
        else .nothing)
    | none => (e, .nothing)
  | _ => (e, .nothing)

def finishedAll : List (Nat × StageProgress) → Option (List (Nat × Bool))
  | [] => some []
  | (stageId, .finished ok)::stages => (finishedAll stages).map ((stageId, ok)::·)
  | _::_ => none

/-- The loop of the execution goes on. `collected` is whether the output of a pipeline was. -/
def proceed (collected : Bool) : Execution × Effect :=
  match e.phase with
  | .spawning [] _ => ({ e with phase := .joining 0 }, .nothing)
  | .spawning (stage::left) channels =>
    match resolveInputStreams stage.inputs channels with
    | .ok channels =>
      ({ e with
          phase := .spawning left channels
          streams := e.streams ++ [(stage.stageId, .running)]
          submissions := e.submissions ++ [(stage.stageId, stage.targetWorkers)] }, .nothing)
    | .error _ => (e.startBatch, .nothing)
  | .joining handle =>
    match e.streams[handle]? with
    | some (_, .running) => (e, .nothing)
    | some (_, .ended true) => ({ e with phase := .joining (handle + 1) }, .nothing)
    | some (_, .ended false) => (e.startBatch, .nothing)
    | none => (if collected then { e with phase := .ended } else e.startBatch, .nothing)
  | .level stages rest =>
    match finishedAll stages with
    | some results => ({ e with phase := .results results rest }, .nothing)
    | none => (e, .nothing)
  | .results ((stageId, true)::left) rest =>
    ({ e with phase := .results left rest }, .setStageStatus stageId .completed)
  | .results ((_, false)::_) _ => ({ e with phase := .failing }, .cancelQuery)
  | .results [] (level::rest) =>
    ({ e with phase := .level (level.map (·, .unstarted)) rest }, .nothing)
  | .results [] [] => ({ e with phase := .fetching }, .nothing)
  | .fetching => ({ e with phase := .ended }, .nothing)
  | .failing | .ended => (e, .nothing)

def streamEnds (position : Nat) (ok : Bool) : Execution :=
  match e.streams[position]? with
  | some (stageId, .running) => { e with streams := e.streams.set position (stageId, .ended ok) }
  | _ => e

end Execution

abbrev StageKey := String × Nat

/-- The hash tables of the coordinator are divided into shards. -/
structure Shards where
  count : Nat
  status : StageKey → Fin count
  monitors : StageKey → Fin count
  order : HashOrder Nat

/-- Who cancels a query: a client, or an execution after a failure. -/
inductive Caller where
  | client (j : Nat)
  | execution (i : Nat)
  deriving DecidableEq

/-- A task that sends a cancellation to the workers, with those it has tried and whether the
action was sent. -/
inductive CancelTask where
  | spawned
  | sending (left : List WorkerId) (tried : List (WorkerId × Bool))

def CancelTask.step (cfg : Config) (connected : Bool) : CancelTask → CancelTask
  | spawned => sending cfg.workerIds []
  | sending (worker::left) tried => sending left (tried ++ [(worker, connected)])
  | sending [] tried => sending [] tried

/-- Where `cancel_query` stands, with the stages in flight. -/
inductive Canceller (n : Nat) where
  | scanning (shards : List (Fin n)) (inFlight : List Nat)
  | cancelling (left inFlight : List Nat)
  | clearingStatus (shards : List (Fin n)) (inFlight : List Nat)
  | clearingMonitors (shards : List (Fin n)) (inFlight : List Nat)
  | returned (inFlight : List Nat)

structure CancelCall (n : Nat) where
  queryId : String
  place : Canceller n
  tasks : List CancelTask

def CancelCall.new (n : Nat) (queryId : String) : CancelCall n :=
  ⟨queryId, .scanning (List.finRange n) [], []⟩

/-- `cancelled` lists the monitors that have been told. -/
structure State (n : Nat) where
  stageStatus : List (StageKey × StageStatus)
  stageMonitors : List (StageKey × Nat)
  cancelled : List Nat
  executions : Nat → Option Execution
  cancels : Caller → Option (CancelCall n)

inductive Move where
  | execute (i : Nat) (queryId : String) (plan : LdpPlan) (keys : List Nat)
  | stage (i position : Nat) (answer : Answer)
  | proceed (i : Nat) (collected : Bool)
  | stream (i position : Nat) (ok : Bool)
  | registerStageMonitor (key : StageKey) (monitor : Nat)
  | unregisterStageMonitor (key : StageKey)
  | cancelQuery (j : Nat) (queryId : String)
  | cancel (caller : Caller)
  | send (caller : Caller) (task : Nat) (connected : Bool)

def start (n : Nat) : State n := ⟨[], [], [], fun _ => none, fun _ => none⟩

namespace State

variable {n : Nat} (s : State n)

def setExecution (i : Nat) (e : Execution) : State n :=
  { s with executions := fun k => if k = i then some e else s.executions k }

def setCancel (caller : Caller) (c : CancelCall n) : State n :=
  { s with cancels := fun k => if k = caller then some c else s.cancels k }

def setStageStatus (key : StageKey) (status : StageStatus) : State n :=
  { s with stageStatus := (key, status)::s.stageStatus.filter fun entry => entry.1 ≠ key }

def apply (i : Nat) (queryId : String) : Effect → State n
  | .nothing => s
  | .setStageStatus stageId status => s.setStageStatus (queryId, stageId) status
  | .cancelQuery =>
    if (s.cancels (.execution i)).isSome then s
    else s.setCancel (.execution i) (.new n queryId)

def inFlight (shards : Shards) (s : State shards.count) (queryId : String)
    (shard : Fin shards.count) : List Nat :=
  shards.order.iter ((s.stageStatus.filter fun entry =>
    entry.1.1 = queryId ∧ entry.2 = .running ∧ shards.status entry.1 = shard).map (·.1.2))

def monitorOf (key : StageKey) : Option Nat :=
  (s.stageMonitors.find? (·.1 = key)).map (·.2)

def cancelStage (cfg : Config) (s : State n) (caller : Caller) (c : CancelCall n)
    (stageId : Nat) (place : Canceller n) : State n :=
  if cfg.distributed then
    s.setCancel caller { c with place := place, tasks := c.tasks ++ [.spawned] }
  else
    match s.monitorOf (c.queryId, stageId) with
    | some monitor =>
      { s.setCancel caller { c with place := place } with cancelled := monitor::s.cancelled }
    | none => s.setCancel caller { c with place := place }

def cancelStep (cfg : Config) (shards : Shards) (s : State shards.count) (caller : Caller)
    (c : CancelCall shards.count) : State shards.count :=
  match c.place with
  | .scanning (shard::rest) found =>
    s.setCancel caller
      { c with place := .scanning rest (found ++ s.inFlight shards c.queryId shard) }
  | .scanning [] found => s.setCancel caller { c with place := .cancelling found found }
  | .cancelling (stageId::left) found => s.cancelStage cfg caller c stageId (.cancelling left found)
  | .cancelling [] found =>
    s.setCancel caller { c with place := .clearingStatus (List.finRange shards.count) found }
  | .clearingStatus (shard::rest) found =>
    { s.setCancel caller { c with place := .clearingStatus rest found } with
      stageStatus := s.stageStatus.filter fun entry =>
        ¬ (entry.1.1 = c.queryId ∧ shards.status entry.1 = shard) }
  | .clearingStatus [] found =>
    s.setCancel caller { c with place := .clearingMonitors (List.finRange shards.count) found }
  | .clearingMonitors (shard::rest) found =>
    { s.setCancel caller { c with place := .clearingMonitors rest found } with
      stageMonitors := s.stageMonitors.filter fun entry =>
        ¬ (entry.1.1 = c.queryId ∧ shards.monitors entry.1 = shard) }
  | .clearingMonitors [] found => s.setCancel caller { c with place := .returned found }
  | .returned _ => s

def hasCancelled (i : Nat) : Bool :=
  match s.cancels (.execution i) with
  | some ⟨_, .returned _, _⟩ => true
  | _ => false

def step (cfg : Config) (shards : Shards) (s : State shards.count) : Move → State shards.count
  | .execute i queryId plan keys =>
    if (s.executions i).isSome then s else s.setExecution i (.new cfg queryId plan keys)
  | .stage i position answer =>
    match s.executions i with
    | some e =>
      let next := e.stageStep cfg position answer
      (s.apply i e.queryId next.2).setExecution i next.1
    | none => s
  | .proceed i collected =>
    match s.executions i with
    | some e =>
      match e.phase with
      | .failing => if s.hasCancelled i then s.setExecution i { e with phase := .ended } else s
      | _ =>
        let next := e.proceed collected
        (s.apply i e.queryId next.2).setExecution i next.1
    | none => s
  | .stream i position ok =>
    match s.executions i with
    | some e => s.setExecution i (e.streamEnds position ok)
    | none => s
  | .registerStageMonitor key monitor =>
    { s with stageMonitors := (key, monitor)::s.stageMonitors.filter fun entry => entry.1 ≠ key }
  | .unregisterStageMonitor key =>
    { s with stageMonitors := s.stageMonitors.filter fun entry => entry.1 ≠ key }
  | .cancelQuery j queryId =>
    if (s.cancels (.client j)).isSome then s
    else s.setCancel (.client j) (.new shards.count queryId)
  | .cancel caller =>
    match s.cancels caller with
    | some c => s.cancelStep cfg shards caller c
    | none => s
  | .send caller task connected =>
    match s.cancels caller with
    | some c => s.setCancel caller { c with tasks := c.tasks.modify task (·.step cfg connected) }
    | none => s

end State

section Inversion

variable {cfg : Config} {e : Execution}

theorem finishedAll_eq {stages : List (Nat × StageProgress)} {results : List (Nat × Bool)}
    (h : Execution.finishedAll stages = some results) :
    stages = results.map fun r => (r.1, .finished r.2) := by
  induction stages generalizing results with
  | nil =>
    cases h
    rfl
  | cons entry stages ih =>
    obtain ⟨k, p⟩ := entry
    cases p with
    | finished ok =>
      obtain ⟨rest, hrest, rfl⟩ := Option.map_eq_some_iff.mp h
      rw [ih hrest]
      rfl
    | _ => cases h

theorem stageStep_cases (cfg : Config) (e : Execution) (position : Nat) (answer : Answer) :
    e.stageStep cfg position answer = (e, .nothing) ∨
      ∃ stages rest k p, e.phase = .level stages rest ∧ stages[position]? = some (k, p) ∧
        e.stageStep cfg position answer =
          ({ e with
              phase := .level (stages.set position (k, p.step cfg e.plan k answer)) rest
              submissions := e.submissions ++ (p.submits answer).map (k, ·) },
            if cfg.distributed && p = .unstarted && (getStage e.plan k).isSome then
              .setStageStatus k .running
            else .nothing) := by
  cases hphase : e.phase with
  | level stages rest =>
    cases hstage : stages[position]? with
    | none => exact .inl (by simp only [Execution.stageStep, hphase, hstage])
    | some entry =>
      exact .inr ⟨stages, rest, entry.1, entry.2, rfl, hstage, by
        simp only [Execution.stageStep, hphase, hstage]⟩
  | _ => exact .inl (by simp only [Execution.stageStep, hphase])

def Streaming : Phase → Prop
  | .spawning _ _ | .joining _ => True
  | _ => False

/-- What a step of the loop of an execution does. -/
inductive Proceeds (e : Execution) : Execution × Effect → Prop
  | waits : Proceeds e (e, .nothing)
  | drives (level : List Nat) (rest : List (List Nat)) (h : e.phase = .results [] (level::rest)) :
      Proceeds e ({ e with phase := .level (level.map (·, .unstarted)) rest }, .nothing)
  | looks (results : List (Nat × Bool)) (rest : List (List Nat))
      (h : e.phase = .level (results.map fun r => (r.1, .finished r.2)) rest) :
      Proceeds e ({ e with phase := .results results rest }, .nothing)
  | notes (k : Nat) (left : List (Nat × Bool)) (rest : List (List Nat))
      (h : e.phase = .results ((k, true)::left) rest) :
      Proceeds e ({ e with phase := .results left rest }, .setStageStatus k .completed)
  | fails (k : Nat) (left : List (Nat × Bool)) (rest : List (List Nat))
      (h : e.phase = .results ((k, false)::left) rest) :
      Proceeds e ({ e with phase := .failing }, .cancelQuery)
  | fetches (h : e.phase = .results [] []) : Proceeds e ({ e with phase := .fetching }, .nothing)
  | ends (h : e.phase = .fetching) : Proceeds e ({ e with phase := .ended }, .nothing)
  | streams (next : Execution) (h : Streaming e.phase) (hplan : next.plan = e.plan)
      (hquery : next.queryId = e.queryId)
      (hnext : Streaming next.phase ∨ next.phase = .ended ∨
        ∃ levels, e.levels = some levels ∧ next.phase = .results [] levels) :
      Proceeds e (next, .nothing)

theorem startBatch_phase (e : Execution) : e.startBatch.plan = e.plan ∧
    e.startBatch.queryId = e.queryId ∧ (e.startBatch.phase = .ended ∨
      ∃ levels, e.levels = some levels ∧ e.startBatch.phase = .results [] levels) := by
  unfold Execution.startBatch
  cases e.levels with
  | none => exact ⟨rfl, rfl, .inl rfl⟩
  | some levels => exact ⟨rfl, rfl, .inr ⟨levels, rfl, rfl⟩⟩

theorem proceeds_startBatch (h : Streaming e.phase) : Proceeds e (e.startBatch, .nothing) := by
  obtain ⟨hplan, hquery, hnext⟩ := startBatch_phase e
  exact .streams _ h hplan hquery (.inr hnext)

theorem proceeds_proceed (e : Execution) (collected : Bool) : Proceeds e (e.proceed collected) := by
  have here : ∀ {phase}, e.phase = phase → Streaming phase → Streaming e.phase :=
    fun h hs => h ▸ hs
  unfold Execution.proceed
  cases hphase : e.phase with
  | spawning left channels =>
    cases left with
    | nil => exact .streams _ (here hphase trivial) rfl rfl (.inl trivial)
    | cons stage left =>
      cases hinputs : resolveInputStreams stage.inputs channels with
      | error => simpa only [hinputs] using proceeds_startBatch (here hphase trivial)
      | ok channels' =>
        simp only [hinputs]
        exact .streams _ (here hphase trivial) rfl rfl (.inl trivial)
  | joining handle =>
    cases hhandle : e.streams[handle]? with
    | none =>
      simp only [hhandle]
      cases collected with
      | true => exact .streams _ (here hphase trivial) rfl rfl (.inr (.inl rfl))
      | false => exact proceeds_startBatch (here hphase trivial)
    | some entry =>
      simp only [hhandle]
      obtain ⟨k, stream⟩ := entry
      match stream with
      | .running => exact .waits
      | .ended true => exact .streams _ (here hphase trivial) rfl rfl (.inl trivial)
      | .ended false => exact proceeds_startBatch (here hphase trivial)
  | level stages rest =>
    cases hall : Execution.finishedAll stages with
    | none => simpa only [hall] using .waits
    | some results =>
      simp only [hall]
      exact .looks results rest (hphase.trans (by rw [← finishedAll_eq hall]))
  | results left rest =>
    match left, rest with
    | (k, true)::left, rest => exact .notes k left rest hphase
    | (k, false)::left, rest => exact .fails k left rest hphase
    | [], level::rest => exact .drives level rest hphase
    | [], [] => exact .fetches hphase
  | fetching => exact .ends hphase
  | failing | ended => exact .waits

/-- What a move does. -/
inductive Stepped (cfg : Config) (shards : Shards) (s : State shards.count) :
    Move → State shards.count → Prop
  | idle (m : Move) : Stepped cfg shards s m s
  | executes (i : Nat) (queryId : String) (plan : LdpPlan) (keys : List Nat)
      (h : s.executions i = none) :
      Stepped cfg shards s (.execute i queryId plan keys)
        (s.setExecution i (.new cfg queryId plan keys))
  | stages (i : Nat) (e : Execution) (position : Nat) (answer : Answer)
      (he : s.executions i = some e) :
      Stepped cfg shards s (.stage i position answer)
        ((s.apply i e.queryId (e.stageStep cfg position answer).2).setExecution i
          (e.stageStep cfg position answer).1)
  | proceeds (i : Nat) (e : Execution) (collected : Bool) (next : Execution × Effect)
      (he : s.executions i = some e) (h : Proceeds e next) :
      Stepped cfg shards s (.proceed i collected)
        ((s.apply i e.queryId next.2).setExecution i next.1)
  | stops (i : Nat) (e : Execution) (collected : Bool) (he : s.executions i = some e)
      (h : e.phase = .failing) :
      Stepped cfg shards s (.proceed i collected) (s.setExecution i { e with phase := .ended })
  | streams (i : Nat) (e : Execution) (position : Nat) (ok : Bool)
      (he : s.executions i = some e) :
      Stepped cfg shards s (.stream i position ok) (s.setExecution i (e.streamEnds position ok))
  | monitors (m : Move) (stageMonitors : List (StageKey × Nat)) :
      Stepped cfg shards s m { s with stageMonitors := stageMonitors }
  | starts (j : Nat) (queryId : String) (h : s.cancels (.client j) = none) :
      Stepped cfg shards s (.cancelQuery j queryId)
        (s.setCancel (.client j) (.new shards.count queryId))
  | cancels (caller : Caller) (c : CancelCall shards.count) (hc : s.cancels caller = some c) :
      Stepped cfg shards s (.cancel caller) (s.cancelStep cfg shards caller c)
  | sends (caller : Caller) (c : CancelCall shards.count) (task : Nat) (connected : Bool)
      (hc : s.cancels caller = some c) :
      Stepped cfg shards s (.send caller task connected)
        (s.setCancel caller { c with tasks := c.tasks.modify task (·.step cfg connected) })

theorem stepped_step (cfg : Config) (shards : Shards) (s : State shards.count) (m : Move) :
    Stepped cfg shards s m (s.step cfg shards m) := by
  fun_cases State.step cfg shards s m
  case case2 | case14 =>
    constructor
    exact Option.not_isSome_iff_eq_none.mp ‹_›
  case case7 i collected e he _ _ => exact .proceeds i e collected _ he (proceeds_proceed e _)
  case case11 | case12 => exact .monitors _ _
  all_goals constructor <;> assumption

end Inversion

end Leibrix.PlanExecution
