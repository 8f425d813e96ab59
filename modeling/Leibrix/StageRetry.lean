import Leibrix.LocalStages
import Leibrix.FlightTickets
import Leibrix.QueryStream

/-!
# Retrying a stage

The coordinator submits a stage again when the text of its error looks transient. On the way
to that text the executor over Flight renders every status that a worker's action returns as
one of an unavailable worker. A failure here carries where it came from, which the
coordinator does not see; the calls that a submission makes are parameters.
-/

set_option autoImplicit false

namespace Leibrix.StageRetry
open LdpTypes LdpCut ExchangeRuntime ProtoConvert LocalStages QueryStream
open FlightTickets (Status)
open List

section Lowercase

/-- How characters are written in lower case, each by itself except where the text before it, last
character first, and after it matters. -/
structure LowerTable where
  lowerChar : List Char → Char → List Char → List Char
  ascii : ∀ before c rest, c.toNat < 128 → lowerChar before c rest = [c.toLower]

variable (table : LowerTable)

def lowerFrom : List Char → List Char → List Char
  | _, [] => []
  | before, c::rest => table.lowerChar before c rest ++ lowerFrom (c::before) rest

def toLowercase (text : String) : String := .ofList (lowerFrom table [] text.toList)

theorem lowerFrom_append (before a b : List Char) :
    ∃ lowered before', lowerFrom table before (a ++ b) = lowered ++ lowerFrom table before' b := by
  induction a generalizing before with
  | nil => exact ⟨[], before, rfl⟩
  | cons c a ih =>
    obtain ⟨lowered, before', eq⟩ := ih (c::before)
    exact ⟨_, before', by rw [cons_append, lowerFrom, eq, append_assoc]⟩

theorem lowerFrom_plain {phrase : List Char} (hphrase : ∀ c ∈ phrase, c.toNat < 128 ∧ c.toLower = c)
    (before b : List Char) :
    ∃ before', lowerFrom table before (phrase ++ b) = phrase ++ lowerFrom table before' b := by
  induction phrase generalizing before with
  | nil => exact ⟨before, rfl⟩
  | cons c phrase ih =>
    obtain ⟨before', eq⟩ := ih (fun d hd => hphrase d (mem_cons_of_mem _ hd)) (c::before)
    obtain ⟨hc, hlower⟩ := hphrase c mem_cons_self
    refine ⟨before', ?_⟩
    rw [cons_append, lowerFrom, table.ascii before c _ hc, hlower, eq]
    rfl

variable {text phrase : String}

theorem mentions_before (b : String) (h : mentions text phrase = true) :
    mentions (text ++ b) phrase = true := by
  have infix_text := of_decide_eq_true h
  refine decide_eq_true ?_
  rw [String.toList_append]
  exact infix_text.trans (prefix_append _ _).isInfix

theorem mentions_after (a : String) (h : mentions text phrase = true) :
    mentions (a ++ text) phrase = true := by
  have infix_text := of_decide_eq_true h
  refine decide_eq_true ?_
  rw [String.toList_append]
  exact infix_text.trans (suffix_append _ _).isInfix

theorem mentions_toLowercase (hphrase : ∀ c ∈ phrase.toList, c.toNat < 128 ∧ c.toLower = c)
    (h : mentions text phrase = true) : mentions (toLowercase table text) phrase = true := by
  obtain ⟨a, b, eq⟩ := of_decide_eq_true h
  obtain ⟨lowered, before, skipped⟩ := lowerFrom_append table [] a (phrase.toList ++ b)
  obtain ⟨before', kept⟩ := lowerFrom_plain table hphrase before b
  refine decide_eq_true ⟨lowered, lowerFrom table before' b, ?_⟩
  rw [toLowercase, String.toList_ofList, ← eq, append_assoc, append_assoc, skipped, kept]

end Lowercase

section Flight

/-- Whether a failure comes from the stage or from the way to its worker and back. -/
inductive Origin where
  | stage
  | transport
  deriving DecidableEq

structure Failure where
  origin : Origin
  error : StageExecutionError

inductive ConnectFailure where
  | invalidEndpoint (detail : String)
  | refused (detail : String)

structure SubmitStageResponse where
  success : Bool
  errorMessage : String
  resultTicket : Bytes

/-- How an action ends, and the first message of its response. -/
inductive ActionReply where
  /-- The worker's handler returned an error. -/
  | status (status : Status)
  /-- The call was lost on the way, with the text of the client's status. -/
  | lost (status : String)
  | ended
  | broken (status : String)
  | message (body : Bytes)

/-- What the calls return that one submission to a worker makes. -/
structure Calls where
  /-- A connection is kept that is not too old and answers. -/
  cached : Bool
  endpoint : Option String
  connect : Except ConnectFailure Unit
  serializeRequest : Except String Unit
  doAction : ActionReply
  deserializeResponse : Bytes → Except String SubmitStageResponse

variable (worker : WorkerId)

def connect (endpoint : String) (result : Except ConnectFailure Unit) :
    Except StageExecutionError Unit :=
  result.mapError fun
    | .invalidEndpoint detail =>
      .workerUnavailable worker ("Invalid endpoint '" ++ endpoint ++ "': " ++ detail)
    | .refused detail =>
      .workerUnavailable worker ("Failed to connect to '" ++ endpoint ++ "': " ++ detail)

def resolveEndpoint : Option String → Except StageExecutionError String
  | none => .error (.workerUnavailable worker
      ("No endpoint registered for worker '" ++ worker ++ "'"))
  | some endpoint => .ok endpoint

def getConnection (calls : Calls) : Except StageExecutionError Unit :=
  if calls.cached then .ok ()
  else do
    let endpoint ← resolveEndpoint worker calls.endpoint
    connect worker endpoint calls.connect

variable (displayStatus : Status → String)

def readReply (worker : WorkerId) : ActionReply → Except Failure Bytes
  | .status status =>
    .error ⟨.stage, .workerUnavailable worker ("DoAction failed: " ++ displayStatus status)⟩
  | .lost status => .error ⟨.transport, .workerUnavailable worker ("DoAction failed: " ++ status)⟩
  | .ended => .error ⟨.transport, .executionFailed "Empty response from submit_stage"⟩
  | .broken status => .error ⟨.transport, .executionFailed ("Failed to read response: " ++ status)⟩
  | .message body => .ok body

/-- The bytes of the ticket that the worker answers with. A request that cannot be written and a
response that cannot be read count as failures of the stage, whatever keeps a message from coming
through as one of the transport. -/
def submitToWorker (worker : WorkerId) (calls : Calls) : Except Failure Bytes := do
  (getConnection worker calls).mapError fun e => ⟨.transport, e⟩
  calls.serializeRequest.mapError fun e =>
    ⟨.stage, .executionFailed ("Failed to serialize request: " ++ e)⟩
  let body ← readReply displayStatus worker calls.doAction
  let response ← (calls.deserializeResponse body).mapError fun e =>
    ⟨.stage, .executionFailed ("Failed to deserialize response: " ++ e)⟩
  if !response.success then
    .error ⟨.stage, .executionFailed ("Stage execution failed: " ++ response.errorMessage)⟩
  else .ok response.resultTicket

/-- One submission, with what the executor meets in the course of it. -/
inductive Submission (Db : Type) where
  | locally (executor : LocalExecutor Db) (elapsed : WorkerId → Nat)
  | remotely (displayStatus : Status → String) (calls : WorkerId → Calls)

/-- Both executors stop at the first worker that fails. -/
def Submission.submitStage {Db : Type} (queryId : String) (stage : SentStage) (inputs : Inputs) :
    Submission Db → Except Failure (List StageTicket)
  | locally executor elapsed => do
    let stored ← (executor.submitStage queryId stage inputs elapsed).mapError fun e => ⟨.stage, e⟩
    return stored.map (·.1)
  | remotely displayStatus calls => do
    let tickets ← stage.targetWorkers.mapM fun worker => do
      let resultTicket ← submitToWorker displayStatus worker (calls worker)
      return workerTickets queryId stage.stageId stage.output worker resultTicket
    return tickets.flatten

end Flight

section Retry

variable (table : LowerTable)

def isRetryableError (e : ExecutionError) : Bool :=
  let msg := toLowercase table (displayExecutionError e)
  mentions msg "unavailable" || mentions msg "deadline_exceeded" ||
    mentions msg "connection refused" || mentions msg "timed out" || mentions msg "broken pipe"

structure StageRun where
  submissions : Nat
  result : Except ExecutionError (List StageTicket)

variable (maxRetries stageId : Nat) (outcomes : Nat → Except Failure (List StageTicket))

def exhaustedError (lastError : Option ExecutionError) : ExecutionError :=
  .stageFailed stageId ("Failed after " ++ toString maxRetries ++ " retries: " ++
    (lastError.map displayExecutionError).getD "")

/-- The loop with a number of submissions left, after some failed ones. -/
def retryLoop : Nat → Nat → Option ExecutionError → StageRun
  | 0, retries, lastError => ⟨retries, .error (exhaustedError maxRetries stageId lastError)⟩
  | left+1, retries, _ =>
    match outcomes retries with
    | .ok tickets => ⟨retries+1, .ok tickets⟩
    | .error failure =>
      let execErr := .stageFailed stageId failure.error.display
      if !isRetryableError table execErr then ⟨retries+1, .error execErr⟩
      else retryLoop left (retries+1) (some execErr)

def executeStageWithRetry : StageRun :=
  retryLoop table maxRetries stageId outcomes (maxRetries+1) 0 none

end Retry

section Origins

variable {table : LowerTable} {maxRetries stageId : Nat}
  {outcomes : Nat → Except Failure (List StageTicket)}

def Retryable (table : LowerTable) (stageId : Nat) (failure : Failure) : Prop :=
  isRetryableError table (.stageFailed stageId failure.error.display) = true

/-- What the loop reports of the submission it ends with, the last of those allowed or not. -/
def EndsWith (table : LowerTable) (maxRetries stageId : Nat) (isLast : Prop)
    (result : Except ExecutionError (List StageTicket)) : Except Failure (List StageTicket) → Prop
  | .ok tickets => result = .ok tickets
  | .error failure =>
    (Retryable table stageId failure ∧ isLast ∧ result =
        .error (exhaustedError maxRetries stageId
          (some (.stageFailed stageId failure.error.display)))) ∨
      (¬ Retryable table stageId failure ∧
        result = .error (.stageFailed stageId failure.error.display))

/-- The loop goes on over failures that it takes for transient ones. -/
theorem retryLoop_spec (table : LowerTable) (maxRetries stageId : Nat)
    (outcomes : Nat → Except Failure (List StageTicket)) (left retries : Nat)
    (lastError : Option ExecutionError) :
    ∃ n ≤ left,
      (retryLoop table maxRetries stageId outcomes (left+1) retries lastError).submissions =
          retries + n + 1 ∧
        (∀ k < n, ∃ failure, outcomes (retries + k) = .error failure ∧
          Retryable table stageId failure) ∧
        EndsWith table maxRetries stageId (n = left)
          (retryLoop table maxRetries stageId outcomes (left+1) retries lastError).result
          (outcomes (retries + n)) := by
  induction left generalizing retries lastError with
  | zero =>
    refine ⟨0, le_rfl, ?_⟩
    cases h : outcomes retries with
    | ok tickets => simp [retryLoop, h, EndsWith]
    | error failure =>
      by_cases hretry : Retryable table stageId failure <;>
      · have text := hretry
        unfold Retryable at text
        simp [retryLoop, h, EndsWith, hretry, text]
  | succ left ih =>
    cases h : outcomes retries with
    | ok tickets => exact ⟨0, Nat.zero_le _, by simp [retryLoop, h, EndsWith]⟩
    | error failure =>
      by_cases hretry : Retryable table stageId failure
      · obtain ⟨n, hn, hcount, hbefore, hend⟩ :=
          ih (retries+1) (some (.stageFailed stageId failure.error.display))
        have next : retryLoop table maxRetries stageId outcomes (left+1+1) retries lastError =
            retryLoop table maxRetries stageId outcomes (left+1) (retries+1)
              (some (.stageFailed stageId failure.error.display)) := by
          unfold Retryable at hretry
          rw [retryLoop, h]
          simp only [hretry, Bool.not_true, Bool.false_eq_true, if_false]
        have shift : ∀ k, retries + 1 + k = retries + (k + 1) := fun k => by omega
        rw [next]
        refine ⟨n+1, by omega, by omega, fun k hk => ?_, ?_⟩
        · cases k with
          | zero => exact ⟨failure, h, hretry⟩
          | succ k => exact shift k ▸ hbefore k (by omega)
        · rw [shift] at hend
          simpa only [Nat.add_right_cancel_iff] using hend
      · have text := hretry
        unfold Retryable at text
        exact ⟨0, Nat.zero_le _, by simp [retryLoop, h, EndsWith, hretry, text]⟩

theorem exhaustedError_ne (text : String) :
    exhaustedError maxRetries stageId (some (.stageFailed stageId text)) ≠
      .stageFailed stageId text := by
  have longer : ∀ a b c d : String, a ≠ "" → a ++ b ++ c ++ (d ++ text) ≠ text := by
    intro a b c d filled h
    have lengths := congrArg String.length h
    simp only [String.length_append] at lengths
    have positive : a.length ≠ 0 := fun h => filled (String.length_eq_zero_iff.mp h)
    omega
  intro h
  exact longer "Failed after " _ _ _ (by decide +kernel) (ExecutionError.stageFailed.inj h).2

/-- A failure of the stage ends the run and is returned; a failure of the transport leads to another
submission until none is left. -/
structure RetriedByOrigin (maxRetries stageId : Nat)
    (outcomes : Nat → Except Failure (List StageTicket)) (run : StageRun) (last : Nat) : Prop where
  submissions : run.submissions = last + 1
  bounded : last ≤ maxRetries
  before : ∀ k < last, ∃ failure, outcomes k = .error failure ∧ failure.origin = .transport
  success : ∀ tickets, outcomes last = .ok tickets → run.result = .ok tickets
  stage : ∀ failure, outcomes last = .error failure → failure.origin = .stage →
    run.result = .error (.stageFailed stageId failure.error.display)
  transport : ∀ failure, outcomes last = .error failure → failure.origin = .transport →
    last = maxRetries ∧ ∃ e, run.result = .error e

/-- The text of a failure tells where it comes from. With no submission left, a failure of the
transport is returned either way. -/
def Judged (table : LowerTable) (maxRetries stageId k : Nat) (failure : Failure) : Prop :=
  match failure.origin with
  | .stage => ¬ Retryable table stageId failure
  | .transport => k < maxRetries → Retryable table stageId failure

variable {k : Nat} {failure : Failure}

theorem judged_stage (h : failure.origin = .stage) :
    Judged table maxRetries stageId k failure ↔ ¬ Retryable table stageId failure := by
  rw [Judged, h]

theorem judged_transport (h : failure.origin = .transport) :
    Judged table maxRetries stageId k failure ↔
      (k < maxRetries → Retryable table stageId failure) := by
  rw [Judged, h]

variable {run : StageRun} {n : Nat}
  (hend : EndsWith table maxRetries stageId (n = maxRetries) run.result (outcomes n))
  (hbefore : ∀ k < n, ∃ failure, outcomes k = .error failure ∧ Retryable table stageId failure)
include hend hbefore

theorem judged_of_retried (hrun : RetriedByOrigin maxRetries stageId outcomes run n)
    (hk : k ≤ n) (hfailure : outcomes k = .error failure) :
    Judged table maxRetries stageId k failure := by
  rcases hk.lt_or_eq with hlt | rfl
  · obtain ⟨seen, hseen, retryable⟩ := hbefore k hlt
    obtain ⟨other, hother, origin⟩ := hrun.before k hlt
    cases hseen.symm.trans hfailure
    cases hother.symm.trans hfailure
    exact (judged_transport origin).mpr fun _ => retryable
  · rw [hfailure] at hend
    cases origin : failure.origin with
    | stage =>
      rw [judged_stage origin]
      rcases hend with ⟨-, -, result⟩ | ⟨unretryable, -⟩
      · have returned := hrun.stage failure hfailure origin
        rw [result] at returned
        exact absurd (Except.error.inj returned) (exhaustedError_ne _)
      · exact unretryable
    | transport =>
      exact (judged_transport origin).mpr fun hlt =>
        absurd (hrun.transport failure hfailure origin).1 hlt.ne

theorem retried_of_judged (hcount : run.submissions = n + 1) (hn : n ≤ maxRetries)
    (hjudged : ∀ k ≤ n, ∀ failure, outcomes k = .error failure →
      Judged table maxRetries stageId k failure) :
    RetriedByOrigin maxRetries stageId outcomes run n where
  submissions := hcount
  bounded := hn
  before k hk := by
    obtain ⟨failure, hfailure, retryable⟩ := hbefore k hk
    refine ⟨failure, hfailure, ?_⟩
    cases origin : failure.origin with
    | stage => exact absurd retryable ((judged_stage origin).mp (hjudged k hk.le failure hfailure))
    | transport => rfl
  success tickets h := by
    rw [h] at hend
    exact hend
  stage failure h origin := by
    have unretryable := (judged_stage origin).mp (hjudged n le_rfl failure h)
    rw [h] at hend
    rcases hend with ⟨retryable, -⟩ | ⟨-, result⟩
    · exact absurd retryable unretryable
    · exact result
  transport failure h origin := by
    have judged := (judged_transport origin).mp (hjudged n le_rfl failure h)
    rw [h] at hend
    rcases hend with ⟨-, isLast, result⟩ | ⟨unretryable, result⟩
    · exact ⟨isLast, _, result⟩
    · exact ⟨le_antisymm hn (not_lt.mp fun hlt => unretryable (judged hlt)), _, result⟩

omit hend hbefore

theorem retryable_workerUnavailable (table : LowerTable) (stageId : Nat) (origin : Origin)
    (worker : WorkerId) (detail : String) :
    Retryable table stageId ⟨origin, .workerUnavailable worker detail⟩ := by
  have plain : ∀ c ∈ "unavailable".toList, c.toNat < 128 ∧ c.toLower = c := by simp
  have word : mentions " unavailable: " "unavailable" = true := by decide +kernel
  have text : mentions (displayExecutionError (.stageFailed stageId
      (StageExecutionError.workerUnavailable worker detail).display)) "unavailable" = true :=
    mentions_after _ (mentions_before _ (mentions_after _ word))
  have named := mentions_toLowercase table plain text
  simp only [Retryable, isRetryableError, Bool.or_eq_true]
  exact .inl (.inl (.inl (.inl named)))

/-- A run of a stage goes by the origin of its failures exactly if the text of each failure that it
meets tells its origin. The text never does for an error that a worker's action returns. -/
theorem retried_by_origin_iff {Db : Type} (table : LowerTable) (maxRetries : UInt32)
    (queryId : String) (stage : SentStage) (inputs : Inputs) (submission : Nat → Submission Db) :
    let outcomes k := (submission k).submitStage queryId stage inputs
    let run := executeStageWithRetry table maxRetries.toNat stage.stageId outcomes
    ((∃ last, RetriedByOrigin maxRetries.toNat stage.stageId outcomes run last) ↔
      ∀ k < run.submissions, ∀ failure, outcomes k = .error failure →
        Judged table maxRetries.toNat stage.stageId k failure) ∧
    ∀ k failure worker detail, failure = ⟨.stage, .workerUnavailable worker detail⟩ →
      ¬ Judged table maxRetries.toNat stage.stageId k failure := by
  intro outcomes run
  obtain ⟨n, hn, hcount, hbefore, hend⟩ :=
    retryLoop_spec table maxRetries.toNat stage.stageId outcomes maxRetries.toNat 0 none
  simp only [Nat.zero_add] at hcount hbefore hend
  change run.submissions = n + 1 at hcount
  refine ⟨⟨?_, fun judged => ⟨n, ?_⟩⟩, ?_⟩
  · rintro ⟨last, retried⟩ k hk failure hfailure
    obtain rfl : last = n := Nat.succ.inj (retried.submissions.symm.trans hcount)
    exact judged_of_retried hend hbefore retried (by omega) hfailure
  · exact retried_of_judged hend hbefore hcount hn fun k hk =>
      judged k (by omega)
  · rintro k failure worker detail rfl
    rw [judged_stage rfl, not_not]
    exact retryable_workerUnavailable table stage.stageId .stage worker detail

def asciiTable : LowerTable := ⟨fun _ c _ => [c.toLower], fun _ _ _ _ => rfl⟩

def someStage (stageSql : String) : SentStage := ⟨0, ["w1"], [], .stream, stageSql, {}⟩

/-- A worker that is reached and answers to the action. -/
def reached (reply : ActionReply) : Submission Unit :=
  .remotely (fun _ => "status: Internal") fun _ =>
    ⟨true, none, .ok (), .ok (), reply, fun _ => .error ""⟩

def unknownTable (name : String) : Submission Unit :=
  .locally
    { duckdb := ⟨(), fun _ _ _ => .error (.prepare
        ("Catalog Error: Table with name " ++ name ++ " does not exist!"))⟩
      workerDatabases := fun _ => none
      memorySize := fun _ => 0
      debugDuration := fun _ => ""
      lower := id
      partition := fun _ _ _ => .ok [] }
    fun _ => 0

def submissionsOf (stageSql : String) (submission : Submission Unit) : Nat :=
  (executeStageWithRetry asciiTable 1 0 fun _ =>
    submission.submitStage "q" (someStage stageSql) fun _ => none).submissions

/-- A syntax error that a worker reports, and an unknown table with the wrong name, are submitted
twice; a response that breaks off is not. -/
theorem syntax_error_resubmitted :
    submissionsOf "SELEC" (reached (.status (.internal "Parser Error"))) = 2 ∧
      submissionsOf "SELECT * FROM unavailable" (unknownTable "unavailable") = 2 ∧
      submissionsOf "SELECT 1" (reached (.broken "transport error")) = 1 := by
  decide +kernel

end Origins

end Leibrix.StageRetry
