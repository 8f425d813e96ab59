import Mathlib.Data.List.ReduceOption
import Leibrix.Runs

/-!
# The tasks of a session

A session is started in stages and then has two tasks: one reads the stream of the control
plane, the other writes to it what callers have put into a channel, and heartbeats. The
task that finds the stream dead fires a token that stops the other one, and then publishes
that the session is disconnected. Between two steps of one task the others, the callers
and the transport may take any number of theirs.
-/

set_option autoImplicit false

namespace Leibrix.SessionTasks
open Runs List

structure StatusUpdate where
  datasetId : String
  epochId : String
  status : String
  error : Option String
  deriving DecidableEq

/-- The errors with which a running session is reported as disconnected. -/
inductive Ending where
  | streamClosed (reason : String)
  | sessionClosed
  deriving DecidableEq

inductive SessionStatus where
  | connecting
  | registering
  | active
  | disconnected (error : Ending)
  deriving DecidableEq

/-- Where the send task stands. What it writes is an update or a heartbeat; after a cancel
it drains the channel, and the channel is closed when it has ended. -/
inductive SendTask where
  | waiting
  | writing (message : Option StatusUpdate)
  | publishing (error : Ending)
  | draining
  | leaving
  | ended
  deriving DecidableEq

inductive ReceiveTask where
  | waiting
  | publishing (reason : String)
  | ended
  deriving DecidableEq

/-- The channel of the callers is `queue`. `accepted` has the updates for which callers got
`Ok`, `sent` what the send task gave to the stream. -/
structure Tasks where
  cancelled : Bool
  send : SendTask
  receive : ReceiveTask
  queue : List StatusUpdate
  senders : Bool
  accepted : List StatusUpdate
  sent : List (Option StatusUpdate)
  deriving DecidableEq

def spawned : Tasks := ⟨false, .waiting, .waiting, [], true, [], []⟩

inductive TrySendError where
  | backpressureFull (capacity : Nat)
  | sessionClosed
  deriving DecidableEq

def trySendStatusUpdate (capacity : Nat) (t : Tasks) (update : StatusUpdate) :
    Except TrySendError Tasks :=
  if t.send = .ended then .error .sessionClosed
  else if capacity ≤ t.queue.length then .error (.backpressureFull capacity)
  else .ok { t with queue := t.queue ++ [update], accepted := t.accepted ++ [update] }

inductive ReceiveMove where
  | streamEnded (reason : String)
  | publish
  | stop

/-- A step of the receive task, with the status it publishes. -/
def runReceiveTask (t : Tasks) : ReceiveMove → Tasks × Option SessionStatus
  | .streamEnded reason =>
    match t.receive with
    | .waiting => ({ t with cancelled := true, receive := .publishing reason }, none)
    | _ => (t, none)
  | .publish =>
    match t.receive with
    | .publishing reason =>
      ({ t with receive := .ended }, some (.disconnected (.streamClosed reason)))
    | _ => (t, none)
  | .stop =>
    match t.receive, t.cancelled with
    | .waiting, true => ({ t with receive := .ended }, none)
    | _, _ => (t, none)

inductive SendMove where
  | take
  | heartbeat
  | written
  | writeFails
  | sendersGone
  | publish
  | stop
  | drain (room : Bool)
  | drained
  | leave

def runSendTask (t : Tasks) : SendMove → Tasks × Option SessionStatus
  | .take =>
    match t.send, t.queue with
    | .waiting, update::queue => ({ t with send := .writing (some update), queue }, none)
    | _, _ => (t, none)
  | .heartbeat =>
    match t.send with
    | .waiting => ({ t with send := .writing none }, none)
    | _ => (t, none)
  | .written =>
    match t.send with
    | .writing message => ({ t with send := .waiting, sent := t.sent ++ [message] }, none)
    | _ => (t, none)
  | .writeFails =>
    match t.send with
    | .writing _ =>
      let error := .streamClosed "gRPC request channel closed"
      ({ t with cancelled := true, send := .publishing error }, none)
    | _ => (t, none)
  | .sendersGone =>
    match t.send, t.queue, t.senders with
    | .waiting, [], false =>
      ({ t with cancelled := true, send := .publishing .sessionClosed }, none)
    | _, _, _ => (t, none)
  | .publish =>
    match t.send with
    | .publishing error => ({ t with send := .leaving }, some (.disconnected error))
    | _ => (t, none)
  | .stop =>
    match t.send, t.cancelled with
    | .waiting, true => ({ t with send := .draining }, none)
    | _, _ => (t, none)
  | .drain room =>
    match t.send, t.queue with
    -- the message is dropped when the stream is closed or has no room for it
    | .draining, update::queue =>
      ({ t with queue, sent := if room then t.sent ++ [some update] else t.sent }, none)
    | _, _ => (t, none)
  | .drained =>
    match t.send, t.queue with
    | .draining, [] => ({ t with send := .leaving }, none)
    | _, _ => (t, none)
  | .leave =>
    match t.send with
    | .leaving => ({ t with send := .ended, queue := [] }, none)
    | _ => (t, none)

inductive TasksMove where
  | receive (m : ReceiveMove)
  | send (m : SendMove)
  | trySend (update : StatusUpdate)
  | dropSenders

def Tasks.step (capacity : Nat) (t : Tasks) : TasksMove → Tasks × Option SessionStatus
  | .receive m => runReceiveTask t m
  | .send m => runSendTask t m
  | .trySend update =>
    match t.senders, trySendStatusUpdate capacity t update with
    | true, .ok t' => (t', none)
    | _, _ => (t, none)
  | .dropSenders => ({ t with senders := false }, none)

/-- How far `start` has come. There are no tasks before it has registered the worker. -/
inductive Phase where
  | connecting
  | registering
  | failed
  | running (tasks : Tasks)
  deriving DecidableEq

structure Session where
  phase : Phase
  status : SessionStatus
  receivers : Bool
  deriving DecidableEq

def initial : Session := ⟨.connecting, .connecting, true⟩

/-- A status that nobody can receive is not stored. -/
def publish (s : Session) : Option SessionStatus → Session
  | some status => if s.receivers then { s with status } else s
  | none => s

inductive Move where
  | opened (ok : Bool)
  | registered (ok : Bool)
  | tasks (m : TasksMove)
  | dropReceivers

def step (capacity : Nat) (s : Session) (m : Move) : Session :=
  match s.phase, m with
  | .connecting, .opened true => publish { s with phase := .registering } (some .registering)
  | .connecting, .opened false | .registering, .registered false => { s with phase := .failed }
  | .registering, .registered true => publish { s with phase := .running spawned } (some .active)
  | .running t, .tasks m =>
    publish { s with phase := .running (t.step capacity m).1 } (t.step capacity m).2
  | .running _, .dropReceivers => { s with receivers := false }
  | _, _ => s

variable {s : Session} {t : Tasks}

variable {t' : Tasks}

section Status

def SessionStatus.rank : SessionStatus → Nat
  | .connecting => 0
  | .registering => 1
  | .active => 2
  | .disconnected _ => 3

attribute [local simp] SessionStatus.rank

theorem rank_eq_three {status : SessionStatus} :
    status.rank = 3 ↔ ∃ error, status = .disconnected error := by
  cases status <;> simp

theorem rank_le_three (status : SessionStatus) : status.rank ≤ 3 := by
  cases status <;> simp

def SendTask.stopping : SendTask → Bool
  | .waiting | .writing _ => false
  | _ => true

/-- A task has fired the token and has its publication still before it. -/
def Tasks.Publishing (t : Tasks) : Prop :=
  (∃ reason, t.receive = .publishing reason) ∨ ∃ error, t.send = .publishing error

/-- What a step of a task can do to the end of the session: a task stops only after a cancel,
whoever cancels has yet to publish, and only an end is published. -/
structure Ends (t t' : Tasks) (published : Option SessionStatus) : Prop where
  cancelled : t.cancelled = true → t'.cancelled = true
  stopping : t'.send.stopping = true → t.send.stopping = true ∨ t'.cancelled = true
  fired : t'.cancelled = true → t.cancelled = true ∨ t'.Publishing
  pending : published = none → t.Publishing → t'.Publishing
  isEnd : ∀ status ∈ published, status.rank = 3

theorem Ends.refl (t : Tasks) : Ends t t none := ⟨id, Or.inl, Or.inl, fun _ => id, nofun⟩

theorem ends_receive (t : Tasks) (m : ReceiveMove) :
    Ends t (runReceiveTask t m).1 (runReceiveTask t m).2 := by
  fun_cases runReceiveTask t m
  case case1 | case3 | case5 =>
    constructor <;> simp_all [Tasks.Publishing]
  all_goals exact .refl t

theorem ends_send (t : Tasks) (m : SendMove) : Ends t (runSendTask t m).1 (runSendTask t m).2 := by
  fun_cases runSendTask t m
  case case2 | case4 | case6 | case8 | case10 | case12 | case14 | case16 | case18 | case20 =>
    exact .refl t
  all_goals constructor <;> simp_all [SendTask.stopping, Tasks.Publishing]

theorem ends_step (capacity : Nat) (t : Tasks) (m : TasksMove) :
    Ends t (t.step capacity m).1 (t.step capacity m).2 := by
  cases m with
  | receive m => exact ends_receive t m
  | send m => exact ends_send t m
  | trySend update =>
    simp only [Tasks.step]
    split
    · next sent =>
      unfold trySendStatusUpdate at sent
      split_ifs at sent
      cases sent
      exact ⟨id, Or.inl, Or.inl, fun _ => id, nofun⟩
    · exact .refl t
  | dropSenders => exact ⟨id, Or.inl, Or.inl, fun _ => id, nofun⟩

/-- Until the tasks run the status is the one of its phase. Once the token is fired the end is
published or about to be. -/
def Ordered (s : Session) : Prop :=
  match s.phase with
  | .connecting => s.status = .connecting ∧ s.receivers = true
  | .registering => s.status = .registering ∧ s.receivers = true
  | .failed => True
  | .running t =>
    (t.send.stopping = true → t.cancelled = true) ∧
      (t.cancelled = true → s.receivers = true → s.status.rank = 3 ∨ t.Publishing)

variable {published : Option SessionStatus}

theorem rank_publish (isEnd : ∀ status ∈ published, status.rank = 3) :
    s.status.rank ≤ (publish { s with phase := .running t } published).status.rank := by
  cases published with
  | none => exact Nat.le_refl _
  | some status =>
    have rank : status.rank = 3 := isEnd status rfl
    have top := rank_le_three s.status
    simp only [publish]
    split <;> simp only <;> omega

theorem ordered_publish (h : Ordered { s with phase := .running t }) (ends : Ends t t' published) :
    Ordered (publish { s with phase := .running t' } published) := by
  obtain ⟨stopping, pending⟩ := h
  have stopping' : t'.send.stopping = true → t'.cancelled = true := fun h =>
    (ends.stopping h).elim (fun before => ends.cancelled (stopping before)) id
  cases published with
  | none =>
    refine ⟨stopping', fun cancelled receivers => ?_⟩
    rcases ends.fired cancelled with before | publishing
    · exact (pending before receivers).imp_right (ends.pending rfl)
    · exact Or.inr publishing
  | some status =>
    simp only [publish]
    split
    · exact ⟨stopping', fun _ _ => Or.inl (ends.isEnd status rfl)⟩
    · next gone => exact ⟨stopping', fun _ receivers => absurd receivers gone⟩

/-- The status does not move back, and the next state is ordered again. -/
theorem ordered_step (capacity : Nat) (h : Ordered s) (m : Move) :
    Ordered (step capacity s m) ∧ s.status.rank ≤ (step capacity s m).status.rank := by
  obtain ⟨phase, status, receivers⟩ := s
  fun_cases step capacity ⟨phase, status, receivers⟩ m
  case case1 connecting =>
    cases connecting
    obtain ⟨rfl, rfl⟩ := h
    exact ⟨⟨rfl, rfl⟩, Nat.zero_le _⟩
  case case4 registering =>
    cases registering
    obtain ⟨rfl, rfl⟩ := h
    exact ⟨⟨nofun, nofun⟩, by decide⟩
  case case5 t m running =>
    cases running
    have ends := ends_step capacity t m
    exact ⟨ordered_publish h ends, rank_publish ends.isEnd⟩
  case case6 t running =>
    cases running
    exact ⟨⟨h.1, fun _ => nofun⟩, Nat.le_refl _⟩
  case case7 => exact ⟨h, Nat.le_refl _⟩
  all_goals exact ⟨trivial, Nat.le_refl _⟩

theorem ordered_run (capacity : Nat) (h : Ordered s) (moves : List Move) :
    Ordered (run (step capacity) s moves) ∧
      s.status.rank ≤ (run (step capacity) s moves).status.rank := by
  refine run_invariant (I := fun t => Ordered t ∧ s.status.rank ≤ t.status.rank)
    (fun t m ht => ?_) ⟨h, Nat.le_refl _⟩ moves
  have next := ordered_step capacity ht.1 m
  exact ⟨next.1, Nat.le_trans ht.2 next.2⟩

/-- However the start routine, the tasks, the callers and the transport interleave, the
published status only moves forward, stays disconnected once it is, and is disconnected
when both tasks have ended while it can be received. -/
theorem status_monotone (capacity : Nat) (moves more : List Move) :
    let s := run (step capacity) initial moves
    let s' := run (step capacity) s more
    s.status.rank ≤ s'.status.rank ∧
      ((∃ error, s.status = .disconnected error) → ∃ error, s'.status = .disconnected error) ∧
      ∀ t, s.phase = .running t → t.send = .ended → t.receive = .ended →
        s.receivers = true → ∃ error, s.status = .disconnected error := by
  intro s s'
  have start : Ordered initial := ⟨rfl, rfl⟩
  have hs : Ordered s := (ordered_run capacity start moves).1
  have le : s.status.rank ≤ s'.status.rank := (ordered_run capacity hs more).2
  refine ⟨le, fun down => ?_, fun t running send receive receivers => ?_⟩
  · rw [← rank_eq_three] at down ⊢
    have top := rank_le_three s'.status
    omega
  · rw [Ordered, running] at hs
    have cancelled : t.cancelled = true := hs.1 (by rw [send]; rfl)
    rcases hs.2 cancelled receivers with down | ⟨_, publishing⟩ | ⟨_, publishing⟩
    · exact rank_eq_three.mp down
    · rw [receive] at publishing; cases publishing
    · rw [send] at publishing; cases publishing

end Status

section Updates

/-- The update that the send task has taken and not yet written. -/
def inFlight : SendTask → List StatusUpdate
  | .writing message => message.toList
  | _ => []

/-- The updates that the stream has, then the one in flight, then those in the channel. -/
def accounted (t : Tasks) : List StatusUpdate :=
  t.sent.reduceOption ++ inFlight t.send ++ t.queue

/-- A send task that is not stopping loses nothing. One that is may lose updates, and keeps
the order of the others. -/
structure Forwards (t t' : Tasks) : Prop where
  stopping : t.send.stopping = true → t'.send.stopping = true
  ended : t.send = .ended → t'.send = .ended
  forwards : (∃ added, accounted t' = accounted t ++ added ∧ t'.accepted = t.accepted ++ added) ∨
    t'.send.stopping = true ∧ (accounted t').Sublist (accounted t) ∧ t'.accepted = t.accepted

theorem Forwards.of_same (send : t.send.stopping = true → t'.send = t.send)
    (same : accounted t' = accounted t) (accepted : t'.accepted = t.accepted) : Forwards t t' := by
  refine ⟨fun h => ?_, fun h => ?_, Or.inl ⟨[], ?_, ?_⟩⟩
  · rw [send h, h]
  · rw [send (by rw [h]; rfl), h]
  · rw [same, append_nil]
  · rw [accepted, append_nil]

theorem Forwards.of_stopping (stopping : t'.send.stopping = true) (running : t.send ≠ .ended)
    (fewer : (accounted t').Sublist (accounted t)) (accepted : t'.accepted = t.accepted) :
    Forwards t t' :=
  ⟨fun _ => stopping, fun ended => absurd ended running, Or.inr ⟨stopping, fewer, accepted⟩⟩

theorem forwards_receive (t : Tasks) (m : ReceiveMove) : Forwards t (runReceiveTask t m).1 := by
  fun_cases runReceiveTask t m <;> exact .of_same (fun _ => rfl) rfl rfl

theorem forwards_send (t : Tasks) (m : SendMove) : Forwards t (runSendTask t m).1 := by
  fun_cases runSendTask t m
  case case1 | case3 =>
    exact .of_same (by simp [*, SendTask.stopping]) (by simp [accounted, inFlight, *]) rfl
  case case5 message writing =>
    refine .of_same (by simp [writing, SendTask.stopping]) ?_ rfl
    simp [accounted, inFlight, writing, reduceOption_append, reduceOption_singleton]
  case case15 room update queue filled draining =>
    refine .of_stopping (by rw [draining]; rfl) (by rw [draining]; nofun) ?_ rfl
    cases room <;> simp [accounted, inFlight, draining, filled, reduceOption_append]
  case case7 | case9 | case11 | case13 | case17 | case19 =>
    exact .of_stopping rfl (by simp [*]) (by simp [accounted, inFlight, *]) rfl
  all_goals exact .of_same (fun _ => rfl) rfl rfl

theorem forwards_step (capacity : Nat) (t : Tasks) (m : TasksMove) :
    Forwards t (t.step capacity m).1 := by
  cases m with
  | receive m => exact forwards_receive t m
  | send m => exact forwards_send t m
  | trySend update =>
    simp only [Tasks.step]
    split
    · next sent =>
      unfold trySendStatusUpdate at sent
      split_ifs at sent
      cases sent
      exact ⟨id, id, Or.inl ⟨[update], (append_assoc _ _ _).symm, rfl⟩⟩
    · exact .of_same (fun _ => rfl) rfl rfl
  | dropSenders => exact .of_same (fun _ => rfl) rfl rfl

/-- What holds of the updates of a session, if its tasks run. -/
structure Forwarding (t : Tasks) : Prop where
  nothingLost : t.send.stopping = false → accounted t = t.accepted
  inOrder : (accounted t).Sublist t.accepted

theorem Forwarding.step (h : Forwarding t) (forwards : Forwards t t') : Forwarding t' := by
  obtain ⟨stopping, -, ⟨added, now, accepted⟩ | ⟨stopped, fewer, accepted⟩⟩ := forwards
  · refine ⟨fun going => ?_, ?_⟩
    · have before : t.send.stopping = false :=
        Bool.eq_false_iff.mpr fun h => by rw [stopping h] at going; cases going
      rw [now, accepted, h.nothingLost before]
    · rw [now, accepted]
      exact h.inOrder.append (Sublist.refl _)
  · refine ⟨fun going => ?_, ?_⟩
    · rw [stopped] at going; cases going
    · rw [accepted]
      exact fewer.trans h.inOrder

@[simp] theorem phase_publish (s : Session) (published : Option SessionStatus) :
    (publish s published).phase = s.phase := by
  unfold publish
  split
  · split <;> rfl
  · rfl

/-- What each step of the tasks keeps, a session keeps that has tasks. -/
theorem tasks_run {P : Tasks → Prop} {capacity : Nat}
    (kept : ∀ t m, P t → P (t.step capacity m).1) (start : P spawned) (moves : List Move)
    (running : (run (step capacity) initial moves).phase = .running t) : P t := by
  refine run_invariant (I := fun s : Session => ∀ t, s.phase = .running t → P t)
    (fun s m hs => ?_) (by simp [initial]) moves t running
  fun_cases step capacity s m <;> intro t' running <;> simp_all
  rw [← running]
  exact kept _ _ hs

variable {m : TasksMove} {moves : List Move}

theorem accepted_kept (capacity : Nat) (t : Tasks) (other : ∀ update, m ≠ .trySend update) :
    (t.step capacity m).1.accepted = t.accepted := by
  cases m with
  | receive m => simp only [Tasks.step]; fun_cases runReceiveTask t m <;> rfl
  | send m => simp only [Tasks.step]; fun_cases runSendTask t m <;> rfl
  | trySend update => exact absurd rfl (other update)
  | dropSenders => rfl

/-- Nobody calls between the publication of the end and the end of the send task. -/
def CallsInTime (s : Session) : Move → Prop
  | .tasks (.trySend _) => (∃ error, s.status = .disconnected error) →
    ∀ t, s.phase = .running t → t.send = .ended
  | _ => True

/-- The stream takes every update that the send task has for it. -/
def Delivered (s : Session) : Move → Prop
  | .tasks (.send .writeFails) => ∀ t, s.phase = .running t → inFlight t.send = []
  | .tasks (.send (.drain room)) => room = true
  | _ => True

theorem accounted_send {m : SendMove} (delivered : Delivered s (.tasks (.send m)))
    (running : s.phase = .running t) (going : (runSendTask t m).1.send ≠ .ended) :
    accounted (runSendTask t m).1 = accounted t := by
  fun_cases runSendTask t m
  case case7 =>
    have none := delivered t running
    simp_all [accounted, inFlight]
  case case15 room update queue filled draining =>
    obtain rfl : room = true := delivered
    simp [accounted, inFlight, draining, filled, reduceOption_append]
  case case19 leaving => simp [runSendTask, leaving] at going
  all_goals
    simp [accounted, inFlight, reduceOption_append, reduceOption_singleton, *]

theorem accounted_step (capacity : Nat) (delivered : Delivered s (.tasks m))
    (running : s.phase = .running t) (going : (t.step capacity m).1.send ≠ .ended)
    (h : accounted t = t.accepted) :
    accounted (t.step capacity m).1 = (t.step capacity m).1.accepted := by
  cases m with
  | send m =>
    rw [accepted_kept capacity t (m := .send m) nofun, ← h]
    exact accounted_send delivered running going
  | receive m =>
    rw [accepted_kept capacity t (m := .receive m) nofun, ← h]
    simp only [Tasks.step]
    fun_cases runReceiveTask t m <;> rfl
  | trySend update =>
    simp only [Tasks.step]
    split
    · next sent =>
      unfold trySendStatusUpdate at sent
      split_ifs at sent
      cases sent
      rw [← h]
      exact (append_assoc _ _ _).symm
    · exact h
  | dropSenders => exact h

/-- As long as the stream takes everything, nothing is lost before the send task has ended. -/
theorem accounted_run (capacity : Nat) (delivered : Along (step capacity) Delivered initial moves)
    (running : (run (step capacity) initial moves).phase = .running t) (going : t.send ≠ .ended) :
    accounted t = t.accepted := by
  refine run_kept (I := fun s : Session => ∀ t, s.phase = .running t → t.send ≠ .ended →
    accounted t = t.accepted) (fun s m hs allowed => ?_) (by simp [initial]) delivered t running
    going
  fun_cases step capacity s m
  case case4 =>
    intro t' running' _
    rw [phase_publish] at running'
    cases running'
    rfl
  case case5 t m here =>
    intro t' running' going'
    rw [phase_publish] at running'
    cases running'
    have before : t.send ≠ .ended := fun ended =>
      going' ((forwards_step capacity t m).ended ended)
    exact accounted_step capacity allowed here going' (hs t here before)
  all_goals
    intro t' running' going'
    simp_all

/-- Once the end is published nothing is accepted any more, if callers are in time. -/
theorem accepted_run (capacity : Nat) (h : Ordered s) (down : s.status.rank = 3)
    (running : s.phase = .running t) (inTime : Along (step capacity) CallsInTime s moves) :
    let s' := run (step capacity) s moves
    s'.status.rank = 3 ∧ ∃ t', s'.phase = .running t' ∧ t'.accepted = t.accepted := by
  refine (run_kept (I := fun s' : Session => Ordered s' ∧ s'.status.rank = 3 ∧
    ∃ t', s'.phase = .running t' ∧ t'.accepted = t.accepted) ?_ ⟨h, down, t, running, rfl⟩
    inTime).2
  rintro s m ⟨ordered, down, t', running, same⟩ allowed
  obtain ⟨ordered', le⟩ := ordered_step capacity ordered m
  have down' : (step capacity s m).status.rank = 3 :=
    Nat.le_antisymm (rank_le_three _) (down ▸ le)
  refine ⟨ordered', down', ?_⟩
  cases m with
  | tasks m =>
    refine ⟨(t'.step capacity m).1, by simp [step, running], ?_⟩
    by_cases call : ∃ update, m = .trySend update
    · obtain ⟨update, rfl⟩ := call
      have ended := allowed (rank_eq_three.mp down) t' running
      rw [← same, Tasks.step, trySendStatusUpdate, if_pos ended]
      split <;> simp_all
    · rw [accepted_kept capacity t' fun update eq => call ⟨update, eq⟩, same]
  | _ => exact ⟨t', by simp [step, running], same⟩

/-- In every run in which nobody calls between the publication of the end and the end of the send
task, the stream has got the accepted updates in order, all but the one in flight and those in the
channel as long as the send task is not told to stop, and until it has ended if the stream takes
them. Once the end is published no update is accepted. -/
theorem updates_forwarded_in_time (capacity : Nat) (moves more : List Move) (t : Tasks)
    (inTime : Along (step capacity) CallsInTime initial (moves ++ more))
    (running : (run (step capacity) initial (moves ++ more)).phase = .running t) :
    (t.send.stopping = false → t.sent.reduceOption ++ inFlight t.send ++ t.queue = t.accepted) ∧
      (Along (step capacity) Delivered initial (moves ++ more) → t.send ≠ .ended →
        t.sent.reduceOption ++ inFlight t.send ++ t.queue = t.accepted) ∧
      (t.sent.reduceOption ++ inFlight t.send ++ t.queue).Sublist t.accepted ∧
      ∀ error, (run (step capacity) initial moves).status = .disconnected error →
        (∀ t₀, (run (step capacity) initial moves).phase = .running t₀ →
          t.accepted = t₀.accepted) ∧
        ∀ update, CallsInTime (run (step capacity) initial (moves ++ more))
            (.tasks (.trySend update)) →
          trySendStatusUpdate capacity t update = .error .sessionClosed := by
  have h : Forwarding t := tasks_run (fun t m h => h.step (forwards_step capacity t m))
    ⟨fun _ => rfl, Sublist.refl _⟩ (moves ++ more) running
  refine ⟨h.nothingLost, fun delivered going => accounted_run capacity delivered running going,
    h.inOrder, fun error down => ?_⟩
  have start : Ordered initial := ⟨rfl, rfl⟩
  have ordered := (ordered_run capacity start moves).1
  have rank : (run (step capacity) initial moves).status.rank = 3 := rank_eq_three.mpr ⟨_, down⟩
  obtain ⟨-, later⟩ := (along_append CallsInTime initial moves more).mp inTime
  refine ⟨fun t₀ running₀ => ?_, fun update call => ?_⟩
  · obtain ⟨-, t', running', same⟩ := accepted_run capacity ordered rank running₀ later
    rw [← run_append, running] at running'
    cases running'
    exact same
  · have after := (ordered_run capacity ordered more).2
    rw [← run_append, rank] at after
    have rank' := Nat.le_antisymm (rank_le_three _) after
    exact if_pos (call (rank_eq_three.mp rank') t running)

/-- One update is written and a second is drained after the stream has ended. The call that
comes when the send task has ended is refused. -/
theorem updates_forwarded_in_time_two :
    let first : StatusUpdate := ⟨"orders", "2024-01-01", "COMPLETED", none⟩
    let second : StatusUpdate := ⟨"orders", "2024-01-02", "FAILED", some "timeout"⟩
    let t : Tasks := ⟨true, .ended, .ended, [], true, [first, second], [some first, some second]⟩
    (t.sent.reduceOption ++ inFlight t.send ++ t.queue).Sublist t.accepted ∧
      trySendStatusUpdate 8 t first = .error .sessionClosed := by
  intro first second t
  let moves : List Move := [.opened true, .registered true, .tasks (.trySend first),
    .tasks (.trySend second), .tasks (.send .take), .tasks (.send .written),
    .tasks (.receive (.streamEnded "server closed the stream")), .tasks (.receive .publish)]
  let more : List Move := [.tasks (.send .stop), .tasks (.send (.drain true)),
    .tasks (.send .drained), .tasks (.send .leave)]
  have inTime : Along (step 8) CallsInTime initial (moves ++ more) := by
    refine ⟨trivial, trivial, nofun, nofun, ?_⟩
    exact along_of_forall (by simp [CallsInTime, more]) _
  obtain ⟨-, -, order, late⟩ := updates_forwarded_in_time 8 moves more t inTime rfl
  exact ⟨order, (late _ rfl).2 first fun _ t' running => by cases running; rfl⟩

/-- The receive task has published the end and the send task has drained its channel, but a
caller can still put an update into it. The caller gets `Ok`, and the update is lost. -/
theorem accepted_after_disconnect :
    let update : StatusUpdate := ⟨"orders", "2024-01-01", "COMPLETED", none⟩
    let s := run (step 8) initial [.opened true, .registered true,
      .tasks (.receive (.streamEnded "server closed the stream")), .tasks (.receive .publish),
      .tasks (.send .stop), .tasks (.send .drained)]
    let t : Tasks := ⟨true, .leaving, .ended, [], true, [], []⟩
    s.status = .disconnected (.streamClosed "server closed the stream") ∧
      s.phase = .running t ∧ (trySendStatusUpdate 8 t update).isOk = true ∧
      (run (step 8) s [.tasks (.trySend update), .tasks (.send .leave)]).phase =
        .running ⟨true, .ended, .ended, [], true, [update], []⟩ := by
  decide

end Updates

end Leibrix.SessionTasks
