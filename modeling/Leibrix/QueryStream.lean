import Leibrix.Runs
import Mathlib.Data.List.Infix

/-!
# The stream of a query's batches

A blocking task runs the query and puts its batches into a bounded channel. A supervisor
waits for that task, or for the timeout, and puts errors into the same channel. The
consumer reads the channel until all senders are gone. Each party moves by itself; what
the database, the clock and the timer do comes with the move.
-/

set_option autoImplicit false

namespace Leibrix.QueryStream
open Runs List

inductive QueryError where
  | timeout (secs : Nat)
  | duckDB (message : String)
  | sql (message : String)
  | internal (message : String)
  deriving DecidableEq

def mentions (text part : String) : Bool := decide (part.toList <:+: text.toList)

def classifyDuckdbError (message : String) : QueryError :=
  if mentions message "Out of Memory" || mentions message "failed to allocate" then
    .duckDB ("Out of memory: " ++ message)
  else if mentions message "syntax error" || mentions message "Parser Error" ||
      mentions message "Syntax Error" then
    .sql message
  else .duckDB message

variable {α : Type}

/-- Where the blocking task stands. `sending` has the batches that the reader still gives. -/
inductive Producer (α : Type) where
  | connecting
  | preparing
  | executing
  | sending (rest : List α)
  | failing (e : QueryError)
  | returned (result : Except QueryError Unit)
  | panicked (message : String)

def Producer.finished : Producer α → Bool
  | .returned _ | .panicked _ => true
  | _ => false

inductive Supervisor where
  | waiting
  | interrupting
  | sending (e : QueryError)
  | done
  deriving DecidableEq

inductive Consumer where
  | reading | ended | dropped
  deriving DecidableEq

/-- `batches` is the result of the query. `received` is what the consumer has read. -/
structure State (α : Type) where
  batches : List α
  timeoutSecs : Nat
  producer : Producer α
  interruptSent : Bool
  supervisor : Supervisor
  queue : List (Except QueryError α)
  consumer : Consumer
  received : List (Except QueryError α)

def defaultQueryTimeoutSecs : Nat := 300

def channelCapacity : Nat := 100

/-- The stream when `execute_query` returns it. -/
def executeQuery (batches : List α) (timeoutSecs : Option Nat) : State α :=
  ⟨batches, timeoutSecs.getD defaultQueryTimeoutSecs, .connecting, false, .waiting, [], .reading,
    []⟩

/-- What the world does with a step of the blocking task: the result of the database call,
a panic, or a send deadline that has passed. -/
structure Outcome where
  result : Except String Unit := .ok ()
  panic : Option String := none
  expired : Bool := false

inductive Move where
  | producer (o : Outcome)
  | supervisor (timer : Bool)
  | read
  | drop

namespace State

variable (s : State α)

def full : Bool := decide (channelCapacity ≤ s.queue.length)

def push (item : Except QueryError α) : State α :=
  { s with queue := s.queue ++ [item] }

/-- A call of the database: its error goes into the channel before the task returns it. -/
def call (o : Outcome) (classify : String → QueryError) (next : State α) : State α :=
  match o.panic, o.result with
  | some message, _ => { s with producer := .panicked message }
  | none, .ok () => next
  | none, .error message => { s with producer := .failing (classify message) }

def producerStep (o : Outcome) : State α :=
  match s.producer with
  | .connecting =>
    s.call o (fun message => .internal ("failed to get pooled connection: " ++ message))
      { s with producer := .preparing, interruptSent := true }
  | .preparing => s.call o classifyDuckdbError { s with producer := .executing }
  | .executing => s.call o classifyDuckdbError { s with producer := .sending s.batches }
  | .sending rest =>
    match o.panic, rest with
    | some message, _ => { s with producer := .panicked message }
    | none, [] => { s with producer := .returned (.ok ()) }
    | none, batch::rest =>
      if s.consumer = .dropped then { s with producer := .returned (.ok ()) }
      else if s.full then
        -- a channel that stays full is taken for a client that has gone
        if o.expired then { s with producer := .returned (.ok ()) } else s
      else { s.push (.ok batch) with producer := .sending rest }
  | .failing e =>
    if s.consumer = .dropped then { s with producer := .returned (.error e) }
    else if s.full then s
    else { s.push (.error e) with producer := .returned (.error e) }
  | .returned _ | .panicked _ => s

def supervisorStep (timer : Bool) : State α :=
  match s.supervisor with
  | .waiting =>
    match s.producer with
    | .returned (.ok ()) => { s with supervisor := .done }
    | .returned (.error e) => { s with supervisor := .sending e }
    | .panicked message =>
      { s with supervisor := .sending (.internal ("blocking task panic: " ++ message)) }
    | _ => if timer then { s with supervisor := .interrupting } else s
  | .interrupting =>
    if s.interruptSent || s.producer.finished then
      { s with supervisor := .sending (.timeout s.timeoutSecs) }
    else s
  | .sending e =>
    if s.consumer = .dropped then { s with supervisor := .done }
    else if s.full then s
    else { s.push (.error e) with supervisor := .done }
  | .done => s

def readStep : State α :=
  match s.consumer with
  | .reading =>
    match s.queue with
    | item::rest => { s with queue := rest, received := s.received ++ [item] }
    | [] =>
      if s.producer.finished && decide (s.supervisor = .done) then { s with consumer := .ended }
      else s
  | _ => s

def step : Move → State α
  | .producer o => s.producerStep o
  | .supervisor timer => s.supervisorStep timer
  | .read => s.readStep
  | .drop => if s.consumer = .reading then { s with consumer := .dropped, queue := [] } else s

def sent : List (Except QueryError α) := s.received ++ s.queue

theorem received_push (item : Except QueryError α) :
    s.received ++ (s.push item).queue = s.sent ++ [item] :=
  (append_assoc _ _ _).symm

end State

/-- All batches and a normal end, or some first batches and one error. -/
def CompleteOrFails (batches : List α) (received : List (Except QueryError α)) : Prop :=
  received = batches.map .ok ∨
    ∃ first e, first <+: batches ∧ received = first.map .ok ++ [.error e]

/-- What can spoil a stream. -/
inductive Event where
  | failed | gaveUp | timedOut | late
  deriving DecidableEq

def Outcome.failure (o : Outcome) : Option Event :=
  match o.panic, o.result with
  | none, .error _ => some .failed
  | _, _ => none

/-- A call of the database fails, a batch meets a channel that has been full for too long,
the timer goes off while the task is running, or a batch follows the supervisor's error. -/
def event (s : State α) : Move → Option Event
  | .producer o =>
    match s.producer with
    | .connecting | .preparing | .executing => o.failure
    | .sending rest =>
      match o.panic, rest with
      | none, _::_ =>
        if s.full then if o.expired then some .gaveUp else none
        else if s.supervisor = .done then some .late
        else none
      | _, _ => none
    | _ => none
  | .supervisor timer =>
    if timer && !s.producer.finished && decide (s.supervisor = .waiting) then some .timedOut
    else none
  | .read | .drop => none

def history (s : State α) : List Move → List Event
  | [] => []
  | m::moves => (event s m).toList ++ history (s.step m) moves

section Items

def oks (items : List (Except QueryError α)) : List α := items.filterMap Except.toOption

def errors (items : List (Except QueryError α)) : List QueryError :=
  items.filterMap fun
    | .ok _ => none
    | .error e => some e

def InOrder (items : List (Except QueryError α)) : Prop :=
  items = (oks items).map .ok ++ (errors items).map .error

variable (items : List (Except QueryError α)) (b : α) (e : QueryError)

@[simp] theorem oks_concat_ok : oks (items ++ [.ok b]) = oks items ++ [b] := by
  simp [oks, Except.toOption]

@[simp] theorem oks_concat_error : oks (items ++ [.error e]) = oks items := by
  simp [oks, Except.toOption]

@[simp] theorem errors_concat_ok : errors (items ++ [.ok b]) = errors items := by
  simp [errors]

@[simp] theorem errors_concat_error : errors (items ++ [.error e]) = errors items ++ [e] := by
  simp [errors]

@[simp] theorem oks_map_ok (first : List α) : oks (first.map .ok) = first := by
  simp [oks, Except.toOption, filterMap_map, Function.comp_def]

@[simp] theorem errors_map_ok (first : List α) : errors (first.map .ok) = [] := by
  simp [errors, filterMap_map]

theorem eq_oks_of_no_error {items : List (Except QueryError α)} (h : errors items = []) :
    items = (oks items).map .ok := by
  induction items with
  | nil => rfl
  | cons item items ih =>
    cases item with
    | ok b => simpa [oks, errors, Except.toOption] using ih (by simpa [errors] using h)
    | error e => simp [errors] at h

theorem inOrder_concat_error : InOrder (items ++ [.error e]) ↔ InOrder items := by
  simp only [InOrder, oks_concat_error, errors_concat_error, map_append, map_cons,
    map_nil, ← append_assoc, append_cancel_right_eq]

theorem inOrder_concat_ok : InOrder (items ++ [.ok b]) ↔ errors items = [] := by
  constructor
  · intro order
    rw [InOrder, errors_concat_ok] at order
    by_contra some
    have last := congrArg getLast? order
    rw [getLast?_concat, getLast?_append_of_ne_nil _ (by simpa using some),
      getLast?_map] at last
    obtain ⟨e, -, he⟩ := Option.map_eq_some_iff.mp last.symm
    cases he
  · intro none
    rw [InOrder, errors_concat_ok, none, oks_concat_ok]
    simpa using eq_oks_of_no_error none

theorem completeOrFails_items_iff (batches : List α) :
    CompleteOrFails batches items ↔ InOrder items ∧
      ((errors items = [] ∧ oks items = batches) ∨
        ((errors items).length = 1 ∧ oks items <+: batches)) := by
  constructor
  · rintro (rfl | ⟨first, e, part, rfl⟩)
    · exact ⟨by simp [InOrder], .inl ⟨by simp, by simp⟩⟩
    · refine ⟨(inOrder_concat_error _ e).mpr (by simp [InOrder]), .inr ⟨by simp, by simpa⟩⟩
  · rintro ⟨order, ⟨none, whole⟩ | ⟨one, part⟩⟩
    · exact .inl (whole ▸ eq_oks_of_no_error none)
    · obtain ⟨e, he⟩ := length_eq_one_iff.mp one
      rw [InOrder, he] at order
      exact .inr ⟨oks items, e, part, order⟩

end Items

section Story

def Progress (batches : List α) (happened : List Event) (good : List α) : Producer α → Prop
  | .connecting | .preparing | .executing | .failing _ | .returned (.error _) => good = []
  | .sending rest => good ++ rest = batches
  | .returned (.ok ()) => good <+: batches ∧ (good = batches ↔ .gaveUp ∉ happened)
  | .panicked _ => good <+: batches

def Producer.broken : Producer α → Bool
  | .failing _ | .returned (.error _) => true
  | _ => false

def Producer.share : Producer α → Nat
  | .returned (.error _) => 1
  | _ => 0

def Producer.succeeded : Producer α → Bool
  | .returned (.ok ()) => true
  | _ => false

structure Story (s : State α) (happened : List Event) : Prop where
  kept : s.consumer ≠ .dropped
  ended : s.consumer = .ended → s.producer.finished ∧ s.supervisor = .done ∧ s.queue = []
  progress : Progress s.batches happened (oks s.sent) s.producer
  failed : .failed ∈ happened ↔ s.producer.broken
  gaveUp : .gaveUp ∈ happened → s.producer.succeeded
  waiting : s.supervisor = .waiting → .timedOut ∉ happened
  interrupting : s.supervisor = .interrupting → .timedOut ∈ happened
  sending : ∀ e, s.supervisor = .sending e →
    .timedOut ∈ happened ∨ s.producer.finished ∧ ¬ s.producer.succeeded
  done : s.supervisor = .done → .timedOut ∈ happened ∨ s.producer.finished
  errors_length : (errors s.sent).length = s.producer.share +
    if s.supervisor = .done ∧ (.timedOut ∈ happened ∨ ¬ s.producer.succeeded) then 1 else 0
  inOrder : InOrder s.sent ↔ .late ∉ happened

attribute [local simp] Producer.finished Producer.broken Producer.succeeded executeQuery

attribute [local simp] event Outcome.failure Producer.share

theorem story_executeQuery (batches : List α) (timeoutSecs : Option Nat) :
    Story (executeQuery batches timeoutSecs) [] where
  kept := by simp
  ended := by simp
  progress := by rfl
  failed := by simp
  gaveUp := by simp
  waiting := by simp
  interrupting := by simp
  sending := by simp
  done := by simp
  errors_length := by simp [State.sent, errors]
  inOrder := by simp [State.sent, InOrder, oks, errors]

variable {s : State α} {happened after : List Event}

theorem Story.timedOut_of_done (h : Story s happened) (running : ¬ s.producer.finished)
    (done : s.supervisor = .done) : .timedOut ∈ happened :=
  (h.done done).resolve_right running

variable {p : Producer α}

theorem share_running (running : ¬ p.finished) : p.share = 0 := by
  cases p with
  | returned result => exact absurd rfl running
  | _ => rfl

theorem succeeded_finished (h : p.succeeded) : p.finished := by
  cases p with
  | returned result => rfl
  | _ => cases h

variable {handle : Bool}

variable (h : Story s happened) (running : ¬ s.producer.finished)
include h running

/-- What a step of the task has to show; the supervisor's part stays as it is. -/
theorem Story.turn {queue : List (Except QueryError α)}
    (progress : Progress s.batches after (oks (s.received ++ queue)) p)
    (count : (errors (s.received ++ queue)).length = p.share + (errors s.sent).length)
    (order : InOrder (s.received ++ queue) ↔ .late ∉ after) (failed : .failed ∈ after ↔ p.broken)
    (gaveUp : .gaveUp ∈ after → p.succeeded) (timedOut : .timedOut ∈ after ↔ .timedOut ∈ happened) :
    Story { s with producer := p, interruptSent := handle, queue := queue } after where
  kept := h.kept
  ended := fun he => absurd (h.ended he).1 running
  progress := progress
  failed := failed
  gaveUp := gaveUp
  waiting := fun hw ht => h.waiting hw (timedOut.mp ht)
  interrupting := fun hi => timedOut.mpr (h.interrupting hi)
  sending := by
    intro e he
    rcases h.sending e he with ht | ⟨hf, -⟩
    · exact .inl (timedOut.mpr ht)
    · exact absurd hf running
  done := fun hd => .inl (timedOut.mpr (h.timedOut_of_done running hd))
  errors_length := by
    refine count.trans (congrArg (p.share + ·) ?_)
    rw [h.errors_length, share_running running, Nat.zero_add]
    by_cases hd : s.supervisor = .done
    · have ht := h.timedOut_of_done running hd
      rw [if_pos ⟨hd, .inl ht⟩, if_pos ⟨hd, .inl (timedOut.mpr ht)⟩]
    · rw [if_neg (fun both => hd both.1), if_neg (fun both => hd both.1)]
  inOrder := order

theorem Story.not_gaveUp : .gaveUp ∉ happened :=
  fun hg => running (succeeded_finished (h.gaveUp hg))

theorem Story.advance (sound : ¬ s.producer.broken) (handle : Bool)
    (progress : Progress s.batches happened (oks s.sent) p) (fine : ¬ p.broken)
    (share : p.share = 0) :
    Story { s with producer := p, interruptSent := handle } happened :=
  h.turn running progress (by rw [share, Nat.zero_add]; rfl) h.inOrder
    (iff_of_false (fun hf => sound (h.failed.mp hf)) fine)
    (fun hg => absurd hg (h.not_gaveUp running)) Iff.rfl

theorem Story.panicked (sound : ¬ s.producer.broken) (part : oks s.sent <+: s.batches)
    (message : String) :
    Story { s with producer := .panicked message } happened :=
  h.advance running sound s.interruptSent part (by simp) rfl

theorem Story.call (sound : ¬ s.producer.broken) (none : oks s.sent = []) (o : Outcome)
    (classify : String → QueryError) (progress : Progress s.batches happened (oks s.sent) p)
    (fine : ¬ p.broken) (share : p.share = 0) :
    Story (s.call o classify { s with producer := p, interruptSent := handle })
      (happened ++ o.failure.toList) := by
  obtain ⟨result, panic, expired⟩ := o
  cases panic with
  | some message => simpa [State.call] using h.panicked running sound (by simp [none]) message
  | none =>
    cases result with
    | ok _ =>
      simpa [State.call] using
        h.advance running sound handle progress fine share
    | error message =>
      refine h.turn running none (by simp [State.sent]) ?_
        (by simp) ?_ (by simp)
      · simpa [State.sent] using h.inOrder
      · exact fun hg => absurd (by simpa using hg) (h.not_gaveUp running)

omit h running

variable {rest : List α}
include h

theorem Story.send_batch {b : α} (here : s.producer = .sending (b::rest)) :
    Story { s.push (.ok b) with producer := .sending rest }
      (happened ++ (if s.supervisor = .done then some Event.late else none).toList) := by
  have running : ¬ s.producer.finished := by simp [here]
  have hprogress := h.progress
  have hcount := h.errors_length
  rw [here] at hprogress
  rw [share_running running, Nat.zero_add] at hcount
  refine h.turn running ?_ ?_ ?_ ?_ ?_ ?_
  · rw [s.received_push, oks_concat_ok]
    simpa [Progress] using hprogress
  · simp [s.received_push]
  · rw [s.received_push, inOrder_concat_ok]
    by_cases hd : s.supervisor = .done
    · have ht := h.timedOut_of_done running hd
      rw [if_pos ⟨hd, .inl ht⟩] at hcount
      refine iff_of_false (fun none => ?_) (by simp [hd])
      rw [none] at hcount
      cases hcount
    · rw [if_neg (fun both => hd both.1)] at hcount
      have none := length_eq_zero_iff.mp hcount
      have order := h.inOrder.mp (by simpa [InOrder, none] using eq_oks_of_no_error none)
      exact iff_of_true none (by simpa [hd] using order)
  · have hf := h.failed
    rw [here] at hf
    split <;> simpa using hf
  · intro hg
    exact absurd (by split at hg <;> simpa using hg) (h.not_gaveUp running)
  · split <;> simp

theorem Story.send_failure {e : QueryError} (here : s.producer = .failing e) :
    Story { s.push (.error e) with producer := .returned (.error e) } happened := by
  have running : ¬ s.producer.finished := by simp [here]
  have hprogress := h.progress
  have hfailed := h.failed
  rw [here] at hprogress hfailed
  refine h.turn running ?_ ?_ ?_ hfailed ?_ Iff.rfl
  · rw [s.received_push, oks_concat_error]
    exact hprogress
  · rw [s.received_push, errors_concat_error, length_append, Nat.add_comm]
    rfl
  · rw [s.received_push, inOrder_concat_error]
    exact h.inOrder
  · exact fun hg => absurd hg (h.not_gaveUp running)

theorem Story.give_up {b : α} (here : s.producer = .sending (b::rest)) :
    Story { s with producer := .returned (.ok ()) } (happened ++ [.gaveUp]) := by
  have running : ¬ s.producer.finished := by simp [here]
  have hprogress := h.progress
  have hfailed := h.failed
  rw [here] at hprogress hfailed
  refine h.turn running ⟨⟨_, hprogress⟩, ?_⟩ (by simp [State.sent]) ?_
    (by simpa using hfailed) (fun _ => rfl) (by simp)
  · refine iff_of_false (fun whole => ?_) (by simp)
    have lengths := congrArg length (hprogress.trans whole.symm)
    simp [State.sent] at lengths
  · simpa [State.sent] using h.inOrder

theorem Story.producerStep (o : Outcome) :
    Story (s.producerStep o) (happened ++ (event s (.producer o)).toList) := by
  have hprogress := h.progress
  have running : ∀ rest, s.producer = .sending rest → ¬ s.producer.finished ∧
      ¬ s.producer.broken ∧ oks s.sent <+: s.batches := by
    intro rest here
    rw [here] at hprogress ⊢
    exact ⟨by simp, by simp, rest, hprogress⟩
  fun_cases State.producerStep s o
  case case1 here | case2 here | case3 here =>
    rw [here] at hprogress
    simp only [event, here]
    refine h.call (by simp [here]) (by simp [here]) hprogress
      o _ ?_ (by simp) rfl
    simpa [Progress] using hprogress
  case case4 rest here message panic =>
    obtain ⟨run, sound, part⟩ := running rest here
    simpa [here, panic] using h.panicked run sound part message
  case case5 panic here =>
    obtain ⟨run, sound, part⟩ := running [] here
    rw [here] at hprogress
    have whole : oks s.sent = s.batches := by simpa [Progress] using hprogress
    simpa [here, panic] using h.advance run sound s.interruptSent (p := .returned (.ok ()))
      ⟨part, iff_of_true whole (h.not_gaveUp run)⟩ (by simp) rfl
  case case6 gone _ | case10 gone => exact absurd gone h.kept
  case case7 b rest panic _ full expired here =>
    simpa [here, panic, full, expired] using h.give_up here
  case case9 b rest panic _ full _ here =>
    simp only [event, here, panic, if_neg full]
    exact h.send_batch here
  case case12 e here _ _ _ => simpa [here] using h.send_failure here
  case case8 | case11 | case13 | case14 => simp [*]

/-- What a step of the supervisor that puts nothing into the channel has to show. -/
theorem Story.supervise {v : Supervisor} (before : s.supervisor ≠ .done)
    (sending : ∀ e, v = .sending e →
      .timedOut ∈ after ∨ s.producer.finished ∧ ¬ s.producer.succeeded)
    (done : v = .done → s.producer.succeeded ∧ .timedOut ∉ after)
    (waiting : v = .waiting → .timedOut ∉ after := by simp)
    (interrupting : v = .interrupting → .timedOut ∈ after := by simp)
    (failed : .failed ∈ after ↔ .failed ∈ happened := by simp)
    (gaveUp : .gaveUp ∈ after ↔ .gaveUp ∈ happened := by simp)
    (late : .late ∈ after ↔ .late ∈ happened := by simp) :
    Story { s with supervisor := v } after where
  kept := h.kept
  ended := fun he => absurd (h.ended he).2.1 before
  progress := by
    have hprogress := h.progress
    cases here : s.producer with
    | returned result =>
      rw [here] at hprogress
      cases result with
      | ok _ => exact ⟨hprogress.1, hprogress.2.trans (not_congr gaveUp.symm)⟩
      | error e => exact hprogress
    | _ => rw [here] at hprogress; exact hprogress
  failed := failed.trans h.failed
  gaveUp := fun hg => h.gaveUp (gaveUp.mp hg)
  waiting := waiting
  interrupting := interrupting
  sending := sending
  done := fun hd => .inr (succeeded_finished (done hd).1)
  errors_length := by
    refine h.errors_length.trans (congrArg (s.producer.share + ·) ?_)
    rw [if_neg (fun both => before both.1), if_neg]
    rintro ⟨hd, ht | hs⟩
    · exact (done hd).2 ht
    · exact hs (done hd).1
  inOrder := h.inOrder.trans (not_congr late.symm)

theorem Story.send_error {e : QueryError} (here : s.supervisor = .sending e) :
    Story { s.push (.error e) with supervisor := .done } happened where
  kept := h.kept
  ended := by
    intro he
    have hd := (h.ended he).2.1
    rw [here] at hd
    cases hd
  progress := by
    have hprogress := h.progress
    rw [← oks_concat_error s.sent e, ← s.received_push] at hprogress
    exact hprogress
  failed := h.failed
  gaveUp := h.gaveUp
  waiting := by intro hw; cases hw
  interrupting := by intro hi; cases hi
  sending := by intro e he; cases he
  done := by
    intro _
    exact (h.sending e here).imp_right And.left
  errors_length := by
    have hcount := h.errors_length
    rw [if_neg (by rw [here]; rintro ⟨hd, -⟩; cases hd)] at hcount
    have owed : .timedOut ∈ happened ∨ ¬ s.producer.succeeded :=
      (h.sending e here).imp_right And.right
    rw [if_pos ⟨rfl, owed⟩]
    show (errors (s.received ++ (s.push (.error e)).queue)).length = s.producer.share + 1
    rw [s.received_push, errors_concat_error, length_append, hcount]
    rfl
  inOrder := by
    have horder := h.inOrder
    rw [← inOrder_concat_error s.sent e, ← s.received_push] at horder
    exact horder

theorem Story.supervisorStep (timer : Bool) :
    Story (s.supervisorStep timer) (happened ++ (event s (.supervisor timer)).toList) := by
  fun_cases State.supervisorStep s timer
  case case1 here task =>
    simpa [task] using h.supervise (v := .done) (by simp [here])
      (by simp) (by simp [task, h.waiting here])
  case case2 here e task =>
    simpa [task] using h.supervise (v := .sending e) (by simp [here])
      (by simp [task]) (by simp)
  case case3 here message task =>
    simpa [task] using h.supervise
      (v := .sending (.internal ("blocking task panic: " ++ message))) (by simp [here])
      (by simp [task]) (by simp)
  case case4 here fires _ _ _ =>
    have running : s.producer.finished = false := by
      rcases task : s.producer with _ | _ | _ | _ | _ | (_ | _) | _ <;> simp_all
    have interrupted : Story { s with supervisor := .interrupting } (happened ++ [.timedOut]) :=
      h.supervise (by simp [here]) (by simp) (by simp)
    simpa [-Producer.finished, here, running, fires] using interrupted
  case case6 here _ =>
    simpa [here] using h.supervise (v := .sending (.timeout s.timeoutSecs))
      (by simp [here]) (fun _ _ => .inl (h.interrupting here)) (by simp)
  case case8 gone => exact absurd gone h.kept
  case case10 e here _ _ _ => simpa [here] using h.send_error here
  case case5 | case7 | case9 | case11 => simp [*]

theorem Story.readStep : Story s.readStep happened := by
  obtain ⟨batches, secs, producer, handle, supervisor, queue, consumer, received⟩ := s
  cases consumer with
  | reading =>
    cases queue with
    | nil =>
      simp only [State.readStep]
      split
      · rename_i gone
        rw [Bool.and_eq_true, decide_eq_true_eq] at gone
        exact { h with kept := by simp, ended := fun _ => ⟨gone.1, gone.2, rfl⟩ }
      · exact h
    | cons item rest =>
      have same : State.sent ⟨batches, secs, producer, handle, supervisor, item::rest, .reading,
          received⟩ = received ++ [item] ++ rest := by simp [State.sent]
      have hprogress := h.progress
      have hcount := h.errors_length
      have horder := h.inOrder
      rw [same] at hprogress hcount horder
      exact { h with
        ended := fun he => by cases he
        progress := hprogress
        errors_length := hcount
        inOrder := horder }
  | ended => exact h
  | dropped => exact absurd rfl h.kept

omit h

theorem producerStep_kept (o : Outcome) :
    (s.producerStep o).consumer = s.consumer ∧ (s.producerStep o).batches = s.batches := by
  unfold State.producerStep State.call State.push
  repeat' split
  all_goals exact ⟨rfl, rfl⟩

theorem supervisorStep_kept (timer : Bool) :
    (s.supervisorStep timer).consumer = s.consumer ∧
      (s.supervisorStep timer).batches = s.batches := by
  unfold State.supervisorStep State.push
  repeat' split
  all_goals exact ⟨rfl, rfl⟩

theorem story_step (h : s.consumer = .dropped ∨ Story s happened) (m : Move) :
    (s.step m).consumer = .dropped ∨ Story (s.step m) (happened ++ (event s m).toList) := by
  rcases h with gone | h
  · left
    cases m with
    | producer o => exact (producerStep_kept o).1.trans gone
    | supervisor timer => exact (supervisorStep_kept timer).1.trans gone
    | read => simp [State.step, State.readStep, gone]
    | drop => simp [State.step, gone]
  · cases m with
    | producer o => exact .inr (h.producerStep o)
    | supervisor timer => exact .inr (h.supervisorStep timer)
    | read => exact .inr (by simpa [State.step] using h.readStep)
    | drop =>
      simp only [State.step]
      split
      · exact .inl rfl
      · exact .inr (by simpa using h)

theorem story_run (h : s.consumer = .dropped ∨ Story s happened) (moves : List Move) :
    (run State.step s moves).consumer = .dropped ∨
      Story (run State.step s moves) (happened ++ history s moves) := by
  induction moves generalizing s happened with
  | nil => simpa [history] using h
  | cons m moves ih =>
    rw [run_cons, history, ← append_assoc]
    exact ih (story_step h m)

theorem step_batches (m : Move) : (s.step m).batches = s.batches := by
  cases m with
  | producer o => exact (producerStep_kept o).2
  | supervisor timer => exact (supervisorStep_kept timer).2
  | read =>
    simp only [State.step, State.readStep]
    repeat' split
    all_goals rfl
  | drop =>
    simp only [State.step]
    split <;> rfl

theorem run_batches (s : State α) (moves : List Move) :
    (run State.step s moves).batches = s.batches :=
  run_invariant (I := fun t : State α => t.batches = s.batches)
    (fun _ m h => (step_batches m).trans h) rfl moves

theorem Story.received_iff (h : Story s happened) (ended : s.consumer = .ended) :
    CompleteOrFails s.batches s.received ↔
      .failed ∉ happened ∧ (.gaveUp ∈ happened → .timedOut ∈ happened) ∧ .late ∉ happened := by
  obtain ⟨finished, done, empty⟩ := h.ended ended
  have whole : s.sent = s.received := by rw [State.sent, empty, append_nil]
  have hprogress := h.progress
  have hcount := h.errors_length
  have hfailed := h.failed
  have hgave := h.gaveUp
  rw [completeOrFails_items_iff, ← whole, h.inOrder]
  cases here : s.producer with
  | returned result =>
    rw [here] at hprogress hcount hfailed hgave
    cases result with
    | ok _ =>
      have clean : .failed ∉ happened := by simpa using hfailed
      by_cases timedOut : .timedOut ∈ happened
      · rw [if_pos ⟨done, .inl timedOut⟩] at hcount
        exact ⟨fun ⟨late, _⟩ => ⟨clean, fun _ => timedOut, late⟩,
          fun ⟨_, _, late⟩ => ⟨late, .inr ⟨hcount, hprogress.1⟩⟩⟩
      · rw [if_neg (by simp [timedOut])] at hcount
        have none := length_eq_zero_iff.mp hcount
        constructor
        · rintro ⟨late, ⟨-, complete⟩ | ⟨one, -⟩⟩
          · exact ⟨clean, fun hg => absurd hg (hprogress.2.mp complete), late⟩
          · rw [none] at one
            cases one
        · rintro ⟨-, gaveUp, late⟩
          exact ⟨late, .inl ⟨none, hprogress.2.mpr fun hg => timedOut (gaveUp hg)⟩⟩
    | error e =>
      -- the task and the supervisor have both sent an error
      rw [if_pos ⟨done, .inr (by simp)⟩] at hcount
      have hf : .failed ∈ happened := hfailed.mpr rfl
      refine iff_of_false ?_ (fun good => good.1 hf)
      rintro ⟨-, ⟨none, -⟩ | ⟨one, -⟩⟩
      · rw [none] at hcount
        cases hcount
      · rw [one] at hcount
        cases hcount
  | panicked message =>
    rw [here] at hprogress hcount hfailed hgave
    rw [if_pos ⟨done, .inr (by simp)⟩] at hcount
    have clean : .failed ∉ happened := by simpa using hfailed
    have sent : .gaveUp ∉ happened := by simpa using hgave
    exact ⟨fun ⟨late, _⟩ => ⟨clean, fun hg => absurd hg sent, late⟩,
      fun ⟨_, _, late⟩ => ⟨late, .inr ⟨hcount, hprogress⟩⟩⟩
  | _ => simp [here] at finished

/-- A stream that the consumer reads to its end is complete or fails in one place, unless a
call of the database fails, a batch is given up without a timeout, or a batch is sent after
the timeout's error. -/
theorem complete_or_fails_iff (batches : List α) (timeoutSecs : Option Nat) (moves : List Move)
    (ended : (run State.step (executeQuery batches timeoutSecs) moves).consumer = .ended) :
    CompleteOrFails batches
        (run State.step (executeQuery batches timeoutSecs) moves).received ↔
      .failed ∉ history (executeQuery batches timeoutSecs) moves ∧
      (.gaveUp ∈ history (executeQuery batches timeoutSecs) moves →
        .timedOut ∈ history (executeQuery batches timeoutSecs) moves) ∧
      .late ∉ history (executeQuery batches timeoutSecs) moves := by
  rcases story_run (.inr (story_executeQuery batches timeoutSecs)) moves with gone | story
  · rw [ended] at gone
    cases gone
  · have reads := story.received_iff ended
    rw [run_batches] at reads
    exact reads

/-- Two batches, a consumer in time. -/
theorem complete_two_batches :
    CompleteOrFails [1, 2]
      (run State.step (executeQuery [1, 2] none)
        (List.replicate 6 (.producer {}) ++ [.supervisor false] ++
          List.replicate 3 .read)).received :=
  (complete_or_fails_iff [1, 2] none _ rfl).mpr (by decide)

/-- The channel is full when the last of 101 batches comes, and its deadline passes. -/
def slowConsumer : List Move :=
  List.replicate 103 (.producer {}) ++ [.producer { expired := true }, .supervisor false] ++
    List.replicate 101 .read

def failedPrepare : List Move :=
  [.producer {}, .producer { result := .error "Parser Error: x" }, .producer {},
    .supervisor false, .supervisor false, .read, .read, .read]

/-- A slow consumer reads a normal end after 100 of 101 batches; after a statement that
does not parse the consumer reads the error twice. -/
theorem stream_cut_short_and_failed_twice :
    ((run State.step (executeQuery (List.replicate 101 ()) none) slowConsumer).consumer = .ended ∧
      ¬ CompleteOrFails (List.replicate 101 ())
        (run State.step (executeQuery (List.replicate 101 ()) none) slowConsumer).received) ∧
    (run State.step (executeQuery [()] none) failedPrepare).consumer = .ended ∧
      ¬ CompleteOrFails [()] (run State.step (executeQuery [()] none) failedPrepare).received := by
  refine ⟨⟨by decide +kernel, ?_⟩, ⟨by decide +kernel, ?_⟩⟩
  · have cut : (run State.step (executeQuery (replicate 101 ()) none)
        slowConsumer).received = (replicate 100 ()).map .ok := by decide +kernel
    rw [cut, completeOrFails_items_iff, oks_map_ok, errors_map_ok]
    simp
  · rw [completeOrFails_items_iff]
    have twice : (errors (run State.step (executeQuery [()] none)
        failedPrepare).received).length = 2 := by decide +kernel
    rintro ⟨-, ⟨none, -⟩ | ⟨one, -⟩⟩
    · rw [none] at twice
      cases twice
    · rw [one] at twice
      cases twice

end Story

section Received

variable {s : State α} {batches good : List α} {happened : List Event}

theorem Progress.initial : ∀ {p : Producer α}, Progress batches happened good p → good <+: batches
  | .sending rest, whole => ⟨rest, whole⟩
  | .panicked _, part => part
  | .returned (.ok ()), part => part.1
  | .connecting, empty | .preparing, empty | .executing, empty | .failing _, empty
  | .returned (.error _), empty => empty ▸ nil_prefix

structure Begins (s : State α) : Prop where
  initial : oks s.received <+: s.batches
  story : ∃ happened, s.consumer = .dropped ∨ Story s happened

theorem Story.begins (h : Story s happened) : Begins s := by
  have early : s.received <+: s.sent := prefix_append _ _
  exact ⟨(early.filterMap _).trans h.progress.initial, happened, .inr h⟩

theorem received_dropped (m : Move) (gone : (s.step m).consumer = .dropped) :
    (s.step m).received = s.received := by
  cases m with
  | read =>
    simp only [State.step, State.readStep] at gone ⊢
    repeat' split at gone
    all_goals simp_all
  | _ =>
    simp only [State.step, State.producerStep, State.supervisorStep, State.call, State.push]
    repeat' split
    all_goals rfl

theorem begins_step (h : Begins s) (m : Move) : Begins (s.step m) := by
  obtain ⟨initial, happened, h⟩ := h
  rcases story_step h m with gone | story
  · exact ⟨by rwa [received_dropped m gone, step_batches], [], .inl gone⟩
  · exact story.begins

/-- Whatever the database, the timer and the consumer do, the batches that the consumer has read
are the first ones of the result, in their order. -/
theorem received_begins (batches : List α) (timeoutSecs : Option Nat) (moves : List Move) :
    oks (run State.step (executeQuery batches timeoutSecs) moves).received <+: batches := by
  have begins := run_invariant (I := Begins) (fun _ m h => begins_step h m)
    (story_executeQuery batches timeoutSecs).begins moves
  have initial := begins.initial
  rwa [run_batches] at initial

end Received

end Leibrix.QueryStream
