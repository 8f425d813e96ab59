import Leibrix.StageRetry
import Mathlib.Data.List.AList

/-!
# The pool of worker connections

Each worker has a slot for a connection, with a lock of its own. A call for a connection
takes the lock, looks at the connection that is there, and makes a new one if it has to.
Between any two of its steps other calls, registrations and evictions may come. What one
submission sees of a call is `StageRetry.getConnection`.
-/

set_option autoImplicit false

namespace Leibrix.ConnectionPool
open LdpTypes LocalStages Runs List

section Pool

structure CachedEntry where
  endpoint : String
  createdAt : Nat

structure Slot where
  entry : Option CachedEntry
  holder : Option Nat

inductive Place where
  | waiting
  | checking
  | probing
  | counting
  | evicting
  | resolving
  | connecting (endpoint : String)
  | returned (result : Except StageExecutionError String)

/-- `registered` is the endpoint that the worker had when the call began. -/
structure Call where
  worker : WorkerId
  registered : Option String
  place : Place

abbrev Endpoints := AList fun _ : WorkerId => String

structure Pool where
  connections : List WorkerId
  slots : WorkerId → Slot
  endpoints : Endpoints
  calls : Nat → Option Call

structure Config where
  connectionTtl : Nat
  maxConnections : Nat

/-- What the surroundings make of a step. -/
structure Outcome where
  now : Nat := 0
  healthy : Bool := true
  connects : Except StageRetry.ConnectFailure Unit := .ok ()

def maxConnectionsCap : Nat := 100

def Pool.new : Pool := ⟨[], fun _ => ⟨none, none⟩, ∅, fun _ => none⟩

variable (config : Config) (p : Pool) (w : WorkerId)

def Pool.setSlot (slot : Slot) : Pool :=
  { p with slots := fun v => if v = w then slot else p.slots v }

def Pool.setEntry (entry : Option CachedEntry) : Pool :=
  p.setSlot w { p.slots w with entry := entry }

def Pool.setHolder (holder : Option Nat) : Pool :=
  p.setSlot w { p.slots w with holder := holder }

def Pool.setPlace (i : Nat) (c : Call) (place : Place) : Pool :=
  { p with calls := fun k => if k = i then some { c with place := place } else p.calls k }

/-- The call returns and gives up its lock. -/
def Pool.finish (i : Nat) (c : Call) (result : Except StageExecutionError String) : Pool :=
  (p.setHolder c.worker none).setPlace i c (.returned result)

def effectiveMaxConnections : Nat :=
  if config.maxConnections = 0 then min p.endpoints.keys.length maxConnectionsCap
  else min config.maxConnections maxConnectionsCap

/-- The connection of a slot whose lock can be had. -/
def unlocked : Option CachedEntry :=
  if (p.slots w).holder = none then (p.slots w).entry else none

def activeConnectionCount : Nat := p.connections.countP fun w => (unlocked p w).isSome

def older (skip : WorkerId) (now : Nat) (oldest : Nat × Option WorkerId) (w : WorkerId) :
    Nat × Option WorkerId :=
  match unlocked p w with
  | some entry =>
    if w ≠ skip ∧ oldest.1 < now - entry.createdAt then (now - entry.createdAt, some w) else oldest
  | none => oldest

def tryEvictOldest (skip : WorkerId) (now : Nat) : Pool :=
  match (p.connections.foldl (older p skip now) (0, none)).2 with
  | some w => p.setEntry w none
  | none => p

/-- A step of `get_connection`. -/
def getConnection (o : Outcome) (i : Nat) (c : Call) : Pool :=
  match c.place with
  | .waiting =>
    if (p.slots c.worker).holder = none then
      (p.setHolder c.worker (some i)).setPlace i c .checking
    else p
  | .checking =>
    match (p.slots c.worker).entry with
    | some entry =>
      if config.connectionTtl ≤ o.now - entry.createdAt then
        (p.setEntry c.worker none).setPlace i c .counting
      else p.setPlace i c .probing
    | none => p.setPlace i c .counting
  | .probing =>
    match (p.slots c.worker).entry with
    | some entry =>
      if o.healthy then p.finish i c (.ok entry.endpoint)
      else (p.setEntry c.worker none).setPlace i c .counting
    | none => p
  | .counting =>
    let limit := effectiveMaxConnections config p
    if 0 < limit ∧ limit ≤ activeConnectionCount p then p.setPlace i c .evicting
    else p.setPlace i c .resolving
  | .evicting => (tryEvictOldest p c.worker o.now).setPlace i c .resolving
  | .resolving =>
    match StageRetry.resolveEndpoint c.worker (p.endpoints.lookup c.worker) with
    | .ok endpoint => p.setPlace i c (.connecting endpoint)
    | .error e => p.finish i c (.error e)
  | .connecting endpoint =>
    match StageRetry.connect c.worker endpoint o.connects with
    | .ok () => (p.setEntry c.worker (some ⟨endpoint, o.now⟩)).finish i c (.ok endpoint)
    | .error e => p.finish i c (.error e)
  | .returned _ => p

/-- `evictStale` is what `evict_stale_connections` does with one slot. -/
inductive Move where
  | registerWorker (worker : WorkerId) (endpoint : String)
  | call (i : Nat) (worker : WorkerId)
  | getConnection (i : Nat) (o : Outcome)
  | evictStale (worker : WorkerId) (now : Nat)
  | removeConnection (worker : WorkerId)

def step : Move → Pool
  | .registerWorker w endpoint => { p with endpoints := p.endpoints.insert w endpoint }
  | .call i w =>
    match p.calls i with
    | some _ => p
    | none => Pool.setPlace { p with connections := p.connections.insert w } i
        ⟨w, p.endpoints.lookup w, .waiting⟩ .waiting
  | .getConnection i o =>
    match p.calls i with
    | some c => getConnection config p o i c
    | none => p
  | .evictStale w now =>
    match unlocked p w with
    | some entry => if config.connectionTtl ≤ now - entry.createdAt then p.setEntry w none else p
    | none => p
  | .removeConnection w => if (p.slots w).holder = none then p.setEntry w none else p

end Pool

section Soundness

variable (R : Endpoints → WorkerId → String → Prop)
  (P : Endpoints → WorkerId → Option String → Prop) (Q : Option String → String → Prop)

/-- A connection is made to an endpoint that `R` allows for the worker. A call under way was begun
as `P` says, and an answer is as `Q` says. -/
def Right (E : Endpoints) (c : Call) : Prop :=
  match c.place with
  | .connecting endpoint => P E c.worker c.registered ∧ R E c.worker endpoint
  | .returned result => ∀ endpoint, result = .ok endpoint → Q c.registered endpoint
  | _ => P E c.worker c.registered

structure Sound (p : Pool) : Prop where
  nodup : p.connections.Nodup
  entries : ∀ w entry, (p.slots w).entry = some entry → R p.endpoints w entry.endpoint
  calls : ∀ i c, p.calls i = some c → Right R P Q p.endpoints c

variable {R P Q} {config : Config} {p : Pool} {w : WorkerId} {i : Nat} {c : Call} {m : Move}

theorem Sound.setSlot (h : Sound R P Q p) {slot : Slot}
    (right : ∀ made, slot.entry = some made → R p.endpoints w made.endpoint) :
    Sound R P Q (p.setSlot w slot) where
  nodup := h.nodup
  entries v made hv := by
    by_cases same : v = w
    · simp only [Pool.setSlot, same, if_true] at hv ⊢
      exact right made hv
    · simp only [Pool.setSlot, same, if_false] at hv
      exact h.entries v made hv
  calls := h.calls

theorem Sound.empty (h : Sound R P Q p) (w : WorkerId) : Sound R P Q (p.setEntry w none) :=
  h.setSlot nofun

theorem Sound.setHolder (h : Sound R P Q p) (w : WorkerId) (holder : Option Nat) :
    Sound R P Q (p.setHolder w holder) :=
  h.setSlot (h.entries w)

theorem Sound.setPlace (h : Sound R P Q p) {place : Place}
    (right : Right R P Q p.endpoints { c with place := place }) :
    Sound R P Q (p.setPlace i c place) where
  nodup := h.nodup
  entries := h.entries
  calls k d hd := by
    by_cases same : k = i
    · simp only [Pool.setPlace, same, if_true, Option.some.injEq] at hd
      exact hd ▸ right
    · simp only [Pool.setPlace, same, if_false] at hd
      exact h.calls k d hd

theorem Sound.new : Sound R P Q .new := ⟨nodup_nil, nofun, nofun⟩

variable (known : ∀ E w endpoint, E.lookup w = some endpoint → R E w endpoint)
  (answers : ∀ E w registered endpoint, P E w registered → R E w endpoint → Q registered endpoint)
include known answers

theorem Sound.getConnection (h : Sound R P Q p) (o : Outcome) (hc : p.calls i = some c) :
    Sound R P Q (getConnection config p o i c) := by
  have right := h.calls i c hc
  obtain ⟨w, registered, place⟩ := c
  unfold ConnectionPool.getConnection
  cases place with
  | waiting =>
    dsimp only
    split
    · exact (h.setHolder w _).setPlace right
    · exact h
  | checking =>
    dsimp only
    split
    · split
      · exact (h.empty w).setPlace right
      · exact h.setPlace right
    · exact h.setPlace right
  | probing =>
    dsimp only
    split
    · rename_i entry found
      split
      · refine (h.setHolder w none).setPlace ?_
        rintro _ ⟨⟩
        exact answers _ w registered _ right (h.entries w entry found)
      · exact (h.empty w).setPlace right
    · exact h
  | counting =>
    dsimp only
    split <;> exact h.setPlace right
  | evicting =>
    dsimp only [tryEvictOldest]
    split
    · exact (h.empty _).setPlace right
    · exact h.setPlace right
  | resolving =>
    dsimp only
    cases found : p.endpoints.lookup w with
    | none => exact (h.setHolder w none).setPlace nofun
    | some endpoint => exact h.setPlace ⟨right, known _ w endpoint found⟩
  | connecting endpoint =>
    dsimp only
    split
    · have made : Sound R P Q (p.setEntry w (some ⟨endpoint, o.now⟩)) := by
        refine h.setSlot ?_
        rintro _ ⟨⟩
        exact right.2
      refine (made.setHolder w none).setPlace ?_
      rintro _ ⟨⟩
      exact answers _ w registered endpoint right.1 right.2
    · exact (h.setHolder w none).setPlace nofun
  | returned result => exact h

theorem Sound.step (asked : ∀ E w, P E w (E.lookup w)) (h : Sound R P Q p)
    (hm : ∀ w endpoint, m ≠ .registerWorker w endpoint) : Sound R P Q (step config p m) := by
  unfold ConnectionPool.step
  cases m with
  | registerWorker w endpoint => exact absurd rfl (hm w endpoint)
  | call i w =>
    dsimp only
    split
    · exact h
    · have grown : Sound R P Q { p with connections := p.connections.insert w } :=
        ⟨h.nodup.insert, h.entries, h.calls⟩
      exact grown.setPlace (asked p.endpoints w)
  | getConnection i o =>
    dsimp only
    split
    · rename_i c hc
      exact h.getConnection known answers o hc
    · exact h
  | evictStale w now =>
    dsimp only
    split
    · split
      · exact h.empty w
      · exact h
    · exact h
  | removeConnection w =>
    dsimp only
    split
    · exact h.empty w
    · exact h

end Soundness

section Endpoints

variable {config : Config} {p : Pool} {m : Move}

abbrev Followed (p : Pool) : Prop :=
  Sound (fun E w endpoint => E.lookup w = some endpoint) (fun E w asked => asked = E.lookup w)
    (fun asked endpoint => asked = some endpoint) p

/-- The endpoint of a worker changes only while it has no connection and no call is under way. -/
def Settled (p : Pool) : Move → Prop
  | .registerWorker w endpoint => p.endpoints.lookup w = some endpoint ∨
      (p.slots w).entry = none ∧
        ∀ i c, p.calls i = some c → c.worker = w → ∃ result, c.place = .returned result
  | _ => True

theorem followed_step (h : Followed p) (settled : Settled p m) : Followed (step config p m) := by
  cases m with
  | registerWorker w endpoint =>
    have other {v : WorkerId} (hv : v ≠ w ∨ p.endpoints.lookup w = some endpoint) :
        (p.endpoints.insert w endpoint).lookup v = p.endpoints.lookup v := by
      by_cases same : v = w
      · subst same
        rw [AList.lookup_insert, hv.resolve_left (· rfl)]
      · exact AList.lookup_insert_ne same
    refine ⟨h.nodup, fun v entry hv => (other ?_).trans (h.entries v entry hv), fun i c hc => ?_⟩
    · rcases settled with same | ⟨none, -⟩
      · exact .inr same
      · exact .inl fun hw => by cases none.symm.trans (hw ▸ hv)
    · have right := h.calls i c hc
      obtain ⟨v, registered, place⟩ := c
      rcases settled with same | ⟨-, returned⟩
      · cases place <;> simpa only [Right, step, other (.inr same)] using right
      · by_cases hv : v = w
        · obtain ⟨result, rfl⟩ := returned i _ hc hv
          exact right
        · cases place <;> simpa only [Right, step, other (.inl hv)] using right
  | _ =>
    exact h.step (fun _ _ _ => id) (fun _ _ _ _ asked => asked.trans) (fun _ _ => rfl) (by simp)

/-- A pooled connection is handed out whatever endpoint the worker has by then. -/
theorem stale_returned {entry : CachedEntry} {w : WorkerId} {i : Nat}
    (ttl : 0 < config.connectionTtl) (pooled : (p.slots w).entry = some entry)
    (free : (p.slots w).holder = none) (unused : p.calls i = none) (endpoint : String) :
    (run (step config) p (.registerWorker w endpoint::.call i w::
      replicate 3 (.getConnection i { now := entry.createdAt }))).calls i =
      some ⟨w, some endpoint, .returned (.ok entry.endpoint)⟩ := by
  have young : ¬config.connectionTtl = 0 := by omega
  simp [replicate, step, getConnection, Pool.setPlace, Pool.setHolder, Pool.setSlot, Pool.finish,
    unused, pooled, free, young]

/-- If endpoints change only for workers without a connection and without a call under way, a call
gets a connection to the endpoint that was registered when it began. Once the endpoint of a worker
with a connection changes, a call may get one to another endpoint. -/
theorem connections_follow (config : Config) (moves : List Move)
    (settled : Along (step config) Settled .new moves) {p : Pool}
    (hp : run (step config) .new moves = p) :
    (∀ i c endpoint, p.calls i = some c → c.place = .returned (.ok endpoint) →
      c.registered = some endpoint) ∧
    ∀ w i entry endpoint, 0 < config.connectionTtl → (p.slots w).entry = some entry →
      (p.slots w).holder = none → p.calls i = none → p.endpoints.lookup w ≠ some endpoint →
      ∃ more other, other ≠ endpoint ∧
        (run (step config) (step config p (.registerWorker w endpoint)) more).calls i =
          some ⟨w, some endpoint, .returned (.ok other)⟩ := by
  have followed : Followed p :=
    hp ▸ run_kept (I := Followed) (fun _ _ h hm => followed_step h hm) .new settled
  constructor
  · intro i c endpoint hc returned
    have right := followed.calls i c hc
    rw [Right, returned] at right
    exact right endpoint rfl
  · intro w i entry endpoint ttl pooled free unused changed
    refine ⟨_, _, fun same => changed ?_, stale_returned ttl pooled free unused endpoint⟩
    rw [← same]
    exact followed.entries w entry pooled

def connects (i : Nat) (w : WorkerId) : List Move := .call i w::replicate 5 (.getConnection i {})

/-- Two calls use one connection. -/
def reused (endpoint : String) : List Move :=
  .registerWorker "w" "old"::connects 0 "w" ++ .registerWorker "w" endpoint::connects 1 "w"

theorem connections_follow_reused :
    ∃ c, (run (step ⟨300, 1⟩) .new (reused "old")).calls 1 = some c ∧
      c.place = .returned (.ok "old") ∧ c.registered = some "old" :=
  ⟨_, rfl, rfl, (connections_follow ⟨300, 1⟩ (reused "old") ⟨.inr ⟨rfl, nofun⟩, trivial, trivial,
    trivial, trivial, trivial, trivial, .inl rfl, trivial, trivial, trivial, trivial, trivial,
    trivial, trivial⟩ rfl).1 1 _ _ rfl rfl⟩

/-- After the worker has moved, a call still gets the connection to its old endpoint. -/
theorem old_endpoint_returned :
    (run (step ⟨300, 1⟩) .new (reused "new")).calls 1 =
      some ⟨"w", some "new", .returned (.ok "old")⟩ := by
  rfl

end Endpoints

section Cap

abbrev Known (p : Pool) : Prop :=
  Sound (fun E w _ => w ∈ E) (fun _ _ _ => True) (fun _ _ => True) p

def live (p : Pool) : Nat := p.connections.countP fun w => (p.slots w).entry.isSome

variable {config : Config} {p : Pool} {k : Nat} {w : WorkerId} {ws : List WorkerId}
  {endpoint : String}

theorem known_step (h : Known p) (m : Move) : Known (step config p m) := by
  have found (E : Endpoints) (w : WorkerId) (endpoint : String) (hw : E.lookup w = some endpoint) :
      w ∈ E := AList.lookup_isSome.mp (by rw [hw]; rfl)
  cases m with
  | registerWorker w endpoint =>
    refine ⟨h.nodup, fun v entry hv => (AList.mem_insert _).mpr (.inr (h.entries v entry hv)),
      fun i c hc => ?_⟩
    have right := h.calls i c hc
    obtain ⟨v, registered, place⟩ := c
    cases place with
    | connecting e => exact ⟨trivial, (AList.mem_insert _).mpr (.inr right.2)⟩
    | _ => simp [Right]
  | _ => exact h.step found (fun _ _ _ _ _ _ => trivial) (fun _ _ => trivial) (by simp)

/-- A worker has one slot, so there are no more connections than workers. -/
theorem live_le (config : Config) (moves : List Move) :
    live (run (step config) .new moves) ≤ (run (step config) .new moves).endpoints.keys.length := by
  have known : Known (run (step config) .new moves) :=
    run_invariant (I := Known) (fun _ m h => known_step h m) .new moves
  rw [live, countP_eq_length_filter]
  refine (subperm_of_subset (known.nodup.filter _) fun w hw => ?_).length_le
  obtain ⟨entry, hentry⟩ := Option.isSome_iff_exists.mp (mem_filter.mp hw).2
  exact known.entries w entry hentry

/-- The call `k` for the worker has the lock, and no connection yet. -/
def Pool.begun (p : Pool) (k : Nat) (w : WorkerId) (endpoint : String) (place : Place) : Pool :=
  Pool.setPlace { p.setHolder w (some k) with connections := p.connections.insert w } k
    ⟨w, some endpoint, .waiting⟩ place

/-- No connection is stored, and each of the workers can be called. -/
structure Ready (ws : List WorkerId) (k : Nat) (p : Pool) : Prop where
  nodup : ws.Nodup
  empty : ∀ w, (p.slots w).entry = none
  free : ∀ w ∈ ws, (p.slots w).holder = none ∧ w ∈ p.endpoints
  unused : ∀ i, k ≤ i → p.calls i = none

theorem Ready.begun (h : Ready (w::ws) k p) (endpoint : String) (place : Place) :
    Ready ws (k + 1) (p.begun k w endpoint place) where
  nodup := h.nodup.of_cons
  empty v := by
    simp only [Pool.begun, Pool.setPlace, Pool.setHolder, Pool.setSlot]
    split <;> exact h.empty _
  free v hv := by
    have other : v ≠ w := fun hw => h.nodup.notMem (hw ▸ hv)
    simpa only [Pool.begun, Pool.setPlace, Pool.setHolder, Pool.setSlot, if_neg other] using
      h.free v (mem_cons_of_mem _ hv)
  unused i hi := (if_neg (by omega)).trans (h.unused i (by omega))

theorem run_begun (h : Ready (w::ws) k p) (found : p.endpoints.lookup w = some endpoint) :
    run (step config) p ((connects k w).take 5) = p.begun k w endpoint (.connecting endpoint) := by
  have moved (a b : Place) : (p.begun k w endpoint a).setPlace k ⟨w, some endpoint, a⟩ b =
      p.begun k w endpoint b := by
    simp only [Pool.begun, Pool.setPlace, Pool.mk.injEq, true_and]
    funext i
    split <;> rfl
  have called (a : Place) : (p.begun k w endpoint a).calls k = some ⟨w, some endpoint, a⟩ :=
    if_pos rfl
  have empty (a : Place) := (h.begun endpoint a).empty
  have checking : step config (step config p (.call k w)) (.getConnection k {}) =
      p.begun k w endpoint .checking := by
    simp only [step, h.unused k le_rfl, found, Pool.setPlace, if_true, getConnection]
    exact (if_pos (h.free w mem_cons_self).1).trans (moved _ _)
  -- no other connection is stored, so none is counted
  have counted (a : Place) : activeConnectionCount (p.begun k w endpoint a) = 0 := by
    simp [activeConnectionCount, unlocked, empty]
  have few (n : Nat) : ¬(0 < n ∧ n ≤ 0) := by omega
  have found (a : Place) : (p.begun k w endpoint a).endpoints.lookup w = some endpoint := found
  simp only [connects, replicate, take, run_cons, run_nil, checking]
  simp only [step, called, getConnection, empty, moved, counted, few, if_false, found,
    StageRetry.resolveEndpoint]

/-- A call for each worker may come as far as connecting before any has stored its connection. -/
theorem exists_full (config : Config) (h : Ready ws k p) : ∃ moves q,
    run (step config) p moves = q ∧ q.endpoints = p.endpoints ∧
      (∀ i < k, q.calls i = p.calls i) ∧ p.connections ⊆ q.connections ∧
      ∀ w ∈ ws, w ∈ q.connections ∧ (q.slots w).entry.isSome := by
  induction ws generalizing k p with
  | nil => exact ⟨[], p, rfl, rfl, fun _ _ => rfl, Subset.refl _, nofun⟩
  | cons w ws ih =>
    obtain ⟨endpoint, found⟩ := Option.isSome_iff_exists.mp
      (AList.lookup_isSome.mpr (h.free w mem_cons_self).2)
    -- the other calls come between the last two steps of this one
    obtain ⟨moves, q, hq, endpoints, calls, grown, full⟩ := ih (h.begun endpoint (.connecting _))
    have hk : q.calls k = some ⟨w, some endpoint, .connecting endpoint⟩ :=
      (calls k k.lt_succ_self).trans (if_pos rfl)
    refine ⟨(connects k w).take 5 ++ moves ++ [.getConnection k {}], _, rfl, ?_⟩
    simp only [run_append, run_begun h found, hq, run_cons, run_nil, step, hk]
    refine ⟨endpoints, fun i hi => ?_, fun v hv => grown (mem_insert_of_mem hv), fun v hv => ?_⟩
    · exact (if_neg hi.ne).trans ((calls i (by omega)).trans (if_neg hi.ne))
    · simp only [getConnection, StageRetry.connect, Except.mapError, Pool.finish, Pool.setPlace,
        Pool.setHolder, Pool.setEntry, Pool.setSlot, if_true]
      split
      · rename_i same
        exact ⟨grown (same ▸ mem_insert_self), rfl⟩
      · rename_i other
        exact full v ((mem_cons.mp hv).resolve_left other)

theorem exists_registered (config : Config) (E : Endpoints) :
    ∃ moves, run (step config) .new moves = { Pool.new with endpoints := E } := by
  induction E using AList.insertRec with
  | H0 => exact ⟨[], rfl⟩
  | IH w endpoint E _ ih =>
    obtain ⟨moves, h⟩ := ih
    refine ⟨moves ++ [.registerWorker w endpoint], ?_⟩
    rw [run_append, h]
    rfl

/-- The maximum holds over all interleavings just for as many workers as it allows. -/
theorem cap_kept_iff (config : Config) (E : Endpoints) :
    (∀ moves q, run (step config) .new moves = q → q.endpoints = E →
      live q ≤ effectiveMaxConnections config q) ↔
    E.keys.length ≤ effectiveMaxConnections config { Pool.new with endpoints := E } := by
  constructor
  · intro kept
    obtain ⟨register, registered⟩ := exists_registered config E
    have ready : Ready E.keys 0 { Pool.new with endpoints := E } :=
      ⟨E.keys_nodup, fun _ => rfl, fun _ hw => ⟨rfl, hw⟩, fun _ _ => rfl⟩
    obtain ⟨moves, q, hq, endpoints, -, -, full⟩ := exists_full config ready
    have most := kept (register ++ moves) q (by rw [run_append, registered, hq]) endpoints
    rw [effectiveMaxConnections, endpoints] at most
    refine le_trans ?_ most
    rw [live, countP_eq_length_filter]
    exact (subperm_of_subset E.keys_nodup fun w hw => mem_filter.mpr (full w hw)).length_le
  · rintro few moves q rfl rfl
    exact (live_le config moves).trans few

/-- Two calls count before either has stored its connection. -/
def bothCount : List Move := [.registerWorker "a" "x", .registerWorker "b" "y"] ++
  (connects 0 "a").take 5 ++ connects 1 "b" ++ [.getConnection 0 {}]

theorem cap_exceeded : effectiveMaxConnections ⟨300, 1⟩ (run (step ⟨300, 1⟩) .new bothCount) <
    live (run (step ⟨300, 1⟩) .new bothCount) := by
  decide

end Cap

end Leibrix.ConnectionPool
