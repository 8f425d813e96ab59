import Leibrix.LocalStages
import Leibrix.Runs

/-!
# Looking up tickets

The tickets of stage results are kept under one text made of the query, the stage and the
worker. The exchange runtime keeps them until they are replaced; the cache of the Flight
executor hands none out that is older than five minutes and drops the old ones now and
then. Times are in nanoseconds.
-/

set_option autoImplicit false

namespace Leibrix.TicketLookup
open LdpTypes ExchangeRuntime LocalStages Runs List

/-- What a ticket is registered for: a query, a stage and a worker. -/
abbrev Owner := String × Nat × WorkerId

def Owner.key (o : Owner) : String := ticketKey o.1 o.2.1 o.2.2

def ownerOf (ticket : StageTicket) : Owner := (ticket.queryId, ticket.stageId, ticket.workerId)

section Cache

abbrev TicketCache := String → Option (Bytes × Nat)

def ticketCacheTtl : Nat := 300 * 10 ^ 9

variable (cache : TicketCache)

def evictExpiredTickets (now : Nat) : TicketCache :=
  fun key => (cache key).filter fun entry => now - entry.2 < ticketCacheTtl

inductive CacheOp where
  | submitted (owner : Owner) (resultTicket : Bytes) (insertedAt evictedAt : Nat)
  | evict (now : Nat)

def cacheStep : CacheOp → TicketCache
  | .submitted owner resultTicket insertedAt evictedAt =>
    evictExpiredTickets
      (fun key => if key = owner.key then some (resultTicket, insertedAt) else cache key) evictedAt
  | .evict now => evictExpiredTickets cache now

def noTicket (owner : Owner) : StageExecutionError :=
  .inputNotReady
    ("No ticket cached for stage " ++ toString owner.2.1 ++ " on worker " ++ owner.2.2)

def unlessExpired (owner : Owner) (now : Nat) :
    Option (Bytes × Nat) → Except StageExecutionError Bytes
  | some (bytes, insertedAt) =>
    if now - insertedAt < ticketCacheTtl then .ok bytes else .error (noTicket owner)
  | none => .error (noTicket owner)

/-- The bytes with which `fetch_output` goes on. -/
def cachedTicket (owner : Owner) (now : Nat) : Except StageExecutionError Bytes :=
  unlessExpired owner now (cache owner.key)

end Cache

section Keys

variable {x : Char} {l l' r r' : List Char}

theorem split_first (h : x ∉ l) (h' : x ∉ l') (eq : l ++ x::r = l' ++ x::r') : l = l' ∧ r = r' := by
  induction l generalizing l' with
  | nil =>
    cases l' with
    | nil => exact ⟨rfl, (List.cons.inj eq).2⟩
    | cons c l' => exact absurd (List.cons.inj eq).1 (ne_of_not_mem_cons h')
  | cons c l ih =>
    cases l' with
    | nil => exact absurd (List.cons.inj eq).1.symm (ne_of_not_mem_cons h)
    | cons c' l' =>
      obtain ⟨rfl, tail⟩ := List.cons.inj eq
      obtain ⟨rfl, rfl⟩ :=
        ih (not_mem_of_not_mem_cons h) (not_mem_of_not_mem_cons h') tail
      exact ⟨rfl, rfl⟩

theorem split_last (h : x ∉ r) (h' : x ∉ r') (eq : l ++ x::r = l' ++ x::r') : l = l' ∧ r = r' := by
  have back := congrArg reverse eq
  simp only [reverse_append, reverse_cons, append_assoc,
    singleton_append] at back
  obtain ⟨hr, hl⟩ := split_first (by simpa using h) (by simpa using h') back
  exact ⟨reverse_injective hl, reverse_injective hr⟩

theorem not_mem_toString {c : Char} (hc : c.isDigit = false) (n : Nat) :
    c ∉ (toString n).toList := by
  intro h
  rw [Nat.toString_eq_repr, Nat.toList_repr] at h
  rw [Nat.isDigit_of_mem_toDigits (by decide) (by decide) h] at hc
  cases hc

theorem colon_not_mem_toString (n : Nat) : ':' ∉ (toString n).toList := not_mem_toString rfl n

theorem toString_injective {m n : Nat} (h : (toString m).toList = (toString n).toList) : m = n := by
  rw [Nat.toString_eq_repr, Nat.toString_eq_repr, Nat.toList_repr, Nat.toList_repr] at h
  rw [← Nat.ofDigitChars_toDigits (b := 10) (n := m) (by decide) (by decide), h,
    Nat.ofDigitChars_toDigits (by decide) (by decide)]

/-- No query has a colon in its id, or no worker has. -/
def Unambiguous (owners : List Owner) : Prop :=
  (∀ o ∈ owners, ':' ∉ o.1.toList) ∨ ∀ o ∈ owners, ':' ∉ o.2.2.toList

theorem key_injective {owners : List Owner} (h : Unambiguous owners) {o o' : Owner}
    (ho : o ∈ owners) (ho' : o' ∈ owners) (same : o.key = o'.key) : o = o' := by
  obtain ⟨q, s, w⟩ := o
  obtain ⟨q', s', w'⟩ := o'
  have texts : q.toList ++ ':' :: ((toString s).toList ++ ':' :: w.toList) =
      q'.toList ++ ':' :: ((toString s').toList ++ ':' :: w'.toList) := by
    simpa [Owner.key, ticketKey, ← String.toList_inj] using same
  have parts : q.toList = q'.toList ∧ (toString s).toList = (toString s').toList ∧
      w.toList = w'.toList := by
    rcases h with queries | workers
    · obtain ⟨hq, rest⟩ := split_first (queries _ ho) (queries _ ho') texts
      exact ⟨hq, split_first (colon_not_mem_toString s) (colon_not_mem_toString s') rest⟩
    · rw [← cons_append, ← append_assoc, ← cons_append, ← append_assoc] at texts
      obtain ⟨front, hw⟩ := split_last (workers _ ho) (workers _ ho') texts
      obtain ⟨hq, hs⟩ := split_last (colon_not_mem_toString s) (colon_not_mem_toString s') front
      exact ⟨hq, hs, hw⟩
  obtain ⟨hq, hs, hw⟩ := parts
  rw [String.toList_inj.mp hq, toString_injective hs, String.toList_inj.mp hw]

end Keys

section Lookups

variable {owner : Owner}

/-- The last of the entries that were registered for the owner. -/
def lastFor {α : Type} (entries : List (Owner × α)) (owner : Owner) : Option α :=
  (entries.reverse.find? (·.1 = owner)).map (·.2)

theorem lastFor_append {α : Type} (entries : List (Owner × α)) (entry : Owner × α) :
    lastFor (entries ++ [entry]) owner =
      if entry.1 = owner then some entry.2 else lastFor entries owner := by
  rw [lastFor, reverse_append, reverse_singleton, singleton_append, find?_cons]
  split_ifs with h <;> simp [h, lastFor]

def registered (tickets : List StageTicket) : List (Owner × Bytes) :=
  tickets.map fun ticket => (ownerOf ticket, ticket.registeredBytes)

theorem remote_lookup {tickets : List StageTicket}
    (distinct : ∀ ticket ∈ tickets, (ownerOf ticket).key = owner.key → ownerOf ticket = owner) :
    registerTickets (fun _ => none) tickets owner.key = lastFor (registered tickets) owner := by
  induction tickets using reverseRecOn with
  | nil => rfl
  | append_singleton tickets ticket ih =>
    have same : owner.key = (ownerOf ticket).key ↔ ownerOf ticket = owner :=
      ⟨fun h => distinct ticket (by simp) h.symm, fun h => by rw [h]⟩
    rw [registered, map_append, map_singleton, lastFor_append, registerTickets,
      foldl_append, foldl_cons, foldl_nil, registerTicket]
    exact ite_congr (propext same) (fun _ => rfl) fun _ =>
      ih fun t ht => distinct t (mem_append_left _ ht)

def CacheOp.entry : CacheOp → Option (Owner × Bytes × Nat)
  | .submitted owner resultTicket insertedAt _ => some (owner, resultTicket, insertedAt)
  | .evict _ => none

def CacheOp.time : CacheOp → Nat
  | .submitted _ _ _ evictedAt => evictedAt
  | .evict now => now

variable {now : Nat}

theorem cachedTicket_evict (cache : TicketCache) {time : Nat} (h : time ≤ now) :
    cachedTicket (evictExpiredTickets cache time) owner now = cachedTicket cache owner now := by
  unfold cachedTicket evictExpiredTickets
  cases cache owner.key with
  | none => rfl
  | some entry =>
    by_cases young : time - entry.2 < ticketCacheTtl
    · rw [Option.filter_some, if_pos (by simpa using young)]
    · have old : ¬ now - entry.2 < ticketCacheTtl := by omega
      rw [Option.filter_some, if_neg (by simpa using young), unlessExpired, unlessExpired,
        if_neg old]

theorem cache_lookup {ops : List CacheOp} (clock : ∀ op ∈ ops, op.time ≤ now)
    (distinct : ∀ entry ∈ ops.filterMap CacheOp.entry, entry.1.key = owner.key → entry.1 = owner) :
    cachedTicket (run cacheStep (fun _ => none) ops) owner now =
      unlessExpired owner now (lastFor (ops.filterMap CacheOp.entry) owner) := by
  induction ops using reverseRecOn with
  | nil => rfl
  | append_singleton ops op ih =>
    rw [filterMap_append] at distinct ⊢
    have earlier := ih (fun o ho => clock o (mem_append_left _ ho))
      fun e he => distinct e (mem_append_left _ he)
    rw [run_append, run_cons, run_nil]
    cases op with
    | evict time =>
      have late : time ≤ now := clock (.evict time) (by simp)
      rw [cacheStep, cachedTicket_evict _ late, earlier, filterMap_cons_none rfl,
        filterMap_nil, append_nil]
    | submitted owner' resultTicket insertedAt evictedAt =>
      have late : evictedAt ≤ now :=
        clock (.submitted owner' resultTicket insertedAt evictedAt) (by simp)
      have same : owner.key = owner'.key ↔ owner' = owner :=
        ⟨fun h => distinct (owner', resultTicket, insertedAt) (by simp [CacheOp.entry]) h.symm,
          fun h => by rw [h]⟩
      rw [cacheStep, cachedTicket_evict _ late]
      simp only [cachedTicket, same] at earlier ⊢
      rw [apply_ite (unlessExpired owner now), earlier, ← apply_ite (unlessExpired owner now)]
      exact congrArg _ (lastFor_append _ (owner', resultTicket, insertedAt)).symm

/-- If no query has a colon in its id, or no worker has, both tables hand out what was last
registered for exactly the query, the stage and the worker; the cache unless it is too old. -/
theorem tickets_exact (owner : Owner) (tickets : List StageTicket) (ops : List CacheOp) (now : Nat)
    (htickets : Unambiguous (owner::tickets.map ownerOf))
    (hops : Unambiguous (owner::(ops.filterMap CacheOp.entry).map (·.1)))
    (clock : ∀ op ∈ ops, op.time ≤ now) :
    registerTickets (fun _ => none) tickets owner.key = lastFor (registered tickets) owner ∧
    cachedTicket (run cacheStep (fun _ => none) ops) owner now =
      unlessExpired owner now (lastFor (ops.filterMap CacheOp.entry) owner) := by
  constructor
  · refine remote_lookup fun ticket ht => key_injective htickets ?_ mem_cons_self
    exact mem_cons_of_mem _ (mem_map_of_mem ht)
  · refine cache_lookup clock fun entry he => key_injective hops ?_ mem_cons_self
    exact mem_cons_of_mem _ (mem_map_of_mem he)

def ticketFor (owner : Owner) (bytes : Bytes) : StageTicket :=
  { StageTicket.new owner.1 owner.2.1 owner.2.2 with flightTicketBytes := some bytes }

theorem tickets_exact_two_queries :
    registerTickets (fun _ => none) [ticketFor ("a", 1, "w:1") [7], ticketFor ("b", 1, "w:1") [8]]
      (Owner.key ("a", 1, "w:1")) = some [7] ∧
    cachedTicket (run cacheStep (fun _ => none) [.submitted ("a", 1, "w:1") [7] 0 0, .evict 5])
      ("a", 1, "w:1") 6 = .ok [7] :=
  tickets_exact ("a", 1, "w:1") [ticketFor ("a", 1, "w:1") [7], ticketFor ("b", 1, "w:1") [8]]
    [.submitted ("a", 1, "w:1") [7] 0 0, .evict 5] 6 (.inl (by decide)) (.inl (by decide))
    (by simp [CacheOp.time])

/-- A ticket of the query `a:1` is handed out for the query `a`, which has none. -/
theorem ticket_of_other_query :
    registerTickets (fun _ => none) [ticketFor ("a:1", 2, "w") [7]] (Owner.key ("a", 1, "2:w")) =
      some [7] ∧
    cachedTicket (run cacheStep (fun _ => none) [.submitted ("a:1", 2, "w") [7] 0 0])
      ("a", 1, "2:w") 0 = .ok [7] ∧
    lastFor (registered [ticketFor ("a:1", 2, "w") [7]]) ("a", 1, "2:w") = none := by
  decide +kernel

end Lookups

end Leibrix.TicketLookup
