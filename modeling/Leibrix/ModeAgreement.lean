import Leibrix.ExchangeDelivery

/-!
# Agreement of the local and the distributed mode

The two modes resolve an edge of a plan for one worker of the consuming stage, after the stage
before it has run with the same results on its workers. Its output is partitioned if the edge is
a hash partition, and a stream otherwise. Locally the results are stored under the tickets of the
stage; in distributed mode each worker gives its result for the bytes that it handed out, and
refuses bytes that are not a JSON object.
-/

set_option autoImplicit false

namespace Leibrix.ModeAgreement
open ArrowBatch HashPartition HashRows LdpTypes LdpAnnotate LdpCut ExchangeRuntime ExchangeModes
open ExchangeDelivery List Option

/-- A stage that has run, as far as the edge after it can see. -/
structure Upstream where
  workers : List WorkerId
  /-- What each worker made of the stage, unless it is missing. -/
  result : WorkerId → Option (List RecordBatch)
  /-- The bytes that a worker handed out for its result. -/
  resultTicket : WorkerId → Bytes

def sourceOutput : Exchange → StageOutput
  | .hashPartition columnRefs partitions => .partitioned partitions columnRefs
  | _ => .stream

theorem determineStageOutput_eq {annotated : AnnotatedPlan} {kind : Exchange}
    (h : annotated.exchangeBefore = some kind) :
    determineStageOutput annotated = sourceOutput kind := by
  rw [determineStageOutput, h]
  cases kind <;> rfl

namespace Upstream

variable (u : Upstream) (queryId : String) (edge : ExchangeEdge)

/-- The tickets of the local executor. -/
def localTickets : List StageTicket :=
  u.workers.flatMap fun worker =>
    match sourceOutput edge.kind with
    | .stream => [.new queryId edge.fromStage worker]
    | .partitioned partitions _ =>
      (List.range partitions.toNat).map (StageTicket.partitioned queryId edge.fromStage worker)

def remoteTickets : List StageTicket :=
  submitStage queryId edge.fromStage (sourceOutput edge.kind) u.resultTicket u.workers

/-- The results are stored, and the workers answer with them. What the parts of a partitioned
output are is left open. -/
structure Ran (outputs : String → Option (List RecordBatch)) (network : Network) : Prop where
  stored : sourceOutput edge.kind = .stream → ∀ w ∈ u.workers,
    outputs (StageTicket.new queryId edge.fromStage w).ticketId = u.result w
  answers : ∀ w ∈ u.workers, ∃ endpoint, network.endpoint w = some endpoint ∧
    (network.doGet endpoint (u.resultTicket w)).toOption = u.result w ∧
    ∀ bytes : Bytes, bytes.head? ≠ some 123 → (network.doGet endpoint bytes).toOption = none

end Upstream

section Sides

variable (lower : String → String) (partition : Partitioner)
  (outputs : String → Option (List RecordBatch)) (network : Network) (prior : RemoteTickets)
  (queryId : String) (edge : ExchangeEdge) (worker : WorkerId) (upstream : Option Upstream)

/-- The input that the local executor resolves. -/
def localSide : Except ExchangeError (List RecordBatch) :=
  localInput lower partition outputs (fun _ => upstream.map (·.localTickets queryId edge)) edge
    worker

/-- The input that the coordinator resolves, with the tickets registered. -/
def remoteSide : Except ExecutionError (Option (List RecordBatch)) :=
  distributedInput lower partition network
    (registerTickets prior ((upstream.map (·.remoteTickets queryId edge)).getD [])) queryId
    (fun _ => upstream.map (·.remoteTickets queryId edge)) edge worker

/-- The key columns are found in the first batch, and the worker has no partition or all batches can
be split by them. -/
def Splits (columnRefs : List ColumnRef) (partitions : Nat) (batches : List RecordBatch) : Prop :=
  ∀ first ∈ batches.head?, ∃ fieldRefs,
    resolveColumnIndices lower columnRefs first.schema = .ok fieldRefs ∧
      (localPartitions edge.partitionToWorker worker = [] ∨
        ∀ batch ∈ batches, ∃ parts, partition batch fieldRefs partitions = .ok parts)

/-- When the two modes agree on an edge. -/
def Agreeable : Option Upstream → Prop
  | none => False
  | some u =>
    match edge.kind with
    | .gather target => worker = target ∨ Silent u.result u.workers
    | .broadcast targets =>
      if worker ∈ targets then
        ∃ source rest, u.workers = source::rest ∧ (u.result source = none ∨ Silent u.result rest)
      else Silent u.result u.workers
    | .hashPartition columnRefs partitions =>
      u.workers = [] ∨ partitions.toNat = 0 ∨
        ∀ parts, (u.localTickets queryId edge).mapM (fun t => outputs t.ticketId) = some parts →
          ¬Splits lower partition edge worker columnRefs partitions.toNat parts.flatten

end Sides

section Streams

variable {u : Upstream} {queryId : String} {edge : ExchangeEdge}
  {outputs : String → Option (List RecordBatch)} {network : Network}

theorem localTickets_stream (h : sourceOutput edge.kind = .stream) :
    u.localTickets queryId edge = u.workers.map (StageTicket.new queryId edge.fromStage) := by
  rw [Upstream.localTickets, h]
  exact (map_eq_flatMap ..).symm

theorem gathered (ran : u.Ran queryId edge outputs network)
    (h : sourceOutput edge.kind = .stream) :
    (executeGatherLocal outputs (u.localTickets queryId edge)).toOption =
      collect u.result u.workers := by
  have same : u.workers.mapM ((fun t : StageTicket => outputs t.ticketId) ∘
      StageTicket.new queryId edge.fromStage) = u.workers.mapM u.result :=
    mapM_congr fun w hw => ran.stored h w hw
  rw [executeGatherLocal, toOption_bind, fetchOutputs_toOption, localTickets_stream h, mapM_map,
    same, collect]
  cases u.workers.mapM u.result <;> simp [orEmptyBatch_eq]

theorem sources_of_stream (h : sourceOutput edge.kind = .stream) :
    (u.remoteTickets queryId edge).map (·.workerId) = u.workers := by
  rw [Upstream.remoteTickets, h]
  exact workers_stream

theorem fetched_of_bytes {remote : RemoteTickets} {w : WorkerId} {bytes : Bytes}
    {endpoint : String} (hbytes : remote (ticketKey queryId edge.fromStage w) = some bytes)
    (hend : network.endpoint w = some endpoint) :
    (fetchFromWorker network remote queryId edge.fromStage w).toOption =
      (network.doGet endpoint bytes).toOption := by
  simp only [fetchFromWorker, hbytes, hend]
  cases network.doGet endpoint bytes <;> rfl

theorem fetched_stream (ran : u.Ran queryId edge outputs network)
    (h : sourceOutput edge.kind = .stream) (prior : RemoteTickets) :
    ∀ w ∈ u.workers, (fetchFromWorker network
      (registerTickets prior (u.remoteTickets queryId edge)) queryId edge.fromStage w).toOption =
        u.result w := by
  intro w hw
  obtain ⟨endpoint, hend, hget, -⟩ := ran.answers w hw
  rw [← hget, Upstream.remoteTickets, h]
  exact fetched_of_bytes (registered_stream prior hw) hend

end Streams

section Partitions

variable {u : Upstream} {queryId : String} {edge : ExchangeEdge}
  {outputs : String → Option (List RecordBatch)} {network : Network} {columnRefs : List ColumnRef}
  {partitions : UInt32}

theorem asBytes_append (a b : String) : asBytes (a ++ b) = asBytes a ++ asBytes b := by
  simp [asBytes, String.toUTF8]

/-- The name of a ticket is no JSON object. -/
theorem head_lastPartitionBytes (stageId : Nat) (w : WorkerId) (m : Nat) :
    (lastPartitionBytes queryId stageId w m).head? ≠ some 123 := by
  have first : (lastPartitionBytes queryId stageId w m).head? = some 115 := by
    simp only [lastPartitionBytes, StageTicket.partitioned, asBytes_append, append_assoc]
    rfl
  rw [first]
  decide

theorem sources_of_partitioned (h : edge.kind = .hashPartition columnRefs partitions) :
    (u.remoteTickets queryId edge).map (·.workerId) =
      u.workers.flatMap (List.replicate partitions.toNat) := by
  rw [Upstream.remoteTickets, h]
  exact workers_partitioned

theorem fetched_partitioned (ran : u.Ran queryId edge outputs network)
    (h : edge.kind = .hashPartition columnRefs partitions) (hm : 0 < partitions.toNat)
    (prior : RemoteTickets) : ∀ w ∈ u.workers, (fetchFromWorker network
      (registerTickets prior (u.remoteTickets queryId edge)) queryId edge.fromStage w).toOption =
        none := by
  intro w hw
  obtain ⟨endpoint, hend, -, refuses⟩ := ran.answers w hw
  rw [← refuses _ (head_lastPartitionBytes edge.fromStage w partitions.toNat),
    Upstream.remoteTickets, h]
  exact fetched_of_bytes (registered_partitioned prior hw hm) hend

theorem collect_none {ws : List WorkerId} (h : ws ≠ []) : collect (fun _ => none) ws = none := by
  cases ws with
  | nil => exact absurd rfl h
  | cons w ws => rfl

variable {lower : String → String} {partition : Partitioner} {worker : WorkerId}

/-- Which stored parts the local executor can make an input of. -/
theorem hashLocal_isSome_iff (tickets : List StageTicket) (n : Nat) :
    (executeHashPartitionForWorker lower partition outputs tickets columnRefs n
        edge.partitionToWorker worker).toOption.isSome = true ↔
      ∃ parts, tickets.mapM (fun t => outputs t.ticketId) = some parts ∧
        Splits lower partition edge worker columnRefs n parts.flatten := by
  rw [executeHashPartitionForWorker, toOption_bind, fetchOutputs_toOption]
  cases tickets.mapM fun t => outputs t.ticketId with
  | none => simp
  | some parts =>
    simp only [map_some, bind_some, Option.some.injEq, exists_eq_left']
    cases parts.flatten with
    | nil => simp [Splits]
    | cons first rest =>
      simp only [Splits, head?_cons, mem_def, Option.some.injEq, forall_eq', ← exists_mapM_iff]
      cases resolveColumnIndices lower columnRefs first.schema with
      | error e => simp
      | ok fieldRefs =>
        simp only [toOption_bind, toOption_ok, bind_some, Except.ok.injEq, exists_eq_left']
        by_cases hmine : localPartitions edge.partitionToWorker worker = []
        · simp [hmine]
        · cases (first::rest).mapM fun batch => partition batch fieldRefs n <;> simp [hmine]

theorem sameRows_none_iff (a : Option (List RecordBatch)) : SameRows a none ↔ ¬a.isSome = true := by
  cases a <;> simp [SameRows]

/-- On a hash partition the modes agree if there is nothing to send, or if both fail. -/
theorem hash_same_iff (ran : u.Ran queryId edge outputs network)
    (h : edge.kind = .hashPartition columnRefs partitions) (prior : RemoteTickets) :
    SameRows (executeHashPartitionForWorker lower partition outputs (u.localTickets queryId edge)
        columnRefs partitions.toNat edge.partitionToWorker worker).toOption
      (executeHashPartition lower partition network
        (registerTickets prior (u.remoteTickets queryId edge)) queryId edge.fromStage
        ((u.remoteTickets queryId edge).map (·.workerId)) columnRefs partitions.toNat
        edge.partitionToWorker worker).toOption ↔
      Agreeable lower partition outputs queryId edge worker (some u) := by
  simp only [Agreeable, h]
  by_cases hnone : u.workers = [] ∨ partitions.toNat = 0
  · have noTickets : u.localTickets queryId edge = [] := by
      rw [Upstream.localTickets, h]
      rcases hnone with hnone | hnone <;> simp [hnone, sourceOutput]
    have noSources : (u.remoteTickets queryId edge).map (·.workerId) = [] := by
      rw [sources_of_partitioned h]
      rcases hnone with hnone | hnone <;> simp [hnone]
    rw [noTickets, noSources]
    exact iff_of_true (sameRows_refl (some [])) (or_assoc.mp (.inl hnone))
  · obtain ⟨hworkers, hpartitions⟩ := not_or.mp hnone
    have some_source : (u.remoteTickets queryId edge).map (·.workerId) ≠ [] := by
      obtain ⟨w, hw⟩ := exists_mem_of_ne_nil _ hworkers
      rw [sources_of_partitioned h]
      intro none
      have empty := flatMap_eq_nil_iff.mp none w hw
      simp [hpartitions] at empty
    rw [hashRemote_toOption lower partition network _ queryId (fun _ => none) columnRefs
        partitions.toNat edge.partitionToWorker worker ?_, collect_none some_source, bind_none,
      sameRows_none_iff, hashLocal_isSome_iff, not_exists]
    · simp only [not_and, hworkers, hpartitions, false_or]
    · intro w hw
      rw [sources_of_partitioned h] at hw
      obtain ⟨v, hv, hw⟩ := mem_flatMap.mp hw
      rw [(mem_replicate.mp hw).2]
      exact fetched_partitioned ran h (Nat.pos_of_ne_zero hpartitions) prior v hv

end Partitions

/-- Two workers with a row each. -/
def bothRan : Upstream where
  workers := ["w0", "w1"]
  result w := some [textBatch [w]]
  resultTicket w := asBytes ("\x7b" ++ w)

def edgeOf (kind : Exchange) : ExchangeEdge := ⟨0, kind, 0, 1, []⟩

def storedOutputs (ticketId : String) : Option (List RecordBatch) :=
  if ticketId = (StageTicket.new "q" 0 "w0").ticketId then some [textBatch ["w0"]]
  else some [textBatch ["w1"]]

def workersNetwork : Network where
  endpoint := some
  doGet endpoint bytes :=
    if bytes = asBytes ("\x7b" ++ endpoint) then .ok [textBatch [endpoint]]
    else .error "Invalid ticket"

theorem bothRan_ran {kind : Exchange} :
    bothRan.Ran "q" (edgeOf kind) storedOutputs workersNetwork where
  stored _ w hw := by
    simp only [bothRan, mem_cons, not_mem_nil, or_false] at hw
    rcases hw with rfl | rfl
    · exact if_pos rfl
    · have other :
          (StageTicket.new "q" 0 "w1").ticketId ≠ (StageTicket.new "q" 0 "w0").ticketId := by
        decide +kernel
      exact if_neg other
  answers w hw := by
    refine ⟨w, rfl, ?_, fun bytes hbytes => ?_⟩
    · simp [workersNetwork, bothRan]
    · have other : bytes ≠ asBytes ("\x7b" ++ w) := by
        rintro rfl
        rw [asBytes_append] at hbytes
        exact hbytes rfl
      simp [workersNetwork, other]

end Leibrix.ModeAgreement
