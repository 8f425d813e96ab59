import Leibrix.TempTables
import Leibrix.TicketLookup

/-!
# Schemas of empty results

A query without rows is answered by the local executor with one empty batch, so that its schema
reaches the stages after it. Parts of a partitioned output that have no rows are stored without
a batch, and so are empty results on a worker; their schemas are lost.
-/

set_option autoImplicit false

namespace Leibrix.EmptyResults
open ArrowBatch LdpTypes LdpCut ExchangeRuntime ProtoConvert SqlAst LocalStages
open TicketLookup List

/-- There is a batch, and all have the schema. -/
def Typed (schema : Schema) (batches : List RecordBatch) : Prop :=
  batches ≠ [] ∧ ∀ b ∈ batches, b.schema = schema

variable {batches : List RecordBatch}

theorem typed_orSchema {schema : Schema} (h : ∀ b ∈ batches, b.schema = schema) :
    Typed schema (orSchema schema batches) := by
  cases batches with
  | nil => exact ⟨cons_ne_nil _ _, by simp [orSchema, RecordBatch.newEmpty]⟩
  | cons b batches => exact ⟨cons_ne_nil _ _, h⟩

variable {worker : WorkerId} {Db : Type} {executor : LocalExecutor Db} {schema : Schema}
  {stage : SentStage}

section Stages

/-- The database answers the stage with the schema, with or without rows. -/
def Answers (executor : LocalExecutor Db) (stageSql : String) (schema : Schema) : Prop :=
  ∀ db inputs found batches, executor.duckdb.query db inputs stageSql = .ok (found, batches) →
    found = schema ∧ ∀ b ∈ batches, b.schema = schema

variable (answers : Answers executor stage.stageSql schema)
include answers

variable {inputs : Inputs}

theorem typed_runSqlWithInputs {connecting : String} {db : Db}
    (h : runSqlWithInputs executor.duckdb connecting db stage.stageSql inputs = .ok batches) :
    Typed schema batches := by
  unfold runSqlWithInputs at h
  split at h
  · rename_i found batches' hquery
    obtain ⟨rfl, same⟩ := answers _ _ _ _ hquery
    cases h
    exact typed_orSchema same
  · cases h

variable {requiresLocalCatalog : Bool}

theorem typed_executeSql
    (h : executor.executeSql worker stage.stageSql inputs requiresLocalCatalog = .ok batches) :
    Typed schema batches := by
  unfold LocalExecutor.executeSql at h
  split at h
  · exact typed_runSqlWithInputs answers h
  · split at h
    · cases h
    · exact typed_runSqlWithInputs answers h

end Stages

theorem withMonitor_ok {requiresLocalCatalog : Bool} (written : stage.stageSql ≠ "")
    {inputs : Inputs} {limits : StageLimits} {elapsed : Nat} {monitor : Monitor}
    {result : List RecordBatch × Monitor}
    (h : executor.executeSqlWithMonitor worker stage.stageSql inputs requiresLocalCatalog limits
      elapsed monitor = .ok result) :
    executor.executeSql worker stage.stageSql inputs requiresLocalCatalog = .ok result.1 := by
  rw [LocalExecutor.executeSqlWithMonitor, if_neg written] at h
  obtain ⟨batches, hbatches, h⟩ := bind_eq_ok.mp h
  obtain ⟨-, -, h⟩ := bind_eq_ok.mp h
  cases h
  exact hbatches

variable {n : Nat} {columnRefs : List ColumnRef}

section Parts

/-- The partitioner keeps the schema, and does not lose all rows. -/
structure Fair (partition : Partitioner) : Prop where
  schema : ∀ batch fields n parts, partition batch fields n = .ok parts →
    ∀ part ∈ parts, part.schema = batch.schema
  rows : ∀ batch fields n parts, partition batch fields n = .ok parts → batch.rows ≠ [] →
    ∃ part ∈ parts, part.rows ≠ []

theorem mapError_eq_ok {ε ε' α : Type} {x : Except ε α} {f : ε → ε'} {a : α}
    (h : x.mapError f = .ok a) : x = .ok a := by
  cases x with
  | error e => cases h
  | ok b => cases h; rfl

theorem concatBatches_eq {combined : RecordBatch}
    (h : LocalExecutor.concatBatches schema batches = .ok combined) :
    combined.schema = schema ∧ combined.rows = batchRows batches := by
  unfold LocalExecutor.concatBatches at h
  split at h
  · cases h
    exact ⟨rfl, rfl⟩
  · cases h

/-- The parts of an output have its schema, and some part has a batch exactly if it has a row. -/
theorem partitionBatches_typed (fair : Fair executor.partition) (typed : Typed schema batches)
    {parts : List (List RecordBatch)}
    (h : executor.partitionBatches batches n columnRefs = .ok parts) :
    (∀ part ∈ parts, ∀ b ∈ part, b.schema = schema) ∧
      ((∃ part ∈ parts, part ≠ []) ↔ batchRows batches ≠ []) := by
  have noBatches : ∀ part ∈ replicate n ([] : List RecordBatch), part = [] :=
    fun part hpart => (mem_replicate.mp hpart).2
  cases batches with
  | nil => exact absurd rfl typed.1
  | cons first rest =>
    obtain ⟨combined, hcombined, h⟩ := bind_eq_ok.mp h
    obtain ⟨whole, rows⟩ := concatBatches_eq (mapError_eq_ok hcombined)
    rw [typed.2 first mem_cons_self] at whole
    split at h
    · rename_i empty
      cases h
      rw [← rows, isEmpty_iff.mp empty]
      refine ⟨fun part hpart b hb => ?_, ?_⟩
      · rw [noBatches part hpart] at hb
        cases hb
      · simp
    · rename_i filled
      obtain ⟨fields, -, h⟩ := bind_eq_ok.mp h
      obtain ⟨split, hsplit, h⟩ := bind_eq_ok.mp h
      cases h
      have hsplit := mapError_eq_ok hsplit
      refine ⟨fun part hpart b hb => ?_, ?_⟩
      · obtain ⟨batch, hbatch, rfl⟩ := mem_map.mp hpart
        split at hb
        · cases hb
        · rw [mem_singleton.mp hb, fair.schema _ _ _ _ hsplit batch hbatch, whole]
      · have some : combined.rows ≠ [] := by simpa using filled
        rw [← rows]
        refine ⟨fun _ => some, fun _ => ?_⟩
        obtain ⟨batch, hbatch, hrows⟩ := fair.rows _ _ _ _ hsplit some
        exact ⟨_, mem_map_of_mem hbatch, by simp [hrows]⟩

variable {queryId : String}

/-- What the executor keeps of the output of one worker. -/
theorem storedParts_typed (fair : Fair executor.partition) {output : List RecordBatch}
    (typed : Typed schema output) {parts : List (StageTicket × List RecordBatch)}
    (h : executor.storedParts queryId stage worker output = .ok parts) :
    (∀ part ∈ parts, ∀ b ∈ part.2, b.schema = schema) ∧
      ((∃ part ∈ parts, part.2 ≠ []) ↔ stage.output = .stream ∨ batchRows output ≠ []) := by
  unfold LocalExecutor.storedParts at h
  split at h
  · rename_i stream
    cases h
    simp only [mem_singleton, forall_eq, exists_eq_left, stream, true_or, iff_true]
    exact ⟨typed.2, typed.1⟩
  · rename_i partitions columnRefs partitioned
    obtain ⟨split, hsplit, h⟩ := bind_eq_ok.mp h
    cases h
    obtain ⟨schemas, filled⟩ := partitionBatches_typed fair typed hsplit
    simp only [partitioned, reduceCtorEq, false_or, ← filled]
    refine ⟨fun part hpart => ?_, ?_, ?_⟩
    · obtain ⟨p, hp, rfl⟩ := mem_mapIdx.mp hpart
      exact schemas _ (getElem_mem hp)
    · rintro ⟨part, hpart, some⟩
      obtain ⟨p, hp, rfl⟩ := mem_mapIdx.mp hpart
      exact ⟨_, getElem_mem hp, some⟩
    · rintro ⟨part, hpart, some⟩
      obtain ⟨p, hp, rfl⟩ := getElem_of_mem hpart
      exact ⟨_, mem_mapIdx.mpr ⟨p, hp, rfl⟩, some⟩

/-- The part was stored for an output of the worker. -/
def StoredFor (executor : LocalExecutor Db) (queryId : String) (stage : SentStage) (inputs : Inputs)
    (worker : WorkerId) (parts : List (StageTicket × List RecordBatch)) : Prop :=
  ∃ output, executor.executeSql worker stage.stageSql inputs
      (decide (.localCatalog ∈ stage.inputs)) = .ok output ∧
    executor.storedParts queryId stage worker output = .ok parts

theorem foldlM_stored (written : stage.stageSql ≠ "") {inputs : Inputs} {elapsed : WorkerId → Nat}
    {workers : List WorkerId} {submitted submitted' : LocalExecutor.Submitted}
    (h : workers.foldlM (executor.submitForWorker queryId stage inputs elapsed) submitted =
      .ok submitted') :
    ∃ each : List (List (StageTicket × List RecordBatch)),
      submitted'.stored = submitted.stored ++ each.flatten ∧
      List.Forall₂ (StoredFor executor queryId stage inputs) workers each := by
  induction workers generalizing submitted with
  | nil =>
    cases h
    exact ⟨[], by simp, .nil⟩
  | cons worker workers ih =>
    rw [foldlM_cons] at h
    obtain ⟨next, hnext, h⟩ := bind_eq_ok.mp h
    obtain ⟨result, hresult, hnext⟩ := bind_eq_ok.mp hnext
    obtain ⟨-, -, hnext⟩ := bind_eq_ok.mp hnext
    obtain ⟨parts, hparts, hnext⟩ := bind_eq_ok.mp hnext
    cases hnext
    obtain ⟨each, hstored, all⟩ := ih h
    refine ⟨parts::each, by rw [hstored]; simp, .cons ⟨result.1, ?_, hparts⟩ all⟩
    exact withMonitor_ok written hresult

end Parts

section Exchange

variable {lower : String → String} {partition : Partitioner} {outputs : Outputs}
  {tickets : List StageTicket}

/-- The exchange can split batches of the schema. -/
def Splits (lower : String → String) (partition : Partitioner) (schema : Schema)
    (edge : ExchangeEdge) : Prop :=
  match edge.kind with
  | .hashPartition columnRefs partitions =>
    ∃ fields, resolveColumnIndices lower columnRefs schema = .ok fields ∧
      ∀ batch, batch.schema = schema → ∃ parts, partition batch fields partitions.toNat = .ok parts
  | _ => True

/-- The input that a worker resolves has a batch, and only batches with the schema. -/
def Resolved (lower : String → String) (partition : Partitioner) (outputs : Outputs)
    (edge : ExchangeEdge) (tickets : List StageTicket) (worker : WorkerId) (schema : Schema) :
    Prop :=
  ∃ input, executeExchangeForWorker lower partition outputs edge tickets worker = .ok input ∧
    Typed schema input

theorem fetchOutputs_eq (found : ∀ ticket ∈ tickets, ∃ batches,
      outputs ticket.ticketId = some batches ∧ ∀ b ∈ batches, b.schema = schema) :
    ∃ batches, fetchOutputs outputs tickets = .ok batches ∧ (∀ b ∈ batches, b.schema = schema) ∧
      (batches ≠ [] ↔ ∃ ticket ∈ tickets, outputs ticket.ticketId ≠ some []) := by
  have fetched : ∀ ticket ∈ tickets,
      fetchOutput outputs ticket = .ok ((outputs ticket.ticketId).getD []) := by
    intro ticket hticket
    obtain ⟨batches, hbatches, -⟩ := found ticket hticket
    rw [fetchOutput, hbatches]
    rfl
  refine ⟨_, by rw [fetchOutputs, HashRows.mapM_eq_ok fetched]; rfl, fun b hb => ?_, ?_⟩
  · obtain ⟨part, hpart, hb⟩ := mem_flatten.mp hb
    obtain ⟨ticket, hticket, rfl⟩ := mem_map.mp hpart
    obtain ⟨batches, hbatches, same⟩ := found ticket hticket
    rw [hbatches] at hb
    exact same b hb
  · rw [ne_eq, flatten_eq_nil_iff]
    simp only [forall_mem_map, not_forall, exists_prop]
    refine exists_congr fun ticket => and_congr_right fun hticket => ?_
    obtain ⟨batches, hbatches, -⟩ := found ticket hticket
    simp [hbatches]

theorem orEmptyBatch_of_typed (typed : Typed schema batches) : orEmptyBatch batches = batches := by
  rw [orEmptyBatch, if_neg (by simpa using typed.1)]

theorem hashPartition_typed (fair : Fair partition) {fields : List Nat}
    (hfields : resolveColumnIndices lower columnRefs schema = .ok fields)
    (splits : ∀ batch, batch.schema = schema → ∃ parts, partition batch fields n = .ok parts)
    (fetched : fetchOutputs outputs tickets = .ok batches) (typed : Typed schema batches)
    (partitionToWorker : List WorkerId) (worker : WorkerId) :
    ∃ inputs, executeHashPartitionForWorker lower partition outputs tickets columnRefs n
      partitionToWorker worker = .ok inputs ∧ Typed schema inputs := by
  cases batches with
  | nil => exact absurd rfl typed.1
  | cons first rest =>
    have same : first.schema = schema := typed.2 first mem_cons_self
    obtain ⟨split, hsplit⟩ := HashRows.exists_mapM_iff.mpr fun b hb => splits b (typed.2 b hb)
    simp only [executeHashPartitionForWorker, fetched, same, hfields, hsplit, bind, Except.bind]
    split
    · exact ⟨_, rfl, cons_ne_nil _ _, by simp [RecordBatch.newEmpty]⟩
    · refine ⟨_, rfl, typed_orSchema fun b hb => ?_⟩
      obtain ⟨p, -, hb⟩ := mem_flatMap.mp hb
      obtain ⟨parts, hparts, hb⟩ := mem_flatMap.mp hb
      obtain ⟨f, each, rfl⟩ := HashRows.mapM_total hsplit
      obtain ⟨batch, hbatch, rfl⟩ := mem_map.mp hparts
      have part : b ∈ f batch :=
        mem_of_getElem? (Option.mem_toList.mp (mem_filter.mp hb).1)
      rw [fair.schema _ _ _ _ (each batch hbatch) b part, typed.2 batch hbatch]

theorem exchange_typed (fair : Fair partition) {edge : ExchangeEdge}
    (splits : Splits lower partition schema edge)
    (fetched : fetchOutputs outputs tickets = .ok batches) (typed : Typed schema batches)
    (worker : WorkerId) : Resolved lower partition outputs edge tickets worker schema := by
  have gathered : executeGatherLocal outputs tickets = .ok batches := by
    rw [executeGatherLocal, fetched]
    exact congrArg Except.ok (orEmptyBatch_of_typed typed)
  unfold Resolved executeExchangeForWorker
  unfold Splits at splits
  cases hkind : edge.kind with
  | gather target | broadcast targets => exact ⟨batches, gathered, typed⟩
  | hashPartition columnRefs partitions =>
    rw [hkind] at splits
    obtain ⟨fields, hfields, splits⟩ := splits
    exact hashPartition_typed fair hfields splits fetched typed _ worker

/-- No exchange makes a batch out of none. -/
theorem exchange_nothing (edge : ExchangeEdge) (fetched : fetchOutputs outputs tickets = .ok [])
    (worker : WorkerId) :
    executeExchangeForWorker lower partition outputs edge tickets worker = .ok [] := by
  unfold executeExchangeForWorker
  cases edge.kind with
  | gather target | broadcast targets =>
    simp only [executeGatherLocal, fetched]
    rfl
  | hashPartition columnRefs partitions =>
    simp only [executeHashPartitionForWorker, fetched]
    rfl

theorem resolved_iff (fair : Fair partition) {edge : ExchangeEdge}
    (splits : Splits lower partition schema edge)
    (found : ∀ ticket ∈ tickets, ∃ batches, outputs ticket.ticketId = some batches ∧
      ∀ b ∈ batches, b.schema = schema) (worker : WorkerId) :
    Resolved lower partition outputs edge tickets worker schema ↔
      ∃ ticket ∈ tickets, outputs ticket.ticketId ≠ some [] := by
  obtain ⟨batches, fetched, same, filled⟩ := fetchOutputs_eq found
  rw [← filled]
  constructor
  · rintro ⟨input, hinput, typed⟩ rfl
    rw [exchange_nothing edge fetched worker] at hinput
    cases hinput
    exact typed.1 rfl
  · intro some
    exact exchange_typed fair splits fetched ⟨some, same⟩ worker

end Exchange

section Stored

variable {stored : List (StageTicket × List RecordBatch)} {queryId : String} {inputs : Inputs}

theorem store_mem (outputs : Outputs) {part : StageTicket × List RecordBatch} (h : part ∈ stored) :
    ∃ other ∈ stored, other.1.ticketId = part.1.ticketId ∧
      outputs.store stored part.1.ticketId = some other.2 := by
  induction stored using reverseRecOn with
  | nil => cases h
  | append_singleton before last ih =>
    rw [Outputs.store, foldl_append]
    by_cases same : part.1.ticketId = last.1.ticketId
    · exact ⟨last, by simp, same.symm, by simp [same]⟩
    · have earlier : part ∈ before := (mem_append.mp h).resolve_right fun hlast =>
        same (mem_singleton.mp hlast ▸ rfl)
      obtain ⟨other, hother, equal, found⟩ := ih earlier
      exact ⟨other, mem_append_left _ hother, equal, by simpa [same, Outputs.store] using found⟩

variable {worker' : WorkerId}

theorem partitioned_injective {stageId p p' : Nat}
    (h : (StageTicket.partitioned queryId stageId worker p).ticketId =
      (StageTicket.partitioned queryId stageId worker' p').ticketId) :
    worker = worker' ∧ p = p' := by
  have texts : (worker.toList ++ ['_']) ++ 'p' :: (toString p).toList =
      (worker'.toList ++ ['_']) ++ 'p' :: (toString p').toList := by
    simpa [StageTicket.partitioned, ← String.toList_inj] using h
  obtain ⟨workers, numbers⟩ := split_last (not_mem_toString rfl p) (not_mem_toString rfl p') texts
  exact ⟨String.toList_inj.mp (append_cancel_right workers), toString_injective numbers⟩

/-- The output of the worker is a stream, or its SQL returns a row. -/
def Contributes (executor : LocalExecutor Db) (stage : SentStage) (inputs : Inputs)
    (worker : WorkerId) : Prop :=
  stage.output = .stream ∨ ∃ output, executor.executeSql worker stage.stageSql inputs
    (decide (.localCatalog ∈ stage.inputs)) = .ok output ∧ batchRows output ≠ []

theorem StoredFor.typed (fair : Fair executor.partition)
    (answers : Answers executor stage.stageSql schema)
    (h : StoredFor executor queryId stage inputs worker stored) :
    (∀ part ∈ stored, ∀ b ∈ part.2, b.schema = schema) ∧
      ((∃ part ∈ stored, part.2 ≠ []) ↔ Contributes executor stage inputs worker) := by
  obtain ⟨output, hsql, hparts⟩ := h
  obtain ⟨schemas, filled⟩ := storedParts_typed fair (typed_executeSql answers hsql) hparts
  refine ⟨schemas, filled.trans (or_congr_right ⟨fun rows => ⟨output, hsql, rows⟩, ?_⟩)⟩
  rintro ⟨output', hsql', rows⟩
  rw [hsql] at hsql'
  cases hsql'
  exact rows

/-- Parts under one ticket are the same, or none of them is without a batch. -/
theorem StoredFor.same_ticket {stored' : List (StageTicket × List RecordBatch)}
    {part part' : StageTicket × List RecordBatch} (answers : Answers executor stage.stageSql schema)
    (h : StoredFor executor queryId stage inputs worker stored) (hpart : part ∈ stored)
    (h' : StoredFor executor queryId stage inputs worker' stored') (hpart' : part' ∈ stored')
    (same : part'.1.ticketId = part.1.ticketId) (filled : part.2 ≠ []) : part'.2 ≠ [] := by
  obtain ⟨output, hsql, hparts⟩ := h
  obtain ⟨output', hsql', hparts'⟩ := h'
  cases houtput : stage.output with
  | stream =>
    simp only [LocalExecutor.storedParts, houtput] at hparts'
    cases hparts'
    rw [mem_singleton.mp hpart']
    exact (typed_executeSql answers hsql').1
  | partitioned partitions columnRefs =>
    simp only [LocalExecutor.storedParts, houtput] at hparts hparts'
    obtain ⟨split, hsplit, hparts⟩ := bind_eq_ok.mp hparts
    obtain ⟨split', hsplit', hparts'⟩ := bind_eq_ok.mp hparts'
    cases hparts
    cases hparts'
    obtain ⟨p, hp, rfl⟩ := mem_mapIdx.mp hpart
    obtain ⟨p', hp', rfl⟩ := mem_mapIdx.mp hpart'
    obtain ⟨rfl, rfl⟩ := partitioned_injective same
    rw [hsql] at hsql'
    cases hsql'
    rw [hsplit] at hsplit'
    cases hsplit'
    exact filled

theorem stored_typed (fair : Fair executor.partition)
    (answers : Answers executor stage.stageSql schema)
    {each : List (List (StageTicket × List RecordBatch))}
    (all : List.Forall₂ (StoredFor executor queryId stage inputs) stage.targetWorkers each)
    (outputs : Outputs) :
    (∀ ticket ∈ each.flatten.map (·.1), ∃ batches,
      outputs.store each.flatten ticket.ticketId = some batches ∧
        ∀ b ∈ batches, b.schema = schema) ∧
    ((∃ ticket ∈ each.flatten.map (·.1), outputs.store each.flatten ticket.ticketId ≠ some []) ↔
      ∃ w ∈ stage.targetWorkers, Contributes executor stage inputs w) := by
  have owner : ∀ part ∈ each.flatten, ∃ w ∈ stage.targetWorkers, ∃ parts,
      StoredFor executor queryId stage inputs w parts ∧ part ∈ parts := by
    intro part hpart
    obtain ⟨parts, hparts, hpart⟩ := mem_flatten.mp hpart
    obtain ⟨w, hw, hfor⟩ := LdpAnnotate.exists_left_of_forall₂ all hparts
    exact ⟨w, hw, parts, hfor, hpart⟩
  refine ⟨fun ticket hticket => ?_, ?_, ?_⟩
  · obtain ⟨part, hpart, rfl⟩ := mem_map.mp hticket
    obtain ⟨other, hother, -, found⟩ := store_mem outputs hpart
    obtain ⟨w, -, parts, hfor, hmem⟩ := owner other hother
    exact ⟨other.2, found, (hfor.typed fair answers).1 other hmem⟩
  · rintro ⟨ticket, hticket, filled⟩
    obtain ⟨part, hpart, rfl⟩ := mem_map.mp hticket
    obtain ⟨other, hother, -, found⟩ := store_mem outputs hpart
    obtain ⟨w, hw, parts, hfor, hmem⟩ := owner other hother
    refine ⟨w, hw, (hfor.typed fair answers).2.mp ⟨other, hmem, fun empty => filled ?_⟩⟩
    rw [found, empty]
  · rintro ⟨w, hw, contributes⟩
    obtain ⟨parts, hparts, hfor⟩ := LdpAnnotate.exists_left_of_forall₂ all.flip hw
    have hfor : StoredFor executor queryId stage inputs w parts := hfor
    obtain ⟨part, hpart, filled⟩ := (hfor.typed fair answers).2.mpr contributes
    have hmem : part ∈ each.flatten := mem_flatten.mpr ⟨parts, hparts, hpart⟩
    refine ⟨part.1, mem_map_of_mem hmem, fun empty => ?_⟩
    obtain ⟨other, hother, same, found⟩ := store_mem outputs hmem
    obtain ⟨w', -, parts', hfor', hmem'⟩ := owner other hother
    rw [found] at empty
    exact hfor.same_ticket answers hpart hfor' hmem' same filled (Option.some.inj empty)

end Stored

/-- A worker returns the batches of its database as they are. -/
theorem executeStageWithDuckdb_ok {conn : TempTables.Connection} {temps : Finset String}
    {tables : List (String × List RecordBatch)}
    (h : (TempTables.executeStageWithDuckdb conn (.ok ()) false temps tables).2 = .ok batches) :
    ∃ found, conn.answer = .ok (found, batches) := by
  simp only [TempTables.executeStageWithDuckdb, Bool.false_eq_true, if_false] at h
  split at h
  · cases h
  · split at h
    · rename_i found batches' hanswer
      cases h
      exact ⟨found, hanswer⟩
    · cases h
    · cases h

def idSchema : Schema := [⟨"id", .int64⟩]

def noRows : LocalExecutor Unit where
  duckdb := ⟨(), fun _ _ _ => .ok (idSchema, [])⟩
  workerDatabases _ := none
  memorySize _ := 0
  debugDuration _ := ""
  lower := id
  partition batch _ n := if n = 0 then .error .noBatches else .ok (List.replicate n batch)

def noRowsStage (output : StageOutput) : SentStage := ⟨0, ["w1"], [], output, "SELECT 1", {}⟩

def exchangeOf (kind : Exchange) : ExchangeEdge := ⟨0, kind, 0, 1, ["w1", "w2"]⟩

def noRowsRemote : TempTables.Connection := ⟨fun _ => .done, .ok (idSchema, []), fun _ => true⟩

end Leibrix.EmptyResults
