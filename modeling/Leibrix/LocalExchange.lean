import Leibrix.ExchangeDelivery
import Leibrix.LdpShape

/-!
# Hash partitions in local mode

Every worker of a stage resolves its inputs by a call of its own, which splits all
upstream batches again and keeps the partitions that the worker owns. When the split is
the same on every call, the shares of the workers make up the upstream rows, whoever owns
which partitions.
-/

set_option autoImplicit false

namespace Leibrix.LocalExchange
open ArrowBatch HashRows LdpTypes LdpCut ExchangeRuntime ExchangeModes
open ExchangeDelivery SqlAst List

/-- A hash edge with a worker for each of its partitions. -/
structure Spreads (edge : ExchangeEdge) (columnRefs : List ColumnRef) (partitions : UInt32)
    (workers : Finset WorkerId) : Prop where
  kind : edge.kind = .hashPartition columnRefs partitions
  total : edge.partitionToWorker.length = partitions.toNat
  onto : ∀ w ∈ edge.partitionToWorker, w ∈ workers

variable {lower : String → String} {partition : Partitioner}
  {outputs : String → Option (List RecordBatch)} {stageOutputs : Nat → Option (List StageTicket)}

section Shares
variable {edge : ExchangeEdge} {columnRefs : List ColumnRef} {partitions : UInt32}
  {workers : Finset WorkerId} {tickets : List StageTicket}

def share (schema : Schema) (split : List (List RecordBatch)) (mine : List Nat) :
    List RecordBatch :=
  if mine.isEmpty then [.newEmpty schema]
  else orSchema schema (mine.flatMap fun p => split.flatMap (filledPartition · p))

theorem batchRows_share (schema : Schema) (split : List (List RecordBatch)) (mine : List Nat) :
    (batchRows (share schema split mine) : Multiset Row) =
      batchRows (split.flatMap fun parts => mine.flatMap (filledPartition parts)) := by
  unfold share
  split_ifs with hmine
  · have none : (split.flatMap fun _ => []) = ([] : List RecordBatch) := by simp
    rw [List.isEmpty_iff.mp hmine]
    simp only [flatMap_nil, none]
    simp [batchRows, RecordBatch.newEmpty]
  · rw [batchRows_orSchema, batchRows_swap]

theorem localInput_hash (hkind : edge.kind = .hashPartition columnRefs partitions)
    (hready : stageOutputs edge.fromStage = some tickets) (worker : WorkerId) :
    localInput lower partition outputs stageOutputs edge worker =
      executeHashPartitionForWorker lower partition outputs tickets columnRefs partitions.toNat
        edge.partitionToWorker worker := by
  simp only [localInput, hready, executeExchangeForWorker, hkind]

theorem executeHashPartitionForWorker_share {first : RecordBatch} {rest : List RecordBatch}
    {refs : List Nat} {numPartitions : Nat} {split : RecordBatch → List RecordBatch}
    (hfetch : fetchOutputs outputs tickets = .ok (first::rest))
    (hrefs : resolveColumnIndices lower columnRefs first.schema = .ok refs)
    (hsplit : ∀ batch, partition batch refs numPartitions = .ok (split batch))
    (partitionToWorker : List WorkerId) (worker : WorkerId) :
    executeHashPartitionForWorker lower partition outputs tickets columnRefs numPartitions
        partitionToWorker worker =
      .ok (share first.schema ((first::rest).map split)
        (localPartitions partitionToWorker worker)) := by
  have all : ((first::rest).mapM fun batch => partition batch refs numPartitions) =
      .ok ((first::rest).map split) := mapM_eq_ok fun batch _ => hsplit batch
  simp only [executeHashPartitionForWorker, hfetch, hrefs, all, bind, Except.bind, share]
  split_ifs <;> rfl

/-- Each worker resolves the edge with the same error, or all of them resolve it and their shares
make up the upstream rows. -/
theorem localInput_covers (lower : String → String)
    (hspread : Spreads edge columnRefs partitions workers)
    (hkeeps : ∀ batch refs, Keeps batch partitions.toNat (partition batch refs partitions.toNat))
    (hready : stageOutputs edge.fromStage = some tickets) {batches : List RecordBatch}
    (hfetch : fetchOutputs outputs tickets = .ok batches) :
    (∃ inputs : WorkerId → List RecordBatch,
      (∀ w ∈ workers, localInput lower partition outputs stageOutputs edge w = .ok (inputs w)) ∧
        ∑ w ∈ workers, (batchRows (inputs w) : Multiset Row) = batchRows batches) ∨
      ∃ first error, batches.head? = some first ∧
        resolveColumnIndices lower columnRefs first.schema = .error error ∧
        ∀ w, localInput lower partition outputs stageOutputs edge w = .error error := by
  cases batches with
  | nil =>
    refine .inl ⟨fun _ => [], fun w _ => ?_, by simp [batchRows]⟩
    rw [localInput_hash hspread.kind hready]
    simp only [executeHashPartitionForWorker, hfetch, bind, Except.bind]
    rfl
  | cons first rest =>
    cases hrefs : resolveColumnIndices lower columnRefs first.schema with
    | error error =>
      refine .inr ⟨first, error, rfl, hrefs, fun w => ?_⟩
      rw [localInput_hash hspread.kind hready]
      simp only [executeHashPartitionForWorker, hfetch, hrefs, bind, Except.bind]
    | ok refs =>
      left
      choose split hsplit hlength hrows using fun batch => hkeeps batch refs
      refine ⟨fun w => share first.schema ((first::rest).map split)
        (localPartitions edge.partitionToWorker w), fun w _ => ?_, ?_⟩
      · rw [localInput_hash hspread.kind hready]
        exact executeHashPartitionForWorker_share hfetch hrefs hsplit _ w
      · rw [Finset.sum_congr rfl fun w _ => batchRows_share _ _ _]
        exact sum_all_shares hspread.onto split
          (fun batch => (hlength batch).trans hspread.total.symm) hrows (first::rest)

end Shares

section Inputs
variable {plan : LdpPlan} {worker : WorkerId}

def IsNamed (tableName : String) : StageInput → Prop
  | .localCatalog => False
  | .exchangeInput _ name => name = tableName

variable {tableName : String} {inputs : Inputs}

variable {inputs' : Inputs}

theorem addLocalInput_other {input : StageInput} (hother : ¬ IsNamed tableName input)
    (h : addLocalInput lower partition outputs plan worker stageOutputs inputs input =
      .ok inputs') : inputs' tableName = inputs tableName := by
  cases input with
  | localCatalog =>
    cases h
    rfl
  | exchangeInput exchangeId name =>
    rw [addLocalInput] at h
    cases hedge : plan.edges.find? (·.exchangeId = exchangeId) with
    | none =>
      rw [hedge] at h
      cases h
    | some edge =>
      rw [hedge] at h
      obtain ⟨batches, -, h⟩ := bind_eq_ok.mp h
      cases h
      exact if_neg (Ne.symm hother)

theorem foldlM_other {list : List StageInput} (hother : ∀ input ∈ list, ¬ IsNamed tableName input)
    (h : list.foldlM (addLocalInput lower partition outputs plan worker stageOutputs) inputs =
      .ok inputs') : inputs' tableName = inputs tableName := by
  induction list generalizing inputs with
  | nil =>
    cases h
    rfl
  | cons input list ih =>
    rw [foldlM_cons] at h
    obtain ⟨next, hnext, h⟩ := bind_eq_ok.mp h
    rw [ih (fun i hi => hother i (mem_cons_of_mem input hi)) h]
    exact addLocalInput_other (hother input mem_cons_self) hnext

theorem resolveInputsForWorker_input {stageId : Nat} {stage : Stage} {edge : ExchangeEdge}
    {before after : List StageInput} (hstage : plan.stages.find? (·.stageId = stageId) = some stage)
    (hinputs : stage.inputs = before ++ .exchangeInput edge.exchangeId tableName :: after)
    (hafter : ∀ input ∈ after, ¬ IsNamed tableName input)
    (hedge : plan.edges.find? (·.exchangeId = edge.exchangeId) = some edge)
    (h : resolveInputsForWorker lower partition outputs plan stageId worker stageOutputs =
      .ok inputs) :
    ∃ batches, localInput lower partition outputs stageOutputs edge worker = .ok batches ∧
      inputs tableName = some batches := by
  simp only [resolveInputsForWorker, hstage, hinputs, foldlM_append, foldlM_cons] at h
  obtain ⟨first, -, h⟩ := bind_eq_ok.mp h
  obtain ⟨next, hnext, h⟩ := bind_eq_ok.mp h
  simp only [addLocalInput, hedge] at hnext
  obtain ⟨batches, hbatches, hnext⟩ := bind_eq_ok.mp hnext
  cases hnext
  exact ⟨batches, hbatches, (foldlM_other hafter h).trans (if_pos rfl)⟩

end Inputs

/-- The workers of a hash edge get every upstream row once between them: by the edge alone, unless
its key columns are not there, and in the inputs of every stage that reads the edge. -/
theorem local_hash_covers_once (lower : String → String) (partition : Partitioner)
    (outputs : String → Option (List RecordBatch))
    (stageOutputs : Nat → Option (List StageTicket)) {edge : ExchangeEdge}
    {columnRefs : List ColumnRef} {partitions : UInt32} {workers : Finset WorkerId}
    (hspread : Spreads edge columnRefs partitions workers)
    (hkeeps : ∀ batch refs, Keeps batch partitions.toNat (partition batch refs partitions.toNat))
    {tickets : List StageTicket} (hready : stageOutputs edge.fromStage = some tickets)
    {batches : List RecordBatch} (hfetch : fetchOutputs outputs tickets = .ok batches) :
    ((∃ inputs : WorkerId → List RecordBatch,
      (∀ w ∈ workers, localInput lower partition outputs stageOutputs edge w = .ok (inputs w)) ∧
        ∑ w ∈ workers, (batchRows (inputs w) : Multiset Row) = batchRows batches) ∨
      ∃ first error, batches.head? = some first ∧
        resolveColumnIndices lower columnRefs first.schema = .error error ∧
        ∀ w, localInput lower partition outputs stageOutputs edge w = .error error) ∧
    ∀ (plan : LdpPlan) (stageId : Nat) (stage : Stage) (tableName : String)
      (before after : List StageInput) (inputs : WorkerId → Inputs),
      plan.stages.find? (·.stageId = stageId) = some stage →
      stage.inputs = before ++ .exchangeInput edge.exchangeId tableName :: after →
      (∀ input ∈ after, ¬ IsNamed tableName input) →
      plan.edges.find? (·.exchangeId = edge.exchangeId) = some edge →
      (∀ w ∈ workers, resolveInputsForWorker lower partition outputs plan stageId w stageOutputs =
        .ok (inputs w)) →
      ∑ w ∈ workers, (batchRows ((inputs w tableName).getD []) : Multiset Row) =
        batchRows batches := by
  have covers := localInput_covers lower hspread hkeeps hready hfetch
  refine ⟨covers, ?_⟩
  intro plan stageId stage tableName before after inputs hstage hinputs hafter hedge hresolved
  have read (w : WorkerId) (hw : w ∈ workers) :=
    resolveInputsForWorker_input hstage hinputs hafter hedge (hresolved w hw)
  obtain ⟨shares, hshares, hsum⟩ | ⟨first, error, hfirst, -, herror⟩ := covers
  · rw [← hsum]
    refine Finset.sum_congr rfl fun w hw => ?_
    obtain ⟨got, hgot, htable⟩ := read w hw
    cases (hshares w hw).symm.trans hgot
    rw [htable, Option.getD_some]
  · have hlength : 0 < edge.partitionToWorker.length := hspread.total ▸ pos_of_keeps hkeeps
    have hw := hspread.onto _ (getElem_mem hlength)
    obtain ⟨got, hgot, -⟩ := read _ hw
    cases (herror _).symm.trans hgot

/-- Two upstream workers with a row each; of the three workers after them the first owns two
partitions and the last none. -/
theorem local_hash_covers_once_uneven :
    ∃ inputs : WorkerId → List RecordBatch,
      (∀ w ∈ ({"w0", "w1", "w2"} : Finset WorkerId),
        localInput id Shuffle.firstPartition (fun id => some [textBatch [id]])
          (fun _ => some [.new "q" 0 "w0", .new "q" 0 "w1"])
          ⟨0, .hashPartition [⟨none, "k"⟩] 3, 0, 1, ["w0", "w1", "w0"]⟩ w = .ok (inputs w)) ∧
        ∑ w ∈ ({"w0", "w1", "w2"} : Finset WorkerId), (batchRows (inputs w) : Multiset Row) =
          batchRows [textBatch ["stage_0_worker_w0"], textBatch ["stage_0_worker_w1"]] := by
  have spread : Spreads ⟨0, .hashPartition [⟨none, "k"⟩] 3, 0, 1, ["w0", "w1", "w0"]⟩
      [⟨none, "k"⟩] 3 {"w0", "w1", "w2"} := ⟨rfl, rfl, by decide⟩
  have covers := (local_hash_covers_once id Shuffle.firstPartition
    (fun id => some [textBatch [id]]) (fun _ => some [.new "q" 0 "w0", .new "q" 0 "w1"]) spread
    (fun batch refs => Shuffle.firstPartition_keeps batch refs (by decide)) rfl rfl).1
  obtain delivered | ⟨first, error, hfirst, herror, -⟩ := covers
  · exact delivered
  · cases hfirst
    cases herror

end Leibrix.LocalExchange
