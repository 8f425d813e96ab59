import Leibrix.ExchangeModes

/-!
# Delivery over a hash partition in distributed mode

A stage has run on its workers through the network and the coordinator has registered
the tickets. The workers of the next stage each resolve their share of an edge. Over
all of them, every upstream row should arrive once. The answer of a worker is only
known for the bytes that it handed out itself.
-/

set_option autoImplicit false

namespace Leibrix.ExchangeDelivery
open ArrowBatch HashRows LdpTypes LdpCut ExchangeRuntime ExchangeModes SpreadBag
open List Option Finset

variable {bytes : Bytes}

section Registry

variable {queryId : String} {stageId : Nat} {w w' : WorkerId}

theorem ticketKey_inj : ticketKey queryId stageId w = ticketKey queryId stageId w' ↔ w = w' := by
  rw [ticketKey, ticketKey]
  exact String.append_right_inj _

theorem registerTickets_append (remote : RemoteTickets) (a b : List StageTicket) :
    registerTickets remote (a ++ b) = registerTickets (registerTickets remote a) b :=
  foldl_append

/-- Of the tickets of one worker the last one stays registered. -/
theorem registerTickets_worker {v : WorkerId} {tickets : List StageTicket}
    (h : ∀ t ∈ tickets, t.queryId = queryId ∧ t.stageId = stageId ∧ t.workerId = v)
    (remote : RemoteTickets) : registerTickets remote tickets (ticketKey queryId stageId w) =
      if v = w then
        (tickets.getLast?.map (·.registeredBytes)).or (remote (ticketKey queryId stageId w))
      else remote (ticketKey queryId stageId w) := by
  induction tickets using reverseRecOn with
  | nil => simp [registerTickets]
  | append_singleton tickets t ih =>
    obtain ⟨rfl, rfl, rfl⟩ := h t (by simp)
    rw [registerTickets_append]
    change registerTicket _ t _ = _
    rw [registerTicket, ih fun t ht => h t (by simp [ht])]
    by_cases hv : t.workerId = w
    · simp [hv]
    · simp [hv, ticketKey_inj, Ne.symm hv]

variable {ws : List WorkerId}

theorem registerTickets_flatMap {block : WorkerId → List StageTicket} {remote : RemoteTickets}
    (h : ∀ v, ∀ t ∈ block v, t.queryId = queryId ∧ t.stageId = stageId ∧ t.workerId = v)
    (hlast : (block w).getLast?.map (·.registeredBytes) = some bytes) :
    registerTickets remote (ws.flatMap block) (ticketKey queryId stageId w) =
      if w ∈ ws then some bytes else remote (ticketKey queryId stageId w) := by
  induction ws generalizing remote with
  | nil => rfl
  | cons v vs ih =>
    rw [flatMap_cons, registerTickets_append, ih, registerTickets_worker (h v)]
    by_cases hv : v = w
    · subst hv
      simp [hlast]
    · simp [hv, Ne.symm hv]

variable {resultTicket : WorkerId → Bytes}

theorem registered_stream (remote : RemoteTickets) (hw : w ∈ ws) :
    registerTickets remote (submitStage queryId stageId .stream resultTicket ws)
      (ticketKey queryId stageId w) = some (resultTicket w) := by
  rw [submitStage, registerTickets_flatMap _ rfl, if_pos hw]
  · rfl
  · simp [workerTickets, StageTicket.new]

def lastPartitionBytes (queryId : String) (stageId : Nat) (w : WorkerId) (m : Nat) : Bytes :=
  asBytes (StageTicket.partitioned queryId stageId w (m - 1)).ticketId

variable {partitions : UInt32} {cols : List ColumnRef}

/-- A partitioned output is registered with the name of its last partition. -/
theorem registered_partitioned (remote : RemoteTickets) (hw : w ∈ ws) (hm : 0 < partitions.toNat) :
    registerTickets remote (submitStage queryId stageId (.partitioned partitions cols) resultTicket
      ws) (ticketKey queryId stageId w) =
        some (lastPartitionBytes queryId stageId w partitions.toNat) := by
  rw [submitStage, registerTickets_flatMap, if_pos hw]
  · simp [workerTickets, StageTicket.partitioned]
  · simp only [workerTickets, getLast?_map, getLast?_range, Nat.ne_of_gt hm, if_false]
    rfl

theorem workers_stream : (submitStage queryId stageId .stream resultTicket ws).map (·.workerId) =
    ws := by
  rw [submitStage]
  induction ws with
  | nil => rfl
  | cons w ws ih => rw [flatMap_cons, map_append, ih]; rfl

theorem workers_partitioned :
    (submitStage queryId stageId (.partitioned partitions cols) resultTicket ws).map (·.workerId) =
      ws.flatMap (List.replicate partitions.toNat) := by
  rw [submitStage, map_flatMap]
  apply flatMap_congr
  intro w _
  rw [workerTickets, List.map_map]
  apply eq_replicate_iff.mpr
  simp [StageTicket.partitioned]

end Registry

variable {n : Nat}

section Totals

variable {D : Finset WorkerId} {ptw : List WorkerId}

theorem sum_localPartitions (hD : ∀ w ∈ ptw, w ∈ D) :
    ∑ d ∈ D, (localPartitions ptw d : Multiset Nat) = List.range ptw.length := by
  have owner : ∀ p ∈ (List.range ptw.length : Multiset Nat), ∃ w ∈ D, ptw[p]? = some w := by
    intro p hp
    have hlt : p < ptw.length := by simpa using hp
    exact ⟨ptw[p], hD _ (getElem_mem hlt), getElem?_eq_getElem hlt⟩
  have whole := sum_filter_some owner
  simpa [localPartitions] using whole

theorem batchRows_filledPartition (parts : List RecordBatch) (p : Nat) :
    batchRows (filledPartition parts p) = batchRows parts[p]?.toList := by
  rw [filledPartition]
  cases parts[p]? with
  | none => rfl
  | some part => by_cases h : part.rows = [] <;> simp [batchRows, h]

theorem flatMap_range_getElem? (parts : List RecordBatch) :
    (List.range parts.length).flatMap (fun p => batchRows parts[p]?.toList) = batchRows parts := by
  induction parts with
  | nil => rfl
  | cons part rest ih =>
    rw [length_cons, range_succ_eq_map, flatMap_cons, flatMap_map]
    simp only [getElem?_cons_succ]
    rw [ih]
    simp [batchRows]

theorem sum_shares (hD : ∀ w ∈ ptw, w ∈ D) {parts : List RecordBatch}
    (hlen : parts.length = ptw.length) :
    ∑ d ∈ D, (batchRows ((localPartitions ptw d).flatMap (filledPartition parts)) :
      Multiset Row) = batchRows parts := by
  have share (d : WorkerId) :
      (batchRows ((localPartitions ptw d).flatMap (filledPartition parts)) : Multiset Row) =
        (localPartitions ptw d : Multiset Nat).bind fun p => batchRows parts[p]?.toList := by
    rw [Multiset.coe_bind, batchRows, flatMap_assoc]
    congr 1
    exact flatMap_congr fun p _ => batchRows_filledPartition parts p
  rw [sum_congr rfl fun d _ => share d,
    ← sum_hom (·.bind _) rfl fun A B => Multiset.add_bind A B _, sum_localPartitions hD, ← hlen,
    Multiset.coe_bind, flatMap_range_getElem?]

theorem sum_all_shares (hD : ∀ w ∈ ptw, w ∈ D) (split : RecordBatch → List RecordBatch)
    (hlen : ∀ b, (split b).length = ptw.length)
    (hrows : ∀ b, (batchRows (split b) : Multiset Row) = b.rows) (batches : List RecordBatch) :
    ∑ d ∈ D, (batchRows ((batches.map split).flatMap fun parts =>
      (localPartitions ptw d).flatMap (filledPartition parts)) : Multiset Row) =
        batchRows batches := by
  induction batches with
  | nil => simp [batchRows]
  | cons b rest ih =>
    simp only [List.map_cons, flatMap_cons, batchRows_append, ← Multiset.coe_add,
      sum_add_distrib, ih, sum_shares hD (hlen b), hrows]
    rfl

theorem pos_of_keeps {partition : Partitioner}
    (hkeeps : ∀ batch refs, Keeps batch n (partition batch refs n)) : 0 < n := by
  by_contra hzero
  obtain ⟨parts, -, hlen, hrows⟩ := hkeeps (textBatch ["a"]) []
  have hnil : parts = [] := length_eq_zero_iff.mp (by omega)
  rw [hnil] at hrows
  simp [batchRows, textBatch] at hrows

end Totals

/-- A stage that has run on a set of workers, and a hash partition of its output over the workers
of the next stage. -/
structure Shuffle where
  queryId : String
  stageId : Nat
  workers : List WorkerId
  nodup : workers.Nodup
  output : StageOutput
  /-- The bytes that a worker handed out for its result. -/
  resultTicket : WorkerId → Bytes
  result : WorkerId → List RecordBatch
  columnRefs : List ColumnRef
  partitions : UInt32
  downstream : Finset WorkerId
  partitionToWorker : List WorkerId
  total : partitionToWorker.length = partitions.toNat
  onto : ∀ w ∈ partitionToWorker, w ∈ downstream

namespace Shuffle

variable (s : Shuffle)

def edge : ExchangeEdge where
  exchangeId := 0
  kind := .hashPartition s.columnRefs s.partitions
  fromStage := s.stageId
  toStage := s.stageId + 1
  partitionToWorker := s.partitionToWorker

def tickets : List StageTicket :=
  submitStage s.queryId s.stageId s.output s.resultTicket s.workers

def rows : Multiset Row := batchRows (s.workers.flatMap s.result)

/-- Each upstream worker gives out its result for its own bytes. -/
def Answers (network : Network) : Prop :=
  ∀ w ∈ s.workers, ∃ endpoint, network.endpoint w = some endpoint ∧
    network.doGet endpoint (s.resultTicket w) = .ok (s.result w)

section Delivery

variable (lower : String → String) (partition : Partitioner) (prior : RemoteTickets)

/-- All downstream workers resolve the edge, and their shares make up some rows. -/
def Delivers (network : Network) (rows : Multiset Row) : Prop :=
  ∃ inputs : WorkerId → List RecordBatch,
    (∀ d ∈ s.downstream, executeEdge lower partition network (registerTickets prior s.tickets)
      s.queryId s.edge s.tickets d = .ok (inputs d)) ∧
    ∑ d ∈ s.downstream, (batchRows (inputs d) : Multiset Row) = rows

def Resolvable (batches : List RecordBatch) : Prop :=
  ∀ first ∈ batches.head?, ∃ refs, resolveColumnIndices lower s.columnRefs first.schema = .ok refs

/-- When every upstream row arrives once, whatever the workers answer to other bytes. -/
def Deliverable : Prop :=
  match s.output with
  | .stream => s.Resolvable lower (s.workers.flatMap s.result)
  | .partitioned partitions _ =>
    if partitions.toNat = 0 then s.rows = 0
    else (∀ w ∈ s.workers,
        s.resultTicket w = lastPartitionBytes s.queryId s.stageId w partitions.toNat) ∧
      s.Resolvable lower (s.workers.flatMap s.result) ∧ (partitions.toNat = 1 ∨ s.rows = 0)

variable {s} {lower partition prior}

theorem eq_ok_iff {α ε : Type} {x : Except ε α} {a : α} : x = .ok a ↔ x.toOption = some a := by
  cases x <;> simp

theorem collect_some (r : WorkerId → List RecordBatch) (ws : List WorkerId) :
    collect (fun w => some (r w)) ws = some (ws.flatMap r) := by
  induction ws with
  | nil => rfl
  | cons w ws ih => rw [collect_cons, ih]; rfl

theorem executeEdge_toOption (network : Network) (remote : RemoteTickets) (d : WorkerId) :
    (executeEdge lower partition network remote s.queryId s.edge s.tickets d).toOption =
      (executeHashPartition lower partition network remote s.queryId s.stageId
        (s.tickets.map (·.workerId)) s.columnRefs s.partitions.toNat s.partitionToWorker
        d).toOption :=
  toOption_mapError _ _

variable {network : Network} {w : WorkerId} {partitions : UInt32} {cols : List ColumnRef}

theorem downstream_nonempty (h : 0 < s.partitions.toNat) : s.downstream.Nonempty := by
  have hlt : 0 < s.partitionToWorker.length := s.total ▸ h
  exact ⟨_, s.onto _ (getElem_mem hlt)⟩

variable (s prior) in
abbrev fetched (network : Network) (w : WorkerId) : Option (List RecordBatch) :=
  (fetchFromWorker network (registerTickets prior s.tickets) s.queryId s.stageId w).toOption

/-- When all sources answer, the shares make up what they answered. -/
theorem delivers_iff_of_fetched {r : WorkerId → List RecordBatch}
    (hkeeps : ∀ batch refs, Keeps batch s.partitions.toNat
      (partition batch refs s.partitions.toNat))
    (hfetch : ∀ w ∈ s.tickets.map (·.workerId), s.fetched prior network w = some (r w))
    (X : Multiset Row) : s.Delivers lower partition prior network X ↔
      s.Resolvable lower ((s.tickets.map (·.workerId)).flatMap r) ∧
        (batchRows ((s.tickets.map (·.workerId)).flatMap r) : Multiset Row) = X := by
  have exec (d : WorkerId) := (s.executeEdge_toOption network
    (registerTickets prior s.tickets) d).trans
      (hashRemote_toOption lower partition network (registerTickets prior s.tickets) s.queryId
        (fun w => some (r w)) s.columnRefs s.partitions.toNat s.partitionToWorker d hfetch)
  simp only [Delivers, eq_ok_iff, exec, collect_some, bind_some]
  generalize (s.tickets.map (·.workerId)).flatMap r = all
  cases all with
  | nil =>
    constructor
    · rintro ⟨inputs, hinputs, rfl⟩
      refine ⟨nofun, ?_⟩
      rw [sum_congr rfl fun d hd => by rw [← Option.some.inj (hinputs d hd)]]
      simp [batchRows]
    · rintro ⟨-, rfl⟩
      exact ⟨fun _ => [], fun _ _ => rfl, by simp [batchRows]⟩
  | cons first rest =>
    cases hcols : resolveColumnIndices lower s.columnRefs first.schema with
    | error e =>
      have not_resolvable : ¬ s.Resolvable lower (first::rest) := by
        intro h
        obtain ⟨refs, hrefs⟩ := h first rfl
        simp [hcols] at hrefs
      obtain ⟨d, hd⟩ := downstream_nonempty (pos_of_keeps hkeeps)
      constructor
      · rintro ⟨inputs, hinputs, -⟩
        simpa [hcols] using hinputs d hd
      · exact fun h => absurd h.1 not_resolvable
    | ok refs =>
      have resolvable : s.Resolvable lower (first::rest) := by
        intro f hf
        obtain rfl := Option.some.inj hf
        exact ⟨refs, hcols⟩
      choose split hsplit hlen hrows using fun batch => hkeeps batch refs
      have all : ((first::rest).mapM fun batch => partition batch refs s.partitions.toNat) =
          .ok ((first::rest).map split) := mapM_eq_ok fun batch _ => hsplit batch
      have sums := sum_all_shares s.onto split (fun b => (hlen b).trans s.total.symm) hrows
        (first::rest)
      simp only [hcols, toOption_ok, bind_some, all, map_some, Option.some.injEq]
      constructor
      · rintro ⟨inputs, hinputs, rfl⟩
        refine ⟨resolvable, ?_⟩
        rw [← sums]
        exact sum_congr rfl fun d hd => by rw [← hinputs d hd, batchRows_orSchema]
      · rintro ⟨-, rfl⟩
        refine ⟨_, fun _ _ => rfl, ?_⟩
        rw [← sums]
        exact sum_congr rfl fun d _ => by rw [batchRows_orSchema]

theorem fetch_of_registered {endpoint : String}
    (hbytes : registerTickets prior s.tickets (ticketKey s.queryId s.stageId w) = some bytes)
    (hend : network.endpoint w = some endpoint) :
    s.fetched prior network w = (network.doGet endpoint bytes).toOption := by
  simp only [fetched, fetchFromWorker, hbytes, hend]
  cases network.doGet endpoint bytes <;> rfl

theorem fetch_own (hanswers : s.Answers network) (hw : w ∈ s.workers)
    (hown : registerTickets prior s.tickets
      (ticketKey s.queryId s.stageId w) = some (s.resultTicket w)) :
    s.fetched prior network w = some (s.result w) := by
  obtain ⟨endpoint, hend, hget⟩ := hanswers w hw
  rw [fetch_of_registered hown hend, hget]
  rfl

theorem registered_last (hout : s.output = .partitioned partitions cols) (hm : 0 < partitions.toNat)
    (hw : w ∈ s.workers) : registerTickets prior s.tickets (ticketKey s.queryId s.stageId w) =
      some (lastPartitionBytes s.queryId s.stageId w partitions.toNat) := by
  rw [tickets, hout]
  exact registered_partitioned prior hw hm

theorem sources_stream (h : s.output = .stream) : s.tickets.map (·.workerId) = s.workers := by
  rw [tickets, h]
  exact workers_stream

theorem sources_partitioned (h : s.output = .partitioned partitions cols) :
    s.tickets.map (·.workerId) = s.workers.flatMap (List.replicate partitions.toNat) := by
  rw [tickets, h]
  exact workers_partitioned

theorem rows_replicate (w : WorkerId) (r : WorkerId → List RecordBatch) (m : Nat) :
    (batchRows ((List.replicate m w).flatMap r) : Multiset Row) =
      m • (batchRows (r w) : Multiset Row) := by
  induction m with
  | zero => simp [batchRows]
  | succ m ih =>
    rw [replicate_succ, flatMap_cons, batchRows_append, ← Multiset.coe_add, succ_nsmul',
      ih]

theorem rows_replicated (ws : List WorkerId) (r : WorkerId → List RecordBatch) (m : Nat) :
    (batchRows ((ws.flatMap (List.replicate m)).flatMap r) : Multiset Row) =
      m • (batchRows (ws.flatMap r) : Multiset Row) := by
  induction ws with
  | nil => simp [batchRows]
  | cons w ws ih =>
    simp only [flatMap_cons, flatMap_append, batchRows_append, ← Multiset.coe_add, ih,
      rows_replicate, smul_add]

theorem head?_replicated (ws : List WorkerId) (r : WorkerId → List RecordBatch) {m : Nat}
    (hm : 0 < m) : ((ws.flatMap (List.replicate m)).flatMap r).head? = (ws.flatMap r).head? := by
  obtain ⟨k, rfl⟩ : ∃ k, m = k + 1 := ⟨m - 1, by omega⟩
  induction ws with
  | nil => rfl
  | cons w ws ih =>
    rw [flatMap_cons, flatMap_append, flatMap_cons]
    cases hr : r w with
    | nil =>
      have none : (replicate (k + 1) w).flatMap r = [] := by simp [hr]
      rw [none]
      exact ih
    | cons b bs => simp [replicate_succ, hr]

def strictNetwork (s : Shuffle) : Network where
  endpoint := some
  doGet w bytes := if bytes = s.resultTicket w then .ok (s.result w) else .error "Unknown ticket"

theorem strictNetwork_answers : s.Answers s.strictNetwork :=
  fun w _ => ⟨w, rfl, if_pos rfl⟩

theorem not_delivers_of_unknown (hout : s.output = .partitioned partitions cols)
    (hm : 0 < partitions.toNat) (hsome : s.downstream.Nonempty) (hw : w ∈ s.workers)
    (hbytes : s.resultTicket w ≠ lastPartitionBytes s.queryId s.stageId w partitions.toNat)
    (X : Multiset Row) : ¬ s.Delivers lower partition prior s.strictNetwork X := by
  rintro ⟨inputs, hinputs, -⟩
  obtain ⟨d, hd⟩ := hsome
  have failed : s.fetched prior s.strictNetwork w = none := by
    rw [fetch_of_registered (registered_last hout hm hw) rfl]
    simp [strictNetwork, hbytes.symm]
  have source : w ∈ s.tickets.map (·.workerId) := by
    rw [sources_partitioned hout, mem_flatMap]
    exact ⟨w, hw, by simp [Nat.pos_iff_ne_zero.mp hm]⟩
  have missing : collect (s.fetched prior s.strictNetwork) (s.tickets.map (·.workerId)) =
      none := by
    rw [collect, map_eq_none_iff, ← not_isSome_iff_eq_none, mapM_isSome_iff]
    intro h
    simpa [failed] using h w source
  have exec := (s.executeEdge_toOption s.strictNetwork (registerTickets prior s.tickets) d).trans
    (hashRemote_toOption lower partition s.strictNetwork (registerTickets prior s.tickets)
      s.queryId _ s.columnRefs s.partitions.toNat s.partitionToWorker d fun _ _ => rfl)
  rw [missing, hinputs d hd] at exec
  simp at exec

variable
  (hkeeps : ∀ batch refs, Keeps batch s.partitions.toNat (partition batch refs s.partitions.toNat))
include hkeeps

theorem delivers_stream_iff (hout : s.output = .stream) (hanswers : s.Answers network) :
    s.Delivers lower partition prior network s.rows ↔
      s.Resolvable lower (s.workers.flatMap s.result) := by
  have fetched : ∀ w ∈ s.tickets.map (·.workerId),
      s.fetched prior network w = some (s.result w) := by
    intro w hw
    rw [sources_stream hout] at hw
    refine fetch_own hanswers hw ?_
    rw [tickets, hout]
    exact registered_stream prior hw
  rw [delivers_iff_of_fetched hkeeps fetched, sources_stream hout]
  exact and_iff_left rfl

theorem delivers_partitioned_iff (hout : s.output = .partitioned partitions cols)
    (hm : 0 < partitions.toNat) (hbytes : ∀ w ∈ s.workers,
      s.resultTicket w = lastPartitionBytes s.queryId s.stageId w partitions.toNat)
    (hanswers : s.Answers network) : s.Delivers lower partition prior network s.rows ↔
      s.Resolvable lower (s.workers.flatMap s.result) ∧ (partitions.toNat = 1 ∨ s.rows = 0) := by
  have fetched : ∀ w ∈ s.tickets.map (·.workerId),
      s.fetched prior network w = some (s.result w) := by
    intro w hw
    rw [sources_partitioned hout, mem_flatMap] at hw
    obtain ⟨v, hv, hvw⟩ := hw
    obtain rfl := eq_of_mem_replicate hvw
    refine fetch_own hanswers hv ?_
    rw [hbytes w hv]
    exact registered_last hout hm hv
  rw [delivers_iff_of_fetched hkeeps fetched, sources_partitioned hout, rows_replicated, ← rows,
    nsmul_eq_self_iff hm, Resolvable, head?_replicated _ _ hm, ← Resolvable]

omit hkeeps

/-- Every upstream row arrives at one downstream worker, whatever the workers answer to bytes that
they did not hand out, just when the output was streamed and its key columns are found, or it was
partitioned and either has no rows to deliver in too many or too few copies, or the workers happened
to hand out the coordinator's own names for their last partitions. -/
theorem delivered_once_iff (s : Shuffle) (lower : String → String) (partition : Partitioner)
    (prior : RemoteTickets) (hkeeps : ∀ batch refs, Keeps batch s.partitions.toNat
      (partition batch refs s.partitions.toNat)) :
    (∀ network, s.Answers network → s.Delivers lower partition prior network s.rows) ↔
      s.Deliverable lower := by
  rw [Deliverable]
  cases hout : s.output with
  | stream =>
    constructor
    · exact fun h => (delivers_stream_iff hkeeps hout strictNetwork_answers).mp
        (h _ strictNetwork_answers)
    · exact fun h network hnet => (delivers_stream_iff hkeeps hout hnet).mpr h
  | partitioned partitions cols =>
    by_cases hm : partitions.toNat = 0
    · -- no tickets, so nothing is fetched
      have none : s.tickets.map (·.workerId) = [] := by
        rw [sources_partitioned hout, hm]
        simp
      have empty (network : Network) :
          s.Delivers lower partition prior network s.rows ↔ s.rows = 0 := by
        rw [delivers_iff_of_fetched (r := fun _ => []) hkeeps (by simp [none]), none]
        simp [Resolvable, batchRows, eq_comm]
      simp only [hm, if_true, empty]
      exact ⟨fun h => h _ strictNetwork_answers, fun h _ _ => h⟩
    · have hpos : 0 < partitions.toNat := Nat.pos_of_ne_zero hm
      simp only [hm, if_false]
      constructor
      · intro h
        have hbytes : ∀ w ∈ s.workers, s.resultTicket w =
            lastPartitionBytes s.queryId s.stageId w partitions.toNat := by
          intro w hw
          by_contra hne
          exact not_delivers_of_unknown hout hpos (downstream_nonempty (pos_of_keeps hkeeps)) hw
            hne _ (h _ strictNetwork_answers)
        exact ⟨hbytes, (delivers_partitioned_iff hkeeps hout hpos hbytes strictNetwork_answers).mp
          (h _ strictNetwork_answers)⟩
      · rintro ⟨hbytes, hrest⟩ network hnet
        exact (delivers_partitioned_iff hkeeps hout hpos hbytes hnet).mpr hrest

end Delivery

def firstPartition : Partitioner := fun batch _ n =>
  .ok ((List.replicate n (.newEmpty batch.schema)).set 0 batch)

theorem firstPartition_keeps (batch : RecordBatch) (refs : List Nat) (hn : 0 < n) :
    Keeps batch n (firstPartition batch refs n) := by
  obtain ⟨m, rfl⟩ : ∃ m, n = m + 1 := ⟨n - 1, by omega⟩
  refine ⟨_, rfl, by simp, ?_⟩
  have none : (replicate m (RecordBatch.newEmpty batch.schema)).flatMap (·.rows) = [] := by
    simp [RecordBatch.newEmpty]
  simp [batchRows, replicate_succ, none]

def pair (output : StageOutput) : Shuffle where
  queryId := "q"
  stageId := 0
  workers := ["w0", "w1"]
  nodup := by decide
  output := output
  resultTicket _ := []
  result w := [textBatch [w]]
  columnRefs := [⟨none, "k"⟩]
  partitions := 2
  downstream := {"w0", "w1"}
  partitionToWorker := ["w0", "w1"]
  total := rfl
  onto := by decide

theorem delivered_once_iff_stream :
    (pair .stream).Answers (pair .stream).strictNetwork ∧
      (pair .stream).Delivers id firstPartition (fun _ => none) (pair .stream).strictNetwork
        (pair .stream).rows :=
  ⟨strictNetwork_answers, (delivered_once_iff (pair .stream) id firstPartition (fun _ => none)
    fun batch refs => firstPartition_keeps batch refs (by decide)).mpr
      (fun _ hfirst => ⟨[0], by obtain rfl := Option.some.inj hfirst; rfl⟩) _
      strictNetwork_answers⟩

def openNetwork (s : Shuffle) : Network where
  endpoint := some
  doGet w _ := .ok (s.result w)

/-- The output that the planner gives a stage before a hash partition. -/
def shuffled : Shuffle := pair (.partitioned 2 [⟨none, "k"⟩])

/-- A partitioned output cannot be fetched by workers that know their own tickets only, and from
those that answer to any bytes it arrives twice. -/
theorem partitioned_not_once :
    (shuffled.Answers shuffled.strictNetwork ∧
      ¬ shuffled.Delivers id firstPartition (fun _ => none) shuffled.strictNetwork shuffled.rows) ∧
    (shuffled.Answers shuffled.openNetwork ∧
      ¬ shuffled.Delivers id firstPartition (fun _ => none) shuffled.openNetwork
        shuffled.rows) := by
  have hsome : shuffled.downstream.Nonempty := ⟨"w0", by decide⟩
  have hw : "w0" ∈ shuffled.workers := by decide
  refine ⟨⟨strictNetwork_answers, ?_⟩, fun w _ => ⟨w, rfl, rfl⟩, ?_⟩
  · exact not_delivers_of_unknown rfl (by decide) hsome hw (by decide +kernel) _
  · rw [delivers_iff_of_fetched (r := shuffled.result)
      fun batch refs => firstPartition_keeps batch refs (by decide)]
    · rw [not_and_or]
      right
      decide +kernel
    · intro w hw
      rw [sources_partitioned rfl, mem_flatMap] at hw
      obtain ⟨v, hv, hvw⟩ := hw
      obtain rfl := eq_of_mem_replicate hvw
      exact (fetch_of_registered (registered_partitioned _ hv (by decide)) rfl).trans rfl

end Shuffle

end Leibrix.ExchangeDelivery
