import Leibrix.LdpCutCorrect

/-!
# The shape of a distributed plan

Stages are numbered as they are pushed, and an edge is added when the stage that reads it
is. Through the recursion every stage has one edge, pending or added, except the one just
pushed; at the end that is the root.
-/

set_option autoImplicit false

namespace Leibrix.LdpShape
open SqlAst LdpTypes LdpAnnotate LdpCut LdpStages LdpReassemble LdpCutCorrect LdpCutRule List

structure WellFormed (plan : LdpPlan) : Prop where
  stageIds : plan.stages.map (·.stageId) = List.range plan.stages.length
  exchangeIds : (plan.edges.map (·.exchangeId)).Nodup
  forward : ∀ e ∈ plan.edges, e.fromStage < e.toStage ∧ e.toStage < plan.stages.length
  rootLast : plan.rootStage + 1 = plan.stages.length
  rootOutgoing : ∀ e ∈ plan.edges, e.fromStage ≠ plan.rootStage
  outgoing : ∀ s ∈ plan.stages, s.stageId ≠ plan.rootStage →
    plan.edges.countP (·.fromStage = s.stageId) = 1
  rootStream : ∀ s ∈ plan.stages, s.stageId = plan.rootStage → s.output = .stream
  targetWorkers : ∀ s ∈ plan.stages, s.targetWorkers ≠ [] ∧ s.targetWorkers.Nodup
  partitions : ∀ e ∈ plan.edges, ∀ columnRefs partitions,
    e.kind = .hashPartition columnRefs partitions →
      e.partitionToWorker.length = partitions.toNat ∧
        ∀ s ∈ plan.stages, s.stageId = e.toStage → ∀ w ∈ e.partitionToWorker, w ∈ s.targetWorkers

section Cutting

/-- Every stage so far has one edge, added or pending, except the loose ones. -/
structure Linked (st : CutState) (pending : List PendingEdge) (loose : List Nat) : Prop extends
    Numbered st pending where
  sources : (st.edges.map (·.fromStage) ++ pending.map (·.2.1) ++ loose).Perm
    (List.range st.nextStageId)
  forward : ∀ e ∈ st.edges, e.fromStage < e.toStage ∧ e.toStage < st.nextStageId

variable {P pending : List PendingEdge} {st st' : CutState}

theorem linked_readExchange {child : AnnotatedPlan} {kind : Exchange} {k : Nat} {q : LogicalPlan}
    (h : Linked st P [k]) (read : readExchange child kind k st = (q, pending, st')) :
    Linked st' (P ++ pending) [] := by
  have numbered := numbered_readExchange child kind k h.toNumbered
  rw [read] at numbered
  cases read
  exact ⟨numbered, by simpa using h.sources, h.forward⟩

theorem Linked.source_lt {loose : List Nat} (h : Linked st P loose) {x : PendingEdge}
    (hx : x ∈ P) : x.2.1 < st.nextStageId := by
  refine mem_range.mp (h.sources.subset ?_)
  simp only [mem_append, mem_map]
  exact .inl (.inr ⟨x, hx, rfl⟩)

theorem linked_pushStage (a : AnnotatedPlan) (q : LogicalPlan) (h : Linked st (P ++ pending) []) :
    Linked (pushStage a q pending st).2 P [(pushStage a q pending st).1] where
  toNumbered := numbered_pushStage a q h.toNumbered
  sources := by
    have before := h.sources
    simp only [map_append, append_nil] at before
    simp only [pushStage, map_append, map_map, Function.comp_def, range_succ]
    refine Perm.append_right _ (.trans ?_ before)
    rw [append_assoc]
    exact perm_append_comm.append_left _
  forward := by
    intro e he
    rcases mem_append.mp he with old | new
    · exact ⟨(h.forward e old).1, Nat.lt_succ_of_lt (h.forward e old).2⟩
    · obtain ⟨x, hx, rfl⟩ := mem_map.mp new
      exact ⟨h.source_lt (mem_append_right _ hx), Nat.lt_succ_self _⟩

def LinksStage : OnCut := fun _ st k st' =>
  ∀ P, Linked st P [] → Linked st' P [k] ∧ k + 1 = st'.nextStageId

def LinksPart : OnPart := fun _ st _ pending st' =>
  ∀ P, Linked st P [] → Linked st' (P ++ pending) []

theorem linked_through {stage inner : AnnotatedPlan → AnnotatedPlan} {cs : List AnnotatedPlan}
    {qs : List LogicalPlan}
    (through : Through (Child LinksStage LinksPart stage inner) cs st qs pending st')
    (h : Linked st P []) : Linked st' (P ++ pending) [] := by
  refine (through.keeps (I := fun st P => Linked st P []) (Q := fun _ => True) h ?_).2
  intro c _ st P q edges st' child hst
  refine ⟨trivial, ?_⟩
  cases child with
  | exchange _ hcut hread => exact linked_readExchange (hcut P hst).1 hread
  | inner _ hpart => exact hpart P hst

theorem linked_rule (text : SqlText) : CutRule text LinksStage LinksPart where
  stage := by
    intro a st st₁ qs q pending through _ P h
    exact ⟨linked_pushStage a _ (linked_through through h), rfl⟩
  leaf := by
    intro a st _ P h
    rwa [append_nil]
  node := by
    intro a st st₁ qs q pending through _ P h
    exact linked_through through h

end Cutting

section Finishing

variable (coordinator : WorkerId) (k : Nat) {st : CutState}

theorem stageWorkers_good (d : Distribution) :
    stageWorkers coordinator d ≠ [] ∧ (stageWorkers coordinator d).Nodup := by
  simp only [stageWorkers]
  split
  · simp
  · rename_i some
    exact ⟨by simpa using some, nodup_dedup _⟩

theorem assignTargetWorkers_good (annotations : List (Nat × DistributionAnnotation)) (s : Stage) :
    (assignTargetWorkers coordinator annotations s).targetWorkers ≠ [] ∧
      (assignTargetWorkers coordinator annotations s).targetWorkers.Nodup := by
  unfold assignTargetWorkers
  cases annotations.lookup s.stageId with
  | none => simp
  | some annotation => exact stageWorkers_good coordinator annotation.distribution

theorem assignPartitions_kept (stages : List Stage) (e : ExchangeEdge) :
    (assignPartitions stages e).toStage = e.toStage ∧
      (assignPartitions stages e).kind = e.kind := by
  unfold assignPartitions
  split <;> exact ⟨rfl, rfl⟩

theorem assignPartitions_hash {stages : List Stage} {e : ExchangeEdge} {s : Stage}
    (found : stages.find? (·.stageId == e.toStage) = some s) (some : s.targetWorkers ≠ [])
    {columnRefs : List ColumnRef} {partitions : UInt32}
    (kind : e.kind = .hashPartition columnRefs partitions) :
    (assignPartitions stages e).partitionToWorker.length = partitions.toNat ∧
      ∀ w ∈ (assignPartitions stages e).partitionToWorker, w ∈ s.targetWorkers := by
  have dealt : (assignPartitions stages e).partitionToWorker =
      (range partitions.toNat).map fun i =>
        s.targetWorkers.getD (i % s.targetWorkers.length) "" := by
    unfold assignPartitions
    rw [kind, found]
  rw [dealt]
  refine ⟨by simp, fun w hw => ?_⟩
  obtain ⟨i, -, rfl⟩ := mem_map.mp hw
  have bound : i % s.targetWorkers.length < s.targetWorkers.length :=
    Nat.mod_lt _ (length_pos_iff.mpr some)
  rw [getD_eq_getElem?_getD, getElem?_eq_getElem bound]
  exact getElem_mem bound

theorem Linked.outgoing (h : Linked st [] [k]) :
    k ∉ st.edges.map (·.fromStage) ∧
      ∀ i, i < st.nextStageId → i ≠ k → (st.edges.map (·.fromStage)).count i = 1 := by
  have sources : (st.edges.map (·.fromStage) ++ [k]).Perm (range st.nextStageId) := by
    simpa using h.sources
  constructor
  · have nodup := sources.nodup_iff.mpr nodup_range
    exact fun mem => (disjoint_of_nodup_append nodup) mem (mem_singleton_self k)
  · intro i hi hk
    have once := sources.count_eq i
    rw [count_append, count_singleton, if_neg (by simpa using hk.symm),
      count_eq_one_of_mem nodup_range (mem_range.mpr hi)] at once
    exact once

theorem finish_stageIds (h : Numbered st []) :
    (finish coordinator k st).stages.map (·.stageId) = List.range st.nextStageId := by
  obtain ⟨f, hf, stages_eq⟩ := finish_stages coordinator k st
  rw [stages_eq, map_map, show (·.stageId) ∘ f = (·.stageId) from
    funext fun s => (hf s).1, h.stageIds]

theorem wellFormed_finish (h : Linked st [] [k]) (last : k + 1 = st.nextStageId) :
    WellFormed (finish coordinator k st) := by
  obtain ⟨f, hf, stages_eq⟩ := finish_stages coordinator k st
  have ids := finish_stageIds coordinator k h.toNumbered
  have size : (finish coordinator k st).stages.length = st.nextStageId := by
    rw [← length_map (f := (·.stageId)), ids, length_range]
  have fromStages : (finish coordinator k st).edges.map (·.fromStage) =
      st.edges.map (·.fromStage) := by
    obtain ⟨g, hg, edges_eq⟩ := finish_edges coordinator k st
    rw [edges_eq, map_map, show (·.fromStage) ∘ g = (·.fromStage) from
      funext fun e => (hg e).2]
  obtain ⟨rootless, once⟩ := h.outgoing
  refine ⟨?_, ?_, ?_, ?_, ?_, ?_, ?_, ?_, ?_⟩
  · rw [ids, size]
  · obtain ⟨g, hg, edges_eq⟩ := finish_edges coordinator k st
    rw [edges_eq, map_map, show (·.exchangeId) ∘ g = (·.exchangeId) from
      funext fun e => (hg e).1]
    exact (by simpa using h.edges : Perm _ _).nodup_iff.mpr nodup_range
  · intro e he
    obtain ⟨edge, hedge, rfl⟩ := mem_map.mp he
    rw [(assignPartitions_ids _ edge).2, (assignPartitions_kept _ edge).1, size]
    exact h.forward edge hedge
  · rw [size]
    exact last
  · intro e he same
    refine rootless ?_
    rw [← fromStages]
    exact mem_map.mpr ⟨e, he, same⟩
  · intro s hs other
    have bound : s.stageId < st.nextStageId := by
      rw [← mem_range, ← ids]
      exact mem_map_of_mem hs
    have count := once s.stageId bound other
    rw [← fromStages, List.count, countP_map] at count
    rw [← count]
    congr 1
  · intro s hs root
    obtain ⟨placed, -, rfl⟩ := mem_map.mp hs
    by_cases here : placed.stageId = k
    · exact congrArg Stage.output (if_pos here)
    · have same := congrArg Stage.stageId (if_neg here :
        (if placed.stageId = k then { placed with output := .stream } else placed) = placed)
      exact absurd (same.symm.trans root) here
  · intro s hs
    rw [stages_eq] at hs
    obtain ⟨stage, -, rfl⟩ := mem_map.mp hs
    rw [(hf stage).2.2]
    exact assignTargetWorkers_good coordinator _ stage
  · intro e he columnRefs partitions kind
    obtain ⟨edge, hedge, rfl⟩ := mem_map.mp he
    rw [(assignPartitions_kept _ edge).2] at kind
    have found : ∀ stage ∈ st.stages, stage.stageId = edge.toStage →
        (st.stages.map (assignTargetWorkers coordinator st.stageAnnotations)).find?
          (·.stageId == edge.toStage) =
            some (assignTargetWorkers coordinator st.stageAnnotations stage) := by
      intro stage hstage same
      rw [← same]
      have nodup : ((st.stages.map (assignTargetWorkers coordinator st.stageAnnotations)).map
          Stage.stageId).Nodup := by
        rw [map_map]
        exact h.stageIds.symm ▸ nodup_range
      exact find?_of_nodup Stage.stageId nodup
        (x := assignTargetWorkers coordinator st.stageAnnotations stage)
        (mem_map_of_mem hstage)
    have dealt {stage : Stage} (hstage : stage ∈ st.stages) (same : stage.stageId = edge.toStage) :=
      assignPartitions_hash (found stage hstage same)
        (assignTargetWorkers_good coordinator st.stageAnnotations stage).1 kind
    constructor
    · have target : edge.toStage ∈ st.stages.map (·.stageId) := by
        rw [h.stageIds, mem_range]
        exact (h.forward edge hedge).2
      obtain ⟨stage, hstage, same⟩ := mem_map.mp target
      exact (dealt hstage same).1
    · intro s hs same
      rw [stages_eq] at hs
      obtain ⟨stage, hstage, rfl⟩ := mem_map.mp hs
      rw [(hf stage).1, (assignPartitions_kept _ edge).1] at same
      rw [(hf stage).2.2]
      exact (dealt hstage same).2

end Finishing

theorem cut_linked {text : SqlText} {policy : PlannerPolicy} {root : AnnotatedPlan}
    {plan : LdpPlan} (h : cutIntoStages text root policy = some plan) :
    ∃ k st, Linked st [] [k] ∧ k + 1 = st.nextStageId ∧ finish policy.coordinator k st = plan := by
  obtain ⟨k, st, hcut, rfl⟩ := cutIntoStages_eq_some.mp h
  have start : Linked ⟨[], [], 0, 0, []⟩ [] [] := ⟨⟨.refl _, rfl⟩, .refl _, by simp⟩
  obtain ⟨linked, last⟩ := (linked_rule text).cutRecursive hcut [] start
  exact ⟨k, st, linked, last, rfl⟩

/-- Cutting gives a well-formed plan whenever it returns one. -/
theorem cut_well_formed (text : SqlText) (policy : PlannerPolicy) (root : AnnotatedPlan)
    {plan : LdpPlan} (h : cutIntoStages text root policy = some plan) : WellFormed plan := by
  obtain ⟨k, st, linked, last, rfl⟩ := cut_linked h
  exact wellFormed_finish policy.coordinator k linked last

def spreadFilter : AnnotatedPlan :=
  .mk (.filter (selectA "t") columnA) ⟨.epochPartitioned ["w2", "w1", "w2"], 10, 100, .exact⟩
    none none
    [.mk (selectA "t") ⟨.epochPartitioned ["w1", "w2"], 10, 100, .exact⟩
      (some (.hashPartition [] 4)) none [annotatedScan "t"]]

theorem cut_well_formed_spread :
    ∃ plan, cutIntoStages identText spreadFilter (.withCoordinator "w1") = some plan ∧
      plan.edges.length = 1 ∧ WellFormed plan :=
  ⟨_, rfl, rfl, cut_well_formed identText (.withCoordinator "w1") spreadFilter rfl⟩

end Leibrix.LdpShape
