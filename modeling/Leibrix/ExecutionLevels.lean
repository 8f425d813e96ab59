import Leibrix.LdpShape
import Leibrix.Layering

/-!
# Execution levels

The coordinator runs the stages of a plan level by level: the stages without inputs first,
then those all of whose inputs are there. The levels and the order of the stages are found
by two worklists over counts of unfinished inputs: one goes level by level, starting from
the iteration order of a hash map, which is a parameter here, the other stage by stage.
Both loops are counted down, and stop before the count is used up.
-/

set_option autoImplicit false

namespace Leibrix.ExecutionLevels
open LdpCut LdpShape Layering List Function

abbrev Degrees := Nat → Option Nat

def stageIds (plan : LdpPlan) : List Nat := plan.stages.map (·.stageId)

def downstreamStages (plan : LdpPlan) (stage : Nat) : List Nat :=
  (plan.edges.filter (·.fromStage == stage)).map (·.toStage)

def upstreamStages (plan : LdpPlan) (stage : Nat) : List Nat :=
  (plan.edges.filter (·.toStage == stage)).map (·.fromStage)

def zeroDegrees (plan : LdpPlan) : Degrees :=
  plan.stages.foldl (fun degrees stage => Function.update degrees stage.stageId (some 0))
    fun _ => none

def countEdge (degrees : Degrees) (edge : ExchangeEdge) : Degrees :=
  match degrees edge.toStage with
  | some degree => Function.update degrees edge.toStage (some (degree+1))
  | none => degrees

def inDegrees (plan : LdpPlan) : Degrees := plan.edges.foldl countEdge (zeroDegrees plan)

def finishStage (plan : LdpPlan) (state : Degrees × List Nat) (stage : Nat) : Degrees × List Nat :=
  plan.edges.foldl
    (fun state edge =>
      if edge.fromStage == stage then releaseOne (fun _ => false) state edge.toStage else state)
    state

def drainLevel (plan : LdpPlan) :
    Nat → Degrees × List Nat → List Nat → (Degrees × List Nat) × List Nat
  | 0, state, level => (state, level)
  | n+1, (degrees, []), level => drainLevel plan n (degrees, []) level
  | n+1, (degrees, stage::queue), level =>
    drainLevel plan n (finishStage plan (degrees, queue) stage) (level ++ [stage])

structure LevelRun where
  degrees : Degrees
  queue : List Nat
  levels : List (List Nat)
  processed : Nat

def levelLoop (plan : LdpPlan) : Nat → LevelRun → Option LevelRun
  | 0, _ => none
  | fuel+1, run =>
    if run.queue.isEmpty then some run
    else
      let (state, level) := drainLevel plan run.queue.length (run.degrees, run.queue) []
      levelLoop plan fuel
        ⟨state.1, state.2, run.levels ++ [level], run.processed + level.length⟩

inductive CoordinatorError where
  | invalidPlan (message : String)
  deriving DecidableEq

def debugStageIds (ids : List Nat) : String :=
  "[" ++ ", ".intercalate (ids.map fun id => "StageId(" ++ toString id ++ ")") ++ "]"

/-- `keys` is the order in which the map of in-degrees is iterated. -/
def computeExecutionLevels (keys : List Nat) (fuel : Nat) (plan : LdpPlan) :
    Option (Except CoordinatorError (List (List Nat))) := do
  let degrees := inDegrees plan
  let run ← levelLoop plan fuel ⟨degrees, keys.filter fun s => degrees s = some 0, [], 0⟩
  if run.processed < plan.stages.length then
    let unprocessed := keys.filter fun s => decide (0 < (run.degrees s).getD 0)
    return .error (.invalidPlan
      ("Cycle detected in stage dependencies. Stages involved: " ++ debugStageIds unprocessed))
  else return .ok run.levels

structure OrderRun where
  degrees : Degrees
  queue : List Nat
  visited : List Nat
  result : List Nat

def orderLoop (plan : LdpPlan) : Nat → OrderRun → Option (List Nat)
  | 0, _ => none
  | _+1, ⟨_, [], _, result⟩ => some result
  | fuel+1, ⟨degrees, stage::queue, visited, result⟩ =>
    if stage ∈ visited then orderLoop plan fuel ⟨degrees, queue, visited, result⟩
    else
      let state := release (fun s => decide (s ∈ stage::visited)) (degrees, queue)
        (downstreamStages plan stage)
      orderLoop plan fuel ⟨state.1, state.2, stage::visited, result ++ [stage]⟩

def upstreamDegrees (plan : LdpPlan) : Degrees :=
  counting (stageIds plan) fun s => (upstreamStages plan s).length

def topologicalOrder (fuel : Nat) (plan : LdpPlan) : Option (List Nat) :=
  let degrees := upstreamDegrees plan
  orderLoop plan fuel ⟨degrees, (stageIds plan).filter fun s => degrees s = some 0, [], []⟩

/-- Distinct stages, and edges between them. -/
structure WellFormed (plan : LdpPlan) : Prop where
  distinct : (stageIds plan).Nodup
  sources : ∀ e ∈ plan.edges, e.fromStage ∈ stageIds plan
  targets : ∀ e ∈ plan.edges, e.toStage ∈ stageIds plan

def Feeds (plan : LdpPlan) (s t : Nat) : Prop :=
  ∃ e ∈ plan.edges, e.fromStage = s ∧ e.toStage = t

/-- The levels are the stages by the length of the longest path to them. -/
structure LevelsExact (plan : LdpPlan) (levels : List (List Nat)) : Prop where
  perm : levels.flatten.Perm (stageIds plan)
  nonempty : ∀ level ∈ levels, level ≠ []
  longest : ∀ i level, levels[i]? = some level → ∀ s ∈ level, Longest (Feeds plan) i s
  earlier : ∀ e ∈ plan.edges, ∃ i j : Nat, i < j ∧
    (∃ level, levels[i]? = some level ∧ e.fromStage ∈ level) ∧
    ∃ level, levels[j]? = some level ∧ e.toStage ∈ level

/-- Each stage that no cycle reaches comes once, after all stages that feed it. -/
structure OrderExact (plan : LdpPlan) (order : List Nat) : Prop where
  nodup : order.Nodup
  listed : ∀ s, s ∈ order ↔ s ∈ stageIds plan ∧ ¬ CycleReaches (Feeds plan) s
  forward : ∀ before s after, order = before ++ s::after → ∀ t, Feeds plan t s → t ∈ before

variable {s : Nat} {plan : LdpPlan}

section Counts
variable (plan) in
def waiting (done : List Nat) (s : Nat) : Nat :=
  plan.edges.countP fun e => e.toStage == s && !done.contains e.fromStage

theorem waiting_eq_zero {done : List Nat} :
    waiting plan done s = 0 ↔ ∀ t, Feeds plan t s → t ∈ done := by
  simp only [waiting, countP_eq_zero, Bool.and_eq_true, beq_iff_eq, Bool.not_eq_true',
    contains_eq_mem, decide_eq_false_iff_not, not_and, not_not, Feeds]
  constructor
  · rintro h t ⟨e, he, rfl, hs⟩
    exact h e he hs
  · intro h e he hs
    exact h e.fromStage ⟨e, he, rfl, hs⟩

theorem mem_downstreamStages {t : Nat} : t ∈ downstreamStages plan s ↔ Feeds plan s t := by
  simp [downstreamStages, Feeds, and_assoc]

theorem waiting_finish {done : List Nat} {u : Nat} (hu : u ∉ done) (s : Nat) :
    waiting plan done s = waiting plan (done ++ [u]) s + (downstreamStages plan u).count s := by
  have rest : ∀ e : ExchangeEdge,
      (e.toStage == s && !done.contains e.fromStage && !(e.fromStage == u)) = true ↔
        (e.toStage == s && !(done ++ [u]).contains e.fromStage) = true := by
    simp [and_assoc]
  have own : ∀ e : ExchangeEdge,
      (e.toStage == s && !done.contains e.fromStage && e.fromStage == u) = true ↔
        (e.toStage == s && e.fromStage == u) = true := by
    grind
  rw [waiting, countP_eq_countP_filter_add _ _ fun e => e.fromStage == u, countP_filter,
    countP_filter, countP_congr fun e _ => own e, countP_congr fun e _ => rest e,
    Nat.add_comm]
  simp [waiting, downstreamStages, List.count, countP_map, countP_filter,
    comp_def]

theorem zeroDegrees_eq (plan : LdpPlan) :
    zeroDegrees plan = counting (stageIds plan) fun _ => 0 := by
  have fold : ∀ (stages : List Stage) (known : List Nat),
      stages.foldl
          (fun (degrees : Degrees) stage => update degrees stage.stageId (some 0))
          (counting known fun _ => 0) =
        counting (known ++ stages.map (·.stageId)) fun _ => 0 := by
    intro stages
    induction stages with
    | nil => intro known; simp
    | cons stage stages ih =>
      intro known
      have insert : update (counting known fun _ => 0) stage.stageId (some 0) =
          counting (known ++ [stage.stageId]) fun _ => 0 := by
        funext s
        by_cases h : s = stage.stageId <;> simp [counting, h]
      rw [foldl_cons, insert, ih]
      simp
  exact fold plan.stages []

theorem inDegrees_eq (plan : LdpPlan) :
    inDegrees plan = counting (stageIds plan) (waiting plan []) := by
  have fold : ∀ (edges : List ExchangeEdge) (count : Nat → Nat),
      edges.foldl countEdge (counting (stageIds plan) count) =
        counting (stageIds plan) fun s => count s + edges.countP (·.toStage == s) := by
    intro edges
    induction edges with
    | nil => intro count; simp
    | cons e edges ih =>
      intro count
      have one : countEdge (counting (stageIds plan) count) e =
          counting (stageIds plan) fun s => count s + if e.toStage == s then 1 else 0 := by
        funext s
        by_cases hknown : e.toStage ∈ stageIds plan <;> by_cases h : e.toStage = s
        all_goals simp_all [countEdge, counting, Ne.symm]
      rw [foldl_cons, one, ih]
      congr 1
      funext s
      rw [countP_cons]
      omega
  rw [inDegrees, zeroDegrees_eq, fold]
  congr 1
  funext s
  simp [waiting]

theorem upstreamDegrees_eq (plan : LdpPlan) :
    upstreamDegrees plan = counting (stageIds plan) (waiting plan []) := by
  unfold upstreamDegrees
  congr 1
  funext s
  simp [upstreamStages, waiting, countP_eq_length_filter]

theorem finishStage_eq (state : Degrees × List Nat) (stage : Nat) :
    finishStage plan state stage =
      release (fun _ => false) state (downstreamStages plan stage) := by
  unfold finishStage release downstreamStages
  rw [foldl_map, foldl_filter]

end Counts

variable {degrees : Degrees} {done queue : List Nat}

section Progress
/-- The counts are those of the unfinished stages, and what has been put on the queue so far are
the stages that wait for nothing. -/
structure Progress (plan : LdpPlan) (degrees : Degrees) (done queue : List Nat) : Prop where
  degrees : degrees = counting (stageIds plan) (waiting plan done)
  nodup : (done ++ queue).Nodup
  queued : ∀ s, s ∈ done ++ queue ↔ s ∈ stageIds plan ∧ waiting plan done s = 0

theorem progress_initial {keys : List Nat} (hnodup : keys.Nodup)
    (hkeys : ∀ s, s ∈ keys ↔ s ∈ stageIds plan) :
    Progress plan (counting (stageIds plan) (waiting plan [])) []
      (keys.filter fun s => counting (stageIds plan) (waiting plan []) s = some 0) where
  degrees := rfl
  nodup := hnodup.filter _
  queued s := by
    simp only [nil_append, mem_filter, hkeys, counting]
    constructor
    · rintro ⟨hs, hzero⟩
      simpa [hs] using hzero
    · rintro ⟨hs, hzero⟩
      simp [hs, hzero]

variable {u : Nat}

theorem Progress.fed (h : Progress plan degrees done queue) (hu : u ∈ done ++ queue) :
    ∀ t, Feeds plan t u → t ∈ done :=
  waiting_eq_zero.mp ((h.queued u).mp hu).2

theorem Progress.not_queued (h : Progress plan degrees done queue) (hu : u ∉ done)
    (hfeeds : Feeds plan u s) : s ∉ done ++ queue :=
  fun hs => hu (h.fed hs u hfeeds)

theorem Progress.step (wf : WellFormed plan) (h : Progress plan degrees done (u::queue))
    (visited : Nat → Bool) (hvisited : ∀ s, visited s = true → s ∈ done ++ [u]) : ∃ degrees' ready,
      release visited (degrees, queue) (downstreamStages plan u) = (degrees', queue ++ ready) ∧
        Progress plan degrees' (done ++ [u]) (queue ++ ready) := by
  have hu : u ∉ done := by
    intro hmem
    exact disjoint_of_nodup_append h.nodup hmem mem_cons_self
  have hnew : ∀ s ∈ downstreamStages plan u, s ∉ done ++ u::queue :=
    fun s hs => h.not_queued hu (mem_downstreamStages.mp hs)
  have hknown : ∀ s ∈ downstreamStages plan u, s ∈ stageIds plan := by
    intro s hs
    obtain ⟨e, he, -, rfl⟩ := mem_downstreamStages.mp hs
    exact wf.targets e he
  have hfresh : ∀ s ∈ downstreamStages plan u, visited s = false := by
    grind
  obtain ⟨ready, hnodup, hready, heq⟩ :=
    release_spec (waiting plan (done ++ [u])) queue hknown hfresh
  refine ⟨_, ready, ?_, rfl, ?_, fun s => ?_⟩
  · rw [← heq, h.degrees]
    congr 3
    funext s
    exact waiting_finish hu s
  · have hdisjoint : (done ++ u::queue).Disjoint ready :=
      fun s hs hr => hnew s ((hready s).mp hr).1 hs
    have hall := Nodup.append h.nodup hnodup hdisjoint
    simpa using hall
  · have hqueued := h.queued s
    rw [waiting_finish hu s, Nat.add_eq_zero_iff, count_eq_zero] at hqueued
    grind

theorem Progress.length_le (h : Progress plan degrees done queue) :
    done.length + queue.length ≤ plan.stages.length := by
  have hsub : done ++ queue ⊆ stageIds plan := fun s hs => ((h.queued s).mp hs).1
  have hle := (h.nodup.subperm hsub).length_le
  simpa [stageIds] using hle

theorem Progress.left_cyclic (wf : WellFormed plan) (h : Progress plan degrees done [])
    (hs : s ∈ stageIds plan) (hleft : s ∉ done) : CycleReaches (Feeds plan) s := by
  have stuck : ∀ v ∈ (stageIds plan).filter (fun v => decide (v ∉ done)),
      ∃ u ∈ (stageIds plan).filter (fun v => decide (v ∉ done)), Feeds plan u v := by
    intro v hv
    obtain ⟨hv, hnot⟩ : v ∈ stageIds plan ∧ v ∉ done := by simpa using hv
    have hwaits : waiting plan done v ≠ 0 := fun hzero =>
      hnot (by simpa using (h.queued v).mpr ⟨hv, hzero⟩)
    obtain ⟨u, hfeeds, hu⟩ : ∃ u, Feeds plan u v ∧ u ∉ done := by
      simpa [waiting_eq_zero] using hwaits
    obtain ⟨e, he, rfl, -⟩ := id hfeeds
    exact ⟨e.fromStage, by simpa using ⟨wf.sources e he, hu⟩, hfeeds⟩
  exact cycleReaches_of_stuck stuck (by simpa using ⟨hs, hleft⟩)

end Progress

variable (wf : WellFormed plan)

section OrderProofs
variable {queue : List Nat}

def Forward (plan : LdpPlan) (order : List Nat) : Prop :=
  ∀ before s after, order = before ++ s::after → ∀ t, Feeds plan t s → t ∈ before

theorem forward_nil : Forward plan [] := by
  intro before s after h
  simp at h

variable {order : List Nat}

theorem Forward.snoc {u : Nat} (h : Forward plan order) (hu : ∀ t, Feeds plan t u → t ∈ order) :
    Forward plan (order ++ [u]) := by
  intro before s after heq
  rcases eq_nil_or_concat after with rfl | ⟨after, last, rfl⟩
  · obtain ⟨rfl, hlast⟩ := append_inj' heq rfl
    cases hlast
    exact hu
  · rw [concat_eq_append, ← cons_append, ← append_assoc] at heq
    exact h before s after (append_inj' heq rfl).1

theorem Forward.acyclic (h : Forward plan order) (hs : s ∈ order) :
    ¬ CycleReaches (Feeds plan) s := by
  intro hcycle
  obtain ⟨before, after, rfl⟩ := append_of_mem hs
  -- a predecessor on the way from the cycle stands further to the front
  induction hn : before.length using Nat.strong_induction_on generalizing before s after with
  | _ n ih =>
    obtain ⟨u, hfeeds, hu⟩ := hcycle.pred
    obtain ⟨front, rest, rfl⟩ := append_of_mem (h before s after rfl u hfeeds)
    refine ih front.length ?_ hu front (rest ++ s::after) ?_ ?_ rfl
    · simp only [length_append, length_cons] at hn
      omega
    · simpa using h
    · simp
include wf

theorem orderExact_of_progress (h : Progress plan degrees order [])
    (hforward : Forward plan order) : OrderExact plan order where
  nodup := by simpa using h.nodup
  listed s := by
    constructor
    · intro hs
      exact ⟨((h.queued s).mp (by simpa using hs)).1, hforward.acyclic hs⟩
    · rintro ⟨hs, hfree⟩
      by_contra hleft
      exact hfree (h.left_cyclic wf hs hleft)
  forward := hforward

theorem orderLoop_exact {visited result : List Nat} {fuel : Nat}
    (h : Progress plan degrees result queue) (hforward : Forward plan result)
    (hvisited : ∀ s, s ∈ visited ↔ s ∈ result) (hfuel : plan.stages.length < fuel + result.length) :
    ∃ order, orderLoop plan fuel ⟨degrees, queue, visited, result⟩ = some order ∧
      OrderExact plan order := by
  induction fuel generalizing degrees queue visited result with
  | zero =>
    have hle := h.length_le
    omega
  | succ fuel ih =>
    cases queue with
    | nil => exact ⟨result, rfl, orderExact_of_progress wf h hforward⟩
    | cons u queue =>
      have hu : u ∉ visited := by
        rw [hvisited]
        intro hmem
        exact disjoint_of_nodup_append h.nodup hmem mem_cons_self
      obtain ⟨degrees', ready, heq, hnext⟩ :=
        h.step wf (fun s => decide (s ∈ u::visited)) (by
          intro s hs
          have hmem : s = u ∨ s ∈ visited := by simpa using hs
          rw [hvisited] at hmem
          simpa using hmem.symm)
      rw [orderLoop, if_neg hu, heq]
      refine ih hnext (hforward.snoc (h.fed (by simp))) ?_ ?_
      · intro s
        rw [mem_cons, hvisited, mem_append, mem_singleton, or_comm]
      · rw [length_append, length_singleton]
        omega

theorem topologicalOrder_exact {fuel : Nat} (hfuel : plan.stages.length < fuel) :
    ∃ order, topologicalOrder fuel plan = some order ∧ OrderExact plan order := by
  unfold topologicalOrder
  rw [upstreamDegrees_eq]
  exact orderLoop_exact wf (progress_initial wf.distinct fun _ => Iff.rfl) forward_nil
    (fun _ => Iff.rfl) hfuel

theorem OrderExact.perm (h : OrderExact plan order) (hacyclic : Acyclic (Feeds plan)) :
    order.Perm (stageIds plan) := by
  refine (perm_ext_iff_of_nodup h.nodup wf.distinct).mpr fun s => ?_
  rw [h.listed]
  exact and_iff_left (acyclic_iff.mp hacyclic s)

end OrderProofs

section LevelProofs
theorem drainLevel_spec (wf : WellFormed plan) (first queue level : List Nat)
    (h : Progress plan degrees done (first ++ queue)) :
    ∃ degrees' ready,
      drainLevel plan first.length (degrees, first ++ queue) level =
          ((degrees', queue ++ ready), level ++ first) ∧
        Progress plan degrees' (done ++ first) (queue ++ ready) := by
  induction first generalizing degrees done queue level with
  | nil => exact ⟨degrees, [], by simp [drainLevel], by simpa using h⟩
  | cons u first ih =>
    rw [cons_append] at h
    obtain ⟨next, more, heq, hnext⟩ := h.step wf (fun _ => false) nofun
    rw [append_assoc] at heq hnext
    obtain ⟨degrees', ready, hdrain, hdone⟩ := ih (queue ++ more) (level ++ [u]) hnext
    refine ⟨degrees', more ++ ready, ?_, ?_⟩
    · rw [length_cons, cons_append, drainLevel, finishStage_eq, heq, hdrain]
      simp
    · simpa using hdone

/-- The levels found so far, and the next one on the queue. -/
structure Layered (plan : LdpPlan) (run : LevelRun) : Prop where
  progress : Progress plan run.degrees run.levels.flatten run.queue
  processed : run.processed = run.levels.flatten.length
  nonempty : ∀ level ∈ run.levels, level ≠ []
  finished : ∀ s, s ∈ run.levels.flatten ↔
    s ∈ stageIds plan ∧ ¬ PathTo (Feeds plan) run.levels.length s
  longest : ∀ i level, run.levels[i]? = some level → ∀ s ∈ level, Longest (Feeds plan) i s

variable {run : LevelRun} {keys : List Nat} {fuel : Nat}
include wf

theorem Layered.queued (h : Layered plan run) (s : Nat) :
    s ∈ run.levels.flatten ++ run.queue ↔
      s ∈ stageIds plan ∧ ¬ PathTo (Feeds plan) (run.levels.length+1) s := by
  rw [h.progress.queued, waiting_eq_zero, pathTo_succ_iff]
  refine and_congr_right fun _ => ?_
  constructor
  · rintro hfed ⟨t, hfeeds, hpath⟩
    exact ((h.finished t).mp (hfed t hfeeds)).2 hpath
  · intro hshort t hfeeds
    obtain ⟨e, he, rfl, -⟩ := id hfeeds
    exact (h.finished _).mpr ⟨wf.sources e he, fun hpath => hshort ⟨_, hfeeds, hpath⟩⟩

theorem Layered.queue_longest (h : Layered plan run) (hs : s ∈ run.queue) :
    Longest (Feeds plan) run.levels.length s := by
  obtain ⟨hstage, hshort⟩ := (h.queued wf s).mp (mem_append_right _ hs)
  refine longest_iff.mpr ⟨?_, hshort⟩
  by_contra hpath
  exact disjoint_of_nodup_append h.progress.nodup ((h.finished s).mpr ⟨hstage, hpath⟩) hs

theorem Layered.step (h : Layered plan run) (hqueue : run.queue ≠ []) :
    ∃ state, drainLevel plan run.queue.length (run.degrees, run.queue) [] = (state, run.queue) ∧
      Layered plan ⟨state.1, state.2, run.levels ++ [run.queue],
        run.processed + run.queue.length⟩ := by
  obtain ⟨degrees', ready, hdrain, hdone⟩ :=
    drainLevel_spec wf run.queue [] [] (by simpa using h.progress)
  have hflatten : (run.levels ++ [run.queue]).flatten = run.levels.flatten ++ run.queue := by simp
  refine ⟨(degrees', ready), by simpa using hdrain, ?_, ?_, ?_, ?_, ?_⟩
  · rw [hflatten]
    exact hdone
  · simp [h.processed]
  · intro level hlevel
    rcases mem_append.mp hlevel with hlevel | hlevel
    · exact h.nonempty level hlevel
    · rw [mem_singleton.mp hlevel]
      exact hqueue
  · intro s
    rw [hflatten, length_append]
    exact h.queued wf s
  · intro i level hlevel s hs
    rcases Nat.lt_trichotomy i run.levels.length with hi | rfl | hi
    · rw [getElem?_append_left hi] at hlevel
      exact h.longest i level hlevel s hs
    · simp only [getElem?_concat_length, Option.some.injEq] at hlevel
      subst hlevel
      exact h.queue_longest wf hs
    · rw [getElem?_eq_none (by simp; omega)] at hlevel
      cases hlevel

theorem layered_initial (hkeys : keys.Perm (stageIds plan)) :
    Layered plan ⟨inDegrees plan, keys.filter fun s => inDegrees plan s = some 0, [], 0⟩ where
  progress := by
    rw [inDegrees_eq]
    exact progress_initial (hkeys.nodup_iff.mpr wf.distinct) fun _ => hkeys.mem_iff
  processed := rfl
  nonempty := by simp
  finished s := by simpa using fun _ => PathTo.nil s
  longest := by simp

theorem levelLoop_layered (h : Layered plan run)
    (hfuel : plan.stages.length < fuel + run.processed) :
    ∃ last, levelLoop plan fuel run = some last ∧ Layered plan last ∧ last.queue = [] := by
  induction fuel generalizing run with
  | zero =>
    have hle := h.progress.length_le
    rw [← h.processed] at hle
    omega
  | succ fuel ih =>
    rw [levelLoop]
    by_cases hqueue : run.queue = []
    · rw [if_pos (List.isEmpty_iff.mpr hqueue)]
      exact ⟨run, rfl, h, hqueue⟩
    · rw [if_neg (mt List.isEmpty_iff.mp hqueue)]
      obtain ⟨state, hdrain, hnext⟩ := h.step wf hqueue
      have hpos := length_pos_iff.mpr hqueue
      rw [hdrain]
      exact ih hnext (by simp only; omega)

omit wf

theorem Layered.complete_iff (h : Layered plan run) (hqueue : run.queue = []) :
    ¬ run.processed < plan.stages.length ↔ run.levels.flatten.Perm (stageIds plan) := by
  have hprogress := h.progress
  rw [hqueue] at hprogress
  have hnodup : run.levels.flatten.Nodup := by simpa using hprogress.nodup
  have hsub : run.levels.flatten ⊆ stageIds plan := fun s hs => ((h.finished s).mp hs).1
  have hlength : (stageIds plan).length = plan.stages.length := length_map _
  rw [h.processed, ← hlength, not_lt]
  constructor
  · intro hle
    exact (hnodup.subperm hsub).perm_of_length_le hle
  · intro hperm
    exact hperm.length_eq.ge

theorem Layered.acyclic_iff (wf : WellFormed plan) (h : Layered plan run)
    (hqueue : run.queue = []) : run.levels.flatten.Perm (stageIds plan) ↔ Acyclic (Feeds plan) := by
  have hprogress := h.progress
  rw [hqueue] at hprogress
  rw [Layering.acyclic_iff]
  constructor
  · intro hperm s hcycle
    obtain ⟨u, hfeeds, -⟩ := hcycle.pred
    obtain ⟨e, he, -, rfl⟩ := hfeeds
    have hs := hperm.mem_iff.mpr (wf.targets e he)
    exact ((h.finished _).mp hs).2 (hcycle.pathTo _)
  · intro hfree
    have hnodup : run.levels.flatten.Nodup := by simpa using hprogress.nodup
    refine (perm_ext_iff_of_nodup hnodup wf.distinct).mpr fun s => ?_
    refine ⟨fun hs => ((h.finished s).mp hs).1, fun hs => ?_⟩
    by_contra hleft
    exact hfree s (hprogress.left_cyclic wf hs hleft)

theorem Layered.exact (wf : WellFormed plan) (h : Layered plan run)
    (hperm : run.levels.flatten.Perm (stageIds plan)) : LevelsExact plan run.levels where
  perm := hperm
  nonempty := h.nonempty
  longest := h.longest
  earlier e he := by
    have level_of : ∀ s ∈ stageIds plan,
        ∃ i : Nat, ∃ level, run.levels[i]? = some level ∧ s ∈ level := by
      intro s hs
      obtain ⟨level, hlevel, hmem⟩ := mem_flatten.mp (hperm.mem_iff.mpr hs)
      obtain ⟨i, hi⟩ := mem_iff_getElem?.mp hlevel
      exact ⟨i, level, hi, hmem⟩
    obtain ⟨i, source, hi, hsource⟩ := level_of _ (wf.sources e he)
    obtain ⟨j, target, hj, htarget⟩ := level_of _ (wf.targets e he)
    refine ⟨i, j, ?_, ⟨source, hi, hsource⟩, target, hj, htarget⟩
    have hpath := (h.longest i source hi _ hsource).1
    exact (h.longest j target hj _ htarget).2 (i+1) (.snoc hpath ⟨e, he, rfl, rfl⟩)

theorem computeExecutionLevels_exact (wf : WellFormed plan) (hkeys : keys.Perm (stageIds plan))
    (hfuel : plan.stages.length < fuel) :
    ∃ result, computeExecutionLevels keys fuel plan = some result ∧
      ((∃ levels, result = .ok levels) ↔ Acyclic (Feeds plan)) ∧
      ∀ levels, result = .ok levels → LevelsExact plan levels := by
  obtain ⟨run, hrun, hlayered, hqueue⟩ := levelLoop_layered wf (layered_initial wf hkeys) hfuel
  have hcomplete := hlayered.complete_iff hqueue
  simp only [computeExecutionLevels, hrun, Option.bind_eq_bind, Option.bind_some]
  by_cases hprocessed : run.processed < plan.stages.length
  · rw [if_pos hprocessed]
    refine ⟨_, rfl, ⟨nofun, fun hacyclic => ?_⟩, nofun⟩
    exact absurd hprocessed (hcomplete.mpr ((hlayered.acyclic_iff wf hqueue).mpr hacyclic))
  · rw [if_neg hprocessed]
    have hperm := hcomplete.mp hprocessed
    refine ⟨_, rfl, ⟨fun _ => (hlayered.acyclic_iff wf hqueue).mp hperm, fun _ => ⟨_, rfl⟩⟩, ?_⟩
    rintro levels ⟨⟩
    exact hlayered.exact wf hperm

/-- The levels of a plan that was cut are found in whatever order the map is iterated. -/
theorem cut_levels (text : SqlText) (policy : LdpTypes.PlannerPolicy)
    (root : LdpAnnotate.AnnotatedPlan) (hcut : cutIntoStages text root policy = some plan)
    (hkeys : keys.Perm (stageIds plan)) (hfuel : plan.stages.length < fuel) :
    ∃ levels, computeExecutionLevels keys fuel plan = some (.ok levels) ∧
      LevelsExact plan levels := by
  obtain ⟨k, st, linked, last, hplan⟩ := cut_linked hcut
  have h := hplan ▸ wellFormed_finish policy.coordinator k linked last
  have known : ∀ s, s ∈ stageIds plan ↔ s < plan.stages.length := by
    intro s
    rw [stageIds, h.stageIds, mem_range]
  have wf : WellFormed plan :=
    { distinct := by rw [stageIds, h.stageIds]; exact nodup_range
      sources := fun e he => (known _).mpr ((h.forward e he).1.trans (h.forward e he).2)
      targets := fun e he => (known _).mpr (h.forward e he).2 }
  have later : ∀ s t, Relation.TransGen (Feeds plan) s t → s < t := by
    intro s t path
    refine path.trans_induction_on ?_ fun _ _ => Nat.lt_trans
    rintro s t ⟨e, he, rfl, rfl⟩
    exact (h.forward e he).1
  obtain ⟨result, hresult, hok, hexact⟩ := computeExecutionLevels_exact wf hkeys hfuel
  obtain ⟨levels, rfl⟩ := hok.mpr fun s cycle => Nat.lt_irrefl s (later s s cycle)
  exact ⟨levels, hresult, hexact levels rfl⟩

theorem cut_levels_spread : ∃ plan,
    cutIntoStages LdpCutCorrect.identText spreadFilter (.withCoordinator "w1") = some plan ∧
      ∃ levels, computeExecutionLevels [1, 0] 3 plan = some (.ok levels) ∧
        LevelsExact plan levels :=
  ⟨_, rfl, cut_levels _ (.withCoordinator "w1") spreadFilter rfl (by decide) (by decide)⟩

/-- On every plan the levels are found when there is no cycle, and then they are the stages by the
longest path to them; the order has each stage once that no cycle reaches, inputs first. -/
theorem execution_levels_exact (plan : LdpPlan) (wf : WellFormed plan) (keys : List Nat)
    (hkeys : keys.Perm (stageIds plan)) (fuel : Nat) (hfuel : plan.stages.length < fuel) :
    (∃ result, computeExecutionLevels keys fuel plan = some result ∧
      ((∃ levels, result = .ok levels) ↔ Acyclic (Feeds plan)) ∧
      ∀ levels, result = .ok levels → LevelsExact plan levels) ∧
    ∃ order, topologicalOrder fuel plan = some order ∧ OrderExact plan order ∧
      (Acyclic (Feeds plan) → order.Perm (stageIds plan)) := by
  refine ⟨computeExecutionLevels_exact wf hkeys hfuel, ?_⟩
  obtain ⟨order, horder, hexact⟩ := topologicalOrder_exact wf hfuel
  exact ⟨order, horder, hexact, hexact.perm wf⟩

/-- Stages 0 and 1 feed stage 2, the first of them twice, and both feed stage 3 with it. -/
def diamond : LdpPlan :=
  let stage := fun id => (⟨id, [], [], .stream, .exchangeRead 0 "__exchange_0"⟩ : Stage)
  let edge := fun id s t => (⟨id, .gather "w1", s, t, []⟩ : ExchangeEdge)
  ⟨"w1", [stage 0, stage 1, stage 2, stage 3],
    [edge 0 0 2, edge 1 0 2, edge 2 1 2, edge 3 2 3, edge 4 1 3], 3⟩

theorem execution_levels_exact_diamond :
    (∃ result, computeExecutionLevels [1, 0, 3, 2] 5 diamond = some result ∧
      ((∃ levels, result = .ok levels) ↔ Acyclic (Feeds diamond)) ∧
      ∀ levels, result = .ok levels → LevelsExact diamond levels) ∧
    ∃ order, topologicalOrder 5 diamond = some order ∧ OrderExact diamond order ∧
      (Acyclic (Feeds diamond) → order.Perm (stageIds diamond)) :=
  execution_levels_exact diamond ⟨by decide, by decide, by decide⟩ [1, 0, 3, 2] (by decide) 5
    (by decide)

example : computeExecutionLevels [1, 0, 3, 2] 5 diamond = some (.ok [[1, 0], [2], [3]]) := by
  decide

end LevelProofs

end Leibrix.ExecutionLevels
