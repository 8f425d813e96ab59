import Leibrix.CoordinatorCancel

/-!
# Stages follow the stages that feed them

Without a pipeline an execution drives its plan level by level. A stage is submitted only after
each stage that feeds it was submitted to all of its workers, however answers, retries, other
executions and cancellations interleave.
-/

set_option autoImplicit false

namespace Leibrix.StageOrder
open LdpTypes LdpCut ExecutionLevels PlanExecution PlanSubmissions CoordinatorMoves
  CoordinatorCancel Runs List

variable {cfg : Config} {plan : LdpPlan} {e e' : Execution} {k : Nat} {group : List WorkerId}

theorem mem_done {done rest : List (List Nat)} {level : List Nat}
    (h : LevelsExact plan (done ++ level::rest)) {a : Nat} (feeds : Feeds plan a k)
    (hk : k ∈ level) : a ∈ done.flatten := by
  obtain ⟨edge, hedge, rfl, rfl⟩ := feeds
  obtain ⟨i, j, hij, ⟨source, hsource, ha⟩, target, htarget, hmem⟩ := h.earlier edge hedge
  -- a stage is in the level that its longest path gives
  have here := h.longest done.length level (by simp) _ hk
  have hj : j ≤ done.length := here.2 j (h.longest j target htarget _ hmem).1
  rw [getElem?_append_left (hij.trans_le hj)] at hsource
  exact mem_flatten_of_mem (mem_of_getElem? hsource) ha

/-- The workers that a stage has not been submitted to yet, and all of them if it failed. -/
def left (cfg : Config) (plan : LdpPlan) (k : Nat) : StageProgress → List (List WorkerId)
  | .resolving groups | .waiting _ groups _ | .sleeping _ groups _ => groups
  | .finished true => []
  | .unstarted | .finished false => groupsOf cfg plan k

theorem left_step {p : StageProgress} (answer : Answer) (h : group ∈ groupsOf cfg plan k)
    (hp : group ∈ left cfg plan k p) :
    group ∈ left cfg plan k (p.step cfg plan k answer) ∨ group ∈ p.submits answer := by
  cases p with
  | unstarted =>
    left
    cases hstage : getStage plan k with
    | none => simpa [StageProgress.step, hstage, left] using h
    | some stage => simpa [StageProgress.step, hstage, left, groupsOf] using h
  | resolving groups =>
    cases groups with
    | nil => cases hp
    | cons =>
      cases answer with
      | none => exact (mem_cons.mp hp).symm.imp_right mem_singleton.mpr
      | some => exact .inl h
  | waiting current groups retried =>
    left
    cases answer with
    | none => exact hp
    | some error =>
      simp only [StageProgress.step]
      generalize (retries cfg k error && decide (retried + 1 ≤ cfg.maxStageRetries)) = again
      cases again with
      | true => exact hp
      | false => exact h
  | sleeping | finished => exact .inl hp

def Sent (cfg : Config) (e : Execution) (k : Nat) : Prop :=
  ∀ group ∈ groupsOf cfg e.plan k, (k, group) ∈ e.submissions

/-- The stages of the levels before were sent, unless a failure is about to be seen. -/
def Place (cfg : Config) (e : Execution) : Phase → Prop
  | .level stages rest => ∃ done, e.levels = some (done ++ stages.map (·.1)::rest) ∧
      (∀ k ∈ done.flatten, Sent cfg e k) ∧ ∀ k p, (k, p) ∈ stages →
        ∀ group ∈ groupsOf cfg e.plan k, group ∈ left cfg e.plan k p ∨ (k, group) ∈ e.submissions
  | .results found rest => ∃ done, e.levels = some (done ++ rest) ∧
      ∀ k ∈ done.flatten, (k, false) ∉ found → Sent cfg e k
  | .spawning _ _ | .joining _ => False
  | .failing | .fetching | .ended => True

/-- All stages of earlier levels were sent. -/
def Ready (cfg : Config) (e : Execution) (k : Nat) : Prop :=
  ∃ done level rest, e.levels = some (done ++ level::rest) ∧ k ∈ level ∧
    ∀ a ∈ done.flatten, Sent cfg e a

def Follows (cfg : Config) (e e' : Execution) : Prop :=
  Place cfg e' e'.phase ∧ ∃ new, e'.submissions = e.submissions ++ new ∧ ∀ x ∈ new, Ready cfg e x.1

theorem follows_same (h : Place cfg e' e'.phase) (same : e'.submissions = e.submissions) :
    Follows cfg e e' :=
  ⟨h, [], by simp [same], by simp⟩

theorem follows_stageStep (h : Place cfg e e.phase) (position : Nat) (answer : Answer) :
    Follows cfg e (e.stageStep cfg position answer).1 := by
  rcases stageStep_cases cfg e position answer with heq | ⟨stages, rest, k, p, hphase, hstage, heq⟩
  · rw [heq]
    exact follows_same h rfl
  rw [hphase] at h
  obtain ⟨done, hlevels, sent, soFar⟩ := h
  have same : (stages.set position (k, p.step cfg e.plan k answer)).map (·.1) =
      stages.map (·.1) := by
    obtain ⟨hlt, hget⟩ := List.getElem?_eq_some_iff.mp hstage
    rw [map_set, ← congrArg Prod.fst hget, ← map_set, set_getElem_self]
  have hmem : (k, p) ∈ stages := mem_of_getElem? hstage
  rw [heq]
  refine ⟨⟨done, by rw [same]; exact hlevels, fun a ha group hgroup =>
    mem_append_left _ (sent a ha group hgroup), fun a q haq group hgroup => ?_⟩, _, rfl, ?_⟩
  · rcases mem_or_eq_of_mem_set haq with hother | heq
    · exact (soFar a q hother group hgroup).imp_right (mem_append_left _)
    · cases heq
      rcases soFar k p hmem group hgroup with hleft | hsent
      · exact (left_step answer hgroup hleft).imp_right fun new =>
          mem_append_right _ (mem_map_of_mem new)
      · exact .inr (mem_append_left _ hsent)
  · intro x hx
    obtain ⟨_, -, rfl⟩ := mem_map.mp hx
    exact ⟨done, _, rest, hlevels, mem_map_of_mem hmem, sent⟩

theorem place_proceeds (h : Place cfg e e.phase) {next : Execution × Effect}
    (hnext : Proceeds e next) :
    Place cfg next.1 next.1.phase ∧ next.1.submissions = e.submissions := by
  cases hnext with
  | waits => exact ⟨h, rfl⟩
  | drives level rest hphase =>
    rw [hphase] at h
    obtain ⟨done, hlevels, sent⟩ := h
    refine ⟨⟨done, hlevels.trans (by simp [Function.comp_def]), fun k hk => sent k hk not_mem_nil,
      fun k p hp group hgroup => .inl ?_⟩, rfl⟩
    obtain ⟨k', -, heq⟩ := mem_map.mp hp
    cases heq
    exact hgroup
  | looks results rest hphase =>
    rw [hphase] at h
    obtain ⟨done, hlevels, sent, soFar⟩ := h
    refine ⟨⟨done ++ [results.map (·.1)], hlevels.trans (by simp [Function.comp_def]),
      fun k hk hfound => ?_⟩, rfl⟩
    rw [flatten_append, flatten_singleton] at hk
    rcases mem_append.mp hk with hk | hk
    · exact sent k hk
    · obtain ⟨⟨k, ok⟩, hr, rfl⟩ := mem_map.mp hk
      cases ok with
      | false => exact absurd hr hfound
      | true =>
        exact fun group hgroup => (soFar k _ (mem_map_of_mem hr) group hgroup).resolve_left
          not_mem_nil
  | notes k found rest hphase =>
    rw [hphase] at h
    obtain ⟨done, hlevels, sent⟩ := h
    exact ⟨⟨done, hlevels, fun a ha hfound => sent a ha (by simpa using hfound)⟩, rfl⟩
  | fails | fetches | ends => exact ⟨trivial, rfl⟩
  | streams next hphase =>
    cases he : e.phase with
    | spawning | joining => exact absurd h (he ▸ id)
    | _ => exact absurd hphase (he ▸ id)

theorem follows_moved {m : Move} {i : Nat} (h : Place cfg e e.phase)
    (hmoved : Moved cfg m i e e') : Follows cfg e e' := by
  cases hmoved with
  | staged position answer => exact follows_stageStep h position answer
  | proceeded hnext =>
    obtain ⟨place, same⟩ := place_proceeds h hnext
    exact follows_same place same
  | same => exact follows_same h rfl
  | stopped => exact follows_same trivial rfl
  | streamed position ok =>
    obtain ⟨streams, heq, -⟩ := streamEnds_eq e position ok
    rw [heq]
    exact follows_same h rfl

variable {shards : Shards} {s : State shards.count}

theorem place_step (hmode : (cfg.enableStreamingPipeline && !cfg.distributed) = false)
    (h : ∀ i e, s.executions i = some e → Place cfg e e.phase) (m : Move) (i : Nat)
    (e : Execution) (he : (s.step cfg shards m).executions i = some e) :
    Place cfg e e.phase := by
  have entry := executions_stepped (stepped_step cfg shards s m) i
  rw [he] at entry
  rcases entry.before with ⟨e₀, he₀, hmoved⟩ | ⟨-, queryId, plan, keys, rfl⟩
  · exact (follows_moved (h i e₀ he₀) hmoved).1
  · simp only [Execution.new, hmode, Bool.false_eq_true, if_false, Execution.startBatch]
    split
    · next levels hlevels => exact ⟨[], hlevels, by simp⟩
    · trivial

theorem levels_exact (wf : WellFormed e.plan) (hkeys : e.keys.Perm (stageIds e.plan))
    {levels : List (List Nat)} (h : e.levels = some levels) : LevelsExact e.plan levels := by
  obtain ⟨result, hresult, -, hexact⟩ := computeExecutionLevels_exact wf hkeys (Nat.lt_succ_self _)
  rw [Execution.levels, hresult] at h
  cases result with
  | error => cases h
  | ok found =>
    cases h
    exact hexact levels rfl

/-- In every run, when a step submits a stage, each stage that feeds it has been submitted to all
of its workers. -/
theorem upstream_first (cfg : Config)
    (hmode : (cfg.enableStreamingPipeline && !cfg.distributed) = false) (moves : List Move)
    (hs : s = run (State.step cfg shards) (start shards.count) moves) {i : Nat}
    (he : s.executions i = some e) (wf : WellFormed e.plan)
    (hkeys : e.keys.Perm (stageIds e.plan)) {m : Move}
    (he' : (s.step cfg shards m).executions i = some e') {new : List (Nat × List WorkerId)}
    (hnew : e'.submissions = e.submissions ++ new) (hk : (k, group) ∈ new) {a : Nat}
    (feeds : Feeds e.plan a k) : ∀ g ∈ groupsOf cfg e.plan a, (a, g) ∈ e.submissions := by
  have place : Place cfg e e.phase := by
    subst hs
    exact run_invariant (I := fun s : State shards.count =>
      ∀ i e, s.executions i = some e → Place cfg e e.phase)
      (fun _ m h => place_step hmode h m) (fun _ _ he => by simp [start] at he) moves i e he
  obtain ⟨e₁, he₁, hmoved⟩ := moved_step cfg he m
  cases he₁.symm.trans he'
  obtain ⟨-, new', hnew', ready⟩ := follows_moved place hmoved
  rw [append_cancel_left (hnew.symm.trans hnew')] at hk
  obtain ⟨done, level, rest, hlevels, hmem, sent⟩ := ready _ hk
  exact sent a (mem_done (levels_exact wf hkeys hlevels) feeds hmem)

theorem upstream_first_twoStages :
    ∃ e, (after true (submitted twoStages ++ goesOn.dropLast)).executions 0 = some e ∧
      ∀ g ∈ groupsOf (setting true) e.plan 0, (0, g) ∈ e.submissions := by
  have next : (State.step (setting true) oneShard
      (after true (submitted twoStages ++ goesOn.dropLast)) (.stage 0 0 none)).executions 0 =
        some _ := rfl
  exact ⟨_, rfl, upstream_first (setting true) rfl _ rfl rfl ⟨by decide, by decide, by decide⟩
    (by decide) next (show _ = _ ++ [(1, ["w1"])] from rfl) mem_cons_self
    ⟨_, mem_cons_self, rfl, rfl⟩⟩

end Leibrix.StageOrder
