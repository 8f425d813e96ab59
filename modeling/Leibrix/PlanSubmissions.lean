import Leibrix.PlanExecution

/-!
# What an execution still submits

No loop of an execution looks at cancellations, so an execution goes on to submit whatever
it has left to submit. It has nothing left if each stage of its level has gone through its
workers and its retries, and either one of them has failed or no later level asks for a
submission.
-/

set_option autoImplicit false

namespace Leibrix.PlanSubmissions
open LdpTypes LdpCut ExecutionLevels PlanExecution List

variable {cfg : Config} {plan : LdpPlan} {e e' : Execution}

def groupsOf (cfg : Config) (plan : LdpPlan) (k : Nat) : List (List WorkerId) :=
  ((getStage plan k).map (groups cfg)).getD []

def Spent (cfg : Config) (plan : LdpPlan) (k : Nat) : StageProgress → Prop
  | .unstarted => groupsOf cfg plan k = []
  | .resolving groups => groups = []
  | .waiting _ groups retried => groups = [] ∧ cfg.maxStageRetries ≤ retried
  | .sleeping _ _ _ => False
  | .finished _ => True

def Idle (cfg : Config) (plan : LdpPlan) (levels : List (List Nat)) : Prop :=
  ∀ level ∈ levels, ∀ k ∈ level, groupsOf cfg plan k = []

def Quiet (cfg : Config) (plan : LdpPlan) : Phase → Prop
  | .spawning _ _ | .joining _ => False
  | .level stages rest => (∀ k p, (k, p) ∈ stages → Spent cfg plan k p) ∧
      ((∃ k, (k, .finished false) ∈ stages) ∨ Idle cfg plan rest)
  | .results left rest => (∃ k, (k, false) ∈ left) ∨ Idle cfg plan rest
  | .failing | .fetching | .ended => True

theorem Spent.step {k : Nat} {p : StageProgress} (h : Spent cfg plan k p) (answer : Answer) :
    Spent cfg plan k (p.step cfg plan k answer) ∧ p.submits answer = [] := by
  cases p with
  | unstarted =>
    refine ⟨?_, rfl⟩
    cases hstage : getStage plan k with
    | none => simp [StageProgress.step, hstage, Spent]
    | some stage => simpa [StageProgress.step, hstage, Spent, groupsOf] using h
  | resolving groups =>
    obtain rfl : groups = [] := h
    cases answer <;> exact ⟨trivial, rfl⟩
  | waiting group groups retried =>
    obtain ⟨rfl, hretried⟩ := h
    cases answer with
    | none => exact ⟨rfl, rfl⟩
    | some error =>
      have last : ¬ retried + 1 ≤ cfg.maxStageRetries := by omega
      exact ⟨by simp [StageProgress.step, last, Spent], rfl⟩
  | sleeping => cases h
  | finished ok => exact ⟨trivial, rfl⟩

theorem mem_set_of_mem {α : Type} {l : List α} {n : Nat} {a b : α} (h : a ∈ l)
    (hne : l[n]? ≠ some a) : a ∈ l.set n b := by
  obtain ⟨m, hm⟩ := mem_iff_getElem?.mp h
  have other : n ≠ m := fun heq => hne (heq ▸ hm)
  exact mem_iff_getElem?.mpr ⟨m, by rw [getElem?_set_ne other, hm]⟩

theorem Quiet.stageStep (h : Quiet cfg e.plan e.phase) (position : Nat) (answer : Answer) :
    Quiet cfg e.plan (e.stageStep cfg position answer).1.phase ∧
      (e.stageStep cfg position answer).1.submissions = e.submissions := by
  rcases stageStep_cases cfg e position answer with heq | ⟨stages, rest, k, p, hphase, hstage, heq⟩
  · rw [heq]
    exact ⟨h, rfl⟩
  rw [hphase] at h
  rw [heq]
  have spent := (h.1 k p (mem_of_getElem? hstage)).step answer
  refine ⟨⟨fun k' p' hmem => ?_, h.2.imp_left fun ⟨k', hk'⟩ => ⟨k', ?_⟩⟩, by simp [spent.2]⟩
  · rcases mem_or_eq_of_mem_set hmem with hmem | heq
    · exact h.1 k' p' hmem
    · cases heq
      exact spent.1
  · by_cases hhere : stages[position]? = some (k', .finished false)
    · cases hstage.symm.trans hhere
      obtain ⟨hlt, -⟩ := List.getElem?_eq_some_iff.mp hstage
      exact mem_set hlt _
    · exact mem_set_of_mem hk' hhere

theorem Quiet.proceeds (h : Quiet cfg e.plan e.phase) {next : Execution × Effect}
    (hnext : Proceeds e next) :
    Quiet cfg e.plan next.1.phase ∧ next.1.submissions = e.submissions := by
  cases hnext with
  | waits => exact ⟨h, rfl⟩
  | drives level rest hphase =>
    rw [hphase] at h
    have idle : Idle cfg e.plan (level::rest) := by simpa [Quiet] using h
    refine ⟨⟨fun k p hmem => ?_, .inr fun l hl => idle l (mem_cons_of_mem _ hl)⟩, rfl⟩
    obtain ⟨k', hk', heq⟩ := mem_map.mp hmem
    cases heq
    exact idle level mem_cons_self k hk'
  | looks results rest hphase =>
    rw [hphase] at h
    refine ⟨h.2.imp_left fun ⟨k, hk⟩ => ⟨k, ?_⟩, rfl⟩
    obtain ⟨r, hr, heq⟩ := mem_map.mp hk
    cases r
    cases heq
    exact hr
  | notes k left rest hphase =>
    rw [hphase] at h
    refine ⟨h.imp_left fun ⟨k', hk'⟩ => ⟨k', ?_⟩, rfl⟩
    rcases mem_cons.mp hk' with heq | hk'
    · cases heq
    · exact hk'
  | fails | fetches | ends => exact ⟨trivial, rfl⟩
  | streams next hphase =>
    cases he : e.phase with
    | spawning | joining =>
      rw [he] at h
      cases h
    | _ =>
      rw [he] at hphase
      cases hphase

end Leibrix.PlanSubmissions
