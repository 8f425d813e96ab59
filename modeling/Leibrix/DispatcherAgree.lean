import Leibrix.DispatcherEvict

/-!
# Phases and storage agree in reliable runs

In an orderly run in which no macro update fails after a load and every status update is
delivered, a key is active exactly when the engine has committed its epoch, once all tasks
have finished, and the last report of a committed epoch is not a failure. A second
assignment of a loaded epoch is enough to break both.
-/

set_option autoImplicit false

namespace Leibrix.DispatcherAgree
open EpochEngine EpochEffects Dispatcher DispatcherKeys
open DispatcherCalm Runs
open DispatcherEvict (oneLoader salesKey assigned nextKey loadedInTurns
  quiet_loadedInTurns)
open List

/-- When no task is running, the phases and the reports agree with storage on the key. -/
def Agree (s : State) (k : EpochKey) : Prop :=
  Quiet s → (k ∈ s.listLoadedEpochs ↔ (s.engine.committed k.engineKey).isSome) ∧
    ((s.engine.committed k.engineKey).isSome → lastReport s k ≠ some .failed)

/-- No macro update fails after a load, and status updates arrive. -/
def Reliable (s : State) : Move → Prop
  | .receive _ => True
  | .receiver o => o.delivers = true
  | .task i o => o.delivers = true ∧
      ∀ t, s.tasks[i]? = some t → t.pc = .updatingMacro → o.macroError = none

def began : TaskPc → Bool
  | .queued | .finished => false
  | _ => true

def HandsOff (k : EpochKey) : Receiver → Prop
  | .converting a => a.key ≠ k
  | .dropping key => key ≠ k
  | _ => True

/-- A key without a phase is not committed, nor is one that has failed or is about to fail. -/
structure Settled (s : State) (k : EpochKey) : Prop where
  reports : ∀ (i : Nat) (t : Task), s.tasks[i]? = some t → t.key = k → began t.pc = true →
    lastReport s k = some .inProgress
  failing : ∀ (i : Nat) (t : Task) (message : String), s.tasks[i]? = some t → t.key = k →
    t.pc = .reportFailed message → s.engine.committed k.engineKey = none
  steady : ∀ (i : Nat) (t : Task) (message : String), s.tasks[i]? = some t → t.key = k →
    t.pc ≠ .retracting message
  rejecting : ∀ message, s.receiver = .reporting k message →
    NoLive s k ∧ s.engine.committed k.engineKey = none
  rest : NoBusy s k → HandsOff k s.receiver → s.phases k = none →
    s.engine.committed k.engineKey = none
  failed : lastReport s k = some .failed → s.engine.committed k.engineKey = none

section Steps

variable {l : Loader} {K : Set EpochKey} {s s' : State} {k : EpochKey} {i : Nat} {t : Task}
  {pc : TaskPc}

theorem settled_initial : Settled initial k where
  reports _ _ h := by simp [initial] at h
  failing _ _ _ h := by simp [initial] at h
  steady _ _ _ h := by simp [initial] at h
  rejecting _ h := by cases h
  rest _ _ _ := rfl
  failed _ := rfl

theorem handsOff_off {r : Receiver} (h : ¬ On k r) : HandsOff k r := by
  cases r <;> trivial

theorem unbegun_of_dead (h : live pc = false) : began pc = false := by
  cases pc <;> first | rfl | cases h

theorem Settled.frame (h : Settled s k) (same : SameKey k s s') : Settled s' k := by
  have back : ∀ (i : Nat) (t : Task), s'.tasks[i]? = some t → t.key = k → s.tasks[i]? = some t :=
    fun i t ht hk => (same.tasks i t hk).mp ht
  refine ⟨fun i t ht hk => ?_, fun i t message ht hk => ?_,
    fun i t message ht hk => h.steady i t message (back i t ht hk) hk, fun message hr => ?_,
    fun nobody hands hphase => ?_, fun hlast => ?_⟩
  · rw [same.reported]
    exact h.reports i t (back i t ht hk) hk
  · rw [same.committed]
    exact h.failing i t message (back i t ht hk) hk
  · rcases same.receiver with heq | ⟨hoff, -⟩
    · obtain ⟨nobody, hcommitted⟩ := h.rejecting message (heq ▸ hr)
      exact ⟨nobody.frame same, same.committed.trans hcommitted⟩
    · rw [hr] at hoff
      exact absurd rfl hoff
  · rw [same.committed]
    refine h.rest (fun i t ht hk => nobody i t ((same.tasks i t hk).mpr ht) hk) ?_
      (same.phase ▸ hphase)
    rcases same.receiver with heq | ⟨-, hoff⟩
    · exact heq ▸ hands
    · exact handsOff_off hoff
  · rw [same.committed]
    exact h.failed (same.reported ▸ hlast)

variable (kinv : KeyInv l s t.key) (h : Settled s t.key)
include kinv h

theorem settled_task (ht : s.tasks[i]? = some t) (hlive : live t.pc = true)
    (htasks : s'.tasks = s.tasks.set i { t with pc := pc }) (hreceiver : s'.receiver = s.receiver)
    (hfailed : lastReport s' t.key = some .failed → s'.engine.committed t.key.engineKey = none)
    (hreports : began pc = true → lastReport s' t.key = some .inProgress := by rintro ⟨⟩)
    (hrest : HandsOff t.key s.receiver → busy pc = false → s'.phases t.key = none →
      s'.engine.committed t.key.engineKey = none := by rintro _ ⟨⟩)
    (hfailing : ∀ message, pc = .reportFailed message →
      s'.engine.committed t.key.engineKey = none := by rintro _ ⟨⟩)
    (hsteady : ∀ message, pc ≠ .retracting message := by rintro _ ⟨⟩) :
    Settled s' t.key := by
  have tasks : ∀ (j : Nat) (u : Task), s'.tasks[j]? = some u → u.key = t.key →
      u = { t with pc := pc } ∨ u.pc = .finished := by
    intro j u hu huk
    rw [htasks] at hu
    rcases getElem?_set_cases hu with ⟨-, rfl⟩ | ⟨hj, hu⟩
    · exact .inl rfl
    · right
      by_contra hunfinished
      have hulive : live u.pc = true := by
        cases hpc : u.pc <;> first | rfl | exact absurd hpc hunfinished
      exact hj (kinv.alone j i u t hu ht huk rfl hulive hlive)
  refine ⟨fun j u hu huk hbegan => ?_, fun j u message hu huk hpc => ?_,
    fun j u message hu huk hpc => ?_, fun message hr => ?_, fun nobody hands => ?_, hfailed⟩
  · rcases tasks j u hu huk with rfl | hdone
    · exact hreports hbegan
    · rw [hdone] at hbegan
      cases hbegan
  · rcases tasks j u hu huk with rfl | hdone
    · exact hfailing message hpc
    · rw [hdone] at hpc
      cases hpc
  · rcases tasks j u hu huk with rfl | hdone
    · exact hsteady message hpc
    · rw [hdone] at hpc
      cases hpc
  · rw [hreceiver] at hr
    rw [(h.rejecting message hr).1 i t ht rfl] at hlive
    cases hlive
  · rw [hreceiver] at hands
    refine hrest hands (nobody i { t with pc := pc } ?_ rfl)
    rw [htasks]
    exact getElem?_set_here ht _

theorem settled_progress (ht : s.tasks[i]? = some t) (hbegan : began t.pc = true)
    (effect : TaskEffect s s' i t pc) (hreported : s'.reported = s.reported)
    (hrest : busy pc = false → s'.phases t.key = none →
      s'.engine.committed t.key.engineKey = none := by rintro ⟨⟩)
    (hfailing : ∀ message, pc = .reportFailed message →
      s'.engine.committed t.key.engineKey = none := by rintro _ ⟨⟩)
    (hsteady : ∀ message, pc ≠ .retracting message := by rintro _ ⟨⟩) : Settled s' t.key := by
  have hlive : live t.pc = true := by
    by_contra hdead
    rw [unbegun_of_dead (by simpa using hdead)] at hbegan
    cases hbegan
  have inProgress : lastReport s' t.key = some .inProgress := by
    rw [lastReport, hreported]
    exact h.reports i t ht rfl hbegan
  refine settled_task kinv h ht hlive effect.tasks effect.receiver (fun hlast => ?_)
    (fun _ => inProgress) (fun _ => hrest) hfailing hsteady
  rw [inProgress] at hlast
  cases hlast

theorem settled_report (howned : Owned s.engine) (ht : s.tasks[i]? = some t)
    (hlive : live t.pc = true) (hbusy : busy t.pc = false) {o : Outcome}
    (hdelivers : o.delivers = true) {status : LoadStatus} (message : Option String)
    (hstatus : status = .failed → s.engine.committed t.key.engineKey = none) :
    Settled ((s.reportStatus o t.key status message).setPc i t .finished) t.key := by
  have effect : TaskEffect s ((s.reportStatus o t.key status message).setPc i t .finished) i t
      .finished := report_effect howned o status message
  refine settled_task kinv h ht hlive effect.tasks effect.receiver (fun hlast => ?_)
    (by rintro ⟨⟩) (fun hands _ hphase => ?_)
  · simp only [State.setPc, reportStatus_engine]
    exact hstatus (Option.some.inj ((lastReport_self hdelivers).symm.trans hlast))
  · simp only [State.setPc, reportStatus_phases, reportStatus_engine] at hphase ⊢
    exact h.rest (nobusy_of_report kinv ht rfl hlive hbusy) hands hphase

omit kinv h

theorem taskStep_settled (inj : Set.InjOn EpochKey.engineKey K) (keyed : Keyed K s)
    (kinv : KeyInv l s t.key) (h : Settled s t.key) (ht : s.tasks[i]? = some t) {o : Outcome}
    (hdelivers : o.delivers = true) (hupdate : t.pc = .updatingMacro → o.macroError = none) :
    Settled (taskStep l o s i t) t.key := by
  have tinv := kinv.task i t ht rfl
  have howned := keyed.owned
  obtain ⟨request, column, pc⟩ := t
  cases pc with
  | queued =>
    simp only [taskStep]
    split
    · refine settled_task kinv h ht rfl (report_effect howned o _ _).tasks
        (by simp [State.setPc]) (fun hlast => ?_) (fun _ => lastReport_self hdelivers)
      cases (lastReport_self hdelivers).symm.trans hlast
    · exact settled_task kinv h ht rfl rfl rfl (fun _ => tinv.2.2) (by rintro ⟨⟩)
        (fun _ _ _ => tinv.2.2)
  | loading sent =>
    simp only [taskStep]
    split
    · exact settled_progress kinv h ht rfl (setPc_effect howned) rfl
    · split
      · rename_i com hcom
        exact settled_progress kinv h ht rfl (command_effect inj keyed ht l.threshold o.duck hcom)
          rfl
      · split
        · exact settled_progress kinv h ht rfl (setPc_effect howned) rfl
        · exact h
  | loaded result =>
    cases result with
    | error e =>
      exact settled_progress kinv h ht rfl (setPhase_effect howned none) rfl
        (fun _ _ => tinv.2.2) (fun _ _ => tinv.2.2)
    | ok metadata =>
      simp only [taskStep]
      split
      · exact settled_progress kinv h ht rfl (setPc_effect howned) rfl
      · split <;> exact settled_progress kinv h ht rfl (setPc_effect howned) rfl
  | dropping =>
    have dropped : ∀ engine pc, (onDropEpoch o.duck s.engine
        (Task.key ⟨request, column, .dropping⟩).datasetId
        (Task.key ⟨request, column, .dropping⟩).epochId).2 = engine → pc = .clearing ∨
        pc = .dropMacro →
        Settled ({ s with engine := engine }.setPc i ⟨request, column, .dropping⟩ pc)
          (Task.key ⟨request, column, .dropping⟩) := by
      rintro engine pc rfl (rfl | rfl) <;>
        exact settled_progress kinv h ht rfl (drop_effect howned o.duck) rfl
    simp only [taskStep]
    split <;> rename_i heq
    · exact dropped _ _ (by rw [heq]) (.inl rfl)
    · split
      · exact dropped _ _ (by rw [heq]) (.inl rfl)
      · exact dropped _ _ (by rw [heq]) (.inr rfl)
  | dropMacro => exact settled_progress kinv h ht rfl (setPc_effect howned) rfl
  | clearing =>
    exact settled_progress kinv h ht rfl (setPhase_effect howned none) rfl (fun _ _ => tinv.2.2)
  | registering => exact settled_progress kinv h ht rfl (effect_same howned) rfl
  | updatingMacro =>
    simp only [taskStep, hupdate rfl]
    exact settled_progress kinv h ht rfl (setPc_effect howned) rfl
  | publishing =>
    refine settled_progress kinv h ht rfl (setPhase_effect howned (some .active)) rfl
      (fun _ hphase => ?_)
    cases (Function.update_self _ _ _).symm.trans hphase
  | retracting message => exact absurd rfl (h.steady i _ message ht rfl)
  | reportCompleted => exact settled_report kinv h howned ht rfl rfl hdelivers none (by rintro ⟨⟩)
  | reportFailed message =>
    exact settled_report kinv h howned ht rfl rfl hdelivers (some message)
      (fun _ => h.failing i _ message ht rfl rfl)
  | finished => exact h

theorem settled_unbegun
    (hunbegun : ∀ (i : Nat) (t : Task), s.tasks[i]? = some t → t.key = k → began t.pc = false)
    (hcommitted : s.engine.committed k.engineKey = none)
    (hreject : ∀ message, s.receiver = .reporting k message → NoLive s k := by rintro _ ⟨⟩) :
    Settled s k where
  reports i t ht hk hbegan := by
    rw [hunbegun i t ht hk] at hbegan
    cases hbegan
  failing _ _ _ _ _ _ := hcommitted
  steady i t message ht hk hpc := by
    have dead := hunbegun i t ht hk
    rw [hpc] at dead
    cases dead
  rejecting message hr := ⟨hreject message hr, hcommitted⟩
  rest _ _ _ := hcommitted
  failed _ := hcommitted

theorem Settled.keep (h : Settled s k)
    (hrest : NoBusy s k → HandsOff k s'.receiver → s'.phases k = none →
      s'.engine.committed k.engineKey = none) (hcommitted : s.engine.committed k.engineKey = none →
      s'.engine.committed k.engineKey = none := by exact id)
    (hreject : ∀ message, s'.receiver = .reporting k message →
      NoLive s k ∧ s.engine.committed k.engineKey = none := by rintro _ ⟨⟩)
    (htasks : s'.tasks = s.tasks := by rfl) (hreported : s'.reported = s.reported := by rfl) :
    Settled s' k := by
  have last : lastReport s' k = lastReport s k := by
    rw [lastReport, lastReport, hreported]
  refine ⟨?_, ?_, ?_, ?_, ?_, ?_⟩
  · rw [htasks, last]
    exact h.reports
  · rw [htasks]
    exact fun i t message ht hk hpc => hcommitted (h.failing i t message ht hk hpc)
  · rw [htasks]
    exact h.steady
  · intro message hr
    unfold NoLive
    rw [htasks]
    exact ⟨(hreject message hr).1, hcommitted (hreject message hr).2⟩
  · intro nobody
    unfold NoBusy at nobody
    rw [htasks] at nobody
    exact hrest nobody
  · rw [last]
    exact fun hlast => hcommitted (h.failed hlast)

theorem receive_settled (h : Settled s k) {command : ControlCommand}
    (hcommand : Concerns s k (.receive command)) (calm : Calm s (.receive command)) :
    Settled (receive s command) k := by
  by_cases hidle : s.receiver = .idle
  swap
  · rw [receive_taken hidle command]
    exact h
  have rest : NoBusy s k → s.phases k = none → s.engine.committed k.engineKey = none :=
    fun nobody hphase => h.rest nobody (by rw [hidle]; trivial) hphase
  cases command with
  | assignment a =>
    cases hcommand
    obtain ⟨nobody, free⟩ := calm hidle
    simp only [receive, hidle]
    split
    · exact h.keep (fun nobody _ => rest nobody) id fun _ _ => ⟨nobody, free.2⟩
    split
    · exact h
    · exact h.keep fun nobody _ => rest nobody
  | evictEpoch key reason =>
    simp only [receive, hidle]
    exact h.keep fun nobody _ => rest nobody
  | drain | unknown eventType => cases hcommand

theorem receiverStep_settled (kinv : KeyInv l s k) (h : Settled s k) (hon : On k s.receiver)
    (o : Outcome) : Settled (receiverStep o s) k := by
  have rinv := kinv.receiver
  unfold ReceiverInv at rinv
  have unbegun : NoLive s k → ∀ (i : Nat) (t : Task), s.tasks[i]? = some t → t.key = k →
      began t.pc = false := fun nobody i t ht hk => unbegun_of_dead (nobody i t ht hk)
  revert hon rinv
  unfold receiverStep
  cases hr : s.receiver with
  | idle => rintro ⟨⟩
  | reporting key message =>
    rintro rfl -
    obtain ⟨nobody, hcommitted⟩ := h.rejecting message hr
    exact settled_unbegun (by simpa using unbegun nobody) (by simpa using hcommitted)
  | marking a =>
    rintro rfl rinv
    obtain ⟨nobody, free, -⟩ := rinv rfl
    exact settled_unbegun (unbegun nobody) free.2
  | converting a =>
    rintro rfl rinv
    obtain ⟨nobody, free, -⟩ := rinv rfl
    dsimp only
    split
    · exact settled_unbegun (unbegun nobody) free.2 (fun _ _ => nobody)
    · refine settled_unbegun (fun i t ht hk => ?_) free.2
      rcases getElem?_append_cases ht with ht | ⟨-, rfl⟩
      · exact unbegun nobody i t ht hk
      · rfl
  | evicting key phase =>
    rintro rfl -
    have hands : HandsOff key s.receiver := by
      rw [hr]
      trivial
    dsimp only
    split
    · refine h.keep fun _ _ hphase => ?_
      cases (Function.update_self _ _ _).symm.trans hphase
    · exact h.keep fun nobody _ => h.rest nobody hands
    all_goals exact h.keep fun _ hands => absurd rfl hands
  | dropping key =>
    rintro rfl rinv
    have rest := kinv.resting (rinv rfl).1 (by simp [hr])
    have free := drop_free o.duck key rest.1
    dsimp only
    split <;> rename_i heq <;> rw [heq] at free
    · exact h.keep (fun _ _ _ => free.2) fun _ => free.2
    · split <;> exact h.keep (fun _ _ _ => free.2) fun _ => free.2
  | updatingMacro key =>
    rintro rfl rinv
    obtain ⟨-, -, free⟩ := rinv rfl
    exact h.keep fun _ _ _ => free.2

theorem step_settled (inj : Set.InjOn EpochKey.engineKey K) (hk : k ∈ K) {m : Move}
    (inv : Inv l K s) (horderly : Orderly K s m) (hreliable : Reliable s m) (h : Settled s k) :
    Settled (step l s m) k := by
  by_cases hm : Concerns s k m
  swap
  · exact h.frame (step_sameKey l inj inv.keyed horderly.1 hk hm)
  cases m with
  | receive command => exact receive_settled h hm horderly.2
  | receiver o => exact receiverStep_settled (inv.keys k hk) h hm o
  | task i o =>
    obtain ⟨t, ht, rfl⟩ := hm
    simp only [step, ht]
    exact taskStep_settled inj inv.keyed (inv.keys t.key hk) h ht hreliable.1 (hreliable.2 t ht)

theorem Settled.agree (h : Settled s k) (kinv : KeyInv l s k) : Agree s k := by
  intro quiet
  have nobody : NoBusy s k := by
    intro i t ht _
    rw [quiet.2 t (mem_of_getElem? ht)]
    rfl
  have rest := (kinv.resting nobody (fun a ha => by rw [quiet.1] at ha; cases ha)).2
  have hands : HandsOff k s.receiver := by
    rw [quiet.1]
    trivial
  refine ⟨⟨fun hactive => ?_, fun hcommitted => ?_⟩, fun hcommitted hlast => ?_⟩
  · rcases rest with hnone | ⟨-, kept⟩
    · cases hnone.symm.trans hactive
    · exact kept.2
  · rcases rest with hnone | ⟨hactive, -⟩
    · rw [h.rest nobody hands hnone] at hcommitted
      cases hcommitted
    · exact hactive
  · rw [h.failed hlast] at hcommitted
    cases hcommitted

end Steps

theorem phases_agree (l : Loader) {K : Set EpochKey} (inj : Set.InjOn EpochKey.engineKey K)
    {k : EpochKey} (hk : k ∈ K) {moves : List Move}
    (horderly : Along (step l) (Orderly K) initial moves)
    (hreliable : Along (step l) Reliable initial moves) : Agree (run (step l) initial moves) k := by
  have kept : ∀ s m, (Inv l K s ∧ Settled s k) → (Orderly K s m ∧ Reliable s m) →
      Inv l K (step l s m) ∧ Settled (step l s m) k := fun s m h hm =>
    ⟨step_inv inj s m h.1 hm.1, step_settled inj hk h.1 hm.1 hm.2 h.2⟩
  obtain ⟨inv, settled⟩ := run_kept kept ⟨inv_initial, settled_initial⟩
    (along_and horderly hreliable)
  exact settled.agree (inv.keys k hk)

theorem phases_agree_after_loads :
    salesKey ∈ (run (step oneLoader) initial loadedInTurns).listLoadedEpochs ∧
      lastReport (run (step oneLoader) initial loadedInTurns) salesKey ≠ some .failed := by
  have orderly : Along (step oneLoader) (Orderly {salesKey, nextKey}) initial loadedInTurns := by
    have task : ∀ (s : State) (i : Nat), s.receiver = .idle →
        Orderly {salesKey, nextKey} s (.task i {}) :=
      fun s i h => ⟨trivial, calm_idle h i {}⟩
    refine ⟨⟨.inl rfl, fun _ => ⟨fun i t ht => ?_, rfl, rfl⟩⟩, ⟨trivial, trivial⟩,
      ⟨trivial, trivial⟩, ⟨.inr rfl, fun _ => ⟨fun i t ht own => ?_, rfl, rfl⟩⟩,
      ⟨trivial, trivial⟩, ⟨trivial, trivial⟩, ?_⟩
    · simp [initial] at ht
    · cases i with
      | zero =>
        cases ht
        exact absurd own (by decide)
      | succ i => cases ht
    · iterate 20 refine ⟨task _ _ rfl, ?_⟩
      trivial
  have reliable : Along (step oneLoader) Reliable initial loadedInTurns := by
    apply along_of_forall
    intro m hm s
    simp only [loadedInTurns, assigned, mem_append, mem_cons, not_mem_nil, or_false, mem_flatten,
      mem_replicate] at hm
    rcases hm with ((rfl | rfl | rfl) | (rfl | rfl | rfl)) | ⟨_, ⟨-, rfl⟩, hm⟩
    · trivial
    · rfl
    · rfl
    · trivial
    · rfl
    · rfl
    · simp only [mem_cons, not_mem_nil, or_false] at hm
      rcases hm with rfl | rfl <;> exact ⟨rfl, fun _ _ _ => rfl⟩
  have apart : Set.InjOn EpochKey.engineKey {salesKey, nextKey} := by
    rintro _ (rfl | rfl) _ (rfl | rfl) same
    · rfl
    · exact absurd same (by decide)
    · exact absurd same (by decide)
    · rfl
  obtain ⟨listed, reported⟩ :=
    phases_agree oneLoader apart (.inl rfl) orderly reliable quiet_loadedInTurns
  exact ⟨listed.mpr rfl, reported rfl⟩

def loadedAndReported : List Move := assigned ++ List.replicate 10 (.task 0 {})

/-- The epoch is assigned again after it has been loaded. The engine refuses the second start, and
the task clears the phase and reports a failure while the epoch stays committed. -/
theorem assigned_again_disagrees :
    ¬ Agree (run (step oneLoader) initial
      (loadedAndReported ++ assigned ++ List.replicate 7 (.task 1 {}))) salesKey := by
  intro agree
  have quiet : Quiet (run (step oneLoader) initial
      (loadedAndReported ++ assigned ++ replicate 7 (.task 1 {}))) := by
    refine ⟨rfl, fun t ht => ?_⟩
    cases ht with
    | head => rfl
    | tail _ h =>
      cases h with
      | head => rfl
      | tail _ h => cases h
  exact (agree quiet).2 rfl rfl

end Leibrix.DispatcherAgree
