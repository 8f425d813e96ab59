import Leibrix.DispatcherKeys

/-!
# Orderly runs of the dispatcher

A run is orderly if an assignment comes only for a key that nobody loads and the engine
does not hold, and if no eviction of a key falls between the check of its load task and
the task's last write to the phase. In such a run each key is in one hand at a time, and
its phase says what the engine holds for it.
-/

set_option autoImplicit false

namespace Leibrix.DispatcherCalm
open EpochEngine EpochEffects EpochAlone SourceClients SourceLoad Dispatcher
open DispatcherKeys
open EpochCalls (streamError_ok)
open Function

def live : TaskPc → Bool
  | .finished => false
  | _ => true

/-- The task still has to write the phase of its key. -/
def busy : TaskPc → Bool
  | .reportCompleted | .reportFailed _ | .finished => false
  | _ => true

/-- The task has not yet looked whether its key is being evicted. -/
def waits : TaskPc → Bool
  | .queued | .loading _ | .loaded _ => true
  | _ => false

def past : TaskPc → Bool
  | .registering | .updatingMacro | .publishing | .retracting _ => true
  | _ => false

def decides (o : Outcome) : TaskPc → Bool
  | .queued => !o.permit
  | .loaded _ => true
  | _ => false

def NoLive (s : State) (k : EpochKey) : Prop :=
  ∀ (i : Nat) (t : Task), s.tasks[i]? = some t → t.key = k → live t.pc = false

def NoBusy (s : State) (k : EpochKey) : Prop :=
  ∀ (i : Nat) (t : Task), s.tasks[i]? = some t → t.key = k → busy t.pc = false

/-- The move comes at a time when nobody else works on its key. -/
def Calm (s : State) : Move → Prop
  | .receive (.assignment a) => s.receiver = .idle → NoLive s a.key ∧ Free s.engine a.key.engineKey
  | .receive (.evictEpoch key _) =>
    s.receiver = .idle → ∀ (i : Nat) (t : Task), s.tasks[i]? = some t → t.key = key →
      past t.pc = false
  | .task i o => ∀ t, s.tasks[i]? = some t → s.receiver = .evicting t.key (some .loading) →
      decides o t.pc = false
  | _ => True

theorem calm_idle {s : State} (h : s.receiver = .idle) (i : Nat) (o : Outcome) :
    Calm s (.task i o) := by
  intro t _ hr
  rw [h] at hr
  cases hr

def Orderly (K : Set EpochKey) (s : State) (m : Move) : Prop := Uses K m ∧ Calm s m

variable {s s' : State} {k : EpochKey}

section Invariant

variable (l : Loader)

def Marked (s : State) (k : EpochKey) : Prop :=
  s.phases k = some .loading ∨ s.phases k = some .evicting

def Resting (s : State) (k : EpochKey) : Prop :=
  s.engine.inProgress k.engineKey = none ∧
    (s.phases k = none ∨ (s.phases k = some .active ∧ Kept s.engine k.engineKey))

/-- What the place of a task says about its key. -/
def TaskInv (s : State) (i : Nat) (t : Task) : Prop :=
  match t.pc with
  | .queued => Marked s t.key ∧ Free s.engine t.key.engineKey
  | .loading sent => Marked s t.key ∧
      match l.stream t.request with
      | .error _ => Free s.engine t.key.engineKey
      | .ok stream => Sending s.engine (callOf t.request stream) i sent
  | .loaded (.ok _) => Marked s t.key ∧ Kept s.engine t.key.engineKey
  | .loaded (.error _) => Marked s t.key ∧ Free s.engine t.key.engineKey
  | .dropping => s.phases t.key = some .evicting ∧ Kept s.engine t.key.engineKey
  | .dropMacro | .clearing => s.phases t.key = some .evicting ∧ Free s.engine t.key.engineKey
  | .registering | .updatingMacro | .publishing | .retracting _ =>
      s.phases t.key = some .loading ∧ Kept s.engine t.key.engineKey
  | .reportCompleted | .reportFailed _ | .finished => True

/-- What the place of the receive task says about a key. -/
def ReceiverInv (s : State) (k : EpochKey) : Prop :=
  match s.receiver with
  | .idle | .reporting _ _ | .evicting _ (some .evicting) => True
  | .marking a => a.key = k → NoLive s k ∧ Free s.engine k.engineKey ∧ s.phases k = none
  | .converting a => a.key = k → NoLive s k ∧ Free s.engine k.engineKey ∧ s.phases k = some .loading
  | .evicting key (some .loading) => key = k → s.phases k = some .loading ∧
      ∀ (i : Nat) (t : Task), s.tasks[i]? = some t → t.key = k → busy t.pc → waits t.pc
  | .evicting key phase => key = k → NoBusy s k ∧ s.phases k = phase
  | .dropping key => key = k → NoBusy s k ∧ s.phases k = none
  | .updatingMacro key => key = k → NoBusy s k ∧ s.phases k = none ∧ Free s.engine k.engineKey

structure KeyInv (s : State) (k : EpochKey) : Prop where
  alone : ∀ (i j : Nat) (t u : Task), s.tasks[i]? = some t → s.tasks[j]? = some u →
    t.key = k → u.key = k → live t.pc → live u.pc → i = j
  task : ∀ (i : Nat) (t : Task), s.tasks[i]? = some t → t.key = k → TaskInv l s i t
  resting : NoBusy s k → (∀ a, s.receiver = .converting a → a.key ≠ k) → Resting s k
  receiver : ReceiverInv s k

theorem keyInv_initial (k : EpochKey) : KeyInv l initial k := by
  refine ⟨?_, ?_, fun _ _ => ⟨rfl, .inl rfl⟩, trivial⟩
  · intro i j t u h
    simp [initial] at h
  · intro i t h
    simp [initial] at h

variable {l}

variable {i : Nat} {t : Task}

theorem taskInv_frame (h : TaskInv l s i t) (hphase : s'.phases t.key = s.phases t.key)
    (hprogress : s'.engine.inProgress t.key.engineKey = s.engine.inProgress t.key.engineKey)
    (hcommitted : s'.engine.committed t.key.engineKey = s.engine.committed t.key.engineKey)
    (hreply : s'.engine.replies i = s.engine.replies i) : TaskInv l s' i t := by
  obtain ⟨request, column, pc⟩ := t
  cases pc with
  | loading sent =>
    simp only [TaskInv] at h ⊢
    refine ⟨by simpa only [Marked, hphase] using h.1, ?_⟩
    cases hstream : l.stream request with
    | error e => simpa only [hstream, Free, hprogress, hcommitted] using h.2
    | ok stream =>
      simp only [hstream] at h
      exact h.2.frame hprogress hcommitted hreply
  | loaded result =>
    cases result <;>
      simpa only [TaskInv, Marked, Free, Kept, hphase, hprogress, hcommitted] using h
  | reportCompleted | reportFailed message | finished => trivial
  | _ => simpa only [TaskInv, Marked, Free, Kept, hphase, hprogress, hcommitted] using h

theorem NoLive.frame (h : NoLive s k) (same : SameKey k s s') : NoLive s' k :=
  fun i t ht hk => h i t ((same.tasks i t hk).mp ht) hk

theorem NoBusy.frame (h : NoBusy s k) (same : SameKey k s s') : NoBusy s' k :=
  fun i t ht hk => h i t ((same.tasks i t hk).mp ht) hk

theorem receiverInv_off (h : ¬ On k s.receiver) : ReceiverInv s k := by
  unfold ReceiverInv
  split <;> rename_i hr <;> rw [hr] at h
  case h_1 | h_2 | h_3 => trivial
  all_goals exact fun hk => absurd hk h

theorem receiverInv_frame (h : ReceiverInv s k) (same : SameKey k s s')
    (hreceiver : s'.receiver = s.receiver) : ReceiverInv s' k := by
  unfold ReceiverInv at h ⊢
  rw [hreceiver]
  simp only [Free, same.phase, same.progress, same.committed]
  split <;> rename_i hpc <;> simp only [hpc] at h
  case h_1 | h_2 | h_3 => trivial
  case h_6 =>
    exact fun hk => ⟨(h hk).1, fun i t ht htk => (h hk).2 i t ((same.tasks i t htk).mp ht) htk⟩
  all_goals exact fun hk => ⟨(h hk).1.frame same, (h hk).2⟩

theorem keyInv_frame (h : KeyInv l s k) (same : SameKey k s s') : KeyInv l s' k := by
  have back : NoBusy s' k → NoBusy s k := fun nobody i t ht hk =>
    nobody i t ((same.tasks i t hk).mpr ht) hk
  refine ⟨fun i j t u ht hu hkt hku => h.alone i j t u ((same.tasks i t hkt).mp ht)
    ((same.tasks j u hku).mp hu) hkt hku, fun i t ht hk => ?_, fun nobody hconvert => ?_, ?_⟩
  · have before := (same.tasks i t hk).mp ht
    have inv := h.task i t before hk
    subst hk
    exact taskInv_frame inv same.phase same.progress same.committed (same.replies i t rfl before)
  · have rest := h.resting (back nobody) (fun a ha hk => by
      rcases same.receiver with heq | ⟨-, hoff⟩
      · exact hconvert a (heq.trans ha) hk
      · exact hoff (by rw [ha]; exact hk))
    simpa only [Resting, Kept, same.phase, same.progress, same.committed] using rest
  · rcases same.receiver with heq | ⟨hoff, -⟩
    · exact receiverInv_frame h.receiver same heq
    · exact receiverInv_off hoff

theorem taskInv_idle (h : busy t.pc = false) : TaskInv l s i t := by
  obtain ⟨request, column, pc⟩ := t
  cases pc <;> trivial

theorem busy_of_live_false {pc : TaskPc} (h : live pc = false) : busy pc = false := by
  cases pc <;> first | rfl | cases h

theorem nobusy_of_nolive (h : NoLive s k) : NoBusy s k :=
  fun i t ht hk => busy_of_live_false (h i t ht hk)

theorem marked_of_busy (h : TaskInv l s i t) (hbusy : busy t.pc = true) : Marked s t.key := by
  obtain ⟨request, column, pc⟩ := t
  cases pc with
  | loaded result => cases result <;> exact h.1
  | reportCompleted | reportFailed message | finished => cases hbusy
  | dropping | dropMacro | clearing => exact .inr h.1
  | queued | loading sent => exact h.1
  | _ => exact .inl h.1

theorem waits_of_loading (h : TaskInv l s i t) (hphase : s.phases t.key = some .loading)
    (hbusy : busy t.pc = true) (hpast : past t.pc = false) : waits t.pc = true := by
  have loading : s.phases t.key ≠ some .evicting := by simp [hphase]
  obtain ⟨request, column, pc⟩ := t
  cases pc with
  | queued | loading sent | loaded result => rfl
  | dropping | dropMacro | clearing => exact absurd h.1 loading
  | registering | updatingMacro | publishing | retracting message => cases hpast
  | reportCompleted | reportFailed message | finished => cases hbusy

end Invariant

variable {l : Loader}

section TaskSteps

variable {i : Nat} {t : Task} {pc : TaskPc}

variable (h : KeyInv l s k) (ht : s.tasks[i]? = some t) (hk : t.key = k)
include h ht hk

theorem keyInv_task (hlive : live t.pc = true)
    (htasks : s'.tasks = s.tasks.set i { t with pc := pc })
    (hinv : TaskInv l s' i { t with pc := pc }) (hrest : busy pc = false → Resting s' k)
    (hreceiver : ReceiverInv s' k) : KeyInv l s' k := by
  have other : ∀ (j : Nat) (u : Task), j ≠ i → s.tasks[j]? = some u → u.key = k →
      live u.pc = false := by
    intro j u hj hu huk
    by_contra hulive
    exact hj (h.alone j i u t hu ht huk hk (by simpa using hulive) hlive)
  refine ⟨fun a b u v hu hv huk hvk hul hvl => ?_, fun j u hu huk => ?_, fun nobody _ => ?_,
    hreceiver⟩
  · rw [htasks] at hu hv
    rcases getElem?_set_cases hu with ⟨ha, -⟩ | ⟨ha, hu⟩ <;>
      rcases getElem?_set_cases hv with ⟨hb, -⟩ | ⟨hb, hv⟩
    · exact ha.trans hb.symm
    · rw [other b v hb hv hvk] at hvl
      cases hvl
    · rw [other a u ha hu huk] at hul
      cases hul
    · exact h.alone a b u v hu hv huk hvk hul hvl
  · rw [htasks] at hu
    rcases getElem?_set_cases hu with ⟨rfl, rfl⟩ | ⟨hj, hu⟩
    · exact hinv
    · exact taskInv_idle (busy_of_live_false (other j u hj hu huk))
  · apply hrest
    refine nobody i { t with pc := pc } ?_ hk
    rw [htasks]
    exact getElem?_set_here ht _

/-- While a task of the key is busy, the receive task can at most be about to mark the key as
evicting. -/
theorem receiverInv_busy (hbusy : busy t.pc = true)
    (htasks : s'.tasks = s.tasks.set i { t with pc := pc }) (hreceiver : s'.receiver = s.receiver)
    (hevict : s.receiver = .evicting k (some .loading) → waits t.pc = true →
      s'.phases k = s.phases k ∧ waits pc = true) : ReceiverInv s' k := by
  have inv := h.receiver
  have somebody : ¬ NoBusy s k := fun nobody => by
    rw [nobody i t ht hk] at hbusy
    cases hbusy
  have alive : ¬ NoLive s k := fun nobody => somebody (nobusy_of_nolive nobody)
  unfold ReceiverInv at inv ⊢
  rw [hreceiver]
  split <;> rename_i hr <;> simp only [hr] at inv
  case h_1 | h_2 | h_3 => trivial
  case h_4 | h_5 => exact fun hon => absurd (inv hon).1 alive
  case h_6 =>
    rintro rfl
    obtain ⟨hphase, hwaits⟩ := inv rfl
    obtain ⟨same, next⟩ := hevict hr (hwaits i t ht hk hbusy)
    refine ⟨same.trans hphase, fun j u hu huk hub => ?_⟩
    rw [htasks] at hu
    rcases getElem?_set_cases hu with ⟨-, rfl⟩ | ⟨-, hu⟩
    · exact next
    · exact hwaits j u hu huk hub
  all_goals exact fun hon => absurd (inv hon).1 somebody

theorem receiverInv_report (hlive : live t.pc = true)
    (htasks : s'.tasks = s.tasks.set i { t with pc := .finished })
    (hreceiver : s'.receiver = s.receiver) (hphases : s'.phases = s.phases)
    (hengine : s'.engine = s.engine) : ReceiverInv s' k := by
  have inv := h.receiver
  have alive : ¬ NoLive s k := fun nobody => by
    rw [nobody i t ht hk] at hlive
    cases hlive
  have before : ∀ {j : Nat} {u : Task}, s'.tasks[j]? = some u → busy u.pc = true →
      s.tasks[j]? = some u := by
    intro j u hu hub
    rw [htasks] at hu
    rcases getElem?_set_cases hu with ⟨-, rfl⟩ | ⟨-, hu⟩
    · cases hub
    · exact hu
  unfold ReceiverInv at inv ⊢
  rw [hreceiver, hphases, hengine]
  split <;> rename_i hr <;> simp only [hr] at inv
  case h_1 | h_2 | h_3 => trivial
  case h_4 | h_5 => exact fun hon => absurd (inv hon).1 alive
  case h_6 =>
    exact fun hkey => ⟨(inv hkey).1, fun j u hu huk hub => (inv hkey).2 j u (before hu hub) huk hub⟩
  all_goals
    refine fun hkey => ⟨fun j u hu huk => Bool.eq_false_iff.mpr fun hub => ?_, (inv hkey).2⟩
    exact Bool.eq_false_iff.mp ((inv hkey).1 j u (before hu hub) huk) hub

omit h ht hk

theorem drop_free {e : EngineState Nat} (duck : Duck) (key : EpochKey)
    (h : e.inProgress key.engineKey = none) :
    Free (onDropEpoch duck e key.datasetId key.epochId).2 key.engineKey := by
  unfold EpochKey.engineKey at h ⊢
  cases hcommitted : e.committed (epochKey key.datasetId key.epochId) with
  | none => simp [onDropEpoch, h, hcommitted, Free]
  | some entry =>
    simp only [onDropEpoch, h, hcommitted, Option.isSome_none, Bool.false_eq_true, if_false]
    split <;> exact ⟨h, by simp⟩

theorem stream_clean {request : LoadRequest} {stream : RecordBatchStream}
    (h : l.stream request = .ok stream) : streamError (callOf request stream).stream = none := by
  obtain ⟨batches, rfl⟩ := streamData_sent l.arrow l.parseDecimal h
  exact streamError_ok batches

theorem keyInv_busy (h : KeyInv l s t.key) (ht : s.tasks[i]? = some t) (hbusy : busy t.pc = true)
    (effect : TaskEffect s s' i t pc) (hinv : TaskInv l s' i { t with pc := pc })
    (hrest : busy pc = false → Resting s' t.key := by intro h; cases h)
    (hevict : s.receiver = .evicting t.key (some .loading) → waits t.pc = true →
      s'.phases t.key = s.phases t.key ∧ waits pc = true := by
        first | exact fun _ _ => ⟨rfl, rfl⟩ | (intro _ h; cases h)) : KeyInv l s' t.key := by
  have hlive : live t.pc = true := by
    by_contra hdead
    rw [busy_of_live_false (by simpa using hdead)] at hbusy
    cases hbusy
  exact keyInv_task h ht rfl hlive effect.tasks hinv hrest
    (receiverInv_busy h ht rfl hbusy effect.tasks effect.receiver hevict)

theorem nobusy_of_report (h : KeyInv l s k) (ht : s.tasks[i]? = some t) (hk : t.key = k)
    (hlive : live t.pc = true) (hbusy : busy t.pc = false) : NoBusy s k := by
  intro j u hu huk
  by_cases hj : j = i
  · subst hj
    rw [hu] at ht
    cases ht
    exact hbusy
  · by_contra hubusy
    apply hj
    refine h.alone j i u t hu ht huk hk ?_ hlive
    by_contra hdead
    exact hubusy (busy_of_live_false (by simpa using hdead))

theorem keyInv_report (h : KeyInv l s t.key) (howned : Owned s.engine) (ht : s.tasks[i]? = some t)
    (hlive : live t.pc = true) (hbusy : busy t.pc = false) (o : Outcome) (status : LoadStatus)
    (message : Option String) :
    KeyInv l ((s.reportStatus o t.key status message).setPc i t .finished) t.key := by
  have effect : TaskEffect s ((s.reportStatus o t.key status message).setPc i t .finished) i t
      .finished := report_effect howned o status message
  have nobody := nobusy_of_report h ht rfl hlive hbusy
  have unconverted : ∀ a, s.receiver = .converting a → a.key ≠ t.key := by
    intro a ha hak
    have rinv := h.receiver
    unfold ReceiverInv at rinv
    rw [ha] at rinv
    rw [(rinv hak).1 i t ht rfl] at hlive
    cases hlive
  refine keyInv_task h ht rfl hlive effect.tasks trivial (fun _ => ?_)
    (receiverInv_report h ht rfl hlive effect.tasks effect.receiver (by simp [State.setPc])
      (by simp [State.setPc]))
  have rest := h.resting nobody unconverted
  simpa only [Resting, Kept, State.setPc, reportStatus_phases, reportStatus_engine] using rest

variable {K : Set EpochKey}

/-- The step in which a task sends a command or reads the answer. -/
theorem keyInv_loading (inj : Set.InjOn EpochKey.engineKey K) (keyed : Keyed K s)
    (h : KeyInv l s t.key) {sent : Nat} (hpc : t.pc = .loading sent) (ht : s.tasks[i]? = some t)
    (o : Outcome) : KeyInv l (taskStep l o s i t) t.key := by
  have tinv := h.task i t ht rfl
  obtain ⟨request, column, pc⟩ := t
  cases hpc
  obtain ⟨marked, state⟩ := tinv
  simp only [taskStep]
  cases hstream : l.stream request with
  | error e =>
    rw [hstream] at state
    exact keyInv_busy h ht rfl (setPc_effect keyed.owned) ⟨marked, state⟩
  | ok stream =>
    rw [hstream] at state
    have clean := stream_clean hstream
    simp only
    cases hcom : ((callOf request stream).commands i)[sent]? with
    | some com =>
      refine keyInv_busy h ht rfl (command_effect inj keyed ht l.threshold o.duck hcom) ⟨marked, ?_⟩
      simp only [hstream]
      exact sending_step clean state hcom (engineStep_effect ..)
    | none =>
      simp only
      cases hresult : (callOf request stream).returned (s.engine.replies i) with
      | none => exact h
      | some result =>
        refine keyInv_busy h ht rfl (setPc_effect keyed.owned) ?_
        rcases sending_returned clean state hcom hresult with
          ⟨metadata, rfl, kept⟩ | ⟨error, rfl, free⟩
        · exact ⟨marked, kept⟩
        · exact ⟨marked, free⟩

theorem taskStep_keyInv (inj : Set.InjOn EpochKey.engineKey K) (keyed : Keyed K s)
    (h : KeyInv l s t.key) (ht : s.tasks[i]? = some t) (o : Outcome)
    (calm : s.receiver = .evicting t.key (some .loading) → decides o t.pc = false) :
    KeyInv l (taskStep l o s i t) t.key := by
  have tinv := h.task i t ht rfl
  have howned := keyed.owned
  -- a task that clears its phase is done with the key
  have clears {pc : TaskPc} (hbusy : busy t.pc = true) (hdone : busy pc = false)
      (free : s.engine.inProgress t.key.engineKey = none)
      (hevict : s.receiver = .evicting t.key (some .loading) → waits t.pc = true → False) :
      KeyInv l ((s.setPhase t.key none).setPc i t pc) t.key :=
    keyInv_busy h ht hbusy (setPhase_effect howned none) (taskInv_idle hdone)
      (fun _ => ⟨free, .inl (update_self _ _ _)⟩) (fun hr hw => (hevict hr hw).elim)
  obtain ⟨request, column, pc⟩ := t
  cases pc with
  | queued =>
    simp only [taskStep]
    split
    · refine keyInv_busy h ht rfl (report_effect howned o _ _) ?_ (by rintro ⟨⟩)
        (fun _ _ => ⟨by simp [State.setPc], rfl⟩)
      simp only [TaskInv, Marked, Free, Sending, State.setPc, reportStatus_phases,
        reportStatus_engine]
      refine ⟨tinv.1, ?_⟩
      split
      · exact tinv.2
      · exact ⟨Nat.zero_le _, tinv.2⟩
    · next hpermit =>
      refine clears rfl rfl tinv.2.1 fun hr _ => ?_
      have decided := calm hr
      simp [decides, hpermit] at decided
  | loading sent => exact keyInv_loading inj keyed h rfl ht o
  | loaded result =>
    have undecided : s.receiver ≠ .evicting (Task.key ⟨request, column, .loaded result⟩)
        (some .loading) := by
      intro hr
      cases calm hr
    cases result with
    | error e => exact clears rfl rfl tinv.2.1 fun hr _ => undecided hr
    | ok metadata =>
      have goes := fun pc hinv hbusy => keyInv_busy h ht rfl
        (setPc_effect howned : TaskEffect s _ i _ pc) hinv hbusy fun hr _ => absurd hr undecided
      simp only [taskStep]
      split
      · next hevicting => exact goes _ ⟨hevicting, tinv.2⟩ (by rintro ⟨⟩)
      · next hphase =>
        have loading := tinv.1.resolve_right hphase
        split <;> exact goes _ ⟨loading, tinv.2⟩ (by rintro ⟨⟩)
  | dropping =>
    have free := drop_free o.duck (Task.key ⟨request, column, .dropping⟩) tinv.2.1
    have dropped : ∀ engine pc, (onDropEpoch o.duck s.engine
        (Task.key ⟨request, column, .dropping⟩).datasetId
        (Task.key ⟨request, column, .dropping⟩).epochId).2 = engine → busy pc = true →
        TaskInv l ({ s with engine := engine }.setPc i ⟨request, column, .dropping⟩ pc) i
          ⟨request, column, pc⟩ →
        KeyInv l ({ s with engine := engine }.setPc i ⟨request, column, .dropping⟩ pc)
          (Task.key ⟨request, column, .dropping⟩) := by
      rintro engine pc rfl hbusy hinv
      refine keyInv_busy h ht rfl (drop_effect howned o.duck) hinv (fun h => ?_)
      rw [hbusy] at h
      cases h
    simp only [taskStep]
    split <;> rename_i heq <;> rw [heq] at free
    · exact dropped _ _ (by rw [heq]) rfl ⟨tinv.1, free⟩
    · split <;> exact dropped _ _ (by rw [heq]) rfl ⟨tinv.1, free⟩
  | dropMacro => exact keyInv_busy h ht rfl (setPc_effect howned) ⟨tinv.1, tinv.2⟩
  | clearing | retracting message => exact clears rfl rfl tinv.2.1 (by rintro - ⟨⟩)
  | registering => exact keyInv_busy h ht rfl (effect_same howned) ⟨tinv.1, tinv.2⟩
  | updatingMacro =>
    simp only [taskStep]
    split <;> exact keyInv_busy h ht rfl (setPc_effect howned) ⟨tinv.1, tinv.2⟩
  | publishing =>
    exact keyInv_busy h ht rfl (setPhase_effect howned (some .active)) trivial
      (fun _ => ⟨tinv.2.1, .inr ⟨update_self _ _ _, tinv.2⟩⟩)
  | reportCompleted => exact keyInv_report h howned ht rfl rfl o .completed none
  | reportFailed message => exact keyInv_report h howned ht rfl rfl o .failed (some message)
  | finished => exact h

end TaskSteps

theorem keyInv_receiver (h : KeyInv l s k) (hreceiver : ReceiverInv s' k)
    (htasks : s'.tasks = s.tasks := by rfl) (hphases : s'.phases = s.phases := by rfl)
    (hengine : s'.engine = s.engine := by rfl)
    (hconvert : ∀ a, s.receiver = .converting a → a.key ≠ k := by simp [*]) :
    KeyInv l s' k := by
  refine ⟨by rw [htasks]; exact h.alone, fun i t ht hk => ?_, fun nobody _ => ?_, hreceiver⟩
  · rw [htasks] at ht
    exact taskInv_frame (h.task i t ht hk) (by rw [hphases]) (by rw [hengine]) (by rw [hengine])
      (by rw [hengine])
  · have before : NoBusy s k := fun i t ht => nobody i t (by rw [htasks]; exact ht)
    simpa only [Resting, Kept, hphases, hengine] using h.resting before hconvert

theorem keyInv_nobody (h : KeyInv l s k) (htasks : s'.tasks = s.tasks) (nobody : NoBusy s k)
    (hrest : (∀ a, s'.receiver = .converting a → a.key ≠ k) → Resting s' k)
    (hreceiver : ReceiverInv s' k) : KeyInv l s' k := by
  refine ⟨by rw [htasks]; exact h.alone, fun i t ht hk => ?_, fun _ => hrest, hreceiver⟩
  rw [htasks] at ht
  exact taskInv_idle (nobody i t ht hk)

theorem receive_keyInv (h : KeyInv l s k) {command : ControlCommand}
    (hcommand : Concerns s k (.receive command)) (calm : Calm s (.receive command)) :
    KeyInv l (receive s command) k := by
  by_cases hidle : s.receiver = .idle
  swap
  · rw [receive_taken hidle command]
    exact h
  cases command with
  | assignment a =>
    cases hcommand
    obtain ⟨nobody, free⟩ := calm hidle
    simp only [receive, hidle]
    split
    · exact keyInv_receiver h trivial
    split
    · exact h
    · refine keyInv_receiver h fun _ => ⟨nobody, free, ?_⟩
      rcases (h.resting (nobusy_of_nolive nobody) (by simp [hidle])).2 with hnone | ⟨-, kept⟩
      · exact hnone
      · have held := kept.2
        rw [free.2] at held
        cases held
  | evictEpoch key reason =>
    cases hcommand
    have notPast := calm hidle
    simp only [receive, hidle]
    refine keyInv_receiver h ?_
    have unmarked : s.phases k ≠ some .loading → s.phases k ≠ some .evicting → NoBusy s k := by
      intro hl he i t ht hk
      by_contra hbusy
      have marked := marked_of_busy (h.task i t ht hk) (by simpa using hbusy)
      rw [hk] at marked
      exact marked.elim hl he
    rcases hphase : s.phases k with _ | _ | _ | _
    case some.loading =>
      exact fun _ => ⟨hphase, fun i t ht hk hbusy => waits_of_loading (h.task i t ht hk)
        (by rw [hk, hphase]) hbusy (notPast i t ht hk)⟩
    case some.evicting => trivial
    all_goals exact fun _ => ⟨unmarked (by simp [hphase]) (by simp [hphase]), hphase⟩
  | drain | unknown eventType => cases hcommand

theorem keyInv_spawn (nobody : NoLive s k) (free : Free s.engine k.engineKey)
    (hphase : s.phases k = some .loading) {t : Task} (ht : t.key = k) (hpc : t.pc = .queued) :
    KeyInv l { s with tasks := s.tasks ++ [t], receiver := .idle } k := by
  refine ⟨fun a b u v hu hv huk hvk hul hvl => ?_, fun j u hu huk => ?_, fun none_busy _ => ?_,
    trivial⟩
  · rcases getElem?_append_cases hu with hu | ⟨rfl, -⟩
    · rw [nobody a u hu huk] at hul
      cases hul
    · rcases getElem?_append_cases hv with hv | ⟨rfl, -⟩
      · rw [nobody b v hv hvk] at hvl
        cases hvl
      · rfl
  · rcases getElem?_append_cases hu with hu | ⟨-, rfl⟩
    · exact taskInv_idle (busy_of_live_false (nobody j u hu huk))
    · simp only [TaskInv, hpc]
      rw [ht]
      exact ⟨.inl hphase, free⟩
  · have queued := none_busy s.tasks.length t (by simp) ht
    rw [hpc] at queued
    cases queued

theorem keyInv_evict (h : KeyInv l s k) (hr : s.receiver = .evicting k (some .loading)) :
    KeyInv l { s.setPhase k (some .evicting) with receiver := .idle } k := by
  have rinv := h.receiver
  unfold ReceiverInv at rinv
  rw [hr] at rinv
  obtain ⟨hphase, hwaits⟩ := rinv rfl
  refine ⟨h.alone, fun i t ht hk => ?_, fun nobody _ => ?_, trivial⟩
  · by_cases hbusy : busy t.pc = true
    · have tinv := h.task i t ht hk
      have wait := hwaits i t ht hk hbusy
      have marked : Marked { s.setPhase k (some .evicting) with receiver := .idle } t.key := by
        rw [hk]
        exact .inr (update_self _ _ _)
      obtain ⟨request, column, pc⟩ := t
      cases pc with
      | queued | loading sent => exact ⟨marked, tinv.2⟩
      | loaded result => cases result <;> exact ⟨marked, tinv.2⟩
      | _ => cases wait
    · exact taskInv_idle (by simpa using hbusy)
  · -- somebody is busy, or the phase would not be loading
    rcases (h.resting nobody (fun a ha => by rw [hr] at ha; cases ha)).2 with
      hnone | ⟨hactive, -⟩
    · rw [hnone] at hphase
      cases hphase
    · rw [hactive] at hphase
      cases hphase

theorem keyInv_drop (h : KeyInv l s k) (hr : s.receiver = .dropping k) (duck : Duck)
    {r : Receiver} (hr' : r = .idle ∨ r = .updatingMacro k) :
    KeyInv l { s with
      engine := (onDropEpoch duck s.engine k.datasetId k.epochId).2, receiver := r } k := by
  have rinv := h.receiver
  unfold ReceiverInv at rinv
  rw [hr] at rinv
  obtain ⟨nobody, hphase⟩ := rinv rfl
  have rest := h.resting nobody (fun a ha => by rw [hr] at ha; cases ha)
  have free := drop_free duck k rest.1
  refine keyInv_nobody h rfl nobody (fun _ => ⟨free.1, .inl hphase⟩) ?_
  rcases hr' with rfl | rfl
  · trivial
  · exact fun _ => ⟨nobody, hphase, free⟩

theorem receiverStep_keyInv (h : KeyInv l s k) (hon : On k s.receiver) (o : Outcome) :
    KeyInv l (receiverStep o s) k := by
  have rinv := h.receiver
  unfold ReceiverInv at rinv
  revert hon rinv
  unfold receiverStep
  cases hr : s.receiver with
  | idle => rintro ⟨⟩
  | reporting key message =>
    exact fun _ _ => keyInv_receiver h trivial (by simp) (by simp) (by simp)
  | marking a =>
    rintro rfl rinv
    obtain ⟨nobody, free, -⟩ := rinv rfl
    exact keyInv_nobody h rfl (nobusy_of_nolive nobody) (fun h => absurd rfl (h a rfl)) fun _ =>
      ⟨nobody, free, update_self _ _ _⟩
  | converting a =>
    rintro rfl rinv
    obtain ⟨nobody, free, hphase⟩ := rinv rfl
    dsimp only
    split
    · exact keyInv_nobody h rfl (nobusy_of_nolive nobody)
        (fun _ => ⟨free.1, .inl (update_self _ _ _)⟩) trivial
    · rename_i request hrequest
      exact keyInv_spawn nobody free hphase (request_key hrequest) rfl
  | evicting key phase =>
    rintro rfl rinv
    have clears : NoBusy s key →
        KeyInv l { s.setPhase key none with receiver := .dropping key } key :=
      fun nobody => keyInv_nobody h rfl nobody
        (fun _ => ⟨(h.resting nobody (by simp [hr])).1, .inl (update_self _ _ _)⟩)
        fun _ => ⟨nobody, update_self _ _ _⟩
    rcases phase with _ | _ | _ | _
    case some.loading => exact keyInv_evict h hr
    case some.evicting => exact keyInv_receiver h trivial
    all_goals exact clears (rinv rfl).1
  | dropping key =>
    rintro rfl -
    have drop : ∀ engine r, (onDropEpoch o.duck s.engine key.datasetId key.epochId).2 = engine →
        r = .idle ∨ r = .updatingMacro key →
        KeyInv l { s with engine := engine, receiver := r } key := by
      rintro engine r rfl hr'
      exact keyInv_drop h hr o.duck hr'
    dsimp only
    split <;> rename_i heq
    · exact drop _ _ (by rw [heq]) (.inl rfl)
    · split
      · exact drop _ _ (by rw [heq]) (.inr rfl)
      · exact drop _ _ (by rw [heq]) (.inl rfl)
  | updatingMacro key => exact fun _ _ => keyInv_receiver h trivial

section Runs

variable {K : Set EpochKey}

structure Inv (l : Loader) (K : Set EpochKey) (s : State) : Prop where
  keyed : Keyed K s
  keys : ∀ k ∈ K, KeyInv l s k

theorem inv_initial : Inv l K initial := ⟨keyed_initial K, fun k _ => keyInv_initial l k⟩

theorem step_inv (inj : Set.InjOn EpochKey.engineKey K) (s : State) (m : Move) (inv : Inv l K s)
    (horderly : Orderly K s m) : Inv l K (step l s m) := by
  obtain ⟨uses, calm⟩ := horderly
  refine ⟨step_keyed l inj inv.keyed uses, fun k hk => ?_⟩
  by_cases hm : Concerns s k m
  swap
  · exact keyInv_frame (inv.keys k hk) (step_sameKey l inj inv.keyed uses hk hm)
  cases m with
  | receive command => exact receive_keyInv (inv.keys k hk) hm calm
  | receiver o => exact receiverStep_keyInv (inv.keys k hk) hm o
  | task i o =>
    obtain ⟨t, ht, rfl⟩ := hm
    simp only [step, ht]
    exact taskStep_keyInv inj inv.keyed (inv.keys t.key hk) ht o (calm t ht)

theorem run_inv (inj : Set.InjOn EpochKey.engineKey K) {moves : List Move}
    (horderly : Runs.Along (step l) (Orderly K) initial moves) :
    Inv l K (Runs.run (step l) initial moves) :=
  Runs.run_kept (step_inv inj) inv_initial horderly

end Runs

end Leibrix.DispatcherCalm
