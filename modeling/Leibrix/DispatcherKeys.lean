import Leibrix.Dispatcher
import Leibrix.EpochAlone
import Mathlib.Data.Set.Function

/-!
# Which moves concern a key

A move of the dispatcher works on one key: the key of the command, of the task or of
what the receive task has in hand. As long as the keys in use have keys of their own in the
engine, it leaves the phase, the epoch, the tasks and the reports of all other keys alone.
-/

set_option autoImplicit false

namespace Leibrix.DispatcherKeys
open EpochEngine EpochEffects EpochAlone SourceClients SourceLoad Dispatcher
open EpochCalls (comKey_commands streamError_ok)
open List

def lastReport (s : State) (k : EpochKey) : Option LoadStatus :=
  (s.reported.find? fun update => update.key = k).map StatusUpdate.status

def On (k : EpochKey) : Receiver → Prop
  | .idle => False
  | .reporting key _ | .evicting key _ | .dropping key | .updatingMacro key => key = k
  | .marking a | .converting a => a.key = k

def Concerns (s : State) (k : EpochKey) : Move → Prop
  | .receive (.assignment a) => a.key = k
  | .receive (.evictEpoch key _) => key = k
  | .receive _ => False
  | .receiver _ => On k s.receiver
  | .task i _ => ∃ t, s.tasks[i]? = some t ∧ t.key = k

def Uses (K : Set EpochKey) : Move → Prop
  | .receive (.assignment a) => a.key ∈ K
  | .receive (.evictEpoch key _) => key ∈ K
  | _ => True

/-- All keys in hand are among these, and an open epoch belongs to a task of its key. -/
structure Keyed (K : Set EpochKey) (s : State) : Prop where
  owned : Owned s.engine
  owner : ∀ κ ep, s.engine.inProgress κ = some ep →
    ∃ t, s.tasks[ep.done]? = some t ∧ t.key.engineKey = κ
  taskKeys : ∀ (i : Nat) (t : Task), s.tasks[i]? = some t → t.key ∈ K
  receiverKeys : ∀ k, On k s.receiver → k ∈ K

theorem keyed_initial (K : Set EpochKey) : Keyed K initial where
  owned := owned_fresh
  owner _ _ h := by cases h
  taskKeys _ _ h := by simp [initial] at h
  receiverKeys _ h := by cases h

/-- The two states agree on everything about a key. -/
structure SameKey (k : EpochKey) (s s' : State) : Prop where
  phase : s'.phases k = s.phases k
  progress : s'.engine.inProgress k.engineKey = s.engine.inProgress k.engineKey
  committed : s'.engine.committed k.engineKey = s.engine.committed k.engineKey
  tasks : ∀ (i : Nat) (t : Task), t.key = k → (s'.tasks[i]? = some t ↔ s.tasks[i]? = some t)
  replies : ∀ (i : Nat) (t : Task), t.key = k → s.tasks[i]? = some t →
    s'.engine.replies i = s.engine.replies i
  receiver : s'.receiver = s.receiver ∨ (¬ On k s'.receiver ∧ ¬ On k s.receiver)
  reported : lastReport s' k = lastReport s k

theorem SameKey.refl (k : EpochKey) (s : State) : SameKey k s s :=
  ⟨rfl, rfl, rfl, fun _ _ _ => Iff.rfl, fun _ _ _ _ => rfl, .inl rfl, rfl⟩

section Reports

variable {s : State} {key k : EpochKey} {status : LoadStatus} {error : Option String} {o : Outcome}

theorem lastReport_other (h : k ≠ key) :
    lastReport (s.reportStatus o key status error) k = lastReport s k := by
  unfold State.reportStatus lastReport
  split
  · rw [find?_cons_of_neg]
    simpa using fun hk : key = k => h hk.symm
  · rfl

theorem lastReport_self (h : o.delivers = true) :
    lastReport (s.reportStatus o key status error) key = some status := by
  simp [State.reportStatus, lastReport, h]

end Reports

variable {tasks : List Task} {j : Nat} {K : Set EpochKey} {l : Loader} {s s' : State}

section TaskSteps

variable {k : EpochKey} {i : Nat} {t : Task} {pc : TaskPc}

theorem getElem?_set_cases {t u : Task} (h : (tasks.set i t)[j]? = some u) :
    (j = i ∧ u = t) ∨ (j ≠ i ∧ tasks[j]? = some u) := by
  by_cases hj : j = i
  · subst hj
    rw [getElem?_set_self'] at h
    obtain ⟨_, -, rfl⟩ := Option.map_eq_some_iff.mp h
    exact .inl ⟨rfl, rfl⟩
  · rw [getElem?_set_ne (Ne.symm hj)] at h
    exact .inr ⟨hj, h⟩

theorem getElem?_set_here (h : tasks[i]? = some t) (u : Task) : (tasks.set i u)[i]? = some u := by
  have here := (List.getElem?_eq_some_iff.mp h).1
  rw [getElem?_set_self here]

/-- What a step of a task leaves alone. -/
structure TaskEffect (s s' : State) (i : Nat) (t : Task) (pc : TaskPc) : Prop where
  tasks : s'.tasks = s.tasks.set i { t with pc := pc }
  receiver : s'.receiver = s.receiver
  phases : ∀ k, k ≠ t.key → s'.phases k = s.phases k
  acts : ActsOn t.key.engineKey s.engine s'.engine
  owned : Owned s'.engine
  replies : ∀ (j : Nat) (u : Task), s.tasks[j]? = some u → u.key ≠ t.key →
    s'.engine.replies j = s.engine.replies j
  owner : ∀ κ ep, s'.engine.inProgress κ = some ep →
    (ep.done = i ∧ κ = t.key.engineKey) ∨
      ∃ before, s.engine.inProgress κ = some before ∧ before.done = ep.done
  reported : ∀ k, k ≠ t.key → lastReport s' k = lastReport s k

theorem TaskEffect.keyed (effect : TaskEffect s s' i t pc) (h : Keyed K s)
    (ht : s.tasks[i]? = some t) : Keyed K s' := by
  have lasts : ∀ (j : Nat) (u : Task), s.tasks[j]? = some u →
      ∃ u', s'.tasks[j]? = some u' ∧ u'.key = u.key := by
    intro j u hu
    rw [effect.tasks]
    by_cases hj : j = i
    · subst hj
      rw [hu] at ht
      cases ht
      exact ⟨_, getElem?_set_here hu _, rfl⟩
    · exact ⟨u, by rw [getElem?_set_ne (fun h => hj h.symm)]; exact hu, rfl⟩
  refine ⟨effect.owned, fun κ ep hep => ?_, fun j u hu => ?_, fun k hk => ?_⟩
  · rcases effect.owner κ ep hep with ⟨hdone, rfl⟩ | ⟨before, hbefore, hdone⟩
    · obtain ⟨u, hu, hkey⟩ := lasts i t ht
      exact ⟨u, by rw [hdone]; exact hu, by rw [hkey]⟩
    · obtain ⟨u, hu, hκ⟩ := h.owner κ before hbefore
      obtain ⟨u', hu', hkey⟩ := lasts before.done u hu
      exact ⟨u', by rw [← hdone]; exact hu', by rw [hkey]; exact hκ⟩
  · rw [effect.tasks] at hu
    rcases getElem?_set_cases hu with ⟨-, rfl⟩ | ⟨-, hu⟩
    · exact h.taskKeys i t ht
    · exact h.taskKeys j u hu
  · rw [effect.receiver] at hk
    exact h.receiverKeys k hk

theorem TaskEffect.sameKey (effect : TaskEffect s s' i t pc) (ht : s.tasks[i]? = some t)
    (hk : k ≠ t.key) (hκ : k.engineKey ≠ t.key.engineKey) : SameKey k s s' := by
  refine ⟨effect.phases k hk, effect.acts.inProgress _ hκ, effect.acts.committed _ hκ,
    fun j u huk => ?_, fun j u huk hu => effect.replies j u hu (huk ▸ hk), .inl effect.receiver,
    effect.reported k hk⟩
  rw [effect.tasks]
  constructor
  · intro hu
    rcases getElem?_set_cases hu with ⟨-, rfl⟩ | ⟨-, hu⟩
    · exact absurd huk.symm hk
    · exact hu
  · intro hu
    have hj : i ≠ j := by
      intro h
      subst h
      rw [hu] at ht
      cases ht
      exact hk huk.symm
    rw [getElem?_set_ne hj]
    exact hu

theorem effect_same {s₁ : State} (howned : Owned s.engine)
    (htasks : s₁.tasks = s.tasks := by rfl) (hreceiver : s₁.receiver = s.receiver := by rfl)
    (hphases : ∀ k, k ≠ t.key → s₁.phases k = s.phases k := by intros; rfl)
    (hengine : s₁.engine = s.engine := by rfl)
    (hreported : ∀ k, k ≠ t.key → lastReport s₁ k = lastReport s k := by intros; rfl) :
    TaskEffect s (s₁.setPc i t pc) i t pc := by
  refine ⟨by rw [State.setPc, htasks], hreceiver, hphases, ?_, ?_, fun _ _ _ _ => ?_,
    fun κ ep hep => ?_, hreported⟩
  all_goals simp only [State.setPc, hengine] at *
  · exact .refl _ _
  · exact howned
  · exact .inr ⟨ep, hep, rfl⟩

theorem setPc_effect (howned : Owned s.engine) : TaskEffect s (s.setPc i t pc) i t pc :=
  effect_same howned

theorem setPhase_effect (howned : Owned s.engine) (phase : Option EpochPhase) :
    TaskEffect s ((s.setPhase t.key phase).setPc i t pc) i t pc :=
  effect_same howned rfl rfl (fun _ hk => Function.update_of_ne hk _ _)

theorem report_effect (howned : Owned s.engine) (o : Outcome) (status : LoadStatus)
    (message : Option String) :
    TaskEffect s ((s.reportStatus o t.key status message).setPc i t pc) i t pc :=
  effect_same howned (by simp) (by simp) (by simp) (by simp) (fun _ hk => lastReport_other hk)

theorem drop_keeps (duck : Duck) (e : EngineState Nat) (datasetId epochId : String) :
    (onDropEpoch duck e datasetId epochId).2.inProgress = e.inProgress ∧
      (onDropEpoch duck e datasetId epochId).2.replies = e.replies := by
  rcases drop_cases duck e datasetId epochId with heq | ⟨-, _, _, _, -, -, heq⟩ <;>
    simp only [heq, and_self]

theorem drop_effect (howned : Owned s.engine) (duck : Duck) :
    TaskEffect s ({ s with
      engine := (onDropEpoch duck s.engine t.key.datasetId t.key.epochId).2 }.setPc i t pc)
      i t pc := by
  obtain ⟨acts, owned⟩ := drop_acts duck howned t.key.datasetId t.key.epochId
  obtain ⟨progress, replies⟩ := drop_keeps duck s.engine t.key.datasetId t.key.epochId
  refine ⟨rfl, rfl, fun _ _ => rfl, acts, owned, fun j u hu huk => congrFun replies j,
    fun κ ep hep => ?_, fun _ _ => rfl⟩
  exact .inr ⟨ep, (congrFun progress κ).symm.trans hep, rfl⟩

theorem command_effect (inj : Set.InjOn EpochKey.engineKey K) (h : Keyed K s)
    (ht : s.tasks[i]? = some t) (threshold : Nat) (duck : Duck) {stream : RecordBatchStream}
    {n : Nat} {com : EngineCom Nat}
    (hcom : ((callOf t.request stream).commands i)[n]? = some com) :
    TaskEffect s ({ s with engine := engineStep threshold duck s.engine com }.setPc i t pc)
      i t pc := by
  obtain ⟨acts, owned⟩ := engineStep_acts threshold duck h.owned com
  rw [comKey_commands _ _ hcom] at acts
  refine ⟨rfl, rfl, fun _ _ => rfl, acts, owned, fun j u hu huk => ?_,
    fun κ ep hep => effect_owner hcom (engineStep_effect ..) hep, fun _ _ => rfl⟩
  apply effect_replies hcom (engineStep_effect ..)
  · intro hji
    subst hji
    rw [hu] at ht
    cases ht
    exact huk rfl
  · intro ep hep hdone
    obtain ⟨v, hv, hκ⟩ := h.owner _ ep hep
    rw [hdone, hu] at hv
    cases hv
    exact huk (inj (h.taskKeys j u hu) (h.taskKeys i t ht) hκ)

variable (l) in
theorem taskStep_effect (inj : Set.InjOn EpochKey.engineKey K) (h : Keyed K s)
    (ht : s.tasks[i]? = some t) (o : Outcome) :
    taskStep l o s i t = s ∨ ∃ pc, TaskEffect s (taskStep l o s i t) i t pc := by
  have drop : ∀ engine pc, (onDropEpoch o.duck s.engine t.key.datasetId t.key.epochId).2 = engine →
      ∃ pc', TaskEffect s ({ s with engine := engine }.setPc i t pc) i t pc' := by
    rintro engine pc rfl
    exact ⟨pc, drop_effect h.owned o.duck⟩
  fun_cases taskStep l o s i t
  case case4 com hcom => exact .inr ⟨_, command_effect inj h ht l.threshold o.duck hcom⟩
  case case6 | case22 => exact .inl rfl
  case case11 heq | case12 heq => exact .inr (drop _ _ (by rw [heq]))
  case case1 | case20 | case21 => exact .inr ⟨_, report_effect h.owned o _ _⟩
  case case2 | case7 | case14 | case18 | case19 => exact .inr ⟨_, setPhase_effect h.owned _⟩
  all_goals exact .inr ⟨_, effect_same h.owned⟩

end TaskSteps

section ReceiverSteps

variable {k key : EpochKey}

/-- What a step of the receive task leaves alone while it has one key in hand. -/
structure ReceiverEffect (key : EpochKey) (s s' : State) : Prop where
  tasks : s'.tasks = s.tasks ∨ ∃ t, t.key = key ∧ s'.tasks = s.tasks ++ [t]
  before : ∀ k, On k s.receiver → k = key
  after : ∀ k, On k s'.receiver → k = key
  phases : ∀ k, k ≠ key → s'.phases k = s.phases k
  acts : ActsOn key.engineKey s.engine s'.engine
  owned : Owned s'.engine
  progress : s'.engine.inProgress = s.engine.inProgress
  replies : s'.engine.replies = s.engine.replies
  reported : ∀ k, k ≠ key → lastReport s' k = lastReport s k

theorem getElem?_append_cases {t u : Task} (h : (tasks ++ [t])[j]? = some u) :
    tasks[j]? = some u ∨ (j = tasks.length ∧ u = t) := by
  rw [getElem?_append] at h
  split at h
  · exact .inl h
  · obtain ⟨hj, rfl⟩ := List.getElem?_eq_some_iff.mp h
    simp only [length_singleton] at hj
    exact .inr ⟨by omega, by simp⟩

theorem getElem?_append_kept {u : Task} (h : tasks[j]? = some u) (t : Task) :
    (tasks ++ [t])[j]? = some u := by
  rw [getElem?_append_left (List.getElem?_eq_some_iff.mp h).1]
  exact h

theorem ReceiverEffect.keyed (effect : ReceiverEffect key s s') (h : Keyed K s) (hkey : key ∈ K) :
    Keyed K s' := by
  refine ⟨effect.owned, fun κ ep hep => ?_, fun i t ht => ?_, fun k hk => ?_⟩
  · rw [effect.progress] at hep
    obtain ⟨u, hu, hκ⟩ := h.owner κ ep hep
    rcases effect.tasks with heq | ⟨t, -, heq⟩ <;> rw [heq]
    · exact ⟨u, hu, hκ⟩
    · exact ⟨u, getElem?_append_kept hu t, hκ⟩
  · rcases effect.tasks with heq | ⟨new, hnew, heq⟩ <;> rw [heq] at ht
    · exact h.taskKeys i t ht
    · rcases getElem?_append_cases ht with ht | ⟨-, rfl⟩
      · exact h.taskKeys i t ht
      · rw [hnew]
        exact hkey
  · rw [effect.after k hk]
    exact hkey

theorem ReceiverEffect.sameKey (effect : ReceiverEffect key s s') (hk : k ≠ key)
    (hκ : k.engineKey ≠ key.engineKey) : SameKey k s s' := by
  refine ⟨effect.phases k hk, effect.acts.inProgress _ hκ, effect.acts.committed _ hκ,
    fun i t htk => ?_, fun i t _ _ => by rw [effect.replies], .inr ⟨fun hon => hk
      (effect.after k hon), fun hon => hk (effect.before k hon)⟩, effect.reported k hk⟩
  rcases effect.tasks with heq | ⟨new, hnew, heq⟩ <;> rw [heq]
  refine ⟨fun ht => ?_, fun ht => getElem?_append_kept ht new⟩
  rcases getElem?_append_cases ht with ht | ⟨-, rfl⟩
  · exact ht
  · exact absurd (htk.symm.trans hnew) hk

theorem receiver_effect (howned : Owned s.engine) (hbefore : ∀ k, On k s.receiver → k = key)
    (hafter : ∀ k, On k s'.receiver → k = key)
    (htasks : s'.tasks = s.tasks ∨ ∃ t, t.key = key ∧ s'.tasks = s.tasks ++ [t] := by
      exact .inl rfl)
    (hphases : ∀ k, k ≠ key → s'.phases k = s.phases k := by intros; rfl)
    (hengine : s'.engine = s.engine := by rfl)
    (hreported : ∀ k, k ≠ key → lastReport s' k = lastReport s k := by intros; rfl) :
    ReceiverEffect key s s' :=
  ⟨htasks, hbefore, hafter, hphases, by rw [hengine]; exact .refl _ _,
    by rw [hengine]; exact howned, by rw [hengine], by rw [hengine], hreported⟩

theorem request_key {a : LoadAssignment} {request : LoadRequest} {column : String} {pc : TaskPc}
    (h : intoLoadRequest a = .ok request) : Task.key ⟨request, column, pc⟩ = a.key := by
  unfold intoLoadRequest at h
  split at h
  · cases h
  · cases h
    rfl

theorem receiver_drop_effect (howned : Owned s.engine) (hbefore : ∀ k, On k s.receiver → k = key)
    (duck : Duck) {r : Receiver} (hafter : ∀ k, On k r → k = key) :
    ReceiverEffect key s { s with
      engine := (onDropEpoch duck s.engine key.datasetId key.epochId).2, receiver := r } := by
  obtain ⟨acts, owned⟩ := drop_acts duck howned key.datasetId key.epochId
  obtain ⟨progress, replies⟩ := drop_keeps duck s.engine key.datasetId key.epochId
  exact ⟨.inl rfl, hbefore, hafter, fun _ _ => rfl, acts, owned, progress, replies,
    fun _ _ => rfl⟩

theorem receiverStep_effect (howned : Owned s.engine) (o : Outcome) (hon : On key s.receiver) :
    ReceiverEffect key s (receiverStep o s) := by
  have before : ∀ k, On k s.receiver → k = key := by
    intro k hk
    cases hr : s.receiver <;> rw [hr] at hk hon
    · cases hk
    all_goals exact hk.symm.trans hon
  have idle : ∀ k, On k .idle → k = key := fun k hk => (nomatch hk)
  have written := fun (phase : Option EpochPhase) k (hk : k ≠ key) =>
    Function.update_of_ne hk phase s.phases
  revert hon
  unfold receiverStep
  cases hr : s.receiver with
  | idle => rintro ⟨⟩
  | reporting k message =>
    rintro rfl
    exact receiver_effect howned before idle (.inl (by simp)) (by simp) (by simp)
      (fun _ hk => lastReport_other hk)
  | marking a =>
    rintro rfl
    exact receiver_effect howned before (fun k hk => hk.symm) (.inl rfl) (written _)
  | converting a =>
    rintro rfl
    dsimp only
    split
    · exact receiver_effect howned before (fun k hk => hk.symm) (.inl rfl) (written _)
    · next request hrequest =>
      exact receiver_effect howned before idle (.inr ⟨_, request_key hrequest, rfl⟩)
  | evicting k phase =>
    rintro rfl
    dsimp only
    split
    · exact receiver_effect howned before idle (.inl rfl) (written _)
    · exact receiver_effect howned before idle
    all_goals exact receiver_effect howned before (fun k hk => hk.symm) (.inl rfl) (written _)
  | dropping k =>
    rintro rfl
    have drop : ∀ engine r, (onDropEpoch o.duck s.engine k.datasetId k.epochId).2 = engine →
        (∀ k', On k' r → k' = k) →
        ReceiverEffect k s { s with engine := engine, receiver := r } := by
      rintro engine r rfl hafter
      exact receiver_drop_effect howned before o.duck hafter
    dsimp only
    split
    · next heq => exact drop _ _ (by rw [heq]) idle
    · next heq =>
      split
      · exact drop _ (.updatingMacro k) (by rw [heq]) (fun k hk => hk.symm)
      · exact drop _ _ (by rw [heq]) idle
  | updatingMacro k =>
    rintro rfl
    exact receiver_effect howned before idle

theorem receive_taken (h : s.receiver ≠ .idle) (command : ControlCommand) :
    receive s command = s := by
  unfold receive
  split
  · rename_i hr
    exact absurd hr h
  · rfl

variable {command : ControlCommand}

theorem receive_effect (howned : Owned s.engine) (hcommand : Concerns s key (.receive command)) :
    receive s command = s ∨ ReceiverEffect key s (receive s command) := by
  by_cases hidle : s.receiver = .idle
  swap
  · exact .inl (receive_taken hidle command)
  have before : ∀ k, On k s.receiver → k = key := by
    intro k hk
    rw [hidle] at hk
    cases hk
  cases command with
  | assignment a =>
    cases hcommand
    simp only [receive, hidle]
    split
    · exact .inr (receiver_effect howned before (fun k hk => hk.symm))
    split
    · exact .inl rfl
    · exact .inr (receiver_effect howned before (fun k hk => hk.symm))
  | evictEpoch k reason =>
    cases hcommand
    simp only [receive, hidle]
    exact .inr (receiver_effect howned before (fun k hk => hk.symm))
  | drain | unknown eventType => cases hcommand

theorem receive_keyless (hcommand : ∀ k, ¬ Concerns s k (.receive command)) :
    receive s command = s ∨ receive s command = { s with draining := true } := by
  unfold receive
  split
  · split
    · exact absurd rfl (hcommand _)
    · exact absurd rfl (hcommand _)
    · exact .inr rfl
    · exact .inl rfl
  · exact .inl rfl

theorem step_idle (o : Outcome) (h : ∀ k, ¬ On k s.receiver) : receiverStep o s = s := by
  cases hr : s.receiver <;> rw [hr] at h
  · simp only [receiverStep, hr]
  all_goals exact absurd rfl (h _)

theorem concerns_uses (uses : Uses K (.receive command)) (h : Concerns s key (.receive command)) :
    key ∈ K := by
  cases command with
  | assignment a | evictEpoch k reason => exact h ▸ uses
  | drain | unknown eventType => cases h

variable (l) in
theorem step_keyed (inj : Set.InjOn EpochKey.engineKey K) (h : Keyed K s) {m : Move}
    (uses : Uses K m) : Keyed K (step l s m) := by
  cases m with
  | receive command =>
    by_cases hkey : ∃ key, Concerns s key (.receive command)
    · obtain ⟨key, hkey⟩ := hkey
      rcases receive_effect h.owned hkey with heq | effect
      · rw [step, heq]
        exact h
      · exact effect.keyed h (concerns_uses uses hkey)
    · rcases receive_keyless (not_exists.mp hkey) with heq | heq <;> rw [step, heq]
      · exact h
      · exact ⟨h.owned, h.owner, h.taskKeys, h.receiverKeys⟩
  | receiver o =>
    by_cases hkey : ∃ key, On key s.receiver
    · obtain ⟨key, hkey⟩ := hkey
      exact (receiverStep_effect h.owned o hkey).keyed h (h.receiverKeys key hkey)
    · rw [step, step_idle o (not_exists.mp hkey)]
      exact h
  | task i o =>
    cases ht : s.tasks[i]? with
    | none => simpa only [step, ht] using h
    | some t =>
      simp only [step, ht]
      rcases taskStep_effect l inj h ht o with heq | ⟨pc, effect⟩
      · rw [heq]
        exact h
      · exact effect.keyed h ht

variable (l) in
/-- A move leaves alone all keys that it does not concern. -/
theorem step_sameKey (inj : Set.InjOn EpochKey.engineKey K) (h : Keyed K s) {m : Move}
    (uses : Uses K m) (hk : k ∈ K) (hm : ¬ Concerns s k m) : SameKey k s (step l s m) := by
  cases m with
  | receive command =>
    by_cases hkey : ∃ key, Concerns s key (.receive command)
    · obtain ⟨key, hkey⟩ := hkey
      have ne : k ≠ key := fun heq => hm (heq ▸ hkey)
      rcases receive_effect h.owned hkey with heq | effect
      · rw [step, heq]
        exact .refl k s
      · exact effect.sameKey ne (fun heq => ne (inj hk (concerns_uses uses hkey) heq))
    · rcases receive_keyless (not_exists.mp hkey) with heq | heq <;> rw [step, heq]
      · exact .refl k s
      · exact ⟨rfl, rfl, rfl, fun _ _ _ => Iff.rfl, fun _ _ _ _ => rfl, .inl rfl, rfl⟩
  | receiver o =>
    by_cases hkey : ∃ key, On key s.receiver
    · obtain ⟨key, hkey⟩ := hkey
      have ne : k ≠ key := fun heq => hm (heq ▸ hkey)
      exact (receiverStep_effect h.owned o hkey).sameKey ne
        (fun heq => ne (inj hk (h.receiverKeys key hkey) heq))
    · rw [step, step_idle o (not_exists.mp hkey)]
      exact .refl k s
  | task i o =>
    cases ht : s.tasks[i]? with
    | none =>
      simp only [step, ht]
      exact .refl k s
    | some t =>
      have ne : k ≠ t.key := fun heq => hm ⟨t, ht, heq.symm⟩
      simp only [step, ht]
      rcases taskStep_effect l inj h ht o with heq | ⟨pc, effect⟩
      · rw [heq]
        exact .refl k s
      · exact effect.sameKey ht ne (fun heq => ne (inj hk (h.taskKeys i t ht) heq))

end ReceiverSteps

end Leibrix.DispatcherKeys
