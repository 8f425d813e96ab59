import Leibrix.DispatcherCalm
import Leibrix.EpochCommands

/-!
# Evictions are not lost in orderly runs

Once an eviction is handled, the key is either marked as evicting, and its load task will
drop the epoch, or it is gone from the phases and from the engine. Outside orderly runs an
eviction can come between the check of a load task and its publication, and is lost. A load
that fails after its table was made leaves the table behind.
-/

set_option autoImplicit false

namespace Leibrix.DispatcherEvict
open EpochEngine EpochEffects EpochAlone SourceLoad Dispatcher DispatcherKeys
open DispatcherCalm EpochCommands Runs List

/-- A table of the epoch is there: the engine lists it, or a load task of the key was to make it
and no other epoch has it. -/
def Stored (s : State) (k : EpochKey) : Prop :=
  ∃ table, (s.engine.tables table).isSome ∧ (tableOf s.engine k.engineKey = some table ∨
    (∃ t ∈ s.tasks, t.key = k ∧ t.request.epochView.tableName = table) ∧
      ∀ κ, tableOf s.engine κ = some table → κ = k.engineKey)

def Assigns (k : EpochKey) : Move → Prop
  | .receive (.assignment a) => a.key = k
  | _ => False

def DropsSucceed : Move → Prop
  | .receive _ => True
  | .receiver o | .task _ o => o.duck.drops = true

/-- The eviction of a loading or active key is not lost: once it has been handled, and until the
key is assigned again, the key is not active, and when all tasks have finished no table of it is
in storage. -/
def EvictionKept (l : Loader) (k : EpochKey) (reason : String) (before handling after : List Move) :
    Prop :=
  let s := run (step l) initial before
  let handled := run (step l) (step l s (.receive (.evictEpoch k reason))) handling
  let last := run (step l) handled after
  s.receiver = .idle → s.phases k = some .loading ∨ s.phases k = some .active →
  handled.receiver = .idle → (∀ m ∈ handling ++ after, ¬ Assigns k m) →
  (∀ m ∈ before ++ handling ++ after, DropsSucceed m) →
  last.phases k ≠ some .active ∧ (Quiet last → ¬ Stored last k)

section Engine

variable {l : Loader} {s : State} {m : Move}

/-- The command that the engine gets with a move. -/
def engineMove (l : Loader) (s : State) : Move → Option (Duck × Command Nat)
  | .receive _ => none
  | .receiver o =>
    match s.receiver with
    | .dropping key => some (o.duck, .drop key.datasetId key.epochId)
    | _ => none
  | .task i o =>
    s.tasks[i]?.bind fun t =>
      match t.pc with
      | .loading sent =>
        match l.stream t.request with
        | .ok stream =>
          ((callOf t.request stream).commands i)[sent]?.map fun com => (o.duck, .engine com)
        | .error _ => none
      | .dropping => some (o.duck, .drop t.key.datasetId t.key.epochId)
      | _ => none

theorem step_engine (l : Loader) (s : State) (m : Move) :
    (step l s m).engine = (engineMove l s m).elim s.engine (command l.threshold s.engine) := by
  cases m with
  | receive command =>
    simp only [step, engineMove]
    fun_cases receive s command <;> rfl
  | receiver o =>
    simp only [step, engineMove]
    fun_cases receiverStep o s
    case case2 =>
      simp only [*]
      exact reportStatus_engine ..
    case case10 | case11 | case12 => simp_all [command]
    all_goals
      simp only [*]
      rfl
  | task i o =>
    cases ht : s.tasks[i]? with
    | none => simp [step, engineMove, ht]
    | some t =>
      simp only [step, engineMove, ht, Option.bind_some]
      fun_cases taskStep l o s i t <;> simp_all [command, State.setPc, State.setPhase]

/-- A load that the engine has started ends with its epoch committed. -/
def LoadsComplete (l : Loader) (s : State) (m : Move) : Prop :=
  ∀ duck com, engineMove l s m = some (duck, .engine com) →
    Completes l.threshold s.engine (duck, .engine com)

/-- The engine knows all tables. -/
def Known (s : State) : Prop := Mirrors s.engine ∧ Owned s.engine

theorem known_step (h : Known s) (complete : LoadsComplete l s m) (drops : DropsSucceed m) :
    Known (step l s m) := by
  rw [Known, step_engine]
  cases hm : engineMove l s m with
  | none => exact h
  | some c =>
    refine ⟨h.1.command h.2 ?_, (command_acts l.threshold h.2 c).2⟩
    obtain ⟨duck, com | ⟨datasetId, epochId⟩⟩ := c
    · exact complete duck com hm
    · cases m with
      | receive command => cases hm
      | receiver o =>
        simp only [engineMove] at hm
        split at hm <;> cases hm
        exact drops
      | task i o =>
        obtain ⟨t, -, hm⟩ := Option.bind_eq_some_iff.mp hm
        split at hm
        · split at hm
          · obtain ⟨com, -, hcom⟩ := Option.map_eq_some_iff.mp hm
            cases hcom
          · cases hm
        · cases hm
          exact drops
        · cases hm

theorem known_run {moves : List Move} (complete : Along (step l) (LoadsComplete l) initial moves)
    (drops : ∀ m ∈ moves, DropsSucceed m) : Known (run (step l) initial moves) :=
  run_kept (I := Known) (fun _ _ h hm => known_step h hm.1 hm.2) ⟨mirrors_fresh, owned_fresh⟩
    (along_and complete (along_of_forall (fun m hm _ => drops m hm) _))

end Engine

def Unassigned (k : EpochKey) : Receiver → Prop
  | .marking a | .converting a => a.key ≠ k
  | _ => True

/-- The key is evicted, or will be by its load task. -/
structure Gone (s : State) (k : EpochKey) : Prop where
  unassigned : Unassigned k s.receiver
  phase : s.phases k = some .evicting ∨
    (s.phases k = none ∧ s.engine.committed k.engineKey = none)

section Steps

variable {l : Loader} {K : Set EpochKey} {s s' : State} {k : EpochKey} {i : Nat} {t : Task}

theorem Gone.not_loading (h : Gone s k) : s.phases k ≠ some .loading := by
  rcases h.phase with hphase | ⟨hphase, -⟩ <;> simp [hphase]

theorem Gone.not_active (h : Gone s k) : s.phases k ≠ some .active := by
  rcases h.phase with hphase | ⟨hphase, -⟩ <;> simp [hphase]

theorem unassigned_off {r : Receiver} (h : ¬ On k r) : Unassigned k r := by
  cases r <;> trivial

theorem Gone.frame (h : Gone s k) (same : SameKey k s s') : Gone s' k := by
  refine ⟨?_, ?_⟩
  · rcases same.receiver with heq | ⟨hoff, -⟩
    · rw [heq]
      exact h.unassigned
    · exact unassigned_off hoff
  · rw [same.phase, same.committed]
    exact h.phase

theorem Gone.keep (h : Gone s k)
    (hcommitted : s.phases k = none → s'.engine.committed k.engineKey = none)
    (hreceiver : s'.receiver = s.receiver := by rfl)
    (hphase : s'.phases k = s.phases k := by rfl) : Gone s' k := by
  refine ⟨by rw [hreceiver]; exact h.unassigned, ?_⟩
  rw [hphase]
  exact h.phase.imp id fun hnone => ⟨hnone.1, hcommitted hnone.1⟩

theorem Gone.clear (h : Gone s k) (free : Free s'.engine k.engineKey)
    (hphase : s'.phases k = none := by exact Function.update_self _ _ _)
    (hreceiver : s'.receiver = s.receiver := by rfl) : Gone s' k :=
  ⟨by rw [hreceiver]; exact h.unassigned, .inr ⟨hphase, free.2⟩⟩

theorem taskStep_gone (kinv : KeyInv l s t.key) (h : Gone s t.key) (ht : s.tasks[i]? = some t)
    (o : Outcome) : Gone (taskStep l o s i t) t.key := by
  have tinv := kinv.task i t ht rfl
  have held : s.phases t.key = none → s.engine.committed t.key.engineKey = none := fun hnone =>
    h.phase.elim (fun hphase => by rw [hphase] at hnone; cases hnone) And.right
  have marked : busy t.pc = true → s.phases t.key ≠ none := by
    intro hbusy hnone
    rcases marked_of_busy tinv hbusy with hphase | hphase <;>
    · rw [hphase] at hnone
      cases hnone
  unfold TaskInv at tinv
  fun_cases taskStep l o s i t <;> rw [‹t.pc = _›] at tinv marked
  case case1 | case20 | case21 =>
    exact h.keep (by simpa [State.setPc] using held) (by simp [State.setPc]) (by simp [State.setPc])
  case case2 | case7 | case14 => exact h.clear tinv.2
  case case4 | case11 | case12 => exact h.keep fun hnone => absurd hnone (marked rfl)
  case case15 | case16 | case17 | case18 | case19 => exact absurd tinv.1 h.not_loading
  case case6 | case22 => exact h
  all_goals exact h.keep held

theorem dropping_gone (kinv : KeyInv l s k) (hr : s.receiver = .dropping k) (o : Outcome) :
    Gone (receiverStep o s) k := by
  have rinv := kinv.receiver
  unfold ReceiverInv at rinv
  rw [hr] at rinv
  obtain ⟨nobody, hphase⟩ := rinv rfl
  have rest := kinv.resting nobody (fun a ha => by rw [hr] at ha; cases ha)
  have free := drop_free o.duck k rest.1
  simp only [receiverStep, hr]
  split <;> rename_i heq <;> rw [heq] at free
  · exact ⟨trivial, .inr ⟨hphase, free.2⟩⟩
  · split <;> exact ⟨trivial, .inr ⟨hphase, free.2⟩⟩

theorem receiverStep_gone (kinv : KeyInv l s k) (h : Gone s k) (hon : On k s.receiver)
    (o : Outcome) : Gone (receiverStep o s) k := by
  have idle : ∀ s' : State, s'.receiver = .idle → s'.phases k = s.phases k →
      s'.engine = s.engine → Gone s' k := fun s' hr hphase hengine =>
    ⟨by rw [hr]; trivial, by rw [hphase, hengine]; exact h.phase⟩
  have rinv := kinv.receiver
  have other := h.unassigned
  unfold ReceiverInv at rinv
  revert hon rinv other
  fun_cases receiverStep o s <;> rw [‹s.receiver = _›]
  case case1 => rintro ⟨⟩
  case case2 =>
    exact fun _ _ _ => idle _ rfl (congrFun (reportStatus_phases ..) k) (reportStatus_engine ..)
  case case3 | case4 | case5 => exact fun hon _ other => absurd hon other
  case case6 => exact fun hon rinv _ => absurd (rinv hon).1 h.not_loading
  case case8 => exact fun hon rinv _ => absurd (rinv hon).2 h.not_active
  case case9 =>
    rintro rfl rinv -
    have hphase := (rinv rfl).2
    refine ⟨trivial, .inr ⟨Function.update_self _ _ _, ?_⟩⟩
    rcases h.phase with hevicting | ⟨-, hcommitted⟩
    · rw [hevicting] at hphase
      cases hphase
    · exact hcommitted
  case case10 | case11 | case12 =>
    rintro rfl - -
    simpa [receiverStep, *] using dropping_gone kinv ‹_› o
  all_goals exact fun _ _ _ => idle _ rfl rfl rfl

theorem receive_gone (h : Gone s k) {command : ControlCommand}
    (hassign : ¬ Assigns k (.receive command)) : Gone (receive s command) k := by
  unfold receive
  split
  · split
    · split
      · exact ⟨trivial, h.phase⟩
      split
      · exact h
      · exact ⟨hassign, h.phase⟩
    · exact ⟨trivial, h.phase⟩
    · exact ⟨h.unassigned, h.phase⟩
    · exact h
  · exact h

theorem step_gone (inj : Set.InjOn EpochKey.engineKey K) (hk : k ∈ K) {m : Move}
    (inv : Inv l K s) (horderly : Orderly K s m) (hassign : ¬ Assigns k m) (h : Gone s k) :
    Gone (step l s m) k := by
  by_cases hm : Concerns s k m
  swap
  · exact h.frame (step_sameKey l inj inv.keyed horderly.1 hk hm)
  cases m with
  | receive command => exact receive_gone h hassign
  | receiver o => exact receiverStep_gone (inv.keys k hk) h hm o
  | task i o =>
    obtain ⟨t, ht, rfl⟩ := hm
    simp only [step, ht]
    exact taskStep_gone (inv.keys t.key hk) h ht o

def Handling (s : State) (k : EpochKey) : Prop :=
  (∃ phase, s.receiver = .evicting k (some phase) ∧ phase ≠ .evicting) ∨
    s.receiver = .dropping k ∨ Gone s k

theorem step_handling (inj : Set.InjOn EpochKey.engineKey K) (hk : k ∈ K) {m : Move}
    (inv : Inv l K s) (horderly : Orderly K s m) (hassign : ¬ Assigns k m) (h : Handling s k) :
    Handling (step l s m) k := by
  by_cases hgone : Gone s k
  · exact .inr (.inr (step_gone inj hk inv horderly hassign hgone))
  have hon : On k s.receiver := by
    rcases h with ⟨phase, hr, -⟩ | hr | h
    · rw [hr]
      rfl
    · rw [hr]
      rfl
    · exact absurd h hgone
  cases m with
  | receive command =>
    have taken : s.receiver ≠ .idle := by
      intro hr
      rw [hr] at hon
      cases hon
    rw [step, receive_taken taken command]
    exact h
  | task i o =>
    have same : (step l s (.task i o)).receiver = s.receiver := by
      cases ht : s.tasks[i]? with
      | none => simp only [step, ht]
      | some t =>
        simp only [step, ht]
        rcases taskStep_effect l inj inv.keyed ht o with heq | ⟨pc, effect⟩
        · rw [heq]
        · exact effect.receiver
    rcases h with ⟨phase, hr, hphase⟩ | hr | h
    · exact .inl ⟨phase, same.trans hr, hphase⟩
    · exact .inr (.inl (same.trans hr))
    · exact absurd h hgone
  | receiver o =>
    rcases h with ⟨phase, hr, hphase⟩ | hr | h
    · cases phase with
      | loading =>
        simp only [step, receiverStep, hr]
        exact .inr (.inr ⟨trivial, .inl (Function.update_self _ _ _)⟩)
      | active =>
        refine .inr (.inl ?_)
        simp only [step, receiverStep, hr]
      | evicting => exact absurd rfl hphase
    · exact .inr (.inr (dropping_gone (inv.keys k hk) hr o))
    · exact absurd h hgone

theorem run_handling (inj : Set.InjOn EpochKey.engineKey K) (hk : k ∈ K) {moves : List Move}
    (inv : Inv l K s) (horderly : Along (step l) (Orderly K) s moves)
    (hassign : ∀ m ∈ moves, ¬ Assigns k m) (h : Handling s k) :
    Inv l K (run (step l) s moves) ∧ Handling (run (step l) s moves) k := by
  induction moves generalizing s with
  | nil => exact ⟨inv, h⟩
  | cons m moves ih =>
    exact ih (step_inv inj s m inv horderly.1) horderly.2
      (fun m hm => hassign m (mem_cons_of_mem _ hm))
      (step_handling inj hk inv horderly.1 (hassign m mem_cons_self) h)

theorem Gone.quiet (h : Gone s k) (kinv : KeyInv l s k) (known : Known s) (quiet : Quiet s) :
    ¬ Stored s k := by
  have nobody : NoBusy s k := by
    intro i t ht _
    rw [quiet.2 t (mem_of_getElem? ht)]
    rfl
  have rest := kinv.resting nobody (fun a ha => by rw [quiet.1] at ha; cases ha)
  have none_committed : s.engine.committed k.engineKey = none := by
    rcases h.phase with hphase | ⟨-, hcommitted⟩
    · rcases rest.2 with hnone | ⟨hactive, -⟩
      · rw [hnone] at hphase
        cases hphase
      · rw [hactive] at hphase
        cases hphase
    · exact hcommitted
  have unlisted (table : String) : tableOf s.engine k.engineKey ≠ some table := by
    simp [tableOf, rest.1, none_committed]
  rintro ⟨table, there, listed | ⟨-, alone⟩⟩
  · exact unlisted table listed
  · obtain ⟨κ, hκ⟩ := (known.1 table).mp there
    exact unlisted table (alone κ hκ ▸ hκ)

end Steps

theorem eviction_kept_completed (l : Loader) {K : Set EpochKey}
    (inj : Set.InjOn EpochKey.engineKey K) {k : EpochKey} (hk : k ∈ K) {reason : String}
    {before handling after : List Move}
    (horderly : Along (step l) (Orderly K) initial
      (before ++ .receive (.evictEpoch k reason) :: (handling ++ after)))
    (complete : Along (step l) (LoadsComplete l) initial
      (before ++ .receive (.evictEpoch k reason) :: (handling ++ after))) :
    EvictionKept l k reason before handling after := by
  unfold EvictionKept
  intro s handled last hidle hphase hhandled hassign hdrops
  obtain ⟨hbefore, hevict, hrest⟩ := (along_append _ _ _ _).mp horderly
  have inv : Inv l K s := run_inv inj hbefore
  have started : Handling (step l s (.receive (.evictEpoch k reason))) k := by
    left
    rcases hphase with hphase | hphase
    · exact ⟨.loading, by simp [step, receive, hidle, hphase], by decide⟩
    · exact ⟨.active, by simp [step, receive, hidle, hphase], by decide⟩
  obtain ⟨hhandling, hafter⟩ := (along_append _ _ _ _).mp hrest
  obtain ⟨inv', handling'⟩ := run_handling inj hk (step_inv inj s _ inv hevict) hhandling
    (fun m hm => hassign m (mem_append_left _ hm)) started
  have gone : Gone handled k := by
    rcases handling' with ⟨phase, hr, -⟩ | hr | gone
    · rw [hhandled] at hr
      cases hr
    · rw [hhandled] at hr
      cases hr
    · exact gone
  have kept : ∀ s m, (Inv l K s ∧ Gone s k) → (Orderly K s m ∧ ¬ Assigns k m) →
      Inv l K (step l s m) ∧ Gone (step l s m) k := fun s m h hm =>
    ⟨step_inv inj s m h.1 hm.1, step_gone inj hk h.1 hm.1 hm.2 h.2⟩
  obtain ⟨inv'', gone'⟩ := run_kept kept ⟨inv', gone⟩ (along_and hafter
    (along_of_forall (fun m hm _ => hassign m (mem_append_right _ hm)) _))
  have known : Known last := by
    have all := known_run complete fun m hm => ?_
    · rwa [run_append, run_cons, run_append] at all
    · simp only [mem_append, mem_cons] at hm hdrops
      rcases hm with hm | rfl | hm | hm
      · exact hdrops m (.inl (.inl hm))
      · trivial
      · exact hdrops m (.inl (.inr hm))
      · exact hdrops m (.inr hm)
  exact ⟨gone'.not_active, fun quiet => gone'.quiet (inv''.keys k hk) known quiet⟩

def oneLoader : Loader := ⟨1, plainArrow, noDecimals⟩

def salesAssignment : LoadAssignment where
  datasetId := "sales"
  epochId := "2024"
  destinationTableName := "sales_2024"
  timeColumnName := "dt"
  schema := .ok [⟨"id", .int64⟩]
  source := .jdbc ⟨.ok (), false, some 1, [.ok oneFetched]⟩

def salesKey : EpochKey := ⟨"sales", "2024"⟩

def assigned : List Move := [.receive (.assignment salesAssignment), .receiver {}, .receiver {}]

def nextAssignment : LoadAssignment :=
  { salesAssignment with epochId := "2025", destinationTableName := "sales_2025" }

def nextKey : EpochKey := ⟨"sales", "2025"⟩

/-- Two epochs are assigned, and their tasks take turns. -/
def loadedInTurns : List Move :=
  assigned ++ [.receive (.assignment nextAssignment), .receiver {}, .receiver {}] ++
    (List.replicate 10 [.task 0 {}, .task 1 {}]).flatten

theorem quiet_loadedInTurns : Quiet (run (step oneLoader) initial loadedInTurns) := by
  refine ⟨rfl, fun t ht => ?_⟩
  cases ht with
  | head => rfl
  | tail _ h =>
    cases h with
    | head => rfl
    | tail _ h => cases h

/-- The eviction comes while the task waits for its permit. The task loads the epoch all the same
and then drops it. -/
theorem eviction_kept_completed_queued :
    Quiet (run (step oneLoader) initial (assigned ++ .receive (.evictEpoch salesKey "retention") ::
      ([.receiver {}] ++ List.replicate 9 (.task 0 {})))) ∧
    ¬ Stored (run (step oneLoader) initial (assigned ++
      .receive (.evictEpoch salesKey "retention") ::
        ([.receiver {}] ++ List.replicate 9 (.task 0 {})))) salesKey := by
  have orderly : Along (step oneLoader) (Orderly {salesKey}) initial (assigned ++
      .receive (.evictEpoch salesKey "retention") ::
        ([.receiver {}] ++ replicate 9 (.task 0 {}))) := by
    have task : ∀ s : State, s.receiver = .idle → Orderly {salesKey} s (.task 0 {}) :=
      fun s h => ⟨trivial, calm_idle h 0 {}⟩
    refine ⟨⟨rfl, fun _ => ⟨fun i t ht => ?_, rfl, rfl⟩⟩, ⟨trivial, trivial⟩, ⟨trivial, trivial⟩,
      ⟨rfl, fun _ i t ht _ => ?_⟩, ⟨trivial, trivial⟩, task _ rfl, task _ rfl, task _ rfl,
      task _ rfl, task _ rfl, task _ rfl, task _ rfl, task _ rfl, task _ rfl, trivial⟩
    · simp [initial] at ht
    · cases i with
      | zero =>
        cases ht
        rfl
      | succ i => cases ht
  have quiet : Quiet (run (step oneLoader) initial (assigned ++
      .receive (.evictEpoch salesKey "retention") ::
        ([.receiver {}] ++ replicate 9 (.task 0 {})))) := by
    refine ⟨rfl, fun t ht => ?_⟩
    cases ht with
    | head => rfl
    | tail _ h => cases h
  have complete : Along (step oneLoader) (LoadsComplete oneLoader) initial (assigned ++
      .receive (.evictEpoch salesKey "retention") ::
        ([.receiver {}] ++ replicate 9 (.task 0 {}))) := by
    refine ⟨?_, ?_, ?_, ?_, ?_, ?_, ?_, ?_, ?_, ?_, ?_, ?_, ?_, ?_, trivial⟩
    all_goals rintro _ _ ⟨⟩
    · trivial
    · trivial
    · intro _
      rfl
  refine ⟨quiet, (eviction_kept_completed oneLoader (Set.injOn_singleton _ _) rfl orderly complete
    rfl (.inl rfl) rfl ?_ ?_).2 quiet⟩
  · intro m hm
    simp only [mem_append, mem_singleton, mem_replicate] at hm
    rcases hm with rfl | ⟨-, rfl⟩ <;> exact fun h => h
  · intro m hm
    simp only [assigned, mem_append, mem_cons, not_mem_nil, or_false,
      mem_replicate] at hm
    rcases hm with ((rfl | rfl | rfl) | rfl) | ⟨-, rfl⟩ <;> trivial

/-- The load task gets its permit, sends its three commands, reads the answer and looks for an
eviction. -/
def loadedAndChecked : List Move := List.replicate 6 (.task 0 {})

/-- The eviction comes between the check and the publication. -/
theorem eviction_lost :
    ¬ EvictionKept oneLoader salesKey "retention" (assigned ++ loadedAndChecked) [.receiver {}]
      (List.replicate 4 (.task 0 {})) := by
  intro kept
  have active := (kept rfl (.inl rfl) rfl ?_ ?_).1
  · exact active rfl
  · intro m hm
    simp only [mem_append, mem_singleton, mem_replicate] at hm
    rcases hm with rfl | ⟨-, rfl⟩ <;> exact fun h => h
  · intro m hm
    simp only [assigned, loadedAndChecked, mem_append, mem_cons, not_mem_nil,
      or_false, mem_replicate] at hm
    rcases hm with (((rfl | rfl | rfl) | ⟨-, rfl⟩) | rfl) | ⟨-, rfl⟩ <;> trivial

end Leibrix.DispatcherEvict
