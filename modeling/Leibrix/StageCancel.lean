import Leibrix.StageTasks

/-!
# What a cancellation reaches

A handle is found exactly while it is listed, and its handler takes it off the list as
soon as the task has been spawned. Between the task and a cancellation that has found the
handle no signal is lost: the task stores the interrupt handle before it reads the flag,
and the cancellation sets the flag before it looks for the interrupt handle.
-/

set_option autoImplicit false

namespace Leibrix.StageCancel
open ArrowBatch FlightTickets Runs StageTasks List Option

variable {shards : Shards} {memorySize : RecordBatch → Nat} {n : Nat} {i j : Nat} {c c' : Call}

variable {m : Move}

section Invariant

def Unstarted : Task → Prop
  | .unspawned | .queued | .connected | .published | .ended (.error _) => True
  | .checked | .executing | .ended (.ok _) => False

def Unread : Task → Prop
  | .unspawned | .queued | .connected | .ended (.error _) => True
  | .published | .checked | .executing | .ended (.ok _) => False

theorem unstarted_of_unread {t : Task} (h : Unread t) : Unstarted t := by
  cases t with
  | ended result => cases result <;> trivial
  | _ => trivial

/-- Only one call has been submitted for the stage. -/
def Sole (s : State n) (i : Nat) (key : StageKey) : Prop :=
  ∀ k d, s.calls k = some d → d.key = key → k = i

def Sound (calls : Nat → Option Call) : Canceller n → Prop
  | .flagging found _ => ∀ k ∈ found, (calls k).isSome
  | .interrupting i found _ =>
    (∃ c, calls i = some c ∧ c.cancelled = true) ∧ ∀ k ∈ found, (calls k).isSome
  | _ => True

structure Inv (s : State n) : Prop where
  unread : ∀ i c, s.calls i = some c → c.interruptHandle = false → Unread c.task
  listed : ∀ key i, (key, i) ∈ s.active → ∃ c, s.calls i = some c ∧ c.key = key ∧ c.Listed
  kept : ∀ i c, s.calls i = some c → c.Listed → Sole s i c.key → (c.key, i) ∈ s.active
  sound : ∀ j c, s.cancels j = some c → Sound s.calls c.place

attribute [local simp] Call.Listed start

theorem inv_start (n : Nat) (tenantId : String) : Inv (start n tenantId) where
  unread i c h := by simp at h
  listed key i h := by simp at h
  kept i c h := by simp at h
  sound j c h := by simp at h

theorem unread_taskStep (o : Outcome) (h : c.interruptHandle = false → Unread c.task) :
    (c.taskStep o).interruptHandle = false → Unread (c.taskStep o).task := by
  fun_cases Call.taskStep c o <;> simp_all [Unread]

theorem unread_moved {s : State n} (h : CallMoved memorySize s m i c c') (hc : s.calls i = some c)
    (hunread : c.interruptHandle = false → Unread c.task) :
    c'.interruptHandle = false → Unread c'.task := by
  cases h with
  | same | flagged | fired => exact hunread
  | tasked o => exact unread_taskStep o hunread
  | handled hm h hc' =>
    obtain ⟨handler, task, rfl, htask | ⟨-, htask⟩⟩ := h.call hc hc'
    · exact htask ▸ hunread
    · intro _
      simp [htask, Unread]

theorem sound_mono {s : State n} {calls : Nat → Option Call} {place : Canceller n}
    (hcalls : ∀ i c, s.calls i = some c →
      ∃ c', calls i = some c' ∧ CallMoved memorySize s m i c c') (h : Sound s.calls place) :
    Sound calls place := by
  have kept : ∀ k, (s.calls k).isSome → (calls k).isSome := by
    intro k hk
    obtain ⟨d, hd⟩ := isSome_iff_exists.mp hk
    obtain ⟨d', hd', -⟩ := hcalls k d hd
    simp [hd']
  cases place with
  | flagging found rest => exact fun k hk => kept k (h k hk)
  | interrupting i found rest =>
    obtain ⟨⟨d, hd, hflag⟩, hfound⟩ := h
    obtain ⟨d', hd', moved⟩ := hcalls i d hd
    exact ⟨⟨d', hd', moved.cancelled hd hflag⟩, fun k hk => kept k (hfound k hk)⟩
  | scanning | removing | returned => trivial

theorem listed_moved {s : State n} (h : CallMoved memorySize s m i c c')
    (hm : ∀ k wake, m ≠ .handler k wake) : c'.Listed ↔ c.Listed := by
  cases h with
  | same | flagged | fired => rfl
  | tasked o => simp
  | handled hm' => exact absurd hm' (hm _ _)

variable {k : Nat}

variable {s s' : State n} (inv : Inv s) (hc : s.calls i = some c) (h : Handled memorySize s i c s')
include inv hc h

theorem Inv.listed_handled {key : StageKey} (hk : (key, k) ∈ s'.active) :
    ∃ d, s'.calls k = some d ∧ d.key = key ∧ d.Listed := by
  -- an entry that was there before belongs to a call that was listed before
  have other : (key, k) ∈ s.active → k ≠ i → ∃ d, s'.calls k = some d ∧ d.key = key ∧ d.Listed := by
    intro hmem hki
    obtain ⟨d, hd, hkey, hlisted⟩ := inv.listed key k hmem
    exact ⟨d, by rw [h.calls_other hki, hd], hkey, hlisted⟩
  have own : (key, i) ∈ s.active → c.key = key ∧ c.Listed := by
    intro hmem
    obtain ⟨d, hd, hkey, hlisted⟩ := inv.listed key i hmem
    obtain rfl : d = c := Option.some.inj (hd.symm.trans hc)
    exact ⟨hkey, hlisted⟩
  by_cases hki : k = i
  · subst hki
    cases h with
    | waits => exact ⟨c, hc, own hk⟩
    | spawns h => exact ⟨_, State.setCall_self _ _ _, (own hk).1, .inr rfl⟩
    | registers h hadmitted hsql =>
      rcases mem_cons.mp hk with heq | hmem
      · exact ⟨_, State.setCall_self _ _ _, congrArg Prod.fst heq.symm, .inl rfl⟩
      · have := own (mem_filter.mp hmem).1
        simp [h] at this
    | deregisters h =>
      obtain ⟨hmem, hne⟩ := mem_filter.mp hk
      simp [(own hmem).1] at hne
    | fails status h => exact absurd (own hk).2 h
    | drops h | skips h | finishes batches h | stores batches h =>
      have := (own hk).2
      simp [h] at this
  · refine other ?_ hki
    cases h with
    | registers h hadmitted hsql =>
      rcases mem_cons.mp hk with heq | hmem
      · exact absurd (congrArg Prod.snd heq) hki
      · exact (mem_filter.mp hmem).1
    | deregisters h => exact (mem_filter.mp hk).1
    | waits | fails | drops | skips | spawns | finishes | stores => exact hk

theorem Inv.kept_handled {d : Call} (hd : s'.calls k = some d) (hlisted : d.Listed)
    (hsole : Sole s' k d.key) : (d.key, k) ∈ s'.active := by
  have self : ∃ c', s'.calls i = some c' ∧ c'.key = c.key := by
    obtain ⟨c', hc'⟩ := h.calls_self hc
    obtain ⟨handler, task, rfl, -⟩ := h.call hc hc'
    exact ⟨_, hc', rfl⟩
  have before : Sole s k d.key := by
    intro k' d' hd' hkey
    by_cases hk' : k' = i
    · subst hk'
      obtain rfl : d' = c := Option.some.inj (hd'.symm.trans hc)
      obtain ⟨c', hc', hkey'⟩ := self
      exact hsole k' c' hc' (hkey'.trans hkey)
    · exact hsole k' d' (by rw [h.calls_other hk', hd']) hkey
  by_cases hk : k = i
  · subst hk
    cases h with
    | waits => exact inv.kept k d hd hlisted before
    | spawns h =>
      obtain rfl := Option.some.inj ((State.setCall_self _ _ _).symm.trans hd)
      exact inv.kept k c hc (.inl h) before
    | registers h hadmitted hsql =>
      obtain rfl := Option.some.inj ((State.setCall_self _ _ _).symm.trans hd)
      exact mem_cons_self
    | fails | drops | skips | deregisters | finishes | stores =>
      obtain rfl := Option.some.inj ((State.setCall_self _ _ _).symm.trans hd)
      simp at hlisted
  · have hmem : (d.key, k) ∈ s.active :=
      inv.kept k d (by rw [← h.calls_other hk, hd]) hlisted before
    -- the handler of another stage does not touch this key
    have hne : d.key ≠ c.key := by
      obtain ⟨c', hc', hkey'⟩ := self
      exact fun heq => hk (hsole i c' hc' (hkey'.trans heq.symm)).symm
    cases h with
    | registers h hadmitted hsql =>
      exact mem_cons_of_mem _ (mem_filter.mpr ⟨hmem, by simpa using hne⟩)
    | deregisters h => exact mem_filter.mpr ⟨hmem, by simpa using hne⟩
    | waits | fails | drops | skips | spawns | finishes | stores => exact hmem

omit inv hc h

variable {d : CancelCall shards.count}

theorem cancelStep_cancels {s : State shards.count} (inv : Inv s)
    {canceller : CancelCall shards.count} (hj : s.cancels j = some canceller)
    (hd : (s.cancelStep shards j canceller).cancels k = some d) :
    s.cancels k = some d ∨ Sound (s.cancelStep shards j canceller).calls d.place := by
  have hsound := inv.sound j canceller hj
  by_cases hk : k = j
  · subst hk
    right
    revert hd
    fun_cases State.cancelStep shards s k canceller <;> intro hd
    case case8 hplace =>
      obtain rfl : canceller = d := Option.some.inj (hj.symm.trans hd)
      simp [hplace, Sound]
    all_goals obtain rfl := Option.some.inj (hd.symm.trans (if_pos rfl))
    case case2 shard rest hplace =>
      intro i hi
      have hmem := (shards.order.perm _).mem_iff.mp hi
      obtain ⟨⟨key, i'⟩, he, rfl⟩ := List.mem_map.mp hmem
      obtain ⟨c, hc, -⟩ := inv.listed key i' (mem_filter.mp he).1
      exact isSome_iff_exists.mpr ⟨c, hc⟩
    case case4 i found rest hplace _ =>
      simp only [hplace, Sound, mem_cons, forall_eq_or_imp] at hsound ⊢
      obtain ⟨c, hc⟩ := isSome_iff_exists.mp hsound.1
      refine ⟨⟨{ c with cancelled := true }, by simp [hc], rfl⟩, fun i' hi' => ?_⟩
      by_cases h : i' = i
      · simp [h, hc]
      · simpa [h] using hsound.2 i' hi'
    case case5 i found rest hplace _ =>
      simp only [hplace, Sound] at hsound ⊢
      intro i' hi'
      by_cases h : i' = i
      · obtain ⟨⟨c, hc, -⟩, -⟩ := hsound
        simp [h, hc]
      · simpa [h] using hsound.2 i' hi'
    all_goals trivial
  · left
    rw [← hd]
    fun_cases State.cancelStep shards s j canceller <;> first | rfl | exact (if_neg hk).symm

theorem cancels_step {s : State shards.count} (inv : Inv s)
    (hd : (s.step shards memorySize m).cancels k = some d) :
    s.cancels k = some d ∨ Sound (s.step shards memorySize m).calls d.place := by
  revert hd
  fun_cases State.step shards memorySize s m <;> intro hd
  case case3 i wake c _ =>
    rw [cancels_handled (handled_handlerStep memorySize s i c wake)] at hd
    exact .inl hd
  case case8 j queryId hs =>
    simp only [State.setCancel] at hd
    split at hd
    · cases hd
      exact .inr trivial
    · exact .inl hd
  case case9 j canceller hj => exact cancelStep_cancels inv hj hd
  all_goals exact .inl hd

theorem inv_step (shards : Shards) (memorySize : RecordBatch → Nat) {s : State shards.count}
    (inv : Inv s) (m : Move) : Inv (s.step shards memorySize m) where
  unread i c' h := by
    rcases callMoved_inv memorySize h with ⟨c, hc, moved⟩ | ⟨-, request, rfl⟩
    · exact unread_moved moved hc (inv.unread i c hc)
    · intro _
      trivial
  listed key k h := by
    by_cases hm : ∀ k wake, m ≠ .handler k wake
    · rw [active_step_other shards memorySize s hm] at h
      obtain ⟨c, hc, hkey, hlisted⟩ := inv.listed key k h
      obtain ⟨c', hc', moved⟩ := callMoved_step memorySize hc m
      exact ⟨c', hc', (moved.key hc).trans hkey, (listed_moved moved hm).mpr hlisted⟩
    · push Not at hm
      obtain ⟨i, wake, rfl⟩ := hm
      cases hc : s.calls i with
      | none =>
        simp only [State.step, hc] at h ⊢
        exact inv.listed key k h
      | some c =>
        simp only [State.step, hc] at h ⊢
        exact inv.listed_handled hc (handled_handlerStep memorySize s i c wake) h
  kept k d hd hlisted hsole := by
    by_cases hm : ∀ k wake, m ≠ .handler k wake
    · rw [active_step_other shards memorySize s hm]
      rcases callMoved_inv memorySize hd with ⟨c, hc, moved⟩ | ⟨-, request, rfl⟩
      · rw [moved.key hc] at hsole ⊢
        refine inv.kept k c hc ((listed_moved moved hm).mp hlisted) fun k' d' hd' hkey => ?_
        obtain ⟨e, he, moved'⟩ := callMoved_step memorySize hd' m
        exact hsole k' e he ((moved'.key hd').trans hkey)
      · simp [Call.new] at hlisted
    · push Not at hm
      obtain ⟨i, wake, rfl⟩ := hm
      cases hc : s.calls i with
      | none =>
        simp only [State.step, hc] at hd hsole ⊢
        exact inv.kept k d hd hlisted hsole
      | some c =>
        simp only [State.step, hc] at hd hsole ⊢
        exact inv.kept_handled hc (handled_handlerStep memorySize s i c wake) hd hlisted hsole
  sound k d hd := by
    rcases cancels_step inv hd with hd | h
    · exact sound_mono (fun i c hc => callMoved_step memorySize hc m) (inv.sound k d hd)
    · exact h

theorem inv_run (shards : Shards) (memorySize : RecordBatch → Nat) (tenantId : String)
    (moves : List Move) :
    Inv (run (State.step shards memorySize) (start shards.count tenantId) moves) :=
  run_invariant (I := Inv) (fun _ m inv => inv_step shards memorySize inv m)
    (inv_start shards.count tenantId) moves

end Invariant

section Finding

def oneShard : Shards := ⟨1, fun _ => Fin.last 0, fun _ => Fin.last 0, ⟨id, List.Perm.refl⟩⟩

def selectOne : SubmitStageRequest := ⟨"t", "q", 0, "SELECT 1", .ok [], none⟩

abbrev after (moves : List Move) : State oneShard.count :=
  run (State.step oneShard fun _ => 0) (start oneShard.count "t") moves

def Visits (shards : Shards) (s : State shards.count) (j : Nat) (c : Call) : Prop :=
  ∃ rest k, s.cancels j =
    some ⟨c.request.queryId, .scanning (shards.active c.key::rest), k⟩

def Pending (s : State n) (j i : Nat) : Prop :=
  ∃ canceller found rest, s.cancels j = some canceller ∧ i ∈ found ∧
    (canceller.place = .flagging found rest ∨ ∃ k, canceller.place = .interrupting k found rest)

def Finds (shards : Shards) (memorySize : RecordBatch → Nat) (s : State shards.count)
    (j i : Nat) : Prop :=
  Pending (s.step shards memorySize (.cancel j)) j i

theorem mem_found (s : State shards.count) (queryId : String) (shard : Fin shards.count) (k : Nat) :
    k ∈ s.found shards queryId shard ↔
      ∃ key, key.1 = queryId ∧ shards.active key = shard ∧ (key, k) ∈ s.active := by
  rw [State.found, (shards.order.perm _).mem_iff]
  constructor
  · intro h
    obtain ⟨⟨key, k'⟩, he, rfl⟩ := List.mem_map.mp h
    obtain ⟨hmem, hkey⟩ := mem_filter.mp he
    simp only [decide_eq_true_eq] at hkey
    exact ⟨key, hkey.1, hkey.2, hmem⟩
  · rintro ⟨key, hquery, hshard, hmem⟩
    exact List.mem_map.mpr ⟨(key, k), mem_filter.mpr ⟨hmem, by simp [hquery, hshard]⟩, rfl⟩

variable {s : State shards.count}

theorem finds_iff (h : Visits shards s j c) :
    Finds shards memorySize s j i ↔ ∃ key, key.1 = c.request.queryId ∧
      shards.active key = shards.active c.key ∧ (key, i) ∈ s.active := by
  obtain ⟨rest, k, hj⟩ := h
  have next : (s.step shards memorySize (.cancel j)).cancels j = some ⟨c.request.queryId,
      .flagging (s.found shards c.request.queryId (shards.active c.key)) rest, k⟩ := by
    simp [State.step, hj, State.cancelStep, State.setCancel]
  rw [← mem_found, Finds, Pending, next]
  constructor
  · rintro ⟨canceller, found, rest', heq, hmem, hplace | ⟨k', hplace⟩⟩
    · cases heq
      cases hplace
      exact hmem
    · cases heq
      cases hplace
  · intro hmem
    exact ⟨_, _, _, rfl, hmem, .inl rfl⟩

theorem pending_step (memorySize : RecordBatch → Nat) (hc : s.calls i = some c)
    (h : Pending s j i ∨ c.cancelled = true) (m : Move) :
    ∃ c', (s.step shards memorySize m).calls i = some c' ∧
      (Pending (s.step shards memorySize m) j i ∨ c'.cancelled = true) := by
  obtain ⟨c', hc', moved⟩ := callMoved_step memorySize hc m
  refine ⟨c', hc', ?_⟩
  rcases h with ⟨canceller, found, rest, hj, hmem, hplace⟩ | hcancelled
  swap
  · exact .inr (moved.cancelled hc hcancelled)
  by_cases hm : m = .cancel j
  · subst hm
    simp only [State.step, hj] at hc' ⊢
    unfold State.cancelStep at hc' ⊢
    rcases hplace with hplace | ⟨k, hplace⟩
    · cases found with
      | nil => simp at hmem
      | cons k found =>
        simp only [hplace] at hc' ⊢
        rcases mem_cons.mp hmem with rfl | hmem
        · right
          simp only [if_true, hc, map_some, Option.some.injEq] at hc'
          exact hc' ▸ rfl
        · exact .inl ⟨_, found, rest, if_pos rfl, hmem, .inr ⟨k, rfl⟩⟩
    · simp only [hplace]
      exact .inl ⟨_, found, rest, if_pos rfl, hmem, .inl rfl⟩
  · left
    refine ⟨canceller, found, rest, ?_, hmem, hplace⟩
    rw [cancels_step_other shards memorySize s hm (by simp [hj]), hj]

theorem pending_run (memorySize : RecordBatch → Nat) (hc : s.calls i = some c)
    (h : Pending s j i ∨ c.cancelled = true) (moves : List Move) :
    ∃ c', (run (State.step shards memorySize) s moves).calls i = some c' ∧
      (Pending (run (State.step shards memorySize) s moves) j i ∨ c'.cancelled = true) := by
  induction moves generalizing s c with
  | nil => exact ⟨c, hc, h⟩
  | cons m moves ih =>
    obtain ⟨c', hc', h'⟩ := pending_step memorySize hc h m
    exact ih hc' h'

/-- The cancellation has come to its end. -/
def Returned (s : State n) (j : Nat) : Prop :=
  ∃ canceller, s.cancels j = some canceller ∧ canceller.place = .returned

theorem not_pending_of_returned {s : State n} (h : Returned s j) : ¬ Pending s j i := by
  obtain ⟨canceller, hj, hplace⟩ := h
  rintro ⟨other, found, rest, hj', -, hplace'⟩
  obtain rfl : canceller = other := Option.some.inj (hj.symm.trans hj')
  simp [hplace] at hplace'

/-- A cancellation that visits the shard of a stage finds the handle exactly while it is listed,
and then does not return before the flag is set. The handle is listed only from the insertion by
its handler to the removal that follows the spawning of the task, and all that time if no other
call has been submitted for the stage. -/
theorem cancel_finds_iff (shards : Shards) (memorySize : RecordBatch → Nat) (tenantId : String)
    (moves : List Move) {s : State shards.count}
    (hs : s = run (State.step shards memorySize) (start shards.count tenantId) moves)
    (hc : s.calls i = some c) (hvisit : Visits shards s j c) :
    (Finds shards memorySize s j i ↔ (c.key, i) ∈ s.active) ∧
      (Finds shards memorySize s j i → ∀ more,
        let s' := run (State.step shards memorySize) (s.step shards memorySize (.cancel j)) more
        Returned s' j → ∃ c', s'.calls i = some c' ∧ c'.cancelled = true) ∧
      ((c.key, i) ∈ s.active → c.Listed) ∧
      (Sole s i c.key → c.Listed → (c.key, i) ∈ s.active) := by
  have inv : Inv s := hs ▸ inv_run shards memorySize tenantId moves
  have own : ∀ key, (key, i) ∈ s.active → key = c.key ∧ c.Listed := by
    intro key hmem
    obtain ⟨d, hd, hkey, hlisted⟩ := inv.listed key i hmem
    obtain rfl : d = c := Option.some.inj (hd.symm.trans hc)
    exact ⟨hkey.symm, hlisted⟩
  refine ⟨?_, ?_, fun h => (own _ h).2, fun hsole hlisted => inv.kept i c hc hlisted hsole⟩
  · rw [finds_iff hvisit]
    constructor
    · rintro ⟨key, -, -, hmem⟩
      exact (own key hmem).1 ▸ hmem
    · exact fun hmem => ⟨c.key, rfl, rfl, hmem⟩
  · intro hfinds more s' hreturned
    obtain ⟨c₁, hc₁, -⟩ := callMoved_step memorySize hc (.cancel j)
    obtain ⟨c', hc', hpending | hcancelled⟩ := pending_run memorySize hc₁ (.inl hfinds) more
    · exact absurd hpending (not_pending_of_returned hreturned)
    · exact ⟨c', hc', hcancelled⟩

theorem cancel_finds_iff_listed :
    Finds oneShard (fun _ => 0)
      (after [.submit 0 selectOne, .handler 0 .ready, .cancelQuery 0 "q"]) 0 0 :=
  (cancel_finds_iff (c := { Call.new selectOne with handler := .registered }) oneShard
    (fun _ => 0) "t" [.submit 0 selectOne, .handler 0 .ready, .cancelQuery 0 "q"] rfl rfl
    ⟨[], 0, rfl⟩).1.mpr mem_cons_self

/-- A cancellation that comes after the task has been spawned returns without having found the
handle, and the statement runs to its end. -/
theorem running_stage_not_found :
    let s := after ([.submit 0 selectOne, .handler 0 .ready, .handler 0 .ready, .handler 0 .ready,
      .cancelQuery 0 "q"] ++ replicate 5 (.cancel 0))
    (∃ c, s.calls 0 = some c ∧ c.task = .queued ∧ c.cancelled = false) ∧
      s.cancels 0 = some ⟨"q", .returned, 0⟩ ∧
      ∃ c, (run (State.step oneShard fun _ => 0) s (replicate 5 (.task 0 (.ok [])))).calls 0 =
        some c ∧ c.task = .ended (.ok []) :=
  ⟨⟨_, rfl, rfl, rfl⟩, rfl, _, rfl, rfl⟩

end Finding

/-- The flag is set and the statement will not start. -/
def Stopped (c : Call) : Prop := c.cancelled = true ∧ Unstarted c.task

theorem stopped_moved {s : State n} (h : CallMoved memorySize s m i c c') (hc : s.calls i = some c)
    (hstopped : Stopped c) : Stopped c' := by
  refine ⟨h.cancelled hc hstopped.1, ?_⟩
  obtain ⟨hcancelled, hunstarted⟩ := hstopped
  cases h with
  | same | flagged | fired => exact hunstarted
  | handled hm h hc' =>
    obtain ⟨handler, task, rfl, htask | ⟨-, htask⟩⟩ := h.call hc hc'
    · exact htask ▸ hunstarted
    · simp [htask, Unstarted]
  | tasked o =>
    cases ht : c.task with
    | unspawned => simp [Call.taskStep, ht, Unstarted]
    | queued | connected => cases o <;> simp [Call.taskStep, ht, Unstarted]
    -- here the task reads the flag
    | published => cases o <;> simp [Call.taskStep, ht, hcancelled, Unstarted]
    | checked | executing => simp [ht, Unstarted] at hunstarted
    | ended result => simpa [Call.taskStep, ht] using hunstarted

theorem stopped_run (memorySize : RecordBatch → Nat) {s : State shards.count}
    (hc : s.calls i = some c) (h : Stopped c) (moves : List Move) :
    ∃ c', (run (State.step shards memorySize) s moves).calls i = some c' ∧ Stopped c' := by
  induction moves generalizing s c with
  | nil => exact ⟨c, hc, h⟩
  | cons m moves ih =>
    obtain ⟨c', hc', moved⟩ := callMoved_step memorySize hc m
    exact ih hc' (stopped_moved moved hc h)

/-- When a cancellation has done its two steps on a handle, either it has fired the interrupt
handle of the task, or the statement is never started. -/
theorem cancel_not_lost (shards : Shards) (memorySize : RecordBatch → Nat) (tenantId : String)
    (moves : List Move) {s : State shards.count}
    (hs : s = run (State.step shards memorySize) (start shards.count tenantId) moves)
    {canceller : CancelCall shards.count} {found : List Nat} {rest : List (Fin shards.count)}
    (hj : s.cancels j = some canceller) (hplace : canceller.place = .interrupting i found rest) :
    (∃ c, s.calls i = some c ∧ c.cancelled = true) ∧
      ((∃ c', (s.step shards memorySize (.cancel j)).calls i = some c' ∧ c'.interrupted = true) ∨
        ∀ more, ∃ c',
          (run (State.step shards memorySize) (s.step shards memorySize (.cancel j)) more).calls i =
            some c' ∧ Stopped c') := by
  have inv : Inv s := hs ▸ inv_run shards memorySize tenantId moves
  have sound := inv.sound j canceller hj
  rw [hplace] at sound
  obtain ⟨⟨c, hc, hcancelled⟩, -⟩ := sound
  refine ⟨⟨c, hc, hcancelled⟩, ?_⟩
  have next : (s.step shards memorySize (.cancel j)).calls i =
      some { c with interrupted := c.interrupted || c.interruptHandle } := by
    simp [State.step, hj, State.cancelStep, hplace, hc]
  cases hi : c.interruptHandle with
  | true => exact .inl ⟨_, next, by simp [hi]⟩
  | false =>
    right
    have unstarted := unstarted_of_unread (inv.unread i c hc hi)
    exact stopped_run memorySize next ⟨hcancelled, unstarted⟩

/-- The task has its connection but has not stored the interrupt handle, and a cancellation has
set the flag. -/
def flaggedEarly : List Move :=
  [.submit 0 selectOne, .handler 0 .ready, .handler 0 .ready, .task 0 (.ok []),
    .cancelQuery 0 "q", .cancel 0, .cancel 0]

theorem cancel_not_lost_connected :
    (after flaggedEarly).cancels 0 = some ⟨"q", .interrupting 0 [] [], 0⟩ ∧
    ∀ more, ∃ c, (run (State.step oneShard fun _ => 0)
      ((after flaggedEarly).step oneShard (fun _ => 0) (.cancel 0)) more).calls 0 = some c ∧
        Stopped c := by
  have place : (after flaggedEarly).cancels 0 = some ⟨"q", .interrupting 0 [] [], 0⟩ := rfl
  have silent : ((after flaggedEarly).step oneShard (fun _ => 0) (.cancel 0)).calls 0 =
      some ⟨selectOne, .spawned, .connected, true, false, false⟩ := rfl
  refine ⟨place, (cancel_not_lost oneShard (fun _ => 0) "t" flaggedEarly rfl place
    rfl).2.resolve_left ?_⟩
  rintro ⟨c, hc, hinterrupted⟩
  rw [silent] at hc
  cases hc
  cases hinterrupted

end Leibrix.StageCancel
