import Leibrix.EpochCalls

/-!
# Sequences of engine commands

The engine takes commands of any epochs in any order, each with what the database does with
it. Every command acts on one key. An account beside the engine keeps the batches that were
ingested for the open epoch of each key, and whether one of its flushes failed.
-/

set_option autoImplicit false

namespace Leibrix.EpochCommands
open ArrowBatch EpochEngine EpochEffects EpochCalls Runs Option Function

variable {ι : Type} {s : EngineState ι}

section Commands

inductive Command (ι : Type) where
  | engine (com : EngineCom ι)
  | drop (datasetId epochId : String)

def Command.key : Command ι → String
  | engine com => comKey com
  | drop datasetId epochId => epochKey datasetId epochId

variable [DecidableEq ι]

def command (threshold : Nat) (s : EngineState ι) (m : Duck × Command ι) : EngineState ι :=
  match m.2 with
  | .engine com => engineStep threshold m.1 s com
  | .drop datasetId epochId => (onDropEpoch m.1 s datasetId epochId).2

variable (threshold : Nat)

theorem command_acts (hs : Owned s) (m : Duck × Command ι) :
    ActsOn m.2.key s (command threshold s m) ∧ Owned (command threshold s m) := by
  obtain ⟨duck, com | ⟨datasetId, epochId⟩⟩ := m
  · exact engineStep_acts threshold duck hs com
  · exact drop_acts duck hs datasetId epochId

theorem tableOf_run (hs : Owned s) {key κ : String} (hκ : κ ≠ key)
    {moves : List (Duck × Command ι)} (keyed : ∀ m ∈ moves, m.2.key = key) :
    tableOf (run (command threshold) s moves) κ = tableOf s κ := by
  have along : Along (command threshold) (fun _ m => m.2.key = key) s moves :=
    along_of_forall (fun m hm _ => keyed m hm) s
  refine (run_kept (I := fun s' => Owned s' ∧ tableOf s' κ = tableOf s κ) ?_ ⟨hs, rfl⟩ along).2
  intro s' m ⟨hs', same⟩ hm
  obtain ⟨acts, owned⟩ := command_acts threshold hs' m
  exact ⟨owned, (acts.tableOf_eq (hm ▸ hκ)).trans same⟩

end Commands

variable {duck : Duck} {threshold : Nat}

/-- The tables are those of the committed and open epochs. -/
def Mirrors (s : EngineState ι) : Prop := ∀ t, (s.tables t).isSome ↔ ∃ κ, tableOf s κ = some t

theorem mirrors_fresh : Mirrors (EngineState.fresh ι) :=
  fun _ => ⟨nofun, fun ⟨_, hκ⟩ => by cases hκ⟩

/-- An open epoch is finished with success, and what is dropped is gone. -/
def Completes [DecidableEq ι] (threshold : Nat) (s : EngineState ι) (m : Duck × Command ι) : Prop :=
  match m.2 with
  | .engine (.finishEpoch key) =>
    (s.inProgress key).isSome → ((command threshold s m).committed key).isSome
  | .engine _ => True
  | .drop _ _ => m.1.drops = true

section Key

variable {s' : EngineState ι} {key : String} (h : Mirrors s) (acting : ActsOn key s s')
  (hs' : Owned s')
include h acting hs'

theorem Mirrors.acts (changed : ∀ t, (s'.tables t).isSome → tableOf s' key = some t ∨
    (tableOf s key ≠ some t ∧ (s.tables t).isSome)) : Mirrors s' := by
  intro t
  constructor
  · intro ht
    rcases changed t ht with here | ⟨other, before⟩
    · exact ⟨key, here⟩
    · obtain ⟨κ, hκ⟩ := (h t).mp before
      have ne : κ ≠ key := fun eq => other (eq ▸ hκ)
      exact ⟨κ, (acting.tableOf_eq ne).trans hκ⟩
  · rintro ⟨κ, hκ⟩
    exact hs'.stored κ t hκ

theorem Mirrors.onlyTable {table : String} (before : tableOf s key = some table)
    (after : tableOf s' key = some table) (only : OnlyTable table s.tables s'.tables) :
    Mirrors s' := by
  refine h.acts acting hs' fun t ht => ?_
  by_cases same : t = table
  · exact .inl (same ▸ after)
  · rw [only.others t same] at ht
    exact .inr ⟨fun eq => same (Option.some.inj (eq.symm.trans before)), ht⟩

end Key

theorem Mirrors.effect [DecidableEq ι] {com : EngineCom ι} {s' : EngineState ι} (h : Mirrors s)
    (hs : Owned s) (effect : Effect s com s')
    (completes : ∀ key, com = .finishEpoch key → (s.inProgress key).isSome →
      (s'.committed key).isSome) : Mirrors s' := by
  obtain ⟨acts, owned⟩ := effect.acts hs
  cases effect with
  | refused | ignored | idle => exact h
  | @opened _ view _ _ free uncommitted =>
    refine h.acts acts owned fun t ht => ?_
    by_cases same : t = view.tableName
    · exact .inl (by simp [tableOf, comKey, same])
    · refine .inr ⟨by simp [tableOf, comKey, free, uncommitted], ?_⟩
      simpa [same] using ht
  | ingested hep hview _ only =>
    exact h.onlyTable acts owned (tableOf_inProgress hep) (by simp [tableOf, comKey, hview]) only
  | failed hep =>
    have committed := completes _ rfl (by simp [hep])
    simp [hs.exclusive _ _ hep] at committed
  | finished hep only =>
    exact h.onlyTable acts owned (tableOf_inProgress hep) (by simp [tableOf, comKey]) only

theorem Mirrors.drop (hduck : duck.drops = true) (h : Mirrors s) (hs : Owned s)
    (datasetId epochId : String) : Mirrors (onDropEpoch duck s datasetId epochId).2 ∧
      ∀ e, (onDropEpoch duck s datasetId epochId).1 = .error e →
        (onDropEpoch duck s datasetId epochId).2 = s := by
  obtain ⟨acts, owned⟩ := drop_acts duck hs datasetId epochId
  revert acts owned
  fun_cases onDropEpoch duck s datasetId epochId <;> intro acts owned
  case case1 | case2 => exact ⟨h, fun _ _ => rfl⟩
  case case3 view metadata hcommitted _ _ =>
    have table := (tableOf_committed hs hcommitted).2
    refine ⟨h.acts acts owned fun t ht => .inr ?_, nofun⟩
    by_cases same : t = view.tableName
    · simp [same] at ht
    · exact ⟨fun eq => same (Option.some.inj (eq.symm.trans table)), by simpa [same] using ht⟩
  case case4 refused => exact absurd hduck refused

theorem Mirrors.command [DecidableEq ι] {m : Duck × Command ι} (h : Mirrors s) (hs : Owned s)
    (completes : Completes threshold s m) : Mirrors (command threshold s m) := by
  obtain ⟨duck, com | ⟨datasetId, epochId⟩⟩ := m
  · refine h.effect hs (engineStep_effect threshold duck s com) ?_
    rintro key rfl
    exact completes
  · exact (h.drop completes hs datasetId epochId).1

/-- As long as loads complete and drops go through, the engine knows all tables, and a drop that
is refused changes nothing. -/
theorem tables_mirrored [DecidableEq ι] {moves : List (Duck × Command ι)}
    (completes : Along (command threshold) (Completes threshold) (EngineState.fresh ι) moves) :
    Mirrors (run (command threshold) (EngineState.fresh ι) moves) ∧
    ∀ (duck : Duck) (datasetId epochId : String) (e : StorageError), duck.drops = true →
      (onDropEpoch duck (run (command threshold) (EngineState.fresh ι) moves)
        datasetId epochId).1 = .error e →
      (onDropEpoch duck (run (command threshold) (EngineState.fresh ι) moves)
        datasetId epochId).2 = run (command threshold) (EngineState.fresh ι) moves := by
  have kept : Mirrors (run (command threshold) (EngineState.fresh ι) moves) ∧
      Owned (run (command threshold) (EngineState.fresh ι) moves) := by
    refine run_kept (I := fun s => Mirrors s ∧ Owned s) ?_ ⟨mirrors_fresh, owned_fresh⟩ completes
    exact fun s m ⟨h, hs⟩ hm => ⟨h.command hs hm, (command_acts threshold hs m).2⟩
  exact ⟨kept.1, fun duck datasetId epochId e hduck => (kept.1.drop hduck kept.2 _ _).2 e⟩

def loadAndDrop (drops : Bool) : List (Duck × Command Unit) :=
  [({}, .engine (.startEpoch "d" ⟨"e", "t"⟩ [] ())), ({}, .engine (.ingestBatch "d__e" (oneRow 1))),
    ({}, .engine (.finishEpoch "d__e")), ({ drops := drops }, .drop "d" "e")]

theorem tables_mirrored_dropped :
    Mirrors (run (command 1) (EngineState.fresh Unit) (loadAndDrop true)) := by
  have completes : Along (command 1) (Completes 1) (EngineState.fresh Unit) (loadAndDrop true) :=
    ⟨trivial, trivial, fun _ => by decide +kernel, rfl, trivial⟩
  exact (tables_mirrored completes).1

/-- The table of an epoch whose drop failed is left, and the epoch is unknown. -/
theorem table_left_behind :
    (onDropEpoch { drops := false } (run (command 1) (EngineState.fresh Unit)
      ((loadAndDrop false).take 3)) "d" "e").1 = .error (.failed "Failed to drop table t") ∧
    (run (command 1) (EngineState.fresh Unit) (loadAndDrop false)).tables "t" =
      some [[some (.int 1)]] ∧
    (∀ κ, tableOf (run (command 1) (EngineState.fresh Unit) (loadAndDrop false)) κ = none) ∧
    (onDropEpoch {} (run (command 1) (EngineState.fresh Unit) (loadAndDrop false)) "d" "e").1 =
      .error (.invalidArgument "Epoch e for dataset d not found") := by
  refine ⟨by decide +kernel, by decide +kernel, fun κ => ?_, by decide +kernel⟩
  by_cases hκ : κ = "d__e"
  · subst hκ
    decide +kernel
  · exact tableOf_run 1 owned_fresh hκ (by decide +kernel)

section Kept

variable [DecidableEq ι] {key : String} {entry : EpochView × TableMetadata}

theorem committed_step (threshold : Nat) (hs : Owned s) (h : s.committed key = some entry)
    {m : Duck × Command ι}
    (undropped : ∀ d e, m.2 = .drop d e → epochKey d e ≠ key) :
    (command threshold s m).committed key = some entry ∧
      (command threshold s m).tables entry.1.tableName = s.tables entry.1.tableName := by
  obtain ⟨free, table⟩ := tableOf_committed hs h
  by_cases hkey : key = m.2.key
  · subst hkey
    obtain ⟨duck, com | ⟨d, e⟩⟩ := m
    · have effect := engineStep_effect threshold duck s com
      simp only [command]
      generalize engineStep threshold duck s com = s' at effect ⊢
      -- the key has no open epoch to ingest into or to finish, and is not opened again
      cases effect with
      | refused | ignored | idle => exact ⟨h, rfl⟩
      | opened _ uncommitted => cases h.symm.trans uncommitted
      | ingested hep | failed hep | finished hep => cases free.symm.trans hep
    · exact absurd rfl (undropped d e rfl)
  · have acts := (command_acts threshold hs m).1
    exact ⟨(acts.committed key hkey).trans h, acts.tables key hkey _ table⟩

/-- A committed epoch keeps its view, its metadata and its rows until it is dropped. -/
theorem committed_kept {before after : List (Duck × Command ι)}
    (hs : s = run (command threshold) (EngineState.fresh ι) before)
    (h : s.committed key = some entry)
    (undropped : ∀ m ∈ after, ∀ d e, m.2 = .drop d e → epochKey d e ≠ key) :
    (run (command threshold) s after).committed key = some entry ∧
      (run (command threshold) s after).tables entry.1.tableName =
        s.tables entry.1.tableName := by
  have owned : Owned s := hs ▸ run_invariant (I := Owned)
    (fun _ m owned => (command_acts threshold owned m).2) owned_fresh before
  clear hs
  induction after generalizing s with
  | nil => exact ⟨h, rfl⟩
  | cons m after ih =>
    obtain ⟨kept, rows⟩ := committed_step threshold owned h (undropped m List.mem_cons_self)
    obtain ⟨kept', rows'⟩ := ih kept (fun m hm => undropped m (List.mem_cons_of_mem _ hm))
      (command_acts threshold owned m).2
    exact ⟨kept', rows'.trans rows⟩

/-- The epoch is started, filled and finished once more. -/
theorem committed_kept_reloaded :
    (run (command 1) (run (command 1) (EngineState.fresh Unit) ((loadAndDrop true).take 3))
      ((loadAndDrop true).take 3)).tables "t" = some [[some (.int 1)]] := by
  have loaded : (run (command 1) (EngineState.fresh Unit) ((loadAndDrop true).take 3)).committed
      "d__e" = some (⟨"e", "t"⟩, ⟨"t", 1, []⟩) := by decide +kernel
  exact (committed_kept rfl loaded (by simp [loadAndDrop])).2.trans (by decide +kernel)

end Kept

section Account

/-- The batches ingested for the open epoch of each key, and whether a flush failed. -/
structure Account where
  batches : String → List RecordBatch
  failed : String → Bool

def Account.empty : Account := ⟨fun _ => [], fun _ => false⟩

def pushed (ep : EpochInProgress ι) (batch : RecordBatch) : EpochInProgress ι :=
  { ep with
    pendingRows := ep.pendingRows + batch.rows.length
    pendingBatches := ep.pendingBatches ++ [batch] }

def flushFails (threshold : Nat) (duck : Duck) (s : EngineState ι) (key : String)
    (batch : RecordBatch) : Bool :=
  match s.inProgress key with
  | none => false
  | some ep =>
    ep.firstError.isNone && decide (threshold ≤ (pushed ep batch).pendingRows) &&
      (flushPendingBatches duck s.tables (pushed ep batch)).2.toOption.isNone

def Account.note (threshold : Nat) (s : EngineState ι) (a : Account) (m : Duck × Command ι) :
    Account :=
  match m.2 with
  | .engine (.startEpoch datasetId view _ _) =>
    let key := epochKey datasetId view.epochId
    if (s.inProgress key).isSome then a
    else ⟨Function.update a.batches key [], Function.update a.failed key false⟩
  | .engine (.ingestBatch key batch) =>
    ⟨Function.update a.batches key (a.batches key ++ [batch]),
      Function.update a.failed key (a.failed key || flushFails threshold m.1 s key batch)⟩
  | _ => a

def Accounted (s : EngineState ι) (a : Account) : Prop :=
  ∀ key ep, s.inProgress key = some ep → ep.firstError = none →
    a.failed key = false ∧ Filled s.tables ep (batchRows (a.batches key))

variable {a : Account}

def track [DecidableEq ι] (threshold : Nat) (x : EngineState ι × Account) (m : Duck × Command ι) :
    EngineState ι × Account :=
  (command threshold x.1 m, x.2.note threshold x.1 m)

theorem Accounted.acts {s' : EngineState ι} {a' : Account} {key : String} (h : Accounted s a)
    (acting : ActsOn key s s')
    (others : ∀ κ, κ ≠ key → a'.batches κ = a.batches κ ∧ a'.failed κ = a.failed κ)
    (here : ∀ ep, s'.inProgress key = some ep → ep.firstError = none →
      a'.failed key = false ∧ Filled s'.tables ep (batchRows (a'.batches key))) :
    Accounted s' a' := by
  intro κ ep hep clean
  by_cases hκ : κ = key
  · subst hκ
    exact here ep hep clean
  rw [acting.inProgress κ hκ] at hep
  obtain ⟨sound, written, htable, rest⟩ := h κ ep hep clean
  rw [(others κ hκ).1, (others κ hκ).2]
  exact ⟨sound, written, (acting.tables κ hκ _ (tableOf_inProgress hep)).trans htable, rest⟩

theorem ingest_fails {key : String} {batch : RecordBatch}
    (h : flushFails threshold duck s key batch = true) {ep' : EpochInProgress ι}
    (hep' : (onIngestBatch threshold duck s key batch).inProgress key = some ep') :
    ep'.firstError ≠ none := by
  cases hep : s.inProgress key with
  | none => simp [flushFails, hep] at h
  | some ep =>
    simp only [flushFails, hep, Bool.and_eq_true, isNone_iff_eq_none] at h
    obtain ⟨⟨clean, full⟩, fails⟩ := h
    have full : threshold ≤ ep.pendingRows + batch.rows.length := of_decide_eq_true full
    simp only [pushed] at fails
    simp only [onIngestBatch, hep, clean, isSome_none, Bool.false_eq_true, if_false,
      if_pos full] at hep'
    rw [clean] at fails
    split at hep'
    · rename_i hflush
      simp [hflush, Except.toOption] at fails
    · simp only [update_self, Option.some.injEq] at hep'
      rw [← hep']
      exact some_ne_none _

variable [DecidableEq ι]

attribute [local simp] EngineState.reply Command.key Account.note

theorem accounted_step (hs : Owned s) (h : Accounted s a) (m : Duck × Command ι) :
    Accounted (command threshold s m) (a.note threshold s m) := by
  have acts := (command_acts threshold hs m).1
  obtain ⟨duck, com | ⟨datasetId, epochId⟩⟩ := m
  · have effect := engineStep_effect threshold duck s com
    have flushed : ∀ {key : String} {batch : RecordBatch} {ep' : EpochInProgress ι},
        com = .ingestBatch key batch →
        (command threshold s (duck, .engine com)).inProgress key = some ep' →
        ep'.firstError = none → flushFails threshold duck s key batch = false := by
      rintro key batch ep' rfl hep' clean
      exact Bool.eq_false_iff.mpr fun fails => ingest_fails fails hep' clean
    simp only [command] at acts flushed ⊢
    generalize engineStep threshold duck s com = s' at acts effect flushed ⊢
    refine h.acts acts (fun κ hκ => ?_) fun ep hep clean => ?_
    · cases com with
      | startEpoch =>
        simp only [Account.note]
        split
        · exact ⟨rfl, rfl⟩
        · exact ⟨update_of_ne hκ _ _, update_of_ne hκ _ _⟩
      | ingestBatch => exact ⟨update_of_ne hκ _ _, update_of_ne hκ _ _⟩
      | finishEpoch => exact ⟨rfl, rfl⟩
    cases effect with
    | refused =>
      have opened : s.inProgress (epochKey _ _) = some ep := hep
      simp only [Account.note, opened, isSome_some, if_true]
      exact h _ ep opened clean
    | opened free =>
      simp only [Command.key, comKey, update_self, Option.some.injEq] at hep
      subst hep
      simp [comKey, free, Filled, batchRows]
    | ignored free | idle free => cases free.symm.trans hep
    | ingested hep₁ _ _ _ filled =>
      simp only [Command.key, comKey, update_self, Option.some.injEq] at hep
      subst hep
      obtain ⟨sound, before⟩ := h _ _ hep₁ (filled clean).1
      refine ⟨by simp [comKey, sound, flushed rfl (update_self _ _ _) clean], ?_⟩
      simpa [comKey, batchRows] using (filled clean).2 _ before
    | failed | finished => simp [comKey] at hep
  · refine h.acts acts (fun κ hκ => ⟨rfl, rfl⟩) fun ep hep clean => ?_
    simp only [Command.key, command] at hep ⊢
    rcases drop_cases duck s datasetId epochId with heq | ⟨hfree, _, _, _, _, _, heq⟩
    · rw [heq] at hep ⊢
      exact h _ ep hep clean
    · simp only [heq, hfree] at hep
      cases hep

theorem finish_ok {key : String} {ep : EpochInProgress ι} {metadata : TableMetadata}
    (hep : s.inProgress key = some ep)
    (ok : (onFinishEpoch duck s key).replies ep.done = some (.ok metadata)) :
    ep.firstError = none ∧ ∃ ep', flushPendingBatches duck s.tables ep =
      ((onFinishEpoch duck s key).tables, .ok ep') ∧
      metadata.totalRows = ep'.totalRowsCommitted := by
  simp only [onFinishEpoch, hep] at ok ⊢
  cases herror : ep.firstError with
  | some e => simp [herror] at ok
  | none =>
    simp only [herror] at ok ⊢
    refine ⟨trivial, ?_⟩
    split at ok
    · simp at ok
    · rename_i tables' ep' hflush
      obtain ⟨-, hdone, -⟩ := flush_same hflush
      by_cases rowless : ep'.totalRowsCommitted = 0
      · simp [rowless, hdone] at ok
      cases described : duck.describes with
      | none => simp [rowless, described, hdone] at ok
      | some schema =>
        simp only [rowless, described, if_false, EngineState.reply, hdone, update_self,
          Option.some.injEq, Except.ok.injEq] at ok
        refine ⟨ep', ?_, by rw [← ok]⟩
        simp only [hflush, rowless, if_false, EngineState.reply]

def tracked (threshold : Nat) (moves : List (Duck × Command ι)) : EngineState ι × Account :=
  run (track threshold) (EngineState.fresh ι, Account.empty) moves

theorem accounted_run (threshold : Nat) (moves : List (Duck × Command ι)) :
    Owned (tracked threshold moves).1 ∧
      Accounted (tracked threshold moves).1 (tracked threshold moves).2 := by
  refine run_invariant (I := fun x : EngineState ι × Account => Owned x.1 ∧ Accounted x.1 x.2) ?_
    ⟨owned_fresh, fun _ _ h => by cases h⟩ moves
  intro x m ⟨hs, h⟩
  exact ⟨(command_acts threshold hs m).2, accounted_step hs h m⟩

/-- An epoch that is reported as loaded holds what was ingested for it, and none of its flushes
failed. A command leaves all other epochs. -/
theorem ingestion_accounted (moves : List (Duck × Command ι)) (duck : Duck) {key : String}
    {ep : EpochInProgress ι} (hep : (tracked threshold moves).1.inProgress key = some ep)
    {metadata : TableMetadata}
    (ok : (onFinishEpoch duck (tracked threshold moves).1 key).replies ep.done =
      some (.ok metadata)) :
    (onFinishEpoch duck (tracked threshold moves).1 key).tables ep.epochView.tableName =
      some (batchRows ((tracked threshold moves).2.batches key)) ∧
    metadata.totalRows = (batchRows ((tracked threshold moves).2.batches key)).length ∧
    (tracked threshold moves).2.failed key = false ∧
    (flushPendingBatches duck (tracked threshold moves).1.tables ep).2.toOption.isSome ∧
    ∀ m, ActsOn m.2.key (tracked threshold moves).1
      (command threshold (tracked threshold moves).1 m) := by
  obtain ⟨owned, accounted⟩ := accounted_run threshold moves
  obtain ⟨clean, ep', hflush, htotal⟩ := finish_ok hep ok
  obtain ⟨sound, filled⟩ := accounted key ep hep clean
  obtain ⟨htable, -, -, hrows⟩ := flush_filled filled hflush
  refine ⟨htable, htotal.trans hrows, sound, ?_, fun m => (command_acts threshold owned m).1⟩
  rw [hflush]
  rfl

/-- Two epochs are loaded at once, and a flush of the second one fails. -/
def interleaved : List (Duck × Command Bool) :=
  [({}, .engine (.startEpoch "d" ⟨"e", "t"⟩ [] true)),
    ({}, .engine (.startEpoch "d" ⟨"f", "u"⟩ [] false)),
    ({}, .engine (.ingestBatch "d__e" (oneRow 1))),
    ({ appends := false }, .engine (.ingestBatch "d__f" (oneRow 2))),
    ({}, .engine (.ingestBatch "d__e" (oneRow 3)))]

theorem ingestion_accounted_interleaved :
    (onFinishEpoch {} (tracked 1 interleaved).1 "d__e").tables "t" =
      some [[some (.int 1)], [some (.int 3)]] := by
  have hep : (tracked 1 interleaved).1.inProgress "d__e" =
      some ⟨⟨"e", "t"⟩, [], 0, 2, none, true⟩ := rfl
  have ok : (onFinishEpoch {} (tracked 1 interleaved).1 "d__e").replies true =
      some (.ok ⟨"t", 2, []⟩) := by decide +kernel
  exact (ingestion_accounted _ _ hep ok).1

end Account

end Leibrix.EpochCommands
