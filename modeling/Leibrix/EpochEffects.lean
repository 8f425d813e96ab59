import Leibrix.EpochEngine

/-!
# What one command does to the engine

Each command acts on one key. It leaves the epochs and the tables of all other keys as
they are, as long as no two keys share a table, which a start makes sure of.
-/

set_option autoImplicit false

namespace Leibrix.EpochEffects
open ArrowBatch EpochEngine List Option Function

variable {ι : Type}

def Filled (tables : String → Option (List Row)) (ep : EpochInProgress ι) (rows : List Row) :
    Prop :=
  ∃ written, tables ep.epochView.tableName = some written ∧
    written ++ batchRows ep.pendingBatches = rows ∧ ep.totalRowsCommitted = written.length ∧
    ep.pendingRows = (batchRows ep.pendingBatches).length

/-- Only this table changes, and it stays. -/
structure OnlyTable (table : String) (tables tables' : String → Option (List Row)) : Prop where
  others : ∀ t, t ≠ table → tables' t = tables t
  stays : (tables table).isSome → (tables' table).isSome

theorem OnlyTable.refl (table : String) (tables : String → Option (List Row)) :
    OnlyTable table tables tables :=
  ⟨fun _ _ => rfl, fun h => h⟩

theorem onlyTable_update (table : String) (tables : String → Option (List Row)) (rows : List Row) :
    OnlyTable table tables (Function.update tables table (some rows)) :=
  ⟨fun _ ht => update_of_ne ht _ _, fun _ => by simp⟩

variable {duck : Duck} {rows : List Row}

section Flush

variable {tables tables' : String → Option (List Row)} {ep : EpochInProgress ι}

theorem flush_onlyTable {r : Except StorageError (EpochInProgress ι)}
    (h : flushPendingBatches duck tables ep = (tables', r)) :
    OnlyTable ep.epochView.tableName tables tables' := by
  revert h
  fun_cases flushPendingBatches duck tables ep <;> rintro ⟨⟩
  case case1 | case2 => exact .refl _ _
  case case3 | case4 => exact onlyTable_update _ _ _

variable {ep' : EpochInProgress ι}

theorem flush_same (h : flushPendingBatches duck tables ep = (tables', .ok ep')) :
    ep'.epochView = ep.epochView ∧ ep'.done = ep.done ∧ ep'.firstError = ep.firstError := by
  revert h
  fun_cases flushPendingBatches duck tables ep <;> rintro ⟨⟩ <;> exact ⟨rfl, rfl, rfl⟩

variable (hf : Filled tables ep rows) (h : flushPendingBatches duck tables ep = (tables', .ok ep'))
include hf h

theorem flush_filled :
    tables' ep.epochView.tableName = some rows ∧ ep'.pendingBatches = [] ∧
      ep'.pendingRows = 0 ∧ ep'.totalRowsCommitted = rows.length := by
  obtain ⟨written, htable, hrows, htotal, hpending⟩ := hf
  simp only [flushPendingBatches] at h
  split at h
  · rename_i hempty
    cases h
    have none_pending : ep.pendingBatches = [] := List.isEmpty_iff.mp hempty
    rw [none_pending] at hrows hpending
    simp only [batchRows, flatMap_nil, append_nil] at hrows
    subst hrows
    exact ⟨htable, none_pending, hpending, htotal⟩
  · rw [htable] at h
    simp only at h
    split at h
    · cases h
      refine ⟨by simp [hrows], rfl, rfl, ?_⟩
      simp only
      rw [htotal, hpending, ← hrows, length_append]
    · cases h

theorem filled_of_flush : Filled tables' ep' rows := by
  obtain ⟨htable, hpending, hcount, htotal⟩ := flush_filled hf h
  obtain ⟨hview, -, -⟩ := flush_same h
  exact ⟨rows, hview ▸ htable, by simp [hpending, batchRows], htotal,
    by simp [hpending, hcount, batchRows]⟩

end Flush

variable {ep : EpochInProgress ι} {κ : String}

theorem filled_push {tables : String → Option (List Row)} (hf : Filled tables ep rows)
    (batch : RecordBatch) : Filled tables { ep with
      pendingRows := ep.pendingRows + batch.rows.length
      pendingBatches := ep.pendingBatches ++ [batch] } (rows ++ batch.rows) := by
  obtain ⟨written, htable, hrows, htotal, hpending⟩ := hf
  exact ⟨written, htable, by simp [batchRows, ← hrows], htotal, by simp [batchRows, hpending]⟩

variable (threshold : Nat)

section Commands

variable (duck : Duck) (s : EngineState ι)

/-- What a command can make of the engine. A finish answers whoever opened the epoch. It commits
only rows that are all in the table, and at least one. -/
inductive Effect [DecidableEq ι] : EngineCom ι → EngineState ι → Prop
  | refused {datasetId : String} {view : EpochView} {schema : Schema} {done : ι}
      (e : StorageError) :
      Effect (.startEpoch datasetId view schema done) (s.reply done (.error e))
  | opened {datasetId : String} {view : EpochView} {schema : Schema} {done : ι}
      (free : s.inProgress (epochKey datasetId view.epochId) = none)
      (uncommitted : s.committed (epochKey datasetId view.epochId) = none)
      (untaken : s.tables view.tableName = none) :
      Effect (.startEpoch datasetId view schema done)
        { s with
          tables := Function.update s.tables view.tableName (some [])
          inProgress := Function.update s.inProgress (epochKey datasetId view.epochId)
            (some ⟨view, [], 0, 0, none, done⟩) }
  | ignored {key : String} {batch : RecordBatch} (free : s.inProgress key = none) :
      Effect (.ingestBatch key batch) s
  | ingested {key : String} {batch : RecordBatch} {ep ep' : EpochInProgress ι}
      {tables' : String → Option (List Row)} (hep : s.inProgress key = some ep)
      (view : ep'.epochView = ep.epochView) (done : ep'.done = ep.done)
      (only : OnlyTable ep.epochView.tableName s.tables tables')
      (filled : ep'.firstError = none → ep.firstError = none ∧
        ∀ rows, Filled s.tables ep rows → Filled tables' ep' (rows ++ batch.rows)) :
      Effect (.ingestBatch key batch)
        { s with tables := tables', inProgress := Function.update s.inProgress key (some ep') }
  | idle {key : String} (free : s.inProgress key = none) : Effect (.finishEpoch key) s
  | failed {key : String} {ep : EpochInProgress ι} {tables' : String → Option (List Row)}
      (hep : s.inProgress key = some ep)
      (only : OnlyTable ep.epochView.tableName s.tables tables') (e : StorageError) :
      Effect (.finishEpoch key)
        { s with
          tables := tables'
          inProgress := Function.update s.inProgress key none
          replies := Function.update s.replies ep.done (some (.error e)) }
  | finished {key : String} {ep : EpochInProgress ι} {tables' : String → Option (List Row)}
      (hep : s.inProgress key = some ep)
      (only : OnlyTable ep.epochView.tableName s.tables tables') (metadata : TableMetadata)
      (clean : ep.firstError = none)
      (complete : ∀ rows, Filled s.tables ep rows →
        rows ≠ [] ∧ tables' ep.epochView.tableName = some rows) :
      Effect (.finishEpoch key)
        { s with
          tables := tables'
          inProgress := Function.update s.inProgress key none
          committed := Function.update s.committed key (some (ep.epochView, metadata))
          replies := Function.update s.replies ep.done (some (.ok metadata)) }

theorem start_effect [DecidableEq ι] (datasetId : String) (view : EpochView) (schema : Schema)
    (done : ι) :
    Effect s (.startEpoch datasetId view schema done)
      (onStartEpoch duck s datasetId view done) := by
  fun_cases onStartEpoch duck s datasetId view done
  case case4 hfree htable =>
    simp only [Bool.or_eq_true, not_or, Bool.not_eq_true, isSome_eq_false_iff,
      isNone_iff_eq_none] at hfree htable
    exact .opened hfree.1 hfree.2 htable.1
  all_goals exact .refused _

theorem ingest_effect [DecidableEq ι] (key : String) (batch : RecordBatch) :
    Effect s (.ingestBatch key batch) (onIngestBatch threshold duck s key batch) := by
  fun_cases onIngestBatch threshold duck s key batch
  case case1 hep => exact .ignored hep
  case case2 ep hep herror =>
    have same : update s.inProgress key (some ep) = s.inProgress := by
      rw [← hep, update_eq_self]
    have effect : Effect s (.ingestBatch key batch) _ :=
      .ingested hep rfl rfl (.refl _ _) fun clean => by simp [clean] at herror
    rw [same] at effect
    exact effect
  case case3 ep hep herror pushed _ tables' ep' hflush =>
    obtain ⟨hview, hdone, -⟩ := flush_same hflush
    have only := flush_onlyTable hflush
    exact .ingested hep hview hdone only fun _ =>
      ⟨by simpa using herror, fun rows hf => filled_of_flush (filled_push hf batch) hflush⟩
  case case4 ep hep herror pushed _ tables' e hflush =>
    have only := flush_onlyTable hflush
    exact .ingested hep rfl rfl only nofun
  case case5 ep hep herror pushed _ =>
    exact .ingested hep rfl rfl (.refl _ _) fun _ =>
      ⟨by simpa using herror, fun rows hf => filled_push hf batch⟩

theorem finish_effect [DecidableEq ι] (key : String) :
    Effect s (.finishEpoch key) (onFinishEpoch duck s key) := by
  fun_cases onFinishEpoch duck s key
  case case1 hep => exact .idle hep
  case case2 ep hep _ e _ => exact .failed hep (.refl _ _) e
  case case3 ep hep _ _ tables' e hflush => exact .failed hep (flush_onlyTable hflush) e
  case case4 ep hep _ _ tables' ep' hflush _ _ | case5 ep hep _ _ tables' ep' hflush _ _ _ =>
    exact (flush_same hflush).2.1 ▸ .failed hep (flush_onlyTable hflush) _
  case case6 ep hep _ clean tables' ep' hflush _ hrows schema _ _ =>
    obtain ⟨hview, hdone, -⟩ := flush_same hflush
    rw [EngineState.reply, hdone, hview]
    refine .finished hep (flush_onlyTable hflush) _ clean fun rows hf => ?_
    obtain ⟨htable, -, -, htotal⟩ := flush_filled hf hflush
    exact ⟨fun hnil => hrows (by rw [htotal, hnil]; rfl), htable⟩

theorem engineStep_effect [DecidableEq ι] (com : EngineCom ι) :
    Effect s com (engineStep threshold duck s com) := by
  cases com with
  | startEpoch datasetId view schema done => exact start_effect duck s datasetId view schema done
  | ingestBatch key batch => exact ingest_effect threshold duck s key batch
  | finishEpoch key => exact finish_effect duck s key

theorem drop_cases (datasetId epochId : String) :
    (onDropEpoch duck s datasetId epochId).2 = s ∨
    (s.inProgress (epochKey datasetId epochId) = none ∧
      ∃ view metadata tables', s.committed (epochKey datasetId epochId) = some (view, metadata) ∧
        (∀ t, t ≠ view.tableName → tables' t = s.tables t) ∧
        (onDropEpoch duck s datasetId epochId).2 =
          { s with
            tables := tables'
            committed := Function.update s.committed (epochKey datasetId epochId) none }) := by
  simp only [onDropEpoch]
  split
  · exact .inl rfl
  · rename_i hfree
    split
    · exact .inl rfl
    · rename_i view metadata hcommitted
      have free : s.inProgress (epochKey datasetId epochId) = none := by simpa using hfree
      right
      refine ⟨free, view, metadata, ?_⟩
      split
      · exact ⟨_, hcommitted, fun t ht => update_of_ne ht _ _, rfl⟩
      · exact ⟨_, hcommitted, fun _ _ => rfl, rfl⟩

end Commands

def tableOf (s : EngineState ι) (key : String) : Option String :=
  match s.inProgress key with
  | some ep => some ep.epochView.tableName
  | none => (s.committed key).map fun entry => entry.1.tableName

/-- An epoch is open or committed, has a table, and shares it with no other key. -/
structure Owned (s : EngineState ι) : Prop where
  exclusive : ∀ κ ep, s.inProgress κ = some ep → s.committed κ = none
  stored : ∀ κ t, tableOf s κ = some t → (s.tables t).isSome
  distinct : ∀ κ κ' t, tableOf s κ = some t → tableOf s κ' = some t → κ = κ'

theorem owned_fresh : Owned (EngineState.fresh ι) where
  exclusive _ _ _ := rfl
  stored _ _ h := by cases h
  distinct _ _ _ h := by cases h

/-- The second state differs from the first at most at one key and its table. -/
structure ActsOn (key : String) (s s' : EngineState ι) : Prop where
  inProgress : ∀ κ, κ ≠ key → s'.inProgress κ = s.inProgress κ
  committed : ∀ κ, κ ≠ key → s'.committed κ = s.committed κ
  tables : ∀ κ, κ ≠ key → ∀ t, tableOf s κ = some t → s'.tables t = s.tables t

theorem ActsOn.refl (key : String) (s : EngineState ι) : ActsOn key s s :=
  ⟨fun _ _ => rfl, fun _ _ => rfl, fun _ _ _ _ => rfl⟩

variable {key : String} {s : EngineState ι}

variable {s' : EngineState ι}

theorem ActsOn.tableOf_eq (h : ActsOn key s s') (hκ : κ ≠ key) : tableOf s' κ = tableOf s κ := by
  rw [tableOf, tableOf, h.inProgress κ hκ, h.committed κ hκ]

theorem Owned.acts (hs : Owned s) (h : ActsOn key s s')
    (hkey : ∀ ep, s'.inProgress key = some ep → s'.committed key = none)
    (htable : ∀ t, tableOf s' key = some t → (s'.tables t).isSome ∧
      ∀ κ, κ ≠ key → tableOf s κ ≠ some t) : ActsOn key s s' ∧ Owned s' := by
  refine ⟨h, fun κ ep hep => ?_, fun κ t ht => ?_, fun κ κ' t ht ht' => ?_⟩
  · by_cases hκ : κ = key
    · subst hκ
      exact hkey ep hep
    · rw [h.committed κ hκ]
      exact hs.exclusive κ ep (h.inProgress κ hκ ▸ hep)
  · by_cases hκ : κ = key
    · subst hκ
      exact (htable t ht).1
    · rw [h.tableOf_eq hκ] at ht
      rw [h.tables κ hκ t ht]
      exact hs.stored κ t ht
  · by_cases hκ : κ = key <;> by_cases hκ' : κ' = key
    · exact hκ.trans hκ'.symm
    · subst hκ
      exact absurd (h.tableOf_eq hκ' ▸ ht') ((htable t ht).2 κ' hκ')
    · subst hκ'
      exact absurd (h.tableOf_eq hκ ▸ ht) ((htable t ht').2 κ hκ)
    · exact hs.distinct κ κ' t (h.tableOf_eq hκ ▸ ht) (h.tableOf_eq hκ' ▸ ht')

theorem Owned.other_table (hs : Owned s) {t t' : String} (hκ : κ ≠ key)
    (hkey : tableOf s key = some t) (ht : tableOf s κ = some t') : t' ≠ t := by
  intro heq
  subst heq
  exact hκ (hs.distinct κ key t' ht hkey)

theorem tableOf_inProgress (h : s.inProgress key = some ep) :
    tableOf s key = some ep.epochView.tableName := by
  rw [tableOf, h]

variable {metadata : TableMetadata}

theorem tableOf_committed {view : EpochView} (hs : Owned s)
    (h : s.committed key = some (view, metadata)) :
    s.inProgress key = none ∧ tableOf s key = some view.tableName := by
  have free : s.inProgress key = none := by
    cases hep : s.inProgress key with
    | none => rfl
    | some ep => rw [hs.exclusive key ep hep] at h; cases h
  exact ⟨free, by rw [tableOf, free, h]; rfl⟩

section Acts

variable (duck : Duck)

def comKey : EngineCom ι → String
  | .startEpoch datasetId epochView _ _ => epochKey datasetId epochView.epochId
  | .ingestBatch key _ | .finishEpoch key => key

variable {com : EngineCom ι}

theorem Effect.acts [DecidableEq ι] (h : Effect s com s') (hs : Owned s) :
    ActsOn (comKey com) s s' ∧ Owned s' := by
  cases h with
  | refused | ignored | idle =>
    exact ⟨⟨fun _ _ => rfl, fun _ _ => rfl, fun _ _ _ _ => rfl⟩, hs.exclusive, hs.stored,
      hs.distinct⟩
  | @opened _ view _ _ _ uncommitted untaken =>
    have unused : ∀ κ t, tableOf s κ = some t → t ≠ view.tableName := by
      rintro κ t ht rfl
      have stored := hs.stored κ _ ht
      rw [untaken] at stored
      cases stored
    apply hs.acts
    · exact ⟨fun κ hκ => update_of_ne hκ _ _, fun _ _ => rfl,
        fun κ _ t ht => update_of_ne (unused κ t ht) _ _⟩
    · exact fun _ _ => uncommitted
    · intro t ht
      obtain rfl : _ = t := by simpa [tableOf, comKey] using ht
      exact ⟨by simp, fun κ _ hκ => unused κ _ hκ rfl⟩
  | ingested hep view _ only =>
    have table := tableOf_inProgress hep
    apply hs.acts
    · exact ⟨fun κ hκ => update_of_ne hκ _ _, fun _ _ => rfl,
        fun κ hκ t ht => only.others t (hs.other_table hκ table ht)⟩
    · exact fun _ _ => hs.exclusive _ _ hep
    · intro t ht
      obtain rfl : _ = t := by simpa [tableOf, comKey, view] using ht
      exact ⟨only.stays (hs.stored _ _ table), fun κ hκ h => hs.other_table hκ table h rfl⟩
  | failed hep only =>
    apply hs.acts
    · exact ⟨fun κ hκ => update_of_ne hκ _ _, fun _ _ => rfl,
        fun κ hκ t ht => only.others t (hs.other_table hκ (tableOf_inProgress hep) ht)⟩
    · exact fun _ _ => hs.exclusive _ _ hep
    · intro t ht
      simp [tableOf, comKey, hs.exclusive _ _ hep] at ht
  | finished hep only =>
    have table := tableOf_inProgress hep
    apply hs.acts
    · exact ⟨fun κ hκ => update_of_ne hκ _ _,
        fun κ hκ => update_of_ne hκ _ _,
        fun κ hκ t ht => only.others t (hs.other_table hκ table ht)⟩
    · intro _ h
      simp [comKey] at h
    · intro t ht
      obtain rfl : _ = t := by simpa [tableOf, comKey] using ht
      exact ⟨only.stays (hs.stored _ _ table), fun κ hκ h => hs.other_table hκ table h rfl⟩

theorem engineStep_acts [DecidableEq ι] (hs : Owned s) (com : EngineCom ι) :
    ActsOn (comKey com) s (engineStep threshold duck s com) ∧
      Owned (engineStep threshold duck s com) :=
  (engineStep_effect threshold duck s com).acts hs

theorem Effect.committed [DecidableEq ι] (effect : Effect s com s') (hs : Owned s)
    {view : EpochView} (h : s.committed key = some (view, metadata)) :
    s'.committed key = some (view, metadata) ∧
      s'.tables view.tableName = s.tables view.tableName := by
  obtain ⟨free, table⟩ := tableOf_committed hs h
  by_cases hkey : key = comKey com
  · subst hkey
    cases effect with
    | refused | ignored | idle => exact ⟨h, rfl⟩
    | opened _ uncommitted => cases uncommitted.symm.trans h
    | ingested hep | failed hep | finished hep => cases free.symm.trans hep
  · have acts := (effect.acts hs).1
    exact ⟨(acts.committed key hkey).trans h, acts.tables key hkey _ table⟩

theorem drop_acts (hs : Owned s) (datasetId epochId : String) :
    ActsOn (epochKey datasetId epochId) s (onDropEpoch duck s datasetId epochId).2 ∧
      Owned (onDropEpoch duck s datasetId epochId).2 := by
  rcases drop_cases duck s datasetId epochId with
    heq | ⟨hfree, view, metadata, tables', hcommitted, hothers, heq⟩
  · rw [heq]
    exact ⟨.refl _ s, hs⟩
  · have table := (tableOf_committed hs hcommitted).2
    rw [heq]
    apply hs.acts
    · exact ⟨fun _ _ => rfl, fun κ hκ => update_of_ne hκ _ _,
        fun κ hκ t ht => hothers t (hs.other_table hκ table ht)⟩
    · exact fun _ _ => by simp
    · intro t ht
      simp [tableOf, hfree] at ht

end Acts

section Open

/-- The key's epoch was opened by `done` and took all of the rows. -/
def Open (s : EngineState ι) (key : String) (view : EpochView) (done : ι) (rows : List Row) :
    Prop :=
  ∃ ep, s.inProgress key = some ep ∧ ep.epochView = view ∧ ep.done = done ∧
    ep.firstError = none ∧ Filled s.tables ep rows

variable {view : EpochView} {done : ι}

theorem flush_succeeds (hduck : duck.appends) {tables : String → Option (List Row)}
    {ep : EpochInProgress ι} (hf : Filled tables ep rows) :
    ∃ tables' ep', flushPendingBatches duck tables ep = (tables', .ok ep') := by
  obtain ⟨written, htable, -⟩ := hf
  simp only [flushPendingBatches, htable, hduck, if_true]
  split
  · exact ⟨_, _, rfl⟩
  · exact ⟨_, _, rfl⟩

variable {datasetId : String}

theorem open_start [DecidableEq ι] (duck : Duck) (hduck : duck.creates) (done : ι)
    (hrunning : s.shutdown = false) (hfree : s.inProgress (epochKey datasetId view.epochId) = none)
    (hcommitted : s.committed (epochKey datasetId view.epochId) = none)
    (htable : s.tables view.tableName = none) :
    Open (onStartEpoch duck s datasetId view done) (epochKey datasetId view.epochId) view done
      [] := by
  simp only [onStartEpoch, hrunning, hfree, hcommitted, htable, hduck]
  exact ⟨_, update_self _ _ _, rfl, rfl, rfl, [], by simp [batchRows]⟩

theorem open_ingest (hduck : duck.appends) (h : Open s key view done rows) (batch : RecordBatch) :
    Open (onIngestBatch threshold duck s key batch) key view done (rows ++ batch.rows) := by
  obtain ⟨ep, hep, hview, hdone, hclean, hf⟩ := h
  have pushed := filled_push hf batch
  simp only [onIngestBatch, hep, hclean, isSome_none, Bool.false_eq_true, if_false]
  split
  · obtain ⟨tables', ep', hflush⟩ := flush_succeeds hduck pushed
    obtain ⟨hview', hdone', hclean'⟩ := flush_same hflush
    rw [hclean] at hflush
    simp only [hflush]
    exact ⟨ep', update_self _ _ _, hview'.trans hview, hdone'.trans hdone,
      hclean'.trans hclean, filled_of_flush pushed (hclean ▸ hflush)⟩
  · exact ⟨_, update_self _ _ _, hview, hdone, rfl, pushed⟩

theorem open_refused [DecidableEq ι] {other : EpochView} {caller : ι}
    (hkey : epochKey datasetId other.epochId = key) (h : Open s key view done rows) :
    Open (onStartEpoch duck s datasetId other caller) key view done rows := by
  obtain ⟨ep, hep, hrest⟩ := h
  have effect := start_effect duck s datasetId other [] caller
  generalize onStartEpoch duck s datasetId other caller = s' at effect
  cases effect with
  | refused => exact ⟨ep, hep, hrest⟩
  | opened free =>
    rw [hkey, hep] at free
    cases free

theorem open_ingests [DecidableEq ι] (duck : Duck) (hduck : duck.appends)
    (h : Open s key view done rows) (batches : List RecordBatch) :
    Open ((batches.map (.ingestBatch key)).foldl (engineStep threshold duck) s) key view done
      (rows ++ batchRows batches) := by
  induction batches generalizing s rows with
  | nil => simpa [batchRows] using h
  | cons batch batches ih =>
    have next := ih (open_ingest threshold hduck h batch)
    rw [append_assoc] at next
    exact next

theorem open_finish [DecidableEq ι] (duck : Duck) (hduck : duck.appends) {schema : Schema}
    (hschema : duck.describes = some schema) (h : Open s key view done rows) (hrows : rows ≠ []) :
    ∃ metadata, (onFinishEpoch duck s key).committed key = some (view, metadata) ∧
      (onFinishEpoch duck s key).tables view.tableName = some rows ∧
      (onFinishEpoch duck s key).replies done = some (.ok metadata) := by
  obtain ⟨ep, hep, hview, hdone, hclean, hf⟩ := h
  obtain ⟨tables', ep', hflush⟩ := flush_succeeds hduck hf
  obtain ⟨hview', hdone', -⟩ := flush_same hflush
  obtain ⟨htable, -, -, htotal⟩ := flush_filled hf hflush
  have counted : ep'.totalRowsCommitted ≠ 0 := by
    rw [htotal]
    simpa using hrows
  refine ⟨⟨ep'.epochView.tableName, ep'.totalRowsCommitted, schema⟩, ?_⟩
  simp only [onFinishEpoch, hep, hclean, hflush, counted, if_false, hschema]
  exact ⟨by simp [EngineState.reply, hview', hview],
    by simpa [EngineState.reply, hview] using htable, by simp [EngineState.reply, hdone', hdone]⟩

end Open

end Leibrix.EpochEffects
