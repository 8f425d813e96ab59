import Leibrix.EpochEffects
import Leibrix.Runs

/-!
# Calls that share the engine

Any number of `create_epoch_table` calls send their commands through one channel. A
schedule says whose command comes next, what the database does with it, and where epochs
are dropped. A refused start does not stop its call, so what the call sends next lands in
the epoch of whoever opened the key.
-/

set_option autoImplicit false

namespace Leibrix.EpochCalls
open ArrowBatch EpochEngine EpochEffects Runs List Option Function

variable {batch : RecordBatch} {c : Call} {metadata : TableMetadata} {ι : Type}

section Calls

theorem batchRows_take_nil {batches : List RecordBatch} (h : batchRows batches = []) (n : Nat) :
    batchRows (batches.take n) = [] := by
  simp only [batchRows, flatMap_eq_nil_iff] at h ⊢
  intro batch hbatch
  exact h batch (mem_of_mem_take hbatch)

variable {n : Nat}

theorem batchRows_take_succ {batches : List RecordBatch} (h : batches[n]? = some batch) :
    batchRows (batches.take (n + 1)) = batchRows (batches.take n) ++ batch.rows := by
  simp [batchRows, take_add_one, h]

theorem commands_eq (c : Call) (done : ι) (h : c.batches ≠ []) :
    ∃ schema, c.commands done = .startEpoch c.datasetId c.epochView schema done ::
      (c.batches.map (.ingestBatch c.key) ++ if c.ends then [.finishEpoch c.key] else []) := by
  unfold Call.commands
  split
  · rename_i hnone
    exact absurd hnone h
  · rename_i first rest hbatches
    exact ⟨first.schema, by rw [hbatches]⟩

/-- The command at a place of the call: its start, one of its batches, or its finish. -/
theorem commands_cases (c : Call) (done : ι) {com : EngineCom ι}
    (h : (c.commands done)[n]? = some com) :
    (n = 0 ∧ ∃ schema, com = .startEpoch c.datasetId c.epochView schema done) ∨
    (∃ k batch, n = k + 1 ∧ c.batches[k]? = some batch ∧ com = .ingestBatch c.key batch) ∨
    (c.ends ∧ n = c.batches.length + 1 ∧ (c.commands done).length = n + 1 ∧
      com = .finishEpoch c.key) := by
  have batches : c.batches ≠ [] := by
    intro none
    simp [Call.commands, none] at h
  obtain ⟨schema, hcommands⟩ := commands_eq c done batches
  rw [hcommands] at h ⊢
  cases n with
  | zero => exact .inl ⟨rfl, schema, by simpa using h.symm⟩
  | succ k =>
    right
    rw [getElem?_cons_succ, getElem?_append] at h
    split at h
    · rw [getElem?_map, map_eq_some_iff] at h
      obtain ⟨batch, hbatch, rfl⟩ := h
      exact .inl ⟨k, batch, rfl, hbatch, rfl⟩
    · rename_i hlong
      rw [length_map] at hlong h
      split at h
      · rename_i hends
        rw [getElem?_singleton] at h
        split at h
        · cases h
          obtain rfl : k = c.batches.length := by omega
          exact .inr ⟨hends, rfl, by simp [hends], rfl⟩
        · cases h
      · simp at h

theorem batches_of_ends (h : c.ends) : c.batches ≠ [] := by
  simp only [Call.ends, Bool.and_eq_true, Bool.not_eq_true', isNone_iff_eq_none] at h
  unfold Call.batches
  cases hstream : c.stream with
  | nil => simp [hstream] at h
  | cons item rest =>
    cases item with
    | ok batch => simp [okBatches]
    | error e => simp [hstream, streamError] at h

theorem comKey_commands (c : Call) (done : ι) {com : EngineCom ι}
    (h : (c.commands done)[n]? = some com) : comKey com = c.key := by
  rcases commands_cases c done h with ⟨-, schema, rfl⟩ | ⟨k, batch, -, -, rfl⟩ | ⟨-, -, -, rfl⟩ <;>
    rfl

theorem okBatches_ok (batches : List RecordBatch) : okBatches (batches.map .ok) = batches := by
  induction batches with
  | nil => rfl
  | cons batch batches ih => simp [okBatches, ih]

theorem streamError_ok (batches : List RecordBatch) : streamError (batches.map .ok) = none := by
  induction batches with
  | nil => rfl
  | cons batch batches ih => simpa [streamError] using ih

theorem returned_ok {reply : Option (Except StorageError TableMetadata)}
    (h : c.returned reply = some (.ok metadata)) : c.ends ∧ reply = some (.ok metadata) := by
  unfold Call.returned at h
  split at h
  · cases h
  · rename_i herror
    split at h
    · cases h
    · rename_i hempty
      exact ⟨by simp [Call.ends, herror, hempty], h⟩

theorem returned_of_ends (h : c.ends) (reply : Option (Except StorageError TableMetadata)) :
    c.returned reply = reply := by
  simp only [Call.ends, Bool.and_eq_true, Bool.not_eq_true', isNone_iff_eq_none] at h
  simp [Call.returned, h.1, h.2]

end Calls

/-- `cursor` counts the commands that each call has sent. -/
structure System (ι : Type) where
  engine : EngineState ι
  cursor : ι → Nat

def initial (ι : Type) : System ι := ⟨EngineState.fresh ι, fun _ => 0⟩

inductive Move (ι : Type) where
  | send (i : ι) (duck : Duck)
  | drop (datasetId epochId : String) (duck : Duck)

def Move.Drops {ι : Type} (κ : String) : Move ι → Prop
  | .send _ _ => False
  | .drop datasetId epochId _ => epochKey datasetId epochId = κ

section Systems

variable (threshold : Nat) (calls : ι → Call)

/-- The call has sent all of its commands and returned with metadata. -/
def Succeeded (s : System ι) (i : ι) : Prop :=
  s.cursor i = ((calls i).commands i).length ∧
    ∃ metadata, (calls i).returned (s.engine.replies i) = some (.ok metadata)

def HoldsRows (s : System ι) (c : Call) : Prop :=
  ∃ view metadata, s.engine.committed c.key = some (view, metadata) ∧
    s.engine.tables view.tableName = some c.rows

/-- Where one call of a key sends a finish, no other call of the key sends a row. -/
def Apart : Prop :=
  ∀ i j, i ≠ j → (calls i).key = (calls j).key → (calls i).ends → (calls j).rows = []

/-- An open epoch belongs to a call of its key. As long as nothing failed it holds the
batches that this call has sent since its start. -/
structure Stands (s : System ι) (κ : String) (ep : EpochInProgress ι) : Prop where
  key : (calls ep.done).key = κ
  started : 1 ≤ s.cursor ep.done
  filled : ep.firstError = none → (calls ep.done).ends → Filled s.engine.tables ep
    (batchRows ((calls ep.done).batches.take (s.cursor ep.done - 1)))

/-- What holds between commands, whatever the schedule. -/
structure Sound (s : System ι) : Prop where
  owned : Owned s.engine
  stands : ∀ κ ep, s.engine.inProgress κ = some ep → Stands calls s κ ep
  answered : ∀ i metadata, s.engine.replies i = some (.ok metadata) → (calls i).ends →
    s.cursor i = ((calls i).commands i).length

theorem sound_initial : Sound calls (initial ι) where
  owned := owned_fresh
  stands _ _ h := by cases h
  answered _ _ h := by cases h

variable {calls} {s : System ι} {i : ι}

variable {ep : EpochInProgress ι}

theorem finish_own (apart : Apart calls) (hs : Sound calls s) (hends : (calls i).ends)
    (hcursor : s.cursor i = (calls i).batches.length + 1)
    (hep : s.engine.inProgress (calls i).key = some ep) (hclean : ep.firstError = none)
    (howner : (calls ep.done).ends) {tables' : String → Option (List Row)}
    (hcommit : ∀ rows, Filled s.engine.tables ep rows →
      rows ≠ [] ∧ tables' ep.epochView.tableName = some rows) :
    ep.done = i ∧ (calls i).rows ≠ [] ∧ tables' ep.epochView.tableName = some (calls i).rows := by
  have stands := hs.stands _ ep hep
  obtain ⟨hrows, htable⟩ := hcommit _ (stands.filled hclean howner)
  have own : ep.done = i := by
    by_contra hne
    have empty := apart i ep.done (fun h => hne h.symm) stands.key.symm hends
    exact hrows (batchRows_take_nil empty _)
  subst own
  rw [hcursor, Nat.add_sub_cancel, take_length] at hrows htable
  exact ⟨rfl, hrows, htable⟩

variable {κ : String}

theorem Stands.frame (h : Stands calls s κ ep) {s' : System ι}
    (hcursor : s'.cursor ep.done = s.cursor ep.done)
    (htable : s'.engine.tables ep.epochView.tableName =
      s.engine.tables ep.epochView.tableName) : Stands calls s' κ ep := by
  refine ⟨h.key, hcursor ▸ h.started, fun hclean hends => ?_⟩
  obtain ⟨written, hwritten, hrest⟩ := h.filled hclean hends
  rw [hcursor]
  exact ⟨written, htable.trans hwritten, hrest⟩

theorem drop_sound {duck : Duck} (hs : Sound calls s) (datasetId epochId : String) :
    Sound calls { s with engine := (onDropEpoch duck s.engine datasetId epochId).2 } := by
  obtain ⟨acts, owned⟩ := drop_acts duck hs.owned datasetId epochId
  rcases drop_cases duck s.engine datasetId epochId with
    heq | ⟨hfree, view, metadata, tables', -, -, heq⟩
  · rw [heq]
    exact hs
  · refine ⟨owned, fun κ ep hep => ?_, fun j m hreply hends => ?_⟩
    · have before : s.engine.inProgress κ = some ep := by
        rw [heq] at hep
        exact hep
      have other : κ ≠ epochKey datasetId epochId := by
        intro h
        rw [h, hfree] at before
        cases before
      exact (hs.stands κ ep before).frame rfl
        (acts.tables κ other _ (tableOf_inProgress before))
    · rw [heq] at hreply
      exact hs.answered j m hreply hends

variable [DecidableEq ι]

def sent (duck : Duck) (s : System ι) (i : ι) (com : EngineCom ι) : System ι :=
  ⟨engineStep threshold duck s.engine com, Function.update s.cursor i (s.cursor i + 1)⟩

variable (calls) in
def step (s : System ι) : Move ι → System ι
  | .send i duck =>
    match ((calls i).commands i)[s.cursor i]? with
    | none => s
    | some com => sent threshold duck s i com
  | .drop datasetId epochId duck =>
    { s with engine := (onDropEpoch duck s.engine datasetId epochId).2 }

variable (calls) in
/-- In a stretch of a schedule without a drop of the key, at most one call of the key
succeeds, and the committed table holds its rows. -/
def Unmixed : Prop :=
  ∀ (κ : String) (before during : List (Move ι)), (∀ m ∈ during, ¬ m.Drops κ) →
    let s := run (step threshold calls) (initial ι) before
    let s' := run (step threshold calls) s during
    (∀ i, (calls i).key = κ → Succeeded calls s' i → ¬ Succeeded calls s i →
      HoldsRows s' (calls i)) ∧
    ∀ i j, (calls i).key = κ → (calls j).key = κ → Succeeded calls s' i → Succeeded calls s' j →
      ¬ Succeeded calls s i → ¬ Succeeded calls s j → i = j

variable {duck : Duck} {com : EngineCom ι} {e' : EngineState ι}

theorem sent_cursor_self : (sent threshold duck s i com).cursor i = s.cursor i + 1 :=
  update_self _ _ _

theorem stands_start (hs : Sound calls s) (hcursor : s.cursor i = 0) {schema : Schema}
    (effect : Effect s.engine (.startEpoch (calls i).datasetId (calls i).epochView schema i) e')
    (hep : e'.inProgress (calls i).key = some ep) :
    Stands calls ⟨e', Function.update s.cursor i (s.cursor i + 1)⟩ (calls i).key ep := by
  cases effect with
  | refused e =>
    have stands := hs.stands _ ep hep
    have other : ep.done ≠ i := by
      intro h
      have started := stands.started
      rw [h, hcursor] at started
      omega
    exact stands.frame (update_of_ne other _ _) rfl
  | opened =>
    obtain rfl : (⟨(calls i).epochView, [], 0, 0, none, i⟩ : EpochInProgress ι) = ep := by
      simpa [Call.key] using hep
    refine ⟨rfl, by simp, fun _ _ => ⟨[], by simp, ?_⟩⟩
    simp [hcursor, batchRows]

theorem stands_ingest (apart : Apart calls) (hs : Sound calls s) {k : Nat}
    (hcursor : s.cursor i = k + 1) (hbatch : (calls i).batches[k]? = some batch)
    (effect : Effect s.engine (.ingestBatch (calls i).key batch) e') {ep' : EpochInProgress ι}
    (hep' : e'.inProgress (calls i).key = some ep') :
    Stands calls ⟨e', Function.update s.cursor i (s.cursor i + 1)⟩ (calls i).key ep' := by
  cases effect with
  | ignored free => cases free.symm.trans hep'
  | @ingested _ _ ep _ _ hep _ hdone _ hfilled =>
    obtain rfl : _ = ep' := by simpa using hep'
    have stands := hs.stands _ ep hep
    refine ⟨by rw [hdone]; exact stands.key, ?_, fun hclean hends => ?_⟩
    · simp only [hdone, update_apply]
      split
      · exact Nat.le_add_left _ _
      · exact stands.started
    obtain ⟨clean, grows⟩ := hfilled hclean
    rw [hdone] at hends ⊢
    have grown := grows _ (stands.filled clean hends)
    by_cases own : ep.done = i
    · rw [own, hcursor, Nat.add_sub_cancel, ← batchRows_take_succ hbatch] at grown
      simpa [own, hcursor] using grown
    · -- the batch of another call is empty, or the owner never finishes
      have none_sent := apart ep.done i own stands.key hends
      rw [Call.rows, batchRows, flatMap_eq_nil_iff] at none_sent
      rw [none_sent batch (mem_of_getElem? hbatch), append_nil] at grown
      simpa only [update_of_ne own] using grown

theorem finish_closes {e : EngineState ι} {key : String}
    (effect : Effect e (.finishEpoch key) e') : e'.inProgress key = none := by
  cases effect with
  | idle free => exact free
  | failed | finished => exact update_self _ _ _

theorem stands_sent (apart : Apart calls) (hs : Sound calls s)
    (hcom : ((calls i).commands i)[s.cursor i]? = some com) (effect : Effect s.engine com e')
    (κ : String) (ep : EpochInProgress ι) (hep : e'.inProgress κ = some ep) :
    Stands calls ⟨e', Function.update s.cursor i (s.cursor i + 1)⟩ κ ep := by
  have acts := (effect.acts hs.owned).1
  rw [comKey_commands (calls i) i hcom] at acts
  by_cases hκ : κ = (calls i).key
  · subst hκ
    rcases commands_cases (calls i) i hcom with
      ⟨hzero, schema, rfl⟩ | ⟨k, batch, hk, hbatch, rfl⟩ | ⟨-, -, -, rfl⟩
    · exact stands_start hs hzero effect hep
    · exact stands_ingest apart hs hk hbatch effect hep
    · cases (finish_closes effect).symm.trans hep
  · have before : s.engine.inProgress κ = some ep := (acts.inProgress κ hκ).symm.trans hep
    have stands := hs.stands κ ep before
    have other : ep.done ≠ i := fun h => hκ (by rw [← stands.key, h])
    exact stands.frame (update_of_ne other _ _)
      (acts.tables κ hκ _ (tableOf_inProgress before))

variable {j : ι}

variable (apart : Apart calls) (hs : Sound calls s)
  (hcom : ((calls i).commands i)[s.cursor i]? = some com) (effect : Effect s.engine com e')
include apart hs hcom effect

/-- A successful answer is new only where the call itself finished, with all of its rows in
the table. -/
theorem sent_answers (hreply : e'.replies j = some (.ok metadata)) (hends : (calls j).ends) :
    s.engine.replies j = some (.ok metadata) ∨
    (j = i ∧ s.cursor i + 1 = ((calls i).commands i).length ∧ (calls i).rows ≠ [] ∧
      HoldsRows ⟨e', Function.update s.cursor i (s.cursor i + 1)⟩ (calls i)) := by
  have answered : ∀ {k : ι} {result : Except StorageError TableMetadata},
      update s.engine.replies k (some result) j = some (.ok metadata) →
      s.engine.replies j = some (.ok metadata) ∨ j = k ∧ result = .ok metadata := by
    intro k result h
    by_cases hj : j = k
    · subst hj
      exact .inr ⟨rfl, by simpa using h⟩
    · exact .inl ((update_of_ne hj _ _).symm.trans h)
  rcases commands_cases (calls i) i hcom with
    ⟨-, schema, rfl⟩ | ⟨k, batch, -, -, rfl⟩ | ⟨hfinish, hcursor, hlength, rfl⟩ <;> cases effect
  case refused | failed => exact .inl ((answered hreply).resolve_right nofun)
  case opened | ignored | ingested | idle => exact .inl hreply
  case finished ep _ _ m hclean hcommit hep =>
    refine (answered hreply).imp_right ?_
    rintro ⟨rfl, -⟩
    obtain ⟨own, hrows, htable⟩ := finish_own apart hs hfinish hcursor hep hclean hends hcommit
    exact ⟨own, hlength.symm, hrows, ep.epochView, m, update_self _ _ _, htable⟩

theorem sent_sound : Sound calls ⟨e', Function.update s.cursor i (s.cursor i + 1)⟩ := by
  refine ⟨(effect.acts hs.owned).2, stands_sent apart hs hcom effect,
    fun j metadata hreply hends => ?_⟩
  rcases sent_answers apart hs hcom effect hreply hends with hbefore | ⟨rfl, hlast, -⟩
  · have complete := hs.answered j metadata hbefore hends
    have other : j ≠ i := by
      rintro rfl
      simp [complete] at hcom
    exact (update_of_ne other _ _).trans complete
  · exact (update_self _ _ _).trans hlast

omit apart hs hcom effect

theorem step_sound (apart : Apart calls) (s : System ι) (m : Move ι) (hs : Sound calls s) :
    Sound calls (step threshold calls s m) := by
  fun_cases step threshold calls s m
  case case1 => exact hs
  case case2 hcom => exact sent_sound apart hs hcom (engineStep_effect ..)
  case case3 => exact drop_sound hs _ _

variable {m : Move ι}

theorem holdsRows_step (hs : Sound calls s) (h : HoldsRows s c) (hm : ¬ m.Drops c.key) :
    HoldsRows (step threshold calls s m) c := by
  obtain ⟨view, metadata, hcommitted, htable⟩ := h
  revert hm
  fun_cases step threshold calls s m <;> intro hm
  case case1 => exact ⟨view, metadata, hcommitted, htable⟩
  case case2 i duck com _ =>
    obtain ⟨kept, same⟩ :=
      (engineStep_effect threshold duck s.engine com).committed hs.owned hcommitted
    exact ⟨view, metadata, kept, same.trans htable⟩
  case case3 datasetId epochId duck =>
    have acts := (drop_acts duck hs.owned datasetId epochId).1
    have other : c.key ≠ epochKey datasetId epochId := fun h => hm h.symm
    exact ⟨view, metadata, (acts.committed _ other).trans hcommitted,
      (acts.tables _ other _ (tableOf_committed hs.owned hcommitted).2).trans htable⟩

variable {moves : List (Move ι)}

theorem holdsRows_run (apart : Apart calls) (hs : Sound calls s) (h : HoldsRows s c)
    (hmoves : ∀ m ∈ moves, ¬ m.Drops c.key) : HoldsRows (run (step threshold calls) s moves) c := by
  have kept : ∀ s (m : Move ι), Sound calls s ∧ HoldsRows s c → ¬ m.Drops c.key →
      Sound calls (step threshold calls s m) ∧ HoldsRows (step threshold calls s m) c :=
    fun s m hs hm => ⟨step_sound threshold apart s m hs.1, holdsRows_step threshold hs.1 hs.2 hm⟩
  exact (run_kept kept ⟨hs, h⟩ (along_of_forall (fun m hm _ => hmoves m hm) s)).2

theorem succeeded_step (apart : Apart calls) (hs : Sound calls s)
    (h : Succeeded calls (step threshold calls s m) j) :
    Succeeded calls s j ∨
      ((calls j).rows ≠ [] ∧ HoldsRows (step threshold calls s m) (calls j)) := by
  obtain ⟨-, metadata, hreturned⟩ := h
  obtain ⟨hends, hreply⟩ := returned_ok hreturned
  have succeeded : s.engine.replies j = some (.ok metadata) → Succeeded calls s j := fun h =>
    ⟨hs.answered j metadata h hends, metadata, (returned_of_ends hends _).trans h⟩
  revert hreply
  fun_cases step threshold calls s m <;> intro hreply
  case case1 => exact .inl (succeeded hreply)
  case case2 hcom =>
    rcases sent_answers apart hs hcom (engineStep_effect ..) hreply hends with
      hbefore | ⟨rfl, -, hholds⟩
    · exact .inl (succeeded hbefore)
    · exact .inr hholds
  case case3 datasetId epochId duck =>
    have same : (onDropEpoch duck s.engine datasetId epochId).2.replies = s.engine.replies := by
      rcases drop_cases duck s.engine datasetId epochId with heq | ⟨-, _, _, _, -, -, heq⟩ <;>
        rw [heq]
    exact .inl (succeeded (same ▸ hreply))

theorem succeeded_run (apart : Apart calls) (hmoves : ∀ m ∈ moves, ¬ m.Drops κ) (hs : Sound calls s)
    (hj : (calls j).key = κ) (h : Succeeded calls (run (step threshold calls) s moves) j) :
    Succeeded calls s j ∨
      ((calls j).rows ≠ [] ∧ HoldsRows (run (step threshold calls) s moves) (calls j)) := by
  induction moves generalizing s with
  | nil => exact .inl h
  | cons m moves ih =>
    have rest : ∀ m ∈ moves, ¬ m.Drops κ := fun m hm => hmoves m (mem_cons_of_mem _ hm)
    have sound := step_sound threshold apart s m hs
    rw [run_cons] at h ⊢
    rcases ih rest sound h with hnow | hlater
    · rcases succeeded_step threshold apart hs hnow with hbefore | ⟨hrows, hholds⟩
      · exact .inl hbefore
      · exact .inr ⟨hrows, holdsRows_run threshold apart sound hholds (hj ▸ rest)⟩
    · exact .inr hlater

theorem run_sends (duck : Duck) (i : ι) (n : Nat) (s : System ι)
    (h : s.cursor i + n ≤ ((calls i).commands i).length) :
    run (step threshold calls) s (List.replicate n (.send i duck)) =
      ⟨((((calls i).commands i).drop (s.cursor i)).take n).foldl (engineStep threshold duck)
        s.engine, Function.update s.cursor i (s.cursor i + n)⟩ := by
  induction n generalizing s with
  | zero => simp
  | succ n ih =>
    have here : s.cursor i < ((calls i).commands i).length := by omega
    have sends : step threshold calls s (.send i duck) =
        sent threshold duck s i (((calls i).commands i)[s.cursor i]) := by
      simp only [step, getElem?_eq_getElem here]
    have cursor : (sent threshold duck s i (((calls i).commands i)[s.cursor i])).cursor i =
        s.cursor i + 1 := sent_cursor_self threshold
    rw [replicate_succ, run_cons, sends, ih _ (by rw [cursor]; omega), cursor,
      drop_eq_getElem_cons here, take_succ_cons, foldl_cons]
    simp only [sent, update_idem]
    congr 2
    omega

theorem run_start (duck : Duck) (hcursor : s.cursor i = 0)
    (hbatches : (calls i).batches ≠ []) :
    run (step threshold calls) s (List.replicate ((calls i).batches.length + 1) (.send i duck)) =
      ⟨((calls i).batches.map (.ingestBatch (calls i).key)).foldl (engineStep threshold duck)
        (onStartEpoch duck s.engine (calls i).datasetId (calls i).epochView i),
        Function.update s.cursor i ((calls i).batches.length + 1)⟩ := by
  obtain ⟨schema, hcommands⟩ := commands_eq (calls i) i hbatches
  rw [run_sends threshold duck i _ s (by simp [hcursor, hcommands]), hcursor, hcommands]
  simp [engineStep]

variable (calls) in
/-- While one call is between its batches and its finish, another one adds its rows. -/
theorem overlap_commits_both (hij : i ≠ j) (hkey : (calls i).key = (calls j).key)
    (hends : (calls i).ends) (hrows : (calls j).rows ≠ []) :
    ∃ moves : List (Move ι), (∀ m ∈ moves, ∀ κ, ¬ m.Drops κ) ∧
      Succeeded calls (run (step threshold calls) (initial ι) moves) i ∧
      ∃ view metadata, (run (step threshold calls) (initial ι) moves).engine.committed
          (calls i).key = some (view, metadata) ∧
        (run (step threshold calls) (initial ι) moves).engine.tables view.tableName =
          some ((calls i).rows ++ (calls j).rows) := by
  have batches := batches_of_ends hends
  have others : (calls j).batches ≠ [] := by
    intro h
    exact hrows (by simp [Call.rows, h, batchRows])
  obtain ⟨schema, hcommands⟩ := commands_eq (calls i) i batches
  let first := run (step threshold calls) (initial ι)
    (replicate ((calls i).batches.length + 1) (.send i {}))
  let second := run (step threshold calls) first
    (replicate ((calls j).batches.length + 1) (.send j {}))
  have hfirst : first = _ := run_start threshold {} (s := initial ι) rfl batches
  have hj : first.cursor j = 0 := by
    rw [hfirst]
    exact update_of_ne (fun h => hij h.symm) _ _
  have hsecond : second = _ := run_start threshold {} hj others
  have opened : Open first.engine (calls i).key (calls i).epochView i ([] ++ (calls i).rows) := by
    rw [hfirst]
    exact open_ingests threshold {} rfl (open_start {} rfl i rfl rfl rfl rfl) _
  have both : Open second.engine (calls i).key (calls i).epochView i
      ([] ++ (calls i).rows ++ (calls j).rows) := by
    rw [hkey] at opened
    rw [hsecond, hkey]
    exact open_ingests threshold {} rfl (open_refused rfl opened) _
  have cursor : second.cursor i = (calls i).batches.length + 1 := by
    rw [hsecond]
    simp only [update_of_ne hij, hfirst, update_self]
  have last : step threshold calls second (.send i {}) =
      sent threshold {} second i (.finishEpoch (calls i).key) := by
    simp [step, cursor, hcommands, hends]
  obtain ⟨metadata, hcommitted, htable, hreply⟩ :=
    open_finish {} rfl rfl both (by simp [hrows])
  refine ⟨replicate ((calls i).batches.length + 1) (.send i {}) ++
    replicate ((calls j).batches.length + 1) (.send j {}) ++ [.send i {}], ?_, ?_⟩
  · intro m hm κ hdrop
    simp only [mem_append, mem_replicate, mem_singleton] at hm
    rcases hm with (⟨-, rfl⟩ | ⟨-, rfl⟩) | rfl <;> exact hdrop
  · have final : run (step threshold calls) (initial ι)
        (replicate ((calls i).batches.length + 1) (.send i {}) ++
          replicate ((calls j).batches.length + 1) (.send j {}) ++ [.send i {}]) =
        sent threshold {} second i (.finishEpoch (calls i).key) := by
      rw [run_append, run_append]
      exact last
    rw [final]
    refine ⟨⟨?_, metadata, (returned_of_ends hends _).trans hreply⟩,
      (calls i).epochView, metadata, hcommitted, htable⟩
    rw [sent_cursor_self, cursor, hcommands]
    simp [hends]

variable (calls) in
theorem epochs_unmixed_iff :
    Unmixed threshold calls ↔
      ∀ i j, i ≠ j → (calls i).key = (calls j).key → (calls i).ends → (calls j).rows = [] := by
  constructor
  · intro unmixed i j hij hkey hends
    by_contra hrows
    obtain ⟨moves, hmoves, succeeded, view, metadata, hcommitted, htable⟩ :=
      overlap_commits_both threshold calls hij hkey hends hrows
    have fresh : ¬ Succeeded calls (initial ι) i := by
      intro h
      obtain ⟨-, _, hreturned⟩ := h
      obtain ⟨-, hreply⟩ := returned_ok hreturned
      cases hreply
    obtain ⟨view', metadata', hcommitted', htable'⟩ :=
      (unmixed (calls i).key [] moves (fun m hm => hmoves m hm _)).1 i rfl succeeded fresh
    have same : view = view' := by
      have := hcommitted.symm.trans hcommitted'
      simp at this
      exact this.1
    rw [same] at htable
    have twice := htable.symm.trans htable'
    simp [hrows] at twice
  · intro apart κ before during hduring s s'
    have sound : Sound calls s :=
      run_invariant (step_sound threshold apart) (sound_initial calls) before
    have newly : ∀ i, (calls i).key = κ → Succeeded calls s' i → ¬ Succeeded calls s i →
        (calls i).rows ≠ [] ∧ HoldsRows s' (calls i) := fun i hi hafter hbefore =>
      (succeeded_run threshold apart hduring sound hi hafter).resolve_left hbefore
    refine ⟨fun i hi hafter hbefore => (newly i hi hafter hbefore).2, ?_⟩
    intro i j hi hj hafter hafter' hbefore hbefore'
    by_contra hij
    obtain ⟨-, _, hreturned⟩ := hafter
    have empty := apart i j hij (hi.trans hj.symm) (returned_ok hreturned).1
    exact (newly j hj hafter' hbefore').1 empty

end Systems

def oneRow (n : Int) : RecordBatch where
  schema := [⟨"id", .int64⟩]
  rows := [[some (.int (n % 100))]]
  fits row hrow := by
    simp only [List.mem_singleton] at hrow
    subst hrow
    refine .cons ?_ .nil
    simp [DataType.fits, signedRange]
    omega

def rowCalls (epoch : Bool → String) (b : Bool) : Call :=
  ⟨"sales", ⟨epoch b, "sales_" ++ epoch b⟩, [.ok (oneRow (if b then 1 else 2))]⟩

theorem epochs_unmixed_apart : Unmixed 1 (rowCalls fun b => if b then "2024" else "2025") :=
  (epochs_unmixed_iff 1 _).mpr fun i j hij hkey _ => by
    cases i <;> cases j <;> first | exact absurd rfl hij | exact absurd hkey (by decide)

/-- Both calls load the epoch 2024. The first one succeeds, and its table holds the row of the
second one too. -/
theorem overlap_mixes_rows :
    (rowCalls (fun _ => "2024") true).rows = [[some (.int 1)]] ∧
    ∃ moves : List (Move Bool),
      Succeeded (rowCalls fun _ => "2024")
        (run (step 1 (rowCalls fun _ => "2024")) (initial Bool) moves) true ∧
      ∃ view metadata,
        (run (step 1 (rowCalls fun _ => "2024")) (initial Bool) moves).engine.committed
          (rowCalls (fun _ => "2024") true).key = some (view, metadata) ∧
        (run (step 1 (rowCalls fun _ => "2024")) (initial Bool) moves).engine.tables
          view.tableName = some [[some (.int 1)], [some (.int 2)]] := by
  refine ⟨rfl, ?_⟩
  obtain ⟨moves, -, succeeded, view, metadata, hcommitted, htable⟩ :=
    overlap_commits_both 1 (rowCalls fun _ => "2024") (i := true) (j := false)
      (by decide) rfl rfl (by decide)
  exact ⟨moves, succeeded, view, metadata, hcommitted, htable⟩

end Leibrix.EpochCalls
