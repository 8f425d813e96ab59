import Leibrix.EpochCalls
import Leibrix.SourceClients

/-!
# Loading an epoch from a source

A load reads the stream of a client into one epoch. Neither client ever sends an error
item, so a query that fails midway looks like one that is over, and its first batches are
committed.
-/

set_option autoImplicit false

namespace Leibrix.SourceLoad
open ArrowBatch EpochEngine EpochEffects EpochCalls SourceClients List

section Load

variable {ι : Type} [DecidableEq ι] (threshold : Nat)

def feed (ducks : Nat → Duck) (s : EngineState ι) : List (EngineCom ι) → EngineState ι
  | [] => s
  | com::coms => feed (fun n => ducks (n + 1)) (engineStep threshold (ducks 0) s com) coms

def createEpochTable (ducks : Nat → Duck) (s : EngineState ι) (c : Call) (done : ι) :
    Option (Except StorageError TableMetadata) × EngineState ι :=
  let s := feed threshold ducks s (c.commands done)
  (c.returned (s.replies done), s)

structure LoadRequest where
  datasetId : String
  epochView : EpochView
  source : Source
  schema : Schema

def LoadRequest.key (request : LoadRequest) : String :=
  epochKey request.datasetId request.epochView.epochId

variable (arrow : Arrow) (parseDecimal : String → Int → Except String I128)

def loadEpoch (ducks : Nat → Duck) (s : EngineState ι) (request : LoadRequest) (done : ι) :
    Option (Except StorageError TableMetadata) × EngineState ι :=
  match streamData arrow parseDecimal request.schema request.source with
  | .error e => (some (.error e), s)
  | .ok stream =>
    createEpochTable threshold ducks s ⟨request.datasetId, request.epochView, stream⟩ done

end Load

variable {schema : Schema} {source : Source} {stream : RecordBatchStream}

section Streams

variable (arrow : Arrow) (parseDecimal : String → Int → Except String I128) (catalog : String)

theorem runRows_sent (batchSize : Nat) (builders : List (FitRow schema))
    (fetched : List (Except String MySqlRow)) :
    ∃ batches : List RecordBatch,
      (runRows arrow parseDecimal catalog schema batchSize builders fetched).1 =
        batches.map .ok := by
  fun_induction runRows arrow parseDecimal catalog schema batchSize builders fetched with
  | case1 builders hfull batch hbatch => exact ⟨[batch], rfl⟩
  | case7 builders row rest converted hrow hfull batch hbatch sent ended heq ih =>
    obtain ⟨batches, hsent⟩ := ih
    rw [heq] at hsent
    exact ⟨batch :: batches, by simpa using hsent⟩
  | case8 builders row rest converted hrow hfull ih => exact ih
  | _ => exact ⟨[], rfl⟩

theorem runBatches_sent (items : List (Except String RecordBatch)) :
    ∃ batches : List RecordBatch, (runBatches catalog items).1 = batches.map .ok := by
  fun_induction runBatches catalog items with
  | case1 | case2 => exact ⟨[], rfl⟩
  | case3 batch rest sent ended heq ih =>
    obtain ⟨batches, hsent⟩ := ih
    rw [heq] at hsent
    exact ⟨batch :: batches, by simpa using hsent⟩

theorem runEndpoints_sent (endpoints : List Endpoint) :
    ∃ batches : List RecordBatch, (runEndpoints catalog endpoints).1 = batches.map .ok := by
  fun_induction runEndpoints catalog endpoints with
  | case1 | case2 => exact ⟨[], rfl⟩
  | case3 endpoint rest hticket batches hget sent heq more ended hmore ih =>
    obtain ⟨first, hfirst⟩ := runBatches_sent catalog batches
    obtain ⟨later, hlater⟩ := ih
    rw [heq] at hfirst
    rw [hmore] at hlater
    exact ⟨first ++ later, by simp_all⟩
  | case4 endpoint rest hticket batches hget sent ended hended heq =>
    obtain ⟨first, hfirst⟩ := runBatches_sent catalog batches
    rw [heq] at hfirst
    exact ⟨first, hfirst⟩
  | case5 endpoint rest hticket ih => exact ih

theorem runQueryAsync_sent (schema : Schema) (s : JdbcSource) :
    ∃ batches : List RecordBatch,
      (runQueryAsync arrow parseDecimal schema s).1 = batches.map .ok := by
  unfold runQueryAsync
  split
  · exact ⟨[], rfl⟩
  · exact runRows_sent arrow parseDecimal "starrocks" s.batchSz [] s.fetched

theorem runQueryBlocking_sent (s : AdbcSource) :
    ∃ batches : List RecordBatch, (runQueryBlocking s).1 = batches.map .ok := by
  unfold runQueryBlocking
  split
  · exact ⟨[], rfl⟩
  split
  · exact ⟨[], rfl⟩
  split
  · exact ⟨[], rfl⟩
  · exact runEndpoints_sent s.catalogName _

theorem receiverStream_ok (backend : String) (batches : List RecordBatch) :
    receiverStream backend (batches.map .ok) = batches.map .ok := by
  simp [receiverStream, Except.mapError]

theorem streamData_sent (h : streamData arrow parseDecimal schema source = .ok stream) :
    ∃ batches : List RecordBatch, stream = batches.map .ok := by
  cases source with
  | iceberg uri => cases h
  | starRocks s =>
    obtain ⟨batches, hsent⟩ := runQueryBlocking_sent s
    simp only [streamData, adbcQuery] at h
    split at h
    · cases h
    · cases h
      exact ⟨batches, by rw [hsent, receiverStream_ok]⟩
  | jdbc s =>
    obtain ⟨batches, hsent⟩ := runQueryAsync_sent arrow parseDecimal schema s
    simp only [streamData, jdbcQuery] at h
    split at h
    · cases h
    split at h
    · cases h
    · cases h
      exact ⟨batches, by rw [hsent, receiverStream_ok]⟩

end Streams

section Produces

variable (arrow : Arrow) (parseDecimal : String → Int → Except String I128)

def Batched {schema : Schema} (batchSize : Nat) (rows : List (FitRow schema)) : Prop :=
  ∀ n, n * batchSize < rows.length →
    arrow.tryNew schema (((rows.drop (n * batchSize)).take batchSize).map (·.1)) = none

/-- The source can be read to its end and has these rows. -/
inductive Produces (schema : Schema) : Source → List Row → Prop
  | jdbc (s : JdbcSource) (rows : List (FitRow schema))
      (builders : createBatchBuilders arrow schema = .ok ())
      (fetches : List.Forall₂ (fun fetch row => ∃ r, fetch = .ok r ∧
        convertRow arrow parseDecimal "starrocks" schema r = .ok row) s.fetched rows)
      (batched : Batched arrow s.batchSz rows) :
      Produces schema (.jdbc s) (rows.map (·.1))
  | starRocks (s : AdbcSource) (endpoints : List Endpoint) (batches : List (List RecordBatch))
      (uri : s.validUri = .ok ()) (connected : s.connect = .ok ())
      (executed : s.execute = .ok endpoints)
      (fetches : List.Forall₂ (fun endpoint items => endpoint.doGet = .ok (items.map .ok))
        (endpoints.filter (·.ticket)) batches) :
      Produces schema (.starRocks s) (batchRows batches.flatten)

variable {arrow parseDecimal}

theorem Batched.first {schema : Schema} {batchSize : Nat} {rows more : List (FitRow schema)}
    (h : Batched arrow batchSize (rows ++ more)) (hrows : rows ≠ [])
    (hlength : rows.length = batchSize ∨ (more = [] ∧ rows.length ≤ batchSize)) :
    arrow.tryNew schema (rows.map (·.1)) = none := by
  have some_row := length_pos_iff.mpr hrows
  have first := h 0 (by rw [Nat.zero_mul, length_append]; omega)
  rcases hlength with hfull | ⟨hlast, hshort⟩
  · rwa [Nat.zero_mul, drop_zero, take_left' hfull] at first
  · rwa [Nat.zero_mul, drop_zero, hlast, append_nil,
      take_of_length_le hshort] at first

variable {batchSize : Nat}

theorem Batched.rest {rows more : List (FitRow schema)} (h : Batched arrow batchSize (rows ++ more))
    (hlength : rows.length = batchSize) : Batched arrow batchSize more := by
  intro n hn
  have later := h (n + 1) (by rw [length_append, Nat.add_mul]; omega)
  rwa [Nat.add_mul, Nat.one_mul, Nat.add_comm, ← drop_drop, drop_left' hlength] at later

variable (catalog : String)

theorem finalizeBatch_ok {rows : List (FitRow schema)}
    (h : arrow.tryNew schema (rows.map (·.1)) = none) :
    ∃ batch, finalizeBatch arrow catalog schema rows = .ok batch ∧
      batch.rows = rows.map (·.1) := by
  unfold finalizeBatch
  split
  · rename_i e herror
    rw [h] at herror
    cases herror
  · exact ⟨_, rfl, rfl⟩

/-- The loop sends what the builder holds and what is still to be fetched. -/
theorem runRows_produces {catalog : String} (hsize : 0 < batchSize)
    (builders : List (FitRow schema)) {rows : List (FitRow schema)}
    {fetched : List (Except String MySqlRow)}
    (hfetch : List.Forall₂ (fun fetch row => ∃ r, fetch = .ok r ∧
      convertRow arrow parseDecimal catalog schema r = .ok row) fetched rows)
    (hbuilders : builders.length < batchSize)
    (hbatched : Batched arrow batchSize (builders ++ rows)) :
    ∃ batches : List RecordBatch,
      (runRows arrow parseDecimal catalog schema batchSize builders fetched).1 = batches.map .ok ∧
        batchRows batches = (builders ++ rows).map (·.1) := by
  induction hfetch generalizing builders with
  | nil =>
    by_cases hempty : builders = []
    · subst hempty
      exact ⟨[], by simp [runRows], rfl⟩
    · obtain ⟨batch, hbatch, hrows⟩ := finalizeBatch_ok catalog
        (hbatched.first hempty (.inr ⟨rfl, Nat.le_of_lt hbuilders⟩))
      have full : 0 < builders.length := length_pos_iff.mpr hempty
      exact ⟨[batch], by simp [runRows, full, hbatch], by simp [batchRows, hrows]⟩
  | @cons fetch row rest rows hrow _ ih =>
    obtain ⟨r, rfl, hconvert⟩ := hrow
    have split : builders ++ row :: rows = (builders ++ [row]) ++ rows := by simp
    rw [split] at hbatched
    by_cases hfull : batchSize ≤ (builders ++ [row]).length
    · have exact_size : (builders ++ [row]).length = batchSize := by
        simp only [length_append, length_singleton] at hfull ⊢
        omega
      obtain ⟨batch, hbatch, hrows⟩ := finalizeBatch_ok catalog
        (hbatched.first (by simp) (.inl exact_size))
      obtain ⟨batches, hsent, hrest⟩ :=
        ih [] hsize (hbatched.rest exact_size)
      refine ⟨batch :: batches, ?_, ?_⟩
      · simp only [runRows, hconvert, hfull, if_true, hbatch]
        simpa using hsent
      · have whole : batchRows (batch :: batches) = batch.rows ++ batchRows batches := rfl
        rw [whole, hrows, hrest, split]
        simp
    · obtain ⟨batches, hsent, hrest⟩ := ih (builders ++ [row]) (by omega) hbatched
      exact ⟨batches, by simpa only [runRows, hconvert, hfull, if_false] using hsent,
        by rw [split]; exact hrest⟩

theorem runBatches_done (batches : List RecordBatch) :
    runBatches catalog (batches.map .ok) = (batches.map .ok, .done) := by
  induction batches with
  | nil => rfl
  | cons batch batches ih => simp [runBatches, ih]

theorem runEndpoints_produces {endpoints : List Endpoint} {batches : List (List RecordBatch)}
    (h : List.Forall₂ (fun endpoint items => endpoint.doGet = .ok (items.map .ok))
      (endpoints.filter (·.ticket)) batches) :
    (runEndpoints catalog endpoints).1 = batches.flatten.map .ok := by
  induction endpoints generalizing batches with
  | nil =>
    cases h
    rfl
  | cons endpoint rest ih =>
    by_cases hticket : endpoint.ticket
    · rw [filter_cons_of_pos hticket] at h
      cases h with
      | @cons _ items _ later hget hrest =>
        simp only [runEndpoints, hticket, if_true, hget, runBatches_done]
        simp [ih hrest]
    · rw [filter_cons_of_neg hticket] at h
      simpa [runEndpoints, hticket] using ih h

theorem streamData_produces {rows : List Row} (h : Produces arrow parseDecimal schema source rows)
    (hstream : streamData arrow parseDecimal schema source = .ok stream) :
    ∃ batches : List RecordBatch, stream = batches.map .ok ∧ batchRows batches = rows := by
  cases h with
  | jdbc s rows builders fetches batched =>
    have size : 0 < s.batchSz := Nat.lt_of_lt_of_le Nat.one_pos (Nat.le_max_left _ _)
    obtain ⟨batches, hsent, hrows⟩ :=
      runRows_produces size [] fetches size batched
    simp only [streamData, jdbcQuery, runQueryAsync, builders] at hstream
    split at hstream
    · cases hstream
    split at hstream
    · cases hstream
    · cases hstream
      exact ⟨batches, by rw [hsent, receiverStream_ok], hrows⟩
  | starRocks s endpoints batches uri connected executed fetches =>
    have hsent := runEndpoints_produces s.catalogName fetches
    simp only [streamData, adbcQuery, runQueryBlocking, uri, connected, executed] at hstream
    split at hstream
    · cases hstream
    · cases hstream
      exact ⟨batches.flatten, by rw [hsent, receiverStream_ok], rfl⟩

end Produces

section Commits

variable {ι : Type} [DecidableEq ι] (threshold : Nat)

def Partly (s : EngineState ι) (key : String) (rows : List Row) : Prop :=
  s.committed key = none ∧
    ∀ ep, s.inProgress key = some ep → ep.firstError = none → Filled s.tables ep rows

variable {s s' : EngineState ι}

theorem partly_start {c : Call} {done : ι}
    (effect : Effect s (.startEpoch c.datasetId c.epochView schema done) s')
    (hfree : s.inProgress c.key = none) (hcommitted : s.committed c.key = none) :
    Partly s' c.key [] := by
  refine ⟨by cases effect <;> exact hcommitted, fun ep hep _ => ?_⟩
  cases effect with
  | refused => cases hfree.symm.trans hep
  | opened =>
    obtain rfl : (⟨c.epochView, [], 0, 0, none, done⟩ : EpochInProgress ι) = ep := by
      simpa [Call.key] using hep
    exact ⟨[], by simp [batchRows]⟩

theorem partly_ingests {key : String} {rows : List Row} (h : Partly s key rows) (ducks : Nat → Duck)
    (batches : List RecordBatch) (rest : List (EngineCom ι)) :
    ∃ ducks' s', Partly s' key (rows ++ batchRows batches) ∧
      feed threshold ducks s (batches.map (.ingestBatch key) ++ rest) =
        feed threshold ducks' s' rest := by
  induction batches generalizing s rows ducks with
  | nil => exact ⟨ducks, s, by simpa [batchRows] using h, rfl⟩
  | cons batch batches ih =>
    have next : ∀ s', Effect s (.ingestBatch key batch) s' →
        Partly s' key (rows ++ batch.rows) := by
      rintro s' (_ | _ | free | @⟨_, _, ep, _, _, hep, -, -, -, hfilled⟩)
      · exact ⟨h.1, fun ep hep => by cases free.symm.trans hep⟩
      · refine ⟨h.1, fun now hnow hclean => ?_⟩
        obtain rfl : _ = now := by simpa using hnow
        obtain ⟨clean, grows⟩ := hfilled hclean
        exact grows rows (h.2 ep hep clean)
    obtain ⟨ducks', s', partly, heq⟩ :=
      ih (next _ (engineStep_effect threshold (ducks 0) s _)) (fun n => ducks (n + 1))
    rw [append_assoc] at partly
    exact ⟨ducks', s', partly, heq⟩

variable {view : EpochView} {metadata : TableMetadata}

theorem partly_finish {key : String} {rows : List Row} (h : Partly s key rows)
    (effect : Effect s (.finishEpoch key) s')
    (hcommitted : s'.committed key = some (view, metadata)) :
    s'.tables view.tableName = some rows := by
  cases effect with
  | idle | failed => cases h.1.symm.trans hcommitted
  | @finished _ ep _ hep _ _ hclean hcommit =>
    simp only [Function.update_self, Option.some.injEq, Prod.mk.injEq] at hcommitted
    rw [← hcommitted.1]
    exact (hcommit rows (h.2 ep hep hclean)).2

theorem feed_committed (ducks : Nat → Duck) (c : Call) (done : ι)
    (hfree : s.inProgress c.key = none) (hcommitted : s.committed c.key = none)
    (h : (feed threshold ducks s (c.commands done)).committed c.key = some (view, metadata)) :
    (feed threshold ducks s (c.commands done)).tables view.tableName = some c.rows := by
  by_cases hbatches : c.batches = []
  · have silent : c.commands done = [] := by simp [Call.commands, hbatches]
    rw [silent, feed, hcommitted] at h
    cases h
  obtain ⟨schema, hcommands⟩ := commands_eq c done hbatches
  rw [hcommands, feed, engineStep] at h ⊢
  obtain ⟨ducks', s', partly, heq⟩ := partly_ingests threshold
    (partly_start (start_effect _ _ _ _ schema _) hfree hcommitted) (fun n => ducks (n + 1))
    c.batches (if c.ends then [.finishEpoch c.key] else [])
  rw [heq] at h ⊢
  split at h
  · rename_i hends
    rw [if_pos hends]
    exact partly_finish partly (finish_effect ..) h
  · rw [feed, partly.1] at h
    cases h

theorem feed_commits (c : Call) (done : ι) (hrunning : s.shutdown = false)
    (hfree : s.inProgress c.key = none) (hcommitted : s.committed c.key = none)
    (htable : s.tables c.epochView.tableName = none) (hends : c.ends) (hrows : c.rows ≠ []) :
    ∃ metadata,
      (createEpochTable threshold (fun _ => {}) s c done).1 = some (.ok metadata) ∧
      (createEpochTable threshold (fun _ => {}) s c done).2.committed c.key =
        some (c.epochView, metadata) ∧
      (createEpochTable threshold (fun _ => {}) s c done).2.tables c.epochView.tableName =
        some c.rows := by
  have same : ∀ (coms : List (EngineCom ι)) (s : EngineState ι),
      feed threshold (fun _ => {}) s coms = coms.foldl (engineStep threshold {}) s := by
    intro coms
    induction coms with
    | nil => exact fun _ => rfl
    | cons com coms ih => exact fun s => ih _
  obtain ⟨schema, hcommands⟩ := commands_eq c done (batches_of_ends hends)
  have opened := open_ingests threshold {} rfl
    (open_start {} rfl done hrunning hfree hcommitted htable) c.batches
  obtain ⟨metadata, hcommit, hholds, hreply⟩ := open_finish {} rfl rfl opened hrows
  refine ⟨metadata, ?_⟩
  simp only [createEpochTable, same, hcommands, hends, if_true, foldl_cons,
    foldl_append, foldl_nil, engineStep]
  exact ⟨(returned_of_ends hends _).trans hreply, hcommit, hholds⟩

end Commits

section Safe

variable (threshold : Nat) (arrow : Arrow) (parseDecimal : String → Int → Except String I128)

/-- A failing source is never committed: its stream ends with an error, the load returns one
and the key stays uncommitted. What is committed are all rows of the source. -/
def LoadSafe (request : LoadRequest) : Prop :=
  ∀ (ι : Type) [DecidableEq ι] (s : EngineState ι) (done : ι) (ducks : Nat → Duck),
    s.inProgress request.key = none → s.committed request.key = none →
    let (result, s') := loadEpoch threshold arrow parseDecimal ducks s request done
    (∀ stream, streamData arrow parseDecimal request.schema request.source = .ok stream →
      (∀ rows, ¬ Produces arrow parseDecimal request.schema request.source rows) →
      (∃ e, stream.getLast? = some (.error e)) ∧ (∃ e, result = some (.error e)) ∧
        s'.committed request.key = none) ∧
    ∀ view metadata, s'.committed request.key = some (view, metadata) →
      ∃ rows, Produces arrow parseDecimal request.schema request.source rows ∧
        s'.tables view.tableName = some rows

theorem load_safe_iff (request : LoadRequest) :
    LoadSafe threshold arrow parseDecimal request ↔
      ∀ stream, streamData arrow parseDecimal request.schema request.source = .ok stream →
        ∃ rows, Produces arrow parseDecimal request.schema request.source rows := by
  constructor
  · intro safe stream hstream
    by_contra hfails
    obtain ⟨⟨e, hlast⟩, -⟩ := (safe Unit (EngineState.fresh Unit) () (fun _ => {}) rfl rfl).1
      stream hstream (not_exists.mp hfails)
    obtain ⟨batches, rfl⟩ := streamData_sent arrow parseDecimal hstream
    rw [getLast?_map] at hlast
    cases hbatch : batches.getLast? <;> simp [hbatch] at hlast
  · intro reads ι _ s done ducks hfree hcommitted
    simp only [loadEpoch]
    cases hstream : streamData arrow parseDecimal request.schema request.source with
    | error e =>
      refine ⟨fun _ h => (nomatch h), fun view metadata h => ?_⟩
      rw [hcommitted] at h
      cases h
    | ok stream =>
      obtain ⟨rows, produces⟩ := reads stream hstream
      refine ⟨fun _ _ hfails => absurd produces (hfails rows), fun view metadata h => ?_⟩
      refine ⟨rows, produces, ?_⟩
      obtain ⟨batches, rfl, hrows⟩ := streamData_produces produces hstream
      have whole := feed_committed threshold ducks
        ⟨request.datasetId, request.epochView, batches.map .ok⟩ done hfree hcommitted h
      rwa [Call.rows, Call.batches, okBatches_ok, hrows] at whole

end Safe

def plainArrow : Arrow := ⟨fun _ => "", fun _ _ => true, fun _ _ => none⟩

def noDecimals : String → Int → Except String I128 := fun _ _ => .error "no decimals"

/-- A row whose columns all read as one in the type `i64`. -/
def oneFetched : MySqlRow where
  tryGet
    | .i64, _ => .ok (some (.int 1))
    | _, _ => .error "type mismatch"
  typed ty idx v h := by
    cases ty <;> cases h
    rfl

def jdbcRequest (fetched : List (Except String MySqlRow)) : LoadRequest where
  datasetId := "sales"
  epochView := ⟨"2024", "sales_2024"⟩
  source := .jdbc ⟨.ok (), false, some 1, fetched⟩
  schema := [⟨"id", .int64⟩]

theorem load_safe_one_row : LoadSafe 1 plainArrow noDecimals (jdbcRequest [.ok oneFetched]) :=
  (load_safe_iff 1 plainArrow noDecimals _).mpr fun _ _ =>
    ⟨_, .jdbc _ [⟨[some (.int 1)], .cons rfl .nil⟩] rfl (.cons ⟨oneFetched, rfl, rfl⟩ .nil)
      fun _ _ => rfl⟩

/-- One row is fetched and then the connection is lost. The load succeeds, and the epoch is
committed with that row. -/
theorem lost_connection_committed :
    (∀ rows, ¬ Produces plainArrow noDecimals [⟨"id", .int64⟩]
      (jdbcRequest [.ok oneFetched, .error "connection lost"]).source rows) ∧
    ∃ metadata, ∃ s : EngineState Unit,
      loadEpoch 1 plainArrow noDecimals (fun _ => {}) (EngineState.fresh Unit)
        (jdbcRequest [.ok oneFetched, .error "connection lost"]) () = (some (.ok metadata), s) ∧
      s.committed (epochKey "sales" "2024") = some (⟨"2024", "sales_2024"⟩, metadata) ∧
      s.tables "sales_2024" = some [[some (.int 1)]] := by
  constructor
  · intro rows h
    cases h with
    | jdbc _ _ _ fetches _ =>
      cases fetches with
      | cons _ rest =>
        cases rest with
        | cons lost _ =>
          obtain ⟨r, hr, -⟩ := lost
          cases hr
  · let c : Call := ⟨"sales", ⟨"2024", "sales_2024"⟩,
      [.ok ⟨[⟨"id", .int64⟩], [[some (.int 1)]], by simp [RowFits, DataType.fits, signedRange]⟩]⟩
    have load : loadEpoch 1 plainArrow noDecimals (fun _ => {}) (EngineState.fresh Unit)
        (jdbcRequest [.ok oneFetched, .error "connection lost"]) () =
        createEpochTable 1 (fun _ => {}) (EngineState.fresh Unit) c () := rfl
    obtain ⟨metadata, hresult, hcommitted, htable⟩ :=
      feed_commits 1 (s := EngineState.fresh Unit) c () rfl rfl rfl rfl rfl (by decide)
    refine ⟨metadata, _, ?_, hcommitted, htable⟩
    rw [load, ← hresult]

end Leibrix.SourceLoad
