import Leibrix.EpochCommands
import Leibrix.SourceLoad

/-!
# Loads that fail

The commands of a load come between commands of other keys. A load whose start is not accepted
leaves the engine as it was for the key. Once the start is accepted, nothing drops the table of
a load that fails, and a stream that ends with an error leaves the epoch open.
-/

set_option autoImplicit false

namespace Leibrix.FailedLoads
open ArrowBatch EpochEngine EpochEffects EpochCalls EpochCommands Runs SourceLoad

variable {ι : Type}

/-- The engine has no epoch of the call's key and no table of its name. -/
structure Traceless (c : Call) (s : EngineState ι) : Prop where
  closed : s.inProgress c.key = none
  uncommitted : s.committed c.key = none
  noTable : s.tables c.epochView.tableName = none

/-- The call's key is the one whose epoch has the call's table. -/
def Named (c : Call) (s : EngineState ι) : Prop :=
  ∀ κ t, tableOf s κ = some t → (κ = c.key ↔ t = c.epochView.tableName)

def created : Command ι → Option String
  | .engine (.startEpoch _ view _ _) => some view.tableName
  | _ => none

/-- The commands of the call's key are those of the call, and commands of other keys create other
tables. -/
structure Schedule (c : Call) (done : ι) (moves : List (Duck × Command ι)) : Prop where
  own : (moves.map (·.2)).filter (·.key == c.key) = (c.commands done).map .engine
  others : ∀ m ∈ moves, m.2.key ≠ c.key → created m.2 ≠ some c.epochView.tableName

/-- The database refuses to create the table of the call. -/
def Refuses (c : Call) (moves : List (Duck × Command ι)) : Prop :=
  ∀ m ∈ moves, created m.2 = some c.epochView.tableName → m.1.creates = false

variable {s : EngineState ι} {c : Call} {done : ι}

theorem Named.traceless_iff (hs : Owned s) (named : Named c s) :
    Traceless c s ↔ s.tables c.epochView.tableName = none := by
  refine ⟨fun h => h.noTable, fun absent => ?_⟩
  have unheld : tableOf s c.key = none := by
    cases held : tableOf s c.key with
    | none => rfl
    | some t =>
      have stored := hs.stored c.key t held
      rw [(named c.key t held).mp rfl, absent] at stored
      cases stored
  rw [tableOf] at unheld
  cases open_ : s.inProgress c.key with
  | some ep =>
    rw [open_] at unheld
    cases unheld
  | none =>
    rw [open_] at unheld
    exact ⟨open_, by simpa using unheld, absent⟩

/-- A command of the call, or one of another key and table. -/
def Scheduled (c : Call) (done : ι) (m : Duck × Command ι) : Prop :=
  (∃ com ∈ c.commands done, m.2 = .engine com) ∨
    (m.2.key ≠ c.key ∧ created m.2 ≠ some c.epochView.tableName)

variable {moves : List (Duck × Command ι)} {t : String}

theorem Schedule.scheduled (h : Schedule c done moves) {m : Duck × Command ι} (hm : m ∈ moves) :
    Scheduled c done m := by
  by_cases key : m.2.key = c.key
  · have own : m.2 ∈ (moves.map (·.2)).filter (·.key == c.key) :=
      List.mem_filter.mpr ⟨List.mem_map_of_mem hm, beq_iff_eq.mpr key⟩
    rw [h.own] at own
    obtain ⟨com, hcom, heq⟩ := List.mem_map.mp own
    exact .inl ⟨com, hcom, heq.symm⟩
  · exact .inr ⟨key, h.others m hm key⟩

theorem Scheduled.created {m : Duck × Command ι} (hm : Scheduled c done m)
    (h : created m.2 = some t) : m.2.key = c.key ↔ t = c.epochView.tableName := by
  rcases hm with ⟨com, hcom, heq⟩ | ⟨otherKey, otherTable⟩
  · obtain ⟨n, hn⟩ := List.mem_iff_getElem?.mp hcom
    rw [heq] at h ⊢
    rcases commands_cases c done hn with ⟨-, schema, rfl⟩ | ⟨_, _, -, -, rfl⟩ | ⟨-, -, -, rfl⟩
    · cases h
      exact iff_of_true rfl rfl
    · cases h
    · cases h
  · exact iff_of_false otherKey fun eq => otherTable (eq ▸ h)

theorem Schedule.refuses_of_empty (h : Schedule c done moves) (empty : c.batches = []) :
    Refuses c moves := by
  intro m hm start
  have own : m.2 ∈ (moves.map (·.2)).filter (·.key == c.key) :=
    List.mem_filter.mpr ⟨List.mem_map_of_mem hm,
      beq_iff_eq.mpr (((h.scheduled hm).created start).mpr rfl)⟩
  rw [h.own, Call.commands, empty] at own
  cases own

variable [DecidableEq ι] {threshold : Nat}

theorem command_shutdown (m : Duck × Command ι) :
    (command threshold s m).shutdown = s.shutdown := by
  obtain ⟨duck, com | ⟨datasetId, epochId⟩⟩ := m
  · have effect := engineStep_effect threshold duck s com
    simp only [command]
    generalize engineStep threshold duck s com = s' at effect
    cases effect <;> rfl
  · rcases drop_cases duck s datasetId epochId with heq | ⟨-, _, _, _, -, -, heq⟩ <;>
      simp only [command, heq]

variable {m : Duck × Command ι}

/-- A table that no epoch of the command's key has is changed by its creation only. -/
theorem command_otherTable (hs : Owned s) (unheld : tableOf s m.2.key ≠ some t)
    (hm : created m.2 ≠ some t) : (command threshold s m).tables t = s.tables t := by
  obtain ⟨duck, com | ⟨datasetId, epochId⟩⟩ := m
  · have effect := engineStep_effect threshold duck s com
    simp only [command]
    generalize engineStep threshold duck s com = s' at effect
    cases effect with
    | refused | ignored | idle => rfl
    | @opened _ view =>
      have ne : t ≠ view.tableName := fun eq => hm (eq ▸ rfl)
      exact Function.update_of_ne ne _ _
    | ingested hep _ _ only | failed hep only | finished hep only =>
      exact only.others t fun eq => unheld (eq ▸ tableOf_inProgress hep)
  · rcases drop_cases duck s datasetId epochId with
      heq | ⟨-, view, _, _, hcommitted, hothers, heq⟩
    · simp only [command, heq]
    · have ne : t ≠ view.tableName :=
        fun eq => unheld (eq ▸ (tableOf_committed hs hcommitted).2)
      simp only [command, heq, hothers t ne]

/-- A start by the call makes its table exactly if the database does. -/
theorem start_table (running : s.shutdown = false) (hs : Owned s) (named : Named c s) (duck : Duck)
    (schema : ArrowBatch.Schema) :
    ((engineStep threshold duck s (.startEpoch c.datasetId c.epochView schema done)).tables
        c.epochView.tableName).isSome ↔
      (s.tables c.epochView.tableName).isSome ∨ duck.creates = true := by
  cases absent : s.tables c.epochView.tableName with
  | none =>
    have traceless := (named.traceless_iff hs).mpr absent
    have free : s.inProgress (epochKey c.datasetId c.epochView.epochId) = none := traceless.closed
    have uncommitted : s.committed (epochKey c.datasetId c.epochView.epochId) = none :=
      traceless.uncommitted
    cases creates : duck.creates <;>
      simp [engineStep, onStartEpoch, running, free, uncommitted, absent, creates,
        EngineState.reply]
  | some rows =>
    simp only [Option.isSome_some, true_or, iff_true]
    have effect := engineStep_effect threshold duck s
      (.startEpoch c.datasetId c.epochView schema done)
    generalize engineStep threshold duck s _ = s' at effect
    cases effect with
    | refused e => simp [EngineState.reply, absent]
    | opened => simp

/-- A batch or a finish leaves the table of its epoch where it is. -/
theorem later_table {com : EngineCom ι} (hs : Owned s) (named : Named c s)
    (hcom : comKey com = c.key) (later : created (.engine com) = none) (duck : Duck) :
    ((engineStep threshold duck s com).tables c.epochView.tableName).isSome ↔
      (s.tables c.epochView.tableName).isSome := by
  have effect := engineStep_effect threshold duck s com
  generalize engineStep threshold duck s com = s' at effect
  cases effect with
  | refused | opened => cases later
  | ignored | idle => rfl
  | @ingested key _ ep _ _ hep _ _ only | @failed key ep _ hep only | @finished key ep _ hep only =>
    have held := tableOf_inProgress hep
    have table : ep.epochView.tableName = c.epochView.tableName := (named key _ held).mp hcom
    have stored := hs.stored key _ held
    rw [table] at only stored
    exact ⟨fun _ => stored, only.stays⟩

/-- A key comes to have a table only by a start. -/
theorem command_tableOf (hs : Owned s) (h : tableOf (command threshold s m) m.2.key = some t) :
    tableOf s m.2.key = some t ∨ created m.2 = some t := by
  obtain ⟨duck, com | ⟨datasetId, epochId⟩⟩ := m
  · have effect := engineStep_effect threshold duck s com
    simp only [command, Command.key] at h ⊢
    generalize engineStep threshold duck s com = s' at effect h
    cases effect with
    | refused | ignored | idle => exact .inl h
    | opened =>
      right
      simpa [tableOf, comKey, created] using h
    | ingested hep view =>
      left
      simpa [tableOf, comKey, hep, view] using h
    | failed hep =>
      have uncommitted := hs.exclusive _ _ hep
      simp [tableOf, comKey, uncommitted] at h
    | finished hep =>
      left
      simpa [tableOf, comKey, hep] using h
  · simp only [command, Command.key] at h ⊢
    rcases drop_cases duck s datasetId epochId with heq | ⟨free, _, _, _, -, -, heq⟩
    · rw [heq] at h
      exact .inl h
    · rw [heq] at h
      simp [tableOf, free] at h

/-- What holds of the engine between the commands of a schedule. -/
structure Framed (c : Call) (s : EngineState ι) : Prop where
  owned : Owned s
  named : Named c s
  running : s.shutdown = false

theorem framed_step (h : Framed c s) (hm : Scheduled c done m) :
    Framed c (command threshold s m) := by
  obtain ⟨acts, owned⟩ := command_acts threshold h.owned m
  refine ⟨owned, fun κ t hκ => ?_, (command_shutdown m).trans h.running⟩
  by_cases own : κ = m.2.key
  · subst own
    rcases command_tableOf h.owned hκ with before | start
    · exact h.named _ t before
    · exact hm.created start
  · rw [acts.tableOf_eq own] at hκ
    exact h.named κ t hκ

theorem table_step (h : Framed c s) (hm : Scheduled c done m) :
    ((command threshold s m).tables c.epochView.tableName).isSome ↔
      (s.tables c.epochView.tableName).isSome ∨
        (created m.2 = some c.epochView.tableName ∧ m.1.creates = true) := by
  rcases hm with ⟨com, hcom, heq⟩ | ⟨otherKey, otherTable⟩
  · obtain ⟨n, hn⟩ := List.mem_iff_getElem?.mp hcom
    have key := comKey_commands c done hn
    rw [command, heq]
    rcases commands_cases c done hn with ⟨-, schema, rfl⟩ | ⟨_, _, -, -, rfl⟩ | ⟨-, -, -, rfl⟩
    · simp only [start_table h.running h.owned h.named, created, true_and]
    all_goals simp [later_table h.owned h.named key rfl, created]
  · have unheld : tableOf s m.2.key ≠ some c.epochView.tableName :=
      fun held => otherKey ((h.named _ _ held).mpr rfl)
    rw [command_otherTable h.owned unheld otherTable]
    simp [otherTable]

/-- After a schedule the table is there exactly if it was, or the database created it. -/
theorem table_run (threshold : Nat) (h : Framed c s) (scheduled : ∀ m ∈ moves, Scheduled c done m) :
    Framed c (run (command threshold) s moves) ∧
      (((run (command threshold) s moves).tables c.epochView.tableName).isSome ↔
        (s.tables c.epochView.tableName).isSome ∨
          ∃ m ∈ moves, created m.2 = some c.epochView.tableName ∧ m.1.creates = true) := by
  induction moves generalizing s with
  | nil => exact ⟨h, by simp [run]⟩
  | cons m moves ih =>
    have here := scheduled m List.mem_cons_self
    obtain ⟨framed, table⟩ :=
      ih (framed_step h here) fun m' hm' => scheduled m' (List.mem_cons_of_mem _ hm')
    refine ⟨framed, table.trans ?_⟩
    rw [table_step h here]
    simp [or_assoc]

/-- A load leaves no trace, and a new one of the key succeeds, exactly if there was no trace before
and no table was created for it: its stream has no batch, or the database refuses. -/
theorem failed_load_traceless_iff (threshold : Nat) (hs : Owned s) (running : s.shutdown = false)
    (named : Named c s) {moves : List (Duck × Command ι)} (schedule : Schedule c done moves) :
    (Traceless c (run (command threshold) s moves) ∧
      ∀ (again : Call) (done' : ι), again.key = c.key →
        again.epochView.tableName = c.epochView.tableName → again.ends → again.rows ≠ [] →
        ∃ metadata, (createEpochTable threshold (fun _ => {})
          (run (command threshold) s moves) again done').1 = some (.ok metadata)) ↔
      Traceless c s ∧ (c.batches = [] ∨ Refuses c moves) := by
  obtain ⟨framed, table⟩ := table_run threshold ⟨hs, named, running⟩
    fun m hm => schedule.scheduled hm
  have none_iff : (run (command threshold) s moves).tables c.epochView.tableName = none ↔
      s.tables c.epochView.tableName = none ∧ Refuses c moves := by
    rw [← Option.not_isSome_iff_eq_none, table, not_or, Option.not_isSome_iff_eq_none]
    simp [Refuses]
  have traceless : Traceless c (run (command threshold) s moves) ↔
      Traceless c s ∧ Refuses c moves := by
    rw [framed.named.traceless_iff framed.owned, named.traceless_iff hs, none_iff]
  have refuses : c.batches = [] ∨ Refuses c moves ↔ Refuses c moves :=
    or_iff_right_of_imp schedule.refuses_of_empty
  rw [refuses, ← traceless]
  refine ⟨fun h => h.1, fun after => ⟨after, fun again done' sameKey sameTable hends hrows => ?_⟩⟩
  obtain ⟨metadata, ok, -⟩ := feed_commits threshold again done' framed.running
    (sameKey ▸ after.closed) (sameKey ▸ after.uncommitted) (sameTable ▸ after.noTable) hends hrows
  exact ⟨metadata, ok⟩

def rowLoad (rest : List (Except StorageError RecordBatch)) : Call :=
  ⟨"d", ⟨"e", "t"⟩, .ok (oneRow 1)::rest⟩

/-- The load between the commands of another one. The database does not create its table. -/
def betweenOther : List (Duck × Command Unit) :=
  [({}, .engine (.startEpoch "d" ⟨"f", "u"⟩ [] ())),
    ({ creates := false }, .engine (.startEpoch "d" ⟨"e", "t"⟩ (oneRow 1).schema ())),
    ({}, .engine (.ingestBatch "d__e" (oneRow 1))), ({}, .engine (.ingestBatch "d__f" (oneRow 2))),
    ({}, .engine (.finishEpoch "d__e")), ({}, .engine (.finishEpoch "d__f"))]

theorem failed_load_traceless_iff_refused :
    ∃ metadata, (createEpochTable 1 (fun _ => {})
      (run (command 1) (EngineState.fresh Unit) betweenOther) (rowLoad []) ()).1 =
      some (.ok metadata) := by
  have schedule : Schedule (rowLoad []) () betweenOther := by
    refine ⟨rfl, ?_⟩
    decide +kernel
  have refuses : Refuses (rowLoad []) betweenOther := by
    unfold Refuses
    decide +kernel
  have named : Named (rowLoad []) (EngineState.fresh Unit) := by
    intro κ t h
    cases h
  exact ((failed_load_traceless_iff 1 owned_fresh rfl named schedule).mpr
    ⟨⟨rfl, rfl, rfl⟩, .inr refuses⟩).2 (rowLoad []) () rfl rfl rfl (by decide)

def afterLoad (duck : Duck) (rest : List (Except StorageError RecordBatch)) :
    Option (Except StorageError TableMetadata) × EngineState Bool :=
  createEpochTable 1 (fun _ => duck) (EngineState.fresh Bool) (rowLoad rest) false

/-- After an error in the stream the epoch stays open and its table is there; after a failed append
the table is left. In both cases the next load is refused. -/
theorem failed_load_leaves_trace :
    (afterLoad {} [.error (.failed "reset")]).1 = some (.error (.failed "reset")) ∧
    ((afterLoad {} [.error (.failed "reset")]).2.inProgress "d__e").isSome ∧
    ((afterLoad {} [.error (.failed "reset")]).2.tables "t").isSome ∧
    (createEpochTable 1 (fun _ => {}) (afterLoad {} [.error (.failed "reset")]).2
      (rowLoad []) true).1 =
      some (.error (.invalidArgument "Epoch table e for dataset d already exists.")) ∧
    (afterLoad { appends := false } []).1 =
      some (.error (.failed "Failed to flush appender to DuckDB")) ∧
    ((afterLoad { appends := false } []).2.tables "t").isSome ∧
    (createEpochTable 1 (fun _ => {}) (afterLoad { appends := false } []).2
      (rowLoad []) true).1 = some (.error (.failed "Failed to create table t")) := by
  decide +kernel

end Leibrix.FailedLoads
