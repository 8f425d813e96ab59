import Leibrix.Runs
import Leibrix.EpochEngine

/-!
# The scan macro of a dataset

Queries read a dataset through one macro that names the tables of its epochs. A call of
`update_dataset_macro` asks the engine for the epochs and later replaces the macro; other
calls, commits and drops may come in between. The order in which the engine's map is
listed and what the database does with a replacement come with the step. Macros are kept
under the entry that the database's catalog has for their name.
-/

set_option autoImplicit false

namespace Leibrix.ScanMacro
open ArrowBatch EpochEngine Runs List Function

structure UpdateCall where
  datasetId : String
  dateColumn : String
  deriving DecidableEq

structure MacroBody where
  dateColumn : String
  tables : List String
  deriving DecidableEq

/-- Calls that have yet to list the epochs, and calls that have yet to replace the macro, with
the tables that they have listed; the oldest list comes first. -/
structure State (ι : Type) where
  engine : EngineState ι
  waiting : List UpdateCall
  listed : List (UpdateCall × List String)
  macros : String → Option MacroBody

variable {ι : Type}

def initial (ι : Type) : State ι := ⟨EngineState.fresh ι, [], [], fun _ => none⟩

def macroName (datasetId : String) : String := "scan_" ++ datasetId

def listsKey (datasetId key : String) : Bool :=
  decide ((datasetId ++ "__").toList <+: key.toList)

def onListEpochs (s : EngineState ι) (order : List String) (datasetId : String) : List EpochView :=
  order.filterMap fun key =>
    match s.committed key with
    | some (epochView, _) => if listsKey datasetId key then some epochView else none
    | none => none

section Steps

variable [DecidableEq ι] (threshold : Nat) (entry : String → String)

def createOrUpdateDatasetMacro (macros : String → Option MacroBody) (call : UpdateCall)
    (epochTables : List String) : String → Option MacroBody :=
  Function.update macros (entry (macroName call.datasetId)) (some ⟨call.dateColumn, epochTables⟩)

inductive Move (ι : Type) where
  | command (duck : Duck) (com : EngineCom ι)
  | drop (duck : Duck) (datasetId epochId : String)
  | call (call : UpdateCall)
  | list (i : Nat) (order : List String)
  | replace (i : Nat) (result : Except String Unit)

def step (s : State ι) : Move ι → State ι
  | .command duck com => { s with engine := engineStep threshold duck s.engine com }
  | .drop duck datasetId epochId =>
    { s with engine := (onDropEpoch duck s.engine datasetId epochId).2 }
  | .call call => { s with waiting := s.waiting ++ [call] }
  | .list i order =>
    match s.waiting[i]? with
    | none => s
    | some call =>
      { s with
        waiting := s.waiting.eraseIdx i
        listed := s.listed ++
          [(call, (onListEpochs s.engine order call.datasetId).map (·.tableName))] }
  | .replace i result =>
    match s.listed[i]? with
    | none => s
    | some (call, tables) =>
      let s := { s with listed := s.listed.eraseIdx i }
      match result with
      | .error _ => s
      | .ok () => { s with macros := createOrUpdateDatasetMacro entry s.macros call tables }

end Steps

section Freshness

variable (entry : String → String) (d : String)

def EpochTable (s : EngineState ι) (table : String) : Prop :=
  ∃ view metadata, s.committed (epochKey d view.epochId) = some (view, metadata) ∧
    view.tableName = table

variable (s : State ι)

def State.macroTables : List String :=
  match s.macros (entry (macroName d)) with
  | some body => body.tables
  | none => []

/-- The macro reads the tables of the committed epochs and no others. -/
def Fresh : Prop :=
  ∀ table, table ∈ s.macroTables entry d ↔ EpochTable d s.engine table

def Finished : Prop := s.waiting = [] ∧ s.listed = []

/-- The listing goes through the committed epochs. -/
def Enumerates : Move ι → Prop
  | .list _ order => ∀ key, key ∈ order ↔ (s.engine.committed key).isSome
  | _ => True

def ListedAlone : Move ι → Prop
  | .list i _ => ∀ call, s.waiting[i]? = some call → call.datasetId = d →
    ∀ key view metadata, s.engine.committed key = some (view, metadata) → listsKey d key →
      key = epochKey d view.epochId
  | _ => True

def InTurn : Move ι → Prop
  | .replace i result => ∀ call tables, s.listed[i]? = some (call, tables) → call.datasetId = d →
    result = .ok () ∧ ((∃ newer ∈ s.listed.drop (i + 1), newer.1.datasetId = d) ∨
      ∀ older ∈ s.listed.take i, older.1.datasetId ≠ d)
  | _ => True

def NameAlone (_ : State ι) : Move ι → Prop
  | .call call => entry (macroName call.datasetId) = entry (macroName d) → call.datasetId = d
  | _ => True

variable [DecidableEq ι] (threshold : Nat)

/-- What changes the dataset's tables is followed by a call. -/
def Followed : State ι → List (Move ι) → Prop
  | _, [] => True
  | s, m::moves =>
    ((∃ table, ¬ (EpochTable d (step threshold entry s m).engine table ↔
        EpochTable d s.engine table)) →
      ∃ call, .call call ∈ moves ∧ call.datasetId = d) ∧
    Followed (step threshold entry s m) moves

end Freshness

section Listing

variable {d : String}

theorem listsKey_epochKey (d epochId : String) : listsKey d (epochKey d epochId) := by
  simp [listsKey, epochKey]

theorem mem_onListEpochs {s : EngineState ι} {order : List String}
    (whole : ∀ key, key ∈ order ↔ (s.committed key).isSome)
    (alone : ∀ key view metadata, s.committed key = some (view, metadata) → listsKey d key →
      key = epochKey d view.epochId) (table : String) :
    table ∈ (onListEpochs s order d).map (·.tableName) ↔ EpochTable d s table := by
  simp only [onListEpochs, mem_map, mem_filterMap]
  constructor
  · rintro ⟨view, ⟨key, -, found⟩, named⟩
    split at found
    · rename_i view' metadata committed
      split at found
      · rename_i lists
        obtain rfl : view' = view := Option.some.inj found
        have own := alone key view' metadata committed lists
        exact ⟨view', metadata, own ▸ committed, named⟩
      · cases found
    · cases found
  · rintro ⟨view, metadata, committed, named⟩
    refine ⟨view, ⟨epochKey d view.epochId, ?_, ?_⟩, named⟩
    · simp [whole, committed]
    · simp [committed, listsKey_epochKey]

end Listing

section Newest

variable (entry : String → String) (d : String)

def forDataset (entries : List (UpdateCall × List String)) : List (UpdateCall × List String) :=
  entries.filter fun x => x.1.datasetId = d

def State.newest (s : State ι) : List String :=
  match (forDataset d s.listed).getLast? with
  | some (_, tables) => tables
  | none => s.macroTables entry d

theorem newest_of_empty {s : State ι} (h : forDataset d s.listed = []) :
    s.newest entry d = s.macroTables entry d := by
  simp [State.newest, h]

theorem forDataset_append (a b : List (UpdateCall × List String)) :
    forDataset d (a ++ b) = forDataset d a ++ forDataset d b :=
  filter_append ..

theorem forDataset_eq_nil {entries : List (UpdateCall × List String)}
    (h : ∀ x ∈ entries, x.1.datasetId ≠ d) : forDataset d entries = [] := by
  simpa [forDataset] using h

variable {d} {s : State ι} {i : Nat} {call : UpdateCall} {tables : List String}

theorem forDataset_own (own : call.datasetId = d) :
    forDataset d [(call, tables)] = [(call, tables)] := by
  simp [forDataset, own]

theorem forDataset_other (other : call.datasetId ≠ d) : forDataset d [(call, tables)] = [] := by
  simp [forDataset, other]

theorem listed_split {α : Type} {entries : List α} {i : Nat} {x : α}
    (h : entries[i]? = some x) : entries = entries.take i ++ x :: entries.drop (i + 1) := by
  obtain ⟨hi, hx⟩ := List.getElem?_eq_some_iff.mp h
  rw [← hx, ← drop_eq_getElem_cons hi, take_append_drop]

theorem mem_eraseIdx_of_ne {α : Type} {entries : List α} {i : Nat} {x y : α}
    (h : entries[i]? = some x) (mem : y ∈ entries) (ne : y ≠ x) : y ∈ entries.eraseIdx i := by
  rw [listed_split h, mem_append, mem_cons] at mem
  rw [eraseIdx_eq_take_drop_succ, mem_append]
  exact mem.imp_right fun mem => mem.resolve_left ne

theorem forDataset_split (h : s.listed[i]? = some (call, tables)) :
    forDataset d s.listed = forDataset d (s.listed.take i) ++
      (forDataset d [(call, tables)] ++ forDataset d (s.listed.drop (i + 1))) := by
  rw [← forDataset_append, ← forDataset_append, singleton_append, ← listed_split h]

theorem forDataset_eraseIdx :
    forDataset d (s.listed.eraseIdx i) =
      forDataset d (s.listed.take i) ++ forDataset d (s.listed.drop (i + 1)) := by
  rw [← forDataset_append, eraseIdx_eq_take_drop_succ]

variable (s i call tables) in
def State.written : State ι :=
  { s with
    listed := s.listed.eraseIdx i
    macros := createOrUpdateDatasetMacro entry s.macros call tables }

variable (h : s.listed[i]? = some (call, tables))
include h

theorem newest_written_own (own : call.datasetId = d)
    (turn : (∃ newer ∈ s.listed.drop (i + 1), newer.1.datasetId = d) ∨
      ∀ older ∈ s.listed.take i, older.1.datasetId ≠ d) :
    (s.written entry i call tables).newest entry d = s.newest entry d := by
  by_cases newer : forDataset d (s.listed.drop (i + 1)) = []
  · -- the list is the newest, and the only one
    have older : forDataset d (s.listed.take i) = [] := by
      rcases turn with ⟨x, hx, hd⟩ | none
      · have mem : x ∈ forDataset d (s.listed.drop (i + 1)) := by simp [forDataset, hx, hd]
        rw [newer] at mem
        cases mem
      · exact forDataset_eq_nil d none
    have before : s.newest entry d = tables := by
      simp [State.newest, forDataset_split h, older, newer, forDataset_own own]
    have after : forDataset d (s.written entry i call tables).listed = [] := by
      simp [State.written, forDataset_eraseIdx, older, newer]
    rw [newest_of_empty entry d after, before]
    simp [State.macroTables, State.written, createOrUpdateDatasetMacro, own]
  · simp only [State.newest, State.written, forDataset_eraseIdx, forDataset_split h]
    rw [getLast?_append_of_ne_nil _ newer, getLast?_append_of_ne_nil _ (by simp [newer]),
      getLast?_append_of_ne_nil _ newer, getLast?_eq_some_getLast newer]

theorem forDataset_eraseIdx_other (other : call.datasetId ≠ d) :
    forDataset d (s.listed.eraseIdx i) = forDataset d s.listed := by
  rw [forDataset_eraseIdx, forDataset_split h, forDataset_other other, nil_append]

theorem newest_written_other (other : call.datasetId ≠ d)
    (elsewhere : entry (macroName call.datasetId) ≠ entry (macroName d)) :
    (s.written entry i call tables).newest entry d = s.newest entry d := by
  simp [State.newest, State.written, State.macroTables, forDataset_eraseIdx_other h other,
    createOrUpdateDatasetMacro, update_of_ne elsewhere.symm]

end Newest

section Freshness

variable (threshold : Nat) (entry : String → String) (d : String)

/-- The calls at hand write the macro of `d` only for `d`, and a call for `d` is still to
come or to list, or the newest list is what the engine has. -/
structure Tended (s : State ι) (rest : List (Move ι)) : Prop where
  waiting : ∀ call ∈ s.waiting,
    entry (macroName call.datasetId) = entry (macroName d) → call.datasetId = d
  listed : ∀ x ∈ s.listed,
    entry (macroName x.1.datasetId) = entry (macroName d) → x.1.datasetId = d
  current : (∃ call, .call call ∈ rest ∧ call.datasetId = d) ∨
    (∃ call ∈ s.waiting, call.datasetId = d) ∨
    ∀ table, table ∈ s.newest entry d ↔ EpochTable d s.engine table

/-- What the dataset's updates have to keep to. -/
def Orderly (s : State ι) (m : Move ι) : Prop :=
  ListedAlone d s m ∧ InTurn d s m ∧ NameAlone entry d s m

variable {threshold entry d} {s : State ι} {moves : List (Move ι)}

theorem Tended.engine {engine : EngineState ι} {m : Move ι} (h : Tended entry d s (m::moves))
    (silent : ∀ call, m ≠ .call call)
    (followed : (∃ table, ¬ (EpochTable d engine table ↔ EpochTable d s.engine table)) →
      ∃ call, .call call ∈ moves ∧ call.datasetId = d) :
    Tended entry d { s with engine := engine } moves where
  waiting := h.waiting
  listed := h.listed
  current := by
    rcases h.current with ⟨call, hcall, own⟩ | waits | fresh
    · exact .inl ⟨call, (mem_cons.mp hcall).resolve_left (silent call).symm, own⟩
    · exact .inr (.inl waits)
    · by_cases changed : ∃ table, ¬ (EpochTable d engine table ↔ EpochTable d s.engine table)
      · exact .inl (followed changed)
      · rw [not_exists] at changed
        exact .inr (.inr fun table => (fresh table).trans (not_not.mp (changed table)).symm)

theorem Tended.fresh (h : Tended entry d s []) (finished : Finished s) : Fresh entry d s := by
  intro table
  rcases h.current with ⟨call, hcall, -⟩ | ⟨call, waits, -⟩ | fresh
  · cases hcall
  · rw [finished.1] at waits
    cases waits
  · rw [← fresh table, newest_of_empty]
    rw [finished.2]
    rfl

theorem tended_initial (moves : List (Move ι)) : Tended entry d (initial ι) moves where
  waiting := by simp [initial]
  listed := by simp [initial]
  current := by
    refine .inr (.inr fun table => iff_of_false (by simp [State.newest, State.macroTables,
      forDataset, initial]) ?_)
    rintro ⟨view, metadata, committed, -⟩
    cases committed

variable [DecidableEq ι]

theorem tended_step {m : Move ι} (h : Tended entry d s (m::moves))
    (enumerates : Enumerates s m) (orderly : Orderly entry d s m)
    (followed : Followed entry d threshold s (m::moves)) :
    Tended entry d (step threshold entry s m) moves := by
  cases m with
  | command duck com | drop duck datasetId epochId => exact h.engine (by simp) followed.1
  | call call =>
    have named : ∀ other ∈ s.waiting ++ [call],
        entry (macroName other.datasetId) = entry (macroName d) → other.datasetId = d := by
      intro other hother
      rcases mem_append.mp hother with old | new
      · exact h.waiting other old
      · obtain rfl := mem_singleton.mp new
        exact orderly.2.2
    refine ⟨named, h.listed, ?_⟩
    rcases h.current with ⟨other, hother, own⟩ | ⟨other, waits, own⟩ | fresh
    · rcases mem_cons.mp hother with this | later
      · cases this
        exact .inr (.inl ⟨call, by simp [step], own⟩)
      · exact .inl ⟨other, later, own⟩
    · exact .inr (.inl ⟨other, mem_append_left _ waits, own⟩)
    · exact .inr (.inr fresh)
  | list i order =>
    cases hcall : s.waiting[i]? with
    | none =>
      simp only [step, hcall]
      exact h.engine (by simp) (by simp)
    | some call =>
      simp only [step, hcall]
      have mem := mem_of_getElem? hcall
      refine ⟨fun other hother => h.waiting other (mem_of_mem_eraseIdx hother), ?_, ?_⟩
      · intro x hx
        rcases mem_append.mp hx with old | new
        · exact h.listed x old
        · obtain rfl := mem_singleton.mp new
          exact h.waiting call mem
      · by_cases own : call.datasetId = d
        · refine .inr (.inr fun table => ?_)
          have lists : State.newest entry d { s with
              waiting := s.waiting.eraseIdx i
              listed := s.listed ++
                [(call, (onListEpochs s.engine order call.datasetId).map (·.tableName))] } =
              (onListEpochs s.engine order d).map (·.tableName) := by
            simp [State.newest, forDataset_append, forDataset_own own, own]
          rw [lists]
          exact mem_onListEpochs enumerates (orderly.1 call hcall own) table
        · have same : forDataset d (s.listed ++
              [(call, (onListEpochs s.engine order call.datasetId).map (·.tableName))]) =
              forDataset d s.listed := by
            rw [forDataset_append, forDataset_other own, append_nil]
          rcases h.current with ⟨other, hother, hd⟩ | ⟨other, waits, hd⟩ | fresh
          · exact .inl ⟨other, (mem_cons.mp hother).resolve_left (by simp), hd⟩
          · refine .inr (.inl ⟨other, ?_, hd⟩)
            exact mem_eraseIdx_of_ne hcall waits (fun e => own (e ▸ hd))
          · refine .inr (.inr fun table => ?_)
            rw [← fresh table, State.newest, State.newest, same]
            rfl
  | replace i result =>
    cases hentry : s.listed[i]? with
    | none =>
      simp only [step, hentry]
      exact h.engine (by simp) (by simp)
    | some x =>
      obtain ⟨call, tables⟩ := x
      have mem := mem_of_getElem? hentry
      have kept : (step threshold entry s (.replace i result)).newest entry d =
          s.newest entry d := by
        by_cases own : call.datasetId = d
        · obtain ⟨rfl, turn⟩ := orderly.2.1 call tables hentry own
          simp only [step, hentry]
          exact newest_written_own entry hentry own turn
        · have elsewhere := fun e => own (h.listed _ mem e)
          simp only [step, hentry]
          cases result with
          | ok _ => exact newest_written_other entry hentry own elsewhere
          | error e =>
            simp only [State.newest, State.macroTables, forDataset_eraseIdx_other hentry own]
      have same : (step threshold entry s (.replace i result)).engine = s.engine ∧
          (step threshold entry s (.replace i result)).waiting = s.waiting ∧
          (step threshold entry s (.replace i result)).listed = s.listed.eraseIdx i := by
        simp only [step, hentry]
        cases result <;> exact ⟨rfl, rfl, rfl⟩
      refine ⟨?_, ?_, ?_⟩
      · rw [same.2.1]
        exact h.waiting
      · rw [same.2.2]
        exact fun x hx => h.listed x (mem_of_mem_eraseIdx hx)
      · rw [same.1, same.2.1, kept]
        rcases h.current with ⟨other, hother, hd⟩ | rest
        · exact .inl ⟨other, (mem_cons.mp hother).resolve_left (by simp), hd⟩
        · exact .inr rest

theorem tended_run (h : Tended entry d s moves)
    (enumerates : Along (step threshold entry) Enumerates s moves)
    (orderly : Along (step threshold entry) (Orderly entry d) s moves)
    (followed : Followed entry d threshold s moves) :
    Tended entry d (run (step threshold entry) s moves) [] := by
  induction moves generalizing s with
  | nil => exact h
  | cons m moves ih =>
    exact ih (tended_step h enumerates.1 orderly.1 followed) enumerates.2 orderly.2 followed.2

/-- Once all calls have finished, the macro reads the tables of the committed epochs, if no
other dataset's keys or macro are taken for the dataset's and no call writes the newest
list while an older one is still to be written. -/
theorem macro_fresh_of_orderly (threshold : Nat) (entry : String → String) (d : String)
    (moves : List (Move ι)) (enumerates : Along (step threshold entry) Enumerates (initial ι) moves)
    (followed : Followed entry d threshold (initial ι) moves)
    (orderly : Along (step threshold entry) (Orderly entry d) (initial ι) moves)
    (finished : Finished (run (step threshold entry) (initial ι) moves)) :
    Fresh entry d (run (step threshold entry) (initial ι) moves) :=
  (tended_run (tended_initial moves) enumerates orderly followed).fresh finished

end Freshness

section Runs

def oneRow : RecordBatch := ⟨[], [[]], by simp [RowFits]⟩

def loads (datasetId : String) (view : EpochView) : List (Move Nat) :=
  [.command {} (.startEpoch datasetId view [] 0),
    .command {} (.ingestBatch (epochKey datasetId view.epochId) oneRow),
    .command {} (.finishEpoch (epochKey datasetId view.epochId))]

def january : EpochView := ⟨"jan", "sales__jan"⟩

def february : EpochView := ⟨"feb", "sales__feb"⟩

def salesUpdate : UpdateCall := ⟨"sales", "day"⟩

def loadedAndListed : List (Move Nat) :=
  loads "sales" january ++ [.call salesUpdate, .list 0 ["sales__jan"]]

theorem committed_january :
    (run (step 1 id) (initial Nat) (loads "sales" january)).engine.committed =
      Function.update (fun _ => none) "sales__jan" (some (january, ⟨"sales__jan", 1, []⟩)) :=
  rfl

theorem enumerates_january (key : String) : key ∈ ["sales__jan"] ↔
    ((run (step 1 id) (initial Nat) (loads "sales" january)).engine.committed key).isSome := by
  rw [committed_january, mem_singleton]
  by_cases h : key = "sales__jan"
  · simp [h]
  · simp [h]

def Comes (moves : List (Move Nat)) : Prop :=
  ∃ call, .call call ∈ moves ∧ call.datasetId = "sales"

theorem comes_now (rest : List (Move Nat)) : Comes (.call salesUpdate::rest) :=
  ⟨salesUpdate, mem_cons_self, rfl⟩

theorem Comes.later {m : Move Nat} {rest : List (Move Nat)} (h : Comes rest) : Comes (m::rest) :=
  h.imp fun _ both => ⟨mem_cons_of_mem _ both.1, both.2⟩

variable (first second : Nat)

/-- The second epoch is loaded, and its update comes between the listing and the
replacement of the first one's. -/
def updatedTwice : List (Move Nat) :=
  loadedAndListed ++ loads "sales" february ++
    [.call salesUpdate, .list 0 ["sales__jan", "sales__feb"], .replace first (.ok ()),
      .replace second (.ok ())]

theorem committed_february :
    (run (step 1 id) (initial Nat) (loadedAndListed ++ loads "sales" february)).engine.committed =
      Function.update
        (Function.update (fun _ => none) "sales__jan" (some (january, ⟨"sales__jan", 1, []⟩)))
        "sales__feb" (some (february, ⟨"sales__feb", 1, []⟩)) :=
  rfl

theorem enumerates_february (key : String) : key ∈ ["sales__jan", "sales__feb"] ↔
    ((run (step 1 id) (initial Nat)
      (loadedAndListed ++ loads "sales" february)).engine.committed key).isSome := by
  rw [committed_february, mem_cons, mem_singleton]
  by_cases hf : key = "sales__feb"
  · simp [hf]
  · by_cases hj : key = "sales__jan"
    · simp [hj]
    · simp [hf, hj, update_of_ne]

theorem enumerates_updatedTwice :
    Along (step 1 id) Enumerates (initial Nat) (updatedTwice first second) :=
  ⟨trivial, trivial, trivial, trivial, enumerates_january, trivial, trivial, trivial, trivial,
    enumerates_february, trivial, trivial, trivial⟩

theorem followed_updatedTwice :
    Followed id "sales" 1 (initial Nat) (updatedTwice first second) := by
  have replace (s : State Nat) (i : Nat) :
      (step 1 id s (.replace i (.ok ()))).engine = s.engine := by
    rw [step]
    split <;> rfl
  have unchanged {before after : EngineState Nat} (same : after = before) : ¬ ∃ table,
      ¬ (EpochTable "sales" after table ↔ EpochTable "sales" before table) :=
    fun ⟨_, changed⟩ => changed (same ▸ Iff.rfl)
  exact ⟨fun _ => (comes_now _).later.later, fun _ => (comes_now _).later, fun _ => comes_now _,
    fun h => absurd h (unchanged rfl), fun h => absurd h (unchanged rfl),
    fun _ => (comes_now _).later.later, fun _ => (comes_now _).later, fun _ => comes_now _,
    fun h => absurd h (unchanged rfl), fun h => absurd h (unchanged rfl),
    fun h => absurd h (unchanged (replace _ _)), fun h => absurd h (unchanged (replace _ _)),
    trivial⟩

/-- The two updates replace the macro in the order of their listings. -/
theorem macro_fresh_february :
    Fresh id "sales" (run (step 1 id) (initial Nat) (updatedTwice 0 0)) := by
  have january_alone : ∀ key view metadata,
      (run (step 1 id) (initial Nat) (loads "sales" january)).engine.committed key =
        some (view, metadata) → listsKey "sales" key → key = epochKey "sales" view.epochId := by
    intro key view metadata h _
    rw [committed_january] at h
    by_cases hj : key = "sales__jan"
    · rw [hj, update_self] at h
      cases h
      exact hj
    · rw [update_of_ne hj] at h
      cases h
  have both_alone : ∀ key view metadata,
      (run (step 1 id) (initial Nat)
        (loadedAndListed ++ loads "sales" february)).engine.committed key =
          some (view, metadata) → listsKey "sales" key → key = epochKey "sales" view.epochId := by
    intro key view metadata h listed
    rw [committed_february] at h
    by_cases hf : key = "sales__feb"
    · rw [hf, update_self] at h
      cases h
      exact hf
    · rw [update_of_ne hf] at h
      exact january_alone key view metadata h listed
  exact macro_fresh_of_orderly 1 id "sales" _ (enumerates_updatedTwice 0 0)
    (followed_updatedTwice 0 0)
    ⟨⟨trivial, trivial, trivial⟩, ⟨trivial, trivial, trivial⟩, ⟨trivial, trivial, trivial⟩,
      ⟨trivial, trivial, fun _ => rfl⟩, ⟨fun _ _ _ => january_alone, trivial, trivial⟩,
      ⟨trivial, trivial, trivial⟩, ⟨trivial, trivial, trivial⟩, ⟨trivial, trivial, trivial⟩,
      ⟨trivial, trivial, fun _ => rfl⟩, ⟨fun _ _ _ => both_alone, trivial, trivial⟩,
      ⟨trivial, fun _ _ _ _ => ⟨rfl, .inr nofun⟩, trivial⟩,
      ⟨trivial, fun _ _ _ _ => ⟨rfl, .inr nofun⟩, trivial⟩, trivial⟩ ⟨rfl, rfl⟩

/-- The older list overwrites the newer macro, and the second epoch is not read. -/
theorem macro_misses_epoch :
    Along (step 1 id) Enumerates (initial Nat) (updatedTwice 1 0) ∧
    Followed id "sales" 1 (initial Nat) (updatedTwice 1 0) ∧
    Finished (run (step 1 id) (initial Nat) (updatedTwice 1 0)) ∧
    ¬ Fresh id "sales" (run (step 1 id) (initial Nat) (updatedTwice 1 0)) := by
  refine ⟨enumerates_updatedTwice 1 0, followed_updatedTwice 1 0, ⟨rfl, rfl⟩, ?_⟩
  intro fresh
  have reads : (run (step 1 id) (initial Nat) (updatedTwice 1 0)).macroTables id "sales" =
      ["sales__jan"] := rfl
  have missing := (fresh "sales__feb").mpr ⟨february, ⟨"sales__feb", 1, []⟩, rfl, rfl⟩
  rw [reads] at missing
  simp at missing

end Runs

end Leibrix.ScanMacro
