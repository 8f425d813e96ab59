import Leibrix.LocalStages
import Mathlib.Data.Finset.SDiff
import Mathlib.Data.List.TakeWhile

/-!
# Temporary tables of a stage

The inputs of a stage become temporary tables of one connection, are queried and dropped again.
What the connection does with each statement comes with the stage. Both executors leave at the
first input that cannot be registered, before anything is dropped, and so does a query that
panics.
-/

set_option autoImplicit false

namespace Leibrix.TempTables
open ArrowBatch LocalStages Finset

/-- How far the registration of one table gets. -/
inductive Registration where
  | dropFails (detail : String)
  | createFails (detail : String)
  | appendFails (detail : String)
  | done
  deriving DecidableEq

/-- What a connection does with the statements of a stage. -/
structure Connection where
  register : String → Registration
  answer : Except SqlFailure (Schema × List RecordBatch)
  drops : String → Bool

def registerArrowBatches (temps : Finset String) (tableName : String) :
    Registration → Finset String × Option String
  | .dropFails detail => (temps, some detail)
  | .createFails detail => (temps.erase tableName, some detail)
  | .appendFails detail => (insert tableName temps, some detail)
  | .done => (insert tableName temps, none)

section Stage

variable (conn : Connection)

/-- Registers the inputs in the order in which their map is read. -/
def registerInputs : List (String × List RecordBatch) → Finset String → List String →
    Finset String × Except SqlFailure (List String)
  | [], temps, registered => (temps, .ok registered)
  | (tableName, batches)::rest, temps, registered =>
    if batches.isEmpty then registerInputs rest temps registered
    else
      match registerArrowBatches temps tableName (conn.register tableName) with
      | (temps, some detail) => (temps, .error (.register tableName detail))
      | (temps, none) => registerInputs rest temps (registered ++ [tableName])

def cleanUp (temps : Finset String) (registered : List String) : Finset String :=
  registered.foldl (fun temps tableName =>
    if conn.drops tableName then temps.erase tableName else temps) temps

/-- What the query leaves: a panic goes past the cleanup. -/
def afterQuery (temps : Finset String) (registered : List String) : Finset String :=
  match conn.answer with
  | .error (.panicked _) => temps
  | _ => cleanUp conn temps registered

def runSqlWithInputs (connecting : String) (temps : Finset String)
    (inputs : List (String × List RecordBatch)) :
    Finset String × Except StageExecutionError (List RecordBatch) :=
  match registerInputs conn inputs temps [] with
  | (temps, .error failure) => (temps, .error (failure.error connecting))
  | (temps, .ok registered) =>
    (afterQuery conn temps registered,
      match conn.answer with
      | .ok (schema, batches) => .ok (ExchangeRuntime.orSchema schema batches)
      | .error failure => .error (failure.error connecting))

/-- The words in which a worker reports a failure. -/
def describe (failure : SqlFailure) : String :=
  match failure.error "Failed to get pooled DB connection: " with
  | .executionFailed detail => detail
  | e => e.display

/-- The worker's side of a stage. `started` is whether a connection was had, and `cancelled`
whether the stage had been cancelled by then. -/
def executeStageWithDuckdb (started : Except String Unit) (cancelled : Bool)
    (temps : Finset String) (inputs : List (String × List RecordBatch)) :
    Finset String × Except String (List RecordBatch) :=
  match started with
  | .error detail => (temps, .error (describe (.connect detail)))
  | .ok () =>
    if cancelled then (temps, .error "Stage cancelled before execution started")
    else
      match registerInputs conn inputs temps [] with
      | (temps, .error failure) => (temps, .error (describe failure))
      | (temps, .ok registered) =>
        (afterQuery conn temps registered,
          match conn.answer with
          | .ok (_, batches) => .ok batches
          | .error (.panicked detail) => .error ("Task join error: " ++ detail)
          | .error failure => .error ("Stage SQL execution failed: " ++ describe failure))

def tableNames (inputs : List (String × List RecordBatch)) : List String :=
  (inputs.filter fun input => !input.2.isEmpty).map (·.1)

variable {conn} {inputs : List (String × List RecordBatch)}

def isDone (conn : Connection) (tableName : String) : Bool := conn.register tableName == .done

/-- The table is still there after a stage that registered it. -/
def stays (conn : Connection) (tableName : String) : Bool :=
  match conn.answer with
  | .error (.panicked _) => true
  | _ => !conn.drops tableName

/-- What a failed registration does not show in the temporary tables. -/
def Hidden (temps : Finset String) (tableName : String) : Registration → Prop
  | .createFails _ => tableName ∉ temps
  | .appendFails _ => tableName ∈ temps
  | _ => True

/-- Either every input is registered, and stays exactly if a table of its name was there, or at the
first one that is not, tables of the names before it were there and its failure does not show. -/
def Restored (conn : Connection) (temps : Finset String) (tableNames : List String) : Prop :=
  match tableNames.find? fun n => !isDone conn n with
  | none => ∀ n ∈ tableNames, n ∈ temps ↔ stays conn n = true
  | some n =>
    (∀ m ∈ tableNames.takeWhile (isDone conn), m ∈ temps) ∧ Hidden temps n (conn.register n)

theorem registerInputs_skip {tableName : String} {batches : List RecordBatch}
    (inputs : List (String × List RecordBatch)) (empty : batches.isEmpty = true)
    (temps : Finset String) (registered : List String) :
    tableNames ((tableName, batches)::inputs) = tableNames inputs ∧
      registerInputs conn ((tableName, batches)::inputs) temps registered =
        registerInputs conn inputs temps registered := by
  constructor
  · simp [tableNames, empty]
  · rw [registerInputs, if_pos empty]

theorem registerInputs_done (done : ∀ n ∈ tableNames inputs, isDone conn n = true)
    (temps : Finset String) (registered : List String) :
    registerInputs conn inputs temps registered =
      (temps ∪ (tableNames inputs).toFinset, .ok (registered ++ tableNames inputs)) := by
  induction inputs generalizing temps registered with
  | nil => simp [registerInputs, tableNames]
  | cons input rest ih =>
    obtain ⟨tableName, batches⟩ := input
    by_cases empty : batches.isEmpty
    · obtain ⟨same, skipped⟩ := registerInputs_skip rest empty temps registered
      rw [same] at done ⊢
      rw [skipped, ih done]
    · have more : tableNames ((tableName, batches)::rest) = tableName::tableNames rest := by
        simp [tableNames, empty]
      rw [more] at done ⊢
      have here : conn.register tableName = .done :=
        beq_iff_eq.mp (done tableName List.mem_cons_self)
      rw [registerInputs, if_neg empty, here]
      simp only [registerArrowBatches]
      rw [ih fun n hn => done n (List.mem_cons_of_mem _ hn)]
      simp [insert_union, union_insert]

theorem registerInputs_failed {n : String}
    (failed : (tableNames inputs).find? (fun n => !isDone conn n) = some n)
    (temps : Finset String) (registered : List String) :
    ∃ failure, registerInputs conn inputs temps registered =
      ((registerArrowBatches (temps ∪ ((tableNames inputs).takeWhile (isDone conn)).toFinset) n
        (conn.register n)).1, .error failure) := by
  induction inputs generalizing temps registered with
  | nil => simp [tableNames] at failed
  | cons input rest ih =>
    obtain ⟨tableName, batches⟩ := input
    by_cases empty : batches.isEmpty
    · obtain ⟨same, skipped⟩ := registerInputs_skip rest empty temps registered
      rw [same] at failed ⊢
      rw [skipped]
      exact ih failed temps registered
    · have more : tableNames ((tableName, batches)::rest) = tableName::tableNames rest := by
        simp [tableNames, empty]
      rw [more] at failed ⊢
      rw [registerInputs, if_neg empty]
      cases done : isDone conn tableName with
      | true =>
        rw [List.find?_cons_of_neg (by simp [done])] at failed
        obtain ⟨failure, hrest⟩ := ih failed (insert tableName temps) (registered ++ [tableName])
        refine ⟨failure, ?_⟩
        rw [beq_iff_eq.mp done, List.takeWhile_cons_of_pos done]
        simpa [registerArrowBatches, insert_union, union_insert] using hrest
      | false =>
        rw [List.find?_cons_of_pos (by simp [done])] at failed
        cases failed
        rw [List.takeWhile_cons_of_neg (by simp [done])]
        cases h : conn.register n with
        | done => simp [isDone, h] at done
        | dropFails | createFails | appendFails => exact ⟨_, by simp [registerArrowBatches]; rfl⟩

theorem mem_cleanUp (registered : List String) (temps : Finset String) (n : String) :
    n ∈ cleanUp conn temps registered ↔
      n ∈ temps ∧ (n ∈ registered → conn.drops n = false) := by
  induction registered generalizing temps with
  | nil => simp [cleanUp]
  | cons m registered ih =>
    rw [cleanUp, List.foldl_cons, ← cleanUp, ih]
    by_cases same : n = m
    · subst same
      by_cases drops : conn.drops n <;> simp [drops]
    · by_cases drops : conn.drops m <;> simp [drops, same]

theorem mem_afterQuery (registered : List String) (temps : Finset String) (n : String) :
    n ∈ afterQuery conn temps registered ↔
      n ∈ temps ∧ (n ∈ registered → stays conn n = true) := by
  unfold afterQuery stays
  split
  · simp
  · simpa using mem_cleanUp registered temps n

theorem afterQuery_eq_iff (names : List String) (temps : Finset String) :
    afterQuery conn (temps ∪ names.toFinset) names = temps ↔
      ∀ n ∈ names, n ∈ temps ↔ stays conn n = true := by
  simp only [Finset.ext_iff, mem_afterQuery, mem_union, List.mem_toFinset]
  refine forall_congr' fun n => ?_
  by_cases hn : n ∈ names
  · simp [hn, iff_comm]
  · simp [hn]

theorem registerArrowBatches_eq_iff {n : String} {names : List String} {temps : Finset String}
    (fails : isDone conn n = false) (new : n ∉ names) :
    (registerArrowBatches (temps ∪ names.toFinset) n (conn.register n)).1 = temps ↔
      (∀ m ∈ names, m ∈ temps) ∧ Hidden temps n (conn.register n) := by
  simp only [Finset.ext_iff]
  cases h : conn.register n with
  | done => simp [isDone, h] at fails
  | dropFails detail => simp [registerArrowBatches, Hidden]
  | createFails detail =>
    simp only [registerArrowBatches, Hidden, mem_erase, mem_union, List.mem_toFinset]
    constructor
    · intro same
      refine ⟨fun m hm => (same m).mp ⟨?_, .inr hm⟩, fun hn => ((same n).mpr hn).1 rfl⟩
      rintro rfl
      exact new hm
    · rintro ⟨there, gone⟩ m
      refine ⟨fun hm => hm.2.elim id (there m), fun hm => ⟨?_, .inl hm⟩⟩
      rintro rfl
      exact gone hm
  | appendFails detail =>
    simp only [registerArrowBatches, Hidden, mem_insert, mem_union, List.mem_toFinset]
    constructor
    · intro same
      exact ⟨fun m hm => (same m).mp (.inr (.inr hm)), (same n).mp (.inl rfl)⟩
    · rintro ⟨there, here⟩ m
      refine ⟨?_, fun hm => .inr (.inl hm)⟩
      rintro (rfl | hm | hm)
      · exact here
      · exact hm
      · exact there m hm

/-- The tables that registration and query leave. -/
def tablesLeft (conn : Connection) (temps : Finset String)
    (inputs : List (String × List RecordBatch)) : Finset String :=
  match registerInputs conn inputs temps [] with
  | (temps, .error _) => temps
  | (temps, .ok registered) => afterQuery conn temps registered

theorem tablesLeft_eq_iff (temps : Finset String) (inputs : List (String × List RecordBatch)) :
    tablesLeft conn temps inputs = temps ↔ Restored conn temps (tableNames inputs) := by
  unfold tablesLeft Restored
  cases hfind : (tableNames inputs).find? fun n => !isDone conn n with
  | none =>
    have done : ∀ n ∈ tableNames inputs, isDone conn n = true := by simpa using hfind
    rw [registerInputs_done done]
    exact afterQuery_eq_iff (tableNames inputs) temps
  | some n =>
    have fails : isDone conn n = false := by simpa using List.find?_some hfind
    obtain ⟨failure, left⟩ := registerInputs_failed hfind temps []
    rw [left]
    refine registerArrowBatches_eq_iff fails fun hn => ?_
    rw [List.mem_takeWhile_imp hn] at fails
    cases fails

theorem runSqlWithInputs_left (connecting : String) (temps : Finset String) :
    (runSqlWithInputs conn connecting temps inputs).1 = tablesLeft conn temps inputs := by
  unfold runSqlWithInputs tablesLeft
  rcases registerInputs conn inputs temps [] with ⟨temps', failure | registered⟩ <;> rfl

theorem executeStageWithDuckdb_left (temps : Finset String) :
    (executeStageWithDuckdb conn (.ok ()) false temps inputs).1 = tablesLeft conn temps inputs := by
  unfold executeStageWithDuckdb tablesLeft
  rcases registerInputs conn inputs temps [] with ⟨temps', failure | registered⟩ <;> rfl

/-- Both executors leave the temporary tables as they were exactly if these are `Restored`; a stage
that is not started leaves them in any case. -/
theorem temp_tables_restored_iff (conn : Connection) (connecting : String)
    (started : Except String Unit) (cancelled : Bool) (temps : Finset String)
    (inputs : List (String × List RecordBatch)) :
    ((runSqlWithInputs conn connecting temps inputs).1 = temps ↔
      Restored conn temps (tableNames inputs)) ∧
    ((executeStageWithDuckdb conn started cancelled temps inputs).1 = temps ↔
      (started = .ok () → cancelled = false → Restored conn temps (tableNames inputs))) := by
  refine ⟨by rw [runSqlWithInputs_left, tablesLeft_eq_iff], ?_⟩
  cases started with
  | error detail => simp [executeStageWithDuckdb]
  | ok =>
    cases cancelled with
    | true => simp [executeStageWithDuckdb]
    | false =>
      rw [executeStageWithDuckdb_left, tablesLeft_eq_iff]
      simp

/-- What the connection makes of the inputs and the query, without the tables. -/
def asked (conn : Connection) (inputs : List (String × List RecordBatch)) :
    Except SqlFailure (Schema × List RecordBatch) :=
  match (registerInputs conn inputs ∅ []).2 with
  | .error failure => .error failure
  | .ok _ => conn.answer

theorem registerInputs_result (temps temps' : Finset String) (registered : List String) :
    (registerInputs conn inputs temps registered).2 =
      (registerInputs conn inputs temps' registered).2 := by
  induction inputs generalizing temps temps' registered with
  | nil => rfl
  | cons input rest ih =>
    obtain ⟨tableName, batches⟩ := input
    unfold registerInputs
    split_ifs
    · exact ih ..
    · cases conn.register tableName with
      | done => exact ih ..
      | dropFails | createFails | appendFails => rfl

/-- The result is that of the executor of stages over a database that does what the connection
does. -/
theorem runSqlWithInputs_result {Db : Type} (duckdb : Duckdb Db) (db : Db) (connecting : String)
    (stageSql : String) (temps : Finset String)
    (h : duckdb.query db (registered fun n => inputs.lookup n) stageSql = asked conn inputs) :
    (runSqlWithInputs conn connecting temps inputs).2 =
      LocalStages.runSqlWithInputs duckdb connecting db stageSql fun n => inputs.lookup n := by
  rw [LocalStages.runSqlWithInputs, h, asked, registerInputs_result ∅ temps]
  unfold runSqlWithInputs
  rcases registerInputs conn inputs temps [] with ⟨temps', failure | registered⟩
  · rfl
  · cases conn.answer <;> rfl

end Stage

def twoInputs : List (String × List RecordBatch) :=
  [("__exchange_0", [.newEmpty []]), ("__exchange_1", [.newEmpty []])]

/-- A connection whose query fails, with what it does for the second input. -/
def failing (second : Registration) : Connection where
  register n := if n = "__exchange_1" then second else .done
  answer := .error (.prepare "syntax error")
  drops _ := true

/-- The second input cannot be registered, and the first one stays. -/
theorem temp_table_leaked :
    (runSqlWithInputs (failing (.createFails "out of memory")) "" ∅ twoInputs).1 =
      {"__exchange_0"} ∧
    (executeStageWithDuckdb (failing (.createFails "out of memory")) (.ok ()) false ∅
      twoInputs).1 = {"__exchange_0"} := by
  decide +kernel

end Leibrix.TempTables
