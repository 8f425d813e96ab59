import Leibrix.ExchangeRuntime
import Leibrix.HashRows
import Mathlib.Data.Multiset.Bind

/-!
# Local and distributed inputs of a stage

Both modes first collect the results of a list of workers, and differ in whose results
they collect and in what they do with them. The inputs that they come to are compared by
their rows, for one worker of the consuming stage.
-/

set_option autoImplicit false

namespace Leibrix.ExchangeModes
open ArrowBatch LdpTypes ExchangeRuntime List Option

section Fallible

variable {α β ε ε' : Type}

@[simp] theorem toOption_ok (a : α) : (Except.ok a : Except ε α).toOption = some a := rfl

@[simp] theorem toOption_error (e : ε) : (Except.error e : Except ε α).toOption = none := rfl

@[simp] theorem toOption_pure (a : α) : (pure a : Except ε α).toOption = some a := rfl

@[simp] theorem toOption_bind (x : Except ε α) (f : α → Except ε β) :
    (x >>= f).toOption = x.toOption.bind fun a => (f a).toOption := by
  cases x <;> rfl

@[simp] theorem toOption_map (x : Except ε α) (f : α → β) :
    (x.map f).toOption = x.toOption.map f := by
  cases x <;> rfl

@[simp] theorem toOption_mapError (x : Except ε α) (f : ε → ε') :
    (x.mapError f).toOption = x.toOption := by
  cases x <;> rfl

theorem toOption_mapM (g : α → Except ε β) (l : List α) :
    (l.mapM g).toOption = l.mapM fun a => (g a).toOption := by
  induction l with
  | nil => rfl
  | cons a as ih =>
    rw [mapM_cons, mapM_cons, ← ih]
    cases g a <;> cases as.mapM g <;> rfl

theorem mapM_congr {g g' : α → Option β} {l : List α} (h : ∀ a ∈ l, g a = g' a) :
    l.mapM g = l.mapM g' := by
  induction l with
  | nil => rfl
  | cons a as ih =>
    rw [mapM_cons, mapM_cons, h a mem_cons_self,
      ih fun b hb => h b (mem_cons_of_mem a hb)]

theorem mapM_isSome_iff {g : α → Option β} {l : List α} :
    (l.mapM g).isSome ↔ ∀ a ∈ l, (g a).isSome := by
  induction l with
  | nil => simp
  | cons a as ih =>
    rw [mapM_cons, forall_mem_cons, ← ih]
    cases g a <;> cases as.mapM g <;> simp

end Fallible

theorem orEmptyBatch_eq (batches : List RecordBatch) : orEmptyBatch batches = batches := by
  cases batches <;> rfl

theorem batchRows_append (a b : List RecordBatch) :
    batchRows (a ++ b) = batchRows a ++ batchRows b :=
  flatMap_append

theorem batchRows_orSchema (schema : Schema) (batches : List RecordBatch) :
    batchRows (orSchema schema batches) = batchRows batches := by
  cases batches <;> rfl

def collect (result : WorkerId → Option (List RecordBatch)) (workers : List WorkerId) :
    Option (List RecordBatch) :=
  (workers.mapM result).map List.flatten

section Collect

variable {result : WorkerId → Option (List RecordBatch)}

theorem collect_cons (w : WorkerId) (ws : List WorkerId) :
    collect result (w::ws) =
      (result w).bind fun batches => (collect result ws).map (batches ++ ·) := by
  rw [collect, collect, mapM_cons]
  cases result w <;> cases ws.mapM result <;> rfl

def Silent (result : WorkerId → Option (List RecordBatch)) (workers : List WorkerId) : Prop :=
  ∀ w ∈ workers, ∃ batches, result w = some batches ∧ batchRows batches = []

theorem silent_iff (ws : List WorkerId) :
    Silent result ws ↔ ∃ batches, collect result ws = some batches ∧ batchRows batches = [] := by
  induction ws with
  | nil => simp [Silent, collect, batchRows]
  | cons w ws ih =>
    rw [collect_cons, Silent, forall_mem_cons, ← Silent, ih]
    constructor
    · rintro ⟨⟨b, hb, hb0⟩, all, hall, hall0⟩
      exact ⟨b ++ all, by simp [hb, hall], by simp [batchRows_append, hb0, hall0]⟩
    · rintro ⟨all, hall, hall0⟩
      simp only [bind_eq_some_iff, map_eq_some_iff] at hall
      obtain ⟨b, hb, rest, hrest, rfl⟩ := hall
      rw [batchRows_append, append_eq_nil_iff] at hall0
      exact ⟨⟨b, hb, hall0.1⟩, rest, hrest, hall0.2⟩

theorem fetchOutputs_toOption (outputs : String → Option (List RecordBatch))
    (tickets : List StageTicket) : (fetchOutputs outputs tickets).toOption =
      (tickets.mapM fun t => outputs t.ticketId).map List.flatten := by
  have each (t : StageTicket) : (fetchOutput outputs t).toOption = outputs t.ticketId := by
    rw [fetchOutput]
    cases outputs t.ticketId <;> rfl
  rw [fetchOutputs, toOption_bind, toOption_mapM, mapM_congr fun t _ => each t]
  cases tickets.mapM fun t => outputs t.ticketId <;> rfl

theorem executeGather_collect {network : Network} {remote : RemoteTickets} {queryId : String}
    {stageId : Nat} {workers : List WorkerId}
    (h : ∀ w ∈ workers, (fetchFromWorker network remote queryId stageId w).toOption = result w) :
    (executeGather network remote queryId stageId workers).toOption = collect result workers := by
  have split : (if (fetchErrors network remote queryId stageId workers).isEmpty then
      some (fetchedBatches network remote queryId stageId workers) else none) =
        collect result workers := by
    induction workers with
    | nil => rfl
    | cons w ws ih =>
      rw [collect_cons, ← h w mem_cons_self,
        ← ih fun v hv => h v (mem_cons_of_mem w hv)]
      cases hf : fetchFromWorker network remote queryId stageId w with
      | error e => simp [fetchErrors, hf]
      | ok b =>
        have errors : fetchErrors network remote queryId stageId (w::ws) =
            fetchErrors network remote queryId stageId ws := by simp [fetchErrors, hf]
        have batches : fetchedBatches network remote queryId stageId (w::ws) =
            b ++ fetchedBatches network remote queryId stageId ws := by simp [fetchedBatches, hf]
        rw [errors, batches]
        by_cases he : (fetchErrors network remote queryId stageId ws).isEmpty = true <;> simp [he]
  rw [← split, executeGather]
  split <;> simp [orEmptyBatch_eq]

end Collect

def SameRows : Option (List RecordBatch) → Option (List RecordBatch) → Prop
  | some a, some b => (batchRows a : Multiset Row) = batchRows b
  | none, none => True
  | _, _ => False

/-- The input of an edge in local and in distributed mode has the same rows, or both fail. A table
that is left out has no rows. -/
def SameInput {ε ε' : Type} (here : Except ε (List RecordBatch))
    (there : Except ε' (Option (List RecordBatch))) : Prop :=
  SameRows here.toOption (there.toOption.map (·.getD []))

instance : ∀ a b, Decidable (SameRows a b)
  | some a, some b => inferInstanceAs (Decidable ((batchRows a : Multiset Row) = batchRows b))
  | none, none => inferInstanceAs (Decidable True)
  | some _, none | none, some _ => inferInstanceAs (Decidable False)

instance {ε ε' : Type} (here : Except ε (List RecordBatch))
    (there : Except ε' (Option (List RecordBatch))) : Decidable (SameInput here there) :=
  inferInstanceAs (Decidable (SameRows _ _))

theorem sameRows_refl (a : Option (List RecordBatch)) : SameRows a a := by
  cases a <;> simp [SameRows]

theorem sameRows_nothing_iff {result : WorkerId → Option (List RecordBatch)}
    (ws : List WorkerId) : SameRows (collect result ws) (some []) ↔ Silent result ws := by
  rw [silent_iff]
  cases collect result ws <;> simp [SameRows, batchRows]

section Edges

variable (lower : String → String) (partition : Partitioner)
  (network : Network) (remote : RemoteTickets)
  (queryId : String) (result : WorkerId → Option (List RecordBatch))

theorem broadcast_same_iff (sources : List WorkerId) :
    SameRows (collect result sources)
        (match sources with
          | [] => none
          | source::_ => result source) ↔
      ∃ source rest, sources = source::rest ∧ (result source = none ∨ Silent result rest) := by
  cases sources with
  | nil => simp [collect, SameRows]
  | cons source rest =>
    simp only [List.cons.injEq, and_assoc, exists_and_left, exists_eq_left']
    rw [collect_cons, silent_iff]
    show SameRows _ (result source) ↔ _
    cases result source with
    | none => simp [SameRows]
    | some b =>
      cases collect result rest with
      | none => simp [SameRows]
      | some more =>
        simp only [bind_some, map_some, SameRows, batchRows_append]
        rw [← Multiset.coe_add, add_eq_left]
        simp

theorem batchRows_swap (split : List (List RecordBatch)) (mine : List Nat) :
    (batchRows (mine.flatMap fun p => split.flatMap (filledPartition · p)) : Multiset Row) =
      batchRows (split.flatMap fun parts => mine.flatMap (filledPartition parts)) := by
  simp only [batchRows, flatMap_assoc, ← Multiset.coe_bind]
  exact Multiset.bind_bind _ _

variable (columnRefs : List ColumnRef) (n : Nat) (partitionToWorker : List WorkerId)
  (worker : WorkerId) {stageId : Nat} {workers : List WorkerId}

theorem hashRemote_toOption
    (h : ∀ w ∈ workers, (fetchFromWorker network remote queryId stageId w).toOption = result w) :
    (executeHashPartition lower partition network remote queryId stageId workers columnRefs n
        partitionToWorker worker).toOption =
      (collect result workers).bind fun batches =>
        match batches with
        | [] => some []
        | first::_ => (resolveColumnIndices lower columnRefs first.schema).toOption.bind
            fun fieldRefs =>
              (batches.mapM fun batch => partition batch fieldRefs n).toOption.map fun split =>
                orSchema first.schema (split.flatMap fun parts =>
                  (localPartitions partitionToWorker worker).flatMap (filledPartition parts)) := by
  rw [executeHashPartition, toOption_bind, executeGather_collect h]
  congr 1
  funext batches
  cases batches with
  | nil => rfl
  | cons first rest =>
    rw [toOption_bind]
    congr 1
    funext fieldRefs
    rw [toOption_bind]
    cases (first::rest).mapM fun batch => partition batch fieldRefs n <;> rfl

end Edges

end Leibrix.ExchangeModes
