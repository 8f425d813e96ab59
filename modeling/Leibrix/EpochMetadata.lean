import Leibrix.LdpTypes
import Mathlib.Algebra.BigOperators.Group.List.Basic
import Mathlib.Algebra.GroupWithZero.Nat
import Mathlib.Data.List.Dedup
import Mathlib.Data.List.Induction
import Mathlib.Logic.Function.Basic

/-!
# Statistics of epochs

Two providers keep the epochs that are registered for tables and report the totals of a
scan. The one in memory finds an epoch by its identifier alone; the one of a cluster finds
it by its table and identifier, but reads its statistics from the first entry of a hash map
with a matching identifier, in an order that is a parameter. Both list an epoch as often as
it is registered.
-/

set_option autoImplicit false

namespace Leibrix.EpochMetadata
open LdpTypes List

section Last

variable {ρ : Type} {p : ρ → Bool} {l : List ρ} {r : ρ}

def last (p : ρ → Bool) (l : List ρ) : Option ρ := (l.filter p).getLast?

theorem last_snoc (p : ρ → Bool) (l : List ρ) (r : ρ) :
    last p (l ++ [r]) = if p r then some r else last p l := by
  unfold last
  cases h : p r <;> simp [h]

theorem last_of_split {a b : List ρ} (hr : p r = true) (hb : ∀ x ∈ b, p x = false) :
    last p (a ++ r::b) = some r := by
  have none_after : b.filter p = [] := by
    rw [filter_eq_nil_iff]
    intro x hx
    simp [hb x hx]
  unfold last
  rw [filter_append, filter_cons_of_pos hr, none_after]
  simp

theorem exists_last (h : ∃ r ∈ l, p r = true) :
    ∃ a r b, l = a ++ r::b ∧ p r = true ∧ ∀ x ∈ b, p x = false := by
  induction l with
  | nil => simp at h
  | cons y l ih =>
    by_cases hl : ∃ r ∈ l, p r = true
    · obtain ⟨a, r, b, rfl, hr, hb⟩ := ih hl
      exact ⟨y::a, r, b, rfl, hr, hb⟩
    · obtain ⟨r, hr, hp⟩ := h
      push Not at hl
      rcases mem_cons.mp hr with rfl | hr
      · exact ⟨[], r, l, rfl, hp, fun x hx => by simpa using hl x hx⟩
      · exact absurd hp (hl r hr)

theorem last_eq_some_iff : last p l = some r ↔
    ∃ a b, l = a ++ r::b ∧ p r = true ∧ ∀ x ∈ b, p x = false := by
  constructor
  · intro h
    have found : r ∈ l.filter p := mem_of_getLast? h
    obtain ⟨a, r', b, rfl, hr', hb⟩ := exists_last ⟨r, mem_filter.mp found⟩
    rw [last_of_split hr' hb] at h
    cases h
    exact ⟨a, b, rfl, hr', hb⟩
  · rintro ⟨a, b, rfl, hr, hb⟩
    exact last_of_split hr hb

end Last

abbrev TimeRange := UInt64 × UInt64

def endOfTime : UInt64 := 18446744073709551615

structure EpochStats where
  rows : UInt64
  bytes : UInt64
  statsSource : StatsSource

/-- What a registration is for. -/
structure Entry where
  table : String
  epochId : String
  timeRange : Option TimeRange

structure Registration extends Entry where
  stats : EpochStats
  worker : WorkerId

abbrev EpochKey := String × String

def key (n : Entry) : EpochKey := (n.table, n.epochId)

abbrev entries (regs : List Registration) : List Entry := regs.map (·.toEntry)

/-- The epochs of a table, as often as they are registered. -/
def listed (named : List Entry) (table : String) : List String :=
  (named.filter (·.table == table)).map (·.epochId)

structure ScanStats where
  rows : UInt64
  bytes : UInt64
  workers : List WorkerId
  statsSource : StatsSource

structure ScanTotals where
  rows : UInt64
  bytes : UInt64
  workers : List WorkerId
  allExact : Bool

def addEpochStats (getEpochStats : String → Option EpochStats) (totals : ScanTotals)
    (epoch : String × WorkerId) : ScanTotals :=
  let counted := match getEpochStats epoch.1 with
    | some stats => { totals with
        rows := totals.rows + stats.rows
        bytes := totals.bytes + stats.bytes
        allExact := totals.allExact && stats.statsSource.isExact }
    | none => { totals with allExact := false }
  if epoch.2 ∈ counted.workers then counted
  else { counted with workers := counted.workers ++ [epoch.2] }

/-- The statistics of a scan from those of its epochs. -/
def aggregateEpochs (getEpochStats : String → Option EpochStats)
    (epochs : List (String × WorkerId)) : ScanStats :=
  let totals := epochs.foldl (addEpochStats getEpochStats) ⟨0, 0, [], true⟩
  { rows := totals.rows
    bytes := totals.bytes
    workers := totals.workers
    statsSource :=
      if totals.allExact && !epochs.isEmpty then .exact
      else if !epochs.isEmpty then .estimated
      else .unknown }

structure InMemoryMetadata where
  epochs : String → Option (EpochStats × WorkerId)
  tableEpochs : String → Option (List (String × Option TimeRange))
  /-- Statistics of whole tables, which no registration of an epoch touches. -/
  tableStats : String → Option ScanStats

namespace InMemoryMetadata

def new : InMemoryMetadata := ⟨fun _ => none, fun _ => none, fun _ => none⟩

def addEpoch (m : InMemoryMetadata) (r : Registration) : InMemoryMetadata where
  epochs := Function.update m.epochs r.epochId (some (r.stats, r.worker))
  tableEpochs := Function.update m.tableEpochs r.table
    (some ((m.tableEpochs r.table).getD [] ++ [(r.epochId, r.timeRange)]))
  tableStats := m.tableStats

/-- `strip_prefix("scan_")` -/
def baseName (name : String) : Option String :=
  if "scan_".toList <+: name.toList then some (.ofList (name.toList.drop 5)) else none

variable (m : InMemoryMetadata)

def getEpochStats (epochId : String) : Option EpochStats := (m.epochs epochId).map (·.1)

def resolvedName (name : String) : String :=
  if (m.tableEpochs name).isSome then name
  else
    match baseName name with
    | some base => if (m.tableEpochs base).isSome then base else name
    | none => name

def inRange (startMs endMs : Option UInt64) : Option TimeRange → Bool
  | none => true
  | some (epochStart, epochEnd) =>
    (startMs.isNone && endMs.isNone) ||
      (decide (epochStart < endMs.getD endOfTime) && decide (startMs.getD 0 < epochEnd))

def getEpochsForTable (name : String) (startMs endMs : Option UInt64) : List (String × WorkerId) :=
  ((m.tableEpochs (m.resolvedName name)).getD []).filterMap fun entry =>
    if inRange startMs endMs entry.2 then (m.epochs entry.1).map fun e => (entry.1, e.2) else none

def getTableScanStats (name : String) : ScanStats :=
  match m.tableStats name with
  | some stats => stats
  | none =>
    match (baseName name).bind m.tableStats with
    | some stats => stats
    | none => aggregateEpochs m.getEpochStats (m.getEpochsForTable name none none)

end InMemoryMetadata

structure EpochPlacement where
  epochId : String
  datasetId : String
  workerId : WorkerId
  timeRange : TimeRange
  stats : EpochStats

namespace EpochPlacement

def ofRegistration (r : Registration) : EpochPlacement where
  epochId := r.epochId
  datasetId := r.table
  workerId := r.worker
  timeRange := r.timeRange.getD (0, endOfTime)
  stats := r.stats

def overlapsTimeRange (p : EpochPlacement) (startMs endMs : Option UInt64) : Bool :=
  decide (p.timeRange.1 < endMs.getD endOfTime) && decide (startMs.getD 0 < p.timeRange.2)

end EpochPlacement

structure ClusterMetadata where
  epochs : EpochKey → Option EpochPlacement
  datasetEpochs : String → Option (List String)

namespace ClusterMetadata

def new : ClusterMetadata := ⟨fun _ => none, fun _ => none⟩

def registerEpoch (m : ClusterMetadata) (p : EpochPlacement) : ClusterMetadata where
  epochs := Function.update m.epochs (p.datasetId, p.epochId) (some p)
  datasetEpochs := Function.update m.datasetEpochs p.datasetId
    (some ((m.datasetEpochs p.datasetId).getD [] ++ [p.epochId]))

variable (m : ClusterMetadata)

def epochsFor (datasetId : String) (startMs endMs : Option UInt64) : List (String × WorkerId) :=
  ((m.datasetEpochs datasetId).getD []).filterMap fun epochId =>
    (m.epochs (datasetId, epochId)).bind fun placement =>
      if placement.overlapsTimeRange startMs endMs then some (epochId, placement.workerId) else none

def isFor (epochId : String) (key : EpochKey) : Bool :=
  key.2 == epochId || key.1 ++ "__" ++ key.2 == epochId

/-- A way to go through the entries of the map. -/
structure IsOrder (order : List EpochKey) : Prop where
  nodup : order.Nodup
  complete : ∀ key, key ∈ order ↔ (m.epochs key).isSome = true

def getEpochStats (order : List EpochKey) (epochId : String) : Option EpochStats :=
  order.findSome? fun key =>
    if isFor epochId key then (m.epochs key).map (·.stats) else none

def getEpochsForTable (name : String) (startMs endMs : Option UInt64) :
    List (String × WorkerId) := m.epochsFor name startMs endMs

def getTableScanStats (order : List EpochKey) (name : String) : ScanStats :=
  aggregateEpochs (m.getEpochStats order) (m.getEpochsForTable name none none)

end ClusterMetadata

section Contents

def inMemory (regs : List Registration) : InMemoryMetadata :=
  regs.foldl InMemoryMetadata.addEpoch .new

def inCluster (regs : List Registration) : ClusterMetadata :=
  regs.foldl (fun m r => m.registerEpoch (.ofRegistration r)) .new

variable (regs : List Registration)

def lastById (epochId : String) : Option Registration := last (fun r => r.epochId == epochId) regs

def lastByKey (k : EpochKey) : Option Registration := last (fun r => key r.toEntry == k) regs

theorem inMemory_snoc (r : Registration) : inMemory (regs ++ [r]) = (inMemory regs).addEpoch r := by
  simp [inMemory]

theorem inCluster_snoc (r : Registration) :
    inCluster (regs ++ [r]) = (inCluster regs).registerEpoch (.ofRegistration r) := by
  simp [inCluster]

theorem inMemory_epochs (epochId : String) :
    (inMemory regs).epochs epochId = (lastById regs epochId).map fun r => (r.stats, r.worker) := by
  induction regs using reverseRecOn with
  | nil => rfl
  | append_singleton regs r ih =>
    rw [inMemory_snoc, lastById, last_snoc]
    by_cases h : r.epochId = epochId
    · simp [InMemoryMetadata.addEpoch, h]
    · have other : epochId ≠ r.epochId := Ne.symm h
      simp [InMemoryMetadata.addEpoch, h, other, ih, lastById]

theorem inMemory_tableStats (name : String) : (inMemory regs).tableStats name = none := by
  induction regs using reverseRecOn with
  | nil => rfl
  | append_singleton regs r ih =>
    rw [inMemory_snoc]
    exact ih

theorem inMemory_tableEpochs (table : String) :
    (inMemory regs).tableEpochs table =
      if regs.filter (·.table == table) = [] then none
      else some ((regs.filter (·.table == table)).map fun r => (r.epochId, r.timeRange)) := by
  induction regs using reverseRecOn with
  | nil => rfl
  | append_singleton regs r ih =>
    rw [inMemory_snoc, filter_append]
    by_cases h : r.table = table
    · subst h
      have one : [r].filter (·.table == r.table) = [r] := by simp
      simp only [InMemoryMetadata.addEpoch, Function.update_self, ih, one]
      split_ifs with hnil hnone
      · simp at hnone
      · simp [hnil]
      · simp at *
      · simp
    · have other : table ≠ r.table := Ne.symm h
      have none_new : [r].filter (·.table == table) = [] := by simp [h]
      simp only [InMemoryMetadata.addEpoch, Function.update_of_ne other, ih, none_new,
        append_nil]

attribute [local simp] EpochPlacement.ofRegistration ClusterMetadata.registerEpoch

theorem inCluster_epochs (k : EpochKey) :
    (inCluster regs).epochs k = (lastByKey regs k).map EpochPlacement.ofRegistration := by
  induction regs using reverseRecOn with
  | nil => rfl
  | append_singleton regs r ih =>
    rw [inCluster_snoc, lastByKey, last_snoc]
    by_cases h : key r.toEntry = k
    · have here : (r.table, r.epochId) = k := h
      simp [h, here]
    · have other : k ≠ (r.table, r.epochId) := Ne.symm h
      simp [h, other, ih, lastByKey]

theorem inCluster_datasetEpochs (table : String) :
    ((inCluster regs).datasetEpochs table).getD [] = listed (entries regs) table := by
  induction regs using reverseRecOn with
  | nil => rfl
  | append_singleton regs r ih =>
    rw [inCluster_snoc]
    by_cases h : r.table = table
    · subst h
      simp [ih, listed]
    · have other : table ≠ r.table := Ne.symm h
      simp [ih, listed, h, other]

end Contents

section Aggregates

variable (getEpochStats : String → Option EpochStats)

/-- What an epoch adds to a total. -/
def share (count : EpochStats → UInt64) (epochId : String) : Nat :=
  ((getEpochStats epochId).map fun stats => (count stats).toNat).getD 0

theorem addEpochStats_eq (totals : ScanTotals) (e : String × WorkerId) :
    (addEpochStats getEpochStats totals e).rows.toNat =
        (totals.rows.toNat + share getEpochStats (·.rows) e.1) % 2 ^ 64 ∧
      (addEpochStats getEpochStats totals e).bytes.toNat =
        (totals.bytes.toNat + share getEpochStats (·.bytes) e.1) % 2 ^ 64 ∧
      ∀ w, w ∈ (addEpochStats getEpochStats totals e).workers ↔ w ∈ totals.workers ∨ e.2 = w := by
  have rows := totals.rows.toNat_lt
  have bytes := totals.bytes.toNat_lt
  unfold addEpochStats share
  cases getEpochStats e.1 <;> by_cases h : e.2 ∈ totals.workers <;>
    simp [h, eq_comm, or_iff_left_of_imp, Nat.mod_eq_of_lt rows, Nat.mod_eq_of_lt bytes]

/-- The totals are those of the epochs, as far as 64 bits hold them. -/
theorem aggregateEpochs_eq (epochs : List (String × WorkerId)) :
    (aggregateEpochs getEpochStats epochs).rows.toNat =
        (epochs.map fun e => share getEpochStats (·.rows) e.1).sum % 2 ^ 64 ∧
      (aggregateEpochs getEpochStats epochs).bytes.toNat =
        (epochs.map fun e => share getEpochStats (·.bytes) e.1).sum % 2 ^ 64 ∧
      ∀ w, w ∈ (aggregateEpochs getEpochStats epochs).workers ↔ ∃ e ∈ epochs, e.2 = w := by
  have folded : ∀ totals : ScanTotals,
      (epochs.foldl (addEpochStats getEpochStats) totals).rows.toNat = (totals.rows.toNat +
          (epochs.map fun e => share getEpochStats (·.rows) e.1).sum) % 2 ^ 64 ∧
        (epochs.foldl (addEpochStats getEpochStats) totals).bytes.toNat = (totals.bytes.toNat +
          (epochs.map fun e => share getEpochStats (·.bytes) e.1).sum) % 2 ^ 64 ∧
        ∀ w, w ∈ (epochs.foldl (addEpochStats getEpochStats) totals).workers ↔
          w ∈ totals.workers ∨ ∃ e ∈ epochs, e.2 = w := by
    induction epochs with
    | nil =>
      intro totals
      simp [Nat.mod_eq_of_lt totals.rows.toNat_lt, Nat.mod_eq_of_lt totals.bytes.toNat_lt]
    | cons e epochs ih =>
      intro totals
      obtain ⟨rows, bytes, workers⟩ := ih (addEpochStats getEpochStats totals e)
      obtain ⟨row, byte, worker⟩ := addEpochStats_eq getEpochStats totals e
      refine ⟨?_, ?_, fun w => ?_⟩
      · rw [foldl_cons, rows, row, Nat.mod_add_mod, map_cons, sum_cons, Nat.add_assoc]
      · rw [foldl_cons, bytes, byte, Nat.mod_add_mod, map_cons, sum_cons, Nat.add_assoc]
      · simp only [foldl_cons, workers, worker, mem_cons, exists_eq_or_imp, or_assoc]
  simpa [aggregateEpochs] using folded ⟨0, 0, [], true⟩

end Aggregates

end Leibrix.EpochMetadata
