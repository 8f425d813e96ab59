import Leibrix.ScanMacro

/-!
# Datasets behind the keys of epochs

A committed epoch is known by one text made of its dataset and its id. Listings compare the
beginning of that text, and memory statistics take what stands before the first separator.
-/

set_option autoImplicit false

namespace Leibrix.EpochKeys
open EpochEngine ScanMacro List Option

/-- The first part of a text that is split at `__`. -/
def beforeSep : List Char → List Char
  | [] => []
  | '_' :: '_' :: _ => []
  | c::rest => c :: beforeSep rest

structure EpochMemoryStats where
  datasetId : String
  epochId : String
  rowsCount : Nat
  approxBytes : Nat
  deriving DecidableEq

structure MemoryStats where
  totalStorageBytesEstimate : Nat
  epochs : List EpochMemoryStats
  deriving DecidableEq

variable {ι : Type}

section Stats

/- `totalBytes` gives the sizes that the metadata of the keys record. -/
variable (totalBytes : String → Nat) (s : EngineState ι) (order : List String)

def onMemoryStats : MemoryStats :=
  let epochs := order.filterMap fun key =>
    (s.committed key).map fun (view, metadata) =>
      ⟨String.ofList (beforeSep key.toList), view.epochId, metadata.totalRows, totalBytes key⟩
  ⟨(epochs.map (·.approxBytes)).sum, epochs⟩

def getEpochStats (datasetId epochId : String) : Option (Nat × Nat) :=
  ((onMemoryStats totalBytes s order).epochs.find? fun e =>
    e.datasetId == datasetId && e.epochId == epochId).map fun e => (e.rowsCount, e.approxBytes)

end Stats

section Separators

/-- The key of the epoch holds the separator once. -/
def SoleSeparator (datasetId epochId : String) : Prop :=
  ¬ ['_', '_'] <:+: datasetId.toList ++ ['_'] ∧ ¬ ['_', '_'] <:+: '_' :: epochId.toList

instance (d e : String) : Decidable (SoleSeparator d e) := inferInstanceAs (Decidable (_ ∧ _))

theorem beforeSep_append {l : List Char} (h : ¬ ['_', '_'] <:+: l ++ ['_']) (rest : List Char) :
    beforeSep (l ++ '_' :: '_' :: rest) = l := by
  induction l with
  | nil => rfl
  | cons c l ih =>
    have tail : ¬ ['_', '_'] <:+: l ++ ['_'] := fun inside =>
      h (inside.trans (suffix_cons c _).isInfix)
    rw [cons_append, beforeSep, ih tail]
    -- two underscores at the front would be a separator inside the dataset
    rintro _ rfl front
    refine h (IsPrefix.isInfix ?_)
    cases l with
    | nil => exact ⟨[], rfl⟩
    | cons c' l =>
      cases front
      exact ⟨l ++ ['_'], rfl⟩

variable {d e : String}

theorem beforeSep_epochKey (h : SoleSeparator d e) :
    beforeSep (epochKey d e).toList = d.toList := by
  simpa [epochKey] using beforeSep_append h.1 e.toList

/-- A separator that is the only one stands where every separator stands. -/
theorem sole_place {d e l r : List Char} (before : ¬ ['_', '_'] <:+: d ++ ['_'])
    (after : ¬ ['_', '_'] <:+: '_' :: e) (same : l ++ '_' :: '_' :: r = d ++ '_' :: '_' :: e) :
    l = d := by
  obtain ⟨a, rfl, rest⟩ | ⟨a, rfl, rest⟩ := append_eq_append_iff.mp same
  · -- the dataset goes on behind this separator
    cases a with
    | nil => exact (append_nil l).symm
    | cons c a =>
      refine absurd ⟨l, (a ++ ['_']).tail, ?_⟩ before
      cases a with
      | nil =>
        obtain ⟨rfl, -⟩ := cons.inj rest
        simp
      | cons c' a =>
        obtain ⟨rfl, tail⟩ := cons.inj rest
        obtain ⟨rfl, -⟩ := cons.inj tail
        simp
  · cases a with
    | nil => exact append_nil d
    | cons c a =>
      refine absurd ⟨a, r, ?_⟩ after
      simp only [cons_append, cons.injEq] at rest
      rw [rest.2, append_assoc]
      rfl

theorem listsKey_iff (h : SoleSeparator d e) (d' : String) :
    listsKey d' (epochKey d e) = true ↔ d' = d := by
  constructor
  · intro lists
    obtain ⟨rest, eq⟩ := of_decide_eq_true lists
    refine String.toList_inj.mp (sole_place h.1 h.2 (r := rest) ?_)
    simpa [epochKey] using eq
  · rintro rfl
    exact listsKey_epochKey _ _

theorem sole_of_lists (h : ∀ d', listsKey d' (epochKey d e) = true → d' = d) :
    SoleSeparator d e := by
  have place {l r : List Char} (same : l ++ '_' :: '_' :: r = d.toList ++ '_' :: '_' :: e.toList) :
      l = d.toList := by
    have dataset := h (String.ofList l) (decide_eq_true ⟨r, by simpa [epochKey] using same⟩)
    rw [← dataset, String.toList_ofList]
  constructor
  · rintro ⟨l, r, inside⟩
    have here := place (l := l) (r := r ++ '_' :: e.toList) (by
      simpa using congrArg (· ++ '_' :: e.toList) inside)
    have lengths := congrArg length inside
    simp [here] at lengths
  · rintro ⟨l, r, inside⟩
    have here := place (l := d.toList ++ '_' :: l) (r := r) (by simpa using inside)
    have lengths := congrArg length here
    simp at lengths

theorem epochKey_injective {d' e' : String} (h : SoleSeparator d e) (h' : SoleSeparator d' e')
    (same : epochKey d e = epochKey d' e') : d = d' ∧ e = e' := by
  have dataset : d = d' := by
    apply String.toList_inj.mp
    rw [← beforeSep_epochKey h, ← beforeSep_epochKey h', same]
  subst dataset
  refine ⟨rfl, ?_⟩
  simpa [epochKey, ← String.toList_inj] using same

end Separators

section Committed

abbrev Pair : Type := String × EpochView × TableMetadata

def Pair.key (p : Pair) : String := epochKey p.1 p.2.1.epochId

variable (totalBytes : String → Nat) {s : EngineState ι} {order : List String} {pairs : List Pair}

/-- The engine has committed the pairs and nothing else, and its map is listed in some order. -/
structure Commits (s : EngineState ι) (order : List String) (pairs : List Pair) : Prop where
  whole : order.Perm (pairs.map Pair.key)
  entry : ∀ p ∈ pairs, s.committed p.key = some p.2

/-- Keys, listings and statistics attribute the epochs to their own datasets. -/
structure Attributed (s : EngineState ι) (order : List String) (pairs : List Pair) : Prop where
  keys : ∀ p ∈ pairs, ∀ q ∈ pairs, p.key = q.key → p.1 = q.1 ∧ p.2.1.epochId = q.2.1.epochId
  lists : ∀ d, (onListEpochs s order d).Perm
    ((pairs.filter fun p => p.1 = d).map fun p => p.2.1)
  stats : (onMemoryStats totalBytes s order).epochs.Perm
    (pairs.map fun p => ⟨p.1, p.2.1.epochId, p.2.2.totalRows, totalBytes p.key⟩)
  found : ∀ d e n bytes, getEpochStats totalBytes s order d e = some (n, bytes) ↔
    ∃ p ∈ pairs, p.1 = d ∧ p.2.1.epochId = e ∧ p.2.2.totalRows = n ∧ totalBytes p.key = bytes

theorem Commits.filterMap {α : Type} (h : Commits s order pairs) {f : String → Option α}
    {g : Pair → Option α} (same : ∀ p ∈ pairs, f p.key = g p) :
    (order.filterMap f).Perm (pairs.filterMap g) := by
  refine (h.whole.filterMap f).trans (.of_eq ?_)
  rw [filterMap_map]
  exact filterMap_congr same

theorem Commits.listed (h : Commits s order pairs) (d : String) :
    (onListEpochs s order d).Perm
      ((pairs.filter fun p => listsKey d p.key).map fun p => p.2.1) := by
  rw [← filterMap_eq_map, filterMap_filter]
  refine h.filterMap fun p hp => ?_
  simp only [h.entry p hp, Function.comp_apply]

/-- A listing that has just the dataset's own epochs takes no other key for one of them. -/
theorem Commits.lists_own (h : Commits s order pairs)
    (own : ∀ d, (onListEpochs s order d).Perm
      ((pairs.filter fun p => p.1 = d).map fun p => p.2.1))
    {p : Pair} (hp : p ∈ pairs) {d : String} (lists : listsKey d p.key = true) : d = p.1 := by
  have fewer : (pairs.filter fun p => p.1 = d).Sublist
      (pairs.filter fun p => listsKey d p.key) := by
    refine monotone_filter_right pairs fun q hq => ?_
    rw [← of_decide_eq_true hq]
    exact listsKey_epochKey _ _
  have lengths := ((own d).symm.trans (h.listed d)).length_eq
  rw [length_map, length_map] at lengths
  have mem : p ∈ pairs.filter fun p => listsKey d p.key := mem_filter.mpr ⟨hp, lists⟩
  rw [← fewer.eq_of_length lengths] at mem
  exact (of_decide_eq_true (mem_filter.mp mem).2).symm

variable (h : Commits s order pairs)
  (sole : ∀ p ∈ pairs, SoleSeparator p.1 p.2.1.epochId)
include h sole

theorem onListEpochs_perm (d : String) :
    (onListEpochs s order d).Perm ((pairs.filter fun p => p.1 = d).map fun p => p.2.1) := by
  refine (h.listed d).trans (.of_eq (congrArg _ (filter_congr fun p hp => ?_)))
  rw [Bool.eq_iff_iff, Pair.key, listsKey_iff (sole p hp), decide_eq_true_eq, eq_comm]

theorem onMemoryStats_perm :
    (onMemoryStats totalBytes s order).epochs.Perm
      (pairs.map fun p => ⟨p.1, p.2.1.epochId, p.2.2.totalRows, totalBytes p.key⟩) := by
  rw [← filterMap_eq_map]
  refine h.filterMap fun p hp => ?_
  simp only [h.entry p hp]
  simp only [Pair.key, beforeSep_epochKey (sole p hp), String.ofList_toList]
  rfl

theorem pair_of_getEpochStats {d e : String} {n bytes : Nat}
    (found : getEpochStats totalBytes s order d e = some (n, bytes)) :
    ∃ p ∈ pairs, p.1 = d ∧ p.2.1.epochId = e ∧ p.2.2.totalRows = n ∧
      totalBytes p.key = bytes := by
  obtain ⟨x, hx, sizes⟩ := map_eq_some_iff.mp found
  have listed := (onMemoryStats_perm totalBytes h sole).mem_iff.mp (mem_of_find?_eq_some hx)
  obtain ⟨p, hp, rfl⟩ := List.mem_map.mp listed
  have matched := find?_some hx
  simp only [Bool.and_eq_true, beq_iff_eq] at matched
  simp only [Prod.mk.injEq] at sizes
  exact ⟨p, hp, matched.1, matched.2, sizes⟩

theorem getEpochStats_isSome {p : Pair} (hp : p ∈ pairs) :
    (getEpochStats totalBytes s order p.1 p.2.1.epochId).isSome := by
  have listed := (onMemoryStats_perm totalBytes h sole).mem_iff.mpr (List.mem_map_of_mem hp)
  rw [getEpochStats, isSome_map, find?_isSome]
  exact ⟨_, listed, by simp⟩

omit h sole

/-- Every epoch is attributed to its own dataset, whatever dataset is asked for, exactly if no
key holds the separator twice. -/
theorem epochs_attributed_iff (h : Commits s order pairs) :
    Attributed totalBytes s order pairs ↔ ∀ p ∈ pairs, SoleSeparator p.1 p.2.1.epochId := by
  constructor
  · intro attributed p hp
    exact sole_of_lists fun d lists => h.lists_own attributed.lists hp lists
  intro sole
  refine ⟨fun p hp q hq => epochKey_injective (sole p hp) (sole q hq),
    onListEpochs_perm h sole, onMemoryStats_perm totalBytes h sole, fun d e n bytes => ?_⟩
  refine ⟨pair_of_getEpochStats totalBytes h sole, ?_⟩
  rintro ⟨p, hp, rfl, rfl, rfl, rfl⟩
  obtain ⟨⟨n, bytes⟩, found⟩ :=
    isSome_iff_exists.mp (getEpochStats_isSome totalBytes h sole hp)
  obtain ⟨q, hq, dataset, epoch, rows, sizes⟩ := pair_of_getEpochStats totalBytes h sole found
  -- the pair that was found has the key of the one asked for
  have key : q.key = p.key := by rw [Pair.key, Pair.key, dataset, epoch]
  have same : q.2 = p.2 := Option.some.inj ((h.entry q hq).symm.trans (key ▸ h.entry p hp))
  rw [found, ← rows, ← sizes, same, key]

def committedPairs (pairs : List Pair) : EngineState Unit :=
  { EngineState.fresh Unit with
    committed := fun key => (pairs.find? (·.key == key)).map (·.2) }

theorem epochs_attributed_iff_two :
    Attributed (fun _ => 40)
      (committedPairs [("a_b", ⟨"c_d", "t"⟩, ⟨"t", 7, []⟩), ("a", ⟨"c_d", "u"⟩, ⟨"u", 2, []⟩)])
      ["a__c_d", "a_b__c_d"]
      [("a_b", ⟨"c_d", "t"⟩, ⟨"t", 7, []⟩), ("a", ⟨"c_d", "u"⟩, ⟨"u", 2, []⟩)] :=
  (epochs_attributed_iff (fun _ => 40) ⟨by decide, by decide⟩).mpr (by decide)

/-- The epoch `c` of the dataset `a__b` has the key of the epoch `b__c` of `a`. It is listed for
`a`, counted for `a`, and not found. -/
theorem epoch_of_other_dataset :
    epochKey "a__b" "c" = epochKey "a" "b__c" ∧
    onListEpochs (committedPairs [("a__b", ⟨"c", "t"⟩, ⟨"t", 7, []⟩)]) ["a__b__c"] "a" =
      [⟨"c", "t"⟩] ∧
    onMemoryStats (fun _ => 40) (committedPairs [("a__b", ⟨"c", "t"⟩, ⟨"t", 7, []⟩)])
      ["a__b__c"] = ⟨40, [⟨"a", "c", 7, 40⟩]⟩ ∧
    getEpochStats (fun _ => 40) (committedPairs [("a__b", ⟨"c", "t"⟩, ⟨"t", 7, []⟩)])
      ["a__b__c"] "a__b" "c" = none := by
  decide +kernel

end Committed

end Leibrix.EpochKeys
