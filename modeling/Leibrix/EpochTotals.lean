import Leibrix.EpochMetadata

/-!
# What the providers report

Registrations of given entries differ in their statistics and workers. Whatever these are, both
providers report of a table the totals over its distinct epochs, each as last registered for
the table, exactly if each of them finds every epoch once and takes no other entry for one.
-/

set_option autoImplicit false

namespace Leibrix.EpochTotals
open EpochMetadata List Option Function

variable {named : List Entry} {regs : List Registration} {name table epochId : String}
  {order : List EpochKey}

section Entries

def entryById (named : List Entry) (epochId : String) : Option Entry :=
  last (fun n => n.epochId == epochId) named

def entryByKey (named : List Entry) (k : EpochKey) : Option Entry :=
  last (fun n => key n == k) named

/-- The name under which the provider in memory looks for epochs. -/
def resolve (named : List Entry) (name : String) : String :=
  if listed named name ≠ [] then name
  else
    match InMemoryMetadata.baseName name with
    | some base => if listed named base ≠ [] then base else name
    | none => name

/-- The range that is kept for an entry has an instant in it, as far as can be told. -/
def covers (n : Entry) : Bool :=
  decide ((n.timeRange.getD (0, endOfTime)).1 < endOfTime) &&
    decide (0 < (n.timeRange.getD (0, endOfTime)).2)

/-- The epochs that the provider of a cluster finds under a name. -/
def timed (named : List Entry) (table : String) : List String :=
  (listed named table).filter fun e => (entryByKey named (table, e)).any covers

theorem mem_listed : epochId ∈ listed named table ↔ ∃ n ∈ named, key n = (table, epochId) := by
  simp [listed, key, and_assoc]

theorem listed_entries (regs : List Registration) (table : String) :
    listed (entries regs) table = (regs.filter (·.table == table)).map (·.epochId) := by
  rw [listed, List.filter_map, List.map_map]
  rfl

theorem mem_timed (h : epochId ∈ timed named table) : epochId ∈ listed named table :=
  (mem_filter.mp h).1

variable {n : Entry} {k : EpochKey}

theorem exists_last_of_mem {p : Entry → Bool} (hn : n ∈ named) (hp : p n = true) :
    ∃ n', last p named = some n' := by
  obtain ⟨a, n', b, hsplit, hn', hb⟩ := exists_last ⟨n, hn, hp⟩
  exact ⟨n', last_eq_some_iff.mpr ⟨a, b, hsplit, hn', hb⟩⟩

theorem exists_entryById (h : epochId ∈ listed named table) :
    ∃ n, entryById named epochId = some n := by
  obtain ⟨n, hn, hkey⟩ := mem_listed.mp h
  exact exists_last_of_mem hn (beq_iff_eq.mpr (congrArg Prod.snd hkey))

theorem exists_entryByKey (h : ∃ n ∈ named, key n = k) : ∃ n, entryByKey named k = some n := by
  obtain ⟨n, hn, hkey⟩ := h
  exact exists_last_of_mem hn (beq_iff_eq.mpr hkey)

theorem entryById_id (h : entryById named epochId = some n) : n.epochId = epochId := by
  obtain ⟨a, b, -, hid, -⟩ := last_eq_some_iff.mp h
  exact beq_iff_eq.mp hid

theorem entryByKey_key (h : entryByKey named k = some n) : key n = k := by
  obtain ⟨a, b, -, hkey, -⟩ := last_eq_some_iff.mp h
  exact beq_iff_eq.mp hkey

theorem last_map {ρ σ : Type} (f : ρ → σ) (p : σ → Bool) (l : List ρ) :
    last p (l.map f) = (last (fun r => p (f r)) l).map f := by
  rw [last, List.filter_map, getLast?_map]
  rfl

theorem entryById_eq (regs : List Registration) (epochId : String) :
    entryById (entries regs) epochId = (lastById regs epochId).map (·.toEntry) :=
  last_map ..

theorem entryByKey_eq (regs : List Registration) (k : EpochKey) :
    entryByKey (entries regs) k = (lastByKey regs k).map (·.toEntry) :=
  last_map ..

theorem exists_lastById (h : epochId ∈ listed (entries regs) table) :
    ∃ r, lastById regs epochId = some r := by
  obtain ⟨n, hn⟩ := exists_entryById h
  rw [entryById_eq] at hn
  obtain ⟨r, hr, -⟩ := map_eq_some_iff.mp hn
  exact ⟨r, hr⟩

theorem exists_lastByKey (h : epochId ∈ listed (entries regs) table) :
    ∃ r, lastByKey regs (table, epochId) = some r := by
  obtain ⟨n, hn⟩ := exists_entryByKey (mem_listed.mp h)
  rw [entryByKey_eq] at hn
  obtain ⟨r, hr, -⟩ := map_eq_some_iff.mp hn
  exact ⟨r, hr⟩

end Entries

section Reports

variable {pick place : String → Option Registration} {epochIds : List String} {stats : ScanStats}

theorem resolvedName_eq (regs : List Registration) (name : String) :
    (inMemory regs).resolvedName name = resolve (entries regs) name := by
  have known : ∀ table, ((inMemory regs).tableEpochs table).isSome =
      decide (listed (entries regs) table ≠ []) := by
    intro table
    rw [inMemory_tableEpochs]
    split_ifs with h <;> simp [listed_entries, h]
  unfold InMemoryMetadata.resolvedName resolve
  cases InMemoryMetadata.baseName name <;> simp only [known, decide_eq_true_eq]

theorem tableEpochs_listed (regs : List Registration) (table : String) :
    (((inMemory regs).tableEpochs table).getD []).map (·.1) = listed (entries regs) table := by
  rw [inMemory_tableEpochs, listed_entries]
  split_ifs with h <;> simp [h]

def total (pick : String → Option Registration) (count : EpochStats → UInt64)
    (epochIds : List String) : Nat :=
  (epochIds.map fun e => ((pick e).map fun r => (count r.stats).toNat).getD 0).sum

/-- The totals over what `pick` finds for the epochs, as far as 64 bits hold them, and the workers
of what `place` finds. -/
structure Sums (pick place : String → Option Registration) (epochIds : List String)
    (stats : ScanStats) : Prop where
  rows : stats.rows.toNat = total pick (·.rows) epochIds % 2 ^ 64
  bytes : stats.bytes.toNat = total pick (·.bytes) epochIds % 2 ^ 64
  workers : ∀ w, w ∈ stats.workers ↔ ∃ e ∈ epochIds, ∃ r, place e = some r ∧ r.worker = w

theorem aggregateEpochs_sums {getEpochStats : String → Option EpochStats}
    (hpick : ∀ e ∈ epochIds, getEpochStats e = (pick e).map (·.stats))
    (hplace : ∀ e ∈ epochIds, ∃ r, place e = some r) :
    Sums pick place epochIds (aggregateEpochs getEpochStats
      (epochIds.filterMap fun e => (place e).map fun r => (e, r.worker))) := by
  have found : (epochIds.filterMap fun e => (place e).map fun r => (e, r.worker)) =
      epochIds.map fun e => (e, ((place e).map (·.worker)).getD "") := by
    rw [← filterMap_eq_map]
    refine filterMap_congr fun e he => ?_
    obtain ⟨r, hr⟩ := hplace e he
    simp [hr]
  have summed : ∀ count : EpochStats → UInt64,
      ((epochIds.map fun e => (e, ((place e).map (·.worker)).getD "")).map
        fun e => share getEpochStats count e.1).sum = total pick count epochIds := by
    intro count
    rw [List.map_map]
    exact congrArg _ (map_congr_left fun e he => by simp [share, hpick e he, comp_def])
  obtain ⟨rows, bytes, workers⟩ := aggregateEpochs_eq getEpochStats
    (epochIds.map fun e => (e, ((place e).map (·.worker)).getD ""))
  rw [found]
  refine ⟨by rw [rows, summed], by rw [bytes, summed], fun w => ?_⟩
  rw [workers]
  simp only [List.mem_map, exists_exists_and_eq_and]
  refine exists_congr fun e => and_congr_right fun he => ?_
  obtain ⟨r, hr⟩ := hplace e he
  simp [hr]

theorem inMemory_sums (regs : List Registration) (name : String) :
    Sums (lastById regs) (lastById regs) (listed (entries regs) (resolve (entries regs) name))
      ((inMemory regs).getTableScanStats name) := by
  have none_base : (InMemoryMetadata.baseName name).bind (inMemory regs).tableStats = none := by
    cases InMemoryMetadata.baseName name <;> simp [inMemory_tableStats]
  have epochs : (inMemory regs).getEpochsForTable name none none =
      (listed (entries regs) (resolve (entries regs) name)).filterMap fun e =>
        (lastById regs e).map fun r => (e, r.worker) := by
    have all : ∀ range, InMemoryMetadata.inRange none none range = true := by
      intro range
      cases range <;> rfl
    rw [← tableEpochs_listed, InMemoryMetadata.getEpochsForTable, resolvedName_eq,
      filterMap_map]
    simp only [all, if_true, inMemory_epochs, Option.map_map, comp_def]
  rw [InMemoryMetadata.getTableScanStats, inMemory_tableStats, none_base, epochs]
  refine aggregateEpochs_sums (fun e _ => ?_) fun e he => exists_lastById he
  rw [InMemoryMetadata.getEpochStats, inMemory_epochs, Option.map_map]
  rfl

def matched (order : List EpochKey) (name epochId : String) : EpochKey :=
  (order.find? (ClusterMetadata.isFor epochId)).getD (name, epochId)

theorem isFor_own (table epochId : String) :
    ClusterMetadata.isFor epochId (table, epochId) = true := by
  simp [ClusterMetadata.isFor]

theorem isSome_epochs (regs : List Registration) (k : EpochKey) :
    ((inCluster regs).epochs k).isSome = true ↔ ∃ n ∈ entries regs, key n = k := by
  rw [inCluster_epochs, isSome_map, ← isSome_map, ← entryByKey_eq]
  constructor
  · intro h
    obtain ⟨n, hn⟩ := isSome_iff_exists.mp h
    obtain ⟨a, b, hsplit, hk, -⟩ := last_eq_some_iff.mp hn
    exact ⟨n, by simp [hsplit], beq_iff_eq.mp hk⟩
  · intro h
    exact isSome_iff_exists.mpr (exists_entryByKey h)

/-- Every key of the entries, once. -/
structure Ordered (named : List Entry) (order : List EpochKey) : Prop where
  nodup : order.Nodup
  complete : ∀ k, k ∈ order ↔ ∃ n ∈ named, key n = k

theorem isOrder_iff : (inCluster regs).IsOrder order ↔ Ordered (entries regs) order := by
  constructor
  · intro h
    exact ⟨h.nodup, fun k => (h.complete k).trans (isSome_epochs regs k)⟩
  · intro h
    exact ⟨h.nodup, fun k => (h.complete k).trans (isSome_epochs regs k).symm⟩

theorem findSome?_first {α β : Type} {p : α → Bool} {g : α → Option β} {l : List α} {k : α}
    (hk : l.find? p = some k) (hg : ∀ x ∈ l, (g x).isSome = true) :
    (l.findSome? fun x => if p x then g x else none) = g k := by
  induction l with
  | nil => simp at hk
  | cons x l ih =>
    cases hx : p x with
    | true =>
      rw [find?_cons_of_pos hx] at hk
      have same : x = k := Option.some.inj hk
      subst same
      obtain ⟨y, hy⟩ := isSome_iff_exists.mp (hg x mem_cons_self)
      simp [hx, hy]
    | false =>
      rw [find?_cons_of_neg (by simp [hx])] at hk
      simpa [hx] using ih hk fun y hy => hg y (mem_cons_of_mem _ hy)

theorem find?_matched (horder : Ordered named order) (he : epochId ∈ listed named name) :
    order.find? (ClusterMetadata.isFor epochId) = some (matched order name epochId) := by
  have present : (order.find? (ClusterMetadata.isFor epochId)).isSome := by
    rw [find?_isSome]
    exact ⟨(name, epochId), (horder.complete _).mpr (mem_listed.mp he), isFor_own name epochId⟩
  obtain ⟨k, hk⟩ := isSome_iff_exists.mp present
  rw [matched, hk, getD_some]

theorem inCluster_sums (horder : (inCluster regs).IsOrder order) (name : String) :
    Sums (fun e => lastByKey regs (matched order name e)) (fun e => lastByKey regs (name, e))
      (timed (entries regs) name) ((inCluster regs).getTableScanStats order name) := by
  have epochs : (inCluster regs).getEpochsForTable name none none =
      (timed (entries regs) name).filterMap fun e =>
        (lastByKey regs (name, e)).map fun r => (e, r.worker) := by
    rw [ClusterMetadata.getEpochsForTable, ClusterMetadata.epochsFor, inCluster_datasetEpochs,
      timed, filterMap_filter]
    refine filterMap_congr fun e _ => ?_
    rw [inCluster_epochs, entryByKey_eq]
    cases lastByKey regs (name, e) with
    | none => simp
    | some r =>
      have same : (EpochPlacement.ofRegistration r).overlapsTimeRange none none =
          covers r.toEntry := rfl
      cases h : covers r.toEntry <;> simp [same, h]
      rfl
  rw [ClusterMetadata.getTableScanStats, epochs]
  refine aggregateEpochs_sums (fun e he => ?_) fun e he => exists_lastByKey (mem_timed he)
  have split : (inCluster regs).getEpochStats order e =
      ((inCluster regs).epochs (matched order name e)).map (·.stats) :=
    findSome?_first (find?_matched (isOrder_iff.mp horder) (mem_timed he)) fun x hx => by
      rw [isSome_map]
      exact (horder.complete x).mp hx
  rw [split, inCluster_epochs, Option.map_map]
  rfl

end Reports

/-- The totals over the distinct epochs of a table, each as last registered for it. -/
structure Reported (regs : List Registration) (table : String) (stats : ScanStats) : Prop where
  rows : stats.rows.toNat =
    total (fun e => lastByKey regs (table, e)) (·.rows) (listed (entries regs) table).dedup
  bytes : stats.bytes.toNat =
    total (fun e => lastByKey regs (table, e)) (·.bytes) (listed (entries regs) table).dedup
  workers : ∀ w, w ∈ stats.workers ↔
    ∃ e ∈ listed (entries regs) table, ∃ r, lastByKey regs (table, e) = some r ∧ r.worker = w

/-- The totals of a table are numbers of 64 bits. -/
def Fits (regs : List Registration) (table : String) : Prop :=
  ∀ count ∈ [EpochStats.rows, EpochStats.bytes],
    total (fun e => lastByKey regs (table, e)) count (listed (entries regs) table).dedup < 2 ^ 64

def SameTotals (stats stats' : ScanStats) : Prop :=
  stats.rows = stats'.rows ∧ stats.bytes = stats'.bytes ∧
    ∀ w, w ∈ stats.workers ↔ w ∈ stats'.workers

/-- Each epoch of the table is found once, and was last registered for the table. -/
structure MemoryRight (named : List Entry) (found table : String) : Prop where
  once : (listed named found).Nodup
  same : ∀ e, e ∈ listed named found ↔ e ∈ listed named table
  own : ∀ e ∈ listed named table, ∀ n, entryById named e = some n → n.table = table

def Unmistakable (named : List Entry) (table epochId : String) : Prop :=
  ∀ n ∈ named, ClusterMetadata.isFor epochId (key n) = true → key n = (table, epochId)

/-- Each epoch of the table is found once, and no other entry is taken for it. -/
structure ClusterRight (named : List Entry) (name table : String) : Prop where
  once : (timed named name).Nodup
  same : ∀ e, e ∈ timed named name ↔ e ∈ listed named table
  own : ∀ e ∈ listed named table, Unmistakable named table e

theorem matched_of_unmistakable (horder : Ordered named order)
    (h : Unmistakable named table epochId) : matched order table epochId = (table, epochId) := by
  rw [matched]
  cases hfind : order.find? (ClusterMetadata.isFor epochId) with
  | none => rfl
  | some k =>
    obtain ⟨n, hn, rfl⟩ := (horder.complete k).mp (mem_of_find?_eq_some hfind)
    exact h n hn (find?_some hfind)

theorem Sums.reported {pick place : String → Option Registration} {epochIds : List String}
    {stats : ScanStats} (h : Sums pick place epochIds stats) (fits : Fits regs table)
    (hperm : epochIds.Perm (listed (entries regs) table).dedup)
    (hpick : ∀ e ∈ epochIds, pick e = lastByKey regs (table, e))
    (hplace : ∀ e ∈ epochIds, place e = lastByKey regs (table, e)) :
    Reported regs table stats := by
  have summed : ∀ count, total pick count epochIds = total (fun e => lastByKey regs (table, e))
      count (listed (entries regs) table).dedup := by
    intro count
    rw [total, total, ← (hperm.map _).sum_eq]
    exact congrArg _ (map_congr_left fun e he => by rw [hpick e he])
  refine ⟨?_, ?_, fun w => ?_⟩
  · rw [h.rows, summed, Nat.mod_eq_of_lt (fits _ (by simp))]
  · rw [h.bytes, summed, Nat.mod_eq_of_lt (fits _ (by simp))]
  · rw [h.workers]
    refine exists_congr fun e => ?_
    rw [← mem_dedup (l := listed (entries regs) table), ← hperm.mem_iff]
    exact and_congr_right fun he => by rw [hplace e he]

theorem lastById_eq (he : epochId ∈ listed (entries regs) table)
    (hown : ∀ n, entryById (entries regs) epochId = some n → n.table = table) :
    lastById regs epochId = lastByKey regs (table, epochId) := by
  obtain ⟨r, hr⟩ := exists_lastById he
  have htable := hown r.toEntry (by rw [entryById_eq, hr]; rfl)
  obtain ⟨a, b, hsplit, hre, hb⟩ := last_eq_some_iff.mp hr
  rw [hr, eq_comm]
  refine last_eq_some_iff.mpr ⟨a, b, hsplit, ?_, fun x hx => ?_⟩
  · simpa [key, htable] using hre
  · have other := hb x hx
    simp only [beq_eq_false_iff_ne, ne_eq] at other
    simp [key, other]

theorem perm_dedup {found known : List String} (once : found.Nodup)
    (same : ∀ e, e ∈ found ↔ e ∈ known) : found.Perm known.dedup := by
  rw [perm_ext_iff_of_nodup once (nodup_dedup _)]
  intro e
  rw [same, mem_dedup]

theorem reported_of_memoryRight (fits : Fits regs table)
    (h : MemoryRight (entries regs) (resolve (entries regs) name) table) :
    Reported regs table ((inMemory regs).getTableScanStats name) := by
  have own : ∀ e ∈ listed (entries regs) (resolve (entries regs) name),
      lastById regs e = lastByKey regs (table, e) :=
    fun e he => lastById_eq ((h.same e).mp he) (h.own e ((h.same e).mp he))
  exact (inMemory_sums regs name).reported fits (perm_dedup h.once h.same) own own

theorem reported_of_clusterRight (fits : Fits regs table)
    (h : ClusterRight (entries regs) name table) (horder : (inCluster regs).IsOrder order) :
    Reported regs table ((inCluster regs).getTableScanStats order name) := by
  -- an epoch found under another name would be taken for one of the table
  have called : ∀ e ∈ timed (entries regs) name, name = table := by
    intro e he
    obtain ⟨n, hn, hkey⟩ := mem_listed.mp (mem_timed he)
    have same := h.own e ((h.same e).mp he) n hn (hkey ▸ isFor_own name e)
    exact congrArg Prod.fst (hkey.symm.trans same)
  have pick : ∀ e ∈ timed (entries regs) name,
      lastByKey regs (matched order name e) = lastByKey regs (table, e) := by
    intro e he
    have own := h.own e ((h.same e).mp he)
    have heq := called e he
    rw [heq, matched_of_unmistakable (isOrder_iff.mp horder) own]
  exact (inCluster_sums horder name).reported fits (perm_dedup h.once h.same) pick
    fun e he => by rw [called e he]

section Telling

variable {pick : String → Option Entry} {k : EpochKey} {epochIds : List String}

/-- The registration of an entry that has one row if it is for the epoch `k`, and none otherwise. -/
def counted (k : EpochKey) (n : Entry) : Registration where
  toEntry := n
  stats := ⟨if key n = k then 1 else 0, 0, .exact⟩
  worker := ""

def hits (pick : String → Option Entry) (k : EpochKey) (epochId : String) : Bool :=
  (pick epochId).any (key · == k)

theorem hits_iff : hits pick k epochId = true ↔ ∃ n, pick epochId = some n ∧ key n = k := by
  cases h : pick epochId <;> simp [hits, h]

theorem entries_counted (k : EpochKey) (named : List Entry) :
    entries (named.map (counted k)) = named := by
  simp [entries, comp_def, counted]

theorem lastById_counted (epochId : String) :
    lastById (named.map (counted k)) epochId = (entryById named epochId).map (counted k) :=
  last_map ..

theorem lastByKey_counted (k' : EpochKey) :
    lastByKey (named.map (counted k)) k' = (entryByKey named k').map (counted k) :=
  last_map ..

theorem rows_counted (pick : String → Option Entry) (epochIds : List String) :
    total (fun e => (pick e).map (counted k)) (·.rows) epochIds =
      epochIds.countP (hits pick k) := by
  induction epochIds with
  | nil => rfl
  | cons e epochIds ih =>
    rw [total, map_cons, sum_cons, ← total, ih, countP_cons, Nat.add_comm]
    congr 1
    cases h : pick e with
    | none => simp [hits, h]
    | some n => by_cases hkey : key n = k <;> simp [hits, h, counted, hkey]

theorem bytes_counted (pick : String → Option Entry) (epochIds : List String) :
    total (fun e => (pick e).map (counted k)) (·.bytes) epochIds = 0 := by
  induction epochIds with
  | nil => rfl
  | cons e epochIds ih =>
    rw [total, map_cons, sum_cons, ← total, ih]
    cases pick e <;> simp [counted]

theorem hits_own (h : hits (fun e => entryByKey named (table, e)) k epochId = true) :
    k = (table, epochId) := by
  obtain ⟨n, hn, rfl⟩ := hits_iff.mp h
  exact entryByKey_key hn

/-- Among the distinct epochs of a table, an epoch is counted at most once. -/
theorem countP_own_le (k : EpochKey) (named : List Entry) (table : String) :
    (listed named table).dedup.countP (hits (fun e => entryByKey named (table, e)) k) ≤ 1 := by
  have once : (listed named table).dedup.count k.2 ≤ 1 :=
    nodup_iff_count_le_one.mp (nodup_dedup _) k.2
  refine Nat.le_trans (countP_mono_left fun e _ h => ?_) once
  rw [hits_own h, beq_iff_eq]

theorem nodup_of_countP (h : ∀ e ∈ epochIds, ∃ p, p e = true ∧ epochIds.countP p ≤ 1) :
    epochIds.Nodup := by
  refine nodup_iff_count_le_one.mpr fun e => ?_
  by_cases he : e ∈ epochIds
  · obtain ⟨p, hp, few⟩ := h e he
    refine Nat.le_trans (countP_mono_left fun e' _ same => ?_) few
    rw [beq_iff_eq.mp same]
    exact hp
  · rw [count_eq_zero_of_not_mem he]
    omega

theorem fits_counted (k : EpochKey) (named : List Entry) (table : String) :
    Fits (named.map (counted k)) table := by
  have few := countP_own_le k named table
  intro count hcount
  simp only [lastByKey_counted, entries_counted]
  simp only [mem_cons, not_mem_nil, or_false] at hcount
  rcases hcount with rfl | rfl
  · rw [rows_counted]
    omega
  · rw [bytes_counted]
    omega

/-- If a report is right, the epochs it found hit an epoch as often as those of the table. -/
theorem countP_of_reported {stats : ScanStats} {place : String → Option Registration}
    (short : epochIds.length < 2 ^ 64)
    (sums : Sums (fun e => (pick e).map (counted k)) place epochIds stats)
    (reported : Reported (named.map (counted k)) table stats) :
    epochIds.countP (hits pick k) =
      (listed named table).dedup.countP (hits (fun e => entryByKey named (table, e)) k) := by
  have rows := sums.rows.symm.trans reported.rows
  simp only [lastByKey_counted, entries_counted, rows_counted] at rows
  have few : epochIds.countP (hits pick k) ≤ epochIds.length := countP_le_length
  rwa [Nat.mod_eq_of_lt (by omega)] at rows

/-- What it takes for the epochs found to hit every epoch as often as those of the table. -/
structure Exact (named : List Entry) (table : String) (pick : String → Option Entry)
    (epochIds : List String) (k : EpochKey) : Prop where
  only : ∀ e ∈ epochIds, hits pick k e = true → k.1 = table ∧ k.2 ∈ listed named table
  atMost : epochIds.countP (hits pick k) ≤ 1
  some : k.1 = table → k.2 ∈ listed named table → ∃ e ∈ epochIds, hits pick k e = true

theorem exact_of_countP (h : epochIds.countP (hits pick k) =
      (listed named table).dedup.countP (hits (fun e => entryByKey named (table, e)) k)) :
    Exact named table pick epochIds k where
  only e he hit := by
    have positive : 0 < epochIds.countP (hits pick k) := countP_pos_iff.mpr ⟨e, he, hit⟩
    rw [h] at positive
    obtain ⟨e', he', hit'⟩ := countP_pos_iff.mp positive
    rw [hits_own hit']
    exact ⟨rfl, mem_dedup.mp he'⟩
  atMost := by
    rw [h]
    exact countP_own_le k named table
  some := by
    obtain ⟨table', e⟩ := k
    rintro rfl he
    obtain ⟨n, hn⟩ := exists_entryByKey (mem_listed.mp he)
    rw [← countP_pos_iff, h, countP_pos_iff]
    exact ⟨e, mem_dedup.mpr he, hits_iff.mpr ⟨n, hn, entryByKey_key hn⟩⟩

theorem memoryRight_of_exact {found : String}
    (h : ∀ k, Exact named table (entryById named) (listed named found) k) :
    MemoryRight named found table := by
  have here : ∀ e n, entryById named e = some n → hits (entryById named) (key n) e = true :=
    fun e n hn => hits_iff.mpr ⟨n, hn, rfl⟩
  have own : ∀ e ∈ listed named table, e ∈ listed named found ∧
      ∀ n, entryById named e = some n → n.table = table := by
    intro e he
    obtain ⟨e', he', hit⟩ := (h (table, e)).some rfl he
    obtain ⟨n, hn, hkey⟩ := hits_iff.mp hit
    have same : e' = e := (entryById_id hn).symm.trans (congrArg Prod.snd hkey)
    subst same
    refine ⟨he', fun n' hn' => ?_⟩
    rw [hn] at hn'
    cases hn'
    exact congrArg Prod.fst hkey
  refine ⟨nodup_of_countP fun e he => ?_, fun e => ⟨fun he => ?_, fun he => (own e he).1⟩,
    fun e he => (own e he).2⟩
  · obtain ⟨n, hn⟩ := exists_entryById he
    exact ⟨_, here e n hn, (h (key n)).atMost⟩
  · obtain ⟨n, hn⟩ := exists_entryById he
    have listed := ((h (key n)).only e he (here e n hn)).2
    rwa [key, entryById_id hn] at listed

/-- An order of the entries that begins with `k`. -/
def first (named : List Entry) (k : EpochKey) : List EpochKey := k :: (named.map key).dedup.erase k

theorem ordered_first (hk : ∃ n ∈ named, key n = k) : Ordered named (first named k) where
  nodup := nodup_cons.mpr ⟨(nodup_dedup _).not_mem_erase, (nodup_dedup _).erase k⟩
  complete k' := by
    rw [first, mem_cons, (nodup_dedup _).mem_erase_iff, mem_dedup,
      List.mem_map]
    constructor
    · rintro (rfl | ⟨-, h⟩)
      · exact hk
      · exact h
    · intro h
      by_cases same : k' = k
      · exact .inl same
      · exact .inr ⟨same, h⟩

theorem matched_first (hk : ClusterMetadata.isFor epochId k = true) :
    matched (first named k) name epochId = k := by
  rw [matched, first, find?_cons_of_pos hk, getD_some]

theorem hits_first (name : String) (hk : ClusterMetadata.isFor epochId k = true)
    (hn : ∃ n ∈ named, key n = k) :
    hits (fun e => entryByKey named (matched (first named k) name e)) k epochId = true := by
  obtain ⟨n, hn⟩ := exists_entryByKey hn
  exact hits_iff.mpr ⟨n, by rw [matched_first hk, hn], entryByKey_key hn⟩

theorem isFor_iff (k : EpochKey) :
    ClusterMetadata.isFor epochId k = true ↔ k.2 = epochId ∨ k.1 ++ "__" ++ k.2 = epochId := by
  simp [ClusterMetadata.isFor]

theorem isFor_of_hits (horder : Ordered named order) (he : epochId ∈ listed named name)
    (h : hits (fun e => entryByKey named (matched order name e)) k epochId = true) :
    ClusterMetadata.isFor epochId k = true := by
  obtain ⟨n, hn, rfl⟩ := hits_iff.mp h
  have found := find?_some (find?_matched horder he)
  rwa [← entryByKey_key hn] at found

theorem clusterRight_of_exact (h : ∀ k order, Ordered named order →
      Exact named table (fun e => entryByKey named (matched order name e)) (timed named name) k) :
    ClusterRight named name table := by
  have order : ∀ k, (∃ n ∈ named, key n = k) → Exact named table
      (fun e => entryByKey named (matched (first named k) name e)) (timed named name) k :=
    fun k hk => h k _ (ordered_first hk)
  have called : ∀ e ∈ timed named name, name = table ∧ e ∈ listed named table := by
    intro e he
    have known := mem_listed.mp (mem_timed he)
    exact (order (name, e) known).only e he (hits_first name (isFor_own name e) known)
  -- an epoch that only `table__id` stands for is missed once that entry comes first itself
  have found : ∀ e ∈ listed named table, e ∈ timed named name := by
    intro e he
    by_contra missing
    obtain ⟨e', he', hit⟩ := (order (table, e) (mem_listed.mp he)).some rfl he
    obtain ⟨rfl, he''⟩ := called e' he'
    have stands : ∀ order, Ordered named order → ∀ x ∈ timed named name,
        hits (fun e => entryByKey named (matched order name e)) (name, e) x = true →
          x = name ++ "__" ++ e := by
      intro order horder x hx hit
      rcases (isFor_iff _).mp (isFor_of_hits horder (mem_timed hx) hit) with same | same
      · subst same
        exact absurd hx missing
      · exact same.symm
    have known := mem_listed.mp he''
    have e'_eq := stands _ (ordered_first (mem_listed.mp he)) e' he' hit
    have other := ordered_first known
    obtain ⟨x, hx, hit'⟩ := (h (name, e) _ other).some rfl he
    have x_eq := stands _ other x hx hit'
    rw [x_eq, ← e'_eq] at hit'
    obtain ⟨n, hn, hkey⟩ := hits_iff.mp hit'
    have own := entryByKey_key hn
    rw [matched_first (isFor_own name e'), hkey] at own
    cases own
    exact missing he'
  refine ⟨nodup_of_countP fun e he => ?_, fun e => ⟨fun he => (called e he).2, found e⟩,
    fun e he n hn hfor => ?_⟩
  · have known := mem_listed.mp (mem_timed he)
    exact ⟨_, hits_first name (isFor_own name e) known, (order (name, e) known).atMost⟩
  · -- with the mistaken entry first, two epochs of the table are counted for it
    have known : ∃ n' ∈ named, key n' = key n := ⟨n, hn, rfl⟩
    have hit := hits_first name hfor known
    obtain ⟨htable, hid⟩ := (order (key n) known).only e (found e he) hit
    have hit' := hits_first name (isFor_own (key n).1 (key n).2) known
    have once := (order (key n) known).atMost
    by_contra other
    have apart : (key n).2 ≠ e := fun same => other (Prod.ext htable same)
    have two : [(key n).2, e].countP (hits (fun e => entryByKey named
        (matched (first named (key n)) name e)) (key n)) = 2 := by
      simp [hit, hit']
    have sub : List.Subperm [(key n).2, e] (timed named name) := by
      refine subperm_of_subset (by simp [apart]) fun x hx => ?_
      simp only [mem_cons, not_mem_nil, or_false] at hx
      rcases hx with rfl | rfl
      · exact found _ hid
      · exact found _ he
    have := sub.countP_le (hits (fun e => entryByKey named
        (matched (first named (key n)) name e)) (key n))
    omega

end Telling

theorem ordered_keys (named : List Entry) : Ordered named (named.map key).dedup where
  nodup := nodup_dedup _
  complete k := by rw [mem_dedup, List.mem_map]

theorem isOrder_counted (k : EpochKey) (h : Ordered named order) :
    (inCluster (named.map (counted k))).IsOrder order := by
  rw [isOrder_iff, entries_counted]
  exact h

theorem length_listed_le (named : List Entry) (table : String) :
    (listed named table).length ≤ named.length := by
  rw [listed, length_map]
  exact length_filter_le ..

/-- Whatever the statistics and workers of registrations for given entries are, both providers
report the totals of a table and agree, exactly if each finds every epoch of the table once and
takes no other entry for it. -/
theorem scan_stats_right_iff (named : List Entry) (name table : String)
    (short : named.length < 2 ^ 64) :
    (∀ regs, entries regs = named → Fits regs table → ∀ order, (inCluster regs).IsOrder order →
      Reported regs table ((inMemory regs).getTableScanStats name) ∧
        Reported regs table ((inCluster regs).getTableScanStats order name) ∧
        SameTotals ((inMemory regs).getTableScanStats name)
          ((inCluster regs).getTableScanStats order name)) ↔
      MemoryRight named (resolve named name) table ∧ ClusterRight named name table := by
  constructor
  · intro right
    have keys : ∀ k, entries (named.map (counted k)) = named := fun k => entries_counted k named
    have reports : ∀ k order, Ordered named order → _ ∧ _ ∧ _ := fun k order horder =>
      right _ (keys k) (fits_counted k named table) order (isOrder_counted k horder)
    have short' : ∀ found, (listed named found).length < 2 ^ 64 :=
      fun found => Nat.lt_of_le_of_lt (length_listed_le named found) short
    refine ⟨memoryRight_of_exact fun k => ?_, clusterRight_of_exact fun k order horder => ?_⟩
    · obtain ⟨memory, -, -⟩ := reports k _ (ordered_keys named)
      have sums := inMemory_sums (named.map (counted k)) name
      simp only [keys, funext lastById_counted] at sums
      exact exact_of_countP (countP_of_reported (short' _) sums memory)
    · obtain ⟨-, cluster, -⟩ := reports k order horder
      have sums := inCluster_sums (isOrder_counted k horder) name
      simp only [keys, lastByKey_counted] at sums
      refine exact_of_countP (countP_of_reported ?_ sums cluster)
      exact Nat.lt_of_le_of_lt (length_filter_le ..) (short' name)
  · rintro ⟨memory, cluster⟩ regs rfl fits order horder
    have inMemory := reported_of_memoryRight fits memory
    have inCluster := reported_of_clusterRight fits cluster horder
    refine ⟨inMemory, inCluster, ?_, ?_, fun w => ?_⟩
    · exact UInt64.toNat_inj.mp (inMemory.rows.trans inCluster.rows.symm)
    · exact UInt64.toNat_inj.mp (inMemory.bytes.trans inCluster.bytes.symm)
    · rw [inMemory.workers, inCluster.workers]

def tenRows (table epochId : String) : Registration :=
  ⟨⟨table, epochId, none⟩, ⟨10, 1000, .exact⟩, "w1"⟩

/-- Two epochs of one table and one of another, each registered once. -/
def registeredOnce : List Registration :=
  [tenRows "orders" "e1", ⟨⟨"items", "e2", none⟩, ⟨7, 700, .exact⟩, "w2"⟩,
    ⟨⟨"orders", "e3", some (100, 200)⟩, ⟨5, 500, .exact⟩, "w2"⟩]

theorem scan_stats_right_iff_once :
    Reported registeredOnce "orders" ((inMemory registeredOnce).getTableScanStats "orders") ∧
    Reported registeredOnce "orders" ((inCluster registeredOnce).getTableScanStats
      [("orders", "e1"), ("items", "e2"), ("orders", "e3")] "orders") := by
  have found : resolve (entries registeredOnce) "orders" = "orders" := by decide +kernel
  have same :
      timed (entries registeredOnce) "orders" = listed (entries registeredOnce) "orders" := by
    decide +kernel
  have memory : MemoryRight (entries registeredOnce)
      (resolve (entries registeredOnce) "orders") "orders" := by
    rw [found]
    refine ⟨by decide +kernel, fun e => .rfl, fun e he => ?_⟩
    have own : ∀ e ∈ listed (entries registeredOnce) "orders",
        ∀ n ∈ entryById (entries registeredOnce) e, n.table = "orders" := by decide +kernel
    exact fun n hn => own e he n hn
  have cluster : ClusterRight (entries registeredOnce) "orders" "orders" :=
    ⟨by decide +kernel, fun e => by rw [same], by unfold Unmistakable; decide +kernel⟩
  have reports := (scan_stats_right_iff (entries registeredOnce) "orders" "orders"
    (by decide +kernel)).mpr ⟨memory, cluster⟩ registeredOnce rfl (by unfold Fits; decide +kernel)
    _ (isOrder_iff.mpr (ordered_keys (entries registeredOnce)))
  exact ⟨reports.1, reports.2.1⟩

/-- An epoch of one table that is registered twice, and again for another table. -/
def registeredAgain : List Registration :=
  [tenRows "orders" "e1", tenRows "orders" "e1", ⟨⟨"items", "e1", none⟩, ⟨7, 700, .exact⟩, "w2"⟩]

/-- The table has ten rows on one worker. In memory twice the rows of the other table are
reported, with its worker; in a cluster twice its own, and none by the name of its macro. -/
theorem epoch_counted_twice :
    (inCluster registeredAgain).IsOrder [("orders", "e1"), ("items", "e1")] ∧
    ((inMemory registeredAgain).getTableScanStats "orders").rows = 14 ∧
    ((inMemory registeredAgain).getTableScanStats "orders").workers = ["w2"] ∧
    ((inCluster registeredAgain).getTableScanStats [("orders", "e1"), ("items", "e1")]
      "orders").rows = 20 ∧
    ((inCluster registeredAgain).getTableScanStats [("orders", "e1"), ("items", "e1")]
      "scan_orders").rows = 0 ∧
    ¬ Reported registeredAgain "orders" ((inMemory registeredAgain).getTableScanStats "orders") ∧
    ¬ Reported registeredAgain "orders" ((inCluster registeredAgain).getTableScanStats
      [("orders", "e1"), ("items", "e1")] "orders") := by
  have memory : ((inMemory registeredAgain).getTableScanStats "orders").workers = ["w2"] := by
    decide +kernel
  have cluster : ((inCluster registeredAgain).getTableScanStats
      [("orders", "e1"), ("items", "e1")] "orders").rows = 20 := by
    decide +kernel
  refine ⟨?_, by decide +kernel, memory, cluster, by decide +kernel, fun h => ?_, fun h => ?_⟩
  · exact isOrder_iff.mpr (ordered_keys (entries registeredAgain))
  · have worker := (h.workers "w2").mp (memory ▸ mem_singleton_self "w2")
    revert worker
    simp [registeredAgain, tenRows, listed, lastByKey, last, key]
  · have rows := h.rows
    rw [cluster] at rows
    revert rows
    decide +kernel

end Leibrix.EpochTotals
