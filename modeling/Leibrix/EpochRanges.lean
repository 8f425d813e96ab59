import Leibrix.Dispatcher
import Leibrix.EpochMetadata

/-!
# Time ranges of epochs

An assignment says when its rows were made as two timestamps. They become signed counts of
nanoseconds, the epoch view keeps the counts without their sign, and cluster metadata
compares them with a query interval that is given in milliseconds.
-/

set_option autoImplicit false

namespace Leibrix.EpochRanges
open EpochEngine Dispatcher Option
open EpochMetadata (ClusterMetadata EpochPlacement endOfTime)

structure Timestamp where
  seconds : Int64
  nanos : Int32

def Timestamp.instant (t : Timestamp) : Int := t.seconds.toInt * 1000000000 + t.nanos.toInt

inductive ConversionError where
  | missingField (messageType field : String)
  deriving DecidableEq

structure ProtoTimeRange where
  startInclusive : Option Timestamp
  endExclusive : Option Timestamp

structure TimeRange where
  startInclusiveNs : Int64
  endExclusiveNs : Int64

def timeRangeFromProto (tr : ProtoTimeRange) : Except ConversionError TimeRange := do
  let start ← tr.startInclusive.elim
    (.error (.missingField "TimeRange" "start_inclusive")) .ok
  let stop ← tr.endExclusive.elim (.error (.missingField "TimeRange" "end_exclusive")) .ok
  return ⟨start.seconds * 1000000000 + start.nanos.toInt64,
    stop.seconds * 1000000000 + stop.nanos.toInt64⟩

/-- An assignment with the temporal filter of its epoch. -/
structure TimedAssignment extends LoadAssignment where
  timeRange : Option TimeRange

/-- An epoch view with its time range. -/
structure TimedView extends EpochView where
  timeRange : UInt64 × UInt64

/-- The view of the load request that an assignment becomes. -/
def intoEpochView (a : TimedAssignment) : Except String TimedView := do
  let request ← intoLoadRequest a.toLoadAssignment
  let timeRange := match a.timeRange with
    | some tr => (tr.startInclusiveNs.toUInt64, tr.endExclusiveNs.toUInt64)
    | none => (0, 0xFFFFFFFFFFFFFFFF)
  return { request.epochView with timeRange := timeRange }

/-- The placement of an epoch view, whose statistics are exact. -/
def registerFromEpochView (m : ClusterMetadata) (datasetId : String) (view : TimedView)
    (workerId : String) (rows bytes : UInt64) : ClusterMetadata :=
  m.registerEpoch ⟨view.epochId, datasetId, workerId, view.timeRange, ⟨rows, bytes, .exact⟩⟩

/-- A day from 1970 on, numbered from there, as far as the calendar counts days. -/
structure Day where
  number : Nat
  bounded : number < 100000000

namespace Day

def ms (d : Day) : UInt64 := UInt64.ofNat (d.number * 86400000)

def midnight (d : Day) : Int := d.number * 86400000 * 1000000

end Day

/-- The days from `start` on and before `stop`. -/
structure DateInterval where
  start : Option Day
  stop : Option Day

def DateInterval.Contains (q : DateInterval) (x : Int) : Prop :=
  (∀ d ∈ q.start, d.midnight ≤ x) ∧ ∀ d ∈ q.stop, x < d.midnight

/-- Some instant of the range from `start` to `stop` lies in the query interval. -/
def Intersects (start stop : Int) (q : DateInterval) : Prop :=
  ∃ x, start ≤ x ∧ x < stop ∧ q.Contains x

section Reading

/-- The range begins so soon after 1970 that its nanoseconds are fewer than the milliseconds up to
the end of the query. -/
def BeginsEarly (start : Int) : Option Day → Prop
  | none => start ≠ -1
  | some d => 0 ≤ start ∧ start < d.number * 86400000

/-- The range ends so soon after 1970 that its nanoseconds are at most the milliseconds up to the
start of the query. -/
def EndsEarly (stop : Int) : Option Day → Prop
  | none => stop = 0
  | some d => 0 ≤ stop ∧ stop ≤ d.number * 86400000

/-- The range begins when the query is over. -/
def Later (start : Int) (q : DateInterval) : Prop := ∃ d ∈ q.stop, d.midnight ≤ start

/-- The range is over when the query starts, or one of them is empty. -/
def Earlier (start stop : Int) (q : DateInterval) : Prop :=
  (∃ d ∈ q.start, stop ≤ d.midnight) ∨ stop ≤ start ∨
    ∃ d ∈ q.start, ∃ d' ∈ q.stop, d'.midnight ≤ d.midnight

/-- A later range is always read rightly, an earlier one unless it begins early and does not end
early, and any other only if it begins early, and in a query without a start does not end with
1970. -/
def ReadRightly (start stop : Int) (q : DateInterval) : Prop :=
  Later start q ∨
    (Earlier start stop q ∧ (BeginsEarly start q.stop → EndsEarly stop q.start)) ∨
    (¬ Earlier start stop q ∧ BeginsEarly start q.stop ∧ (q.start = none → stop ≠ 0))

theorem wide_instant (t : Timestamp) (h : -2^63 ≤ t.instant ∧ t.instant < 2^63) :
    (t.seconds * 1000000000 + t.nanos.toInt64).toInt = t.instant := by
  have scale : (1000000000 : Int64).toInt = 1000000000 := by decide
  have wrapped : (t.seconds * 1000000000 + t.nanos.toInt64).toInt = t.instant.bmod (2^64) := by
    rw [Int64.toInt_add, Int64.toInt_mul, Int32.toInt_toInt64, scale, Int.bmod_add_bmod]
    rfl
  rw [wrapped]
  exact Int.bmod_eq_of_le (by omega) (by omega)

theorem toUInt64_cases (x : Int64) :
    (0 ≤ x.toInt ∧ (x.toUInt64.toNat : Int) = x.toInt) ∨
      (x.toInt < 0 ∧ (x.toUInt64.toNat : Int) = x.toInt + 2^64) := by
  have value : x.toInt = if 2 * x.toUInt64.toNat < 2^64 then (x.toUInt64.toNat : Int)
      else (x.toUInt64.toNat : Int) - 2^64 := BitVec.toInt_eq_toNat_cond x.toBitVec
  have bound : x.toUInt64.toNat < 2^64 := x.toUInt64.toNat_lt
  by_cases h : 2 * x.toUInt64.toNat < 2^64
  · rw [if_pos h] at value
    omega
  · rw [if_neg h] at value
    omega

theorem Day.toNat_ms (d : Day) : d.ms.toNat = d.number * 86400000 := by
  have := d.bounded
  rw [Day.ms, UInt64.toNat_ofNat']
  omega

theorem before_iff (x : Int64) (stop : Option Day) :
    x.toUInt64 < (stop.map Day.ms).getD endOfTime ↔ BeginsEarly x.toInt stop := by
  have low := x.le_toInt
  have high := x.toInt_lt
  rw [UInt64.lt_iff_toNat_lt]
  cases stop with
  | none =>
    have top : endOfTime.toNat = 2^64 - 1 := by decide
    simp only [map_none, getD_none, BeginsEarly, top]
    rcases toUInt64_cases x with ⟨hx, hcast⟩ | ⟨hx, hcast⟩ <;> omega
  | some d =>
    have := d.bounded
    simp only [map_some, getD_some, BeginsEarly, d.toNat_ms]
    rcases toUInt64_cases x with ⟨hx, hcast⟩ | ⟨hx, hcast⟩ <;> omega

theorem after_iff (x : Int64) (start : Option Day) :
    (start.map Day.ms).getD 0 < x.toUInt64 ↔ ¬ EndsEarly x.toInt start := by
  have low := x.le_toInt
  rw [UInt64.lt_iff_toNat_lt]
  cases start with
  | none =>
    have zero : (0 : UInt64).toNat = 0 := rfl
    simp only [map_none, getD_none, EndsEarly, zero]
    rcases toUInt64_cases x with ⟨hx, hcast⟩ | ⟨hx, hcast⟩ <;> omega
  | some d =>
    have := d.bounded
    simp only [map_some, getD_some, EndsEarly, d.toNat_ms]
    rcases toUInt64_cases x with ⟨hx, hcast⟩ | ⟨hx, hcast⟩ <;> omega

theorem intoEpochView_ok {a : TimedAssignment} {range : TimeRange} {view : TimedView}
    (htime : a.timeRange = some range) (hview : intoEpochView a = .ok view) :
    view.epochId = a.epochId ∧
      view.timeRange = (range.startInclusiveNs.toUInt64, range.endExclusiveNs.toUInt64) := by
  cases hschema : a.schema with
  | error e =>
    simp only [intoEpochView, intoLoadRequest, hschema] at hview
    cases hview
  | ok schema =>
    simp only [intoEpochView, intoLoadRequest, hschema, htime] at hview
    cases hview
    exact ⟨rfl, rfl⟩

theorem mem_epochsFor_register (m : ClusterMetadata) (datasetId : String) (view : TimedView)
    (workerId : String) (rows bytes : UInt64) (startMs endMs : Option UInt64) :
    (view.epochId, workerId) ∈
        (registerFromEpochView m datasetId view workerId rows bytes).epochsFor datasetId startMs
          endMs ↔
      view.timeRange.1 < endMs.getD endOfTime ∧ startMs.getD 0 < view.timeRange.2 := by
  simp only [ClusterMetadata.epochsFor, registerFromEpochView,
    ClusterMetadata.registerEpoch, Function.update_self, List.mem_filterMap]
  constructor
  · rintro ⟨epochId, -, hselected⟩
    by_cases hid : epochId = view.epochId
    · subst hid
      simpa [EpochPlacement.overlapsTimeRange] using hselected
    · rw [Function.update_of_ne (by simp [hid])] at hselected
      cases hplace : m.epochs (datasetId, epochId) with
      | none => simp [hplace] at hselected
      | some placement => simp [hplace, hid] at hselected
  · intro hover
    refine ⟨view.epochId, List.mem_append_right _ (List.mem_singleton_self _), ?_⟩
    simpa [EpochPlacement.overlapsTimeRange] using hover

variable {start stop : Int} {q : DateInterval}

theorem intersects_iff (start stop : Int) (q : DateInterval) :
    Intersects start stop q ↔ ¬ Later start q ∧ ¬ Earlier start stop q := by
  constructor
  · rintro ⟨x, hstart, hstop, hfrom, hto⟩
    refine ⟨?_, ?_⟩
    · rintro ⟨d, hd, hle⟩
      have := hto d hd
      omega
    · rintro (⟨d, hd, hle⟩ | hle | ⟨d, hd, d', hd', hle⟩)
      · have := hfrom d hd
        omega
      · omega
      · have := hfrom d hd
        have := hto d' hd'
        omega
  · rintro ⟨notLater, notEarlier⟩
    simp only [Later, Earlier, not_or, not_exists, not_and, Int.not_le] at notLater notEarlier
    obtain ⟨before, nonempty, query⟩ := notEarlier
    -- the first instant of both is the later of the two starts
    cases hq : q.start with
    | none =>
      refine ⟨start, Int.le_refl start, nonempty, fun d hd => ?_, notLater⟩
      rw [hq] at hd
      cases hd
    | some d =>
      have hd : d ∈ q.start := mem_def.mpr hq
      have := before d hd
      refine ⟨max start d.midnight, Int.le_max_left .., by omega, ?_, ?_⟩
      · intro d' hd'
        rw [hq] at hd'
        cases hd'
        exact Int.le_max_right ..
      · intro d' hd'
        have := notLater d' hd'
        have := query d hd d' hd'
        omega

theorem not_beginsEarly_of_later (h : Later start q) : ¬ BeginsEarly start q.stop := by
  obtain ⟨d, hd, hle⟩ := h
  rw [mem_def.mp hd]
  simp only [BeginsEarly]
  simp only [Day.midnight] at hle
  omega

theorem not_endsEarly (h : ¬ Earlier start stop q) (hzero : q.start = none → stop ≠ 0) :
    ¬ EndsEarly stop q.start := by
  cases hq : q.start with
  | none => exact hzero hq
  | some d =>
    have after : d.midnight < stop := by
      exact Int.not_le.mp fun hle => h (.inl ⟨d, hq, hle⟩)
    simp only [Day.midnight] at after
    simp only [EndsEarly]
    omega

theorem read_rightly_iff (start stop : Int) (q : DateInterval) :
    ((BeginsEarly start q.stop ∧ ¬ EndsEarly stop q.start) ↔ Intersects start stop q) ↔
      ReadRightly start stop q := by
  rw [intersects_iff]
  by_cases later : Later start q
  · have early := not_beginsEarly_of_later later
    simp [ReadRightly, later, early]
  by_cases earlier : Earlier start stop q
  · simp [ReadRightly, later, earlier]
  · simp only [ReadRightly, later, earlier, not_false_iff, and_self, iff_true, false_or, false_and,
      true_and]
    refine and_congr_right fun _ => ⟨fun notEarly hnone => ?_, not_endsEarly earlier⟩
    rw [hnone] at notEarly
    exact notEarly

end Reading

/-- The epoch of an assignment is selected by exactly those query intervals that meet its range. -/
def SelectedRightly (m : ClusterMetadata) (a : TimedAssignment) (start stop : Timestamp)
    (view : TimedView) (workerId : String) (rows bytes : UInt64) (q : DateInterval) : Prop :=
  (a.epochId, workerId) ∈ (registerFromEpochView m a.datasetId view workerId rows bytes).epochsFor
      a.datasetId (q.start.map Day.ms) (q.stop.map Day.ms) ↔
    Intersects start.instant stop.instant q

theorem selected_rightly_iff (m : ClusterMetadata) (a : TimedAssignment) (start stop : Timestamp)
    (range : TimeRange) (view : TimedView) (workerId : String) (rows bytes : UInt64)
    (q : DateInterval) (hstart : -2^63 ≤ start.instant ∧ start.instant < 2^63)
    (hstop : -2^63 ≤ stop.instant ∧ stop.instant < 2^63)
    (hrange : timeRangeFromProto ⟨some start, some stop⟩ = .ok range)
    (htime : a.timeRange = some range) (hview : intoEpochView a = .ok view) :
    SelectedRightly m a start stop view workerId rows bytes q ↔
      ReadRightly start.instant stop.instant q := by
  obtain rfl := Except.ok.inj hrange
  obtain ⟨named, kept⟩ := intoEpochView_ok htime hview
  rw [SelectedRightly, ← named, mem_epochsFor_register, kept, before_iff, after_iff,
    wide_instant start hstart, wide_instant stop hstop]
  exact read_rightly_iff start.instant stop.instant q

def at1970 (seconds : Int64) : Timestamp := ⟨seconds, 0⟩

def dayAssignment (start stop : Timestamp) : TimedAssignment where
  datasetId := "sales"
  epochId := "e1"
  destinationTableName := "sales__e1"
  timeColumnName := "dt"
  schema := .ok []
  source := .jdbc ⟨.ok (), false, some 1, []⟩
  timeRange := some ⟨start.seconds * 1000000000 + start.nanos.toInt64,
    stop.seconds * 1000000000 + stop.nanos.toInt64⟩

def dayView (start stop : Timestamp) : TimedView where
  epochId := "e1"
  tableName := "sales__e1"
  timeRange := ((start.seconds * 1000000000 + start.nanos.toInt64).toUInt64,
    (stop.seconds * 1000000000 + stop.nanos.toInt64).toUInt64)

def first : Day := ⟨0, by decide⟩

def firstAfter : Day := ⟨1, by decide⟩

def newYear : Day := ⟨19723, by decide⟩

def newYearAfter : Day := ⟨19724, by decide⟩

/-- The epoch of the first day of 1970 is selected by a query of that day. -/
theorem selected_rightly_first_day :
    ("e1", "w1") ∈ (registerFromEpochView .new "sales" (dayView (at1970 0) (at1970 86400)) "w1" 1
      1).epochsFor "sales" (some 0) (some 86400000) := by
  have early : BeginsEarly (at1970 0).instant (some firstAfter) := by
    refine ⟨by decide, ?_⟩
    decide
  have notLater : ¬ Later (at1970 0).instant ⟨some first, some firstAfter⟩ := by
    rintro ⟨d, ⟨⟩, hle⟩
    revert hle
    decide
  have notEarlier : ¬ Earlier (at1970 0).instant (at1970 86400).instant
      ⟨some first, some firstAfter⟩ := by
    rintro (⟨d, ⟨⟩, hle⟩ | hle | ⟨d, ⟨⟩, d', ⟨⟩, hle⟩) <;> revert hle <;> decide
  have rightly := (selected_rightly_iff .new (dayAssignment (at1970 0) (at1970 86400)) (at1970 0)
    (at1970 86400) _ (dayView (at1970 0) (at1970 86400)) "w1" 1 1 ⟨some first, some firstAfter⟩
    (by decide) (by decide) rfl rfl rfl).mpr (.inr (.inr ⟨notEarlier, early, by simp⟩))
  exact rightly.mpr ((intersects_iff ..).mpr ⟨notLater, notEarlier⟩)

/-- The epoch of the first of January 2024 is not selected by a query of the day itself. -/
theorem epoch_of_day_skipped :
    ¬ SelectedRightly .new (dayAssignment (at1970 1704067200) (at1970 1704153600))
      (at1970 1704067200) (at1970 1704153600)
      (dayView (at1970 1704067200) (at1970 1704153600)) "w1" 1 1
      ⟨some newYear, some newYearAfter⟩ := by
  intro rightly
  have meets : Intersects (at1970 1704067200).instant (at1970 1704153600).instant
      ⟨some newYear, some newYearAfter⟩ := by
    refine ⟨1704067200000000000, by decide, by decide, ?_, ?_⟩
    · rintro d ⟨⟩
      decide
    · rintro d ⟨⟩
      decide
  have listed := rightly.mpr meets
  revert listed
  decide

end Leibrix.EpochRanges
