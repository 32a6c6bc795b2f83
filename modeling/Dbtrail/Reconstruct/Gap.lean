import Dbtrail.Query.Binlog

/-!
# The gap between a baseline and the first indexed event

`decideBaselineGap` says whether events may be missing between a baseline's anchor and the first
event of a table. It stays quiet when that event, or the oldest one of the whole index, starts at
or before the anchor. `gapDetected` orders binary log files by name alone; everywhere else a longer
name is the later file, whatever it spells. `decideBaselineGap_right_iff` says when that does not
matter.
-/

namespace Dbtrail

/-- `baseline.DumpMetadata`: where a baseline was taken. -/
structure DumpMetadata : Type where
  binlogFile : String
  binlogPos : ℤ
  lsn : ℕ := 0
  deriving DecidableEq, Repr

/-- `uint64(BinlogPos)`. -/
def DumpMetadata.anchor (bmeta : DumpMetadata) : BinlogPos :=
  ⟨bmeta.binlogFile, (bmeta.binlogPos % 2 ^ 64).toNat⟩

/-- `query.IndexStart`: the oldest event of the live index. -/
structure IndexStart : Type where
  binlogFile : String
  startPos : ℕ
  deriving DecidableEq, Repr

def IndexStart.coord (s : IndexStart) : BinlogPos := ⟨s.binlogFile, s.startPos⟩

def gapDetected (flavor eventFile : String) (eventStartPos : ℕ) (bmeta : DumpMetadata) : Bool :=
  if flavor = "postgres" then
    if bmeta.lsn = 0 then false else decide (bmeta.lsn < eventStartPos)
  else
    decide (bmeta.anchor.file < eventFile) ||
      eventFile == bmeta.anchor.file && decide (bmeta.anchor.pos < eventStartPos)

inductive GapVerdict : Type where
  | none
  | unproven
  deriving DecidableEq, Repr

def indexStartComparable (flavor : String) (s : IndexStart) : Bool :=
  if flavor = "postgres" then s.startPos != 0 else s.binlogFile != ""

def decideBaselineGap {Row : Type} (flavor : String) (bmeta : DumpMetadata) (first : ResultRow Row)
    (start : IndexStart) (startOK : Bool) : GapVerdict :=
  if !gapDetected flavor first.binlogFile first.startPos bmeta then .none
  else if startOK && indexStartComparable flavor start &&
      !gapDetected flavor start.binlogFile start.startPos bmeta then .none
  else .unproven

/-! ## Names in the wrong place -/

/-- A later file, of a longer name, that sorts before the anchor's. -/
def SortsBefore (p a : BinlogPos) : Prop :=
  a.file.utf8ByteSize < p.file.utf8ByteSize ∧ p.file < a.file

/-- An earlier file, of a shorter name, that sorts after the anchor's. -/
def SortsAfter (p a : BinlogPos) : Prop :=
  p.file.utf8ByteSize < a.file.utf8ByteSize ∧ a.file < p.file

variable {flavor : String} {bmeta : DumpMetadata} {p : BinlogPos}

theorem gapDetected_eq_false_iff (binlog : flavor ≠ "postgres") :
    gapDetected flavor p.file p.pos bmeta = false ↔
      p.file < bmeta.anchor.file ∨ p.file = bmeta.anchor.file ∧ p.pos ≤ bmeta.anchor.pos := by
  simp only [gapDetected, if_neg binlog, Bool.or_eq_false_iff, decide_eq_false_iff_not, not_lt,
    Bool.and_eq_false_iff, beq_eq_false_iff_ne]
  constructor
  · rintro ⟨le, other⟩
    rcases le.lt_or_eq with before | same
    · exact .inl before
    · exact .inr ⟨same, other.resolve_left fun differ => differ same⟩
  · rintro (before | ⟨same, upTo⟩)
    · exact ⟨before.le, .inl before.ne⟩
    · exact ⟨same.le, .inr upTo⟩

section Places

variable (binlog : flavor ≠ "postgres") (plain : p.isLSN = false)
  (anchored : bmeta.anchor.isLSN = false)

include binlog plain anchored

/-- An event wrongly taken to start at or before the anchor. -/
theorem quiet_and_after_iff :
    gapDetected flavor p.file p.pos bmeta = false ∧ p.atOrBefore bmeta.anchor = false ↔
      SortsBefore p bmeta.anchor := by
  rw [gapDetected_eq_false_iff binlog, ← Bool.not_eq_true,
    BinlogPos.atOrBefore_iff plain anchored, SortsBefore]
  constructor
  · rintro ⟨sorts, after⟩
    rw [not_or, not_and_or] at after
    obtain ⟨notShorter, other⟩ := after
    rcases other with longer | notEarlier
    · refine ⟨by omega, sorts.resolve_right fun same => longer ?_⟩
      rw [same.1]
    · exact absurd sorts notEarlier
  · rintro ⟨longer, before⟩
    exact ⟨.inl before, by omega⟩

/-- An event wrongly taken to start past the anchor. -/
theorem gap_and_before_iff :
    gapDetected flavor p.file p.pos bmeta = true ∧ p.atOrBefore bmeta.anchor = true ↔
      SortsAfter p bmeta.anchor := by
  rw [← Bool.not_eq_false, gapDetected_eq_false_iff binlog,
    BinlogPos.atOrBefore_iff plain anchored, SortsAfter]
  constructor
  · rintro ⟨gap, shorter | ⟨-, sorts⟩⟩
    · refine ⟨shorter, lt_of_le_of_ne (not_lt.mp fun before => gap (.inl before)) ?_⟩
      intro same
      rw [same] at shorter
      exact lt_irrefl _ shorter
    · exact absurd sorts gap
  · rintro ⟨shorter, after⟩
    refine ⟨?_, .inl shorter⟩
    rintro (before | ⟨same, -⟩)
    · exact lt_asymm before after
    · exact after.ne' same

end Places

/-! ## The verdict -/

theorem decideBaselineGap_eq_none_iff {Row : Type} {first : ResultRow Row} {start : IndexStart}
    (binlog : flavor ≠ "postgres") (named : start.binlogFile ≠ "") :
    decideBaselineGap flavor bmeta first start true = .none ↔
      gapDetected flavor first.startCoord.file first.startCoord.pos bmeta = false ∨
        gapDetected flavor start.coord.file start.coord.pos bmeta = false := by
  have comparable : indexStartComparable flavor start = true := by
    simp [indexStartComparable, binlog, named]
  unfold decideBaselineGap
  rw [comparable]
  simp only [ResultRow.startCoord, IndexStart.coord]
  cases gapDetected flavor first.binlogFile first.startPos bmeta with
  | false => simp
  | true =>
    cases gapDetected flavor start.binlogFile start.startPos bmeta with
    | false | true => simp

/-- The verdict is right (quiet only if one of the two events starts at or before the anchor, and
quiet if the oldest indexed one does) unless both start after the anchor and a longer name sorts
before the anchor's, or the oldest is in a file whose shorter name sorts after the anchor's and the
first event of the table sorts after the anchor too. -/
theorem decideBaselineGap_right_iff {Row : Type} {flavor : String} (binlog : flavor ≠ "postgres")
    (bmeta : DumpMetadata) (first : ResultRow Row) (start : IndexStart)
    (anchored : bmeta.anchor.isLSN = false) (plain : first.startCoord.isLSN = false)
    (plainStart : start.coord.isLSN = false) (named : start.binlogFile ≠ "") :
    ((decideBaselineGap flavor bmeta first start true = .none →
        first.startCoord.atOrBefore bmeta.anchor = true ∨
          start.coord.atOrBefore bmeta.anchor = true) ∧
      (start.coord.atOrBefore bmeta.anchor = true →
        decideBaselineGap flavor bmeta first start true = .none)) ↔
    ¬(first.startCoord.atOrBefore bmeta.anchor = false ∧
        start.coord.atOrBefore bmeta.anchor = false ∧
        (SortsBefore first.startCoord bmeta.anchor ∨ SortsBefore start.coord bmeta.anchor)) ∧
      ¬(SortsAfter start.coord bmeta.anchor ∧
        gapDetected flavor first.startCoord.file first.startCoord.pos bmeta = true) := by
  rw [decideBaselineGap_eq_none_iff binlog named,
    ← quiet_and_after_iff binlog plain anchored, ← quiet_and_after_iff binlog plainStart anchored,
    ← gap_and_before_iff binlog plainStart anchored]
  cases gapDetected flavor first.startCoord.file first.startCoord.pos bmeta <;>
    cases gapDetected flavor start.coord.file start.coord.pos bmeta <;>
    cases first.startCoord.atOrBefore bmeta.anchor <;>
    cases start.coord.atOrBefore bmeta.anchor <;> simp

def firstEvent (file : String) (pos : ℕ) : ResultRow Unit :=
  { eventID := 1, binlogFile := file, startPos := pos, endPos := pos + 50, eventTimestamp := 0,
    eventType := .insert, pkValues := "1" }

/-- Within six digits the verdict is right. -/
theorem sixDigits_right :
    decideBaselineGap "mysql" ⟨"binlog.000007", 4, 0⟩ (firstEvent "binlog.000009" 4)
        ⟨"binlog.000006", 4⟩ true = .none ∧
      (decideBaselineGap "mysql" ⟨"binlog.000007", 4, 0⟩ (firstEvent "binlog.000009" 4)
          ⟨"binlog.000008", 4⟩ true = .none →
        (firstEvent "binlog.000009" 4).startCoord.atOrBefore ⟨"binlog.000007", 4⟩ = true ∨
          (IndexStart.mk "binlog.000008" 4).coord.atOrBefore ⟨"binlog.000007", 4⟩ = true) :=
  ⟨((decideBaselineGap_right_iff (by decide) ⟨"binlog.000007", 4, 0⟩
      (firstEvent "binlog.000009" 4) ⟨"binlog.000006", 4⟩ (by decide) (by decide) (by decide)
      (by decide)).mpr (by simp only [SortsBefore, SortsAfter]; decide)).2 (by decide),
    ((decideBaselineGap_right_iff (by decide) ⟨"binlog.000007", 4, 0⟩
      (firstEvent "binlog.000009" 4) ⟨"binlog.000008", 4⟩ (by decide) (by decide) (by decide)
      (by decide)).mpr (by simp only [SortsBefore, SortsAfter]; decide)).1⟩

/-- Past the rollover: quiet although both events start after the anchor, and in doubt although
the oldest indexed one starts before it. -/
theorem rollover_wrong :
    (decideBaselineGap "mysql" ⟨"binlog.999999", 4, 0⟩ (firstEvent "binlog.1000000" 4)
        ⟨"binlog.1000000", 4⟩ true = .none ∧
      (firstEvent "binlog.1000000" 4).startCoord.atOrBefore ⟨"binlog.999999", 4⟩ = false ∧
      (IndexStart.mk "binlog.1000000" 4).coord.atOrBefore ⟨"binlog.999999", 4⟩ = false) ∧
    (IndexStart.mk "binlog.999999" 4).coord.atOrBefore ⟨"binlog.1000000", 4⟩ = true ∧
      decideBaselineGap "mysql" ⟨"binlog.1000000", 4, 0⟩ (firstEvent "binlog.1000000" 500)
        ⟨"binlog.999999", 4⟩ true = .unproven := by
  decide

end Dbtrail
