import Dbtrail.Lib.Checked
import Dbtrail.Query.Binlog
import Dbtrail.Query.Time

/-!
# Where a PostgreSQL fold stops and the next one starts

Every row of a PostgreSQL transaction carries its commit LSN, so a fold reads the LSNs
from its snapshot's floor to `until`, and the next one starts at the LSN after that. The
end of a run comes from the first event past the target, or else from the newest event,
whose transaction is left to the next fold unless the stream's checkpoint shows it
complete. Beside the start LSN a snapshot records how far back in time the changes after
it can reach, and a reader fetches from there.

Times are in microseconds.
-/

namespace Dbtrail

/-- A row event of a PostgreSQL source, as indexed: `lsn` is both its start and its end. -/
structure PGIndexRow (Row : Type) : Type where
  lsn : ℕ
  eventTimestamp : ℤ
  table : String
  data : Row
  deriving DecidableEq, Repr

/-- What a fold reads of a snapshot and writes into the next one: the time it is found under,
its LSN floor and the time bound beside it, if it records one. -/
structure PGSnapshot : Type where
  time : ℤ
  lsn : ℕ
  pgDeltaSince : Option ℤ
  deriving DecidableEq, Repr

def pgDeltaMargin : ℤ := 60 * second

/-- The time the changes after a snapshot are read from. -/
def pgDeltaWindow (s : PGSnapshot) : ℤ :=
  match s.pgDeltaSince with
  | none => s.time - pgDeltaMargin
  | some since => min since s.time

inductive PGFoldError : Type where
  | newestLSNZero
  | firstPastLSNZero (at_ : ℤ)
  | firstPastAfterNewest (at_ : ℤ) (cut newest : ℕ)
  | pointBeforeBaseline (at_ baselineAt : ℤ)
  | noPrevSince
  | newestBeforeFloor (newestAt : ℤ) (newest : ℕ) (baselineAt : ℤ) (floor : ℕ)
  deriving DecidableEq, Repr

structure PGRunEnd : Type where
  at_ : ℤ
  none : Bool
  until_ : ℕ
  newestEnd : ℕ
  newestAt : ℤ
  deriving DecidableEq, Repr

structure PGFoldBounds : Type where
  until_ : Option ℕ
  next : ℕ
  since : ℤ
  deriving DecidableEq, Repr

variable {Row : Type}

/-- What a run reads of the index, in this order: the newest event, the first one past the
target, the checkpoint, and at last the rows. Capture may write in between. -/
structure PGIndexReads (Row : Type) : Type where
  newest : List (PGIndexRow Row)
  search : List (PGIndexRow Row)
  checkpoint : Option ℕ
  fetch : List (PGIndexRow Row)

def resolvePGRunEnd (reads : PGIndexReads Row) (at_ : ℤ) : Except PGFoldError PGRunEnd :=
  match reads.newest.getLast? with
  | none => .ok ⟨at_, true, 0, 0, 0⟩
  | some newest =>
      if newest.lsn = 0 then .error .newestLSNZero
      else
        match reads.search.find? fun row => decide (at_ < row.eventTimestamp) with
        | some cut =>
            if cut.lsn = 0 then .error (.firstPastLSNZero at_)
            else if newest.lsn < cut.lsn then
              .error (.firstPastAfterNewest at_ cut.lsn newest.lsn)
            else .ok ⟨at_, false, cut.lsn - 1, newest.lsn, newest.eventTimestamp⟩
        | none =>
            let until_ :=
              if ∃ saved ∈ reads.checkpoint, newest.lsn ≤ saved then newest.lsn else newest.lsn - 1
            .ok ⟨at_, false, until_, newest.lsn, newest.eventTimestamp⟩

/-- A fold from `floor` through `until_`, or of nothing. -/
def foldFrom (floor until_ : ℕ) : Option ℕ × ℕ :=
  if until_ < floor then (none, floor) else (some until_, until_ + 1)

def foldedDeltaSince (run : PGRunEnd) (next floor : ℕ) (prevSince : ℤ) : ℤ :=
  if next = floor then truncateTo second prevSince
  else truncateTo second (min run.at_ run.newestAt - pgDeltaMargin)

def pgPointAfterBaseline (at_ baselineAt : ℤ) : Except PGFoldError Unit :=
  if at_ < baselineAt then .error (.pointBeforeBaseline at_ baselineAt) else .ok ()

def boundsFor (run : PGRunEnd) (floor : ℕ) (baselineAt : ℤ) (prevSince : Option ℤ) :
    Except PGFoldError PGFoldBounds := do
  pgPointAfterBaseline run.at_ baselineAt
  match prevSince with
  | none => throw .noPrevSince
  | some prevSince =>
      if run.none then
        return ⟨none, floor, foldedDeltaSince run floor floor prevSince⟩
      else if run.newestEnd < floor ∧ baselineAt < run.newestAt then
        throw (.newestBeforeFloor run.newestAt run.newestEnd baselineAt floor)
      else
        let (until_, next) := foldFrom floor run.until_
        return ⟨until_, next, foldedDeltaSince run next floor prevSince⟩

/-- The rows a fold reads: nothing when its end is before its floor. -/
def foldWindowPG (index : List (PGIndexRow Row)) (table : String) (since at_ : ℤ) (floor : ℕ)
    (b : PGFoldBounds) : List (PGIndexRow Row) :=
  match b.until_ with
  | none => []
  | some until_ =>
      index.filter fun row =>
        row.table == table && decide (coarseSinceFloor since ≤ row.eventTimestamp) &&
          decide (floor ≤ row.lsn) && decide (row.eventTimestamp ≤ at_) && decide (row.lsn ≤ until_)

/-- A fold of a table: what it read and the snapshot it wrote. -/
structure PGFoldRecord (Row : Type) : Type where
  read : List (PGIndexRow Row)
  snapshot : PGSnapshot
  deriving DecidableEq, Repr

def reconstructPGTable (reads : PGIndexReads Row) (table : String) (s : PGSnapshot) (at_ : ℤ) :
    Except PGFoldError (PGFoldRecord Row) := do
  let run ← resolvePGRunEnd reads at_
  let since := pgDeltaWindow s
  let b ← boundsFor run s.lsn s.time (some since)
  return ⟨foldWindowPG reads.fetch table since at_ s.lsn b, ⟨at_, b.next, some b.since⟩⟩

/-! ## What a fold records -/

/-- Where a run ends, for a fold that goes through. -/
theorem resolvePGRunEnd_ok {reads : PGIndexReads Row} {at_ : ℤ} {run : PGRunEnd}
    (ends : resolvePGRunEnd reads at_ = .ok run) :
    run.at_ = at_ ∧
      (run.none = true ∨ run.none = false ∧ ∃ newest, reads.newest.getLast? = some newest ∧
        run.newestAt = newest.eventTimestamp ∧ 0 < newest.lsn ∧
        ((∃ cut, reads.search.find? (fun row => decide (at_ < row.eventTimestamp)) = some cut ∧
            0 < cut.lsn ∧ cut.lsn ≤ newest.lsn ∧ run.until_ = cut.lsn - 1) ∨
          reads.search.find? (fun row => decide (at_ < row.eventTimestamp)) = none ∧
            ((∃ saved ∈ reads.checkpoint, newest.lsn ≤ saved) ∧ run.until_ = newest.lsn ∨
              run.until_ = newest.lsn - 1))) := by
  unfold resolvePGRunEnd at ends
  split at ends
  · cases ends
    exact ⟨rfl, .inl rfl⟩
  · rename_i newest last
    split at ends
    · cases ends
    rename_i nonzero
    split at ends
    · rename_i cut found
      split at ends
      · cases ends
      split at ends
      · cases ends
      rename_i nonzero' le
      cases ends
      exact ⟨rfl, .inr ⟨rfl, newest, last, rfl, Nat.pos_of_ne_zero nonzero,
        .inl ⟨cut, found, Nat.pos_of_ne_zero nonzero', not_lt.mp le, rfl⟩⟩⟩
    · rename_i found
      dsimp only at ends
      cases ends
      refine ⟨rfl, .inr ⟨rfl, newest, last, rfl, Nat.pos_of_ne_zero nonzero, .inr ⟨found, ?_⟩⟩⟩
      dsimp only
      split
      · rename_i saved
        exact .inl ⟨saved, rfl⟩
      · exact .inr rfl

/-- The bounds of a fold that goes through: nothing, from the same floor, or the LSNs up to the
run's end. -/
theorem boundsFor_ok {run : PGRunEnd} {floor : ℕ} {baselineAt prevSince : ℤ} {b : PGFoldBounds}
    (bounds : boundsFor run floor baselineAt (some prevSince) = .ok b) :
    baselineAt ≤ run.at_ ∧
      (b = ⟨none, floor, truncateTo second prevSince⟩ ∨
        run.none = false ∧ floor ≤ run.until_ ∧
          b = ⟨some run.until_, run.until_ + 1,
            truncateTo second (min run.at_ run.newestAt - pgDeltaMargin)⟩) := by
  unfold boundsFor pgPointAfterBaseline at bounds
  by_cases before : run.at_ < baselineAt
  · rw [if_pos before] at bounds
    cases bounds
  rw [if_neg before] at bounds
  refine ⟨not_lt.mp before, ?_⟩
  change (if run.none = true then _ else _) = _ at bounds
  split at bounds
  · cases bounds
    exact .inl (by simp [foldedDeltaSince])
  rename_i some
  split at bounds
  · cases bounds
  have is : (⟨(foldFrom floor run.until_).1, (foldFrom floor run.until_).2,
    foldedDeltaSince run (foldFrom floor run.until_).2 floor prevSince⟩ : PGFoldBounds) = b :=
    Except.ok.inj bounds
  subst is
  unfold foldFrom
  split
  · exact .inl (by simp [foldedDeltaSince])
  · rename_i le
    refine .inr ⟨by simpa using some, not_lt.mp le, ?_⟩
    have ne : run.until_ + 1 ≠ floor := by omega
    simp [foldedDeltaSince, ne]

/-- A fold that goes through reads nothing and keeps its floor, or reads up to the run's end. -/
theorem reconstructPGTable_ok {reads : PGIndexReads Row} {table : String} {s : PGSnapshot} {at_ : ℤ}
    {record : PGFoldRecord Row} (folded : reconstructPGTable reads table s at_ = .ok record) :
    record = ⟨[], ⟨at_, s.lsn, some (truncateTo second (pgDeltaWindow s))⟩⟩ ∨
      ∃ run since, resolvePGRunEnd reads at_ = .ok run ∧ run.none = false ∧ s.lsn ≤ run.until_ ∧
        since = truncateTo second (min run.at_ run.newestAt - pgDeltaMargin) ∧
        record = ⟨foldWindowPG reads.fetch table (pgDeltaWindow s) at_ s.lsn
          ⟨some run.until_, run.until_ + 1, since⟩, ⟨at_, run.until_ + 1, some since⟩⟩ := by
  unfold reconstructPGTable at folded
  obtain ⟨run, ends, folded⟩ := Except.bind_eq_ok folded
  obtain ⟨b, bounds, folded⟩ := Except.bind_eq_ok folded
  cases folded
  obtain ⟨-, rfl | ⟨some, le, rfl⟩⟩ := boundsFor_ok bounds
  · exact .inl rfl
  · exact .inr ⟨run, _, ends, some, le, rfl, rfl⟩

theorem reconstructPGTable_lsn_le {reads : PGIndexReads Row} {table : String} {s : PGSnapshot}
    {at_ : ℤ} {record : PGFoldRecord Row}
    (folded : reconstructPGTable reads table s at_ = .ok record) :
    s.lsn ≤ record.snapshot.lsn := by
  rcases reconstructPGTable_ok folded with rfl | ⟨run, since, -, -, le, -, rfl⟩
  · exact le_rfl
  · exact le.trans (Nat.le_succ _)

end Dbtrail
