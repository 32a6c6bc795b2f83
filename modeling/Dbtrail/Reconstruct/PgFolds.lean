import Dbtrail.Reconstruct.PgCut

/-!
# A chain of PostgreSQL folds over one source

The index holds the rows of the source's transactions in commit order, up to some row of
some transaction. Each fold reads the transactions between its snapshot's LSN and the end
of its run, all of them whole, and leaves the ones after it to the next fold with a time
bound none of them committed before (`pgFolds_partition`).

The bound a first snapshot goes by is a margin before its own time. It covers what the
snapshot may be missing, and not every transaction past its LSN floor: capture may be
behind, and the floor with it. So the theorem speaks of the transactions the first
snapshot does not hold.
-/

namespace Dbtrail

open List

variable {Row : Type} {s first : PGSnapshot} {records : List (PGFoldRecord Row)} {table : String}

/-- A committed transaction. -/
structure PGCommit (Row : Type) : Type where
  lsn : ℕ
  commitTime : ℤ
  changes : List (String × Row)

def PGCommit.rows (t : PGCommit Row) : List (PGIndexRow Row) :=
  t.changes.map fun change => ⟨t.lsn, t.commitTime, change.1, change.2⟩

/-- The transactions of one source in commit order. Their times follow it within the margin. -/
structure PGCommitLog (Row : Type) : Type where
  commits : List (PGCommit Row)
  lsn_pos : ∀ t ∈ commits, 0 < t.lsn
  ordered : commits.Pairwise fun t u =>
    t.lsn < u.lsn ∧ t.commitTime ≤ u.commitTime + pgDeltaMargin

/-- The transaction's rows of one table. -/
def PGCommit.rowsOf (t : PGCommit Row) (table : String) : List (PGIndexRow Row) :=
  t.rows.filter fun row => row.table == table

/-- The rows of one LSN. -/
def rowsAt (lsn : ℕ) (rows : List (PGIndexRow Row)) : List (PGIndexRow Row) :=
  rows.filter fun row => decide (row.lsn = lsn)

variable {t : PGCommit Row}

theorem PGCommit.of_mem_rows {row : PGIndexRow Row} (member : row ∈ t.rows) :
    row.lsn = t.lsn ∧ row.eventTimestamp = t.commitTime := by
  obtain ⟨change, -, rfl⟩ := mem_map.mp member
  exact ⟨rfl, rfl⟩

namespace PGCommitLog

variable (log : PGCommitLog Row)

def rows : List (PGIndexRow Row) := log.commits.flatMap PGCommit.rows

/-- The index once `seen` rows are visible. -/
def index (seen : ℕ) : List (PGIndexRow Row) := log.rows.take seen

variable {log} {t u : PGCommit Row} {seen seen' : ℕ}

theorem commit_of_mem_rows {row : PGIndexRow Row} (member : row ∈ log.rows) :
    ∃ t ∈ log.commits, row ∈ t.rows :=
  mem_flatMap.mp member

theorem index_subset (seen : ℕ) : log.index seen ⊆ log.rows := take_subset _ _

theorem index_mono (le : seen ≤ seen') : log.index seen ⊆ log.index seen' :=
  (take_sublist_take_left le).subset

/-- Two transactions are the same, or one commits first. -/
theorem same_or_before (ht : t ∈ log.commits) (hu : u ∈ log.commits) :
    t = u ∨ (t.lsn < u.lsn ∧ t.commitTime ≤ u.commitTime + pgDeltaMargin) ∨
      (u.lsn < t.lsn ∧ u.commitTime ≤ t.commitTime + pgDeltaMargin) := by
  have ordered := log.ordered
  obtain ⟨before, after, split⟩ := append_of_mem ht
  rw [split, pairwise_append, pairwise_cons] at ordered
  rw [split, mem_append, mem_cons] at hu
  rcases hu with early | rfl | late
  · exact .inr (.inr (ordered.2.2 u early t (by simp)))
  · exact .inl rfl
  · exact .inr (.inl (ordered.2.1.1 u late))

/-- Commit order decides the times within the margin. -/
theorem commitTime_le (ht : t ∈ log.commits) (hu : u ∈ log.commits) (le : t.lsn ≤ u.lsn) :
    t.commitTime ≤ u.commitTime + pgDeltaMargin := by
  have margin : 0 < pgDeltaMargin := by decide
  rcases same_or_before ht hu with rfl | before | after
  · omega
  · exact before.2
  · omega

theorem eq_of_lsn (ht : t ∈ log.commits) (hu : u ∈ log.commits) (same : t.lsn = u.lsn) :
    t = u := by
  rcases same_or_before ht hu with is | before | after
  · exact is
  · omega
  · omega

/-- Rows are in LSN order. -/
theorem rows_ordered : log.rows.Pairwise fun a b => a.lsn ≤ b.lsn := by
  refine pairwise_flatMap.mpr ⟨fun t _ => ?_, log.ordered.imp fun {t u} before a ha b hb => ?_⟩
  · refine pairwise_of_forall_mem_list fun a ha b hb => ?_
    rw [(PGCommit.of_mem_rows ha).1, (PGCommit.of_mem_rows hb).1]
  · rw [(PGCommit.of_mem_rows ha).1, (PGCommit.of_mem_rows hb).1]
    exact before.1.le

/-- The rows of a transaction's LSN are its rows. -/
theorem rowsAt_rows (ht : t ∈ log.commits) : rowsAt t.lsn log.rows = t.rows := by
  obtain ⟨before, after, split⟩ := append_of_mem ht
  have ordered := log.ordered
  rw [split, pairwise_append, pairwise_cons] at ordered
  have none : ∀ others : List (PGCommit Row), (∀ u ∈ others, u.lsn ≠ t.lsn) →
      rowsAt t.lsn (others.flatMap PGCommit.rows) = [] := by
    intro others ne
    refine filter_eq_nil_iff.mpr fun row member => ?_
    obtain ⟨u, hu, inRows⟩ := mem_flatMap.mp member
    rw [(PGCommit.of_mem_rows inRows).1]
    simpa using ne u hu
  have own : rowsAt t.lsn t.rows = t.rows :=
    filter_eq_self.mpr fun row member => by simp [(PGCommit.of_mem_rows member).1]
  have early := none before fun u hu => (ordered.2.2 u hu t (by simp)).1.ne
  have late := none after fun u hu => (ordered.2.1.1 u hu).1.ne'
  unfold rowsAt at early late own ⊢
  rw [rows, split, flatMap_append, flatMap_cons, filter_append, filter_append,
    early, late, own, nil_append, append_nil]

/-- All rows of the transaction are visible. -/
def Complete (log : PGCommitLog Row) (seen : ℕ) (t : PGCommit Row) : Prop :=
  rowsAt t.lsn (log.index seen) = t.rows

theorem Complete.mono (complete : log.Complete seen t) (ht : t ∈ log.commits)
    (le : seen ≤ seen') : log.Complete seen' t := by
  have early : rowsAt t.lsn (log.index seen) <+: rowsAt t.lsn (log.index seen') :=
    (take_prefix_take_left le).filter _
  have late : rowsAt t.lsn (log.index seen') <+: rowsAt t.lsn log.rows :=
    ( take_prefix _ _).filter _
  rw [rowsAt_rows ht] at late
  rw [complete] at early
  exact late.eq_of_length_le early.length_le

/-- Once a later row is visible, the transaction is complete. -/
theorem complete_of_later (ht : t ∈ log.commits) {row : PGIndexRow Row}
    (visible : row ∈ log.index seen) (later : t.lsn < row.lsn) : log.Complete seen t := by
  have rest : rowsAt t.lsn (log.rows.drop seen) = [] := by
    refine filter_eq_nil_iff.mpr fun other member => ?_
    have ordered := log.rows_ordered
    rw [← take_append_drop seen log.rows, pairwise_append] at ordered
    have := ordered.2.2 row visible other member
    simp only [decide_eq_true_eq]
    omega
  have all := rowsAt_rows ht
  unfold rowsAt at all rest
  rw [← take_append_drop seen log.rows, filter_append, rest, append_nil] at all
  exact all

theorem complete_of_all (ht : t ∈ log.commits) (all : log.rows.length ≤ seen) :
    log.Complete seen t := by
  unfold Complete index
  rw [take_of_length_le all]
  exact rowsAt_rows ht

end PGCommitLog

/-! ## One fold -/

/-- When a run reads the index, by how many rows are visible then. -/
structure PGFoldInput : Type where
  at_ : ℤ
  newestSeen : ℕ
  searchSeen : ℕ
  checkpointSeen : ℕ
  checkpoint : Option ℕ
  fetchSeen : ℕ

namespace PGCommitLog

variable (log : PGCommitLog Row)

def reads (input : PGFoldInput) : PGIndexReads Row where
  newest := log.index input.newestSeen
  search := log.index input.searchSeen
  checkpoint := input.checkpoint
  fetch := log.index input.fetchSeen

/-- The reads come one after the other, and a checkpoint is saved when the rows of every
transaction up to it are visible. -/
structure Follows (input : PGFoldInput) : Prop where
  search : input.newestSeen ≤ input.searchSeen
  checkpoint : input.searchSeen ≤ input.checkpointSeen
  fetch : input.checkpointSeen ≤ input.fetchSeen
  saved : ∀ lsn ∈ input.checkpoint, ∀ t ∈ log.commits, t.lsn ≤ lsn →
    log.Complete input.checkpointSeen t

variable {log} {input : PGFoldInput} {run : PGRunEnd} {row : PGIndexRow Row}

theorem Complete.visible (complete : log.Complete seen t) (member : row ∈ t.rows) :
    row ∈ log.index seen := by
  rw [← complete] at member
  exact mem_of_mem_filter member

/-- No row of a whole transaction is past the target when the search found none. -/
theorem Complete.not_past (complete : log.Complete seen t) {at_ : ℤ}
    (found : (log.index seen).find? (fun row => decide (at_ < row.eventTimestamp)) = none)
    (member : row ∈ t.rows) : row.eventTimestamp ≤ at_ := by
  have := find?_eq_none.mp found row (complete.visible member)
  simpa using this

/-- The transactions before the first row past the target are whole, and not past it. -/
theorem before_firstPast (ht : t ∈ log.commits) {at_ : ℤ} {cut : PGIndexRow Row}
    (found : (log.index seen).find? (fun row => decide (at_ < row.eventTimestamp)) = some cut)
    (before : t.lsn < cut.lsn) :
    log.Complete seen t ∧ ∀ row ∈ t.rows, row.eventTimestamp ≤ at_ := by
  have complete := complete_of_later ht (mem_of_find?_eq_some found) before
  refine ⟨complete, fun row member => ?_⟩
  obtain ⟨-, early, late, split, notPast⟩ := find?_eq_some_iff_append.mp found
  have ordered : (log.index seen).Pairwise fun a b => a.lsn ≤ b.lsn :=
    log.rows_ordered.sublist (take_sublist _ _)
  have visible := complete.visible member
  rw [split, pairwise_append, pairwise_cons] at ordered
  rw [split, mem_append, mem_cons] at visible
  have lsn := (PGCommit.of_mem_rows member).1
  rcases visible with inEarly | rfl | inLate
  · simpa using notPast row inEarly
  · omega
  · have := ordered.2.1.1 row inLate
    omega

/-- A transaction at or after an indexed row committed within the margin of it. -/
theorem commitTime_of_row_le (ht : t ∈ log.commits) (visible : row ∈ log.index seen)
    (le : row.lsn ≤ t.lsn) :
    row.eventTimestamp ≤ t.commitTime + pgDeltaMargin := by
  obtain ⟨u, hu, member⟩ := commit_of_mem_rows (index_subset seen visible)
  obtain ⟨lsn, time⟩ := PGCommit.of_mem_rows member
  rw [time]
  exact commitTime_le hu ht (by omega)

/-- The transactions up to a run's end are whole when they are fetched, and none of their rows is
past the target; those after it committed no earlier than the bound the fold records. -/
theorem runEnd_splits (follows : log.Follows input)
    (ends : resolvePGRunEnd (log.reads input) input.at_ = .ok run) (some : run.none = false)
    {t : PGCommit Row} (ht : t ∈ log.commits) :
    (t.lsn ≤ run.until_ → log.Complete input.fetchSeen t ∧
      ∀ row ∈ t.rows, row.eventTimestamp ≤ input.at_) ∧
    (run.until_ < t.lsn → min run.at_ run.newestAt - pgDeltaMargin ≤ t.commitTime) := by
  obtain ⟨atTarget, none | ⟨-, newest, last, newestAt, pos, how⟩⟩ :=
    resolvePGRunEnd_ok ends
  · rw [some] at none
    cases none
  have newestVisible : newest ∈ log.index input.newestSeen := mem_of_getLast? last
  have fetched := follows.checkpoint.trans follows.fetch
  rw [atTarget, newestAt]
  rcases how with ⟨cut, found, cutPos, -, until_⟩ | ⟨found, how⟩
  · -- The run ends before the first row past the target.
    rw [until_]
    refine ⟨fun le => ?_, fun lt => ?_⟩
    · obtain ⟨complete, times⟩ := before_firstPast ht found (by omega)
      exact ⟨complete.mono ht fetched, times⟩
    · have past : input.at_ < cut.eventTimestamp := by simpa using find?_some found
      have cutVisible : cut ∈ log.index input.searchSeen := mem_of_find?_eq_some found
      have := commitTime_of_row_le ht cutVisible (by omega)
      omega
  -- Nothing is past the target: the newest row's transaction is in or out by the checkpoint.
  have earlier : t.lsn < newest.lsn → log.Complete input.searchSeen t := fun lt =>
    (complete_of_later ht newestVisible lt).mono ht follows.search
  have late : newest.lsn ≤ t.lsn →
      min input.at_ newest.eventTimestamp - pgDeltaMargin ≤ t.commitTime := by
    intro le
    have := commitTime_of_row_le ht newestVisible le
    omega
  rcases how with ⟨⟨saved, isSaved, covers⟩, until_⟩ | until_
  · rw [until_]
    refine ⟨fun le => ⟨?_, fun row member => ?_⟩, fun lt => late lt.le⟩
    · exact (follows.saved saved isSaved t ht (le.trans covers)).mono ht follows.fetch
    · rcases lt_or_eq_of_le le with lt | same
      · exact (earlier lt).not_past found member
      · obtain ⟨u, hu, inU⟩ := commit_of_mem_rows (index_subset _ newestVisible)
        obtain ⟨lsn, time⟩ := PGCommit.of_mem_rows inU
        obtain rfl : t = u := eq_of_lsn ht hu (same.trans lsn)
        have := find?_eq_none.mp found newest (index_mono follows.search newestVisible)
        rw [(PGCommit.of_mem_rows member).2, ← time]
        simpa using this
  · rw [until_]
    refine ⟨fun le => ?_, fun lt => late (by omega)⟩
    have complete := earlier (by omega)
    exact ⟨complete.mono ht fetched, fun row member => complete.not_past found member⟩

/-- What a fold of a table from `s` does with a transaction: it reads the ones between its floor
and the LSN it records, whole, and bounds the time of the ones after that. -/
structure FoldsFrom (table : String) (s : PGSnapshot) (record : PGFoldRecord Row)
    (t : PGCommit Row) : Prop where
  whole : rowsAt t.lsn record.read = [] ∨ rowsAt t.lsn record.read = t.rowsOf table
  before : t.lsn < s.lsn → rowsAt t.lsn record.read = []
  after : record.snapshot.lsn ≤ t.lsn → rowsAt t.lsn record.read = []
  inside : pgDeltaWindow s ≤ t.commitTime → s.lsn ≤ t.lsn → t.lsn < record.snapshot.lsn →
    rowsAt t.lsn record.read = t.rowsOf table
  bound : (s.lsn ≤ t.lsn → pgDeltaWindow s ≤ t.commitTime) → record.snapshot.lsn ≤ t.lsn →
    ∃ since ∈ record.snapshot.pgDeltaSince, since ≤ t.commitTime

/-- The rows of a whole transaction in a fold's window: all of the table's, or none by time. -/
theorem rowsAt_foldWindowPG (complete : log.Complete seen t) (table : String) (since at_ : ℤ)
    (floor : ℕ) (b : PGFoldBounds) {until_ : ℕ} (upTo : b.until_ = some until_)
    (times : ∀ row ∈ t.rows, row.eventTimestamp ≤ at_) (le : t.lsn ≤ until_) (ge : floor ≤ t.lsn) :
    rowsAt t.lsn (foldWindowPG (log.index seen) table since at_ floor b) =
      if coarseSinceFloor since ≤ t.commitTime then t.rowsOf table else [] := by
  have swap : rowsAt t.lsn (foldWindowPG (log.index seen) table since at_ floor b) =
      (rowsAt t.lsn (log.index seen)).filter fun row =>
        row.table == table && decide (coarseSinceFloor since ≤ row.eventTimestamp) &&
          decide (floor ≤ row.lsn) && decide (row.eventTimestamp ≤ at_) &&
          decide (row.lsn ≤ until_) := by
    unfold foldWindowPG rowsAt
    rw [upTo]
    exact filter_comm _ _ _
  rw [swap, complete]
  split
  · rename_i reaches
    refine filter_congr fun row member => ?_
    obtain ⟨lsn, time⟩ := PGCommit.of_mem_rows member
    have notPast := times row member
    rw [time] at notPast
    simp [lsn, time, reaches, ge, le, notPast]
  · rename_i short
    refine filter_eq_nil_iff.mpr fun row member => ?_
    simp [(PGCommit.of_mem_rows member).2, short]

/-- A fold's window has only rows between its floor and its end. -/
theorem rowsAt_foldWindowPG_nil (index : List (PGIndexRow Row)) (table : String) (since at_ : ℤ)
    (floor : ℕ) (b : PGFoldBounds) {until_ lsn : ℕ} (upTo : b.until_ = some until_)
    (outside : lsn < floor ∨ until_ < lsn) :
    rowsAt lsn (foldWindowPG index table since at_ floor b) = [] := by
  refine filter_eq_nil_iff.mpr fun row member => ?_
  unfold foldWindowPG at member
  rw [upTo, mem_filter] at member
  have within := member.2
  simp only [Bool.and_eq_true, decide_eq_true_eq] at within ⊢
  omega

/-- Step: one fold, whatever became visible while it ran. -/
theorem reconstructPGTable_foldsFrom {table : String} {s : PGSnapshot} {record : PGFoldRecord Row}
    (follows : log.Follows input)
    (folded : reconstructPGTable (log.reads input) table s input.at_ = .ok record)
    {t : PGCommit Row} (ht : t ∈ log.commits) : FoldsFrom table s record t := by
  have unit : 0 < second := by decide
  rcases reconstructPGTable_ok folded with
    rfl | ⟨run, since, ends, some, le, isSince, rfl⟩
  · exact {
      whole := .inl rfl
      before := fun _ => rfl
      after := fun _ => rfl
      inside := fun _ ge lt => absurd ge (Nat.not_le.mpr lt)
      bound := fun window ge =>
        ⟨_, rfl, (truncateTo_le unit).trans (window ge)⟩ }
  · obtain ⟨upTo, past⟩ := runEnd_splits follows ends some ht
    have outside : t.lsn < s.lsn ∨ run.until_ < t.lsn → _ :=
      rowsAt_foldWindowPG_nil (log.index input.fetchSeen) table (pgDeltaWindow s) input.at_
        s.lsn ⟨Option.some run.until_, run.until_ + 1, since⟩ rfl
    have within : s.lsn ≤ t.lsn → t.lsn ≤ run.until_ → _ := fun ge le =>
      rowsAt_foldWindowPG (upTo le).1 table (pgDeltaWindow s) input.at_ s.lsn
        ⟨Option.some run.until_, run.until_ + 1, since⟩ rfl (upTo le).2 le ge
    refine ⟨?_, fun lt => outside (.inl lt),
      fun lt => outside (.inr lt), fun window ge lt => ?_, fun _ lt => ⟨since, rfl, ?_⟩⟩
    · by_cases between : s.lsn ≤ t.lsn ∧ t.lsn ≤ run.until_
      · have read := within between.1 between.2
        split at read
        · exact .inr read
        · exact .inl read
      · exact .inl (outside (by omega))
    · have read := within ge (Nat.lt_succ_iff.mp lt)
      rwa [if_pos ((coarseSinceFloor_le _).trans window)] at read
    · rw [isSince]
      exact (truncateTo_le unit).trans (past lt)

end PGCommitLog

/-! ## A chain of folds -/

/-- A first snapshot and the folds made from it one after the other. A fold refuses a target
before its snapshot's time. -/
inductive PGFoldChain (log : PGCommitLog Row) (table : String) (first : PGSnapshot) :
    PGSnapshot → List (PGFoldRecord Row) → Prop where
  | start : PGFoldChain log table first first []
  | fold {s : PGSnapshot} {records : List (PGFoldRecord Row)} {record : PGFoldRecord Row}
      (chain : PGFoldChain log table first s records) (input : PGFoldInput)
      (follows : log.Follows input)
      (folded : reconstructPGTable (log.reads input) table s input.at_ = .ok record) :
      PGFoldChain log table first record.snapshot (records ++ [record])

/-- Exactly one of the folds reads the transaction, and reads it whole. -/
def ReadOnce (records : List (PGFoldRecord Row)) (table : String) (t : PGCommit Row) : Prop :=
  ∃ before r after, records = before ++ r :: after ∧ rowsAt t.lsn r.read = t.rowsOf table ∧
    ∀ other ∈ before ++ after, rowsAt t.lsn other.read = []

/-- What the folds up to `s` have done with a transaction. -/
structure PGFolded (table : String) (first s : PGSnapshot) (records : List (PGFoldRecord Row))
    (t : PGCommit Row) : Prop where
  whole : ∀ r ∈ records, rowsAt t.lsn r.read = [] ∨ rowsAt t.lsn r.read = t.rowsOf table
  apart : records.Pairwise fun a b => rowsAt t.lsn a.read = [] ∨ rowsAt t.lsn b.read = []
  left : s.lsn ≤ t.lsn → ∀ r ∈ records, rowsAt t.lsn r.read = []
  read : pgDeltaWindow first ≤ t.commitTime → first.lsn ≤ t.lsn → t.lsn < s.lsn →
    ReadOnce records table t
  bound : pgDeltaWindow first ≤ t.commitTime → ∀ r ∈ records, r.snapshot.lsn ≤ t.lsn →
    ∃ since ∈ r.snapshot.pgDeltaSince, since ≤ t.commitTime
  window : pgDeltaWindow first ≤ t.commitTime → s.lsn ≤ t.lsn → pgDeltaWindow s ≤ t.commitTime

/-- A time bound a snapshot records is one its reader goes by. -/
theorem pgDeltaWindow_le {since bound : ℤ} (recorded : since ∈ s.pgDeltaSince)
    (le : since ≤ bound) : pgDeltaWindow s ≤ bound := by
  unfold pgDeltaWindow
  rw [Option.mem_def.mp recorded]
  exact (min_le_left _ _).trans le

theorem PGFolded.start (table : String) (first : PGSnapshot) (t : PGCommit Row) :
    PGFolded table first first [] t where
  whole := by simp
  apart := List.Pairwise.nil
  left := by simp
  read := fun _ ge lt => absurd ge (Nat.not_le.mpr lt)
  bound := by simp
  window := fun window _ => window

theorem PGFolded.fold {record : PGFoldRecord Row} (folded : PGFolded table first s records t)
    (lsn_le : s.lsn ≤ record.snapshot.lsn) (step : PGCommitLog.FoldsFrom table s record t) :
    PGFolded table first record.snapshot (records ++ [record]) t := by
  have bound : pgDeltaWindow first ≤ t.commitTime → record.snapshot.lsn ≤ t.lsn →
      ∃ since ∈ record.snapshot.pgDeltaSince, since ≤ t.commitTime := fun window =>
    step.bound (folded.window window)
  refine ⟨?_, ?_, ?_, fun window ge lt => ?_, fun window => ?_, fun window ge => ?_⟩
  · simpa [or_imp, forall_and] using ⟨folded.whole, step.whole⟩
  · refine pairwise_append.mpr ⟨folded.apart, pairwise_singleton _ _, fun a ha b hb => ?_⟩
    rw [mem_singleton.mp hb]
    by_cases before : t.lsn < s.lsn
    · exact .inr (step.before before)
    · exact .inl (folded.left (not_lt.mp before) a ha)
  · intro ge
    simpa [or_imp, forall_and] using ⟨folded.left (lsn_le.trans ge), step.after ge⟩
  · by_cases before : t.lsn < s.lsn
    · obtain ⟨early, r, late, rfl, reads, others⟩ := folded.read window ge before
      refine ⟨early, r, late ++ [record], by simp, reads, fun other member => ?_⟩
      rw [← append_assoc, mem_append] at member
      rcases member with old | new
      · exact others other old
      · rw [mem_singleton.mp new]
        exact step.before before
    · have atOrAfter := not_lt.mp before
      refine ⟨records, record, [], rfl, step.inside (folded.window window atOrAfter) atOrAfter lt,
        fun other member => ?_⟩
      rw [append_nil] at member
      exact folded.left atOrAfter other member
  · simpa [or_imp, forall_and] using ⟨folded.bound window, bound window⟩
  · obtain ⟨since, recorded, le⟩ := bound window ge
    exact pgDeltaWindow_le recorded le

theorem PGFoldChain.ordered {log : PGCommitLog Row}
    (chain : PGFoldChain log table first s records) :
    ((first :: records.map PGFoldRecord.snapshot).Pairwise fun a b => a.lsn ≤ b.lsn) ∧
      ∀ a ∈ first :: records.map PGFoldRecord.snapshot, a.lsn ≤ s.lsn := by
  induction chain with
  | start => simp
  | fold _ input follows folded ih =>
    obtain ⟨ordered, last⟩ := ih
    have le := reconstructPGTable_lsn_le folded
    rw [map_append, ← cons_append, pairwise_append]
    refine ⟨⟨ordered, pairwise_singleton _ _, fun a ha b hb => ?_⟩, fun a ha => ?_⟩
    · rw [mem_singleton.mp hb]
      exact (last a ha).trans le
    · rcases mem_append.mp ha with early | isLast
      · exact (last a early).trans le
      · rw [mem_singleton.mp isLast]

theorem PGFoldChain.folded {log : PGCommitLog Row} (chain : PGFoldChain log table first s records)
    (ht : t ∈ log.commits) : PGFolded table first s records t := by
  induction chain with
  | start => exact .start table first t
  | fold _ input follows folded ih =>
    exact ih.fold (reconstructPGTable_lsn_le folded)
      (PGCommitLog.reconstructPGTable_foldsFrom follows folded ht)

/-- **PostgreSQL folds partition the commits.** No two folds read rows of one transaction, none
reads part of one, and the ones at or after the last recorded LSN are left whole. A transaction
that committed within the first snapshot's window is read by exactly one of the folds before that
LSN, and no recorded time bound is after its commit. Recorded LSNs never decrease. -/
theorem pgFolds_partition {log : PGCommitLog Row} {table : String} {first s : PGSnapshot}
    {records : List (PGFoldRecord Row)} (chain : PGFoldChain log table first s records) :
    ((first :: records.map PGFoldRecord.snapshot).Pairwise fun a b => a.lsn ≤ b.lsn) ∧
    ∀ t ∈ log.commits,
      (∀ r ∈ records, rowsAt t.lsn r.read = [] ∨ rowsAt t.lsn r.read = t.rowsOf table) ∧
      (records.Pairwise fun a b => rowsAt t.lsn a.read = [] ∨ rowsAt t.lsn b.read = []) ∧
      (s.lsn ≤ t.lsn → ∀ r ∈ records, rowsAt t.lsn r.read = []) ∧
      (pgDeltaWindow first ≤ t.commitTime →
        (first.lsn ≤ t.lsn → t.lsn < s.lsn → ReadOnce records table t) ∧
        ∀ r ∈ records, r.snapshot.lsn ≤ t.lsn →
          ∃ since ∈ r.snapshot.pgDeltaSince, since ≤ t.commitTime) := by
  refine ⟨chain.ordered.1, fun t ht => ?_⟩
  have folded := chain.folded ht
  exact ⟨folded.whole, folded.apart, folded.left, fun window =>
    ⟨folded.read window, folded.bound window⟩⟩

/-- Two transactions after a baseline, the second of two rows. -/
def twoCommits : PGCommitLog String where
  commits := [⟨10, 10 * second, [("orders", "a")]⟩,
    ⟨20, 20 * second, [("orders", "b"), ("orders", "c")]⟩]
  lsn_pos := by decide
  ordered := by decide

def twoCommitsFirst : PGFoldRecord String :=
  ⟨[⟨10, 10 * second, "orders", "a"⟩], ⟨30 * second, 20, some (-40 * second)⟩⟩

def twoCommitsSecond : PGFoldRecord String :=
  ⟨[⟨20, 20 * second, "orders", "b"⟩, ⟨20, 20 * second, "orders", "c"⟩],
    ⟨40 * second, 21, some (-40 * second)⟩⟩

/-- A fold while one row of the second transaction is visible leaves it to the next, which takes it
by the checkpoint. -/
theorem twoCommits_partition :
    PGFoldChain twoCommits "orders" ⟨0, 5, none⟩ twoCommitsSecond.snapshot
        [twoCommitsFirst, twoCommitsSecond] ∧
      ∀ t ∈ twoCommits.commits, ReadOnce [twoCommitsFirst, twoCommitsSecond] "orders" t := by
  have first : reconstructPGTable (twoCommits.reads ⟨30 * second, 2, 2, 2, none, 2⟩) "orders"
      ⟨0, 5, none⟩ (30 * second) = .ok twoCommitsFirst := by decide
  have second : reconstructPGTable (twoCommits.reads ⟨40 * second, 3, 3, 3, some 20, 3⟩) "orders"
      twoCommitsFirst.snapshot (40 * second) = .ok twoCommitsSecond := by decide
  have both := (PGFoldChain.start.fold _ ⟨by decide, by decide, by decide, by simp⟩ first).fold _
    ⟨by decide, by decide, by decide,
      fun _ _ _ ht _ => PGCommitLog.complete_of_all ht (by decide)⟩ second
  refine ⟨both, fun t ht => ?_⟩
  have within : pgDeltaWindow ⟨0, 5, none⟩ ≤ t.commitTime ∧ 5 ≤ t.lsn ∧ t.lsn < 21 := by
    revert t
    decide
  exact (((pgFolds_partition both).2 t ht).2.2.2 within.1).1 within.2.1 within.2.2

/-- Capture is five hours behind when the baseline is taken: the second transaction is past the
LSN floor and not yet delivered. -/
def lateCapture : PGCommitLog String where
  commits := [⟨5, -6 * hour, [("orders", "a")]⟩, ⟨10, -5 * hour, [("orders", "b")]⟩,
    ⟨20, 10 * second, [("orders", "c")]⟩]
  lsn_pos := by decide
  ordered := by decide

def lateCaptureNothing : PGFoldRecord String := ⟨[], ⟨5 * second, 8, some (-60 * second)⟩⟩

def lateCaptureNext : PGFoldRecord String :=
  ⟨[⟨20, 10 * second, "orders", "c"⟩], ⟨30 * second, 21, some (-50 * second)⟩⟩

/-- A fold of nothing records a bound after the undelivered transaction's commit, and the next fold
goes past it without reading it. (The baseline holds its row.) -/
theorem lateCapture_not_read :
    PGFoldChain lateCapture "orders" ⟨0, 8, none⟩ lateCaptureNext.snapshot
        [lateCaptureNothing, lateCaptureNext] ∧
      ∃ t ∈ lateCapture.commits, 8 ≤ t.lsn ∧ t.lsn < lateCaptureNext.snapshot.lsn ∧
        t.rowsOf "orders" ≠ [] ∧
        (∀ r ∈ [lateCaptureNothing, lateCaptureNext], rowsAt t.lsn r.read = []) ∧
        lateCaptureNothing.snapshot.lsn ≤ t.lsn ∧
        ∃ since ∈ lateCaptureNothing.snapshot.pgDeltaSince, t.commitTime < since := by
  have nothing : reconstructPGTable (lateCapture.reads ⟨5 * second, 1, 1, 1, none, 1⟩) "orders"
      ⟨0, 8, none⟩ (5 * second) = .ok lateCaptureNothing := by decide
  have next : reconstructPGTable (lateCapture.reads ⟨30 * second, 3, 3, 3, some 20, 3⟩) "orders"
      lateCaptureNothing.snapshot (30 * second) = .ok lateCaptureNext := by decide
  refine ⟨(PGFoldChain.start.fold _ ⟨by decide, by decide, by decide, by simp⟩ nothing).fold _
    ⟨by decide, by decide, by decide,
      fun _ _ _ ht _ => PGCommitLog.complete_of_all ht (by decide)⟩ next,
    ⟨10, -5 * hour, [("orders", "b")]⟩, mem_cons_of_mem _ mem_cons_self, by decide,
    by decide, by decide, by decide, by decide, -60 * second, rfl, by decide⟩

end Dbtrail
