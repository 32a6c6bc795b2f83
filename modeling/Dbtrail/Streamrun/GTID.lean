import Dbtrail.Streamrun.Recovery

/-!
# GTID mode

In GTID mode a checkpoint holds the set of GTIDs whose end was read and the
position of the last event. The source sends again the transactions the set
lacks, whole, so the cleanup takes the rows at or beyond the position and, below
it, those of the transaction that was open.

Two saves break this. A CREATE TABLE ... SELECT claims its GTID at the DDL, ahead
of its rows, and a checkpoint between the two claims rows the index does not hold.
And a resumed run has no position until its first event, so a checkpoint before it
names no file and the next cleanup does nothing. `SafeToSave` is the rest.
-/

namespace Dbtrail

open List Capture

variable {Row : Type}

/-! ## The source's log -/

inductive TxnShape : Type
  | rows
  | ddl
  | createSelect
  deriving DecidableEq, Repr

/-- A transaction as the stream parser sends it. The rows of a CREATE TABLE ...
SELECT carry no GTID: the DDL in front of them consumed it. -/
structure SourceTxn (Row : Type) : Type where
  gtid : String
  shape : TxnShape
  file : String
  gtidPos : ℕ
  ddlPos : ℕ
  rows : List (StreamEvent Row)
  endPos : ℕ
  gtid_named : gtid ≠ ""
  file_named : file ≠ ""
  isRow : ∀ ev ∈ rows, ev.isRow = true
  inFile : ∀ ev ∈ rows, ev.binlogFile = file
  rowGTID : ∀ ev ∈ rows, ev.gtid = if shape = .createSelect then "" else gtid
  within : ∀ ev ∈ rows, gtidPos ≤ ev.startPos ∧ ev.startPos < ev.endPos ∧ ev.endPos ≤ endPos
  ddl_within : gtidPos ≤ ddlPos ∧ ddlPos ≤ endPos
  ddl_end : shape = .ddl → rows = [] ∧ ddlPos = endPos

namespace SourceTxn

variable (t : SourceTxn Row)

def gtidEvent : StreamEvent Row where
  eventType := .gtid
  binlogFile := t.file
  startPos := 0
  endPos := t.gtidPos
  gtid := t.gtid

def ddlEvent : StreamEvent Row where
  eventType := .ddl
  binlogFile := t.file
  startPos := 0
  endPos := t.ddlPos
  gtid := t.gtid

def commitEvent : StreamEvent Row where
  eventType := .commit
  binlogFile := t.file
  startPos := 0
  endPos := t.endPos
  gtid := if t.shape = .createSelect then "" else t.gtid

/-- What follows the GTID event. -/
def body : List (StreamEvent Row) :=
  match t.shape with
  | .rows => t.rows ++ [t.commitEvent]
  | .ddl => [t.ddlEvent]
  | .createSelect => t.ddlEvent :: (t.rows ++ [t.commitEvent])

def events : List (StreamEvent Row) := t.gtidEvent :: t.body

/-- Binlog order of two transactions. -/
def Before (t u : SourceTxn Row) : Prop :=
  fileBefore t.file u.file = true ∨ t.file = u.file ∧ t.endPos ≤ u.gtidPos

instance (t u : SourceTxn Row) : Decidable (Before t u) :=
  inferInstanceAs (Decidable (fileBefore t.file u.file = true ∨ _))

theorem rowsOf_rows : rowsOf t.rows = t.rows := filter_eq_self.mpr t.isRow

theorem rowsOf_events : rowsOf t.events = t.rows := by
  have marks : t.gtidEvent.isRow = false ∧ t.ddlEvent.isRow = false ∧ t.commitEvent.isRow = false :=
    ⟨rfl, rfl, rfl⟩
  have rows : t.rows.filter StreamEvent.isRow = t.rows := t.rowsOf_rows
  unfold events body
  cases shape : t.shape with
  | rows => simp [rowsOf, marks, rows]
  | ddl => simp [rowsOf, marks, (t.ddl_end shape).1]
  | createSelect => simp [rowsOf, marks, rows]

end SourceTxn

open SourceTxn

/-- A log read from a start set, with the coordinates a run without a checkpoint
starts from. -/
structure GTIDLog (Row : Type) : Type where
  startFile : String
  startPos : ℕ
  startSet : GTIDSet
  txns : List (SourceTxn Row)
  distinct : (txns.map gtid).Nodup
  unsent : ∀ t ∈ txns, t.gtid ∉ startSet
  ordered : txns.Pairwise Before
  beyond : ∀ t ∈ txns, fileBefore startFile t.file = true ∨
    startFile = t.file ∧ startPos ≤ t.gtidPos

theorem rowsOf_flatMap_events (txns : List (SourceTxn Row)) :
    rowsOf (txns.flatMap SourceTxn.events) = txns.flatMap rows := by
  induction txns with
  | nil => rfl
  | cons t txns ih =>
    rw [flatMap_cons, rowsOf_append, t.rowsOf_events, ih, flatMap_cons]

namespace GTIDLog

variable (src : GTIDLog Row)

def events : List (StreamEvent Row) := src.txns.flatMap SourceTxn.events

/-- The GTIDs of the start and of the transactions `done`. -/
def SetOf (done : List (SourceTxn Row)) (set : GTIDSet) : Prop :=
  ∀ g, g ∈ set ↔ g ∈ src.startSet ∨ g ∈ done.map gtid

/-- A position that tells the rows of `done` from those of the rest: the former lie
below it, and the latter at or beyond it or, in its file, under a GTID of the rest. -/
structure Point (file : String) (pos : ℕ) (done rest : List (SourceTxn Row)) : Prop where
  named : file ≠ ""
  keeps : ∀ t ∈ done, ∀ ev ∈ t.rows, atOrBeyond file pos ev = false
  sweeps : ∀ t ∈ rest, ∀ ev ∈ t.rows,
    atOrBeyond file pos ev = true ∨ ev.binlogFile = file ∧ ev.gtid = t.gtid

/-- A checkpoint whose set is that of `pre`, with a position to tell its rows by. -/
def Claims (cp : Checkpoint) (pre : List (StreamEvent Row)) : Prop :=
  ∃ done rest, src.txns = done ++ rest ∧ pre = done.flatMap SourceTxn.events ∧
    src.SetOf done cp.gtidSet ∧ Point cp.binlogFile cp.binlogPos done rest

end GTIDLog

theorem atOrBeyond_of_before {t u : SourceTxn Row} (before : t.Before u) {pos : ℕ}
    (le : pos ≤ t.endPos) {ev : StreamEvent Row} (row : ev ∈ u.rows) :
    atOrBeyond t.file pos ev = true := by
  have file := u.inFile ev row
  rcases before with later | ⟨same, bound⟩
  · simp [atOrBeyond, file, later]
  · have low := (u.within ev row).1
    have start : pos ≤ ev.startPos := by omega
    simp [atOrBeyond, file, same, start]

theorem not_atOrBeyond_of_before {t u : SourceTxn Row} (before : t.Before u) {pos : ℕ}
    (le : u.gtidPos ≤ pos) {ev : StreamEvent Row} (row : ev ∈ t.rows) :
    atOrBeyond u.file pos ev = false := by
  have file := t.inFile ev row
  rcases before with later | ⟨same, bound⟩
  · obtain ⟨notAfter, ne⟩ := fileBefore_asymm later
    simp [atOrBeyond, file, notAfter, ne]
  · obtain ⟨-, start, high⟩ := t.within ev row
    have below : ev.startPos < pos := by omega
    simp [atOrBeyond, file, same, fileBefore_irrefl, below]

namespace GTIDLog

variable (src : GTIDLog Row) {done rest : List (SourceTxn Row)} {t : SourceTxn Row}

theorem before_of_split (split : src.txns = done ++ t :: rest) :
    (∀ u ∈ done, u.Before t) ∧ ∀ u ∈ rest, t.Before u := by
  have ordered := src.ordered
  rw [split, pairwise_append] at ordered
  exact ⟨fun u member => ordered.2.2 u member t (by simp),
    fun u member => rel_of_pairwise_cons ordered.2.1 member⟩

/-- A position inside a transaction that is not ended. -/
theorem point_inside (split : src.txns = done ++ t :: rest) {pos : ℕ} (low : t.gtidPos ≤ pos)
    (high : pos ≤ t.endPos) (open' : ∀ ev ∈ t.rows, pos ≤ ev.startPos ∨ ev.gtid = t.gtid) :
    Point t.file pos done (t :: rest) where
  named := t.file_named
  keeps := fun u member _ row =>
    not_atOrBeyond_of_before ((src.before_of_split split).1 u member) low row
  sweeps := by
    intro u member ev row
    rcases mem_cons.mp member with rfl | member
    · have file := u.inFile ev row
      rcases open' ev row with start | gtid
      · exact .inl (by simp [atOrBeyond, file, start])
      · exact .inr ⟨file, gtid⟩
    · exact .inl (atOrBeyond_of_before ((src.before_of_split split).2 u member) high row)

/-- The end of a transaction. -/
theorem point_after (split : src.txns = done ++ t :: rest) :
    Point t.file t.endPos (done ++ [t]) rest where
  named := t.file_named
  keeps := by
    intro u member ev row
    rcases mem_append.mp member with member | member
    · exact not_atOrBeyond_of_before ((src.before_of_split split).1 u member)
        (t.ddl_within.1.trans t.ddl_within.2) row
    · rw [mem_singleton.mp member] at row
      obtain ⟨-, start, high⟩ := t.within ev row
      have below : ev.startPos < t.endPos := by omega
      simp [atOrBeyond, t.inFile ev row, fileBefore_irrefl, below]
  sweeps := fun u member _ row =>
    .inl (atOrBeyond_of_before ((src.before_of_split split).2 u member) le_rfl row)

theorem point_start (named : src.startFile ≠ "") :
    Point src.startFile src.startPos [] src.txns where
  named := named
  keeps := by simp
  sweeps := by
    intro t member ev row
    have file := t.inFile ev row
    rcases src.beyond t member with later | ⟨same, low⟩
    · exact .inl (by simp [atOrBeyond, file, later])
    · have start : src.startPos ≤ ev.startPos := low.trans (t.within ev row).1
      exact .inl (by simp [atOrBeyond, file, same, start])

/-- A GTID of the rest is in neither the start set nor the part done. -/
theorem not_mem_set (split : src.txns = done ++ rest) {set : GTIDSet} (claimed : src.SetOf done set)
    (member : t ∈ rest) : t.gtid ∉ set := by
  rw [claimed t.gtid]
  rintro (start | inDone)
  · exact src.unsent t (by rw [split]; simp [member]) start
  · have distinct := src.distinct
    rw [split, map_append] at distinct
    exact disjoint_of_nodup_append distinct inDone (mem_map_of_mem member)

/-- What the source sends again: the transactions the set lacks. -/
theorem resent_eq (split : src.txns = done ++ rest) {set : GTIDSet} (claimed : src.SetOf done set) :
    src.txns.filter (fun t => !set.contains t.gtid) = rest := by
  have sentOnce : done.filter (fun t => !set.contains t.gtid) = [] := by
    refine filter_eq_nil_iff.mpr fun t member => ?_
    have inSet : t.gtid ∈ set := (claimed t.gtid).mpr (.inr (mem_map_of_mem member))
    simp [inSet]
  have missing : rest.filter (fun t => !set.contains t.gtid) = rest := by
    refine filter_eq_self.mpr fun t member => ?_
    have notIn := src.not_mem_set split claimed member
    simp [notIn]
  rw [split, filter_append, sentOnce, missing, nil_append]

end GTIDLog

/-! ## The cleanup -/

/-- The two passes over what a run left take the rows of the transactions the set
lacks, and nothing else. -/
theorem deleteEventsSinceCheckpointGTID_eq {src : GTIDLog Row} {old : List (ℕ × StreamEvent Row)}
    {done rest : List (SourceTxn Row)} {db : StreamDB Row} (split : src.txns = done ++ rest)
    (claimed : src.SetOf done db.saved.gtidSet)
    (point : GTIDLog.Point db.saved.binlogFile db.saved.binlogPos done rest)
    (leaves : Leaves old src.events (done.flatMap events) db.saved.dedupFloorID db.rows) :
    ∃ new, deleteEventsSinceCheckpointGTID db db.saved.binlogFile db.saved.binlogPos
        db.saved.gtidSet db.saved.dedupFloorID = { db with rows := old ++ new } ∧
      new.map Prod.snd = rowsOf (done.flatMap events) := by
  set file := db.saved.binlogFile with hfile
  set pos := db.saved.binlogPos with hpos
  set floor := db.saved.dedupFloorID with hfloor
  set first := db.rows.filter (fun x => !(aboveFloor floor x.1 && atOrBeyond file pos x.2))
    with hfirst
  set stragglers := (first.filter fun x =>
    aboveFloor floor x.1 && x.2.binlogFile == file && decide (x.2.startPos < pos) &&
      x.2.gtid != "" && !db.saved.gtidSet.contains x.2.gtid).map (fun x => x.2.gtid)
    with hstragglers
  let keep (x : ℕ × StreamEvent Row) : Bool :=
    !(stragglers.contains x.2.gtid && x.2.binlogFile == file && aboveFloor floor x.1) &&
      !(aboveFloor floor x.1 && atOrBeyond file pos x.2)
  have passes : deleteEventsSinceCheckpointGTID db file pos db.saved.gtidSet floor =
      { db with rows := db.rows.filter keep } := by
    simp only [deleteEventsSinceCheckpointGTID, deleteEventsSinceCheckpoint, if_neg point.named]
    rw [← hfirst, ← hstragglers, hfirst, filter_filter]
  have log_eq : src.events = done.flatMap events ++ rest.flatMap events := by
    rw [GTIDLog.events, split, flatMap_append]
  have keepsOld : ∀ x ∈ old, keep x = true := by
    intro x member
    have below := leaves.oldIDs x member
    have low : aboveFloor floor x.1 = false := by
      simp [aboveFloor, Nat.ne_of_gt (Nat.zero_lt_of_lt below), below]
    simp [keep, low]
  have keepsDone : ∀ x ∈ db.rows, x.2 ∈ rowsOf (done.flatMap events) → keep x = true := by
    intro x _ inPre
    rw [rowsOf_flatMap_events, mem_flatMap] at inPre
    obtain ⟨t, inDone, row⟩ := inPre
    -- a row of `done` has no GTID, or one the set holds
    have notStraggler : x.2.gtid ∉ stragglers := by
      intro member
      rw [hstragglers, mem_map] at member
      obtain ⟨y, inFirst, same⟩ := member
      have filter := (mem_filter.mp inFirst).2
      simp only [same, Bool.and_eq_true, bne_iff_ne, ne_eq, Bool.not_eq_true',
        contains_eq_mem, decide_eq_false_iff_not] at filter
      obtain ⟨⟨-, named⟩, notIn⟩ := filter
      rw [t.rowGTID x.2 row] at named notIn
      split at named
      · exact named rfl
      · rename_i plain
        rw [if_neg plain] at notIn
        exact notIn ((claimed t.gtid).mpr (.inr (mem_map_of_mem inDone)))
    simp [keep, notStraggler, point.keeps t inDone x.2 row]
  have drops : ∀ x ∈ db.rows, floor ≤ x.1 → x.2 ∈ rowsOf (rest.flatMap events) →
      keep x = false := by
    intro x inRows above inPost
    rw [rowsOf_flatMap_events, mem_flatMap] at inPost
    obtain ⟨t, inRest, row⟩ := inPost
    have high : aboveFloor floor x.1 = true := by simp [aboveFloor, above]
    by_cases beyond : atOrBeyond file pos x.2 = true
    · simp [keep, high, beyond]
    · rcases point.sweeps t inRest x.2 row with isBeyond | ⟨inFile, gtid⟩
      · exact absurd isBeyond beyond
      · have start : x.2.startPos < pos := by
          simp only [atOrBeyond, inFile, beq_self_eq_true, Bool.true_and, Bool.or_eq_true,
            decide_eq_true_eq, not_or, not_le] at beyond
          exact beyond.2
        have straggler : x.2.gtid ∈ stragglers := by
          rw [hstragglers, mem_map]
          refine ⟨x, mem_filter.mpr ⟨mem_filter.mpr ⟨inRows, by simp [beyond]⟩, ?_⟩, rfl⟩
          have notIn := src.not_mem_set split claimed inRest
          simp [high, inFile, start, gtid, t.gtid_named, notIn]
        simp [keep, straggler, inFile, high]
  obtain ⟨new, filtered, rows_eq⟩ := leaves.filter_eq_take log_eq keep keepsOld keepsDone drops
  exact ⟨new, by rw [passes, filtered], rows_eq⟩

/-! ## A run -/

/-- The first run: it starts from the coordinates read at the start. -/
def GTIDLog.freshRun (src : GTIDLog Row) (cfg : BatchConfig) (db : StreamDB Row) : StreamProc Row :=
  startRun cfg
    { mode := .gtid
      binlogFile := src.startFile
      binlogPos := src.startPos
      safeFile := src.startFile
      safePos := src.startPos
      dedupFloorID := db.saved.dedupFloorID
      gtidSet := src.startSet
      accGTID := some src.startSet }
    src.events id db

/-- A GTID-mode run from the saved checkpoint. Its position is empty: a resume by
GTID starts from the set alone. -/
def resumeGTID (txns : List (SourceTxn Row)) (cfg : BatchConfig) (db : StreamDB Row) :
    StreamProc Row :=
  startRun cfg
    { mode := .gtid
      binlogFile := ""
      binlogPos := 0
      safeFile := ""
      safePos := 0
      dedupFloorID := db.saved.dedupFloorID
      gtidSet := db.saved.gtidSet
      accGTID := some db.saved.gtidSet }
    ((txns.filter fun t => !db.saved.gtidSet.contains t.gtid).flatMap events)
    (fun db => deleteEventsSinceCheckpointGTID db db.saved.binlogFile db.saved.binlogPos
      db.saved.gtidSet db.saved.dedupFloorID) db

/-- Whether this many events from the end of the log on are unread inside a CREATE
TABLE ... SELECT whose DDL was read: the next one is a row of it, or its commit. -/
def insideCreateSelect : List (SourceTxn Row) → ℕ → Bool
  | [], _ => false
  | t :: rest, unread =>
      let after := (rest.flatMap events).length
      t.shape == .createSelect && decide (after < unread) &&
          decide (unread ≤ after + t.rows.length + 1) ||
        insideCreateSelect rest unread

/-- The checkpoints that can be trusted: those that name a file, and not inside a
CREATE TABLE ... SELECT. -/
def GTIDLog.SafeToSave (src : GTIDLog Row) (p : StreamProc Row) (act : LoopAct) : Prop :=
  act.saves = true → (StreamProc.loop p).state.binlogFile ≠ "" ∧
    insideCreateSelect src.txns (StreamProc.loop p).incoming.length = false

instance (src : GTIDLog Row) (p : StreamProc Row) (act : LoopAct) :
    Decidable (src.SafeToSave p act) :=
  inferInstanceAs (Decidable (act.saves = true → _ ∧ _))

/-- Where the loop stands in the log: `done` transactions are ended, `mid` is what
was read of the next one. -/
inductive Place (src : GTIDLog Row) (st : StreamState) :
    List (SourceTxn Row) → List (SourceTxn Row) → List (StreamEvent Row) →
      List (StreamEvent Row) → Prop
  | between {done rest : List (SourceTxn Row)} (claimed : src.SetOf done st.gtidSet)
      (point : st.binlogFile ≠ "" → GTIDLog.Point st.binlogFile st.binlogPos done rest) :
      Place src st done rest [] (rest.flatMap events)
  | opened {done rest : List (SourceTxn Row)} {t : SourceTxn Row} (shape : t.shape ≠ .rows)
      (claimed : src.SetOf done st.gtidSet) (file : st.binlogFile = t.file)
      (pos : st.binlogPos = t.gtidPos) :
      Place src st done (t :: rest) [t.gtidEvent] (t.body ++ rest.flatMap events)
  | reading {done rest : List (SourceTxn Row)} {t : SourceTxn Row}
      {read unread : List (StreamEvent Row)} (shape : t.shape = .rows)
      (rows : t.rows = read ++ unread) (claimed : src.SetOf done st.gtidSet)
      (file : st.binlogFile = t.file) (pos : t.gtidPos ≤ st.binlogPos ∧ st.binlogPos ≤ t.endPos) :
      Place src st done (t :: rest) (t.gtidEvent :: read)
        (unread ++ t.commitEvent :: rest.flatMap events)
  | selecting {done rest : List (SourceTxn Row)} {t : SourceTxn Row}
      {read unread : List (StreamEvent Row)} (shape : t.shape = .createSelect)
      (rows : t.rows = read ++ unread) (claimed : src.SetOf (done ++ [t]) st.gtidSet) :
      Place src st done (t :: rest) (t.gtidEvent :: t.ddlEvent :: read)
        (unread ++ t.commitEvent :: rest.flatMap events)

open StreamProc in
structure GTIDRunning (src : GTIDLog Row) (old : List (ℕ × StreamEvent Row))
    (done rest : List (SourceTxn Row)) (mid saved : List (StreamEvent Row)) (p : StreamProc Row) :
    Prop
    extends Reading src.Claims old src.events (done.flatMap events) mid saved p where
  split : src.txns = done ++ rest
  mode : (loop p).state.mode = .gtid
  acc : (loop p).state.accGTID = some (loop p).state.gtidSet
  place : Place src (loop p).state done rest mid (loop p).incoming

section Run

variable {src : GTIDLog Row} {old : List (ℕ × StreamEvent Row)}
  {done rest : List (SourceTxn Row)} {mid saved : List (StreamEvent Row)} {p q : StreamProc Row}

open StreamProc

theorem resumeGTID_running (cfg : BatchConfig) {db : StreamDB Row}
    (left : Left src.Claims old src.events db) :
    ∃ done rest, GTIDRunning src old done rest [] (done.flatMap events)
      (resumeGTID src.txns cfg db) := by
  obtain ⟨pre, -, ⟨done, rest, split, rfl, claimed, point⟩, leaves, bound⟩ := left
  obtain ⟨new, cleaned, rows_eq⟩ := deleteEventsSinceCheckpointGTID_eq split claimed point leaves
  have log_eq : src.events = done.flatMap events ++ rest.flatMap events := by
    rw [GTIDLog.events, split, flatMap_append]
  refine ⟨done, rest, ?_⟩
  unfold resumeGTID
  rw [src.resent_eq split claimed]
  exact
    { toReading := reading_startRun ⟨done, rest, split, rfl, claimed, point⟩ leaves bound log_eq
        cleaned rows_eq rfl
      split := split
      mode := rfl
      acc := rfl
      place := Place.between claimed fun named => absurd rfl named }

/-- Inside a CREATE TABLE ... SELECT the condition sees it. -/
theorem insideCreateSelect_of_selecting {txns done rest : List (SourceTxn Row)} {t : SourceTxn Row}
    (split : txns = done ++ t :: rest) (shape : t.shape = .createSelect)
    {read unread : List (StreamEvent Row)} (rows : t.rows = read ++ unread) :
    insideCreateSelect txns
      (unread ++ t.commitEvent :: rest.flatMap events).length = true := by
  subst split
  have few : unread.length ≤ t.rows.length := by
    rw [rows, length_append]
    omega
  induction done with
  | nil =>
    simp only [nil_append, insideCreateSelect, shape, length_append, length_cons]
    simp only [beq_self_eq_true, Bool.true_and, Bool.or_eq_true, Bool.and_eq_true,
      decide_eq_true_eq]
    exact .inl ⟨by omega, by omega⟩
  | cons u done ih =>
    rw [cons_append, insideCreateSelect, ih, Bool.or_true]

/-- Outside of one, a named position is one to resume from. -/
theorem Place.point {st : StreamState} {incoming : List (StreamEvent Row)}
    (place : Place src st done rest mid incoming) (split : src.txns = done ++ rest)
    (named : st.binlogFile ≠ "") (outside : insideCreateSelect src.txns incoming.length = false) :
    src.SetOf done st.gtidSet ∧ GTIDLog.Point st.binlogFile st.binlogPos done rest := by
  cases place with
  | between claimed point => exact ⟨claimed, point named⟩
  | @opened _ t shape claimed file pos =>
    refine ⟨claimed, ?_⟩
    rw [file, pos]
    exact src.point_inside split le_rfl (t.ddl_within.1.trans t.ddl_within.2)
      fun ev row => .inl (t.within ev row).1
  | @reading _ t _ _ shape rows claimed file pos =>
    refine ⟨claimed, ?_⟩
    rw [file]
    refine src.point_inside split pos.1 pos.2 fun ev row => .inr ?_
    rw [t.rowGTID ev row, if_neg (by rw [shape]; decide)]
  | selecting shape rows =>
    rw [insideCreateSelect_of_selecting split shape rows] at outside
    cases outside

theorem GTIDRunning.claims (running : GTIDRunning src old done rest mid saved p)
    (named : (loop p).state.binlogFile ≠ "")
    (outside : insideCreateSelect src.txns (loop p).incoming.length = false) :
    src.Claims (loop p).state.checkpoint (done.flatMap events) := by
  have position : checkpointPosition (loop p).state =
      ((loop p).state.binlogFile, (loop p).state.binlogPos) := by
    simp [checkpointPosition, running.mode]
  obtain ⟨claimed, point⟩ := running.place.point running.split named outside
  refine ⟨done, rest, running.split, rfl, claimed, ?_⟩
  simpa only [StreamState.checkpoint, position] using point

/-- A turn that reads nothing. -/
theorem GTIDRunning.same (running : GTIDRunning src old done rest mid saved p)
    {saved' : List (StreamEvent Row)}
    (reading : Reading src.Claims old src.events (done.flatMap events) mid saved' q)
    (same : loop q = loop p) : GTIDRunning src old done rest mid saved' q where
  toReading := reading
  split := running.split
  mode := by rw [same, running.mode]
  acc := by rw [same, running.acc]
  place := by
    rw [same]
    exact running.place

/-- What the next event can be. -/
inductive Next (src : GTIDLog Row) (st : StreamState) :
    List (SourceTxn Row) → List (SourceTxn Row) → List (StreamEvent Row) → StreamEvent Row →
      List (StreamEvent Row) → Prop
  | start {done rest : List (SourceTxn Row)} {t : SourceTxn Row}
      (claimed : src.SetOf done st.gtidSet) :
      Next src st done (t :: rest) [] t.gtidEvent (t.body ++ rest.flatMap events)
  | ddl {done rest : List (SourceTxn Row)} {t : SourceTxn Row} (shape : t.shape = .ddl)
      (claimed : src.SetOf done st.gtidSet) :
      Next src st done (t :: rest) [t.gtidEvent] t.ddlEvent (rest.flatMap events)
  | select {done rest : List (SourceTxn Row)} {t : SourceTxn Row} (shape : t.shape = .createSelect)
      (claimed : src.SetOf done st.gtidSet) :
      Next src st done (t :: rest) [t.gtidEvent] t.ddlEvent
        (t.rows ++ t.commitEvent :: rest.flatMap events)
  | row {done rest : List (SourceTxn Row)} {t : SourceTxn Row} {ev : StreamEvent Row}
      {read unread : List (StreamEvent Row)} (shape : t.shape = .rows)
      (rows : t.rows = read ++ ev :: unread) (claimed : src.SetOf done st.gtidSet) :
      Next src st done (t :: rest) (t.gtidEvent :: read) ev
        (unread ++ t.commitEvent :: rest.flatMap events)
  | commit {done rest : List (SourceTxn Row)} {t : SourceTxn Row} (shape : t.shape = .rows)
      (claimed : src.SetOf done st.gtidSet) :
      Next src st done (t :: rest) (t.gtidEvent :: t.rows) t.commitEvent
        (rest.flatMap events)
  | selectRow {done rest : List (SourceTxn Row)} {t : SourceTxn Row} {ev : StreamEvent Row}
      {read unread : List (StreamEvent Row)} (shape : t.shape = .createSelect)
      (rows : t.rows = read ++ ev :: unread) (claimed : src.SetOf (done ++ [t]) st.gtidSet) :
      Next src st done (t :: rest) (t.gtidEvent :: t.ddlEvent :: read) ev
        (unread ++ t.commitEvent :: rest.flatMap events)
  | selectCommit {done rest : List (SourceTxn Row)} {t : SourceTxn Row}
      (shape : t.shape = .createSelect) (claimed : src.SetOf (done ++ [t]) st.gtidSet) :
      Next src st done (t :: rest) (t.gtidEvent :: t.ddlEvent :: t.rows) t.commitEvent
        (rest.flatMap events)

theorem Place.next {st : StreamState} {incoming after : List (StreamEvent Row)}
    {ev : StreamEvent Row} (place : Place src st done rest mid incoming)
    (here : incoming = ev :: after) : Next src st done rest mid ev after := by
  cases place with
  | between claimed point =>
    cases rest with
    | nil => cases here
    | cons t rest =>
      rw [flatMap_cons, events, cons_append] at here
      cases here
      exact Next.start claimed
  | @opened rest t shape claimed file pos =>
    cases isShape : t.shape with
    | rows => exact absurd isShape shape
    | ddl =>
      simp only [body, isShape, cons_append, nil_append] at here
      cases here
      exact Next.ddl isShape claimed
    | createSelect =>
      simp only [body, isShape, cons_append, append_assoc,
        nil_append] at here
      cases here
      exact Next.select isShape claimed
  | @reading rest t read unread shape rows claimed file pos =>
    cases unread with
    | nil =>
      rw [append_nil] at rows
      cases here
      rw [← rows]
      exact Next.commit shape claimed
    | cons row unread =>
      cases here
      exact Next.row shape rows claimed
  | @selecting rest t read unread shape rows claimed =>
    cases unread with
    | nil =>
      rw [append_nil] at rows
      cases here
      rw [← rows]
      exact Next.selectCommit shape claimed
    | cons row unread =>
      cases here
      exact Next.selectRow shape rows claimed

/-- The state after an event's position is tracked. -/
theorem GTIDRunning.tracked (running : GTIDRunning src old done rest mid saved p)
    (ev : StreamEvent Row) (named : ev.binlogFile ≠ "") (id : ℕ) :
    ((loop p).state.track ev id).mode = .gtid ∧
    ((loop p).state.track ev id).accGTID = some ((loop p).state.track ev id).gtidSet ∧
    ((loop p).state.track ev id).gtidSet = (loop p).state.gtidSet ∧
    ((loop p).state.track ev id).dedupFloorID = (loop p).state.dedupFloorID ∧
    ((loop p).state.track ev id).binlogFile = ev.binlogFile ∧
    ((loop p).state.track ev id).binlogPos = ev.endPos := by
  refine ⟨?_, ?_, StreamState.track_gtidSet _ _ _, ?_, StreamState.track_place named⟩
  · rw [StreamState.track_mode, running.mode]
  · rw [StreamState.track_accGTID, StreamState.track_gtidSet, running.acc]
  · rw [StreamState.track_floor, if_neg (by simp [running.mode])]

/-- An event that neither ends its transaction nor claims its GTID. -/
theorem GTIDRunning.inner (running : GTIDRunning src old done rest mid saved p)
    {f : LoopMem Row → LoopMem Row} {ev : StreamEvent Row} (named : ev.binlogFile ≠ "")
    (advances : Capture.Advances (setLoop p f) q (rowsOf [ev]))
    (state : (f (loop p)).state = (loop p).state.track ev (Capture.w p).firstIDOfLastBatch)
    (incoming : (loop p).incoming = ev :: (f (loop p)).incoming)
    (alive : (f (loop p)).returned = false)
    (place : ∀ st : StreamState, st.gtidSet = (loop p).state.gtidSet →
      st.binlogFile = ev.binlogFile → st.binlogPos = ev.endPos →
      Place src st done rest (mid ++ [ev]) (f (loop p)).incoming) :
    GTIDRunning src old done rest (mid ++ [ev]) saved q := by
  obtain ⟨mode, acc, set, floor, file, pos⟩ :=
    running.tracked ev named (w p).firstIDOfLastBatch
  rw [← state] at mode acc set floor file pos
  have loop' : loop q = f (loop p) := advances.rest
  exact
    { toReading := running.toReading.advances advances floor incoming alive
      split := running.split
      mode := by rw [loop', mode]
      acc := by rw [loop', acc]
      place := by
        rw [loop']
        exact place _ set file pos }

theorem GTIDLog.SetOf.insert {set : GTIDSet} {t : SourceTxn Row} (claimed : src.SetOf done set) :
    src.SetOf (done ++ [t]) (set.insert t.gtid) := by
  intro g
  rw [mem_insert_iff, claimed g, map_append, mem_append, map_singleton,
    mem_singleton]
  tauto

variable {t : SourceTxn Row} {ev : StreamEvent Row} {after : List (StreamEvent Row)} {timeUp : Bool}

/-- A transaction start. -/
theorem GTIDRunning.start (running : GTIDRunning src old done (t :: rest) [] saved p)
    (incoming : (loop p).incoming = t.gtidEvent :: (t.body ++ rest.flatMap events))
    (claimed : src.SetOf done (loop p).state.gtidSet) :
    GTIDRunning src old done (t :: rest) [t.gtidEvent] saved
      (receive (readNext p (t.body ++ rest.flatMap events)) t.gtidEvent timeUp) := by
  rw [receive_gtid rfl]
  refine running.inner (f := fun m => { m with
      incoming := t.body ++ rest.flatMap events
      state := m.state.track t.gtidEvent (w p).firstIDOfLastBatch
      ddlClaimed := false })
    t.file_named (Capture.Advances.refl (wf_setLoop running.wf _)) rfl incoming running.alive ?_
  intro st set file pos
  have claimed' : src.SetOf done st.gtidSet := by rwa [set]
  by_cases shape : t.shape = .rows
  · have body : t.body = t.rows ++ [t.commitEvent] := by simp only [body, shape]
    rw [body, append_assoc]
    exact Place.reading shape rfl claimed' file
      ⟨pos.ge, pos.le.trans (t.ddl_within.1.trans t.ddl_within.2)⟩
  · exact Place.opened shape claimed' file pos

section

variable (running : GTIDRunning src old done (t :: rest) mid saved p)

include running

/-- A row of the transaction being read. -/
theorem GTIDRunning.addRow (incoming : (loop p).incoming = ev :: after) (row : ev ∈ t.rows)
    (place : ∀ st : StreamState, st.gtidSet = (loop p).state.gtidSet →
      st.binlogFile = ev.binlogFile → st.binlogPos = ev.endPos →
      Place src st done (t :: rest) (mid ++ [ev]) after) :
    GTIDRunning src old done (t :: rest) (mid ++ [ev]) saved
      (receive (readNext p after) ev timeUp) := by
  rw [receive_row (t.isRow ev row)]
  have added := add_advances (wf_track running.wf after ev) ev timeUp
  have one : rowsOf [ev] = [ev] := by simp [rowsOf, t.isRow ev row]
  rw [← one] at added
  refine running.inner (f := fun m => { m with
      incoming := after
      state := m.state.track ev (w p).firstIDOfLastBatch })
    ?_ added rfl incoming running.alive place
  rw [t.inFile ev row]
  exact t.file_named

/-- The end of a transaction, seen from the rest of the loop. -/
theorem GTIDRunning.finish (reading : Reading src.Claims old src.events
      (done.flatMap events ++ mid ++ [ev]) [] saved q)
    (ended : mid ++ [ev] = t.events) (mode : (loop q).state.mode = .gtid)
    (acc : (loop q).state.accGTID = some (loop q).state.gtidSet)
    (claimed : src.SetOf (done ++ [t]) (loop q).state.gtidSet)
    (file : (loop q).state.binlogFile = t.file) (pos : (loop q).state.binlogPos = t.endPos)
    (incoming : (loop q).incoming = rest.flatMap events) :
    GTIDRunning src old (done ++ [t]) rest [] saved q := by
  have pre : done.flatMap events ++ mid ++ [ev] =
      (done ++ [t]).flatMap events := by
    rw [append_assoc, ended, flatMap_append, flatMap_singleton]
  exact
    { toReading := by rwa [pre] at reading
      split := by rw [running.split, append_assoc, singleton_append]
      mode := mode
      acc := acc
      place := by
        rw [incoming]
        refine Place.between claimed fun _ => ?_
        rw [file, pos]
        exact src.point_after running.split }

/-- A commit, which claims the GTID if it still carries it. -/
theorem GTIDRunning.commit
    (incoming : (loop p).incoming = t.commitEvent :: rest.flatMap events)
    (ended : mid ++ [t.commitEvent] = t.events)
    (claimed : t.commitEvent.gtid = "" ∧ src.SetOf (done ++ [t]) (loop p).state.gtidSet ∨
      t.commitEvent.gtid = t.gtid ∧ src.SetOf done (loop p).state.gtidSet) :
    GTIDRunning src old (done ++ [t]) rest [] saved
      (receive (readNext p (rest.flatMap events)) t.commitEvent timeUp) := by
  rw [receive_commit rfl]
  set id := (w p).firstIDOfLastBatch with hid
  let f (m : LoopMem Row) : LoopMem Row := { m with
    incoming := rest.flatMap events
    state := (m.state.track t.commitEvent id).claimGTID t.commitEvent.gtid id
    ddlClaimed := false }
  obtain ⟨mode, acc, set, floor, file, pos⟩ := running.tracked t.commitEvent t.file_named id
  have claim : (f (loop p)).state.mode = .gtid ∧
      (f (loop p)).state.accGTID = some (f (loop p)).state.gtidSet ∧
      src.SetOf (done ++ [t]) (f (loop p)).state.gtidSet ∧
      (f (loop p)).state.binlogFile = t.file ∧ (f (loop p)).state.binlogPos = t.endPos ∧
      (loop p).state.dedupFloorID ≤ (f (loop p)).state.dedupFloorID ∧
      (f (loop p)).state.dedupFloorID ≤ p.disk.nextID := by
    have state : (f (loop p)).state =
      ((loop p).state.track t.commitEvent id).claimGTID t.commitEvent.gtid id := rfl
    rw [state]
    rcases claimed with ⟨empty, claimed⟩ | ⟨isGTID, claimed⟩
    · rw [empty, StreamState.claimGTID_empty]
      exact ⟨mode, acc, by rwa [set], file, pos, floor.ge, floor.le.trans running.above.1⟩
    · rw [isGTID, StreamState.claimGTID_of_named acc t.gtid_named]
      refine ⟨mode, rfl, ?_, file, pos, ?_, ?_⟩
      · rw [set]
        exact claimed.insert
      · exact floor.ge.trans (le_max_left _ _)
      · exact max_le (floor.le.trans running.above.1) running.wf.firstID_le
  obtain ⟨mode', acc', claimed', file', pos', floor', bound'⟩ := claim
  obtain ⟨advances, complete⟩ := endTxn_advances (wf_setLoop running.wf f)
  have loop' : loop (endTxn (setLoop p f)) = f (loop p) := advances.rest
  refine running.finish (q := endTxn (setLoop p f))
    (running.toReading.close rfl advances complete floor' bound' incoming running.alive) ended
    ?_ ?_ ?_ ?_ ?_ ?_
  all_goals rw [loop']
  all_goals assumption

/-- The DDL of a transaction, with its GTID claimed. Everything read before is in
the index by then, so the floor may rise. -/
theorem GTIDRunning.claimDDL {pre' mid' : List (StreamEvent Row)} {q : StreamProc Row}
    (claimed : src.SetOf done (loop p).state.gtidSet)
    (reading : Reading src.Claims old src.events pre' mid' saved q) (noRows : rowsOf mid' = [])
    (same : (loop q).state =
      (loop p).state.track t.ddlEvent (Capture.w p).firstIDOfLastBatch) :
    Reading src.Claims old src.events pre' mid' saved
        (setLoop (advanceGTID q t.ddlEvent.gtid) fun m =>
          { m with ddlClaimed := m.state.accGTID.isSome && t.ddlEvent.gtid != "" }) ∧
      (loop (advanceGTID q t.ddlEvent.gtid)).state.mode = .gtid ∧
      (loop (advanceGTID q t.ddlEvent.gtid)).state.accGTID =
        some (loop (advanceGTID q t.ddlEvent.gtid)).state.gtidSet ∧
      src.SetOf (done ++ [t]) (loop (advanceGTID q t.ddlEvent.gtid)).state.gtidSet ∧
      (loop (advanceGTID q t.ddlEvent.gtid)).state.binlogFile = t.file ∧
      (loop (advanceGTID q t.ddlEvent.gtid)).state.binlogPos = t.ddlPos := by
  obtain ⟨mode, acc, set, floor, file, pos⟩ :=
    running.tracked t.ddlEvent t.file_named (w p).firstIDOfLastBatch
  rw [← same] at mode acc set floor file pos
  set id := (w q).firstIDOfLastBatch with hid
  have state : (loop (advanceGTID q t.ddlEvent.gtid)).state =
      (loop q).state.claimGTID t.gtid id := rfl
  have claim : (loop q).state.claimGTID t.gtid id = _ :=
    StreamState.claimGTID_of_named acc t.gtid_named
  have floor' : ((loop q).state.claimGTID t.gtid id).dedupFloorID =
      max (loop q).state.dedupFloorID id := by rw [claim]
  refine ⟨?_, ?_⟩
  · refine reading.remember (f := fun m => { m with
      state := m.state.claimGTID t.gtid id
      ddlClaimed := (m.state.claimGTID t.gtid id).accGTID.isSome && t.ddlEvent.gtid != "" })
      ?_ (.inr ⟨?_, noRows⟩) rfl reading.alive
    · exact (le_max_left _ _).trans floor'.ge
    · exact floor'.le.trans (max_le reading.above.1 reading.wf.firstID_le)
  · rw [state, claim]
    refine ⟨mode, rfl, ?_, file, pos⟩
    rw [set]
    exact claimed.insert

end

/-- A DDL that is its own transaction. -/
theorem GTIDRunning.ddl (running : GTIDRunning src old done (t :: rest) [t.gtidEvent] saved p)
    (incoming : (loop p).incoming = t.ddlEvent :: rest.flatMap events)
    (shape : t.shape = .ddl) (claimed : src.SetOf done (loop p).state.gtidSet) :
    GTIDRunning src old (done ++ [t]) rest [] saved
      (receive (readNext p (rest.flatMap events)) t.ddlEvent timeUp) := by
  have read := receive_incoming running.wf (rest.flatMap events) t.ddlEvent timeUp
  rw [receive_ddl rfl] at read ⊢
  obtain ⟨ends, complete⟩ := endTxn_advances
    (wf_track running.wf (rest.flatMap events) t.ddlEvent)
  obtain ⟨commit, -⟩ := commitComplete_advances ends.wf
  have advances := ends.trans commit
  have floor := (running.tracked t.ddlEvent t.file_named
    (w p).firstIDOfLastBatch).2.2.2.1
  have closed := running.toReading.close (f := fun m => { m with
      incoming := rest.flatMap events
      state := m.state.track t.ddlEvent (w p).firstIDOfLastBatch })
    rfl advances (commit.complete_eq_taken complete) floor.ge (floor.le.trans running.above.1)
    incoming running.alive
  obtain ⟨reading, mode, acc, set, file, pos⟩ :=
    running.claimDDL claimed closed rfl (congrArg LoopMem.state advances.rest)
  have events : [t.gtidEvent] ++ [t.ddlEvent] = t.events := by
    simp only [events, body, shape, singleton_append]
  exact running.finish reading events mode acc set file (pos.trans (t.ddl_end shape).2) read

/-- The DDL of a CREATE TABLE ... SELECT: its GTID is claimed, its rows are to come. -/
theorem GTIDRunning.select (running : GTIDRunning src old done (t :: rest) [t.gtidEvent] saved p)
    (incoming : (loop p).incoming =
      t.ddlEvent :: (t.rows ++ t.commitEvent :: rest.flatMap events))
    (shape : t.shape = .createSelect) (claimed : src.SetOf done (loop p).state.gtidSet) :
    GTIDRunning src old done (t :: rest) [t.gtidEvent, t.ddlEvent] saved
      (receive (readNext p (t.rows ++ t.commitEvent :: rest.flatMap events)) t.ddlEvent
        timeUp) := by
  set after := t.rows ++ t.commitEvent :: rest.flatMap events with hafter
  have read := receive_incoming running.wf after t.ddlEvent timeUp
  rw [receive_ddl rfl] at read ⊢
  obtain ⟨ends, -⟩ := endTxn_advances (wf_track running.wf after t.ddlEvent)
  obtain ⟨commit, -⟩ := commitComplete_advances ends.wf
  have advances : Capture.Advances (trackPosition (readNext p after) t.ddlEvent)
      (commitComplete (endTxn (trackPosition (readNext p after) t.ddlEvent)))
      (rowsOf [t.ddlEvent]) := ends.trans commit
  have floor := (running.tracked t.ddlEvent t.file_named
    (w p).firstIDOfLastBatch).2.2.2.1
  have opened := running.toReading.advances (f := fun m => { m with
      incoming := after
      state := m.state.track t.ddlEvent (w p).firstIDOfLastBatch })
    advances floor incoming running.alive
  obtain ⟨reading, mode, acc, set, -⟩ :=
    running.claimDDL claimed opened rfl (congrArg LoopMem.state advances.rest)
  exact
    { toReading := reading
      split := running.split
      mode := mode
      acc := acc
      place := by
        rw [read]
        exact Place.selecting shape rfl set }

/-- The next event of the log. -/
theorem GTIDRunning.receive (running : GTIDRunning src old done rest mid saved p)
    (incoming : (loop p).incoming = ev :: after) (timeUp : Bool) :
    ∃ done' rest' mid',
      GTIDRunning src old done' rest' mid' saved (receive (readNext p after) ev timeUp) := by
  have next {t : SourceTxn Row} {read unread : List (StreamEvent Row)}
      (rows : t.rows = read ++ ev :: unread) : ev ∈ t.rows ∧ t.rows = (read ++ [ev]) ++ unread := by
    simp [rows]
  cases running.place.next incoming with
  | start claimed => exact ⟨_, _, _, running.start incoming claimed⟩
  | ddl shape claimed => exact ⟨_, _, _, running.ddl incoming shape claimed⟩
  | select shape claimed => exact ⟨_, _, _, running.select incoming shape claimed⟩
  | @row _ t _ _ _ shape rows claimed =>
    obtain ⟨inRows, rows'⟩ := next rows
    exact ⟨_, _, _, running.addRow incoming inRows fun st set file pos =>
      Place.reading shape rows' (by rwa [set]) (by rw [file, t.inFile _ inRows])
        (by have within := t.within _ inRows; omega)⟩
  | commit shape claimed =>
    exact ⟨_, _, _, running.commit incoming
      (by simp only [events, body, shape, cons_append])
      (.inr ⟨by simp [commitEvent, shape], claimed⟩)⟩
  | selectRow shape rows claimed =>
    obtain ⟨inRows, rows'⟩ := next rows
    exact ⟨_, _, _, running.addRow incoming inRows fun st set _ _ =>
      Place.selecting shape rows' (by rwa [set])⟩
  | selectCommit shape claimed =>
    exact ⟨_, _, _, running.commit incoming
      (by simp only [events, body, shape, cons_append])
      (.inl ⟨by simp [commitEvent, shape], claimed⟩)⟩

/-- Nothing is open at the end of the log. -/
theorem GTIDRunning.all_ended (running : GTIDRunning src old done rest mid saved p)
    (allRead : (loop p).incoming = []) : mid = [] := by
  obtain ⟨incoming, place, none⟩ : ∃ incoming, Place src (loop p).state done rest mid incoming ∧
      incoming = [] := ⟨_, running.place, allRead⟩
  cases place with
  | between => rfl
  | @opened _ t shape =>
    have nonempty : t.body ≠ [] := by
      unfold body
      cases t.shape <;> simp
    exact absurd (append_eq_nil_iff.mp none).1 nonempty
  | reading | selecting => cases (append_eq_nil_iff.mp none).2

theorem gtid_readsOn : ReadsOn src.Claims old src.events src.SafeToSave
    (fun pre mid saved p => ∃ done rest, done.flatMap events = pre ∧
      GTIDRunning src old done rest mid saved p) where
  reading := by
    rintro _ mid saved p ⟨done, rest, rfl, running⟩
    exact running.toReading
  same := by
    rintro _ mid saved saved' p q ⟨done, rest, rfl, running⟩ reading same
    exact ⟨done, rest, rfl, running.same reading same⟩
  claims := by
    rintro _ mid saved p act ⟨done, rest, rfl, running⟩ safe isSave
    exact running.claims (safe isSave).1 (safe isSave).2
  receive := by
    rintro _ mid saved p ev after ⟨done, rest, rfl, running⟩ incoming timeUp
    obtain ⟨done', rest', mid', running'⟩ := running.receive incoming timeUp
    exact ⟨_, mid', done', rest', rfl, running'⟩
  ended := by
    rintro _ mid saved p ⟨done, rest, rfl, running⟩ allRead
    exact running.all_ended allRead

end Run

/-! ## Recovery -/

/-- The index before the first event, with the checkpoint a run without one saves. -/
def GTIDLog.firstDisk (src : GTIDLog Row) (old : List (ℕ × StreamEvent Row)) (nextID : ℕ) :
    StreamDB Row where
  rows := old
  nextID := nextID
  saved :=
    { mode := .gtid
      binlogFile := src.startFile
      binlogPos := src.startPos
      gtidSet := src.startSet
      dedupFloorID := freshDedupFloor old }

theorem GTIDLog.freshRun_running (src : GTIDLog Row) {old : List (ℕ × StreamEvent Row)}
    {nextID : ℕ} (fresh : freshDedupFloor old ≤ nextID) (named : src.startFile ≠ "")
    (cfg : BatchConfig) :
    GTIDRunning src old [] src.txns [] [] (src.freshRun cfg (src.firstDisk old nextID)) := by
  have claimed : src.SetOf [] src.startSet := fun g => by simp
  have leaves : Leaves old src.events [] (freshDedupFloor old) old :=
    leaves_start fun _ member => lt_freshDedupFloor member
  have untouched : id (src.firstDisk old nextID) =
      { src.firstDisk old nextID with rows := old ++ [] } := by
    simp [GTIDLog.firstDisk]
  exact
    { toReading := reading_startRun
        ⟨[], src.txns, rfl, rfl, claimed, src.point_start named⟩ leaves fresh
        (nil_append _).symm untouched rfl rfl
      split := rfl
      mode := rfl
      acc := rfl
      place := Place.between claimed fun _ => src.point_start named }

/-- In GTID mode, as long as every checkpoint is saved at a named position and not
inside a CREATE TABLE ... SELECT: after the first run and any number of resumed
ones, stopped anywhere, a resumed run that reads to the end of the log has every row
of the log in the index exactly once, behind the older rows. -/
theorem streamLoop_gtid_exactly_once (src : GTIDLog Row) (old : List (ℕ × StreamEvent Row))
    (nextID : ℕ) (fresh : freshDedupFloor old ≤ nextID) (named : src.startFile ≠ "")
    {db : StreamDB Row} {db' : StreamDB Row}
    (first :
      StopsAt src.freshRun StreamProc.streamLoop src.SafeToSave (src.firstDisk old nextID) db)
    (crashes : Relation.ReflTransGen
      (StopsAt (resumeGTID src.txns) StreamProc.streamLoop src.SafeToSave) db db')
    (cfg : BatchConfig) (acts : List LoopAct)
    (safe : Legal StreamProc.streamLoop src.SafeToSave (resumeGTID src.txns cfg db') acts)
    (noStop : ∀ act ∈ acts, act.isStop = false)
    (allRead : src.events.length ≤ acts.countP LoopAct.isNext) (saves : Bool) :
    ((acts ++ [LoopAct.tick saves]).foldl StreamProc.streamLoop
      (resumeGTID src.txns cfg db')).disk.rows.map Prod.snd =
        old.map Prod.snd ++ rowsOf src.events := by
  have leftFirst : Left src.Claims old src.events db := by
    obtain ⟨cfg₀, acts₀, legal, member⟩ := first
    have going := legal.foldl (fun _ _ going safe => gtid_readsOn.streamLoop going safe)
      (.inl ⟨_, _, _, _, _, rfl, src.freshRun_running fresh named cfg₀⟩)
    exact gtid_readsOn.behind going db member
  refine gtid_readsOn.exactly_once (fun cfg _ left => ?_) leftFirst crashes cfg safe noStop allRead
    saves
  obtain ⟨done, rest, running⟩ := resumeGTID_running cfg left
  exact ⟨_, _, _, done, rest, rfl, running⟩

theorem firstGTID_named : "g:1" ≠ "" := by decide

theorem secondGTID_named : "g:2" ≠ "" := by decide

/-- A transaction of one row, then a CREATE TABLE ... SELECT of two. -/
def selectTxns : List (SourceTxn String) :=
  let row (startPos endPos : ℕ) (gtid data : String) : StreamEvent String :=
    { eventType := .insert, binlogFile := "binlog.000001", startPos, endPos, gtid,
      data := some data }
  [{ gtid := "g:1", shape := .rows, file := "binlog.000001", gtidPos := 80, ddlPos := 80
     rows := [row 120 180 "g:1" "a"], endPos := 211
     gtid_named := firstGTID_named, file_named := firstLog_named
     isRow := by decide, inFile := by decide
     rowGTID := by decide, within := by decide, ddl_within := by decide, ddl_end := by decide },
   { gtid := "g:2", shape := .createSelect, file := "binlog.000001", gtidPos := 280, ddlPos := 400
     rows := [row 440 500 "" "b", row 500 560 "" "c"], endPos := 591
     gtid_named := secondGTID_named, file_named := firstLog_named
     isRow := by decide, inFile := by decide
     rowGTID := by decide, within := by decide, ddl_within := by decide, ddl_end := by decide }]

def selectLog : GTIDLog String where
  startFile := "binlog.000001"
  startPos := 4
  startSet := []
  txns := selectTxns
  distinct := by decide
  unsent := by decide
  ordered := by decide
  beyond := by decide

/-- The row of the first transaction is in the index, split off by the cap, and the
checkpoint stands inside that transaction. -/
def openTxnActs : List LoopAct := [.next false, .next false, .tick true]

def openTxnCrash : StreamDB String :=
  (openTxnActs.foldl StreamProc.streamLoop
    (selectLog.freshRun ⟨1, 1⟩ (selectLog.firstDisk [] 1))).disk

/-- A checkpoint after the first transaction, and a stop inside the CREATE TABLE ...
SELECT with one of its rows in the index. -/
def insideSelectActs : List LoopAct :=
  [.next false, .next false, .next false, .tick true, .next false, .next false, .next false]

def insideSelectCrash : StreamDB String :=
  (insideSelectActs.foldl StreamProc.streamLoop (resumeGTID selectTxns ⟨1, 1⟩ openTxnCrash)).disk

theorem insideSelectCrash_recovered :
    openTxnCrash.rows.map (fun x => x.2.data) = [some "a"] ∧
    insideSelectCrash.rows.map (fun x => x.2.data) = [some "a", some "b"] ∧
    ((List.replicate 8 (LoopAct.next false) ++ [LoopAct.tick true]).foldl StreamProc.streamLoop
      (resumeGTID selectTxns ⟨1000, 10⟩ insideSelectCrash)).disk.rows.map Prod.snd =
        rowsOf selectLog.events := by
  refine ⟨by decide, by decide, ?_⟩
  have first : StopsAt selectLog.freshRun StreamProc.streamLoop selectLog.SafeToSave
      (selectLog.firstDisk [] 1) openTxnCrash :=
    ⟨⟨1, 1⟩, openTxnActs, by decide, by decide⟩
  have second : StopsAt (resumeGTID selectTxns) StreamProc.streamLoop selectLog.SafeToSave
      openTxnCrash insideSelectCrash :=
    ⟨⟨1, 1⟩, insideSelectActs, by decide, by decide⟩
  exact streamLoop_gtid_exactly_once selectLog [] 1 (by decide) (by decide) first
    (Relation.ReflTransGen.single second) ⟨1000, 10⟩ (replicate 8 (LoopAct.next false))
    (by decide) (by decide) (by decide) true

/-- The DDL is read and a checkpoint saved; the rows are not. -/
def claimedEarlyActs : List LoopAct := List.replicate 5 (LoopAct.next false) ++ [.tick true]

def claimedEarly : StreamDB String :=
  (claimedEarlyActs.foldl StreamProc.streamLoop
    (selectLog.freshRun ⟨1000, 10⟩ (selectLog.firstDisk [] 1))).disk

/-- A resumed run that saves before its first event, and one that stops after the
first transaction. -/
def unnamedCheckpoint : StreamDB String :=
  ([LoopAct.tick true].foldl StreamProc.streamLoop
    (resumeGTID selectTxns ⟨1, 10⟩ (selectLog.firstDisk [] 1))).disk

def unnamedCrash : StreamDB String :=
  ((List.replicate 3 (LoopAct.next false)).foldl StreamProc.streamLoop
    (resumeGTID selectTxns ⟨1, 10⟩ unnamedCheckpoint)).disk

/-- Without the condition on saves rows are lost, and rows are indexed twice. -/
theorem selectLog_lost_or_twice :
    (StopsAt selectLog.freshRun StreamProc.streamLoop (fun _ _ => True) (selectLog.firstDisk [] 1)
        claimedEarly ∧
      ((List.replicate 8 (LoopAct.next false) ++ [LoopAct.tick true]).foldl StreamProc.streamLoop
        (resumeGTID selectTxns ⟨1000, 10⟩ claimedEarly)).disk.rows.map (fun x => x.2.data) =
          [some "a"]) ∧
    (StopsAt selectLog.freshRun StreamProc.streamLoop (fun _ _ => True) (selectLog.firstDisk [] 1)
        (selectLog.firstDisk [] 1) ∧
      Relation.ReflTransGen
        (StopsAt (resumeGTID selectTxns) StreamProc.streamLoop fun _ _ => True)
        (selectLog.firstDisk [] 1) unnamedCrash ∧
      ((List.replicate 8 (LoopAct.next false) ++ [LoopAct.tick true]).foldl StreamProc.streamLoop
        (resumeGTID selectTxns ⟨1000, 10⟩ unnamedCrash)).disk.rows.map (fun x => x.2.data) =
          [some "a", some "a", some "b", some "c"]) ∧
    (rowsOf selectLog.events).map (fun ev => ev.data) = [some "a", some "b", some "c"] := by
  have idle : StopsAt (resumeGTID selectTxns) StreamProc.streamLoop (fun _ _ => True)
      (selectLog.firstDisk [] 1) unnamedCheckpoint :=
    ⟨⟨1, 10⟩, [LoopAct.tick true], legal_true _ _, by decide⟩
  have crash : StopsAt (resumeGTID selectTxns) StreamProc.streamLoop (fun _ _ => True)
      unnamedCheckpoint unnamedCrash :=
    ⟨⟨1, 10⟩, replicate 3 (LoopAct.next false), legal_true _ _, by decide⟩
  refine ⟨⟨⟨⟨1000, 10⟩, claimedEarlyActs, legal_true _ _, by decide⟩, by decide⟩,
    ⟨⟨⟨1, 10⟩, [], legal_true _ _, by decide⟩, ?_, by decide⟩, by decide⟩
  exact (Relation.ReflTransGen.single idle).tail crash

end Dbtrail
