import Dbtrail.Streamrun.Recovery

/-!
# Position mode: every row exactly once

In position mode a checkpoint names the end of the last transaction or DDL that
was read. A log is split there in two: the rows before lie below the position,
the rows after at or beyond it, so the cleanup on resume takes exactly the rows
the source is about to send again. Older rows under the same positions are
below the saved floor and stay.
-/

namespace Dbtrail

open List Capture

variable {Row : Type}

/-! ## The source's log -/

/-- What a dump from this position sends. -/
def sentFrom (file : String) (pos : ℕ) (ev : StreamEvent Row) : Bool :=
  fileBefore file ev.binlogFile || (ev.binlogFile == file && decide (pos < ev.endPos))

/-- Binlog order of two events. An event ends at or after the ones before it, and
nothing after a transaction end or a DDL begins below it. -/
def Precedes (a b : StreamEvent Row) : Prop :=
  fileBefore a.binlogFile b.binlogFile = true ∨
    a.binlogFile = b.binlogFile ∧ a.endPos ≤ b.endPos ∧
      (isPositionCheckpointBoundary a = true →
        a.endPos < b.endPos ∧ (b.isRow = true → a.endPos ≤ b.startPos))

instance (a b : StreamEvent Row) : Decidable (Precedes a b) :=
  inferInstanceAs (Decidable (fileBefore a.binlogFile b.binlogFile = true ∨ _))

/-- A part of a log that ends where a resume may start. -/
def AtBoundary (pre : List (StreamEvent Row)) : Prop :=
  ∀ ev ∈ pre.getLast?, isPositionCheckpointBoundary ev = true

/-- A log of transactions and DDL, read from a start position. -/
structure PositionLog (Row : Type) : Type where
  startFile : String
  startPos : ℕ
  events : List (StreamEvent Row)
  start_named : startFile ≠ ""
  named : ∀ ev ∈ events, ev.binlogFile ≠ ""
  extent : ∀ ev ∈ rowsOf events, ev.startPos < ev.endPos
  sent : ∀ ev ∈ events, sentFrom startFile startPos ev = true
  rows_beyond : ∀ ev ∈ rowsOf events, atOrBeyond startFile startPos ev = true
  ordered : events.Pairwise Precedes
  closed : AtBoundary events

namespace PositionLog

variable (src : PositionLog Row) {pre post : List (StreamEvent Row)}

/-- Where a part of the log ends. -/
def endOf (pre : List (StreamEvent Row)) : String × ℕ :=
  match pre.getLast? with
  | none => (src.startFile, src.startPos)
  | some ev => (ev.binlogFile, ev.endPos)

/-- A checkpoint that names the end of `pre`, a place to resume from. -/
def Claims (cp : Checkpoint) (pre : List (StreamEvent Row)) : Prop :=
  AtBoundary pre ∧ (cp.binlogFile, cp.binlogPos) = src.endOf pre

theorem endOf_concat (init : List (StreamEvent Row)) (ev : StreamEvent Row) :
    src.endOf (init ++ [ev]) = (ev.binlogFile, ev.endPos) := by
  simp [endOf]

/-- The end of a part, with what the order of the log says about both sides. -/
theorem split_at_end (boundary : AtBoundary pre) (split : src.events = pre ++ post) :
    (∀ ev ∈ pre, sentFrom (src.endOf pre).1 (src.endOf pre).2 ev = false) ∧
    (∀ ev ∈ rowsOf pre, atOrBeyond (src.endOf pre).1 (src.endOf pre).2 ev = false) ∧
    (∀ ev ∈ post, sentFrom (src.endOf pre).1 (src.endOf pre).2 ev = true) ∧
    (∀ ev ∈ rowsOf post, atOrBeyond (src.endOf pre).1 (src.endOf pre).2 ev = true) := by
  rcases pre.eq_nil_or_concat' with rfl | ⟨init, last, rfl⟩
  · rw [nil_append] at split
    subst split
    exact ⟨by simp, by simp [rowsOf], src.sent, src.rows_beyond⟩
  · have ends : isPositionCheckpointBoundary last = true := boundary last (by simp)
    have ordered := src.ordered
    rw [split, append_assoc, pairwise_append] at ordered
    obtain ⟨-, later, across⟩ := ordered
    have beforeLast : ∀ ev ∈ init ++ [last],
        fileBefore ev.binlogFile last.binlogFile = true ∨
          ev.binlogFile = last.binlogFile ∧ ev.endPos ≤ last.endPos := by
      intro ev member
      rcases mem_append.mp member with member | member
      · rcases across ev member last (by simp) with file | ⟨same, le, -⟩
        · exact Or.inl file
        · exact Or.inr ⟨same, le⟩
      · rw [mem_singleton.mp member]
        exact Or.inr ⟨rfl, le_rfl⟩
    have afterLast : ∀ ev ∈ post, Precedes last ev :=
      fun ev member => rel_of_pairwise_cons later member
    rw [src.endOf_concat]
    refine ⟨?_, ?_, ?_, ?_⟩
    · intro ev member
      rcases beforeLast ev member with file | ⟨same, le⟩
      · obtain ⟨notAfter, ne⟩ := fileBefore_asymm file
        simp [sentFrom, notAfter, ne]
      · simp [sentFrom, same, fileBefore_irrefl, le]
    · intro ev member
      have inPre : ev ∈ init ++ [last] := (mem_filter.mp member).1
      have extent : ev.startPos < ev.endPos := by
        refine src.extent ev ?_
        rw [split, rowsOf_append]
        exact mem_append_left _ member
      rcases beforeLast ev inPre with file | ⟨same, le⟩
      · obtain ⟨notAfter, ne⟩ := fileBefore_asymm file
        simp [atOrBeyond, notAfter, ne]
      · simp [atOrBeyond, same, fileBefore_irrefl, extent.trans_le le]
    · intro ev member
      rcases afterLast ev member with file | ⟨same, -, apart⟩
      · simp [sentFrom, file]
      · simp [sentFrom, same, (apart ends).1]
    · intro ev member
      obtain ⟨inPost, row⟩ := mem_filter.mp member
      rcases afterLast ev inPost with file | ⟨same, -, apart⟩
      · simp [atOrBeyond, file]
      · simp [atOrBeyond, same, (apart ends).2 row]

theorem endOf_named (prefixed : pre <+: src.events) : (src.endOf pre).1 ≠ "" := by
  rcases pre.eq_nil_or_concat' with rfl | ⟨init, last, rfl⟩
  · exact src.start_named
  · rw [src.endOf_concat]
    exact src.named last (prefixed.subset (by simp))

end PositionLog

/-! ## A run -/

/-- A position-mode run from the saved checkpoint. -/
def resumePosition (log : List (StreamEvent Row)) (cfg : BatchConfig) (db : StreamDB Row) :
    StreamProc Row :=
  startRun cfg
    { mode := .position
      binlogFile := db.saved.binlogFile
      binlogPos := db.saved.binlogPos
      safeFile := db.saved.binlogFile
      safePos := db.saved.binlogPos
      dedupFloorID := db.saved.dedupFloorID
      gtidSet := []
      accGTID := none }
    (log.filter (sentFrom db.saved.binlogFile db.saved.binlogPos))
    (fun db => deleteEventsSinceCheckpoint db db.saved.binlogFile db.saved.binlogPos
      db.saved.dedupFloorID) db

open StreamProc in
/-- The safe point of the loop is the end of `pre`, and nothing read since is a
boundary. -/
structure PositionRunning (src : PositionLog Row) (old : List (ℕ × StreamEvent Row))
    (pre mid saved : List (StreamEvent Row)) (p : StreamProc Row) : Prop
    extends Reading src.Claims old src.events pre mid saved p where
  atBoundary : AtBoundary pre
  inside : ∀ ev ∈ mid, isPositionCheckpointBoundary ev = false
  mode : (loop p).state.mode = .position
  noGTID : (loop p).state.accGTID = none
  safe : ((loop p).state.safeFile, (loop p).state.safePos) = src.endOf pre

section Run

variable {src : PositionLog Row} {old : List (ℕ × StreamEvent Row)}
  {pre mid saved : List (StreamEvent Row)} {p q : StreamProc Row}

open StreamProc

/-- What is left behind is cleaned up to the claimed part, and read on from there. -/
theorem resumePosition_running (cfg : BatchConfig) {db : StreamDB Row}
    (left : Left src.Claims old src.events db) :
    ∃ pre, PositionRunning src old pre [] pre (resumePosition src.events cfg db) := by
  obtain ⟨pre, ⟨post, split⟩, claimed, leaves, bound⟩ := left
  obtain ⟨boundary, atEnd⟩ := claimed
  obtain ⟨preSent, preBeyond, postSent, postBeyond⟩ := src.split_at_end boundary split.symm
  have named := src.endOf_named ⟨post, split⟩
  rw [← atEnd] at preSent preBeyond postSent postBeyond named
  have incoming : src.events.filter (sentFrom db.saved.binlogFile db.saved.binlogPos) = post := by
    rw [← split, filter_append, filter_eq_self.mpr postSent,
      filter_eq_nil_iff.mpr fun ev member => by simp [preSent ev member], nil_append]
  obtain ⟨new, filtered, rows_eq⟩ := leaves.filter_eq_take split.symm
    (fun x => !(aboveFloor db.saved.dedupFloorID x.1 &&
      atOrBeyond db.saved.binlogFile db.saved.binlogPos x.2))
    (fun x member => by
      have below := leaves.oldIDs x member
      simp [aboveFloor, Nat.ne_of_gt (Nat.zero_lt_of_lt below), below])
    (fun x _ member => by simp [preBeyond x.2 member])
    (fun x _ above member => by simp [aboveFloor, above, postBeyond x.2 member])
  refine ⟨pre, ?_⟩
  unfold resumePosition
  rw [incoming]
  exact
    { toReading := reading_startRun ⟨boundary, atEnd⟩ leaves bound split.symm
        (by rw [deleteEventsSinceCheckpoint, if_neg named, filtered]) rows_eq rfl
      atBoundary := boundary
      inside := by simp
      mode := rfl
      noGTID := rfl
      safe := atEnd }

section

variable (running : PositionRunning src old pre mid saved p)

include running

theorem PositionRunning.claims : src.Claims (loop p).state.checkpoint pre := by
  have named := src.endOf_named running.prePrefix
  rw [← running.safe] at named
  refine ⟨running.atBoundary, ?_⟩
  rw [← running.safe]
  simp only [StreamState.checkpoint, checkpointPosition, running.mode, true_and, if_pos named]

theorem PositionRunning.same {saved' : List (StreamEvent Row)}
    (reading : Reading src.Claims old src.events pre mid saved' q)
    (same : loop q = loop p) : PositionRunning src old pre mid saved' q :=
  { running with
    toReading := reading
    mode := by rw [same, running.mode]
    noGTID := by rw [same, running.noGTID]
    safe := by rw [same, running.safe] }

/-- An event that is no boundary. -/
theorem PositionRunning.inner {f : LoopMem Row → LoopMem Row} {ev : StreamEvent Row}
    (noBoundary : isPositionCheckpointBoundary ev = false)
    (advances : Capture.Advances (setLoop p f) q (rowsOf [ev]))
    {file : String} {pos : ℕ} (state : (f (loop p)).state =
      { (loop p).state with binlogFile := file, binlogPos := pos })
    (incoming : (loop p).incoming = ev :: (f (loop p)).incoming)
    (alive : (f (loop p)).returned = false) :
    PositionRunning src old pre (mid ++ [ev]) saved q := by
  have same : (loop q).state = { (loop p).state with binlogFile := file, binlogPos := pos } := by
    rw [← state]
    exact congrArg LoopMem.state advances.rest
  refine
    { toReading := running.toReading.advances advances (by rw [state]) incoming alive
      atBoundary := running.atBoundary
      inside := ?_
      mode := by rw [same, running.mode]
      noGTID := by rw [same, running.noGTID]
      safe := by rw [same, ← running.safe] }
  intro other member
  rcases mem_append.mp member with member | member
  · exact running.inside other member
  · rwa [mem_singleton.mp member]

/-- A boundary. -/
theorem PositionRunning.boundary {f : LoopMem Row → LoopMem Row} {ev : StreamEvent Row}
    (ends : isPositionCheckpointBoundary ev = true)
    (advances : Capture.Advances (setLoop p f) q [])
    (complete : Capture.complete q = Capture.taken q)
    (state : (f (loop p)).state = (loop p).state.track ev (Capture.w p).firstIDOfLastBatch)
    (incoming : (loop p).incoming = ev :: (f (loop p)).incoming)
    (alive : (f (loop p)).returned = false) :
    PositionRunning src old (pre ++ mid ++ [ev]) [] saved q := by
  have same : (loop q).state = (loop p).state.track ev (w p).firstIDOfLastBatch := by
    rw [← state]
    exact congrArg LoopMem.state advances.rest
  have named : ev.binlogFile ≠ "" := by
    refine src.named ev ?_
    rw [running.log_eq, incoming]
    simp
  refine
    { toReading := running.toReading.close (isRow_of_boundary ends) advances complete ?_ ?_
        incoming alive
      atBoundary := ?_
      inside := by simp
      mode := by rw [same, StreamState.track_mode, running.mode]
      noGTID := by rw [same, StreamState.track_accGTID, running.noGTID]
      safe := ?_ }
  · rw [state]
    exact StreamState.floor_le_track _ _ _
  · rw [state]
    exact StreamState.track_floor_le running.above.1 running.wf.firstID_le
  · intro last member
    rw [getLast?_concat, Option.mem_some_iff] at member
    rwa [← member]
  · rw [same, src.endOf_concat]
    exact StreamState.track_safe ends named

/-- The flags of the loop say nothing about positions. -/
theorem PositionRunning.flag
    {f : LoopMem Row → LoopMem Row} (state : (f (loop p)).state = (loop p).state)
    (incoming : (f (loop p)).incoming = (loop p).incoming)
    (alive : (f (loop p)).returned = false) :
    PositionRunning src old pre mid saved (setLoop p f) where
  toReading := running.toReading.remember (by rw [state]) (Or.inl (by rw [state])) incoming alive
  atBoundary := running.atBoundary
  inside := running.inside
  mode := (congrArg StreamState.mode state).trans running.mode
  noGTID := (congrArg StreamState.accGTID state).trans running.noGTID
  safe := by
    rw [← running.safe, ← state]
    rfl

end

variable {ev : StreamEvent Row} {rest : List (StreamEvent Row)} {timeUp : Bool}

section

variable (running : PositionRunning src old pre mid saved p)

include running

/-- A row. -/
theorem PositionRunning.row (incoming : (loop p).incoming = ev :: rest) (isRow : ev.isRow = true) :
    PositionRunning src old pre (mid ++ [ev]) saved (receive (readNext p rest) ev timeUp) := by
  rw [receive_row isRow]
  have added := add_advances (wf_track running.wf rest ev) ev timeUp
  have noBoundary : isPositionCheckpointBoundary ev = false :=
    boundary_of_isRow isRow
  have one : rowsOf [ev] = [ev] := by simp [rowsOf, isRow]
  rw [← one] at added
  exact running.inner (f := fun m => { m with
      incoming := rest
      state := m.state.track ev (w p).firstIDOfLastBatch })
    noBoundary added (StreamState.track_of_inside noBoundary) incoming running.alive

/-- A transaction start. -/
theorem PositionRunning.mark
    (incoming : (loop p).incoming = ev :: rest) (kind : ev.eventType = .gtid) :
    PositionRunning src old pre (mid ++ [ev]) saved (receive (readNext p rest) ev timeUp) := by
  rw [receive_gtid kind]
  have noBoundary : isPositionCheckpointBoundary ev = false := by
    simp [isPositionCheckpointBoundary, kind]
  have none : rowsOf [ev] = [] := by simp [rowsOf, StreamEvent.isRow, kind]
  refine running.inner (f := fun m => { m with
      incoming := rest
      state := m.state.track ev (w p).firstIDOfLastBatch
      ddlClaimed := false })
    noBoundary ?_ (StreamState.track_of_inside noBoundary) incoming running.alive
  rw [none]
  exact Capture.Advances.refl (wf_setLoop running.wf _)

theorem PositionRunning.tracked :
    (loop (trackPosition (readNext p rest) ev)).state.accGTID = none := by
  have state : (loop (trackPosition (readNext p rest) ev)).state =
    (loop p).state.track ev (w p).firstIDOfLastBatch := rfl
  rw [state, StreamState.track_accGTID, running.noGTID]

/-- A transaction end. -/
theorem PositionRunning.commit
    (incoming : (loop p).incoming = ev :: rest) (kind : ev.eventType = .commit) :
    PositionRunning src old (pre ++ mid ++ [ev]) [] saved
      (receive (readNext p rest) ev timeUp) := by
  rw [receive_commit kind, advanceGTID_of_none running.tracked]
  obtain ⟨advances, complete⟩ := endTxn_advances
    (wf_setLoop (wf_track running.wf rest ev) fun m => { m with ddlClaimed := false })
  exact running.boundary (f := fun m => { m with
      incoming := rest
      state := m.state.track ev (w p).firstIDOfLastBatch
      ddlClaimed := false })
    (by simp [isPositionCheckpointBoundary, kind]) advances complete rfl incoming running.alive

/-- A DDL. -/
theorem PositionRunning.ddl
    (incoming : (loop p).incoming = ev :: rest) (kind : ev.eventType = .ddl) :
    PositionRunning src old (pre ++ mid ++ [ev]) [] saved
      (receive (readNext p rest) ev timeUp) := by
  obtain ⟨advances, complete⟩ := endTxn_advances (wf_track running.wf rest ev)
  obtain ⟨commit, -⟩ := commitComplete_advances advances.wf
  have closed := running.boundary (f := fun m => { m with
      incoming := rest
      state := m.state.track ev (w p).firstIDOfLastBatch })
    (by simp [isPositionCheckpointBoundary, kind]) (advances.trans commit)
    (commit.complete_eq_taken complete) rfl incoming running.alive
  rw [receive_ddl kind, advanceGTID_of_none closed.noGTID]
  exact closed.flag rfl rfl closed.alive

/-- The next event of the log. -/
theorem PositionRunning.receive (incoming : (loop p).incoming = ev :: rest) (timeUp : Bool) :
    ∃ pre' mid', PositionRunning src old pre' mid' saved (receive (readNext p rest) ev timeUp) := by
  by_cases row : ev.isRow = true
  · exact ⟨_, _, running.row incoming row⟩
  · cases kind : ev.eventType with
    | caughtUp =>
      rw [receive_caughtUp kind]
      have none : rowsOf [ev] = [] := by simp [rowsOf, row]
      refine ⟨pre, mid ++ [ev], ?_⟩
      refine running.inner (f := fun m => { m with incoming := rest })
        (by simp [isPositionCheckpointBoundary, kind]) ?_ rfl incoming running.alive
      rw [none]
      exact Capture.Advances.refl (wf_setLoop running.wf _)
    | gtid => exact ⟨_, _, running.mark incoming kind⟩
    | commit => exact ⟨_, _, running.commit incoming kind⟩
    | ddl => exact ⟨_, _, running.ddl incoming kind⟩
    | insert | update | delete | snapshot | relation =>
      simp [StreamEvent.isRow, kind] at row

/-- Nothing is open at the end of the log. -/
theorem PositionRunning.all_ended (allRead : (loop p).incoming = []) : mid = [] := by
  have log_eq := running.log_eq
  rw [allRead, append_nil] at log_eq
  rcases mid.eq_nil_or_concat' with rfl | ⟨init, last, rfl⟩
  · rfl
  · have ends := src.closed last (by rw [log_eq, ← append_assoc]; simp)
    rw [running.inside last (by simp)] at ends
    cases ends

end

theorem position_readsOn : ReadsOn src.Claims old src.events (fun _ _ => True)
    (PositionRunning src old) where
  reading := PositionRunning.toReading
  same := fun running => running.same
  claims := fun running _ _ => running.claims
  receive := PositionRunning.receive
  ended := PositionRunning.all_ended

end Run

/-! ## Recovery -/

/-- The index before the first event: `old` rows of earlier captures, and the
checkpoint a run without one saves. -/
def PositionLog.firstDisk (src : PositionLog Row) (old : List (ℕ × StreamEvent Row)) (nextID : ℕ) :
    StreamDB Row where
  rows := old
  nextID := nextID
  saved :=
    { mode := .position
      binlogFile := src.startFile
      binlogPos := src.startPos
      gtidSet := []
      dedupFloorID := freshDedupFloor old }

theorem PositionLog.left_firstDisk (src : PositionLog Row) {old : List (ℕ × StreamEvent Row)}
    {nextID : ℕ} (fresh : freshDedupFloor old ≤ nextID) :
    Left src.Claims old src.events (src.firstDisk old nextID) := by
  exact ⟨[], nil_prefix, ⟨by simp [AtBoundary], rfl⟩,
    leaves_start fun _ member => lt_freshDedupFloor member, fresh⟩

/-- After any number of crashes, each at any write of a run with any batch size,
caps and checkpoints, a run that reads the log to its end has every row of the
log in the index exactly once, behind the older rows. -/
theorem streamLoop_position_exactly_once (src : PositionLog Row)
    (old : List (ℕ × StreamEvent Row)) (nextID : ℕ) (fresh : freshDedupFloor old ≤ nextID)
    {db : StreamDB Row}
    (crashes : Relation.ReflTransGen
      (StopsAt (resumePosition src.events) StreamProc.streamLoop fun _ _ => True)
      (src.firstDisk old nextID) db)
    (cfg : BatchConfig) (acts : List LoopAct) (noStop : ∀ act ∈ acts, act.isStop = false)
    (allRead : src.events.length ≤ acts.countP LoopAct.isNext) (saves : Bool) :
    ((acts ++ [LoopAct.tick saves]).foldl StreamProc.streamLoop
      (resumePosition src.events cfg db)).disk.rows.map Prod.snd =
        old.map Prod.snd ++ rowsOf src.events := by
  refine position_readsOn.exactly_once (fun cfg _ left => ?_) (src.left_firstDisk fresh) crashes cfg
    (legal_true _ acts) noStop allRead saves
  obtain ⟨pre, running⟩ := resumePosition_running cfg left
  exact ⟨pre, [], pre, running⟩

/-- A transaction of two rows, then a CREATE TABLE ... SELECT of two. -/
def createSelectLog : PositionLog String where
  startFile := "binlog.000001"
  startPos := 4
  events :=
    let row (startPos endPos : ℕ) (data : String) : StreamEvent String :=
      { eventType := .insert, binlogFile := "binlog.000001", startPos, endPos, data := some data }
    let mark (eventType : EventType) (endPos : ℕ) : StreamEvent String :=
      { eventType, binlogFile := "binlog.000001", startPos := 0, endPos }
    [row 120 180 "a", row 120 180 "b", mark .commit 211, mark .ddl 320, row 360 420 "c",
      row 420 480 "d", mark .commit 511]
  start_named := firstLog_named
  named := by decide
  extent := by decide
  sent := by decide
  rows_beyond := by decide
  ordered := by decide
  closed := by simp [AtBoundary, isPositionCheckpointBoundary]

/-- One row per batch and a cap of one row: the first row of the CREATE TABLE ... SELECT
is in the index when the run stops, after the checkpoint its DDL allowed. -/
def createSelectCrash : StreamDB String :=
  ([LoopAct.next false, .next false, .next false, .next false, .tick true, .next false].foldl
    StreamProc.streamLoop
    (resumePosition createSelectLog.events ⟨1, 1⟩ (createSelectLog.firstDisk [] 1))).disk

theorem createSelectCrash_recovered :
    createSelectCrash.rows.map (fun x => x.2.data) = [some "a", some "b", some "c"] ∧
    createSelectCrash.saved.binlogPos = 320 ∧
    (((List.replicate 7 (LoopAct.next false)) ++ [LoopAct.tick true]).foldl StreamProc.streamLoop
      (resumePosition createSelectLog.events ⟨2, 10⟩ createSelectCrash)).disk.rows.map Prod.snd =
        rowsOf createSelectLog.events := by
  refine ⟨by decide, by decide, ?_⟩
  have crash : StopsAt (resumePosition createSelectLog.events) StreamProc.streamLoop
      (fun _ _ => True) (createSelectLog.firstDisk [] 1) createSelectCrash :=
    ⟨⟨1, 1⟩, [LoopAct.next false, .next false, .next false, .next false, .tick true, .next false],
      legal_true _ _, by decide⟩
  exact streamLoop_position_exactly_once createSelectLog [] 1 (by decide)
    (Relation.ReflTransGen.single crash) ⟨2, 10⟩ (replicate 7 (LoopAct.next false))
    (by decide) (by decide) true

/-- Whatever write a crash falls on, the index holds the older rows and a beginning of the log's,
and every row before the saved checkpoint is there. -/
theorem position_disks_behind (src : PositionLog Row) (old : List (ℕ × StreamEvent Row))
    (nextID : ℕ) (fresh : freshDedupFloor old ≤ nextID) {db : StreamDB Row}
    (crashes : Relation.ReflTransGen
      (StopsAt (resumePosition src.events) StreamProc.streamLoop fun _ _ => True)
      (src.firstDisk old nextID) db) :
    db.rows.map Prod.snd <+: old.map Prod.snd ++ rowsOf src.events ∧
      ∃ pre, pre <+: src.events ∧ src.Claims db.saved pre ∧
        old.map Prod.snd ++ rowsOf pre <+: db.rows.map Prod.snd := by
  obtain ⟨pre, inLog, claimed, leaves, -⟩ : Left src.Claims old src.events db := by
    refine left_of_stops (fun cfg _ left => ?_) (fun _ _ => position_readsOn.streamLoop)
      (fun _ => position_readsOn.behind) crashes (src.left_firstDisk fresh)
    obtain ⟨pre, running⟩ := resumePosition_running cfg left
    exact .inl ⟨pre, [], pre, running⟩
  exact ⟨leaves.upper, pre, inLog, claimed, leaves.lower⟩

theorem createSelectCrash_behind :
    createSelectCrash.rows.map Prod.snd <+: rowsOf createSelectLog.events :=
  (position_disks_behind createSelectLog [] 1 (by decide) (.single
    ⟨⟨1, 1⟩, replicate 4 (.next false) ++ [.tick true, .next false], legal_true _ _, by decide⟩)).1

end Dbtrail
