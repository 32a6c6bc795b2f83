import Dbtrail.Indexer.TxnBatch
import Dbtrail.Query.Binlog

/-!
# The capture loop of a MySQL or MariaDB source

`streamLoop` takes the parser's events one by one, hands the rows to the batcher
and saves checkpoints. Its select is modelled as a schedule of `LoopAct`: a
checkpoint tick, the time cap of the open index transaction, the next event, or
the end of the loop. What a checkpoint says depends on the mode: in position
mode the last transaction end or DDL, in GTID mode the position of the last
event and the set of GTIDs whose end was read.

A run can stop anywhere. The next one cleans the index up after the saved
checkpoint (`deleteEventsSinceCheckpoint`, `deleteEventsSinceCheckpointGTID`)
and reads the source again from there.
-/

namespace Dbtrail

/-- An event the stream parser sends. Only rows are indexed; `data` is what the
loop passes on unread. -/
structure StreamEvent (Row : Type) : Type where
  eventType : EventType
  binlogFile : String
  startPos : ℕ
  endPos : ℕ
  gtid : String := ""
  data : Option Row := none
  deriving DecidableEq, Repr

inductive StreamMode : Type
  | position
  | gtid
  deriving DecidableEq, Repr

/-- A GTID set, by its members. -/
abbrev GTIDSet : Type := List String

/-- `streamState`: what the loop tracks between checkpoints. `accGTID` is `none`
in position mode. -/
structure StreamState : Type where
  mode : StreamMode
  binlogFile : String
  binlogPos : ℕ
  safeFile : String
  safePos : ℕ
  dedupFloorID : ℕ
  gtidSet : GTIDSet
  accGTID : Option GTIDSet
  deriving DecidableEq, Repr

/-- The checkpoint row of `stream_state`. -/
structure Checkpoint : Type where
  mode : StreamMode
  binlogFile : String
  binlogPos : ℕ
  gtidSet : GTIDSet
  dedupFloorID : ℕ
  deriving DecidableEq, Repr

/-- The loop's memory beside its batcher: the state, the events the source has
yet to send, and whether the loop returned. -/
structure LoopMem (Row : Type) : Type where
  state : StreamState
  incoming : List (StreamEvent Row)
  ddlClaimed : Bool := false
  returned : Bool := false

variable {Row : Type}

abbrev StreamProc (Row : Type) : Type := Capture (StreamEvent Row) (LoopMem Row) Checkpoint

/-- The rows of a run of events. -/
def StreamEvent.isRow (ev : StreamEvent Row) : Bool :=
  ev.eventType != .caughtUp && ev.eventType != .gtid && ev.eventType != .commit &&
    ev.eventType != .ddl

def rowsOf (evs : List (StreamEvent Row)) : List (StreamEvent Row) := evs.filter StreamEvent.isRow

/-- A transaction end or a DDL: a place a position-mode resume can start from. -/
def isPositionCheckpointBoundary (ev : StreamEvent Row) : Bool :=
  ev.eventType == .commit || ev.eventType == .ddl

def StreamState.noteDedupFloor (st : StreamState) (id : ℕ) : StreamState :=
  if st.dedupFloorID < id then { st with dedupFloorID := id } else st

def checkpointPosition (st : StreamState) : String × ℕ :=
  if st.mode = .position ∧ st.safeFile ≠ "" then (st.safeFile, st.safePos)
  else (st.binlogFile, st.binlogPos)

/-- The position an event leaves, and the safe point and the floor a boundary
moves. GTID mode takes its floor at the commit instead. -/
def StreamState.track (st : StreamState) (ev : StreamEvent Row) (firstID : ℕ) : StreamState :=
  let st := { st with
    binlogFile := if ev.binlogFile ≠ "" then ev.binlogFile else st.binlogFile
    binlogPos := ev.endPos }
  if isPositionCheckpointBoundary ev then
    let st := { st with safeFile := st.binlogFile, safePos := ev.endPos }
    if st.mode = .position then st.noteDedupFloor firstID else st
  else st

/-- `advanceGTID`: add an ended transaction's GTID to the durable set, and move the
floor with it. -/
def StreamState.claimGTID (st : StreamState) (gtid : String) (firstID : ℕ) : StreamState :=
  match st.accGTID with
  | none => st
  | some acc =>
      if gtid = "" then st
      else
        { st with accGTID := some (acc.insert gtid), gtidSet := acc.insert gtid }.noteDedupFloor
          firstID

/-- The row `saveCheckpoint` writes. -/
def StreamState.checkpoint (st : StreamState) : Checkpoint where
  mode := st.mode
  binlogFile := (checkpointPosition st).1
  binlogPos := (checkpointPosition st).2
  gtidSet := st.gtidSet
  dedupFloorID := st.dedupFloorID

theorem isRow_of_boundary {ev : StreamEvent Row} (ends : isPositionCheckpointBoundary ev = true) :
    ev.isRow = false := by
  simp only [isPositionCheckpointBoundary, Bool.or_eq_true, beq_iff_eq] at ends
  rcases ends with kind | kind <;> simp [StreamEvent.isRow, kind]

theorem boundary_of_isRow {ev : StreamEvent Row} (row : ev.isRow = true) :
    isPositionCheckpointBoundary ev = false := by
  by_contra ends
  rw [isRow_of_boundary (by simpa using ends)] at row
  cases row

namespace StreamState

variable (st : StreamState) (ev : StreamEvent Row) (id : ℕ)

theorem noteDedupFloor_eq :
    st.noteDedupFloor id = { st with dedupFloorID := max st.dedupFloorID id } := by
  unfold noteDedupFloor
  split
  · rw [max_eq_right (by omega)]
  · rw [max_eq_left (by omega)]

theorem track_mode : (st.track ev id).mode = st.mode := by
  simp only [track, noteDedupFloor_eq]
  split_ifs <;> rfl

theorem track_accGTID : (st.track ev id).accGTID = st.accGTID := by
  simp only [track, noteDedupFloor_eq]
  split_ifs <;> rfl

theorem track_gtidSet : (st.track ev id).gtidSet = st.gtidSet := by
  simp only [track, noteDedupFloor_eq]
  split_ifs <;> rfl

theorem track_floor : (st.track ev id).dedupFloorID =
    if isPositionCheckpointBoundary ev = true ∧ st.mode = .position then max st.dedupFloorID id
    else st.dedupFloorID := by
  by_cases ends : isPositionCheckpointBoundary ev = true
  · by_cases mode : st.mode = .position <;> simp [track, noteDedupFloor_eq, ends, mode]
  · simp [track, ends]

theorem floor_le_track : st.dedupFloorID ≤ (st.track ev id).dedupFloorID := by
  rw [track_floor]
  split
  · exact le_max_left _ _
  · exact le_rfl

variable {st ev id}

theorem track_floor_le {n : ℕ} (floor : st.dedupFloorID ≤ n) (first : id ≤ n) :
    (st.track ev id).dedupFloorID ≤ n := by
  rw [track_floor]
  split
  · exact max_le floor first
  · exact floor

theorem track_of_inside (noBoundary : isPositionCheckpointBoundary ev = false) :
    st.track ev id = { st with
      binlogFile := if ev.binlogFile ≠ "" then ev.binlogFile else st.binlogFile
      binlogPos := ev.endPos } := by
  simp [track, noBoundary]

theorem track_safe (ends : isPositionCheckpointBoundary ev = true) (named : ev.binlogFile ≠ "") :
    ((st.track ev id).safeFile, (st.track ev id).safePos) = (ev.binlogFile, ev.endPos) := by
  simp only [track, noteDedupFloor_eq, if_pos ends, if_pos named]
  split_ifs <;> rfl

theorem track_place (named : ev.binlogFile ≠ "") :
    (st.track ev id).binlogFile = ev.binlogFile ∧ (st.track ev id).binlogPos = ev.endPos := by
  simp only [track, noteDedupFloor_eq, if_pos named]
  split_ifs <;> exact ⟨rfl, rfl⟩

theorem claimGTID_of_named {acc : GTIDSet} (isAcc : st.accGTID = some acc) {gtid : String}
    (named : gtid ≠ "") :
    st.claimGTID gtid id = { st with
      accGTID := some (acc.insert gtid)
      gtidSet := acc.insert gtid
      dedupFloorID := max st.dedupFloorID id } := by
  simp only [claimGTID, isAcc, if_neg named, noteDedupFloor_eq]

theorem claimGTID_empty : st.claimGTID "" id = st := by
  unfold claimGTID
  split <;> simp

end StreamState

namespace StreamProc

def loop (p : StreamProc Row) : LoopMem Row := p.mem.2

def setLoop (p : StreamProc Row) (f : LoopMem Row → LoopMem Row) : StreamProc Row :=
  p.modifyMem fun m => (m.1, f m.2)

def setState (p : StreamProc Row) (f : StreamState → StreamState) : StreamProc Row :=
  setLoop p fun m => { m with state := f m.state }

def saveCheckpoint (p : StreamProc Row) : StreamProc Row :=
  p.persist fun db => { db with saved := (loop p).state.checkpoint }

/-- Commit the rows of ended transactions, then save the position. A save that
failed is only logged. -/
def checkpoint (p : StreamProc Row) (saves : Bool) : StreamProc Row :=
  let p := Capture.commitComplete p
  if saves then saveCheckpoint p else p

def advanceGTID (p : StreamProc Row) (gtid : String) : StreamProc Row :=
  setState p fun st => st.claimGTID gtid (Capture.w p).firstIDOfLastBatch

def trackPosition (p : StreamProc Row) (ev : StreamEvent Row) : StreamProc Row :=
  setState p fun st => st.track ev (Capture.w p).firstIDOfLastBatch

/-- One event off the channel. -/
def receive (p : StreamProc Row) (ev : StreamEvent Row) (timeUp : Bool) : StreamProc Row :=
  if ev.eventType = .caughtUp then p
  else
    let p := trackPosition p ev
    match ev.eventType with
    | .gtid => setLoop p fun m => { m with ddlClaimed := false }
    | .commit =>
        let p := advanceGTID p ev.gtid
        Capture.endTxn (setLoop p fun m => { m with ddlClaimed := false })
    | .ddl =>
        let p := advanceGTID (Capture.commitComplete (Capture.endTxn p)) ev.gtid
        setLoop p fun m =>
          { m with ddlClaimed := m.state.accGTID.isSome && ev.gtid != "" }
    | _ => Capture.add p ev timeUp

variable {p : StreamProc Row}

theorem setState_eq_self {f : StreamState → StreamState}
    (same : f (loop p).state = (loop p).state) : setState p f = p := by
  obtain ⟨⟨w, m⟩, disk, visited⟩ := p
  have state : f m.state = m.state := same
  simp only [setState, setLoop, Proc.modifyMem, state]

theorem advanceGTID_of_none (noGTID : (loop p).state.accGTID = none) (gtid : String) :
    advanceGTID p gtid = p :=
  setState_eq_self (by simp only [StreamState.claimGTID, noGTID])

variable {ev : StreamEvent Row} {timeUp : Bool}

theorem receive_caughtUp (kind : ev.eventType = .caughtUp) : receive p ev timeUp = p := by
  simp only [receive, kind, if_true]

theorem receive_gtid (kind : ev.eventType = .gtid) :
    receive p ev timeUp = setLoop (trackPosition p ev) fun m => { m with ddlClaimed := false } := by
  simp only [receive, kind, reduceCtorEq, if_false]

theorem receive_commit (kind : ev.eventType = .commit) :
    receive p ev timeUp = Capture.endTxn (setLoop (advanceGTID (trackPosition p ev) ev.gtid)
      fun m => { m with ddlClaimed := false }) := by
  simp only [receive, kind, reduceCtorEq, if_false]

theorem receive_ddl (kind : ev.eventType = .ddl) :
    receive p ev timeUp =
      setLoop (advanceGTID (Capture.commitComplete (Capture.endTxn (trackPosition p ev))) ev.gtid)
        fun m => { m with ddlClaimed := m.state.accGTID.isSome && ev.gtid != "" } := by
  simp only [receive, kind, reduceCtorEq, if_false]

theorem receive_row (row : ev.isRow = true) :
    receive p ev timeUp = Capture.add (trackPosition p ev) ev timeUp := by
  unfold receive
  cases kind : ev.eventType <;> simp_all [StreamEvent.isRow]

/-- The end of the loop: the rows of a transaction still being read are dropped,
unless its GTID is already in the set, in which case no resume would read it. -/
def stop (p : StreamProc Row) (saves : Bool) : StreamProc Row :=
  let p :=
    if (Capture.w p).inTxn then
      if (loop p).ddlClaimed then Capture.endTxn p else Capture.discard p
    else p
  setLoop (checkpoint p saves) fun m => { m with returned := true }

end StreamProc

/-- What the loop's select can take. `saves` is whether the checkpoint row could
be written, `timeUp` whether the open index transaction is past its time cap. -/
inductive LoopAct : Type
  | tick (saves : Bool)
  | cap (timeUp : Bool)
  | next (timeUp : Bool)
  | stop (saves : Bool)
  deriving DecidableEq, Repr

def LoopAct.isNext : LoopAct → Bool
  | .next _ => true
  | _ => false

def LoopAct.isStop : LoopAct → Bool
  | .stop _ => true
  | _ => false

/-- Whether the turn writes a checkpoint row. -/
def LoopAct.saves : LoopAct → Bool
  | .tick saves | .stop saves => saves
  | _ => false

namespace StreamProc

/-- The channel hands out an event; `rest` is still to come. -/
def readNext (p : StreamProc Row) (rest : List (StreamEvent Row)) : StreamProc Row :=
  setLoop p fun m => { m with incoming := rest }

def streamLoop (p : StreamProc Row) (act : LoopAct) : StreamProc Row :=
  if (loop p).returned then p
  else
    match act with
    | .tick saves => checkpoint p saves
    | .cap timeUp => Capture.onCap p timeUp
    | .next timeUp =>
        match (loop p).incoming with
        | [] => p
        | ev :: rest => receive (readNext p rest) ev timeUp
    | .stop saves => stop p saves

end StreamProc

/-! ## Starting again -/

/-- The position predicate of the resume cleanup. -/
def atOrBeyond (file : String) (pos : ℕ) (ev : StreamEvent Row) : Bool :=
  fileBefore file ev.binlogFile || (ev.binlogFile == file && decide (pos ≤ ev.startPos))

abbrev StreamDB (Row : Type) : Type := IndexDB (StreamEvent Row) Checkpoint

/-- `floor = 0` is a checkpoint without a floor. -/
def aboveFloor (floor id : ℕ) : Bool := floor == 0 || decide (floor ≤ id)

def deleteEventsSinceCheckpoint (db : StreamDB Row) (file : String) (pos floor : ℕ) :
    StreamDB Row :=
  if file = "" then db
  else
    { db with
      rows := db.rows.filter fun x => !(aboveFloor floor x.1 && atOrBeyond file pos x.2) }

/-- The second pass of GTID mode: rows of the checkpoint's file below its
position whose GTID the saved set does not hold. -/
def deleteEventsSinceCheckpointGTID (db : StreamDB Row) (file : String) (pos : ℕ)
    (savedSet : GTIDSet) (floor : ℕ) : StreamDB Row :=
  let db := deleteEventsSinceCheckpoint db file pos floor
  if file = "" then db
  else
    let stragglers := (db.rows.filter fun x =>
      aboveFloor floor x.1 && x.2.binlogFile == file && decide (x.2.startPos < pos) &&
        x.2.gtid != "" && !savedSet.contains x.2.gtid).map fun x => x.2.gtid
    { db with
      rows := db.rows.filter fun x =>
        !(stragglers.contains x.2.gtid && x.2.binlogFile == file && aboveFloor floor x.1) }

/-- A run that found this index: it cleans up, then reads `incoming`. -/
def startRun (cfg : BatchConfig) (state : StreamState) (incoming : List (StreamEvent Row))
    (cleanup : StreamDB Row → StreamDB Row) (db : StreamDB Row) : StreamProc Row :=
  (Proc.boot (newTxnBatcher cfg, { state, incoming }) db).persist cleanup

/-- One above every row already in the index. -/
def freshDedupFloor (rows : List (ℕ × StreamEvent Row)) : ℕ := (rows.map Prod.fst).foldr max 0 + 1

theorem lt_freshDedupFloor {old : List (ℕ × StreamEvent Row)} {x : ℕ × StreamEvent Row}
    (member : x ∈ old) : x.1 < freshDedupFloor old :=
  Nat.lt_succ_of_le (List.le_max_of_le (List.mem_map_of_mem member) le_rfl)

end Dbtrail
