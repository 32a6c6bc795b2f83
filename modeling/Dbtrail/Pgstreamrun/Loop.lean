import Dbtrail.Streamrun.Loop

/-!
# The capture loop of a PostgreSQL source

`streamLoopPG` hands the rows of a transaction to the same batcher as the MySQL
loop. Its cursor is the commit LSN of the last transaction read to its end: a
checkpoint commits the rows of ended transactions, saves that LSN, and only then
acknowledges it to the source. A resumed run reads from the saved LSN and touches
nothing in the index.

A relation message writes a schema snapshot of its own, whose id is stamped on the
rows that follow. A DDL marker is written to another table and moves nothing here.
-/

namespace Dbtrail

/-- A decoded event. Every event of a transaction carries its commit LSN. -/
structure PGEvent (Row : Type) : Type where
  eventType : EventType
  schema : String := ""
  table : String := ""
  lsn : ℕ
  data : Option Row := none
  schemaVersion : ℕ := 0
  deriving DecidableEq, Repr

/-- What is on disk beside the rows: the checkpoint's LSN, 0 before the first one,
and the newest schema snapshot. -/
structure PGSaved : Type where
  lsn : ℕ
  snapshotID : ℕ
  deriving DecidableEq, Repr

structure PGMem (Row : Type) : Type where
  lastCommitLSN : ℕ := 0
  lastAcked : ℕ
  snapshotByTable : String → ℕ := fun _ => 0
  incoming : List (PGEvent Row)
  returned : Bool := false

variable {Row : Type}

abbrev PGDB (Row : Type) : Type := IndexDB (PGEvent Row) PGSaved

abbrev PGProc (Row : Type) : Type := Capture (PGEvent Row) (PGMem Row) PGSaved

def PGEvent.isRow (ev : PGEvent Row) : Bool :=
  ev.eventType != .commit && ev.eventType != .ddl && ev.eventType != .relation &&
    ev.eventType != .gtid

/-- The event as the source sent it, without the snapshot it was stamped with. -/
def PGEvent.unstamped (ev : PGEvent Row) : PGEvent Row := { ev with schemaVersion := 0 }

namespace PGProc

def mem (p : PGProc Row) : PGMem Row := Proc.mem p |>.2

def setMem (p : PGProc Row) (f : PGMem Row → PGMem Row) : PGProc Row :=
  p.modifyMem fun m => (m.1, f m.2)

def saveCheckpointPG (p : PGProc Row) : PGProc Row :=
  p.persist fun db => { db with saved := { db.saved with lsn := (mem p).lastCommitLSN } }

/-- `AckCommitted` only moves forward. -/
def ackCommitted (p : PGProc Row) : PGProc Row :=
  setMem p fun m => { m with lastAcked := max m.lastAcked m.lastCommitLSN }

/-- A save that fails ends the loop. -/
def checkpoint (p : PGProc Row) (saves : Bool) : PGProc Row :=
  let p := Capture.commitComplete p
  if (mem p).lastCommitLSN = 0 then p
  else if saves then ackCommitted (saveCheckpointPG p)
  else setMem p fun m => { m with returned := true }

def stop (p : PGProc Row) (saves : Bool) : PGProc Row :=
  let p := if (Capture.w p).inTxn then Capture.discard p else p
  setMem (checkpoint p saves) fun m => { m with returned := true }

/-- `WritePGSnapshot`, and the id noted for the table's rows. -/
def noteRelation (p : PGProc Row) (ev : PGEvent Row) : PGProc Row :=
  setMem (p.persist fun db => { db with
      saved := { db.saved with snapshotID := db.saved.snapshotID + 1 } })
    fun m => { m with
      snapshotByTable :=
        Function.update m.snapshotByTable (ev.schema ++ "." ++ ev.table)
          (p.disk.saved.snapshotID + 1) }

def stampSnapshot (p : PGProc Row) (ev : PGEvent Row) : PGEvent Row :=
  { ev with schemaVersion := (mem p).snapshotByTable (ev.schema ++ "." ++ ev.table) }

def receive (p : PGProc Row) (ev : PGEvent Row) (timeUp : Bool) : PGProc Row :=
  match ev.eventType with
  | .commit => Capture.endTxn (setMem p fun m => { m with lastCommitLSN := ev.lsn })
  | .ddl => p
  | .relation => noteRelation p ev
  | .gtid => p
  | _ => Capture.add p (stampSnapshot p ev) timeUp

theorem receive_row {p : PGProc Row} {ev : PGEvent Row} {timeUp : Bool} (row : ev.isRow = true) :
    receive p ev timeUp = Capture.add p (stampSnapshot p ev) timeUp := by
  unfold receive
  cases kind : ev.eventType <;> simp_all [PGEvent.isRow]

/-- The channel hands out an event; `rest` is still to come. -/
def readNext (p : PGProc Row) (rest : List (PGEvent Row)) : PGProc Row :=
  setMem p fun m => { m with incoming := rest }

def streamLoopPG (p : PGProc Row) (act : LoopAct) : PGProc Row :=
  if (mem p).returned then p
  else
    match act with
    | .tick saves => checkpoint p saves
    | .cap timeUp => Capture.onCap p timeUp
    | .next timeUp =>
        match (mem p).incoming with
        | [] => p
        | ev :: rest => receive (readNext p rest) ev timeUp
    | .stop saves => stop p saves

end PGProc

/-! ## The source's log -/

/-- A transaction, as decoded at its commit. -/
structure PGTxn (Row : Type) : Type where
  lsn : ℕ
  events : List (PGEvent Row)
  lsn_pos : 0 < lsn
  noCommit : ∀ ev ∈ events, ev.eventType ≠ .commit
  ownLSN : ∀ ev ∈ events, ev.lsn = lsn
  unversioned : ∀ ev ∈ events, ev.schemaVersion = 0

namespace PGTxn

def commitEvent (t : PGTxn Row) : PGEvent Row where
  eventType := .commit
  lsn := t.lsn

def sent (t : PGTxn Row) : List (PGEvent Row) := t.events ++ [t.commitEvent]

def rows (t : PGTxn Row) : List (PGEvent Row) := t.events.filter PGEvent.isRow

end PGTxn

/-- Transactions in commit order. -/
structure PGLog (Row : Type) : Type where
  txns : List (PGTxn Row)
  ordered : txns.Pairwise fun t u => t.lsn < u.lsn

/-- What the source delivers from an LSN on. -/
def PGLog.after (src : PGLog Row) (lsn : ℕ) : List (PGTxn Row) :=
  src.txns.filter fun t => decide (lsn < t.lsn)

/-- A run from the saved checkpoint, or from the beginning. -/
def PGLog.run (src : PGLog Row) (cfg : BatchConfig) (db : PGDB Row) : PGProc Row :=
  Proc.boot (newTxnBatcher cfg,
    { lastAcked := db.saved.lsn
      incoming := (src.after db.saved.lsn).flatMap PGTxn.sent }) db

/-- The rows of the index, as the source sent them. -/
def PGDB.indexed (db : PGDB Row) : List (PGEvent Row) := db.rows.map fun x => x.2.unstamped

end Dbtrail
