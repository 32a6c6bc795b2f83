import Mathlib

/-!
# The stream parser's re-send guard

After a silent reconnect in GTID mode the source sends again the last transaction whose
GTID event it had delivered. `Run` keeps which transaction is open, which one is known
complete, and whether a rotate was seen since the last transaction start, and from these
decides at a GTID event to go on, to drop the transaction, or to stop.

The guard's part of `Run` is modelled: positions, statement texts, timestamps, heartbeats,
filters and the DDL hook are left out, and a query event carries what the parser's own
classifiers say of its text.
-/

namespace Dbtrail.Parser

variable {Row : Type}

/-- What `Run` sends to its consumer. -/
inductive Event (Row : Type) : Type where
  | gtid (gtid : String)
  | commit (gtid : String)
  | ddl (gtid : String)
  | row (gtid : String) (data : Row)
  deriving DecidableEq, Repr

def Event.row? : Event Row → Option Row
  | .row _ data => some data
  | _ => none

/-- What a query is to the parser: `parseDDL` takes it, `statementDML` does,
`isTransactionTerminator` does, or none of them (BEGIN, GRANT, ...). -/
inductive QueryKind : Type where
  | ddl
  | dml
  | terminator
  | other
  deriving DecidableEq, Repr

/-- A binlog event. A rows event has the images that pass the filters. -/
inductive BinlogEvent (Row : Type) : Type where
  | rotate (artificial : Bool)
  | gtid (gtid : String)
  | gtidTagged
  | query (kind : QueryKind)
  | xid
  | xaPrepare
  | rows (images : List Row)
  | other
  deriving DecidableEq, Repr

/-- An event as it is delivered: alone, or the events of a compressed transaction in one. -/
inductive WireEvent (Row : Type) : Type where
  | single (ev : BinlogEvent Row)
  | payload (inner : List (BinlogEvent Row))
  deriving DecidableEq, Repr

structure ResentCutTransactionError : Type where
  gtid : String
  rows : ℕ
  deriving DecidableEq, Repr

/-- The variables of `Run`, and what it has sent so far. -/
structure RunState (Row : Type) : Type where
  currentGTID : String
  lastCommittedGTID : String
  ddlTxnGTID : String
  afterRotate : Bool
  skipTxn : Bool
  txnRows : ℕ
  out : List (Event Row)
  deriving DecidableEq, Repr

namespace RunState

def init : RunState Row := ⟨"", "", "", false, false, 0, []⟩

/-- The emitter counts the row events it sends. -/
def send (s : RunState Row) (ev : Event Row) : RunState Row :=
  { s with out := s.out ++ [ev], txnRows := if ev.row?.isSome then s.txnRows + 1 else s.txnRows }

def emitCommit (s : RunState Row) : RunState Row :=
  if s.currentGTID = "" then s
  else { s.send (.commit s.currentGTID) with lastCommittedGTID := s.currentGTID, currentGTID := "" }

def endTxn (s : RunState Row) : RunState Row :=
  if s.currentGTID ≠ "" then s.emitCommit else s.send (.commit "")

def beginTxn (s : RunState Row) (gtid : String) :
    Except ResentCutTransactionError (RunState Row) :=
  let resent := s.afterRotate && s.currentGTID != "" && s.currentGTID == gtid
  if resent && decide (0 < s.txnRows) then .error ⟨gtid, s.txnRows⟩
  else
    let s := (if resent then { s with currentGTID := "" } else s).emitCommit
    .ok { s with
      currentGTID := gtid
      skipTxn := s.afterRotate && gtid != "" && gtid == s.lastCommittedGTID
      afterRotate := false
      ddlTxnGTID := ""
      txnRows := 0 }

def emitGTIDTracking (s : RunState Row) : RunState Row :=
  if s.currentGTID = "" then s else s.send (.gtid s.currentGTID)

def handleRows (s : RunState Row) (images : List Row) : RunState Row :=
  images.foldl (fun s image => s.send (.row s.currentGTID image)) s

/-- An event while nothing is being skipped. -/
def process (s : RunState Row) : BinlogEvent Row → Except ResentCutTransactionError (RunState Row)
  | .rotate artificial =>
      .ok (if artificial then { s with skipTxn := false, afterRotate := true } else s)
  | .gtid gtid => do
      let s ← s.beginTxn gtid
      if s.skipTxn then return { s with currentGTID := "" }
      return s.emitGTIDTracking
  | .gtidTagged => .ok s
  | .query .ddl =>
      .ok { s.send (.ddl s.currentGTID) with ddlTxnGTID := s.currentGTID, currentGTID := "" }
  | .query .dml => .ok s
  | .query .terminator => .ok s.endTxn
  | .query .other => .ok s
  | .xid =>
      let s := if s.currentGTID = "" ∧ s.ddlTxnGTID ≠ "" then
        { s with lastCommittedGTID := s.ddlTxnGTID, ddlTxnGTID := "" } else s
      .ok s.endTxn
  | .xaPrepare => .ok s.endTxn
  | .rows images => .ok (s.handleRows images)
  | .other => .ok s

/-- While a re-sent transaction is skipped only rotates and transaction starts go through. -/
def handleInner (s : RunState Row) (ev : BinlogEvent Row) :
    Except ResentCutTransactionError (RunState Row) :=
  if s.skipTxn then
    match ev with
    | .rotate artificial => s.process (.rotate artificial)
    | .gtid gtid => s.process (.gtid gtid)
    | .gtidTagged => { s with skipTxn := false }.process .gtidTagged
    | _ => .ok s
  else s.process ev

def handleEvent (s : RunState Row) :
    WireEvent Row → Except ResentCutTransactionError (RunState Row)
  | .single ev => s.handleInner ev
  | .payload inner => if s.skipTxn then .ok s else inner.foldlM handleInner s

def rows (s : RunState Row) : List Row := s.out.filterMap Event.row?

end RunState

/-! ## The source -/

/-- What stands between the start and the end of a transaction's rows. -/
inductive Work (Row : Type) : Type where
  | rows (images : List Row)
  | other
  deriving DecidableEq, Repr

def Work.event : Work Row → BinlogEvent Row
  | .rows images => .rows images
  | .other => .other

inductive Close : Type where
  | xid
  | terminator
  | xaPrepare
  deriving DecidableEq, Repr

def Close.event : Close → BinlogEvent Row
  | .xid => .xid
  | .terminator => .query .terminator
  | .xaPrepare => .xaPrepare

/-- The shapes of a transaction. A `statement` commits by itself and has neither rows nor an
end event (GRANT, CREATE DATABASE, ...). -/
inductive Shape (Row : Type) : Type where
  | plain (work : List (Work Row)) (close : Close)
  | statement
  | ddl
  | createSelect (work : List (Work Row))
  deriving DecidableEq, Repr

def Shape.events : Shape Row → List (BinlogEvent Row)
  | .plain work close => .query .other :: work.map Work.event ++ [close.event]
  | .statement => [.query .other]
  | .ddl => [.query .ddl]
  | .createSelect work => .query .ddl :: work.map Work.event ++ [.xid]

def Shape.isSelect : Shape Row → Bool
  | .createSelect _ => true
  | _ => false

structure Txn (Row : Type) : Type where
  gtid : String
  gtid_ne : gtid ≠ ""
  shape : Shape Row
  compressed : Bool
  deriving DecidableEq, Repr

/-- The events of a transaction after its GTID event. -/
def Txn.body (t : Txn Row) : List (WireEvent Row) :=
  if t.compressed then [.payload t.shape.events] else t.shape.events.map .single

/-- The source's binlog: transactions and the switches from one file to the next. -/
inductive LogItem (Row : Type) : Type where
  | fileSwitch
  | txn (t : Txn Row)
  deriving DecidableEq, Repr

def LogItem.gtid? : LogItem Row → Option String
  | .fileSwitch => none
  | .txn t => some t.gtid

def gtids (items : List (LogItem Row)) : List String := items.filterMap LogItem.gtid?

structure SourceLog (Row : Type) : Type where
  items : List (LogItem Row)
  distinct : (gtids items).Nodup

/-- A connection: what a reconnect sends again, what is left of the transaction or file switch
being sent, and what comes after it. -/
structure Source (Row : Type) : Type where
  resend : List (LogItem Row)
  pending : List (WireEvent Row)
  rest : List (LogItem Row)
  deriving DecidableEq, Repr

namespace Source

/-- The next event, if there is one. A switch is a rotate of the old file and an artificial one
for the new file. -/
def send (s : Source Row) : Option (WireEvent Row × Source Row) :=
  match s.pending, s.rest with
  | ev :: pending, _ => some (ev, { s with pending := pending })
  | [], .fileSwitch :: rest =>
      some (.single (.rotate false), ⟨s.resend, [.single (.rotate true)], rest⟩)
  | [], .txn t :: rest => some (.single (.gtid t.gtid), ⟨.txn t :: rest, t.body, rest⟩)
  | [], [] => none

/-- A new connection begins with an artificial rotate. -/
def reconnect (s : Source Row) : WireEvent Row × Source Row :=
  (.single (.rotate true), ⟨s.resend, [], s.resend⟩)

/-- Everything has been delivered. -/
def Drained (s : Source Row) : Prop := s.pending = [] ∧ s.rest = []

instance [DecidableEq Row] (s : Source Row) : Decidable s.Drained :=
  inferInstanceAs (Decidable (_ ∧ _))

end Source

/-! ## A session of the two -/

structure Session (Row : Type) : Type where
  source : Source Row
  parser : RunState Row
  stopped : Option ResentCutTransactionError

inductive Act : Type where
  | deliver
  | reconnect
  deriving DecidableEq, Repr

namespace Session

def start (log : SourceLog Row) : Session Row := ⟨⟨log.items, [], log.items⟩, .init, none⟩

def receive (w : Session Row) (ev : WireEvent Row) (source : Source Row) : Session Row :=
  match w.parser.handleEvent ev with
  | .ok parser => { w with source := source, parser := parser }
  | .error err => { w with source := source, stopped := some err }

def act (w : Session Row) (a : Act) : Session Row :=
  if w.stopped.isSome then w
  else
    match a with
    | .deliver =>
        match w.source.send with
        | some (ev, source) => w.receive ev source
        | none => w
    | .reconnect => w.receive w.source.reconnect.1 w.source.reconnect.2

def run (w : Session Row) (acts : List Act) : Session Row := acts.foldl act w

end Session

end Dbtrail.Parser
