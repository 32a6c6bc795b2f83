import Dbtrail.Lib.Checked
import Dbtrail.Lib.Run
import Dbtrail.Parser.Stream

/-!
# The re-send guard loses no row and repeats none

At every moment of a session the parser is between two transactions, inside one (reading
it, or skipping it because it is complete), or about to read one again after a reconnect.
In each case the rows it has sent are the rows of the log up to there, and what its
variables say of the last transaction decides what a re-send of it does.

There is one place where they say too little. The DDL event of a CREATE TABLE ... SELECT
clears the open transaction, so a cut among its rows is not noticed and the re-send is
read as a new transaction (`selectCut_rows_twice`). The guard is right for every run
without such a cut (`resendGuard_rows_exactly_once`).
-/

namespace Dbtrail.Parser

open List

variable {Row : Type} {t : Txn Row} {early : List (LogItem Row)}

/-! ## Rows -/

def BinlogEvent.images : BinlogEvent Row → List Row
  | .rows images => images
  | _ => []

def WireEvent.events : WireEvent Row → List (BinlogEvent Row)
  | .single ev => [ev]
  | .payload inner => inner

def eventsOf (pending : List (WireEvent Row)) : List (BinlogEvent Row) :=
  pending.flatMap WireEvent.events

def imagesOf (events : List (BinlogEvent Row)) : List Row := events.flatMap BinlogEvent.images

def Txn.rows (t : Txn Row) : List Row := imagesOf t.shape.events

def LogItem.rows : LogItem Row → List Row
  | .fileSwitch => []
  | .txn t => t.rows

def rowsOf (items : List (LogItem Row)) : List Row := items.flatMap LogItem.rows

def SourceLog.rows (log : SourceLog Row) : List Row := rowsOf log.items

theorem eventsOf_body (t : Txn Row) : eventsOf t.body = t.shape.events := by
  unfold Txn.body eventsOf
  split
  · simp [WireEvent.events]
  · rw [flatMap_map]
    exact flatMap_singleton' _

@[simp] theorem imagesOf_append (a b : List (BinlogEvent Row)) :
    imagesOf (a ++ b) = imagesOf a ++ imagesOf b := flatMap_append

@[simp] theorem rowsOf_append (a b : List (LogItem Row)) : rowsOf (a ++ b) = rowsOf a ++ rowsOf b :=
  flatMap_append

@[simp] theorem rowsOf_txn (t : Txn Row) (rest : List (LogItem Row)) :
    rowsOf (.txn t :: rest) = t.rows ++ rowsOf rest := rfl

@[simp] theorem gtids_append (a b : List (LogItem Row)) : gtids (a ++ b) = gtids a ++ gtids b :=
  filterMap_append

@[simp] theorem gtids_txn (t : Txn Row) (rest : List (LogItem Row)) :
    gtids (.txn t :: rest) = t.gtid :: gtids rest := rfl

/-! ## Where a transaction stands -/

/-- Up to its DDL event or its end; after a DDL event; ended. -/
inductive Stage : Type where
  | opened
  | afterDDL
  | closed
  deriving DecidableEq, Repr

def Stage.next : Stage → BinlogEvent Row → Option Stage
  | .opened, .query .ddl => some .afterDDL
  | .opened, .query .terminator => some .closed
  | .opened, .query .dml => some .opened
  | .opened, .query .other => some .opened
  | .opened, .xid => some .closed
  | .opened, .xaPrepare => some .closed
  | .opened, .rows _ => some .opened
  | .opened, .other => some .opened
  | .afterDDL, .xid => some .closed
  | .afterDDL, .rows _ => some .afterDDL
  | .afterDDL, .other => some .afterDDL
  | _, _ => none

variable {stage : Stage}

theorem foldlM_next_work (notClosed : stage ≠ .closed) (work : List (Work Row)) :
    (work.map Work.event).foldlM Stage.next stage = some stage := by
  induction work with
  | nil => rfl
  | cons w work ih =>
    have step : stage.next w.event = some stage := by
      cases stage with
      | opened | afterDDL => cases w <;> rfl
      | closed => exact absurd rfl notClosed
    rw [map_cons, foldlM_cons, step]
    exact ih

/-- A transaction that does not end with an event of its own has no rows. -/
theorem Shape.ends (shape : Shape Row) :
    ∃ last, shape.events.foldlM Stage.next .opened = some last ∧
      (last = .closed ∨ imagesOf shape.events = []) := by
  cases shape with
  | plain work close =>
    refine ⟨.closed, ?_, .inl rfl⟩
    have opened : (work.map Work.event).foldlM Stage.next .opened = some .opened :=
      foldlM_next_work (by decide) work
    rw [Shape.events, cons_append, foldlM_cons]
    change (work.map Work.event ++ [close.event]).foldlM Stage.next .opened = _
    rw [foldlM_append, opened]
    cases close <;> rfl
  | statement => exact ⟨.opened, rfl, .inr rfl⟩
  | ddl => exact ⟨.afterDDL, rfl, .inr rfl⟩
  | createSelect work =>
    refine ⟨.closed, ?_, .inl rfl⟩
    have after : (work.map Work.event).foldlM Stage.next .afterDDL = some .afterDDL :=
      foldlM_next_work (by decide) work
    rw [Shape.events, cons_append, foldlM_cons]
    change (work.map Work.event ++ [BinlogEvent.xid]).foldlM Stage.next .afterDDL = _
    rw [foldlM_append, after]
    rfl

theorem Shape.isSelect_of_ddl {shape : Shape Row} (ddl : .query .ddl ∈ shape.events)
    (rows : imagesOf shape.events ≠ []) : shape.isSelect = true := by
  cases shape with
  | plain work close =>
    rw [Shape.events, cons_append, mem_cons, mem_append, mem_singleton] at ddl
    rcases ddl with is | inWork | isClose
    · cases is
    · obtain ⟨w, -, is⟩ := mem_map.mp inWork
      cases w <;> cases is
    · cases close <;> cases isClose
  | statement | ddl => exact absurd rfl rows
  | createSelect work => rfl

/-- An XID is what closes a transaction after its DDL event. -/
theorem xid_mem_of_closes {events : List (BinlogEvent Row)}
    (closes : events.foldlM Stage.next .afterDDL = some .closed) : .xid ∈ events := by
  induction events with
  | nil => cases closes
  | cons ev events ih =>
    rw [foldlM_cons] at closes
    cases ev with
    | xid => exact mem_cons_self
    | rows | other => exact mem_cons_of_mem _ (ih closes)
    | rotate | gtid | gtidTagged | xaPrepare => cases closes
    | query kind => cases kind <;> cases closes

/-- Only a DDL event leads to the stage after one. -/
theorem ddl_mem_of_afterDDL {events : List (BinlogEvent Row)}
    (nexts : events.foldlM Stage.next stage = some .afterDDL) :
    stage = .afterDDL ∨ .query .ddl ∈ events := by
  induction events generalizing stage with
  | nil => exact .inl (Option.some.inj nexts)
  | cons ev events ih =>
    rw [foldlM_cons] at nexts
    obtain ⟨mid, next, nexts⟩ := Option.bind_eq_some_iff.mp nexts
    rcases ih nexts with rfl | member
    · cases stage with
      | afterDDL => exact .inl rfl
      | closed => cases ev <;> cases next
      | opened =>
        cases ev with
        | query kind =>
          cases kind with
          | ddl => exact .inr mem_cons_self
          | dml | terminator | other => cases next
        | rotate | gtid | gtidTagged | xid | xaPrepare | rows | other => cases next
    · exact .inr (mem_cons_of_mem _ member)

/-- The transaction's GTID is empty or one of the transactions seen so far. -/
def Known (seen : List (LogItem Row)) (gtid : String) : Prop := gtid = "" ∨ gtid ∈ gtids seen

theorem Known.append {seen : List (LogItem Row)} {gtid : String} (known : Known seen gtid)
    (more : List (LogItem Row)) : Known (seen ++ more) gtid := by
  rcases known with none | member
  · exact .inl none
  · exact .inr (by simp [member])

/-- The parser's variables while it reads a transaction. -/
structure Reading (early : List (LogItem Row)) (t : Txn Row) (stage : Stage) (part : List Row)
    (p : RunState Row) : Prop where
  noSkip : p.skipTxn = false
  rows : p.rows = rowsOf early ++ part
  opened : stage = .opened → p.currentGTID = t.gtid ∧ Known early p.lastCommittedGTID ∧
    p.txnRows = part.length
  afterDDL : stage = .afterDDL → p.currentGTID = "" ∧ Known early p.lastCommittedGTID ∧
    p.ddlTxnGTID = t.gtid
  closed : stage = .closed → p.currentGTID = "" ∧ p.lastCommittedGTID = t.gtid

namespace RunState

@[simp] theorem rows_send (s : RunState Row) (ev : Event Row) :
    (s.send ev).rows = s.rows ++ ev.row?.toList := by
  unfold rows send
  rw [filterMap_append]
  cases ev <;> rfl

theorem rows_emitCommit (s : RunState Row) : s.emitCommit.rows = s.rows := by
  unfold emitCommit
  split
  · rfl
  · exact (rows_send s _).trans (append_nil _)

/-- The rows of a rows event are sent in order; nothing else the guard looks at changes. -/
theorem handleRows_eq (s : RunState Row) (images : List Row) :
    ∃ out, s.handleRows images = { s with out := out, txnRows := s.txnRows + images.length } ∧
      (s.handleRows images).rows = s.rows ++ images := by
  induction images generalizing s with
  | nil => exact ⟨s.out, rfl, (append_nil _).symm⟩
  | cons image images ih =>
    obtain ⟨out, is, rows⟩ := ih (s.send (.row s.currentGTID image))
    refine ⟨out, ?_, ?_⟩
    · refine is.trans ?_
      simp only [send, Event.row?, Option.isSome_some, if_true, length_cons]
      congr 1
      omega
    · refine rows.trans ?_
      rw [rows_send]
      simp [Event.row?]

theorem endTxn_opened {s : RunState Row} (current : s.currentGTID ≠ "") :
    s.endTxn.currentGTID = "" ∧ s.endTxn.lastCommittedGTID = s.currentGTID ∧
      s.endTxn.skipTxn = s.skipTxn ∧ s.endTxn.rows = s.rows := by
  have is : s.endTxn = s.emitCommit := if_pos current
  rw [is]
  refine ⟨?_, ?_, ?_, rows_emitCommit s⟩
  all_goals
    unfold emitCommit
    rw [if_neg current]
  rfl

end RunState

namespace Reading

variable {early : List (LogItem Row)} {t : Txn Row} {stage stage' : Stage} {part : List Row}
  {p : RunState Row}

theorem close (reading : Reading early t .opened part p) :
    Reading early t .closed part p.endTxn := by
  obtain ⟨current, -, -⟩ := reading.opened rfl
  obtain ⟨none, last, skip, rows⟩ := RunState.endTxn_opened (s := p) (current ▸ t.gtid_ne)
  exact ⟨skip.trans reading.noSkip, rows.trans reading.rows, nofun, nofun,
    fun _ => ⟨none, last.trans current⟩⟩

theorem ddl (reading : Reading early t .opened part p) :
    Reading early t .afterDDL part
      { p.send (.ddl p.currentGTID) with ddlTxnGTID := p.currentGTID, currentGTID := "" } := by
  obtain ⟨current, last, -⟩ := reading.opened rfl
  refine ⟨reading.noSkip, ?_, nofun, fun _ => ⟨rfl, last, current⟩, nofun⟩
  exact ((RunState.rows_send p _).trans (append_nil _)).trans reading.rows

theorem handleRows (reading : Reading early t stage part p) (notClosed : stage ≠ .closed)
    (images : List Row) : Reading early t stage (part ++ images) (p.handleRows images) := by
  obtain ⟨out, is, rows⟩ := p.handleRows_eq images
  have sent : (p.handleRows images).rows = rowsOf early ++ (part ++ images) := by
    rw [rows, reading.rows, append_assoc]
  rw [is] at sent ⊢
  refine ⟨reading.noSkip, sent, fun opened => ?_, fun after => ?_, fun closed => ?_⟩
  · obtain ⟨current, last, count⟩ := reading.opened opened
    exact ⟨current, last, by rw [length_append, ← count]⟩
  · exact reading.afterDDL after
  · exact absurd closed notClosed

/-- The XID of a CREATE TABLE ... SELECT. -/
theorem xid (reading : Reading early t .afterDDL part p) :
    ∃ p', p.process .xid = .ok p' ∧ Reading early t .closed part p' := by
  obtain ⟨current, -, ddl⟩ := reading.afterDDL rfl
  have promoted : p.currentGTID = "" ∧ p.ddlTxnGTID ≠ "" := ⟨current, ddl ▸ t.gtid_ne⟩
  let q : RunState Row := { p with lastCommittedGTID := p.ddlTxnGTID, ddlTxnGTID := "" }
  have process : p.process .xid = .ok (q.send (.commit "")) := by
    have none : ¬q.currentGTID ≠ "" := fun ne => ne current
    simp only [RunState.process, if_pos promoted]
    exact congrArg _ (if_neg none)
  refine ⟨_, process, reading.noSkip, ?_, nofun, nofun, fun _ => ⟨current, ddl⟩⟩
  exact ((RunState.rows_send q _).trans (append_nil _)).trans reading.rows

/-- Step: an event of the transaction's body. -/
theorem handleInner (reading : Reading early t stage part p) {ev : BinlogEvent Row}
    (next : stage.next ev = some stage') :
    ∃ p', p.handleInner ev = .ok p' ∧ Reading early t stage' (part ++ ev.images) p' := by
  have noSkip : p.handleInner ev = p.process ev := by
    unfold RunState.handleInner
    rw [reading.noSkip]
    rfl
  have quiet : ev.images = [] → part ++ ev.images = part := fun none => by
    rw [none, append_nil]
  rw [noSkip]
  cases stage with
  | closed => cases ev <;> cases next
  | opened =>
    cases ev with
    | query kind =>
      rw [quiet rfl]
      cases kind with
      | ddl => cases next; exact ⟨_, rfl, reading.ddl⟩
      | dml | other => cases next; exact ⟨_, rfl, reading⟩
      | terminator => cases next; exact ⟨_, rfl, reading.close⟩
    | xid =>
      cases next
      have current : ¬(p.currentGTID = "" ∧ p.ddlTxnGTID ≠ "") := fun none =>
        t.gtid_ne ((reading.opened rfl).1.symm.trans none.1)
      rw [quiet rfl]
      refine ⟨_, ?_, reading.close⟩
      simp only [RunState.process, if_neg current]
    | xaPrepare =>
      cases next
      rw [quiet rfl]
      exact ⟨_, rfl, reading.close⟩
    | rows images => cases next; exact ⟨_, rfl, reading.handleRows nofun images⟩
    | other =>
      cases next
      rw [quiet rfl]
      exact ⟨_, rfl, reading⟩
    | rotate | gtid | gtidTagged => cases next
  | afterDDL =>
    cases ev with
    | xid =>
      cases next
      rw [quiet rfl]
      exact reading.xid
    | rows images => cases next; exact ⟨_, rfl, reading.handleRows nofun images⟩
    | other =>
      cases next
      rw [quiet rfl]
      exact ⟨_, rfl, reading⟩
    | rotate | gtid | gtidTagged | xaPrepare => cases next
    | query kind => cases kind <;> cases next

/-- Run: the events of a payload. -/
theorem foldlM_handleInner {inner : List (BinlogEvent Row)} (reading : Reading early t stage part p)
    (nexts : inner.foldlM Stage.next stage = some stage') :
    ∃ p', inner.foldlM RunState.handleInner p = .ok p' ∧
      Reading early t stage' (part ++ imagesOf inner) p' := by
  induction inner generalizing stage part p with
  | nil =>
    cases nexts
    exact ⟨p, rfl, by rwa [show imagesOf ([] : List (BinlogEvent Row)) = [] from rfl,
      append_nil]⟩
  | cons ev inner ih =>
    rw [foldlM_cons] at nexts
    obtain ⟨mid, next, nexts⟩ := Option.bind_eq_some_iff.mp nexts
    obtain ⟨q, handled, reading⟩ := reading.handleInner next
    obtain ⟨p', rest, reading⟩ := ih reading nexts
    refine ⟨p', ?_, ?_⟩
    · rw [foldlM_cons, handled]
      exact rest
    · rwa [append_assoc] at reading

/-- Step: an event as it is delivered. -/
theorem handleEvent {ev : WireEvent Row} (reading : Reading early t stage part p)
    (nexts : ev.events.foldlM Stage.next stage = some stage') :
    ∃ p', p.handleEvent ev = .ok p' ∧ Reading early t stage' (part ++ imagesOf ev.events) p' := by
  cases ev with
  | single ev =>
    obtain ⟨p', handled, reading⟩ := reading.foldlM_handleInner nexts
    refine ⟨p', ?_, reading⟩
    obtain ⟨q, single, none⟩ := Except.bind_eq_ok handled
    cases none
    exact single
  | payload inner =>
    obtain ⟨p', handled, reading'⟩ := reading.foldlM_handleInner nexts
    refine ⟨p', ?_, reading'⟩
    rw [RunState.handleEvent, reading.noSkip]
    exact handled

end Reading

/-! ## What a re-send finds -/

/-- The parser knows the transaction complete, has nothing of it, or stopped inside its rows. -/
inductive Resent (early : List (LogItem Row)) (t : Txn Row) (p : RunState Row) : Prop where
  | complete (current : p.currentGTID = "") (last : p.lastCommittedGTID = t.gtid)
      (rows : p.rows = rowsOf early ++ t.rows)
  | redo (noSkip : p.skipTxn = false) (last : Known early p.lastCommittedGTID)
      (current : p.currentGTID = "" ∨ p.currentGTID = t.gtid ∧ p.txnRows = 0)
      (rows : p.rows = rowsOf early)
  | cut (noSkip : p.skipTxn = false) (last : Known early p.lastCommittedGTID)
      (current : p.currentGTID = t.gtid) (some : 0 < p.txnRows)
      (rows : p.rows <+: rowsOf early ++ t.rows)

section

variable {early : List (LogItem Row)} {t : Txn Row} {p : RunState Row}

theorem Resent.rows_le (resent : Resent early t p) : p.rows <+: rowsOf early ++ t.rows := by
  cases resent with
  | complete _ _ rows => rw [rows]
  | redo _ _ _ rows => rw [rows]; exact prefix_append _ _
  | cut _ _ _ _ rows => exact rows

theorem Resent.known (resent : Resent early t p) (gap : List (LogItem Row)) :
    Known (early ++ .txn t :: gap) p.currentGTID ∧
      Known (early ++ .txn t :: gap) p.lastCommittedGTID := by
  have own : Known (early ++ .txn t :: gap) t.gtid := .inr (by simp)
  cases resent with
  | complete current last _ => exact ⟨.inl current, last ▸ own⟩
  | redo _ last current _ =>
    refine ⟨?_, last.append _⟩
    rcases current with none | ⟨is, -⟩
    · exact .inl none
    · exact is ▸ own
  | cut _ last current _ _ => exact ⟨current ▸ own, last.append _⟩

theorem Resent.rotate (resent : Resent early t p) :
    Resent early t { p with skipTxn := false, afterRotate := true } := by
  cases resent with
  | complete current last rows => exact .complete current last rows
  | redo _ last current rows => exact .redo rfl last current rows
  | cut _ last current some rows => exact .cut rfl last current some rows

/-- A transaction the parser is reading is found complete only when it is; between the DDL event
and the XID it must have sent none of its rows. -/
theorem Reading.resent {stage : Stage} {part rest : List Row}
    (reading : Reading early t stage part p) (split : t.rows = part ++ rest)
    (whole : stage = .closed → rest = [])
    (none : stage = .afterDDL → part = []) : Resent early t p := by
  have rows := reading.rows
  cases stage with
  | opened =>
    obtain ⟨current, last, count⟩ := reading.opened rfl
    by_cases empty : part = []
    · rw [empty, append_nil] at rows
      exact .redo reading.noSkip last (.inr ⟨current, by rw [count, empty]; rfl⟩) rows
    · refine .cut reading.noSkip last current ?_ ?_
      · rw [count]
        exact length_pos_iff.mpr empty
      · rw [rows, split, ← append_assoc]
        exact prefix_append _ _
  | afterDDL =>
    obtain ⟨current, last, -⟩ := reading.afterDDL rfl
    rw [none rfl, append_nil] at rows
    exact .redo reading.noSkip last (.inl current) rows
  | closed =>
    obtain ⟨current, last⟩ := reading.closed rfl
    refine .complete current last ?_
    rw [rows, split, whole rfl, append_nil]

/-- The parser drops the transaction it is in. -/
structure Skipping (early : List (LogItem Row)) (t : Txn Row) (p : RunState Row) : Prop where
  skip : p.skipTxn = true
  current : p.currentGTID = ""
  last : p.lastCommittedGTID = t.gtid
  rows : p.rows = rowsOf early ++ t.rows

/-! ## Transaction starts -/

theorem handleEvent_gtid (p : RunState Row) (gtid : String) :
    p.handleEvent (.single (.gtid gtid)) = p.process (.gtid gtid) := by
  change p.handleInner _ = _
  unfold RunState.handleInner
  split <;> rfl

theorem handleEvent_rotate (p : RunState Row) (artificial : Bool) :
    p.handleEvent (.single (.rotate artificial)) =
      .ok (if artificial then { p with skipTxn := false, afterRotate := true } else p) := by
  change p.handleInner _ = _
  unfold RunState.handleInner
  split <;> rfl

/-- What the fallback commits is the open transaction. -/
theorem emitCommit_spec (p : RunState Row) :
    p.emitCommit.lastCommittedGTID =
        (if p.currentGTID = "" then p.lastCommittedGTID else p.currentGTID) ∧
      p.emitCommit.afterRotate = p.afterRotate ∧ p.emitCommit.rows = p.rows := by
  refine ⟨?_, ?_, p.rows_emitCommit⟩
  all_goals
    unfold RunState.emitCommit
    split <;> rfl

theorem Known.ne {gtid : String} (known : Known early gtid) (fresh : t.gtid ∉ gtids early) :
    gtid ≠ t.gtid := by
  rintro rfl
  exact known.elim t.gtid_ne fresh

/-- The variables at a transaction start, from those the fallback has left. -/
def opening (q : RunState Row) (gtid : String) : RunState Row :=
  { q with
    currentGTID := gtid
    skipTxn := q.afterRotate && gtid != "" && gtid == q.lastCommittedGTID
    afterRotate := false
    ddlTxnGTID := ""
    txnRows := 0 }

theorem beginTxn_other (other : p.currentGTID ≠ t.gtid) :
    p.beginTxn t.gtid = .ok (opening p.emitCommit t.gtid) := by
  have ne : (p.currentGTID == t.gtid) = false := by simpa using other
  simp only [RunState.beginTxn, ne, Bool.and_false, Bool.false_and]
  rfl

theorem beginTxn_again (rotated : p.afterRotate = true) (current : p.currentGTID = t.gtid)
    (none : p.txnRows = 0) :
    p.beginTxn t.gtid = .ok (opening { p with currentGTID := "" } t.gtid) := by
  have same : (p.afterRotate && p.currentGTID != "" && p.currentGTID == t.gtid) = true := by
    simp [rotated, current, t.gtid_ne]
  simp only [RunState.beginTxn, same, none]
  rfl

/-- A transaction start after which the parser reads on. -/
theorem opening_reading {q : RunState Row} (begins : p.beginTxn t.gtid = .ok (opening q t.gtid))
    (rows : q.rows = rowsOf early) (last : Known early q.lastCommittedGTID)
    (fresh : t.gtid ∉ gtids early) :
    ∃ p', p.handleEvent (.single (.gtid t.gtid)) = .ok p' ∧ Reading early t .opened [] p' := by
  have noSkip : (opening q t.gtid).skipTxn = false := by
    have ne : (t.gtid == q.lastCommittedGTID) = false := by simpa using (last.ne fresh).symm
    simp only [opening, ne, Bool.and_false]
  have tracks : p.handleEvent (.single (.gtid t.gtid)) =
      .ok ((opening q t.gtid).send (.gtid t.gtid)) := by
    rw [handleEvent_gtid, RunState.process, begins]
    change (if (opening q t.gtid).skipTxn = true then _ else _) = _
    rw [noSkip, if_neg Bool.false_ne_true]
    exact congrArg Except.ok (if_neg t.gtid_ne)
  refine ⟨_, tracks, noSkip, ?_, fun _ => ⟨rfl, last, rfl⟩, nofun, nofun⟩
  exact (RunState.rows_send _ _).trans (congrArg (· ++ _) rows)

/-- A transaction start that is not a re-send of a complete or cut transaction. -/
theorem beginTxn_reading (fresh : t.gtid ∉ gtids early) (rows : p.rows = rowsOf early)
    (last : Known early p.lastCommittedGTID)
    (current : Known early p.currentGTID ∨
      p.currentGTID = t.gtid ∧ p.afterRotate = true ∧ p.txnRows = 0) :
    ∃ p', p.handleEvent (.single (.gtid t.gtid)) = .ok p' ∧ Reading early t .opened [] p' := by
  rcases current with known | ⟨same, rotated, none⟩
  · obtain ⟨isLast, -, isRows⟩ := emitCommit_spec p
    refine opening_reading (beginTxn_other (known.ne fresh)) (isRows.trans rows) ?_ fresh
    rw [isLast]
    split
    · exact last
    · exact known
  · exact opening_reading (beginTxn_again rotated same none) rows last fresh

theorem beginTxn_skips (rotated : p.afterRotate = true) (current : p.currentGTID = "")
    (last : p.lastCommittedGTID = t.gtid) (rows : p.rows = rowsOf early ++ t.rows) :
    ∃ p', p.handleEvent (.single (.gtid t.gtid)) = .ok p' ∧ Skipping early t p' := by
  have begins := beginTxn_other (t := t) (p := p) (by rw [current]; exact t.gtid_ne.symm)
  have none : p.emitCommit = p := if_pos current
  rw [none] at begins
  have skip : (opening p t.gtid).skipTxn = true := by
    simp [opening, rotated, last, t.gtid_ne]
  refine ⟨{ opening p t.gtid with currentGTID := "" }, ?_, skip, rfl, last, rows⟩
  rw [handleEvent_gtid, RunState.process, begins]
  exact if_pos skip

theorem beginTxn_stops (rotated : p.afterRotate = true) (current : p.currentGTID = t.gtid)
    (some : 0 < p.txnRows) :
    p.handleEvent (.single (.gtid t.gtid)) = .error ⟨t.gtid, p.txnRows⟩ := by
  have ne : (t.gtid != "") = true := by simpa using t.gtid_ne
  rw [handleEvent_gtid]
  simp [RunState.process, RunState.beginTxn, rotated, current, some, ne]
  rfl

end

/-! ## Sessions -/

def BinlogEvent.isXID : BinlogEvent Row → Bool
  | .xid => true
  | _ => false

/-- The transaction being read is a CREATE TABLE ... SELECT of which rows were delivered and the
XID was not. -/
def Session.insideSelect (w : Session Row) : Bool :=
  match w.source.resend with
  | .txn t :: _ =>
      t.shape.isSelect && !w.parser.skipTxn && (eventsOf w.source.pending).any BinlogEvent.isXID &&
        decide ((imagesOf (eventsOf w.source.pending)).length < t.rows.length)
  | _ => false

/-- No reconnect falls among the rows of a CREATE TABLE ... SELECT. -/
def SafeCut (w : Session Row) (a : Act) : Prop := a = .reconnect → w.insideSelect = false

instance (w : Session Row) (a : Act) : Decidable (SafeCut w a) :=
  inferInstanceAs (Decidable (_ → _))

def WireEvent.isRotate : WireEvent Row → Bool
  | .single (.rotate _) => true
  | _ => false

/-- An event of a body: skipped with its transaction. -/
def WireEvent.inBody : WireEvent Row → Bool
  | .single (.rotate _) => false
  | .single (.gtid _) => false
  | .single .gtidTagged => false
  | _ => true

theorem inBody_of_nexts {events : List (BinlogEvent Row)} {last : Stage}
    (nexts : events.foldlM Stage.next stage = some last) {ev : BinlogEvent Row}
    (member : ev ∈ events) : (WireEvent.single ev).inBody = true := by
  induction events generalizing stage with
  | nil => cases member
  | cons first events ih =>
    rw [foldlM_cons] at nexts
    obtain ⟨mid, next, nexts⟩ := Option.bind_eq_some_iff.mp nexts
    rcases mem_cons.mp member with rfl | inRest
    · cases ev with
      | rotate | gtid | gtidTagged => cases stage <;> cases next
      | query | xid | xaPrepare | rows | other => rfl
    · exact ih nexts inRest

theorem Txn.inBody_of_mem {ev : WireEvent Row} (member : ev ∈ t.body) : ev.inBody = true := by
  unfold Txn.body at member
  split at member
  · rw [mem_singleton.mp member]
    rfl
  · obtain ⟨inner, inShape, rfl⟩ := mem_map.mp member
    obtain ⟨last, nexts, -⟩ := t.shape.ends
    exact inBody_of_nexts nexts inShape

theorem Skipping.handleEvent {p : RunState Row} (skipping : Skipping early t p)
    {ev : WireEvent Row} (body : ev.inBody = true) :
    p.handleEvent ev = .ok p := by
  cases ev with
  | payload inner => exact if_pos skipping.skip
  | single ev =>
    change p.handleInner ev = .ok p
    unfold RunState.handleInner
    rw [skipping.skip]
    cases ev <;> first | rfl | cases body

/-- File switches only. -/
structure Gap (gap : List (LogItem Row)) : Prop where
  gtids : gtids gap = []
  rows : rowsOf gap = []

theorem Gap.nil : Gap ([] : List (LogItem Row)) := ⟨rfl, rfl⟩

theorem Gap.switch {gap : List (LogItem Row)} (h : Gap gap) : Gap (gap ++ [.fileSwitch]) := by
  refine ⟨?_, ?_⟩
  · rw [gtids_append, h.gtids]
    rfl
  · rw [rowsOf_append, h.rows]
    rfl

theorem SourceLog.fresh_of_split {log : SourceLog Row} {after : List (LogItem Row)}
    (items : log.items = early ++ .txn t :: after) : t.gtid ∉ gtids early := by
  have distinct := log.distinct
  rw [items, gtids_append, gtids_txn, nodup_append] at distinct
  exact fun member => distinct.2.2 _ member _ mem_cons_self rfl

/-- Between two transactions: before the first one, or after `t` and the switches that follow. -/
inductive Settled (log : SourceLog Row) (source : Source Row) (p : RunState Row) : Prop where
  | fresh (gap : List (LogItem Row)) (isGap : Gap gap) (items : log.items = gap ++ source.rest)
      (resend : source.resend = log.items) (current : p.currentGTID = "")
      (last : p.lastCommittedGTID = "") (rows : p.rows = [])
  | after (early : List (LogItem Row)) (t : Txn Row) (gap : List (LogItem Row)) (isGap : Gap gap)
      (items : log.items = early ++ .txn t :: gap ++ source.rest)
      (resend : source.resend = .txn t :: gap ++ source.rest)
      (resent : Resent early t p) (rows : p.rows = rowsOf early ++ t.rows)

/-- A reconnect has been seen and the source is about to send the transaction again. -/
structure Again (log : SourceLog Row) (source : Source Row) (p : RunState Row)
    (early : List (LogItem Row)) (t : Txn Row) (after : List (LogItem Row)) : Prop where
  items : log.items = early ++ .txn t :: after
  resend : source.resend = .txn t :: after
  rest : source.rest = .txn t :: after
  pending : source.pending = []
  rotated : p.afterRotate = true
  resent : Resent early t p

/-- Inside a transaction of which `part` has been sent on. -/
structure Inside (log : SourceLog Row) (source : Source Row) (p : RunState Row)
    (early : List (LogItem Row)) (t : Txn Row) (stage : Stage) (part : List Row) : Prop where
  items : log.items = early ++ .txn t :: source.rest
  resend : source.resend = .txn t :: source.rest
  reading : Reading early t stage part p
  split : t.rows = part ++ imagesOf (eventsOf source.pending)
  ends : ∃ last, (eventsOf source.pending).foldlM Stage.next stage = some last ∧
    (last = .closed ∨ t.rows = [])
  ddl : stage = .afterDDL → .query .ddl ∈ t.shape.events
  suffix : eventsOf source.pending <:+ t.shape.events

/-- Where a session is. -/
inductive Place (log : SourceLog Row) (source : Source Row) (p : RunState Row) : Prop where
  | settled (settled : Settled log source p) (rotates : ∀ ev ∈ source.pending, ev.isRotate = true)
  | again {early : List (LogItem Row)} {t : Txn Row} {after : List (LogItem Row)}
      (again : Again log source p early t after)
  | inside {early : List (LogItem Row)} {t : Txn Row} {stage : Stage} {part : List Row}
      (inside : Inside log source p early t stage part)
  | skipping {early : List (LogItem Row)} {t : Txn Row}
      (items : log.items = early ++ .txn t :: source.rest)
      (resend : source.resend = .txn t :: source.rest) (skipping : Skipping early t p)
      (body : ∀ ev ∈ source.pending, ev.inBody = true)

section

variable {log : SourceLog Row} {source : Source Row} {p : RunState Row}
  {early after : List (LogItem Row)} {t : Txn Row} {stage : Stage} {part : List Row}
  {pending : List (WireEvent Row)}

theorem Settled.rotate (settled : Settled log source p) (artificial : Bool) :
    Settled log { source with pending := pending }
      (if artificial then { p with skipTxn := false, afterRotate := true } else p) := by
  cases settled with
  | fresh gap isGap items resend current last rows =>
    refine .fresh gap isGap items resend ?_ ?_ ?_
    all_goals cases artificial <;> assumption
  | after early t gap isGap items resend resent rows =>
    refine .after early t gap isGap items resend ?_ ?_
    · cases artificial
      · exact resent
      · exact resent.rotate
    · cases artificial <;> exact rows

theorem Settled.switch (settled : Settled log source p) {rest : List (LogItem Row)}
    (next : source.rest = .fileSwitch :: rest) :
    Settled log ⟨source.resend, pending, rest⟩ p := by
  cases settled with
  | fresh gap isGap items resend current last rows =>
    refine .fresh (gap ++ [.fileSwitch]) isGap.switch ?_ resend current last rows
    rw [items, next, append_assoc]
    rfl
  | after early t gap isGap items resend resent rows =>
    refine .after early t (gap ++ [.fileSwitch]) isGap.switch ?_ ?_ resent rows
    · rw [items, next]
      simp
    · rw [resend, next]
      simp

/-- What is behind a settled session, and that the parser takes the next transaction as new. -/
theorem Settled.behind (settled : Settled log source p) :
    ∃ done, log.items = done ++ source.rest ∧ p.rows = rowsOf done ∧ Known done p.currentGTID ∧
      Known done p.lastCommittedGTID := by
  cases settled with
  | fresh gap isGap items resend current last rows =>
    exact ⟨gap, items, rows.trans isGap.rows.symm, .inl current, .inl last⟩
  | after early t gap isGap items resend resent rows =>
    obtain ⟨current, last⟩ := resent.known gap
    refine ⟨early ++ .txn t :: gap, items, ?_, current, last⟩
    rw [rows, rowsOf_append, rowsOf_txn, isGap.rows, append_nil]

/-- The first event of a body is read from the opened stage. -/
theorem Inside.start (items : log.items = early ++ .txn t :: after)
    (reading : Reading early t .opened [] p) :
    Inside log ⟨.txn t :: after, t.body, after⟩ p early t .opened [] := by
  have events := eventsOf_body t
  refine ⟨items, rfl, reading, ?_, ?_, nofun, ?_⟩
  · rw [events]
    rfl
  · rw [events]
    exact t.shape.ends
  · rw [events]

theorem Settled.begin (settled : Settled log source p) (next : source.rest = .txn t :: after) :
    ∃ p' early, p.handleEvent (.single (.gtid t.gtid)) = .ok p' ∧
      Inside log ⟨.txn t :: after, t.body, after⟩ p' early t .opened [] := by
  obtain ⟨done, items, rows, current, last⟩ := settled.behind
  rw [next] at items
  obtain ⟨p', handled, reading⟩ :=
    beginTxn_reading (log.fresh_of_split items) rows last (.inl current)
  exact ⟨p', done, handled, .start items reading⟩

/-- Step: the next event of the body. -/
theorem Inside.next {ev : WireEvent Row} (inside : Inside log source p early t stage part)
    (next : source.pending = ev :: pending) :
    ∃ p' stage', p.handleEvent ev = .ok p' ∧
      Inside log { source with pending := pending } p' early t stage'
        (part ++ imagesOf ev.events) := by
  obtain ⟨last, nexts, closed⟩ := inside.ends
  have events : eventsOf source.pending = ev.events ++ eventsOf pending := by
    rw [next]
    rfl
  have suffix := inside.suffix
  rw [events] at nexts suffix
  rw [foldlM_append] at nexts
  obtain ⟨stage', step, nexts⟩ := Option.bind_eq_some_iff.mp nexts
  obtain ⟨p', handled, reading⟩ := inside.reading.handleEvent step
  refine ⟨p', stage', handled, inside.items, inside.resend, reading, ?_, ⟨last, nexts, closed⟩, ?_,
    (suffix_append _ _).trans suffix⟩
  · rw [inside.split, events, imagesOf_append, append_assoc]
  · intro after
    rw [after] at step
    rcases ddl_mem_of_afterDDL step with already | member
    · exact inside.ddl already
    · exact suffix.subset (mem_append_left _ member)

/-- A cut inside a transaction, unless among the rows of a CREATE TABLE ... SELECT. -/
theorem Inside.resent {w : Session Row} (inside : Inside log w.source w.parser early t stage part)
    (safe : w.insideSelect = false) : Resent early t w.parser := by
  obtain ⟨last, nexts, closed⟩ := inside.ends
  refine inside.reading.resent inside.split (fun isClosed => ?_) fun isAfter => ?_
  · -- Nothing follows the event that closes a transaction.
    rw [isClosed] at nexts
    cases hevents : eventsOf w.source.pending with
    | nil => rfl
    | cons ev events =>
      rw [hevents, foldlM_cons] at nexts
      cases ev <;> cases nexts
  · by_contra some
    have rows : t.rows ≠ [] := by
      rw [inside.split]
      exact fun none => some (append_eq_nil_iff.mp none).1
    have isLast : last = .closed := closed.resolve_right rows
    rw [isLast, isAfter] at nexts
    have xid : (eventsOf w.source.pending).any BinlogEvent.isXID = true :=
      any_eq_true.mpr ⟨_, xid_mem_of_closes nexts, rfl⟩
    have select := Shape.isSelect_of_ddl (inside.ddl isAfter) rows
    have fewer : (imagesOf (eventsOf w.source.pending)).length < t.rows.length := by
      rw [inside.split, length_append]
      have := length_pos_iff.mpr some
      omega
    unfold Session.insideSelect at safe
    rw [inside.resend] at safe
    simp only [select, inside.reading.noSkip, xid, fewer] at safe
    cases safe

/-- A re-sent transaction: read, dropped, or refused. -/
theorem Again.begin (again : Again log source p early t after) :
    (∃ p', p.handleEvent (.single (.gtid t.gtid)) = .ok p' ∧
      Place log ⟨.txn t :: after, t.body, after⟩ p') ∨
    ∃ err, p.handleEvent (.single (.gtid t.gtid)) = .error err := by
  cases again.resent with
  | complete current last rows =>
    obtain ⟨p', handled, skipping⟩ := beginTxn_skips again.rotated current last rows
    exact .inl ⟨p', handled,
      .skipping again.items rfl skipping fun _ member => Txn.inBody_of_mem member⟩
  | redo noSkip last current rows =>
    have open_ : Known early p.currentGTID ∨
        p.currentGTID = t.gtid ∧ p.afterRotate = true ∧ p.txnRows = 0 := by
      rcases current with none | ⟨is, zero⟩
      · exact .inl (.inl none)
      · exact .inr ⟨is, again.rotated, zero⟩
    obtain ⟨p', handled, reading⟩ :=
      beginTxn_reading (log.fresh_of_split again.items) rows last open_
    exact .inl ⟨p', handled, .inside (.start again.items reading)⟩
  | cut _ _ current some _ => exact .inr ⟨_, beginTxn_stops again.rotated current some⟩

/-- A transaction whose last event was delivered is behind. -/
theorem Place.settle (place : Place log source p) (drained : source.pending = []) :
    Settled log source p ∨ ∃ early t after, Again log source p early t after := by
  cases place with
  | settled settled _ => exact .inl settled
  | again again => exact .inr ⟨_, _, _, again⟩
  | @inside early t stage part inside =>
    obtain ⟨last, nexts, closed⟩ := inside.ends
    have split := inside.split
    rw [drained] at split nexts
    cases nexts
    have whole : t.rows = part := split.trans (append_nil _)
    refine .inl (.after early t [] .nil (by simpa using inside.items) inside.resend ?_ ?_)
    · refine inside.reading.resent (whole.trans (append_nil _).symm) (fun _ => rfl) ?_
      intro isAfter
      rcases closed with isClosed | none
      · rw [isAfter] at isClosed
        cases isClosed
      · rw [← whole, none]
    · rw [inside.reading.rows, whole]
  | @skipping early t items resend skipping _ =>
    exact .inl (.after early t [] .nil (by simpa using items) resend
      (.complete skipping.current skipping.last skipping.rows) skipping.rows)

theorem Place.rows_le (place : Place log source p) : p.rows <+: log.rows := by
  unfold SourceLog.rows
  cases place with
  | settled settled _ =>
    obtain ⟨done, items, rows, -⟩ := settled.behind
    rw [rows, items, rowsOf_append]
    exact prefix_append _ _
  | again again =>
    rw [again.items, rowsOf_append, rowsOf_txn, ← append_assoc]
    exact again.resent.rows_le.trans (prefix_append _ _)
  | inside inside =>
    rw [inside.reading.rows, inside.items, rowsOf_append, rowsOf_txn, inside.split,
      append_assoc, ← append_assoc]
    exact prefix_append _ _
  | skipping items _ skipping _ =>
    rw [skipping.rows, items, rowsOf_append, rowsOf_txn, ← append_assoc]
    exact prefix_append _ _

end

/-! ## Steps and runs -/

/-- The rows sent so far are the first ones of the log, and unless it stopped the session is in
one of its places. -/
structure SessionInv (log : SourceLog Row) (w : Session Row) : Prop where
  rows_le : w.parser.rows <+: log.rows
  place : w.stopped = none → Place log w.source w.parser

section

variable {log : SourceLog Row} {w : Session Row} {source : Source Row} {ev : WireEvent Row}

theorem SessionInv.of_ok {p : RunState Row} (handled : w.parser.handleEvent ev = .ok p)
    (place : Place log source p) : SessionInv log (w.receive ev source) := by
  unfold Session.receive
  rw [handled]
  exact ⟨place.rows_le, fun _ => place⟩

theorem SessionInv.of_error {err : ResentCutTransactionError}
    (handled : w.parser.handleEvent ev = .error err) (rows_le : w.parser.rows <+: log.rows) :
    SessionInv log (w.receive ev source) := by
  unfold Session.receive
  rw [handled]
  exact ⟨rows_le, nofun⟩

theorem Place.reconnect (place : Place log w.source w.parser) (safe : w.insideSelect = false) :
    SessionInv log (w.receive w.source.reconnect.1 w.source.reconnect.2) := by
  refine .of_ok (handleEvent_rotate w.parser true) ?_
  have again : ∀ {early : List (LogItem Row)} {t : Txn Row} {after : List (LogItem Row)},
      log.items = early ++ .txn t :: after → w.source.resend = .txn t :: after →
      Resent early t w.parser → Place log w.source.reconnect.2
        { w.parser with skipTxn := false, afterRotate := true } := fun items resend resent =>
    .again ⟨items, resend, resend, rfl, rfl, resent.rotate⟩
  cases place with
  | settled settled _ =>
    cases settled with
    | fresh gap isGap items resend current last rows =>
      exact .settled (.fresh [] .nil resend.symm resend current last rows) nofun
    | after early t gap isGap items resend resent rows =>
      exact again (by simpa using items) resend resent
  | again before => exact again before.items before.resend before.resent
  | inside inside => exact again inside.items inside.resend (inside.resent safe)
  | skipping items resend skipping _ =>
    exact again items resend (.complete skipping.current skipping.last skipping.rows)

theorem Place.deliver (place : Place log w.source w.parser) {source : Source Row}
    (sent : w.source.send = some (ev, source)) : SessionInv log (w.receive ev source) := by
  unfold Source.send at sent
  split at sent
  · cases sent
    rename_i pending next
    cases place with
    | settled settled rotates =>
      have rotate := rotates ev (by rw [next]; exact mem_cons_self)
      obtain ⟨artificial, rfl⟩ : ∃ artificial, ev = .single (.rotate artificial) := by
        cases ev with
        | single ev => cases ev <;> first | exact ⟨_, rfl⟩ | cases rotate
        | payload inner => cases rotate
      refine .of_ok (handleEvent_rotate _ artificial) (.settled (settled.rotate artificial) ?_)
      exact fun other member => rotates other (by rw [next]; exact mem_cons_of_mem _ member)
    | again again => rw [again.pending] at next; cases next
    | inside inside =>
      obtain ⟨p', stage', handled, inside⟩ := inside.next next
      exact .of_ok handled (.inside inside)
    | skipping items resend skipping body =>
      refine .of_ok (skipping.handleEvent (body ev (by rw [next]; exact mem_cons_self)))
        (.skipping items resend skipping fun other member => ?_)
      exact body other (by rw [next]; exact mem_cons_of_mem _ member)
  · rename_i rest drained next
    cases sent
    rcases place.settle drained with settled | ⟨early, t, after, again⟩
    · exact .of_ok (handleEvent_rotate _ false) (.settled (settled.switch next) (by simp
        [WireEvent.isRotate]))
    · rw [again.rest] at next
      cases next
  · rename_i t rest drained next
    cases sent
    rcases place.settle drained with settled | ⟨early, t', after, again⟩
    · obtain ⟨p', early, handled, inside⟩ := settled.begin next
      exact .of_ok handled (.inside inside)
    · obtain ⟨rfl, rfl⟩ : t' = t ∧ after = rest := by
        rw [again.rest] at next
        cases next
        exact ⟨rfl, rfl⟩
      rcases again.begin with ⟨p', handled, place'⟩ | ⟨err, handled⟩
      · exact .of_ok handled place'
      · exact .of_error handled place.rows_le
  · cases sent

/-- Step: what a session keeps. -/
theorem SessionInv.act (inv : SessionInv log w) (a : Act) (safe : SafeCut w a) :
    SessionInv log (w.act a) := by
  unfold Session.act
  split
  · exact inv
  rename_i running
  have place := inv.place (by simpa using running)
  cases a with
  | deliver =>
    dsimp only
    split
    · rename_i sent
      exact place.deliver sent
    · exact inv
  | reconnect => exact place.reconnect (safe rfl)

theorem SessionInv.start (log : SourceLog Row) : SessionInv log (Session.start log) :=
  ⟨ nil_prefix, fun _ => .settled (.fresh [] .nil rfl rfl rfl rfl rfl) nofun⟩

end

/-- **The re-send guard.** In a run in which no reconnect falls between the first row and the XID of
a CREATE TABLE ... SELECT, the rows sent are at every moment the first rows of the log, each once;
and when the source has delivered everything, they are all of them unless the parser stopped. -/
theorem resendGuard_rows_exactly_once (log : SourceLog Row) (acts : List Act)
    (safe : Legal Session.act SafeCut (Session.start log) acts) :
    ((Session.start log).run acts).parser.rows <+: log.rows ∧
      (((Session.start log).run acts).source.Drained →
        (∃ err, ((Session.start log).run acts).stopped = some err) ∨
          ((Session.start log).run acts).parser.rows = log.rows) := by
  have keeps : ∀ (w : Session Row) (a : Act), SessionInv log w → SafeCut w a →
      SessionInv log (w.act a) := fun _ a inv safe => inv.act a safe
  have inv : SessionInv log ((Session.start log).run acts) := safe.foldl keeps (.start log)
  refine ⟨inv.rows_le, fun drained => ?_⟩
  cases stopped : ((Session.start log).run acts).stopped with
  | some err => exact .inl ⟨err, rfl⟩
  | none =>
    refine .inr ?_
    rcases (inv.place stopped).settle drained.1 with settled | ⟨early, t, after, again⟩
    · obtain ⟨done, items, rows, -⟩ := settled.behind
      rw [drained.2, append_nil] at items
      rw [rows, SourceLog.rows, items]
    · have rest := again.rest
      rw [drained.2] at rest
      cases rest

/-- A transaction, a file switch and a CREATE TABLE ... SELECT. -/
def selectLog : SourceLog ℕ where
  items := [.txn ⟨"g:1", by decide, .plain [.rows [1]] .xid, false⟩, .fileSwitch,
    .txn ⟨"g:2", by decide, .createSelect [.rows [2], .rows [3]], false⟩]
  distinct := by decide

/-- A reconnect after the commit, and one between the DDL and its rows. -/
def selectActs : List Act :=
  List.replicate 4 .deliver ++ [.reconnect] ++ List.replicate 8 .deliver ++ [.reconnect] ++
    List.replicate 5 .deliver

theorem selectActs_rows_once :
    ((Session.start selectLog).run selectActs).stopped = none ∧
      ((Session.start selectLog).run selectActs).parser.rows = [1, 2, 3] := by
  have running : ((Session.start selectLog).run selectActs).stopped = none := by decide
  have drained : ((Session.start selectLog).run selectActs).source.Drained := by decide
  have whole := (resendGuard_rows_exactly_once selectLog selectActs (by decide)).2 drained
  refine ⟨running, whole.resolve_left ?_⟩
  rintro ⟨err, stopped⟩
  rw [running] at stopped
  cases stopped

/-- A reconnect after the first row of the CREATE TABLE ... SELECT: the parser goes on, and sends
the row twice. -/
theorem selectCut_rows_twice :
    let acts := List.replicate 9 Act.deliver ++ [.reconnect] ++ List.replicate 5 .deliver
    ((Session.start selectLog).run acts).source.Drained ∧
      ((Session.start selectLog).run acts).stopped = none ∧
      ((Session.start selectLog).run acts).parser.rows = [1, 2, 2, 3] := by
  decide

end Dbtrail.Parser
