import Dbtrail.Query.Binlog
import Dbtrail.Parser.FillCorrect

/-!
# Parsing a binlog file

`parseFile` walks the events of one file and sends the row changes on. A MariaDB source writes
events of a transaction's cache without their end position, so the walk keeps the end of the
previous event and fills the position in; the events inside a compressed transaction take the
position of the event that carries them.

What a schema snapshot says of a rows event, how it maps a row and which statements are
schema changes are given by `Snapshots`; each rows event names the snapshot in force when it
is handled, which another goroutine may have replaced since the one before.
-/

namespace Dbtrail.Parser

open List

variable {Resolver RawRow Named : Type}

structure FileHeader : Type extends EventHeader where
  timestamp : ℕ
  deriving DecidableEq, Repr

/-- What kind of rows event a header names. -/
inductive RowsKind : Type where
  | write
  | delete
  | update
  | unhandled
  deriving DecidableEq, Repr

structure RowsEvent (RawRow : Type) : Type where
  kind : RowsKind
  schema : String
  table : String
  rows : List RawRow
  stmtEnd : Bool

/-- An event's body as it is decoded. A payload holds a transaction's events. -/
inductive FileBody (Resolver RawRow : Type) : Type where
  | gtid (gtid : String) (commitTsUS : ℕ)
  | query (connectionID : ℕ) (schema text : String)
  | rowsQuery (text : String)
  | rows (resolver : Resolver) (ev : RowsEvent RawRow)
  | payload (inner : List (FileHeader × FileBody Resolver RawRow))
  | other

/-- Why changes of a file were left out. -/
inductive DropReason : Type where
  | statementFormatDML
  | unhandledRowEvent
  | rowMapFailed
  | unpairedUpdateImage
  | noResolver
  | staleSnapshot
  deriving DecidableEq, Repr

structure Drop : Type where
  reason : DropReason
  changes : ℕ
  name : String
  deriving DecidableEq, Repr

inductive FileError : Type where
  | schemaDrift
  | partialRowImage
  | unestablishedPosition (file : String) (pos size : ℕ) (schema table : String)
  deriving DecidableEq, Repr

/-- What the checks before a rows event's position is read come to. -/
inductive Screened : Type where
  | left (drops : List Drop)
  | refused (err : FileError)
  | passed
  deriving DecidableEq, Repr

/-- The parts of the parser that do not look at positions. -/
structure Snapshots (Resolver RawRow Named : Type) : Type where
  screen : Resolver → FileHeader → RowsEvent RawRow → Screened
  mapRow : Resolver → String → String → RawRow → Option Named
  pkValues : Resolver → String → String → Named → String
  parseDDL : String → String → Option (String × String)
  statementDML : String → String → Option String

structure Emitted (Named : Type) : Type where
  binlogFile : String
  startPos : ℕ
  endPos : ℕ
  timestamp : ℕ
  gtid : String
  connectionID : ℕ
  commitTsUS : ℕ
  queryText : String
  schema : String
  table : String
  eventType : EventType
  pkValues : String
  rowBefore : Option Named
  rowAfter : Option Named
  deriving DecidableEq, Repr

structure FileState (Named : Type) : Type where
  currentGTID : String := ""
  currentConnectionID : ℕ := 0
  currentCommitTsUS : ℕ := 0
  currentQueryText : String := ""
  /-- The end offset of the previous event; a file's events begin after the magic. -/
  lastEnd : UInt32 := 4
  drops : List Drop := []
  out : List (Emitted Named) := []
  deriving DecidableEq, Repr

/-! ## Rows -/

/-- Before and after images alternate; an unpaired last one is left out. -/
def imagePairs : List RawRow → List (RawRow × RawRow)
  | before :: after :: rest => (before, after) :: imagePairs rest
  | _ => []

variable (m : Snapshots Resolver RawRow Named) (filename : String)

/-- The images of each change of the event, where the snapshot maps them. -/
def mappedRows (resolver : Resolver) (ev : RowsEvent RawRow) :
    List (Option (Option Named × Option Named)) :=
  let named := m.mapRow resolver ev.schema ev.table
  match ev.kind with
  | .write => ev.rows.map fun row => (named row).map fun after => (none, some after)
  | .delete => ev.rows.map fun row => (named row).map fun before => (some before, none)
  | .update => (imagePairs ev.rows).map fun (before, after) =>
      (named before).bind fun b => (named after).map fun a => (some b, some a)
  | .unhandled => []

def RowsKind.eventType : RowsKind → EventType
  | .write => .insert
  | .delete => .delete
  | _ => .update

def emitRow (s : FileState Named) (header : FileHeader) (resolver : Resolver)
    (ev : RowsEvent RawRow) (images : Option Named × Option Named) : Emitted Named where
  binlogFile := filename
  startPos := header.logPos.toNat - header.eventSize.toNat
  endPos := header.logPos.toNat
  timestamp := header.timestamp
  gtid := s.currentGTID
  connectionID := s.currentConnectionID
  commitTsUS := s.currentCommitTsUS
  queryText := s.currentQueryText
  schema := ev.schema
  table := ev.table
  eventType := ev.kind.eventType
  pkValues := ((images.1.or images.2).map (m.pkValues resolver ev.schema ev.table)).getD ""
  rowBefore := images.1
  rowAfter := images.2

def handleRows (s : FileState Named) (header : FileHeader) (resolver : Resolver)
    (ev : RowsEvent RawRow) : FileState Named × Option FileError :=
  let name := ev.schema ++ "." ++ ev.table
  match m.screen resolver header ev with
  | .left drops => ({ s with drops := s.drops ++ drops }, none)
  | .refused err => (s, some err)
  | .passed =>
      if header.logPos.toNat < header.eventSize.toNat then
        (s, some (.unestablishedPosition filename header.logPos.toNat header.eventSize.toNat
          ev.schema ev.table))
      else if ev.kind = .unhandled then
        ({ s with drops := s.drops ++ [⟨.unhandledRowEvent, 1, name⟩] }, none)
      else
        let mapped := mappedRows m resolver ev
        let unmapped := mapped.countP Option.isNone
        let unpaired :=
          if ev.kind = .update ∧ ev.rows.length % 2 ≠ 0 then [⟨.unpairedUpdateImage, 1, name⟩]
          else []
        let unmappedDrop := if 0 < unmapped then [⟨.rowMapFailed, unmapped, name⟩] else []
        ({ s with
            out := s.out ++ mapped.reduceOption.map (emitRow m filename s header resolver ev)
            drops := s.drops ++ unpaired ++ unmappedDrop }, none)

/-! ## Events -/

def rewriteInnerHeader (inner outer : FileHeader) : FileHeader :=
  { inner with logPos := outer.logPos, eventSize := outer.eventSize }

/-- A missing position is the end of the previous event plus the size. -/
def fillHeader (s : FileState Named) (header : FileHeader) : FileHeader :=
  if header.logPos = 0 ∧ header.artificial = false then
    { header with logPos := s.lastEnd + header.eventSize }
  else header

def advance (s : FileState Named) (header : FileHeader) : FileState Named :=
  if 0 < header.logPos then { s with lastEnd := header.logPos } else s

def emitDDL (s : FileState Named) (header : FileHeader) (schema table : String) :
    Emitted Named where
  binlogFile := filename
  startPos := 0
  endPos := header.logPos.toNat
  timestamp := header.timestamp
  gtid := s.currentGTID
  connectionID := 0
  commitTsUS := 0
  queryText := ""
  schema := schema
  table := table
  eventType := .ddl
  pkValues := ""
  rowBefore := none
  rowAfter := none

mutual

def handleEvent (s : FileState Named) (header : FileHeader) :
    FileBody Resolver RawRow → FileState Named × Option FileError
  | .gtid gtid commitTsUS =>
      let header := fillHeader s header
      ({ advance s header with
          currentGTID := gtid, currentQueryText := "", currentCommitTsUS := commitTsUS }, none)
  | .query connectionID schema text =>
      let header := fillHeader s header
      let s := { advance s header with
        currentConnectionID := connectionID, currentQueryText := "" }
      match m.parseDDL text schema, m.statementDML text schema with
      | some (schema, table), _ =>
          ({ s with out := s.out ++ [emitDDL filename s header schema table] }, none)
      | none, some name => ({ s with drops := s.drops ++ [⟨.statementFormatDML, 1, name⟩] }, none)
      | none, none => (s, none)
  | .rowsQuery text =>
      ({ advance s (fillHeader s header) with currentQueryText := text }, none)
  | .rows resolver ev =>
      let header := fillHeader s header
      let (s, err) := handleRows m filename (advance s header) header resolver ev
      ({ s with currentQueryText := if ev.stmtEnd then "" else s.currentQueryText }, err)
  | .payload inner =>
      let header := fillHeader s header
      handleInner (advance s header) header inner
  | .other => (advance s (fillHeader s header), none)

def handleInner (s : FileState Named) (outer : FileHeader) :
    List (FileHeader × FileBody Resolver RawRow) → FileState Named × Option FileError
  | [] => (s, none)
  | (header, body) :: rest =>
      match handleEvent s (rewriteInnerHeader header outer) body with
      | (s, some err) => (s, some err)
      | (s, none) => handleInner s outer rest

end

/-- The library hands over the events of the file until one fails. -/
def parseEvents (s : FileState Named) :
    List (FileHeader × FileBody Resolver RawRow) → FileState Named × Option FileError
  | [] => (s, none)
  | (header, body) :: rest =>
      match handleEvent m filename s header body with
      | (s, some err) => (s, some err)
      | (s, none) => parseEvents s rest

inductive ParseResult : Type where
  | completed
  | failed (err : FileError)
  | dropped (drops : List Drop)
  deriving DecidableEq, Repr

/-- What was sent, and whether the file counts as done. -/
def parseFile (events : List (FileHeader × FileBody Resolver RawRow)) :
    List (Emitted Named) × ParseResult :=
  match parseEvents m filename {} events with
  | (s, some err) => (s.out, .failed err)
  | (s, none) => (s.out, if s.drops.isEmpty then .completed else .dropped s.drops)

/-! ## What handling an event with a position adds -/

variable {m filename} {header : FileHeader} {s : FileState Named}
  {e : FileHeader × FileBody Resolver RawRow}
  {events : List (FileHeader × FileBody Resolver RawRow)} {i : ℕ}

/-- A row change is sent with the place of the event it came in. -/
def Emitted.At (e : Emitted Named) (header : FileHeader) : Prop :=
  e.eventType ≠ .ddl →
    e.startPos = header.logPos.toNat - header.eventSize.toNat ∧ e.endPos = header.logPos.toNat

/-- The walk stands at the end of the event and has sent only changes of its place. -/
def Adds (header : FileHeader) (s s' : FileState Named) : Prop :=
  s'.lastEnd = header.logPos ∧ ∃ new, s'.out = s.out ++ new ∧ ∀ e ∈ new, e.At header

theorem Adds.none {s' : FileState Named} (ends : s'.lastEnd = header.logPos)
    (same : s'.out = s.out) : Adds header s s' :=
  ⟨ends, [], by rw [same, append_nil], nofun⟩

theorem Adds.trans {s' s'' : FileState Named} (first : Adds header s s')
    (second : Adds header s' s'') : Adds header s s'' := by
  obtain ⟨_, new, out, placed⟩ := first
  obtain ⟨ends, more, out', placed'⟩ := second
  exact ⟨ends, new ++ more, by rw [out', out, append_assoc],
    forall_mem_append.mpr ⟨placed, placed'⟩⟩

theorem fillHeader_of_ne (given : header.logPos ≠ 0) : fillHeader s header = header := by
  unfold fillHeader
  rw [if_neg fun missing => given missing.1]

theorem advance_of_ne (given : header.logPos ≠ 0) :
    advance s header = { s with lastEnd := header.logPos } := by
  unfold advance
  rw [if_pos (UInt32.pos_iff_ne_zero.mpr given)]

theorem handleRows_adds (resolver : Resolver) (ev : RowsEvent RawRow)
    (ends : s.lastEnd = header.logPos) :
    Adds header s (handleRows m filename s header resolver ev).1 := by
  unfold handleRows
  dsimp only
  split
  · exact Adds.none ends rfl
  · exact Adds.none ends rfl
  · split
    · exact Adds.none ends rfl
    · split
      · exact Adds.none ends rfl
      · refine ⟨ends, _, rfl, fun e mem _ => ?_⟩
        obtain ⟨images, _, rfl⟩ := mem_map.mp mem
        exact ⟨rfl, rfl⟩

mutual

theorem handleEvent_adds {s : FileState Named} {header : FileHeader}
    (given : header.logPos ≠ 0) (body : FileBody Resolver RawRow) :
    Adds header s (handleEvent m filename s header body).1 := by
  match body with
  | .gtid gtid commitTsUS =>
    rw [handleEvent, fillHeader_of_ne given, advance_of_ne given]
    exact Adds.none rfl rfl
  | .query connectionID schema text =>
    rw [handleEvent, fillHeader_of_ne given, advance_of_ne given]
    dsimp only
    split
    · refine ⟨rfl, _, rfl, fun e mem notDDL => absurd ?_ notDDL⟩
      rw [mem_singleton.mp mem]
      rfl
    · exact Adds.none rfl rfl
    · exact Adds.none rfl rfl
  | .rowsQuery text =>
    rw [handleEvent, fillHeader_of_ne given, advance_of_ne given]
    exact Adds.none rfl rfl
  | .rows resolver ev =>
    rw [handleEvent, fillHeader_of_ne given, advance_of_ne given]
    exact handleRows_adds (s := { s with lastEnd := header.logPos }) resolver ev rfl
  | .payload inner =>
    rw [handleEvent, fillHeader_of_ne given, advance_of_ne given]
    exact handleInner_adds (s := { s with lastEnd := header.logPos }) given rfl inner
  | .other =>
    rw [handleEvent, fillHeader_of_ne given, advance_of_ne given]
    exact Adds.none rfl rfl

/-- The events inside a payload have the payload's place. -/
theorem handleInner_adds {s : FileState Named} {outer : FileHeader}
    (given : outer.logPos ≠ 0) (ends : s.lastEnd = outer.logPos)
    (inner : List (FileHeader × FileBody Resolver RawRow)) :
    Adds outer s (handleInner m filename s outer inner).1 := by
  match inner with
  | [] =>
    rw [handleInner]
    exact Adds.none ends rfl
  | (header, body) :: rest =>
    have rewritten : (rewriteInnerHeader header outer).logPos ≠ 0 := given
    have first : Adds outer s
        (handleEvent m filename s (rewriteInnerHeader header outer) body).1 :=
      handleEvent_adds rewritten body
    rw [handleInner]
    split
    next s' err handled =>
      rw [handled] at first
      exact first
    next s' handled =>
      rw [handled] at first
      exact first.trans (handleInner_adds given first.1 rest)

end

/-! ## The walk over a file -/

theorem fillHeader_fillHeader (s : FileState Named) (header : FileHeader) :
    fillHeader s (fillHeader s header) = fillHeader s header := by
  by_cases missing : header.logPos = 0 ∧ header.artificial = false
  · rw [fillHeader, fillHeader, if_pos missing]
    split <;> rfl
  · rw [fillHeader, fillHeader, if_neg missing, if_neg missing]

theorem handleEvent_fillHeader (s : FileState Named) (header : FileHeader)
    (body : FileBody Resolver RawRow) :
    handleEvent m filename s (fillHeader s header) body = handleEvent m filename s header body := by
  cases body <;> simp only [handleEvent, fillHeader_fillHeader]

/-- The offset where the event with an index begins. -/
def fileOffset (events : List (FileHeader × FileBody Resolver RawRow)) (i : ℕ) : ℕ :=
  4 + ((events.take i).map fun e => e.1.eventSize.toNat).sum

/-- Contiguous events, each with its end position or none, in offsets that fit a header. -/
structure IsBinlogFile (events : List (FileHeader × FileBody Resolver RawRow)) : Prop where
  positions : ∀ i e, events[i]? = some e →
    e.1.logPos = 0 ∨ e.1.logPos.toNat = fileOffset events (i + 1)
  small : fileOffset events events.length < 2 ^ 32

theorem fileOffset_succ (found : events[i]? = some e) :
    fileOffset events (i + 1) = fileOffset events i + e.1.eventSize.toNat := by
  simp only [fileOffset, take_add_one, found, Option.toList_some, map_append,
    map_cons, map_nil, sum_append, sum_cons, sum_nil]
  omega

theorem ne_zero_of_toNat_eq {pos : UInt32} (ends : pos.toNat = fileOffset events i) : pos ≠ 0 := by
  rintro rfl
  rw [fileOffset, UInt32.toNat_zero] at ends
  omega

theorem IsBinlogFile.offset_lt (file : IsBinlogFile events) (i : ℕ) :
    fileOffset events i < 2 ^ 32 := by
  have part : ((events.take i).map fun e => e.1.eventSize.toNat).sum ≤
      (events.map fun e => e.1.eventSize.toNat).sum :=
    ((take_sublist i events).map _).sum_le_sum fun _ _ => Nat.zero_le _
  have small := file.small
  simp only [fileOffset, take_length] at small ⊢
  omega

/-- Standing where an event begins, the walk knows where it ends. -/
theorem IsBinlogFile.fillHeader_logPos (file : IsBinlogFile events) (found : events[i]? = some e)
    (unflagged : e.1.artificial = true → e.1.logPos ≠ 0)
    (stands : s.lastEnd.toNat = fileOffset events i) :
    (fillHeader s e.1).logPos.toNat = fileOffset events (i + 1) := by
  have next := fileOffset_succ found
  have fits := file.offset_lt (i + 1)
  rcases file.positions i e found with missing | given
  · have real : e.1.artificial = false := by
      cases flag : e.1.artificial with
      | false => rfl
      | true => exact absurd missing (unflagged flag)
    rw [fillHeader, if_pos ⟨missing, real⟩]
    rw [UInt32.toNat_add, stands, ← next, Nat.mod_eq_of_lt fits]
  · rw [fillHeader, if_neg fun missing => ne_zero_of_toNat_eq given missing.1, given]

theorem fillHeader_eventSize (s : FileState Named) (header : FileHeader) :
    (fillHeader s header).eventSize = header.eventSize := by
  unfold fillHeader
  split <;> rfl

/-- One event of a file: the walk goes from its beginning to its end and sends its changes with
that place. -/
theorem IsBinlogFile.handleEvent_adds (file : IsBinlogFile events) (found : events[i]? = some e)
    (unflagged : e.1.artificial = true → e.1.logPos ≠ 0)
    (stands : s.lastEnd.toNat = fileOffset events i) :
    (handleEvent m filename s e.1 e.2).1.lastEnd.toNat = fileOffset events (i + 1) ∧
      ∃ new, (handleEvent m filename s e.1 e.2).1.out = s.out ++ new ∧
        ∀ change ∈ new, change.eventType ≠ .ddl →
          change.startPos = fileOffset events i ∧ change.endPos = fileOffset events (i + 1) := by
  have ends := file.fillHeader_logPos found unflagged stands
  have adds : Adds (fillHeader s e.1) s (handleEvent m filename s (fillHeader s e.1) e.2).1 :=
    Parser.handleEvent_adds (ne_zero_of_toNat_eq ends) e.2
  rw [handleEvent_fillHeader] at adds
  obtain ⟨lastEnd, new, out, placed⟩ := adds
  refine ⟨by rw [lastEnd, ends], new, out, fun change mem isRow => ?_⟩
  obtain ⟨start, finish⟩ := placed change mem isRow
  rw [fillHeader_eventSize, ends, fileOffset_succ found] at start
  exact ⟨by omega, by rw [finish, ends]⟩

theorem parseEvents_concat (s : FileState Named)
    (events : List (FileHeader × FileBody Resolver RawRow))
    (e : FileHeader × FileBody Resolver RawRow) :
    parseEvents m filename s (events ++ [e]) =
      match parseEvents m filename s events with
      | (s', some err) => (s', some err)
      | (s', none) => handleEvent m filename s' e.1 e.2 := by
  induction events generalizing s with
  | nil =>
    simp only [nil_append, parseEvents]
    rcases handleEvent m filename s e.1 e.2 with ⟨s', _ | err⟩ <;> rfl
  | cons first rest ih =>
    simp only [cons_append, parseEvents]
    rcases handleEvent m filename s first.1 first.2 with ⟨s', _ | err⟩
    · exact ih s'
    · rfl

/-- What is sent while the event with an index is handled: what the walk has sent after it and
not before it. -/
def emittedAt (m : Snapshots Resolver RawRow Named) (filename : String)
    (events : List (FileHeader × FileBody Resolver RawRow)) (i : ℕ) : List (Emitted Named) :=
  (parseFile m filename (events.take (i + 1))).1.drop
    (parseFile m filename (events.take i)).1.length

theorem parseFile_fst (events : List (FileHeader × FileBody Resolver RawRow)) :
    (parseFile m filename events).1 = (parseEvents m filename {} events).1.out := by
  unfold parseFile
  split <;> simp_all

section Walk

variable {events : List (FileHeader × FileBody Resolver RawRow)}
  (file : IsBinlogFile events)
  (unflagged : ∀ e ∈ events, e.1.artificial = true → e.1.logPos ≠ 0)

include file unflagged

/-- Without an error the walk stands where the next event begins. -/
theorem lastEnd_parseEvents {i : ℕ} (inside : i ≤ events.length) {s : FileState Named}
    (walked : parseEvents m filename {} (events.take i) = (s, none)) :
    s.lastEnd.toNat = fileOffset events i := by
  induction i generalizing s with
  | zero =>
    rw [take_zero, parseEvents, Prod.mk.injEq] at walked
    rw [← walked.1]
    rfl
  | succ i ih =>
    have found : events[i]? = some events[i] := getElem?_eq_getElem inside
    rw [take_add_one, found, Option.toList_some, parseEvents_concat] at walked
    split at walked
    next => cases walked
    next s' before =>
      have stands := ih (Nat.le_of_succ_le inside) before
      have ends : (handleEvent m filename s' events[i].1 events[i].2).1.lastEnd.toNat =
          fileOffset events (i + 1) :=
        (file.handleEvent_adds found (unflagged _ (getElem_mem inside)) stands).1
      rwa [walked] at ends

/-- Handling one more event sends its changes, with its place, after what was sent before. -/
theorem parseFile_take_succ {i : ℕ} (inside : i < events.length) :
    (parseFile m filename (events.take (i + 1))).1 =
        (parseFile m filename (events.take i)).1 ++ emittedAt m filename events i ∧
      ∀ change ∈ emittedAt m filename events i, change.eventType ≠ .ddl →
        change.startPos = fileOffset events i ∧ change.endPos = fileOffset events (i + 1) := by
  have found : events[i]? = some events[i] := getElem?_eq_getElem inside
  unfold emittedAt
  rw [parseFile_fst, parseFile_fst, take_add_one, found, Option.toList_some,
    parseEvents_concat]
  split
  next s err before =>
    rw [before]
    simp
  next s before =>
    have stands := lastEnd_parseEvents file unflagged inside.le before
    obtain ⟨_, new, out, placed⟩ :=
      file.handleEvent_adds found (unflagged _ (getElem_mem inside)) stands
    rw [before, out]
    simpa using placed

/-- The changes of a file are those of its events in order, each with the offsets where its
event begins and ends. -/
theorem parseFile_positions :
    (parseFile m filename events).1 =
        (List.range events.length).flatMap (emittedAt m filename events) ∧
      ∀ i < events.length, ∀ change ∈ emittedAt m filename events i, change.eventType ≠ .ddl →
        change.startPos = fileOffset events i ∧ change.endPos = fileOffset events (i + 1) := by
  have upTo : ∀ i ≤ events.length, (parseFile m filename (events.take i)).1 =
      (range i).flatMap (emittedAt m filename events) := by
    intro i inside
    induction i with
    | zero => rfl
    | succ i ih =>
      rw [(parseFile_take_succ file unflagged inside).1, ih (Nat.le_of_succ_le inside),
        range_succ, flatMap_append, flatMap_singleton]
  refine ⟨?_, fun i inside => (parseFile_take_succ file unflagged inside).2⟩
  rw [← upTo events.length le_rfl, take_length]

end Walk

/-! ## Files of one table -/

/-- A snapshot that knows every table and maps every row. -/
def knowsAll : Snapshots Unit ℕ ℕ where
  screen := fun _ _ _ => .passed
  mapRow := fun _ _ _ row => some row
  pkValues := fun _ _ _ row => toString row
  parseDDL := fun _ _ => none
  statementDML := fun _ _ => none

/-- An insert of one row. -/
def insertOf (row : ℕ) : FileBody Unit ℕ := .rows () ⟨.write, "shop", "orders", [row], true⟩

/-- A format description with its position, an insert without, and a compressed transaction
without, whose own insert says nothing of its place either. -/
def unpositioned : List (FileHeader × FileBody Unit ℕ) :=
  [(⟨⟨false, 252, 256⟩, 0⟩, .other), (⟨⟨false, 43, 0⟩, 1⟩, insertOf 1),
    (⟨⟨false, 90, 0⟩, 1⟩, .payload [(⟨⟨false, 43, 0⟩, 1⟩, insertOf 2)])]

theorem unpositioned_placed :
    IsBinlogFile unpositioned ∧
      ((parseFile knowsAll "binlog.000001" unpositioned).1.map fun e => (e.startPos, e.endPos)) =
        [(256, 299), (299, 389)] ∧
      ∀ i < 3, ∀ change ∈ emittedAt knowsAll "binlog.000001" unpositioned i,
        change.eventType ≠ .ddl → change.startPos = fileOffset unpositioned i ∧
          change.endPos = fileOffset unpositioned (i + 1) := by
  have file : IsBinlogFile unpositioned :=
    { positions := by
        intro i e found
        match i, found with
        | 0, found => cases found; exact .inr (by decide)
        | 1, found => cases found; exact .inl rfl
        | 2, found => cases found; exact .inl rfl
        | i + 3, found => simp [unpositioned] at found
      small := by decide }
  refine ⟨file, by decide +kernel, ?_⟩
  exact (parseFile_positions file (by decide)).2

/-- An event flagged as artificial takes room in this file, has no position, and is not counted:
the insert after it is sent with the offset where the artificial event begins. -/
theorem artificial_uncounted :
    let events : List (FileHeader × FileBody Unit ℕ) :=
      [(⟨⟨true, 44, 0⟩, 0⟩, .other), (⟨⟨false, 43, 0⟩, 1⟩, insertOf 1)]
    IsBinlogFile events ∧ fileOffset events 1 = 48 ∧
      ((parseFile knowsAll "relay.000001" events).1.map fun e => (e.startPos, e.endPos)) =
        [(4, 47)] := by
  refine ⟨{ positions := ?_, small := by decide }, by decide, by decide +kernel⟩
  intro i e found
  match i, found with
  | 0, found => cases found; exact .inl rfl
  | 1, found => cases found; exact .inl rfl
  | i + 2, found => simp at found

end Dbtrail.Parser
