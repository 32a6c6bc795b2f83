import Dbtrail.Query.Binlog

/-!
# Statements that remove rows without row events

A TRUNCATE, DROP, RENAME or CREATE OR REPLACE writes no row changes, so a fold that
replays a window holding one would bring the removed rows back. `checkDestructiveDDL`
refuses such a window. It places every recorded statement of the table three ways: by
the time it ran, by its binlog position against the snapshot's anchor and the run's cut,
and by whether it was already in the index when the snapshot was made (the DDL mark).
`checkDestructiveDDL_ok` says what a check that passed leaves possible.
-/

namespace Dbtrail

inductive DDLKind : Type where
  | alterTable
  | createTable
  | dropTable
  | renameTable
  | truncateTable
  | alterPublication
  | replaceTable
  deriving DecidableEq, Repr

/-- When a PostgreSQL statement can have committed, as its marker says. -/
structure InferredBracket : Type where
  low : Option ℤ
  high : ℤ
  gap : Bool
  deriving DecidableEq, Repr

/-- A row of `schema_changes`. `binlogPos` is the statement's end. -/
structure SchemaChange : Type where
  id : ℕ
  ddlType : DDLKind
  detectedAt : ℤ
  binlogFile : String
  binlogPos : ℕ
  schemaName : String
  tableName : String
  inferred : Option InferredBracket := none
  deriving DecidableEq, Repr

/-- One `schema_changes` row a snapshot names, with what the row holds. -/
structure DDLMark : Type where
  id : ℕ
  file : String
  pos : ℕ
  detectedAt : ℤ
  ddlType : DDLKind
  deriving DecidableEq, Repr

/-- The newest row of the index. -/
def readDDLMark (index : List SchemaChange) : Option DDLMark :=
  index.getLast?.map fun row =>
    ⟨row.id, row.binlogFile, row.binlogPos, row.detectedAt, row.ddlType⟩

def markStillNamesItsRow (index : List SchemaChange) (m : DDLMark) : Bool :=
  match index.find? fun row => decide (row.id = m.id) with
  | none => false
  | some cur =>
      decide (cur.binlogFile = m.file ∧ cur.binlogPos = m.pos ∧ cur.ddlType = m.ddlType ∧
        cur.detectedAt = m.detectedAt)

structure DDLWindow : Type where
  since : ℤ
  until_ : ℤ
  anchor : Option BinlogPos
  cut : Option BinlogPos
  mark : Option DDLMark
  sinceInclusive : Bool := false
  deriving DecidableEq, Repr

/-- A statement with its time placed in a window. -/
structure DestructiveDDL : Type where
  row : SchemaChange
  afterSince : Bool
  atOrBeforeUntil : Bool
  deriving DecidableEq, Repr

def SchemaChange.pos (row : SchemaChange) : BinlogPos := ⟨row.binlogFile, row.binlogPos⟩

def SchemaChange.hasPos (row : SchemaChange) : Bool :=
  row.binlogFile != "" && decide (0 < row.binlogPos)

inductive DDLPlace : Type where
  | outside
  | byTime
  | byPosition
  | unplaced
  deriving DecidableEq, Repr

/-- A file name without its numeric suffix. -/
def binlogBase (file : String) : List Char :=
  if '.' ∈ file.toList then ((file.toList.reverse.dropWhile (· ≠ '.')).drop 1).reverse
  else file.toList

def sameBinlogSequence (a b : String) : Bool := binlogBase a == binlogBase b

namespace DDLWindow

def placeByTimeAndPosition (w : DDLWindow) (d : DestructiveDDL) : DDLPlace :=
  if d.afterSince && d.atOrBeforeUntil then .byTime
  else
    match w.anchor with
    | none => .outside
    | some anchor =>
        if d.row.hasPos &&
            (!sameBinlogSequence d.row.binlogFile anchor.file || d.row.pos.atOrBefore anchor) then
          .outside
        else if !d.atOrBeforeUntil &&
            (!d.row.hasPos || !w.cut.any fun cut => d.row.pos.atOrBefore cut) then
          .outside
        else if !d.row.hasPos then .unplaced
        else .byPosition

/-- A row at or below the mark is not placed by position alone. -/
def place (w : DDLWindow) (d : DestructiveDDL) : DDLPlace :=
  let how := w.placeByTimeAndPosition d
  if how ≠ .byTime ∧ how ≠ .outside ∧ ∃ m ∈ w.mark, d.row.id ≤ m.id then .outside else how

def unmarked (w : DDLWindow) : DDLWindow := { w with mark := none }

end DDLWindow

/-- The kinds the lookup reads. -/
def DDLKind.destructive : DDLKind → Bool
  | .truncateTable | .dropTable | .renameTable | .replaceTable | .alterPublication => true
  | .alterTable | .createTable => false

/-- A statement's time against the window. One inferred from the stream committed somewhere
in its bracket. -/
def destructiveDDLOf (w : DDLWindow) (row : SchemaChange) : DestructiveDDL :=
  match row.inferred with
  | none =>
      { row
        afterSince :=
          decide (w.since < row.detectedAt) || (w.sinceInclusive && row.detectedAt == w.since)
        atOrBeforeUntil := decide (row.detectedAt ≤ w.until_) }
  | some b =>
      { row
        afterSince := decide (w.since < b.high) || (w.sinceInclusive && b.high == w.since)
        atOrBeforeUntil := b.low.all fun low => decide (low ≤ w.until_) }

/-- Rows without a schema predate its being recorded, and match every schema. -/
def loadDestructiveDDLs (index : List SchemaChange) (schema table : String) (w : DDLWindow) :
    List DestructiveDDL :=
  let rows := index.filter fun row =>
    (row.schemaName == schema || row.schemaName == "") && row.tableName == table &&
      row.ddlType.destructive &&
      !(row.ddlType == .alterPublication && row.inferred.any fun b => !b.gap)
  (rows.insertionSort fun a b =>
      a.detectedAt < b.detectedAt ∨ a.detectedAt = b.detectedAt ∧ a.id ≤ b.id).map
    (destructiveDDLOf w)

/-- The first statement inside the window with how it was placed, and the rows placed by
position alone. -/
structure DDLFinding : Type where
  first : Option (DestructiveDDL × DDLPlace) := none
  positional : List ℕ := []
  deriving DecidableEq, Repr

/-- The mark is used only while it still names its row. -/
def usedWindow (index : List SchemaChange) (ddls : List DestructiveDDL) (w : DDLWindow) :
    DDLWindow :=
  match w.mark with
  | none => w
  | some m =>
      if (ddls.any fun d => decide (w.place d ≠ w.unmarked.place d)) &&
          !markStillNamesItsRow index m then
        w.unmarked
      else w

def DDLFinding.note (w : DDLWindow) (f : DDLFinding) (d : DestructiveDDL) : DDLFinding :=
  match w.place d with
  | .outside => f
  | .byTime => { f with first := f.first.or (some (d, .byTime)) }
  | how => { first := f.first.or (some (d, how)), positional := f.positional ++ [d.row.id] }

def findDestructiveDDL (index : List SchemaChange) (schema table : String) (w : DDLWindow) :
    DDLFinding :=
  let ddls := loadDestructiveDDLs index schema table w
  ddls.foldl (DDLFinding.note (usedWindow index ddls w)) {}

/-- A refusal, with what its message is made of. -/
structure DDLRefusal : Type where
  schema : String
  table : String
  finding : DDLFinding
  window : DDLWindow
  deriving DecidableEq, Repr

def checkDestructiveDDL (index : List SchemaChange) (schema table : String) (w : DDLWindow) :
    Except DDLRefusal Unit :=
  let finding := findDestructiveDDL index schema table w
  if finding.first.isNone then .ok () else .error ⟨schema, table, finding, w⟩

def markToStamp (runMark : Option DDLMark) (w : DDLWindow) : Option DDLMark :=
  match w.anchor, w.cut with
  | some anchor, some cut => if sameBinlogSequence anchor.file cut.file then runMark else none
  | _, _ => none

/-! ## What a passed check says -/

variable {w : DDLWindow}

theorem DDLFinding.note_first {f : DDLFinding} {d : DestructiveDDL} :
    (f.note w d).first.isNone = true ↔ f.first.isNone = true ∧ w.place d = .outside := by
  unfold DDLFinding.note
  cases how : w.place d <;> cases f.first <;> simp

/-- The finding is empty when every statement is outside. -/
theorem foldl_note_first {ddls : List DestructiveDDL} {f : DDLFinding} :
    (ddls.foldl (DDLFinding.note w) f).first.isNone = true ↔
      f.first.isNone = true ∧ ∀ d ∈ ddls, w.place d = .outside := by
  induction ddls generalizing f with
  | nil => simp
  | cons d ddls ih =>
    rw [List.foldl_cons, ih, DDLFinding.note_first, List.forall_mem_cons, and_assoc]

theorem usedWindow_eq (index : List SchemaChange) (ddls : List DestructiveDDL) (w : DDLWindow) :
    usedWindow index ddls w = w ∨ usedWindow index ddls w = w.unmarked := by
  unfold usedWindow
  split
  · exact Or.inl rfl
  · split
    · exact Or.inr rfl
    · exact Or.inl rfl

/-- A statement of the table, recorded under its schema or under none. -/
def SchemaChange.removes (row : SchemaChange) (schema table : String) : Prop :=
  (row.schemaName = schema ∨ row.schemaName = "") ∧ row.tableName = table ∧
    (row.ddlType = .truncateTable ∨ row.ddlType = .dropTable ∨ row.ddlType = .renameTable ∨
      row.ddlType = .replaceTable)

variable {index : List SchemaChange} {row : SchemaChange}

theorem mem_loadDestructiveDDLs {schema table : String} (member : row ∈ index)
    (removes : row.removes schema table) :
    destructiveDDLOf w row ∈ loadDestructiveDDLs index schema table w := by
  obtain ⟨schemaName, tableName, kind⟩ := removes
  refine List.mem_map_of_mem ((List.mem_insertionSort _).mpr (List.mem_filter.mpr ⟨member, ?_⟩))
  rcases kind with kind | kind | kind | kind <;>
    simp [schemaName, tableName, kind, DDLKind.destructive]

/-- Only the mark takes out what is inside by position. -/
theorem DDLWindow.marked_of_outside {d : DestructiveDDL} (outside : w.place d = .outside)
    (inside : w.placeByTimeAndPosition d ≠ .outside) :
    ∃ m ∈ w.mark, d.row.id ≤ m.id := by
  by_contra unmarked
  rw [DDLWindow.place, if_neg fun all => unmarked all.2.2] at outside
  exact inside outside

/-- A statement that a window leaves out, though it ran at or before the target, ran at or before
the snapshot; and if it is past the anchor it is at or below the mark. -/
theorem DDLWindow.place_outside {anchor : BinlogPos}
    (outside : w.place (destructiveDDLOf w row) = .outside) (plain : row.inferred = none)
    (atAnchor : w.anchor = some anchor) (early : row.detectedAt ≤ w.until_) :
    row.detectedAt ≤ w.since ∧
      ((row.hasPos = true → sameBinlogSequence row.binlogFile anchor.file = true ∧
          row.pos.atOrBefore anchor = false) →
        ∃ m ∈ w.mark, row.id ≤ m.id) := by
  have upTo : (destructiveDDLOf w row).atOrBeforeUntil = true := by
    simp [destructiveDDLOf, plain, early]
  have notByTime : ¬ (destructiveDDLOf w row).afterSince = true := by
    intro after
    simp [DDLWindow.place, DDLWindow.placeByTimeAndPosition, after, upTo] at outside
  have late : ¬ w.since < row.detectedAt := by
    intro after
    exact notByTime (by simp [destructiveDDLOf, plain, after])
  refine ⟨not_lt.mp late, fun past => ?_⟩
  have same : (destructiveDDLOf w row).row = row := by simp [destructiveDDLOf, plain]
  rw [← same]
  refine DDLWindow.marked_of_outside outside ?_
  cases has : row.hasPos with
  | false => simp [DDLWindow.placeByTimeAndPosition, notByTime, atAnchor, same, has, upTo]
  | true =>
    obtain ⟨sequence, beyond⟩ := past has
    simp [DDLWindow.placeByTimeAndPosition, notByTime, atAnchor, same, has, upTo, sequence,
      beyond]

/-- The check passed: of the statements it saw, one that ran at or before the target ran at or
before the snapshot, and is at or below the mark if it is past the anchor. -/
theorem checkDestructiveDDL_ok {schema table : String} {anchor : BinlogPos}
    (passed : checkDestructiveDDL index schema table w = .ok ())
    (atAnchor : w.anchor = some anchor) (member : row ∈ index)
    (removes : row.removes schema table) (plain : row.inferred = none)
    (early : row.detectedAt ≤ w.until_) :
    row.detectedAt ≤ w.since ∧
      ((row.hasPos = true → sameBinlogSequence row.binlogFile anchor.file = true ∧
          row.pos.atOrBefore anchor = false) →
        ∃ m ∈ w.mark, row.id ≤ m.id) := by
  have none : (findDestructiveDDL index schema table w).first.isNone = true := by
    by_contra some
    simp [checkDestructiveDDL, some] at passed
  have outside := (foldl_note_first.mp none).2 _ (mem_loadDestructiveDDLs member removes)
  rcases usedWindow_eq index (loadDestructiveDDLs index schema table w) w with used | used
  · rw [used] at outside
    exact DDLWindow.place_outside outside plain atAnchor early
  · rw [used] at outside
    have placed : w.unmarked.place (destructiveDDLOf w.unmarked row) = .outside := outside
    obtain ⟨before, past⟩ := DDLWindow.place_outside placed plain atAnchor early
    refine ⟨before, fun beyond => ?_⟩
    obtain ⟨m, named, -⟩ := past beyond
    cases named

end Dbtrail
