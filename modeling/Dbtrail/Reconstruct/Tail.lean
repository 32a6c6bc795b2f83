import Dbtrail.Lib.Decimal
import Dbtrail.Reconstruct.Replay

/-!
# A table's tail

The published copy of a table stands at a cut of the binary log. Its tail holds the newest
change of each key captured after the cut, in memory (`Tail`) and as a chain of files: a whole
file, then a file of the changed keys per write. A statement reads the published rows no file
names, and from each file the rows no newer file names (`tableTailChainState`). When a newer
cut is published the tail drops what the cut holds (`Tail.pruneThrough`) and its next file is
whole again.

A key compares by its typed columns, so only integer keys have a tail: `IntegerPK` says how a
row's key columns spell its key text.
-/

namespace Dbtrail

variable {Row : Type}

/-- `BuildPKValues` over integer columns. -/
def pkText (vals : List ℤ) : String := String.ofList (['|'].intercalate (vals.map intText))

/-- The key of a table is made of `width` integer columns. -/
structure IntegerPK (codec : KeyCodec Row) : Type where
  width : ℕ
  width_pos : 0 < width
  /-- The typed key columns of a row. -/
  values : Row → List ℤ
  length_values : ∀ r, (values r).length = width
  keyOf_eq : ∀ r k, codec.keyOf r = some k → k = pkText (values r)

/-! ## Reading the chain -/

/-- A row of a tail file: the typed key columns, and the image under op "u" or nothing under
op "d". -/
structure TailRow (Row : Type) : Type where
  pk : String
  key : List ℤ
  version : Option Row
  deriving DecidableEq, Repr

abbrev TailFile (Row : Type) : Type := List (TailRow Row)

def tailKeys (segs : List (TailFile Row)) : List (List ℤ) :=
  segs.flatMap fun seg => seg.map TailRow.key

/-- The live rows of a chain, oldest file first: a file's row is read unless a newer file names
its key. -/
def tailRows : List (TailFile Row) → List Row
  | [] => []
  | seg :: newer =>
      (seg.filter fun r => r.key ∉ tailKeys newer).filterMap TailRow.version ++ tailRows newer

/-- What `TableTailChainStateSQL` selects. -/
def tableTailChainState (values : Row → List ℤ) (state : List Row) (segs : List (TailFile Row)) :
    List Row :=
  state.filter (fun r => values r ∉ tailKeys segs) ++ tailRows segs

/-! ## The tail -/

inductive TailError : Type
  | otherTable (schema table : String)
  | noPosition (eventID : ℕ)
  | eventType (type : EventType)
  | fold (err : FoldError)
  | cutPosition (anchor : BinlogPos)
  | unordered (key : String)
  | needsWhole
  | lostKey (key : String)
  | droppedColumns (cols : List String)
  | writer (err : String)
  | keyParts (key : String)
  | keyNotInteger (key : String)
  | noImage (key : String)
  deriving DecidableEq, Repr

/-- `Tail`: `cols` are the columns of the published file, `dirty` the keys changed since the
last file, and `needFull` says that the next file must be whole. -/
structure Tail (Row : Type) : Type where
  schema : String
  table : String
  cols : List String
  fold : FoldResult Row := {}
  lastEventID : ℕ := 0
  dirty : List String := []
  needFull : Bool := false

def Tail.checkEvent (t : Tail Row) (ev : ResultRow Row) : Except TailError Unit :=
  if ev.schemaName ≠ t.schema ∨ ev.tableName ≠ t.table then
    .error (.otherTable ev.schemaName ev.tableName)
  else if hasBinlogCoordinate ev = false then .error (.noPosition ev.eventID)
  else
    match ev.eventType with
    | .insert | .update | .delete => .ok ()
    | type => .error (.eventType type)

/-- `Apply`. The keys that changed are those the fold touched: a row that moved to another key
touches both. -/
def Tail.apply (codec : KeyCodec Row) (t : Tail Row) (page : List (ResultRow Row)) :
    Except TailError (Tail Row) := do
  page.forM t.checkEvent
  match foldPage codec t.schema t.table none { touched := true } { t.fold with touched := [] }
      page with
  | .error err => .error (.fold err)
  | .ok fold => .ok { t with
      fold
      dirty := fold.touched.foldl (fun dirty key => dirty.insert key) t.dirty
      lastEventID := page.foldl (fun last ev => max last ev.eventID) t.lastEventID }

/-- A published cut: the position where the next write begins, and the last event folded into
it (0 when none is on record). -/
structure Cut : Type where
  anchor : BinlogPos
  afterID : ℕ
  deriving DecidableEq, Repr

/-- Whether the read of the cut's window returns the event. -/
def Cut.admits (cut : Cut) (ev : ResultRow Row) : Bool :=
  cut.anchor.atOrBefore ev.startCoord && (cut.afterID == 0 || decide (cut.afterID < ev.eventID))

/-- Whether the change can be ordered against a position of the base name. -/
def orderable (base : String) (ev : ResultRow Row) : Bool :=
  hasBinlogCoordinate ev && !ev.startCoord.isLSN && fileBaseName ev.binlogFile == base

/-- `PruneThrough`, with the number of keys dropped. -/
def Tail.pruneThrough (t : Tail Row) (cut : Cut) : Except TailError (Tail Row × ℕ) :=
  if cut.anchor.file = "" ∨ cut.anchor.isLSN = true then .error (.cutPosition cut.anchor)
  else
    match t.fold.changes.entries.find? fun e =>
        !orderable (fileBaseName cut.anchor.file) e.2 with
    | some e => .error (.unordered e.1)
    | none =>
        let drop := (t.fold.changes.entries.filter fun e => !cut.admits e.2).map Sigma.fst
        .ok ({ t with
          fold := { t.fold with changes := drop.foldl (fun m k => m.erase k) t.fold.changes }
          dirty := t.dirty.filter (· ∉ drop)
          needFull := true }, drop.length)

/-! ## Writing files -/

/-- The columns of the copy that the images seen lack. -/
def droppedBaselineColumns (fold : FoldResult Row) (cols : List String) : List String :=
  if fold.sawImage then
    (cols.filter fun col => col ∉ fold.imageColumns).insertionSort (· ≤ ·)
  else []

/-- The integers of a key text, each exactly as they are printed. -/
def tailKeyValues (width : ℕ) (key : String) : Except TailError (List ℤ) :=
  let parts := key.toList.splitOn '|'
  if parts.length ≠ width then .error (.keyParts key)
  else if parts.all plainInteger then .ok (parts.map intVal)
  else .error (.keyNotInteger key)

section Write

variable {codec : KeyCodec Row} (keys : IntegerPK codec)

def tailRow (key : String) (ev : ResultRow Row) : Except TailError (TailRow Row) :=
  if ev.eventType = .delete then
    (tailKeyValues keys.width key).map fun vals => { pk := key, key := vals, version := none }
  else
    match ev.rowAfter with
    | none => .error (.noImage key)
    | some after => .ok { pk := key, key := keys.values after, version := some after }

/-- `write`. `writer` is what ends the file early below the rows: a path in use, a reserved
column name, or an error of the file system. Only a file in place clears the changed keys. -/
def Tail.write (t : Tail Row) (writer : Option String) (ks : List String) :
    Except TailError (Tail Row × TailFile Row) :=
  if droppedBaselineColumns t.fold t.cols ≠ [] then
    .error (.droppedColumns (droppedBaselineColumns t.fold t.cols))
  else do
    let rows ← (ks.insertionSort (· ≤ ·)).mapM fun key =>
      match t.fold.changes.lookup key with
      | none => .error (.lostKey key)
      | some ev => tailRow keys key ev
    match writer with
    | some err => .error (.writer err)
    | none => .ok ({ t with dirty := [] }, rows)

def Tail.writeFile (t : Tail Row) (writer : Option String) :
    Except TailError (Tail Row × TailFile Row) := do
  let (t', rows) ← t.write keys writer t.fold.changes.keys
  return ({ t' with needFull := false }, rows)

def Tail.writeDelta (t : Tail Row) (writer : Option String) :
    Except TailError (Tail Row × TailFile Row) :=
  if t.needFull then .error .needsWhole
  else
    match t.dirty.find? fun key => (t.fold.changes.lookup key).isNone with
    | some key => .error (.lostKey key)
    | none => t.write keys writer t.dirty

end Write

end Dbtrail
