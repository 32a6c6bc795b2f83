import Dbtrail.Lib.Text
import Dbtrail.Query.BinlogOrder

/-!
# Reversal statements

The reversal of one captured change: an INSERT for a DELETE, an UPDATE back to
the before image, a DELETE for an INSERT. The statement is a tree of names and
literals, without its text.

A name or a text is a byte string, as in Go. The snapshot a change's table is
read from, `base64.StdEncoding.DecodeString` and the reading of MariaDB's
system-versioning columns are the generator's own parameters.
-/

namespace Dbtrail

inductive Dialect : Type
  | mySQL
  | postgres
  deriving DecidableEq, Repr

/-! ## Stored values -/

/-- The exponent of a JSON number, or nothing. -/
def isExponent : Bytes → Bool
  | [] => true
  | e :: rest =>
      let digits := match rest with
        | sign :: more => if sign = 43 ∨ sign = 45 then more else rest
        | [] => rest
      (e == 101 || e == 69) && !digits.isEmpty && digits.all SQL.isDigit

/-- JSON's number grammar, which a decoded number's literal satisfies. -/
def isJSONNumber (lit : Bytes) : Bool :=
  let unsigned := match lit with
    | sign :: more => if sign = 45 then more else lit
    | [] => lit
  let whole := unsigned.takeWhile SQL.isDigit
  let rest := unsigned.dropWhile SQL.isDigit
  let tail := match rest with
    | dot :: more =>
        if dot = 46 then
          !(more.takeWhile SQL.isDigit).isEmpty && isExponent (more.dropWhile SQL.isDigit)
        else isExponent rest
    | [] => true
  !whole.isEmpty && (whole.length == 1 || whole.head? != some 48) && tail

/-- A decoded JSON number: the exact literal, kept as text. -/
abbrev JSONNumber : Type := { lit : Bytes // isJSONNumber lit = true }

/-- What recovery reads of a decoded JSON object or array: the `json.Marshal`
text that tells it from others, the payload the budget counts for it, and whether
it is the marker of an unresolved TOAST value. -/
structure JSONDoc : Type where
  text : Bytes
  payload : ℕ
  toast : Bool := false
  deriving DecidableEq

/-- A value of a stored row image. `bytes` only arises from decoding a column
that is stored as base64. -/
inductive Value : Type
  | null
  | bool (b : Bool)
  | number (lit : JSONNumber)
  | str (s : Bytes)
  | bytes (b : Bytes)
  | json (doc : JSONDoc)
  deriving DecidableEq

/-- A row image: column name to value. -/
abbrev Image : Type := AList fun _ : Bytes => Value

/-- One captured change as recovery reads it, its texts as byte strings. -/
structure Change : Type where
  eventID : ℕ
  binlogFile : String
  startPos : ℕ
  eventTimestamp : ℤ
  schemaName : Bytes
  tableName : Bytes
  eventType : EventType
  pkValues : Bytes := []
  rowBefore : Option Image := none
  rowAfter : Option Image := none

/-- The part of a change that the order of changes reads. -/
def Change.coord (row : Change) : ResultRow Unit :=
  { eventID := row.eventID, binlogFile := row.binlogFile, startPos := row.startPos, endPos := 0,
    eventTimestamp := row.eventTimestamp, eventType := row.eventType, pkValues := "" }

/-! ## Schema metadata -/

structure ColumnMeta : Type where
  name : Bytes
  dataType : String := ""
  isPK : Bool := false
  isGenerated : Bool := false
  isIdentityAlways : Bool := false
  deriving DecidableEq, Repr

/-- A table of a schema snapshot, with its columns in ordinal order. -/
structure TableMeta : Type where
  columns : List ColumnMeta
  names_nodup : (columns.map ColumnMeta.name).Nodup

def TableMeta.pkColumnMetas (tm : TableMeta) : List ColumnMeta :=
  tm.columns.filter ColumnMeta.isPK

def TableMeta.column (tm : TableMeta) (name : Bytes) : Option ColumnMeta :=
  tm.columns.find? fun c => c.name == name

/-- `Resolve`, with its errors as `none`. -/
abbrev Resolver : Type := Bytes → Bytes → Option TableMeta

inductive SourceFlavor : Type
  | mysql
  | mariadb
  | postgres
  | unknown
  deriving DecidableEq, Repr

/-- What a MariaDB ROW END value says of its row. -/
inductive VersionState : Type
  | current
  | history
  deriving DecidableEq, Repr

structure Generator : Type where
  dialect : Dialect
  resolver : Option Resolver
  resolverForRow : Change → Option Resolver
  maxScriptBytes : ℤ := 2 ^ 31
  binlogOrder : Bool := false
  orderProof : List Change → IDProof := fun _ => .unproven
  flavor : SourceFlavor := .unknown
  decodeString : Bytes → Option Bytes
  fromSnapshot : TableMeta → Option Bytes := fun _ => none
  isCurrentMarker : Value → Bool := fun _ => false
  rowEnd : Value → ℤ → Option VersionState := fun _ _ => none

/-! ## Literals -/

/-- A literal of a statement: a value, or `ST_GeomFromWKB` of a geometry. -/
inductive Literal : Type
  | value (v : Value)
  | geomFromWKB (wkb : Bytes) (srid : ℕ)
  deriving DecidableEq

/-- A condition of a WHERE: equal to a literal, or IS NULL. -/
structure Cond : Type where
  col : Bytes
  equals : Option Literal
  deriving DecidableEq

inductive Stmt : Type
  | insert (schema table : Bytes) (values : List (Bytes × Literal)) (overriding : Bool)
  | update (schema table : Bytes) (sets : List (Bytes × Literal)) (conds : List Cond)
      (allColumns : Bool)
  | delete (schema table : Bytes) (conds : List Cond) (allColumns : Bool)
  deriving DecidableEq

def toLower (dataType : String) : String :=
  String.ofList (dataType.toList.map Char.toLower)

/-- Whether a column is stored as base64, and then whether it is binary. -/
def base64StoredKind (dataType : String) : Option Bool :=
  let lower := toLower dataType
  if ["blob", "tinyblob", "mediumblob", "longblob", "binary", "varbinary", "vector", "uuid",
      "inet4", "inet6"].contains lower then some true
  else if ["text", "tinytext", "mediumtext", "longtext", "json"].contains lower then some false
  else none

def isSpatialType (dataType : String) : Bool :=
  ["geometry", "point", "linestring", "polygon", "multipoint", "multilinestring", "multipolygon",
    "geometrycollection", "geomcollection"].contains (toLower dataType)

namespace Generator

variable (g : Generator)

def base64Cols (tm : Option TableMeta) (col : Bytes) : Option Bool :=
  if g.dialect ≠ .mySQL then none
  else tm.bind fun tm => (tm.column col).bind fun c => base64StoredKind c.dataType

def geometryCols (tm : Option TableMeta) (col : Bytes) : Bool :=
  if g.dialect ≠ .mySQL then false
  else match tm.bind fun tm => tm.column col with
    | some c => isSpatialType c.dataType
    | none => false

/-- The bytes of a text that a column stored as base64 stands for. -/
def textValue (binary : Bool) (text : Bytes) : Value := if binary then .bytes text else .str text

def decodeStoredBase64 (v : Value) (binary : Bool) : Value :=
  match v with
  | .str s => match g.decodeString s with
      | some b => textValue binary b
      | none => v
  | .bool b => textValue binary (utf8 (if b then "true" else "false"))
  | .number lit => textValue binary lit.1
  | _ => v

/-- The four bytes of a little-endian word. -/
def littleEndian (b : Bytes) : ℕ := b.foldr (fun byte acc => byte.toNat + 256 * acc) 0

def geometryLiteral (v : Value) : Option Literal :=
  match v with
  | .str s => match g.decodeString s with
      | some raw =>
          if raw.length < 4 then none
          else some (.geomFromWKB (raw.drop 4) (littleEndian (raw.take 4)))
      | none => none
  | _ => none

/-- The value a column's literal spells: decoded where the column is stored as base64. -/
def decodeColumnValue (tm : Option TableMeta) (col : Bytes) (v : Value) : Literal :=
  match g.base64Cols tm col with
  | some binary => .value (g.decodeStoredBase64 v binary)
  | none => .value v

def formatColumnValue (tm : Option TableMeta) (col : Bytes) (v : Value) : Literal :=
  match if g.geometryCols tm col then g.geometryLiteral v else none with
  | some lit => lit
  | none => g.decodeColumnValue tm col v

/-! ## System-versioned tables -/

/-- The ROW END column of a MariaDB system-versioned table. -/
def sysVersionedEnd (tm : TableMeta) : Option Bytes :=
  let gens := tm.columns.filter fun c => c.isPK && c.isGenerated
  match gens.getLast? with
  | none => none
  | some last => match g.flavor with
      | .mysql => none
      | .postgres => none
      | .mariadb => if gens.length = 1 then some last.name else none
      | .unknown => g.fromSnapshot tm

/-- Whether a value of an image is a current-row marker. -/
def imageHoldsMarker (row : Change) : Bool :=
  [row.rowBefore, row.rowAfter].any fun img => match img with
    | some img => img.entries.any fun e => g.isCurrentMarker e.2
    | none => false

def columnValue (img : Option Image) (col : Bytes) : Value :=
  ((img.bind fun img => img.lookup col).getD .null)

def markerInGeneratedKey (tm : TableMeta) (row : Change) : Bool :=
  tm.columns.any fun c => c.isPK && c.isGenerated &&
    (g.isCurrentMarker (columnValue row.rowBefore c.name) ||
      g.isCurrentMarker (columnValue row.rowAfter c.name))

/-- The table a change belongs to, as the snapshot of the change's version has it. -/
def tableOf (row : Change) : Option TableMeta :=
  (g.resolverForRow row).bind fun r => r row.schemaName row.tableName

inductive VersionRefusal : Type
  | noSnapshot
  | markerInKey
  | noImage (which : EventType)
  | unreadableRowEnd
  | historyMadeCurrent
  deriving DecidableEq, Repr

inductive VersionSkip : Type
  | historyInserted
  | historyEdited
  | historyRemoved
  deriving DecidableEq, Repr

/-- What becomes of a change of a possibly system-versioned table. -/
inductive Versioned : Type
  | reverse (row : Change)
  | skip (why : VersionSkip)
  | refuse (why : VersionRefusal)

/-- Whether an image is a current or a history version. -/
def versionState (row : Change) (img : Option Image) («end» : Bytes) :
    Except VersionRefusal VersionState :=
  match img with
  | none => .error (.noImage row.eventType)
  | some img => match g.rowEnd (columnValue (some img) «end») row.eventTimestamp with
      | some state => .ok state
      | none => .error .unreadableRowEnd

def sysVersionedReversal (row : Change) : Versioned :=
  match g.tableOf row with
  | none =>
      if g.imageHoldsMarker row && g.flavor != .mysql && g.flavor != .postgres then
        .refuse .noSnapshot
      else .reverse row
  | some tm => match g.sysVersionedEnd tm with
      | none => if g.markerInGeneratedKey tm row then .refuse .markerInKey else .reverse row
      | some rowEnd => match row.eventType with
          | .insert => match g.versionState row row.rowAfter rowEnd with
              | .error why => .refuse why
              | .ok .history => .skip .historyInserted
              | .ok .current => .reverse row
          | .update =>
              match g.versionState row row.rowBefore rowEnd,
                  g.versionState row row.rowAfter rowEnd with
              | .error why, _ => .refuse why
              | _, .error why => .refuse why
              | .ok .current, .ok .history =>
                  .reverse { row with eventType := .delete, rowAfter := none }
              | .ok .history, .ok .history => .skip .historyEdited
              | .ok .history, .ok .current => .refuse .historyMadeCurrent
              | .ok .current, .ok .current => .reverse row
          | .delete => match g.versionState row row.rowBefore rowEnd with
              | .error why => .refuse why
              | .ok .history => .skip .historyRemoved
              | .ok .current => .reverse row
          | _ => .reverse row

/-! ## The three builders -/

/-- Why a change has no reversal. -/
inductive BuildError : Type
  | rowBeforeNil (eventType : EventType) (eventID : ℕ)
  | rowAfterNil (eventType : EventType) (eventID : ℕ)
  | snapshotEvent (eventID : ℕ)
  | unknownType (eventType : EventType)
  deriving DecidableEq, Repr

/-- A statement and the columns it names. -/
structure Built : Type where
  stmt : Stmt
  cols : List Bytes
  deriving DecidableEq

def sortedKeys (img : Image) : List Bytes :=
  img.keys.insertionSort fun a b => a.map UInt8.toNat ≤ b.map UInt8.toNat

theorem mem_sortedKeys {img : Image} {name : Bytes} : name ∈ sortedKeys img ↔ name ∈ img := by
  unfold sortedKeys
  rw [List.mem_insertionSort, AList.mem_keys]

def generatedCol (tm : Option TableMeta) (col : Bytes) : Bool :=
  match tm.bind fun tm => tm.column col with
  | some c => c.isGenerated
  | none => false

/-- Columns a reverse UPDATE leaves out: generated ones, and the identity columns
that PostgreSQL accepts no explicit value for. -/
def updateSetSkipCol (tm : Option TableMeta) (col : Bytes) : Bool :=
  match tm.bind fun tm => tm.column col with
  | some c => c.isGenerated || c.isIdentityAlways
  | none => false

/-- The columns of an image with their literals, without those to skip. -/
def assignments (tm : Option TableMeta) (skip : Bytes → Bool) (img : Image) :
    List (Bytes × Literal) :=
  ((sortedKeys img).filter fun col => !skip col).map fun col =>
    (col, g.formatColumnValue tm col (columnValue (some img) col))

def allColsWhere (img : Image) : List Cond :=
  (sortedKeys img).map fun col => match columnValue (some img) col with
    | .null => ⟨col, none⟩
    | v => ⟨col, some (.value v)⟩

/-- The key columns a WHERE names: those of the primary key, without ROW END. -/
def whereKey (tm : TableMeta) : List ColumnMeta :=
  match g.sysVersionedEnd tm with
  | some rowEnd => tm.pkColumnMetas.filter fun c => c.name != rowEnd
  | none => tm.pkColumnMetas

/-- The key conditions, when the image has every key column. -/
def keyConds (tm : TableMeta) (img : Image) : Option (List Cond) :=
  (g.whereKey tm).mapM fun pk => (img.lookup pk.name).map fun v =>
    ⟨pk.name, some (g.decodeColumnValue (some tm) pk.name v)⟩

/-- The conditions, and whether they fell back to all columns. -/
def pkWhereClause (tm : Option TableMeta) (img : Image) : List Cond × Bool :=
  match tm with
  | some tm =>
      if (g.whereKey tm).isEmpty then (allColsWhere img, true)
      else match g.keyConds tm img with
        | some conds => (conds, false)
        | none => (allColsWhere img, true)
  | none => (allColsWhere img, true)

def buildInsert (row : Change) : Except BuildError Built :=
  match row.rowBefore with
  | none => .error (.rowBeforeNil .delete row.eventID)
  | some before =>
      let tm := g.tableOf row
      let values := g.assignments tm (generatedCol tm) before
      .ok ⟨.insert row.schemaName row.tableName values (g.dialect == .postgres),
        values.map Prod.fst⟩

def buildUpdate (row : Change) : Except BuildError Built :=
  match row.rowBefore, row.rowAfter with
  | none, _ => .error (.rowBeforeNil .update row.eventID)
  | some _, none => .error (.rowAfterNil .update row.eventID)
  | some before, some after =>
      let tm := g.tableOf row
      let sets := g.assignments tm (updateSetSkipCol tm) before
      let (conds, allColumns) := g.pkWhereClause tm after
      .ok ⟨.update row.schemaName row.tableName sets conds allColumns,
        sets.map Prod.fst ++ conds.map Cond.col⟩

def buildDelete (row : Change) : Except BuildError Built :=
  match row.rowAfter with
  | none => .error (.rowAfterNil .insert row.eventID)
  | some after =>
      let (conds, allColumns) := g.pkWhereClause (g.tableOf row) after
      .ok ⟨.delete row.schemaName row.tableName conds allColumns, conds.map Cond.col⟩

def buildStatement (row : Change) : Except BuildError Built :=
  match row.eventType with
  | .delete => g.buildInsert row
  | .update => g.buildUpdate row
  | .insert => g.buildDelete row
  | .snapshot => .error (.snapshotEvent row.eventID)
  | other => .error (.unknownType other)

end Generator

end Dbtrail
