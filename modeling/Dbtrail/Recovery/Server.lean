import Dbtrail.Recovery.Generate

/-!
# The server a recovery script is applied to

A `Server` is the database seen through one table: how it stores a captured value
again from its literal, how a key column compares to a literal, how it computes
generated columns and which table contents it allows. `exec` runs one statement
and counts the rows it touched.

`Applies` is what one captured change did to the table, and `History` a whole run
of changes. `Lawful` and `Faithful` are what a reversal needs of the server.
`plainServer` is one that stores what was captured.
-/

namespace Dbtrail

/-- A column of the table. -/
abbrev TableMeta.Col (tm : TableMeta) : Type := { c : ColumnMeta // c ∈ tm.columns }

/-- A row of the table, its values as the server holds them. -/
abbrev TableRow (tm : TableMeta) (V : Type) : Type := tm.Col → V

structure Server (tm : TableMeta) (V : Type) : Type where
  dialect : Dialect
  schema : Bytes
  table : Bytes
  /-- The value as it is captured into a row image. -/
  stored : tm.Col → V → Value
  /-- The value a literal puts into a column. -/
  read : tm.Col → Literal → V
  default : tm.Col → V
  /-- The generated columns of a row. -/
  computed : TableRow tm V → tm.Col → V
  /-- Whether a column equals a literal, or is NULL. -/
  equals : tm.Col → V → Literal → Bool
  isNull : tm.Col → V → Bool
  /-- Whether two values of a key column count as the same key. -/
  same : tm.Col → V → V → Bool
  /-- The table contents the constraints allow. -/
  allowed : List (TableRow tm V) → Bool

namespace Server

variable {tm : TableMeta} {V : Type} (srv : Server tm V)

/-! ## Running a statement -/

def holds (row : TableRow tm V) (cond : Cond) : Bool :=
  tm.columns.attach.any fun c => c.1.name == cond.col &&
    match cond.equals with
    | some lit => srv.equals c (row c) lit
    | none => srv.isNull c (row c)

/-- The row with the assigned columns replaced. -/
def overwrite (values : List (Bytes × Literal)) (old : TableRow tm V) : TableRow tm V :=
  fun c => match values.lookup c.1.name with
    | some lit => srv.read c lit
    | none => old c

/-- The row with the assigned columns replaced and the generated ones computed. -/
def assign (values : List (Bytes × Literal)) (old : TableRow tm V) : TableRow tm V :=
  fun c => if c.1.isGenerated then srv.computed (srv.overwrite values old) c
    else srv.overwrite values old c

/-- Whether every assigned name is a column that takes an explicit value. -/
def takes (tm : TableMeta) (values : List (Bytes × Literal)) (identity : Bool) : Bool :=
  values.all fun v => match tm.column v.1 with
    | some c => !c.isGenerated && (identity || !c.isIdentityAlways)
    | none => false

/-- Replace the rows a WHERE finds, all of them or the first one only, and count them. -/
def replaceHits {R : Type} (limit : Bool) (hit : R → Bool) (new : R → List R) :
    List R → List R × ℕ
  | [] => ([], 0)
  | r :: rest =>
      if hit r then
        if limit then (new r ++ rest, 1)
        else (new r ++ (replaceHits limit hit new rest).1, (replaceHits limit hit new rest).2 + 1)
      else (r :: (replaceHits limit hit new rest).1, (replaceHits limit hit new rest).2)

/-- The constraints are checked on what a statement leaves behind. -/
def checked (result : List (TableRow tm V) × ℕ) : Option (List (TableRow tm V) × ℕ) :=
  if srv.allowed result.1 then some result else none

/-- One statement: the table it leaves and how many rows it touched, or an error. -/
def exec (stmt : Stmt) (rows : List (TableRow tm V)) : Option (List (TableRow tm V) × ℕ) :=
  match stmt with
  | .insert schema table values overriding =>
      if schema = srv.schema ∧ table = srv.table ∧
          takes tm values (srv.dialect == .mySQL || overriding) = true then
        srv.checked (srv.assign values srv.default :: rows, 1)
      else none
  | .update schema table sets conds allColumns =>
      if schema = srv.schema ∧ table = srv.table ∧ sets ≠ [] ∧
          takes tm sets (srv.dialect == .mySQL) = true then
        srv.checked (replaceHits (allColumns && srv.dialect == .mySQL)
          (fun row => conds.all (srv.holds row)) (fun row => [srv.assign sets row]) rows)
      else none
  | .delete schema table conds allColumns =>
      if schema = srv.schema ∧ table = srv.table then
        srv.checked (replaceHits (allColumns && srv.dialect == .mySQL)
          (fun row => conds.all (srv.holds row)) (fun _ => []) rows)
      else none

/-- The statements of a script in order, with the rows each one touched. -/
def execAll : List Stmt → List (TableRow tm V) → Option (List (TableRow tm V) × List ℕ)
  | [], rows => some (rows, [])
  | stmt :: rest, rows => match srv.exec stmt rows with
      | some (next, touched) => (execAll rest next).map fun out => (out.1, touched :: out.2)
      | none => none

/-! ## What the captured changes did -/

def sameKey (r s : TableRow tm V) : Bool :=
  tm.columns.attach.all fun c => !c.1.isPK || srv.same c (r c) (s c)

/-- The image holds exactly the columns of the table, with the row's values. -/
def Shows (img : Option Image) (row : TableRow tm V) : Prop :=
  ∃ im : Image, img = some im ∧
    (∀ c : tm.Col, im.lookup c.1.name = some (srv.stored c (row c))) ∧
    ∀ name ∈ im, name ∈ tm.columns.map ColumnMeta.name

/-- What one captured change did to the table. Contents are compared as multisets. -/
inductive Applies : Change → List (TableRow tm V) → List (TableRow tm V) → Prop
  | insert {row : Change} {after : TableRow tm V} {rows rows' : List (TableRow tm V)}
      (type : row.eventType = .insert) (image : srv.Shows row.rowAfter after)
      (grown : rows'.Perm (after :: rows)) : Applies row rows rows'
  | update {row : Change} {before after : TableRow tm V} {rows rows' rest : List (TableRow tm V)}
      (type : row.eventType = .update) (imageBefore : srv.Shows row.rowBefore before)
      (imageAfter : srv.Shows row.rowAfter after) (old : rows.Perm (before :: rest))
      (new : rows'.Perm (after :: rest)) : Applies row rows rows'
  | delete {row : Change} {before : TableRow tm V} {rows rows' : List (TableRow tm V)}
      (type : row.eventType = .delete) (image : srv.Shows row.rowBefore before)
      (shrunk : rows.Perm (before :: rows')) : Applies row rows rows'

/-- A run of changes of the table, through contents the constraints allow. -/
inductive History : List Change → List (TableRow tm V) → List (TableRow tm V) → Prop
  | nil (rows : List (TableRow tm V)) (ok : srv.allowed rows = true) : History [] rows rows
  | cons {row : Change} {rest : List Change} {rows mid rows' : List (TableRow tm V)}
      (named : row.schemaName = srv.schema ∧ row.tableName = srv.table)
      (ok : srv.allowed rows = true) (step : srv.Applies row rows mid)
      (run : History rest mid rows') : History (row :: rest) rows rows'

/-! ## What is assumed of the server -/

/-- Keys compare as one relation, contents are multisets, and no two rows of
allowed contents share their key. -/
structure Lawful : Prop where
  same_refl : ∀ (c : tm.Col) (v : V), srv.same c v v = true
  same_symm : ∀ (c : tm.Col) (v w : V), srv.same c v w = true → srv.same c w v = true
  allowed_perm : ∀ {rows rows' : List (TableRow tm V)}, rows.Perm rows' →
    srv.allowed rows = true → srv.allowed rows' = true
  allowed_keyed : ∀ {rows : List (TableRow tm V)}, srv.allowed rows = true →
    rows.Pairwise fun r s => srv.sameKey r s = false

/-- The server reads the row's literals back as the values they were captured from,
finds its key by them, and computes its generated columns from the others. -/
structure Faithful (g : Generator) (row : TableRow tm V) : Prop where
  read_back : ∀ c : tm.Col, c.1.isGenerated = false →
    srv.read c (g.formatColumnValue (some tm) c.1.name (srv.stored c (row c))) = row c
  key_found : ∀ c : tm.Col, c.1.isPK = true → ∀ v : V,
    srv.equals c v (g.decodeColumnValue (some tm) c.1.name (srv.stored c (row c))) =
      srv.same c v (row c)
  recomputed : ∀ other : TableRow tm V,
    (∀ c : tm.Col, c.1.isGenerated = false → other c = row c) →
      ∀ c : tm.Col, c.1.isGenerated = true → srv.computed other c = row c

theorem column_eq (c : tm.Col) : tm.column c.1.name = some c.1 := by
  unfold TableMeta.column
  cases found : tm.columns.find? (fun d => d.name == c.1.name) with
  | none => exact absurd (beq_self_eq_true c.1.name) (List.find?_eq_none.mp found c.1 c.2)
  | some d =>
    have name : d.name = c.1.name := by simpa using List.find?_some found
    rw [List.inj_on_of_nodup_map tm.names_nodup (List.mem_of_find?_eq_some found) c.2 name]

theorem col_eq_of_name {c d : tm.Col} (name : c.1.name = d.1.name) : c = d :=
  Subtype.ext (List.inj_on_of_nodup_map tm.names_nodup c.2 d.2 name)

end Server

/-! ## A server that stores what is captured -/

/-- A server whose values are the captured ones, with no constraint but the key. -/
def plainServer (tm : TableMeta) (dialect : Dialect) (schema table : Bytes) : Server tm Value where
  dialect := dialect
  schema := schema
  table := table
  stored := fun _ v => v
  read := fun _ lit => match lit with
    | .value v => v
    | .geomFromWKB _ _ => .null
  default := fun _ => .null
  computed := fun row c => row c
  equals := fun _ v lit => lit == .value v
  isNull := fun _ v => v == .null
  same := fun _ v w => v == w
  allowed := fun rows => decide (rows.Pairwise fun r s =>
    (tm.columns.attach.all fun c => !c.1.isPK || r c == s c) = false)

theorem plainServer_lawful (tm : TableMeta) (dialect : Dialect) (schema table : Bytes) :
    (plainServer tm dialect schema table).Lawful where
  same_refl := fun _ v => beq_self_eq_true v
  same_symm := fun _ v w same => by
    simp only [plainServer, beq_iff_eq] at same ⊢
    exact same.symm
  allowed_perm := fun same ok => by
    simp only [plainServer, decide_eq_true_eq] at ok ⊢
    refine (same.pairwise_iff ?_).mp ok
    intro r s apart
    rw [Bool.eq_false_iff] at apart ⊢
    intro both
    apply apart
    simp only [List.all_eq_true, Bool.or_eq_true, beq_iff_eq] at both ⊢
    exact fun c mem => (both c mem).imp_right Eq.symm
  allowed_keyed := fun ok => of_decide_eq_true ok

/-- Where no column is stored encoded or generated, every row is read back. -/
theorem plainServer_faithful {tm : TableMeta} {dialect : Dialect} {schema table : Bytes}
    (g : Generator) (plain : ∀ c ∈ tm.columns, c.isGenerated = false ∧
      base64StoredKind c.dataType = none ∧ isSpatialType c.dataType = false)
    (row : TableRow tm Value) : (plainServer tm dialect schema table).Faithful g row := by
  have decoded : ∀ (c : tm.Col) (v : Value),
      g.decodeColumnValue (some tm) c.1.name v = .value v := by
    intro c v
    have kind : g.base64Cols (some tm) c.1.name = none := by
      simp [Generator.base64Cols, Server.column_eq c, (plain c.1 c.2).2.1]
    rw [Generator.decodeColumnValue, kind]
  have formatted : ∀ (c : tm.Col) (v : Value),
      g.formatColumnValue (some tm) c.1.name v = .value v := by
    intro c v
    have flat : g.geometryCols (some tm) c.1.name = false := by
      simp [Generator.geometryCols, Server.column_eq c, (plain c.1 c.2).2.2]
    rw [Generator.formatColumnValue, flat]
    exact decoded c v
  constructor
  · intro c _
    rw [formatted]
    rfl
  · intro c _ v
    rw [decoded]
    simp only [plainServer]
    rw [Bool.eq_iff_iff, beq_iff_eq, beq_iff_eq, Literal.value.injEq, eq_comm]
  · intro other _ c generated
    rw [(plain c.1 c.2).1] at generated
    cases generated

end Dbtrail
