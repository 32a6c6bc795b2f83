import Dbtrail.Query.Binlog

/-!
# Redaction under an access profile

A profile denies whole tables, in the query's own clauses, and hides columns of the tables it
serves: `applyRedaction` takes their values out of the row images and their names out of the list
of changed columns, and takes the statement out of every row.

Two captures are twins under a profile when they differ only in what it hides. The key of a row
and the list of its changed columns were made of its values when it was indexed, so they may
differ between twins; `fetch_twins_iff` says when the rows handed out do not.
-/

namespace Dbtrail.Redaction

open List

structure SchemaTable : Type where
  schema : String
  table : String
  deriving DecidableEq, Repr

structure SchemaTableColumn : Type where
  schema : String
  table : String
  column : String
  deriving DecidableEq, Repr

/-- The fields of `Options` that restrict what is served. `profileActive` is set by a named
profile, also one without a rule. -/
structure Profile : Type where
  denyTables : List SchemaTable := []
  redactColumns : List SchemaTableColumn := []
  allowTables : List SchemaTable := []
  allowColumns : List SchemaTableColumn := []
  profileActive : Bool := false
  deriving DecidableEq, Repr

/-- A row image: columns with their values, `none` for NULL. -/
abbrev Image (V : Type) : Type := List (String × Option V)

variable {V : Type}

/-! ## The redaction pass -/

namespace Profile

variable (p : Profile)

def redactionActive : Bool :=
  p.profileActive || !p.redactColumns.isEmpty || !p.denyTables.isEmpty ||
    !p.allowTables.isEmpty || !p.allowColumns.isEmpty

/-- Whether the column allow list speaks of the table. -/
def allowListed (schema table : String) : Bool :=
  p.allowColumns.any fun a => a.schema == schema && a.table == table

/-- The closure `null`: whether a column's values are withheld. -/
def null (schema table col : String) : Bool :=
  p.redactColumns.contains ⟨schema, table, col⟩ ||
    p.allowListed schema table && !p.allowColumns.contains ⟨schema, table, col⟩

/-- The clauses on tables. A denied name is compared by the collation of the index's columns,
an allowed one byte by byte. -/
def serves (collate : String → String) (schema table : String) : Bool :=
  (p.allowTables.isEmpty || p.allowTables.contains ⟨schema, table⟩) &&
    !p.denyTables.any fun d =>
      collate d.schema == collate schema && collate d.table == collate table

def redactImage (hidden : String → Bool) (image : Image V) : Image V :=
  image.map fun cell => (cell.1, if hidden cell.1 then none else cell.2)

def redactRow (r : ResultRow (Image V)) : ResultRow (Image V) :=
  let hidden := p.null r.schemaName r.tableName
  { r with
    queryText := none
    queryHash := none
    rowBefore := r.rowBefore.map (redactImage hidden)
    rowAfter := r.rowAfter.map (redactImage hidden)
    changedColumns :=
      if p.allowListed r.schemaName r.tableName || !p.redactColumns.isEmpty then
        r.changedColumns.map fun cols => cols.filter fun col => !hidden col
      else r.changedColumns }

def applyRedaction (rows : List (ResultRow (Image V))) : List (ResultRow (Image V)) :=
  rows.map p.redactRow

/-- `Fetch` over the rows the other options select. -/
def fetch (collate : String → String) (rows : List (ResultRow (Image V))) :
    List (ResultRow (Image V)) :=
  let results := rows.filter fun r => p.serves collate r.schemaName r.tableName
  if p.redactionActive then p.applyRedaction results else results

end Profile

/-! ## What the index stores of a captured event -/

/-- What an event is beside its values. -/
structure EventHead : Type where
  eventID : ℕ
  binlogFile : String
  startPos : ℕ
  endPos : ℕ
  eventTimestamp : ℤ
  gtid : Option String
  schemaName : String
  tableName : String
  eventType : EventType
  deriving DecidableEq, Repr

structure RowEvent (V : Type) : Type where
  head : EventHead
  rowBefore : Option (Image V)
  rowAfter : Option (Image V)
  queryText : Option String
  deriving DecidableEq, Repr

/-- A value of an image; a missing column reads as NULL, as in a Go map. -/
def cell (image : Image V) (col : String) : Option V := (image.lookup col).join

section Index

variable [DecidableEq V]

/-- The names of the columns that differ, in the order of the image. -/
def differing (before after : Image V) : List String :=
  (before.map Prod.fst).filter fun col => decide (cell before col ≠ cell after col)

/-- A slice that nothing was appended to is nil, is stored as `null` and comes back as nil. -/
def nilIfEmpty (cols : List String) : Option (List String) := if cols = [] then none else some cols

def changedColumns : Option (Image V) → Option (Image V) → Option (List String)
  | some before, some after => nilIfEmpty ((differing before after).insertionSort (· ≤ ·))
  | _, _ => none

/-- How a table's key is spelled, and the digest of a statement. -/
structure Indexing (V : Type) : Type where
  buildPKValues : String → String → Image V → String
  statementDigest : String → Option String

variable (ix : Indexing V)

/-- The key is read from the before image where there is one. -/
def RowEvent.pkValues (ev : RowEvent V) : String :=
  ix.buildPKValues ev.head.schemaName ev.head.tableName ((ev.rowBefore.or ev.rowAfter).getD [])

def indexRow (ev : RowEvent V) : ResultRow (Image V) where
  eventID := ev.head.eventID
  binlogFile := ev.head.binlogFile
  startPos := ev.head.startPos
  endPos := ev.head.endPos
  eventTimestamp := ev.head.eventTimestamp
  gtid := ev.head.gtid
  schemaName := ev.head.schemaName
  tableName := ev.head.tableName
  eventType := ev.head.eventType
  pkValues := ev.pkValues ix
  changedColumns := changedColumns ev.rowBefore ev.rowAfter
  rowBefore := ev.rowBefore
  rowAfter := ev.rowAfter
  queryText := ev.queryText
  queryHash := ev.queryText.bind ix.statementDigest

end Index

/-! ## Images that differ only in hidden values -/

/-- The same columns, with the same values where nothing is hidden. -/
def SameShown (hidden : String → Bool) : Image V → Image V → Prop :=
  List.Forall₂ fun a b => a.1 = b.1 ∧ (hidden a.1 = false → a.2 = b.2)

section Shown

variable {hidden : String → Bool} {a b : Image V}

theorem SameShown.names (same : SameShown hidden a b) : a.map Prod.fst = b.map Prod.fst := by
  induction same with
  | nil => rfl
  | cons first _ ih => rw [map_cons, map_cons, first.1, ih]

theorem SameShown.redacted (same : SameShown hidden a b) :
    Profile.redactImage hidden a = Profile.redactImage hidden b := by
  induction same with
  | nil => rfl
  | @cons x y _ _ first _ ih =>
    have one : (if hidden x.1 then none else x.2) = if hidden y.1 then none else y.2 := by
      rw [← first.1]
      split
      next => rfl
      next shown => exact first.2 (Bool.eq_false_iff.mpr shown)
    unfold Profile.redactImage at ih ⊢
    rw [map_cons, map_cons, ih, one, first.1]

theorem SameShown.cell_eq (same : SameShown hidden a b) {col : String}
    (shown : hidden col = false) : cell a col = cell b col := by
  induction same with
  | nil => rfl
  | @cons x y _ _ first _ ih =>
    unfold cell at ih ⊢
    rw [lookup_cons, lookup_cons, ← first.1]
    split
    next here => rw [first.2 (eq_of_beq here ▸ shown)]
    next => exact ih

variable [DecidableEq V] {a' b' : Image V}

theorem filter_differing (before : SameShown hidden a b) (after : SameShown hidden a' b') :
    (differing a a').filter (fun col => !hidden col) =
      (differing b b').filter fun col => !hidden col := by
  unfold differing
  rw [before.names, filter_filter, filter_filter]
  refine filter_congr fun col _ => ?_
  cases shown : hidden col with
  | true => rfl
  | false => rw [before.cell_eq shown, after.cell_eq shown]

/-- The changed columns that are shown do not depend on the hidden values. -/
theorem filter_sorted_differing (before : SameShown hidden a b) (after : SameShown hidden a' b') :
    ((differing a a').insertionSort (· ≤ ·)).filter (fun col => !hidden col) =
      ((differing b b').insertionSort (· ≤ ·)).filter fun col => !hidden col := by
  refine List.Perm.eq_of_pairwise' (r := (· ≤ ·)) ((pairwise_insertionSort _ _).filter _)
    ((pairwise_insertionSort _ _).filter _) ?_
  have same := filter_differing before after
  exact ((perm_insertionSort _ _).filter _).trans
    (same ▸ ((perm_insertionSort _ _).filter _).symm)

end Shown

/-! ## Twins -/

section Twins

variable (p : Profile) (collate : String → String)

/-- Two events that differ only in the values of a table that is not served, in the values of
hidden columns, and in the statement. -/
structure Twin (x y : RowEvent V) : Prop where
  head : x.head = y.head
  before : p.serves collate x.head.schemaName x.head.tableName = true →
    Option.Rel (SameShown (p.null x.head.schemaName x.head.tableName)) x.rowBefore y.rowBefore
  after : p.serves collate x.head.schemaName x.head.tableName = true →
    Option.Rel (SameShown (p.null x.head.schemaName x.head.tableName)) x.rowAfter y.rowAfter

theorem redacted_image {hidden : String → Bool} {a b : Option (Image V)}
    (same : Option.Rel (SameShown hidden) a b) :
    a.map (Profile.redactImage hidden) = b.map (Profile.redactImage hidden) := by
  cases same with
  | none => rfl
  | some same => exact congrArg some same.redacted

theorem map_nilIfEmpty {shown : String → Bool} {a b : List String}
    (same : a.filter shown = b.filter shown) :
    (nilIfEmpty a).map (List.filter shown) = (nilIfEmpty b).map (List.filter shown) ↔
      (nilIfEmpty a).isNone = (nilIfEmpty b).isNone := by
  unfold nilIfEmpty
  by_cases left : a = []
  · by_cases right : b = []
    · simp [left, right]
    · simp [left, right]
  · by_cases right : b = []
    · simp [left, right]
    · simp [left, right, same]

variable {p collate} [DecidableEq V]

/-- The list of changed columns as it is handed out. -/
theorem redacted_changed {hidden : String → Bool} {a b a' b' : Option (Image V)}
    (before : Option.Rel (SameShown hidden) a b) (after : Option.Rel (SameShown hidden) a' b') :
    (changedColumns a a').map (List.filter fun col => !hidden col) =
        (changedColumns b b').map (List.filter fun col => !hidden col) ↔
      (changedColumns a a').isNone = (changedColumns b b').isNone := by
  cases before with
  | none => exact iff_of_true rfl rfl
  | some before =>
    cases after with
    | none => exact iff_of_true rfl rfl
    | some after => exact map_nilIfEmpty (filter_sorted_differing before after)

/-- Where nothing hides a column, all of them are handed out. -/
theorem changed_eq_of_noRule {schema table : String} {a b a' b' : Option (Image V)}
    (before : Option.Rel (SameShown (p.null schema table)) a b)
    (after : Option.Rel (SameShown (p.null schema table)) a' b')
    (noRule : (p.allowListed schema table || !p.redactColumns.isEmpty) = false) :
    changedColumns a a' = changedColumns b b' := by
  have shown : ∀ col, p.null schema table col = false := by
    intro col
    rw [Bool.or_eq_false_iff, Bool.not_eq_false', List.isEmpty_iff] at noRule
    simp [Profile.null, noRule.1, noRule.2]
  have all : (List.filter fun col => !p.null schema table col) = id := by
    funext cols
    simp [shown]
  have same {a b : Option (Image V)} (rel : Option.Rel (SameShown (p.null schema table)) a b) :
      a = b := by
    cases rel with
    | none => rfl
    | some rel =>
      refine congrArg some ?_
      induction rel with
      | nil => rfl
      | cons first _ ih => rw [Prod.ext first.1 (first.2 (shown _)), ih]
  rw [same before, same after]

variable (ix : Indexing V) {x y : RowEvent V}

/-- What two twins of a served table are handed out as. -/
theorem redactRow_eq_iff (twin : Twin p collate x y)
    (served : p.serves collate x.head.schemaName x.head.tableName = true) :
    p.redactRow (indexRow ix x) = p.redactRow (indexRow ix y) ↔
      x.pkValues ix = y.pkValues ix ∧
        (changedColumns x.rowBefore x.rowAfter).isNone =
          (changedColumns y.rowBefore y.rowAfter).isNone := by
  have before := twin.before served
  have after := twin.after served
  cases rule : p.allowListed x.head.schemaName x.head.tableName || !p.redactColumns.isEmpty with
  | true =>
    simp only [Profile.redactRow, indexRow, ← twin.head, redacted_image before,
      redacted_image after, rule, if_true, ResultRow.mk.injEq, true_and, and_true,
      redacted_changed before after]
  | false =>
    have same := changed_eq_of_noRule before after rule
    simp only [Profile.redactRow, indexRow, ← twin.head, redacted_image before,
      redacted_image after, rule, Bool.false_eq_true, if_false, ResultRow.mk.injEq, true_and,
      and_true, same]

/-- Twins are handed out as the same rows exactly when, in every table that is served, they have
the same key texts, and both or neither of two twins have a changed column on record. -/
theorem fetch_twins_iff (p : Profile) (collate : String → String) (ix : Indexing V)
    (active : p.redactionActive = true) {xs ys : List (RowEvent V)}
    (twins : List.Forall₂ (Twin p collate) xs ys) :
    p.fetch collate (xs.map (indexRow ix)) = p.fetch collate (ys.map (indexRow ix)) ↔
      List.Forall₂ (fun x y => p.serves collate x.head.schemaName x.head.tableName = true →
        x.pkValues ix = y.pkValues ix ∧
          (changedColumns x.rowBefore x.rowAfter).isNone =
            (changedColumns y.rowBefore y.rowAfter).isNone) xs ys := by
  simp only [Profile.fetch, active, if_true, Profile.applyRedaction]
  induction twins with
  | nil => exact iff_of_true rfl .nil
  | @cons x y xs ys twin _ ih =>
    have heads : p.serves collate (indexRow ix y).schemaName (indexRow ix y).tableName =
        p.serves collate x.head.schemaName x.head.tableName := by
      rw [twin.head]
      rfl
    rw [map_cons, map_cons, filter_cons, filter_cons, heads,
      forall₂_cons, ← ih]
    cases served : p.serves collate x.head.schemaName x.head.tableName with
    | false => simp [indexRow, served]
    | true =>
      simp only [indexRow, served, if_true, map_cons, cons.injEq, true_implies]
      exact and_congr_left fun _ => redactRow_eq_iff ix twin served

end Twins

/-! ## A key and a list of changed columns that tell -/

/-- The tables of the examples have the key column `id`. -/
def idKey : Indexing String := ⟨fun _ _ image => (cell image "id").getD "", fun _ => none⟩

def accountHead (eventID : ℕ) (eventType : EventType) : EventHead :=
  ⟨eventID, "binlog.000001", 100 * eventID, 100 * eventID + 50, 0, none, "shop", "account",
    eventType⟩

def created (id pin : String) : RowEvent String :=
  ⟨accountHead 1 .insert, none, some [("id", some id), ("pin", some pin)], some id⟩

def rewritten (oldPin newPin : String) : RowEvent String :=
  ⟨accountHead 2 .update, some [("id", some "7"), ("pin", some oldPin)],
    some [("id", some "7"), ("pin", some newPin)], none⟩

def hides (col : String) : Profile := { redactColumns := [⟨"shop", "account", col⟩] }

/-- Two rows with other pins are handed out alike. -/
theorem created_alike :
    (hides "pin").fetch id ([created "7" "1234"].map (indexRow idKey)) =
      (hides "pin").fetch id ([created "7" "9999"].map (indexRow idKey)) :=
  (fetch_twins_iff (hides "pin") id idKey rfl
      (.cons ⟨rfl, fun _ => .none, fun _ => .some (.cons ⟨rfl, fun _ => rfl⟩
        (.cons ⟨rfl, fun shown => absurd shown (by decide)⟩ .nil))⟩ .nil)).mpr
    (.cons (fun _ => ⟨rfl, rfl⟩) .nil)

/-- A hidden key column is in the key text, and a hidden column that changed leaves an empty list
of changed columns where no change at all leaves none. -/
theorem hidden_values_told :
    List.Forall₂ (Twin (hides "id") id) [created "7" "1234"] [created "8" "1234"] ∧
      (hides "id").fetch id ([created "7" "1234"].map (indexRow idKey)) ≠
        (hides "id").fetch id ([created "8" "1234"].map (indexRow idKey)) ∧
      List.Forall₂ (Twin (hides "pin") id) [rewritten "1234" "9999"] [rewritten "1234" "1234"] ∧
      (hides "pin").fetch id ([rewritten "1234" "9999"].map (indexRow idKey)) ≠
        (hides "pin").fetch id ([rewritten "1234" "1234"].map (indexRow idKey)) := by
  refine ⟨.cons ⟨rfl, fun _ => .none, fun _ => .some ?_⟩ .nil, by decide,
    .cons ⟨rfl, fun _ => .some ?_, fun _ => .some ?_⟩ .nil, by decide⟩
  · exact .cons ⟨rfl, fun shown => absurd shown (by decide)⟩ (.cons ⟨rfl, fun _ => rfl⟩ .nil)
  · exact .cons ⟨rfl, fun _ => rfl⟩ (.cons ⟨rfl, fun _ => rfl⟩ .nil)
  · exact .cons ⟨rfl, fun _ => rfl⟩
      (.cons ⟨rfl, fun shown => absurd shown (by decide)⟩ .nil)

end Dbtrail.Redaction
