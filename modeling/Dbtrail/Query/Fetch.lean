import Dbtrail.Query.Binlog
import Dbtrail.Query.Time
import Dbtrail.Lib.Trim

/-!
# Queries of the live index

`QueryOptions` is what a reader asks for: row filters, a time window, binlog bounds, a
cursor, a per-key cap, a limit and a direction. `QueryOptions.selects` is the WHERE
clause and `LiveIndex.fetch` the statement the engine runs. The filters whose
comparison nothing here depends on (event type, GTID, changed columns, column values,
flags, access lists, the numeric key range) are one predicate, `rowFilter`.
-/

namespace Dbtrail

open List

/-! ## Options -/

inductive Direction : Type
  | asc
  | desc
  deriving DecidableEq, Repr

/-- A place in `(event_timestamp, event_id)` order. -/
structure EventCursor : Type where
  timestamp : ℤ
  eventID : ℕ
  deriving DecidableEq, Repr

structure QueryOptions (Row : Type) : Type where
  schema : String := ""
  table : String := ""
  pkValues : String := ""
  pkValuesAlt : String := ""
  pkValuesIn : List String := []
  pkAliases : List (String × String) := []
  since : Option ℤ := none
  untilTime : Option ℤ := none
  untilPos : Option BinlogPos := none
  sincePos : Option BinlogPos := none
  sinceEventID : ℕ := 0
  archivesCheckedThrough : Option BinlogPos := none
  afterEvent : Option EventCursor := none
  eventAnchor : Option EventCursor := none
  beforeEvent : Option EventCursor := none
  limit : ℕ := 0
  limitPerPK : ℕ := 0
  latestPerPKCandidates : Bool := false
  order : Direction := .asc
  rowFilter : ResultRow Row → Bool := fun _ => true

variable {Row : Type} {rows part : List (ResultRow Row)} {opts : QueryOptions Row}

/-- The key every fetch orders by. -/
def ResultRow.eventKey (r : ResultRow Row) : ℤ ×ₗ ℕ := toLex (r.eventTimestamp, r.eventID)

theorem ResultRow.eventKey_lt_iff (a b : ResultRow Row) :
    a.eventKey < b.eventKey ↔
      a.eventTimestamp < b.eventTimestamp ∨
        a.eventTimestamp = b.eventTimestamp ∧ a.eventID < b.eventID := by
  simp only [ResultRow.eventKey, Prod.Lex.toLex_lt_toLex]

theorem ResultRow.eventKey_inj {a b : ResultRow Row} (same : a.eventKey = b.eventKey) :
    a.eventID = b.eventID :=
  congrArg (fun k => (ofLex k).2) same

theorem eventKeys_nodup (nodup : (rows.map ResultRow.eventID).Nodup) :
    (rows.map ResultRow.eventKey).Nodup := by
  rw [List.Nodup, pairwise_map] at nodup ⊢
  exact nodup.imp fun ne same => ne (ResultRow.eventKey_inj same)

namespace QueryOptions

/-- The key filter. Its two spellings are exact: the index is searched by hash, then by
the value. -/
def selectsPK (opts : QueryOptions Row) (r : ResultRow Row) : Bool :=
  if opts.pkValues ≠ "" then
    r.pkValues == opts.pkValues || opts.pkValuesAlt != "" && r.pkValues == opts.pkValuesAlt
  else opts.pkValuesIn.isEmpty || opts.pkValuesIn.contains r.pkValues

/-- With a position, the time is a coarse bound under it and not a filter of its own. -/
def selectsSince (opts : QueryOptions Row) (r : ResultRow Row) : Bool :=
  match opts.since with
  | none => true
  | some since =>
      if opts.sincePos.isSome then decide (coarseSinceFloor since ≤ r.eventTimestamp)
      else
        decide (truncateTo hour since ≤ r.eventTimestamp) && decide (since ≤ r.eventTimestamp)

/-- The event starts at or after the position. An LSN is compared by its number. -/
def selectsSincePos (pos : BinlogPos) (r : ResultRow Row) : Bool :=
  if pos.isLSN then decide (pos.pos ≤ r.startPos)
  else
    decide (pos.file.length < r.binlogFile.length) ||
      r.binlogFile.length == pos.file.length && decide (pos.file < r.binlogFile) ||
      r.binlogFile == pos.file && decide (pos.pos ≤ r.startPos)

/-- The event ends at or before the position. -/
def selectsUntilPos (pos : BinlogPos) (r : ResultRow Row) : Bool :=
  if pos.isLSN then decide (r.endPos ≤ pos.pos)
  else
    decide (r.binlogFile.length < pos.file.length) ||
      r.binlogFile.length == pos.file.length && decide (r.binlogFile < pos.file) ||
      r.binlogFile == pos.file && decide (r.endPos ≤ pos.pos)

def selectsUntil (opts : QueryOptions Row) (r : ResultRow Row) : Bool :=
  match opts.untilTime with
  | none => true
  | some last =>
      decide (r.eventTimestamp < truncateTo hour last + hour) &&
        decide (r.eventTimestamp ≤ last)

def selectsAnchor (anchor : EventCursor) (r : ResultRow Row) : Bool :=
  decide (truncateTo hour anchor.timestamp ≤ r.eventTimestamp) &&
    decide (r.eventTimestamp < truncateTo hour anchor.timestamp + hour) &&
    (r.eventTimestamp == anchor.timestamp && r.eventID == anchor.eventID)

def selectsAfter (cursor : EventCursor) (r : ResultRow Row) : Bool :=
  decide (truncateTo hour cursor.timestamp ≤ r.eventTimestamp) &&
    (decide (cursor.timestamp < r.eventTimestamp) ||
      r.eventTimestamp == cursor.timestamp && decide (cursor.eventID < r.eventID))

def selectsBefore (cursor : EventCursor) (r : ResultRow Row) : Bool :=
  decide (r.eventTimestamp < truncateTo hour cursor.timestamp + hour) &&
    (decide (r.eventTimestamp < cursor.timestamp) ||
      r.eventTimestamp == cursor.timestamp && decide (r.eventID < cursor.eventID))

/-- `buildWhere`, as a predicate on rows. -/
def selects (opts : QueryOptions Row) (r : ResultRow Row) : Bool :=
  (opts.schema == "" || r.schemaName == opts.schema) &&
    (opts.table == "" || r.tableName == opts.table) &&
    opts.selectsPK r && opts.selectsSince r && opts.sincePos.all (selectsSincePos · r) &&
    (opts.sinceEventID == 0 || decide (opts.sinceEventID < r.eventID)) &&
    opts.selectsUntil r && opts.untilPos.all (selectsUntilPos · r) &&
    opts.eventAnchor.all (selectsAnchor · r) && opts.afterEvent.all (selectsAfter · r) &&
    opts.beforeEvent.all (selectsBefore · r) && opts.rowFilter r

variable {opts : QueryOptions Row} {r : ResultRow Row}

theorem selectsPK_of_selects (selected : opts.selects r = true) : opts.selectsPK r = true := by
  simp only [selects, Bool.and_eq_true] at selected
  tauto

theorem selectsSince_of_selects (selected : opts.selects r = true) :
    opts.selectsSince r = true := by
  simp only [selects, Bool.and_eq_true] at selected
  tauto

theorem selectsAnchor_of_selects {anchor : EventCursor} (named : opts.eventAnchor = some anchor)
    (selected : opts.selects r = true) :
    r.eventTimestamp = anchor.timestamp ∧ r.eventID = anchor.eventID := by
  simp only [selects, Bool.and_eq_true, named, Option.all_some, selectsAnchor, beq_iff_eq]
    at selected
  tauto

theorem selectsSincePos_iff {pos : BinlogPos} (binlog : pos.isLSN = false) :
    selectsSincePos pos r = true ↔
      fileBefore pos.file r.binlogFile = true ∨
        r.binlogFile = pos.file ∧ pos.pos ≤ r.startPos := by
  simp only [selectsSincePos, binlog, Bool.false_eq_true, if_false, fileBefore, Bool.or_eq_true,
    Bool.and_eq_true, decide_eq_true_eq, beq_iff_eq, eq_comm (a := r.binlogFile.length)]

theorem selectsUntilPos_iff {pos : BinlogPos} (binlog : pos.isLSN = false) :
    selectsUntilPos pos r = true ↔
      fileBefore r.binlogFile pos.file = true ∨
        r.binlogFile = pos.file ∧ r.endPos ≤ pos.pos := by
  simp only [selectsUntilPos, binlog, Bool.false_eq_true, if_false, fileBefore, Bool.or_eq_true,
    Bool.and_eq_true, decide_eq_true_eq, beq_iff_eq]

end QueryOptions

/-! ## The statement -/

/-- The rows of the live index: one per id, each dated with a `DATETIME`, whose range
starts after the zero time. -/
structure LiveIndex (Row : Type) : Type where
  rows : List (ResultRow Row)
  ids_nodup : (rows.map ResultRow.eventID).Nodup
  dated : ∀ r ∈ rows, zeroTime < r.eventTimestamp

/-- `ORDER BY event_timestamp, event_id`. -/
def orderRows : Direction → List (ResultRow Row) → List (ResultRow Row)
  | .asc, rows => rows.insertionSort fun a b => a.eventKey ≤ b.eventKey
  | .desc, rows => rows.insertionSort fun a b => b.eventKey ≤ a.eventKey

/-- Strictly in the order of the direction. -/
def InKeyOrder : Direction → List (ResultRow Row) → Prop
  | .asc, rows => rows.Pairwise fun a b => a.eventKey < b.eventKey
  | .desc, rows => rows.Pairwise fun a b => b.eventKey < a.eventKey

/-- Whether the `ROW_NUMBER` of `r` in its partition, newest first, is at most `n`: by
time, or under `byID` by id. `pkGroup` is how the column's collation groups keys. -/
def ranksInLatest (pkGroup : String → String) (n : ℕ) (byID : Bool)
    (rows : List (ResultRow Row)) (r : ResultRow Row) : Bool :=
  decide (rows.countP
    (fun s => pkGroup s.pkValues = pkGroup r.pkValues ∧
      if byID then r.eventID < s.eventID else r.eventKey < s.eventKey) < n)

/-- The rows of the narrow key query, before its limit. -/
def narrowKeys (pkGroup : String → String) (opts : QueryOptions Row)
    (rows : List (ResultRow Row)) : List (ResultRow Row) :=
  let found := rows.filter opts.selects
  if opts.limitPerPK = 0 then found
  else found.filter fun r =>
    ranksInLatest pkGroup opts.limitPerPK false found r ||
      opts.latestPerPKCandidates && ranksInLatest pkGroup opts.limitPerPK true found r

def fetchRows (pkGroup : String → String) (opts : QueryOptions Row)
    (rows : List (ResultRow Row)) : List (ResultRow Row) :=
  capAt opts.limit (orderRows opts.order (narrowKeys pkGroup opts rows))

def LiveIndex.fetch (pkGroup : String → String) (index : LiveIndex Row)
    (opts : QueryOptions Row) : List (ResultRow Row) :=
  fetchRows pkGroup opts index.rows

/-! ## What it returns -/

theorem orderRows_perm (order : Direction) (rows : List (ResultRow Row)) :
    (orderRows order rows).Perm rows := by
  cases order with
  | asc | desc => exact perm_insertionSort _ rows

theorem orderRows_inKeyOrder (order : Direction) (nodup : (rows.map ResultRow.eventID).Nodup) :
    InKeyOrder order (orderRows order rows) := by
  have keys : ((orderRows order rows).map ResultRow.eventKey).Nodup := by
    refine eventKeys_nodup ?_
    exact ((orderRows_perm order rows).map ResultRow.eventID).nodup_iff.mpr nodup
  cases order with
  | asc =>
    have total : Std.Total fun a b : ResultRow Row => a.eventKey ≤ b.eventKey :=
      ⟨fun a b => le_total _ _⟩
    have trans : IsTrans (ResultRow Row) fun a b => a.eventKey ≤ b.eventKey :=
      ⟨fun _ _ _ => le_trans⟩
    exact pairwise_key_lt (pairwise_insertionSort _ rows) keys
  | desc =>
    have total : Std.Total fun a b : ResultRow Row => b.eventKey ≤ a.eventKey :=
      ⟨fun a b => le_total _ _⟩
    have trans : IsTrans (ResultRow Row) fun a b => b.eventKey ≤ a.eventKey :=
      ⟨fun _ _ _ ab bc => le_trans bc ab⟩
    have sorted : (orderRows .desc rows).Pairwise fun a b => b.eventKey ≤ a.eventKey :=
      pairwise_insertionSort _ rows
    have apart := pairwise_map.mp keys
    exact sorted.imp₂ (fun _ _ le ne => lt_of_le_of_ne le ne.symm) apart

/-- Rows in order are what ordering any permutation of them gives. -/
theorem orderRows_eq_of_perm {order : Direction} {ordered : List (ResultRow Row)}
    (perm : rows.Perm ordered) (inOrder : InKeyOrder order ordered) :
    orderRows order rows = ordered := by
  cases order with
  | asc => exact insertionSort_eq_of_perm perm inOrder
  | desc =>
    have dual : ordered.Pairwise fun a b =>
        OrderDual.toDual a.eventKey < OrderDual.toDual b.eventKey := inOrder
    exact insertionSort_eq_of_perm perm dual

theorem orderRows_congr (order : Direction) {rows' : List (ResultRow Row)}
    (perm : rows.Perm rows') (nodup : (rows'.map ResultRow.eventID).Nodup) :
    orderRows order rows = orderRows order rows' :=
  orderRows_eq_of_perm (perm.trans (orderRows_perm order rows').symm)
    (orderRows_inKeyOrder order nodup)

theorem InKeyOrder.sublist {order : Direction} (inOrder : InKeyOrder order rows)
    (sub : part.Sublist rows) : InKeyOrder order part := by
  cases order with
  | asc | desc => exact List.Pairwise.sublist sub inOrder

theorem narrowKeys_sublist (pkGroup : String → String) (opts : QueryOptions Row)
    (rows : List (ResultRow Row)) :
    (narrowKeys pkGroup opts rows).Sublist (rows.filter opts.selects) := by
  unfold narrowKeys
  dsimp only
  split
  · exact List.Sublist.refl _
  · exact filter_sublist

theorem fetchRows_subperm (pkGroup : String → String) (opts : QueryOptions Row)
    (rows : List (ResultRow Row)) :
    (fetchRows pkGroup opts rows).Subperm (rows.filter opts.selects) :=
  (capAt_sublist opts.limit _).subperm.trans
    ((orderRows_perm opts.order _).subperm.trans (narrowKeys_sublist pkGroup opts rows).subperm)

theorem mem_of_mem_fetchRows {pkGroup : String → String} {r : ResultRow Row}
    (member : r ∈ fetchRows pkGroup opts rows) : r ∈ rows ∧ opts.selects r = true :=
  mem_filter.mp ((fetchRows_subperm pkGroup opts rows).subset member)

theorem narrowKeys_nodup (pkGroup : String → String) (opts : QueryOptions Row)
    (nodup : (rows.map ResultRow.eventID).Nodup) :
    ((narrowKeys pkGroup opts rows).map ResultRow.eventID).Nodup :=
  (((narrowKeys_sublist pkGroup opts rows).trans filter_sublist).map _).nodup nodup

theorem fetchRows_nodup (pkGroup : String → String) (opts : QueryOptions Row)
    (nodup : (rows.map ResultRow.eventID).Nodup) :
    ((fetchRows pkGroup opts rows).map ResultRow.eventID).Nodup := by
  refine ((capAt_sublist opts.limit _).map ResultRow.eventID).nodup ?_
  refine ((orderRows_perm opts.order _).map ResultRow.eventID).nodup_iff.mpr ?_
  exact narrowKeys_nodup pkGroup opts nodup

theorem fetchRows_inKeyOrder (pkGroup : String → String) (opts : QueryOptions Row)
    (nodup : (rows.map ResultRow.eventID).Nodup) :
    InKeyOrder opts.order (fetchRows pkGroup opts rows) := by
  refine (orderRows_inKeyOrder opts.order ?_).sublist (capAt_sublist opts.limit _)
  exact narrowKeys_nodup pkGroup opts nodup

/-- Of elements with different keys, at most `n` have fewer than `n` of them above. -/
theorem length_le_of_few_above {n : ℕ} (same : ResultRow Row → Prop) [DecidablePred same]
    (sub : part.Sublist rows) (nodup : (part.map ResultRow.eventID).Nodup)
    (each : ∀ r ∈ part, same r)
    (few : ∀ r ∈ part, rows.countP (fun s => same s ∧ r.eventKey < s.eventKey) < n) :
    part.length ≤ n := by
  have perm := orderRows_perm .asc part
  have sorted : InKeyOrder .asc (orderRows .asc part) := orderRows_inKeyOrder .asc nodup
  -- The least of them has all the others above it.
  cases ordered : orderRows .asc part with
  | nil => simp [← perm.length_eq, ordered]
  | cons least rest =>
    rw [ordered] at perm sorted
    have above : ∀ s ∈ rest, least.eventKey < s.eventKey := (pairwise_cons.mp sorted).1
    have all : rest.countP (fun s => same s ∧ least.eventKey < s.eventKey) = rest.length := by
      refine countP_eq_length.mpr fun s member => ?_
      have here : s ∈ part := perm.mem_iff.mp (mem_cons_of_mem least member)
      exact decide_eq_true ⟨each s here, above s member⟩
    have fewer := few least (perm.mem_iff.mp mem_cons_self)
    have lower : rest.countP (fun s => same s ∧ least.eventKey < s.eventKey) ≤
        rows.countP fun s => same s ∧ least.eventKey < s.eventKey :=
      calc rest.countP _ ≤ (least :: rest).countP _ := (sublist_cons_self least rest).countP_le
        _ = part.countP _ := perm.countP_eq _
        _ ≤ rows.countP _ := sub.countP_le
    rw [← perm.length_eq, length_cons]
    omega

/-- The per-key cap leaves at most `limitPerPK` rows of each key. -/
theorem countP_pk_fetchRows_le (pkGroup : String → String) (capped : opts.limitPerPK ≠ 0)
    (whole : opts.latestPerPKCandidates = false) (nodup : (rows.map ResultRow.eventID).Nodup)
    (pk : String) :
    (fetchRows pkGroup opts rows).countP (fun r => r.pkValues = pk) ≤ opts.limitPerPK := by
  have kept : (fetchRows pkGroup opts rows).Subperm (narrowKeys pkGroup opts rows) :=
    (capAt_sublist opts.limit _).subperm.trans (orderRows_perm opts.order _).subperm
  refine (kept.countP_le _).trans ?_
  rw [countP_eq_length_filter]
  refine length_le_of_few_above (fun s => pkGroup s.pkValues = pkGroup pk)
    (filter_sublist.trans (narrowKeys_sublist pkGroup opts rows))
    ((filter_sublist.map _).nodup (narrowKeys_nodup pkGroup opts nodup)) ?_ ?_
  · intro r member
    exact congrArg pkGroup (of_decide_eq_true (mem_filter.mp member).2)
  · intro r member
    obtain ⟨listed, named⟩ := mem_filter.mp member
    have ranked :
        ranksInLatest pkGroup opts.limitPerPK false (rows.filter opts.selects) r = true := by
      simp only [narrowKeys, capped, whole, if_false, Bool.false_and, Bool.or_false] at listed
      exact (mem_filter.mp listed).2
    rw [← of_decide_eq_true named]
    simpa [ranksInLatest] using ranked

end Dbtrail
