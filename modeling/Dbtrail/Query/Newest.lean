import Dbtrail.Query.MergedSources

/-!
# Newest rows, partition by partition

A fetch of the newest rows walks the partitions of the live index from the last one back and
stops once it has enough rows (`walkNewest`), in place of one statement that sorts the whole
index. `EventLayout` is the table's partitioning: bounds on the value of an expression, of whose
text the code looks for two words. Statements hand their rows back in any order (`deliver`), and
`fold` is the collation of the name columns.

Of one partition, the scans per table read what a statement over the whole partition reads
(`buildNewestBranches_eq`).
-/

namespace Dbtrail

open List

variable {Row : Type}

/-! ## The partitions -/

/-- MySQL's `TO_SECONDS`. -/
def toSeconds (t : ℤ) : ℤ := t / second + 62167219200

/-- A `VALUES LESS THAN` bound as `information_schema` describes it. -/
inductive BoundText : Type where
  | maxValue
  | integer (n : ℤ)
  | other
  deriving DecidableEq, Repr

structure PartitionDef : Type where
  name : String
  bound : BoundText
  deriving DecidableEq, Repr

/-- A partitioning by ranges of an expression. -/
structure EventLayout (Row : Type) : Type where
  defs : List PartitionDef
  named : (defs.map PartitionDef.name).Nodup
  /-- The row's value is below the bound of the partition with this number. -/
  below : ResultRow Row → ℕ → Bool
  unbounded : ∀ r i d, defs[i]? = some d → d.bound = .maxValue → below r i = true
  isRange : Bool
  subpartitioned : Bool
  /-- The expression's text contains `event_timestamp`. -/
  onTimestamp : Bool
  /-- The expression's text contains `to_seconds`. -/
  onSeconds : Bool

/-- The names in order, with their bounds where all are known, `none` for `MAXVALUE`. -/
structure EventPartitions : Type where
  names : List String
  uppers : Option (List (Option ℤ))
  deriving DecidableEq, Repr

namespace EventLayout

/-- The bound a description stands for, as a value of `TO_SECONDS`. -/
def upper (l : EventLayout Row) : BoundText → Option (Option ℤ)
  | .maxValue => some none
  | .integer n => if l.onSeconds then some (some n) else none
  | .other => none

/-- The partitions as they are listed, and whether their order is taken for time order. -/
def listEventPartitions (l : EventLayout Row) : EventPartitions × Bool :=
  ({ names := l.defs.map PartitionDef.name
     uppers := l.defs.mapM fun d => l.upper d.bound },
    l.defs.all fun _ => !l.subpartitioned && l.isRange && l.onTimestamp)

/-- The first partition whose bound is above the row's value. -/
def place (l : EventLayout Row) (r : ResultRow Row) : Option ℕ :=
  (List.range l.defs.length).find? (l.below r)

end EventLayout

/-- The live index in its partitions. -/
structure EventTable (Row : Type) : Type where
  layout : EventLayout Row
  index : LiveIndex Row
  fits : ∀ r ∈ index.rows, (layout.place r).isSome = true

/-- The rows of a partition, `none` for an unknown one. -/
def EventTable.partition (t : EventTable Row) (name : String) : Option (List (ResultRow Row)) :=
  (t.layout.defs.findIdx? fun d => d.name == name).map fun i =>
    t.index.rows.filter fun r => t.layout.place r == some i

/-! ## Options -/

/-- The options of a fetch with what the walk looks at besides them: the event type, whether
another key or an unsafe column is among the filters, and the number of the filters' values. -/
structure PageOptions (Row : Type) : Type where
  base : QueryOptions Row
  eventType : Option EventType := none
  keyed : Bool := false
  filterArgs : ℕ := 0

namespace PageOptions

/-- The options with the event type among the row filters. -/
def query (o : PageOptions Row) : QueryOptions Row :=
  { o.base with rowFilter := fun r => o.base.rowFilter r && o.eventType.all (r.eventType == ·) }

def newestWalkEligible (o : PageOptions Row) : Bool :=
  decide (0 < o.base.limit) && o.base.order == .desc && o.base.limitPerPK == 0 &&
    !o.base.latestPerPKCandidates && (o.base.schema == "" || o.base.table == "") &&
    o.base.pkValues == "" && o.base.pkValuesIn.isEmpty && o.base.eventAnchor.isNone && !o.keyed

/-- The seconds the fetch's own time bounds admit. -/
def newestWindow (o : PageOptions Row) : Option ℤ × Option ℤ :=
  let floor := o.base.since.map fun since =>
    toSeconds (if o.base.sincePos.isSome then coarseSinceFloor since else since)
  let untilCeil := o.base.untilTime.map fun t => toSeconds t + 1
  let beforeCeil := o.base.beforeEvent.map fun e => toSeconds e.timestamp + 1
  (floor, match untilCeil, beforeCeil with
    | some a, some b => some (min a b)
    | some a, none => some a
    | none, b => b)

end PageOptions

/-! ## The walk -/

inductive StepError : Type where
  | unknownPartition
  | tableDefChanged
  | missingIndex
  | tooManyPlaceholders
  | other
  deriving DecidableEq, Repr

inductive WalkStage : Type where
  | listing
  | reading
  deriving DecidableEq, Repr

/-- The statements that fail, by partition. -/
abbrev StepFailures : Type := String → WalkStage → Option StepError

inductive WalkOutcome (Row : Type) : Type where
  | done (rows : List (ResultRow Row))
  | relist
  | fallBack
  | withoutTypeIndex
  | failed

def newestBranchTables : ℕ := 64

def newestMaxPlaceholders : ℕ := 60000

def branchPlaceholders (tables filterArgs : ℕ) : ℕ := tables * (3 + filterArgs) + 1

section Walk

variable (fold : String → String) (deliver : List (ResultRow Row) → List (ResultRow Row))
  (o : PageOptions Row) (typeIdx : Bool)

/-- The table of a row, as the collation compares it. -/
def tableGroup (r : ResultRow Row) : String × String := (fold r.schemaName, fold r.tableName)

/-- The tables a partition holds rows for, narrowed by the filters an index answers. -/
def partitionTables (rows : List (ResultRow Row)) : List (String × String) :=
  let listed := fun r : ResultRow Row =>
    (!typeIdx || o.eventType.all (r.eventType == ·)) &&
      (if o.base.schema ≠ "" then fold r.schemaName == fold o.base.schema
        else if o.base.table ≠ "" then fold r.tableName == fold o.base.table
        else true)
  ((rows.filter listed).map (tableGroup fold)).dedup

/-- The newest rows of one partition, by one statement over it. -/
def newestOf (limit : ℕ) (rows : List (ResultRow Row)) : List (ResultRow Row) :=
  capAt limit (orderRows .desc (rows.filter o.query.selects))

/-- The newest rows of one partition, by one short scan per table. -/
def buildNewestBranches (limit : ℕ) (tables : List (String × String))
    (rows : List (ResultRow Row)) : List (ResultRow Row) :=
  capAt limit (orderRows .desc (tables.flatMap fun st =>
    newestOf o limit (rows.filter fun r => tableGroup fold r == st)))

def readPartition (limit : ℕ) (tables : List (String × String)) (rows : List (ResultRow Row)) :
    List (ResultRow Row) :=
  deliver <|
    if tables.length ≤ newestBranchTables ∧
        branchPlaceholders tables.length o.filterArgs ≤ newestMaxPlaceholders then
      buildNewestBranches fold o limit tables rows
    else newestOf o limit rows

/-- A page without a row is left to the single statement, unless the listing was narrowed to the
event type. -/
def endWalk (out : List (ResultRow Row)) (read : Bool) : WalkOutcome Row :=
  if !read && !(typeIdx && o.eventType.isSome) then .fallBack else .done out

variable (table : EventTable Row) (fail : StepFailures) (parts : EventPartitions)

/-- The partition and every older one end before the window. -/
def endsBefore (i : ℕ) : Bool :=
  parts.uppers.any fun uppers => o.newestWindow.1.any fun floor =>
    (uppers.getD i none).any fun upper => decide (upper ≤ floor)

/-- The partition starts after the window. -/
def startsAfter (i : ℕ) : Bool :=
  decide (0 < i) && parts.uppers.any fun uppers => o.newestWindow.2.any fun ceil =>
    (uppers.getD (i - 1) none).all fun upper => decide (ceil ≤ upper)

/-- The walk over the partitions below the given one, with the rows read so far. -/
def walkFrom : ℕ → List (ResultRow Row) → Bool → WalkOutcome Row
  | 0, out, read => endWalk o typeIdx out read
  | i + 1, out, read =>
      if o.base.limit ≤ out.length then endWalk o typeIdx out read
      else if endsBefore o parts i then endWalk o typeIdx out read
      else if startsAfter o parts i then walkFrom i out read
      else
        let part := parts.names.getD i ""
        match fail part .listing, table.partition part with
        | some .unknownPartition, _ => .relist
        | some .tableDefChanged, _ => .relist
        | some _, _ => .failed
        | none, none => .relist
        | none, some rows =>
            let tables := partitionTables fold o typeIdx rows
            if tables = [] then walkFrom i out read
            else
              match fail part .reading with
              | some .unknownPartition => .relist
              | some .tableDefChanged => .relist
              | some .missingIndex =>
                  if typeIdx && o.eventType.isSome then .withoutTypeIndex else .fallBack
              | some .tooManyPlaceholders => .fallBack
              | some .other => .failed
              | none =>
                  walkFrom i
                    (out ++ readPartition fold deliver o (o.base.limit - out.length) tables rows)
                    true

def walkNewest : WalkOutcome Row :=
  walkFrom fold deliver o typeIdx table fail parts parts.names.length [] false

end Walk

/-! ## The fetch -/

def newestWalkAttempts : ℕ := 3

/-- One try: the partitions as they are listed before and after the walk, and the snapshot the
walk reads. A list that is the same twice is that of the snapshot. -/
structure WalkAttempt (Row : Type) : Type where
  table : EventTable Row
  listed : EventPartitions × Bool
  again : EventPartitions
  fail : StepFailures
  steady : listed.1 = again → listed = table.layout.listEventPartitions

inductive NewestFetch (Row : Type) : Type where
  | walked (rows : List (ResultRow Row))
  | single
  | failed

section Fetch

variable (fold pkGroup : String → String) (deliver : List (ResultRow Row) → List (ResultRow Row))
  (o : PageOptions Row) (env : ℕ → WalkAttempt Row)

/-- `n` tries more, from the `k`-th one. -/
def fetchNewestByPartition : ℕ → ℕ → Bool → NewestFetch Row
  | 0, _, _ => .single
  | n + 1, k, typeIdx =>
      let a := env k
      if a.listed.1.names = [] ∨ a.listed.2 = false then .single
      else
        match walkNewest fold deliver o typeIdx a.table a.fail a.listed.1 with
        | .failed => .failed
        | .relist => fetchNewestByPartition n (k + 1) typeIdx
        | .withoutTypeIndex => fetchNewestByPartition n (k + 1) false
        | .fallBack => .single
        | .done rows =>
            if a.listed.1 = a.again then .walked rows
            else fetchNewestByPartition n (k + 1) typeIdx

/-- `Fetch`, with `last` the index the single statement reads. -/
def fetchNewest (typeIdx : Bool) (last : EventTable Row) : Option (List (ResultRow Row)) :=
  let fetched :=
    if o.newestWalkEligible then
      fetchNewestByPartition fold deliver o env newestWalkAttempts 0 (typeIdx && o.eventType.isSome)
    else .single
  match fetched with
  | .failed => none
  | .walked rows => some (orderRows o.base.order rows)
  | .single =>
      some (orderRows o.base.order (deliver (fetchRows pkGroup o.query last.index.rows)))

end Fetch

/-! ## One partition -/

theorem toSeconds_mono {a b : ℤ} (le : a ≤ b) : toSeconds a ≤ toSeconds b := by
  have quotients := Int.ediv_le_ediv (show (0 : ℤ) < second by decide) le
  unfold toSeconds
  omega

section Rows

variable {o : PageOptions Row} {r : ResultRow Row}

theorem PageOptions.floor_le (selected : o.query.selects r = true) {floor : ℤ}
    (bound : o.newestWindow.1 = some floor) : floor ≤ toSeconds r.eventTimestamp := by
  have since := QueryOptions.selectsSince_of_selects selected
  obtain ⟨start, given, rfl⟩ := Option.map_eq_some_iff.mp bound
  have given' : o.query.since = some start := given
  refine toSeconds_mono ?_
  simp only [QueryOptions.selectsSince, given'] at since
  have same : o.query.sincePos = o.base.sincePos := rfl
  rw [same] at since
  split at since
  next coarse =>
    rw [if_pos coarse]
    exact of_decide_eq_true since
  next exact_ =>
    rw [if_neg exact_]
    exact of_decide_eq_true (Bool.and_eq_true_iff.mp since).2

theorem PageOptions.lt_ceil (selected : o.query.selects r = true) {ceil : ℤ}
    (bound : o.newestWindow.2 = some ceil) : toSeconds r.eventTimestamp < ceil := by
  have inUntil : ∀ last, o.base.untilTime = some last → r.eventTimestamp ≤ last := by
    intro last given
    have given' : o.query.untilTime = some last := given
    simp only [QueryOptions.selects, Bool.and_eq_true, QueryOptions.selectsUntil, given',
      decide_eq_true_eq] at selected
    tauto
  have inBefore : ∀ cursor, o.base.beforeEvent = some cursor →
      r.eventTimestamp ≤ cursor.timestamp := by
    intro cursor given
    have given' : o.query.beforeEvent = some cursor := given
    simp only [QueryOptions.selects, Bool.and_eq_true, given', Option.all_some,
      QueryOptions.selectsBefore, Bool.or_eq_true, decide_eq_true_eq, beq_iff_eq] at selected
    omega
  have last := fun t given => toSeconds_mono (inUntil t given)
  have cursor := fun e given => toSeconds_mono (inBefore e given)
  unfold newestWindow at bound
  dsimp only at bound
  cases isUntil : o.base.untilTime with
  | none =>
    cases isBefore : o.base.beforeEvent with
    | none => simp [isUntil, isBefore] at bound
    | some e =>
      simp only [isUntil, isBefore, Option.map_none, Option.map_some, Option.some.injEq]
        at bound
      have := cursor e isBefore
      omega
  | some t =>
    have := last t isUntil
    cases isBefore : o.base.beforeEvent with
    | none =>
      simp only [isUntil, isBefore, Option.map_none, Option.map_some, Option.some.injEq]
        at bound
      omega
    | some e =>
      simp only [isUntil, isBefore, Option.map_some, Option.some.injEq] at bound
      have := cursor e isBefore
      omega

variable {fold : String → String} {typeIdx : Bool} {rows : List (ResultRow Row)}

/-- No selected row is outside the tables listed. -/
theorem tableGroup_mem_partitionTables (member : r ∈ rows) (selected : o.query.selects r = true) :
    tableGroup fold r ∈ partitionTables fold o typeIdx rows := by
  simp only [QueryOptions.selects, Bool.and_eq_true, Bool.or_eq_true, beq_iff_eq,
    PageOptions.query] at selected
  refine mem_dedup.mpr (mem_map_of_mem (mem_filter.mpr ⟨member, ?_⟩))
  rw [Bool.and_eq_true]
  refine ⟨Bool.or_eq_true_iff.mpr (Or.inr selected.2.2), ?_⟩
  split
  next named =>
    have same : r.schemaName = o.base.schema := by tauto
    rw [same, beq_self_eq_true]
  next =>
    split
    next named =>
      have same : r.tableName = o.base.table := by tauto
      rw [same, beq_self_eq_true]
    next => rfl

variable {limit : ℕ}

/-- The rows of a table that its scan reads are its latest ones. -/
theorem mem_newestOf_group_iff (nodup : (rows.map ResultRow.eventID).Nodup) (some_ : limit ≠ 0)
    {st : String × String} :
    r ∈ newestOf o limit (rows.filter fun s => tableGroup fold s == st) ↔
      tableGroup fold r = st ∧
        r ∈ (rows.filter o.query.selects).filter
          (isLatest (tableGroup fold) limit (rows.filter o.query.selects)) := by
  have part : (((rows.filter fun s => tableGroup fold s == st).filter o.query.selects).map
      ResultRow.eventID).Nodup :=
    ((filter_sublist.trans filter_sublist).map _).nodup nodup
  rw [newestOf, mem_capAt_orderRows_iff part, mem_filter, mem_filter, mem_filter,
    mem_filter, isLatest, beq_iff_eq, countP_filter, countP_filter,
    countP_filter]
  simp only [some_, false_or, Direction.before, Bool.or_eq_true, beq_iff_eq, decide_eq_true_eq]
  constructor
  · rintro ⟨⟨⟨member, rfl⟩, selected⟩, few⟩
    refine ⟨rfl, ⟨member, selected⟩, lt_of_le_of_lt (countP_mono_left ?_) few⟩
    intro s _ held
    simp only [Bool.and_eq_true, decide_eq_true_eq] at held
    simp [held]
  · rintro ⟨rfl, ⟨member, selected⟩, few⟩
    refine ⟨⟨⟨member, rfl⟩, selected⟩, lt_of_le_of_lt (countP_mono_left ?_) few⟩
    intro s _ held
    simp only [Bool.and_eq_true, decide_eq_true_eq, beq_iff_eq] at held
    simp [held]

/-- A row among the newest has fewer than the limit above it, of any table and of its own. -/
theorem capAt_orderRows_latest {γ : Type} [DecidableEq γ] (group : ResultRow Row → γ)
    (nodup : (rows.map ResultRow.eventID).Nodup) (some_ : limit ≠ 0) :
    capAt limit (orderRows .desc (rows.filter (isLatest group limit rows))) =
      capAt limit (orderRows .desc rows) := by
  have latestNodup : ((rows.filter (isLatest group limit rows)).map ResultRow.eventID).Nodup :=
    (filter_sublist.map _).nodup nodup
  have left := (orderRows_inKeyOrder .desc latestNodup).sublist (capAt_sublist limit _)
  have right := (orderRows_inKeyOrder .desc nodup).sublist (capAt_sublist limit _)
  have keyed : (rows.map ResultRow.eventKey).Nodup := eventKeys_nodup nodup
  have latest_of_few : ∀ s, rows.countP (fun t => True ∧ s.eventKey < t.eventKey) < limit →
      isLatest group limit rows s = true := by
    intro s few
    refine Bool.or_eq_true_iff.mpr (Or.inr (decide_eq_true (lt_of_le_of_lt ?_ few)))
    refine countP_mono_left fun t _ held => ?_
    exact decide_eq_true ⟨trivial, (of_decide_eq_true held).2⟩
  have same : ∀ r, r ∈ capAt limit (orderRows .desc (rows.filter (isLatest group limit rows))) ↔
      r ∈ capAt limit (orderRows .desc rows) := by
    intro r
    rw [mem_capAt_orderRows_iff latestNodup, mem_capAt_orderRows_iff nodup, mem_filter,
      countP_filter]
    simp only [some_, false_or, Direction.before]
    constructor
    · rintro ⟨⟨member, -⟩, few⟩
      refine ⟨member, Nat.not_le.mp fun many => ?_⟩
      have many' : limit ≤ rows.countP fun s => True ∧ r.eventKey < s.eventKey := by
        simpa using many
      have highest := le_countP_highest keyed (fun _ => True) many'
      refine Nat.not_le.mpr few (highest.trans (countP_mono_left fun s _ held => ?_))
      obtain ⟨⟨-, above⟩, rank⟩ := of_decide_eq_true held
      exact Bool.and_eq_true_iff.mpr ⟨decide_eq_true above, latest_of_few s rank⟩
    · rintro ⟨member, few⟩
      refine ⟨⟨member, latest_of_few r (by simpa using few)⟩, lt_of_le_of_lt ?_ few⟩
      exact countP_mono_left fun s _ held => (Bool.and_eq_true_iff.mp held).1
  have leftNodup : (capAt limit (orderRows .desc
      (rows.filter (isLatest group limit rows)))).Nodup :=
    (((orderRows_perm .desc _).nodup_iff.mpr (List.Nodup.of_map _ latestNodup)).sublist
      (capAt_sublist limit _))
  have rightNodup : (capAt limit (orderRows .desc rows)).Nodup :=
    (((orderRows_perm .desc _).nodup_iff.mpr (List.Nodup.of_map _ nodup)).sublist
      (capAt_sublist limit _))
  have perm := (perm_ext_iff_of_nodup leftNodup rightNodup).mpr same
  rw [← orderRows_eq_of_perm perm right, orderRows_eq_of_perm (List.Perm.refl _) left]

/-- The scans per table read what one statement over the partition reads. -/
theorem buildNewestBranches_eq (nodup : (rows.map ResultRow.eventID).Nodup) (some_ : limit ≠ 0) :
    buildNewestBranches fold o limit (partitionTables fold o typeIdx rows) rows =
      newestOf o limit rows := by
  have selectedNodup : ((rows.filter o.query.selects).map ResultRow.eventID).Nodup :=
    (filter_sublist.map _).nodup nodup
  have latestNodup : (((rows.filter o.query.selects).filter
      (isLatest (tableGroup fold) limit (rows.filter o.query.selects))).map
        ResultRow.eventID).Nodup :=
    (filter_sublist.map _).nodup selectedNodup
  have perm : ((partitionTables fold o typeIdx rows).flatMap fun st =>
      newestOf o limit (rows.filter fun r => tableGroup fold r == st)).Perm
      ((rows.filter o.query.selects).filter
        (isLatest (tableGroup fold) limit (rows.filter o.query.selects))) := by
    refine (perm_ext_iff_of_nodup ?_ (List.Nodup.of_map _ latestNodup)).mpr fun r => ?_
    · refine nodup_flatMap.mpr ⟨fun st _ => ?_, ?_⟩
      · have part : (((rows.filter fun s => tableGroup fold s == st).filter
            o.query.selects).map ResultRow.eventID).Nodup :=
          ((filter_sublist.trans filter_sublist).map _).nodup nodup
        exact ((orderRows_perm .desc _).nodup_iff.mpr (List.Nodup.of_map _ part)).sublist
          (capAt_sublist limit _)
      · refine (nodup_dedup _).imp fun {a b} apart => ?_
        intro r inA inB
        obtain ⟨rfl, -⟩ := (mem_newestOf_group_iff nodup some_).mp inA
        exact apart ((mem_newestOf_group_iff nodup some_).mp inB).1
    · rw [mem_flatMap]
      constructor
      · rintro ⟨st, -, read⟩
        exact ((mem_newestOf_group_iff nodup some_).mp read).2
      · intro latest
        obtain ⟨member, selected⟩ := mem_filter.mp (mem_filter.mp latest).1
        exact ⟨tableGroup fold r, tableGroup_mem_partitionTables member selected,
          (mem_newestOf_group_iff nodup some_).mpr ⟨rfl, latest⟩⟩
  rw [buildNewestBranches, orderRows_congr .desc perm latestNodup,
    capAt_orderRows_latest _ selectedNodup some_, newestOf]

variable {deliver : List (ResultRow Row) → List (ResultRow Row)}

theorem readPartition_perm (delivers : ∀ rows, (deliver rows).Perm rows)
    (nodup : (rows.map ResultRow.eventID).Nodup) (some_ : limit ≠ 0) :
    (readPartition fold deliver o limit (partitionTables fold o typeIdx rows) rows).Perm
      (newestOf o limit rows) := by
  refine (delivers _).trans ?_
  split
  · rw [buildNewestBranches_eq nodup some_]
  · exact List.Perm.refl _

theorem selects_eq_nil_of_no_tables (none_ : partitionTables fold o typeIdx rows = []) :
    rows.filter o.query.selects = [] := by
  refine filter_eq_nil_iff.mpr fun r member selected => ?_
  have listed : tableGroup fold r ∈ partitionTables fold o typeIdx rows :=
    tableGroup_mem_partitionTables member selected
  rw [none_] at listed
  exact not_mem_nil listed

end Rows

end Dbtrail
