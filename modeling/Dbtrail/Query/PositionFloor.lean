import Dbtrail.Query.BinlogOrder
import Dbtrail.Query.Fetch

/-!
# The time floor under a position

A fetch that starts at a binlog position also carries a time, which becomes a floor under
the event timestamps so that partitions and archives can be left out. An event is dated
with the start of its statement, so one after the position can be older than that time:
`PartitionHeads.sinceFor` moves the time back to where the newest position of each
partition, and the recorded newest position of each archive, show that such an event can
be.

`sinceFor_sound` says that no event at or after the position is below the floor that results,
and that the fetch with it returns the rows of the fetch without any. It rests on what the
options say of the snapshot they continue (`SnapshotTrue`).
-/

namespace Dbtrail

open List

variable {Row : Type}

/-! ## Coordinates -/

/-- No order relates an LSN to a binlog coordinate, and the answer is always yes. So the
middle one decides only where it is of the kind of the last. -/
theorem BinlogPos.atOrBefore_trans {p q r : BinlogPos} (kind : q.isLSN = r.isLSN)
    (pq : p.atOrBefore q = true) (qr : q.atOrBefore r = true) : p.atOrBefore r = true := by
  by_cases same : p.isLSN = q.isLSN
  · cases lsn : q.isLSN with
    | true =>
      rw [lsn] at same kind
      simp only [BinlogPos.atOrBefore, same, lsn, ← kind, Bool.and_self, if_true,
        decide_eq_true_eq] at pq qr ⊢
      exact pq.trans qr
    | false =>
      rw [lsn] at same kind
      rw [BinlogPos.atOrBefore_iff_key same lsn] at pq
      rw [BinlogPos.atOrBefore_iff_key lsn kind.symm] at qr
      rw [BinlogPos.atOrBefore_iff_key same kind.symm]
      exact pq.trans qr
  · rw [kind] at same
    unfold BinlogPos.atOrBefore
    cases pKind : p.isLSN <;> cases rKind : r.isLSN <;> simp_all

/-! ## Partitions of the live index -/

structure LivePartition (Row : Type) : Type where
  name : String
  /-- The upper bound; none is `MAXVALUE`. -/
  upper : Option ℤ
  rows : List (ResultRow Row)

/-- The rows of each partition are at or above the bound of the one before it. -/
def PlacedFrom : Option ℤ → List (LivePartition Row) → Prop
  | _, [] => True
  | lower, p :: parts =>
      (∀ bound ∈ lower, ∀ r ∈ p.rows, bound ≤ r.eventTimestamp) ∧ PlacedFrom p.upper parts

/-- `binlog_events` as it is partitioned. Only the last bound may be `MAXVALUE`; a table
that is not partitioned has one part with no name. -/
structure PartitionedIndex (Row : Type) : Type where
  parts : List (LivePartition Row)
  placed : PlacedFrom none parts
  bounded : ∀ p ∈ parts.dropLast, p.upper ≠ none
  names_nodup : (parts.map LivePartition.name).Nodup
  named : ∀ p ∈ parts, p.name = "" → parts = [p]

def PartitionedIndex.rows (index : PartitionedIndex Row) : List (ResultRow Row) :=
  index.parts.flatMap LivePartition.rows

structure PartitionHead : Type where
  name : String
  /-- The lowest timestamp the partition can hold; the first has no lower bound. -/
  lower : ℤ
  isOpen : Bool
  isEmpty : Bool
  /-- Where the row with the highest id starts, unless it has no coordinate. -/
  pos : BinlogPos
  unknown : Bool
  deriving DecidableEq, Repr

def LivePartition.head (p : LivePartition Row) (lower : ℤ) (isOpen : Bool) : PartitionHead :=
  match p.rows.argmax ResultRow.eventID with
  | none => ⟨p.name, lower, isOpen, true, ⟨"", 0⟩, false⟩
  | some newest =>
      if newest.binlogFile = "" then ⟨p.name, lower, isOpen, false, ⟨"", 0⟩, true⟩
      else ⟨p.name, lower, isOpen, false, newest.startCoord, false⟩

def headsFrom : ℤ → Bool → List (LivePartition Row) → List PartitionHead
  | _, _, [] => []
  | prev, first, p :: parts => p.head prev first :: headsFrom (p.upper.getD prev) false parts

/-! ## Archives -/

/-- A row of `archive_state`. `label` is the hour its partition is named after. -/
structure ArchiveRecord : Type where
  label : Option ℤ
  minEventTS : Option ℤ := none
  maxEventID : Option ℕ := none
  maxBinlogFile : Option String := none
  maxStartPos : ℕ := 0
  archivedAt : ℤ
  deriving DecidableEq, Repr

structure ArchiveHead : Type where
  lower : ℤ
  recorded : Bool
  pos : Option BinlogPos
  archivedAt : ℤ
  deriving DecidableEq, Repr

/-- `loadArchiveHeads` for one record; a name that is not an hour is skipped. -/
def ArchiveRecord.head (a : ArchiveRecord) : Option ArchiveHead :=
  a.label.map fun label =>
    { lower := (a.minEventTS.filter fun t => decide (t < label)).getD label
      recorded := a.maxEventID.isSome
      pos :=
        if a.maxEventID.isSome then
          (a.maxBinlogFile.filter fun file => file != "").map fun file => ⟨file, a.maxStartPos⟩
        else none
      archivedAt := a.archivedAt }

/-- Whether `a` is strictly after `b`, as the rotation compares the coordinates of a file. -/
def laterCoordinate (a b : BinlogPos) : Bool :=
  if a.isLSN && b.isLSN then decide (b.pos < a.pos)
  else if a.file.utf8ByteSize ≠ b.file.utf8ByteSize then
    decide (b.file.utf8ByteSize < a.file.utf8ByteSize)
  else if a.file ≠ b.file then decide (b.file < a.file)
  else decide (b.pos < a.pos)

/-- Fold one row into the newest coordinate of a file. -/
def newestAdd (newest : Option BinlogPos) (r : ResultRow Row) : Option BinlogPos :=
  if r.binlogFile = "" then newest
  else
    match newest with
    | none => some r.startCoord
    | some top => if laterCoordinate r.startCoord top then some r.startCoord else some top

/-- What the rotation records of the rows it archives. -/
def newestCoordinate (rows : List (ResultRow Row)) : Option BinlogPos := rows.foldl newestAdd none

def archiveWrittenMargin : ℤ := hour

def fileIndexingMargin : ℤ := hour

/-- The cut of an earlier refresh, where it can be one. -/
def usableCheckedThrough (anchor : BinlogPos) (checked untilPos : Option BinlogPos) :
    Option BinlogPos :=
  checked.filter fun cut =>
    binlogBaseName cut.file == binlogBaseName anchor.file && untilPos.all (cut.atOrBefore ·)

/-- Whether an archive may hold an event at or after the anchor that the snapshot has not
seen. -/
def ArchiveHead.mayHold (a : ArchiveHead) (since : ℤ) (anchor : BinlogPos)
    (checked : Option BinlogPos) : Bool :=
  let written := decide (since - archiveWrittenMargin ≤ a.archivedAt)
  if a.recorded = false then written
  else
    match a.pos, checked with
    | none, _ => false
    | some pos, none =>
        pos.isLSN ||
          if binlogBaseName pos.file ≠ binlogBaseName anchor.file then written
          else written && anchor.atOrBefore pos
    | some pos, some cut =>
        pos.isLSN || (if anchor.atOrBefore cut then cut else anchor).atOrBefore pos

/-- The oldest time among the archives that the floor leaves out and that may hold such an
event; none where there is no such archive. -/
def archivesMayHold (archives : List ArchiveHead) (since : ℤ) (anchor : BinlogPos)
    (checked : Option BinlogPos) : Option ℤ :=
  ((archives.filter fun a =>
    decide (a.lower < coarseSinceFloor since) && a.mayHold since anchor checked).map
      ArchiveHead.lower).min?

/-! ## The picture -/

structure PartitionHeads : Type where
  parts : List PartitionHead
  streamCaptured : Bool
  lastFileIndexed : Option ℤ
  fileIndexingUnfinished : Bool
  archives : List ArchiveHead
  deriving DecidableEq, Repr

/-- What the index records of its writers. -/
structure IndexWriters : Type where
  streamCaptured : Bool
  lastFileIndexed : Option ℤ
  fileIndexingUnfinished : Bool
  deriving DecidableEq, Repr

def loadPartitionHeads (index : PartitionedIndex Row) (archives : List ArchiveRecord)
    (writers : IndexWriters) : PartitionHeads where
  parts := headsFrom zeroTime true index.parts
  streamCaptured := writers.streamCaptured
  lastFileIndexed := writers.lastFileIndexed
  fileIndexingUnfinished := writers.fileIndexingUnfinished
  archives := archives.filterMap ArchiveRecord.head

def writersKeepBinlogOrder (streamCaptured fileIndexingUnfinished : Bool)
    (lastFileIndexed : Option ℤ) (since : ℤ) : Bool :=
  if !streamCaptured || lastFileIndexed.isNone && !fileIndexingUnfinished then true
  else if fileIndexingUnfinished then false
  else lastFileIndexed.all fun last => decide (last < since - fileIndexingMargin)

def PartitionHeads.orderProven (h : PartitionHeads) (since : ℤ) : Bool :=
  writersKeepBinlogOrder h.streamCaptured h.fileIndexingUnfinished h.lastFileIndexed since

/-- Whether the floor leaves out some of the partition, and it may hold an event at or
after the anchor. -/
def PartitionHead.isBelow (p : PartitionHead) (proven : Bool) (since : ℤ) (anchor : BinlogPos) :
    Bool :=
  !p.isEmpty && (p.isOpen || decide (p.lower < coarseSinceFloor since)) &&
    (!proven || p.unknown || anchor.atOrBefore p.pos)

def PartitionHeads.below (h : PartitionHeads) (since : ℤ) (anchor : BinlogPos) : List String :=
  (h.parts.filter fun p => p.isBelow (h.orderProven since) since anchor).map PartitionHead.name

/-- The rows of the named partitions. -/
def PartitionedIndex.partition (index : PartitionedIndex Row) (names : List String) :
    List (ResultRow Row) :=
  if names.head? = some "" then index.rows
  else (index.parts.filter fun p => decide (p.name ∈ names)).flatMap LivePartition.rows

/-- The options' table, where they name one. -/
def QueryOptions.ofTable (opts : QueryOptions Row) (r : ResultRow Row) : Bool :=
  (opts.schema == "" || r.schemaName == opts.schema) &&
    (opts.table == "" || r.tableName == opts.table)

/-- The times of the table's rows below the floor, in the partitions to be read. -/
def PartitionHeads.oldTimes (h : PartitionHeads) (index : PartitionedIndex Row)
    (opts : QueryOptions Row) (since : ℤ) (anchor : BinlogPos) : List ℤ :=
  ((index.partition (h.below since anchor)).filter fun r =>
    decide (r.eventTimestamp < coarseSinceFloor since) && opts.ofTable r).map
      ResultRow.eventTimestamp

def PartitionHeads.archivesBelow (h : PartitionHeads) (since : ℤ) (anchor : BinlogPos)
    (checked untilPos : Option BinlogPos) : Option ℤ :=
  archivesMayHold h.archives since anchor (usableCheckedThrough anchor checked untilPos)

/-- The time the fetch starts from: its own, or the oldest that the partitions and archives
make it reach. -/
def PartitionHeads.sinceFor (h : PartitionHeads) (index : PartitionedIndex Row)
    (opts : QueryOptions Row) : Option ℤ :=
  match opts.since, opts.sincePos with
  | some since, some anchor =>
      let oldest :=
        if h.below since anchor = [] then none else (h.oldTimes index opts since anchor).min?
      let archFrom := h.archivesBelow since anchor opts.archivesCheckedThrough opts.untilPos
      some ((oldest.merge min archFrom).getD since)
  | since, _ => since

/-! ## Partitions below the floor -/

/-- Ids follow the order of the binary log among the rows that have a coordinate. -/
def FollowsBinlog (rows : List (ResultRow Row)) : Prop :=
  ∀ r ∈ rows, ∀ s ∈ rows, r.binlogFile ≠ "" → s.binlogFile ≠ "" → r.eventID ≤ s.eventID →
    r.startCoord.isLSN = s.startCoord.isLSN ∧ r.startCoord.atOrBefore s.startCoord = true

theorem LivePartition.head_name (p : LivePartition Row) (lower : ℤ) (isOpen : Bool) :
    (p.head lower isOpen).name = p.name := by
  unfold LivePartition.head
  repeat' split
  all_goals rfl

/-- Each partition has its head in the picture, with a bound under its rows. -/
theorem exists_head {parts : List (LivePartition Row)} {lower : Option ℤ} {prev : ℤ} {first : Bool}
    (link : first = false → lower = some prev) (placed : PlacedFrom lower parts)
    (bounded : ∀ p ∈ parts.dropLast, p.upper ≠ none) {p : LivePartition Row} (member : p ∈ parts) :
    ∃ (low : ℤ) (isOpen : Bool), p.head low isOpen ∈ headsFrom prev first parts ∧
      (isOpen = false → ∀ r ∈ p.rows, low ≤ r.eventTimestamp) := by
  induction parts generalizing lower prev first with
  | nil => cases member
  | cons q parts ih =>
    rcases mem_cons.mp member with rfl | later
    · refine ⟨prev, first, mem_cons_self, fun closed r held => ?_⟩
      exact placed.1 prev (link closed) r held
    · obtain ⟨next, rest, rfl⟩ := exists_cons_of_ne_nil (ne_nil_of_mem later)
      obtain ⟨bound, isBound⟩ := Option.ne_none_iff_exists'.mp
        (bounded q (by rw [dropLast_cons_cons]; exact mem_cons_self))
      obtain ⟨low, isOpen, listed, above⟩ := ih
        (fun _ => by rw [isBound]; rfl : (false = false) →
          q.upper = some (q.upper.getD prev)) placed.2
        (fun t held => bounded t (by
          rw [dropLast_cons_cons]
          exact mem_cons_of_mem q held)) later
      exact ⟨low, isOpen, mem_cons_of_mem _ listed, above⟩

section Below

variable {index : PartitionedIndex Row} {records : List ArchiveRecord} {writers : IndexWriters}
  {since : ℤ} {anchor : BinlogPos}

/-- A partition that holds an event at or after the anchor and below the floor is read. -/
theorem mem_below
    (follows : (loadPartitionHeads index records writers).orderProven since = true →
      ∀ p ∈ index.parts, FollowsBinlog p.rows)
    {p : LivePartition Row} (member : p ∈ index.parts) {r : ResultRow Row} (held : r ∈ p.rows)
    (named : r.binlogFile ≠ "") (after : anchor.atOrBefore r.startCoord = true)
    (older : r.eventTimestamp < coarseSinceFloor since) :
    p.name ∈ (loadPartitionHeads index records writers).below since anchor := by
  obtain ⟨low, isOpen, listed, above⟩ : ∃ (low : ℤ) (isOpen : Bool),
      p.head low isOpen ∈ headsFrom zeroTime true index.parts ∧ _ :=
    exists_head (fun closed => absurd closed (by simp)) index.placed index.bounded member
  refine mem_map.mpr ⟨p.head low isOpen, mem_filter.mpr ⟨listed, ?_⟩, p.head_name _ _⟩
  have reaches : (isOpen || decide (low < coarseSinceFloor since)) = true := by
    cases isOpen with
    | true => rfl
    | false =>
      have under := above rfl r held
      exact decide_eq_true (by omega)
  unfold LivePartition.head
  cases newest : p.rows.argmax ResultRow.eventID with
  | none =>
    rw [argmax_eq_none.mp newest] at held
    cases held
  | some top =>
    have isTop : top ∈ p.rows := argmax_mem newest
    dsimp only
    split
    next => simpa [PartitionHead.isBelow] using reaches
    next topNamed =>
      cases proven : (loadPartitionHeads index records writers).orderProven since with
      | false => simpa [PartitionHead.isBelow] using reaches
      | true =>
        obtain ⟨kind, le⟩ := follows proven p member r held top isTop named topNamed
          (le_of_mem_argmax held newest)
        simpa [PartitionHead.isBelow, BinlogPos.atOrBefore_trans kind after le] using reaches

theorem mem_partition {names : List String} {p : LivePartition Row} (member : p ∈ index.parts)
    (listed : p.name ∈ names) {r : ResultRow Row} (held : r ∈ p.rows) :
    r ∈ index.partition names := by
  unfold PartitionedIndex.partition
  split
  · exact mem_flatMap.mpr ⟨p, member, held⟩
  · exact mem_flatMap.mpr ⟨p, mem_filter.mpr ⟨member, decide_eq_true listed⟩, held⟩

end Below

/-! ## Archives below the floor -/

structure ArchivedFile (Row : Type) : Type where
  record : ArchiveRecord
  rows : List (ResultRow Row)

/-- The record is true of the file: its bound is under the rows, and the newest coordinate,
where one is recorded, at or after theirs. -/
def ArchivedFile.RecordTrue (f : ArchivedFile Row) : Prop :=
  ∃ head, f.record.head = some head ∧ (∀ r ∈ f.rows, head.lower ≤ r.eventTimestamp) ∧
    (head.recorded = true → ∀ r ∈ f.rows, r.binlogFile ≠ "" → ∃ pos, head.pos = some pos ∧
      (pos.isLSN = true ∨
        r.startCoord.isLSN = false ∧ r.startCoord.atOrBefore pos = true))

/-- What the options say of the snapshot they continue is true of the archived events at or
after its position: without a cut, or without a record, an archive that holds one was
written after the snapshot, less the margin; with a cut, they are at or after the cut. -/
def SnapshotTrue (opts : QueryOptions Row) (since : ℤ) (anchor : BinlogPos)
    (files : List (ArchivedFile Row)) : Prop :=
  ∀ f ∈ files, ∀ r ∈ f.rows, opts.ofTable r = true → anchor.atOrBefore r.startCoord = true →
    (f.record.maxEventID = none ∨
        usableCheckedThrough anchor opts.archivesCheckedThrough opts.untilPos = none →
      since - archiveWrittenMargin ≤ f.record.archivedAt) ∧
    ∀ cut ∈ usableCheckedThrough anchor opts.archivesCheckedThrough opts.untilPos,
      anchor.atOrBefore cut = true → cut.atOrBefore r.startCoord = true

theorem mayHold_of_snapshotTrue {opts : QueryOptions Row} {since : ℤ} {anchor : BinlogPos}
    {files : List (ArchivedFile Row)} (saw : SnapshotTrue opts since anchor files)
    {f : ArchivedFile Row} (member : f ∈ files) {head : ArchiveHead}
    (isHead : f.record.head = some head)
    (newest : head.recorded = true → ∀ r ∈ f.rows, r.binlogFile ≠ "" → ∃ pos,
      head.pos = some pos ∧ (pos.isLSN = true ∨
        r.startCoord.isLSN = false ∧ r.startCoord.atOrBefore pos = true))
    {r : ResultRow Row} (held : r ∈ f.rows) (ofTable : opts.ofTable r = true)
    (named : r.binlogFile ≠ "") (after : anchor.atOrBefore r.startCoord = true) :
    head.mayHold since anchor
      (usableCheckedThrough anchor opts.archivesCheckedThrough opts.untilPos) = true := by
  obtain ⟨written, cutBefore⟩ := saw f member r held ofTable after
  have recorded : head.recorded = f.record.maxEventID.isSome := by
    obtain ⟨label, -, rfl⟩ := Option.map_eq_some_iff.mp isHead
    rfl
  have archivedAt : head.archivedAt = f.record.archivedAt := by
    obtain ⟨label, -, rfl⟩ := Option.map_eq_some_iff.mp isHead
    rfl
  unfold ArchiveHead.mayHold
  rw [archivedAt]
  dsimp only
  split
  next unrecorded =>
    rw [recorded, Option.isSome_eq_false_iff, Option.isNone_iff_eq_none] at unrecorded
    exact decide_eq_true (written (.inl unrecorded))
  next isRecorded =>
    obtain ⟨pos, isPos, bound⟩ := newest (by simpa using isRecorded) r held named
    rw [isPos]
    rcases bound with lsn | ⟨binlog, below⟩
    · cases usableCheckedThrough anchor opts.archivesCheckedThrough opts.untilPos with
      | none | some => simp [lsn]
    · by_cases lsn : pos.isLSN = true
      · cases usableCheckedThrough anchor opts.archivesCheckedThrough opts.untilPos with
        | none | some => simp [lsn]
      · have kind : r.startCoord.isLSN = pos.isLSN := by
          rw [binlog, Bool.eq_false_iff.mpr lsn]
        cases checked : usableCheckedThrough anchor opts.archivesCheckedThrough opts.untilPos with
        | none =>
          have late := written (.inr checked)
          simp [late, BinlogPos.atOrBefore_trans kind after below]
        | some cut =>
          dsimp only
          refine Bool.or_eq_true_iff.mpr (.inr ?_)
          split
          next isAfter =>
            exact BinlogPos.atOrBefore_trans kind (cutBefore cut checked isAfter) below
          next => exact BinlogPos.atOrBefore_trans kind after below

/-! ## The floor -/

/-- The names under which the anchored predicate and `atOrBefore` mean the same: ASCII, as a
binlog's are, and none missing where the anchor is an LSN. -/
structure PlainNames (anchor : BinlogPos) (rows : List (ResultRow Row)) : Prop where
  ascii : ∀ r ∈ rows, AsciiName r.binlogFile
  anchorAscii : AsciiName anchor.file
  anchorNamed : anchor.file ≠ ""
  lsnNamed : anchor.isLSN = true → ∀ r ∈ rows, r.binlogFile ≠ ""

theorem atOrBefore_of_selectsSincePos {anchor : BinlogPos} {rows : List (ResultRow Row)}
    (names : PlainNames anchor rows) {r : ResultRow Row} (member : r ∈ rows)
    (selected : QueryOptions.selectsSincePos anchor r = true) :
    r.binlogFile ≠ "" ∧ anchor.atOrBefore r.startCoord = true := by
  have given := selected
  unfold QueryOptions.selectsSincePos at selected
  split at selected
  next lsn =>
    refine ⟨names.lsnNamed lsn r member, ?_⟩
    unfold BinlogPos.atOrBefore
    cases kind : r.startCoord.isLSN with
    | true =>
      rw [lsn, Bool.and_self, if_pos rfl]
      exact selected
    | false => simp [lsn]
  next binlog =>
    have notLSN := Bool.eq_false_iff.mpr binlog
    have since := (QueryOptions.selectsSincePos_iff notLSN).mp given
    constructor
    · rintro empty
      rw [empty] at since
      rcases since with before | ⟨same, -⟩
      · simp only [fileBefore, Bool.or_eq_true, Bool.and_eq_true, decide_eq_true_eq] at before
        rcases before with longer | ⟨same, -⟩
        · simp at longer
        · exact names.anchorNamed (String.length_eq_zero_iff.mp same)
      · exact names.anchorNamed same.symm
    · cases kind : r.startCoord.isLSN with
      | true => simp [BinlogPos.atOrBefore, notLSN, kind]
      | false =>
        exact (BinlogPos.atOrBefore_iff_file notLSN kind names.anchorAscii
          (names.ascii r member)).mpr (since.imp_right fun here => ⟨here.1.symm, here.2⟩)

section Floor

variable {index : PartitionedIndex Row} {files : List (ArchivedFile Row)} {writers : IndexWriters}
  {opts : QueryOptions Row} {since : ℤ} {anchor : BinlogPos} {r : ResultRow Row}

/-- Where the time moves, it moves below the floor it had. -/
theorem lt_floor_of_archivesBelow {h : PartitionHeads} {checked untilPos : Option BinlogPos}
    {from_ : ℤ} (isFrom : from_ ∈ h.archivesBelow since anchor checked untilPos) :
    from_ < coarseSinceFloor since := by
  obtain ⟨head, listed, rfl⟩ := mem_map.mp (min?_eq_some_iff.mp isFrom).1
  have reads := (mem_filter.mp listed).2
  rw [Bool.and_eq_true] at reads
  exact of_decide_eq_true reads.1

theorem lt_floor_of_mem_oldTimes {h : PartitionHeads} {t : ℤ}
    (member : t ∈ h.oldTimes index opts since anchor) : t < coarseSinceFloor since := by
  obtain ⟨r, listed, rfl⟩ := mem_map.mp member
  have reads := (mem_filter.mp listed).2
  rw [Bool.and_eq_true] at reads
  exact of_decide_eq_true reads.1

section Loaded

variable {heads : PartitionHeads}
  (isHeads : heads = loadPartitionHeads index (files.map ArchivedFile.record) writers)

include isHeads

theorem mem_oldTimes
    (follows : heads.orderProven since = true → ∀ p ∈ index.parts, FollowsBinlog p.rows)
    (member : r ∈ index.rows) (ofTable : opts.ofTable r = true)
    (named : r.binlogFile ≠ "") (after : anchor.atOrBefore r.startCoord = true)
    (older : r.eventTimestamp < coarseSinceFloor since) :
    heads.below since anchor ≠ [] ∧
      r.eventTimestamp ∈ heads.oldTimes index opts since anchor := by
  subst isHeads
  obtain ⟨p, part, held⟩ := mem_flatMap.mp member
  have listed := mem_below follows part held named after older
  refine ⟨ne_nil_of_mem listed, mem_map_of_mem (mem_filter.mpr
    ⟨mem_partition part listed held, ?_⟩)⟩
  rw [ofTable, Bool.and_true]
  exact decide_eq_true older

theorem exists_archivesBelow_le (recordsTrue : ∀ f ∈ files, f.RecordTrue)
    (saw : SnapshotTrue opts since anchor files) (member : r ∈ files.flatMap ArchivedFile.rows)
    (ofTable : opts.ofTable r = true) (named : r.binlogFile ≠ "")
    (after : anchor.atOrBefore r.startCoord = true)
    (older : r.eventTimestamp < coarseSinceFloor since) :
    ∃ from_,
      heads.archivesBelow since anchor opts.archivesCheckedThrough opts.untilPos = some from_ ∧
        from_ ≤ r.eventTimestamp := by
  obtain ⟨f, file, held⟩ := mem_flatMap.mp member
  obtain ⟨head, isHead, lower, newest⟩ := recordsTrue f file
  have under := lower r held
  have loaded : head ∈ heads.archives := by
    rw [isHeads]
    exact mem_filterMap.mpr ⟨f.record, mem_map_of_mem file, isHead⟩
  obtain ⟨least, isLeast, le⟩ : ∃ m, heads.archivesBelow since anchor opts.archivesCheckedThrough
      opts.untilPos = some m ∧ m ≤ head.lower := by
    refine exists_min?_le (mem_map_of_mem (mem_filter.mpr ⟨loaded, ?_⟩))
    rw [Bool.and_eq_true]
    exact ⟨decide_eq_true (by omega),
      mayHold_of_snapshotTrue saw file isHead newest held ofTable named after⟩
  exact ⟨least, isLeast, le.trans under⟩

/-- The floor that the picture gives is under every event at or after the anchor. -/
theorem floor_le_of_after (isSince : opts.since = some since)
    (isAnchor : opts.sincePos = some anchor)
    (follows : heads.orderProven since = true → ∀ p ∈ index.parts, FollowsBinlog p.rows)
    (recordsTrue : ∀ f ∈ files, f.RecordTrue) (saw : SnapshotTrue opts since anchor files) :
    ∃ from_, heads.sinceFor index opts = some from_ ∧
      ∀ r ∈ index.rows ++ files.flatMap ArchivedFile.rows, opts.ofTable r = true →
        r.binlogFile ≠ "" → anchor.atOrBefore r.startCoord = true →
        coarseSinceFloor from_ ≤ r.eventTimestamp := by
  unfold PartitionHeads.sinceFor
  rw [isSince, isAnchor]
  refine ⟨_, rfl, fun r member ofTable named after => ?_⟩
  by_cases older : r.eventTimestamp < coarseSinceFloor since
  · -- The partition or the archive that holds the event is reached.
    refine (coarseSinceFloor_le _).trans ?_
    have reached : ∃ t, t ≤ r.eventTimestamp ∧
        (t ∈ (if heads.below since anchor = [] then none
            else (heads.oldTimes index opts since anchor).min?) ∨
          t ∈ heads.archivesBelow since anchor opts.archivesCheckedThrough opts.untilPos) := by
      rcases mem_append.mp member with live | archived
      · obtain ⟨some_, listed⟩ := mem_oldTimes isHeads follows live ofTable named after older
        obtain ⟨m, least, le⟩ := exists_min?_le listed
        rw [if_neg some_]
        exact ⟨m, le, .inl least⟩
      · obtain ⟨from_, isFrom, le⟩ :=
          exists_archivesBelow_le isHeads recordsTrue saw archived ofTable named after older
        exact ⟨from_, le, .inr isFrom⟩
    obtain ⟨t, le, isOne⟩ := reached
    obtain ⟨m, merged, least⟩ := exists_merge_min_le isOne
    rw [merged, Option.getD_some]
    exact least.trans le
  · cases merged : (Option.merge min _ _ : Option ℤ) with
    | none => exact not_lt.mp older
    | some m =>
      have below : m < coarseSinceFloor since := by
        rcases mem_of_mem_merge min_choice merged with live | archived
        · split at live
          · cases live
          · exact lt_floor_of_mem_oldTimes (min?_eq_some_iff.mp live).1
        · exact lt_floor_of_archivesBelow archived
      have under := coarseSinceFloor_le m
      rw [Option.getD_some]
      omega

end Loaded

theorem selects_since (opts : QueryOptions Row) (from_ : Option ℤ) (r : ResultRow Row) :
    ({ opts with since := from_ } : QueryOptions Row).selects r =
      (({ opts with since := none } : QueryOptions Row).selects r &&
        ({ opts with since := from_ } : QueryOptions Row).selectsSince r) := by
  have untimed : ({ opts with since := none } : QueryOptions Row).selectsSince r = true := rfl
  simp only [QueryOptions.selects, untimed, QueryOptions.selectsPK, QueryOptions.selectsUntil]
  grind

/-- A fetch over rows that its time does not tell apart. -/
theorem fetchRows_since_congr (pkGroup : String → String) {rows : List (ResultRow Row)}
    {from_ : Option ℤ}
    (same : ∀ r ∈ rows, ({ opts with since := from_ } : QueryOptions Row).selects r =
      ({ opts with since := none } : QueryOptions Row).selects r) :
    fetchRows pkGroup { opts with since := from_ } rows =
      fetchRows pkGroup { opts with since := none } rows := by
  have found : rows.filter ({ opts with since := from_ } : QueryOptions Row).selects =
      rows.filter ({ opts with since := none } : QueryOptions Row).selects :=
    filter_congr same
  simp only [fetchRows, narrowKeys, found]

end Floor

/-- No event at or after the anchor, however old, is below the floor of the anchored fetch,
and each source returns with the floor what it returns without. -/
theorem sinceFor_sound (index : PartitionedIndex Row) (files : List (ArchivedFile Row))
    (writers : IndexWriters) (opts : QueryOptions Row) (since : ℤ) (anchor : BinlogPos)
    (isSince : opts.since = some since) (isAnchor : opts.sincePos = some anchor)
    (follows : (loadPartitionHeads index (files.map ArchivedFile.record) writers).orderProven
      since = true → ∀ p ∈ index.parts, FollowsBinlog p.rows)
    (recordsTrue : ∀ f ∈ files, f.RecordTrue) (saw : SnapshotTrue opts since anchor files) :
    ∃ from_, (loadPartitionHeads index (files.map ArchivedFile.record) writers).sinceFor index
        opts = some from_ ∧
      (∀ r ∈ index.rows ++ files.flatMap ArchivedFile.rows, opts.ofTable r = true →
        r.binlogFile ≠ "" → anchor.atOrBefore r.startCoord = true →
        coarseSinceFloor from_ ≤ r.eventTimestamp) ∧
      (PlainNames anchor (index.rows ++ files.flatMap ArchivedFile.rows) →
        ∀ (pkGroup : String → String) (rows : List (ResultRow Row)),
          (∀ r ∈ rows, r ∈ index.rows ++ files.flatMap ArchivedFile.rows) →
          fetchRows pkGroup { opts with since := some from_ } rows =
            fetchRows pkGroup { opts with since := none } rows) := by
  obtain ⟨from_, isFrom, under⟩ :=
    floor_le_of_after rfl isSince isAnchor follows recordsTrue saw
  refine ⟨from_, isFrom, under, fun names pkGroup rows stored => ?_⟩
  refine fetchRows_since_congr pkGroup fun r member => ?_
  rw [selects_since, Bool.and_eq_left_iff_imp]
  intro selected
  have anchored : QueryOptions.selectsSincePos anchor r = true := by
    simp only [QueryOptions.selects, isAnchor, Option.all_some, Bool.and_eq_true] at selected
    tauto
  have ofTable : opts.ofTable r = true := by
    simp only [QueryOptions.selects, Bool.and_eq_true] at selected
    rw [QueryOptions.ofTable, Bool.and_eq_true]
    tauto
  obtain ⟨named, after⟩ := atOrBefore_of_selectsSincePos names (stored r member) anchored
  simp only [QueryOptions.selectsSince, isAnchor, Option.isSome_some, if_true]
  exact decide_eq_true (under r (stored r member) ofTable named after)

/-! ## The newest coordinate of a file -/

theorem laterCoordinate_iff_key {a b : BinlogPos} (ha : a.isLSN = false) (hb : b.isLSN = false) :
    laterCoordinate a b = true ↔ b.key < a.key := by
  simp only [BinlogPos.key, Prod.Lex.toLex_lt_toLex]
  unfold laterCoordinate
  rw [ha, hb]
  by_cases len : a.file.utf8ByteSize = b.file.utf8ByteSize
  · by_cases file : a.file = b.file
    · simp [file]
    · simp [len, file, Ne.symm file]
  · simp [len, Ne.symm len]

/-- A coordinate of a binlog, with its file named. -/
def BinlogPos.isBinlog (p : BinlogPos) : Prop := p.isLSN = false ∧ p.file ≠ ""

/-- Keep the later of two coordinates. -/
def laterOf (top : Option BinlogPos) (c : BinlogPos) : Option BinlogPos :=
  match top with
  | none => some c
  | some t => if laterCoordinate c t then some c else some t

/-- The later of each two is the first that is greatest, under a key that orders them alike. -/
theorem foldl_laterOf_eq_argmax {κ : Type*} [LinearOrder κ] {key : BinlogPos → κ}
    {coords : List BinlogPos}
    (later : ∀ a ∈ coords, ∀ b ∈ coords, laterCoordinate a b = true ↔ key b < key a) :
    coords.foldl laterOf none = coords.argmax key := by
  have step : ∀ rest : List BinlogPos, (∀ c ∈ rest, c ∈ coords) → ∀ top : Option BinlogPos,
      (∀ t ∈ top, t ∈ coords) →
      rest.foldl laterOf top = rest.foldl (argAux fun b c => key c < key b) top := by
    intro rest
    induction rest with
    | nil => exact fun _ _ _ => rfl
    | cons c rest ih =>
      intro among top isTop
      have own := among c mem_cons_self
      have same : laterOf top c = argAux (fun b c => key c < key b) top c := by
        cases top with
        | none => rfl
        | some t => exact if_congr (later c own t (isTop t rfl)) rfl rfl
      rw [foldl_cons, foldl_cons, same]
      refine ih (fun d held => among d (mem_cons_of_mem c held)) _ fun t isNext => ?_
      rw [← same] at isNext
      cases top with
      | none => exact Option.some.inj isNext ▸ own
      | some u =>
        dsimp only [laterOf] at isNext
        split at isNext
        · exact Option.some.inj isNext ▸ own
        · exact isTop t isNext
  exact step coords (fun _ held => held) none fun _ none_ => (nomatch none_)

theorem newestCoordinate_eq {rows : List (ResultRow Row)}
    (binlog : ∀ r ∈ rows, r.startCoord.isLSN = false) :
    newestCoordinate rows =
      ((rows.filter fun r => r.binlogFile ≠ "").map ResultRow.startCoord).argmax BinlogPos.key := by
  have kind : ∀ c ∈ (rows.filter fun r => r.binlogFile ≠ "").map ResultRow.startCoord,
      c.isLSN = false :=
    forall_mem_map.mpr fun r held => binlog r (mem_of_mem_filter held)
  rw [← foldl_laterOf_eq_argmax fun a own b other =>
    laterCoordinate_iff_key (kind a own) (kind b other), foldl_map, foldl_filter]
  unfold newestCoordinate
  congr 1
  funext newest r
  by_cases unnamed : r.binlogFile = ""
  · simp [newestAdd, unnamed]
  · simp [newestAdd, laterOf, unnamed]

/-- The record a rotation writes for a binlog's rows is true of the file. -/
theorem recordTrue_of_newestCoordinate {f : ArchivedFile Row} {label : ℤ}
    (labelled : f.record.label = some label)
    (above : ∀ r ∈ f.rows, label ≤ r.eventTimestamp ∨
      ∃ oldest ∈ f.record.minEventTS, oldest ≤ r.eventTimestamp)
    (binlog : ∀ r ∈ f.rows, r.startCoord.isLSN = false)
    (newest : f.record.maxBinlogFile.map (⟨·, f.record.maxStartPos⟩) = newestCoordinate f.rows) :
    f.RecordTrue := by
  rw [newestCoordinate_eq binlog] at newest
  refine ⟨_, Option.map_eq_some_iff.mpr ⟨label, labelled, rfl⟩, fun r held => ?_, ?_⟩
  · show (f.record.minEventTS.filter fun t => decide (t < label)).getD label ≤ r.eventTimestamp
    cases oldest : f.record.minEventTS with
    | none =>
      rcases above r held with low | ⟨t, isOldest, -⟩
      · exact low
      · exact absurd (oldest ▸ isOldest) (by simp)
    | some t =>
      have low := above r held
      simp only [oldest, Option.mem_def, Option.some.injEq, exists_eq_left'] at low
      rw [Option.filter_some]
      split
      next lt =>
        have := of_decide_eq_true lt
        simp only [Option.getD_some]
        omega
      next ge =>
        simp only [decide_eq_true_eq, not_lt] at ge
        simp only [Option.getD_none]
        omega
  · intro recorded r held file
    have own : r.startCoord ∈
        (f.rows.filter fun r => r.binlogFile ≠ "").map ResultRow.startCoord :=
      mem_map_of_mem (mem_filter.mpr ⟨held, decide_eq_true file⟩)
    obtain ⟨last, isLast⟩ := Option.ne_none_iff_exists'.mp
      (argmax_eq_none (f := BinlogPos.key).not.mpr (ne_nil_of_mem own))
    have le := le_of_mem_argmax own isLast
    obtain ⟨top, inFile, isTop⟩ := mem_map.mp (argmax_mem isLast)
    obtain ⟨topHeld, isNamed⟩ := mem_filter.mp inFile
    have own : last.isBinlog := isTop ▸ ⟨binlog top topHeld, of_decide_eq_true isNamed⟩
    rw [← newest] at isLast
    obtain ⟨name, isName, rfl⟩ := Option.map_eq_some_iff.mp isLast
    refine ⟨⟨name, f.record.maxStartPos⟩, ?_, .inr ⟨binlog r held, ?_⟩⟩
    · have isRecorded : f.record.maxEventID.isSome = true := recorded
      have kept : (some name).filter (fun file => file != "") = some name := by
        simpa using own.2
      simp only [isRecorded, if_true, isName, kept, Option.map_some]
    · exact (BinlogPos.atOrBefore_iff_key (binlog r held) own.1).mpr le

/-! ## A late event in an archive -/

def lateEvent : ResultRow Unit where
  eventID := 7
  binlogFile := "b.1"
  startPos := 200
  endPos := 250
  eventTimestamp := 5 * hour
  eventType := .update
  pkValues := "k"

/-- An archive of hour 5, its newest coordinate recorded. -/
def lateFile (archivedAt : ℤ) : ArchivedFile Unit where
  record :=
    { label := some (5 * hour), minEventTS := some (5 * hour), maxEventID := some 7,
      maxBinlogFile := some "b.1", maxStartPos := 200, archivedAt := archivedAt }
  rows := [lateEvent]

def emptyIndex : PartitionedIndex Unit where
  parts := [⟨"p_future", none, []⟩]
  placed := ⟨fun _ none_ => (nomatch none_), trivial⟩
  bounded := by decide
  names_nodup := by decide
  named := by simp

def streamOnly : IndexWriters := ⟨true, none, false⟩

def afterSnapshot (since : ℤ) : QueryOptions Unit :=
  { since := some since, sincePos := some ⟨"b.1", 100⟩ }

theorem lateFile_recordTrue (archivedAt : ℤ) : (lateFile archivedAt).RecordTrue :=
  recordTrue_of_newestCoordinate rfl (by simp [lateFile, lateEvent]) (by
    intro r held
    rw [mem_singleton.mp held]
    decide) rfl

/-- The snapshot's time is hour 12 and the archive, written in hour 8, holds an event after
its position: the floor leaves the event out. -/
theorem lateFile_left_out :
    let h := loadPartitionHeads emptyIndex [(lateFile (8 * hour)).record] streamOnly
    (lateFile (8 * hour)).RecordTrue ∧
      (⟨"b.1", 100⟩ : BinlogPos).atOrBefore lateEvent.startCoord = true ∧
      h.sinceFor emptyIndex (afterSnapshot (12 * hour)) = some (12 * hour) ∧
      lateEvent.eventTimestamp < coarseSinceFloor (12 * hour) ∧
      fetchRows id (afterSnapshot (12 * hour)) [lateEvent] = [] ∧
      fetchRows id { afterSnapshot (12 * hour) with since := none } [lateEvent] = [lateEvent] := by
  exact ⟨lateFile_recordTrue _, by decide⟩

/-- A late event that is live. -/
def liveEvent : ResultRow Unit :=
  { lateEvent with eventID := 8, startPos := 300, endPos := 350, eventTimestamp := 6 * hour }

def lateIndex : PartitionedIndex Unit where
  parts := [⟨"p_6", some (7 * hour), [liveEvent]⟩, ⟨"p_future", none, []⟩]
  placed := ⟨fun _ none_ => (nomatch none_), fun _ _ _ held => (nomatch held), trivial⟩
  bounded := by decide
  names_nodup := by decide
  named := by simp

/-- Written after the snapshot, the archive's event is reached, and so is the live one. -/
theorem lateFile_reached :
    ∃ from_, (loadPartitionHeads lateIndex [(lateFile (13 * hour)).record] streamOnly).sinceFor
        lateIndex (afterSnapshot (12 * hour)) = some from_ ∧
      coarseSinceFloor from_ ≤ lateEvent.eventTimestamp ∧
      coarseSinceFloor from_ ≤ liveEvent.eventTimestamp ∧
      fetchRows id { afterSnapshot (12 * hour) with since := some from_ } [lateEvent, liveEvent] =
        fetchRows id { afterSnapshot (12 * hour) with since := none } [lateEvent, liveEvent] := by
  obtain ⟨from_, isFrom, under, same⟩ := sinceFor_sound lateIndex [lateFile (13 * hour)] streamOnly
    (afterSnapshot (12 * hour)) (12 * hour) ⟨"b.1", 100⟩ rfl rfl
    (by unfold FollowsBinlog; decide)
    (by
      intro f member
      rw [mem_singleton.mp member]
      exact lateFile_recordTrue _)
    (by unfold SnapshotTrue; decide)
  refine ⟨from_, isFrom, under lateEvent (by decide) rfl (by decide) (by decide),
    under liveEvent (by decide) rfl (by decide) (by decide), ?_⟩
  exact same ⟨by decide, by decide, by decide, by decide⟩ id _ (by decide)

end Dbtrail
