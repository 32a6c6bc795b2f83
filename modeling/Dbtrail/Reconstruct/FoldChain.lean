import Dbtrail.Reconstruct.DestructiveDDL

/-!
# A chain of folds over one source

A dump is followed by folds, each from the file the one before left: rewritten, carried
forward under a new time, or kept as the base of table deltas. Each fold's check sees the
statements indexed by then, and capture may be behind by any amount. A statement one check
lets through is either past its target, and found by time from a later one, or not indexed
yet, and then past the anchor and above the mark of every file published before it is.

So no statement past the dump is folded over: `foldChain_no_destructive_ddl`.
-/

namespace Dbtrail

open List

/-! ## The source's log and the index -/

/-- A row event, or a statement with its rows of `schema_changes`, one for each table it names. -/
structure LogEntry : Type where
  startPos : BinlogPos
  endPos : BinlogPos
  ddl : List SchemaChange := []

/-- A coordinate of one binlog numbering. -/
def InSequence (base : List Char) (p : BinlogPos) : Prop :=
  p.isLSN = false ∧ binlogBase p.file = base

instance (base : List Char) (p : BinlogPos) : Decidable (InSequence base p) :=
  inferInstanceAs (Decidable (p.isLSN = false ∧ binlogBase p.file = base))

/-- The log of one source under one numbering. Statements are recorded in binlog order; the
times they carry need not follow it. -/
structure BinlogHistory : Type where
  base : List Char
  entries : List LogEntry
  numbered : ∀ e ∈ entries, InSequence base e.startPos ∧ InSequence base e.endPos
  extent : ∀ e ∈ entries, e.startPos.key ≤ e.endPos.key ∧
    (e.ddl ≠ [] → e.startPos.key < e.endPos.key)
  ordered : entries.Pairwise fun a b => a.ddl ≠ [] ∨ b.ddl ≠ [] → a.endPos.key ≤ b.startPos.key
  ids : (entries.flatMap LogEntry.ddl).Pairwise fun a b => a.id < b.id
  recorded : ∀ e ∈ entries, ∀ row ∈ e.ddl,
    row.inferred = none ∧ (row.hasPos = true → row.pos = e.endPos)

namespace BinlogHistory

variable (h : BinlogHistory)

/-- `schema_changes` once `seen` rows are written. A statement on many tables writes its rows in
several INSERTs. -/
def index (seen : ℕ) : List SchemaChange := (h.entries.flatMap LogEntry.ddl).take seen

/-- An event is indexed once the rows of the statements up to it are. -/
def Indexed (seen : ℕ) (event : LogEntry) : Prop :=
  ∃ read, event ∈ h.entries.take read ∧
    ((h.entries.take read).flatMap LogEntry.ddl).length ≤ seen

variable {h} {e : LogEntry} {row : SchemaChange} {seen : ℕ}

theorem index_mono {seen' : ℕ} (le : seen ≤ seen') (member : row ∈ h.index seen) :
    row ∈ h.index seen' :=
  (take_sublist_take_left le).subset member

/-- A statement that ends at or before a coordinate of an indexed event is indexed. -/
theorem mem_index_of_upTo {event : LogEntry} {c : BinlogPos} (member : e ∈ h.entries)
    (isDDL : row ∈ e.ddl) (indexed : h.Indexed seen event)
    (coordinate : c = event.startPos ∨ c = event.endPos) (upTo : e.endPos.key ≤ c.key) :
    row ∈ h.index seen := by
  obtain ⟨read, isRead, written⟩ := indexed
  have place := member
  rw [← take_append_drop read h.entries, mem_append] at place
  rcases place with early | later
  · rw [index, ← take_append_drop read h.entries, flatMap_append, take_append,
      take_of_length_le written]
    exact mem_append_left _ (mem_flatMap.mpr ⟨e, early, isDDL⟩)
  · exfalso
    have named : e.ddl ≠ [] := ne_nil_of_mem isDDL
    have ordered := h.ordered
    rw [← take_append_drop read h.entries, pairwise_append] at ordered
    have before := ordered.2.2 event isRead e later (.inr named)
    have nonempty := (h.extent e member).2 named
    have within : c.key ≤ event.endPos.key := by
      rcases coordinate with rfl | rfl
      · exact (h.extent event (mem_of_mem_take isRead)).1
      · exact le_rfl
    exact absurd (upTo.trans (within.trans before)) (not_le.mpr nonempty)

/-- A coordinate of an indexed event is one of the sequence, and what ends at or before it is
indexed. -/
theorem Indexed.settles {event : LogEntry} {c : BinlogPos} (indexed : h.Indexed seen event)
    (coordinate : c = event.startPos ∨ c = event.endPos) :
    InSequence h.base c ∧ ∀ e ∈ h.entries, ∀ row ∈ e.ddl, e.endPos.atOrBefore c = true →
      row ∈ h.index seen := by
  have inLog := mem_of_mem_take indexed.choose_spec.1
  have sequence : InSequence h.base c := by
    rcases coordinate with rfl | rfl
    · exact (h.numbered event inLog).1
    · exact (h.numbered event inLog).2
  refine ⟨sequence, fun e member row isDDL upTo => ?_⟩
  have le := (BinlogPos.atOrBefore_iff_key (h.numbered e member).2.1 sequence.1).mp upTo
  exact mem_index_of_upTo member isDDL indexed coordinate le

/-- The rows at or below a mark are those that were indexed when it was read. -/
theorem mem_index_of_le_mark {m : DDLMark} (member : e ∈ h.entries) (isDDL : row ∈ e.ddl)
    (mark : readDDLMark (h.index seen) = some m) (le : row.id ≤ m.id) : row ∈ h.index seen := by
  obtain ⟨newest, last, rfl⟩ := Option.map_eq_some_iff.mp mark
  have place : row ∈ h.entries.flatMap LogEntry.ddl := mem_flatMap.mpr ⟨e, member, isDDL⟩
  have ids := h.ids
  rw [← take_append_drop seen (h.entries.flatMap LogEntry.ddl)] at place ids
  refine (mem_append.mp place).resolve_right fun later => not_le.mpr ?_ le
  exact (pairwise_append.mp ids).2.2 newest (mem_of_getLast? last) row later

end BinlogHistory

/-! ## Folds -/

/-- What the next fold reads of a table's file: the time it is found under, the coordinate it
is anchored at, its DDL mark, and where the newest table delta beside it ends. -/
structure SnapshotFile : Type where
  time : ℤ
  anchor : Option BinlogPos
  mark : Option DDLMark
  delta : Option BinlogPos := none
  deriving DecidableEq, Repr

/-- How a fold publishes the table. A rewrite folds the deltas in unless they are off. A delta
keeps the base, and the first starts no later than the base's own stamp; an empty window adds
none to a chain. -/
inductive Publish : Type where
  | rewrite (tableDeltas : Bool)
  | carryForward
  | delta (snapshotTimestamp : Option ℤ) (empty : Bool)
  deriving DecidableEq, Repr

structure FoldRun : Type where
  target : ℤ
  cut : Option BinlogPos
  streamCaptured : Bool
  publish : Publish
  deriving DecidableEq, Repr

def SnapshotFile.ddlWindow (file : SnapshotFile) (run : FoldRun) : DDLWindow where
  since := file.time
  until_ := run.target
  anchor := file.anchor
  cut := run.cut
  mark := file.mark

def newChainStart (chainStart : ℤ) (snapshotTimestamp : Option ℤ) : ℤ :=
  (snapshotTimestamp.map (min chainStart)).getD chainStart

/-- The anchor of `fetchFloor`. -/
def SnapshotFile.anchorMeta (file : SnapshotFile) : Option BinlogPos := file.delta.or file.anchor

theorem newChainStart_le (chainStart : ℤ) (snapshotTimestamp : Option ℤ) :
    newChainStart chainStart snapshotTimestamp ≤ chainStart := by
  cases snapshotTimestamp with
  | none => exact le_rfl
  | some stamp => exact min_le_left _ _

def readRunDDLMark (run : FoldRun) (index : List SchemaChange) : Option DDLMark :=
  if run.streamCaptured then readDDLMark index else none

/-- The file a fold leaves. A rewrite's own empty delta is anchored where the file is. -/
def SnapshotFile.publish (file : SnapshotFile) (run : FoldRun) (stamp : Option DDLMark) :
    SnapshotFile :=
  match run.publish with
  | .rewrite tableDeltas =>
      let source := if tableDeltas then file.anchorMeta else file.anchor
      { time := run.target, anchor := run.cut.or source, mark := stamp }
  | .carryForward => { file with time := run.target, delta := none }
  | .delta snapshotTimestamp empty =>
      if file.delta.isSome then
        if empty then file else { file with delta := run.cut.or file.anchorMeta }
      else
        { file with
          time := newChainStart file.time snapshotTimestamp
          delta := run.cut.or file.anchorMeta }

/-- One fold of a table. The mark is read before the check. -/
def foldTable (markIndex checkIndex : List SchemaChange) (schema table : String)
    (file : SnapshotFile) (run : FoldRun) : Except DDLRefusal SnapshotFile := do
  checkDestructiveDDL checkIndex schema table (file.ddlWindow run)
  return file.publish run (markToStamp (readRunDDLMark run markIndex) (file.ddlWindow run))

/-- A chain's newest file, the target and the cut it was folded to, and how many
rows of `schema_changes` its check saw. -/
structure ChainState : Type where
  file : SnapshotFile
  target : ℤ
  cut : Option BinlogPos
  seen : ℕ

/-- A dump and the folds after it. What a dump finds indexed ran before it, so it is at or
before its anchor. A fold's cut is a coordinate of an indexed event. -/
inductive FoldChain (h : BinlogHistory) (schema table : String) (dumpAnchor : BinlogPos) :
    ChainState → Prop where
  | dump {time : ℤ} {seen : ℕ} {mark : Option DDLMark} (numbered : InSequence h.base dumpAnchor)
      (marked : mark = none ∨ mark = readDDLMark (h.index seen))
      (ranBefore : ∀ e ∈ h.entries, ∀ row ∈ e.ddl, row ∈ h.index seen →
        e.endPos.atOrBefore dumpAnchor = true) :
      FoldChain h schema table dumpAnchor
        ⟨⟨time, some dumpAnchor, mark, none⟩, time, none, seen⟩
  | fold {st : ChainState} (before : FoldChain h schema table dumpAnchor st) (run : FoldRun)
      (markSeen checkSeen : ℕ) {file : SnapshotFile} (laterTarget : st.target ≤ run.target)
      (laterMark : st.seen ≤ markSeen) (laterCheck : markSeen ≤ checkSeen)
      (fromIndex : ∀ c ∈ run.cut, ∃ event, h.Indexed checkSeen event ∧
        (c = event.startPos ∨ c = event.endPos))
      (passed : foldTable (h.index markSeen) (h.index checkSeen) schema table st.file run =
        .ok file) :
      FoldChain h schema table dumpAnchor ⟨file, run.target, run.cut.or st.cut, checkSeen⟩

/-- What is at or before a file's coordinate ran before the dump or was indexed. -/
def CoordinateSettled (h : BinlogHistory) (dumpAnchor : BinlogPos) (seen : ℕ) (a : BinlogPos) :
    Prop :=
  InSequence h.base a ∧ ∀ e ∈ h.entries, ∀ row ∈ e.ddl, e.endPos.atOrBefore a = true →
    e.endPos.atOrBefore dumpAnchor = true ∨ row ∈ h.index seen

/-- What holds of a chain's newest file. -/
structure ChainInv (h : BinlogHistory) (schema table : String) (dumpAnchor : BinlogPos)
    (st : ChainState) : Prop where
  anchored : st.file.anchor.isSome
  settled : ∀ a, st.file.anchor = some a ∨ st.file.delta = some a →
    CoordinateSettled h dumpAnchor st.seen a
  time_le : st.file.time ≤ st.target
  marked : ∀ m ∈ st.file.mark, ∀ e ∈ h.entries, ∀ row ∈ e.ddl, row.id ≤ m.id →
    row ∈ h.index st.seen
  cut : ∀ c ∈ st.cut, ∀ e ∈ h.entries, ∀ row ∈ e.ddl, e.endPos.atOrBefore c = true →
    row ∈ h.index st.seen
  clean : ∀ e ∈ h.entries, ∀ row ∈ e.ddl, row.removes schema table → row ∈ h.index st.seen →
    e.endPos.atOrBefore dumpAnchor = false → st.target < row.detectedAt

section Chain

variable {h : BinlogHistory} {schema table : String} {dumpAnchor : BinlogPos} {st : ChainState}

/-- A check that passed leaves no indexed statement of the table past the dump that ran at or
before the target. -/
theorem ChainInv.clean_fold (inv : ChainInv h schema table dumpAnchor st) {run : FoldRun}
    {checkSeen : ℕ}
    (passed : checkDestructiveDDL (h.index checkSeen) schema table (st.file.ddlWindow run) = .ok ())
    {e : LogEntry} (member : e ∈ h.entries) {row : SchemaChange} (isDDL : row ∈ e.ddl)
    (removes : row.removes schema table) (indexed : row ∈ h.index checkSeen)
    (past : e.endPos.atOrBefore dumpAnchor = false) : run.target < row.detectedAt := by
  by_contra early
  obtain ⟨a, atAnchor⟩ := Option.isSome_iff_exists.mp inv.anchored
  obtain ⟨numbered, beforeAnchor⟩ := inv.settled a (.inl atAnchor)
  obtain ⟨plain, position⟩ := h.recorded e member row isDDL
  obtain ⟨beforeSnapshot, marked⟩ := checkDestructiveDDL_ok passed atAnchor indexed removes plain
    (not_lt.mp early)
  -- it ran before the snapshot, so an earlier check would have found it had it been indexed
  have late : row ∉ h.index st.seen := by
    intro earlier
    have after := inv.clean e member row isDDL removes earlier past
    exact absurd (beforeSnapshot.trans inv.time_le) (not_le.mpr after)
  obtain ⟨m, isMark, le⟩ := marked fun hasPos => by
    have same := position hasPos
    refine ⟨?_, ?_⟩
    · have file : row.binlogFile = e.endPos.file := congrArg BinlogPos.file same
      rw [sameBinlogSequence, file, (h.numbered e member).2.2, numbered.2, beq_self_eq_true]
    · rw [same, Bool.eq_false_iff]
      intro upTo
      rcases beforeAnchor e member row isDDL upTo with upToDump | earlier
      · rw [upToDump] at past
        cases past
      · exact late earlier
  exact late (inv.marked m isMark e member row isDDL le)

/-- A file's coordinates are the cut or those of the file before. -/
theorem SnapshotFile.publish_coordinate {file : SnapshotFile} {run : FoldRun}
    {stamp : Option DDLMark} {a : BinlogPos} (isCoordinate :
      (file.publish run stamp).anchor = some a ∨ (file.publish run stamp).delta = some a) :
    run.cut = some a ∨ file.anchor = some a ∨ file.delta = some a := by
  have fetched : run.cut.or file.anchorMeta = some a →
      run.cut = some a ∨ file.anchor = some a ∨ file.delta = some a := by
    simp only [anchorMeta, Option.or_eq_some_iff]
    tauto
  unfold publish at isCoordinate
  split at isCoordinate
  · rcases isCoordinate with isAnchor | ⟨⟨⟩⟩
    dsimp only at isAnchor
    split_ifs at isAnchor
    · exact fetched isAnchor
    · exact (Option.or_eq_some_iff.mp isAnchor).imp_right fun old => .inl old.2
  · rcases isCoordinate with isAnchor | ⟨⟨⟩⟩
    exact .inr (.inl isAnchor)
  · split_ifs at isCoordinate
    · exact .inr isCoordinate
    · exact isCoordinate.elim (.inr ∘ .inl) fetched
    · exact isCoordinate.elim (.inr ∘ .inl) fetched

theorem SnapshotFile.publish_anchored {file : SnapshotFile} {run : FoldRun}
    {stamp : Option DDLMark} (anchored : file.anchor.isSome) :
    (file.publish run stamp).anchor.isSome := by
  unfold publish anchorMeta
  split
  · dsimp only
    split_ifs <;> simp [anchored]
  · exact anchored
  · split_ifs <;> exact anchored

theorem SnapshotFile.publish_time {file : SnapshotFile} {run : FoldRun} {stamp : Option DDLMark} :
    (file.publish run stamp).time ≤ run.target ∨ (file.publish run stamp).time ≤ file.time := by
  unfold publish
  split
  · exact .inl le_rfl
  · exact .inl le_rfl
  · split_ifs
    · exact .inr le_rfl
    · exact .inr le_rfl
    · exact .inr (newChainStart_le _ _)

theorem SnapshotFile.publish_mark {file : SnapshotFile} {run : FoldRun} {stamp : Option DDLMark} :
    (file.publish run stamp).mark = stamp ∨ (file.publish run stamp).mark = file.mark := by
  unfold publish
  split
  · exact .inl rfl
  · exact .inr rfl
  · split_ifs <;> exact .inr rfl

/-- What a fold that passed published. -/
theorem foldTable_ok {markIndex checkIndex : List SchemaChange} {file file' : SnapshotFile}
    {run : FoldRun} (passed : foldTable markIndex checkIndex schema table file run = .ok file') :
    checkDestructiveDDL checkIndex schema table (file.ddlWindow run) = .ok () ∧
      file' = file.publish run
        (markToStamp (readRunDDLMark run markIndex) (file.ddlWindow run)) := by
  unfold foldTable at passed
  cases checked : checkDestructiveDDL checkIndex schema table (file.ddlWindow run) with
  | error refusal =>
    rw [checked] at passed
    cases passed
  | ok =>
    rw [checked] at passed
    exact ⟨rfl, (Except.ok.inj passed).symm⟩

theorem markToStamp_eq_some {runMark : Option DDLMark} {w : DDLWindow} {m : DDLMark}
    (stamped : markToStamp runMark w = some m) : runMark = some m := by
  unfold markToStamp at stamped
  split at stamped
  · split at stamped
    · exact stamped
    · cases stamped
  · cases stamped

/-- One fold. -/
theorem ChainInv.fold (inv : ChainInv h schema table dumpAnchor st) {run : FoldRun}
    {markSeen checkSeen : ℕ} {file : SnapshotFile} (laterTarget : st.target ≤ run.target)
    (laterMark : st.seen ≤ markSeen) (laterCheck : markSeen ≤ checkSeen)
    (fromIndex : ∀ c ∈ run.cut, ∃ event, h.Indexed checkSeen event ∧
      (c = event.startPos ∨ c = event.endPos))
    (passed : foldTable (h.index markSeen) (h.index checkSeen) schema table st.file run =
      .ok file) :
    ChainInv h schema table dumpAnchor ⟨file, run.target, run.cut.or st.cut, checkSeen⟩ := by
  obtain ⟨checked, rfl⟩ := foldTable_ok passed
  have still : ∀ row, row ∈ h.index st.seen → row ∈ h.index checkSeen := fun row member =>
    BinlogHistory.index_mono (laterMark.trans laterCheck) member
  have cutIndexed : ∀ c ∈ run.cut, InSequence h.base c ∧ ∀ e ∈ h.entries, ∀ row ∈ e.ddl,
      e.endPos.atOrBefore c = true → row ∈ h.index checkSeen := by
    intro c isCut
    obtain ⟨event, indexed, coordinate⟩ := fromIndex c isCut
    exact indexed.settles coordinate
  refine
    { anchored := SnapshotFile.publish_anchored inv.anchored
      settled := ?_
      time_le := ?_
      marked := ?_
      cut := ?_
      clean := fun e member row isDDL removes indexed past =>
        inv.clean_fold checked member isDDL removes indexed past }
  · intro a isCoordinate
    rcases SnapshotFile.publish_coordinate isCoordinate with isCut | old
    · obtain ⟨sequence, indexed⟩ := cutIndexed a isCut
      exact ⟨sequence, fun e member row isDDL upTo => .inr (indexed e member row isDDL upTo)⟩
    · obtain ⟨sequence, before⟩ := inv.settled a old
      exact ⟨sequence, fun e member row isDDL upTo =>
        (before e member row isDDL upTo).imp_right (still row)⟩
  · exact SnapshotFile.publish_time.elim id fun early =>
      early.trans (inv.time_le.trans laterTarget)
  · intro m isMark e member row isDDL le
    rcases SnapshotFile.publish_mark with stamped | kept
    · have read := markToStamp_eq_some (stamped.symm.trans isMark)
      unfold readRunDDLMark at read
      split at read
      · exact BinlogHistory.index_mono laterCheck
          (BinlogHistory.mem_index_of_le_mark member isDDL read le)
      · cases read
    · exact still row (inv.marked m (kept.symm.trans isMark) e member row isDDL le)
  · intro c isCut e member row isDDL upTo
    rcases Option.or_eq_some_iff.mp isCut with new | ⟨-, old⟩
    · exact (cutIndexed c new).2 e member row isDDL upTo
    · exact still row (inv.cut c old e member row isDDL upTo)

/-- Over the whole chain. -/
theorem FoldChain.inv (chain : FoldChain h schema table dumpAnchor st) :
    ChainInv h schema table dumpAnchor st := by
  induction chain with
  | @dump time seen mark numbered marked ranBefore =>
    refine
      { anchored := rfl
        settled := ?_
        time_le := le_rfl
        marked := ?_
        cut := by rintro _ ⟨⟩
        clean := ?_ }
    · rintro a (isAnchor | ⟨⟨⟩⟩)
      obtain rfl := Option.some.inj isAnchor
      exact ⟨numbered, fun e member row isDDL upTo => .inl upTo⟩
    · intro m isMark e member row isDDL le
      rcases marked with rfl | rfl
      · cases isMark
      · exact BinlogHistory.mem_index_of_le_mark member isDDL isMark le
    · intro e member row isDDL _ indexed past
      rw [ranBefore e member row isDDL indexed] at past
      cases past
  | fold _ run markSeen checkSeen laterTarget laterMark laterCheck fromIndex passed ih =>
    exact ih.fold laterTarget laterMark laterCheck fromIndex passed

/-- No statement that removes the table's rows, past the dump's anchor and at or before the last
cut, ran at or before the last target: every check having passed, none was folded over. -/
theorem foldChain_no_destructive_ddl (chain : FoldChain h schema table dumpAnchor st)
    {e : LogEntry} (member : e ∈ h.entries) {row : SchemaChange} (isDDL : row ∈ e.ddl)
    (removes : row.removes schema table) {cut : BinlogPos} (lastCut : st.cut = some cut)
    (past : e.endPos.atOrBefore dumpAnchor = false) (upTo : e.endPos.atOrBefore cut = true) :
    ¬ row.detectedAt ≤ st.target := by
  have inv := chain.inv
  have indexed := inv.cut cut lastCut e member row isDDL upTo
  exact not_le.mpr (inv.clean e member row isDDL removes indexed past)

end Chain

/-- A row event, a TRUNCATE, a row event, and a DROP of two tables that took long to be written. -/
def truncateLog : BinlogHistory where
  base := "binlog".toList
  entries :=
    let change (id : ℕ) (ddlType : DDLKind) (detectedAt : ℤ) (pos : ℕ) (tableName : String) :
        SchemaChange :=
      { id, ddlType, detectedAt, binlogFile := "binlog.000001", binlogPos := pos
        schemaName := "shop", tableName }
    [{ startPos := ⟨"binlog.000001", 4⟩, endPos := ⟨"binlog.000001", 100⟩ },
      { startPos := ⟨"binlog.000001", 100⟩, endPos := ⟨"binlog.000001", 200⟩
        ddl := [change 1 .truncateTable 10 200 "orders"] },
      { startPos := ⟨"binlog.000001", 200⟩, endPos := ⟨"binlog.000001", 300⟩ },
      { startPos := ⟨"binlog.000001", 300⟩, endPos := ⟨"binlog.000001", 400⟩
        ddl := [change 2 .dropTable 50 400 "customers", change 3 .dropTable 50 400 "orders"] },
      { startPos := ⟨"binlog.000001", 400⟩, endPos := ⟨"binlog.000001", 500⟩ }]
  numbered := by decide
  extent := by decide
  ordered := by decide
  ids := by decide
  recorded := by decide

/-- A dump after the TRUNCATE. -/
def truncateDump : SnapshotFile :=
  ⟨20, some ⟨"binlog.000001", 200⟩, readDDLMark (truncateLog.index 1), none⟩

/-- The fold after it, cut before the DROP, which was indexed by then. -/
def truncateFold : SnapshotFile :=
  ⟨40, some ⟨"binlog.000001", 300⟩, readDDLMark (truncateLog.index 3), none⟩

/-- A third file, cut after the DROP with a target before it ran: the mark keeps the check from
placing the statement by position, and no time has. -/
theorem truncateLog_not_folded_over :
    foldTable (truncateLog.index 3) (truncateLog.index 3) "shop" "orders" truncateFold
        ⟨45, some ⟨"binlog.000001", 400⟩, true, .rewrite true⟩ =
      .ok ⟨45, some ⟨"binlog.000001", 400⟩, readDDLMark (truncateLog.index 3), none⟩ ∧
    ∀ row ∈ (truncateLog.entries.get ⟨3, by decide⟩).ddl, row.tableName = "orders" →
      ¬ row.detectedAt ≤ 45 := by
  have first : foldTable (truncateLog.index 3) (truncateLog.index 3) "shop" "orders" truncateDump
      ⟨40, some ⟨"binlog.000001", 300⟩, true, .rewrite false⟩ = .ok truncateFold := by decide
  have second : foldTable (truncateLog.index 3) (truncateLog.index 3) "shop" "orders" truncateFold
      ⟨45, some ⟨"binlog.000001", 400⟩, true, .rewrite true⟩ =
        .ok ⟨45, some ⟨"binlog.000001", 400⟩, readDDLMark (truncateLog.index 3), none⟩ := by decide
  have dump : FoldChain truncateLog "shop" "orders" ⟨"binlog.000001", 200⟩
      ⟨truncateDump, 20, none, 1⟩ := .dump (by decide) (.inr rfl) (by decide)
  have indexed : ∀ event ∈ truncateLog.entries, truncateLog.Indexed 3 event :=
    fun event member => ⟨5, member, by decide⟩
  have chain := (dump.fold _ 3 3 (by decide) (by decide) le_rfl
      (by rintro _ ⟨⟩; exact ⟨_, indexed _ (get_mem _ ⟨2, by decide⟩), .inr rfl⟩) first).fold _ 3 3
    (by decide) (by decide) le_rfl
    (by rintro _ ⟨⟩; exact ⟨_, indexed _ (get_mem _ ⟨3, by decide⟩), .inr rfl⟩) second
  refine ⟨second, fun row isDDL ofOrders => ?_⟩
  have removes : row.removes "shop" "orders" := by
    revert row
    simp [truncateLog, SchemaChange.removes]
  exact foldChain_no_destructive_ddl chain (get_mem _ _) isDDL removes rfl (by decide) (by decide)

end Dbtrail
