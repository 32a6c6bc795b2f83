import Dbtrail.Query.ArchiveSkip

/-!
# The paged merged stream

`fetchMergedStream` walks a window of the live index and the archives in
`(event_timestamp, event_id)` order, one page after the other. Each page is a limited
fetch from every source, merged and cut, and the next one resumes after its last row;
a source that has nothing left, or that fails, is retired.

`stream_complete_iff` says that the pages are the matching rows of all sources, each
once and in order, after as many pages as there are rows and one more, except where the
plan leaves the live index unread.
-/

namespace Dbtrail

open List

variable {Row : Type} {rows : List (ResultRow Row)} {opts : QueryOptions Row} {r : ResultRow Row}
  {archSources : List String}

/-! ## Sources -/

/-- The files of one archive. A row is archived with its partition, once. -/
structure ArchiveSource (Row : Type) : Type where
  rows : List (ResultRow Row)
  ids_nodup : (rows.map ResultRow.eventID).Nodup

def ArchiveSource.fetch (source : ArchiveSource Row) (opts : QueryOptions Row) :
    List (ResultRow Row) :=
  fetchRows id opts source.rows

/-- What a merged fetch reads: the live index, the archives by path, and which reads of
them fail. -/
structure Stores (Row : Type) : Type where
  live : LiveIndex Row
  archive : String → ArchiveSource Row
  fails : QueryOptions Row → String → Bool := fun _ _ => false

structure PageRead (Row : Type) : Type where
  rows : List (ResultRow Row)
  skipped : List String := []
  exhausted : List String := []

def Stores.readArchive (stores : Stores Row) (allowGaps : Bool) (opts : QueryOptions Row)
    (page : PageRead Row) (source : String) : Except String (PageRead Row) :=
  if stores.fails opts source then
    if allowGaps then .ok { page with skipped := page.skipped ++ [source] } else .error source
  else
    let found := (stores.archive source).fetch opts
    .ok
      { page with
        rows := page.rows ++ found
        exhausted := if found.isEmpty then page.exhausted ++ [source] else page.exhausted }

/-- The live rows that a page is merged from. -/
def Stores.livePart (stores : Stores Row) (pkGroup : String → String) (plan : Option QueryPlan)
    (opts : QueryOptions Row) : List (ResultRow Row) :=
  if skipMySQL plan then [] else stores.live.fetch pkGroup opts

/-- One fetch of the live index and every source, merged. The error is the source that
failed where gaps are not allowed. -/
def Stores.fetchPageRows (stores : Stores Row) (pkGroup : String → String) (allowGaps : Bool)
    (plan : Option QueryPlan) (sources : List String) (opts : QueryOptions Row) :
    Except String (PageRead Row) :=
  if sources = [] then .ok { rows := stores.live.fetch pkGroup opts }
  else
    let rows := stores.livePart pkGroup plan opts
    match archivesNotNeeded opts rows plan with
    | some kept => .ok { rows := kept }
    | none => do
        let page ← sources.foldlM (stores.readArchive allowGaps opts) { rows }
        return { page with rows := mergeAndTrim page.rows opts.limit opts.mergePerPK opts.order }

/-! ## The walk -/

def EventCursor.key (c : EventCursor) : ℤ ×ₗ ℕ := toLex (c.timestamp, c.eventID)

/-- Whether `c` is strictly after `other`. -/
def EventCursor.after (c other : EventCursor) : Bool :=
  if c.timestamp ≠ other.timestamp then decide (other.timestamp < c.timestamp)
  else decide (other.eventID < c.eventID)

def ResultRow.cursor (r : ResultRow Row) : EventCursor := ⟨r.eventTimestamp, r.eventID⟩

structure Walk : Type where
  archSources : List String
  cursor : Option EventCursor := none
  skippedAll : List String := []

inductive WalkEnd : Type
  | done (skipped : List String)
  | sourceFailed (source : String)
  | cursorStuck (cursor : EventCursor)
  deriving DecidableEq, Repr

def pageOptions (opts : QueryOptions Row) (batchSize : ℕ) (cursor : Option EventCursor) :
    QueryOptions Row :=
  { opts with limit := batchSize, afterEvent := cursor }

/-- The pages handed to the caller, and how the walk ended; nothing where the fuel, one
unit for each page, is too little. -/
def Stores.walk (stores : Stores Row) (pkGroup : String → String) (allowGaps : Bool)
    (plan : Option QueryPlan) (opts : QueryOptions Row) (batchSize : ℕ) :
    ℕ → Walk → Option (List (List (ResultRow Row)) × WalkEnd)
  | 0, _ => none
  | fuel + 1, w =>
      match stores.fetchPageRows pkGroup allowGaps plan w.archSources
          (pageOptions opts batchSize w.cursor) with
      | .error source => some ([], .sourceFailed source)
      | .ok page =>
          let w' : Walk :=
            { w with
              archSources := w.archSources.filter fun s =>
                decide (s ∉ page.exhausted) && decide (s ∉ page.skipped)
              skippedAll := w.skippedAll ++ page.skipped }
          match page.rows.getLast? with
          | none =>
              if page.skipped ≠ [] then
                Stores.walk stores pkGroup allowGaps plan opts batchSize fuel w'
              else some ([], .done w'.skippedAll)
          | some last =>
              match w.cursor.filter fun c => !last.cursor.after c with
              | some stuck => some ([], .cursorStuck stuck)
              | none =>
                  if page.rows.length < batchSize ∧ page.skipped = [] then
                    some ([page.rows], .done w'.skippedAll)
                  else
                    (Stores.walk stores pkGroup allowGaps plan opts batchSize fuel
                      { w' with cursor := some last.cursor }).map
                        fun (pages, stop) => (page.rows :: pages, stop)

inductive StreamRefusal : Type
  | descending
  | limited
  | afterEventSet
  | beforeEventSet
  | gaps (hours : List ℤ)
  deriving DecidableEq, Repr

def defaultStreamBatchSize : ℕ := 100000

/-- `FetchMergedStream`, from the plan and the sources that its prologue resolved. -/
def Stores.fetchMergedStream (stores : Stores Row) (pkGroup : String → String)
    (allowGaps : Bool) (plan : Option QueryPlan) (archSources : List String)
    (opts : QueryOptions Row) (batchSize fuel : ℕ) :
    Except StreamRefusal (Option (List (List (ResultRow Row)) × WalkEnd)) :=
  if opts.order = .desc then .error .descending
  else if opts.limit ≠ 0 ∨ opts.limitPerPK ≠ 0 then .error .limited
  else if opts.afterEvent.isSome then .error .afterEventSet
  else if opts.beforeEvent.isSome then .error .beforeEventSet
  else
    match plan.bind fun p =>
        if p.gapHours ≠ [] ∧ allowGaps = false then some p.gapHours else none with
    | some hours => .error (.gaps hours)
    | none =>
        .ok (stores.walk pkGroup allowGaps plan opts
          (if batchSize = 0 then defaultStreamBatchSize else batchSize) fuel { archSources })

/-! ## The rows of a window -/

/-- The rows of `rows` that the options select, one copy of each, in order. -/
def mergedRows (opts : QueryOptions Row) (rows : List (ResultRow Row)) : List (ResultRow Row) :=
  orderRows .asc (firstOfEach ResultRow.eventID (rows.filter opts.selects))

/-- Rows of one id are copies of one row. -/
def Copies (rows : List (ResultRow Row)) : Prop :=
  ∀ r ∈ rows, ∀ s ∈ rows, r.eventID = s.eventID → r = s

theorem Copies.subset {part : List (ResultRow Row)} (copies : Copies rows)
    (sub : ∀ r ∈ part, r ∈ rows) : Copies part :=
  fun r memR s memS => copies r (sub r memR) s (sub s memS)

theorem mergedRows_sorted (opts : QueryOptions Row) (rows : List (ResultRow Row)) :
    InKeyOrder .asc (mergedRows opts rows) :=
  orderRows_inKeyOrder .asc (firstOfEachFrom_nodup [] _)

theorem mem_mergedRows (copies : Copies rows) :
    r ∈ mergedRows opts rows ↔ r ∈ rows ∧ opts.selects r = true := by
  have part : Copies (rows.filter opts.selects) :=
    copies.subset fun s member => mem_of_mem_filter member
  rw [mergedRows, (orderRows_perm .asc _).mem_iff, mem_firstOfEach part, mem_filter]

theorem selectsAfter_iff {c : EventCursor} :
    QueryOptions.selectsAfter c r = true ↔ c.key < r.eventKey := by
  have hint : truncateTo hour c.timestamp ≤ c.timestamp := truncateTo_le (by decide)
  simp only [QueryOptions.selectsAfter, EventCursor.key, ResultRow.eventKey, Bool.and_eq_true,
    Bool.or_eq_true, decide_eq_true_eq, beq_iff_eq, Prod.Lex.toLex_lt_toLex]
  constructor
  · rintro ⟨-, later | ⟨same, later⟩⟩
    · exact .inl later
    · exact .inr ⟨same.symm, later⟩
  · rintro (later | ⟨same, later⟩)
    · exact ⟨by omega, .inl later⟩
    · exact ⟨by omega, .inr ⟨same.symm, later⟩⟩

section Pages

variable {opts : QueryOptions Row} {batchSize : ℕ} {cursor : Option EventCursor} {r : ResultRow Row}
  {rows stored : List (ResultRow Row)}

/-- A page's options select what is left of the window after the cursor. -/
theorem selects_pageOptions (unset : opts.afterEvent = none) :
    (pageOptions opts batchSize cursor).selects r = true ↔
      opts.selects r = true ∧ ∀ c ∈ cursor, c.key < r.eventKey := by
  have after : (cursor.all (QueryOptions.selectsAfter · r)) = true ↔
      ∀ c ∈ cursor, c.key < r.eventKey := by
    rw [Option.all_eq_true]
    exact forall₂_congr fun c _ => selectsAfter_iff
  have same : (pageOptions opts batchSize cursor).selects r =
      (opts.selects r && cursor.all (QueryOptions.selectsAfter · r)) := by
    simp only [pageOptions, QueryOptions.selects, QueryOptions.selectsPK, QueryOptions.selectsSince,
      QueryOptions.selectsUntil, unset, Option.all_none, Bool.and_true]
    grind
  rw [same, Bool.and_eq_true, after]

/-- What a stream asks of its options. -/
structure Streamable (opts : QueryOptions Row) : Prop where
  ascending : opts.order = .asc
  unlimited : opts.limit = 0
  uncapped : opts.limitPerPK = 0
  fromStart : opts.afterEvent = none
  toEnd : opts.beforeEvent = none

/-- One source's part of a page: the first of its rows in the window. -/
theorem fetchRows_page (pkGroup : String → String) (ok : Streamable opts) (pos : batchSize ≠ 0)
    (nodup : (rows.map ResultRow.eventID).Nodup) :
    fetchRows pkGroup (pageOptions opts batchSize cursor) rows =
      (mergedRows (pageOptions opts batchSize cursor) rows).take batchSize := by
  have part : ((rows.filter (pageOptions opts batchSize cursor).selects).map
      ResultRow.eventID).Nodup := (filter_sublist.map _).nodup nodup
  have narrow : narrowKeys pkGroup (pageOptions opts batchSize cursor) rows =
      rows.filter (pageOptions opts batchSize cursor).selects := if_pos ok.uncapped
  have order : (pageOptions opts batchSize cursor).order = .asc := ok.ascending
  rw [fetchRows, narrow, order, mergedRows, firstOfEach_of_nodup part]
  exact if_neg pos

/-- Rows of the window that hold its first `batchSize` merge to the page. -/
theorem merge_page (ok : Streamable opts) (pos : batchSize ≠ 0) {found : List (ResultRow Row)}
    (copies : Copies stored)
    (among : ∀ r ∈ found, r ∈ mergedRows (pageOptions opts batchSize cursor) stored)
    (holds : ∀ r ∈ (mergedRows (pageOptions opts batchSize cursor) stored).take batchSize,
      r ∈ found) :
    mergeAndTrim found batchSize (pageOptions opts batchSize cursor).mergePerPK .asc =
      (mergedRows (pageOptions opts batchSize cursor) stored).take batchSize := by
  have noCap : (pageOptions opts batchSize cursor).mergePerPK = 0 := by
    have : (pageOptions opts batchSize cursor).limitPerPK = 0 := ok.uncapped
    rw [QueryOptions.mergePerPK, this, ite_self]
  have part : Copies found :=
    copies.subset fun r member => ((mem_mergedRows copies).mp (among r member)).1
  have member (r : ResultRow Row) :
      r ∈ orderRows .asc (firstOfEach ResultRow.eventID found) ↔ r ∈ found := by
    rw [(orderRows_perm .asc _).mem_iff, mem_firstOfEach part]
  have sorted := mergedRows_sorted (pageOptions opts batchSize cursor) stored
  have sub : (orderRows .asc (firstOfEach ResultRow.eventID found)).Sublist
      (mergedRows (pageOptions opts batchSize cursor) stored) :=
    sublist_of_key_lt (orderRows_inKeyOrder .asc (firstOfEachFrom_nodup [] found)) sorted
      fun r held => among r ((member r).mp held)
  rw [mergeAndTrim, noCap, if_pos rfl, mergeResults, capAt_zero, capAt, if_neg pos]
  exact take_eq_of_sublist sub (nodup_of_key_lt sorted) fun r early =>
    (member r).mpr (holds r early)

/-- A row among the first of the window is in its source's part of the page. -/
theorem mem_fetchRows_of_early (pkGroup : String → String) (ok : Streamable opts)
    (pos : batchSize ≠ 0) (copies : Copies stored) (nodup : (rows.map ResultRow.eventID).Nodup)
    (sub : ∀ r ∈ rows, r ∈ stored)
    (early : r ∈ (mergedRows (pageOptions opts batchSize cursor) stored).take batchSize)
    (member : r ∈ rows) : r ∈ fetchRows pkGroup (pageOptions opts batchSize cursor) rows := by
  have part : Copies rows := copies.subset sub
  have sorted := mergedRows_sorted (pageOptions opts batchSize cursor) stored
  have inside := (mem_mergedRows copies).mp (mem_of_mem_take early)
  rw [fetchRows_page pkGroup ok pos nodup]
  refine mem_take_of_sublist ?_ (nodup_of_key_lt sorted) early
    ((mem_mergedRows part).mpr ⟨member, inside.2⟩)
  refine sublist_of_key_lt (mergedRows_sorted _ rows) sorted fun s held => ?_
  obtain ⟨listed, selected⟩ := (mem_mergedRows part).mp held
  exact (mem_mergedRows copies).mpr ⟨sub s listed, selected⟩

theorem mem_mergedRows_of_fetch (pkGroup : String → String) (copies : Copies stored)
    (sub : ∀ r ∈ rows, r ∈ stored) {pageOpts : QueryOptions Row}
    (member : r ∈ fetchRows pkGroup pageOpts rows) :
    r ∈ mergedRows pageOpts stored := by
  obtain ⟨listed, selected⟩ := mem_of_mem_fetchRows member
  exact (mem_mergedRows copies).mpr ⟨sub r listed, selected⟩

end Pages

/-! ## One page -/

/-- The rows a stream can reach: those of its archives, and of the live index unless the
plan leaves it unread. -/
def Stores.reachable (stores : Stores Row) (plan : Option QueryPlan) (archSources : List String) :
    List (ResultRow Row) :=
  (if archSources ≠ [] ∧ skipMySQL plan = true then [] else stores.live.rows) ++
    archSources.flatMap fun s => (stores.archive s).rows

theorem readArchives (stores : Stores Row) (allowGaps : Bool) (opts : QueryOptions Row)
    (sources : List String) (readable : ∀ s ∈ sources, stores.fails opts s = false)
    (page : PageRead Row) :
    sources.foldlM (stores.readArchive allowGaps opts) page =
      .ok
        { rows := page.rows ++ sources.flatMap fun s => (stores.archive s).fetch opts
          skipped := page.skipped
          exhausted := page.exhausted ++
            sources.filter fun s => ((stores.archive s).fetch opts).isEmpty } := by
  induction sources generalizing page with
  | nil => simp [pure, Except.pure]
  | cons s sources ih =>
    have here := readable s mem_cons_self
    have rest := fun t member => readable t (mem_cons_of_mem s member)
    rw [foldlM_cons, Stores.readArchive, here]
    simp only [Bool.false_eq_true, if_false, bind, Except.bind]
    rw [ih rest]
    by_cases empty : ((stores.archive s).fetch opts).isEmpty = true
    · simp [empty]
    · simp [empty]

/-- With nothing to read from the live index there is no reason to leave archives out. -/
theorem archivesNotNeeded_of_skip {plan : Option QueryPlan} (opts : QueryOptions Row)
    (skip : skipMySQL plan = true) : archivesNotNeeded opts [] plan = none := by
  have unproven : provenRange plan = none := by
    unfold provenRange
    cases plan with
    | none => rfl
    | some p =>
      simp only [skipMySQL, Bool.and_eq_true, List.isEmpty_iff] at skip
      simp [skip.1]
  have anchor : anchorSatisfiedLive opts ([] : List (ResultRow Row)) = false := by
    unfold anchorSatisfiedLive
    split <;> rfl
  have window : windowSatisfiedLive opts plan = false := by
    unfold windowSatisfiedLive
    rw [unproven]
    split
    · rfl
    · exact ite_self false
  have topN : topNSatisfiedLive opts [] plan = false := by
    unfold topNSatisfiedLive
    rw [unproven]
    exact ite_self false
  have perPK : perPKSatisfiedLive opts [] plan = false := by
    unfold perPKSatisfiedLive
    simp [unproven]
  simp [archivesNotNeeded, anchor, window, topN, perPK]

section Walks

variable (pkGroup : String → String) (stores : Stores Row) (allowGaps : Bool)
  (plan : Option QueryPlan) (all : List String) (opts : QueryOptions Row) (batchSize : ℕ)

/-- What a stream is run on: options it takes, copies that agree, a true plan, and archives
that can be read. -/
structure Stores.Streams : Prop where
  ok : Streamable opts
  pos : batchSize ≠ 0
  copies : Copies (stores.live.rows ++ all.flatMap fun s => (stores.archive s).rows)
  isTrue : ∀ p ∈ plan, p.TrueOf (all.flatMap fun s => (stores.archive s).rows)
  readable : ∀ pageOpts, ∀ s ∈ all, stores.fails pageOpts s = false

/-- The sources still read at a cursor: those retired hold nothing after it, and where the
live index is left unread some source is left. -/
structure Stores.Remaining (sources : List String) (cursor : Option EventCursor) : Prop where
  among : ∀ s ∈ sources, s ∈ all
  retired : ∀ s ∈ all, s ∉ sources → ∀ r ∈ (stores.archive s).rows,
    (pageOptions opts batchSize cursor).selects r = false
  some_left : all ≠ [] ∧ skipMySQL plan = true → sources ≠ []

/-- What is left of the window after the cursor. -/
abbrev Stores.leftAt (cursor : Option EventCursor) : List (ResultRow Row) :=
  mergedRows (pageOptions opts batchSize cursor) (stores.reachable plan all)

variable {pkGroup stores allowGaps plan all opts batchSize} {sources : List String}
  {cursor : Option EventCursor} {r : ResultRow Row} {s : String}

theorem Stores.Streams.copies_reachable
    (runs : stores.Streams plan all opts batchSize) : Copies (stores.reachable plan all) := by
  refine runs.copies.subset fun r member => ?_
  unfold Stores.reachable at member
  split at member
  · exact mem_append_right _ member
  · exact member

theorem Stores.mem_reachable_of_archive (listed : s ∈ all) (member : r ∈ (stores.archive s).rows) :
    r ∈ stores.reachable plan all :=
  mem_append_right _ (mem_flatMap.mpr ⟨s, listed, member⟩)

/-- A row of an archive that lies after the cursor is in a source still read. -/
theorem Stores.Remaining.mem_sources
    (left : stores.Remaining plan all opts batchSize sources cursor) (listed : s ∈ all)
    (member : r ∈ (stores.archive s).rows)
    (selected : (pageOptions opts batchSize cursor).selects r = true) : s ∈ sources := by
  by_contra gone
  rw [left.retired s listed gone r member] at selected
  cases selected

theorem Stores.mem_reachable_of_live (read : ¬(all ≠ [] ∧ skipMySQL plan = true))
    (member : r ∈ stores.live.rows) : r ∈ stores.reachable plan all := by
  rw [Stores.reachable, if_neg read]
  exact mem_append_left _ member

theorem Stores.mem_reachable_iff :
    r ∈ stores.reachable plan all ↔
      (¬(all ≠ [] ∧ skipMySQL plan = true) ∧ r ∈ stores.live.rows) ∨
        ∃ s ∈ all, r ∈ (stores.archive s).rows := by
  rw [Stores.reachable, mem_append, mem_flatMap]
  split
  next unread => simp [unread]
  next read => simp [read]

/-- A page merged from the live part and from rows of the archives that hold the first ones
of each is the page. -/
theorem Stores.Streams.merge_eq (runs : stores.Streams plan all opts batchSize) (some_ : all ≠ [])
    {old : List (ResultRow Row)}
    (among : ∀ r ∈ old, r ∈ stores.leftAt plan all opts batchSize cursor)
    (holds : ∀ s ∈ all, ∀ r ∈ (stores.archive s).rows,
      (pageOptions opts batchSize cursor).selects r = true →
      r ∈ (stores.archive s).fetch (pageOptions opts batchSize cursor) → r ∈ old) :
    mergeAndTrim (stores.livePart pkGroup plan (pageOptions opts batchSize cursor) ++ old)
      batchSize (pageOptions opts batchSize cursor).mergePerPK .asc =
        (stores.leftAt plan all opts batchSize cursor).take batchSize := by
  have copies := runs.copies_reachable
  refine merge_page runs.ok runs.pos copies (fun r member => ?_) fun r early => ?_
  · rcases mem_append.mp member with live | archived
    · unfold Stores.livePart at live
      split at live
      next => cases live
      next read =>
        exact mem_mergedRows_of_fetch pkGroup copies
          (fun r => Stores.mem_reachable_of_live fun unread => read unread.2) live
    · exact among r archived
  · obtain ⟨stored, selected⟩ := (mem_mergedRows copies).mp (mem_of_mem_take early)
    rcases Stores.mem_reachable_iff.mp stored with ⟨read, live⟩ | ⟨s, listed, archived⟩
    · have noSkip : ¬skipMySQL plan = true := fun skip => read ⟨some_, skip⟩
      rw [Stores.livePart, if_neg noSkip]
      exact mem_append_left _ (mem_fetchRows_of_early pkGroup runs.ok runs.pos copies
        stores.live.ids_nodup (fun r => Stores.mem_reachable_of_live read) early live)
    · refine mem_append_right _ (holds s listed r archived selected ?_)
      exact mem_fetchRows_of_early id runs.ok runs.pos copies (stores.archive s).ids_nodup
        (fun r => Stores.mem_reachable_of_archive listed) early archived

theorem Stores.Streams.live_eq (runs : stores.Streams plan all opts batchSize)
    (left : stores.Remaining plan all opts batchSize [] cursor) :
    stores.live.fetch pkGroup (pageOptions opts batchSize cursor) =
      (stores.leftAt plan all opts batchSize cursor).take batchSize := by
  have copies := runs.copies_reachable
  have read : ¬(all ≠ [] ∧ skipMySQL plan = true) := fun unread => left.some_left unread rfl
  have part : Copies stores.live.rows :=
    copies.subset fun r => Stores.mem_reachable_of_live read
  have same : mergedRows (pageOptions opts batchSize cursor) stores.live.rows =
      stores.leftAt plan all opts batchSize cursor := by
    refine eq_of_key_lt (mergedRows_sorted _ _) (mergedRows_sorted _ _) fun r => ?_
    rw [mem_mergedRows part, mem_mergedRows copies]
    refine and_congr_left fun selected => ?_
    rw [Stores.mem_reachable_iff]
    refine ⟨fun live => .inl ⟨read, live⟩, ?_⟩
    rintro (⟨-, live⟩ | ⟨s, listed, archived⟩)
    · exact live
    · cases left.mem_sources listed archived selected
  rw [LiveIndex.fetch, fetchRows_page pkGroup runs.ok runs.pos stores.live.ids_nodup, same]

/-- Each page is the first rows that are left of the window. -/
theorem Stores.Streams.fetchPageRows_eq (pkGroup : String → String) (allowGaps : Bool)
    (runs : stores.Streams plan all opts batchSize)
    (left : stores.Remaining plan all opts batchSize sources cursor) :
    ∃ exhausted : List String,
      stores.fetchPageRows pkGroup allowGaps plan sources (pageOptions opts batchSize cursor) =
        .ok
          { rows := (stores.leftAt plan all opts batchSize cursor).take batchSize
            exhausted } ∧
      ∀ s ∈ exhausted, (stores.archive s).fetch (pageOptions opts batchSize cursor) = [] := by
  have copies := runs.copies_reachable
  have order : (pageOptions opts batchSize cursor).order = .asc := runs.ok.ascending
  have limit : (pageOptions opts batchSize cursor).limit = batchSize := rfl
  by_cases noneLeft : sources = []
  · subst noneLeft
    refine ⟨[], ?_, by simp⟩
    rw [Stores.fetchPageRows, if_pos rfl, runs.live_eq left]
  · have some_ : all ≠ [] := by
      rintro rfl
      obtain ⟨s, member⟩ := exists_mem_of_ne_nil sources noneLeft
      exact not_mem_nil (left.among s member)
    rw [Stores.fetchPageRows, if_neg noneLeft]
    dsimp only
    cases decided : archivesNotNeeded (pageOptions opts batchSize cursor)
        (stores.livePart pkGroup plan (pageOptions opts batchSize cursor)) plan with
    | some kept =>
      -- The archives were left out, so the live index was read.
      have read : skipMySQL plan = false := by
        refine Bool.eq_false_iff.mpr fun skip => ?_
        rw [Stores.livePart, if_pos skip, archivesNotNeeded_of_skip _ skip] at decided
        cases decided
      have live : stores.livePart pkGroup plan (pageOptions opts batchSize cursor) =
          stores.live.fetch pkGroup (pageOptions opts batchSize cursor) := by
        rw [Stores.livePart, read]
        rfl
      rw [live] at decided
      let old := (all.flatMap fun s => (stores.archive s).rows).filter
        (pageOptions opts batchSize cursor).selects
      have merged := mergeAndTrim_of_archivesNotNeeded runs.isTrue
        (fun a (member : a ∈ old) => mem_of_mem_filter member)
        (fun a member => (mem_filter.mp member).2) decided
      refine ⟨[], ?_, by simp⟩
      rw [← merged, limit, order, ← live]
      refine congrArg (fun rows => Except.ok { rows := rows : PageRead Row })
        (runs.merge_eq some_ ?_ ?_)
      · intro r member
        obtain ⟨archived, selected⟩ := mem_filter.mp member
        refine (mem_mergedRows copies).mpr ⟨mem_append_right _ archived, selected⟩
      · intro s listed r archived selected _
        exact mem_filter.mpr ⟨mem_flatMap.mpr ⟨s, listed, archived⟩, selected⟩
    | none =>
      refine ⟨sources.filter fun s =>
        ((stores.archive s).fetch (pageOptions opts batchSize cursor)).isEmpty, ?_, ?_⟩
      · dsimp only
        rw [readArchives stores allowGaps _ sources
          fun s member => runs.readable _ s (left.among s member)]
        simp only [bind, Except.bind, pure, Except.pure, nil_append, limit, order]
        refine congrArg (fun rows => Except.ok (⟨rows, [], _⟩ : PageRead Row))
          (runs.merge_eq some_ ?_ ?_)
        · intro r member
          obtain ⟨s, listed, fetched⟩ := mem_flatMap.mp member
          exact mem_mergedRows_of_fetch id copies
            (fun r => Stores.mem_reachable_of_archive (left.among s listed)) fetched
        · intro s listed r archived selected fetched
          exact mem_flatMap.mpr ⟨s, left.mem_sources listed archived selected, fetched⟩
      · intro s member
        exact isEmpty_iff.mp (mem_filter.mp member).2

/-! ## From page to page -/

theorem EventCursor.after_iff {c d : EventCursor} : c.after d = true ↔ d.key < c.key := by
  simp only [EventCursor.key, Prod.Lex.toLex_lt_toLex, EventCursor.after]
  split
  next ne =>
    rw [decide_eq_true_eq]
    exact ⟨.inl, fun lt => lt.resolve_right fun same => ne same.1.symm⟩
  next eq =>
    push Not at eq
    rw [decide_eq_true_eq, eq]
    simp

/-- After a page, what is left of the window is what the page left of it. -/
theorem Stores.Streams.mergedRows_after (runs : stores.Streams plan all opts batchSize)
    {last : ResultRow Row}
    (ends : ((stores.leftAt plan all opts batchSize cursor).take batchSize).getLast? = some last) :
    stores.leftAt plan all opts batchSize (some last.cursor) =
      (stores.leftAt plan all opts batchSize cursor).drop batchSize := by
  have copies := runs.copies_reachable
  have unset := runs.ok.fromStart
  have sorted : InKeyOrder .asc (stores.leftAt plan all opts batchSize cursor) :=
    mergedRows_sorted _ _
  have split := take_append_drop batchSize (stores.leftAt plan all opts batchSize cursor)
  obtain ⟨front, page⟩ := getLast?_eq_some_iff.mp ends
  rw [← split] at sorted
  obtain ⟨sortedPage, sortedRest, apart⟩ := pairwise_append.mp sorted
  refine eq_of_key_lt (mergedRows_sorted _ _) sortedRest fun r => ?_
  rw [mem_mergedRows copies, selects_pageOptions unset]
  have lastIn : last ∈ (stores.leftAt plan all opts batchSize cursor).take batchSize := by
    simp [page]
  constructor
  · rintro ⟨stored, selected, later⟩
    have beyond : last.eventKey < r.eventKey := later last.cursor rfl
    have lastSelected := (mem_mergedRows copies).mp (mem_of_mem_take lastIn)
    have here : r ∈ stores.leftAt plan all opts batchSize cursor := by
      refine (mem_mergedRows copies).mpr ⟨stored, (selects_pageOptions unset).mpr ⟨selected, ?_⟩⟩
      intro c held
      exact (((selects_pageOptions unset).mp lastSelected.2).2 c held).trans beyond
    rw [← split] at here
    refine (mem_append.mp here).resolve_left fun early => ?_
    rw [page] at early sortedPage
    rcases mem_append.mp early with before | isLast
    · have lt := (pairwise_append.mp sortedPage).2.2 r before last (mem_singleton_self _)
      exact absurd beyond lt.not_gt
    · rw [mem_singleton.mp isLast] at beyond
      exact absurd beyond (lt_irrefl _)
  · intro member
    obtain ⟨stored, selected⟩ := (mem_mergedRows copies).mp (mem_of_mem_drop member)
    refine ⟨stored, ((selects_pageOptions unset).mp selected).1, fun c held => ?_⟩
    obtain rfl : last.cursor = c := Option.some.inj held
    exact apart last lastIn r member

/-- A source that a page found empty holds nothing of the window after the cursor. -/
theorem Stores.Streams.not_selects_of_fetch_nil (runs : stores.Streams plan all opts batchSize)
    (empty : (stores.archive s).fetch (pageOptions opts batchSize cursor) = [])
    (member : r ∈ (stores.archive s).rows) :
    (pageOptions opts batchSize cursor).selects r = false := by
  refine Bool.eq_false_iff.mpr fun selected => ?_
  have nodup := (stores.archive s).ids_nodup
  have part : Copies (stores.archive s).rows := fun a memA b memB same =>
    inj_on_of_nodup_map nodup memA memB same
  have listed := (mem_mergedRows part).mpr ⟨member, selected⟩
  rw [ArchiveSource.fetch, fetchRows_page id runs.ok runs.pos nodup, take_eq_nil_iff] at empty
  rw [empty.resolve_left runs.pos] at listed
  cases listed

theorem Stores.Streams.remaining_after (runs : stores.Streams plan all opts batchSize)
    (left : stores.Remaining plan all opts batchSize sources cursor) {exhausted : List String}
    (empty : ∀ s ∈ exhausted, (stores.archive s).fetch (pageOptions opts batchSize cursor) = [])
    {last : ResultRow Row}
    (ends : ((stores.leftAt plan all opts batchSize cursor).take batchSize).getLast? = some last) :
    stores.Remaining plan all opts batchSize
      (sources.filter fun s => decide (s ∉ exhausted) && decide (s ∉ ([] : List String)))
      (some last.cursor) := by
  have unset := runs.ok.fromStart
  have copies := runs.copies_reachable
  have lastIn := mem_of_getLast? ends
  obtain ⟨stored, lastSelected⟩ := (mem_mergedRows copies).mp (mem_of_mem_take lastIn)
  have tighter : ∀ r : ResultRow Row,
      (pageOptions opts batchSize (some last.cursor)).selects r = true →
        (pageOptions opts batchSize cursor).selects r = true := by
    intro r selected
    obtain ⟨inside, later⟩ := (selects_pageOptions unset).mp selected
    refine (selects_pageOptions unset).mpr ⟨inside, fun c held => ?_⟩
    exact (((selects_pageOptions unset).mp lastSelected).2 c held).trans (later last.cursor rfl)
  refine ⟨fun s member => left.among s (mem_of_mem_filter member), ?_, ?_⟩
  · intro s listed gone r member
    refine Bool.eq_false_iff.mpr fun selected => ?_
    have before := tighter r selected
    have kept := left.mem_sources listed member before
    have dropped : s ∈ exhausted := by
      by_contra stays
      exact gone (mem_filter.mpr ⟨kept, by simp [stays]⟩)
    rw [runs.not_selects_of_fetch_nil (empty s dropped) member] at before
    cases before
  · -- The page's last row came from an archive, which is not exhausted.
    intro unread
    rcases Stores.mem_reachable_iff.mp stored with ⟨read, -⟩ | ⟨s, listed, archived⟩
    · exact absurd unread read
    · refine ne_nil_of_mem (mem_filter.mpr
        ⟨left.mem_sources listed archived lastSelected, ?_⟩)
      have stays : s ∉ exhausted := by
        intro dropped
        rw [runs.not_selects_of_fetch_nil (empty s dropped) archived] at lastSelected
        cases lastSelected
      simp [stays]

/-- The walk from a cursor hands over what is left of the window, page by page. -/
theorem Stores.Streams.walk_eq (pkGroup : String → String) (allowGaps : Bool)
    (runs : stores.Streams plan all opts batchSize) (w : Walk)
    (left : stores.Remaining plan all opts batchSize w.archSources w.cursor)
    (noSkip : w.skippedAll = []) :
    ∃ pages : List (List (ResultRow Row)),
      (∀ fuel, (stores.leftAt plan all opts batchSize w.cursor).length < fuel →
        stores.walk pkGroup allowGaps plan opts batchSize fuel w = some (pages, .done [])) ∧
      pages.flatten = stores.leftAt plan all opts batchSize w.cursor := by
  -- Each page but the last is full, so the induction is on what is left of the window.
  induction size : (stores.leftAt plan all opts batchSize w.cursor).length
    using Nat.strong_induction_on generalizing w with
  | _ n ih =>
    have pos := runs.pos
    obtain ⟨exhausted, read, empty⟩ := runs.fetchPageRows_eq pkGroup allowGaps left
    cases ends : ((stores.leftAt plan all opts batchSize w.cursor).take batchSize).getLast? with
    | none =>
      have nothing : stores.leftAt plan all opts batchSize w.cursor = [] :=
        (take_eq_nil_iff.mp (getLast?_eq_none_iff.mp ends)).resolve_left pos
      refine ⟨[], fun fuel enough => ?_, nothing.symm⟩
      obtain ⟨fuel, rfl⟩ := Nat.exists_eq_add_one_of_ne_zero (Nat.ne_zero_of_lt enough)
      rw [Stores.walk, read]
      simp [ends, noSkip]
    | some last =>
      have lastIn := mem_of_mem_take (mem_of_getLast? ends)
      have forward : (w.cursor.filter fun c => !last.cursor.after c) = none := by
        refine Option.filter_eq_none_iff.mpr fun c held => ?_
        have selected := ((mem_mergedRows runs.copies_reachable).mp lastIn).2
        have lt := ((selects_pageOptions runs.ok.fromStart).mp selected).2 c held
        simpa using EventCursor.after_iff.mpr lt
      by_cases short :
          ((stores.leftAt plan all opts batchSize w.cursor).take batchSize).length < batchSize
      · refine ⟨[(stores.leftAt plan all opts batchSize w.cursor).take batchSize],
          fun fuel enough => ?_, ?_⟩
        · obtain ⟨fuel, rfl⟩ := Nat.exists_eq_add_one_of_ne_zero (Nat.ne_zero_of_lt enough)
          rw [Stores.walk, read]
          simp only [ends, forward]
          rw [if_pos ⟨short, trivial⟩, noSkip]
          rfl
        · rw [length_take] at short
          rw [flatten_singleton, take_of_length_le (by omega)]
      · have rest := runs.mergedRows_after ends
        have some_ : 0 < (stores.leftAt plan all opts batchSize w.cursor).length :=
          length_pos_of_mem lastIn
        have fewer : (stores.leftAt plan all opts batchSize (some last.cursor)).length < n := by
          rw [rest, length_drop]
          omega
        obtain ⟨pages, walked, joined⟩ := ih _ fewer
          { w with
            archSources := w.archSources.filter fun s =>
              decide (s ∉ exhausted) && decide (s ∉ ([] : List String))
            cursor := some last.cursor }
          (runs.remaining_after left empty ends) noSkip rfl
        refine ⟨(stores.leftAt plan all opts batchSize w.cursor).take batchSize :: pages,
          fun fuel enough => ?_, ?_⟩
        · obtain ⟨fuel, rfl⟩ := Nat.exists_eq_add_one_of_ne_zero (Nat.ne_zero_of_lt enough)
          rw [Stores.walk, read]
          simp only [ends, forward]
          rw [if_neg fun stop => short stop.1]
          have next := walked fuel (by omega)
          simp only [noSkip, append_nil] at next ⊢
          rw [next]
          rfl
        · rw [flatten_cons, joined, rest, take_append_drop]

end Walks

/-! ## The whole stream -/

/-- Every matching row of the live index and the archives. -/
def Stores.contents (stores : Stores Row) (archSources : List String) : List (ResultRow Row) :=
  stores.live.rows ++ archSources.flatMap fun s => (stores.archive s).rows

theorem Stores.mem_contents_of_reachable {stores : Stores Row} {plan : Option QueryPlan}
    (member : r ∈ stores.reachable plan archSources) : r ∈ stores.contents archSources := by
  rcases Stores.mem_reachable_iff.mp member with ⟨-, live⟩ | archived
  · exact mem_append_left _ live
  · exact mem_append_right _ (mem_flatMap.mpr archived)

theorem mergedRows_pageOptions (unset : opts.afterEvent = none) (batchSize : ℕ)
    (rows : List (ResultRow Row)) :
    mergedRows (pageOptions opts batchSize none) rows = mergedRows opts rows := by
  have same : (pageOptions opts batchSize none).selects = opts.selects := by
    funext r
    rw [Bool.eq_iff_iff, selects_pageOptions unset]
    simp
  rw [mergedRows, same, mergedRows]

/-- What can be reached is everything exactly when the live index is read or adds nothing. -/
theorem mergedRows_reachable_iff {stores : Stores Row} {plan : Option QueryPlan}
    (copies : Copies (stores.contents archSources)) :
    mergedRows opts (stores.reachable plan archSources) =
        mergedRows opts (stores.contents archSources) ↔
      archSources = [] ∨ skipMySQL plan = false ∨
        ∀ r ∈ stores.live.rows, opts.selects r = true →
          ∃ s ∈ archSources, r ∈ (stores.archive s).rows := by
  have part : Copies (stores.reachable plan archSources) :=
    copies.subset fun r => Stores.mem_contents_of_reachable
  constructor
  · intro same
    by_cases unread : archSources ≠ [] ∧ skipMySQL plan = true
    · refine .inr (.inr fun r live selected => ?_)
      have listed : r ∈ mergedRows opts (stores.contents archSources) :=
        (mem_mergedRows copies).mpr ⟨mem_append_left _ live, selected⟩
      rw [← same] at listed
      rcases Stores.mem_reachable_iff.mp ((mem_mergedRows part).mp listed).1 with read | archived
      · exact absurd unread read.1
      · exact archived
    · by_cases none_ : archSources = []
      · exact .inl none_
      · exact .inr (.inl (Bool.eq_false_iff.mpr fun skip => unread ⟨none_, skip⟩))
  · intro enough
    refine eq_of_key_lt (mergedRows_sorted _ _) (mergedRows_sorted _ _) fun r => ?_
    rw [mem_mergedRows part, mem_mergedRows copies]
    refine and_congr_left fun selected => ⟨Stores.mem_contents_of_reachable, fun member =>
      Stores.mem_reachable_iff.mpr ?_⟩
    rcases mem_append.mp member with live | archived
    · rcases enough with none_ | read | copied
      · exact .inl ⟨fun unread => unread.1 none_, live⟩
      · exact .inl ⟨fun unread => Bool.false_ne_true (read.symm.trans unread.2), live⟩
      · exact .inr (copied r live selected)
    · exact .inr (mem_flatMap.mp archived)

/-- The stream ends after at most one page more than there are matching rows. Its pages are
those rows, each once and in order, exactly when the plan does not leave the live index
unread, or the archives hold what the live index has of the window. -/
theorem stream_complete_iff (pkGroup : String → String) (stores : Stores Row) (allowGaps : Bool)
    (plan : Option QueryPlan) (archSources : List String) (opts : QueryOptions Row)
    (batchSize : ℕ) (ok : Streamable opts) (copies : Copies (stores.contents archSources))
    (isTrue : ∀ p ∈ plan, p.TrueOf (archSources.flatMap fun s => (stores.archive s).rows))
    (noGaps : ∀ p ∈ plan, p.gapHours = [] ∨ allowGaps = true)
    (readable : ∀ pageOpts, ∀ s ∈ archSources, stores.fails pageOpts s = false) :
    ∃ pages : List (List (ResultRow Row)),
      (∀ fuel, (mergedRows opts (stores.contents archSources)).length < fuel →
        stores.fetchMergedStream pkGroup allowGaps plan archSources opts batchSize fuel =
          .ok (some (pages, .done []))) ∧
      (pages.flatten = mergedRows opts (stores.contents archSources) ↔
        archSources = [] ∨ skipMySQL plan = false ∨
          ∀ r ∈ stores.live.rows, opts.selects r = true →
            ∃ s ∈ archSources, r ∈ (stores.archive s).rows) := by
  have runs : stores.Streams plan archSources opts
      (if batchSize = 0 then defaultStreamBatchSize else batchSize) := by
    refine ⟨ok, ?_, copies, isTrue, readable⟩
    split
    · decide
    · assumption
  have left : stores.Remaining plan archSources opts
      (if batchSize = 0 then defaultStreamBatchSize else batchSize) archSources none :=
    ⟨fun _ => id, fun s listed gone => absurd listed gone, fun unread => unread.1⟩
  obtain ⟨pages, walked, joined⟩ := runs.walk_eq pkGroup allowGaps ⟨archSources, none, []⟩ left rfl
  simp only [mergedRows_pageOptions ok.fromStart] at walked joined
  refine ⟨pages, fun fuel enough => ?_, ?_⟩
  · have refused : (plan.bind fun p =>
        if p.gapHours ≠ [] ∧ allowGaps = false then some p.gapHours else none) = none := by
      cases plan with
      | none => rfl
      | some p =>
        refine if_neg fun gaps => ?_
        rcases noGaps p rfl with none_ | allowed
        · exact gaps.1 none_
        · rw [allowed] at gaps
          cases gaps.2
    have fits : (mergedRows opts (stores.reachable plan archSources)).length < fuel := by
      refine lt_of_le_of_lt (List.Sublist.length_le ?_) enough
      refine sublist_of_key_lt (mergedRows_sorted _ _) (mergedRows_sorted _ _) fun r member => ?_
      obtain ⟨stored, selected⟩ := (mem_mergedRows runs.copies_reachable).mp member
      exact (mem_mergedRows copies).mpr ⟨Stores.mem_contents_of_reachable stored, selected⟩
    unfold Stores.fetchMergedStream
    rw [if_neg (by rw [ok.ascending]; decide), if_neg (by simp [ok.unlimited, ok.uncapped]),
      if_neg (by simp [ok.fromStart]), if_neg (by simp [ok.toEnd]), refused]
    exact congrArg _ (walked fuel fits)
  · rw [joined]
    exact mergedRows_reachable_iff copies

theorem lateLabels_ascending : [(10 : ℤ)].Pairwise (· < ·) := by decide

theorem lateLabels_set : ∀ label ∈ [(10 : ℤ)], zeroTime < labelTime label := by decide

/-- Hour 10 is live and hours 8 and 9 are archived. `backfilled` was captured after hour 8
had been archived and dropped, and `RANGE` put it into the partition of hour 10. -/
def lateLayout : PartitionLayout := ⟨[10], lateLabels_ascending, lateLabels_set⟩

def lateCoverage : CoverageRead := .rows [⟨8, zeroTime, zeroTime⟩, ⟨9, zeroTime, zeroTime⟩]

def backfilled : ResultRow Unit := changeAt 5 (labelTime 8 + 2)

def lateStores : Stores Unit where
  live := ⟨[backfilled, changeAt 6 (labelTime 10)], by decide, by decide⟩
  archive := fun _ => ⟨[changeAt 1 (labelTime 8 + 1), changeAt 2 (labelTime 8 + 1),
    changeAt 3 (labelTime 9)], by decide⟩

/-- The window of hours 8 and 9, two rows a page: the backfilled row is not delivered. -/
theorem lateStores_stream_incomplete :
    let opts : QueryOptions Unit := { since := some (labelTime 8), untilTime := some (labelTime 9) }
    lateStores.fetchMergedStream id false
        (plan (labelTime 11) lateLayout.liveHours lateCoverage opts.since opts.untilTime false)
        ["archive"] opts 2 9 =
      .ok (some ([[changeAt 1 (labelTime 8 + 1), changeAt 2 (labelTime 8 + 1)],
        [changeAt 3 (labelTime 9)]], .done [])) ∧
    backfilled ∈ lateStores.live.rows ∧ opts.selects backfilled = true := by
  decide

/-- From hour 8 on, with the live index read: every row, one a page. -/
theorem lateStores_stream_complete :
    let opts : QueryOptions Unit := { since := some (labelTime 8) }
    ∃ pages : List (List (ResultRow Unit)),
      lateStores.fetchMergedStream id false
          (plan (labelTime 11) lateLayout.liveHours lateCoverage opts.since opts.untilTime false)
          ["archive"] opts 1 9 = .ok (some (pages, .done [])) ∧
        pages.flatten = [changeAt 1 (labelTime 8 + 1), changeAt 2 (labelTime 8 + 1), backfilled,
          changeAt 3 (labelTime 9), changeAt 6 (labelTime 10)] := by
  intro opts
  obtain ⟨pages, walked, complete⟩ := stream_complete_iff id lateStores false
    (plan (labelTime 11) lateLayout.liveHours lateCoverage opts.since opts.untilTime false)
    ["archive"] opts 1 ⟨rfl, rfl, rfl, rfl, rfl⟩ (by unfold Copies; decide)
    (fun p made => plan_trueOf (fun a member => ⟨⟨9, zeroTime, zeroTime⟩, by decide, by
      revert a; decide⟩) made)
    (by decide) (by intro _ _ _; rfl)
  refine ⟨pages, walked 9 (by decide), ?_⟩
  rw [complete.mpr (.inr (.inl (by decide)))]
  decide

end Dbtrail
