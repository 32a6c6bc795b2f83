import Dbtrail.Query.LatestPerPK
import Dbtrail.Query.Stream

/-!
# The latest changes of each key, from every source

A merged fetch that asks for the latest changes of each key in binlog order reads the
candidates of the live index and of every archive, merges them with the spans they carry,
and reads the history of the keys that need it from the same sources.

`holdsLast_candidates` says that however a history is split, the candidates of all
sources hold its last changes by time and by id, and `latestInBinlog_perm` what comes
back for each key.
-/

namespace Dbtrail

open List

variable {Row : Type}

/-! ## From the stores -/

/-- The candidates of the live index and of every archive. -/
def Stores.candidates (stores : Stores Row) (pkGroup : String → String)
    (archSources : List String) (opts : QueryOptions Row) : List (Candidate Row) :=
  mergeCandidates (fetchCandidates pkGroup opts stores.live.rows ++
    archSources.flatMap fun s => fetchCandidates id opts (stores.archive s).rows)

def historyBatch : ℕ := 500

def historyOptions (opts : QueryOptions Row) (pks : List String) : QueryOptions Row :=
  { opts with limitPerPK := 0, latestPerPKCandidates := false, pkValues := "", pkValuesIn := pks }

/-- Every change of the named keys, from the same sources. -/
def Stores.fetchKeyHistory (stores : Stores Row) (pkGroup : String → String)
    (archSources : List String) (opts : QueryOptions Row) (pks : List String) :
    List (ResultRow Row) :=
  (batchesOf historyBatch pks).flatMap fun batch =>
    mergeAndTrim (stores.live.fetch pkGroup (historyOptions opts batch) ++
      archSources.flatMap fun s => (stores.archive s).fetch (historyOptions opts batch))
      opts.limit 0 opts.order

/-- A merged fetch that keeps the latest changes of each key in binlog order. -/
def Stores.latestInBinlog (stores : Stores Row) (pkGroup : String → String)
    (archSources : List String) (opts : QueryOptions Row)
    (idsFollowBinlog : List (ResultRow Row) → IDProof) :
    Except String (List (ResultRow Row) × LatestPerPKOrder) :=
  latestPerPKInBinlog (stores.candidates pkGroup archSources opts) opts.limitPerPK
    idsFollowBinlog
    (some fun pks => .ok (stores.fetchKeyHistory pkGroup archSources opts pks))

/-! ## Merged candidates -/

theorem mergeCandidate_row (kept : List (Candidate Row)) (c : Candidate Row) :
    (mergeCandidate kept c).map Candidate.row =
      kept.map Candidate.row ++
        if c.row.eventID ∈ kept.map (·.row.eventID) then [] else [c.row] := by
  unfold mergeCandidate
  split
  · rw [append_nil, map_map]
    refine map_congr_left fun k _ => ?_
    rw [Function.comp_apply]
    split
    · rfl
    · rfl
  · rw [map_append]
    rfl

/-- Under the spans, candidates merge as rows do. -/
theorem foldl_mergeCandidate_row (cs kept : List (Candidate Row)) :
    (cs.foldl mergeCandidate kept).map Candidate.row =
      kept.map Candidate.row ++ firstOfEachFrom ResultRow.eventID
        (kept.map (·.row.eventID)) (cs.map Candidate.row) := by
  induction cs generalizing kept with
  | nil => exact (append_nil _).symm
  | cons c cs ih =>
    have ids : (mergeCandidate kept c).map (·.row.eventID) =
        ((mergeCandidate kept c).map Candidate.row).map ResultRow.eventID := by
      rw [map_map]
      rfl
    rw [foldl_cons, ih, ids, mergeCandidate_row, map_cons, firstOfEachFrom]
    split
    next => rw [append_nil, map_map]; rfl
    next =>
      rw [append_assoc, singleton_append]
      refine congrArg _ (congrArg _ (firstOfEachFrom_congr (fun i => ?_) _))
      simp [or_comm]

theorem mergeCandidates_rows (cs : List (Candidate Row)) :
    ((mergeCandidates cs).map Candidate.row).Perm
      (firstOfEach ResultRow.eventID (cs.map Candidate.row)) := by
  have rows := foldl_mergeCandidate_row cs []
  rw [map_nil, nil_append] at rows
  rw [firstOfEach, ← map_nil, ← rows]
  exact (perm_insertionSort _ _).map Candidate.row

/-- The last coordinate of a span, where there is one, is of the kind `P` that its event
allows. -/
def SpanOf (P : ℕ → ℕ ×ₗ String ×ₗ ℕ → Prop) (c : Candidate Row) : Prop :=
  ∀ last ∈ c.keySpanLast, P c.row.eventID last

theorem mergeCandidates_span {P : ℕ → ℕ ×ₗ String ×ₗ ℕ → Prop} {cs : List (Candidate Row)}
    (each : ∀ c ∈ cs, SpanOf P c) : ∀ c ∈ mergeCandidates cs, SpanOf P c := by
  have folded : ∀ kept : List (Candidate Row), (∀ c ∈ kept, SpanOf P c) →
      ∀ c ∈ cs.foldl mergeCandidate kept, SpanOf P c := by
    induction cs with
    | nil => exact fun _ held => held
    | cons c cs ih =>
      intro kept held
      refine ih (fun d member => each d (mem_cons_of_mem c member)) _ ?_
      have here := each c mem_cons_self
      intro d member
      unfold mergeCandidate at member
      split at member
      next =>
        obtain ⟨e, listed, rfl⟩ := mem_map.mp member
        split
        next same =>
          intro last merged
          rcases mem_of_mem_merge max_choice merged with own | dup
          · exact held e listed last own
          · exact (show P e.row.eventID last from same ▸ here last dup)
        next => exact held e listed
      next =>
        exact forall_mem_append.mpr ⟨held, forall_mem_singleton.mpr here⟩ d member
  intro c member
  exact folded [] (fun _ none_ => absurd none_ not_mem_nil) c
    ((perm_insertionSort _ _).mem_iff.mp member)

/-! ## One source -/

/-- The key's changes that the options select, one copy of each, in order of time. -/
def keyHistory (opts : QueryOptions Row) (stored : List (ResultRow Row)) (k : String) :
    List (ResultRow Row) :=
  keyRows k (mergedRows opts stored)

/-- The collation of a source's keys holds `k` apart from its other keys. -/
def KeyApart (pkGroup : String → String) (rows : List (ResultRow Row)) (k : String) : Prop :=
  ∀ r ∈ rows, pkGroup r.pkValues = pkGroup k → r.pkValues = k

theorem fetchCandidates_rows (pkGroup : String → String) (opts : QueryOptions Row)
    (rows : List (ResultRow Row)) :
    (fetchCandidates pkGroup opts rows).map Candidate.row =
      fetchRows pkGroup (candidateOptions opts) rows := by
  rw [fetchCandidates, map_map]
  exact map_id _

section OneSource

variable {opts : QueryOptions Row} {pkGroup : String → String} {k : String}
  {stored rows : List (ResultRow Row)}

theorem keyHistory_ordered (opts : QueryOptions Row) (stored : List (ResultRow Row)) (k : String) :
    InKeyOrder .asc (keyHistory opts stored k) :=
  (mergedRows_sorted opts stored).sublist filter_sublist

theorem keyHistory_nodup (opts : QueryOptions Row) (stored : List (ResultRow Row)) (k : String) :
    ((keyHistory opts stored k).map ResultRow.eventID).Nodup := by
  refine (filter_sublist.map _).nodup ?_
  exact ((orderRows_perm .asc _).map _).nodup_iff.mpr (firstOfEachFrom_nodup [] _)

theorem mem_keyHistory (copies : Copies stored) {r : ResultRow Row} :
    r ∈ keyHistory opts stored k ↔ r ∈ stored ∧ opts.selects r = true ∧ r.pkValues = k := by
  rw [keyHistory, mem_keyRows, mem_mergedRows copies, and_assoc]

/-- A source's changes of the key above a given one are changes of its history above it. -/
theorem countP_above_le (copies : Copies stored) (nodup : (rows.map ResultRow.eventID).Nodup)
    (sub : ∀ r ∈ rows, r ∈ stored) (apart : KeyApart pkGroup rows k)
    (above : ResultRow Row → Bool) :
    (rows.filter opts.selects).countP
        (fun s => decide (pkGroup s.pkValues = pkGroup k) && above s) ≤
      (keyHistory opts stored k).countP above := by
  refine countP_le_of_imp ((List.Nodup.of_map _ nodup).filter _) fun s member counted => ?_
  obtain ⟨listed, selected⟩ := mem_filter.mp member
  rw [Bool.and_eq_true, decide_eq_true_eq] at counted
  exact ⟨(mem_keyHistory copies).mpr ⟨sub s listed, selected, apart s listed counted.1⟩, counted.2⟩

/-- The changes late in the key's history are among the candidates of each source that
has them. -/
theorem mem_fetchRows_of_late (unlimited : opts.limit = 0) (copies : Copies stored)
    (nodup : (rows.map ResultRow.eventID).Nodup) (sub : ∀ r ∈ rows, r ∈ stored)
    (apart : KeyApart pkGroup rows k) {r : ResultRow Row} (member : r ∈ rows)
    (late : r ∈ (keyHistory opts stored k).rtake opts.limitPerPK ∨
      r ∈ (orderByID (keyHistory opts stored k)).rtake opts.limitPerPK) :
    r ∈ fetchRows pkGroup (candidateOptions opts) rows := by
  have listed : r ∈ keyHistory opts stored k := by
    rcases late with byTime | byID
    · exact (drop_sublist _ _).subset byTime
    · exact (orderByID_perm _).mem_iff.mp ((drop_sublist _ _).subset byID)
  obtain ⟨-, selected, rfl⟩ := (mem_keyHistory copies).mp listed
  have found : r ∈ rows.filter opts.selects := mem_filter.mpr ⟨member, selected⟩
  have same : (candidateOptions opts).selects = opts.selects := rfl
  have noLimit : (candidateOptions opts).limit = 0 := unlimited
  rw [fetchRows, noLimit, capAt_zero, (orderRows_perm _ _).mem_iff, narrowKeys, same]
  split
  · exact found
  · refine mem_filter.mpr ⟨found, ?_⟩
    rw [Bool.or_eq_true, show (candidateOptions opts).latestPerPKCandidates = true from rfl,
      Bool.true_and]
    rcases late with byTime | byID
    · refine .inl (decide_eq_true (lt_of_le_of_lt ?_
        (countP_lt_of_mem_rtake (keyHistory_ordered opts stored r.pkValues) byTime)))
      simpa [ranksInLatest, Bool.decide_and] using
        countP_above_le copies nodup sub apart fun s => decide (r.eventKey < s.eventKey)
    · refine .inr (decide_eq_true (lt_of_le_of_lt ?_
        (countP_lt_of_mem_rtake (orderByID_sorted (keyHistory_nodup opts stored r.pkValues)) byID)))
      rw [(orderByID_perm _).countP_eq]
      simpa [ranksInLatest, Bool.decide_and] using
        countP_above_le copies nodup sub apart fun s => decide (r.eventID < s.eventID)

/-- The last coordinate a source gives for the key is one of its history's. -/
theorem fetchCandidates_span (copies : Copies stored) (sub : ∀ r ∈ rows, r ∈ stored)
    (apart : KeyApart pkGroup rows k) :
    ∀ c ∈ fetchCandidates pkGroup opts rows, SpanOf
      (fun eventID last => ∀ r ∈ stored, r.eventID = eventID → r.pkValues = k →
        ∃ s ∈ keyHistory opts stored k, keySpanCoord s = last) c := by
  intro c member last isLast r listed sameID named
  obtain ⟨t, fetched, rfl⟩ := mem_map.mp member
  have eq : r = t := copies r listed t (sub t (mem_of_mem_fetchRows fetched).1) sameID
  obtain ⟨s, change, rfl⟩ := mem_map.mp (max?_eq_some_iff.mp isLast).1
  obtain ⟨held, group⟩ := mem_filter.mp change
  obtain ⟨inRows, selected⟩ := mem_filter.mp held
  refine ⟨s, (mem_keyHistory copies).mpr ⟨sub s inRows, selected, apart s inRows ?_⟩, rfl⟩
  rw [← named, eq]
  exact of_decide_eq_true group

end OneSource

/-! ## All sources -/

section AllSources

variable {stores : Stores Row} {pkGroup : String → String} {archSources : List String}
  {opts : QueryOptions Row} {k : String}

/-- The rows that the candidates are merged from. -/
theorem candidates_rows_perm :
    ((stores.candidates pkGroup archSources opts).map Candidate.row).Perm
      (firstOfEach ResultRow.eventID
        (fetchRows pkGroup (candidateOptions opts) stores.live.rows ++
          archSources.flatMap fun s =>
            fetchRows id (candidateOptions opts) (stores.archive s).rows)) := by
  refine (mergeCandidates_rows _).trans (List.Perm.of_eq (congrArg _ ?_))
  rw [map_append, fetchCandidates_rows, map_flatMap]
  exact congrArg _ (flatMap_congr fun s _ => fetchCandidates_rows id opts _)

theorem candidates_nodup :
    (((stores.candidates pkGroup archSources opts).map Candidate.row).map
      ResultRow.eventID).Nodup :=
  (candidates_rows_perm.map _).nodup_iff.mpr (firstOfEachFrom_nodup [] _)

/-- A row of the stores is in one of the sources. -/
theorem mem_contents_iff {r : ResultRow Row} :
    r ∈ stores.contents archSources ↔
      r ∈ stores.live.rows ∨ ∃ s ∈ archSources, r ∈ (stores.archive s).rows := by
  rw [Stores.contents, mem_append, mem_flatMap]

theorem mem_candidates_iff (copies : Copies (stores.contents archSources)) {r : ResultRow Row} :
    r ∈ (stores.candidates pkGroup archSources opts).map Candidate.row ↔
      r ∈ fetchRows pkGroup (candidateOptions opts) stores.live.rows ∨
        ∃ s ∈ archSources, r ∈ fetchRows id (candidateOptions opts) (stores.archive s).rows := by
  have part : ∀ r ∈ fetchRows pkGroup (candidateOptions opts) stores.live.rows ++
      archSources.flatMap (fun s => fetchRows id (candidateOptions opts) (stores.archive s).rows),
      r ∈ stores.contents archSources := by
    intro r member
    rcases mem_append.mp member with live | archived
    · exact mem_contents_iff.mpr (.inl (mem_of_mem_fetchRows live).1)
    · obtain ⟨s, source, held⟩ := mem_flatMap.mp archived
      exact mem_contents_iff.mpr (.inr ⟨s, source, (mem_of_mem_fetchRows held).1⟩)
  rw [candidates_rows_perm.mem_iff, mem_firstOfEach (copies.subset part), mem_append,
    mem_flatMap]

/-- The candidates of all sources hold the last changes of the key over all of them. -/
theorem holdsLast_candidates (unlimited : opts.limit = 0)
    (copies : Copies (stores.contents archSources))
    (apart : KeyApart pkGroup stores.live.rows k) :
    HoldsLast opts.limitPerPK
      (candidateRows (stores.candidates pkGroup archSources opts) k)
      (keyHistory opts (stores.contents archSources) k) := by
  have ordered := keyHistory_ordered opts (stores.contents archSources) k
  have member (r : ResultRow Row) :
      r ∈ candidateRows (stores.candidates pkGroup archSources opts) k ↔
        r ∈ (stores.candidates pkGroup archSources opts).map Candidate.row ∧ r.pkValues = k := by
    rw [candidateRows, mem_keyRows, (orderRows_perm .asc _).mem_iff]
  -- A late change is a candidate of whichever source has it.
  have late (r : ResultRow Row)
      (isLate : r ∈ (keyHistory opts (stores.contents archSources) k).rtake opts.limitPerPK ∨
        r ∈ (orderByID (keyHistory opts (stores.contents archSources) k)).rtake opts.limitPerPK)
      (listed : r ∈ keyHistory opts (stores.contents archSources) k) :
      r ∈ candidateRows (stores.candidates pkGroup archSources opts) k := by
    obtain ⟨stored, -, named⟩ := (mem_keyHistory copies).mp listed
    refine (member r).mpr ⟨(mem_candidates_iff copies).mpr ?_, named⟩
    rcases mem_contents_iff.mp stored with live | ⟨s, source, held⟩
    · exact .inl (mem_fetchRows_of_late unlimited copies stores.live.ids_nodup
        (fun t held => mem_contents_iff.mpr (.inl held)) apart live isLate)
    · exact .inr ⟨s, source, mem_fetchRows_of_late unlimited copies
        (stores.archive s).ids_nodup
        (fun t here => mem_contents_iff.mpr (.inr ⟨s, source, here⟩)) (fun _ _ => id) held isLate⟩
  refine ⟨ordered, keyHistory_nodup _ _ _, ?_, ?_, ?_⟩
  · refine sublist_of_key_lt
      ((orderRows_inKeyOrder .asc candidates_nodup).sublist filter_sublist) ordered ?_
    intro r held
    obtain ⟨candidate, named⟩ := (member r).mp held
    refine (mem_keyHistory copies).mpr ?_
    rcases (mem_candidates_iff copies).mp candidate with live | ⟨s, source, archived⟩
    · obtain ⟨listed, selected⟩ := mem_of_mem_fetchRows live
      exact ⟨mem_contents_iff.mpr (.inl listed), selected, named⟩
    · obtain ⟨listed, selected⟩ := mem_of_mem_fetchRows archived
      exact ⟨mem_contents_iff.mpr (.inr ⟨s, source, listed⟩), selected, named⟩
  · exact fun r isLate => late r (.inl isLate) ((drop_sublist _ _).subset isLate)
  · exact fun r isLate => late r (.inr isLate)
      ((orderByID_perm _).mem_iff.mp ((drop_sublist _ _).subset isLate))

/-- The span of the key's candidates ends at a coordinate of its history, at or after
each of theirs. -/
theorem keySpan_last (copies : Copies (stores.contents archSources))
    (apart : KeyApart pkGroup stores.live.rows k) (unlimited : opts.limit = 0)
    {last : ℕ ×ₗ String ×ₗ ℕ}
    (isLast : last ∈ (keySpan ((stores.candidates pkGroup archSources opts).filter
      fun c => c.row.pkValues == k)).last) :
    (∃ r ∈ keyHistory opts (stores.contents archSources) k, keySpanCoord r = last) ∧
      ∀ r ∈ candidateRows (stores.candidates pkGroup archSources opts) k,
        keySpanCoord r ≤ last := by
  obtain ⟨attained, most⟩ := max?_eq_some_iff.mp isLast
  have holds := holdsLast_candidates unlimited copies apart
  have spans : ∀ c ∈ stores.candidates pkGroup archSources opts, SpanOf
      (fun eventID last => ∀ r ∈ stores.contents archSources, r.eventID = eventID →
        r.pkValues = k → ∃ s ∈ keyHistory opts (stores.contents archSources) k,
          keySpanCoord s = last) c := by
    refine mergeCandidates_span fun c member => ?_
    rcases mem_append.mp member with live | archived
    · exact fetchCandidates_span copies (fun r held => mem_contents_iff.mpr (.inl held)) apart
        c live
    · obtain ⟨s, source, held⟩ := mem_flatMap.mp archived
      exact fetchCandidates_span copies
        (fun r here => mem_contents_iff.mpr (.inr ⟨s, source, here⟩)) (fun _ _ => id) c held
  have mine {c : Candidate Row} (member : c ∈ stores.candidates pkGroup archSources opts)
      (named : c.row.pkValues = k) :
      c.row ∈ keyHistory opts (stores.contents archSources) k := by
    refine holds.sub.subset (mem_keyRows.mpr ⟨(orderRows_perm .asc _).mem_iff.mpr ?_, named⟩)
    exact mem_map_of_mem member
  constructor
  · obtain ⟨c, held, rfl⟩ := mem_map.mp attained
    obtain ⟨member, named⟩ := mem_filter.mp held
    have listed := mine member (beq_iff_eq.mp named)
    unfold Candidate.lastCoord
    cases carried : c.keySpanLast with
    | none => exact ⟨c.row, listed, rfl⟩
    | some span =>
      rcases max_choice (keySpanCoord c.row) span with own | other
      · exact ⟨c.row, listed, own.symm⟩
      · obtain ⟨s, inHistory, eq⟩ := spans c member span carried c.row
          ((mem_keyHistory copies).mp listed).1 rfl (beq_iff_eq.mp named)
        exact ⟨s, inHistory, eq.trans other.symm⟩
  · intro r member
    obtain ⟨listed, named⟩ := mem_keyRows.mp member
    obtain ⟨c, held, rfl⟩ := mem_map.mp ((orderRows_perm .asc _).mem_iff.mp listed)
    have own : keySpanCoord c.row ≤ c.lastCoord := by
      unfold Candidate.lastCoord
      cases c.keySpanLast with
      | none => exact le_rfl
      | some span => exact le_max_left _ _
    exact own.trans (most _ (mem_map_of_mem (mem_filter.mpr ⟨held, beq_iff_eq.mpr named⟩)))

theorem selects_historyOptions {batch : List String} (nonempty : batch ≠ []) {r : ResultRow Row}
    (passes : opts.selectsPK r = true) :
    (historyOptions opts batch).selects r = (opts.selects r && batch.contains r.pkValues) := by
  have named : (historyOptions opts batch).selectsPK r = batch.contains r.pkValues := by
    simp [QueryOptions.selectsPK, historyOptions, nonempty]
  unfold QueryOptions.selects
  rw [named, passes]
  simp only [historyOptions, QueryOptions.selectsSince, QueryOptions.selectsUntil]
  grind

theorem mem_fetchRows_historyOptions (unlimited : opts.limit = 0) {batch : List String}
    {rows : List (ResultRow Row)} {r : ResultRow Row} :
    r ∈ fetchRows pkGroup (historyOptions opts batch) rows ↔
      r ∈ rows ∧ (historyOptions opts batch).selects r = true := by
  have noLimit : (historyOptions opts batch).limit = 0 := unlimited
  have noCap : (historyOptions opts batch).limitPerPK = 0 := rfl
  rw [fetchRows, noLimit, capAt_zero, (orderRows_perm _ _).mem_iff, narrowKeys, if_pos noCap,
    mem_filter]

/-- The history of the named keys holds every change of each. -/
theorem mem_fetchKeyHistory (unlimited : opts.limit = 0)
    (copies : Copies (stores.contents archSources)) {pks : List String} {r : ResultRow Row}
    (passes : opts.selectsPK r = true) (asked : r.pkValues ∈ pks) :
    r ∈ stores.fetchKeyHistory pkGroup archSources opts pks ↔
      r ∈ stores.contents archSources ∧ opts.selects r = true := by
  have inBatch (batch : List String) :
      r ∈ mergeAndTrim (stores.live.fetch pkGroup (historyOptions opts batch) ++
          archSources.flatMap fun s => (stores.archive s).fetch (historyOptions opts batch))
          opts.limit 0 opts.order ↔
        r ∈ stores.contents archSources ∧ (historyOptions opts batch).selects r = true := by
    have member (t : ResultRow Row) :
        t ∈ stores.live.fetch pkGroup (historyOptions opts batch) ++
            archSources.flatMap (fun s => (stores.archive s).fetch (historyOptions opts batch)) ↔
          t ∈ stores.contents archSources ∧ (historyOptions opts batch).selects t = true := by
      simp only [LiveIndex.fetch, ArchiveSource.fetch, mem_append, mem_flatMap,
        mem_fetchRows_historyOptions unlimited, mem_contents_iff]
      grind
    rw [mergeAndTrim, if_pos rfl, unlimited, capAt_zero, mergeResults, capAt_zero,
      (orderRows_perm _ _).mem_iff,
      mem_firstOfEach (copies.subset fun t held => ((member t).mp held).1), member]
  have pos : 0 < historyBatch := by decide
  rw [Stores.fetchKeyHistory, mem_flatMap]
  constructor
  · rintro ⟨batch, listed, held⟩
    obtain ⟨stored, selected⟩ := (inBatch batch).mp held
    rw [selects_historyOptions (ne_nil_of_mem_batchesFrom pos listed) passes, Bool.and_eq_true]
      at selected
    exact ⟨stored, selected.1⟩
  · rintro ⟨stored, selected⟩
    rw [← flatten_batchesOf pos pks, mem_flatten] at asked
    obtain ⟨batch, listed, named⟩ := asked
    refine ⟨batch, listed, (inBatch batch).mpr ⟨stored, ?_⟩⟩
    rw [selects_historyOptions (ne_nil_of_mem named) passes, selected, Bool.true_and]
    exact contains_iff_mem.mpr named

/-- With the history read, the changes a disagreeing key is decided over are all of them. -/
theorem mergeResults_history (unlimited : opts.limit = 0)
    (copies : Copies (stores.contents archSources))
    (apart : KeyApart pkGroup stores.live.rows k) {pks : List String} (asked : k ∈ pks)
    (met : candidateRows (stores.candidates pkGroup archSources opts) k ≠ []) :
    mergeResults (candidateRows (stores.candidates pkGroup archSources opts) k ++
        keyRows k (stores.fetchKeyHistory pkGroup archSources opts pks)) 0 .asc =
      keyHistory opts (stores.contents archSources) k := by
  have holds := holdsLast_candidates unlimited copies apart
  obtain ⟨c, candidate⟩ := exists_mem_of_ne_nil _ met
  obtain ⟨-, selected, named⟩ := (mem_keyHistory copies).mp (holds.sub.subset candidate)
  have passes {r : ResultRow Row} (same : r.pkValues = k) : opts.selectsPK r = true := by
    have passed := QueryOptions.selectsPK_of_selects selected
    simp only [QueryOptions.selectsPK, named] at passed
    simpa only [QueryOptions.selectsPK, same] using passed
  have member (r : ResultRow Row) :
      r ∈ candidateRows (stores.candidates pkGroup archSources opts) k ++
          keyRows k (stores.fetchKeyHistory pkGroup archSources opts pks) ↔
        r ∈ keyHistory opts (stores.contents archSources) k := by
    rw [mem_append, mem_keyRows]
    constructor
    · rintro (mine | ⟨fetched, same⟩)
      · exact holds.sub.subset mine
      · have found := (mem_fetchKeyHistory unlimited copies (passes same) (same ▸ asked)).mp fetched
        exact (mem_keyHistory copies).mpr ⟨found.1, found.2, same⟩
    · intro held
      obtain ⟨stored, isSelected, same⟩ := (mem_keyHistory copies).mp held
      exact .inr ⟨(mem_fetchKeyHistory unlimited copies (passes same) (same ▸ asked)).mpr
        ⟨stored, isSelected⟩, same⟩
  have part : Copies (candidateRows (stores.candidates pkGroup archSources opts) k ++
      keyRows k (stores.fetchKeyHistory pkGroup archSources opts pks)) :=
    copies.subset fun r held => ((mem_keyHistory copies).mp ((member r).mp held)).1
  rw [mergeResults, capAt_zero]
  refine eq_of_key_lt (orderRows_inKeyOrder .asc (firstOfEachFrom_nodup [] _))
    (keyHistory_ordered _ _ _) fun r => ?_
  rw [(orderRows_perm .asc _).mem_iff, mem_firstOfEach part, member]

/-- The result is a decision for every key, and a key whose two latest sets differ is
decided over its whole history. -/
theorem latestInBinlog_eq (capped : opts.limitPerPK ≠ 0) (unlimited : opts.limit = 0)
    (copies : Copies (stores.contents archSources))
    (idsFollowBinlog : List (ResultRow Row) → IDProof) :
    ∃ all : String → List (ResultRow Row),
      stores.latestInBinlog pkGroup archSources opts idsFollowBinlog =
        .ok (decideKeys (stores.candidates pkGroup archSources opts) opts.limitPerPK
          idsFollowBinlog all) ∧
      (∀ pk, ∀ r ∈ all pk, r.pkValues = pk) ∧
      ∀ k, k ≠ "" → KeyApart pkGroup stores.live.rows k →
        (latestPerPKCandidates (candidateRows (stores.candidates pkGroup archSources opts) k)
          opts.limitPerPK).2 = true →
        all k = keyHistory opts (stores.contents archSources) k := by
  have mine : ∀ pk, ∀ r ∈ candidateRows (stores.candidates pkGroup archSources opts) pk,
      r.pkValues = pk := fun pk r member => (mem_keyRows.mp member).2
  have met {k : String} (disagree : (latestPerPKCandidates
      (candidateRows (stores.candidates pkGroup archSources opts) k) opts.limitPerPK).2 = true) :
      candidateRows (stores.candidates pkGroup archSources opts) k ≠ [] := by
    intro empty
    rw [empty] at disagree
    exact Bool.false_ne_true disagree
  unfold Stores.latestInBinlog latestPerPKInBinlog
  dsimp only
  split
  next none_ =>
    have empty : stores.candidates pkGroup archSources opts = [] :=
      isEmpty_iff.mp (none_.resolve_left capped)
    refine ⟨fun _ => [], ?_, fun _ _ none_ => absurd none_ not_mem_nil, ?_⟩
    · rw [empty]
      rfl
    · intro k _ _ disagree
      refine absurd ?_ (met disagree)
      rw [empty]
      rfl
  next =>
    split
    next agreed =>
      refine ⟨_, rfl, mine, fun k named _ disagree => ?_⟩
      refine absurd disagree (filter_eq_nil_iff.mp agreed k ?_)
      exact mem_distinctKeys.mpr ⟨named, met disagree⟩
    next =>
      refine ⟨_, rfl, ?_, ?_⟩
      · intro pk r member
        rw [mergeResults, capAt_zero, (orderRows_perm .asc _).mem_iff] at member
        have listed := (firstOfEachFrom_sublist [] _).subset member
        rcases mem_append.mp listed with own | fetched
        · exact mine pk r own
        · exact (mem_keyRows.mp fetched).2
      · intro k named apart disagree
        refine mergeResults_history unlimited copies apart ?_ (met disagree)
        exact mem_filter.mpr ⟨mem_distinctKeys.mpr ⟨named, met disagree⟩, disagree⟩

end AllSources

/-- Over every split of a history between the live index and archives: what comes back
for a key are the last changes of its whole history in the order that `orderByBinlog`
puts it. Where the order of the binary log is shown for that history they are the last
in that order, and the key is not reported as refused; otherwise they are the last by
time and id. -/
theorem latestInBinlog_perm (stores : Stores Row) (pkGroup : String → String)
    (archSources : List String) (opts : QueryOptions Row)
    (idsFollowBinlog : List (ResultRow Row) → IDProof) (capped : opts.limitPerPK ≠ 0)
    (unlimited : opts.limit = 0) (copies : Copies (stores.contents archSources)) :
    ∃ (rows : List (ResultRow Row)) (o : LatestPerPKOrder),
      stores.latestInBinlog pkGroup archSources opts idsFollowBinlog = .ok (rows, o) ∧
      ∀ k, k ≠ "" → KeyApart pkGroup stores.live.rows k →
        let history := keyHistory opts (stores.contents archSources) k
        (keyRows k rows).Perm
            ((orderByBinlog id idsFollowBinlog history).2.rtake opts.limitPerPK) ∧
          (∀ ordered : List (ResultRow Row), OrderShown idsFollowBinlog history ordered →
            (keyRows k rows).Perm (ordered.rtake opts.limitPerPK) ∧ k ∉ o.refused) ∧
          history.Pairwise (fun a b => a.eventKey < b.eventKey) ∧
          ((∀ ordered, ¬ OrderShown idsFollowBinlog history ordered) →
            (keyRows k rows).Perm (history.rtake opts.limitPerPK)) := by
  obtain ⟨all, eq, own, whole⟩ : ∃ all : String → List (ResultRow Row),
      stores.latestInBinlog pkGroup archSources opts idsFollowBinlog = _ ∧ _ ∧ _ :=
    latestInBinlog_eq capped unlimited copies idsFollowBinlog
  refine ⟨_, _, eq, fun k named apart => ?_⟩
  have holds := holdsLast_candidates unlimited copies apart
  have kept : (keyRows k (decideKeys (stores.candidates pkGroup archSources opts) opts.limitPerPK
      idsFollowBinlog all).1).Perm
        ((orderByBinlog id idsFollowBinlog
          (keyHistory opts (stores.contents archSources) k)).2.rtake opts.limitPerPK) := by
    refine (keyRows_decideKeys named own).trans ?_
    split
    next met =>
      obtain ⟨r, member⟩ := exists_mem_of_ne_nil _ met
      exact decideKey_rows holds capped (ne_nil_of_mem (holds.sub.subset member))
        (whole k named apart)
    next unmet =>
      have empty : keyHistory opts (stores.contents archSources) k = [] := by
        have latest := holds.rtake_eq
        rw [not_not.mp unmet] at latest
        have length := congrArg length latest
        rw [length_rtake, length_rtake, length_nil] at length
        exact length_eq_zero_iff.mp (by omega)
      rw [empty,
        show (orderByBinlog id idsFollowBinlog ([] : List (ResultRow Row))).2 = [] from rfl,
        rtake_nil]
  refine ⟨kept, fun ordered shown => ⟨?_, ?_⟩, keyHistory_ordered _ _ _, fun unshown => ?_⟩
  · rwa [shown.eq] at kept
  · refine not_mem_refused (decideKey_refusal holds capped shown (whole k named apart) ?_)
    exact fun last isLast => keySpan_last copies apart unlimited isLast
  · rcases orderByBinlog_eq_or_shown idsFollowBinlog (keyHistory_nodup opts _ k) with same | shown
    · rwa [same] at kept
    · exact absurd shown (unshown _)

/-! ## A lock wait -/

/-- A change of row `k` at a position of the first binlog file. -/
def changeOfK (eventID startPos : ℕ) (time : ℤ) : ResultRow Unit where
  eventID := eventID
  binlogFile := "b.1"
  startPos := startPos
  endPos := startPos + 50
  eventTimestamp := time
  eventType := .update
  pkValues := "k"

/-- The second change waited for the first: it started earlier and committed later. Both
are live and the first is archived too. -/
def lockWait : Stores Unit where
  live := ⟨[changeOfK 1 100 20, changeOfK 2 200 10], by decide, by decide⟩
  archive := fun _ => ⟨[changeOfK 1 100 20], by decide⟩

/-- On an index that cannot show what its ids follow, the last change by time comes back,
and the key is reported. -/
theorem lockWait_unproven :
    let opts : QueryOptions Unit := { limitPerPK := 1 }
    (lockWait.latestInBinlog id ["archive"] opts fun _ => .unproven).map
        (fun result => (result.1.map ResultRow.eventID, result.2.refused)) = .ok ([1], ["k"]) ∧
      keyHistory opts (lockWait.contents ["archive"]) "k" =
        [changeOfK 2 200 10, changeOfK 1 100 20] ∧
      (changeOfK 1 100 20).stamp < (changeOfK 2 200 10).stamp := by
  decide

/-- The last change in binlog order where it is shown, and the last by time where it is not. -/
theorem lockWait_latestInBinlog :
    let opts : QueryOptions Unit := { limitPerPK := 1 }
    (∃ (rows : List (ResultRow Unit)) (o : LatestPerPKOrder),
      lockWait.latestInBinlog id ["archive"] opts (fun _ => .followStream) = .ok (rows, o) ∧
        keyRows "k" rows = [changeOfK 2 200 10] ∧ "k" ∉ o.refused) ∧
    ∃ (rows : List (ResultRow Unit)) (o : LatestPerPKOrder),
      lockWait.latestInBinlog id ["archive"] opts (fun _ => .unproven) = .ok (rows, o) ∧
        keyRows "k" rows = [changeOfK 1 100 20] := by
  intro opts
  constructor
  · obtain ⟨rows, o, eq, each⟩ := latestInBinlog_perm lockWait id ["archive"] opts
      (fun _ => .followStream) (by decide) rfl (by unfold Copies; decide)
    obtain ⟨-, shown, -⟩ := each "k" (by decide) (fun _ _ => id)
    obtain ⟨perm, unrefused⟩ := shown [changeOfK 1 100 20, changeOfK 2 200 10]
      ⟨by decide, by decide, by unfold RisesTo; decide, by decide, .inl rfl⟩
    exact ⟨rows, o, eq, perm_singleton.mp perm, unrefused⟩
  · obtain ⟨rows, o, eq, each⟩ := latestInBinlog_perm lockWait id ["archive"] opts
      (fun _ => .unproven) (by decide) rfl (by unfold Copies; decide)
    obtain ⟨-, -, -, otherwise⟩ := each "k" (by decide) (fun _ _ => id)
    refine ⟨rows, o, eq, perm_singleton.mp (otherwise fun ordered shown => ?_)⟩
    rcases shown.vouched.2 with stream | ⟨files, -⟩
    · cases stream
    · cases files

end Dbtrail
