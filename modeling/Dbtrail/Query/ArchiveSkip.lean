import Dbtrail.Query.Merge
import Dbtrail.Query.PlanCover

/-!
# Leaving the archives unread

`archivesNotNeeded` decides from the rows that the live index returned, and from a plan,
that no archive could change the answer of a query. Four tests can say so: the anchored
event is in hand, the window lies in the live hours, the newest page is full, every
named key has its latest rows.

A plan is true of the archived rows when its claim that they lie below the live hours is
(`QueryPlan.TrueOf`), and the planner's own plans are, of rows that lie below the upper
bound of the partition they were archived from (`planArchiveSkip_trueOf`).
-/

namespace Dbtrail

open List

variable {Row : Type} {archived others : List (ResultRow Row)} {layout : PartitionLayout}

/-! ## The tests -/

def anchorSatisfiedLive (opts : QueryOptions Row) (rows : List (ResultRow Row)) : Bool :=
  match opts.eventAnchor with
  | none => false
  | some anchor =>
      rows.any fun r => r.eventID == anchor.eventID && r.eventTimestamp == anchor.timestamp

/-- The one live range of a plan that knows the archives to lie below the live hours. -/
def provenRange (plan : Option QueryPlan) : Option TimeRange :=
  match plan with
  | none => none
  | some p =>
      match p.mySQLRanges with
      | [range] =>
          if p.archivesBelowLive && !p.archiveCoverageUnavailable then some range else none
      | _ => none

def windowSatisfiedLive (opts : QueryOptions Row) (plan : Option QueryPlan) : Bool :=
  match opts.since with
  | none => false
  | some since =>
      if opts.sincePos.isSome then false
      else
        match provenRange plan with
        | none => false
        | some range =>
            plan.all (fun p => p.misfiledArchiveHours.isEmpty) && decide (range.start ≤ since)

def topNSatisfiedLive (opts : QueryOptions Row) (rows : List (ResultRow Row))
    (plan : Option QueryPlan) : Bool :=
  if opts.limit = 0 ∨ rows.length < opts.limit ∨ opts.order ≠ .desc then false
  else
    match provenRange plan with
    | none => false
    | some range =>
        rows[opts.limit - 1]?.any fun cutoff => decide (range.start ≤ cutoff.eventTimestamp)

/-- The older of a row and what was found so far, the zero time being nothing. -/
def olderOf (oldest : ℤ) (r : ResultRow Row) : ℤ :=
  if oldest = zeroTime ∨ r.eventTimestamp < oldest then r.eventTimestamp else oldest

def oldestTimestamp (rows : List (ResultRow Row)) : ℤ := rows.foldl olderOf zeroTime

/-- The keys a query names. -/
def QueryOptions.names (opts : QueryOptions Row) : List String :=
  if opts.pkValues ≠ "" then [opts.pkValues] else opts.pkValuesIn

def perPKSatisfiedLive (opts : QueryOptions Row) (rows : List (ResultRow Row))
    (plan : Option QueryPlan) : Bool :=
  if opts.limitPerPK = 0 then false
  else if opts.latestPerPKCandidates then false
  else if opts.pkValuesAlt ≠ "" then false
  else if opts.pkAliases ≠ [] then false
  else if opts.names = [] then false
  else
    match provenRange plan with
    | none => false
    | some range =>
        (opts.names.all fun pk =>
          pk != "" && decide (opts.limitPerPK ≤ rows.countP fun r => r.pkValues = pk)) &&
        decide (range.start ≤ oldestTimestamp rows)

/-- `some kept` when the archives can be left unread, with the result. -/
def archivesNotNeeded (opts : QueryOptions Row) (rows : List (ResultRow Row))
    (plan : Option QueryPlan) : Option (List (ResultRow Row)) :=
  if anchorSatisfiedLive opts rows then some rows
  else if windowSatisfiedLive opts plan then some rows
  else if topNSatisfiedLive opts rows plan then some (rows.take opts.limit)
  else if perPKSatisfiedLive opts rows plan then some rows
  else none

/-- The per-key cap of the merge: none where the caller picks from candidates. -/
def QueryOptions.mergePerPK (opts : QueryOptions Row) : ℕ :=
  if opts.latestPerPKCandidates then 0 else opts.limitPerPK

/-! ## True plans -/

/-- The plan's ranges start at live hours, and where it says that the archives lie below
the live hours, they do. -/
def QueryPlan.TrueOf (plan : QueryPlan) (archived : List (ResultRow Row)) : Prop :=
  ∃ liveHours : List ℤ,
    (∀ range ∈ plan.mySQLRanges, range.start ∈ liveHours) ∧
    (plan.archivesBelowLive = true → plan.archiveCoverageUnavailable = false →
      ∀ a ∈ archived, ∀ h ∈ liveHours, a.eventTimestamp < h)

theorem lt_start_of_provenRange {plan : Option QueryPlan} (isTrue : ∀ p ∈ plan, p.TrueOf archived)
    {range : TimeRange} (proven : provenRange plan = some range) {a : ResultRow Row}
    (member : a ∈ archived) :
    a.eventTimestamp < range.start := by
  unfold provenRange at proven
  split at proven
  next => cases proven
  next p =>
    split at proven
    next single ranges =>
      split at proven
      next claims =>
        injection proven with eq
        subst eq
        obtain ⟨liveHours, starts, below⟩ := isTrue p rfl
        simp only [Bool.and_eq_true, Bool.not_eq_true'] at claims
        refine below claims.1 claims.2 a member _ (starts single ?_)
        rw [ranges]
        exact mem_singleton_self single
      next => cases proven
    next => cases proven

/-- The archived rows lie below the upper bound of the partition that their entry of
`archive_state` names; nothing is said where the table could not be read. -/
def CoverageRead.TrueOf (read : CoverageRead) (archived : List (ResultRow Row)) : Prop :=
  match read with
  | .rows cov => ∀ a ∈ archived, ∃ c ∈ cov, a.eventTimestamp < labelTime c.label + hour
  | .missingTable => archived = []
  | .failed => True

theorem start_mem_of_mem_ranges {rangeStart rangeEnd : ℤ} {range : TimeRange}
    (member : range ∈ buildContiguousRanges layout.liveHours rangeStart rangeEnd) :
    range.start ∈ layout.liveHours := by
  have runs := buildContiguousRanges_runs layout rangeStart rangeEnd
  obtain ⟨a, b, lt, rfl⟩ := runs.whole range member
  exact mem_of_mem_filter ((runs.mem_iff a).mpr ⟨_, member, le_rfl, labelTime_lt_iff.mpr lt⟩)

theorem isLeast_foldl_min (first : ℤ) (rest : List ℤ) :
    rest.foldl min first ∈ first :: rest ∧ ∀ h ∈ first :: rest, rest.foldl min first ≤ h :=
  min?_eq_some_iff.mp min?_cons'

theorem labelTime_mem_expandArchiveHours {cov : List ArchiveCoverage} {c : ArchiveCoverage}
    (member : c ∈ cov) : labelTime c.label ∈ expandArchiveHours cov := by
  simp only [expandArchiveHours, mem_insertionSort, mem_dedup, mem_flatMap]
  exact ⟨c, member, mem_cons_self⟩

/-- A row of an archive whose label lies below a live hour lies below it too. -/
theorem lt_of_label_lt {c : ArchiveCoverage} {t h : ℤ} (below : labelTime c.label < h)
    (live : h ∈ layout.liveHours) (bounded : t < labelTime c.label + hour) : t < h := by
  obtain ⟨label, -, rfl⟩ := mem_map.mp live
  have order : c.label < label := lt_of_mul_lt_mul_right below (by decide)
  have next : labelTime (c.label + 1) ≤ labelTime label := labelTime_le order
  rw [← labelTime_add_hour] at next
  exact bounded.trans_le next

theorem below_liveHours {read : CoverageRead} (covered : read.TrueOf archived)
    (readable : read ≠ .failed)
    (below : archivesBelowLive layout.liveHours (expandArchiveHours read.cov) = true) :
    ∀ a ∈ archived, ∀ h ∈ layout.liveHours, a.eventTimestamp < h := by
  intro a member h live
  cases read with
  | failed => exact absurd rfl readable
  | missingTable => rw [show archived = [] from covered] at member; cases member
  | rows cov =>
    obtain ⟨c, listed, bounded⟩ := covered a member
    refine lt_of_label_lt ?_ live bounded
    cases hours : layout.liveHours with
    | nil => rw [hours] at live; cases live
    | cons first rest =>
      rw [hours] at live below
      have under := all_eq_true.mp below _ (labelTime_mem_expandArchiveHours listed)
      exact (of_decide_eq_true under).trans_le ((isLeast_foldl_min first rest).2 h live)

section PlansAreTrue

variable {layout : PartitionLayout} {read : CoverageRead} {archived : List (ResultRow Row)}
  {since untilTime : Option ℤ} {p : QueryPlan}

theorem plan_trueOf {now : ℤ} (covered : read.TrueOf archived)
    (made : plan now layout.liveHours read since untilTime false = some p) :
    p.TrueOf archived := by
  unfold plan at made
  split at made
  next => cases made
  next =>
    simp only [buildPlan, Bool.false_eq_true, if_false, Option.map_map,
      Option.map_eq_some_iff, Function.comp_apply] at made
    obtain ⟨bounds, -, rfl⟩ := made
    refine ⟨layout.liveHours, fun range member => ?_, fun below available => ?_⟩
    · dsimp only at member
      split at member
      · exact start_mem_of_mem_ranges member
      · cases member
    · refine below_liveHours covered (fun failed => ?_) below
      simp [failed] at available

theorem planBrowse_trueOf (covered : read.TrueOf archived)
    (made : planBrowse layout.liveHours read = some p) : p.TrueOf archived := by
  have readable : read ≠ .failed := by
    rintro rfl
    cases made
  have browsed : browsePlanFromHours layout.liveHours (expandArchiveHours read.cov) = some p := by
    cases read with
    | failed => exact absurd rfl readable
    | rows | missingTable => exact made
  cases hours : layout.liveHours with
  | nil => rw [hours] at browsed; cases browsed
  | cons first rest =>
    rw [hours, browsePlanFromHours] at browsed
    split at browsed
    next below =>
      injection browsed with eq
      subst eq
      refine ⟨layout.liveHours, fun range member => ?_, fun _ _ => ?_⟩
      · rw [mem_singleton.mp member, hours]
        exact (isLeast_foldl_min first rest).1
      · exact below_liveHours covered readable (by rw [hours]; exact below)
    next => cases browsed

/-- The planner's plans are true of the archived rows. -/
theorem planArchiveSkip_trueOf {now : ℤ} (covered : read.TrueOf archived)
    (made : planArchiveSkip now layout.liveHours read since untilTime = some p) :
    p.TrueOf archived := by
  unfold planArchiveSkip at made
  split at made
  · exact plan_trueOf covered made
  · exact planBrowse_trueOf covered made

end PlansAreTrue

/-! ## Soundness -/

theorem withinCap_fetch (pkGroup : String → String) (index : LiveIndex Row)
    {opts : QueryOptions Row} (capped : opts.mergePerPK ≠ 0) :
    WithinCap opts.mergePerPK (index.fetch pkGroup opts) := by
  have whole : opts.latestPerPKCandidates = false := by
    rw [QueryOptions.mergePerPK] at capped
    exact Bool.eq_false_iff.mpr fun candidates => capped (if_pos candidates)
  have cap : opts.mergePerPK = opts.limitPerPK := by simp [QueryOptions.mergePerPK, whole]
  rw [cap] at capped ⊢
  intro r member
  by_cases unkeyed : r.pkValues = ""
  · -- A row without key values shares its bucket with no other.
    have alone : (index.fetch pkGroup opts).countP (fun s => pkBucket s = pkBucket r) ≤
        ((index.fetch pkGroup opts).map ResultRow.eventID).count r.eventID := by
      rw [count, countP_map]
      refine countP_mono_left fun s _ same => ?_
      simp only [pkBucket, unkeyed, if_true, decide_eq_true_eq] at same
      split at same
      · simpa using same
      · cases same
    have once := nodup_iff_count_le_one.mp (fetchRows_nodup pkGroup opts index.ids_nodup)
      r.eventID
    exact alone.trans (once.trans (Nat.one_le_iff_ne_zero.mpr capped))
  · refine le_trans (countP_mono_left fun s _ same => ?_)
      (countP_pk_fetchRows_le pkGroup capped whole index.ids_nodup r.pkValues)
    simp only [pkBucket, unkeyed, if_false, decide_eq_true_eq] at same ⊢
    split at same
    · cases same
    · exact Sum.inl.inj same

/-- What rows below the fetched ones add to them. -/
theorem mergeAndTrim_fetch (pkGroup : String → String) (index : LiveIndex Row)
    (opts : QueryOptions Row)
    (below : ∀ a ∈ fresh (index.fetch pkGroup opts) others, ∀ r ∈ index.fetch pkGroup opts,
      a.eventKey < r.eventKey) :
    ∃ older : List (ResultRow Row),
      (∀ a ∈ older, a ∈ fresh (index.fetch pkGroup opts) others) ∧
      ((∀ a ∈ fresh (index.fetch pkGroup opts) others, opts.mergePerPK ≤
          (index.fetch pkGroup opts).countP fun s => pkBucket s = pkBucket a) →
        opts.mergePerPK ≠ 0 → older = []) ∧
      mergeAndTrim (index.fetch pkGroup opts ++ others) opts.limit opts.mergePerPK opts.order =
        capAt opts.limit (withOlder opts.order older (index.fetch pkGroup opts)) :=
  mergeAndTrim_below opts.limit (fetchRows_nodup pkGroup opts index.ids_nodup)
    (fetchRows_inKeyOrder pkGroup opts index.ids_nodup) (withinCap_fetch pkGroup index) below

@[simp] theorem withOlder_nil (order : Direction) (rows : List (ResultRow Row)) :
    withOlder order [] rows = rows := by
  cases order with
  | asc => rfl
  | desc => exact append_nil rows

theorem capAt_fetch (pkGroup : String → String) (index : LiveIndex Row)
    (opts : QueryOptions Row) :
    capAt opts.limit (index.fetch pkGroup opts) = index.fetch pkGroup opts :=
  capAt_of_le fun limited => length_capAt_le limited _

/-- Copies of fetched rows add nothing. -/
theorem mergeAndTrim_of_fresh_nil (pkGroup : String → String) (index : LiveIndex Row)
    (opts : QueryOptions Row) (copies : fresh (index.fetch pkGroup opts) others = []) :
    mergeAndTrim (index.fetch pkGroup opts ++ others) opts.limit opts.mergePerPK opts.order =
      index.fetch pkGroup opts := by
  have below : ∀ a ∈ fresh (index.fetch pkGroup opts) others,
      ∀ r ∈ index.fetch pkGroup opts, a.eventKey < r.eventKey := by simp [copies]
  obtain ⟨older, old, -, merged⟩ := mergeAndTrim_fetch pkGroup index opts below
  have nothing : older = [] := by
    refine eq_nil_iff_forall_not_mem.mpr fun a member => ?_
    simpa [copies] using old a member
  rw [merged, nothing, withOlder_nil, capAt_fetch]

section Cases

variable {pkGroup : String → String} {index : LiveIndex Row} {opts : QueryOptions Row}
  {archived others : List (ResultRow Row)} {plan : Option QueryPlan} {rows : List (ResultRow Row)}

theorem fresh_nil_of_anchor (matching : ∀ a ∈ others, opts.selects a = true)
    (satisfied : anchorSatisfiedLive opts (index.fetch pkGroup opts) = true) :
    fresh (index.fetch pkGroup opts) others = [] := by
  unfold anchorSatisfiedLive at satisfied
  split at satisfied
  next => cases satisfied
  next anchor named =>
    obtain ⟨r, held, same⟩ := any_eq_true.mp satisfied
    simp only [Bool.and_eq_true, beq_iff_eq] at same
    refine firstOfEachFrom_of_seen fun a member => ?_
    have anchored := QueryOptions.selectsAnchor_of_selects named (matching a member)
    rw [anchored.2, ← same.1]
    exact mem_map_of_mem held

theorem fresh_nil_of_window (isTrue : ∀ p ∈ plan, p.TrueOf archived)
    (old : ∀ a ∈ others, a ∈ archived) (matching : ∀ a ∈ others, opts.selects a = true)
    (satisfied : windowSatisfiedLive opts plan = true) :
    fresh (index.fetch pkGroup opts) others = [] := by
  have noRow : others = [] := by
    refine eq_nil_iff_forall_not_mem.mpr fun a member => ?_
    have inside := QueryOptions.selectsSince_of_selects (matching a member)
    unfold windowSatisfiedLive at satisfied
    split at satisfied
    next => cases satisfied
    next since bounded =>
      split at satisfied
      next => cases satisfied
      next noPos =>
        split at satisfied
        next => cases satisfied
        next range proven =>
          have before := lt_start_of_provenRange isTrue proven (old a member)
          simp only [QueryOptions.selectsSince, bounded, noPos, Bool.false_eq_true, if_false,
            Bool.and_eq_true, decide_eq_true_eq] at inside satisfied
          omega
  rw [noRow]
  rfl

theorem below_of_timestamps {others : List (ResultRow Row)} {start : ℤ}
    (old : ∀ a ∈ others, a.eventTimestamp < start) (recent : ∀ r ∈ rows, start ≤ r.eventTimestamp) :
    ∀ a ∈ fresh rows others, ∀ r ∈ rows, a.eventKey < r.eventKey := by
  intro a memA r memR
  refine (ResultRow.eventKey_lt_iff a r).mpr (Or.inl ?_)
  exact (old a (mem_of_mem_fresh memA)).trans_le (recent r memR)

/-- On a newest-first page, no row is older than the last one. -/
theorem le_timestamp_of_last (inOrder : InKeyOrder .desc rows) {last r : ResultRow Row}
    (isLast : rows[rows.length - 1]? = some last) (member : r ∈ rows) :
    last.eventTimestamp ≤ r.eventTimestamp := by
  rw [← getLast?_eq_getElem?] at isLast
  obtain ⟨front, rfl⟩ := getLast?_eq_some_iff.mp isLast
  rcases mem_append.mp member with earlier | here
  · have lt := (pairwise_append.mp inOrder).2.2 r earlier last (mem_singleton_self last)
    rcases (ResultRow.eventKey_lt_iff last r).mp lt with older | ⟨same, -⟩
    · exact older.le
    · exact same.le
  · rw [mem_singleton.mp here]

theorem merged_of_topN (isTrue : ∀ p ∈ plan, p.TrueOf archived)
    (old : ∀ a ∈ others, a ∈ archived)
    (satisfied : topNSatisfiedLive opts (index.fetch pkGroup opts) plan = true) :
    mergeAndTrim (index.fetch pkGroup opts ++ others) opts.limit opts.mergePerPK opts.order =
      (index.fetch pkGroup opts).take opts.limit := by
  unfold topNSatisfiedLive at satisfied
  split at satisfied
  next => cases satisfied
  next premises =>
    push Not at premises
    obtain ⟨limited, filled, newestFirst⟩ := premises
    split at satisfied
    next => cases satisfied
    next range proven =>
      have full : (index.fetch pkGroup opts).length = opts.limit :=
        le_antisymm (length_capAt_le limited _) filled
      have inOrder := fetchRows_inKeyOrder pkGroup opts index.ids_nodup
      rw [newestFirst] at inOrder
      rw [Option.any_eq_true] at satisfied
      obtain ⟨cutoff, isLast, recent⟩ := satisfied
      rw [← full] at isLast
      have before : ∀ a ∈ others, a.eventTimestamp < range.start :=
        fun a member => lt_start_of_provenRange isTrue proven (old a member)
      have below := below_of_timestamps before fun r member =>
        (of_decide_eq_true recent).trans (le_timestamp_of_last inOrder isLast member)
      obtain ⟨older, -, -, merged⟩ := mergeAndTrim_fetch pkGroup index opts below
      rw [merged, newestFirst]
      exact capAt_append_of_le limited filled older

theorem foldl_olderOf_le (dated : ∀ r ∈ rows, zeroTime < r.eventTimestamp) (oldest : ℤ) :
    (oldest ≠ zeroTime → rows.foldl olderOf oldest ≤ oldest) ∧
      ∀ r ∈ rows, rows.foldl olderOf oldest ≤ r.eventTimestamp := by
  induction rows generalizing oldest with
  | nil => exact ⟨fun _ => le_rfl, fun r member => by cases member⟩
  | cons first rest ih =>
    have here := dated first mem_cons_self
    obtain ⟨atMost, each⟩ := ih (fun r member => dated r (mem_cons_of_mem first member))
      (olderOf oldest first)
    have step : olderOf oldest first ≠ zeroTime ∧ olderOf oldest first ≤ first.eventTimestamp ∧
        (oldest ≠ zeroTime → olderOf oldest first ≤ oldest) := by
      unfold olderOf
      split
      next taken => exact ⟨here.ne', le_rfl, fun held => (taken.resolve_left held).le⟩
      next kept =>
        push Not at kept
        exact ⟨kept.1, kept.2, fun _ => le_rfl⟩
    rw [foldl_cons]
    exact ⟨fun held => (atMost step.1).trans (step.2.2 held),
      forall_mem_cons.mpr ⟨(atMost step.1).trans step.2.1, each⟩⟩

theorem oldestTimestamp_le (pkGroup : String → String) (index : LiveIndex Row)
    (opts : QueryOptions Row) :
    ∀ r ∈ index.fetch pkGroup opts, oldestTimestamp (index.fetch pkGroup opts) ≤ r.eventTimestamp :=
  (foldl_olderOf_le (fun r member => index.dated r (mem_of_mem_fetchRows member).1) zeroTime).2

theorem mem_names_of_selects {r : ResultRow Row} (selected : opts.selects r = true)
    (noAlt : opts.pkValuesAlt = "") (named : opts.names ≠ []) : r.pkValues ∈ opts.names := by
  have key := QueryOptions.selectsPK_of_selects selected
  unfold QueryOptions.selectsPK at key
  unfold QueryOptions.names at named ⊢
  split at key
  next one =>
    rw [if_pos one]
    simpa [noAlt] using key
  next several =>
    rw [if_neg several] at named ⊢
    simpa [named] using key

section

variable (isTrue : ∀ p ∈ plan, p.TrueOf archived) (old : ∀ a ∈ others, a ∈ archived)
  (matching : ∀ a ∈ others, opts.selects a = true)

include isTrue old matching

theorem merged_of_perPK
    (satisfied : perPKSatisfiedLive opts (index.fetch pkGroup opts) plan = true) :
    mergeAndTrim (index.fetch pkGroup opts ++ others) opts.limit opts.mergePerPK opts.order =
      index.fetch pkGroup opts := by
  unfold perPKSatisfiedLive at satisfied
  simp only [Bool.if_false_left, Bool.and_eq_true, Bool.not_eq_true', decide_eq_false_iff_not,
    not_not] at satisfied
  obtain ⟨capped, whole, noAlt, -, named, satisfied⟩ := satisfied
  split at satisfied
  next => cases satisfied
  next range proven =>
    simp only [Bool.and_eq_true, all_eq_true, bne_iff_ne, decide_eq_true_eq] at satisfied
    obtain ⟨filled, recent⟩ := satisfied
    have cap : opts.mergePerPK = opts.limitPerPK := by simp [QueryOptions.mergePerPK, whole]
    have before : ∀ a ∈ others, a.eventTimestamp < range.start :=
      fun a member => lt_start_of_provenRange isTrue proven (old a member)
    have below := below_of_timestamps before fun r member =>
      recent.trans (oldestTimestamp_le pkGroup index opts r member)
    obtain ⟨older, -, nothing, merged⟩ := mergeAndTrim_fetch pkGroup index opts below
    -- Every archived row belongs to a named key, and each of those has its rows.
    have full : ∀ a ∈ fresh (index.fetch pkGroup opts) others,
        opts.mergePerPK ≤ (index.fetch pkGroup opts).countP fun s => pkBucket s = pkBucket a := by
      intro a member
      have selected := matching a (mem_of_mem_fresh member)
      obtain ⟨keyed, enough⟩ := filled _ (mem_names_of_selects selected noAlt named)
      rw [cap]
      refine enough.trans (countP_mono_left fun s _ same => ?_)
      simp only [decide_eq_true_eq] at same
      simp [pkBucket, same, keyed]
    rw [merged, nothing full (cap ▸ capped), withOlder_nil, capAt_fetch]

/-- Whatever matching rows of the archives are merged with the live rows, the answer is the
one that leaves them out. -/
theorem mergeAndTrim_of_archivesNotNeeded {kept : List (ResultRow Row)}
    (skipped : archivesNotNeeded opts (index.fetch pkGroup opts) plan = some kept) :
    mergeAndTrim (index.fetch pkGroup opts ++ others) opts.limit opts.mergePerPK opts.order =
      kept := by
  unfold archivesNotNeeded at skipped
  split at skipped
  next anchor =>
    injection skipped with eq
    rw [← eq, mergeAndTrim_of_fresh_nil pkGroup index opts (fresh_nil_of_anchor matching anchor)]
  next =>
    split at skipped
    next window =>
      injection skipped with eq
      rw [← eq, mergeAndTrim_of_fresh_nil pkGroup index opts
        (fresh_nil_of_window isTrue old matching window)]
    next =>
      split at skipped
      next topN =>
        injection skipped with eq
        rw [← eq, merged_of_topN isTrue old topN]
      next =>
        split at skipped
        next perPK =>
          injection skipped with eq
          rw [← eq, merged_of_perPK isTrue old matching perPK]
        next => cases skipped

end

end Cases

/-- Where the tests say that the archives can be left unread, the answer they give is the
merge of the live rows with every matching row of the archives. -/
theorem archivesNotNeeded_sound (pkGroup : String → String) (index : LiveIndex Row)
    (archived : List (ResultRow Row)) (plan : Option QueryPlan)
    (isTrue : ∀ p ∈ plan, p.TrueOf archived) (opts : QueryOptions Row)
    (kept : List (ResultRow Row))
    (skipped : archivesNotNeeded opts (index.fetch pkGroup opts) plan = some kept) :
    kept = mergeAndTrim (index.fetch pkGroup opts ++ archived.filter opts.selects) opts.limit
      opts.mergePerPK opts.order :=
  (mergeAndTrim_of_archivesNotNeeded isTrue (fun _ => mem_of_mem_filter)
    (fun _ member => (mem_filter.mp member).2) skipped).symm

/-- One change of key 1. -/
def changeAt (id : ℕ) (time : ℤ) : ResultRow Unit :=
  { eventID := id, binlogFile := "binlog.000003", startPos := 100 * id, endPos := 100 * id + 50
    eventTimestamp := time, eventType := .update, pkValues := "1" }

/-- Hours 10 and 11 are live and hour 9 is archived. The latest two changes of key 1 are
both live, one of them at the first instant of the live hours. -/
theorem latestTwo_skip_archives :
    let index : LiveIndex Unit :=
      ⟨[changeAt 3 (labelTime 10), changeAt 4 (labelTime 11)], by decide, by decide⟩
    let archived := [changeAt 1 (labelTime 9), changeAt 2 (labelTime 10 - 1)]
    let opts : QueryOptions Unit := { pkValues := "1", limitPerPK := 2, order := .desc }
    mergeAndTrim (index.fetch id opts ++ archived.filter opts.selects) opts.limit
      opts.mergePerPK opts.order = [changeAt 4 (labelTime 11), changeAt 3 (labelTime 10)] := by
  intro index archived opts
  let layout : PartitionLayout := ⟨[10, 11], by decide, by decide⟩
  refine (archivesNotNeeded_sound id index archived
    (planArchiveSkip (labelTime 12) layout.liveHours (.rows [⟨9, zeroTime, zeroTime⟩]) none none)
    (fun p made => planArchiveSkip_trueOf (fun a member => ⟨_, mem_singleton_self _, ?_⟩) made)
    opts _ (by decide)).symm
  revert a
  decide

end Dbtrail
