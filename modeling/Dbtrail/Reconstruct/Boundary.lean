import Dbtrail.Query.Fetch

/-!
# The transaction boundary of a point-in-time read

A transaction's rows carry the times of its statements, so a read up to a time can hold a
part of it. `trimPartialTailTransaction` drops the run of events at the end that share the
last event's GTID, when that transaction has an indexed event past the time.

`trimPartialTailTransaction_whole_iff` says when this is enough: when every event after one
of a straddling transaction belongs to the same transaction.
-/

namespace Dbtrail

open List

variable {Row : Type} {time : ℤ} {pkGroup : String → String}

/-- The events a reader can fetch, in the index or in archives. Times are stored as
`DATETIME(0)`. -/
structure IndexedEvents (Row : Type) : Type where
  rows : List (ResultRow Row)
  wholeSeconds : ∀ r ∈ rows, r.eventTimestamp % second = 0

/-- Any event of the transaction at or after `after`, on any table. -/
def gtidHasEventAfter (pkGroup : String → String) (index : IndexedEvents Row) (gtid : String)
    (after : ℤ) : Bool :=
  let opts : QueryOptions Row :=
    { since := some after, limit := 1, rowFilter := fun r => r.gtid == some gtid }
  !(fetchRows pkGroup opts index.rows).isEmpty

/-- `time` is the time of the cut, in microseconds. -/
def trimPartialTailTransaction (pkGroup : String → String) (index : IndexedEvents Row)
    (events : List (ResultRow Row)) (time : ℤ) : List (ResultRow Row) :=
  match events.getLast?.bind ResultRow.gtid with
  | none => events
  | some gtid =>
      if gtid = "" then events
      else if gtidHasEventAfter pkGroup index gtid (truncateTo second time + second) then
        events.rdropWhile fun e => e.gtid == some gtid
      else events

/-! ## Transactions across the cut -/

/-- The transaction of the event has an indexed event past the time. -/
def Straddles (index : IndexedEvents Row) (time : ℤ) (r : ResultRow Row) : Prop :=
  ∃ gtid ≠ "", r.gtid = some gtid ∧ ∃ e ∈ index.rows, e.gtid = some gtid ∧ time < e.eventTimestamp

variable {index : IndexedEvents Row}

theorem Straddles.of_gtid {r e : ResultRow Row} (straddles : Straddles index time r)
    (same : e.gtid = r.gtid) : Straddles index time e := by
  obtain ⟨gtid, nonempty, isGtid, past⟩ := straddles
  exact ⟨gtid, nonempty, same.trans isGtid, past⟩

/-- A whole second is past the time exactly when it is at or after the next one. -/
theorem lt_iff_next_second_le {t : ℤ} (whole : t % second = 0) :
    time < t ↔ truncateTo second time + second ≤ t := by
  have unit : (0 : ℤ) < second := by decide
  have low := Int.emod_nonneg time unit.ne'
  have high := Int.emod_lt_of_pos time unit
  obtain ⟨q, rfl⟩ := Int.dvd_of_emod_eq_zero whole
  have floor := Int.mul_ediv_add_emod time second
  rw [truncateTo]
  constructor
  · intro past
    have step : time / second < q := by
      by_contra notLess
      have le := Int.mul_le_mul_of_nonneg_left (not_lt.mp notLess) unit.le
      omega
    have le := Int.mul_le_mul_of_nonneg_left (Int.add_one_le_iff.mpr step) unit.le
    rw [Int.mul_add, Int.mul_one] at le
    omega
  · intro le
    omega

theorem gtidHasEventAfter_iff {gtid : String} {after : ℤ} :
    gtidHasEventAfter pkGroup index gtid after = true ↔
      ∃ e ∈ index.rows, e.gtid = some gtid ∧ after ≤ e.eventTimestamp := by
  have selected (e : ResultRow Row) : QueryOptions.selects
      { since := some after, limit := 1, rowFilter := fun r => r.gtid == some gtid } e = true ↔
        after ≤ e.eventTimestamp ∧ e.gtid = some gtid := by
    have floor : truncateTo hour after ≤ after := truncateTo_le (by decide)
    simp only [QueryOptions.selects, QueryOptions.selectsPK, QueryOptions.selectsSince,
      QueryOptions.selectsUntil, Bool.and_eq_true, beq_iff_eq]
    simp
    intro _ _
    omega
  rw [gtidHasEventAfter, Bool.not_eq_true', isEmpty_eq_false_iff_exists_mem]
  constructor
  · rintro ⟨e, member⟩
    obtain ⟨held, isSelected⟩ := mem_of_mem_fetchRows member
    obtain ⟨late, isGtid⟩ := (selected e).mp isSelected
    exact ⟨e, held, isGtid, late⟩
  · rintro ⟨e, held, isGtid, late⟩
    have inOrder : e ∈ orderRows .asc (index.rows.filter (QueryOptions.selects
        { since := some after, limit := 1, rowFilter := fun r => r.gtid == some gtid })) :=
      (orderRows_perm .asc _).mem_iff.mpr
        (mem_filter.mpr ⟨held, (selected e).mpr ⟨late, isGtid⟩⟩)
    rw [fetchRows, narrowKeys]
    dsimp only
    rw [if_pos rfl, capAt, if_neg one_ne_zero]
    obtain ⟨first, rest, eq⟩ := exists_cons_of_ne_nil (ne_nil_of_mem inOrder)
    rw [eq]
    exact ⟨first, mem_singleton_self first⟩

/-- The probe finds out whether the transaction straddles the time. -/
theorem gtidHasEventAfter_straddles {gtid : String} (nonempty : gtid ≠ "") {r : ResultRow Row}
    (isGtid : r.gtid = some gtid) :
    gtidHasEventAfter pkGroup index gtid (truncateTo second time + second) = true ↔
      Straddles index time r := by
  rw [gtidHasEventAfter_iff]
  constructor
  · rintro ⟨e, held, same, late⟩
    exact ⟨gtid, nonempty, isGtid, e, held, same,
      (lt_iff_next_second_le (index.wholeSeconds e held)).mpr late⟩
  · rintro ⟨other, -, isOther, e, held, same, past⟩
    rw [isGtid, Option.some.injEq] at isOther
    exact ⟨e, held, isOther ▸ same, (lt_iff_next_second_le (index.wholeSeconds e held)).mp past⟩

/-- What the trim returns: everything, where the last event's transaction is whole; else
everything before the run of that transaction at the end. -/
theorem trimPartialTailTransaction_cases (pkGroup : String → String) (index : IndexedEvents Row)
    (events : List (ResultRow Row)) (time : ℤ) :
    ((∀ last ∈ events.getLast?, ¬Straddles index time last) ∧
      trimPartialTailTransaction pkGroup index events time = events) ∨
    ∃ gtid run, (∀ e ∈ run, e.gtid = some gtid) ∧
      (∀ last ∈ (trimPartialTailTransaction pkGroup index events time).getLast?,
        last.gtid ≠ some gtid) ∧
      (∃ last ∈ events.getLast?, last.gtid = some gtid) ∧
      events = trimPartialTailTransaction pkGroup index events time ++ run := by
  unfold trimPartialTailTransaction
  split
  next noGtid =>
    refine Or.inl ⟨fun last isLast straddles => ?_, rfl⟩
    obtain ⟨gtid, -, isGtid, -⟩ := straddles
    rw [Option.mem_def.mp isLast, Option.bind_some, isGtid] at noGtid
    cases noGtid
  next gtid isGtid =>
    obtain ⟨last, isLast, lastGtid⟩ := Option.bind_eq_some_iff.mp isGtid
    have only (here : ¬Straddles index time last) :
        ∀ other ∈ events.getLast?, ¬Straddles index time other := by
      intro other isOther
      rw [isLast] at isOther
      cases isOther
      exact here
    split
    next empty =>
      refine Or.inl ⟨only fun straddles => ?_, rfl⟩
      obtain ⟨other, nonempty, isOther, -⟩ := straddles
      rw [lastGtid, empty, Option.some.injEq] at isOther
      exact nonempty isOther.symm
    next nonempty =>
      split
      next continues =>
        refine Or.inr ⟨gtid, events.rtakeWhile fun e => e.gtid == some gtid, fun e member => ?_,
          fun other isOther => ?_, ⟨last, isLast, lastGtid⟩,
          rdropWhile_append_rtakeWhile.symm⟩
        · have held : (e.gtid == some gtid) = true :=
            mem_rtakeWhile_imp (p := fun e : ResultRow Row => e.gtid == some gtid) member
          exact beq_iff_eq.mp held
        · obtain ⟨some_, isOther⟩ := mem_getLast?_eq_getLast isOther
          have stops := rdropWhile_last_not (fun e : ResultRow Row => e.gtid == some gtid)
            events some_
          rwa [← isOther, beq_iff_eq] at stops
      next whole =>
        exact Or.inl ⟨only fun straddles =>
          whole ((gtidHasEventAfter_straddles nonempty lastGtid).mpr straddles), rfl⟩

/-- After the trim no transaction is in the result in part exactly when every event that
comes after one of a straddling transaction belongs to the same transaction. -/
theorem trimPartialTailTransaction_whole_iff (pkGroup : String → String)
    (index : IndexedEvents Row) (events : List (ResultRow Row)) (time : ℤ) :
    (∀ r ∈ trimPartialTailTransaction pkGroup index events time, ¬Straddles index time r) ↔
      events.Pairwise fun a b => Straddles index time a → b.gtid = a.gtid := by
  have lastOf {l : List (ResultRow Row)}
      (pairs : l.Pairwise fun a b => Straddles index time a → b.gtid = a.gtid)
      {r : ResultRow Row} (member : r ∈ l) (straddles : Straddles index time r) :
      ∃ last ∈ l.getLast?, last ∈ l ∧ Straddles index time last := by
    obtain ⟨init, last, rfl⟩ :=
      (eq_nil_or_concat l).resolve_left (ne_nil_of_mem member)
    rw [concat_eq_append] at member pairs ⊢
    refine ⟨last, getLast?_concat, by simp, ?_⟩
    rcases mem_append.mp member with early | isLast
    · exact straddles.of_gtid ((pairwise_append.mp pairs).2.2 r early last (by simp) straddles)
    · rwa [← mem_singleton.mp isLast]
  rcases trimPartialTailTransaction_cases pkGroup index events time with
    ⟨whole, same⟩ | ⟨gtid, run, ofRun, stops, ⟨last, isLast, lastGtid⟩, split⟩
  · rw [same]
    constructor
    · exact fun none_ => pairwise_of_forall_mem_list fun a member b _ straddles =>
        absurd straddles (none_ a member)
    · intro pairs r member straddles
      obtain ⟨last, isLast, -, lastStraddles⟩ := lastOf pairs member straddles
      exact whole last isLast lastStraddles
  · generalize trimPartialTailTransaction pkGroup index events time = kept at stops split
    subst split
    rw [pairwise_append]
    constructor
    · intro none_
      refine ⟨?_, ?_, fun a inKept b _ straddles => absurd straddles (none_ a inKept)⟩
      · exact pairwise_of_forall_mem_list fun a member b _ straddles =>
          absurd straddles (none_ a member)
      · exact pairwise_of_forall_mem_list fun a inRun b inRun' _ =>
          (ofRun b inRun').trans (ofRun a inRun).symm
    · rintro ⟨pairs, -, cross⟩ r member straddles
      obtain ⟨tail, isTail, inKept, tailStraddles⟩ := lastOf pairs member straddles
      cases run with
      | nil =>
        rw [append_nil, Option.mem_def.mp isTail] at isLast
        rw [← Option.some.inj isLast] at lastGtid
        exact stops tail isTail lastGtid
      | cons e run =>
        have sameGtid := cross tail inKept e mem_cons_self tailStraddles
        exact stops tail isTail (sameGtid.symm.trans (ofRun e mem_cons_self))

section Interleaved

/-- Transaction `a` has statements at 10 s and 30 s, transaction `b` one at 20 s that waits
for a lock of `a`. -/
def interleaved : IndexedEvents Unit where
  rows :=
    [{ eventID := 1, binlogFile := "b.1", startPos := 4, endPos := 5, eventTimestamp := 10 * second
       gtid := some "a", eventType := .update, pkValues := "1" },
     { eventID := 2, binlogFile := "b.1", startPos := 5, endPos := 6, eventTimestamp := 30 * second
       gtid := some "a", eventType := .update, pkValues := "2" },
     { eventID := 3, binlogFile := "b.1", startPos := 6, endPos := 7, eventTimestamp := 20 * second
       gtid := some "b", eventType := .update, pkValues := "1" }]
  wholeSeconds := by decide

/-- The row as of 25 s keeps the half of `a` that was executed by then. -/
theorem interleaved_kept :
    ∃ r ∈ trimPartialTailTransaction id interleaved
        (fetchRows id { pkValues := "1", untilTime := some (25 * second) } interleaved.rows)
        (25 * second),
      Straddles interleaved (25 * second) r := by
  refine ⟨interleaved.rows.head (by decide), by decide, "a", by decide, rfl, ?_⟩
  exact ⟨_, mem_cons_of_mem _ mem_cons_self, rfl, by decide⟩

end Interleaved

end Dbtrail
