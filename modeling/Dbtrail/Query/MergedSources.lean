import Dbtrail.Query.Merge
import Dbtrail.Lib.Ranked

/-!
# Caps per source and caps on the whole

A merged read asks each source for its rows with the caps of the query: the latest of each
key, then the limit. The union is deduplicated and the caps are applied to it again.

`mergedFetch_eq_iff` says when that is what the caps give once, on the deduplicated union.
It always is without a limit, without a cap per key, or newest first. Oldest first a source
spends its limit on rows whose keys have newer rows elsewhere, and the rows that should have
taken their place were never read (`oldestFirst_differs`).
-/

namespace Dbtrail

open List ResultRow

variable {Row : Type} {opts : QueryOptions Row} {pkGroup : String → String}
  {rows : List (ResultRow Row)}

/-- Whether a row comes before another in the direction of the query. -/
def Direction.before : Direction → ResultRow Row → ResultRow Row → Bool
  | .asc, a, b => decide (a.eventKey < b.eventKey)
  | .desc, a, b => decide (b.eventKey < a.eventKey)

/-- One place rows are read from. The live index groups keys as the column's collation does,
an archive by their bytes. -/
structure RowSource (Row : Type) : Type where
  pkGroup : String → String
  rows : List (ResultRow Row)
  ids_nodup : (rows.map eventID).Nodup

/-- The caps in each source, then the merge. -/
def mergedFetch (opts : QueryOptions Row) (sources : List (RowSource Row)) :
    List (ResultRow Row) :=
  mergeAndTrim (sources.flatMap fun s => fetchRows s.pkGroup opts s.rows) opts.limit
    opts.limitPerPK opts.order

/-- The rows the query selects, of every source. -/
def selectedRows (opts : QueryOptions Row) (sources : List (RowSource Row)) :
    List (ResultRow Row) :=
  sources.flatMap fun s => s.rows.filter opts.selects

/-- The caps once, on the deduplicated union. -/
def cappedOnce (opts : QueryOptions Row) (sources : List (RowSource Row)) :
    List (ResultRow Row) :=
  mergeAndTrim (selectedRows opts sources) opts.limit opts.limitPerPK opts.order

/-! ## Rows by rank -/

section Ranks

variable {γ : Type} [DecidableEq γ] (group : ResultRow Row → γ) (perPK limit : ℕ)
  (order : Direction) (rows : List (ResultRow Row))

/-- The row is among the latest `perPK` of its group. -/
def isLatest (r : ResultRow Row) : Bool :=
  perPK == 0 || decide (rows.countP (fun s => group s = group r ∧ r.eventKey < s.eventKey) < perPK)

/-- The limit reaches the row. -/
def inLimit (r : ResultRow Row) : Bool :=
  limit == 0 || decide
    (rows.countP (fun s => isLatest group perPK rows s && order.before s r) < limit)

/-- Both caps keep the row. -/
def isKept (r : ResultRow Row) : Bool :=
  isLatest group perPK rows r && inLimit group perPK limit order rows r

variable {group perPK limit order rows} {r : ResultRow Row}

theorem mem_capAt_orderRows_iff (nodup : (rows.map eventID).Nodup) :
    r ∈ capAt limit (orderRows order rows) ↔
      r ∈ rows ∧ (limit = 0 ∨ rows.countP (fun s => order.before s r) < limit) := by
  have perm := orderRows_perm order rows
  have inOrder := orderRows_inKeyOrder order nodup
  cases order with
  | asc => rw [mem_capAt_iff_countP inOrder, perm.mem_iff, perm.countP_eq]; rfl
  | desc =>
    have dual : (orderRows .desc rows).Pairwise fun a b =>
        OrderDual.toDual a.eventKey < OrderDual.toDual b.eventKey := inOrder
    rw [mem_capAt_iff_countP dual, perm.mem_iff, perm.countP_eq]
    rfl

/-- The limit on the rows the per-key cap keeps. -/
theorem mem_capAt_latest_iff (nodup : (rows.map eventID).Nodup) :
    r ∈ capAt limit (orderRows order (rows.filter (isLatest group perPK rows))) ↔
      r ∈ rows ∧ isKept group perPK limit order rows r = true := by
  rw [mem_capAt_orderRows_iff ((filter_sublist.map _).nodup nodup), mem_filter,
    countP_filter]
  simp only [isKept, inLimit, Bool.and_eq_true, Bool.or_eq_true, beq_iff_eq, decide_eq_true_eq,
    and_assoc, Bool.and_comm]

theorem isLatest_of_subset {part : List (ResultRow Row)}
    (nodup : (part.map eventID).Nodup) (subset : ∀ s ∈ part, s ∈ rows) {γ' : Type}
    [DecidableEq γ'] {group' : ResultRow Row → γ'}
    (same : ∀ s ∈ part, group' s = group' r → group s = group r)
    (latest : isLatest group perPK rows r = true) : isLatest group' perPK part r = true := by
  simp only [isLatest, Bool.or_eq_true, beq_iff_eq, decide_eq_true_eq] at latest ⊢
  refine latest.imp_right fun few => lt_of_le_of_lt ?_ few
  refine countP_le_of_imp (List.Nodup.of_map _ nodup) fun s member newer => ?_
  obtain ⟨grouped, above⟩ := of_decide_eq_true newer
  exact ⟨subset s member, decide_eq_true ⟨same s member grouped, above⟩⟩

/-- `place` counts down along the direction. -/
theorem limit_le_countP_of_place {κ : Type} [LinearOrder κ] {place : ResultRow Row → κ}
    (nodup : (rows.map place).Nodup)
    (isBefore : ∀ s r, order.before s r = decide (place r < place s))
    (many : limit ≤ rows.countP fun s => isLatest group perPK rows s && order.before s r) :
    limit ≤ rows.countP fun s => isKept group perPK limit order rows s && order.before s r := by
  simp only [isBefore] at many ⊢
  have many' : limit ≤ rows.countP fun s => isLatest group perPK rows s = true ∧
      place r < place s := by
    simpa using many
  refine (le_countP_highest nodup _ many').trans (countP_mono_left fun s _ holds => ?_)
  obtain ⟨⟨latest, before⟩, few⟩ := of_decide_eq_true holds
  simp only [isKept, inLimit, isBefore, latest, Bool.true_and, Bool.and_eq_true, Bool.or_eq_true,
    decide_eq_true_eq]
  exact ⟨.inr (by simpa using few), before⟩

/-- Where the limit is used up before a row, it is used up by rows it keeps. -/
theorem limit_le_countP_kept (nodup : (rows.map eventID).Nodup)
    (out : inLimit group perPK limit order rows r = false) :
    limit ≠ 0 ∧
      limit ≤ rows.countP fun s => isKept group perPK limit order rows s && order.before s r := by
  simp only [inLimit, Bool.or_eq_false_iff, beq_eq_false_iff_ne, decide_eq_false_iff_not,
    not_lt] at out
  obtain ⟨some_, many⟩ := out
  have keys := eventKeys_nodup nodup
  refine ⟨some_, ?_⟩
  cases order with
  | asc =>
    have dual : (rows.map fun s => OrderDual.toDual s.eventKey).Nodup := by
      rw [List.Nodup, pairwise_map] at keys ⊢
      exact keys
    exact limit_le_countP_of_place dual (fun _ _ => rfl) many
  | desc => exact limit_le_countP_of_place keys (fun _ _ => rfl) many

/-- A row with `perPK` newer ones of its group has that many among the latest. -/
theorem perPK_le_countP_latest (nodup : (rows.map eventID).Nodup)
    (stale : isLatest group perPK rows r = false) :
    perPK ≠ 0 ∧ perPK ≤ rows.countP fun s => isLatest group perPK rows s = true ∧
      group s = group r ∧ r.eventKey < s.eventKey := by
  simp only [isLatest, Bool.or_eq_false_iff, beq_eq_false_iff_ne, decide_eq_false_iff_not,
    not_lt] at stale
  obtain ⟨some_, many⟩ := stale
  refine ⟨some_, (le_countP_highest (eventKeys_nodup nodup) _ many).trans
    (countP_mono_left fun s _ holds => ?_)⟩
  obtain ⟨⟨grouped, newer⟩, few⟩ := of_decide_eq_true holds
  refine decide_eq_true ⟨?_, grouped, newer⟩
  rw [isLatest, Bool.or_eq_true, decide_eq_true_eq, grouped]
  exact .inr few

theorem Direction.before_trans {order : Direction} {a b c : ResultRow Row}
    (ab : order.before a b = true) (bc : order.before b c = true) : order.before a c = true := by
  cases order with
  | asc => exact decide_eq_true ((of_decide_eq_true ab).trans (of_decide_eq_true bc))
  | desc => exact decide_eq_true ((of_decide_eq_true bc).trans (of_decide_eq_true ab))

/-- What comes before a row the limit reaches is reached too. -/
theorem inLimit_of_before {s : ResultRow Row} (before : order.before s r = true)
    (reached : inLimit group perPK limit order rows r = true) :
    inLimit group perPK limit order rows s = true := by
  simp only [inLimit, Bool.or_eq_true, beq_iff_eq, decide_eq_true_eq] at reached ⊢
  refine reached.imp_right (lt_of_le_of_lt (countP_mono_left fun t _ holds => ?_))
  obtain ⟨latest, earlier⟩ := Bool.and_eq_true_iff.mp holds
  exact Bool.and_eq_true_iff.mpr ⟨latest, Direction.before_trans earlier before⟩

end Ranks

/-! ## A part and the whole -/

section Part

variable {γ : Type} [DecidableEq γ] {group : ResultRow Row → γ} {perPK limit : ℕ}
  {order : Direction} {rows part : List (ResultRow Row)}
  (nodup : (rows.map eventID).Nodup) (partNodup : (part.map eventID).Nodup)
  (subset : ∀ r ∈ part, r ∈ rows)

include nodup partNodup subset

/-- The caps keep the same of a part as of the whole exactly when the part has what they keep of
the whole, and `perPK` newer rows for every row of it that is not among the whole's latest. -/
theorem isKept_part_iff :
    (∀ r, r ∈ part ∧ isKept group perPK limit order part r = true ↔
        r ∈ rows ∧ isKept group perPK limit order rows r = true) ↔
      (∀ r ∈ rows, isKept group perPK limit order rows r = true → r ∈ part) ∧
      ∀ r ∈ part, isLatest group perPK rows r = false →
        inLimit group perPK limit order rows r = true →
          perPK ≤ part.countP fun s => group s = group r ∧ r.eventKey < s.eventKey := by
  have still {r : ResultRow Row} (latest : isLatest group perPK rows r = true) :
      isLatest group perPK part r = true :=
    isLatest_of_subset partNodup subset (fun _ _ same => same) latest
  constructor
  · intro same
    refine ⟨fun r held kept => ((same r).mpr ⟨held, kept⟩).1, fun r held stale reached => ?_⟩
    by_contra few
    have latest : isLatest group perPK part r = true := by
      rw [isLatest, decide_eq_true (not_le.mp few), Bool.or_true]
    have out : inLimit group perPK limit order part r = false := by
      by_contra reaches
      have kept := ((same r).mp ⟨held, Bool.and_eq_true_iff.mpr
        ⟨latest, Bool.not_eq_false _ ▸ reaches⟩⟩).2
      rw [isKept, stale, Bool.false_and] at kept
      cases kept
    obtain ⟨some_, many⟩ := limit_le_countP_kept partNodup out
    have more : part.countP (fun s => isKept group perPK limit order part s && order.before s r) ≤
        rows.countP fun s => isLatest group perPK rows s && order.before s r := by
      refine countP_le_of_imp (List.Nodup.of_map _ partNodup) fun s member holds => ?_
      obtain ⟨kept, before⟩ := Bool.and_eq_true_iff.mp holds
      obtain ⟨listed, kept'⟩ := (same s).mp ⟨member, kept⟩
      exact ⟨listed, Bool.and_eq_true_iff.mpr ⟨(Bool.and_eq_true_iff.mp kept').1, before⟩⟩
    simp only [inLimit, Bool.or_eq_true, beq_iff_eq, decide_eq_true_eq] at reached
    exact absurd (reached.resolve_left some_) (Nat.not_lt.mpr (many.trans more))
  · rintro ⟨has, replaced⟩
    have fresh {r : ResultRow Row} (held : r ∈ part) (latest : isLatest group perPK part r = true)
        (reached : inLimit group perPK limit order rows r = true) :
        isLatest group perPK rows r = true := by
      by_contra stale
      have isStale := Bool.not_eq_true _ ▸ stale
      have many := replaced r held isStale reached
      simp only [isLatest, Bool.or_eq_true, beq_iff_eq, decide_eq_true_eq] at latest
      exact absurd (latest.resolve_left (perPK_le_countP_latest nodup isStale).1)
        (Nat.not_lt.mpr many)
    have widen {r : ResultRow Row} (reached : inLimit group perPK limit order part r = true) :
        inLimit group perPK limit order rows r = true := by
      by_contra out
      obtain ⟨some_, many⟩ := limit_le_countP_kept nodup (Bool.not_eq_true _ ▸ out)
      have more : rows.countP (fun s => isKept group perPK limit order rows s && order.before s r) ≤
          part.countP fun s => isLatest group perPK part s && order.before s r := by
        refine countP_le_of_imp (List.Nodup.of_map _ nodup) fun s member holds => ?_
        obtain ⟨kept, before⟩ := Bool.and_eq_true_iff.mp holds
        exact ⟨has s member kept,
          Bool.and_eq_true_iff.mpr ⟨still (Bool.and_eq_true_iff.mp kept).1, before⟩⟩
      simp only [inLimit, Bool.or_eq_true, beq_iff_eq, decide_eq_true_eq] at reached
      exact absurd (reached.resolve_left some_) (Nat.not_lt.mpr (many.trans more))
    have narrow {r : ResultRow Row} (reached : inLimit group perPK limit order rows r = true) :
        inLimit group perPK limit order part r = true := by
      have fewer : part.countP (fun s => isLatest group perPK part s && order.before s r) ≤
          rows.countP fun s => isLatest group perPK rows s && order.before s r := by
        refine countP_le_of_imp (List.Nodup.of_map _ partNodup) fun s member holds => ?_
        obtain ⟨latest, before⟩ := Bool.and_eq_true_iff.mp holds
        exact ⟨subset s member, Bool.and_eq_true_iff.mpr
          ⟨fresh member latest (inLimit_of_before before reached), before⟩⟩
      simp only [inLimit, Bool.or_eq_true, beq_iff_eq, decide_eq_true_eq] at reached ⊢
      exact reached.imp_right (lt_of_le_of_lt fewer)
    intro r
    simp only [isKept, Bool.and_eq_true]
    constructor
    · rintro ⟨held, latest, reached⟩
      exact ⟨subset r held, fresh held latest (widen reached), widen reached⟩
    · rintro ⟨listed, latest, reached⟩
      exact ⟨has r listed (Bool.and_eq_true_iff.mpr ⟨latest, reached⟩), still latest,
        narrow reached⟩

/-- Above any row, a part has no more latest rows than the whole: in each group they are as many
as there are rows, up to `perPK`. -/
theorem countP_latest_above_le (r : ResultRow Row) :
    part.countP (fun s => isLatest group perPK part s && decide (r.eventKey < s.eventKey)) ≤
      rows.countP fun s => isLatest group perPK rows s && decide (r.eventKey < s.eventKey) := by
  by_cases none_ : perPK = 0
  · refine countP_le_of_imp (List.Nodup.of_map _ partNodup) fun s member holds => ?_
    refine ⟨subset s member, ?_⟩
    rw [(Bool.and_eq_true_iff.mp holds).2, isLatest, none_]
    rfl
  rw [countP_eq_length_filter, countP_eq_length_filter]
  refine length_le_of_groups group fun g => ?_
  set latest := part.filter fun s =>
    isLatest group perPK part s && decide (r.eventKey < s.eventKey) with isLatestRows
  set few := latest.filter fun s => group s = g with isFew
  have each : ∀ s ∈ few, s ∈ part ∧ group s = g ∧ r.eventKey < s.eventKey ∧
      part.countP (fun t => group t = g ∧ s.eventKey < t.eventKey) < perPK := by
    intro s member
    obtain ⟨inLatest, grouped⟩ := mem_filter.mp member
    obtain ⟨held, holds⟩ := mem_filter.mp inLatest
    simp only [isLatest, Bool.and_eq_true, Bool.or_eq_true, beq_iff_eq, none_, false_or,
      decide_eq_true_eq] at holds grouped
    rw [grouped] at holds
    exact ⟨held, grouped, holds.2, holds.1⟩
  have sub : few.Sublist part := filter_sublist.trans filter_sublist
  have fewNodup : (few.map eventID).Nodup := (sub.map _).nodup partNodup
  have upTo : few.length ≤ perPK := length_le_of_few_above (fun s => group s = g) sub fewNodup
    (fun s member => (each s member).2.1) fun s member => (each s member).2.2.2
  have present : few.length ≤ rows.countP fun s => group s = g ∧ r.eventKey < s.eventKey := by
    rw [← countP_true]
    refine countP_le_of_imp (List.Nodup.of_map _ fewNodup) fun s member _ => ?_
    obtain ⟨held, grouped, above, -⟩ := each s member
    exact ⟨subset s held, decide_eq_true ⟨grouped, above⟩⟩
  rw [countP_eq_length_filter, ← isFew, countP_filter]
  refine (le_countP_highest (eventKeys_nodup nodup) _ present).trans
    (countP_mono_left fun s _ holds => ?_)
  obtain ⟨⟨grouped, above⟩, rank⟩ := of_decide_eq_true holds
  have isLatest_ : isLatest group perPK rows s = true := by
    rw [isLatest, grouped, decide_eq_true (rank.trans_le upTo), Bool.or_true]
  simp [grouped, above, isLatest_]

end Part

/-! ## What is read and what is returned -/

theorem narrowKeys_eq (whole : opts.latestPerPKCandidates = false) (rows : List (ResultRow Row)) :
    narrowKeys pkGroup opts rows = (rows.filter opts.selects).filter
      (isLatest (fun r => pkGroup r.pkValues) opts.limitPerPK (rows.filter opts.selects)) := by
  unfold narrowKeys
  dsimp only
  split
  next none_ => simp [isLatest, none_]
  next some_ =>
    refine filter_congr fun r _ => ?_
    simp [ranksInLatest, isLatest, whole, some_]

theorem mem_fetchRows_iff (whole : opts.latestPerPKCandidates = false)
    (nodup : (rows.map eventID).Nodup) {r : ResultRow Row} :
    r ∈ fetchRows pkGroup opts rows ↔ r ∈ rows.filter opts.selects ∧
      isKept (fun r => pkGroup r.pkValues) opts.limitPerPK opts.limit opts.order
        (rows.filter opts.selects) r = true := by
  rw [fetchRows, narrowKeys_eq whole]
  exact mem_capAt_latest_iff ((filter_sublist.map _).nodup nodup)

theorem limitPerPK_mergeResults (rows : List (ResultRow Row)) {perPK : ℕ} (some_ : perPK ≠ 0) :
    limitPerPK (mergeResults rows 0 .asc) perPK =
      (orderRows .asc (firstOfEach eventID rows)).filter
        (isLatest pkBucket perPK (firstOfEach eventID rows)) := by
  have perm := orderRows_perm .asc (firstOfEach eventID rows)
  have inOrder : (orderRows .asc (firstOfEach eventID rows)).Pairwise
      fun a b => a.eventKey < b.eventKey :=
    orderRows_inKeyOrder .asc (firstOfEachFrom_nodup [] rows)
  rw [limitPerPK, if_neg some_, mergeResults, capAt_zero, lastOfEach_eq_filter inOrder]
  refine filter_congr fun r _ => ?_
  rw [perm.countP_eq]
  simp [isLatest, some_]

/-- The merge in one expression. -/
theorem mergeAndTrim_eq (rows : List (ResultRow Row)) (limit perPK : ℕ) (order : Direction) :
    mergeAndTrim rows limit perPK order =
      capAt limit (orderRows order ((firstOfEach eventID rows).filter
        (isLatest pkBucket perPK (firstOfEach eventID rows)))) := by
  have nodup : ((firstOfEach eventID rows).map eventID).Nodup :=
    firstOfEachFrom_nodup [] rows
  rw [mergeAndTrim]
  dsimp only
  split
  next none_ =>
    have all : isLatest pkBucket perPK (firstOfEach eventID rows) = fun _ => true := by
      funext r
      simp [isLatest, none_]
    rw [mergeResults, capAt_zero, all, filter_true]
  next some_ =>
    rw [limitPerPK_mergeResults rows some_]
    have perm := (orderRows_perm .asc (firstOfEach eventID rows)).filter
      (isLatest pkBucket perPK (firstOfEach eventID rows))
    have keptNodup := (filter_sublist (p := isLatest pkBucket perPK
      (firstOfEach eventID rows))).map eventID |>.nodup nodup
    cases order with
    | asc =>
      refine congrArg (capAt limit) (orderRows_eq_of_perm perm.symm ?_).symm
      exact (orderRows_inKeyOrder .asc nodup).sublist filter_sublist
    | desc =>
      dsimp only
      rw [mergeResults, capAt_zero,
        firstOfEach_of_nodup ((perm.map _).nodup_iff.mpr keptNodup),
        orderRows_congr .desc perm keptNodup]

theorem mem_mergeAndTrim_iff {limit perPK : ℕ} {order : Direction} {r : ResultRow Row} :
    r ∈ mergeAndTrim rows limit perPK order ↔ r ∈ firstOfEach eventID rows ∧
      isKept pkBucket perPK limit order (firstOfEach eventID rows) r = true := by
  rw [mergeAndTrim_eq]
  exact mem_capAt_latest_iff (firstOfEachFrom_nodup [] rows)

theorem mergeAndTrim_inKeyOrder (rows : List (ResultRow Row)) (limit perPK : ℕ)
    (order : Direction) : InKeyOrder order (mergeAndTrim rows limit perPK order) := by
  rw [mergeAndTrim_eq]
  refine (orderRows_inKeyOrder order ?_).sublist (capAt_sublist limit _)
  exact (filter_sublist.map _).nodup (firstOfEachFrom_nodup [] rows)

/-- Rows in order are known by which rows they are. -/
theorem InKeyOrder.eq_iff {order : Direction} {rows' : List (ResultRow Row)}
    (inOrder : InKeyOrder order rows) (inOrder' : InKeyOrder order rows') :
    rows = rows' ↔ ∀ r, r ∈ rows ↔ r ∈ rows' := by
  refine ⟨fun same r => same ▸ Iff.rfl, fun same => ?_⟩
  cases order with
  | asc => exact eq_of_key_lt inOrder inOrder' same
  | desc =>
    have dual : rows.Pairwise fun a b =>
        OrderDual.toDual a.eventKey < OrderDual.toDual b.eventKey := inOrder
    have dual' : rows'.Pairwise fun a b =>
        OrderDual.toDual a.eventKey < OrderDual.toDual b.eventKey := inOrder'
    exact eq_of_key_lt dual dual' same

/-! ## When they agree -/

section Agree

variable (opts : QueryOptions Row) (sources : List (RowSource Row))

/-- Every selected event once. -/
def unionRows : List (ResultRow Row) :=
  firstOfEach eventID (selectedRows opts sources)

/-- Both caps of the source keep the event. -/
def RowSource.keeps (s : RowSource Row) (r : ResultRow Row) : Bool :=
  (s.rows.filter opts.selects).any (fun t => t.eventID == r.eventID) &&
    isKept (fun r => s.pkGroup r.pkValues) opts.limitPerPK opts.limit opts.order
      (s.rows.filter opts.selects) r

/-- Every row the caps keep of the union is kept by a source that holds it; and a row that a
source keeps although the union has `limitPerPK` newer ones of its key, early enough for the
limit to reach it, has that many newer ones that sources keep. -/
structure CapsAgree : Prop where
  read : ∀ r ∈ unionRows opts sources,
    isKept pkBucket opts.limitPerPK opts.limit opts.order (unionRows opts sources) r = true →
      sources.any (RowSource.keeps opts · r) = true
  replaced : ∀ r ∈ unionRows opts sources, sources.any (RowSource.keeps opts · r) = true →
    isLatest pkBucket opts.limitPerPK (unionRows opts sources) r = false →
    inLimit pkBucket opts.limitPerPK opts.limit opts.order (unionRows opts sources) r = true →
      opts.limitPerPK ≤ (unionRows opts sources).countP fun s =>
        sources.any (RowSource.keeps opts · s) = true ∧ pkBucket s = pkBucket r ∧
          r.eventKey < s.eventKey

/-- Copies of one event are one row. -/
def CopiesAgree : Prop :=
  ∀ a ∈ selectedRows opts sources, ∀ b ∈ selectedRows opts sources, a.eventID = b.eventID → a = b

/-- Each source groups its rows as the merge does. -/
def GroupsAgree : Prop :=
  ∀ s ∈ sources, ∀ a ∈ s.rows, ∀ b ∈ s.rows,
    s.pkGroup a.pkValues = s.pkGroup b.pkValues ↔ pkBucket a = pkBucket b

variable {opts sources} {r : ResultRow Row}

theorem mem_selectedRows :
    r ∈ selectedRows opts sources ↔ ∃ s ∈ sources, r ∈ s.rows.filter opts.selects :=
  mem_flatMap

variable (whole : opts.latestPerPKCandidates = false) (copies : CopiesAgree opts sources)
include copies

theorem mem_unionRows : r ∈ unionRows opts sources ↔ r ∈ selectedRows opts sources :=
  mem_firstOfEach copies

theorem keeps_iff {s : RowSource Row} (listed : s ∈ sources)
    (selected : r ∈ selectedRows opts sources) :
    s.keeps opts r = true ↔ r ∈ s.rows.filter opts.selects ∧
      isKept (fun r => s.pkGroup r.pkValues) opts.limitPerPK opts.limit opts.order
        (s.rows.filter opts.selects) r = true := by
  rw [RowSource.keeps, Bool.and_eq_true, any_eq_true]
  refine and_congr_left fun _ => ⟨?_, fun held => ⟨r, held, beq_self_eq_true _⟩⟩
  rintro ⟨t, held, same⟩
  rw [← copies t (mem_selectedRows.mpr ⟨s, listed, held⟩) r selected (eq_of_beq same)]
  exact held

include whole

/-- The rows read are the rows that sources keep. -/
theorem mem_read_iff :
    r ∈ firstOfEach eventID
        (sources.flatMap fun s => fetchRows s.pkGroup opts s.rows) ↔
      r ∈ unionRows opts sources ∧ sources.any (RowSource.keeps opts · r) = true := by
  have held {t : ResultRow Row}
      (read : t ∈ sources.flatMap fun s => fetchRows s.pkGroup opts s.rows) :
      t ∈ selectedRows opts sources := by
    obtain ⟨s, listed, fetched⟩ := mem_flatMap.mp read
    exact mem_selectedRows.mpr ⟨s, listed, mem_filter.mpr (mem_of_mem_fetchRows fetched)⟩
  rw [mem_firstOfEach fun a readA b readB => copies a (held readA) b (held readB),
    mem_unionRows copies, any_eq_true]
  constructor
  · intro read
    obtain ⟨s, listed, fetched⟩ := mem_flatMap.mp read
    exact ⟨held read, s, listed,
      (keeps_iff copies listed (held read)).mpr ((mem_fetchRows_iff whole s.ids_nodup).mp fetched)⟩
  · rintro ⟨selected, s, listed, keeps⟩
    exact mem_flatMap.mpr ⟨s, listed,
      (mem_fetchRows_iff whole s.ids_nodup).mpr ((keeps_iff copies listed selected).mp keeps)⟩

theorem mergedFetch_eq_iff_capsAgree :
    mergedFetch opts sources = cappedOnce opts sources ↔ CapsAgree opts sources := by
  set read := firstOfEach eventID
    (sources.flatMap fun s => fetchRows s.pkGroup opts s.rows) with isRead
  have nodup : ((unionRows opts sources).map eventID).Nodup := firstOfEachFrom_nodup [] _
  have readNodup : (read.map eventID).Nodup := firstOfEachFrom_nodup [] _
  have subset : ∀ r ∈ read, r ∈ unionRows opts sources := fun r member =>
    ((mem_read_iff whole copies).mp member).1
  have counted (r : ResultRow Row) :
      read.countP (fun s => pkBucket s = pkBucket r ∧ r.eventKey < s.eventKey) =
        (unionRows opts sources).countP fun s => sources.any (RowSource.keeps opts · s) = true ∧
          pkBucket s = pkBucket r ∧ r.eventKey < s.eventKey := by
    refine le_antisymm (countP_le_of_imp (List.Nodup.of_map _ readNodup) fun s member holds => ?_)
      (countP_le_of_imp (List.Nodup.of_map _ nodup) fun s member holds => ?_)
    · obtain ⟨listed, kept⟩ := (mem_read_iff whole copies).mp member
      exact ⟨listed, decide_eq_true ⟨kept, of_decide_eq_true holds⟩⟩
    · obtain ⟨kept, newer⟩ := of_decide_eq_true holds
      exact ⟨(mem_read_iff whole copies).mpr ⟨member, kept⟩, decide_eq_true newer⟩
  rw [mergedFetch, cappedOnce, (mergeAndTrim_inKeyOrder _ _ _ _).eq_iff
    (mergeAndTrim_inKeyOrder _ _ _ _)]
  simp only [mem_mergeAndTrim_iff]
  refine (isKept_part_iff nodup readNodup subset).trans ⟨?_, ?_⟩
  · rintro ⟨has, replaced⟩
    refine ⟨fun r listed kept => ((mem_read_iff whole copies).mp (has r listed kept)).2, ?_⟩
    intro r listed kept stale reached
    rw [← counted r]
    exact replaced r ((mem_read_iff whole copies).mpr ⟨listed, kept⟩) stale reached
  · rintro ⟨has, replaced⟩
    refine ⟨fun r listed kept => (mem_read_iff whole copies).mpr ⟨listed, has r listed kept⟩, ?_⟩
    intro r member stale reached
    obtain ⟨listed, kept⟩ := (mem_read_iff whole copies).mp member
    rw [counted r]
    exact replaced r listed kept stale reached

omit whole

section

variable (settings : opts.limitPerPK = 0 ∨ opts.limit = 0 ∨ opts.order = .desc)
  (groups : opts.limitPerPK ≠ 0 → GroupsAgree sources)

include settings groups

/-- Without a limit, without a cap per key, or newest first, a source keeps its rows of the
answer. -/
theorem keeps_of_isKept (listed : r ∈ unionRows opts sources)
    (kept :
      isKept pkBucket opts.limitPerPK opts.limit opts.order (unionRows opts sources) r = true) :
    sources.any (RowSource.keeps opts · r) = true := by
  have selected := (mem_unionRows copies).mp listed
  obtain ⟨s, isSource, held⟩ := mem_selectedRows.mp selected
  have nodup : ((unionRows opts sources).map eventID).Nodup := firstOfEachFrom_nodup [] _
  have partNodup : ((s.rows.filter opts.selects).map eventID).Nodup :=
    (filter_sublist.map _).nodup s.ids_nodup
  have subset : ∀ t ∈ s.rows.filter opts.selects, t ∈ unionRows opts sources := fun t member =>
    (mem_unionRows copies).mpr (mem_selectedRows.mpr ⟨s, isSource, member⟩)
  have latestSame : ∀ t ∈ s.rows.filter opts.selects,
      isLatest (fun r => s.pkGroup r.pkValues) opts.limitPerPK (s.rows.filter opts.selects) t =
        isLatest pkBucket opts.limitPerPK (s.rows.filter opts.selects) t := by
    intro t member
    by_cases none_ : opts.limitPerPK = 0
    · simp [isLatest, none_]
    · unfold isLatest
      congr 3
      refine countP_congr fun u memberU => ?_
      simp only [groups none_ s isSource u (mem_filter.mp memberU).1 t
        (mem_filter.mp member).1]
  obtain ⟨latest, reached⟩ := Bool.and_eq_true_iff.mp kept
  refine any_eq_true.mpr ⟨s, isSource, (keeps_iff copies isSource selected).mpr
    ⟨held, Bool.and_eq_true_iff.mpr ⟨?_, ?_⟩⟩⟩
  · rw [latestSame r held]
    exact isLatest_of_subset partNodup subset (fun _ _ same => same) latest
  · have fewer : opts.limit ≠ 0 → (s.rows.filter opts.selects).countP (fun t =>
          isLatest (fun r => s.pkGroup r.pkValues) opts.limitPerPK (s.rows.filter opts.selects) t &&
            opts.order.before t r) ≤
        (unionRows opts sources).countP fun t =>
          isLatest pkBucket opts.limitPerPK (unionRows opts sources) t &&
            opts.order.before t r := by
      intro some_
      rw [countP_congr fun t member => by rw [latestSame t member]]
      rcases settings with none_ | none_ | newest
      · refine countP_le_of_imp (List.Nodup.of_map _ partNodup) fun t member holds => ?_
        refine ⟨subset t member, ?_⟩
        rw [(Bool.and_eq_true_iff.mp holds).2, isLatest, none_]
        rfl
      · exact absurd none_ some_
      · rw [newest]
        exact countP_latest_above_le nodup partNodup subset r
    simp only [inLimit, Bool.or_eq_true, beq_iff_eq, decide_eq_true_eq] at reached ⊢
    by_cases none_ : opts.limit = 0
    · exact .inl none_
    · exact .inr (lt_of_le_of_lt (fewer none_) (reached.resolve_left none_))

theorem capsAgree_of_settings : CapsAgree opts sources := by
  refine ⟨fun r listed kept => keeps_of_isKept copies settings groups listed kept, ?_⟩
  intro r listed _ stale reached
  have nodup : ((unionRows opts sources).map eventID).Nodup := firstOfEachFrom_nodup [] _
  obtain ⟨some_, many⟩ := perPK_le_countP_latest nodup stale
  refine many.trans (countP_mono_left fun s member holds => ?_)
  obtain ⟨latest, grouped, newer⟩ := of_decide_eq_true holds
  -- The newer rows of the key come first, so the limit reaches them.
  have reachedToo : inLimit pkBucket opts.limitPerPK opts.limit opts.order
      (unionRows opts sources) s = true := by
    rcases settings with none_ | none_ | newest
    · exact absurd none_ some_
    · rw [inLimit, none_]
      rfl
    · refine inLimit_of_before ?_ reached
      rw [newest]
      exact decide_eq_true newer
  refine decide_eq_true ⟨?_, grouped, newer⟩
  exact keeps_of_isKept copies settings groups member
    (Bool.and_eq_true_iff.mpr ⟨latest, reachedToo⟩)

end

include whole

/-- The caps in each source and then on the merge give what they give once on the deduplicated
union exactly when `CapsAgree`; which holds whenever there is no cap per key, no limit, or the
newest come first, and the sources group keys as the merge does. -/
theorem mergedFetch_eq_iff :
    (mergedFetch opts sources = cappedOnce opts sources ↔ CapsAgree opts sources) ∧
      (opts.limitPerPK = 0 ∨ opts.limit = 0 ∨ opts.order = .desc →
        (opts.limitPerPK ≠ 0 → GroupsAgree sources) → CapsAgree opts sources) :=
  ⟨mergedFetch_eq_iff_capsAgree whole copies, capsAgree_of_settings copies⟩

end Agree

/-! ## Oldest first -/

section OldestFirst

/-- An event of the key at the time. -/
def eventOf (eventID : ℕ) (pk : String) : ResultRow Unit :=
  { eventID := eventID, binlogFile := "binlog.000001", startPos := 10 * eventID
    endPos := 10 * eventID + 5, eventTimestamp := eventID, eventType := .insert, pkValues := pk }

/-- An archive with the first event of `a` and the event of `b`, and the live index with a later
event of `a`. -/
def archiveAndLive : List (RowSource Unit) :=
  [⟨id, [eventOf 3 "a"], by decide⟩, ⟨id, [eventOf 1 "a", eventOf 2 "b"], by decide⟩]

/-- One row, the latest of its key, oldest first: the answer is the event of `b`, and the merge
has the later event of `a`. -/
theorem oldestFirst_differs :
    let opts : QueryOptions Unit := { limit := 1, limitPerPK := 1 }
    (cappedOnce opts archiveAndLive).map eventID = [2] ∧
      (mergedFetch opts archiveAndLive).map eventID = [3] := by
  decide

/-- Newest first they agree. -/
theorem newestFirst_agrees :
    let opts : QueryOptions Unit := { limit := 1, limitPerPK := 1, order := .desc }
    mergedFetch opts archiveAndLive = cappedOnce opts archiveAndLive ∧
      (mergedFetch opts archiveAndLive).map eventID = [3] := by
  refine ⟨?_, by decide⟩
  have copies : CopiesAgree { limit := 1, limitPerPK := 1, order := .desc } archiveAndLive := by
    unfold CopiesAgree
    decide
  obtain ⟨same, always⟩ := mergedFetch_eq_iff rfl copies
  exact same.mpr (always (.inr (.inr rfl)) fun _ => by unfold GroupsAgree; decide)

end OldestFirst

end Dbtrail
