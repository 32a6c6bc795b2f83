import Dbtrail.Query.Planner

/-!
# The cut of a refreshed snapshot

A refresh folds the events up to a cut, and the next one starts at it. The cut for a time
is where the first event past that time starts, or where the newest event ends. It is read
with several statements while capture keeps appending and rotation splits `p_future`: the
newest event, the partitions that can hold an event past the time, the search in those,
and the partitions again.

`resolve_partitions` says what a cut is worth: whatever is appended between the reads, the
fold that ends at it and the fold that starts at it return every event once, where the rows
of one binlog event are made visible together.
-/

namespace Dbtrail

open List QueryOptions

variable {Row : Type}

/-! ## The index under the reads -/

/-- Rows of one binlog event. -/
def SameSpan (a b : ResultRow Row) : Prop :=
  a.binlogFile = b.binlogFile ∧ a.startPos = b.startPos ∧ a.endPos = b.endPos

instance (a b : ResultRow Row) : Decidable (SameSpan a b) := inferInstanceAs (Decidable (_ ∧ _))

/-- `a` ends where `b` starts, or before. -/
def EndsBefore (a b : ResultRow Row) : Prop :=
  fileBefore a.binlogFile b.binlogFile = true ∨
    a.binlogFile = b.binlogFile ∧ a.endPos ≤ b.startPos

instance (a b : ResultRow Row) : Decidable (EndsBefore a b) := inferInstanceAs (Decidable (_ ∨ _))

/-- The live index of one source: rows in the order of their ids, which is the order of the
binary log, and the partitions they lie in. -/
structure CutIndex (Row : Type) : Type where
  rows : List (ResultRow Row)
  ids_ascending : rows.Pairwise fun a b => a.eventID < b.eventID
  inBinlogOrder : rows.Pairwise fun a b => SameSpan a b ∨ EndsBefore a b
  spans : ∀ r ∈ rows, r.startPos < r.endPos
  binlog : ∀ r ∈ rows, r.startCoord.isLSN = false
  layout : PartitionLayout

/-- What the reads see of an index: the rows in the order of their ids, and the partitions. -/
class CutReads (Index : Type) (Row : outParam Type) where
  rows : Index → List (ResultRow Row)
  layout : Index → PartitionLayout

instance : CutReads (CutIndex Row) Row := ⟨CutIndex.rows, CutIndex.layout⟩

/-- What happens to the index between two reads: capture appends rows, or rotation splits
hours off `p_future`. -/
inductive CutIndex.Step : CutIndex Row → CutIndex Row → Prop
  | append {w w' : CutIndex Row} (added : List (ResultRow Row))
      (rows : w'.rows = w.rows ++ added) (layout : w'.layout = w.layout) : Step w w'
  | reorganize {w w' : CutIndex Row} (hours : List ℤ)
      (labels : w'.layout.labels = w.layout.labels ++ hours) (rows : w'.rows = w.rows) : Step w w'

/-- No row is added to a binlog event that already has rows in the index. -/
def WholeEvents (w w' : CutIndex Row) : Prop :=
  ∀ r ∈ w.rows, ∀ a ∈ w'.rows, a ∈ w.rows ∨ EndsBefore r a

/-- Any number of steps that keep the rows of a binlog event together. -/
def WholeSteps : CutIndex Row → CutIndex Row → Prop :=
  Relation.ReflTransGen fun w w' => w.Step w' ∧ WholeEvents w w'

/-! ## The reads -/

section Reads

variable {Index : Type} [CutReads Index Row]

def newestIndexedEvent (w : Index) : Option (ResultRow Row) := (CutReads.rows w).getLast?

/-- The partitions that can hold an event past `time`. -/
def partitionsAtOrAfter (layout : PartitionLayout) (time : ℤ) : List Partition :=
  (layout.labels.filter fun label => decide (truncateTo hour time ≤ labelTime label)).map
    Partition.hourly ++ [.future]

def PartitionLayout.partitions (layout : PartitionLayout) : List Partition :=
  layout.labels.map Partition.hourly ++ [.future]

/-- Nothing where the partitions cannot be listed. -/
def listCutBound (w : Index) (fails : Bool) (time : ℤ) : Option (List Partition) :=
  if fails then none else some (partitionsAtOrAfter (CutReads.layout w) time)

/-- The row condition of the search. -/
def isPast (time : ℤ) (floor : ℕ) (r : ResultRow Row) : Bool :=
  decide (truncateTo hour time ≤ r.eventTimestamp) && decide (time < r.eventTimestamp) &&
    (floor == 0 || decide (floor ≤ r.eventID))

/-- The search in the named partitions; the server refuses a name it does not have. -/
def firstEventPastIn (w : Index) (time : ℤ) (floor : ℕ) :
    Option (List Partition) → Except Unit (Option (ResultRow Row))
  | none => .ok ((CutReads.rows w).find? (isPast time floor))
  | some keep =>
      if keep.all fun p => decide (p ∈ (CutReads.layout w).partitions) then
        .ok ((CutReads.rows w).find? fun r =>
          decide ((CutReads.layout w).place r.eventTimestamp ∈ keep) && isPast time floor r)
      else .error ()

/-- The search at read `i`, the listing at read `i + 1`, again while the partitions moved
and attempts are left, and over the whole table otherwise. The answer is given with the
read it was found at. -/
def searchConfirmed (ws : ℕ → Index) (fails : ℕ → Bool) (time : ℤ) (floor : ℕ) :
    ℕ → ℕ → Option (List Partition) → Option (ResultRow Row) × ℕ
  | _, i, none => ((CutReads.rows (ws i)).find? (isPast time floor), i)
  | left, i, some keep =>
      match listCutBound (ws (i + 1)) (fails (i + 1)) time with
      | none => ((CutReads.rows (ws (i + 2))).find? (isPast time floor), i + 2)
      | some again =>
          match firstEventPastIn (ws i) time floor (some keep), decide (again = keep) with
          | .ok found, true => (found, i)
          | _, _ =>
              match left with
              | 0 => ((CutReads.rows (ws (i + 2))).find? (isPast time floor), i + 2)
              | left + 1 => searchConfirmed ws fails time floor left (i + 2) (some again)

def maxCutBoundAttempts : ℕ := 3

/-- The first event past `time`, from read 2 on. -/
def firstEventPast (ws : ℕ → Index) (fails : ℕ → Bool) (time : ℤ) (floor : ℕ) :
    Option (ResultRow Row) × ℕ :=
  searchConfirmed ws fails time floor (maxCutBoundAttempts - 1) 3
    (listCutBound (ws 2) (fails 2) time)

/-! ## Where a search may start -/

/-- What one search established: no event with an id below `floor` is past `time`. The
witness is the newest event read with it. -/
structure CutFloor : Type where
  time : ℤ
  floor : ℕ
  witnessID : ℕ
  witnessFile : String
  witnessEnd : ℕ
  deriving DecidableEq, Repr

/-- The id a search for `time` may start at, and what stays remembered. -/
def floorFor (floors : Option CutFloor) (w : Index) (time : ℤ) : ℕ × Option CutFloor :=
  match floors with
  | none => (0, none)
  | some f =>
      if time < f.time then (0, some f)
      else
        match (CutReads.rows w).find? fun r => r.eventID == f.witnessID with
        | none => (0, none)
        | some r =>
            if r.binlogFile = f.witnessFile ∧ r.endPos = f.witnessEnd then (f.floor, some f)
            else (0, none)

/-- A search for a later time is not forgotten. -/
def rememberFloor (floors : Option CutFloor) (time : ℤ) (floor : ℕ) (witness : ResultRow Row) :
    Option CutFloor :=
  match floors.filter fun f => decide (time < f.time) with
  | some later => some later
  | none => some ⟨time, floor, witness.eventID, witness.binlogFile, witness.endPos⟩

/-- The id a resolution searches from, read second. Only the refresh keeps one. -/
def startFloor (ws : ℕ → Index) (time : ℤ) (floored : Bool) (floors : Option CutFloor) :
    ℕ × Option CutFloor :=
  if floored then floorFor floors (ws 1) time else (0, floors)

/-- `resolveSnapshotCutOnce`: the cut, and what is remembered for the next one. The `i`th
read sees `ws i`. -/
def resolveSnapshotCut (ws : ℕ → Index) (fails : ℕ → Bool) (time : ℤ) (floored : Bool)
    (floors : Option CutFloor) : Option BinlogPos × Option CutFloor :=
  match newestIndexedEvent (ws 0) with
  | none => (none, floors)
  | some newest =>
      let start := startFloor ws time floored floors
      let found := (firstEventPast ws fails time start.1).1
      let next := (found.map ResultRow.eventID).getD (newest.eventID + 1)
      (some (found.elim ⟨newest.binlogFile, newest.endPos⟩ ResultRow.startCoord),
        if floored then rememberFloor start.2 time next newest else floors)

end Reads

/-! ## Growth -/

section Growth

variable {w w' : CutIndex Row}

theorem WholeSteps.rows_extend (steps : WholeSteps w w') : w.rows <+: w'.rows := by
  induction steps with
  | refl => exact prefix_rfl
  | tail _ step ih =>
    refine ih.trans ?_
    cases step.1 with
    | append added rows layout =>
      rw [rows]
      exact prefix_append _ _
    | reorganize hours labels rows => rw [rows]

theorem WholeSteps.labels_extend (steps : WholeSteps w w') :
    w.layout.labels <+: w'.layout.labels := by
  induction steps with
  | refl => exact prefix_rfl
  | tail _ step ih =>
    refine ih.trans ?_
    cases step.1 with
    | append added rows layout => rw [layout]
    | reorganize hours labels rows =>
      rw [labels]
      exact prefix_append _ _

theorem WholeSteps.wholeEvents (steps : WholeSteps w w') : WholeEvents w w' := by
  induction steps with
  | refl => exact fun _ _ a member => .inl member
  | tail before step ih =>
    intro r member a later
    rcases step.2 r ((WholeSteps.rows_extend before).subset member) a later with held | ends
    · exact ih r member a held
    · exact .inr ends

/-- A sequence of states of an index, each reached from the one before. -/
def Growing {Index : Type} (reach : Index → Index → Prop) (ws : ℕ → Index) : Prop :=
  ∀ i, reach (ws i) (ws (i + 1))

theorem Growing.le {ws : ℕ → CutIndex Row} (growing : Growing WholeSteps ws) {i j : ℕ}
    (le : i ≤ j) : WholeSteps (ws i) (ws j) :=
  Nat.rel_of_forall_rel_succ_of_le (Relation.ReflTransGen _) growing le

end Growth

/-! ## The bound hides nothing -/

theorem place_mem_partitionsAtOrAfter {layout : PartitionLayout} {time t : ℤ} (past : time < t) :
    layout.place t ∈ partitionsAtOrAfter layout time := by
  unfold partitionsAtOrAfter
  cases placed : layout.place t with
  | future => exact mem_append_right _ mem_cons_self
  | hourly label =>
    have below : t < labelTime label + hour := by
      unfold PartitionLayout.place at placed
      split at placed
      next _ found =>
        injection placed with eq
        have under := find?_some found
        rw [← eq]
        exact of_decide_eq_true under
      next => cases placed
    refine mem_append_left _ (mem_map_of_mem (mem_filter.mpr
      ⟨PartitionLayout.mem_labels_of_place placed, decide_eq_true ?_⟩))
    rw [truncateTo_hour_eq]
    refine labelTime_le ?_
    have pos : (0 : ℤ) < hour := by decide
    have under : time < (label + 1) * hour := by
      rw [labelTime] at below
      rw [add_mul, one_mul]
      omega
    exact Int.lt_add_one_iff.mp (Int.ediv_lt_of_lt_mul pos under)

/-- Hours are only split off at the end, so a set that is the same at both ends was the
same between them. -/
theorem partitionsAtOrAfter_between {first second third : PartitionLayout} {time : ℤ}
    (before : first.labels <+: second.labels) (after : second.labels <+: third.labels)
    (same : partitionsAtOrAfter third time = partitionsAtOrAfter first time) :
    partitionsAtOrAfter second time = partitionsAtOrAfter first time := by
  have sub {a b : PartitionLayout} (grown : a.labels <+: b.labels) :
      (partitionsAtOrAfter a time).Sublist (partitionsAtOrAfter b time) :=
    ((grown.sublist.filter _).map _).append (List.Sublist.refl _)
  exact ((same ▸ sub after).antisymm (sub before))

/-- A condition that what is searched for meets anyway. -/
theorem find?_congr_of_imp {α : Type} {l : List α} {p q : α → Bool}
    (imp : ∀ a ∈ l, q a = true → p a = true) : l.find? (fun a => p a && q a) = l.find? q := by
  induction l with
  | nil => rfl
  | cons a l ih =>
    have rest := ih fun b member => imp b (mem_cons_of_mem a member)
    cases here : q a with
    | false => simp only [find?_cons, here, Bool.and_false, rest]
    | true => simp only [find?_cons, here, imp a mem_cons_self here, Bool.and_self]

section Search

variable {Index : Type} [CutReads Index Row] {ws : ℕ → Index}

/-- Hours are only split off at the end. -/
def LabelsGrow (ws : ℕ → Index) : Prop :=
  ∀ {i j : ℕ}, i ≤ j → (CutReads.layout (ws i)).labels <+: (CutReads.layout (ws j)).labels

/-- A confirmed search answers as one over the whole table would have. -/
theorem searchConfirmed_spec (grow : LabelsGrow ws) (fails : ℕ → Bool)
    (time : ℤ) (floor left i : ℕ) (bound : Option (List Partition))
    (listed : ∀ keep ∈ bound, ∃ j ≤ i,
      keep = partitionsAtOrAfter (CutReads.layout (ws j)) time) :
    i ≤ (searchConfirmed ws fails time floor left i bound).2 ∧
      (searchConfirmed ws fails time floor left i bound).2 ≤ i + 2 * left + 2 ∧
      (searchConfirmed ws fails time floor left i bound).1 =
        (CutReads.rows (ws (searchConfirmed ws fails time floor left i bound).2)).find?
          (isPast time floor) := by
  fun_induction searchConfirmed ws fails time floor left i bound with
  | case1 left i => exact ⟨le_rfl, by omega, rfl⟩
  | case2 left i keep unlisted => exact ⟨by omega, by omega, rfl⟩
  | case3 left i keep again isListed found same ok =>
    obtain ⟨j, le, isKeep⟩ := listed keep rfl
    have isAgain : again = partitionsAtOrAfter (CutReads.layout (ws (i + 1))) time := by
      unfold listCutBound at isListed
      split at isListed
      · cases isListed
      · exact (Option.some.inj isListed).symm
    have between : partitionsAtOrAfter (CutReads.layout (ws i)) time = keep := by
      rw [isKeep]
      refine partitionsAtOrAfter_between (grow le) (grow (Nat.le_succ i)) ?_
      rw [← isAgain, ← isKeep]
      exact of_decide_eq_true same
    simp only [firstEventPastIn] at ok
    split at ok
    next =>
      refine ⟨le_rfl, by omega, ?_⟩
      rw [← Except.ok.inj ok]
      refine find?_congr_of_imp fun r _ past => ?_
      have isAfter : time < r.eventTimestamp := by
        simp only [isPast, Bool.and_eq_true, decide_eq_true_eq] at past
        exact past.1.2
      rw [← between]
      exact decide_eq_true (place_mem_partitionsAtOrAfter isAfter)
    next => cases ok
  | case4 i keep again isListed moved => exact ⟨by omega, by omega, rfl⟩
  | case5 i keep again isListed left moved ih =>
    obtain ⟨low, high, eq⟩ := ih (by
      intro next isNext
      unfold listCutBound at isListed
      split at isListed
      · cases isListed
      · refine ⟨i + 1, by omega, ?_⟩
        rw [← Option.some.inj isNext]
        exact (Option.some.inj isListed).symm)
    exact ⟨by omega, by omega, eq⟩

/-- The read after which a resolution is over. -/
def lastRead : ℕ := 9

/-- The search from a floor under which nothing is past `time` finds the first event past
it, in the state of the index at one of its reads. -/
theorem firstEventPast_spec (grow : LabelsGrow ws) (fails : ℕ → Bool)
    (time : ℤ) {floor : ℕ}
    (under : ∀ i, ∀ r ∈ CutReads.rows (ws i), r.eventID < floor → r.eventTimestamp ≤ time) :
    (firstEventPast ws fails time floor).2 ≤ lastRead ∧
      (firstEventPast ws fails time floor).1 =
        (CutReads.rows (ws (firstEventPast ws fails time floor).2)).find? fun r =>
          decide (time < r.eventTimestamp) := by
  obtain ⟨-, high, eq⟩ : _ ∧ _ ∧ (firstEventPast ws fails time floor).1 = _ :=
    searchConfirmed_spec grow fails time floor (maxCutBoundAttempts - 1) 3 _ (by
      intro keep isKeep
      unfold listCutBound at isKeep
      split at isKeep
      · cases isKeep
      · exact ⟨2, by omega, (Option.some.inj isKeep).symm⟩)
  refine ⟨high, eq.trans ?_⟩
  have split : isPast time floor = fun r : ResultRow Row =>
      (decide (truncateTo hour time ≤ r.eventTimestamp) &&
        (floor == 0 || decide (floor ≤ r.eventID))) && decide (time < r.eventTimestamp) := by
    funext r
    simp only [isPast]
    grind
  rw [split]
  refine find?_congr_of_imp fun r member past => ?_
  have after := of_decide_eq_true past
  have hint : truncateTo hour time ≤ time := truncateTo_le (by decide)
  rw [Bool.and_eq_true, Bool.or_eq_true, decide_eq_true_eq, decide_eq_true_eq]
  refine ⟨by omega, .inr (not_lt.mp fun lt => ?_)⟩
  have := under _ r member lt
  omega

end Search

theorem Growing.labelsGrow {ws : ℕ → CutIndex Row} (growing : Growing WholeSteps ws) :
    LabelsGrow ws :=
  fun le => (growing.le le).labels_extend

theorem WholeSteps.mem_or_above {w w' : CutIndex Row} (steps : WholeSteps w w')
    {top r : ResultRow Row} (held : top ∈ w.rows) (member : r ∈ w'.rows) :
    r ∈ w.rows ∨ top.eventID < r.eventID := by
  obtain ⟨added, eq⟩ := steps.rows_extend
  rw [← eq] at member
  rcases mem_append.mp member with old | new
  · exact .inl old
  · have ascending := w'.ids_ascending
    rw [← eq] at ascending
    exact .inr ((pairwise_append.mp ascending).2.2 top held r new)

/-- What comes before the first row past a time, by id, is not past it. -/
theorem not_past_of_lt_first {rows : List (ResultRow Row)} {time : ℤ} {first r : ResultRow Row}
    (ascending : rows.Pairwise fun a b => a.eventID < b.eventID)
    (isFirst : rows.find? (fun r => decide (time < r.eventTimestamp)) = some first)
    (member : r ∈ rows) (lower : r.eventID < first.eventID) : r.eventTimestamp ≤ time := by
  obtain ⟨-, before, after, eq, notPast⟩ := find?_eq_some_iff_append.mp isFirst
  rw [eq] at member ascending
  rcases mem_append.mp member with early | late
  · exact not_lt.mp (of_decide_eq_false (Bool.not_eq_true' _ |>.mp (notPast r early)))
  · rcases mem_cons.mp late with rfl | later
    · exact absurd lower (lt_irrefl _)
    · have above := (pairwise_cons.mp (pairwise_append.mp ascending).2.1).1 r later
      omega

/-! ## What is remembered -/

/-- How the ids of an index run as it changes: `given w n` says that `n` was given out, so
that a row to come has an id above it. -/
structure IdsRun {Index : Type} [CutReads Index Row] (reach : Index → Index → Prop)
    (given : Index → ℕ → Prop) : Prop where
  ascending : ∀ w : Index, (CutReads.rows w).Pairwise fun a b => a.eventID < b.eventID
  labels : ∀ {w w'}, reach w w' → (CutReads.layout w).labels <+: (CutReads.layout w').labels
  stays : ∀ {w w' n}, reach w w' → given w n → given w' n
  fresh : ∀ {w w' n r}, reach w w' → given w n → r ∈ CutReads.rows w' →
    r ∈ CutReads.rows w ∨ n < r.eventID
  own : ∀ {w r}, r ∈ CutReads.rows w → given w r.eventID
  le : ∀ {ws : ℕ → Index}, Growing reach ws → ∀ {i j : ℕ}, i ≤ j → reach (ws i) (ws j)

section Floors

variable {Index : Type} [CutReads Index Row] {reach : Index → Index → Prop}
  {given : Index → ℕ → Prop} {floors : Option CutFloor}

/-- A remembered search is true of an index whose ids run so: nothing with an id below its floor
is past its time, and every id to come is above. -/
def FloorSound (given : Index → ℕ → Prop) (floors : Option CutFloor) (w : Index) : Prop :=
  ∀ f ∈ floors, (∀ r ∈ CutReads.rows w, r.eventID < f.floor → r.eventTimestamp ≤ f.time) ∧
    ∃ n, given w n ∧ f.floor ≤ n + 1

theorem floorFor_cases (floors : Option CutFloor) (w : Index) (time : ℤ) :
    ((floorFor floors w time).1 = 0 ∨
        ∃ f ∈ floors, f.time ≤ time ∧ (floorFor floors w time).1 = f.floor) ∧
      ∀ f ∈ (floorFor floors w time).2, f ∈ floors := by
  unfold floorFor
  split
  next => exact ⟨.inl rfl, fun f none_ => none_⟩
  next f =>
    split
    next => exact ⟨.inl rfl, fun f held => held⟩
    next later =>
      split
      next => exact ⟨.inl rfl, fun f none_ => (nomatch none_)⟩
      next =>
        split
        next => exact ⟨.inr ⟨f, rfl, not_lt.mp later, rfl⟩, fun f held => held⟩
        next => exact ⟨.inl rfl, fun f none_ => (nomatch none_)⟩

variable {time : ℤ} (ids : IdsRun reach given)

include ids

theorem FloorSound.steps {w w' : Index} (isTrue : FloorSound given floors w) (steps : reach w w') :
    FloorSound given floors w' := by
  intro f isFloor
  obtain ⟨below, n, isGiven, high⟩ := isTrue f isFloor
  refine ⟨fun r member lower => ?_, n, ids.stays steps isGiven, high⟩
  rcases ids.fresh steps isGiven member with old | above
  · exact below r old lower
  · omega

variable {ws : ℕ → Index} (grows : ∀ {i j : ℕ}, i ≤ j → reach (ws i) (ws j))

include grows

theorem FloorSound.under (isTrue : FloorSound given floors (ws 0)) (time : ℤ) (floored : Bool) :
    ∀ i, ∀ r ∈ CutReads.rows (ws i), r.eventID < (startFloor ws time floored floors).1 →
      r.eventTimestamp ≤ time := by
  intro i r member lower
  unfold startFloor at lower
  split at lower
  next =>
    rcases (floorFor_cases floors (ws 1) time).1 with zero | ⟨f, isFloor, le, eq⟩
    · omega
    · have stays := isTrue.steps ids (grows (Nat.zero_le i))
      exact ((stays f isFloor).1 r member (eq ▸ lower)).trans le
  next => exact absurd lower (Nat.not_lt_zero _)

/-- What a search comes to is true of the index it looked at, and of every later one. -/
theorem floorSound_found (fails : ℕ → Bool) {newest : ResultRow Row}
    (isNewest : newestIndexedEvent (ws 0) = some newest) {floor : ℕ}
    (under : ∀ i, ∀ r ∈ CutReads.rows (ws i), r.eventID < floor → r.eventTimestamp ≤ time) :
    FloorSound given (some ⟨time,
      ((firstEventPast ws fails time floor).1.map ResultRow.eventID).getD (newest.eventID + 1),
      newest.eventID, newest.binlogFile, newest.endPos⟩) (ws lastRead) := by
  obtain ⟨read, found⟩ := firstEventPast_spec (fun le => ids.labels (grows le)) fails time under
  refine FloorSound.steps ids ?_ (grows read)
  rintro _ ⟨⟩
  cases past : (firstEventPast ws fails time floor).1 with
  | none =>
    rw [past] at found
    refine ⟨fun r member _ => ?_, newest.eventID, ids.stays (grows (Nat.zero_le _))
      (ids.own (mem_of_getLast? isNewest)), le_rfl⟩
    have notPast := find?_eq_none.mp found.symm r member
    exact not_lt.mp (of_decide_eq_false (Bool.eq_false_iff.mpr notPast))
  | some first =>
    rw [past] at found
    exact ⟨fun r member lower => not_past_of_lt_first (ids.ascending _) found.symm member lower,
      first.eventID, ids.own (mem_of_find?_eq_some found.symm), Nat.le_succ _⟩

/-- What a resolution leaves is true of the index after it. -/
theorem FloorSound.resolve (isTrue : FloorSound given floors (ws 0)) (fails : ℕ → Bool)
    (floored : Bool) :
    FloorSound given (resolveSnapshotCut ws fails time floored floors).2 (ws lastRead) := by
  have stays := isTrue.steps ids (grows (Nat.zero_le lastRead))
  unfold resolveSnapshotCut
  split
  next => exact stays
  next newest isNewest =>
    dsimp only
    split
    next isFloored =>
      have found := floorSound_found ids grows fails isNewest (isTrue.under ids grows time floored)
      unfold rememberFloor
      split
      next later isLater =>
        rintro _ ⟨⟩
        rw [startFloor, if_pos isFloored] at isLater
        exact stays later ((floorFor_cases floors (ws 1) time).2 later
          (Option.filter_eq_some_iff.mp isLater).1)
      next => exact found
    next => exact stays

end Floors

/-- The indexes and remembered searches that are reached when the index changes and cuts are
resolved, each at any time. -/
inductive CutRun {Index : Type} [CutReads Index Row] (reach : Index → Index → Prop) :
    Index → Option CutFloor → Prop
  | start (w : Index) : CutRun reach w none
  | changed {w w' : Index} {floors : Option CutFloor} (before : CutRun reach w floors)
      (steps : reach w w') : CutRun reach w' floors
  | resolved {ws : ℕ → Index} {floors : Option CutFloor} (before : CutRun reach (ws 0) floors)
      (growing : Growing reach ws) (fails : ℕ → Bool) (time : ℤ) (floored : Bool) :
      CutRun reach (ws lastRead) (resolveSnapshotCut ws fails time floored floors).2

theorem CutRun.floorSound {Index : Type} [CutReads Index Row] {reach : Index → Index → Prop}
    {given : Index → ℕ → Prop} (ids : IdsRun reach given) {w : Index} {floors : Option CutFloor}
    (run : CutRun reach w floors) : FloorSound given floors w := by
  induction run with
  | start w => exact nofun
  | changed _ steps ih => exact ih.steps ids steps
  | resolved _ growing fails time floored ih =>
    exact ih.resolve ids (ids.le growing) fails floored

/-- In an index that only grows, the ids of its rows were given out. -/
theorem cutIndex_idsRun :
    IdsRun WholeSteps fun (w : CutIndex Row) n => ∃ r ∈ w.rows, n ≤ r.eventID where
  ascending := CutIndex.ids_ascending
  labels := WholeSteps.labels_extend
  stays := fun steps ⟨r, held, le⟩ => ⟨r, steps.rows_extend.subset held, le⟩
  fresh := fun steps ⟨_, held, le⟩ member => (steps.mem_or_above held member).imp_right le.trans_lt
  own := fun member => ⟨_, member, le_rfl⟩
  le := Growing.le

/-! ## The two sides of a cut -/

section Sides

variable {cut : BinlogPos} {e : ResultRow Row}

/-- What the fold that ends at the cut asks for. -/
def refoldUpTo (time : ℤ) (cut : BinlogPos) : QueryOptions Row :=
  { untilTime := some time, untilPos := some cut }

/-- What the fold that starts at the cut asks for. -/
def refoldFrom (cut : BinlogPos) : QueryOptions Row := { sincePos := some cut }

theorem refoldUpTo_selects {time : ℤ} :
    (refoldUpTo time cut).selects e = true ↔
      e.eventTimestamp ≤ time ∧ QueryOptions.selectsUntilPos cut e = true := by
  have below : e.eventTimestamp ≤ time → e.eventTimestamp < truncateTo hour time + hour :=
    fun le => le.trans_lt (lt_truncateTo_hour_add time)
  simp only [selects, refoldUpTo, selectsPK, selectsSince,
    selectsUntil, Option.all_some, Option.all_none, Bool.and_eq_true,
    decide_eq_true_eq, ne_eq, not_true, if_false, isEmpty_nil, Bool.true_or, beq_self_eq_true,
    and_true, true_and]
  constructor
  · rintro ⟨times, pos⟩
    exact ⟨times.2, pos⟩
  · rintro ⟨notAfter, pos⟩
    exact ⟨⟨below notAfter, notAfter⟩, pos⟩

theorem refoldFrom_selects :
    (refoldFrom cut).selects e = true ↔ QueryOptions.selectsSincePos cut e = true := by
  simp only [selects, refoldFrom, selectsPK, selectsSince,
    selectsUntil, Option.all_some, Option.all_none, Bool.and_eq_true,
    ne_eq, not_true, if_false, isEmpty_nil, Bool.true_or, beq_self_eq_true,
    and_true, true_and]

/-- No event is on both sides. -/
theorem not_since_of_until (binlog : cut.isLSN = false) (span : e.startPos < e.endPos)
    (ends : QueryOptions.selectsUntilPos cut e = true) :
    ¬QueryOptions.selectsSincePos cut e = true := by
  rw [selectsUntilPos_iff binlog] at ends
  rw [selectsSincePos_iff binlog]
  rintro (later | ⟨same, starts⟩)
  · rcases ends with earlier | ⟨same, -⟩
    · exact absurd later (Bool.eq_false_iff.mp (fileBefore_asymm earlier).1)
    · exact (fileBefore_asymm later).2 same.symm
  · rcases ends with earlier | ⟨-, ends⟩
    · exact (fileBefore_asymm earlier).2 same
    · omega

end Sides

section Cuts

variable {w : CutIndex Row} {a e : ResultRow Row}

/-- Two rows of an index, by id and by place. -/
theorem CutIndex.apart (w : CutIndex Row) (ha : a ∈ w.rows) (he : e ∈ w.rows) :
    (e.eventID < a.eventID ∧ (SameSpan e a ∨ EndsBefore e a)) ∨ e = a ∨
      SameSpan a e ∨ EndsBefore a e := by
  obtain ⟨i, hi, rfl⟩ := mem_iff_getElem.mp ha
  obtain ⟨j, hj, rfl⟩ := mem_iff_getElem.mp he
  have byID := pairwise_iff_getElem.mp w.ids_ascending
  have byPlace := pairwise_iff_getElem.mp w.inBinlogOrder
  rcases lt_trichotomy j i with lt | rfl | gt
  · exact .inl ⟨byID j i hj hi lt, byPlace j i hj hi lt⟩
  · exact .inr (.inl rfl)
  · exact .inr (.inr (byPlace i j hi hj gt))

/-- An event that ends before `a` does is up to every cut in or after `a`. -/
theorem until_of_endsBefore {pos : ℕ} (binlog : BinlogPos.isLSN ⟨a.binlogFile, pos⟩ = false)
    (ends : EndsBefore e a) (low : a.startPos ≤ pos) :
    QueryOptions.selectsUntilPos ⟨a.binlogFile, pos⟩ e = true :=
  (selectsUntilPos_iff binlog).mpr (ends.imp id fun ⟨same, le⟩ => ⟨same, le.trans low⟩)

theorem since_of_endsBefore {pos : ℕ} (binlog : BinlogPos.isLSN ⟨a.binlogFile, pos⟩ = false)
    (ends : EndsBefore a e) (high : pos ≤ a.endPos) :
    QueryOptions.selectsSincePos ⟨a.binlogFile, pos⟩ e = true :=
  (selectsSincePos_iff binlog).mpr
    (ends.imp id fun ⟨same, le⟩ => ⟨same.symm, high.trans le⟩)

/-- A cut where an event starts has every event on one side, and those up to it come before
that event. -/
theorem cut_at_start (ha : a ∈ w.rows) (he : e ∈ w.rows) :
    (QueryOptions.selectsUntilPos a.startCoord e = true ∧ e.eventID < a.eventID) ∨
      QueryOptions.selectsSincePos a.startCoord e = true := by
  have binlog := w.binlog a ha
  have starts (same : a.binlogFile = e.binlogFile) (at_ : a.startPos = e.startPos) :
      selectsSincePos a.startCoord e = true :=
    (selectsSincePos_iff binlog).mpr (.inr ⟨same.symm, at_.le⟩)
  rcases w.apart ha he with ⟨lower, same | ends⟩ | rfl | same | ends
  · exact .inr (starts same.1.symm same.2.1.symm)
  · exact .inl ⟨until_of_endsBefore binlog ends le_rfl, lower⟩
  · exact .inr (starts rfl rfl)
  · exact .inr (starts same.1 same.2.1)
  · exact .inr (since_of_endsBefore binlog ends (w.spans a ha).le)

/-- A cut where the newest event ends has what is indexed before it. -/
theorem cut_at_end (newest : newestIndexedEvent w = some a) (he : e ∈ w.rows) :
    QueryOptions.selectsUntilPos ⟨a.binlogFile, a.endPos⟩ e = true := by
  obtain ⟨older, eq⟩ : ∃ older, w.rows = older ++ [a] := getLast?_eq_some_iff.mp newest
  have ha : a ∈ w.rows := mem_of_getLast? newest
  have binlog : BinlogPos.isLSN ⟨a.binlogFile, a.endPos⟩ = false := w.binlog a ha
  have ends (same : e.binlogFile = a.binlogFile) (at_ : e.endPos = a.endPos) :
      selectsUntilPos ⟨a.binlogFile, a.endPos⟩ e = true :=
    (selectsUntilPos_iff binlog).mpr (.inr ⟨same, at_.le⟩)
  have order := w.inBinlogOrder
  rw [eq] at he order
  rcases mem_append.mp he with early | last
  · rcases (pairwise_append.mp order).2.2 e early a mem_cons_self with same | before
    · exact ends same.1 same.2.2
    · exact until_of_endsBefore binlog before (w.spans a ha).le
  · obtain rfl := mem_singleton.mp last
    exact ends rfl rfl

end Cuts

/-! ## The cut -/

/-- What a cut is worth: what ends at it is not past its time, and every event is returned
by the fold that ends at it, run at `k`, or by one that starts at it, and not by both. -/
def CutHolds (ws : ℕ → CutIndex Row) (time : ℤ) (cut : BinlogPos) : Prop :=
  ∀ k m, lastRead ≤ k → k ≤ m → ∀ e ∈ (ws m).rows,
    (QueryOptions.selectsUntilPos cut e = true → e.eventTimestamp ≤ time) ∧
      Xor (e ∈ (ws k).rows ∧ (refoldUpTo time cut).selects e = true)
        ((refoldFrom cut).selects e = true)

/-- A cut that has every event on one side, with those up to it indexed when it was
resolved and not past its time. -/
theorem CutHolds.of_sides {ws : ℕ → CutIndex Row} {time : ℤ} {cut : BinlogPos}
    (growing : Growing WholeSteps ws) (binlog : cut.isLSN = false)
    (sides : ∀ m, lastRead ≤ m → ∀ e ∈ (ws m).rows,
      (QueryOptions.selectsUntilPos cut e = true ∧ e ∈ (ws lastRead).rows ∧
        e.eventTimestamp ≤ time) ∨ QueryOptions.selectsSincePos cut e = true) :
    CutHolds ws time cut := by
  intro k m resolved folded e member
  have span := (ws m).spans e member
  rw [refoldUpTo_selects, refoldFrom_selects]
  rcases sides m (resolved.trans folded) e member with ⟨ends, held, early⟩ | starts
  · have heldThen := (growing.le resolved).rows_extend.subset held
    exact ⟨fun _ => early,
      .inl ⟨⟨heldThen, early, ends⟩, not_since_of_until binlog span ends⟩⟩
  · have notEnds : ¬selectsUntilPos cut e = true := fun ends =>
      not_since_of_until binlog span ends starts
    exact ⟨fun ends => absurd ends notEnds, .inr ⟨starts, fun both => notEnds both.2.2⟩⟩

section Main

variable {ws : ℕ → CutIndex Row} {time : ℤ}

theorem cutHolds_start (growing : Growing WholeSteps ws) {i : ℕ} (read : i ≤ lastRead)
    {first : ResultRow Row}
    (isFirst : (ws i).rows.find? (fun r => decide (time < r.eventTimestamp)) = some first) :
    CutHolds ws time first.startCoord := by
  have firstAt (j : ℕ) (le : i ≤ j) := (growing.le le).rows_extend.find?_eq_some isFirst
  have held (j : ℕ) (le : i ≤ j) : first ∈ (ws j).rows := mem_of_find?_eq_some (firstAt j le)
  refine CutHolds.of_sides growing ((ws i).binlog first (held i le_rfl)) ?_
  intro m resolved e member
  have le := read.trans resolved
  rcases cut_at_start (held m le) member with ⟨ends, lower⟩ | starts
  · refine .inl ⟨ends, ?_, not_past_of_lt_first (ws m).ids_ascending (firstAt m le) member lower⟩
    rcases (growing.le resolved).mem_or_above (held lastRead read) member with old | above
    · exact old
    · omega
  · exact .inr starts

theorem cutHolds_end (growing : Growing WholeSteps ws) {i : ℕ} {newest : ResultRow Row}
    (isNewest : newestIndexedEvent (ws 0) = some newest)
    (isNone : (ws i).rows.find? (fun r => decide (time < r.eventTimestamp)) = none) :
    CutHolds ws time ⟨newest.binlogFile, newest.endPos⟩ := by
  have held : newest ∈ (ws 0).rows := mem_of_getLast? isNewest
  have binlog : BinlogPos.isLSN ⟨newest.binlogFile, newest.endPos⟩ = false :=
    (ws 0).binlog newest held
  refine CutHolds.of_sides growing binlog fun m _ e member => ?_
  rcases (growing.le (Nat.zero_le m)).wholeEvents newest held e member with old | ends
  · have notPast := find?_eq_none.mp isNone e
      ((growing.le (Nat.zero_le i)).rows_extend.subset old)
    refine .inl ⟨cut_at_end isNewest old, (growing.le (Nat.zero_le _)).rows_extend.subset old, ?_⟩
    exact not_lt.mp (of_decide_eq_false (Bool.eq_false_iff.mpr notPast))
  · exact .inr (since_of_endsBefore binlog ends le_rfl)

/-- The cut of a refresh loses nothing and repeats nothing, whatever is appended between
its reads, and the partitions its search is kept to hide no event past its time. -/
theorem resolve_partitions {floors : Option CutFloor} (run : CutRun WholeSteps (ws 0) floors)
    (growing : Growing WholeSteps ws) (fails : ℕ → Bool) (time : ℤ) (floored : Bool) :
    (∃ i ≤ lastRead,
        (firstEventPast ws fails time (startFloor ws time floored floors).1).1 =
          (ws i).rows.find? fun r => decide (time < r.eventTimestamp)) ∧
      match (resolveSnapshotCut ws fails time floored floors).1 with
      | none => (ws 0).rows = []
      | some cut => CutHolds ws time cut := by
  obtain ⟨read, found⟩ := firstEventPast_spec growing.labelsGrow fails time
    ((run.floorSound cutIndex_idsRun).under cutIndex_idsRun growing.le time floored)
  refine ⟨⟨_, read, found⟩, ?_⟩
  unfold resolveSnapshotCut
  cases isNewest : newestIndexedEvent (ws 0) with
  | none => exact getLast?_eq_none_iff.mp isNewest
  | some newest =>
    cases past : (firstEventPast ws fails time (startFloor ws time floored floors).1).1 with
    | none =>
      rw [past] at found
      simp only [past]
      exact cutHolds_end growing isNewest found.symm
    | some first =>
      rw [past] at found
      simp only [past]
      exact cutHolds_start growing read found.symm

end Main

section Split

def eventRow (eventID startPos endPos : ℕ) (time : ℤ) (pk : String) : ResultRow Unit where
  eventID := eventID
  binlogFile := "b.1"
  startPos := startPos
  endPos := endPos
  eventTimestamp := time
  eventType := .insert
  pkValues := pk

/-- Two rows, the second appended before read `i`. -/
structure TwoRows : Type where
  first : ResultRow Unit
  second : ResultRow Unit
  ids : first.eventID < second.eventID
  order : SameSpan first second ∨ EndsBefore first second
  spans : first.startPos < first.endPos ∧ second.startPos < second.endPos
  binlog : first.startCoord.isLSN = false ∧ second.startCoord.isLSN = false

def TwoRows.index (rows : TwoRows) (i n : ℕ) : CutIndex Unit where
  rows := if n < i then [rows.first] else [rows.first, rows.second]
  ids_ascending := by split <;> simp [rows.ids]
  inBinlogOrder := by split <;> simp [rows.order]
  spans := by split <;> simp [rows.spans]
  binlog := by split <;> simp [rows.binlog]
  layout := ⟨[500000], by decide, by decide⟩

theorem TwoRows.step (rows : TwoRows) (i n : ℕ) : (rows.index i n).Step (rows.index i (n + 1)) := by
  refine .append (if n + 1 = i then [rows.second] else []) ?_ rfl
  rcases lt_trichotomy (n + 1) i with early | now | late
  · simp [TwoRows.index, early, early.ne, Nat.lt_of_succ_lt early]
  · simp [TwoRows.index, now, show n < i by omega]
  · simp [TwoRows.index, late.ne', show ¬n < i by omega, show ¬n + 1 < i by omega]

theorem TwoRows.growing (rows : TwoRows) (i : ℕ) (apart : EndsBefore rows.first rows.second) :
    Growing WholeSteps (rows.index i) := by
  refine fun n => Relation.ReflTransGen.single ⟨rows.step i n, fun r held a later => ?_⟩
  simp only [TwoRows.index] at held later ⊢
  split at held
  next before =>
    rw [mem_singleton.mp held, if_pos before]
    split at later
    next => exact .inl later
    next =>
      rcases mem_pair.mp later with rfl | rfl
      · exact .inl mem_cons_self
      · exact .inr apart
  next after =>
    rw [if_neg after]
    rw [if_neg (by omega)] at later
    exact .inl later

/-- Two rows of one binlog event, the second committed when the cut is resolved. -/
def splitEvent : TwoRows where
  first := eventRow 1 100 200 50 "1"
  second := eventRow 2 100 200 50 "2"
  ids := by decide
  order := by decide
  spans := by decide
  binlog := by decide

/-- Two binlog events, the second past the time and indexed between the reads. -/
def wholeEvents : TwoRows where
  first := eventRow 1 100 200 50 "1"
  second := eventRow 2 200 300 150 "2"
  ids := by decide
  order := by decide
  spans := by decide
  binlog := by decide

/-- The cut is where the split event ends, and its second row is in neither fold. -/
theorem splitEvent_lost :
    (∀ n, (splitEvent.index 10 n).Step (splitEvent.index 10 (n + 1))) ∧
      (resolveSnapshotCut (splitEvent.index 10) (fun _ => false) 100 false none).1 =
        some ⟨"b.1", 200⟩ ∧
      splitEvent.second ∈ (splitEvent.index 10 10).rows ∧
      splitEvent.second ∉ (splitEvent.index 10 lastRead).rows ∧
      (refoldFrom ⟨"b.1", 200⟩).selects splitEvent.second = false :=
  ⟨splitEvent.step 10, by decide⟩

theorem wholeEvents_partitioned :
    (resolveSnapshotCut (wholeEvents.index 2) (fun _ => false) 100 true none).1 =
        some ⟨"b.1", 200⟩ ∧
      CutHolds (wholeEvents.index 2) 100 ⟨"b.1", 200⟩ := by
  have isCut : (resolveSnapshotCut (wholeEvents.index 2) (fun _ => false) 100 true none).1 =
      some ⟨"b.1", 200⟩ := by decide
  have holds := (resolve_partitions (.start (wholeEvents.index 2 0))
    (wholeEvents.growing 2 (by decide)) (fun _ => false) 100 true).2
  rw [isCut] at holds
  exact ⟨isCut, holds⟩

end Split

end Dbtrail
