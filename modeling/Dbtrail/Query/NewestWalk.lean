import Dbtrail.Query.Newest
import Dbtrail.Lib.Checked
import Dbtrail.Query.Planner

/-!
# What the newest-first walk returns

The walk stops at a full page, so the rows it leaves unread must be older than those it has. They
are where partition order is time order (`EventLayout.Timely`), as it is in a table partitioned on
`TO_SECONDS` (`timely_of_seconds`): `walkFrom_perm` carries the newest rows of the partitions
seen, one partition at a time. Any other layout has a table that the walk reads wrong, and the
code walks those that name `event_timestamp` in another function (`hourTable_wrong`).
-/

namespace Dbtrail

open List

variable {Row : Type}

/-! ## Partition order -/

namespace EventLayout

/-- Partition order is time order, and the bounds, where they are known, are bounds in seconds. -/
structure Timely (l : EventLayout Row) : Prop where
  inOrder : ∀ a b i j, zeroTime < a.eventTimestamp → a.eventID ≠ b.eventID →
    a.eventKey < b.eventKey → l.place a = some i → l.place b = some j → i ≤ j
  ends : ∀ uppers, l.listEventPartitions.1.uppers = some uppers →
    ∀ r i j u, zeroTime < r.eventTimestamp → l.place r = some i → i ≤ j →
      uppers.getD j none = some u → toSeconds r.eventTimestamp < u
  starts : ∀ uppers, l.listEventPartitions.1.uppers = some uppers →
    ∀ r i u, zeroTime < r.eventTimestamp → l.place r = some (i + 1) →
      uppers.getD i none = some u → u ≤ toSeconds r.eventTimestamp

variable {l : EventLayout Row} {r : ResultRow Row} {i : ℕ}

theorem place_lt (placed : l.place r = some i) : i < l.defs.length :=
  mem_range.mp (mem_of_find?_eq_some placed)

theorem not_below_of_place {j : ℕ} (placed : l.place r = some i) (earlier : j < i) :
    l.below r j = false := by
  have := (find?_range_eq_some.mp placed).2.2 j earlier
  simpa using this

variable {uppers : List (Option ℤ)}

theorem upper_getD (known : l.listEventPartitions.1.uppers = some uppers)
    (lt : i < l.defs.length) : l.upper (l.defs[i]).bound = some (uppers.getD i none) := by
  have pairs := mapM_eq_some_iff.mp known
  have lt' : i < uppers.length := pairs.length_eq ▸ lt
  rw [getD_eq_getElem uppers none lt']
  exact pairs.get lt lt'

theorem bound_of_open (known : l.listEventPartitions.1.uppers = some uppers)
    (lt : i < l.defs.length) (open_ : uppers.getD i none = none) :
    ∃ d, l.defs[i]? = some d ∧ d.bound = .maxValue := by
  have here := upper_getD known lt
  rw [open_] at here
  refine ⟨l.defs[i], getElem?_eq_getElem lt, ?_⟩
  cases isBound : (l.defs[i]).bound with
  | maxValue => rfl
  | integer n =>
    rw [isBound, upper] at here
    split at here <;> simp at here
  | other =>
    rw [isBound, upper] at here
    cases here

theorem bound_of_upper (known : l.listEventPartitions.1.uppers = some uppers) {u : ℤ}
    (given : uppers.getD i none = some u) :
    i < l.defs.length ∧ (l.defs[i]?).map PartitionDef.bound = some (.integer u) := by
  have lt : i < l.defs.length := by
    have length := (mapM_eq_some_iff.mp known).length_eq
    by_contra past
    rw [getD_eq_default _ _ (by omega)] at given
    cases given
  have here := upper_getD known lt
  rw [given] at here
  refine ⟨lt, ?_⟩
  rw [getElem?_eq_getElem lt, Option.map_some]
  cases isBound : (l.defs[i]).bound with
  | maxValue => simp [isBound, upper] at here
  | integer n =>
    rw [isBound, upper] at here
    split at here
    · rw [Option.some.injEq, Option.some.injEq] at here
      rw [here]
    · cases here
  | other => simp [isBound, upper] at here

end EventLayout

theorem orderRows_append_of_above {high low : List (ResultRow Row)}
    (highNodup : (high.map ResultRow.eventID).Nodup) (lowNodup : (low.map ResultRow.eventID).Nodup)
    (above : ∀ a ∈ high, ∀ b ∈ low, b.eventKey < a.eventKey) :
    orderRows .desc (high ++ low) = orderRows .desc high ++ orderRows .desc low := by
  have permHigh := orderRows_perm .desc high
  have permLow := orderRows_perm .desc low
  refine orderRows_eq_of_perm (permHigh.append permLow).symm ?_
  refine pairwise_append.mpr ⟨orderRows_inKeyOrder .desc highNodup,
    orderRows_inKeyOrder .desc lowNodup, fun a inHigh b inLow => ?_⟩
  exact above a (permHigh.mem_iff.mp inHigh) b (permLow.mem_iff.mp inLow)

namespace EventTable

variable {table : EventTable Row} {o : PageOptions Row} {i : ℕ}

variable (table o) in
/-- The selected rows of the partitions from `i` to before `j`. -/
def selectedBetween (i j : ℕ) : List (ResultRow Row) :=
  table.index.rows.filter fun r =>
    o.query.selects r && (table.layout.place r).any fun p => decide (i ≤ p) && decide (p < j)

theorem mem_selectedBetween {j : ℕ} {r : ResultRow Row} :
    r ∈ table.selectedBetween o i j ↔ r ∈ table.index.rows ∧ o.query.selects r = true ∧
      ∃ p, table.layout.place r = some p ∧ i ≤ p ∧ p < j := by
  simp only [selectedBetween, mem_filter, Bool.and_eq_true, Option.any_eq_true,
    decide_eq_true_eq]

theorem selectedBetween_nodup (i j : ℕ) :
    ((table.selectedBetween o i j).map ResultRow.eventID).Nodup :=
  (filter_sublist.map _).nodup table.index.ids_nodup

theorem selectedBetween_all :
    table.selectedBetween o 0 table.layout.defs.length =
      table.index.rows.filter o.query.selects := by
  refine filter_congr fun r member => ?_
  obtain ⟨p, placed⟩ := Option.isSome_iff_exists.mp (table.fits r member)
  simp [placed, EventLayout.place_lt placed]

theorem selectedBetween_perm {j k : ℕ} (le : i ≤ j) (le' : j ≤ k) :
    (table.selectedBetween o i k).Perm
      (table.selectedBetween o j k ++ table.selectedBetween o i j) := by
  have nodup (a b : ℕ) : (table.selectedBetween o a b).Nodup := (selectedBetween_nodup a b).of_map _
  have apart : (table.selectedBetween o j k).Disjoint (table.selectedBetween o i j) := by
    intro r high low
    obtain ⟨-, -, p, placed, above, -⟩ := mem_selectedBetween.mp high
    obtain ⟨-, -, q, placed', -, below⟩ := mem_selectedBetween.mp low
    obtain rfl := Option.some.inj (placed.symm.trans placed')
    omega
  refine (perm_ext_iff_of_nodup (nodup i k)
    ((nodup j k).append (nodup i j) apart)).mpr fun r => ?_
  simp only [mem_append, mem_selectedBetween]
  constructor
  · rintro ⟨stored, selected, p, placed, above, below⟩
    rcases le_or_gt j p with high | low
    · exact Or.inl ⟨stored, selected, p, placed, high, below⟩
    · exact Or.inr ⟨stored, selected, p, placed, above, low⟩
  · rintro (⟨stored, selected, p, placed, high, below⟩ | ⟨stored, selected, p, placed, above, low⟩)
    · exact ⟨stored, selected, p, placed, le.trans high, below⟩
    · exact ⟨stored, selected, p, placed, above, low.trans_le le'⟩

/-- Rows of a later partition come first, newest first. -/
theorem orderRows_selectedBetween (timely : table.layout.Timely) {j k : ℕ} (le : i ≤ j)
    (le' : j ≤ k) :
    orderRows .desc (table.selectedBetween o i k) =
      orderRows .desc (table.selectedBetween o j k) ++
        orderRows .desc (table.selectedBetween o i j) := by
  have perm : (table.selectedBetween o i k).Perm
      (table.selectedBetween o j k ++ table.selectedBetween o i j) := selectedBetween_perm le le'
  have nodup := (perm.map ResultRow.eventID).nodup_iff.mp (selectedBetween_nodup i k)
  rw [orderRows_congr .desc perm nodup]
  refine orderRows_append_of_above (selectedBetween_nodup j k) (selectedBetween_nodup i j) ?_
  intro a inHigh b inLow
  obtain ⟨inRows, -, p, placed, high, -⟩ := mem_selectedBetween.mp inHigh
  obtain ⟨inRows', -, q, placed', -, low⟩ := mem_selectedBetween.mp inLow
  refine lt_of_not_ge fun notAbove => ?_
  have apart : a.eventID ≠ b.eventID := by
    intro same
    obtain rfl := inj_on_of_nodup_map table.index.ids_nodup inRows inRows' same
    obtain rfl := Option.some.inj (placed.symm.trans placed')
    omega
  have before : a.eventKey < b.eventKey :=
    lt_of_le_of_ne notAbove fun same => apart (ResultRow.eventKey_inj same)
  have := timely.inOrder a b p q (table.index.dated a inRows) apart before placed placed'
  omega

/-- The rows of the partition at a place. -/
abbrev placedAt (table : EventTable Row) (i : ℕ) : List (ResultRow Row) :=
  table.index.rows.filter fun r => table.layout.place r == some i

theorem partition_listed (lt : i < table.layout.defs.length) :
    table.partition (table.layout.listEventPartitions.1.names.getD i "") =
      some (table.placedAt i) := by
  have name : table.layout.listEventPartitions.1.names.getD i "" =
      (table.layout.defs[i]).name := by
    simp [EventLayout.listEventPartitions, lt]
  have found : (table.layout.defs.findIdx? fun d => d.name == (table.layout.defs[i]).name) =
      some i := by
    refine findIdx?_eq_some_iff_getElem.mpr ⟨lt, beq_self_eq_true _, fun j earlier same => ?_⟩
    have named := nodup_iff_injective_get.mp table.layout.named
    have lt' : j < (table.layout.defs.map PartitionDef.name).length := by
      rw [length_map]
      omega
    have lt'' : i < (table.layout.defs.map PartitionDef.name).length := by
      rw [length_map]
      exact lt
    have := @named ⟨j, lt'⟩ ⟨i, lt''⟩ (by simpa using same)
    simp only [Fin.mk.injEq] at this
    omega
  rw [partition, name, found, Option.map_some]

theorem partition_selected (i : ℕ) :
    (table.placedAt i).filter o.query.selects =
      table.selectedBetween o i (i + 1) := by
  rw [selectedBetween, filter_filter]
  refine filter_congr fun r _ => ?_
  cases placed : table.layout.place r with
  | none => simp
  | some p =>
    rw [Bool.eq_iff_iff]
    simp only [Option.any_some, Bool.and_eq_true, decide_eq_true_eq, beq_iff_eq,
      Option.some.injEq]
    refine and_congr_right fun _ => ?_
    omega

end EventTable

/-! ## The walk reads the newest rows -/

section Walk

variable {fold : String → String} {deliver : List (ResultRow Row) → List (ResultRow Row)}
  {o : PageOptions Row} {typeIdx : Bool} {table : EventTable Row} {fail : StepFailures}
  {out rows : List (ResultRow Row)} {read : Bool} {i : ℕ}

theorem endWalk_eq_done (ended : endWalk o typeIdx out read = .done rows) : rows = out := by
  unfold endWalk at ended
  split at ended
  · cases ended
  · cases ended
    rfl

section

variable (timely : table.layout.Timely)

include timely

/-- What is behind a stop at the window's start. -/
theorem selectedBetween_of_endsBefore
    (stops : endsBefore o table.layout.listEventPartitions.1 i = true) :
    table.selectedBetween o 0 (i + 1) = [] := by
  obtain ⟨uppers, known, stops⟩ := (Option.any_eq_true _ _).mp stops
  obtain ⟨floor, isFloor, stops⟩ := (Option.any_eq_true _ _).mp stops
  obtain ⟨u, isUpper, low⟩ := (Option.any_eq_true _ _).mp stops
  refine eq_nil_iff_forall_not_mem.mpr fun r member => ?_
  obtain ⟨inRows, selected, p, placed, -, lt⟩ := EventTable.mem_selectedBetween.mp member
  have under := timely.ends uppers known r p i u (table.index.dated r inRows) placed
    (Nat.le_of_lt_succ lt) isUpper
  have over_ := PageOptions.floor_le selected isFloor
  have := of_decide_eq_true low
  omega

theorem selectedBetween_of_startsAfter
    (skips : startsAfter o table.layout.listEventPartitions.1 i = true) :
    table.selectedBetween o i (i + 1) = [] := by
  obtain ⟨isLater, skips⟩ := Bool.and_eq_true_iff.mp skips
  obtain ⟨uppers, known, skips⟩ := (Option.any_eq_true _ _).mp skips
  obtain ⟨ceil, isCeil, high⟩ := (Option.any_eq_true _ _).mp skips
  obtain ⟨j, rfl⟩ := Nat.exists_eq_succ_of_ne_zero (of_decide_eq_true isLater).ne'
  rw [Nat.succ_sub_one] at high
  refine eq_nil_iff_forall_not_mem.mpr fun r member => ?_
  obtain ⟨inRows, selected, p, placed, le, lt⟩ := EventTable.mem_selectedBetween.mp member
  obtain rfl : p = j + 1 := by omega
  cases isUpper : uppers.getD j none with
  | none =>
    -- No row is past `MAXVALUE`.
    have lt' : j < table.layout.defs.length :=
      (Nat.lt_succ_self j).trans (EventLayout.place_lt placed)
    obtain ⟨d, listed, unbounded⟩ := EventLayout.bound_of_open known lt' isUpper
    have notBelow := EventLayout.not_below_of_place placed (Nat.lt_succ_self j)
    rw [table.layout.unbounded r j d listed unbounded] at notBelow
    cases notBelow
  | some u =>
    have above := timely.starts uppers known r j u (table.index.dated r inRows) placed isUpper
    rw [isUpper] at high
    have := of_decide_eq_true high
    have := PageOptions.lt_ceil selected isCeil
    omega

/-- The steps of a walk that comes to its end. -/
theorem walkFrom_succ_cases (lt : i < table.layout.defs.length)
    (walked : walkFrom fold deliver o typeIdx table fail table.layout.listEventPartitions.1 (i + 1)
      out read = .done rows) :
    (rows = out ∧ (o.base.limit ≤ out.length ∨ table.selectedBetween o 0 (i + 1) = [])) ∨
      (table.selectedBetween o i (i + 1) = [] ∧
        walkFrom fold deliver o typeIdx table fail table.layout.listEventPartitions.1 i out read =
          .done rows) ∨
      (out.length < o.base.limit ∧
        walkFrom fold deliver o typeIdx table fail table.layout.listEventPartitions.1 i
          (out ++ readPartition fold deliver o (o.base.limit - out.length)
            (partitionTables fold o typeIdx (table.placedAt i)) (table.placedAt i)) true =
          .done rows) := by
  rw [walkFrom] at walked
  split at walked
  next full => exact .inl ⟨endWalk_eq_done walked, .inl full⟩
  next room =>
    split at walked
    next stops =>
      exact .inl ⟨endWalk_eq_done walked, .inr (selectedBetween_of_endsBefore timely stops)⟩
    next =>
      split at walked
      next skips => exact .inr (.inl ⟨selectedBetween_of_startsAfter timely skips, walked⟩)
      next =>
        simp only [EventTable.partition_listed lt] at walked
        split at walked
        next => cases walked
        next => cases walked
        next => cases walked
        next impossible => cases impossible
        next rows' _ isRows =>
          cases isRows
          split at walked
          next noTables =>
            refine .inr (.inl ⟨?_, walked⟩)
            rw [← EventTable.partition_selected, selects_eq_nil_of_no_tables noTables]
          next =>
            refine .inr (.inr ⟨Nat.not_le.mp room, ?_⟩)
            split at walked
            next => cases walked
            next => cases walked
            next => split at walked <;> cases walked
            next => cases walked
            next => cases walked
            next => exact walked

/-- One more partition under a page that has room. -/
theorem take_orderRows_step
    (delivers : ∀ rows, (deliver rows).Perm rows) (lt : i < table.layout.defs.length)
    (room : out.length < o.base.limit) (held : out.Perm ((orderRows .desc
      (table.selectedBetween o (i + 1) table.layout.defs.length)).take o.base.limit)) :
    (out ++ readPartition fold deliver o (o.base.limit - out.length)
        (partitionTables fold o typeIdx (table.placedAt i)) (table.placedAt i)).Perm
      ((orderRows .desc (table.selectedBetween o i table.layout.defs.length)).take
        o.base.limit) := by
  have length := held.length_eq
  rw [length_take] at length
  have all : (orderRows .desc (table.selectedBetween o (i + 1)
      table.layout.defs.length)).length = out.length := by omega
  have whole := take_of_length_le (all.trans_le room.le)
  rw [whole] at held
  rw [EventTable.orderRows_selectedBetween timely (Nat.le_succ i) lt, take_append, whole, all]
  refine held.append ?_
  have nodup : ((table.placedAt i).map ResultRow.eventID).Nodup :=
    (filter_sublist.map _).nodup table.index.ids_nodup
  have some_ : o.base.limit - out.length ≠ 0 := by omega
  refine (readPartition_perm delivers nodup some_).trans ?_
  rw [newestOf, EventTable.partition_selected, capAt, if_neg some_]

theorem walkFrom_perm (delivers : ∀ rows, (deliver rows).Perm rows)
    (le : i ≤ table.layout.defs.length) (held : out.Perm ((orderRows .desc
      (table.selectedBetween o i table.layout.defs.length)).take o.base.limit))
    (walked : walkFrom fold deliver o typeIdx table fail table.layout.listEventPartitions.1 i
      out read = .done rows) :
    rows.Perm ((orderRows .desc
      (table.selectedBetween o 0 table.layout.defs.length)).take o.base.limit) := by
  -- The rows read so far are the newest ones of the partitions seen.
  induction i generalizing out read with
  | zero =>
    obtain rfl := endWalk_eq_done walked
    exact held
  | succ i ih =>
    rcases walkFrom_succ_cases timely le walked with ⟨rfl, done⟩ | ⟨nothing, walked⟩ |
      ⟨room, walked⟩
    · rw [EventTable.orderRows_selectedBetween timely (Nat.zero_le (i + 1)) le]
      rcases done with full | nothing
      · have length := held.length_eq
        rw [length_take] at length
        rw [take_append_of_le_length (by omega)]
        exact held
      · rw [nothing]
        simpa [orderRows] using held
    · refine ih (Nat.le_of_succ_le le) ?_ walked
      rw [EventTable.orderRows_selectedBetween timely (Nat.le_succ i) le, nothing]
      simpa [orderRows] using held
    · exact ih (Nat.le_of_succ_le le) (take_orderRows_step timely delivers le room held) walked

theorem walkNewest_done (delivers : ∀ rows, (deliver rows).Perm rows) (some_ : 0 < o.base.limit)
    (walked : walkNewest fold deliver o typeIdx table fail table.layout.listEventPartitions.1 =
      .done rows) :
    orderRows .desc rows =
      capAt o.base.limit (orderRows .desc (table.index.rows.filter o.query.selects)) := by
  have start : ([] : List (ResultRow Row)).Perm ((orderRows .desc (table.selectedBetween o
      table.layout.defs.length table.layout.defs.length)).take o.base.limit) := by
    have nothing : table.selectedBetween o table.layout.defs.length
        table.layout.defs.length = [] := by
      refine eq_nil_iff_forall_not_mem.mpr fun r member => ?_
      obtain ⟨-, -, p, -, le, lt⟩ := EventTable.mem_selectedBetween.mp member
      omega
    simp [nothing, orderRows]
  have length : table.layout.listEventPartitions.1.names.length = table.layout.defs.length :=
    length_map _
  rw [walkNewest, length] at walked
  have perm := walkFrom_perm timely delivers le_rfl start walked
  rw [EventTable.selectedBetween_all] at perm
  have nodup : ((table.index.rows.filter o.query.selects).map ResultRow.eventID).Nodup :=
    (filter_sublist.map _).nodup table.index.ids_nodup
  rw [capAt, if_neg some_.ne']
  exact orderRows_eq_of_perm perm
    ((orderRows_inKeyOrder .desc nodup).sublist (take_sublist _ _))

end

end Walk

/-! ## The fetch reads the newest rows -/

/-- A table whose partitions are walked. -/
def EventLayout.Walked (l : EventLayout Row) : Prop :=
  l.listEventPartitions.1.names ≠ [] ∧ l.listEventPartitions.2 = true

section Fetch

variable {fold pkGroup : String → String}
  {deliver : List (ResultRow Row) → List (ResultRow Row)} {o : PageOptions Row}
  {env : ℕ → WalkAttempt Row} {typeIdx : Bool} {rows : List (ResultRow Row)}

theorem fetchNewestByPartition_walked (delivers : ∀ rows, (deliver rows).Perm rows)
    (some_ : 0 < o.base.limit)
    (timely : ∀ k, (env k).table.layout.Walked → (env k).table.layout.Timely) {n k : ℕ}
    (walked : fetchNewestByPartition fold deliver o env n k typeIdx = .walked rows) :
    ∃ j, j < k + n ∧ orderRows .desc rows =
      capAt o.base.limit (orderRows .desc ((env j).table.index.rows.filter o.query.selects)) := by
  induction n generalizing k typeIdx with
  | zero => cases walked
  | succ n ih =>
    rw [show k + (n + 1) = k + 1 + n by omega]
    rw [fetchNewestByPartition] at walked
    split at walked
    next => cases walked
    next isWalked =>
      obtain ⟨named, byTime⟩ := not_or.mp isWalked
      split at walked
      next => cases walked
      next => exact ih walked
      next => exact ih walked
      next => cases walked
      next found isDone =>
        split at walked
        next steady =>
          cases walked
          have listed := (env k).steady steady
          rw [listed] at named byTime isDone
          have isTimely := timely k ⟨named, Bool.not_eq_false _ ▸ byTime⟩
          exact ⟨k, by omega, walkNewest_done isTimely delivers some_ isDone⟩
        next => exact ih walked

theorem PageOptions.fetchRows_of_eligible (eligible : o.newestWalkEligible = true) :
    fetchRows pkGroup o.query rows =
      capAt o.base.limit (orderRows .desc (rows.filter o.query.selects)) := by
  simp only [newestWalkEligible, Bool.and_eq_true, beq_iff_eq] at eligible
  have order : o.query.order = .desc := by
    change o.base.order = .desc
    tauto
  have perPK : o.query.limitPerPK = 0 := by
    change o.base.limitPerPK = 0
    tauto
  rw [fetchRows, narrowKeys, if_pos perPK, order]
  rfl

theorem PageOptions.order_of_eligible (eligible : o.newestWalkEligible = true) :
    o.base.order = .desc ∧ 0 < o.base.limit := by
  simp only [newestWalkEligible, Bool.and_eq_true, beq_iff_eq, decide_eq_true_eq] at eligible
  tauto

/-- What a fetch answers is what one statement answers over a table that it saw. -/
theorem fetchNewest_reads (delivers : ∀ rows, (deliver rows).Perm rows)
    (timely : ∀ k, (env k).table.layout.Walked → (env k).table.layout.Timely)
    {last : EventTable Row}
    (fetched : fetchNewest fold pkGroup deliver o env typeIdx last = some rows) :
    (∃ k, k < newestWalkAttempts ∧ rows = fetchRows pkGroup o.query (env k).table.index.rows) ∨
      rows = fetchRows pkGroup o.query last.index.rows := by
  have ordered : orderRows o.base.order (deliver (fetchRows pkGroup o.query last.index.rows)) =
      fetchRows pkGroup o.query last.index.rows :=
    orderRows_eq_of_perm (delivers _) (fetchRows_inKeyOrder pkGroup o.query last.index.ids_nodup)
  unfold fetchNewest at fetched
  dsimp only at fetched
  split at fetched
  next => cases fetched
  next found isWalked =>
    cases fetched
    split at isWalked
    next eligible =>
      obtain ⟨order, some_⟩ := PageOptions.order_of_eligible eligible
      obtain ⟨k, lt, eq⟩ := fetchNewestByPartition_walked delivers some_ timely isWalked
      refine .inl ⟨k, by omega, ?_⟩
      rw [order, eq, PageOptions.fetchRows_of_eligible eligible]
    next => cases isWalked
  next =>
    cases fetched
    exact .inr ordered

/-! ## A fetch without failures answers -/

theorem walkFrom_ne_failed {table : EventTable Row} {fail : StepFailures}
    (quiet : ∀ part stage, fail part stage = none) (parts : EventPartitions) {i : ℕ}
    {out : List (ResultRow Row)} {read : Bool} :
    walkFrom fold deliver o typeIdx table fail parts i out read ≠ .failed := by
  have ended : ∀ out read, endWalk o typeIdx out read ≠ (.failed : WalkOutcome Row) := by
    intro out read
    unfold endWalk
    split <;> simp
  induction i generalizing out read with
  | zero => exact ended out read
  | succ i ih =>
    rw [walkFrom]
    simp only [quiet]
    split
    next => exact ended out read
    next =>
      split
      next => exact ended out read
      next =>
        split
        next => exact ih
        next =>
          cases table.partition (parts.names.getD i "") with
          | none => simp
          | some rows =>
            dsimp only
            split
            next => exact ih
            next => exact ih

theorem fetchNewestByPartition_ne_failed (quiet : ∀ k part stage, (env k).fail part stage = none)
    {n k : ℕ} : fetchNewestByPartition fold deliver o env n k typeIdx ≠ .failed := by
  induction n generalizing k typeIdx with
  | zero => simp [fetchNewestByPartition]
  | succ n ih =>
    rw [fetchNewestByPartition]
    split
    next => simp
    next =>
      split
      next failed => exact absurd failed (walkFrom_ne_failed (quiet k) _)
      next => exact ih
      next => exact ih
      next => simp
      next =>
        split
        next => simp
        next => exact ih

theorem fetchNewest_isSome (quiet : ∀ k part stage, (env k).fail part stage = none)
    (last : EventTable Row) :
    (fetchNewest fold pkGroup deliver o env typeIdx last).isSome = true := by
  unfold fetchNewest
  dsimp only
  split
  next failed =>
    split at failed
    next => exact absurd failed (fetchNewestByPartition_ne_failed quiet)
    next => cases failed
  next => rfl
  next => rfl

end Fetch

/-! ## Where partition order is not time order -/

section Wrong

variable {fold pkGroup : String → String}
  {deliver : List (ResultRow Row) → List (ResultRow Row)} {o : PageOptions Row} {typeIdx : Bool}
  {table : EventTable Row} {i : ℕ}

/-- Every try sees the same table, and nothing fails. -/
def EventTable.steady (table : EventTable Row) : ℕ → WalkAttempt Row := fun _ =>
  { table := table
    listed := table.layout.listEventPartitions
    again := table.layout.listEventPartitions.1
    fail := fun _ _ => none
    steady := fun _ => rfl }

theorem fetchNewest_steady (eligible : o.newestWalkEligible = true)
    (walked : table.layout.Walked) {rows : List (ResultRow Row)}
    (done : walkNewest fold deliver o (typeIdx && o.eventType.isSome) table (fun _ _ => none)
      table.layout.listEventPartitions.1 = .done rows) :
    fetchNewest fold pkGroup deliver o table.steady typeIdx table =
      some (orderRows .desc rows) := by
  have first : fetchNewestByPartition fold deliver o table.steady newestWalkAttempts 0
      (typeIdx && o.eventType.isSome) = .walked rows := by
    have listed : ¬(table.layout.listEventPartitions.1.names = [] ∨
        table.layout.listEventPartitions.2 = false) := by
      simp [walked.1, walked.2]
    simp only [newestWalkAttempts, fetchNewestByPartition, EventTable.steady, done, if_neg listed,
      if_true]
  unfold fetchNewest
  rw [if_pos eligible, first, (PageOptions.order_of_eligible eligible).1]

/-- Partitions that hold nothing are passed over. -/
theorem walkFrom_descend (some_ : 0 < o.base.limit) {m k : ℕ} {result : WalkOutcome Row}
    (bottom : walkFrom fold deliver o typeIdx table (fun _ _ => none)
      table.layout.listEventPartitions.1 m [] false = result)
    (le : m ≤ k) (le' : k ≤ table.layout.defs.length)
    (stops : ∀ p, endsBefore o table.layout.listEventPartitions.1 p = true →
      endWalk o typeIdx [] false = result)
    (skips : ∀ p, m ≤ p → p < k → startsAfter o table.layout.listEventPartitions.1 p = true ∨
      (table.index.rows.filter fun r => table.layout.place r == some p) = []) :
    walkFrom fold deliver o typeIdx table (fun _ _ => none)
      table.layout.listEventPartitions.1 k [] false = result := by
  induction k, le using Nat.le_induction with
  | base => exact bottom
  | succ p le ih =>
    have below := ih (Nat.le_of_succ_le le') fun q low high => skips q low (by omega)
    rw [walkFrom, if_neg (by simpa using some_.ne')]
    split
    next ends => exact stops p ends
    next =>
      split
      next => exact below
      next notAfter =>
        have empty := (skips p le (Nat.lt_succ_self p)).resolve_left notAfter
        simp only [EventTable.partition_listed le', empty]
        exact below

theorem walkFrom_full {out : List (ResultRow Row)} (full : o.base.limit ≤ out.length) :
    walkFrom fold deliver o typeIdx table (fun _ _ => none) table.layout.listEventPartitions.1 i
      out true = .done out := by
  cases i with
  | zero => rfl
  | succ i =>
    rw [walkFrom, if_pos full]
    rfl

/-- A page of one row. -/
def newestRow (Row : Type) : PageOptions Row := { base := { limit := 1, order := .desc } }

/-- A page of one row of the type, from a time on. -/
def newestSince (r : ResultRow Row) : PageOptions Row :=
  { base := { limit := 1, order := .desc, since := some r.eventTimestamp }
    eventType := some r.eventType }

/-- A page of one row of the type, up to a time. -/
def newestUntil (r : ResultRow Row) : PageOptions Row :=
  { base := { limit := 1, order := .desc, untilTime := some r.eventTimestamp }
    eventType := some r.eventType }

theorem walkNewest_outOfOrder {a b : ResultRow Row} {j : ℕ} (rows : table.index.rows = [a, b])
    (placed : table.layout.place a = some i) (placed' : table.layout.place b = some j)
    (lt : j < i) :
    walkNewest id id (newestRow Row) false table (fun _ _ => none)
      table.layout.listEventPartitions.1 = .done [a] := by
  have length : table.layout.listEventPartitions.1.names.length = table.layout.defs.length :=
    length_map _
  have unbounded : (newestRow Row).newestWindow = (none, none) := rfl
  have noStop : ∀ p, endsBefore (newestRow Row) table.layout.listEventPartitions.1 p = false := by
    intro p
    simp [endsBefore, unbounded]
  have noSkip : ∀ p, startsAfter (newestRow Row) table.layout.listEventPartitions.1 p = false := by
    intro p
    simp [startsAfter, unbounded]
  have here := EventLayout.place_lt placed
  have held : table.placedAt i = [a] := by
    rw [EventTable.placedAt, rows]
    simp [placed, placed', lt.ne]
  have selected : (newestRow Row).query.selects a = true := rfl
  have read : readPartition id id (newestRow Row) (1 - 0)
      (partitionTables id (newestRow Row) false [a]) [a] = [a] := by
    have perm : (readPartition id id (newestRow Row) (1 - 0)
        (partitionTables id (newestRow Row) false [a]) [a]).Perm
          (newestOf (newestRow Row) (1 - 0) [a]) :=
      readPartition_perm (fun _ => List.Perm.refl _) (by simp) (by simp)
    have one : newestOf (newestRow Row) (1 - 0) [a] = [a] := by
      simp [newestOf, selected, orderRows, capAt]
    rw [one] at perm
    exact perm_singleton.mp perm
  have tables : partitionTables id (newestRow Row) false [a] ≠ [] :=
    ne_nil_of_mem (tableGroup_mem_partitionTables mem_cons_self selected)
  rw [walkNewest, length]
  refine walkFrom_descend Nat.one_pos ?_ here le_rfl (fun p stops => ?_) fun p low high => .inr ?_
  · rw [walkFrom, if_neg (by simp [newestRow]), if_neg (by simp [noStop]),
      if_neg (by simp [noSkip])]
    simp only [EventTable.partition_listed here, held, if_neg tables]
    refine (congrArg (fun out => walkFrom _ _ _ _ _ _ _ i out true) read).trans ?_
    exact walkFrom_full le_rfl
  · rw [noStop] at stops
    cases stops
  · rw [rows]
    have ne : i ≠ p := by omega
    have ne' : j ≠ p := by omega
    simp [placed, placed', ne, ne']

/-- The listing narrowed to a type, a page that finds nothing is empty. -/
theorem walkNewest_missed {r : ResultRow Row} (rows : table.index.rows = [r])
    (placed : table.layout.place r = some i) (some_ : 0 < o.base.limit)
    (typed : o.eventType.isSome = true)
    (passed : startsAfter o table.layout.listEventPartitions.1 i = true ∨
      ∃ j, i ≤ j ∧ j < table.layout.defs.length ∧
        endsBefore o table.layout.listEventPartitions.1 j = true) :
    walkNewest id id o true table (fun _ _ => none) table.layout.listEventPartitions.1 =
      .done [] := by
  have length : table.layout.listEventPartitions.1.names.length = table.layout.defs.length :=
    length_map _
  have ended : endWalk o true ([] : List (ResultRow Row)) false = .done [] := by
    simp [endWalk, typed]
  have elsewhere : ∀ p, p ≠ i →
      (table.index.rows.filter fun r => table.layout.place r == some p) = [] := by
    intro p ne
    rw [rows]
    simp [placed, ne.symm]
  rw [walkNewest, length]
  rcases passed with skipped | ⟨j, le, lt, stops⟩
  · refine walkFrom_descend (m := 0) some_ ended (Nat.zero_le _) le_rfl (fun _ _ => ended)
      fun p _ _ => ?_
    by_cases same : p = i
    · exact .inl (same ▸ skipped)
    · exact .inr (elsewhere p same)
  · refine walkFrom_descend some_ ?_ lt le_rfl (fun _ _ => ended)
      fun p low _ => .inr (elsewhere p (by omega))
    rw [walkFrom, if_neg (by simpa using some_.ne'), if_pos stops]
    exact ended

theorem fetchNewest_outOfOrder {a b : ResultRow Row} {j : ℕ} (rows : table.index.rows = [a, b])
    (walked : table.layout.Walked) (older : a.eventKey < b.eventKey)
    (placed : table.layout.place a = some i) (placed' : table.layout.place b = some j)
    (lt : j < i) :
    fetchNewest id pkGroup id (newestRow Row) table.steady false table ≠
      some (fetchRows pkGroup (newestRow Row).query table.index.rows) := by
  have eligible : (newestRow Row).newestWalkEligible = true := rfl
  rw [fetchNewest_steady eligible walked (walkNewest_outOfOrder rows placed placed' lt),
    PageOptions.fetchRows_of_eligible eligible, ne_eq, Option.some.injEq]
  intro same
  have all : table.index.rows.filter (newestRow Row).query.selects = [a, b] := by
    rw [rows]
    rfl
  have nodup := table.index.ids_nodup
  rw [rows] at nodup
  have newest : b ∈ capAt 1 (orderRows .desc [a, b]) := by
    rw [mem_capAt_orderRows_iff nodup]
    refine ⟨by simp, .inr ?_⟩
    have before : Direction.desc.before a b = false := by simpa [Direction.before] using older.le
    have self : Direction.desc.before b b = false := by simp [Direction.before]
    simp [before, self]
  rw [all] at same
  have only : b ∈ orderRows .desc [a] := same ▸ newest
  have : b = a := by simpa [orderRows] using only
  exact lt_irrefl _ (this ▸ older)

theorem fetchNewest_missed {r : ResultRow Row} (rows : table.index.rows = [r])
    (walked : table.layout.Walked) (eligible : o.newestWalkEligible = true)
    (placed : table.layout.place r = some i) (typed : o.eventType.isSome = true)
    (selected : o.query.selects r = true)
    (passed : startsAfter o table.layout.listEventPartitions.1 i = true ∨
      ∃ j, i ≤ j ∧ j < table.layout.defs.length ∧
        endsBefore o table.layout.listEventPartitions.1 j = true) :
    fetchNewest id pkGroup id o table.steady true table ≠
      some (fetchRows pkGroup o.query table.index.rows) := by
  obtain ⟨-, some_⟩ := PageOptions.order_of_eligible eligible
  have done := walkNewest_missed rows placed some_ typed passed
  have narrowed : (true && o.eventType.isSome) = true := by simpa using typed
  have read : fetchNewest id pkGroup id o table.steady true table = some (orderRows .desc []) :=
    fetchNewest_steady eligible walked (by rw [narrowed]; exact done)
  rw [read, PageOptions.fetchRows_of_eligible eligible, rows, filter_cons_of_pos selected,
    ne_eq, Option.some.injEq]
  simp [orderRows, capAt, some_.ne']

theorem newestSince_selects (r : ResultRow Row) : (newestSince r).query.selects r = true := by
  have coarse : truncateTo hour r.eventTimestamp ≤ r.eventTimestamp := truncateTo_le (by decide)
  simp [newestSince, PageOptions.query, QueryOptions.selects, QueryOptions.selectsPK,
    QueryOptions.selectsSince, QueryOptions.selectsUntil, coarse]

theorem newestUntil_selects (r : ResultRow Row) : (newestUntil r).query.selects r = true := by
  have coarse := lt_truncateTo_hour_add r.eventTimestamp
  simp [newestUntil, PageOptions.query, QueryOptions.selects, QueryOptions.selectsPK,
    QueryOptions.selectsSince, QueryOptions.selectsUntil, coarse]

/-- The layout with one row in it. -/
def EventLayout.holdOne (l : EventLayout Row) (r : ResultRow Row)
    (dated : zeroTime < r.eventTimestamp) (fits : (l.place r).isSome = true) : EventTable Row :=
  { layout := l
    index := { rows := [r], ids_nodup := List.nodup_singleton _, dated := by simpa using dated }
    fits := by simpa using fits }

/-- The layout with two rows in it. -/
def EventLayout.holdTwo (l : EventLayout Row) (a b : ResultRow Row)
    (apart : a.eventID ≠ b.eventID) (dated : zeroTime < a.eventTimestamp)
    (dated' : zeroTime < b.eventTimestamp) (fits : (l.place a).isSome = true)
    (fits' : (l.place b).isSome = true) : EventTable Row :=
  { layout := l
    index := { rows := [a, b], ids_nodup := by simpa using apart, dated := by simp [dated, dated'] }
    fits := by simp [fits, fits'] }

/-- A layout that is walked out of time order has a table that the walk reads wrong. -/
theorem EventLayout.exists_wrong {l : EventLayout Row} (walked : l.Walked) (wrong : ¬l.Timely) :
    ∃ (table : EventTable Row) (o : PageOptions Row) (typeIdx : Bool), table.layout = l ∧
      fetchNewest id pkGroup id o table.steady typeIdx table ≠
        some (fetchRows pkGroup o.query table.index.rows) := by
  by_contra right
  push Not at right
  refine wrong ⟨fun a b i j dated apart older placed placed' => ?_,
    fun uppers known r i j u dated placed le isUpper => ?_,
    fun uppers known r i u dated placed isUpper => ?_⟩
  · by_contra lt
    have dated' : zeroTime < b.eventTimestamp := by
      rcases (ResultRow.eventKey_lt_iff a b).mp older with before | ⟨same, -⟩
      · exact dated.trans before
      · exact same ▸ dated
    let table := l.holdTwo a b apart dated dated' (by rw [placed]; rfl) (by rw [placed']; rfl)
    refine absurd (right table (newestRow Row) false rfl) ?_
    exact fetchNewest_outOfOrder rfl walked older placed placed' (Nat.not_le.mp lt)
  · by_contra notUnder
    let table := l.holdOne r dated (by rw [placed]; rfl)
    have lt := (bound_of_upper known isUpper).1
    have stops : endsBefore (newestSince r) table.layout.listEventPartitions.1 j = true := by
      have floor : (newestSince r).newestWindow.1 = some (toSeconds r.eventTimestamp) := rfl
      simp only [endsBefore, floor, Option.any_some]
      rw [show table.layout.listEventPartitions.1.uppers = some uppers from known,
        Option.any_some, isUpper]
      simpa using notUnder
    refine absurd (right table (newestSince r) true rfl) ?_
    exact fetchNewest_missed rfl walked rfl placed rfl (newestSince_selects r)
      (.inr ⟨j, le, lt, stops⟩)
  · by_contra notOver
    let table := l.holdOne r dated (by rw [placed]; rfl)
    have skips : startsAfter (newestUntil r) table.layout.listEventPartitions.1 (i + 1) = true := by
      have ceil : (newestUntil r).newestWindow.2 = some (toSeconds r.eventTimestamp + 1) := rfl
      simp only [startsAfter, ceil, Option.any_some]
      rw [show table.layout.listEventPartitions.1.uppers = some uppers from known,
        Option.any_some, Nat.add_sub_cancel, isUpper]
      simp
      omega
    refine absurd (right table (newestUntil r) true rfl) ?_
    exact fetchNewest_missed rfl walked rfl placed rfl (newestUntil_selects r) (.inl skips)

end Wrong

/-! ## The layouts the walk is right for -/

/-- A fetch of the newest rows, whatever it reads and whatever fails, answers as one statement
over a table it saw, when every layout it walks is in time order; without a failure it does
answer. A layout that is walked and not in time order has a table where it answers wrong. -/
theorem fetchNewest_exact_iff (pkGroup : String → String) :
    (∀ (fold : String → String) (deliver : List (ResultRow Row) → List (ResultRow Row))
      (o : PageOptions Row) (env : ℕ → WalkAttempt Row) (typeIdx : Bool) (last : EventTable Row),
      (∀ rows, (deliver rows).Perm rows) →
      (∀ k, (env k).table.layout.Walked → (env k).table.layout.Timely) →
      (∀ rows, fetchNewest fold pkGroup deliver o env typeIdx last = some rows →
        (∃ k, k < newestWalkAttempts ∧
          rows = fetchRows pkGroup o.query (env k).table.index.rows) ∨
          rows = fetchRows pkGroup o.query last.index.rows) ∧
      ((∀ k part stage, (env k).fail part stage = none) →
        (fetchNewest fold pkGroup deliver o env typeIdx last).isSome = true)) ∧
    ∀ l : EventLayout Row, l.Walked → ¬l.Timely →
      ∃ (table : EventTable Row) (o : PageOptions Row) (typeIdx : Bool), table.layout = l ∧
        fetchNewest id pkGroup id o table.steady typeIdx table ≠
          some (fetchRows pkGroup o.query table.index.rows) := by
  refine ⟨fun fold deliver o env typeIdx last delivers timely => ⟨fun rows fetched => ?_,
    fun quiet => fetchNewest_isSome quiet last⟩, fun l walked wrong => ?_⟩
  · exact fetchNewest_reads delivers timely fetched
  · exact EventLayout.exists_wrong walked wrong

/-- A table partitioned on `TO_SECONDS(event_timestamp)`, as the index is created. -/
theorem EventLayout.timely_of_seconds {l : EventLayout Row}
    (seconds : ∀ r i n, (l.defs[i]?).map PartitionDef.bound = some (.integer n) →
      l.below r i = decide (toSeconds r.eventTimestamp < n))
    (integers : ∀ d ∈ l.defs, d.bound ≠ .other)
    (ascending : ∀ (i j : ℕ) (m n : ℤ), i < j →
      (l.defs[i]?).map PartitionDef.bound = some (.integer m) →
      (l.defs[j]?).map PartitionDef.bound = some (.integer n) → m < n)
    (lastOpen : ∀ i : ℕ, (l.defs[i]?).map PartitionDef.bound = some .maxValue →
      i + 1 = l.defs.length) : l.Timely := by
  have bound : ∀ i, i < l.defs.length →
      (l.defs[i]?).map PartitionDef.bound = some .maxValue ∨
        ∃ n, (l.defs[i]?).map PartitionDef.bound = some (.integer n) := by
    intro i lt
    rw [getElem?_eq_getElem lt, Option.map_some]
    cases isBound : (l.defs[i]).bound with
    | maxValue => exact .inl rfl
    | integer n => exact .inr ⟨n, rfl⟩
    | other => exact absurd isBound (integers _ (getElem_mem lt))
  have isBelow : ∀ r i, l.place r = some i → l.below r i = true := fun r i placed =>
    find?_some placed
  refine ⟨fun a b i j _ _ older placed placed' => ?_,
    fun uppers known r i j u _ placed le given => ?_, fun uppers known r i u _ placed given => ?_⟩
  · by_contra lt
    have above := not_below_of_place placed (Nat.not_le.mp lt)
    rcases bound j (place_lt placed') with open_ | ⟨n, isInt⟩
    · have := lastOpen j open_
      have := place_lt placed
      omega
    · have under := isBelow b j placed'
      rw [seconds _ _ n isInt] at above under
      have le : a.eventTimestamp ≤ b.eventTimestamp := by
        rcases (ResultRow.eventKey_lt_iff a b).mp older with before | ⟨same, -⟩
        · exact before.le
        · exact same.le
      have := toSeconds_mono le
      have := of_decide_eq_true under
      have := of_decide_eq_false above
      omega
  · obtain ⟨lt, isInt⟩ := bound_of_upper known given
    have under := isBelow r i placed
    rcases bound i (place_lt placed) with open_ | ⟨n, isInt'⟩
    · have isLast := lastOpen i open_
      obtain rfl : i = j := by omega
      rw [open_] at isInt
      cases isInt
    · rw [seconds _ _ n isInt'] at under
      have low := of_decide_eq_true under
      rcases Nat.lt_or_eq_of_le le with lt | rfl
      · exact low.trans (ascending i j n u lt isInt' isInt)
      · rw [isInt'] at isInt
        cases isInt
        exact low
  · have above := not_below_of_place placed (Nat.lt_succ_self i)
    rw [seconds _ _ u (bound_of_upper known given).2] at above
    exact Int.not_lt.mp (of_decide_eq_false above)

/-! ## Two tables -/

/-- One partition of an hour and the open one. -/
def secondsLayout : EventLayout Unit :=
  { defs := [⟨"p_2024010110", .integer (toSeconds (labelTime 473364))⟩, ⟨"p_future", .maxValue⟩]
    named := by decide
    below := fun r i =>
      i != 0 || decide (toSeconds r.eventTimestamp < toSeconds (labelTime 473364))
    unbounded := by
      intro r i d listed isOpen
      match i with
      | 0 =>
          cases listed
          cases isOpen
      | i + 1 => rfl
    isRange := true
    subpartitioned := false
    onTimestamp := true
    onSeconds := true }

theorem secondsLayout_timely : secondsLayout.Timely := by
  refine EventLayout.timely_of_seconds ?_ (by decide) ?_ ?_
  · intro r i n isInt
    match i with
    | 0 =>
      cases isInt
      rfl
    | 1 => cases isInt
    | i + 2 => cases isInt
  · intro i j m n lt isInt isInt'
    match j with
    | 0 => omega
    | 1 => cases isInt'
    | j + 2 => cases isInt'
  · intro i isOpen
    match i with
    | 0 => cases isOpen
    | 1 => rfl
    | i + 2 => cases isOpen

/-- A row of an hour, numbered from the epoch. -/
def hourRow (id : ℕ) (label : ℤ) : ResultRow Unit :=
  { eventID := id, binlogFile := "binlog.000003", startPos := 400, endPos := 460
    eventTimestamp := labelTime label + 1, eventType := .insert, pkValues := "1"
    schemaName := "shop", tableName := "orders" }

def secondsTable : EventTable Unit :=
  secondsLayout.holdTwo (hourRow 1 473363) (hourRow 2 473364) (by decide) (by decide +kernel)
    (by decide +kernel) (by decide +kernel) (by decide +kernel)

theorem fetchNewest_secondsTable :
    (fetchNewest id id id (newestRow Unit) secondsTable.steady false secondsTable).isSome = true ∧
      ∀ rows, fetchNewest id id id (newestRow Unit) secondsTable.steady false secondsTable =
          some rows →
        rows = fetchRows id (newestRow Unit).query secondsTable.index.rows := by
  obtain ⟨reads, answers⟩ := (fetchNewest_exact_iff id).1 id id (newestRow Unit)
    secondsTable.steady false secondsTable (fun _ => List.Perm.refl _)
    (fun _ _ => secondsLayout_timely)
  refine ⟨answers fun _ _ _ => rfl, fun rows fetched => ?_⟩
  rcases reads rows fetched with ⟨_, _, same⟩ | same
  · exact same
  · exact same

/-- A table partitioned on `HOUR(event_timestamp)`. -/
def hourLayout : EventLayout Unit :=
  { defs := [⟨"p_am", .integer 12⟩, ⟨"p_pm", .integer 24⟩]
    named := by decide
    below := fun r i => decide (r.eventTimestamp / hour % 24 < if i = 0 then 12 else 24)
    unbounded := by
      intro r i d listed isOpen
      match i with
      | 0 =>
          cases listed
          cases isOpen
      | 1 =>
          cases listed
          cases isOpen
      | i + 2 => cases listed
    isRange := true
    subpartitioned := false
    onTimestamp := true
    onSeconds := false }

/-- An event at eleven in the evening and one two hours later. -/
def hourTable : EventTable Unit :=
  hourLayout.holdTwo (hourRow 1 473375) (hourRow 2 473377) (by decide) (by decide +kernel)
    (by decide +kernel) (by decide +kernel) (by decide +kernel)

theorem hourTable_wrong :
    hourLayout.listEventPartitions = (⟨["p_am", "p_pm"], none⟩, true) ∧
      fetchNewest id id id (newestRow Unit) hourTable.steady false hourTable =
        some [hourRow 1 473375] ∧
      fetchRows id (newestRow Unit).query hourTable.index.rows = [hourRow 2 473377] := by
  decide +kernel

end Dbtrail
