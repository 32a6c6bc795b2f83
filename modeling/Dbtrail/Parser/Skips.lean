import Dbtrail.Lib.Run

/-!
# The skip ledger

The daemon counts the events it read and dropped, by reason, and lists the tables they were
dropped for. A list without the truncated mark reads as every table the reason dropped rows
for. A skip with no table is counted without a mark when the list has begun, so that is what
a run must not do for the list to stay complete.
-/

namespace Dbtrail.Parser

structure SkipAttribution : Type where
  file : String := ""
  pos : ℕ := 0
  statementType : String := ""
  connectionID : ℕ := 0
  schema : String := ""
  table : String := ""
  detail : String := ""
  deriving DecidableEq, Repr

def SkipAttribution.tableName (attr : SkipAttribution) : String := attr.schema ++ "." ++ attr.table

structure SkipStat : Type where
  count : ℕ := 0
  lastAt : ℕ := 0
  lastFile : String := ""
  lastPos : ℕ := 0
  lastStatementType : String := ""
  lastConnectionID : ℕ := 0
  tables : List String := []
  tablesTruncated : Bool := false
  lastDetail : String := ""
  deriving DecidableEq, Repr

def maxLedgerTables : ℕ := 8

def skipEscalationThreshold : ℕ := 100

/-- A reason that is not in the map reads as the zero `SkipStat`. -/
structure SkipCounters : Type where
  byReason : String → SkipStat := fun _ => {}
  consecutive : ℕ := 0
  escalated : Bool := false

def addLedgerTable (st : SkipStat) (name : String) : SkipStat :=
  if name ∈ st.tables then st
  else if maxLedgerTables ≤ st.tables.length then { st with tablesTruncated := true }
  else { st with tables := st.tables ++ [name] }

/-- What an attribution other than the zero one leaves in its reason's entry. -/
def SkipStat.attribute (st : SkipStat) (attr : SkipAttribution) : SkipStat :=
  let st := { st with
    lastFile := attr.file
    lastPos := attr.pos
    lastStatementType := attr.statementType
    lastConnectionID := attr.connectionID
    lastDetail := if attr.detail ≠ "" then attr.detail else st.lastDetail }
  if attr.table ≠ "" then
    addLedgerTable
      { st with tablesTruncated := st.tablesTruncated || (1 < st.count && st.tables.isEmpty) }
      attr.tableName
  else st

def SkipStat.record (st : SkipStat) (now : ℕ) (attr : SkipAttribution) : SkipStat :=
  let st := { st with count := st.count + 1, lastAt := now }
  if attr ≠ {} then st.attribute attr else st

def SkipCounters.recordSkipAttributed (c : SkipCounters) (now : ℕ) (reason : String)
    (attr : SkipAttribution) : SkipCounters where
  byReason := Function.update c.byReason reason ((c.byReason reason).record now attr)
  consecutive := c.consecutive + 1
  escalated := c.escalated || decide (skipEscalationThreshold ≤ c.consecutive + 1)

def SkipCounters.recordCaptured (c : SkipCounters) : SkipCounters :=
  { c with consecutive := 0, escalated := false }

/-- The document a checkpoint saves: `Seed` reads back the tallies `Snapshot` wrote. -/
def SkipCounters.snapshot (c : SkipCounters) : String → SkipStat := c.byReason

def SkipCounters.seed (doc : String → SkipStat) : SkipCounters := { byReason := doc }

/-! ## Runs of the daemon -/

/-- The skips each reason counted, kept beside a document. -/
abbrev Counted : Type := String → List SkipAttribution

/-- A daemon's counters and the last document saved, each with the skips it counts. -/
structure SkipDaemon : Type where
  counters : SkipCounters := {}
  counted : Counted := fun _ => []
  saved : (String → SkipStat) × Counted := (fun _ => {}, fun _ => [])

inductive SkipAct : Type where
  | skip (now : ℕ) (reason : String) (attr : SkipAttribution)
  | captured
  | save
  | restart

def SkipDaemon.step (d : SkipDaemon) : SkipAct → SkipDaemon
  | .skip now reason attr =>
      { d with
        counters := d.counters.recordSkipAttributed now reason attr
        counted := Function.update d.counted reason (attr :: d.counted reason) }
  | .captured => { d with counters := d.counters.recordCaptured }
  | .save => { d with saved := (d.counters.snapshot, d.counted) }
  | .restart => { d with counters := .seed d.saved.1, counted := d.saved.2 }

/-! ## Complete lists -/

/-- An entry with a table list that reads as complete. -/
def SkipStat.ListsAll (st : SkipStat) : Prop := st.tables ≠ [] ∧ st.tablesTruncated = false

/-- A list that reads as complete names the table of every skip counted. -/
def SkipStat.Complete (st : SkipStat) (counted : List SkipAttribution) : Prop :=
  st.ListsAll → ∀ attr ∈ counted, attr.table ≠ "" ∧ attr.tableName ∈ st.tables

instance (st : SkipStat) : Decidable st.ListsAll :=
  inferInstanceAs (Decidable (st.tables ≠ [] ∧ st.tablesTruncated = false))

instance (st : SkipStat) (counted : List SkipAttribution) : Decidable (st.Complete counted) :=
  inferInstanceAs (Decidable (st.ListsAll → ∀ attr ∈ counted, attr.table ≠ "" ∧ _))

structure SkipStat.Tallies (st : SkipStat) (counted : List SkipAttribution) : Prop where
  count : st.count = counted.length
  complete : st.Complete counted

variable {st : SkipStat} {counted : List SkipAttribution} {attr : SkipAttribution} {now : ℕ}

theorem record_count (st : SkipStat) (now : ℕ) (attr : SkipAttribution) :
    (st.record now attr).count = st.count + 1 := by
  simp only [SkipStat.record, SkipStat.attribute, addLedgerTable]
  split_ifs <;> rfl

/-- A skip with no table leaves the list and its mark as they are. -/
theorem record_listsAll_iff (none : attr.table = "") :
    (st.record now attr).ListsAll ↔ st.ListsAll := by
  unfold SkipStat.record SkipStat.attribute
  dsimp only
  rw [none, if_neg (not_not.mpr rfl)]
  split <;> rfl

theorem addLedgerTable_listsAll {name : String} (lists : (addLedgerTable st name).ListsAll) :
    name ∈ (addLedgerTable st name).tables ∧
      (∀ other ∈ st.tables, other ∈ (addLedgerTable st name).tables) ∧
      st.tablesTruncated = false := by
  unfold addLedgerTable at lists ⊢
  split at lists
  next listed => exact ⟨by rwa [if_pos listed], by simp [listed], lists.2⟩
  next new =>
    rw [if_neg new]
    split at lists
    · exact nomatch lists.2
    next room =>
      rw [if_neg room]
      exact ⟨List.mem_append_right _ (List.mem_singleton.mpr rfl),
        fun _ => List.mem_append_left _, lists.2⟩

/-- A table that reads as listed was added to a list that was complete, or is the first
skip of its reason. -/
theorem record_attributed (some : attr.table ≠ "") (lists : (st.record now attr).ListsAll) :
    attr.tableName ∈ (st.record now attr).tables ∧
      (∀ name ∈ st.tables, name ∈ (st.record now attr).tables) ∧
      (st.ListsAll ∨ st.count = 0) := by
  have ne : attr ≠ {} := by
    rintro rfl
    exact some rfl
  unfold SkipStat.record SkipStat.attribute at lists ⊢
  dsimp only at lists ⊢
  rw [if_pos ne, if_pos some] at lists ⊢
  obtain ⟨listed, kept, unmarked⟩ := addLedgerTable_listsAll lists
  refine ⟨listed, kept, ?_⟩
  simp only [Bool.or_eq_false_iff, Bool.and_eq_false_iff, decide_eq_false_iff_not,
    List.isEmpty_eq_false_iff] at unmarked
  rcases unmarked.2 with first | begun
  · exact .inr (by omega)
  · exact .inl ⟨begun, unmarked.1⟩

theorem SkipStat.Tallies.record (tallies : st.Tallies counted) (now : ℕ)
    (allowed : attr.table = "" → ¬st.ListsAll) :
    (st.record now attr).Tallies (attr :: counted) := by
  refine ⟨by rw [record_count, tallies.count, List.length_cons], fun lists => ?_⟩
  by_cases none : attr.table = ""
  · exact absurd ((record_listsAll_iff none).mp lists) (allowed none)
  obtain ⟨listed, kept, before⟩ := record_attributed none lists
  intro other member
  rcases List.mem_cons.mp member with rfl | member
  · exact ⟨none, listed⟩
  rcases before with lists | first
  · obtain ⟨named, member⟩ := tallies.complete lists other member
    exact ⟨named, kept _ member⟩
  · have : counted = [] := List.eq_nil_of_length_eq_zero (tallies.count.symm.trans first)
    simp [this] at member

/-! ## Every run -/

/-- What a run must not do: count a skip without a table under a reason whose list reads
as complete. -/
def SkipAct.Attributes (reason : String) (d : SkipDaemon) : SkipAct → Prop
  | .skip _ other attr =>
      other = reason → attr.table = "" → ¬(d.counters.byReason reason).ListsAll
  | _ => True

structure SkipDaemon.Tallies (reason : String) (d : SkipDaemon) : Prop where
  counters : (d.counters.byReason reason).Tallies (d.counted reason)
  saved : (d.saved.1 reason).Tallies (d.saved.2 reason)

variable {d : SkipDaemon} {reason : String}

theorem SkipDaemon.Tallies.step (tallies : d.Tallies reason) (act : SkipAct)
    (allowed : act.Attributes reason d) : (d.step act).Tallies reason := by
  cases act with
  | skip now other attr =>
    refine ⟨?_, tallies.saved⟩
    by_cases same : other = reason
    · subst same
      simp only [SkipDaemon.step, SkipCounters.recordSkipAttributed, Function.update_self]
      exact tallies.counters.record now (allowed rfl)
    · simp only [SkipDaemon.step, SkipCounters.recordSkipAttributed,
        Function.update_of_ne (Ne.symm same)]
      exact tallies.counters
  | captured => exact ⟨tallies.counters, tallies.saved⟩
  | save => exact ⟨tallies.counters, tallies.counters⟩
  | restart => exact ⟨tallies.saved, tallies.saved⟩

/-- A skip with no table makes a list that reads as complete wrong at once. -/
theorem attributes_of_complete (act : SkipAct)
    (complete : ((d.step act).counters.byReason reason).Complete ((d.step act).counted reason)) :
    act.Attributes reason d := by
  cases act with
  | skip now other attr =>
    rintro rfl none lists
    simp only [SkipDaemon.step, SkipCounters.recordSkipAttributed, Function.update_self]
      at complete
    exact (complete ((record_listsAll_iff none).mpr lists) attr (List.mem_cons_self ..)).1 none
  | _ => trivial

/-- A reason's list reads as complete only when it is, at every moment of a run, exactly when
the run counts no skip without a table under it while its list reads as complete. -/
theorem skipLedger_complete_iff (reason : String) (acts : List SkipAct) :
    (∀ before rest, acts = before ++ rest →
      ((before.foldl SkipDaemon.step {}).counters.byReason reason).Complete
        ((before.foldl SkipDaemon.step {}).counted reason)) ↔
      Legal SkipDaemon.step (fun d act => act.Attributes reason d) {} acts := by
  have empty : ({} : SkipStat).Tallies [] := ⟨rfl, fun lists => absurd rfl lists.1⟩
  have start : ({} : SkipDaemon).Tallies reason := ⟨empty, empty⟩
  exact (legal_iff_good (fun _ act tallies allowed => tallies.step act allowed)
    (fun _ tallies => tallies.counters.complete)
    (fun _ act _ complete => attributes_of_complete act complete) start).symm

/-- Two skips of one reason, the second without a table. -/
def mixedSkips : List SkipAct :=
  [.skip 1 "no_resolver" { schema := "app", table := "orders" }, .skip 2 "no_resolver" {}]

/-- The list names one table and reads as complete, and the second skip is not in it. -/
theorem mixedSkips_narrowed :
    let d := mixedSkips.foldl SkipDaemon.step {}
    (d.counters.byReason "no_resolver").tables = ["app.orders"] ∧
      (d.counters.byReason "no_resolver").count = 2 ∧
      ¬(d.counters.byReason "no_resolver").Complete (d.counted "no_resolver") := by
  decide

end Dbtrail.Parser
