import Dbtrail.Recovery.Statement

/-!
# The recovery script

`generate` checks the payload budget and the TOAST markers, puts the changes in
the order of the binary log where that is asked for, turns them round and builds
one entry for each. Any change it cannot reverse refuses the whole script.

`generate_of_reversed` says when a script comes out and what it holds: one
statement for each change, the last change first.
-/

namespace Dbtrail

open List

/-- Why no script is written. -/
inductive Refusal : Type
  | budget (estimated : ℕ) (budget : ℤ)
  | unresolvedToast (row : Change) (cols : List Bytes)
  | systemVersioned (failures : List (Change × Generator.VersionRefusal))
  | partialGeneration (failures : List (Change × Generator.BuildError))
  | schemaDrift (tables : List (Change × List Bytes))

/-- What the script says about one change. `captured` is the type the change was
captured with, which differs from `row`'s for a versioned delete. -/
inductive Entry : Type
  | statement (row : Change) (captured : EventType) (stmt : Stmt)
  | skipped (row : Change) (why : Generator.VersionSkip)

structure Script : Type where
  order : BinlogOrder := {}
  entries : List Entry := []

def Entry.stmt : Entry → Option Stmt
  | .statement _ _ stmt => some stmt
  | .skipped _ _ => none

/-- The statements of a script, in the order it has them. -/
def Script.statements (s : Script) : List Stmt := s.entries.filterMap Entry.stmt

/-! ## The checks before anything is built -/

def estimateValueBytes : Value → ℕ
  | .null => 0
  | .bool _ => 1
  | .number lit => lit.1.length
  | .str s => s.length
  | .bytes b => b.length
  | .json doc => doc.payload

def estimateRowBytes (img : Option Image) : ℕ :=
  match img with
  | some img => (img.entries.map fun e => e.1.length + estimateValueBytes e.2).sum
  | none => 0

def estimateScriptBytes (rows : List Change) : ℕ :=
  (rows.map fun row => row.pkValues.length + estimateRowBytes row.rowBefore +
    estimateRowBytes row.rowAfter).sum

def isUnchangedToastMarker : Value → Bool
  | .json doc => doc.toast
  | _ => false

def unresolvedToastColumns (img : Option Image) : List Bytes :=
  match img with
  | some img => (Generator.sortedKeys img).filter fun col =>
      isUnchangedToastMarker (Generator.columnValue (some img) col)
  | none => []

def checkUnresolvedToast (row : Change) : Option Refusal :=
  match unresolvedToastColumns row.rowBefore, unresolvedToastColumns row.rowAfter with
  | [], [] => none
  | [], cols => some (.unresolvedToast row cols)
  | cols, _ => some (.unresolvedToast row cols)

namespace Generator

variable (g : Generator)

def checkScriptBudget (rows : List Change) : Option Refusal :=
  if g.maxScriptBytes ≤ 0 then none
  else if g.maxScriptBytes < estimateScriptBytes rows then
    some (.budget (estimateScriptBytes rows) g.maxScriptBytes)
  else none

/-! ## One change -/

def driftedColumns (emitted : List Bytes) (eventTime current : TableMeta) : List Bytes :=
  emitted.eraseDups.filter fun c =>
    (eventTime.columns.map ColumnMeta.name).contains c &&
      !(current.columns.map ColumnMeta.name).contains c

def driftedEmitted (row : Change) (emitted : List Bytes) : List Bytes :=
  match g.resolver, g.tableOf row with
  | some latest, some eventTime => match latest row.schemaName row.tableName with
      | some current => driftedColumns emitted eventTime current
      | none => []
  | _, _ => []

/-- One turn of the loop over the changes. -/
inductive Outcome : Type
  | entry (e : Entry) (drifted : List Bytes)
  | versionRefused (row : Change) (why : VersionRefusal)
  | failed (row : Change) (why : BuildError)

def reverseChange (row : Change) : Outcome :=
  match g.sysVersionedReversal row with
  | .refuse why => .versionRefused row why
  | .skip why => .entry (.skipped row why) []
  | .reverse reversed => match g.buildStatement reversed with
      | .error why => .failed reversed why
      | .ok built => .entry (.statement reversed row.eventType built.stmt)
          (g.driftedEmitted reversed built.cols)

/-! ## The whole script -/

/-- The order the changes are undone from the end of. -/
def undoOrder (rows : List Change) : BinlogOrder × List Change :=
  if g.binlogOrder && g.dialect != .postgres then orderByBinlog Change.coord g.orderProof rows
  else ({}, rows)

def Outcome.versionFailure : Outcome → Option (Change × VersionRefusal)
  | .versionRefused row why => some (row, why)
  | _ => none

def Outcome.failure : Outcome → Option (Change × BuildError)
  | .failed row why => some (row, why)
  | _ => none

def Outcome.drift : Outcome → Option (Change × List Bytes)
  | .entry (.statement row _ _) (col :: cols) => some (row, col :: cols)
  | _ => none

def Outcome.written : Outcome → Option Entry
  | .entry e _ => some e
  | _ => none

def generate (rows : List Change) : Except Refusal Script :=
  if rows.isEmpty then .ok {}
  else match g.checkScriptBudget rows, rows.findSome? checkUnresolvedToast with
    | some refusal, _ => .error refusal
    | none, some refusal => .error refusal
    | none, none =>
        let (order, ordered) := g.undoOrder rows
        let outcomes := ordered.reverse.map g.reverseChange
        let svFailures := outcomes.filterMap Outcome.versionFailure
        let genFailures := outcomes.filterMap Outcome.failure
        let drift := outcomes.filterMap Outcome.drift
        if !svFailures.isEmpty then .error (.systemVersioned svFailures)
        else if !genFailures.isEmpty then .error (.partialGeneration genFailures)
        else if !drift.isEmpty then .error (.schemaDrift drift)
        else .ok ⟨order, outcomes.filterMap Outcome.written⟩

theorem mem_undoOrder {rows : List Change} {row : Change} :
    row ∈ (g.undoOrder rows).2 ↔ row ∈ rows := by
  unfold undoOrder
  split
  · exact (orderByBinlog_perm Change.coord g.orderProof rows).mem_iff
  · exact Iff.rfl

/-- The changes pass the checks that look at them before any statement is built. -/
def Accepts (rows : List Change) : Prop :=
  g.checkScriptBudget rows = none ∧ ∀ row ∈ rows, checkUnresolvedToast row = none

/-- A change whose reversal is a statement of the same change, with no column gone. -/
def Reverses (row : Change) (stmt : Stmt) : Prop :=
  g.reverseChange row = .entry (.statement row row.eventType stmt) []

/-- When every change has its reversal, the script holds exactly these, from the
last change back. -/
theorem generate_of_reversed {rows : List Change} {rev : Change → Stmt}
    (accepts : g.Accepts rows) (reverses : ∀ row ∈ rows, g.Reverses row (rev row)) :
    ∃ script, g.generate rows = .ok script ∧
      script.statements = ((g.undoOrder rows).2.map rev).reverse := by
  have outcomes : (g.undoOrder rows).2.reverse.map g.reverseChange =
      (g.undoOrder rows).2.reverse.map fun row =>
        .entry (.statement row row.eventType (rev row)) [] := by
    apply map_congr_left
    intro row mem
    exact reverses row ((g.mem_undoOrder).mp (mem_reverse.mp mem))
  by_cases empty : rows = []
  · subst empty
    refine ⟨{}, rfl, ?_⟩
    have none_left : (g.undoOrder []).2 = [] :=
      eq_nil_iff_forall_not_mem.mpr fun row mem =>
        not_mem_nil ((g.mem_undoOrder).mp mem)
    rw [none_left]
    rfl
  · have toast : rows.findSome? checkUnresolvedToast = none :=
      findSome?_eq_none_iff.mpr accepts.2
    refine ⟨⟨(g.undoOrder rows).1, (g.undoOrder rows).2.reverse.map fun row =>
      .statement row row.eventType (rev row)⟩, ?_, ?_⟩
    · unfold generate
      rw [if_neg (by simpa using empty), accepts.1, toast]
      dsimp only
      rw [outcomes]
      simp only [filterMap_map, Function.comp_def, Outcome.versionFailure, Outcome.failure,
        Outcome.drift, Outcome.written, filterMap_none, isEmpty_nil, Bool.not_true,
        Bool.false_eq_true, if_false, filterMap_eq_map']
    · rw [← map_reverse]
      simp only [Script.statements, filterMap_map, Function.comp_def, Entry.stmt,
        filterMap_eq_map']

end Generator

end Dbtrail
