import Dbtrail.Indexer.TxnBatch

/-!
# What a reader sees when writes fail

The batcher with INSERT statements that can fail. `faults` says of each statement to come
whether it fails; a failed statement writes nothing, and the call that made it returns an
error with the batcher as it then is. `CallLog` is what the calls asked for: the rows that
were added and not discarded, and where transactions ended.

`visible_whole` is the invariant of every run: the committed rows are the first of those
rows, up to the end of a transaction or a split, and an index transaction is open only while
no row of an ended transaction waits.
-/

namespace Dbtrail

open List

variable {ε : Type}

/-- The batcher over an index whose INSERTs can fail. `index` holds the committed rows,
`splitsAt` how many there were at each call of the `Split` hook. -/
structure FailingBatcher (ε : Type) : Type where
  batchSize : ℕ
  maxRows : ℕ
  batch : List ε := []
  done : ℕ := 0
  inTxn : Bool := false
  tx : Option (List ε) := none
  txRows : ℕ := 0
  splits : ℕ := 0
  index : List ε := []
  splitsAt : List ℕ := []
  faults : List Bool := []
  deriving DecidableEq, Repr

/-- The INSERTs of `rows`, at most one batch per statement: whether all went well, the rows
they wrote, and the faults that are left. `fuel` bounds the statements. -/
def insertChunks (batchSize : ℕ) : ℕ → List Bool → List ε → Bool × List ε × List Bool
  | 0, faults, _ => (true, [], faults)
  | fuel + 1, faults, rows =>
      if rows.isEmpty then (true, [], faults)
      else if faults.head?.getD false then (false, [], faults.tail)
      else
        let k := min rows.length batchSize
        let (ok, written, faults) := insertChunks batchSize fuel faults.tail (rows.drop k)
        (ok, rows.take k ++ written, faults)

namespace FailingBatcher

/-- `CommitComplete`, and whether it returned no error. -/
def commitComplete (s : FailingBatcher ε) : Bool × FailingBatcher ε :=
  let rows := s.batch.take s.done
  if rows.isEmpty then (true, s)
  else
    let (ok, written, faults) := insertChunks s.batchSize rows.length s.faults rows
    let visible :=
      -- one statement commits on its own, several in a transaction that a failure rolls back
      if rows.length ≤ s.batchSize then written
      else if ok then written else []
    let s := { s with index := s.index ++ visible, faults := faults }
    if ok then (true, { s with batch := s.batch.drop s.done, done := 0 }) else (false, s)

def spill (s : FailingBatcher ε) : Bool × FailingBatcher ε :=
  if s.batch.isEmpty then (true, s)
  else
    let (ok, written, faults) := insertChunks s.batchSize s.batch.length s.faults s.batch
    let s := { s with tx := some (s.tx.getD [] ++ written), faults := faults }
    if ok then (true, { s with txRows := s.txRows + s.batch.length, batch := [] }) else (false, s)

def commitTx (s : FailingBatcher ε) : Bool × FailingBatcher ε :=
  let (ok, s) := s.spill
  if !ok then (false, s)
  else
    match s.tx with
    | none => (true, s)
    | some rows => (true, { s with index := s.index ++ rows, tx := none, txRows := 0 })

/-- `timeUp` is the reading of the clock against `maxOpen`. -/
def onCap (s : FailingBatcher ε) (timeUp : Bool) : Bool × FailingBatcher ε :=
  if s.tx.isNone then (true, s)
  else if s.maxRows ≤ s.txRows ∨ timeUp then
    let (ok, s) := s.commitTx
    if ok then
      (true, { s with splits := s.splits + 1, splitsAt := s.index.length :: s.splitsAt })
    else (false, s)
  else (true, s)

def add (s : FailingBatcher ε) (ev : ε) (timeUp : Bool) : Bool × FailingBatcher ε :=
  let s := { s with inTxn := true, batch := s.batch ++ [ev] }
  if s.batchSize ≤ s.batch.length - s.done then
    let (ok, s) := s.commitComplete
    if !ok then (false, s)
    else
      let (ok, s) := s.spill
      if !ok then (false, s) else s.onCap timeUp
  else s.onCap timeUp

def endTxn (s : FailingBatcher ε) : Bool × FailingBatcher ε :=
  let s := { s with inTxn := false, splits := 0 }
  if s.tx.isSome then s.commitTx
  else
    let s := { s with done := s.batch.length }
    if s.batchSize ≤ s.batch.length then s.commitComplete else (true, s)

def discard (s : FailingBatcher ε) : FailingBatcher ε :=
  { s with batch := s.batch.take s.done, inTxn := false, splits := 0, tx := none, txRows := 0 }

end FailingBatcher

/-! ## Calls -/

inductive BatcherCall (ε : Type) : Type
  | add (ev : ε) (timeUp : Bool)
  | endTxn
  | commitComplete
  | onCap (timeUp : Bool)
  | discard

def FailingBatcher.call (s : FailingBatcher ε) : BatcherCall ε → Bool × FailingBatcher ε
  | .add ev timeUp => s.add ev timeUp
  | .endTxn => s.endTxn
  | .commitComplete => s.commitComplete
  | .onCap timeUp => s.onCap timeUp
  | .discard => (true, s.discard)

/-- What the calls asked for: the rows added and not discarded, how many of them belong to
transactions that ended, and the numbers of rows at which one did. -/
structure CallLog (ε : Type) : Type where
  rows : List ε := []
  ended : ℕ := 0
  ends : List ℕ := [0]

/-- A call on the log, when `committed` rows are visible before it. A discard drops the rows
of the transaction being read; parts of it that a split committed stay. -/
def CallLog.after (log : CallLog ε) (committed : ℕ) : BatcherCall ε → CallLog ε
  | .add ev _ => { log with rows := log.rows ++ [ev] }
  | .endTxn => { log with ended := log.rows.length, ends := log.rows.length :: log.ends }
  | .discard => { log with rows := log.rows.take (max log.ended committed) }
  | _ => log

/-- After a failed call: a row is not added while the open transaction's rows already fill a
batch, and nothing is discarded while rows of an ended transaction are neither committed nor
waiting as complete. -/
def Resumes (s : FailingBatcher ε) (log : CallLog ε) : BatcherCall ε → Prop
  | .add _ _ => s.batch.length - s.done < s.batchSize
  | .discard => log.ended ≤ s.index.length + s.done
  | _ => True

/-- The runs of a batcher with any faults, and whether every call so far went well. -/
inductive BatcherRun (cfg : BatchConfig) : FailingBatcher ε → CallLog ε → Bool → Prop
  | start (faults : List Bool) : BatcherRun cfg
      { batchSize := newBatchSize cfg.batchSize, maxRows := cfg.maxRows, faults := faults } {} true
  | call {s : FailingBatcher ε} {log : CallLog ε} {ok : Bool} (run : BatcherRun cfg s log ok)
      (c : BatcherCall ε) (resumes : ok = false → Resumes s log c) :
      BatcherRun cfg (s.call c).2 (log.after s.index.length c) (ok && (s.call c).1)

/-! ## What each part does -/

theorem insertChunks_written {batchSize fuel : ℕ} (pos : 0 < batchSize) {faults : List Bool}
    {rows : List ε} (enough : rows.length ≤ fuel)
    (ok : (insertChunks batchSize fuel faults rows).1 = true) :
    (insertChunks batchSize fuel faults rows).2.1 = rows := by
  induction fuel generalizing faults rows with
  | zero => exact (length_eq_zero_iff.mp (Nat.le_zero.mp enough)).symm
  | succ fuel ih =>
    rw [insertChunks] at ok ⊢
    split at ok
    next empty =>
      rw [if_pos empty]
      exact (isEmpty_iff.mp empty).symm
    next some_ =>
      rw [if_neg some_]
      split at ok
      next => cases ok
      next good =>
        rw [if_neg good]
        have long : 0 < rows.length := length_pos_iff.mpr fun none_ => some_ (by simp [none_])
        have shorter : (rows.drop (min rows.length batchSize)).length ≤ fuel := by
          rw [length_drop]
          omega
        exact (congrArg (rows.take (min rows.length batchSize) ++ ·) (ih shorter ok)).trans
          (take_append_drop _ _)

/-- A single statement writes nothing when it fails. -/
theorem insertChunks_failed {batchSize fuel : ℕ} {faults : List Bool} {rows : List ε}
    (one : rows.length ≤ batchSize) (failed : (insertChunks batchSize fuel faults rows).1 = false) :
    (insertChunks batchSize fuel faults rows).2.1 = [] := by
  cases fuel with
  | zero => rfl
  | succ fuel =>
    rw [insertChunks] at failed ⊢
    split at failed
    next => cases failed
    next some_ =>
      rw [if_neg some_]
      split at failed
      next bad => rw [if_pos bad]
      next =>
        -- the first statement took every row, and there is no second
        rw [min_eq_left one] at failed
        dsimp only at failed
        rw [drop_length] at failed
        cases fuel <;> cases failed

namespace FailingBatcher

variable {s : FailingBatcher ε}

theorem commitComplete_cases (pos : 0 < s.batchSize) (done_le : s.done ≤ s.batch.length) :
    (∃ faults, s.commitComplete = (false, { s with faults := faults })) ∨
    ∃ faults, s.commitComplete = (true, { s with
      index := s.index ++ s.batch.take s.done, batch := s.batch.drop s.done, done := 0
      faults := faults }) := by
  unfold commitComplete
  dsimp only
  split
  next empty =>
    have none_ : s.done = 0 := by
      rw [List.isEmpty_iff, List.take_eq_nil_iff] at empty
      rcases empty with zero | none_
      · exact zero
      · rw [none_, List.length_nil] at done_le
        exact Nat.le_zero.mp done_le
    refine .inr ⟨s.faults, ?_⟩
    rw [none_, List.take_zero, List.append_nil, List.drop_zero, ← none_]
  next =>
    cases ok : (insertChunks s.batchSize (s.batch.take s.done).length s.faults
      (s.batch.take s.done)).1 with
    | true =>
      refine .inr ⟨(insertChunks s.batchSize (s.batch.take s.done).length s.faults
        (s.batch.take s.done)).2.2, ?_⟩
      rw [if_pos rfl, if_pos rfl, insertChunks_written pos le_rfl ok, ite_self]
    | false =>
      refine .inl ⟨(insertChunks s.batchSize (s.batch.take s.done).length s.faults
        (s.batch.take s.done)).2.2, ?_⟩
      rw [if_neg Bool.false_ne_true, if_neg Bool.false_ne_true]
      split
      next one => rw [insertChunks_failed one ok, List.append_nil]
      next => rw [List.append_nil]

theorem spill_cases (pos : 0 < s.batchSize) (fits : s.batch.length ≤ s.batchSize) :
    (∃ faults, s.spill = (false, { s with tx := some (s.tx.getD []), faults := faults })) ∨
    (s.batch = [] ∧ s.spill = (true, s)) ∨
    ∃ faults, s.spill = (true, { s with
      tx := some (s.tx.getD [] ++ s.batch), txRows := s.txRows + s.batch.length, batch := []
      faults := faults }) := by
  unfold spill
  split
  next empty => exact .inr (.inl ⟨isEmpty_iff.mp empty, rfl⟩)
  next =>
    dsimp only
    cases ok : (insertChunks s.batchSize s.batch.length s.faults s.batch).1 with
    | true =>
      refine .inr (.inr ⟨(insertChunks s.batchSize s.batch.length s.faults s.batch).2.2, ?_⟩)
      rw [if_pos rfl, insertChunks_written pos le_rfl ok]
    | false =>
      refine .inl ⟨(insertChunks s.batchSize s.batch.length s.faults s.batch).2.2, ?_⟩
      rw [if_neg Bool.false_ne_true, insertChunks_failed fits ok, append_nil]

theorem commitTx_cases (pos : 0 < s.batchSize) (fits : s.batch.length ≤ s.batchSize)
    {rows : List ε} (isOpen : s.tx = some rows) :
    (∃ faults, s.commitTx = (false, { s with faults := faults })) ∨
    ∃ faults, s.commitTx = (true, { s with
      index := s.index ++ rows ++ s.batch, tx := none, txRows := 0, batch := []
      faults := faults }) := by
  unfold commitTx
  rcases spill_cases pos fits with ⟨faults, eq⟩ | ⟨empty, eq⟩ | ⟨faults, eq⟩
  · refine .inl ⟨faults, ?_⟩
    rw [eq, isOpen]
    cases s
    cases isOpen
    rfl
  · refine .inr ⟨s.faults, ?_⟩
    rw [eq]
    cases s
    cases isOpen
    cases empty
    simp
  · refine .inr ⟨faults, ?_⟩
    rw [eq, isOpen]
    simp

theorem onCap_cases (pos : 0 < s.batchSize)
    (fits : s.tx.isSome = true → s.batch.length ≤ s.batchSize) (timeUp : Bool) :
    s.onCap timeUp = (true, s) ∨
    ∃ rows, s.tx = some rows ∧ ∃ faults, s.onCap timeUp = (false, { s with faults := faults }) ∨
      s.onCap timeUp = (true, { s with
        index := s.index ++ rows ++ s.batch, tx := none, txRows := 0, batch := []
        splits := s.splits + 1
        splitsAt := (s.index ++ rows ++ s.batch).length :: s.splitsAt, faults := faults }) := by
  unfold onCap
  split
  next => exact .inl rfl
  next isOpen =>
    obtain ⟨rows, isOpen⟩ := Option.ne_none_iff_exists'.mp (by simpa using isOpen)
    split
    next =>
      rcases commitTx_cases pos (fits (by rw [isOpen]; rfl)) isOpen with
        ⟨faults, eq⟩ | ⟨faults, eq⟩
      · exact .inr ⟨rows, isOpen, faults, .inl (by rw [eq]; rfl)⟩
      · exact .inr ⟨rows, isOpen, faults, .inr (by rw [eq]; rfl)⟩
    next => exact .inl rfl

end FailingBatcher

/-! ## The invariant -/

/-- The batcher against the log of its calls. -/
structure Holds (s : FailingBatcher ε) (log : CallLog ε) : Prop where
  pos : 0 < s.batchSize
  /-- committed, written and waiting rows are, in this order, the rows of the log -/
  rows : log.rows = s.index ++ s.tx.getD [] ++ s.batch
  tx_done : s.tx.isSome = true → s.done = 0
  done_le : s.done ≤ s.batch.length
  room : s.batch.length - s.done ≤ s.batchSize
  whole : s.index.length ∈ log.ends ∨ s.index.length ∈ s.splitsAt
  complete : 0 < s.done → log.ended = s.index.length + s.done ∧ log.ended ∈ log.ends
  ended_le : log.ended ≤ log.rows.length

/-- What holds in addition while every call went well. -/
def Keeps (s : FailingBatcher ε) (log : CallLog ε) : Prop :=
  s.batch.length - s.done < s.batchSize ∧ log.ended ≤ s.index.length + s.done

section Steps

variable {s : FailingBatcher ε} {log : CallLog ε}

section

variable (holds : Holds s log)

include holds

theorem Holds.fits (isOpen : s.tx.isSome = true) : s.batch.length ≤ s.batchSize := by
  have room := holds.room
  rw [holds.tx_done isOpen] at room
  exact room

/-- A change of the fields the invariant does not read. -/
theorem Holds.of_eq {s' : FailingBatcher ε} (batchSize : s'.batchSize = s.batchSize)
    (batch : s'.batch = s.batch) (done : s'.done = s.done) (tx : s'.tx = s.tx)
    (index : s'.index = s.index) (splitsAt : s'.splitsAt = s.splitsAt) : Holds s' log where
  pos := batchSize ▸ holds.pos
  rows := by rw [index, tx, batch, holds.rows]
  tx_done := by rw [tx, done]; exact holds.tx_done
  done_le := by rw [done, batch]; exact holds.done_le
  room := by rw [batch, done, batchSize]; exact holds.room
  whole := by rw [index, splitsAt]; exact holds.whole
  complete := by rw [done, index]; exact holds.complete
  ended_le := holds.ended_le

/-- Everything in hand is committed, at the end of a transaction or at a split. -/
theorem Holds.commitAll (s' : FailingBatcher ε)
    (batchSize : s'.batchSize = s.batchSize) (batch : s'.batch = []) (done : s'.done = 0)
    (tx : s'.tx = none) (index : s'.index = s.index ++ s.tx.getD [] ++ s.batch)
    (whole : s'.index.length ∈ log.ends ∨ s'.index.length ∈ s'.splitsAt) :
    Holds s' log ∧ Keeps s' log := by
  have all : log.rows = s'.index := by rw [holds.rows, index]
  have pos : 0 < s'.batchSize := batchSize ▸ holds.pos
  refine ⟨⟨pos, ?_, ?_, ?_, ?_, whole, ?_, holds.ended_le⟩, ?_, ?_⟩
  · rw [all, tx, batch, Option.getD_none, append_nil, append_nil]
  · rw [tx]
    exact fun isSome => (nomatch isSome)
  · rw [done]
    exact Nat.zero_le _
  · rw [batch, length_nil, Nat.zero_sub]
    exact Nat.zero_le _
  · rw [done]
    exact fun lt => absurd lt (lt_irrefl 0)
  · rw [batch, length_nil, Nat.zero_sub]
    exact pos
  · rw [done, Nat.add_zero, ← all]
    exact holds.ended_le

theorem Holds.commitComplete :
    Holds s.commitComplete.2 log ∧ (Keeps s log → Keeps s.commitComplete.2 log) ∧
      (s.commitComplete.1 = true → s.commitComplete.2.done = 0 ∧
        s.commitComplete.2.batch = s.batch.drop s.done ∧
        s.commitComplete.2.index.length = s.index.length + s.done) := by
  have taken : (s.batch.take s.done).length = s.done := length_take_of_le holds.done_le
  have dropped : (s.batch.drop s.done).length = s.batch.length - s.done := length_drop
  rcases FailingBatcher.commitComplete_cases holds.pos holds.done_le with
    ⟨faults, eq⟩ | ⟨faults, eq⟩
  · rw [eq]
    exact ⟨holds.of_eq rfl rfl rfl rfl rfl rfl, id, fun ok => (nomatch ok)⟩
  · have moved : s.index.length + s.done = (s.index ++ s.batch.take s.done).length := by
      rw [length_append, taken]
    rw [eq]
    refine ⟨⟨holds.pos, ?_, fun _ => rfl, Nat.zero_le _, ?_, ?_, fun lt => absurd lt (lt_irrefl 0),
      holds.ended_le⟩, fun keeps => ⟨?_, ?_⟩, fun _ => ⟨rfl, rfl, moved.symm⟩⟩
    · -- an index transaction and complete rows are never there together
      cases tx : s.tx with
      | none => rw [holds.rows, tx]; simp
      | some rows =>
        rw [holds.rows, tx, holds.tx_done (by rw [tx]; rfl)]
        simp
    · rw [dropped]
      exact holds.room
    · rcases Nat.eq_zero_or_pos s.done with zero | some_
      · dsimp only
        rw [← moved, zero]
        exact holds.whole
      · obtain ⟨ended, isEnd⟩ := holds.complete some_
        refine .inl ?_
        rw [ended] at isEnd
        rwa [← moved]
    · dsimp only
      rw [dropped]
      exact keeps.1
    · dsimp only
      rw [← moved]
      exact keeps.2

theorem Holds.spill (none_ : s.done = 0) :
    Holds s.spill.2 log ∧ (s.spill.1 = true → s.spill.2.batch = []) ∧
      s.spill.2.index = s.index ∧ s.spill.2.done = 0 := by
  have fits : s.batch.length ≤ s.batchSize := by
    have room := holds.room
    rw [none_] at room
    exact room
  rcases FailingBatcher.spill_cases holds.pos fits with ⟨faults, eq⟩ | ⟨empty, eq⟩ | ⟨faults, eq⟩
  · rw [eq]
    refine ⟨⟨holds.pos, ?_, fun _ => none_, holds.done_le, holds.room, holds.whole, holds.complete,
      holds.ended_le⟩, fun ok => (nomatch ok), rfl, none_⟩
    rw [holds.rows]
    rfl
  · rw [eq]
    exact ⟨holds, fun _ => empty, rfl, none_⟩
  · rw [eq]
    refine ⟨⟨holds.pos, ?_, fun _ => none_, ?_, ?_, holds.whole, holds.complete, holds.ended_le⟩,
      fun _ => rfl, rfl, none_⟩
    · rw [holds.rows, Option.getD_some, append_nil, append_assoc]
    · rw [none_]
      exact Nat.zero_le _
    · dsimp only
      rw [length_nil, Nat.zero_sub]
      exact Nat.zero_le _

theorem Holds.onCap (timeUp : Bool) :
    Holds (s.onCap timeUp).2 log ∧ (Keeps s log → Keeps (s.onCap timeUp).2 log) := by
  rcases FailingBatcher.onCap_cases holds.pos holds.fits timeUp with
    eq | ⟨rows, isOpen, faults, eq | eq⟩
  · rw [eq]
    exact ⟨holds, id⟩
  · rw [eq]
    exact ⟨holds.of_eq rfl rfl rfl rfl rfl rfl, id⟩
  · obtain ⟨after, keeps⟩ := holds.commitAll (s.onCap timeUp).2 (by rw [eq]) (by rw [eq])
      (by rw [eq]; exact holds.tx_done (by rw [isOpen]; rfl)) (by rw [eq])
      (by rw [eq, isOpen]; rfl) (.inr (by rw [eq]; exact mem_cons_self))
    exact ⟨after, fun _ => keeps⟩

theorem Holds.commitTx {rows : List ε} (isOpen : s.tx = some rows)
    (whole : log.rows.length ∈ log.ends) :
    Holds s.commitTx.2 log ∧ (s.commitTx.1 = true → Keeps s.commitTx.2 log) := by
  have isSome : s.tx.isSome = true := by
    rw [isOpen]
    rfl
  rcases FailingBatcher.commitTx_cases holds.pos (holds.fits isSome) isOpen with
    ⟨faults, eq⟩ | ⟨faults, eq⟩
  · rw [eq]
    exact ⟨holds.of_eq rfl rfl rfl rfl rfl rfl, fun ok => (nomatch ok)⟩
  · obtain ⟨after, keeps⟩ := holds.commitAll s.commitTx.2 (by rw [eq]) (by rw [eq])
      (by rw [eq]; exact holds.tx_done isSome) (by rw [eq]) (by rw [eq, isOpen]; rfl)
      (.inl (by rw [eq]; rw [holds.rows, isOpen] at whole; exact whole))
    exact ⟨after, fun _ => keeps⟩

theorem Holds.add (free : s.batch.length - s.done < s.batchSize) (ev : ε) (timeUp : Bool) :
    Holds (s.add ev timeUp).2 (log.after s.index.length (.add ev timeUp)) ∧
      (Keeps s log → (s.add ev timeUp).1 = true →
        Keeps (s.add ev timeUp).2 (log.after s.index.length (.add ev timeUp))) := by
  have done_le := holds.done_le
  have length : (s.batch ++ [ev]).length = s.batch.length + 1 := by simp
  have added : Holds { s with inTxn := true, batch := s.batch ++ [ev] }
      (log.after s.index.length (.add ev timeUp)) := by
    refine ⟨holds.pos, ?_, holds.tx_done, ?_, ?_, holds.whole, holds.complete, ?_⟩
    · rw [CallLog.after]
      dsimp only
      rw [holds.rows, append_assoc]
    · dsimp only
      rw [length]
      exact done_le.trans (Nat.le_succ _)
    · dsimp only
      rw [length]
      omega
    · rw [CallLog.after]
      dsimp only
      rw [length_append]
      exact holds.ended_le.trans (Nat.le_add_right _ _)
  have ended (keeps : Keeps s log) :
      (log.after s.index.length (.add ev timeUp)).ended ≤ s.index.length + s.done := keeps.2
  generalize log.after s.index.length (.add ev timeUp) = log' at added ended ⊢
  unfold FailingBatcher.add
  dsimp only
  split
  next =>
    -- the open transaction fills a batch: what is complete goes first, then it spills
    obtain ⟨committed, -, moved⟩ := added.commitComplete
    cases first : ({ s with inTxn := true, batch := s.batch ++ [ev] } :
        FailingBatcher ε).commitComplete with
    | mk ok t =>
      rw [first] at committed moved
      cases ok with
      | false => exact ⟨committed, fun _ failed => (nomatch failed)⟩
      | true =>
        obtain ⟨none_, -, grown⟩ := moved rfl
        obtain ⟨spilled, empties, index, stillNone⟩ := committed.spill none_
        cases second : t.spill with
        | mk ok u =>
          rw [second] at spilled empties index stillNone
          cases ok with
          | false => exact ⟨spilled, fun _ failed => (nomatch failed)⟩
          | true =>
            obtain ⟨after, keepsAfter⟩ := spilled.onCap timeUp
            refine ⟨after, fun keeps _ => keepsAfter ⟨?_, ?_⟩⟩
            · rw [empties rfl, length_nil, Nat.zero_sub]
              exact spilled.pos
            · rw [index, stillNone, Nat.add_zero, grown]
              exact ended keeps
  next notFull =>
    obtain ⟨after, keepsAfter⟩ := added.onCap timeUp
    exact ⟨after, fun keeps _ => keepsAfter ⟨not_le.mp notFull, ended keeps⟩⟩

theorem Holds.endTxn : Holds s.endTxn.2 (log.after s.index.length .endTxn) ∧
      (s.endTxn.1 = true → Keeps s.endTxn.2 (log.after s.index.length .endTxn)) := by
  have isEnd : log.rows.length ∈ (log.after s.index.length .endTxn).ends := mem_cons_self
  have whole : s.index.length ∈ (log.after s.index.length .endTxn).ends ∨
      s.index.length ∈ s.splitsAt := holds.whole.imp_left fun old => mem_cons_of_mem _ old
  unfold FailingBatcher.endTxn
  dsimp only
  cases tx : s.tx with
  | some rows =>
    rw [if_pos (show (some rows).isSome = true from rfl)]
    have none_ : s.done = 0 := holds.tx_done (by rw [tx]; rfl)
    have ended : Holds { s with inTxn := false, splits := 0 }
        (log.after s.index.length .endTxn) :=
      ⟨holds.pos, holds.rows, holds.tx_done, holds.done_le, holds.room, whole,
        fun lt => absurd none_ (Nat.ne_of_gt lt), le_rfl⟩
    obtain ⟨after, keeps⟩ := Holds.commitTx ended tx isEnd
    exact ⟨tx ▸ after, tx ▸ keeps⟩
  | none =>
    rw [if_neg (show ¬(none : Option (List ε)).isSome = true from Bool.false_ne_true)]
    have all : log.rows.length = s.index.length + s.batch.length := by
      rw [holds.rows, tx]
      simp
    have ended : Holds { s with inTxn := false, splits := 0, done := s.batch.length }
        (log.after s.index.length .endTxn) := by
      refine ⟨holds.pos, holds.rows, fun isSome => ?_, le_rfl, ?_, whole, fun _ => ⟨all, isEnd⟩,
        le_rfl⟩
      · dsimp only at isSome
        rw [tx] at isSome
        cases isSome
      · dsimp only
        rw [Nat.sub_self]
        exact Nat.zero_le _
    have keeps : Keeps { s with inTxn := false, splits := 0, done := s.batch.length }
        (log.after s.index.length .endTxn) := by
      refine ⟨?_, all.le⟩
      dsimp only
      rw [Nat.sub_self]
      exact holds.pos
    rw [← tx]
    split
    next =>
      obtain ⟨after, keepsAfter, -⟩ := ended.commitComplete
      exact ⟨after, fun _ => keepsAfter keeps⟩
    next => exact ⟨ended, fun _ => keeps⟩

theorem Holds.discard (kept : log.ended ≤ s.index.length + s.done) :
    Holds s.discard (log.after s.index.length .discard) ∧
      Keeps s.discard (log.after s.index.length .discard) := by
  have taken : (s.batch.take s.done).length = s.done := length_take_of_le holds.done_le
  have size : max log.ended s.index.length = s.index.length + s.done := by
    rcases Nat.eq_zero_or_pos s.done with zero | some_
    · rw [zero, Nat.add_zero] at kept ⊢
      exact max_eq_right kept
    · rw [(holds.complete some_).1]
      exact max_eq_left (Nat.le_add_right _ _)
  have rows : log.rows.take (max log.ended s.index.length) = s.index ++ s.batch.take s.done := by
    rw [size, holds.rows]
    cases tx : s.tx with
    | none => rw [Option.getD_none, append_nil, take_length_add_append]
    | some written =>
      rw [holds.tx_done (by rw [tx]; rfl), Nat.add_zero, append_assoc, take_left,
        take_zero, append_nil]
  refine ⟨⟨holds.pos, ?_, fun isSome => (nomatch isSome), taken.ge, ?_, holds.whole,
    holds.complete, ?_⟩, ?_, kept⟩
  · exact rows.trans (by simp [FailingBatcher.discard])
  · change (s.batch.take s.done).length - s.done ≤ s.batchSize
    rw [taken, Nat.sub_self]
    exact Nat.zero_le _
  · change log.ended ≤ (log.rows.take (max log.ended s.index.length)).length
    rw [length_take]
    exact le_min (le_max_left _ _) holds.ended_le
  · change (s.batch.take s.done).length - s.done < s.batchSize
    rw [taken, Nat.sub_self]
    exact holds.pos

end

end Steps

/-! ## Every run -/

theorem BatcherRun.holds {cfg : BatchConfig} {s : FailingBatcher ε} {log : CallLog ε} {ok : Bool}
    (run : BatcherRun cfg s log ok) : Holds s log ∧ (ok = true → Keeps s log) := by
  induction run with
  | start faults =>
    have pos := newBatchSize_pos cfg.batchSize
    exact ⟨⟨pos, rfl, fun isSome => (nomatch isSome), le_rfl, Nat.zero_le _,
      .inl mem_cons_self, fun lt => absurd lt (lt_irrefl 0), le_rfl⟩,
      fun _ => ⟨pos, le_rfl⟩⟩
  | @call s log ok run c resumes ih =>
    obtain ⟨holds, keeps⟩ := ih
    have both {t : Bool × FailingBatcher ε} (isOk : (ok && t.1) = true) :
        ok = true ∧ t.1 = true := by simpa using isOk
    cases c with
    | add ev timeUp =>
      have free : s.batch.length - s.done < s.batchSize := by
        cases ok with
        | true => exact (keeps rfl).1
        | false => exact resumes rfl
      obtain ⟨after, keepsAfter⟩ := holds.add free ev timeUp
      exact ⟨after, fun isOk => keepsAfter (keeps (both isOk).1) (both isOk).2⟩
    | endTxn =>
      obtain ⟨after, keepsAfter⟩ := holds.endTxn
      exact ⟨after, fun isOk => keepsAfter (both isOk).2⟩
    | commitComplete =>
      obtain ⟨after, keepsAfter, -⟩ := holds.commitComplete
      exact ⟨after, fun isOk => keepsAfter (keeps (both isOk).1)⟩
    | onCap timeUp =>
      obtain ⟨after, keepsAfter⟩ := holds.onCap timeUp
      exact ⟨after, fun isOk => keepsAfter (keeps (both isOk).1)⟩
    | discard =>
      have kept : log.ended ≤ s.index.length + s.done := by
        cases ok with
        | true => exact (keeps rfl).2
        | false => exact resumes rfl
      obtain ⟨after, keepsAfter⟩ := holds.discard kept
      exact ⟨after, fun _ => keepsAfter⟩

/-- In every run, with any INSERTs failing, the committed rows are the first of the rows that
were added and not discarded, in order and each once; they end where a transaction ended or
where a cap split one; and an index transaction is open only while no row of an ended
transaction waits. -/
theorem visible_whole {cfg : BatchConfig} {s : FailingBatcher ε} {log : CallLog ε} {ok : Bool}
    (run : BatcherRun cfg s log ok) :
    s.index <+: log.rows ∧ (s.index.length ∈ log.ends ∨ s.index.length ∈ s.splitsAt) ∧
      (s.tx.isSome = true → s.batch.take s.done = []) := by
  obtain ⟨holds, -⟩ := run.holds
  refine ⟨?_, holds.whole, fun isOpen => ?_⟩
  · rw [holds.rows, append_assoc]
    exact prefix_append _ _
  · rw [holds.tx_done isOpen, take_zero]

section Runs

def runCalls (s : FailingBatcher ε) (calls : List (BatcherCall ε)) : FailingBatcher ε :=
  calls.foldl (fun s c => (s.call c).2) s

/-- The rows of the `Add` calls. -/
def addedRows (calls : List (BatcherCall ε)) : List ε :=
  calls.filterMap fun
    | .add ev _ => some ev
    | _ => none

/-- A transaction of two rows fills a batch and its INSERT fails; the row is written at the end
of the transaction. -/
theorem visible_after_failure :
    ∃ (s : FailingBatcher String) (log : CallLog String),
      BatcherRun ⟨2, 10⟩ s log false ∧ s.index = ["a", "b"] ∧ s.index <+: log.rows := by
  have start : BatcherRun ⟨2, 10⟩ _ (_ : CallLog String) true := BatcherRun.start [true]
  have run := BatcherRun.call (BatcherRun.call (BatcherRun.call
    start (.add "a" false) (fun no => (nomatch no)))
    (.add "b" false) (fun no => (nomatch no))) .endTxn (fun _ => trivial)
  exact ⟨_, _, run, rfl, (visible_whole run).1⟩

/-- Discarded rows are among the added ones and are never committed. -/
theorem discarded_not_committed :
    let calls : List (BatcherCall String) :=
      [.add "a" false, .discard, .add "b" false, .endTxn, .commitComplete]
    (runCalls { batchSize := 2, maxRows := 10 } calls).index = ["b"] ∧
      addedRows calls = ["a", "b"] := ⟨rfl, rfl⟩

/-- Rows added after a failed `Add` can be committed twice: the second statement of the spill
fails, and the rows of the first are written again. -/
example :
    (runCalls { batchSize := 2, maxRows := 10, faults := [true, false, false, true] }
      [.add "c" false, .endTxn, .add "a" false, .add "b" false, .add "d" false, .endTxn]).index =
      ["c", "a", "b", "a", "b", "d"] := rfl

end Runs

end Dbtrail
