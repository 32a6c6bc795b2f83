import Dbtrail.Lib.Durable

/-!
# Writing captured rows to the index

`TxnBatcher` writes captured rows so that a reader never sees a source
transaction in part. Rows of ended transactions wait in `batch.take done` and
are committed together. Rows of the transaction being read wait behind them,
and once they fill a batch they go into an index transaction of their own
(`tx`), committed at the transaction's end or, past a cap, in parts.

Every operation is described by `Advances`: the rows the index holds, the rows
written but not committed and the rows still in memory are always, in this
order, the rows taken so far, and each write only moves the border between
them. The index assigns row ids in increasing order.
-/

namespace Dbtrail

open List

/-- The index: the committed rows of `binlog_events` with their `event_id`, the
next id, and the checkpoint row of `stream_state`. -/
structure IndexDB (ε κ : Type) : Type where
  rows : List (ℕ × ε)
  nextID : ℕ
  saved : κ
  deriving DecidableEq, Repr

/-- The batcher and the part of the indexer it reads. `tx` holds the rows of the
open index transaction. -/
structure TxnBatcher (ε : Type) : Type where
  batchSize : ℕ
  maxRows : ℕ
  firstIDOfLastBatch : ℕ := 0
  batch : List ε := []
  done : ℕ := 0
  inTxn : Bool := false
  tx : Option (List (ℕ × ε)) := none
  splits : ℕ := 0
  deriving DecidableEq, Repr

variable {ε σ κ : Type}

/-- `MaxBatchSize`: the placeholders of one statement over the columns of a row. -/
def maxBatchSize : ℤ := 65535 / 17

/-- The batch size `indexer.New` settles on. -/
def newBatchSize (batchSize : ℤ) : ℕ :=
  let batchSize := if batchSize ≤ 0 then 1000 else batchSize
  (if maxBatchSize < batchSize then maxBatchSize else batchSize).toNat

/-- What a run is configured with: the batch size asked for and the row cap. -/
structure BatchConfig : Type where
  batchSize : ℤ
  maxRows : ℕ
  deriving DecidableEq, Repr

def newTxnBatcher (cfg : BatchConfig) : TxnBatcher ε where
  batchSize := newBatchSize cfg.batchSize
  maxRows := cfg.maxRows

theorem newBatchSize_pos (batchSize : ℤ) : 0 < newBatchSize batchSize := by
  simp only [newBatchSize, maxBatchSize]
  split <;> split <;> omega

/-- A capture process: its batcher, the rest of its memory, and the index. -/
abbrev Capture (ε σ κ : Type) : Type := Proc (TxnBatcher ε × σ) (IndexDB ε κ)

namespace Capture

def w (p : Capture ε σ κ) : TxnBatcher ε := p.mem.1

def setW (p : Capture ε σ κ) (f : TxnBatcher ε → TxnBatcher ε) : Capture ε σ κ :=
  p.modifyMem fun m => (f m.1, m.2)

/-- The ids an INSERT gives to its rows. -/
def stamp (id : ℕ) (rows : List ε) : List (ℕ × ε) := rows.zipIdx id |>.map Prod.swap

/-- `Indexer.InsertBatch`: one statement, committed on its own. -/
def insertBatch (p : Capture ε σ κ) (rows : List ε) : Capture ε σ κ :=
  (p.setW fun w => { w with firstIDOfLastBatch := p.disk.nextID }).persist fun db =>
    { db with rows := db.rows ++ stamp db.nextID rows, nextID := db.nextID + rows.length }

/-- `Txn.InsertBatch`: the ids are taken, the rows wait for the COMMIT. -/
def txnInsertBatch (p : Capture ε σ κ) (rows : List ε) : List (ℕ × ε) × Capture ε σ κ :=
  (stamp p.disk.nextID rows,
    (p.setW fun w => { w with firstIDOfLastBatch := p.disk.nextID }).persist fun db =>
      { db with nextID := db.nextID + rows.length })

/-- `writeChunks` into an index transaction that already holds `held`, at most
one batch per statement. `fuel` bounds the statements. -/
def writeChunks : ℕ → Capture ε σ κ → List (ℕ × ε) → List ε → List (ℕ × ε) × Capture ε σ κ
  | 0, p, held, _ => (held, p)
  | fuel + 1, p, held, rows =>
      if rows.isEmpty then (held, p)
      else
        let k := min rows.length p.w.batchSize
        let (written, p) := p.txnInsertBatch (rows.take k)
        writeChunks fuel p (held ++ written) (rows.drop k)

/-- Commit the rows of ended transactions, all at once. -/
def commitComplete (p : Capture ε σ κ) : Capture ε σ κ :=
  let rows := p.w.batch.take p.w.done
  if rows.isEmpty then p
  else
    let p :=
      if rows.length ≤ p.w.batchSize then p.insertBatch rows
      else
        let (written, p) := writeChunks rows.length p [] rows
        p.persist fun db => { db with rows := db.rows ++ written }
    p.setW fun w => { w with batch := w.batch.drop w.done, done := 0 }

/-- Write the open transaction's rows into its index transaction, uncommitted. -/
def spill (p : Capture ε σ κ) : Capture ε σ κ :=
  if p.w.batch.isEmpty then p
  else
    let (written, p) := writeChunks p.w.batch.length p (p.w.tx.getD []) p.w.batch
    p.setW fun w => { w with tx := some written, batch := [] }

/-- Commit the open index transaction, spilling first. -/
def commitTx (p : Capture ε σ κ) : Capture ε σ κ :=
  let p := p.spill
  match p.w.tx with
  | none => p
  | some rows =>
      setW (p.persist fun db => { db with rows := db.rows ++ rows }) fun w => { w with tx := none }

/-- Past a cap, commit what the open transaction has so far. `timeUp` is the
reading of the clock against `maxOpen`. -/
def onCap (p : Capture ε σ κ) (timeUp : Bool) : Capture ε σ κ :=
  match p.w.tx with
  | none => p
  | some rows =>
      if p.w.maxRows ≤ rows.length ∨ timeUp then
        p.commitTx.setW fun w => { w with splits := w.splits + 1 }
      else p

/-- Take one row of the transaction being read. -/
def add (p : Capture ε σ κ) (ev : ε) (timeUp : Bool) : Capture ε σ κ :=
  let p := p.setW fun w => { w with inTxn := true, batch := w.batch ++ [ev] }
  let p := if p.w.batchSize ≤ p.w.batch.length - p.w.done then p.commitComplete.spill else p
  p.onCap timeUp

/-- The transaction being read ended. -/
def endTxn (p : Capture ε σ κ) : Capture ε σ κ :=
  let p := p.setW fun w => { w with inTxn := false, splits := 0 }
  match p.w.tx with
  -- the batch holds only this transaction's remaining rows
  | some _ => p.commitTx
  | none =>
      let p := p.setW fun w => { w with done := w.batch.length }
      if p.w.batchSize ≤ p.w.batch.length then p.commitComplete else p

/-- Drop every row of the transaction being read, written or not. -/
def discard (p : Capture ε σ κ) : Capture ε σ κ :=
  p.setW fun w => { w with batch := w.batch.take w.done, inTxn := false, splits := 0, tx := none }

/-! ## What every operation keeps -/

/-- Rows written by this process: committed, then waiting in the index
transaction. -/
def written (p : Capture ε σ κ) : List (ℕ × ε) := p.disk.rows ++ p.w.tx.getD []

/-- Every row taken, in order. -/
def taken (p : Capture ε σ κ) : List ε := p.written.map Prod.snd ++ p.w.batch

/-- The rows of ended transactions, and of what a cap already committed. -/
def complete (p : Capture ε σ κ) : List ε :=
  p.disk.rows.map Prod.snd ++ p.w.batch.take p.w.done

/-- The batcher's own invariant. -/
structure WF (p : Capture ε σ κ) : Prop where
  batchSize_pos : 0 < p.w.batchSize
  done_le : p.w.done ≤ p.w.batch.length
  /-- an index transaction holds only rows of the open source transaction -/
  tx_done : p.w.tx.isSome → p.w.done = 0
  firstID_le : p.w.firstIDOfLastBatch ≤ p.disk.nextID

variable {p : Capture ε σ κ}

/-- What is complete comes first among what was taken. -/
theorem complete_prefix_taken (wf : WF p) : p.complete <+: p.taken := by
  unfold complete taken written
  cases tx : p.w.tx with
  | none =>
    simp only [Option.getD_none, append_nil]
    exact (prefix_append_right_inj _).mpr ( take_prefix _ _)
  | some rows =>
    rw [wf.tx_done (by simp [tx])]
    simp only [Option.getD_some, take_zero, append_nil, map_append,
      append_assoc]
    exact prefix_append _ _

/-- What one operation of the batcher does: it takes the rows `added`, and writes
some of the rows it holds, in order and under new ids. -/
structure Advances (p q : Capture ε σ κ) (added : List ε) : Prop where
  rest : q.mem.2 = p.mem.2
  saved : q.disk.saved = p.disk.saved
  taken : q.taken = p.taken ++ added
  grown : ∃ new, q.written = p.written ++ new ∧ ∀ x ∈ new, p.disk.nextID ≤ x.1
  nextID_le : p.disk.nextID ≤ q.disk.nextID
  rows : p.disk.rows <+: q.disk.rows
  complete : p.complete <+: q.complete
  behind : ∀ d ∈ q.visited, d ∈ p.visited ∨
    d.saved = p.disk.saved ∧ p.disk.nextID ≤ d.nextID ∧ p.disk.rows <+: d.rows ∧
      d.rows <+: q.disk.rows
  wf : WF q

theorem Advances.refl (wf : WF p) : Advances p p [] where
  rest := rfl
  saved := rfl
  taken := by simp
  grown := ⟨[], by simp, by simp⟩
  nextID_le := le_rfl
  rows := prefix_rfl
  complete := prefix_rfl
  behind := fun _ member => .inl member
  wf := wf

variable {q : Capture ε σ κ}

theorem Advances.trans {r : Capture ε σ κ} {a b : List ε} (first : Advances p q a)
    (second : Advances q r b) : Advances p r (a ++ b) where
  rest := second.rest.trans first.rest
  saved := second.saved.trans first.saved
  taken := by rw [second.taken, first.taken, append_assoc]
  grown := by
    obtain ⟨new, grown, ids⟩ := first.grown
    obtain ⟨new', grown', ids'⟩ := second.grown
    refine ⟨new ++ new', by rw [grown', grown, append_assoc], ?_⟩
    exact forall_mem_append.mpr ⟨ids, fun x member => first.nextID_le.trans (ids' x member)⟩
  nextID_le := first.nextID_le.trans second.nextID_le
  rows := first.rows.trans second.rows
  complete := first.complete.trans second.complete
  behind := by
    intro d member
    rcases second.behind d member with member | ⟨saved, ids, above, below⟩
    · rcases first.behind d member with member | ⟨saved, ids, above, below⟩
      · exact .inl member
      · exact .inr ⟨saved, ids, above, below.trans second.rows⟩
    · exact .inr ⟨saved.trans first.saved, first.nextID_le.trans ids,
        first.rows.trans above, below⟩
  wf := second.wf

variable {f : TxnBatcher ε → TxnBatcher ε}

/-- A change of memory that only takes rows and counts them differently. -/
theorem Advances.of_setW {added : List ε} (tx : (f p.w).tx = p.w.tx)
    (batch : (f p.w).batch = p.w.batch ++ added)
    (complete : p.w.batch.take p.w.done <+: (f p.w).batch.take (f p.w).done) (wf : WF (p.setW f)) :
    Advances p (p.setW f) added where
  rest := rfl
  saved := rfl
  taken := by
    have tx' : (p.setW f).w.tx = p.w.tx := tx
    have batch' : (p.setW f).w.batch = p.w.batch ++ added := batch
    have disk : (p.setW f).disk = p.disk := rfl
    simp only [Capture.taken, written, disk, tx', batch', append_assoc]
  grown := by
    refine ⟨[], ?_, by simp⟩
    have tx' : (p.setW f).w.tx = p.w.tx := tx
    have disk : (p.setW f).disk = p.disk := rfl
    simp only [written, disk, tx', append_nil]
  nextID_le := le_rfl
  rows := prefix_rfl
  complete := by
    have disk : (p.setW f).disk = p.disk := rfl
    have w' : (p.setW f).w = f p.w := rfl
    simp only [Capture.complete, disk, w']
    exact (prefix_append_right_inj _).mpr complete
  behind := fun _ member => .inl member
  wf := wf

/-- Once everything taken is complete, writing it keeps it so. -/
theorem Advances.complete_eq_taken (advances : Advances p q []) (all : p.complete = p.taken) :
    q.complete = q.taken := by
  refine (complete_prefix_taken advances.wf).eq_of_length_le ?_
  rw [advances.taken, append_nil, ← all]
  exact advances.complete.length_le

/-! ## Statements -/

theorem map_snd_stamp (id : ℕ) (rows : List ε) : (stamp id rows).map Prod.snd = rows := by
  simp [stamp, map_map, Function.comp_def, zipIdx_map_fst]

variable {rows : List ε}

theorem le_of_mem_stamp {id : ℕ} {x : ℕ × ε} (member : x ∈ stamp id rows) : id ≤ x.1 := by
  unfold stamp at member
  obtain ⟨y, inZip, rfl⟩ := mem_map.mp member
  exact le_snd_of_mem_zipIdx inZip

/-- What a loop of INSERTs inside an index transaction does: the rows `rows` wait
there under the new ids of `new`, and nothing of the index is visible. -/
structure Chunked (p q : Capture ε σ κ) (new : List (ℕ × ε)) (rows : List ε) : Prop where
  events : new.map Prod.snd = rows
  ids : ∀ x ∈ new, p.disk.nextID ≤ x.1
  rest : q.mem.2 = p.mem.2
  w : q.w = { p.w with firstIDOfLastBatch := q.w.firstIDOfLastBatch }
  indexRows : q.disk.rows = p.disk.rows
  saved : q.disk.saved = p.disk.saved
  nextID_le : p.disk.nextID ≤ q.disk.nextID
  firstID_le : p.w.firstIDOfLastBatch ≤ p.disk.nextID →
    q.w.firstIDOfLastBatch ≤ q.disk.nextID
  behind : ∀ d ∈ q.visited, d ∈ p.visited ∨
    d.rows = p.disk.rows ∧ d.saved = p.disk.saved ∧ p.disk.nextID ≤ d.nextID

theorem chunked_txnInsertBatch (p : Capture ε σ κ) (rows : List ε) :
    Chunked p (p.txnInsertBatch rows).2 (p.txnInsertBatch rows).1 rows where
  events := map_snd_stamp _ _
  ids := fun _ member => le_of_mem_stamp member
  rest := rfl
  w := rfl
  indexRows := rfl
  saved := rfl
  nextID_le := Nat.le_add_right _ _
  firstID_le := fun _ => Nat.le_add_right _ _
  behind := by
    intro d member
    rcases Proc.mem_visited_persist.mp member with member | rfl
    · exact .inl member
    · exact .inr ⟨rfl, rfl, Nat.le_add_right _ _⟩

theorem Chunked.refl (p : Capture ε σ κ) : Chunked p p [] [] where
  events := rfl
  ids := by simp
  rest := rfl
  w := rfl
  indexRows := rfl
  saved := rfl
  nextID_le := le_rfl
  firstID_le := id
  behind := fun _ member => .inl member

variable {new : List (ℕ × ε)}

theorem Chunked.trans {r : Capture ε σ κ} {new' : List (ℕ × ε)} {rows' : List ε}
    (first : Chunked p q new rows) (second : Chunked q r new' rows') :
    Chunked p r (new ++ new') (rows ++ rows') where
  events := by rw [map_append, first.events, second.events]
  ids := by
    exact forall_mem_append.mpr
      ⟨first.ids, fun x member => first.nextID_le.trans (second.ids x member)⟩
  rest := second.rest.trans first.rest
  w := by rw [second.w, first.w]
  indexRows := second.indexRows.trans first.indexRows
  saved := second.saved.trans first.saved
  nextID_le := first.nextID_le.trans second.nextID_le
  firstID_le := fun bound => second.firstID_le (first.firstID_le bound)
  behind := by
    intro d member
    rcases second.behind d member with member | ⟨sameRows, saved, ids⟩
    · exact first.behind d member
    · exact .inr ⟨sameRows.trans first.indexRows, saved.trans first.saved,
        first.nextID_le.trans ids⟩

/-- The loop writes all of its rows. -/
theorem writeChunks_chunked {fuel : ℕ} (held : List (ℕ × ε)) (batchSize_pos : 0 < p.w.batchSize)
    (enough : rows.length ≤ fuel) :
    ∃ new, (writeChunks fuel p held rows).1 = held ++ new ∧
      Chunked p (writeChunks fuel p held rows).2 new rows := by
  induction fuel generalizing p held rows with
  | zero =>
    have none : rows = [] := length_eq_zero_iff.mp (Nat.le_zero.mp enough)
    subst none
    exact ⟨[], by simp [writeChunks], Chunked.refl p⟩
  | succ fuel ih =>
    unfold writeChunks
    by_cases empty : rows.isEmpty = true
    · rw [if_pos empty, isEmpty_iff.mp empty]
      exact ⟨[], by simp, Chunked.refl p⟩
    · rw [if_neg empty]
      have nonempty : 0 < rows.length := by
        rw [length_pos_iff]
        exact fun none => empty (isEmpty_iff.mpr none)
      set k := min rows.length p.w.batchSize with hk
      have kPos : 0 < k := lt_min nonempty batchSize_pos
      have head := chunked_txnInsertBatch p (rows.take k)
      have size : 0 < (p.txnInsertBatch (rows.take k)).2.w.batchSize := by
        rw [head.w]
        exact batchSize_pos
      have fewer : (rows.drop k).length ≤ fuel := by
        rw [length_drop]
        omega
      obtain ⟨new, out, tail⟩ := ih (held ++ (p.txnInsertBatch (rows.take k)).1) size fewer
      refine ⟨(p.txnInsertBatch (rows.take k)).1 ++ new, ?_, ?_⟩
      · rw [← append_assoc]
        exact out
      · have both := head.trans tail
        rwa [take_append_drop] at both

/-! ## Operations -/

/-- Rows written in an index transaction and then committed there, with the
memory of the batcher changed to match. -/
theorem Advances.of_commit (wf : WF p) (chunked : Chunked p q new rows) {out : List (ℕ × ε)}
    (held : out = p.w.tx.getD [] ++ new) (tx : (f q.w).tx = none)
    (batch : p.w.batch = rows ++ (f q.w).batch) (done : (f q.w).done = 0)
    (complete : p.w.batch.take p.w.done <+: (p.w.tx.getD []).map Prod.snd ++ rows)
    (size : (f q.w).batchSize = q.w.batchSize)
    (first : (f q.w).firstIDOfLastBatch = q.w.firstIDOfLastBatch) :
    Advances p (setW (q.persist fun db => { db with rows := db.rows ++ out }) f) [] := by
  set r : Capture ε σ κ := setW (q.persist fun db => { db with rows := db.rows ++ out }) f with hr
  have rw' : r.w = f q.w := rfl
  have rdisk : r.disk = { q.disk with rows := q.disk.rows ++ out } := rfl
  have written' : r.written = p.written ++ new := by
    simp only [written, rw', tx, rdisk, Option.getD_none, append_nil, chunked.indexRows, held,
      append_assoc]
  refine
    { rest := chunked.rest
      saved := chunked.saved
      taken := ?_
      grown := ⟨new, written', chunked.ids⟩
      nextID_le := chunked.nextID_le
      rows := ?_
      complete := ?_
      behind := ?_
      wf := ?_ }
  · simp only [Capture.taken, written', rw', batch, map_append, chunked.events,
      append_assoc, append_nil]
  · rw [rdisk, chunked.indexRows]
    exact prefix_append _ _
  · have all :
        r.complete = p.disk.rows.map Prod.snd ++ ((p.w.tx.getD []).map Prod.snd ++ rows) := by
      simp only [Capture.complete, rw', done, rdisk, take_zero, append_nil,
        chunked.indexRows, held, map_append, chunked.events]
    rw [all]
    exact (prefix_append_right_inj _).mpr complete
  · intro d member
    have visited : r.visited = q.visited ++ [r.disk] := rfl
    rw [visited, mem_append, mem_singleton] at member
    rcases member with member | rfl
    · rcases chunked.behind d member with member | ⟨sameRows, saved, ids⟩
      · exact .inl member
      · refine .inr ⟨saved, ids, by rw [sameRows], ?_⟩
        rw [sameRows, rdisk, chunked.indexRows]
        exact prefix_append _ _
    · refine .inr ⟨chunked.saved, chunked.nextID_le, ?_, prefix_rfl⟩
      rw [rdisk, chunked.indexRows]
      exact prefix_append _ _
  · exact
      { batchSize_pos := by
          rw [rw', size, chunked.w]
          exact wf.batchSize_pos
        done_le := by
          rw [rw', done]
          exact Nat.zero_le _
        tx_done := fun _ => by rw [rw', done]
        firstID_le := by
          rw [rw', first]
          exact chunked.firstID_le wf.firstID_le }

theorem commitComplete_advances (wf : WF p) :
    Advances p p.commitComplete [] ∧ p.commitComplete.w.done = 0 := by
  unfold commitComplete
  by_cases empty : (p.w.batch.take p.w.done).isEmpty = true
  · have none : p.w.done = 0 := by
      have length := congrArg length (isEmpty_iff.mp empty)
      rw [length_take, min_eq_left wf.done_le] at length
      exact length
    dsimp only
    rw [if_pos empty]
    exact ⟨Advances.refl wf, none⟩
  · dsimp only
    rw [if_neg empty]
    have noTx : p.w.tx = none := by
      cases tx : p.w.tx with
      | none => rfl
      | some rows =>
        rw [wf.tx_done (by simp [tx])] at empty
        exact absurd rfl empty
    by_cases one : (p.w.batch.take p.w.done).length ≤ p.w.batchSize
    · rw [if_pos one]
      refine ⟨?_, rfl⟩
      -- one statement: the INSERT is its own commit
      set rows := p.w.batch.take p.w.done with hrows
      set q : Capture ε σ κ := (p.insertBatch rows).setW
        fun w => { w with batch := w.batch.drop w.done, done := 0 } with hq
      have qw : q.w = { p.w with
        firstIDOfLastBatch := p.disk.nextID, batch := p.w.batch.drop p.w.done, done := 0 } := rfl
      have qdisk : q.disk = { p.disk with
        rows := p.disk.rows ++ stamp p.disk.nextID rows
        nextID := p.disk.nextID + rows.length } := rfl
      have written' : q.written = p.written ++ stamp p.disk.nextID rows := by
        simp only [written, qw, qdisk, noTx, Option.getD_none, append_nil]
      exact
        { rest := rfl
          saved := rfl
          taken := by
            simp only [Capture.taken, written', qw, map_append, map_snd_stamp,
              append_assoc, append_nil, hrows, take_append_drop]
          grown := ⟨_, written', fun _ member => le_of_mem_stamp member⟩
          nextID_le := Nat.le_add_right _ _
          rows := prefix_append _ _
          complete := by
            simp only [Capture.complete, qw, qdisk, map_append, map_snd_stamp,
              take_zero, append_nil]
            exact prefix_rfl
          behind := by
            intro d member
            have visited : q.visited = p.visited ++ [q.disk] := rfl
            rw [visited, mem_append, mem_singleton] at member
            rcases member with member | rfl
            · exact .inl member
            · exact .inr ⟨rfl, Nat.le_add_right _ _, prefix_append _ _, prefix_rfl⟩
          wf :=
            { batchSize_pos := wf.batchSize_pos
              done_le := Nat.zero_le _
              tx_done := fun _ => rfl
              firstID_le := Nat.le_add_right _ _ } }
    · rw [if_neg one]
      obtain ⟨new, out, chunked⟩ := writeChunks_chunked [] wf.batchSize_pos
        (le_refl (p.w.batch.take p.w.done).length)
      have w' := chunked.w
      refine ⟨Advances.of_commit wf chunked (by rw [out, noTx]; rfl) ?_ ?_ rfl ?_ rfl rfl, rfl⟩
      · rw [w']
        exact noTx
      · rw [w']
        exact (take_append_drop _ _).symm
      · rw [noTx]
        exact prefix_rfl

theorem spill_advances (wf : WF p) (none : p.w.done = 0) :
    Advances p p.spill [] ∧ p.spill.w.done = 0 ∧ p.spill.w.batch = [] := by
  unfold spill
  by_cases empty : p.w.batch.isEmpty = true
  · rw [if_pos empty]
    exact ⟨Advances.refl wf, none, isEmpty_iff.mp empty⟩
  · rw [if_neg empty]
    obtain ⟨new, out, chunked⟩ := writeChunks_chunked (p.w.tx.getD []) wf.batchSize_pos
      (le_refl p.w.batch.length)
    dsimp only
    set out' := writeChunks p.w.batch.length p (p.w.tx.getD []) p.w.batch with hout
    set q : Capture ε σ κ := setW out'.2 fun w => { w with tx := some out'.1, batch := [] } with hq
    have w' := chunked.w
    have qw : q.w = { out'.2.w with tx := some out'.1, batch := [] } := rfl
    have qdone : q.w.done = 0 := by
      rw [qw, w']
      exact none
    have written' : q.written = p.written ++ new := by
      have qdisk : q.disk = out'.2.disk := rfl
      simp only [written, qw, qdisk, chunked.indexRows, Option.getD_some, out, append_assoc]
    have same : q.disk.rows = p.disk.rows := chunked.indexRows
    refine ⟨?_, qdone, rfl⟩
    exact
      { rest := chunked.rest
        saved := chunked.saved
        taken := by
          simp only [Capture.taken, written', qw, map_append, chunked.events, append_nil]
        grown := ⟨new, written', chunked.ids⟩
        nextID_le := chunked.nextID_le
        rows := by rw [same]
        complete := by
          simp only [Capture.complete, same, qdone, none, take_zero, prefix_rfl]
        behind := by
          intro d member
          rcases chunked.behind d member with member | ⟨sameRows, saved, ids⟩
          · exact .inl member
          · exact .inr ⟨saved, ids, by rw [sameRows], by rw [sameRows, same]⟩
        wf :=
          { batchSize_pos := by
              rw [qw, w']
              exact wf.batchSize_pos
            done_le := by
              rw [qdone]
              exact Nat.zero_le _
            tx_done := fun _ => qdone
            firstID_le := chunked.firstID_le wf.firstID_le } }

theorem commitTx_advances (wf : WF p) (none : p.w.done = 0) :
    Advances p p.commitTx [] ∧ p.commitTx.w.tx = Option.none ∧ p.commitTx.w.batch = [] := by
  obtain ⟨spilled, spillDone, spillBatch⟩ := spill_advances wf none
  unfold commitTx
  dsimp only
  split
  · rename_i noTx
    exact ⟨spilled, noTx, spillBatch⟩
  · rename_i rows isTx
    refine ⟨?_, rfl, spillBatch⟩
    have commit : Advances p.spill
        (setW (p.spill.persist fun db => { db with rows := db.rows ++ rows })
          fun w => { w with tx := Option.none }) [] := by
      refine Advances.of_commit spilled.wf (Chunked.refl p.spill) ?_ rfl rfl spillDone ?_ rfl rfl
      · rw [isTx]
        simp
      · rw [spillBatch]
        simp
    exact spilled.trans commit

theorem onCap_advances (wf : WF p) (timeUp : Bool) :
    Advances p (p.onCap timeUp) [] := by
  unfold onCap
  split
  · exact Advances.refl wf
  · rename_i rows isTx
    split
    · obtain ⟨commit, -⟩ := commitTx_advances wf (wf.tx_done (by simp [isTx]))
      have counted : Advances p.commitTx
          (p.commitTx.setW fun w => { w with splits := w.splits + 1 }) [] :=
        Advances.of_setW rfl (by simp) prefix_rfl
          ⟨commit.wf.batchSize_pos, commit.wf.done_le, commit.wf.tx_done, commit.wf.firstID_le⟩
      exact commit.trans counted
    · exact Advances.refl wf

/-- Taking a row. -/
theorem add_advances (wf : WF p) (ev : ε) (timeUp : Bool) : Advances p (p.add ev timeUp) [ev] := by
  have taken : Advances p (p.setW fun w => { w with inTxn := true, batch := w.batch ++ [ev] })
      [ev] := by
    refine Advances.of_setW rfl rfl ?_ ⟨wf.batchSize_pos, ?_, wf.tx_done, wf.firstID_le⟩
    · rw [take_append_of_le_length wf.done_le]
    · exact wf.done_le.trans (by simp [setW, w])
  unfold add
  dsimp only
  split
  · obtain ⟨commit, done⟩ := commitComplete_advances taken.wf
    obtain ⟨spilled, -⟩ := spill_advances commit.wf done
    exact ((taken.trans commit).trans spilled).trans (onCap_advances spilled.wf timeUp)
  · exact taken.trans (onCap_advances taken.wf timeUp)

/-- Ending a transaction: afterwards every row taken belongs to an ended one. -/
theorem endTxn_advances (wf : WF p) :
    Advances p p.endTxn [] ∧ p.endTxn.complete = p.endTxn.taken := by
  have closed : Advances p (p.setW fun w => { w with inTxn := false, splits := 0 }) [] :=
    Advances.of_setW rfl (by simp) prefix_rfl
      ⟨wf.batchSize_pos, wf.done_le, wf.tx_done, wf.firstID_le⟩
  unfold endTxn
  dsimp only
  split
  · rename_i rows isTx
    have isTx' : p.w.tx.isSome := by
      have same : (p.setW fun w => { w with inTxn := false, splits := 0 }).w.tx = p.w.tx := rfl
      rw [← same, isTx]
      rfl
    obtain ⟨commit, noTx, batch⟩ := commitTx_advances closed.wf (wf.tx_done isTx')
    refine ⟨closed.trans commit, ?_⟩
    simp only [Capture.complete, Capture.taken, written, noTx, batch, take_nil,
      Option.getD_none, append_nil]
  · rename_i noTx
    set q : Capture ε σ κ := p.setW fun w => { w with inTxn := false, splits := 0 } with hq
    have counted : Advances q (q.setW fun w => { w with done := w.batch.length }) [] := by
      refine Advances.of_setW rfl (by simp) ?_ ⟨wf.batchSize_pos, le_rfl, ?_, wf.firstID_le⟩
      · rw [take_length]
        exact take_prefix _ _
      · intro isTx
        have same : (q.setW fun w => { w with done := w.batch.length }).w.tx = q.w.tx := rfl
        rw [same, noTx] at isTx
        cases isTx
    have all := closed.trans counted
    have ended : (q.setW fun w => { w with done := w.batch.length }).complete =
        (q.setW fun w => { w with done := w.batch.length }).taken := by
      have w' : (q.setW fun w => { w with done := w.batch.length }).w =
        { q.w with done := q.w.batch.length } := rfl
      simp only [Capture.complete, Capture.taken, written, w', noTx, take_length,
        Option.getD_none, append_nil]
    split
    · obtain ⟨commit, -⟩ := commitComplete_advances counted.wf
      exact ⟨all.trans commit, commit.complete_eq_taken ended⟩
    · exact ⟨all, ended⟩

/-- Dropping the open transaction leaves what was complete. -/
theorem discard_taken (wf : WF p) :
    WF p.discard ∧ p.discard.complete = p.complete ∧ p.discard.taken = p.complete := by
  have w' : p.discard.w = { p.w with
    batch := p.w.batch.take p.w.done, inTxn := false, splits := 0, tx := none } := rfl
  have disk : p.discard.disk = p.disk := rfl
  refine ⟨⟨wf.batchSize_pos, ?_, ?_, wf.firstID_le⟩, ?_, ?_⟩
  · rw [w', length_take, min_eq_left wf.done_le]
  · intro isTx
    rw [w'] at isTx
    cases isTx
  · simp only [complete, w', disk, take_take, min_self]
  · simp only [taken, written, complete, w', disk, Option.getD_none, append_nil]

/-! ## Row ids -/

/-- The rows written after the first `n` carry ids from `floor` up, and so will
every later one. -/
def Above (p : Capture ε σ κ) (floor n : ℕ) : Prop :=
  floor ≤ p.disk.nextID ∧ ∀ x ∈ p.written.drop n, floor ≤ x.1

theorem Advances.above {added : List ε} (advances : Advances p q added) {floor n : ℕ}
    (above : Above p floor n) : Above q floor n := by
  refine ⟨above.1.trans advances.nextID_le, ?_⟩
  obtain ⟨new, grown, ids⟩ := advances.grown
  intro x member
  rw [grown, drop_append] at member
  rcases mem_append.mp member with member | member
  · exact above.2 x member
  · exact above.1.trans (ids x (mem_of_mem_drop member))

/-- Nothing is written past the `n`-th row yet. -/
theorem above_of_written_le {floor n : ℕ} (bound : floor ≤ p.disk.nextID)
    (all : p.written.length ≤ n) : Above p floor n := by
  refine ⟨bound, fun x member => ?_⟩
  rw [drop_eq_nil_of_le all] at member
  cases member

end Capture

end Dbtrail
