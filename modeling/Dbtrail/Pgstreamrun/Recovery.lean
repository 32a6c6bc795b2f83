import Dbtrail.Pgstreamrun.Loop

/-!
# What a PostgreSQL run leaves, and what the next one makes of it

A run appends the rows of the transactions after the saved LSN, in commit order, to
whatever it found in the index. At every moment the rows of the transactions up to
the saved LSN are there (`PGLeft`), so an acknowledged transaction is never missing.
But rows of later transactions can be there too: a full batch is committed without a
checkpoint. The next run reads those transactions again and nothing takes their rows
out, so recovery is exactly-once if and only if the stop left none (`Covered`).
-/

namespace Dbtrail

open List Capture PGEvent

variable {Row : Type}

/-- The rows of a run of transactions. -/
def pgRowsOf (txns : List (PGTxn Row)) : List (PGEvent Row) := txns.flatMap PGTxn.rows

/-- The LSN a part of the log ends at, read from `start` on. -/
def endLSN (start : ℕ) (txns : List (PGTxn Row)) : ℕ := (txns.getLast?.map PGTxn.lsn).getD start

theorem pgRowsOf_append (a b : List (PGTxn Row)) : pgRowsOf (a ++ b) = pgRowsOf a ++ pgRowsOf b :=
  flatMap_append

theorem endLSN_concat (start : ℕ) (txns : List (PGTxn Row)) (t : PGTxn Row) :
    endLSN start (txns ++ [t]) = t.lsn := by
  simp [endLSN]

namespace PGTxn

variable (t : PGTxn Row)

theorem unstamped_of_mem {ev : PGEvent Row} (member : ev ∈ t.events) : ev.unstamped = ev := by
  have version := t.unversioned ev member
  cases ev
  cases version
  rfl

theorem filter_isRow_sent : t.sent.filter PGEvent.isRow = t.rows := by
  simp [sent, rows, commitEvent, PGEvent.isRow]

end PGTxn

/-! ## Commit order -/

namespace PGLog

variable (src : PGLog Row) {start : ℕ} {saved rest : List (PGTxn Row)} {t : PGTxn Row}

theorem ordered_after (start : ℕ) : (src.after start).Pairwise fun t u => t.lsn < u.lsn :=
  src.ordered.filter _

theorem start_lt_of_mem_after (member : t ∈ src.after start) : start < t.lsn := by
  simpa using (mem_filter.mp member).2

section

variable (split : src.after start = saved ++ rest)

include split

/-- The transactions of a part end at or before its last one. -/
theorem le_endLSN (member : t ∈ saved) : t.lsn ≤ endLSN start saved := by
  rcases saved.eq_nil_or_concat' with rfl | ⟨init, last, rfl⟩
  · cases member
  · rw [endLSN_concat]
    have ordered := src.ordered_after start
    rw [split, append_assoc, pairwise_append] at ordered
    rcases mem_append.mp member with member | member
    · exact (ordered.2.2 t member last (by simp)).le
    · rw [mem_singleton.mp member]

theorem endLSN_lt (member : t ∈ rest) : endLSN start saved < t.lsn := by
  rcases saved.eq_nil_or_concat' with rfl | ⟨init, last, rfl⟩
  · have inAfter : t ∈ src.after start := by
      rw [split]
      exact member
    exact src.start_lt_of_mem_after inAfter
  · rw [endLSN_concat]
    have ordered := src.ordered_after start
    rw [split, pairwise_append] at ordered
    exact ordered.2.2 last (by simp) t member

theorem start_le_endLSN : start ≤ endLSN start saved := by
  rcases saved.eq_nil_or_concat' with rfl | ⟨init, last, rfl⟩
  · exact le_rfl
  · rw [endLSN_concat]
    exact (src.start_lt_of_mem_after (by rw [split]; simp)).le

/-- What is left to deliver after a part of it is saved. -/
theorem after_endLSN : src.after (endLSN start saved) = rest := by
  have twice : src.after (endLSN start saved) =
      (src.after start).filter fun t => decide (endLSN start saved < t.lsn) := by
    unfold after
    rw [filter_filter]
    refine filter_congr fun t _ => ?_
    have le := src.start_le_endLSN split
    by_cases beyond : endLSN start saved < t.lsn
    · simp [beyond, le.trans_lt beyond]
    · simp [beyond]
  have none : saved.filter (fun t => decide (endLSN start saved < t.lsn)) = [] :=
    filter_eq_nil_iff.mpr fun t member => by simpa using src.le_endLSN split member
  have all : rest.filter (fun t => decide (endLSN start saved < t.lsn)) = rest :=
    filter_eq_self.mpr fun t member => by simpa using src.endLSN_lt split member
  rw [twice, split, filter_append, none, all, nil_append]

end

end PGLog

/-! ## A run -/

/-- What a run that started at `start` over the rows `base` can leave. -/
def PGLeft (src : PGLog Row) (start : ℕ) (base : List (PGEvent Row)) (db : PGDB Row) : Prop :=
  ∃ saved rest, src.after start = saved ++ rest ∧ db.saved.lsn = endLSN start saved ∧
    base ++ pgRowsOf saved <+: PGDB.indexed db ∧
    PGDB.indexed db <+: base ++ pgRowsOf (src.after start)

open PGProc in
/-- `done` transactions were read to their end, and the saved LSN is that of `saved`. -/
structure PGHolding (src : PGLog Row) (start : ℕ) (base : List (PGEvent Row))
    (done rest saved : List (PGTxn Row)) (p : PGProc Row) : Prop where
  wf : Capture.WF p
  split : src.after start = done ++ rest
  upper : (Capture.taken p).map unstamped <+: base ++ pgRowsOf (src.after start)
  ended : base ++ pgRowsOf done <+: (Capture.complete p).map unstamped
  cursor : (mem p).lastCommitLSN = 0 ∧ done = [] ∨
    0 < (mem p).lastCommitLSN ∧ (mem p).lastCommitLSN = endLSN start done
  savedPrefix : saved <+: done
  savedLSN : p.disk.saved.lsn = endLSN start saved
  savedRows : base ++ pgRowsOf saved <+: PGDB.indexed p.disk
  acked : (mem p).lastAcked ≤ p.disk.saved.lsn
  behind : ∀ d ∈ p.visited, PGLeft src start base d

open PGProc in
/-- What a run that ended leaves. -/
def PGStopped (src : PGLog Row) (start : ℕ) (base : List (PGEvent Row)) (p : PGProc Row) : Prop :=
  (mem p).returned = true ∧ (mem p).lastAcked ≤ p.disk.saved.lsn ∧
    PGLeft src start base p.disk ∧ ∀ d ∈ p.visited, PGLeft src start base d

section Holding

variable {src : PGLog Row} {start : ℕ} {base : List (PGEvent Row)}
  {done rest saved done' rest' : List (PGTxn Row)} {p q : PGProc Row}

open PGProc

theorem wf_setMem (wf : Capture.WF p) (f : PGMem Row → PGMem Row) : Capture.WF (setMem p f) :=
  ⟨wf.batchSize_pos, wf.done_le, wf.tx_done, wf.firstID_le⟩

theorem indexed_eq_map (db : PGDB Row) :
    PGDB.indexed db = (db.rows.map Prod.snd).map unstamped := by
  rw [PGDB.indexed, map_map]
  rfl

theorem indexed_prefix_taken (p : PGProc Row) :
    PGDB.indexed p.disk <+: (Capture.taken p).map unstamped := by
  rw [indexed_eq_map]
  exact (((prefix_append _ _).map Prod.snd).trans (prefix_append _ _)).map _

variable (holding : PGHolding src start base done rest saved p)

include holding

/-- A disk that holds what the run found and saved, and at most what it may take. -/
theorem PGHolding.left {d : PGDB Row}
    (lsn : d.saved.lsn = p.disk.saved.lsn) (above : p.disk.rows <+: d.rows)
    (below : PGDB.indexed d <+: base ++ pgRowsOf (src.after start)) :
    PGLeft src start base d := by
  obtain ⟨more, split⟩ := holding.savedPrefix
  refine ⟨saved, more ++ rest, ?_, lsn.trans holding.savedLSN, ?_, below⟩
  · rw [holding.split, ← split, append_assoc]
  · exact holding.savedRows.trans (above.map _)

theorem PGHolding.left_disk : PGLeft src start base p.disk :=
  holding.left rfl prefix_rfl ((indexed_prefix_taken p).trans holding.upper)

/-- A batcher operation, after a change of the loop's memory that may move the cursor. -/
theorem PGHolding.advances {f : PGMem Row → PGMem Row} {added : List (PGEvent Row)}
    (advances : Capture.Advances (setMem p f) q added) (split : src.after start = done' ++ rest')
    (upper : (Capture.taken q).map unstamped <+: base ++ pgRowsOf (src.after start))
    (ended : base ++ pgRowsOf done' <+: (Capture.complete q).map unstamped)
    (cursor : (f (mem p)).lastCommitLSN = 0 ∧ done' = [] ∨
      0 < (f (mem p)).lastCommitLSN ∧ (f (mem p)).lastCommitLSN = endLSN start done')
    (savedPrefix : saved <+: done') (acked : (f (mem p)).lastAcked = (mem p).lastAcked) :
    PGHolding src start base done' rest' saved q := by
  have mem' : mem q = f (mem p) := advances.rest
  have saved' : q.disk.saved = p.disk.saved := advances.saved
  refine
    { wf := advances.wf
      split := split
      upper := upper
      ended := ended
      cursor := by rwa [mem']
      savedPrefix := savedPrefix
      savedLSN := by rw [saved']; exact holding.savedLSN
      savedRows := holding.savedRows.trans (advances.rows.map _)
      acked := by rw [mem', acked, saved']; exact holding.acked
      behind := ?_ }
  intro d member
  rcases advances.behind d member with member | ⟨same, -, above, below⟩
  · exact holding.behind d member
  · refine holding.left (congrArg PGSaved.lsn same) above ?_
    have indexed : PGDB.indexed d <+: PGDB.indexed q.disk := below.map _
    exact (indexed.trans (indexed_prefix_taken q)).trans upper

theorem PGHolding.discard : PGHolding src start base done rest saved (Capture.discard p) := by
  obtain ⟨wf, complete, taken⟩ := discard_taken holding.wf
  exact
    { holding with
      wf := wf
      upper := by
        rw [taken]
        exact ((complete_prefix_taken holding.wf).map _).trans holding.upper
      ended := by
        rw [complete]
        exact holding.ended }

/-- The cursor never falls behind the checkpoint. -/
theorem PGHolding.savedLSN_le : p.disk.saved.lsn ≤ endLSN start done := by
  rw [holding.savedLSN]
  obtain ⟨more, split⟩ := holding.savedPrefix
  rcases saved.eq_nil_or_concat' with rfl | ⟨init, last, rfl⟩
  · exact src.start_le_endLSN holding.split
  · rw [endLSN_concat]
    exact src.le_endLSN holding.split (by rw [← split]; simp)

/-- The rows first, then the LSN, then the acknowledgement. -/
theorem PGHolding.saveAndAck
    (committed : (Capture.w p).done = 0) (some : (mem p).lastCommitLSN ≠ 0) :
    PGHolding src start base done rest done (ackCommitted (saveCheckpointPG p)) := by
  have cursor : (mem p).lastCommitLSN = endLSN start done := by
    rcases holding.cursor with ⟨none, -⟩ | ⟨-, cursor⟩
    · exact absurd none some
    · exact cursor
  have rows : base ++ pgRowsOf done <+: PGDB.indexed p.disk := by
    have complete : (complete p).map unstamped = PGDB.indexed p.disk := by
      rw [complete, committed, take_zero, append_nil, indexed_eq_map]
    rw [← complete]
    exact holding.ended
  have left : PGLeft src start base (saveCheckpointPG p).disk := by
    obtain ⟨-, -, -, -, -, upper⟩ := holding.left_disk
    exact ⟨done, rest, holding.split, cursor, rows, upper⟩
  exact
    { holding with
      wf := ⟨holding.wf.batchSize_pos, holding.wf.done_le, holding.wf.tx_done,
        holding.wf.firstID_le⟩
      savedPrefix := prefix_rfl
      savedLSN := cursor
      savedRows := rows
      acked := max_le ((holding.acked.trans holding.savedLSN_le).trans cursor.ge) le_rfl
      behind := by
        intro d member
        have visited : (ackCommitted (saveCheckpointPG p)).visited =
          p.visited ++ [(saveCheckpointPG p).disk] := rfl
        rw [visited, mem_append, mem_singleton] at member
        rcases member with member | rfl
        · exact holding.behind d member
        · exact left }

/-- A checkpoint saves every transaction read to its end, or ends the loop. -/
theorem PGHolding.checkpoint (saves : Bool) :
    (PGHolding src start base done rest done (checkpoint p saves) ∧
        Capture.taken (checkpoint p saves) = Capture.taken p ∧
        (mem (checkpoint p saves)).incoming = (mem p).incoming ∧
        (mem (checkpoint p saves)).returned = (mem p).returned) ∨
      saves = false ∧ PGStopped src start base (checkpoint p saves) := by
  obtain ⟨advances, committed⟩ := commitComplete_advances holding.wf
  have same : mem (commitComplete p) = mem p := advances.rest
  have taken : taken (commitComplete p) = taken p := by
    rw [advances.taken, append_nil]
  have incoming := congrArg PGMem.incoming same
  have returned := congrArg PGMem.returned same
  have advances' : Capture.Advances (setMem p id) (commitComplete p) [] := advances
  have kept : PGHolding src start base done rest saved (commitComplete p) :=
    holding.advances advances' holding.split (by rw [taken]; exact holding.upper)
      (holding.ended.trans (advances.complete.map _)) holding.cursor holding.savedPrefix rfl
  unfold PGProc.checkpoint
  dsimp only
  split
  · rename_i none
    -- nothing was read to its end, and the saved LSN is already that of nothing
    have same : saved = done := by
      rcases kept.cursor with ⟨-, rfl⟩ | ⟨some, -⟩
      · exact prefix_nil.mp kept.savedPrefix
      · exact absurd none some.ne'
    rw [← same] at kept ⊢
    exact .inl ⟨kept, taken, incoming, returned⟩
  · rename_i moved
    cases saves with
    | true => exact .inl ⟨kept.saveAndAck committed moved, taken, incoming, returned⟩
    | false => exact .inr ⟨rfl, rfl, kept.acked, kept.left_disk, kept.behind⟩

theorem PGHolding.stop (saves : Bool) : PGStopped src start base (stop p saves) := by
  obtain ⟨q, hq, kept⟩ : ∃ q, q = (if (Capture.w p).inTxn then Capture.discard p else p) ∧
      PGHolding src start base done rest saved q := by
    refine ⟨_, rfl, ?_⟩
    split
    · exact holding.discard
    · exact holding
  unfold PGProc.stop
  rw [← hq]
  rcases kept.checkpoint saves with ⟨kept', -⟩ | ⟨-, -, acked, left, behind⟩
  · exact ⟨rfl, kept'.acked, kept'.left_disk, kept'.behind⟩
  · exact ⟨rfl, acked, left, behind⟩

end Holding

/-! ## Reading the log -/

open PGProc in
/-- `mid` is what was read of the transaction after `done`. -/
structure PGRunning (src : PGLog Row) (start : ℕ) (base : List (PGEvent Row))
    (done rest : List (PGTxn Row)) (mid : List (PGEvent Row)) (saved : List (PGTxn Row))
    (p : PGProc Row) : Prop extends PGHolding src start base done rest saved p where
  read : rest.flatMap PGTxn.sent = mid ++ (mem p).incoming
  inside : ∀ ev ∈ mid, ev.eventType ≠ .commit
  taken : (Capture.taken p).map unstamped =
    base ++ pgRowsOf done ++ mid.filter PGEvent.isRow
  alive : (mem p).returned = false

section Run

variable {src : PGLog Row} {start : ℕ} {base : List (PGEvent Row)}
  {done rest saved : List (PGTxn Row)} {mid : List (PGEvent Row)} {p q : PGProc Row}
  {f : PGMem Row → PGMem Row}

open PGProc

theorem filter_isRow_flatMap_sent (txns : List (PGTxn Row)) :
    (txns.flatMap PGTxn.sent).filter PGEvent.isRow = pgRowsOf txns := by
  induction txns with
  | nil => rfl
  | cons t txns ih =>
    rw [flatMap_cons, filter_append, t.filter_isRow_sent, ih]
    rfl

/-- The rows of what was read are among those to come. -/
theorem prefix_of_read (base : List (PGEvent Row)) {incoming : List (PGEvent Row)}
    (split : src.after start = done ++ rest)
    (read : rest.flatMap PGTxn.sent = mid ++ incoming) :
    base ++ pgRowsOf done ++ mid.filter PGEvent.isRow <+: base ++ pgRowsOf (src.after start) := by
  have rows := filter_isRow_flatMap_sent rest
  rw [read, filter_append] at rows
  rw [split, pgRowsOf_append, ← rows, append_assoc]
  refine (prefix_append_right_inj _).mpr ((prefix_append_right_inj _).mpr ?_)
  exact prefix_append _ _

/-- Events read, none of them a commit, while the batcher takes their rows. -/
theorem PGRunning.reads (running : PGRunning src start base done rest mid saved p)
    {added evs : List (PGEvent Row)} (advances : Capture.Advances (setMem p f) q added)
    (cursor : (f (mem p)).lastCommitLSN = (mem p).lastCommitLSN)
    (acked : (f (mem p)).lastAcked = (mem p).lastAcked) (alive : (f (mem p)).returned = false)
    (incoming : (mem p).incoming = evs ++ (f (mem p)).incoming)
    (inside : ∀ ev ∈ evs, ev.eventType ≠ .commit)
    (rows : added.map unstamped = evs.filter PGEvent.isRow) :
    PGRunning src start base done rest (mid ++ evs) saved q := by
  have mem' : mem q = f (mem p) := advances.rest
  have read : rest.flatMap PGTxn.sent = (mid ++ evs) ++ (mem q).incoming := by
    rw [mem', running.read, incoming, append_assoc]
  have taken : (Capture.taken q).map unstamped =
      base ++ pgRowsOf done ++ (mid ++ evs).filter PGEvent.isRow := by
    have before : Capture.taken (setMem p f) = Capture.taken p := rfl
    rw [advances.taken, map_append, before, running.taken, rows, filter_append]
    simp only [append_assoc]
  refine
    { toPGHolding := running.toPGHolding.advances advances running.split ?_
        (running.ended.trans (advances.complete.map _)) ?_ running.savedPrefix acked
      read := read
      inside := ?_
      taken := taken
      alive := by rw [mem', alive] }
  · rw [taken]
    exact prefix_of_read base running.split read
  · rw [cursor]
    exact running.cursor
  · exact forall_mem_append.mpr ⟨running.inside, inside⟩

theorem PGRunning.keep (running : PGRunning src start base done rest mid saved p)
    (advances : Capture.Advances p q []) : PGRunning src start base done rest mid saved q := by
  have same : Capture.Advances (setMem p id) q [] := advances
  have kept : PGRunning src start base done rest (mid ++ []) saved q :=
    running.reads same rfl rfl running.alive rfl (by simp) rfl
  rwa [append_nil] at kept

variable {ev : PGEvent Row} {after : List (PGEvent Row)}

section

variable (running : PGRunning src start base done rest mid saved p)

include running

/-- An event that leaves the batcher alone. -/
theorem PGRunning.skip (incoming : (mem p).incoming = ev :: after) (noRow : ev.isRow = false)
    (noCommit : ev.eventType ≠ .commit) :
    PGRunning src start base done rest (mid ++ [ev]) saved (readNext p after) := by
  refine running.reads (f := fun m => { m with incoming := after })
    (Capture.Advances.refl (wf_setMem running.wf _)) rfl rfl running.alive incoming ?_ ?_
  · intro other member
    rwa [mem_singleton.mp member]
  · rw [filter_cons_of_neg (by simp [noRow]), filter_nil]
    rfl

/-- A relation message: a snapshot is written, and no row. -/
theorem PGRunning.relation
    (ev : PGEvent Row) : PGRunning src start base done rest mid saved (noteRelation p ev) :=
  { running with
    wf := ⟨running.wf.batchSize_pos, running.wf.done_le, running.wf.tx_done, running.wf.firstID_le⟩
    behind := by
      intro d member
      have visited : (noteRelation p ev).visited = p.visited ++ [(noteRelation p ev).disk] := rfl
      rw [visited, mem_append, mem_singleton] at member
      rcases member with member | rfl
      · exact running.behind d member
      · exact running.left_disk }

/-- The next commit is that of the transaction being read. -/
theorem PGRunning.next_commit
    (incoming : (mem p).incoming = ev :: after) (kind : ev.eventType = .commit) :
    ∃ t rest', rest = t :: rest' ∧ mid = t.events ∧ ev = t.commitEvent ∧
      after = rest'.flatMap PGTxn.sent := by
  have read := running.read
  rw [incoming] at read
  cases rest with
  | nil => simp at read
  | cons t rest' =>
    rw [flatMap_cons, PGTxn.sent, append_assoc, singleton_append] at read
    -- both sides up to their first commit
    have upTo := congrArg (takeWhile fun ev : PGEvent Row => ev.eventType != .commit) read
    have left : ∀ a ∈ t.events, (a.eventType != .commit) = true := fun a member => by
      simpa using t.noCommit a member
    have right : ∀ a ∈ mid, (a.eventType != .commit) = true := fun a member => by
      simpa using running.inside a member
    have isCommit : t.commitEvent.eventType = .commit := rfl
    rw [takeWhile_append_of_pos left, takeWhile_append_of_pos right,
      takeWhile_cons_of_neg (by simp [isCommit]), takeWhile_cons_of_neg (by simp [kind]),
      append_nil, append_nil] at upTo
    rw [upTo] at read
    have tail := append_cancel_left read
    rw [cons.injEq] at tail
    exact ⟨t, rest', rfl, upTo.symm, tail.1.symm, tail.2.symm⟩

end

/-- A commit ends the transaction and moves the cursor to it. -/
theorem PGRunning.commit {t : PGTxn Row}
    (running : PGRunning src start base done (t :: rest) t.events saved p)
    (advances : Capture.Advances (setMem p f) q [])
    (complete : Capture.complete q = Capture.taken q) (cursor : (f (mem p)).lastCommitLSN = t.lsn)
    (acked : (f (mem p)).lastAcked = (mem p).lastAcked) (alive : (f (mem p)).returned = false)
    (incoming : (f (mem p)).incoming = rest.flatMap PGTxn.sent) :
    PGRunning src start base (done ++ [t]) rest [] saved q := by
  have mem' : mem q = f (mem p) := advances.rest
  have split : src.after start = (done ++ [t]) ++ rest := by
    rw [running.split, append_assoc, singleton_append]
  have read : rest.flatMap PGTxn.sent = [] ++ (mem q).incoming := by
    rw [mem', incoming, nil_append]
  have taken : (Capture.taken q).map unstamped =
      base ++ pgRowsOf (done ++ [t]) ++ ([] : List (PGEvent Row)).filter PGEvent.isRow := by
    have before : Capture.taken (setMem p f) = Capture.taken p := rfl
    have one : pgRowsOf [t] = t.events.filter PGEvent.isRow := by
      simp [pgRowsOf, PGTxn.rows]
    rw [advances.taken, append_nil, before, running.taken, pgRowsOf_append, one,
      filter_nil, append_nil, append_assoc]
  refine
    { toPGHolding := running.toPGHolding.advances advances split ?_ ?_ ?_
        (running.savedPrefix.trans (prefix_append _ _)) acked
      read := read
      inside := by simp
      taken := taken
      alive := by rw [mem', alive] }
  · rw [taken]
    exact prefix_of_read base split read
  · rw [complete, taken, filter_nil, append_nil]
  · rw [endLSN_concat, cursor]
    exact .inr ⟨t.lsn_pos, rfl⟩

/-- Events arrive without a snapshot. -/
theorem unstamped_of_sent {txns : List (PGTxn Row)} (member : ev ∈ txns.flatMap PGTxn.sent) :
    ev.unstamped = ev := by
  obtain ⟨t, -, sent⟩ := mem_flatMap.mp member
  rcases mem_append.mp sent with inEvents | isCommit
  · exact t.unstamped_of_mem inEvents
  · rw [mem_singleton.mp isCommit]
    rfl

/-- A row, stamped with its table's snapshot. -/
theorem PGRunning.row (running : PGRunning src start base done rest mid saved p)
    (incoming : (mem p).incoming = ev :: after) (isRow : ev.isRow = true) (timeUp : Bool) :
    PGRunning src start base done rest (mid ++ [ev]) saved
        (Capture.add (readNext p after) (stampSnapshot (readNext p after) ev) timeUp) ∧
      (mem (Capture.add (readNext p after) (stampSnapshot (readNext p after) ev) timeUp)).incoming =
        after := by
  have added := add_advances (wf_setMem running.wf fun m => { m with incoming := after })
    (stampSnapshot (readNext p after) ev) timeUp
  have inLog : ev ∈ rest.flatMap PGTxn.sent := by
    rw [running.read, incoming]
    simp
  have source : (stampSnapshot (readNext p after) ev).unstamped = ev := unstamped_of_sent inLog
  refine ⟨?_, congrArg PGMem.incoming added.rest⟩
  refine running.reads (f := fun m => { m with incoming := after }) added rfl rfl running.alive
    incoming ?_ ?_
  · intro other member kind
    rw [mem_singleton.mp member] at kind
    simp [PGEvent.isRow, kind] at isRow
  · rw [map_singleton, source, filter_cons_of_pos isRow, filter_nil]

/-- The next event of the log. -/
theorem PGRunning.receive (running : PGRunning src start base done rest mid saved p)
    (incoming : (mem p).incoming = ev :: after) (timeUp : Bool) :
    (∃ done' rest' mid', PGRunning src start base done' rest' mid' saved
        (receive (readNext p after) ev timeUp)) ∧
      (mem (receive (readNext p after) ev timeUp)).incoming = after := by
  by_cases row : ev.isRow = true
  · rw [receive_row row]
    obtain ⟨running', read⟩ := running.row incoming row timeUp
    exact ⟨⟨_, _, _, running'⟩, read⟩
  have skipped : ev.eventType ≠ .commit →
      PGRunning src start base done rest (mid ++ [ev]) saved (readNext p after) :=
    running.skip incoming (by simpa using row)
  unfold PGProc.receive
  cases kind : ev.eventType with
  | commit =>
    obtain ⟨t, rest', rfl, rfl, rfl, rfl⟩ := running.next_commit incoming kind
    obtain ⟨advances, complete⟩ := endTxn_advances
      (wf_setMem running.wf fun m => { m with
        incoming := rest'.flatMap PGTxn.sent
        lastCommitLSN := t.commitEvent.lsn })
    exact ⟨⟨_, _, _, running.commit advances complete rfl rfl running.alive rfl⟩,
      congrArg PGMem.incoming advances.rest⟩
  | ddl | gtid => exact ⟨⟨_, _, _, skipped (by simp [kind])⟩, rfl⟩
  | relation => exact ⟨⟨_, _, _, (skipped (by simp [kind])).relation ev⟩, rfl⟩
  | insert | update | delete | snapshot | caughtUp => simp [PGEvent.isRow, kind] at row

/-- A turn that ends the loop, by a request or by a failed save. -/
def LoopAct.mayEnd : LoopAct → Bool
  | .tick saves => !saves
  | .stop _ => true
  | _ => false

/-- A run that reads, or one that ended. -/
def PGInv (src : PGLog Row) (start : ℕ) (base : List (PGEvent Row)) (p : PGProc Row) : Prop :=
  (∃ done rest mid saved, PGRunning src start base done rest mid saved p) ∨
    PGStopped src start base p

/-- One turn of the loop. -/
theorem PGRunning.turn (running : PGRunning src start base done rest mid saved p) (act : LoopAct) :
    ((∃ done' rest' mid' saved',
        PGRunning src start base done' rest' mid' saved' (streamLoopPG p act)) ∧
      (mem (streamLoopPG p act)).incoming =
        (mem p).incoming.drop (if act.isNext then 1 else 0)) ∨
      act.mayEnd = true ∧ PGStopped src start base (streamLoopPG p act) := by
  unfold streamLoopPG
  rw [if_neg (by rw [running.alive]; exact Bool.false_ne_true)]
  cases act with
  | tick saves =>
    rcases running.toPGHolding.checkpoint saves with
      ⟨kept, taken, incoming, returned⟩ | ⟨fails, stopped⟩
    · refine .inl ⟨⟨done, rest, mid, done, ?_⟩, incoming⟩
      exact
        { toPGHolding := kept
          read := by rw [incoming, running.read]
          inside := running.inside
          taken := by rw [taken, running.taken]
          alive := by rw [returned, running.alive] }
    · exact .inr ⟨by simp [LoopAct.mayEnd, fails], stopped⟩
  | cap timeUp =>
    have advances := onCap_advances running.wf timeUp
    exact .inl ⟨⟨done, rest, mid, saved, running.keep advances⟩,
      congrArg PGMem.incoming advances.rest⟩
  | next timeUp =>
    refine .inl ?_
    dsimp only
    split
    · rename_i none
      refine ⟨⟨done, rest, mid, saved, running⟩, ?_⟩
      rw [none, drop_nil]
    · rename_i ev after incoming
      obtain ⟨⟨done', rest', mid', running'⟩, read⟩ := running.receive incoming timeUp
      refine ⟨⟨done', rest', mid', saved, running'⟩, ?_⟩
      rw [read, incoming]
      rfl
  | stop saves => exact .inr ⟨rfl, running.toPGHolding.stop saves⟩

theorem PGInv.streamLoopPG (inv : PGInv src start base p) (act : LoopAct) :
    PGInv src start base (streamLoopPG p act) := by
  rcases inv with ⟨done, rest, mid, saved, running⟩ | ⟨returned, others⟩
  · rcases running.turn act with ⟨running', -⟩ | ⟨-, stopped⟩
    · exact .inl running'
    · exact .inr stopped
  · have turn : PGProc.streamLoopPG p act = p := by simp [PGProc.streamLoopPG, returned]
    rw [turn]
    exact .inr ⟨returned, others⟩

/-- What every moment of a run guarantees. -/
theorem PGInv.left (inv : PGInv src start base p) :
    (mem p).lastAcked ≤ p.disk.saved.lsn ∧ PGLeft src start base p.disk ∧
      ∀ d ∈ p.visited, PGLeft src start base d := by
  rcases inv with ⟨done, rest, mid, saved, running⟩ | ⟨-, acked, left, behind⟩
  · exact ⟨running.acked, running.left_disk, running.behind⟩
  · exact ⟨acked, left, behind⟩

theorem PGLog.run_running (src : PGLog Row) (cfg : BatchConfig) (db : PGDB Row) :
    PGRunning src db.saved.lsn (PGDB.indexed db) [] (src.after db.saved.lsn) [] []
      (src.run cfg db) := by
  have taken : taken (src.run cfg db) = db.rows.map Prod.snd := by
    simp [taken, written, PGLog.run, w, Proc.boot, newTxnBatcher]
  have complete : complete (src.run cfg db) = db.rows.map Prod.snd := by
    simp [complete, PGLog.run, w, Proc.boot, newTxnBatcher]
  have none : PGDB.indexed db ++ pgRowsOf ([] : List (PGTxn Row)) = PGDB.indexed db :=
    append_nil _
  exact
    { wf := ⟨newBatchSize_pos _, le_rfl, fun isTx => (by cases isTx), Nat.zero_le _⟩
      split := rfl
      upper := by
        rw [taken, ← indexed_eq_map]
        exact prefix_append _ _
      ended := by rw [complete, ← indexed_eq_map, none]
      cursor := .inl ⟨rfl, rfl⟩
      savedPrefix := prefix_rfl
      savedLSN := rfl
      savedRows := by
        rw [none]
        exact prefix_rfl
      acked := le_rfl
      behind := by
        intro d member
        rw [mem_singleton.mp member]
        refine ⟨[], _, rfl, rfl, ?_, prefix_append _ _⟩
        rw [none]
      read := rfl
      inside := by simp
      taken := by
        rw [taken, ← indexed_eq_map, none, filter_nil, append_nil]
      alive := rfl }

/-- Over a whole run. -/
theorem PGLog.run_inv (src : PGLog Row) (cfg : BatchConfig) (db : PGDB Row) (acts : List LoopAct) :
    PGInv src db.saved.lsn (PGDB.indexed db)
      (acts.foldl PGProc.streamLoopPG (src.run cfg db)) := by
  have start : PGInv src db.saved.lsn (PGDB.indexed db) (src.run cfg db) :=
    .inl ⟨_, _, _, _, src.run_running cfg db⟩
  have keeps : ∀ p act, PGInv src db.saved.lsn (PGDB.indexed db) p → True →
      PGInv src db.saved.lsn (PGDB.indexed db) (PGProc.streamLoopPG p act) :=
    fun _ act inv _ => PGInv.streamLoopPG inv act
  exact Legal.foldl keeps (legal_true _ acts) start

/-- Once everything was read, every transaction was read to its end. -/
theorem PGRunning.all_ended (running : PGRunning src start base done rest mid saved p)
    (none : (mem p).incoming = []) : done = src.after start ∧ rest = [] := by
  have read := running.read
  rw [none, append_nil] at read
  have noRest : rest = [] := by
    rcases rest with - | ⟨t, rest⟩
    · rfl
    · have commit : t.commitEvent ∈ mid := by
        rw [← read]
        simp [PGTxn.sent]
      exact absurd rfl (running.inside _ commit)
  refine ⟨?_, noRest⟩
  rw [running.split, noRest, append_nil]

end Run

/-! ## Catching up -/

section Recovery

variable {src : PGLog Row} {db first : PGDB Row} {db' : PGDB Row} {txns : List (PGTxn Row)}

open PGProc

/-- A run that has read everything, after one more checkpoint. -/
def caughtUp (src : PGLog Row) (cfg : BatchConfig) (acts : List LoopAct) (db : PGDB Row) :
    PGDB Row :=
  ((acts ++ [LoopAct.tick true]).foldl streamLoopPG (src.run cfg db)).disk

/-- It has appended the rows of every transaction after the saved LSN to what it found. -/
theorem indexed_caughtUp (src : PGLog Row) (cfg : BatchConfig) (db : PGDB Row)
    {acts : List LoopAct} (goesOn : ∀ act ∈ acts, act.mayEnd = false)
    (allRead : ((src.after db.saved.lsn).flatMap PGTxn.sent).length ≤ acts.countP LoopAct.isNext) :
    PGDB.indexed (caughtUp src cfg acts db) =
      PGDB.indexed db ++ pgRowsOf (src.after db.saved.lsn) := by
  obtain ⟨⟨done, rest, mid, saved, last⟩, read⟩ :=
    Legal.foldl_drop
      (fun p => ∃ done rest mid saved,
        PGRunning src db.saved.lsn (PGDB.indexed db) done rest mid saved p)
      (fun p => (mem p).incoming)
      (fun p act ⟨_, _, _, _, running⟩ goes => by
        rcases running.turn act with turned | ⟨ends, -⟩
        · exact turned
        · rw [goes.2] at ends
          cases ends)
      ((legal_true (src.run cfg db) acts).and_forall goesOn) ⟨_, _, _, _, src.run_running cfg db⟩
  unfold caughtUp
  rw [foldl_append, foldl_cons, foldl_nil]
  set p := acts.foldl streamLoopPG (src.run cfg db) with hp
  have none : (mem p).incoming = [] := by
    rw [read]
    exact drop_eq_nil_of_le allRead
  obtain ⟨rfl, rfl⟩ := last.all_ended none
  have turn : streamLoopPG p (.tick true) = checkpoint p true := by
    simp [streamLoopPG, last.alive]
  rw [turn]
  rcases last.toPGHolding.checkpoint true with ⟨kept, -⟩ | ⟨fails, -⟩
  · have upper := (indexed_prefix_taken (checkpoint p true)).trans kept.upper
    exact upper.eq_of_length_le kept.savedRows.length_le
  · cases fails

/-- A stop somewhere in a run over `db`. -/
def PGStops (src : PGLog Row) : PGDB Row → PGDB Row → Prop :=
  StopsAt src.run streamLoopPG fun _ _ => True

theorem PGStops.left (stops : PGStops src db db') :
    PGLeft src db.saved.lsn (PGDB.indexed db) db' := by
  obtain ⟨cfg, acts, -, member⟩ := stops
  exact (PGLog.run_inv src cfg db acts).left.2.2 db' member

/-! ## Rows and LSNs -/

theorem exists_of_mem_pgRowsOf {ev : PGEvent Row} (member : ev ∈ pgRowsOf txns) :
    ∃ t ∈ txns, ev.lsn = t.lsn := by
  obtain ⟨t, inLog, row⟩ := mem_flatMap.mp member
  exact ⟨t, inLog, t.ownLSN ev (mem_filter.mp row).1⟩

theorem rows_within {t : PGTxn Row} (member : t ∈ txns) : t.rows <:+: pgRowsOf txns := by
  obtain ⟨before, after, rfl⟩ := append_of_mem member
  exact ⟨pgRowsOf before, pgRowsOf after, by simp [pgRowsOf]⟩

/-- No row of the index is past the checkpoint. -/
def Covered (db : PGDB Row) : Prop := ∀ x ∈ db.rows, x.2.lsn ≤ db.saved.lsn

instance (db : PGDB Row) : Decidable (Covered db) :=
  inferInstanceAs (Decidable (∀ x ∈ db.rows, x.2.lsn ≤ db.saved.lsn))

theorem covered_iff : Covered db ↔ ∀ ev ∈ PGDB.indexed db, ev.lsn ≤ db.saved.lsn := by
  simp only [Covered, PGDB.indexed, mem_map, forall_exists_index, and_imp,
    forall_apply_eq_imp_iff₂]
  rfl

/-- What a stop left past the checkpoint. Over an index without such rows it is what keeps the
new one from being covered. -/
theorem PGLeft.extra (covered : Covered db) (left : PGLeft src db.saved.lsn (PGDB.indexed db) db') :
    ∃ saved extra, src.after db.saved.lsn = saved ++ src.after db'.saved.lsn ∧
      PGDB.indexed db' = PGDB.indexed db ++ pgRowsOf saved ++ extra ∧
      (Covered db' ↔ extra = []) := by
  obtain ⟨saved, rest, split, lsn, ⟨extra, lower⟩, upper⟩ := left
  have more : src.after db'.saved.lsn = rest := by rw [lsn, src.after_endLSN split]
  have late : extra <+: pgRowsOf rest := by
    rw [← lower, split, pgRowsOf_append, ← append_assoc] at upper
    exact (prefix_append_right_inj _).mp upper
  have le : db.saved.lsn ≤ db'.saved.lsn := by
    rw [lsn]
    exact src.start_le_endLSN split
  refine ⟨saved, extra, by rw [more, split], lower.symm, ?_⟩
  rw [covered_iff, ← lower]
  constructor
  · intro early
    refine eq_nil_iff_forall_not_mem.mpr fun ev member => ?_
    obtain ⟨t, inRest, same⟩ := exists_of_mem_pgRowsOf (late.subset member)
    have past := src.endLSN_lt split inRest
    have := early ev (mem_append_right _ member)
    omega
  · rintro rfl ev member
    rw [append_nil, mem_append] at member
    rcases member with old | new
    · exact (covered_iff.mp covered ev old).trans le
    · obtain ⟨t, inSaved, same⟩ := exists_of_mem_pgRowsOf new
      rw [same, lsn]
      exact src.le_endLSN split inSaved

/-- An index that holds each transaction up to the checkpoint once, and no more. -/
def Settled (src : PGLog Row) (first db : PGDB Row) : Prop :=
  Covered db ∧ ∃ done, src.after first.saved.lsn = done ++ src.after db.saved.lsn ∧
    PGDB.indexed db = PGDB.indexed first ++ pgRowsOf done

theorem settled_of_stops (covered : Covered first)
    (stops : Relation.ReflTransGen (fun d d' => PGStops src d d' ∧ Covered d') first db) :
    Settled src first db := by
  induction stops with
  | refl => exact ⟨covered, [], rfl, (append_nil _).symm⟩
  | tail _ last ih =>
    obtain ⟨covered', done, split, rows⟩ := ih
    obtain ⟨saved, extra, split', rows', none⟩ := last.1.left.extra covered'
    refine ⟨last.2, done ++ saved, ?_, ?_⟩
    · rw [split, split', append_assoc]
    · rw [rows', none.mp last.2, rows, pgRowsOf_append, append_nil, append_assoc]

/-- Every transaction up to the checkpoint is in the index, at least once. -/
def Kept (src : PGLog Row) (first db : PGDB Row) : Prop :=
  ∀ t ∈ src.after first.saved.lsn, t.lsn ≤ db.saved.lsn → t.rows <:+: PGDB.indexed db

theorem Kept.left (kept : Kept src first db)
    (left : PGLeft src db.saved.lsn (PGDB.indexed db) db') : Kept src first db' := by
  obtain ⟨saved, rest, split, lsn, lower, -⟩ := left
  intro t member le
  refine List.IsInfix.trans ?_ lower.isInfix
  by_cases before : t.lsn ≤ db.saved.lsn
  · exact (kept t member before).trans (prefix_append _ _).isInfix
  · have inAfter : t ∈ saved ++ rest := by
      rw [← split]
      exact mem_filter.mpr ⟨(mem_filter.mp member).1, by simpa using before⟩
    rcases mem_append.mp inAfter with inSaved | inRest
    · exact (rows_within inSaved).trans (suffix_append _ _).isInfix
    · have past := src.endLSN_lt split inRest
      omega

theorem kept_of_stops (stops : Relation.ReflTransGen (PGStops src) first db) :
    Kept src first db := by
  induction stops with
  | refl =>
    intro t member le
    exact absurd (src.start_lt_of_mem_after member) (not_lt.mpr le)
  | tail _ last ih => exact ih.left last.left

/-- Recovery of a PostgreSQL capture. After any number of stops that each left a covered index,
one more stop is recovered exactly once if and only if it left a covered index too. Whatever the
stops left, an acknowledged transaction is in the index. -/
theorem streamLoopPG_exactly_once_iff_covered (src : PGLog Row) {first : PGDB Row}
    (covered : Covered first) :
    (∀ db db', Relation.ReflTransGen (fun d d' => PGStops src d d' ∧ Covered d') first db →
      PGStops src db db' →
      ∀ (cfg : BatchConfig) (acts : List LoopAct), (∀ act ∈ acts, act.mayEnd = false) →
        ((src.after db'.saved.lsn).flatMap PGTxn.sent).length ≤ acts.countP LoopAct.isNext →
        ((PGDB.indexed (caughtUp src cfg acts db')).Perm
            (PGDB.indexed first ++ pgRowsOf (src.after first.saved.lsn)) ↔ Covered db')) ∧
      ∀ db, Relation.ReflTransGen (PGStops src) first db →
        ∀ (cfg : BatchConfig) (acts : List LoopAct), ∀ t ∈ src.after first.saved.lsn,
          t.lsn ≤ (mem (acts.foldl streamLoopPG (src.run cfg db))).lastAcked →
          t.rows <:+: PGDB.indexed (acts.foldl streamLoopPG (src.run cfg db)).disk := by
  refine ⟨?_, ?_⟩
  · intro db db' history stops cfg acts goesOn allRead
    obtain ⟨covered', done, split, rows⟩ := settled_of_stops covered history
    obtain ⟨saved, extra, split', rows', isCovered⟩ := stops.left.extra covered'
    rw [indexed_caughtUp src cfg db' goesOn allRead, rows', rows, split, split', isCovered]
    simp only [pgRowsOf_append, append_assoc]
    constructor
    · -- the rows past the checkpoint come a second time, so the lengths differ
      intro same
      have length := same.length_eq
      simp only [length_append] at length
      exact length_eq_zero_iff.mp (by omega)
    · rintro rfl
      exact List.Perm.refl _
  · intro db stops cfg acts t member acked
    obtain ⟨le, left, -⟩ := (PGLog.run_inv src cfg db acts).left
    exact (kept_of_stops stops).left left t member (acked.trans le)

end Recovery

/-- A transaction of one row, then one of two. -/
def pgTwoTxns : PGLog String where
  txns :=
    [{ lsn := 10
       events :=
        [{ eventType := .relation, schema := "public", table := "t", lsn := 10 },
          { eventType := .insert, schema := "public", table := "t", lsn := 10, data := some "a" }]
       lsn_pos := by decide
       noCommit := by decide
       ownLSN := by decide
       unversioned := by decide },
      { lsn := 20
        events :=
          [{ eventType := .insert, schema := "public", table := "t", lsn := 20, data := some "b" },
            { eventType := .insert, schema := "public", table := "t", lsn := 20, data := some "c" }]
        lsn_pos := by decide
        noCommit := by decide
        ownLSN := by decide
        unversioned := by decide }]
  ordered := by decide

def pgEmpty : PGDB String := ⟨[], 1, ⟨0, 0⟩⟩

/-- A checkpoint after the first transaction, and a stop inside the second. -/
def pgInsideSecond : PGDB String :=
  ([LoopAct.next false, .next false, .next false, .tick true, .next false].foldl
    PGProc.streamLoopPG (pgTwoTxns.run ⟨2, 10⟩ pgEmpty)).disk

theorem pgInsideSecond_recovered :
    Covered pgInsideSecond ∧
      (PGDB.indexed (caughtUp pgTwoTxns ⟨1, 10⟩ (List.replicate 3 (LoopAct.next false))
        pgInsideSecond)).Perm (pgRowsOf pgTwoTxns.txns) := by
  have covered : Covered pgInsideSecond := by decide
  have stops : PGStops pgTwoTxns pgEmpty pgInsideSecond :=
    ⟨⟨2, 10⟩, [LoopAct.next false, .next false, .next false, .tick true, .next false],
      legal_true _ _, by decide⟩
  refine ⟨covered, ?_⟩
  exact ((streamLoopPG_exactly_once_iff_covered pgTwoTxns (by decide : Covered pgEmpty)).1 _ _
    Relation.ReflTransGen.refl stops ⟨1, 10⟩ (replicate 3 (LoopAct.next false)) (by decide)
    (by decide)).mpr covered

/-- One row per batch: the first transaction is in the index, and no checkpoint was due. -/
def pgNoCheckpoint : PGDB String :=
  ([LoopAct.next false, .next false, .next false].foldl
    PGProc.streamLoopPG (pgTwoTxns.run ⟨1, 10⟩ pgEmpty)).disk

/-- The run that follows indexes it again. -/
theorem pgNoCheckpoint_indexed_twice :
    PGStops pgTwoTxns pgEmpty pgNoCheckpoint ∧
      (PGDB.indexed (caughtUp pgTwoTxns ⟨1, 10⟩ (List.replicate 6 (LoopAct.next false))
        pgNoCheckpoint)).map data = [some "a", some "a", some "b", some "c"] ∧
      (pgRowsOf pgTwoTxns.txns).map data = [some "a", some "b", some "c"] :=
  ⟨⟨⟨1, 10⟩, [LoopAct.next false, .next false, .next false], legal_true _ _, by decide⟩,
    by decide, by decide⟩

end Dbtrail
