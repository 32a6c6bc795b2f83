import Dbtrail.Streamrun.Loop

/-!
# What a run leaves for the next one

The loop reads a log event by event. At any moment the events read split into
those up to the last place a checkpoint may name (`pre`) and those after it
(`mid`). `Holding` relates the part before to the batcher and the index, and
`Left` is what every disk a run passes through promises: its checkpoint claims a
part of the log, the index holds at least the rows of that part, and every row
beyond it carries an id from the saved floor up.

Which checkpoint claims which part of the log is the business of the mode; here
it is a parameter.
-/

namespace Dbtrail

open List Capture

variable {Row : Type} {p : StreamProc Row}

/-- What the index promises about the part `pre` of the log that a checkpoint
with this floor claims. `old` are the rows that were there before. -/
structure Leaves (old : List (ℕ × StreamEvent Row)) (log pre : List (StreamEvent Row))
    (floor : ℕ) (rows : List (ℕ × StreamEvent Row)) : Prop where
  oldRows : old <+: rows
  oldIDs : ∀ x ∈ old, x.1 < floor
  lower : old.map Prod.snd ++ rowsOf pre <+: rows.map Prod.snd
  upper : rows.map Prod.snd <+: old.map Prod.snd ++ rowsOf log
  ids : ∀ x ∈ rows.drop (old.length + (rowsOf pre).length), floor ≤ x.1

/-- A disk a run can leave behind. -/
def Left (claims : Checkpoint → List (StreamEvent Row) → Prop)
    (old : List (ℕ × StreamEvent Row)) (log : List (StreamEvent Row)) (db : StreamDB Row) : Prop :=
  ∃ pre, pre <+: log ∧ claims db.saved pre ∧
    Leaves old log pre db.saved.dedupFloorID db.rows ∧ db.saved.dedupFloorID ≤ db.nextID

open StreamProc in
/-- A run whose ended transactions are those of `pre`, and whose saved checkpoint
claims `saved`. -/
structure Holding (claims : Checkpoint → List (StreamEvent Row) → Prop)
    (old : List (ℕ × StreamEvent Row)) (log pre saved : List (StreamEvent Row))
    (p : StreamProc Row) : Prop where
  wf : Capture.WF p
  upper : Capture.taken p <+: old.map Prod.snd ++ rowsOf log
  ended : old.map Prod.snd ++ rowsOf pre <+: Capture.complete p
  oldRows : old <+: p.disk.rows
  oldIDs : ∀ x ∈ old, x.1 < (loop p).state.dedupFloorID
  above : Capture.Above p (loop p).state.dedupFloorID (old.length + (rowsOf pre).length)
  prePrefix : pre <+: log
  savedPrefix : saved <+: log
  claimed : claims p.disk.saved saved
  savedRows : old.map Prod.snd ++ rowsOf saved <+: p.disk.rows.map Prod.snd
  savedOldIDs : ∀ x ∈ old, x.1 < p.disk.saved.dedupFloorID
  savedAbove : Capture.Above p p.disk.saved.dedupFloorID (old.length + (rowsOf saved).length)
  behind : ∀ d ∈ p.visited, Left claims old log d

open StreamProc in
theorem wf_setLoop (wf : Capture.WF p) (f : LoopMem Row → LoopMem Row) : Capture.WF (setLoop p f) :=
  ⟨wf.batchSize_pos, wf.done_le, wf.tx_done, wf.firstID_le⟩

open StreamProc in
theorem wf_track (wf : Capture.WF p) (rest : List (StreamEvent Row)) (ev : StreamEvent Row) :
    Capture.WF (trackPosition (readNext p rest) ev) :=
  wf_setLoop (wf_setLoop wf fun m => { m with incoming := rest }) fun m =>
    { m with state := m.state.track ev (w p).firstIDOfLastBatch }

open StreamProc in
/-- Whatever an event does, it leaves what is still to be read. -/
theorem receive_incoming (wf : Capture.WF p) (rest : List (StreamEvent Row))
    (ev : StreamEvent Row) (timeUp : Bool) :
    (loop (receive (readNext p rest) ev timeUp)).incoming = rest := by
  have tracked := wf_track wf rest ev
  by_cases row : ev.isRow = true
  · rw [receive_row row]
    exact congrArg LoopMem.incoming (add_advances tracked ev timeUp).rest
  · cases kind : ev.eventType with
    | caughtUp =>
      rw [receive_caughtUp kind]
      rfl
    | gtid =>
      rw [receive_gtid kind]
      rfl
    | commit =>
      rw [receive_commit kind]
      exact congrArg LoopMem.incoming
        (endTxn_advances (wf_setLoop (wf_setLoop tracked _) _)).1.rest
    | ddl =>
      rw [receive_ddl kind]
      have ends := (endTxn_advances tracked).1
      exact congrArg LoopMem.incoming
        (ends.trans (commitComplete_advances ends.wf).1).rest
    | insert | update | delete | snapshot | relation => simp [StreamEvent.isRow, kind] at row

theorem rowsOf_append (a b : List (StreamEvent Row)) : rowsOf (a ++ b) = rowsOf a ++ rowsOf b :=
  filter_append _ _

theorem rowsOf_initial {a b : List (StreamEvent Row)} (le : a <+: b) : rowsOf a <+: rowsOf b := by
  obtain ⟨c, rfl⟩ := le
  rw [rowsOf_append]
  exact prefix_append _ _

section Holding

variable {claims : Checkpoint → List (StreamEvent Row) → Prop}
  {old : List (ℕ × StreamEvent Row)} {log pre mid saved : List (StreamEvent Row)}
  {p q : StreamProc Row}

open StreamProc

variable (holding : Holding claims old log pre saved p)

include holding

/-- An operation of the batcher, after a change of the loop's own memory. The
ended part may grow to `pre'`, and the floor with it. -/
theorem Holding.advances {f : LoopMem Row → LoopMem Row} {added pre' : List (StreamEvent Row)}
    (advances : Capture.Advances (setLoop p f) q added)
    (upper : Capture.taken q <+: old.map Prod.snd ++ rowsOf log)
    (ended : old.map Prod.snd ++ rowsOf pre' <+: Capture.complete q) (prePrefix : pre' <+: log)
    (floor : (loop p).state.dedupFloorID ≤ (f (loop p)).state.dedupFloorID)
    (above : Capture.Above p (f (loop p)).state.dedupFloorID
      (old.length + (rowsOf pre').length)) :
    Holding claims old log pre' saved q := by
  have loop' : loop q = f (loop p) := advances.rest
  have saved' : q.disk.saved = p.disk.saved := advances.saved
  have savedAbove : Capture.Above q p.disk.saved.dedupFloorID
      (old.length + (rowsOf saved).length) := advances.above holding.savedAbove
  have bare : Leaves old log saved p.disk.saved.dedupFloorID (Capture.written q) :=
    { oldRows := holding.oldRows.trans (advances.rows.trans (prefix_append _ _))
      oldIDs := holding.savedOldIDs
      lower := holding.savedRows.trans
        ((advances.rows.trans (prefix_append _ _)).map Prod.snd)
      upper := (prefix_append _ _).trans upper
      ids := savedAbove.2 }
  exact
    { wf := advances.wf
      upper := upper
      ended := ended
      oldRows := holding.oldRows.trans advances.rows
      oldIDs := by
        rw [loop']
        exact fun x member => (holding.oldIDs x member).trans_le floor
      above := by
        rw [loop']
        exact advances.above above
      prePrefix := prePrefix
      savedPrefix := holding.savedPrefix
      claimed := by
        rw [saved']
        exact holding.claimed
      savedRows := holding.savedRows.trans (advances.rows.map Prod.snd)
      savedOldIDs := by
        rw [saved']
        exact holding.savedOldIDs
      savedAbove := by
        rw [saved']
        exact savedAbove
      behind := by
        intro d member
        rcases advances.behind d member with member | ⟨same, ids, lower, below⟩
        · exact holding.behind d member
        · have same' : d.saved = p.disk.saved := same
          refine ⟨saved, holding.savedPrefix, ?_, ?_, ?_⟩
          · rw [same']
            exact holding.claimed
          · rw [same']
            exact
              { oldRows := holding.oldRows.trans lower
                oldIDs := holding.savedOldIDs
                lower := holding.savedRows.trans (lower.map Prod.snd)
                upper := ((below.trans (prefix_append _ _)).map Prod.snd).trans bare.upper
                ids := by
                  intro x inDrop
                  obtain ⟨rest, written⟩ := below.trans
                    (prefix_append q.disk.rows ((Capture.w q).tx.getD []))
                  refine bare.ids x ?_
                  rw [Capture.written, ← written, drop_append]
                  exact mem_append_left _ inDrop }
          · rw [same']
            exact holding.savedAbove.1.trans ids }

/-- A batcher operation that takes nothing. -/
theorem Holding.keep (advances : Capture.Advances p q []) : Holding claims old log pre saved q := by
  have advances' : Capture.Advances (setLoop p id) q [] := advances
  refine holding.advances advances' ?_ (holding.ended.trans advances.complete) holding.prePrefix
    le_rfl holding.above
  rw [advances.taken, append_nil]
  exact holding.upper

/-- Saving the checkpoint once the ended transactions are committed. -/
theorem Holding.save (committed : (Capture.w p).done = 0)
    (claimed : claims (loop p).state.checkpoint pre) :
    Holding claims old log pre pre (saveCheckpoint p) := by
  have complete : complete p = p.disk.rows.map Prod.snd := by
    simp [complete, committed]
  have rows : old.map Prod.snd ++ rowsOf pre <+: p.disk.rows.map Prod.snd := by
    rw [← complete]
    exact holding.ended
  have leaves : Leaves old log pre (loop p).state.dedupFloorID p.disk.rows :=
    { oldRows := holding.oldRows
      oldIDs := holding.oldIDs
      lower := rows
      upper := ((prefix_append _ _).map Prod.snd).trans
        ((prefix_append _ _).trans holding.upper)
      ids := by
        intro x member
        refine holding.above.2 x ?_
        rw [written, drop_append]
        exact mem_append_left _ member }
  exact
    { holding with
      wf := ⟨holding.wf.batchSize_pos, holding.wf.done_le, holding.wf.tx_done,
        holding.wf.firstID_le⟩
      savedPrefix := holding.prePrefix
      claimed := claimed
      savedRows := rows
      savedOldIDs := holding.oldIDs
      savedAbove := holding.above
      behind := by
        intro d member
        have visited : (saveCheckpoint p).visited = p.visited ++ [(saveCheckpoint p).disk] := rfl
        rw [visited, mem_append, mem_singleton] at member
        rcases member with member | rfl
        · exact holding.behind d member
        · exact ⟨pre, holding.prePrefix, claimed, leaves, holding.above.1⟩ }

theorem Holding.discard : Holding claims old log pre saved (Capture.discard p) := by
  have written' : Capture.written (Capture.discard p) = p.disk.rows := append_nil _
  have shorter : ∀ {floor n : ℕ}, Capture.Above p floor n →
      Capture.Above (Capture.discard p) floor n := by
    intro floor n above
    refine ⟨above.1, fun x member => above.2 x ?_⟩
    rw [written'] at member
    rw [Capture.written, drop_append]
    exact mem_append_left _ member
  obtain ⟨wf, complete, taken⟩ := Capture.discard_taken holding.wf
  exact
    { holding with
      wf := wf
      upper := by
        rw [taken]
        exact (Capture.complete_prefix_taken holding.wf).trans holding.upper
      ended := by
        rw [complete]
        exact holding.ended
      above := shorter holding.above
      savedAbove := shorter holding.savedAbove }

/-- A checkpoint, if what it would save is claimed. -/
theorem Holding.checkpoint (saves : Bool)
    (claimed : saves = true → claims (loop p).state.checkpoint pre) :
    ∃ saved', Holding claims old log pre saved' (checkpoint p saves) ∧
      loop (checkpoint p saves) = loop p ∧
      Capture.taken (checkpoint p saves) = Capture.taken p := by
  obtain ⟨advances, done⟩ := commitComplete_advances holding.wf
  have loop' : loop (commitComplete p) = loop p := advances.rest
  have taken : taken (commitComplete p) = taken p := by
    rw [advances.taken, append_nil]
  have kept := holding.keep advances
  unfold StreamProc.checkpoint
  dsimp only
  cases saves with
  | false => exact ⟨saved, kept, loop', taken⟩
  | true =>
    exact ⟨pre, kept.save done (by rw [loop']; exact claimed rfl), loop', taken⟩

/-- The end of the loop. -/
theorem Holding.stop (saves : Bool)
    (claimed : saves = true → claims (loop p).state.checkpoint pre) :
    (∀ d ∈ (stop p saves).visited, Left claims old log d) ∧
      (loop (stop p saves)).returned = true := by
  obtain ⟨q, hq, kept, same⟩ : ∃ q, q = (if (Capture.w p).inTxn then
      if (loop p).ddlClaimed then Capture.endTxn p else Capture.discard p else p) ∧
      Holding claims old log pre saved q ∧ loop q = loop p := by
    refine ⟨_, rfl, ?_⟩
    split
    · split
      · have ended := (Capture.endTxn_advances holding.wf).1
        exact ⟨holding.keep ended, ended.rest⟩
      · exact ⟨holding.discard, rfl⟩
    · exact ⟨holding, rfl⟩
  obtain ⟨saved', holding', -, -⟩ := kept.checkpoint saves (by rwa [same])
  unfold StreamProc.stop
  rw [← hq]
  exact ⟨holding'.behind, rfl⟩

end Holding

/-! ## Reading the log -/

open StreamProc in
/-- A run that still reads: what it took is the rows of the events read. -/
structure Reading (claims : Checkpoint → List (StreamEvent Row) → Prop)
    (old : List (ℕ × StreamEvent Row)) (log pre mid saved : List (StreamEvent Row))
    (p : StreamProc Row) : Prop extends Holding claims old log pre saved p where
  log_eq : log = pre ++ mid ++ (loop p).incoming
  taken : Capture.taken p = old.map Prod.snd ++ rowsOf (pre ++ mid)
  alive : (loop p).returned = false

section Reading

variable {claims : Checkpoint → List (StreamEvent Row) → Prop}
  {old : List (ℕ × StreamEvent Row)} {log pre mid saved : List (StreamEvent Row)}
  {p q : StreamProc Row} {f : LoopMem Row → LoopMem Row} {read : List (StreamEvent Row)}

open StreamProc

section

variable (reading : Reading claims old log pre mid saved p)

include reading

theorem Reading.written_le :
    (Capture.written p).length ≤ old.length + (rowsOf (pre ++ mid)).length := by
  have length := congrArg length reading.taken
  simp only [Capture.taken, length_append, length_map] at length
  omega

/-- What is read goes on, as a batcher operation takes its rows. -/
theorem Reading.log_eq_of_read (advances : Capture.Advances (setLoop p f) q (rowsOf read))
    (incoming : (loop p).incoming = read ++ (f (loop p)).incoming) :
    log = pre ++ (mid ++ read) ++ (loop q).incoming ∧
      Capture.taken q = old.map Prod.snd ++ rowsOf (pre ++ (mid ++ read)) := by
  have loop' : loop q = f (loop p) := advances.rest
  refine ⟨?_, ?_⟩
  · rw [loop', reading.log_eq, incoming]
    simp only [append_assoc]
  · have before : Capture.taken (setLoop p f) = Capture.taken p := rfl
    rw [advances.taken, before, reading.taken]
    simp only [rowsOf_append, append_assoc]

/-- Events read while a batcher operation takes their rows; no end among them. -/
theorem Reading.advances (advances : Capture.Advances (setLoop p f) q (rowsOf read))
    (floor : (f (loop p)).state.dedupFloorID = (loop p).state.dedupFloorID)
    (incoming : (loop p).incoming = read ++ (f (loop p)).incoming)
    (alive : (f (loop p)).returned = false) :
    Reading claims old log pre (mid ++ read) saved q := by
  obtain ⟨log_eq, taken⟩ := reading.log_eq_of_read advances incoming
  have loop' : loop q = f (loop p) := advances.rest
  refine
    { toHolding := reading.toHolding.advances advances ?_
        (reading.ended.trans advances.complete) reading.prePrefix floor.ge ?_
      log_eq := log_eq
      taken := taken
      alive := by rw [loop', alive] }
  · rw [taken]
    conv_rhs => rw [log_eq, rowsOf_append]
    exact (prefix_append_right_inj _).mpr (prefix_append _ _)
  · rw [floor]
    exact reading.above

/-- An event that ends everything read so far, and may raise the floor to a row
already written. -/
theorem Reading.close {ev : StreamEvent Row}
    (noRow : ev.isRow = false) (advances : Capture.Advances (setLoop p f) q [])
    (complete : Capture.complete q = Capture.taken q)
    (floor : (loop p).state.dedupFloorID ≤ (f (loop p)).state.dedupFloorID)
    (bound : (f (loop p)).state.dedupFloorID ≤ p.disk.nextID)
    (incoming : (loop p).incoming = ev :: (f (loop p)).incoming)
    (alive : (f (loop p)).returned = false) :
    Reading claims old log (pre ++ mid ++ [ev]) [] saved q := by
  have noRows : rowsOf [ev] = [] := by simp [rowsOf, noRow]
  have advances' : Capture.Advances (setLoop p f) q (rowsOf [ev]) := by rwa [noRows]
  obtain ⟨log_eq, taken⟩ := reading.log_eq_of_read advances' incoming
  have loop' : loop q = f (loop p) := advances.rest
  rw [← append_assoc] at log_eq taken
  refine
    { toHolding := reading.toHolding.advances advances ?_ ?_ ?_ floor ?_
      log_eq := by rwa [append_nil]
      taken := by rwa [append_nil]
      alive := by rw [loop', alive] }
  · rw [taken]
    conv_rhs => rw [log_eq, rowsOf_append]
    exact (prefix_append_right_inj _).mpr (prefix_append _ _)
  · rw [complete, taken]
  · rw [log_eq]
    exact prefix_append _ _
  · refine above_of_written_le bound ?_
    rw [rowsOf_append, noRows, append_nil]
    exact reading.written_le

/-- A change of the loop's memory alone. The floor may rise to a row already
written, as long as no row was read since the last end. -/
theorem Reading.remember (floor : (loop p).state.dedupFloorID ≤ (f (loop p)).state.dedupFloorID)
    (above : (f (loop p)).state.dedupFloorID = (loop p).state.dedupFloorID ∨
      (f (loop p)).state.dedupFloorID ≤ p.disk.nextID ∧ rowsOf mid = [])
    (incoming : (f (loop p)).incoming = (loop p).incoming) (alive : (f (loop p)).returned = false) :
    Reading claims old log pre mid saved (setLoop p f) := by
  refine
    { toHolding := reading.toHolding.advances (Capture.Advances.refl (wf_setLoop reading.wf f))
        reading.upper reading.ended reading.prePrefix floor ?_
      log_eq := reading.log_eq.trans (by rw [← incoming]; rfl)
      taken := reading.taken
      alive := alive }
  rcases above with same | ⟨bound, noRows⟩
  · rw [same]
    exact reading.above
  · refine above_of_written_le bound ?_
    have bound := reading.written_le
    rwa [rowsOf_append, noRows, append_nil] at bound

/-- A batcher operation that takes nothing. -/
theorem Reading.keep
    (advances : Capture.Advances p q []) : Reading claims old log pre mid saved q := by
  have same : Capture.Advances (setLoop p id) q (rowsOf []) := advances
  have kept := reading.advances same rfl rfl reading.alive
  rwa [append_nil] at kept

/-- A checkpoint, if what it would save is claimed. -/
theorem Reading.checkpoint (saves : Bool)
    (claimed : saves = true → claims (loop p).state.checkpoint pre) :
    ∃ saved', Reading claims old log pre mid saved' (checkpoint p saves) ∧
      loop (checkpoint p saves) = loop p := by
  obtain ⟨saved', holding, loop', taken⟩ := reading.toHolding.checkpoint saves claimed
  refine ⟨saved', ?_, loop'⟩
  exact
    { toHolding := holding
      log_eq := by rw [loop', ← reading.log_eq]
      taken := by rw [taken, reading.taken]
      alive := by rw [loop', reading.alive] }

end

/-- Once everything is read and ended, a checkpoint leaves every row in the index. -/
theorem Reading.rows_checkpoint (reading : Reading claims old log log [] saved p) (saves : Bool) :
    (StreamProc.checkpoint p saves).disk.rows.map Prod.snd = old.map Prod.snd ++ rowsOf log := by
  obtain ⟨advances, done⟩ := Capture.commitComplete_advances reading.wf
  have all : Capture.taken (Capture.commitComplete p) = old.map Prod.snd ++ rowsOf log := by
    rw [advances.taken, reading.taken]
    simp only [append_nil]
  have rows : Capture.complete (Capture.commitComplete p) =
      (Capture.commitComplete p).disk.rows.map Prod.snd := by
    simp [Capture.complete, done]
  have same : (StreamProc.checkpoint p saves).disk.rows = (Capture.commitComplete p).disk.rows := by
    cases saves <;> rfl
  have lower := reading.ended.trans advances.complete
  rw [rows] at lower
  have upper : (Capture.commitComplete p).disk.rows.map Prod.snd <+:
      Capture.taken (Capture.commitComplete p) :=
    ((prefix_append _ _).map Prod.snd).trans (prefix_append _ _)
  rw [all] at upper
  rw [same]
  exact upper.eq_of_length_le lower.length_le

end Reading

/-! ## A mode's runs -/

section ReadsOn

variable {claims : Checkpoint → List (StreamEvent Row) → Prop}
  {old : List (ℕ × StreamEvent Row)} {log : List (StreamEvent Row)}
  {ok : StreamProc Row → LoopAct → Prop}
  {running : (pre mid saved : List (StreamEvent Row)) → StreamProc Row → Prop}
  {p : StreamProc Row} {act : LoopAct}

open StreamProc

/-- `running` is what a mode keeps of a run that reads, over the turns that are `ok`. -/
structure ReadsOn (claims : Checkpoint → List (StreamEvent Row) → Prop)
    (old : List (ℕ × StreamEvent Row)) (log : List (StreamEvent Row))
    (ok : StreamProc Row → LoopAct → Prop)
    (running : (pre mid saved : List (StreamEvent Row)) → StreamProc Row → Prop) : Prop where
  reading : ∀ {pre mid saved p}, running pre mid saved p → Reading claims old log pre mid saved p
  same : ∀ {pre mid saved saved' p q}, running pre mid saved p →
    Reading claims old log pre mid saved' q → loop q = loop p → running pre mid saved' q
  claims : ∀ {pre mid saved p act}, running pre mid saved p → ok p act → act.saves = true →
    claims (loop p).state.checkpoint pre
  receive : ∀ {pre mid saved p ev after}, running pre mid saved p →
    (loop p).incoming = ev :: after → ∀ timeUp : Bool,
    ∃ pre' mid', running pre' mid' saved (receive (readNext p after) ev timeUp)
  ended : ∀ {pre mid saved p}, running pre mid saved p → (loop p).incoming = [] → mid = []

/-- A run that reads, or one that ended and left disks to go on from. -/
def Going (claims : Checkpoint → List (StreamEvent Row) → Prop)
    (old : List (ℕ × StreamEvent Row)) (log : List (StreamEvent Row))
    (running : (pre mid saved : List (StreamEvent Row)) → StreamProc Row → Prop)
    (p : StreamProc Row) : Prop :=
  (∃ pre mid saved, running pre mid saved p) ∨
    (loop p).returned = true ∧ ∀ d ∈ p.visited, Left claims old log d

variable (mode : ReadsOn claims old log ok running)

include mode

/-- One turn that does not end the loop: how far it has read, and what it keeps. -/
theorem ReadsOn.turn (act : LoopAct) (runs : ∃ pre mid saved, running pre mid saved p)
    (allowed : ok p act) (goes : act.isStop = false) :
    (∃ pre mid saved, running pre mid saved (streamLoop p act)) ∧
      (loop (streamLoop p act)).incoming =
        (loop p).incoming.drop (if act.isNext then 1 else 0) := by
  obtain ⟨pre, mid, saved, runs⟩ := runs
  have reading := mode.reading runs
  unfold streamLoop
  rw [if_neg (by rw [reading.alive]; exact Bool.false_ne_true)]
  cases act with
  | tick saves =>
    obtain ⟨saved', kept, same⟩ := reading.checkpoint saves (mode.claims runs allowed)
    exact ⟨⟨pre, mid, saved', mode.same runs kept same⟩, congrArg LoopMem.incoming same⟩
  | cap timeUp =>
    have advances := onCap_advances reading.wf timeUp
    exact ⟨⟨pre, mid, saved, mode.same runs (reading.keep advances) advances.rest⟩,
      congrArg LoopMem.incoming advances.rest⟩
  | next timeUp =>
    dsimp only
    split
    · rename_i none
      refine ⟨⟨pre, mid, saved, runs⟩, ?_⟩
      rw [none, drop_nil]
    · rename_i ev after incoming
      obtain ⟨pre', mid', runs'⟩ := mode.receive runs incoming timeUp
      refine ⟨⟨pre', mid', saved, runs'⟩, ?_⟩
      rw [receive_incoming reading.wf, incoming]
      rfl
  | stop saves => cases goes

theorem ReadsOn.streamLoop (going : Going claims old log running p) (allowed : ok p act) :
    Going claims old log running (streamLoop p act) := by
  rcases going with runs | ⟨returned, behind⟩
  · cases act with
    | stop saves =>
      obtain ⟨pre, mid, saved, runs⟩ := runs
      have reading := mode.reading runs
      have turn : StreamProc.streamLoop p (.stop saves) = stop p saves := by
        simp [StreamProc.streamLoop, reading.alive]
      obtain ⟨behind, returned⟩ := reading.toHolding.stop saves (mode.claims runs allowed)
      rw [turn]
      exact Or.inr ⟨returned, behind⟩
    | tick | cap | next => exact Or.inl (mode.turn _ runs allowed rfl).1
  · have turn : StreamProc.streamLoop p act = p := by simp [StreamProc.streamLoop, returned]
    rw [turn]
    exact Or.inr ⟨returned, behind⟩

theorem ReadsOn.behind (going : Going claims old log running p) :
    ∀ d ∈ p.visited, Left claims old log d := by
  rcases going with ⟨pre, mid, saved, runs⟩ | ⟨-, behind⟩
  · exact (mode.reading runs).behind
  · exact behind

/-- Over any number of stops, and then a run that reads to the end of the log. -/
theorem ReadsOn.exactly_once {resume : BatchConfig → StreamDB Row → StreamProc Row}
    (resumes : ∀ cfg db, Left claims old log db →
      ∃ pre mid saved, running pre mid saved (resume cfg db))
    {db db' : StreamDB Row} (first : Left claims old log db)
    (crashes : Relation.ReflTransGen (StopsAt resume StreamProc.streamLoop ok) db db')
    (cfg : BatchConfig) {acts : List LoopAct}
    (legal : Legal StreamProc.streamLoop ok (resume cfg db') acts)
    (noStop : ∀ act ∈ acts, act.isStop = false)
    (allRead : log.length ≤ acts.countP LoopAct.isNext) (saves : Bool) :
    ((acts ++ [LoopAct.tick saves]).foldl StreamProc.streamLoop
      (resume cfg db')).disk.rows.map Prod.snd = old.map Prod.snd ++ rowsOf log := by
  have left : Left claims old log db' := left_of_stops
    (fun cfg db left => Or.inl (resumes cfg db left)) (fun _ _ => mode.streamLoop)
    (fun _ => mode.behind) crashes first
  obtain ⟨pre₀, mid₀, saved₀, start⟩ := resumes cfg db' left
  obtain ⟨⟨pre, mid, saved, last⟩, read⟩ := Legal.foldl_drop
    (fun p => ∃ pre mid saved, running pre mid saved p) (fun p => (loop p).incoming)
    (fun _ act kept goes => mode.turn act kept goes.1 goes.2) (legal.and_forall noStop)
    ⟨pre₀, mid₀, saved₀, start⟩
  rw [foldl_append, foldl_cons, foldl_nil]
  set p := acts.foldl StreamProc.streamLoop (resume cfg db') with hp
  have none : (loop p).incoming = [] := by
    rw [read]
    refine drop_eq_nil_of_le (le_trans ?_ allRead)
    rw [(mode.reading start).log_eq, length_append]
    exact Nat.le_add_left _ _
  have reading := mode.reading last
  have log_eq := reading.log_eq
  rw [none, mode.ended last none, append_nil, append_nil] at log_eq
  have turn : StreamProc.streamLoop p (.tick saves) = checkpoint p saves := by
    simp [StreamProc.streamLoop, reading.alive]
  rw [mode.ended last none, ← log_eq] at reading
  rw [turn]
  exact reading.rows_checkpoint saves

end ReadsOn

/-! ## Starting again -/

section Start

variable {claims : Checkpoint → List (StreamEvent Row) → Prop}
  {old rows : List (ℕ × StreamEvent Row)} {log pre post : List (StreamEvent Row)} {floor : ℕ}

/-- Before the first event. -/
theorem leaves_start (below : ∀ x ∈ old, x.1 < floor) : Leaves old log [] floor old where
  oldRows := List.prefix_rfl
  oldIDs := below
  lower := by
    have none : rowsOf ([] : List (StreamEvent Row)) = [] := rfl
    rw [none, append_nil]
  upper := prefix_append _ _
  ids := by
    intro x member
    rw [drop_eq_nil_of_le (Nat.le_add_right _ _)] at member
    cases member

/-- A cleanup that keeps the older rows and those of `pre`, and takes every row
of the rest that has an id from the floor up, leaves exactly the former. -/
theorem Leaves.filter_eq_take (leaves : Leaves old log pre floor rows) (split : log = pre ++ post)
    (keep : ℕ × StreamEvent Row → Bool) (keepsOld : ∀ x ∈ old, keep x)
    (keepsPre : ∀ x ∈ rows, x.2 ∈ rowsOf pre → keep x)
    (drops : ∀ x ∈ rows, floor ≤ x.1 → x.2 ∈ rowsOf post → keep x = false) :
    ∃ new, rows.filter keep = old ++ new ∧ new.map Prod.snd = rowsOf pre := by
  obtain ⟨mine, rfl⟩ := leaves.oldRows
  have lower : rowsOf pre <+: mine.map Prod.snd := by
    have all := leaves.lower
    rwa [map_append, prefix_append_right_inj] at all
  have upper : mine.map Prod.snd <+: rowsOf pre ++ rowsOf post := by
    have all := leaves.upper
    rwa [map_append, prefix_append_right_inj, split, rowsOf_append] at all
  set n := (rowsOf pre).length with hn
  have head : (mine.take n).map Prod.snd = rowsOf pre := by
    rw [map_take]
    exact (prefix_iff_eq_take.mp lower).symm
  have tail : (mine.drop n).map Prod.snd <+: rowsOf post := by
    have whole : mine.map Prod.snd = rowsOf pre ++ (mine.drop n).map Prod.snd := by
      rw [← head, ← map_append, take_append_drop]
    rwa [whole, prefix_append_right_inj] at upper
  have ids : ∀ x ∈ mine.drop n, floor ≤ x.1 := by
    intro x member
    refine leaves.ids x ?_
    rw [drop_append, drop_eq_nil_of_le (Nat.le_add_right _ _),
      Nat.add_sub_cancel_left, nil_append]
    exact member
  refine ⟨mine.take n, ?_, head⟩
  have kept : (mine.take n).filter keep = mine.take n := by
    refine filter_eq_self.mpr fun x member => keepsPre x ?_ ?_
    · exact mem_append_right _ (mem_of_mem_take member)
    · rw [← head]
      exact mem_map_of_mem member
  have dropped : (mine.drop n).filter keep = [] := by
    refine filter_eq_nil_iff.mpr fun x member => ?_
    rw [drops x (mem_append_right _ (mem_of_mem_drop member)) (ids x member)
      (tail.subset (mem_map_of_mem member))]
    exact Bool.false_ne_true
  rw [filter_append, filter_eq_self.mpr keepsOld]
  conv_lhs => rw [← take_append_drop n mine, filter_append, kept, dropped,
    append_nil]

open StreamProc in
/-- A run that cleaned up so reads on from the end of `pre`. -/
theorem reading_startRun {cfg : BatchConfig} {state : StreamState}
    {cleanup : StreamDB Row → StreamDB Row} {db : StreamDB Row}
    (claimed : claims db.saved pre) (leaves : Leaves old log pre db.saved.dedupFloorID db.rows)
    (bound : db.saved.dedupFloorID ≤ db.nextID) (split : log = pre ++ post)
    {new : List (ℕ × StreamEvent Row)} (cleaned : cleanup db = { db with rows := old ++ new })
    (rows_eq : new.map Prod.snd = rowsOf pre)
    (floor_eq : state.dedupFloorID = db.saved.dedupFloorID) :
    Reading claims old log pre [] pre (startRun cfg state post cleanup db) := by
  have disk : (startRun cfg state post cleanup db).disk = { db with rows := old ++ new } := cleaned
  have state' : (loop (startRun cfg state post cleanup db)).state = state := rfl
  have written : written (startRun cfg state post cleanup db) = old ++ new := by
    rw [written, disk]
    exact append_nil _
  have prePrefix : pre <+: log := by
    rw [split]
    exact prefix_append _ _
  have rows' : (old ++ new).map Prod.snd = old.map Prod.snd ++ rowsOf pre := by
    rw [map_append, rows_eq]
  have taken : taken (startRun cfg state post cleanup db) =
      old.map Prod.snd ++ rowsOf pre := by
    rw [taken, written, rows']
    exact append_nil _
  have complete : complete (startRun cfg state post cleanup db) =
      old.map Prod.snd ++ rowsOf pre := by
    rw [complete, disk, rows']
    exact append_nil _
  have all : (old ++ new).length ≤ old.length + (rowsOf pre).length := by
    rw [← rows_eq, length_append, length_map]
  have above : Capture.Above (startRun cfg state post cleanup db) db.saved.dedupFloorID
      (old.length + (rowsOf pre).length) := by
    refine above_of_written_le ?_ (by rw [written]; exact all)
    rw [disk]
    exact bound
  have log_prefix : old.map Prod.snd ++ rowsOf pre <+: old.map Prod.snd ++ rowsOf log :=
    (prefix_append_right_inj _).mpr (rowsOf_initial prePrefix)
  refine
    { wf := ⟨newBatchSize_pos _, le_rfl, fun isTx => (by cases isTx), Nat.zero_le _⟩
      upper := by rwa [taken]
      ended := by rw [complete]
      oldRows := by
        rw [disk]
        exact prefix_append _ _
      oldIDs := by
        rw [state', floor_eq]
        exact leaves.oldIDs
      above := by
        rw [state', floor_eq]
        exact above
      prePrefix := prePrefix
      savedPrefix := prePrefix
      claimed := by
        rw [disk]
        exact claimed
      savedRows := by rw [disk, rows']
      savedOldIDs := by
        rw [disk]
        exact leaves.oldIDs
      savedAbove := by
        rw [disk]
        exact above
      behind := ?_
      log_eq := by
        rw [append_nil]
        exact split
      taken := by rw [taken, append_nil]
      alive := rfl }
  intro d member
  have visited : (startRun cfg state post cleanup db).visited = [db, cleanup db] := rfl
  rw [visited, mem_pair] at member
  rcases member with rfl | rfl
  · exact ⟨pre, prePrefix, claimed, leaves, bound⟩
  · rw [cleaned]
    refine ⟨pre, prePrefix, claimed, ?_, bound⟩
    exact
      { oldRows := prefix_append _ _
        oldIDs := leaves.oldIDs
        lower := by rw [rows']
        upper := by rwa [rows']
        ids := by
          intro x inDrop
          rw [drop_eq_nil_of_le all] at inDrop
          cases inDrop }

end Start

theorem firstLog_named : "binlog.000001" ≠ "" := by decide

end Dbtrail
