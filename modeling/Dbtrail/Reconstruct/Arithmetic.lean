import Dbtrail.Reconstruct.Replay
import Dbtrail.Reconstruct.TableDelta

/-!
# The refresh's arithmetic

A refresh with table deltas on counts what it did: the window's INSERT and
DELETE events, the keys and tombstones of the pair it wrote, the base rows the
lookup found, or the counters of the merge when it rewrote the table.
`RefreshArithmetic.problems` checks the counts against each other and
`rowsAfter` is the number of rows the published state should hold, stamped on
the pair for the next refresh to start from.

`refreshTable_closes`: over a window the table could have produced, the counts
close, and `rowsAfter` is the size of the state after the window wherever the
chain carries a count.
-/

namespace Dbtrail

open List

variable {Row : Type} {core : MergeCore Row}

/-- What does not close, with the numbers its text names. -/
inductive ArithmeticProblem : Type
  | rowsWritten (got want : ℤ)
  | mergeNet (insertsEmitted deletesSkipped got want inserts deletes : ℤ)
  | rowsRead (read chainRows : ℤ)
  | aliveInPair (upserts keys : ℤ)
  | aliveBefore (aliveBefore upserts inserts deletes keys : ℤ)
  | foundInBase (dead aliveBefore upserts inserts deletes : ℤ)
  | foundForKeys (dead keys : ℤ)
  | fewerThanAlive (after before inserts deletes upserts : ℤ)
  deriving DecidableEq, Repr

/-- One table's numbers. `rowsBefore` is `-1` when unknown. -/
structure RefreshArithmetic : Type where
  inserts : ℤ := 0
  deletes : ℤ := 0
  rowsBefore : ℤ := -1
  pair : Bool := false
  seq : ℕ := 0
  keys : ℤ := 0
  upserts : ℤ := 0
  dead : ℤ := 0
  rewrite : Bool := false
  baselineRows : ℤ := 0
  updatesApplied : ℤ := 0
  deletesSkipped : ℤ := 0
  insertsEmitted : ℤ := 0
  rowsWritten : ℤ := 0
  deriving DecidableEq, Repr

namespace RefreshArithmetic

/-- The rows the published state holds, `-1` when it cannot be told. -/
def rowsAfter (a : RefreshArithmetic) : ℤ :=
  if a.rewrite then a.rowsWritten
  else if a.rowsBefore < 0 then -1
  else a.rowsBefore + a.inserts - a.deletes

/-- The rows before the window: a rewrite read them, a pair carries them. -/
def knownBefore (a : RefreshArithmetic) : ℤ :=
  if a.rewrite then a.baselineRows + a.updatesApplied + a.deletesSkipped else a.rowsBefore

/-- The checks of a rewrite. -/
def rewriteProblems (a : RefreshArithmetic) : List ArithmeticProblem :=
  (if a.rowsWritten ≠ a.baselineRows + a.updatesApplied + a.insertsEmitted then
    [.rowsWritten a.rowsWritten (a.baselineRows + a.updatesApplied + a.insertsEmitted)] else []) ++
  (if a.insertsEmitted - a.deletesSkipped ≠ a.inserts - a.deletes then
    [.mergeNet a.insertsEmitted a.deletesSkipped (a.insertsEmitted - a.deletesSkipped)
      (a.inserts - a.deletes) a.inserts a.deletes] else []) ++
  (if 0 ≤ a.rowsBefore ∧ a.knownBefore ≠ a.rowsBefore then
    [.rowsRead a.knownBefore a.rowsBefore] else [])

/-- The checks of a pair. -/
def pairProblems (a : RefreshArithmetic) : List ArithmeticProblem :=
  let aliveBefore := a.upserts - a.inserts + a.deletes
  (if a.keys < a.upserts then [.aliveInPair a.upserts a.keys] else []) ++
  (if aliveBefore < 0 ∨ a.keys < aliveBefore then
    [.aliveBefore aliveBefore a.upserts a.inserts a.deletes a.keys] else []) ++
  (if a.seq = 0 ∧ a.dead ≠ aliveBefore then
    [.foundInBase a.dead aliveBefore a.upserts a.inserts a.deletes] else []) ++
  (if 0 < a.seq ∧ a.keys < a.dead then [.foundForKeys a.dead a.keys] else []) ++
  (if 0 ≤ a.rowsBefore ∧ a.rowsAfter < a.upserts then
    [.fewerThanAlive a.rowsAfter a.rowsBefore a.inserts a.deletes a.upserts] else [])

/-- What does not close, empty when everything does. -/
def problems (a : RefreshArithmetic) : List ArithmeticProblem :=
  if a.rewrite then a.rewriteProblems
  else if a.pair then a.pairProblems
  else []

theorem rewriteProblems_eq_nil {a : RefreshArithmetic}
    (written : a.rowsWritten = a.baselineRows + a.updatesApplied + a.insertsEmitted)
    (net : a.insertsEmitted - a.deletesSkipped = a.inserts - a.deletes)
    (before : 0 ≤ a.rowsBefore → a.knownBefore = a.rowsBefore) : a.rewriteProblems = [] := by
  unfold rewriteProblems
  rw [if_neg (not_not.mpr written), if_neg (not_not.mpr net),
    if_neg fun known => known.2 (before known.1)]
  rfl

end RefreshArithmetic

/-! ## The refresh -/

/-- A table of a snapshot: the base file, the chain beside it, and the count its
last pair is stamped with, `-1` for none. -/
structure ChainedTable (Row : Type) : Type where
  base : List Row
  chain : List (TableDeltaPair Row) := []
  deltaRows : ℤ := -1

/-- The rows the table resolves to. -/
def ChainedTable.state (s : ChainedTable Row) : List Row := tableDeltaState s.base s.chain

/-- The rows a chain's state holds, by its last pair's count. A chain of only the
empty first pair applies nothing, so the base's count stands for a missing one. -/
def rowsBeforeChain (s : ChainedTable Row) (baseRows : ℤ) : ℤ :=
  if 0 ≤ s.deltaRows then s.deltaRows
  else
    match s.chain with
    | [f] => if f.seq = 0 ∧ f.upserts.isEmpty then baseRows else -1
    | _ => -1

def rowsBeforeWindow (s : ChainedTable Row) (seq : ℕ) : ℤ :=
  if seq = 0 ∨ s.chain.isEmpty then s.base.length else rowsBeforeChain s s.base.length

/-- The count stamped on a pair. -/
def stampedRows (rowsAfter : ℤ) : ℤ := if 0 ≤ rowsAfter then rowsAfter else -1

/-- The counts of a window published as the pair `pair`. -/
def pairArithmetic (s : ChainedTable Row) (fold : FoldResult Row) (pair : TableDeltaPair Row) :
    RefreshArithmetic where
  inserts := fold.inserts
  deletes := fold.deletes
  rowsBefore := rowsBeforeWindow s pair.seq
  pair := true
  seq := pair.seq
  keys := pair.upserts.length
  upserts := pair.upserts.length - (emitWindowChanges fold.changes).2
  dead := pair.posdel.length

/-- A refresh that adds a pair (`publishWithTableDelta`). An empty window over a
chain writes nothing and counts nothing. -/
def refreshPair (core : MergeCore Row) (s : ChainedTable Row) (fold : FoldResult Row) :
    Except DeltaError (ChainedTable Row × Option RefreshArithmetic) := do
  let newDead ← (lookupBasePositions core s.base fold.changes).mapError .merge
  if !s.chain.isEmpty && fold.changes.keys.isEmpty then return (s, none)
  let pair ← writeTableDelta (nextSeq s.chain) newDead fold.changes
  let arith := pairArithmetic s fold pair
  return ({ s with chain := s.chain ++ [pair], deltaRows := stampedRows arith.rowsAfter },
    some arith)

/-- The counts of a window published by rewriting the table. -/
def rewriteArithmetic (s : ChainedTable Row) (baseOnS3 : Bool) (fold : FoldResult Row)
    (out : List Row) (stats : MergeStats) : RefreshArithmetic where
  inserts := fold.inserts
  deletes := fold.deletes
  rowsBefore :=
    -- the footer of a base on S3 is not opened for its count
    if s.chain.isEmpty then -1 else rowsBeforeChain s (if baseOnS3 then -1 else s.base.length)
  rewrite := true
  baselineRows := stats.baselineRows
  updatesApplied := stats.updatesApplied
  deletesSkipped := stats.deletesSkipped
  insertsEmitted := stats.insertsEmitted
  rowsWritten := out.length

/-- A refresh that rewrites the table (`rewriteWithEmptyDelta`): the state before
the window is merged with its changes, and an empty pair starts the next chain
unless the table cannot have one. -/
def refreshRewrite (core : MergeCore Row) (s : ChainedTable Row) (noChain baseOnS3 : Bool)
    (fold : FoldResult Row) :
    Except DeltaError (ChainedTable Row × Option RefreshArithmetic) := do
  let (out, stats) ← (mergeBaselineImages core s.state fold.changes).mapError .merge
  let arith := rewriteArithmetic s baseOnS3 fold out stats
  let next : ChainedTable Row :=
    if noChain then { base := out }
    else { base := out, chain := [emptyTableDelta], deltaRows := out.length }
  return (next, some arith)

/-- How a refresh publishes a table. -/
inductive Publication : Type
  | pair
  | rewrite (noChain baseOnS3 : Bool)
  deriving DecidableEq, Repr

def refreshTable (core : MergeCore Row) (s : ChainedTable Row) (how : Publication)
    (fold : FoldResult Row) : Except DeltaError (ChainedTable Row × Option RefreshArithmetic) :=
  match how with
  | .pair => refreshPair core s fold
  | .rewrite noChain baseOnS3 => refreshRewrite core s noChain baseOnS3 fold

/-! ## The window's events -/

section Events

variable {codec : KeyCodec Row} {ev : ResultRow Row} {opts : FoldOptions} {res : FoldResult Row}
  {schema table : String} {pages : List (List (ResultRow Row))} {t : String → Option Row}
  {history arrivals : List (ResultRow Row)}

theorem FoldResult.fold_counts (opts : FoldOptions) (res : FoldResult Row) (ev : ResultRow Row) :
    (res.fold opts ev).inserts = res.inserts ∧ (res.fold opts ev).deletes = res.deletes := by
  unfold FoldResult.fold
  cases opts.touched <;>
  · dsimp only [Bool.false_eq_true, if_false, if_true]
    split
    · split <;> exact ⟨rfl, rfl⟩
    · exact ⟨rfl, rfl⟩

theorem FoldResult.foldl_fold_counts (opts : FoldOptions) (res : FoldResult Row)
    (evs : List (ResultRow Row)) :
    (evs.foldl (FoldResult.fold opts) res).inserts = res.inserts ∧
      (evs.foldl (FoldResult.fold opts) res).deletes = res.deletes := by
  induction evs generalizing res with
  | nil => exact ⟨rfl, rfl⟩
  | cons ev rest ih =>
    rw [foldl_cons, (ih _).1, (ih _).2]
    exact FoldResult.fold_counts opts res ev

def countType (type : EventType) (evs : List (ResultRow Row)) : ℕ :=
  evs.countP fun ev => ev.eventType = type

/-- The fold counts an event once, by its own type, split or not. -/
theorem foldEvent_counts {res' : FoldResult Row}
    (ok : foldEvent codec schema table opts res ev = .ok res') :
    res'.inserts = res.inserts + countType .insert [ev] ∧
      res'.deletes = res.deletes + countType .delete [ev] := by
  unfold foldEvent at ok
  obtain ⟨⟨⟩, -, ok⟩ := Except.bind_eq_ok ok
  obtain ⟨halves, -, ok⟩ := Except.bind_eq_ok ok
  have counted : ((res.observeImages codec ev).count ev).inserts =
        res.inserts + countType .insert [ev] ∧
      ((res.observeImages codec ev).count ev).deletes =
        res.deletes + countType .delete [ev] := by
    obtain ⟨_, _, framed⟩ := res.observeImages_frame ev
    rw [framed]
    unfold FoldResult.count countType
    cases type : ev.eventType <;> simp [type]
  cases halves with
  | none =>
    cases ok
    obtain ⟨inserts, deletes⟩ :=
      FoldResult.fold_counts opts ((res.observeImages codec ev).count ev) ev
    exact ⟨inserts.trans counted.1, deletes.trans counted.2⟩
  | some halves =>
    cases ok
    obtain ⟨inserts, deletes⟩ :=
      FoldResult.foldl_fold_counts opts ((res.observeImages codec ev).count ev) halves
    exact ⟨inserts.trans counted.1, deletes.trans counted.2⟩

theorem foldPage_counts {page : List (ResultRow Row)} {res' : FoldResult Row}
    (ok : foldPage codec schema table none opts res page = .ok res') :
    res'.inserts = res.inserts + countType .insert page ∧
      res'.deletes = res.deletes + countType .delete page := by
  induction page generalizing res with
  | nil =>
    cases ok
    exact ⟨rfl, rfl⟩
  | cons ev rest ih =>
    unfold foldPage at ok
    rw [foldlM_cons] at ok
    obtain ⟨mid, midOk, ok⟩ := Except.bind_eq_ok ok
    obtain ⟨midInserts, midDeletes⟩ := foldEvent_counts midOk
    obtain ⟨inserts, deletes⟩ := ih ok
    rw [inserts, deletes, midInserts, midDeletes]
    simp only [countType, countP_cons, countP_nil]
    omega

theorem foldPages_counts (ok : foldPages codec schema table none opts pages = .ok res) :
    res.inserts = countType .insert pages.flatten ∧
      res.deletes = countType .delete pages.flatten := by
  suffices h : ∀ start : FoldResult Row,
      pages.foldlM (foldPage codec schema table none opts) start = .ok res →
        res.inserts = start.inserts + countType .insert pages.flatten ∧
          res.deletes = start.deletes + countType .delete pages.flatten by
    simpa using h {} ok
  clear ok
  induction pages with
  | nil =>
    intro start ok
    cases ok
    exact ⟨rfl, rfl⟩
  | cons page rest ih =>
    intro start ok
    rw [foldlM_cons] at ok
    obtain ⟨mid, midOk, ok⟩ := Except.bind_eq_ok ok
    obtain ⟨midInserts, midDeletes⟩ := foldPage_counts midOk
    obtain ⟨inserts, deletes⟩ := ih mid ok
    rw [inserts, deletes, midInserts, midDeletes]
    simp only [countType, flatten_cons, countP_append]
    omega

/-- One valid event adds a row, removes one, or keeps their number. -/
theorem replayEvent_length {table table' : List Row} (lists : Lists codec.keyOf table t)
    (valid : replayEvent codec table ev = some table') :
    table'.length + countType .delete [ev] = table.length + countType .insert [ev] := by
  unfold replayEvent at valid
  split at valid
  · rename_i type _
    split at valid
    · cases valid
    · cases valid
      simp [countType, type]
  · rename_i type _
    split at valid
    · cases valid
    · split at valid
      · cases valid
      · cases valid
        simp [countType, type]
  · rename_i type
    split at valid
    · rename_i held
      cases valid
      rw [holdsKey, any_eq_true] at held
      obtain ⟨r, member, same⟩ := held
      -- the row under the key is the one row the DELETE takes away
      have one := (map_replace_perm lists.nodup ⟨r, member, by simpa using same⟩ r).length_eq
      simp only [length_map, length_append, length_singleton] at one
      simp [countType, type, one]
    · cases valid
  · cases valid

/-- A valid history changes the number of rows by its INSERTs less its DELETEs. -/
theorem replay_length {table table' : List Row} (lists : Lists codec.keyOf table t)
    (captured : ∀ ev ∈ history, Captured codec ev)
    (notRefused : ∀ ev ∈ history, ¬ Refused codec ev)
    (valid : replay codec table history = some table') :
    table'.length + countType .delete history = table.length + countType .insert history := by
  induction history generalizing table t with
  | nil =>
    cases valid
    rfl
  | cons ev rest ih =>
    unfold replay at valid
    rw [foldlM_cons] at valid
    obtain ⟨mid, midValid, valid⟩ := Option.bind_eq_some_iff.mp valid
    have step := replayEvent_length lists midValid
    have midLists := replayEvent_lists lists (captured ev (by simp))
      (notRefused ev (by simp)) midValid
    have others := ih midLists (fun ev' member => captured ev' (by simp [member]))
      (fun ev' member => notRefused ev' (by simp [member])) valid
    simp only [countType, countP_cons, countP_nil] at step others ⊢
    omega

/-! ## A valid window -/

/-- How the events of a window reach the fold: in any order where the binary log
tells it, or in the order they happened. -/
def ArrivesInOrder (history arrivals : List (ResultRow Row)) : Prop :=
  ((history.Pairwise fun a b => a.stamp ≤ b.stamp) ∧ (history.map ResultRow.eventID).Nodup ∧
    (∀ ev ∈ history, hasBinlogCoordinate ev = true) ∧ arrivals.Perm history) ∨
  (arrivals = history ∧ history.Pairwise fun a b => laterInBinlog a b = false)

theorem ArrivesInOrder.perm (arrival : ArrivesInOrder history arrivals) :
    arrivals.Perm history := by
  rcases arrival with ⟨-, -, -, perm⟩ | ⟨same, -⟩
  · exact perm
  · rw [same]

theorem laterInBinlog_filed {ev' w w' : ResultRow Row} (inFiled : w ∈ filed codec ev)
    (inFiled' : w' ∈ filed codec ev') :
    laterInBinlog (retainEvent w) (retainEvent w') = laterInBinlog ev ev' := by
  obtain ⟨_, _, _, _, _, rfl⟩ := filed_frame inFiled
  obtain ⟨_, _, _, _, _, rfl⟩ := filed_frame inFiled'
  rfl

theorem laterInBinlog_self (ev : ResultRow Row) : laterInBinlog ev ev = false := by
  unfold laterInBinlog
  simp

theorem filedChanges_inOrder (inOrder : history.Pairwise fun a b => laterInBinlog a b = false) :
    (filedChanges codec history).Pairwise fun a b => laterInBinlog a b = false := by
  unfold filedChanges
  rw [pairwise_map, pairwise_flatMap]
  refine ⟨fun ev _ => ?_, inOrder.imp fun {a b} notLater w inA w' inB => ?_⟩
  · refine pairwise_of_forall_mem_list fun w inFiled w' inFiled' => ?_
    rw [laterInBinlog_filed inFiled inFiled', laterInBinlog_self]
  · rw [laterInBinlog_filed inA inB, notLater]

/-- The fold's overlay is the replayed table, however the events arrive. -/
theorem ArrivesInOrder.overlay_eq (arrival : ArrivesInOrder history arrivals)
    (captured : ∀ ev ∈ history, Captured codec ev)
    (notRefused : ∀ ev ∈ history, ¬ Refused codec ev) (t : String → Option Row) :
    overlay (ChangeMap.writes ((filedChanges codec arrivals).foldl
        (keepLater ResultRow.pkValues laterInBinlog) ∅)) t =
      applyWrites ResultRow.pkValues ResultRow.image t (history.flatMap (filed codec)) := by
  rcases arrival with ⟨sorted, ids, coords, perm⟩ | ⟨rfl, inOrder⟩
  · exact overlay_foldl_eq_replay (stamp_strict sorted ids) coords captured notRefused perm t
  · rw [← applyWrites_filedChanges]
    exact overlay_foldl_keepLater_of_inOrder (filedChanges_inOrder inOrder) t

/-- What a refresh gets from the fold of a window that takes the table `before`
to `after`. -/
structure FoldsTo (codec : KeyCodec Row) (before after : List Row) (fold : FoldResult Row) :
    Prop where
  keyed : ImagesKeyed codec fold.changes
  lists : ∀ t, Lists codec.keyOf before t →
    Lists codec.keyOf after (overlay fold.changes.writes t)
  balance : after.length + fold.deletes = before.length + fold.inserts

theorem foldsTo_of_replay {sv : Option (Normalizer Row)} {touched : Bool}
    {before after : List Row} (beforeKeyed : ∀ r ∈ before, ∃ k, codec.keyOf r = some k)
    (distinct : (before.map codec.keyOf).Nodup)
    (arrival : ArrivesInOrder history (pages.flatten.filterMap (normalized sv)))
    (captured : ∀ ev ∈ history, Captured codec ev)
    (valid : replay codec before history = some after) {fold : FoldResult Row}
    (ok : foldPages codec schema table sv { touched := touched } pages = .ok fold) :
    FoldsTo codec before after fold := by
  have ok' := foldPages_normalized ok
  have flat : (pages.map (filterMap (normalized sv))).flatten =
      pages.flatten.filterMap (normalized sv) := by
    rw [filterMap_flatten]
  have notRefused' := notRefused_of_foldPages_ok ok'
  have captured' : ∀ ev ∈ (pages.map (filterMap (normalized sv))).flatten,
      Captured codec ev := by
    intro ev member
    rw [flat] at member
    exact captured ev (arrival.perm.mem_iff.mp member)
  have notRefused : ∀ ev ∈ history, ¬ Refused codec ev := by
    intro ev member
    exact notRefused' ev (by rw [flat]; exact arrival.perm.mem_iff.mpr member)
  obtain ⟨fold', foldOk, changes⟩ :=
    foldPages_ok schema table { touched := touched } rfl captured' notRefused'
  rw [ok'] at foldOk
  cases foldOk
  have counts := foldPages_counts ok'
  rw [flat] at changes counts
  refine ⟨?_, fun t lists => ?_, ?_⟩
  · rw [changes, ← flat]
    exact imagesKeyed_foldl captured' notRefused'
  · rw [changes, arrival.overlay_eq captured notRefused t]
    exact replay_lists lists captured notRefused valid
  · have lengths := replay_length (lists_tableOf beforeKeyed distinct) captured notRefused valid
    rw [counts.1, counts.2]
    unfold countType at lengths ⊢
    rw [arrival.perm.countP_eq, arrival.perm.countP_eq]
    exact lengths

end Events

/-! ## The counts of a merge -/

/-- The rows a merge read. -/
def MergeStats.read (st : MergeStats) : ℕ := st.baselineRows + st.updatesApplied + st.deletesSkipped

/-- The rows a merge wrote. -/
def MergeStats.written (st : MergeStats) : ℕ :=
  st.baselineRows + st.updatesApplied + st.insertsEmitted

theorem MergeState.claim_counts {codec : KeyCodec Row} (st : MergeState Row) {ev : ResultRow Row}
    (keyed : ImageKeyed codec ev) :
    (st.claim ev).stats.read = st.stats.read + 1 ∧
      (st.claim ev).emitted.length + st.stats.written =
        st.emitted.length + (st.claim ev).stats.written := by
  unfold ImageKeyed at keyed
  unfold MergeState.claim MergeStats.read MergeStats.written
  cases type : ev.eventType with
  | delete =>
    dsimp only
    omega
  | insert | update =>
    rw [type] at keyed
    obtain ⟨after, ha, -⟩ := keyed
    rw [ha]
    simp only [length_append, length_singleton]
    omega
  | _ =>
    rw [type] at keyed
    exact keyed.elim

/-- Every pending change is one a merge applies. -/
def PendingKeyed (codec : KeyCodec Row) (changes : ChangeMap Row) : Prop :=
  ∀ k ev, changes.lookup k = some ev → ImageKeyed codec ev

theorem scanBaselineRow_counts (whole : core.owns = none) {st st' : MergeState Row}
    (keyed : PendingKeyed core.codec st.changes) {row : Row}
    (ok : scanBaselineRow core st row = .ok st') :
    PendingKeyed core.codec st'.changes ∧ st'.stats.read = st.stats.read + 1 ∧
      st'.emitted.length + st.stats.written = st.emitted.length + st'.stats.written := by
  unfold scanBaselineRow at ok
  obtain ⟨pkMap, -, ok⟩ := Except.bind_eq_ok ok
  dsimp only at ok
  split at ok
  · cases ok
  · have owned : core.owned (core.codec.buildPKValues pkMap) = true := by
      rw [MergeCore.owned, whole]
    rw [owned] at ok
    simp only [Bool.not_true, Bool.false_eq_true, if_false] at ok
    split at ok
    · rename_i ev held
      cases ok
      obtain ⟨read, written⟩ := MergeState.claim_counts
        { st with changes := st.changes.erase (core.codec.buildPKValues pkMap) } (keyed _ ev held)
      refine ⟨?_, read, written⟩
      intro k ev' held'
      rw [MergeState.claim_changes] at held'
      by_cases same : k = core.codec.buildPKValues pkMap
      · rw [same, AList.lookup_erase] at held'
        cases held'
      · rw [AList.lookup_erase_ne same] at held'
        exact keyed k ev' held'
    · cases ok
      refine ⟨keyed, ?_, ?_⟩
      · simp only [MergeStats.read]
        omega
      · simp only [MergeStats.written, length_append, length_singleton]
        omega

theorem scanBaselineQuery_counts (whole : core.owns = none) {st st' : MergeState Row}
    (keyed : PendingKeyed core.codec st.changes) {rows : List Row}
    (ok : scanBaselineQuery core st rows = .ok st') :
    st'.stats.read = st.stats.read + rows.length ∧
      st'.emitted.length + st.stats.written = st.emitted.length + st'.stats.written := by
  induction rows generalizing st with
  | nil =>
    cases ok
    exact ⟨rfl, rfl⟩
  | cons row rest ih =>
    unfold scanBaselineQuery at ok
    rw [foldlM_cons] at ok
    obtain ⟨mid, midOk, ok⟩ := Except.bind_eq_ok ok
    obtain ⟨midKeyed, midRead, midWritten⟩ := scanBaselineRow_counts whole keyed midOk
    obtain ⟨read, written⟩ := ih midKeyed ok
    rw [length_cons]
    omega

theorem MergeState.emitLeftover_counts (st : MergeState Row) (pk : String) :
    (st.emitLeftover pk).stats.read = st.stats.read ∧
      (st.emitLeftover pk).emitted.length + st.stats.written =
        st.emitted.length + (st.emitLeftover pk).stats.written := by
  unfold MergeState.emitLeftover
  split
  · exact ⟨rfl, rfl⟩
  · split
    · exact ⟨rfl, rfl⟩
    · split
      · exact ⟨rfl, rfl⟩
      · refine ⟨rfl, ?_⟩
        simp only [MergeStats.written, length_append, length_singleton]
        omega

theorem foldl_emitLeftover_counts (pks : List String) (st : MergeState Row) :
    (pks.foldl MergeState.emitLeftover st).stats.read = st.stats.read ∧
      (pks.foldl MergeState.emitLeftover st).emitted.length + st.stats.written =
        st.emitted.length + (pks.foldl MergeState.emitLeftover st).stats.written := by
  induction pks generalizing st with
  | nil => exact ⟨rfl, rfl⟩
  | cons pk rest ih =>
    obtain ⟨read, written⟩ := MergeState.emitLeftover_counts st pk
    obtain ⟨restRead, restWritten⟩ := ih (st.emitLeftover pk)
    rw [foldl_cons]
    omega

/-- A merge's counters add up to the rows it read and to the rows it wrote. -/
theorem mergeBaselineImages_counts (whole : core.owns = none) {baseline out : List Row}
    {changes : ChangeMap Row} {stats : MergeStats} (keyed : ImagesKeyed core.codec changes)
    (ok : mergeBaselineImages core baseline changes = .ok (out, stats)) :
    stats.read = baseline.length ∧ stats.written = out.length := by
  unfold mergeBaselineImages at ok
  obtain ⟨st, scanOk, ok⟩ := Except.bind_eq_ok ok
  cases ok
  obtain ⟨read, written⟩ := scanBaselineQuery_counts whole
    (fun k ev held => (keyed k ev held).2) scanOk
  obtain ⟨leftRead, leftWritten⟩ :=
    foldl_emitLeftover_counts (st.changes.keys.insertionSort (· ≤ ·)) st
  have zeroRead : ({} : MergeStats).read = 0 := rfl
  have zeroWritten : ({} : MergeStats).written = 0 := rfl
  unfold emitLeftoverChanges
  dsimp only at read written
  rw [length_nil] at written
  omega

/-! ## The counts of a pair -/

section Pair

variable {codec : KeyCodec Row} {changes : ChangeMap Row}

theorem ImagesKeyed.mem_keys_iff (changes : ChangeMap Row) (k : String) :
    k ∈ changes.keys ↔ changes.writes k ≠ none := by
  rw [← AList.mem_keys, ← AList.lookup_isSome, Option.isSome_iff_ne_none]
  simp [ChangeMap.writes, writesOf]

theorem emitWindowChanges_perm_keys (keyed : ImagesKeyed codec changes) :
    ((emitWindowChanges changes).1.map UpsertRow.pk).Perm changes.keys := by
  rw [perm_ext_iff_of_nodup (emitWindowChanges_nodup keyed) (AList.keys_nodup changes)]
  exact fun k => mem_keys_emitWindowChanges keyed

theorem length_emitWindowChanges (keyed : ImagesKeyed codec changes) :
    (emitWindowChanges changes).1.length = changes.keys.length := by
  rw [← (emitWindowChanges_perm_keys keyed).length_eq, length_map]

/-- The rows of a pair that are no tombstones are the keys the window leaves alive. -/
theorem alive_emitWindowChanges (keyed : ImagesKeyed codec changes) :
    (emitWindowChanges changes).1.length = (emitWindowChanges changes).2 +
      changes.keys.countP fun k => (changes.writes k).join.isSome := by
  have alive : (changes.keys.countP fun k => (changes.writes k).join.isSome) =
      (emitWindowChanges changes).1.countP fun u => decide ¬ u.version.isNone = true := by
    rw [← (emitWindowChanges_perm_keys keyed).countP_eq, countP_map]
    apply countP_congr
    intro u member
    rw [Function.comp_apply, (mem_emitWindowChanges keyed).mp member]
    cases u.version <;> simp
  rw [alive, length_eq_countP_add_countP fun u : UpsertRow Row => u.version.isNone]
  rfl

/-- The lookup finds the touched keys the base holds. -/
theorem length_touchedPositions {base : List Row} {t : String → Option Row}
    (lists : Lists codec.keyOf base t) (changes : ChangeMap Row) :
    (touchedPositions codec.keyOf base changes).length =
      changes.keys.countP fun k => (t k).isSome := by
  rw [← lists.countP_keys (AList.keys_nodup changes)]
  unfold touchedPositions
  rw [length_map, ← countP_eq_length_filter]
  conv_rhs => rw [← zipIdx_map_fst 0 base, countP_map]
  apply countP_congr
  intro x _
  rw [Function.comp_apply]
  cases codec.keyOf x.1 with
  | none => simp
  | some k => simp [AList.lookup_isSome, AList.mem_keys]

end Pair

/-! ## Every refresh closes -/

/-- A base with distinct keys, a chain earlier refreshes wrote beside it, and a
count that is missing or right. -/
structure ChainedTable.WellKept (codec : KeyCodec Row) (s : ChainedTable Row) : Prop where
  keyed : ∀ r ∈ s.base, ∃ k, codec.keyOf r = some k
  distinct : (s.base.map codec.keyOf).Nodup
  published : PublishedChain codec s.base s.chain
  counted : s.deltaRows = -1 ∨ s.deltaRows = s.state.length

section Refresh

variable {codec : KeyCodec Row} {s : ChainedTable Row}

theorem ChainedTable.WellKept.lists (kept : s.WellKept codec) :
    Lists codec.keyOf s.state (overlay (versionsOf (tableDeltaLatest s.chain))
      (tableOf codec.keyOf s.base)) :=
  tableDeltaState_lists (lists_tableOf kept.keyed kept.distinct) kept.published.toChainOver

/-- A chain that holds no row leaves the base as it is. -/
theorem ChainedTable.WellKept.length_state (kept : s.WellKept codec)
    (empty : tableDeltaLatest s.chain = []) : s.state.length = s.base.length := by
  have lists := kept.lists
  rw [empty] at lists
  exact (lists.perm (lists_tableOf kept.keyed kept.distinct)).length_eq

theorem ChainedTable.WellKept.rowsBeforeChain_eq (kept : s.WellKept codec) {baseRows : ℤ}
    (footer : baseRows = -1 ∨ baseRows = s.base.length) :
    rowsBeforeChain s baseRows = -1 ∨ rowsBeforeChain s baseRows = s.state.length := by
  unfold rowsBeforeChain
  split
  · exact kept.counted
  · split
    · rename_i f single
      split
      · rename_i first
        rcases footer with unread | read
        · exact .inl unread
        · right
          have empty : tableDeltaLatest s.chain = [] := by
            rw [single, tableDeltaLatest_singleton]
            exact isEmpty_iff.mp first.2
          rw [kept.length_state empty]
          exact read
      · exact .inl rfl
    · exact .inl rfl

theorem nextSeq_eq_zero {chain : List (TableDeltaPair Row)} : nextSeq chain = 0 ↔ chain = [] := by
  unfold nextSeq
  rcases eq_nil_or_concat' chain with rfl | ⟨older, last, rfl⟩
  · simp
  · simp

/-- Whether a pair over the chain starts from no count. -/
def ChainedTable.uncounted (s : ChainedTable Row) : Bool :=
  !s.chain.isEmpty && decide (rowsBeforeChain s s.base.length < 0)

theorem ChainedTable.WellKept.rowsBeforeWindow_eq (kept : s.WellKept codec) :
    rowsBeforeWindow s (nextSeq s.chain) = if s.uncounted then -1 else (s.state.length : ℤ) := by
  unfold rowsBeforeWindow ChainedTable.uncounted
  by_cases empty : s.chain = []
  · have whole := kept.length_state (by rw [empty]; rfl)
    simp [empty, nextSeq, whole]
  · have later : ¬ (nextSeq s.chain = 0 ∨ s.chain.isEmpty = true) := by
      simp [nextSeq_eq_zero, empty]
    rw [if_neg later]
    have nonempty : s.chain.isEmpty = false := by simpa using empty
    rcases kept.rowsBeforeChain_eq (.inr rfl) with unknown | known
    · simp [nonempty, unknown]
    · simp [nonempty, known]

variable {after : List Row} {fold : FoldResult Row}

/-- The numbers of a pair close, and its count is the table's after the window. -/
theorem pairArithmetic_closes (kept : s.WellKept codec) (folds : FoldsTo codec s.state after fold)
    (pair : TableDeltaPair Row) (seq : pair.seq = nextSeq s.chain)
    (posdel : pair.posdel = touchedPositions codec.keyOf s.base fold.changes)
    (upserts : pair.upserts = (emitWindowChanges fold.changes).1) :
    (pairArithmetic s fold pair).problems = [] ∧
      (pairArithmetic s fold pair).rowsAfter =
        if s.uncounted then -1 else (after.length : ℤ) := by
  have baseLists := lists_tableOf kept.keyed kept.distinct
  have lists := kept.lists
  have keys := length_emitWindowChanges folds.keyed
  have alive := alive_emitWindowChanges folds.keyed
  have dead := length_touchedPositions baseLists fold.changes
  have written := ImagesKeyed.mem_keys_iff fold.changes
  have balance := folds.balance
  have rows := lists.length_overlay (folds.lists _ lists) (AList.keys_nodup fold.changes) written
    fun k r write => folds.keyed.keyOf_image write
  have moved := lists.length_overlay_balance (folds.lists _ lists)
    (AList.keys_nodup fold.changes) written fun k r write => folds.keyed.keyOf_image write
  have aliveBefore := countP_le_length (l := fold.changes.keys) (p := fun k =>
    (overlay (versionsOf (tableDeltaLatest s.chain)) (tableOf codec.keyOf s.base) k).isSome)
  have found := countP_le_length (l := fold.changes.keys)
    (p := fun k => (tableOf codec.keyOf s.base k).isSome)
  have atStart : nextSeq s.chain = 0 →
      (touchedPositions codec.keyOf s.base fold.changes).length =
        fold.changes.keys.countP fun k => (overlay (versionsOf (tableDeltaLatest s.chain))
          (tableOf codec.keyOf s.base) k).isSome := by
    intro first
    rw [dead, nextSeq_eq_zero.mp first]
    rfl
  have before := kept.rowsBeforeWindow_eq
  have sizes : (pairArithmetic s fold pair).rowsAfter =
      if s.uncounted then -1 else (after.length : ℤ) := by
    unfold RefreshArithmetic.rowsAfter pairArithmetic
    simp only [Bool.false_eq_true, if_false, seq, before]
    split <;> split <;> omega
  refine ⟨?_, sizes⟩
  unfold RefreshArithmetic.problems RefreshArithmetic.pairProblems
  rw [sizes]
  simp only [pairArithmetic, seq, posdel, upserts, before, Bool.false_eq_true, if_false, if_true]
  generalize (touchedPositions codec.keyOf s.base fold.changes).length = deadRows at *
  generalize (emitWindowChanges fold.changes).1.length = ups at *
  rw [if_neg (by omega), if_neg (by omega), if_neg (by omega), if_neg (by omega), if_neg]
  · rfl
  · split <;> omega

theorem stampedRows_eq {rows : ℤ} {n : ℕ} {uncounted : Bool}
    (eq : rows = if uncounted then -1 else (n : ℤ)) :
    stampedRows rows = -1 ∨ stampedRows rows = n := by
  unfold stampedRows
  split
  · split at eq
    · omega
    · exact .inr eq
  · exact .inl rfl

/-- What a refresh of a well kept table leaves: the table after the window, well
kept again, and counts that close. -/
structure Closes (codec : KeyCodec Row) (s : ChainedTable Row) (how : Publication)
    (after : List Row) (fold : FoldResult Row) (s' : ChainedTable Row)
    (arith : Option RefreshArithmetic) : Prop where
  kept : s'.WellKept codec
  perm : s'.state.Perm after
  counts : ∀ a, arith = some a → a.problems = [] ∧
    a.rowsAfter = if how = .pair ∧ s.uncounted then -1 else (after.length : ℤ)
  idle : arith = none ↔ how = .pair ∧ s.chain ≠ [] ∧ fold.changes.keys = []
  stamped : s.uncounted = false → s'.uncounted = false

theorem ChainedTable.uncounted_of_stamped {s : ChainedTable Row} (stamped : 0 ≤ s.deltaRows) :
    s.uncounted = false := by
  unfold ChainedTable.uncounted rowsBeforeChain
  simp [stamped]

theorem refreshPair_closes (schema table : String) (kept : s.WellKept codec)
    (folds : FoldsTo codec s.state after fold) :
    ∃ s' arith, refreshPair { codec := codec, schema := schema, table := table } s fold =
        .ok (s', arith) ∧ Closes codec s .pair after fold s' arith := by
  have lookup : lookupBasePositions { codec := codec, schema := schema, table := table } s.base
      fold.changes = .ok (touchedPositions codec.keyOf s.base fold.changes) :=
    lookupBasePositions_ok (fun _ _ canon => folds.keyed.keysSpelled.lookup_alt canon) kept.keyed
  have lists := kept.lists
  have afterLists := folds.lists _ lists
  unfold refreshPair
  rw [lookup]
  simp only [Except.mapError, bind, Except.bind]
  by_cases idle : (!s.chain.isEmpty && fold.changes.keys.isEmpty) = true
  · rw [if_pos idle]
    rw [Bool.and_eq_true, List.isEmpty_iff, Bool.not_eq_true', List.isEmpty_eq_false_iff] at idle
    refine ⟨s, none, rfl, kept, ?_, ?_, ?_, fun counted => counted⟩
    · have nothing : fold.changes.writes = fun _ => none := by
        funext k
        have notWritten := (ImagesKeyed.mem_keys_iff fold.changes k).not
        rw [idle.2] at notWritten
        simpa using notWritten
      rw [nothing, overlay_none] at afterLists
      exact lists.perm afterLists
    · intro a same
      cases same
    · simp [idle.1, idle.2]
  · rw [if_neg idle]
    unfold writeTableDelta
    rw [writePosdel_ok (touchedPositions_ascending _ _ _) touchedPositions_nonneg]
    obtain ⟨problems, rowsAfter⟩ := pairArithmetic_closes kept folds
      { seqLo := nextSeq s.chain
        seq := nextSeq s.chain
        posdel := touchedPositions codec.keyOf s.base fold.changes
        upserts := (emitWindowChanges fold.changes).1 } rfl rfl rfl
    have published := kept.published.concat folds.keyed
    have nextLists := tableDeltaState_lists (lists_tableOf kept.keyed kept.distinct)
      published.toChainOver
    rw [versionsOf_latest_concat published.toChainOrdered, versionsOf_emitWindowChanges folds.keyed,
      overlay_supersede] at nextLists
    have perm := nextLists.perm afterLists
    refine ⟨_, _, rfl, ⟨kept.keyed, kept.distinct, published, ?_⟩, perm, ?_, ?_, ?_⟩
    · dsimp only [ChainedTable.state]
      rw [perm.length_eq]
      exact stampedRows_eq rowsAfter
    · intro a same
      cases same
      refine ⟨problems, ?_⟩
      rw [rowsAfter]
      simp
    · rw [Bool.and_eq_true, List.isEmpty_iff, Bool.not_eq_true', List.isEmpty_eq_false_iff] at idle
      simpa using idle
    · intro counted
      rw [counted] at rowsAfter
      apply ChainedTable.uncounted_of_stamped
      dsimp only [stampedRows]
      rw [rowsAfter]
      simp

theorem refreshRewrite_closes (schema table : String) (noChain baseOnS3 : Bool)
    (kept : s.WellKept codec) (folds : FoldsTo codec s.state after fold) :
    ∃ s' arith, refreshRewrite { codec := codec, schema := schema, table := table } s noChain
        baseOnS3 fold = .ok (s', arith) ∧
      Closes codec s (.rewrite noChain baseOnS3) after fold s' arith := by
  have lists := kept.lists
  obtain ⟨out, stats, mergeOk, outLists⟩ := mergeBaselineImages_lists
    { codec := codec, schema := schema, table := table } rfl rfl folds.keyed lists
  have perm : out.Perm after := outLists.perm (folds.lists _ lists)
  obtain ⟨read, written⟩ := mergeBaselineImages_counts rfl folds.keyed mergeOk
  have balance := folds.balance
  rw [← perm.length_eq] at balance
  have chainRows : (rewriteArithmetic s baseOnS3 fold out stats).rowsBefore = -1 ∨
      (rewriteArithmetic s baseOnS3 fold out stats).rowsBefore = s.state.length := by
    unfold rewriteArithmetic
    dsimp only
    split
    · exact .inl rfl
    · refine kept.rowsBeforeChain_eq ?_
      split
      · exact .inl rfl
      · exact .inr rfl
  have problems : (rewriteArithmetic s baseOnS3 fold out stats).problems = [] := by
    unfold MergeStats.read at read
    unfold MergeStats.written at written
    refine RefreshArithmetic.rewriteProblems_eq_nil ?_ ?_ fun known => ?_
    · simp only [rewriteArithmetic]
      omega
    · simp only [rewriteArithmetic]
      omega
    · rcases chainRows with unknown | counted
      · omega
      · rw [counted]
        simp only [RefreshArithmetic.knownBefore, rewriteArithmetic, if_true]
        omega
  have outKeyed := outLists.keyed
  have stateOf : ∀ chain : List (TableDeltaPair Row), tableDeltaLatest chain = [] →
      PublishedChain codec out chain → (tableDeltaState out chain).Perm out := by
    intro chain empty published
    have stateLists := tableDeltaState_lists (lists_tableOf outKeyed outLists.nodup)
      published.toChainOver
    rw [empty] at stateLists
    exact stateLists.perm (lists_tableOf outKeyed outLists.nodup)
  unfold refreshRewrite
  dsimp only [ChainedTable.state] at mergeOk
  rw [ChainedTable.state, mergeOk]
  refine ⟨_, _, rfl, ?_, ?_, ?_, by simp, ?_⟩
  · cases noChain with
    | true => exact ⟨outKeyed, outLists.nodup, publishedChain_nil codec out, .inl rfl⟩
    | false =>
      have published := publishedChain_empty codec out
      refine ⟨outKeyed, outLists.nodup, published, .inr ?_⟩
      have same := (stateOf [emptyTableDelta] rfl published).length_eq
      simp [ChainedTable.state, same]
  · cases noChain with
    | true => exact (stateOf [] rfl (publishedChain_nil codec out)).trans perm
    | false => exact (stateOf [emptyTableDelta] rfl (publishedChain_empty codec out)).trans perm
  · intro a same
    cases same
    refine ⟨problems, ?_⟩
    simp [RefreshArithmetic.rowsAfter, rewriteArithmetic, perm.length_eq]
  · intro _
    cases noChain with
    | true => rfl
    | false => exact ChainedTable.uncounted_of_stamped (by simp)

theorem refreshTable_ok (schema table : String) (how : Publication) (kept : s.WellKept codec)
    (folds : FoldsTo codec s.state after fold) :
    ∃ s' arith, refreshTable { codec := codec, schema := schema, table := table } s how fold =
        .ok (s', arith) ∧ Closes codec s how after fold s' arith := by
  cases how with
  | pair => exact refreshPair_closes schema table kept folds
  | rewrite noChain baseOnS3 =>
    exact refreshRewrite_closes schema table noChain baseOnS3 kept folds

end Refresh

/-- The refresh raises no false alarm. Over a base with distinct keys, any chain
of earlier pairs and any window of events that apply to the table one after the
other, its counts close and leave the table well kept. `rowsAfter` is the number
of rows after the window, and `-1` for a pair over a chain that carries no
count. -/
theorem refreshTable_closes (codec : KeyCodec Row) (schema table : String)
    (sv : Option (Normalizer Row)) (touched : Bool) {s : ChainedTable Row}
    (kept : s.WellKept codec) {history : List (ResultRow Row)}
    {pages : List (List (ResultRow Row))}
    (arrival : ArrivesInOrder history (pages.flatten.filterMap (normalized sv)))
    (captured : ∀ ev ∈ history, Captured codec ev) {after : List Row}
    (valid : replay codec s.state history = some after) {fold : FoldResult Row}
    (ok : foldPages codec schema table sv { touched := touched } pages = .ok fold)
    (how : Publication) :
    ∃ s' arith, refreshTable { codec := codec, schema := schema, table := table } s how fold =
        .ok (s', arith) ∧ s'.WellKept codec ∧ s'.state.Perm after ∧
      (∀ a, arith = some a → a.problems = [] ∧
        a.rowsAfter = if how = .pair ∧ s.uncounted then -1 else (s'.state.length : ℤ)) ∧
      (arith = none ↔ how = .pair ∧ s.chain ≠ [] ∧ fold.changes.keys = []) := by
  have folds : FoldsTo codec s.state after fold :=
    foldsTo_of_replay kept.lists.keyed kept.lists.nodup arrival captured valid ok
  obtain ⟨s', arith, refreshOk, closes⟩ := refreshTable_ok schema table how kept folds
  refine ⟨s', arith, refreshOk, closes.kept, closes.perm, ?_, closes.idle⟩
  rw [closes.perm.length_eq]
  exact closes.counts

/-- A window that deletes key 1, inserts it again and inserts key 3. -/
def reinsertHistory : List (ResultRow (TextKey × String)) := [
  indexedEvent 1 100 .delete "1" (some (.text "1", "a")) none,
  indexedEvent 2 140 .insert "1" none (some (.text "1", "d")),
  indexedEvent 3 180 .insert "3" none (some (.text "3", "c"))]

theorem reinsertHistory_closes : ∃ fold s' a,
    foldPages textKeyCodec "s" "t" none {} [reinsertHistory] = .ok fold ∧
    refreshTable { codec := textKeyCodec, schema := "s", table := "t" }
      { base := [(.text "1", "a"), (.text "2", "b")] } .pair fold = .ok (s', some a) ∧
    a.problems = [] ∧ a.rowsAfter = 3 ∧ s'.state.length = 3 := by
  have captured : ∀ ev ∈ reinsertHistory, Captured textKeyCodec ev := by
    intro ev member
    simp only [reinsertHistory, mem_cons, not_mem_nil, or_false] at member
    rcases member with rfl | rfl | rfl <;> exact ⟨_, rfl, rfl⟩
  have kept : ChainedTable.WellKept textKeyCodec
      { base := [(.text "1", "a"), (.text "2", "b")] } :=
    ⟨fun r _ => ⟨r.1.stored, rfl⟩, by decide, publishedChain_nil _ _, .inl rfl⟩
  have valid : replay textKeyCodec
      (ChainedTable.state { base := [(.text "1", "a"), (.text "2", "b")] }) reinsertHistory =
        some [(.text "2", "b"), (.text "1", "d"), (.text "3", "c")] := by decide
  have arrival : ArrivesInOrder reinsertHistory
      ([reinsertHistory].flatten.filterMap (normalized none)) :=
    .inl ⟨by decide, by decide, by decide, by decide⟩
  have folded : ∃ fold, foldPages textKeyCodec "s" "t" none {} [reinsertHistory] = .ok fold :=
    ⟨_, rfl⟩
  obtain ⟨fold, foldOk⟩ := folded
  obtain ⟨s', arith, refreshOk, -, perm, counts, idle⟩ := refreshTable_closes textKeyCodec "s" "t"
    none false kept arrival captured valid foldOk .pair
  cases arith with
  | none => exact absurd rfl (idle.mp rfl).2.1
  | some a =>
    obtain ⟨problems, rowsAfter⟩ := counts a rfl
    have size : s'.state.length = 3 := perm.length_eq
    refine ⟨fold, s', a, foldOk, refreshOk, problems, ?_, size⟩
    rw [rowsAfter, size]
    rfl

/-- A chain whose one pair, which deletes key 1, was written before pairs were
stamped with a count. -/
def unstampedChain : ChainedTable (TextKey × String) where
  base := [(.text "1", "a"), (.text "2", "b")]
  chain := [{ seqLo := 0, seq := 0, posdel := [0], upserts := [⟨"1", none⟩] }]

theorem unstampedChain_wellKept : unstampedChain.WellKept textKeyCodec where
  keyed r _ := ⟨r.1.stored, rfl⟩
  distinct := by decide
  published := {
    ascending := pairwise_singleton _ _
    keysOnce := by decide
    dead_iff := by
      intro f member i r k atI hk
      rw [unstampedChain, mem_singleton] at member
      subst member
      match i, atI with
      | 0, atI =>
        cases atI
        cases hk
        decide
      | 1, atI =>
        cases atI
        cases hk
        decide
    imageKeyed := by
      intro f member u inUpserts r image
      rw [unstampedChain, mem_singleton] at member
      subst member
      rw [mem_singleton.mp inUpserts] at image
      cases image
    ranged := by decide }
  counted := .inl rfl

/-- A window over it that inserts key 3. -/
def insertHistory : List (ResultRow (TextKey × String)) :=
  [indexedEvent 3 180 .insert "3" none (some (.text "3", "c"))]

/-- Over such a chain the refresh cannot tell the rows after the window. -/
theorem unstampedChain_rowsAfter :
    unstampedChain.WellKept textKeyCodec ∧
    replay textKeyCodec unstampedChain.state insertHistory =
      some [(.text "2", "b"), (.text "3", "c")] ∧
    ∃ fold s' a, foldPages textKeyCodec "s" "t" none {} [insertHistory] = .ok fold ∧
      refreshTable { codec := textKeyCodec, schema := "s", table := "t" } unstampedChain .pair
        fold = .ok (s', some a) ∧
      a.rowsAfter = -1 ∧ s'.state.length = 2 := by
  exact ⟨unstampedChain_wellKept, by decide, _, _, _, rfl, rfl, rfl, rfl⟩

end Dbtrail
