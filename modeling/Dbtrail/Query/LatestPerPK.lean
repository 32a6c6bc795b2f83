import Dbtrail.Query.BinlogOrder
import Dbtrail.Query.Merge

/-!
# The latest changes of each key in binlog order

A change is dated with the start of its statement, so the last change of a row by time
can have committed before another one. `latestPerPKInBinlog` keeps the last `n` changes
of each key in the order of the binary log. Its rows are candidates: from every source
the last `n` of a key by time and the last `n` by event id, each with the span of the
key's coordinates in that source. Where the two sets of a key differ, the whole history
of the key is read.

`decideKey_rows` says that what is kept of a key is the answer of `orderByBinlog` over
all its changes, and `decideKey_refusal` that a key whose order is shown is not refused.
-/

namespace Dbtrail

open List

variable {Row : Type}

/-! ## Candidates and their spans -/

/-- The order of binlog files. The source encodes these pairs so that bytes compare as
they do. -/
def keySpanFile (r : ResultRow Row) : ℕ ×ₗ String :=
  toLex (r.binlogFile.utf8ByteSize, r.binlogFile)

def keySpanCoord (r : ResultRow Row) : ℕ ×ₗ String ×ₗ ℕ := r.startCoord.key

/-- A row of a candidate fetch, with the first file and the last coordinate of all the
changes of its key in its source. -/
structure Candidate (Row : Type) : Type where
  row : ResultRow Row
  keySpanFirst : Option (ℕ ×ₗ String) := none
  keySpanLast : Option (ℕ ×ₗ String ×ₗ ℕ) := none

def candidateOptions (opts : QueryOptions Row) : QueryOptions Row :=
  { opts with latestPerPKCandidates := true }

def fetchCandidates (pkGroup : String → String) (opts : QueryOptions Row)
    (rows : List (ResultRow Row)) : List (Candidate Row) :=
  (fetchRows pkGroup (candidateOptions opts) rows).map fun r =>
    let changes := (rows.filter opts.selects).filter fun s =>
      pkGroup s.pkValues = pkGroup r.pkValues
    ⟨r, (changes.map keySpanFile).min?, (changes.map keySpanCoord).max?⟩

/-- Fold the span of a dropped copy into the one kept. -/
def Candidate.widenKeySpan (c dup : Candidate Row) : Candidate Row :=
  { c with
    keySpanFirst := c.keySpanFirst.merge min dup.keySpanFirst
    keySpanLast := c.keySpanLast.merge max dup.keySpanLast }

def mergeCandidate (kept : List (Candidate Row)) (c : Candidate Row) : List (Candidate Row) :=
  if c.row.eventID ∈ kept.map (·.row.eventID) then
    kept.map fun k => if k.row.eventID = c.row.eventID then k.widenKeySpan c else k
  else kept ++ [c]

/-- `mergeResults` on rows that carry spans. -/
def mergeCandidates (cs : List (Candidate Row)) : List (Candidate Row) :=
  (cs.foldl mergeCandidate []).insertionSort fun a b => a.row.eventKey ≤ b.row.eventKey

/-- A candidate's span with its own coordinate. -/
def Candidate.firstFile (c : Candidate Row) : ℕ ×ₗ String :=
  (c.keySpanFirst.map (min (keySpanFile c.row))).getD (keySpanFile c.row)

def Candidate.lastCoord (c : Candidate Row) : ℕ ×ₗ String ×ₗ ℕ :=
  (c.keySpanLast.map (max (keySpanCoord c.row))).getD (keySpanCoord c.row)

structure KeySpan : Type where
  first : Option (ℕ ×ₗ String)
  last : Option (ℕ ×ₗ String ×ₗ ℕ)

def keySpan (cs : List (Candidate Row)) : KeySpan :=
  ⟨(cs.map Candidate.firstFile).min?, (cs.map Candidate.lastCoord).max?⟩

/-! ## One key -/

def orderByID (rows : List (ResultRow Row)) : List (ResultRow Row) :=
  rows.insertionSort fun a b => a.eventID ≤ b.eventID

/-- The last `n` by time and the last `n` by id of the rows of one key, in order of
time, and whether the two sets differ. -/
def latestPerPKCandidates (mine : List (ResultRow Row)) (n : ℕ) : List (ResultRow Row) × Bool :=
  if mine.length ≤ n then (mine, false)
  else
    let byTime := mine.rtake n
    let byID := (orderByID mine).rtake n
    let extra := byID.filter fun r => decide (r.eventID ∉ byTime.map ResultRow.eventID)
    if extra.isEmpty then (byTime, false)
    else
      (mine.filter fun r => decide (r.eventID ∈ (byTime ++ extra).map ResultRow.eventID), true)

def allLSN (rows : List (ResultRow Row)) : Bool :=
  rows.all fun r => r.binlogFile.toList.contains '/'

def hasCoord (rows : List (ResultRow Row)) (coord : ℕ ×ₗ String ×ₗ ℕ) : Bool :=
  rows.any fun r => keySpanCoord r == coord

/-- Why a key kept the order of its statement times. -/
inductive KeyRefusal : Type
  | severalFiles (first last : String)
  | lastNotKept (file : String)
  | receivedOutOfOrder
  | receivedAfter (idOfLater : ℕ) (later : BinlogPos) (idOfEarlier : ℕ) (earlier : BinlogPos)
  | notOrdered (decision : BinlogOrder)
  deriving DecidableEq, Repr

structure KeyDecision (Row : Type) : Type where
  rows : List (ResultRow Row)
  disagreed : Bool := false
  sorted : Bool := false
  refusal : Option KeyRefusal := none

/-- The refusal of a key whose two latest sets agree: built from files only, and the
change at its last coordinate is not among those kept. -/
def spanRefusal (proof : IDProof) (span : KeySpan) (kept : List (ResultRow Row)) :
    Option KeyRefusal :=
  match span.first, span.last with
  | some first, some last =>
      let firstFile := (ofLex first).2
      let lastFile := (ofLex (ofLex last).2).1
      if !hasCoord kept last && proof == .followFileIndexing then
        some (if firstFile ≠ lastFile then .severalFiles firstFile lastFile
          else .lastNotKept lastFile)
      else none
  | _, _ => none

/-- The refusal of a key whose positions agree with its times while its ids do not. -/
def agreesRefusal (all : List (ResultRow Row)) : KeyRefusal :=
  match (orderByID all).getLast?, all.getLast? with
  | some byID, some byTime =>
      if byID.eventID = byTime.eventID then .receivedOutOfOrder
      else .receivedAfter byID.eventID byID.startCoord byTime.eventID byTime.startCoord
  | _, _ => .receivedOutOfOrder

/-- What is kept of one key: `mine` are its candidates and `all` the changes the order is
decided over, both in order of time. -/
def decideKey (n : ℕ) (idsFollowBinlog : List (ResultRow Row) → IDProof) (span : KeySpan)
    (mine all : List (ResultRow Row)) : KeyDecision Row :=
  let cand := (latestPerPKCandidates mine n).1
  let byTime := cand.rtake n
  if allLSN cand then { rows := byTime }
  else if !(latestPerPKCandidates mine n).2 then
    { rows := byTime, refusal := spanRefusal (idsFollowBinlog cand) span byTime }
  else
    let d := orderByBinlog id idsFollowBinlog all
    match d.1.reason with
    | .sorted => { rows := d.2.rtake n, disagreed := true, sorted := true }
    | .postgres => { rows := all.rtake n, disagreed := true }
    | .agrees =>
        { rows := all.rtake n, disagreed := true, refusal := some (agreesRefusal all) }
    | _ => { rows := all.rtake n, disagreed := true, refusal := some (.notOrdered d.1) }

/-! ## All keys -/

structure LatestPerPKOrder : Type where
  disagreed : ℕ := 0
  sorted : ℕ := 0
  refused : List String := []
  warning : Option KeyRefusal := none
  deriving DecidableEq, Repr

/-- Count `pk` as kept at its answer by time. -/
def LatestPerPKOrder.refuse (o : LatestPerPKOrder) (pk : String) (why : KeyRefusal) :
    LatestPerPKOrder :=
  if pk ∈ o.refused then o
  else { o with refused := o.refused ++ [pk], warning := o.warning.or (some why) }

def LatestPerPKOrder.count (o : LatestPerPKOrder) (d : String × KeyDecision Row) :
    LatestPerPKOrder :=
  let counted : LatestPerPKOrder :=
    { o with
      disagreed := o.disagreed + d.2.disagreed.toNat
      sorted := o.sorted + d.2.sorted.toNat }
  d.2.refusal.elim counted (counted.refuse d.1)

def keyRows (pk : String) (rows : List (ResultRow Row)) : List (ResultRow Row) :=
  rows.filter fun r => r.pkValues == pk

/-- The keys of the rows, in the order they are met. A row without key values has none. -/
def distinctKeys (rows : List (ResultRow Row)) : List String :=
  (firstOfEach ResultRow.pkValues (rows.filter fun r => r.pkValues != "")).map ResultRow.pkValues

/-- The decision for every key, with `all` the changes of each that its order is decided
over. -/
def decideKeys (cs : List (Candidate Row)) (n : ℕ)
    (idsFollowBinlog : List (ResultRow Row) → IDProof) (all : String → List (ResultRow Row)) :
    List (ResultRow Row) × LatestPerPKOrder :=
  let rows := orderRows .asc (cs.map Candidate.row)
  let decided := (distinctKeys rows).map fun pk =>
    (pk, decideKey n idsFollowBinlog (keySpan (cs.filter fun c => c.row.pkValues == pk))
      (keyRows pk rows) (all pk))
  (orderRows .asc (keyRows "" rows ++ decided.flatMap fun d => d.2.rows),
    decided.foldl LatestPerPKOrder.count {})

/-- `LatestPerPKInBinlog`. Without a `history` the rows already hold every change of
every key. -/
def latestPerPKInBinlog (cs : List (Candidate Row)) (n : ℕ)
    (idsFollowBinlog : List (ResultRow Row) → IDProof)
    (history : Option (List String → Except String (List (ResultRow Row)))) :
    Except String (List (ResultRow Row) × LatestPerPKOrder) :=
  if n = 0 ∨ cs.isEmpty then .ok (cs.map Candidate.row, {})
  else
    let rows := orderRows .asc (cs.map Candidate.row)
    let disagreeing := (distinctKeys rows).filter fun pk =>
      (latestPerPKCandidates (keyRows pk rows) n).2
    match history with
    | none => .ok (decideKeys cs n idsFollowBinlog fun pk => keyRows pk rows)
    | some fetch =>
        if disagreeing = [] then .ok (decideKeys cs n idsFollowBinlog fun pk => keyRows pk rows)
        else
          (fetch disagreeing).map fun found =>
            decideKeys cs n idsFollowBinlog fun pk =>
              mergeResults (keyRows pk rows ++ keyRows pk found) 0 .asc

/-! ## One key and its history -/

theorem orderByID_perm (rows : List (ResultRow Row)) : (orderByID rows).Perm rows :=
  perm_insertionSort _ rows

theorem orderByID_sorted {rows : List (ResultRow Row)}
    (nodup : (rows.map ResultRow.eventID).Nodup) :
    (orderByID rows).Pairwise fun a b => a.eventID < b.eventID := by
  have total : Std.Total fun a b : ResultRow Row => a.eventID ≤ b.eventID :=
    ⟨fun a b => le_total a.eventID b.eventID⟩
  have trans : IsTrans (ResultRow Row) fun a b => a.eventID ≤ b.eventID :=
    ⟨fun _ _ _ => le_trans⟩
  exact pairwise_key_lt (pairwise_insertionSort _ rows)
    (((orderByID_perm rows).map _).nodup_iff.mpr nodup)

/-- `mine` are some of the changes `hist` of a key, both in order of time: at least the
last `n` by time and the last `n` by id. -/
structure HoldsLast (n : ℕ) (mine hist : List (ResultRow Row)) : Prop where
  ordered : InKeyOrder .asc hist
  ids_nodup : (hist.map ResultRow.eventID).Nodup
  sub : mine.Sublist hist
  byTime : ∀ r ∈ hist.rtake n, r ∈ mine
  byID : ∀ r ∈ (orderByID hist).rtake n, r ∈ mine

section OneKey

variable {n : ℕ} {mine hist : List (ResultRow Row)}

theorem HoldsLast.rtake_eq (holds : HoldsLast n mine hist) : mine.rtake n = hist.rtake n :=
  rtake_eq_of_sublist holds.sub (nodup_of_key_lt holds.ordered) holds.byTime

theorem HoldsLast.rtake_orderByID (holds : HoldsLast n mine hist) :
    (orderByID mine).rtake n = (orderByID hist).rtake n := by
  have sorted := orderByID_sorted holds.ids_nodup
  have sub : (orderByID mine).Sublist (orderByID hist) := by
    refine sublist_of_key_lt (orderByID_sorted ((holds.sub.map _).nodup holds.ids_nodup)) sorted ?_
    intro r member
    have listed := (orderByID_perm mine).mem_iff.mp member
    exact (orderByID_perm hist).mem_iff.mpr (holds.sub.subset listed)
  refine rtake_eq_of_sublist sub (nodup_of_key_lt sorted) fun r late => ?_
  exact (orderByID_perm mine).mem_iff.mpr (holds.byID r late)

theorem HoldsLast.perm_of_subset (holds : HoldsLast n mine hist)
    (subset : ∀ r ∈ (orderByID hist).rtake n, r ∈ hist.rtake n) :
    (hist.rtake n).Perm ((orderByID hist).rtake n) :=
  rtake_perm_of_subset (orderByID_perm hist).symm
    (nodup_of_key_lt (orderByID_sorted holds.ids_nodup)) subset

theorem candidates_subset (mine : List (ResultRow Row)) (n : ℕ) :
    ∀ r ∈ (latestPerPKCandidates mine n).1, r ∈ mine := by
  intro r member
  unfold latestPerPKCandidates at member
  dsimp only at member
  split at member
  next => exact member
  next =>
    split at member
    next => exact (drop_sublist _ _).subset member
    next => exact mem_of_mem_filter member

/-- The candidates of a key end with the last `n` by time. Where its two latest sets are
told to agree they do, and they do where the ids rise with the times. -/
theorem HoldsLast.candidates (holds : HoldsLast n mine hist) :
    (latestPerPKCandidates mine n).1.rtake n = hist.rtake n ∧
      ((latestPerPKCandidates mine n).2 = false →
        (hist.rtake n).Perm ((orderByID hist).rtake n)) ∧
      (orderByID hist = hist → (latestPerPKCandidates mine n).2 = false) := by
  unfold latestPerPKCandidates
  dsimp only
  rw [holds.rtake_orderByID, holds.rtake_eq]
  split
  next short =>
    have all : hist.rtake n = mine := by rw [← holds.rtake_eq, rtake_of_length_le short]
    refine ⟨holds.rtake_eq, fun _ => holds.perm_of_subset fun r late => ?_,
      fun _ => rfl⟩
    rw [all]
    exact holds.byID r late
  next =>
    have nodup : hist.Nodup := nodup_of_key_lt holds.ordered
    split
    next noExtra =>
      refine ⟨?_, fun _ => holds.perm_of_subset fun r late => ?_, fun _ => rfl⟩
      · refine rtake_of_length_le ?_
        rw [length_rtake]
        exact Nat.min_le_left n _
      · have held := List.filter_eq_nil_iff.mp (List.isEmpty_iff.mp noExtra) r late
        obtain ⟨s, member, same⟩ := List.mem_map.mp (by simpa using held :
          r.eventID ∈ (hist.rtake n).map ResultRow.eventID)
        have listed : r ∈ hist :=
          (orderByID_perm hist).mem_iff.mp ((List.drop_sublist _ _).subset late)
        have eq : s = r := List.inj_on_of_nodup_map holds.ids_nodup
          ((List.drop_sublist _ _).subset member) listed same
        exact eq ▸ member
    next extra =>
      refine ⟨?_, fun agree => absurd agree (by simp), ?_⟩
      · refine rtake_eq_of_sublist (List.filter_sublist.trans holds.sub) nodup fun r late => ?_
        refine List.mem_filter.mpr ⟨holds.byTime r late, ?_⟩
        exact decide_eq_true (List.mem_map_of_mem (List.mem_append_left _ late))
      · intro rises
        refine absurd ?_ extra
        rw [rises, List.isEmpty_iff, List.filter_eq_nil_iff]
        intro r late
        simpa using ⟨r, late, rfl⟩

/-- The order of a history is shown: every change has a coordinate, ids and positions
rise together, and the index vouches for its ids. -/
structure OrderShown (idsFollowBinlog : List (ResultRow Row) → IDProof)
    (rows ordered : List (ResultRow Row)) : Prop where
  perm : rows.Perm ordered
  coords : ∀ r ∈ rows, hasBinlogCoordinate r = true
  rises : ordered.Pairwise (RisesTo id)
  vouched : Vouched id idsFollowBinlog rows

theorem OrderShown.eq {idsFollowBinlog : List (ResultRow Row) → IDProof}
    {rows ordered : List (ResultRow Row)} (shown : OrderShown idsFollowBinlog rows ordered) :
    (orderByBinlog id idsFollowBinlog rows).2 = ordered :=
  orderByBinlog_of_confirmed id idsFollowBinlog shown.perm shown.coords shown.rises shown.vouched

/-- Changes stay as they came unless their order is shown, and then it is that of their ids. -/
theorem orderByBinlog_eq_or_shown (idsFollowBinlog : List (ResultRow Row) → IDProof)
    (nodup : (hist.map ResultRow.eventID).Nodup) :
    (orderByBinlog id idsFollowBinlog hist).2 = hist ∨
      OrderShown idsFollowBinlog hist (orderByID hist) := by
  rcases orderByBinlog_outcome id idsFollowBinlog hist with
    ⟨_, kept, _⟩ | ⟨_, _, coords, steps, vouched⟩
  · exact .inl kept
  · have coordsByID : ∀ r ∈ orderByID hist, hasBinlogCoordinate (id r) = true := fun r member =>
      coords r ((orderByID_perm hist).mem_iff.mp member)
    have positions := isChain_iff_pairwise.mp (isChain_of_firstStepDown id coordsByID steps)
    exact .inr ⟨(orderByID_perm hist).symm, coords, positions.and (orderByID_sorted nodup), vouched⟩

/-- Where the last `n` by time are the last `n` by id, they are the answer of
`orderByBinlog`, whatever it decides. -/
theorem rtake_orderByBinlog_of_agree (idsFollowBinlog : List (ResultRow Row) → IDProof)
    (nodup : (hist.map ResultRow.eventID).Nodup)
    (agree : (hist.rtake n).Perm ((orderByID hist).rtake n)) :
    (hist.rtake n).Perm ((orderByBinlog id idsFollowBinlog hist).2.rtake n) := by
  rcases orderByBinlog_eq_or_shown idsFollowBinlog nodup with kept | shown
  · rw [kept]
  · rwa [shown.eq]

theorem not_allLSN_of_coords {rows : List (ResultRow Row)} (nonempty : rows ≠ [])
    (coords : ∀ r ∈ rows, hasBinlogCoordinate r = true) : allLSN rows = false := by
  obtain ⟨r, member⟩ := exists_mem_of_ne_nil rows nonempty
  refine Bool.eq_false_iff.mpr fun lsn => ?_
  have slash := all_eq_true.mp lsn r member
  have binlog : r.binlogFile.toList.contains '/' = false :=
    hasBinlogCoordinate_isLSN (coords r member)
  rw [binlog] at slash
  exact Bool.false_ne_true slash

section Decision

variable {idsFollowBinlog : List (ResultRow Row) → IDProof} {span : KeySpan}
  {all : List (ResultRow Row)}

theorem HoldsLast.candidates_ne_nil (holds : HoldsLast n mine hist) (pos : n ≠ 0)
    (nonempty : hist ≠ []) : (latestPerPKCandidates mine n).1 ≠ [] := by
  intro empty
  have same := holds.candidates.1
  rw [empty] at same
  have length := congrArg length same
  rw [length_rtake, length_rtake, length_nil] at length
  have some_ := length_pos_iff.mpr nonempty
  omega

/-- What is kept of a key are the last `n` of its whole history, in the order
`orderByBinlog` puts it. -/
theorem decideKey_rows (holds : HoldsLast n mine hist) (pos : n ≠ 0) (nonempty : hist ≠ [])
    (whole : (latestPerPKCandidates mine n).2 = true → all = hist) :
    (decideKey n idsFollowBinlog span mine all).rows.Perm
      ((orderByBinlog id idsFollowBinlog hist).2.rtake n) := by
  obtain ⟨time, agree, -⟩ := holds.candidates
  unfold decideKey
  dsimp only
  rw [time]
  split
  next lsn =>
    rcases orderByBinlog_outcome id idsFollowBinlog hist with ⟨-, kept, -⟩ | ⟨-, -, coords, -⟩
    · rw [kept]
    · have binlog := not_allLSN_of_coords (holds.candidates_ne_nil pos nonempty) fun r member =>
        coords r (holds.sub.subset (candidates_subset mine n r member))
      exact absurd (binlog.symm.trans lsn) Bool.false_ne_true
  next =>
    split
    next agreed =>
      exact rtake_orderByBinlog_of_agree idsFollowBinlog holds.ids_nodup
        (agree (by simpa using agreed))
    next disagreed =>
      rw [whole (by simpa using disagreed)]
      split
      next => exact List.Perm.refl _
      next reason => rw [orderByBinlog_of_not_sorted id idsFollowBinlog (by simp [reason])]
      next reason => rw [orderByBinlog_of_not_sorted id idsFollowBinlog (by simp [reason])]
      next reason _ _ => rw [orderByBinlog_of_not_sorted id idsFollowBinlog reason]

theorem mem_of_mem_decideKey {r : ResultRow Row}
    (member : r ∈ (decideKey n idsFollowBinlog span mine all).rows) :
    r ∈ mine ∨ r ∈ all := by
  have late {rows : List (ResultRow Row)} (held : r ∈ rows.rtake n) : r ∈ rows :=
    (drop_sublist _ _).subset held
  unfold decideKey at member
  dsimp only at member
  split at member
  next => exact .inl (candidates_subset mine n r (late member))
  next =>
    split at member
    next => exact .inl (candidates_subset mine n r (late member))
    next =>
      split at member
      next => exact .inr ((orderByBinlog_perm id idsFollowBinlog all).subset (late member))
      next => exact .inr (late member)
      next => exact .inr (late member)
      next => exact .inr (late member)

/-- Of changes whose positions rise, the last is at or after each, and kept. -/
theorem exists_last_mem_rtake {ordered : List (ResultRow Row)} (pos : n ≠ 0)
    (rises : ordered.Pairwise (RisesTo id)) {r : ResultRow Row} (member : r ∈ ordered) :
    ∃ top ∈ ordered.rtake n, keySpanCoord r ≤ keySpanCoord top := by
  obtain ⟨m, rfl⟩ := Nat.exists_eq_succ_of_ne_zero pos
  rcases eq_nil_or_concat' ordered with rfl | ⟨front, top, rfl⟩
  · cases member
  · refine ⟨top, ?_, ?_⟩
    · rw [rtake_concat_succ]
      exact mem_append_right _ mem_cons_self
    · rcases mem_append.mp member with earlier | here
      · exact ((pairwise_append.mp rises).2.2 r earlier top mem_cons_self).1
      · rw [mem_singleton.mp here]

/-- A key whose order is shown is not refused, where the last coordinate of its span is
that of its last change. -/
theorem decideKey_refusal {ordered : List (ResultRow Row)} (holds : HoldsLast n mine hist)
    (pos : n ≠ 0) (shown : OrderShown idsFollowBinlog hist ordered)
    (whole : (latestPerPKCandidates mine n).2 = true → all = hist)
    (spanned : ∀ last ∈ span.last, (∃ r ∈ hist, keySpanCoord r = last) ∧
      ∀ r ∈ mine, keySpanCoord r ≤ last) :
    (decideKey n idsFollowBinlog span mine all).refusal = none := by
  obtain ⟨time, agree, inOrder⟩ := holds.candidates
  have byID : orderByID hist = ordered :=
    insertionSort_eq_of_perm shown.perm (shown.rises.imp fun rises => rises.2)
  unfold decideKey
  dsimp only
  rw [time]
  split
  next => rfl
  next =>
    split
    next agreed =>
      have latest : (hist.rtake n).Perm (ordered.rtake n) := by
        rw [← byID]
        exact agree (by simpa using agreed)
      unfold spanRefusal
      split
      next first last isFirst isLast =>
        obtain ⟨⟨r, member, coord⟩, above⟩ := spanned last isLast
        obtain ⟨top, kept, most⟩ :=
          exists_last_mem_rtake pos shown.rises (shown.perm.mem_iff.mp member)
        have late : top ∈ hist.rtake n := latest.mem_iff.mpr kept
        have same : keySpanCoord top = last :=
          le_antisymm (above top (holds.byTime top late)) (coord ▸ most)
        have found : hasCoord (hist.rtake n) last = true :=
          any_eq_true.mpr ⟨top, late, beq_iff_eq.mpr same⟩
        rw [found]
        rfl
      next => rfl
    next disagreed =>
      rw [whole (by simpa using disagreed)]
      have confirmed := orderByBinlog_confirmed id idsFollowBinlog shown.perm shown.coords
        shown.rises shown.vouched
      rcases confirmed.1 with sorted | agrees
      · rw [sorted]
      · have kept : (orderByBinlog id idsFollowBinlog hist).2 = hist :=
          orderByBinlog_of_not_sorted id idsFollowBinlog (by simp [agrees])
        have rising : orderByID hist = hist := by rw [byID, ← confirmed.2, kept]
        simp [inOrder rising] at disagreed

end Decision

end OneKey

/-! ## The keys together -/

section Keys

variable {cs : List (Candidate Row)} {n : ℕ} {idsFollowBinlog : List (ResultRow Row) → IDProof}
  {all : String → List (ResultRow Row)} {k : String}

theorem mem_keyRows {pk : String} {rows : List (ResultRow Row)} {r : ResultRow Row} :
    r ∈ keyRows pk rows ↔ r ∈ rows ∧ r.pkValues = pk := by
  rw [keyRows, mem_filter, beq_iff_eq]

theorem distinctKeys_nodup (rows : List (ResultRow Row)) : (distinctKeys rows).Nodup :=
  firstOfEachFrom_nodup [] _

theorem mem_distinctKeys {rows : List (ResultRow Row)} :
    k ∈ distinctKeys rows ↔ k ≠ "" ∧ keyRows k rows ≠ [] := by
  constructor
  · intro member
    obtain ⟨r, first, rfl⟩ := mem_map.mp member
    obtain ⟨listed, named⟩ := mem_filter.mp ((firstOfEachFrom_sublist [] _).subset first)
    exact ⟨by simpa using named, ne_nil_of_mem (mem_keyRows.mpr ⟨listed, rfl⟩)⟩
  · rintro ⟨named, some_⟩
    obtain ⟨r, member⟩ := exists_mem_of_ne_nil _ some_
    obtain ⟨listed, rfl⟩ := mem_keyRows.mp member
    have held : r ∈ rows.filter fun r => r.pkValues != "" :=
      mem_filter.mpr ⟨listed, by simpa using named⟩
    obtain ⟨s, first, same⟩ : ∃ s ∈ firstOfEach ResultRow.pkValues
        (rows.filter fun r => r.pkValues != ""), s.pkValues = r.pkValues :=
      exists_mem_firstOfEachFrom held not_mem_nil
    exact mem_map.mpr ⟨s, first, same⟩

/-- What the keys of a list give, seen from one of them. -/
theorem filter_flatMap_key {keys : List String} (nodup : keys.Nodup)
    (part : String → List (ResultRow Row)) (own : ∀ pk, ∀ r ∈ part pk, r.pkValues = pk) :
    keyRows k (keys.flatMap part) = if k ∈ keys then part k else [] := by
  induction keys with
  | nil => rfl
  | cons pk keys ih =>
    rw [nodup_cons] at nodup
    rw [keyRows, flatMap_cons, filter_append, ← keyRows, ← keyRows, ih nodup.2]
    by_cases here : pk = k
    · subst here
      have whole : keyRows pk (part pk) = part pk :=
        filter_eq_self.mpr fun r member => beq_iff_eq.mpr (own pk r member)
      rw [whole, if_neg nodup.1, if_pos mem_cons_self, append_nil]
    · have nothing : keyRows k (part pk) = [] :=
        filter_eq_nil_iff.mpr fun r member => by
          rw [own pk r member, beq_iff_eq]
          exact here
      simp only [nothing, nil_append, mem_cons, Ne.symm here, false_or]

/-- The candidates of the key, in order of time. -/
def candidateRows (cs : List (Candidate Row)) (pk : String) : List (ResultRow Row) :=
  keyRows pk (orderRows .asc (cs.map Candidate.row))

/-- The decision for one of the keys. -/
def decisionFor (cs : List (Candidate Row)) (n : ℕ)
    (idsFollowBinlog : List (ResultRow Row) → IDProof) (all : String → List (ResultRow Row))
    (pk : String) : KeyDecision Row :=
  decideKey n idsFollowBinlog (keySpan (cs.filter fun c => c.row.pkValues == pk))
    (candidateRows cs pk) (all pk)

theorem keyRows_decideKeys (named : k ≠ "") (own : ∀ pk, ∀ r ∈ all pk, r.pkValues = pk) :
    (keyRows k (decideKeys cs n idsFollowBinlog all).1).Perm
      (if candidateRows cs k ≠ [] then (decisionFor cs n idsFollowBinlog all k).rows else []) := by
  have unnamed : keyRows k (keyRows "" (orderRows .asc (cs.map Candidate.row))) = [] :=
    filter_eq_nil_iff.mpr fun r member => by
      rw [(mem_keyRows.mp member).2, beq_iff_eq]
      exact Ne.symm named
  have ownRows : ∀ pk, ∀ r ∈ (decisionFor cs n idsFollowBinlog all pk).rows, r.pkValues = pk := by
    intro pk r member
    rcases mem_of_mem_decideKey member with mine | whole
    · exact (mem_keyRows.mp mine).2
    · exact own pk r whole
  refine ((orderRows_perm .asc _).filter _).trans ?_
  rw [filter_append, ← keyRows, ← keyRows, unnamed, nil_append, flatMap_map]
  have parts : keyRows k ((distinctKeys (orderRows .asc (cs.map Candidate.row))).flatMap
      fun pk => (decisionFor cs n idsFollowBinlog all pk).rows) = _ :=
    filter_flatMap_key (distinctKeys_nodup _) _ ownRows
  refine List.Perm.of_eq (parts.trans (if_congr ?_ rfl rfl))
  rw [mem_distinctKeys, candidateRows]
  exact and_iff_right named

theorem not_mem_refused_foldl {decided : List (String × KeyDecision Row)} {o : LatestPerPKOrder}
    (unrefused : ∀ d ∈ decided, d.1 = k → d.2.refusal = none) (before : k ∉ o.refused) :
    k ∉ (decided.foldl LatestPerPKOrder.count o).refused := by
  induction decided generalizing o with
  | nil => exact before
  | cons d decided ih =>
    refine ih (fun e member => unrefused e (mem_cons_of_mem d member)) ?_
    have here := unrefused d mem_cons_self
    unfold LatestPerPKOrder.count LatestPerPKOrder.refuse
    dsimp only
    cases why : d.2.refusal with
    | none => exact before
    | some reason =>
      rw [why] at here
      rw [Option.elim_some]
      split
      · exact before
      · rw [mem_append, mem_singleton, not_or]
        exact ⟨before, fun same => Option.some_ne_none reason (here same.symm)⟩

theorem not_mem_refused
    (unrefused : (decisionFor cs n idsFollowBinlog all k).refusal = none) :
    k ∉ (decideKeys cs n idsFollowBinlog all).2.refused := by
  refine not_mem_refused_foldl ?_ not_mem_nil
  intro d member same
  obtain ⟨pk, -, rfl⟩ := mem_map.mp member
  rw [show pk = k from same]
  exact unrefused

end Keys

end Dbtrail
