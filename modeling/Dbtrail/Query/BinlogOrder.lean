import Dbtrail.Query.Binlog

/-!
# One order over many changes

`orderByBinlog` puts a set of changes in the order of the source's binary log
when that order can be established for the whole set, and leaves them as they
came otherwise. A caller hands in its own records with `coord`, the indexed row
each stands for.

The order it returns is a permutation of what it was given
(`orderByBinlog_perm`). Changes whose ids already ascend stay as they are
(`orderByBinlog_of_ascending`), and a set the index vouches for comes back in
the order of its ids (`orderByBinlog_of_confirmed`).
-/

namespace Dbtrail

open List

inductive BinlogOrderReason : Type
  | agrees
  | postgres
  | sorted
  | noCoordinate
  | severalBaseNames
  | idsUnproven
  | renumbered
  deriving DecidableEq, Repr

/-- What an index can say about its own ids for a set of rows. -/
inductive IDProof : Type
  | unproven
  | followStream
  | followFileIndexing
  deriving DecidableEq, Repr

/-- The evidence of a refusal, which the warning names. -/
inductive OrderDetail : Type
  | nothing
  | baseNames (names : List String)
  | severalFiles (files : ℕ)
  | severalWriters
  | goesDown (prevID : ℕ) (prev : BinlogPos) (curID : ℕ) (cur : BinlogPos)
  deriving DecidableEq, Repr

structure BinlogOrder : Type where
  reason : BinlogOrderReason := .agrees
  total : ℕ := 0
  moved : ℕ := 0
  missing : ℕ := 0
  detail : OrderDetail := .nothing
  deriving DecidableEq, Repr

/-- The name without its numeric suffix. LSNs all share the name of a slash. -/
def binlogBaseName (file : String) : String :=
  let chars := file.toList
  let suffix := (chars.reverse.takeWhile (· != '.')).reverse
  if chars.contains '/' then "/"
  else if !chars.contains '.' || suffix.isEmpty then file
  else if suffix.all Char.isDigit then String.ofList (chars.take (chars.length - suffix.length - 1))
  else file

variable {α Row : Type} (coord : α → ResultRow Row) {rows hist : List α}

def binlogBaseNames (rows : List α) : List String :=
  (rows.map fun r => binlogBaseName (coord r).binlogFile).dedup.insertionSort (· ≤ ·)

def distinctBinlogFiles (rows : List α) : ℕ :=
  (rows.map fun r => (coord r).binlogFile).dedup.length

/-- The order of two rows that both have a coordinate. -/
def compareBinlogCoordinate (a b : α) : Prop := (coord a).stamp ≤ (coord b).stamp

instance : DecidableRel (compareBinlogCoordinate coord) := fun a b =>
  inferInstanceAs (Decidable ((coord a).stamp ≤ (coord b).stamp))

/-- The first place where the position goes down from one row to the next. -/
def firstStepDown : List α → Option (α × α)
  | prev :: cur :: rest =>
      if (coord prev).startCoord.atOrBefore (coord cur).startCoord then firstStepDown (cur :: rest)
      else some (prev, cur)
  | _ => none

/-- Binlog order with the place each row came from. -/
def binlogPerm (rows : List α) : List (α × ℕ) :=
  rows.zipIdx.insertionSort fun a b => compareBinlogCoordinate coord a.1 b.1

def orderByBinlog (idsFollowBinlog : List α → IDProof) (rows : List α) : BinlogOrder × List α :=
  let o : BinlogOrder := { total := rows.length }
  if rows.length < 2 then (o, rows)
  else
    let missing := rows.countP fun r => !hasBinlogCoordinate (coord r)
    let lsn := rows.countP fun r =>
      !hasBinlogCoordinate (coord r) && (coord r).binlogFile.toList.contains '/'
    if lsn = rows.length then ({ o with reason := .postgres }, rows)
    else if 0 < missing then ({ o with reason := .noCoordinate, missing := missing }, rows)
    else
      let perm := binlogPerm coord rows
      let moved := perm.zipIdx.countP fun p => p.1.2 != p.2
      let o := { o with moved := moved }
      if moved = 0 then (o, rows)
      else if 1 < (binlogBaseNames coord rows).length then
        ({ o with reason := .severalBaseNames, detail := .baseNames (binlogBaseNames coord rows) },
          rows)
      else
        match idsFollowBinlog rows, distinctBinlogFiles coord rows with
        | .unproven, _ => ({ o with reason := .idsUnproven, detail := .severalWriters }, rows)
        | .followFileIndexing, files + 2 =>
            ({ o with reason := .idsUnproven, detail := .severalFiles (files + 2) }, rows)
        | _, _ =>
            match firstStepDown coord
                (rows.insertionSort fun a b => (coord a).eventID ≤ (coord b).eventID) with
            | some (prev, cur) =>
                let detail := .goesDown (coord prev).eventID (coord prev).startCoord
                  (coord cur).eventID (coord cur).startCoord
                ({ o with reason := .renumbered, detail := detail }, rows)
            | none => ({ o with reason := .sorted }, perm.map Prod.fst)

/-- What the index must say for the position order to be taken: one base name, and
ids that follow the binary log across the set. -/
def Vouched (idsFollowBinlog : List α → IDProof) (rows : List α) : Prop :=
  (binlogBaseNames coord rows).length ≤ 1 ∧
    (idsFollowBinlog rows = .followStream ∨
      idsFollowBinlog rows = .followFileIndexing ∧ distinctBinlogFiles coord rows ≤ 1)

/-! ## What comes back -/

theorem binlogPerm_perm (rows : List α) : ((binlogPerm coord rows).map Prod.fst).Perm rows := by
  have sorted : (binlogPerm coord rows).Perm rows.zipIdx := perm_insertionSort _ _
  have firsts := sorted.map Prod.fst
  rwa [zipIdx_map_fst] at firsts

variable (idsFollowBinlog : List α → IDProof)

/-- What can be decided. Rows said to agree are too few to disagree or none of them is at
another place in stamp order; a decision to sort needs every coordinate and the ids' word. -/
theorem orderByBinlog_outcome (rows : List α) :
    ((orderByBinlog coord idsFollowBinlog rows).1.reason ≠ .sorted ∧
        (orderByBinlog coord idsFollowBinlog rows).2 = rows ∧
        ((orderByBinlog coord idsFollowBinlog rows).1.reason = .agrees → rows.length < 2 ∨
          ((binlogPerm coord rows).zipIdx.countP fun p => p.1.2 != p.2) = 0)) ∨
      ((orderByBinlog coord idsFollowBinlog rows).1.reason = .sorted ∧
        (orderByBinlog coord idsFollowBinlog rows).2 = (binlogPerm coord rows).map Prod.fst ∧
        (∀ r ∈ rows, hasBinlogCoordinate (coord r) = true) ∧
        firstStepDown coord
          (rows.insertionSort fun a b => (coord a).eventID ≤ (coord b).eventID) = none ∧
        Vouched coord idsFollowBinlog rows) := by
  unfold orderByBinlog
  dsimp only
  split
  next short => exact .inl ⟨nofun, rfl, fun _ => .inl short⟩
  next =>
    split
    · exact .inl ⟨nofun, rfl, nofun⟩
    · split
      · exact .inl ⟨nofun, rfl, nofun⟩
      next noneMissing =>
        have complete : ∀ r ∈ rows, hasBinlogCoordinate (coord r) = true := by
          intro r mem
          have zero := Nat.eq_zero_of_not_pos noneMissing
          simpa using countP_eq_zero.mp zero r mem
        split
        next still => exact .inl ⟨nofun, rfl, fun _ => .inr still⟩
        next =>
          split
          · exact .inl ⟨nofun, rfl, nofun⟩
          next oneBase =>
            split
            · exact .inl ⟨nofun, rfl, nofun⟩
            · exact .inl ⟨nofun, rfl, nofun⟩
            next unproven severalFiles =>
              split
              · exact .inl ⟨nofun, rfl, nofun⟩
              next steps =>
                refine .inr ⟨rfl, rfl, complete, steps, not_lt.mp oneBase, ?_⟩
                cases proof : idsFollowBinlog rows with
                | unproven => exact absurd proof unproven
                | followStream => exact .inl rfl
                | followFileIndexing =>
                  refine .inr ⟨rfl, not_lt.mp fun many => ?_⟩
                  exact severalFiles _ proof (Nat.sub_add_cancel many).symm

/-- Only a decision to sort moves a row. -/
theorem orderByBinlog_of_not_sorted
    (decided : (orderByBinlog coord idsFollowBinlog rows).1.reason ≠ .sorted) :
    (orderByBinlog coord idsFollowBinlog rows).2 = rows := by
  rcases orderByBinlog_outcome coord idsFollowBinlog rows with ⟨_, kept, _⟩ | ⟨sorted, _⟩
  · exact kept
  · exact absurd sorted decided

theorem orderByBinlog_perm (rows : List α) :
    (orderByBinlog coord idsFollowBinlog rows).2.Perm rows := by
  rcases orderByBinlog_outcome coord idsFollowBinlog rows with ⟨_, kept, _⟩ | ⟨_, sorted, _⟩
  · rw [kept]
  · rw [sorted]
    exact binlogPerm_perm coord rows

/-! ## Ids and positions that rise together -/

/-- Between rows with a coordinate: the position does not go down and the id rises. -/
def RisesTo (a b : α) : Prop :=
  (coord a).startCoord.key ≤ (coord b).startCoord.key ∧ (coord a).eventID < (coord b).eventID

theorem RisesTo.stamp_lt {a b : α} (rises : RisesTo coord a b) :
    (coord a).stamp < (coord b).stamp := by
  obtain ⟨position, id⟩ := rises
  rw [ResultRow.stamp_lt_iff]
  simp only [BinlogPos.key, ResultRow.startCoord, Prod.Lex.toLex_le_toLex] at position
  rcases position with len | ⟨len, file | ⟨file, pos⟩⟩
  · exact .inl len
  · exact .inr ⟨len, .inl file⟩
  · refine .inr ⟨len, .inr ⟨file, ?_⟩⟩
    omega

theorem isChain_of_firstStepDown (coords : ∀ r ∈ rows, hasBinlogCoordinate (coord r) = true)
    (steps : firstStepDown coord rows = none) :
    rows.IsChain fun a b => (coord a).startCoord.key ≤ (coord b).startCoord.key := by
  fun_induction firstStepDown coord rows with
  | case1 prev cur rest step ih =>
    refine List.IsChain.cons_cons ?_
      (ih (fun r mem => coords r (mem_cons_of_mem _ mem)) steps)
    have prevCoord := coords prev mem_cons_self
    have curCoord := coords cur (mem_cons_of_mem _ mem_cons_self)
    exact (BinlogPos.atOrBefore_iff_key (hasBinlogCoordinate_isLSN prevCoord)
      (hasBinlogCoordinate_isLSN curCoord)).mp step
  | case2 prev cur rest step => cases steps
  | case3 rows short =>
    match rows, short with
    | [], _ => exact List.IsChain.nil
    | [r], _ => exact List.IsChain.singleton r
    | prev :: cur :: rest, short => exact absurd rfl (short prev cur rest)

theorem firstStepDown_of_pairwise (coords : ∀ r ∈ rows, hasBinlogCoordinate (coord r) = true)
    (rises : rows.Pairwise (RisesTo coord)) : firstStepDown coord rows = none := by
  fun_induction firstStepDown coord rows with
  | case1 prev cur rest step ih =>
    exact ih (fun r mem => coords r (mem_cons_of_mem _ mem)) rises.of_cons
  | case2 prev cur rest step =>
    have prevCoord := coords prev mem_cons_self
    have curCoord := coords cur (mem_cons_of_mem _ mem_cons_self)
    have up := (rel_of_pairwise_cons rises mem_cons_self).1
    exact absurd ((BinlogPos.atOrBefore_iff_key (hasBinlogCoordinate_isLSN prevCoord)
      (hasBinlogCoordinate_isLSN curCoord)).mpr up) step
  | case3 => rfl

/-- Rows that already stand in stamp order are not moved by the sort. -/
theorem binlogPerm_of_sorted (sorted : rows.Pairwise fun a b => (coord a).stamp ≤ (coord b).stamp) :
    binlogPerm coord rows = rows.zipIdx := by
  apply List.Pairwise.insertionSort_eq
  have firsts : (rows.zipIdx.map Prod.fst).Pairwise fun a b =>
      (coord a).stamp ≤ (coord b).stamp := by
    rwa [zipIdx_map_fst]
  exact pairwise_map.mp firsts

/-- When no row moved, binlog order is the order the rows came in. -/
theorem map_binlogPerm_of_moved
    (still : ((binlogPerm coord rows).zipIdx.countP fun p => p.1.2 != p.2) = 0) :
    (binlogPerm coord rows).map Prod.fst = rows := by
  have sorted : (binlogPerm coord rows).Perm rows.zipIdx := perm_insertionSort _ _
  have length : (binlogPerm coord rows).length = rows.length := by
    rw [sorted.length_eq, length_zipIdx]
  apply ext_getElem (by rw [length_map, length])
  intro i inPerm inRows
  have bound : i < (binlogPerm coord rows).length := by rwa [length_map] at inPerm
  have home : (binlogPerm coord rows)[i].2 = i := by
    have entry : ((binlogPerm coord rows)[i], i) ∈ (binlogPerm coord rows).zipIdx := by
      rw [mem_zipIdx_iff_getElem?]
      exact getElem?_eq_getElem bound
    simpa using countP_eq_zero.mp still _ entry
  have source : ((binlogPerm coord rows)[i].1, i) ∈ rows.zipIdx := by
    have mem := sorted.subset (getElem_mem bound)
    rwa [show (binlogPerm coord rows)[i] = ((binlogPerm coord rows)[i].1, i) from
      Prod.ext rfl home] at mem
  rw [getElem_map]
  exact (mem_zipIdx source).2.2

/-- Changes handed in with ascending ids are left alone, whatever the index says:
the only other order that ever comes back is ascending in the ids too. -/
theorem orderByBinlog_of_ascending
    (ids : rows.Pairwise fun a b => (coord a).eventID < (coord b).eventID) :
    (orderByBinlog coord idsFollowBinlog rows).2 = rows := by
  rcases orderByBinlog_outcome coord idsFollowBinlog rows with
    ⟨_, kept, _⟩ | ⟨_, sorted, coords, steps, _⟩
  · exact kept
  · have byID : rows.insertionSort (fun a b => (coord a).eventID ≤ (coord b).eventID) = rows :=
      List.Pairwise.insertionSort_eq (ids.imp le_of_lt)
    rw [byID] at steps
    have positions := isChain_iff_pairwise.mp (isChain_of_firstStepDown coord coords steps)
    have stamps : rows.Pairwise fun a b => (coord a).stamp ≤ (coord b).stamp :=
      (positions.and ids).imp fun rises => (RisesTo.stamp_lt coord rises).le
    rw [sorted, binlogPerm_of_sorted coord stamps, zipIdx_map_fst]

/-- Where the ids and positions of a set rise together, binlog order is that order. -/
theorem map_binlogPerm_of_rises (same : rows.Perm hist) (rises : hist.Pairwise (RisesTo coord)) :
    (binlogPerm coord rows).map Prod.fst = hist := by
  have stamps : hist.Pairwise fun a b => (coord a).stamp ≤ (coord b).stamp :=
    rises.imp fun r => (RisesTo.stamp_lt coord r).le
  have nodup : (hist.map fun r => (coord r).eventID).Nodup :=
    pairwise_map.mpr (rises.imp fun r => r.2.ne)
  apply ((binlogPerm_perm coord rows).trans same).eq_of_pairwise _ _ stamps
  · intro a b memA memB le ge
    have equal := le_antisymm le ge
    refine inj_on_of_nodup_map nodup
      (((binlogPerm_perm coord rows).trans same).subset memA) memB ?_
    simp only [ResultRow.stamp, toLex_inj, Prod.mk.injEq] at equal
    exact equal.2.2.2
  · exact pairwise_map.mpr (pairwise_insertionSort _ _)

section

variable (same : rows.Perm hist)
  (coords : ∀ r ∈ rows, hasBinlogCoordinate (coord r) = true)
  (rises : hist.Pairwise (RisesTo coord)) (vouched : Vouched coord idsFollowBinlog rows)

include same coords rises vouched

/-- A set the index vouches for is not refused, and comes back in the order its ids and
positions rise in, in whatever order it was handed in. -/
theorem orderByBinlog_confirmed : ((orderByBinlog coord idsFollowBinlog rows).1.reason = .sorted ∨
        (orderByBinlog coord idsFollowBinlog rows).1.reason = .agrees) ∧
      (orderByBinlog coord idsFollowBinlog rows).2 = hist := by
  have nodup : (hist.map fun r => (coord r).eventID).Nodup :=
    pairwise_map.mpr (rises.imp fun r => r.2.ne)
  have sorted := map_binlogPerm_of_rises coord same rises
  have byID : rows.insertionSort (fun a b => (coord a).eventID ≤ (coord b).eventID) = hist := by
    have perm := (perm_insertionSort (fun a b => (coord a).eventID ≤ (coord b).eventID)
      rows).trans same
    apply perm.eq_of_pairwise _ (pairwise_insertionSort _ _) (rises.imp fun r => r.2.le)
    intro a b memA memB le ge
    exact inj_on_of_nodup_map nodup (perm.subset memA) memB (le_antisymm le ge)
  have steps : firstStepDown coord hist = none :=
    firstStepDown_of_pairwise coord (fun r mem => coords r (same.symm.subset mem)) rises
  unfold orderByBinlog
  rw [byID, steps]
  dsimp only
  split
  · rename_i short
    match rows, short with
    | [], _ => exact ⟨.inr rfl, (nil_perm.mp same).symm⟩
    | [r], _ => exact ⟨.inr rfl, singleton_perm.mp same⟩
  · rename_i several
    have missing : (rows.countP fun r => !hasBinlogCoordinate (coord r)) = 0 :=
      countP_eq_zero.mpr fun r mem => by simp [coords r mem]
    have lsn : (rows.countP fun r => !hasBinlogCoordinate (coord r) &&
        (coord r).binlogFile.toList.contains '/') = 0 :=
      countP_eq_zero.mpr fun r mem => by simp [coords r mem]
    rw [missing, lsn, if_neg (by omega), if_neg (by omega)]
    split
    · rename_i still
      rw [← sorted]
      exact ⟨.inr rfl, (map_binlogPerm_of_moved coord still).symm⟩
    · rw [if_neg (by have one := vouched.1; omega)]
      rcases vouched.2 with stream | ⟨fileIndexing, oneFile⟩
      · rw [stream]
        exact ⟨.inl rfl, sorted⟩
      · rw [fileIndexing]
        split
        · contradiction
        · omega
        · exact ⟨.inl rfl, sorted⟩

theorem orderByBinlog_of_confirmed : (orderByBinlog coord idsFollowBinlog rows).2 = hist :=
  (orderByBinlog_confirmed coord idsFollowBinlog same coords rises vouched).2

end

/-! ## What the answer says about the order -/

/-- The sort gives stamp order. -/
theorem binlogPerm_sorted (rows : List α) :
    ((binlogPerm coord rows).map Prod.fst).Pairwise fun a b =>
      (coord a).stamp ≤ (coord b).stamp :=
  pairwise_map.mpr (pairwise_insertionSort _ _)

/-- Rows said to agree with the binary log stand in its order. -/
theorem pairwise_of_agrees (agrees : rows.length < 2 ∨
      ((binlogPerm coord rows).zipIdx.countP fun p => p.1.2 != p.2) = 0) :
    rows.Pairwise fun a b => (coord a).stamp ≤ (coord b).stamp := by
  rcases agrees with short | still
  · match rows, short with
    | [], _ => exact List.Pairwise.nil
    | [r], _ => exact pairwise_singleton _ r
  · rw [← map_binlogPerm_of_moved coord still]
    exact binlogPerm_sorted coord rows

/-- Where the position never goes down along the ids, stamp order is an order of the ids. -/
theorem binlogPerm_ids (coords : ∀ r ∈ rows, hasBinlogCoordinate (coord r) = true)
    (steps : firstStepDown coord
      (rows.insertionSort fun a b => (coord a).eventID ≤ (coord b).eventID) = none) :
    ((binlogPerm coord rows).map Prod.fst).Pairwise fun a b =>
      (coord a).eventID ≤ (coord b).eventID := by
  set byID := rows.insertionSort fun a b => (coord a).eventID ≤ (coord b).eventID
  have perm : byID.Perm rows := perm_insertionSort _ rows
  have positions : byID.Pairwise fun a b =>
      (coord a).startCoord.key ≤ (coord b).startCoord.key :=
    isChain_iff_pairwise.mp
      (isChain_of_firstStepDown coord (fun r mem => coords r (perm.mem_iff.mp mem)) steps)
  have ids : byID.Pairwise fun a b => (coord a).eventID ≤ (coord b).eventID :=
    pairwise_insertionSort _ rows
  refine (binlogPerm_sorted coord rows).imp_of_mem fun {a b} memA memB le => ?_
  have inA := perm.mem_iff.mpr ((binlogPerm_perm coord rows).mem_iff.mp memA)
  have inB := perm.mem_iff.mpr ((binlogPerm_perm coord rows).mem_iff.mp memB)
  obtain ⟨i, boundI, isA⟩ := getElem_of_mem inA
  obtain ⟨j, boundJ, isB⟩ := getElem_of_mem inB
  rcases le_or_gt i j with before | after
  · rcases before.eq_or_lt with rfl | before
    · rw [← isA, ← isB]
    · rw [← isA, ← isB]
      exact pairwise_iff_getElem.mp ids i j boundI boundJ before
  · -- `b` comes first along the ids, so it does not stand later: the positions are equal.
    have up := pairwise_iff_getElem.mp positions j i boundJ boundI after
    rw [isA, isB] at up
    by_contra lower
    have higher : (coord b).stamp < (coord a).stamp := RisesTo.stamp_lt coord ⟨up, not_le.mp lower⟩
    exact absurd le (not_le.mpr higher)

/-- The rows come back as a permutation. Said to be ordered, they stand in binlog order, and
where they were moved for it in the order of their ids too; otherwise they stay as they came. -/
theorem orderByBinlog_order (idsFollowBinlog : List α → IDProof) (rows : List α) :
    (orderByBinlog coord idsFollowBinlog rows).2.Perm rows ∧
      ((orderByBinlog coord idsFollowBinlog rows).1.reason = .sorted ∨
          (orderByBinlog coord idsFollowBinlog rows).1.reason = .agrees →
        (orderByBinlog coord idsFollowBinlog rows).2.Pairwise fun a b =>
          (coord a).stamp ≤ (coord b).stamp) ∧
      ((orderByBinlog coord idsFollowBinlog rows).1.reason = .sorted →
        (orderByBinlog coord idsFollowBinlog rows).2.Pairwise fun a b =>
          (coord a).eventID ≤ (coord b).eventID) ∧
      ((orderByBinlog coord idsFollowBinlog rows).1.reason ≠ .sorted →
        (orderByBinlog coord idsFollowBinlog rows).2 = rows) := by
  refine ⟨orderByBinlog_perm coord idsFollowBinlog rows, ?_, ?_,
    orderByBinlog_of_not_sorted coord idsFollowBinlog⟩
  · intro decided
    rcases orderByBinlog_outcome coord idsFollowBinlog rows with
      ⟨notSorted, kept, agreed⟩ | ⟨_, moved, _, _⟩
    · rw [kept]
      exact pairwise_of_agrees coord (agreed (decided.resolve_left notSorted))
    · rw [moved]
      exact binlogPerm_sorted coord rows
  · intro decided
    rcases orderByBinlog_outcome coord idsFollowBinlog rows with
      ⟨notSorted, _, _⟩ | ⟨_, moved, coords, steps, _⟩
    · exact absurd decided notSorted
    · rw [moved]
      exact binlogPerm_ids coord coords steps

/-- A change without a position, the later one of two by its id, came first and stays first. -/
theorem unpositioned_stays :
    let first : ResultRow Unit :=
      { eventID := 2, eventTimestamp := 0, binlogFile := "", startPos := 0, endPos := 0,
        eventType := .insert, pkValues := "1" }
    let second := { first with eventID := 1, eventTimestamp := 1 }
    let answer := orderByBinlog id (fun _ => .followStream) [first, second]
    answer.1.reason = .noCoordinate ∧ answer.2 = [first, second] ∧
      ¬ answer.2.Pairwise fun a b => a.eventID ≤ b.eventID := by
  decide

/-- Rows said to be ordered come back the same whatever order they arrived in. -/
theorem orderByBinlog_arrival (ids : List α → IDProof) {arrived : List α}
    (same : arrived.Perm rows) (distinct : (rows.map fun r => (coord r).eventID).Nodup)
    (decided : ∀ l ∈ [arrived, rows], (orderByBinlog coord ids l).1.reason ∈ [.sorted, .agrees]) :
    (orderByBinlog coord ids arrived).2 = (orderByBinlog coord ids rows).2 := by
  have sorted (l : List α) (member : l ∈ [arrived, rows]) :
      (orderByBinlog coord ids l).2.Pairwise fun a b => (coord a).stamp ≤ (coord b).stamp := by
    rcases orderByBinlog_outcome coord ids l with ⟨kept, is, agreed⟩ | ⟨-, is, -⟩
    · rw [is]
      exact pairwise_of_agrees coord (agreed (by simpa [kept] using decided l member))
    · rw [is]
      exact binlogPerm_sorted coord l
  have left := (orderByBinlog_perm coord ids arrived).trans same
  have right := orderByBinlog_perm coord ids rows
  refine (left.trans right.symm).eq_of_pairwise (fun a b inA inB le ge => ?_)
    (sorted _ (by simp)) (sorted _ (by simp))
  have equal := le_antisymm le ge
  simp only [ResultRow.stamp, toLex_inj, Prod.mk.injEq] at equal
  exact inj_on_of_nodup_map distinct (left.subset inA) (right.subset inB) equal.2.2.2

theorem swappedRows_arrival :
    let first : ResultRow Unit :=
      { eventID := 1, eventTimestamp := 0, binlogFile := "b.1", startPos := 4, endPos := 9,
        eventType := .insert, pkValues := "1" }
    let second := { first with eventID := 2, startPos := 9 }
    (orderByBinlog id (fun _ => .followStream) [second, first]).2 =
      (orderByBinlog id (fun _ => .followStream) [first, second]).2 :=
  orderByBinlog_arrival id _ (.swap ..) (by decide) (by decide)

end Dbtrail
