import Dbtrail.Query.Fetch

/-!
# Merging the sources of one query

`mergeAndTrim` is what becomes of the rows of all sources of a query: one copy per
event id (the first), ordered, trimmed to the latest of each key, cut to the limit.

`mergeAndTrim_below` says what rows that sort below a source's own can add to it: they
end up on its old side, and nothing of them is kept where every key they belong to is
already full.
-/

namespace Dbtrail

variable {Row : Type} {rows others : List (ResultRow Row)}

def mergeResults (rows : List (ResultRow Row)) (limit : ℕ) (order : Direction) :
    List (ResultRow Row) :=
  capAt limit (orderRows order (firstOfEach ResultRow.eventID rows))

/-- The bucket a row counts for. A row without key values is its own. -/
def pkBucket (r : ResultRow Row) : String ⊕ ℕ :=
  if r.pkValues = "" then .inr r.eventID else .inl r.pkValues

def limitPerPK (rows : List (ResultRow Row)) (n : ℕ) : List (ResultRow Row) :=
  if n = 0 then rows else lastOfEach pkBucket n rows

def mergeAndTrim (rows : List (ResultRow Row)) (limit perPK : ℕ) (order : Direction) :
    List (ResultRow Row) :=
  let merged :=
    if perPK = 0 then mergeResults rows 0 order
    else
      let latest := limitPerPK (mergeResults rows 0 .asc) perPK
      match order with
      | .asc => latest
      | .desc => mergeResults latest 0 .desc
  capAt limit merged

/-! ## A source and what sorts below it -/

/-- `older` on the old side of `rows`. -/
def withOlder : Direction → List (ResultRow Row) → List (ResultRow Row) → List (ResultRow Row)
  | .asc, older, rows => older ++ rows
  | .desc, older, rows => rows ++ older

theorem orderRows_withOlder (order : Direction) {older : List (ResultRow Row)}
    (olderNodup : (older.map ResultRow.eventID).Nodup)
    (rowsNodup : (rows.map ResultRow.eventID).Nodup)
    (below : ∀ a ∈ older, ∀ r ∈ rows, a.eventKey < r.eventKey) :
    orderRows order (rows ++ older) =
      withOlder order (orderRows order older) (orderRows order rows) := by
  have olderOrder := orderRows_inKeyOrder order olderNodup
  have rowsOrder := orderRows_inKeyOrder order rowsNodup
  have apart : ∀ a ∈ orderRows order older, ∀ r ∈ orderRows order rows,
      a.eventKey < r.eventKey := by
    intro a memA r memR
    exact below a ((orderRows_perm order older).mem_iff.mp memA) r
      ((orderRows_perm order rows).mem_iff.mp memR)
  have perms := (orderRows_perm order rows).symm.append (orderRows_perm order older).symm
  cases order with
  | asc =>
    refine orderRows_eq_of_perm (perms.trans List.perm_append_comm) ?_
    exact List.pairwise_append.mpr ⟨olderOrder, rowsOrder, apart⟩
  | desc =>
    refine orderRows_eq_of_perm perms ?_
    exact List.pairwise_append.mpr ⟨rowsOrder, olderOrder, fun r memR a memA => apart a memA r memR⟩

/-- The rows of `others` that are not copies of a row in `rows`. -/
def fresh (rows others : List (ResultRow Row)) : List (ResultRow Row) :=
  firstOfEachFrom ResultRow.eventID (rows.map ResultRow.eventID) others

theorem mem_of_mem_fresh {a : ResultRow Row} (member : a ∈ fresh rows others) : a ∈ others :=
  (firstOfEachFrom_sublist _ others).subset member

theorem firstOfEach_append (nodup : (rows.map ResultRow.eventID).Nodup)
    (others : List (ResultRow Row)) :
    firstOfEach ResultRow.eventID (rows ++ others) = rows ++ fresh rows others := by
  rw [firstOfEach, firstOfEachFrom_append, List.append_nil]
  exact congrArg (· ++ fresh rows others) (firstOfEach_of_nodup nodup)

theorem mergeResults_append (order : Direction) (nodup : (rows.map ResultRow.eventID).Nodup)
    (below : ∀ a ∈ fresh rows others, ∀ r ∈ rows, a.eventKey < r.eventKey) :
    mergeResults (rows ++ others) 0 order =
      withOlder order (orderRows order (fresh rows others)) (orderRows order rows) := by
  rw [mergeResults, capAt_zero, firstOfEach_append nodup]
  exact orderRows_withOlder order (firstOfEachFrom_nodup _ others) nodup below

/-- No key holds more rows than the cap. -/
def WithinCap (perPK : ℕ) (rows : List (ResultRow Row)) : Prop :=
  ∀ r ∈ rows, rows.countP (fun s => pkBucket s = pkBucket r) ≤ perPK

theorem WithinCap.of_perm {perPK : ℕ} {rows' : List (ResultRow Row)}
    (within : WithinCap perPK rows) (perm : rows.Perm rows') : WithinCap perPK rows' := by
  intro r member
  rw [← perm.countP_eq]
  exact within r (perm.mem_iff.mpr member)

/-- Rows already ordered and within the cap, merged with rows that sort below them: some
of the latter on the old side, and none where each of their keys is full. -/
theorem mergeAndTrim_below (limit : ℕ) {perPK : ℕ} {order : Direction}
    (nodup : (rows.map ResultRow.eventID).Nodup) (inOrder : InKeyOrder order rows)
    (within : perPK ≠ 0 → WithinCap perPK rows)
    (below : ∀ a ∈ fresh rows others, ∀ r ∈ rows, a.eventKey < r.eventKey) :
    ∃ older : List (ResultRow Row),
      (∀ a ∈ older, a ∈ fresh rows others) ∧
      ((∀ a ∈ fresh rows others,
          perPK ≤ rows.countP fun s => pkBucket s = pkBucket a) → perPK ≠ 0 → older = []) ∧
      mergeAndTrim (rows ++ others) limit perPK order =
        capAt limit (withOlder order older rows) := by
  have same : orderRows order rows = rows := orderRows_eq_of_perm (List.Perm.refl rows) inOrder
  by_cases uncapped : perPK = 0
  · refine ⟨orderRows order (fresh rows others),
      fun a => (orderRows_perm order _).mem_iff.mp, fun _ capped => absurd uncapped capped, ?_⟩
    rw [mergeAndTrim, if_pos uncapped, mergeResults_append order nodup below, same]
  · -- The trim runs over the ascending merge, whose newest part is `rows`.
    have perm := orderRows_perm .asc rows
    have all : lastOfEach pkBucket perPK (orderRows .asc rows) = orderRows .asc rows :=
      lastOfEach_of_le ((within uncapped).of_perm perm.symm)
    obtain ⟨older, sub, kept⟩ : ∃ older : List (ResultRow Row),
        older.Sublist (orderRows .asc (fresh rows others)) ∧
          (orderRows .asc (fresh rows others)).foldr (keepIfRoom pkBucket perPK)
            (orderRows .asc rows) = older ++ orderRows .asc rows := foldr_keepIfRoom _ _
    have latest : limitPerPK (mergeResults (rows ++ others) 0 .asc) perPK =
        older ++ orderRows .asc rows := by
      rw [limitPerPK, if_neg uncapped, mergeResults_append .asc nodup below, withOlder,
        lastOfEach_append, all, kept]
    have old : ∀ a ∈ older, a ∈ fresh rows others := fun a member =>
      (orderRows_perm .asc _).mem_iff.mp (sub.subset member)
    have nothingOld : (∀ a ∈ fresh rows others,
        perPK ≤ rows.countP fun s => pkBucket s = pkBucket a) → older = [] := by
      intro full
      have nothing : (orderRows .asc (fresh rows others)).foldr (keepIfRoom pkBucket perPK)
          (orderRows .asc rows) = orderRows .asc rows := by
        refine foldr_keepIfRoom_of_full fun a member => ?_
        rw [perm.countP_eq]
        exact full a ((orderRows_perm .asc _).mem_iff.mp member)
      exact List.append_left_eq_self.mp (kept.symm.trans nothing)
    cases order with
    | asc =>
      refine ⟨older, old, fun full _ => nothingOld full, ?_⟩
      rw [mergeAndTrim, if_neg uncapped]
      dsimp only
      rw [latest, same, withOlder]
    | desc =>
      have olderNodup : (older.map ResultRow.eventID).Nodup := by
        refine (sub.map _).nodup ?_
        exact ((orderRows_perm .asc _).map _).nodup_iff.mpr (firstOfEachFrom_nodup _ others)
      have olderBelow : ∀ a ∈ older, ∀ r ∈ rows, a.eventKey < r.eventKey := fun a member =>
        below a (old a member)
      have perms : (older ++ orderRows .asc rows).Perm (rows ++ older) :=
        List.perm_append_comm.trans (perm.append_right older)
      have ids : ((rows ++ older).map ResultRow.eventID).Nodup := by
        rw [List.map_append, List.nodup_append]
        refine ⟨nodup, olderNodup, ?_⟩
        rintro i held j listed rfl
        obtain ⟨a, member, rfl⟩ := List.mem_map.mp listed
        exact (mem_firstOfEachFrom_iff.mp (old a member)).1 held
      refine ⟨orderRows .desc older, fun a member =>
        old a ((orderRows_perm .desc older).mem_iff.mp member), fun full _ => ?_, ?_⟩
      · rw [nothingOld full]
        rfl
      · rw [mergeAndTrim, if_neg uncapped]
        dsimp only
        rw [latest, mergeResults, capAt_zero,
          firstOfEach_of_nodup ((perms.map _).nodup_iff.mpr ids), orderRows_congr .desc perms ids,
          orderRows_withOlder .desc olderNodup nodup olderBelow, same]

end Dbtrail
