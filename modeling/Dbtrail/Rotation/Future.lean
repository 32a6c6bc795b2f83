import Dbtrail.Rotation.Safety

/-!
# Partitions ahead of the clock

How many partitions a cycle adds and where the first of them starts are computed apart from
the same listing. They agree as soon as the listing has a partition: the hours the latest
one is behind are added on top of the target. With no partition there is nothing to be
behind, but the first new one starts at the current hour, which is not ahead of the clock.
-/

namespace Dbtrail.Rotation

open List

variable {Data : Type} {named : List ℕ} {now : ℕ}

/-- What `--add-future` maintains: bounds that increase, no hour missing from the latest
partition to the current hour, and `target` partitions past the current hour. -/
structure FutureKept (target now : ℕ) (before after : List ℕ) : Prop where
  increasing : after.Pairwise (· < ·)
  covered : ∀ latest ∈ before.max?, ∀ hour, latest ≤ hour → hour ≤ now → hour ∈ after
  ahead : target ≤ countFuturePartitions after now

/-! ## The hours added -/

/-- `addFuturePartitions` appends consecutive hours to the named ones. -/
theorem named_addFuturePartitions (w : World Data) (start n : ℕ) :
    (w.addFuturePartitions start n).named =
      w.named ++ (List.range n).map (start + ·) := by
  have kept : (w.partitions.filter (· ≠ .future)).filterMap PartitionDate = w.named := by
    rw [filterMap_filter]
    refine filterMap_congr fun name _ => ?_
    cases name <;> rfl
  have added : ((range n).map fun i => PartitionName.hourly (start + i)).filterMap
      PartitionDate = (range n).map (start + ·) := by
    rw [filterMap_map]
    exact congrFun filterMap_eq_map _
  simp only [World.named, World.addFuturePartitions, filterMap_append] at kept ⊢
  rw [kept, added]
  exact append_nil _

theorem named_addingStep (w : World Data) (c : Cycle Data) (attempt : ℕ)
    (free : c.tableBusy = false) :
    (addingStep w c attempt .ok).1.named = w.named ++ hoursToAdd w c := by
  unfold addingStep hoursToAdd
  dsimp only
  by_cases none : (partitionsToAdd c.opts.addFuture w.named (nowHour w) c.result.dropped
      c.opts.noReplace).1 = 0
  · rw [if_pos none, none, range_zero, map_nil, append_nil]
  · rw [if_neg none, free, if_neg Bool.false_ne_true]
    exact named_addFuturePartitions w _ _

theorem pairwise_range_add (start n : ℕ) :
    ((List.range n).map (start + ·)).Pairwise (· < ·) :=
  pairwise_lt_range.map _ fun _ _ lt => Nat.add_lt_add_left lt start

/-- Of `n` hours from `start` on, those after `now`. -/
theorem countFuture_range (start n now : ℕ) :
    countFuturePartitions ((List.range n).map (start + ·)) now = n - (now + 1 - start) := by
  unfold countFuturePartitions
  induction n with
  | zero => simp
  | succ n ih =>
    rw [range_succ, map_append, countP_append, ih, map_cons, map_nil,
      countP_singleton]
    by_cases after : now < start + n
    · rw [if_pos (decide_eq_true after)]
      omega
    · rw [if_neg (by simpa using after)]
      omega

/-! ## Enough of them -/

/-- When no named partition is past the current hour, none counts as one ahead. -/
theorem countFuture_eq_zero (behind : ∀ hour ∈ named, hour ≤ now) :
    countFuturePartitions named now = 0 :=
  countP_eq_zero.mpr fun hour member => by simpa using behind hour member

/-- The named hours once the cycle has added its own. -/
def namedAfter (target : ℕ) (named : List ℕ) (now dropped : ℕ) (noReplace : Bool) : List ℕ :=
  named ++ (List.range (partitionsToAdd target named now dropped noReplace).1).map
    (nextPartitionStart named now + ·)

variable {target dropped : ℕ} {noReplace : Bool}

theorem namedAfter_increasing (bounds : named.Pairwise (· < ·)) :
    (namedAfter target named now dropped noReplace).Pairwise (· < ·) := by
  refine pairwise_append.mpr ⟨bounds, pairwise_range_add _ _, fun hour member later added => ?_⟩
  obtain ⟨i, _, rfl⟩ := mem_map.mp added
  exact Nat.lt_add_right i (lt_nextPartitionStart now member)

/-- With a latest partition at or past the current hour, every new one is ahead; with one
behind it, the hours between are added on top. -/
theorem namedAfter_ahead {latest : ℕ} (found : named.max? = some latest) :
    target ≤ countFuturePartitions (namedAfter target named now dropped noReplace) now := by
  unfold namedAfter countFuturePartitions
  rw [countP_append]
  change _ ≤ countFuturePartitions named now + countFuturePartitions _ now
  rw [countFuture_range]
  simp only [partitionsToAdd, computeToAdd, hoursBehind, nextPartitionStart, found]
  by_cases caught : now ≤ latest
  · omega
  · have zero : countFuturePartitions named now = 0 := by
      refine countFuture_eq_zero fun hour member => ?_
      have := (max?_eq_some_iff.mp found).2 hour member
      omega
    rw [zero]
    split_ifs <;> omega

/-- When nothing is added, the target was met by a partition past the current hour. -/
theorem namedAfter_covered (positive : 0 < target) {latest : ℕ} (found : named.max? = some latest)
    {hour : ℕ} (fromLatest : latest ≤ hour) (toNow : hour ≤ now) :
    hour ∈ namedAfter target named now dropped noReplace := by
  rcases Nat.eq_or_lt_of_le fromLatest with rfl | lt
  · exact mem_append_left _ (max?_eq_some_iff.mp found).1
  refine mem_append_right _ (mem_map.mpr ⟨hour - (latest + 1), ?_, ?_⟩)
  · have below : ∀ other ∈ named, other ≤ now := fun other member =>
      ((max?_eq_some_iff.mp found).2 other member).trans (by omega)
    have zero := countFuture_eq_zero below
    simp only [mem_range, partitionsToAdd, computeToAdd, hoursBehind, found, zero]
    split_ifs <;> omega
  · simp only [nextPartitionStart, found]
    omega

theorem namedAfter_nil :
    countFuturePartitions (namedAfter target [] now dropped noReplace) now =
      target + (if noReplace then 0 else dropped) - 1 := by
  unfold namedAfter
  rw [nil_append, countFuture_range]
  simp [partitionsToAdd, computeToAdd, hoursBehind, nextPartitionStart, countFuturePartitions]

/-- A cycle that gets to add its partitions keeps the future it was asked for exactly when
it found a partition to count from, or replaces one that it dropped. -/
theorem addingStep_futureKept_iff (w : World Data) (c : Cycle Data) (attempt : ℕ)
    (bounds : w.named.Pairwise (· < ·)) (positive : 0 < c.opts.addFuture)
    (free : c.tableBusy = false) :
    FutureKept c.opts.addFuture (nowHour w) w.named (addingStep w c attempt .ok).1.named ↔
      w.named ≠ [] ∨ (c.opts.noReplace = false ∧ 0 < c.result.dropped) := by
  rw [named_addingStep w c attempt free]
  change FutureKept _ _ _ (namedAfter _ _ _ _ _) ↔ _
  cases latest : w.named.max? with
  | none =>
    rw [max?_eq_none_iff] at latest
    rw [latest]
    constructor
    · intro kept
      have ahead := kept.ahead
      rw [namedAfter_nil] at ahead
      cases replaces : c.opts.noReplace with
      | true => simp [replaces] at ahead; omega
      | false => exact .inr ⟨rfl, by simp [replaces] at ahead; omega⟩
    · rintro (named | ⟨replaces, dropped⟩)
      · exact absurd rfl named
      · refine ⟨namedAfter_increasing List.Pairwise.nil, fun _ found => by simp at found, ?_⟩
        rw [namedAfter_nil, replaces]
        simp only [Bool.false_eq_true, if_false]
        omega
  | some hour =>
    have ne : w.named ≠ [] := fun nil => by simp [nil] at latest
    refine iff_of_true ⟨namedAfter_increasing bounds, ?_, namedAfter_ahead latest⟩ (.inl ne)
    intro other found hour fromLatest toNow
    rw [latest] at found
    cases found
    exact namedAfter_covered positive latest fromLatest toNow

/-- A table with only `p_future`, at hour 1. -/
def bareWorld : World Unit where
  clock := 3600
  partitions := [.future]
  rows _ := []
  files := ∅
  objects := ∅
  archiveState := ∅

def oneAhead : Cycle Unit := { opts := { retainDur := 0, addFuture := 1 }, phase := .adding 1 }

/-- The one partition added is the current hour's. -/
theorem bareWorld_future_lost :
    ¬FutureKept 1 (nowHour bareWorld) bareWorld.named
      (addingStep bareWorld oneAhead 1 .ok).1.named := by
  intro kept
  exact absurd kept.ahead (by decide)

theorem addingStep_futureKept_at_three :
    let w : World Unit := { bareWorld with clock := 3 * 3600, partitions := [.hourly 0, .future] }
    FutureKept 1 (nowHour w) w.named (addingStep w oneAhead 1 .ok).1.named :=
  (addingStep_futureKept_iff _ oneAhead 1 (by decide) (by decide) rfl).mpr (.inl (by decide))

end Dbtrail.Rotation
