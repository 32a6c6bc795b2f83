import Dbtrail.Lib.Checked
import Dbtrail.Rotation.Perform

/-!
# What the index may have lost

Rotation records the bound of the partitions it is about to drop in the index's partition history,
and `lossBound` turns the history and the oldest live partition into the instant below which
events may be gone. A run here is any sequence of creations (also ones that end between the record
and the table), restores, captured events, rotations (whose drop may not happen after its record)
and added partitions. `held` is no part of the index: it is every event that was in it.
-/

namespace Dbtrail.PartitionHistory

open Rotation (PartitionName PartitionDate)

/-- The index's `partition_history` row. -/
structure History : Type where
  known : Bool := false
  createdAt : ℕ := 0
  droppedBelow : Option ℕ := none
  deriving DecidableEq, Repr

structure Event (Data : Type) : Type where
  stamp : ℕ
  data : Data
  deriving DecidableEq, Repr

/-- `hours` are the hourly partitions of `binlog_events`, in order; none where there is no such
table. Below the catch-all, a partition holds what is before its end and in no earlier one. -/
structure Index (Data : Type) : Type where
  history : Option History := none
  hours : Option (List ℕ) := none
  rows : List (Event Data) := []
  held : List (Event Data) := []
  deriving DecidableEq, Repr

/-- The end of an hour. -/
def upper (hour : ℕ) : ℕ := (hour + 1) * 3600

/-- The partition an event is in, or none for the catch-all. -/
def partitionOf (hours : List ℕ) (stamp : ℕ) : Option ℕ := hours.find? fun h => stamp < upper h

def droppedBound (names : List PartitionName) : Option ℕ :=
  if names = [] then none
  else (names.mapM PartitionDate).map fun hours => hours.foldl (fun top h => max top (upper h)) 0

variable {Data : Type}

namespace Index

variable (x : Index Data)

/-- `recordPartitionHistoryIfNew`, of an index without `binlog_events`. -/
def recordPartitionHistory (now : ℕ) : Index Data :=
  match x.history with
  | none => { x with history := some { known := true, createdAt := now } }
  | some h => { x with history := some { h with known := false } }

def markPartitionHistoryUnknown (now : ℕ) : Index Data :=
  match x.history with
  | none => { x with history := some { createdAt := now } }
  | some h => { x with history := some { h with known := false } }

def markPartitionsDropped (bound : ℕ) : Index Data :=
  { x with history := x.history.map fun h =>
      { h with droppedBelow := some (max (h.droppedBelow.getD 0) bound) } }

/-- `ALTER TABLE ... DROP PARTITION`, which fails where one of the partitions is not there. -/
def dropPartitions (dropped : List ℕ) : Index Data :=
  match x.hours with
  | none => x
  | some hours =>
      if dropped.all (hours.contains ·) then
        { x with
          hours := some (hours.filter fun h => !dropped.contains h)
          rows := x.rows.filter fun e =>
            (partitionOf hours e.stamp).all fun h => !dropped.contains h }
      else x

/-- `ReadPartitionHistory`. -/
def readPartitionHistory : History := x.history.getD {}

/-- `OldestLivePartitionHour`. -/
def oldestLive : Option ℕ := (x.hours.bind (·.min?)).map (· * 3600)

end Index

inductive Act (Data : Type) : Type where
  | create (now partitions : ℕ) (completed : Bool)
  | restore (now : ℕ) (hours : List ℕ)
  | insert (e : Event Data)
  | rotate (names : List PartitionName) (dropped : Bool)
  | addFuture (start n : ℕ)

/-- A creation on an index that has its table does nothing, and a restore wants an index without
events, which it partitions anew. -/
def Index.step (x : Index Data) : Act Data → Index Data
  | .create now partitions completed =>
      if x.hours.isSome then x
      else
        let recorded := x.recordPartitionHistory now
        if completed then
          { recorded with hours := some ((List.range partitions).map (now / 3600 + ·)) }
        else recorded
  | .restore now hours =>
      if x.rows.isEmpty then
        { x.markPartitionHistoryUnknown now with
          hours := some (hours.dedup.insertionSort (· ≤ ·)), held := [] }
      else x
  | .insert e =>
      if x.hours.isSome then { x with rows := e :: x.rows, held := e :: x.held } else x
  | .rotate names dropped =>
      match droppedBound names with
      | none => x
      | some bound =>
          let marked := x.markPartitionsDropped bound
          if dropped then marked.dropPartitions (names.filterMap PartitionDate) else marked
  | .addFuture start n =>
      match x.hours with
      | none => x
      | some hours =>
          if hours.all (· < start) then
            { x with hours := some (hours ++ (List.range n).map (start + ·)) }
          else x

/-- `LossBound`; the bound is none where nothing was lost. -/
def History.lossBound (h : History) (oldest since : Option ℕ) (captured : Bool) :
    Option (Option ℕ) :=
  oldest.map fun oldest =>
    if !h.known || !captured || since.all (· < h.createdAt) then some oldest
    else if oldest ≠ h.createdAt / 3600 * 3600 then some (max (h.droppedBelow.getD 0) oldest)
    else h.droppedBelow

/-! ## Runs -/

/-- What holds after every step: an index with a table has a history row, and an event that is
gone is older than a recorded drop. -/
structure IndexInv (x : Index Data) : Prop where
  recorded : x.hours.isSome = true → x.history.isSome = true
  empty : x.hours = none → x.held = []
  lost : ∀ e ∈ x.held, e ∈ x.rows ∨ ∃ b, x.readPartitionHistory.droppedBelow = some b ∧ e.stamp < b

theorem le_foldl_max {hours : List ℕ} {h : ℕ} (top : ℕ) (member : h ∈ hours) :
    upper h ≤ hours.foldl (fun top h => max top (upper h)) top := by
  have rises (l : List ℕ) (t : ℕ) : t ≤ l.foldl (fun top h => max top (upper h)) t := by
    induction l generalizing t with
    | nil => exact le_rfl
    | cons a l ih => exact (le_max_left _ _).trans (ih _)
  induction hours generalizing top with
  | nil => cases member
  | cons a hours ih =>
    rcases List.mem_cons.mp member with rfl | later
    · exact (le_max_right _ _).trans (rises hours _)
    · exact ih _ later

/-- The record covers every partition it is made for. -/
theorem upper_le_droppedBound {names : List PartitionName} {bound h : ℕ}
    (found : droppedBound names = some bound) (member : h ∈ names.filterMap PartitionDate) :
    upper h ≤ bound := by
  unfold droppedBound at found
  split at found
  next => cases found
  next =>
    obtain ⟨hours, all, rfl⟩ := Option.map_eq_some_iff.mp found
    obtain ⟨name, listed, date⟩ := List.mem_filterMap.mp member
    obtain ⟨h', found, date'⟩ := (mem_mapM_some all).1 name listed
    rw [date, Option.some.injEq] at date'
    exact le_foldl_max 0 (date' ▸ found)

theorem IndexInv.mark {x : Index Data} (inv : IndexInv x) (bound : ℕ) :
    IndexInv (x.markPartitionsDropped bound) where
  recorded := by simpa [Index.markPartitionsDropped] using inv.recorded
  empty := inv.empty
  lost e member := by
    refine (inv.lost e member).imp_right ?_
    rintro ⟨b, dropped, older⟩
    unfold Index.readPartitionHistory at dropped
    cases row : x.history with
    | none => rw [row] at dropped; cases dropped
    | some h =>
      rw [row] at dropped
      refine ⟨max b bound, ?_, lt_of_lt_of_le older (le_max_left _ _)⟩
      change h.droppedBelow = some b at dropped
      simp [Index.readPartitionHistory, Index.markPartitionsDropped, row, dropped]

/-- A drop loses events of the partitions it takes, and those end below the record. -/
theorem IndexInv.drop {x : Index Data} (inv : IndexInv x) {bound : ℕ} {dropped : List ℕ}
    (covers : ∀ h ∈ dropped, upper h ≤ bound) :
    IndexInv ((x.markPartitionsDropped bound).dropPartitions dropped) := by
  have marked := inv.mark bound
  unfold Index.dropPartitions
  split
  next => exact marked
  next hours here =>
    split
    next =>
      refine ⟨fun _ => marked.recorded (by rw [here]; rfl), nofun, fun e member => ?_⟩
      rcases marked.lost e member with kept | gone
      · by_cases stays : (partitionOf hours e.stamp).all (fun h => !dropped.contains h) = true
        · exact Or.inl (List.mem_filter.mpr ⟨kept, stays⟩)
        · right
          obtain ⟨h, row⟩ := Option.isSome_iff_exists.mp (inv.recorded (by
            change x.hours = some hours at here
            rw [here]
            rfl))
          cases place : partitionOf hours e.stamp with
          | none => rw [place] at stays; exact absurd rfl stays
          | some hour =>
            rw [place] at stays
            have taken : hour ∈ dropped := by simpa using stays
            have before : e.stamp < upper hour := by simpa using List.find?_some place
            refine ⟨max (h.droppedBelow.getD 0) bound, ?_, ?_⟩
            · simp [Index.readPartitionHistory, Index.markPartitionsDropped, row]
            · exact lt_of_lt_of_le before ((covers hour taken).trans (le_max_right _ _))
      · exact Or.inr gone
    next => exact marked

theorem IndexInv.step {x : Index Data} (inv : IndexInv x) (a : Act Data) : IndexInv (x.step a) := by
  unfold Index.step
  cases a with
  | create now partitions completed =>
    dsimp only
    split
    next => exact inv
    next none_ =>
      have fresh : x.held = [] := inv.empty (Option.not_isSome_iff_eq_none.mp none_)
      unfold Index.recordPartitionHistory
      cases x.history <;> cases completed <;> exact ⟨by simp, by simp [fresh], by simp [fresh]⟩
  | restore now hours =>
    dsimp only
    split
    next =>
      unfold Index.markPartitionHistoryUnknown
      cases x.history <;> exact ⟨by simp, by simp, by simp⟩
    next => exact inv
  | insert e =>
    dsimp only
    split
    next there =>
      refine ⟨inv.recorded, fun none_ => ?_, fun f member => ?_⟩
      · change x.hours = none at none_
        rw [none_] at there
        cases there
      · rcases List.mem_cons.mp member with rfl | before
        · exact Or.inl (List.mem_cons_self ..)
        · exact (inv.lost f before).imp_left (List.mem_cons_of_mem _)
    next => exact inv
  | rotate names dropped =>
    dsimp only
    split
    next => exact inv
    next bound found =>
      split
      next => exact inv.drop fun h member => upper_le_droppedBound found member
      next => exact inv.mark bound
  | addFuture start n =>
    dsimp only
    split
    next => exact inv
    next hours here =>
      split
      next => exact ⟨fun _ => inv.recorded (by rw [here]; rfl), nofun, inv.lost⟩
      next => exact inv

/-- The index after a sequence of steps, from nothing. -/
def runs (acts : List (Act Data)) : Index Data := acts.foldl Index.step {}

theorem runs_inv (acts : List (Act Data)) : IndexInv (runs acts) := by
  have start : IndexInv ({} : Index Data) := ⟨nofun, fun _ => rfl, nofun⟩
  unfold runs
  exact (legal_true _ acts).foldl (fun _ a inv _ => inv.step a) start

/-- The record decides, or no recorded drop is above the oldest live partition. -/
def Covered (h : History) (oldest since : Option ℕ) (captured : Bool) : Prop :=
  (h.known = true ∧ captured = true ∧ ∃ s ∈ since, h.createdAt ≤ s) ∨
    ∀ b ∈ h.droppedBelow, ∀ o ∈ oldest, b ≤ o

theorem le_of_lossBound {h : History} {oldest since : Option ℕ} {captured : Bool}
    {bound : Option ℕ} (found : h.lossBound oldest since captured = some bound)
    (covered : Covered h oldest since captured) {b : ℕ} (dropped : h.droppedBelow = some b) :
    ∃ c, bound = some c ∧ b ≤ c := by
  obtain ⟨o, rfl, rfl⟩ := Option.map_eq_some_iff.mp found
  split
  next fallback =>
    refine ⟨o, rfl, ?_⟩
    rcases covered with ⟨known, began, s, here, after⟩ | below
    · obtain rfl := Option.mem_def.mp here
      simp [known, began] at fallback
      omega
    · exact below b dropped o rfl
  next =>
    split
    next => exact ⟨_, rfl, by simp [dropped]⟩
    next => exact ⟨b, dropped, le_rfl⟩

/-- After any history of an index, every event it held that is stamped at or after the bound is
still there, if the record decides the bound or no recorded drop is above the oldest live
partition. -/
theorem lossBound_sound (acts : List (Act Data)) (since : Option ℕ) (captured : Bool)
    (bound : Option ℕ)
    (found : (runs acts).readPartitionHistory.lossBound (runs acts).oldestLive since captured =
      some bound)
    (covered : Covered (runs acts).readPartitionHistory (runs acts).oldestLive since captured) :
    ∀ e ∈ (runs acts).held, (∀ b ∈ bound, b ≤ e.stamp) → e ∈ (runs acts).rows := by
  intro e member after
  rcases (runs_inv acts).lost e member with kept | ⟨b, dropped, older⟩
  · exact kept
  · obtain ⟨c, rfl, above⟩ := le_of_lossBound found covered dropped
    have := after c rfl
    omega

/-- An index of the hours 10, 11 and 12 that loses the middle one. -/
def middleDropped : List (Act String) :=
  [.create 36000 3 true, .insert { stamp := 40000, data := "old" },
    .insert { stamp := 43200, data := "new" }, .rotate [.hourly 11] true]

/-- A lookup the record answers: the bound is the end of hour 11, and what is from then on is
there. -/
theorem middleDropped_recorded :
    (runs middleDropped).readPartitionHistory.lossBound (runs middleDropped).oldestLive
        (some 36000) true = some (some 43200) ∧
      ({ stamp := 43200, data := "new" } : Event String) ∈ (runs middleDropped).rows :=
  ⟨by decide, lossBound_sound middleDropped (some 36000) true (some 43200) (by decide)
    (Or.inl ⟨by decide, rfl, 36000, rfl, by decide⟩) _ (by decide) (by decide)⟩

/-- A lookup of a snapshot that capture does not reach back to: the bound is the hour of the oldest
partition, and an event stamped after it is gone. -/
theorem middleDropped_lost :
    (runs middleDropped).readPartitionHistory.lossBound (runs middleDropped).oldestLive
        (some 36000) false = some (some 36000) ∧
      ({ stamp := 40000, data := "old" } : Event String) ∈ (runs middleDropped).held ∧
      ({ stamp := 40000, data := "old" } : Event String) ∉ (runs middleDropped).rows := by
  decide

end Dbtrail.PartitionHistory
