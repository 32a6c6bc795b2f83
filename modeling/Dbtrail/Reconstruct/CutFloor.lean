import Dbtrail.Reconstruct.SnapshotCut

/-!
# Where a search for the cut may start

A search for the cut of a time leaves the id it got to, and a search for a later time starts
there. Nothing is asked of the rows but their ids: each row that is added has an id above every
id the index has given out, and rows may be deleted at any time, as the cleanup after a restart
of capture does before it captures the same events again.

`CutRun.resolve_eq`: starting at what is remembered, a resolution comes to the cut it comes
to with nothing remembered.
-/

namespace Dbtrail

variable {Row : Type}

/-! ## An index whose rows come and go -/

/-- `issued` is the highest id given out, also to rows that are gone. -/
structure IssuedIndex (Row : Type) : Type where
  rows : List (ResultRow Row)
  ids_ascending : rows.Pairwise fun a b => a.eventID < b.eventID
  layout : PartitionLayout
  issued : ℕ
  ids_issued : ∀ r ∈ rows, r.eventID ≤ issued

instance : CutReads (IssuedIndex Row) Row := ⟨IssuedIndex.rows, IssuedIndex.layout⟩

/-- Capture appends rows under new ids, rows are deleted, or hours are split off `p_future`. -/
inductive IssuedIndex.Step : IssuedIndex Row → IssuedIndex Row → Prop
  | append {w w' : IssuedIndex Row} (added : List (ResultRow Row))
      (rows : w'.rows = w.rows ++ added) (fresh : ∀ r ∈ added, w.issued < r.eventID)
      (layout : w'.layout = w.layout) (issued : w.issued ≤ w'.issued) : Step w w'
  | delete {w w' : IssuedIndex Row} (kept : w'.rows.Sublist w.rows)
      (layout : w'.layout = w.layout) (issued : w'.issued = w.issued) : Step w w'
  | reorganize {w w' : IssuedIndex Row} (hours : List ℤ)
      (labels : w'.layout.labels = w.layout.labels ++ hours) (rows : w'.rows = w.rows)
      (issued : w'.issued = w.issued) : Step w w'

namespace IssuedIndex

def Steps : IssuedIndex Row → IssuedIndex Row → Prop := Relation.ReflTransGen Step

variable {w w' : IssuedIndex Row}

theorem Step.issued_le (step : w.Step w') : w.issued ≤ w'.issued := by
  cases step with
  | append added rows fresh layout issued => exact issued
  | delete kept layout issued => exact issued.ge
  | reorganize hours labels rows issued => exact issued.ge

theorem Step.mem_or_above (step : w.Step w') {r : ResultRow Row} (member : r ∈ w'.rows) :
    r ∈ w.rows ∨ w.issued < r.eventID := by
  cases step with
  | append added rows fresh layout issued =>
    rw [rows] at member
    exact (List.mem_append.mp member).imp id (fresh r)
  | delete kept layout issued => exact Or.inl (kept.subset member)
  | reorganize hours labels rows issued => exact Or.inl (rows ▸ member)

theorem Step.labels_extend (step : w.Step w') : w.layout.labels <+: w'.layout.labels := by
  cases step with
  | append added rows fresh layout issued => rw [layout]
  | delete kept layout issued => rw [layout]
  | reorganize hours labels rows issued =>
    rw [labels]
    exact List.prefix_append _ _

theorem Steps.issued_le (steps : Steps w w') : w.issued ≤ w'.issued := by
  induction steps with
  | refl => exact le_rfl
  | tail _ step ih => exact ih.trans step.issued_le

/-- A row of a later state was there, or has an id not given out then. -/
theorem Steps.mem_or_above (steps : Steps w w') {r : ResultRow Row} (member : r ∈ w'.rows) :
    r ∈ w.rows ∨ w.issued < r.eventID := by
  induction steps with
  | refl => exact Or.inl member
  | tail before step ih =>
    rcases step.mem_or_above member with held | above
    · exact ih held
    · exact Or.inr ((Steps.issued_le before).trans_lt above)

theorem Steps.labels_extend (steps : Steps w w') : w.layout.labels <+: w'.layout.labels := by
  induction steps with
  | refl => exact List.prefix_rfl
  | tail _ step ih => exact ih.trans step.labels_extend

end IssuedIndex

open IssuedIndex

/-! ## A floor hides nothing -/

section Search

variable {Index : Type} [CutReads Index Row] {ws : ℕ → Index} {time : ℤ} {floor : ℕ}

theorem isPast_floor {r : ResultRow Row} (under : r.eventID < floor → r.eventTimestamp ≤ time) :
    isPast time floor r = isPast time 0 r := by
  unfold isPast
  by_cases past : time < r.eventTimestamp
  · have above : floor ≤ r.eventID := not_lt.mp fun lower => absurd (under lower) (not_le.mpr past)
    simp [above]
  · simp [past]

theorem find?_isPast_floor {rows : List (ResultRow Row)}
    (under : ∀ r ∈ rows, r.eventID < floor → r.eventTimestamp ≤ time)
    (also : ResultRow Row → Bool) :
    rows.find? (fun r => also r && isPast time floor r) =
      rows.find? (fun r => also r && isPast time 0 r) :=
  List.find?_congr fun r member => by rw [isPast_floor (under r member)]

theorem firstEventPastIn_floor {w : Index}
    (under : ∀ r ∈ CutReads.rows w, r.eventID < floor → r.eventTimestamp ≤ time)
    (bound : Option (List Partition)) :
    firstEventPastIn w time floor bound = firstEventPastIn w time 0 bound := by
  cases bound with
  | none => simpa [firstEventPastIn] using find?_isPast_floor under fun _ => true
  | some keep =>
    simp only [firstEventPastIn]
    rw [find?_isPast_floor under]

section

variable (under : ∀ i, ∀ r ∈ CutReads.rows (ws i), r.eventID < floor → r.eventTimestamp ≤ time)
  (fails : ℕ → Bool)

include under fails

/-- Every statement of the search finds the same row with the floor and without. -/
theorem searchConfirmed_floor (left i : ℕ) (bound : Option (List Partition)) :
    searchConfirmed ws fails time floor left i bound =
      searchConfirmed ws fails time 0 left i bound := by
  have whole (j : ℕ) : (CutReads.rows (ws j)).find? (isPast time floor) =
      (CutReads.rows (ws j)).find? (isPast time 0) := by
    simpa using find?_isPast_floor (under j) fun _ => true
  induction left generalizing i bound with
  | zero =>
    cases bound with
    | none => simp only [searchConfirmed, whole]
    | some keep => simp only [searchConfirmed, whole, firstEventPastIn_floor (under i)]
  | succ left ih =>
    cases bound with
    | none => simp only [searchConfirmed, whole]
    | some keep =>
      unfold searchConfirmed
      simp only [whole, firstEventPastIn_floor (under i), ih]

theorem firstEventPast_floor :
    firstEventPast ws fails time floor = firstEventPast ws fails time 0 :=
  searchConfirmed_floor under fails _ _ _

end

end Search

/-! ## What is remembered stays true -/

theorem issuedIndex_idsRun : IdsRun Steps fun (w : IssuedIndex Row) n => n ≤ w.issued where
  ascending := IssuedIndex.ids_ascending
  labels := Steps.labels_extend
  stays := fun steps le => le.trans steps.issued_le
  fresh := fun steps le member => (steps.mem_or_above member).imp_right le.trans_lt
  own := fun {w r} member => w.ids_issued r member
  le := fun growing _ _ le => Nat.rel_of_forall_rel_succ_of_le (Relation.ReflTransGen _) growing le

/-! ## Every run -/

/-- The cut from where the remembered search starts is the cut from the start of the index. -/
theorem CutRun.resolve_eq {ws : ℕ → IssuedIndex Row} {floors : Option CutFloor}
    (run : CutRun Steps (ws 0) floors) (growing : Growing Steps ws) (fails : ℕ → Bool) (time : ℤ) :
    (resolveSnapshotCut ws fails time true floors).1 =
      (resolveSnapshotCut ws fails time false none).1 := by
  have same := firstEventPast_floor ((run.floorSound issuedIndex_idsRun).under issuedIndex_idsRun
    (issuedIndex_idsRun.le growing) time true) fails
  unfold resolveSnapshotCut
  split
  next => rfl
  next newest isNewest =>
    simp only [same]
    rfl

/-! ## A restart between two refreshes -/

theorem issuedLabels_ascending : [(500000 : ℤ)].Pairwise (· < ·) := by decide

theorem issuedLabels_set : ∀ label ∈ [(500000 : ℤ)], zeroTime < labelTime label := by decide

/-- Rows of one binary log up to the highest id given out. -/
def issuedIndex (rows : List (ResultRow Unit)) (issued : ℕ)
    (ascending : rows.Pairwise fun a b => a.eventID < b.eventID)
    (bound : ∀ r ∈ rows, r.eventID ≤ issued) : IssuedIndex Unit :=
  ⟨rows, ascending, ⟨[500000], issuedLabels_ascending, issuedLabels_set⟩, issued,
    bound⟩

def beforeRestart : IssuedIndex Unit :=
  issuedIndex [eventRow 1 100 200 50 "1", eventRow 2 200 300 60 "2", eventRow 3 300 400 70 "3"] 3
    (by decide) (by decide)

/-- The last row was deleted, and captured again with the one that follows it. -/
def afterRestart : IssuedIndex Unit :=
  issuedIndex [eventRow 1 100 200 50 "1", eventRow 2 200 300 60 "2", eventRow 4 300 400 70 "3",
    eventRow 5 400 500 250 "4"] 5 (by decide) (by decide)

theorem restart_steps : Steps beforeRestart afterRestart := by
  have cleaned : beforeRestart.Step (issuedIndex
      [eventRow 1 100 200 50 "1", eventRow 2 200 300 60 "2"] 3 (by decide) (by decide)) :=
    .delete (List.sublist_append_left _ [eventRow 3 300 400 70 "3"]) rfl rfl
  exact .head cleaned (.single (.append [eventRow 4 300 400 70 "3", eventRow 5 400 500 250 "4"]
    rfl (by decide) rfl (by decide)))

/-- The first search ends at the newest row, which the restart deletes: the second one starts
over. The search after it starts where that one ended. -/
theorem restart_cut :
    let first := (resolveSnapshotCut (fun _ => beforeRestart) (fun _ => false) 55 true none).2
    let second := (resolveSnapshotCut (fun _ => afterRestart) (fun _ => false) 100 true first).2
    first = some ⟨55, 2, 3, "b.1", 400⟩ ∧ second = some ⟨100, 5, 5, "b.1", 500⟩ ∧
      (startFloor (fun _ => afterRestart) 200 true second).1 = 5 ∧
      (resolveSnapshotCut (fun _ => afterRestart) (fun _ => false) 200 true second).1 =
        (resolveSnapshotCut (fun _ => afterRestart) (fun _ => false) 200 false none).1 := by
  have still (w : IssuedIndex Unit) : Growing Steps fun _ => w := fun _ => .refl
  have run := CutRun.resolved (.start beforeRestart) (still beforeRestart)
    (fun _ => false) 55 true
  have again := CutRun.resolved (run.changed restart_steps) (still afterRestart)
    (fun _ => false) 100 true
  exact ⟨by decide, by decide, by decide,
    again.resolve_eq (still afterRestart) (fun _ => false) 200⟩

end Dbtrail
