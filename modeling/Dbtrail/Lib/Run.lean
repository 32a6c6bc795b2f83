import Mathlib

/-!
# Runs of a step function

A run is a fold of a step over a schedule of actions. `Legal` says that every action
is allowed in the state it is taken in, and its rules turn what one allowed step
keeps into what a run keeps.
-/

namespace Dbtrail

variable {State Act : Type}

/-- A schedule whose every step is allowed where it is taken. -/
def Legal (step : State → Act → State) (ok : State → Act → Prop) : State → List Act → Prop
  | _, [] => True
  | p, a :: acts => ok p a ∧ Legal step ok (step p a) acts

variable {step : State → Act → State} {ok : State → Act → Prop}

instance Legal.decidable [∀ p a, Decidable (ok p a)] :
    ∀ (p : State) (acts : List Act), Decidable (Legal step ok p acts)
  | _, [] => inferInstanceAs (Decidable True)
  | p, a :: acts =>
      have := Legal.decidable (step p a) acts
      inferInstanceAs (Decidable (ok p a ∧ Legal step ok (step p a) acts))

theorem legal_true (p : State) (acts : List Act) : Legal step (fun _ _ => True) p acts := by
  induction acts generalizing p with
  | nil => trivial
  | cons a acts ih => exact ⟨trivial, ih (step p a)⟩

/-- What every allowed step keeps holds after a legal schedule. -/
theorem Legal.foldl {inv : State → Prop} (keeps : ∀ p a, inv p → ok p a → inv (step p a))
    {acts : List Act} {p : State} (legal : Legal step ok p acts) (start : inv p) :
    inv (acts.foldl step p) := by
  induction acts generalizing p with
  | nil => exact start
  | cons a acts ih => exact ih legal.2 (keeps p a start legal.1)

/-- A schedule is legal exactly when it never leaves `good`, if allowed steps keep an
invariant within `good` and a step that is not allowed leaves it. -/
theorem legal_iff_good {inv good : State → Prop}
    (keeps : ∀ p a, inv p → ok p a → inv (step p a)) (within : ∀ p, inv p → good p)
    (allowed : ∀ p a, inv p → good (step p a) → ok p a) {acts : List Act} {p : State}
    (start : inv p) :
    Legal step ok p acts ↔
      ∀ before rest, acts = before ++ rest → good (before.foldl step p) := by
  induction acts generalizing p with
  | nil =>
    refine iff_of_true trivial fun before rest split => ?_
    rw [(List.append_eq_nil_iff.mp split.symm).1]
    exact within p start
  | cons a acts ih =>
    constructor
    · rintro ⟨first, legal⟩ before rest split
      cases before with
      | nil => exact within p start
      | cons b before =>
        obtain ⟨rfl, tails⟩ := List.cons.inj split
        exact (ih (keeps p a start first)).mp legal before rest tails
    · intro good_all
      have first := allowed p a start (good_all [a] acts rfl)
      refine ⟨first, (ih (keeps p a start first)).mpr fun before rest split => ?_⟩
      exact good_all (a :: before) rest (congrArg (a :: ·) split)

/-- A schedule that is legal and whose actions are all of one kind. -/
theorem Legal.and_forall {q : Act → Prop} {acts : List Act} {p : State}
    (legal : Legal step ok p acts) (each : ∀ a ∈ acts, q a) :
    Legal step (fun p a => ok p a ∧ q a) p acts := by
  induction acts generalizing p with
  | nil => trivial
  | cons a acts ih =>
    exact ⟨⟨legal.1, each a (by simp)⟩, ih legal.2 fun b member => each b (by simp [member])⟩

/-- A run whose steps each take at most one item from a queue takes as many as it has steps
that read. -/
theorem Legal.foldl_drop {Item : Type} {reads : Act → Bool} (inv : State → Prop)
    (queue : State → List Item)
    (keeps : ∀ p a, inv p → ok p a →
      inv (step p a) ∧ queue (step p a) = (queue p).drop (if reads a then 1 else 0))
    {acts : List Act} {p : State} (legal : Legal step ok p acts) (start : inv p) :
    inv (acts.foldl step p) ∧
      queue (acts.foldl step p) = (queue p).drop (acts.countP reads) := by
  induction acts generalizing p with
  | nil => exact ⟨start, rfl⟩
  | cons a acts ih =>
    obtain ⟨kept, read⟩ := keeps p a start legal.1
    obtain ⟨kept', read'⟩ := ih legal.2 kept
    refine ⟨kept', ?_⟩
    rw [List.foldl_cons, read', read, List.drop_drop, List.countP_cons, Nat.add_comm]

end Dbtrail
