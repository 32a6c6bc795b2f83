import Mathlib

/-!
# Runs of a step that can refuse

Facts about `List.foldlM` and `List.mapM` in `Except` and `Option`: a run that ends well
took a good step at every element.
-/

namespace Dbtrail

universe u v

variable {α β : Type u} {ε : Type v} {f : α → Except ε β} {xs : List α} {ys : List β}
  {R : α → β → Prop}

theorem Except.bind_eq_ok {x : Except ε α} {b : β} (h : (x >>= f) = .ok b) :
    ∃ a, x = .ok a ∧ f a = .ok b := by
  cases x with
  | error e => cases h
  | ok a => exact ⟨a, rfl, h⟩

/-- A run that ends well took a good step at every element. -/
theorem exists_step_of_foldlM_ok {f : β → α → Except ε β} {init out : β}
    (ok : xs.foldlM f init = .ok out) {x : α} (member : x ∈ xs) :
    ∃ s s', f s x = .ok s' := by
  induction xs generalizing init with
  | nil => cases member
  | cons y rest ih =>
    rw [List.foldlM_cons] at ok
    obtain ⟨mid, step, ok⟩ := Except.bind_eq_ok ok
    rcases List.mem_cons.mp member with rfl | member
    · exact ⟨init, mid, step⟩
    · exact ih ok member

/-- A `mapM` that ends well pairs every element with its result. -/
theorem forall₂_of_mapM_ok (ok : xs.mapM f = .ok ys) :
    List.Forall₂ (fun x y => f x = .ok y) xs ys := by
  induction xs generalizing ys with
  | nil =>
    cases ok
    exact .nil
  | cons x rest ih =>
    rw [List.mapM_cons] at ok
    obtain ⟨y, head, ok⟩ := Except.bind_eq_ok ok
    obtain ⟨tail, more, ok⟩ := Except.bind_eq_ok ok
    cases ok
    exact .cons head (ih more)

theorem exists_of_forall₂_left (pairs : List.Forall₂ R xs ys) {x : α} (member : x ∈ xs) :
    ∃ y ∈ ys, R x y := by
  induction pairs with
  | nil => cases member
  | cons here _ ih =>
    rcases List.mem_cons.mp member with rfl | later
    · exact ⟨_, List.mem_cons_self, here⟩
    · obtain ⟨y, inside, related⟩ := ih later
      exact ⟨y, List.mem_cons_of_mem _ inside, related⟩

theorem exists_of_forall₂_right (pairs : List.Forall₂ R xs ys) {y : β} (member : y ∈ ys) :
    ∃ x ∈ xs, R x y :=
  exists_of_forall₂_left pairs.flip member

/-- Every result of a `mapM` that ends well is the result at some element. -/
theorem exists_of_mapM_ok (ok : xs.mapM f = .ok ys) {y : β} (member : y ∈ ys) :
    ∃ x ∈ xs, f x = .ok y :=
  exists_of_forall₂_right (forall₂_of_mapM_ok ok) member

/-! ## Options -/

section Options

variable {α β : Type} {f : α → Option β} {xs : List α}

theorem mapM_eq_some_iff {ys : List β} :
    xs.mapM f = some ys ↔ List.Forall₂ (fun x y => f x = some y) xs ys := by
  induction xs generalizing ys with
  | nil =>
    rw [List.mapM_nil, List.forall₂_nil_left_iff]
    exact ⟨fun h => (Option.some.inj h).symm, fun h => h ▸ rfl⟩
  | cons x xs ih =>
    rw [List.mapM_cons]
    constructor
    · intro h
      obtain ⟨y, hy, h⟩ := Option.bind_eq_some_iff.mp h
      obtain ⟨rest, hrest, h⟩ := Option.bind_eq_some_iff.mp h
      cases h
      exact .cons hy (ih.mp hrest)
    · intro h
      cases h with
      | cons hy hrest =>
        rw [hy, ih.mpr hrest]
        rfl

/-- A `mapM` that gives something gives, at every element, one of its results. -/
theorem mem_mapM_some {ys : List β} (h : xs.mapM f = some ys) :
    (∀ x ∈ xs, ∃ y ∈ ys, f x = some y) ∧ ∀ y ∈ ys, ∃ x ∈ xs, f x = some y := by
  have pairs := mapM_eq_some_iff.mp h
  exact ⟨fun _ member => exists_of_forall₂_left pairs member,
    fun _ member => exists_of_forall₂_right pairs member⟩

theorem mapM_eq_some_map {g : α → β} (each : ∀ x ∈ xs, f x = some (g x)) :
    xs.mapM f = some (xs.map g) := by
  rw [mapM_eq_some_iff, List.forall₂_map_right_iff, List.forall₂_same]
  exact each

end Options

end Dbtrail
