import Dbtrail.Lib.Trim

/-!
# Ranks

A place in a list ordered by a key is how many elements come before it, and a cut or a
trim of the list keeps the elements of low rank: `mem_capAt_iff_countP` for a limit,
`lastOfEach_eq_filter` for the last of each group. Said so, what is kept of a part of a
list can be compared with what is kept of the whole.
-/

namespace Dbtrail

open List

variable {α κ γ : Type*} [LinearOrder κ] {key : α → κ}

/-! ## A limit -/

/-- A limit keeps the elements with fewer than the limit before them. -/
theorem mem_capAt_iff_countP {l : List α} {limit : ℕ} {a : α}
    (sorted : l.Pairwise fun a b => key a < key b) :
    a ∈ capAt limit l ↔ a ∈ l ∧ (limit = 0 ∨ l.countP (fun b => key b < key a) < limit) := by
  rw [capAt]
  split
  next none_ => simp [none_]
  next some_ =>
    constructor
    · exact fun early => ⟨mem_of_mem_take early,
        Or.inr (countP_key_lt_of_mem_take sorted early)⟩
    · rintro ⟨member, few⟩
      have fewer := few.resolve_left some_
      rw [← take_append_drop limit l] at member sorted
      refine (mem_append.mp member).resolve_right fun late => ?_
      -- Past the limit, all the elements up to it come before.
      have all : (l.take limit).countP (fun b => key b < key a) = (l.take limit).length := by
        refine countP_eq_length.mpr fun b early => decide_eq_true ?_
        exact (pairwise_append.mp sorted).2.2 b early a late
      have full : (l.take limit).length = limit := by
        have some_ := length_pos_of_mem late
        rw [length_drop] at some_
        rw [length_take]
        omega
      have part := (take_sublist limit l).countP_le (p := fun b => key b < key a)
      rw [all, full] at part
      exact absurd fewer (Nat.not_lt.mpr part)

/-! ## The last of each group -/

section Groups

variable [DecidableEq γ] {group : α → γ} {n : ℕ}

theorem countP_group_lastOfEach (l : List α) (g : γ) :
    (lastOfEach group n l).countP (fun b => group b = g) =
      min n (l.countP fun b => group b = g) := by
  induction l with
  | nil => simp [lastOfEach]
  | cons a l ih =>
    have step : lastOfEach group n (a :: l) = keepIfRoom group n a (lastOfEach group n l) := rfl
    rw [step, keepIfRoom]
    by_cases same : group a = g
    · rw [countP_cons_of_pos (by simpa using same), same, ih]
      split
      next room =>
        rw [countP_cons_of_pos (by simpa using same), ih]
        omega
      next full =>
        rw [ih]
        omega
    · rw [countP_cons_of_neg (by simpa using same)]
      split
      · rw [countP_cons_of_neg (by simpa using same), ih]
      · exact ih

/-- Of a list in order, the trim keeps the elements with fewer than `n` of their group above
them. -/
theorem lastOfEach_eq_filter {l : List α} (sorted : l.Pairwise fun a b => key a < key b) :
    lastOfEach group n l =
      l.filter fun a => l.countP (fun b => group b = group a ∧ key a < key b) < n := by
  induction l with
  | nil => rfl
  | cons a l ih =>
    obtain ⟨above, sortedRest⟩ := pairwise_cons.mp sorted
    have rest : ∀ c ∈ l, (a :: l).countP (fun b => group b = group c ∧ key c < key b) =
        l.countP fun b => group b = group c ∧ key c < key b := by
      intro c member
      refine countP_cons_of_neg ?_
      simpa using fun _ => (above c member).le
    have here : (a :: l).countP (fun b => group b = group a ∧ key a < key b) =
        l.countP fun b => group b = group a := by
      rw [countP_cons_of_neg (by simp)]
      refine countP_congr fun b member => ?_
      simp [above b member]
    have tail : l.filter (fun c => decide ((a :: l).countP
        (fun b => group b = group c ∧ key c < key b) < n)) = lastOfEach group n l := by
      rw [ih sortedRest]
      exact filter_congr fun c member => by rw [rest c member]
    have step : lastOfEach group n (a :: l) = keepIfRoom group n a (lastOfEach group n l) := rfl
    rw [step, keepIfRoom, countP_group_lastOfEach, filter_cons, tail, here]
    simp

/-- Lists compared group by group. -/
theorem length_le_of_groups (group : α → γ) {l m : List α}
    (each : ∀ g, l.countP (fun b => group b = g) ≤ m.countP fun b => group b = g) :
    l.length ≤ m.length := by
  have counted (k : List α) (g : γ) :
      (k.map group : Multiset γ).count g = k.countP fun b => group b = g := by
    rw [Multiset.coe_count, count, countP_map]
    exact countP_congr fun b _ => by simp
  have le : (l.map group : Multiset γ) ≤ (m.map group : Multiset γ) := by
    refine Multiset.le_iff_count.mpr fun g => ?_
    rw [counted l g, counted m g]
    exact each g
  simpa using Multiset.card_le_card le

end Groups

/-! ## Elements of low rank -/

/-- If `n` elements with a property lie above `a`, then so do the `n` highest of them. -/
theorem le_countP_highest {l : List α} (nodup : (l.map key).Nodup) (p : α → Prop)
    [DecidablePred p] {n : ℕ} {a : α}
    (many : n ≤ l.countP fun b => p b ∧ key a < key b) :
    n ≤ l.countP fun b => (p b ∧ key a < key b) ∧
      l.countP (fun c => p c ∧ key b < key c) < n := by
  set above := l.filter fun b => p b ∧ key a < key b with isAbove
  set ordered := above.insertionSort fun b c => key b ≤ key c with isOrdered
  have perm : ordered.Perm above := perm_insertionSort _ above
  have keys : (ordered.map key).Nodup :=
    (perm.map key).nodup_iff.mpr ((filter_sublist.map key).nodup nodup)
  have sorted : ordered.Pairwise fun b c => key b < key c :=
    pairwise_key_lt (pairwise_insertionSort _ above) keys
  have length : (ordered.rtake n).length = n := by
    rw [length_rtake, perm.length_eq, isAbove, ← countP_eq_length_filter]
    exact Nat.min_eq_left many
  have each : ∀ b ∈ ordered.rtake n, b ∈ l ∧ ((p b ∧ key a < key b) ∧
      l.countP (fun c => p c ∧ key b < key c) < n) := by
    intro b member
    have held : b ∈ above := perm.mem_iff.mp ((drop_sublist _ ordered).subset member)
    obtain ⟨listed, isHigh⟩ := mem_filter.mp held
    have high : p b ∧ key a < key b := of_decide_eq_true isHigh
    refine ⟨listed, high, ?_⟩
    have few := countP_lt_of_mem_rtake sorted member
    rw [perm.countP_eq, isAbove, countP_filter] at few
    refine lt_of_le_of_lt (countP_mono_left fun c _ holds => ?_) few
    have higher : p c ∧ key b < key c := of_decide_eq_true holds
    simpa [higher.1, higher.2] using high.2.trans higher.2
  have apart : (ordered.rtake n).Nodup :=
    (nodup_of_key_lt sorted).sublist (drop_sublist _ ordered)
  calc n = (ordered.rtake n).countP fun _ => true := by rw [countP_true, length]
    _ ≤ _ := countP_le_of_imp apart fun b member _ =>
      ⟨(each b member).1, decide_eq_true (each b member).2⟩

end Dbtrail
