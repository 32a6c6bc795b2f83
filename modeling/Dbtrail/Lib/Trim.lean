import Mathlib

/-!
# Deduplicated, ordered and trimmed lists

Three steps that readers of several overlapping sources take one after the other:
keep the first copy of each id (`firstOfEach`), sort by a key, keep the last `n`
of each group (`lastOfEach`), and cut the whole to a limit (`capAt`). What comes
from a source whose elements all sort below the others' ends up in front, and the
trim takes from it only what the others leave room for (`lastOfEach_append`).
-/

namespace Dbtrail

open List

variable {α ι κ γ : Type*} {l m : List α} {n size limit : ℕ}

/-! ## The first copy of each id -/

section FirstOfEach

variable [DecidableEq ι] (id : α → ι)

/-- The elements of `l` whose id is new, with `seen` the ids met before. -/
def firstOfEachFrom : List ι → List α → List α
  | _, [] => []
  | seen, a :: l =>
      if id a ∈ seen then firstOfEachFrom seen l
      else a :: firstOfEachFrom (id a :: seen) l

def firstOfEach (l : List α) : List α := firstOfEachFrom id [] l

variable {id} {a : α} {l : List α} {seen : List ι}

theorem firstOfEachFrom_sublist (seen : List ι) (l : List α) :
    (firstOfEachFrom id seen l).Sublist l := by
  induction l generalizing seen with
  | nil => exact List.Sublist.slnil
  | cons a l ih =>
    rw [firstOfEachFrom]
    split
    · exact (ih seen).cons a
    · exact (ih _).cons_cons a

/-- `a` stands in `l` with no other of its id in front of it. -/
def FirstBy (id : α → ι) (l : List α) (a : α) : Prop :=
  ∃ front back, l = front ++ a :: back ∧ ∀ b ∈ front, id b ≠ id a

omit [DecidableEq ι] in
theorem firstBy_cons {b : α} : FirstBy id (b :: l) a ↔ a = b ∨ id b ≠ id a ∧ FirstBy id l a := by
  constructor
  · rintro ⟨front, back, eq, new⟩
    cases front with
    | nil => exact .inl (cons.inj eq).1.symm
    | cons c front =>
      obtain ⟨rfl, tail⟩ := cons.inj eq
      exact .inr ⟨new b mem_cons_self, front, back, tail,
        fun c member => new c (mem_cons_of_mem b member)⟩
  · rintro (rfl | ⟨ne, front, back, rfl, new⟩)
    · exact ⟨[], l, rfl, nofun⟩
    · exact ⟨b :: front, back, rfl, forall_mem_cons.mpr ⟨ne, new⟩⟩

omit [DecidableEq ι] in
theorem firstBy_map {f : α → κ} {key : κ → ι} {b : κ} :
    FirstBy key (l.map f) b ↔ ∃ a, FirstBy (fun a => key (f a)) l a ∧ f a = b := by
  constructor
  · rintro ⟨_, _, eq, new⟩
    obtain ⟨front, _, rfl, rfl, tail⟩ := map_eq_append_iff.mp eq
    obtain ⟨a, back, rfl, rfl, rfl⟩ := map_eq_cons_iff.mp tail
    exact ⟨a, ⟨front, back, rfl, fun c member => new _ (mem_map_of_mem member)⟩, rfl⟩
  · rintro ⟨a, ⟨front, back, rfl, new⟩, rfl⟩
    refine ⟨front.map f, back.map f, by simp, fun c member => ?_⟩
    obtain ⟨d, inFront, rfl⟩ := mem_map.mp member
    exact new d inFront

theorem mem_firstOfEachFrom_iff : a ∈ firstOfEachFrom id seen l ↔ id a ∉ seen ∧ FirstBy id l a := by
  induction l generalizing seen with
  | nil => simp [firstOfEachFrom, FirstBy]
  | cons b l ih =>
    rw [firstBy_cons, firstOfEachFrom]
    split
    next held =>
      rw [ih]
      constructor
      · rintro ⟨new, first⟩
        exact ⟨new, .inr ⟨fun same => new (same ▸ held), first⟩⟩
      · rintro ⟨new, rfl | ⟨-, first⟩⟩
        · exact absurd held new
        · exact ⟨new, first⟩
    next held =>
      rw [mem_cons, ih, mem_cons, not_or]
      constructor
      · rintro (rfl | ⟨⟨ne, new⟩, first⟩)
        · exact ⟨held, .inl rfl⟩
        · exact ⟨new, .inr ⟨fun same => ne same.symm, first⟩⟩
      · rintro ⟨new, rfl | ⟨ne, first⟩⟩
        · exact .inl rfl
        · exact .inr ⟨⟨fun same => ne same.symm, new⟩, first⟩

theorem mem_firstOfEach_iff : a ∈ firstOfEach id l ↔ FirstBy id l a := by
  simp [firstOfEach, mem_firstOfEachFrom_iff]

theorem firstOfEachFrom_nodup (seen : List ι) (l : List α) :
    ((firstOfEachFrom id seen l).map id).Nodup := by
  induction l generalizing seen with
  | nil => exact nodup_nil
  | cons a l ih =>
    rw [firstOfEachFrom]
    split
    · exact ih seen
    · rw [map_cons, nodup_cons]
      refine ⟨fun held => ?_, ih _⟩
      obtain ⟨b, member, same⟩ := mem_map.mp held
      refine (mem_firstOfEachFrom_iff.mp member).1 ?_
      rw [same]
      exact mem_cons_self

theorem firstOfEachFrom_congr {seen' : List ι} (same : ∀ i, i ∈ seen ↔ i ∈ seen') (l : List α) :
    firstOfEachFrom id seen l = firstOfEachFrom id seen' l := by
  induction l generalizing seen seen' with
  | nil => rfl
  | cons a l ih =>
    have same' : ∀ i, i ∈ id a :: seen ↔ i ∈ id a :: seen' := by
      intro i
      rw [mem_cons, mem_cons, same i]
    simp only [firstOfEachFrom, same (id a), ih same, ih same']

theorem firstOfEachFrom_append (seen : List ι) (l m : List α) :
    firstOfEachFrom id seen (l ++ m) =
      firstOfEachFrom id seen l ++ firstOfEachFrom id (l.map id ++ seen) m := by
  induction l generalizing seen with
  | nil => rfl
  | cons a l ih =>
    rw [cons_append, firstOfEachFrom, firstOfEachFrom]
    split
    next held =>
      rw [ih seen]
      refine congrArg _ (firstOfEachFrom_congr (fun i => ?_) m)
      simp only [map_cons, cons_append, mem_cons]
      refine ⟨.inr, ?_⟩
      rintro (rfl | rest)
      · exact mem_append_right _ held
      · exact rest
    next =>
      rw [ih (id a :: seen), cons_append]
      refine congrArg _ (congrArg _ (firstOfEachFrom_congr (fun i => ?_) m))
      simp only [map_cons, cons_append, mem_cons, mem_append]
      tauto

/-- Distinct ids are all first. -/
theorem firstOfEachFrom_of_nodup (nodup : (l.map id).Nodup) (new : ∀ a ∈ l, id a ∉ seen) :
    firstOfEachFrom id seen l = l := by
  induction l generalizing seen with
  | nil => rfl
  | cons a l ih =>
    rw [map_cons, nodup_cons] at nodup
    rw [firstOfEachFrom, if_neg (new a mem_cons_self), ih nodup.2]
    intro b member held
    rcases mem_cons.mp held with same | held
    · exact nodup.1 (same ▸ mem_map_of_mem member)
    · exact new b (mem_cons_of_mem a member) held

theorem firstOfEachFrom_of_seen (held : ∀ a ∈ l, id a ∈ seen) : firstOfEachFrom id seen l = [] :=
  eq_nil_iff_forall_not_mem.mpr fun a member =>
    (mem_firstOfEachFrom_iff.mp member).1 (held a ((firstOfEachFrom_sublist seen l).subset member))

omit [DecidableEq ι] in
theorem exists_firstBy (id : α → ι) (member : a ∈ l) : ∃ b, FirstBy id l b ∧ id b = id a := by
  induction l with
  | nil => cases member
  | cons c l ih =>
    by_cases same : id c = id a
    · exact ⟨c, firstBy_cons.mpr (.inl rfl), same⟩
    · have later : a ∈ l := (mem_cons.mp member).resolve_left fun eq => same (eq ▸ rfl)
      obtain ⟨b, first, eq⟩ := ih later
      exact ⟨b, firstBy_cons.mpr (.inr ⟨eq ▸ same, first⟩), eq⟩

theorem exists_mem_firstOfEachFrom (member : a ∈ l) (new : id a ∉ seen) :
    ∃ b ∈ firstOfEachFrom id seen l, id b = id a := by
  obtain ⟨b, first, same⟩ := exists_firstBy id member
  exact ⟨b, mem_firstOfEachFrom_iff.mpr ⟨same ▸ new, first⟩, same⟩

/-- Where an id names one element, the first copies are all the elements. -/
theorem mem_firstOfEach (copies : ∀ a ∈ l, ∀ b ∈ l, id a = id b → a = b) :
    a ∈ firstOfEach id l ↔ a ∈ l := by
  constructor
  · exact fun member => (firstOfEachFrom_sublist [] l).subset member
  · intro member
    obtain ⟨b, held, same⟩ :=
      exists_mem_firstOfEachFrom member (not_mem_nil : id a ∉ ([] : List ι))
    rw [copies a member b ((firstOfEachFrom_sublist [] l).subset held) same.symm]
    exact held

theorem firstOfEach_of_nodup (nodup : (l.map id).Nodup) : firstOfEach id l = l :=
  firstOfEachFrom_of_nodup nodup fun _ _ => not_mem_nil

theorem firstOfEach_append_cons {front back : List α} (new : ∀ b ∈ front, id b ≠ id a) :
    ∃ rest, firstOfEach id (front ++ a :: back) = firstOfEach id front ++ a :: rest := by
  have first : id a ∉ front.map id ++ [] := by simpa using new
  rw [firstOfEach, firstOfEachFrom_append, firstOfEachFrom, if_neg first, firstOfEach]
  exact ⟨_, rfl⟩

/-- The first of its key among those kept and selected: no one in front that is the first of its
id is selected and has the key. -/
theorem firstBy_filter_firstOfEach {p : α → Bool} {key : α → κ} :
    FirstBy key ((firstOfEach id l).filter p) a ↔ p a = true ∧ ∃ front back,
      l = front ++ a :: back ∧ (∀ b ∈ front, id b ≠ id a) ∧
        ∀ b, FirstBy id front b → p b = true → key b ≠ key a := by
  constructor
  · rintro ⟨kept, keptBack, eq, newKey⟩
    have member : a ∈ (firstOfEach id l).filter p := eq ▸ mem_append_cons_self
    obtain ⟨inKept, selected⟩ := mem_filter.mp member
    obtain ⟨front, back, rfl, new⟩ := mem_firstOfEach_iff.mp inKept
    refine ⟨selected, front, back, rfl, new, fun b first keeps => newKey b ?_⟩
    obtain ⟨rest, split⟩ := firstOfEach_append_cons new
    have distinct : ((firstOfEach id (front ++ a :: back)).filter p).Nodup :=
      ((firstOfEachFrom_nodup [] _).of_map).filter _
    -- the selected list splits at `a` in one way only
    rw [split, filter_append, filter_cons_of_pos selected] at eq distinct
    obtain ⟨noneFront, noneBack⟩ := not_or.mp
      (mem_append.not.mp (nodup_cons.mp (nodup_middle.mp distinct)).1)
    obtain ⟨rfl, -⟩ := (append_cons_inj_of_notMem noneFront noneBack).mp eq
    exact mem_filter.mpr ⟨mem_firstOfEach_iff.mpr first, keeps⟩
  · rintro ⟨selected, front, back, rfl, new, newKey⟩
    obtain ⟨rest, split⟩ := firstOfEach_append_cons new
    refine ⟨(firstOfEach id front).filter p, rest.filter p, ?_, fun b member => ?_⟩
    · rw [split, filter_append, filter_cons_of_pos selected]
    · obtain ⟨inKept, keeps⟩ := mem_filter.mp member
      exact newKey b (mem_firstOfEach_iff.mp inKept) keeps

end FirstOfEach

/-! ## Order -/

section Order

variable [LinearOrder κ] {key : α → κ} {l m : List α}

theorem pairwise_key_lt (sorted : l.Pairwise fun a b => key a ≤ key b) (nodup : (l.map key).Nodup) :
    l.Pairwise fun a b => key a < key b :=
  sorted.imp₂ (fun _ _ le ne => lt_of_le_of_ne le ne) (pairwise_map.mp nodup)

/-- A list in strict order of its keys is what sorting any permutation of it gives. -/
theorem insertionSort_eq_of_perm (perm : l.Perm m) (sorted : m.Pairwise fun a b => key a < key b) :
    l.insertionSort (fun a b => key a ≤ key b) = m := by
  have same : (l.insertionSort fun a b => key a ≤ key b).Perm m :=
    (perm_insertionSort _ l).trans perm
  have apart : (m.map key).Nodup := pairwise_map.mpr (sorted.imp fun lt => lt.ne)
  refine same.eq_of_pairwise ?_ (pairwise_insertionSort _ l) (sorted.imp le_of_lt)
  intro a b memA memB le ge
  exact inj_on_of_nodup_map apart (same.mem_iff.mp memA) memB (le_antisymm le ge)

theorem nodup_of_key_lt (sorted : l.Pairwise fun a b => key a < key b) : l.Nodup :=
  sorted.imp fun lt eq => absurd (congrArg key eq) lt.ne

/-- Lists in strict order of their keys: one whose elements are all in the other is a
sublist of it. -/
theorem sublist_of_key_lt (sortedL : l.Pairwise fun a b => key a < key b)
    (sortedM : m.Pairwise fun a b => key a < key b) (subset : ∀ a ∈ l, a ∈ m) : l.Sublist m := by
  obtain ⟨l', perm, sub⟩ := subperm_of_subset (nodup_of_key_lt sortedL) subset
  have eq : l.insertionSort (fun a b => key a ≤ key b) = l' :=
    insertionSort_eq_of_perm perm.symm (sortedM.sublist sub)
  rw [← eq, insertionSort_eq_of_perm (List.Perm.refl l) sortedL] at sub
  exact sub

/-- A list in strict order of its keys is known by its elements. -/
theorem eq_of_key_lt (sortedL : l.Pairwise fun a b => key a < key b)
    (sortedM : m.Pairwise fun a b => key a < key b) (same : ∀ a, a ∈ l ↔ a ∈ m) : l = m :=
  (sublist_of_key_lt sortedL sortedM fun a => (same a).mp).antisymm
    (sublist_of_key_lt sortedM sortedL fun a => (same a).mpr)

end Order

/-! ## Pages -/

/-- An element among the first `n` of a list is among the first `n` of each sublist that
holds it. -/
theorem mem_take_of_sublist (sub : l.Sublist m) (nodup : m.Nodup) {a : α} (early : a ∈ m.take n)
    (member : a ∈ l) : a ∈ l.take n := by
  rw [← take_append_drop n m] at sub nodup
  obtain ⟨front, back, rfl, subFront, subBack⟩ := sublist_append_iff.mp sub
  have apart := (nodup_append.mp nodup).2.2
  have short : front.length ≤ n := subFront.length_le.trans (length_take_le n m)
  rcases mem_append.mp member with here | there
  · rw [take_append, take_of_length_le short]
    exact mem_append_left _ here
  · exact absurd rfl (apart a early a (subBack.subset there))

/-- A sublist that holds the first `n` elements of a list starts with them. -/
theorem take_eq_of_sublist (sub : l.Sublist m) (nodup : m.Nodup) (holds : ∀ a ∈ m.take n, a ∈ l) :
    l.take n = m.take n := by
  rw [← take_append_drop n m] at sub nodup
  obtain ⟨front, back, rfl, subFront, subBack⟩ := sublist_append_iff.mp sub
  obtain ⟨nodupFront, -, apart⟩ := nodup_append.mp nodup
  have within : ∀ a ∈ m.take n, a ∈ front := by
    intro a early
    refine (mem_append.mp (holds a early)).resolve_right fun later => ?_
    exact apart a early a (subBack.subset later) rfl
  have all : front = m.take n :=
    subFront.eq_of_length_le (subperm_of_subset nodupFront within).length_le
  rw [all]
  by_cases full : n ≤ m.length
  · have length : (m.take n).length = n := by rw [length_take, Nat.min_eq_left full]
    rw [take_append_of_le_length length.ge, take_take, Nat.min_self]
  · rw [drop_eq_nil_of_le (Nat.le_of_not_le full)] at subBack
    rw [sublist_nil.mp subBack, append_nil, take_take, Nat.min_self]

/-- `l` cut into parts of `size`, at most `fuel` of them. -/
def batchesFrom (size : ℕ) : ℕ → List α → List (List α)
  | 0, _ => []
  | _, [] => []
  | fuel + 1, a :: l => (a :: l).take size :: batchesFrom size fuel ((a :: l).drop size)

def batchesOf (size : ℕ) (l : List α) : List (List α) := batchesFrom size l.length l

theorem flatten_batchesFrom {fuel : ℕ} (pos : 0 < size) (le : l.length ≤ fuel) :
    (batchesFrom size fuel l).flatten = l := by
  induction fuel generalizing l with
  | zero => exact (length_eq_zero_iff.mp (Nat.le_zero.mp le)).symm
  | succ fuel ih =>
    cases l with
    | nil => rfl
    | cons a l =>
      have less : ((a :: l).drop size).length ≤ fuel := by
        rw [length_drop]
        omega
      rw [batchesFrom, flatten_cons, ih less, take_append_drop]

theorem flatten_batchesOf (pos : 0 < size) (l : List α) : (batchesOf size l).flatten = l :=
  flatten_batchesFrom pos le_rfl

theorem ne_nil_of_mem_batchesFrom {fuel : ℕ} (pos : 0 < size) {batch : List α}
    (member : batch ∈ batchesFrom size fuel l) : batch ≠ [] := by
  fun_induction batchesFrom size fuel l with
  | case1 => cases member
  | case2 => cases member
  | case3 fuel a l ih =>
    rcases mem_cons.mp member with rfl | later
    · simp [pos.ne']
    · exact ih later

/-! ## The last elements -/

theorem rtake_of_length_le (le : l.length ≤ n) : l.rtake n = l := by
  rw [rtake, Nat.sub_eq_zero_of_le le, drop_zero]

theorem length_rtake (n : ℕ) (l : List α) : (l.rtake n).length = min n l.length := by
  rw [rtake, length_drop]
  omega

/-- A sublist that holds the last `n` elements of a list ends with them. -/
theorem rtake_eq_of_sublist (sub : l.Sublist m) (nodup : m.Nodup) (holds : ∀ a ∈ m.rtake n, a ∈ l) :
    l.rtake n = m.rtake n := by
  rw [rtake_eq_reverse_take_reverse, rtake_eq_reverse_take_reverse]
  refine congrArg reverse (take_eq_of_sublist sub.reverse (nodup_reverse.mpr nodup) ?_)
  intro a early
  rw [mem_reverse]
  refine holds a ?_
  rw [rtake_eq_reverse_take_reverse, mem_reverse]
  exact early

/-- The last `n` of two arrangements of one list, where those of one are among those of
the other. -/
theorem rtake_perm_of_subset (perm : l.Perm m) (nodup : m.Nodup)
    (subset : ∀ a ∈ m.rtake n, a ∈ l.rtake n) : (l.rtake n).Perm (m.rtake n) := by
  have apart : (m.rtake n).Nodup := nodup.sublist (drop_sublist _ m)
  refine ((subperm_of_subset apart subset).perm_of_length_le ?_).symm
  rw [length_rtake, length_rtake, perm.length_eq]

theorem countP_le_of_imp {p q : α → Bool} (nodup : l.Nodup)
    (imp : ∀ a ∈ l, p a = true → a ∈ m ∧ q a = true) : l.countP p ≤ m.countP q := by
  rw [countP_eq_length_filter, countP_eq_length_filter]
  refine (subperm_of_subset (nodup.filter p) fun a member => ?_).length_le
  obtain ⟨listed, holds⟩ := mem_filter.mp member
  exact mem_filter.mpr (imp a listed holds)

/-- An element among the first `n` of a list in strict order has fewer than `n` before it. -/
theorem countP_key_lt_of_mem_take [LinearOrder κ] {key : α → κ} {a : α}
    (sorted : l.Pairwise fun a b => key a < key b) (member : a ∈ l.take n) :
    l.countP (fun b => key b < key a) < n := by
  obtain ⟨front, back, eq⟩ := append_of_mem member
  have split : l = front ++ a :: (back ++ l.drop n) := by
    rw [← cons_append, ← append_assoc, ← eq, take_append_drop]
  have short : front.length < n := by
    have length := congrArg length eq
    have most := length_take_le n l
    rw [length_append, length_cons] at length
    omega
  have noneLater : (a :: (back ++ l.drop n)).countP (fun b => key b < key a) = 0 := by
    rw [split] at sorted
    obtain ⟨-, later, -⟩ := pairwise_append.mp sorted
    refine countP_eq_zero.mpr fun b held => ?_
    rcases mem_cons.mp held with rfl | held
    · simp
    · simpa using ((pairwise_cons.mp later).1 b held).le
  have fewer : front.countP (fun b => key b < key a) ≤ front.length := countP_le_length
  rw [split, countP_append, noneLater]
  omega

/-- One among the last `n` has fewer than `n` above it. -/
theorem countP_lt_of_mem_rtake [LinearOrder κ] {key : α → κ} {a : α}
    (sorted : l.Pairwise fun a b => key a < key b) (member : a ∈ l.rtake n) :
    l.countP (fun b => key a < key b) < n := by
  rw [rtake_eq_reverse_take_reverse, mem_reverse] at member
  have few : l.reverse.countP (fun b => OrderDual.toDual (key b) < OrderDual.toDual (key a)) < n :=
    countP_key_lt_of_mem_take (pairwise_reverse.mpr sorted) member
  simpa using few

/-! ## The last `n` of each group -/

section LastOfEach

variable [DecidableEq γ] (group : α → γ) (n : ℕ)

/-- Take `a` in front of what was kept after it, unless its group is full. -/
def keepIfRoom (a : α) (kept : List α) : List α :=
  if kept.countP (fun b => group b = group a) < n then a :: kept else kept

def lastOfEach (l : List α) : List α := l.foldr (keepIfRoom group n) []

variable {group n}

/-- What is kept in front of `kept` is some of `l`. -/
theorem foldr_keepIfRoom (l kept : List α) :
    ∃ older : List α, older.Sublist l ∧ l.foldr (keepIfRoom group n) kept = older ++ kept := by
  induction l with
  | nil => exact ⟨[], List.Sublist.slnil, rfl⟩
  | cons a l ih =>
    obtain ⟨older, sub, eq⟩ := ih
    rw [foldr_cons, eq, keepIfRoom]
    split
    · exact ⟨a :: older, sub.cons_cons a, rfl⟩
    · exact ⟨older, sub.cons a, rfl⟩

/-- Where the groups of `l` are already full, none of it is kept. -/
theorem foldr_keepIfRoom_of_full {l kept : List α}
    (full : ∀ a ∈ l, n ≤ kept.countP fun b => group b = group a) :
    l.foldr (keepIfRoom group n) kept = kept := by
  induction l with
  | nil => rfl
  | cons a l ih =>
    rw [foldr_cons, ih fun b member => full b (mem_cons_of_mem a member), keepIfRoom,
      if_neg (full a mem_cons_self).not_gt]

/-- Where no group holds more than `n`, everything is kept. -/
theorem lastOfEach_of_le {l : List α}
    (room : ∀ a ∈ l, l.countP (fun b => group b = group a) ≤ n) : lastOfEach group n l = l := by
  induction l with
  | nil => rfl
  | cons a l ih =>
    have rest : ∀ b ∈ l, l.countP (fun c => group c = group b) ≤ n := by
      intro b member
      exact ((sublist_cons_self a l).countP_le).trans (room b (mem_cons_of_mem a member))
    have here := room a mem_cons_self
    rw [countP_cons_of_pos (by simp)] at here
    rw [lastOfEach, foldr_cons, ← lastOfEach, ih rest, keepIfRoom,
      if_pos (Nat.lt_of_succ_le here)]

/-- A list trimmed behind another: what lies after is kept as if alone. -/
theorem lastOfEach_append (l m : List α) :
    lastOfEach group n (l ++ m) = l.foldr (keepIfRoom group n) (lastOfEach group n m) :=
  foldr_append

end LastOfEach

/-! ## A limit -/

/-- The first `limit` elements; a limit of zero is none. -/
def capAt (limit : ℕ) (l : List α) : List α := if limit = 0 then l else l.take limit

@[simp] theorem capAt_zero (l : List α) : capAt 0 l = l := if_pos rfl

theorem capAt_of_le (le : limit ≠ 0 → l.length ≤ limit) : capAt limit l = l := by
  rw [capAt]
  split
  next => rfl
  next pos => exact take_of_length_le (le pos)

theorem capAt_append_of_le (pos : limit ≠ 0) (le : limit ≤ l.length) (m : List α) :
    capAt limit (l ++ m) = l.take limit := by
  rw [capAt, if_neg pos, take_append_of_le_length le]

theorem capAt_sublist (limit : ℕ) (l : List α) : (capAt limit l).Sublist l := by
  rw [capAt]
  split
  · exact List.Sublist.refl l
  · exact take_sublist limit l

theorem length_capAt_le (pos : limit ≠ 0) (l : List α) : (capAt limit l).length ≤ limit := by
  rw [capAt, if_neg pos]
  exact length_take_le limit l

/-! ## Merged options -/

/-- What a choice between two options gives is one of them. -/
theorem mem_of_mem_merge {choose : α → α → α} (choice : ∀ a b, choose a b = a ∨ choose a b = b)
    {x y : Option α} {a : α} (merged : a ∈ x.merge choose y) : a ∈ x ∨ a ∈ y := by
  cases x with
  | none => exact .inr (by simpa using merged)
  | some b =>
    cases y with
    | none => exact .inl (by simpa using merged)
    | some c =>
      rcases choice b c with eq | eq
      · exact .inl (by simpa [eq] using merged)
      · exact .inr (by simpa [eq] using merged)

theorem exists_merge_min_le [LinearOrder κ] {x y : Option κ} {a : κ} (member : a ∈ x ∨ a ∈ y) :
    ∃ m, x.merge min y = some m ∧ m ≤ a := by
  cases x with
  | none =>
    rcases member with none_ | here
    · cases none_
    · exact ⟨a, by simpa using here, le_rfl⟩
  | some b =>
    cases y with
    | none =>
      rcases member with here | none_
      · exact ⟨a, here, le_rfl⟩
      · cases none_
    | some c =>
      refine ⟨min b c, rfl, ?_⟩
      rcases member with here | here
      · exact (Option.some.inj here) ▸ min_le_left b c
      · exact (Option.some.inj here) ▸ min_le_right b c

theorem exists_min?_le [LinearOrder κ] {l : List κ} {a : κ} (member : a ∈ l) :
    ∃ m, l.min? = some m ∧ m ≤ a := by
  cases least : l.min? with
  | none => exact absurd (min?_eq_none_iff.mp least) (ne_nil_of_mem member)
  | some m => exact ⟨m, rfl, (min?_eq_some_iff.mp least).2 a member⟩

end Dbtrail
