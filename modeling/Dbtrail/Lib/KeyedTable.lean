import Mathlib

/-!
# Tables addressed by a key

A stored table is a list of rows; what it *means* is a partial function from
keys to rows. `Lists key rows t` says that `rows` holds exactly the rows of
`t`, one for each key `t` holds, in any order. Two listings of one table are
permutations of each other (`Lists.perm`), so two implementations that keep
their rows in different places and orders are compared through the table they
list.

`overlay w t` is the table `t` after the per-key writes `w`: a written key
holds what `w` says (a row, or nothing), any other key what `t` holds.
-/

namespace Dbtrail

open List

variable {ρ κ : Type*}

/-- `rows` lists the table `t`: every row has a key, no key occurs twice, and
the rows are exactly those of `t`. -/
structure Lists (key : ρ → Option κ) (rows : List ρ) (t : κ → Option ρ) : Prop where
  keyed : ∀ r ∈ rows, ∃ k, key r = some k
  nodup : (rows.map key).Nodup
  mem_iff : ∀ k r, t k = some r ↔ r ∈ rows ∧ key r = some k

variable {key : ρ → Option κ} {rows rows' : List ρ} {t : κ → Option ρ} {k : κ}
  {w : κ → Option (Option ρ)} {ks : List κ}

theorem Lists.nodup_rows (lists : Lists key rows t) : rows.Nodup :=
  List.Nodup.of_map _ lists.nodup

theorem Lists.mem (lists : Lists key rows t) {r : ρ} :
    r ∈ rows ↔ ∃ k, key r = some k ∧ t k = some r := by
  constructor
  · intro member
    obtain ⟨k, hk⟩ := lists.keyed r member
    exact ⟨k, hk, (lists.mem_iff k r).mpr ⟨member, hk⟩⟩
  · rintro ⟨k, -, hold⟩
    exact ((lists.mem_iff k r).mp hold).1

/-- Two listings of one table hold the same rows equally often. -/
theorem Lists.perm (left : Lists key rows t) (right : Lists key rows' t) : rows.Perm rows' := by
  rw [perm_ext_iff_of_nodup left.nodup_rows right.nodup_rows]
  intro r
  rw [left.mem, right.mem]

/-- A list of rows lists one table. -/
theorem Lists.table_eq {t' : κ → Option ρ} (left : Lists key rows t) (right : Lists key rows t') :
    t = t' := by
  funext k
  apply Option.ext
  intro r
  rw [left.mem_iff, right.mem_iff]

theorem Lists.of_perm (lists : Lists key rows t) (perm : rows.Perm rows') : Lists key rows' t where
  keyed r member := lists.keyed r (perm.mem_iff.mpr member)
  nodup := (perm.map key).nodup_iff.mp lists.nodup
  mem_iff k r := by rw [lists.mem_iff, perm.mem_iff]

theorem Lists.holds_iff (lists : Lists key rows t) :
    (∃ r, t k = some r) ↔ ∃ r ∈ rows, key r = some k := by
  constructor
  · rintro ⟨r, hold⟩
    obtain ⟨member, hk⟩ := (lists.mem_iff k r).mp hold
    exact ⟨r, member, hk⟩
  · rintro ⟨r, member, hk⟩
    exact ⟨r, (lists.mem_iff k r).mpr ⟨member, hk⟩⟩

/-- The keys of a listing, in the order of its rows. -/
theorem Lists.exists_keys (lists : Lists key rows t) :
    ∃ ks : List κ, ks.Nodup ∧ (∀ k r, t k = some r → k ∈ ks) ∧
      List.Forall₂ (fun r k => key r = some k ∧ t k = some r) rows ks := by
  have choose : ∀ l : List ρ, (∀ r ∈ l, r ∈ rows) →
      ∃ ks : List κ, l.map key = ks.map some ∧
        List.Forall₂ (fun r k => key r = some k ∧ t k = some r) l ks := by
    intro l
    induction l with
    | nil => exact fun _ => ⟨[], rfl, .nil⟩
    | cons r rest ih =>
      intro inRows
      obtain ⟨ks, keys, pairs⟩ := ih fun r' member => inRows r' (by simp [member])
      obtain ⟨k, hk⟩ := lists.keyed r (inRows r (by simp))
      have hold := (lists.mem_iff k r).mpr ⟨inRows r (by simp), hk⟩
      exact ⟨k :: ks, by simp [keys, hk], .cons ⟨hk, hold⟩ pairs⟩
  obtain ⟨ks, keys, pairs⟩ := choose rows fun _ member => member
  refine ⟨ks, ?_, ?_, pairs⟩
  · have nodup := lists.nodup
    rw [keys] at nodup
    exact nodup.of_map _
  · intro k r hold
    obtain ⟨member, hk⟩ := (lists.mem_iff k r).mp hold
    have inKeys : some k ∈ ks.map some := by
      rw [← keys, ← hk]
      exact mem_map_of_mem member
    simpa using inKeys

section TableOf

variable [DecidableEq κ]

/-- The table a list of rows stores: the first row under each key. -/
def tableOf (key : ρ → Option κ) (rows : List ρ) : κ → Option ρ :=
  fun k => rows.find? fun r => key r == some k

theorem lists_tableOf {rows : List ρ} (keyed : ∀ r ∈ rows, ∃ k, key r = some k)
    (nodup : (rows.map key).Nodup) : Lists key rows (tableOf key rows) := by
  refine ⟨keyed, nodup, fun k r => ?_⟩
  unfold tableOf
  constructor
  · intro found
    have hk := find?_some found
    exact ⟨mem_of_find?_eq_some found, by simpa using hk⟩
  · rintro ⟨member, hk⟩
    cases found : rows.find? fun r => key r == some k with
    | none =>
      rw [find?_eq_none] at found
      exact absurd (by simpa using hk) (found r member)
    | some r' =>
      have hk' : key r' = some k := by simpa using find?_some found
      rw [inj_on_of_nodup_map nodup (mem_of_find?_eq_some found) member
        (hk'.trans hk.symm)]

end TableOf

/-! ## Per-key writes -/

/-- The table `t` after the writes `w`. -/
def overlay (w : κ → Option (Option ρ)) (t : κ → Option ρ) : κ → Option ρ :=
  fun k => (w k).getD (t k)

/-- The writes of `newer` over those of `older`. -/
def supersede (newer older : κ → Option (Option ρ)) : κ → Option (Option ρ) :=
  fun k => newer k <|> older k

theorem overlay_supersede (newer older : κ → Option (Option ρ)) (t : κ → Option ρ) :
    overlay (supersede newer older) t = overlay newer (overlay older t) := by
  funext k
  unfold overlay supersede
  cases newer k <;> rfl

@[simp] theorem overlay_none (t : κ → Option ρ) : overlay (fun _ => none) t = t := rfl

theorem overlay_of_write {v : Option ρ} (hw : w k = some v) (t : κ → Option ρ) :
    overlay w t k = v := by
  simp only [overlay, hw, Option.getD_some]

theorem overlay_of_none (hw : w k = none) (t : κ → Option ρ) : overlay w t k = t k := by
  simp only [overlay, hw, Option.getD_none]

theorem overlay_eq_some {r : ρ} (hold : overlay w t k = some r) :
    w k = some (some r) ∨ w k = none ∧ t k = some r := by
  cases hw : w k with
  | none => exact .inr ⟨rfl, by rwa [overlay_of_none hw] at hold⟩
  | some v =>
    rw [overlay_of_write hw] at hold
    exact .inl (by rw [hold])

/-- A listing after writes, assembled from the rows no write reached and the
rows the writes leave. -/
theorem Lists.overlay_append {kept added : List ρ} (lists : Lists key rows t)
    (kept_sublist : kept.Sublist rows)
    (mem_kept : ∀ r ∈ rows, ∀ k, key r = some k → (r ∈ kept ↔ w k = none))
    (added_lists : Lists key added fun k => (w k).join) :
    Lists key (kept ++ added) (overlay w t) := by
  have mem_added : ∀ r k, key r = some k → (r ∈ added ↔ w k = some (some r)) := by
    intro r k hk
    have iff := added_lists.mem_iff k r
    rw [Option.join_eq_some_iff] at iff
    exact ⟨fun member => iff.mpr ⟨member, hk⟩, fun write => (iff.mp write).1⟩
  refine ⟨?_, ?_, ?_⟩
  · exact forall_mem_append.mpr
      ⟨fun r member => lists.keyed r (kept_sublist.mem member), added_lists.keyed⟩
  · rw [map_append, nodup_append]
    refine ⟨(kept_sublist.map key).nodup lists.nodup, added_lists.nodup, ?_⟩
    rintro o inKept o' inAdded rfl
    obtain ⟨r, hr, rfl⟩ := mem_map.mp inKept
    obtain ⟨r', hr', same⟩ := mem_map.mp inAdded
    obtain ⟨k, hk⟩ := lists.keyed r (kept_sublist.mem hr)
    have unwritten := (mem_kept r (kept_sublist.mem hr) k hk).mp hr
    have written := (mem_added r' k (same.trans hk)).mp hr'
    rw [unwritten] at written
    cases written
  · intro k r
    rw [mem_append]
    cases hw : w k with
    | none =>
      rw [overlay_of_none hw, lists.mem_iff]
      constructor
      · rintro ⟨member, hk⟩
        exact ⟨.inl ((mem_kept r member k hk).mpr hw), hk⟩
      · rintro ⟨member | member, hk⟩
        · exact ⟨kept_sublist.mem member, hk⟩
        · rw [(mem_added r k hk).mp member] at hw
          cases hw
    | some v =>
      rw [overlay_of_write hw]
      constructor
      · rintro rfl
        have found := (added_lists.mem_iff k r).mp (by rw [hw]; rfl)
        exact ⟨.inr found.1, found.2⟩
      · rintro ⟨member | member, hk⟩
        · rw [(mem_kept r (kept_sublist.mem member) k hk).mp member] at hw
          cases hw
        · rw [(mem_added r k hk).mp member] at hw
          exact (Option.some.inj hw).symm

theorem filterMap_cons_toList {α β : Type*} (f : α → Option β) (x : α) (xs : List α) :
    (x :: xs).filterMap f = (f x).toList ++ xs.filterMap f := by
  cases hx : f x with
  | none => rw [filterMap_cons_none hx]; rfl
  | some y => rw [filterMap_cons_some hx]; rfl

/-- Any duplicate-free list of keys that covers the keys a table holds gives a
listing of it, whatever its order and whatever keys it names besides. -/
theorem lists_filterMap (nodup : ks.Nodup) (keyed : ∀ k r, t k = some r → key r = some k)
    (covers : ∀ k r, t k = some r → k ∈ ks) : Lists key (ks.filterMap t) t := by
  refine ⟨?_, ?_, ?_⟩
  · intro r member
    obtain ⟨k, -, hold⟩ := mem_filterMap.mp member
    exact ⟨k, keyed k r hold⟩
  · rw [map_filterMap]
    refine nodup.filterMap fun k k' o hold hold' => ?_
    obtain ⟨r, hr, rfl⟩ := Option.map_eq_some_iff.mp hold
    obtain ⟨r', hr', same⟩ := Option.map_eq_some_iff.mp hold'
    rw [keyed k r hr, keyed k' r' hr'] at same
    exact (Option.some.inj same).symm
  · intro k r
    constructor
    · intro hold
      exact ⟨mem_filterMap.mpr ⟨k, covers k r hold, hold⟩, keyed k r hold⟩
    · rintro ⟨member, hk⟩
      obtain ⟨k', -, hold⟩ := mem_filterMap.mp member
      rw [keyed k' r hold] at hk
      rwa [Option.some.inj hk] at hold

/-! ## Counting rows -/

theorem Lists.filter (lists : Lists key rows t) (p : ρ → Bool) :
    Lists key (rows.filter p) fun k => (t k).filter p where
  keyed r member := lists.keyed r (List.mem_of_mem_filter member)
  nodup := (List.filter_sublist.map key).nodup lists.nodup
  mem_iff k r := by
    rw [Option.filter_eq_some_iff, lists.mem_iff, mem_filter]
    tauto

/-- The rows under some keys are counted by the keys the table holds. -/
theorem Lists.countP_keys [DecidableEq κ] (lists : Lists key rows t) (nodup : ks.Nodup) :
    (rows.countP fun r => (key r).any fun k => decide (k ∈ ks)) =
      ks.countP fun k => (t k).isSome := by
  have keyed : ∀ k r, (if k ∈ ks then t k else none) = some r → key r = some k := by
    intro k r hold
    split at hold
    · exact ((lists.mem_iff k r).mp hold).2
    · cases hold
  have listed : Lists key (ks.filterMap fun k => if k ∈ ks then t k else none)
      fun k => if k ∈ ks then t k else none := by
    refine lists_filterMap nodup keyed fun k r hold => ?_
    by_contra notKs
    rw [if_neg notKs] at hold
    cases hold
  have same : (fun k => (t k).filter fun r => (key r).any fun k => decide (k ∈ ks)) =
      fun k => if k ∈ ks then t k else none := by
    funext k
    cases hold : t k with
    | none => simp
    | some r =>
      have hk := ((lists.mem_iff k r).mp hold).2
      by_cases inKs : k ∈ ks <;> simp [Option.filter, hk, inKs]
  have perm := (same ▸ lists.filter fun r => (key r).any fun k => decide (k ∈ ks)).perm listed
  rw [countP_eq_length_filter, perm.length_eq, length_filterMap_eq_countP]
  apply countP_congr
  intro k member
  rw [if_pos member]

section

variable (lists : Lists key rows t) (after : Lists key rows' (overlay w t)) (nodup : ks.Nodup)
  (written : ∀ k, k ∈ ks ↔ w k ≠ none) (imageKeyed : ∀ k r, w k = some (some r) → key r = some k)

include lists after nodup written imageKeyed

/-- After writes the table has the rows no write reached and the rows the
writes leave. -/
theorem Lists.length_overlay [DecidableEq κ] :
    rows'.length = (rows.countP fun r => !((key r).any fun k => decide (k ∈ ks))) +
      ks.countP fun k => (w k).join.isSome := by
  have added : Lists key (ks.filterMap fun k => (w k).join) fun k => (w k).join := by
    refine lists_filterMap nodup (fun k r hold => ?_) fun k r hold => ?_
    · exact imageKeyed k r (Option.join_eq_some_iff.mp hold)
    · rw [written, Option.join_eq_some_iff.mp hold]
      simp
  have whole := lists.overlay_append (w := w)
    (filter_sublist (p := fun r => !((key r).any fun k => decide (k ∈ ks))))
    (fun r member k hk => by simp [member, hk, written]) added
  rw [(after.perm whole).length_eq, length_append, length_filterMap_eq_countP,
    ← countP_eq_length_filter]

/-- Writes change the number of rows by the keys they leave alive less the keys
that were alive. -/
theorem Lists.length_overlay_balance [DecidableEq κ] :
    rows'.length + (ks.countP fun k => (t k).isSome) =
      rows.length + ks.countP fun k => (w k).join.isSome := by
  rw [lists.length_overlay after nodup written imageKeyed, ← lists.countP_keys nodup,
    length_eq_countP_add_countP (fun r => (key r).any fun k => decide (k ∈ ks))]
  simp only [Bool.not_eq_true, Bool.decide_eq_false]
  omega

end

/-! ## One row at a time -/

section Rows

variable [DecidableEq κ] {rows : List ρ}

/-- A table after one write, as its other rows and the row written. -/
theorem Lists.write {t : κ → Option ρ} (lists : Lists key rows t) {k : κ} {v : Option ρ}
    (hv : ∀ r ∈ v, key r = some k) :
    Lists key ((rows.filter fun r => key r != some k) ++ v.toList) (Function.update t k v) := by
  have same : Function.update t k v = overlay (fun k' => if k' = k then some v else none) t := by
    funext k'
    by_cases eq : k' = k <;> simp [overlay, eq]
  rw [same]
  refine lists.overlay_append filter_sublist (fun r member k' hk => by simp [member, hk]) ?_
  cases v with
  | none => exact ⟨nofun, nodup_nil, fun k' r => by by_cases eq : k' = k <;> simp [eq]⟩
  | some r =>
    have hk := hv r rfl
    refine ⟨by simp [hk], nodup_singleton _, fun k' r' => ?_⟩
    by_cases eq : k' = k
    · subst eq
      simpa [eq_comm] using fun is : r = r' => is ▸ hk
    · simpa [eq] using fun is => by simp [is, hk, Ne.symm eq]

theorem Lists.append_row {t : κ → Option ρ} (lists : Lists key rows t) {r : ρ} {k : κ}
    (hk : key r = some k) (absent : t k = none) :
    Lists key (rows ++ [r]) (Function.update t k (some r)) := by
  have others : rows.filter (fun r => key r != some k) = rows := by
    refine filter_eq_self.mpr fun r' member => bne_iff_ne.mpr fun same => ?_
    rw [(lists.mem_iff k r').mpr ⟨member, same⟩] at absent
    cases absent
  have written := lists.write (k := k) (v := some r) fun _ is => Option.some.inj is ▸ hk
  rwa [others] at written

theorem Lists.remove {t : κ → Option ρ} (lists : Lists key rows t) (k : κ) :
    Lists key (rows.filter fun r => key r != some k) (Function.update t k none) := by
  simpa using lists.write (k := k) (v := none) nofun

/-- Replacing the row of a key in place is removing it and adding the other. -/
theorem map_replace_perm (nodup : (rows.map key).Nodup) {k : κ}
    (present : ∃ r ∈ rows, key r = some k) (r' : ρ) :
    (rows.map fun r => if key r = some k then r' else r).Perm
      ((rows.filter fun r => key r != some k) ++ [r']) := by
  induction rows with
  | nil => simp at present
  | cons head rest ih =>
    rw [map_cons, nodup_cons] at nodup
    by_cases hk : key head = some k
    · have others : ∀ r ∈ rest, key r ≠ some k := by
        intro r member same
        rw [hk, ← same] at nodup
        exact nodup.1 (mem_map_of_mem member)
      have mapId : (rest.map fun r => if key r = some k then r' else r) = rest := by
        conv_rhs => rw [← map_id rest]
        exact map_congr_left fun r member => if_neg (others r member)
      have filterId : rest.filter (fun r => key r != some k) = rest := by
        apply filter_eq_self.mpr
        intro r member
        simpa using others r member
      rw [map_cons, if_pos hk, mapId, filter_cons_of_neg (by simp [hk]), filterId]
      exact (perm_append_singleton r' rest).symm
    · rw [map_cons, if_neg hk, filter_cons_of_pos (by simpa using hk)]
      refine (ih nodup.2 ?_).cons head
      obtain ⟨r, member, same⟩ := present
      rcases mem_cons.mp member with rfl | member
      · exact absurd same hk
      · exact ⟨r, member, same⟩

end Rows

end Dbtrail
