import Dbtrail.Lib.KeyedTable

/-!
# Last writer wins

A write names a key, carries a stamp from a linear order and leaves a value.
`keepLater` files a write in a map unless the map already holds a strictly
later one of that key. Whatever order the writes arrive in, the map ends with
the latest write of each key (`foldl_keepLater_latest`); and applying the writes
one after the other in stamp order leaves, under each key, the value of that
same write (`applyWrites_of_latest`).
-/

namespace Dbtrail

open List

variable {ω κ ρ σ : Type*}

/-- `w` is the latest write of the key `k` among `ws`. -/
def IsLatest [LinearOrder σ] (key : ω → κ) (stamp : ω → σ) (ws : List ω) (k : κ) (w : ω) :
    Prop :=
  w ∈ ws ∧ key w = k ∧ ∀ w' ∈ ws, key w' = k → stamp w' ≤ stamp w

section KeepLater

variable [DecidableEq κ]

/-- File `w` under its key unless `m` holds a later write of that key. -/
def keepLater (key : ω → κ) (later : ω → ω → Bool) (m : AList fun _ : κ => ω) (w : ω) :
    AList fun _ : κ => ω :=
  match m.lookup (key w) with
  | some cur => if later cur w then m else m.insert (key w) w
  | none => m.insert (key w) w

variable {key : ω → κ} {later : ω → ω → Bool} {k : κ} {m : AList fun _ : κ => ω} {w : ω}

theorem lookup_keepLater_of_ne (ne : k ≠ key w) :
    (keepLater key later m w).lookup k = m.lookup k := by
  unfold keepLater
  split
  · split
    · rfl
    · exact AList.lookup_insert_ne ne
  · exact AList.lookup_insert_ne ne

theorem lookup_keepLater_self (m : AList fun _ : κ => ω) (w : ω) :
    (keepLater key later m w).lookup (key w) =
      match m.lookup (key w) with
      | some cur => if later cur w then some cur else some w
      | none => some w := by
  unfold keepLater
  cases held : m.lookup (key w) with
  | none => exact AList.lookup_insert m
  | some cur =>
    by_cases h : later cur w = true
    · simp only [h, if_true, held]
    · simp only [h, Bool.false_eq_true, if_false]
      exact AList.lookup_insert m

/-- An entry of the map after one arrival is that arrival or was there before. -/
theorem lookup_keepLater_cases {w' : ω} (held : (keepLater key later m w).lookup k = some w') :
    k = key w ∧ w' = w ∨ m.lookup k = some w' := by
  by_cases h : k = key w
  · subst h
    rw [lookup_keepLater_self] at held
    cases before : m.lookup (key w) with
    | none =>
      rw [before] at held
      exact .inl ⟨rfl, (Option.some.inj held).symm⟩
    | some cur =>
      rw [before] at held
      dsimp only at held
      split at held
      · exact .inr held
      · exact .inl ⟨rfl, (Option.some.inj held).symm⟩
  · rw [lookup_keepLater_of_ne h] at held
    exact .inr held

/-- Every entry of the fold is one of the arrivals, under its own key. No order
is needed on the arrivals for that. -/
theorem lookup_foldl_keepLater {arrivals : List ω}
    (held : (arrivals.foldl (keepLater key later) ∅).lookup k = some w) :
    key w = k ∧ w ∈ arrivals := by
  suffices h : ∀ m : AList fun _ : κ => ω,
      (arrivals.foldl (keepLater key later) m).lookup k = some w →
        m.lookup k = some w ∨ key w = k ∧ w ∈ arrivals by
    rcases h ∅ held with fromEmpty | found
    · rw [AList.lookup_empty] at fromEmpty
      cases fromEmpty
    · exact found
  clear held
  induction arrivals with
  | nil => exact fun m held => .inl held
  | cons a rest ih =>
    intro m held
    rcases ih _ held with before | ⟨own, member⟩
    · rcases lookup_keepLater_cases before with ⟨own, rfl⟩ | before
      · exact .inr ⟨own.symm, by simp⟩
      · exact .inl before
    · exact .inr ⟨own, by simp [member]⟩

variable [LinearOrder σ] {stamp : ω → σ} {ws : List ω}

/-- The map holds, under every key written so far, the latest write of it. -/
def HoldsLatest (key : ω → κ) (stamp : ω → σ) (ws : List ω) (m : AList fun _ : κ => ω) :
    Prop :=
  ∀ k, (∀ w, m.lookup k = some w → IsLatest key stamp ws k w) ∧
    (m.lookup k = none → ∀ w ∈ ws, key w ≠ k)

theorem HoldsLatest.empty (key : ω → κ) (stamp : ω → σ) :
    HoldsLatest key stamp [] (∅ : AList fun _ : κ => ω) := by
  intro k
  refine ⟨fun w held => ?_, fun _ w member => ?_⟩
  · rw [AList.lookup_empty] at held
    cases held
  · cases member

omit [DecidableEq κ] in
/-- A write that arrives behind those of its key is their latest. -/
theorem isLatest_concat_self (newest : ∀ w' ∈ ws, key w' = key w → stamp w' ≤ stamp w) :
    IsLatest key stamp (ws ++ [w]) (key w) w := by
  refine ⟨by simp, rfl, fun w' member sameKey => ?_⟩
  rcases mem_append.mp member with member | member
  · exact newest w' member sameKey
  · rw [mem_singleton.mp member]

omit [DecidableEq κ] in
/-- The latest write stays it when one arrives that is no later, or of another key. -/
theorem IsLatest.concat {cur : ω} (latest : IsLatest key stamp ws k cur)
    (older : key w = k → stamp w ≤ stamp cur) : IsLatest key stamp (ws ++ [w]) k cur := by
  refine ⟨mem_append_left _ latest.1, latest.2.1, fun w' member sameKey => ?_⟩
  rcases mem_append.mp member with member | member
  · exact latest.2.2 w' member sameKey
  · rw [mem_singleton.mp member] at sameKey ⊢
    exact older sameKey

/-- One arrival. The filed write is compared by stamp, so nothing is assumed on
where the writes before it stand in the order. -/
theorem HoldsLatest.keepLater (holds : HoldsLatest key stamp ws m)
    (compare : ∀ cur ∈ ws, later cur w = true ↔ stamp w < stamp cur) :
    HoldsLatest key stamp (ws ++ [w]) (keepLater key later m w) := by
  intro k
  by_cases hk : k = key w
  · subst hk
    rw [lookup_keepLater_self]
    cases held : m.lookup (key w) with
    | none =>
      refine ⟨fun w' same => Option.some.inj same ▸ isLatest_concat_self ?_, nofun⟩
      exact fun w' member sameKey => absurd sameKey ((holds (key w)).2 held w' member)
    | some cur =>
      have latest := (holds (key w)).1 cur held
      have cmp := compare cur latest.1
      dsimp only
      split
      · rename_i isLater
        refine ⟨fun w' same => Option.some.inj same ▸ latest.concat fun _ => ?_, nofun⟩
        exact (cmp.mp isLater).le
      · rename_i notLater
        have curLe : stamp cur ≤ stamp w := not_lt.mp fun h => notLater (cmp.mpr h)
        refine ⟨fun w' same => Option.some.inj same ▸ isLatest_concat_self ?_, nofun⟩
        exact fun w' member sameKey => (latest.2.2 w' member sameKey).trans curLe
  · rw [lookup_keepLater_of_ne hk]
    exact ⟨fun w' held => ((holds k).1 w' held).concat fun same => absurd same.symm hk,
      fun none => forall_mem_append.mpr ⟨(holds k).2 none, forall_mem_singleton.mpr (Ne.symm hk)⟩⟩

theorem HoldsLatest.foldl (arrivals : List ω) (holds : HoldsLatest key stamp ws m)
    (compare : ∀ cur ∈ ws ++ arrivals, ∀ w ∈ arrivals, later cur w = true ↔ stamp w < stamp cur) :
    HoldsLatest key stamp (ws ++ arrivals) (arrivals.foldl (Dbtrail.keepLater key later) m) := by
  induction arrivals generalizing ws m with
  | nil => simpa using holds
  | cons w rest ih =>
    have first : HoldsLatest key stamp (ws ++ [w]) (Dbtrail.keepLater key later m w) :=
      holds.keepLater fun cur member =>
        compare cur (mem_append_left _ member) w (by simp)
    have step := ih first fun cur member w' member' =>
      compare cur (by simpa using member) w' (by simp [member'])
    simpa using step

/-- Whatever the arrival order, the fold holds the latest write of each key. -/
theorem foldl_keepLater_latest (arrivals : List ω)
    (compare : ∀ cur ∈ arrivals, ∀ w ∈ arrivals, later cur w = true ↔ stamp w < stamp cur) :
    HoldsLatest key stamp arrivals (arrivals.foldl (keepLater key later) ∅) := by
  have folded := (HoldsLatest.empty key stamp).foldl arrivals (by simpa using compare)
  simpa using folded

/-- Which writes there are decides, not how often or in which order they came. -/
theorem HoldsLatest.of_mem_iff {ws' : List ω} (holds : HoldsLatest key stamp ws m)
    (same : ∀ w, w ∈ ws ↔ w ∈ ws') :
    HoldsLatest key stamp ws' m := by
  intro k
  refine ⟨fun w held => ?_, fun none w member => (holds k).2 none w ((same w).mpr member)⟩
  obtain ⟨member, own, isMax⟩ := (holds k).1 w held
  exact ⟨(same w).mp member, own, fun w' member' => isMax w' ((same w').mpr member')⟩

theorem HoldsLatest.of_perm {ws' : List ω} (holds : HoldsLatest key stamp ws m)
    (perm : ws.Perm ws') : HoldsLatest key stamp ws' m :=
  holds.of_mem_iff fun _ => perm.mem_iff

/-! ## Applying writes one after the other -/

/-- The table after the writes `ws`, in their order. -/
def applyWrites (key : ω → κ) (value : ω → Option ρ) (t : κ → Option ρ) (ws : List ω) :
    κ → Option ρ :=
  ws.foldl (fun t w => Function.update t (key w) (value w)) t

variable {value : ω → Option ρ}

theorem applyWrites_cons (t : κ → Option ρ) (w : ω) (ws : List ω) :
    applyWrites key value t (w :: ws) =
      applyWrites key value (Function.update t (key w) (value w)) ws := rfl

theorem applyWrites_append (t : κ → Option ρ) (ws ws' : List ω) :
    applyWrites key value t (ws ++ ws') =
      applyWrites key value (applyWrites key value t ws) ws' :=
  foldl_append

theorem applyWrites_of_unwritten {t : κ → Option ρ} (unwritten : ∀ w ∈ ws, key w ≠ k) :
    applyWrites key value t ws k = t k := by
  induction ws generalizing t with
  | nil => rfl
  | cons w rest ih =>
    rw [applyWrites_cons, ih fun w' member => unwritten w' (by simp [member])]
    exact Function.update_of_ne (unwritten w (by simp)).symm _ _

/-- In stamp order the latest write of a key is the last one applied to it. -/
theorem applyWrites_of_latest {t : κ → Option ρ}
    (sorted : ws.Pairwise fun a b => key a = key b → stamp a < stamp b)
    (latest : IsLatest key stamp ws k w) : applyWrites key value t ws k = value w := by
  induction ws generalizing t with
  | nil => cases latest.1
  | cons head rest ih =>
    obtain ⟨member, sameKey, isMax⟩ := latest
    rw [pairwise_cons] at sorted
    rw [applyWrites_cons]
    rcases mem_cons.mp member with rfl | member
    · have unwritten : ∀ w' ∈ rest, key w' ≠ k := by
        intro w' member' sameKey'
        have lt := sorted.1 w' member' (sameKey.trans sameKey'.symm)
        exact absurd (isMax w' (by simp [member']) sameKey') (not_le.mpr lt)
      rw [applyWrites_of_unwritten unwritten, ← sameKey]
      exact Function.update_self _ _ _
    · exact ih sorted.2 ⟨member, sameKey, fun w' member' =>
        isMax w' (by simp [member'])⟩

/-- The writes a map of latest writes stands for. -/
def writesOf (value : ω → Option ρ) (m : AList fun _ : κ => ω) : κ → Option (Option ρ) :=
  fun k => (m.lookup k).map value

/-- Overlaying the latest write of each key is replaying all of them in order. -/
theorem HoldsLatest.overlay_eq_applyWrites (holds : HoldsLatest key stamp ws m)
    (sorted : ws.Pairwise fun a b => key a = key b → stamp a < stamp b) (t : κ → Option ρ) :
    overlay (writesOf value m) t = applyWrites key value t ws := by
  funext k
  cases held : m.lookup k with
  | none =>
    rw [overlay_of_none (by simp [writesOf, held]),
      applyWrites_of_unwritten ((holds k).2 held)]
  | some w =>
    have write : writesOf value m k = some (value w) := by simp [writesOf, held]
    rw [overlay_of_write write,
      applyWrites_of_latest sorted ((holds k).1 w held)]

omit [LinearOrder σ] in
/-- Writes that arrive in the order they apply, none of them called later than
one behind it, are overlaid as they are applied. -/
theorem overlay_foldl_keepLater_of_inOrder (inOrder : ws.Pairwise fun a b => later a b = false)
    (t : κ → Option ρ) :
    overlay (writesOf value (ws.foldl (keepLater key later) ∅)) t =
      applyWrites key value t ws := by
  induction ws using reverseRecOn with
  | nil => rfl
  | append_singleton older w ih =>
    rw [pairwise_append] at inOrder
    have filed : ∀ k, (keepLater key later (older.foldl (keepLater key later) ∅) w).lookup k =
        if k = key w then some w else (older.foldl (keepLater key later) ∅).lookup k := by
      intro k
      by_cases same : k = key w
      · subst same
        rw [if_pos rfl, lookup_keepLater_self]
        split
        · rename_i cur held
          have notLater := inOrder.2.2 cur (lookup_foldl_keepLater held).2 w (by simp)
          rw [notLater]
          rfl
        · rfl
      · rw [if_neg same, lookup_keepLater_of_ne same]
    rw [applyWrites_append, ← ih inOrder.1, foldl_append]
    funext k
    rw [applyWrites_cons, applyWrites, foldl_nil]
    simp only [foldl_cons, foldl_nil, overlay, writesOf, filed]
    by_cases same : k = key w
    · rw [same, Function.update_self]
      simp
    · rw [if_neg same, Function.update_of_ne same]
      rfl

end KeepLater

end Dbtrail
