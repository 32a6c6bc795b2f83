import Dbtrail.Reconstruct.EventFold

/-!
# Merging a change map onto a baseline

`mergeBaselineImages` reads the baseline once, in file order, and applies the
change map to it: an untouched row passes through, a touched one is emitted as
its after-image or skipped, and the changes no baseline row claimed are emitted
last, in key order.

`mergeBaselineImages_lists` is its specification: over a baseline that lists the
table `t`, the output lists `t` with the changes laid over it.
-/

namespace Dbtrail

variable {Row : Type} {changes : ChangeMap Row} {codec : KeyCodec Row} {k : String} {r : Row}
  {t : String → Option Row}

inductive MergeError : Type
  | canonicalize (schema table msg : String)
  | pkSpellingJoin (schema table canonical alternate : String) (eventType : EventType)
  deriving DecidableEq, Repr

/-- What a merge did, for the table's report. -/
structure MergeStats : Type where
  baselineRows : ℕ := 0
  updatesApplied : ℕ := 0
  insertsEmitted : ℕ := 0
  deletesSkipped : ℕ := 0
  deriving DecidableEq, Repr

/-- The scan's state: the changes not claimed yet, the rows emitted, the counts. -/
structure MergeState (Row : Type) : Type where
  changes : ChangeMap Row
  emitted : List Row := []
  stats : MergeStats := {}

/-- The input of a merge besides its changes. `owns` limits a pass over changes
read back from disk to the keys of its groups; `none` is the whole table. -/
structure MergeCore (Row : Type) : Type where
  codec : KeyCodec Row
  schema : String := ""
  table : String := ""
  pgTextPK : Bool := false
  owns : Option (String → Bool) := none

def MergeCore.owned (core : MergeCore Row) (pk : String) : Bool :=
  match core.owns with
  | none => true
  | some owns => owns pk

/-- The key columns of a baseline row as the index spells them. PostgreSQL text
keys are the same bytes on both sides. -/
def MergeCore.pkMap (core : MergeCore Row) (row : Row) : Except MergeError Row :=
  if core.pgTextPK then .ok row
  else
    match core.codec.canonicalizePKMap row with
    | .ok m => .ok m
    | .error msg => .error (.canonicalize core.schema core.table msg)

/-- A pending change filed under the other spelling of a row's key. -/
def MergeCore.pendingAlt (core : MergeCore Row) (changes : ChangeMap Row) (pkMap : Row) :
    Option (String × ResultRow Row) :=
  match core.codec.altFixedBinaryPK pkMap with
  | none => none
  | some alt => if core.owned alt then (changes.lookup alt).map fun ev => (alt, ev) else none

/-- The row a claimed change leaves, and how the scan counts it. -/
def MergeState.claim (st : MergeState Row) (ev : ResultRow Row) : MergeState Row :=
  match ev.eventType with
  | .delete => { st with stats := { st.stats with deletesSkipped := st.stats.deletesSkipped + 1 } }
  | .update | .insert =>
      match ev.rowAfter with
      -- a non-DELETE without an after-image would be an all-NULL tuple: skipped
      | none => st
      | some after =>
          { st with
            emitted := st.emitted ++ [after]
            stats := { st.stats with updatesApplied := st.stats.updatesApplied + 1 } }
  | _ => st

/-- One baseline row of `scanBaselineQuery`. -/
def scanBaselineRow (core : MergeCore Row) (st : MergeState Row) (row : Row) :
    Except MergeError (MergeState Row) := do
  let pkMap ← core.pkMap row
  let pk := core.codec.buildPKValues pkMap
  -- above the ownership skip: the other spelling can belong to another pass
  match core.pendingAlt st.changes pkMap with
  | some (alt, ev) => .error (.pkSpellingJoin core.schema core.table pk alt ev.eventType)
  | none =>
      if !core.owned pk then return st
      match st.changes.lookup pk with
      | some ev => return { st with changes := st.changes.erase pk }.claim ev
      | none =>
          return { st with
            emitted := st.emitted ++ [row]
            stats := { st.stats with baselineRows := st.stats.baselineRows + 1 } }

def scanBaselineQuery (core : MergeCore Row) (st : MergeState Row) (rows : List Row) :
    Except MergeError (MergeState Row) :=
  rows.foldlM (scanBaselineRow core) st

/-- One key of `emitLeftoverChanges`. -/
def MergeState.emitLeftover (st : MergeState Row) (pk : String) : MergeState Row :=
  match st.changes.lookup pk with
  | none => st
  | some ev =>
      if ev.eventType = .delete then st
      else
        match ev.rowAfter with
        | none => st
        | some after =>
            { st with
              emitted := st.emitted ++ [after]
              stats := { st.stats with insertsEmitted := st.stats.insertsEmitted + 1 } }

/-- The keys the baseline did not hold, in key order. -/
def emitLeftoverChanges (st : MergeState Row) : MergeState Row :=
  (st.changes.keys.insertionSort (· ≤ ·)).foldl MergeState.emitLeftover st

def mergeBaselineImages (core : MergeCore Row) (baseline : List Row) (changes : ChangeMap Row) :
    Except MergeError (List Row × MergeStats) := do
  let st ← scanBaselineQuery core { changes := changes } baseline
  let st := emitLeftoverChanges st
  return (st.emitted, st.stats)

/-! ## What a change map writes -/

/-- The row a change leaves under its key. -/
def ResultRow.image (ev : ResultRow Row) : Option Row :=
  match ev.eventType with
  | .update | .insert => ev.rowAfter
  | _ => none

def ChangeMap.writes (changes : ChangeMap Row) : String → Option (Option Row) :=
  writesOf ResultRow.image changes

theorem ImagesKeyed.keyOf_image (keyed : ImagesKeyed codec changes)
    (write : changes.writes k = some (some r)) : codec.keyOf r = some k := by
  unfold ChangeMap.writes writesOf at write
  obtain ⟨ev, held, image⟩ := Option.map_eq_some_iff.mp write
  obtain ⟨rfl, imageKeyed⟩ := keyed k ev held
  unfold ImageKeyed at imageKeyed
  unfold ResultRow.image at image
  cases type : ev.eventType with
  | insert | update =>
    rw [type] at imageKeyed image
    obtain ⟨after, ha, hk⟩ := imageKeyed
    cases ha.symm.trans image
    exact hk
  | _ =>
    rw [type] at image
    cases image

/-- The overlay of keyed changes on a listed table is keyed. -/
theorem ImagesKeyed.keyOf_overlay (keyed : ImagesKeyed codec changes) {rows : List Row}
    (lists : Lists codec.keyOf rows t) (hold : overlay changes.writes t k = some r) :
    codec.keyOf r = some k := by
  rcases overlay_eq_some hold with write | ⟨-, hold⟩
  · exact keyed.keyOf_image write
  · exact ((lists.mem_iff k r).mp hold).2

theorem ChangeMap.writes_of_lookup {ev : ResultRow Row} (held : changes.lookup k = some ev) :
    changes.writes k = some ev.image := by
  simp [ChangeMap.writes, writesOf, held]

theorem ChangeMap.writes_of_lookup_none (held : changes.lookup k = none) :
    changes.writes k = none := by
  simp [ChangeMap.writes, writesOf, held]

/-! ## The scan -/

/-- Every pending key is the canonical key of some row. -/
def KeysSpelled (codec : KeyCodec Row) (changes : ChangeMap Row) : Prop :=
  ∀ k ev, changes.lookup k = some ev → ∃ r, codec.keyOf r = some k

theorem ImagesKeyed.keysSpelled (keyed : ImagesKeyed codec changes) :
    KeysSpelled codec changes := by
  intro k ev held
  obtain ⟨rfl, imageKeyed⟩ := keyed k ev held
  exact imageKeyed.exists_row

theorem KeyCodec.exists_pkMap (hk : codec.keyOf r = some k) :
    ∃ m, codec.canonicalizePKMap r = .ok m ∧ codec.buildPKValues m = k := by
  unfold KeyCodec.keyOf KeyCodec.canonicalPK at hk
  cases canon : codec.canonicalizePKMap r with
  | error msg =>
    rw [canon] at hk
    cases hk
  | ok m =>
    rw [canon] at hk
    exact ⟨m, rfl, Option.some.inj hk⟩

/-- On keys the index spells, no row finds a change under its other spelling. -/
theorem KeysSpelled.lookup_alt (spelled : KeysSpelled codec changes) {m : Row}
    (canon : codec.canonicalizePKMap r = .ok m) :
    ((codec.altFixedBinaryPK m).bind fun alt => (changes.lookup alt).map fun ev => (alt, ev)) =
      none := by
  cases halt : codec.altFixedBinaryPK m with
  | none => rfl
  | some alt =>
    cases held : changes.lookup alt with
    | none => simp [held]
    | some ev =>
      obtain ⟨r', hk⟩ := spelled alt ev held
      obtain ⟨m', canon', built⟩ := KeyCodec.exists_pkMap hk
      exact absurd built (codec.alt_fresh r m alt r' m' canon halt canon')

theorem MergeCore.pendingAlt_eq_none {core : MergeCore Row}
    (spelled : KeysSpelled core.codec changes) {m : Row}
    (canon : core.codec.canonicalizePKMap r = .ok m) : core.pendingAlt changes m = none := by
  have other := spelled.lookup_alt canon
  unfold MergeCore.pendingAlt
  cases halt : core.codec.altFixedBinaryPK m with
  | none => rfl
  | some alt =>
    rw [halt] at other
    dsimp only
    split
    · exact other
    · rfl

theorem MergeState.claim_emitted (st : MergeState Row) (ev : ResultRow Row) :
    (st.claim ev).emitted = st.emitted ++ ev.image.toList := by
  unfold MergeState.claim ResultRow.image
  cases ev.eventType with
  | insert | update => cases ev.rowAfter <;> simp
  | _ => simp

theorem MergeState.claim_changes (st : MergeState Row) (ev : ResultRow Row) :
    (st.claim ev).changes = st.changes := by
  unfold MergeState.claim
  cases ev.eventType with
  | insert | update => cases ev.rowAfter <;> rfl
  | _ => rfl

variable {core : MergeCore Row} {st : MergeState Row}

/-- One row of a whole-table scan: it is emitted as the overlay has it, and its
key is claimed. -/
theorem scanBaselineRow_ok (mysql : core.pgTextPK = false) (whole : core.owns = none)
    (spelled : KeysSpelled core.codec st.changes) {row : Row} (hk : core.codec.keyOf row = some k)
    (hold : t k = some row) :
    ∃ st', scanBaselineRow core st row = .ok st' ∧
      st'.emitted = st.emitted ++ (overlay st.changes.writes t k).toList ∧
      ∀ k', st'.changes.lookup k' = if k' = k then none else st.changes.lookup k' := by
  obtain ⟨m, canon, rfl⟩ := KeyCodec.exists_pkMap hk
  have pkMap : core.pkMap row = .ok m := by
    unfold MergeCore.pkMap
    rw [mysql, canon]
    rfl
  have owned : ∀ pk, core.owned pk = true := by
    intro pk
    rw [MergeCore.owned, whole]
  unfold scanBaselineRow
  rw [pkMap]
  simp only [bind, Except.bind, MergeCore.pendingAlt_eq_none spelled canon, owned,
    Bool.not_true, Bool.false_eq_true, if_false]
  cases held : st.changes.lookup (core.codec.buildPKValues m) with
  | none =>
    refine ⟨_, rfl, ?_, fun k' => ?_⟩
    · rw [overlay_of_none (ChangeMap.writes_of_lookup_none held), hold]
      rfl
    · by_cases same : k' = core.codec.buildPKValues m
      · rw [if_pos same, same]
        exact held
      · rw [if_neg same]
  | some ev =>
    refine ⟨_, rfl, ?_, fun k' => ?_⟩
    · rw [overlay_of_write (ChangeMap.writes_of_lookup held), MergeState.claim_emitted]
    · rw [MergeState.claim_changes]
      by_cases same : k' = core.codec.buildPKValues m
      · rw [if_pos same, same]
        exact AList.lookup_erase _ _
      · rw [if_neg same]
        exact AList.lookup_erase_ne same

theorem filterMap_overlay_congr {changes' : ChangeMap Row} {ks : List String}
    (same : ∀ k ∈ ks, changes'.lookup k = changes.lookup k) :
    ks.filterMap (overlay changes'.writes t) = ks.filterMap (overlay changes.writes t) := by
  apply List.filterMap_congr
  intro k member
  simp only [overlay, ChangeMap.writes, writesOf, same k member]

/-- The whole scan: the baseline's keys, each as the overlay has it, and the
changes of every other key still pending. -/
theorem scanBaselineQuery_ok (mysql : core.pgTextPK = false) (whole : core.owns = none)
    (st : MergeState Row) (spelled : KeysSpelled core.codec st.changes) {rows : List Row}
    {ks : List String} (nodup : ks.Nodup)
    (pairs : List.Forall₂ (fun r k => core.codec.keyOf r = some k ∧ t k = some r) rows ks) :
    ∃ st', scanBaselineQuery core st rows = .ok st' ∧
      st'.emitted = st.emitted ++ ks.filterMap (overlay st.changes.writes t) ∧
      ∀ k, st'.changes.lookup k = if k ∈ ks then none else st.changes.lookup k := by
  induction pairs generalizing st with
  | nil => exact ⟨st, rfl, by simp, by simp⟩
  | @cons row k rows ks head tail ih =>
    rw [List.nodup_cons] at nodup
    obtain ⟨mid, midOk, midEmitted, midChanges⟩ :=
      scanBaselineRow_ok mysql whole spelled head.1 head.2
    have midSpelled : KeysSpelled core.codec mid.changes := by
      intro k' ev held
      rw [midChanges] at held
      split at held
      · cases held
      · exact spelled k' ev held
    obtain ⟨st', ok, emitted, changes⟩ := ih mid midSpelled nodup.2
    refine ⟨st', ?_, ?_, fun k' => ?_⟩
    · unfold scanBaselineQuery at ok ⊢
      rw [List.foldlM_cons, midOk]
      exact ok
    · have rest : ∀ k' ∈ ks, mid.changes.lookup k' = st.changes.lookup k' := by
        intro k' member
        rw [midChanges, if_neg]
        rintro rfl
        exact nodup.1 member
      rw [emitted, midEmitted, filterMap_overlay_congr rest, List.append_assoc,
        filterMap_cons_toList]
    · rw [changes, midChanges]
      by_cases inRest : k' ∈ ks
      · simp [inRest]
      · simp [inRest]

/-! ## The leftover changes -/

theorem MergeState.emitLeftover_changes (st : MergeState Row) (pk : String) :
    (st.emitLeftover pk).changes = st.changes := by
  unfold MergeState.emitLeftover
  split
  · rfl
  · split
    · rfl
    · split <;> rfl

theorem MergeState.emitLeftover_emitted
    (keyed : ∀ k ev, st.changes.lookup k = some ev → ImageKeyed codec ev) (pk : String) :
    (st.emitLeftover pk).emitted =
      st.emitted ++ ((st.changes.lookup pk).bind ResultRow.image).toList := by
  unfold MergeState.emitLeftover
  cases held : st.changes.lookup pk with
  | none => simp
  | some ev =>
    have imageKeyed := keyed pk ev held
    unfold ImageKeyed at imageKeyed
    cases type : ev.eventType with
    | insert | update => cases after : ev.rowAfter <;> simp [ResultRow.image, type, after]
    | delete => simp [ResultRow.image, type]
    | _ =>
      rw [type] at imageKeyed
      exact imageKeyed.elim

theorem foldl_emitLeftover_emitted (pks : List String)
    (keyed : ∀ k ev, st.changes.lookup k = some ev → ImageKeyed codec ev) :
    (pks.foldl MergeState.emitLeftover st).emitted =
      st.emitted ++ pks.filterMap fun k => (st.changes.lookup k).bind ResultRow.image := by
  induction pks generalizing st with
  | nil => simp
  | cons pk rest ih =>
    have step := MergeState.emitLeftover_changes st pk
    rw [List.foldl_cons, ih (by rwa [step]), step,
      MergeState.emitLeftover_emitted keyed, List.append_assoc, filterMap_cons_toList]

/-- The merge of keyed changes onto a baseline that lists `t` succeeds, and its
rows list `t` with the changes laid over it. -/
theorem mergeBaselineImages_lists (core : MergeCore Row) (mysql : core.pgTextPK = false)
    (whole : core.owns = none) (keyed : ImagesKeyed core.codec changes) {baseline : List Row}
    (lists : Lists core.codec.keyOf baseline t) :
    ∃ out stats, mergeBaselineImages core baseline changes = .ok (out, stats) ∧
      Lists core.codec.keyOf out (overlay changes.writes t) := by
  obtain ⟨ks, ksNodup, covers, pairs⟩ := lists.exists_keys
  obtain ⟨st, scanOk, emitted, pending⟩ := scanBaselineQuery_ok mysql whole
    { changes := changes } keyed.keysSpelled ksNodup pairs
  have pendingKeyed : ∀ k ev, st.changes.lookup k = some ev → ImageKeyed core.codec ev := by
    intro k ev held
    rw [pending] at held
    split at held
    · cases held
    · exact (keyed k ev held).2
  set ls := st.changes.keys.insertionSort (· ≤ ·) with hls
  have lsPerm : ls.Perm st.changes.keys := List.perm_insertionSort _ _
  have mem_ls : ∀ k, k ∈ ls ↔ k ∉ ks ∧ ∃ ev, changes.lookup k = some ev := by
    intro k
    rw [lsPerm.mem_iff, ← AList.mem_keys, ← AList.lookup_isSome, pending]
    by_cases inKs : k ∈ ks
    · simp [inKs]
    · simp [inKs, Option.isSome_iff_exists]
  have leftovers : ls.filterMap (fun k => (st.changes.lookup k).bind ResultRow.image) =
      ls.filterMap (overlay changes.writes t) := by
    apply List.filterMap_congr
    intro k member
    obtain ⟨notKs, ev, held⟩ := (mem_ls k).mp member
    rw [pending, if_neg notKs, held, overlay_of_write (ChangeMap.writes_of_lookup held)]
    rfl
  refine ⟨(emitLeftoverChanges st).emitted, (emitLeftoverChanges st).stats, ?_, ?_⟩
  · unfold mergeBaselineImages
    rw [scanOk]
    rfl
  · unfold emitLeftoverChanges
    rw [foldl_emitLeftover_emitted _ pendingKeyed, emitted, leftovers, List.nil_append,
      ← List.filterMap_append]
    apply lists_filterMap
    · rw [List.nodup_append]
      refine ⟨ksNodup, lsPerm.nodup_iff.mpr st.changes.nodupKeys, ?_⟩
      rintro k inKs k' inLs rfl
      exact ((mem_ls k).mp inLs).1 inKs
    · exact fun k r hold => keyed.keyOf_overlay lists hold
    · intro k r hold
      rw [List.mem_append]
      by_cases inKs : k ∈ ks
      · exact Or.inl inKs
      · refine Or.inr ((mem_ls k).mpr ⟨inKs, ?_⟩)
        rcases overlay_eq_some hold with write | ⟨-, hold⟩
        · unfold ChangeMap.writes writesOf at write
          obtain ⟨ev, held, -⟩ := Option.map_eq_some_iff.mp write
          exact ⟨ev, held⟩
        · exact absurd (covers k r hold) inKs

end Dbtrail
