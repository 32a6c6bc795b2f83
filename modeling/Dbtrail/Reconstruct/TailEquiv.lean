import Dbtrail.Reconstruct.Tail

/-!
# The tail files against the log

A run of a table's tail applies pages of events after the published cut, writes whole files and
deltas, and moves to newer cuts. In every state of a run, the published table read through the
files of the chain is the published table with the events the files were written over replayed
in binlog order; with no changed key left to write these are all the events applied
(`tailRun_state_perm_replay`).

The chain is a map of versions (`chainVersions`), and the invariant of a run compares it with
the change map in memory: they differ only at the changed keys.
-/

namespace Dbtrail

open List ResultRow

variable {Row : Type} {codec : KeyCodec Row} {vals : List ℤ} {opts : FoldOptions}
  {ev w : ResultRow Row} {page history : List (ResultRow Row)} {k : String} {t : Tail Row}
  {changes : ChangeMap Row}

/-! ## Key texts -/

theorem bar_notMem_intText {part : List Char} (member : part ∈ vals.map intText) : '|' ∉ part := by
  obtain ⟨z, -, rfl⟩ := mem_map.mp member
  exact fun bar => absurd (mem_intText bar) (by decide)

theorem tailKeyValues_pkText (nonempty : vals ≠ []) :
    tailKeyValues vals.length (pkText vals) = .ok vals := by
  have parts : (pkText vals).toList.splitOn '|' = vals.map intText := by
    rw [pkText, String.toList_ofList]
    exact splitOn_intercalate '|' (fun part member => bar_notMem_intText member)
      (by simpa using nonempty)
  have plain : (vals.map intText).all plainInteger = true := by
    simp [plainInteger_intText]
  have back : (vals.map intText).map intVal = vals := by
    rw [map_map]
    exact (map_congr_left fun z _ => intVal_intText z).trans (map_id _)
  unfold tailKeyValues
  rw [parts, if_neg (by simp), if_pos plain, back]

theorem pkText_inj {vals' : List ℤ} (nonempty : vals ≠ []) (length : vals.length = vals'.length)
    (same : pkText vals = pkText vals') : vals = vals' := by
  have nonempty' : vals' ≠ [] := by
    rintro rfl
    exact nonempty (length_eq_zero_iff.mp length)
  have read := tailKeyValues_pkText nonempty
  rw [same, length, tailKeyValues_pkText nonempty'] at read
  exact (Except.ok.inj read).symm

theorem IntegerPK.values_ne_nil (keys : IntegerPK codec) (r : Row) : keys.values r ≠ [] := by
  intro none
  have length := keys.length_values r
  rw [none] at length
  exact keys.width_pos.ne length

/-! ## The versions a chain holds -/

/-- A file's row spells its key as its typed columns do, and its image lies under that key. -/
structure TailRow.Fits (keys : IntegerPK codec) (r : TailRow Row) : Prop where
  pk : r.pk = pkText r.key
  length : r.key.length = keys.width
  keyOf : ∀ img, r.version = some img → codec.keyOf img = some r.pk

/-- One row per key. -/
structure FileFits (keys : IntegerPK codec) (file : TailFile Row) : Prop where
  distinct : (file.map TailRow.pk).Nodup
  rows : ∀ r ∈ file, r.Fits keys

def fileVersions (file : TailFile Row) : String → Option (Option Row) :=
  fun k => (file.find? fun r => r.pk = k).map TailRow.version

/-- The newest version of each key, the oldest file first. -/
def chainVersions : List (TailFile Row) → String → Option (Option Row)
  | [] => fun _ => none
  | file :: newer => supersede (chainVersions newer) (fileVersions file)

section Chain

variable {keys : IntegerPK codec} {r : TailRow Row} {k : String} {file : TailFile Row}
  {segs : List (TailFile Row)}

theorem TailRow.Fits.ne_nil (fits : r.Fits keys) : r.key ≠ [] := by
  intro none
  have length := fits.length
  rw [none] at length
  exact keys.width_pos.ne length

theorem TailRow.Fits.key_eq_iff {r' : TailRow Row} (fits : r.Fits keys) (fits' : r'.Fits keys) :
    r.key = r'.key ↔ r.pk = r'.pk := by
  rw [fits.pk, fits'.pk]
  exact ⟨congrArg pkText, pkText_inj fits.ne_nil (fits.length.trans fits'.length.symm)⟩

theorem TailRow.Fits.values_eq_iff (fits : r.Fits keys) {row : Row}
    (keyOf : codec.keyOf row = some k) : keys.values row = r.key ↔ r.pk = k := by
  rw [keys.keyOf_eq row k keyOf, fits.pk]
  constructor
  · intro same
    rw [same]
  · intro same
    exact (pkText_inj fits.ne_nil (fits.length.trans (keys.length_values row).symm) same).symm

theorem FileFits.eq_of_pk (fits : FileFits keys file) {r' : TailRow Row} (inside : r ∈ file)
    (inside' : r' ∈ file) (same : r.pk = r'.pk) : r = r' :=
  inj_on_of_nodup_map fits.distinct inside inside' same

theorem fileVersions_eq_some (fits : FileFits keys file) {v : Option Row} :
    fileVersions file k = some v ↔ ∃ r ∈ file, r.pk = k ∧ r.version = v := by
  unfold fileVersions
  rw [Option.map_eq_some_iff]
  constructor
  · rintro ⟨r, found, version⟩
    exact ⟨r, mem_of_find?_eq_some found, by simpa using find?_some found, version⟩
  · rintro ⟨r, inside, pk, version⟩
    have some_ : (file.find? fun r => r.pk = k).isSome :=
      find?_isSome.mpr ⟨r, inside, decide_eq_true pk⟩
    obtain ⟨r', found⟩ := Option.isSome_iff_exists.mp some_
    have pk' : r'.pk = k := by simpa using find?_some found
    cases fits.eq_of_pk inside (mem_of_find?_eq_some found) (pk.trans pk'.symm)
    exact ⟨r, found, version⟩

theorem fileVersions_eq_none : fileVersions file k = none ↔ ∀ r ∈ file, r.pk ≠ k := by
  unfold fileVersions
  rw [Option.map_eq_none_iff, find?_eq_none]
  simp

theorem chainVersions_eq_none :
    chainVersions segs k = none ↔ ∀ seg ∈ segs, ∀ r ∈ seg, r.pk ≠ k := by
  induction segs with
  | nil => simp [chainVersions]
  | cons seg newer ih =>
    rw [chainVersions, supersede, forall_mem_cons, ← ih, ← fileVersions_eq_none]
    cases chainVersions newer k <;> simp

theorem mem_tailKeys_iff {vals : List ℤ} :
    vals ∈ tailKeys segs ↔ ∃ seg ∈ segs, ∃ r ∈ seg, r.key = vals := by
  simp [tailKeys]

theorem key_notMem_tailKeys_iff (fits : ∀ seg ∈ segs, FileFits keys seg) (rowFits : r.Fits keys) :
    r.key ∉ tailKeys segs ↔ chainVersions segs r.pk = none := by
  rw [mem_tailKeys_iff, chainVersions_eq_none]
  constructor
  · intro absent seg inside other member same
    exact absent ⟨seg, inside, other, member,
      (((fits seg inside).rows other member).key_eq_iff rowFits).mpr same⟩
  · rintro none ⟨seg, inside, other, member, same⟩
    exact none seg inside other member
      ((((fits seg inside).rows other member).key_eq_iff rowFits).mp same)

theorem fileRows_lists (fits : FileFits keys file) :
    Lists codec.keyOf (file.filterMap TailRow.version) fun k => (fileVersions file k).join := by
  have listed : (file.map TailRow.pk).filterMap (fun k => (fileVersions file k).join) =
      file.filterMap TailRow.version := by
    rw [filterMap_map]
    refine filterMap_congr fun r inside => ?_
    have version := (fileVersions_eq_some fits).mpr ⟨r, inside, rfl, rfl⟩
    simp [Function.comp, version]
  rw [← listed]
  refine lists_filterMap fits.distinct ?_ ?_
  · intro k r held
    obtain ⟨row, inside, pk, version⟩ :=
      (fileVersions_eq_some fits).mp (Option.join_eq_some_iff.mp held)
    rw [← pk]
    exact (fits.rows row inside).keyOf r version
  · intro k r held
    obtain ⟨row, inside, pk, -⟩ :=
      (fileVersions_eq_some fits).mp (Option.join_eq_some_iff.mp held)
    exact mem_map.mpr ⟨row, inside, pk⟩

theorem join_supersede (newer older : String → Option (Option Row)) :
    (fun k => (supersede newer older k).join) = overlay newer fun k => (older k).join := by
  funext k
  unfold supersede overlay
  cases newer k <;> rfl

theorem tailRows_lists (fits : ∀ seg ∈ segs, FileFits keys seg) :
    Lists codec.keyOf (tailRows segs) fun k => (chainVersions segs k).join := by
  induction segs with
  | nil => exact ⟨nofun, nodup_nil, fun k r => by simp [tailRows, chainVersions]⟩
  | cons seg newer ih =>
    have fitsNewer : ∀ seg ∈ newer, FileFits keys seg :=
      fun other inside => fits other (mem_cons_of_mem _ inside)
    have fitsHere := fits seg mem_cons_self
    have unwritten : ∀ row ∈ seg.filterMap TailRow.version, ∀ k, codec.keyOf row = some k →
        (row ∈ (seg.filter fun r => r.key ∉ tailKeys newer).filterMap TailRow.version ↔
          chainVersions newer k = none) := by
      intro row inside k keyOf
      simp only [mem_filterMap, mem_filter, decide_eq_true_eq]
      have pkOf {r : TailRow Row} (member : r ∈ seg) (version : r.version = some row) :
          r.pk = k :=
        Option.some.inj (((fitsHere.rows r member).keyOf row version).symm.trans keyOf)
      constructor
      · rintro ⟨r, ⟨member, absent⟩, version⟩
        rw [← pkOf member version]
        exact (key_notMem_tailKeys_iff fitsNewer (fitsHere.rows r member)).mp absent
      · intro none
        obtain ⟨r, member, version⟩ := mem_filterMap.mp inside
        rw [← pkOf member version] at none
        exact ⟨r, ⟨member,
          (key_notMem_tailKeys_iff fitsNewer (fitsHere.rows r member)).mpr none⟩, version⟩
    rw [tailRows, chainVersions, join_supersede]
    exact (fileRows_lists fitsHere).overlay_append
      (List.Sublist.filterMap TailRow.version filter_sublist) unwritten (ih fitsNewer)

/-- The table read through the chain is the published one under the chain's versions. -/
theorem tableTailChainState_lists (fits : ∀ seg ∈ segs, FileFits keys seg) {state : List Row}
    {t : String → Option Row} (lists : Lists codec.keyOf state t) :
    Lists codec.keyOf (tableTailChainState keys.values state segs)
      (overlay (chainVersions segs) t) := by
  refine lists.overlay_append filter_sublist ?_ (tailRows_lists fits)
  intro row inside k keyOf
  simp only [mem_filter, decide_eq_true_eq, mem_tailKeys_iff, chainVersions_eq_none]
  constructor
  · rintro ⟨-, absent⟩ seg inChain r member same
    exact absent ⟨seg, inChain, r, member,
      ((((fits seg inChain).rows r member).values_eq_iff keyOf).mpr same).symm⟩
  · rintro none
    refine ⟨inside, ?_⟩
    rintro ⟨seg, inChain, r, member, same⟩
    exact none seg inChain r member
      ((((fits seg inChain).rows r member).values_eq_iff keyOf).mp same.symm)

theorem chainVersions_concat (segs : List (TailFile Row)) (file : TailFile Row) :
    chainVersions (segs ++ [file]) = supersede (fileVersions file) (chainVersions segs) := by
  induction segs with
  | nil =>
    funext k
    simp only [nil_append, chainVersions, supersede]
    cases fileVersions file k <;> rfl
  | cons seg newer ih =>
    funext k
    simp only [cons_append, chainVersions, ih, supersede]
    cases fileVersions file k <;> rfl

/-! ## What a file holds -/

/-- The row written for a keyed change. -/
theorem tailRow_ok {key : String} {ev : ResultRow Row} (ok : tailRow keys key ev = .ok r)
    (own : ev.pkValues = key) (imageKeyed : ImageKeyed codec ev) :
    r.pk = key ∧ r.version = ev.image ∧ r.Fits keys := by
  subst own
  unfold tailRow at ok
  unfold ImageKeyed at imageKeyed
  split at ok
  next isDelete =>
    rw [isDelete] at imageKeyed
    obtain ⟨row, keyOf⟩ := imageKeyed
    have text := keys.keyOf_eq row _ keyOf
    have read := tailKeyValues_pkText (keys.values_ne_nil row)
    rw [keys.length_values, ← text] at read
    rw [read] at ok
    cases ok
    exact ⟨rfl, by simp [image, isDelete], text, keys.length_values row, nofun⟩
  next notDelete =>
    split at ok
    next => cases ok
    next after rowAfter =>
      cases ok
      have keyOf : ev.image = some after ∧ codec.keyOf after = some ev.pkValues := by
        cases type : ev.eventType with
        | insert | update =>
          rw [type] at imageKeyed
          obtain ⟨after', rowAfter', keyOf⟩ := imageKeyed
          cases rowAfter.symm.trans rowAfter'
          exact ⟨by simp [image, type, rowAfter], keyOf⟩
        | delete => exact absurd type notDelete
        | _ =>
          rw [type] at imageKeyed
          exact imageKeyed.elim
      refine ⟨rfl, keyOf.1.symm, keys.keyOf_eq after _ keyOf.2, keys.length_values after, ?_⟩
      intro img same
      cases same
      exact keyOf.2

/-- A file holds the versions of the keys it was asked for. -/
theorem Tail.write_ok {t t' : Tail Row} {writer : Option String} {ks : List String}
    (ok : t.write keys writer ks = .ok (t', file)) (nodup : ks.Nodup)
    (keyed : ImagesKeyed codec t.fold.changes) :
    t' = { t with dirty := [] } ∧ FileFits keys file ∧
      (∀ k ∈ ks, fileVersions file k = t.fold.changes.writes k) ∧
      ∀ k ∉ ks, fileVersions file k = none := by
  unfold Tail.write at ok
  split at ok
  · cases ok
  obtain ⟨rows, written, ok⟩ := Except.bind_eq_ok ok
  cases writer with
  | some err => cases ok
  | none =>
    obtain ⟨rfl, rfl⟩ := Prod.mk.inj (Except.ok.inj ok)
    have rowOf : List.Forall₂ (fun k r => r.pk = k ∧ r.Fits keys ∧
        t.fold.changes.writes k = some r.version) (ks.insertionSort (· ≤ ·)) rows := by
      refine (forall₂_of_mapM_ok written).imp fun k r rowOk => ?_
      cases held : t.fold.changes.lookup k with
      | none =>
        rw [held] at rowOk
        cases rowOk
      | some ev =>
        rw [held] at rowOk
        obtain ⟨own, imageKeyed⟩ := keyed k ev held
        obtain ⟨pk, version, fits⟩ := tailRow_ok rowOk own imageKeyed
        exact ⟨pk, fits, by rw [ChangeMap.writes_of_lookup held, version]⟩
    have pks : rows.map TailRow.pk = ks.insertionSort (· ≤ ·) := by
      rw [← forall₂_eq_eq_eq, forall₂_map_left_iff]
      exact (rowOf.imp fun _ _ both => both.1.symm).flip.imp fun _ _ same => same.symm
    have sorted := perm_insertionSort (· ≤ ·) ks
    have fits : FileFits keys rows := by
      refine ⟨pks ▸ sorted.nodup_iff.mpr nodup, fun r member => ?_⟩
      obtain ⟨k, -, both⟩ := exists_of_forall₂_right rowOf member
      exact both.2.1
    refine ⟨rfl, fits, fun k asked => ?_, fun k unasked => ?_⟩
    · obtain ⟨r, member, both⟩ := exists_of_forall₂_left rowOf (sorted.mem_iff.mpr asked)
      rw [both.2.2]
      exact (fileVersions_eq_some fits).mpr ⟨r, member, both.1, rfl⟩
    · refine fileVersions_eq_none.mpr fun r member same => unasked ?_
      rw [← sorted.mem_iff, ← pks, ← same]
      exact mem_map_of_mem member

end Chain

/-! ## Applying a page -/

theorem FoldResult.fold_touched (on : opts.touched = true) (res : FoldResult Row)
    (ev : ResultRow Row) :
    (res.fold opts ev).touched = res.touched ++ [ev.pkValues] := by
  unfold FoldResult.fold
  rw [on]
  dsimp only [if_true]
  split
  · split <;> rfl
  · rfl

theorem FoldResult.foldl_fold_touched (on : opts.touched = true) (res : FoldResult Row)
    (evs : List (ResultRow Row)) :
    (evs.foldl (FoldResult.fold opts) res).touched =
      res.touched ++ evs.map pkValues := by
  induction evs generalizing res with
  | nil => simp
  | cons ev rest ih => rw [foldl_cons, ih, FoldResult.fold_touched on]; simp

theorem FoldResult.observed_touched (res : FoldResult Row) (ev : ResultRow Row) :
    ((res.observeImages codec ev).count ev).touched = res.touched := by
  have count (r : FoldResult Row) : (r.count ev).touched = r.touched := by
    unfold FoldResult.count
    split <;> rfl
  obtain ⟨_, _, framed⟩ := res.observeImages_frame ev
  rw [count, framed]

theorem foldEvent_touched {schema table : String} (on : opts.touched = true)
    (mysql : opts.pg = false) {res res' : FoldResult Row} (captured : Captured codec ev)
    (notRefused : ¬ Refused codec ev) (ok : foldEvent codec schema table opts res ev = .ok res') :
    res'.touched = res.touched ++ (filed codec ev).map pkValues := by
  unfold foldEvent at ok
  rw [checkEventToast_ok notRefused, mysql, splitPKChange_ok schema table captured notRefused] at ok
  cases changed : pkChangedInEvent codec ev with
  | none =>
    rw [changed] at ok
    cases ok
    rw [FoldResult.fold_touched on, FoldResult.observed_touched]
    simp [filed, changed]
  | some pair =>
    rw [changed] at ok
    cases ok
    rw [FoldResult.foldl_fold_touched on, FoldResult.observed_touched]

theorem foldPage_touched {schema table : String} (on : opts.touched = true)
    (mysql : opts.pg = false) {res res' : FoldResult Row}
    (captured : ∀ ev ∈ page, Captured codec ev) (notRefused : ∀ ev ∈ page, ¬ Refused codec ev)
    (ok : foldPage codec schema table none opts res page = .ok res') :
    res'.touched = res.touched ++ (filedChanges codec page).map pkValues := by
  induction page generalizing res with
  | nil =>
    cases ok
    simp [filedChanges]
  | cons ev rest ih =>
    unfold foldPage at ok
    rw [foldlM_cons] at ok
    obtain ⟨mid, midOk, ok⟩ := Except.bind_eq_ok ok
    have here := foldEvent_touched on mysql (captured ev (by simp)) (notRefused ev (by simp)) midOk
    have later := ih (fun ev' member => captured ev' (by simp [member]))
      (fun ev' member => notRefused ev' (by simp [member])) ok
    rw [later, here]
    simp [filedChanges, Function.comp_def, Dbtrail.retainEvent]

theorem lookup_foldl_keepLater_of_notMem {ws : List (ResultRow Row)}
    (unwritten : k ∉ ws.map pkValues) (changes : ChangeMap Row) :
    (ws.foldl (keepLater pkValues laterInBinlog) changes).lookup k =
      changes.lookup k := by
  induction ws generalizing changes with
  | nil => rfl
  | cons w rest ih =>
    simp only [map_cons, mem_cons, not_or] at unwritten
    rw [foldl_cons, ih unwritten.2, lookup_keepLater_of_ne unwritten.1]

theorem mem_foldl_insert {ks marked : List String} :
    k ∈ ks.foldl (fun dirty key => dirty.insert key) marked ↔ k ∈ marked ∨ k ∈ ks := by
  induction ks generalizing marked with
  | nil => simp
  | cons head rest ih =>
    rw [foldl_cons, ih, mem_insert_iff, mem_cons]
    tauto

theorem nodup_foldl_insert {ks marked : List String} (nodup : marked.Nodup) :
    (ks.foldl (fun dirty key => dirty.insert key) marked).Nodup := by
  induction ks generalizing marked with
  | nil => exact nodup
  | cons head rest ih => exact ih nodup.insert

/-- What an applied page does to the change map and to the changed keys. -/
structure Applied (codec : KeyCodec Row) (page : List (ResultRow Row)) (t t' : Tail Row) :
    Prop where
  coords : ∀ ev ∈ page, hasBinlogCoordinate ev = true
  notRefused : ∀ ev ∈ page, ¬ Refused codec ev
  changes : t'.fold.changes = (filedChanges codec page).foldl
    (keepLater pkValues laterInBinlog) t.fold.changes
  needFull : t'.needFull = t.needFull
  dirty : ∀ k, k ∈ t'.dirty ↔ k ∈ t.dirty ∨ k ∈ (filedChanges codec page).map pkValues
  distinct : t.dirty.Nodup → t'.dirty.Nodup

theorem forM_ok {α ε : Type} {f : α → Except ε Unit} {xs : List α} (ok : xs.forM f = .ok ()) :
    ∀ x ∈ xs, f x = .ok () := by
  induction xs with
  | nil => nofun
  | cons x rest ih =>
    obtain ⟨⟨⟩, here, later⟩ := Except.bind_eq_ok (x := f x) (f := fun _ => rest.forM f) ok
    exact forall_mem_cons.mpr ⟨here, ih later⟩

theorem Tail.checkEvent_ok (ok : t.checkEvent ev = .ok ()) : hasBinlogCoordinate ev = true := by
  unfold Tail.checkEvent at ok
  split at ok
  · cases ok
  · split at ok
    · cases ok
    next positioned => simpa using positioned

theorem Tail.apply_ok {t' : Tail Row} (ok : t.apply codec page = .ok t')
    (captured : ∀ ev ∈ page, Captured codec ev) :
    Applied codec page t t' := by
  unfold Tail.apply at ok
  obtain ⟨⟨⟩, checked, ok⟩ := Except.bind_eq_ok ok
  split at ok
  next => cases ok
  next fold foldOk =>
    cases ok
    have notRefused : ∀ ev ∈ page, ¬ Refused codec ev := by
      intro ev member refused
      obtain ⟨r, r', eventOk⟩ := exists_step_of_foldlM_ok foldOk member
      exact foldEvent_refused refused _ _ _ r r' eventOk
    obtain ⟨fold', foldOk', changes⟩ := foldPage_ok t.schema t.table { touched := true } rfl
      { t.fold with touched := [] } captured notRefused
    cases foldOk.symm.trans foldOk'
    have touched := foldPage_touched rfl rfl captured notRefused foldOk
    exact {
      coords := fun ev member => Tail.checkEvent_ok (forM_ok checked ev member)
      notRefused := notRefused
      changes := changes
      needFull := rfl
      dirty := fun k => by rw [mem_foldl_insert, touched]; simp
      distinct := nodup_foldl_insert }

/-! ## Pruning -/

theorem lookup_foldl_erase {drop : List String} :
    (drop.foldl (fun m key => m.erase key) changes).lookup k =
      if k ∈ drop then none else changes.lookup k := by
  induction drop generalizing changes with
  | nil => simp
  | cons head rest ih =>
    rw [foldl_cons, ih]
    by_cases same : k = head
    · subst same
      simp [AList.lookup_erase]
    · simp [AList.lookup_erase_ne same, same]

/-- A prune keeps exactly the changes the cut's window returns. -/
theorem Tail.pruneThrough_ok {t' : Tail Row} {cut : Cut} {n : ℕ}
    (ok : t.pruneThrough cut = .ok (t', n)) :
    cut.anchor.isLSN = false ∧ t'.needFull = true ∧ t'.dirty.Sublist t.dirty ∧
      ∀ k, t'.fold.changes.lookup k = (t.fold.changes.lookup k).filter cut.admits := by
  unfold Tail.pruneThrough at ok
  split at ok
  · cases ok
  next position =>
    split at ok
    · cases ok
    · obtain ⟨rfl, -⟩ := Prod.mk.inj (Except.ok.inj ok)
      rw [not_or] at position
      refine ⟨by simpa using position.2, rfl, filter_sublist, fun k => ?_⟩
      dsimp only
      rw [lookup_foldl_erase]
      have dropped : k ∈ (t.fold.changes.entries.filter fun e => !cut.admits e.2).map Sigma.fst ↔
          ∃ ev, t.fold.changes.lookup k = some ev ∧ cut.admits ev = false := by
        simp only [mem_map, mem_filter, Bool.not_eq_true']
        constructor
        · rintro ⟨⟨k', ev⟩, ⟨inside, out⟩, rfl⟩
          exact ⟨ev, AList.mem_lookup_iff.mpr inside, out⟩
        · rintro ⟨ev, held, out⟩
          exact ⟨⟨k, ev⟩, ⟨AList.mem_lookup_iff.mp held, out⟩, rfl⟩
      split
      next gone =>
        obtain ⟨ev, held, out⟩ := dropped.mp gone
        rw [held, Option.filter_some, out]
        rfl
      next kept =>
        cases held : t.fold.changes.lookup k with
        | none => rfl
        | some ev =>
          cases stays : cut.admits ev with
          | true => rw [Option.filter_some, stays]; rfl
          | false => exact absurd (dropped.mpr ⟨ev, held, stays⟩) kept

theorem mem_filedChanges_iff {evs : List (ResultRow Row)} :
    w ∈ filedChanges codec evs ↔ ∃ ev ∈ evs, ∃ w' ∈ filed codec ev, Dbtrail.retainEvent w' = w := by
  simp only [filedChanges, mem_map, mem_flatMap]
  constructor
  · rintro ⟨w', ⟨ev, inside, half⟩, same⟩
    exact ⟨ev, inside, w', half, same⟩
  · rintro ⟨ev, inside, w', half, same⟩
    exact ⟨w', ⟨ev, inside, half⟩, same⟩

/-- A filed change stands where its event does. -/
theorem filed_coord (half : w ∈ filed codec ev) :
    (Dbtrail.retainEvent w).startCoord = ev.startCoord ∧
      (Dbtrail.retainEvent w).eventID = ev.eventID ∧
      (Dbtrail.retainEvent w).stamp = ev.stamp := by
  obtain ⟨_, _, _, _, _, rfl⟩ := filed_frame half
  exact ⟨rfl, rfl, rfl⟩

theorem admits_filed (cut : Cut) (half : w ∈ filed codec ev) :
    cut.admits (Dbtrail.retainEvent w) = cut.admits ev := by
  obtain ⟨coord, id, -⟩ := filed_coord half
  rw [Cut.admits, Cut.admits, coord, id]

/-- The source's events of the table, in binlog order, with ids that follow it. -/
structure SourceLog (codec : KeyCodec Row) (history : List (ResultRow Row)) : Prop where
  captured : ∀ ev ∈ history, Captured codec ev
  ordered : history.Pairwise fun a b => a.stamp ≤ b.stamp
  ids : history.Pairwise fun a b => a.eventID < b.eventID

theorem SourceLog.strict (log : SourceLog codec history) :
    history.Pairwise fun a b => a.stamp < b.stamp :=
  stamp_strict log.ordered (pairwise_map.mpr (log.ids.imp fun lt => lt.ne))

theorem SourceLog.id_le (log : SourceLog codec history) {a b : ResultRow Row} (inA : a ∈ history)
    (inB : b ∈ history) (le : a.stamp ≤ b.stamp) :
    a.eventID ≤ b.eventID := by
  obtain ⟨i, boundI, rfl⟩ := getElem_of_mem inA
  obtain ⟨j, boundJ, rfl⟩ := getElem_of_mem inB
  rcases lt_trichotomy i j with before | rfl | after
  · exact (pairwise_iff_getElem.mp log.ids i j boundI boundJ before).le
  · exact le_rfl
  · have down := pairwise_iff_getElem.mp log.strict j i boundJ boundI after
    exact absurd le (not_le.mpr down)

/-- What the window of a cut returns is closed under going forward in the log. -/
theorem SourceLog.admits_of_le (log : SourceLog codec history) {cut : Cut}
    (position : cut.anchor.isLSN = false) {a b : ResultRow Row} (inA : a ∈ history)
    (inB : b ∈ history) (coordA : hasBinlogCoordinate a = true)
    (coordB : hasBinlogCoordinate b = true) (le : a.stamp ≤ b.stamp)
    (admits : cut.admits a = true) :
    cut.admits b = true := by
  have ids := log.id_le inA inB le
  have notLSN := hasBinlogCoordinate_isLSN coordA
  have notLSN' := hasBinlogCoordinate_isLSN coordB
  have coords : a.startCoord.key ≤ b.startCoord.key := by
    by_contra down
    rw [not_le] at down
    have later : b.stamp < a.stamp := by
      rw [stamp_lt_iff]
      simp only [BinlogPos.key, startCoord, Prod.Lex.toLex_lt_toLex] at down
      rcases down with shorter | ⟨length, file | ⟨same, pos⟩⟩
      · exact .inl shorter
      · exact .inr ⟨length, .inl file⟩
      · exact .inr ⟨length, .inr ⟨same, .inl pos⟩⟩
    exact absurd le (not_le.mpr later)
  simp only [Cut.admits, Bool.and_eq_true, Bool.or_eq_true, beq_iff_eq, decide_eq_true_eq,
    BinlogPos.atOrBefore_iff_key position notLSN, BinlogPos.atOrBefore_iff_key position notLSN']
    at admits ⊢
  exact ⟨admits.1.trans coords, admits.2.imp_right fun after => after.trans_le ids⟩

theorem HoldsLatest.prune (log : SourceLog codec history) {cut : Cut}
    (position : cut.anchor.isLSN = false) {applied : List (ResultRow Row)}
    (within : ∀ ev ∈ applied, ev ∈ history ∧ hasBinlogCoordinate ev = true)
    {changes' : ChangeMap Row}
    (latest : HoldsLatest pkValues stamp (filedChanges codec applied) changes)
    (pruned : ∀ k, changes'.lookup k = (changes.lookup k).filter cut.admits) :
    HoldsLatest pkValues stamp
      (filedChanges codec (applied.filter cut.admits)) changes' := by
  have mem_iff (w : ResultRow Row) : w ∈ filedChanges codec (applied.filter cut.admits) ↔
      w ∈ filedChanges codec applied ∧ cut.admits w = true := by
    simp only [mem_filedChanges_iff, mem_filter]
    constructor
    · rintro ⟨ev, ⟨inside, admits⟩, w', half, rfl⟩
      exact ⟨⟨ev, inside, w', half, rfl⟩, (admits_filed cut half).trans admits⟩
    · rintro ⟨⟨ev, inside, w', half, rfl⟩, admits⟩
      exact ⟨ev, ⟨inside, (admits_filed cut half).symm.trans admits⟩, w', half, rfl⟩
  intro k
  rw [pruned k]
  constructor
  · intro w held
    obtain ⟨before, admits⟩ := Option.filter_eq_some_iff.mp held
    obtain ⟨member, own, isMax⟩ := (latest k).1 w before
    exact ⟨(mem_iff w).mpr ⟨member, admits⟩, own,
      fun w' member' => isMax w' ((mem_iff w').mp member').1⟩
  · intro none w member sameKey
    obtain ⟨inAll, admits⟩ := (mem_iff w).mp member
    cases held : changes.lookup k with
    | none => exact (latest k).2 held w inAll sameKey
    | some cur =>
      -- The latest change of the key is dropped, so this earlier one is out of the window too.
      obtain ⟨inCur, -, isMax⟩ := (latest k).1 cur held
      have le := isMax w inAll sameKey
      obtain ⟨evW, insideW, w', halfW, rfl⟩ := mem_filedChanges_iff.mp inAll
      obtain ⟨evC, insideC, c', halfC, rfl⟩ := mem_filedChanges_iff.mp inCur
      rw [(filed_coord halfW).2.2, (filed_coord halfC).2.2] at le
      rw [admits_filed cut halfW] at admits
      obtain ⟨inW, coordW⟩ := within evW insideW
      obtain ⟨inC, coordC⟩ := within evC insideC
      have stays := log.admits_of_le position inW inC coordW coordC le admits
      rw [held, Option.filter_some, admits_filed cut halfC, stays] at none
      cases none

/-! ## Runs -/

/-- A table's tail over its published copy: `applied` are the events after the cut that were
applied, `chain` the files a statement reads, and `written` the events applied when the newest
of them was written. -/
structure TailRun (Row : Type) : Type where
  tail : Tail Row
  cut : Cut
  state : List Row
  applied : List (ResultRow Row) := []
  chain : List (TailFile Row) := []
  written : List (ResultRow Row) := []

/-- One step that ends well. A page holds events of the log after the cut, in any order and also
again. A prune goes to a newer cut whose events have all been applied; the files written over
the old cut are not read over the new one. -/
inductive TailStep (keys : IntegerPK codec) (history : List (ResultRow Row)) :
    TailRun Row → TailRun Row → Prop
  | apply {st : TailRun Row} {page : List (ResultRow Row)} {tail : Tail Row}
      (inLog : ∀ ev ∈ page, ev ∈ history ∧ st.cut.admits ev = true)
      (ok : st.tail.apply codec page = .ok tail) :
      TailStep keys history st { st with tail, applied := st.applied ++ page }
  | writeFile {st : TailRun Row} {writer : Option String} {tail : Tail Row} {file : TailFile Row}
      (ok : st.tail.writeFile keys writer = .ok (tail, file)) :
      TailStep keys history st { st with tail, chain := [file], written := st.applied }
  | writeDelta {st : TailRun Row} {writer : Option String} {tail : Tail Row} {file : TailFile Row}
      (ok : st.tail.writeDelta keys writer = .ok (tail, file)) :
      TailStep keys history st
        { st with tail, chain := st.chain ++ [file], written := st.applied }
  | prune {st : TailRun Row} {cut : Cut} {tail : Tail Row} {dropped : ℕ} {table state : List Row}
      (newer : ∀ ev ∈ history, cut.admits ev = true → st.cut.admits ev = true)
      (reached : ∀ ev ∈ history, st.cut.admits ev = true → cut.admits ev = false →
        ev ∈ st.applied)
      (published : replay codec st.state
        (history.filter fun ev => st.cut.admits ev && !cut.admits ev) = some table)
      (stored : state.Perm table)
      (ok : st.tail.pruneThrough cut = .ok (tail, dropped)) :
      TailStep keys history st
        { tail, cut, state, applied := st.applied.filter cut.admits }

/-- What every step keeps. -/
structure TailRun.Kept (keys : IntegerPK codec) (history : List (ResultRow Row))
    (st : TailRun Row) : Prop where
  published : ∃ t, Lists codec.keyOf st.state t
  applied : ∀ ev ∈ st.applied, ev ∈ history ∧ st.cut.admits ev = true
  coords : ∀ ev ∈ st.applied, hasBinlogCoordinate ev = true
  notRefused : ∀ ev ∈ st.applied, ¬ Refused codec ev
  written : ∀ ev ∈ st.written, ev ∈ st.applied
  latest : HoldsLatest pkValues stamp (filedChanges codec st.applied)
    st.tail.fold.changes
  distinct : st.tail.dirty.Nodup
  fits : ∀ file ∈ st.chain, FileFits keys file
  chain : ∃ m : ChangeMap Row,
    HoldsLatest pkValues stamp (filedChanges codec st.written) m ∧
      chainVersions st.chain = m.writes ∧
      (st.tail.needFull = false →
        ∀ k ∉ st.tail.dirty, st.tail.fold.changes.lookup k = m.lookup k)

section Runs

variable {keys : IntegerPK codec} {history : List (ResultRow Row)} {st st' : TailRun Row}
  {changes : ChangeMap Row} {tail : Tail Row} {file : TailFile Row} {writer : Option String}
  {state : List Row}

theorem HoldsLatest.imagesKeyed {applied : List (ResultRow Row)}
    (latest : HoldsLatest pkValues stamp (filedChanges codec applied) changes)
    (captured : ∀ ev ∈ applied, Captured codec ev)
    (notRefused : ∀ ev ∈ applied, ¬ Refused codec ev) : ImagesKeyed codec changes := by
  intro k w held
  obtain ⟨member, own, -⟩ := (latest k).1 w held
  obtain ⟨ev, inside, w', half, rfl⟩ := mem_filedChanges_iff.mp member
  exact ⟨own, ((captured ev inside).imageKeyed_filed (notRefused ev inside) w' half).retainEvent⟩

theorem filedChanges_append (evs evs' : List (ResultRow Row)) :
    filedChanges codec (evs ++ evs') = filedChanges codec evs ++ filedChanges codec evs' := by
  simp [filedChanges]

theorem TailRun.Kept.apply (log : SourceLog codec history) (kept : st.Kept keys history)
    {page : List (ResultRow Row)} (inLog : ∀ ev ∈ page, ev ∈ history ∧ st.cut.admits ev = true)
    (ok : st.tail.apply codec page = .ok tail) :
    TailRun.Kept keys history { st with tail, applied := st.applied ++ page } := by
  have applied := Tail.apply_ok ok fun ev member => log.captured ev (inLog ev member).1
  have coords : ∀ ev ∈ st.applied ++ page, hasBinlogCoordinate ev = true :=
    forall_mem_append.mpr ⟨kept.coords, applied.coords⟩
  have latest : HoldsLatest pkValues stamp
      (filedChanges codec (st.applied ++ page)) tail.fold.changes := by
    rw [applied.changes, filedChanges_append]
    refine kept.latest.foldl _ fun cur inCur w inW => ?_
    rw [← filedChanges_append] at inCur
    have inW' : w ∈ filedChanges codec (st.applied ++ page) := by
      rw [filedChanges_append]
      exact mem_append_right _ inW
    exact laterInBinlog_iff (hasBinlogCoordinate_filedChanges codec coords cur inCur)
      (hasBinlogCoordinate_filedChanges codec coords w inW')
  obtain ⟨m, holds, versions, same⟩ := kept.chain
  exact {
    published := kept.published
    applied := forall_mem_append.mpr ⟨kept.applied, inLog⟩
    coords := coords
    notRefused := forall_mem_append.mpr ⟨kept.notRefused, applied.notRefused⟩
    written := fun ev member => mem_append_left _ (kept.written ev member)
    latest := latest
    distinct := applied.distinct kept.distinct
    fits := kept.fits
    chain := by
      refine ⟨m, holds, versions, fun whole k clean => ?_⟩
      rw [applied.needFull] at whole
      simp only [applied.dirty, not_or] at clean
      rw [applied.changes, lookup_foldl_keepLater_of_notMem clean.2, same whole k clean.1] }

/-- Files laid over older ones give the changes in memory, when the keys left out are as the
older files have them. -/
theorem supersede_fileVersions {older : String → Option (Option Row)} {ks : List String}
    (asked : ∀ k ∈ ks, fileVersions file k = changes.writes k)
    (unasked : ∀ k ∉ ks, fileVersions file k = none) (held : ∀ k ∈ ks, (changes.lookup k).isSome)
    (same : ∀ k ∉ ks, older k = changes.writes k) :
    supersede (fileVersions file) older = changes.writes := by
  funext k
  by_cases member : k ∈ ks
  · obtain ⟨ev, found⟩ := Option.isSome_iff_exists.mp (held k member)
    rw [supersede, asked k member, ChangeMap.writes_of_lookup found]
    rfl
  · rw [supersede, unasked k member, ← same k member]
    rfl

theorem TailRun.Kept.imagesKeyed (log : SourceLog codec history) (kept : st.Kept keys history) :
    ImagesKeyed codec st.tail.fold.changes :=
  kept.latest.imagesKeyed (fun ev member => log.captured ev (kept.applied ev member).1)
    kept.notRefused

/-- A file laid over the chain so that the chain holds the changes in memory. -/
theorem TailRun.Kept.written_all (kept : st.Kept keys history) {chain : List (TailFile Row)}
    (changes : tail.fold.changes = st.tail.fold.changes) (clean : tail.dirty = [])
    (fits : ∀ file ∈ chain, FileFits keys file)
    (versions : chainVersions chain = st.tail.fold.changes.writes) :
    TailRun.Kept keys history { st with tail, chain, written := st.applied } where
  published := kept.published
  applied := kept.applied
  coords := kept.coords
  notRefused := kept.notRefused
  written _ member := member
  latest := by
    rw [changes]
    exact kept.latest
  distinct := by simp [clean]
  fits := fits
  chain := ⟨st.tail.fold.changes, kept.latest, versions, fun _ k _ => by rw [changes]⟩

section

variable (log : SourceLog codec history) (kept : st.Kept keys history)

include log kept

theorem TailRun.Kept.writeFile (ok : st.tail.writeFile keys writer = .ok (tail, file)) :
    TailRun.Kept keys history { st with tail, chain := [file], written := st.applied } := by
  unfold Tail.writeFile at ok
  obtain ⟨⟨t', rows⟩, written, ok⟩ := Except.bind_eq_ok ok
  cases ok
  obtain ⟨rfl, fits, asked, unasked⟩ := Tail.write_ok written (AList.keys_nodup _)
    (kept.imagesKeyed log)
  refine kept.written_all rfl rfl (fun other member => mem_singleton.mp member ▸ fits) ?_
  rw [← nil_append [file], chainVersions_concat]
  refine supersede_fileVersions asked unasked (fun k member => ?_) fun k absent => ?_
  · exact AList.lookup_isSome.mpr (AList.mem_keys.mpr member)
  · rw [ChangeMap.writes_of_lookup_none (AList.lookup_eq_none.mpr absent)]
    rfl

theorem TailRun.Kept.writeDelta (ok : st.tail.writeDelta keys writer = .ok (tail, file)) :
    TailRun.Kept keys history
      { st with tail, chain := st.chain ++ [file], written := st.applied } := by
  unfold Tail.writeDelta at ok
  split at ok
  · cases ok
  next notPruned =>
    split at ok
    · cases ok
    next allHeld =>
      obtain ⟨rfl, fits, asked, unasked⟩ := Tail.write_ok ok kept.distinct (kept.imagesKeyed log)
      obtain ⟨m, -, versions, same⟩ := kept.chain
      refine kept.written_all rfl rfl
        (forall_mem_append.mpr ⟨kept.fits, forall_mem_singleton.mpr fits⟩) ?_
      rw [chainVersions_concat]
      refine supersede_fileVersions asked unasked (fun k member => ?_) fun k clean => ?_
      · have found := find?_eq_none.mp allHeld k member
        simpa [Option.isSome_iff_ne_none] using found
      · rw [versions, ChangeMap.writes, writesOf, ChangeMap.writes, writesOf,
          same (by simpa using notPruned) k clean]

theorem TailRun.Kept.prune {cut : Cut} {dropped : ℕ} {table : List Row}
    (reached : ∀ ev ∈ history, st.cut.admits ev = true → cut.admits ev = false →
      ev ∈ st.applied) (published : replay codec st.state
      (history.filter fun ev => st.cut.admits ev && !cut.admits ev) = some table)
    (stored : state.Perm table) (ok : st.tail.pruneThrough cut = .ok (tail, dropped)) :
    TailRun.Kept keys history { tail, cut, state, applied := st.applied.filter cut.admits } := by
  obtain ⟨position, whole, dirty, lookup⟩ := Tail.pruneThrough_ok ok
  have within : ∀ ev ∈ st.applied, ev ∈ history ∧ hasBinlogCoordinate ev = true :=
    fun ev member => ⟨(kept.applied ev member).1, kept.coords ev member⟩
  have before : ∀ ev ∈ history.filter (fun ev => st.cut.admits ev && !cut.admits ev),
      ev ∈ history ∧ ev ∈ st.applied := by
    intro ev member
    simp only [mem_filter, Bool.and_eq_true, Bool.not_eq_true'] at member
    exact ⟨member.1, reached ev member.1 member.2.1 member.2.2⟩
  obtain ⟨t, lists⟩ := kept.published
  have tableLists := replay_lists lists (fun ev member => log.captured ev (before ev member).1)
    (fun ev member => kept.notRefused ev (before ev member).2) published
  exact {
    published := ⟨_, tableLists.of_perm stored.symm⟩
    applied := fun ev member =>
      ⟨(within ev (mem_of_mem_filter member)).1, (mem_filter.mp member).2⟩
    coords := fun ev member => kept.coords ev (mem_of_mem_filter member)
    notRefused := fun ev member => kept.notRefused ev (mem_of_mem_filter member)
    written := fun ev member => (not_mem_nil member).elim
    latest := kept.latest.prune log position within lookup
    distinct := dirty.nodup kept.distinct
    fits := fun file member => (not_mem_nil member).elim
    chain := ⟨∅, HoldsLatest.empty _ _, rfl, fun notWhole =>
      absurd (whole.symm.trans notWhole) (by decide)⟩ }

theorem TailRun.Kept.step (step : TailStep keys history st st') : st'.Kept keys history := by
  cases step with
  | apply inLog ok => exact kept.apply log inLog ok
  | writeFile ok => exact kept.writeFile log ok
  | writeDelta ok => exact kept.writeDelta log ok
  | prune newer reached published stored ok => exact kept.prune log reached published stored ok

end

theorem TailRun.Kept.start {schema table : String} {cols : List String} {cut : Cut}
    (keyed : ∀ r ∈ state, ∃ k, codec.keyOf r = some k) (distinct : (state.map codec.keyOf).Nodup) :
    TailRun.Kept keys history { tail := { schema, table, cols }, cut, state } where
  published := ⟨_, lists_tableOf keyed distinct⟩
  applied _ member := (List.not_mem_nil member).elim
  coords _ member := (List.not_mem_nil member).elim
  notRefused _ member := (List.not_mem_nil member).elim
  written _ member := (List.not_mem_nil member).elim
  latest := HoldsLatest.empty _ _
  distinct := List.nodup_nil
  fits _ member := (List.not_mem_nil member).elim
  chain := ⟨∅, HoldsLatest.empty _ _, rfl, fun _ _ _ => rfl⟩

/-- The events among `evs`, in the order of the log. -/
def inLogOrder [DecidableEq Row] (history evs : List (ResultRow Row)) : List (ResultRow Row) :=
  history.filter (· ∈ evs)

/-- A map of the latest changes, overlaid on a table, is the table with the events replayed. -/
theorem HoldsLatest.overlay_eq_replay [DecidableEq Row] (log : SourceLog codec history)
    {evs : List (ResultRow Row)} (inLog : ∀ ev ∈ evs, ev ∈ history)
    (notRefused : ∀ ev ∈ evs, ¬ Refused codec ev) {m : ChangeMap Row}
    (latest : HoldsLatest pkValues stamp (filedChanges codec evs) m)
    {replayed : List Row} {t : String → Option Row} (lists : Lists codec.keyOf state t)
    (valid : replay codec state (inLogOrder history evs) = some replayed) :
    Lists codec.keyOf replayed (overlay m.writes t) := by
  have members (ev : ResultRow Row) : ev ∈ inLogOrder history evs ↔ ev ∈ evs := by
    simp only [inLogOrder, mem_filter, decide_eq_true_eq, and_iff_right_iff_imp]
    exact inLog ev
  have captured' : ∀ ev ∈ inLogOrder history evs, Captured codec ev :=
    fun ev member => log.captured ev (mem_of_mem_filter member)
  have notRefused' : ∀ ev ∈ inLogOrder history evs, ¬ Refused codec ev :=
    fun ev member => notRefused ev ((members ev).mp member)
  have latest' : HoldsLatest pkValues stamp
      (filedChanges codec (inLogOrder history evs)) m := by
    refine latest.of_mem_iff fun w => ?_
    simp only [mem_filedChanges_iff, members]
  rw [ChangeMap.writes, latest'.overlay_eq_applyWrites
    (filedChanges_sorted captured' notRefused' (log.strict.filter _)), applyWrites_filedChanges]
  exact replay_lists lists captured' notRefused' valid

/-- In every state of a run, the published table read through the files of the chain is the
published table with the events applied by the newest file replayed in the order of the log;
once no changed key is left to write and no prune is pending, with all the events applied. -/
theorem tailRun_state_perm_replay [DecidableEq Row] (log : SourceLog codec history)
    {schema table : String} {cols : List String} {cut : Cut} {state : List Row}
    (keyed : ∀ r ∈ state, ∃ k, codec.keyOf r = some k)
    (distinct : (state.map codec.keyOf).Nodup)
    (run : Relation.ReflTransGen (TailStep keys history)
      { tail := { schema, table, cols }, cut, state } st) :
    (∀ replayed, replay codec st.state (inLogOrder history st.written) = some replayed →
      (tableTailChainState keys.values st.state st.chain).Perm replayed) ∧
    (st.tail.dirty = [] → st.tail.needFull = false →
      ∀ replayed, replay codec st.state (inLogOrder history st.applied) = some replayed →
        (tableTailChainState keys.values st.state st.chain).Perm replayed) := by
  have kept : st.Kept keys history := by
    induction run with
    | refl => exact TailRun.Kept.start keyed distinct
    | tail _ step ih => exact ih.step log step
  obtain ⟨t, lists⟩ := kept.published
  obtain ⟨m, holds, versions, same⟩ := kept.chain
  have read := tableTailChainState_lists kept.fits lists
  rw [versions] at read
  constructor
  · intro replayed valid
    exact read.perm (holds.overlay_eq_replay log
      (fun ev member => (kept.applied ev (kept.written ev member)).1)
      (fun ev member => kept.notRefused ev (kept.written ev member)) lists valid)
  · intro clean whole replayed valid
    have inMemory : m.writes = st.tail.fold.changes.writes := by
      funext k
      rw [ChangeMap.writes, writesOf, ChangeMap.writes, writesOf,
        same whole k (by simp [clean])]
    rw [inMemory] at read
    exact read.perm (kept.latest.overlay_eq_replay log
      (fun ev member => (kept.applied ev member).1) kept.notRefused lists valid)

end Runs

/-! ## A table of one integer key -/

/-- Rows of an integer key and a value. -/
def integerCodec : KeyCodec (ℤ × String) where
  buildPKValues r := pkText [r.1]
  canonicalizePKMap r := .ok r
  altFixedBinaryPK _ := none
  pkKeyUnspellable _ := none
  unresolvedToastColumns _ := []
  columns _ := ["id", "v"]
  alt_fresh := by
    intro r m alt r' m' _ isAlt
    cases isAlt

def integerPK : IntegerPK integerCodec where
  width := 1
  width_pos := Nat.one_pos
  values r := [r.1]
  length_values _ := rfl
  keyOf_eq _ _ keyOf := (Option.some.inj keyOf).symm

/-- A row that moves from key 1 to key 2, a new row under key 1, and the end of the moved one. -/
def movedLog : List (ResultRow (ℤ × String)) := [
  indexedEvent 1 100 .insert "1" none (some (1, "a")),
  indexedEvent 2 200 .update "1" (some (1, "a")) (some (2, "a")),
  indexedEvent 3 300 .insert "1" none (some (1, "c")),
  indexedEvent 4 400 .delete "2" (some (2, "a")) none]

def cutAt (pos : ℕ) : Cut := ⟨⟨"mysql-bin.000001", pos⟩, 0⟩

def freshTail : Tail (ℤ × String) := { schema := "", table := "", cols := ["id", "v"] }

theorem movedLog_log : SourceLog integerCodec movedLog where
  captured := by
    intro ev member
    simp only [movedLog, mem_cons, not_mem_nil, or_false] at member
    rcases member with rfl | rfl | rfl | rfl
    · exact ⟨_, rfl, rfl⟩
    · exact ⟨_, _, _, rfl, rfl, rfl, rfl, by decide, fun _ _ => rfl⟩
    · exact ⟨_, rfl, rfl⟩
    · exact ⟨_, rfl, rfl⟩
  ordered := by decide
  ids := by decide

def freshRun : TailRun (ℤ × String) :=
  { tail := freshTail, cut := cutAt 50, state := [(5, "x")] }

/-- A whole file, a delta, a prune to a cut between the two inserts of key 1, and a whole file
again. -/
theorem movedLog_read : ∃ st, Relation.ReflTransGen (TailStep integerPK movedLog) freshRun st ∧
    st.state = [(5, "x"), (2, "a")] ∧ st.tail.dirty = [] ∧
    (tableTailChainState integerPK.values st.state st.chain).Perm [(5, "x"), (1, "c")] := by
  have start : Relation.ReflTransGen (TailStep integerPK movedLog) freshRun freshRun := .refl
  have first := start.tail (@TailStep.apply _ _ _ _ _ (movedLog.take 2) _ (by decide) rfl)
  have whole := first.tail (@TailStep.writeFile _ _ _ _ _ none _ _ rfl)
  have second := whole.tail
    (@TailStep.apply _ _ _ _ _ ((movedLog.drop 2).take 1) _ (by decide) rfl)
  have delta := second.tail (@TailStep.writeDelta _ _ _ _ _ none _ _ rfl)
  have pruned := delta.tail (@TailStep.prune _ _ _ _ _ (cutAt 300) _ _ _ [(5, "x"), (2, "a")]
    (by decide) (by decide) rfl (.refl _) rfl)
  have last := pruned.tail (@TailStep.apply _ _ _ _ _ (movedLog.drop 3) _ (by decide) rfl)
  have run := last.tail (@TailStep.writeFile _ _ _ _ _ none _ _ rfl)
  refine ⟨_, run, rfl, rfl, ?_⟩
  exact (tailRun_state_perm_replay movedLog_log (fun r _ => ⟨pkText [r.1], rfl⟩) (by decide)
    run).2 rfl rfl _ (by decide)

/-- Three versions of one row. -/
def versionsLog : List (ResultRow (ℤ × String)) := [
  indexedEvent 1 100 .insert "1" none (some (1, "a")),
  indexedEvent 2 200 .update "1" (some (1, "a")) (some (1, "b")),
  indexedEvent 3 300 .update "1" (some (1, "b")) (some (1, "c"))]

/-- A prune to a cut ahead of what was applied: the next event of the log is one the cut holds,
and its older image is read over the published row. -/
theorem prunedAhead_read :
    ∃ applied pruned late written file,
      freshTail.apply integerCodec (versionsLog.take 1) = .ok applied ∧
      applied.pruneThrough (cutAt 400) = .ok (pruned, 1) ∧
      pruned.apply integerCodec ((versionsLog.drop 1).take 1) = .ok late ∧
      late.writeFile integerPK none = .ok (written, file) ∧
      replay integerCodec [] versionsLog = some [(1, "c")] ∧
      versionsLog.filter (cutAt 400).admits = [] ∧
      tableTailChainState integerPK.values [(1, "c")] [file] = [(1, "b")] := by
  refine ⟨_, _, _, _, _, rfl, rfl, rfl, rfl, by decide, by decide, by decide⟩

end Dbtrail
