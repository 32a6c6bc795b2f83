import Dbtrail.Baseline.TableDelta
import Dbtrail.Reconstruct.FullTable

/-!
# A refresh that adds a pair to a table's chain

A refresh with table deltas on does not rewrite the base: it looks up which base
rows its window touches (`lookupBasePositions`), writes their row numbers and
the window's changes as one pair (`writeTableDelta`), and carries the earlier
pairs forward (`publishWithTableDelta`). A refresh without deltas rewrites the
table with `mergeBaselineImages`.

`publishAll_ok` is the invariant of the first: however many windows, the
chain beside the base reads as the base's table with every window's changes
laid over it in order.
-/

namespace Dbtrail

open List

variable {Row : Type} {base : List Row} {changes : ChangeMap Row} {k : String}
  {key : Row → Option String}

/-- The refusals of a refresh that writes a pair. -/
inductive DeltaError : Type
  | merge (err : MergeError)
  | deadOutOfOrder (pos last : ℤ)
  deriving DecidableEq, Repr

/-- One base row of the scan in `lookupBasePositionsVia`. -/
def lookupBaseRow (core : MergeCore Row) (changes : ChangeMap Row) (out : List ℤ)
    (x : Row × ℕ) : Except MergeError (List ℤ) :=
  match core.codec.canonicalizePKMap x.1 with
  | .error msg => .error (.canonicalize core.schema core.table msg)
  | .ok pkMap =>
      let pk := core.codec.buildPKValues pkMap
      match (core.codec.altFixedBinaryPK pkMap).bind fun alt =>
          (changes.lookup alt).map fun ev => (alt, ev) with
      | some (alt, ev) => .error (.pkSpellingJoin core.schema core.table pk alt ev.eventType)
      | none =>
          match changes.lookup pk with
          | some _ => .ok (out ++ [(x.2 : ℤ)])
          | none => .ok out

/-- The row numbers, ascending, of the base rows whose key the window touched. -/
def lookupBasePositions (core : MergeCore Row) (base : List Row) (changes : ChangeMap Row) :
    Except MergeError (List ℤ) := do
  if changes.keys.isEmpty then return []
  let out ← base.zipIdx.foldlM (lookupBaseRow core changes) []
  return out.insertionSort (· ≤ ·)

/-- One key of `emitWindowChanges`. -/
def emitWindowChange (changes : ChangeMap Row) (pk : String) : Option (UpsertRow Row) :=
  match changes.lookup pk with
  | none => none
  | some ev =>
      if ev.eventType = .delete then some ⟨pk, none⟩
      else
        match ev.rowAfter with
        -- no after-image: skipped rather than written as an all-NULL row
        | none => none
        | some after => some ⟨pk, some after⟩

/-- The window's changes as delta rows, in key order, with how many of them are
tombstones. -/
def emitWindowChanges (changes : ChangeMap Row) : List (UpsertRow Row) × ℕ :=
  let rows := (changes.keys.insertionSort (· ≤ ·)).filterMap (emitWindowChange changes)
  (rows, rows.countP fun u => u.version.isNone)

/-- `WritePosdel` takes the dead positions ascending and distinct. -/
def writePosdel (dead : List ℤ) : Except DeltaError (List ℤ) := do
  let _ ← dead.foldlM (fun last p =>
    if p ≤ last then .error (.deadOutOfOrder p last) else .ok p) (-1 : ℤ)
  return dead

/-- One pair, from the window's touched positions and changes. -/
def writeTableDelta (seq : ℕ) (newDead : List ℤ) (changes : ChangeMap Row) :
    Except DeltaError (TableDeltaPair Row) := do
  let posdel ← writePosdel newDead
  return { seqLo := seq, seq := seq, posdel := posdel, upserts := (emitWindowChanges changes).1 }

/-- The sequence of the pair a refresh writes next. -/
def nextSeq (chain : List (TableDeltaPair Row)) : ℕ :=
  match chain.getLast? with
  | none => 0
  | some last => last.seq + 1

/-- One refresh over the chain the previous one left, `[]` when there is none.
An empty window over an existing chain writes nothing. -/
def publishWithTableDelta (core : MergeCore Row) (base : List Row)
    (chain : List (TableDeltaPair Row)) (changes : ChangeMap Row) :
    Except DeltaError (List (TableDeltaPair Row)) := do
  let newDead ← (lookupBasePositions core base changes).mapError .merge
  if !chain.isEmpty && changes.keys.isEmpty then return chain
  let pair ← writeTableDelta (nextSeq chain) newDead changes
  return chain ++ [pair]

/-- The empty pair a full backup or a rewrite leaves beside the base. -/
def emptyTableDelta : TableDeltaPair Row := { seqLo := 0, seq := 0, posdel := [], upserts := [] }

/-- A refresh per window, each over the chain the one before it left. -/
def publishAll (core : MergeCore Row) (base : List Row) (chain : List (TableDeltaPair Row))
    (windows : List (ChangeMap Row)) : Except DeltaError (List (TableDeltaPair Row)) :=
  windows.foldlM (publishWithTableDelta core base) chain

/-- A rewrite per window, each over the table the one before it wrote. -/
def rewriteAll (core : MergeCore Row) (base : List Row) (windows : List (ChangeMap Row)) :
    Except MergeError (List Row) :=
  windows.foldlM (fun table changes => do
    let (out, _) ← mergeBaselineImages core table changes
    return out) base

/-! ## The lookup -/

/-- The row numbers of the base rows whose key the changes hold. -/
def touchedPositions (key : Row → Option String) (base : List Row) (changes : ChangeMap Row) :
    List ℤ :=
  (base.zipIdx.filter fun x => (key x.1).any fun k => (changes.lookup k).isSome).map
    fun x => (x.2 : ℤ)

theorem mem_touchedPositions {i : ℕ} {r : Row} (atI : base[i]? = some r) (hk : key r = some k) :
    (i : ℤ) ∈ touchedPositions key base changes ↔ k ∈ changes.keys := by
  unfold touchedPositions
  rw [mem_map, ← AList.mem_keys, ← AList.lookup_isSome]
  constructor
  · rintro ⟨x, member, same⟩
    rw [mem_filter, mem_zipIdx_iff_getElem?] at member
    rw [Int.natCast_inj.mp same, atI] at member
    obtain ⟨found, touched⟩ := member
    rw [← Option.some.inj found, hk] at touched
    exact touched
  · intro touched
    refine ⟨(r, i), mem_filter.mpr ⟨mem_zipIdx_iff_getElem?.mpr atI, ?_⟩, rfl⟩
    rw [hk]
    exact touched

theorem touchedPositions_ascending (key : Row → Option String) (base : List Row)
    (changes : ChangeMap Row) : (touchedPositions key base changes).Pairwise (· < ·) := by
  unfold touchedPositions
  have indices : (base.zipIdx.map Prod.snd).Pairwise (· < ·) := by
    rw [zipIdx_map_snd]
    exact pairwise_lt_range'
  rw [pairwise_map] at indices ⊢
  exact (indices.filter _).imp fun lt => by exact_mod_cast lt

theorem touchedPositions_nonneg : ∀ p ∈ touchedPositions key base changes, 0 ≤ p := by
  intro p member
  obtain ⟨x, -, rfl⟩ := mem_map.mp member
  exact Int.natCast_nonneg _

variable {core : MergeCore Row} {codec : KeyCodec Row} {chain : List (TableDeltaPair Row)}
  {windows : List (ChangeMap Row)}

/-- No row has a change pending under its other spelling. -/
def NoAltPending (codec : KeyCodec Row) (changes : ChangeMap Row) : Prop :=
  ∀ r m, codec.canonicalizePKMap r = .ok m →
    ((codec.altFixedBinaryPK m).bind fun alt => (changes.lookup alt).map fun ev => (alt, ev)) = none

theorem lookupBaseRow_ok (spelled : NoAltPending core.codec changes) (out : List ℤ) {x : Row × ℕ}
    (hk : core.codec.keyOf x.1 = some k) :
    lookupBaseRow core changes out x =
      .ok (if (changes.lookup k).isSome then out ++ [(x.2 : ℤ)] else out) := by
  obtain ⟨m, canon, rfl⟩ := KeyCodec.exists_pkMap hk
  unfold lookupBaseRow
  rw [canon]
  dsimp only
  rw [spelled _ _ canon]
  cases changes.lookup (core.codec.buildPKValues m) <;> rfl

theorem foldlM_lookupBaseRow_ok (spelled : NoAltPending core.codec changes)
    (rows : List (Row × ℕ)) (keyed : ∀ x ∈ rows, ∃ k, core.codec.keyOf x.1 = some k)
    (out : List ℤ) :
    rows.foldlM (lookupBaseRow core changes) out =
      .ok (out ++ (rows.filter fun x => (core.codec.keyOf x.1).any fun k =>
        (changes.lookup k).isSome).map fun x => (x.2 : ℤ)) := by
  induction rows generalizing out with
  | nil => simp [pure, Except.pure]
  | cons x rest ih =>
    obtain ⟨k, hk⟩ := keyed x (by simp)
    rw [foldlM_cons, lookupBaseRow_ok spelled out hk]
    simp only [bind, Except.bind]
    rw [ih fun y member => keyed y (by simp [member])]
    by_cases touched : (changes.lookup k).isSome = true
    · simp [hk, touched]
    · simp [hk, touched]

/-- The lookup succeeds on a keyed base and names exactly the touched rows. -/
theorem lookupBasePositions_ok (spelled : NoAltPending core.codec changes)
    (keyed : ∀ r ∈ base, ∃ k, core.codec.keyOf r = some k) :
    lookupBasePositions core base changes =
      .ok (touchedPositions core.codec.keyOf base changes) := by
  unfold lookupBasePositions
  by_cases empty : changes.keys.isEmpty = true
  · rw [if_pos empty]
    have none : ∀ k, changes.lookup k = none := by
      intro k
      rw [AList.lookup_eq_none, AList.mem_keys, isEmpty_iff.mp empty]
      simp
    have nothing : touchedPositions core.codec.keyOf base changes = [] := by
      simp [touchedPositions, none]
    rw [nothing]
    rfl
  · rw [if_neg empty, foldlM_lookupBaseRow_ok spelled base.zipIdx
      fun x member => keyed x.1 (mem_of_getElem? (mem_zipIdx_iff_getElem?.mp member))]
    have sorted := (touchedPositions_ascending core.codec.keyOf base changes).imp
      fun lt => le_of_lt lt
    have same := List.Pairwise.insertionSort_eq sorted
    rw [touchedPositions] at same ⊢
    simp only [bind, Except.bind, pure, Except.pure, nil_append]
    rw [same]

/-! ## One pair -/

theorem foldlM_ascending {dead : List ℤ} (ascending : dead.Pairwise (· < ·)) {last : ℤ}
    (above : ∀ p ∈ dead, last < p) :
    ∃ top, dead.foldlM (fun last p =>
      if p ≤ last then Except.error (DeltaError.deadOutOfOrder p last) else .ok p) last =
        .ok top := by
  induction dead generalizing last with
  | nil => exact ⟨last, rfl⟩
  | cons p rest ih =>
    rw [pairwise_cons] at ascending
    obtain ⟨top, ok⟩ := ih ascending.2 ascending.1
    refine ⟨top, ?_⟩
    rw [foldlM_cons, if_neg (not_le.mpr (above p (by simp)))]
    exact ok

theorem writePosdel_ok {dead : List ℤ} (ascending : dead.Pairwise (· < ·))
    (nonneg : ∀ p ∈ dead, 0 ≤ p) : writePosdel dead = .ok dead := by
  obtain ⟨top, ok⟩ := foldlM_ascending ascending
    (fun p member => lt_of_lt_of_le (by omega : (-1 : ℤ) < 0) (nonneg p member))
  unfold writePosdel
  rw [ok]
  rfl

section

variable (keyed : ImagesKeyed codec changes)

include keyed

theorem emitWindowChange_eq_some {pk : String} {u : UpsertRow Row} :
    emitWindowChange changes pk = some u ↔ u.pk = pk ∧ changes.writes pk = some u.version := by
  unfold emitWindowChange ChangeMap.writes writesOf
  cases held : changes.lookup pk with
  | none => simp
  | some ev =>
    have imageKeyed := (keyed pk ev held).2
    unfold ImageKeyed at imageKeyed
    obtain ⟨k, v⟩ := u
    cases type : ev.eventType with
    | delete => simp [ResultRow.image, type, eq_comm]
    | insert | update =>
      rw [type] at imageKeyed
      obtain ⟨after, ha, -⟩ := imageKeyed
      simp [ResultRow.image, type, ha, eq_comm]
    | _ =>
      rw [type] at imageKeyed
      exact imageKeyed.elim

theorem mem_emitWindowChanges {u : UpsertRow Row} :
    u ∈ (emitWindowChanges changes).1 ↔ changes.writes u.pk = some u.version := by
  unfold emitWindowChanges
  rw [mem_filterMap]
  constructor
  · rintro ⟨pk, -, emitted⟩
    obtain ⟨rfl, write⟩ := (emitWindowChange_eq_some keyed).mp emitted
    exact write
  · intro write
    refine ⟨u.pk, ?_, (emitWindowChange_eq_some keyed).mpr ⟨rfl, write⟩⟩
    rw [mem_insertionSort, ← AList.mem_keys, ← AList.lookup_isSome]
    unfold ChangeMap.writes writesOf at write
    obtain ⟨ev, held, -⟩ := Option.map_eq_some_iff.mp write
    simp [held]

theorem emitWindowChanges_nodup : ((emitWindowChanges changes).1.map UpsertRow.pk).Nodup := by
  have sorted : (changes.keys.insertionSort (· ≤ ·)).Nodup :=
    (perm_insertionSort _ _).nodup_iff.mpr changes.nodupKeys
  unfold emitWindowChanges
  rw [map_filterMap]
  refine (List.Sublist.nodup ?_ sorted)
  generalize changes.keys.insertionSort (· ≤ ·) = pks
  induction pks with
  | nil => exact List.Sublist.refl _
  | cons pk rest ih =>
    cases emitted : emitWindowChange changes pk with
    | none =>
      rw [filterMap_cons_none (by simp [emitted])]
      exact ih.cons pk
    | some u =>
      obtain ⟨rfl, -⟩ := (emitWindowChange_eq_some keyed).mp emitted
      rw [filterMap_cons_some (b := u.pk) (by simp [emitted])]
      exact ih.cons_cons u.pk

/-- The rows of a pair are what the change map writes. -/
theorem versionsOf_emitWindowChanges :
    versionsOf (emitWindowChanges changes).1 = changes.writes := by
  funext k
  apply Option.ext
  intro v
  rw [versionsOf_eq_some (emitWindowChanges_nodup keyed), mem_emitWindowChanges keyed]

theorem mem_keys_emitWindowChanges :
    k ∈ (emitWindowChanges changes).1.map UpsertRow.pk ↔ k ∈ changes.keys := by
  rw [← not_iff_not, ← versionsOf_eq_none, versionsOf_emitWindowChanges keyed,
    ← AList.mem_keys, ← AList.lookup_eq_none]
  simp [ChangeMap.writes, writesOf]

end

/-! ## The chain over many windows -/

/-- The chains a sequence of refreshes leaves beside a base. -/
structure PublishedChain (codec : KeyCodec Row) (base : List Row)
    (chain : List (TableDeltaPair Row)) : Prop extends ChainOver codec.keyOf base chain where
  ranged : ∀ f ∈ chain, f.seqLo ≤ f.seq

theorem PublishedChain.lt_nextSeq (published : PublishedChain codec base chain) :
    ∀ f ∈ chain, f.seqLo < nextSeq chain := by
  intro f member
  rcases eq_nil_or_concat' chain with rfl | ⟨older, last, rfl⟩
  · cases member
  · have next : nextSeq (older ++ [last]) = last.seq + 1 := by simp [nextSeq]
    have lastRanged := published.ranged last (by simp)
    rw [next]
    rcases mem_append.mp member with inOlder | inLast
    · have lt := (pairwise_append.mp published.ascending).2.2 f inOlder last (by simp)
      omega
    · rw [mem_singleton.mp inLast]
      omega

theorem PublishedChain.concat (published : PublishedChain codec base chain)
    (keyed : ImagesKeyed codec changes) :
    PublishedChain codec base (chain ++ [{
      seqLo := nextSeq chain
      seq := nextSeq chain
      posdel := touchedPositions codec.keyOf base changes
      upserts := (emitWindowChanges changes).1 }]) where
  ascending := by
    rw [pairwise_append]
    refine ⟨published.ascending, pairwise_singleton _ _, ?_⟩
    intro f inOlder g inNew
    rw [mem_singleton.mp inNew]
    exact published.lt_nextSeq f inOlder
  keysOnce := forall_mem_append.mpr
    ⟨published.keysOnce, forall_mem_singleton.mpr (emitWindowChanges_nodup keyed)⟩
  dead_iff := by
    refine forall_mem_append.mpr ⟨published.dead_iff, forall_mem_singleton.mpr ?_⟩
    intro i r k atI hk
    exact (mem_touchedPositions atI hk).trans (mem_keys_emitWindowChanges keyed).symm
  imageKeyed := by
    refine forall_mem_append.mpr ⟨published.imageKeyed, forall_mem_singleton.mpr ?_⟩
    intro u inUpserts r image
    have write := (mem_emitWindowChanges keyed).mp inUpserts
    rw [image] at write
    exact keyed.keyOf_image write
  ranged := forall_mem_append.mpr ⟨published.ranged, forall_mem_singleton.mpr le_rfl⟩

theorem publishedChain_nil (codec : KeyCodec Row) (base : List Row) :
    PublishedChain codec base [] where
  ascending := List.Pairwise.nil
  keysOnce := by simp
  dead_iff := by simp
  imageKeyed := by simp
  ranged := by simp

theorem publishedChain_empty (codec : KeyCodec Row) (base : List Row) :
    PublishedChain codec base [emptyTableDelta] where
  ascending := List.pairwise_singleton _ _
  keysOnce := by simp [emptyTableDelta, TableDeltaPair.keys]
  dead_iff := by simp [emptyTableDelta, TableDeltaPair.keys]
  imageKeyed := by simp [emptyTableDelta]
  ranged := by simp [emptyTableDelta]

/-- One refresh: the chain stays well formed, and its versions are the window's
laid over the ones before. -/
theorem publishWithTableDelta_ok (core : MergeCore Row)
    (baseKeyed : ∀ r ∈ base, ∃ k, core.codec.keyOf r = some k)
    (published : PublishedChain core.codec base chain) (keyed : ImagesKeyed core.codec changes) :
    ∃ chain', publishWithTableDelta core base chain changes = .ok chain' ∧
      PublishedChain core.codec base chain' ∧
      versionsOf (tableDeltaLatest chain') =
        supersede changes.writes (versionsOf (tableDeltaLatest chain)) := by
  unfold publishWithTableDelta
  rw [lookupBasePositions_ok (fun _ _ canon => keyed.keysSpelled.lookup_alt canon) baseKeyed]
  simp only [Except.mapError, bind, Except.bind]
  by_cases idle : (!chain.isEmpty && changes.keys.isEmpty) = true
  · rw [if_pos idle]
    refine ⟨chain, rfl, published, ?_⟩
    have noKeys : changes.keys = [] := by
      rw [Bool.and_eq_true, List.isEmpty_iff] at idle
      exact idle.2
    have nothing : ∀ k, changes.writes k = none := by
      intro k
      apply ChangeMap.writes_of_lookup_none
      rw [AList.lookup_eq_none, AList.mem_keys, noKeys]
      simp
    funext k
    simp [supersede, nothing]
  · rw [if_neg idle]
    unfold writeTableDelta
    rw [writePosdel_ok (touchedPositions_ascending _ _ _) touchedPositions_nonneg]
    have next := published.concat keyed
    refine ⟨_, rfl, next, ?_⟩
    rw [versionsOf_latest_concat next.toChainOrdered, versionsOf_emitWindowChanges keyed]

theorem publishAll_ok (core : MergeCore Row)
    (baseKeyed : ∀ r ∈ base, ∃ k, core.codec.keyOf r = some k)
    (keyed : ∀ w ∈ windows, ImagesKeyed core.codec w)
    (published : PublishedChain core.codec base chain) (t : String → Option Row) :
    ∃ chain', publishAll core base chain windows = .ok chain' ∧
      PublishedChain core.codec base chain' ∧
      overlay (versionsOf (tableDeltaLatest chain')) t =
        windows.foldl (fun t changes => overlay changes.writes t)
          (overlay (versionsOf (tableDeltaLatest chain)) t) := by
  induction windows generalizing chain with
  | nil => exact ⟨chain, rfl, published, rfl⟩
  | cons changes rest ih =>
    obtain ⟨mid, midOk, midPublished, midVersions⟩ :=
      publishWithTableDelta_ok core baseKeyed published (keyed changes (by simp))
    obtain ⟨chain', ok, published', versions⟩ :=
      ih (fun w member => keyed w (by simp [member])) midPublished
    refine ⟨chain', ?_, published', ?_⟩
    · unfold publishAll at ok ⊢
      rw [foldlM_cons, midOk]
      exact ok
    · rw [versions, midVersions, foldl_cons, overlay_supersede]

theorem rewriteAll_ok (core : MergeCore Row) (mysql : core.pgTextPK = false)
    (whole : core.owns = none) (keyed : ∀ w ∈ windows, ImagesKeyed core.codec w)
    {t : String → Option Row} (lists : Lists core.codec.keyOf base t) :
    ∃ table, rewriteAll core base windows = .ok table ∧
      Lists core.codec.keyOf table
        (windows.foldl (fun t changes => overlay changes.writes t) t) := by
  induction windows generalizing base t with
  | nil => exact ⟨base, rfl, lists⟩
  | cons changes rest ih =>
    obtain ⟨out, stats, mergeOk, outLists⟩ :=
      mergeBaselineImages_lists core mysql whole (keyed changes (by simp)) lists
    obtain ⟨table, ok, tableLists⟩ :=
      ih (fun w member => keyed w (by simp [member])) outLists
    refine ⟨table, ?_, tableLists⟩
    unfold rewriteAll at ok ⊢
    rw [foldlM_cons, mergeOk]
    exact ok

/-- The base with the chain the refreshes wrote reads as the same rows as the
table rewritten once per window. The chain starts from nothing or from the
empty pair a full backup leaves. -/
theorem publishAll_state_perm_rewriteAll (codec : KeyCodec Row) (schema table : String)
    (sv : Option (Normalizer Row)) (touched : Bool) {base : List Row}
    (keyed : ∀ r ∈ base, ∃ k, codec.keyOf r = some k)
    (distinct : (base.map codec.keyOf).Nodup)
    {windows : List (List (List (ResultRow Row)))}
    (captured : ∀ pages ∈ windows, ∀ ev ∈ pages.flatten, ∀ ev', normalized sv ev = some ev' →
      Captured codec ev')
    {folds : List (FoldResult Row)}
    (folded : windows.mapM (foldPages codec schema table sv { touched := touched }) = .ok folds)
    {start : List (TableDeltaPair Row)} (fresh : start = [] ∨ start = [emptyTableDelta]) :
    ∃ rewritten chain,
      rewriteAll { codec := codec, schema := schema, table := table } base
        (folds.map FoldResult.changes) = .ok rewritten ∧
      publishAll { codec := codec, schema := schema, table := table } base start
        (folds.map FoldResult.changes) = .ok chain ∧
      (tableDeltaState base chain).Perm rewritten := by
  have windowKeyed : ∀ w ∈ folds.map FoldResult.changes, ImagesKeyed codec w := by
    intro w member
    obtain ⟨res, inFolds, rfl⟩ := mem_map.mp member
    obtain ⟨pages, inWindows, ok⟩ := exists_of_mapM_ok folded inFolds
    exact imagesKeyed_of_foldPages rfl ok (captured pages inWindows)
  have baseLists := lists_tableOf keyed distinct
  have started : PublishedChain codec base start ∧
      versionsOf (tableDeltaLatest start) = fun _ => none := by
    rcases fresh with rfl | rfl
    · exact ⟨publishedChain_nil codec base, rfl⟩
    · exact ⟨publishedChain_empty codec base, rfl⟩
  obtain ⟨rewritten, rewriteOk, rewrittenLists⟩ := rewriteAll_ok
    { codec := codec, schema := schema, table := table } rfl rfl windowKeyed baseLists
  obtain ⟨chain, publishOk, published, versions⟩ := publishAll_ok
    { codec := codec, schema := schema, table := table } keyed windowKeyed started.1
    (tableOf codec.keyOf base)
  refine ⟨rewritten, chain, rewriteOk, publishOk, ?_⟩
  have stateLists := tableDeltaState_lists baseLists published.toChainOver
  rw [versions, started.2, overlay_none] at stateLists
  exact stateLists.perm rewrittenLists

/-- Two windows over a table of `textKeyCodec`: the first deletes key 1 and
inserts key 3, the second inserts key 1 again and deletes key 3. -/
def reinsertWindows : List (List (List (ResultRow (TextKey × String)))) := [
  [[indexedEvent 1 100 .delete "1" (some (.text "1", "a")) none,
    indexedEvent 2 140 .insert "3" none (some (.text "3", "c"))]],
  [[indexedEvent 3 200 .insert "1" none (some (.text "1", "d"))],
   [indexedEvent 4 240 .delete "3" (some (.text "3", "c")) none]]]

theorem reinsertWindows_state_perm : ∃ folds rewritten chain,
    reinsertWindows.mapM (foldPages textKeyCodec "s" "t" none {}) = .ok folds ∧
    rewriteAll { codec := textKeyCodec, schema := "s", table := "t" }
      [(.text "1", "a"), (.text "2", "b")] (folds.map FoldResult.changes) = .ok rewritten ∧
    publishAll { codec := textKeyCodec, schema := "s", table := "t" }
      [(.text "1", "a"), (.text "2", "b")] [] (folds.map FoldResult.changes) = .ok chain ∧
    (tableDeltaState [(.text "1", "a"), (.text "2", "b")] chain).Perm rewritten ∧
    chain.length = 2 := by
  have captured : ∀ pages ∈ reinsertWindows, ∀ ev ∈ pages.flatten, ∀ ev',
      normalized none ev = some ev' → Captured textKeyCodec ev' := by
    intro pages inWindows ev inPages ev' same
    cases same
    simp only [reinsertWindows, mem_cons, not_mem_nil, or_false] at inWindows
    rcases inWindows with rfl | rfl <;>
      simp only [flatten_cons, flatten_nil, append_nil, cons_append,
        nil_append, mem_cons, not_mem_nil, or_false] at inPages <;>
      rcases inPages with rfl | rfl <;> exact ⟨_, rfl, rfl⟩
  have distinct : ([(.text "1", "a"), (.text "2", "b")].map textKeyCodec.keyOf).Nodup := by decide
  obtain ⟨rewritten, chain, rewriteOk, publishOk, perm⟩ :=
    publishAll_state_perm_rewriteAll textKeyCodec "s" "t" none false (fun r _ => ⟨r.1.stored, rfl⟩)
      distinct captured rfl (Or.inl rfl)
  refine ⟨_, rewritten, chain, rfl, rewriteOk, publishOk, perm, ?_⟩
  cases publishOk
  rfl

end Dbtrail
