import Dbtrail.Reconstruct.FullTable

/-!
# The fold against sequential replay

`replayEvent` is what one event of a valid history does to the table on the
source: an INSERT of an absent key, a DELETE of a present one, an UPDATE of a
present row whose new key (when it moves) is absent. `replay` applies a history
in binlog order.

The fold sees the same events in arrival order, page by page, and keeps one
change per key. `foldPages_merge_perm_replay`: merged onto the baseline, that
map gives the replayed table.
-/

namespace Dbtrail

open List ResultRow

variable {Row : Type} (codec : KeyCodec Row)

/-- Whether some row of the table is stored under the key. -/
def holdsKey (table : List Row) (k : Option String) : Bool :=
  table.any fun r => codec.keyOf r == k

/-- One event of the source's history, `none` where the table could not have
produced it. -/
def replayEvent (table : List Row) (ev : ResultRow Row) : Option (List Row) :=
  match ev.eventType, ev.rowAfter with
  | .insert, some after =>
      if holdsKey codec table (some ev.pkValues) then none else some (table ++ [after])
  | .update, some after =>
      if !holdsKey codec table (some ev.pkValues) then none
      else if codec.keyOf after ≠ some ev.pkValues ∧ holdsKey codec table (codec.keyOf after) then
        none
      else
        some (table.map fun r => if codec.keyOf r = some ev.pkValues then after else r)
  | .delete, _ =>
      if holdsKey codec table (some ev.pkValues) then
        some (table.filter fun r => codec.keyOf r != some ev.pkValues)
      else none
  | _, _ => none

def replay (table : List Row) (history : List (ResultRow Row)) : Option (List Row) :=
  history.foldlM (replayEvent codec) table

variable {codec} {t : String → Option Row} {table : List Row} {ev : ResultRow Row}
  {history evs : List (ResultRow Row)}

theorem holdsKey_iff (lists : Lists codec.keyOf table t) {k : String} :
    holdsKey codec table (some k) = true ↔ t k ≠ none := by
  rw [holdsKey, any_eq_true, ← Option.isSome_iff_ne_none, Option.isSome_iff_exists,
    lists.holds_iff]
  simp

theorem holdsKey_eq_false (lists : Lists codec.keyOf table t) {k : String} :
    holdsKey codec table (some k) = false ↔ t k = none := by
  rw [← Bool.not_eq_true, holdsKey_iff lists, not_not]

/-- The writes of one captured event, applied to the table it is valid on. -/
theorem replayEvent_lists {table' : List Row} (lists : Lists codec.keyOf table t)
    (captured : Captured codec ev) (notRefused : ¬ Refused codec ev)
    (valid : replayEvent codec table ev = some table') :
    Lists codec.keyOf table'
      (applyWrites pkValues image t (filed codec ev)) := by
  have moved := captured
  unfold replayEvent at valid
  unfold Captured at captured
  cases type : ev.eventType with
  | insert =>
    rw [type] at captured valid
    obtain ⟨after, ha, spelled⟩ := captured
    rw [ha] at valid
    dsimp only at valid
    split at valid
    · cases valid
    · rename_i absent
      cases valid
      have unmoved : pkChangedInEvent codec ev = none := by simp [pkChangedInEvent, type]
      have writes : applyWrites pkValues image t (filed codec ev) =
          Function.update t ev.pkValues (some after) := by
        simp [filed, unmoved, applyWrites, image, type, ha]
      rw [writes]
      exact lists.append_row (KeyCodec.keyOf_of_canonicalPK spelled)
        ((holdsKey_eq_false lists).mp (by simpa using absent))
  | delete =>
    rw [type] at captured valid
    dsimp only at valid
    split at valid
    · cases valid
      have unmoved : pkChangedInEvent codec ev = none := by simp [pkChangedInEvent, type]
      have writes : applyWrites pkValues image t (filed codec ev) =
          Function.update t ev.pkValues none := by
        simp [filed, unmoved, applyWrites, image, type]
      rw [writes]
      exact lists.remove ev.pkValues
    · cases valid
  | update =>
    rw [type] at captured valid
    obtain ⟨before, after, k', hb, ha, -, keyOfAfter, oneKey, -⟩ := captured
    have hk := KeyCodec.keyOf_of_canonicalPK keyOfAfter
    rw [ha] at valid
    dsimp only at valid
    split at valid
    · cases valid
    · rename_i present
      split at valid
      · cases valid
      · rename_i free
        cases valid
        -- whether or not the row moves, its old key is vacated first
        have writes : applyWrites pkValues image t (filed codec ev) =
            Function.update (Function.update t ev.pkValues none) k' (some after) := by
          cases changed : pkChangedInEvent codec ev with
          | none =>
            have same := oneKey (buildPKValues_eq_of_unchanged changed type hb ha)
            simp [filed, changed, applyWrites, image, type, ha, same]
          | some pair =>
            obtain ⟨b, a⟩ := pair
            obtain ⟨-, a', ha', -, spelled⟩ :=
              moved.keys_of_changed notRefused changed
            rw [ha] at ha'
            cases ha'
            rw [keyOfAfter] at spelled
            cases spelled
            simp [filed, changed, applyWrites, image, ha]
        have vacant : Function.update t ev.pkValues none k' = none := by
          by_cases same : k' = ev.pkValues
          · rw [same, Function.update_self]
          · rw [Function.update_of_ne same, ← holdsKey_eq_false lists, ← hk]
            have ne : codec.keyOf after ≠ some ev.pkValues := by
              rw [hk]
              exact fun h => same (Option.some.inj h)
            simpa [ne] using free
        have someRow : ∃ r ∈ table, codec.keyOf r = some ev.pkValues := by
          have held : holdsKey codec table (some ev.pkValues) = true := by simpa using present
          rw [holdsKey, any_eq_true] at held
          obtain ⟨r, member, same⟩ := held
          exact ⟨r, member, by simpa using same⟩
        rw [writes]
        exact ((lists.remove ev.pkValues).append_row hk vacant).of_perm
          (map_replace_perm lists.nodup someRow after).symm
  | _ =>
    rw [type] at captured
    exact captured.elim

theorem replay_lists {table' : List Row} (lists : Lists codec.keyOf table t)
    (captured : ∀ ev ∈ history, Captured codec ev)
    (notRefused : ∀ ev ∈ history, ¬ Refused codec ev)
    (valid : replay codec table history = some table') :
    Lists codec.keyOf table'
      (applyWrites pkValues image t (history.flatMap (filed codec))) := by
  induction history generalizing table t with
  | nil =>
    cases valid
    exact lists
  | cons ev rest ih =>
    unfold replay at valid
    rw [foldlM_cons] at valid
    obtain ⟨mid, midValid, valid⟩ := Option.bind_eq_some_iff.mp valid
    have midLists := replayEvent_lists lists (captured ev (by simp))
      (notRefused ev (by simp)) midValid
    have rest' := ih midLists (fun ev' member => captured ev' (by simp [member]))
      (fun ev' member => notRefused ev' (by simp [member])) valid
    rw [flatMap_cons, applyWrites_append]
    exact rest'

/-! ## Order -/

/-- A filed change keeps the coordinate and the id of its event. -/
theorem filed_frame {w : ResultRow Row} (member : w ∈ filed codec ev) :
    ∃ type pk before after cols, w = { ev with
      eventType := type, pkValues := pk, rowBefore := before, rowAfter := after,
      changedColumns := cols } := by
  unfold filed at member
  split at member
  · rw [mem_singleton.mp member]
    exact ⟨_, _, _, _, _, rfl⟩
  · simp only [mem_cons, not_mem_nil, or_false] at member
    rcases member with rfl | rfl <;> exact ⟨_, _, _, _, _, rfl⟩

theorem mem_filed {w : ResultRow Row} (member : w ∈ filed codec ev) :
    w.stamp = ev.stamp ∧ hasBinlogCoordinate w = hasBinlogCoordinate ev := by
  obtain ⟨_, _, _, _, _, rfl⟩ := filed_frame member
  exact ⟨rfl, rfl⟩

/-- The two halves of one event name two keys. -/
theorem filed_pairwise (captured : Captured codec ev) (notRefused : ¬ Refused codec ev) :
    (filed codec ev).Pairwise fun a b => a.pkValues = b.pkValues → a.stamp < b.stamp := by
  unfold filed
  cases changed : pkChangedInEvent codec ev with
  | none => exact pairwise_singleton _ _
  | some pair =>
    obtain ⟨before, after⟩ := pair
    obtain ⟨-, b, a, -, -, -, -, ne⟩ := pkChangedInEvent_eq_some changed
    obtain ⟨stored, -⟩ := captured.keys_of_changed notRefused changed
    rw [stored] at ne
    simpa using fun same => absurd same ne

theorem filedChanges_sorted (captured : ∀ ev ∈ history, Captured codec ev)
    (notRefused : ∀ ev ∈ history, ¬ Refused codec ev)
    (sorted : history.Pairwise fun a b => a.stamp < b.stamp) :
    (filedChanges codec history).Pairwise fun a b =>
      a.pkValues = b.pkValues → a.stamp < b.stamp := by
  unfold filedChanges
  rw [pairwise_map, pairwise_flatMap]
  refine ⟨fun ev member => filed_pairwise (captured ev member) (notRefused ev member), ?_⟩
  refine sorted.imp fun {a b} lt => ?_
  intro w inA w' inB _
  have left : (retainEvent w).stamp = a.stamp := (mem_filed inA).1
  have right : (retainEvent w').stamp = b.stamp := (mem_filed inB).1
  rw [left, right]
  exact lt

theorem hasBinlogCoordinate_filedChanges (codec : KeyCodec Row)
    (coords : ∀ ev ∈ evs, hasBinlogCoordinate ev = true) :
    ∀ w ∈ filedChanges codec evs, hasBinlogCoordinate w = true := by
  intro w member
  unfold filedChanges at member
  obtain ⟨w', inFlat, rfl⟩ := mem_map.mp member
  obtain ⟨ev, inEvs, inFiled⟩ := mem_flatMap.mp inFlat
  exact (mem_filed inFiled).2.trans (coords ev inEvs)

theorem filedChanges_perm {evs' : List (ResultRow Row)} (perm : evs.Perm evs') :
    (filedChanges codec evs).Perm (filedChanges codec evs') :=
  (perm.flatMap_right _).map _

theorem applyWrites_filedChanges (t : String → Option Row) (evs : List (ResultRow Row)) :
    applyWrites pkValues image t (filedChanges codec evs) =
      applyWrites pkValues image t (evs.flatMap (filed codec)) := by
  unfold filedChanges applyWrites
  rw [foldl_map]
  rfl

/-! ## The fold is the replay -/

/-- Over captured events in strict binlog order, any arrival order folds to a
map whose overlay is the replayed table. -/
theorem overlay_foldl_eq_replay {arrivals : List (ResultRow Row)}
    (sorted : history.Pairwise fun a b => a.stamp < b.stamp)
    (coords : ∀ ev ∈ history, hasBinlogCoordinate ev = true)
    (captured : ∀ ev ∈ history, Captured codec ev)
    (notRefused : ∀ ev ∈ history, ¬ Refused codec ev) (perm : arrivals.Perm history)
    (t : String → Option Row) :
    overlay (ChangeMap.writes ((filedChanges codec arrivals).foldl
        (keepLater pkValues laterInBinlog) ∅)) t =
      applyWrites pkValues image t (history.flatMap (filed codec)) := by
  have coord := hasBinlogCoordinate_filedChanges codec
    fun ev member => coords ev (perm.mem_iff.mp member)
  have latest : HoldsLatest pkValues stamp (filedChanges codec arrivals)
      ((filedChanges codec arrivals).foldl (keepLater pkValues laterInBinlog) ∅) :=
    foldl_keepLater_latest _ fun cur inCur w inW =>
      laterInBinlog_iff (coord cur inCur) (coord w inW)
  rw [← applyWrites_filedChanges]
  exact (latest.of_perm (filedChanges_perm perm)).overlay_eq_applyWrites
    (filedChanges_sorted captured notRefused sorted) t

theorem stamp_strict (sorted : history.Pairwise fun a b => a.stamp ≤ b.stamp)
    (ids : (history.map eventID).Nodup) :
    history.Pairwise fun a b => a.stamp < b.stamp := by
  have distinct : history.Pairwise fun a b => a.eventID ≠ b.eventID := pairwise_map.mp ids
  refine (sorted.and distinct).imp ?_
  rintro a b ⟨le, ne⟩
  refine lt_of_le_of_ne le fun same => ne ?_
  unfold stamp at same
  simpa using congrArg (fun s : BinlogStamp => (ofLex (ofLex (ofLex s).2).2).2) same

/-- A fold that ends well refused nothing, and merges onto the baseline as the changes in
binlog order. -/
theorem foldPages_merge_lists (codec : KeyCodec Row) (schema table : String) {baseline : List Row}
    (keyed : ∀ r ∈ baseline, ∃ k, codec.keyOf r = some k)
    (distinct : (baseline.map codec.keyOf).Nodup)
    (sorted : history.Pairwise fun a b => a.stamp ≤ b.stamp)
    (ids : (history.map eventID).Nodup)
    (coords : ∀ ev ∈ history, hasBinlogCoordinate ev = true)
    (captured : ∀ ev ∈ history, Captured codec ev) {pages : List (List (ResultRow Row))}
    (arrival : pages.flatten.Perm history) {res : FoldResult Row}
    (ok : foldPages codec schema table none {} pages = .ok res) :
    (∀ ev ∈ history, ¬ Refused codec ev) ∧
    ∃ out stats,
      mergeBaselineImages { codec := codec, schema := schema, table := table } baseline
        res.changes = .ok (out, stats) ∧
      Lists codec.keyOf out (applyWrites pkValues image
        (tableOf codec.keyOf baseline) (history.flatMap (filed codec))) := by
  have captured' : ∀ ev ∈ pages.flatten, Captured codec ev :=
    fun ev member => captured ev (arrival.mem_iff.mp member)
  have notRefused' := notRefused_of_foldPages_ok ok
  have notRefused : ∀ ev ∈ history, ¬ Refused codec ev :=
    fun ev member => notRefused' ev (arrival.mem_iff.mpr member)
  obtain ⟨res', ok', changes⟩ := foldPages_ok schema table {} rfl captured' notRefused'
  rw [ok] at ok'
  cases ok'
  obtain ⟨out, stats, mergeOk, outLists⟩ := mergeBaselineImages_lists
    { codec := codec, schema := schema, table := table } rfl rfl
    (changes ▸ imagesKeyed_foldl captured' notRefused') (lists_tableOf keyed distinct)
  refine ⟨notRefused, out, stats, mergeOk, ?_⟩
  rw [← overlay_foldl_eq_replay (stamp_strict sorted ids) coords captured notRefused arrival,
    ← changes]
  exact outLists

/-- Folding the pages of a valid history, in any arrival order and any split,
and merging the map onto the baseline gives the table the source reached by
the events in binlog order. The fold refuses exactly the events it cannot key. -/
theorem foldPages_merge_perm_replay (codec : KeyCodec Row) (schema table : String)
    {baseline replayed : List Row}
    (keyed : ∀ r ∈ baseline, ∃ k, codec.keyOf r = some k)
    (distinct : (baseline.map codec.keyOf).Nodup)
    {history : List (ResultRow Row)}
    (sorted : history.Pairwise fun a b => a.stamp ≤ b.stamp)
    (ids : (history.map eventID).Nodup)
    (coords : ∀ ev ∈ history, hasBinlogCoordinate ev = true)
    (captured : ∀ ev ∈ history, Captured codec ev)
    (valid : replay codec baseline history = some replayed)
    {pages : List (List (ResultRow Row))} (arrival : pages.flatten.Perm history) :
    ((∀ ev ∈ history, ¬ Refused codec ev) ↔
      ∃ res, foldPages codec schema table none {} pages = .ok res) ∧
    ∀ res, foldPages codec schema table none {} pages = .ok res →
      ∃ out stats,
        mergeBaselineImages { codec := codec, schema := schema, table := table } baseline
          res.changes = .ok (out, stats) ∧
        out.Perm replayed := by
  have captured' : ∀ ev ∈ pages.flatten, Captured codec ev :=
    fun ev member => captured ev (arrival.mem_iff.mp member)
  refine ⟨⟨fun notRefused => ?_, ?_⟩, fun res ok => ?_⟩
  · obtain ⟨res, ok, -⟩ := foldPages_ok schema table {} rfl captured'
      fun ev member => notRefused ev (arrival.mem_iff.mp member)
    exact ⟨res, ok⟩
  · rintro ⟨res, ok⟩ ev member
    exact notRefused_of_foldPages_ok ok ev (arrival.mem_iff.mpr member)
  · obtain ⟨notRefused, out, stats, mergeOk, outLists⟩ := foldPages_merge_lists codec schema table
      keyed distinct sorted ids coords captured arrival ok
    refine ⟨out, stats, mergeOk, ?_⟩
    exact outLists.perm (replay_lists (lists_tableOf keyed distinct) captured notRefused valid)

/-- One rows event that swaps keys 1 and 2 through key 9. -/
def swapHistory : List (ResultRow (TextKey × String)) := [
  indexedEvent 10 100 .update "1" (some (.text "1", "a")) (some (.text "9", "a")),
  indexedEvent 11 100 .update "2" (some (.text "2", "b")) (some (.text "1", "b")),
  indexedEvent 12 100 .update "9" (some (.text "9", "a")) (some (.text "2", "a"))]

/-- The same events, the last one first and on a page of its own. -/
def swapPages : List (List (ResultRow (TextKey × String))) :=
  [swapHistory.drop 2, swapHistory.take 2]

theorem swapHistory_captured : ∀ ev ∈ swapHistory, Captured textKeyCodec ev := by
  intro ev member
  simp only [swapHistory, mem_cons, not_mem_nil, or_false] at member
  rcases member with rfl | rfl | rfl <;>
    exact ⟨_, _, _, rfl, rfl, rfl, rfl, by decide, fun _ _ => rfl⟩

theorem swapPages_merge : ∃ res out stats,
    foldPages textKeyCodec "s" "t" none {} swapPages = .ok res ∧
    mergeBaselineImages { codec := textKeyCodec, schema := "s", table := "t" }
      [(.text "1", "a"), (.text "2", "b")] res.changes = .ok (out, stats) ∧
    out.Perm [(.text "2", "a"), (.text "1", "b")] := by
  have valid : replay textKeyCodec [(.text "1", "a"), (.text "2", "b")] swapHistory =
      some [(.text "2", "a"), (.text "1", "b")] := by decide
  have arrival : swapPages.flatten.Perm swapHistory := by decide
  obtain ⟨-, merged⟩ := foldPages_merge_perm_replay textKeyCodec "s" "t"
    (fun r _ => ⟨r.1.stored, rfl⟩) (by decide) (by decide) (by decide) (by decide)
    swapHistory_captured valid arrival
  obtain ⟨out, stats, mergeOk, perm⟩ := merged _ rfl
  exact ⟨_, out, stats, rfl, mergeOk, perm⟩

/-- An UPDATE that moves a row to a key the decoded image spells as `[1 2]`. -/
def jsonKeyMove : List (ResultRow (TextKey × String)) :=
  [indexedEvent 10 100 .update "a" (some (.text "a", "v")) (some (.jsonList ["1", "2"], "v"))]

/-- A valid history of one key change that the fold refuses. -/
theorem jsonKeyMove_refused :
    (∀ ev ∈ jsonKeyMove, Captured textKeyCodec ev ∧ hasBinlogCoordinate ev = true) ∧
    replay textKeyCodec [(.text "a", "v")] jsonKeyMove = some [(.jsonList ["1", "2"], "v")] ∧
    ∀ res, foldPages textKeyCodec "s" "t" none {} [jsonKeyMove] ≠ .ok res := by
  refine ⟨?_, by decide, ?_⟩
  · intro ev member
    rw [jsonKeyMove, mem_singleton] at member
    subst member
    exact ⟨⟨_, _, _, rfl, rfl, rfl, rfl, by decide, by decide⟩, by decide⟩
  · intro res ok
    cases ok

end Dbtrail
