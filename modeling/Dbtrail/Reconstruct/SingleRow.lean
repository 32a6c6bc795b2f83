import Dbtrail.Reconstruct.Replay

/-!
# The state of one row

A single-row reconstruction folds the events stored under one key onto the row's baseline
image (`applyAt`). An UPDATE that moves a row is stored under its old key, and `applyAt` does
not split it as the fold of a whole table does.

`applyAt_eq_table_iff` says for which keys the two agree: for those whose last change is not
a move onto the key or off it.
-/

namespace Dbtrail

open List ResultRow

variable {Row : Type} (codec : KeyCodec Row)

def applyEvent (state : Option Row) (ev : ResultRow Row) : Option Row :=
  match ev.eventType with
  | .insert => ev.rowAfter
  | .update => ev.rowAfter
  | .delete => none
  | _ => state

/-- `time` is the time of the reconstruction; the first event past it ends the fold. -/
def applyAt (time : ℤ) : Option Row → List (ResultRow Row) → Except FoldError (Option Row)
  | state, [] => .ok state
  | state, ev :: events =>
      if time < ev.eventTimestamp then .ok state
      else do
        checkEventToast codec ev
        applyAt time (applyEvent state ev) events

/-- The events stored under the key. -/
def storedUnder (k : String) (history : List (ResultRow Row)) : List (ResultRow Row) :=
  history.filter fun ev => ev.pkValues == k

/-- The event changes what is stored under the key: the key is its own, or it moves a row to it. -/
def touchesKey (k : String) (ev : ResultRow Row) : Bool :=
  (filed codec ev).any fun w => w.pkValues == k

/-- The last event of the history that changes what is stored under the key. -/
def lastTouching (k : String) (history : List (ResultRow Row)) : Option (ResultRow Row) :=
  (history.filter (touchesKey codec k)).getLast?

variable {codec}

/-! ## The two states of a key -/

theorem applyAt_eq {time : ℤ} {events : List (ResultRow Row)}
    (timely : ∀ ev ∈ events, ev.eventTimestamp ≤ time)
    (notRefused : ∀ ev ∈ events, ¬ Refused codec ev) (state : Option Row) :
    applyAt codec time state events = .ok (events.foldl applyEvent state) := by
  induction events generalizing state with
  | nil => rfl
  | cons ev events ih =>
    rw [applyAt, if_neg (not_lt.mpr (timely ev mem_cons_self)),
      checkEventToast_ok (notRefused ev mem_cons_self)]
    exact ih (fun e member => timely e (mem_cons_of_mem ev member))
      (fun e member => notRefused e (mem_cons_of_mem ev member)) _

theorem Captured.image_eq {ev : ResultRow Row} (captured : Captured codec ev) (state : Option Row) :
    ev.image = applyEvent state ev := by
  unfold Captured at captured
  unfold ResultRow.image applyEvent
  cases type : ev.eventType with
  | insert | update | delete => rfl
  | _ =>
    rw [type] at captured
    exact captured.elim

/-- The writes of an event that does not move its row. -/
theorem applyWrites_unmoved {ev : ResultRow Row} (unmoved : pkChangedInEvent codec ev = none)
    (t : String → Option Row) :
    applyWrites pkValues ResultRow.image t (filed codec ev) =
      Function.update t ev.pkValues ev.image := by
  rw [filed, unmoved]
  rfl

/-- The writes of an event that moves its row, and the image it leaves. -/
theorem Captured.applyWrites_moved {ev : ResultRow Row} (captured : Captured codec ev)
    (notRefused : ¬ Refused codec ev) {before after : String}
    (moved : pkChangedInEvent codec ev = some (before, after)) (t : String → Option Row) :
    ev.eventType = .update ∧ ev.pkValues ≠ after ∧
      ∃ image, ev.rowAfter = some image ∧ codec.keyOf image = some after ∧
        applyWrites pkValues ResultRow.image t (filed codec ev) =
          Function.update (Function.update t ev.pkValues none) after (some image) := by
  obtain ⟨isUpdate, -, -, -, -, -, -, ne⟩ := pkChangedInEvent_eq_some moved
  obtain ⟨stored, image, isImage, -, spelled⟩ := captured.keys_of_changed notRefused moved
  refine ⟨isUpdate, stored ▸ ne, image, isImage, KeyCodec.keyOf_of_canonicalPK spelled, ?_⟩
  rw [filed, moved]
  simp [applyWrites, ResultRow.image, isImage]

theorem touchesKey_unmoved {ev : ResultRow Row} (unmoved : pkChangedInEvent codec ev = none)
    (k : String) : touchesKey codec k ev = (ev.pkValues == k) := by
  rw [touchesKey, filed, unmoved]
  exact Bool.or_false _

theorem touchesKey_moved {ev : ResultRow Row} {before after : String}
    (moved : pkChangedInEvent codec ev = some (before, after)) (k : String) :
    touchesKey codec k ev = (ev.pkValues == k || after == k) := by
  rw [touchesKey, filed, moved]
  simp

theorem storedUnder_concat (k : String) (history : List (ResultRow Row)) (ev : ResultRow Row)
    (state : Option Row) :
    (storedUnder k (history ++ [ev])).foldl applyEvent state =
      if ev.pkValues = k then applyEvent ((storedUnder k history).foldl applyEvent state) ev
      else (storedUnder k history).foldl applyEvent state := by
  rw [storedUnder, filter_append, foldl_append]
  by_cases same : ev.pkValues = k
  · rw [if_pos same, filter_cons_of_pos (by simp [same])]
    rfl
  · rw [if_neg same, filter_cons_of_neg (by simp [same])]
    rfl

theorem lastTouching_concat (k : String) (history : List (ResultRow Row)) (ev : ResultRow Row) :
    lastTouching codec k (history ++ [ev]) =
      if touchesKey codec k ev then some ev else lastTouching codec k history := by
  rw [lastTouching, filter_append]
  split
  next touches =>
    rw [filter_cons_of_pos touches]
    exact getLast?_concat
  next untouched =>
    rw [filter_cons_of_neg untouched, filter_nil, append_nil]
    rfl

/-- Event by event: the two states of a key agree exactly when its last change is not a move,
and where the table has no row under the key the single row is none or has another key. -/
theorem storedUnder_eq_iff {table : List Row} {t : String → Option Row}
    (lists : Lists codec.keyOf table t) {history : List (ResultRow Row)}
    (captured : ∀ ev ∈ history, Captured codec ev)
    (notRefused : ∀ ev ∈ history, ¬ Refused codec ev) {replayed : List Row}
    (valid : replay codec table history = some replayed) (k : String) :
    ((storedUnder k history).foldl applyEvent (t k) =
        applyWrites pkValues ResultRow.image t (history.flatMap (filed codec)) k ↔
      ∀ ev ∈ lastTouching codec k history, pkChangedInEvent codec ev = none) ∧
    (applyWrites pkValues ResultRow.image t (history.flatMap (filed codec)) k = none →
      ∀ r, (storedUnder k history).foldl applyEvent (t k) = some r → codec.keyOf r ≠ some k) := by
  induction history using reverseRecOn generalizing replayed with
  | nil =>
    refine ⟨⟨fun _ ev none_ => (nomatch none_), fun _ => rfl⟩, fun absent r isRow => ?_⟩
    rw [show t k = none from absent] at isRow
    cases isRow
  | append_singleton history ev ih =>
    rw [replay, foldlM_append] at valid
    obtain ⟨mid, midValid, valid⟩ := Option.bind_eq_some_iff.mp valid
    rw [foldlM_cons] at valid
    obtain ⟨last, stepValid, -⟩ := Option.bind_eq_some_iff.mp valid
    have captured' : ∀ e ∈ history, Captured codec e :=
      fun e member => captured e (by simp [member])
    have notRefused' : ∀ e ∈ history, ¬ Refused codec e :=
      fun e member => notRefused e (by simp [member])
    have evCaptured := captured ev (by simp)
    have evTaken := notRefused ev (by simp)
    have midLists := replay_lists lists captured' notRefused' midValid
    obtain ⟨agree, stray⟩ := ih captured' notRefused' midValid
    rw [storedUnder_concat, lastTouching_concat, flatMap_append, flatMap_singleton,
      applyWrites_append]
    generalize applyWrites pkValues ResultRow.image t (history.flatMap (filed codec)) =
      now at agree stray midLists ⊢
    generalize (storedUnder k history).foldl applyEvent (t k) = state at agree stray ⊢
    cases moved : pkChangedInEvent codec ev with
    | none =>
      rw [applyWrites_unmoved moved, touchesKey_unmoved moved]
      by_cases here : ev.pkValues = k
      · rw [if_pos here, if_pos (beq_iff_eq.mpr here), here, Function.update_self,
          evCaptured.image_eq state]
        refine ⟨⟨fun _ e same => ?_, fun _ => rfl⟩, fun absent r isRow => ?_⟩
        · cases same
          exact moved
        · rw [absent] at isRow
          cases isRow
      · rw [if_neg here, if_neg (by rw [beq_iff_eq]; exact here),
          Function.update_of_ne (Ne.symm here)]
        exact ⟨agree, stray⟩
    | some keys =>
      obtain ⟨before, after⟩ := keys
      obtain ⟨isUpdate, apart, image, isImage, imageKey, writes⟩ :=
        evCaptured.applyWrites_moved evTaken moved now
      have isMove : ¬ ∀ e ∈ some ev, pkChangedInEvent codec e = none :=
        fun unmoved => nomatch moved.symm.trans (unmoved ev rfl)
      rw [writes, touchesKey_moved moved]
      by_cases off : ev.pkValues = k
      · -- The row leaves the key, and the single row follows it.
        have other : k ≠ after := off ▸ apart
        have followed : applyEvent state ev = some image := by
          rw [applyEvent, isUpdate]
          exact isImage
        rw [if_pos off, if_pos (by simp [off]), Function.update_of_ne other, off,
          Function.update_self, followed]
        refine ⟨iff_of_false nofun isMove, fun _ r isRow => ?_⟩
        rw [← Option.some.inj isRow, imageKey]
        exact fun same => other (Option.some.inj same).symm
      · by_cases onto : after = k
        · -- A row arrives under the key, which was free, and the single row misses it.
          have free : now k = none := by
            rw [replayEvent, isUpdate, isImage] at stepValid
            dsimp only at stepValid
            split at stepValid
            next => cases stepValid
            split at stepValid
            next => cases stepValid
            next taken =>
              rw [imageKey, onto, not_and, Bool.not_eq_true] at taken
              exact (holdsKey_eq_false midLists).mp
                (taken fun same => off (Option.some.inj same).symm)
          rw [if_neg off, if_pos (by simp [onto]), onto, Function.update_self]
          refine ⟨iff_of_false (fun same => ?_) isMove, nofun⟩
          exact stray free image same (imageKey.trans (congrArg some onto))
        · rw [if_neg off, if_neg (by simp [off, onto]), Function.update_of_ne (Ne.symm onto),
            Function.update_of_ne (Ne.symm off)]
          exact ⟨agree, stray⟩

/-! ## The single row and the table -/

/-- Where the fold of the table ends well, the row that `applyAt` gives for a key is the row
of the merged table under that key, absent exactly when the table has none, if and only if
the last change of the key is not a move of a row onto it or off it. -/
theorem applyAt_eq_table_iff (codec : KeyCodec Row) (schema table : String)
    {baseline replayed : List Row}
    (keyed : ∀ r ∈ baseline, ∃ k, codec.keyOf r = some k)
    (distinct : (baseline.map codec.keyOf).Nodup)
    {history : List (ResultRow Row)}
    (sorted : history.Pairwise fun a b => a.stamp ≤ b.stamp)
    (ids : (history.map eventID).Nodup)
    (coords : ∀ ev ∈ history, hasBinlogCoordinate ev = true)
    (captured : ∀ ev ∈ history, Captured codec ev)
    (valid : replay codec baseline history = some replayed)
    {time : ℤ} (timely : ∀ ev ∈ history, ev.eventTimestamp ≤ time)
    {pages : List (List (ResultRow Row))} (arrival : pages.flatten.Perm history)
    {res : FoldResult Row} (ok : foldPages codec schema table none {} pages = .ok res) :
    ∃ out stats,
      mergeBaselineImages { codec := codec, schema := schema, table := table } baseline
        res.changes = .ok (out, stats) ∧
      ∀ k, ∃ state,
        applyAt codec time (tableOf codec.keyOf baseline k) (storedUnder k history) = .ok state ∧
        (state = tableOf codec.keyOf out k ↔
          ∀ ev ∈ lastTouching codec k history, pkChangedInEvent codec ev = none) := by
  obtain ⟨notRefused, out, stats, mergeOk, outLists⟩ := foldPages_merge_lists codec schema table
    keyed distinct sorted ids coords captured arrival ok
  refine ⟨out, stats, mergeOk, fun k => ⟨_, applyAt_eq ?_ ?_ _, ?_⟩⟩
  · exact fun ev member => timely ev (mem_of_mem_filter member)
  · exact fun ev member => notRefused ev (mem_of_mem_filter member)
  · rw [(lists_tableOf outLists.keyed outLists.nodup).table_eq outLists]
    exact (storedUnder_eq_iff (lists_tableOf keyed distinct) captured notRefused valid k).1

section Moved

/-- Row 1 changes its value, and row 2 is moved to key 3. -/
def movedHistory : List (ResultRow (TextKey × String)) := [
  indexedEvent 10 100 .update "1" (some (.text "1", "a")) (some (.text "1", "b")),
  indexedEvent 11 200 .update "2" (some (.text "2", "c")) (some (.text "3", "c"))]

/-- The state that the single-row fold gives for a key of that history. -/
def movedRow (k : String) : Except FoldError (Option (TextKey × String)) :=
  applyAt textKeyCodec 1000 (tableOf textKeyCodec.keyOf [(.text "1", "a"), (.text "2", "c")] k)
    (storedUnder k movedHistory)

/-- The two agree on row 1. -/
theorem movedHistory_agree : ∃ res out stats state,
    foldPages textKeyCodec "s" "t" none {} [movedHistory] = .ok res ∧
    mergeBaselineImages { codec := textKeyCodec, schema := "s", table := "t" }
      [(.text "1", "a"), (.text "2", "c")] res.changes = .ok (out, stats) ∧
    movedRow "1" = .ok state ∧ state = tableOf textKeyCodec.keyOf out "1" := by
  have captured : ∀ ev ∈ movedHistory, Captured textKeyCodec ev := by
    intro ev member
    simp only [movedHistory, mem_cons, not_mem_nil, or_false] at member
    rcases member with rfl | rfl
    · exact ⟨_, _, _, rfl, rfl, rfl, rfl, by decide, fun _ _ => rfl⟩
    · exact ⟨_, _, _, rfl, rfl, rfl, rfl, by decide, fun _ _ => rfl⟩
  have valid : replay textKeyCodec [(.text "1", "a"), (.text "2", "c")] movedHistory =
      some [(.text "1", "b"), (.text "3", "c")] := by decide
  have atTime : ∀ ev ∈ movedHistory, ev.eventTimestamp ≤ 1000 := by decide
  have paged : [movedHistory].flatten.Perm movedHistory := by decide
  obtain ⟨out, stats, mergeOk, agree⟩ := applyAt_eq_table_iff textKeyCodec "s" "t"
    (fun r _ => ⟨r.1.stored, rfl⟩) (by decide) (by decide) (by decide) (by decide) captured valid
    atTime paged rfl
  obtain ⟨state, isState, same⟩ := agree "1"
  exact ⟨_, out, stats, state, rfl, mergeOk, isState, same.mpr (by decide)⟩

/-- A valid history of one key change: under the old key the single row is a row of another
key, and under the new key it is absent, while the table has a row there and only there. -/
theorem movedHistory_differ :
    movedRow "2" = .ok (some (.text "3", "c")) ∧ movedRow "3" = .ok none ∧
    ∃ res out stats,
      foldPages textKeyCodec "s" "t" none {} [movedHistory] = .ok res ∧
      mergeBaselineImages { codec := textKeyCodec, schema := "s", table := "t" }
        [(.text "1", "a"), (.text "2", "c")] res.changes = .ok (out, stats) ∧
      tableOf textKeyCodec.keyOf out "2" = none ∧
      tableOf textKeyCodec.keyOf out "3" = some (.text "3", "c") := by
  exact ⟨rfl, rfl, _, _, _, rfl, rfl, rfl, rfl⟩

end Moved

end Dbtrail
