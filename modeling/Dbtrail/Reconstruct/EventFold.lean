import Dbtrail.Lib.Checked
import Dbtrail.Lib.LastWriter
import Dbtrail.Query.Binlog

/-!
# Folding a window of events into a change map

`foldPage` files each event of a page under its primary key, keeping the change
the binary log holds last. An UPDATE that moved its row to another key is filed
as the DELETE of the old key and the INSERT of the new one (`splitPKChange`).

How a key is spelled belongs to the table, not to the fold: `KeyCodec` holds the
spelling functions (`event.BuildPKValues`, `canonicalizePKMap`,
`altFixedBinaryPK` for the table's key columns), and `Captured` says what the
parser and the indexer store: the key text of an event is the spelling of its
own row image.
-/

namespace Dbtrail

open List

/-- The functions of a table's key columns, over its row images. -/
structure KeyCodec (Row : Type) : Type where
  /-- `event.BuildPKValues`: the key text of an image. -/
  buildPKValues : Row → String
  /-- `canonicalizePKMap`: the key columns of a stored row as the index has them. -/
  canonicalizePKMap : Row → Except String Row
  /-- `altFixedBinaryPK`: the other spelling a fixed BINARY key could carry. -/
  altFixedBinaryPK : Row → Option String
  /-- `pkKeyUnspellable`: the first key column the index would spell another way, and why. -/
  pkKeyUnspellable : Row → Option (String × String)
  /-- `event.UnresolvedToastColumns`: columns holding an unchanged-TOAST marker. -/
  unresolvedToastColumns : Row → List String
  /-- The column names of an image. -/
  columns : Row → List String
  /-- An alternate spelling ends in padding and a canonical one never does, so
  no row's canonical key is another row's alternate. -/
  alt_fresh : ∀ r m alt r' m', canonicalizePKMap r = .ok m → altFixedBinaryPK m = some alt →
    canonicalizePKMap r' = .ok m' → buildPKValues m' ≠ alt

variable {Row : Type} (codec : KeyCodec Row)

/-- The key under which the merge looks a stored row up. -/
def KeyCodec.canonicalPK (r : Row) : Except String String := do
  let pkMap ← codec.canonicalizePKMap r
  return codec.buildPKValues pkMap

/-- The canonical key as a partial function, `none` where the row is refused. -/
def KeyCodec.keyOf (r : Row) : Option String := (codec.canonicalPK r).toOption

/-- `pk_values → the last change of that key`, Go's `map[string]*query.ResultRow`. -/
abbrev ChangeMap (Row : Type) : Type := AList fun _ : String => ResultRow Row

/-- Why a split of a key change is not safe. -/
inductive SpellingReason : Type
  | storedAs (stored decoded : String)
  | unspellable (col why : String)
  deriving DecidableEq, Repr

/-- The refusals of a fold, with what their texts name. -/
inductive FoldError : Type
  | sysVersioned (msg : String)
  | unresolvedToast (schema table pkValues : String) (cols : List String)
  | pkChangingUpdate (schema table before after : String)
  | pkSpelling (schema table before after : String) (why : SpellingReason)
  deriving DecidableEq, Repr

/-- The part of `foldResult` the fold itself writes. `touched` is what the
callback of `foldOptions` was called with. -/
structure FoldResult (Row : Type) : Type where
  changes : ChangeMap Row := ∅
  inserts : ℕ := 0
  updates : ℕ := 0
  deletes : ℕ := 0
  imageColumns : List String := []
  sawImage : Bool := false
  touched : List String := []

structure FoldOptions : Type where
  pg : Bool := false
  touched : Bool := false

/-- A copy trimmed to what the merge reads. -/
def retainEvent (ev : ResultRow Row) : ResultRow Row :=
  { ev with rowBefore := none, queryText := none, queryHash := none }

def checkEventToast (ev : ResultRow Row) : Except FoldError Unit :=
  match ([ev.rowBefore, ev.rowAfter].filterMap id).find? fun img =>
      !(codec.unresolvedToastColumns img).isEmpty with
  | some img => .error (.unresolvedToast ev.schemaName ev.tableName ev.pkValues
      (codec.unresolvedToastColumns img))
  | none => .ok ()

/-- The two key texts of an UPDATE that moved its row. -/
def pkChangedInEvent (ev : ResultRow Row) : Option (String × String) :=
  if ev.eventType ≠ .update then none
  else
    match ev.rowBefore, ev.rowAfter with
    | some before, some after =>
        let b := codec.buildPKValues before
        let a := codec.buildPKValues after
        if b ≠ a then some (b, a) else none
    | _, _ => none

def splitPKChange (ev : ResultRow Row) (schema table : String) (pg : Bool) :
    Except FoldError (Option (List (ResultRow Row))) :=
  match pkChangedInEvent codec ev with
  | none => .ok none
  | some (before, after) =>
      if pg then .error (.pkChangingUpdate schema table before after)
      else if before ≠ ev.pkValues then
        .error (.pkSpelling schema table ev.pkValues after (.storedAs ev.pkValues before))
      else
        match ev.rowAfter.bind codec.pkKeyUnspellable with
        | some (col, why) =>
            .error (.pkSpelling schema table ev.pkValues after (.unspellable col why))
        | none =>
            .ok (some [
              { ev with eventType := .delete, rowAfter := none, changedColumns := none },
              { ev with
                eventType := .insert, pkValues := after, rowBefore := none,
                changedColumns := none }])

/-- Narrow `imageColumns` to the columns every image seen so far has. -/
def FoldResult.observeImage (res : FoldResult Row) (img : Row) : FoldResult Row :=
  if res.sawImage then
    { res with imageColumns := res.imageColumns.filter (codec.columns img).contains }
  else { res with sawImage := true, imageColumns := codec.columns img }

def FoldResult.observeImages (res : FoldResult Row) (ev : ResultRow Row) : FoldResult Row :=
  ([ev.rowAfter, ev.rowBefore].filterMap id).foldl (FoldResult.observeImage codec) res

def FoldResult.count (res : FoldResult Row) (ev : ResultRow Row) : FoldResult Row :=
  match ev.eventType with
  | .insert => { res with inserts := res.inserts + 1 }
  | .update => { res with updates := res.updates + 1 }
  | .delete => { res with deletes := res.deletes + 1 }
  | _ => res

/-- File `ev` under its key unless the map already holds a later change of it. -/
def FoldResult.fold (opts : FoldOptions) (res : FoldResult Row) (ev : ResultRow Row) :
    FoldResult Row :=
  let res := if opts.touched then { res with touched := res.touched ++ [ev.pkValues] } else res
  match res.changes.lookup ev.pkValues with
  | some cur =>
      if laterInBinlog cur ev then res
      else { res with changes := res.changes.insert ev.pkValues (retainEvent ev) }
  | none => { res with changes := res.changes.insert ev.pkValues (retainEvent ev) }

/-- What `sv.normalize` makes of an event of a system-versioned table: the
event in its meaning for the current rows, or nothing. -/
abbrev Normalizer (Row : Type) : Type :=
  ResultRow Row → Except String (Option (ResultRow Row))

/-- One event of `foldPage`, after normalization. -/
def foldEvent (schema table : String) (opts : FoldOptions) (res : FoldResult Row)
    (ev : ResultRow Row) : Except FoldError (FoldResult Row) := do
  checkEventToast codec ev
  let halves ← splitPKChange codec ev schema table opts.pg
  let res := (res.observeImages codec ev).count ev
  match halves with
  | none => return res.fold opts ev
  | some halves => return halves.foldl (FoldResult.fold opts) res

def foldPage (schema table : String) (sv : Option (Normalizer Row)) (opts : FoldOptions)
    (res : FoldResult Row) (page : List (ResultRow Row)) : Except FoldError (FoldResult Row) :=
  page.foldlM (fun res ev =>
    match sv with
    | none => foldEvent codec schema table opts res ev
    | some normalize =>
        match normalize ev with
        | .error msg => .error (.sysVersioned msg)
        | .ok none => .ok res
        | .ok (some ev) => foldEvent codec schema table opts res ev) res

/-- The pages of a window, in the order the stream delivers them. -/
def foldPages (schema table : String) (sv : Option (Normalizer Row)) (opts : FoldOptions)
    (pages : List (List (ResultRow Row))) : Except FoldError (FoldResult Row) :=
  pages.foldlM (foldPage codec schema table sv opts) {}

/-! ## What capture stores -/

/-- The row images and the key text of an indexed row event, as the parser and
the indexer leave them. The event is filed under the key of its old image (of
its new one for an INSERT). An UPDATE's two images went through one storage and
decode path: spelled alike they have one key, and where the old image is
spelled as its key is stored, so is a new image of plain scalars. -/
def Captured (ev : ResultRow Row) : Prop :=
  match ev.eventType with
  | .insert => ∃ after, ev.rowAfter = some after ∧ codec.canonicalPK after = .ok ev.pkValues
  | .update => ∃ before after key, ev.rowBefore = some before ∧ ev.rowAfter = some after ∧
      codec.canonicalPK before = .ok ev.pkValues ∧ codec.canonicalPK after = .ok key ∧
      (codec.buildPKValues before = codec.buildPKValues after → key = ev.pkValues) ∧
      (codec.buildPKValues before = ev.pkValues → codec.pkKeyUnspellable after = none →
        key = codec.buildPKValues after)
  | .delete => ∃ before, ev.rowBefore = some before ∧ codec.canonicalPK before = .ok ev.pkValues
  | _ => False

/-- The events the fold refuses: a TOAST marker in an image, or a key change
whose old key is stored in another spelling or whose new key does not spell. -/
def Refused (ev : ResultRow Row) : Prop :=
  (∃ img, (ev.rowBefore = some img ∨ ev.rowAfter = some img) ∧
    codec.unresolvedToastColumns img ≠ []) ∨
  ∃ before after, pkChangedInEvent codec ev = some (before, after) ∧
    (before ≠ ev.pkValues ∨
      ∃ img, ev.rowAfter = some img ∧ (codec.pkKeyUnspellable img).isSome)

/-- The changes an event is filed as: itself, or its two halves. -/
def filed (ev : ResultRow Row) : List (ResultRow Row) :=
  match pkChangedInEvent codec ev with
  | none => [ev]
  | some (_, after) => [
      { ev with eventType := .delete, rowAfter := none, changedColumns := none },
      { ev with
        eventType := .insert, pkValues := after, rowBefore := none, changedColumns := none }]

/-- What an entry of a change map says about its key: a DELETE names the key of
a row, any other change carries the after-image stored under it. -/
def ImageKeyed (w : ResultRow Row) : Prop :=
  match w.eventType with
  | .delete => ∃ r, codec.keyOf r = some w.pkValues
  | .insert | .update => ∃ after, w.rowAfter = some after ∧ codec.keyOf after = some w.pkValues
  | _ => False

/-- A change map in which every entry sits under its own key and describes it. -/
def ImagesKeyed (changes : ChangeMap Row) : Prop :=
  ∀ k w, changes.lookup k = some w → w.pkValues = k ∧ ImageKeyed codec w

variable {codec} {ev : ResultRow Row} {page : List (ResultRow Row)}
  {pages : List (List (ResultRow Row))} {opts : FoldOptions} {res : FoldResult Row}
  {schema table : String} {sv : Option (Normalizer Row)}

theorem KeyCodec.keyOf_of_canonicalPK {r : Row} {k : String}
    (spelled : codec.canonicalPK r = .ok k) : codec.keyOf r = some k := by
  rw [KeyCodec.keyOf, spelled]
  rfl

theorem ImageKeyed.exists_row {w : ResultRow Row} (keyed : ImageKeyed codec w) :
    ∃ r, codec.keyOf r = some w.pkValues := by
  unfold ImageKeyed at keyed
  split at keyed
  · exact keyed
  · obtain ⟨after, -, hk⟩ := keyed
    exact ⟨after, hk⟩
  · obtain ⟨after, -, hk⟩ := keyed
    exact ⟨after, hk⟩
  · exact keyed.elim

theorem ImageKeyed.retainEvent {w : ResultRow Row} (keyed : ImageKeyed codec w) :
    ImageKeyed codec (retainEvent w) := keyed

/-! ## The fold of captured events -/

theorem pkChangedInEvent_eq_some {before after : String}
    (changed : pkChangedInEvent codec ev = some (before, after)) :
    ev.eventType = .update ∧ ∃ b a, ev.rowBefore = some b ∧ ev.rowAfter = some a ∧
      codec.buildPKValues b = before ∧ codec.buildPKValues a = after ∧ before ≠ after := by
  unfold pkChangedInEvent at changed
  split at changed
  · cases changed
  · rename_i isUpdate
    split at changed
    · rename_i b a hb ha
      dsimp only at changed
      split at changed
      · rename_i ne
        cases changed
        exact ⟨not_not.mp isUpdate, b, a, hb, ha, rfl, rfl, ne⟩
      · cases changed
    · cases changed

/-- An UPDATE the split leaves alone keeps its key. -/
theorem buildPKValues_eq_of_unchanged {b a : Row} (unchanged : pkChangedInEvent codec ev = none)
    (isUpdate : ev.eventType = .update) (hb : ev.rowBefore = some b) (ha : ev.rowAfter = some a) :
    codec.buildPKValues b = codec.buildPKValues a := by
  unfold pkChangedInEvent at unchanged
  rw [isUpdate, hb, ha] at unchanged
  by_contra ne
  simp [ne] at unchanged

/-- A key change the fold takes: the stored key is the old image's spelling and
the new image's spelling is its key. -/
theorem Captured.keys_of_changed (captured : Captured codec ev) (notRefused : ¬ Refused codec ev)
    {before after : String} (changed : pkChangedInEvent codec ev = some (before, after)) :
    before = ev.pkValues ∧ ∃ a, ev.rowAfter = some a ∧ codec.pkKeyUnspellable a = none ∧
      codec.canonicalPK a = .ok after := by
  obtain ⟨isUpdate, b, a, hb, ha, builtBefore, builtAfter, -⟩ := pkChangedInEvent_eq_some changed
  have stored : before = ev.pkValues := by
    by_contra ne
    exact notRefused (.inr ⟨before, after, changed, .inl ne⟩)
  have spelled : codec.pkKeyUnspellable a = none := by
    cases bad : codec.pkKeyUnspellable a with
    | none => rfl
    | some why =>
      exact absurd (.inr ⟨before, after, changed, .inr ⟨a, ha, by simp [bad]⟩⟩) notRefused
  unfold Captured at captured
  rw [isUpdate] at captured
  obtain ⟨b', a', key, hb', ha', -, keyOfAfter, -, proven⟩ := captured
  rw [hb] at hb'
  rw [ha] at ha'
  cases hb'
  cases ha'
  refine ⟨stored, a, ha, spelled, ?_⟩
  rw [keyOfAfter, proven (builtBefore.trans stored) spelled, builtAfter]

theorem Captured.imageKeyed_filed (captured : Captured codec ev) (notRefused : ¬ Refused codec ev) :
    ∀ w ∈ filed codec ev, ImageKeyed codec w := by
  intro w member
  unfold filed at member
  cases changed : pkChangedInEvent codec ev with
  | none =>
    rw [changed, mem_singleton] at member
    subst member
    unfold Captured at captured
    unfold ImageKeyed
    cases type : w.eventType with
    | insert =>
      rw [type] at captured
      obtain ⟨after, ha, spelled⟩ := captured
      exact ⟨after, ha, KeyCodec.keyOf_of_canonicalPK spelled⟩
    | update =>
      rw [type] at captured
      obtain ⟨before, after, key, hb, ha, -, spelled, oneKey, -⟩ := captured
      have same := buildPKValues_eq_of_unchanged changed type hb ha
      refine ⟨after, ha, KeyCodec.keyOf_of_canonicalPK ?_⟩
      rw [spelled, oneKey same]
    | delete =>
      rw [type] at captured
      obtain ⟨before, -, spelled⟩ := captured
      exact ⟨before, KeyCodec.keyOf_of_canonicalPK spelled⟩
    | _ =>
      rw [type] at captured
      exact captured
  | some pair =>
    obtain ⟨before, after⟩ := pair
    obtain ⟨-, a, ha, -, spelledAfter⟩ := captured.keys_of_changed notRefused changed
    have isUpdate := (pkChangedInEvent_eq_some changed).1
    unfold Captured at captured
    rw [isUpdate] at captured
    obtain ⟨b, -, -, -, -, spelledBefore, -⟩ := captured
    rw [changed] at member
    simp only [mem_cons, not_mem_nil, or_false] at member
    rcases member with rfl | rfl
    · exact ⟨b, KeyCodec.keyOf_of_canonicalPK spelledBefore⟩
    · exact ⟨a, ha, KeyCodec.keyOf_of_canonicalPK spelledAfter⟩

theorem FoldResult.fold_changes (opts : FoldOptions) (res : FoldResult Row)
    (ev : ResultRow Row) :
    (res.fold opts ev).changes =
      keepLater ResultRow.pkValues laterInBinlog res.changes (retainEvent ev) := by
  -- trimming changes neither the key nor the coordinate the comparison reads
  have later : ∀ cur, laterInBinlog cur (Dbtrail.retainEvent ev) = laterInBinlog cur ev :=
    fun _ => rfl
  have key : (Dbtrail.retainEvent ev).pkValues = ev.pkValues := rfl
  unfold FoldResult.fold keepLater
  cases held : res.changes.lookup ev.pkValues with
  | none =>
    have held' : res.changes.lookup (Dbtrail.retainEvent ev).pkValues = none := held
    cases opts.touched <;> simp [held, held', key]
  | some cur =>
    have held' : res.changes.lookup (Dbtrail.retainEvent ev).pkValues = some cur := held
    cases opts.touched <;> by_cases h : laterInBinlog cur ev = true <;>
      simp [held, held', later, h, key]

theorem FoldResult.foldl_fold_changes (opts : FoldOptions) (res : FoldResult Row)
    (evs : List (ResultRow Row)) :
    (evs.foldl (FoldResult.fold opts) res).changes =
      (evs.map Dbtrail.retainEvent).foldl (keepLater ResultRow.pkValues laterInBinlog)
        res.changes := by
  induction evs generalizing res with
  | nil => rfl
  | cons ev rest ih =>
    simp only [foldl_cons, map_cons]
    rw [ih, FoldResult.fold_changes]

theorem FoldResult.observeImages_frame (res : FoldResult Row) (ev : ResultRow Row) :
    ∃ saw columns,
      res.observeImages codec ev = { res with sawImage := saw, imageColumns := columns } := by
  unfold FoldResult.observeImages
  generalize [ev.rowAfter, ev.rowBefore].filterMap id = imgs
  induction imgs generalizing res with
  | nil => exact ⟨_, _, rfl⟩
  | cons img rest ih =>
    obtain ⟨saw, columns, framed⟩ := ih (res.observeImage codec img)
    rw [foldl_cons, framed]
    unfold FoldResult.observeImage
    split <;> exact ⟨saw, columns, rfl⟩

theorem FoldResult.count_changes (res : FoldResult Row) (ev : ResultRow Row) :
    (res.count ev).changes = res.changes := by
  unfold FoldResult.count
  split <;> rfl

theorem checkEventToast_ok (notRefused : ¬ Refused codec ev) :
    checkEventToast codec ev = .ok () := by
  unfold checkEventToast
  split
  · rename_i img found
    have member := mem_of_find?_eq_some found
    have marked := find?_some found
    refine absurd (.inl ⟨img, ?_, ?_⟩) notRefused
    · simpa [eq_comm] using member
    · simpa using marked
  · rfl

/-- A captured event the fold does not refuse is filed as `filed` says. -/
theorem splitPKChange_ok (schema table : String) (captured : Captured codec ev)
    (notRefused : ¬ Refused codec ev) :
    splitPKChange codec ev schema table false =
      .ok ((pkChangedInEvent codec ev).map fun _ => filed codec ev) := by
  unfold splitPKChange filed
  cases changed : pkChangedInEvent codec ev with
  | none => rfl
  | some pair =>
    obtain ⟨before, after⟩ := pair
    obtain ⟨stored, a, ha, spelled, -⟩ := captured.keys_of_changed notRefused changed
    simp [stored, ha, spelled]

theorem foldEvent_ok (schema table : String) (opts : FoldOptions) (mysql : opts.pg = false)
    (res : FoldResult Row) (captured : Captured codec ev) (notRefused : ¬ Refused codec ev) :
    ∃ res', foldEvent codec schema table opts res ev = .ok res' ∧
      res'.changes = ((filed codec ev).map Dbtrail.retainEvent).foldl
        (keepLater ResultRow.pkValues laterInBinlog) res.changes := by
  unfold foldEvent
  rw [checkEventToast_ok notRefused, mysql, splitPKChange_ok schema table captured notRefused]
  obtain ⟨_, _, framed⟩ := res.observeImages_frame ev
  cases changed : pkChangedInEvent codec ev with
  | none =>
    refine ⟨_, rfl, ?_⟩
    rw [FoldResult.fold_changes, FoldResult.count_changes, framed]
    simp [filed, changed]
  | some pair =>
    refine ⟨_, rfl, ?_⟩
    rw [FoldResult.foldl_fold_changes, FoldResult.count_changes, framed]

/-- The changes of a window, in arrival order, as the map compares them. -/
def filedChanges (codec : KeyCodec Row) (evs : List (ResultRow Row)) : List (ResultRow Row) :=
  (evs.flatMap (filed codec)).map Dbtrail.retainEvent

theorem foldPage_ok (schema table : String) (opts : FoldOptions) (mysql : opts.pg = false)
    (res : FoldResult Row) (captured : ∀ ev ∈ page, Captured codec ev)
    (notRefused : ∀ ev ∈ page, ¬ Refused codec ev) :
    ∃ res', foldPage codec schema table none opts res page = .ok res' ∧
      res'.changes = (filedChanges codec page).foldl
        (keepLater ResultRow.pkValues laterInBinlog) res.changes := by
  induction page generalizing res with
  | nil => exact ⟨res, rfl, rfl⟩
  | cons ev rest ih =>
    obtain ⟨mid, midOk, midChanges⟩ := foldEvent_ok schema table opts mysql res
      (captured ev (by simp)) (notRefused ev (by simp))
    obtain ⟨res', ok, changes⟩ := ih mid (fun ev' member => captured ev' (by simp [member]))
      (fun ev' member => notRefused ev' (by simp [member]))
    refine ⟨res', ?_, ?_⟩
    · unfold foldPage at ok ⊢
      rw [foldlM_cons]
      dsimp only
      rw [midOk]
      exact ok
    · rw [changes, midChanges]
      simp [filedChanges, foldl_append]

/-- A window of captured events, however it is split into pages, folds to the
later-wins map of its changes in arrival order. -/
theorem foldPages_ok (schema table : String) (opts : FoldOptions) (mysql : opts.pg = false)
    (captured : ∀ ev ∈ pages.flatten, Captured codec ev)
    (notRefused : ∀ ev ∈ pages.flatten, ¬ Refused codec ev) :
    ∃ res, foldPages codec schema table none opts pages = .ok res ∧
      res.changes = (filedChanges codec pages.flatten).foldl
        (keepLater ResultRow.pkValues laterInBinlog) ∅ := by
  unfold foldPages
  -- generalized over the map the earlier pages left
  suffices h : ∀ start : FoldResult Row, ∃ res,
      pages.foldlM (foldPage codec schema table none opts) start = .ok res ∧
        res.changes = (filedChanges codec pages.flatten).foldl
          (keepLater ResultRow.pkValues laterInBinlog) start.changes from h {}
  induction pages with
  | nil => exact fun start => ⟨start, rfl, rfl⟩
  | cons page rest ih =>
    intro start
    rw [flatten_cons] at captured notRefused
    obtain ⟨mid, midOk, midChanges⟩ := foldPage_ok schema table opts mysql start
      (fun ev member => captured ev (mem_append_left _ member))
      (fun ev member => notRefused ev (mem_append_left _ member))
    obtain ⟨res, ok, changes⟩ := ih
      (fun ev member => captured ev (mem_append_right _ member))
      (fun ev member => notRefused ev (mem_append_right _ member)) mid
    refine ⟨res, ?_, ?_⟩
    · rw [foldlM_cons, midOk]
      exact ok
    · rw [changes, midChanges]
      simp [filedChanges, foldl_append]

/-! ## Refusals -/

theorem foldEvent_refused (refused : Refused codec ev) (schema table : String)
    (opts : FoldOptions) (res res' : FoldResult Row) :
    foldEvent codec schema table opts res ev ≠ .ok res' := by
  intro ok
  unfold foldEvent at ok
  obtain ⟨⟨⟩, toastOk, ok⟩ := Except.bind_eq_ok ok
  obtain ⟨halves, splitOk, -⟩ := Except.bind_eq_ok ok
  rcases refused with ⟨img, present, marked⟩ | ⟨before, after, changed, why⟩
  · unfold checkEventToast at toastOk
    split at toastOk
    · cases toastOk
    · rename_i clean
      rw [find?_eq_none] at clean
      have member : img ∈ [ev.rowBefore, ev.rowAfter].filterMap id := by
        rcases present with h | h <;> simp [h]
      exact clean img member (by simpa using marked)
  · unfold splitPKChange at splitOk
    rw [changed] at splitOk
    dsimp only at splitOk
    split at splitOk
    · cases splitOk
    · split at splitOk
      · cases splitOk
      · rename_i stored
        rcases why with ne | ⟨img, ha, unspellable⟩
        · exact stored ne
        · obtain ⟨reason, found⟩ := Option.isSome_iff_exists.mp unspellable
          rw [ha, Option.bind_some, found] at splitOk
          cases splitOk

/-- A window folds only when it holds no event the fold refuses. -/
theorem notRefused_of_foldPages_ok (ok : foldPages codec schema table none opts pages = .ok res) :
    ∀ ev ∈ pages.flatten, ¬ Refused codec ev := by
  intro ev member refused
  obtain ⟨page, inPages, inPage⟩ := mem_flatten.mp member
  obtain ⟨s, s', pageOk⟩ := exists_step_of_foldlM_ok ok inPages
  obtain ⟨r, r', eventOk⟩ := exists_step_of_foldlM_ok pageOk inPage
  exact foldEvent_refused refused schema table opts r r' eventOk

/-- The change map of captured events is keyed, whatever their order. -/
theorem imagesKeyed_foldl {evs : List (ResultRow Row)}
    (captured : ∀ ev ∈ evs, Captured codec ev) (notRefused : ∀ ev ∈ evs, ¬ Refused codec ev) :
    ImagesKeyed codec
      ((filedChanges codec evs).foldl (keepLater ResultRow.pkValues laterInBinlog) ∅) := by
  have filedKeyed : ∀ w ∈ filedChanges codec evs, ImageKeyed codec w := by
    intro w member
    unfold filedChanges at member
    obtain ⟨w', inFlat, rfl⟩ := mem_map.mp member
    obtain ⟨ev, inEvs, inFiled⟩ := mem_flatMap.mp inFlat
    exact ((captured ev inEvs).imageKeyed_filed (notRefused ev inEvs) w' inFiled).retainEvent
  intro k w held
  obtain ⟨own, inChanges⟩ := lookup_foldl_keepLater held
  exact ⟨own, filedKeyed w inChanges⟩

/-! ## System-versioned tables -/

/-- The event a fold sees in place of `ev`, `none` where the normalizer drops
it or refuses it. -/
def normalized (sv : Option (Normalizer Row)) (ev : ResultRow Row) : Option (ResultRow Row) :=
  match sv with
  | none => some ev
  | some normalize => (normalize ev).toOption.join

/-- A page that folds under a normalizer folds to the same result as its
normalized events. -/
theorem foldPage_normalized {res' : FoldResult Row}
    (ok : foldPage codec schema table sv opts res page = .ok res') :
    foldPage codec schema table none opts res (page.filterMap (normalized sv)) = .ok res' := by
  cases sv with
  | none =>
    have same : page.filterMap (normalized none) = page := filterMap_some
    rwa [same]
  | some normalize =>
    induction page generalizing res with
    | nil => exact ok
    | cons ev rest ih =>
      unfold foldPage at ok
      rw [foldlM_cons] at ok
      obtain ⟨mid, midOk, ok⟩ := Except.bind_eq_ok ok
      dsimp only at midOk
      cases norm : normalize ev with
      | error msg =>
        rw [norm] at midOk
        cases midOk
      | ok ev' =>
        rw [norm] at midOk
        cases ev' with
        | none =>
          cases midOk
          have dropped : normalized (some normalize) ev = none := by
            simp [normalized, norm, Except.toOption]
          rw [filterMap_cons_none dropped]
          exact ih ok
        | some ev' =>
          have seen : normalized (some normalize) ev = some ev' := by
            simp [normalized, norm, Except.toOption]
          rw [filterMap_cons_some seen]
          unfold foldPage
          rw [foldlM_cons]
          dsimp only at midOk ⊢
          rw [midOk]
          exact ih ok

theorem foldPages_normalized (ok : foldPages codec schema table sv opts pages = .ok res) :
    foldPages codec schema table none opts
      (pages.map (List.filterMap (normalized sv))) = .ok res := by
  unfold foldPages at ok ⊢
  generalize ({} : FoldResult Row) = start at ok ⊢
  induction pages generalizing start with
  | nil => exact ok
  | cons page rest ih =>
    rw [foldlM_cons] at ok
    obtain ⟨mid, midOk, ok⟩ := Except.bind_eq_ok ok
    rw [map_cons, foldlM_cons, foldPage_normalized midOk]
    exact ih mid ok

/-- What a window folds to is keyed, when the events it files are as captured. -/
theorem imagesKeyed_of_foldPages (mysql : opts.pg = false)
    (ok : foldPages codec schema table sv opts pages = .ok res)
    (captured : ∀ ev ∈ pages.flatten, ∀ ev', normalized sv ev = some ev' → Captured codec ev') :
    ImagesKeyed codec res.changes := by
  have ok' := foldPages_normalized ok
  have flat : (pages.map (filterMap (normalized sv))).flatten =
      pages.flatten.filterMap (normalized sv) := by
    rw [filterMap_flatten]
  have captured' : ∀ ev' ∈ (pages.map (filterMap (normalized sv))).flatten,
      Captured codec ev' := by
    intro ev' member
    rw [flat] at member
    obtain ⟨ev, inPages, norm⟩ := mem_filterMap.mp member
    exact captured ev inPages ev' norm
  obtain ⟨res', foldOk, changes⟩ := foldPages_ok schema table opts mysql captured'
    (notRefused_of_foldPages_ok ok')
  rw [ok'] at foldOk
  cases foldOk
  rw [changes]
  exact imagesKeyed_foldl captured' (notRefused_of_foldPages_ok ok')

/-! ## A table keyed by one text column -/

/-- The value of a text key in a decoded image. The indexer promotes a text that
looks like a JSON list, and the image then holds the list. -/
inductive TextKey : Type
  | text (s : String)
  | jsonList (items : List String)
  deriving DecidableEq, Repr

/-- `formatPKValue`: a list prints with blanks between its items. -/
def TextKey.format : TextKey → String
  | .text s => s
  | .jsonList items => "[" ++ " ".intercalate items ++ "]"

/-- The text the column holds. -/
def TextKey.stored : TextKey → String
  | .text s => s
  | .jsonList items => "[" ++ ",".intercalate items ++ "]"

/-- Rows of a text key and a value. -/
def textKeyCodec : KeyCodec (TextKey × String) where
  buildPKValues := fun r => r.1.format
  canonicalizePKMap := fun r => .ok (.text r.1.stored, r.2)
  altFixedBinaryPK := fun _ => none
  pkKeyUnspellable := fun r =>
    match r.1 with
    | .text _ => none
    | .jsonList _ => some ("id", "a JSON value")
  unresolvedToastColumns := fun _ => []
  columns := fun _ => ["id", "v"]
  alt_fresh := by
    intro r m alt r' m' _ isAlt
    cases isAlt

/-- An indexed event with the fields the fold reads. -/
def indexedEvent (id startPos : ℕ) (type : EventType) (pk : String)
    (before after : Option Row) : ResultRow Row where
  eventID := id
  binlogFile := "mysql-bin.000001"
  startPos := startPos
  endPos := startPos + 40
  eventTimestamp := 0
  eventType := type
  pkValues := pk
  rowBefore := before
  rowAfter := after

end Dbtrail
