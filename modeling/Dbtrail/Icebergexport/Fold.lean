import Dbtrail.Reconstruct.Replay

/-!
# The Iceberg export's fold

The export folds a window with a fold of its own: a delete file needs the key
columns of a DELETE as its before-image holds them, and the fold of the
full-table reconstruct trims before-images away. `addPages` is that fold, one
`NetOp` per touched key, and `exportDelta` what a commit of its ops does to the
exported table: the key of every op is deleted, the row of every op that has one
is written.

`exportDelta_perm_merge`: whatever the arrival orders and the page splits of the
two folds, the exported table holds the rows of the reconstructed one.
-/

namespace Dbtrail

open List ResultRow

variable {Row κ : Type}

/-- The key columns of a row image as the delete file carries them (`pkImage`).
An image that has a key text has them, and they tell rows apart as the key text
does. -/
structure ExportKey (codec : KeyCodec Row) (κ : Type) : Type where
  pkImage : Row → Except String κ
  present : ∀ r k, codec.keyOf r = some k → ∃ v, pkImage r = .ok v
  same_iff : ∀ r r' k k' v v', codec.keyOf r = some k → codec.keyOf r' = some k' →
    pkImage r = .ok v → pkImage r' = .ok v' → (v = v' ↔ k = k')

/-- The net effect of a window on one key: the row at the cut, or nothing. -/
structure NetOp (Row κ : Type) : Type where
  pk : κ
  row : Option Row
  coord : ResultRow Row

inductive ExportError : Type
  | fold (err : FoldError)
  | noAfterImage (eventID : ℕ) (type : EventType) (schema table pk : String)
  | noBeforeImage (eventID : ℕ) (schema table pk : String)
  | pkImage (eventID : ℕ) (schema table msg : String)
  | eventType (eventID : ℕ) (schema table pk : String) (type : EventType)
  deriving DecidableEq, Repr

/-- One op per touched key, in first-touched order. -/
structure ExportFold (Row κ : Type) : Type where
  ops : AList fun _ : String => NetOp Row κ := ∅
  order : List String := []
  events : ℕ := 0

section Fold

variable (codec : KeyCodec Row) (keys : ExportKey codec κ) (schema table : String)

/-- Where an event starts in the binary log, with nothing else of it. -/
def coordOf (ev : ResultRow Row) : ResultRow Row where
  eventID := ev.eventID
  binlogFile := ev.binlogFile
  startPos := ev.startPos
  endPos := 0
  eventTimestamp := 0
  eventType := .insert
  pkValues := ""

/-- The op of one event. -/
def netOp (ev : ResultRow Row) : Except ExportError (NetOp Row κ) :=
  match ev.eventType with
  | .insert | .update =>
      match ev.rowAfter with
      | none => .error (.noAfterImage ev.eventID ev.eventType schema table ev.pkValues)
      | some row =>
          match keys.pkImage row with
          | .error msg => .error (.pkImage ev.eventID schema table msg)
          | .ok pk => .ok { pk := pk, row := some row, coord := coordOf ev }
  | .delete =>
      match ev.rowBefore with
      | none => .error (.noBeforeImage ev.eventID schema table ev.pkValues)
      | some before =>
          match keys.pkImage before with
          | .error msg => .error (.pkImage ev.eventID schema table msg)
          | .ok pk => .ok { pk := pk, row := none, coord := coordOf ev }
  -- not skippable: a skipped event is a silently wrong table
  | type => .error (.eventType ev.eventID schema table ev.pkValues type)

/-- File one event's net effect unless the fold holds a later change of the key. -/
def ExportFold.apply (f : ExportFold Row κ) (ev : ResultRow Row) :
    Except ExportError (ExportFold Row κ) := do
  let op ← netOp codec keys schema table ev
  match f.ops.lookup ev.pkValues with
  | none =>
      return { f with order := f.order ++ [ev.pkValues], ops := f.ops.insert ev.pkValues op }
  | some cur =>
      if laterInBinlog cur.coord op.coord then return f
      else return { f with ops := f.ops.insert ev.pkValues op }

/-- One event of `addPage`. A key change counts once. -/
def ExportFold.addEvent (pg : Bool) (f : ExportFold Row κ) (ev : ResultRow Row) :
    Except ExportError (ExportFold Row κ) := do
  (checkEventToast codec ev).mapError .fold
  let halves ← (splitPKChange codec ev schema table pg).mapError .fold
  let f := { f with events := f.events + 1 }
  match halves with
  | none => f.apply codec keys schema table ev
  | some halves => halves.foldlM (ExportFold.apply codec keys schema table) f

def ExportFold.addPage (pg : Bool) (f : ExportFold Row κ) (page : List (ResultRow Row)) :
    Except ExportError (ExportFold Row κ) :=
  page.foldlM (ExportFold.addEvent codec keys schema table pg) f

/-- The pages of a window, in the order the stream delivers them. -/
def addPages (pg : Bool) (pages : List (List (ResultRow Row))) :
    Except ExportError (ExportFold Row κ) :=
  pages.foldlM (ExportFold.addPage codec keys schema table pg) {}

end Fold

/-- The ops in first-touched order. -/
def ExportFold.touched (f : ExportFold Row κ) : List (NetOp Row κ) :=
  f.order.filterMap f.ops.lookup

/-- A commit: the equality deletes reach the rows committed before, not the rows
written beside them. -/
def exportDelta [DecidableEq κ] {codec : KeyCodec Row} (keys : ExportKey codec κ)
    (prev : List Row) (ops : List (NetOp Row κ)) : List Row :=
  (prev.filter fun r => !(keys.pkImage r).toOption.any fun v => (ops.map NetOp.pk).contains v) ++
    ops.filterMap NetOp.row

/-! ## The ops are the change map's entries -/

section Simulation

variable {codec : KeyCodec Row}

/-- An event `apply` files: its image spells the key it is filed under. -/
def Fileable (codec : KeyCodec Row) (w : ResultRow Row) : Prop :=
  match w.eventType with
  | .insert | .update => ∃ after, w.rowAfter = some after ∧ codec.keyOf after = some w.pkValues
  | .delete => ∃ before, w.rowBefore = some before ∧ codec.keyOf before = some w.pkValues
  | _ => False

theorem Captured.fileable_filed {ev : ResultRow Row} (captured : Captured codec ev)
    (notRefused : ¬ Refused codec ev) : ∀ w ∈ filed codec ev, Fileable codec w := by
  intro w member
  have keyed := captured.imageKeyed_filed notRefused w member
  unfold ImageKeyed at keyed
  unfold Fileable
  cases type : w.eventType with
  | insert | update =>
    rw [type] at keyed
    exact keyed
  | delete =>
    -- the old image is the event's own, split or not
    have before : ∃ before, ev.rowBefore = some before ∧
        codec.canonicalPK before = .ok ev.pkValues ∧ w.rowBefore = ev.rowBefore ∧
          w.pkValues = ev.pkValues := by
      unfold Captured at captured
      unfold filed at member
      cases changed : pkChangedInEvent codec ev with
      | none =>
        rw [changed, mem_singleton] at member
        subst member
        rw [type] at captured
        obtain ⟨before, hb, spelled⟩ := captured
        exact ⟨before, hb, spelled, rfl, rfl⟩
      | some pair =>
        rw [changed] at member
        rw [(pkChangedInEvent_eq_some changed).1] at captured
        obtain ⟨before, -, -, hb, -, spelled, -⟩ := captured
        simp only [mem_cons, not_mem_nil, or_false] at member
        rcases member with rfl | rfl
        · exact ⟨before, hb, spelled, rfl, rfl⟩
        · cases type
    obtain ⟨before, hb, spelled, sameImage, sameKey⟩ := before
    refine ⟨before, sameImage.trans hb, ?_⟩
    rw [sameKey]
    exact KeyCodec.keyOf_of_canonicalPK spelled
  | _ =>
    rw [type] at keyed
    exact keyed

/-- What an op keeps of the change it stands for. -/
structure OpOf (keys : ExportKey codec κ) (w : ResultRow Row) (op : NetOp Row κ) : Prop where
  row : op.row = w.image
  coord : op.coord = coordOf w
  pk : ∃ r, codec.keyOf r = some w.pkValues ∧ keys.pkImage r = .ok op.pk

/-- The export's fold holds an op for each entry of the change map, and each key
once in its order. -/
structure OpsMatch (keys : ExportKey codec κ) (f : ExportFold Row κ) (changes : ChangeMap Row) :
    Prop where
  entries : ∀ k, Option.Rel (OpOf keys) (changes.lookup k) (f.ops.lookup k)
  own : ∀ k w, changes.lookup k = some w → w.pkValues = k
  nodup : f.order.Nodup
  mem_order : ∀ k, k ∈ f.order ↔ f.ops.lookup k ≠ none

variable {keys : ExportKey codec κ} {schema table : String} {changes : ChangeMap Row}
  {f : ExportFold Row κ}

theorem netOp_ok (keys : ExportKey codec κ) (schema table : String) {w : ResultRow Row}
    (fileable : Fileable codec w) :
    ∃ op, netOp codec keys schema table w = .ok op ∧ OpOf keys (retainEvent w) op := by
  unfold Fileable at fileable
  unfold netOp
  cases type : w.eventType with
  | insert | update =>
    rw [type] at fileable
    obtain ⟨after, ha, hk⟩ := fileable
    obtain ⟨v, hv⟩ := keys.present after _ hk
    rw [ha]
    dsimp only
    rw [hv]
    refine ⟨_, rfl, ?_, rfl, after, hk, hv⟩
    simp [image, retainEvent, type, ha]
  | delete =>
    rw [type] at fileable
    obtain ⟨before, hb, hk⟩ := fileable
    obtain ⟨v, hv⟩ := keys.present before _ hk
    rw [hb]
    dsimp only
    rw [hv]
    refine ⟨_, rfl, ?_, rfl, before, hk, hv⟩
    simp [image, retainEvent, type]
  | _ =>
    rw [type] at fileable
    exact fileable.elim

theorem laterInBinlog_coordOf (a b : ResultRow Row) :
    laterInBinlog (coordOf a) (coordOf b) = laterInBinlog a b := rfl

theorem OpsMatch.empty : OpsMatch keys ({} : ExportFold Row κ) ∅ where
  entries k := by
    rw [AList.lookup_empty, AList.lookup_empty]
    exact .none
  own k w held := by
    rw [AList.lookup_empty] at held
    cases held
  nodup := nodup_nil
  mem_order k := by
    rw [AList.lookup_empty]
    simp

/-- A key is in neither map, or its op stands for its entry. -/
theorem OpsMatch.lookup_cases (same : OpsMatch keys f changes) (k : String) :
    f.ops.lookup k = none ∧ changes.lookup k = none ∨
      ∃ op w, f.ops.lookup k = some op ∧ changes.lookup k = some w ∧ w.pkValues = k ∧
        OpOf keys w op := by
  have entry := same.entries k
  have own := same.own k
  revert entry own
  generalize changes.lookup k = entry
  generalize f.ops.lookup k = held
  intro rel own
  cases rel with
  | none => exact Or.inl ⟨rfl, rfl⟩
  | some opOf => exact Or.inr ⟨_, _, rfl, rfl, own _ rfl, opOf⟩

theorem OpsMatch.own_keepLater (same : OpsMatch keys f changes) (w : ResultRow Row) :
    ∀ k w', (keepLater pkValues laterInBinlog changes w).lookup k = some w' →
      w'.pkValues = k := by
  intro k w' held
  rcases lookup_keepLater_cases held with ⟨key, rfl⟩ | before
  · exact key.symm
  · exact same.own k w' before

/-- One filed event, beside the entry the change map files for it. -/
theorem ExportFold.apply_ok (same : OpsMatch keys f changes) {w : ResultRow Row}
    (fileable : Fileable codec w) :
    ∃ f', f.apply codec keys schema table w = .ok f' ∧
      OpsMatch keys f' (keepLater pkValues laterInBinlog changes (retainEvent w)) := by
  obtain ⟨op, opOk, opOf⟩ := netOp_ok keys schema table fileable
  have key : (retainEvent w).pkValues = w.pkValues := rfl
  -- filing the op on one side and the trimmed event on the other
  have filedBoth : ∀ m : ChangeMap Row,
      (∀ k, m.lookup k = if k = w.pkValues then some (retainEvent w) else changes.lookup k) →
      ∀ k, Option.Rel (OpOf keys) (m.lookup k) ((f.ops.insert w.pkValues op).lookup k) := by
    intro m lookup k
    rw [lookup]
    by_cases here : k = w.pkValues
    · rw [if_pos here, here, AList.lookup_insert]
      exact .some opOf
    · rw [if_neg here, AList.lookup_insert_ne here]
      exact same.entries k
  have inserted : ∀ k, (changes.insert w.pkValues (retainEvent w)).lookup k =
      if k = w.pkValues then some (retainEvent w) else changes.lookup k := by
    intro k
    by_cases here : k = w.pkValues
    · rw [if_pos here, here, AList.lookup_insert]
    · rw [if_neg here, AList.lookup_insert_ne here]
  have own := same.own_keepLater (retainEvent w)
  unfold ExportFold.apply
  rw [opOk]
  simp only [bind, Except.bind]
  rcases same.lookup_cases w.pkValues with ⟨held, before⟩ | ⟨cur, cw, held, before, -, curOf⟩
  · rw [held]
    refine ⟨_, rfl, ?_, own, ?_, fun k => ?_⟩
    · unfold keepLater
      rw [key, before]
      exact filedBoth _ inserted
    · rw [nodup_append]
      refine ⟨same.nodup, nodup_singleton _, ?_⟩
      rintro k inOrder k' inNew rfl
      rw [mem_singleton.mp inNew, same.mem_order] at inOrder
      exact inOrder held
    · rw [mem_append, mem_singleton, same.mem_order]
      by_cases here : k = w.pkValues
      · rw [here, AList.lookup_insert]
        simp
      · rw [AList.lookup_insert_ne here]
        simp [here]
  · have later : laterInBinlog cur.coord op.coord = laterInBinlog cw (retainEvent w) := by
      rw [curOf.coord, opOf.coord, laterInBinlog_coordOf]
    rw [held]
    dsimp only
    rw [later]
    split
    · rename_i isLater
      refine ⟨_, rfl, ?_, own, same.nodup, same.mem_order⟩
      unfold keepLater
      rw [key, before]
      simp only [isLater, if_true]
      exact same.entries
    · rename_i notLater
      refine ⟨_, rfl, ?_, own, same.nodup, fun k => ?_⟩
      · unfold keepLater
        rw [key, before]
        simp only [notLater]
        exact filedBoth _ inserted
      · rw [same.mem_order]
        by_cases here : k = w.pkValues
        · rw [here, AList.lookup_insert, held]
          simp
        · rw [AList.lookup_insert_ne here]

theorem foldlM_apply_ok (schema table : String) {ws : List (ResultRow Row)}
    (fileable : ∀ w ∈ ws, Fileable codec w) (same : OpsMatch keys f changes) :
    ∃ f', ws.foldlM (ExportFold.apply codec keys schema table) f = .ok f' ∧
      OpsMatch keys f' ((ws.map retainEvent).foldl
        (keepLater pkValues laterInBinlog) changes) := by
  induction ws generalizing f changes with
  | nil => exact ⟨f, rfl, same⟩
  | cons w rest ih =>
    obtain ⟨mid, midOk, midSame⟩ := ExportFold.apply_ok same (fileable w (by simp))
    obtain ⟨f', ok, same'⟩ := ih (fun w' member => fileable w' (by simp [member])) midSame
    refine ⟨f', ?_, same'⟩
    rw [foldlM_cons, midOk]
    exact ok

theorem ExportFold.addEvent_ok (schema table : String) (same : OpsMatch keys f changes)
    {ev : ResultRow Row} (captured : Captured codec ev) (notRefused : ¬ Refused codec ev) :
    ∃ f', f.addEvent codec keys schema table false ev = .ok f' ∧
      OpsMatch keys f' ((filedChanges codec [ev]).foldl
        (keepLater pkValues laterInBinlog) changes) := by
  have fileable := captured.fileable_filed notRefused
  have counted : OpsMatch keys { f with events := f.events + 1 } changes :=
    ⟨same.entries, same.own, same.nodup, same.mem_order⟩
  obtain ⟨f', ok, same'⟩ := foldlM_apply_ok schema table fileable counted
  have filedHere : filedChanges codec [ev] = (filed codec ev).map retainEvent := by
    simp [filedChanges]
  rw [filedHere]
  refine ⟨f', ?_, same'⟩
  unfold ExportFold.addEvent
  rw [checkEventToast_ok notRefused, splitPKChange_ok schema table captured notRefused]
  cases changed : pkChangedInEvent codec ev with
  | none =>
    have alone : filed codec ev = [ev] := by simp [filed, changed]
    rw [alone, foldlM_cons] at ok
    obtain ⟨last, applied, done⟩ := Except.bind_eq_ok ok
    cases done
    exact applied
  | some pair => exact ok

theorem foldlM_addEvent_ok {evs : List (ResultRow Row)} (captured : ∀ ev ∈ evs, Captured codec ev)
    (notRefused : ∀ ev ∈ evs, ¬ Refused codec ev) (same : OpsMatch keys f changes) :
    ∃ f', evs.foldlM (ExportFold.addEvent codec keys schema table false) f = .ok f' ∧
      OpsMatch keys f' ((filedChanges codec evs).foldl
        (keepLater pkValues laterInBinlog) changes) := by
  induction evs generalizing f changes with
  | nil => exact ⟨f, rfl, same⟩
  | cons ev rest ih =>
    obtain ⟨mid, midOk, midSame⟩ := ExportFold.addEvent_ok schema table
      same (captured ev (by simp)) (notRefused ev (by simp))
    obtain ⟨f', ok, same'⟩ := ih (fun ev' member => captured ev' (by simp [member]))
      (fun ev' member => notRefused ev' (by simp [member])) midSame
    refine ⟨f', ?_, ?_⟩
    · rw [foldlM_cons, midOk]
      exact ok
    · rw [← foldl_append] at same'
      simpa [filedChanges] using same'

/-- The pages of a window are folded as its events in a row. -/
theorem addPages_eq (pg : Bool) (pages : List (List (ResultRow Row))) :
    addPages codec keys schema table pg pages =
      pages.flatten.foldlM (ExportFold.addEvent codec keys schema table pg) {} := by
  unfold addPages
  generalize ({} : ExportFold Row κ) = start
  induction pages generalizing start with
  | nil => rfl
  | cons page rest ih =>
    rw [foldlM_cons, flatten_cons, foldlM_append]
    exact bind_congr ih

/-- A window the export folds holds no event the reconstruct fold refuses. -/
theorem notRefused_of_addPages_ok {pages : List (List (ResultRow Row))}
    (ok : addPages codec keys schema table false pages = .ok f) :
    ∀ ev ∈ pages.flatten, ¬ Refused codec ev := by
  intro ev member refused
  rw [addPages_eq] at ok
  obtain ⟨g, g', eventOk⟩ := exists_step_of_foldlM_ok ok member
  unfold ExportFold.addEvent at eventOk
  obtain ⟨⟨⟩, toast, eventOk⟩ := Except.bind_eq_ok eventOk
  obtain ⟨halves, split, -⟩ := Except.bind_eq_ok eventOk
  have toastOk : checkEventToast codec ev = .ok () := by
    cases checked : checkEventToast codec ev with
    | error err =>
      rw [checked] at toast
      cases toast
    | ok => rfl
  have splitOk : splitPKChange codec ev schema table false = .ok halves := by
    cases checked : splitPKChange codec ev schema table false with
    | error err =>
      rw [checked] at split
      cases split
    | ok found =>
      rw [checked] at split
      cases split
      rfl
  -- the two checks are all an event of the reconstruct fold can fail
  have folded : ∃ res, foldEvent codec schema table {} {} ev = .ok res := by
    unfold foldEvent
    rw [toastOk, splitOk]
    cases halves with
    | none | some => exact ⟨_, rfl⟩
  obtain ⟨res, foldOk⟩ := folded
  exact foldEvent_refused refused schema table {} {} res foldOk

/-! ## The exported table -/

theorem OpsMatch.lookup_iff (same : OpsMatch keys f changes) (k : String) :
    (∃ op, f.ops.lookup k = some op) ↔ changes.writes k ≠ none := by
  rcases same.lookup_cases k with ⟨held, found⟩ | ⟨op, w, held, found, -⟩
  · simp [held, ChangeMap.writes_of_lookup_none found]
  · simp [held, ChangeMap.writes_of_lookup found]

theorem OpsMatch.row_eq (same : OpsMatch keys f changes) (k : String) :
    (f.ops.lookup k).bind NetOp.row = (changes.writes k).join := by
  rcases same.lookup_cases k with ⟨held, found⟩ | ⟨op, w, held, found, -, opOf⟩
  · simp [held, ChangeMap.writes_of_lookup_none found]
  · simp [held, ChangeMap.writes_of_lookup found, opOf.row]

theorem mem_touched (same : OpsMatch keys f changes) {op : NetOp Row κ} :
    op ∈ f.touched ↔ ∃ k, f.ops.lookup k = some op := by
  unfold ExportFold.touched
  rw [mem_filterMap]
  constructor
  · rintro ⟨k, -, held⟩
    exact ⟨k, held⟩
  · rintro ⟨k, held⟩
    exact ⟨k, (same.mem_order k).mpr (by simp [held]), held⟩

variable [DecidableEq κ]

/-- The delete file reaches a row exactly when its key was touched. -/
theorem OpsMatch.deletes_iff (same : OpsMatch keys f changes) {r : Row} {k : String}
    (hk : codec.keyOf r = some k) :
    ((keys.pkImage r).toOption.any fun v => (f.touched.map NetOp.pk).contains v) = true ↔
      changes.writes k ≠ none := by
  obtain ⟨v, hv⟩ := keys.present r k hk
  have opOf : ∀ k' op, f.ops.lookup k' = some op →
      ∃ r', codec.keyOf r' = some k' ∧ keys.pkImage r' = .ok op.pk := by
    intro k' op held
    rcases same.lookup_cases k' with ⟨none, -⟩ | ⟨op', w, held', -, own, stands⟩
    · rw [held] at none
      cases none
    · rw [held] at held'
      cases held'
      rw [← own]
      exact stands.pk
  rw [hv, ← same.lookup_iff]
  simp only [Except.toOption, Option.any_some, contains_iff_mem, mem_map]
  constructor
  · rintro ⟨op, inTouched, eq⟩
    obtain ⟨k', held⟩ := (mem_touched same).mp inTouched
    obtain ⟨r', hk', hv'⟩ := opOf k' op held
    have sameKey := (keys.same_iff r r' k k' v op.pk hk hk' hv hv').mp eq.symm
    exact ⟨op, sameKey ▸ held⟩
  · rintro ⟨op, held⟩
    obtain ⟨r', hk', hv'⟩ := opOf k op held
    exact ⟨op, (mem_touched same).mpr ⟨k, held⟩,
      ((keys.same_iff r r' k k v op.pk hk hk' hv hv').mpr rfl).symm⟩

/-- A commit lays the change map over the exported table. -/
theorem OpsMatch.exportDelta_lists (same : OpsMatch keys f changes)
    (keyed : ImagesKeyed codec changes) {prev : List Row} {t : String → Option Row}
    (lists : Lists codec.keyOf prev t) :
    Lists codec.keyOf (exportDelta keys prev f.touched) (overlay changes.writes t) := by
  have added :
      f.touched.filterMap NetOp.row = f.order.filterMap fun k => (changes.writes k).join := by
    unfold ExportFold.touched
    rw [filterMap_filterMap]
    exact filterMap_congr fun k _ => same.row_eq k
  unfold exportDelta
  rw [added]
  refine lists.overlay_append filter_sublist (fun r member k hk => ?_) ?_
  · have reached := same.deletes_iff hk
    rw [mem_filter, Bool.not_eq_true', ← Bool.not_eq_true, reached, not_not]
    exact and_iff_right member
  · refine lists_filterMap same.nodup (fun k r hold => ?_) fun k r hold => ?_
    · exact keyed.keyOf_image (Option.join_eq_some_iff.mp hold)
    · rw [same.mem_order, ← Option.isSome_iff_ne_none, Option.isSome_iff_exists, same.lookup_iff,
        Option.join_eq_some_iff.mp hold]
      simp

end Simulation

/-- The export equals the reconstruct. Over the events of one window, in any two
arrival orders and page splits, the two folds refuse together; and deleting the
keys of the export's ops from the exported table and adding their rows gives the
rows of the reconstruct fold merged onto it. -/
theorem exportDelta_perm_merge [DecidableEq κ] (codec : KeyCodec Row) (keys : ExportKey codec κ)
    (schema table : String) {prev : List Row}
    (keyed : ∀ r ∈ prev, ∃ k, codec.keyOf r = some k) (distinct : (prev.map codec.keyOf).Nodup)
    {history : List (ResultRow Row)} (sorted : history.Pairwise fun a b => a.stamp ≤ b.stamp)
    (ids : (history.map eventID).Nodup)
    (coords : ∀ ev ∈ history, hasBinlogCoordinate ev = true)
    (captured : ∀ ev ∈ history, Captured codec ev)
    {pages pages' : List (List (ResultRow Row))} (arrival : pages.flatten.Perm history)
    (arrival' : pages'.flatten.Perm history) :
    ((∃ f, addPages codec keys schema table false pages = .ok f) ↔
      ∃ res, foldPages codec schema table none {} pages' = .ok res) ∧
    ∀ f res, addPages codec keys schema table false pages = .ok f →
      foldPages codec schema table none {} pages' = .ok res →
      ∃ out stats,
        mergeBaselineImages { codec := codec, schema := schema, table := table } prev
          res.changes = .ok (out, stats) ∧
        (exportDelta keys prev f.touched).Perm out := by
  have captured₁ : ∀ ev ∈ pages.flatten, Captured codec ev :=
    fun ev member => captured ev (arrival.mem_iff.mp member)
  have captured₂ : ∀ ev ∈ pages'.flatten, Captured codec ev :=
    fun ev member => captured ev (arrival'.mem_iff.mp member)
  have exports : (∀ ev ∈ history, ¬ Refused codec ev) →
      ∃ f, addPages codec keys schema table false pages = .ok f ∧
        OpsMatch keys f ((filedChanges codec pages.flatten).foldl
          (keepLater pkValues laterInBinlog) ∅) := by
    intro notRefused
    rw [addPages_eq]
    exact foldlM_addEvent_ok captured₁
      (fun ev member => notRefused ev (arrival.mem_iff.mp member)) OpsMatch.empty
  refine ⟨⟨?_, ?_⟩, ?_⟩
  · rintro ⟨f, ok⟩
    have notRefused := notRefused_of_addPages_ok ok
    obtain ⟨res, foldOk, -⟩ := foldPages_ok schema table {} rfl captured₂
      fun ev member => notRefused ev ((arrival.trans arrival'.symm).mem_iff.mpr member)
    exact ⟨res, foldOk⟩
  · rintro ⟨res, ok⟩
    have notRefused := notRefused_of_foldPages_ok ok
    obtain ⟨f, addOk, -⟩ := exports fun ev member => notRefused ev (arrival'.mem_iff.mpr member)
    exact ⟨f, addOk⟩
  · intro f res addOk foldOk
    obtain ⟨notRefused, out, stats, mergeOk, outLists⟩ := foldPages_merge_lists codec schema table
      keyed distinct sorted ids coords captured arrival' foldOk
    refine ⟨out, stats, mergeOk, ?_⟩
    obtain ⟨f', addOk', same⟩ := exports notRefused
    rw [addOk] at addOk'
    cases addOk'
    have exported := same.exportDelta_lists
      (imagesKeyed_foldl captured₁ fun ev member => notRefused ev (arrival.mem_iff.mp member))
      (lists_tableOf keyed distinct)
    rw [overlay_foldl_eq_replay (stamp_strict sorted ids) coords captured notRefused arrival]
      at exported
    exact exported.perm outLists

/-- The key column of a table keyed by one text column. -/
def textExportKey : ExportKey textKeyCodec String where
  pkImage r := .ok r.1.stored
  present r _ _ := ⟨r.1.stored, rfl⟩
  same_iff := by
    intro r r' k k' v v' hk hk' hv hv'
    cases hk
    cases hk'
    cases hv
    cases hv'
    rfl

/-- The two rows of a swap through a third key, exported from the events last to
first and reconstructed from two pages. -/
theorem swapHistory_exported : ∃ f res out stats,
    addPages textKeyCodec textExportKey "s" "t" false [swapHistory.reverse] = .ok f ∧
    foldPages textKeyCodec "s" "t" none {} swapPages = .ok res ∧
    mergeBaselineImages { codec := textKeyCodec, schema := "s", table := "t" }
      [(.text "1", "a"), (.text "2", "b")] res.changes = .ok (out, stats) ∧
    (exportDelta textExportKey [(.text "1", "a"), (.text "2", "b")] f.touched).Perm out ∧
    f.touched.length = 3 := by
  have arrival : [swapHistory.reverse].flatten.Perm swapHistory := by decide
  have arrival' : swapPages.flatten.Perm swapHistory := by decide
  have distinct : ([(.text "1", "a"), (.text "2", "b")].map textKeyCodec.keyOf).Nodup := by decide
  obtain ⟨-, same⟩ := exportDelta_perm_merge textKeyCodec textExportKey "s" "t"
    (fun r _ => ⟨r.1.stored, rfl⟩) distinct (by decide) (by decide) (by decide)
    swapHistory_captured arrival arrival'
  have exported : ∃ f, addPages textKeyCodec textExportKey "s" "t" false [swapHistory.reverse] =
      .ok f ∧ f.touched.length = 3 := ⟨_, rfl, rfl⟩
  have folded : ∃ res, foldPages textKeyCodec "s" "t" none {} swapPages = .ok res := ⟨_, rfl⟩
  obtain ⟨f, addOk, three⟩ := exported
  obtain ⟨res, foldOk⟩ := folded
  obtain ⟨out, stats, mergeOk, perm⟩ := same f res addOk foldOk
  exact ⟨f, res, out, stats, addOk, foldOk, mergeOk, perm, three⟩

end Dbtrail
