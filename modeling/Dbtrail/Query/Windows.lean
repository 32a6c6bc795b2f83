import Dbtrail.Query.Fetch

/-!
# Consecutive windows

A window of the log is asked for with two positions: its events start at or after the first
and end at or before the second. The next window starts where the last one ended.

`windows_partition_iff` says when two consecutive windows are their union's rows, each once:
when no row of the whole window in the middle position's file lies across it, and none lies
on both sides of it. `selects_iff_atOrBefore` is the two predicates in terms of
`BinlogPos.atOrBefore`.
-/

namespace Dbtrail

open QueryOptions

variable {Row : Type} {p q pos : BinlogPos} {r : ResultRow Row}

/-- A binary log's file name: ASCII, without a slash. -/
structure BinlogName (file : String) : Prop where
  noSlash : file.toList.contains '/' = false
  ascii : AsciiName file

/-- The rows of a window. -/
def QueryOptions.window (opts : QueryOptions Row) (since last : BinlogPos) : QueryOptions Row :=
  { opts with sincePos := some since, untilPos := some last }

/-- Where the event ends in the binary log. -/
def ResultRow.endCoord (r : ResultRow Row) : BinlogPos := ⟨r.binlogFile, r.endPos⟩

/-! ## Positions -/

theorem BinlogName.atOrBefore_iff (hp : BinlogName p.file) (hq : BinlogName q.file) :
    p.atOrBefore q = true ↔ fileBefore p.file q.file = true ∨ p.file = q.file ∧ p.pos ≤ q.pos :=
  BinlogPos.atOrBefore_iff_file hp.noSlash hq.noSlash hp.ascii hq.ascii

/-- The two predicates on a row are the order of positions. -/
theorem selects_iff_atOrBefore (named : BinlogName pos.file) (rowNamed : BinlogName r.binlogFile) :
    (selectsSincePos pos r = true ↔ pos.atOrBefore r.startCoord = true) ∧
      (selectsUntilPos pos r = true ↔ r.endCoord.atOrBefore pos = true) := by
  rw [selectsSincePos_iff named.noSlash, selectsUntilPos_iff named.noSlash,
    named.atOrBefore_iff rowNamed,
    rowNamed.atOrBefore_iff (p := r.endCoord) named]
  exact ⟨by rw [eq_comm (a := r.binlogFile)]; rfl, Iff.rfl⟩

/-- A later lower bound selects less. -/
theorem selectsSincePos_mono (hp : BinlogName p.file) (hq : BinlogName q.file)
    (le : p.atOrBefore q = true) (selected : selectsSincePos q r = true) :
    selectsSincePos p r = true := by
  rw [selectsSincePos_iff hq.noSlash] at selected
  rw [selectsSincePos_iff hp.noSlash]
  rcases (hp.atOrBefore_iff hq).mp le with earlier | ⟨same, le⟩
  · rcases selected with later | ⟨file, -⟩
    · exact .inl (fileBefore_trans earlier later)
    · exact .inl (file ▸ earlier)
  · rw [same]
    exact selected.imp_right fun ⟨file, start⟩ => ⟨file, le.trans start⟩

/-- An earlier upper bound selects less. -/
theorem selectsUntilPos_mono (hp : BinlogName p.file) (hq : BinlogName q.file)
    (le : p.atOrBefore q = true) (selected : selectsUntilPos p r = true) :
    selectsUntilPos q r = true := by
  rw [selectsUntilPos_iff hp.noSlash] at selected
  rw [selectsUntilPos_iff hq.noSlash]
  rcases (hp.atOrBefore_iff hq).mp le with earlier | ⟨same, le⟩
  · rcases selected with before | ⟨file, -⟩
    · exact .inl (fileBefore_trans before earlier)
    · exact .inl (file ▸ earlier)
  · rw [← same]
    exact selected.imp_right fun ⟨file, stop⟩ => ⟨file, stop.trans le⟩

/-- In another file a row is on one side of a position. -/
theorem selects_xor_of_ne (named : BinlogName pos.file) (other : r.binlogFile ≠ pos.file) :
    Xor (selectsUntilPos pos r = true) (selectsSincePos pos r = true) := by
  rw [selectsSincePos_iff named.noSlash, selectsUntilPos_iff named.noSlash]
  rcases fileBefore_trichotomy r.binlogFile pos.file with before | same | after
  · refine .inl ⟨.inl before, ?_⟩
    rintro (after | ⟨same, -⟩)
    · rw [(fileBefore_asymm before).1] at after
      cases after
    · exact other same
  · exact absurd same other
  · refine .inr ⟨.inl after, ?_⟩
    rintro (before | ⟨same, -⟩)
    · rw [(fileBefore_asymm after).1] at before
      cases before
    · exact other same

/-- In the position's own file it is a matter of the row's extent. -/
theorem selects_iff_of_eq (named : BinlogName pos.file) (same : r.binlogFile = pos.file) :
    (selectsUntilPos pos r = true ↔ r.endPos ≤ pos.pos) ∧
      (selectsSincePos pos r = true ↔ pos.pos ≤ r.startPos) := by
  rw [selectsSincePos_iff named.noSlash, selectsUntilPos_iff named.noSlash, same, fileBefore_irrefl]
  simp

/-! ## Windows -/

/-- The rest of the options is the same in every window. -/
theorem selects_window (opts : QueryOptions Row) (since last : BinlogPos) (r : ResultRow Row) :
    (opts.window since last).selects r = true ↔
      (opts.window ⟨"", 0⟩ ⟨"", 0⟩).selectsSince r = true ∧
        ({ opts with sincePos := none, untilPos := none, since := none } :
          QueryOptions Row).selects r = true ∧
        selectsSincePos since r = true ∧ selectsUntilPos last r = true := by
  simp only [selects, window, selectsPK, selectsSince, selectsUntil, Option.all_some,
    Option.all_none, Bool.and_eq_true, Option.isSome_some]
  tauto

/-- Two parts of a whole, in terms of what tells them apart. -/
private theorem parts_iff_xor {base rest sinceP sinceQ untilQ untilR : Prop}
    (since : sinceQ → sinceP) (upTo : untilQ → untilR) :
    (((base ∧ rest ∧ sinceP ∧ untilR ↔
          (base ∧ rest ∧ sinceP ∧ untilQ) ∨ base ∧ rest ∧ sinceQ ∧ untilR) ∧
        ¬((base ∧ rest ∧ sinceP ∧ untilQ) ∧ base ∧ rest ∧ sinceQ ∧ untilR)) ↔
      (base ∧ rest ∧ sinceP ∧ untilR → Xor untilQ sinceQ)) := by
  constructor
  · rintro ⟨whole, apart⟩ ⟨hBase, hRest, hSince, hUntil⟩
    rcases whole.mp ⟨hBase, hRest, hSince, hUntil⟩ with ⟨-, -, -, left⟩ | ⟨-, -, right, -⟩
    · exact .inl ⟨left, fun right =>
        apart ⟨⟨hBase, hRest, hSince, left⟩, hBase, hRest, right, hUntil⟩⟩
    · exact .inr ⟨right, fun left =>
        apart ⟨⟨hBase, hRest, hSince, left⟩, hBase, hRest, right, hUntil⟩⟩
  · intro side
    refine ⟨⟨?_, ?_⟩, ?_⟩
    · rintro ⟨hBase, hRest, hSince, hUntil⟩
      rcases side ⟨hBase, hRest, hSince, hUntil⟩ with ⟨left, -⟩ | ⟨right, -⟩
      · exact .inl ⟨hBase, hRest, hSince, left⟩
      · exact .inr ⟨hBase, hRest, right, hUntil⟩
    · rintro (⟨hBase, hRest, hSince, left⟩ | ⟨hBase, hRest, right, hUntil⟩)
      · exact ⟨hBase, hRest, hSince, upTo left⟩
      · exact ⟨hBase, hRest, since right, hUntil⟩
    · rintro ⟨⟨hBase, hRest, hSince, left⟩, -, -, right, hUntil⟩
      rcases side ⟨hBase, hRest, hSince, hUntil⟩ with ⟨-, notRight⟩ | ⟨-, notLeft⟩
      · exact notRight right
      · exact notLeft left

/-- For positions `p`, `q`, `r` in binlog order, each row of the window from `p` to `r` is in
exactly one of the windows from `p` to `q` and from `q` to `r`, and they have no other row,
exactly when in the file of `q` every row of the whole window either ends at or before `q` or
starts at or after it, and not both. The predicates agree with `atOrBefore` on every row. -/
theorem windows_partition_iff (opts : QueryOptions Row) {p q r : BinlogPos}
    (hp : BinlogName p.file) (hq : BinlogName q.file) (hr : BinlogName r.file)
    (pq : p.atOrBefore q = true) (qr : q.atOrBefore r = true) (rows : List (ResultRow Row))
    (named : ∀ e ∈ rows, BinlogName e.binlogFile) :
    ((∀ e ∈ rows, ((opts.window p r).selects e = true ↔
          (opts.window p q).selects e = true ∨ (opts.window q r).selects e = true) ∧
        ¬((opts.window p q).selects e = true ∧ (opts.window q r).selects e = true)) ↔
      ∀ e ∈ rows, (opts.window p r).selects e = true → e.binlogFile = q.file →
        Xor (e.endPos ≤ q.pos) (q.pos ≤ e.startPos)) ∧
    ∀ e ∈ rows, ∀ pos, BinlogName pos.file →
      (selectsSincePos pos e = true ↔ pos.atOrBefore e.startCoord = true) ∧
        (selectsUntilPos pos e = true ↔ e.endCoord.atOrBefore pos = true) := by
  refine ⟨forall₂_congr fun e member => ?_, fun e member pos posNamed =>
    selects_iff_atOrBefore posNamed (named e member)⟩
  have since := selectsSincePos_mono hp hq pq (r := e)
  have upTo := selectsUntilPos_mono hq hr qr (r := e)
  have extent : (e.binlogFile = q.file → Xor (e.endPos ≤ q.pos) (q.pos ≤ e.startPos)) ↔
      Xor (selectsUntilPos q e = true) (selectsSincePos q e = true) := by
    by_cases same : e.binlogFile = q.file
    · obtain ⟨untilIff, sinceIff⟩ := selects_iff_of_eq hq same
      rw [untilIff, sinceIff]
      exact ⟨fun h => h same, fun h _ => h⟩
    · exact ⟨fun _ => selects_xor_of_ne hq same, fun _ file => absurd file same⟩
  rw [extent, selects_window, selects_window, selects_window]
  exact parts_iff_xor since upTo

section Spanning

/-- One event at bytes 100 to 200. -/
def spanningEvent : ResultRow Unit :=
  { eventID := 1, binlogFile := "b.1", startPos := 100, endPos := 200, eventTimestamp := 0
    eventType := .insert, pkValues := "1" }

/-- A cut at 150 leaves the event to neither window. -/
theorem spanningEvent_lost :
    (({} : QueryOptions Unit).window ⟨"b.1", 4⟩ ⟨"b.1", 300⟩).selects spanningEvent = true ∧
      (({} : QueryOptions Unit).window ⟨"b.1", 4⟩ ⟨"b.1", 150⟩).selects spanningEvent = false ∧
      (({} : QueryOptions Unit).window ⟨"b.1", 150⟩ ⟨"b.1", 300⟩).selects spanningEvent = false :=
  ⟨by decide, by decide, by decide⟩

theorem BinlogName.of_plain {file : String}
    (plain : file.toList.contains '/' = false ∧ AsciiName file) : BinlogName file :=
  ⟨plain.1, plain.2⟩

/-- A cut at 200, where the event ends, leaves it to the first window, across a file name that
grows by a digit. -/
theorem spanningEvent_first :
    (({} : QueryOptions Unit).window ⟨"b.1", 4⟩ ⟨"b.1", 200⟩).selects spanningEvent = true ∧
      ¬(({} : QueryOptions Unit).window ⟨"b.1", 200⟩ ⟨"b.10", 4⟩).selects spanningEvent = true := by
  have parts := (windows_partition_iff ({} : QueryOptions Unit) (p := ⟨"b.1", 4⟩)
    (q := ⟨"b.1", 200⟩) (r := ⟨"b.10", 4⟩) (BinlogName.of_plain (by decide))
    (BinlogName.of_plain (by decide)) (BinlogName.of_plain (by decide)) (by decide) (by decide)
    [spanningEvent]
    (List.forall_mem_singleton.mpr (BinlogName.of_plain (by decide)))).1.mpr
  obtain ⟨whole, apart⟩ := parts (fun e member _ _ => List.mem_singleton.mp member ▸
    .inl ⟨by decide, by decide⟩) spanningEvent (List.mem_singleton_self _)
  have first : (({} : QueryOptions Unit).window ⟨"b.1", 4⟩ ⟨"b.1", 200⟩).selects spanningEvent =
      true := by decide
  exact ⟨first, fun second => apart ⟨first, second⟩⟩

end Spanning

end Dbtrail
