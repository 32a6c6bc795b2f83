import Dbtrail.Query.PositionFloor

/-!
# Windows of the binary log that hold nothing

A fold reads the events that start at or after its snapshot's position and end at or before
its cut. `windowEmptyByPosition` compares the two positions alone, so that a window without
room is not fetched at all.

`windowEmptyByPosition_sound` says that nothing is missed, for two positions of one kind and
events that end after they start. A PostgreSQL row starts and ends at its commit's LSN, so it
fits between two equal positions; and to an LSN and a binlog coordinate the order of positions
answers yes, which for a window means that it is left unread.
-/

namespace Dbtrail

variable {Row : Type}

def windowEmptyByPosition : Option BinlogPos → Option BinlogPos → Bool
  | some since, some untilPos => untilPos.atOrBefore since
  | _, _ => false

/-- The event is past the lower position and within the upper one, as the fetch compares
them. -/
def inPositionWindow (since untilPos : Option BinlogPos) (e : ResultRow Row) : Bool :=
  since.all (QueryOptions.selectsSincePos · e) && untilPos.all (QueryOptions.selectsUntilPos · e)

/-- Between two binlog coordinates of which the upper one is not the later. -/
theorem not_inPositionWindow_of_binlog {since untilPos : BinlogPos} {e : ResultRow Row}
    (sinceKind : since.isLSN = false) (untilKind : untilPos.isLSN = false)
    (sincePlain : AsciiName since.file) (untilPlain : AsciiName untilPos.file)
    (forward : e.startPos < e.endPos) (le : untilPos.atOrBefore since = true) :
    inPositionWindow (some since) (some untilPos) e = false := by
  rw [Bool.eq_false_iff]
  intro within
  simp only [inPositionWindow, Option.all_some, Bool.and_eq_true,
    QueryOptions.selectsSincePos_iff sinceKind, QueryOptions.selectsUntilPos_iff untilKind]
    at within
  have order := (BinlogPos.atOrBefore_iff_file untilKind sinceKind untilPlain sincePlain).mp le
  have never {a b : String} (ab : fileBefore a b = true) (ba : fileBefore b a = true) : False := by
    rw [(fileBefore_asymm ab).1] at ba
    cases ba
  obtain ⟨low, high⟩ := within
  rcases order with earlier | ⟨sameFile, noRoom⟩
  · rcases low with after | ⟨here, -⟩
    · rcases high with before | ⟨there, -⟩
      · exact never (fileBefore_trans after before) earlier
      · rw [there] at after
        exact never after earlier
    · rcases high with before | ⟨there, -⟩
      · rw [here] at before
        exact never before earlier
      · rw [← here, ← there] at earlier
        exact never earlier earlier
  · rw [sameFile] at high
    rcases low with after | ⟨here, startsAfter⟩
    · rcases high with before | ⟨there, -⟩
      · exact never after before
      · rw [there] at after
        exact never after after
    · rcases high with before | ⟨-, endsBefore⟩
      · rw [here] at before
        exact never before before
      · omega

/-- Between two LSNs of which the upper one is not the later. -/
theorem not_inPositionWindow_of_lsn {since untilPos : BinlogPos} {e : ResultRow Row}
    (sinceKind : since.isLSN = true) (untilKind : untilPos.isLSN = true)
    (forward : e.startPos < e.endPos) (le : untilPos.atOrBefore since = true) :
    inPositionWindow (some since) (some untilPos) e = false := by
  simp only [BinlogPos.atOrBefore, sinceKind, untilKind, Bool.and_self, if_true,
    decide_eq_true_eq] at le
  simp only [inPositionWindow, Option.all_some, QueryOptions.selectsSincePos, sinceKind, if_true,
    QueryOptions.selectsUntilPos, untilKind, Bool.and_eq_false_iff, decide_eq_false_iff_not]
  omega

/-- A window found empty holds no event: for any two positions of one kind, or one or both
absent, and any events that end after they start. So a fetch of it returns nothing. -/
theorem windowEmptyByPosition_sound {since untilPos : Option BinlogPos}
    (kind : ∀ s ∈ since, ∀ u ∈ untilPos, s.isLSN = u.isLSN)
    (sincePlain : ∀ s ∈ since, s.isLSN = false → AsciiName s.file)
    (untilPlain : ∀ u ∈ untilPos, u.isLSN = false → AsciiName u.file)
    {events : List (ResultRow Row)} (forward : ∀ e ∈ events, e.startPos < e.endPos)
    (empty : windowEmptyByPosition since untilPos = true) :
    (∀ e ∈ events, inPositionWindow since untilPos e = false) ∧
      ∀ (pkGroup : String → String) (opts : QueryOptions Row),
        opts.sincePos = since → opts.untilPos = untilPos →
          fetchRows pkGroup opts events = [] := by
  have none_ : ∀ e ∈ events, inPositionWindow since untilPos e = false := by
    intro e member
    cases since with
    | none => cases empty
    | some s =>
      cases untilPos with
      | none => cases empty
      | some u =>
        have same := kind s rfl u rfl
        cases lsn : s.isLSN with
        | true => exact not_inPositionWindow_of_lsn lsn (same ▸ lsn) (forward e member) empty
        | false =>
          exact not_inPositionWindow_of_binlog lsn (same ▸ lsn) (sincePlain s rfl lsn)
            (untilPlain u rfl (same ▸ lsn)) (forward e member) empty
  refine ⟨none_, fun pkGroup opts low high => ?_⟩
  have found : events.filter opts.selects = [] := by
    rw [List.filter_eq_nil_iff]
    intro e member selected
    have outside := none_ e member
    rw [← low, ← high, inPositionWindow, Bool.eq_false_iff, Ne, Bool.and_eq_true] at outside
    simp only [QueryOptions.selects, Bool.and_eq_true] at selected
    tauto
  simp only [fetchRows, narrowKeys, found, List.filter_nil, ite_self]
  cases opts.order <;> cases opts.limit <;> rfl

/-- One statement of a transaction of two. -/
def windowEvent (startPos endPos : ℕ) : ResultRow Unit :=
  { eventID := 1, binlogFile := "binlog.000009", startPos := startPos, endPos := endPos
    eventTimestamp := 0, eventType := .update, pkValues := "1" }

/-- A cut behind its anchor. -/
theorem backwards_window_empty :
    inPositionWindow (some ⟨"binlog.000009", 400⟩) (some ⟨"binlog.000009", 300⟩)
      (windowEvent 320 380) = false := by
  have kinds : ∀ s ∈ some (⟨"binlog.000009", 400⟩ : BinlogPos),
      ∀ u ∈ some (⟨"binlog.000009", 300⟩ : BinlogPos), s.isLSN = u.isLSN := by
    rintro s ⟨⟩ u ⟨⟩
    rfl
  have plain (pos : ℕ) : ∀ p ∈ some (⟨"binlog.000009", pos⟩ : BinlogPos),
      p.isLSN = false → AsciiName p.file := by
    rintro p ⟨⟩ -
    exact (by decide : AsciiName "binlog.000009")
  have forward : ∀ e ∈ [windowEvent 320 380], e.startPos < e.endPos := by
    decide
  exact (windowEmptyByPosition_sound kinds (plain 400) (plain 300) forward (by decide)).1 _
    (List.mem_singleton_self _)

/-- Rows that a window found empty does hold: a PostgreSQL row at the one LSN of both ends,
and a row past an LSN and below a binlog coordinate. -/
theorem windowEmptyByPosition_misses :
    windowEmptyByPosition (some ⟨"0/16", 22⟩) (some ⟨"0/16", 22⟩) = true ∧
      inPositionWindow (some ⟨"0/16", 22⟩) (some ⟨"0/16", 22⟩) (windowEvent 22 22) = true ∧
      windowEmptyByPosition (some ⟨"0/16", 22⟩) (some ⟨"binlog.000010", 4⟩) = true ∧
      inPositionWindow (some ⟨"0/16", 22⟩) (some ⟨"binlog.000010", 4⟩) (windowEvent 320 380) =
        true := by
  decide

end Dbtrail
