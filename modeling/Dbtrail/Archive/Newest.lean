import Dbtrail.Query.PositionFloor

/-!
# The newest change of an archive file

`Newest.Add` folds the highest event id and the latest coordinate over the rows of a file,
`ReadContentWith` picks them with SQL, and a fetch anchored at a position leaves the file
out when the position is past the coordinate. On the rows of a binlog the three orders are
one. On LSNs the fold keeps the first of two rows with one number, whatever their texts, and
the anchored predicate reads the number alone, so it returns a row whose file is missing,
which the fold and the SQL pass over.
-/

namespace Dbtrail.Archive

open List

/-- A row of a file, as far as its newest change is read from it. `none` is NULL. -/
structure ArchivedChange : Type where
  eventID : ℕ
  file : Option String
  pos : Option ℕ
  deriving DecidableEq, Repr

/-- A NULL or empty file is no coordinate; a NULL position counts as 0. -/
def ArchivedChange.coordinate (r : ArchivedChange) : Option BinlogPos :=
  (r.file.filter (· ≠ "")).map fun file => ⟨file, r.pos.getD 0⟩

/-- No coordinate is `HasPos` false. -/
structure Newest : Type where
  eventID : ℕ := 0
  coordinate : Option BinlogPos := none
  deriving DecidableEq, Repr

def Newest.add (n : Newest) (r : ArchivedChange) : Newest where
  eventID := max n.eventID r.eventID
  coordinate :=
    match r.coordinate with
    | some c => laterOf n.coordinate c
    | none => n.coordinate

/-- The `ORDER BY` of `ReadContentWith`: the number of an LSN, NULLs last, then the length of
the file name, the name and the position. -/
def sqlKey (c : BinlogPos) : WithBot ℕ ×ₗ ℕ ×ₗ String ×ₗ ℕ :=
  toLex (if c.isLSN then WithBot.some c.pos else ⊥, c.key)

def coordinates (rows : List ArchivedChange) : List BinlogPos :=
  rows.filterMap ArchivedChange.coordinate

def readContent (rows : List ArchivedChange) : Newest where
  eventID := (rows.map ArchivedChange.eventID).max?.getD 0
  coordinate := (coordinates rows).argmax sqlKey

/-- `buildWhere`'s `SincePos` clause. A comparison with NULL does not hold. -/
def startsSince (anchor : BinlogPos) (r : ArchivedChange) : Bool :=
  if anchor.isLSN then r.pos.any (anchor.pos ≤ ·)
  else r.file.any fun file =>
    decide (anchor.file.length < file.length) ||
      file.length == anchor.file.length && decide (anchor.file < file) ||
      file == anchor.file && r.pos.any (anchor.pos ≤ ·)

/-- What an archive's head is for: the fold, in any order, and the SQL agree on it, it is the
greatest, and an anchor past it leaves no row of the file to fetch. -/
structure HeadExact (rows : List ArchivedChange) : Prop where
  folds : ∀ rows' : List ArchivedChange, rows'.Perm rows →
    rows'.foldl Newest.add {} = readContent rows
  greatestID : rows ≠ [] → IsGreatest {id | ∃ r ∈ rows, r.eventID = id} (readContent rows).eventID
  greatest : ∀ c ∈ coordinates rows, ∃ top ∈ (readContent rows).coordinate,
    top ∈ coordinates rows ∧ c.atOrBefore top = true
  past : ∀ top ∈ (readContent rows).coordinate, ∀ anchor : BinlogPos,
    AsciiName anchor.file → anchor.atOrBefore top = false →
      ∀ r ∈ rows, startsSince anchor r = false

/-- What LSN rows must be for that: one text for the highest number, and no higher number on a
row without a file. -/
structure PlainLSNs (rows : List ArchivedChange) : Prop where
  oneText : ∀ c ∈ coordinates rows, ∀ d ∈ coordinates rows,
    (∀ e ∈ coordinates rows, e.atOrBefore c = true) → c.atOrBefore d = true → c = d
  filed : ∀ r ∈ rows, r.coordinate = none → ∀ pos ∈ r.pos,
    coordinates rows ≠ [] → ∃ c ∈ coordinates rows, pos ≤ c.pos

variable {rows rows' : List ArchivedChange} {r : ArchivedChange} {c : BinlogPos}

/-! ## The fold -/

theorem foldl_add (rows : List ArchivedChange) (n : Newest) :
    rows.foldl Newest.add n =
      ⟨(rows.map ArchivedChange.eventID).foldl max n.eventID,
        (coordinates rows).foldl laterOf n.coordinate⟩ := by
  induction rows generalizing n with
  | nil => rfl
  | cons r rows ih =>
    rw [foldl_cons, ih]
    cases found : r.coordinate <;> simp [Newest.add, coordinates, found]

theorem foldl_max_eq (ids : List ℕ) : ids.foldl max 0 = ids.max?.getD 0 := by
  cases ids with
  | nil => rfl
  | cons id ids => rw [foldl_cons, Nat.zero_max, max?_cons', Option.getD_some]

theorem readContent_eventID (some_ : rows ≠ []) :
    IsGreatest {id | ∃ r ∈ rows, r.eventID = id} (readContent rows).eventID := by
  obtain ⟨id, found⟩ := Option.ne_none_iff_exists'.mp (max?_eq_none_iff.not.mpr
    (map_eq_nil_iff (f := ArchivedChange.eventID).not.mpr some_))
  obtain ⟨member, le⟩ := max?_eq_some_iff.mp found
  simp only [readContent, found, Option.getD_some]
  refine ⟨mem_map.mp member, ?_⟩
  rintro _ ⟨r, held, rfl⟩
  exact le _ (mem_map_of_mem held)

theorem foldl_add_eq_iff (perm : rows'.Perm rows) :
    rows'.foldl Newest.add {} = readContent rows ↔
      (coordinates rows').foldl laterOf none = (readContent rows).coordinate := by
  have ids : (rows'.map ArchivedChange.eventID).foldl max 0 = (readContent rows).eventID := by
    rw [(perm.map _).foldl_eq 0]
    exact foldl_max_eq _
  rw [foldl_add, ids]
  exact ⟨fun same => congrArg Newest.coordinate same, fun same => by rw [same]⟩

/-! ## One order -/

/-- The number of an LSN, and the key of a binlog coordinate. -/
def rank (c : BinlogPos) : ℕ ×ₗ ℕ ×ₗ String ×ₗ ℕ :=
  if c.isLSN then toLex (c.pos, (⟨"", 0⟩ : BinlogPos).key) else toLex (0, c.key)

section Orders

variable {a b : BinlogPos} (kind : a.isLSN = b.isLSN)

include kind

theorem laterCoordinate_iff_rank : laterCoordinate a b = true ↔ rank b < rank a := by
  cases lsn : b.isLSN with
  | true => simp [laterCoordinate, rank, kind, lsn, Prod.Lex.toLex_lt_toLex]
  | false =>
    rw [laterCoordinate_iff_key (kind.trans lsn) lsn]
    simp [rank, kind, lsn, Prod.Lex.toLex_lt_toLex]

theorem atOrBefore_iff_rank : a.atOrBefore b = true ↔ rank a ≤ rank b := by
  cases lsn : b.isLSN with
  | true =>
    simp only [BinlogPos.atOrBefore, rank, kind, lsn, Bool.and_self, if_true, decide_eq_true_eq,
      Prod.Lex.toLex_le_toLex, le_refl, and_true]
    exact le_iff_lt_or_eq
  | false =>
    rw [BinlogPos.atOrBefore_iff_key (kind.trans lsn) lsn]
    simp [rank, kind, lsn, Prod.Lex.toLex_le_toLex]

theorem rank_le_of_sqlKey (le : sqlKey a ≤ sqlKey b) : rank a ≤ rank b := by
  cases lsn : b.isLSN with
  | true =>
    simp only [sqlKey, rank, kind, lsn, if_true, Prod.Lex.toLex_le_toLex, WithBot.coe_lt_coe,
      WithBot.coe_inj] at le ⊢
    exact le.imp_right fun same => ⟨same.1, le_rfl⟩
  | false => simpa [sqlKey, rank, kind, lsn, Prod.Lex.toLex_le_toLex] using le

end Orders

/-! ## Rows past the anchor -/

theorem file_ne_of_coordinate (found : r.coordinate = some c) : c.file ≠ "" := by
  obtain ⟨file, isFile, rfl⟩ := Option.map_eq_some_iff.mp found
  exact of_decide_eq_true (Option.filter_eq_some_iff.mp isFile).2

theorem coordinate_of_file {file : String} (isFile : r.file = some file) (named : file ≠ "") :
    r.coordinate = some ⟨file, r.pos.getD 0⟩ := by
  simp [ArchivedChange.coordinate, isFile, named]

/-- A row an anchored fetch returns has a coordinate at or after the anchor, or only a number,
unless the anchor names no file. -/
theorem startsSince_cases {anchor : BinlogPos}
    (anchorAscii : AsciiName anchor.file)
    (ascii : ∀ c ∈ r.coordinate, AsciiName c.file)
    (kind : ∀ c ∈ r.coordinate, c.isLSN = anchor.isLSN) (starts : startsSince anchor r = true) :
    (∃ c, r.coordinate = some c ∧ anchor.atOrBefore c = true) ∨
      (anchor.isLSN = true ∧ r.coordinate = none ∧ ∃ pos ∈ r.pos, anchor.pos ≤ pos) ∨
        anchor.file = "" := by
  cases lsn : anchor.isLSN with
  | true =>
    rw [startsSince, lsn, if_pos rfl, Option.any_eq_true] at starts
    obtain ⟨pos, isPos, le⟩ := starts
    cases found : r.coordinate with
    | none => exact .inr (.inl ⟨rfl, rfl, pos, isPos, of_decide_eq_true le⟩)
    | some c =>
      have isLSN := (kind c found).trans lsn
      obtain ⟨file, -, rfl⟩ := Option.map_eq_some_iff.mp found
      refine .inl ⟨_, rfl, ?_⟩
      rw [BinlogPos.atOrBefore, lsn, isLSN, Bool.and_self, if_pos rfl]
      simpa [isPos] using le
  | false =>
    rw [startsSince, lsn, if_neg Bool.false_ne_true, Option.any_eq_true] at starts
    obtain ⟨file, isFile, starts⟩ := starts
    simp only [Bool.or_eq_true, Bool.and_eq_true, decide_eq_true_eq, beq_iff_eq] at starts
    by_cases named : file = ""
    · rw [named] at starts
      rcases starts with (longer | ⟨same, -⟩) | ⟨same, -⟩
      · simp at longer
      · exact .inr (.inr (String.length_eq_zero_iff.mp same.symm))
      · exact .inr (.inr same.symm)
    have found := coordinate_of_file isFile named
    refine .inl ⟨_, found, (BinlogPos.atOrBefore_iff_file lsn ((kind _ found).trans lsn)
      anchorAscii (ascii _ found)).mpr ?_⟩
    simp only [fileBefore, Bool.or_eq_true, Bool.and_eq_true, decide_eq_true_eq]
    refine starts.imp (Or.imp_right fun later => ⟨later.1.symm, later.2⟩) fun later => ?_
    rw [Option.any_eq_true] at later
    obtain ⟨pos, isPos, le⟩ := later.2
    exact ⟨later.1.symm, by simpa [isPos] using le⟩

/-! ## Exact heads -/

section Exact

variable {lsn : Bool} (kind : ∀ c ∈ coordinates rows, c.isLSN = lsn)

include kind

/-- The fold keeps the first coordinate of the highest rank. -/
theorem foldl_laterOf_eq (perm : rows'.Perm rows) :
    (coordinates rows').foldl laterOf none = (coordinates rows').argmax rank := by
  have kind' : ∀ c ∈ coordinates rows', c.isLSN = lsn := fun c own =>
    kind c ((perm.filterMap _).mem_iff.mp own)
  exact foldl_laterOf_eq_argmax fun a own b other =>
    laterCoordinate_iff_rank ((kind' a own).trans (kind' b other).symm)

theorem rank_le_of_readContent {top : BinlogPos} (isTop : top ∈ (readContent rows).coordinate) :
    ∀ c ∈ coordinates rows, rank c ≤ rank top := fun c own =>
  rank_le_of_sqlKey ((kind c own).trans (kind top (argmax_mem isTop)).symm)
    (le_of_mem_argmax own isTop)

/-- Two greatest coordinates are one: always of a binlog, and of plain LSNs. -/
theorem eq_of_greatest (plain : lsn = true → PlainLSNs rows) {a b : BinlogPos}
    (own : a ∈ coordinates rows) (other : b ∈ coordinates rows)
    (greatest : ∀ e ∈ coordinates rows, rank e ≤ rank a) (le : rank a ≤ rank b) : a = b := by
  cases lsn with
  | true =>
    refine (plain rfl).oneText a own b other (fun e held => ?_) ?_
    · exact (atOrBefore_iff_rank ((kind e held).trans (kind a own).symm)).mpr (greatest e held)
    · exact (atOrBefore_iff_rank ((kind a own).trans (kind b other).symm)).mpr le
  | false =>
    have same := le_antisymm le (greatest b other)
    simp only [rank, kind a own, kind b other] at same
    exact BinlogPos.key_injective (by simpa using same)

theorem past_of_plain (ascii : ∀ c ∈ coordinates rows, AsciiName c.file)
    (plain : lsn = true → PlainLSNs rows) {top anchor : BinlogPos}
    (isTop : top ∈ (readContent rows).coordinate)
    (anchorAscii : AsciiName anchor.file)
    (past : anchor.atOrBefore top = false) (member : r ∈ rows) : startsSince anchor r = false := by
  have inRows := argmax_mem isTop
  have topKind := kind top inRows
  have anchorKind : anchor.isLSN = top.isLSN := by
    cases left : anchor.isLSN <;> cases right : top.isLSN <;>
      simp [BinlogPos.atOrBefore, left, right] at past ⊢
  have own : ∀ c ∈ r.coordinate, c ∈ coordinates rows := fun c found =>
    mem_filterMap.mpr ⟨r, member, found⟩
  have same : ∀ c ∈ r.coordinate, c.isLSN = top.isLSN := fun c found =>
    (kind c (own c found)).trans topKind.symm
  by_contra starts
  rcases startsSince_cases anchorAscii (fun c found => ascii c (own c found))
    (fun c found => (same c found).trans anchorKind.symm)
    (Bool.not_eq_false _ ▸ starts) with ⟨c, found, since⟩ | ⟨isLSN, bare, pos, isPos, le⟩ | empty
  · have le := rank_le_of_readContent kind isTop c (own c found)
    rw [BinlogPos.atOrBefore_trans (same c found) since
      ((atOrBefore_iff_rank (same c found)).mpr le)] at past
    cases past
  · obtain ⟨c, own, under⟩ := (plain (topKind.symm.trans (anchorKind.symm.trans isLSN))).filed r
      member bare pos isPos (ne_nil_of_mem inRows)
    have lsn := anchorKind.symm.trans isLSN
    have sameKind := (kind c own).trans topKind.symm
    have top := (atOrBefore_iff_rank sameKind).mpr (rank_le_of_readContent kind isTop c own)
    simp only [BinlogPos.atOrBefore, sameKind, isLSN, lsn, Bool.and_self, if_true,
      decide_eq_true_eq, decide_eq_false_iff_not] at past top
    omega
  · obtain ⟨s, -, found⟩ := mem_filterMap.mp inRows
    have longer := Nat.pos_of_ne_zero
      (String.utf8ByteSize_eq_zero_iff.not.mpr (file_ne_of_coordinate found))
    have binlog : anchor.isLSN = false := by
      rw [BinlogPos.isLSN, empty]
      rfl
    rw [(BinlogPos.atOrBefore_iff binlog (anchorKind.symm.trans binlog)).mpr
      (.inl (by rwa [empty, String.utf8ByteSize_empty]))] at past
    cases past

/-- With its row in front, a greatest coordinate is the one the fold keeps. -/
theorem pick_of_greatest (exact_ : HeadExact rows) (member : c ∈ coordinates rows)
    (greatest : ∀ e ∈ coordinates rows, e.atOrBefore c = true) :
    (readContent rows).coordinate = some c := by
  obtain ⟨r, inRows, found⟩ := mem_filterMap.mp member
  have perm := (perm_cons_erase inRows).symm
  have perm' : (coordinates (r :: rows.erase r)).Perm (coordinates rows) := perm.filterMap _
  rw [← (foldl_add_eq_iff perm).mp (exact_.folds _ perm), foldl_laterOf_eq kind perm]
  refine mem_argmax_iff.mpr ⟨perm'.mem_iff.mpr member, fun e own => ?_, fun e _ _ => ?_⟩
  · have held := perm'.mem_iff.mp own
    exact (atOrBefore_iff_rank ((kind e held).trans (kind c member).symm)).mp (greatest e held)
  · simp [coordinates, found]

/-- The head of an archive of one kind of coordinates, under ASCII names, is exact for every
binlog, and for LSNs exactly when they are plain. -/
theorem headExact_iff (ascii : ∀ c ∈ coordinates rows, AsciiName c.file) :
    HeadExact rows ↔ (lsn = true → PlainLSNs rows) := by
  constructor
  · rintro exact_ rfl
    refine ⟨fun c own d other greatest le => ?_, fun r member bare pos isPos some_ => ?_⟩
    · have first := pick_of_greatest kind exact_ own greatest
      have second := pick_of_greatest kind exact_ other fun e held =>
        BinlogPos.atOrBefore_trans ((kind c own).trans (kind d other).symm) (greatest e held) le
      exact Option.some.inj (first.symm.trans second)
    · obtain ⟨top, isTop⟩ :=
        Option.ne_none_iff_exists'.mp (argmax_eq_none (f := sqlKey).not.mpr some_)
      refine ⟨top, argmax_mem isTop, ?_⟩
      by_contra beyond
      have isLSN : (⟨"/", pos⟩ : BinlogPos).isLSN = true :=
        show "/".toList.contains '/' = true by decide
      have starts := exact_.past top isTop ⟨"/", pos⟩ (show AsciiName "/" by decide)
        (by
          rw [BinlogPos.atOrBefore, isLSN, kind top (argmax_mem isTop), Bool.and_self,
            if_pos rfl]
          exact decide_eq_false beyond) r member
      simp [startsSince, isLSN, Option.mem_def.mp isPos] at starts
  · intro plain
    refine ⟨fun rows' perm => ?_, readContent_eventID, fun c own => ?_,
      fun top isTop anchor anchorAscii past r member =>
        past_of_plain kind ascii plain isTop anchorAscii past member⟩
    · have perm' : (coordinates rows').Perm (coordinates rows) := perm.filterMap _
      rw [foldl_add_eq_iff perm, foldl_laterOf_eq kind perm]
      cases isTop : (readContent rows).coordinate with
      | none =>
        rw [readContent, argmax_eq_none] at isTop
        rw [isTop] at perm'
        rw [perm'.eq_nil, argmax_nil]
      | some top =>
        have inRows := argmax_mem isTop
        have greatest := rank_le_of_readContent kind isTop
        refine mem_argmax_iff.mpr ⟨perm'.mem_iff.mpr inRows,
          fun e held => greatest e (perm'.mem_iff.mp held), fun e held le => ?_⟩
        rw [eq_of_greatest kind plain inRows (perm'.mem_iff.mp held) greatest le]
    · obtain ⟨top, isTop⟩ := Option.ne_none_iff_exists'.mp
        (argmax_eq_none (f := sqlKey).not.mpr (ne_nil_of_mem own))
      have inRows := argmax_mem isTop
      have same := (kind c own).trans (kind top inRows).symm
      exact ⟨top, isTop, inRows, (atOrBefore_iff_rank same).mpr
        (rank_le_of_readContent kind isTop c own)⟩

end Exact

/-- An LSN row without its text, and one with it. -/
def unfiledLSN : List ArchivedChange := [⟨1, none, some 9⟩, ⟨2, some "0/5", some 5⟩]

/-- Two LSNs without their numbers. -/
def unnumberedLSNs : List ArchivedChange := [⟨1, some "0/1", none⟩, ⟨2, some "0/2", none⟩]

/-- The anchor 0/8 is past the head 0/5, and the fetch returns row 1; and the fold's text
depends on the order of the rows. -/
theorem lsnHeads_inexact :
    ((readContent unfiledLSN).coordinate = some ⟨"0/5", 5⟩ ∧
      (⟨"0/8", 8⟩ : BinlogPos).atOrBefore ⟨"0/5", 5⟩ = false ∧
      startsSince ⟨"0/8", 8⟩ ⟨1, none, some 9⟩ = true) ∧
    (unnumberedLSNs.foldl Newest.add {}).coordinate = some ⟨"0/1", 0⟩ ∧
    (unnumberedLSNs.reverse.foldl Newest.add {}).coordinate = some ⟨"0/2", 0⟩ := by
  decide

theorem rolledOver_headExact :
    HeadExact [⟨3, some "b.999999", some 4⟩, ⟨1, some "b.1000000", none⟩, ⟨2, none, some 7⟩] :=
  (headExact_iff (show ∀ c ∈ coordinates _, c.isLSN = false by decide) (by decide)).mpr nofun

end Dbtrail.Archive
