import Mathlib

/-!
# Binlog coordinates and indexed row events

`ResultRow` is one row of the index as the readers get it back, with the fields
the fold, the merge and the ordering rules read. `BinlogPos.atOrBefore` is the
order of coordinates (file by name length, then by name, then position), and
`laterInBinlog` the order of two changes of one row.

On rows that carry a coordinate the rule is a linear order: `ResultRow.stamp`
spells it as a lexicographic tuple, and `laterInBinlog_iff` says the two agree.
Rows of a `Row` type chosen by the caller are opaque here.
-/

namespace Dbtrail

/-- The operation of a change event. The numbers are a persistence contract of
the index; only the distinction matters to the readers. -/
inductive EventType : Type
  | insert
  | update
  | delete
  | ddl
  | gtid
  | snapshot
  | commit
  | relation
  | caughtUp
  deriving DecidableEq, Repr

/-- One indexed event. `Row` is a row image; `none` is Go's nil map. -/
structure ResultRow (Row : Type) : Type where
  eventID : ℕ
  binlogFile : String
  startPos : ℕ
  endPos : ℕ
  eventTimestamp : ℤ
  gtid : Option String := none
  schemaName : String := ""
  tableName : String := ""
  eventType : EventType
  pkValues : String
  changedColumns : Option (List String) := none
  rowBefore : Option Row := none
  rowAfter : Option Row := none
  queryText : Option String := none
  queryHash : Option String := none
  deriving Repr, DecidableEq

/-- A binlog coordinate, or a PostgreSQL LSN (`file` its text, `pos` its number). -/
structure BinlogPos : Type where
  file : String
  pos : ℕ
  deriving DecidableEq, Repr

/-- An LSN's text always holds a slash; a binary log base name cannot. -/
def BinlogPos.isLSN (p : BinlogPos) : Bool :=
  p.file.toList.contains '/'

def BinlogPos.atOrBefore (p q : BinlogPos) : Bool :=
  if p.isLSN && q.isLSN then decide (p.pos ≤ q.pos)
  else if p.isLSN != q.isLSN then true
  else if p.file.utf8ByteSize ≠ q.file.utf8ByteSize then
    decide (p.file.utf8ByteSize < q.file.utf8ByteSize)
  else if p.file ≠ q.file then decide (p.file < q.file)
  else decide (p.pos ≤ q.pos)

variable {Row : Type}

/-- Where the event starts in the binary log. -/
def ResultRow.startCoord (r : ResultRow Row) : BinlogPos := ⟨r.binlogFile, r.startPos⟩

def hasBinlogCoordinate (r : ResultRow Row) : Bool :=
  r.binlogFile != "" && decide (r.startPos < 2 ^ 63) && !r.binlogFile.toList.contains '/'

/-- Whether `a` is strictly after `b` in the source's binary log. Without a
coordinate on both sides the answer is false, and arrival order stands. -/
def laterInBinlog (a b : ResultRow Row) : Bool :=
  if !hasBinlogCoordinate a || !hasBinlogCoordinate b then false
  else if a.startCoord = b.startCoord then decide (b.eventID < a.eventID)
  else !a.startCoord.atOrBefore b.startCoord

/-! ## The order as a stamp -/

/-- File length, file name, start position, event id: binlog order as one
linear order. -/
abbrev BinlogStamp : Type := ℕ ×ₗ String ×ₗ ℕ ×ₗ ℕ

def ResultRow.stamp (r : ResultRow Row) : BinlogStamp :=
  toLex (r.binlogFile.utf8ByteSize, toLex (r.binlogFile, toLex (r.startPos, r.eventID)))

theorem ResultRow.stamp_lt_iff (a b : ResultRow Row) :
    a.stamp < b.stamp ↔
      a.binlogFile.utf8ByteSize < b.binlogFile.utf8ByteSize ∨
        a.binlogFile.utf8ByteSize = b.binlogFile.utf8ByteSize ∧
          (a.binlogFile < b.binlogFile ∨ a.binlogFile = b.binlogFile ∧
            (a.startPos < b.startPos ∨ a.startPos = b.startPos ∧ a.eventID < b.eventID)) := by
  simp only [ResultRow.stamp, Prod.Lex.toLex_lt_toLex]

theorem hasBinlogCoordinate_isLSN {r : ResultRow Row} (coord : hasBinlogCoordinate r = true) :
    r.startCoord.isLSN = false := by
  simp only [hasBinlogCoordinate, Bool.and_eq_true, Bool.not_eq_true'] at coord
  exact coord.2

/-- The coordinate rule on two binlog coordinates. -/
theorem BinlogPos.atOrBefore_iff {p q : BinlogPos} (hp : p.isLSN = false)
    (hq : q.isLSN = false) :
    p.atOrBefore q = true ↔
      p.file.utf8ByteSize < q.file.utf8ByteSize ∨
        p.file.utf8ByteSize = q.file.utf8ByteSize ∧
          (p.file < q.file ∨ p.file = q.file ∧ p.pos ≤ q.pos) := by
  unfold BinlogPos.atOrBefore
  rw [hp, hq]
  by_cases len : p.file.utf8ByteSize = q.file.utf8ByteSize
  · by_cases file : p.file = q.file
    · simp [file]
    · simp [len, file]
  · simp [len]

/-- File length, file name, position. -/
def BinlogPos.key (p : BinlogPos) : ℕ ×ₗ String ×ₗ ℕ :=
  toLex (p.file.utf8ByteSize, toLex (p.file, p.pos))

theorem BinlogPos.key_injective : Function.Injective BinlogPos.key := by
  rintro ⟨file, pos⟩ ⟨file', pos'⟩ same
  simp only [BinlogPos.key, toLex_inj, Prod.mk.injEq] at same
  rw [same.2.1, same.2.2]

theorem BinlogPos.atOrBefore_iff_key {p q : BinlogPos} (hp : p.isLSN = false)
    (hq : q.isLSN = false) : p.atOrBefore q = true ↔ p.key ≤ q.key := by
  rw [BinlogPos.atOrBefore_iff hp hq]
  simp only [BinlogPos.key, Prod.Lex.toLex_le_toLex]

/-- Among rows with a coordinate, "later in the binlog" is the stamp order. -/
theorem laterInBinlog_iff {a b : ResultRow Row} (ha : hasBinlogCoordinate a = true)
    (hb : hasBinlogCoordinate b = true) : laterInBinlog a b = true ↔ b.stamp < a.stamp := by
  have before := BinlogPos.atOrBefore_iff (hasBinlogCoordinate_isLSN ha)
    (hasBinlogCoordinate_isLSN hb)
  rw [ResultRow.stamp_lt_iff]
  unfold laterInBinlog
  rw [ha, hb]
  simp only [Bool.not_true, Bool.or_self, Bool.false_eq_true, if_false]
  by_cases same : a.startCoord = b.startCoord
  · have file : a.binlogFile = b.binlogFile := congrArg BinlogPos.file same
    have pos : a.startPos = b.startPos := congrArg BinlogPos.pos same
    simp [same, file, pos]
  · rw [if_neg same, Bool.not_eq_true', Bool.eq_false_iff, Ne, before]
    simp only [ResultRow.startCoord, BinlogPos.mk.injEq] at same ⊢
    rcases lt_trichotomy a.binlogFile.utf8ByteSize b.binlogFile.utf8ByteSize with len | len | len
    · simp [len, len.ne', len.not_gt]
    · rcases lt_trichotomy a.binlogFile b.binlogFile with file | file | file
      · simp [len, file, file.ne', file.not_gt]
      · have pos : a.startPos ≠ b.startPos := fun h => same ⟨file, h⟩
        simp only [file, lt_self_iff_false, true_and, false_or, not_le]
        constructor
        · exact .inl
        · rintro (lt | ⟨eq, -⟩)
          · exact lt
          · exact absurd eq.symm pos
      · simp [len, file, file.ne', file.not_gt]
    · simp [len, len.ne', len.not_gt]

/-! ## Files -/

/-- `BinlogBaseName` of the reconstruct package: the name without its numeric extension, or
the name itself when it has none. -/
def fileBaseName (file : String) : String :=
  let chars := file.toList
  let extension := (chars.reverse.takeWhile (· != '.')).reverse
  if !chars.contains '.' || extension.isEmpty then file
  else if extension.all Char.isDigit then
    String.ofList (chars.take (chars.length - extension.length - 1))
  else file

/-- Binary log files in the order the server numbers them: by name length, then
by name. -/
def fileBefore (a b : String) : Bool :=
  decide (a.length < b.length) || (decide (a.length = b.length) && decide (a < b))

theorem fileBefore_irrefl (file : String) : fileBefore file file = false := by
  simp [fileBefore]

theorem fileBefore_asymm {a b : String} (before : fileBefore a b = true) :
    fileBefore b a = false ∧ a ≠ b := by
  simp only [fileBefore, Bool.or_eq_true, decide_eq_true_eq, Bool.and_eq_true,
    Bool.or_eq_false_iff, decide_eq_false_iff_not, Bool.and_eq_false_iff] at before ⊢
  rcases before with shorter | ⟨same, lower⟩
  · refine ⟨⟨by omega, .inl (by omega)⟩, ?_⟩
    rintro rfl
    exact lt_irrefl _ shorter
  · exact ⟨⟨by omega, .inr lower.asymm⟩, lower.ne⟩

theorem fileBefore_trichotomy (a b : String) :
    fileBefore a b = true ∨ a = b ∨ fileBefore b a = true := by
  simp only [fileBefore, Bool.or_eq_true, decide_eq_true_eq, Bool.and_eq_true]
  rcases lt_trichotomy a.length b.length with shorter | same | longer
  · exact .inl (.inl shorter)
  · rcases lt_trichotomy a b with lower | rfl | higher
    · exact .inl (.inr ⟨same, lower⟩)
    · exact .inr (.inl rfl)
    · exact .inr (.inr (.inr ⟨same.symm, higher⟩))
  · exact .inr (.inr (.inl longer))

theorem fileBefore_trans {a b c : String} (ab : fileBefore a b = true)
    (bc : fileBefore b c = true) : fileBefore a c = true := by
  simp only [fileBefore, Bool.or_eq_true, decide_eq_true_eq, Bool.and_eq_true] at ab bc ⊢
  rcases ab with shorter | ⟨same, lower⟩
  · exact .inl (by omega)
  · rcases bc with shorter' | ⟨same', lower'⟩
    · exact .inl (by omega)
    · exact .inr ⟨by omega, lower.trans lower'⟩

/-- ASCII, as a binary log's name is: `CHAR_LENGTH` counts its characters and `len` its bytes. -/
abbrev AsciiName (file : String) : Prop := file.length = file.utf8ByteSize

theorem BinlogPos.atOrBefore_iff_file {p q : BinlogPos} (hp : p.isLSN = false)
    (hq : q.isLSN = false) (asciiP : AsciiName p.file) (asciiQ : AsciiName q.file) :
    p.atOrBefore q = true ↔ fileBefore p.file q.file = true ∨ p.file = q.file ∧ p.pos ≤ q.pos := by
  rw [BinlogPos.atOrBefore_iff hp hq, ← asciiP, ← asciiQ]
  simp only [fileBefore, Bool.or_eq_true, Bool.and_eq_true, decide_eq_true_eq]
  constructor
  · rintro (shorter | ⟨same, lower | ⟨file, pos⟩⟩)
    · exact .inl (.inl shorter)
    · exact .inl (.inr ⟨same, lower⟩)
    · exact .inr ⟨file, pos⟩
  · rintro ((shorter | ⟨same, lower⟩) | ⟨file, pos⟩)
    · exact .inl shorter
    · exact .inr ⟨same, .inl lower⟩
    · exact .inr ⟨by rw [file], .inr ⟨file, pos⟩⟩

end Dbtrail
