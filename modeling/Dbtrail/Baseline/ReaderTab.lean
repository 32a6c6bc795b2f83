import Dbtrail.Lib.Text

/-!
# The reader of tab-separated dump files

`ReadTabFile` reads the lines of a file through a `bufio.Scanner` whose buffer holds `maxLine`
bytes: a line must fit in it with its line feed. The scanner drops a carriage return in front of
the line feed, an empty line is skipped, and every other line is a row: its fields stand between
tabs, `\N` is NULL, and a backslash in front of t, n, r or a backslash escapes it.

`rowText` writes a row with these escapes. `readTabFile_rows_iff` says which rows come back.
-/

namespace Dbtrail.ReaderTab

/-- A row as it is handed on: each value with whether it is NULL. -/
abbrev Row : Type := List (Bytes × Bool)

/-- The physical lines of a file, each with its line feed. -/
def splitLines : Bytes → List Bytes
  | [] => []
  | c :: s =>
      if c = 10 then [c] :: splitLines s
      else
        match splitLines s with
        | [] => [[c]]
        | line :: lines => (c :: line) :: lines

theorem splitLines_append {line : Bytes} (oneLine : 10 ∉ line) (rest : Bytes) :
    splitLines (line ++ 10 :: rest) = (line ++ [10]) :: splitLines rest := by
  induction line with
  | nil => rw [List.nil_append, splitLines, if_pos rfl, List.nil_append]
  | cons c line ih =>
    rw [List.mem_cons, not_or] at oneLine
    rw [List.cons_append, splitLines, if_neg (Ne.symm oneLine.1), ih oneLine.2]
    rfl

inductive TabError : Type where
  | tooLong
  deriving DecidableEq, Repr

/-! ## The reader -/

/-- What a backslash and the byte behind it stand for. -/
def unescapeCode (d : UInt8) : Bytes :=
  if d = 116 then [9] else if d = 110 then [10] else if d = 114 then [13]
  else if d = 92 then [92] else [92, d]

def unescapeTab : Bytes → Bytes
  | [] => []
  | [c] => [c]
  | c :: d :: s => if c = 92 then unescapeCode d ++ unescapeTab s else c :: unescapeTab (d :: s)

/-- `\N` -/
def nullMark : Bytes := [92, 78]

def parseTabField (part : Bytes) : Bytes × Bool :=
  if part = nullMark then ([], true) else (unescapeTab part, false)

/-- The number of columns is not looked at. -/
def parseTabRow (line : Bytes) (_numCols : ℕ) : Row := (line.splitOn 9).map parseTabField

def maxLine : ℕ := 2 ^ 20

def dropLast (c : UInt8) (s : Bytes) : Bytes := if s.getLast? = some c then s.dropLast else s

/-- The rows of the physical lines, each with its line feed, and the error that ends the
reading. -/
def readTabLines (numCols : ℕ) : List Bytes → List Row × Option TabError
  | [] => ([], none)
  | line :: lines =>
      if maxLine ≤ (dropLast 10 line).length then ([], some .tooLong)
      else
        let text := dropLast 13 (dropLast 10 line)
        let more := readTabLines numCols lines
        if text = [] then more else (parseTabRow text numCols :: more.1, more.2)

def readTabFile (file : Bytes) (numCols : ℕ) : List Row × Option TabError :=
  readTabLines numCols (splitLines file)

/-! ## Rows as the format documents them -/

/-- The text of one byte. The format lists the tab, the line feed and the backslash; the flag
says whether the writer escapes carriage returns too, which the reader also undoes. -/
def byteText (cr : Bool) (c : UInt8) : Bytes :=
  if c = 9 then [92, 116] else if c = 10 then [92, 110] else if c = 92 then [92, 92]
  else if cr = true ∧ c = 13 then [92, 114] else [c]

def fieldText (cr : Bool) : Option Bytes → Bytes
  | none => nullMark
  | some s => s.flatMap (byteText cr)

def rowText (cr : Bool) (row : List (Option Bytes)) : Bytes :=
  [9].intercalate (row.map (fieldText cr))

def rowsText (cr : Bool) (rows : List (List (Option Bytes))) : Bytes :=
  rows.flatMap fun row => rowText cr row ++ [10]

def fieldValue : Option Bytes → Bytes × Bool
  | none => ([], true)
  | some s => (s, false)

def rowValues (row : List (Option Bytes)) : Row := row.map fieldValue

/-- The rows that come back: some field, not only one empty string, no carriage return left
bare at the end of the line, and a line that fits in the scanner's buffer. -/
structure Readable (cr : Bool) (row : List (Option Bytes)) : Prop where
  wide : row ≠ []
  shown : row ≠ [some []]
  ended : cr = true ∨ ∀ front s, row ≠ front ++ [some (s ++ [13])]
  fits : (rowText cr row).length < maxLine

/-! ## Fields -/

theorem unescapeTab_plain {c : UInt8} (plain : c ≠ 92) (t : Bytes) :
    unescapeTab (c :: t) = c :: unescapeTab t := by
  cases t with
  | nil => rfl
  | cons d t => rw [unescapeTab, if_neg plain]

theorem unescapeTab_byteText (cr : Bool) (c : UInt8) (t : Bytes) :
    unescapeTab (byteText cr c ++ t) = c :: unescapeTab t := by
  unfold byteText
  split
  next tab => rw [tab]; rfl
  next =>
    split
    next lineFeed => rw [lineFeed]; rfl
    next =>
      split
      next backslash => rw [backslash]; rfl
      next plain =>
        split
        next escaped => rw [escaped.2]; rfl
        next => exact unescapeTab_plain plain t

theorem unescapeTab_fieldText (cr : Bool) (s : Bytes) :
    unescapeTab (fieldText cr (some s)) = s := by
  induction s with
  | nil => rfl
  | cons c s ih =>
    rw [fieldText, List.flatMap_cons, unescapeTab_byteText]
    exact congrArg (c :: ·) ih

/-- No byte is written as a backslash and an N. -/
theorem byteText_ne_nullMark (cr : Bool) (c : UInt8) (t : Bytes) :
    byteText cr c ++ t ≠ nullMark := by
  unfold byteText nullMark
  intro same
  split at same
  next => simp at same
  next =>
    split at same
    next => simp at same
    next =>
      split at same
      next => simp at same
      next plain =>
        split at same
        next => simp at same
        next => exact plain (List.cons.inj same).1

theorem parseTabField_fieldText (cr : Bool) (v : Option Bytes) :
    parseTabField (fieldText cr v) = fieldValue v := by
  cases v with
  | none => rfl
  | some s =>
    have notNull : fieldText cr (some s) ≠ nullMark := by
      cases s with
      | nil => simp [fieldText, nullMark]
      | cons c s =>
        rw [fieldText, List.flatMap_cons]
        exact byteText_ne_nullMark cr c _
    rw [parseTabField, if_neg notNull, unescapeTab_fieldText]
    rfl

theorem byteText_clear (cr : Bool) (c : UInt8) : 9 ∉ byteText cr c ∧ 10 ∉ byteText cr c := by
  unfold byteText
  split
  next => decide
  next tab =>
    split
    next => decide
    next lineFeed =>
      split
      next => decide
      next =>
        split
        next => decide
        next =>
          rw [List.mem_singleton, List.mem_singleton]
          exact ⟨Ne.symm tab, Ne.symm lineFeed⟩

theorem fieldText_clear (cr : Bool) (v : Option Bytes) :
    9 ∉ fieldText cr v ∧ 10 ∉ fieldText cr v := by
  cases v with
  | none => exact ⟨by simp [fieldText, nullMark], by simp [fieldText, nullMark]⟩
  | some s =>
    rw [fieldText]
    constructor
    · intro member
      obtain ⟨c, -, inside⟩ := List.mem_flatMap.mp member
      exact (byteText_clear cr c).1 inside
    · intro member
      obtain ⟨c, -, inside⟩ := List.mem_flatMap.mp member
      exact (byteText_clear cr c).2 inside

/-! ## Lines -/

variable {row : List (Option Bytes)}

/-- Every field of a row, NULLs and the text `\N` among them, is read back from its line. -/
theorem parseTabRow_rowText (cr : Bool) (numCols : ℕ) (wide : row ≠ []) :
    parseTabRow (rowText cr row) numCols = rowValues row := by
  have fields : (rowText cr row).splitOn 9 = row.map (fieldText cr) := by
    refine List.splitOn_intercalate 9 ?_ fun empty => wide (List.map_eq_nil_iff.mp empty)
    intro field member
    obtain ⟨v, -, rfl⟩ := List.mem_map.mp member
    exact (fieldText_clear cr v).1
  rw [parseTabRow, fields, List.map_map, rowValues]
  apply List.map_congr_left
  intro v _
  exact parseTabField_fieldText cr v

theorem rowText_cons (cr : Bool) (v w : Option Bytes) (row : List (Option Bytes)) :
    rowText cr (v :: w :: row) = fieldText cr v ++ 9 :: rowText cr (w :: row) := by
  simp [rowText, List.intercalate]

theorem rowText_concat (cr : Bool) (front : List (Option Bytes)) (v : Option Bytes) :
    rowText cr (front ++ [v]) =
      (front.flatMap fun w => fieldText cr w ++ [9]) ++ fieldText cr v := by
  induction front with
  | nil => simp [rowText, List.intercalate]
  | cons w front ih =>
    have next : ∃ x rest, front ++ [v] = x :: rest := by
      cases front with
      | nil => exact ⟨v, [], rfl⟩
      | cons x rest => exact ⟨x, rest ++ [v], rfl⟩
    obtain ⟨x, rest, shape⟩ := next
    rw [List.cons_append, shape, rowText_cons, ← shape, ih, List.flatMap_cons]
    simp only [List.append_assoc, List.cons_append, List.nil_append]

theorem rowText_noLineFeed (cr : Bool) (row : List (Option Bytes)) : 10 ∉ rowText cr row := by
  induction row using List.reverseRecOn with
  | nil => simp [rowText, List.intercalate]
  | append_singleton front v _ =>
    rw [rowText_concat]
    simp only [List.mem_append, List.mem_flatMap, List.mem_singleton, not_or, not_exists,
      not_and]
    exact ⟨fun w _ => ⟨(fieldText_clear cr w).2, by decide⟩, (fieldText_clear cr v).2⟩

variable {cr : Bool}

theorem fieldText_eq_nil {v : Option Bytes} (empty : fieldText cr v = []) : v = some [] := by
  cases v with
  | none => cases empty
  | some s =>
    have back := unescapeTab_fieldText cr s
    rw [empty] at back
    rw [← back]
    rfl

theorem rowText_eq_nil : rowText cr row = [] ↔ row = [] ∨ row = [some []] := by
  constructor
  · intro empty
    induction row using List.reverseRecOn with
    | nil => exact Or.inl rfl
    | append_singleton front v _ =>
      rw [rowText_concat, List.append_eq_nil_iff] at empty
      right
      cases front with
      | nil => rw [fieldText_eq_nil empty.2, List.nil_append]
      | cons w front => simp at empty
  · rintro (rfl | rfl)
    · rfl
    · rfl

theorem byteText_getLast (cr : Bool) (c : UInt8) :
    (byteText cr c).getLast? = some 13 ↔ cr = false ∧ c = 13 := by
  unfold byteText
  split
  next tab => simp [tab]
  next =>
    split
    next lineFeed => simp [lineFeed]
    next =>
      split
      next backslash => simp [backslash]
      next =>
        split
        next escaped => simp [escaped.1]
        next bare =>
          simp only [List.getLast?_singleton, Option.some.injEq]
          constructor
          · intro return_
            refine ⟨?_, return_⟩
            cases cr with
            | true => exact absurd ⟨rfl, return_⟩ bare
            | false => rfl
          · rintro ⟨-, return_⟩
            exact return_

/-- A line that ends in a carriage return ends in a field that does. -/
theorem rowText_getLast :
    (rowText cr row).getLast? = some 13 ↔
      cr = false ∧ ∃ front s, row = front ++ [some (s ++ [13])] := by
  constructor
  · intro ends
    induction row using List.reverseRecOn with
    | nil => cases ends
    | append_singleton front v _ =>
      rw [rowText_concat] at ends
      cases v with
      | none => simp [fieldText, nullMark] at ends
      | some s =>
        induction s using List.reverseRecOn with
        | nil =>
          cases front using List.reverseRecOn with
          | nil | append_singleton => simp [fieldText] at ends
        | append_singleton s c _ =>
          have present : byteText cr c ≠ [] := by
            unfold byteText
            split_ifs <;> simp
          rw [fieldText, List.flatMap_append, List.flatMap_singleton, ← List.append_assoc,
            List.getLast?_append_of_ne_nil _ present, byteText_getLast] at ends
          exact ⟨ends.1, front, s, by rw [ends.2]⟩
  · rintro ⟨bare, front, s, rfl⟩
    rw [rowText_concat, fieldText, List.flatMap_append, List.flatMap_singleton,
      ← List.append_assoc, List.getLast?_append_of_ne_nil]
    · exact (byteText_getLast cr 13).mpr ⟨bare, rfl⟩
    · subst bare
      decide

theorem ended_iff :
    (cr = true ∨ ∀ front s, row ≠ front ++ [some (s ++ [13])]) ↔
      (rowText cr row).getLast? ≠ some 13 := by
  rw [Ne, rowText_getLast, not_and_or, Bool.not_eq_false]
  simp only [not_exists, Ne]

/-- Without its last byte such a line is that of the row without the carriage return. -/
theorem rowText_dropLast (front : List (Option Bytes)) (s : Bytes) :
    (rowText false (front ++ [some (s ++ [13])])).dropLast = rowText false (front ++ [some s]) := by
  rw [rowText_concat, rowText_concat, fieldText, List.flatMap_append, ← List.append_assoc]
  have last : List.flatMap (byteText false) [13] = [13] := by decide
  rw [last, List.dropLast_concat]
  rfl

/-! ## Files -/

theorem dropLast_concat (c : UInt8) (s : Bytes) : dropLast c (s ++ [c]) = s := by
  simp [dropLast]

theorem splitLines_rowsText (cr : Bool) (rows : List (List (Option Bytes))) :
    splitLines (rowsText cr rows) = rows.map fun row => rowText cr row ++ [10] := by
  induction rows with
  | nil => rfl
  | cons row rows ih =>
    rw [rowsText, List.flatMap_cons, ← rowsText, List.append_assoc, List.singleton_append,
      splitLines_append (rowText_noLineFeed cr row), ih, List.map_cons]

/-- A line gives at most one row. -/
theorem length_readTabLines (numCols : ℕ) (lines : List Bytes) :
    (readTabLines numCols lines).1.length ≤ lines.length := by
  fun_induction readTabLines numCols lines with
  | case1 => exact le_rfl
  | case2 => exact Nat.zero_le _
  | case3 _ _ _ _ _ _ ih => exact ih.trans (Nat.le_succ _)
  | case4 _ _ _ _ _ _ ih => exact Nat.succ_le_succ ih

/-- What the reader makes of the line of one row. -/
theorem readTabLines_rowText (cr : Bool) (numCols : ℕ) (row : List (Option Bytes))
    (lines : List Bytes) :
    readTabLines numCols ((rowText cr row ++ [10]) :: lines) =
      if maxLine ≤ (rowText cr row).length then ([], some .tooLong)
      else if dropLast 13 (rowText cr row) = [] then readTabLines numCols lines
      else (parseTabRow (dropLast 13 (rowText cr row)) numCols :: (readTabLines numCols lines).1,
        (readTabLines numCols lines).2) := by
  rw [readTabLines, dropLast_concat]

theorem readTabLines_readable (numCols : ℕ) (readable : Readable cr row) (lines : List Bytes) :
    readTabLines numCols ((rowText cr row ++ [10]) :: lines) =
      (rowValues row :: (readTabLines numCols lines).1, (readTabLines numCols lines).2) := by
  have whole : dropLast 13 (rowText cr row) = rowText cr row :=
    if_neg (ended_iff.mp readable.ended)
  have present : rowText cr row ≠ [] := by
    rw [Ne, rowText_eq_nil, not_or]
    exact ⟨readable.wide, readable.shown⟩
  rw [readTabLines_rowText, if_neg (Nat.not_le.mpr readable.fits), whole, if_neg present,
    parseTabRow_rowText cr numCols readable.wide]

/-- A row that is handed on as it was written is readable. -/
theorem readable_of_read {numCols : ℕ} (fits : (rowText cr row).length < maxLine)
    (present : dropLast 13 (rowText cr row) ≠ [])
    (read : parseTabRow (dropLast 13 (rowText cr row)) numCols = rowValues row) :
    Readable cr row := by
  have notEmpty : rowText cr row ≠ [] := by
    intro empty
    rw [empty] at present
    exact present rfl
  rw [Ne, rowText_eq_nil, not_or] at notEmpty
  refine ⟨notEmpty.1, notEmpty.2, ended_iff.mpr fun ends => ?_, fits⟩
  obtain ⟨rfl, front, s, rfl⟩ := rowText_getLast.mp ends
  rw [dropLast, if_pos ends, rowText_dropLast,
    parseTabRow_rowText false numCols (by simp)] at read
  simp [rowValues, fieldValue] at read

theorem readTabLines_rows_iff (cr : Bool) (numCols : ℕ) (rows : List (List (Option Bytes))) :
    readTabLines numCols (rows.map fun row => rowText cr row ++ [10]) =
        (rows.map rowValues, none) ↔ ∀ row ∈ rows, Readable cr row := by
  induction rows with
  | nil => simp [readTabLines]
  | cons row rows ih =>
    rw [List.map_cons, List.map_cons, List.forall_mem_cons, ← ih]
    constructor
    · intro read
      rw [readTabLines_rowText] at read
      split at read
      next => simp at read
      next fits =>
        split at read
        next =>
          -- a skipped row leaves one row too few
          have short := length_readTabLines numCols (rows.map fun row => rowText cr row ++ [10])
          rw [read] at short
          simp at short
        next present =>
          obtain ⟨rowsRead, noError⟩ := Prod.mk.inj read
          obtain ⟨head, tail⟩ := List.cons.inj rowsRead
          refine ⟨readable_of_read (Nat.not_le.mp fits) present head, ?_⟩
          rw [← tail, ← noError]
    · rintro ⟨readable, rest⟩
      rw [readTabLines_readable numCols readable, rest]

/-- A field is read back from its text whatever it holds, a NULL as NULL and the text `\N` as
text. A file of rows gives exactly these rows if and only if each is readable: a row of one empty
string is skipped, a carriage return at the end of a line is lost, and a line that does not fit
in the buffer ends the reading. -/
theorem readTabFile_rows_iff (cr : Bool) (numCols : ℕ) (rows : List (List (Option Bytes))) :
    (∀ v row, parseTabRow (rowText cr (v :: row)) numCols = rowValues (v :: row)) ∧
      (readTabFile (rowsText cr rows) numCols = (rows.map rowValues, none) ↔
        ∀ row ∈ rows, Readable cr row) := by
  refine ⟨fun v row => parseTabRow_rowText cr numCols (List.cons_ne_nil v row), ?_⟩
  rw [readTabFile, splitLines_rowsText]
  exact readTabLines_rows_iff cr numCols rows

theorem readTabFile_mixed :
    readTabFile
        (rowsText false [[none, some nullMark], [some [], some [9, 10, 13, 92]], [none, none]]) 2 =
      ([[([], true), (nullMark, false)], [([], false), ([9, 10, 13, 92], false)],
        [([], true), ([], true)]], none) := by
  refine (readTabFile_rows_iff false 2 _).2.mpr ?_
  intro row member
  simp only [List.mem_cons, List.not_mem_nil, or_false] at member
  rcases member with rfl | rfl | rfl
  · exact ⟨by decide, by decide, ended_iff.mpr (by decide), by decide⟩
  · exact ⟨by decide, by decide, ended_iff.mpr (by decide), by decide⟩
  · exact ⟨by decide, by decide, ended_iff.mpr (by decide), by decide⟩

/-- Two rows of one empty string make a file without rows, and a carriage return at the end of a
line is dropped. -/
theorem emptyRow_skipped :
    readTabFile (rowsText false [[some []], [some []]]) 1 = ([], none) ∧
      readTabFile (rowsText false [[some [97, 13]]]) 1 = ([[([97], false)]], none) :=
  ⟨rfl, rfl⟩

end Dbtrail.ReaderTab
