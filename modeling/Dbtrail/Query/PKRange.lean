import Dbtrail.Lib.Decimal

/-!
# Primary key ranges

A range on an integer key is asked of three places: the live index through MySQL's `CAST`, the
archives through DuckDB's `TRY_CAST` and the in-memory buffer through `strconv`. Each reads the
stored text in its own way. `MySQL.cast` takes the longest run of digits and wraps or saturates,
`DuckDB.tryCast` rounds decimals and reads exponents, and `strconv` takes a plus sign and leading
zeros. All three give 64-bit integers and read a canonical text right (`ReadsIntegers`), so the
round trip each of them makes leaves the canonical texts and no other.
-/

namespace Dbtrail

inductive PKCast : Type where
  | unset
  | signed
  | unsigned
  deriving DecidableEq, Repr

structure PKRange : Type where
  cast : PKCast
  min : Option ℤ
  max : Option ℤ
  deriving DecidableEq, Repr

namespace PKRange

def maxInt64 : ℤ := 2 ^ 63 - 1

def minInt64 : ℤ := -2 ^ 63

def maxUint : ℤ := 2 ^ 64 - 1

/-- The integers of a cast's width. -/
def Fits : PKCast → ℤ → Prop
  | .unset, _ => False
  | .signed, z => minInt64 ≤ z ∧ z ≤ maxInt64
  | .unsigned, z => 0 ≤ z ∧ z ≤ maxUint

instance (cast : PKCast) (z : ℤ) : Decidable (Fits cast z) :=
  match cast with
  | .unset => .isFalse id
  | .signed => inferInstanceAs (Decidable (minInt64 ≤ z ∧ z ≤ maxInt64))
  | .unsigned => inferInstanceAs (Decidable (0 ≤ z ∧ z ≤ maxUint))

/-! ## Validation -/

/-- The closure `check` of `checkPKBoundsFit`, of a bound that is there. -/
def checkBound (cast : PKCast) (keyDesc label : String) (v : ℤ) : Option String :=
  match cast with
  | .unsigned =>
      if v < 0 then
        some s!"{label} {v} is negative, but the primary key column is unsigned ({keyDesc})"
      else if maxUint < v then
        some s!"{label} {v} is above the largest unsigned 64-bit value {maxUint} ({keyDesc})"
      else none
  | .signed =>
      if maxInt64 < v then
        some (s!"{label} {v} is above the largest signed 64-bit value {maxInt64}, " ++
          s!"and the primary key column is signed ({keyDesc})")
      else if v < minInt64 then
        some s!"{label} {v} is below the smallest signed 64-bit value {minInt64} ({keyDesc})"
      else none
  | .unset =>
      some ("primary key range cast is not resolved; " ++
        "check the table's key against the schema snapshot first")

def checkPKBoundsFit (cast : PKCast) (lo hi : Option ℤ) (keyDesc : String) : Option String :=
  (lo.bind (checkBound cast keyDesc "lower bound")).or
    (hi.bind (checkBound cast keyDesc "upper bound"))

/-- The refusal of a range, or none. -/
def validate (r : PKRange) : Option String :=
  if r.cast ≠ .signed ∧ r.cast ≠ .unsigned then
    some ("query: primary key range cast is not resolved; " ++
      "check the table's key against the schema snapshot first")
  else if r.min = none ∧ r.max = none then some "query: primary key range has no bounds"
  else
    match r.min, r.max with
    | some lo, some hi =>
        if hi < lo then
          some s!"query: primary key range lower bound {lo} is above upper bound {hi}"
        else fits
    | _, _ => fits
where
  fits : Option String :=
    let keyDesc := if r.cast = .unsigned then "unsigned" else "signed"
    (checkPKBoundsFit r.cast r.min r.max keyDesc).map ("query: " ++ ·)

theorem cast_ne_unset {r : PKRange} (valid : r.validate = none) : r.cast ≠ .unset := by
  intro unset
  simp [validate, unset] at valid

/-! ## The predicates -/

/-- A fragment of the WHERE clause. -/
inductive Pred : Type where
  | noMatch
  | roundTrip (cast : PKCast)
  | atLeast (cast : PKCast) (bound : ℤ)
  | atMost (cast : PKCast) (bound : ℤ)
  deriving DecidableEq, Repr

/-- The fragments of `mysqlPredicates` and of `DuckDBPredicates`. -/
def castPredicates (r : PKRange) : List Pred :=
  if r.cast = .unset then [.noMatch]
  else
    [.roundTrip r.cast] ++ (r.min.map (Pred.atLeast r.cast)).toList ++
      (r.max.map (Pred.atMost r.cast)).toList

/-- Whether a fragment is true of a key, with `cast` the engine's own (none for NULL, which
compares false). -/
def Pred.holds (cast : PKCast → List Char → Option ℤ) (key : List Char) : Pred → Bool
  | .noMatch => false
  | .roundTrip c => (cast c key).any fun z => intText z == key
  | .atLeast c bound => (cast c key).any fun z => decide (bound ≤ z)
  | .atMost c bound => (cast c key).any fun z => decide (z ≤ bound)

/-- Whether an engine's WHERE clause keeps a key. -/
def selects (cast : PKCast → List Char → Option ℤ) (r : PKRange) (key : List Char) : Bool :=
  r.castPredicates.all (Pred.holds cast key)

/-! ## The readers -/

/-- A sign and what follows it: whether it is a minus. -/
def splitSign : List Char → Bool × List Char
  | '-' :: rest => (true, rest)
  | '+' :: rest => (false, rest)
  | rest => (false, rest)

def negateIf (negative : Bool) (n : ℕ) : ℤ := if negative then -n else n

namespace MySQL

/-- The 64-bit number MySQL reads a text as: blanks, a sign and the longest run of digits, which
saturates. -/
def strtoll10 (key : List Char) : ℤ :=
  let (negative, rest) := splitSign (key.dropWhile fun c => c == ' ' || c == '\t')
  let n : ℤ := digitsVal (rest.takeWhile Char.isDigit)
  if negative then if -n < minInt64 then minInt64 else -n
  else if maxUint < n then maxUint else n

/-- `CAST(key AS SIGNED)` and `CAST(key AS UNSIGNED)`: the same 64 bits read either way. -/
def cast : PKCast → List Char → Option ℤ
  | .unset, _ => none
  | .signed, key =>
      let n := strtoll10 key
      some (if maxInt64 < n then n - 2 ^ 64 else n)
  | .unsigned, key =>
      let n := strtoll10 key
      some (if n < 0 then n + 2 ^ 64 else n)

end MySQL

namespace DuckDB

/-- A number times a power of ten, rounded half up. -/
def scaled (n : ℕ) : ℤ → ℕ
  | .ofNat k => n * 10 ^ k
  | .negSucc k => (2 * n + 10 ^ (k + 1)) / (2 * 10 ^ (k + 1))

def readExponent : List Char → Option ℤ
  | [] => some 0
  | c :: rest =>
      let (negative, digits) := splitSign rest
      if (c == 'e' || c == 'E') && isDigits digits then some (negateIf negative (digitsVal digits))
      else none

def splitFraction : List Char → List Char × List Char
  | '.' :: rest => (rest.takeWhile Char.isDigit, rest.dropWhile Char.isDigit)
  | rest => ([], rest)

/-- Digits, with or without a fraction and an exponent. -/
def readDecimal (text : List Char) : Option ℕ :=
  let whole := text.takeWhile Char.isDigit
  let (fraction, rest) := splitFraction (text.dropWhile Char.isDigit)
  if whole.isEmpty && fraction.isEmpty then none
  else (readExponent rest).map fun e => scaled (digitsVal (whole ++ fraction)) (e - fraction.length)

def trimSpace (text : List Char) : List Char :=
  ((text.dropWhile Char.isWhitespace).reverse.dropWhile Char.isWhitespace).reverse

/-- `TRY_CAST(key AS BIGINT)` and `TRY_CAST(key AS UBIGINT)`. `other` is what it makes of a text
that is no decimal number (hexadecimal, binary and digits with separators). -/
def tryCast (other : List Char → Option ℤ) (cast : PKCast) (key : List Char) : Option ℤ :=
  let (negative, rest) := splitSign (trimSpace key)
  (((readDecimal rest).map (negateIf negative)).or (other key)).filter (Fits cast ·)

end DuckDB

/-- `strconv.ParseInt` and `strconv.ParseUint`, in base 10 and of 64 bits. -/
def strconvParse (cast : PKCast) (key : List Char) : Option ℤ :=
  match cast with
  | .unset => none
  | .signed =>
      let (negative, digits) := splitSign key
      if isDigits digits && Fits .signed (negateIf negative (digitsVal digits)) then
        some (negateIf negative (digitsVal digits))
      else none
  | .unsigned =>
      if isDigits key && Fits .unsigned (digitsVal key) then some (digitsVal key) else none

/-- `Contains`. -/
def contains (r : PKRange) (key : List Char) : Bool :=
  match strconvParse r.cast key with
  | none => false
  | some v =>
      if intText v ≠ key then false
      else if r.min.any fun lo => decide (v < lo) then false
      else if r.max.any fun hi => decide (hi < v) then false
      else true

/-! ## What the readers have in common -/

/-- A reader of 64-bit integers that reads each one's own text right. -/
structure ReadsIntegers (read : PKCast → List Char → Option ℤ) : Prop where
  fits : ∀ {cast key z}, read cast key = some z → Fits cast z
  canonical : ∀ {cast z}, Fits cast z → read cast (intText z) = some z

theorem splitSign_intText (z : ℤ) :
    splitSign (intText z) = (decide (z < 0), Nat.toDigits 10 z.natAbs) := by
  cases z with
  | ofNat n =>
    have digits := isDigits_toDigits n
    rw [intText, splitSign]
    · rw [decide_eq_false (by simp)]
      rfl
    · exact not_minus_of_isDigits digits
    · rintro rest eq
      rw [eq] at digits
      simp [isDigits] at digits
  | negSucc n =>
    rw [decide_eq_true (Int.negSucc_lt_zero n)]
    rfl

theorem negateIf_natAbs (z : ℤ) : negateIf (decide (z < 0)) z.natAbs = z := by
  unfold negateIf
  split
  next negative =>
    have := of_decide_eq_true negative
    omega
  next positive =>
    have := of_decide_eq_false (Bool.eq_false_iff.mpr positive)
    omega

theorem takeWhile_digits {cs : List Char} (digits : isDigits cs = true) :
    cs.takeWhile Char.isDigit = cs :=
  List.takeWhile_eq_self_iff.mpr (List.all_eq_true.mp (Bool.and_eq_true_iff.mp digits).2)

theorem dropWhile_digits {cs : List Char} (digits : isDigits cs = true) :
    cs.dropWhile Char.isDigit = [] :=
  List.dropWhile_eq_nil_iff.mpr (List.all_eq_true.mp (Bool.and_eq_true_iff.mp digits).2)

/-- Nothing is cut from a text whose first character is kept. -/
theorem dropWhile_of_forall {p : Char → Bool} {cs : List Char} (kept : ∀ c ∈ cs, p c = false) :
    cs.dropWhile p = cs := by
  cases cs with
  | nil => rfl
  | cons c cs => rw [List.dropWhile_cons_of_neg (by simp [kept c (List.mem_cons_self ..)])]

theorem isWhitespace_of_mem_intText {z : ℤ} {c : Char} (member : c ∈ intText z) :
    c.isWhitespace = false := by
  rcases mem_intText member with rfl | digit
  · rfl
  · obtain ⟨low, same⟩ := digitChar_digitVal digit
    rw [← same]
    interval_cases digitVal c <;> rfl

theorem strtoll10_intText (z : ℤ) :
    MySQL.strtoll10 (intText z) =
      if z < 0 then if z < minInt64 then minInt64 else z
      else if maxUint < z then maxUint else z := by
  have digits := isDigits_toDigits z.natAbs
  have blanks : (intText z).dropWhile (fun c => c == ' ' || c == '\t') = intText z := by
    refine dropWhile_of_forall fun c member => ?_
    have solid := isWhitespace_of_mem_intText member
    rw [Bool.or_eq_false_iff, beq_eq_false_iff_ne, beq_eq_false_iff_ne]
    constructor
    · rintro rfl
      cases solid
    · rintro rfl
      cases solid
  simp only [MySQL.strtoll10, blanks, splitSign_intText, takeWhile_digits digits,
    digitsVal_toDigits, decide_eq_true_eq]
  split
  next negative => rw [show -(z.natAbs : ℤ) = z by omega]
  next positive => rw [show (z.natAbs : ℤ) = z by omega]

theorem MySQL.strtoll10_bounds (key : List Char) :
    minInt64 ≤ MySQL.strtoll10 key ∧ MySQL.strtoll10 key ≤ maxUint := by
  unfold MySQL.strtoll10 minInt64 maxUint
  dsimp only
  split_ifs <;> omega

theorem MySQL.readsIntegers : ReadsIntegers MySQL.cast where
  fits {cast key z} read := by
    have bounds := MySQL.strtoll10_bounds key
    unfold minInt64 maxUint at bounds
    cases cast with
    | unset => cases read
    | signed =>
      rw [← Option.some.inj read, Fits]
      unfold minInt64 maxInt64
      split <;> omega
    | unsigned =>
      rw [← Option.some.inj read, Fits]
      unfold maxUint
      split <;> omega
  canonical {cast z} fits := by
    have text := strtoll10_intText z
    unfold minInt64 maxUint at text
    cases cast with
    | unset => cases fits
    | signed =>
      rw [Fits, minInt64, maxInt64] at fits
      rw [MySQL.cast, text, maxInt64, Option.some.injEq]
      split_ifs <;> omega
    | unsigned =>
      rw [Fits, maxUint] at fits
      rw [MySQL.cast, text, Option.some.injEq]
      split_ifs <;> omega

theorem DuckDB.readDecimal_digits {cs : List Char} (digits : isDigits cs = true) :
    DuckDB.readDecimal cs = some (digitsVal cs) := by
  have some_ : cs.isEmpty = false := by
    rw [isDigits, Bool.and_eq_true, Bool.not_eq_true'] at digits
    exact digits.1
  simp [DuckDB.readDecimal, takeWhile_digits digits, dropWhile_digits digits, DuckDB.splitFraction,
    DuckDB.readExponent, DuckDB.scaled, some_]

theorem DuckDB.readsIntegers (other : List Char → Option ℤ) :
    ReadsIntegers (DuckDB.tryCast other) where
  fits {cast key z} read := by
    have passed := (Option.filter_eq_some_iff.mp read).2
    exact of_decide_eq_true passed
  canonical {cast z} fits := by
    have trimmed : DuckDB.trimSpace (intText z) = intText z := by
      have solid := fun c (member : c ∈ intText z) => isWhitespace_of_mem_intText member
      rw [DuckDB.trimSpace, dropWhile_of_forall solid,
        dropWhile_of_forall fun c member => solid c (List.mem_reverse.mp member),
        List.reverse_reverse]
    simp only [DuckDB.tryCast, trimmed, splitSign_intText,
      DuckDB.readDecimal_digits (isDigits_toDigits _), digitsVal_toDigits, Option.map_some,
      negateIf_natAbs, Option.some_or]
    rw [Option.filter_some, if_pos (decide_eq_true fits)]

theorem strconv_readsIntegers : ReadsIntegers strconvParse where
  fits {cast key z} read := by
    cases cast with
    | unset => cases read
    | signed | unsigned =>
      simp only [strconvParse, Option.ite_none_right_eq_some, Option.some.injEq,
        Bool.and_eq_true, decide_eq_true_eq] at read
      exact read.2 ▸ read.1.2
  canonical {cast z} fits := by
    cases cast with
    | unset => cases fits
    | signed =>
      simp only [strconvParse, splitSign_intText, digitsVal_toDigits, negateIf_natAbs,
        isDigits_toDigits, fits, decide_true, Bool.and_self, if_true]
    | unsigned =>
      obtain ⟨n, rfl⟩ := Int.eq_ofNat_of_zero_le fits.1
      have text : intText (n : ℤ) = Nat.toDigits 10 n := rfl
      simp only [strconvParse, text, digitsVal_toDigits, isDigits_toDigits, fits, decide_true,
        Bool.and_self, if_true]

/-! ## The ranges agree -/

/-- The canonical texts of the range. -/
def Canonical (r : PKRange) (key : List Char) : Prop :=
  ∃ z, Fits r.cast z ∧ key = intText z ∧ (∀ lo ∈ r.min, lo ≤ z) ∧ ∀ hi ∈ r.max, z ≤ hi

/-- A round trip admits the canonical texts of the width, whatever else the reader makes of a
text. -/
theorem ReadsIntegers.roundTrip_iff {read : PKCast → List Char → Option ℤ}
    (reads : ReadsIntegers read) {cast : PKCast} {key : List Char} {z : ℤ} :
    read cast key = some z ∧ intText z = key ↔ Fits cast z ∧ key = intText z := by
  constructor
  · rintro ⟨value, same⟩
    exact ⟨reads.fits value, same.symm⟩
  · rintro ⟨fits, rfl⟩
    exact ⟨reads.canonical fits, rfl⟩

theorem selects_iff {read : PKCast → List Char → Option ℤ} (reads : ReadsIntegers read)
    (r : PKRange) (key : List Char) : selects read r key = true ↔ Canonical r key := by
  unfold selects castPredicates
  split
  next unset =>
    refine iff_of_false (by simp [Pred.holds]) ?_
    rintro ⟨z, fits, -⟩
    rw [unset] at fits
    exact fits
  next =>
    have parts : ([Pred.roundTrip r.cast] ++ (r.min.map (Pred.atLeast r.cast)).toList ++
        (r.max.map (Pred.atMost r.cast)).toList).all (Pred.holds read key) = true ↔
        ∃ z, (read r.cast key = some z ∧ intText z = key) ∧ (∀ lo ∈ r.min, lo ≤ z) ∧
          ∀ hi ∈ r.max, z ≤ hi := by
      cases value : read r.cast key with
      | none => simp [Pred.holds, value]
      | some v => cases low : r.min <;> cases high : r.max <;> simp [Pred.holds, value, and_assoc]
    rw [parts]
    refine exists_congr fun z => ?_
    rw [reads.roundTrip_iff, and_assoc]

theorem contains_iff (r : PKRange) (key : List Char) :
    r.contains key = true ↔ Canonical r key := by
  have parts : r.contains key = true ↔ ∃ z, (strconvParse r.cast key = some z ∧ intText z = key) ∧
      (∀ lo ∈ r.min, lo ≤ z) ∧ ∀ hi ∈ r.max, z ≤ hi := by
    unfold contains
    cases value : strconvParse r.cast key with
    | none => simp
    | some v => cases low : r.min <;> cases high : r.max <;> simp [and_assoc]
  rw [parts]
  refine exists_congr fun z => ?_
  rw [strconv_readsIntegers.roundTrip_iff, and_assoc]

/-- A range that passes its check is the same set of key texts in the live index, in the archives
and in the buffer: the canonical texts of its width between its bounds. -/
theorem range_agrees (other : List Char → Option ℤ) (r : PKRange) (valid : r.validate = none)
    (key : List Char) :
    selects MySQL.cast r key = r.contains key ∧
      selects (DuckDB.tryCast other) r key = r.contains key ∧
      (r.contains key = true ↔ r.cast ≠ .unset ∧ Canonical r key) := by
  refine ⟨?_, ?_, ?_⟩
  · rw [Bool.eq_iff_iff, selects_iff MySQL.readsIntegers, contains_iff]
  · rw [Bool.eq_iff_iff, selects_iff (DuckDB.readsIntegers other), contains_iff]
  · rw [contains_iff]
    exact (and_iff_right (cast_ne_unset valid)).symm

/-- A key of a DECIMAL column that became an integer column: both engines read 2 and no place
keeps it. -/
theorem decimalKey_agrees :
    let r : PKRange := { cast := .signed, min := some (-5), max := some 9 }
    r.validate = none ∧ MySQL.cast .signed "2.00".toList = some 2 ∧
      DuckDB.tryCast (fun _ => none) .signed "1.50".toList = some 2 ∧
      selects MySQL.cast r "2.00".toList = r.contains "2.00".toList ∧
      selects (DuckDB.tryCast fun _ => none) r "2.00".toList = r.contains "2.00".toList ∧
      r.contains "2.00".toList = false ∧ r.contains "-5".toList = true := by
  have agrees := range_agrees (fun _ => none)
    { cast := .signed, min := some (-5), max := some 9 } rfl "2.00".toList
  exact ⟨rfl, by decide, by decide, agrees.1, agrees.2.1, by decide, by decide⟩

end PKRange

end Dbtrail
