import Dbtrail.Event.PKValues
import Dbtrail.Lib.Checked

/-!
# The stored spelling of a typed key

A person types a key as text, and `indexPKSpelling` rewrites it to the text the index stores for
that row: the components of a BINARY column from hex of any case and with any zero padding, and
those of MariaDB's UUID, INET4 and INET6 columns from their address text. What it has to give is
`buildPKValues`.

It takes the typed key apart at every pipe, escaped ones included, and it does not escape a BINARY
component it decoded. `indexPKSpelling_iff` says for which keys that does no harm. `parseAddr` is
`netip.ParseAddr`, of an address without a zone, as 16 bytes.
-/

namespace Dbtrail.PKValues

open List

/-! ## Hex -/

def hexVal (c : UInt8) : Option UInt8 :=
  if 48 ≤ c ∧ c ≤ 57 then some (c - 48)
  else if 65 ≤ c ∧ c ≤ 70 then some (c - 55)
  else if 97 ≤ c ∧ c ≤ 102 then some (c - 87)
  else none

/-- `hex.DecodeString`. -/
def hexDecode : Bytes → Option Bytes
  | [] => some []
  | [_] => none
  | c :: d :: rest =>
      match hexVal c, hexVal d, hexDecode rest with
      | some h, some l, some b => some ((h <<< 4 ||| l) :: b)
      | _, _, _ => none

theorem hexVal_hexDigit : ∀ x : UInt8, hexVal (hexDigit (x >>> 4)) = some (x >>> 4) ∧
    hexVal (hexDigit (x &&& 15)) = some (x &&& 15) ∧ (x >>> 4) <<< 4 ||| (x &&& 15) = x := by
  decide +kernel

theorem hexDecode_hexUpper (b : Bytes) : hexDecode (hexUpper b) = some b := by
  induction b with
  | nil => rfl
  | cons x b ih =>
    obtain ⟨high, low, whole⟩ := hexVal_hexDigit x
    have rest : hexUpper (x :: b) = hexDigit (x >>> 4) :: hexDigit (x &&& 15) :: hexUpper b := rfl
    rw [rest, hexDecode, high, low, ih]
    simp only [whole]

theorem length_hexUpper (b : Bytes) : (hexUpper b).length = 2 * b.length := by
  induction b with
  | nil => rfl
  | cons x b ih =>
    change (hexUpper b).length + 1 + 1 = _
    rw [ih, length_cons]
    omega

/-! ## Stored components -/

def trimFixedBinaryPad (b : Bytes) : Bytes := b.rdropWhile (· == 0)

def decodeHexPKLiteral (s : Bytes) : Option Bytes :=
  if s.length < 4 ∨ s.length % 2 ≠ 0 ∨ s.take 2 ≠ [48, 120] then none else hexDecode (s.drop 2)

inductive FixedType : Type where
  | uuid
  | inet4
  | inet6
  deriving DecidableEq, Repr

/-- `MariaDBFixedWidth`. -/
def FixedType.width : FixedType → ℕ
  | .inet4 => 4
  | _ => 16

/-- What the type of a key column is to the code. -/
inductive KeyType : Type where
  | other
  | binary
  | fixed (type : FixedType)
  deriving DecidableEq, Repr

/-- One component of a row's key: a value of an integer or text column, which the index shows as
`shown`, the bytes of a BINARY column without their zero padding, or all the bytes of a UUID,
INET4 or INET6. Bytes of a BINARY column that read as hex text are left out. -/
inductive Component : Type where
  | other (shown : Bytes)
  | binary (raw : Bytes) (trimmed : trimFixedBinaryPad raw = raw)
      (notHex : decodeHexPKLiteral raw = none)
  | fixed (type : FixedType) (b : Bytes) (full : b.length = type.width)

namespace Component

def type : Component → KeyType
  | .other _ => .other
  | .binary .. => .binary
  | .fixed type .. => .fixed type

/-- `formatPKValue`. -/
def format : Component → Bytes
  | .other shown => shown
  | .binary raw .. => formatBytes raw
  | .fixed _ b _ => formatBytes b

def stored (c : Component) : Bytes := escapePKValue c.format

end Component

def buildPKValues (key : List Component) : Bytes := joinPKValues (key.map Component.format)

/-! ## Re-spelling -/

/-- `strings.Split` by a byte. -/
def splitByte (sep : UInt8) : Bytes → List Bytes
  | [] => [[]]
  | c :: s => if c = sep then [] :: splitByte sep s else (splitByte sep s).modifyHead (c :: ·)

def parseInet4Part (p : Bytes) : Option UInt8 :=
  if p.length = 0 ∨ 3 < p.length ∨ p.any (!SQL.isDigit ·) then none
  else
    let n := p.foldl (fun n c => 10 * n + (c.toNat - 48)) 0
    if 255 < n then none else some (UInt8.ofNat n)

section Spelling

variable (parseAddr : Bytes → Option Bytes)

def parseMariaDBFixed (type : FixedType) (s : Bytes) : Option Bytes :=
  match type with
  | .uuid =>
      if s = [] ∨ s.head? = some 45 ∨ s.getLast? = some 45 then none
      else (hexDecode (replaceAll 45 [] s)).filter (·.length == 16)
  | .inet4 => if (splitByte 46 s).length ≠ 4 then none else (splitByte 46 s).mapM parseInet4Part
  | .inet6 => parseAddr s

def parseMariaDBFixedKey (type : FixedType) (s : Bytes) : Option Bytes :=
  if s.take 2 = [48, 120] ∨ s.take 2 = [48, 88] then
    (hexDecode (s.drop 2)).filter (·.length == type.width)
  else parseMariaDBFixed parseAddr type s

/-- What the loop of `IndexPKSpelling` makes of one component. -/
def respell (type : KeyType) (part : Bytes) : Bytes :=
  match type with
  | .fixed type =>
      match parseMariaDBFixedKey parseAddr type part with
      | some b => escapePKValue (formatBytes b)
      | none => part
  | .binary =>
      match decodeHexPKLiteral part with
      | some raw => formatBytes (trimFixedBinaryPad raw)
      | none => part
  | .other => part

def indexPKSpelling (pk : Bytes) (types : List KeyType) : Bytes :=
  if pk = [] ∨ types = [] then pk
  else if (splitByte 124 pk).length ≠ types.length then pk
  else
    let spelled := List.zipWith (respell parseAddr) types (splitByte 124 pk)
    if spelled = splitByte 124 pk then pk else SQL.join [124] spelled

/-- A text is an accepted spelling of a component: the stored one, for a BINARY column also hex,
and for a MariaDB type whatever its parser takes for these bytes. -/
def Spells (c : Component) (typed : Bytes) : Prop :=
  typed = c.stored ∨
    match c with
    | .other _ => False
    | .binary raw .. => (decodeHexPKLiteral typed).map trimFixedBinaryPad = some raw
    | .fixed type b _ => parseMariaDBFixedKey parseAddr type typed = some b

/-- A byte the stored spelling escapes. -/
def Special (b : Bytes) : Prop := 92 ∈ b ∨ 124 ∈ b

instance (b : Bytes) : Decidable (Special b) := inferInstanceAs (Decidable (_ ∨ _))

/-- What a component has to be for its spelling to be re-spelled right: a BINARY value given in
hex holds no pipe or backslash in valid UTF-8, and the stored spelling of a MariaDB type does not
read as another value of the type. -/
def Respelled (c : Component) (typed : Bytes) : Prop :=
  match c with
  | .other _ => True
  | .binary raw .. =>
      decodeHexPKLiteral typed ≠ none → Utf8.valid raw = true → ¬Special raw
  | .fixed type b _ =>
      ∀ other, parseMariaDBFixedKey parseAddr type typed = some other → other = b

end Spelling

/-! ## Taking a key apart -/

theorem length_splitByte (sep : UInt8) (s : Bytes) :
    (splitByte sep s).length = s.count sep + 1 := by
  induction s with
  | nil => rfl
  | cons c s ih =>
    rw [splitByte, count_cons]
    split
    next same => simp [ih, same]
    next other => simp [ih, other]

variable {sep : UInt8} {x : Bytes}

theorem splitByte_append (whole : sep ∉ x) (s : Bytes) :
    splitByte sep (x ++ sep :: s) = x :: splitByte sep s := by
  induction x with
  | nil => simp [splitByte]
  | cons c x ih =>
    rw [mem_cons, not_or] at whole
    rw [cons_append, splitByte, if_neg (Ne.symm whole.1), ih whole.2]
    rfl

theorem splitByte_of_not_mem (whole : sep ∉ x) : splitByte sep x = [x] := by
  induction x with
  | nil => rfl
  | cons c x ih =>
    rw [mem_cons, not_or] at whole
    rw [splitByte, if_neg (Ne.symm whole.1), ih whole.2]
    rfl

variable {parts : List Bytes}

theorem splitByte_join (some_ : parts ≠ []) (whole : ∀ p ∈ parts, sep ∉ p) :
    splitByte sep (SQL.join [sep] parts) = parts := by
  induction parts with
  | nil => exact absurd rfl some_
  | cons p parts ih =>
    have first := whole p (mem_cons_self ..)
    cases parts with
    | nil => exact splitByte_of_not_mem first
    | cons q parts =>
      rw [SQL.join, append_assoc, singleton_append, splitByte_append first,
        ih (cons_ne_nil q parts) fun x member => whole x (mem_cons_of_mem _ member)]

/-- A component with a pipe in it makes one component more. -/
theorem count_join (sep : UInt8) (some_ : parts ≠ []) :
    (SQL.join [sep] parts).count sep + 1 = (parts.map (·.count sep)).sum + parts.length := by
  induction parts with
  | nil => exact absurd rfl some_
  | cons p parts ih =>
    cases parts with
    | nil => simp [SQL.join]
    | cons q parts =>
      have rest := ih (cons_ne_nil q parts)
      rw [SQL.join, count_append, count_append, map_cons, sum_cons,
        length_cons, count_singleton_self]
      omega

theorem length_splitByte_join {p : Bytes} (member : p ∈ parts) (cut : sep ∈ p) :
    (splitByte sep (SQL.join [sep] parts)).length ≠ parts.length := by
  have total := count_join sep (ne_nil_of_mem member)
  have one : 0 < (parts.map (·.count sep)).sum :=
    lt_of_lt_of_le (count_pos_iff.mpr cut)
      (single_le_sum (fun _ _ => Nat.zero_le _) _ (mem_map_of_mem member))
  rw [length_splitByte]
  omega

/-! ## Keys that differ -/

/-- What may follow a component. -/
def Follows (u : Bytes) : Prop := u = [] ∨ u.head? = some 124

/-- Two spellings of a component that no key can hide behind what follows them. -/
def Apart (x y : Bytes) : Prop := ∀ u v, Follows u → Follows v → x ++ u ≠ y ++ v

theorem join_cons (x : Bytes) (parts : List Bytes) :
    ∃ u, Follows u ∧ SQL.join [124] (x :: parts) = x ++ u ∧
      (parts ≠ [] → u = 124 :: SQL.join [124] parts) := by
  cases parts with
  | nil => exact ⟨[], .inl rfl, (append_nil x).symm, fun no => absurd rfl no⟩
  | cons y parts =>
    exact ⟨124 :: SQL.join [124] (y :: parts), .inr rfl, by rw [SQL.join]; simp, fun _ => rfl⟩

/-- Two keys whose components are equal or apart are equal only if all components are. -/
theorem join_eq_iff {xs ys : List Bytes}
    (each : List.Forall₂ (fun x y => x = y ∨ Apart x y) xs ys) :
    SQL.join [124] xs = SQL.join [124] ys ↔ xs = ys := by
  refine ⟨fun same => ?_, congrArg _⟩
  induction each with
  | nil => rfl
  | @cons x y xs ys first rest ih =>
    obtain ⟨u, follows, left, next_⟩ := join_cons x xs
    obtain ⟨v, follows', right, next'⟩ := join_cons y ys
    rw [left, right] at same
    rcases first with rfl | apart
    · have tails := append_cancel_left same
      cases rest with
      | nil => rfl
      | cons _ _ =>
        rw [next_ (cons_ne_nil _ _), next' (cons_ne_nil _ _)] at tails
        rw [ih (cons.inj tails).2]
    · exact absurd same (apart u v follows follows')

theorem not_follows_backslash {s : Bytes} : ¬Follows (92 :: s) := by
  rintro (none_ | pipe)
  · cases none_
  · cases pipe

/-- A run of backslashes is longer in the escaped text. -/
theorem ne_of_backslash (raw : Bytes) {u v : Bytes} (follows : Follows u) :
    ∀ k, raw ++ u ≠ List.replicate (k + 1) 92 ++ (escapePKValue raw ++ v) := by
  induction raw with
  | nil =>
    intro k same
    rw [nil_append, replicate_succ, cons_append] at same
    rw [same] at follows
    exact not_follows_backslash follows
  | cons c raw ih =>
    intro k same
    rw [escapePKValue_cons, cons_append, replicate_succ, cons_append,
      cons.injEq] at same
    obtain ⟨rfl, rest⟩ := same
    refine ih (k + 1) (rest.trans ?_)
    simp [escapeByte, replicate_succ', append_assoc]

/-- A value with a byte to escape and its escaped text are apart. -/
theorem apart_escapePKValue {raw : Bytes} (special : Special raw) :
    Apart raw (escapePKValue raw) := by
  intro u v follows follows'
  induction raw with
  | nil => rcases special with h | h <;> cases h
  | cons c raw ih =>
    rw [escapePKValue_cons]
    unfold escapeByte
    split
    next backslash =>
      subst backslash
      intro same
      rw [cons_append, append_assoc, cons_append, cons.injEq] at same
      exact ne_of_backslash raw follows 0 same.2
    next notBackslash =>
      split
      next pipe =>
        intro same
        rw [cons_append, append_assoc, cons_append, cons.injEq] at same
        exact notBackslash same.1
      next notPipe =>
        have rest : Special raw :=
          special.imp (fun m => (mem_cons.mp m).resolve_left (Ne.symm notBackslash))
            fun m => (mem_cons.mp m).resolve_left (Ne.symm notPipe)
        intro same
        rw [cons_append, append_assoc, cons_append, cons.injEq] at same
        exact ih rest same.2

theorem head?_splitFrom {u : Bytes} (follows : Follows u) (cur : Bytes) :
    (splitFrom cur u).head? = some cur := by
  cases u with
  | nil => rfl
  | cons c u =>
    obtain rfl : c = 124 := by simpa [Follows] using follows
    rw [splitFrom_pipe]
    rfl

/-- Two escaped values are equal or apart. -/
theorem escapePKValue_apart {y : Bytes} (differ : x ≠ y) :
    Apart (escapePKValue x) (escapePKValue y) := by
  intro u v follows follows' same
  have heads := congrArg (fun s => (splitFrom [] s).head?) same
  simp only [splitFrom_escapePKValue, nil_append, head?_splitFrom follows,
    head?_splitFrom follows', Option.some.injEq] at heads
  exact differ heads

/-! ## One component -/

variable {b : Bytes}

theorem escapePKValue_eq_self (plain : ¬Special b) : escapePKValue b = b := by
  induction b with
  | nil => rfl
  | cons c b ih =>
    rw [Special, mem_cons, mem_cons] at plain
    push Not at plain
    rw [escapePKValue_cons, escapeByte, if_neg (Ne.symm plain.1.1), if_neg (Ne.symm plain.2.1),
      ih (not_or.mpr ⟨plain.1.2, plain.2.2⟩), singleton_append]

theorem special_escapePKValue (special : Special b) : Special (escapePKValue b) := by
  by_contra plain
  have back := splitFrom_escapePKValue [] b []
  rw [append_nil, nil_append] at back
  have same := splitFrom_escapePKValue [] (escapePKValue b) []
  rw [escapePKValue_eq_self plain, append_nil, nil_append, back] at same
  have eq : b = escapePKValue b := (cons.inj same).1
  exact plain (eq ▸ special)

theorem hexVal_none : hexVal 92 = none ∧ hexVal 124 = none := by
  decide

theorem hexDecode_plain {s : Bytes} (decoded : hexDecode s = some b) : ¬Special s := by
  induction s using hexDecode.induct generalizing b with
  | case1 => simp [Special]
  | case2 c => cases decoded
  | case3 c d rest h l b' restDecoded low high ih =>
    have plain := ih restDecoded
    have digit {x v : UInt8} (value : hexVal x = some v) : 92 ≠ x ∧ 124 ≠ x := by
      constructor
      · rintro rfl
        cases hexVal_none.1.symm.trans value
      · rintro rfl
        cases hexVal_none.2.symm.trans value
    rw [Special, not_or] at plain ⊢
    simp [digit high, digit low, plain]
  | case4 c d rest other =>
    rw [hexDecode] at decoded
    split at decoded
    next h l b' high low restDecoded => exact absurd restDecoded (other h l b' high low)
    next => cases decoded

theorem decodeHexPKLiteral_plain {s : Bytes} (decoded : decodeHexPKLiteral s = some b) :
    ¬Special s := by
  unfold decodeHexPKLiteral at decoded
  split at decoded
  next => cases decoded
  next literal =>
    push Not at literal
    have rest := hexDecode_plain decoded
    rw [← take_append_drop 2 s, literal.2.2]
    simpa [Special] using rest

/-- The stored spelling of bytes that are no UTF-8. -/
theorem decode_formatBytes (notText : Utf8.valid b = false) :
    decodeHexPKLiteral (formatBytes b) = some b := by
  have some_ : 0 < b.length := by
    rw [length_pos_iff]
    rintro rfl
    cases notText
  have length := length_hexUpper b
  unfold formatBytes
  rw [notText, if_neg Bool.false_ne_true, decodeHexPKLiteral, if_neg]
  · exact hexDecode_hexUpper b
  · rw [length_append, length_cons, length_singleton]
    push Not
    exact ⟨by omega, by omega, rfl⟩

theorem length_formatBytes (b : Bytes) :
    (formatBytes b).length = if Utf8.valid b then b.length else 2 + 2 * b.length := by
  unfold formatBytes
  split
  · rfl
  · rw [length_append, length_hexUpper]
    rfl

theorem formatBytes_injOn {a : Bytes} (width : a.length = b.length)
    (same : formatBytes a = formatBytes b) : a = b := by
  have lengths := congrArg length same
  rw [length_formatBytes, length_formatBytes, width] at lengths
  cases left : Utf8.valid a with
  | true =>
    have right : Utf8.valid b = true := by
      by_contra notText
      rw [left, if_pos rfl, if_neg notText] at lengths
      omega
    simpa only [formatBytes, left, right, if_true] using same
  | false =>
    have right : Utf8.valid b = false := by
      by_contra text
      rw [left, if_neg Bool.false_ne_true, if_pos (Bool.not_eq_false _ ▸ text)] at lengths
      omega
    have decoded := decode_formatBytes left
    rw [same, decode_formatBytes right] at decoded
    exact (Option.some.inj decoded).symm

theorem escapePKValue_formatBytes (plain : Utf8.valid b = true → ¬Special b) :
    escapePKValue (formatBytes b) = formatBytes b := by
  cases text : Utf8.valid b with
  | true =>
    rw [formatBytes, if_pos text]
    exact escapePKValue_eq_self (plain text)
  | false => exact escapePKValue_eq_self (decodeHexPKLiteral_plain (decode_formatBytes text))

/-- The hex a stored BINARY component is typed in, or reads as, is of its own bytes. -/
theorem trim_of_spells {parseAddr : Bytes → Option Bytes} {raw typed : Bytes}
    {trimmed : trimFixedBinaryPad raw = raw} {notHex : decodeHexPKLiteral raw = none}
    (spells : Spells parseAddr (.binary raw trimmed notHex) typed)
    (decoded : decodeHexPKLiteral typed = some x) : trimFixedBinaryPad x = raw := by
  rcases spells with stored | hex
  · rw [Component.stored, Component.format] at stored
    cases text : Utf8.valid raw with
    | true =>
      rw [formatBytes, if_pos text] at stored
      have plain : ¬Special raw := fun special =>
        decodeHexPKLiteral_plain decoded (stored ▸ special_escapePKValue special)
      rw [stored, escapePKValue_eq_self plain, notHex] at decoded
      cases decoded
    | false =>
      have plain := escapePKValue_formatBytes (b := raw) fun valid => nomatch text.symm.trans valid
      rw [stored, plain, decode_formatBytes text] at decoded
      rw [← Option.some.inj decoded, trimmed]
  · dsimp only at hex
    rw [decoded] at hex
    exact Option.some.inj hex

/-- What `netip.ParseAddr` gives: an address, of no empty text. -/
structure ParsesAddr (parseAddr : Bytes → Option Bytes) : Prop where
  width : ∀ {s b}, parseAddr s = some b → b.length = 16
  empty : parseAddr [] = none

section Key

variable {parseAddr : Bytes → Option Bytes}

theorem length_of_parse (addr : ParsesAddr parseAddr) {type : FixedType} {s b : Bytes}
    (parsed : parseMariaDBFixedKey parseAddr type s = some b) : b.length = type.width := by
  unfold parseMariaDBFixedKey parseMariaDBFixed at parsed
  split at parsed
  next => exact eq_of_beq (Option.filter_eq_some_iff.mp parsed).2
  next =>
    cases type with
    | uuid =>
      dsimp only at parsed
      split at parsed
      next => cases parsed
      next => exact eq_of_beq (Option.filter_eq_some_iff.mp parsed).2
    | inet4 =>
      dsimp only at parsed
      split at parsed
      next => cases parsed
      next four => exact (mapM_eq_some_iff.mp parsed).length_eq.symm.trans (not_not.mp four)
    | inet6 => exact addr.width parsed

theorem respell_nil (addr : ParsesAddr parseAddr) (type : KeyType) :
    respell parseAddr type [] = [] := by
  cases type with
  | other | binary => rfl
  | fixed type =>
    cases type with
    | uuid | inet4 => rfl
    | inet6 =>
      unfold respell parseMariaDBFixedKey parseMariaDBFixed
      dsimp only
      rw [if_neg (by decide), addr.empty]

/-- One component is re-spelled right, or the key it is in is not. -/
theorem respell_spec (addr : ParsesAddr parseAddr) {c : Component} {typed : Bytes}
    (spells : Spells parseAddr c typed) :
    (Respelled parseAddr c typed ∧ respell parseAddr c.type typed = c.stored) ∨
      (¬Respelled parseAddr c typed ∧ Apart (respell parseAddr c.type typed) c.stored) := by
  cases c with
  | other shown => exact .inl ⟨trivial, spells.resolve_right id⟩
  | binary raw trimmed notHex =>
    dsimp only [Component.type, respell, Respelled]
    cases decoded : decodeHexPKLiteral typed with
    | none =>
      refine .inl ⟨fun some_ => absurd rfl some_, spells.resolve_right ?_⟩
      dsimp only
      rw [decoded]
      exact nofun
    | some x =>
      dsimp only
      rw [trim_of_spells spells decoded]
      by_cases plain : Utf8.valid raw = true → ¬Special raw
      · exact .inl ⟨fun _ => plain, (escapePKValue_formatBytes plain).symm⟩
      · refine .inr ⟨fun all => plain (all nofun), ?_⟩
        push Not at plain
        rw [Component.stored, Component.format, formatBytes, if_pos plain.1]
        exact apart_escapePKValue plain.2
  | fixed type b full =>
    dsimp only [Component.type, respell, Respelled]
    cases parsed : parseMariaDBFixedKey parseAddr type typed with
    | none =>
      refine .inl ⟨nofun, spells.resolve_right ?_⟩
      dsimp only
      rw [parsed]
      exact nofun
    | some other =>
      dsimp only
      by_cases same : other = b
      · subst same
        exact .inl ⟨fun _ eq => (Option.some.inj eq).symm, rfl⟩
      · refine .inr ⟨fun all => same (all other rfl), escapePKValue_apart fun eq => same ?_⟩
        exact formatBytes_injOn ((length_of_parse addr parsed).trans full.symm) eq

/-! ## The key -/

theorem indexPKSpelling_whole (addr : ParsesAddr parseAddr) {types : List KeyType}
    {parts : List Bytes} (some_ : parts ≠ []) (count : types.length = parts.length)
    (whole : ∀ p ∈ parts, 124 ∉ p) :
    indexPKSpelling parseAddr (SQL.join [124] parts) types =
      SQL.join [124] (List.zipWith (respell parseAddr) types parts) := by
  have split := splitByte_join some_ whole
  have typed : types ≠ [] := by
    rintro rfl
    exact some_ (eq_nil_of_length_eq_zero count.symm)
  unfold indexPKSpelling
  rw [split]
  by_cases empty : SQL.join [124] parts = []
  · rw [if_pos (.inl empty)]
    rw [empty] at split
    obtain rfl : parts = [[]] := split.symm
    obtain ⟨type, rfl⟩ := length_eq_one_iff.mp count
    simp [SQL.join, respell_nil addr]
  · rw [if_neg (not_or.mpr ⟨empty, typed⟩), if_neg (not_not.mpr count.symm)]
    dsimp only
    split
    next same => rw [same]
    next => rfl

theorem indexPKSpelling_cut {types : List KeyType} {parts : List Bytes} {p : Bytes}
    (count : types.length = parts.length) (member : p ∈ parts) (cut : 124 ∈ p) :
    indexPKSpelling parseAddr (SQL.join [124] parts) types = SQL.join [124] parts := by
  unfold indexPKSpelling
  rw [count, if_pos (length_splitByte_join member cut), ite_self]

theorem zipWith_respell_apart (addr : ParsesAddr parseAddr) {key : List Component}
    {typed : List Bytes} (spelled : List.Forall₂ (Spells parseAddr) key typed) :
    List.Forall₂ (fun x y => x = y ∨ Apart x y)
      (List.zipWith (respell parseAddr) (key.map Component.type) typed)
      (key.map (escapePKValue ∘ Component.format)) := by
  induction spelled with
  | nil => exact List.Forall₂.nil
  | cons first rest ih =>
    exact List.Forall₂.cons ((respell_spec addr first).imp And.right And.right) ih

theorem zipWith_respell_iff (addr : ParsesAddr parseAddr) {key : List Component}
    {typed : List Bytes} (spelled : List.Forall₂ (Spells parseAddr) key typed) :
    List.zipWith (respell parseAddr) (key.map Component.type) typed =
        key.map (escapePKValue ∘ Component.format) ↔
      List.Forall₂ (Respelled parseAddr) key typed := by
  induction spelled with
  | nil => exact iff_of_true rfl List.Forall₂.nil
  | cons first rest ih =>
    rw [map_cons, map_cons, zipWith_cons_cons, cons.injEq, ih,
      forall₂_cons, and_congr_left_iff]
    intro _
    rcases respell_spec addr first with ⟨right, same⟩ | ⟨wrong, apart⟩
    · exact iff_of_true same right
    · refine iff_of_false (fun same => ?_) wrong
      have differ := apart [] [] (.inl rfl) (.inl rfl)
      rw [append_nil, append_nil] at differ
      exact differ same

/-- A key typed in any accepted spelling of its components comes out as the index stores it
exactly when either no component as typed holds a pipe and each of them is re-spelled right, or
one does and the key was typed as it is stored. -/
theorem indexPKSpelling_iff (addr : ParsesAddr parseAddr) (key : List Component)
    (some_ : key ≠ []) (typed : List Bytes)
    (spelled : List.Forall₂ (Spells parseAddr) key typed) :
    indexPKSpelling parseAddr (SQL.join [124] typed) (key.map Component.type) =
        buildPKValues key ↔
      if ∃ t ∈ typed, 124 ∈ t then SQL.join [124] typed = buildPKValues key
      else List.Forall₂ (Respelled parseAddr) key typed := by
  have count : (key.map Component.type).length = typed.length :=
    (length_map _).trans spelled.length_eq
  split
  next cut =>
    obtain ⟨t, member, pipe⟩ := cut
    rw [indexPKSpelling_cut count member pipe]
  next whole =>
    push Not at whole
    have typedSome : typed ≠ [] := fun none_ =>
      some_ (eq_nil_of_length_eq_zero (spelled.length_eq.trans (by rw [none_]; rfl)))
    rw [indexPKSpelling_whole addr typedSome count whole, buildPKValues, joinPKValues,
      map_map, join_eq_iff]
    · exact zipWith_respell_iff addr spelled
    · exact zipWith_respell_apart addr spelled

end Key

/-- The bytes FA CE of a BINARY column, which are no UTF-8. -/
def faceKey : Component := .binary [250, 206] (by decide) (by decide)

/-- The key (FA CE, 7), typed `0xface00|7`. -/
theorem faceKey_spelled :
    indexPKSpelling (fun _ => none) (SQL.join [124] [[48, 120, 102, 97, 99, 101, 48, 48], [55]])
        [.binary, .other] = buildPKValues [faceKey, .other [55]] := by
  have spelled : List.Forall₂ (Spells fun _ => none) [faceKey, .other [55]]
      [[48, 120, 102, 97, 99, 101, 48, 48], [55]] :=
    .cons (.inr rfl) (.cons (.inl rfl) .nil)
  have addr : ParsesAddr fun _ => none := ⟨fun parsed => (nomatch parsed), rfl⟩
  refine (indexPKSpelling_iff addr [faceKey, .other [55]] (cons_ne_nil _ _) _
    spelled).mpr ?_
  rw [if_neg (by decide)]
  exact .cons (fun _ text => absurd text (by decide)) (.cons trivial .nil)

/-- The key (FA CE, a pipe) typed `0xface|\|` is left as typed, and the bytes of a BINARY column
that are one pipe, typed `0x7C`, are spelled as a pipe that is not escaped. -/
theorem pipes_missed :
    indexPKSpelling (fun _ => none) (SQL.join [124] [[48, 120, 102, 97, 99, 101], [92, 124]])
          [.binary, .other] ≠ buildPKValues [faceKey, .other [124]] ∧
      indexPKSpelling (fun _ => none) [48, 120, 55, 67] [.binary] = [124] ∧
      buildPKValues [.binary [124] (by decide) (by decide)] = [92, 124] := by
  decide

end Dbtrail.PKValues
