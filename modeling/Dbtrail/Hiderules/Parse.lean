import Dbtrail.Lib.Checked
import Dbtrail.Lib.Trim

/-!
# Reading and spelling the entries of the hide rules

An operator types one entry a line: `schema.table`, `schema.*`,
`schema.table.column`, with a name in backticks where it holds a dot, a blank or
a star. `splitEntry` reads the parts of an entry and refuses what would match
nothing, `quote` spells a name so that it reads back as itself.

What a rune is (a letter, a blank, its lower case, its folding orbit) is in the
tables of the `unicode` package: `Unicode` has the functions this code calls, and
of their contents only that dots, backticks and blanks are no letters, marks or
format characters.

`splitEntry_ok` is what an accepted entry guarantees of its names, and
`splitEntry_canon` that the canonical spelling of such names reads back.
-/

namespace Dbtrail

open List

/-- The scripts that write some words with joiners. -/
inductive JoinerScript : Type
  | arabic | syriac | nko | mongolian | devanagari | bengali | gurmukhi | gujarati
  | oriya | tamil | telugu | kannada | malayalam | sinhala | khmer | myanmar
  deriving DecidableEq, Repr

/-- The range tables the parser asks about. -/
inductive RangeTable : Type
  | cf
  | inherited
  | letter
  | mn
  | mc
  | script (s : JoinerScript)
  deriving DecidableEq, Repr

def backtick : Char := Char.ofNat 96

/-- A rune that is neither part of a word nor invisible. -/
def PlainRune (is : RangeTable → Char → Bool) (c : Char) : Prop :=
  is .cf c = false ∧ is .inherited c = false ∧ is .letter c = false ∧ is .mn c = false ∧
    is .mc c = false ∧ is (.script .mongolian) c = false

/-- The functions of the `unicode` package, and what is used of its tables. -/
structure Unicode : Type where
  is : RangeTable → Char → Bool
  isSpace : Char → Bool
  toLower : Char → Char
  /-- The least rune of the orbit `SimpleFold` walks from a rune. -/
  orbit : Char → Char
  space_plain : ∀ c, isSpace c = true → PlainRune is c
  dot_plain : PlainRune is '.'
  backtick_plain : PlainRune is backtick
  blank_space : isSpace ' ' = true
  tab_space : isSpace '\t' = true
  dot_space : isSpace '.' = false
  star_space : isSpace '*' = false

variable (u : Unicode)

/-- `strings.TrimSpace`. -/
def Unicode.trimSpace (s : List Char) : List Char := (s.dropWhile u.isSpace).rdropWhile u.isSpace

/-- `strings.ToLower`. -/
def Unicode.lower (s : List Char) : List Char := s.map u.toLower

/-- `strings.EqualFold`. -/
def Unicode.equalFold (a b : List Char) : Bool := a.map u.orbit == b.map u.orbit

/-! ## Invisible characters -/

def joinerScripts : List JoinerScript :=
  [.arabic, .syriac, .nko, .mongolian, .devanagari, .bengali, .gurmukhi, .gujarati,
    .oriya, .tamil, .telugu, .kannada, .malayalam, .sinhala, .khmer, .myanmar]

/-- The joiner script of the nearest letter or mark of a side, read away from the
rune. -/
def joiningScript : List Char → Option JoinerScript
  | [] => none
  | c :: rest =>
      if u.is .inherited c then joiningScript rest
      else if !u.is .letter c && !u.is .mn c && !u.is .mc c then none
      else joinerScripts.find? fun t => u.is (.script t) c

/-- Whether a format character between two sides belongs to a real name. -/
def joinsLetters (left : List Char) (r : Char) (right : List Char) : Bool :=
  if r.toNat = 0x200C ∨ r.toNat = 0x200D then
    (joiningScript u left).isSome && joiningScript u left == joiningScript u right
  else
    decide (r.toNat = 0x180E) && left.head?.any (u.is (.script .mongolian)) &&
      right.head?.any (u.is (.script .mongolian))

/-- The walk of `strayFormatChar`; `left` is what it passed, last rune first. -/
def strayFrom (left : List Char) : List Char → Option Char
  | [] => none
  | r :: rest =>
      if u.is .cf r && !joinsLetters u left r rest then some r else strayFrom (r :: left) rest

/-- The first format character that is not part of a real name. -/
def strayFormatChar (rs : List Char) : Option Char := strayFrom u [] rs

/-! ## Splitting an entry -/

structure Part : Type where
  name : List Char
  quoted : Bool
  deriving DecidableEq, Repr

def Part.wild (p : Part) : Bool := !p.quoted && p.name == ['*']

/-- The refusals of an entry, in the words of their texts. -/
inductive EntryError : Type
  | oneEntryPerLine
  | invisibleCharacter (r : Char)
  | nameEmpty
  | nameWithSpaces
  | starStandsAlone
  | backtickWrapsName
  | backtickNotClosed
  | writeAsTable
  | threeParts
  | schemaWildcard
  | writeAsColumn
  | columnWildcard
  deriving DecidableEq, Repr

structure SplitState : Type where
  parts : List Part := []
  cur : List Char := []
  quoted : Bool := false
  inQuote : Bool := false
  closed : Bool := false
  deriving DecidableEq, Repr

/-- The checks of a name outside backticks. -/
def checkBareName (name : List Char) : Except EntryError Unit :=
  if name = [] then .error .nameEmpty
  else if name.contains ',' then .error .oneEntryPerLine
  else if name.any u.isSpace then .error .nameWithSpaces
  else if name ≠ ['*'] ∧ name.contains '*' then .error .starStandsAlone
  else .ok ()

/-- The end of a part. -/
def SplitState.flush (st : SplitState) : Except EntryError SplitState := do
  if st.quoted then
    if st.cur = [] then .error .nameEmpty
    else return { parts := st.parts ++ [⟨st.cur, true⟩] }
  else
    let name := u.trimSpace st.cur
    checkBareName u name
    return { parts := st.parts ++ [⟨name, false⟩] }

/-- The walk of `splitEntry` over the runes of an entry. -/
def splitLoop (st : SplitState) : List Char → Except EntryError (List Part)
  | [] => do
      if st.inQuote then .error .backtickNotClosed
      let st ← st.flush u
      return st.parts
  | c :: rest =>
      if st.inQuote then
        if c = backtick then
          match rest with
          | d :: rest' =>
              -- a doubled backtick is one of the name
              if d = backtick then splitLoop { st with cur := st.cur ++ [backtick] } rest'
              else splitLoop { st with inQuote := false, closed := true } (d :: rest')
          | [] => splitLoop { st with inQuote := false, closed := true } []
        else splitLoop { st with cur := st.cur ++ [c] } rest
      else if c = backtick then
        if st.quoted || u.trimSpace st.cur != [] then .error .backtickWrapsName
        else splitLoop { st with cur := [], inQuote := true, quoted := true } rest
      else if c = '.' then do
        let st ← st.flush u
        splitLoop st rest
      else if st.closed && (c == ' ' || c == '\t') then splitLoop st rest
      else if st.closed then .error .backtickWrapsName
      else splitLoop { st with cur := st.cur ++ [c] } rest

/-- The parts of one entry. -/
def splitEntry (raw : List Char) : Except EntryError (List Part) :=
  if raw.any fun c => c == '\r' || c == '\n' then .error .oneEntryPerLine
  else
    match strayFormatChar u raw with
    | some r => .error (.invisibleCharacter r)
    | none => splitLoop u {} raw

/-! ## The canonical spelling -/

/-- Whether a name is spelled in backticks. -/
def needsQuote (name : List Char) : Bool :=
  name.any fun c => c == '.' || c == backtick || c == ',' || c == '*' || u.isSpace c

/-- One name the way `splitEntry` reads it back. -/
def quote (name : List Char) (wild : Bool) : List Char :=
  if wild then ['*']
  else if needsQuote u name then
    backtick :: (name.flatMap fun c => if c = backtick then [backtick, backtick] else [c]) ++
      [backtick]
  else name

variable {u} {b : Char} {l rest name : List Char} {st : SplitState}
  {names : List (List Char × Bool)}

/-! ## What a plain rune separates -/

theorem joiningScript_append (plain : PlainRune u.is b) (l r : List Char) :
    joiningScript u (l ++ b :: r) = joiningScript u l := by
  induction l with
  | nil =>
    obtain ⟨-, inherited, letter, mn, mc, -⟩ := plain
    simp [joiningScript, inherited, letter, mn, mc]
  | cons c rest ih =>
    rw [cons_append, joiningScript, joiningScript, ih]

theorem head_any_append {p : Char → Bool} (hb : p b = false) (l r : List Char) :
    (l ++ b :: r).head?.any p = l.head?.any p := by
  cases l with
  | nil => simp [hb]
  | cons c rest => rfl

theorem strayFrom_append_left (plain : PlainRune u.is b) (p x l : List Char) :
    strayFrom u (p ++ b :: x) l = strayFrom u p l := by
  induction l generalizing p with
  | nil => rfl
  | cons c rest ih =>
    have joins : joinsLetters u (p ++ b :: x) c rest = joinsLetters u p c rest := by
      unfold joinsLetters
      rw [joiningScript_append plain, head_any_append plain.2.2.2.2.2]
    rw [strayFrom, strayFrom, joins, ← cons_append, ih (c :: p)]

theorem strayFrom_append (plain : PlainRune u.is b) (p l r : List Char) :
    strayFrom u p (l ++ b :: r) = (strayFrom u p l).or (strayFrom u [] r) := by
  induction l generalizing p with
  | nil =>
    have passed := strayFrom_append_left plain [] p r
    rw [nil_append] at passed
    rw [nil_append, strayFrom, strayFrom, plain.1, passed]
    rfl
  | cons c rest ih =>
    have joins : joinsLetters u p c (rest ++ b :: r) = joinsLetters u p c rest := by
      unfold joinsLetters
      rw [joiningScript_append plain, head_any_append plain.2.2.2.2.2]
    rw [cons_append, strayFrom, strayFrom, joins, ih (c :: p)]
    split <;> rfl

variable (u) in
/-- No rune of the text is invisible where it stands. -/
def CleanText (l : List Char) : Prop := strayFormatChar u l = none

/-- What stands on the two sides of a plain rune is read apart. -/
theorem cleanText_append (plain : PlainRune u.is b) {r : List Char} :
    CleanText u (l ++ b :: r) ↔ CleanText u l ∧ CleanText u r := by
  unfold CleanText strayFormatChar
  rw [strayFrom_append plain, Option.or_eq_none_iff]

theorem cleanText_nil : CleanText u [] := rfl

theorem cleanText_cons (plain : PlainRune u.is b) {r : List Char} :
    CleanText u (b :: r) ↔ CleanText u r := by
  rw [← nil_append (b :: r), cleanText_append plain]
  exact and_iff_right cleanText_nil

theorem CleanText.trimSpace (clean : CleanText u l) : CleanText u (u.trimSpace l) := by
  have left : ∀ l, CleanText u l → CleanText u (l.dropWhile u.isSpace) := by
    intro l clean
    induction l with
    | nil => exact clean
    | cons c rest ih =>
      rw [dropWhile_cons]
      split
      next space => exact ih ((cleanText_cons (u.space_plain c space)).mp clean)
      next => exact clean
  have right : ∀ l, CleanText u l → CleanText u (l.rdropWhile u.isSpace) := by
    intro l clean
    induction l using reverseRecOn with
    | nil => exact clean
    | append_singleton front c ih =>
      rw [rdropWhile_concat]
      split
      next space => exact ih ((cleanText_append (u.space_plain c space)).mp clean).1
      next => exact clean
  exact right _ (left l clean)

/-! ## The names of an accepted entry -/

variable (u) in
/-- What `splitEntry` guarantees of a name. -/
structure GoodName (name : List Char) : Prop where
  nonempty : name ≠ []
  oneLine : ∀ c ∈ name, c ≠ '\r' ∧ c ≠ '\n'
  clean : CleanText u name

variable (u) in
/-- What the walk keeps: the names read so far are good, and so is whatever the
current name becomes. -/
structure SplitInv (st : SplitState) (rest : List Char) : Prop where
  parts : ∀ p ∈ st.parts, GoodName u p.name
  oneLine : ∀ c ∈ st.cur ++ rest, c ≠ '\r' ∧ c ≠ '\n'
  clean : if st.closed then CleanText u st.cur ∧ CleanText u rest else CleanText u (st.cur ++ rest)
  opened : st.inQuote = true → st.closed = false ∧ st.quoted = true
  wrapped : st.closed = true → st.quoted = true

theorem SplitInv.clean_dot (inv : SplitInv u st ('.' :: rest)) :
    CleanText u st.cur ∧ CleanText u rest := by
  have clean := inv.clean
  split at clean
  · exact ⟨clean.1, (cleanText_cons u.dot_plain).mp clean.2⟩
  · exact (cleanText_append u.dot_plain).mp clean

theorem mem_trimSpace {c : Char} (member : c ∈ u.trimSpace l) : c ∈ l :=
  (dropWhile_sublist _).mem (( rdropWhile_prefix _ _).sublist.mem member)

theorem SplitState.flush_good {st' : SplitState} (parts : ∀ p ∈ st.parts, GoodName u p.name)
    (oneLine : ∀ c ∈ st.cur, c ≠ '\r' ∧ c ≠ '\n') (clean : CleanText u st.cur)
    (ok : st.flush u = .ok st') :
    (∀ p ∈ st'.parts, GoodName u p.name) ∧ st' = { parts := st'.parts } := by
  unfold SplitState.flush at ok
  split at ok
  · split at ok
    · cases ok
    · rename_i nonempty
      cases ok
      exact ⟨forall_mem_append.mpr
        ⟨parts, forall_mem_singleton.mpr ⟨nonempty, oneLine, clean⟩⟩, rfl⟩
  · obtain ⟨⟨⟩, checked, ok⟩ := Except.bind_eq_ok ok
    cases ok
    refine ⟨forall_mem_append.mpr ⟨parts, forall_mem_singleton.mpr ⟨fun empty => ?_,
      fun c inName => oneLine c (mem_trimSpace inName), clean.trimSpace⟩⟩, rfl⟩
    dsimp only at empty
    rw [empty] at checked
    cases checked

/-- A rune added to the current name. -/
theorem SplitInv.push {c : Char} (inv : SplitInv u st (c :: rest)) (opened : st.closed = false) :
    SplitInv u { st with cur := st.cur ++ [c] } rest := by
  have clean := inv.clean
  rw [opened] at clean
  refine ⟨inv.parts, ?_, ?_, inv.opened, inv.wrapped⟩
  · simpa using inv.oneLine
  · simpa [opened] using clean

/-- The closing backtick of a name. -/
theorem SplitInv.close (inv : SplitInv u st (backtick :: rest)) (inQuote : st.inQuote = true) :
    SplitInv u { st with inQuote := false, closed := true } rest := by
  have clean := inv.clean
  rw [(inv.opened inQuote).1] at clean
  refine ⟨inv.parts, fun c member => inv.oneLine c ?_, ?_, nofun, fun _ => (inv.opened inQuote).2⟩
  · simp only [mem_append, mem_cons] at member ⊢
    tauto
  · exact (cleanText_append u.backtick_plain).mp clean

/-- The end of a part, at a dot or at the end of the entry. -/
theorem SplitInv.flush {st' : SplitState} (inv : SplitInv u st rest) (clean : CleanText u st.cur)
    (ok : st.flush u = .ok st') {rest' : List Char} (sub : ∀ c ∈ rest', c ∈ rest)
    (cleanRest : CleanText u rest') : SplitInv u st' rest' := by
  obtain ⟨parts, same⟩ := SplitState.flush_good inv.parts
    (fun c member => inv.oneLine c (mem_append_left _ member)) clean ok
  rw [same]
  exact ⟨parts, fun c member => inv.oneLine c (mem_append_right _ (sub c (by simpa using member))),
    cleanRest, nofun, nofun⟩

theorem splitLoop_good {parts : List Part} (inv : SplitInv u st rest)
    (ok : splitLoop u st rest = .ok parts) :
    ∀ p ∈ parts, GoodName u p.name := by
  fun_induction splitLoop u st rest with
  | case1 st => cases ok
  | case2 st =>
    obtain ⟨st', flushed, same⟩ := Except.bind_eq_ok ok
    cases same
    have clean : CleanText u st.cur := by
      have both := inv.clean
      split at both
      · exact both.1
      · simpa using both
    exact (inv.flush clean flushed (fun c member => member) cleanText_nil).parts
  | case3 st inQuote rest ih =>
    have clean := inv.clean
    rw [(inv.opened inQuote).1] at clean
    refine ih ⟨inv.parts, fun c member => inv.oneLine c ?_, ?_, inv.opened, inv.wrapped⟩ ok
    · simp only [mem_append, mem_cons, not_mem_nil, or_false] at member ⊢
      tauto
    · obtain ⟨front, back⟩ := (cleanText_append u.backtick_plain).mp clean
      dsimp only
      rw [(inv.opened inQuote).1, if_neg Bool.false_ne_true, append_assoc]
      exact (cleanText_append u.backtick_plain).mpr
        ⟨front, (cleanText_cons u.backtick_plain).mp back⟩
  | case4 st inQuote d rest _ ih => exact ih (inv.close inQuote) ok
  | case5 st inQuote ih => exact ih (inv.close inQuote) ok
  | case6 st c rest inQuote _ ih => exact ih (inv.push (inv.opened inQuote).1) ok
  | case7 => cases ok
  | case8 st rest _ fresh ih =>
    have opened : st.closed = false := by
      rw [← Bool.not_eq_true]
      intro closed
      exact fresh (by simp [inv.wrapped closed])
    have clean := inv.clean
    rw [opened] at clean
    refine ih ⟨inv.parts, fun c member => inv.oneLine c ?_, ?_, fun _ => ⟨opened, rfl⟩,
      fun _ => rfl⟩ ok
    · exact mem_append_right _ (mem_cons_of_mem _ (by simpa using member))
    · dsimp only
      rw [opened, if_neg Bool.false_ne_true]
      exact ((cleanText_append u.backtick_plain).mp clean).2
  | case9 st rest _ _ ih =>
    obtain ⟨st', flushed, ok⟩ := Except.bind_eq_ok ok
    obtain ⟨clean, cleanRest⟩ := inv.clean_dot
    exact ih st' (inv.flush clean flushed (fun c member => mem_cons_of_mem _ member)
      cleanRest) ok
  | case10 st c rest _ _ _ blank ih =>
    rw [Bool.and_eq_true, Bool.or_eq_true, beq_iff_eq, beq_iff_eq] at blank
    have space : u.isSpace c = true := by
      rcases blank.2 with rfl | rfl
      · exact u.blank_space
      · exact u.tab_space
    have clean := inv.clean
    rw [blank.1] at clean
    refine ih ⟨inv.parts, fun d member => inv.oneLine d ?_, ?_, inv.opened, inv.wrapped⟩ ok
    · simp only [mem_append, mem_cons] at member ⊢
      tauto
    · rw [blank.1]
      exact ⟨clean.1, (cleanText_cons (u.space_plain c space)).mp clean.2⟩
  | case11 => cases ok
  | case12 st c rest _ _ _ _ opened ih => exact ih (inv.push (by simpa using opened)) ok

/-- An accepted entry names only what can be spelled again. -/
theorem splitEntry_ok {raw : List Char} {parts : List Part} (ok : splitEntry u raw = .ok parts) :
    ∀ p ∈ parts, GoodName u p.name := by
  unfold splitEntry at ok
  split at ok
  · cases ok
  · rename_i oneLine
    split at ok
    · cases ok
    · rename_i clean
      have inv : SplitInv u {} raw := by
        refine ⟨nofun, fun c member => ?_, clean, nofun, nofun⟩
        rw [any_eq_true] at oneLine
        push Not at oneLine
        simpa using oneLine c member
      exact splitLoop_good inv ok

/-! ## The canonical spelling reads back -/

/-- The part the canonical spelling of a name reads as. -/
def canonPart (u : Unicode) (name : List Char) (wild : Bool) : Part :=
  if wild then ⟨['*'], false⟩ else ⟨name, needsQuote u name⟩

theorem canonPart_wild (name : List Char) (wild : Bool) :
    (canonPart u name wild).wild = wild := by
  unfold canonPart Part.wild
  cases wild with
  | true => rfl
  | false =>
    cases quoted : needsQuote u name with
    | true => simp
    | false =>
      have notStar : name ≠ ['*'] := by
        rintro rfl
        simp [needsQuote] at quoted
      simpa [quoted] using notStar

theorem canonPart_name {wild : Bool} (star : wild = true → name = ['*']) :
    (canonPart u name wild).name = name := by
  unfold canonPart
  split
  · rename_i isWild
    exact (star isWild).symm
  · rfl

theorem dot_ne_backtick : ('.' : Char) ≠ backtick := by decide

theorem splitLoop_bare (parts : List Part) (cur name rest : List Char)
    (plain : ∀ c ∈ name, c ≠ '.' ∧ c ≠ backtick) :
    splitLoop u { parts := parts, cur := cur } (name ++ rest) =
      splitLoop u { parts := parts, cur := cur ++ name } rest := by
  induction name generalizing cur with
  | nil => simp
  | cons c name ih =>
    obtain ⟨notDot, notTick⟩ := plain c (by simp)
    rw [cons_append, splitLoop.eq_def]
    simp only [Bool.false_eq_true, if_false, notTick, notDot, Bool.false_and]
    rw [ih _ fun d member => plain d (by simp [member]), append_assoc, singleton_append]

theorem splitLoop_quoted (parts : List Part) (cur name rest : List Char)
    (next : rest.head? ≠ some backtick) :
    splitLoop u { parts := parts, cur := cur, quoted := true, inQuote := true }
        ((name.flatMap fun c => if c = backtick then [backtick, backtick] else [c]) ++
          backtick :: rest) =
      splitLoop u { parts := parts, cur := cur ++ name, quoted := true, closed := true } rest := by
  induction name generalizing cur with
  | nil =>
    rw [flatMap_nil, nil_append, append_nil, splitLoop.eq_def]
    cases rest with
    | nil => simp
    | cons d rest =>
      have notTick : d ≠ backtick := by simpa using next
      simp [notTick]
  | cons c name ih =>
    rw [flatMap_cons, append_assoc]
    by_cases tick : c = backtick
    · rw [if_pos tick, cons_append, cons_append, nil_append, splitLoop.eq_def]
      simp only [if_true]
      rw [ih, tick, append_assoc, singleton_append]
    · rw [if_neg tick, singleton_append, splitLoop.eq_def]
      simp only [if_true, tick, if_false]
      rw [ih, append_assoc, singleton_append]

/-- The state behind the spelling of a part. -/
def SplitState.after (parts : List Part) (p : Part) : SplitState :=
  { parts := parts, cur := p.name, quoted := p.quoted, closed := p.quoted }

/-- The spelling of one name, read up to the dot or the end behind it. -/
theorem splitLoop_quote (parts : List Part) (name rest : List Char) (wild : Bool)
    (next : rest.head? ≠ some backtick) :
    splitLoop u { parts := parts } (quote u name wild ++ rest) =
      splitLoop u (SplitState.after parts (canonPart u name wild)) rest := by
  unfold quote canonPart
  cases wild with
  | true =>
    rw [if_pos rfl, if_pos rfl, splitLoop_bare]
    · rfl
    · intro c member
      rw [mem_singleton.mp member]
      decide
  | false =>
    rw [if_neg Bool.false_ne_true, if_neg Bool.false_ne_true]
    cases quoted : needsQuote u name with
    | true =>
      have empty : (u.trimSpace [] != []) = false := rfl
      rw [if_pos rfl, cons_append, cons_append, append_assoc,
        singleton_append, splitLoop.eq_def]
      simp only [Bool.false_eq_true, if_false, if_true, Bool.false_or, empty]
      rw [splitLoop_quoted _ _ _ _ next, nil_append]
      rfl
    | false =>
      rw [if_neg Bool.false_ne_true, splitLoop_bare]
      · rfl
      · intro c member
        unfold needsQuote at quoted
        rw [any_eq_false] at quoted
        have plain := quoted c member
        simp only [Bool.or_eq_true, beq_iff_eq, not_or] at plain
        exact ⟨plain.1.1.1.1, plain.1.1.1.2⟩

theorem trimSpace_of_noSpace (noSpace : name.any u.isSpace = false) : u.trimSpace name = name := by
  rw [any_eq_false] at noSpace
  have left : name.dropWhile u.isSpace = name := by
    rw [dropWhile_eq_self_iff]
    exact fun nonempty => noSpace _ (getElem_mem _)
  have right : name.rdropWhile u.isSpace = name := by
    rw [rdropWhile_eq_self_iff]
    exact fun nonempty => noSpace _ (getLast_mem nonempty)
  rw [Unicode.trimSpace, left, right]

theorem flush_canonPart (parts : List Part) (nonempty : name ≠ []) (wild : Bool) :
    (SplitState.after parts (canonPart u name wild)).flush u =
      .ok { parts := parts ++ [canonPart u name wild] } := by
  have bare : ∀ name : List Char, name.any u.isSpace = false → checkBareName u name = .ok () →
      (SplitState.after parts ⟨name, false⟩).flush u =
        .ok { parts := parts ++ [⟨name, false⟩] } := by
    intro name noSpace checked
    unfold SplitState.flush SplitState.after
    simp only [Bool.false_eq_true, if_false, trimSpace_of_noSpace noSpace, checked]
    rfl
  unfold canonPart
  cases wild with
  | true =>
    rw [if_pos rfl]
    exact bare ['*'] (by simp [u.star_space]) (by simp [checkBareName, u.star_space])
  | false =>
    rw [if_neg Bool.false_ne_true]
    cases quoted : needsQuote u name with
    | true => simp [SplitState.flush, SplitState.after, nonempty, pure, Except.pure]
    | false =>
      unfold needsQuote at quoted
      rw [any_eq_false] at quoted
      have plain : ∀ c ∈ name, c ≠ ',' ∧ c ≠ '*' ∧ ¬ u.isSpace c = true := by
        intro c member
        have apart := quoted c member
        simp only [Bool.or_eq_true, beq_iff_eq, not_or] at apart
        exact ⟨apart.1.1.2, apart.1.2, apart.2⟩
      have noSpace : name.any u.isSpace = false :=
        any_eq_false.mpr fun c member => (plain c member).2.2
      refine bare name noSpace ?_
      have noComma : ',' ∉ name := fun member => (plain _ member).1 rfl
      have noStar : '*' ∉ name := fun member => (plain _ member).2.1 rfl
      simp [checkBareName, nonempty, noComma, noStar, noSpace]

variable (u) in
/-- Names spelled one after the other, with dots between them. -/
def canonEntry : List (List Char × Bool) → List Char
  | [] => []
  | [p] => quote u p.1 p.2
  | p :: q :: rest => quote u p.1 p.2 ++ '.' :: canonEntry (q :: rest)

theorem splitLoop_canon (parts : List Part) (some : names ≠ []) (nonempty : ∀ p ∈ names, p.1 ≠ []) :
    splitLoop u { parts := parts } (canonEntry u names) =
      .ok (parts ++ names.map fun p => canonPart u p.1 p.2) := by
  induction names generalizing parts with
  | nil => exact absurd rfl some
  | cons p rest ih =>
    have named := nonempty p (by simp)
    cases rest with
    | nil =>
      have walked := splitLoop_quote (u := u) parts p.1 [] p.2 (by simp)
      rw [append_nil] at walked
      rw [canonEntry, walked, splitLoop.eq_def]
      simp only [SplitState.after, Bool.false_eq_true, if_false]
      have flushed := flush_canonPart (u := u) parts named p.2
      unfold SplitState.after at flushed
      rw [flushed]
      rfl
    | cons q rest =>
      rw [canonEntry, splitLoop_quote _ _ _ _ (by simp [backtick]), splitLoop.eq_def]
      simp only [SplitState.after, Bool.false_eq_true, if_false, dot_ne_backtick, if_true]
      have flushed := flush_canonPart (u := u) parts named p.2
      unfold SplitState.after at flushed
      rw [flushed]
      have tail := ih (parts ++ [canonPart u p.1 p.2]) (by simp)
        fun r member => nonempty r (by simp [member])
      simp only [bind, Except.bind]
      rw [tail, append_assoc]
      rfl

theorem cleanText_doubled (clean : CleanText u name) :
    CleanText u (name.flatMap fun c => if c = backtick then [backtick, backtick] else [c]) := by
  induction size : name.length using Nat.strong_induction_on generalizing name with
  | _ n ih =>
  by_cases tick : backtick ∈ name
  · obtain ⟨front, back, rfl⟩ := append_of_mem tick
    obtain ⟨cleanFront, cleanBack⟩ := (cleanText_append u.backtick_plain).mp clean
    rw [length_append, length_cons] at size
    have frontDoubled := ih front.length (by omega) cleanFront rfl
    have backDoubled := ih back.length (by omega) cleanBack rfl
    rw [flatMap_append, flatMap_cons, if_pos rfl]
    exact (cleanText_append u.backtick_plain).mpr
      ⟨frontDoubled, (cleanText_cons u.backtick_plain).mpr backDoubled⟩
  · have same : (name.flatMap fun c => if c = backtick then [backtick, backtick] else [c]) =
        name := by
      conv_rhs => rw [← flatMap_singleton' name]
      apply flatMap_congr
      intro c member
      rw [if_neg]
      rintro rfl
      exact tick member
    rw [same]
    exact clean

theorem cleanText_quote {wild : Bool} (clean : CleanText u name)
    (star : wild = true → name = ['*']) : CleanText u (quote u name wild) := by
  unfold quote
  split
  · rename_i isWild
    rwa [← star isWild]
  · split
    · rw [cons_append, cleanText_cons u.backtick_plain, cleanText_append u.backtick_plain]
      exact ⟨cleanText_doubled clean, cleanText_nil⟩
    · exact clean

theorem mem_quote {wild : Bool} {c : Char} (member : c ∈ quote u name wild) :
    c = '*' ∨ c = backtick ∨ c ∈ name := by
  unfold quote at member
  split at member
  · exact .inl (mem_singleton.mp member)
  · split at member
    · simp only [cons_append, mem_cons, mem_append, mem_flatMap,
        not_mem_nil, or_false] at member
      rcases member with tick | ⟨d, inName, spelled⟩ | tick
      · exact .inr (.inl tick)
      · split at spelled
        · simp only [mem_cons, not_mem_nil, or_false, or_self] at spelled
          exact .inr (.inl spelled)
        · rw [mem_singleton] at spelled
          exact .inr (.inr (spelled ▸ inName))
      · exact .inr (.inl tick)
    · exact .inr (.inr member)

theorem canonEntry_good (good : ∀ p ∈ names, GoodName u p.1)
    (star : ∀ p ∈ names, p.2 = true → p.1 = ['*']) :
    CleanText u (canonEntry u names) ∧
      ∀ c ∈ canonEntry u names, c ≠ '\r' ∧ c ≠ '\n' := by
  have quoted : ∀ p ∈ names, ∀ c ∈ quote u p.1 p.2, c ≠ '\r' ∧ c ≠ '\n' := by
    intro p member c inQuote
    rcases mem_quote inQuote with rfl | rfl | inName
    · decide
    · decide
    · exact (good p member).oneLine c inName
  induction names with
  | nil => exact ⟨cleanText_nil, nofun⟩
  | cons p rest ih =>
    have clean := cleanText_quote (good p (by simp)).clean (star p (by simp))
    cases rest with
    | nil => exact ⟨clean, quoted p (by simp)⟩
    | cons q rest =>
      obtain ⟨tailClean, tailLine⟩ := ih (fun r member => good r (by simp [member]))
        (fun r member => star r (by simp [member]))
        (fun r member => quoted r (by simp [member]))
      refine ⟨(cleanText_append u.dot_plain).mpr ⟨clean, tailClean⟩, fun c member => ?_⟩
      rw [canonEntry, mem_append, mem_cons] at member
      rcases member with inQuote | rfl | inTail
      · exact quoted p (by simp) c inQuote
      · decide
      · exact tailLine c inTail

/-- The canonical spelling of good names reads back as those names. -/
theorem splitEntry_canon (names : List (List Char × Bool)) (some : names ≠ [])
    (good : ∀ p ∈ names, GoodName u p.1) (star : ∀ p ∈ names, p.2 = true → p.1 = ['*']) :
    splitEntry u (canonEntry u names) = .ok (names.map fun p => canonPart u p.1 p.2) := by
  obtain ⟨clean, oneLine⟩ := canonEntry_good good star
  have noBreak : (canonEntry u names).any (fun c => c == '\r' || c == '\n') = false := by
    rw [any_eq_false]
    intro c member
    simpa using oneLine c member
  unfold splitEntry
  rw [noBreak, if_neg Bool.false_ne_true, clean]
  exact splitLoop_canon [] some fun p member => (good p member).nonempty

end Dbtrail
