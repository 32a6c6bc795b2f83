import Dbtrail.Lib.Text

/-!
# UTF-8 texts

`isRune` says which byte sequences are one character, `WellFormed` which texts are a
sequence of characters. `valid` decides it as a decoder does, one character at a time, and
`toValid` copies a text with each run of bytes that belong to no character replaced.

A byte that starts a character is never inside one (`runeStart`), so a well formed text may
be cut before any such byte (`WellFormed.take`), and at most three bytes back from any place
there is one (`WellFormed.exists_runeStart`).
-/

namespace Dbtrail.Utf8

open List

/-! ## Characters -/

def between (low high b : UInt8) : Bool := decide (low ≤ b) && decide (b ≤ high)

/-- A byte that continues a character. -/
def isTail (b : UInt8) : Bool := between 0x80 0xBF b

/-- One character: overlong forms, surrogates and values past the last plane are none. -/
def isRune : Bytes → Bool
  | [a] => decide (a < 0x80)
  | [a, b] => between 0xC2 0xDF a && isTail b
  | [a, b, c] =>
      (a == 0xE0 && between 0xA0 0xBF b || between 0xE1 0xEC a && isTail b ||
        a == 0xED && between 0x80 0x9F b || between 0xEE 0xEF a && isTail b) && isTail c
  | [a, b, c, d] =>
      (a == 0xF0 && between 0x90 0xBF b || between 0xF1 0xF3 a && isTail b ||
        a == 0xF4 && between 0x80 0x8F b) && isTail c && isTail d
  | _ => false

/-- `utf8.RuneStart`. -/
def runeStart (b : UInt8) : Bool := b &&& 0xC0 != 0x80

/-- The width of the character a text starts with, 0 where it starts with none. -/
def runeWidth (s : Bytes) : ℕ :=
  if isRune (s.take 1) then 1
  else if isRune (s.take 2) then 2
  else if isRune (s.take 3) then 3
  else if isRune (s.take 4) then 4
  else 0

theorem runeStart_eq_not_isTail : ∀ b : UInt8, runeStart b = !isTail b := by
  decide +kernel

variable {b : UInt8}

theorem isTail_of_between {low high : UInt8} (above : 0x80 ≤ low) (below : high ≤ 0xBF)
    (inside : between low high b = true) : isTail b = true := by
  simp only [isTail, between, Bool.and_eq_true, decide_eq_true_eq] at inside ⊢
  exact ⟨UInt8.le_trans above inside.1, UInt8.le_trans inside.2 below⟩

theorem runeStart_of_between {low high : UInt8} (above : 0xC0 ≤ low)
    (inside : between low high b = true) : runeStart b = true := by
  rw [runeStart_eq_not_isTail]
  simp only [isTail, between, Bool.and_eq_true, decide_eq_true_eq, Bool.not_eq_true',
    Bool.and_eq_false_iff, decide_eq_false_iff_not, UInt8.not_le] at inside ⊢
  exact .inr (UInt8.lt_of_lt_of_le (show 0xBF < 0xC0 by decide)
    (UInt8.le_trans above inside.1))

variable {r : Bytes}

/-- The shape of a character: a byte that starts one, then at most three that do not. -/
theorem isRune_shape (rune : isRune r = true) :
    ∃ a rest, r = a :: rest ∧ runeStart a = true ∧ (∀ b ∈ rest, isTail b = true) ∧
      rest.length < 4 := by
  match r, rune with
  | [a], rune =>
    refine ⟨a, [], rfl, ?_, by simp, by simp⟩
    rw [runeStart_eq_not_isTail]
    simp only [isRune, decide_eq_true_eq] at rune
    simp only [isTail, between, Bool.not_eq_true', Bool.and_eq_false_iff,
      decide_eq_false_iff_not, UInt8.not_le]
    exact .inl rune
  | [a, b], rune =>
    simp only [isRune, Bool.and_eq_true] at rune
    exact ⟨a, [b], rfl, runeStart_of_between (by decide) rune.1, by simpa using rune.2, by simp⟩
  | [a, b, c], rune =>
    simp only [isRune, Bool.and_eq_true, Bool.or_eq_true, beq_iff_eq] at rune
    obtain ⟨lead, last⟩ := rune
    have tails (second : isTail b = true) : ∀ x ∈ [b, c], isTail x = true := by
      simpa using ⟨second, last⟩
    rcases lead with ((⟨rfl, second⟩ | ⟨first, second⟩) | ⟨rfl, second⟩) | ⟨first, second⟩
    · exact ⟨_, _, rfl, by decide, tails (isTail_of_between (by decide) (by decide) second),
        by simp⟩
    · exact ⟨_, _, rfl, runeStart_of_between (by decide) first, tails second, by simp⟩
    · exact ⟨_, _, rfl, by decide, tails (isTail_of_between (by decide) (by decide) second),
        by simp⟩
    · exact ⟨_, _, rfl, runeStart_of_between (by decide) first, tails second, by simp⟩
  | [a, b, c, d], rune =>
    simp only [isRune, Bool.and_eq_true, Bool.or_eq_true, beq_iff_eq] at rune
    obtain ⟨⟨lead, third⟩, last⟩ := rune
    have tails (second : isTail b = true) : ∀ x ∈ [b, c, d], isTail x = true := by
      simpa using ⟨second, third, last⟩
    rcases lead with (⟨rfl, second⟩ | ⟨first, second⟩) | ⟨rfl, second⟩
    · exact ⟨_, _, rfl, by decide, tails (isTail_of_between (by decide) (by decide) second),
        by simp⟩
    · exact ⟨_, _, rfl, runeStart_of_between (by decide) first, tails second, by simp⟩
    · exact ⟨_, _, rfl, by decide, tails (isTail_of_between (by decide) (by decide) second),
        by simp⟩

/-- What the first byte says about the length of a character. -/
def leadWidth (a : UInt8) : ℕ :=
  if a < 0x80 then 1 else if a < 0xE0 then 2 else if a < 0xF0 then 3 else 4

theorem isRune_length {a : UInt8} {rest : Bytes} (rune : isRune (a :: rest) = true) :
    (a :: rest).length = leadWidth a := by
  have lead : ∀ a : UInt8,
      (a < 0x80 → leadWidth a = 1) ∧ (between 0xC2 0xDF a = true → leadWidth a = 2) ∧
        (between 0xE1 0xEC a = true ∨ between 0xEE 0xEF a = true → leadWidth a = 3) ∧
        (between 0xF1 0xF3 a = true → leadWidth a = 4) := by
    decide +kernel
  match rest, rune with
  | [], rune =>
    simp only [isRune, decide_eq_true_eq] at rune
    exact ((lead a).1 rune).symm
  | [b], rune =>
    simp only [isRune, Bool.and_eq_true] at rune
    exact ((lead a).2.1 rune.1).symm
  | [b, c], rune =>
    simp only [isRune, Bool.and_eq_true, Bool.or_eq_true, beq_iff_eq] at rune
    rcases rune.1 with ((⟨rfl, -⟩ | ⟨first, -⟩) | ⟨rfl, -⟩) | ⟨first, -⟩
    · rfl
    · exact ((lead a).2.2.1 (.inl first)).symm
    · rfl
    · exact ((lead a).2.2.1 (.inr first)).symm
  | [b, c, d], rune =>
    simp only [isRune, Bool.and_eq_true, Bool.or_eq_true, beq_iff_eq] at rune
    rcases rune.1.1 with (⟨rfl, -⟩ | ⟨first, -⟩) | ⟨rfl, -⟩
    · rfl
    · exact ((lead a).2.2.2 first).symm
    · rfl

/-- A text that starts with a character starts with no other one. -/
theorem runeWidth_append (rune : isRune r = true) (s : Bytes) : runeWidth (r ++ s) = r.length := by
  obtain ⟨a, rest, rfl, -, -, short⟩ := isRune_shape rune
  have width := isRune_length rune
  have other {n : ℕ} (pos : 0 < n) (below : n < (a :: rest).length) :
      isRune ((a :: rest ++ s).take n) = false := by
    obtain ⟨m, rfl⟩ : ∃ m, n = m + 1 := ⟨n - 1, by omega⟩
    rw [take_append_of_le_length below.le, take_succ_cons, Bool.eq_false_iff]
    intro shorter
    have := isRune_length shorter
    rw [length_cons, length_take] at this
    rw [length_cons] at below width
    omega
  have whole : isRune ((a :: rest ++ s).take (a :: rest).length) = true := by
    rwa [take_left]
  have cases4 : (a :: rest).length = 1 ∨ (a :: rest).length = 2 ∨ (a :: rest).length = 3 ∨
      (a :: rest).length = 4 := by
    rw [length_cons]
    omega
  unfold runeWidth
  rcases cases4 with len | len | len | len
  · rw [len] at whole ⊢
    rw [if_pos whole]
  · rw [len] at whole other ⊢
    simp only [other (show 0 < 1 by decide) (by decide), whole, Bool.false_eq_true, if_false,
      if_true]
  · rw [len] at whole other ⊢
    simp only [other (show 0 < 1 by decide) (by decide), other (show 0 < 2 by decide) (by decide),
      whole, Bool.false_eq_true, if_false, if_true]
  · rw [len] at whole other ⊢
    simp only [other (show 0 < 1 by decide) (by decide), other (show 0 < 2 by decide) (by decide),
      other (show 0 < 3 by decide) (by decide), whole, Bool.false_eq_true, if_false, if_true]

variable {s : Bytes}

/-- The bytes a positive width counts are a character. -/
theorem isRune_take_runeWidth (some_ : runeWidth s ≠ 0) : isRune (s.take (runeWidth s)) = true := by
  unfold runeWidth at some_ ⊢
  split
  next one => exact one
  next =>
    split
    next two => exact two
    next =>
      split
      next three => exact three
      next =>
        split
        next four => exact four
        next one two three four =>
          simp only [if_neg one, if_neg two, if_neg three, if_neg four] at some_
          exact absurd rfl some_

/-! ## Texts -/

/-- A sequence of characters. -/
inductive WellFormed : Bytes → Prop
  | nil : WellFormed []
  | cons {r s : Bytes} (rune : isRune r = true) (rest : WellFormed s) : WellFormed (r ++ s)

theorem WellFormed.append {t : Bytes} (first : WellFormed s) (second : WellFormed t) :
    WellFormed (s ++ t) := by
  induction first with
  | nil => exact second
  | cons rune _ ih =>
    rw [append_assoc]
    exact .cons rune ih

theorem WellFormed.of_ascii (ascii : ∀ b ∈ s, b < 0x80) : WellFormed s := by
  induction s with
  | nil => exact .nil
  | cons b s ih =>
    have one : isRune [b] = true := by
      simpa [isRune] using ascii b mem_cons_self
    exact .cons one (ih fun c member => ascii c (mem_cons_of_mem b member))

/-- A text may be cut before a byte that starts a character. -/
theorem WellFormed.take (formed : WellFormed s) {i : ℕ} (found : s[i]? = some b)
    (starts : runeStart b = true) : WellFormed (s.take i) := by
  induction formed generalizing i with
  | nil => cases found
  | @cons r s rune _ ih =>
    obtain ⟨a, rest, rfl, -, tails, -⟩ := isRune_shape rune
    by_cases inside : i < (a :: rest).length
    · rw [getElem?_append_left inside] at found
      cases i with
      | zero => exact .nil
      | succ i =>
        have tail := tails b (mem_of_getElem? (getElem?_cons_succ ▸ found))
        rw [runeStart_eq_not_isTail, tail] at starts
        cases starts
    · push Not at inside
      rw [getElem?_append_right inside] at found
      rw [take_append, take_of_length_le inside]
      exact .cons rune (ih found)

/-- An ASCII byte is a character of its own: the text around it is two texts. -/
theorem wellFormed_append_ascii {t : Bytes} (ascii : b < 0x80) :
    WellFormed (s ++ b :: t) ↔ WellFormed s ∧ WellFormed t := by
  constructor
  · intro formed
    generalize whole : s ++ b :: t = text at formed
    induction formed generalizing s with
    | nil => simp at whole
    | @cons r rest rune formed ih =>
      rcases append_eq_append_iff.mp whole with ⟨mid, rfl, right⟩ | ⟨mid, rfl, right⟩
      · cases mid with
        | nil =>
          obtain ⟨-, after⟩ := ih (s := []) right
          exact ⟨by simpa using WellFormed.cons rune .nil, after⟩
        | cons c mid =>
          -- The byte is inside the character, and so is all of it.
          cases right
          obtain ⟨a, tails, shape, -, isTails, -⟩ := isRune_shape rune
          cases s with
          | nil =>
            have one := isRune_length rune
            rw [leadWidth, if_pos ascii, length_cons, Nat.add_eq_right] at one
            rw [eq_nil_of_length_eq_zero one]
            exact ⟨.nil, formed⟩
          | cons d s =>
            rw [cons_append, cons.injEq] at shape
            have tail := isTails b (shape.2 ▸ by simp)
            simp only [isTail, between, Bool.and_eq_true, decide_eq_true_eq] at tail
            exact absurd tail.1 (UInt8.not_le.mpr ascii)
      · obtain ⟨before, after⟩ := ih right.symm
        exact ⟨.cons rune before, after⟩
  · rintro ⟨before, after⟩
    exact before.append (.cons (r := [b]) (by simpa [isRune] using ascii) after)

/-- At most three bytes back from any byte of a text there is one that starts a character. -/
theorem WellFormed.exists_runeStart (formed : WellFormed s) {i : ℕ} (inside : i < s.length) :
    ∃ j b, j ≤ i ∧ i < j + 4 ∧ s[j]? = some b ∧ runeStart b = true := by
  induction formed generalizing i with
  | nil => cases inside
  | @cons r s rune _ ih =>
    obtain ⟨a, rest, rfl, starts, -, short⟩ := isRune_shape rune
    by_cases within : i < (a :: rest).length
    · refine ⟨0, a, Nat.zero_le i, ?_, rfl, starts⟩
      rw [length_cons] at within
      omega
    · push Not at within
      rw [length_append] at inside
      obtain ⟨j, b, le, lt, found, start⟩ := ih (i := i - (a :: rest).length) (by omega)
      refine ⟨(a :: rest).length + j, b, by omega, by omega, ?_, start⟩
      rw [getElem?_append_right (by omega), Nat.add_sub_cancel_left]
      exact found

/-! ## Decoding -/

/-- `utf8.Valid` after `skip` bytes of the character at hand. -/
def validFrom : ℕ → Bytes → Bool
  | _, [] => true
  | skip + 1, _ :: s => validFrom skip s
  | 0, b :: s =>
      match runeWidth (b :: s) with
      | 0 => false
      | w + 1 => validFrom w s

/-- `utf8.Valid`. -/
def valid (s : Bytes) : Bool := validFrom 0 s

/-- `strings.ToValidUTF8` after `skip` bytes of the character at hand; `invalid` is whether
the byte before belongs to no character. -/
def toValidFrom (replacement : Bytes) : ℕ → Bool → Bytes → Bytes
  | _, _, [] => []
  | skip + 1, _, b :: s => b :: toValidFrom replacement skip false s
  | 0, invalid, b :: s =>
      match runeWidth (b :: s) with
      | 0 => (if invalid then [] else replacement) ++ toValidFrom replacement 0 true s
      | w + 1 => b :: toValidFrom replacement w false s

/-- `strings.ToValidUTF8`. -/
def toValid (replacement s : Bytes) : Bytes := toValidFrom replacement 0 false s

theorem validFrom_append (skipped s : Bytes) :
    validFrom skipped.length (skipped ++ s) = validFrom 0 s := by
  induction skipped with
  | nil => rfl
  | cons b skipped ih => exact ih

theorem toValidFrom_append (replacement skipped s : Bytes) :
    toValidFrom replacement skipped.length false (skipped ++ s) =
      skipped ++ toValidFrom replacement 0 false s := by
  induction skipped with
  | nil => rfl
  | cons b skipped ih =>
    rw [length_cons, cons_append, cons_append, toValidFrom, ih]

/-- A character at the front is passed over whole. -/
theorem validFrom_rune (rune : isRune r = true) (s : Bytes) :
    validFrom 0 (r ++ s) = validFrom 0 s := by
  have width := runeWidth_append rune s
  obtain ⟨a, rest, rfl, -⟩ := isRune_shape rune
  rw [cons_append] at width ⊢
  rw [validFrom, width]
  exact validFrom_append rest s

/-- A character at the front is copied whole. -/
theorem toValidFrom_rune (replacement : Bytes) (invalid : Bool) (rune : isRune r = true)
    (s : Bytes) :
    toValidFrom replacement 0 invalid (r ++ s) = r ++ toValidFrom replacement 0 false s := by
  have width := runeWidth_append rune s
  obtain ⟨a, rest, rfl, -⟩ := isRune_shape rune
  rw [cons_append] at width ⊢
  rw [toValidFrom, width]
  exact congrArg (a :: ·) (toValidFrom_append replacement rest s)

/-- A text either starts with a character or its first byte belongs to none. -/
theorem rune_cases (b : UInt8) (s : Bytes) :
    runeWidth (b :: s) = 0 ∨ ∃ r rest, isRune r = true ∧ b :: s = r ++ rest := by
  by_cases none_ : runeWidth (b :: s) = 0
  · exact .inl none_
  · exact .inr ⟨_, (b :: s).drop (runeWidth (b :: s)), isRune_take_runeWidth none_,
      (take_append_drop _ _).symm⟩

theorem rest_length_lt {rest : Bytes} (rune : isRune r = true) (eq : b :: s = r ++ rest) :
    rest.length < (b :: s).length := by
  obtain ⟨a, tail, rfl, -⟩ := isRune_shape rune
  rw [eq, length_append, length_cons]
  omega

theorem valid_iff : valid s = true ↔ WellFormed s := by
  constructor
  · intro accepted
    induction length : s.length using Nat.strong_induction_on generalizing s with
    | _ n ih =>
      cases s with
      | nil => exact .nil
      | cons b s =>
        rcases rune_cases b s with none_ | ⟨r, rest, rune, eq⟩
        · rw [valid, validFrom, none_] at accepted
          cases accepted
        · have shorter := rest_length_lt rune eq
          rw [eq] at accepted ⊢
          rw [valid, validFrom_rune rune] at accepted
          exact .cons rune (ih _ (length ▸ shorter) accepted rfl)
  · intro formed
    induction formed with
    | nil => rfl
    | cons rune _ ih => exact (validFrom_rune rune _).trans ih

theorem wellFormed_toValidFrom {replacement : Bytes} (formed : WellFormed replacement)
    (invalid : Bool) (s : Bytes) : WellFormed (toValidFrom replacement 0 invalid s) := by
  induction length : s.length using Nat.strong_induction_on generalizing s invalid with
  | _ n ih =>
    cases s with
    | nil => exact .nil
    | cons b s =>
      rcases rune_cases b s with none_ | ⟨r, rest, rune, eq⟩
      · rw [toValidFrom, none_]
        have front : WellFormed (if invalid then [] else replacement) := by
          cases invalid
          · exact formed
          · exact .nil
        exact front.append (ih s.length (by rw [← length, length_cons]; omega) true s rfl)
      · have shorter := rest_length_lt rune eq
        rw [eq, toValidFrom_rune replacement invalid rune]
        exact .cons rune (ih _ (length ▸ shorter) false rest rfl)

/-- What comes out is a sequence of characters, if the replacement is one. -/
theorem wellFormed_toValid {replacement : Bytes} (formed : WellFormed replacement) (s : Bytes) :
    WellFormed (toValid replacement s) :=
  wellFormed_toValidFrom formed false s

/-- A sequence of characters is left alone. -/
theorem toValid_of_wellFormed (replacement : Bytes) (formed : WellFormed s) :
    toValid replacement s = s := by
  induction formed with
  | nil => rfl
  | cons rune _ ih =>
    rw [toValid, toValidFrom_rune replacement false rune]
    exact congrArg _ ih

end Dbtrail.Utf8
