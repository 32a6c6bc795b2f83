import Mathlib

/-!
# Decimal numbers

`zeroPadded w n` is what `%0*d` prints: `w` digits, or all of them when `n` needs more.
A number that fits is read back from its digits. `intText z` is what `%d` prints, and the
texts it prints are plain integers (`plainInteger_intText`): an optional minus, then digits
without a leading zero.
-/

namespace Dbtrail

open List

def digitChar (d : ℕ) : Char := Char.ofNat (48 + d)

def digitVal (c : Char) : ℕ := c.toNat - 48

def isDigits (cs : List Char) : Bool := !cs.isEmpty && cs.all Char.isDigit

/-- The value of a string of digits. -/
def digitsVal (cs : List Char) : ℕ := cs.foldl (fun acc c => 10 * acc + digitVal c) 0

/-- The last `w` digits of `n`. -/
def lastDigits : ℕ → ℕ → List Char
  | 0, _ => []
  | w + 1, n => lastDigits w (n / 10) ++ [digitChar (n % 10)]

def zeroPadded (w n : ℕ) : List Char :=
  if n < 10 ^ w then lastDigits w n else Nat.toDigits 10 n

theorem digitVal_digitChar {d : ℕ} (lt : d < 10) : digitVal (digitChar d) = d := by
  interval_cases d <;> rfl

theorem isDigit_digitChar {d : ℕ} (lt : d < 10) : (digitChar d).isDigit = true := by
  interval_cases d <;> rfl

theorem length_lastDigits (w n : ℕ) : (lastDigits w n).length = w := by
  induction w generalizing n with
  | zero => rfl
  | succ w ih => rw [lastDigits, length_append, ih, length_singleton]

theorem isDigit_of_mem_lastDigits {w n : ℕ} {c : Char} (member : c ∈ lastDigits w n) :
    c.isDigit = true := by
  induction w generalizing n with
  | zero => cases member
  | succ w ih =>
    rw [lastDigits, mem_append, mem_singleton] at member
    rcases member with early | rfl
    · exact ih early
    · exact isDigit_digitChar (Nat.mod_lt _ (by decide))

theorem digitsVal_concat (cs : List Char) (c : Char) :
    digitsVal (cs ++ [c]) = 10 * digitsVal cs + digitVal c := by
  unfold digitsVal
  rw [foldl_append]
  rfl

theorem digitsVal_lastDigits {w n : ℕ} (fits : n < 10 ^ w) : digitsVal (lastDigits w n) = n := by
  induction w generalizing n with
  | zero => exact (Nat.lt_one_iff.mp fits).symm
  | succ w ih =>
    have quotient : n / 10 < 10 ^ w := by
      rw [pow_succ] at fits
      omega
    rw [lastDigits, digitsVal_concat, ih quotient, digitVal_digitChar (Nat.mod_lt _ (by decide))]
    omega

theorem zeroPadded_eq {w n : ℕ} (fits : n < 10 ^ w) : zeroPadded w n = lastDigits w n := if_pos fits

theorem isDigits_zeroPadded {w n : ℕ} (fits : n < 10 ^ (w + 1)) :
    isDigits (zeroPadded (w + 1) n) = true := by
  rw [zeroPadded_eq fits]
  unfold isDigits
  rw [Bool.and_eq_true]
  refine ⟨?_, all_eq_true.mpr fun c member => isDigit_of_mem_lastDigits member⟩
  cases h : lastDigits (w + 1) n with
  | nil =>
    have length := length_lastDigits (w + 1) n
    rw [h] at length
    cases length
  | cons c cs => rfl

/-! ## Integers -/

def intText : ℤ → List Char
  | .ofNat n => Nat.toDigits 10 n
  | .negSucc n => '-' :: Nat.toDigits 10 (n + 1)

/-- The value of an integer's text. -/
def intVal : List Char → ℤ
  | '-' :: cs => -(digitsVal cs : ℤ)
  | cs => digitsVal cs

/-- Digits without a leading zero, or the one digit 0. -/
def plainDigits (cs : List Char) : Bool :=
  isDigits cs && (cs.head? != some '0' || cs == ['0'])

/-- The one text of an integer: no sign but a minus, no leading zero, no `-0`. -/
def plainInteger : List Char → Bool
  | '-' :: cs => plainDigits cs && cs != ['0']
  | cs => plainDigits cs

theorem digitsVal_toDigits (n : ℕ) : digitsVal (Nat.toDigits 10 n) = n :=
  Nat.ofDigitChars_ten_toDigits

theorem digitChar_digitVal {c : Char} (digit : c.isDigit = true) :
    digitVal c < 10 ∧ (digitVal c).digitChar = c := by
  simp only [Char.isDigit, Bool.and_eq_true, decide_eq_true_eq, ge_iff_le, UInt32.le_iff_toNat_le]
    at digit
  have low : 48 ≤ c.toNat := digit.1
  have high : c.toNat ≤ 57 := digit.2
  rw [digitVal, ← Char.ofNat_toNat c]
  interval_cases c.toNat <;> exact ⟨by decide, by decide⟩

theorem digitChar_of_digitVal {c : Char} (digit : c.isDigit = true) :
    digitChar (digitVal c) = c := by
  simp only [Char.isDigit, Bool.and_eq_true, decide_eq_true_eq, ge_iff_le, UInt32.le_iff_toNat_le]
    at digit
  have low : 48 ≤ c.toNat := digit.1
  rw [digitChar, digitVal, Nat.add_sub_cancel' low, Char.ofNat_toNat]

/-- A string of digits is the last digits of its value. -/
theorem lastDigits_digitsVal {cs : List Char} (digits : ∀ c ∈ cs, c.isDigit = true) :
    digitsVal cs < 10 ^ cs.length ∧ lastDigits cs.length (digitsVal cs) = cs := by
  induction cs using reverseRecOn with
  | nil => exact ⟨Nat.one_pos, rfl⟩
  | append_singleton cs c ih =>
    obtain ⟨fits, same⟩ := ih fun d member => digits d (mem_append_left _ member)
    have digit := digits c (mem_append_right _ (mem_singleton_self c))
    have low := (digitChar_digitVal digit).1
    have quotient : (10 * digitsVal cs + digitVal c) / 10 = digitsVal cs := by omega
    have rest : (10 * digitsVal cs + digitVal c) % 10 = digitVal c := by omega
    rw [digitsVal_concat, length_append, length_singleton, lastDigits, quotient, rest,
      same, digitChar_of_digitVal digit]
    refine ⟨?_, rfl⟩
    rw [Nat.pow_succ]
    omega

theorem isDigits_toDigits (n : ℕ) : isDigits (Nat.toDigits 10 n) = true := by
  rw [isDigits, Bool.and_eq_true, Bool.not_eq_true', isEmpty_eq_false_iff]
  exact ⟨Nat.toDigits_ne_nil, all_eq_true.mpr fun c member =>
    Nat.isDigit_of_mem_toDigits (by decide) (by decide) member⟩

theorem head?_toDigits (n : ℕ) : (Nat.toDigits 10 n).head? = some '0' → n = 0 := by
  induction n using Nat.strong_induction_on with
  | _ n ih =>
    rcases Nat.lt_or_ge n 10 with low | high
    · rw [Nat.toDigits_of_lt_base low]
      interval_cases n <;> decide
    · rw [Nat.toDigits_of_base_le (by decide) high,
        head?_append_of_ne_nil _ Nat.toDigits_ne_nil]
      intro zero
      have := ih (n / 10) (by omega) zero
      omega

theorem plainDigits_toDigits (n : ℕ) : plainDigits (Nat.toDigits 10 n) = true := by
  rw [plainDigits, isDigits_toDigits, Bool.true_and, Bool.or_eq_true, bne_iff_ne]
  by_cases zero : n = 0
  · rw [zero]
    exact .inr rfl
  · exact .inl fun head => zero (head?_toDigits n head)

theorem not_minus_of_isDigits {cs : List Char} (digits : isDigits cs = true) :
    ∀ rest, cs ≠ '-' :: rest := by
  rintro rest rfl
  simp [isDigits] at digits

/-- An integer is read back from its text. -/
theorem intVal_intText (z : ℤ) : intVal (intText z) = z := by
  cases z with
  | ofNat n =>
    rw [intText, intVal]
    · rw [digitsVal_toDigits]
      rfl
    · exact not_minus_of_isDigits (isDigits_toDigits n)
  | negSucc n =>
    rw [intText, intVal, digitsVal_toDigits]
    rfl

theorem plainInteger_intText (z : ℤ) : plainInteger (intText z) = true := by
  cases z with
  | ofNat n =>
    rw [intText, plainInteger]
    · exact plainDigits_toDigits n
    · exact not_minus_of_isDigits (isDigits_toDigits n)
  | negSucc n =>
    rw [intText, plainInteger, plainDigits_toDigits, Bool.true_and, bne_iff_ne]
    intro zero
    have := digitsVal_toDigits (n + 1)
    rw [zero] at this
    cases this

theorem mem_intText {z : ℤ} {c : Char} (member : c ∈ intText z) : c = '-' ∨ c.isDigit = true := by
  cases z with
  | ofNat n => exact .inr (Nat.isDigit_of_mem_toDigits (by decide) (by decide) member)
  | negSucc n =>
    rcases mem_cons.mp member with rfl | digit
    · exact .inl rfl
    · exact .inr (Nat.isDigit_of_mem_toDigits (by decide) (by decide) digit)

end Dbtrail
