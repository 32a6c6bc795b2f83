import Dbtrail.Lib.Utf8

/-!
# The statement text of an event

A captured statement is made valid UTF-8 and cut at a byte limit before it is stored. The
parsers do it where the text enters, and the indexer once more before the insert.

`sanitizeQueryText_idem_iff` says when the second time changes nothing: the text fits, or its
byte at the limit starts a character. Where the cut has to step back into a character, the
marker after the shorter text is itself cut at the limit, and a second marker follows it.
-/

namespace Dbtrail.QueryText

open Utf8 List

def maxQueryTextBytes : ℕ := 16 * 1024

def queryTextTruncationMarker : Bytes := utf8 " /* bintrail:truncated */"

/-- The replacement character. -/
def replacementChar : Bytes := [0xEF, 0xBF, 0xBD]

/-- The loop that moves a cut back to a byte that starts a character. -/
def backOff (s : Bytes) : ℕ → ℕ
  | 0 => 0
  | cut + 1 => if s[cut + 1]?.any runeStart then cut + 1 else backOff s cut

def sanitizeQueryText (s : Bytes) : Bytes :=
  if s = [] then []
  else
    let s := toValid replacementChar s
    if s.length ≤ maxQueryTextBytes then s
    else s.take (backOff s maxQueryTextBytes) ++ queryTextTruncationMarker

/-- The query text column of a row: the indexer sanitizes the text of the event, and an
event without one stores NULL. -/
def storedQueryText (queryText : Bytes) : Option Bytes :=
  if queryText = [] then none else some (sanitizeQueryText queryText)

/-! ## The cut -/

theorem backOff_le (s : Bytes) (cut : ℕ) : backOff s cut ≤ cut := by
  induction cut with
  | zero => exact le_rfl
  | succ cut ih =>
    rw [backOff]
    split
    · exact le_rfl
    · exact le_trans ih (Nat.le_succ cut)

theorem backOff_starts (s : Bytes) (cut : ℕ) :
    backOff s cut = 0 ∨ ∃ b, s[backOff s cut]? = some b ∧ runeStart b = true := by
  induction cut with
  | zero => exact Or.inl rfl
  | succ cut ih =>
    rw [backOff]
    split
    next starts => exact Or.inr ((Option.any_eq_true _ _).mp starts)
    next => exact ih

theorem le_backOff {s : Bytes} {cut j : ℕ} {b : UInt8} (le : j ≤ cut) (found : s[j]? = some b)
    (starts : runeStart b = true) : j ≤ backOff s cut := by
  induction cut with
  | zero => exact le
  | succ cut ih =>
    rw [backOff]
    split
    next => exact le
    next stays =>
      refine ih (Nat.le_of_lt_succ (lt_of_le_of_ne le ?_))
      rintro rfl
      exact stays ((Option.any_eq_true _ _).mpr ⟨b, found, starts⟩)

/-- A cut that need not move. -/
theorem backOff_eq_self_iff {s : Bytes} {cut : ℕ} (pos : 0 < cut) :
    backOff s cut = cut ↔ s[cut]?.any runeStart = true := by
  constructor
  · intro stays
    rcases backOff_starts s cut with zero | ⟨b, found, starts⟩
    · omega
    · rw [stays] at found
      exact (Option.any_eq_true _ _).mpr ⟨b, found, starts⟩
  · intro starts
    obtain ⟨b, found, start⟩ := (Option.any_eq_true _ _).mp starts
    exact le_antisymm (backOff_le s cut) (le_backOff le_rfl found start)

theorem wellFormed_take_backOff {s : Bytes} (formed : WellFormed s) (cut : ℕ) :
    WellFormed (s.take (backOff s cut)) := by
  rcases backOff_starts s cut with zero | ⟨b, found, starts⟩
  · rw [zero]
    exact .nil
  · exact formed.take found starts

/-- A cut of a well formed text moves back by less than a character. -/
theorem lt_backOff_add {s : Bytes} (formed : WellFormed s) {cut : ℕ} (inside : cut < s.length) :
    cut < backOff s cut + 4 := by
  obtain ⟨j, b, le, lt, found, starts⟩ := formed.exists_runeStart inside
  have := le_backOff le found starts
  omega

/-! ## The sanitized text -/

theorem marker_length : queryTextTruncationMarker.length = 25 := by
  decide +kernel

theorem marker_ascii : ∀ b ∈ queryTextTruncationMarker, b < 0x80 := by
  decide +kernel

theorem runeStart_of_mem_marker : ∀ b ∈ queryTextTruncationMarker, runeStart b = true := by
  decide +kernel

theorem wellFormed_replacementChar : WellFormed replacementChar :=
  .cons (r := replacementChar) (by decide) .nil

/-- The text before the cut. -/
theorem wellFormed_repaired (s : Bytes) : WellFormed (toValid replacementChar s) :=
  wellFormed_toValid wellFormed_replacementChar s

theorem sanitizeQueryText_eq (s : Bytes) :
    sanitizeQueryText s =
      let repaired := toValid replacementChar s
      if repaired.length ≤ maxQueryTextBytes then repaired
      else repaired.take (backOff repaired maxQueryTextBytes) ++ queryTextTruncationMarker := by
  unfold sanitizeQueryText
  split
  next empty => subst empty; rfl
  next => rfl

theorem sanitizeQueryText_of_fits {s : Bytes}
    (fits : (toValid replacementChar s).length ≤ maxQueryTextBytes) :
    sanitizeQueryText s = toValid replacementChar s := by
  rw [sanitizeQueryText_eq]
  exact if_pos fits

theorem sanitizeQueryText_of_long {s : Bytes}
    (long : maxQueryTextBytes < (toValid replacementChar s).length) :
    sanitizeQueryText s =
      (toValid replacementChar s).take
        (backOff (toValid replacementChar s) maxQueryTextBytes) ++ queryTextTruncationMarker := by
  rw [sanitizeQueryText_eq]
  exact if_neg (not_le.mpr long)

theorem wellFormed_sanitizeQueryText (s : Bytes) : WellFormed (sanitizeQueryText s) := by
  by_cases fits : (toValid replacementChar s).length ≤ maxQueryTextBytes
  · rw [sanitizeQueryText_of_fits fits]
    exact wellFormed_repaired s
  · rw [sanitizeQueryText_of_long (not_le.mp fits)]
    exact (wellFormed_take_backOff (wellFormed_repaired s) _).append (.of_ascii marker_ascii)

/-- A cut text is as long as the cut and the marker. -/
theorem length_sanitizeQueryText_of_long {s : Bytes}
    (long : maxQueryTextBytes < (toValid replacementChar s).length) :
    (sanitizeQueryText s).length =
      backOff (toValid replacementChar s) maxQueryTextBytes + queryTextTruncationMarker.length := by
  have le := backOff_le (toValid replacementChar s) maxQueryTextBytes
  rw [sanitizeQueryText_of_long long, length_append, length_take,
    min_eq_left (by omega)]

theorem length_sanitizeQueryText_le (s : Bytes) :
    (sanitizeQueryText s).length ≤ maxQueryTextBytes + queryTextTruncationMarker.length := by
  by_cases fits : (toValid replacementChar s).length ≤ maxQueryTextBytes
  · rw [sanitizeQueryText_of_fits fits]
    omega
  · have le := backOff_le (toValid replacementChar s) maxQueryTextBytes
    rw [length_sanitizeQueryText_of_long (not_le.mp fits)]
    omega

/-- The limit itself is kept exactly by the texts that need no cut. -/
theorem length_sanitizeQueryText_le_max_iff (s : Bytes) :
    (sanitizeQueryText s).length ≤ maxQueryTextBytes ↔
      (toValid replacementChar s).length ≤ maxQueryTextBytes := by
  constructor
  · intro short
    by_contra long
    have moved := lt_backOff_add (wellFormed_repaired s) (not_le.mp long)
    rw [length_sanitizeQueryText_of_long (not_le.mp long), marker_length] at short
    omega
  · intro fits
    rw [sanitizeQueryText_of_fits fits]
    exact fits

/-- Past the limit, a cut text is cut again exactly at the limit, which is in its marker. -/
theorem sanitizeQueryText_again {s : Bytes}
    (long : maxQueryTextBytes < (toValid replacementChar s).length) :
    sanitizeQueryText (sanitizeQueryText s) =
      (sanitizeQueryText s).take maxQueryTextBytes ++ queryTextTruncationMarker := by
  have repaired : toValid replacementChar (sanitizeQueryText s) = sanitizeQueryText s :=
    toValid_of_wellFormed _ (wellFormed_sanitizeQueryText s)
  have past : maxQueryTextBytes < (toValid replacementChar (sanitizeQueryText s)).length := by
    rw [repaired]
    exact not_le.mp fun short => not_le.mpr long ((length_sanitizeQueryText_le_max_iff s).mp short)
  rw [sanitizeQueryText_of_long past, repaired]
  have cut := backOff_le (toValid replacementChar s) maxQueryTextBytes
  have moved := lt_backOff_add (wellFormed_repaired s) long
  have inMarker : (sanitizeQueryText s)[maxQueryTextBytes]? =
      queryTextTruncationMarker[maxQueryTextBytes -
        backOff (toValid replacementChar s) maxQueryTextBytes]? := by
    have before : ((toValid replacementChar s).take
        (backOff (toValid replacementChar s) maxQueryTextBytes)).length =
          backOff (toValid replacementChar s) maxQueryTextBytes := by
      rw [length_take, min_eq_left (by omega)]
    rw [sanitizeQueryText_of_long long, getElem?_append_right (by omega), before]
  have starts : (sanitizeQueryText s)[maxQueryTextBytes]?.any runeStart = true := by
    have within : maxQueryTextBytes - backOff (toValid replacementChar s) maxQueryTextBytes <
        queryTextTruncationMarker.length := by
      rw [marker_length]
      omega
    rw [inMarker, getElem?_eq_getElem within]
    exact runeStart_of_mem_marker _ (getElem_mem within)
  rw [(backOff_eq_self_iff (by decide)).mpr starts]

/-- A second sanitizing changes nothing exactly where the first one did not cut, or had no
need to step back. -/
theorem sanitizeQueryText_idem_iff (s : Bytes) :
    sanitizeQueryText (sanitizeQueryText s) = sanitizeQueryText s ↔
      (toValid replacementChar s).length ≤ maxQueryTextBytes ∨
        (toValid replacementChar s)[maxQueryTextBytes]?.any runeStart = true := by
  by_cases fits : (toValid replacementChar s).length ≤ maxQueryTextBytes
  · have repaired := toValid_of_wellFormed replacementChar (wellFormed_repaired s)
    rw [sanitizeQueryText_of_fits fits, sanitizeQueryText_of_fits (by rw [repaired]; exact fits)]
    exact iff_of_true repaired (Or.inl fits)
  · have long := not_le.mp fits
    have le := backOff_le (toValid replacementChar s) maxQueryTextBytes
    rw [sanitizeQueryText_again long, ← backOff_eq_self_iff (show 0 < maxQueryTextBytes by decide)]
    constructor
    · intro same
      have lengths := congrArg length same
      rw [length_append, length_take, length_sanitizeQueryText_of_long long] at lengths
      have moved := lt_backOff_add (wellFormed_repaired s) long
      rw [marker_length] at lengths
      exact Or.inr (by omega)
    · rintro (short | stays)
      · exact absurd short fits
      · rw [sanitizeQueryText_of_long long, stays]
        have cut : ((toValid replacementChar s).take maxQueryTextBytes).length =
            maxQueryTextBytes := by
          rw [length_take, min_eq_left long.le]
        rw [take_append_of_le_length cut.ge, take_take, min_self]

/-- Every statement text comes out as valid UTF-8 and no longer than the limit and the marker
together, and a text within the limit itself comes out exactly where nothing is cut. Doing it
again, as the indexer does with the text of an event, changes nothing exactly where nothing is
cut or the byte at the limit starts a character. -/
theorem sanitizeQueryText_stored (s : Bytes) :
    valid (sanitizeQueryText s) = true ∧
      (sanitizeQueryText s).length ≤ maxQueryTextBytes + queryTextTruncationMarker.length ∧
      ((sanitizeQueryText s).length ≤ maxQueryTextBytes ↔
        (toValid replacementChar s).length ≤ maxQueryTextBytes) ∧
      (sanitizeQueryText (sanitizeQueryText s) = sanitizeQueryText s ↔
        (toValid replacementChar s).length ≤ maxQueryTextBytes ∨
          (toValid replacementChar s)[maxQueryTextBytes]?.any runeStart = true) :=
  ⟨valid_iff.mpr (wellFormed_sanitizeQueryText s), length_sanitizeQueryText_le s,
    length_sanitizeQueryText_le_max_iff s, sanitizeQueryText_idem_iff s⟩

/-- A statement whose byte at the limit is the second one of a character. -/
def straddling : Bytes := List.replicate 16383 97 ++ [0xC3, 0xA9]

theorem wellFormed_straddling : WellFormed straddling := by
  refine WellFormed.append (.of_ascii fun b member => ?_)
    (.cons (r := [0xC3, 0xA9]) (by decide) .nil)
  rw [eq_of_mem_replicate member]
  decide

theorem straddling_sanitized_twice :
    valid straddling = true ∧
      storedQueryText (sanitizeQueryText straddling) ≠ some (sanitizeQueryText straddling) := by
  have same := toValid_of_wellFormed replacementChar wellFormed_straddling
  refine ⟨valid_iff.mpr wellFormed_straddling, fun stored => ?_⟩
  have long : maxQueryTextBytes < (toValid replacementChar straddling).length := by
    rw [same, straddling, length_append, length_replicate]
    decide
  have kept : sanitizeQueryText (sanitizeQueryText straddling) = sanitizeQueryText straddling := by
    unfold storedQueryText at stored
    split at stored
    · cases stored
    · exact Option.some.inj stored
  rcases (sanitizeQueryText_idem_iff straddling).mp kept with fits | starts
  · omega
  · rw [same, straddling, getElem?_append_right (by rw [length_replicate]; decide),
      length_replicate] at starts
    revert starts
    decide

end Dbtrail.QueryText
