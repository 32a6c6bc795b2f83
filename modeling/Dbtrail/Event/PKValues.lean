import Dbtrail.Lib.Utf8

/-!
# The text of a key

The index stores the primary key of a row as one text: the components, each with its
backslashes and pipes escaped, joined by pipes. `splitPKValues` takes such a text apart, and
`dropPKComponent` and `insertPKComponent` rewrite one with a component less or more, for the
readers of tables whose stored key has a hidden column.

`splitPKValues_joinPKValues` says that a key comes back as it was. A key of no components has
the text of one empty component, and that is the only exception (`eq_or_of_joinPKValues_eq`); it
is also why the only component of a key can be dropped and not be put back.
-/

namespace Dbtrail.PKValues

open List

/-! ## Spelling and splitting -/

def escapePKValue (val : Bytes) : Bytes := replaceAll 124 [92, 124] (replaceAll 92 [92, 92] val)

/-- The components of a key, escaped and joined. -/
def joinPKValues (parts : List Bytes) : Bytes := SQL.join [124] (parts.map escapePKValue)

/-- The loop of `splitPKValues`, `cur` being the component at hand. -/
def splitFrom (cur : Bytes) : Bytes → List Bytes
  | [] => [cur]
  | c :: s =>
      if c = 92 then
        match s with
        | d :: s => splitFrom (cur ++ [d]) s
        | [] => [cur ++ [c]]
      else if c = 124 then cur :: splitFrom [] s
      else splitFrom (cur ++ [c]) s

def splitPKValues (s : Bytes) : List Bytes := splitFrom [] s

/-- The components but for the one at `idx`, from the `i`-th on. -/
def keepOthers (idx : ℤ) (i : ℕ) : List Bytes → List Bytes
  | [] => []
  | p :: parts => (if (i : ℤ) ≠ idx then [p] else []) ++ keepOthers idx (i + 1) parts

def dropPKComponent (pkValues : Bytes) (idx n : ℤ) : Option Bytes :=
  let parts := splitPKValues pkValues
  if (parts.length : ℤ) ≠ n ∨ idx < 0 ∨ n ≤ idx then none
  else some (joinPKValues (keepOthers idx 0 parts))

/-- The components with `value` before the one at `idx`, from the `i`-th on. -/
def putBefore (idx : ℤ) (value : Bytes) (i : ℕ) : List Bytes → List Bytes
  | [] => []
  | p :: parts =>
      (if (i : ℤ) = idx then [value] else []) ++ p :: putBefore idx value (i + 1) parts

def insertPKComponent (pkValues : Bytes) (idx n : ℤ) (value : Bytes) : Option Bytes :=
  let parts := splitPKValues pkValues
  if (parts.length : ℤ) ≠ n - 1 ∨ idx < 0 ∨ n ≤ idx then none
  else
    some (joinPKValues (putBefore idx value 0 parts ++ if idx = n - 1 then [value] else []))

/-! ## Bytes that are no text -/

def hexDigit (n : UInt8) : UInt8 := if n < 10 then 48 + n else 55 + n

def hexUpper (b : Bytes) : Bytes :=
  b.flatMap fun (x : UInt8) => [hexDigit (x >>> 4), hexDigit (x &&& 15)]

/-- `formatPKValue` of a byte value. -/
def formatBytes (b : Bytes) : Bytes := if Utf8.valid b then b else [48, 120] ++ hexUpper b

/-- `BuildPKValues` of byte values. -/
def buildBytePKValues (parts : List Bytes) : Bytes := joinPKValues (parts.map formatBytes)

def canonicalPKValues (s : Bytes) : Bytes :=
  if Utf8.valid s then s else joinPKValues ((splitPKValues s).map formatBytes)

/-! ## The components come back -/

def escapeByte (c : UInt8) : Bytes :=
  if c = 92 then [92, 92] else if c = 124 then [92, 124] else [c]

theorem escapePKValue_cons (c : UInt8) (val : Bytes) :
    escapePKValue (c :: val) = escapeByte c ++ escapePKValue val := by
  unfold escapePKValue replaceAll escapeByte
  by_cases backslash : c = 92
  · subst backslash
    simp
  · by_cases pipe : c = 124
    · subst pipe
      simp
    · simp [backslash, pipe]

theorem splitFrom_escapeByte (cur : Bytes) (c : UInt8) (s : Bytes) :
    splitFrom cur (escapeByte c ++ s) = splitFrom (cur ++ [c]) s := by
  unfold escapeByte
  split
  next backslash =>
    subst backslash
    simp [splitFrom]
  next notBackslash =>
    split
    next pipe =>
      subst pipe
      simp [splitFrom]
    next notPipe =>
      rw [singleton_append, splitFrom.eq_def]
      simp only [if_neg notBackslash, if_neg notPipe]

theorem splitFrom_escapePKValue (cur val s : Bytes) :
    splitFrom cur (escapePKValue val ++ s) = splitFrom (cur ++ val) s := by
  induction val generalizing cur with
  | nil => simp [escapePKValue, replaceAll]
  | cons c val ih =>
    rw [escapePKValue_cons, append_assoc, splitFrom_escapeByte, ih, append_assoc,
      singleton_append]

theorem splitFrom_pipe (cur s : Bytes) : splitFrom cur (124 :: s) = cur :: splitFrom [] s := by
  rw [splitFrom.eq_def]
  simp

theorem splitPKValues_joinPKValues_cons (p : Bytes) (parts : List Bytes) :
    splitPKValues (joinPKValues (p :: parts)) = p :: parts := by
  unfold splitPKValues joinPKValues
  induction parts generalizing p with
  | nil =>
    have last := splitFrom_escapePKValue [] p []
    rw [append_nil, nil_append] at last
    exact last
  | cons q parts ih =>
    rw [map_cons, map_cons, SQL.join, append_assoc, splitFrom_escapePKValue,
      nil_append, singleton_append, splitFrom_pipe]
    exact congrArg (p :: ·) (ih q)

variable {parts : List Bytes}

theorem splitPKValues_joinPKValues (some_ : parts ≠ []) :
    splitPKValues (joinPKValues parts) = parts := by
  cases parts with
  | nil => exact absurd rfl some_
  | cons p parts => exact splitPKValues_joinPKValues_cons p parts

/-- Two keys with one text are equal, or one has no components and the other is one empty
component. -/
theorem eq_or_of_joinPKValues_eq {others : List Bytes}
    (same : joinPKValues parts = joinPKValues others) :
    parts = others ∨ parts = [] ∧ others = [[]] ∨ parts = [[]] ∧ others = [] := by
  by_cases left : parts = []
  · by_cases right : others = []
    · exact .inl (left.trans right.symm)
    · have back := splitPKValues_joinPKValues right
      rw [← same, left] at back
      exact .inr (.inl ⟨left, back.symm⟩)
  · by_cases right : others = []
    · have back := splitPKValues_joinPKValues left
      rw [same, right] at back
      exact .inr (.inr ⟨back.symm, right⟩)
    · exact .inl ((splitPKValues_joinPKValues left).symm.trans
        (same ▸ splitPKValues_joinPKValues right))

/-! ## One component less or more -/

theorem keepOthers_passed {idx : ℤ} {i : ℕ} (passed : idx < i) (parts : List Bytes) :
    keepOthers idx i parts = parts := by
  induction parts generalizing i with
  | nil => rfl
  | cons p parts ih =>
    rw [keepOthers, if_pos (by omega), ih (by omega), singleton_append]

theorem keepOthers_eq_eraseIdx (parts : List Bytes) (i k : ℕ) :
    keepOthers (i + k : ℕ) i parts = parts.eraseIdx k := by
  induction parts generalizing i k with
  | nil => rfl
  | cons p parts ih =>
    cases k with
    | zero =>
      rw [Nat.add_zero, keepOthers, if_neg (by simp), keepOthers_passed (by omega),
        nil_append, eraseIdx_cons_zero]
    | succ k =>
      rw [keepOthers, if_pos (by omega), singleton_append, eraseIdx_cons_succ,
        ← ih (i + 1) k, Nat.add_right_comm i 1 k, Nat.add_assoc]

theorem putBefore_passed {idx : ℤ} {i : ℕ} (passed : idx < i) (value : Bytes)
    (parts : List Bytes) : putBefore idx value i parts = parts := by
  induction parts generalizing i with
  | nil => rfl
  | cons p parts ih =>
    rw [putBefore, if_neg (by omega), ih (by omega), nil_append]

variable {k : ℕ}

theorem putBefore_eq_insertIdx (value : Bytes) (i : ℕ) (within : k ≤ parts.length) :
    putBefore (i + k : ℕ) value i parts ++ (if k = parts.length then [value] else []) =
      parts.insertIdx k value := by
  induction parts generalizing i k with
  | nil =>
    obtain rfl : k = 0 := Nat.le_zero.mp within
    rfl
  | cons p parts ih =>
    cases k with
    | zero =>
      rw [Nat.add_zero, putBefore, if_pos rfl, putBefore_passed (by omega), if_neg (by simp),
        append_nil, insertIdx_zero, singleton_append]
    | succ k =>
      have rest := ih (i + 1) (Nat.le_of_succ_le_succ within)
      rw [Nat.add_right_comm i 1 k] at rest
      rw [putBefore, if_neg (by omega), nil_append, insertIdx_succ_cons, ← rest,
        cons_append, length_cons, ← Nat.add_assoc]
      simp only [Nat.add_right_cancel_iff]

theorem dropPKComponent_joinPKValues (within : k < parts.length) :
    dropPKComponent (joinPKValues parts) k parts.length =
      some (joinPKValues (parts.eraseIdx k)) := by
  have some_ : parts ≠ [] := ne_nil_of_length_pos (by omega)
  have kept := keepOthers_eq_eraseIdx parts 0 k
  rw [Nat.zero_add] at kept
  simp only [dropPKComponent, splitPKValues_joinPKValues some_]
  rw [if_neg (by omega), kept]

theorem insertPKComponent_joinPKValues (some_ : parts ≠ []) (within : k ≤ parts.length)
    (value : Bytes) :
    insertPKComponent (joinPKValues parts) k (parts.length + 1) value =
      some (joinPKValues (parts.insertIdx k value)) := by
  have put := putBefore_eq_insertIdx value 0 within
  rw [Nat.zero_add] at put
  simp only [insertPKComponent, splitPKValues_joinPKValues some_]
  rw [if_neg (by omega), add_sub_cancel_right]
  simp only [Nat.cast_inj, put]

/-- A text of no components is taken for one of one component, and nothing is put into it. -/
theorem insertPKComponent_empty (k : ℤ) (value : Bytes) : insertPKComponent [] k 1 value = none :=
  rfl

/-- Dropping a component and putting it back gives the key back, unless it was the only
one. -/
theorem insert_drop_iff (within : k < parts.length) :
    ((dropPKComponent (joinPKValues parts) k parts.length).bind fun kept =>
        insertPKComponent kept k parts.length (parts.get ⟨k, within⟩)) =
          some (joinPKValues parts) ↔ 2 ≤ parts.length := by
  rw [dropPKComponent_joinPKValues within, Option.bind_some]
  have shorter := length_eraseIdx_of_lt within
  by_cases several : 2 ≤ parts.length
  · have some_ : parts.eraseIdx k ≠ [] := ne_nil_of_length_pos (by omega)
    have put := insertPKComponent_joinPKValues some_ (k := k) (by omega) (parts.get ⟨k, within⟩)
    have count : ((parts.eraseIdx k).length : ℤ) + 1 = parts.length := by omega
    rw [count, get_eq_getElem, insertIdx_eraseIdx_getElem within] at put
    exact iff_of_true put several
  · have none_ : parts.eraseIdx k = [] := eq_nil_of_length_eq_zero (by omega)
    have one : (parts.length : ℤ) = 1 := by omega
    have refused := insertPKComponent_empty k (parts.get ⟨k, within⟩)
    rw [← one] at refused
    rw [none_]
    exact iff_of_false (fun same => nomatch refused.symm.trans same) several

/-- Putting a component in and dropping it gives the key back, unless it has none. -/
theorem drop_insert_iff (within : k ≤ parts.length) (value : Bytes) :
    ((insertPKComponent (joinPKValues parts) k (parts.length + 1) value).bind fun longer =>
        dropPKComponent longer k (parts.length + 1)) = some (joinPKValues parts) ↔
      parts ≠ [] := by
  by_cases none_ : parts = []
  · subst none_
    exact iff_of_false (by simp [joinPKValues, SQL.join, insertPKComponent_empty]) (by simp)
  · have longer : (parts.insertIdx k value).length = parts.length + 1 := by
      rw [length_insertIdx, if_pos within]
    have inside : k < (parts.insertIdx k value).length := by omega
    have drop := dropPKComponent_joinPKValues inside
    rw [longer, eraseIdx_insertIdx_self, Nat.cast_add, Nat.cast_one] at drop
    rw [insertPKComponent_joinPKValues none_ within, Option.bind_some, drop]
    exact iff_of_true rfl none_

/-- The text of a key is a codec of its components: splitting gives them back exactly when
there is one; two keys share a text only if they are equal, or one has no component and the
other a single empty one; a component dropped and put back leaves the key as it was exactly
when the key has another one, and a component put in and dropped, when it has any. -/
theorem keyText_codec (parts : List Bytes) :
    (splitPKValues (joinPKValues parts) = parts ↔ parts ≠ []) ∧
      (∀ others : List Bytes, (joinPKValues parts = joinPKValues others → parts = others) ↔
        ¬(parts = [] ∧ others = [[]] ∨ parts = [[]] ∧ others = [])) ∧
      (∀ (k : ℕ) (within : k < parts.length),
        ((dropPKComponent (joinPKValues parts) k parts.length).bind fun kept =>
            insertPKComponent kept k parts.length (parts.get ⟨k, within⟩)) =
              some (joinPKValues parts) ↔ 2 ≤ parts.length) ∧
      ∀ k ≤ parts.length, ∀ value : Bytes,
        ((insertPKComponent (joinPKValues parts) k (parts.length + 1) value).bind fun longer =>
            dropPKComponent longer k (parts.length + 1)) = some (joinPKValues parts) ↔
          parts ≠ [] := by
  refine ⟨?_, fun others => ?_, fun k within => insert_drop_iff within,
    fun k within value => drop_insert_iff within value⟩
  · constructor
    · rintro back rfl
      exact absurd back (by decide)
    · exact splitPKValues_joinPKValues
  · constructor
    · rintro inj (⟨rfl, rfl⟩ | ⟨rfl, rfl⟩)
      · exact absurd (inj rfl) (by decide)
      · exact absurd (inj rfl) (by decide)
    · intro apart same
      exact (eq_or_of_joinPKValues_eq same).resolve_right apart

/-- A key of a component with both special bytes and an empty one. -/
theorem specialKey_codec :
    splitPKValues (joinPKValues [[92, 124, 92], []]) = [[92, 124, 92], []] ∧
      ((dropPKComponent (joinPKValues [[92, 124, 92], []]) 1 2).bind fun kept =>
        insertPKComponent kept 1 2 []) = some (joinPKValues [[92, 124, 92], []]) :=
  ⟨(keyText_codec [[92, 124, 92], []]).1.mpr (by decide),
    ((keyText_codec [[92, 124, 92], []]).2.2.1 1 (by decide)).mpr (by decide)⟩

/-- A key of one component: it can be dropped, and then not be put back. -/
theorem onlyComponent_lost :
    dropPKComponent (joinPKValues [[53]]) 0 1 = some [] ∧
      insertPKComponent [] 0 1 [53] = none ∧ splitPKValues (joinPKValues []) = [[]] := by
  decide

/-! ## The stored spelling -/

open Utf8

/-- Escaping only puts ASCII bytes beside ASCII bytes. -/
theorem wellFormed_escapePKValue (before val : Bytes) :
    WellFormed (before ++ escapePKValue val) ↔ WellFormed (before ++ val) := by
  induction val generalizing before with
  | nil => rfl
  | cons c val ih =>
    by_cases special : c = 92 ∨ c = 124
    · have pair : escapeByte c = [92, c] ∧ c < 0x80 := by
        rcases special with rfl | rfl <;> decide
      have own := wellFormed_append_ascii (s := []) (t := escapePKValue val) pair.2
      have alone := ih []
      simp only [nil_append, WellFormed.nil, true_and] at own alone
      rw [escapePKValue_cons, pair.1, cons_append, singleton_append,
        wellFormed_append_ascii (by decide), own, alone, wellFormed_append_ascii pair.2]
    · push Not at special
      rw [escapePKValue_cons, escapeByte, if_neg special.1, if_neg special.2, ← append_assoc, ih,
        append_assoc, singleton_append]

theorem valid_joinPKValues :
    valid (joinPKValues parts) = true ↔ ∀ p ∈ parts, valid p = true := by
  unfold joinPKValues
  induction parts with
  | nil => simp [SQL.join, valid, validFrom]
  | cons p parts ih =>
    have own := wellFormed_escapePKValue [] p
    cases parts with
    | nil =>
      simp only [map_cons, map_nil, SQL.join, forall_mem_singleton, valid_iff]
      exact own
    | cons q parts =>
      rw [forall_mem_cons, ← ih, valid_iff, valid_iff, valid_iff, map_cons, map_cons, SQL.join,
        append_assoc, singleton_append, wellFormed_append_ascii (by decide), ← map_cons]
      exact and_congr_left fun _ => own

theorem hexDigit_ascii : ∀ x : UInt8, hexDigit (x >>> 4) < 0x80 ∧ hexDigit (x &&& 15) < 0x80 := by
  decide +kernel

theorem valid_formatBytes (b : Bytes) : valid (formatBytes b) = true := by
  unfold formatBytes
  split
  next text => exact text
  next =>
    refine valid_iff.mpr (.append (.of_ascii (by simp)) (.of_ascii fun c member => ?_))
    obtain ⟨x, -, digit⟩ := mem_flatMap.mp member
    rcases mem_pair.mp digit with rfl | rfl
    · exact (hexDigit_ascii x).1
    · exact (hexDigit_ascii x).2

theorem valid_canonicalPKValues (s : Bytes) : valid (canonicalPKValues s) = true := by
  unfold canonicalPKValues
  split
  next text => exact text
  next =>
    refine valid_joinPKValues.mpr fun p member => ?_
    obtain ⟨raw, -, rfl⟩ := mem_map.mp member
    exact valid_formatBytes raw

/-- A stored key goes over to the spelling its raw components get today, is left alone
exactly when all of them are UTF-8, and stays as it is from then on. -/
theorem canonicalPKValues_joinPKValues (parts : List Bytes) :
    canonicalPKValues (joinPKValues parts) = buildBytePKValues parts ∧
      (valid (joinPKValues parts) = true ↔ ∀ p ∈ parts, valid p = true) ∧
      ∀ s : Bytes, canonicalPKValues (canonicalPKValues s) = canonicalPKValues s := by
  refine ⟨?_, valid_joinPKValues, fun s => if_pos (valid_canonicalPKValues s)⟩
  by_cases text : valid (joinPKValues parts) = true
  · have same : parts.map formatBytes = parts :=
      (map_congr_left fun p member => if_pos (valid_joinPKValues.mp text p member)).trans
        (map_id parts)
    rw [canonicalPKValues, if_pos text, buildBytePKValues, same]
  · have some_ : parts ≠ [] := by
      rintro rfl
      exact text (by decide)
    rw [canonicalPKValues, if_neg text, splitPKValues_joinPKValues some_, buildBytePKValues]

/-- The bytes E9 7C beside a pipe. -/
theorem latinKey_canonical :
    canonicalPKValues (joinPKValues [[233, 124], [124]]) = utf8 "0xE97C|\\|" ∧
      ¬∀ p ∈ [[233, 124], [124]], valid p = true := by
  obtain ⟨stored, text, -⟩ := canonicalPKValues_joinPKValues [[233, 124], [124]]
  exact ⟨stored.trans (by decide), text.not.mp (by decide)⟩

end Dbtrail.PKValues
