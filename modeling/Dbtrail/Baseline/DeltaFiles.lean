import Dbtrail.Lib.Decimal
import Dbtrail.Baseline.TableDelta

/-!
# The files of a chain by name

A pair of a chain is two files beside the base, named after the table, the sequence (or
the two ends of a range) and what they hold. `markTableDeltaFiles` reads a directory's
names into chains: every sequence with both its files, and the ranges tiling `0..N`.
-/

namespace Dbtrail

open List

abbrev FileName : Type := List Char

def tableDeltaSeqWidth : ℕ := 6

inductive DeltaSuffix : Type where
  | posdel
  | upserts
  deriving DecidableEq, Repr

def DeltaSuffix.text : DeltaSuffix → FileName
  | .posdel => ".posdel".toList
  | .upserts => ".upserts".toList

/-- What a name says: the table's stem, and the two ends of the sequences, or none for the
layout before chains were numbered. -/
structure DeltaName : Type where
  stem : FileName
  seqs : Option (ℕ × ℕ)
  suffix : DeltaSuffix
  deriving DecidableEq, Repr

def tableDeltaPath (stem : FileName) (seq : ℕ) (suffix : DeltaSuffix) : FileName :=
  stem ++ '.' :: zeroPadded tableDeltaSeqWidth seq ++ suffix.text

def tableDeltaRangePath (stem : FileName) (lo hi : ℕ) (suffix : DeltaSuffix) : FileName :=
  stem ++ '.' :: (zeroPadded tableDeltaSeqWidth lo ++ '-' :: zeroPadded tableDeltaSeqWidth hi) ++
    suffix.text

/-- `TableDeltaFile.PathsUnder`. -/
def pathUnder (stem : FileName) (lo hi : ℕ) (suffix : DeltaSuffix) : FileName :=
  if lo ≠ hi then tableDeltaRangePath stem lo hi suffix else tableDeltaPath stem hi suffix

/-- The part before the last dot and the part after it. -/
def cutLastDot (rest : FileName) : Option (FileName × FileName) :=
  match rest.reverse.dropWhile (· != '.') with
  | [] => none
  | _ :: stem => some (stem.reverse, (rest.reverse.takeWhile (· != '.')).reverse)

/-- The middle segment of a name: a sequence, or a range of them. -/
def parseSeqs (seg : FileName) : Option (ℕ × ℕ) :=
  if seg.length = tableDeltaSeqWidth then
    if isDigits seg then some (digitsVal seg, digitsVal seg) else none
  else if seg.length = 2 * tableDeltaSeqWidth + 1 then
    let a := seg.take tableDeltaSeqWidth
    let b := seg.drop (tableDeltaSeqWidth + 1)
    if seg[tableDeltaSeqWidth]? = some '-' ∧ isDigits a ∧ isDigits b ∧
        digitsVal a < digitsVal b then
      some (digitsVal a, digitsVal b)
    else none
  else none

def deltaSuffix? (name : FileName) : Option DeltaSuffix :=
  if DeltaSuffix.posdel.text.isSuffixOf name then some .posdel
  else if DeltaSuffix.upserts.text.isSuffixOf name then some .upserts
  else none

def parseTableDeltaRange (name : FileName) : Option DeltaName :=
  match deltaSuffix? name with
  | none => none
  | some suffix =>
      let rest := name.take (name.length - suffix.text.length)
      if rest = [] ∨ rest.head? = some '.' then none
      else
        let seqs := (cutLastDot rest).bind fun (stem, seg) =>
          if stem = [] then none else (parseSeqs seg).map fun seqs => (stem, seqs)
        match seqs with
        | some (stem, seqs) => some ⟨stem, some seqs, suffix⟩
        | none => some ⟨rest, none, suffix⟩

/-! ## Chains -/

/-- What the names of one sequence have shown so far. -/
structure Half : Type where
  lo : Option ℕ
  posdel : Option FileName
  upserts : Option FileName
  deriving DecidableEq, Repr

def Half.set (h : Half) (suffix : DeltaSuffix) (name : FileName) : Half :=
  match suffix with
  | .posdel => { h with posdel := some name }
  | .upserts => { h with upserts := some name }

def Half.get (h : Half) : DeltaSuffix → Option FileName
  | .posdel => h.posdel
  | .upserts => h.upserts

abbrev Halves : Type := AList fun _ : Option ℕ => Half

/-- Two names that end at one sequence and start at different ones claim the same changes: both are
forgotten, and the sequence is damaged. -/
def addName (halves : Halves) (name : FileName) (read : DeltaName) : Halves :=
  let lo := read.seqs.map Prod.fst
  let hi := read.seqs.map Prod.snd
  let h := (halves.lookup hi).getD ⟨lo, none, none⟩
  halves.insert hi
    (if h.lo ≠ lo then { h with posdel := none, upserts := none } else h.set read.suffix name)

structure TableDeltaFile : Type where
  seqLo : ℕ
  seq : ℕ
  posdel : FileName
  upserts : FileName
  deriving DecidableEq, Repr

def TableDeltaFile.range (f : TableDeltaFile) : Bool := f.seqLo != f.seq

structure TableDeltaChain : Type where
  files : List TableDeltaFile
  legacy : Option (FileName × FileName)
  deriving DecidableEq, Repr

/-- Each file starts right after the one before it ends. -/
def tiles : ℕ → List TableDeltaFile → Bool
  | _, [] => true
  | next, f :: files => f.seqLo == next && tiles (f.seq + 1) files

def Half.pair (h : Half) : Option (FileName × FileName) :=
  h.posdel.bind fun posdel => h.upserts.map fun upserts => (posdel, upserts)

def addNames (es : List (FileName × DeltaName)) : Halves :=
  es.foldl (fun halves e => addName halves e.1 e.2) ∅

/-- The numbered pairs by sequence, or nothing when one of them is half. -/
def numberedFiles (halves : Halves) : Option (List TableDeltaFile) :=
  ((halves.keys.filterMap id).insertionSort (· ≤ ·)).mapM fun seq =>
    (halves.lookup (some seq)).bind fun h => h.pair.map fun pair =>
      ⟨h.lo.getD 0, seq, pair.1, pair.2⟩

/-- The chain the names of one table form, or nothing when they are damaged. -/
def markStem (entries : List (FileName × DeltaName)) : Option TableDeltaChain :=
  match numberedFiles (addNames entries), ((addNames entries).lookup none).map Half.pair with
  | none, _ => none
  | _, some none => none
  | some files, some (some pair) => if files = [] then some ⟨[], some pair⟩ else none
  | some files, none => if tiles 0 files then some ⟨files, none⟩ else none

def deltaEntries (names : List FileName) : List (FileName × DeltaName) :=
  names.filterMap fun name => (parseTableDeltaRange name).map fun read => (name, read)

def entriesOf (names : List FileName) (stem : FileName) : List (FileName × DeltaName) :=
  (deltaEntries names).filter fun e => e.2.stem = stem

/-- The base beside which a table's files lie. -/
def baseName (stem : FileName) : String := String.ofList (stem ++ ".parquet".toList)

/-- The chain beside each table of a directory, or the tables whose files are damaged. -/
def markTableDeltaFiles (names : List FileName) :
    Except (List FileName) (List (FileName × TableDeltaChain)) :=
  let stems := ((deltaEntries names).map fun e => e.2.stem).dedup
  match stems.filter fun stem => (markStem (entriesOf names stem)).isNone with
  | [] => .ok (stems.filterMap fun stem => (markStem (entriesOf names stem)).map fun c => (stem, c))
  | damaged => .error (damaged.insertionSort fun a b => baseName a ≤ baseName b)

/-! ## Names read back -/

theorem cutLastDot_append (stem : FileName) {seg : FileName} (noDot : '.' ∉ seg) :
    cutLastDot (stem ++ '.' :: seg) = some (stem, seg) := by
  have all : ∀ c ∈ seg.reverse, (c != '.') = true := fun c member => by
    simp only [bne_iff_ne]
    rintro rfl
    exact noDot (mem_reverse.mp member)
  have reversed : (stem ++ '.' :: seg).reverse = seg.reverse ++ '.' :: stem.reverse := by simp
  unfold cutLastDot
  rw [reversed, dropWhile_append_of_pos all, takeWhile_append_of_pos all]
  simp

theorem text_isSuffixOf_iff (suffix other : DeltaSuffix) (rest : FileName) :
    suffix.text.isSuffixOf (rest ++ other.text) = true ↔ suffix = other := by
  rw [isSuffixOf_iff_suffix]
  constructor
  · intro isSuffix
    obtain ⟨front, eq⟩ := isSuffix
    have last := congrArg getLast? eq
    rw [getLast?_append, getLast?_append] at last
    cases suffix <;> cases other <;> first | rfl | cases last
  · rintro rfl
    exact suffix_append _ _

theorem deltaSuffix?_append (rest : FileName) (suffix : DeltaSuffix) :
    deltaSuffix? (rest ++ suffix.text) = some suffix := by
  unfold deltaSuffix?
  cases suffix with
  | posdel => rw [if_pos ((text_isSuffixOf_iff _ _ _).mpr rfl)]
  | upserts =>
    have no : ¬(DeltaSuffix.posdel.text.isSuffixOf (rest ++ DeltaSuffix.upserts.text) = true) :=
      fun is => nomatch (text_isSuffixOf_iff _ _ _).mp is
    rw [if_neg no, if_pos ((text_isSuffixOf_iff _ _ _).mpr rfl)]

theorem parse_append {stem seg : FileName} {seqs : ℕ × ℕ} (suffix : DeltaSuffix)
    (visible : stem ≠ [] ∧ stem.head? ≠ some '.') (noDot : '.' ∉ seg)
    (parsed : parseSeqs seg = some seqs) :
    parseTableDeltaRange (stem ++ '.' :: seg ++ suffix.text) = some ⟨stem, some seqs, suffix⟩ := by
  unfold parseTableDeltaRange
  rw [deltaSuffix?_append]
  have rest : (stem ++ '.' :: seg ++ suffix.text).take
      ((stem ++ '.' :: seg ++ suffix.text).length - suffix.text.length) = stem ++ '.' :: seg := by
    rw [length_append, Nat.add_sub_cancel, take_left']
    rfl
  dsimp only
  rw [rest, cutLastDot_append stem noDot, if_neg]
  · simp [visible.1, parsed]
  · rintro (none | dot)
    · simp at none
    · rw [head?_append_of_ne_nil _ visible.1] at dot
      exact visible.2 dot

theorem dot_notMem_zeroPadded {n : ℕ} (fits : n < 10 ^ tableDeltaSeqWidth) :
    '.' ∉ zeroPadded tableDeltaSeqWidth n := by
  rw [zeroPadded_eq fits]
  intro member
  exact absurd (isDigit_of_mem_lastDigits member) (by decide)

theorem length_zeroPadded {n : ℕ} (fits : n < 10 ^ tableDeltaSeqWidth) :
    (zeroPadded tableDeltaSeqWidth n).length = tableDeltaSeqWidth := by
  rw [zeroPadded_eq fits, length_lastDigits]

theorem digitsVal_zeroPadded {n : ℕ} (fits : n < 10 ^ tableDeltaSeqWidth) :
    digitsVal (zeroPadded tableDeltaSeqWidth n) = n := by
  rw [zeroPadded_eq fits, digitsVal_lastDigits fits]

/-- The two ends of a pair a name can carry. -/
structure Named (lo hi : ℕ) : Prop where
  le : lo ≤ hi
  fits : hi < 10 ^ tableDeltaSeqWidth

/-- A pair's file names read back as its ends. -/
theorem parse_pathUnder {stem : FileName} {lo hi : ℕ} (named : Named lo hi) (suffix : DeltaSuffix)
    (visible : stem ≠ [] ∧ stem.head? ≠ some '.') :
    parseTableDeltaRange (pathUnder stem lo hi suffix) = some ⟨stem, some (lo, hi), suffix⟩ := by
  have fitsLo : lo < 10 ^ tableDeltaSeqWidth := named.le.trans_lt named.fits
  unfold pathUnder
  split
  · rename_i ne
    refine parse_append suffix visible ?_ ?_
    · rw [mem_append, mem_cons]
      rintro (inLo | dash | inHi)
      · exact dot_notMem_zeroPadded fitsLo inLo
      · cases dash
      · exact dot_notMem_zeroPadded named.fits inHi
    · have lengthLo := length_zeroPadded fitsLo
      have lengthHi := length_zeroPadded named.fits
      have length : (zeroPadded tableDeltaSeqWidth lo ++
          '-' :: zeroPadded tableDeltaSeqWidth hi).length = 2 * tableDeltaSeqWidth + 1 := by
        rw [length_append, length_cons, lengthLo, lengthHi]
        rfl
      unfold parseSeqs
      rw [if_neg (by rw [length]; decide), if_pos length]
      have left : (zeroPadded tableDeltaSeqWidth lo ++
          '-' :: zeroPadded tableDeltaSeqWidth hi).take tableDeltaSeqWidth =
          zeroPadded tableDeltaSeqWidth lo := take_left' lengthLo
      have right : (zeroPadded tableDeltaSeqWidth lo ++
          '-' :: zeroPadded tableDeltaSeqWidth hi).drop (tableDeltaSeqWidth + 1) =
          zeroPadded tableDeltaSeqWidth hi := by
        rw [← drop_drop, drop_left' lengthLo]
        rfl
      have dash : (zeroPadded tableDeltaSeqWidth lo ++
          '-' :: zeroPadded tableDeltaSeqWidth hi)[tableDeltaSeqWidth]? = some '-' := by
        rw [getElem?_append_right lengthLo.le, lengthLo]
        rfl
      dsimp only
      rw [left, right, digitsVal_zeroPadded fitsLo, digitsVal_zeroPadded named.fits, if_pos]
      exact ⟨dash, isDigits_zeroPadded fitsLo, isDigits_zeroPadded named.fits,
        lt_of_le_of_ne named.le ne⟩
  · rename_i eq
    obtain rfl : lo = hi := not_not.mp eq
    refine parse_append suffix visible (dot_notMem_zeroPadded fitsLo) ?_
    unfold parseSeqs
    have digits : isDigits (zeroPadded tableDeltaSeqWidth lo) = true := isDigits_zeroPadded fitsLo
    rw [if_pos (length_zeroPadded fitsLo), if_pos digits, digitsVal_zeroPadded fitsLo]

/-! ## Chains read back -/

section

variable (stem : FileName)

/-- A pair's file with the names it has beside the base. -/
def fileUnder (ends : ℕ × ℕ) : TableDeltaFile :=
  ⟨ends.1, ends.2, pathUnder stem ends.1 ends.2 .posdel, pathUnder stem ends.1 ends.2 .upserts⟩

def entryOf (ends : ℕ × ℕ) (suffix : DeltaSuffix) : FileName × DeltaName :=
  (pathUnder stem ends.1 ends.2 suffix, ⟨stem, some ends, suffix⟩)

def chainNames (chain : List (ℕ × ℕ)) : List FileName :=
  chain.flatMap fun ends =>
    [pathUnder stem ends.1 ends.2 .posdel, pathUnder stem ends.1 ends.2 .upserts]

variable {stem}

theorem addNames_concat (es : List (FileName × DeltaName)) (e : FileName × DeltaName) :
    addNames (es ++ [e]) = addName (addNames es) e.1 e.2 := by
  unfold addNames
  rw [foldl_append, foldl_cons, foldl_nil]

/-- The ends of a chain tile. -/
def EndsTile : ℕ → List (ℕ × ℕ) → Prop
  | _, [] => True
  | next, ends :: chain => ends.1 = next ∧ EndsTile (ends.2 + 1) chain

theorem tiles_iff {next : ℕ} {chain : List (ℕ × ℕ)} :
    tiles next (chain.map (fileUnder stem)) = true ↔ EndsTile next chain := by
  induction chain generalizing next with
  | nil => simp [tiles, EndsTile]
  | cons ends chain ih => simp [tiles, EndsTile, ih, fileUnder]

/-- Pairs that tile are in sequence order. -/
theorem EndsTile.ordered {next : ℕ} {chain : List (ℕ × ℕ)} (tiled : EndsTile next chain)
    (le : ∀ ends ∈ chain, ends.1 ≤ ends.2) :
    (∀ ends ∈ chain, next ≤ ends.1) ∧ chain.Pairwise fun a b => a.2 < b.1 := by
  induction chain generalizing next with
  | nil => exact ⟨nofun, .nil⟩
  | cons first chain ih =>
    obtain ⟨starts, tiled⟩ := tiled
    obtain ⟨after, ordered⟩ := ih tiled fun ends member => le ends (by simp [member])
    have own := le first (by simp)
    refine ⟨fun ends member => ?_, pairwise_cons.mpr ⟨fun ends member => ?_, ordered⟩⟩
    · rcases mem_cons.mp member with rfl | later
      · exact starts.ge
      · have := after ends later
        omega
    · have := after ends member
      omega

theorem deltaEntries_chainNames {chain : List (ℕ × ℕ)}
    (visible : stem ≠ [] ∧ stem.head? ≠ some '.') (named : ∀ ends ∈ chain, Named ends.1 ends.2) :
    deltaEntries (chainNames stem chain) = chain.flatMap fun ends =>
      [entryOf stem ends .posdel, entryOf stem ends .upserts] := by
  induction chain with
  | nil => rfl
  | cons ends chain ih =>
    have rest := ih fun other member => named other (by simp [member])
    have own := named ends (by simp)
    unfold deltaEntries chainNames at rest ⊢
    rw [flatMap_cons, filterMap_append, rest, flatMap_cons]
    simp [parse_pathUnder own _ visible, entryOf]

end

end Dbtrail
