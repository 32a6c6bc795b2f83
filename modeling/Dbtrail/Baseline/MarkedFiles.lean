import Dbtrail.Baseline.DeltaFiles
import Dbtrail.Lib.Checked
import Dbtrail.Lib.Trim

/-!
# Which directories hold chains

`markTableDeltaFiles` accepts a table by its file names alone. `markTableDeltaFiles_iff` says
which names those are: the two files of the layout before chains were numbered, or both files
of every pair of a tiling of `0..N`; a table with any other delta files is damaged. The names
may come in any order. `markTableDeltaFiles_names` is the round trip: the names of a chain that
tiles read back as it.

A directory has each name once. In a list that repeats one, a pair whose names lie around a
name that claims the same sequence is read although the two overlap (`repeatedName_read`).
-/

namespace Dbtrail

open List

/-! ## Names and what they say -/

/-- The name that says it. -/
def DeltaName.path (read : DeltaName) : FileName :=
  match read.seqs with
  | some (lo, hi) => pathUnder read.stem lo hi read.suffix
  | none => read.stem ++ read.suffix.text

theorem parseSeqs_eq_some {seg : FileName} {lo hi : ℕ} (parsed : parseSeqs seg = some (lo, hi)) :
    Named lo hi ∧
      ∀ stem suffix, stem ++ '.' :: seg ++ suffix.text = pathUnder stem lo hi suffix := by
  unfold parseSeqs at parsed
  split at parsed
  next length =>
    split at parsed
    next digits =>
      cases parsed
      have all : ∀ c ∈ seg, c.isDigit = true :=
        List.all_eq_true.mp (Bool.and_eq_true_iff.mp digits).2
      obtain ⟨fits, same⟩ := lastDigits_digitsVal all
      rw [length] at fits same
      refine ⟨⟨le_rfl, fits⟩, fun stem suffix => ?_⟩
      rw [pathUnder, if_neg (not_not.mpr rfl), tableDeltaPath, zeroPadded_eq fits, same]
    next => cases parsed
  next =>
  split at parsed
  next length =>
    dsimp only at parsed
    split at parsed
    next range =>
      cases parsed
      obtain ⟨dash, digitsLo, digitsHi, lt⟩ := range
      have allLo := List.all_eq_true.mp (Bool.and_eq_true_iff.mp digitsLo).2
      have allHi := List.all_eq_true.mp (Bool.and_eq_true_iff.mp digitsHi).2
      obtain ⟨fitsLo, sameLo⟩ := lastDigits_digitsVal allLo
      obtain ⟨fitsHi, sameHi⟩ := lastDigits_digitsVal allHi
      have lengthLo : (seg.take tableDeltaSeqWidth).length = tableDeltaSeqWidth := by
        rw [List.length_take, length]
        rfl
      have lengthHi : (seg.drop (tableDeltaSeqWidth + 1)).length = tableDeltaSeqWidth := by
        rw [List.length_drop, length]
        rfl
      rw [lengthLo] at fitsLo sameLo
      rw [lengthHi] at fitsHi sameHi
      refine ⟨⟨lt.le, fitsHi⟩, fun stem suffix => ?_⟩
      have whole : seg =
          seg.take tableDeltaSeqWidth ++ '-' :: seg.drop (tableDeltaSeqWidth + 1) := by
        obtain ⟨within, isDash⟩ := List.getElem?_eq_some_iff.mp dash
        rw [← isDash, List.getElem_cons_drop, List.take_append_drop]
      rw [pathUnder, if_pos lt.ne, tableDeltaRangePath, zeroPadded_eq fitsLo, zeroPadded_eq fitsHi,
        sameLo, sameHi, ← whole]
    next => cases parsed
  next => cases parsed

theorem cutLastDot_eq_some {rest stem seg : FileName} (cut : cutLastDot rest = some (stem, seg)) :
    rest = stem ++ '.' :: seg := by
  unfold cutLastDot at cut
  split at cut
  next => cases cut
  next c front dropped =>
    cases cut
    have isDot : c = '.' := by
      have head := head_dropWhile_not (· != '.') (l := rest.reverse)
        (by rw [dropped]; exact cons_ne_nil c front)
      simpa [dropped] using head
    have whole := takeWhile_append_dropWhile (p := (· != '.')) (l := rest.reverse)
    rw [dropped, isDot] at whole
    have back := congrArg reverse whole
    rw [reverse_reverse] at back
    refine back.symm.trans ?_
    simp

theorem deltaSuffix?_eq_some {name : FileName} {suffix : DeltaSuffix}
    (isSuffix : deltaSuffix? name = some suffix) :
    name.take (name.length - suffix.text.length) ++ suffix.text = name := by
  have ends : suffix.text <:+ name := by
    unfold deltaSuffix? at isSuffix
    split at isSuffix
    next posdel =>
      cases isSuffix
      exact isSuffixOf_iff_suffix.mp posdel
    next =>
      split at isSuffix
      next upserts =>
        cases isSuffix
        exact isSuffixOf_iff_suffix.mp upserts
      next => cases isSuffix
  obtain ⟨front, rfl⟩ := ends
  rw [length_append, Nat.add_sub_cancel, take_left]

/-- A name is read as what it says and nothing else. -/
theorem parseTableDeltaRange_eq_some {name : FileName} {read : DeltaName}
    (parsed : parseTableDeltaRange name = some read) :
    name = read.path ∧ (∀ ends ∈ read.seqs, Named ends.1 ends.2) ∧
      read.stem ≠ [] ∧ read.stem.head? ≠ some '.' := by
  unfold parseTableDeltaRange at parsed
  split at parsed
  next => cases parsed
  next suffix isSuffix =>
    have whole := deltaSuffix?_eq_some isSuffix
    dsimp only at parsed
    split at parsed
    next => cases parsed
    next shown =>
      push Not at shown
      split at parsed
      next stem seqs cutAndRead =>
        cases parsed
        obtain ⟨⟨front, seg⟩, cut, numbered⟩ := Option.bind_eq_some_iff.mp cutAndRead
        dsimp only at numbered
        split at numbered
        next => cases numbered
        next some_ =>
          obtain ⟨⟨lo, hi⟩, isEnds, same⟩ := Option.map_eq_some_iff.mp numbered
          cases same
          obtain ⟨named, path⟩ := parseSeqs_eq_some isEnds
          have rest := cutLastDot_eq_some cut
          refine ⟨?_, fun ends isSome => Option.some.inj isSome ▸ named, some_, ?_⟩
          · rw [← whole, rest]
            exact path stem suffix
          · rw [rest, head?_append_of_ne_nil _ some_] at shown
            exact shown.2
      next =>
        cases parsed
        exact ⟨whole.symm, nofun, shown⟩

/-! ## One sequence -/

/-- The sequence a name ends at, and the one it starts at. -/
def keyOf (e : FileName × DeltaName) : Option ℕ := e.2.seqs.map Prod.snd

def loOf (e : FileName × DeltaName) : Option ℕ := e.2.seqs.map Prod.fst

/-- The name of a table's file with what it says. -/
def entryAt (stem : FileName) (seqs : Option (ℕ × ℕ)) (suffix : DeltaSuffix) :
    FileName × DeltaName :=
  (DeltaName.path ⟨stem, seqs, suffix⟩, ⟨stem, seqs, suffix⟩)

/-- One more name of a sequence. -/
def seeName (seen : Option Half) (e : FileName × DeltaName) : Option Half :=
  let h := seen.getD ⟨loOf e, none, none⟩
  some (if h.lo ≠ loOf e then { h with posdel := none, upserts := none } else h.set e.2.suffix e.1)

theorem addName_eq (halves : Halves) (e : FileName × DeltaName) :
    ∃ h, seeName (halves.lookup (keyOf e)) e = some h ∧
      addName halves e.1 e.2 = halves.insert (keyOf e) h := ⟨_, rfl, rfl⟩

/-- What is known of a sequence comes from the names that end at it. -/
theorem lookup_addNames_eq (es : List (FileName × DeltaName)) (k : Option ℕ) :
    (addNames es).lookup k = (es.filter fun e => keyOf e = k).foldl seeName none := by
  induction es using reverseRecOn with
  | nil => rfl
  | append_singleton es e ih =>
    obtain ⟨h, seen, added⟩ := addName_eq (addNames es) e
    rw [addNames_concat, added, filter_append]
    by_cases own : keyOf e = k
    · rw [filter_cons_of_pos (by simpa using own), filter_nil, foldl_append, ← ih,
        foldl_cons, foldl_nil, ← own, AList.lookup_insert, seen]
    · rw [filter_cons_of_neg (by simpa using own), filter_nil, append_nil, ← ih,
        AList.lookup_insert_ne (fun same => own same.symm)]

theorem Half.set_lo (h : Half) (suffix : DeltaSuffix) (name : FileName) :
    (h.set suffix name).lo = h.lo := by
  cases suffix <;> rfl

theorem Half.get_set (h : Half) (suffix other : DeltaSuffix) (name : FileName) :
    (h.set suffix name).get other = if other = suffix then some name else h.get other := by
  cases suffix <;> cases other <;> rfl

/-- What the names of one sequence show: after two that start at different sequences the first
one's file is missing; otherwise the files listed. -/
structure Shows (fs : List (FileName × DeltaName)) (h : Half) : Prop where
  lo : ∃ first ∈ fs, h.lo = loOf first ∧
    ((∃ f ∈ fs, loOf f ≠ h.lo) → h.get first.2.suffix = none)
  listed : (∀ f ∈ fs, loOf f = h.lo) → ∀ suffix name,
    h.get suffix = some name ↔ ∃ f ∈ fs, f.2.suffix = suffix ∧ f.1 = name

/-- Names of one table that end at one sequence, each once. -/
structure SameKey (stem : FileName) (k : Option ℕ) (fs : List (FileName × DeltaName)) : Prop where
  entry : ∀ f ∈ fs, f = entryAt stem f.2.seqs f.2.suffix
  key : ∀ f ∈ fs, keyOf f = k
  nodup : fs.Nodup

variable {stem : FileName} {k : Option ℕ} {fs es : List (FileName × DeltaName)}
  {chain : List (ℕ × ℕ)} {c : TableDeltaChain} {e : FileName × DeltaName}
  {names names' : List FileName}

theorem seqs_eq {a b : Option (ℕ × ℕ)} (lo : a.map Prod.fst = b.map Prod.fst)
    (hi : a.map Prod.snd = b.map Prod.snd) : a = b := by
  cases a <;> cases b <;> simp_all [Prod.ext_iff]

theorem SameKey.eq_of_lo (same : SameKey stem k fs) {f g : FileName × DeltaName} (inF : f ∈ fs)
    (inG : g ∈ fs) (lo : loOf f = loOf g) (suffix : f.2.suffix = g.2.suffix) : f = g := by
  have seqs : f.2.seqs = g.2.seqs := seqs_eq lo ((same.key f inF).trans (same.key g inG).symm)
  rw [same.entry f inF, same.entry g inG, seqs, suffix]

/-- Run: one name after the other. -/
theorem foldl_seeName (same : SameKey stem k fs) (some_ : fs ≠ []) :
    ∃ h, fs.foldl seeName none = some h ∧ Shows fs h := by
  induction fs using reverseRecOn with
  | nil => exact absurd rfl some_
  | append_singleton fs e ih =>
    rw [foldl_append, foldl_cons, foldl_nil]
    by_cases first : fs = []
    · refine ⟨Half.set ⟨loOf e, none, none⟩ e.2.suffix e.1, ?_, ⟨e, by simp, Half.set_lo _ _ _, ?_⟩,
        fun _ suffix name => ?_⟩
      · rw [first, foldl_nil, seeName, Option.getD_none, if_neg (not_not.mpr rfl)]
      · rintro ⟨f, member, differs⟩
        rw [first, nil_append, mem_singleton] at member
        rw [member, Half.set_lo] at differs
        exact absurd rfl differs
      · have nothing : Half.get ⟨loOf e, none, none⟩ suffix = none := by cases suffix <;> rfl
        rw [Half.get_set, nothing, first]
        by_cases own : suffix = e.2.suffix
        · simp [own]
        · simp [own, Ne.symm own]
    · have front : SameKey stem k fs :=
        ⟨fun f member => same.entry f (mem_append_left _ member),
          fun f member => same.key f (mem_append_left _ member),
          (nodup_append.mp same.nodup).1⟩
      obtain ⟨h, isHalf, ⟨first, isFirst, lo, missing⟩, listed⟩ := ih front first
      rw [isHalf, seeName, Option.getD_some]
      have firstIn : first ∈ fs ++ [e] := mem_append_left _ isFirst
      by_cases conflict : h.lo ≠ loOf e
      · -- Both are forgotten, and the first name does not come again.
        rw [if_pos conflict]
        refine ⟨_, rfl, ⟨first, firstIn, lo, fun _ => by cases first.2.suffix <;> rfl⟩, ?_⟩
        intro all
        exact absurd (all e (by simp)).symm conflict
      · rw [if_neg conflict]
        have own : h.lo = loOf e := not_not.mp conflict
        refine ⟨_, rfl, ⟨first, firstIn, (Half.set_lo _ _ _).trans lo, ?_⟩, ?_⟩
        · rintro ⟨f, member, differs⟩
          rw [Half.set_lo] at differs
          have earlier : f ∈ fs := by
            refine (mem_append.mp member).resolve_right fun last => differs ?_
            rw [mem_singleton.mp last, own]
          have other : first.2.suffix ≠ e.2.suffix := by
            intro suffix
            have again := same.eq_of_lo firstIn (by simp) (lo.symm.trans own) suffix
            exact (nodup_append.mp same.nodup).2.2 first isFirst e (by simp) again
          rw [Half.get_set, if_neg other]
          exact missing ⟨f, earlier, differs⟩
        · intro all suffix name
          rw [Half.set_lo] at all
          have before := listed (fun f member => all f (mem_append_left _ member)) suffix name
          rw [Half.get_set]
          by_cases isSuffix : suffix = e.2.suffix
          · rw [if_pos isSuffix]
            constructor
            · intro isName
              exact ⟨e, by simp, isSuffix.symm, Option.some.inj isName⟩
            · rintro ⟨f, member, isOther, rfl⟩
              have again := same.eq_of_lo member (mem_append_right _ (mem_singleton_self e))
                ((all f member).trans own) (isOther.trans isSuffix)
              rw [again]
          · rw [if_neg isSuffix, before]
            constructor
            · rintro ⟨f, member, isOther, isName⟩
              exact ⟨f, mem_append_left _ member, isOther, isName⟩
            · rintro ⟨f, member, isOther, isName⟩
              refine ⟨f, (mem_append.mp member).resolve_right fun last => ?_, isOther, isName⟩
              rw [mem_singleton.mp last] at isOther
              exact isSuffix isOther.symm

/-- The two files of a pair, in either order. -/
theorem foldl_seeName_pair {seqs : Option (ℕ × ℕ)}
    (listed : fs.Perm [entryAt stem seqs .posdel, entryAt stem seqs .upserts]) :
    fs.foldl seeName none = some ⟨seqs.map Prod.fst, some (entryAt stem seqs .posdel).1,
      some (entryAt stem seqs .upserts).1⟩ := by
  rcases perm_pair.mp listed with rfl | rfl <;>
    simp [seeName, entryAt, loOf, Half.set]

theorem mem_pair_iff {seqs : Option (ℕ × ℕ)} :
    e ∈ [entryAt stem seqs .posdel, entryAt stem seqs .upserts] ↔
      e = entryAt stem seqs e.2.suffix := by
  rw [mem_cons, mem_singleton]
  constructor
  · rintro (rfl | rfl) <;> rfl
  · intro is
    rw [is]
    cases e.2.suffix <;> simp [entryAt]

theorem pair_nodup (stem : FileName) (seqs : Option (ℕ × ℕ)) :
    [entryAt stem seqs .posdel, entryAt stem seqs .upserts].Nodup := by
  rw [nodup_cons, mem_singleton]
  exact ⟨fun eq => (nomatch congrArg (fun e => e.2.suffix) eq), nodup_singleton _⟩

/-- A sequence has its pair exactly when its names are the two files of one pair. -/
theorem pair_iff (same : SameKey stem k fs) {h : Half} (isHalf : fs.foldl seeName none = some h)
    {pair : FileName × FileName} :
    h.pair = some pair ↔ ∃ seqs, seqs.map Prod.snd = k ∧ seqs.map Prod.fst = h.lo ∧
      fs.Perm [entryAt stem seqs .posdel, entryAt stem seqs .upserts] ∧
      pair = ((entryAt stem seqs .posdel).1, (entryAt stem seqs .upserts).1) := by
  have some_ : fs ≠ [] := by
    rintro rfl
    cases isHalf
  obtain ⟨h', isHalf', ⟨first, isFirst, lo, missing⟩, listed⟩ := foldl_seeName same some_
  obtain rfl : h' = h := Option.some.inj (isHalf'.symm.trans isHalf)
  have got (whole : h'.posdel.isSome = true ∧ h'.upserts.isSome = true) (suffix : DeltaSuffix) :
      (h'.get suffix).isSome = true := by
    cases suffix with
    | posdel => exact whole.1
    | upserts => exact whole.2
  constructor
  · intro paired
    obtain ⟨posdel, isPosdel, rest⟩ := Option.bind_eq_some_iff.mp paired
    obtain ⟨upserts, isUpserts, isPair⟩ := Option.map_eq_some_iff.mp rest
    have agree : ∀ f ∈ fs, loOf f = h'.lo := by
      by_contra differ
      push Not at differ
      have whole := got ⟨by rw [isPosdel]; rfl, by rw [isUpserts]; rfl⟩ first.2.suffix
      rw [missing differ] at whole
      cases whole
    have entries : ∀ f ∈ fs, f = entryAt stem first.2.seqs f.2.suffix := by
      intro f member
      have seqs : f.2.seqs = first.2.seqs := seqs_eq ((agree f member).trans lo)
        ((same.key f member).trans (same.key first isFirst).symm)
      rw [← seqs]
      exact same.entry f member
    have there (suffix : DeltaSuffix) (name : FileName) (isName : h'.get suffix = some name) :
        entryAt stem first.2.seqs suffix ∈ fs ∧ name = (entryAt stem first.2.seqs suffix).1 := by
      obtain ⟨f, member, rfl, rfl⟩ := (listed agree suffix name).mp isName
      rw [← entries f member]
      exact ⟨member, rfl⟩
    obtain ⟨inPosdel, posdelName⟩ := there .posdel posdel isPosdel
    obtain ⟨inUpserts, upsertsName⟩ := there .upserts upserts isUpserts
    refine ⟨first.2.seqs, same.key first isFirst, lo.symm, ?_, ?_⟩
    · refine (perm_ext_iff_of_nodup same.nodup (pair_nodup _ _)).mpr fun f => ⟨fun member => ?_, ?_⟩
      · exact mem_pair_iff.mpr (entries f member)
      · intro member
        rcases mem_cons.mp member with rfl | last
        · exact inPosdel
        · exact mem_singleton.mp last ▸ inUpserts
    · rw [← isPair, posdelName, upsertsName]
  · rintro ⟨seqs, -, -, perm, rfl⟩
    rw [foldl_seeName_pair perm] at isHalf
    cases isHalf
    rfl

/-! ## One table -/

/-- The delta files of a table are those of a chain: the two files of the old layout, or both
files of each pair of a tiling. -/
inductive ChainEntries (stem : FileName) (es : List (FileName × DeltaName)) :
    TableDeltaChain → Prop
  | legacy (listed : es.Perm [entryAt stem none .posdel, entryAt stem none .upserts]) :
      ChainEntries stem es
        ⟨[], some ((entryAt stem none .posdel).1, (entryAt stem none .upserts).1)⟩
  | numbered (chain : List (ℕ × ℕ)) (tiled : EndsTile 0 chain)
      (named : ∀ ends ∈ chain, Named ends.1 ends.2)
      (listed : es.Perm (chain.flatMap fun ends =>
        [entryOf stem ends .posdel, entryOf stem ends .upserts])) :
      ChainEntries stem es ⟨chain.map (fileUnder stem), none⟩

/-- The names of one table, each once. -/
structure TableEntries (stem : FileName) (es : List (FileName × DeltaName)) : Prop where
  entry : ∀ e ∈ es, e = entryAt stem e.2.seqs e.2.suffix
  named : ∀ e ∈ es, ∀ ends ∈ e.2.seqs, Named ends.1 ends.2
  nodup : es.Nodup

theorem TableEntries.sameKey (table : TableEntries stem es) (k : Option ℕ) :
    SameKey stem k (es.filter fun e => keyOf e = k) where
  entry f member := table.entry f (List.mem_filter.mp member).1
  key _ member := of_decide_eq_true (List.mem_filter.mp member).2
  nodup := table.nodup.filter _

theorem lookup_addNames_eq_none (table : TableEntries stem es) {k : Option ℕ} :
    (addNames es).lookup k = none ↔ ∀ e ∈ es, keyOf e ≠ k := by
  rw [lookup_addNames_eq]
  constructor
  · intro none_ e member own
    have some_ : es.filter (fun e => keyOf e = k) ≠ [] :=
      ne_nil_of_mem (mem_filter.mpr ⟨member, decide_eq_true own⟩)
    obtain ⟨h, isHalf, -⟩ := foldl_seeName (table.sameKey k) some_
    rw [none_] at isHalf
    cases isHalf
  · intro absent
    have nothing : es.filter (fun e => keyOf e = k) = [] :=
      filter_eq_nil_iff.mpr fun e member => by simpa using absent e member
    rw [nothing]
    rfl

theorem mem_seqs_iff (table : TableEntries stem es) {n : ℕ} :
    n ∈ ((addNames es).keys.filterMap id).insertionSort (· ≤ ·) ↔ ∃ e ∈ es, keyOf e = some n := by
  rw [(perm_insertionSort (· ≤ ·) _).mem_iff, mem_filterMap]
  have present : (∃ e ∈ es, keyOf e = some n) ↔ some n ∈ (addNames es).keys := by
    rw [← not_iff_not, ← AList.mem_keys, ← AList.lookup_eq_none, lookup_addNames_eq_none table]
    push Not
    rfl
  rw [present]
  exact ⟨fun ⟨key, member, isKey⟩ => (show key = some n from isKey) ▸ member,
    fun member => ⟨some n, member, rfl⟩⟩

/-- Each numbered file that is read stands for a whole pair. -/
theorem numberedFiles_spec (table : TableEntries stem es) {files : List TableDeltaFile}
    (isFiles : numberedFiles (addNames es) = some files) :
    ∀ f ∈ files, f = fileUnder stem (f.seqLo, f.seq) ∧ Named f.seqLo f.seq ∧
      (es.filter fun e => keyOf e = some f.seq).Perm
        [entryOf stem (f.seqLo, f.seq) .posdel, entryOf stem (f.seqLo, f.seq) .upserts] := by
  intro f member
  obtain ⟨seq, -, isFile⟩ := (mem_mapM_some isFiles).2 f member
  obtain ⟨h, isHalf, paired⟩ := Option.bind_eq_some_iff.mp isFile
  obtain ⟨pair, isPair, rfl⟩ := Option.map_eq_some_iff.mp paired
  rw [lookup_addNames_eq] at isHalf
  obtain ⟨seqs, key, lo, perm, rfl⟩ := (pair_iff (table.sameKey (some seq)) isHalf).mp isPair
  obtain ⟨⟨low, high⟩, rfl, rfl⟩ := Option.map_eq_some_iff.mp key
  have isLow : h.lo.getD 0 = low := by rw [← lo]; rfl
  dsimp only
  rw [isLow]
  refine ⟨rfl, ?_, perm⟩
  have inTable : entryAt stem (some (low, high)) .posdel ∈ es :=
    (mem_filter.mp (perm.mem_iff.mpr mem_cons_self)).1
  exact table.named _ inTable (low, high) rfl

theorem flatMap_entryOf_nodup (ordered : chain.Pairwise fun a b => a.2 < b.1)
    (named : ∀ ends ∈ chain, Named ends.1 ends.2) :
    (chain.flatMap fun ends => [entryOf stem ends .posdel, entryOf stem ends .upserts]).Nodup := by
  refine nodup_flatMap.mpr ⟨fun ends _ => ?_, ?_⟩
  · exact pair_nodup stem (some ends)
  · refine ordered.imp_of_mem fun {a b} _ inB lt e memberA memberB => ?_
    have isA : e = entryAt stem (some a) e.2.suffix := mem_pair_iff.mp memberA
    have isB : e = entryAt stem (some b) e.2.suffix := mem_pair_iff.mp memberB
    obtain rfl := Option.some.inj (congrArg (fun e => e.2.seqs) (isA.symm.trans isB))
    have le := (named a inB).le
    omega

section

variable (ordered : chain.Pairwise fun a b => a.2 < b.1)
  (named : ∀ ends ∈ chain, Named ends.1 ends.2)
  (listed : es.Perm
    (chain.flatMap fun ends => [entryOf stem ends .posdel, entryOf stem ends .upserts]))

include ordered named listed

theorem tableEntries_of_chain :
    TableEntries stem es ∧ ∀ e ∈ es, ∃ ends ∈ chain, e.2.seqs = some ends := by
  have each : ∀ e ∈ es, ∃ ends ∈ chain, e = entryAt stem (some ends) e.2.suffix := by
    intro e member
    obtain ⟨ends, inChain, isEntry⟩ := mem_flatMap.mp (listed.mem_iff.mp member)
    exact ⟨ends, inChain, mem_pair_iff.mp isEntry⟩
  have seqs : ∀ e ∈ es, ∃ ends ∈ chain, e.2.seqs = some ends := by
    intro e member
    obtain ⟨ends, inChain, isEntry⟩ := each e member
    exact ⟨ends, inChain, congrArg (fun e => e.2.seqs) isEntry⟩
  refine ⟨⟨fun e member => ?_, fun e member ends isEnds => ?_,
    listed.nodup_iff.mpr (flatMap_entryOf_nodup ordered named)⟩, seqs⟩
  · obtain ⟨ends, -, isEntry⟩ := each e member
    exact isEntry.trans (by rw [isEntry]; rfl)
  · obtain ⟨own, inChain, isOwn⟩ := seqs e member
    exact Option.some.inj (isOwn.symm.trans isEnds) ▸ named own inChain

/-- **The names of pairs in sequence order read back as them**, in whatever order they are
listed; they are a chain when they tile. -/
theorem markStem_names : markStem es = if tiles 0 (chain.map (fileUnder stem)) then
      some ⟨chain.map (fileUnder stem), none⟩ else none := by
  obtain ⟨table, seqsOf⟩ := tableEntries_of_chain ordered named listed
  have ascending : (chain.map Prod.snd).Pairwise (· < ·) := by
    rw [pairwise_map]
    refine ordered.imp_of_mem fun {a b} _ hb lt => ?_
    have := (named b hb).le
    omega
  have own : ∀ ends ∈ chain, (es.filter fun e => keyOf e = some ends.2).Perm
      [entryAt stem (some ends) .posdel, entryAt stem (some ends) .upserts] := by
    intro ends inChain
    refine (perm_ext_iff_of_nodup (table.nodup.filter _) (pair_nodup _ _)).mpr fun e => ?_
    rw [mem_filter, decide_eq_true_eq]
    constructor
    · rintro ⟨member, key⟩
      obtain ⟨other, inChain', isEnds⟩ := seqsOf e member
      rw [keyOf, isEnds] at key
      obtain rfl := inj_on_of_nodup_map ascending.nodup inChain' inChain (Option.some.inj key)
      exact mem_pair_iff.mpr (isEnds ▸ table.entry e member)
    · intro isEntry
      refine ⟨listed.mem_iff.mpr (mem_flatMap.mpr ⟨ends, inChain, isEntry⟩), ?_⟩
      rw [mem_pair_iff.mp isEntry]
      rfl
  have seqs : ((addNames es).keys.filterMap id).insertionSort (· ≤ ·) = chain.map Prod.snd := by
    have nodup : ((addNames es).keys.filterMap id).Nodup :=
      (addNames es).nodupKeys.filterMap fun a a' n isA isA' =>
        (Option.mem_def.mp isA).trans (Option.mem_def.mp isA').symm
    have sorted := perm_insertionSort (· ≤ ·) ((addNames es).keys.filterMap id)
    refine List.Perm.eq_of_pairwise' (pairwise_insertionSort _ _)
      (ascending.imp fun lt => lt.le) ((perm_ext_iff_of_nodup
        (sorted.nodup_iff.mpr nodup) ascending.nodup).mpr fun n => ?_)
    rw [mem_seqs_iff table, mem_map]
    constructor
    · rintro ⟨e, member, key⟩
      obtain ⟨ends, inChain, isEnds⟩ := seqsOf e member
      rw [keyOf, isEnds] at key
      exact ⟨ends, inChain, Option.some.inj key⟩
    · rintro ⟨ends, inChain, rfl⟩
      have first := (own ends inChain).mem_iff.mpr mem_cons_self
      exact ⟨_, (mem_filter.mp first).1, rfl⟩
  have files : numberedFiles (addNames es) = some (chain.map (fileUnder stem)) := by
    unfold numberedFiles
    rw [seqs, mapM_map]
    refine mapM_eq_some_map fun ends inChain => ?_
    rw [Function.comp_apply, lookup_addNames_eq, foldl_seeName_pair (own ends inChain)]
    rfl
  have legacy : (addNames es).lookup none = none := by
    refine (lookup_addNames_eq_none table).mpr fun e member key => ?_
    obtain ⟨ends, -, isEnds⟩ := seqsOf e member
    rw [keyOf, isEnds] at key
    cases key
  unfold markStem
  rw [files, legacy]
  rfl

end

section

variable (table : TableEntries stem es)

include table

/-- Two files of the old layout and no sequence. -/
theorem chainEntries_of_legacy (noFiles : numberedFiles (addNames es) = some [])
    {pair : FileName × FileName} (isPair : ((addNames es).lookup none).map Half.pair =
      some (some pair)) : ChainEntries stem es ⟨[], some pair⟩ := by
  obtain ⟨h, isHalf, paired⟩ := Option.map_eq_some_iff.mp isPair
  rw [lookup_addNames_eq] at isHalf
  obtain ⟨seqs, key, -, perm, rfl⟩ := (pair_iff (table.sameKey none) isHalf).mp paired
  obtain rfl := Option.map_eq_none_iff.mp key
  have all : es.filter (fun e => keyOf e = none) = es := by
    refine filter_eq_self.mpr fun e member => decide_eq_true ?_
    cases isKey : keyOf e with
    | none => rfl
    | some n =>
      have listed := (mem_seqs_iff table).mpr ⟨e, member, isKey⟩
      obtain ⟨f, inFiles, -⟩ := (mem_mapM_some noFiles).1 n listed
      cases inFiles
  rw [all] at perm
  exact ChainEntries.legacy perm

/-- Numbered files that tile, and no file of the old layout. -/
theorem chainEntries_of_files {files : List TableDeltaFile}
    (isFiles : numberedFiles (addNames es) = some files)
    (isNone : ((addNames es).lookup none).map Half.pair = none) (tiled : tiles 0 files = true) :
    ChainEntries stem es ⟨files, none⟩ := by
  have spec := numberedFiles_spec table isFiles
  set chain := files.map fun f => (f.seqLo, f.seq) with isChain
  have same : files = chain.map (fileUnder stem) := by
    rw [isChain, map_map]
    refine ((map_congr_left fun f member => ?_).trans (map_id files)).symm
    exact (spec f member).1.symm
  have named : ∀ ends ∈ chain, Named ends.1 ends.2 :=
    forall_mem_map.mpr fun f inFiles => (spec f inFiles).2.1
  rw [same] at tiled ⊢
  have endsTile := tiles_iff.mp tiled
  have ordered := (endsTile.ordered fun ends member => (named ends member).le).2
  refine ChainEntries.numbered chain endsTile named ?_
  refine (perm_ext_iff_of_nodup table.nodup
    (flatMap_entryOf_nodup ordered named)).mpr fun e => ⟨fun member => ?_, fun member => ?_⟩
  · -- Every name has a sequence, and that sequence has its pair.
    have noLegacy := (lookup_addNames_eq_none table).mp (Option.map_eq_none_iff.mp isNone)
    obtain ⟨n, isKey⟩ := Option.ne_none_iff_exists'.mp (noLegacy e member)
    have listed := (mem_seqs_iff table).mpr ⟨e, member, isKey⟩
    obtain ⟨f, inFiles, isFile⟩ := (mem_mapM_some isFiles).1 n listed
    obtain ⟨h, -, paired⟩ := Option.bind_eq_some_iff.mp isFile
    obtain ⟨pair, -, isFile⟩ := Option.map_eq_some_iff.mp paired
    have isSeq : f.seq = n := by rw [← isFile]
    refine mem_flatMap.mpr ⟨_, mem_map_of_mem inFiles, ?_⟩
    refine (spec _ inFiles).2.2.mem_iff.mp (mem_filter.mpr ⟨member, ?_⟩)
    rw [isSeq]
    exact decide_eq_true isKey
  · obtain ⟨ends, inChain, isEntry⟩ := mem_flatMap.mp member
    obtain ⟨f, inFiles, rfl⟩ := mem_map.mp inChain
    exact (mem_filter.mp ((spec f inFiles).2.2.mem_iff.mpr isEntry)).1

theorem markStem_legacy (listed : es.Perm [entryAt stem none .posdel, entryAt stem none .upserts]) :
    markStem es =
      some ⟨[], some ((entryAt stem none .posdel).1, (entryAt stem none .upserts).1)⟩ := by
  have noSeqs : ∀ e ∈ es, keyOf e = none := by
    intro e member
    rw [mem_pair_iff.mp (listed.mem_iff.mp member)]
    rfl
  have all : es.filter (fun e => keyOf e = none) = es :=
    filter_eq_self.mpr fun e member => decide_eq_true (noSeqs e member)
  have none_ : ((addNames es).keys.filterMap id).insertionSort (· ≤ ·) = [] := by
    refine eq_nil_iff_forall_not_mem.mpr fun n member => ?_
    obtain ⟨e, inTable, isKey⟩ := (mem_seqs_iff table).mp member
    rw [noSeqs e inTable] at isKey
    cases isKey
  have isFiles : numberedFiles (addNames es) = some [] := by
    rw [numberedFiles, none_]
    rfl
  unfold markStem
  rw [isFiles, lookup_addNames_eq, all, foldl_seeName_pair listed]
  rfl

/-- **A table's names are accepted exactly when they are those of a chain**, and that chain is
what is read. -/
theorem markStem_eq_some_iff : markStem es = some c ↔ ChainEntries stem es c := by
  constructor
  · intro marked
    unfold markStem at marked
    split at marked
    next => cases marked
    next => cases marked
    next files pair isFiles isPair =>
      split at marked
      next none_ =>
        cases marked
        exact chainEntries_of_legacy table (none_ ▸ isFiles) isPair
      next => cases marked
    next files isFiles isNone =>
      split at marked
      next tiled =>
        cases marked
        exact chainEntries_of_files table isFiles isNone tiled
      next => cases marked
  · intro isChain
    cases isChain with
    | legacy listed => exact markStem_legacy table listed
    | numbered chain tiled named listed =>
      have ordered := (tiled.ordered fun ends member => (named ends member).le).2
      rw [markStem_names ordered named listed, if_pos (tiles_iff.mpr tiled)]

end

/-! ## A directory -/

/-- The tables with delta files. -/
def deltaStems (names : List FileName) : List FileName :=
  ((deltaEntries names).map fun e => e.2.stem).dedup

/-- The delta files of a table. -/
def tableNames (names : List FileName) (stem : FileName) : List FileName :=
  names.filter fun name => (parseTableDeltaRange name).any fun read => read.stem = stem

/-- The file names are those of the chain: the two files of the old layout, or both files of each
pair of a tiling of `0..N`. -/
inductive ChainNamed (stem : FileName) (names : List FileName) : TableDeltaChain → Prop
  | legacy (listed : names.Perm
        [stem ++ DeltaSuffix.posdel.text, stem ++ DeltaSuffix.upserts.text]) :
      ChainNamed stem names
        ⟨[], some (stem ++ DeltaSuffix.posdel.text, stem ++ DeltaSuffix.upserts.text)⟩
  | numbered (chain : List (ℕ × ℕ)) (tiled : EndsTile 0 chain)
      (named : ∀ ends ∈ chain, Named ends.1 ends.2)
      (listed : names.Perm (chainNames stem chain)) :
      ChainNamed stem names ⟨chain.map (fileUnder stem), none⟩

theorem mem_deltaEntries :
    e ∈ deltaEntries names ↔ e.1 ∈ names ∧ parseTableDeltaRange e.1 = some e.2 := by
  rw [deltaEntries, mem_filterMap]
  constructor
  · rintro ⟨name, listed, read⟩
    obtain ⟨read, parsed, rfl⟩ := Option.map_eq_some_iff.mp read
    exact ⟨listed, parsed⟩
  · rintro ⟨listed, parsed⟩
    exact ⟨e.1, listed, by rw [parsed]; rfl⟩

theorem mem_entriesOf {stem : FileName} :
    e ∈ entriesOf names stem ↔
      e.1 ∈ names ∧ parseTableDeltaRange e.1 = some e.2 ∧ e.2.stem = stem := by
  rw [entriesOf, mem_filter, mem_deltaEntries, decide_eq_true_eq, and_assoc]

theorem tableEntries_entriesOf (distinct : names.Nodup) (stem : FileName) :
    TableEntries stem (entriesOf names stem) where
  entry e member := by
    obtain ⟨-, parsed, isStem⟩ := mem_entriesOf.mp member
    have path := (parseTableDeltaRange_eq_some parsed).1
    obtain ⟨name, stem', seqs, suffix⟩ := e
    cases isStem
    exact Prod.ext path rfl
  named e member := by
    obtain ⟨-, parsed, -⟩ := mem_entriesOf.mp member
    exact (parseTableDeltaRange_eq_some parsed).2.1
  nodup := by
    refine List.Nodup.filter _ (distinct.filterMap fun a b e isA isB => ?_)
    obtain ⟨_, -, rfl⟩ := Option.map_eq_some_iff.mp isA
    obtain ⟨_, -, same⟩ := Option.map_eq_some_iff.mp isB
    exact (congrArg Prod.fst same).symm

/-- What a table's names are read as. -/
theorem entriesOf_eq (names : List FileName) (stem : FileName) :
    entriesOf names stem = deltaEntries (tableNames names stem) ∧
      (entriesOf names stem).map Prod.fst = tableNames names stem := by
  induction names with
  | nil => exact ⟨rfl, rfl⟩
  | cons name names ih =>
    obtain ⟨same, named⟩ := ih
    simp only [entriesOf, deltaEntries, tableNames] at same named ⊢
    rw [filterMap_cons, filter_cons]
    cases parsed : parseTableDeltaRange name with
    | none =>
      rw [Option.map_none, Option.any_none, if_neg Bool.false_ne_true]
      exact ⟨same, named⟩
    | some read =>
      rw [Option.map_some, Option.any_some]
      by_cases own : read.stem = stem
      · rw [filter_cons_of_pos (by simpa using own), if_pos (decide_eq_true own),
          filterMap_cons, parsed, Option.map_some]
        exact ⟨congrArg _ same, congrArg _ named⟩
      · rw [filter_cons_of_neg (by simpa using own), if_neg (by simpa using own)]
        exact ⟨same, named⟩

theorem length_text_le (suffix : DeltaSuffix) :
    7 ≤ suffix.text.length ∧ suffix.text.length ≤ 8 := by
  cases suffix <;> exact ⟨by decide, by decide⟩

/-- A numbered name is longer than one of the old layout. -/
theorem pathUnder_ne {stem : FileName} {lo hi : ℕ} (named : Named lo hi)
    (suffix other : DeltaSuffix) : pathUnder stem lo hi suffix ≠ stem ++ other.text := by
  intro same
  have length := congrArg length same
  have short := (length_text_le other).2
  have long := (length_text_le suffix).1
  have width := length_zeroPadded named.fits
  have six : tableDeltaSeqWidth = 6 := rfl
  rw [pathUnder] at length
  split at length
  · simp only [tableDeltaRangePath, length_append, length_cons] at length
    omega
  · simp only [tableDeltaPath, length_append, length_cons] at length
    omega

theorem chainEntries_iff {stem : FileName} (present : stem ∈ deltaStems names) :
    ChainEntries stem (entriesOf names stem) c ↔ ChainNamed stem (tableNames names stem) c := by
  obtain ⟨same, named⟩ := entriesOf_eq names stem
  obtain ⟨e, member, isStem⟩ := mem_map.mp (mem_dedup.mp present)
  have visible : stem ≠ [] ∧ stem.head? ≠ some '.' :=
    isStem ▸ (parseTableDeltaRange_eq_some (mem_deltaEntries.mp member).2).2.2
  constructor
  · intro entries
    cases entries with
    | legacy listed =>
      refine ChainNamed.legacy ?_
      rw [← named]
      exact listed.map Prod.fst
    | numbered chain tiled fits listed =>
      refine ChainNamed.numbered chain tiled fits ?_
      have names' := listed.map Prod.fst
      rw [named, map_flatMap] at names'
      exact names'
  · intro isNamed
    cases isNamed with
    | legacy listed =>
      refine ChainEntries.legacy ?_
      have entry (suffix : DeltaSuffix) (held : stem ++ suffix.text ∈ tableNames names stem) :
          parseTableDeltaRange (stem ++ suffix.text) = some ⟨stem, none, suffix⟩ := by
        rw [← named] at held
        obtain ⟨⟨name, stem', seqs, other⟩, inTable, rfl⟩ := mem_map.mp held
        obtain ⟨-, parsed, isStem'⟩ := mem_entriesOf.mp inTable
        obtain ⟨path, fits, -⟩ := parseTableDeltaRange_eq_some parsed
        obtain rfl : stem' = stem := isStem'
        cases seqs with
        | some ends => exact absurd path.symm (pathUnder_ne (fits ends rfl) _ _)
        | none =>
          have isSuffix : suffix = other := by
            refine (text_isSuffixOf_iff suffix other stem').mp ?_
            rw [isSuffixOf_iff_suffix, ← show _ = stem' ++ other.text from path]
            exact suffix_append _ _
          rw [isSuffix]
          exact isSuffix ▸ parsed
      have posdel := entry .posdel (listed.mem_iff.mpr (by simp))
      have upserts := entry .upserts (listed.mem_iff.mpr (by simp))
      have read : deltaEntries [stem ++ DeltaSuffix.posdel.text, stem ++ DeltaSuffix.upserts.text] =
          [entryAt stem none .posdel, entryAt stem none .upserts] := by
        simp only [deltaEntries, filterMap_cons, posdel, upserts, Option.map_some,
          filterMap_nil]
        rfl
      rw [same, ← read]
      exact listed.filterMap _
    | numbered chain tiled fits listed =>
      refine ChainEntries.numbered chain tiled fits ?_
      rw [same, ← deltaEntries_chainNames visible fits]
      exact listed.filterMap _

/-- A table of a directory is accepted exactly when its names are those of a chain. -/
theorem markStem_entriesOf (distinct : names.Nodup) {stem : FileName}
    (present : stem ∈ deltaStems names) :
    markStem (entriesOf names stem) = some c ↔ ChainNamed stem (tableNames names stem) c :=
  (markStem_eq_some_iff (tableEntries_entriesOf distinct stem)).trans (chainEntries_iff present)

/-- The tables whose delta files are no chain. -/
def damagedStems (names : List FileName) : List FileName :=
  (deltaStems names).filter fun stem => (markStem (entriesOf names stem)).isNone

theorem markTableDeltaFiles_eq (names : List FileName) :
    markTableDeltaFiles names = if damagedStems names = [] then
      .ok ((deltaStems names).filterMap fun stem =>
        (markStem (entriesOf names stem)).map fun c => (stem, c))
    else .error ((damagedStems names).insertionSort fun a b => baseName a ≤ baseName b) := by
  unfold markTableDeltaFiles
  dsimp only
  split
  next none_ => exact (if_pos none_).symm
  next damaged some_ => exact (if_neg some_).symm

theorem mem_damagedStems (distinct : names.Nodup) {stem : FileName} :
    stem ∈ damagedStems names ↔
      stem ∈ deltaStems names ∧ ∀ c, ¬ChainNamed stem (tableNames names stem) c := by
  rw [damagedStems, mem_filter]
  refine and_congr_right fun present => ?_
  rw [Option.isNone_iff_eq_none, Option.eq_none_iff_forall_ne_some]
  exact forall_congr' fun c => not_congr (markStem_entriesOf distinct present)

/-- A table's files, with the base and whatever else is no delta beside them, in any order. -/
theorem markTableDeltaFiles_names (ordered : chain.Pairwise fun a b => a.2 < b.1)
    (nonempty : chain ≠ []) (named : ∀ ends ∈ chain, Named ends.1 ends.2)
    (visible : stem ≠ [] ∧ stem.head? ≠ some '.') {others : List FileName}
    (listed : names.Perm (chainNames stem chain ++ others))
    (noDelta : ∀ name ∈ others, parseTableDeltaRange name = none) :
    markTableDeltaFiles names = if tiles 0 (chain.map (fileUnder stem)) then
      .ok [(stem, ⟨chain.map (fileUnder stem), none⟩)] else .error [stem] := by
  have entries : (deltaEntries names).Perm (chain.flatMap fun ends =>
      [entryOf stem ends .posdel, entryOf stem ends .upserts]) := by
    have nothing : deltaEntries others = [] :=
      filterMap_eq_nil_iff.mpr fun name member => by rw [noDelta name member]; rfl
    have all : deltaEntries (chainNames stem chain ++ others) =
      deltaEntries (chainNames stem chain) ++ deltaEntries others := filterMap_append
    rw [nothing, append_nil, deltaEntries_chainNames visible named] at all
    rw [← all]
    exact listed.filterMap _
  have stems : ∀ e ∈ deltaEntries names, e.2.stem = stem := by
    intro e member
    obtain ⟨ends, -, isEntry⟩ := mem_flatMap.mp (entries.mem_iff.mp member)
    have is : e = entryAt stem (some ends) e.2.suffix := mem_pair_iff.mp isEntry
    rw [is]
    rfl
  have own : entriesOf names stem = deltaEntries names :=
    filter_eq_self.mpr fun e member => by simpa using stems e member
  have marked : markStem (entriesOf names stem) = _ := markStem_names ordered named (own ▸ entries)
  have only : ((deltaEntries names).map fun e => e.2.stem).dedup = [stem] := by
    refine perm_singleton.mp ((perm_ext_iff_of_nodup (nodup_dedup _)
      (nodup_singleton _)).mpr fun other => ?_)
    rw [mem_dedup, mem_map, mem_singleton]
    constructor
    · rintro ⟨e, member, rfl⟩
      exact stems e member
    · rintro rfl
      obtain ⟨ends, member⟩ := exists_mem_of_ne_nil _ nonempty
      exact ⟨entryOf other ends .posdel, entries.mem_iff.mpr (mem_flatMap.mpr
        ⟨ends, member, by simp⟩), rfl⟩
  unfold markTableDeltaFiles
  dsimp only
  rw [only]
  split <;> simp_all

/-! ## Any order -/

/-- The same tables with the same chains, or the same damaged tables. -/
def SameMarks : Except (List FileName) (List (FileName × TableDeltaChain)) →
    Except (List FileName) (List (FileName × TableDeltaChain)) → Prop
  | .ok chains, .ok chains' => chains.Perm chains'
  | .error damaged, .error damaged' => damaged = damaged'
  | _, _ => False

theorem ChainEntries.of_perm {es' : List (FileName × DeltaName)} (perm : es'.Perm es)
    (entries : ChainEntries stem es c) : ChainEntries stem es' c := by
  cases entries with
  | legacy listed => exact .legacy (perm.trans listed)
  | numbered chain tiled named listed => exact .numbered chain tiled named (perm.trans listed)

theorem markStem_perm (distinct : names.Nodup) (perm : names'.Perm names) (stem : FileName) :
    markStem (entriesOf names' stem) = markStem (entriesOf names stem) := by
  have entries : (entriesOf names' stem).Perm (entriesOf names stem) :=
    (perm.filterMap _).filter _
  refine Option.ext fun c => ?_
  rw [markStem_eq_some_iff (tableEntries_entriesOf (perm.nodup_iff.mpr distinct) stem),
    markStem_eq_some_iff (tableEntries_entriesOf distinct stem)]
  exact ⟨ChainEntries.of_perm entries.symm, ChainEntries.of_perm entries⟩

theorem baseName_injective : Function.Injective baseName := by
  intro a b same
  exact append_cancel_right (String.ofList_injective same)

theorem markTableDeltaFiles_perm (distinct : names.Nodup) (perm : names'.Perm names) :
    SameMarks (markTableDeltaFiles names') (markTableDeltaFiles names) := by
  have stems : (deltaStems names').Perm (deltaStems names) :=
    ((perm.filterMap _).map _).dedup
  have same := markStem_perm distinct perm
  have damaged : (damagedStems names').Perm (damagedStems names) := by
    simp only [damagedStems, same]
    exact stems.filter _
  rw [markTableDeltaFiles_eq, markTableDeltaFiles_eq]
  by_cases none_ : damagedStems names = []
  · rw [if_pos none_, if_pos (perm_nil.mp (none_ ▸ damaged))]
    simp only [same]
    exact stems.filterMap _
  · rw [if_neg none_, if_neg fun (none' : damagedStems names' = []) =>
      none_ (perm_nil.mp (none' ▸ damaged.symm))]
    have nodup : (damagedStems names).Nodup := (nodup_dedup _).filter _
    have ordered := perm_insertionSort (fun a b => baseName a ≤ baseName b) (damagedStems names)
    refine insertionSort_eq_of_perm (damaged.trans ordered.symm) ?_
    refine pairwise_key_lt (pairwise_insertionSort _ _) ?_
    exact (ordered.nodup_iff.mpr nodup).map baseName_injective

/-- In a directory, whose names are distinct, a table is accepted exactly when its delta files are
the two of the old layout or both files of each pair of a tiling of `0..N`, and read as that
chain; the damaged tables are all the others; and the order of the names does not matter. -/
theorem markTableDeltaFiles_iff {names : List FileName} (distinct : names.Nodup) :
    (∀ chains, markTableDeltaFiles names = .ok chains →
      (∀ stem ∈ deltaStems names, ∃ c, ChainNamed stem (tableNames names stem) c) ∧
      ∀ stem c, (stem, c) ∈ chains ↔
        stem ∈ deltaStems names ∧ ChainNamed stem (tableNames names stem) c) ∧
    (∀ damaged, markTableDeltaFiles names = .error damaged → damaged ≠ [] ∧
      ∀ stem, stem ∈ damaged ↔
        stem ∈ deltaStems names ∧ ∀ c, ¬ChainNamed stem (tableNames names stem) c) ∧
    ∀ names', names'.Perm names →
      SameMarks (markTableDeltaFiles names') (markTableDeltaFiles names) := by
  refine ⟨fun chains isOk => ?_, fun damaged isError => ?_, fun names' perm =>
    markTableDeltaFiles_perm distinct perm⟩
  · rw [markTableDeltaFiles_eq] at isOk
    split at isOk
    next none_ =>
      cases isOk
      refine ⟨fun stem present => ?_, fun stem c => ?_⟩
      · by_contra damaged
        have member := (mem_damagedStems distinct).mpr ⟨present, not_exists.mp damaged⟩
        rw [none_] at member
        cases member
      · rw [mem_filterMap]
        constructor
        · rintro ⟨stem', present, marked⟩
          obtain ⟨c', isSome, same⟩ := Option.map_eq_some_iff.mp marked
          cases same
          exact ⟨present, (markStem_entriesOf distinct present).mp isSome⟩
        · rintro ⟨present, named⟩
          exact ⟨stem, present, by rw [(markStem_entriesOf distinct present).mpr named]; rfl⟩
    next => cases isOk
  · rw [markTableDeltaFiles_eq] at isError
    split at isError
    next => cases isError
    next some_ =>
      cases isError
      have ordered := perm_insertionSort (fun a b => baseName a ≤ baseName b) (damagedStems names)
      refine ⟨fun empty => some_ (perm_nil.mp (empty ▸ ordered.symm)), fun stem => ?_⟩
      rw [ordered.mem_iff, mem_damagedStems distinct]

section Repeated

/-- A table with a pair of sequences 0 and 1, and half a pair that ends at 1 too. -/
def overlapping : List FileName :=
  ["t.000000-000001.posdel".toList, "t.000001.posdel".toList, "t.000000-000001.upserts".toList]

/-- The name of the pair's first file once more, after the one that claims its sequence. -/
def repeatedName : List FileName := "t.000000-000001.posdel".toList :: overlapping.rotate 1

/-- A list that repeats a name is read as a chain although the files overlap, in that order only. -/
theorem repeatedName_read :
    markTableDeltaFiles repeatedName = .ok [("t".toList, ⟨[fileUnder "t".toList (0, 1)], none⟩)] ∧
      markTableDeltaFiles repeatedName.reverse = .error ["t".toList] := by
  decide +kernel

/-- Without the repeated name it is damaged. -/
theorem overlapping_damaged :
    markTableDeltaFiles overlapping = .error ["t".toList] ∧
      ∀ c, ¬ChainNamed "t".toList (tableNames overlapping "t".toList) c := by
  have marked : markTableDeltaFiles overlapping = .error ["t".toList] := by
    decide +kernel
  have distinct : overlapping.Nodup := by decide
  exact ⟨marked, (((markTableDeltaFiles_iff distinct).2.1 _ marked).2 "t".toList).mp
    (mem_singleton_self _) |>.2⟩

end Repeated

end Dbtrail
