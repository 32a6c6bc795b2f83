import Dbtrail.Baseline.MarkedFiles

/-!
# The minor compaction of a chain

A job merges the pairs `lo..hi` of a table's chain into one range pair and stages it
(`compactTableDeltaMinor`). The next refresh finds it (`adoptCompaction`), checks that the
chain, which may have grown since, still covers its range, and carries it forward in the
place of the pairs it stands for (`spliceRange`).

Whatever range is merged and however many pairs were added meanwhile, the files the
refresh publishes tile, and the table read through them is the one read through the pairs
(`compaction_adopted`).
-/

namespace Dbtrail

open List

variable {Row : Type} {hi lo : ℕ} {stem : FileName}

/-- The footer keys of a pair's file that the compaction reads or writes. -/
structure DeltaMeta : Type where
  chainStart : Option ℤ
  baseAnchor : String
  baseSize : ℕ
  seqLo : ℕ
  seq : ℕ
  binlogFile : String
  binlogPos : ℕ
  deriving DecidableEq, Repr

/-- A pair of a chain with the footers of its two files. -/
structure ChainFile (Row : Type) : Type where
  pair : TableDeltaPair Row
  posdelMeta : DeltaMeta
  upsertsMeta : DeltaMeta
  deriving DecidableEq, Repr

def ChainFile.ends (f : ChainFile Row) : ℕ × ℕ := (f.pair.seqLo, f.pair.seq)

open ChainFile

inductive CompactError : Type where
  | notCovered (lo hi : ℕ)
  | noChainFooter
  deriving DecidableEq, Repr

/-- The pairs that lie inside a range. -/
def within (lo hi : ℕ) (f : ChainFile Row) : Bool := decide (lo ≤ f.pair.seqLo ∧ f.pair.seq ≤ hi)

/-- One pair with the union of the dead positions and the newest version of every key. -/
def mergePairs (lo hi : ℕ) (files : List (ChainFile Row)) : TableDeltaPair Row where
  seqLo := lo
  seq := hi
  posdel := (files.flatMap fun f => f.pair.posdel).dedup.insertionSort (· ≤ ·)
  upserts := tableDeltaLatest (files.map pair)

def compactTableDeltaMinor (chain : List (ChainFile Row)) (lo hi : ℕ) :
    Except CompactError (ChainFile Row) :=
  let merged := chain.filter (within lo hi)
  match merged.head?, merged.getLast? with
  | some first, some last =>
      if merged.length < 2 ∨ first.pair.seqLo ≠ lo ∨ last.pair.seq ≠ hi then
        .error (.notCovered lo hi)
      else if last.upsertsMeta.chainStart = none ∨ last.upsertsMeta.baseAnchor = "" then
        .error .noChainFooter
      else
        let footer := { last.upsertsMeta with seqLo := lo, seq := hi }
        .ok ⟨mergePairs lo hi merged, footer, footer⟩
  | _, _ => .error (.notCovered lo hi)

/-! ## Adoption -/

inductive StagedFile (Row : Type) : Type where
  | posdel (footer : DeltaMeta) (positions : List ℤ)
  | upserts (footer : DeltaMeta) (rows : List (UpsertRow Row))
  deriving DecidableEq, Repr

/-- A staging directory: whether its `_SUCCESS` is written, and its other files. -/
structure Staged (Row : Type) : Type where
  success : Bool
  files : List (FileName × StagedFile Row)
  deriving DecidableEq, Repr

/-- What a finished job leaves. -/
def stage (stem : FileName) (r : ChainFile Row) : Staged Row where
  success := true
  files := [(tableDeltaRangePath stem r.pair.seqLo r.pair.seq .posdel,
      .posdel r.posdelMeta r.pair.posdel),
    (tableDeltaRangePath stem r.pair.seqLo r.pair.seq .upserts,
      .upserts r.upsertsMeta r.pair.upserts)]

/-- The chain has a pair that starts where the range does and one that ends where it does. -/
def covers (lo hi : ℕ) : Bool → List (ChainFile Row) → Bool
  | covered, [] => covered
  | covered, f :: files =>
      let covered := covered || f.pair.seqLo == lo
      if f.pair.seq = hi then covered
      else if hi < f.pair.seq then false
      else covers lo hi covered files

/-- The checks of the two footers against the chain and each other. -/
def footersFit (prev um pm : DeltaMeta) (r : TableDeltaFile) : Bool :=
  (um.chainStart == prev.chainStart && um.baseAnchor == prev.baseAnchor &&
      um.baseSize == prev.baseSize) &&
    (um.seqLo == r.seqLo && um.seq == r.seq && pm.seqLo == r.seqLo && pm.seq == r.seq) &&
    (pm.baseAnchor == um.baseAnchor && pm.chainStart == um.chainStart &&
      pm.binlogFile == um.binlogFile && pm.binlogPos == um.binlogPos)

def adoptCompaction (staged : Staged Row) (prev : List (ChainFile Row)) :
    Option (ChainFile Row) :=
  if !staged.success then none
  else
    match prev.getLast?, markTableDeltaFiles (staged.files.map Prod.fst) with
    | some last, .ok [(_, ⟨[r], none⟩)] =>
        if !r.range then none
        else if !covers r.seqLo r.seq false prev || decide (last.upsertsMeta.seq < r.seq) then none
        else
          match staged.files.lookup r.upserts, staged.files.lookup r.posdel with
          | some (.upserts um rows), some (.posdel pm positions) =>
              if footersFit last.upsertsMeta um pm r then
                some ⟨⟨r.seqLo, r.seq, positions, rows⟩, pm, um⟩
              else none
          | _, _ => none
    | _, _ => none

/-- The files with the pairs `r` covers replaced by `r`. -/
def spliceRange (r : ChainFile Row) : Bool → List (ChainFile Row) → List (ChainFile Row)
  | _, [] => []
  | placed, f :: files =>
      if within r.pair.seqLo r.pair.seq f then
        if placed then spliceRange r true files else r :: spliceRange r true files
      else f :: spliceRange r placed files

/-- The files a refresh carries forward. -/
def carriedFiles (staged : Staged Row) (prev : List (ChainFile Row)) :
    List (ChainFile Row) :=
  match adoptCompaction staged prev with
  | some r => spliceRange r false prev
  | none => prev

/-! ## Ranges of a chain -/

/-- Pairs in sequence order, each with its ends in order. -/
structure InOrder (files : List (ChainFile Row)) : Prop where
  le : ∀ f ∈ files, f.pair.seqLo ≤ f.pair.seq
  ordered : files.Pairwise fun f g => f.pair.seq < g.pair.seqLo

variable {files : List (ChainFile Row)}

/-- A range of two pairs or more has its ends apart. -/
theorem InOrder.lt_of_two (order : InOrder files) (two : 2 ≤ (files.filter (within lo hi)).length) :
    lo < hi := by
  have inRange : ∀ f ∈ files.filter (within lo hi),
      lo ≤ f.pair.seqLo ∧ f.pair.seq ≤ hi ∧ f.pair.seqLo ≤ f.pair.seq := by
    intro f member
    obtain ⟨inFiles, isWithin⟩ := mem_filter.mp member
    have bounds := of_decide_eq_true isWithin
    exact ⟨bounds.1, bounds.2, order.le f inFiles⟩
  have ordered := order.ordered.filter (within lo hi)
  match files.filter (within lo hi), two, inRange, ordered with
  | a :: b :: rest, _, inRange, ordered =>
    have lt := (pairwise_cons.mp ordered).1 b mem_cons_self
    have inA := inRange a mem_cons_self
    have inB := inRange b (mem_cons_of_mem _ mem_cons_self)
    omega

variable {f last : ChainFile Row}

theorem InOrder.seq_le_last (order : InOrder files) (isLast : files.getLast? = some last)
    (member : f ∈ files) :
    f.pair.seq ≤ last.pair.seq := by
  obtain ⟨front, rfl⟩ := getLast?_eq_some_iff.mp isLast
  rcases mem_append.mp member with early | isF
  · have lt := (pairwise_append.mp order.ordered).2.2 f early last (by simp)
    have := order.le last (by simp)
    omega
  · rw [mem_singleton.mp isF]

/-- A chain cut at the ends of a range. -/
structure CutAt (lo hi : ℕ) (files pre mid post : List (ChainFile Row)) : Prop where
  eq : files = pre ++ mid ++ post
  before : ∀ f ∈ pre, f.pair.seq < lo
  inside : ∀ f ∈ mid, within lo hi f = true
  after : ∀ f ∈ post, hi < f.pair.seqLo
  first : ∃ f rest, mid = f :: rest ∧ f.pair.seqLo = lo
  last : ∃ rest g, mid = rest ++ [g] ∧ g.pair.seq = hi

theorem InOrder.cut (order : InOrder files) (le : lo ≤ hi) {g : ChainFile Row} (hf : f ∈ files)
    (starts : f.pair.seqLo = lo) (hg : g ∈ files) (ends : g.pair.seq = hi) :
    ∃ pre mid post, CutAt lo hi files pre mid post := by
  obtain ⟨pre, rest, split⟩ := append_of_mem hf
  have ordered := order.ordered
  rw [split, pairwise_append] at ordered
  obtain ⟨-, orderedRest, across⟩ := ordered
  have leG := order.le g hg
  have inRest : g ∈ f :: rest := by
    rw [split] at hg
    rcases mem_append.mp hg with inPre | inRest
    · have := across g inPre f mem_cons_self
      omega
    · exact inRest
  obtain ⟨mid, post, splitRest⟩ := append_of_mem inRest
  have inFiles : ∀ x ∈ f :: rest, x ∈ files := fun x member => by
    rw [split]
    exact mem_append_right _ member
  have afterF : ∀ x ∈ f :: rest, lo ≤ x.pair.seqLo := by
    intro x member
    rcases mem_cons.mp member with rfl | later
    · exact starts.ge
    · have := (pairwise_cons.mp orderedRest).1 x later
      have := order.le f hf
      omega
  rw [splitRest] at orderedRest afterF inFiles
  obtain ⟨-, orderedPost, acrossRest⟩ := pairwise_append.mp orderedRest
  refine ⟨pre, mid ++ [g], post, ?_, fun x member => ?_, fun x member => ?_, fun x member => ?_, ?_,
    ⟨mid, g, rfl, ends⟩⟩
  · rw [split, splitRest]
    simp
  · have := across x member f mem_cons_self
    omega
  · have lower : lo ≤ x.pair.seqLo := afterF x (by
      rw [append_cons]
      exact mem_append_left _ member)
    have upper : x.pair.seq ≤ hi := by
      rcases mem_append.mp member with inMid | isG
      · have := acrossRest x inMid g mem_cons_self
        omega
      · rw [mem_singleton.mp isG, ends]
    simp [within, lower, upper]
  · have := (pairwise_cons.mp orderedPost).1 x member
    omega
  · cases mid with
    | nil =>
      obtain ⟨rfl, -⟩ := cons.inj splitRest
      exact ⟨f, [], rfl, starts⟩
    | cons x mid =>
      obtain ⟨rfl, -⟩ := cons.inj splitRest
      exact ⟨f, mid ++ [g], rfl, starts⟩

section

variable {lo hi : ℕ} {files pre mid post : List (ChainFile Row)}

theorem CutAt.outside (cut : CutAt lo hi files pre mid post) (order : InOrder files) :
    (∀ f ∈ pre, within lo hi f = false) ∧ ∀ f ∈ post, within lo hi f = false := by
  have le : ∀ f ∈ pre ++ mid ++ post, f.pair.seqLo ≤ f.pair.seq := cut.eq ▸ order.le
  refine ⟨fun f member => ?_, fun f member => ?_⟩
  · have := cut.before f member
    have := le f (by simp [member])
    simp only [within, decide_eq_false_iff_not]
    omega
  · have := cut.after f member
    have := le f (by simp [member])
    simp only [within, decide_eq_false_iff_not]
    omega

theorem CutAt.filter (cut : CutAt lo hi files pre mid post) (order : InOrder files) :
    files.filter (within lo hi) = mid := by
  obtain ⟨before, after⟩ := cut.outside order
  rw [cut.eq, filter_append, filter_append, filter_eq_self.mpr cut.inside,
    filter_eq_nil_iff.mpr fun f member => by simp [before f member],
    filter_eq_nil_iff.mpr fun f member => by simp [after f member],
    nil_append, append_nil]

theorem spliceRange_outside (r : ChainFile Row) (placed : Bool) {out : List (ChainFile Row)}
    (outside : ∀ f ∈ out, within r.pair.seqLo r.pair.seq f = false) (rest : List (ChainFile Row)) :
    spliceRange r placed (out ++ rest) = out ++ spliceRange r placed rest := by
  induction out with
  | nil => rfl
  | cons f out ih =>
    rw [cons_append, spliceRange, outside f (by simp), if_neg Bool.false_ne_true,
      ih fun g member => outside g (by simp [member])]
    rfl

theorem spliceRange_inside (r : ChainFile Row) {mid : List (ChainFile Row)}
    (inside : ∀ f ∈ mid, within r.pair.seqLo r.pair.seq f = true) (rest : List (ChainFile Row)) :
    spliceRange r true (mid ++ rest) = spliceRange r true rest := by
  induction mid with
  | nil => rfl
  | cons f mid ih =>
    rw [cons_append, spliceRange, inside f (by simp), if_pos rfl, if_pos rfl,
      ih fun g member => inside g (by simp [member])]

theorem CutAt.splice {r : ChainFile Row} (cut : CutAt r.pair.seqLo r.pair.seq files pre mid post)
    (order : InOrder files) : spliceRange r false files = pre ++ r :: post := by
  obtain ⟨before, after⟩ := cut.outside order
  obtain ⟨f, rest, isMid, -⟩ := cut.first
  have inside := cut.inside
  rw [isMid] at inside
  have placed : spliceRange r true post = post := by
    have := spliceRange_outside r true after []
    rwa [append_nil, spliceRange, append_nil] at this
  rw [cut.eq, append_assoc, spliceRange_outside r false before, isMid, cons_append,
    spliceRange, inside f (by simp), if_pos rfl, if_neg Bool.false_ne_true,
    spliceRange_inside r (fun g member => inside g (by simp [member])), placed]

end

/-! ## Tiles -/

/-- The sequence after a chain that starts at `next`. -/
def nextAfter : ℕ → List (ℕ × ℕ) → ℕ
  | next, [] => next
  | _, ends :: chain => nextAfter (ends.2 + 1) chain

theorem endsTile_append {next : ℕ} {a b : List (ℕ × ℕ)} :
    EndsTile next (a ++ b) ↔ EndsTile next a ∧ EndsTile (nextAfter next a) b := by
  induction a generalizing next with
  | nil => simp [EndsTile, nextAfter]
  | cons ends a ih => simp [EndsTile, nextAfter, ih, and_assoc]

theorem nextAfter_concat (next : ℕ) (chain : List (ℕ × ℕ)) (ends : ℕ × ℕ) :
    nextAfter next (chain ++ [ends]) = ends.2 + 1 := by
  induction chain generalizing next with
  | nil => rfl
  | cons first chain ih => exact ih _

theorem nextAfter_append (next : ℕ) (a b : List (ℕ × ℕ)) :
    nextAfter next (a ++ b) = nextAfter (nextAfter next a) b := by
  induction a generalizing next with
  | nil => rfl
  | cons ends a ih => exact ih _

variable {mid post pre : List (ChainFile Row)} {r : ChainFile Row}

/-- A range in the place of the pairs it covers keeps the tiling, and where it ends. -/
theorem CutAt.tiles (cut : CutAt r.pair.seqLo r.pair.seq files pre mid post) {next : ℕ}
    (tiled : EndsTile next (files.map ends)) :
    EndsTile next ((pre ++ r :: post).map ends) ∧
      nextAfter next ((pre ++ r :: post).map ends) =
        nextAfter next (files.map ends) := by
  obtain ⟨f, rest, isFirst, starts⟩ := cut.first
  obtain ⟨rest', g, isLast, stops⟩ := cut.last
  have through : ∀ n, nextAfter n (mid.map ends) = r.pair.seq + 1 := fun n => by
    rw [isLast, map_append, map_singleton, nextAfter_concat, ← stops]
    rfl
  rw [cut.eq, map_append, map_append, endsTile_append, endsTile_append, nextAfter_append,
    through] at tiled
  obtain ⟨⟨tiledPre, tiledMid⟩, tiledPost⟩ := tiled
  have atLo : r.pair.seqLo = nextAfter next (pre.map ends) := by
    rw [isFirst, map_cons, EndsTile] at tiledMid
    exact starts.symm.trans tiledMid.1
  rw [cut.eq]
  simp only [map_append, map_cons, endsTile_append, nextAfter_append, through]
  exact ⟨⟨tiledPre, atLo, tiledPost⟩, rfl⟩

/-! ## The table read through a range -/

/-- A pair with the merged pairs' dead positions and newest versions reads as they do. -/
theorem tableDeltaState_merge {base : List Row} {pre mid post : List (TableDeltaPair Row)}
    {r : TableDeltaPair Row} (ordered : ChainOrdered (pre ++ (mid ++ post)))
    (orderedR : ChainOrdered (pre ++ ([r] ++ post))) (upserts : r.upserts = tableDeltaLatest mid)
    (posdel : ∀ p, p ∈ r.posdel ↔ p ∈ mid.flatMap TableDeltaPair.posdel) :
    tableDeltaState base (pre ++ ([r] ++ post)) = tableDeltaState base (pre ++ (mid ++ post)) := by
  have orderedMid := ordered.append_right.append_left
  have keysR : ∀ k, k ∈ chainKeys [r] ↔ k ∈ chainKeys mid := by
    intro k
    rw [← mem_latest_keys orderedMid, ← upserts]
    simp [chainKeys, TableDeltaPair.keys]
  have keys : ∀ k, k ∈ chainKeys ([r] ++ post) ↔ k ∈ chainKeys (mid ++ post) := by
    intro k
    unfold chainKeys at keysR ⊢
    rw [flatMap_append, flatMap_append, mem_append, mem_append, keysR]
  have latest : tableDeltaLatest (pre ++ ([r] ++ post)) =
      tableDeltaLatest (pre ++ (mid ++ post)) := by
    rw [tableDeltaLatest_append orderedR, tableDeltaLatest_append ordered,
      tableDeltaLatest_append orderedR.append_right, tableDeltaLatest_append ordered.append_right,
      tableDeltaLatest_singleton, upserts]
    congr 1
    exact filter_congr fun u _ => by rw [decide_eq_decide, keys]
  have dead : ∀ p, p ∈ (pre ++ ([r] ++ post)).flatMap TableDeltaPair.posdel ↔
      p ∈ (pre ++ (mid ++ post)).flatMap TableDeltaPair.posdel := by
    intro p
    simp only [flatMap_append, mem_append, flatMap_singleton, posdel]
  unfold tableDeltaState
  rw [latest, baseMinusDead_eq, baseMinusDead_eq]
  congr 2
  exact filter_congr fun x _ => by rw [decide_eq_decide, dead]

/-! ## Adoption -/

/-- A chain as the refreshes of one table leave it: whole pairs that tile, a key once in a file,
and footers that name the pair and the one chain. -/
structure TiledChain (files : List (ChainFile Row)) : Prop where
  tiled : EndsTile 0 (files.map ends)
  named : ∀ f ∈ files, Named f.pair.seqLo f.pair.seq
  keysOnce : ∀ f ∈ files, f.pair.keys.Nodup
  ownSeq : ∀ f ∈ files, f.upsertsMeta.seq = f.pair.seq
  oneChain : ∀ f ∈ files, ∀ g ∈ files, f.upsertsMeta.chainStart = g.upsertsMeta.chainStart ∧
    f.upsertsMeta.baseAnchor = g.upsertsMeta.baseAnchor ∧
    f.upsertsMeta.baseSize = g.upsertsMeta.baseSize

theorem TiledChain.inOrder (published : TiledChain files) : InOrder files := by
  have le := fun f member => (published.named f member).le
  have ordered := (published.tiled.ordered (forall_mem_map.mpr le)).2
  rw [pairwise_map] at ordered
  exact ⟨le, ordered⟩

theorem InOrder.chainOrdered (order : InOrder files) (keysOnce : ∀ f ∈ files, f.pair.keys.Nodup) :
    ChainOrdered (files.map pair) := by
  refine ⟨?_, forall_mem_map.mpr keysOnce⟩
  rw [pairwise_map]
  refine order.ordered.imp_of_mem fun {f g} hf _ lt => ?_
  have := order.le f hf
  omega

/-- What a merge that goes through has merged. -/
theorem compactTableDeltaMinor_ok {chain : List (ChainFile Row)}
    (merged : compactTableDeltaMinor chain lo hi = .ok r) :
    ∃ first last, first ∈ chain.filter (within lo hi) ∧ first.pair.seqLo = lo ∧
      (chain.filter (within lo hi)).getLast? = some last ∧ last.pair.seq = hi ∧
      2 ≤ (chain.filter (within lo hi)).length ∧
      r = ⟨mergePairs lo hi (chain.filter (within lo hi)),
        { last.upsertsMeta with seqLo := lo, seq := hi },
        { last.upsertsMeta with seqLo := lo, seq := hi }⟩ := by
  unfold compactTableDeltaMinor at merged
  dsimp only at merged
  split at merged
  · rename_i first last isFirst isLast
    split at merged
    · cases merged
    rename_i covered
    push Not at covered
    split at merged
    · cases merged
    cases merged
    exact ⟨first, last, mem_of_mem_head? isFirst, covered.2.1, isLast, covered.2.2, covered.1,
      rfl⟩
  · cases merged

theorem covers_before (le : lo ≤ hi)
    (before : ∀ f ∈ pre, f.pair.seqLo ≤ f.pair.seq ∧ f.pair.seq < lo)
    (rest : List (ChainFile Row)) :
    covers lo hi false (pre ++ rest) = covers lo hi false rest := by
  induction pre with
  | nil => rfl
  | cons f pre ih =>
    obtain ⟨own, lt⟩ := before f (by simp)
    have notLo : (f.pair.seqLo == lo) = false := by
      rw [beq_eq_false_iff_ne]
      omega
    rw [cons_append, covers, notLo, if_neg (by omega), if_neg (by omega)]
    exact ih fun g member => before g (by simp [member])

theorem covers_upTo {rest : List (ChainFile Row)} {g : ChainFile Row}
    (before : ∀ f ∈ rest, f.pair.seq < hi) (ends : g.pair.seq = hi) (more : List (ChainFile Row)) :
    covers lo hi true (rest ++ g :: more) = true := by
  induction rest with
  | nil =>
    rw [nil_append, covers, Bool.true_or]
    exact if_pos ends
  | cons f rest ih =>
    have lt := before f (by simp)
    rw [cons_append, covers, Bool.true_or, if_neg (by omega), if_neg (by omega)]
    exact ih fun x member => before x (by simp [member])

theorem CutAt.covers (cut : CutAt lo hi files pre mid post) (order : InOrder files) (le : lo ≤ hi) :
    covers lo hi false files = true := by
  obtain ⟨f, rest, isFirst, starts⟩ := cut.first
  obtain ⟨rest', g, isLast, ends⟩ := cut.last
  have inFiles : ∀ x ∈ pre ++ mid ++ post, x.pair.seqLo ≤ x.pair.seq := cut.eq ▸ order.le
  have ordered := order.ordered
  rw [cut.eq, append_assoc, pairwise_append] at ordered
  have below : ∀ x ∈ rest', x.pair.seq < hi := by
    intro x member
    have own := ordered.2.1
    rw [isLast, append_assoc, pairwise_append] at own
    have lt := own.2.2 x member g (by simp)
    have := inFiles g (by simp [isLast])
    omega
  -- The first pair of the range marks it covered before the loop can leave.
  have marks :
      Dbtrail.covers lo hi false (mid ++ post) = Dbtrail.covers lo hi true (mid ++ post) := by
    rw [isFirst, cons_append, Dbtrail.covers, Dbtrail.covers, starts, beq_self_eq_true]
    rfl
  rw [cut.eq, append_assoc, covers_before le fun x member =>
    ⟨inFiles x (by simp [member]), cut.before x member⟩, marks, isLast, append_assoc]
  exact covers_upTo below ends post

theorem tableDeltaRangePath_ne (stem : FileName) (lo hi : ℕ) :
    tableDeltaRangePath stem lo hi .upserts ≠ tableDeltaRangePath stem lo hi .posdel := by
  intro eq
  have suffixes := append_cancel_left eq
  exact absurd suffixes (by decide)

variable {prev : List (ChainFile Row)}

/-- A staged range is taken when it starts at 0, where every chain starts, and passes the checks. -/
theorem adoptCompaction_stage (visible : stem ≠ [] ∧ stem.head? ≠ some '.')
    (named : Named r.pair.seqLo r.pair.seq) (lt : r.pair.seqLo < r.pair.seq)
    (isLast : prev.getLast? = some last) :
    adoptCompaction (stage stem r) prev =
      if r.pair.seqLo = 0 ∧ covers r.pair.seqLo r.pair.seq false prev = true ∧
        r.pair.seq ≤ last.upsertsMeta.seq ∧
        footersFit last.upsertsMeta r.upsertsMeta r.posdelMeta (fileUnder stem r.ends) = true
      then some r else none := by
  have paths : ∀ suffix, pathUnder stem r.pair.seqLo r.pair.seq suffix =
      tableDeltaRangePath stem r.pair.seqLo r.pair.seq suffix := fun suffix => if_pos lt.ne
  have names : (stage stem r).files.map Prod.fst = chainNames stem [r.ends] := by
    simp [stage, chainNames, ends, paths]
  have marked : markTableDeltaFiles ((stage stem r).files.map Prod.fst) =
      if r.pair.seqLo = 0 then .ok [(stem, ⟨[fileUnder stem r.ends], none⟩)]
      else .error [stem] := by
    have listed : ((stage stem r).files.map Prod.fst).Perm (chainNames stem [r.ends] ++ []) := by
      rw [names, append_nil]
    rw [markTableDeltaFiles_names (pairwise_singleton _ _) (cons_ne_nil _ _)
      (forall_mem_singleton.mpr named) visible listed nofun]
    by_cases zero : r.pair.seqLo = 0
    · rw [if_pos zero, if_pos (by simp [tiles, fileUnder, ends, zero])]
      rfl
    · rw [if_neg zero, if_neg (by simp [tiles, fileUnder, ends, zero])]
  have range : (fileUnder stem r.ends).range = true := bne_iff_ne.mpr lt.ne
  have upserts : (stage stem r).files.lookup (fileUnder stem r.ends).upserts =
      some (.upserts r.upsertsMeta r.pair.upserts) := by
    have ne := tableDeltaRangePath_ne stem r.pair.seqLo r.pair.seq
    simp [stage, fileUnder, ends, paths, lookup, beq_eq_false_iff_ne.mpr ne]
  have posdel : (stage stem r).files.lookup (fileUnder stem r.ends).posdel =
      some (.posdel r.posdelMeta r.pair.posdel) := by
    simp [stage, fileUnder, ends, paths]
  have finished : ¬((!(stage stem r).success) = true) := by simp [stage]
  unfold adoptCompaction
  rw [if_neg finished, isLast, marked]
  by_cases zero : r.pair.seqLo = 0
  · rw [if_pos zero]
    dsimp only
    rw [range, upserts, posdel]
    have ends : (fileUnder stem r.ends).seqLo = r.pair.seqLo ∧
        (fileUnder stem r.ends).seq = r.pair.seq := ⟨rfl, rfl⟩
    rw [ends.1, ends.2, if_neg (by decide)]
    by_cases checks : covers r.pair.seqLo r.pair.seq false prev = true ∧
        r.pair.seq ≤ last.upsertsMeta.seq
    · rw [if_neg (by simp [checks.1, not_lt.mpr checks.2])]
      by_cases fit : footersFit last.upsertsMeta r.upsertsMeta r.posdelMeta
          (fileUnder stem r.ends) = true
      · rw [if_pos ⟨zero, checks.1, checks.2, fit⟩]
        exact if_pos fit
      · rw [if_neg fun all => fit all.2.2.2]
        exact if_neg fit
    · refine (if_pos ?_).trans (if_neg fun all => checks ⟨all.2.1, all.2.2.1⟩).symm
      by_contra none
      simp only [Bool.or_eq_true, Bool.not_eq_true', decide_eq_true_eq, not_or, not_lt,
        Bool.not_eq_false] at none
      exact checks none
  · rw [if_neg zero, if_neg (fun all => zero all.1)]

/-- The range keeps the chain's identity, so its footers fit. -/
theorem footersFit_of_tiled (published : TiledChain prev) (hf : f ∈ prev) (hlast : last ∈ prev) :
    footersFit last.upsertsMeta { f.upsertsMeta with seqLo := lo, seq := hi }
      { f.upsertsMeta with seqLo := lo, seq := hi } (fileUnder stem (lo, hi)) = true := by
  obtain ⟨start, anchor, size⟩ := published.oneChain f hf last hlast
  simp [footersFit, fileUnder, start, anchor, size]

/-- The files of pairs that tile are read back from their names. -/
theorem markTableDeltaFiles_of_tiles (visible : stem ≠ [] ∧ stem.head? ≠ some '.')
    (tiled : EndsTile 0 (files.map ends)) (nonempty : files ≠ [])
    (named : ∀ f ∈ files, Named f.pair.seqLo f.pair.seq) {names others : List FileName}
    (listed : names.Perm (chainNames stem (files.map ends) ++ others))
    (noDelta : ∀ name ∈ others, parseTableDeltaRange name = none) :
    markTableDeltaFiles names =
      .ok [(stem, ⟨(files.map ends).map (fileUnder stem), none⟩)] := by
  have each : ∀ e ∈ files.map ends, Named e.1 e.2 := forall_mem_map.mpr named
  have ordered := (tiled.ordered fun ends member => (each ends member).le).2
  rw [markTableDeltaFiles_names ordered (by simpa using nonempty) each visible listed noDelta,
    if_pos (tiles_iff.mpr tiled)]

section

variable {lo hi : ℕ} {files pre mid post : List (ChainFile Row)} {r : ChainFile Row}

/-- The table read through a range in the place of its pairs. -/
theorem CutAt.state (cut : CutAt lo hi files pre mid post)
    (isPair : r.pair = mergePairs lo hi mid) (base : List Row) (more : List (TableDeltaPair Row))
    (ordered : ChainOrdered (files.map pair ++ more)) :
    tableDeltaState base ((pre ++ r :: post).map pair ++ more) =
      tableDeltaState base (files.map pair ++ more) := by
  have split : files.map pair ++ more = pre.map pair ++
      (mid.map pair ++ (post.map pair ++ more)) := by
    rw [cut.eq]
    simp
  have splitR : (pre ++ r :: post).map pair ++ more = pre.map pair ++
      ([r.pair] ++ (post.map pair ++ more)) := by simp
  rw [split] at ordered ⊢
  rw [splitR]
  have orderedMid := ordered.append_right.append_left
  obtain ⟨first, rest, isMid, starts⟩ := cut.first
  have ascending := ordered.ascending
  rw [pairwise_append, pairwise_append] at ascending
  have inMid : first.pair ∈ mid.map pair := by simp [isMid]
  have atLo : r.pair.seqLo = first.pair.seqLo := by
    rw [isPair, starts]
    rfl
  have keys : r.pair.keys.Nodup := by
    rw [isPair]
    exact tableDeltaLatest_nodup orderedMid
  refine tableDeltaState_merge ordered ⟨?_, ?_⟩ (by rw [isPair]; rfl) fun p => ?_
  · rw [pairwise_append, pairwise_append]
    refine ⟨ascending.1, ⟨pairwise_singleton _ _, ascending.2.1.2.1, ?_⟩, ?_⟩
    · intro a ha b hb
      rw [mem_singleton.mp ha, atLo]
      exact ascending.2.1.2.2 first.pair inMid b hb
    · intro a ha b hb
      rcases mem_append.mp hb with isR | later
      · rw [mem_singleton.mp isR, atLo]
        exact ascending.2.2 a ha first.pair (mem_append_left _ inMid)
      · exact ascending.2.2 a ha b (mem_append_right _ later)
  · obtain ⟨early, rest⟩ := forall_mem_append.mp ordered.keysOnce
    exact forall_mem_append.mpr ⟨early, forall_mem_append.mpr
      ⟨forall_mem_singleton.mpr keys, (forall_mem_append.mp rest).2⟩⟩
  · rw [isPair, mergePairs, mem_insertionSort, mem_dedup, flatMap_map]

end

/-- **Adopting a compaction keeps the chain.** Whatever range was merged and whatever pairs were
appended meanwhile, the carried files tile up to the same sequence, `markTableDeltaFiles` reads them
back, and under every base and every later pair the table is the one before. A range from 0 does
travel in the place of its pairs. -/
theorem compaction_adopted {stem : FileName} (visible : stem ≠ [] ∧ stem.head? ≠ some '.')
    {chain appended : List (ChainFile Row)} (published : TiledChain (chain ++ appended))
    {lo hi : ℕ} {r : ChainFile Row} (merged : compactTableDeltaMinor chain lo hi = .ok r) :
    let files := carriedFiles (stage stem r) (chain ++ appended)
    EndsTile 0 (files.map ends) ∧
      nextAfter 0 (files.map ends) =
        nextAfter 0 ((chain ++ appended).map ends) ∧
      (∀ names others : List FileName,
        names.Perm (chainNames stem (files.map ends) ++ others) →
        (∀ name ∈ others, parseTableDeltaRange name = none) →
        markTableDeltaFiles names =
          .ok [(stem, ⟨(files.map ends).map (fileUnder stem), none⟩)]) ∧
      (∀ (base : List Row) (more : List (TableDeltaPair Row)),
        ChainOrdered ((chain ++ appended).map pair ++ more) →
        (tableDeltaState base (files.map pair ++ more)).Perm
          (tableDeltaState base ((chain ++ appended).map pair ++ more))) ∧
      (lo = 0 → r ∈ files) := by
  have order := published.inOrder
  obtain ⟨first, last, inMerged, starts, isLast, ends, two, isR⟩ := compactTableDeltaMinor_ok merged
  have lastMerged := mem_of_getLast? isLast
  obtain ⟨inChain, firstWithin⟩ := mem_filter.mp inMerged
  have lastChain := (mem_filter.mp lastMerged).1
  have inPrev : ∀ f ∈ chain, f ∈ chain ++ appended := fun f member => mem_append_left _ member
  have pairEnds : r.pair.seqLo = lo ∧ r.pair.seq = hi := by
    rw [isR]
    exact ⟨rfl, rfl⟩
  have lt : lo < hi := by
    refine InOrder.lt_of_two ⟨fun f member => order.le f (inPrev f member), ?_⟩ two
    exact (pairwise_append.mp order.ordered).1
  have named : Named r.pair.seqLo r.pair.seq := by
    rw [pairEnds.1, pairEnds.2]
    exact ⟨lt.le, ends ▸ (published.named last (inPrev last lastChain)).fits⟩
  obtain ⟨pre, mid, post, cut⟩ :=
    order.cut lt.le (inPrev first inChain) starts (inPrev last lastChain) ends
  -- No pair appended since lies in the range, so the range merged what the chain now has there.
  have isMid : mid = chain.filter (within lo hi) := by
    have later : appended.filter (within lo hi) = [] := by
      refine filter_eq_nil_iff.mpr fun f member => ?_
      have after := (pairwise_append.mp order.ordered).2.2 last lastChain f member
      have own := order.le f (mem_append_right _ member)
      simp only [within, decide_eq_true_eq]
      omega
    rw [← cut.filter order, filter_append, later, append_nil]
  have nonempty : chain ++ appended ≠ [] := ne_nil_of_mem (inPrev first inChain)
  obtain ⟨newest, isNewest⟩ : ∃ newest, (chain ++ appended).getLast? = some newest :=
    ⟨_, getLast?_eq_some_getLast nonempty⟩
  have adopts := adoptCompaction_stage visible named (by rw [pairEnds.1, pairEnds.2]; exact lt)
    isNewest
  have isPair : r.pair = mergePairs lo hi mid := by rw [isR, isMid]
  dsimp only
  unfold carriedFiles
  rw [adopts]
  split
  · rename_i adopted taken
    -- Adopted: the range stands where its pairs did.
    obtain rfl : r = adopted := by
      split at taken
      · exact Option.some.inj taken
      · cases taken
    rw [← pairEnds.1, ← pairEnds.2] at cut
    rw [cut.splice order]
    obtain ⟨tiled, next⟩ := cut.tiles published.tiled
    refine ⟨tiled, next, fun names others => ?_, fun base more ordered => ?_, fun _ => by simp⟩
    · have old : ∀ f ∈ pre ++ mid ++ post, Named f.pair.seqLo f.pair.seq := cut.eq ▸ published.named
      obtain ⟨early, late⟩ := forall_mem_append.mp old
      exact markTableDeltaFiles_of_tiles visible tiled (by simp) (forall_mem_append.mpr
        ⟨(forall_mem_append.mp early).1, forall_mem_cons.mpr ⟨named, late⟩⟩)
    · rw [cut.state (by rw [pairEnds.1, pairEnds.2]; exact isPair) base more ordered]
  · rename_i refused
    refine ⟨published.tiled, rfl, fun names others =>
      markTableDeltaFiles_of_tiles visible published.tiled nonempty published.named,
      fun base more _ => .refl _, fun zero => ?_⟩
    have fits : r.pair.seqLo = 0 ∧ covers r.pair.seqLo r.pair.seq false (chain ++ appended) = true ∧
        r.pair.seq ≤ newest.upsertsMeta.seq ∧ footersFit newest.upsertsMeta r.upsertsMeta
          r.posdelMeta (fileUnder stem r.ends) = true := by
      have inNewest := mem_of_getLast? isNewest
      refine ⟨pairEnds.1.trans zero, ?_, ?_, ?_⟩
      · rw [pairEnds.1, pairEnds.2]
        exact cut.covers order lt.le
      · rw [published.ownSeq newest inNewest, pairEnds.2, ← ends]
        exact order.seq_le_last isNewest (inPrev last lastChain)
      · rw [isR]
        exact footersFit_of_tiled published (inPrev last lastChain) inNewest
    rw [if_pos fits] at refused
    cases refused

/-- Footers of one chain. -/
def ordersMeta (seqLo seq : ℕ) : DeltaMeta :=
  ⟨some 0, "binlog.000001:4", 100, seqLo, seq, "binlog.000001", 4⟩

def ordersPair (seq : ℕ) (posdel : List ℤ) (upserts : List (UpsertRow ℕ)) : ChainFile ℕ :=
  ⟨⟨seq, seq, posdel, upserts⟩, ordersMeta seq seq, ordersMeta seq seq⟩

/-- Key a changes and goes, key b is put in. -/
def ordersChain : List (ChainFile ℕ) :=
  [ordersPair 0 [] [], ordersPair 1 [0] [⟨"a", some 11⟩], ordersPair 2 [0] [⟨"a", none⟩]]

def ordersAppended : List (ChainFile ℕ) := [ordersPair 3 [] [⟨"b", some 20⟩]]

def ordersRange : ChainFile ℕ :=
  ⟨⟨0, 1, [0], [⟨"a", some 11⟩]⟩, ordersMeta 0 1, ordersMeta 0 1⟩

theorem ordersRange_adopted :
    ordersRange ∈ carriedFiles (stage "orders".toList ordersRange) (ordersChain ++ ordersAppended) ∧
      (tableDeltaState [10] ((carriedFiles (stage "orders".toList ordersRange)
        (ordersChain ++ ordersAppended)).map pair ++ [])).Perm [20] := by
  have published : TiledChain (ordersChain ++ ordersAppended) := by
    refine ⟨⟨rfl, rfl, rfl, rfl, trivial⟩, fun f member => ⟨?_, ?_⟩, ?_, ?_, ?_⟩
    · revert f
      decide
    · revert f
      decide
    · decide
    · decide
    · decide
  have merged : compactTableDeltaMinor ordersChain 0 1 = .ok ordersRange := by decide
  have visible : "orders".toList ≠ [] ∧ "orders".toList.head? ≠ some '.' := by decide
  obtain ⟨-, -, -, state, adopted⟩ := compaction_adopted visible published merged
  refine ⟨adopted rfl, (state [10] [] ?_).trans ?_⟩
  · rw [append_nil]
    exact published.inOrder.chainOrdered published.keysOnce
  · have is : tableDeltaState [10] ((ordersChain ++ ordersAppended).map pair ++ []) = [20] :=
      by decide
    rw [is]

end Dbtrail
