import Dbtrail.Lib.KeyedTable

/-!
# The state of a table under a chain of delta pairs

A chain is a list of pairs beside one base file. A pair names the base rows its
window killed (`posdel`, row numbers) and the newest version its window left of
each key it touched (`upserts`, a row or a tombstone). `tableDeltaState` is the
state the SQL of `TableDeltaStateSQL` reads: the base without the dead row
numbers, plus the newest version of every key that is not a tombstone.

The dead rows are subtracted through one 64-bit mask per block of 64 row
numbers (`baseMinusDead`), and the newest version is chosen by the sequence
number in the file's name (`tableDeltaLatest`).
-/

namespace Dbtrail

open List

/-- A row of an `.upserts` file: the key, and the image under op "u" or nothing
under op "d". -/
structure UpsertRow (Row : Type) : Type where
  pk : String
  version : Option Row
  deriving DecidableEq, Repr

/-- One pair of a chain with its contents: sequences `seqLo..seq`, equal for the
pair of one window. -/
structure TableDeltaPair (Row : Type) : Type where
  seqLo : ℕ
  seq : ℕ
  posdel : List ℤ
  upserts : List (UpsertRow Row)
  deriving DecidableEq, Repr

variable {Row : Type} {chain newer older : List (TableDeltaPair Row)} {x : ℕ × UpsertRow Row}
  {k : String} {rows : List (UpsertRow Row)}

/-- The keys a pair touches. -/
def TableDeltaPair.keys (f : TableDeltaPair Row) : List String := f.upserts.map UpsertRow.pk

/-! ## The base without its dead rows -/

/-- `bit_or(1 << (p & 63))` over the dead row numbers of one block, `none` for
a block with none (the LEFT JOIN's NULL). -/
def deadMask (dead : List ℤ) (block : ℤ) : Option ℕ :=
  match dead.filter fun p => p / 64 == block with
  | [] => none
  | ps => some (ps.foldl (fun mask p => mask ||| 1 <<< (p % 64).toNat) 0)

/-- The row filter of `baseMinusDeadWhereSQL` at one row number. -/
def survivesMask (dead : List ℤ) (pos : ℤ) : Bool :=
  match deadMask dead (pos / 64) with
  | none => true
  | some mask => (mask >>> (pos % 64).toNat) &&& 1 == 0

def baseMinusDead (base : List Row) (dead : List ℤ) : List Row :=
  (base.zipIdx.filter fun x => survivesMask dead (x.2 : ℤ)).map Prod.fst

theorem testBit_foldl_lor (ps : List ℤ) (mask n : ℕ) :
    (ps.foldl (fun mask p => mask ||| 1 <<< (p % 64).toNat) mask).testBit n =
      (mask.testBit n || ps.any fun p => (p % 64).toNat == n) := by
  induction ps generalizing mask with
  | nil => simp
  | cons p rest ih =>
    rw [foldl_cons, ih, Nat.testBit_or, Nat.one_shiftLeft, Nat.testBit_two_pow]
    rw [any_cons, Bool.or_assoc]
    rfl

theorem shiftRight_and_one_eq_zero (mask n : ℕ) :
    (mask >>> n) &&& 1 = 0 ↔ mask.testBit n = false := by
  rw [Nat.testBit, Nat.and_comm, bne_eq_false_iff_eq]

/-- The mask filter drops exactly the listed row numbers. -/
theorem survivesMask_iff (dead : List ℤ) (pos : ℤ) :
    survivesMask dead pos = true ↔ pos ∉ dead := by
  have split : ∀ p : ℤ, p = pos ↔ p / 64 = pos / 64 ∧ (p % 64).toNat = (pos % 64).toNat := by
    intro p
    constructor
    · rintro rfl
      exact ⟨rfl, rfl⟩
    · rintro ⟨block, bit⟩
      omega
  unfold survivesMask deadMask
  cases found : dead.filter fun p => p / 64 == pos / 64 with
  | nil =>
    rw [filter_eq_nil_iff] at found
    simp only [true_iff]
    intro member
    exact found pos member (by simp)
  | cons p rest =>
    simp only [beq_iff_eq]
    rw [shiftRight_and_one_eq_zero, testBit_foldl_lor, ← found]
    simp only [Nat.zero_testBit, Bool.false_or, any_eq_false, mem_filter, beq_iff_eq]
    constructor
    · intro none member
      exact none pos ⟨member, rfl⟩ rfl
    · rintro absent p ⟨member, block⟩ bit
      exact absent ((split p).mpr ⟨block, bit⟩ ▸ member)

theorem baseMinusDead_eq (base : List Row) (dead : List ℤ) :
    baseMinusDead base dead =
      (base.zipIdx.filter fun x => decide ((x.2 : ℤ) ∉ dead)).map Prod.fst := by
  unfold baseMinusDead
  congr 1
  apply filter_congr
  intro x _
  rw [Bool.eq_iff_iff, survivesMask_iff, decide_eq_true_iff]

/-! ## The newest version of each key -/

/-- The rows of the chain's `.upserts`, each with the sequence its file name
carries (the low end of a range pair). -/
def upsertRows (chain : List (TableDeltaPair Row)) : List (ℕ × UpsertRow Row) :=
  chain.flatMap fun f => f.upserts.map fun u => (f.seqLo, u)

/-- `max(seq) ... GROUP BY key`. -/
def newestSeq (rows : List (ℕ × UpsertRow Row)) (pk : String) : ℕ :=
  ((rows.filter fun x => x.2.pk == pk).map Prod.fst).foldr max 0

/-- `TableDeltaLatestSQL`: the rows whose sequence is the newest of their key. -/
def tableDeltaLatest (chain : List (TableDeltaPair Row)) : List (UpsertRow Row) :=
  let rows := upsertRows chain
  (rows.filter fun x => x.1 == newestSeq rows x.2.pk).map Prod.snd

/-- `TableDeltaStateSQL`: the table a chain over a base stands for. -/
def tableDeltaState (base : List Row) (chain : List (TableDeltaPair Row)) : List Row :=
  baseMinusDead base (chain.flatMap TableDeltaPair.posdel) ++
    (tableDeltaLatest chain).filterMap UpsertRow.version

theorem mem_upsertRows : x ∈ upsertRows chain ↔ ∃ f ∈ chain, x.2 ∈ f.upserts ∧ x.1 = f.seqLo := by
  simp only [upsertRows, mem_flatMap, mem_map]
  constructor
  · rintro ⟨f, inChain, u, inUpserts, rfl⟩
    exact ⟨f, inChain, inUpserts, rfl⟩
  · rintro ⟨f, inChain, inUpserts, seq⟩
    exact ⟨f, inChain, x.2, inUpserts, by rw [← seq]⟩

theorem foldr_max_eq_iff {l : List ℕ} {m : ℕ} (member : m ∈ l) :
    m = l.foldr max 0 ↔ ∀ x ∈ l, x ≤ m := by
  constructor
  · intro h x inL
    rw [h]
    exact le_max_of_le inL le_rfl
  · intro all
    exact le_antisymm (le_max_of_le member le_rfl) (max_le_of_forall_le l m all)

/-- A row carries the newest sequence of its key when no row of that key carries
a higher one. -/
theorem eq_newestSeq_iff {rows : List (ℕ × UpsertRow Row)} (member : x ∈ rows) :
    x.1 = newestSeq rows x.2.pk ↔ ∀ y ∈ rows, y.2.pk = x.2.pk → y.1 ≤ x.1 := by
  unfold newestSeq
  rw [foldr_max_eq_iff]
  · constructor
    · intro all y inRows same
      exact all y.1 (mem_map.mpr ⟨y, by simp [inRows, same], rfl⟩)
    · intro all s inMap
      obtain ⟨y, inFilter, rfl⟩ := mem_map.mp inMap
      simp only [mem_filter, beq_iff_eq] at inFilter
      exact all y inFilter.1 inFilter.2
  · exact mem_map.mpr ⟨x, by simp [member], rfl⟩

theorem mem_tableDeltaLatest {u : UpsertRow Row} :
    u ∈ tableDeltaLatest chain ↔
      ∃ f ∈ chain, u ∈ f.upserts ∧ ∀ g ∈ chain, u.pk ∈ g.keys → g.seqLo ≤ f.seqLo := by
  simp only [tableDeltaLatest, mem_map, mem_filter, beq_iff_eq]
  constructor
  · rintro ⟨x, ⟨inRows, newest⟩, rfl⟩
    obtain ⟨f, inChain, inUpserts, seq⟩ := mem_upsertRows.mp inRows
    refine ⟨f, inChain, inUpserts, fun g gChain touched => ?_⟩
    obtain ⟨v, inV, samePk⟩ := mem_map.mp touched
    rw [← seq]
    exact (eq_newestSeq_iff inRows).mp newest (g.seqLo, v)
      (mem_upsertRows.mpr ⟨g, gChain, inV, rfl⟩) samePk
  · rintro ⟨f, inChain, inUpserts, newest⟩
    have inRows : (f.seqLo, u) ∈ upsertRows chain :=
      mem_upsertRows.mpr ⟨f, inChain, inUpserts, rfl⟩
    refine ⟨(f.seqLo, u), ⟨inRows, (eq_newestSeq_iff inRows).mpr fun y inY same => ?_⟩, rfl⟩
    obtain ⟨g, gChain, inG, seq⟩ := mem_upsertRows.mp inY
    rw [seq]
    exact newest g gChain (mem_map.mpr ⟨y.2, inG, same⟩)

/-! ## Chains in sequence order -/

/-- What every writer of a chain keeps: pairs in sequence order, and a key at
most once in one file. -/
structure ChainOrdered (chain : List (TableDeltaPair Row)) : Prop where
  ascending : chain.Pairwise fun f g => f.seqLo < g.seqLo
  keysOnce : ∀ f ∈ chain, f.keys.Nodup

theorem ChainOrdered.append_left (ordered : ChainOrdered (older ++ newer)) : ChainOrdered older :=
  ⟨(pairwise_append.mp ordered.ascending).1,
    fun f member => ordered.keysOnce f (mem_append_left _ member)⟩

theorem ChainOrdered.append_right (ordered : ChainOrdered (older ++ newer)) : ChainOrdered newer :=
  ⟨(pairwise_append.mp ordered.ascending).2.1,
    fun f member => ordered.keysOnce f (mem_append_right _ member)⟩

/-- The keys of any pair of a chain. -/
def chainKeys (chain : List (TableDeltaPair Row)) : List String :=
  chain.flatMap TableDeltaPair.keys

theorem mem_chainKeys :
    k ∈ chainKeys chain ↔ ∃ f ∈ chain, k ∈ f.keys := mem_flatMap

/-- Versions in newer pairs hide the older ones of the same key, and nothing
else. -/
theorem tableDeltaLatest_append (ordered : ChainOrdered (older ++ newer)) :
    tableDeltaLatest (older ++ newer) =
      (tableDeltaLatest older).filter (fun u => decide (u.pk ∉ chainKeys newer)) ++
        tableDeltaLatest newer := by
  have across := (pairwise_append.mp ordered.ascending).2.2
  have rows : upsertRows (older ++ newer) = upsertRows older ++ upsertRows newer :=
    flatMap_append
  simp only [tableDeltaLatest, rows, filter_append, map_append]
  congr 1
  · rw [filter_map, filter_filter]
    congr 1
    apply filter_congr
    intro x inOlder
    obtain ⟨f, inF, -, seq⟩ := mem_upsertRows.mp inOlder
    rw [Bool.eq_iff_iff]
    simp only [beq_iff_eq, Bool.and_eq_true, Function.comp_apply, decide_eq_true_eq]
    rw [eq_newestSeq_iff (mem_append_left _ inOlder), eq_newestSeq_iff inOlder]
    constructor
    · intro newest
      refine ⟨fun hidden => ?_, fun y inY => newest y (mem_append_left _ inY)⟩
      obtain ⟨g, inG, touched⟩ := mem_chainKeys.mp hidden
      obtain ⟨v, inV, same⟩ := mem_map.mp touched
      have le := newest (g.seqLo, v)
        (mem_append_right _ (mem_upsertRows.mpr ⟨g, inG, inV, rfl⟩)) same
      have lt := across f inF g inG
      rw [seq] at le
      omega
    · rintro ⟨visible, newest⟩ y inY same
      rcases mem_append.mp inY with inY | inY
      · exact newest y inY same
      · obtain ⟨g, inG, inV, -⟩ := mem_upsertRows.mp inY
        exact absurd (mem_chainKeys.mpr ⟨g, inG, mem_map.mpr ⟨y.2, inV, same⟩⟩) visible
  · congr 1
    apply filter_congr
    intro x inNewer
    obtain ⟨g, inG, -, seq⟩ := mem_upsertRows.mp inNewer
    rw [Bool.eq_iff_iff]
    simp only [beq_iff_eq]
    rw [eq_newestSeq_iff (mem_append_right _ inNewer), eq_newestSeq_iff inNewer]
    constructor
    · exact fun newest y inY => newest y (mem_append_right _ inY)
    · intro newest y inY same
      rcases mem_append.mp inY with inY | inY
      · obtain ⟨f, inF, -, seq'⟩ := mem_upsertRows.mp inY
        have lt := across f inF g inG
        rw [seq, seq']
        omega
      · exact newest y inY same

/-- A chain of one pair has no versions to choose between. -/
theorem tableDeltaLatest_singleton (f : TableDeltaPair Row) :
    tableDeltaLatest [f] = f.upserts := by
  have rows : upsertRows [f] = f.upserts.map fun u => (f.seqLo, u) := by simp [upsertRows]
  simp only [tableDeltaLatest, rows]
  rw [filter_eq_self.mpr, map_map]
  · exact map_id _
  · intro x member
    rw [beq_iff_eq, eq_newestSeq_iff member]
    intro y inY _
    obtain ⟨u, -, rfl⟩ := mem_map.mp member
    obtain ⟨v, -, rfl⟩ := mem_map.mp inY
    exact le_rfl

theorem tableDeltaLatest_nodup (ordered : ChainOrdered chain) :
    ((tableDeltaLatest chain).map UpsertRow.pk).Nodup := by
  induction chain using reverseRecOn with
  | nil => exact nodup_nil
  | append_singleton older f ih =>
    rw [tableDeltaLatest_append ordered, tableDeltaLatest_singleton, map_append,
      nodup_append]
    refine ⟨?_, ordered.keysOnce f (by simp), ?_⟩
    · exact (filter_sublist.map _).nodup (ih ordered.append_left)
    · rintro k inOlder k' inNewer rfl
      obtain ⟨u, inFilter, rfl⟩ := mem_map.mp inOlder
      have visible := (mem_filter.mp inFilter).2
      simp only [decide_eq_true_eq] at visible
      exact visible (mem_chainKeys.mpr ⟨f, by simp, inNewer⟩)

/-- The newest version of a key, as a write: `some none` is a tombstone. -/
def versionsOf (rows : List (UpsertRow Row)) : String → Option (Option Row) :=
  fun k => (tableOf (fun u => some u.pk) rows k).map UpsertRow.version

theorem versionsOf_eq_some (nodup : (rows.map UpsertRow.pk).Nodup) {v : Option Row} :
    versionsOf rows k = some v ↔ ⟨k, v⟩ ∈ rows := by
  have keyNodup : (rows.map fun u => some u.pk).Nodup := by
    have := nodup.map (Option.some_injective String)
    rwa [map_map] at this
  have lists : Lists (fun u : UpsertRow Row => some u.pk) rows
      (tableOf (fun u => some u.pk) rows) :=
    lists_tableOf (fun u _ => ⟨u.pk, rfl⟩) keyNodup
  unfold versionsOf
  rw [Option.map_eq_some_iff]
  constructor
  · rintro ⟨u, found, rfl⟩
    obtain ⟨member, same⟩ := (lists.mem_iff k u).mp found
    cases same
    exact member
  · intro member
    exact ⟨⟨k, v⟩, (lists.mem_iff k _).mpr ⟨member, rfl⟩, rfl⟩

theorem versionsOf_eq_none : versionsOf rows k = none ↔ k ∉ rows.map UpsertRow.pk := by
  unfold versionsOf tableOf
  rw [Option.map_eq_none_iff, find?_eq_none, mem_map]
  simp

/-- Adding a pair lays its versions over those of the chain before it. -/
theorem versionsOf_latest_concat {f : TableDeltaPair Row} (ordered : ChainOrdered (older ++ [f])) :
    versionsOf (tableDeltaLatest (older ++ [f])) =
      supersede (versionsOf f.upserts) (versionsOf (tableDeltaLatest older)) := by
  have nodup := tableDeltaLatest_nodup ordered
  have nodupOld := tableDeltaLatest_nodup ordered.append_left
  have nodupNew : (f.upserts.map UpsertRow.pk).Nodup := ordered.keysOnce f (by simp)
  have latest := tableDeltaLatest_append ordered
  rw [tableDeltaLatest_singleton] at latest
  have keysNew : ∀ k, k ∈ chainKeys [f] ↔ k ∈ f.upserts.map UpsertRow.pk := by
    intro k
    rw [mem_chainKeys]
    simp [TableDeltaPair.keys]
  funext k
  unfold supersede
  cases new : versionsOf f.upserts k with
  | some v =>
    have inNew := (versionsOf_eq_some nodupNew).mp new
    have inLatest : ⟨k, v⟩ ∈ tableDeltaLatest (older ++ [f]) := by
      rw [latest]
      exact mem_append_right _ inNew
    rw [(versionsOf_eq_some nodup).mpr inLatest]
    rfl
  | none =>
    have untouched := versionsOf_eq_none.mp new
    cases old : versionsOf (tableDeltaLatest older) k with
    | some v =>
      have inOld := (versionsOf_eq_some nodupOld).mp old
      have inLatest : ⟨k, v⟩ ∈ tableDeltaLatest (older ++ [f]) := by
        rw [latest]
        refine mem_append_left _ (mem_filter.mpr ⟨inOld, ?_⟩)
        rw [decide_eq_true_eq, keysNew]
        exact untouched
      rw [(versionsOf_eq_some nodup).mpr inLatest]
      rfl
    | none =>
      have absent := versionsOf_eq_none.mp old
      have gone : versionsOf (tableDeltaLatest (older ++ [f])) k = none := by
        rw [versionsOf_eq_none, latest, map_append, mem_append]
        rintro (inOld | inNew)
        · exact absent ((filter_sublist.map _).mem inOld)
        · exact untouched inNew
      rw [gone]
      rfl

theorem mem_latest_keys (ordered : ChainOrdered chain) :
    k ∈ (tableDeltaLatest chain).map UpsertRow.pk ↔ k ∈ chainKeys chain := by
  induction chain using reverseRecOn with
  | nil => rfl
  | append_singleton older f ih =>
    have keys : chainKeys (older ++ [f]) = chainKeys older ++ f.keys := by
      simp [chainKeys]
    rw [tableDeltaLatest_append ordered, tableDeltaLatest_singleton, keys, map_append,
      mem_append, mem_append, ← ih ordered.append_left]
    by_cases inNew : k ∈ f.keys
    · have : k ∈ f.upserts.map UpsertRow.pk := inNew
      simp [inNew, this]
    · have visible : k ∉ chainKeys [f] := by
        simpa [chainKeys] using inNew
      constructor
      · rintro (inOld | inNew')
        · exact Or.inl ((filter_sublist.map _).mem inOld)
        · exact absurd inNew' inNew
      · rintro (inOld | inNew')
        · obtain ⟨u, member, rfl⟩ := mem_map.mp inOld
          exact Or.inl (mem_map.mpr
            ⟨u, mem_filter.mpr ⟨member, by simpa using visible⟩, rfl⟩)
        · exact absurd inNew' inNew

/-! ## The table of a state -/

/-- What the writers of a chain keep beside a base: a pair's dead positions are
those of the base rows it touches, and its images are stored under their key. -/
structure ChainOver (key : Row → Option String) (base : List Row)
    (chain : List (TableDeltaPair Row)) : Prop extends ChainOrdered chain where
  dead_iff : ∀ f ∈ chain, ∀ (i : ℕ) r k, base[i]? = some r → key r = some k →
    ((i : ℤ) ∈ f.posdel ↔ k ∈ f.keys)
  imageKeyed : ∀ f ∈ chain, ∀ u ∈ f.upserts, ∀ r, u.version = some r → key r = some u.pk

theorem map_fst_filter_zipIdx {α : Type*} {l : List α} (p : ℕ → Bool) {q : α → Bool}
    (agree : ∀ i a, l[i]? = some a → p i = q a) :
    (l.zipIdx.filter fun x => p x.2).map Prod.fst = l.filter q := by
  have congr : l.zipIdx.filter (fun x => p x.2) = l.zipIdx.filter (q ∘ Prod.fst) := by
    apply filter_congr
    intro x member
    exact agree x.2 x.1 (mem_zipIdx_iff_getElem?.mp member)
  rw [congr, ← filter_map, zipIdx_map_fst]

/-- The state lists the base's table with the chain's newest versions laid over
it. -/
theorem tableDeltaState_lists {key : Row → Option String} {base : List Row}
    {t : String → Option Row} (lists : Lists key base t) (beside : ChainOver key base chain) :
    Lists key (tableDeltaState base chain)
      (overlay (versionsOf (tableDeltaLatest chain)) t) := by
  have nodup := tableDeltaLatest_nodup beside.toChainOrdered
  have imageKeyed : ∀ u ∈ tableDeltaLatest chain, ∀ r, u.version = some r →
      key r = some u.pk := by
    intro u member r image
    obtain ⟨f, inChain, inUpserts, -⟩ := mem_tableDeltaLatest.mp member
    exact beside.imageKeyed f inChain u inUpserts r image
  -- a base row is dead exactly when some pair touches its key
  have kept : baseMinusDead base (chain.flatMap TableDeltaPair.posdel) =
      base.filter fun r => (key r).all fun k => decide (k ∉ chainKeys chain) := by
    rw [baseMinusDead_eq]
    apply map_fst_filter_zipIdx fun i =>
      decide ((i : ℤ) ∉ chain.flatMap TableDeltaPair.posdel)
    intro i r atI
    obtain ⟨k, hk⟩ := lists.keyed r (mem_of_getElem? atI)
    rw [hk, Option.all_some, decide_eq_decide, not_iff_not, mem_flatMap, mem_chainKeys]
    constructor
    · rintro ⟨f, inChain, dead⟩
      exact ⟨f, inChain, (beside.dead_iff f inChain i r k atI hk).mp dead⟩
    · rintro ⟨f, inChain, touched⟩
      exact ⟨f, inChain, (beside.dead_iff f inChain i r k atI hk).mpr touched⟩
  unfold tableDeltaState
  rw [kept]
  refine lists.overlay_append filter_sublist ?_ ?_
  · intro r member k hk
    rw [mem_filter, versionsOf_eq_none, mem_latest_keys beside.toChainOrdered, hk]
    simp [member]
  · have versions : (tableDeltaLatest chain).filterMap UpsertRow.version =
        ((tableDeltaLatest chain).map UpsertRow.pk).filterMap fun k =>
          (versionsOf (tableDeltaLatest chain) k).join := by
      rw [filterMap_map]
      apply filterMap_congr
      intro u member
      rw [Function.comp_apply, (versionsOf_eq_some nodup).mpr member]
      rfl
    rw [versions]
    refine lists_filterMap nodup ?_ ?_
    · intro k r hold
      rw [Option.join_eq_some_iff] at hold
      exact imageKeyed ⟨k, some r⟩ ((versionsOf_eq_some nodup).mp hold) r rfl
    · intro k r hold
      rw [Option.join_eq_some_iff] at hold
      exact mem_map.mpr ⟨_, (versionsOf_eq_some nodup).mp hold, rfl⟩

end Dbtrail
