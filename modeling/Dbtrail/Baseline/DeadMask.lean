import Mathlib.Data.List.Dedup
import Dbtrail.Baseline.TableDelta

/-!
# The dead rows of a base, subtracted through 64-bit masks

`baseMinusDeadWhereSQL` as DuckDB computes it: row numbers are BIGINT (64 bits,
two's complement), the dead ones are grouped by `p >> 6` with
`bit_or(1::UBIGINT << (p & 63)::UBIGINT)`, and each base row is left-joined to
the group of its own block and kept when there is none or its bit is clear. A
dead position may be NULL: it makes a group of its own, which `=` never finds.

`baseMinusDeadWhere_eq` says what the statement selects, for any list of dead
positions; `baseMinusDead_eq_bits` that the integer model of `TableDelta` is
this one on the positions a file can hold.
-/

namespace Dbtrail

open List

/-- A BIGINT or UBIGINT value. -/
abbrev Word64 : Type := BitVec 64

/-- `p >> 6`: the shift of a BIGINT keeps its sign. -/
def deadBlock (p : Word64) : Word64 := p.sshiftRight 6

/-- `(p & 63)::UBIGINT` -/
def deadBit (p : Word64) : Word64 := p &&& 63#64

/-- `bit_or` over a group: NULLs are skipped, and a group of them gives NULL. -/
def bitOr (bits : List (Option Word64)) : Option Word64 :=
  match bits.reduceOption with
  | [] => none
  | first :: rest => some (rest.foldl (· ||| ·) first)

/-- The groups of the dead positions: block and mask, one row for each block. -/
def blockMasks (dead : List (Option Word64)) : List (Option Word64 × Option Word64) :=
  (dead.map (Option.map deadBlock)).dedup.map fun block =>
    (block, bitOr ((dead.filter fun p => p.map deadBlock == block).map
      (Option.map fun p => 1#64 <<< deadBit p)))

/-- The masks a base row is joined to, `none` where the LEFT JOIN finds no
group. -/
def joinedMasks (dead : List (Option Word64)) (pos : Word64) : List (Option Word64) :=
  match (blockMasks dead).filter fun group => group.1 == some (deadBlock pos) with
  | [] => [none]
  | groups => groups.map Prod.snd

/-- `mask IS NULL OR (mask >> (file_row_number & 63)::UBIGINT) & 1 = 0` -/
def maskKeeps (pos : Word64) (mask : Option Word64) : Bool :=
  match mask with
  | none => true
  | some mask => (mask >>> deadBit pos) &&& 1#64 == 0#64

/-- The rows `baseMinusDeadWhereSQL` selects. A base row comes with its
`file_row_number`; `wanted` is the caller's predicate on the base. -/
def baseMinusDeadWhere {Row : Type} (base : List (Word64 × Row)) (dead : List (Option Word64))
    (wanted : Row → Bool) : List Row :=
  base.flatMap fun row =>
    ((joinedMasks dead row.1).filter fun mask => wanted row.2 && maskKeeps row.1 mask).map
      fun _ => row.2

/-! ## A position is its block and its bit -/

theorem deadBit_toNat (p : Word64) : (deadBit p).toNat = p.toNat % 64 := by
  rw [deadBit, BitVec.toNat_and]
  exact Nat.and_two_pow_sub_one_eq_mod p.toNat 6

theorem eq_of_deadBlock_deadBit {p q : Word64} (block : deadBlock p = deadBlock q)
    (bit : deadBit p = deadBit q) : p = q := by
  apply BitVec.eq_of_getLsbD_eq
  intro i inside
  by_cases low : i < 6
  · have same : p.toNat % 2 ^ 6 = q.toNat % 2 ^ 6 := by
      have := congrArg BitVec.toNat bit
      rwa [deadBit_toNat, deadBit_toNat] at this
    have := congrArg (fun n => n.testBit i) same
    simpa only [Nat.testBit_mod_two_pow, low, decide_true, Bool.true_and,
      BitVec.testBit_toNat] using this
  · -- the bits from the sixth on are those of the block, six places down
    have same := congrArg (fun b => b.getLsbD (i - 6)) block
    have place : 6 + (i - 6) = i := by omega
    have inside' : ¬64 ≤ i - 6 := by omega
    simpa only [deadBlock, BitVec.getLsbD_sshiftRight, place, inside, inside', decide_false,
      Bool.not_false, Bool.true_and, if_true] using same

/-! ## One block's mask -/

theorem getLsbD_foldl_or (bits : List Word64) (mask : Word64) (i : ℕ) :
    (bits.foldl (· ||| ·) mask).getLsbD i =
      (mask.getLsbD i || bits.any fun bit => bit.getLsbD i) := by
  induction bits generalizing mask with
  | nil => simp
  | cons bit rest ih =>
    rw [foldl_cons, ih, BitVec.getLsbD_or, any_cons, Bool.or_assoc]

theorem getLsbD_bitOr {bits : List (Option Word64)} {mask : Word64}
    (given : bitOr bits = some mask) (i : ℕ) :
    mask.getLsbD i = bits.reduceOption.any fun bit => bit.getLsbD i := by
  unfold bitOr at given
  split at given
  next => cases given
  next first rest listed =>
    cases given
    rw [getLsbD_foldl_or, listed, any_cons]

theorem getLsbD_deadBit (p q : Word64) :
    (1#64 <<< deadBit p).getLsbD (deadBit q).toNat = decide (deadBit p = deadBit q) := by
  have below : (deadBit q).toNat < 64 := by
    rw [deadBit_toNat]
    exact Nat.mod_lt _ (by decide)
  rw [BitVec.shiftLeft_eq', BitVec.getLsbD_shiftLeft, BitVec.getLsbD_one, Bool.eq_iff_iff]
  simp only [below, decide_true, Bool.true_and, Bool.and_eq_true, Bool.not_eq_true',
    decide_eq_false_iff_not, decide_eq_true_eq, BitVec.toNat_eq]
  omega

theorem maskKeeps_some (pos mask : Word64) :
    maskKeeps pos (some mask) = !mask.getLsbD (deadBit pos).toNat := by
  have bit : (mask >>> deadBit pos) &&& 1#64 =
      bif mask.getLsbD (deadBit pos).toNat then 1#64 else 0#64 := by
    apply BitVec.eq_of_getLsbD_eq
    intro i _
    cases set : mask.getLsbD (deadBit pos).toNat <;>
      simp only [BitVec.ushiftRight_eq', BitVec.getLsbD_and, BitVec.getLsbD_ushiftRight,
        BitVec.getLsbD_one, cond_true, cond_false, BitVec.getLsbD_zero]
    · by_cases first : i = 0
      · simp [first, set]
      · simp [first]
    · by_cases first : i = 0
      · simp [first, set]
      · simp [first]
  rw [maskKeeps, bit]
  cases mask.getLsbD (deadBit pos).toNat <;> rfl

/-! ## The statement -/

/-- The dead positions of the block a position lies in, as the mask's bits. -/
def blockBits (dead : List (Option Word64)) (pos : Word64) : List (Option Word64) :=
  (dead.filter fun p => p.map deadBlock == some (deadBlock pos)).map
    (Option.map fun p => 1#64 <<< deadBit p)

/-- A base row meets one mask at most: the join does not multiply rows. -/
theorem joinedMasks_eq (dead : List (Option Word64)) (pos : Word64) :
    joinedMasks dead pos = [bitOr (blockBits dead pos)] := by
  have found : ((dead.map (Option.map deadBlock)).dedup.filter
      fun block => block == some (deadBlock pos)) =
        replicate ((dead.map (Option.map deadBlock)).dedup.count (some (deadBlock pos)))
          (some (deadBlock pos)) := filter_beq _
  unfold joinedMasks blockMasks
  rw [filter_map]
  have same : ((fun group : Option Word64 × Option Word64 => group.1 == some (deadBlock pos)) ∘
      fun block => (block, bitOr ((dead.filter fun p => p.map deadBlock == block).map
        (Option.map fun p => 1#64 <<< deadBit p)))) =
      fun block => block == some (deadBlock pos) := rfl
  rw [same, found]
  by_cases member : some (deadBlock pos) ∈ dead.map (Option.map deadBlock)
  · rw [count_eq_one_of_mem (nodup_dedup _) (mem_dedup.mpr member)]
    rfl
  · have noRows : blockBits dead pos = [] := by
      rw [blockBits, map_eq_nil_iff, filter_eq_nil_iff]
      intro p listed
      rw [beq_iff_eq]
      intro here
      exact member (mem_map.mpr ⟨p, listed, here⟩)
    rw [count_eq_zero_of_not_mem (fun listed => member (mem_dedup.mp listed)), noRows]
    rfl

theorem mem_blockBits {dead : List (Option Word64)} {pos bit : Word64} :
    bit ∈ (blockBits dead pos).reduceOption ↔
      ∃ p, some p ∈ dead ∧ deadBlock p = deadBlock pos ∧ 1#64 <<< deadBit p = bit := by
  rw [reduceOption_mem_iff, blockBits, mem_map]
  constructor
  · rintro ⟨p, listed, shown⟩
    rw [mem_filter, beq_iff_eq] at listed
    cases p with
    | none => cases shown
    | some p => exact ⟨p, listed.1, Option.some.inj listed.2, Option.some.inj shown⟩
  · rintro ⟨p, listed, block, rfl⟩
    refine ⟨some p, mem_filter.mpr ⟨listed, ?_⟩, rfl⟩
    rw [beq_iff_eq, Option.map_some, block]

theorem maskKeeps_bitOr (dead : List (Option Word64)) (pos : Word64) :
    maskKeeps pos (bitOr (blockBits dead pos)) = decide (some pos ∉ dead) := by
  cases given : bitOr (blockBits dead pos) with
  | none =>
    have empty : (blockBits dead pos).reduceOption = [] := by
      unfold bitOr at given
      split at given
      next listed => exact listed
      next => cases given
    refine (decide_eq_true ?_).symm
    intro member
    have bit := mem_blockBits.mpr ⟨pos, member, rfl, rfl⟩
    rw [empty] at bit
    exact not_mem_nil bit
  | some mask =>
    rw [maskKeeps_some, getLsbD_bitOr given, Bool.eq_iff_iff, Bool.not_eq_true',
      any_eq_false, decide_eq_true_iff]
    constructor
    · intro clear member
      refine clear _ (mem_blockBits.mpr ⟨pos, member, rfl, rfl⟩) ?_
      rw [getLsbD_deadBit]
      exact decide_eq_true rfl
    · intro absent bit listed set
      obtain ⟨p, member, block, rfl⟩ := mem_blockBits.mp listed
      rw [getLsbD_deadBit, decide_eq_true_iff] at set
      exact absent (eq_of_deadBlock_deadBit block set ▸ member)

theorem baseMinusDeadWhere_filter {Row : Type} (base : List (Word64 × Row))
    (dead : List (Option Word64)) (wanted : Row → Bool) :
    baseMinusDeadWhere base dead wanted =
      (base.filter fun row => wanted row.2 && decide (some row.1 ∉ dead)).map Prod.snd := by
  induction base with
  | nil => rfl
  | cons row rest ih =>
    rw [baseMinusDeadWhere, flatMap_cons, ← baseMinusDeadWhere, ih, joinedMasks_eq,
      filter_cons, filter_cons, maskKeeps_bitOr]
    split <;> rfl

/-- A base row is read exactly when the caller's predicate holds of it and its
row number is not among the dead ones, whatever 64-bit numbers and NULLs those
are and however often one is listed; and the rows keep their order. -/
theorem baseMinusDeadWhere_eq {Row : Type} (base : List (Word64 × Row))
    (dead : List (Option Word64)) (wanted : Row → Bool) :
    (∀ pos, (joinedMasks dead pos).filter (maskKeeps pos) = [] ↔ some pos ∈ dead) ∧
      baseMinusDeadWhere base dead wanted =
        (base.filter fun row => wanted row.2 && decide (some row.1 ∉ dead)).map Prod.snd := by
  refine ⟨fun pos => ?_, baseMinusDeadWhere_filter base dead wanted⟩
  rw [joinedMasks_eq, filter_eq_nil_iff]
  simp only [mem_singleton, forall_eq, maskKeeps_bitOr, decide_eq_true_eq, not_not]

/-- The integer model reads the rows the statement reads, on a file whose row
numbers are BIGINTs. -/
theorem baseMinusDead_eq_bits {Row : Type} (base : List Row) (dead : List ℤ)
    (rows : base.length ≤ 2 ^ 63) (bigint : ∀ p ∈ dead, -2 ^ 63 ≤ p ∧ p < 2 ^ 63) :
    baseMinusDead base dead =
      baseMinusDeadWhere (base.zipIdx.map fun row => (BitVec.ofNat 64 row.2, row.1))
        (dead.map fun p => some (BitVec.ofInt 64 p)) fun _ => true := by
  rw [baseMinusDead_eq, baseMinusDeadWhere_filter, filter_map, map_map]
  have same : base.zipIdx.filter (fun row => decide ((row.2 : ℤ) ∉ dead)) =
      base.zipIdx.filter ((fun row : Word64 × Row =>
        true && decide (some row.1 ∉ dead.map fun p => some (BitVec.ofInt 64 p))) ∘
          fun row => (BitVec.ofNat 64 row.2, row.1)) := by
    apply filter_congr
    rintro ⟨row, i⟩ inside
    have below : i < base.length := by
      simpa using (mem_zipIdx inside).2.1
    have back : ∀ p ∈ dead, BitVec.ofInt 64 p = BitVec.ofNat 64 i ↔ p = i := by
      intro p listed
      obtain ⟨low, high⟩ := bigint p listed
      rw [← BitVec.ofInt_natCast, ← BitVec.toInt_inj, BitVec.toInt_ofInt_eq_self (by decide),
        BitVec.toInt_ofInt_eq_self (by decide)]
      all_goals omega
    simp only [Function.comp_apply, Bool.true_and, mem_map, Option.some.injEq,
      decide_eq_decide, not_iff_not]
    constructor
    · intro member
      exact ⟨i, member, (back i member).mpr rfl⟩
    · rintro ⟨p, member, shown⟩
      exact (back p member).mp shown ▸ member
  rw [same]
  rfl

theorem deadRow_eq_bits :
    baseMinusDead ["a", "b"] [1] = baseMinusDeadWhere [(0, "a"), (1, "b")] [some 1] fun _ => true :=
  baseMinusDead_eq_bits ["a", "b"] [1] (by decide) (by decide)

end Dbtrail
