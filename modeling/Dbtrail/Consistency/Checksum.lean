import Dbtrail.Lib.Text

/-!
# The checksum of a table

A table's rows are hashed one by one and the hashes are added, so that the digest is one of the
rows without their order. `rowBytes` is what a row feeds the hash: a NULL is a byte of its own,
and any other field comes with its length, so no two rows feed it the same bytes.
-/

namespace Dbtrail.Consistency

open List

/-- `binary.PutUvarint`. -/
def uvarint (n : ℕ) : Bytes :=
  if n < 128 then [n.toUInt8] else (n % 128 + 128).toUInt8 :: uvarint (n / 128)

/-- A field as it is hashed, a NULL being `none`. -/
def fieldBytes : Option Bytes → Bytes
  | none => [0x00]
  | some v => 0x01 :: (uvarint v.length ++ v)

def rowBytes (values : List (Option Bytes)) : Bytes := values.flatMap fieldBytes

/-- FNV-1a of 64 bits. -/
def fnv1a (s : Bytes) : UInt64 :=
  s.foldl (fun h b => (h ^^^ b.toUInt64) * 1099511628211) 14695981039346656037

structure RowHasher : Type where
  acc : UInt64 := 0
  cnt : Int64 := 0

def RowHasher.add (r : RowHasher) (values : List (Option Bytes)) : RowHasher :=
  ⟨r.acc + fnv1a (rowBytes values), r.cnt + 1⟩

/-- The digest with its version, `%016x` of the sum. -/
def RowHasher.digest (r : RowHasher) : String :=
  String.ofList ("v2:".toList ++ (Nat.toDigits 16 r.acc.toNat).leftpad 16 '0')

/-- A row given to `AddStrings` or to `AddBytes`. -/
inductive Added : Type where
  | strings (values : List Bytes) (nulls : List Bool)
  | bytes (values : List (Option Bytes))

def Added.row : Added → List (Option Bytes)
  | .strings values nulls => values.mapIdx fun i v => if nulls[i]?.getD true then none else some v
  | .bytes values => values

/-- The hasher after the rows of a table. -/
def hashRows (rows : List Added) : RowHasher := rows.foldl (fun r a => r.add a.row) {}

/-! ## The bytes of a row -/

theorem uvarint_append_inj {m n : ℕ} {s t : Bytes} (same : uvarint m ++ s = uvarint n ++ t) :
    m = n ∧ s = t := by
  induction m using Nat.strongRecOn generalizing n with
  | ind m ih =>
    have byte {a b : ℕ} (eq : a.toUInt8 = b.toUInt8) (small : a < 256) (small' : b < 256) :
        a = b := by
      have := congrArg UInt8.toNat eq
      simpa [Nat.mod_eq_of_lt small, Nat.mod_eq_of_lt small'] using this
    rw [uvarint, uvarint.eq_def n] at same
    split at same <;> split at same <;> rw [cons_append, cons_append, cons.injEq] at same
    · exact ⟨byte same.1 (by omega) (by omega), same.2⟩
    · have := byte same.1 (by omega) (by omega)
      omega
    · have := byte same.1 (by omega) (by omega)
      omega
    · have low := byte same.1 (by omega) (by omega)
      obtain ⟨high, rest⟩ := ih (m / 128) (by omega) same.2
      exact ⟨by omega, rest⟩

theorem fieldBytes_append_inj {v w : Option Bytes} {s t : Bytes}
    (same : fieldBytes v ++ s = fieldBytes w ++ t) : v = w ∧ s = t := by
  cases v <;> cases w <;> simp only [fieldBytes, cons_append, nil_append, cons.injEq] at same
  · exact ⟨rfl, same.2⟩
  · exact absurd same.1 (by decide)
  · exact absurd same.1 (by decide)
  · rw [append_assoc, append_assoc] at same
    obtain ⟨length, rest⟩ := uvarint_append_inj same.2
    obtain ⟨rfl, rfl⟩ := append_inj rest length
    exact ⟨rfl, rfl⟩

theorem rowBytes_injective : Function.Injective rowBytes := by
  have nonempty (v : Option Bytes) : fieldBytes v ≠ [] := by cases v <;> simp [fieldBytes]
  intro row
  induction row with
  | nil =>
    intro row' same
    cases row' with
    | nil => rfl
    | cons w row' => exact absurd (append_eq_nil_iff.mp same.symm).1 (nonempty w)
  | cons v row ih =>
    intro row' same
    cases row' with
    | nil => exact absurd (append_eq_nil_iff.mp same).1 (nonempty v)
    | cons w row' =>
      obtain ⟨rfl, rest⟩ := fieldBytes_append_inj same
      rw [ih rest]

/-! ## The order of the rows -/

instance : RightCommutative RowHasher.add :=
  ⟨fun r _ _ => congrArg (RowHasher.mk · (r.cnt + 1 + 1)) (add_right_comm r.acc _ _)⟩

/-- The number that hexadecimal digits show. -/
def hexVal (digits : List Char) : ℕ :=
  digits.foldl (fun n c => 16 * n + (c.toNat - if c.isDigit then 48 else 87)) 0

theorem hexVal_toDigits (n : ℕ) : hexVal (Nat.toDigits 16 n) = n := by
  induction n using Nat.strong_induction_on with
  | _ n ih =>
    rcases Nat.lt_or_ge n 16 with low | high
    · rw [Nat.toDigits_of_lt_base low]
      interval_cases n <;> rfl
    · have concat (digits : List Char) (d : ℕ) (lt : d < 16) :
          hexVal (digits ++ [d.digitChar]) = 16 * hexVal digits + d := by
        rw [hexVal, foldl_concat, hexVal]
        interval_cases d <;> rfl
      rw [Nat.toDigits_of_base_le (by decide) high, concat _ _ (Nat.mod_lt n (by decide)),
        ih (n / 16) (by omega)]
      omega

theorem digest_eq_iff {r r' : RowHasher} : r.digest = r'.digest ↔ r.acc = r'.acc := by
  have padded (n : ℕ) : hexVal ((Nat.toDigits 16 n).leftpad 16 '0') = n := by
    have zeros (k : ℕ) : hexVal (replicate k '0') = 0 := by
      induction k with
      | zero => rfl
      | succ k ih =>
        rw [hexVal, replicate_succ', foldl_concat, ← hexVal, ih]
        rfl
    rw [leftpad, hexVal, foldl_append, ← hexVal, zeros, ← hexVal, hexVal_toDigits]
  refine ⟨fun same => UInt64.toNat_inj.mp ?_, fun same => by rw [RowHasher.digest, same]; rfl⟩
  have shown := congrArg hexVal (append_cancel_left (String.ofList_injective same))
  rwa [padded, padded] at shown

theorem foldl_add_acc (rows : List Added) (r : RowHasher) :
    (rows.foldl (fun r a => r.add a.row) r).acc.toNat =
      (r.acc.toNat + (rows.map fun a => (fnv1a (rowBytes a.row)).toNat).sum) % 2 ^ 64 := by
  induction rows generalizing r with
  | nil => exact (Nat.mod_eq_of_lt r.acc.toNat_lt).symm
  | cons a rows ih =>
    rw [foldl_cons, ih, RowHasher.add, UInt64.toNat_add, map_cons, sum_cons, Nat.mod_add_mod,
      Nat.add_assoc]

/-- The digest is one of the rows in any order, through either entry point: it shows the sum,
modulo `2 ^ 64`, of the hashes of their bytes. And the bytes a row is hashed as tell it from every
other row. -/
theorem digest_multiset :
    (∀ rows rows' : List Added, (rows.map Added.row).Perm (rows'.map Added.row) →
      (hashRows rows).digest = (hashRows rows').digest) ∧
    (∀ rows : List Added, (hashRows rows).acc.toNat =
      (rows.map fun a => (fnv1a (rowBytes a.row)).toNat).sum % 2 ^ 64) ∧
    (∀ r r' : RowHasher, r.digest = r'.digest ↔ r.acc = r'.acc) ∧
    Function.Injective rowBytes := by
  refine ⟨fun rows rows' perm => ?_, fun rows => ?_, fun _ _ => digest_eq_iff, rowBytes_injective⟩
  · have hashed (rows : List Added) : hashRows rows = (rows.map Added.row).foldl RowHasher.add {} :=
      foldl_map.symm
    rw [hashed, hashed, perm.foldl_eq]
  · rw [hashRows, foldl_add_acc]
    exact congrArg (· % 2 ^ 64) (Nat.zero_add _)

/-- Two rows of a dump, and the same rows as bytes the other way around. -/
theorem swappedRows_digest :
    (hashRows [.strings [[97], [98]] [false], .strings [[]] [false]]).digest =
        (hashRows [.bytes [some []], .bytes [some [97], none]]).digest ∧
      (hashRows [.bytes [none], .bytes [none]]).acc.toNat = 2 * (fnv1a [0]).toNat % 2 ^ 64 ∧
      rowBytes [none] ≠ rowBytes [some []] :=
  ⟨digest_multiset.1 _ _ (by decide), digest_multiset.2.1 _,
    fun same => nomatch digest_multiset.2.2.2 same⟩

end Dbtrail.Consistency
