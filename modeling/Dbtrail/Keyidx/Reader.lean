import Dbtrail.Lib.Text

/-!
# Opening a key index

A key index is a header, records of one width, a directory with an entry for each block of 4096
records, and a checksum. `readIndex` takes every size from the record count in the header, in 64
bits, and compares the file's with it before it makes room for the directory. But the size of a
large count wraps, and a file of a few bytes can pass (`readIndex_safe_iff`).
-/

namespace Dbtrail.Keyidx

def int64 (z : ℤ) : ℤ := z.bmod (2 ^ 64)

theorem int64_eq {z : ℤ} (fits : -2 ^ 63 ≤ z ∧ z < 2 ^ 63) : int64 z = z :=
  Int.bmod_eq_of_le (by omega) (by omega)

/-- `n` records after a header of `head` bytes, each a key of `key` bytes and a row number. -/
structure Layout : Type where
  n : ℤ
  key : ℤ
  head : ℤ

namespace Layout

section

variable (l : Layout) (wrap : ℤ → ℤ) (i : ℕ)

/-! ## Sizes and offsets, every sum and product through `wrap` -/

def nblocks : ℤ := (wrap (wrap (l.n + 4096) - 1)).tdiv 4096

def skipLen : ℤ := wrap (l.nblocks wrap * (l.key + 4))

def skipOff : ℤ := wrap (l.head + wrap (l.n * (l.key + 8)))

def expectedSize : ℤ := wrap (wrap (l.skipOff wrap + l.skipLen wrap) + 4)

/-- The room for the header, the directory and the checksum. -/
def tailLen : ℤ := wrap (wrap (l.head + l.skipLen wrap) + 4)

def blockLen : ℤ := wrap (min (wrap (l.n - wrap (i * 4096))) 4096 * (l.key + 8))

def blockOff : ℤ := wrap (l.head + wrap (wrap (i * 4096) * (l.key + 8)))

end

/-- Nothing wraps, and the directory and the blocks lie inside the file. -/
structure InFile (l : Layout) (size : ℤ) : Prop where
  exactly : l.nblocks int64 = l.nblocks id ∧ l.skipLen int64 = l.skipLen id ∧
    l.skipOff int64 = l.skipOff id ∧ l.tailLen int64 = l.tailLen id
  skip : l.head ≤ l.skipOff id ∧ 0 ≤ l.skipLen id ∧ l.skipOff id + l.skipLen id + 4 = size
  block : ∀ i : ℕ, i < l.nblocks id →
    l.blockLen int64 i = l.blockLen id i ∧ l.blockOff int64 i = l.blockOff id i ∧
      l.head ≤ l.blockOff id i ∧ 0 ≤ l.blockLen id i ∧
      l.blockOff id i + l.blockLen id i ≤ l.skipOff id

/-- The bounds that a header's types put on what is read from it. -/
structure Read (l : Layout) : Prop where
  n : 0 ≤ l.n ∧ l.n < 2 ^ 63
  key : 4 ≤ l.key ∧ l.key ≤ 2040
  head : 0 ≤ l.head ∧ l.head < 2 ^ 32

variable {l : Layout}

/-- The number of blocks comes out right, or negative. -/
theorem Read.nblocks (read : l.Read) :
    l.nblocks id = (l.n + 4095) / 4096 ∧
      (l.nblocks int64 = l.nblocks id ∨
        2 ^ 63 ≤ l.n + 4095 ∧ -2 ^ 51 ≤ l.nblocks int64 ∧ l.nblocks int64 < -2 ^ 50) := by
  have tdiv (z : ℤ) : z.tdiv 4096 = if 0 ≤ z then z / 4096 else -(-z / 4096) := by
    split_ifs with sign
    · exact Int.tdiv_eq_ediv_of_nonneg sign
    · rw [← Int.tdiv_eq_ediv_of_nonneg (by omega), Int.neg_tdiv, neg_neg]
  have := read.n
  simp only [Layout.nblocks, tdiv, id, int64, Int.bmod_def]
  omega

/-- A directory that fits in memory keeps every size of the file below `2 ^ 62`. -/
theorem Read.inFile (read : l.Read) (fits : l.tailLen id ≤ 2 ^ 48) :
    l.InFile (l.expectedSize int64) := by
  obtain ⟨blocks, wraps⟩ := read.nblocks
  obtain ⟨⟨low, -⟩, ⟨key, -⟩, head, -⟩ := read
  simp only [tailLen, skipLen, id] at fits
  have some : 0 ≤ l.nblocks id ∧ l.n ≤ 4096 * l.nblocks id := by omega
  have skip : 8 * l.nblocks id ≤ l.nblocks id * (l.key + 4) := by nlinarith
  have rows : l.n * (l.key + 8) ≤ 8192 * (l.nblocks id * (l.key + 4)) := by nlinarith
  have first : 0 ≤ l.n * (l.key + 8) := Int.mul_nonneg low (by omega)
  have same : l.nblocks int64 = l.nblocks id := by omega
  refine ⟨⟨same, ?_⟩, ?_, fun i inside => ?_⟩
  · simp (disch := omega) only [skipLen, skipOff, tailLen, same, int64_eq, id, and_self]
  · simp (disch := omega) only [expectedSize, skipLen, skipOff, same, int64_eq, id, and_true]
    omega
  · -- the block ends with the last record at most
    have last : 0 ≤ min (l.n - i * 4096) 4096 ∧ min (l.n - i * 4096) 4096 ≤ l.n - i * 4096 := by
      omega
    have len : 0 ≤ min (l.n - i * 4096) 4096 * (l.key + 8) := Int.mul_nonneg last.1 (by omega)
    have off : 0 ≤ (i : ℤ) * 4096 * (l.key + 8) := Int.mul_nonneg (by omega) (by omega)
    have ends : (i : ℤ) * 4096 * (l.key + 8) + min (l.n - i * 4096) 4096 * (l.key + 8) ≤
        l.n * (l.key + 8) := by
      nlinarith
    simp (disch := omega) only [blockLen, blockOff, skipOff, int64_eq, id, true_and]
    omega

theorem Read.room (read : l.Read) :
    (l.tailLen int64 < 0 ∨ 2 ^ 48 < l.tailLen int64) ↔ 2 ^ 48 < l.tailLen id := by
  obtain ⟨blocks, wraps⟩ := read.nblocks
  obtain ⟨⟨low, high⟩, ⟨key, width⟩, head, short⟩ := read
  have few : 0 ≤ l.nblocks id ∧ l.nblocks id ≤ 2 ^ 51 := by omega
  have most : l.nblocks id * (l.key + 4) ≤ 2 ^ 51 * 2044 := by nlinarith
  have least : 8 * l.nblocks id ≤ l.nblocks id * (l.key + 4) := by nlinarith
  simp only [tailLen, skipLen, id]
  rcases wraps with same | ⟨large, bounded, negative⟩
  · rw [same]
    simp (disch := omega) only [int64_eq]
    omega
  · have : l.nblocks int64 * (l.key + 4) < -2 ^ 50 := by nlinarith
    have : -2 ^ 51 * 2044 ≤ l.nblocks int64 * (l.key + 4) := by nlinarith
    simp (disch := omega) only [int64_eq]
    omega

/-- The size is wrapped once. -/
theorem expectedSize_int64 (l : Layout) :
    l.expectedSize int64 = int64 (l.skipOff id + l.nblocks int64 * (l.key + 4) + 4) := by
  simp only [expectedSize, skipOff, skipLen, int64, id, Int.bmod_add_bmod, Int.add_bmod_bmod]

end Layout

/-! ## Opening -/

inductive KeyType : Type where
  | integer
  | bigint
  | ubigint

def keyBytes : KeyType → ℕ
  | .integer => 4
  | _ => 8

/-- A decoded header: the types of up to 255 key columns, and their names, each with a length of
two bytes. -/
structure Header : Type where
  types : List KeyType
  names : List Bytes
  records : UInt64
  baseRows : UInt64
  ncols : types.length < 256 ∧ names.length = types.length
  short : ∀ name ∈ names, name.length < 2 ^ 16

def headerSize (names : List Bytes) : ℕ :=
  56 + names.length + (names.map fun name => 2 + name.length).sum

def Header.layout (h : Header) : Layout :=
  ⟨int64 h.records.toNat, (h.types.map keyBytes).sum, headerSize h.names⟩

inductive Opening : Type where
  | corrupt
  | panics
  | ranges
  deriving DecidableEq

/-- The arithmetic of `readIndex`, up to the `make` of the room, which panics for a length that is
negative or past the address space. -/
def readIndex (h : Header) (size : ℕ) : Opening :=
  if h.types = [] ∨ h.layout.n < 0 ∨ h.records ≠ h.baseRows then .corrupt
  else if [] ∈ h.names ∨ size < headerSize h.names then .corrupt
  else if size ≠ h.layout.expectedSize int64 then .corrupt
  else if h.layout.tailLen int64 < 0 ∨ 2 ^ 48 < h.layout.tailLen int64 then .panics
  else .ranges

/-- The header has what is asked of its fields, and the size of the file is, in 64 bits, the one
that its records and their directory take. -/
structure Header.Passes (h : Header) (size : ℕ) : Prop where
  types : h.types ≠ []
  records : h.records.toNat < 2 ^ 63 ∧ h.records = h.baseRows
  names : [] ∉ h.names ∧ headerSize h.names ≤ size
  size : (size : ℤ) =
    int64 (h.layout.skipOff id + h.layout.nblocks int64 * (h.layout.key + 4) + 4)

theorem Header.layout_n_neg_iff (h : Header) : h.layout.n < 0 ↔ 2 ^ 63 ≤ h.records.toNat := by
  have := h.records.toNat_lt
  dsimp only [layout]
  rw [int64, Int.bmod_def]
  omega

theorem Header.read {h : Header} (some : h.types ≠ []) (low : 0 ≤ h.layout.n) : h.layout.Read := by
  have width (types : List KeyType) : 4 * types.length ≤ (types.map keyBytes).sum ∧
      (types.map keyBytes).sum ≤ 8 * types.length := by
    induction types with
    | nil => exact ⟨le_rfl, le_rfl⟩
    | cons t types ih => cases t <;> simp [keyBytes] <;> omega
  have sum := List.sum_le_card_nsmul (h.names.map fun name => 2 + name.length) (2 + 2 ^ 16)
    fun n member => by
      obtain ⟨name, named, rfl⟩ := List.mem_map.mp member
      have := h.short name named
      omega
  rw [List.length_map, smul_eq_mul] at sum
  have := width h.types
  have := h.ncols
  have := List.length_pos_iff.mpr some
  refine ⟨⟨low, ?_⟩, ?_, ?_⟩ <;> dsimp only [layout, headerSize]
  · rw [int64, Int.bmod_def]
    omega
  · omega
  · omega

/-- The file is rejected, or its ranges lie inside it, unless it has in 64 bits the size its header
implies and a directory larger than any memory. -/
theorem readIndex_safe_iff (h : Header) (size : ℕ) :
    (readIndex h size = .corrupt ∨ readIndex h size = .ranges ∧ h.layout.InFile size) ↔
      (h.Passes size → h.layout.tailLen id ≤ 2 ^ 48) := by
  unfold readIndex
  rw [h.layout.expectedSize_int64]
  split_ifs with fields names sized room
  · refine iff_of_true (.inl rfl) fun passes => ?_
    rcases fields with empty | large | differ
    · exact absurd empty passes.types
    · exact absurd passes.records.1 (not_lt.mpr (h.layout_n_neg_iff.mp large))
    · exact absurd passes.records.2 differ
  · refine iff_of_true (.inl rfl) fun passes => ?_
    rcases names with unnamed | short
    · exact absurd unnamed passes.names.1
    · exact absurd passes.names.2 (not_le.mpr short)
  · exact iff_of_true (.inl rfl) fun passes => absurd passes.size sized
  all_goals
    rw [not_or, not_or, not_not] at fields
    rw [not_or, not_lt] at names
    rw [not_not] at sized
    obtain ⟨some, low, same⟩ := fields
    have read := Header.read some (not_lt.mp low)
    rw [read.room] at room
  · rw [h.layout_n_neg_iff, not_le] at low
    refine iff_of_false (by simp) fun fits => absurd (fits ⟨some, ⟨low, same⟩, names, sized⟩) ?_
    exact not_le.mpr room
  · have fits := not_lt.mp room
    refine iff_of_true (.inr ⟨rfl, ?_⟩) fun _ => fits
    rw [sized, ← h.layout.expectedSize_int64]
    exact read.inFile fits

/-- A file of 64 bytes: one column, of 4 bytes and a name of one. -/
def wrappedHeader : Header :=
  ⟨[.integer], [[105]], 7684892567729284318, 7684892567729284318, by decide, by decide⟩

theorem wrappedHeader_panics :
    readIndex wrappedHeader 64 = .panics ∧ 2 ^ 48 < wrappedHeader.layout.tailLen id := by
  decide

end Dbtrail.Keyidx
