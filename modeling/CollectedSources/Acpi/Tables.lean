import Mathlib

/-! # ACPI tables in memory

A table begins with a signature and its length. The entries of an RSDT or XSDT
follow its header. Both programs that walk over them count the entries by an
unsigned subtraction, so a table shorter than its header has very many.
-/

namespace CollectedSources.Acpi

/-- The bytes at the physical addresses. -/
abbrev Memory := ℕ → UInt8

variable (memory : Memory)

/-- The number in some bytes, the lowest one first. -/
def number (address : ℕ) : ℕ → ℕ
  | 0 => 0
  | n + 1 => (memory address).toNat + 2 ^ 8 * number (address + 1) n

def signature (table : ℕ) : List UInt8 :=
  [memory table, memory (table + 1), memory (table + 2), memory (table + 3)]

def tableLength (table : ℕ) : ℕ := number memory (table + 4) 4

/-- The size of `struct acpi_table_header`. -/
abbrev headerSize : ℕ := 36

/-- The number of entries of a size, divided as a `size_t` and stored as an `unsigned`. -/
def entryCount (size length : ℕ) : ℕ := (length + 2 ^ 64 - headerSize) % 2 ^ 64 / size % 2 ^ 32

def tableEntry (size table index : ℕ) : ℕ :=
  number memory (table + headerSize + size * index) size

/-- An entry ends in the table. -/
def EntryInside (size table index : ℕ) : Prop :=
  headerSize + size * index + size ≤ tableLength memory table

theorem number_lt (address n : ℕ) : number memory address n < 2 ^ (8 * n) := by
  induction n generalizing address with
  | zero => simp [number]
  | succ n ih =>
    have hbyte : (memory address).toNat < 2 ^ 8 := (memory address).toNat_lt
    have hrest := ih (address + 1)
    rw [number, Nat.mul_succ, Nat.pow_add]
    omega

theorem tableLength_lt (table : ℕ) : tableLength memory table < 2 ^ 32 := number_lt memory _ 4

theorem entryCount_of_le {size length : ℕ} (h : headerSize ≤ length) (hlength : length < 2 ^ 32) :
    entryCount size length = (length - headerSize) / size := by
  have hsub : (length + 2 ^ 64 - headerSize) % 2 ^ 64 = length - headerSize := by omega
  have hlt : (length - headerSize) / size < 2 ^ 32 :=
    lt_of_le_of_lt (Nat.div_le_self _ _) (by omega)
  rw [entryCount, hsub, Nat.mod_eq_of_lt hlt]

theorem entryCount_pos_of_lt {size length : ℕ} (hsize : size = 4 ∨ size = 8)
    (h : length < headerSize) : 0 < entryCount size length := by
  unfold entryCount
  simp only [headerSize] at h ⊢
  rcases hsize with rfl | rfl <;> omega

/-- All entries are inside of a table exactly when its header is. -/
theorem entries_inside_iff {size table : ℕ} (hsize : size = 4 ∨ size = 8) :
    (∀ index < entryCount size (tableLength memory table), EntryInside memory size table index) ↔
      headerSize ≤ tableLength memory table := by
  constructor
  · intro h
    by_contra hshort
    have hlt : tableLength memory table < headerSize := not_le.mp hshort
    have hfirst := h 0 (entryCount_pos_of_lt hsize hlt)
    unfold EntryInside at hfirst
    omega
  · intro h index hindex
    rw [entryCount_of_le h (tableLength_lt memory table)] at hindex
    have hmul : size * (index + 1) ≤ tableLength memory table - headerSize :=
      (Nat.mul_le_mul_left size hindex).trans (Nat.mul_div_le _ _)
    unfold EntryInside
    rw [Nat.mul_succ] at hmul
    omega

end CollectedSources.Acpi
