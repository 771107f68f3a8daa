import Mathlib.Data.List.Basic
import Mathlib.Logic.Function.Basic

/-! # Heaps of blocks

Blocks are allocated at new addresses above the null address. A block stays as
it is until it is freed, and only an allocated block can be freed.
-/

namespace CollectedSources

/-- Blocks by their addresses, all of them below the next one. -/
structure Heap (α : Type*) where
  blocks : ℕ → Option α
  next : ℕ
  next_pos : 0 < next
  used : ∀ {p : ℕ} {a : α}, blocks p = some a → 0 < p ∧ p < next

namespace Heap

variable {α : Type*} {h h' : Heap α} {p : ℕ} {a : α}

def empty : Heap α := ⟨fun _ => none, 1, Nat.one_pos, fun hp => by cases hp⟩

/-- A new block with its contents. -/
def alloc (h : Heap α) (a : α) : Heap α where
  blocks := Function.update h.blocks h.next (some a)
  next := h.next + 1
  next_pos := Nat.succ_pos _
  used {p b} hp := by
    by_cases hne : p = h.next
    · exact ⟨hne ▸ h.next_pos, hne ▸ Nat.lt_succ_self _⟩
    · rw [Function.update_of_ne hne] at hp
      exact ⟨(h.used hp).1, Nat.lt_succ_of_lt (h.used hp).2⟩

/-- The heap without a block. -/
def erase (h : Heap α) (p : ℕ) : Heap α where
  blocks := Function.update h.blocks p none
  next := h.next
  next_pos := h.next_pos
  used {q b} hq := by
    by_cases hne : q = p
    · rw [hne, Function.update_self] at hq
      cases hq
    · rw [Function.update_of_ne hne] at hq
      exact h.used hq

def free (h : Heap α) (p : ℕ) : Option (Heap α) :=
  if (h.blocks p).isSome then some (h.erase p) else none

/-- New contents for a block. -/
def write (h : Heap α) (p : ℕ) (a : α) : Option (Heap α) :=
  if hp : (h.blocks p).isSome then
    some
      { blocks := Function.update h.blocks p (some a)
        next := h.next
        next_pos := h.next_pos
        used := fun {q b} hq => by
          by_cases hne : q = p
          · obtain ⟨c, hc⟩ := Option.isSome_iff_exists.mp hp
            exact h.used (hne ▸ hc)
          · rw [Function.update_of_ne hne] at hq
            exact h.used hq }
  else none

@[simp] theorem blocks_null (h : Heap α) : h.blocks 0 = none := by
  rcases hb : h.blocks 0 with _ | a
  · rfl
  · exact absurd (h.used hb).1 (Nat.lt_irrefl 0)

@[simp] theorem blocks_alloc_next (h : Heap α) (a : α) : (h.alloc a).blocks h.next = some a :=
  Function.update_self ..

theorem blocks_alloc_of_lt (hp : p < h.next) (a : α) : (h.alloc a).blocks p = h.blocks p :=
  Function.update_of_ne (Nat.ne_of_lt hp) ..

theorem blocks_erase_of_ne {q : ℕ} (hq : q ≠ p) : (h.erase p).blocks q = h.blocks q :=
  Function.update_of_ne hq ..

theorem blocks_of_write (hp : h.write p a = some h') :
    (∀ {q : ℕ}, q ≠ p → h'.blocks q = h.blocks q) ∧ h'.blocks p = some a ∧ h'.next = h.next := by
  unfold write at hp
  split_ifs at hp
  obtain rfl := Option.some.inj hp
  exact ⟨fun hq => Function.update_of_ne hq .., Function.update_self .., rfl⟩

@[simp] theorem blocks_erase_self (h : Heap α) (p : ℕ) : (h.erase p).blocks p = none :=
  Function.update_self ..

theorem eq_erase_of_free (hp : h.free p = some h') : h' = h.erase p := by
  rw [free] at hp
  split_ifs at hp
  exact (Option.some.inj hp).symm

theorem free_of_blocks (hp : h.blocks p = some a) : h.free p = some (h.erase p) := by
  rw [free, hp]
  rfl

end Heap

end CollectedSources
