import Mathlib.Data.BitVec

/-! # Wires of a port

Bits of a port are set and cleared one at a time; devices react to the edges.
A shift register that is clocked once for each bit of a word, the highest
first, ends up with the word.
-/

namespace CollectedSources.Wires

variable {w : ℕ}

def setBit (v : BitVec w) (i : ℕ) : BitVec w := v ||| BitVec.twoPow w i

def clearBit (v : BitVec w) (i : ℕ) : BitVec w := v &&& ~~~ BitVec.twoPow w i

theorem getLsbD_setBit (v : BitVec w) (i j : ℕ) :
    (setBit v i).getLsbD j = (v.getLsbD j || (decide (i < w) && decide (i = j))) := by
  rw [setBit, BitVec.getLsbD_or, BitVec.getLsbD_twoPow]

theorem getLsbD_clearBit (v : BitVec w) (i j : ℕ) :
    (clearBit v i).getLsbD j = (v.getLsbD j && !decide (i = j)) := by
  rw [clearBit, BitVec.getLsbD_and, BitVec.getLsbD_not, BitVec.getLsbD_twoPow]
  by_cases hj : j < w
  · by_cases hij : i = j
    · subst hij
      simp [hj]
    · simp [hj, hij]
  · simp [BitVec.getLsbD_of_ge v j (by omega)]

/-- The bit goes from 0 to 1. -/
def rising (old new : BitVec w) (i : ℕ) : Bool := !old.getLsbD i && new.getLsbD i

/-- The bit goes from 1 to 0. -/
def falling (old new : BitVec w) (i : ℕ) : Bool := old.getLsbD i && !new.getLsbD i

theorem rising_clearBit (v : BitVec w) (i j : ℕ) : rising v (clearBit v i) j = false := by
  rw [rising, getLsbD_clearBit]
  cases v.getLsbD j <;> rfl

theorem rising_setBit_of_ne (v : BitVec w) {i j : ℕ} (h : i ≠ j) :
    rising v (setBit v i) j = false := by
  simp [rising, getLsbD_setBit, h]

theorem rising_setBit (v : BitVec w) {i : ℕ} (hi : i < w) :
    rising v (setBit v i) i = !v.getLsbD i := by
  simp [rising, getLsbD_setBit, hi]

theorem and_twoPow_ne_zero_iff (v : BitVec w) {i : ℕ} (hi : i < w) :
    v &&& BitVec.twoPow w i ≠ 0 ↔ v.getLsbD i = true := by
  have hne : BitVec.twoPow w i ≠ 0 := by
    intro h
    have hbit := BitVec.getLsbD_twoPow (w := w) i i
    rw [h] at hbit
    simp [hi] at hbit
  rw [BitVec.and_twoPow]
  by_cases hv : v.getLsbD i = true
  · rw [if_pos hv]
    exact iff_of_true hne hv
  · rw [if_neg hv]
    exact iff_of_false (not_not.mpr rfl) hv

/-- The register after the lowest `k` bits of a word, from the highest on. -/
def shiftIn (val : BitVec w) : ℕ → BitVec w → BitVec w
  | 0, reg => reg
  | k + 1, reg => shiftIn val k (reg.shiftConcat (val.getLsbD k))

theorem shiftIn_of_agrees (val : BitVec w) {k : ℕ} {reg : BitVec w}
    (h : ∀ i, i + k < w → reg.getLsbD i = val.getLsbD (i + k)) : shiftIn val k reg = val := by
  induction k generalizing reg with
  | zero => exact BitVec.eq_of_getLsbD_eq fun i hi => h i hi
  | succ k ih =>
    refine ih fun i hi => ?_
    rw [BitVec.getLsbD_shiftConcat, decide_eq_true (by omega), Bool.true_and]
    cases i with
    | zero => simp
    | succ i =>
      rw [if_neg (by omega), Nat.add_sub_cancel, h i (by omega), Nat.add_right_comm, Nat.add_assoc]

theorem shiftIn_width (val reg : BitVec w) : shiftIn val w reg = val :=
  shiftIn_of_agrees val fun i hi => by omega

end CollectedSources.Wires
