import Mathlib

/-! # Numbers of two words

The value of a high and a low word, and what doubling, subtraction with borrow and
shifts of the two words do to it. The bits under a mask, and those of two words put
together.
-/

namespace CollectedSources.Machine

/-- The value of two words. -/
def wide (h l : BitVec 32) : ℕ := h.toNat * 2 ^ 32 + l.toNat

variable {h l h' l' : BitVec 32}

theorem wide_eq_zero : wide h l = 0 ↔ h ||| l = 0#32 := by
  rw [BitVec.or_eq_zero_iff, BitVec.toNat_eq, BitVec.toNat_eq]
  unfold wide
  simp

theorem toInt_neg_iff (w : BitVec 32) : w.toInt < 0 ↔ 2 ^ 31 ≤ w.toNat := by
  have := w.isLt
  rw [BitVec.toInt_eq_toNat_cond]
  split <;> omega

theorem toInt_eq_toNat {w : BitVec 32} (hw : w.toNat < 2 ^ 31) : w.toInt = w.toNat := by
  rw [BitVec.toInt_eq_toNat_cond, if_pos (by omega)]

theorem toNat_shiftRight (w : BitVec 32) (n : ℕ) : (w >>> n).toNat = w.toNat / 2 ^ n := by
  rw [BitVec.toNat_ushiftRight, Nat.shiftRight_eq_div_pow]

theorem toNat_shiftLeft (w : BitVec 32) (n : ℕ) : (w <<< n).toNat = w.toNat * 2 ^ n % 2 ^ 32 := by
  rw [BitVec.toNat_shiftLeft, Nat.shiftLeft_eq]

theorem wide_double (hh : h.toNat < 2 ^ 31) :
    wide (h + h + (l >>> 31)) (l + l) = 2 * wide h l := by
  have := l.isLt
  unfold wide
  simp only [BitVec.toNat_add, toNat_shiftRight]
  omega

/-- The high word of a difference, with the borrow of the low words. -/
def subHigh (h l h' l' : BitVec 32) : BitVec 32 :=
  if l < l' then h - h' - 1#32 else h - h'

theorem subHigh_neg_iff (hh : h.toNat < 2 ^ 31) (hh' : h'.toNat < 2 ^ 31) :
    (subHigh h l h' l').toInt < 0 ↔ wide h l < wide h' l' := by
  have := l.isLt
  have := l'.isLt
  rw [toInt_neg_iff]
  unfold subHigh wide
  simp only [BitVec.lt_def]
  split
  · simp only [BitVec.toNat_sub, BitVec.toNat_ofNat]
    omega
  · simp only [BitVec.toNat_sub]
    omega

theorem wide_sub (hle : wide h' l' ≤ wide h l) :
    wide (subHigh h l h' l') (l - l') = wide h l - wide h' l' := by
  have := l.isLt
  have := l'.isLt
  have := h.isLt
  have := h'.isLt
  unfold subHigh
  unfold wide at hle ⊢
  simp only [BitVec.lt_def]
  split
  · simp only [BitVec.toNat_sub, BitVec.toNat_ofNat]
    omega
  · simp only [BitVec.toNat_sub]
    omega

theorem mul_two_pow_or {a b n : ℕ} (hb : b < 2 ^ n) : a * 2 ^ n ||| b = a * 2 ^ n + b := by
  rw [Nat.mul_comm, Nat.two_pow_add_eq_or_of_lt hb]

theorem two_pow_sub_mul {n w : ℕ} (hn : n ≤ w) : 2 ^ (w - n) * 2 ^ n = 2 ^ w := by
  rw [← pow_add, Nat.sub_add_cancel hn]

theorem log2_mul_two_pow_add {a b n : ℕ} (ha : a ≠ 0) (hb : b < 2 ^ n) :
    (a * 2 ^ n + b).log2 = a.log2 + n := by
  have hpos := Nat.two_pow_pos n
  have hne : a * 2 ^ n + b ≠ 0 := by
    have := Nat.mul_pos (Nat.pos_of_ne_zero ha) hpos
    omega
  have hle : 2 ^ a.log2 * 2 ^ n ≤ a * 2 ^ n := Nat.mul_le_mul_right _ (Nat.log2_self_le ha)
  have hlt : (a + 1) * 2 ^ n ≤ 2 ^ (a.log2 + 1) * 2 ^ n :=
    Nat.mul_le_mul_right _ Nat.lt_log2_self
  rw [Nat.log2_eq_iff hne]
  constructor
  · rw [pow_add]
    omega
  · rw [show a.log2 + n + 1 = a.log2 + 1 + n by omega, pow_add]
    rw [Nat.add_mul] at hlt
    omega

theorem wide_shiftLeft {n : ℕ} (hn : n ≤ 32) (hlt : wide h l * 2 ^ n < 2 ^ 64) :
    wide ((h <<< n) ||| (l >>> (32 - n))) (l <<< n) = wide h l * 2 ^ n := by
  have hpow := two_pow_sub_mul hn
  have hpos : 0 < 2 ^ n := Nat.two_pow_pos n
  have hhigh : h.toNat * 2 ^ n < 2 ^ 32 := by
    unfold wide at hlt
    by_contra hge
    have : 2 ^ 32 * 2 ^ 32 ≤ h.toNat * 2 ^ n * 2 ^ 32 := Nat.mul_le_mul_right _ (by omega)
    have : h.toNat * 2 ^ n * 2 ^ 32 ≤ (h.toNat * 2 ^ 32 + l.toNat) * 2 ^ n := by
      rw [Nat.mul_right_comm]
      exact Nat.mul_le_mul_right _ (Nat.le_add_right _ _)
    omega
  have hcarry : l.toNat / 2 ^ (32 - n) = l.toNat * 2 ^ n / 2 ^ 32 := by
    rw [← hpow, Nat.mul_div_mul_right _ _ hpos]
  have hlow : l.toNat / 2 ^ (32 - n) < 2 ^ n := by
    rw [Nat.div_lt_iff_lt_mul (Nat.two_pow_pos _), Nat.mul_comm, hpow]
    exact l.isLt
  unfold wide
  rw [BitVec.toNat_or, toNat_shiftLeft, toNat_shiftLeft, toNat_shiftRight,
    Nat.mod_eq_of_lt hhigh, mul_two_pow_or hlow, hcarry, Nat.add_mul, Nat.add_mul,
    Nat.mul_right_comm, Nat.add_assoc,
    Nat.mul_comm (l.toNat * 2 ^ n / 2 ^ 32), Nat.div_add_mod]

theorem wide_shiftLeft_low {n : ℕ} (hn : 32 ≤ n) (hlt : l.toNat * 2 ^ n < 2 ^ 64) :
    wide (l <<< (n - 32)) 0#32 = l.toNat * 2 ^ n := by
  have hpow := two_pow_sub_mul hn
  have hhigh : l.toNat * 2 ^ (n - 32) < 2 ^ 32 := by
    rw [← hpow, ← Nat.mul_assoc] at hlt
    omega
  unfold wide
  rw [toNat_shiftLeft, Nat.mod_eq_of_lt hhigh, Nat.mul_assoc, hpow]
  simp

theorem wide_shiftRight {n : ℕ} (hn : n ≤ 32) :
    wide (h >>> n) ((l >>> n) ||| (h <<< (32 - n))) = wide h l / 2 ^ n := by
  have hpow := two_pow_sub_mul hn
  have hpos : 0 < 2 ^ n := Nat.two_pow_pos n
  have hcarry : h.toNat * 2 ^ (32 - n) % 2 ^ 32 = h.toNat % 2 ^ n * 2 ^ (32 - n) := by
    rw [← hpow, Nat.mul_comm (2 ^ (32 - n)), Nat.mul_mod_mul_right]
  have hlow : l.toNat / 2 ^ n < 2 ^ (32 - n) := by
    rw [Nat.div_lt_iff_lt_mul hpos, hpow]
    exact l.isLt
  have hdiv : wide h l / 2 ^ n = h.toNat * 2 ^ (32 - n) + l.toNat / 2 ^ n := by
    unfold wide
    rw [← hpow, ← Nat.mul_assoc, Nat.add_comm, Nat.add_mul_div_right _ _ hpos, Nat.add_comm]
  have hsplit : h.toNat / 2 ^ n * 2 ^ 32 + h.toNat % 2 ^ n * 2 ^ (32 - n) =
      h.toNat * 2 ^ (32 - n) := by
    rw [← hpow, Nat.mul_comm (2 ^ (32 - n)), ← Nat.mul_assoc, ← Nat.add_mul,
      Nat.mul_comm _ (2 ^ n), Nat.div_add_mod]
  rw [hdiv]
  unfold wide
  rw [BitVec.toNat_or, toNat_shiftLeft, toNat_shiftRight, toNat_shiftRight, hcarry, Nat.lor_comm,
    mul_two_pow_or hlow, ← Nat.add_assoc, hsplit]

theorem wide_shiftRight_high {n : ℕ} (hn : 32 ≤ n) :
    wide 0#32 (h >>> (n - 32)) = wide h l / 2 ^ n := by
  have hhigh : wide h l / 2 ^ 32 = h.toNat := by
    have := l.isLt
    unfold wide
    omega
  rw [← two_pow_sub_mul hn, Nat.mul_comm, ← Nat.div_div_eq_div_mul, hhigh]
  unfold wide
  rw [toNat_shiftRight]
  simp

section Masks

variable {w i : BitVec 32} {n : ℕ}

theorem toNat_and_mask (hi : i.toNat = 2 ^ n - 1) : (w &&& i).toNat = w.toNat % 2 ^ n := by
  rw [BitVec.toNat_and, hi, Nat.and_two_pow_sub_one_eq_mod]

theorem toNat_and_not_mask (hi : i.toNat = 2 ^ n - 1) :
    (w &&& ~~~i).toNat = w.toNat / 2 ^ n * 2 ^ n := by
  apply Nat.eq_of_testBit_eq
  intro j
  have hmask : i.getLsbD j = decide (j < n) := by
    rw [BitVec.getLsbD, hi, Nat.testBit_two_pow_sub_one]
  have hbit : w.toNat.testBit j = w.getLsbD j := rfl
  rw [Nat.mul_comm, Nat.testBit_two_pow_mul]
  change (w &&& ~~~i).getLsbD j = _
  rw [BitVec.getLsbD_and, BitVec.getLsbD_not, hmask, Nat.testBit_div_two_pow]
  by_cases hj : j < n
  · simp [hj]
  · have hsub : j - n + n = j := by omega
    by_cases hlt : j < 32
    · simp [hj, hlt, hsub, Nat.le_of_not_lt hj, hbit]
    · simp [BitVec.getLsbD_of_ge w j (by omega), hlt, hsub, hbit]

end Masks

section Merging

variable {n : ℕ} {x y m : BitVec n}

/-- The bits of a word under a mask, put in the place of those of another word. -/
def merge (x y m : BitVec n) : BitVec n := (x &&& ~~~ m) ||| (y &&& m)

theorem getElem_merge {i : ℕ} (hi : i < n) : (merge x y m)[i] = if m[i] then y[i] else x[i] := by
  simp only [merge, BitVec.getElem_and, BitVec.getElem_or, BitVec.getElem_not]
  cases m[i] <;> simp

theorem merge_and_mask : merge x y m &&& m = y &&& m := by
  ext i hi
  rw [BitVec.getElem_and, BitVec.getElem_and, getElem_merge]
  cases m[i] <;> simp

theorem merge_and_not_mask : merge x y m &&& ~~~ m = x &&& ~~~ m := by
  ext i hi
  rw [BitVec.getElem_and, BitVec.getElem_and, BitVec.getElem_not, getElem_merge]
  cases m[i] <;> simp

theorem merge_self : merge x x m = x := by
  ext i hi
  rw [getElem_merge, ite_self]

end Merging

theorem sshiftRight_eq {w : BitVec 32} (hw : w.toNat < 2 ^ 31) (n : ℕ) :
    w.sshiftRight n = w >>> n := by
  apply BitVec.sshiftRight_eq_of_msb_false
  rw [BitVec.msb_eq_false_iff_two_mul_lt]
  omega

end CollectedSources.Machine
