import Mathlib

/-! # One's complement sums

Words are added with an end-around carry. A sum is known by its residue and by
whether it is zero, so that the order of the carries does not matter. The
complement of a sum makes the whole sum all ones.
-/

namespace CollectedSources.OnesComplement

section Residues

variable {m r S T : ℕ}

/-- The residue of a sum from 1 to `m`, and zero for the empty sum only. -/
def rep (m T : ℕ) : ℕ := if T = 0 then 0 else (T - 1) % m + 1

theorem rep_eq_zero_iff : rep m T = 0 ↔ T = 0 := by
  unfold rep
  split <;> simp [*]

theorem rep_le (hm : 0 < m) (T : ℕ) : rep m T ≤ m := by
  unfold rep
  split
  · exact Nat.zero_le m
  · exact Nat.mod_lt _ hm

theorem rep_modEq (m T : ℕ) : rep m T ≡ T [MOD m] := by
  unfold rep
  split
  · rename_i h
    rw [h]
  · have h := (Nat.mod_modEq (T - 1) m).add_right 1
    rwa [Nat.sub_add_cancel (by omega)] at h

theorem rep_eq_of_modEq (hm : r ≤ m) (h : r ≡ T [MOD m]) (h₀ : r = 0 ↔ T = 0) :
    r = rep m T := by
  unfold rep
  split
  · exact h₀.mpr ‹_›
  · have hr : 0 < r := by omega
    have h' : r - 1 ≡ T - 1 [MOD m] := by
      apply Nat.ModEq.add_right_cancel' 1
      rwa [Nat.sub_add_cancel hr, Nat.sub_add_cancel (by omega)]
    rw [Nat.ModEq, Nat.mod_eq_of_lt (by omega)] at h'
    omega

theorem rep_rep_add (hm : 0 < m) (S T : ℕ) : rep m (rep m S + T) = rep m (S + T) := by
  apply rep_eq_of_modEq (rep_le hm _)
  · exact (rep_modEq m _).trans ((rep_modEq m S).add_right T)
  · rw [rep_eq_zero_iff, Nat.add_eq_zero_iff, Nat.add_eq_zero_iff, rep_eq_zero_iff]

theorem rep_add_complement (hm : 0 < m) (T : ℕ) : rep m (T + (m - rep m T)) = m := by
  have hle := rep_le hm T
  symm
  apply rep_eq_of_modEq (Nat.le_refl m)
  · calc m = rep m T + (m - rep m T) := by omega
      _ ≡ T + (m - rep m T) [MOD m] := (rep_modEq m T).add_right _
  · have := rep_eq_zero_iff (m := m) (T := T)
    omega

theorem rep_carry (hm : 0 < m) (T : ℕ) : rep m (T % (m + 1) + T / (m + 1)) = rep m T := by
  have hT := Nat.mod_add_div T (m + 1)
  apply rep_eq_of_modEq (rep_le hm _)
  · calc rep m (T % (m + 1) + T / (m + 1))
      _ ≡ T % (m + 1) + T / (m + 1) [MOD m] := rep_modEq m _
      _ ≡ T % (m + 1) + T / (m + 1) + m * (T / (m + 1)) [MOD m] := by simp [Nat.ModEq]
      _ = T := by
        conv_rhs => rw [← hT]
        ring
  · rw [rep_eq_zero_iff, Nat.add_eq_zero_iff]
    constructor
    · rintro ⟨h, h'⟩
      rw [← hT, h, h', Nat.mul_zero]
    · rintro rfl
      simp

end Residues

section Words

variable {w : ℕ}

/-- Addition with an end-around carry. -/
def add (x y : BitVec w) : BitVec w :=
  BitVec.ofNat w ((x.toNat + y.toNat) % 2 ^ w + (x.toNat + y.toNat) / 2 ^ w)

def sum (xs : List (BitVec w)) : BitVec w := xs.foldl add 0#w

def checksum (xs : List (BitVec w)) : BitVec w := ~~~ sum xs

theorem toNat_add (hw : 0 < w) (x y : BitVec w) :
    (add x y).toNat = rep (2 ^ w - 1) (x.toNat + y.toNat) := by
  have hpow : 2 ≤ 2 ^ w := Nat.le_self_pow (by omega) 2
  have hx := x.isLt
  have hy := y.isLt
  have hm : 2 ^ w - 1 + 1 = 2 ^ w := by omega
  have hlt : (x.toNat + y.toNat) % 2 ^ w + (x.toNat + y.toNat) / 2 ^ w < 2 ^ w := by
    have hmod := Nat.mod_add_div (x.toNat + y.toNat) (2 ^ w)
    have hmlt := Nat.mod_lt (x.toNat + y.toNat) (show 0 < 2 ^ w by omega)
    have hdiv : (x.toNat + y.toNat) / 2 ^ w < 2 :=
      Nat.div_lt_of_lt_mul (by omega)
    interval_cases (x.toNat + y.toNat) / 2 ^ w <;> omega
  have hcarry := rep_carry (m := 2 ^ w - 1) (by omega) (x.toNat + y.toNat)
  rw [hm] at hcarry
  rw [← hcarry, add, BitVec.toNat_ofNat, Nat.mod_eq_of_lt hlt]
  exact rep_eq_of_modEq (by omega) rfl Iff.rfl

theorem toNat_foldl_add (hw : 0 < w) (x : BitVec w) (xs : List (BitVec w)) :
    (xs.foldl add x).toNat = rep (2 ^ w - 1) (x.toNat + (xs.map BitVec.toNat).sum) := by
  have hpow : 2 ≤ 2 ^ w := Nat.le_self_pow (by omega) 2
  induction xs generalizing x with
  | nil =>
    have hx := x.isLt
    exact rep_eq_of_modEq (by omega) rfl Iff.rfl
  | cons y xs ih =>
    rw [List.foldl_cons, ih, toNat_add hw, rep_rep_add (by omega), List.map_cons, List.sum_cons,
      Nat.add_assoc]

theorem toNat_sum (hw : 0 < w) (xs : List (BitVec w)) :
    (sum xs).toNat = rep (2 ^ w - 1) (xs.map BitVec.toNat).sum := by
  rw [sum, toNat_foldl_add hw, BitVec.toNat_zero, Nat.zero_add]

theorem sum_perm (hw : 0 < w) {xs ys : List (BitVec w)} (h : xs.Perm ys) : sum xs = sum ys := by
  apply BitVec.eq_of_toNat_eq
  rw [toNat_sum hw, toNat_sum hw, (h.map BitVec.toNat).sum_eq]

theorem sum_append (hw : 0 < w) (xs ys : List (BitVec w)) :
    sum (xs ++ ys) = add (sum xs) (sum ys) := by
  have hpow : 2 ≤ 2 ^ w := Nat.le_self_pow (by omega) 2
  have hm : 0 < 2 ^ w - 1 := by omega
  apply BitVec.eq_of_toNat_eq
  rw [toNat_add hw, toNat_sum hw, toNat_sum hw, toNat_sum hw, rep_rep_add hm, Nat.add_comm,
    rep_rep_add hm, Nat.add_comm, List.map_append, List.sum_append]

theorem checksum_append (hw : 0 < w) (xs ys : List (BitVec w)) :
    checksum (xs ++ ys) = ~~~ add (~~~ checksum xs) (~~~ checksum ys) := by
  simp only [checksum, sum_append hw, BitVec.not_not]

theorem checksum_verifies (hw : 0 < w) (xs ys : List (BitVec w)) :
    checksum (xs ++ checksum (xs ++ 0#w :: ys) :: ys) = 0#w := by
  have hpow : 2 ≤ 2 ^ w := Nat.le_self_pow (by omega) 2
  have hsum : (sum (xs ++ checksum (xs ++ 0#w :: ys) :: ys)).toNat = 2 ^ w - 1 := by
    have h := rep_add_complement (m := 2 ^ w - 1) (by omega)
      ((xs ++ 0#w :: ys).map BitVec.toNat).sum
    rw [toNat_sum hw]
    rw [← toNat_sum hw] at h
    conv_rhs => rw [← h]
    congr 1
    rw [checksum, List.map_append, List.sum_append, List.map_cons, List.sum_cons,
      BitVec.toNat_not, List.map_append, List.sum_append, List.map_cons, List.sum_cons,
      BitVec.toNat_zero]
    omega
  apply BitVec.eq_of_toNat_eq
  rw [checksum, BitVec.toNat_not, hsum, BitVec.toNat_zero, Nat.sub_self]

end Words

end CollectedSources.OnesComplement
