import CollectedSources.Machine.Binary64
import Mathlib

/-! # Rounding of double precision numbers

The pattern whose magnitude is nearest to a number, on a tie the even one. The
pattern of infinity stands for the magnitude that follows the largest finite one,
so that it takes part in the rounding as any other. Products are rounded so.
-/

namespace CollectedSources.Machine.Binary64

/-- The pattern of infinity. -/
def infinity : ℕ := 0x7ff * 2 ^ 52

/-- `a` is the pattern nearest to `v`, and even if another is as near. -/
structure IsNearest (v : ℚ) (a : ℕ) : Prop where
  le : a ≤ infinity
  nearest : ∀ b ≤ infinity, b ≠ a →
    |v - mag a| < |v - mag b| ∨ |v - mag a| = |v - mag b| ∧ a % 2 = 0

/-- The nearest natural number to `p / d`, on a tie the even one. -/
def roundDiv (p d : ℕ) : ℕ :=
  if 2 * (p % d) < d ∨ 2 * (p % d) = d ∧ p / d % 2 = 0 then p / d else p / d + 1

/-- The pattern for `p / 2 ^ k`. -/
def roundMag (p k : ℕ) : ℕ :=
  let e := p.log2 - (k + 52)
  min (2 ^ 52 * e + roundDiv p (2 ^ (k + e))) infinity

/-- A pattern with a sign. -/
def signed (s : Bool) (a : ℕ) : BitVec 64 := BitVec.ofNat 64 (a + if s then 2 ^ 63 else 0)

/-- The product of two finite numbers. -/
def mul (x y : BitVec 64) : BitVec 64 :=
  signed (x.msb ^^ y.msb) (roundMag (mag (bits x) * mag (bits y)) 1074)

section Nearest

variable {v : ℚ} {a b : ℕ}

theorem cast_mag_le (h : a ≤ b) : (mag a : ℚ) ≤ mag b := by
  exact_mod_cast mag_strictMono.monotone h

theorem cast_mag_lt (h : a < b) : (mag a : ℚ) < mag b := by
  exact_mod_cast mag_strictMono h

theorem isNearest_mag (ha : a ≤ infinity) : IsNearest (mag a) a := by
  refine ⟨ha, fun b _ hne => .inl ?_⟩
  rw [sub_self, abs_zero, abs_pos, sub_ne_zero]
  exact_mod_cast fun h => hne (mag_strictMono.injective h).symm

theorem IsNearest.eq_of_eq (h : IsNearest v a) (hb : b ≤ infinity) (hv : v = mag b) : a = b := by
  by_contra hne
  have hzero : |v - mag b| = 0 := by rw [hv, sub_self, abs_zero]
  have hnonneg := abs_nonneg (v - mag a)
  rcases h.nearest b hb (Ne.symm hne) with hlt | ⟨heq, -⟩
  · linarith
  · rw [hzero, abs_eq_zero, sub_eq_zero, hv] at heq
    exact hne (mag_strictMono.injective (by exact_mod_cast heq)).symm

/-- A number that is rounded down to `a`. -/
theorem isNearest_of_le (ha : a ≤ infinity) (hle : mag a ≤ v)
    (hmid : 2 * v < mag a + mag (a + 1) ∨ 2 * v = mag a + mag (a + 1) ∧ a % 2 = 0) :
    IsNearest v a := by
  refine ⟨ha, fun b _ hne => ?_⟩
  rw [abs_of_nonneg (by linarith)]
  rcases Nat.lt_or_gt_of_ne hne with hlt | hgt
  · have := cast_mag_lt hlt
    rw [abs_of_nonneg (by linarith)]
    left
    linarith
  · have hnext : (mag (a + 1) : ℚ) ≤ mag b := cast_mag_le hgt
    have habs := neg_le_abs (v - mag b)
    rcases hmid with hmid | ⟨hmid, heven⟩
    · left
      linarith
    · rcases lt_or_ge (v - mag a) |v - mag b| with h | h
      · exact .inl h
      · exact .inr ⟨by linarith, heven⟩

/-- A number that is rounded up to `a + 1`. -/
theorem isNearest_of_ge (ha : a + 1 ≤ infinity) (hle : v ≤ mag (a + 1))
    (hmid : mag a + mag (a + 1) < 2 * v ∨
      mag a + mag (a + 1) = 2 * v ∧ (a + 1) % 2 = 0) : IsNearest v (a + 1) := by
  refine ⟨ha, fun b _ hne => ?_⟩
  rw [abs_of_nonpos (by linarith)]
  rcases Nat.lt_or_gt_of_ne hne with hlt | hgt
  · have hprev : (mag b : ℚ) ≤ mag a := cast_mag_le (Nat.le_of_lt_succ hlt)
    have habs := le_abs_self (v - mag b)
    rcases hmid with hmid | ⟨hmid, heven⟩
    · left
      linarith
    · rcases lt_or_ge (-(v - mag (a + 1))) |v - mag b| with h | h
      · exact .inl h
      · exact .inr ⟨by linarith, heven⟩
  · have := cast_mag_lt hgt
    rw [abs_of_nonpos (by linarith)]
    left
    linarith

theorem isNearest_infinity (h : mag infinity ≤ v) : IsNearest v infinity := by
  refine ⟨le_rfl, fun b hb hne => .inl ?_⟩
  have := cast_mag_lt (Nat.lt_of_le_of_ne hb hne)
  rw [abs_of_nonneg (by linarith), abs_of_nonneg (by linarith)]
  linarith

theorem isNearest_zero (h : 0 ≤ v) (hlt : 2 * v < 1) : IsNearest v 0 := by
  apply isNearest_of_le (Nat.zero_le _)
  · simpa [mag] using h
  · left
    simpa [mag] using hlt

theorem IsNearest.eq_zero {v : ℚ} {a : ℕ} (h : IsNearest v a) (hv : 0 ≤ v) (hlt : 2 * v < 1) :
    a = 0 := by
  by_contra hne
  have hone : (mag 1 : ℚ) ≤ mag a := cast_mag_le (Nat.pos_of_ne_zero hne)
  have hone' : (mag 1 : ℚ) = 1 := by norm_num [mag]
  have hzero : (mag 0 : ℚ) = 0 := by norm_num [mag]
  have habs := neg_le_abs (v - mag a)
  have hnear := h.nearest 0 (Nat.zero_le _) (Ne.symm hne)
  rw [hzero, sub_zero, abs_of_nonneg hv] at hnear
  rcases hnear with hnear | ⟨hnear, -⟩ <;> linarith

end Nearest

section Rounding

variable {p k : ℕ}

theorem mag_pattern {e m : ℕ} (hm : e = 0 ∨ 2 ^ 52 ≤ m) (hle : m ≤ 2 ^ 53) :
    mag (2 ^ 52 * e + m) = m * 2 ^ e := by
  rcases Nat.lt_or_ge m (2 ^ 52) with hlt | hge
  · obtain rfl : e = 0 := hm.resolve_right (by omega)
    rw [Nat.mul_zero, Nat.zero_add, mag_of_lt hlt, pow_zero, Nat.mul_one]
  · exact mag_normal hge hle

theorem quotient_bounds (p k : ℕ) :
    (p.log2 - (k + 52) = 0 ∨ 2 ^ 52 ≤ p / 2 ^ (k + (p.log2 - (k + 52)))) ∧
      p / 2 ^ (k + (p.log2 - (k + 52))) < 2 ^ 53 := by
  constructor
  · rcases Nat.eq_zero_or_pos (p.log2 - (k + 52)) with he | he
    · exact .inl he
    · right
      have hne : p ≠ 0 := by
        rintro rfl
        simp at he
      rw [Nat.le_div_iff_mul_le (Nat.two_pow_pos _), ← pow_add,
        show 52 + (k + (p.log2 - (k + 52))) = p.log2 by omega]
      exact Nat.log2_self_le hne
  · rw [Nat.div_lt_iff_lt_mul (Nat.two_pow_pos _), ← pow_add]
    exact Nat.lt_log2_self.trans_le (Nat.pow_le_pow_right (by norm_num) (by omega))

theorem isNearest_between {v : ℚ} {f : ℕ} {r d : ℕ} (hle : mag f ≤ v) (hlt : v < mag (f + 1))
    (hdown : 2 * r < d → 2 * v < mag f + mag (f + 1))
    (hup : d < 2 * r → mag f + mag (f + 1) < 2 * v)
    (htie : 2 * r = d → 2 * v = mag f + mag (f + 1)) :
    IsNearest v (min (if 2 * r < d ∨ 2 * r = d ∧ f % 2 = 0 then f else f + 1) infinity) := by
  split_ifs with hround
  · rcases Nat.le_total f infinity with hfin | hinf
    · rw [Nat.min_eq_left hfin]
      apply isNearest_of_le hfin hle
      rcases hround with hr | ⟨hr, heven⟩
      · exact .inl (hdown hr)
      · exact .inr ⟨htie hr, heven⟩
    · rw [Nat.min_eq_right hinf]
      exact isNearest_infinity ((cast_mag_le hinf).trans hle)
  · rcases Nat.lt_or_ge f infinity with hfin | hinf
    · rw [Nat.min_eq_left hfin]
      apply isNearest_of_ge hfin hlt.le
      rcases Nat.lt_trichotomy (2 * r) d with hr | hr | hr
      · exact absurd (.inl hr) hround
      · exact .inr ⟨(htie hr).symm, by omega⟩
      · exact .inl (hup hr)
    · rw [Nat.min_eq_right (Nat.le_succ_of_le hinf)]
      exact isNearest_infinity ((cast_mag_le hinf).trans hle)

theorem isNearest_roundMag (p k : ℕ) : IsNearest (p / 2 ^ k) (roundMag p k) := by
  obtain ⟨hm, hlt⟩ := quotient_bounds p k
  unfold roundMag roundDiv
  dsimp only
  generalize p.log2 - (k + 52) = e at hm hlt ⊢
  have hsplit := Nat.div_add_mod p (2 ^ (k + e))
  have hmod := Nat.mod_lt p (Nat.two_pow_pos (k + e))
  generalize p / 2 ^ (k + e) = q at hm hlt hsplit ⊢
  generalize p % 2 ^ (k + e) = r at hsplit hmod ⊢
  have hfloor : (mag (2 ^ 52 * e + q) : ℚ) = q * 2 ^ e := by
    exact_mod_cast mag_pattern hm hlt.le
  have hceil : (mag (2 ^ 52 * e + q + 1) : ℚ) = q * 2 ^ e + 2 ^ e := by
    have := mag_pattern (hm.imp_right fun h => Nat.le_succ_of_le h) hlt
    rw [Nat.succ_mul] at this
    exact_mod_cast this
  -- in units of `2 ^ k` the number lies between the two patterns by the remainder
  have hk : (0 : ℚ) < 2 ^ k := by positivity
  have hv : (p / 2 ^ k : ℚ) = q * 2 ^ e + r / 2 ^ k := by
    rw [← hsplit, pow_add]
    push_cast
    field_simp
  have hpow : (2 ^ e : ℚ) = (2 ^ (k + e) : ℕ) / 2 ^ k := by
    push_cast
    rw [pow_add]
    field_simp
  have hfrac {a b : ℕ} (h : a < b) : (a / 2 ^ k : ℚ) < b / 2 ^ k :=
    div_lt_div_of_pos_right (by exact_mod_cast h) hk
  have htwo : 2 * (r / 2 ^ k : ℚ) = (2 * r : ℕ) / 2 ^ k := by
    push_cast
    ring
  have hnonneg : (0 : ℚ) ≤ r / 2 ^ k := by positivity
  have hround := @isNearest_between (p / 2 ^ k) (2 ^ 52 * e + q) r (2 ^ (k + e))
    (by rw [hv, hfloor]; linarith)
    (by rw [hv, hceil]; linarith [hfrac hmod])
    (fun h => by rw [hv, hfloor, hceil]; linarith [hfrac h])
    (fun h => by rw [hv, hfloor, hceil]; linarith [hfrac h])
    (fun h => by rw [hv, hfloor, hceil]; rw [h] at htwo; linarith)
  have heven : (2 ^ 52 * e + q) % 2 = q % 2 := by omega
  rw [heven] at hround
  split_ifs at hround ⊢ <;> exact hround

theorem roundMag_eq_zero {n : ℕ} (hp : 2 * p < 2 ^ n) (hn : n ≤ k) : roundMag p k = 0 := by
  apply (isNearest_roundMag p k).eq_zero (by positivity)
  rw [← mul_div_assoc, div_lt_one (by positivity)]
  exact_mod_cast hp.trans_le (Nat.pow_le_pow_right (by norm_num) hn)

end Rounding

section Products

variable {a : ℕ} {x y : BitVec 64}

theorem toNat_signed (s : Bool) (ha : a < 2 ^ 63) :
    (signed s a).toNat = a + if s then 2 ^ 63 else 0 := by
  unfold signed
  rw [BitVec.toNat_ofNat, Nat.mod_eq_of_lt]
  split <;> omega

theorem msb_signed (s : Bool) (ha : a < 2 ^ 63) : (signed s a).msb = s := by
  rw [BitVec.msb_eq_decide, toNat_signed s ha]
  cases s with
  | false => simpa using ha
  | true => simp

theorem bits_signed (s : Bool) (ha : a < 2 ^ 63) : bits (signed s a) = a := by
  unfold bits
  rw [toNat_signed s ha]
  split <;> omega

theorem roundMag_lt (p k : ℕ) : roundMag p k < 2 ^ 63 :=
  (isNearest_roundMag p k).le.trans_lt (by norm_num [infinity])

theorem msb_mul (x y : BitVec 64) : (mul x y).msb = (x.msb ^^ y.msb) :=
  msb_signed _ (roundMag_lt _ _)

theorem bits_mul (x y : BitVec 64) :
    bits (mul x y) = roundMag (mag (bits x) * mag (bits y)) 1074 :=
  bits_signed _ (roundMag_lt _ _)

theorem isNearest_mul (x y : BitVec 64) :
    IsNearest (|toRat x * toRat y| * 2 ^ 1074) (bits (mul x y)) := by
  have hpow : (2 ^ 1074 : ℚ) ≠ 0 := by positivity
  have hprod : |toRat x * toRat y| * 2 ^ 1074 =
      (mag (bits x) * mag (bits y) : ℕ) / 2 ^ 1074 := by
    rw [abs_mul, abs_toRat, abs_toRat, Nat.cast_mul]
    generalize (2 ^ 1074 : ℚ) = c at hpow ⊢
    field_simp
  rw [hprod, bits_mul]
  exact isNearest_roundMag _ _

end Products

end CollectedSources.Machine.Binary64
