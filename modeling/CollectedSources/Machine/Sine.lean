import Mathlib

/-! # Sines of the natural numbers

The cosine and the sine of a natural number of radians, scaled to integers: one
radian is rotated by itself, and each rotation is rounded down. The error grows
by a constant with each rotation.
-/

namespace CollectedSources.Sine

open Complex Finset

def scale : ℤ := 2 ^ 60

/-- The cosine and the sine of one radian. -/
def radian : ℤ × ℤ := (622926147424044489, 970149993887725314)

def rotate (z w : ℤ × ℤ) : ℤ × ℤ :=
  ((z.1 * w.1 - z.2 * w.2) / scale, (z.2 * w.1 + z.1 * w.2) / scale)

/-- The cosine and the sine of a number of radians. -/
def angle : ℕ → ℤ × ℤ
  | 0 => (scale, 0)
  | k + 1 => rotate (angle k) radian

def toComplex (z : ℤ × ℤ) : ℂ := z.1 + z.2 * I

@[simp] theorem toComplex_re (z : ℤ × ℤ) : (toComplex z).re = z.1 := by simp [toComplex]

@[simp] theorem toComplex_im (z : ℤ × ℤ) : (toComplex z).im = z.2 := by simp [toComplex]

theorem scale_pos : (0 : ℝ) < scale := by norm_num [scale]

theorem sum_I_pow (j : ℕ) :
    ∑ m ∈ range (2 * j), I ^ m / (m.factorial : ℂ) =
      ((∑ i ∈ range j, (-1) ^ i / ((2 * i).factorial : ℝ) : ℝ) : ℂ) +
        ((∑ i ∈ range j, (-1) ^ i / ((2 * i + 1).factorial : ℝ) : ℝ) : ℂ) * I := by
  induction j with
  | zero => simp
  | succ j ih =>
    rw [Nat.mul_succ, sum_range_succ, sum_range_succ, ih, sum_range_succ, sum_range_succ]
    have heven : I ^ (2 * j) = (-1) ^ j := by rw [pow_mul, I_sq]
    have hodd : I ^ (2 * j + 1) = (-1) ^ j * I := by rw [pow_succ, heven]
    rw [heven, hodd]
    push_cast
    ring

theorem norm_exp_I_sub : ‖scale * exp I - toComplex radian‖ ≤ 2 := by
  have hsum := exp_bound (x := I) (by simp) (n := 2 * 12) (by norm_num)
  rw [sum_I_pow] at hsum
  set c : ℝ := ∑ i ∈ range 12, (-1) ^ i / ((2 * i).factorial : ℝ) with hc
  set s : ℝ := ∑ i ∈ range 12, (-1) ^ i / ((2 * i + 1).factorial : ℝ) with hs
  have hre : |scale * c - radian.1| ≤ 9 / 10 := by
    rw [hc, abs_le]
    norm_num [sum_range_succ, Nat.factorial, scale, radian]
  have him : |scale * s - radian.2| ≤ 9 / 10 := by
    rw [hs, abs_le]
    norm_num [sum_range_succ, Nat.factorial, scale, radian]
  have hround : ‖scale * ((c : ℂ) + s * I) - toComplex radian‖ ≤ 18 / 10 := by
    have h := norm_le_abs_re_add_abs_im (scale * ((c : ℂ) + s * I) - toComplex radian)
    simp only [sub_re, mul_re, intCast_re, add_re, ofReal_re, intCast_im, zero_mul, sub_zero,
      toComplex_re, ofReal_im, I_re, mul_zero, I_im, mul_one, sub_self, add_zero, sub_im, mul_im,
      add_im, zero_add, toComplex_im] at h
    exact h.trans ((add_le_add hre him).trans (by norm_num))
  have htail : ‖scale * (exp I - ((c : ℂ) + s * I))‖ ≤ 1 / 10 := by
    rw [norm_mul, Complex.norm_intCast, abs_of_pos scale_pos]
    have hbound : ‖exp I - ((c : ℂ) + s * I)‖ ≤ 1 / 10 / scale := by
      refine hsum.trans ?_
      norm_num [Nat.factorial, scale]
    calc (scale : ℝ) * ‖exp I - ((c : ℂ) + s * I)‖ ≤ scale * (1 / 10 / scale) := by
          exact mul_le_mul_of_nonneg_left hbound scale_pos.le
      _ = 1 / 10 := by
          field_simp [scale_pos.ne']
  calc ‖scale * exp I - toComplex radian‖
      = ‖scale * (exp I - ((c : ℂ) + s * I)) +
          (scale * ((c : ℂ) + s * I) - toComplex radian)‖ := by congr 1; ring
    _ ≤ 1 / 10 + 18 / 10 := (norm_add_le _ _).trans (add_le_add htail hround)
    _ ≤ 2 := by norm_num

theorem abs_div_sub_ediv (a : ℤ) : |(a : ℝ) / scale - ((a / scale : ℤ) : ℝ)| ≤ 1 := by
  have hpos : (0 : ℤ) < scale := by norm_num [scale]
  have hdiv : (a : ℝ) = scale * ((a / scale : ℤ) : ℝ) + ((a % scale : ℤ) : ℝ) := by
    exact_mod_cast (Int.mul_ediv_add_emod a scale).symm
  have hquot : (a : ℝ) / scale - ((a / scale : ℤ) : ℝ) = ((a % scale : ℤ) : ℝ) / scale := by
    have hne := scale_pos.ne'
    field_simp
    linarith
  have hnonneg : (0 : ℝ) ≤ ((a % scale : ℤ) : ℝ) := by exact_mod_cast Int.emod_nonneg a hpos.ne'
  have hlt : ((a % scale : ℤ) : ℝ) ≤ scale := by exact_mod_cast (Int.emod_lt_of_pos a hpos).le
  rw [hquot, abs_of_nonneg (div_nonneg hnonneg scale_pos.le)]
  exact div_le_one_of_le₀ hlt scale_pos.le

theorem norm_mul_div_sub_rotate (z w : ℤ × ℤ) :
    ‖toComplex z * toComplex w / scale - toComplex (rotate z w)‖ ≤ 2 := by
  have hre := abs_div_sub_ediv (z.1 * w.1 - z.2 * w.2)
  have him := abs_div_sub_ediv (z.2 * w.1 + z.1 * w.2)
  have h := norm_le_abs_re_add_abs_im (toComplex z * toComplex w / scale - toComplex (rotate z w))
  have hcast : ∀ u : ℂ, u / scale = u / ((scale : ℝ) : ℂ) := fun u => by push_cast; rfl
  rw [hcast, sub_re, sub_im, div_ofReal_re, div_ofReal_im, mul_re, mul_im] at h
  simp only [toComplex_re, toComplex_im, rotate] at h
  push_cast at hre him h
  rw [add_comm ((z.1 : ℝ) * w.2)] at h
  refine h.trans ((add_le_add hre him).trans ?_)
  norm_num

theorem norm_exp_sub_angle {k : ℕ} (h : (6 * k : ℝ) ≤ scale) :
    ‖scale * exp (k * I) - toComplex (angle k)‖ ≤ 6 * k := by
  induction k with
  | zero => simp [angle, toComplex]
  | succ k ih =>
    push_cast at h ⊢
    have ih := ih (by linarith)
    set z := toComplex (angle k)
    have hunit : ‖exp I‖ = 1 := by simpa using norm_exp_ofReal_mul_I 1
    have hcirc : ‖exp (k * I)‖ = 1 := by simpa using norm_exp_ofReal_mul_I k
    have hz : ‖z‖ ≤ 2 * scale := by
      have hsub : ‖z‖ ≤ ‖scale * exp (k * I)‖ + ‖scale * exp (k * I) - z‖ := by
        simpa using norm_sub_le (scale * exp (k * I)) (scale * exp (k * I) - z)
      rw [norm_mul, hcirc, Complex.norm_intCast, abs_of_pos scale_pos] at hsub
      linarith
    have hsplit : scale * exp ((k + 1) * I) - toComplex (angle (k + 1)) =
        (scale * exp (k * I) - z) * exp I + z / scale * (scale * exp I - toComplex radian) +
          (z * toComplex radian / scale - toComplex (rotate (angle k) radian)) := by
      have hne : (scale : ℂ) ≠ 0 := by exact_mod_cast scale_pos.ne'
      rw [add_mul, one_mul, exp_add, angle]
      field_simp
      ring
    have hfirst : ‖(scale * exp (k * I) - z) * exp I‖ ≤ 6 * k := by
      rw [norm_mul, hunit, mul_one]
      exact ih
    have hsecond : ‖z / scale * (scale * exp I - toComplex radian)‖ ≤ 4 := by
      rw [norm_mul, norm_div, Complex.norm_intCast, abs_of_pos scale_pos]
      have hquot : ‖z‖ / scale ≤ 2 := by rwa [div_le_iff₀ scale_pos]
      calc ‖z‖ / scale * ‖scale * exp I - toComplex radian‖ ≤ 2 * 2 := by
            apply mul_le_mul hquot norm_exp_I_sub (norm_nonneg _) (by norm_num)
        _ = 4 := by norm_num
    have hthird := norm_mul_div_sub_rotate (angle k) radian
    rw [hsplit]
    calc _ ≤ (6 * k + 4 : ℝ) + 2 := by
          apply (norm_add_le _ _).trans
          apply add_le_add _ hthird
          exact (norm_add_le _ _).trans (add_le_add hfirst hsecond)
      _ = 6 * (k + 1) := by ring

theorem abs_sin_sub_angle {k : ℕ} (h : (6 * k : ℝ) ≤ scale) :
    |scale * Real.sin k - (angle k).2| ≤ 6 * k := by
  have him := abs_im_le_norm (scale * exp (k * I) - toComplex (angle k))
  have hsin : (exp (k * I)).im = Real.sin k := by simpa using exp_ofReal_mul_I_im k
  rw [sub_im, toComplex_im, mul_im, hsin] at him
  simp only [intCast_re, intCast_im, zero_mul, add_zero] at him
  exact him.trans (norm_exp_sub_angle h)

theorem floor_mul_abs_sin {k m v : ℕ} (h : (6 * k : ℝ) ≤ scale)
    (hlo : v * scale ≤ m * (|(angle k).2| - 6 * k))
    (hhi : m * (|(angle k).2| + 6 * k) < (v + 1) * scale) : ⌊m * |Real.sin k|⌋₊ = v := by
  have hclose := (abs_abs_sub_abs_le_abs_sub _ _).trans (abs_sin_sub_angle h)
  rw [abs_mul, abs_of_pos scale_pos, abs_le] at hclose
  have hlo' : (v * scale : ℝ) ≤ m * (|((angle k).2 : ℝ)| - 6 * k) := by exact_mod_cast hlo
  have hhi' : (m * (|((angle k).2 : ℝ)| + 6 * k) : ℝ) < (v + 1) * scale := by exact_mod_cast hhi
  have hm : (0 : ℝ) ≤ m := Nat.cast_nonneg m
  rw [Nat.floor_eq_iff (by positivity)]
  constructor
  · apply le_of_mul_le_mul_right _ scale_pos
    nlinarith [mul_le_mul_of_nonneg_left hclose.1 hm]
  · apply lt_of_mul_lt_mul_right _ scale_pos.le
    nlinarith [mul_le_mul_of_nonneg_left hclose.2 hm]

end CollectedSources.Sine
