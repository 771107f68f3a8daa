import CollectedSources.Gon.Floor
import CollectedSources.Machine.Rounding
import Mathlib

/-! # Scaling by powers of two in gon

`scalbn` adds to the exponent in the high word. A subnormal number is first
multiplied into the normal ones. A result below the normal numbers is put together
with a larger exponent and multiplied down, so that it is rounded once.
-/

namespace CollectedSources.Gon

open Machine Machine.Binary64

section Code

/-- `SET_MSDW`. -/
def setMsdw (x : BitVec 64) (y : BitVec 32) : BitVec 64 := dwToDbl y (lsdw x)

def copysign (arg2 arg1 : BitVec 64) : BitVec 64 :=
  setMsdw arg2 ((msdw arg2 &&& 0x7fffffff#32) ||| (msdw arg1 &&& 0x80000000#32))

def two54 : BitVec 64 := 0x4350000000000000#64

def twom54 : BitVec 64 := 0x3c90000000000000#64

/-- `1.0e+300`. -/
def huge : BitVec 64 := 0x7e37e43c8800759c#64

/-- `1.0e-300`. -/
def tiny : BitVec 64 := 0x01a56e1fc2f8f359#64

/-- `(hx & 0x7ff00000) >> 20`. -/
def exponent (hx : BitVec 32) : BitVec 32 := (hx &&& 0x7ff00000#32).sshiftRight 20

/-- `SET_MSDW(x, (hx & 0x800fffff) | (k << 20))`. -/
def setExponent (x : BitVec 64) (hx k : BitVec 32) : BitVec 64 :=
  setMsdw x ((hx &&& 0x800fffff#32) ||| (k <<< 20))

/-- `x + x`, of an infinity or a NaN. -/
def addSelf (x : BitVec 64) : Result := if bits x = infinity then .double x else .nan

/-- What follows the extraction of the exponent. The sum `k + n` wraps around, as the comment on
the second overflow expects. -/
def scale (x : BitVec 64) (hx k n : BitVec 32) : Result :=
  if k = 0x7ff#32 then addSelf x
  else
    let k := k + n
    if 0x7fe < k.toInt then .double (mul huge (copysign huge x))
    else if 0 < k.toInt then .double (setExponent x hx k)
    else if k.toInt ≤ -54 then
      if 50000 < n.toInt then .double (mul huge (copysign huge x))
      else .double (mul tiny (copysign tiny x))
    else .double (mul (setExponent x hx (k + 54#32)) twom54)

def scalbn (x : BitVec 64) (n : BitVec 32) : Result :=
  let hx := msdw x
  let lx := lsdw x
  if exponent hx = 0#32 then
    if lx ||| (hx &&& 0x7fffffff#32) = 0#32 then .double x
    else
      let x := mul x two54
      let hx := msdw x
      if n.toInt < -50000 then .double (mul tiny x)
      else scale x hx (exponent hx - 54#32) n
  else scale x hx (exponent hx) n

end Code

/-- The result for `x` times `2 ^ n`: a number is rounded to the nearest one and keeps its sign, the
infinities are left as they are. -/
def Scales (x : BitVec 64) (n : ℤ) : Result → Prop
  | .nan => infinity < bits x
  | .double z => if IsFinite x then
      z.msb = x.msb ∧ IsNearest (|toRat x * 2 ^ n| * 2 ^ 1074) (bits z)
    else bits x = infinity ∧ z = x

section Words

variable {x : BitVec 64} {k : BitVec 32}

theorem toNat_exponent (x : BitVec 64) : (exponent (msdw x)).toNat = bits x / 2 ^ 52 := by
  have hmask : (0x7fffffff#32).toNat = 2 ^ 31 - 1 := rfl
  have hlow : (0x000fffff#32).toNat = 2 ^ 20 - 1 := rfl
  have hsplit : (0x7ff00000#32 : BitVec 32) = 0x7fffffff#32 &&& ~~~0x000fffff#32 := by decide
  have hx := toNat_eq_wide x
  have hl := (lsdw x).isLt
  have hfield : (msdw x &&& 0x7ff00000#32).toNat = (msdw x).toNat % 2 ^ 31 / 2 ^ 20 * 2 ^ 20 := by
    rw [hsplit, ← BitVec.and_assoc, toNat_and_not_mask hlow, toNat_and_mask hmask]
  unfold exponent
  rw [sshiftRight_eq (by omega), toNat_shiftRight, hfield]
  unfold bits
  unfold wide at hx
  omega

theorem setExponent_spec (x : BitVec 64) (hk : k.toNat < 2 ^ 11) :
    (setExponent x (msdw x) k).msb = x.msb ∧
      bits (setExponent x (msdw x) k) = 2 ^ 52 * k.toNat + bits x % 2 ^ 52 := by
  have hmask : (0x000fffff#32).toNat = 2 ^ 20 - 1 := rfl
  have hsplit : (0x800fffff#32 : BitVec 32) = 0x000fffff#32 ||| 0x80000000#32 := by decide
  have hx := toNat_eq_wide x
  have hl := (lsdw x).isLt
  have hfraction : (msdw x &&& 0x000fffff#32).toNat = (msdw x).toNat % 2 ^ 20 :=
    toNat_and_mask hmask
  have hshift : (k <<< 20).toNat = k.toNat * 2 ^ 20 := by
    rw [toNat_shiftLeft, Nat.mod_eq_of_lt (by omega)]
  have hhigh : ((msdw x &&& 0x000fffff#32) ||| (k <<< 20)).toNat =
      k.toNat * 2 ^ 20 + (msdw x).toNat % 2 ^ 20 := by
    rw [BitVec.toNat_or, hfraction, hshift, Nat.lor_comm]
    exact mul_two_pow_or (Nat.mod_lt _ (by norm_num))
  have hwords : setExponent x (msdw x) k =
      dwToDbl (((msdw x &&& 0x000fffff#32) ||| (k <<< 20)) ||| signWord x.msb) (lsdw x) := by
    unfold setExponent setMsdw
    rw [hsplit, BitVec.and_or_distrib_left, signWord_msb, BitVec.or_assoc, BitVec.or_assoc,
      BitVec.or_comm (signWord _)]
  have hlt : ((msdw x &&& 0x000fffff#32) ||| (k <<< 20)).toNat < 2 ^ 31 := by omega
  rw [hwords, msb_dwToDbl hlt, bits_dwToDbl hlt]
  refine ⟨rfl, ?_⟩
  unfold wide bits
  unfold wide at hx
  omega

theorem copysign_eq (a x : BitVec 64) :
    copysign a x = dwToDbl ((msdw a &&& 0x7fffffff#32) ||| signWord x.msb) (lsdw a) := by
  unfold copysign setMsdw
  rw [signWord_msb]

theorem mul_huge (x : BitVec 64) : (mul huge (copysign huge x)).msb = x.msb ∧
    bits (mul huge (copysign huge x)) = infinity := by
  rw [copysign_eq]
  cases x.msb <;> decide +kernel

theorem mul_tiny (x : BitVec 64) : (mul tiny (copysign tiny x)).msb = x.msb ∧
    bits (mul tiny (copysign tiny x)) = 0 := by
  rw [copysign_eq]
  cases x.msb <;> decide +kernel

end Words

section Scaling

variable {x : BitVec 64} {k n : BitVec 32} {v : ℚ}

theorem toInt_add_cases (hk : -53 ≤ k.toInt) (hk' : k.toInt ≤ 0x7fe)
    (hn : k.toInt ≤ 0 → -50000 ≤ n.toInt) :
    (k + n).toInt = k.toInt + n.toInt ∨ (k + n).toInt ≤ -54 ∧ 50000 < n.toInt ∧
      0x7fe < k.toInt + n.toInt := by
  have hlow := BitVec.le_toInt n
  have hhigh := BitVec.toInt_lt (x := n)
  rw [BitVec.toInt_add, Int.bmod_eq_emod]
  split <;> omega

/-- The value of a fraction with an exponent, in units of the smallest number. -/
def value (m : ℕ) (s : ℤ) : ℚ := m * 2 ^ (s - 1)

theorem value_natCast (m j : ℕ) : value m (j + 1) = (m * 2 ^ j : ℕ) := by
  unfold value
  rw [add_sub_cancel_right, zpow_natCast]
  push_cast
  rfl

theorem mag_infinity : mag infinity = 2 ^ 2098 := by
  have : infinity = 2 ^ 52 * 2046 + 2 ^ 52 := by norm_num [infinity]
  rw [this, mag_normal le_rfl (by norm_num), ← pow_add]

theorem isNearest_overflow {m : ℕ} {s : ℤ} (hm : 2 ^ 52 ≤ m) (hs : 0x7fe < s) :
    IsNearest (value m s) infinity := by
  apply isNearest_infinity
  have hfraction : ((2 ^ 52 : ℕ) : ℚ) ≤ m := by exact_mod_cast hm
  have hpow : (2 : ℚ) ^ (2046 : ℤ) ≤ 2 ^ (s - 1) := zpow_le_zpow_right₀ (by norm_num) (by omega)
  have hsplit : ((2 ^ 2098 : ℕ) : ℚ) = ((2 ^ 52 : ℕ) : ℚ) * (2 : ℚ) ^ (2046 : ℤ) := by
    rw [zpow_ofNat, show 2098 = 52 + 2046 by rfl, pow_add, Nat.cast_mul, Nat.cast_pow 2 2046,
      Nat.cast_ofNat]
  rw [mag_infinity, hsplit]
  exact mul_le_mul hfraction hpow (by positivity) (by positivity)

theorem isNearest_underflow {m : ℕ} {s : ℤ} (hm : m < 2 ^ 53) (hs : s ≤ -54) :
    IsNearest (value m s) 0 := by
  have hfraction : (m : ℚ) < 2 ^ 53 := by exact_mod_cast hm
  have hpow : (2 : ℚ) ^ (s - 1) ≤ 2 ^ (-55 : ℤ) := zpow_le_zpow_right₀ (by norm_num) (by omega)
  have hpos : (0 : ℚ) < 2 ^ (s - 1) := by positivity
  unfold value
  apply isNearest_zero (by positivity)
  calc 2 * (m * 2 ^ (s - 1) : ℚ) ≤ 2 * (2 ^ 53 * 2 ^ (-55 : ℤ)) := by gcongr
    _ < 1 := by norm_num

theorem abs_toRat_two_pow {z : BitVec 64} {e : ℕ} (hz : bits z = 2 ^ 52 * e + 2 ^ 52) :
    |toRat z| = 2 ^ (e - 1022 : ℤ) := by
  rw [abs_toRat, hz, mag_normal le_rfl (by norm_num), div_eq_iff (by positivity),
    ← zpow_natCast (2 : ℚ) 1074, ← zpow_add₀ (by norm_num), Nat.cast_mul, Nat.cast_pow,
    Nat.cast_pow, Nat.cast_ofNat, ← zpow_natCast, ← zpow_natCast, ← zpow_add₀ (by norm_num)]
  congr 1
  push_cast
  ring

theorem isNearest_exact {m s : ℕ} {z : BitVec 64} (hm : m < 2 ^ 52) (hs : s + 1 < 0x7ff)
    (hz : bits z = 2 ^ 52 * (s + 1) + m) : IsNearest (value (2 ^ 52 + m) (s + 1)) (bits z) := by
  have hpattern : bits z = 2 ^ 52 * s + (2 ^ 52 + m) := by omega
  have hmag : mag (bits z) = (2 ^ 52 + m) * 2 ^ s := by
    rw [hpattern, mag_normal (by omega) (by omega)]
  rw [value_natCast, ← hmag]
  apply isNearest_mag
  unfold infinity
  omega

theorem isNearest_mul_twom54 {m s : ℕ} {y : BitVec 64} (hm : m < 2 ^ 52)
    (hy : bits y = 2 ^ 52 * (s + 1) + m) :
    IsNearest (value (2 ^ 52 + m) ((s + 1 : ℤ) - 54)) (bits (mul y twom54)) := by
  have hpattern : bits y = 2 ^ 52 * s + (2 ^ 52 + m) := by omega
  have hmag : mag (bits y) = (2 ^ 52 + m) * 2 ^ s := by
    rw [hpattern, mag_normal (by omega) (by omega)]
  have htwo : |toRat twom54| = 2 ^ (-54 : ℤ) := abs_toRat_two_pow (e := 968) (by decide)
  have hvalue : |toRat y * toRat twom54| * 2 ^ 1074 =
      value (2 ^ 52 + m) ((s + 1 : ℤ) - 54) := by
    have hpow : (2 ^ 1074 : ℚ) ≠ 0 := by positivity
    rw [abs_mul, abs_toRat y, hmag, htwo]
    unfold value
    rw [show (s + 1 : ℤ) - 54 - 1 = s + -54 by omega, zpow_add₀ (by norm_num), zpow_natCast]
    push_cast
    generalize (2 ^ 1074 : ℚ) = c at hpow ⊢
    field_simp
  rw [← hvalue]
  exact isNearest_mul _ _

theorem scale_spec (x : BitVec 64) (hk : -53 ≤ k.toInt) (hk' : k.toInt < 0x7ff)
    (hn : k.toInt ≤ 0 → -50000 ≤ n.toInt) :
    ∃ z, scale x (msdw x) k n = .double z ∧ z.msb = x.msb ∧
      IsNearest (value (2 ^ 52 + bits x % 2 ^ 52) (k.toInt + n.toInt)) (bits z) := by
  have hm : bits x % 2 ^ 52 < 2 ^ 52 := Nat.mod_lt _ (by norm_num)
  have hne : k ≠ 0x7ff#32 := by
    rintro rfl
    simp at hk'
  unfold scale
  rw [if_neg hne]
  dsimp only
  rcases toInt_add_cases hk (by omega) hn with hsum | ⟨hsum, hbig, hover⟩
  · rw [← hsum]
    generalize hs : k + n = s at hsum ⊢
    have hs' := toInt_neg_iff s
    have hlt := s.isLt
    split_ifs with h₁ h₂ h₃ h₄
    · exact ⟨_, rfl, (mul_huge x).1, (mul_huge x).2 ▸ isNearest_overflow (by omega) h₁⟩
    · have hnat := toInt_eq_toNat (w := s) (by omega)
      obtain ⟨hmsb, hbits⟩ := setExponent_spec x (k := s) (by omega)
      refine ⟨_, rfl, hmsb, ?_⟩
      obtain ⟨j, hj⟩ : ∃ j : ℕ, s.toNat = j + 1 := ⟨s.toNat - 1, by omega⟩
      rw [hj] at hbits
      rw [hnat, hj]
      exact_mod_cast isNearest_exact hm (by omega) hbits
    · omega
    · exact ⟨_, rfl, (mul_tiny x).1, (mul_tiny x).2 ▸ isNearest_underflow (by omega) h₃⟩
    · have hadd : (s + 54#32).toNat = (s.toInt + 54).toNat := by
        have hcond := BitVec.toInt_eq_toNat_cond s
        rw [BitVec.toNat_add, BitVec.toNat_ofNat]
        split at hcond <;> omega
      obtain ⟨j, hj⟩ : ∃ j : ℕ, s.toInt + 54 = j + 1 := ⟨(s.toInt + 53).toNat, by omega⟩
      obtain ⟨hmsb, hbits⟩ := setExponent_spec x (k := s + 54#32) (by omega)
      rw [hadd, hj] at hbits
      refine ⟨_, rfl, ?_, ?_⟩
      · have hpos : twom54.msb = false := by decide
        rw [msb_mul, hmsb, hpos, Bool.xor_false]
      · rw [show s.toInt = (j + 1 : ℤ) - 54 by omega]
        exact isNearest_mul_twom54 hm hbits
  · rw [if_neg (by omega), if_neg (by omega), if_pos hsum, if_pos hbig]
    exact ⟨_, rfl, (mul_huge x).1, (mul_huge x).2 ▸ isNearest_overflow (by omega) hover⟩

end Scaling

section Result

variable {x : BitVec 64} {n : BitVec 32}

theorem mul_two54 (hne : bits x ≠ 0) (hsub : bits x < 2 ^ 52) :
    (mul x two54).msb = x.msb ∧ 2 ^ 52 ≤ bits (mul x two54) ∧
      bits (mul x two54) < 55 * 2 ^ 52 ∧ mag (bits (mul x two54)) = bits x * 2 ^ 54 := by
  have hpos : two54.msb = false := by decide
  have htwo : |toRat two54| = 2 ^ (54 : ℤ) := abs_toRat_two_pow (e := 1076) (by decide)
  have hlog : (bits x).log2 < 52 := (Nat.log2_lt hne).mpr hsub
  have hlow := Nat.log2_self_le hne
  have hhigh := Nat.lt_log2_self (n := bits x)
  generalize (bits x).log2 = l at hlog hlow hhigh
  -- the fraction is shifted to its highest bit
  have hpow : 2 ^ l * 2 ^ (52 - l) = 2 ^ 52 := by rw [← pow_add, Nat.add_sub_cancel' hlog.le]
  have hge : 2 ^ 52 ≤ bits x * 2 ^ (52 - l) := hpow ▸ Nat.mul_le_mul_right _ hlow
  have hlt : bits x * 2 ^ (52 - l) < 2 ^ 53 := by
    rw [pow_succ 2 52, ← hpow, Nat.mul_right_comm, ← pow_succ]
    exact Nat.mul_lt_mul_of_pos_right hhigh (Nat.two_pow_pos _)
  have hpattern : mag (2 ^ 52 * (l + 2) + bits x * 2 ^ (52 - l)) = bits x * 2 ^ 54 := by
    rw [mag_normal hge hlt.le, Nat.mul_assoc, ← pow_add]
    congr 2
    omega
  have hexact : |toRat x * toRat two54| * 2 ^ 1074 = (bits x * 2 ^ 54 : ℕ) := by
    have hpow : (2 ^ 1074 : ℚ) ≠ 0 := by positivity
    rw [abs_mul, abs_toRat x, htwo, mag_of_lt hsub, Nat.cast_mul, Nat.cast_pow, Nat.cast_ofNat,
      zpow_ofNat]
    generalize (2 ^ 1074 : ℚ) = c at hpow ⊢
    field_simp
  have hbits : bits (mul x two54) = 2 ^ 52 * (l + 2) + bits x * 2 ^ (52 - l) := by
    apply (isNearest_mul x two54).eq_of_eq
    · unfold infinity
      omega
    · rw [hexact, hpattern]
  refine ⟨by rw [msb_mul, hpos, Bool.xor_false], by omega, by omega, by rw [hbits, hpattern]⟩

theorem abs_scaled (x : BitVec 64) (n : ℤ) :
    |toRat x * 2 ^ n| * 2 ^ 1074 = mag (bits x) * 2 ^ n := by
  have hpow : (2 ^ 1074 : ℚ) ≠ 0 := by positivity
  have hpos : (0 : ℚ) < 2 ^ n := by positivity
  rw [abs_mul, abs_toRat, abs_of_pos hpos]
  generalize (2 ^ 1074 : ℚ) = c at hpow ⊢
  field_simp

theorem mul_tiny_subnormal {y : BitVec 64} (hy : bits y < 55 * 2 ^ 52) :
    (mul tiny y).msb = y.msb ∧ bits (mul tiny y) = 0 := by
  have hpos : tiny.msb = false := by decide
  have htiny : mag (bits tiny) < 2 ^ 78 := (mag_lt _).trans_le (by decide +kernel)
  have hmag : mag (bits y) < 2 ^ 106 :=
    (mag_lt _).trans_le (Nat.pow_le_pow_right (by norm_num) (by omega))
  have hlt : 2 * (mag (bits tiny) * mag (bits y)) < 2 ^ 186 := calc
    2 * (mag (bits tiny) * mag (bits y)) ≤ 2 * (2 ^ 78 * 2 ^ 106) :=
      Nat.mul_le_mul_left _ (Nat.mul_le_mul htiny.le hmag.le)
    _ < 2 ^ 186 := by norm_num
  rw [msb_mul, hpos, Bool.false_xor, bits_mul]
  exact ⟨rfl, roundMag_eq_zero hlt (by norm_num)⟩

theorem value_eq {a : ℕ} (ha : 2 ^ 52 ≤ a) (s : ℤ) :
    value (2 ^ 52 + a % 2 ^ 52) ((a / 2 ^ 52 : ℕ) + s) = mag a * 2 ^ s := by
  have hexp : ((a / 2 ^ 52 : ℕ) + s - 1 : ℤ) = (a / 2 ^ 52 - 1 : ℕ) + s := by omega
  unfold value
  rw [hexp, zpow_add₀ (by norm_num), zpow_natCast, mag_of_le ha, Nat.cast_mul, Nat.cast_pow 2
    (a / 2 ^ 52 - 1), Nat.cast_ofNat, mul_assoc]

/-- A number below the normal ones, scaled from its product with `two54`. -/
theorem scalbn_subnormal (hne : bits x ≠ 0) (hsub : bits x < 2 ^ 52) (hn : -50000 ≤ n.toInt) :
    ∃ z, scale (mul x two54) (msdw (mul x two54)) (exponent (msdw (mul x two54)) - 54#32) n =
      .double z ∧ z.msb = x.msb ∧ IsNearest (mag (bits x) * 2 ^ n.toInt) (bits z) := by
  obtain ⟨hmsb, hlow, hhigh, hmag⟩ := mul_two54 hne hsub
  have hexp := toNat_exponent (mul x two54)
  have hk : (exponent (msdw (mul x two54)) - 54#32).toInt =
      (bits (mul x two54) / 2 ^ 52 : ℕ) - 54 := by
    have hcond := BitVec.toInt_eq_toNat_cond (exponent (msdw (mul x two54)) - 54#32)
    rw [BitVec.toNat_sub, BitVec.toNat_ofNat, hexp] at hcond
    split at hcond <;> omega
  obtain ⟨z, hz, hsign, hnear⟩ := scale_spec (mul x two54)
    (k := exponent (msdw (mul x two54)) - 54#32) (n := n) (by omega) (by omega) (by omega)
  refine ⟨z, hz, hsign.trans hmsb, ?_⟩
  have hshift : (2 : ℚ) ^ 54 * 2 ^ (-54 + n.toInt) = 2 ^ n.toInt := by
    rw [← zpow_natCast, ← zpow_add₀ (by norm_num)]
    norm_num
  rwa [hk, sub_eq_add_neg, add_assoc, value_eq hlow, hmag, Nat.cast_mul, Nat.cast_pow,
    Nat.cast_ofNat, mul_assoc, hshift, ← mag_of_lt hsub] at hnear

theorem scalbn_finite (n : BitVec 32) (hfin : IsFinite x) :
    ∃ z, scalbn x n = .double z ∧ z.msb = x.msb ∧
      IsNearest (|toRat x * 2 ^ n.toInt| * 2 ^ 1074) (bits z) := by
  have hexp := toNat_exponent x
  have hzero : lsdw x ||| (msdw x &&& 0x7fffffff#32) = 0#32 ↔ bits x = 0 := by
    rw [BitVec.or_comm, ← not_iff_not]
    exact words_ne_zero_iff x
  unfold IsFinite at hfin
  rw [abs_scaled]
  unfold scalbn
  dsimp only
  split_ifs with hk hx hn
  · rw [hzero] at hx
    refine ⟨x, rfl, rfl, ?_⟩
    rw [hx, mag_eq_zero.mpr rfl]
    apply isNearest_zero <;> simp
  · rw [hzero] at hx
    rw [hk] at hexp
    have hsub : bits x < 2 ^ 52 := by
      simp only [BitVec.toNat_ofNat] at hexp
      omega
    obtain ⟨hmsb, -, hhigh, -⟩ := mul_two54 hx hsub
    obtain ⟨hsign, hbits⟩ := mul_tiny_subnormal hhigh
    refine ⟨_, rfl, hsign.trans hmsb, ?_⟩
    have hvalue : (mag (bits x) * 2 ^ n.toInt : ℚ) = value (bits x) (n.toInt + 1) := by
      unfold value
      rw [add_sub_cancel_right, mag_of_lt hsub]
    rw [hbits, hvalue]
    exact isNearest_underflow (by omega) (by omega)
  · rw [hzero] at hx
    rw [hk] at hexp
    simp only [BitVec.toNat_ofNat] at hexp
    exact scalbn_subnormal hx (by omega) (by omega)
  · have hne : (exponent (msdw x)).toNat ≠ 0 := fun h => hk (BitVec.eq_of_toNat_eq h)
    have hint := toInt_eq_toNat (w := exponent (msdw x)) (by omega)
    obtain ⟨z, hz, hmsb, hnear⟩ := scale_spec x (k := exponent (msdw x)) (n := n) (by omega)
      (by omega) (by omega)
    refine ⟨z, hz, hmsb, ?_⟩
    rwa [hint, hexp, value_eq (by omega)] at hnear

theorem scalbn_scales (x : BitVec 64) (n : BitVec 32) : Scales x n.toInt (scalbn x n) := by
  by_cases hfin : IsFinite x
  · obtain ⟨z, hz, hspec⟩ := scalbn_finite n hfin
    rw [hz]
    simpa only [Scales, if_pos hfin] using hspec
  · have hlt : bits x < 2 ^ 63 := Nat.mod_lt _ (by norm_num)
    have hexp := toNat_exponent x
    have hexponent : exponent (msdw x) = 0x7ff#32 := by
      unfold IsFinite at hfin
      apply BitVec.eq_of_toNat_eq
      rw [hexp, BitVec.toNat_ofNat]
      omega
    unfold scalbn scale addSelf
    simp only [hexponent, if_true]
    rw [if_neg (by decide)]
    split_ifs with hinf
    · simpa only [Scales, if_neg hfin] using ⟨hinf, trivial⟩
    · unfold IsFinite at hfin
      unfold Scales infinity
      unfold infinity at hinf
      dsimp only
      omega

end Result

end CollectedSources.Gon
