import CollectedSources.Gon.Fmod
import CollectedSources.Machine.Binary64
import CollectedSources.Machine.DoubleWord
import Mathlib

/-! # The floor of gon

`floor` clears the bits of a pattern below the place of one. For a negative
number that is not integral it first adds one at that place, in the words of the
pattern, where the carry may go on into the exponent.
-/

namespace CollectedSources.Gon

open Machine Machine.Binary64

section Code

/-- The number of the bit of one, seen from the highest bit of the fraction. -/
def floorExponent (i0 : BitVec 32) : ℤ := (i0.sshiftRight 20 &&& 0x7ff#32).toNat - 0x3ff

/-- `j0 < 0`. -/
def floorSmall (i0 i1 : BitVec 32) : BitVec 64 :=
  if 0 ≤ i0.toInt then dwToDbl 0#32 0#32
  else if (i0 &&& 0x7fffffff#32) ||| i1 ≠ 0#32 then dwToDbl 0xbff00000#32 0#32
  else dwToDbl i0 i1

/-- `0 <= j0 && j0 < 20`. -/
def floorHigh (x : BitVec 64) (i0 i1 : BitVec 32) (j0 : ℕ) : BitVec 64 :=
  let i := 0x000fffff#32 >>> j0
  if (i0 &&& i) ||| i1 = 0#32 then x
  else dwToDbl ((if i0.toInt < 0 then i0 + (0x00100000#32 >>> j0) else i0) &&& ~~~i) 0#32

/-- `20 <= j0 && j0 <= 51`. -/
def floorLow (x : BitVec 64) (i0 i1 : BitVec 32) (j0 : ℕ) : BitVec 64 :=
  let i := 0xffffffff#32 >>> (j0 - 20)
  if i1 &&& i = 0#32 then x
  else if i0.toInt < 0 then
    if j0 = 20 then dwToDbl (i0 + 1#32) (i1 &&& ~~~i)
    else
      let j := i1 + (1#32 <<< (52 - j0))
      dwToDbl (if j < i1 then i0 + 1#32 else i0) (j &&& ~~~i)
  else dwToDbl i0 (i1 &&& ~~~i)

/-- The pattern that is returned; none for the `x + x` of an infinity or a NaN. The guard
`huge + x > 0.0` holds wherever it is evaluated. -/
def floor (x : BitVec 64) : Option (BitVec 64) :=
  let i0 := msdw x
  let i1 := lsdw x
  let j0 := floorExponent i0
  if j0 < 20 then
    if j0 < 0 then some (floorSmall i0 i1) else some (floorHigh x i0 i1 j0.toNat)
  else if j0 > 51 then
    if j0 = 0x400 then none else some x
  else some (floorLow x i0 i1 j0.toNat)

end Code

section Words

variable {h l : BitVec 32} {n k : ℕ}

theorem toNat_eq_wide (x : BitVec 64) : x.toNat = wide (msdw x) (lsdw x) := by
  have := x.isLt
  unfold wide msdw lsdw
  simp only [BitVec.extractLsb'_toNat, Nat.shiftRight_eq_div_pow]
  omega

theorem toNat_dwToDbl_eq_wide (h l : BitVec 32) : (dwToDbl h l).toNat = wide h l := by
  unfold dwToDbl wide
  rw [BitVec.toNat_append, Nat.shiftLeft_eq, mul_two_pow_or l.isLt]

theorem floorExponent_eq (x : BitVec 64) :
    floorExponent (msdw x) = (bits x / 2 ^ 52 : ℕ) - 1023 := by
  have hmask : (0x7ff#32).toNat = 2 ^ 11 - 1 := rfl
  have hx := toNat_eq_wide x
  have hl := (lsdw x).isLt
  have hh := (msdw x).isLt
  have hfield : ((msdw x).sshiftRight 20 &&& 0x7ff#32).toNat = bits x / 2 ^ 52 := by
    unfold bits
    unfold wide at hx
    rw [toNat_and_mask hmask, BitVec.toNat_sshiftRight]
    split_ifs <;> simp only [Nat.shiftRight_eq_div_pow] <;> omega
  unfold floorExponent
  rw [hfield]

theorem wide_div_high (h l : BitVec 32) (n : ℕ) : wide h l / 2 ^ (n + 32) = h.toNat / 2 ^ n := by
  have hhigh : wide h l / 2 ^ 32 = h.toNat := by
    have := l.isLt
    unfold wide
    omega
  rw [Nat.add_comm, pow_add, ← Nat.div_div_eq_div_mul, hhigh]

theorem wide_mod_high (h l : BitVec 32) (n : ℕ) :
    wide h l % 2 ^ (n + 32) = h.toNat % 2 ^ n * 2 ^ 32 + l.toNat := by
  have hdiv := wide_div_high h l n
  have hwide := Nat.div_add_mod (wide h l) (2 ^ (n + 32))
  have hhigh : h.toNat * 2 ^ 32 = 2 ^ (n + 32) * (h.toNat / 2 ^ n) + h.toNat % 2 ^ n * 2 ^ 32 := by
    conv_lhs => rw [← Nat.div_add_mod h.toNat (2 ^ n)]
    ring
  rw [hdiv] at hwide
  unfold wide at hwide ⊢
  omega

theorem wide_div_low (h l : BitVec 32) (hk : k ≤ 32) :
    wide h l / 2 ^ k * 2 ^ k = h.toNat * 2 ^ 32 + l.toNat / 2 ^ k * 2 ^ k := by
  have hpow := two_pow_sub_mul hk
  unfold wide
  rw [← hpow, ← Nat.mul_assoc, Nat.add_comm, Nat.add_mul_div_right _ _ (Nat.two_pow_pos k),
    Nat.add_mul, Nat.add_comm]

theorem wide_mod_low (h l : BitVec 32) (hk : k ≤ 32) : wide h l % 2 ^ k = l.toNat % 2 ^ k := by
  have hpow := two_pow_sub_mul hk
  unfold wide
  rw [← hpow, ← Nat.mul_assoc, Nat.mul_add_mod_self_right]

/-- The pattern rounded down at a place, or up if it is negative. -/
def rounded (neg : Prop) [Decidable neg] (a k : ℕ) : ℕ :=
  if a % 2 ^ k = 0 then a else if neg then (a / 2 ^ k + 1) * 2 ^ k else a / 2 ^ k * 2 ^ k

theorem two_pow_sub_one_div {n j : ℕ} (hj : j ≤ n) : (2 ^ n - 1) / 2 ^ j = 2 ^ (n - j) - 1 := by
  have hpow := two_pow_sub_mul hj
  have hpos := Nat.two_pow_pos j
  have hsub : (2 ^ n - 1) / 2 ^ j < 2 ^ (n - j) := by
    rw [Nat.div_lt_iff_lt_mul hpos, hpow]
    have := Nat.two_pow_pos n
    omega
  have hle : 2 ^ (n - j) - 1 ≤ (2 ^ n - 1) / 2 ^ j := by
    rw [Nat.le_div_iff_mul_le hpos, Nat.sub_mul, hpow]
    omega
  omega

theorem toNat_highMask {j : ℕ} (hj : j < 20) : (0x000fffff#32 >>> j).toNat = 2 ^ (20 - j) - 1 := by
  rw [BitVec.toNat_ushiftRight, Nat.shiftRight_eq_div_pow, ← two_pow_sub_one_div hj.le]
  rfl

theorem toNat_highUnit {j : ℕ} (hj : j < 20) : (0x00100000#32 >>> j).toNat = 2 ^ (20 - j) := by
  rw [BitVec.toNat_ushiftRight, Nat.shiftRight_eq_div_pow, ← Nat.pow_div hj.le (by norm_num)]
  rfl

theorem toNat_lowMask {j : ℕ} (hj : j < 32) : (0xffffffff#32 >>> j).toNat = 2 ^ (32 - j) - 1 := by
  rw [BitVec.toNat_ushiftRight, Nat.shiftRight_eq_div_pow, ← two_pow_sub_one_div hj.le]
  rfl

theorem toNat_lowUnit {n : ℕ} (hn : n < 32) : (1#32 <<< n).toNat = 2 ^ n := by
  have hlt : 2 ^ n < 2 ^ 32 := Nat.pow_lt_pow_right (by norm_num) hn
  rw [BitVec.toNat_shiftLeft, Nat.shiftLeft_eq]
  exact (Nat.mod_eq_of_lt (by simpa using hlt)).trans (by simp)

theorem or_eq_zero_iff {v w : BitVec 32} : v ||| w = 0#32 ↔ v.toNat = 0 ∧ w.toNat = 0 := by
  rw [BitVec.or_eq_zero_iff, BitVec.toNat_eq, BitVec.toNat_eq]
  rfl

theorem toNat_floorHigh {x : BitVec 64} {j : ℕ} (hx : x.toNat = wide h l) (hj : j < 20)
    (hcarry : h.toNat + 2 ^ 20 < 2 ^ 32) :
    (floorHigh x h l j).toNat = rounded (2 ^ 31 ≤ h.toNat) (wide h l) (52 - j) := by
  have hk : 52 - j = 20 - j + 32 := by omega
  have hmask := toNat_highMask hj
  have hunit := toNat_highUnit hj
  have hle : 2 ^ (20 - j) ≤ 2 ^ 20 := Nat.pow_le_pow_right (by norm_num) (by omega)
  have hpos := Nat.two_pow_pos (20 - j)
  have hzero : (h &&& (0x000fffff#32 >>> j)) ||| l = 0#32 ↔ wide h l % 2 ^ (52 - j) = 0 := by
    rw [or_eq_zero_iff, toNat_and_mask hmask, hk, wide_mod_high]
    omega
  have hsucc : (h.toNat + 2 ^ (20 - j)) / 2 ^ (20 - j) = h.toNat / 2 ^ (20 - j) + 1 :=
    Nat.add_div_right _ hpos
  unfold floorHigh rounded
  simp only [hzero, toInt_neg_iff]
  split_ifs
  · exact hx
  · have hadd : (h + (0x00100000#32 >>> j)).toNat = h.toNat + 2 ^ (20 - j) := by
      rw [BitVec.toNat_add, hunit, Nat.mod_eq_of_lt (by omega)]
    rw [toNat_dwToDbl_eq_wide, hk, wide_div_high, wide, toNat_and_not_mask hmask, hadd, hsucc,
      pow_add, Nat.mul_assoc, BitVec.toNat_zero, Nat.add_zero]
  · rw [toNat_dwToDbl_eq_wide, hk, wide_div_high, wide, toNat_and_not_mask hmask, pow_add,
      Nat.mul_assoc, BitVec.toNat_zero, Nat.add_zero]

theorem wide_carry {n : ℕ} (hn : n < 32) (hcarry : h.toNat + 1 < 2 ^ 32) {i j : BitVec 32}
    (hi : i.toNat = 2 ^ n - 1) (hj : j = l + (1#32 <<< n)) :
    wide (if j < l then h + 1#32 else h) (j &&& ~~~i) =
      h.toNat * 2 ^ 32 + (l.toNat / 2 ^ n + 1) * 2 ^ n := by
  have hpow := two_pow_sub_mul hn.le
  have hpos := Nat.two_pow_pos n
  have hunit := toNat_lowUnit hn
  have hlt : 2 ^ n < 2 ^ 32 := Nat.pow_lt_pow_right (by norm_num) hn
  have hl := l.isLt
  have hj : j.toNat = (l.toNat + 2 ^ n) % 2 ^ 32 := by
    rw [hj, BitVec.toNat_add, hunit]
  have hsucc : (l.toNat + 2 ^ n) / 2 ^ n = l.toNat / 2 ^ n + 1 := Nat.add_div_right _ hpos
  rw [wide, toNat_and_not_mask hi, ← hsucc]
  by_cases hwrap : l.toNat + 2 ^ n < 2 ^ 32
  · rw [Nat.mod_eq_of_lt hwrap] at hj
    rw [if_neg (by rw [BitVec.lt_def]; omega), hj]
  · have hmod : (l.toNat + 2 ^ n) % 2 ^ 32 = l.toNat + 2 ^ n - 2 ^ 32 := by omega
    have hdiv : (l.toNat + 2 ^ n - 2 ^ 32) / 2 ^ n = (l.toNat + 2 ^ n) / 2 ^ n - 2 ^ (32 - n) := by
      rw [← hpow, Nat.mul_comm, Nat.sub_mul_div]
    have hle : 2 ^ (32 - n) ≤ (l.toNat + 2 ^ n) / 2 ^ n := by
      rw [Nat.le_div_iff_mul_le hpos, hpow]
      omega
    have hge : 2 ^ 32 ≤ (l.toNat + 2 ^ n) / 2 ^ n * 2 ^ n := by
      rw [← hpow]
      exact Nat.mul_le_mul_right _ hle
    have hhigh : (h + 1#32).toNat = h.toNat + 1 := by
      rw [BitVec.toNat_add, BitVec.toNat_ofNat]
      omega
    rw [hmod] at hj
    rw [if_pos (by rw [BitVec.lt_def]; omega), hj, hdiv, hhigh, Nat.sub_mul, hpow]
    omega

theorem toNat_floorLow {x : BitVec 64} {j : ℕ} (hx : x.toNat = wide h l) (hj : 20 ≤ j)
    (hj' : j ≤ 51) (hcarry : h.toNat + 1 < 2 ^ 32) :
    (floorLow x h l j).toNat = rounded (2 ^ 31 ≤ h.toNat) (wide h l) (52 - j) := by
  have hmask : (0xffffffff#32 >>> (j - 20)).toNat = 2 ^ (52 - j) - 1 := by
    rw [toNat_lowMask (by omega)]
    congr 2
    omega
  have hk : 52 - j ≤ 32 := by omega
  have hzero : l &&& (0xffffffff#32 >>> (j - 20)) = 0#32 ↔ wide h l % 2 ^ (52 - j) = 0 := by
    rw [BitVec.toNat_eq, toNat_and_mask hmask, wide_mod_low h l hk, BitVec.toNat_zero]
  have hdown := wide_div_low h l hk
  have hup : (wide h l / 2 ^ (52 - j) + 1) * 2 ^ (52 - j) =
      h.toNat * 2 ^ 32 + (l.toNat / 2 ^ (52 - j) + 1) * 2 ^ (52 - j) := by
    rw [Nat.add_mul, hdown, Nat.add_mul, Nat.add_assoc]
  unfold floorLow rounded
  simp only [hzero, toInt_neg_iff]
  by_cases hint : wide h l % 2 ^ (52 - j) = 0
  · rw [if_pos hint, if_pos hint]
    exact hx
  rw [if_neg hint, if_neg hint]
  by_cases hneg : 2 ^ 31 ≤ h.toNat
  · rw [if_pos hneg, if_pos hneg, hup]
    by_cases hword : j = 20
    · subst hword
      have hhigh : (h + 1#32).toNat = h.toNat + 1 := by
        rw [BitVec.toNat_add, BitVec.toNat_ofNat]
        omega
      have hl : l.toNat / 2 ^ (52 - 20) = 0 := Nat.div_eq_of_lt l.isLt
      rw [if_pos rfl, toNat_dwToDbl_eq_wide, wide, toNat_and_not_mask hmask, hhigh, hl,
        Nat.zero_mul, Nat.zero_add, Nat.one_mul, Nat.add_mul, Nat.one_mul, Nat.add_zero]
    · rw [if_neg hword, toNat_dwToDbl_eq_wide]
      exact wide_carry (by omega) hcarry hmask rfl
  · rw [if_neg hneg, if_neg hneg, toNat_dwToDbl_eq_wide, wide, toNat_and_not_mask hmask, hdown]

end Words

section Rounding

variable {x z : BitVec 64} {k : ℕ}

theorem rounded_add {neg : Prop} [Decidable neg] {c : ℕ} (hc : 2 ^ k ∣ c) (a : ℕ) :
    rounded neg (c + a) k = c + rounded neg a k := by
  obtain ⟨q, rfl⟩ := hc
  have hpos := Nat.two_pow_pos k
  unfold rounded
  rw [Nat.mul_add_mod, Nat.mul_add_div hpos]
  split_ifs <;> ring

theorem rounded_le {neg : Prop} [Decidable neg] {a c : ℕ} (hc : 2 ^ k ∣ c) (ha : a < c) :
    rounded neg a k ≤ c := by
  obtain ⟨q, rfl⟩ := hc
  have hdiv : a / 2 ^ k < q := Nat.div_lt_of_lt_mul ha
  have hup : (a / 2 ^ k + 1) * 2 ^ k ≤ q * 2 ^ k := Nat.mul_le_mul_right _ hdiv
  have hdown := Nat.div_mul_le_self a (2 ^ k)
  unfold rounded
  split_ifs
  · exact ha.le
  · rwa [Nat.mul_comm (2 ^ k)]
  · exact hdown.trans ha.le

theorem bits_of_rounded (hk : k ≤ 52) (hx : bits x < 1075 * 2 ^ 52)
    (hz : z.toNat = rounded (x.msb = true) x.toNat k) :
    z.msb = x.msb ∧ bits z = rounded (x.msb = true) (bits x) k ∧ IsFinite z := by
  have hdvd : (2 : ℕ) ^ k ∣ 2 ^ 52 := pow_dvd_pow 2 hk
  have hsign : 2 ^ k ∣ 2 ^ 63 * (x.toNat / 2 ^ 63) :=
    Dvd.dvd.mul_right (pow_dvd_pow 2 (by omega)) _
  have hsplit : x.toNat = 2 ^ 63 * (x.toNat / 2 ^ 63) + bits x := (Nat.div_add_mod _ _).symm
  have hle := @rounded_le k (x.msb = true) _ _ _ (Dvd.dvd.mul_left hdvd 1075) hx
  have hlt := x.isLt
  rw [hsplit, rounded_add hsign] at hz
  have hbits : bits z = rounded (x.msb = true) (bits x) k := by
    unfold bits at *
    omega
  refine ⟨?_, hbits, ?_⟩
  · rw [BitVec.msb_eq_decide, BitVec.msb_eq_decide, decide_eq_decide]
    omega
  · unfold IsFinite
    omega

end Rounding

section Floor

variable {x : BitVec 64}

theorem msb_eq_msdw (x : BitVec 64) : x.msb = true ↔ 2 ^ 31 ≤ (msdw x).toNat := by
  have hx := toNat_eq_wide x
  have hl := (lsdw x).isLt
  unfold wide at hx
  rw [BitVec.msb_eq_decide, decide_eq_true_eq]
  omega

theorem rounded_congr {p q : Prop} [Decidable p] [Decidable q] (h : p ↔ q) (a k : ℕ) :
    rounded p a k = rounded q a k := by
  unfold rounded
  simp only [h]

/-- The units of the floor without their sign. -/
def floorUnits (x : BitVec 64) : ℕ :=
  if x.msb ∧ mag (bits x) % 2 ^ 1074 ≠ 0 then mag (bits x) / 2 ^ 1074 + 1
  else mag (bits x) / 2 ^ 1074

theorem floor_toRat_eq (x : BitVec 64) :
    ⌊toRat x⌋ = if x.msb then -(floorUnits x : ℤ) else floorUnits x := by
  rw [floor_toRat]
  unfold floorUnits
  generalize mag (bits x) % 2 ^ 1074 = r
  generalize mag (bits x) / 2 ^ 1074 = q
  cases x.msb <;> simp

theorem hasMag_floorUnits (hunit : HasUnit (bits x)) {z : BitVec 64}
    (hz : z.toNat = rounded (x.msb = true) x.toNat (unitPlace (bits x))) :
    HasMag x.msb (floorUnits x * 2 ^ 1074) z := by
  have hk : unitPlace (bits x) ≤ 52 := by
    unfold unitPlace
    have := hunit.1
    omega
  have hlt : bits x < 1075 * 2 ^ 52 := by
    have := hunit.2
    omega
  obtain ⟨hsign, hbits, hfinite⟩ := bits_of_rounded hk hlt hz
  refine ⟨hfinite, hsign, ?_⟩
  have hmod := mag_mod_eq_zero_iff hunit
  rw [hbits]
  unfold rounded floorUnits
  by_cases hint : bits x % 2 ^ unitPlace (bits x) = 0
  · have hmag := hmod.mpr hint
    rw [if_pos hint, if_neg (fun h => h.2 hmag)]
    exact (Nat.div_mul_cancel (Nat.dvd_of_mod_eq_zero hmag)).symm
  have hmag : mag (bits x) % 2 ^ 1074 ≠ 0 := fun h => hint (hmod.mp h)
  rw [if_neg hint]
  by_cases hneg : x.msb = true
  · rw [if_pos hneg, if_pos ⟨hneg, hmag⟩]
    exact mag_clear_succ hunit
  · rw [if_neg hneg, if_neg (fun h => hneg h.1)]
    exact mag_clear hunit

theorem toInt_msdw_nonneg_iff (x : BitVec 64) : 0 ≤ (msdw x).toInt ↔ x.msb = false := by
  have hneg := toInt_neg_iff (msdw x)
  rw [← msb_eq_msdw] at hneg
  rw [← not_lt, hneg, Bool.not_eq_true]

theorem words_ne_zero_iff (x : BitVec 64) :
    (msdw x &&& 0x7fffffff#32) ||| lsdw x ≠ 0#32 ↔ bits x ≠ 0 := by
  have hmask : (0x7fffffff#32).toNat = 2 ^ 31 - 1 := rfl
  have hx := toNat_eq_wide x
  have hl := (lsdw x).isLt
  rw [Ne, or_eq_zero_iff, toNat_and_mask hmask]
  unfold bits
  unfold wide at hx
  omega

theorem hasMag_of_bits_eq_zero (hx : bits x = 0) : HasMag x.msb 0 x := by
  refine ⟨?_, rfl, mag_eq_zero.mpr hx⟩
  unfold IsFinite
  omega

theorem hasMag_negOne : HasMag true (2 ^ 1074) (dwToDbl 0xbff00000#32 0#32) := by
  have hone : bits (dwToDbl 0xbff00000#32 0#32) = 2 ^ 52 * 1022 + 2 ^ 52 := by decide
  refine ⟨by decide, by decide, ?_⟩
  rw [hone, mag_normal le_rfl (by norm_num), ← pow_add]

theorem hasMag_floorSmall (hsmall : bits x < 1023 * 2 ^ 52) :
    HasMag x.msb (floorUnits x * 2 ^ 1074) (floorSmall (msdw x) (lsdw x)) := by
  have hexp : 52 + bits x / 2 ^ 52 ≤ 1074 := by omega
  have hlt : mag (bits x) < 2 ^ 1074 :=
    (mag_lt (bits x)).trans_le (pow_le_pow_right₀ one_le_two hexp)
  have hdiv : mag (bits x) / 2 ^ 1074 = 0 := Nat.div_eq_of_lt hlt
  have hmod : mag (bits x) % 2 ^ 1074 = mag (bits x) := Nat.mod_eq_of_lt hlt
  unfold floorUnits floorSmall
  rw [hdiv, hmod]
  simp only [toInt_msdw_nonneg_iff, words_ne_zero_iff, Ne, mag_eq_zero]
  cases hneg : x.msb with
  | false =>
    simp only [if_true, Bool.false_eq_true, false_and, if_false, Nat.zero_mul]
    exact @hasMag_of_bits_eq_zero (dwToDbl 0#32 0#32) (by decide)
  | true =>
    by_cases hbits : bits x = 0
    · have hself : dwToDbl (msdw x) (lsdw x) = x :=
        BitVec.eq_of_toNat_eq (by rw [toNat_dwToDbl_eq_wide, toNat_eq_wide])
      simp only [hbits, hself, Bool.true_eq_false, if_false, not_true, and_false, Nat.zero_mul]
      rw [← hneg]
      exact hasMag_of_bits_eq_zero hbits
    · simp only [hbits, Bool.true_eq_false, if_false, not_false_iff, true_and, if_true,
        Nat.zero_add, Nat.one_mul]
      exact hasMag_negOne

theorem hasMag_integral (hfinite : IsFinite x) (hlarge : 1075 * 2 ^ 52 ≤ bits x) :
    HasMag x.msb (floorUnits x * 2 ^ 1074) x := by
  have hdvd : 2 ^ 1074 ∣ mag (bits x) := by
    rw [mag_of_le (by omega)]
    exact Dvd.dvd.mul_left (pow_dvd_pow 2 (by omega)) _
  have hmod : mag (bits x) % 2 ^ 1074 = 0 := Nat.mod_eq_zero_of_dvd hdvd
  refine ⟨hfinite, rfl, ?_⟩
  unfold floorUnits
  rw [if_neg (fun h => h.2 hmod), Nat.div_mul_cancel hdvd]

theorem floor_hasMag (hfinite : IsFinite x) :
    ∃ z, floor x = some z ∧ HasMag x.msb (floorUnits x * 2 ^ 1074) z := by
  have hexp := floorExponent_eq x
  have hx := toNat_eq_wide x
  have hh : (msdw x).toNat + 2 ^ 20 < 2 ^ 32 := by
    have hl := (lsdw x).isLt
    unfold IsFinite bits at hfinite
    unfold wide at hx
    omega
  have hneg (k : ℕ) := rounded_congr (msb_eq_msdw x).symm x.toNat k
  unfold IsFinite at hfinite
  unfold floor
  simp only [hexp]
  by_cases hsmall : bits x < 1023 * 2 ^ 52
  · rw [if_pos (by omega), if_pos (by omega)]
    exact ⟨_, rfl, hasMag_floorSmall hsmall⟩
  by_cases hlarge : 1075 * 2 ^ 52 ≤ bits x
  · rw [if_neg (by omega), if_pos (by omega), if_neg (by omega)]
    exact ⟨x, rfl, hasMag_integral hfinite hlarge⟩
  have hunit : HasUnit (bits x) := ⟨by omega, by omega⟩
  have hplace : unitPlace (bits x) = 52 - ((bits x / 2 ^ 52 : ℕ) - 1023 : ℤ).toNat := by
    unfold unitPlace
    omega
  by_cases hhigh : bits x < 1043 * 2 ^ 52
  · rw [if_pos (by omega), if_neg (by omega)]
    refine ⟨_, rfl, hasMag_floorUnits hunit ?_⟩
    rw [toNat_floorHigh hx (by omega) hh, ← hx, hneg, hplace]
  · rw [if_neg (by omega), if_neg (by omega)]
    refine ⟨_, rfl, hasMag_floorUnits hunit ?_⟩
    rw [toNat_floorLow hx (by omega) (by omega) (by omega), ← hx, hneg, hplace]

theorem toNat_of_bits_eq_zero {z : BitVec 64} (hz : bits z = 0) :
    z.toNat = if z.msb then 2 ^ 63 else 0 := by
  have hlt := z.isLt
  rw [BitVec.msb_eq_decide]
  unfold bits at hz
  by_cases hsign : 2 ^ 63 ≤ z.toNat
  · rw [if_pos (decide_eq_true hsign)]
    omega
  · rw [if_neg (by simpa using hsign)]
    omega

theorem toRat_nonneg (hpos : x.msb = false) : 0 ≤ toRat x := by
  unfold toRat
  rw [hpos]
  simp only [Bool.false_eq_true, if_false, one_mul]
  positivity

/-- The floor of every finite number, with the sign of a zero kept. -/
theorem floor_spec (hfinite : IsFinite x) : ∃ z, floor x = some z ∧ IsFinite z ∧
    toRat z = ⌊toRat x⌋ ∧ (x = 0x8000000000000000#64 → z = 0x8000000000000000#64) ∧
    (x.msb = false → toRat x < 1 → z = 0#64) := by
  obtain ⟨z, hfloor, hz⟩ := floor_hasMag hfinite
  have hvalue : toRat z = ⌊toRat x⌋ := by
    rw [hz.toRat_eq, floor_toRat_eq]
    cases x.msb <;> simp
  refine ⟨z, hfloor, hz.finite, hvalue, ?_, ?_⟩
  · rintro rfl
    have hzero : toRat 0x8000000000000000#64 = 0 := toRat_eq_zero.mpr (by decide)
    rw [hzero, Int.floor_zero, Int.cast_zero, toRat_eq_zero] at hvalue
    apply BitVec.eq_of_toNat_eq
    rw [toNat_of_bits_eq_zero hvalue, hz.sign]
    rfl
  · intro hpos hone
    rw [Int.floor_eq_zero_iff.mpr ⟨toRat_nonneg hpos, hone⟩, Int.cast_zero, toRat_eq_zero] at hvalue
    apply BitVec.eq_of_toNat_eq
    rw [toNat_of_bits_eq_zero hvalue, hz.sign, hpos]
    rfl

/-- The floor of -1.5 is -2, the first number of the next exponent. -/
theorem floor_neg_three_halves : floor 0xbff8000000000000#64 = some 0xc000000000000000#64 ∧
    ∃ z, floor 0xbff8000000000000#64 = some z ∧ IsFinite z ∧
      toRat z = ⌊toRat 0xbff8000000000000#64⌋ :=
  ⟨by decide, by
    obtain ⟨z, hz, hfinite, hvalue, -⟩ :=
      @floor_spec 0xbff8000000000000#64 (by decide)
    exact ⟨z, hz, hfinite, hvalue⟩⟩

end Floor

end CollectedSources.Gon
