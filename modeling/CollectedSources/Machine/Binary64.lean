import Mathlib

/-! # Double precision numbers

A pattern of 64 bits is a sign, an exponent and a fraction. The magnitude of a
finite pattern is a natural number, in units of the smallest subnormal.
-/

namespace CollectedSources.Machine.Binary64

/-- A pattern without its sign. -/
def bits (x : BitVec 64) : ℕ := x.toNat % 2 ^ 63

/-- The exponent is not the one of infinities and NaNs. -/
def IsFinite (x : BitVec 64) : Prop := bits x < 0x7ff * 2 ^ 52

instance (x : BitVec 64) : Decidable (IsFinite x) := inferInstanceAs (Decidable (_ < _))

/-- The magnitude of a pattern without sign, a multiple of `2 ^ (-1074)`. -/
def mag (a : ℕ) : ℕ :=
  if a / 2 ^ 52 = 0 then a else (2 ^ 52 + a % 2 ^ 52) * 2 ^ (a / 2 ^ 52 - 1)

/-- The number that a finite pattern denotes. -/
def toRat (x : BitVec 64) : ℚ :=
  (if x.msb then -1 else 1) * (mag (bits x) / 2 ^ 1074)

/-- A finite pattern of a sign and a magnitude. -/
structure HasMag (s : Bool) (r : ℕ) (z : BitVec 64) : Prop where
  finite : IsFinite z
  sign : z.msb = s
  mag : mag (bits z) = r

variable {a b : ℕ}

theorem mag_of_lt (ha : a < 2 ^ 52) : mag a = a := by
  unfold mag
  rw [if_pos (Nat.div_eq_of_lt ha)]

theorem mag_of_le (ha : 2 ^ 52 ≤ a) :
    mag a = (2 ^ 52 + a % 2 ^ 52) * 2 ^ (a / 2 ^ 52 - 1) := by
  unfold mag
  rw [if_neg (by omega)]

theorem mag_lt (a : ℕ) : mag a < 2 ^ (52 + a / 2 ^ 52) := by
  by_cases ha : a < 2 ^ 52
  · rw [mag_of_lt ha, Nat.div_eq_of_lt ha]
    exact ha
  · have hpow : 2 ^ (52 + a / 2 ^ 52) = 2 ^ 53 * 2 ^ (a / 2 ^ 52 - 1) := by
      rw [← pow_add]
      congr 1
      omega
    rw [mag_of_le (by omega), hpow]
    exact Nat.mul_lt_mul_of_pos_right (by omega) (Nat.two_pow_pos _)

theorem le_mag (ha : 2 ^ 52 ≤ a) : 2 ^ (51 + a / 2 ^ 52) ≤ mag a := by
  have hpow : 2 ^ (51 + a / 2 ^ 52) = 2 ^ 52 * 2 ^ (a / 2 ^ 52 - 1) := by
    rw [← pow_add]
    congr 1
    omega
  rw [mag_of_le ha, hpow]
  exact Nat.mul_le_mul_right _ (Nat.le_add_right _ _)

theorem mag_strictMono : StrictMono mag := by
  intro a b hab
  by_cases hexp : a / 2 ^ 52 = b / 2 ^ 52
  · have hmod : a % 2 ^ 52 < b % 2 ^ 52 := by omega
    unfold mag
    rw [hexp]
    split
    · exact hab
    · exact Nat.mul_lt_mul_of_pos_right (by omega) (Nat.two_pow_pos _)
  · have hlt : a / 2 ^ 52 < b / 2 ^ 52 := by omega
    calc mag a < 2 ^ (52 + a / 2 ^ 52) := mag_lt a
      _ ≤ 2 ^ (51 + b / 2 ^ 52) := Nat.pow_le_pow_right (by norm_num) (by omega)
      _ ≤ mag b := le_mag (by omega)

theorem mag_eq_zero : mag a = 0 ↔ a = 0 := by
  constructor
  · intro ha
    by_contra hne
    have : mag 0 < mag a := mag_strictMono (Nat.pos_of_ne_zero hne)
    omega
  · rintro rfl
    rfl

theorem log2_mag (ha : 2 ^ 52 ≤ a) : (mag a).log2 = 51 + a / 2 ^ 52 := by
  have hpos : mag a ≠ 0 := by
    rw [Ne, mag_eq_zero]
    omega
  rw [Nat.log2_eq_iff hpos]
  refine ⟨le_mag ha, ?_⟩
  have := mag_lt a
  rwa [show 51 + a / 2 ^ 52 + 1 = 52 + a / 2 ^ 52 by omega]

section Units

theorem mag_normal {e m : ℕ} (hm : 2 ^ 52 ≤ m) (hm' : m ≤ 2 ^ 53) :
    mag (2 ^ 52 * e + m) = m * 2 ^ e := by
  rw [mag_of_le (by omega)]
  rcases hm'.lt_or_eq with hlt | rfl
  · have hdiv : (2 ^ 52 * e + m) / 2 ^ 52 - 1 = e := by omega
    have hmod : 2 ^ 52 + (2 ^ 52 * e + m) % 2 ^ 52 = m := by omega
    rw [hdiv, hmod]
  · have hdiv : (2 ^ 52 * e + 2 ^ 53) / 2 ^ 52 - 1 = e + 1 := by omega
    have hmod : (2 ^ 52 * e + 2 ^ 53) % 2 ^ 52 = 0 := by omega
    rw [hdiv, hmod, Nat.add_zero, pow_succ 2 e, pow_succ 2 52, Nat.mul_comm (2 ^ e), Nat.mul_assoc]

/-- The place of one in a pattern, counted from its lowest bit. -/
def unitPlace (a : ℕ) : ℕ := 1075 - a / 2 ^ 52

/-- A pattern whose fraction has the place of one. -/
def HasUnit (a : ℕ) : Prop := 1023 ≤ a / 2 ^ 52 ∧ a / 2 ^ 52 ≤ 1074

theorem HasUnit.split (h : HasUnit a) : ∃ e m k, a = 2 ^ 52 * e + m ∧ unitPlace a = k ∧
    2 ^ 52 ≤ m ∧ m < 2 ^ 53 ∧ k + e = 1074 ∧ k ≤ 52 ∧ mag a / 2 ^ 1074 = m / 2 ^ k ∧
    mag a = m * 2 ^ e := by
  obtain ⟨hlow, hhigh⟩ := h
  have hsplit : a = 2 ^ 52 * (a / 2 ^ 52 - 1) + (2 ^ 52 + a % 2 ^ 52) := by omega
  generalize he : a / 2 ^ 52 - 1 = e at hsplit
  generalize hm : 2 ^ 52 + a % 2 ^ 52 = m at hsplit
  have hk : unitPlace a + e = 1074 := by
    unfold unitPlace
    omega
  have hmag : mag a = m * 2 ^ e := by
    rw [hsplit]
    exact mag_normal (by omega) (by omega)
  have hdiv : mag a / 2 ^ 1074 = m / 2 ^ unitPlace a := by
    rw [hmag, ← hk, pow_add, Nat.mul_div_mul_right _ _ (Nat.two_pow_pos e)]
  exact ⟨e, m, _, hsplit, rfl, by omega, by omega, hk, by unfold unitPlace; omega, hdiv, hmag⟩

theorem mul_add_div_two_pow {e m k : ℕ} (hk : k ≤ 52) :
    (2 ^ 52 * e + m) / 2 ^ k = 2 ^ (52 - k) * e + m / 2 ^ k := by
  have hpow : 2 ^ (52 - k) * 2 ^ k = 2 ^ 52 := by rw [← pow_add, Nat.sub_add_cancel hk]
  rw [← hpow, Nat.mul_right_comm, Nat.add_comm, Nat.add_mul_div_right _ _ (Nat.two_pow_pos k),
    Nat.add_comm]

theorem mag_clear (h : HasUnit a) :
    mag (a / 2 ^ unitPlace a * 2 ^ unitPlace a) = mag a / 2 ^ 1074 * 2 ^ 1074 := by
  obtain ⟨e, m, k, rfl, hplace, hm, hm', hk, hle, hdiv, -⟩ := h.split
  have hpow : 2 ^ (52 - k) * 2 ^ k = 2 ^ 52 := by rw [← pow_add, Nat.sub_add_cancel hle]
  have hlow : 2 ^ 52 ≤ m / 2 ^ k * 2 ^ k := by
    rw [← hpow] at hm ⊢
    exact Nat.mul_le_mul_right _ ((Nat.le_div_iff_mul_le (Nat.two_pow_pos k)).mpr hm)
  have hhigh : m / 2 ^ k * 2 ^ k ≤ 2 ^ 53 := (Nat.div_mul_le_self m _).trans hm'.le
  rw [hdiv, hplace, mul_add_div_two_pow hle, Nat.add_mul, Nat.mul_right_comm, hpow,
    mag_normal hlow hhigh, ← hk, pow_add, Nat.mul_assoc]

theorem mag_clear_succ (h : HasUnit a) :
    mag ((a / 2 ^ unitPlace a + 1) * 2 ^ unitPlace a) = (mag a / 2 ^ 1074 + 1) * 2 ^ 1074 := by
  obtain ⟨e, m, k, rfl, hplace, hm, hm', hk, hle, hdiv, -⟩ := h.split
  have hpow : 2 ^ (52 - k) * 2 ^ k = 2 ^ 52 := by rw [← pow_add, Nat.sub_add_cancel hle]
  have hpow' : 2 ^ (53 - k) * 2 ^ k = 2 ^ 53 := by rw [← pow_add, Nat.sub_add_cancel (by omega)]
  have hlow : 2 ^ 52 ≤ (m / 2 ^ k + 1) * 2 ^ k :=
    hm.trans ((Nat.div_lt_iff_lt_mul (Nat.two_pow_pos k)).mp (Nat.lt_succ_self _)).le
  have hhigh : (m / 2 ^ k + 1) * 2 ^ k ≤ 2 ^ 53 := by
    rw [← hpow'] at hm' ⊢
    exact Nat.mul_le_mul_right _ ((Nat.div_lt_iff_lt_mul (Nat.two_pow_pos k)).mpr hm')
  rw [hdiv, hplace, mul_add_div_two_pow hle, Nat.add_assoc, Nat.add_mul, Nat.mul_right_comm, hpow,
    mag_normal hlow hhigh, ← hk, pow_add, Nat.mul_assoc]

theorem mag_mod_eq_zero_iff (h : HasUnit a) :
    mag a % 2 ^ 1074 = 0 ↔ a % 2 ^ unitPlace a = 0 := by
  obtain ⟨e, m, k, rfl, hplace, -, -, hk, hle, -, hmag⟩ := h.split
  have hpow : 2 ^ k * 2 ^ (52 - k) = 2 ^ 52 := by rw [← pow_add, Nat.add_sub_cancel' hle]
  have hmod : (2 ^ 52 * e + m) % 2 ^ k = m % 2 ^ k := by
    rw [← hpow, Nat.mul_assoc, Nat.mul_add_mod]
  rw [hmag, hplace, hmod, ← hk, pow_add, Nat.mul_mod_mul_right, Nat.mul_eq_zero,
    or_iff_left (Nat.two_pow_pos e).ne']

section Floors

variable {x z : BitVec 64}

theorem floor_natCast_div {m n : ℕ} : ⌊(m / n : ℚ)⌋ = (m / n : ℕ) :=
  Rat.floor_natCast_div_natCast m n

theorem floor_neg_natCast_div {m n : ℕ} (hn : 0 < n) :
    ⌊-(m / n : ℚ)⌋ = -((if m % n = 0 then m / n else m / n + 1 : ℕ) : ℤ) := by
  have hn : (0 : ℚ) < n := by exact_mod_cast hn
  have hsplit : (m : ℚ) / n = (m / n : ℕ) + (m % n : ℕ) / n := by
    rw [div_eq_iff hn.ne', add_mul, div_mul_cancel₀ _ hn.ne']
    exact_mod_cast (Nat.div_add_mod' m n).symm
  have hlt : ((m % n : ℕ) : ℚ) / n < 1 := by
    rw [div_lt_one hn]
    exact_mod_cast Nat.mod_lt m (by exact_mod_cast hn)
  rw [Int.floor_eq_iff, hsplit]
  generalize m / n = q
  generalize m % n = r at hlt ⊢
  split_ifs with hmod
  · simp [hmod]
  · have hpos : 0 < (r : ℚ) / n := div_pos (by exact_mod_cast Nat.pos_of_ne_zero hmod) hn
    push_cast
    constructor <;> linarith

theorem floor_toRat (x : BitVec 64) : ⌊toRat x⌋ =
    if x.msb then -((if mag (bits x) % 2 ^ 1074 = 0 then mag (bits x) / 2 ^ 1074
      else mag (bits x) / 2 ^ 1074 + 1 : ℕ) : ℤ)
    else (mag (bits x) / 2 ^ 1074 : ℕ) := by
  have hcast : (2 ^ 1074 : ℚ) = ((2 ^ 1074 : ℕ) : ℚ) := by rw [Nat.cast_pow, Nat.cast_ofNat]
  unfold toRat
  rw [hcast]
  cases x.msb with
  | false => simp only [Bool.false_eq_true, if_false, one_mul, floor_natCast_div]
  | true =>
    simp only [if_true, neg_one_mul]
    exact floor_neg_natCast_div (by positivity)

theorem HasMag.toRat_eq {s : Bool} {n : ℕ} (h : HasMag s (n * 2 ^ 1074) z) :
    toRat z = if s then -(n : ℚ) else n := by
  have hpow : (2 ^ 1074 : ℚ) ≠ 0 := by positivity
  unfold toRat
  rw [h.mag, h.sign, Nat.cast_mul, Nat.cast_pow, Nat.cast_ofNat, mul_div_assoc, div_self hpow,
    mul_one]
  cases s <;> simp

end Floors

end Units

section Remainders

variable {x y r : BitVec 64}

/-- The integer part, towards zero. -/
def trunc (q : ℚ) : ℤ := if 0 ≤ q then ⌊q⌋ else ⌈q⌉

theorem trunc_natCast_div (m n : ℕ) : trunc (m / n) = (m / n : ℕ) := by
  unfold trunc
  rw [if_pos (by positivity)]
  exact Rat.floor_natCast_div_natCast m n

theorem trunc_neg (q : ℚ) : trunc (-q) = -trunc q := by
  unfold trunc
  rcases lt_trichotomy q 0 with hq | rfl | hq
  · rw [if_pos (by linarith), if_neg (by linarith), Int.floor_neg]
  · simp
  · rw [if_neg (by linarith), if_pos hq.le, Int.ceil_neg]

/-- The remainder of a division that is truncated towards zero. -/
structure IsRemainder (x y r : BitVec 64) : Prop where
  finite : IsFinite r
  eq : toRat r = toRat x - trunc (toRat x / toRat y) * toRat y
  lt : |toRat r| < |toRat y|
  multiple : ∃ k : ℕ, |toRat x| - |toRat r| = k * |toRat y|
  sign : r.msb = x.msb
  zero : (∃ k : ℤ, toRat x = k * toRat y) → bits r = 0

theorem toRat_eq_zero : toRat x = 0 ↔ bits x = 0 := by
  have hpow : (2 ^ 1074 : ℚ) ≠ 0 := by positivity
  have hsign : (if x.msb then -1 else 1 : ℚ) ≠ 0 := by split <;> norm_num
  unfold toRat
  rw [mul_eq_zero, or_iff_right hsign, div_eq_zero_iff, or_iff_left hpow, Nat.cast_eq_zero,
    mag_eq_zero]

theorem abs_toRat (x : BitVec 64) : |toRat x| = mag (bits x) / 2 ^ 1074 := by
  have hpos : (0 : ℚ) ≤ mag (bits x) / 2 ^ 1074 := by positivity
  unfold toRat
  rw [abs_mul, abs_of_nonneg hpos]
  split <;> simp

theorem trunc_toRat_div (x y : BitVec 64) :
    (trunc (toRat x / toRat y) : ℚ) =
      (if x.msb = y.msb then 1 else -1) * (mag (bits x) / mag (bits y) : ℕ) := by
  have hpow : (2 ^ 1074 : ℚ) ≠ 0 := by positivity
  have hdiv : toRat x / toRat y =
      (if x.msb = y.msb then 1 else -1) * (mag (bits x) / mag (bits y)) := by
    unfold toRat
    cases x.msb <;> cases y.msb <;> simp [div_div_div_cancel_right₀ hpow, neg_div, div_neg]
  rw [hdiv]
  split
  · rw [one_mul, one_mul, trunc_natCast_div, Int.cast_natCast]
  · rw [neg_one_mul, neg_one_mul, trunc_neg, trunc_natCast_div, Int.cast_neg, Int.cast_natCast]

theorem isRemainder_of_hasMag (h : HasMag x.msb (mag (bits x) % mag (bits y)) r)
    (hy : bits y ≠ 0) : IsRemainder x y r := by
  obtain ⟨hr, hsign, hmag⟩ := h
  have hy : 0 < mag (bits y) := Nat.pos_of_ne_zero (mt mag_eq_zero.mp hy)
  have hpow : (0 : ℚ) < 2 ^ 1074 := by positivity
  have hsplit : (mag (bits x) : ℚ) =
      mag (bits y) * (mag (bits x) / mag (bits y) : ℕ) + mag (bits r) := by
    rw [hmag]
    exact_mod_cast (Nat.div_add_mod _ _).symm
  refine ⟨hr, ?_, ?_, ⟨mag (bits x) / mag (bits y), ?_⟩, hsign, ?_⟩
  · rw [trunc_toRat_div]
    unfold toRat
    rw [hsign, hsplit]
    generalize (2 ^ 1074 : ℚ) = c
    cases x.msb <;> cases y.msb <;> simp <;> ring
  · rw [abs_toRat, abs_toRat]
    apply div_lt_div_of_pos_right _ hpow
    rw [hmag]
    exact_mod_cast Nat.mod_lt _ hy
  · rw [abs_toRat, abs_toRat, abs_toRat, hsplit]
    generalize (2 ^ 1074 : ℚ) = c
    ring
  · rintro ⟨k, hk⟩
    have habs : |toRat x| = |(k : ℚ)| * |toRat y| := by
      rw [hk, abs_mul]
    rw [abs_toRat, abs_toRat, ← mul_div_assoc, div_left_inj' hpow.ne'] at habs
    have hdvd : mag (bits x) = k.natAbs * mag (bits y) := by
      have hcast : ((k.natAbs : ℕ) : ℚ) = |(k : ℚ)| := by
        rw [Nat.cast_natAbs, Int.cast_abs]
      rw [← hcast] at habs
      exact_mod_cast habs
    rw [← mag_eq_zero, hmag, hdvd, Nat.mul_mod_left]

end Remainders

end CollectedSources.Machine.Binary64
