import CollectedSources.Machine.Binary64
import CollectedSources.Machine.DoubleWord
import CollectedSources.Machine.Loop
import Mathlib

/-! # The remainder of gon

`fmod` works on the two words of its operands. It brings their fractions to the
same length, subtracts and doubles once for every step between the exponents, and
packs what is left with the sign of the first operand.
-/

namespace CollectedSources.Gon

open Machine Machine.Binary64

section Code

/-- `GET_MSDW`. -/
def msdw (x : BitVec 64) : BitVec 32 := x.extractLsb' 32 32

/-- `GET_LSDW`. -/
def lsdw (x : BitVec 64) : BitVec 32 := x.extractLsb' 0 32

/-- `DW_TO_DBL`. -/
def dwToDbl (h l : BitVec 32) : BitVec 64 := h ++ l

/-- What is returned: a NaN, the quotient of `x * y` with itself, or a pattern. -/
inductive Result
  | nan
  | double (x : BitVec 64)
  deriving DecidableEq, Repr

/-- `Zero[(u32) sx >> 31]`. -/
def zero (sx : BitVec 32) : BitVec 64 := if sx >>> 31 = 0#32 then 0#64 else 0x8000000000000000#64

/-- `for (ix = start; i > 0; i <<= 1) ix -= 1`. -/
def countShifts (fuel : ℕ) (i : BitVec 32) (start : ℤ) : Option ℤ :=
  (whileLoop (fun s : BitVec 32 × ℤ => 0 < s.1.toInt) (fun s => (s.1 <<< 1, s.2 - 1)) fuel
    (i, start)).map Prod.snd

/-- The exponent of `x` and of `y`. -/
def ilogb (fuel : ℕ) (hx lx : BitVec 32) : Option ℤ :=
  if hx.toInt < 0x00100000 then
    if hx = 0#32 then countShifts fuel lx (-1043) else countShifts fuel (hx <<< 11) (-1022)
  else some ((hx.sshiftRight 20).toInt - 1023)

/-- The fraction of `x` and of `y`, shifted to a normal one. -/
def setUp (hx lx : BitVec 32) (ix : ℤ) : BitVec 32 × BitVec 32 :=
  if -1022 ≤ ix then (0x00100000#32 ||| (0x000fffff#32 &&& hx), lx)
  else
    let n := (-1022 - ix).toNat
    if n ≤ 31 then ((hx <<< n) ||| (lx >>> (32 - n)), lx <<< n)
    else (lx <<< (n - 32), 0#32)

/-- The loop `while (n--)`; none if it returns a zero. -/
def align (hy ly : BitVec 32) : ℕ → BitVec 32 → BitVec 32 → Option (BitVec 32 × BitVec 32)
  | 0, hx, lx => some (hx, lx)
  | n + 1, hx, lx =>
    let hz := subHigh hx lx hy ly
    let lz := lx - ly
    if hz.toInt < 0 then align hy ly n (hx + hx + (lx >>> 31)) (lx + lx)
    else if hz ||| lz = 0#32 then none
    else align hy ly n (hz + hz + (lz >>> 31)) (lz + lz)

/-- The last subtraction. -/
def reduce (hy ly hx lx : BitVec 32) : BitVec 32 × BitVec 32 :=
  let hz := subHigh hx lx hy ly
  let lz := lx - ly
  if 0 ≤ hz.toInt then (hz, lz) else (hx, lx)

/-- The loop that normalizes `x`. -/
def normalize (fuel : ℕ) (hx lx : BitVec 32) (iy : ℤ) : Option (BitVec 32 × BitVec 32 × ℤ) :=
  whileLoop (fun s : BitVec 32 × BitVec 32 × ℤ => s.1.toInt < 0x00100000)
    (fun s => (s.1 + s.1 + (s.2.1 >>> 31), s.2.1 + s.2.1, s.2.2 - 1)) fuel (hx, lx, iy)

/-- The conversion back to a floating value, with the sign. The product with `one` that follows for
a subnormal value does not change it. -/
def pack (sx hx lx : BitVec 32) (iy : ℤ) : BitVec 64 :=
  if -1022 ≤ iy then
    dwToDbl (((hx - 0x00100000#32) ||| (BitVec.ofInt 32 (iy + 1023) <<< 20)) ||| sx) lx
  else
    let n := (-1022 - iy).toNat
    if n ≤ 20 then dwToDbl (hx.sshiftRight n ||| sx) ((lx >>> n) ||| (hx <<< (32 - n)))
    else if n ≤ 31 then dwToDbl (sx ||| sx) ((hx <<< (32 - n)) ||| (lx >>> n))
    else dwToDbl (sx ||| sx) (hx.sshiftRight (n - 32))

/-- The fixed point remainder and its conversion. -/
def fixPoint (fuel n : ℕ) (sx hx lx hy ly : BitVec 32) (iy : ℤ) : Option (BitVec 64) :=
  match align hy ly n hx lx with
  | none => some (zero sx)
  | some (hx, lx) =>
    let (hx, lx) := reduce hy ly hx lx
    if hx ||| lx = 0#32 then some (zero sx)
    else (normalize fuel hx lx iy).map fun (hx, lx, iy) => pack sx hx lx iy

/-- What follows when `x` is above `y`, with the signs taken off. The counter of `while (n--)` is
an `int` that ends at zero. -/
def shiftAndSubtract (fuel : ℕ) (sx hx lx hy ly : BitVec 32) : Option (BitVec 64) :=
  (ilogb fuel hx lx).bind fun ix => (ilogb fuel hy ly).bind fun iy =>
    let x := setUp hx lx ix
    let y := setUp hy ly iy
    fixPoint fuel ((ix - iy) % 2 ^ 32).toNat sx x.1 x.2 y.1 y.2 iy

def fmod (fuel : ℕ) (x y : BitVec 64) : Option Result :=
  let lx := lsdw x
  let ly := lsdw y
  let sx := msdw x &&& 0x80000000#32
  let hx := msdw x ^^^ sx
  let hy := msdw y &&& 0x7fffffff#32
  if hy ||| ly = 0#32 ∨ 0x7ff00000 ≤ hx.toInt ∨
      0x7ff00000#32 < hy ||| ((ly ||| -ly) >>> 31) then some .nan
  else if hx.toInt ≤ hy.toInt ∧ (hx.toInt < hy.toInt ∨ lx < ly) then some (.double x)
  else if hx.toInt ≤ hy.toInt ∧ lx = ly then some (.double (zero sx))
  else (shiftAndSubtract fuel sx hx lx hy ly).map .double

end Code

theorem high_lt {h l : BitVec 32} (hlt : wide h l < 2 ^ 53) : h.toNat < 2 ^ 21 := by
  unfold wide at hlt
  omega

section Exponents

variable {hx lx : BitVec 32} {fuel : ℕ}

/-- What holds while a word is shifted to its highest bit. -/
structure Shifted (k : ℤ) (s : BitVec 32 × ℤ) : Prop where
  ne : s.1.toNat ≠ 0
  sum : s.2 + s.1.toNat.log2 = k

theorem Shifted.step {k : ℤ} {s : BitVec 32 × ℤ} (h : Shifted k s)
    (hcond : decide (0 < s.1.toInt) = true) :
    Shifted k (s.1 <<< 1, s.2 - 1) ∧ 31 - (s.1 <<< 1).toNat.log2 < 31 - s.1.toNat.log2 := by
  have hlt : s.1.toNat < 2 ^ 31 := by
    by_contra hge
    have := (toInt_neg_iff s.1).mpr (by omega)
    have := of_decide_eq_true hcond
    omega
  have hlog : s.1.toNat.log2 < 31 := (Nat.log2_lt h.ne).mpr hlt
  have hdouble : (s.1 <<< 1).toNat = 2 * s.1.toNat := by
    rw [toNat_shiftLeft]
    omega
  have hsucc : (s.1 <<< 1).toNat.log2 = s.1.toNat.log2 + 1 := by
    rw [hdouble, Nat.log2_two_mul h.ne]
  have hne := h.ne
  have hsum := h.sum
  refine ⟨⟨?_, ?_⟩, by omega⟩
  · dsimp only
    omega
  · dsimp only
    omega

theorem countShifts_eq {i : BitVec 32} (hi : i.toNat ≠ 0) (start : ℤ) (hfuel : 64 ≤ fuel) :
    countShifts fuel i start = some (start + i.toNat.log2 - 31) := by
  have hstart : Shifted (start + i.toNat.log2) (i, start) := ⟨hi, rfl⟩
  obtain ⟨s, hrun, h, hend⟩ := whileLoop_ends (fun s : BitVec 32 × ℤ => 31 - s.1.toNat.log2)
    (fun _ h hcond => h.step hcond) hstart
  have hge : 2 ^ 31 ≤ s.1.toNat := by
    rw [← toInt_neg_iff]
    have := of_decide_eq_false hend
    have hne := h.ne
    rw [BitVec.toInt_eq_toNat_cond] at this ⊢
    split at this <;> omega
  have hlog : s.1.toNat.log2 = 31 := (Nat.log2_eq_iff h.ne).mpr ⟨hge, s.1.isLt⟩
  have hsum := h.sum
  unfold countShifts
  rw [hrun fuel (by omega), Option.map_some]
  congr 1
  omega

theorem ilogb_eq (hlt : hx.toNat < 2 ^ 31) (hne : wide hx lx ≠ 0) (hfuel : 64 ≤ fuel) :
    ilogb fuel hx lx = some ((mag (wide hx lx)).log2 - 1074 : ℤ) := by
  have hl := lx.isLt
  unfold ilogb
  rw [toInt_eq_toNat hlt]
  split
  · rename_i hsmall
    have hmag : mag (wide hx lx) = wide hx lx := by
      apply mag_of_lt
      unfold wide
      omega
    rw [hmag]
    split
    · rename_i hzero
      subst hzero
      have hwide : wide 0#32 lx = lx.toNat := by simp [wide]
      rw [hwide] at hne ⊢
      rw [countShifts_eq hne _ hfuel]
      congr 1
      omega
    · rename_i hpos
      have hx0 : hx.toNat ≠ 0 := fun h => hpos (BitVec.eq_of_toNat_eq h)
      have hshift : (hx <<< 11).toNat = hx.toNat * 2 ^ 11 + 0 := by
        rw [toNat_shiftLeft]
        omega
      rw [countShifts_eq (by omega) _ hfuel, hshift, log2_mul_two_pow_add hx0 (by norm_num)]
      unfold wide
      rw [log2_mul_two_pow_add hx0 hl]
      congr 1
      push_cast
      omega
  · rename_i hbig
    have hge : 2 ^ 52 ≤ wide hx lx := by
      unfold wide
      omega
    rw [log2_mag hge, sshiftRight_eq hlt, toInt_eq_toNat]
    · rw [toNat_shiftRight]
      congr 1
      unfold wide
      omega
    · rw [toNat_shiftRight]
      omega

end Exponents

section Fractions

variable {hx lx : BitVec 32}

theorem wide_normal (hx lx : BitVec 32) :
    wide (0x00100000#32 ||| (0x000fffff#32 &&& hx)) lx = 2 ^ 52 + wide hx lx % 2 ^ 52 := by
  have hl := lx.isLt
  have hlow : hx.toNat % 2 ^ 20 < 2 ^ 20 := Nat.mod_lt _ (by norm_num)
  have hand : 0x000fffff &&& hx.toNat = hx.toNat % 2 ^ 20 := by
    rw [Nat.and_comm]
    exact Nat.and_two_pow_sub_one_eq_mod hx.toNat 20
  have hor : 1 * 2 ^ 20 ||| hx.toNat % 2 ^ 20 = 1 * 2 ^ 20 + hx.toNat % 2 ^ 20 :=
    mul_two_pow_or hlow
  have hhigh : (0x00100000#32 ||| (0x000fffff#32 &&& hx)).toNat = 2 ^ 20 + hx.toNat % 2 ^ 20 := by
    rw [BitVec.toNat_or, BitVec.toNat_and]
    change 1 * 2 ^ 20 ||| 0x000fffff &&& hx.toNat = _
    rw [hand, hor, Nat.one_mul]
  unfold wide
  rw [hhigh]
  omega

theorem wide_setUp_subnormal (hne : wide hx lx ≠ 0) (hlt : wide hx lx < 2 ^ 52) :
    wide (setUp hx lx ((wide hx lx).log2 - 1074)).1 (setUp hx lx ((wide hx lx).log2 - 1074)).2 =
      wide hx lx * 2 ^ (52 - (wide hx lx).log2) := by
  have hl := lx.isLt
  have hlog : (wide hx lx).log2 < 52 := (Nat.log2_lt hne).mpr hlt
  obtain ⟨n, hn⟩ : ∃ n, n = 52 - (wide hx lx).log2 := ⟨_, rfl⟩
  have hn' : (-1022 - ((wide hx lx).log2 - 1074 : ℤ)).toNat = n := by omega
  have hbound : wide hx lx * 2 ^ n < 2 ^ 53 := by
    have hpow : 2 ^ ((wide hx lx).log2 + 1) * 2 ^ n = 2 ^ 53 := by
      rw [← pow_add]
      congr 1
      omega
    rw [← hpow]
    exact Nat.mul_lt_mul_of_pos_right Nat.lt_log2_self (Nat.two_pow_pos n)
  unfold setUp
  rw [if_neg (by omega), hn', ← hn]
  dsimp only
  split
  · exact wide_shiftLeft (by omega) (by omega)
  · have hlow : wide hx lx = lx.toNat := by
      have hsmall : wide hx lx < 2 ^ 32 := by
        rw [← Nat.log2_lt hne]
        omega
      unfold wide at hsmall ⊢
      omega
    rw [hlow] at hbound ⊢
    exact wide_shiftLeft_low (by omega) (by omega)

theorem wide_setUp (hne : wide hx lx ≠ 0) :
    wide (setUp hx lx ((mag (wide hx lx)).log2 - 1074)).1
        (setUp hx lx ((mag (wide hx lx)).log2 - 1074)).2 * 2 ^ (mag (wide hx lx)).log2 =
      mag (wide hx lx) * 2 ^ 52 := by
  by_cases hnormal : 2 ^ 52 ≤ wide hx lx
  · have hexp : 2 ^ (51 + wide hx lx / 2 ^ 52) = 2 ^ 52 * 2 ^ (wide hx lx / 2 ^ 52 - 1) := by
      rw [← pow_add]
      congr 1
      omega
    unfold setUp
    rw [log2_mag hnormal, if_pos (by omega), mag_of_le hnormal]
    dsimp only
    rw [wide_normal, hexp]
    ring
  · have hlt : wide hx lx < 2 ^ 52 := by omega
    have hlog : (wide hx lx).log2 < 52 := (Nat.log2_lt hne).mpr hlt
    rw [mag_of_lt hlt, wide_setUp_subnormal hne hlt, Nat.mul_assoc, two_pow_sub_mul hlog.le]

end Fractions

section Subtractions

variable {hx lx hy ly : BitVec 32}

theorem sign_subHigh (hY : wide hy ly < 2 ^ 53) (hA : wide hx lx < 2 * wide hy ly) :
    (subHigh hx lx hy ly).toInt < 0 ↔ wide hx lx < wide hy ly := by
  have hhy := high_lt hY
  have hhx : hx.toNat < 2 ^ 22 := by
    unfold wide at hY hA
    omega
  exact subHigh_neg_iff (by omega) (by omega)

theorem wide_reduce (hY : wide hy ly < 2 ^ 53) (hA : wide hx lx < 2 * wide hy ly) :
    wide (reduce hy ly hx lx).1 (reduce hy ly hx lx).2 = wide hx lx % wide hy ly := by
  have hneg := sign_subHigh hY hA
  unfold reduce
  dsimp only
  split
  · rename_i hnonneg
    have hle : wide hy ly ≤ wide hx lx := by
      by_contra hlt
      have := hneg.mpr (by omega)
      omega
    rw [wide_sub hle, Nat.mod_eq_sub_mod hle, Nat.mod_eq_of_lt (by omega)]
  · rename_i hlt
    rw [Nat.mod_eq_of_lt (hneg.mp (by omega))]

theorem align_mod (hY : wide hy ly < 2 ^ 53) (n : ℕ) (hA : wide hx lx < 2 * wide hy ly) :
    (align hy ly n hx lx = none ∧ wide hx lx * 2 ^ n % wide hy ly = 0) ∨
      ∃ hz lz, align hy ly n hx lx = some (hz, lz) ∧ wide hz lz < 2 * wide hy ly ∧
        wide hz lz % wide hy ly = wide hx lx * 2 ^ n % wide hy ly := by
  induction n generalizing hx lx with
  | zero => exact .inr ⟨hx, lx, rfl, hA, by rw [pow_zero, Nat.mul_one]⟩
  | succ n ih =>
    have hnext (h l : BitVec 32) (hlt : wide h l < wide hy ly) :
        (align hy ly n (h + h + (l >>> 31)) (l + l) = none ∧
          wide h l * 2 ^ (n + 1) % wide hy ly = 0) ∨
        ∃ hz lz, align hy ly n (h + h + (l >>> 31)) (l + l) = some (hz, lz) ∧
          wide hz lz < 2 * wide hy ly ∧
          wide hz lz % wide hy ly = wide h l * 2 ^ (n + 1) % wide hy ly := by
      have hhigh := high_lt (hlt.trans hY)
      have hdouble : wide (h + h + (l >>> 31)) (l + l) = 2 * wide h l :=
        wide_double (by omega)
      have hstep := @ih (h + h + (l >>> 31)) (l + l) (by omega)
      rwa [hdouble, Nat.mul_comm 2, Nat.mul_assoc, ← pow_succ'] at hstep
    have hneg := sign_subHigh hY hA
    unfold align
    dsimp only
    by_cases hlt : wide hx lx < wide hy ly
    · rw [if_pos (hneg.mpr hlt)]
      exact hnext hx lx hlt
    · rw [if_neg (mt hneg.mp hlt)]
      have hsub : wide (subHigh hx lx hy ly) (lx - ly) = wide hx lx - wide hy ly :=
        wide_sub (by omega)
      have hmod (k : ℕ) : wide (subHigh hx lx hy ly) (lx - ly) * k % wide hy ly =
          wide hx lx * k % wide hy ly := by
        rw [hsub, Nat.mul_mod, ← Nat.mod_eq_sub_mod (by omega), ← Nat.mul_mod]
      by_cases hzero : subHigh hx lx hy ly ||| (lx - ly) = 0#32
      · rw [if_pos hzero]
        refine .inl ⟨rfl, ?_⟩
        rw [← hmod, wide_eq_zero.mpr hzero, Nat.zero_mul, Nat.zero_mod]
      · rw [if_neg hzero, ← hmod]
        exact hnext _ _ (by omega)

end Subtractions

section Results

variable {hx lx : BitVec 32} {iy : ℤ} {fuel : ℕ}

/-- What holds while a fraction is doubled, up to the place of its highest bit. -/
structure Doubled (r : ℕ) (s : BitVec 32 × BitVec 32 × ℤ) : Prop where
  ne : wide s.1 s.2.1 ≠ 0
  lt : wide s.1 s.2.1 < 2 ^ 53
  le : -1074 ≤ s.2.2
  eq : wide s.1 s.2.1 * 2 ^ (s.2.2 + 1074).toNat = r * 2 ^ 52

theorem Doubled.step {r : ℕ} {s : BitVec 32 × BitVec 32 × ℤ} (h : Doubled r s)
    (hcond : decide (s.1.toInt < 0x00100000) = true) :
    Doubled r (s.1 + s.1 + (s.2.1 >>> 31), s.2.1 + s.2.1, s.2.2 - 1) ∧
      52 - (wide (s.1 + s.1 + (s.2.1 >>> 31)) (s.2.1 + s.2.1)).log2 <
        52 - (wide s.1 s.2.1).log2 := by
  obtain ⟨hne, hlt, hle, heq⟩ := h
  have hhigh := high_lt hlt
  have hsmall : wide s.1 s.2.1 < 2 ^ 52 := by
    have := of_decide_eq_true hcond
    rw [toInt_eq_toNat (by omega)] at this
    have := s.2.1.isLt
    unfold wide
    omega
  have hlog : (wide s.1 s.2.1).log2 < 52 := (Nat.log2_lt hne).mpr hsmall
  have hdouble : wide (s.1 + s.1 + (s.2.1 >>> 31)) (s.2.1 + s.2.1) = 2 * wide s.1 s.2.1 :=
    wide_double (by omega)
  have hexp : 0 < (s.2.2 + 1074).toNat := by
    by_contra hzero
    rw [Nat.eq_zero_of_not_pos hzero, pow_zero, Nat.mul_one] at heq
    omega
  refine ⟨⟨?_, ?_, ?_, ?_⟩, ?_⟩
  · dsimp only
    omega
  · dsimp only
    omega
  · dsimp only
    omega
  · dsimp only
    have hpred : (s.2.2 - 1 + 1074).toNat + 1 = (s.2.2 + 1074).toNat := by omega
    rw [hdouble, ← heq, ← hpred, pow_succ]
    ring
  · rw [hdouble, Nat.log2_two_mul hne]
    omega

theorem normalize_ends {r : ℕ} (h : Doubled r (hx, lx, iy)) :
    ∃ hz lz iz, (∀ fuel, 64 ≤ fuel → normalize fuel hx lx iy = some (hz, lz, iz)) ∧
      Doubled r (hz, lz, iz) ∧ 2 ^ 52 ≤ wide hz lz := by
  obtain ⟨⟨hz, lz, iz⟩, hrun, h', hend⟩ := whileLoop_ends
    (fun s : BitVec 32 × BitVec 32 × ℤ => 52 - (wide s.1 s.2.1).log2)
    (fun _ h hcond => h.step hcond) h
  refine ⟨hz, lz, iz, fun fuel hfuel => hrun fuel (by omega), h', ?_⟩
  have hhigh := high_lt h'.lt
  have hge := of_decide_eq_false hend
  dsimp only at hhigh hge
  rw [toInt_eq_toNat (by omega)] at hge
  unfold wide
  omega

/-- The sign bit, `sx`. -/
def signWord (s : Bool) : BitVec 32 := if s then 0x80000000#32 else 0#32

theorem toNat_dwToDbl {h l : BitVec 32} (hh : h.toNat < 2 ^ 31) (s : Bool) :
    (dwToDbl (h ||| signWord s) l).toNat = wide h l + (if s then 2 ^ 63 else 0) := by
  have hhigh : (h ||| signWord s).toNat = h.toNat + (if s then 2 ^ 31 else 0) := by
    cases s with
    | false => simp [signWord]
    | true =>
      have hor : 1 * 2 ^ 31 ||| h.toNat = 1 * 2 ^ 31 + h.toNat := mul_two_pow_or hh
      rw [BitVec.toNat_or, Nat.lor_comm]
      change 1 * 2 ^ 31 ||| h.toNat = h.toNat + 2 ^ 31
      omega
  unfold dwToDbl wide
  rw [BitVec.toNat_append, Nat.shiftLeft_eq, mul_two_pow_or l.isLt, hhigh]
  split <;> omega

theorem bits_dwToDbl {h l : BitVec 32} (hh : h.toNat < 2 ^ 31) (s : Bool) :
    bits (dwToDbl (h ||| signWord s) l) = wide h l := by
  have hl := l.isLt
  unfold bits
  rw [toNat_dwToDbl hh]
  unfold wide
  split <;> omega

theorem msb_dwToDbl {h l : BitVec 32} (hh : h.toNat < 2 ^ 31) (s : Bool) :
    (dwToDbl (h ||| signWord s) l).msb = s := by
  have hl := l.isLt
  rw [BitVec.msb_eq_decide, toNat_dwToDbl hh]
  unfold wide
  cases s with
  | false => simpa using (by omega : h.toNat * 2 ^ 32 + l.toNat < 2 ^ 63)
  | true => simp

theorem hasMag_dwToDbl {h l : BitVec 32} {r : ℕ} (hh : h.toNat < 2 ^ 31)
    (hmag : mag (wide h l) = r) (hfin : wide h l < 0x7ff * 2 ^ 52) (s : Bool) :
    HasMag s r (dwToDbl (h ||| signWord s) l) := by
  refine ⟨?_, msb_dwToDbl hh s, ?_⟩
  · unfold IsFinite
    rwa [bits_dwToDbl hh]
  · rw [bits_dwToDbl hh, hmag]

theorem hasMag_zero (s : Bool) : HasMag s 0 (zero (signWord s)) := by
  have hzero : zero (signWord s) = dwToDbl (0#32 ||| signWord s) 0#32 := by
    cases s <;> decide
  rw [hzero]
  have hwide : wide 0#32 0#32 = 0 := by simp [wide]
  refine hasMag_dwToDbl (by norm_num) ?_ ?_ s
  · rw [hwide, mag_eq_zero]
  · rw [hwide]
    norm_num

theorem pack_normal {r : ℕ} (h : Doubled r (hx, lx, iy)) (hge : 2 ^ 52 ≤ wide hx lx)
    (hiy : -1022 ≤ iy) (hmax : iy ≤ 1023) (s : Bool) :
    HasMag s r (pack (signWord s) hx lx iy) := by
  have hl := lx.isLt
  have hlt := h.lt
  have heq := h.eq
  dsimp only at hlt heq
  have hhigh := high_lt hlt
  have hhigh' : 2 ^ 20 ≤ hx.toNat := by
    unfold wide at hge
    omega
  obtain ⟨e, he⟩ : ∃ e : ℕ, (e : ℤ) = iy + 1023 := ⟨(iy + 1023).toNat, by omega⟩
  have hsub : (hx - 0x00100000#32).toNat = hx.toNat - 2 ^ 20 := by
    rw [BitVec.toNat_sub]
    simp only [BitVec.toNat_ofNat]
    omega
  have hexp : (BitVec.ofInt 32 (iy + 1023) <<< 20).toNat = e * 2 ^ 20 := by
    rw [← he, BitVec.ofInt_natCast, toNat_shiftLeft, BitVec.toNat_ofNat]
    omega
  have hor : ((hx - 0x00100000#32) ||| (BitVec.ofInt 32 (iy + 1023) <<< 20)).toNat =
      e * 2 ^ 20 + (hx.toNat - 2 ^ 20) := by
    rw [BitVec.toNat_or, Nat.lor_comm, hsub, hexp, mul_two_pow_or (by omega)]
  have hwide : wide ((hx - 0x00100000#32) ||| (BitVec.ofInt 32 (iy + 1023) <<< 20)) lx =
      e * 2 ^ 52 + (wide hx lx - 2 ^ 52) := by
    unfold wide
    rw [hor]
    omega
  unfold pack
  rw [if_pos hiy]
  refine hasMag_dwToDbl (by omega) ?_ (by omega) s
  rw [hwide, mag_of_le (by omega), show (e * 2 ^ 52 + (wide hx lx - 2 ^ 52)) / 2 ^ 52 = e by omega,
    show 2 ^ 52 + (e * 2 ^ 52 + (wide hx lx - 2 ^ 52)) % 2 ^ 52 = wide hx lx by omega]
  rw [show (iy + 1074).toNat = e - 1 + 52 by omega, pow_add, ← Nat.mul_assoc] at heq
  exact Nat.eq_of_mul_eq_mul_right (by norm_num) heq

theorem pack_subnormal {r : ℕ} (h : Doubled r (hx, lx, iy)) (hiy : iy < -1022) (s : Bool) :
    HasMag s r (pack (signWord s) hx lx iy) := by
  obtain ⟨-, hlt, hle, heq⟩ := h
  dsimp only at hlt hle heq
  obtain ⟨n, hn⟩ : ∃ n : ℕ, (n : ℤ) = -1022 - iy := ⟨(-1022 - iy).toNat, by omega⟩
  have hhigh := high_lt hlt
  -- the bits that are shifted out are zero
  have hexact : wide hx lx / 2 ^ n = r := by
    have hpow : 2 ^ 52 = 2 ^ n * 2 ^ (iy + 1074).toNat := by
      rw [← pow_add]
      congr 1
      omega
    rw [hpow, ← Nat.mul_assoc] at heq
    rw [Nat.eq_of_mul_eq_mul_right (Nat.two_pow_pos _) heq]
    exact Nat.mul_div_cancel _ (Nat.two_pow_pos n)
  have hr : r < 2 ^ 52 := by
    have htwo : 2 ^ 1 ≤ 2 ^ n := Nat.pow_le_pow_right (by norm_num) (by omega)
    rw [← hexact, Nat.div_lt_iff_lt_mul (Nat.two_pow_pos n)]
    omega
  have hpacked {hz lz : BitVec 32} (hhz : hz.toNat < 2 ^ 31) (hwide : wide hz lz = r) :
      HasMag s r (dwToDbl (hz ||| signWord s) lz) :=
    hasMag_dwToDbl hhz (by rw [hwide, mag_of_lt hr]) (by omega) s
  unfold pack
  rw [if_neg (by omega), show (-1022 - iy).toNat = n by omega]
  simp only [BitVec.or_self, sshiftRight_eq (show hx.toNat < 2 ^ 31 by omega)]
  split
  · apply hpacked
    · rw [toNat_shiftRight]
      have := Nat.div_le_self hx.toNat (2 ^ n)
      omega
    · rw [wide_shiftRight (by omega), hexact]
  · rw [← BitVec.zero_or (x := signWord s)]
    split
    · have hzero : hx >>> n = 0#32 := by
        apply BitVec.eq_of_toNat_eq
        have : 2 ^ 21 ≤ 2 ^ n := Nat.pow_le_pow_right (by norm_num) (by omega)
        rw [toNat_shiftRight, Nat.div_eq_of_lt (by omega)]
        rfl
      apply hpacked (by norm_num)
      rw [BitVec.or_comm, ← hzero, wide_shiftRight (by omega), hexact]
    · apply hpacked (by norm_num)
      rw [wide_shiftRight_high (l := lx) (by omega), hexact]

theorem normalize_pack {r : ℕ} (h : Doubled r (hx, lx, iy)) (hr : r.log2 < 2098) (s : Bool) :
    ∃ z, (∀ fuel, 64 ≤ fuel → (normalize fuel hx lx iy).map
        (fun t => pack (signWord s) t.1 t.2.1 t.2.2) = some z) ∧ HasMag s r z := by
  obtain ⟨hn, ln, iz, hrun, h', hge⟩ := normalize_ends h
  have hmax : iz ≤ 1023 := by
    have heq := h'.eq
    dsimp only at heq
    have hle : 2 ^ 52 * 2 ^ (iz + 1074).toNat ≤ 2 ^ 52 * r := by
      rw [Nat.mul_comm _ r, ← heq]
      exact Nat.mul_le_mul_right _ hge
    have hpow : 2 ^ (iz + 1074).toNat ≤ r := Nat.le_of_mul_le_mul_left hle (by norm_num)
    have hr0 : r ≠ 0 := (Nat.lt_of_lt_of_le (Nat.two_pow_pos _) hpow).ne'
    have := (Nat.le_log2 hr0).mpr hpow
    omega
  refine ⟨pack (signWord s) hn ln iz, fun fuel hfuel => ?_, ?_⟩
  · rw [hrun fuel hfuel, Option.map_some]
  · by_cases hiz : -1022 ≤ iz
    · exact pack_normal h' hge hiz hmax s
    · exact pack_subnormal h' (by omega) s

theorem fixPoint_mod {hy ly : BitVec 32} {n ey r : ℕ} (hA : wide hx lx < 2 * wide hy ly)
    (hY : wide hy ly < 2 ^ 53) (hr : r.log2 < 2098)
    (heq : wide hx lx * 2 ^ n % wide hy ly * 2 ^ ey = r * 2 ^ 52) (s : Bool) :
    ∃ z, (∀ fuel, 64 ≤ fuel → fixPoint fuel n (signWord s) hx lx hy ly (ey - 1074) = some z) ∧
      HasMag s r z := by
  have hzero (h : wide hx lx * 2 ^ n % wide hy ly = 0) : HasMag s r (zero (signWord s)) := by
    rw [h, Nat.zero_mul] at heq
    obtain rfl : r = 0 := by omega
    exact hasMag_zero s
  unfold fixPoint
  rcases align_mod hY n hA with ⟨halign, hmod⟩ | ⟨hz, lz, halign, hlt, hmod⟩
  · rw [halign]
    exact ⟨_, fun _ _ => rfl, hzero hmod⟩
  · rw [halign]
    dsimp only
    have hred := wide_reduce hY hlt
    by_cases hnil : (reduce hy ly hz lz).1 ||| (reduce hy ly hz lz).2 = 0#32
    · simp only [if_pos hnil]
      refine ⟨_, fun _ _ => rfl, hzero ?_⟩
      rw [← hmod, ← hred, wide_eq_zero.mpr hnil]
    · simp only [if_neg hnil]
      refine normalize_pack ⟨mt wide_eq_zero.mp hnil, ?_, ?_, ?_⟩ hr s
      · have hlt := Nat.mod_lt (wide hz lz) (show 0 < wide hy ly by omega)
        rw [← hred] at hlt
        exact hlt.trans hY
      · dsimp only
        omega
      · dsimp only
        rw [hred, hmod, show ((ey : ℤ) - 1074 + 1074).toNat = ey by omega, heq]

end Results

section Remainder

variable {hx lx hy ly : BitVec 32} {x y : BitVec 64}

theorem fraction_bounds {m M : ℕ} (hm : m ≠ 0) (h : M * 2 ^ m.log2 = m * 2 ^ 52) :
    2 ^ 52 ≤ M ∧ M < 2 ^ 53 := by
  have hpos := Nat.two_pow_pos m.log2
  constructor
  · apply Nat.le_of_mul_le_mul_right _ hpos
    rw [h, Nat.mul_comm]
    exact Nat.mul_le_mul_right _ (Nat.log2_self_le hm)
  · apply Nat.lt_of_mul_lt_mul_right (a := 2 ^ m.log2)
    calc M * 2 ^ m.log2 = m * 2 ^ 52 := h
      _ < 2 ^ (m.log2 + 1) * 2 ^ 52 := Nat.mul_lt_mul_of_pos_right Nat.lt_log2_self (by norm_num)
      _ = 2 ^ 53 * 2 ^ m.log2 := by ring

theorem mod_of_fractions {X Y M N ex ey : ℕ} (hX : M * 2 ^ ex = X * 2 ^ 52)
    (hY : N * 2 ^ ey = Y * 2 ^ 52) (hle : ey ≤ ex) :
    M * 2 ^ (ex - ey) % N * 2 ^ ey = X % Y * 2 ^ 52 := by
  rw [← Nat.mul_mod_mul_right, ← Nat.mul_mod_mul_right, Nat.mul_assoc, two_pow_sub_mul hle, hX, hY]

theorem log2_mag_lt {a : ℕ} (hne : a ≠ 0) (ha : a < 0x7ff * 2 ^ 52) : (mag a).log2 < 2098 := by
  by_cases hnormal : 2 ^ 52 ≤ a
  · rw [log2_mag hnormal]
    omega
  · have hlt : a < 2 ^ 52 := by omega
    have := (Nat.log2_lt hne).mpr hlt
    rw [mag_of_lt hlt]
    omega

theorem log2_le_log2 {m n : ℕ} (h : m ≤ n) : m.log2 ≤ n.log2 := by
  by_cases hm : m = 0
  · rw [hm, Nat.log2_zero]
    exact Nat.zero_le _
  · exact (Nat.le_log2 (by omega)).mpr ((Nat.log2_self_le hm).trans h)

theorem rounds_eq {m n : ℕ} (hle : m ≤ n) (hlt : n < 2098) :
    (((n - 1074 : ℤ) - (m - 1074)) % 2 ^ 32).toNat = n - m := by
  rw [sub_sub_sub_cancel_right, ← Nat.cast_sub hle, Int.emod_eq_of_lt, Int.toNat_natCast]
  · exact Int.natCast_nonneg _
  · norm_num
    omega

theorem shiftAndSubtract_mod (hhx : hx.toNat < 2 ^ 31) (hhy : hy.toNat < 2 ^ 31)
    (hfin : wide hx lx < 0x7ff * 2 ^ 52) (hy0 : wide hy ly ≠ 0) (hle : wide hy ly ≤ wide hx lx)
    (s : Bool) :
    ∃ z, (∀ fuel, 64 ≤ fuel → shiftAndSubtract fuel (signWord s) hx lx hy ly = some z) ∧
      HasMag s (mag (wide hx lx) % mag (wide hy ly)) z := by
  have hx0 : wide hx lx ≠ 0 := by omega
  have hX0 := mt mag_eq_zero.mp hx0
  have hY0 := mt mag_eq_zero.mp hy0
  have hXY : mag (wide hy ly) ≤ mag (wide hx lx) := mag_strictMono.monotone hle
  have hlogs := log2_le_log2 hXY
  have hlogX := log2_mag_lt hx0 hfin
  have hfx := wide_setUp hx0
  have hfy := wide_setUp hy0
  obtain ⟨-, hbx⟩ := fraction_bounds hX0 hfx
  obtain ⟨hby, hby'⟩ := fraction_bounds hY0 hfy
  have hr : (mag (wide hx lx) % mag (wide hy ly)).log2 < 2098 :=
    (log2_le_log2 (Nat.mod_le _ _)).trans_lt hlogX
  obtain ⟨z, hrun, hz⟩ := fixPoint_mod (by omega) hby' hr (mod_of_fractions hfx hfy hlogs) s
  refine ⟨z, fun fuel hfuel => ?_, hz⟩
  unfold shiftAndSubtract
  rw [ilogb_eq hhx hx0 hfuel, ilogb_eq hhy hy0 hfuel, Option.bind_some, Option.bind_some]
  dsimp only
  rw [rounds_eq hlogs hlogX]
  exact hrun fuel hfuel

theorem wide_bits (x : BitVec 64) : wide (msdw x &&& 0x7fffffff#32) (lsdw x) = bits x := by
  have hlt := x.isLt
  have hhigh : (msdw x &&& 0x7fffffff#32).toNat = x.toNat / 2 ^ 32 % 2 ^ 31 := by
    have hand : (msdw x).toNat &&& 0x7fffffff = (msdw x).toNat % 2 ^ 31 :=
      Nat.and_two_pow_sub_one_eq_mod (msdw x).toNat 31
    have hmsdw : (msdw x).toNat = x.toNat / 2 ^ 32 := by
      unfold msdw
      rw [BitVec.extractLsb'_toNat, Nat.shiftRight_eq_div_pow]
      omega
    rw [BitVec.toNat_and, ← hmsdw, ← hand]
    rfl
  have hlow : (lsdw x).toNat = x.toNat % 2 ^ 32 := by
    unfold lsdw
    rw [BitVec.extractLsb'_toNat, Nat.shiftRight_zero]
  unfold wide bits
  rw [hhigh, hlow]
  omega

theorem signWord_msb (x : BitVec 64) : msdw x &&& 0x80000000#32 = signWord x.msb := by
  have hmsb : (msdw x).toNat.testBit 31 = x.msb := by
    rw [BitVec.testBit_toNat, BitVec.msb_eq_getLsbD_last]
    unfold msdw
    simp
  have hand : (msdw x).toNat &&& 2 ^ 31 = x.msb.toNat * 2 ^ 31 := by
    rw [Nat.and_two_pow, hmsb]
  apply BitVec.eq_of_toNat_eq
  rw [BitVec.toNat_and]
  change (msdw x).toNat &&& 2 ^ 31 = _
  rw [hand]
  cases x.msb <;> rfl

theorem xor_sign (w : BitVec 32) : w ^^^ (w &&& 0x80000000#32) = w &&& 0x7fffffff#32 := by
  have hnot : (0x7fffffff#32 : BitVec 32) = ~~~0x80000000#32 := by decide
  rw [hnot]
  ext i
  simp only [BitVec.getElem_xor, BitVec.getElem_and, BitVec.getElem_not]
  cases w[i] <;> simp

theorem not_nan {hy ly : BitVec 32} (hhy : hy.toNat < 0x7ff00000) :
    ¬ 0x7ff00000#32 < hy ||| ((ly ||| -ly) >>> 31) := by
  have hbit : (((ly ||| -ly) >>> 31).toNat) < 2 ^ 20 := by
    rw [toNat_shiftRight]
    have := (ly ||| -ly).isLt
    omega
  have hor : (hy.toNat ||| ((ly ||| -ly) >>> 31).toNat) / 2 ^ 20 = hy.toNat / 2 ^ 20 := by
    rw [Nat.or_div_two_pow, Nat.div_eq_of_lt hbit, Nat.or_zero]
  rw [BitVec.lt_def, BitVec.toNat_or]
  simp only [BitVec.toNat_ofNat]
  omega

theorem wide_lt_iff (hhx : hx.toNat < 2 ^ 31) (hhy : hy.toNat < 2 ^ 31) :
    hx.toInt ≤ hy.toInt ∧ (hx.toInt < hy.toInt ∨ lx < ly) ↔ wide hx lx < wide hy ly := by
  have := lx.isLt
  have := ly.isLt
  rw [toInt_eq_toNat hhx, toInt_eq_toNat hhy, BitVec.lt_def]
  unfold wide
  omega

theorem wide_eq_of_le (hhx : hx.toNat < 2 ^ 31) (hhy : hy.toNat < 2 ^ 31)
    (hge : wide hy ly ≤ wide hx lx) :
    hx.toInt ≤ hy.toInt ∧ lx = ly ↔ wide hx lx = wide hy ly := by
  have := lx.isLt
  have := ly.isLt
  rw [toInt_eq_toNat hhx, toInt_eq_toNat hhy, BitVec.toNat_eq]
  unfold wide at hge ⊢
  omega

theorem fmod_mod (hx : IsFinite x) (hy : IsFinite y) (hy0 : bits y ≠ 0) :
    ∃ r, (∀ fuel, 64 ≤ fuel → fmod fuel x y = some (.double r)) ∧
      HasMag x.msb (mag (bits x) % mag (bits y)) r := by
  have hwx := wide_bits x
  have hwy := wide_bits y
  have hfinx : bits x < 0x7ff * 2 ^ 52 := hx
  have hfiny : bits y < 0x7ff * 2 ^ 52 := hy
  unfold fmod
  dsimp only
  rw [xor_sign, signWord_msb]
  generalize msdw x &&& 0x7fffffff#32 = h at *
  generalize msdw y &&& 0x7fffffff#32 = h' at *
  generalize lsdw x = l at *
  generalize lsdw y = l' at *
  have hh : h.toNat < 0x7ff00000 := by
    unfold wide at hwx
    omega
  have hh' : h'.toNat < 0x7ff00000 := by
    unfold wide at hwy
    omega
  have hpurge : ¬ (h' ||| l' = 0#32 ∨ 0x7ff00000 ≤ h.toInt ∨
      0x7ff00000#32 < h' ||| ((l' ||| -l') >>> 31)) := by
    rw [not_or, not_or, toInt_eq_toNat (by omega), ← wide_eq_zero, hwy]
    exact ⟨hy0, by omega, not_nan hh'⟩
  have hless : h.toInt ≤ h'.toInt ∧ (h.toInt < h'.toInt ∨ l < l') ↔ bits x < bits y := by
    rw [wide_lt_iff (by omega) (by omega), hwx, hwy]
  simp only [if_neg hpurge]
  by_cases hlt : bits x < bits y
  · simp only [if_pos (hless.mpr hlt)]
    refine ⟨x, fun _ _ => rfl, hx, rfl, ?_⟩
    rw [Nat.mod_eq_of_lt (mag_strictMono hlt)]
  · have hequal : h.toInt ≤ h'.toInt ∧ l = l' ↔ bits x = bits y := by
      rw [wide_eq_of_le (by omega) (by omega) (by omega), hwx, hwy]
    simp only [if_neg (mt hless.mp hlt)]
    by_cases heq : bits x = bits y
    · simp only [if_pos (hequal.mpr heq)]
      refine ⟨_, fun _ _ => rfl, ?_⟩
      rw [heq, Nat.mod_self]
      exact hasMag_zero x.msb
    · simp only [if_neg (mt hequal.mp heq)]
      obtain ⟨z, hrun, hz⟩ := shiftAndSubtract_mod (show h.toNat < 2 ^ 31 by omega)
        (show h'.toNat < 2 ^ 31 by omega) (show wide h l < 0x7ff * 2 ^ 52 by omega)
        (show wide h' l' ≠ 0 by omega) (by omega) x.msb
      rw [hwx, hwy] at hz
      refine ⟨z, fun fuel hfuel => ?_, hz⟩
      rw [hrun fuel hfuel, Option.map_some]

/-- The remainder is exact for all finite numbers and divisors that are not zero. -/
theorem fmod_isRemainder (hx : IsFinite x) (hy : IsFinite y) (hy0 : toRat y ≠ 0) :
    ∃ r, (∀ fuel, 64 ≤ fuel → fmod fuel x y = some (.double r)) ∧ IsRemainder x y r := by
  have hbits : bits y ≠ 0 := mt toRat_eq_zero.mpr hy0
  obtain ⟨r, hrun, hmag⟩ := fmod_mod hx hy hbits
  exact ⟨r, hrun, isRemainder_of_hasMag hmag hbits⟩

/-- A negative number that is not a multiple of a subnormal divisor. -/
theorem fmod_isRemainder_subnormal :
    ∃ r, (∀ fuel, 64 ≤ fuel →
        fmod fuel 0xc01e000000000000#64 0x0000000000000003#64 = some (.double r)) ∧
      IsRemainder 0xc01e000000000000#64 0x0000000000000003#64 r :=
  fmod_isRemainder (by decide) (by decide) (mt toRat_eq_zero.mp (by decide))

end Remainder

end CollectedSources.Gon
