import CollectedSources.Slirp.Checksum
import Mathlib

/-! # The Internet checksum

The sums of `my_cksum` are of type `long`. No addition of the two loops overflows,
so that the loops compute the one's complement checksum. The checksum does not
depend on the order of the words, and the checksums of two parts make the
checksum of the whole.
-/

namespace CollectedSources.Slirp

open OnesComplement

/-- Addition of `long`s, which has no result when it overflows. -/
def addLong (x y : BitVec 64) : Option (BitVec 64) :=
  if x.saddOverflow y then none else some (x + y)

/-- The first loop of `my_cksum` with the byte behind it, on `long`s. -/
def sumLong : List Byte → ℕ → BitVec 64 → Option (BitVec 64)
  | _, 0, sum => some sum
  | c :: _, 1, sum => addLong sum (c.setWidth 64)
  | c :: d :: addr, count + 2, sum => do
    let sum ← addLong sum ((d ++ c).setWidth 64)
    sumLong addr count sum
  | _, _, _ => none

/-- The second loop of `my_cksum`, with at most `fuel` tests of its condition. -/
def foldLong : ℕ → BitVec 64 → Option (BitVec 64)
  | 0, _ => none
  | fuel + 1, sum =>
    if sum.sshiftRight 16 = 0 then some sum
    else do
      let sum ← addLong (sum &&& 0xffff) (sum.sshiftRight 16)
      foldLong fuel sum

/-- `my_cksum` with all of its sums in `long`s. -/
def myCksumLong (fuel : ℕ) (addr : List Byte) (count : BitVec 32) : Option (BitVec 16) := do
  let sum ← sumLong addr count.toNat 0
  let sum ← foldLong fuel sum
  some ((~~~ sum).setWidth 16)

/-- `my_cksum` ends without an overflow and returns a checksum, whatever stands behind the bytes. -/
def Returns (bytes : List Byte) (csum : BitVec 16) : Prop :=
  ∀ rest, ∃ rounds, ∀ fuel, rounds ≤ fuel →
    myCksumLong fuel (bytes ++ rest) (BitVec.ofNat 32 bytes.length) = some csum

/-- A function that returns the checksum of the little-endian words of some bytes, which can be
computed in any order and from parts. -/
structure InternetChecksum (returns : List Byte → BitVec 16 → Prop) : Prop where
  value : ∀ bytes, bytes.length < 2 ^ 32 → ∀ csum,
    returns bytes csum ↔ csum = ~~~ OnesComplement.sum (words bytes)
  reorder : ∀ bytes bytes', bytes.length < 2 ^ 32 → bytes'.length < 2 ^ 32 →
    (words bytes').Perm (words bytes) → ∀ csum, returns bytes csum → returns bytes' csum
  replace : ∀ bytes bytes' xs ys ys' zs, bytes.length < 2 ^ 32 → bytes'.length < 2 ^ 32 →
    words bytes = xs ++ ys ++ zs → words bytes' = xs ++ ys' ++ zs →
    OnesComplement.sum ys' = OnesComplement.sum ys →
    ∀ csum, returns bytes csum → returns bytes' csum
  piecewise : ∃ f : BitVec 16 → BitVec 16 → BitVec 16, ∀ p q : List Byte, Even p.length →
    (p ++ q).length < 2 ^ 32 → ∀ csum csum', returns p csum → returns q csum' →
    returns (p ++ q) (f csum csum')

section Longs

variable {x y : BitVec 64}

theorem addLong_eq (h : x.toNat + y.toNat < 2 ^ 63) :
    addLong x y = some (x + y) ∧ (x + y).toNat = x.toNat + y.toNat := by
  have hx : x.toInt = x.toNat := BitVec.toInt_eq_toNat_of_lt (by omega)
  have hy : y.toInt = y.toNat := BitVec.toInt_eq_toNat_of_lt (by omega)
  constructor
  · rw [addLong, BitVec.saddOverflow, hx, hy, if_neg]
    simp only [Bool.or_eq_true, decide_eq_true_eq]
    omega
  · rw [BitVec.toNat_add]
    omega

theorem toNat_sshiftRight (h : x.toNat < 2 ^ 63) : (x.sshiftRight 16).toNat = x.toNat / 65536 := by
  have hmsb : x.msb = false := BitVec.msb_eq_false_iff_two_mul_lt.mpr (by omega)
  rw [BitVec.sshiftRight_eq_of_msb_false hmsb, BitVec.toNat_ushiftRight,
    Nat.shiftRight_eq_div_pow]

theorem toNat_and_low (x : BitVec 64) : (x &&& 0xffff).toNat = x.toNat % 65536 := by
  rw [BitVec.toNat_and]
  exact Nat.and_two_pow_sub_one_eq_mod x.toNat 16

theorem sumWords_le {addr : List Byte} {count sum n : ℕ} (h : sumWords addr count sum = some n) :
    n ≤ sum + 65535 * ((count + 1) / 2) := by
  induction addr, count, sum using sumWords.induct with
  | case1 addr sum =>
    rw [sumWords, Option.some.injEq] at h
    omega
  | case2 c addr sum =>
    have hc := c.isLt
    rw [sumWords, Option.some.injEq] at h
    omega
  | case3 c d addr count sum ih =>
    have hword := (d ++ c).isLt
    rw [sumWords] at h
    have hle := ih h
    omega
  | case4 => simp [sumWords] at h

theorem sumLong_eq (addr : List Byte) (count : ℕ) {sum : BitVec 64}
    (h : sum.toNat + 65535 * ((count + 1) / 2) < 2 ^ 63) :
    sumLong addr count sum = (sumWords addr count sum.toNat).map (BitVec.ofNat 64) := by
  induction addr, count, sum using sumLong.induct with
  | case1 addr sum => simp [sumLong, sumWords]
  | case2 c addr sum =>
    have hc := c.isLt
    have hword : (c.setWidth 64).toNat = c.toNat := BitVec.toNat_setWidth_of_le (by omega)
    obtain ⟨hadd, hsum⟩ := addLong_eq (x := sum) (y := c.setWidth 64) (by omega)
    rw [sumLong, sumWords, hadd, Option.map_some, ← hword, ← hsum, BitVec.ofNat_toNat,
      BitVec.setWidth_eq]
  | case3 c d addr count sum ih =>
    have hlt := (d ++ c).isLt
    have hword : ((d ++ c).setWidth 64).toNat = (d ++ c).toNat :=
      BitVec.toNat_setWidth_of_le (by omega)
    obtain ⟨hadd, hsum⟩ := addLong_eq (x := sum) (y := (d ++ c).setWidth 64) (by omega)
    rw [sumLong, sumWords, hadd, Option.bind_eq_bind, Option.bind_some, ih _ (by omega), hsum,
      hword]
  | case4 => simp [sumLong, sumWords]

theorem foldLong_eq {fuel : ℕ} {sum : BitVec 64} (h : sum.toNat < 2 ^ 63)
    (hfuel : sum.toNat < fuel) :
    foldLong fuel sum = some (BitVec.ofNat 64 (foldSum sum.toNat)) := by
  induction fuel generalizing sum with
  | zero => omega
  | succ fuel ih =>
    have hcond : sum.sshiftRight 16 = 0 ↔ sum.toNat >>> 16 = 0 := by
      rw [BitVec.toNat_eq, toNat_sshiftRight h, Nat.shiftRight_eq_div_pow]
      rfl
    rw [foldLong, foldSum]
    simp only [hcond]
    split
    · rw [BitVec.ofNat_toNat, BitVec.setWidth_eq]
    · rename_i hne
      rw [Nat.shiftRight_eq_div_pow] at hne
      have hlow := toNat_and_low sum
      have hhigh := toNat_sshiftRight h
      obtain ⟨hadd, hsum⟩ :=
        addLong_eq (x := sum &&& 0xffff) (y := sum.sshiftRight 16) (by omega)
      rw [hadd, Option.bind_eq_bind, Option.bind_some, ih (by omega) (by omega), hsum, hlow, hhigh,
        Nat.shiftRight_eq_div_pow, Nat.and_two_pow_sub_one_eq_mod sum.toNat 16]

/-- `my_cksum` on `long`s computes what it computes on numbers. -/
theorem myCksumLong_eq {fuel : ℕ} (hfuel : 2 ^ 63 ≤ fuel) (addr : List Byte) (count : BitVec 32) :
    myCksumLong fuel addr count = myCksum addr count := by
  have hcount := count.isLt
  have hroom : (0 : BitVec 64).toNat + 65535 * ((count.toNat + 1) / 2) < 2 ^ 63 := by
    rw [BitVec.ofNat_eq_ofNat, BitVec.toNat_zero]
    omega
  rw [myCksumLong, myCksum, sumLong_eq addr count.toNat hroom]
  cases hsum : sumWords addr count.toNat 0 with
  | none => simp [hsum]
  | some sum =>
    have hlt : sum < 2 ^ 63 := Nat.lt_of_le_of_lt (sumWords_le hsum) hroom
    have hnat : (BitVec.ofNat 64 sum).toNat = sum := by
      rw [BitVec.toNat_ofNat]
      omega
    have hfold : foldLong fuel (BitVec.ofNat 64 sum) =
        some (BitVec.ofNat 64 (foldSum (BitVec.ofNat 64 sum).toNat)) :=
      foldLong_eq (by omega) (by omega)
    rw [hnat] at hfold
    simp only [BitVec.ofNat_eq_ofNat, BitVec.toNat_zero, hsum, Option.map_some, hfold,
      Option.bind_eq_bind, Option.bind_some]
    rw [BitVec.setWidth_not (by omega), BitVec.setWidth_ofNat_of_le (by omega)]

end Longs

section Parts

variable {bytes bytes' p q : List Byte} {csum csum' : BitVec 16} {xs ys ys' zs : List (BitVec 16)}

theorem returns_iff (hlen : bytes.length < 2 ^ 32) :
    Returns bytes csum ↔ csum = checksum (words bytes) := by
  have hcount : (BitVec.ofNat 32 bytes.length).toNat = bytes.length := by
    rw [BitVec.toNat_ofNat]
    exact Nat.mod_eq_of_lt hlen
  have hcall : ∀ rest fuel, 2 ^ 63 ≤ fuel →
      myCksumLong fuel (bytes ++ rest) (BitVec.ofNat 32 bytes.length) =
        some (checksum (words bytes)) := by
    intro rest fuel hfuel
    rw [myCksumLong_eq hfuel]
    exact myCksum_append bytes rest hcount
  constructor
  · intro h
    obtain ⟨rounds, hrounds⟩ := h []
    have hsome := hrounds (max rounds (2 ^ 63)) (le_max_left _ _)
    rw [hcall [] _ (le_max_right _ _)] at hsome
    exact (Option.some.inj hsome).symm
  · rintro rfl
    intro rest
    exact ⟨2 ^ 63, hcall rest⟩

theorem Returns.reorder (h : Returns bytes csum) (hlen : bytes.length < 2 ^ 32)
    (hlen' : bytes'.length < 2 ^ 32) (hperm : (words bytes').Perm (words bytes)) :
    Returns bytes' csum := by
  rw [returns_iff hlen] at h
  rw [returns_iff hlen', h, checksum, checksum, sum_perm (by omega) hperm]

theorem Returns.replace (h : Returns bytes csum) (hlen : bytes.length < 2 ^ 32)
    (hlen' : bytes'.length < 2 ^ 32) (hwords : words bytes = xs ++ ys ++ zs)
    (hwords' : words bytes' = xs ++ ys' ++ zs)
    (hsum : OnesComplement.sum ys' = OnesComplement.sum ys) : Returns bytes' csum := by
  rw [returns_iff hlen] at h
  have hw : 0 < 16 := by omega
  rw [returns_iff hlen', h, checksum, checksum, hwords, hwords', sum_append hw, sum_append hw,
    sum_append hw, sum_append hw, hsum]

theorem Returns.append (h : Returns p csum) (h' : Returns q csum') (heven : Even p.length)
    (hlen : (p ++ q).length < 2 ^ 32) : Returns (p ++ q) (~~~ add (~~~ csum) (~~~ csum')) := by
  have hadd : (p ++ q).length = p.length + q.length := List.length_append
  rw [returns_iff (by omega)] at h h'
  rw [returns_iff hlen, h, h', words_append heven, checksum_append (by omega)]

end Parts

/-- `my_cksum` is the Internet checksum. -/
theorem myCksum_internetChecksum : InternetChecksum Returns where
  value bytes hlen csum := returns_iff hlen
  reorder bytes bytes' hlen hlen' hperm csum h := h.reorder hlen hlen' hperm
  replace bytes bytes' xs ys ys' zs hlen hlen' hwords hwords' hsum csum h :=
    h.replace hlen hlen' hwords hwords' hsum
  piecewise := by
    refine ⟨fun csum csum' => ~~~ add (~~~ csum) (~~~ csum'), ?_⟩
    intro p q heven hlen csum csum' h h'
    exact h.append h' heven hlen

example : myCksumLong 3 [0x01, 0xf2, 0x03, 0xff] 3 = some 0x0dfb := by decide

end CollectedSources.Slirp
