import CollectedSources.Machine.DoubleWord
import Mathlib

/-! # The colours of barvy

A colour is a number with three packed channels. Mixing goes through the channels as
fractions of their maxima and scales them down where one is above the maximum, so
that the channels of the result do not meet.
-/

namespace CollectedSources.Barvy

open Machine

section Code

structure RGB where
  R : ℚ
  G : ℚ
  B : ℚ
  deriving DecidableEq

/-- The numbers of bits and the maxima of the channels, and the width of the type. -/
structure Layout where
  pocetR : ℕ
  pocetG : ℕ
  pocetB : ℕ
  maxR : ℕ
  maxG : ℕ
  maxB : ℕ
  width : ℕ
  pocetR_pos : 0 < pocetR
  pocetG_pos : 0 < pocetG
  pocetB_pos : 0 < pocetB
  maxR_eq : maxR = 2 ^ pocetR - 1
  maxG_eq : maxG = 2 ^ pocetG - 1
  maxB_eq : maxB = 2 ^ pocetB - 1
  le_width : pocetR + pocetG + pocetB ≤ width
  le_int : pocetR + pocetG + pocetB ≤ 31

/-- The types that the template is used with. -/
inductive Typ where
  | unsignedChar
  | unsignedShort
  | unsignedLong

/-- The call of `pocet_bitu` in the constructors. -/
def Typ.layout : Typ → Layout
  | .unsignedChar => ⟨3, 3, 2, 7, 7, 3, 8, by decide, by decide, by decide, rfl, rfl, rfl,
    by decide, by decide⟩
  | .unsignedShort => ⟨5, 6, 5, 31, 63, 31, 16, by decide, by decide, by decide, rfl, rfl, rfl,
    by decide, by decide⟩
  | .unsignedLong => ⟨8, 8, 8, 255, 255, 255, 64, by decide, by decide, by decide, rfl, rfl, rfl,
    by decide, by decide⟩

def zaokrouhli (a : ℚ) : ℤ :=
  if 0 ≤ a then if a - ⌊a⌋ < 1 / 2 then ⌊a⌋ else ⌈a⌉
  else if a - ⌈a⌉ ≤ -1 / 2 then ⌊a⌋ else ⌈a⌉

variable (l : Layout)

/-- The value of the member `color`. -/
abbrev Layout.Color : Type := BitVec l.width

def Layout.RGBtoT (c : RGB) : l.Color :=
  let pom := BitVec.ofInt l.width (zaokrouhli (l.maxR * c.R))
  let pom := pom <<< l.pocetG ||| BitVec.ofInt l.width (zaokrouhli (l.maxG * c.G))
  pom <<< l.pocetB ||| BitVec.ofInt l.width (zaokrouhli (l.maxB * c.B))

/-- The channels as integers, taken from an `int`. -/
def Layout.TtoRGB (color : l.Color) : RGB :=
  let pom := color.setWidth 32
  let b := pom &&& BitVec.ofNat 32 l.maxB
  let pom := pom.sshiftRight l.pocetB
  let g := pom &&& BitVec.ofNat 32 l.maxG
  let pom := pom.sshiftRight l.pocetG
  let r := pom &&& BitVec.ofNat 32 l.maxR
  ⟨r.toNat, g.toNat, b.toNat⟩

/-- The channels as fractions. -/
def Layout.divided (c : RGB) : RGB := ⟨c.R / l.maxR, c.G / l.maxG, c.B / l.maxB⟩

/-- The largest component above one, and whether there is any. -/
def RGB.overflow (c : RGB) : ℚ × Bool :=
  let m := if c.R > 1 then (c.R, true) else (0, false)
  let m := if c.G > 1 ∧ c.G > m.1 then (c.G, true) else m
  if c.B > 1 ∧ c.B > m.1 then (c.B, true) else m

/-- The components divided by the largest one, if this is above one. -/
def RGB.scaled (c : RGB) : RGB :=
  if c.overflow.2 then ⟨c.R / c.overflow.1, c.G / c.overflow.1, c.B / c.overflow.1⟩ else c

/-- The components of an additive mixture. -/
def Layout.addComponents (a b : l.Color) : RGB :=
  let pom1 := l.divided (l.TtoRGB a)
  let pom2 := l.divided (l.TtoRGB b)
  RGB.scaled ⟨pom1.R + pom2.R, pom1.G + pom2.G, pom1.B + pom2.B⟩

def RGB.complement (c : RGB) : RGB := ⟨1 - c.R, 1 - c.G, 1 - c.B⟩

/-- The components of a subtractive mixture. -/
def Layout.subComponents (a b : l.Color) : RGB :=
  let pom1 := (l.divided (l.TtoRGB a)).complement
  let pom2 := (l.divided (l.TtoRGB b)).complement
  (RGB.scaled ⟨pom1.R + pom2.R, pom1.G + pom2.G, pom1.B + pom2.B⟩).complement

/-- `operator+`. -/
def Layout.add (a b : l.Color) : l.Color := l.RGBtoT (l.addComponents a b)

/-- `operator-`. -/
def Layout.sub (a b : l.Color) : l.Color := l.RGBtoT (l.subComponents a b)

end Code

/-- All components are between zero and one. -/
structure RGB.InUnit (c : RGB) : Prop where
  R : 0 ≤ c.R ∧ c.R ≤ 1
  G : 0 ≤ c.G ∧ c.G ≤ 1
  B : 0 ≤ c.B ∧ c.B ≤ 1

/-- The colours that come from components and from mixing. -/
inductive Produced (l : Layout) : l.Color → Prop where
  | ofRGB (c : RGB) (hc : c.InUnit) : Produced l (l.RGBtoT c)
  | add {a b : l.Color} (ha : Produced l a) (hb : Produced l b) : Produced l (l.add a b)
  | sub {a b : l.Color} (ha : Produced l a) (hb : Produced l b) : Produced l (l.sub a b)

/-- The rounded channels of some components. -/
def Layout.rounded (l : Layout) (c : RGB) : RGB :=
  ⟨zaokrouhli (l.maxR * c.R), zaokrouhli (l.maxG * c.G), zaokrouhli (l.maxB * c.B)⟩

section Rounding

variable {x : ℚ} {n : ℕ}

theorem zaokrouhli_natCast (n : ℕ) : zaokrouhli n = n := by
  unfold zaokrouhli
  rw [if_pos (Nat.cast_nonneg n), Int.floor_natCast]
  simp

theorem zaokrouhli_bounds (hx : 0 ≤ x) (hn : x ≤ n) : 0 ≤ zaokrouhli x ∧ zaokrouhli x ≤ n := by
  have hfloor : 0 ≤ ⌊x⌋ := Int.floor_nonneg.mpr hx
  have hceil : ⌈x⌉ ≤ n := Int.ceil_le.mpr (by exact_mod_cast hn)
  have hle := Int.floor_le_ceil x
  unfold zaokrouhli
  rw [if_pos hx]
  split_ifs <;> omega

theorem exists_zaokrouhli {m : ℕ} (hx : 0 ≤ x ∧ x ≤ 1) :
    ∃ k : ℕ, k ≤ m ∧ zaokrouhli (m * x) = k := by
  have hm : (0 : ℚ) ≤ m := Nat.cast_nonneg m
  have hbounds := zaokrouhli_bounds (mul_nonneg hm hx.1) (mul_le_of_le_one_right hm hx.2)
  exact ⟨(zaokrouhli (m * x)).toNat, by omega, by omega⟩

end Rounding

section Packing

variable {l : Layout} {r g b : ℕ}

/-- The number of three channels. -/
def Layout.pack (l : Layout) (r g b : ℕ) : ℕ := (r * 2 ^ l.pocetG + g) * 2 ^ l.pocetB + b

/-- The numbers that fit the channels. -/
structure Fits (l : Layout) (r g b : ℕ) : Prop where
  R : r ≤ l.maxR
  G : g ≤ l.maxG
  B : b ≤ l.maxB

theorem Fits.lt (h : Fits l r g b) :
    r < 2 ^ l.pocetR ∧ g < 2 ^ l.pocetG ∧ b < 2 ^ l.pocetB := by
  have hr := h.R
  have hg := h.G
  have hb := h.B
  have := Nat.two_pow_pos l.pocetR
  have := Nat.two_pow_pos l.pocetG
  have := Nat.two_pow_pos l.pocetB
  rw [l.maxR_eq] at hr
  rw [l.maxG_eq] at hg
  rw [l.maxB_eq] at hb
  omega

theorem mul_add_lt {a b m n : ℕ} (ha : a < 2 ^ m) (hb : b < 2 ^ n) :
    a * 2 ^ n + b < 2 ^ (m + n) := by
  have hmul : (a + 1) * 2 ^ n ≤ 2 ^ m * 2 ^ n := Nat.mul_le_mul_right _ ha
  rw [pow_add]
  rw [Nat.add_mul] at hmul
  omega

theorem pack_lt (h : Fits l r g b) : l.pack r g b < 2 ^ (l.pocetR + l.pocetG + l.pocetB) := by
  obtain ⟨hr, hg, hb⟩ := h.lt
  exact mul_add_lt (mul_add_lt hr hg) hb

theorem toNat_shiftLeft_or {w n m : ℕ} {v : BitVec w} {k : ℕ} (hv : v.toNat < 2 ^ m)
    (hk : k < 2 ^ n) (hw : m + n ≤ w) :
    (v <<< n ||| BitVec.ofInt w k).toNat = v.toNat * 2 ^ n + k := by
  have hsum : v.toNat * 2 ^ n + k < 2 ^ w :=
    (mul_add_lt hv hk).trans_le (Nat.pow_le_pow_right Nat.zero_lt_two hw)
  rw [BitVec.toNat_or, BitVec.toNat_shiftLeft, Nat.shiftLeft_eq, BitVec.ofInt_natCast,
    BitVec.toNat_ofNat, Nat.mod_eq_of_lt (by omega), Nat.mod_eq_of_lt (by omega), mul_two_pow_or hk]

theorem toNat_RGBtoT {c : RGB} (h : Fits l r g b) (hr : zaokrouhli (l.maxR * c.R) = r)
    (hg : zaokrouhli (l.maxG * c.G) = g) (hb : zaokrouhli (l.maxB * c.B) = b) :
    (l.RGBtoT c).toNat = l.pack r g b := by
  obtain ⟨hr', hg', hb'⟩ := h.lt
  have hwidth := l.le_width
  have hfirst : (BitVec.ofInt l.width (r : ℤ)).toNat = r := by
    rw [BitVec.ofInt_natCast, BitVec.toNat_ofNat]
    exact Nat.mod_eq_of_lt (hr'.trans_le (Nat.pow_le_pow_right Nat.zero_lt_two (by omega)))
  have hsecond := toNat_shiftLeft_or (hfirst.symm ▸ hr') hg' (by omega : _ ≤ l.width)
  rw [hfirst] at hsecond
  have hlt := mul_add_lt hr' hg'
  unfold Layout.RGBtoT Layout.pack
  rw [hr, hg, hb, toNat_shiftLeft_or (hsecond.symm ▸ hlt) hb' hwidth, hsecond]

theorem toNat_and_max {v : BitVec 32} {m n : ℕ} (hm : m = 2 ^ n - 1) (hn : n ≤ 31) :
    (v &&& BitVec.ofNat 32 m).toNat = v.toNat % 2 ^ n := by
  apply toNat_and_mask
  have hlt : 2 ^ n ≤ 2 ^ 31 := Nat.pow_le_pow_right Nat.zero_lt_two hn
  rw [BitVec.toNat_ofNat, hm, Nat.mod_eq_of_lt (by omega)]

theorem toNat_sshiftRight {v : BitVec 32} (hv : v.toNat < 2 ^ 31) (n : ℕ) :
    (v.sshiftRight n).toNat = v.toNat / 2 ^ n ∧ (v.sshiftRight n).toNat < 2 ^ 31 := by
  rw [sshiftRight_eq hv, toNat_shiftRight]
  exact ⟨rfl, (Nat.div_le_self _ _).trans_lt hv⟩

theorem TtoRGB_of_pack {v : l.Color} (h : Fits l r g b) (hv : v.toNat = l.pack r g b) :
    l.TtoRGB v = ⟨r, g, b⟩ := by
  obtain ⟨hr, hg, hb⟩ := h.lt
  have hint := l.le_int
  have hlt : v.toNat < 2 ^ 31 := by
    rw [hv]
    exact (pack_lt h).trans_le (Nat.pow_le_pow_right Nat.zero_lt_two hint)
  have hpom : (v.setWidth 32).toNat = v.toNat := by
    rw [BitVec.toNat_setWidth, Nat.mod_eq_of_lt (by omega)]
  obtain ⟨hfirst, hfirst'⟩ := toNat_sshiftRight (hpom.symm ▸ hlt) l.pocetB
  obtain ⟨hsecond, -⟩ := toNat_sshiftRight hfirst' l.pocetG
  have hhigh : v.toNat / 2 ^ l.pocetB = r * 2 ^ l.pocetG + g := by
    rw [hv, Layout.pack, Nat.add_comm, Nat.add_mul_div_right _ _ (Nat.two_pow_pos _),
      Nat.div_eq_of_lt hb, Nat.zero_add]
  have hR : v.toNat / 2 ^ l.pocetB / 2 ^ l.pocetG % 2 ^ l.pocetR = r := by
    rw [hhigh, Nat.add_comm, Nat.add_mul_div_right _ _ (Nat.two_pow_pos _), Nat.div_eq_of_lt hg,
      Nat.zero_add, Nat.mod_eq_of_lt hr]
  have hG : v.toNat / 2 ^ l.pocetB % 2 ^ l.pocetG = g := by
    rw [hhigh, Nat.mul_add_mod_self_right, Nat.mod_eq_of_lt hg]
  have hB : v.toNat % 2 ^ l.pocetB = b := by
    rw [hv, Layout.pack, Nat.mul_add_mod_self_right, Nat.mod_eq_of_lt hb]
  unfold Layout.TtoRGB
  simp only [toNat_and_max l.maxR_eq (show l.pocetR ≤ 31 by omega),
    toNat_and_max l.maxG_eq (show l.pocetG ≤ 31 by omega),
    toNat_and_max l.maxB_eq (show l.pocetB ≤ 31 by omega), hsecond, hfirst, hpom, hR, hG, hB]

/-- A colour that uses the bits of its channels only. -/
def Valid (v : l.Color) : Prop := ∃ r g b, Fits l r g b ∧ v.toNat = l.pack r g b

theorem RGBtoT_spec {c : RGB} (hc : c.InUnit) :
    Valid (l.RGBtoT c) ∧ l.TtoRGB (l.RGBtoT c) = l.rounded c := by
  obtain ⟨r, hr, hR⟩ := exists_zaokrouhli (m := l.maxR) hc.R
  obtain ⟨g, hg, hG⟩ := exists_zaokrouhli (m := l.maxG) hc.G
  obtain ⟨b, hb, hB⟩ := exists_zaokrouhli (m := l.maxB) hc.B
  have hpack := toNat_RGBtoT ⟨hr, hg, hb⟩ hR hG hB
  refine ⟨⟨r, g, b, ⟨hr, hg, hb⟩, hpack⟩, ?_⟩
  rw [TtoRGB_of_pack ⟨hr, hg, hb⟩ hpack]
  unfold Layout.rounded
  rw [hR, hG, hB]
  simp

end Packing

section Mixing

variable {l : Layout} {a b : l.Color} {c d : RGB}

theorem overflow_eq (c : RGB) : c.overflow =
    if 1 < max c.R (max c.G c.B) then (max c.R (max c.G c.B), true) else (0, false) := by
  unfold RGB.overflow
  grind

theorem scaled_eq (c : RGB) : c.scaled =
    ⟨c.R / max 1 (max c.R (max c.G c.B)), c.G / max 1 (max c.R (max c.G c.B)),
      c.B / max 1 (max c.R (max c.G c.B))⟩ := by
  unfold RGB.scaled
  rw [overflow_eq]
  split_ifs with h h' h'
  · rw [max_eq_right h.le]
  · exact absurd rfl h'
  · cases h'
  · rw [max_eq_left (not_lt.mp h), div_one, div_one, div_one]

theorem scaled_of_le (hR : c.R ≤ 1) (hG : c.G ≤ 1) (hB : c.B ≤ 1) : c.scaled = c := by
  rw [scaled_eq, max_eq_left (max_le hR (max_le hG hB)), div_one, div_one, div_one]

theorem inUnit_scaled (hR : 0 ≤ c.R) (hG : 0 ≤ c.G) (hB : 0 ≤ c.B) : c.scaled.InUnit := by
  rw [scaled_eq]
  generalize hm : max 1 (max c.R (max c.G c.B)) = m
  have hpos : 0 < m := by
    rw [← hm]
    exact one_pos.trans_le (le_max_left ..)
  obtain ⟨-, hR', hG', hB'⟩ : 1 ≤ m ∧ c.R ≤ m ∧ c.G ≤ m ∧ c.B ≤ m := by
    simpa only [max_le_iff] using hm.le
  exact ⟨⟨div_nonneg hR hpos.le, (div_le_one hpos).mpr hR'⟩,
    ⟨div_nonneg hG hpos.le, (div_le_one hpos).mpr hG'⟩,
    ⟨div_nonneg hB hpos.le, (div_le_one hpos).mpr hB'⟩⟩

theorem inUnit_complement (hc : c.InUnit) : c.complement.InUnit := by
  obtain ⟨⟨hR, hR'⟩, ⟨hG, hG'⟩, ⟨hB, hB'⟩⟩ := hc
  exact ⟨⟨sub_nonneg.mpr hR', sub_le_self 1 hR⟩, ⟨sub_nonneg.mpr hG', sub_le_self 1 hG⟩,
    ⟨sub_nonneg.mpr hB', sub_le_self 1 hB⟩⟩

theorem max_pos (l : Layout) : 0 < l.maxR ∧ 0 < l.maxG ∧ 0 < l.maxB := by
  have hone (n : ℕ) (hn : 0 < n) : 1 < 2 ^ n := Nat.one_lt_two_pow hn.ne'
  have hR := hone l.pocetR l.pocetR_pos
  have hG := hone l.pocetG l.pocetG_pos
  have hB := hone l.pocetB l.pocetB_pos
  rw [l.maxR_eq, l.maxG_eq, l.maxB_eq]
  omega

theorem div_max_bounds {k m : ℕ} (hm : 0 < m) (hk : k ≤ m) :
    0 ≤ (k / m : ℚ) ∧ (k / m : ℚ) ≤ 1 :=
  ⟨by positivity, (div_le_one (by exact_mod_cast hm)).mpr (by exact_mod_cast hk)⟩

theorem inUnit_divided (ha : Valid a) : (l.divided (l.TtoRGB a)).InUnit := by
  obtain ⟨r, g, b, hfits, hpack⟩ := ha
  obtain ⟨hR, hG, hB⟩ := max_pos l
  rw [TtoRGB_of_pack hfits hpack]
  exact ⟨div_max_bounds hR hfits.R, div_max_bounds hG hfits.G, div_max_bounds hB hfits.B⟩

theorem RGBtoT_divided (ha : Valid a) : l.RGBtoT (l.divided (l.TtoRGB a)) = a := by
  obtain ⟨r, g, b, hfits, hpack⟩ := ha
  obtain ⟨hR, hG, hB⟩ := max_pos l
  have hround {k m : ℕ} (hm : 0 < m) : zaokrouhli (m * (k / m : ℚ)) = k := by
    rw [mul_div_cancel₀ _ (by exact_mod_cast hm.ne'), zaokrouhli_natCast]
  apply BitVec.eq_of_toNat_eq
  rw [TtoRGB_of_pack hfits hpack, hpack]
  exact toNat_RGBtoT hfits (hround hR) (hround hG) (hround hB)

theorem inUnit_addComponents (ha : Valid a) (hb : Valid b) : (l.addComponents a b).InUnit := by
  have hc := inUnit_divided ha
  have hd := inUnit_divided hb
  exact inUnit_scaled (add_nonneg hc.R.1 hd.R.1) (add_nonneg hc.G.1 hd.G.1)
    (add_nonneg hc.B.1 hd.B.1)

theorem inUnit_subComponents (ha : Valid a) (hb : Valid b) : (l.subComponents a b).InUnit := by
  have hc := inUnit_complement (inUnit_divided ha)
  have hd := inUnit_complement (inUnit_divided hb)
  exact inUnit_complement (inUnit_scaled (add_nonneg hc.R.1 hd.R.1) (add_nonneg hc.G.1 hd.G.1)
    (add_nonneg hc.B.1 hd.B.1))

theorem valid_of_produced (ha : Produced l a) : Valid a := by
  induction ha with
  | ofRGB c hc => exact (RGBtoT_spec hc).1
  | add _ _ iha ihb => exact (RGBtoT_spec (inUnit_addComponents iha ihb)).1
  | sub _ _ iha ihb => exact (RGBtoT_spec (inUnit_subComponents iha ihb)).1

theorem add_comm_color (a b : l.Color) : l.add a b = l.add b a := by
  unfold Layout.add Layout.addComponents
  simp only [add_comm]

theorem sub_comm_color (a b : l.Color) : l.sub a b = l.sub b a := by
  unfold Layout.sub Layout.subComponents
  simp only [add_comm]

def black : RGB := ⟨0, 0, 0⟩

def white : RGB := ⟨1, 1, 1⟩

theorem inUnit_black : black.InUnit := ⟨by decide, by decide, by decide⟩

theorem inUnit_white : white.InUnit := ⟨by decide, by decide, by decide⟩

theorem divided_black (l : Layout) : l.divided (l.TtoRGB (l.RGBtoT black)) = black := by
  rw [(RGBtoT_spec inUnit_black).2]
  have hzero : zaokrouhli 0 = 0 := by exact_mod_cast zaokrouhli_natCast 0
  simp [Layout.divided, Layout.rounded, black, hzero]

theorem divided_white (l : Layout) : l.divided (l.TtoRGB (l.RGBtoT white)) = white := by
  obtain ⟨hR, hG, hB⟩ := max_pos l
  rw [(RGBtoT_spec inUnit_white).2]
  simp [Layout.divided, Layout.rounded, white, zaokrouhli_natCast, hR.ne', hG.ne', hB.ne']

theorem add_black (ha : Valid a) : l.add a (l.RGBtoT black) = a := by
  have hc := inUnit_divided ha
  have hcomponents : l.addComponents a (l.RGBtoT black) = l.divided (l.TtoRGB a) := by
    unfold Layout.addComponents
    simp only [divided_black]
    simp only [black, add_zero]
    exact scaled_of_le hc.R.2 hc.G.2 hc.B.2
  unfold Layout.add
  rw [hcomponents, RGBtoT_divided ha]

theorem sub_white (ha : Valid a) : l.sub a (l.RGBtoT white) = a := by
  have hc := inUnit_complement (inUnit_divided ha)
  have hcomponents : l.subComponents a (l.RGBtoT white) = l.divided (l.TtoRGB a) := by
    unfold Layout.subComponents
    have hscaled := scaled_of_le hc.R.2 hc.G.2 hc.B.2
    unfold RGB.complement at hscaled
    simp only [divided_white]
    simp only [white, RGB.complement, sub_self, add_zero, hscaled, sub_sub_cancel]
  unfold Layout.sub
  rw [hcomponents, RGBtoT_divided ha]

/-- What mixing two colours gives. -/
structure Mixes (l : Layout) (a b : l.Color) : Prop where
  add_inUnit : (l.addComponents a b).InUnit
  add_channels : l.TtoRGB (l.add a b) = l.rounded (l.addComponents a b)
  sub_inUnit : (l.subComponents a b).InUnit
  sub_channels : l.TtoRGB (l.sub a b) = l.rounded (l.subComponents a b)
  add_comm : l.add a b = l.add b a
  sub_comm : l.sub a b = l.sub b a
  add_black : l.add a (l.RGBtoT black) = a
  sub_white : l.sub a (l.RGBtoT white) = a
  roundTrip : l.RGBtoT (l.divided (l.TtoRGB a)) = a

/-- Mixing keeps the channels apart, in all three layouts. -/
theorem mixes (t : Typ) {a b : t.layout.Color} (ha : Produced t.layout a)
    (hb : Produced t.layout b) : Mixes t.layout a b := by
  have ha := valid_of_produced ha
  have hb := valid_of_produced hb
  have hadd := inUnit_addComponents ha hb
  have hsub := inUnit_subComponents ha hb
  exact ⟨hadd, (RGBtoT_spec hadd).2, hsub, (RGBtoT_spec hsub).2, add_comm_color a b,
    sub_comm_color a b, add_black ha, sub_white ha, RGBtoT_divided ha⟩

theorem mixes_yellow_white : Mixes (Typ.layout .unsignedShort)
    ((Typ.layout .unsignedShort).RGBtoT ⟨1, 1, 0⟩) ((Typ.layout .unsignedShort).RGBtoT white) :=
  mixes .unsignedShort (.ofRGB ⟨1, 1, 0⟩ ⟨by decide, by decide, by decide⟩)
    (.ofRGB white inUnit_white)

end Mixing

end CollectedSources.Barvy
