import CollectedSources.Lgap.Main
import Mathlib

/-! # The ranges of the options

The argument of an option is stored in a `char` before it is checked, and in an
`unsigned char` before it is clamped. Both keep its low byte only.
-/

namespace CollectedSources.Lgap

/-- An option with a range, its variable, and the fields of queries and responses. -/
structure Setting where
  opt : ℤ → Opt
  var : Options → Int8
  field : Query → BitVec 3
  reported : Response → BitVec 3
  first : ℤ
  last : ℤ

def fanSetting : Setting := ⟨.fan, Options.fan, Query.fanSpeed, Response.fanSpeed, 1, 6⟩

def modeSetting : Setting := ⟨.mode, Options.mode, Query.mode, Response.mode, 0, 4⟩

namespace Setting

variable (t : Setting)

def InRange (v : ℤ) : Prop := t.first ≤ v ∧ v ≤ t.last

instance (v : ℤ) : Decidable (t.InRange v) := inferInstanceAs (Decidable (_ ∧ _))

/-- The option takes effect for the values of its range only, and then commands carry the value. -/
def Checked (v : ℤ) : Prop :=
  ∀ o : Options, ∃ o', o.parse (t.opt v) = some o' ∧
    if t.InRange v then o'.set = true ∧ ∀ q r, ((t.field (Query.command q o' r)).toNat : ℤ) = v
    else o'.set = o.set ∧ ∀ q r, t.field (Query.command q o' r) = t.reported r

/-- What the switch does for the option. -/
structure Parses : Prop where
  first_nonneg : 0 ≤ t.first
  last_lt : t.last < 8
  inRange : ∀ (o : Options) (v : ℤ), t.InRange (Int8.ofInt v).toInt →
    ∃ o', o.parse (t.opt v) = some o' ∧ t.var o' = Int8.ofInt v ∧ o'.set = true
  outside : ∀ (o : Options) (v : ℤ), ¬ t.InRange (Int8.ofInt v).toInt →
    ∃ o', o.parse (t.opt v) = some o' ∧ t.var o' = -1 ∧ o'.set = o.set
  field : ∀ q o r, t.field (Query.command q o r) = choose 3 (t.var o) (t.reported r)

theorem not_outside_iff {x first last : Int8} :
    ¬ (x < first ∨ x > last) ↔ first.toInt ≤ x.toInt ∧ x.toInt ≤ last.toInt := by
  rw [not_or, gt_iff_lt, Int8.not_lt, Int8.not_lt, Int8.le_iff_toInt_le, Int8.le_iff_toInt_le]

theorem parses_fan : fanSetting.Parses where
  first_nonneg := by decide
  last_lt := by decide
  inRange o v h := by
    have hrange := (@not_outside_iff (Int8.ofInt v) 1 6).mpr h
    exact ⟨_, congrArg some (if_neg hrange), rfl, rfl⟩
  outside o v h := by
    have hrange := not_not.mp (mt (@not_outside_iff (Int8.ofInt v) 1 6).mp h)
    exact ⟨_, congrArg some (if_pos hrange), rfl, rfl⟩
  field q o r := rfl

theorem parses_mode : modeSetting.Parses where
  first_nonneg := by decide
  last_lt := by decide
  inRange o v h := by
    have hrange := (@not_outside_iff (Int8.ofInt v) 0 4).mpr h
    exact ⟨_, congrArg some (if_neg hrange), rfl, rfl⟩
  outside o v h := by
    have hrange := not_not.mp (mt (@not_outside_iff (Int8.ofInt v) 0 4).mp h)
    exact ⟨_, congrArg some (if_pos hrange), rfl, rfl⟩
  field q o r := rfl

variable {t} {v : ℤ}

theorem toInt_ofInt_of_inRange (ht : t.Parses) (hv : t.InRange v) : (Int8.ofInt v).toInt = v := by
  have := ht.first_nonneg
  have := ht.last_lt
  obtain ⟨hfirst, hlast⟩ := hv
  exact Int8.toInt_ofInt_of_le (by omega) (by omega)

theorem checked_of_inRange (ht : t.Parses) (hv : t.InRange v) : t.Checked v := by
  intro o
  have hvalue := toInt_ofInt_of_inRange ht hv
  have hbyte : t.InRange (Int8.ofInt v).toInt := by rwa [hvalue]
  obtain ⟨o', hparse, hvar, hset⟩ := ht.inRange o v hbyte
  have hlt : (t.var o').toInt < 2 ^ 3 := by
    rw [hvar]
    exact hbyte.2.trans_lt ht.last_lt
  have hnonneg : t.var o' ≥ 0 := by
    rw [ge_iff_le, Int8.le_iff_toInt_le, hvar]
    exact ht.first_nonneg.trans hbyte.1
  refine ⟨o', hparse, ?_⟩
  rw [if_pos hv]
  refine ⟨hset, fun q r => ?_⟩
  rw [ht.field, toNat_choose hlt le_rfl, requested, if_pos hnonneg, hvar, hvalue]

theorem checked_of_outside (ht : t.Parses) (hbyte : ¬ t.InRange (Int8.ofInt v).toInt) :
    t.Checked v := by
  intro o
  have hv : ¬ t.InRange v := fun hv => hbyte (by rwa [toInt_ofInt_of_inRange ht hv])
  obtain ⟨o', hparse, hvar, hset⟩ := ht.outside o v hbyte
  refine ⟨o', hparse, ?_⟩
  rw [if_neg hv]
  refine ⟨hset, fun q r => ?_⟩
  have hchoose := @toNat_choose 3 3 (-1) (by decide) le_rfl (t.reported r)
  rw [requested, if_neg (by decide)] at hchoose
  rw [ht.field, hvar]
  apply BitVec.eq_of_toNat_eq
  exact_mod_cast hchoose

/-- A value whose low byte only is in the range takes effect. -/
theorem not_checked (ht : t.Parses) (hv : ¬ t.InRange v)
    (hbyte : t.InRange (Int8.ofInt v).toInt) : ¬ t.Checked v := by
  intro h
  obtain ⟨o', hparse, hset⟩ := h {}
  obtain ⟨o'', hparse', -, hset'⟩ := ht.inRange {} v hbyte
  obtain rfl := Option.some.inj (hparse.symm.trans hparse')
  rw [if_neg hv, hset'] at hset
  exact absurd hset.1 (by decide)

/-- An option is checked as an integer unless only the low byte of its value is in the range. -/
theorem checked_iff (ht : t.Parses) :
    t.Checked v ↔ t.InRange v ∨ ¬ t.InRange (Int8.ofInt v).toInt := by
  constructor
  · intro h
    by_contra hout
    rw [not_or, not_not] at hout
    exact not_checked ht hout.1 hout.2 h
  · rintro (hv | hbyte)
    · exact checked_of_inRange ht hv
    · exact checked_of_outside ht hbyte

end Setting

section Temperature

variable {v w : ℤ}

/-- The temperatures of the device. -/
def clampC (v : ℤ) : ℤ := max 18 (min v 30)

/-- The temperature of commands is the requested one, or the next one that the device has. -/
def TempClamped (v : ℤ) : Prop :=
  ∀ o : Options, ∃ o', o.parse (.temp v) = some o' ∧ o'.set = true ∧
    ∀ q r, (tempToC (Query.command q o' r).temp.toNat : ℤ) = clampC v

theorem tempToC_command (o : Options) (v : ℤ) : ∃ o', o.parse (.temp v) = some o' ∧
    o'.set = true ∧ ∀ q r, (tempToC (Query.command q o' r).temp.toNat : ℤ) = clampC (v % 256) := by
  refine ⟨_, rfl, rfl, fun q r => ?_⟩
  generalize hbyte : BitVec.ofInt 8 v = byte
  have hv : (byte.toNat : ℤ) = v % 256 := by
    rw [← hbyte, BitVec.toNat_ofInt]
    exact Int.toNat_of_nonneg (Int.emod_nonneg v (by decide))
  have hrange : cToTemp byte = clampC byte.toNat - 15 := by
    unfold cToTemp clampC
    dsimp only
    split_ifs <;> omega
  have hclamp : 18 ≤ clampC byte.toNat ∧ clampC byte.toNat ≤ 30 := by
    unfold clampC
    omega
  have hint : (Int8.ofInt (cToTemp byte)).toInt = cToTemp byte :=
    Int8.toInt_ofInt_of_le (by omega) (by omega)
  have hnonneg : Int8.ofInt (cToTemp byte) ≥ 0 := by
    rw [ge_iff_le, Int8.le_iff_toInt_le, hint]
    exact (show (0 : ℤ) ≤ cToTemp byte by omega)
  have hfield : ((choose 5 (Int8.ofInt (cToTemp byte)) r.temp).toNat : ℤ) = cToTemp byte := by
    rw [toNat_choose (toInt_cToTemp_lt byte) (by decide), requested, if_pos hnonneg, hint]
  rw [← hv]
  change (tempToC (choose 5 (Int8.ofInt (cToTemp byte)) r.temp).toNat : ℤ) = _
  unfold tempToC
  push_cast
  rw [hfield]
  omega

/-- The argument fits a byte, or its low byte is beyond the same end of the scale. -/
def LowByteAgrees (v : ℤ) : Prop :=
  0 ≤ v ∧ v ≤ 255 ∨ v < 0 ∧ v % 256 ≤ 18 ∨ 255 < v ∧ 30 ≤ v % 256

instance (v : ℤ) : Decidable (LowByteAgrees v) := inferInstanceAs (Decidable (_ ∨ _))

theorem clampC_emod_iff : clampC v = clampC (v % 256) ↔ LowByteAgrees v := by
  unfold clampC LowByteAgrees
  omega

theorem tempClamped_iff : TempClamped v ↔ LowByteAgrees v := by
  rw [← clampC_emod_iff]
  constructor
  · intro h
    obtain ⟨o', hparse, -, htemp⟩ := h {}
    obtain ⟨o'', hparse', -, htemp'⟩ := tempToC_command {} v
    obtain rfl := Option.some.inj (hparse.symm.trans hparse')
    exact (htemp {} fun _ => 0).symm.trans (htemp' {} fun _ => 0)
  · intro h o
    rw [h]
    exact tempToC_command o v

theorem clampC_mono (hvw : v ≤ w) : clampC v ≤ clampC w := by
  unfold clampC
  omega

end Temperature

/-- A larger request does not lower the temperature of commands. -/
def TempMonotone (v w : ℤ) : Prop :=
  v ≤ w → ∀ (o ov ow : Options), o.parse (.temp v) = some ov → o.parse (.temp w) = some ow →
    ∀ q r, tempToC (Query.command q ov r).temp.toNat ≤ tempToC (Query.command q ow r).temp.toNat

/-- The options are checked and clamped as integers exactly where the low byte of the argument
leads to the same. -/
theorem options_checked_iff (v : ℤ) :
    (fanSetting.Checked v ↔ fanSetting.InRange v ∨ ¬ fanSetting.InRange (Int8.ofInt v).toInt) ∧
    (modeSetting.Checked v ↔
      modeSetting.InRange v ∨ ¬ modeSetting.InRange (Int8.ofInt v).toInt) ∧
    (TempClamped v ↔ LowByteAgrees v) ∧
    (LowByteAgrees v → ∀ w, LowByteAgrees w → TempMonotone v w) := by
  refine ⟨Setting.checked_iff Setting.parses_fan, Setting.checked_iff Setting.parses_mode,
    tempClamped_iff, ?_⟩
  intro hv w hw hvw o ov ow hov how q r
  obtain ⟨o', ho', -, htemp⟩ := tempClamped_iff.mpr hv o
  obtain ⟨o'', ho'', -, htemp'⟩ := tempClamped_iff.mpr hw o
  obtain rfl := Option.some.inj (hov.symm.trans ho')
  obtain rfl := Option.some.inj (how.symm.trans ho'')
  have hle := clampC_mono hvw
  rw [← htemp q r, ← htemp' q r] at hle
  exact_mod_cast hle

/-- `-f 257` asks for the lowest speed, `-m 256` for cooling, and `-t 274` for less than `-t 20`. -/
theorem largeArguments_accepted :
    ¬ fanSetting.Checked 257 ∧ ¬ modeSetting.Checked 256 ∧ ¬ TempClamped 274 ∧
      ¬ TempMonotone 20 274 := by
  refine ⟨?_, ?_, ?_, ?_⟩
  · rw [Setting.checked_iff Setting.parses_fan]
    decide
  · rw [Setting.checked_iff Setting.parses_mode]
    decide
  · rw [tempClamped_iff]
    decide
  · intro h
    exact absurd (h (by decide) {} _ _ rfl rfl {} fun _ => 0) (by decide)

end CollectedSources.Lgap
