import CollectedSources.VreckoFf.Load
import CollectedSources.VreckoFf.Windows

/-! # Adding an effect on both platforms

An effect is added under a new name if its file can be loaded. On Linux the
return value is the one of the load. On Windows it is forgotten, so a failed
load is reported as a success.
-/

namespace CollectedSources.VreckoFf.Linux

section Effect

structure Effect where
  portDes : ℤ
  path : String
  onCreate : Bool
  isLoaded : Bool
  effects : List ℕ

/-- The effect that a load leaves behind. It reads the lists, but no effects from them. -/
def Effect.create (portDes : ℤ) (path : String) (onCreate : Bool) (ret : ℕ) : Effect :=
  ⟨portDes, path, onCreate, ret == 0 && onCreate, []⟩

/-- When effects are loaded. -/
def eOnCreate : Bool := true

/-- The return value and the new map. -/
def addEffect (portDes : ℤ) (effectsMap : Dictionary String Effect) (name path : String)
    (file : File) : Option (ℕ × Dictionary String Effect) :=
  match effectsMap.find name with
  | some _ => some (1, effectsMap)
  | none => do
    let (ret, _) ← load eOnCreate file
    if ret = 0 then some (ret, effectsMap.insert name (Effect.create portDes path eOnCreate ret))
    else some (ret, effectsMap)

end Effect

end CollectedSources.VreckoFf.Linux

namespace CollectedSources.VreckoFf

open Resource

section Contract

/-- An effect is added and `0` is returned if its name is new and its load returned `0`. Otherwise
nothing is added. -/
structure Adds {ε : Type*} (effectsMap effectsMap' : Dictionary String ε) (name : String) (eff : ε)
    (loaded ret : ℕ) : Prop where
  ret_eq_zero : ret = 0 ↔ effectsMap.find name = none ∧ loaded = 0
  gains : effectsMap.find name = none ∧ loaded = 0 →
    effectsMap'.entries.Perm ((name, eff) :: effectsMap.entries)
  keeps : ¬ (effectsMap.find name = none ∧ loaded = 0) → effectsMap' = effectsMap

/-- The contract of `addEffect`, whatever the load of a new effect returns. -/
def Linux.Meets (portDes : ℤ) (effectsMap : Dictionary String Linux.Effect) (name path : String)
    (file : Linux.File) : Prop :=
  ∀ loaded, (effectsMap.find name = none →
      (Linux.load Linux.eOnCreate file).map Prod.fst = some loaded) →
    ∃ ret effectsMap',
      Linux.addEffect portDes effectsMap name path file = some (ret, effectsMap') ∧
        Adds effectsMap effectsMap' name
          (Linux.Effect.create portDes path Linux.eOnCreate loaded) loaded ret

/-- What a load returns if there is a device to load into. -/
def Windows.Device.load (d : Windows.Device) (file : Windows.File) : Option ℕ :=
  if d.joydev then some (Windows.load Windows.eOnCreate file).ret else none

/-- The same contract on Windows. -/
def Windows.Meets (d : Windows.Device) (name path : String) (file : Windows.File)
    (playing : ℕ → Bool) : Prop :=
  ∀ loaded, (d.effectsMap.find name = none → d.load file = some loaded) →
    ∃ ret d' calls, Windows.addEffect d name path file playing = some (ret, d', calls) ∧
      Adds d.effectsMap d'.effectsMap name
        (Windows.Effect.create path Windows.eOnCreate file).1 loaded ret

variable {ε : Type*} {effectsMap : Dictionary String ε} {name : String}

theorem adds_of_present (hname : effectsMap.find name ≠ none) (eff : ε) (loaded : ℕ) :
    Adds effectsMap effectsMap name eff loaded 1 := by
  have hno : ¬ (effectsMap.find name = none ∧ loaded = 0) := fun h => hname h.1
  exact ⟨iff_of_false one_ne_zero hno, fun h => absurd h hno, fun _ => rfl⟩

theorem adds_of_loaded (hname : effectsMap.find name = none) (eff : ε) :
    Adds effectsMap (effectsMap.insert name eff) name eff 0 0 :=
  ⟨iff_of_true rfl ⟨hname, rfl⟩, fun _ => Dictionary.perm_insert hname eff,
    fun h => absurd ⟨hname, rfl⟩ h⟩

theorem adds_of_not_loaded {loaded : ℕ} (hloaded : loaded ≠ 0) (eff : ε) :
    Adds effectsMap effectsMap name eff loaded loaded := by
  have hno : ¬ (effectsMap.find name = none ∧ loaded = 0) := fun h => hloaded h.2
  exact ⟨iff_of_false hloaded hno, fun h => absurd h hno, fun _ => rfl⟩

theorem Linux.meets (portDes : ℤ) (effectsMap : Dictionary String Linux.Effect)
    (name path : String) (file : Linux.File) : Meets portDes effectsMap name path file := by
  intro loaded hload
  rcases hname : effectsMap.find name with _ | eff
  · obtain ⟨⟨loaded, calls⟩, hresult, rfl⟩ := Option.map_eq_some_iff.mp (hload hname)
    rw [addEffect, hname, hresult]
    by_cases hloaded : loaded = 0
    · subst hloaded
      exact ⟨0, _, rfl, adds_of_loaded hname _⟩
    · exact ⟨loaded, effectsMap, if_neg hloaded, adds_of_not_loaded hloaded _⟩
  · rw [addEffect, hname]
    exact ⟨1, effectsMap, rfl, adds_of_present (by simp [hname]) _ _⟩

variable {d : Windows.Device} {path : String} {file : Windows.File} {playing : ℕ → Bool}

theorem Windows.meets_of_present (hname : d.effectsMap.find name ≠ none) :
    Meets d name path file playing := by
  intro loaded _
  obtain ⟨eff, hname'⟩ := Option.ne_none_iff_exists'.mp hname
  exact ⟨1, d, [], addEffect_of_present hname', adds_of_present hname _ _⟩

theorem Windows.meets_of_loads (hname : d.effectsMap.find name = none) (hfile : none ∉ file) :
    Meets d name path file playing := by
  intro loaded hload
  have hload := hload hname
  rw [Device.load] at hload
  split_ifs at hload with hjoydev
  obtain rfl := Option.some.inj hload
  rw [load, (enumEffectsInFile_ret _ _ _).mpr hfile]
  exact ⟨0, _, _, addEffect_of_loads hname hjoydev hfile, adds_of_loaded hname _⟩

/-- Without a device there is nothing to load into. -/
theorem Windows.meets_of_null (hname : d.effectsMap.find name = none) (hjoydev : d.joydev = false) :
    Meets d name path file playing := by
  intro loaded hload
  have hload := hload hname
  rw [Device.load, hjoydev] at hload
  cases hload

theorem Windows.not_meets (hname : d.effectsMap.find name = none) (hjoydev : d.joydev = true)
    (hfile : none ∈ file) : ¬ Meets d name path file playing := by
  intro h
  obtain ⟨ret, d', calls, hadd, hadds⟩ := h _ fun _ => if_pos hjoydev
  obtain ⟨⟩ := hadd.symm.trans (addEffect_of_not_loads path playing hname hjoydev hfile)
  have hret := (hadds.ret_eq_zero.mp rfl).2
  exact (enumEffectsInFile_ret _ _ _).mp hret hfile

/-- `addEffect` means the same on both platforms unless a new effect is loaded on Windows and one
of the effects of its file cannot be created. -/
theorem meets_iff_loads (portDes : ℤ) (effectsMap : Dictionary String Linux.Effect)
    (linuxFile : Linux.File) (d : Windows.Device) (name path : String) (file : Windows.File)
    (playing : ℕ → Bool) :
    Linux.Meets portDes effectsMap name path linuxFile ∧ Windows.Meets d name path file playing ↔
      d.effectsMap.find name ≠ none ∨ d.joydev = false ∨ none ∉ file := by
  rw [and_iff_right (Linux.meets portDes effectsMap name path linuxFile)]
  constructor
  · intro h
    by_contra hno
    simp only [not_or, not_not, Bool.not_eq_false] at hno
    exact Windows.not_meets hno.1 hno.2.1 hno.2.2 h
  · rintro (hname | hrest)
    · exact Windows.meets_of_present hname
    · by_cases hname : d.effectsMap.find name = none
      · rcases hrest with hjoydev | hfile
        · exact Windows.meets_of_null hname hjoydev
        · exact Windows.meets_of_loads hname hfile
      · exact Windows.meets_of_present hname

/-- The first effect of a file cannot be created. -/
theorem not_meets_failingFile :
    ¬ (Linux.Meets 3 .empty "wave" "wave.ffe" ⟨.error 2, 0, none⟩ ∧
      Windows.Meets ⟨true, .empty⟩ "wave" "wave.ffe" [none] fun _ => false) := by
  rintro ⟨-, h⟩
  obtain ⟨ret, d', calls, hadd, hadds⟩ := h 1 fun _ => rfl
  obtain ⟨⟩ := hadd
  exact absurd hadds.ret_eq_zero (by decide)

end Contract

end CollectedSources.VreckoFf
