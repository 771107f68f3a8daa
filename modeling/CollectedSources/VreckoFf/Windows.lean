import CollectedSources.Machine.Dictionary
import CollectedSources.Machine.Resources
import CollectedSources.Machine.Run
import Mathlib

/-! # The effects on Windows

An effect file yields effects of the device, which an `Effect` creates when it
is loaded and releases when it is unloaded. A load that fails half-way, a reload
whose result nobody looks at, and a playing effect when the device is closed are
the three ways to lose one.
-/

namespace CollectedSources.VreckoFf.Windows

open Machine Resource

/-- What `CreateEffect` returns for each effect of a file. -/
abbrev File := List (Option ℕ)

/-- The effects that are created before one fails. -/
def created : File → List ℕ
  | [] => []
  | none :: _ => []
  | some r :: file => r :: created file

section Effect

/-- What `load` returns, the set it fills, and its calls. -/
structure Loading where
  ret : ℕ
  effects : List ℕ
  calls : List (Event ℕ)

/-- Insert into a set that is kept in the order of the addresses. -/
def insertEffect (r : ℕ) (effects : List ℕ) : List ℕ :=
  if r ∈ effects then effects else effects.orderedInsert (· ≤ ·) r

def enumEffectsInFile (really : Bool) (effects : List ℕ) : File → Loading
  | [] => ⟨0, effects, []⟩
  | none :: _ => ⟨1, effects, []⟩
  | some r :: file =>
    if really then
      let l := enumEffectsInFile really (insertEffect r effects) file
      { l with calls := .opened r :: l.calls }
    else
      let l := enumEffectsInFile really effects file
      { l with calls := .opened r :: .closed r :: l.calls }

def load (really : Bool) (file : File) : Loading := enumEffectsInFile really [] file

/-- An effect that is loaded from a file, with what its last `load` returned. -/
structure Effect where
  path : String
  onCreate : Bool
  isLoaded : Bool
  effects : List ℕ
  lastLoad : ℕ

def Effect.create (path : String) (onCreate : Bool) (file : File) : Effect × List (Event ℕ) :=
  let l := load onCreate file
  (⟨path, onCreate, l.ret == 0 && onCreate, l.effects, l.ret⟩, l.calls)

/-- Whether one of the effects is reported playing, and the calls up to that one. -/
def isPlaying (playing : ℕ → Bool) : List ℕ → Bool × List (Event ℕ)
  | [] => (false, [])
  | r :: effects =>
    if playing r then (true, [.used r])
    else ((isPlaying playing effects).1, .used r :: (isPlaying playing effects).2)

def Effect.unload (playing : ℕ → Bool) (e : Effect) : Effect × List (Event ℕ) :=
  if !e.isLoaded then (e, [])
  else
    match isPlaying playing e.effects with
    | (true, calls) => (e, calls)
    | (false, calls) =>
      ({ e with isLoaded := false, effects := [] }, calls ++ e.effects.map .closed)

def Effect.play (file : File) (e : Effect) : Effect × List (Event ℕ) :=
  if e.isLoaded then (e, e.effects.map .used)
  else
    let l := load true file
    ({ e with isLoaded := true, effects := l.effects, lastLoad := l.ret },
      l.calls ++ l.effects.map .used)

def Effect.stop (e : Effect) : List (Event ℕ) := e.effects.map .used

end Effect

section Device

/-- The device pointer is there or null. -/
structure Device where
  joydev : Bool
  effectsMap : Dictionary String Effect

/-- When effects are loaded. -/
def eOnCreate : Bool := true

/-- The return value, the device and the calls. Without the device the program ends. -/
def addEffect (d : Device) (name path : String) (file : File) (playing : ℕ → Bool) :
    Option (ℕ × Device × List (Event ℕ)) :=
  match d.effectsMap.find name with
  | some _ => some (1, d, [])
  | none =>
    if !d.joydev then none
    else
      let (eff, calls) := Effect.create path eOnCreate file
      if eff.lastLoad = 0 then
        some (0, { d with effectsMap := d.effectsMap.insert name eff }, calls)
      else some (0, d, calls ++ (eff.unload playing).2)

/-- A call of an effect by its name. -/
def onEffect (d : Device) (name : String) (f : Effect → Effect × List (Event ℕ)) :
    Device × List (Event ℕ) :=
  match d.effectsMap.find name with
  | some e => ({ d with effectsMap := d.effectsMap.modify name fun e => (f e).1 }, (f e).2)
  | none => (d, [])

def closeDevice (d : Device) (playing : ℕ → Bool) : Device × List (Event ℕ) :=
  (⟨false, .empty⟩, d.effectsMap.entries.flatMap fun e => (e.2.unload playing).2)

/-- A call, with what the system answers to it. -/
inductive Method
  | addEffect (name path : String) (file : File) (playing : ℕ → Bool)
  | play (name : String) (file : File)
  | stop (name : String)
  | unload (name : String) (playing : ℕ → Bool)
  | closeDevice (playing : ℕ → Bool)

def call (d : Device) : Method → Option (Device × List (Event ℕ))
  | .addEffect name path file playing => (addEffect d name path file playing).map Prod.snd
  | .play name file => some (onEffect d name (Effect.play file))
  | .stop name => some (onEffect d name fun e => (e, e.stop))
  | .unload name playing => some (onEffect d name (Effect.unload playing))
  | .closeDevice playing => some (closeDevice d playing)

/-- A device and the calls so far. -/
structure State where
  device : Device
  calls : List (Event ℕ)

/-- An effect that is created is none of those that exist. -/
def step (s : State) (m : Method) : Option State := do
  let (d, calls) ← call s.device m
  if Fresh (after [] s.calls) calls then some ⟨d, s.calls ++ calls⟩ else none

/-- The device has been opened. -/
def start : State := ⟨⟨true, .empty⟩, []⟩

end Device

section Ownership

/-- Every effect that was created is released once when the device is closed, and what is marked as
loaded has been loaded. -/
structure Released (s : State) : Prop where
  proper : Proper [] s.calls
  loaded : ∀ e ∈ s.device.effectsMap.entries, e.2.isLoaded = true → e.2.lastLoad = 0
  balanced : s.device.joydev = false → ∀ r, (closed s.calls).count r = (opened s.calls).count r

/-- A new effect whose load fails has created nothing, reloads do not fail, and nothing plays when
the device is closed. -/
def LosesNothing (s : State) : Method → Prop
  | .addEffect name _ file _ =>
    s.device.effectsMap.find name = none → none ∈ file → created file = []
  | .play name file =>
    ∀ e ∈ s.device.effectsMap.find name, e.isLoaded = false → none ∉ file
  | .closeDevice playing =>
    ∀ e ∈ s.device.effectsMap.entries, e.2.isLoaded = true → ∀ r ∈ e.2.effects, playing r = false
  | _ => True

instance (s : State) : DecidablePred (LosesNothing s)
  | .addEffect name _ file _ => inferInstanceAs (Decidable (s.device.effectsMap.find name = none →
      none ∈ file → created file = []))
  | .play name file => inferInstanceAs (Decidable (∀ e ∈ s.device.effectsMap.find name,
      e.isLoaded = false → none ∉ file))
  | .closeDevice playing => inferInstanceAs (Decidable (∀ e ∈ s.device.effectsMap.entries,
      e.2.isLoaded = true → ∀ r ∈ e.2.effects, playing r = false))
  | .stop _ => inferInstanceAs (Decidable True)
  | .unload _ _ => inferInstanceAs (Decidable True)

variable {effects : List ℕ} {file : File} {playing : ℕ → Bool} {e : Effect}

theorem perm_insertEffect {r : ℕ} (h : r ∉ effects) :
    (insertEffect r effects).Perm (r :: effects) := by
  rw [insertEffect, if_neg h]
  exact List.perm_orderedInsert (· ≤ ·) r effects

theorem enumEffectsInFile_ret (really : Bool) (effects : List ℕ) (file : File) :
    (enumEffectsInFile really effects file).ret = 0 ↔ none ∉ file := by
  induction file generalizing effects with
  | nil => simp [enumEffectsInFile]
  | cons c file ih =>
    cases c with
    | none => simp [enumEffectsInFile]
    | some r => cases really <;> simp [enumEffectsInFile, ih]

theorem enumEffectsInFile_calls (effects : List ℕ) (file : File) :
    (enumEffectsInFile true effects file).calls = (created file).map .opened := by
  induction file generalizing effects with
  | nil => rfl
  | cons c file ih =>
    cases c with
    | none => rfl
    | some r => simp [enumEffectsInFile, created, ih]

theorem enumEffectsInFile_effects (hnodup : (created file).Nodup)
    (hnew : ∀ r ∈ created file, r ∉ effects) :
    (enumEffectsInFile true effects file).effects.Perm (created file ++ effects) := by
  induction file generalizing effects with
  | nil => exact List.Perm.refl _
  | cons c file ih =>
    cases c with
    | none => exact List.Perm.refl _
    | some r =>
      rw [created, List.nodup_cons] at hnodup
      rw [created, List.forall_mem_cons] at hnew
      have hinsert := perm_insertEffect hnew.1
      have hrest : ∀ r' ∈ created file, r' ∉ insertEffect r effects := by
        intro r' hr' hmem
        rcases List.mem_cons.mp (hinsert.subset hmem) with rfl | hmem
        · exact hnodup.1 hr'
        · exact hnew.2 r' hr' hmem
      simp only [enumEffectsInFile, created, if_true]
      exact ((ih hnodup.2 hrest).trans (hinsert.append_left _)).trans List.perm_middle

theorem moves_load (file : File) : Moves (load true file).calls [] (load true file).effects := by
  intro live rest hlive hfresh
  rw [load, enumEffectsInFile_calls] at hfresh ⊢
  obtain ⟨hproper, hperm⟩ := moves_opened (created file) live rest hlive hfresh
  have heffects : (enumEffectsInFile true [] file).effects.Perm (created file ++ []) :=
    enumEffectsInFile_effects hfresh.nodup.1 (by simp)
  rw [List.append_nil] at heffects
  exact ⟨hproper, hperm.trans (heffects.symm.append_right rest)⟩

theorem isPlaying_eq_false :
    (isPlaying playing effects).1 = false ↔ ∀ r ∈ effects, playing r = false := by
  induction effects with
  | nil => simp [isPlaying]
  | cons r effects ih =>
    rw [isPlaying, List.forall_mem_cons, ← ih]
    split <;> simp_all

theorem isPlaying_calls (playing : ℕ → Bool) (effects : List ℕ) :
    ∃ rs : List ℕ, (isPlaying playing effects).2 = rs.map .used ∧ ∀ r ∈ rs, r ∈ effects := by
  induction effects with
  | nil => exact ⟨[], rfl, by simp⟩
  | cons r effects ih =>
    obtain ⟨rs, hcalls, hrs⟩ := ih
    rw [isPlaying]
    split
    · exact ⟨[r], rfl, by simp⟩
    · refine ⟨r :: rs, by rw [hcalls]; rfl, ?_⟩
      rw [List.forall_mem_cons]
      exact ⟨List.mem_cons_self, fun r' hr' => List.mem_cons_of_mem r (hrs r' hr')⟩

theorem moves_isPlaying : Moves (isPlaying playing effects).2 effects effects := by
  obtain ⟨rs, hcalls, hrs⟩ := isPlaying_calls playing effects
  rw [hcalls]
  exact moves_used hrs

/-- An effect that is not loaded holds nothing, and one that is has been loaded. -/
structure Effect.Inv (e : Effect) : Prop where
  loaded : e.isLoaded = true → e.lastLoad = 0
  unloaded : e.isLoaded = false → e.effects = []

theorem Effect.unload_of_not_loaded (h : e.isLoaded = false) (playing : ℕ → Bool) :
    e.unload playing = (e, []) := by
  rw [Effect.unload, h]
  rfl

theorem Effect.Inv.unload (h : e.Inv) (playing : ℕ → Bool) :
    Moves (e.unload playing).2 e.effects (e.unload playing).1.effects ∧
      (e.unload playing).1.Inv := by
  rw [Effect.unload]
  split
  · exact ⟨moves_nil _, h⟩
  · have hmoves : Moves (isPlaying playing e.effects).2 e.effects e.effects := moves_isPlaying
    split
    · rename_i calls heq
      rw [heq] at hmoves
      exact ⟨hmoves, h⟩
    · rename_i calls heq
      rw [heq] at hmoves
      refine ⟨hmoves.append (moves_closed e.effects), ?_, fun _ => rfl⟩
      rintro ⟨⟩

theorem Effect.Inv.unload_effects (h : e.Inv)
    (hquiet : e.isLoaded = true → ∀ r ∈ e.effects, playing r = false) :
    (e.unload playing).1.effects = [] := by
  rcases hloaded : e.isLoaded with _ | _
  · rw [Effect.unload_of_not_loaded hloaded]
    exact h.unloaded hloaded
  · have hplaying := isPlaying_eq_false.mpr (hquiet hloaded)
    rw [Effect.unload, hloaded]
    split
    · rename_i hfalse
      cases hfalse
    · split
      · rename_i calls heq
        rw [heq] at hplaying
        cases hplaying
      · rfl

theorem Effect.Inv.play (h : e.Inv) (hfile : e.isLoaded = false → none ∉ file) :
    Moves (e.play file).2 e.effects (e.play file).1.effects ∧ (e.play file).1.Inv := by
  rw [Effect.play]
  split
  · exact ⟨moves_used fun r hr => hr, h⟩
  · rename_i hloaded
    rw [Bool.not_eq_true] at hloaded
    rw [h.unloaded hloaded]
    refine ⟨(moves_load file).append (moves_used fun r hr => hr), fun _ => ?_, ?_⟩
    · exact (enumEffectsInFile_ret true [] file).mpr (hfile hloaded)
    · rintro ⟨⟩

theorem Effect.inv_create (path : String) (hfile : none ∉ file) :
    (Effect.create path eOnCreate file).1.Inv := by
  have hret : (load true file).ret = 0 := (enumEffectsInFile_ret _ _ _).mpr hfile
  constructor
  · exact fun _ => hret
  · simp [Effect.create, eOnCreate, hret]

variable {s s' : State} {d d' : Device} {m : Method} {name path : String} {calls : List (Event ℕ)}

theorem addEffect_of_present (hname : d.effectsMap.find name = some e) :
    addEffect d name path file playing = some (1, d, []) := by
  rw [addEffect, hname]

theorem addEffect_of_null (hname : d.effectsMap.find name = none) (hjoydev : d.joydev = false) :
    addEffect d name path file playing = none := by
  rw [addEffect, hname, hjoydev]
  rfl

theorem addEffect_of_loads (hname : d.effectsMap.find name = none) (hjoydev : d.joydev = true)
    (hfile : none ∉ file) :
    addEffect d name path file playing =
      some (0, ⟨d.joydev, d.effectsMap.insert name (Effect.create path eOnCreate file).1⟩,
        (Effect.create path eOnCreate file).2) := by
  have hret : (Effect.create path eOnCreate file).1.lastLoad = 0 :=
    (enumEffectsInFile_ret _ _ _).mpr hfile
  simp [addEffect, hname, hjoydev, hret]

theorem addEffect_of_not_loads (path : String) (playing : ℕ → Bool)
    (hname : d.effectsMap.find name = none) (hjoydev : d.joydev = true) (hfile : none ∈ file) :
    addEffect d name path file playing = some (0, d, (created file).map .opened) := by
  have hret : (Effect.create path eOnCreate file).1.lastLoad ≠ 0 :=
    fun hret => (enumEffectsInFile_ret _ _ _).mp hret hfile
  have hloaded : (Effect.create path eOnCreate file).1.isLoaded = false :=
    Bool.and_eq_false_imp.mpr fun hzero => absurd (beq_iff_eq.mp hzero) hret
  have hcalls : (Effect.create path eOnCreate file).2 = (created file).map .opened :=
    enumEffectsInFile_calls [] file
  simp [addEffect, hname, hjoydev, hret, Effect.unload_of_not_loaded hloaded, hcalls]

/-- The effects that a list of entries holds. -/
def held (entries : List (String × Effect)) : List ℕ := entries.flatMap fun e => e.2.effects

/-- The calls of a method keep up with what the device holds. -/
structure Keeps (d : Device) (calls : List (Event ℕ)) (d' : Device) : Prop where
  moves : Moves calls (held d.effectsMap.entries) (held d'.effectsMap.entries)
  inv : ∀ e ∈ d'.effectsMap.entries, e.2.Inv
  joydev : d'.joydev = false → d'.effectsMap.entries = []

/-- All existing effects are held. -/
structure Inv (s : State) : Prop where
  proper : Proper [] s.calls
  live : (after [] s.calls).Perm (held s.device.effectsMap.entries)
  inv : ∀ e ∈ s.device.effectsMap.entries, e.2.Inv
  joydev : s.device.joydev = false → s.device.effectsMap.entries = []

theorem inv_start : Inv start := by
  refine ⟨trivial, List.Perm.refl _, ?_, ?_⟩
  · rintro e ⟨⟩
  · rintro ⟨⟩

theorem Inv.released (h : Inv s) : Released s := by
  refine ⟨h.proper, fun e he => (h.inv e he).loaded, fun hclosed r => ?_⟩
  have hcount := count_closed_add h.proper r
  have hempty : after [] s.calls = [] := by
    have hlive := h.live
    rw [h.joydev hclosed] at hlive
    exact hlive.eq_nil
  rw [hempty] at hcount
  simpa using hcount

theorem Inv.of_keeps (h : Inv s) (hkeeps : Keeps s.device calls d)
    (hfresh : Fresh (after [] s.calls) calls) : Inv ⟨d, s.calls ++ calls⟩ := by
  have hlive : (after [] s.calls).Perm (held s.device.effectsMap.entries ++ []) := by
    rw [List.append_nil]
    exact h.live
  obtain ⟨hproper, hperm⟩ := hkeeps.moves _ [] hlive hfresh
  rw [List.append_nil] at hperm
  refine ⟨proper_append.mpr ⟨h.proper, hproper⟩, ?_, hkeeps.inv, hkeeps.joydev⟩
  rw [after_append]
  exact hperm

theorem Inv.keeps_self (h : Inv s) : Keeps s.device [] s.device :=
  ⟨moves_nil _, h.inv, h.joydev⟩

theorem Inv.onEffect (h : Inv s) {f : Effect → Effect × List (Event ℕ)}
    (hf : ∀ e, s.device.effectsMap.find name = some e → e.Inv →
      Moves (f e).2 e.effects (f e).1.effects ∧ (f e).1.Inv)
    (hcall : onEffect s.device name f = (d, calls)) : Keeps s.device calls d := by
  rw [Windows.onEffect] at hcall
  split at hcall
  · rename_i e hfind
    cases hcall
    obtain ⟨l, r, hentries, hmodify⟩ := Dictionary.entries_modify hfind
    have hinv := h.inv
    simp only [hentries, List.forall_mem_append, List.forall_mem_cons] at hinv
    obtain ⟨hmoves, hnew⟩ := hf e hfind hinv.2.1
    refine ⟨?_, ?_, fun hclosed => ?_⟩
    · have hheld : ∀ e' : Effect, (held (l ++ (name, e') :: r)).Perm
          (e'.effects ++ (held l ++ held r)) := by
        intro e'
        simp only [held, List.flatMap_append, List.flatMap_cons]
        exact List.perm_append_comm_assoc _ _ _
      rw [hmodify, hentries]
      exact (hmoves.frame (held l ++ held r)).perm (hheld e) (hheld _).symm
    · simp only [hmodify, List.forall_mem_append, List.forall_mem_cons]
      exact ⟨hinv.1, hnew, hinv.2.2⟩
    · have hempty := h.joydev hclosed
      rw [hentries] at hempty
      simp at hempty
  · cases hcall
    exact h.keeps_self

theorem Inv.addEffect (h : Inv s) {ret : ℕ}
    (hfile : s.device.effectsMap.find name = none → none ∈ file → created file = [])
    (hadd : addEffect s.device name path file playing = some (ret, d, calls)) :
    Keeps s.device calls d := by
  rcases hfind : s.device.effectsMap.find name with _ | e
  · rcases hjoydev : s.device.joydev with _ | _
    · rw [addEffect_of_null hfind hjoydev] at hadd
      cases hadd
    · by_cases hnone : none ∈ file
      · rw [addEffect_of_not_loads path playing hfind hjoydev hnone, hfile hfind hnone] at hadd
        cases hadd
        exact h.keeps_self
      · rw [addEffect_of_loads hfind hjoydev hnone] at hadd
        cases hadd
        have hperm := Dictionary.perm_insert hfind (Effect.create path eOnCreate file).1
        refine ⟨?_, fun e he => ?_, fun hclosed => ?_⟩
        · have hheld := hperm.flatMap_right fun e => e.2.effects
          exact ((moves_load file).frame _).perm (List.Perm.refl _) hheld.symm
        · rcases List.mem_cons.mp (hperm.subset he) with rfl | he
          · exact Effect.inv_create path hnone
          · exact h.inv e he
        · rw [hjoydev] at hclosed
          cases hclosed
  · rw [addEffect_of_present hfind] at hadd
    cases hadd
    exact h.keeps_self

theorem moves_closeDevice {entries : List (String × Effect)} (hinv : ∀ e ∈ entries, e.2.Inv)
    (hquiet : ∀ e ∈ entries, e.2.isLoaded = true → ∀ r ∈ e.2.effects, playing r = false) :
    Moves (entries.flatMap fun e => (e.2.unload playing).2) (held entries) [] := by
  induction entries with
  | nil => exact moves_nil []
  | cons e entries ih =>
    rw [List.forall_mem_cons] at hinv hquiet
    have hmoves := (hinv.1.unload playing).1
    rw [hinv.1.unload_effects hquiet.1] at hmoves
    exact (hmoves.frame (held entries)).append (ih hinv.2 hquiet.2)

theorem Inv.step (h : Inv s) (hm : LosesNothing s m) (hs : step s m = some s') : Inv s' := by
  obtain ⟨⟨d, calls⟩, hcall, hs⟩ := Option.bind_eq_some_iff.mp hs
  dsimp only at hs
  split_ifs at hs with hfresh
  obtain rfl := Option.some.inj hs
  refine h.of_keeps ?_ hfresh
  cases m with
  | addEffect name path file playing =>
    obtain ⟨⟨ret, _⟩, hadd, ⟨⟩⟩ := Option.map_eq_some_iff.mp hcall
    exact h.addEffect hm hadd
  | play name file =>
    exact h.onEffect (fun e hfind he => he.play (hm e hfind)) (Option.some.inj hcall)
  | stop name =>
    exact h.onEffect (fun e _ he => ⟨moves_used fun r hr => hr, he⟩) (Option.some.inj hcall)
  | unload name playing =>
    exact h.onEffect (fun e _ he => he.unload playing) (Option.some.inj hcall)
  | closeDevice playing =>
    cases hcall
    refine ⟨moves_closeDevice h.inv hm, ?_, fun _ => rfl⟩
    rintro e ⟨⟩

/-- In every run that loses nothing, all effects are released once. -/
theorem released_of_losesNothing (methods : List Method)
    (h : AllSteps step LosesNothing start methods) :
    AllStates step Released start methods :=
  along_of_allSteps (fun _ hs => hs.released)
    (fun _ _ hs hm => ⟨trivial, fun _ hs' => hs.step hm hs'⟩) inv_start h

/-- An effect is played, unloaded, reloaded and stopped. -/
theorem released_reload :
    AllStates step Released start
      [.addEffect "wave" "wave.ffe" [some 1, some 2] fun _ => false, .play "wave" [],
        .unload "wave" fun r => r == 2, .unload "wave" fun _ => false, .play "wave" [some 2],
        .stop "wave", .closeDevice fun _ => false] :=
  released_of_losesNothing _ (by decide +kernel)

/-- The second effect of a file cannot be created, and the first one is never released. -/
theorem not_released_halfLoaded :
    ¬ AllStates step Released start
      [.addEffect "wave" "wave.ffe" [some 1, none] fun _ => false,
        .closeDevice fun _ => false] := by
  intro h
  have hreleased : Released ⟨⟨false, .empty⟩, [.opened 1]⟩ := h.run rfl
  exact absurd (hreleased.balanced rfl 1) (by decide)

end Ownership

end CollectedSources.VreckoFf.Windows
