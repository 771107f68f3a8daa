import CollectedSources.Machine.Run
import Mathlib

/-! # The axes of the device on Linux

The device keeps the last value of each axis. The codes of the hats have the
two directions of a hat next to each other, but `parseAbs` uses them as numbers
of hats, so only the first hat has its own place.
-/

namespace CollectedSources.VreckoFf.Axes

open Machine

section Code

abbrev absX : ℕ := 0
abbrev absY : ℕ := 1
abbrev absZ : ℕ := 2
abbrev absRX : ℕ := 3
abbrev absRY : ℕ := 4
abbrev absRZ : ℕ := 5
abbrev absThrottle : ℕ := 6
abbrev absRudder : ℕ := 7
abbrev absWheel : ℕ := 8
abbrev absGas : ℕ := 9
abbrev absBrake : ℕ := 10
abbrev absHat0X : ℕ := 16
abbrev absHat0Y : ℕ := 17
abbrev absHat1X : ℕ := 18
abbrev absHat1Y : ℕ := 19
abbrev absHat2X : ℕ := 20
abbrev absHat2Y : ℕ := 21
abbrev absHat3X : ℕ := 22
abbrev absHat3Y : ℕ := 23

structure AbsEvent where
  code : ℕ
  value : Int32
  deriving DecidableEq, Repr

/-- The components of the device, with coordinates in `F`. -/
structure Device (F : Type*) where
  pos : Fin 3 → F
  rot : Fin 3 → F
  sliders : Fin 5 → Int64
  povs : Fin 4 → Fin 2 → UInt64

/-- Change an element of an array, if there is one at the index. -/
def modifyAt {α : Type*} {n : ℕ} (array : Fin n → α) (index : ℕ) (f : α → α) :
    Option (Fin n → α) :=
  if h : index < n then some (Function.update array ⟨index, h⟩ (f (array ⟨index, h⟩))) else none

variable {F : Type*} (toFloat : Int32 → F)

/-- There is no new state if an index is outside its array. -/
def parseAbs (d : Device F) (e : AbsEvent) : Option (Device F) :=
  if e.code ∈ [absX, absY, absZ] then
    (modifyAt d.pos (e.code - absX) fun _ => toFloat e.value).map fun pos => { d with pos := pos }
  else if e.code ∈ [absRX, absRY, absRZ] then
    (modifyAt d.rot (e.code - absRX) fun _ => toFloat e.value).map fun rot => { d with rot := rot }
  else if e.code ∈ [absHat0X, absHat1X, absHat2X, absHat3X] then
    (modifyAt d.povs (e.code - absHat0X) fun pov =>
      Function.update pov ⟨0, Nat.zero_lt_two⟩ e.value.toInt64.toUInt64).map
        fun povs => { d with povs := povs }
  else if e.code ∈ [absHat0Y, absHat1Y, absHat2Y, absHat3Y] then
    (modifyAt d.povs (e.code - absHat0Y) fun pov =>
      Function.update pov ⟨1, Nat.one_lt_two⟩ e.value.toInt64.toUInt64).map
        fun povs => { d with povs := povs }
  else if e.code ∈ [absThrottle, absRudder, absWheel, absGas, absBrake] then
    (modifyAt d.sliders (e.code - absThrottle) fun _ => e.value.toInt64).map
      fun sliders => { d with sliders := sliders }
  else some d

def getSlider (d : Device F) (a : Fin 5) : Int32 := (d.sliders a).toInt32

def getPOV (d : Device F) (a : Fin 4) (b : Fin 2) : Int32 := (d.povs a b).toInt64.toInt32

end Code

section Mirror

/-- The axes that the device has a component for. -/
inductive Axis
  | pos (k : Fin 3)
  | rot (k : Fin 3)
  | slider (k : Fin 5)
  | hat (n : Fin 4) (b : Fin 2)
  deriving DecidableEq, Repr

def Axis.code : Axis → ℕ
  | .pos k => absX + k
  | .rot k => absRX + k
  | .slider k => absThrottle + k
  | .hat n b => absHat0X + 2 * n + b

variable {F : Type*} (toFloat : Int32 → F)

/-- The value of an axis as its component shows it. -/
def Axis.shown (axis : Axis) (value : Int32) : F ⊕ Int32 :=
  match axis with
  | .pos _ => .inl (toFloat value)
  | .rot _ => .inl (toFloat value)
  | .slider _ => .inr value
  | .hat _ _ => .inr value

/-- What the accessors of the device return. -/
def Device.view (d : Device F) : Axis → F ⊕ Int32
  | .pos k => .inl (d.pos k)
  | .rot k => .inl (d.rot k)
  | .slider k => .inr (getSlider d k)
  | .hat n b => .inr (getPOV d n b)

/-- The value of an axis after some events. -/
def lastValue (d : Device F) (events : List AbsEvent) (axis : Axis) : F ⊕ Int32 :=
  ((events.filter (·.code = axis.code)).getLast?.map fun e => axis.shown toFloat e.value).getD
    (d.view axis)

/-- The event is stored in an array, and changes the component of its axis only. -/
def ChangesOwn (d : Device F) (e : AbsEvent) : Prop :=
  ∃ d', parseAbs toFloat d e = some d' ∧ ∀ axis,
    d'.view axis = if axis.code = e.code then axis.shown toFloat e.value else d.view axis

/-- The device shows the last values of the axes. -/
structure Mirrors (d : Device F) (events : List AbsEvent) : Prop where
  steps : AllSteps (parseAbs toFloat) (ChangesOwn toFloat) d events
  last : ∃ d', run (parseAbs toFloat) d events = some d' ∧
    ∀ axis, d'.view axis = lastValue toFloat d events axis

/-- The event is not one of the second, third or fourth hat. -/
def FirstHat (e : AbsEvent) : Prop := e.code < absHat1X ∨ absHat3Y < e.code

instance (e : AbsEvent) : Decidable (FirstHat e) :=
  inferInstanceAs (Decidable (e.code < absHat1X ∨ absHat3Y < e.code))

theorem Axis.code_injective : Function.Injective Axis.code := by
  intro a b h
  cases a <;> cases b <;>
    simp only [Axis.code, absX, absRX, absThrottle, absHat0X] at h
  all_goals first
    | omega
    | congr 1 <;> omega

/-- Store a value in the component of an axis. -/
def Device.set (d : Device F) (axis : Axis) (value : Int32) : Device F :=
  match axis with
  | .pos k => { d with pos := Function.update d.pos k (toFloat value) }
  | .rot k => { d with rot := Function.update d.rot k (toFloat value) }
  | .slider k => { d with sliders := Function.update d.sliders k value.toInt64 }
  | .hat n b =>
    { d with
      povs := Function.update d.povs n (Function.update (d.povs n) b value.toInt64.toUInt64) }

theorem view_set (d : Device F) (axis axis' : Axis) (value : Int32) :
    (d.set toFloat axis value).view axis' =
      if axis' = axis then axis'.shown toFloat value else d.view axis' := by
  split_ifs with h
  · subst h
    cases axis' <;> simp [Device.set, Device.view, Axis.shown, getSlider, getPOV]
  · cases axis <;> cases axis' <;>
      simp_all [Device.set, Device.view, getSlider, getPOV, Function.update_apply]
    rename_i n b n' b'
    by_cases hn : n' = n
    · subst hn
      simp [h rfl]
    · simp [hn]

theorem parseAbs_code (d : Device F) {axis : Axis} {value : Int32}
    (h : FirstHat ⟨axis.code, value⟩) :
    parseAbs toFloat d ⟨axis.code, value⟩ = some (d.set toFloat axis value) := by
  cases axis with
  | pos k => fin_cases k <;> rfl
  | rot k => fin_cases k <;> rfl
  | slider k => fin_cases k <;> rfl
  | hat n b =>
    have hn : n = 0 := by
      simp only [FirstHat, Axis.code, absHat0X, absHat1X, absHat3Y] at h
      omega
    subst hn
    fin_cases b <;> rfl

theorem parseAbs_other (d : Device F) {e : AbsEvent} (h : ∀ axis : Axis, axis.code ≠ e.code) :
    parseAbs toFloat d e = some d := by
  have hcode : ∀ axis ∈ [Axis.pos 0, .pos 1, .pos 2, .rot 0, .rot 1, .rot 2, .slider 0, .slider 1,
      .slider 2, .slider 3, .slider 4, .hat 0 0, .hat 0 1, .hat 1 0, .hat 1 1, .hat 2 0, .hat 2 1,
      .hat 3 0, .hat 3 1], e.code ≠ axis.code := fun axis _ heq => h axis heq.symm
  simp only [List.forall_mem_cons, Axis.code] at hcode
  simp only [parseAbs]
  simp_all

theorem changesOwn_of_firstHat (d : Device F) {e : AbsEvent} (h : FirstHat e) :
    ChangesOwn toFloat d e := by
  by_cases haxis : ∃ axis : Axis, axis.code = e.code
  · obtain ⟨axis, haxis⟩ := haxis
    obtain ⟨code, value⟩ := e
    obtain rfl : axis.code = code := haxis
    refine ⟨_, parseAbs_code toFloat d h, fun axis' => ?_⟩
    rw [view_set]
    simp only [Axis.code_injective.eq_iff]
  · have hne : ∀ axis : Axis, axis.code ≠ e.code := fun axis heq => haxis ⟨axis, heq⟩
    refine ⟨d, parseAbs_other toFloat d hne, fun axis => ?_⟩
    rw [if_neg (hne axis)]

theorem last_of_allSteps {d : Device F} {events : List AbsEvent}
    (h : AllSteps (parseAbs toFloat) (ChangesOwn toFloat) d events) :
    ∃ d', run (parseAbs toFloat) d events = some d' ∧
      ∀ axis, d'.view axis = lastValue toFloat d events axis := by
  induction events generalizing d with
  | nil => exact ⟨d, rfl, fun _ => rfl⟩
  | cons e events ih =>
    obtain ⟨-, ⟨d₁, hd₁, hview⟩, hrest⟩ := h
    obtain ⟨d', hrun, hlast⟩ := ih (hrest d₁ hd₁)
    refine ⟨d', by rw [run_cons, hd₁]; exact hrun, fun axis => ?_⟩
    rw [hlast, lastValue, lastValue, hview]
    by_cases hcode : axis.code = e.code
    · rw [if_pos hcode, List.filter_cons_of_pos (by simp [hcode])]
      cases hevents : events.filter (·.code = axis.code) with
      | nil => rfl
      | cons e' events' => simp [List.getLast?_cons]
    · rw [if_neg hcode, List.filter_cons_of_neg (by simpa using Ne.symm hcode)]

theorem getPOV_of_firstHat {d d' : Device F} {e : AbsEvent} (h : FirstHat e)
    (hd' : parseAbs toFloat d e = some d') (b : Fin 2) : getPOV d' 1 b = getPOV d 1 b := by
  obtain ⟨d₁, hd₁, hview⟩ := changesOwn_of_firstHat toFloat d h
  obtain rfl : d₁ = d' := Option.some.inj (hd₁.symm.trans hd')
  have hcode : (Axis.hat 1 b).code ≠ e.code := by
    simp only [FirstHat, absHat1X, absHat3Y] at h
    simp only [Axis.code, absHat0X, Fin.val_one]
    omega
  have hhat := hview (.hat 1 b)
  rw [if_neg hcode] at hhat
  exact Sum.inr.inj hhat

theorem not_changesOwn {d : Device F} {e : AbsEvent} (h : ¬ FirstHat e)
    (hvalue : ∀ b, getPOV d 1 b ≠ e.value) : ¬ ChangesOwn toFloat d e := by
  rintro ⟨d', hd', hview⟩
  obtain ⟨code, value⟩ := e
  simp only [FirstHat, absHat1X, absHat3Y, not_or, not_lt] at h
  obtain ⟨hge, hle⟩ := h
  interval_cases code
  · obtain rfl := Option.some.inj hd'
    exact hvalue 0 (Sum.inr.inj (hview (.hat 1 0)))
  · obtain rfl := Option.some.inj hd'
    exact hvalue 1 (Sum.inr.inj (hview (.hat 1 1)))
  all_goals cases hd'

theorem firstHat_of_allSteps {d : Device F} {before rest : List AbsEvent} {e : AbsEvent}
    (hbefore : ∀ e' ∈ before, FirstHat e') (hvalue : ∀ b, getPOV d 1 b ≠ e.value)
    (h : AllSteps (parseAbs toFloat) (ChangesOwn toFloat) d (before ++ e :: rest)) :
    FirstHat e := by
  induction before generalizing d with
  | nil =>
    by_contra hfirst
    exact not_changesOwn toFloat hfirst hvalue h.2.1
  | cons e' before ih =>
    rw [List.forall_mem_cons] at hbefore
    obtain ⟨-, ⟨d', hd', -⟩, hrest⟩ := h
    refine ih hbefore.2 (fun b => ?_) (hrest d' hd')
    rw [getPOV_of_firstHat toFloat hbefore.1 hd']
    exact hvalue b

/--
Whatever the device shows before, it shows the last values of the axes after some events exactly
when there are none of the second, third and fourth hat among them.
-/
theorem mirrors_iff (events : List AbsEvent) :
    (∀ d : Device F, Mirrors toFloat d events) ↔ ∀ e ∈ events, FirstHat e := by
  constructor
  · intro h
    by_contra hbad
    simp only [not_forall] at hbad
    obtain ⟨e, he, hfirst⟩ := hbad
    have hsome : (events.find? fun e => decide (¬ FirstHat e)).isSome :=
      List.find?_isSome.mpr ⟨e, he, decide_eq_true hfirst⟩
    obtain ⟨e, hfind⟩ := Option.isSome_iff_exists.mp hsome
    obtain ⟨hfirst, before, rest, rfl, hbefore⟩ := List.find?_eq_some_iff_append.mp hfind
    let d : Device F := ⟨fun _ => toFloat 0, fun _ => toFloat 0, fun _ => 0,
      fun _ _ => (e.value + 1).toInt64.toUInt64⟩
    have hvalue : ∀ b, getPOV d 1 b ≠ e.value := by
      intro b heq
      simp [d, getPOV] at heq
    exact of_decide_eq_true hfirst (firstHat_of_allSteps toFloat
      (fun e' he' => by simpa using hbefore e' he') hvalue (h d).steps)
  · intro h d
    have hsteps : AllSteps (parseAbs toFloat) (ChangesOwn toFloat) d events := by
      induction events generalizing d with
      | nil => trivial
      | cons e events ih =>
        rw [List.forall_mem_cons] at h
        exact ⟨trivial, changesOwn_of_firstHat toFloat d h.1, fun d' _ => ih h.2 d'⟩
    exact ⟨hsteps, last_of_allSteps toFloat hsteps⟩

/-- The second hat moves the third one, and an event of the third has no place. -/
theorem second_hat_lost :
    parseAbs (fun v => v.toInt) ⟨fun _ => 0, fun _ => 0, fun _ => 0, fun _ _ => 0⟩ ⟨absHat2X, 1⟩ =
        none ∧
      ¬ Mirrors (fun v => v.toInt) ⟨fun _ => 0, fun _ => 0, fun _ => 0, fun _ _ => 0⟩
        [⟨absHat1X, 1⟩] := by
  refine ⟨rfl, fun h => ?_⟩
  obtain ⟨d', hd', hview⟩ := h.steps.2.1
  obtain rfl := Option.some.inj hd'
  exact absurd (Sum.inr.inj (hview (.hat 1 0))) (by decide)

end Mirror

end CollectedSources.VreckoFf.Axes
