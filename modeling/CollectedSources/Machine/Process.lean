import CollectedSources.Machine.Run
import Mathlib.Data.List.Basic

/-! # Processes

A process reacts to each input with some events and goes on in a new state or
ends. What every reaction keeps is kept by every run.
-/

namespace CollectedSources.Process

variable {σ τ ι ω : Type*}

/-- Go on from the state of a result, unless the process has ended. -/
def andThen : List ω × Option σ → (σ → List ω × Option τ) → List ω × Option τ
  | (events, none), _ => (events, none)
  | (events, some s), next => (events ++ (next s).1, (next s).2)

@[simp] theorem andThen_none {events : List ω} {next : σ → List ω × Option τ} :
    andThen (events, none) next = (events, none) := rfl

@[simp] theorem andThen_some {events : List ω} {s : σ} {next : σ → List ω × Option τ} :
    andThen (events, some s) next = (events ++ (next s).1, (next s).2) := rfl

theorem andThen_assoc {υ : Type*} (r : List ω × Option σ) (f : σ → List ω × Option τ)
    (g : τ → List ω × Option υ) :
    andThen (andThen r f) g = andThen r fun s => andThen (f s) g := by
  rcases r with ⟨events, _ | s⟩
  · rfl
  · rcases hf : f s with ⟨events', _ | t⟩ <;> simp [hf]

theorem mem_andThen_of_mem {r : List ω × Option σ} {e : ω} (he : e ∈ r.1)
    (next : σ → List ω × Option τ) : e ∈ (andThen r next).1 := by
  rcases r with ⟨events, _ | s⟩
  · exact he
  · exact List.mem_append_left _ he

variable {step : σ → ι → List ω × Option σ} {s : σ}

/-- The events of a list of inputs, and the state after them. -/
def run (step : σ → ι → List ω × Option σ) : σ → List ι → List ω × Option σ
  | s, [] => ([], some s)
  | s, i :: inputs => andThen (step s i) fun s' => run step s' inputs

@[simp] theorem run_nil : run step s [] = ([], some s) := rfl

theorem run_cons {i : ι} {inputs : List ι} :
    run step s (i :: inputs) = andThen (step s i) fun s' => run step s' inputs := rfl

theorem exists_of_run_cons {i : ι} {inputs : List ι} {events : List ω} {s' : σ}
    (h : run step s (i :: inputs) = (events, some s')) :
    ∃ events₁ t events₂, step s i = (events₁, some t) ∧ run step t inputs = (events₂, some s') ∧
      events = events₁ ++ events₂ := by
  rw [run_cons] at h
  rcases hr : step s i with ⟨events₁, _ | t⟩
  · rw [hr] at h
    cases h
  · rw [hr, andThen_some, Prod.mk.injEq] at h
    exact ⟨events₁, t, (run step t inputs).1, rfl, Prod.ext rfl h.2, h.1.symm⟩

/-- If every step from a state with `I` leads to such a state and its events have `Q`, then so
have all events of a run. -/
theorem run_forall {I : σ → Prop} {Q : ω → Prop}
    (hstep : ∀ s i, I s → (∀ e ∈ (step s i).1, Q e) ∧ ∀ s' ∈ (step s i).2, I s') (hs : I s)
    (inputs : List ι) : ∀ e ∈ (run step s inputs).1, Q e := by
  induction inputs generalizing s with
  | nil => simp
  | cons i inputs ih =>
    obtain ⟨hev, hst⟩ := hstep s i hs
    rw [run_cons]
    rcases hr : step s i with ⟨events, _ | s'⟩
    · rw [hr] at hev
      exact hev
    · rw [hr] at hev hst
      intro e he
      rcases List.mem_append.mp he with he | he
      · exact hev e he
      · exact ih (hst s' rfl) e he

theorem forall_of_along {P : σ → Prop} {Q : ω → Prop} {inputs : List ι}
    (h : Machine.Along (fun s i => (step s i).2) P (fun s i => ∀ e ∈ (step s i).1, Q e) s inputs) :
    ∀ e ∈ (run step s inputs).1, Q e := by
  induction inputs generalizing s with
  | nil => simp
  | cons i inputs ih =>
    obtain ⟨-, hev, hrest⟩ := h
    rw [run_cons]
    rcases hr : step s i with ⟨events, _ | s'⟩
    · rw [hr] at hev
      exact hev
    · have hs' : s' ∈ (step s i).2 := by
        rw [hr]
        rfl
      rw [hr] at hev
      intro e he
      rcases List.mem_append.mp he with he | he
      · exact hev e he
      · exact ih (hrest s' hs') e he

/-- The events of a run have a property exactly when those of its steps have it. -/
theorem run_forall_iff {Q : ω → Prop} {inputs : List ι} :
    (∀ e ∈ (run step s inputs).1, Q e) ↔
      Machine.AllSteps (fun s i => (step s i).2) (fun s i => ∀ e ∈ (step s i).1, Q e) s inputs := by
  refine ⟨fun h => ?_, forall_of_along⟩
  induction inputs generalizing s with
  | nil => trivial
  | cons i inputs ih =>
    rw [run_cons] at h
    refine ⟨trivial, fun e he => h e (mem_andThen_of_mem he _), fun s' hs' => ih fun e he => ?_⟩
    have hr : step s i = ((step s i).1, some s') := Prod.ext rfl hs'
    apply h
    rw [hr, andThen_some]
    exact List.mem_append_right _ he

theorem run_events_eq {R : σ → σ → Prop} {I : ι → ι → Prop} {C : σ → ι → Prop}
    (hstep : ∀ s₁ s₂ i₁ i₂, R s₁ s₂ → I i₁ i₂ → C s₁ i₁ → C s₂ i₂ →
      (step s₁ i₁).1 = (step s₂ i₂).1 ∧ Option.Rel R (step s₁ i₁).2 (step s₂ i₂).2)
    {s₁ s₂ : σ} {inputs₁ inputs₂ : List ι} (hs : R s₁ s₂) (hi : List.Forall₂ I inputs₁ inputs₂)
    (h₁ : Machine.AllSteps (fun s i => (step s i).2) C s₁ inputs₁)
    (h₂ : Machine.AllSteps (fun s i => (step s i).2) C s₂ inputs₂) :
    (run step s₁ inputs₁).1 = (run step s₂ inputs₂).1 := by
  induction hi generalizing s₁ s₂ with
  | nil => rfl
  | @cons i₁ i₂ inputs₁ inputs₂ hi _ ih =>
    obtain ⟨-, hc₁, hrest₁⟩ := h₁
    obtain ⟨-, hc₂, hrest₂⟩ := h₂
    obtain ⟨hevents, hnext⟩ := hstep s₁ s₂ i₁ i₂ hs hi hc₁ hc₂
    dsimp only at hrest₁ hrest₂
    rw [run_cons, run_cons]
    generalize step s₁ i₁ = r₁ at hevents hnext hrest₁ ⊢
    generalize step s₂ i₂ = r₂ at hevents hnext hrest₂ ⊢
    obtain ⟨events₁, next₁⟩ := r₁
    obtain ⟨events₂, next₂⟩ := r₂
    cases hnext with
    | none => exact hevents
    | some hnext =>
      simp only [andThen_some]
      rw [ih hnext (hrest₁ _ rfl) (hrest₂ _ rfl)]
      exact congrArg (· ++ _) hevents

section Recorded

variable {ρ : Type*} {note : σ → ρ → ι → ρ} {r : ρ}

/-- The process with a record of its past. Each event comes with the record before it. -/
def recorded (step : σ → ι → List ω × Option σ) (note : σ → ρ → ι → ρ) (s : σ × ρ) (i : ι) :
    List (ω × ρ) × Option (σ × ρ) :=
  ((step s.1 i).1.map fun e => (e, s.2), (step s.1 i).2.map fun s' => (s', note s.1 s.2 i))

theorem run_recorded {inputs : List ι} :
    (run (recorded step note) (s, r) inputs).1.map Prod.fst = (run step s inputs).1 := by
  induction inputs generalizing s r with
  | nil => rfl
  | cons i inputs ih =>
    rw [run_cons, run_cons, recorded]
    rcases step s i with ⟨events, _ | s'⟩
    · simp [Function.comp_def]
    · simp [Function.comp_def, ih]

theorem run_recorded_forall {J : σ → ρ → Prop} {C : σ → ι → Prop} {Q : ω × ρ → Prop}
    (hstep : ∀ s r i, J s r → C s i →
      (∀ e ∈ (step s i).1, Q (e, r)) ∧ ∀ s' ∈ (step s i).2, J s' (note s r i))
    {inputs : List ι} (hs : J s r) (h : Machine.AllSteps (fun s i => (step s i).2) C s inputs) :
    ∀ e ∈ (run (recorded step note) (s, r) inputs).1, Q e := by
  induction inputs generalizing s r with
  | nil => simp
  | cons i inputs ih =>
    obtain ⟨-, hc, hrest⟩ := h
    obtain ⟨hevents, hnext⟩ := hstep s r i hs hc
    dsimp only at hrest
    rw [run_cons, recorded]
    generalize step s i = result at hevents hnext hrest ⊢
    obtain ⟨events, next⟩ := result
    have hmap : ∀ e ∈ events.map fun e => (e, r), Q e := List.forall_mem_map.mpr hevents
    cases next with
    | none => exact hmap
    | some s' =>
      intro e he
      rcases List.mem_append.mp he with he | he
      · exact hmap e he
      · exact ih (hnext s' rfl) (hrest s' rfl) e he

end Recorded

end CollectedSources.Process
