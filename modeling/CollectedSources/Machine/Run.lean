import Mathlib.Data.Nat.Notation
import Mathlib.Data.Option.Basic

/-! # Runs of a partial step function

A machine takes one step for each input and may refuse an input. What every
step preserves holds after every run.
-/

namespace CollectedSources.Machine

variable {σ ι : Type*} {step : σ → ι → Option σ} {s s' : σ} {inputs inputs' : List ι}

/-- The state after a list of inputs, if none is refused. -/
def run (step : σ → ι → Option σ) : σ → List ι → Option σ
  | s, [] => some s
  | s, i :: inputs => (step s i).bind fun s' => run step s' inputs

@[simp] theorem run_nil : run step s [] = some s := rfl

theorem run_cons {i : ι} :
    run step s (i :: inputs) = (step s i).bind fun s' => run step s' inputs := rfl

/-- What every step keeps between the state and an accumulator holds at the end of the run. -/
theorem run_foldl {τ : Type*} {R : σ → τ → Prop} {f : τ → ι → τ} {t : τ}
    (hR : ∀ s t, ∀ i ∈ inputs, ∀ s', step s i = some s' → R s t → R s' (f t i))
    (h : run step s inputs = some s') (hs : R s t) : R s' (inputs.foldl f t) := by
  induction inputs generalizing s t with
  | nil =>
    obtain rfl := Option.some.inj h
    exact hs
  | cons i inputs ih =>
    obtain ⟨s₁, hs₁, h⟩ := Option.bind_eq_some_iff.mp h
    have hnext : R s₁ (f t i) := hR s t i (List.mem_cons_self ..) s₁ hs₁ hs
    exact ih (fun s t j hj => hR s t j (List.mem_cons_of_mem _ hj)) h hnext

theorem run_invariant {I : σ → Prop}
    (hI : ∀ s, ∀ i ∈ inputs, ∀ s', step s i = some s' → I s → I s')
    (h : run step s inputs = some s') (hs : I s) : I s' :=
  run_foldl (R := fun s (_ : Unit) => I s) (f := fun u _ => u) (t := ()) (fun s _ => hI s) h hs

theorem length_add_le_of_run {μ : σ → ℕ}
    (hμ : ∀ s, ∀ i ∈ inputs, ∀ s', step s i = some s' → μ s' < μ s)
    (h : run step s inputs = some s') : inputs.length + μ s' ≤ μ s := by
  induction inputs generalizing s with
  | nil =>
    obtain rfl := Option.some.inj h
    simp
  | cons i inputs ih =>
    obtain ⟨t, ht, h⟩ := Option.bind_eq_some_iff.mp h
    have hlt : μ t < μ s := hμ s i (List.mem_cons_self ..) t ht
    have hle : inputs.length + μ s' ≤ μ t := ih (fun s i hi => hμ s i (List.mem_cons_of_mem _ hi)) h
    rw [List.length_cons]
    omega

/-- A property of all states of a run, and one of all its steps. -/
def Along (step : σ → ι → Option σ) (P : σ → Prop) (Q : σ → ι → Prop) : σ → List ι → Prop
  | s, [] => P s
  | s, i :: inputs => P s ∧ Q s i ∧ ∀ s' ∈ step s i, Along step P Q s' inputs

/-- A condition on all steps of a run. -/
def AllSteps (step : σ → ι → Option σ) (C : σ → ι → Prop) (s : σ) (inputs : List ι) : Prop :=
  Along step (fun _ => True) C s inputs

/-- A property of all states of a run. -/
def AllStates (step : σ → ι → Option σ) (P : σ → Prop) (s : σ) (inputs : List ι) : Prop :=
  Along step P (fun _ _ => True) s inputs

variable {P J : σ → Prop} {Q C : σ → ι → Prop}

instance Along.decidable [∀ s, Decidable (P s)] [∀ s i, Decidable (Q s i)] (s : σ) :
    (inputs : List ι) → Decidable (Along step P Q s inputs)
  | [] => inferInstanceAs (Decidable (P s))
  | i :: inputs =>
    match hstep : step s i with
    | none => decidable_of_iff (P s ∧ Q s i) (by simp [Along, hstep])
    | some s' =>
      have : Decidable (Along step P Q s' inputs) := Along.decidable s' inputs
      decidable_of_iff (P s ∧ Q s i ∧ Along step P Q s' inputs) (by simp [Along, hstep])

instance AllSteps.decidable [∀ s i, Decidable (C s i)] (s : σ) (inputs : List ι) :
    Decidable (AllSteps step C s inputs) :=
  inferInstanceAs (Decidable (Along step _ C s inputs))

instance AllStates.decidable [∀ s, Decidable (P s)] (s : σ) (inputs : List ι) :
    Decidable (AllStates step P s inputs) :=
  inferInstanceAs (Decidable (Along step P _ s inputs))

theorem Along.head (h : Along step P Q s inputs) : P s := by
  cases inputs with
  | nil => exact h
  | cons i inputs => exact h.1

theorem AllSteps.and_of_forall {D : ι → Prop} (h : AllSteps step C s inputs)
    (hD : ∀ i ∈ inputs, D i) : AllSteps step (fun s i => C s i ∧ D i) s inputs := by
  induction inputs generalizing s with
  | nil => trivial
  | cons i inputs ih =>
    obtain ⟨-, hc, hrest⟩ := h
    refine ⟨trivial, ⟨hc, hD i (List.mem_cons_self ..)⟩, fun s' hs' => ih (hrest s' hs') ?_⟩
    exact fun j hj => hD j (List.mem_cons_of_mem _ hj)

theorem Along.run (h : Along step P Q s inputs) (hrun : run step s inputs = some s') : P s' := by
  induction inputs generalizing s with
  | nil =>
    obtain rfl := Option.some.inj hrun
    exact h
  | cons i inputs ih =>
    obtain ⟨t, ht, hrun⟩ := Option.bind_eq_some_iff.mp hrun
    exact ih (h.2.2 t ht) hrun

theorem along_of_invariant (hJ : ∀ s, J s → P s)
    (keep : ∀ s i, J s → Q s i ∧ ∀ s' ∈ step s i, J s') (hs : J s) : Along step P Q s inputs := by
  induction inputs generalizing s with
  | nil => exact hJ s hs
  | cons i inputs ih =>
    obtain ⟨hq, hnext⟩ := keep s i hs
    exact ⟨hJ s hs, hq, fun s' hs' => ih (hnext s' hs')⟩

/-- A condition that keeps the invariant `J` makes the properties hold along every run. -/
theorem along_of_allSteps (hJ : ∀ s, J s → P s)
    (good : ∀ s i, J s → C s i → Q s i ∧ ∀ s' ∈ step s i, J s') (hs : J s)
    (h : AllSteps step C s inputs) : Along step P Q s inputs := by
  induction inputs generalizing s with
  | nil => exact hJ s hs
  | cons i inputs ih =>
    obtain ⟨-, hc, hrest⟩ := h
    obtain ⟨hq, hnext⟩ := good s i hs hc
    exact ⟨hJ s hs, hq, fun s' hs' => ih (hnext s' hs') (hrest s' hs')⟩

theorem along_iff_allSteps (hJ : ∀ s, J s → P s)
    (good : ∀ s i, J s → C s i → Q s i ∧ ∀ s' ∈ step s i, J s')
    (bad : ∀ s i, J s → Q s i → (∀ s' ∈ step s i, P s') → C s i) (hs : J s) :
    Along step P Q s inputs ↔ AllSteps step C s inputs := by
  refine ⟨fun h => ?_, along_of_allSteps hJ good hs⟩
  induction inputs generalizing s with
  | nil => trivial
  | cons i inputs ih =>
    obtain ⟨-, hq, hrest⟩ := h
    have hc : C s i := bad s i hs hq fun s' hs' => (hrest s' hs').head
    exact ⟨trivial, hc, fun s' hs' => ih ((good s i hs hc).2 s' hs') (hrest s' hs')⟩

/-- The same for a property of states only. -/
theorem allStates_iff_allSteps (hJ : ∀ s, J s → P s)
    (good : ∀ s i, J s → C s i → ∀ s' ∈ step s i, J s')
    (bad : ∀ s i, J s → (∀ s' ∈ step s i, P s') → C s i) (hs : J s) :
    AllStates step P s inputs ↔ AllSteps step C s inputs :=
  along_iff_allSteps hJ (fun s i hs hc => ⟨trivial, good s i hs hc⟩) (fun s i hs _ => bad s i hs) hs

end CollectedSources.Machine
