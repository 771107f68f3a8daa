import Mathlib.Data.List.Basic
import Mathlib.Order.Basic

/-! # Scanners

A scanner reads a list from the left. Each step looks at the whole remaining
input, consumes at least its head and emits some output; it may also fail. Runs
compose at every point that the scanner reaches with the rest of its input
untouched.
-/

namespace CollectedSources

/-- A step function on the head and the tail of the input, which it may only shorten. -/
structure Scanner (σ α β : Type*) where
  step : σ → α → List α → Option (σ × List β × List α)
  step_length : ∀ {s a as s' out rest}, step s a as = some (s', out, rest) →
    rest.length ≤ as.length

namespace Scanner

variable {σ α β : Type*}

/-- Put output in front of the output of a run. -/
def emit (out : List β) (p : σ × List β) : σ × List β := (p.1, out ++ p.2)

@[simp] theorem emit_nil : emit (σ := σ) ([] : List β) = id := rfl

@[simp] theorem emit_comp_emit (out out' : List β) :
    emit (σ := σ) out ∘ emit out' = emit (out ++ out') := by
  funext p; simp [emit]

theorem map_emit_eq_some {r : Option (σ × List β)} {s : σ} {out out' : List β} :
    r.map (emit out) = some (s, out') ↔ ∃ o, r = some (s, o) ∧ out ++ o = out' := by
  cases r with
  | none => simp
  | some p =>
    obtain ⟨s', o'⟩ := p
    simp only [Option.map_some, emit, Option.some.injEq, Prod.mk.injEq]
    constructor
    · rintro ⟨rfl, rfl⟩; exact ⟨o', ⟨rfl, rfl⟩, rfl⟩
    · rintro ⟨o, ⟨rfl, rfl⟩, rfl⟩; exact ⟨rfl, rfl⟩

variable (M : Scanner σ α β)

def runFuel : ℕ → σ → List α → Option (σ × List β)
  | _, s, [] => some (s, [])
  | 0, _, _ :: _ => none
  | n + 1, s, a :: as =>
    (M.step s a as).bind fun p => (runFuel n p.1 p.2.2).map (emit p.2.1)

/-- The state and the output after the whole input, if no step fails. -/
def run (s : σ) (as : List α) : Option (σ × List β) := M.runFuel as.length s as

theorem runFuel_succ (n : ℕ) (s : σ) (as : List α) (h : as.length ≤ n) :
    M.runFuel (n + 1) s as = M.runFuel n s as := by
  induction n generalizing s as with
  | zero =>
    obtain rfl := List.length_eq_zero_iff.mp (Nat.le_zero.mp h)
    simp [runFuel]
  | succ n ih =>
    cases as with
    | nil => simp [runFuel]
    | cons a as =>
      simp only [runFuel]
      cases hs : M.step s a as with
      | none => rfl
      | some p =>
        have hr : p.2.2.length ≤ n :=
          Nat.le_trans (M.step_length hs) (by simpa using h)
        simp only [Option.bind_some]
        rw [ih _ _ hr]

theorem runFuel_eq_run {n : ℕ} {as : List α} (s : σ) (h : as.length ≤ n) :
    M.runFuel n s as = M.run s as := by
  induction h with
  | refl => rfl
  | step hn ih => rw [runFuel_succ M _ s as hn, ih]

@[simp] theorem run_nil (s : σ) : M.run s [] = some (s, []) := rfl

theorem run_cons (s : σ) (a : α) (as : List α) :
    M.run s (a :: as) =
      (M.step s a as).bind fun p => (M.run p.1 p.2.2).map (emit p.2.1) := by
  simp only [run, List.length_cons, runFuel]
  cases hs : M.step s a as with
  | none => rfl
  | some p =>
    simp only [Option.bind_some]
    rw [M.runFuel_eq_run _ (M.step_length hs)]
    rfl

/-- The scanner gets from one state to another, emitting some output and leaving some input. -/
inductive Reads : σ → List α → σ → List β → List α → Prop where
  | done (s : σ) (rest : List α) : Reads s rest s [] rest
  | step {s s' s'' : σ} {a : α} {as rest rest' : List α} {out out' : List β} :
      M.step s a as = some (s', out, rest) → Reads s' rest s'' out' rest' →
      Reads s (a :: as) s'' (out ++ out') rest'

variable {M} {s s' s'' : σ} {a : α} {as rest rest' : List α} {out out' : List β}

theorem Reads.run_eq (h : M.Reads s as s' out rest) :
    M.run s as = (M.run s' rest).map (emit out) := by
  induction h with
  | done => simp
  | step hs _ ih =>
    rw [run_cons, hs, Option.bind_some, ih]
    simp

theorem reads_of_run (h : M.run s as = some (s', out)) : M.Reads s as s' out [] := by
  induction hn : as.length using Nat.strongRecOn generalizing s as out with
  | ind n ih =>
    cases as with
    | nil =>
      obtain ⟨rfl, rfl⟩ : s = s' ∧ [] = out := by simpa using h
      exact .done _ _
    | cons a as =>
      rw [run_cons] at h
      cases hs : M.step s a as with
      | none => simp [hs] at h
      | some p =>
        obtain ⟨s₁, out₁, rest⟩ := p
        simp only [hs, Option.bind_some, map_emit_eq_some] at h
        obtain ⟨out₂, hr, rfl⟩ := h
        have hl := M.step_length hs
        exact .step hs (ih rest.length (by simp at hn; omega) hr rfl)

theorem Reads.append {x : List α}
    (hx : ∀ {s a as s' out rest}, M.step s a as = some (s', out, rest) →
      M.step s a (as ++ x) = some (s', out, rest ++ x))
    (h : M.Reads s as s' out rest) : M.Reads s (as ++ x) s' out (rest ++ x) := by
  induction h with
  | done => exact .done _ _
  | step hs _ ih => exact .step (hx hs) ih

theorem Reads.invariant {I : σ → Prop}
    (hI : ∀ {s a as s' out rest}, M.step s a as = some (s', out, rest) → I s → I s')
    (h : M.Reads s as s' out rest) (hs : I s) : I s' := by
  induction h with
  | done => exact hs
  | step hst _ ih => exact ih (hI hst hs)

end Scanner

end CollectedSources
