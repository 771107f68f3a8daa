import Mathlib

/-! # Owners of descriptors

A table maps the open descriptors of a process to files. Descriptors are used
again after they are closed. As long as every owner closes only its own descriptor
and passes it on once, the descriptors of the others keep their files.
-/

namespace CollectedSources.Machine

variable {ι κ : Type*} {table : ℕ → Option κ} {held : ι → Option (ℕ × κ)}

/-- Every owner's descriptor is open for its file, and no two owners share a descriptor or a
file. -/
structure Owns (table : ℕ → Option κ) (held : ι → Option (ℕ × κ)) : Prop where
  opened : ∀ {i fd c}, held i = some (fd, c) → table fd = some c
  fd_unique : ∀ {i j fd c c'}, held i = some (fd, c) → held j = some (fd, c') → i = j
  file_unique : ∀ {i j fd fd' c}, held i = some (fd, c) → held j = some (fd', c) → i = j

theorem owns_none (table : ℕ → Option κ) : Owns table fun _ : ι => none := by
  constructor <;> simp

namespace Owns

variable {i j : ι} {fd : ℕ} {c : κ}

theorem ne_of_ne (h : Owns table held) (hi : held i = some (fd, c)) (hne : j ≠ i) {fd' : ℕ} {c' : κ}
    (hj : held j = some (fd', c')) : fd' ≠ fd ∧ c' ≠ c := by
  constructor
  · rintro rfl
    exact hne (h.fd_unique hj hi)
  · rintro rfl
    exact hne (h.file_unique hj hi)

variable [DecidableEq ι]

theorem update_eq_some {x : Option (ℕ × κ)} {p : ℕ × κ} (h : Function.update held i x j = some p) :
    j = i ∧ x = some p ∨ j ≠ i ∧ held j = some p := by
  rcases eq_or_ne j i with rfl | hne
  · rw [Function.update_self] at h
    exact .inl ⟨rfl, h⟩
  · rw [Function.update_of_ne hne] at h
    exact .inr ⟨hne, h⟩

theorem opens (h : Owns table held) (hfd : table fd = none)
    (hc : ∀ j fd', held j ≠ some (fd', c)) :
    Owns (Function.update table fd (some c)) (Function.update held i (some (fd, c))) := by
  have hfree : ∀ {j c'}, held j ≠ some (fd, c') := by
    intro j c' hj
    rw [h.opened hj] at hfd
    cases hfd
  constructor
  · intro j fd' c' hj
    rcases update_eq_some hj with ⟨-, ⟨⟩⟩ | ⟨-, hold⟩
    · exact Function.update_self ..
    · have hne : fd' ≠ fd := by
        rintro rfl
        exact hfree hold
      rw [Function.update_of_ne hne]
      exact h.opened hold
  · intro j k fd' c' c'' hj hk
    rcases update_eq_some hj with ⟨rfl, ⟨⟩⟩ | ⟨-, hj⟩
    · rcases update_eq_some hk with ⟨rfl, -⟩ | ⟨-, hk⟩
      · rfl
      · exact absurd hk hfree
    · rcases update_eq_some hk with ⟨-, ⟨⟩⟩ | ⟨-, hk⟩
      · exact absurd hj hfree
      · exact h.fd_unique hj hk
  · intro j k fd' fd'' c' hj hk
    rcases update_eq_some hj with ⟨rfl, ⟨⟩⟩ | ⟨-, hj⟩
    · rcases update_eq_some hk with ⟨rfl, -⟩ | ⟨-, hk⟩
      · rfl
      · exact absurd hk (hc _ _)
    · rcases update_eq_some hk with ⟨-, ⟨⟩⟩ | ⟨-, hk⟩
      · exact absurd hj (hc _ _)
      · exact h.file_unique hj hk

theorem closes (h : Owns table held) (hi : held i = some (fd, c)) :
    Owns (Function.update table fd none) (Function.update held i none) := by
  constructor
  · intro j fd' c' hj
    rcases update_eq_some hj with ⟨-, ⟨⟩⟩ | ⟨hne, hj⟩
    rw [Function.update_of_ne (h.ne_of_ne hi hne hj).1]
    exact h.opened hj
  · intro j k fd' c' c'' hj hk
    rcases update_eq_some hj with ⟨-, ⟨⟩⟩ | ⟨-, hj⟩
    rcases update_eq_some hk with ⟨-, ⟨⟩⟩ | ⟨-, hk⟩
    exact h.fd_unique hj hk
  · intro j k fd' fd'' c' hj hk
    rcases update_eq_some hj with ⟨-, ⟨⟩⟩ | ⟨-, hj⟩
    rcases update_eq_some hk with ⟨-, ⟨⟩⟩ | ⟨-, hk⟩
    exact h.file_unique hj hk

theorem passes (h : Owns table held) (hi : held i = some (fd, c)) :
    Owns table (Function.update (Function.update held i none) j (some (fd, c))) := by
  have htable : Function.update (Function.update table fd none) fd (some c) = table := by
    rw [Function.update_idem, ← h.opened hi, Function.update_eq_self]
  rw [← htable]
  apply (h.closes hi).opens (Function.update_self ..)
  intro k fd' hk
  rcases update_eq_some hk with ⟨-, ⟨⟩⟩ | ⟨hne, hold⟩
  exact hne (h.file_unique hold hi)

end Owns

section Ties

variable {α : Type*} {R R' : α → κ → Prop}

/-- What an owner knows of its descriptor fits the file that it leads to. -/
inductive Tied (R : α → κ → Prop) : Option (ℕ × α) → Option (ℕ × κ) → Prop
  | none : Tied R none none
  | some {fd a c} (h : R a c) : Tied R (some (fd, a)) (some (fd, c))

theorem Tied.exists {fd : ℕ} {a : α} {y : Option (ℕ × κ)} (h : Tied R (Option.some (fd, a)) y) :
    ∃ c, y = Option.some (fd, c) ∧ R a c := by
  cases h with
  | some h => exact ⟨_, rfl, h⟩

theorem Tied.exists_of_held {x : Option (ℕ × α)} {fd : ℕ} {c : κ}
    (h : Tied R x (Option.some (fd, c))) : ∃ a, x = Option.some (fd, a) ∧ R a c := by
  cases h with
  | some h => exact ⟨_, rfl, h⟩

theorem Tied.mono {x : Option (ℕ × α)} {y : Option (ℕ × κ)} (h : Tied R x y)
    (hmono : ∀ fd a c, y = Option.some (fd, c) → R a c → R' a c) : Tied R' x y := by
  cases h with
  | none => exact .none
  | some h => exact .some (hmono _ _ _ rfl h)

theorem tied_update [DecidableEq ι] {f : ι → Option (ℕ × α)} {i : ι} {y : Option (ℕ × κ)}
    (hi : Tied R (f i) y) (hother : ∀ j ≠ i, Tied R (f j) (held j)) (j : ι) :
    Tied R (f j) (Function.update held i y j) := by
  rcases eq_or_ne j i with rfl | hne
  · rwa [Function.update_self]
  · rw [Function.update_of_ne hne]
    exact hother j hne

end Ties

end CollectedSources.Machine
