import Mathlib.Data.List.Infix

/-! # Rename histories

A history lists renames in chronological order. Following a name through it
gives the name it ends under, and the composition of the history maps each
name that was there from the beginning to the name it ends under.
-/

namespace CollectedSources.History

variable {P : Type*}

/-- A name that occurs as an old name before any rename has produced it. -/
def Origin (rs : List (P × P)) (f : P) : Prop :=
  ∃ older r newer, rs = older ++ r :: newer ∧ r.1 = f ∧ ∀ s ∈ older, s.2 ≠ f

@[simp] theorem not_origin_nil (f : P) : ¬ Origin [] f := by
  rintro ⟨older, r, newer, he, _⟩
  simp at he

theorem origin_cons {f o n : P} {rs : List (P × P)} :
    Origin ((o, n) :: rs) f ↔ f = o ∨ (f ≠ n ∧ Origin rs f) := by
  constructor
  · rintro ⟨older, r, newer, he, hr, ho⟩
    cases older with
    | nil =>
      obtain ⟨rfl, rfl⟩ := List.cons.inj he
      exact Or.inl hr.symm
    | cons s older =>
      obtain ⟨rfl, rfl⟩ := List.cons.inj he
      exact Or.inr ⟨(ho _ List.mem_cons_self).symm,
        older, r, newer, rfl, hr, fun s hs => ho s (List.mem_cons_of_mem _ hs)⟩
  · rintro (rfl | ⟨hn, older, r, newer, rfl, hr, ho⟩)
    · exact ⟨[], (f, n), rs, rfl, rfl, by simp⟩
    · refine ⟨(o, n) :: older, r, newer, rfl, hr, fun s hs => ?_⟩
      rcases List.mem_cons.mp hs with rfl | hs
      · exact hn.symm
      · exact ho s hs

variable [DecidableEq P]

/-- Follow a name through a history; a rename applies when its old name is the current one. -/
def follow : List (P × P) → P → P
  | [], f => f
  | (o, n) :: rs, f => follow rs (if f = o then n else f)

@[simp] theorem follow_cons_old (o n : P) (rs : List (P × P)) :
    follow ((o, n) :: rs) o = follow rs n := by simp [follow]

theorem follow_cons_of_ne {f o : P} (n : P) (rs : List (P × P)) (h : f ≠ o) :
    follow ((o, n) :: rs) f = follow rs f := by simp [follow, h]

instance decidableOrigin : (rs : List (P × P)) → (f : P) → Decidable (Origin rs f)
  | [], f => .isFalse (not_origin_nil f)
  | (o, n) :: rs, f =>
    have := decidableOrigin rs f
    decidable_of_iff (f = o ∨ (f ≠ n ∧ Origin rs f)) origin_cons.symm

/-- The entry of a name in the composition of a history. -/
def composition (rs : List (P × P)) (f : P) : Option P :=
  if Origin rs f ∧ follow rs f ≠ f then some (follow rs f) else none

theorem composition_eq_some {rs : List (P × P)} {f g : P} :
    composition rs f = some g ↔ Origin rs f ∧ g ≠ f ∧ follow rs f = g := by
  unfold composition
  split_ifs with h
  · simp only [Option.some.injEq]
    exact ⟨fun he => ⟨h.1, he ▸ h.2, he⟩, fun he => he.2.2⟩
  · simp only [false_iff]
    rintro ⟨ho, hg, rfl⟩
    exact h ⟨ho, hg⟩

theorem composition_eq_none {rs : List (P × P)} {f : P} :
    composition rs f = none ↔ (Origin rs f → follow rs f = f) := by
  unfold composition
  split_ifs with h
  · simpa using h
  · simp only [true_iff]
    exact fun ho => not_not.mp fun hf => h ⟨ho, hf⟩

@[simp] theorem composition_nil (f : P) : composition [] f = none := by simp [composition]

theorem composition_cons_old (o n : P) (rs : List (P × P)) :
    composition ((o, n) :: rs) o = if follow rs n = o then none else some (follow rs n) := by
  simp [composition, origin_cons]

theorem composition_cons_new {o n : P} (rs : List (P × P)) (h : n ≠ o) :
    composition ((o, n) :: rs) n = none := by
  simp [composition, origin_cons, h]

theorem composition_cons_of_ne {f o n : P} (rs : List (P × P)) (ho : f ≠ o) (hn : f ≠ n) :
    composition ((o, n) :: rs) f = composition rs f := by
  simp [composition, origin_cons, follow_cons_of_ne, ho, hn]

/--
A rename that can be put in front of the composition of the later renames by looking at the
entries of its two names only. If its old name has an entry there, that entry must already be
the final name of its new name. Otherwise the later renames must start from its new name or
leave it alone.
-/
def Composable (o n : P) (newer : List (P × P)) : Prop :=
  match composition newer o with
  | some g => g = follow newer n
  | none => o ≠ n ∧ (Origin newer n ∨ follow newer n = n)

end CollectedSources.History
