import Mathlib

/-! # Loops with a condition

A loop runs as long as its condition holds. It is given a number of rounds, and
has no result when they are not enough. A loop over some elements has a result
when all its rounds have one.
-/

namespace CollectedSources.Machine

variable {σ : Type*}

/-- A `while` loop of at most the given number of tests of its condition. -/
def whileLoop (cond : σ → Bool) (body : σ → σ) : ℕ → σ → Option σ
  | 0, _ => none
  | fuel + 1, s => if cond s then whileLoop cond body fuel (body s) else some s

variable {cond : σ → Bool} {body : σ → σ} {s : σ}

theorem whileLoop_of_not (h : cond s = false) {fuel : ℕ} (hfuel : 0 < fuel) :
    whileLoop cond body fuel s = some s := by
  obtain ⟨fuel, rfl⟩ := Nat.exists_eq_succ_of_ne_zero hfuel.ne'
  rw [Nat.succ_eq_add_one, whileLoop, h]
  rfl

theorem whileLoop_ends {I : σ → Prop} (measure : σ → ℕ)
    (keep : ∀ s, I s → cond s = true → I (body s) ∧ measure (body s) < measure s) (hs : I s) :
    ∃ s', (∀ fuel, measure s < fuel → whileLoop cond body fuel s = some s') ∧ I s' ∧
      cond s' = false := by
  induction hm : measure s using Nat.strong_induction_on generalizing s with
  | h m ih =>
    cases hcond : cond s with
    | false =>
      refine ⟨s, fun fuel hfuel => ?_, hs, hcond⟩
      exact whileLoop_of_not hcond (Nat.zero_lt_of_lt hfuel)
    | true =>
      obtain ⟨hbody, hlt⟩ := keep s hs hcond
      obtain ⟨s', hrun, hI, hend⟩ := ih (measure (body s)) (hm ▸ hlt) hbody rfl
      refine ⟨s', fun fuel hfuel => ?_, hI, hend⟩
      obtain ⟨fuel, rfl⟩ := Nat.exists_eq_succ_of_ne_zero (Nat.ne_zero_of_lt hfuel)
      rw [Nat.succ_eq_add_one, whileLoop, if_pos hcond]
      exact hrun fuel (by omega)

section ForEach

variable {α ε : Type*} {f g : α → Option (List ε)} {xs : List α} {es : List ε}

/-- A `for` loop, with the events of all its rounds. -/
def forEach (f : α → Option (List ε)) : List α → Option (List ε)
  | [] => some []
  | x :: xs => (f x).bind fun es => (forEach f xs).map (es ++ ·)

theorem forEach_cons_eq_some {x : α} :
    forEach f (x :: xs) = some es ↔
      ∃ es₁ es₂, f x = some es₁ ∧ forEach f xs = some es₂ ∧ es = es₁ ++ es₂ := by
  simp only [forEach, Option.bind_eq_some_iff, Option.map_eq_some_iff]
  constructor
  · rintro ⟨es₁, h₁, es₂, h₂, rfl⟩
    exact ⟨es₁, es₂, h₁, h₂, rfl⟩
  · rintro ⟨es₁, es₂, h₁, h₂, rfl⟩
    exact ⟨es₁, h₁, es₂, h₂, rfl⟩

theorem forEach_isSome_iff : (∃ es, forEach f xs = some es) ↔ ∀ x ∈ xs, ∃ es, f x = some es := by
  induction xs with
  | nil => simp [forEach]
  | cons x xs ih =>
    rw [List.forall_mem_cons, ← ih]
    constructor
    · rintro ⟨es, h⟩
      obtain ⟨es₁, es₂, h₁, h₂, -⟩ := forEach_cons_eq_some.mp h
      exact ⟨⟨es₁, h₁⟩, ⟨es₂, h₂⟩⟩
    · rintro ⟨⟨es₁, h₁⟩, ⟨es₂, h₂⟩⟩
      exact ⟨es₁ ++ es₂, forEach_cons_eq_some.mpr ⟨es₁, es₂, h₁, h₂, rfl⟩⟩

theorem forEach_eq_flatMap {g : α → List ε} (h : ∀ x ∈ xs, f x = some (g x)) :
    forEach f xs = some (xs.flatMap g) := by
  induction xs with
  | nil => rfl
  | cons x xs ih =>
    rw [List.forall_mem_cons] at h
    rw [forEach, h.1, ih h.2]
    rfl

/-- The events of a loop have a property exactly when those of all rounds have it. -/
theorem forEach_forall_iff {Q : ε → Prop} (h : forEach f xs = some es) :
    (∀ e ∈ es, Q e) ↔ ∀ x ∈ xs, ∀ es', f x = some es' → ∀ e ∈ es', Q e := by
  induction xs generalizing es with
  | nil =>
    obtain rfl := Option.some.inj h
    simp
  | cons x xs ih =>
    obtain ⟨es₁, es₂, h₁, h₂, rfl⟩ := forEach_cons_eq_some.mp h
    rw [List.forall_mem_append, List.forall_mem_cons, ih h₂]
    simp [h₁]

theorem forEach_mono (hfg : ∀ x ∈ xs, ∀ es, f x = some es → g x = some es)
    (h : forEach f xs = some es) : forEach g xs = some es := by
  induction xs generalizing es with
  | nil => exact h
  | cons x xs ih =>
    rw [List.forall_mem_cons] at hfg
    obtain ⟨es₁, es₂, h₁, h₂, rfl⟩ := forEach_cons_eq_some.mp h
    exact forEach_cons_eq_some.mpr ⟨es₁, es₂, hfg.1 es₁ h₁, ih hfg.2 h₂, rfl⟩

theorem exists_fuel {P : ℕ → α → Prop} (hmono : ∀ fuel fuel' x, fuel ≤ fuel' → P fuel x → P fuel' x)
    (h : ∀ x ∈ xs, ∃ fuel, P fuel x) : ∃ fuel, ∀ x ∈ xs, P fuel x := by
  induction xs with
  | nil => exact ⟨0, by simp⟩
  | cons x xs ih =>
    rw [List.forall_mem_cons] at h
    obtain ⟨fuel₁, h₁⟩ := h.1
    obtain ⟨fuel₂, h₂⟩ := ih h.2
    refine ⟨max fuel₁ fuel₂, List.forall_mem_cons.mpr ⟨?_, fun y hy => ?_⟩⟩
    · exact hmono _ _ x (le_max_left _ _) h₁
    · exact hmono _ _ y (le_max_right _ _) (h₂ y hy)

end ForEach

theorem foldlM_invariant {α σ : Type*} {f : σ → α → Option σ} {P : σ → Prop} {xs : List α}
    {s s' : σ} (keep : ∀ s x s', f s x = some s' → P s → P s') (h : xs.foldlM f s = some s')
    (hs : P s) : P s' := by
  induction xs generalizing s with
  | nil =>
    obtain rfl := Option.some.inj h
    exact hs
  | cons x xs ih =>
    rw [List.foldlM_cons] at h
    obtain ⟨t, ht, hrest⟩ := Option.bind_eq_some_iff.mp h
    exact ih hrest (keep s x t ht hs)

end CollectedSources.Machine
