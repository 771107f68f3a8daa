import Mathlib.Data.List.Count

/-! # Traces of resources

A trace opens, uses and closes resources. It is proper if it uses and closes
only what is open. A proper trace closes as many resources as it opens, up to
those that stay open. The rules for `Moves` follow what a part of a program
owns, whatever the rest of it keeps open.
-/

namespace CollectedSources.Resource

variable {ρ : Type*}

inductive Event (ρ : Type*)
  | opened (r : ρ)
  | used (r : ρ)
  | closed (r : ρ)
  deriving DecidableEq, Repr

/-- The resources that a trace opens. -/
def opened : List (Event ρ) → List ρ
  | [] => []
  | .opened r :: es => r :: opened es
  | _ :: es => opened es

/-- The resources that a trace closes. -/
def closed : List (Event ρ) → List ρ
  | [] => []
  | .closed r :: es => r :: closed es
  | _ :: es => closed es

variable [DecidableEq ρ]

/-- The open resources after a trace. -/
def after (live : List ρ) : List (Event ρ) → List ρ
  | [] => live
  | .opened r :: es => after (r :: live) es
  | .used _ :: es => after live es
  | .closed r :: es => after (live.erase r) es

/-- Only open resources are used and closed. -/
def Proper (live : List ρ) : List (Event ρ) → Prop
  | [] => True
  | .opened r :: es => Proper (r :: live) es
  | .used r :: es => r ∈ live ∧ Proper live es
  | .closed r :: es => r ∈ live ∧ Proper (live.erase r) es

/-- Only resources that are not open are opened. -/
def Fresh (live : List ρ) : List (Event ρ) → Prop
  | [] => True
  | .opened r :: es => r ∉ live ∧ Fresh (r :: live) es
  | .used _ :: es => Fresh live es
  | .closed r :: es => Fresh (live.erase r) es

instance Fresh.decidable (live : List ρ) : (es : List (Event ρ)) → Decidable (Fresh live es)
  | [] => inferInstanceAs (Decidable True)
  | .opened r :: es =>
    have : Decidable (Fresh (r :: live) es) := Fresh.decidable _ es
    inferInstanceAs (Decidable (r ∉ live ∧ Fresh (r :: live) es))
  | .used _ :: es => Fresh.decidable live es
  | .closed r :: es => Fresh.decidable (live.erase r) es

/-- Nothing is closed while something that needs it is open. -/
def Respects (needs : ρ → ρ → Prop) (live : List ρ) : List (Event ρ) → Prop
  | [] => True
  | .opened r :: es => Respects needs (r :: live) es
  | .used _ :: es => Respects needs live es
  | .closed r :: es => (∀ r' ∈ live, ¬ needs r' r) ∧ Respects needs (live.erase r) es

theorem after_append (live : List ρ) (es es' : List (Event ρ)) :
    after live (es ++ es') = after (after live es) es' := by
  induction es generalizing live with
  | nil => rfl
  | cons e es ih => cases e <;> exact ih _

theorem proper_append {live : List ρ} {es es' : List (Event ρ)} :
    Proper live (es ++ es') ↔ Proper live es ∧ Proper (after live es) es' := by
  induction es generalizing live with
  | nil => simp [Proper, after]
  | cons e es ih => cases e <;> simp [Proper, after, ih, and_assoc]

theorem fresh_append {live : List ρ} {es es' : List (Event ρ)} :
    Fresh live (es ++ es') ↔ Fresh live es ∧ Fresh (after live es) es' := by
  induction es generalizing live with
  | nil => simp [Fresh, after]
  | cons e es ih => cases e <;> simp [Fresh, after, ih, and_assoc]

theorem respects_append {needs : ρ → ρ → Prop} {live : List ρ} {es es' : List (Event ρ)} :
    Respects needs live (es ++ es') ↔
      Respects needs live es ∧ Respects needs (after live es) es' := by
  induction es generalizing live with
  | nil => simp [Respects, after]
  | cons e es ih => cases e <;> simp [Respects, after, ih, and_assoc]

theorem count_closed_add {live : List ρ} {es : List (Event ρ)} (h : Proper live es) (r : ρ) :
    (closed es).count r + (after live es).count r = live.count r + (opened es).count r := by
  induction es generalizing live with
  | nil => simp [closed, after, opened]
  | cons e es ih =>
    cases e with
    | opened r' =>
      have hcount := ih h
      simp only [List.count_cons] at hcount
      simp only [closed, after, opened, List.count_cons]
      omega
    | used r' => exact ih h.2
    | closed r' =>
      have hcount := ih h.2
      simp only [closed, after, opened, List.count_cons]
      by_cases hr : r' = r
      · subst hr
        have hpos : 0 < live.count r' := List.count_pos_iff.mpr h.1
        rw [List.count_erase_self] at hcount
        simp only [beq_self_eq_true, if_true]
        omega
      · rw [List.count_erase_of_ne (Ne.symm hr)] at hcount
        simp only [beq_iff_eq, hr, if_false]
        omega

/-- A program that owns `held` and whose trace is `es` owns `held'` afterwards. -/
def Moves (es : List (Event ρ)) (held held' : List ρ) : Prop :=
  ∀ live rest, live.Perm (held ++ rest) → Fresh live es →
    Proper live es ∧ (after live es).Perm (held' ++ rest)

variable {es es' : List (Event ρ)} {held held' held'' : List ρ}

theorem moves_nil (held : List ρ) : Moves [] held held := fun _ _ h _ => ⟨trivial, h⟩

theorem Moves.append (h : Moves es held held') (h' : Moves es' held' held'') :
    Moves (es ++ es') held held'' := by
  intro live rest hlive hfresh
  obtain ⟨hes, hes'⟩ := fresh_append.mp hfresh
  obtain ⟨hproper, hperm⟩ := h live rest hlive hes
  obtain ⟨hproper', hperm'⟩ := h' _ rest hperm hes'
  rw [after_append]
  exact ⟨proper_append.mpr ⟨hproper, hproper'⟩, hperm'⟩

theorem Moves.frame (h : Moves es held held') (more : List ρ) :
    Moves es (held ++ more) (held' ++ more) := by
  intro live rest hlive hfresh
  rw [List.append_assoc] at hlive ⊢
  exact h live (more ++ rest) hlive hfresh

theorem Moves.perm {held₁ held₁' : List ρ} (h : Moves es held held') (h₁ : held₁.Perm held)
    (h₁' : held'.Perm held₁') : Moves es held₁ held₁' := by
  intro live rest hlive hfresh
  obtain ⟨hproper, hperm⟩ := h live rest (hlive.trans (h₁.append_right rest)) hfresh
  exact ⟨hproper, hperm.trans (h₁'.append_right rest)⟩

theorem moves_used {rs : List ρ} (h : ∀ r ∈ rs, r ∈ held) : Moves (rs.map .used) held held := by
  intro live rest hlive hfresh
  induction rs with
  | nil => exact ⟨trivial, hlive⟩
  | cons r rs ih =>
    rw [List.forall_mem_cons] at h
    have hr : r ∈ live := hlive.symm.subset (List.mem_append_left rest h.1)
    obtain ⟨hproper, hperm⟩ := ih h.2 hfresh
    exact ⟨⟨hr, hproper⟩, hperm⟩

theorem moves_opened (rs : List ρ) : Moves (rs.map .opened) [] rs := by
  intro live rest hlive hfresh
  induction rs generalizing live rest with
  | nil => exact ⟨trivial, hlive⟩
  | cons r rs ih =>
    obtain ⟨hproper, hperm⟩ := ih (r :: live) (r :: rest) (hlive.cons r) hfresh.2
    exact ⟨hproper, hperm.trans List.perm_middle⟩

theorem moves_closed (rs : List ρ) : Moves (rs.map .closed) rs [] := by
  intro live rest hlive hfresh
  induction rs generalizing live with
  | nil => exact ⟨trivial, hlive⟩
  | cons r rs ih =>
    have hr : r ∈ live := hlive.symm.subset List.mem_cons_self
    have herase : (live.erase r).Perm (rs ++ rest) := by
      have hperm := hlive.erase r
      rwa [List.cons_append, List.erase_cons_head] at hperm
    obtain ⟨hproper, hperm⟩ := ih (live.erase r) herase hfresh
    exact ⟨⟨hr, hproper⟩, hperm⟩

theorem Fresh.nodup {live rs : List ρ} (h : Fresh live (rs.map .opened)) :
    rs.Nodup ∧ ∀ r ∈ rs, r ∉ live := by
  induction rs generalizing live with
  | nil => simp
  | cons r rs ih =>
    obtain ⟨hr, hrs⟩ := h
    obtain ⟨hnodup, hlive⟩ := ih hrs
    simp only [List.mem_cons, not_or] at hlive
    rw [List.nodup_cons, List.forall_mem_cons]
    exact ⟨⟨fun hmem => (hlive r hmem).1 rfl, hnodup⟩, hr, fun r' hr' => (hlive r' hr').2⟩

end CollectedSources.Resource
