import Mathlib.Data.List.Nodup
import Mathlib.Data.List.Forall2
import Mathlib.Algebra.BigOperators.Group.List.Basic

/-! # Independent choices at the positions of a word

Replacing the letters of a word position by position, each time adding the
replaced copies of all words so far, lists every word that keeps or replaces
each letter independently. Each is listed once if a letter is never among its
own replacements.
-/

namespace CollectedSources.Choices

variable {α : Type*}

/-- Add to a list of words their copies with each replacement at one position. -/
def expandAt (i : ℕ) (subs : List α) (ws : List (List α)) : List (List α) :=
  ws ++ subs.flatMap fun s => ws.map fun u => u.set i s

variable (alts : α → List α)

/-- The words obtained from the first positions of a word. -/
def variantsUpTo (w : List α) : ℕ → List (List α)
  | 0 => [w]
  | n + 1 => expandAt n ((w[n]?.map alts).getD []) (variantsUpTo w n)

/-- All words obtained by keeping or replacing each letter. -/
def variants (w : List α) : List (List α) := variantsUpTo alts w w.length

variable {alts} {w v : List α} {n : ℕ}

theorem set_of_getElem? {c : α} (h : v[n]? = some c) : v.set n c = v := by
  obtain ⟨hn, rfl⟩ := List.getElem?_eq_some_iff.mp h
  exact List.set_getElem_self hn

theorem mem_expandAt {i : ℕ} {subs : List α} {ws : List (List α)} :
    v ∈ expandAt i subs ws ↔ v ∈ ws ∨ ∃ s ∈ subs, ∃ u ∈ ws, u.set i s = v := by
  simp [expandAt]

theorem length_expandAt (i : ℕ) (subs : List α) (ws : List (List α)) :
    (expandAt i subs ws).length = ws.length * (subs.length + 1) := by
  simp [expandAt, Nat.mul_add, Nat.mul_comm, Nat.add_comm]

/-- A word that keeps or replaces the letters at the first positions and keeps the others. -/
structure ChosenUpTo (alts : α → List α) (w : List α) (n : ℕ) (v : List α) : Prop where
  length_eq : v.length = w.length
  chosen : ∀ i c, i < n → w[i]? = some c → ∃ d, v[i]? = some d ∧ (d = c ∨ d ∈ alts c)
  kept : ∀ i, n ≤ i → v[i]? = w[i]?

theorem chosenUpTo_zero : ChosenUpTo alts w 0 v ↔ v = w := by
  constructor
  · intro h
    exact List.ext_getElem? fun i => h.kept i (Nat.zero_le i)
  · rintro rfl
    exact ⟨rfl, by simp, fun _ _ => rfl⟩

theorem ChosenUpTo.keep {c : α} (h : ChosenUpTo alts w n v) (hc : w[n]? = some c) :
    ChosenUpTo alts w (n + 1) v := by
  refine ⟨h.length_eq, fun i d hi hd => ?_, fun i hi => h.kept i (by omega)⟩
  rcases Nat.lt_succ_iff_lt_or_eq.mp hi with hi | rfl
  · exact h.chosen i d hi hd
  · obtain rfl : c = d := Option.some.inj (hc.symm.trans hd)
    exact ⟨c, (h.kept i (Nat.le_refl i)).trans hc, Or.inl rfl⟩

theorem ChosenUpTo.replace {c s : α} (h : ChosenUpTo alts w n v) (hc : w[n]? = some c)
    (hs : s ∈ alts c) : ChosenUpTo alts w (n + 1) (v.set n s) := by
  have hn : n < v.length := h.length_eq ▸ (List.getElem?_eq_some_iff.mp hc).1
  refine ⟨by simpa using h.length_eq, fun i d hi hd => ?_, fun i hi => ?_⟩
  · rcases Nat.lt_succ_iff_lt_or_eq.mp hi with hi | rfl
    · rw [List.getElem?_set_ne (by omega)]
      exact h.chosen i d hi hd
    · obtain rfl : c = d := Option.some.inj (hc.symm.trans hd)
      exact ⟨s, List.getElem?_set_self hn, Or.inr hs⟩
  · rw [List.getElem?_set_ne (by omega)]
    exact h.kept i (by omega)

theorem ChosenUpTo.restore {c : α} (h : ChosenUpTo alts w (n + 1) v) (hc : w[n]? = some c) :
    ChosenUpTo alts w n (v.set n c) := by
  have hn : n < v.length := h.length_eq ▸ (List.getElem?_eq_some_iff.mp hc).1
  refine ⟨by simpa using h.length_eq, fun i d hi hd => ?_, fun i hi => ?_⟩
  · rw [List.getElem?_set_ne (by omega)]
    exact h.chosen i d (by omega) hd
  · rcases Nat.eq_or_lt_of_le hi with rfl | hi
    · rw [List.getElem?_set_self hn, hc]
    · rw [List.getElem?_set_ne (by omega)]
      exact h.kept i hi

theorem chosenUpTo_succ {c : α} (hc : w[n]? = some c) :
    ChosenUpTo alts w (n + 1) v ↔ ChosenUpTo alts w n v ∨
      ∃ s ∈ alts c, ∃ u, ChosenUpTo alts w n u ∧ u.set n s = v := by
  constructor
  · intro h
    obtain ⟨d, hd, hs⟩ := h.chosen n c (Nat.lt_succ_self n) hc
    have hr := h.restore hc
    rcases hs with rfl | hs
    · left
      rwa [set_of_getElem? hd] at hr
    · right
      refine ⟨d, hs, _, hr, ?_⟩
      rw [List.set_set]
      exact set_of_getElem? hd
  · rintro (h | ⟨s, hs, u, h, rfl⟩)
    · exact h.keep hc
    · exact h.replace hc hs

theorem mem_variantsUpTo (hn : n ≤ w.length) :
    v ∈ variantsUpTo alts w n ↔ ChosenUpTo alts w n v := by
  induction n generalizing v with
  | zero => simp [variantsUpTo, chosenUpTo_zero]
  | succ n ih =>
    have hc : w[n]? = some w[n] := List.getElem?_eq_getElem hn
    simp only [variantsUpTo, mem_expandAt, hc, Option.map_some, Option.getD_some,
      ih (by omega), chosenUpTo_succ hc]

theorem mem_variants :
    v ∈ variants alts w ↔ List.Forall₂ (fun c d => d = c ∨ d ∈ alts c) w v := by
  rw [variants, mem_variantsUpTo (Nat.le_refl _), List.forall₂_iff_get]
  constructor
  · intro h
    refine ⟨h.length_eq.symm, fun i hi hi' => ?_⟩
    obtain ⟨d, hd, hs⟩ := h.chosen i w[i] hi (List.getElem?_eq_getElem hi)
    obtain ⟨_, rfl⟩ := List.getElem?_eq_some_iff.mp hd
    exact hs
  · rintro ⟨hl, h⟩
    refine ⟨hl.symm, fun i c hi hc => ?_, fun i hi => ?_⟩
    · obtain ⟨hi, rfl⟩ := List.getElem?_eq_some_iff.mp hc
      exact ⟨v[i], List.getElem?_eq_getElem (hl ▸ hi), h i hi (hl ▸ hi)⟩
    · rw [List.getElem?_eq_none hi, List.getElem?_eq_none (hl ▸ hi)]

theorem length_variantsUpTo (hn : n ≤ w.length) :
    (variantsUpTo alts w n).length = ((w.take n).map fun c => (alts c).length + 1).prod := by
  induction n with
  | zero => simp [variantsUpTo]
  | succ n ih =>
    rw [variantsUpTo, length_expandAt, ih (by omega), List.take_succ_eq_append_getElem hn]
    simp only [List.getElem?_eq_getElem hn, Option.map_some, Option.getD_some, List.map_append,
      List.map_singleton, List.prod_append, List.prod_singleton]

theorem length_variants :
    (variants alts w).length = (w.map fun c => (alts c).length + 1).prod := by
  rw [variants, length_variantsUpTo (Nat.le_refl _), List.take_length]

theorem nodup_expandAt {i : ℕ} {c : α} {subs : List α} {ws : List (List α)} (hs : subs.Nodup)
    (hc : c ∉ subs) (hw : ws.Nodup) (hi : ∀ u ∈ ws, u[i]? = some c) :
    (expandAt i subs ws).Nodup := by
  have hset : ∀ u ∈ ws, ∀ s, (u.set i s)[i]? = some s := fun u hu s =>
    List.getElem?_set_self (List.getElem?_eq_some_iff.mp (hi u hu)).1
  refine List.nodup_append.mpr ⟨hw, List.nodup_flatMap.mpr ⟨fun s _ => ?_, ?_⟩, ?_⟩
  · refine List.Nodup.map_on (fun u hu u' hu' he => ?_) hw
    have hr := congrArg (·.set i c) he
    simpa [List.set_set, set_of_getElem? (hi u hu),
      set_of_getElem? (hi u' hu')] using hr
  · refine hs.imp fun {s t} hst => ?_
    intro v hv hv'
    obtain ⟨u, hu, rfl⟩ := List.mem_map.mp hv
    obtain ⟨u', hu', he⟩ := List.mem_map.mp hv'
    have hv := hset u hu s
    rw [← he, hset u' hu' t] at hv
    exact hst (Option.some.inj hv).symm
  · rintro u hu v hv rfl
    obtain ⟨s, hs, hv⟩ := List.mem_flatMap.mp hv
    obtain ⟨u', hu', he⟩ := List.mem_map.mp hv
    have hv := hset u' hu' s
    rw [he, hi u hu] at hv
    exact hc (Option.some.inj hv ▸ hs)

theorem nodup_variants (hs : ∀ c ∈ w, (alts c).Nodup) (hc : ∀ c ∈ w, c ∉ alts c) :
    (variants alts w).Nodup := by
  suffices h : ∀ n ≤ w.length, (variantsUpTo alts w n).Nodup from h _ (Nat.le_refl _)
  intro n
  induction n with
  | zero => simp [variantsUpTo]
  | succ n ih =>
    intro hn
    have hm : w[n] ∈ w := List.getElem_mem hn
    have he : w[n]? = some w[n] := List.getElem?_eq_getElem hn
    rw [variantsUpTo, he]
    refine nodup_expandAt (hs _ hm) (hc _ hm) (ih (by omega)) fun u hu => ?_
    rw [((mem_variantsUpTo (by omega)).mp hu).kept n (Nat.le_refl n), he]

end CollectedSources.Choices
