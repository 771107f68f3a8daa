import Mathlib.Data.List.Count
import Mathlib.Logic.Function.Basic
import Mathlib.Logic.ExistsUnique

/-! # Ownership ledgers

A ledger records which owner holds which resource, and which resources have
been destroyed or handed out. Its invariant makes every resource that was ever
given to an owner held by one owner, destroyed once or handed out once.
-/

namespace CollectedSources

/-- A record of held, destroyed and handed out resources that accounts for each of them once. -/
structure Ledger (O T : Type*) [DecidableEq T] where
  owned : O → Option T
  destroyed : List T
  released : List T
  given : List T
  owner_unique : ∀ {i j r}, owned i = some r → owned j = some r → i = j
  held : ∀ {i r}, owned i = some r → r ∈ given ∧ (destroyed ++ released).count r = 0
  gone : ∀ {r}, r ∈ given → (∀ i, owned i ≠ some r) → (destroyed ++ released).count r = 1
  fresh : ∀ {r}, r ∉ given → (destroyed ++ released).count r = 0

theorem count_toList {T : Type*} [DecidableEq T] (o : Option T) (r : T) :
    o.toList.count r = if o = some r then 1 else 0 := by
  cases o <;> simp [List.count_cons]

namespace Ledger

variable {O T : Type*} [DecidableEq T]

/-- A given resource is held by exactly one owner, destroyed once or handed out once. -/
theorem accounted (L : Ledger O T) {r : T} (hr : r ∈ L.given) :
    ((∃! i, L.owned i = some r) ∧ L.destroyed.count r = 0 ∧ L.released.count r = 0) ∨
    ((∀ i, L.owned i ≠ some r) ∧ L.destroyed.count r = 1 ∧ L.released.count r = 0) ∨
    ((∀ i, L.owned i ≠ some r) ∧ L.destroyed.count r = 0 ∧ L.released.count r = 1) := by
  by_cases h : ∃ i, L.owned i = some r
  · obtain ⟨i, hi⟩ := h
    have hz := (L.held hi).2
    rw [List.count_append] at hz
    exact Or.inl ⟨⟨i, hi, fun j hj => L.owner_unique hj hi⟩, by omega, by omega⟩
  · have hn : ∀ i, L.owned i ≠ some r := fun i hi => h ⟨i, hi⟩
    have hone := L.gone hr hn
    rw [List.count_append] at hone
    rcases Nat.eq_zero_or_pos (L.destroyed.count r) with hd | hd
    · exact Or.inr (Or.inr ⟨hn, hd, by omega⟩)
    · exact Or.inr (Or.inl ⟨hn, by omega, by omega⟩)

variable [DecidableEq O]

def empty : Ledger O T where
  owned _ := none
  destroyed := []
  released := []
  given := []
  owner_unique := by simp
  held := by simp
  gone := by simp
  fresh := by simp

variable (L : Ledger O T)

theorem owned_of_update_none {i j : O} {r : T}
    (h : Function.update L.owned i none j = some r) : j ≠ i ∧ L.owned j = some r := by
  by_cases hj : j = i
  · simp [hj] at h
  · rw [Function.update_of_ne hj] at h
    exact ⟨hj, h⟩

/-- Take what an owner holds away from it and enter it once into one of the two lists. -/
def leave (i : O) (destroyed released : List T)
    (hc : ∀ r, (destroyed ++ released).count r =
      (L.destroyed ++ L.released).count r + (L.owned i).toList.count r) : Ledger O T where
  owned := Function.update L.owned i none
  destroyed := destroyed
  released := released
  given := L.given
  owner_unique hi hj := L.owner_unique (L.owned_of_update_none hi).2 (L.owned_of_update_none hj).2
  held {j r} h := by
    obtain ⟨hj, h⟩ := L.owned_of_update_none h
    obtain ⟨hg, hz⟩ := L.held h
    have hn : L.owned i ≠ some r := fun hi => hj (L.owner_unique h hi)
    exact ⟨hg, by rw [hc, hz, count_toList, if_neg hn]⟩
  gone {r} hg hn := by
    rw [hc, count_toList]
    by_cases hi : L.owned i = some r
    · rw [if_pos hi, (L.held hi).2]
    · rw [if_neg hi, L.gone hg]
      intro j hj
      by_cases he : j = i
      · exact hi (he ▸ hj)
      · exact hn j (by rwa [Function.update_of_ne he])
  fresh {r} hg := by
    have hn : L.owned i ≠ some r := fun hi => hg (L.held hi).1
    rw [hc, L.fresh hg, count_toList, if_neg hn]

/-- Destroy what an owner holds. -/
def dispose (i : O) : Ledger O T :=
  L.leave i (L.destroyed ++ (L.owned i).toList) L.released
    fun r => by simp only [List.count_append]; omega

/-- Hand out what an owner holds. -/
def release (i : O) : Ledger O T :=
  L.leave i L.destroyed (L.released ++ (L.owned i).toList)
    fun r => by simp only [List.count_append]; omega

theorem owned_of_update_some {i j : O} {r s : T}
    (h : Function.update L.owned i (some r) j = some s) :
    (j = i ∧ s = r) ∨ L.owned j = some s := by
  by_cases hj : j = i
  · rw [hj, Function.update_self] at h
    exact Or.inl ⟨hj, (Option.some.inj h).symm⟩
  · rw [Function.update_of_ne hj] at h
    exact Or.inr h

/-- Give a fresh resource to an owner that holds nothing. -/
def give (i : O) (r : T) (hi : L.owned i = none) (hr : r ∉ L.given) : Ledger O T where
  owned := Function.update L.owned i (some r)
  destroyed := L.destroyed
  released := L.released
  given := L.given ++ [r]
  owner_unique {j k s} hj hk := by
    rcases L.owned_of_update_some hj with ⟨rfl, rfl⟩ | hj' <;>
      rcases L.owned_of_update_some hk with ⟨rfl, hs⟩ | hk'
    · rfl
    · exact absurd (L.held hk').1 hr
    · exact absurd (hs ▸ (L.held hj').1) hr
    · exact L.owner_unique hj' hk'
  held {j s} h := by
    rcases L.owned_of_update_some h with ⟨_, rfl⟩ | h
    · exact ⟨by simp, L.fresh hr⟩
    · exact ⟨List.mem_append_left _ (L.held h).1, (L.held h).2⟩
  gone {s} hg hn := by
    rcases List.mem_append.mp hg with hg | hg
    · refine L.gone hg fun j hj => ?_
      have hji : j ≠ i := by rintro rfl; simp [hi] at hj
      exact hn j (by rwa [Function.update_of_ne hji])
    · obtain rfl := List.mem_singleton.mp hg
      exact absurd (Function.update_self ..) (hn i)
  fresh hg := L.fresh fun h => hg (List.mem_append_left _ h)

theorem owned_of_move {i j k : O} {r : T}
    (h : Function.update (Function.update L.owned j (L.owned i)) i none k = some r) :
    k ≠ i ∧ ((k = j ∧ L.owned i = some r) ∨ L.owned k = some r) := by
  by_cases hk : k = i
  · simp [hk] at h
  · rw [Function.update_of_ne hk] at h
    refine ⟨hk, ?_⟩
    by_cases hj : k = j
    · rw [hj, Function.update_self] at h
      exact Or.inl ⟨hj, h⟩
    · rw [Function.update_of_ne hj] at h
      exact Or.inr h

/-- Move what one owner holds to another that holds nothing. -/
def move (i j : O) (hij : i ≠ j) (hj : L.owned j = none) : Ledger O T where
  owned := Function.update (Function.update L.owned j (L.owned i)) i none
  destroyed := L.destroyed
  released := L.released
  given := L.given
  owner_unique {k l r} hk hl := by
    obtain ⟨hki, ⟨rfl, hk'⟩ | hk'⟩ := L.owned_of_move hk <;>
      obtain ⟨hli, ⟨rfl, hl'⟩ | hl'⟩ := L.owned_of_move hl
    · rfl
    · exact absurd (L.owner_unique hl' hk') hli
    · exact absurd (L.owner_unique hk' hl') hki
    · exact L.owner_unique hk' hl'
  held h := by
    obtain ⟨_, ⟨_, h⟩ | h⟩ := L.owned_of_move h <;> exact L.held h
  gone {r} hg hn := by
    refine L.gone hg fun k hk => ?_
    by_cases hki : k = i
    · subst hki
      exact hn j (by rw [Function.update_of_ne hij.symm, Function.update_self, hk])
    · have hkj : k ≠ j := by rintro rfl; simp [hj] at hk
      exact hn k (by rw [Function.update_of_ne hki, Function.update_of_ne hkj, hk])
  fresh := L.fresh

end Ledger

end CollectedSources
