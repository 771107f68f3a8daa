import Mathlib.Data.List.Nodup

/-! # Tables and joins

Tables are lists of rows. An inner join pairs the rows of two tables that
satisfy a condition; a key identifies the row it belongs to.
-/

namespace CollectedSources.Table

variable {α β κ : Type*}

/-- The inner join of two tables. -/
def join (r : List α) (s : List β) (on : α → β → Bool) : List (α × β) :=
  r.flatMap fun a => (s.filter (on a)).map fun b => (a, b)

@[simp] theorem mem_join {r : List α} {s : List β} {on : α → β → Bool} {p : α × β} :
    p ∈ join r s on ↔ p.1 ∈ r ∧ p.2 ∈ s ∧ on p.1 p.2 = true := by
  obtain ⟨a, b⟩ := p
  simp only [join, List.mem_flatMap, List.mem_map, List.mem_filter, Prod.mk.injEq]
  constructor
  · rintro ⟨a', ha, b', ⟨hb, ho⟩, rfl, rfl⟩; exact ⟨ha, hb, ho⟩
  · rintro ⟨ha, hb, ho⟩; exact ⟨a, ha, b, ⟨hb, ho⟩, rfl, rfl⟩

/-- A column whose values are all different. -/
def Key (rows : List α) (key : α → κ) : Prop := (rows.map key).Nodup

instance [DecidableEq κ] (rows : List α) (key : α → κ) : Decidable (Key rows key) :=
  inferInstanceAs (Decidable (rows.map key).Nodup)

theorem Key.eq {rows : List α} {key : α → κ} (h : Key rows key) {a b : α} (ha : a ∈ rows)
    (hb : b ∈ rows) (hab : key a = key b) : a = b :=
  List.inj_on_of_nodup_map h ha hb hab

end CollectedSources.Table
