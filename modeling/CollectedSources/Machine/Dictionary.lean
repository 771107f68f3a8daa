import Mathlib

/-! # Dictionaries

A dictionary keeps its entries in the order of their keys. A key that is there
already is not inserted again.
-/

namespace CollectedSources

variable {κ ε : Type*} [LinearOrder κ]

/-- Insert an entry before those with a greater key. -/
def insertEntry (k : κ) (v : ε) : List (κ × ε) → List (κ × ε)
  | [] => [(k, v)]
  | e :: es =>
    if k < e.1 then (k, v) :: e :: es
    else if e.1 < k then e :: insertEntry k v es
    else e :: es

theorem mem_insertEntry {k : κ} {v : ε} {es : List (κ × ε)} {e : κ × ε}
    (h : e ∈ insertEntry k v es) : e = (k, v) ∨ e ∈ es := by
  induction es with
  | nil => simpa [insertEntry] using h
  | cons e' es ih =>
    simp only [insertEntry] at h
    split_ifs at h
    · simpa using h
    · rcases List.mem_cons.mp h with rfl | h
      · exact Or.inr List.mem_cons_self
      · exact (ih h).imp_right (List.mem_cons_of_mem e')
    · exact Or.inr h

theorem pairwise_insertEntry (k : κ) (v : ε) {es : List (κ × ε)}
    (h : es.Pairwise fun a b => a.1 < b.1) :
    (insertEntry k v es).Pairwise fun a b => a.1 < b.1 := by
  induction h with
  | nil => exact List.pairwise_singleton _ _
  | @cons e es hlt hes ih =>
    simp only [insertEntry]
    split_ifs with hk hk'
    · refine List.pairwise_cons.mpr ⟨?_, List.pairwise_cons.mpr ⟨hlt, hes⟩⟩
      rintro e' he'
      rcases List.mem_cons.mp he' with rfl | he'
      · exact hk
      · exact hk.trans (hlt e' he')
    · refine List.pairwise_cons.mpr ⟨?_, ih⟩
      rintro e' he'
      rcases mem_insertEntry he' with rfl | he'
      · exact hk'
      · exact hlt e' he'
    · exact List.pairwise_cons.mpr ⟨hlt, hes⟩

theorem perm_insertEntry {k : κ} {v : ε} {es : List (κ × ε)} (h : ∀ e ∈ es, e.1 ≠ k) :
    (insertEntry k v es).Perm ((k, v) :: es) := by
  induction es with
  | nil => exact List.Perm.refl _
  | cons e es ih =>
    rw [List.forall_mem_cons] at h
    simp only [insertEntry]
    split_ifs with hk hk'
    · exact List.Perm.refl _
    · exact ((ih h.2).cons e).trans (List.Perm.swap _ _ _)
    · exact absurd (le_antisymm (not_lt.mp hk) (not_lt.mp hk')) h.1

/-- Entries in the order of their keys. -/
structure Dictionary (κ ε : Type*) [LinearOrder κ] where
  entries : List (κ × ε)
  sorted : entries.Pairwise fun a b => a.1 < b.1

namespace Dictionary

def empty : Dictionary κ ε := ⟨[], List.Pairwise.nil⟩

def find (d : Dictionary κ ε) (k : κ) : Option ε := d.entries.lookup k

def insert (d : Dictionary κ ε) (k : κ) (v : ε) : Dictionary κ ε :=
  ⟨insertEntry k v d.entries, pairwise_insertEntry k v d.sorted⟩

/-- Change the value of a key. -/
def modify (d : Dictionary κ ε) (k : κ) (f : ε → ε) : Dictionary κ ε :=
  ⟨d.entries.map fun e => if e.1 = k then (e.1, f e.2) else e,
    List.pairwise_map.mpr (d.sorted.imp fun {a b} h => by split_ifs <;> exact h)⟩

variable {d : Dictionary κ ε} {k : κ} {v : ε}

/-- The entry of a new key is the only one that is added. -/
theorem perm_insert (h : d.find k = none) (v : ε) :
    (d.insert k v).entries.Perm ((k, v) :: d.entries) := by
  refine perm_insertEntry fun e he hk => ?_
  have hne := List.lookup_eq_none_iff.mp h e he
  simp [hk] at hne

/-- The entry of a key is the only one that is changed. -/
theorem entries_modify (h : d.find k = some v) :
    ∃ l r, d.entries = l ++ (k, v) :: r ∧
      ∀ f, (d.modify k f).entries = l ++ (k, f v) :: r := by
  obtain ⟨l, r, hentries, -⟩ := List.lookup_eq_some_iff.mp h
  have hsorted := d.sorted
  rw [hentries, List.pairwise_append, List.pairwise_cons] at hsorted
  obtain ⟨-, ⟨hr, -⟩, hl⟩ := hsorted
  refine ⟨l, r, hentries, fun f => ?_⟩
  have hl' : ∀ e ∈ l, (if e.1 = k then (e.1, f e.2) else e) = e :=
    fun e he => if_neg (hl e he (k, v) List.mem_cons_self).ne
  have hr' : ∀ e ∈ r, (if e.1 = k then (e.1, f e.2) else e) = e :=
    fun e he => if_neg (hr e he).ne'
  simp only [modify, hentries, List.map_append, List.map_cons, if_true]
  rw [List.map_congr_left hl', List.map_congr_left hr', List.map_id', List.map_id']

end Dictionary

end CollectedSources
