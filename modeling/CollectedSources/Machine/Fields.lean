import Mathlib

/-! # Fields and lines

A text that is cut at separators gives its fields, and one that is cut at the
ends of its lines gives the lines that have an end.
-/

namespace CollectedSources.Machine

variable {α : Type*}

theorem of_mem_splitOnP {p : α → Bool} {xs field : List α} (h : field ∈ xs.splitOnP p) :
    (∀ x ∈ field, p x = false) ∧ field ⊆ xs := by
  induction xs generalizing field with
  | nil =>
    rw [List.splitOnP_nil, List.mem_singleton] at h
    simp [h]
  | cons x xs ih =>
    rw [List.splitOnP_cons_eq_if_modifyHead] at h
    split at h
    · rcases List.mem_cons.mp h with rfl | h
      · simp
      · exact ⟨(ih h).1, List.subset_cons_of_subset x (ih h).2⟩
    · rename_i hx
      obtain ⟨first, rest, heq⟩ := List.exists_cons_of_ne_nil (List.splitOnP_ne_nil p xs)
      rw [heq, List.modifyHead_cons] at h
      rw [heq] at ih
      rcases List.mem_cons.mp h with rfl | h
      · obtain ⟨hfirst, hsub⟩ := ih List.mem_cons_self
        refine ⟨fun y hy => ?_, List.cons_subset_cons x hsub⟩
        rcases List.mem_cons.mp hy with rfl | hy
        · exact Bool.eq_false_of_not_eq_true hx
        · exact hfirst y hy
      · obtain ⟨hrest, hsub⟩ := ih (List.mem_cons_of_mem _ h)
        exact ⟨hrest, List.subset_cons_of_subset x hsub⟩

section Lines

variable [DecidableEq α] {sep : α} {xs ys : List α}

/-- The lines of a text that have an end. -/
def lines (sep : α) (xs : List α) : List (List α) := (xs.splitOn sep).dropLast

theorem lines_of_not_mem (h : sep ∉ xs) : lines sep xs = [] := by
  rw [lines, List.splitOn_eq_singleton h]
  rfl

theorem lines_append_cons (h : sep ∉ xs) : lines sep (xs ++ sep :: ys) = xs :: lines sep ys := by
  rw [lines, List.splitOn_append_cons_self_of_not_mem h,
    List.dropLast_cons_of_ne_nil (List.splitOn_ne_nil sep ys)]
  rfl

theorem length_lines (sep : α) (xs : List α) : (lines sep xs).length = xs.count sep := by
  induction hn : xs.count sep generalizing xs with
  | zero => rw [lines_of_not_mem (List.count_eq_zero.mp hn), List.length_nil]
  | succ n ih =>
    have hmem : sep ∈ xs := List.count_pos_iff.mp (by omega)
    obtain ⟨line, rest, rfl, hline⟩ := List.eq_append_cons_of_mem hmem
    rw [List.count_append, List.count_eq_zero.mpr hline, List.count_cons_self] at hn
    rw [lines_append_cons hline, List.length_cons, ih rest (by omega)]

end Lines

end CollectedSources.Machine
