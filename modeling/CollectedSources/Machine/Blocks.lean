import Mathlib

/-! # Streams of blocks

A function of blocks of one size runs over the whole blocks of a list. What is
left at the end is shorter than a block. A stream that arrives in parts keeps
what is left of one part for the next.
-/

namespace CollectedSources.Blocks

variable {α σ : Type*} {n : ℕ} {f : σ → List α → σ} {s : σ} {xs ys : List α}

/-- The state after the first blocks of a list. -/
def blocks (n : ℕ) (f : σ → List α → σ) : ℕ → σ → List α → σ
  | 0, s, _ => s
  | k + 1, s, xs => blocks n f k (f s (xs.take n)) (xs.drop n)

/-- The state after all whole blocks of a list. -/
def whole (n : ℕ) (f : σ → List α → σ) (s : σ) (xs : List α) : σ :=
  blocks n f (xs.length / n) s xs

/-- The elements after the last whole block. -/
def rest (n : ℕ) (xs : List α) : List α := xs.drop (xs.length / n * n)

theorem length_rest : (rest n xs).length = xs.length % n := by
  rw [rest, List.length_drop, Nat.mul_comm, Nat.sub_eq_of_eq_add]
  exact (Nat.mod_add_div xs.length n).symm

theorem whole_of_lt (h : xs.length < n) : whole n f s xs = s := by
  rw [whole, Nat.div_eq_of_lt h, blocks]

theorem rest_of_lt (h : xs.length < n) : rest n xs = xs := by
  rw [rest, Nat.div_eq_of_lt h, Nat.zero_mul, List.drop_zero]

theorem length_append_div {b : List α} (hn : 0 < n) (hb : b.length = n) :
    (b ++ xs).length / n = xs.length / n + 1 := by
  rw [List.length_append, hb, Nat.add_comm, Nat.add_div_right _ hn]

theorem whole_append_of_length {b : List α} (hn : 0 < n) (hb : b.length = n) :
    whole n f s (b ++ xs) = whole n f (f s b) xs := by
  rw [whole, length_append_div hn hb, blocks, List.take_left' hb, List.drop_left' hb, whole]

theorem rest_append_of_length {b : List α} (hn : 0 < n) (hb : b.length = n) :
    rest n (b ++ xs) = rest n xs := by
  rw [rest, length_append_div hn hb, Nat.add_mul, Nat.one_mul, Nat.add_comm, ← List.drop_drop,
    List.drop_left' hb, rest]

theorem whole_of_length_eq (hn : 0 < n) (h : xs.length = n) : whole n f s xs = f s xs := by
  have hblock : whole n f s (xs ++ []) = whole n f (f s xs) [] := whole_append_of_length hn h
  have hnone : whole n f (f s xs) [] = f s xs := whole_of_lt hn
  rwa [List.append_nil, hnone] at hblock

theorem block_induction {P : List α → Prop} (hn : 0 < n) (short : ∀ xs, xs.length < n → P xs)
    (block : ∀ b xs, b.length = n → P xs → P (b ++ xs)) (xs : List α) : P xs := by
  induction hl : xs.length using Nat.strong_induction_on generalizing xs with
  | h l ih =>
    rcases Nat.lt_or_ge xs.length n with hlt | hge
    · exact short xs hlt
    · have hdrop : (xs.drop n).length < l := by
        rw [List.length_drop]
        omega
      have hrest : P (xs.drop n) := ih _ hdrop _ rfl
      rw [← List.take_append_drop n xs]
      exact block _ _ (List.length_take_of_le hge) hrest

theorem whole_append (hn : 0 < n) (s : σ) (xs ys : List α) :
    whole n f s (xs ++ ys) = whole n f (whole n f s xs) (rest n xs ++ ys) := by
  induction xs using block_induction hn generalizing s with
  | short xs hlt => rw [whole_of_lt hlt, rest_of_lt hlt]
  | block b xs hb ih =>
    rw [List.append_assoc, whole_append_of_length hn hb, whole_append_of_length hn hb,
      rest_append_of_length hn hb]
    exact ih (f s b)

theorem rest_append (hn : 0 < n) (xs ys : List α) :
    rest n (xs ++ ys) = rest n (rest n xs ++ ys) := by
  induction xs using block_induction hn with
  | short xs hlt => rw [rest_of_lt hlt]
  | block b xs hb ih =>
    rw [List.append_assoc, rest_append_of_length hn hb, rest_append_of_length hn hb]
    exact ih

theorem rest_of_dvd (h : n ∣ xs.length) : rest n xs = [] := by
  apply List.eq_nil_of_length_eq_zero
  rw [length_rest]
  exact Nat.mod_eq_zero_of_dvd h

theorem whole_append_of_dvd (hn : 0 < n) (h : n ∣ xs.length) :
    whole n f s (xs ++ ys) = whole n f (whole n f s xs) ys := by
  rw [whole_append hn, rest_of_dvd h, List.nil_append]

theorem rest_append_of_dvd (hn : 0 < n) (h : n ∣ xs.length) : rest n (xs ++ ys) = rest n ys := by
  rw [rest_append hn, rest_of_dvd h, List.nil_append]

end CollectedSources.Blocks
