import CollectedSources.Piskvor.Game
import Mathlib

/-! # The input of piskvor

`xoRead` asks for a move until it gets one, whatever `scanf` returns. The characters
of the input are split into attempts first, which does not depend on the board. At
the end of the input there are only empty attempts.
-/

namespace CollectedSources.Piskvor

open Machine

section Code

def isspace (c : Byte) : Bool := c = 0x20 ∨ 0x09 ≤ c ∧ c ≤ 0x0d

def isdigit (c : Byte) : Bool := 0x30 ≤ c ∧ c ≤ 0x39

/-- `scanf(" %c")`. -/
def scanChar (input : List Byte) : Option Byte × List Byte :=
  match input.dropWhile isspace with
  | [] => (none, [])
  | c :: rest => (some c, rest)

/-- The number of some digits, limited to a `long` and stored in an `int`. -/
def scanValue (negative : Bool) (digits : List Byte) : ℤ :=
  let n : ℕ := digits.foldl (fun n c => 10 * n + (c.toNat - 0x30)) 0
  let long : ℤ := if negative then max (-2 ^ 63) (-n) else min (2 ^ 63 - 1) n
  (BitVec.ofInt 32 long).toInt

/-- `scanf(" %d")`. A sign is consumed also if no digit follows. -/
def scanInt (input : List Byte) : Option ℤ × List Byte :=
  match input.dropWhile isspace with
  | [] => (none, [])
  | c :: rest =>
    let body := if c = 0x2d ∨ c = 0x2b then rest else c :: rest
    let digits := body.takeWhile isdigit
    (if digits = [] then none else some (scanValue (c = 0x2d) digits), body.dropWhile isdigit)

/-- What a round of `xoRead` reads. The row is read behind a letter only. -/
def scanAttempt (input : List Byte) : Attempt × List Byte :=
  match scanChar input with
  | (none, rest) => (⟨none, none⟩, rest)
  | (some c, rest) =>
    if isalpha c then
      let (radek, rest) := scanInt rest
      (⟨some c, radek⟩, rest)
    else (⟨some c, none⟩, rest)

/-- How `xoRead` is left, and what it has printed about the moves before. -/
inductive Left where
  | exited (messages : List String)
  | returned (messages : List String) (g : Game) (rest : List Byte)

/-- The loop of `xoRead` in a number of rounds, if they are enough. -/
def xoReadLoop (z : Size) : ℕ → List String → Game → List Byte → Option Left
  | 0, _, _, _ => none
  | fuel + 1, messages, g, input =>
    let (attempt, rest) := scanAttempt input
    match xoRead z g attempt with
    | .quit => some (.exited messages)
    | .rejected message g' => xoReadLoop z fuel (messages ++ [message]) g' rest
    | .placed g' => some (.returned messages g' rest)

end Code

/-- The loop comes to an end. -/
def Leaves (z : Size) (g : Game) (input : List Byte) : Prop :=
  ∃ fuel left, xoReadLoop z fuel [] g input = some left

/-- The attempts that the input is split into, one at most for each character. -/
def attempts : ℕ → List Byte → List Attempt
  | 0, _ => []
  | n + 1, input => (scanAttempt input).1 :: attempts n (scanAttempt input).2

/-- An asterisk, or a free cell of the board. -/
def Attempt.Decides (z : Size) (mem : ℤ → Byte) (a : Attempt) : Prop :=
  a.sloupec = some 0x2a ∨ ∃ c r, a.sloupec = some c ∧ a.radek = some r ∧ isalpha c ∧
    z.Inside (r - 1, (toupper c).toNat - 0x41) ∧
    mem (z.addr (r - 1, (toupper c).toNat - 0x41)) ≠ cross ∧
    mem (z.addr (r - 1, (toupper c).toNat - 0x41)) ≠ nought

section Attempts

variable {z : Size} {g g' : Game} {a : Attempt} {input rest : List Byte}

theorem length_scanChar (input : List Byte) : (scanChar input).2.length ≤ input.length - 1 := by
  have hle := List.length_dropWhile_le isspace input
  unfold scanChar
  split
  · simp
  · rename_i c rest heq
    rw [heq, List.length_cons] at hle
    simp only
    omega

theorem length_scanInt (input : List Byte) : (scanInt input).2.length ≤ input.length := by
  have hle := List.length_dropWhile_le isspace input
  unfold scanInt
  split
  · simp
  · rename_i c rest heq
    rw [heq, List.length_cons] at hle
    simp only
    split_ifs
    · have := List.length_dropWhile_le isdigit rest
      omega
    · have := List.length_dropWhile_le isdigit (c :: rest)
      rw [List.length_cons] at this
      omega

theorem length_scanAttempt (input : List Byte) :
    (scanAttempt input).2.length ≤ input.length - 1 := by
  have hchar := length_scanChar input
  unfold scanAttempt
  split
  · rename_i rest heq
    rw [heq] at hchar
    exact hchar
  · rename_i c rest heq
    rw [heq] at hchar
    split_ifs
    · exact (length_scanInt rest).trans hchar
    · exact hchar

theorem not_decides_none (z : Size) (mem : ℤ → Byte) (r : Option ℤ) :
    ¬ Attempt.Decides z mem ⟨none, r⟩ := by
  rintro (h | ⟨c, r, h, -⟩) <;> cases h

theorem attempts_mono {m n : ℕ} (hmn : m ≤ n) (ha : a ∈ attempts m input) :
    a ∈ attempts n input := by
  induction m generalizing n input with
  | zero => simp [attempts] at ha
  | succ m ih =>
    obtain ⟨n, rfl⟩ := Nat.exists_eq_succ_of_ne_zero (Nat.ne_zero_of_lt hmn)
    rw [attempts, List.mem_cons] at ha
    rw [Nat.succ_eq_add_one, attempts, List.mem_cons]
    rcases ha with rfl | ha
    · exact .inl rfl
    · exact .inr (ih (Nat.le_of_succ_le_succ hmn) ha)

theorem mem_attempts_of_decides {mem : ℤ → Byte} {n : ℕ} (ha : a ∈ attempts n input)
    (hdecides : a.Decides z mem) : a ∈ attempts input.length input := by
  induction n generalizing input with
  | zero => simp [attempts] at ha
  | succ n ih =>
    rw [attempts, List.mem_cons] at ha
    cases input with
    | nil =>
      rcases ha with rfl | ha
      · exact absurd hdecides (not_decides_none z mem none)
      · exact ih ha
    | cons c cs =>
      rw [List.length_cons, attempts, List.mem_cons]
      rcases ha with rfl | ha
      · exact .inl rfl
      · exact .inr (attempts_mono (length_scanAttempt (c :: cs)) (ih ha))

theorem quit_iff (z : Size) (g : Game) (a : Attempt) :
    xoRead z g a = .quit ↔ a.sloupec = some 0x2a := by
  unfold xoRead
  dsimp only
  constructor
  · intro h
    split_ifs at h with hstar
    obtain ⟨sloupec, radek⟩ := a
    cases sloupec with
    | none => exact absurd (show blank = 0x2a from hstar) (by decide)
    | some c => exact congrArg some hstar
  · intro h
    rw [h]
    exact if_pos rfl

theorem placed_of_decides {c : Byte} {r : ℤ} (hc : isalpha c)
    (hinside : z.Inside (r - 1, (toupper c).toNat - 0x41))
    (hfree : g.mem (z.addr (r - 1, (toupper c).toNat - 0x41)) ≠ cross ∧
      g.mem (z.addr (r - 1, (toupper c).toNat - 0x41)) ≠ nought) :
    ∃ g', xoRead z g ⟨some c, some r⟩ = .placed g' := by
  obtain ⟨hrow, hrow', hcoll, hcoll'⟩ := hinside
  simp only at hrow hrow' hcoll hcoll'
  have hstar : c ≠ 0x2a := by
    rintro rfl
    exact absurd hc (by decide)
  unfold xoRead
  simp only [Option.getD_some]
  rw [if_neg hstar, if_neg (not_not.mpr hc), if_neg (by omega), if_neg (by omega), if_pos hfree]
  exact ⟨_, rfl⟩

theorem decides_of_placed (h : xoRead z g a = .placed g') : a.Decides z g.mem := by
  have hrow := z.row_le
  obtain ⟨sloupec, radek⟩ := a
  unfold xoRead at h
  dsimp only at h
  split_ifs at h with hstar halpha hrange hsign hfree
  cases sloupec with
  | none => exact absurd (show isalpha blank from halpha) (by decide)
  | some c =>
    cases radek with
    | none =>
      simp only [Option.getD_none] at hrange
      omega
    | some r =>
      simp only [Option.getD_some] at halpha hrange hsign hfree
      refine .inr ⟨c, r, rfl, rfl, halpha, ?_, hfree⟩
      unfold Size.Inside
      simp only
      omega

theorem xoRead_cases (z : Size) (g : Game) (a : Attempt) :
    (a.Decides z g.mem ∧ (xoRead z g a = .quit ∨ ∃ g', xoRead z g a = .placed g')) ∨
      (¬ a.Decides z g.mem ∧ ∃ message g', xoRead z g a = .rejected message g' ∧
        g'.mem = g.mem) := by
  by_cases hdecides : a.Decides z g.mem
  · refine .inl ⟨hdecides, ?_⟩
    obtain ⟨sloupec, radek⟩ := a
    rcases hdecides with hstar | ⟨c, r, rfl, rfl, hc, hinside, hfree⟩
    · exact .inl ((quit_iff ..).mpr hstar)
    · exact .inr (placed_of_decides hc hinside hfree)
  · refine .inr ⟨hdecides, ?_⟩
    cases hread : xoRead z g a with
    | quit => exact absurd (.inl ((quit_iff ..).mp hread)) hdecides
    | rejected message g' => exact ⟨message, g', rfl, (xoRead_rejected hread).1⟩
    | placed g' => exact absurd (decides_of_placed hread) hdecides

/-- The loop ends in some rounds exactly when one of their attempts decides. -/
theorem xoReadLoop_isSome_iff (fuel : ℕ) (messages : List String) (g : Game) (input : List Byte) :
    (∃ left, xoReadLoop z fuel messages g input = some left) ↔
      ∃ a ∈ attempts fuel input, a.Decides z g.mem := by
  induction fuel generalizing messages g input with
  | zero => simp [xoReadLoop, attempts]
  | succ fuel ih =>
    rw [attempts, List.exists_mem_cons_iff, xoReadLoop]
    rcases xoRead_cases z g (scanAttempt input).1 with
      ⟨hdecides, hread | ⟨g', hread⟩⟩ | ⟨hdecides, message, g', hread, hmem⟩
    · simp only [hread]
      exact iff_of_true ⟨_, rfl⟩ (.inl hdecides)
    · simp only [hread]
      exact iff_of_true ⟨_, rfl⟩ (.inl hdecides)
    · simp only [hread]
      rw [ih, hmem, or_iff_right hdecides]

end Attempts

/-- `xoRead` comes to an end exactly when the input has an asterisk in the place of a column or the
coordinates of a free cell. -/
theorem leaves_iff (z : Size) (g : Game) (input : List Byte) :
    Leaves z g input ↔ ∃ a ∈ attempts input.length input, a.Decides z g.mem := by
  constructor
  · rintro ⟨fuel, hleft⟩
    obtain ⟨a, ha, hdecides⟩ := (xoReadLoop_isSome_iff fuel [] g input).mp hleft
    exact ⟨a, mem_attempts_of_decides ha hdecides, hdecides⟩
  · intro h
    exact ⟨input.length, (xoReadLoop_isSome_iff _ [] g input).mpr h⟩

/-- An empty input at the start of a game: every cell is free, and the loop never ends. -/
theorem emptyInput_never_leaves :
    run (step smallSize) (start smallSize cross fun _ => 0) [] =
        some (start smallSize cross fun _ => 0) ∧
      (∀ p, smallSize.Inside p → (start smallSize cross fun _ => 0).mem (smallSize.addr p) =
        blank) ∧
      ¬ Leaves smallSize (start smallSize cross fun _ => 0) [] := by
  refine ⟨rfl, fun p hp => ?_, ?_⟩
  · obtain ⟨hrow, hrow', hcoll, hcoll'⟩ := hp
    have hsize : smallSize.row = 5 ∧ smallSize.coll = 5 := ⟨rfl, rfl⟩
    rw [hsize.1] at hrow'
    rw [hsize.2] at hcoll'
    refine if_pos ?_
    unfold Size.addr
    rw [hsize.1, hsize.2]
    push_cast
    omega
  · rintro ⟨fuel, hleft⟩
    obtain ⟨a, ha, hdecides⟩ := (xoReadLoop_isSome_iff fuel [] _ []).mp hleft
    simpa [attempts] using mem_attempts_of_decides ha hdecides

end CollectedSources.Piskvor
