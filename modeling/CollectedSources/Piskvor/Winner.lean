import Mathlib

/-! # The winner of piskvor

After each move `isWinner` looks for five marks in a row, in a column and in
both diagonals around the move. The board is a part of a larger memory, and each
of its cells has an address there. What the four scans find and which cells they
access is said once for each kind of scan.
-/

namespace CollectedSources.Piskvor

abbrev Byte := BitVec 8

def cross : Byte := 0x78

def nought : Byte := 0x6f

def blank : Byte := 0x20

/-- The sizes of a board that `main` admits. -/
structure Size where
  coll : ℕ
  row : ℕ
  coll_ge : 5 ≤ coll
  coll_le : coll ≤ 26
  row_ge : 5 ≤ row
  row_le : row ≤ 22

/-- A row and a column. -/
abbrev Pos := ℤ × ℤ

def Size.Inside (z : Size) (p : Pos) : Prop := 0 ≤ p.1 ∧ p.1 < z.row ∧ 0 ≤ p.2 ∧ p.2 < z.coll

instance (z : Size) (p : Pos) : Decidable (z.Inside p) :=
  inferInstanceAs (Decidable (_ ∧ _ ∧ _ ∧ _))

/-- The address of `area[p.1][p.2]`. -/
def Size.addr (z : Size) (p : Pos) : ℤ := p.1 * z.coll + p.2

/-- The memory around `area`, and the cells that have been accessed. -/
structure Area where
  mem : ℤ → Byte
  trace : List Pos

section Code

variable (z : Size)

def Area.read (s : Area) (p : Pos) : Byte × Area :=
  (s.mem (z.addr p), { s with trace := s.trace ++ [p] })

def Area.write (s : Area) (p : Pos) (v : Byte) : Area :=
  { mem := Function.update s.mem (z.addr p) v, trace := s.trace ++ [p] }

/-- The assignments `-= 32` to `n` cells on a line, from the one at `t` on. -/
def markRun (line : ℤ → Pos) : ℕ → ℤ → Area → Area
  | 0, _, s => s
  | n + 1, t, s =>
    let (v, s) := s.read z (line t)
    markRun line n (t + 1) (s.write z (line t) (v - 32))

/-- The loop over a row or a column, with `n` rounds left: the number of wins. -/
def runLoop (line : ℤ → Pos) : ℕ → ℤ → ℕ → Area → ℕ × Area
  | 0, _, _, s => (0, s)
  | n + 1, i, cnt, s =>
    let (v, s) := s.read z (line (i - 1))
    let (w, s) := s.read z (line i)
    let cnt := if v = w then cnt + 1 else 1
    if 5 ≤ cnt then (1, markRun z line cnt (i - cnt + 1) s)
    else runLoop line n (i + 1) cnt s

/-- The conjunction of the tests of `n` cells on a line, from the one at `t` on. -/
def fiveTest (kdo : Byte) (line : ℤ → Pos) : ℕ → ℤ → Area → Bool × Area
  | 0, _, s => (true, s)
  | n + 1, t, s =>
    let (v, s) := s.read z (line t)
    if v = kdo then fiveTest kdo line n (t + 1) s else (false, s)

/-- The loop over a diagonal, with `n` rounds left: the number of wins. -/
def fiveLoop (kdo : Byte) (line : ℤ → Pos) : ℕ → ℤ → Area → ℕ × Area
  | 0, _, s => (0, s)
  | n + 1, i, s =>
    let (found, s) := fiveTest z kdo line 5 i s
    if found then (1, markRun z line 5 i s) else fiveLoop kdo line n (i + 1) s

def rowLine (a_ra : ℤ) (i : ℤ) : Pos := (a_ra, i)

def columnLine (a_sl : ℤ) (i : ℤ) : Pos := (i, a_sl)

def diagonalLine1 (a_ra a_sl : ℤ) (i : ℤ) : Pos := (a_ra + i, a_sl + i)

def diagonalLine2 (a_ra a_sl : ℤ) (i : ℤ) : Pos := (a_ra + i, a_sl - i)

/-- The first value of `i` or `k` in the loops over the diagonals. -/
def firstOffset (a : ℤ) : ℤ := if a < 5 then -a else -4

/-- The rounds of a loop over a diagonal: it ends as soon as `i` or `k` is 5. -/
def rounds (a_ra a_sl : ℤ) : ℕ := (min (5 - firstOffset a_ra) (5 - firstOffset a_sl)).toNat

def rowScan (a_ra a_sl : ℤ) : Area → ℕ × Area :=
  let min_h := max (a_sl - 4) 0
  let max_h := min (a_sl + 4) z.coll
  runLoop z (rowLine a_ra) (max_h - min_h).toNat (min_h + 1) 1

def columnScan (a_ra a_sl : ℤ) : Area → ℕ × Area :=
  let min_h := max (a_ra - 4) 0
  let max_h := min (a_ra + 4) z.row
  runLoop z (columnLine a_sl) (max_h - min_h).toNat (min_h + 1) 1

def diagonalScan1 (a_ra a_sl : ℤ) (kdo : Byte) : Area → ℕ × Area :=
  fiveLoop z kdo (diagonalLine1 a_ra a_sl) (rounds a_ra a_sl) (firstOffset a_ra)

def diagonalScan2 (a_ra a_sl : ℤ) (kdo : Byte) : Area → ℕ × Area :=
  fiveLoop z kdo (diagonalLine2 a_ra a_sl) (rounds a_ra a_sl) (firstOffset a_ra)

def other (zacinajici : Byte) : Byte := if zacinajici = cross then nought else cross

/-- `isWinner`: the number of wins, the memory and the player whose turn it is. -/
def isWinner (a_ra a_sl : ℤ) (zacinajici : Byte) (s : Area) : ℕ × Area × Byte :=
  let (win₁, s) := rowScan z a_ra a_sl s
  let (win₂, s) := columnScan z a_ra a_sl s
  let (win₃, s) := diagonalScan1 z a_ra a_sl zacinajici s
  let (win₄, s) := diagonalScan2 z a_ra a_sl zacinajici s
  (win₁ + win₂ + win₃ + win₄, s, other zacinajici)

end Code

/-- Five cells on a line, from the one at `t` on, are on the board and hold a mark. -/
def FiveFrom (z : Size) (mem : ℤ → Byte) (kdo : Byte) (line : ℤ → Pos) (t : ℤ) : Prop :=
  ∀ u, t ≤ u → u ≤ t + 4 → z.Inside (line u) ∧ mem (z.addr (line u)) = kdo

/-- The directions on the board: to the right, down, and both ways diagonally down. -/
def directions : List (ℤ × ℤ) := [(0, 1), (1, 0), (1, 1), (1, -1)]

/-- Five consecutive cells in one of the directions, with the last move among them. -/
def Won (z : Size) (mem : ℤ → Byte) (kdo : Byte) (a_ra a_sl : ℤ) : Prop :=
  ∃ d ∈ directions, ∃ t, -4 ≤ t ∧ t ≤ 0 ∧
    FiveFrom z mem kdo (fun u => (a_ra + u * d.1, a_sl + u * d.2)) t

/-- A board with a last move of the player `kdo` on it. -/
structure Moved (z : Size) (mem : ℤ → Byte) (kdo : Byte) (a_ra a_sl : ℤ) : Prop where
  cells : ∀ p, z.Inside p → mem (z.addr p) = blank ∨ mem (z.addr p) = cross ∨
    mem (z.addr p) = nought
  player : kdo = cross ∨ kdo = nought
  inside : z.Inside (a_ra, a_sl)
  last : mem (z.addr (a_ra, a_sl)) = kdo

section Ranges

variable {P : ℤ → Prop} {t u : ℤ} {n : ℕ}

theorem not_range_zero (h : t ≤ u) : ¬ u < t + (0 : ℕ) := by
  push_cast
  omega

theorem forall_range_succ :
    (∀ u, t ≤ u → u < t + (n + 1 : ℕ) → P u) ↔
      P t ∧ ∀ u, t + 1 ≤ u → u < t + 1 + n → P u := by
  push_cast
  constructor
  · intro h
    exact ⟨h t (Int.le_refl t) (by omega), fun u hu hu' => h u (by omega) (by omega)⟩
  · rintro ⟨ht, h⟩ u hu hu'
    by_cases heq : u = t
    · rwa [heq]
    · exact h u (by omega) (by omega)

theorem exists_range_succ :
    (∃ u, t ≤ u ∧ u < t + (n + 1 : ℕ) ∧ P u) ↔
      P t ∨ ∃ u, t + 1 ≤ u ∧ u < t + 1 + n ∧ P u := by
  push_cast
  constructor
  · rintro ⟨u, hu, hu', h⟩
    by_cases heq : u = t
    · exact Or.inl (heq ▸ h)
    · exact Or.inr ⟨u, by omega, by omega, h⟩
  · rintro (h | ⟨u, hu, hu', h⟩)
    · exact ⟨t, Int.le_refl t, by omega, h⟩
    · exact ⟨u, by omega, by omega, h⟩

theorem forall_before_succ (h : t < u) :
    (∀ v, t ≤ v → v < u → P v) ↔ P t ∧ ∀ v, t + 1 ≤ v → v < u → P v := by
  constructor
  · intro hall
    exact ⟨hall t (Int.le_refl t) h, fun v hv hv' => hall v (by omega) hv'⟩
  · rintro ⟨ht, hall⟩ v hv hv'
    by_cases heq : v = t
    · rwa [heq]
    · exact hall v (by omega) hv'

theorem first_succ :
    (t ≤ u ∧ u < t + (n + 1 : ℕ) ∧ ∀ v, t ≤ v → v < u → ¬ P v) ↔
      u = t ∨ ¬ P t ∧ t + 1 ≤ u ∧ u < t + 1 + n ∧ ∀ v, t + 1 ≤ v → v < u → ¬ P v := by
  push_cast
  by_cases heq : u = t
  · subst heq
    have hnone : ∀ v, u ≤ v → v < u → ¬ P v := fun v _ _ => by omega
    exact ⟨fun _ => Or.inl rfl, fun _ => ⟨Int.le_refl u, by omega, hnone⟩⟩
  · constructor
    · rintro ⟨hu, hu', hall⟩
      obtain ⟨ht, hall⟩ := (forall_before_succ (by omega)).mp hall
      exact Or.inr ⟨ht, by omega, by omega, hall⟩
    · rintro (h | ⟨ht, hu, hu', hall⟩)
      · exact absurd h heq
      · exact ⟨by omega, by omega, (forall_before_succ (by omega)).mpr ⟨ht, hall⟩⟩

end Ranges

section Marks

variable {z : Size} {line : ℤ → Pos} {n : ℕ} {t : ℤ} {s : Area}

/-- Different cells of a line have different addresses. -/
def Size.Simple (z : Size) (line : ℤ → Pos) : Prop :=
  ∀ t u, z.addr (line t) = z.addr (line u) → t = u

theorem Size.coll_pos (z : Size) : (5 : ℤ) ≤ z.coll := by
  exact_mod_cast z.coll_ge

theorem Size.addr_injective {p q : Pos} (hp : z.Inside p) (hq : z.Inside q)
    (h : z.addr p = z.addr q) : p = q := by
  obtain ⟨-, -, hp₃, hp₄⟩ := hp
  obtain ⟨-, -, hq₃, hq₄⟩ := hq
  unfold Size.addr at h
  have hfst : p.1 = q.1 := by
    by_contra hne
    rcases lt_or_gt_of_ne hne with hlt | hlt
    · nlinarith
    · nlinarith
  rw [hfst] at h
  exact Prod.ext hfst (by omega)

theorem simple_rowLine (a_ra : ℤ) : z.Simple (rowLine a_ra) := by
  intro t u h
  simpa [Size.addr, rowLine] using h

theorem simple_columnLine (a_sl : ℤ) : z.Simple (columnLine a_sl) := by
  intro t u h
  have hcoll : z.coll ≠ 0 := by
    have := z.coll_ge
    omega
  simpa [Size.addr, columnLine, hcoll] using h

theorem simple_diagonalLine1 (a_ra a_sl : ℤ) : z.Simple (diagonalLine1 a_ra a_sl) := by
  intro t u h
  have hcoll := z.coll_pos
  have hmul : (t - u) * ((z.coll : ℤ) + 1) = 0 := by
    simp only [Size.addr, diagonalLine1] at h
    linear_combination h
  rcases mul_eq_zero.mp hmul with h | h <;> omega

theorem simple_diagonalLine2 (a_ra a_sl : ℤ) : z.Simple (diagonalLine2 a_ra a_sl) := by
  intro t u h
  have hcoll := z.coll_pos
  have hmul : (t - u) * ((z.coll : ℤ) - 1) = 0 := by
    simp only [Size.addr, diagonalLine2] at h
    linear_combination h
  rcases mul_eq_zero.mp hmul with h | h <;> omega

/-- The memory after some cells of a line have been marked. -/
structure Marked (z : Size) (line : ℤ → Pos) (n : ℕ) (t : ℤ) (mem mem' : ℤ → Byte) : Prop where
  cell : ∀ u, t ≤ u → u < t + n → mem' (z.addr (line u)) = mem (z.addr (line u)) - 32
  frame : ∀ a, (∀ u, t ≤ u → u < t + n → a ≠ z.addr (line u)) → mem' a = mem a

theorem markRun_mem (hline : z.Simple line) (n : ℕ) (t : ℤ) (s : Area) :
    Marked z line n t s.mem (markRun z line n t s).mem := by
  induction n generalizing t s with
  | zero => exact ⟨fun u h h' => absurd h' (not_range_zero h), fun a _ => rfl⟩
  | succ n ih =>
    obtain ⟨hcell, hframe⟩ := ih (t + 1)
      ⟨Function.update s.mem (z.addr (line t)) (s.mem (z.addr (line t)) - 32),
        s.trace ++ [line t] ++ [line t]⟩
    constructor
    · intro u h h'
      by_cases hu : u = t
      · subst hu
        have hne : ∀ v, u + 1 ≤ v → v < u + 1 + n → z.addr (line u) ≠ z.addr (line v) := by
          intro v hv _ heq
          have := hline u v heq
          omega
        exact (hframe _ hne).trans (Function.update_self ..)
      · have hne : z.addr (line u) ≠ z.addr (line t) := fun heq => hu (hline u t heq)
        refine (hcell u (by omega) (by push_cast at h'; omega)).trans ?_
        dsimp only
        rw [Function.update_of_ne hne]
    · intro a ha
      refine (hframe a fun u hu hu' => ha u (by omega) (by push_cast; omega)).trans ?_
      exact Function.update_of_ne (ha t (Int.le_refl t) (by push_cast; omega)) _ _

theorem mem_trace_markRun (n : ℕ) (t : ℤ) (s : Area) (p : Pos) :
    p ∈ (markRun z line n t s).trace ↔
      p ∈ s.trace ∨ ∃ u, t ≤ u ∧ u < t + n ∧ p = line u := by
  induction n generalizing t s with
  | zero =>
    refine ⟨Or.inl, ?_⟩
    rintro (h | ⟨u, h, h', -⟩)
    · exact h
    · exact absurd h' (not_range_zero h)
  | succ n ih =>
    rw [markRun]
    dsimp only [Area.read]
    rw [ih, exists_range_succ, ← or_assoc]
    apply or_congr_left
    simp only [Area.write, List.mem_append, List.mem_singleton]
    rw [or_assoc, or_self]

end Marks

section Diagonals

variable {z : Size} {kdo : Byte} {line : ℤ → Pos} {mem : ℤ → Byte}

/-- Five cells on a line hold a mark. -/
def Full (z : Size) (mem : ℤ → Byte) (kdo : Byte) (line : ℤ → Pos) (t : ℤ) : Prop :=
  ∀ u, t ≤ u → u ≤ t + 4 → mem (z.addr (line u)) = kdo

/-- The test of the five cells from `t` on comes to a cell. -/
def Reached (z : Size) (mem : ℤ → Byte) (kdo : Byte) (line : ℤ → Pos) (t u : ℤ) : Prop :=
  t ≤ u ∧ u ≤ t + 4 ∧ ∀ v, t ≤ v → v < u → mem (z.addr (line v)) = kdo

theorem fiveTest_mem (n : ℕ) (t : ℤ) (s : Area) :
    (fiveTest z kdo line n t s).2.mem = s.mem := by
  induction n generalizing t s with
  | zero => rfl
  | succ n ih =>
    rw [fiveTest]
    dsimp only [Area.read]
    split
    · exact ih _ _
    · rfl

theorem fiveTest_iff (n : ℕ) (t : ℤ) (s : Area) :
    (fiveTest z kdo line n t s).1 = true ↔
      ∀ u, t ≤ u → u < t + n → s.mem (z.addr (line u)) = kdo := by
  induction n generalizing t s with
  | zero => exact ⟨fun _ u h h' => absurd h' (not_range_zero h), fun _ => rfl⟩
  | succ n ih =>
    rw [fiveTest, forall_range_succ]
    dsimp only [Area.read]
    split
    · rename_i hv
      rw [ih]
      exact (and_iff_right hv).symm
    · rename_i hv
      exact ⟨fun h => Bool.noConfusion h, fun h => absurd h.1 hv⟩

theorem mem_trace_fiveTest (n : ℕ) (t : ℤ) (s : Area) (p : Pos) :
    p ∈ (fiveTest z kdo line n t s).2.trace ↔ p ∈ s.trace ∨
      ∃ u, t ≤ u ∧ u < t + n ∧ (∀ v, t ≤ v → v < u → s.mem (z.addr (line v)) = kdo) ∧
        p = line u := by
  induction n generalizing t s with
  | zero =>
    refine ⟨Or.inl, ?_⟩
    rintro (h | ⟨u, h, h', -⟩)
    · exact h
    · exact absurd h' (not_range_zero h)
  | succ n ih =>
    have hfirst : (∀ v, t ≤ v → v < t → s.mem (z.addr (line v)) = kdo) ∧ p = line t ↔
        p = line t := and_iff_right fun v _ _ => by omega
    rw [fiveTest, exists_range_succ, hfirst, ← or_assoc]
    dsimp only [Area.read]
    split
    · rename_i hv
      rw [ih, List.mem_append, List.mem_singleton]
      apply or_congr_right
      apply exists_congr
      intro u
      apply and_congr_right
      intro hu
      have hlt : t < u := by omega
      rw [forall_before_succ hlt, and_iff_right hv]
    · rename_i hv
      rw [List.mem_append, List.mem_singleton]
      refine ⟨Or.inl, ?_⟩
      rintro (h | ⟨u, hu, -, hall, -⟩)
      · exact h
      · exact absurd (hall t (Int.le_refl t) (by omega)) hv

theorem fiveTest_five_iff (t : ℤ) (s : Area) :
    (fiveTest z kdo line 5 t s).1 = true ↔ Full z s.mem kdo line t := by
  rw [fiveTest_iff]
  constructor
  · intro h u hu hu'
    exact h u hu (by push_cast; omega)
  · intro h u hu hu'
    exact h u hu (by push_cast at hu'; omega)

theorem mem_trace_fiveTest_five (t : ℤ) (s : Area) (p : Pos) :
    p ∈ (fiveTest z kdo line 5 t s).2.trace ↔
      p ∈ s.trace ∨ ∃ u, Reached z s.mem kdo line t u ∧ p = line u := by
  rw [mem_trace_fiveTest]
  constructor
  · rintro (h | ⟨u, h, h', hall, rfl⟩)
    · exact Or.inl h
    · exact Or.inr ⟨u, ⟨h, by push_cast at h'; omega, hall⟩, rfl⟩
  · rintro (h | ⟨u, ⟨h, h', hall⟩, rfl⟩)
    · exact Or.inl h
    · exact Or.inr ⟨u, h, by push_cast; omega, hall, rfl⟩

/-- The loop from `i` on comes to a round: no round before has found five marks. -/
structure Visited (z : Size) (mem : ℤ → Byte) (kdo : Byte) (line : ℤ → Pos) (i : ℤ) (n : ℕ)
    (t : ℤ) : Prop where
  ge : i ≤ t
  lt : t < i + n
  before : ∀ u, i ≤ u → u < t → ¬ Full z mem kdo line u

theorem visited_iff {i t : ℤ} {n : ℕ} :
    Visited z mem kdo line i n t ↔
      i ≤ t ∧ t < i + n ∧ ∀ u, i ≤ u → u < t → ¬ Full z mem kdo line u :=
  ⟨fun h => ⟨h.ge, h.lt, h.before⟩, fun h => ⟨h.1, h.2.1, h.2.2⟩⟩

theorem visited_succ {i t : ℤ} {n : ℕ} :
    Visited z mem kdo line i (n + 1) t ↔
      t = i ∨ ¬ Full z mem kdo line i ∧ Visited z mem kdo line (i + 1) n t := by
  rw [visited_iff, visited_iff]
  exact first_succ

theorem mem_trace_fiveLoop (n : ℕ) (i : ℤ) (s : Area) (p : Pos) :
    p ∈ (fiveLoop z kdo line n i s).2.trace ↔ p ∈ s.trace ∨
      ∃ t u, Visited z s.mem kdo line i n t ∧ Reached z s.mem kdo line t u ∧ p = line u := by
  induction n generalizing i s with
  | zero =>
    refine ⟨Or.inl, ?_⟩
    rintro (h | ⟨t, u, ⟨hge, hlt, -⟩, -⟩)
    · exact h
    · exact absurd hlt (not_range_zero hge)
  | succ n ih =>
    have hmem : (fiveTest z kdo line 5 i s).2.mem = s.mem := fiveTest_mem 5 i s
    rw [fiveLoop]
    dsimp only
    split
    · rename_i hfound
      rw [fiveTest_five_iff] at hfound
      rw [mem_trace_markRun, mem_trace_fiveTest_five]
      constructor
      · rintro ((h | ⟨u, hu, rfl⟩) | ⟨u, hu, hu', rfl⟩)
        · exact Or.inl h
        · exact Or.inr ⟨i, u, visited_succ.mpr (Or.inl rfl), hu, rfl⟩
        · refine Or.inr ⟨i, u, visited_succ.mpr (Or.inl rfl),
            ⟨hu, by push_cast at hu'; omega, fun v hv hvu => ?_⟩, rfl⟩
          exact hfound v hv (by push_cast at hu'; omega)
      · rintro (h | ⟨t, u, ht, hu, rfl⟩)
        · exact Or.inl (Or.inl h)
        · rcases visited_succ.mp ht with rfl | ⟨hfull, -⟩
          · exact Or.inl (Or.inr ⟨u, hu, rfl⟩)
          · exact absurd hfound hfull
    · rename_i hfound
      rw [fiveTest_five_iff] at hfound
      rw [ih, mem_trace_fiveTest_five, hmem]
      constructor
      · rintro ((h | ⟨u, hu, rfl⟩) | ⟨t, u, ht, hu, rfl⟩)
        · exact Or.inl h
        · exact Or.inr ⟨i, u, visited_succ.mpr (Or.inl rfl), hu, rfl⟩
        · exact Or.inr ⟨t, u, visited_succ.mpr (Or.inr ⟨hfound, ht⟩), hu, rfl⟩
      · rintro (h | ⟨t, u, ht, hu, rfl⟩)
        · exact Or.inl (Or.inl h)
        · rcases visited_succ.mp ht with rfl | ⟨-, ht⟩
          · exact Or.inl (Or.inr ⟨u, hu, rfl⟩)
          · exact Or.inr ⟨t, u, ht, hu, rfl⟩

theorem fiveLoop_result (kdo : Byte) (hline : z.Simple line) (n : ℕ) (i : ℤ) (s : Area) :
    ((fiveLoop z kdo line n i s).1 = 0 ∧ (fiveLoop z kdo line n i s).2.mem = s.mem ∧
        ∀ t, i ≤ t → t < i + n → ¬ Full z s.mem kdo line t) ∨
      ∃ t, (fiveLoop z kdo line n i s).1 = 1 ∧ Visited z s.mem kdo line i n t ∧
        Full z s.mem kdo line t ∧
        Marked z line 5 t s.mem (fiveLoop z kdo line n i s).2.mem := by
  induction n generalizing i s with
  | zero =>
    exact Or.inl ⟨rfl, rfl, fun t h h' => absurd h' (not_range_zero h)⟩
  | succ n ih =>
    have hmem : (fiveTest z kdo line 5 i s).2.mem = s.mem := fiveTest_mem 5 i s
    rw [fiveLoop]
    dsimp only
    split
    · rename_i hfound
      rw [fiveTest_five_iff] at hfound
      refine Or.inr ⟨i, rfl, visited_succ.mpr (Or.inl rfl), hfound, ?_⟩
      have hmarked := markRun_mem hline 5 i (fiveTest z kdo line 5 i s).2
      rwa [hmem] at hmarked
    · rename_i hfound
      rw [fiveTest_five_iff] at hfound
      have hnext := ih (i + 1) (fiveTest z kdo line 5 i s).2
      rw [hmem] at hnext
      rcases hnext with ⟨hwin, hkeep, hnone⟩ | ⟨t, hwin, ht, hfull, hmarked⟩
      · exact Or.inl ⟨hwin, hkeep, forall_range_succ.mpr ⟨hfound, hnone⟩⟩
      · exact Or.inr ⟨t, hwin, visited_succ.mpr (Or.inr ⟨hfound, ht⟩), hfull, hmarked⟩

end Diagonals

section Runs

variable {z : Size} {line : ℤ → Pos} {mem : ℤ → Byte} {a i : ℤ} {n cnt : ℕ}

/-- Five cells on a line up to `e`, from `a` on, hold the same. -/
def Run (z : Size) (mem : ℤ → Byte) (line : ℤ → Pos) (a e : ℤ) : Prop :=
  a ≤ e - 4 ∧ ∀ t, e - 4 ≤ t → t ≤ e → mem (z.addr (line t)) = mem (z.addr (line e))

/-- The counter holds the number of equal cells before `i`, from `a` on. -/
structure Counting (z : Size) (mem : ℤ → Byte) (line : ℤ → Pos) (a i : ℤ) (cnt : ℕ) : Prop where
  pos : 1 ≤ cnt
  le : cnt ≤ 4
  start : a ≤ i - cnt
  equal : ∀ t, i - cnt ≤ t → t ≤ i - 1 → mem (z.addr (line t)) = mem (z.addr (line (i - 1)))
  longest : i - cnt = a ∨ mem (z.addr (line (i - cnt - 1))) ≠ mem (z.addr (line (i - cnt)))

/-- The counter after the cell at `i`. -/
def nextCnt (z : Size) (mem : ℤ → Byte) (line : ℤ → Pos) (i : ℤ) (cnt : ℕ) : ℕ :=
  if mem (z.addr (line (i - 1))) = mem (z.addr (line i)) then cnt + 1 else 1

theorem Counting.run_of_five (h : Counting z mem line a i cnt)
    (hfive : 5 ≤ nextCnt z mem line i cnt) :
    nextCnt z mem line i cnt = 5 ∧ Run z mem line a i := by
  have hpos := h.pos
  have hle := h.le
  have hstart := h.start
  unfold nextCnt at hfive ⊢
  split at hfive
  · rename_i heq
    obtain rfl : cnt = 4 := by omega
    rw [if_pos heq]
    refine ⟨rfl, hstart, fun t ht ht' => ?_⟩
    by_cases hti : t = i
    · rw [hti]
    · rw [h.equal t ht (by omega), heq]
  · omega

theorem Counting.next (h : Counting z mem line a i cnt)
    (hfive : ¬ 5 ≤ nextCnt z mem line i cnt) :
    ¬ Run z mem line a i ∧ Counting z mem line a (i + 1) (nextCnt z mem line i cnt) := by
  have hpos := h.pos
  have hle := h.le
  have hstart := h.start
  unfold nextCnt at hfive ⊢
  split at hfive
  · rename_i heq
    rw [if_pos heq]
    have hback : i + 1 - ((cnt + 1 : ℕ) : ℤ) = i - cnt := by
      push_cast
      omega
    refine ⟨?_, by omega, by omega, by rw [hback]; exact hstart, ?_, by rw [hback]; exact h.longest⟩
    · -- a run of five would have to go beyond the cells that are counted
      rintro ⟨ha, hrun⟩
      rcases h.longest with hfirst | hne
      · omega
      · exact hne ((hrun _ (by omega) (by omega)).trans (hrun _ (by omega) (by omega)).symm)
    · intro t ht ht'
      rw [hback] at ht
      rw [Int.add_sub_cancel]
      by_cases hti : t = i
      · rw [hti]
      · rw [h.equal t ht (by omega), heq]
  · rename_i hne
    rw [if_neg hne]
    refine ⟨?_, by omega, by omega, by push_cast; omega, ?_, Or.inr ?_⟩
    · rintro ⟨ha, hrun⟩
      exact hne (hrun _ (by omega) (by omega))
    · intro t ht ht'
      push_cast at ht
      rw [show t = i + 1 - 1 by omega]
    · rw [Nat.cast_one, Int.add_sub_cancel]
      exact hne

/-- The loop from `i` on comes to a cell: no run of five ends before it. -/
structure Met (z : Size) (mem : ℤ → Byte) (line : ℤ → Pos) (a i : ℤ) (n : ℕ) (e : ℤ) : Prop where
  ge : i ≤ e
  lt : e < i + n
  before : ∀ t, i ≤ t → t < e → ¬ Run z mem line a t

theorem met_iff {e : ℤ} :
    Met z mem line a i n e ↔ i ≤ e ∧ e < i + n ∧ ∀ t, i ≤ t → t < e → ¬ Run z mem line a t :=
  ⟨fun h => ⟨h.ge, h.lt, h.before⟩, fun h => ⟨h.1, h.2.1, h.2.2⟩⟩

theorem met_succ {e : ℤ} :
    Met z mem line a i (n + 1) e ↔
      e = i ∨ ¬ Run z mem line a i ∧ Met z mem line a (i + 1) n e := by
  rw [met_iff, met_iff]
  exact first_succ

theorem runLoop_succ (n : ℕ) (i : ℤ) (cnt : ℕ) (s : Area) :
    runLoop z line (n + 1) i cnt s =
      if 5 ≤ nextCnt z s.mem line i cnt then
        (1, markRun z line (nextCnt z s.mem line i cnt) (i - (nextCnt z s.mem line i cnt : ℕ) + 1)
          { s with trace := s.trace ++ [line (i - 1)] ++ [line i] })
      else runLoop z line n (i + 1) (nextCnt z s.mem line i cnt)
        { s with trace := s.trace ++ [line (i - 1)] ++ [line i] } := rfl

theorem mem_trace_runLoop {s : Area} (h : Counting z s.mem line a i cnt) (p : Pos) :
    p ∈ (runLoop z line n i cnt s).2.trace ↔ p ∈ s.trace ∨
      ∃ e, Met z s.mem line a i n e ∧ (p = line (e - 1) ∨ p = line e ∨
        Run z s.mem line a e ∧ ∃ t, e - 4 ≤ t ∧ t ≤ e ∧ p = line t) := by
  induction n generalizing i cnt s with
  | zero =>
    refine ⟨Or.inl, ?_⟩
    rintro (h | ⟨e, ⟨hge, hlt, -⟩, -⟩)
    · exact h
    · exact absurd hlt (not_range_zero hge)
  | succ n ih =>
    rw [runLoop_succ]
    split
    · rename_i hfive
      obtain ⟨hcnt, hrun⟩ := h.run_of_five hfive
      rw [hcnt, mem_trace_markRun]
      simp only [List.mem_append, List.mem_singleton]
      constructor
      · rintro (((hp | hp) | hp) | ⟨u, hu, hu', hp⟩)
        · exact Or.inl hp
        · exact Or.inr ⟨i, met_succ.mpr (Or.inl rfl), Or.inl hp⟩
        · exact Or.inr ⟨i, met_succ.mpr (Or.inl rfl), Or.inr (Or.inl hp)⟩
        · exact Or.inr ⟨i, met_succ.mpr (Or.inl rfl), Or.inr (Or.inr ⟨hrun, u,
            by push_cast at hu; omega, by push_cast at hu'; omega, hp⟩)⟩
      · rintro (hp | ⟨e, he, hp⟩)
        · exact Or.inl (Or.inl (Or.inl hp))
        · rcases met_succ.mp he with rfl | ⟨hno, -⟩
          · rcases hp with hp | hp | ⟨-, u, hu, hu', hp⟩
            · exact Or.inl (Or.inl (Or.inr hp))
            · exact Or.inl (Or.inr hp)
            · exact Or.inr ⟨u, by push_cast; omega, by push_cast; omega, hp⟩
          · exact absurd hrun hno
    · rename_i hfive
      obtain ⟨hno, hnext⟩ := h.next hfive
      rw [ih (s := { s with trace := s.trace ++ [line (i - 1)] ++ [line i] }) hnext]
      simp only [List.mem_append, List.mem_singleton]
      constructor
      · rintro (((hp | hp) | hp) | ⟨e, he, hp⟩)
        · exact Or.inl hp
        · exact Or.inr ⟨i, met_succ.mpr (Or.inl rfl), Or.inl hp⟩
        · exact Or.inr ⟨i, met_succ.mpr (Or.inl rfl), Or.inr (Or.inl hp)⟩
        · exact Or.inr ⟨e, met_succ.mpr (Or.inr ⟨hno, he⟩), hp⟩
      · rintro (hp | ⟨e, he, hp⟩)
        · exact Or.inl (Or.inl (Or.inl hp))
        · rcases met_succ.mp he with rfl | ⟨-, he⟩
          · rcases hp with hp | hp | ⟨hrun, -⟩
            · exact Or.inl (Or.inl (Or.inr hp))
            · exact Or.inl (Or.inr hp)
            · exact absurd hrun hno
          · exact Or.inr ⟨e, he, hp⟩

theorem runLoop_result (hline : z.Simple line) {s : Area} (h : Counting z s.mem line a i cnt) :
    ((runLoop z line n i cnt s).1 = 0 ∧ (runLoop z line n i cnt s).2.mem = s.mem ∧
        ∀ e, i ≤ e → e < i + n → ¬ Run z s.mem line a e) ∨
      ∃ e, (runLoop z line n i cnt s).1 = 1 ∧ Met z s.mem line a i n e ∧
        Run z s.mem line a e ∧
        Marked z line 5 (e - 4) s.mem (runLoop z line n i cnt s).2.mem := by
  induction n generalizing i cnt s with
  | zero =>
    exact Or.inl ⟨rfl, rfl, fun e he he' => absurd he' (not_range_zero he)⟩
  | succ n ih =>
    rw [runLoop_succ]
    split
    · rename_i hfive
      obtain ⟨hcnt, hrun⟩ := h.run_of_five hfive
      rw [hcnt]
      refine Or.inr ⟨i, rfl, met_succ.mpr (Or.inl rfl), hrun, ?_⟩
      have hstart : i - ((5 : ℕ) : ℤ) + 1 = i - 4 := by
        push_cast
        omega
      rw [hstart]
      exact markRun_mem hline 5 (i - 4) _
    · rename_i hfive
      obtain ⟨hno, hnext⟩ := h.next hfive
      rcases ih (s := { s with trace := s.trace ++ [line (i - 1)] ++ [line i] }) hnext with
        ⟨hwin, hkeep, hnone⟩ | ⟨e, hwin, he, hrun, hmarked⟩
      · exact Or.inl ⟨hwin, hkeep, forall_range_succ.mpr ⟨hno, hnone⟩⟩
      · exact Or.inr ⟨e, hwin, met_succ.mpr (Or.inr ⟨hno, he⟩), hrun, hmarked⟩

theorem counting_start (z : Size) (mem : ℤ → Byte) (line : ℤ → Pos) (a : ℤ) :
    Counting z mem line a (a + 1) 1 := by
  refine ⟨by omega, by omega, by push_cast; omega, fun t ht ht' => ?_, Or.inl (by push_cast; omega)⟩
  push_cast at ht
  rw [show t = a + 1 - 1 by omega]

end Runs

section Wins

variable {z : Size} {mem : ℤ → Byte} {kdo : Byte} {a_ra a_sl : ℤ}

theorem fiveFrom_shift {line line' : ℤ → Pos} (c : ℤ) (h : ∀ u, line' u = line (c + u)) (t : ℤ) :
    FiveFrom z mem kdo line' t ↔ FiveFrom z mem kdo line (c + t) := by
  constructor
  · intro hfive u hu hu'
    have := hfive (u - c) (by omega) (by omega)
    rwa [h, show c + (u - c) = u by omega] at this
  · intro hfive u hu hu'
    rw [h]
    exact hfive (c + u) (by omega) (by omega)

/-- Five marks in the row of the last move, and so on for the other lines through it. -/
def RowFive (z : Size) (mem : ℤ → Byte) (kdo : Byte) (a_ra a_sl : ℤ) : Prop :=
  ∃ t, t ≤ a_sl ∧ a_sl ≤ t + 4 ∧ FiveFrom z mem kdo (rowLine a_ra) t

def ColumnFive (z : Size) (mem : ℤ → Byte) (kdo : Byte) (a_ra a_sl : ℤ) : Prop :=
  ∃ t, t ≤ a_ra ∧ a_ra ≤ t + 4 ∧ FiveFrom z mem kdo (columnLine a_sl) t

def DiagonalFive (z : Size) (mem : ℤ → Byte) (kdo : Byte) (line : ℤ → Pos) : Prop :=
  ∃ t, -4 ≤ t ∧ t ≤ 0 ∧ FiveFrom z mem kdo line t

theorem won_iff :
    Won z mem kdo a_ra a_sl ↔ RowFive z mem kdo a_ra a_sl ∨ ColumnFive z mem kdo a_ra a_sl ∨
      DiagonalFive z mem kdo (diagonalLine1 a_ra a_sl) ∨
      DiagonalFive z mem kdo (diagonalLine2 a_ra a_sl) := by
  have hrow (t : ℤ) : FiveFrom z mem kdo (fun u => (a_ra + u * 0, a_sl + u * 1)) t ↔
      FiveFrom z mem kdo (rowLine a_ra) (a_sl + t) :=
    fiveFrom_shift a_sl (fun u => by simp [rowLine]) t
  have hcolumn (t : ℤ) : FiveFrom z mem kdo (fun u => (a_ra + u * 1, a_sl + u * 0)) t ↔
      FiveFrom z mem kdo (columnLine a_sl) (a_ra + t) :=
    fiveFrom_shift a_ra (fun u => by simp [columnLine]) t
  have hdiag₁ : (fun u : ℤ => (a_ra + u * 1, a_sl + u * 1)) = diagonalLine1 a_ra a_sl := by
    funext u
    simp [diagonalLine1]
  have hdiag₂ : (fun u : ℤ => (a_ra + u * 1, a_sl + u * -1)) = diagonalLine2 a_ra a_sl := by
    funext u
    simp [diagonalLine2, sub_eq_add_neg]
  simp only [Won, directions, List.mem_cons, List.not_mem_nil, or_false, exists_eq_or_imp,
    exists_eq_left, hdiag₁, hdiag₂, hrow, hcolumn]
  refine or_congr ⟨?_, ?_⟩ (or_congr ⟨?_, ?_⟩ Iff.rfl)
  · rintro ⟨t, ht, ht', h⟩
    exact ⟨a_sl + t, by omega, by omega, h⟩
  · rintro ⟨t, ht, ht', h⟩
    exact ⟨t - a_sl, by omega, by omega, by rwa [show a_sl + (t - a_sl) = t by omega]⟩
  · rintro ⟨t, ht, ht', h⟩
    exact ⟨a_ra + t, by omega, by omega, h⟩
  · rintro ⟨t, ht, ht', h⟩
    exact ⟨t - a_ra, by omega, by omega, by rwa [show a_ra + (t - a_ra) = t by omega]⟩

theorem FiveFrom.full {line : ℤ → Pos} {t : ℤ} (h : FiveFrom z mem kdo line t) :
    Full z mem kdo line t := fun u hu hu' => (h u hu hu').2

theorem FiveFrom.run {line : ℤ → Pos} {a t : ℤ} (h : FiveFrom z mem kdo line t) (ha : a ≤ t) :
    Run z mem line a (t + 4) := by
  refine ⟨by omega, fun u hu hu' => ?_⟩
  rw [(h u (by omega) hu').2, (h (t + 4) (by omega) (Int.le_refl _)).2]

theorem rowScan_result (z : Size) (kdo : Byte) (a_ra a_sl : ℤ) (s : Area) :
    ((rowScan z a_ra a_sl s).1 = 0 ∧ (rowScan z a_ra a_sl s).2.mem = s.mem ∧
        ¬ RowFive z s.mem kdo a_ra a_sl) ∨ (rowScan z a_ra a_sl s).1 = 1 := by
  rcases runLoop_result (simple_rowLine a_ra)
    (counting_start z s.mem (rowLine a_ra) (max (a_sl - 4) 0)) with
    ⟨hwin, hmem, hnone⟩ | ⟨e, hwin, -⟩
  · refine Or.inl ⟨hwin, hmem, ?_⟩
    rintro ⟨t, ht, ht', hfive⟩
    obtain ⟨-, -, hlo, -⟩ := (hfive t (Int.le_refl t) (by omega)).1
    obtain ⟨-, -, -, hhi⟩ := (hfive (t + 4) (by omega) (Int.le_refl _)).1
    simp only [rowLine] at hlo hhi
    exact hnone (t + 4) (by omega) (by omega) (hfive.run (by omega))
  · exact Or.inr hwin

theorem columnScan_result (z : Size) (kdo : Byte) (a_ra a_sl : ℤ) (s : Area) :
    ((columnScan z a_ra a_sl s).1 = 0 ∧ (columnScan z a_ra a_sl s).2.mem = s.mem ∧
        ¬ ColumnFive z s.mem kdo a_ra a_sl) ∨ (columnScan z a_ra a_sl s).1 = 1 := by
  rcases runLoop_result (simple_columnLine a_sl)
    (counting_start z s.mem (columnLine a_sl) (max (a_ra - 4) 0)) with
    ⟨hwin, hmem, hnone⟩ | ⟨e, hwin, -⟩
  · refine Or.inl ⟨hwin, hmem, ?_⟩
    rintro ⟨t, ht, ht', hfive⟩
    obtain ⟨hlo, -, -, -⟩ := (hfive t (Int.le_refl t) (by omega)).1
    obtain ⟨-, hhi, -, -⟩ := (hfive (t + 4) (by omega) (Int.le_refl _)).1
    simp only [columnLine] at hlo hhi
    exact hnone (t + 4) (by omega) (by omega) (hfive.run (by omega))
  · exact Or.inr hwin

theorem firstOffset_le (hra : 0 ≤ a_ra) (hsl : 0 ≤ a_sl) {t : ℤ} (ht : -4 ≤ t) (ht' : t ≤ 0)
    (hrow : 0 ≤ a_ra + t) :
    firstOffset a_ra ≤ t ∧ t < firstOffset a_ra + rounds a_ra a_sl := by
  unfold rounds firstOffset
  split <;> split <;> omega

theorem fiveLoop_diagonal (kdo : Byte) {line : ℤ → Pos} (hline : z.Simple line)
    (hrow : ∀ u, (line u).1 = a_ra + u) (hra : 0 ≤ a_ra) (hsl : 0 ≤ a_sl) (s : Area) :
    ((fiveLoop z kdo line (rounds a_ra a_sl) (firstOffset a_ra) s).1 = 0 ∧
        (fiveLoop z kdo line (rounds a_ra a_sl) (firstOffset a_ra) s).2.mem = s.mem ∧
        ¬ DiagonalFive z s.mem kdo line) ∨
      (fiveLoop z kdo line (rounds a_ra a_sl) (firstOffset a_ra) s).1 = 1 := by
  rcases fiveLoop_result kdo hline (rounds a_ra a_sl) (firstOffset a_ra) s with
    ⟨hwin, hmem, hnone⟩ | ⟨t, hwin, -⟩
  · refine Or.inl ⟨hwin, hmem, ?_⟩
    rintro ⟨t, ht, ht', hfive⟩
    have hinside := (hfive t (Int.le_refl t) (by omega)).1.1
    rw [hrow] at hinside
    obtain ⟨hge, hlt⟩ := firstOffset_le hra hsl ht ht' hinside
    exact hnone t hge hlt hfive.full
  · exact Or.inr hwin

theorem isWinner_result (z : Size) (kdo : Byte) (hra : 0 ≤ a_ra) (hsl : 0 ≤ a_sl) (s : Area) :
    ((isWinner z a_ra a_sl kdo s).1 = 0 ∧ (isWinner z a_ra a_sl kdo s).2.1.mem = s.mem ∧
        ¬ Won z s.mem kdo a_ra a_sl) ∨ 1 ≤ (isWinner z a_ra a_sl kdo s).1 := by
  rcases rowScan_result z kdo a_ra a_sl s with ⟨hwin₁, hmem₁, hno₁⟩ | hwin
  swap
  · refine Or.inr ?_
    simp only [isWinner, hwin]
    omega
  rcases columnScan_result z kdo a_ra a_sl (rowScan z a_ra a_sl s).2 with
    ⟨hwin₂, hmem₂, hno₂⟩ | hwin
  swap
  · refine Or.inr ?_
    simp only [isWinner, hwin]
    omega
  rcases fiveLoop_diagonal kdo (simple_diagonalLine1 (z := z) a_ra a_sl) (fun _ => rfl)
    hra hsl (columnScan z a_ra a_sl (rowScan z a_ra a_sl s).2).2 with
    ⟨hwin₃, hmem₃, hno₃⟩ | hwin
  swap
  · refine Or.inr ?_
    simp only [isWinner, diagonalScan1, hwin]
    omega
  rcases fiveLoop_diagonal kdo (simple_diagonalLine2 (z := z) a_ra a_sl) (fun _ => rfl)
    hra hsl (diagonalScan1 z a_ra a_sl kdo
      (columnScan z a_ra a_sl (rowScan z a_ra a_sl s).2).2).2 with ⟨hwin₄, hmem₄, hno₄⟩ | hwin
  swap
  · refine Or.inr ?_
    simp only [isWinner, diagonalScan2, hwin]
    omega
  refine Or.inl ⟨?_, ?_, ?_⟩
  · simp only [isWinner, diagonalScan1, diagonalScan2] at hwin₄ ⊢
    rw [hwin₁, hwin₂, hwin₃, hwin₄]
  · exact hmem₄.trans (hmem₃.trans (hmem₂.trans hmem₁))
  · rw [hmem₁] at hno₂
    rw [hmem₂, hmem₁] at hno₃
    rw [diagonalScan1, hmem₃, hmem₂, hmem₁] at hno₄
    rw [won_iff]
    rintro (h | h | h | h)
    · exact hno₁ h
    · exact hno₂ h
    · exact hno₃ h
    · exact hno₄ h

/-- Five marks with the last move among them are found, whatever is behind the board. -/
theorem isWinner_of_won (z : Size) {mem : ℤ → Byte} {kdo : Byte} {a_ra a_sl : ℤ}
    (hmoved : Moved z mem kdo a_ra a_sl) (hwon : Won z mem kdo a_ra a_sl) (trace : List Pos) :
    1 ≤ (isWinner z a_ra a_sl kdo ⟨mem, trace⟩).1 := by
  obtain ⟨hra, -, hsl, -⟩ := hmoved.inside
  rcases isWinner_result z kdo hra hsl ⟨mem, trace⟩ with ⟨-, -, hno⟩ | hwin
  · exact absurd hwon hno
  · exact hwin

/-- A board of 5 by 5 cells. -/
def smallSize : Size := ⟨5, 5, by decide, by decide, by decide, by decide⟩

/-- Crosses on one of its diagonals, and other values behind the board. -/
def diagonalBoard (a : ℤ) : Byte :=
  if a = 4 ∨ a = 8 ∨ a = 12 ∨ a = 16 ∨ a = 20 then cross
  else if 0 ≤ a ∧ a < 25 then blank else 0x7f

theorem moved_diagonalBoard : Moved smallSize diagonalBoard cross 4 0 := by
  refine ⟨fun p hp => ?_, Or.inl rfl, by decide, rfl⟩
  obtain ⟨h₁, h₂, h₃, h₄⟩ := hp
  have haddr : 0 ≤ smallSize.addr p ∧ smallSize.addr p < 25 := by
    simp only [Size.addr, smallSize] at *
    push_cast at *
    omega
  rw [diagonalBoard]
  split
  · exact Or.inr (Or.inl rfl)
  · exact Or.inl rfl

theorem isWinner_of_won_diagonal :
    Moved smallSize diagonalBoard cross 4 0 ∧ Won smallSize diagonalBoard cross 4 0 ∧
      1 ≤ (isWinner smallSize 4 0 cross ⟨diagonalBoard, []⟩).1 := by
  have hwon : Won smallSize diagonalBoard cross 4 0 := by
    refine ⟨(1, -1), by decide, -4, by omega, by omega, fun u hu hu' => ?_⟩
    obtain rfl | rfl | rfl | rfl | rfl : u = -4 ∨ u = -3 ∨ u = -2 ∨ u = -1 ∨ u = 0 := by omega
    all_goals exact ⟨by decide, by decide⟩
  exact ⟨moved_diagonalBoard, hwon, isWinner_of_won smallSize moved_diagonalBoard hwon []⟩

end Wins

end CollectedSources.Piskvor
