import CollectedSources.Piskvor.Winner
import Mathlib

/-! # The edges of the board of piskvor

The scans of `isWinner` run over the edges of the board unless they find five
marks or meet another cell before. Where the move and the marks around it keep
them on the board, and where they find nothing but true wins, is said by a
condition on the board before the call.
-/

namespace CollectedSources.Piskvor

/-- All accesses are inside the board, and a win is returned only for five marks with the last
move among them. -/
def Correct (z : Size) (mem : ℤ → Byte) (kdo : Byte) (a_ra a_sl : ℤ) : Prop :=
  (∀ p ∈ (isWinner z a_ra a_sl kdo ⟨mem, []⟩).2.1.trace, z.Inside p) ∧
    ((isWinner z a_ra a_sl kdo ⟨mem, []⟩).1 ≠ 0 → Won z mem kdo a_ra a_sl)

/-- The cells on a line from the fourth one after the move on, up to the first one without the
mark or the eighth one, are inside the board. -/
def Stops (z : Size) (mem : ℤ → Byte) (kdo : Byte) (line : ℤ → Pos) : Prop :=
  ∃ t, 4 ≤ t ∧ t ≤ 8 ∧ (∀ u, 4 ≤ u → u ≤ t → z.Inside (line u)) ∧
    (t = 8 ∨ mem (z.addr (line t)) ≠ kdo)

/-- Five marks on a diagonal from the first offset on, without the last move if it is marked
as a part of other five marks. -/
def Found (z : Size) (mem : ℤ → Byte) (kdo : Byte) (line : ℤ → Pos) (i : ℤ) (used : Prop) : Prop :=
  ∃ t, i ≤ t ∧ t ≤ 4 ∧ FiveFrom z mem kdo line t ∧ (t ≤ 0 → ¬ used)

def Found1 (z : Size) (mem : ℤ → Byte) (kdo : Byte) (a_ra a_sl : ℤ) : Prop :=
  Found z mem kdo (diagonalLine1 a_ra a_sl) (firstOffset a_ra)
    (RowFive z mem kdo a_ra a_sl ∨ ColumnFive z mem kdo a_ra a_sl)

def Found2 (z : Size) (mem : ℤ → Byte) (kdo : Byte) (a_ra a_sl : ℤ) : Prop :=
  Found z mem kdo (diagonalLine2 a_ra a_sl) (firstOffset a_ra)
    ((RowFive z mem kdo a_ra a_sl ∨ ColumnFive z mem kdo a_ra a_sl) ∨
      DiagonalFive z mem kdo (diagonalLine1 a_ra a_sl))

/-- The boards and moves on which `isWinner` is correct. -/
structure Sound (z : Size) (mem : ℤ → Byte) (kdo : Byte) (a_ra a_sl : ℤ) : Prop where
  row : a_sl + 4 < z.coll ∨ RowFive z mem kdo a_ra a_sl
  column : a_ra + 4 < z.row ∨ ColumnFive z mem kdo a_ra a_sl ∧ ¬ RowFive z mem kdo a_ra a_sl
  inside1 : z.Inside (diagonalLine1 a_ra a_sl (firstOffset a_ra))
  diagonal1 : Found1 z mem kdo a_ra a_sl ∨ Stops z mem kdo (diagonalLine1 a_ra a_sl)
  inside2 : z.Inside (diagonalLine2 a_ra a_sl (firstOffset a_ra))
  diagonal2 : Found2 z mem kdo a_ra a_sl ∨ Stops z mem kdo (diagonalLine2 a_ra a_sl)
  attached : Found1 z mem kdo a_ra a_sl ∨ Found2 z mem kdo a_ra a_sl → Won z mem kdo a_ra a_sl

section Runs

variable {z : Size} {line : ℤ → Pos} {size : ℕ} {c : ℤ} {s : Area}

/-- The scan of a row or a column of the given size around the cell at `c`. -/
def runScan (z : Size) (line : ℤ → Pos) (size : ℕ) (c : ℤ) : Area → ℕ × Area :=
  runLoop z line (min (c + 4) size - max (c - 4) 0).toNat (max (c - 4) 0 + 1) 1

/-- Five equal cells with the one at `c` among them. -/
def LineFive (z : Size) (mem : ℤ → Byte) (v : Byte) (line : ℤ → Pos) (c : ℤ) : Prop :=
  ∃ t, t ≤ c ∧ c ≤ t + 4 ∧ FiveFrom z mem v line t

/-- A line whose cells inside the board are those from 0 on, with a cell inside the board. -/
structure Spans (z : Size) (line : ℤ → Pos) (size : ℕ) (c : ℤ) : Prop where
  simple : z.Simple line
  inside : ∀ t, z.Inside (line t) ↔ 0 ≤ t ∧ t < size
  ge : 0 ≤ c
  lt : c < size

theorem Spans.fiveFrom_of_run (h : Spans z line size c) {mem : ℤ → Byte} {e : ℤ}
    (hrun : Run z mem line (max (c - 4) 0) e) (he : e ≤ c + 4) (hsize : e < size) :
    FiveFrom z mem (mem (z.addr (line c))) line (e - 4) := by
  obtain ⟨ha, heq⟩ := hrun
  intro u hu hu'
  refine ⟨(h.inside u).mpr ⟨by omega, by omega⟩, ?_⟩
  rw [heq u hu (by omega), heq c (by omega) (by omega)]

theorem Spans.met_lt (h : Spans z line size c) {mem : ℤ → Byte} {v : Byte}
    (hcond : c + 4 < size ∨ LineFive z mem v line c) {n : ℕ} {e : ℤ}
    (hn : n = (min (c + 4) size - max (c - 4) 0).toNat)
    (he : Met z mem line (max (c - 4) 0) (max (c - 4) 0 + 1) n e) : e < size := by
  obtain ⟨hge, hlt, hbefore⟩ := he
  rcases hcond with hlast | ⟨t, ht, ht', hfive⟩
  · omega
  · obtain ⟨hlo, -⟩ := (h.inside t).mp (hfive t (Int.le_refl t) (by omega)).1
    obtain ⟨-, hhi⟩ := (h.inside (t + 4)).mp (hfive (t + 4) (by omega) (Int.le_refl _)).1
    by_contra hsize
    exact hbefore (t + 4) (by omega) (by omega) (hfive.run (by omega))

theorem Spans.runScan_inside (h : Spans z line size c) {v : Byte}
    (hv : s.mem (z.addr (line c)) = v) :
    (∀ p ∈ (runScan z line size c s).2.trace, z.Inside p) ↔
      (∀ p ∈ s.trace, z.Inside p) ∧ (c + 4 < size ∨ LineFive z s.mem v line c) := by
  subst hv
  have hge := h.ge
  have hlt := h.lt
  have htrace := mem_trace_runLoop (n := (min (c + 4) size - max (c - 4) 0).toNat)
    (counting_start z s.mem line (max (c - 4) 0))
  simp only [runScan, htrace]
  constructor
  · intro hall
    refine ⟨fun p hp => hall p (Or.inl hp), ?_⟩
    by_contra hcond
    rw [not_or] at hcond
    have hmet : Met z s.mem line (max (c - 4) 0) (max (c - 4) 0 + 1)
        (min (c + 4) size - max (c - 4) 0).toNat size := by
      refine ⟨by omega, by omega, fun t ht ht' hrun => hcond.2 ?_⟩
      have hstart := hrun.1
      exact ⟨t - 4, by omega, by omega, h.fiveFrom_of_run hrun (by omega) ht'⟩
    have hinside := hall (line size) (Or.inr ⟨size, hmet, Or.inr (Or.inl rfl)⟩)
    have := ((h.inside size).mp hinside).2
    omega
  · rintro ⟨htrace, hcond⟩ p (hp | ⟨e, hmet, hp⟩)
    · exact htrace p hp
    · have hesize := h.met_lt hcond rfl hmet
      have hege := hmet.ge
      rcases hp with rfl | rfl | ⟨hrun, t, ht, ht', rfl⟩
      · exact (h.inside _).mpr ⟨by omega, by omega⟩
      · exact (h.inside _).mpr ⟨by omega, by omega⟩
      · have hstart := hrun.1
        exact (h.inside _).mpr ⟨by omega, by omega⟩

theorem Spans.runScan_result (h : Spans z line size c) {v : Byte}
    (hv : s.mem (z.addr (line c)) = v) (hcond : c + 4 < size ∨ LineFive z s.mem v line c) :
    ((runScan z line size c s).1 = 0 ∧ (runScan z line size c s).2.mem = s.mem ∧
        ¬ LineFive z s.mem v line c) ∨
      ∃ t, (runScan z line size c s).1 = 1 ∧ t ≤ c ∧ c ≤ t + 4 ∧ FiveFrom z s.mem v line t ∧
        Marked z line 5 t s.mem (runScan z line size c s).2.mem := by
  subst hv
  have hge := h.ge
  have hlt := h.lt
  rcases runLoop_result (n := (min (c + 4) size - max (c - 4) 0).toNat) h.simple
    (counting_start z s.mem line (max (c - 4) 0)) with
    ⟨hwin, hmem, hnone⟩ | ⟨e, hwin, hmet, hrun, hmarked⟩
  · refine Or.inl ⟨hwin, hmem, ?_⟩
    rintro ⟨t, ht, ht', hfive⟩
    obtain ⟨hlo, -⟩ := (h.inside t).mp (hfive t (Int.le_refl t) (by omega)).1
    obtain ⟨-, hhi⟩ := (h.inside (t + 4)).mp (hfive (t + 4) (by omega) (Int.le_refl _)).1
    exact hnone (t + 4) (by omega) (by omega) (hfive.run (by omega))
  · have hesize := h.met_lt hcond rfl hmet
    have helt := hmet.lt
    have hstart := hrun.1
    exact Or.inr ⟨e - 4, hwin, by omega, by omega, h.fiveFrom_of_run hrun (by omega) hesize,
      hmarked⟩

end Runs

section Diagonals

variable {z : Size} {kdo : Byte} {line : ℤ → Pos} {mem : ℤ → Byte} {i : ℤ} {n : ℕ} {s : Area}

/-- What is between two cells of a line inside the board is inside the board. -/
def Size.Convex (z : Size) (line : ℤ → Pos) : Prop :=
  ∀ t u v, t ≤ u → u ≤ v → z.Inside (line t) → z.Inside (line v) → z.Inside (line u)

theorem convex_diagonalLine1 (a_ra a_sl : ℤ) : z.Convex (diagonalLine1 a_ra a_sl) := by
  rintro t u v htu huv ⟨h₁, h₂, h₃, h₄⟩ ⟨h₅, h₆, h₇, h₈⟩
  simp only [diagonalLine1, Size.Inside] at *
  omega

theorem convex_diagonalLine2 (a_ra a_sl : ℤ) : z.Convex (diagonalLine2 a_ra a_sl) := by
  rintro t u v htu huv ⟨h₁, h₂, h₃, h₄⟩ ⟨h₅, h₆, h₇, h₈⟩
  simp only [diagonalLine2, Size.Inside] at *
  omega

theorem exists_visited_full {t : ℤ} (ht : i ≤ t) (ht' : t < i + n)
    (hfull : Full z mem kdo line t) :
    ∃ u, Visited z mem kdo line i n u ∧ Full z mem kdo line u := by
  induction n generalizing i with
  | zero =>
    push_cast at ht'
    omega
  | succ n ih =>
    by_cases hi : Full z mem kdo line i
    · exact ⟨i, visited_succ.mpr (Or.inl rfl), hi⟩
    · have hne : t ≠ i := by
        rintro rfl
        exact hi hfull
      obtain ⟨u, hu, hufull⟩ := ih (i := i + 1) (by omega) (by push_cast at ht'; omega)
      exact ⟨u, visited_succ.mpr (Or.inr ⟨hi, hu⟩), hufull⟩

theorem exists_first_unmarked (z : Size) (mem : ℤ → Byte) (kdo : Byte) (line : ℤ → Pos) (i : ℤ)
    (k : ℕ) :
    ∃ t, i ≤ t ∧ t ≤ i + k ∧ (∀ v, i ≤ v → v < t → mem (z.addr (line v)) = kdo) ∧
      (t = i + k ∨ mem (z.addr (line t)) ≠ kdo) := by
  induction k generalizing i with
  | zero => exact ⟨i, Int.le_refl i, by simp, fun v _ _ => by omega, Or.inl (by simp)⟩
  | succ k ih =>
    by_cases hi : mem (z.addr (line i)) = kdo
    · obtain ⟨t, ht, ht', hmarks, hend⟩ := ih (i + 1)
      refine ⟨t, by omega, by push_cast; omega, fun v hv hvt => ?_, ?_⟩
      · by_cases hvi : v = i
        · rw [hvi, hi]
        · exact hmarks v (by omega) hvt
      · exact hend.imp (fun h => by push_cast; omega) id
    · exact ⟨i, Int.le_refl i, by omega, fun v _ _ => by omega, Or.inr hi⟩

theorem reached_of_full {t u : ℤ} (hfull : Full z mem kdo line t) (hu : t ≤ u) (hu' : u ≤ t + 4) :
    Reached z mem kdo line t u := ⟨hu, hu', fun v hv hvu => hfull v hv (by omega)⟩

/-- The cells that the loop reaches are inside the board if and only if its first cell is and
either five marks inside the board are found or the last round stops inside the board. -/
theorem reached_inside_iff (hconv : z.Convex line) (hi : i ≤ 4) (hn : i + n = 5) :
    (∀ t u, Visited z mem kdo line i n t → Reached z mem kdo line t u → z.Inside (line u)) ↔
      z.Inside (line i) ∧
        ((∃ t, i ≤ t ∧ t ≤ 4 ∧ FiveFrom z mem kdo line t) ∨ Stops z mem kdo line) := by
  have hfirst : Visited z mem kdo line i n i := ⟨Int.le_refl i, by omega, fun u _ _ => by omega⟩
  constructor
  · intro hall
    have hstart : z.Inside (line i) :=
      hall i i hfirst ⟨Int.le_refl i, by omega, fun v _ _ => by omega⟩
    refine ⟨hstart, ?_⟩
    by_cases hfull : ∃ t, i ≤ t ∧ t < i + n ∧ Full z mem kdo line t
    · obtain ⟨t, ht, ht', hfull⟩ := hfull
      obtain ⟨u, hvisit, hufull⟩ := exists_visited_full ht ht' hfull
      have hult := hvisit.lt
      exact Or.inl ⟨u, hvisit.ge, by omega, fun v hv hv' =>
        ⟨hall u v hvisit (reached_of_full hufull hv hv'), hufull v hv hv'⟩⟩
    · have hlast : Visited z mem kdo line i n 4 :=
        ⟨hi, by omega, fun u hu hu' hufull => hfull ⟨u, hu, by omega, hufull⟩⟩
      obtain ⟨t, ht, ht', hmarks, hend⟩ := exists_first_unmarked z mem kdo line 4 4
      push_cast at ht' hend
      refine Or.inr ⟨t, ht, by omega, fun u hu hut => ?_, hend.imp (fun h => by omega) id⟩
      exact hall 4 u hlast ⟨hu, by omega, fun v hv hvu => hmarks v hv (by omega)⟩
  · rintro ⟨hstart, hcond⟩ t u hvisit ⟨htu, hut, hmarks⟩
    have hge := hvisit.ge
    have hlt := hvisit.lt
    rcases hcond with ⟨v, hv, hv', hfive⟩ | ⟨v, hv, hv', hinside, hend⟩
    · have htv : t ≤ v := by
        by_contra hlt
        exact hvisit.before v hv (by omega) hfive.full
      exact hconv i u (v + 4) (by omega) (by omega) hstart
        (hfive (v + 4) (by omega) (Int.le_refl _)).1
    · have huv : u ≤ v := by
        by_contra hlt
        rcases hend with rfl | hend
        · omega
        · exact hend (hmarks v (by omega) (by omega))
      exact hconv i u v (by omega) huv hstart (hinside v hv (Int.le_refl v))

theorem fiveLoop_inside (hconv : z.Convex line) (hi : i ≤ 4) (hn : i + n = 5) (s : Area) :
    (∀ p ∈ (fiveLoop z kdo line n i s).2.trace, z.Inside p) ↔
      (∀ p ∈ s.trace, z.Inside p) ∧ z.Inside (line i) ∧
        ((∃ t, i ≤ t ∧ t ≤ 4 ∧ FiveFrom z s.mem kdo line t) ∨ Stops z s.mem kdo line) := by
  rw [← reached_inside_iff hconv hi hn]
  simp only [mem_trace_fiveLoop]
  constructor
  · intro hall
    exact ⟨fun p hp => hall p (Or.inl hp),
      fun t u ht hu => hall _ (Or.inr ⟨t, u, ht, hu, rfl⟩)⟩
  · rintro ⟨htrace, hall⟩ p (hp | ⟨t, u, ht, hu, rfl⟩)
    · exact htrace p hp
    · exact hall t u ht hu

theorem fiveLoop_result_inside (hline : z.Simple line) (hn : i + n = 5) (s : Area)
    (hinside : ∀ p ∈ (fiveLoop z kdo line n i s).2.trace, z.Inside p) :
    ((fiveLoop z kdo line n i s).1 = 0 ∧ (fiveLoop z kdo line n i s).2.mem = s.mem ∧
        ¬ ∃ t, i ≤ t ∧ t ≤ 4 ∧ FiveFrom z s.mem kdo line t) ∨
      ∃ t, (fiveLoop z kdo line n i s).1 = 1 ∧ i ≤ t ∧ t ≤ 4 ∧ FiveFrom z s.mem kdo line t ∧
        (∀ u, i ≤ u → u < t → ¬ FiveFrom z s.mem kdo line u) ∧
        Marked z line 5 t s.mem (fiveLoop z kdo line n i s).2.mem := by
  rcases fiveLoop_result kdo hline n i s with
    ⟨hwin, hmem, hnone⟩ | ⟨t, hwin, hvisit, hfull, hmarked⟩
  · refine Or.inl ⟨hwin, hmem, ?_⟩
    rintro ⟨t, ht, ht', hfive⟩
    exact hnone t ht (by omega) hfive.full
  · have hlt := hvisit.lt
    refine Or.inr ⟨t, hwin, hvisit.ge, by omega, fun u hu hu' => ⟨?_, hfull u hu hu'⟩,
      fun u hu hut hfive => hvisit.before u hu hut hfive.full, hmarked⟩
    exact hinside _ ((mem_trace_fiveLoop n i s _).mpr
      (Or.inr ⟨t, u, hvisit, reached_of_full hfull hu hu', rfl⟩))

end Diagonals

section Steps

variable {z : Size} {mem mem' : ℤ → Byte} {kdo : Byte} {a_ra a_sl : ℤ} {line : ℤ → Pos}

theorem Marked.off {t : ℤ} {v : Byte} (h : Marked z line 5 t mem mem')
    (hfive : FiveFrom z mem v line t) {p : Pos} (hp : z.Inside p)
    (hne : ∀ u, t ≤ u → u ≤ t + 4 → p ≠ line u) : mem' (z.addr p) = mem (z.addr p) := by
  refine h.frame _ fun u hu hu' heq => ?_
  push_cast at hu'
  exact hne u hu (by omega) (Size.addr_injective hp (hfive u hu (by omega)).1 heq)

/-- The memory after some scans: only cells on the lines that were scanned have changed, and the
last move has if it was used for five marks. -/
structure Kept (z : Size) (mem mem' : ℤ → Byte) (kdo : Byte) (a_ra a_sl : ℤ) (lines : Pos → Prop)
    (used : Prop) : Prop where
  off : ∀ p, z.Inside p → ¬ lines p → mem' (z.addr p) = mem (z.addr p)
  unused : ¬ used → mem' (z.addr (a_ra, a_sl)) = kdo
  used : used → mem' (z.addr (a_ra, a_sl)) = kdo - 32

theorem Moved.sub_ne (h : Moved z mem kdo a_ra a_sl) {p : Pos} (hp : z.Inside p) :
    mem (z.addr p) ≠ kdo - 32 := by
  rcases h.cells p hp with hv | hv | hv <;> rw [hv] <;> rcases h.player with hk | hk <;> rw [hk] <;>
    decide

theorem spans_rowLine (h : z.Inside (a_ra, a_sl)) : Spans z (rowLine a_ra) z.coll a_sl := by
  obtain ⟨h₁, h₂, h₃, h₄⟩ := h
  refine ⟨simple_rowLine a_ra, fun t => ?_, h₃, h₄⟩
  simp only [Size.Inside, rowLine] at *
  omega

theorem spans_columnLine (h : z.Inside (a_ra, a_sl)) : Spans z (columnLine a_sl) z.row a_ra := by
  obtain ⟨h₁, h₂, h₃, h₄⟩ := h
  refine ⟨simple_columnLine a_sl, fun t => ?_, h₁, h₂⟩
  simp only [Size.Inside, columnLine] at *
  omega

/-- The lines through the last move. -/
def OnRow (a_ra : ℤ) (p : Pos) : Prop := p.1 = a_ra

def OnCross (a_ra a_sl : ℤ) (p : Pos) : Prop := p.1 = a_ra ∨ p.2 = a_sl

def OnStar (a_ra a_sl : ℤ) (p : Pos) : Prop := OnCross a_ra a_sl p ∨ p.1 - a_ra = p.2 - a_sl

theorem rowScan_inside {s : Area} (h : Moved z s.mem kdo a_ra a_sl) :
    (∀ p ∈ (rowScan z a_ra a_sl s).2.trace, z.Inside p) ↔
      (∀ p ∈ s.trace, z.Inside p) ∧
        (a_sl + 4 < z.coll ∨ RowFive z s.mem kdo a_ra a_sl) :=
  (spans_rowLine h.inside).runScan_inside h.last

theorem rowScan_kept {s : Area} (h : Moved z s.mem kdo a_ra a_sl)
    (hcond : a_sl + 4 < z.coll ∨ RowFive z s.mem kdo a_ra a_sl) :
    ((rowScan z a_ra a_sl s).1 ≠ 0 ↔ RowFive z s.mem kdo a_ra a_sl) ∧
      Kept z s.mem (rowScan z a_ra a_sl s).2.mem kdo a_ra a_sl (OnRow a_ra)
        (RowFive z s.mem kdo a_ra a_sl) := by
  rcases (spans_rowLine h.inside).runScan_result h.last hcond with
    ⟨hwin, hmem, hno⟩ | ⟨t, hwin, ht, ht', hfive, hmarked⟩
  · refine ⟨⟨fun hne => absurd hwin hne, fun hrow => absurd hrow hno⟩, ?_⟩
    rw [show (rowScan z a_ra a_sl s).2.mem = s.mem from hmem]
    exact ⟨fun p _ _ => rfl, fun _ => h.last, fun hrow => absurd hrow hno⟩
  · have hrow : RowFive z s.mem kdo a_ra a_sl := ⟨t, ht, ht', hfive⟩
    have hwin' : (rowScan z a_ra a_sl s).1 = 1 := hwin
    refine ⟨⟨fun _ => hrow, fun _ => by omega⟩, fun p hp hline => ?_,
      fun hno => absurd hrow hno, fun _ => ?_⟩
    · exact hmarked.off hfive hp fun u _ _ heq => hline (by rw [heq]; rfl)
    · have hcell := hmarked.cell a_sl ht (by push_cast; omega)
      rw [(hfive a_sl ht ht').2] at hcell
      exact hcell

theorem Kept.lineFive_iff (h : Moved z mem kdo a_ra a_sl) {used : Prop} [Decidable used]
    (hkept : Kept z mem mem' kdo a_ra a_sl (OnRow a_ra) used) :
    LineFive z mem' (if used then kdo - 32 else kdo) (columnLine a_sl) a_ra ↔
      ColumnFive z mem kdo a_ra a_sl ∧ ¬ used := by
  have hoff : ∀ u, u ≠ a_ra → z.Inside (columnLine a_sl u) →
      mem' (z.addr (columnLine a_sl u)) = mem (z.addr (columnLine a_sl u)) :=
    fun u hu hinside => hkept.off _ hinside hu
  split
  · rename_i hused
    refine ⟨?_, fun hno => absurd hused hno.2⟩
    rintro ⟨t, ht, ht', hfive⟩
    obtain ⟨u, hu, hu', hne⟩ : ∃ u, t ≤ u ∧ u ≤ t + 4 ∧ u ≠ a_ra := by
      by_cases hta : t = a_ra
      · exact ⟨t + 1, by omega, by omega, by omega⟩
      · exact ⟨t, by omega, by omega, hta⟩
    obtain ⟨hinside, hv⟩ := hfive u hu hu'
    rw [hoff u hne hinside] at hv
    exact absurd hv (h.sub_ne hinside)
  · rename_i hused
    have hcell : ∀ u, z.Inside (columnLine a_sl u) →
        (mem' (z.addr (columnLine a_sl u)) = kdo ↔ mem (z.addr (columnLine a_sl u)) = kdo) := by
      intro u hinside
      by_cases hu : u = a_ra
      · subst hu
        exact iff_of_true (hkept.unused hused) h.last
      · rw [hoff u hu hinside]
    constructor
    · rintro ⟨t, ht, ht', hfive⟩
      exact ⟨⟨t, ht, ht', fun u hu hu' => ⟨(hfive u hu hu').1,
        (hcell u (hfive u hu hu').1).mp (hfive u hu hu').2⟩⟩, hused⟩
    · rintro ⟨⟨t, ht, ht', hfive⟩, -⟩
      exact ⟨t, ht, ht', fun u hu hu' => ⟨(hfive u hu hu').1,
        (hcell u (hfive u hu hu').1).mpr (hfive u hu hu').2⟩⟩

theorem Kept.center {lines : Pos → Prop} {used : Prop} [Decidable used]
    (h : Kept z mem mem' kdo a_ra a_sl lines used) :
    mem' (z.addr (a_ra, a_sl)) = if used then kdo - 32 else kdo := by
  split
  · exact h.used ‹_›
  · exact h.unused ‹_›

/-- A scan that leaves the last move as it is, and finds five marks only beside a used move. -/
theorem Kept.extend {lines lines' : Pos → Prop} {used five : Prop} {mem₂ : ℤ → Byte}
    (h : Kept z mem mem' kdo a_ra a_sl lines used)
    (hoff : ∀ p, z.Inside p → ¬ lines' p → mem₂ (z.addr p) = mem (z.addr p))
    (hcell : mem₂ (z.addr (a_ra, a_sl)) = mem' (z.addr (a_ra, a_sl))) (hfive : five → used) :
    Kept z mem mem₂ kdo a_ra a_sl lines' (used ∨ five) := by
  refine ⟨hoff, fun hno => ?_, fun hused => ?_⟩
  · exact hcell.trans (h.unused fun hused => hno (Or.inl hused))
  · exact hcell.trans (h.used (hused.elim id hfive))

theorem columnScan_inside (h : Moved z mem kdo a_ra a_sl) {s : Area} {used : Prop}
    (hkept : Kept z mem s.mem kdo a_ra a_sl (OnRow a_ra) used) :
    (∀ p ∈ (columnScan z a_ra a_sl s).2.trace, z.Inside p) ↔
      (∀ p ∈ s.trace, z.Inside p) ∧
        (a_ra + 4 < z.row ∨ ColumnFive z mem kdo a_ra a_sl ∧ ¬ used) := by
  classical
  rw [← hkept.lineFive_iff h]
  exact (spans_columnLine h.inside).runScan_inside hkept.center

theorem columnScan_kept (h : Moved z mem kdo a_ra a_sl) {s : Area} {used : Prop}
    (hkept : Kept z mem s.mem kdo a_ra a_sl (OnRow a_ra) used)
    (hcond : a_ra + 4 < z.row ∨ ColumnFive z mem kdo a_ra a_sl ∧ ¬ used) :
    ((columnScan z a_ra a_sl s).1 ≠ 0 ↔ ColumnFive z mem kdo a_ra a_sl ∧ ¬ used) ∧
      Kept z mem (columnScan z a_ra a_sl s).2.mem kdo a_ra a_sl (OnCross a_ra a_sl)
        (used ∨ ColumnFive z mem kdo a_ra a_sl) := by
  classical
  rw [← hkept.lineFive_iff h] at hcond
  rcases (spans_columnLine h.inside).runScan_result hkept.center hcond with
    ⟨hwin, hmem, hno⟩ | ⟨t, hwin, ht, ht', hfive, hmarked⟩
  · rw [hkept.lineFive_iff h] at hno
    refine ⟨⟨fun hne => absurd hwin hne, fun hcolumn => absurd hcolumn hno⟩, ?_⟩
    rw [show (columnScan z a_ra a_sl s).2.mem = s.mem from hmem]
    apply hkept.extend (fun p hp hline => hkept.off p hp fun hrow => hline (Or.inl hrow)) rfl
    intro hcolumn
    by_contra hused
    exact hno ⟨hcolumn, hused⟩
  · have hcolumn := (hkept.lineFive_iff h).mp ⟨t, ht, ht', hfive⟩
    have hwin' : (columnScan z a_ra a_sl s).1 = 1 := hwin
    refine ⟨⟨fun _ => hcolumn, fun _ => by omega⟩, fun p hp hline => ?_,
      fun hno => absurd (Or.inr hcolumn.1) hno, fun _ => ?_⟩
    · refine (hmarked.off hfive hp fun u _ _ heq => hline (Or.inr (by rw [heq]; rfl))).trans ?_
      exact hkept.off p hp fun hrow => hline (Or.inl hrow)
    · have hcell := hmarked.cell a_ra ht (by push_cast; omega)
      rw [(hfive a_ra ht ht').2, if_neg hcolumn.2] at hcell
      exact hcell

/-- A line that meets the lines scanned before at the last move only. -/
structure Crosses (line : ℤ → Pos) (a_ra a_sl : ℤ) (lines : Pos → Prop) : Prop where
  center : line 0 = (a_ra, a_sl)
  off : ∀ t, t ≠ 0 → ¬ lines (line t)

theorem crosses_diagonalLine1 (a_ra a_sl : ℤ) :
    Crosses (diagonalLine1 a_ra a_sl) a_ra a_sl (OnCross a_ra a_sl) := by
  refine ⟨by simp [diagonalLine1], fun t ht => ?_⟩
  simp only [OnCross, diagonalLine1]
  omega

theorem crosses_diagonalLine2 (a_ra a_sl : ℤ) :
    Crosses (diagonalLine2 a_ra a_sl) a_ra a_sl (OnStar a_ra a_sl) := by
  refine ⟨by simp [diagonalLine2], fun t ht => ?_⟩
  simp only [OnStar, OnCross, diagonalLine2]
  omega

theorem Crosses.fiveFrom_iff {lines : Pos → Prop} {used : Prop}
    (hline : Crosses line a_ra a_sl lines) (h : Moved z mem kdo a_ra a_sl)
    (hkept : Kept z mem mem' kdo a_ra a_sl lines used) {t : ℤ} (ht : -4 ≤ t) :
    FiveFrom z mem' kdo line t ↔ FiveFrom z mem kdo line t ∧ (t ≤ 0 → ¬ used) := by
  have hsub : kdo - 32 ≠ kdo := fun heq => h.sub_ne h.inside (h.last.trans heq.symm)
  have hoff : ∀ u, u ≠ 0 → z.Inside (line u) →
      mem' (z.addr (line u)) = mem (z.addr (line u)) :=
    fun u hu hinside => hkept.off _ hinside (hline.off u hu)
  constructor
  · intro hfive
    refine ⟨fun u hu hu' => ⟨(hfive u hu hu').1, ?_⟩, fun ht' hused => ?_⟩
    · by_cases hu₀ : u = 0
      · rw [hu₀, hline.center, h.last]
      · rw [← hoff u hu₀ (hfive u hu hu').1, (hfive u hu hu').2]
    · have hcell := (hfive 0 ht' (by omega)).2
      rw [hline.center, hkept.used hused] at hcell
      exact hsub hcell
  · rintro ⟨hfive, hused⟩ u hu hu'
    refine ⟨(hfive u hu hu').1, ?_⟩
    by_cases hu₀ : u = 0
    · rw [hu₀, hline.center, hkept.unused (hused (by omega))]
    · rw [hoff u hu₀ (hfive u hu hu').1, (hfive u hu hu').2]

theorem Crosses.found_iff {lines : Pos → Prop} {used : Prop} {i : ℤ} (hi : -4 ≤ i)
    (hline : Crosses line a_ra a_sl lines) (h : Moved z mem kdo a_ra a_sl)
    (hkept : Kept z mem mem' kdo a_ra a_sl lines used) :
    (∃ t, i ≤ t ∧ t ≤ 4 ∧ FiveFrom z mem' kdo line t) ↔ Found z mem kdo line i used := by
  refine exists_congr fun t => and_congr_right fun ht => and_congr_right fun _ => ?_
  exact hline.fiveFrom_iff h hkept (by omega)

theorem Crosses.stops_iff {lines : Pos → Prop} {used : Prop}
    (hline : Crosses line a_ra a_sl lines)
    (hkept : Kept z mem mem' kdo a_ra a_sl lines used) :
    Stops z mem' kdo line ↔ Stops z mem kdo line := by
  refine exists_congr fun t => and_congr_right fun ht => and_congr_right fun _ =>
    and_congr_right fun hinside => ?_
  rw [hkept.off _ (hinside t ht (Int.le_refl t)) (hline.off t (by omega))]

theorem firstOffset_bounds (hra : 0 ≤ a_ra) : -4 ≤ firstOffset a_ra ∧ firstOffset a_ra ≤ 0 := by
  unfold firstOffset
  split <;> omega

theorem rounds_eq (hra : 0 ≤ a_ra) (hsl : 0 ≤ a_sl)
    (h : z.Inside (diagonalLine1 a_ra a_sl (firstOffset a_ra))) :
    firstOffset a_ra + rounds a_ra a_sl = 5 := by
  obtain ⟨-, -, hcolumn, -⟩ := h
  simp only [diagonalLine1] at hcolumn
  unfold rounds
  unfold firstOffset at *
  split <;> split <;> split at hcolumn <;> omega

theorem Crosses.fiveLoop_inside {lines : Pos → Prop} {used : Prop} {s : Area} {i : ℤ} {n : ℕ}
    (hline : Crosses line a_ra a_sl lines) (hconv : z.Convex line)
    (h : Moved z mem kdo a_ra a_sl) (hkept : Kept z mem s.mem kdo a_ra a_sl lines used)
    (hi : -4 ≤ i) (hn : i + n = 5) (hi' : i ≤ 4) :
    (∀ p ∈ (fiveLoop z kdo line n i s).2.trace, z.Inside p) ↔
      (∀ p ∈ s.trace, z.Inside p) ∧ z.Inside (line i) ∧
        (Found z mem kdo line i used ∨ Stops z mem kdo line) := by
  rw [Piskvor.fiveLoop_inside hconv hi' hn, hline.found_iff hi h hkept, hline.stops_iff hkept]

theorem Crosses.fiveLoop_ne_zero_iff {lines : Pos → Prop} {used : Prop} {s : Area} {i : ℤ} {n : ℕ}
    (hline : Crosses line a_ra a_sl lines) (hsimple : z.Simple line)
    (h : Moved z mem kdo a_ra a_sl) (hkept : Kept z mem s.mem kdo a_ra a_sl lines used)
    (hi : -4 ≤ i) (hn : i + n = 5)
    (hinside : ∀ p ∈ (fiveLoop z kdo line n i s).2.trace, z.Inside p) :
    (fiveLoop z kdo line n i s).1 ≠ 0 ↔ Found z mem kdo line i used := by
  rw [← hline.found_iff hi h hkept]
  rcases fiveLoop_result_inside hsimple hn s hinside with
    ⟨hwin, -, hno⟩ | ⟨t, hwin, ht, ht', hfive, -⟩
  · exact ⟨fun hne => absurd hwin hne, fun hfound => absurd hfound hno⟩
  · exact ⟨fun _ => ⟨t, ht, ht', hfive⟩, fun _ => by omega⟩

/-- The first diagonal uses the last move if and only if there are five marks on it. -/
theorem diagonalScan1_kept (h : Moved z mem kdo a_ra a_sl) {s : Area} {used : Prop}
    (hkept : Kept z mem s.mem kdo a_ra a_sl (OnCross a_ra a_sl) used)
    (hn : firstOffset a_ra + rounds a_ra a_sl = 5)
    (hinside : ∀ p ∈ (diagonalScan1 z a_ra a_sl kdo s).2.trace, z.Inside p) :
    Kept z mem (diagonalScan1 z a_ra a_sl kdo s).2.mem kdo a_ra a_sl (OnStar a_ra a_sl)
      (used ∨ DiagonalFive z mem kdo (diagonalLine1 a_ra a_sl)) := by
  have hra : 0 ≤ a_ra := h.inside.1
  have hbounds := firstOffset_bounds hra
  have hcross := crosses_diagonalLine1 a_ra a_sl
  have hoffset : ∀ t, -4 ≤ t → t ≤ 0 →
      FiveFrom z mem kdo (diagonalLine1 a_ra a_sl) t → firstOffset a_ra ≤ t := by
    intro t ht ht' hfive
    have hrow := (hfive t (Int.le_refl t) (by omega)).1.1
    exact (firstOffset_le h.inside.1 h.inside.2.2.1 ht ht' hrow).1
  have hfive_iff : ∀ t, -4 ≤ t → (FiveFrom z s.mem kdo (diagonalLine1 a_ra a_sl) t ↔
      FiveFrom z mem kdo (diagonalLine1 a_ra a_sl) t ∧ (t ≤ 0 → ¬ used)) :=
    fun t ht => hcross.fiveFrom_iff h hkept ht
  rcases fiveLoop_result_inside (simple_diagonalLine1 a_ra a_sl) hn s hinside with
    ⟨-, hmem, hno⟩ | ⟨t, -, ht, ht', hfive, hfirst, hmarked⟩
  · -- nothing found: five marks on the diagonal include a used move
    rw [show (diagonalScan1 z a_ra a_sl kdo s).2.mem = s.mem from hmem]
    apply hkept.extend (fun p hp hline => hkept.off p hp fun hcr => hline (Or.inl hcr)) rfl
    rintro ⟨t, ht, ht', hfive⟩
    by_contra hused
    exact hno ⟨t, hoffset t ht ht' hfive, by omega, (hfive_iff t ht).mpr ⟨hfive, fun _ => hused⟩⟩
  · obtain ⟨hfive', hunused⟩ := (hfive_iff t (by omega)).mp hfive
    have hoff : ∀ p, z.Inside p → ¬ OnStar a_ra a_sl p →
        (diagonalScan1 z a_ra a_sl kdo s).2.mem (z.addr p) = mem (z.addr p) := by
      intro p hp hline
      refine (hmarked.off hfive hp fun u _ _ heq => hline (Or.inr ?_)).trans
        (hkept.off p hp fun hcr => hline (Or.inl hcr))
      rw [heq]
      simp only [diagonalLine1]
      omega
    by_cases ht₀ : t ≤ 0
    · have hcell := hmarked.cell 0 ht₀ (by push_cast; omega)
      rw [hcross.center, hkept.unused (hunused ht₀)] at hcell
      have hdiag : DiagonalFive z mem kdo (diagonalLine1 a_ra a_sl) :=
        ⟨t, by omega, ht₀, hfive'⟩
      exact ⟨hoff, fun hno => absurd (Or.inr hdiag) hno, fun _ => hcell⟩
    · have hcell : (diagonalScan1 z a_ra a_sl kdo s).2.mem (z.addr (a_ra, a_sl)) =
          s.mem (z.addr (a_ra, a_sl)) := by
        refine hmarked.off hfive h.inside fun u hu _ heq => ?_
        simp only [diagonalLine1, Prod.mk.injEq] at heq
        omega
      apply hkept.extend hoff hcell
      rintro ⟨u, hu, hu', hufive⟩
      by_contra hused
      exact hfirst u (hoffset u hu hu' hufive) (by omega)
        ((hfive_iff u hu).mpr ⟨hufive, fun _ => hused⟩)

theorem subset_trace_fiveLoop {i : ℤ} {n : ℕ} {s : Area}
    (h : ∀ p ∈ (fiveLoop z kdo line n i s).2.trace, z.Inside p) : ∀ p ∈ s.trace, z.Inside p :=
  fun p hp => h p ((mem_trace_fiveLoop n i s p).mpr (Or.inl hp))

theorem inside_first_of_trace {i : ℤ} {n : ℕ} {s : Area} (hn : 0 < n)
    (h : ∀ p ∈ (fiveLoop z kdo line n i s).2.trace, z.Inside p) : z.Inside (line i) := by
  refine h _ ((mem_trace_fiveLoop n i s _).mpr (Or.inr ⟨i, i, ?_, ?_, rfl⟩))
  · exact ⟨Int.le_refl i, by omega, fun u _ _ => by omega⟩
  · exact ⟨Int.le_refl i, by omega, fun v _ _ => by omega⟩

theorem rounds_pos (hra : 0 ≤ a_ra) (hsl : 0 ≤ a_sl) : 0 < rounds a_ra a_sl := by
  unfold rounds firstOffset
  split <;> split <;> omega

end Steps

section Stages

variable {z : Size} {mem : ℤ → Byte} {kdo : Byte} {a_ra a_sl : ℤ} {s : Area}

theorem straight_inside (h : Moved z s.mem kdo a_ra a_sl) :
    (∀ p ∈ (columnScan z a_ra a_sl (rowScan z a_ra a_sl s).2).2.trace, z.Inside p) ↔
      (∀ p ∈ s.trace, z.Inside p) ∧ (a_sl + 4 < z.coll ∨ RowFive z s.mem kdo a_ra a_sl) ∧
        (a_ra + 4 < z.row ∨
          ColumnFive z s.mem kdo a_ra a_sl ∧ ¬ RowFive z s.mem kdo a_ra a_sl) := by
  constructor
  · intro hall
    have hall₁ := ((spans_columnLine h.inside).runScan_inside rfl).mp hall |>.1
    obtain ⟨htrace, hrow⟩ := (rowScan_inside h).mp hall₁
    exact ⟨htrace, hrow, ((columnScan_inside h (rowScan_kept h hrow).2).mp hall).2⟩
  · rintro ⟨htrace, hrow, hcolumn⟩
    exact (columnScan_inside h (rowScan_kept h hrow).2).mpr
      ⟨(rowScan_inside h).mpr ⟨htrace, hrow⟩, hcolumn⟩

theorem straight_kept (h : Moved z s.mem kdo a_ra a_sl)
    (hrow : a_sl + 4 < z.coll ∨ RowFive z s.mem kdo a_ra a_sl)
    (hcolumn : a_ra + 4 < z.row ∨
      ColumnFive z s.mem kdo a_ra a_sl ∧ ¬ RowFive z s.mem kdo a_ra a_sl) :
    ((rowScan z a_ra a_sl s).1 + (columnScan z a_ra a_sl (rowScan z a_ra a_sl s).2).1 ≠ 0 ↔
        RowFive z s.mem kdo a_ra a_sl ∨ ColumnFive z s.mem kdo a_ra a_sl) ∧
      Kept z s.mem (columnScan z a_ra a_sl (rowScan z a_ra a_sl s).2).2.mem kdo a_ra a_sl
        (OnCross a_ra a_sl) (RowFive z s.mem kdo a_ra a_sl ∨ ColumnFive z s.mem kdo a_ra a_sl) := by
  obtain ⟨hwin₁, hkept₁⟩ := rowScan_kept h hrow
  obtain ⟨hwin₂, hkept₂⟩ := columnScan_kept h hkept₁ hcolumn
  refine ⟨?_, hkept₂⟩
  rw [ne_eq, Nat.add_eq_zero_iff, not_and_or, ← ne_eq, ← ne_eq, hwin₁, hwin₂]
  tauto

theorem diagonals_inside (h : Moved z mem kdo a_ra a_sl) {used : Prop}
    (hkept : Kept z mem s.mem kdo a_ra a_sl (OnCross a_ra a_sl) used) :
    (∀ p ∈ (diagonalScan2 z a_ra a_sl kdo (diagonalScan1 z a_ra a_sl kdo s).2).2.trace,
        z.Inside p) ↔
      (∀ p ∈ s.trace, z.Inside p) ∧
        (z.Inside (diagonalLine1 a_ra a_sl (firstOffset a_ra)) ∧
          (Found z mem kdo (diagonalLine1 a_ra a_sl) (firstOffset a_ra) used ∨
            Stops z mem kdo (diagonalLine1 a_ra a_sl))) ∧
        z.Inside (diagonalLine2 a_ra a_sl (firstOffset a_ra)) ∧
          (Found z mem kdo (diagonalLine2 a_ra a_sl) (firstOffset a_ra)
              (used ∨ DiagonalFive z mem kdo (diagonalLine1 a_ra a_sl)) ∨
            Stops z mem kdo (diagonalLine2 a_ra a_sl)) := by
  have hra : 0 ≤ a_ra := h.inside.1
  have hsl : 0 ≤ a_sl := h.inside.2.2.1
  obtain ⟨hlo, hhi⟩ := firstOffset_bounds hra
  have hcross₁ := crosses_diagonalLine1 a_ra a_sl
  have hcross₂ := crosses_diagonalLine2 a_ra a_sl
  have hscan₁ := fun hn => hcross₁.fiveLoop_inside (n := rounds a_ra a_sl)
    (convex_diagonalLine1 a_ra a_sl) h hkept hlo hn (by omega)
  have hscan₂ := fun hn hall => hcross₂.fiveLoop_inside (n := rounds a_ra a_sl)
    (convex_diagonalLine2 a_ra a_sl) h (diagonalScan1_kept h hkept hn hall) hlo hn (by omega)
  constructor
  · intro hall
    have hall₁ := subset_trace_fiveLoop hall
    have hfirst := inside_first_of_trace (rounds_pos hra hsl) hall₁
    have hn := rounds_eq hra hsl hfirst
    obtain ⟨htrace, hdiag₁⟩ := (hscan₁ hn).mp hall₁
    exact ⟨htrace, hdiag₁, ((hscan₂ hn hall₁).mp hall).2⟩
  · rintro ⟨htrace, hdiag₁, hdiag₂⟩
    have hn := rounds_eq hra hsl hdiag₁.1
    have hall₁ := (hscan₁ hn).mpr ⟨htrace, hdiag₁⟩
    exact (hscan₂ hn hall₁).mpr ⟨hall₁, hdiag₂⟩

theorem diagonals_ne_zero_iff (h : Moved z mem kdo a_ra a_sl) {used : Prop}
    (hkept : Kept z mem s.mem kdo a_ra a_sl (OnCross a_ra a_sl) used)
    (hall : ∀ p ∈ (diagonalScan2 z a_ra a_sl kdo (diagonalScan1 z a_ra a_sl kdo s).2).2.trace,
      z.Inside p) :
    (diagonalScan1 z a_ra a_sl kdo s).1 +
        (diagonalScan2 z a_ra a_sl kdo (diagonalScan1 z a_ra a_sl kdo s).2).1 ≠ 0 ↔
      Found z mem kdo (diagonalLine1 a_ra a_sl) (firstOffset a_ra) used ∨
        Found z mem kdo (diagonalLine2 a_ra a_sl) (firstOffset a_ra)
          (used ∨ DiagonalFive z mem kdo (diagonalLine1 a_ra a_sl)) := by
  have hra : 0 ≤ a_ra := h.inside.1
  have hsl : 0 ≤ a_sl := h.inside.2.2.1
  have hlo := (firstOffset_bounds hra).1
  have hall₁ := subset_trace_fiveLoop hall
  have hn := rounds_eq hra hsl (inside_first_of_trace (rounds_pos hra hsl) hall₁)
  have hwin₁ := (crosses_diagonalLine1 a_ra a_sl).fiveLoop_ne_zero_iff
    (simple_diagonalLine1 a_ra a_sl) h hkept hlo hn hall₁
  have hwin₂ := (crosses_diagonalLine2 a_ra a_sl).fiveLoop_ne_zero_iff
    (simple_diagonalLine2 a_ra a_sl) h (diagonalScan1_kept h hkept hn hall₁) hlo hn hall
  rw [ne_eq, Nat.add_eq_zero_iff, not_and_or, ← ne_eq, ← ne_eq]
  exact or_congr hwin₁ hwin₂

end Stages

/-- `isWinner` accesses the board only and returns only true wins if and only if the condition on
the board holds. -/
theorem correct_iff_sound {z : Size} {mem : ℤ → Byte} {kdo : Byte} {a_ra a_sl : ℤ}
    (h : Moved z mem kdo a_ra a_sl) :
    Correct z mem kdo a_ra a_sl ↔ Sound z mem kdo a_ra a_sl := by
  have hwins : ∀ a b c d : ℕ, a + b + c + d ≠ 0 ↔ a + b ≠ 0 ∨ c + d ≠ 0 := by omega
  have hstraight := straight_inside (s := ⟨mem, []⟩) h
  simp only [Correct, isWinner, hwins]
  constructor
  · rintro ⟨hall, hwon⟩
    have hall₂ := subset_trace_fiveLoop (subset_trace_fiveLoop hall)
    obtain ⟨-, hrow, hcolumn⟩ := hstraight.mp hall₂
    obtain ⟨-, hkept⟩ := straight_kept (s := ⟨mem, []⟩) h hrow hcolumn
    obtain ⟨-, ⟨hin₁, hdiag₁⟩, hin₂, hdiag₂⟩ := (diagonals_inside h hkept).mp hall
    refine ⟨hrow, hcolumn, hin₁, hdiag₁, hin₂, hdiag₂, fun hfound => hwon (Or.inr ?_)⟩
    exact (diagonals_ne_zero_iff h hkept hall).mpr hfound
  · intro hsound
    have hall₂ := hstraight.mpr ⟨by simp, hsound.row, hsound.column⟩
    obtain ⟨hwin, hkept⟩ := straight_kept (s := ⟨mem, []⟩) h hsound.row hsound.column
    have hall := (diagonals_inside h hkept).mpr ⟨hall₂, ⟨hsound.inside1, hsound.diagonal1⟩,
      hsound.inside2, hsound.diagonal2⟩
    refine ⟨hall, ?_⟩
    rintro (hne | hne)
    · rw [won_iff]
      exact (hwin.mp hne).imp_right Or.inl
    · exact hsound.attached ((diagonals_ne_zero_iff h hkept hall).mp hne)

section Samples

/-- A board of 9 by 9 cells. -/
def middleSize : Size := ⟨9, 9, by decide, by decide, by decide, by decide⟩

/-- A cross in its middle. -/
def singleBoard (a : ℤ) : Byte := if a = 40 then cross else blank

theorem moved_singleBoard : Moved middleSize singleBoard cross 4 4 := by
  refine ⟨fun p _ => ?_, Or.inl rfl, by decide, rfl⟩
  unfold singleBoard
  split
  · exact Or.inr (Or.inl rfl)
  · exact Or.inl rfl

theorem not_fiveFrom_singleBoard {line : ℤ → Pos} (hline : middleSize.Simple line) (t : ℤ) :
    ¬ FiveFrom middleSize singleBoard cross line t := by
  have hcell : ∀ a, singleBoard a = cross → a = 40 := by
    intro a ha
    by_contra hne
    rw [singleBoard, if_neg hne] at ha
    exact absurd ha (by decide)
  intro h
  have h₀ := hcell _ (h t (Int.le_refl t) (by omega)).2
  have h₁ := hcell _ (h (t + 1) (by omega) (by omega)).2
  have := hline _ _ (h₀.trans h₁.symm)
  omega

theorem sound_singleBoard : Sound middleSize singleBoard cross 4 4 := by
  have hstop : ∀ line : ℤ → Pos, middleSize.Inside (line 4) →
      singleBoard (middleSize.addr (line 4)) ≠ cross → Stops middleSize singleBoard cross line := by
    intro line hinside hne
    refine ⟨4, by omega, by omega, fun u hu hu' => ?_, Or.inr hne⟩
    rwa [show u = 4 by omega]
  refine ⟨Or.inl (by decide), Or.inl (by decide), by decide,
    Or.inr (hstop _ (by decide) (by decide)), by decide,
    Or.inr (hstop _ (by decide) (by decide)), ?_⟩
  rintro (⟨t, -, -, h, -⟩ | ⟨t, -, -, h, -⟩)
  · exact absurd h (not_fiveFrom_singleBoard (simple_diagonalLine1 4 4) t)
  · exact absurd h (not_fiveFrom_singleBoard (simple_diagonalLine2 4 4) t)

theorem correct_singleBoard :
    Moved middleSize singleBoard cross 4 4 ∧ Correct middleSize singleBoard cross 4 4 :=
  ⟨moved_singleBoard, (correct_iff_sound moved_singleBoard).mpr sound_singleBoard⟩

/-- Four crosses at the end of the first row and one at the start of the second one. -/
def wrapBoard (a : ℤ) : Byte := if 1 ≤ a ∧ a ≤ 5 then cross else blank

theorem not_won_wrapBoard : ¬ Won smallSize wrapBoard cross 0 4 := by
  rw [won_iff]
  rintro (⟨t, ht, ht', h⟩ | ⟨t, ht, ht', h⟩ | ⟨t, ht, ht', h⟩ | ⟨t, ht, ht', h⟩)
  · obtain ⟨-, -, -, hlast⟩ := (h (t + 4) (by omega) (Int.le_refl _)).1
    obtain ⟨-, -, hfirst, -⟩ := (h t (Int.le_refl t) (by omega)).1
    simp only [rowLine, smallSize] at hlast hfirst
    push_cast at hlast
    obtain rfl : t = 0 := by omega
    exact absurd (h 0 (Int.le_refl 0) (by omega)).2 (by decide)
  · obtain ⟨hfirst, -, -, -⟩ := (h t (Int.le_refl t) (by omega)).1
    simp only [columnLine] at hfirst
    obtain rfl : t = 0 := by omega
    exact absurd (h 1 (by omega) (by omega)).2 (by decide)
  · obtain ⟨hfirst, -, -, -⟩ := (h t (Int.le_refl t) (by omega)).1
    simp only [diagonalLine1] at hfirst
    obtain rfl : t = 0 := by omega
    exact absurd (h 1 (by omega) (by omega)).1 (by decide)
  · obtain ⟨hfirst, -, -, -⟩ := (h t (Int.le_refl t) (by omega)).1
    simp only [diagonalLine2] at hfirst
    obtain rfl : t = 0 := by omega
    exact absurd (h 1 (by omega) (by omega)).2 (by decide)

theorem not_correct_wrapBoard :
    Moved smallSize wrapBoard cross 0 4 ∧ ¬ Correct smallSize wrapBoard cross 0 4 := by
  refine ⟨⟨fun p _ => ?_, Or.inl rfl, by decide, rfl⟩, fun h => not_won_wrapBoard (h.2 ?_)⟩
  · unfold wrapBoard
    split
    · exact Or.inr (Or.inl rfl)
    · exact Or.inl rfl
  · decide

end Samples

end CollectedSources.Piskvor
