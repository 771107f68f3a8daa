import Mathlib

/-! # The graph of snd_fft

`show_graph` puts the same number of samples into each column. The number is rounded
down, so there can be more columns than the screen has.
-/

namespace CollectedSources.SndFft

/-- The members of `struct holder` that the graph reads, as `main` leaves them. The samples are
the values `samples[a] * height / max`. -/
structure Holder where
  samplesCount : ℕ
  width : ℕ
  height : ℕ
  samples : List ℕ
  samplesCount_lt : samplesCount < 2 ^ 32
  width_pos : 0 < width
  width_le : width ≤ samplesCount / 2
  height_pos : 0 < height
  height_lt : height < 2 ^ 31
  length_samples : samples.length = samplesCount / 2
  sample_le : ∀ sample ∈ samples, sample ≤ height

section Code

variable (h : Holder)

def Holder.usableCount : ℕ := h.samplesCount / 2

def Holder.sumN : ℕ := h.usableCount / h.width

/-- A difference of unsigned numbers. -/
def sub32 (a b : ℕ) : ℕ := (a + (2 ^ 32 - b)) % 2 ^ 32

/-- A call of `mvaddch`. -/
structure Call where
  row : ℕ
  col : ℕ
  ch : Char
  deriving DecidableEq

/-- A column: the largest sample in it and their mean. -/
structure Bar where
  col : ℕ
  max : ℕ
  mean : ℕ
  deriving DecidableEq

/-- The calls for the rows from `first` up to `last`. -/
def rows (first last col : ℕ) (ch : Char) : List Call :=
  (List.range' first (last - first)).map fun b => ⟨b, col, ch⟩

def Bar.draw (height : ℕ) (bar : Bar) : List Call :=
  rows (sub32 height bar.max) (sub32 height bar.mean) bar.col '|' ++
    rows (sub32 height bar.mean) height bar.col '*'

structure Plot where
  max : ℕ
  sum : ℕ
  idx : ℕ
  x : ℕ
  bars : List Bar

/-- One round of the loop over the samples. -/
def Plot.add (s : Plot) (sample : ℕ) : Plot :=
  let max := if sample > s.max then sample else s.max
  let sum := (s.sum + sample) % 2 ^ 32
  if s.idx + 1 = h.sumN then
    { max := 0, sum := 0, idx := 0, x := s.x + 1, bars := s.bars ++ [⟨s.x, max, sum / h.sumN⟩] }
  else { s with max := max, sum := sum, idx := s.idx + 1 }

def Plot.init : Plot := ⟨0, 0, 0, 0, []⟩

/-- The columns, in the order in which they are drawn. -/
def Holder.bars : List Bar := (h.samples.foldl (Plot.add h) Plot.init).bars

/-- All calls of `mvaddch`. -/
def Holder.showGraph : List Call := h.bars.flatMap (Bar.draw h.height)

end Code

section Columns

variable {h : Holder} {xs : List ℕ} {s : Plot} {y : ℕ}

theorem Holder.sumN_pos (h : Holder) : 0 < h.sumN := Nat.div_pos h.width_le h.width_pos

/-- All samples of a column are zero. -/
def Silent (n : ℕ) (xs : List ℕ) (col : ℕ) : Prop := ∀ a, a / n = col → xs.getD a 0 = 0

structure Bar.Valid (h : Holder) (xs : List ℕ) (bar : Bar) : Prop where
  mean_le : bar.mean ≤ bar.max
  max_le : bar.max ≤ h.height
  max_eq_zero : bar.max = 0 ↔ Silent h.sumN xs bar.col

/-- The state of the loop after some samples. -/
structure Plot.Inv (h : Holder) (xs : List ℕ) (s : Plot) : Prop where
  idx : s.idx = xs.length % h.sumN
  x : s.x = xs.length / h.sumN
  cols : s.bars.map Bar.col = List.range s.x
  sum_le : s.sum ≤ s.idx * s.max
  max_le : s.max ≤ h.height
  max_eq_zero : s.max = 0 ↔ Silent h.sumN xs s.x
  bars : ∀ bar ∈ s.bars, bar.Valid h xs

theorem getD_append_singleton (a : ℕ) :
    (xs ++ [y]).getD a 0 = if a = xs.length then y else xs.getD a 0 := by
  rcases lt_trichotomy a xs.length with ha | rfl | ha
  · rw [if_neg ha.ne, List.getD_append _ _ _ _ ha]
  · simp
  · rw [if_neg ha.ne', List.getD_eq_default _ _ (by simp; omega), List.getD_eq_default _ _ ha.le]

theorem silent_append {n col : ℕ} :
    Silent n (xs ++ [y]) col ↔ Silent n xs col ∧ (xs.length / n = col → y = 0) := by
  unfold Silent
  simp only [getD_append_singleton]
  constructor
  · intro hall
    refine ⟨fun a ha => ?_, fun hcol => by simpa using hall xs.length hcol⟩
    by_cases hlast : a = xs.length
    · rw [hlast]
      exact List.getD_eq_default _ _ le_rfl
    · simpa [hlast] using hall a ha
  · rintro ⟨hxs, hy⟩ a ha
    split_ifs with hlast
    · exact hy (hlast ▸ ha)
    · exact hxs a ha

theorem inv_init (h : Holder) : Plot.init.Inv h [] := by
  refine ⟨?_, ?_, rfl, le_rfl, Nat.zero_le _, ?_, ?_⟩
  · exact (Nat.zero_mod _).symm
  · exact (Nat.zero_div _).symm
  · exact ⟨fun _ a _ => List.getD_nil, fun _ => rfl⟩
  · intro bar hbar
    cases hbar

theorem sum_add_le (hsum : s.sum ≤ s.idx * s.max) :
    (s.sum + y) % 2 ^ 32 ≤ (s.idx + 1) * max y s.max := by
  have hle : s.idx * s.max ≤ s.idx * max y s.max := Nat.mul_le_mul_left _ (le_max_right y s.max)
  have hy := le_max_left y s.max
  have hmod := Nat.mod_le (s.sum + y) (2 ^ 32)
  rw [Nat.add_mul, Nat.one_mul]
  omega

theorem add_eq (h : Holder) (s : Plot) (y : ℕ) : s.add h y =
    if s.idx + 1 = h.sumN then
      ⟨0, 0, 0, s.x + 1, s.bars ++ [⟨s.x, max y s.max, (s.sum + y) % 2 ^ 32 / h.sumN⟩]⟩
    else ⟨max y s.max, (s.sum + y) % 2 ^ 32, s.idx + 1, s.x, s.bars⟩ := by
  have hmax : (if y > s.max then y else s.max) = max y s.max := by
    split_ifs <;> omega
  unfold Plot.add
  simp only [hmax]

theorem max_eq_zero_append (hinv : s.Inv h xs) :
    max y s.max = 0 ↔ Silent h.sumN (xs ++ [y]) s.x := by
  rw [silent_append, ← hinv.max_eq_zero, ← hinv.x]
  simp only [forall_const]
  omega

theorem bars_append (hinv : s.Inv h xs) : ∀ bar ∈ s.bars, bar.Valid h (xs ++ [y]) := by
  intro bar hbar
  obtain ⟨hmean, hle, hzero⟩ := hinv.bars bar hbar
  have hcol : bar.col ∈ s.bars.map Bar.col := List.mem_map_of_mem hbar
  rw [hinv.cols, List.mem_range, hinv.x] at hcol
  refine ⟨hmean, hle, ?_⟩
  rw [silent_append, hzero]
  exact ⟨fun hs => ⟨hs, fun heq => absurd heq hcol.ne'⟩, And.left⟩

theorem length_eq (hinv : s.Inv h xs) : xs.length = s.idx + h.sumN * s.x := by
  rw [hinv.idx, hinv.x]
  exact (Nat.mod_add_div _ _).symm

theorem inv_add_last (hinv : s.Inv h xs) (hy : y ≤ h.height) (hfull : s.idx + 1 = h.sumN) :
    (s.add h y).Inv h (xs ++ [y]) := by
  have hlength : (xs ++ [y]).length = h.sumN * (s.x + 1) := by
    rw [List.length_append, length_eq hinv, List.length_singleton, Nat.mul_add, Nat.mul_one]
    omega
  have hx : (xs ++ [y]).length / h.sumN = s.x + 1 := by
    rw [hlength, Nat.mul_div_cancel_left _ h.sumN_pos]
  rw [add_eq, if_pos hfull]
  refine ⟨?_, hx.symm, ?_, Nat.zero_le _, Nat.zero_le _, ⟨fun _ a ha => ?_, fun _ => rfl⟩, ?_⟩
  · rw [hlength, Nat.mul_mod_right]
  · rw [List.map_append, hinv.cols, List.range_succ]
    rfl
  · have ha : a / h.sumN = s.x + 1 := ha
    apply List.getD_eq_default
    rw [hlength, ← ha]
    exact Nat.mul_div_le a h.sumN
  · intro bar hbar
    rcases List.mem_append.mp hbar with hbar | hbar
    · exact bars_append hinv bar hbar
    · obtain rfl := List.mem_singleton.mp hbar
      have hsum := @sum_add_le s y hinv.sum_le
      rw [hfull] at hsum
      exact ⟨Nat.div_le_of_le_mul hsum, max_le hy hinv.max_le, max_eq_zero_append hinv⟩

theorem inv_add_inner (hinv : s.Inv h xs) (hy : y ≤ h.height) (hfull : s.idx + 1 ≠ h.sumN) :
    (s.add h y).Inv h (xs ++ [y]) := by
  have hpos := h.sumN_pos
  have hlt : s.idx + 1 < h.sumN := by
    have := Nat.mod_lt xs.length hpos
    rw [← hinv.idx] at this
    omega
  have hlength : (xs ++ [y]).length = s.idx + 1 + h.sumN * s.x := by
    rw [List.length_append, length_eq hinv, List.length_singleton]
    omega
  have hbars : ∀ bar ∈ s.bars, bar.Valid h (xs ++ [y]) := bars_append hinv
  rw [add_eq, if_neg hfull]
  refine ⟨?_, ?_, hinv.cols, sum_add_le hinv.sum_le, max_le hy hinv.max_le,
    max_eq_zero_append hinv, hbars⟩
  · rw [hlength, Nat.add_mul_mod_self_left, Nat.mod_eq_of_lt hlt]
  · rw [hlength, Nat.add_mul_div_left _ _ hpos, Nat.div_eq_of_lt hlt, Nat.zero_add]

theorem inv_add (hinv : s.Inv h xs) (hy : y ≤ h.height) : (s.add h y).Inv h (xs ++ [y]) := by
  by_cases hfull : s.idx + 1 = h.sumN
  · exact inv_add_last hinv hy hfull
  · exact inv_add_inner hinv hy hfull

theorem inv_foldl (hxs : ∀ y ∈ xs, y ≤ h.height) :
    (xs.foldl (Plot.add h) Plot.init).Inv h xs := by
  induction xs using List.reverseRecOn with
  | nil => exact inv_init h
  | append_singleton xs y ih =>
    rw [List.foldl_append]
    exact inv_add (ih fun z hz => hxs z (List.mem_append_left _ hz)) (hxs y (by simp))

end Columns

section Screen

variable {h : Holder} {bar : Bar} {c : Call}

theorem bars_valid (h : Holder) : ∀ bar ∈ h.bars, bar.Valid h h.samples :=
  (inv_foldl h.sample_le).bars

theorem map_col_bars (h : Holder) :
    h.bars.map Bar.col = List.range (h.usableCount / h.sumN) := by
  have hinv := inv_foldl h.sample_le
  unfold Holder.bars
  rw [hinv.cols, hinv.x, h.length_samples]
  rfl

theorem width_le_bars (h : Holder) : h.width ≤ h.usableCount / h.sumN := by
  rw [Nat.le_div_iff_mul_le h.sumN_pos]
  exact Nat.mul_div_le _ _

theorem sub32_eq {a b : ℕ} (hb : b ≤ a) (ha : a < 2 ^ 31) : sub32 a b = a - b := by
  unfold sub32
  omega

theorem mem_rows {first last col : ℕ} {ch : Char} :
    c ∈ rows first last col ch ↔ first ≤ c.row ∧ c.row < last ∧ c.col = col ∧ c.ch = ch := by
  unfold rows
  rw [List.mem_map]
  constructor
  · rintro ⟨b, hb, rfl⟩
    obtain ⟨hfirst, hlast⟩ := List.mem_range'_1.mp hb
    exact ⟨hfirst, by simp only; omega, rfl, rfl⟩
  · rintro ⟨hfirst, hlast, rfl, rfl⟩
    exact ⟨c.row, List.mem_range'_1.mpr ⟨hfirst, by omega⟩, rfl⟩

theorem mem_draw (hbar : bar.Valid h h.samples) : c ∈ bar.draw h.height ↔
    h.height - bar.max ≤ c.row ∧ c.row < h.height ∧ c.col = bar.col ∧
      c.ch = if c.row < h.height - bar.mean then '|' else '*' := by
  have hmean := hbar.mean_le
  have hmax := hbar.max_le
  unfold Bar.draw
  rw [List.mem_append, mem_rows, mem_rows, sub32_eq hmax h.height_lt,
    sub32_eq (hmean.trans hmax) h.height_lt]
  by_cases hrow : c.row < h.height - bar.mean
  · rw [if_pos hrow]
    constructor
    · rintro (⟨hfirst, hlast, hcol, hch⟩ | ⟨hfirst, -⟩)
      · exact ⟨hfirst, by omega, hcol, hch⟩
      · omega
    · rintro ⟨hfirst, -, hcol, hch⟩
      exact .inl ⟨hfirst, hrow, hcol, hch⟩
  · rw [if_neg hrow]
    constructor
    · rintro (⟨-, hlast, -⟩ | ⟨hfirst, hlast, hcol, hch⟩)
      · exact absurd hlast hrow
      · exact ⟨by omega, hlast, hcol, hch⟩
    · rintro ⟨-, hlast, hcol, hch⟩
      exact .inr ⟨by omega, hlast, hcol, hch⟩

theorem nodup_draw_rows (hbar : bar.Valid h h.samples) :
    ((bar.draw h.height).map Call.row).Nodup := by
  have hmean := hbar.mean_le
  have hmax := hbar.max_le
  have hrows (first last : ℕ) (ch : Char) :
      (rows first last bar.col ch).map Call.row = List.range' first (last - first) := by
    unfold rows
    rw [List.map_map]
    exact List.map_id _
  unfold Bar.draw
  rw [List.map_append, hrows, hrows, sub32_eq hmax h.height_lt,
    sub32_eq (hmean.trans hmax) h.height_lt, List.nodup_append]
  refine ⟨List.nodup_range', List.nodup_range', ?_⟩
  intro a ha b hb hab
  rw [List.mem_range'_1] at ha hb
  omega

/-- The graph is inside of the screen, each of whose columns is drawn once. -/
structure DrawsInside (h : Holder) : Prop where
  row_lt : ∀ c ∈ h.showGraph, c.row < h.height
  col_lt : ∀ c ∈ h.showGraph, c.col < h.width
  columns : (h.bars.map Bar.col).filter (· < h.width) = List.range h.width
  mean_le : ∀ bar ∈ h.bars, bar.mean ≤ bar.max
  apart : ∀ bar ∈ h.bars, ((bar.draw h.height).map Call.row).Nodup

/-- The samples that are left over for columns outside of the screen. -/
def Holder.SilentBeyond (h : Holder) : Prop :=
  ∀ a, h.width ≤ a / h.sumN → a / h.sumN < h.usableCount / h.sumN → h.samples.getD a 0 = 0

theorem col_lt_iff (h : Holder) :
    (∀ c ∈ h.showGraph, c.col < h.width) ↔ h.SilentBeyond := by
  unfold Holder.showGraph Holder.SilentBeyond
  simp only [List.mem_flatMap]
  constructor
  · intro hcalls a hwidth hlast
    have hcol : a / h.sumN ∈ h.bars.map Bar.col := by
      rw [map_col_bars]
      exact List.mem_range.mpr hlast
    obtain ⟨bar, hbar, hcol⟩ := List.mem_map.mp hcol
    have hvalid := bars_valid h bar hbar
    by_contra hne
    have hmax : bar.max ≠ 0 := fun hzero => hne (hvalid.max_eq_zero.mp hzero a hcol.symm)
    have hrow : h.height - bar.max < h.height :=
      Nat.sub_lt h.height_pos (Nat.pos_of_ne_zero hmax)
    have hmem : (⟨h.height - bar.max, bar.col,
        if h.height - bar.max < h.height - bar.mean then '|' else '*'⟩ : Call) ∈
        bar.draw h.height := (mem_draw hvalid).mpr ⟨le_rfl, hrow, rfl, rfl⟩
    have hlt : bar.col < h.width := hcalls _ ⟨bar, hbar, hmem⟩
    omega
  · rintro hsilent c ⟨bar, hbar, hc⟩
    have hvalid := bars_valid h bar hbar
    obtain ⟨hfirst, hlast, hcol, -⟩ := (mem_draw hvalid).mp hc
    by_contra hwidth
    have hmem : bar.col ∈ h.bars.map Bar.col := List.mem_map_of_mem hbar
    rw [map_col_bars, List.mem_range] at hmem
    have hzero : bar.max = 0 := by
      rw [hvalid.max_eq_zero]
      intro a ha
      exact hsilent a (by omega) (by omega)
    omega

/-- The graph is inside of the screen exactly when nothing sounds in the columns beyond it. -/
theorem drawsInside_iff (h : Holder) : DrawsInside h ↔ h.SilentBeyond := by
  refine ⟨fun hdraws => (col_lt_iff h).mp hdraws.col_lt, fun hsilent => ?_⟩
  refine ⟨?_, (col_lt_iff h).mpr hsilent, ?_, ?_, ?_⟩
  · intro c hc
    obtain ⟨bar, hbar, hc⟩ := List.mem_flatMap.mp hc
    exact ((mem_draw (bars_valid h bar hbar)).mp hc).2.1
  · obtain ⟨extra, hextra⟩ := Nat.exists_eq_add_of_le (width_le_bars h)
    rw [map_col_bars, hextra, List.range_add, List.filter_append, List.filter_eq_self.mpr,
      List.filter_eq_nil_iff.mpr, List.append_nil]
    · simp
    · simp
  · exact fun bar hbar => (bars_valid h bar hbar).mean_le
  · exact fun bar hbar => nodup_draw_rows (bars_valid h bar hbar)

/-- Three samples on two columns. -/
def threeSamples : Holder where
  samplesCount := 6
  width := 2
  height := 1
  samples := [1, 1, 1]
  samplesCount_lt := by decide
  width_pos := Nat.zero_lt_two
  width_le := by decide
  height_pos := Nat.one_pos
  height_lt := by decide
  length_samples := rfl
  sample_le := by decide

theorem threeSamples_outside :
    ⟨0, 2, '*'⟩ ∈ threeSamples.showGraph ∧ ¬ DrawsInside threeSamples :=
  ⟨by decide, fun h => absurd (h.col_lt ⟨0, 2, '*'⟩ (by decide)) (by decide)⟩

end Screen

end CollectedSources.SndFft
