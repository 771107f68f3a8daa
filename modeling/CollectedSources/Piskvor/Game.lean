import CollectedSources.Machine.Run
import CollectedSources.Piskvor.Winner
import Mathlib

/-! # A game of piskvor

The players enter their moves in turn until one of them wins or ends the game.
The coordinates of the last move are kept outside of `xoRead`, which sets them
for rejected moves too, and the turn is passed on in `isWinner`. What holds in
every state of a game before a win is shown for all sequences of inputs.
-/

namespace CollectedSources.Piskvor

open Machine

/-- The variables of `main` and the global ones. -/
structure Game where
  mem : ℤ → Byte
  zacinajici : Byte
  a_ra : ℤ
  a_sl : ℤ
  konec : ℕ

/-- What `scanf` reads for the column and for the row; nothing if it fails. -/
structure Attempt where
  sloupec : Option Byte
  radek : Option ℤ

def isalpha (c : Byte) : Prop := 0x41 ≤ c ∧ c ≤ 0x5a ∨ 0x61 ≤ c ∧ c ≤ 0x7a

instance (c : Byte) : Decidable (isalpha c) := inferInstanceAs (Decidable (_ ∨ _))

def toupper (c : Byte) : Byte := if 0x61 ≤ c ∧ c ≤ 0x7a then c - 0x20 else c

/-- A round of the loop of `xoRead`: the game is ended, the move is rejected with a message, or
the mark is placed. -/
inductive Outcome
  | quit
  | rejected (message : String) (g : Game)
  | placed (g : Game)

def xoRead (z : Size) (g : Game) (input : Attempt) : Outcome :=
  let sloupec := input.sloupec.getD blank
  if sloupec = 0x2a then .quit
  else if ¬ isalpha sloupec then
    .rejected "Souradnice musi byt pismeno(sloupec) a cislo(radek)" g
  else
    let radek := input.radek.getD 0x20 - 1
    let sl : ℤ := (toupper sloupec).toNat - 0x41
    let g := { g with a_sl := sl, a_ra := radek }
    if z.row ≤ radek ∨ z.coll ≤ sl then .rejected "mimo hranice tabulky" g
    else if sl < 0 ∨ radek < 0 then .rejected "mimo hranice tabulky" g
    else if g.mem (z.addr (radek, sl)) ≠ cross ∧ g.mem (z.addr (radek, sl)) ≠ nought then
      .placed { g with mem := Function.update g.mem (z.addr (radek, sl)) g.zacinajici }
    else .rejected "souradnice je obsazena" g

/-- The call of `isWinner` in `main` after a mark has been placed. -/
def judge (z : Size) (g : Game) : Game :=
  let (win, area, zacinajici) := isWinner z g.a_ra g.a_sl g.zacinajici ⟨g.mem, []⟩
  { g with mem := area.mem, zacinajici := zacinajici, konec := win }

/-- The loop of `main` on one input. -/
def step (z : Size) (g : Game) (input : Attempt) : Option Game :=
  if g.konec ≠ 0 then none
  else
    match xoRead z g input with
    | .quit => none
    | .rejected _ g' => some g'
    | .placed g' => some (judge z g')

/-- The start of a game in some memory. -/
def start (z : Size) (first : Byte) (mem : ℤ → Byte) : Game where
  mem a := if 0 ≤ a ∧ a < z.row * z.coll then blank else mem a
  zacinajici := first
  a_ra := 0
  a_sl := 0
  konec := 0

/-- The cells of the board. -/
def Size.board (z : Size) : Finset (ℕ × ℕ) := Finset.range z.row ×ˢ Finset.range z.coll

/-- The number of cells with a mark. -/
def Size.count (z : Size) (mem : ℤ → Byte) (v : Byte) : ℕ :=
  (z.board.filter fun p => mem (z.addr (p.1, p.2)) = v).card

/-- The numbers of marks differ by at most one, and the next player is not ahead. -/
def Balanced (z : Size) (g : Game) : Prop :=
  z.count g.mem g.zacinajici ≤ z.count g.mem (other g.zacinajici) ∧
    z.count g.mem (other g.zacinajici) ≤ z.count g.mem g.zacinajici + 1

/-- The last coordinates are those of a cell on the board that was free and has just got the mark
of the player. -/
structure Filled (z : Size) (g g' : Game) : Prop where
  inside : z.Inside (g'.a_ra, g'.a_sl)
  free : g.mem (z.addr (g'.a_ra, g'.a_sl)) ≠ cross ∧ g.mem (z.addr (g'.a_ra, g'.a_sl)) ≠ nought
  player : g'.zacinajici = g.zacinajici
  mem : g'.mem = Function.update g.mem (z.addr (g'.a_ra, g'.a_sl)) g'.zacinajici

/-- A rejected input changes no cell and does not pass the turn, and `isWinner` is called for the
cell that was filled. -/
def Fair (z : Size) (g : Game) (input : Attempt) : Prop :=
  match xoRead z g input with
  | .quit => True
  | .rejected _ g' => g'.mem = g.mem ∧ g'.zacinajici = g.zacinajici ∧ step z g input = some g'
  | .placed g' => Filled z g g' ∧ step z g input = some (judge z g')

/-- All cells with a mark hold the same mark later. -/
def Persist (z : Size) (mem mem' : ℤ → Byte) : Prop :=
  ∀ p, z.Inside p → mem (z.addr p) = cross ∨ mem (z.addr p) = nought →
    mem' (z.addr p) = mem (z.addr p)

section Moves

variable {z : Size} {g g' : Game} {input : Attempt}

theorem xoRead_spec (z : Size) (g : Game) (input : Attempt) :
    (xoRead z g input = .quit ∧ input.sloupec.getD blank = 0x2a) ∨
      (∃ message g', xoRead z g input = .rejected message g' ∧ g'.mem = g.mem ∧
        g'.zacinajici = g.zacinajici ∧ g'.konec = g.konec) ∨
      ∃ g', xoRead z g input = .placed g' ∧ Filled z g g' ∧ g'.konec = g.konec := by
  unfold xoRead
  dsimp only
  split_ifs with hstar halpha hrange hsign hfree
  · exact .inl ⟨rfl, hstar⟩
  · exact .inr (.inl ⟨_, _, rfl, rfl, rfl, rfl⟩)
  · exact .inr (.inl ⟨_, _, rfl, rfl, rfl, rfl⟩)
  · refine .inr (.inr ⟨_, rfl, ⟨?_, hfree, rfl, rfl⟩, rfl⟩)
    simp only [Size.Inside]
    omega
  · exact .inr (.inl ⟨_, _, rfl, rfl, rfl, rfl⟩)
  · exact .inr (.inl ⟨_, _, rfl, rfl, rfl, rfl⟩)

theorem xoRead_rejected {message : String} (h : xoRead z g input = .rejected message g') :
    g'.mem = g.mem ∧ g'.zacinajici = g.zacinajici ∧ g'.konec = g.konec := by
  rcases xoRead_spec z g input with ⟨hread, -⟩ | ⟨_, g₁, hread, hsame⟩ | ⟨g₁, hread, -⟩
  · rw [hread] at h
    cases h
  · rw [hread] at h
    cases h
    exact hsame
  · rw [hread] at h
    cases h

theorem xoRead_placed (h : xoRead z g input = .placed g') :
    Filled z g g' ∧ g'.konec = g.konec := by
  rcases xoRead_spec z g input with ⟨hread, -⟩ | ⟨_, g₁, hread, -⟩ | ⟨g₁, hread, hfilled⟩
  · rw [hread] at h
    cases h
  · rw [hread] at h
    cases h
  · rw [hread] at h
    cases h
    exact hfilled

end Moves

section Counts

variable {z : Size} {mem : ℤ → Byte} {v w : Byte} {p : Pos}

theorem inside_of_mem_board {q : ℕ × ℕ} (hq : q ∈ z.board) : z.Inside (q.1, q.2) := by
  rw [Size.board, Finset.mem_product, Finset.mem_range, Finset.mem_range] at hq
  simp only [Size.Inside]
  omega

theorem exists_mem_board (hp : z.Inside p) : ∃ q ∈ z.board, ((q.1 : ℤ), (q.2 : ℤ)) = p := by
  obtain ⟨h₁, h₂, h₃, h₄⟩ := hp
  refine ⟨(p.1.toNat, p.2.toNat), ?_, Prod.ext (by simp [h₁]) (by simp [h₃])⟩
  rw [Size.board, Finset.mem_product, Finset.mem_range, Finset.mem_range]
  omega

theorem count_update_same (hp : z.Inside p) (hv : mem (z.addr p) ≠ v) :
    z.count (Function.update mem (z.addr p) v) v = z.count mem v + 1 := by
  obtain ⟨q, hq, rfl⟩ := exists_mem_board hp
  have hfilter : (z.board.filter fun r =>
      Function.update mem (z.addr (q.1, q.2)) v (z.addr (r.1, r.2)) = v) =
      insert q (z.board.filter fun r => mem (z.addr (r.1, r.2)) = v) := by
    ext r
    rw [Finset.mem_insert, Finset.mem_filter, Finset.mem_filter]
    by_cases hr : r = q
    · subst hr
      simp [hq]
    · have hne : r ∈ z.board → z.addr (r.1, r.2) ≠ z.addr (q.1, q.2) := by
        intro hmem heq
        have h := Size.addr_injective (inside_of_mem_board hmem) hp heq
        simp only [Prod.mk.injEq, Nat.cast_inj] at h
        exact hr (Prod.ext h.1 h.2)
      constructor
      · rintro ⟨hmem, hcell⟩
        rw [Function.update_of_ne (hne hmem)] at hcell
        exact Or.inr ⟨hmem, hcell⟩
      · rintro (rfl | ⟨hmem, hcell⟩)
        · exact absurd rfl hr
        · exact ⟨hmem, by rwa [Function.update_of_ne (hne hmem)]⟩
  rw [Size.count, hfilter, Finset.card_insert_of_notMem]
  · rfl
  · rw [Finset.mem_filter]
    exact fun h => hv h.2

theorem count_update_other (hvw : v ≠ w) (hw : mem (z.addr p) ≠ w) :
    z.count (Function.update mem (z.addr p) v) w = z.count mem w := by
  unfold Size.count
  congr 1
  apply Finset.filter_congr
  intro r _
  by_cases hr : z.addr (r.1, r.2) = z.addr p
  · rw [hr, Function.update_self]
    exact iff_of_false hvw hw
  · rw [Function.update_of_ne hr]

end Counts

section Invariant

variable {z : Size} {g g' : Game} {input : Attempt}

/-- What holds before a win: the marks are balanced, and it is the turn of a player. -/
structure Playing (z : Size) (g : Game) : Prop where
  balanced : Balanced z g
  player : g.zacinajici = cross ∨ g.zacinajici = nought

/-- A game that goes on after the call of `isWinner` has the same marks and the turn is passed. -/
theorem judge_mem (hinside : z.Inside (g.a_ra, g.a_sl)) (h : (judge z g).konec = 0) :
    (judge z g).mem = g.mem := by
  have hra : 0 ≤ g.a_ra := hinside.1
  have hsl : 0 ≤ g.a_sl := hinside.2.2.1
  rcases isWinner_result z g.zacinajici hra hsl ⟨g.mem, []⟩ with
    ⟨-, hmem, -⟩ | hwin
  · exact hmem
  · have hkonec : (isWinner z g.a_ra g.a_sl g.zacinajici ⟨g.mem, []⟩).1 = 0 := h
    omega

theorem Filled.playing (hfilled : Filled z g g') (h : Playing z g)
    (hkonec : (judge z g').konec = 0) : Playing z (judge z g') := by
  have hmem := judge_mem hfilled.inside hkonec
  have hturn : (judge z g').zacinajici = other g.zacinajici := by
    rw [← hfilled.player]
    rfl
  obtain ⟨hfree, hfree'⟩ := hfilled.free
  obtain ⟨hle, hle'⟩ := h.balanced
  refine ⟨?_, ?_⟩
  · have hplayers : g.zacinajici ≠ other g.zacinajici ∧
        other (other g.zacinajici) = g.zacinajici ∧
        g.mem (z.addr (g'.a_ra, g'.a_sl)) ≠ g.zacinajici ∧
        g.mem (z.addr (g'.a_ra, g'.a_sl)) ≠ other g.zacinajici := by
      rcases h.player with hp | hp
      · rw [hp]
        exact ⟨by decide, by decide, hfree, hfree'⟩
      · rw [hp]
        exact ⟨by decide, by decide, hfree', hfree⟩
    obtain ⟨hne, hother, hv, hw⟩ := hplayers
    unfold Balanced
    rw [hmem, hturn, hother, hfilled.mem, hfilled.player, count_update_same hfilled.inside hv,
      count_update_other hne hw]
    omega
  · rw [hturn]
    unfold other
    split
    · exact Or.inr rfl
    · exact Or.inl rfl

theorem step_cases (h : step z g input = some g') :
    g.konec = 0 ∧ ((∃ message, xoRead z g input = .rejected message g') ∨
      ∃ g₁, xoRead z g input = .placed g₁ ∧ g' = judge z g₁) := by
  unfold step at h
  split at h
  · cases h
  · refine ⟨by omega, ?_⟩
    split at h
    · cases h
    · rename_i message g₁ hread
      cases h
      exact Or.inl ⟨message, hread⟩
    · rename_i g₁ hread
      cases h
      exact Or.inr ⟨g₁, hread, rfl⟩

theorem Playing.step (h : Playing z g) (hstep : step z g input = some g') (hkonec : g'.konec = 0) :
    Playing z g' := by
  obtain ⟨-, ⟨message, hread⟩ | ⟨g₁, hread, rfl⟩⟩ := step_cases hstep
  · obtain ⟨hmem, hturn, -⟩ := xoRead_rejected hread
    obtain ⟨hbalanced, hplayer⟩ := h
    unfold Balanced at hbalanced
    rw [← hmem, ← hturn] at hbalanced
    rw [← hturn] at hplayer
    exact ⟨hbalanced, hplayer⟩
  · exact (xoRead_placed hread).1.playing h hkonec

theorem step_persist (hstep : step z g input = some g') (hkonec : g'.konec = 0) :
    Persist z g.mem g'.mem := by
  obtain ⟨-, ⟨message, hread⟩ | ⟨g₁, hread, rfl⟩⟩ := step_cases hstep
  · rw [(xoRead_rejected hread).1]
    exact fun p _ _ => rfl
  · have hfilled := (xoRead_placed hread).1
    rw [judge_mem hfilled.inside hkonec, hfilled.mem]
    intro p hp hmark
    apply Function.update_of_ne
    rintro heq
    rw [heq] at hmark
    exact hmark.elim hfilled.free.1 hfilled.free.2

theorem run_persist {inputs : List Attempt} (hrun : run (step z) g inputs = some g')
    (hkonec : g'.konec = 0) : Persist z g.mem g'.mem := by
  induction inputs generalizing g with
  | nil =>
    obtain rfl := Option.some.inj hrun
    exact fun p _ _ => rfl
  | cons input inputs ih =>
    obtain ⟨g₁, hstep, hrun⟩ := Option.bind_eq_some_iff.mp hrun
    have hkonec₁ : g₁.konec = 0 := by
      cases inputs with
      | nil =>
        obtain rfl := Option.some.inj hrun
        exact hkonec
      | cons input' inputs =>
        obtain ⟨g₂, hstep', -⟩ := Option.bind_eq_some_iff.mp hrun
        exact (step_cases hstep').1
    have hfirst := step_persist hstep hkonec₁
    have hrest := ih hrun
    intro p hp hmark
    have hkeep := hfirst p hp hmark
    rw [← hkeep] at hmark ⊢
    exact hrest p hp hmark

theorem fair_of_playing (hkonec : g.konec = 0) (input : Attempt) : Fair z g input := by
  unfold Fair
  cases hread : xoRead z g input with
  | quit => trivial
  | rejected message g' =>
    obtain ⟨hmem, hturn, -⟩ := xoRead_rejected hread
    refine ⟨hmem, hturn, ?_⟩
    simp [step, hkonec, hread]
  | placed g' =>
    refine ⟨(xoRead_placed hread).1, ?_⟩
    simp [step, hkonec, hread]

theorem playing_start {first : Byte} (hfirst : first = cross ∨ first = nought) (mem : ℤ → Byte) :
    Playing z (start z first mem) := by
  have hcount : ∀ v, v = cross ∨ v = nought → z.count (start z first mem).mem v = 0 := by
    intro v hv
    rw [Size.count, Finset.card_eq_zero, Finset.filter_eq_empty_iff]
    intro q hq
    obtain ⟨h₁, h₂, h₃, h₄⟩ := inside_of_mem_board hq
    have hblank : (start z first mem).mem (z.addr (q.1, q.2)) = blank := by
      refine if_pos ⟨?_, ?_⟩
      · unfold Size.addr
        positivity
      · unfold Size.addr
        dsimp only at *
        nlinarith
    rw [hblank]
    rcases hv with rfl | rfl <;> decide
  refine ⟨?_, hfirst⟩
  have hother : other first = cross ∨ other first = nought := by
    unfold other
    split
    · exact Or.inr rfl
    · exact Or.inl rfl
  have hturn : (start z first mem).zacinajici = first := rfl
  unfold Balanced
  rw [hturn, hcount _ hfirst, hcount _ hother]
  omega

end Invariant

/-- In every state of a game before a win the marks are balanced; rejected inputs change nothing,
`isWinner` is called for the cell that was filled, and no mark is changed. -/
theorem game_invariant (z : Size) {first : Byte} (hfirst : first = cross ∨ first = nought)
    (mem : ℤ → Byte) (inputs : List Attempt) :
    Along (step z) (fun g => g.konec = 0 → Balanced z g)
        (fun g input => g.konec = 0 → Fair z g input) (start z first mem) inputs ∧
      ∀ earlier later g g', run (step z) (start z first mem) earlier = some g →
        run (step z) g later = some g' → g'.konec = 0 → Persist z g.mem g'.mem := by
  refine ⟨?_, fun _ _ _ _ _ hrun hkonec => run_persist hrun hkonec⟩
  apply along_of_invariant (J := fun g => g.konec = 0 → Playing z g)
  · exact fun g hg hkonec => (hg hkonec).balanced
  · intro g input hg
    refine ⟨fun hkonec => fair_of_playing hkonec input, fun g' hstep hkonec => ?_⟩
    exact (hg (step_cases hstep).1).step hstep hkonec
  · exact fun _ => playing_start hfirst mem

/-- A move, the same cell again and an end of the input. -/
def sampleInputs : List Attempt := [⟨some 0x63, some 3⟩, ⟨some 0x43, some 3⟩, ⟨none, none⟩]

theorem game_invariant_sample :
    Along (step smallSize) (fun g => g.konec = 0 → Balanced smallSize g)
        (fun g input => g.konec = 0 → Fair smallSize g input)
        (start smallSize nought fun _ => 0) sampleInputs ∧
      ∀ earlier later g g', run (step smallSize) (start smallSize nought fun _ => 0) earlier =
          some g → run (step smallSize) g later = some g' → g'.konec = 0 →
        Persist smallSize g.mem g'.mem :=
  game_invariant smallSize (Or.inr rfl) (fun _ => 0) sampleInputs

end CollectedSources.Piskvor
