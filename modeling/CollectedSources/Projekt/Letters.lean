import CollectedSources.Machine.Run
import Mathlib

/-! # The letters of projekt

The letters of a name are moved one by one until they spell another name. Each
swap of two letters takes two moves, and between them both letters have the same
position. The next letter is looked up by its position at the end of a swap,
before the position of the second letter is set.
-/

namespace CollectedSources.Projekt

open Machine

abbrev Byte := BitVec 8

structure Letter (n : ℕ) where
  ch : Byte
  pos : Fin n
  dpos : Fin n

/-- The flags `PROJ_DIR_1ST` and `PROJ_DIR_2ND`, and neither of them. -/
inductive Phase
  | first
  | second
  | done
  deriving DecidableEq, Repr

/-- The fields of `proj_sc` that the moves depend on; `mvNow` is none for `~0`. -/
structure Scene (n : ℕ) where
  mvname : Fin n → Byte
  letinfo : Fin n → Letter n
  mvNow : Option (Fin n)
  phase : Phase

section Code

variable {n : ℕ}

/-- `proj_1st_diff`: the loop stops behind the first difference, and if it is at the end of the
string then, the result is -1. -/
def firstDiff (mvname d : Fin n → Byte) : Option (Fin n) :=
  (Fin.find? fun c => mvname c ≠ d c).filter fun c => c.val + 1 < n

/-- `proj_dest`; none is the end of the string. -/
def dest (mvname d : Fin n → Byte) (source : Fin n) : Option (Fin n) :=
  Fin.find? fun c => mvname c = d source ∧ d c ≠ mvname c

/-- `proj_postolet`; none is an index behind all letters. -/
def postolet (letinfo : Fin n → Letter n) (pos : Fin n) : Option (Fin n) :=
  Fin.find? fun a => (letinfo a).pos = pos

def setDpos (letinfo : Fin n → Letter n) (a dpos : Fin n) : Fin n → Letter n :=
  Function.update letinfo a { letinfo a with dpos }

/-- The assignment `li->pos = li->dpos`. -/
def setPos (letinfo : Fin n → Letter n) (a : Fin n) : Fin n → Letter n :=
  Function.update letinfo a { letinfo a with pos := (letinfo a).dpos }

/-- A move of the letter `mv_now` with all steps of the animation, up to the call of
`proj_decide_let`. A letter that is where it should go never arrives. -/
def decideLet (d : Fin n → Byte) (s : Scene n) : Option (Scene n) :=
  s.mvNow.bind fun now =>
    let li := s.letinfo now
    if li.pos = li.dpos then none
    else
      let mvname := Function.update s.mvname li.dpos li.ch
      match s.phase with
      | .done => none
      | .first =>
        (postolet s.letinfo li.dpos).map fun next =>
          { mvname, letinfo := setPos (setDpos s.letinfo next li.pos) now, mvNow := some next,
            phase := .second }
      | .second =>
        match firstDiff mvname d with
        | none => some { s with mvname, letinfo := setPos s.letinfo now, phase := .done }
        | some diff =>
          (postolet s.letinfo diff).bind fun next => (dest mvname d diff).map fun q =>
            { mvname, letinfo := setPos (setDpos s.letinfo next q) now, mvNow := some next,
              phase := .first }

/-- The scene when `proj_timer` has chosen the first letter. Without a difference `mv_now` stays
`~0`, and the write to `letinfo[mv_now].dpos` is outside of `letinfo`. -/
def start (name d : Fin n → Byte) : Option (Scene n) :=
  let letinfo a : Letter n := ⟨name a, a, ⟨0, Nat.zero_lt_of_lt a.isLt⟩⟩
  (firstDiff name d).bind fun now => (dest name d now).map fun q =>
    ⟨name, setDpos letinfo now q, some now, .first⟩

/-- The scene after a number of moves. -/
def moves (d : Fin n → Byte) (s : Scene n) (k : ℕ) : Option (Scene n) :=
  run (fun s (_ : Unit) => decideLet d s) s (List.replicate k ())

end Code

section Properties

variable {n : ℕ}

/-- The positions of the letters are a permutation, and the name has each letter at its
position. -/
structure Placed (s : Scene n) : Prop where
  bijective : Function.Bijective fun a => (s.letinfo a).pos
  name : ∀ a, s.mvname (s.letinfo a).pos = (s.letinfo a).ch

/-- The first letter is found, the name is reached, and all letters are in their places whenever a
swap is complete. -/
def Sorts (name d : Fin n → Byte) : Prop :=
  ∃ s₀, start name d = some s₀ ∧ (∃ k s, moves d s₀ k = some s ∧ s.mvname = d) ∧
    ∀ k s, moves d s₀ k = some s → s.phase ≠ .second → Placed s

/-- If the next difference after a swap is where the first letter was put, then the first letter
is found there and not the second one. -/
def LooksUp (d : Fin n → Byte) (s : Scene n) : Prop :=
  s.phase = .second → ∀ now, s.mvNow = some now →
    firstDiff (Function.update s.mvname (s.letinfo now).dpos (s.letinfo now).ch) d =
      some (s.letinfo now).pos → postolet s.letinfo (s.letinfo now).pos ≠ some now

end Properties

section Differences

variable {n : ℕ} {mv d : Fin n → Byte}

/-- Two names of the same letters. -/
def Rearranged (mv d : Fin n → Byte) : Prop := ∃ σ : Equiv.Perm (Fin n), d = mv ∘ σ

theorem Rearranged.exists_dest (h : Rearranged mv d) {p : Fin n} (hp : mv p ≠ d p) :
    ∃ c, mv c = d p ∧ d c ≠ mv c := by
  obtain ⟨σ, rfl⟩ := h
  by_contra hnone
  push Not at hnone
  have hsub : (Finset.univ.filter fun c => mv c = (mv ∘ σ) p) ⊆
      Finset.univ.filter fun c => (mv ∘ σ) c = (mv ∘ σ) p := by
    intro c hc
    rw [Finset.mem_filter] at hc ⊢
    exact ⟨hc.1, (hnone c hc.2).trans hc.2⟩
  have hcard : (Finset.univ.filter fun c => (mv ∘ σ) c = (mv ∘ σ) p).card =
      (Finset.univ.filter fun c => mv c = (mv ∘ σ) p).card := by
    apply Finset.card_bijective σ σ.bijective
    intro c
    simp
  have heq := Finset.eq_of_subset_of_card_le hsub (Nat.le_of_eq hcard)
  have hmem : p ∈ Finset.univ.filter fun c => mv c = (mv ∘ σ) p := by
    rw [heq]
    simp
  exact hp (Finset.mem_filter.mp hmem).2

theorem Rearranged.dest_isSome (h : Rearranged mv d) {p : Fin n} (hp : mv p ≠ d p) :
    ∃ c, dest mv d p = some c ∧ mv c = d p ∧ d c ≠ mv c := by
  obtain ⟨c, hc⟩ := h.exists_dest hp
  have hsome : (dest mv d p).isSome := Fin.isSome_find?_iff.mpr ⟨c, by simpa using hc⟩
  obtain ⟨c', hc'⟩ := Option.isSome_iff_exists.mp hsome
  have hfound := (Fin.find?_eq_some_iff.mp hc').1
  exact ⟨c', hc', by simpa using hfound⟩

theorem Rearranged.firstDiff_eq_some (h : Rearranged mv d) {p : Fin n} :
    firstDiff mv d = some p ↔ mv p ≠ d p ∧ ∀ c < p, mv c = d c := by
  have hfind : (Fin.find? fun c => mv c ≠ d c) = some p ↔ mv p ≠ d p ∧ ∀ c < p, mv c = d c := by
    rw [Fin.find?_eq_some_iff]
    simp
  rw [firstDiff, Option.filter_eq_some_iff, hfind]
  refine ⟨And.left, fun hp => ⟨hp, ?_⟩⟩
  -- a single difference at the end would leave the letter of the other name without a place
  obtain ⟨c, hc, hne⟩ := h.exists_dest hp.1
  have hle : ¬ c < p := fun hlt => hne (hp.2 c hlt).symm
  have hcp : c ≠ p := by
    rintro rfl
    exact hp.1 hc
  have := c.isLt
  simp only [decide_eq_true_eq]
  omega

theorem Rearranged.firstDiff_eq_none (h : Rearranged mv d) : firstDiff mv d = none ↔ mv = d := by
  constructor
  · intro hnone
    by_contra hne
    have hdiff : ∃ c, mv c ≠ d c := by
      by_contra hall
      push Not at hall
      exact hne (funext hall)
    obtain ⟨p, hp⟩ := Option.isSome_iff_exists.mp
      (Fin.isSome_find?_iff.mpr (hdiff.imp fun c hc => decide_eq_true hc))
    have hsome : firstDiff mv d = some p := by
      rw [h.firstDiff_eq_some]
      have := Fin.find?_eq_some_iff.mp hp
      simpa using this
    rw [hnone] at hsome
    cases hsome
  · rintro rfl
    simp [firstDiff]

end Differences

section Letters

variable {n : ℕ} (letinfo : Fin n → Letter n)

@[simp] theorem setDpos_self (a q : Fin n) :
    setDpos letinfo a q a = { letinfo a with dpos := q } := Function.update_self ..

theorem setDpos_of_ne {a b : Fin n} (h : b ≠ a) (q : Fin n) :
    setDpos letinfo a q b = letinfo b := Function.update_of_ne h ..

@[simp] theorem setPos_self (a : Fin n) :
    setPos letinfo a a = { letinfo a with pos := (letinfo a).dpos } := Function.update_self ..

theorem setPos_of_ne {a b : Fin n} (h : b ≠ a) : setPos letinfo a b = letinfo b :=
  Function.update_of_ne h ..

@[simp] theorem setDpos_pos (a q b : Fin n) : (setDpos letinfo a q b).pos = (letinfo b).pos := by
  by_cases h : b = a
  · rw [h, setDpos_self]
  · rw [setDpos_of_ne _ h]

@[simp] theorem setDpos_ch (a q b : Fin n) : (setDpos letinfo a q b).ch = (letinfo b).ch := by
  by_cases h : b = a
  · rw [h, setDpos_self]
  · rw [setDpos_of_ne _ h]

@[simp] theorem setPos_ch (a b : Fin n) : (setPos letinfo a b).ch = (letinfo b).ch := by
  by_cases h : b = a
  · rw [h, setPos_self]
  · rw [setPos_of_ne _ h]

end Letters

section Swaps

variable {n : ℕ} {d : Fin n → Byte} {s : Scene n} {now second p q : Fin n}

/-- A scene between two swaps: the letter at the first difference goes to a place where the letter
that belongs there is. -/
structure Ready (d : Fin n → Byte) (s : Scene n) (now p q : Fin n) : Prop where
  phase : s.phase = .first
  moving : s.mvNow = some now
  placed : Placed s
  rearranged : Rearranged s.mvname d
  pos : (s.letinfo now).pos = p
  dpos : (s.letinfo now).dpos = q
  diff : s.mvname p ≠ d p ∧ ∀ c < p, s.mvname c = d c
  dest : s.mvname q = d p ∧ d q ≠ s.mvname q

theorem Ready.ne (h : Ready d s now p q) : p ≠ q := by
  rintro rfl
  exact h.diff.1 h.dest.1

/-- The scene in the middle of a swap. -/
def halfway (s : Scene n) (now second p q : Fin n) : Scene n where
  mvname := Function.update s.mvname q (s.mvname p)
  letinfo := setPos (setDpos s.letinfo second p) now
  mvNow := some second
  phase := .second

theorem Ready.decideLet_eq (h : Ready d s now p q) :
    ∃ second, (s.letinfo second).pos = q ∧ second ≠ now ∧
      decideLet d s = some (halfway s now second p q) := by
  obtain ⟨b, hb⟩ := h.placed.bijective.surjective q
  dsimp only at hb
  have hfound : postolet s.letinfo q = some b := by
    refine Fin.find?_eq_some_iff.mpr ⟨decide_eq_true hb, fun c hc => decide_eq_false fun hpos => ?_⟩
    exact hc.ne (h.placed.bijective.injective (hpos.trans hb.symm))
  refine ⟨b, hb, ?_, ?_⟩
  · rintro rfl
    exact h.ne (h.pos.symm.trans hb)
  · have hch : (s.letinfo now).ch = s.mvname p := by
      rw [← h.placed.name now, h.pos]
    unfold decideLet
    rw [h.moving, Option.bind_some]
    dsimp only
    rw [h.pos, h.dpos, if_neg h.ne, h.phase]
    dsimp only
    rw [hfound, Option.map_some, hch]
    rfl

theorem halfway_letinfo (hdpos : (s.letinfo now).dpos = q) (hne : second ≠ now) (a : Fin n) :
    (halfway s now second p q).letinfo a =
      if a = now then { s.letinfo a with pos := q }
      else if a = second then { s.letinfo a with dpos := p } else s.letinfo a := by
  unfold halfway
  dsimp only
  by_cases ha : a = now
  · subst ha
    rw [setPos_self, setDpos_of_ne _ (Ne.symm hne), if_pos rfl]
    dsimp only
    rw [hdpos]
  · rw [setPos_of_ne _ ha, if_neg ha]
    by_cases ha' : a = second
    · subst ha'
      rw [setDpos_self, if_pos rfl]
    · rw [setDpos_of_ne _ ha', if_neg ha']

theorem update_update_eq_swap (f : Fin n → Byte) (p q : Fin n) :
    Function.update (Function.update f q (f p)) p (f q) = f ∘ Equiv.swap p q := by
  funext a
  rw [Function.comp_apply]
  by_cases hp : a = p
  · rw [hp, Function.update_self, Equiv.swap_apply_left]
  · rw [Function.update_of_ne hp]
    by_cases hq : a = q
    · rw [hq, Function.update_self, Equiv.swap_apply_right]
    · rw [Function.update_of_ne hq, Equiv.swap_apply_of_ne_of_ne hp hq]

theorem Placed.swap (h : Placed s) {letinfo : Fin n → Letter n} {mvNow : Option (Fin n)}
    {phase : Phase} (hpos : ∀ a, (letinfo a).pos = Equiv.swap p q (s.letinfo a).pos)
    (hch : ∀ a, (letinfo a).ch = (s.letinfo a).ch) :
    Placed ⟨s.mvname ∘ Equiv.swap p q, letinfo, mvNow, phase⟩ := by
  constructor
  · have heq : (fun a => (letinfo a).pos) = Equiv.swap p q ∘ fun a => (s.letinfo a).pos :=
      funext hpos
    dsimp only
    rw [heq]
    exact (Equiv.bijective _).comp h.bijective
  · intro a
    dsimp only
    rw [Function.comp_apply, hpos, Equiv.swap_apply_self, hch, h.name]

theorem Rearranged.swap {mv : Fin n → Byte} (h : Rearranged mv d) (p q : Fin n) :
    Rearranged (mv ∘ Equiv.swap p q) d := by
  obtain ⟨σ, rfl⟩ := h
  refine ⟨σ.trans (Equiv.swap p q), funext fun a => ?_⟩
  simp

/-- What holds in the middle of a swap. -/
structure Halfway (d : Fin n → Byte) (s : Scene n) (now second p q : Fin n) : Prop where
  ready : Ready d s now p q
  place : (s.letinfo second).pos = q
  ne : second ≠ now

theorem Halfway.pos (h : Halfway d s now second p q) (a : Fin n) :
    ((halfway s now second p q).letinfo a).pos =
      if a = now then q else (s.letinfo a).pos := by
  rw [halfway_letinfo h.ready.dpos h.ne]
  split
  · rfl
  · split <;> rfl

theorem Halfway.letinfo_second (h : Halfway d s now second p q) :
    (halfway s now second p q).letinfo second = { s.letinfo second with dpos := p } := by
  rw [halfway_letinfo h.ready.dpos h.ne, if_neg h.ne, if_pos rfl]

theorem Halfway.mvname (h : Halfway d s now second p q) :
    Function.update (halfway s now second p q).mvname p (s.letinfo second).ch =
      s.mvname ∘ Equiv.swap p q := by
  rw [← h.ready.placed.name second, h.place]
  exact update_update_eq_swap s.mvname p q

theorem Halfway.decideLet_eq (h : Halfway d s now second p q) :
    decideLet d (halfway s now second p q) =
      match firstDiff (s.mvname ∘ Equiv.swap p q) d with
      | none => some ⟨s.mvname ∘ Equiv.swap p q,
          setPos (halfway s now second p q).letinfo second, some second, .done⟩
      | some diff =>
        (postolet (halfway s now second p q).letinfo diff).bind fun next =>
          (dest (s.mvname ∘ Equiv.swap p q) d diff).map fun r =>
            ⟨s.mvname ∘ Equiv.swap p q,
              setPos (setDpos (halfway s now second p q).letinfo next r) second, some next,
              .first⟩ := by
  unfold decideLet
  rw [show (halfway s now second p q).mvNow = some second from rfl, Option.bind_some]
  dsimp only
  rw [h.letinfo_second]
  dsimp only
  rw [h.place, if_neg (Ne.symm h.ready.ne), h.mvname]
  rfl

theorem Halfway.looksUp_iff (h : Halfway d s now second p q) :
    LooksUp d (halfway s now second p q) ↔
      (firstDiff (s.mvname ∘ Equiv.swap p q) d = some q →
        postolet (halfway s now second p q).letinfo q ≠ some second) := by
  have hnow : (halfway s now second p q).mvNow = some second := rfl
  have hphase : (halfway s now second p q).phase = .second := rfl
  unfold LooksUp
  rw [hnow, hphase]
  simp only [forall_const, Option.some.injEq, forall_eq', h.letinfo_second, h.mvname, h.place]

theorem Halfway.firstDiff_ne (h : Halfway d s now second p q) {diff : Fin n}
    (hdiff : firstDiff (s.mvname ∘ Equiv.swap p q) d = some diff) : diff ≠ p := by
  rintro rfl
  refine ((h.ready.rearranged.swap diff q).firstDiff_eq_some.mp hdiff).1 ?_
  rw [Function.comp_apply, Equiv.swap_apply_left]
  exact h.ready.dest.1

theorem Halfway.exists_postolet (h : Halfway d s now second p q) {diff : Fin n} (hne : diff ≠ p) :
    ∃ next, postolet (halfway s now second p q).letinfo diff = some next := by
  obtain ⟨a, ha⟩ : ∃ a, ((halfway s now second p q).letinfo a).pos = diff := by
    obtain ⟨a, ha⟩ := h.ready.placed.bijective.surjective diff
    refine ⟨a, ?_⟩
    rw [h.pos, if_neg]
    · exact ha
    · rintro rfl
      exact hne (ha.symm.trans h.ready.pos)
  exact Option.isSome_iff_exists.mp (Fin.isSome_find?_iff.mpr ⟨a, decide_eq_true ha⟩)

theorem pos_of_postolet {letinfo : Fin n → Letter n} {pos a : Fin n}
    (h : postolet letinfo pos = some a) : (letinfo a).pos = pos := by
  simpa using (Fin.find?_eq_some_iff.mp h).1

theorem Halfway.swapped (h : Halfway d s now second p q) {letinfo : Fin n → Letter n}
    (hsecond : (letinfo second).pos = p)
    (hpos : ∀ a, a ≠ second → (letinfo a).pos = ((halfway s now second p q).letinfo a).pos)
    (a : Fin n) : (letinfo a).pos = Equiv.swap p q (s.letinfo a).pos := by
  by_cases ha : a = second
  · rw [ha, hsecond, h.place, Equiv.swap_apply_right]
  · rw [hpos a ha, h.pos]
    split
    · rename_i hnow
      rw [hnow, h.ready.pos, Equiv.swap_apply_left]
    · rename_i hnow
      have hinj := h.ready.placed.bijective.injective
      symm
      apply Equiv.swap_apply_of_ne_of_ne
      · exact fun heq => hnow (hinj (heq.trans h.ready.pos.symm))
      · exact fun heq => ha (hinj (heq.trans h.place.symm))

/-- Nothing is left to be moved. -/
structure Done (d : Fin n → Byte) (s : Scene n) : Prop where
  phase : s.phase ≠ .second
  stuck : decideLet d s = none
  placed : Placed s
  mvname : s.mvname = d

theorem halfway_ch (a : Fin n) : ((halfway s now second p q).letinfo a).ch = (s.letinfo a).ch := by
  unfold halfway
  simp

theorem Halfway.done (h : Halfway d s now second p q)
    (hdiff : firstDiff (s.mvname ∘ Equiv.swap p q) d = none) :
    ∃ s', decideLet d (halfway s now second p q) = some s' ∧ Done d s' := by
  rw [h.decideLet_eq, hdiff]
  refine ⟨_, rfl, by simp, ?_, ?_, ?_⟩
  · unfold decideLet
    rw [Option.bind_some]
    dsimp only
    rw [setPos_self, if_pos rfl]
  · refine h.ready.placed.swap (h.swapped ?_ fun a ha => ?_) fun a => ?_
    · rw [setPos_self, h.letinfo_second]
    · rw [setPos_of_ne _ ha]
    · rw [setPos_ch, halfway_ch]
  · exact (h.ready.rearranged.swap p q).firstDiff_eq_none.mp hdiff

theorem Halfway.ready_next (h : Halfway d s now second p q) {diff : Fin n}
    (hdiff : firstDiff (s.mvname ∘ Equiv.swap p q) d = some diff)
    (hnext : postolet (halfway s now second p q).letinfo diff ≠ some second) :
    ∃ s' next r, decideLet d (halfway s now second p q) = some s' ∧ Ready d s' next diff r ∧
      s'.mvname = s.mvname ∘ Equiv.swap p q := by
  have hre := h.ready.rearranged.swap p q
  obtain ⟨next, hpost⟩ := h.exists_postolet (h.firstDiff_ne hdiff)
  have hne : next ≠ second := by
    rintro rfl
    exact hnext hpost
  have hfirst := hre.firstDiff_eq_some.mp hdiff
  obtain ⟨r, hr, hdest⟩ := hre.dest_isSome hfirst.1
  rw [h.decideLet_eq, hdiff]
  dsimp only
  rw [hpost, Option.bind_some, hr, Option.map_some]
  refine ⟨_, next, r, rfl, ⟨rfl, rfl, ?_, hre, ?_, ?_, hfirst, hdest⟩, rfl⟩
  · refine h.ready.placed.swap (h.swapped ?_ fun a ha => ?_) fun a => ?_
    · rw [setPos_self, setDpos_of_ne _ (Ne.symm hne), h.letinfo_second]
    · rw [setPos_of_ne _ ha, setDpos_pos]
    · rw [setPos_ch, setDpos_ch, halfway_ch]
  · dsimp only
    rw [setPos_of_ne _ hne, setDpos_pos]
    exact pos_of_postolet hpost
  · dsimp only
    rw [setPos_of_ne _ hne, setDpos_self]

theorem Halfway.not_placed (h : Halfway d s now second p q)
    (hdiff : firstDiff (s.mvname ∘ Equiv.swap p q) d = some q)
    (hpost : postolet (halfway s now second p q).letinfo q = some second) :
    ∃ s', decideLet d (halfway s now second p q) = some s' ∧ s'.phase ≠ .second ∧ ¬ Placed s' := by
  have hre := h.ready.rearranged.swap p q
  have hfirst := hre.firstDiff_eq_some.mp hdiff
  obtain ⟨r, hr, hdest⟩ := hre.dest_isSome hfirst.1
  have hrp : r ≠ p := by
    rintro rfl
    refine hdest.2 ?_
    rw [Function.comp_apply, Equiv.swap_apply_left]
    exact h.ready.dest.1.symm
  have hrq : r ≠ q := by
    rintro rfl
    exact hfirst.1 hdest.1
  obtain ⟨c, hc⟩ := h.ready.placed.bijective.surjective r
  dsimp only at hc
  have hcnow : c ≠ now := by
    rintro rfl
    exact hrp (hc.symm.trans h.ready.pos)
  have hcsecond : c ≠ second := by
    rintro rfl
    exact hrq (hc.symm.trans h.place)
  rw [h.decideLet_eq, hdiff]
  dsimp only
  rw [hpost, Option.bind_some, hr, Option.map_some]
  refine ⟨_, rfl, by simp, fun hplaced => hcsecond (hplaced.bijective.injective ?_)⟩
  dsimp only
  rw [setPos_self, setPos_of_ne _ hcsecond, setDpos_pos, setDpos_self, h.pos, if_neg hcnow, hc]

end Swaps

section Runs

variable {n : ℕ} {d name : Fin n → Byte} {s s' : Scene n} {now second p q : Fin n}

/-- The scenes of a run that has met the condition up to now. -/
inductive Reached (d : Fin n → Byte) : Scene n → Prop
  | ready {s : Scene n} {now p q : Fin n} (h : Ready d s now p q) : Reached d s
  | halfway {s : Scene n} {now second p q : Fin n} (h : Halfway d s now second p q) :
    Reached d (halfway s now second p q)
  | done {s : Scene n} (h : Done d s) : Reached d s

theorem Reached.placed (h : Reached d s) (hphase : s.phase ≠ .second) : Placed s := by
  cases h with
  | ready h => exact h.placed
  | halfway h => exact absurd rfl hphase
  | done h => exact h.placed

theorem Halfway.next (h : Halfway d s now second p q)
    (hlook : LooksUp d (halfway s now second p q)) :
    ∃ s', decideLet d (halfway s now second p q) = some s' ∧
      (Done d s' ∨ ∃ next diff r, Ready d s' next diff r ∧
        s'.mvname = s.mvname ∘ Equiv.swap p q) := by
  cases hdiff : firstDiff (s.mvname ∘ Equiv.swap p q) d with
  | none =>
    obtain ⟨s', hs', hdone⟩ := h.done hdiff
    exact ⟨s', hs', .inl hdone⟩
  | some diff =>
    have hnext : postolet (Projekt.halfway s now second p q).letinfo diff ≠ some second := by
      intro hpost
      -- the second letter is still at the place where the first one was put
      have hq : diff = q := by
        rw [← pos_of_postolet hpost, h.pos, if_neg h.ne, h.place]
      subst hq
      exact h.looksUp_iff.mp hlook hdiff hpost
    obtain ⟨s', next, r, hs', hready⟩ := h.ready_next hdiff hnext
    exact ⟨s', hs', .inr ⟨next, diff, r, hready⟩⟩

theorem Reached.step (h : Reached d s) (hlook : LooksUp d s) (hs' : decideLet d s = some s') :
    Reached d s' := by
  cases h with
  | ready h =>
    obtain ⟨second, hplace, hne, heq⟩ := h.decideLet_eq
    obtain rfl := Option.some.inj (heq.symm.trans hs')
    exact .halfway ⟨h, hplace, hne⟩
  | halfway h =>
    obtain ⟨t, ht, hnext⟩ := h.next hlook
    obtain rfl := Option.some.inj (ht.symm.trans hs')
    rcases hnext with hdone | ⟨next, diff, r, hready, -⟩
    · exact .done hdone
    · exact .ready hready
  | done h =>
    rw [h.stuck] at hs'
    cases hs'

theorem Reached.looksUp (h : Reached d s)
    (hplaced : ∀ s', decideLet d s = some s' → s'.phase ≠ .second → Placed s') : LooksUp d s := by
  cases h with
  | ready h =>
    intro hphase
    rw [h.phase] at hphase
    cases hphase
  | halfway h =>
    rw [h.looksUp_iff]
    intro hdiff hpost
    obtain ⟨s', hs', hphase, hnot⟩ := h.not_placed hdiff hpost
    exact hnot (hplaced s' hs' hphase)
  | done h => exact fun hphase => absurd hphase h.phase

theorem moves_succ (d : Fin n → Byte) (s : Scene n) (k : ℕ) :
    moves d s (k + 1) = (decideLet d s).bind fun s' => moves d s' k := rfl

theorem moves_succ_eq (hs' : decideLet d s = some s') (k : ℕ) :
    moves d s (k + 1) = moves d s' k := by
  rw [moves_succ, hs', Option.bind_some]

theorem Reached.run (h : Reached d s) (hlook : ∀ k t, moves d s k = some t → LooksUp d t) :
    ∀ k t, moves d s k = some t → Reached d t := by
  intro k
  induction k generalizing s with
  | zero =>
    intro t ht
    obtain rfl := Option.some.inj ht
    exact h
  | succ k ih =>
    intro t ht
    rw [moves_succ] at ht
    obtain ⟨s', hs', ht⟩ := Option.bind_eq_some_iff.mp ht
    refine ih (h.step (hlook 0 s rfl) hs') (fun j u hu => hlook (j + 1) u ?_) t ht
    rw [moves_succ_eq hs', hu]

theorem Reached.run_looksUp (h : Reached d s)
    (hplaced : ∀ k t, moves d s k = some t → t.phase ≠ .second → Placed t) :
    ∀ k t, moves d s k = some t → LooksUp d t := by
  intro k
  induction k generalizing s with
  | zero =>
    intro t ht
    obtain rfl := Option.some.inj ht
    exact h.looksUp fun s' hs' => hplaced 1 s' (moves_succ_eq hs' 0)
  | succ k ih =>
    intro t ht
    rw [moves_succ] at ht
    obtain ⟨s', hs', ht⟩ := Option.bind_eq_some_iff.mp ht
    have hlook := h.looksUp fun u hu => hplaced 1 u (moves_succ_eq hu 0)
    refine ih (h.step hlook hs') (fun j u hu => hplaced (j + 1) u ?_) t ht
    rw [moves_succ_eq hs', hu]

/-- The number of letters at wrong places. -/
def wrong (mv d : Fin n → Byte) : ℕ := (Finset.univ.filter fun c => mv c ≠ d c).card

theorem Ready.wrong_lt (h : Ready d s now p q) :
    wrong (s.mvname ∘ Equiv.swap p q) d < wrong s.mvname d := by
  apply Finset.card_lt_card
  rw [Finset.ssubset_iff_of_subset]
  · refine ⟨p, ?_, ?_⟩
    · simpa using h.diff.1
    · simpa using h.dest.1
  · intro c hc
    rw [Finset.mem_filter] at hc ⊢
    refine ⟨hc.1, ?_⟩
    by_cases hcp : c = p
    · rw [hcp]
      exact h.diff.1
    · by_cases hcq : c = q
      · rw [hcq]
        exact h.dest.2.symm
      · have := hc.2
        rwa [Function.comp_apply, Equiv.swap_apply_of_ne_of_ne hcp hcq] at this

/-- The name is reached, since every swap leaves fewer letters at wrong places. -/
theorem Ready.exists_moves (h : Ready d s now p q)
    (hlook : ∀ k t, moves d s k = some t → LooksUp d t) :
    ∃ k t, moves d s k = some t ∧ t.mvname = d := by
  induction hw : wrong s.mvname d using Nat.strong_induction_on generalizing s now p q with
  | h w ih =>
    obtain ⟨second, hplace, hne, hfirst⟩ := h.decideLet_eq
    obtain ⟨s', hsecond, hnext⟩ := Halfway.next ⟨h, hplace, hne⟩
      (hlook 1 _ (moves_succ_eq hfirst 0))
    have htwo (k : ℕ) : moves d s (k + 2) = moves d s' k := by
      rw [moves_succ_eq hfirst, moves_succ_eq hsecond]
    rcases hnext with hdone | ⟨next, diff, r, hready, hname⟩
    · exact ⟨2, s', htwo 0, hdone.mvname⟩
    · have hlt : wrong s'.mvname d < w := by
        rw [hname, ← hw]
        exact h.wrong_lt
      obtain ⟨k, t, ht, htd⟩ := ih _ hlt hready
        (fun j u hu => hlook (j + 2) u ((htwo j).trans hu)) rfl
      exact ⟨k + 2, t, (htwo k).trans ht, htd⟩

theorem start_of_eq (h : name = d) : start name d = none := by
  subst h
  simp [start, firstDiff]

theorem exists_start (h : Rearranged name d) (hne : name ≠ d) :
    ∃ s₀ now q, start name d = some s₀ ∧ Ready d s₀ now now q := by
  obtain ⟨now, hnow⟩ := Option.ne_none_iff_exists'.mp (mt h.firstDiff_eq_none.mp hne)
  have hfirst := h.firstDiff_eq_some.mp hnow
  obtain ⟨q, hq, hdest⟩ := h.dest_isSome hfirst.1
  unfold start
  rw [hnow, Option.bind_some, hq, Option.map_some]
  refine ⟨_, now, q, rfl, rfl, rfl, ⟨?_, fun a => ?_⟩, h, ?_, ?_, hfirst, hdest⟩ <;> simp

/-- The letters are sorted exactly if the names differ and the first letter of a swap, and not the
second one, is found at its new place whenever it is the next to be moved. -/
theorem sorts_iff_looksUp (h : Rearranged name d) :
    Sorts name d ↔ name ≠ d ∧
      ∀ s₀, start name d = some s₀ → ∀ k s, moves d s₀ k = some s → LooksUp d s := by
  constructor
  · rintro ⟨s₀, hs₀, -, hplaced⟩
    have hne : name ≠ d := by
      rintro heq
      rw [start_of_eq heq] at hs₀
      cases hs₀
    obtain ⟨s₁, now, q, hs₁, hready⟩ := exists_start h hne
    obtain rfl := Option.some.inj (hs₀.symm.trans hs₁)
    refine ⟨hne, ?_⟩
    rintro s₁ hs₁
    obtain rfl := Option.some.inj (hs₀.symm.trans hs₁)
    exact (Reached.ready hready).run_looksUp hplaced
  · rintro ⟨hne, hlook⟩
    obtain ⟨s₀, now, q, hs₀, hready⟩ := exists_start h hne
    refine ⟨s₀, hs₀, hready.exists_moves (hlook s₀ hs₀), fun k s hs => ?_⟩
    exact ((Reached.ready hready).run (hlook s₀ hs₀) k s hs).placed

/-- Two letters change their places. -/
theorem sorts_iff_looksUp_ab : Sorts ![0x61#8, 0x62#8] ![0x62#8, 0x61#8] := by
  refine (sorts_iff_looksUp ⟨Equiv.swap 0 1, by decide⟩).mpr ⟨by decide, fun s₀ hs₀ k s hs => ?_⟩
  obtain rfl := Option.some.inj hs₀
  match k, hs with
  | 0, hs =>
    obtain rfl := Option.some.inj hs
    unfold LooksUp
    decide
  | 1, hs =>
    obtain rfl := Option.some.inj hs
    unfold LooksUp
    decide
  | 2, hs =>
    obtain rfl := Option.some.inj hs
    unfold LooksUp
    decide
  | k + 3, hs => cases hs

/-- From `abcd` to `cadb`: after the second swap the letters `a` and `d` are at the same place. And
from a name to the same name not even the first letter is found. -/
theorem not_sorts_abcd :
    Rearranged ![0x61#8, 0x62#8, 0x63#8, 0x64#8] ![0x63#8, 0x61#8, 0x64#8, 0x62#8] ∧
      ¬ Sorts ![0x61#8, 0x62#8, 0x63#8, 0x64#8] ![0x63#8, 0x61#8, 0x64#8, 0x62#8] ∧
      ¬ Sorts ![0x61#8, 0x62#8] ![0x61#8, 0x62#8] := by
  refine ⟨⟨⟨![2, 0, 3, 1], ![1, 3, 0, 2], by decide, by decide⟩, by decide⟩, ?_, ?_⟩
  · rintro ⟨s₀, hs₀, -, hplaced⟩
    obtain ⟨s₁, s, hs₁, hs, hphase, hpos⟩ : ∃ s₁ s,
        start ![0x61#8, 0x62#8, 0x63#8, 0x64#8] ![0x63#8, 0x61#8, 0x64#8, 0x62#8] = some s₁ ∧
        moves ![0x63#8, 0x61#8, 0x64#8, 0x62#8] s₁ 4 = some s ∧ s.phase ≠ .second ∧
        (s.letinfo 0).pos = (s.letinfo 3).pos := ⟨_, _, rfl, rfl, by decide, by decide⟩
    obtain rfl := Option.some.inj (hs₀.symm.trans hs₁)
    have heq : (0 : Fin 4) = 3 := (hplaced 4 s hs hphase).bijective.injective hpos
    exact absurd heq (by decide)
  · rintro ⟨s₀, hs₀, -⟩
    rw [start_of_eq rfl] at hs₀
    cases hs₀

end Runs

end CollectedSources.Projekt
