import Mathlib

/-! # The characters that diasel selects

The characters of a text from 160 on are counted until one of the counters is
full. The most frequent ones are selected one after the other, each in the place
of the first of the least frequent ones.
-/

namespace CollectedSources.Diasel.Select

abbrev Byte := BitVec 8

def thresh : ℕ := 160

/-- The counter of a character. -/
def statIndex (c : Byte) : Option (Fin (256 - thresh)) :=
  if h : thresh ≤ c.toNat then
    some ⟨c.toNat - thresh, Nat.sub_lt_sub_right h c.isLt⟩
  else none

/-- The character of a counter. -/
def code (a : Fin (256 - thresh)) : Byte := BitVec.ofNat 8 (a + thresh)

abbrev Stat := Fin (256 - thresh) → ℕ

/-- The first loop, on the memory at `tmp`. -/
def countLoop : List Byte → Stat → Stat
  | [], stat => stat
  | c :: tmp, stat =>
    if c = 0 then stat
    else
      match statIndex c with
      | none => countLoop tmp stat
      | some i =>
        let stat := Function.update stat i ((stat i + 1) % 256)
        if stat i = 0xff then stat else countLoop tmp stat

/-- The arrays `out` and `outa`. -/
structure Slots (cnt : ℕ) where
  out : Fin cnt → Byte
  outa : Fin cnt → ℕ

/-- The loop that finds the minimum: `m` and `mpos` after the slots that are given. -/
def findMin {cnt : ℕ} (outa : Fin cnt → ℕ) : List (Fin cnt) → ℕ → Fin cnt → Fin cnt
  | [], _, mpos => mpos
  | b :: bs, m, mpos =>
    if m > outa b then findMin outa bs (outa b) b else findMin outa bs m mpos

section Loops

variable {cnt : ℕ} [NeZero cnt]

def mpos (s : Slots cnt) : Fin cnt := findMin s.outa (List.finRange cnt) 0xff 0

/-- One round of the loop over the counters. -/
def selectStep (stat : Stat) (s : Slots cnt) (a : Fin (256 - thresh)) : Slots cnt :=
  if stat a = 0 then s
  else if stat a > s.outa (mpos s) then
    { out := Function.update s.out (mpos s) (code a)
      outa := Function.update s.outa (mpos s) (stat a) }
  else s

/-- `diasel` on the memory behind `in`: the contents of `out`. -/
def diasel (cnt : ℕ) [NeZero cnt] (text : List Byte) : Fin cnt → Byte :=
  let stat := countLoop text fun _ => 0
  ((List.finRange (256 - thresh)).foldl (selectStep stat) ⟨fun _ => 0, fun _ => 0⟩).out

end Loops

/-- The part of a text up to the first position where some special character has occurred 255
times. -/
structure Read (text part : List Byte) : Prop where
  isPrefix : part <+: text
  before : ∀ part', part' <+: part → part' ≠ part → ∀ c : Byte, thresh ≤ c.toNat →
    part'.count c < 255
  stops : part = text ∨ ∃ c : Byte, thresh ≤ c.toNat ∧ part.count c = 255

/-- The special characters of a text, each once. -/
def specialBytes (text : List Byte) : Finset Byte :=
  text.toFinset.filter fun c => thresh ≤ c.toNat

/-- Some of the most frequent special characters of a text, as many of them as there are or as
have a place. -/
structure Selected {cnt : ℕ} (text : List Byte) (out : Fin cnt → Byte) : Prop where
  distinct : ∀ b b', out b ≠ 0 → out b = out b' → b = b'
  special : ∀ b, out b ≠ 0 → thresh ≤ (out b).toNat ∧ out b ∈ text
  card : (Finset.univ.filter fun b => out b ≠ 0).card = min cnt (specialBytes text).card
  frequent : ∀ b, out b ≠ 0 → ∀ c : Byte, thresh ≤ c.toNat → (∀ b', out b' ≠ c) →
    text.count c ≤ text.count (out b)

section Codes

theorem toNat_code (a : Fin (256 - thresh)) : (code a).toNat = a + thresh := by
  have ha := a.isLt
  simp only [code, thresh, BitVec.toNat_ofNat] at ha ⊢
  omega

theorem code_injective : Function.Injective code := by
  intro a a' h
  have hnat := congrArg BitVec.toNat h
  rw [toNat_code, toNat_code] at hnat
  exact Fin.ext (Nat.add_right_cancel hnat)

theorem thresh_le_code (a : Fin (256 - thresh)) : thresh ≤ (code a).toNat := by
  rw [toNat_code]
  exact Nat.le_add_left _ _

theorem code_ne_zero (a : Fin (256 - thresh)) : code a ≠ 0 := by
  intro h
  have hle := thresh_le_code a
  rw [h] at hle
  exact absurd hle (by decide)

theorem exists_code {c : Byte} (h : thresh ≤ c.toNat) : ∃ a, statIndex c = some a ∧ code a = c := by
  refine ⟨⟨c.toNat - thresh, Nat.sub_lt_sub_right h c.isLt⟩, dif_pos h, ?_⟩
  apply BitVec.eq_of_toNat_eq
  rw [toNat_code]
  exact Nat.sub_add_cancel h

end Codes

section Counting

/-- The counters after some characters, none of which has occurred 255 times. -/
structure Counted (done : List Byte) (stat : Stat) : Prop where
  count : ∀ a, stat a = done.count (code a)
  below : ∀ a, stat a < 255

/-- The part of a text that is read when some characters are counted already. -/
structure ReadFrom (done text part : List Byte) : Prop where
  isPrefix : part <+: text
  before : ∀ part', part' <+: part → part' ≠ part → ∀ a, (done ++ part').count (code a) < 255
  stops : part = text ∨ ∃ a, (done ++ part).count (code a) = 255

variable {done text part : List Byte} {stat : Stat} {c : Byte}

theorem ReadFrom.cons (hdone : ∀ a, done.count (code a) < 255)
    (h : ReadFrom (done ++ [c]) text part) : ReadFrom done (c :: text) (c :: part) := by
  have happend : ∀ part', done ++ c :: part' = done ++ [c] ++ part' := by simp
  refine ⟨(List.prefix_cons_inj c).mpr h.isPrefix, fun part' hpre hne a => ?_, ?_⟩
  · cases part' with
    | nil =>
      rw [List.append_nil]
      exact hdone a
    | cons c' part' =>
      obtain ⟨rfl, hpre'⟩ := List.cons_prefix_cons.mp hpre
      rw [happend]
      exact h.before part' hpre' (fun heq => hne (by rw [heq])) a
  · rw [happend]
    rcases h.stops with rfl | hstop
    · exact Or.inl rfl
    · exact Or.inr hstop

theorem ReadFrom.nil (h : text = [] ∨ ∃ a, done.count (code a) = 255) :
    ReadFrom done text [] := by
  refine ⟨List.nil_prefix, fun part' hpre hne => absurd (List.prefix_nil.mp hpre) hne, ?_⟩
  rw [List.append_nil]
  rcases h with rfl | h
  · exact Or.inl rfl
  · exact Or.inr h

theorem count_append_code (done : List Byte) (c : Byte) (a : Fin (256 - thresh)) :
    (done ++ [c]).count (code a) = done.count (code a) + if c = code a then 1 else 0 := by
  rw [List.count_append, List.count_singleton]
  simp only [beq_iff_eq]

theorem Counted.skip (h : Counted done stat) (hc : ¬ thresh ≤ c.toNat) :
    Counted (done ++ [c]) stat := by
  refine ⟨fun a => ?_, h.below⟩
  have hne : c ≠ code a := by
    rintro rfl
    exact hc (thresh_le_code a)
  rw [count_append_code, if_neg hne, h.count, Nat.add_zero]

theorem Counted.count_update (h : Counted done stat) (i a : Fin (256 - thresh)) :
    Function.update stat i (stat i + 1) a = (done ++ [code i]).count (code a) := by
  rw [count_append_code]
  by_cases ha : a = i
  · rw [ha, Function.update_self, if_pos rfl, h.count]
  · rw [Function.update_of_ne ha, if_neg fun heq => ha (code_injective heq).symm, h.count,
      Nat.add_zero]

theorem Counted.update_le (h : Counted done stat) (i a : Fin (256 - thresh)) :
    Function.update stat i (stat i + 1) a ≤ 255 := by
  by_cases ha : a = i
  · rw [ha, Function.update_self]
    exact h.below i
  · rw [Function.update_of_ne ha]
    exact Nat.le_of_lt (h.below a)

theorem Counted.update (h : Counted done stat) {i : Fin (256 - thresh)} (hi : stat i + 1 ≠ 255) :
    Counted (done ++ [code i]) (Function.update stat i (stat i + 1)) := by
  refine ⟨h.count_update i, fun a => Nat.lt_of_le_of_ne (h.update_le i a) ?_⟩
  by_cases ha : a = i
  · rwa [ha, Function.update_self]
  · rw [Function.update_of_ne ha]
    exact (h.below a).ne

theorem countLoop_read (rest : List Byte) (h₀ : 0 ∉ text) (h : Counted done stat) :
    ∃ part, ReadFrom done text part ∧
      ∀ a, countLoop (text ++ 0 :: rest) stat a = (done ++ part).count (code a) ∧
        countLoop (text ++ 0 :: rest) stat a ≤ 255 := by
  have hdone : ∀ a, done.count (code a) < 255 := fun a => h.count a ▸ h.below a
  induction text generalizing done stat with
  | nil =>
    refine ⟨[], ReadFrom.nil (Or.inl rfl), fun a => ⟨?_, Nat.le_of_lt (h.below a)⟩⟩
    simpa [countLoop] using h.count a
  | cons c text ih =>
    rw [List.mem_cons, not_or] at h₀
    have happend : ∀ part, done ++ c :: part = done ++ [c] ++ part := by simp
    rw [List.cons_append, countLoop, if_neg (Ne.symm h₀.1)]
    by_cases hc : thresh ≤ c.toNat
    · obtain ⟨i, hi, rfl⟩ := exists_code hc
      rw [hi]
      have hmod : (stat i + 1) % 256 = stat i + 1 := Nat.mod_eq_of_lt (by have := h.below i; omega)
      simp only [hmod, Function.update_self]
      split
      · rename_i hfull
        have hstop : (done ++ [code i]).count (code i) = 255 := by
          rw [← h.count_update, Function.update_self, hfull]
        exact ⟨[code i], (ReadFrom.nil (Or.inr ⟨i, hstop⟩)).cons hdone,
          fun a => ⟨h.count_update i a, h.update_le i a⟩⟩
      · rename_i hfull
        have hnext := h.update hfull
        obtain ⟨part, hread, hstat⟩ := ih h₀.2 hnext fun a => hnext.count a ▸ hnext.below a
        exact ⟨code i :: part, hread.cons hdone, fun a => happend part ▸ hstat a⟩
    · have hnone : statIndex c = none := dif_neg hc
      have hnext := h.skip hc
      rw [hnone]
      obtain ⟨part, hread, hstat⟩ := ih h₀.2 hnext fun a => hnext.count a ▸ hnext.below a
      exact ⟨c :: part, hread.cons hdone, fun a => happend part ▸ hstat a⟩

end Counting

section Selection

variable {cnt : ℕ}

theorem findMin_le (outa : Fin cnt → ℕ) (bs : List (Fin cnt)) {m : ℕ} {mpos : Fin cnt}
    (hm : outa mpos ≤ m) :
    outa (findMin outa bs m mpos) ≤ m ∧ ∀ b ∈ bs, outa (findMin outa bs m mpos) ≤ outa b := by
  induction bs generalizing m mpos with
  | nil => exact ⟨hm, by simp⟩
  | cons b bs ih =>
    unfold findMin
    split
    · rename_i hlt
      obtain ⟨hle, hbs⟩ := @ih (outa b) b (Nat.le_refl _)
      refine ⟨hle.trans (Nat.le_of_lt hlt), ?_⟩
      simpa using ⟨hle, hbs⟩
    · rename_i hlt
      obtain ⟨hle, hbs⟩ := ih hm
      refine ⟨hle, ?_⟩
      simpa using ⟨hle.trans (Nat.le_of_not_lt hlt), hbs⟩

/-- The slots after some of the counters. -/
structure Filled (stat : Stat) (done : List (Fin (256 - thresh))) (s : Slots cnt) : Prop where
  slot : ∀ b, (s.out b = 0 ∧ s.outa b = 0) ∨
    ∃ a ∈ done, stat a ≠ 0 ∧ s.out b = code a ∧ s.outa b = stat a
  distinct : ∀ b b', s.out b ≠ 0 → s.out b = s.out b' → b = b'
  left : ∀ a ∈ done, stat a ≠ 0 → (∀ b, s.out b ≠ code a) → ∀ b, stat a ≤ s.outa b

variable {stat : Stat} {done : List (Fin (256 - thresh))} {s : Slots cnt}

theorem Filled.skip (h : Filled stat done s) {a : Fin (256 - thresh)}
    (ha : stat a ≠ 0 → ∀ b, stat a ≤ s.outa b) : Filled stat (a :: done) s := by
  refine ⟨fun b => ?_, h.distinct, fun a' ha' hne hout b => ?_⟩
  · rcases h.slot b with hb | ⟨a', ha', hb⟩
    · exact Or.inl hb
    · exact Or.inr ⟨a', List.mem_cons_of_mem _ ha', hb⟩
  · rcases List.mem_cons.mp ha' with rfl | ha'
    · exact ha hne b
    · exact h.left a' ha' hne hout b

theorem Filled.out_ne_code (h : Filled stat done s) {a : Fin (256 - thresh)} (hfresh : a ∉ done)
    (b : Fin cnt) : s.out b ≠ code a := by
  intro hb
  rcases h.slot b with ⟨h₀, -⟩ | ⟨a', ha', -, hcode, -⟩
  · exact code_ne_zero a (hb.symm.trans h₀)
  · exact hfresh (code_injective (hb.symm.trans hcode) ▸ ha')

theorem Filled.le_smallest (h : Filled stat done s) {a : Fin (256 - thresh)} {k : Fin cnt}
    (ha : a ∈ done) (hne : stat a ≠ 0) (hout : ∀ b, b ≠ k → s.out b ≠ code a) :
    stat a ≤ s.outa k := by
  by_cases hcode : s.out k = code a
  · rcases h.slot k with ⟨h₀, -⟩ | ⟨a', -, -, hcode', houta⟩
    · exact absurd (hcode.symm.trans h₀) (code_ne_zero a)
    · rw [houta, code_injective (hcode.symm.trans hcode')]
  · apply h.left a ha hne
    intro b hb
    by_cases hk : b = k
    · exact hcode (hk ▸ hb)
    · exact hout b hk hb

theorem distinct_update {out : Fin cnt → Byte} (k : Fin cnt) {c : Byte} (hout : ∀ b, out b ≠ c)
    (h : ∀ b b', out b ≠ 0 → out b = out b' → b = b') (b b' : Fin cnt)
    (hb : Function.update out k c b ≠ 0)
    (hbb' : Function.update out k c b = Function.update out k c b') : b = b' := by
  by_cases hk : b = k <;> by_cases hk' : b' = k
  · rw [hk, hk']
  · rw [hk, Function.update_self, Function.update_of_ne hk'] at hbb'
    exact absurd hbb'.symm (hout b')
  · rw [hk', Function.update_self, Function.update_of_ne hk] at hbb'
    exact absurd hbb' (hout b)
  · rw [Function.update_of_ne hk] at hb hbb'
    rw [Function.update_of_ne hk'] at hbb'
    exact h b b' hb hbb'

theorem Filled.replace (h : Filled stat done s) {a : Fin (256 - thresh)} {k : Fin cnt}
    (hfresh : a ∉ done) (ha : stat a > s.outa k) (hk : ∀ b, s.outa k ≤ s.outa b) :
    Filled stat (a :: done)
      ⟨Function.update s.out k (code a), Function.update s.outa k (stat a)⟩ := by
  have hne : stat a ≠ 0 := Nat.ne_zero_of_lt ha
  have hle : ∀ b, s.outa k ≤ Function.update s.outa k (stat a) b := by
    intro b
    by_cases hb : b = k
    · subst hb
      rw [Function.update_self]
      exact Nat.le_of_lt ha
    · rw [Function.update_of_ne hb]
      exact hk b
  refine ⟨fun b => ?_, distinct_update k (h.out_ne_code hfresh) h.distinct,
    fun a' ha' hne' hout' b => ?_⟩
  · by_cases hb : b = k
    · subst hb
      exact Or.inr ⟨a, List.mem_cons_self, hne, Function.update_self .., Function.update_self ..⟩
    · simp only [Function.update_of_ne hb]
      rcases h.slot b with hb | ⟨a', ha', hb⟩
      · exact Or.inl hb
      · exact Or.inr ⟨a', List.mem_cons_of_mem _ ha', hb⟩
  · -- the counters that are left out now are those from before and the one that is replaced
    rcases List.mem_cons.mp ha' with rfl | ha'
    · exact absurd (Function.update_self ..) (hout' k)
    · apply Nat.le_trans (h.le_smallest ha' hne' _) (hle b)
      intro b' hb' hcode
      exact hout' b' ((Function.update_of_ne hb' _ _).trans hcode)

section Finished

variable {part : List Byte}

theorem Filled.slot_of_ne_zero (h : Filled stat done s)
    (hcount : ∀ a, stat a = part.count (code a)) {b : Fin cnt} (hb : s.out b ≠ 0) :
    ∃ a, s.out b = code a ∧ code a ∈ part ∧ s.outa b = part.count (code a) := by
  rcases h.slot b with ⟨h₀, -⟩ | ⟨a, -, hne, hcode, houta⟩
  · exact absurd h₀ hb
  · rw [hcount] at hne houta
    exact ⟨a, hcode, List.count_pos_iff.mp (Nat.pos_of_ne_zero hne), houta⟩

theorem mem_specialBytes {c : Byte} : c ∈ specialBytes part ↔ c ∈ part ∧ thresh ≤ c.toNat := by
  rw [specialBytes, Finset.mem_filter, List.mem_toFinset]

theorem Filled.card_image (h : Filled stat done s) :
    ((Finset.univ.filter fun b => s.out b ≠ 0).image s.out).card =
      (Finset.univ.filter fun b => s.out b ≠ 0).card := by
  apply Finset.card_image_of_injOn
  intro b hb b' _ heq
  exact h.distinct b b' (Finset.mem_filter.mp hb).2 heq

theorem Filled.image_subset (h : Filled stat done s)
    (hcount : ∀ a, stat a = part.count (code a)) :
    (Finset.univ.filter fun b => s.out b ≠ 0).image s.out ⊆ specialBytes part := by
  intro c hc
  obtain ⟨b, hb, rfl⟩ := Finset.mem_image.mp hc
  obtain ⟨a, hcode, hmem, -⟩ := h.slot_of_ne_zero hcount (Finset.mem_filter.mp hb).2
  rw [hcode, mem_specialBytes]
  exact ⟨hmem, thresh_le_code a⟩

theorem Filled.full_of_left (h : Filled stat done s) (hdone : ∀ a, a ∈ done)
    (hcount : ∀ a, stat a = part.count (code a)) {c : Byte} (hc : c ∈ specialBytes part)
    (hleft : ∀ b, s.out b ≠ c) (b : Fin cnt) : s.out b ≠ 0 := by
  obtain ⟨hmem, hthresh⟩ := mem_specialBytes.mp hc
  obtain ⟨a, -, rfl⟩ := exists_code hthresh
  have hpos : stat a ≠ 0 := by
    rw [hcount]
    exact Nat.ne_zero_of_lt (List.count_pos_iff.mpr hmem)
  intro hb
  have hge := h.left a (hdone a) hpos hleft b
  rcases h.slot b with ⟨-, h₀⟩ | ⟨a', -, -, hcode, -⟩
  · omega
  · exact code_ne_zero a' (hcode.symm.trans hb)

theorem Filled.card_selected (h : Filled stat done s) (hdone : ∀ a, a ∈ done)
    (hcount : ∀ a, stat a = part.count (code a)) :
    (Finset.univ.filter fun b => s.out b ≠ 0).card = min cnt (specialBytes part).card := by
  have hcard := h.card_image
  have hsub := h.image_subset hcount
  have hle : (Finset.univ.filter fun b => s.out b ≠ 0).card ≤ cnt := by
    simpa using Finset.card_filter_le (Finset.univ : Finset (Fin cnt)) fun b => s.out b ≠ 0
  by_cases hall : ∀ c ∈ specialBytes part, ∃ b, s.out b = c
  · have himage : (Finset.univ.filter fun b => s.out b ≠ 0).image s.out = specialBytes part := by
      refine Finset.Subset.antisymm hsub fun c hc => ?_
      obtain ⟨b, rfl⟩ := hall c hc
      obtain ⟨a, -, hcode⟩ := exists_code (mem_specialBytes.mp hc).2
      exact Finset.mem_image_of_mem _
        (Finset.mem_filter.mpr ⟨Finset.mem_univ b, hcode ▸ code_ne_zero a⟩)
    rw [← himage, hcard, Nat.min_eq_right hle]
  · push Not at hall
    obtain ⟨c, hc, hleft⟩ := hall
    have huniv : (Finset.univ.filter fun b => s.out b ≠ 0) = Finset.univ :=
      Finset.filter_true_of_mem fun b _ => h.full_of_left hdone hcount hc hleft b
    have hcnt : cnt ≤ (specialBytes part).card := by
      have := Finset.card_le_card hsub
      rwa [hcard, huniv, Finset.card_univ, Fintype.card_fin] at this
    rw [huniv, Finset.card_univ, Fintype.card_fin, Nat.min_eq_left hcnt]

theorem Filled.selected (h : Filled stat done s) (hdone : ∀ a, a ∈ done)
    (hcount : ∀ a, stat a = part.count (code a)) : Selected part s.out := by
  refine ⟨h.distinct, fun b hb => ?_, ?_, fun b hb c hc hleft => ?_⟩
  · obtain ⟨a, hcode, hmem, -⟩ := h.slot_of_ne_zero hcount hb
    rw [hcode]
    exact ⟨thresh_le_code a, hmem⟩
  · exact h.card_selected hdone hcount
  · obtain ⟨a, -, rfl⟩ := exists_code hc
    obtain ⟨a', hcode, -, houta⟩ := h.slot_of_ne_zero hcount hb
    rw [hcode, ← houta, ← hcount]
    by_cases hzero : stat a = 0
    · omega
    · exact h.left a (hdone a) hzero hleft b

end Finished

variable [NeZero cnt]

theorem Filled.outa_mpos_le (h : Filled stat done s) (hstat : ∀ a, stat a ≤ 255) (b : Fin cnt) :
    s.outa (mpos s) ≤ s.outa b := by
  have h₀ : s.outa 0 ≤ 0xff := by
    rcases h.slot 0 with ⟨-, hzero⟩ | ⟨a, -, -, -, ha⟩
    · omega
    · rw [ha]
      exact hstat a
  exact (findMin_le s.outa (List.finRange cnt) h₀).2 b (List.mem_finRange b)

theorem Filled.selectStep (h : Filled stat done s) (hstat : ∀ a, stat a ≤ 255)
    {a : Fin (256 - thresh)} (hfresh : a ∉ done) :
    Filled stat (a :: done) (selectStep stat s a) := by
  unfold Select.selectStep
  split
  · exact h.skip fun hne => absurd ‹_› hne
  · split
    · exact h.replace hfresh ‹_› (h.outa_mpos_le hstat)
    · rename_i hle
      exact h.skip fun _ b => (Nat.le_of_not_lt hle).trans (h.outa_mpos_le hstat b)

theorem Filled.foldl (hstat : ∀ a, stat a ≤ 255) (as : List (Fin (256 - thresh)))
    (hnodup : (as ++ done).Nodup) (h : Filled stat done s) :
    Filled stat (as.reverse ++ done) (as.foldl (Select.selectStep stat) s) := by
  induction as generalizing done s with
  | nil => exact h
  | cons a as ih =>
    have hperm : (as ++ a :: done).Nodup := by
      rw [List.nodup_middle]
      exact hnodup
    have hfresh : a ∉ done := fun hmem =>
      (List.nodup_cons.mp hnodup).1 (List.mem_append_right _ hmem)
    have hnext := ih hperm (h.selectStep hstat hfresh)
    simpa using hnext

end Selection

theorem diasel_readFrom (cnt : ℕ) [NeZero cnt] {text : List Byte} (rest : List Byte)
    (h₀ : 0 ∉ text) :
    ∃ part, ReadFrom [] text part ∧
      (∀ a, countLoop (text ++ 0 :: rest) (fun _ => 0) a = part.count (code a)) ∧
      Selected part (diasel cnt (text ++ 0 :: rest)) := by
  have hstart : Counted [] fun _ => 0 := ⟨fun _ => rfl, fun _ => by decide⟩
  obtain ⟨part, hread, hstat⟩ := countLoop_read rest h₀ hstart
  have hnodup : (List.finRange (256 - thresh) ++ []).Nodup := by
    rw [List.append_nil]
    exact List.nodup_finRange _
  have hempty : Filled (countLoop (text ++ 0 :: rest) fun _ => 0) []
      (⟨fun _ => 0, fun _ => 0⟩ : Slots cnt) :=
    ⟨fun _ => Or.inl ⟨rfl, rfl⟩, fun _ _ hb => absurd rfl hb, by simp⟩
  have hfilled := Filled.foldl (fun a => (hstat a).2) (List.finRange (256 - thresh)) hnodup hempty
  exact ⟨part, hread, fun a => (hstat a).1,
    hfilled.selected (fun a => by simp) fun a => (hstat a).1⟩

/-- `diasel` selects the most frequent special characters of the part of a text that it reads. -/
theorem diasel_selected (cnt : ℕ) [NeZero cnt] (text rest : List Byte) (h₀ : 0 ∉ text) :
    ∃ part, Read text part ∧ Selected part (diasel cnt (text ++ 0 :: rest)) := by
  obtain ⟨part, hread, -, hselected⟩ := diasel_readFrom cnt rest h₀
  refine ⟨part, ⟨hread.isPrefix, fun part' hpre hne c hc => ?_, ?_⟩, hselected⟩
  · obtain ⟨a, -, rfl⟩ := exists_code hc
    exact hread.before part' hpre hne a
  · rcases hread.stops with hall | ⟨a, ha⟩
    · exact Or.inl hall
    · exact Or.inr ⟨code a, thresh_le_code a, ha⟩

theorem diasel_selected_sample :
    ∃ part, Read [0xe1, 0x61, 0xe9, 0xe1] part ∧
      Selected part (diasel 1 ([0xe1, 0x61, 0xe9, 0xe1] ++ 0 :: [])) :=
  diasel_selected 1 [0xe1, 0x61, 0xe9, 0xe1] [] (by decide)

end CollectedSources.Diasel.Select
