import CollectedSources.Diasel.Select
import Mathlib

/-! # The order of the characters

The selection depends on how often the characters occur, and not on their order,
as long as no counter is full before all of the text has been read. A full counter
ends the reading, and the characters behind it are not counted.
-/

namespace CollectedSources.Diasel.Select

/-- When some special character fills its counter, any other one occurs less than 255 times if
there is one place, and not at all otherwise. -/
def OrderFree (cnt : ℕ) (text : List Byte) : Prop :=
  ∀ c d : Byte, c ≠ d → thresh ≤ c.toNat → thresh ≤ d.toNat → 255 ≤ text.count c →
    text.count d < if cnt = 1 then 255 else 1

section Reading

variable {text part part' : List Byte} {c : Byte}

theorem ReadFrom.count_le (h : ReadFrom [] text part) (c : Byte) : part.count c ≤ text.count c :=
  h.isPrefix.sublist.count_le c

theorem ReadFrom.eq_of_prefix (h : ReadFrom [] text part) (h' : ReadFrom [] text part')
    (hpre : part <+: part') : part = part' := by
  by_contra hne
  rcases h.stops with rfl | ⟨a, ha⟩
  · exact hne (hpre.eq_of_length_le h'.isPrefix.length_le)
  · exact absurd ha (h'.before part hpre hne a).ne

theorem ReadFrom.unique (h : ReadFrom [] text part) (h' : ReadFrom [] text part') :
    part = part' := by
  rcases List.prefix_or_prefix_of_prefix h.isPrefix h'.isPrefix with hpre | hpre
  · exact h.eq_of_prefix h' hpre
  · exact (h'.eq_of_prefix h hpre).symm

theorem ReadFrom.eq_text (h : ReadFrom [] text part)
    (hcount : ∀ c : Byte, thresh ≤ c.toNat → text.count c < 255) : part = text := by
  rcases h.stops with hall | ⟨a, ha⟩
  · exact hall
  · rw [List.nil_append] at ha
    exact absurd (h.count_le (code a)) (by have := hcount _ (thresh_le_code a); omega)

theorem ReadFrom.count_le_full (h : ReadFrom [] text part) (hc : thresh ≤ c.toNat) :
    part.count c ≤ 255 := by
  obtain ⟨a, -, rfl⟩ := exists_code hc
  rcases List.eq_nil_or_concat' part with rfl | ⟨part', e, rfl⟩
  · simp
  · have hlt := h.before part' (List.prefix_append _ _) (by simp) a
    rw [List.nil_append] at hlt
    rw [count_append_code]
    split <;> omega

theorem ReadFrom.exists_full (h : ReadFrom [] text part) (hc : thresh ≤ c.toNat)
    (hcount : 255 ≤ text.count c) : ∃ d : Byte, thresh ≤ d.toNat ∧ part.count d = 255 := by
  rcases h.stops with rfl | ⟨a, ha⟩
  · exact ⟨c, hc, Nat.le_antisymm (h.count_le_full hc) hcount⟩
  · exact ⟨code a, thresh_le_code a, ha⟩

/-- The only character that fills its counter does so in the part that is read. -/
theorem ReadFrom.count_eq_full (h : ReadFrom [] text part) (hc : thresh ≤ c.toNat)
    (hcount : 255 ≤ text.count c)
    (hother : ∀ d : Byte, d ≠ c → thresh ≤ d.toNat → text.count d < 255) :
    part.count c = 255 := by
  obtain ⟨d, hd, hfull⟩ := h.exists_full hc hcount
  by_cases hne : d = c
  · rwa [← hne]
  · exact absurd (h.count_le d) (by have := hother d hne hd; omega)

theorem readFrom_replicate (hc : thresh ≤ c.toNat) (text : List Byte) :
    ReadFrom [] (List.replicate 255 c ++ text) (List.replicate 255 c) := by
  obtain ⟨a, -, rfl⟩ := exists_code hc
  refine ⟨List.prefix_append _ _, fun part' hpre hne a' => ?_, Or.inr ⟨a, ?_⟩⟩
  · have hlt : part'.length < 255 := by
      have hle := hpre.length_le
      rw [List.length_replicate] at hle
      apply Nat.lt_of_le_of_ne hle
      intro heq
      exact hne (hpre.eq_of_length (by rw [heq, List.length_replicate]))
    exact Nat.lt_of_le_of_lt List.count_le_length hlt
  · rw [List.nil_append, List.count_replicate_self]

end Reading

section Orders

variable {cnt : ℕ} {text text' part : List Byte} {out : Fin cnt → Byte} {c d : Byte}

theorem OrderFree.perm (h : OrderFree cnt text) (hperm : text'.Perm text) :
    OrderFree cnt text' := by
  intro c d hne hc hd hcount
  rw [hperm.count_eq] at hcount ⊢
  exact h c d hne hc hd hcount

theorem OrderFree.count_lt (h : OrderFree cnt text) (hc : thresh ≤ c.toNat)
    (hcount : 255 ≤ text.count c) (hne : d ≠ c) (hd : thresh ≤ d.toNat) : text.count d < 255 := by
  have hlt := h c d hne.symm hc hd hcount
  split at hlt <;> omega

theorem Selected.replicate (h : Selected (List.replicate 255 c) out) {b : Fin cnt}
    (hb : out b ≠ 0) : out b = c :=
  (List.mem_replicate.mp (h.special b hb).2).2

theorem Selected.card_replicate [NeZero cnt] (h : Selected (List.replicate 255 c) out)
    (hc : thresh ≤ c.toNat) : (Finset.univ.filter fun b => out b ≠ 0).card = 1 := by
  have hspecial : specialBytes (List.replicate 255 c) = {c} := by
    ext e
    rw [mem_specialBytes, List.mem_replicate, Finset.mem_singleton]
    constructor
    · rintro ⟨⟨-, rfl⟩, -⟩
      rfl
    · rintro rfl
      exact ⟨⟨by decide, rfl⟩, hc⟩
  rw [h.card, hspecial, Finset.card_singleton]
  exact Nat.min_eq_right NeZero.one_le

theorem Selected.exists_replicate [NeZero cnt] (h : Selected (List.replicate 255 c) out)
    (hc : thresh ≤ c.toNat) : ∃ b, out b = c ∧ out b ≠ 0 := by
  have hpos : 0 < (Finset.univ.filter fun b => out b ≠ 0).card := by
    rw [h.card_replicate hc]
    exact Nat.one_pos
  obtain ⟨b, hb⟩ := Finset.card_pos.mp hpos
  have hne := (Finset.mem_filter.mp hb).2
  exact ⟨b, h.replicate hne, hne⟩

theorem Selected.two_le_card (h : Selected part out) (hcnt : 2 ≤ cnt) (hne : c ≠ d)
    (hc : thresh ≤ c.toNat) (hd : thresh ≤ d.toNat) (hcmem : c ∈ part) (hdmem : d ∈ part) :
    2 ≤ (Finset.univ.filter fun b => out b ≠ 0).card := by
  have hsub : {c, d} ⊆ specialBytes part := by
    intro e he
    rw [mem_specialBytes]
    rcases Finset.mem_insert.mp he with rfl | he
    · exact ⟨hcmem, hc⟩
    · obtain rfl := Finset.mem_singleton.mp he
      exact ⟨hdmem, hd⟩
  have hle := Finset.card_le_card hsub
  rw [Finset.card_pair hne] at hle
  rw [h.card]
  exact Nat.le_min.mpr ⟨hcnt, hle⟩

/-- The most frequent character has the only place. -/
theorem Selected.eq_of_full {out : Fin 1 → Byte} (h : Selected part out) (hc : thresh ≤ c.toNat)
    (hfull : part.count c = 255)
    (hother : ∀ d : Byte, d ≠ c → thresh ≤ d.toNat → part.count d < 255) (b : Fin 1) :
    out b = c := by
  have hmem : c ∈ specialBytes part :=
    mem_specialBytes.mpr ⟨List.count_pos_iff.mp (by omega), hc⟩
  have hpos : 0 < (Finset.univ.filter fun b => out b ≠ 0).card := by
    rw [h.card]
    exact Nat.lt_min.mpr ⟨Nat.one_pos, Finset.card_pos.mpr ⟨c, hmem⟩⟩
  obtain ⟨b', hb'⟩ := Finset.card_pos.mp hpos
  have hb : out b ≠ 0 := by
    rw [Subsingleton.elim b b']
    exact (Finset.mem_filter.mp hb').2
  by_contra hne
  have hleft : ∀ b', out b' ≠ c := by
    intro b'
    rwa [Subsingleton.elim b' b]
  have hle := h.frequent b hb c hc hleft
  have hlt := hother (out b) hne (h.special b hb).1
  omega

variable [NeZero cnt]

theorem diasel_congr {mem mem' : List Byte}
    (h : ∀ a, countLoop mem (fun _ => 0) a = countLoop mem' (fun _ => 0) a) :
    diasel cnt mem = diasel cnt mem' := by
  have hstat : countLoop mem (fun _ => 0) = countLoop mem' fun _ => 0 := funext h
  unfold diasel
  rw [hstat]

theorem diasel_perm_of_count_lt (h₀ : 0 ∉ text) (hperm : text'.Perm text)
    (hcount : ∀ c : Byte, thresh ≤ c.toNat → text.count c < 255) (rest rest' : List Byte) :
    diasel cnt (text' ++ 0 :: rest') = diasel cnt (text ++ 0 :: rest) := by
  have h₀' : 0 ∉ text' := fun hmem => h₀ (hperm.mem_iff.mp hmem)
  obtain ⟨part, hread, hstat, -⟩ := diasel_readFrom cnt rest h₀
  obtain ⟨part', hread', hstat', -⟩ := diasel_readFrom cnt rest' h₀'
  have hall := hread.eq_text hcount
  have hall' := hread'.eq_text fun c hc => by
    rw [hperm.count_eq]
    exact hcount c hc
  apply diasel_congr
  intro a
  rw [hstat, hstat', hall, hall', hperm.count_eq]

/-- The counters when the only special character fills its counter. -/
theorem countLoop_full (h : OrderFree cnt text) (hcnt : cnt ≠ 1) (h₀ : 0 ∉ text)
    (hc : thresh ≤ c.toNat) (hcount : 255 ≤ text.count c) (rest : List Byte)
    (a : Fin (256 - thresh)) :
    countLoop (text ++ 0 :: rest) (fun _ => 0) a = if code a = c then 255 else 0 := by
  obtain ⟨part, hread, hstat, -⟩ := diasel_readFrom cnt rest h₀
  rw [hstat]
  split
  · rename_i heq
    rw [heq]
    exact hread.count_eq_full hc hcount fun d => h.count_lt hc hcount
  · rename_i hne
    have hlt := h c (code a) (Ne.symm hne) hc (thresh_le_code a) hcount
    rw [if_neg hcnt] at hlt
    have hle := hread.count_le (code a)
    omega

/-- The only character that fills its counter has the only place. -/
theorem diasel_one_full (h : OrderFree 1 text) (h₀ : 0 ∉ text) (hc : thresh ≤ c.toNat)
    (hcount : 255 ≤ text.count c) (rest : List Byte) (b : Fin 1) :
    diasel 1 (text ++ 0 :: rest) b = c := by
  obtain ⟨part, hread, -, hselected⟩ := diasel_readFrom 1 rest h₀
  have hother : ∀ d : Byte, d ≠ c → thresh ≤ d.toNat → text.count d < 255 :=
    fun d => h.count_lt hc hcount
  apply hselected.eq_of_full hc (hread.count_eq_full hc hcount hother)
  intro d hne hd
  exact Nat.lt_of_le_of_lt (hread.count_le d) (hother d hne hd)

theorem diasel_perm_of_full (h : OrderFree cnt text) (h₀ : 0 ∉ text) (hperm : text'.Perm text)
    (hc : thresh ≤ c.toNat) (hcount : 255 ≤ text.count c) (rest rest' : List Byte) :
    diasel cnt (text' ++ 0 :: rest') = diasel cnt (text ++ 0 :: rest) := by
  have h₀' : 0 ∉ text' := fun hmem => h₀ (hperm.mem_iff.mp hmem)
  have hcount' : 255 ≤ text'.count c := by rwa [hperm.count_eq]
  have h' := h.perm hperm
  by_cases hcnt : cnt = 1
  · subst hcnt
    ext b
    rw [diasel_one_full h h₀ hc hcount, diasel_one_full h' h₀' hc hcount']
  · apply diasel_congr
    intro a
    rw [countLoop_full h hcnt h₀ hc hcount, countLoop_full h' hcnt h₀' hc hcount']

/-- A character that stands 255 times in front is the only one that is selected. -/
theorem selected_replicate (hc : thresh ≤ c.toNat) (h₀ : 0 ∉ List.replicate 255 c ++ text)
    (rest : List Byte) :
    Selected (List.replicate 255 c) (diasel cnt (List.replicate 255 c ++ text ++ 0 :: rest)) := by
  obtain ⟨part, hread, -, hselected⟩ := diasel_readFrom cnt rest h₀
  rwa [hread.unique (readFrom_replicate hc text)] at hselected

theorem two_le_card_selected (hcnt : 2 ≤ cnt) (hc : thresh ≤ c.toNat) (hd : thresh ≤ d.toNat)
    (hcount : 255 ≤ (d :: text).count c) (hlt : (d :: text).count d < 255)
    (h₀ : 0 ∉ d :: text) (rest : List Byte) :
    2 ≤ (Finset.univ.filter fun b => diasel cnt (d :: text ++ 0 :: rest) b ≠ 0).card := by
  obtain ⟨part, hread, -, hselected⟩ := diasel_readFrom cnt rest h₀
  obtain ⟨e, he, hfull⟩ := hread.exists_full hc hcount
  have hne : e ≠ d := by
    rintro rfl
    exact absurd (hread.count_le e) (by omega)
  have hemem : e ∈ part := List.count_pos_iff.mp (by omega)
  have hdmem : d ∈ part := by
    obtain ⟨f, part, rfl⟩ := List.exists_cons_of_ne_nil (List.ne_nil_of_mem hemem)
    rw [(List.cons_prefix_cons.mp hread.isPrefix).1]
    exact List.mem_cons_self
  exact hselected.two_le_card hcnt hne he hd hemem hdmem

theorem selected_of_perm (hperm : ∀ text', text'.Perm text →
      diasel cnt (text' ++ 0 :: []) = diasel cnt (text ++ 0 :: [])) (h₀ : 0 ∉ text)
    (hc : thresh ≤ c.toNat) (hcount : 255 ≤ text.count c) :
    Selected (List.replicate 255 c) (diasel cnt (text ++ 0 :: [])) := by
  obtain ⟨text', hfront⟩ := (List.replicate_sublist_iff.mpr hcount).exists_perm_append
  have h₀' : 0 ∉ List.replicate 255 c ++ text' := fun hmem => h₀ (hfront.mem_iff.mpr hmem)
  rw [← hperm _ hfront.symm]
  exact selected_replicate hc h₀' []

theorem eq_of_perm_full (hperm : ∀ text', text'.Perm text →
      diasel cnt (text' ++ 0 :: []) = diasel cnt (text ++ 0 :: [])) (h₀ : 0 ∉ text)
    (hc : thresh ≤ c.toNat) (hd : thresh ≤ d.toNat) (hcount : 255 ≤ text.count c)
    (hcount' : 255 ≤ text.count d) : c = d := by
  obtain ⟨b, hb, hne⟩ := (selected_of_perm hperm h₀ hc hcount).exists_replicate hc
  exact hb.symm.trans ((selected_of_perm hperm h₀ hd hcount').replicate hne)

end Orders

/-- `diasel` selects the same characters from all orders of a text exactly when no counter gets
full that could keep another character from its place. -/
theorem diasel_perm_iff (cnt : ℕ) [NeZero cnt] {text : List Byte} (h₀ : 0 ∉ text) :
    (∀ text' rest rest', text'.Perm text →
      diasel cnt (text' ++ 0 :: rest') = diasel cnt (text ++ 0 :: rest)) ↔ OrderFree cnt text := by
  constructor
  · intro h c d hne hc hd hcount
    have hperm : ∀ text', text'.Perm text →
        diasel cnt (text' ++ 0 :: []) = diasel cnt (text ++ 0 :: []) :=
      fun text' => h text' [] []
    have hlt : text.count d < 255 := by
      by_contra hge
      exact hne (eq_of_perm_full hperm h₀ hc hd hcount (Nat.le_of_not_lt hge))
    split
    · exact hlt
    · rename_i hcnt
      by_contra hge
      have hmem : d ∈ text := List.count_pos_iff.mp (by omega)
      have hfront := List.perm_cons_erase hmem
      have h₀' : 0 ∉ d :: text.erase d := fun hmem => h₀ (hfront.mem_iff.mpr hmem)
      have hcard := (selected_of_perm hperm h₀ hc hcount).card_replicate hc
      rw [← hperm _ hfront.symm] at hcard
      have htwo : 2 ≤ cnt := by
        have := NeZero.one_le (n := cnt)
        omega
      have hcard' := two_le_card_selected htwo hc hd (by rwa [← hfront.count_eq])
        (by rwa [← hfront.count_eq]) h₀' []
      omega
  · intro h text' rest rest' hperm
    by_cases hfull : ∃ c : Byte, thresh ≤ c.toNat ∧ 255 ≤ text.count c
    · obtain ⟨c, hc, hcount⟩ := hfull
      exact diasel_perm_of_full h h₀ hperm hc hcount rest rest'
    · push Not at hfull
      exact diasel_perm_of_count_lt h₀ hperm hfull rest rest'

theorem diasel_perm_sample :
    [0xe9, 0xe1, 0x61, 0xe1].Perm [(0xe1 : Byte), 0x61, 0xe9, 0xe1] ∧
      diasel 2 ([0xe9, 0xe1, 0x61, 0xe1] ++ 0 :: []) =
        diasel 2 ([0xe1, 0x61, 0xe9, 0xe1] ++ 0 :: []) := by
  have hperm : [0xe9, 0xe1, 0x61, 0xe1].Perm [(0xe1 : Byte), 0x61, 0xe9, 0xe1] := by decide
  refine ⟨hperm, (diasel_perm_iff 2 (by decide)).mpr ?_ _ [] [] hperm⟩
  intro c d _ _ _ hcount
  have hle : List.count c [0xe1, 0x61, 0xe9, 0xe1] ≤ 4 := List.count_le_length
  omega

/-- A character is selected in front of one that fills its counter, but not behind it. -/
theorem diasel_order_full :
    0 ∉ List.replicate 255 (0xe1 : Byte) ++ [0xe9] ∧
      (0xe9 :: List.replicate 255 (0xe1 : Byte)).Perm (List.replicate 255 0xe1 ++ [0xe9]) ∧
      diasel 2 (0xe9 :: List.replicate 255 0xe1 ++ 0 :: []) ≠
        diasel 2 (List.replicate 255 0xe1 ++ [0xe9] ++ 0 :: []) := by
  have h₀ : 0 ∉ List.replicate 255 (0xe1 : Byte) ++ [0xe9] := by
    rw [List.mem_append, List.mem_replicate, List.mem_singleton]
    decide
  have hperm : (0xe9 :: List.replicate 255 (0xe1 : Byte)).Perm
      (List.replicate 255 0xe1 ++ [0xe9]) := (List.perm_append_singleton _ _).symm
  refine ⟨h₀, hperm, fun heq => ?_⟩
  have hselected : Selected (List.replicate 255 0xe1)
      (diasel 2 (List.replicate 255 0xe1 ++ [0xe9] ++ 0 :: [])) :=
    selected_replicate (by decide) h₀ []
  have hone := hselected.card_replicate (by decide)
  have hcount : 255 ≤ (0xe9 :: List.replicate 255 (0xe1 : Byte)).count 0xe1 := by
    rw [List.count_cons_of_ne (by decide), List.count_replicate_self]
  have hlt : (0xe9 :: List.replicate 255 (0xe1 : Byte)).count 0xe9 < 255 := by
    rw [List.count_cons_self, List.count_replicate]
    decide
  have htwo := two_le_card_selected (Nat.le_refl 2) (by decide) (by decide) hcount hlt
    (fun hmem => h₀ (hperm.mem_iff.mp hmem)) []
  rw [heq, hone] at htwo
  omega

end CollectedSources.Diasel.Select
