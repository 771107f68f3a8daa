import CollectedSources.Machine.Choices
import CollectedSources.Machine.Memory
import Mathlib

/-! # The two variant generators

Both programs list the spellings of a word that replace letters by similar
looking characters. The C program fills the slots of a buffer by copying the
slots already filled; the Perl program appends to a list of words.
-/

namespace CollectedSources.Variants

open Memory Choices

def byte (c : Char) : UInt8 := c.toNat.toUInt8

def tolower (c : UInt8) : UInt8 := if byte 'A' ≤ c ∧ c ≤ byte 'Z' then c + 32 else c

namespace C

/-- The rows of the table that are not empty. -/
def subsRows : List (UInt8 × List UInt8) :=
  [(byte 'a', [byte '@', byte '4']), (byte 'b', [byte '8']), (byte 'e', [byte '3']),
    (byte 'i', [byte '!']), (byte 'l', [byte '1']), (byte 'o', [byte '0']),
    (byte 's', [byte '$', byte '5']), (byte 't', [byte '7'])]

/-- A row of the table, which has no row for `z` and above. -/
def subs (c : UInt8) : Option (List UInt8) :=
  if c < byte 'z' then some ((subsRows.lookup c).getD []) else none

/-- The body of the innermost loop, on the buffer and the number of words in it. -/
def variant (len0 i : ℕ) (sub : UInt8) (s : List UInt8 × ℕ) (j : ℕ) :
    Option (List UInt8 × ℕ) :=
  let word := j * len0 % 2 ^ 32
  let wordVariant := s.2 * len0 % 2 ^ 32
  (strcpy s.1 wordVariant word).bind fun all =>
    (store all (wordVariant + i) sub).map fun all => (all, (s.2 + 1) % 2 ^ 32)

/-- The buffer and the number of words in it at the end, if all accesses are inside. -/
def getvariants (lower all : List UInt8) (len : ℕ) : Option (List UInt8 × ℕ) :=
  let len0 := (len + 1) % 2 ^ 32
  (List.range len).foldlM (fun s i =>
    (lower[i]?.bind subs).bind fun sub =>
      sub.foldlM (fun s' c => (List.range s.2).foldlM (variant len0 i c) s') s) (all, 1)

/-- The product of the numbers of choices, as `main` computes it. -/
def count (buf : List UInt8) : Option ℕ :=
  buf.foldlM (fun count c => (subs (tolower c)).map fun sub =>
    count * (sub.length + 1) % 2 ^ 32) 1

/-- The number of bytes that `main` asks for. -/
def size (count len : ℕ) : ℕ := count * (len + 1) % 2 ^ 32

/-- The part of the loop of `main` that generates the variants of one word into a buffer. -/
def tryWord (buf all : List UInt8) : Option (List UInt8 × ℕ) :=
  (storeBytes all 0 (buf ++ [0])).bind fun all =>
    getvariants (buf.map tolower) all buf.length

end C

namespace Perl

def subs : List (UInt8 × List UInt8) :=
  [(byte 'a', [byte '@', byte '4']), (byte 'b', [byte '8']), (byte 'e', [byte '3']),
    (byte 'i', [byte '!']), (byte 'l', [byte '1']), (byte 'o', [byte '0']),
    (byte 's', [byte '$', byte '5']), (byte 't', [byte '7'])]

/-- The substitutes of a letter; a letter without entry has none. -/
def substitutes (c : UInt8) : List UInt8 := (subs.lookup (tolower c)).getD []

def getvariants (word : List UInt8) : List (List UInt8) :=
  (List.range word.length).foldl (fun all i =>
    let toAdd := ((word[i]?.map substitutes).getD []).flatMap fun sub =>
      all.map fun c => c.set i sub
    all ++ toAdd) [word]

end Perl

open Perl

theorem perl_getvariants (w : List UInt8) : Perl.getvariants w = variants substitutes w := by
  suffices h : ∀ n, (List.range n).foldl (fun all i =>
      all ++ ((w[i]?.map substitutes).getD []).flatMap fun sub => all.map fun c => c.set i sub)
      [w] = variantsUpTo substitutes w n from h w.length
  intro n
  induction n with
  | zero => rfl
  | succ n ih => rw [List.range_succ, List.foldl_append, ih]; rfl

theorem subs_tolower {c : UInt8} (h : tolower c < byte 'z') :
    C.subs (tolower c) = some (substitutes c) := by
  rw [C.subs, if_pos h]; rfl

theorem substitutes_cases (c : UInt8) :
    substitutes c = [] ∨ ∃ e ∈ Perl.subs, e.1 = tolower c ∧ substitutes c = e.2 := by
  unfold substitutes
  cases h : Perl.subs.lookup (tolower c) with
  | none => exact Or.inl rfl
  | some v =>
    obtain ⟨l₁, l₂, hl, _⟩ := List.lookup_eq_some_iff.mp h
    exact Or.inr ⟨(tolower c, v), by simp [hl], rfl, rfl⟩

theorem zero_not_mem_substitutes (c : UInt8) : 0 ∉ substitutes c := by
  rcases substitutes_cases c with h | ⟨e, he, _, h⟩
  · simp [h]
  · rw [h]
    exact (by decide : ∀ e ∈ Perl.subs, 0 ∉ e.2) e he

theorem nodup_substitutes (c : UInt8) : (substitutes c).Nodup := by
  rcases substitutes_cases c with h | ⟨e, he, _, h⟩
  · simp [h]
  · rw [h]
    exact (by decide : ∀ e ∈ Perl.subs, e.2.Nodup) e he

theorem not_mem_substitutes (c : UInt8) : c ∉ substitutes c := by
  rcases substitutes_cases c with h | ⟨e, he, hc, h⟩
  · simp [h]
  · rw [h]
    exact fun hm => (by decide +kernel : ∀ e ∈ Perl.subs, ∀ s ∈ e.2, e.1 ≠ tolower s) e he c hm hc

/-- Words of one length without zero bytes. -/
def Words (n : ℕ) (ws : List (List UInt8)) : Prop := ∀ w ∈ ws, w.length = n ∧ 0 ∉ w

variable {n i j : ℕ} {ws acc : List (List UInt8)} {all : List UInt8} {c : UInt8}

theorem Words.append (h : Words n ws) (h' : Words n acc) : Words n (ws ++ acc) := by
  intro w hw
  rcases List.mem_append.mp hw with hw | hw
  · exact h w hw
  · exact h' w hw

theorem Words.map_set (h : Words n ws) (hc : c ≠ 0) : Words n (ws.map fun u => u.set i c) := by
  intro w hw
  obtain ⟨u, hu, rfl⟩ := List.mem_map.mp hw
  refine ⟨by simpa using (h u hu).1, fun hz => ?_⟩
  rcases List.mem_or_eq_of_mem_set hz with hz | hz
  · exact (h u hu).2 hz
  · exact hc hz.symm

theorem variant_slots {w : List UInt8} (h : Words n ws) (hs : slots ws <+: all) (hi : i < n)
    (hw : ws[j]? = some w)
    (hr : (ws.length + 1) * (n + 1) ≤ all.length) (hfit : (ws.length + 1) * (n + 1) < 2 ^ 32) :
    ∃ all', C.variant (n + 1) i c (all, ws.length) j = some (all', ws.length + 1) ∧
      slots (ws ++ [w.set i c]) <+: all' ∧ all'.length = all.length := by
  obtain ⟨rest, rfl⟩ := hs
  obtain ⟨hj, rfl⟩ := List.getElem?_eq_some_iff.mp hw
  have hl : (slots ws).length = ws.length * (n + 1) := length_slots fun w hw => (h w hw).1
  have hlen : ws[j].length = n := (h _ (List.getElem_mem hj)).1
  have hm₁ : j * (n + 1) % 2 ^ 32 = j * (n + 1) :=
    Nat.mod_eq_of_lt (Nat.lt_of_le_of_lt (Nat.mul_le_mul_right _ (by omega)) hfit)
  have hm₂ : ws.length * (n + 1) % 2 ^ 32 = (slots ws).length := by
    rw [hl]
    exact Nat.mod_eq_of_lt (Nat.lt_of_le_of_lt (Nat.mul_le_mul_right _ (by omega)) hfit)
  have hm₃ : (ws.length + 1) % 2 ^ 32 = ws.length + 1 :=
    Nat.mod_eq_of_lt (Nat.lt_of_le_of_lt (Nat.le_mul_of_pos_right _ (by omega)) hfit)
  have hrest : n + 1 ≤ rest.length := by
    rw [List.length_append, hl, Nat.add_mul] at hr
    omega
  have hcopy : strcpy (slots ws ++ rest) (slots ws).length (j * (n + 1)) =
      some (slots ws ++ ((ws[j] ++ [0]) ++ rest.drop (n + 1))) := by
    rw [strcpy, cstring_slots h hj, Option.bind_some]
    have he := storeBytes_append (slots ws) (rest.take (n + 1)) (rest.drop (n + 1))
      (ws[j] ++ [0]) (by simp [hlen]; omega)
    rwa [List.take_append_drop] at he
  have hstore := store_append (i := i) (slots ws) (ws[j] ++ [0]) (rest.drop (n + 1)) c
    (by simp [hlen]; omega)
  refine ⟨slots ws ++ ((ws[j] ++ [0]).set i c ++ rest.drop (n + 1)), ?_, ?_, ?_⟩
  · simp only [C.variant, hm₁, hm₂, hm₃, hcopy, Option.bind_some, hstore, Option.map_some]
  · refine ⟨rest.drop (n + 1), ?_⟩
    simp [slots, hlen, hi]
  · simp [hlen]; omega

theorem replaced_words (h : Words n ws) (ha : Words n acc) (hc : c ≠ 0) (hj : j < ws.length) :
    Words n (ws ++ acc ++ (ws.take j).map fun u => u.set i c) ∧
      (ws ++ acc ++ (ws.take j).map fun u => u.set i c).length = (ws ++ acc).length + j ∧
      (ws ++ acc ++ (ws.take j).map fun u => u.set i c)[j]? = some ws[j] := by
  refine ⟨(h.append ha).append (Words.map_set (fun w hw => h w (List.mem_of_mem_take hw)) hc),
    ?_, ?_⟩
  · simp; omega
  · rw [List.append_assoc, List.getElem?_append_left hj, List.getElem?_eq_getElem hj]

theorem variant_loop (h : Words n ws) (ha : Words n acc) (hs : slots (ws ++ acc) <+: all)
    (hi : i < n) (hc : c ≠ 0) (hr : ((ws ++ acc).length + j) * (n + 1) ≤ all.length)
    (hfit : ((ws ++ acc).length + j) * (n + 1) < 2 ^ 32) (hj : j ≤ ws.length) :
    ∃ all', (List.range j).foldlM (C.variant (n + 1) i c) (all, (ws ++ acc).length) =
        some (all', (ws ++ acc).length + j) ∧
      slots (ws ++ acc ++ (ws.take j).map fun u => u.set i c) <+: all' ∧
      all'.length = all.length := by
  induction j with
  | zero => exact ⟨all, by simp, by simpa using hs, rfl⟩
  | succ j ih =>
    have hle : ((ws ++ acc).length + j) * (n + 1) ≤ ((ws ++ acc).length + (j + 1)) * (n + 1) :=
      Nat.mul_le_mul_right _ (by omega)
    obtain ⟨all₁, hf, hs₁, hl₁⟩ := ih (by omega) (by omega) (by omega)
    obtain ⟨hwords, hlen, hw⟩ := replaced_words h ha hc hj
    obtain ⟨all₂, hv, hs₂, hl₂⟩ := variant_slots (c := c) hwords hs₁ hi hw
      (by rw [hlen, hl₁]; exact hr) (by rw [hlen]; exact hfit)
    refine ⟨all₂, ?_, ?_, hl₂.trans hl₁⟩
    · rw [List.range_succ, List.foldlM_append, hf]
      simp only [hlen] at hv
      simpa [Nat.add_assoc] using hv
    · rw [List.append_assoc] at hs₂
      rwa [List.take_succ_eq_append_getElem hj, List.map_append]

theorem subs_loop {subs : List UInt8} (h : Words n ws) (ha : Words n acc)
    (hs : slots (ws ++ acc) <+: all) (hi : i < n) (hz : 0 ∉ subs)
    (hr : ((ws ++ acc).length + subs.length * ws.length) * (n + 1) ≤ all.length)
    (hfit : ((ws ++ acc).length + subs.length * ws.length) * (n + 1) < 2 ^ 32) :
    ∃ all', subs.foldlM (fun s c => (List.range ws.length).foldlM (C.variant (n + 1) i c) s)
        (all, (ws ++ acc).length) = some (all', (ws ++ acc).length + subs.length * ws.length) ∧
      slots (ws ++ acc ++ subs.flatMap fun c => ws.map fun u => u.set i c) <+: all' ∧
      all'.length = all.length := by
  induction subs generalizing all acc with
  | nil => exact ⟨all, by simp, by simpa using hs, rfl⟩
  | cons c subs ih =>
    have hc : c ≠ 0 := by rintro rfl; simp at hz
    have hle : ((ws ++ acc).length + ws.length) * (n + 1) ≤
        ((ws ++ acc).length + (c :: subs).length * ws.length) * (n + 1) := by
      apply Nat.mul_le_mul_right
      rw [List.length_cons, Nat.add_mul]
      omega
    obtain ⟨all₁, hf, hs₁, hl₁⟩ := variant_loop h ha hs hi hc (Nat.le_trans hle hr)
      (Nat.lt_of_le_of_lt hle hfit) (Nat.le_refl _)
    rw [List.take_length, List.append_assoc] at hs₁
    have hlen : (ws ++ (acc ++ ws.map fun u => u.set i c)).length + subs.length * ws.length =
        (ws ++ acc).length + (c :: subs).length * ws.length := by
      simp [Nat.add_mul]; omega
    obtain ⟨all₂, hg, hs₂, hl₂⟩ := ih (ha.append (h.map_set hc)) hs₁
      (fun hm => hz (List.mem_cons_of_mem _ hm)) (by rw [hlen, hl₁]; exact hr)
      (by rw [hlen]; exact hfit)
    refine ⟨all₂, ?_, ?_, hl₂.trans hl₁⟩
    · rw [List.foldlM_cons, hf, ← hlen, ← hg]
      simp [Nat.add_assoc]
    · simpa using hs₂

variable {w : List UInt8}

/-- A word whose letters have rows in the table and whose variants fit the arithmetic. -/
structure InRange (w : List UInt8) : Prop where
  not_zero : 0 ∉ w
  row : ∀ c ∈ w, tolower c < byte 'z'
  fits : (w.map fun c => (substitutes c).length + 1).prod * (w.length + 1) < 2 ^ 32

theorem words_variantsUpTo (hz : 0 ∉ w) (hn : n ≤ w.length) :
    Words w.length (variantsUpTo substitutes w n) := by
  induction n with
  | zero => simpa [Words, variantsUpTo] using hz
  | succ n ih =>
    have ih := ih (by omega)
    intro v hv
    rw [variantsUpTo, List.getElem?_eq_getElem hn, mem_expandAt] at hv
    rcases hv with hv | ⟨s, hs, u, hu, rfl⟩
    · exact ih v hv
    · have hs0 : s ≠ 0 := by rintro rfl; exact zero_not_mem_substitutes _ hs
      exact (ih.map_set hs0) _ (List.mem_map_of_mem hu)

theorem length_variantsUpTo_le (h : i ≤ j) :
    (variantsUpTo substitutes w i).length ≤ (variantsUpTo substitutes w j).length := by
  induction h with
  | refl => exact Nat.le_refl _
  | step _ ih =>
    refine Nat.le_trans ih ?_
    rw [variantsUpTo, length_expandAt]
    exact Nat.le_mul_of_pos_right _ (Nat.succ_pos _)

theorem length_variantsUpTo_succ (hn : n < w.length) :
    (variantsUpTo substitutes w n).length +
        (substitutes w[n]).length * (variantsUpTo substitutes w n).length =
      (variantsUpTo substitutes w (n + 1)).length := by
  rw [variantsUpTo, length_expandAt, List.getElem?_eq_getElem hn]
  simp [Nat.mul_add, Nat.mul_comm, Nat.add_comm]

theorem subs_row (hrows : ∀ c ∈ w, tolower c < byte 'z') (hn : n < w.length) :
    (w.map tolower)[n]?.bind C.subs = some (substitutes w[n]) := by
  rw [List.getElem?_map, List.getElem?_eq_getElem hn]
  exact subs_tolower (hrows _ (List.getElem_mem hn))

theorem getvariants_loop (hz : 0 ∉ w) (hrows : ∀ c ∈ w, tolower c < byte 'z')
    (hs : slots [w] <+: all) (hn : n ≤ w.length)
    (hr : (variantsUpTo substitutes w n).length * (w.length + 1) ≤ all.length)
    (hfit : (variantsUpTo substitutes w n).length * (w.length + 1) < 2 ^ 32) :
    ∃ all', (List.range n).foldlM (fun s i =>
        ((w.map tolower)[i]?.bind C.subs).bind fun sub => sub.foldlM (fun s' c =>
          (List.range s.2).foldlM (C.variant (w.length + 1) i c) s') s) (all, 1) =
        some (all', (variantsUpTo substitutes w n).length) ∧
      slots (variantsUpTo substitutes w n) <+: all' ∧ all'.length = all.length := by
  induction n with
  | zero => exact ⟨all, rfl, hs, rfl⟩
  | succ n ih =>
    have hle := Nat.mul_le_mul_right (w.length + 1)
      (length_variantsUpTo_le (w := w) (Nat.le_succ n))
    obtain ⟨all₁, hf, hs₁, hl₁⟩ := ih (by omega) (Nat.le_trans hle hr) (Nat.lt_of_le_of_lt hle hfit)
    have hlen := length_variantsUpTo_succ hn
    have hws := words_variantsUpTo hz (Nat.le_of_lt hn)
    have hnil : Words w.length [] := by simp [Words]
    rw [← List.append_nil (variantsUpTo substitutes w n)] at hs₁
    obtain ⟨all₂, hg, hs₂, hl₂⟩ := subs_loop hws hnil hs₁ hn (zero_not_mem_substitutes w[n])
      (by rw [List.append_nil, hlen, hl₁]; exact hr) (by rw [List.append_nil, hlen]; exact hfit)
    rw [List.append_nil] at hg hs₂
    refine ⟨all₂, ?_, ?_, hl₂.trans hl₁⟩
    · rw [List.range_succ, List.foldlM_append, hf, ← hlen]
      simp only [Option.bind_eq_bind, Option.bind_some, List.foldlM_cons, List.foldlM_nil,
        subs_row hrows hn, hg, Option.pure_def]
    · rwa [variantsUpTo, List.getElem?_eq_getElem hn]

theorem count_loop {w : List UInt8} (h : ∀ c ∈ w, tolower c < byte 'z') (m : ℕ) :
    w.foldlM (fun count c => (C.subs (tolower c)).map fun sub =>
        count * (sub.length + 1) % 2 ^ 32) (m % 2 ^ 32) =
      some (m * (w.map fun c => (substitutes c).length + 1).prod % 2 ^ 32) := by
  induction w generalizing m with
  | nil => simp
  | cons c w ih =>
    rw [List.foldlM_cons, subs_tolower (h c List.mem_cons_self)]
    simp only [Option.map_some, Option.bind_eq_bind, Option.bind_some, List.map_cons,
      List.prod_cons]
    rw [← Nat.mul_assoc, ← ih (fun d hd => h d (List.mem_cons_of_mem _ hd)), Nat.mod_mul_mod]

theorem variants_length_pos (w : List UInt8) : 0 < (variants substitutes w).length :=
  Nat.lt_of_lt_of_le Nat.one_pos (length_variantsUpTo_le (Nat.zero_le w.length))

theorem InRange.count_eq (h : InRange w) : C.count w = some (variants substitutes w).length := by
  have hc := count_loop h.row 1
  have hlt : (w.map fun c => (substitutes c).length + 1).prod < 2 ^ 32 :=
    Nat.lt_of_le_of_lt (Nat.le_mul_of_pos_right _ (Nat.succ_pos _)) h.fits
  rw [Nat.one_mul, Nat.mod_eq_of_lt hlt, ← length_variants] at hc
  exact hc

theorem map_cstring_slots (h : Words n ws) (hs : slots ws <+: all) :
    (List.range ws.length).map (fun j => cstring all (j * (n + 1))) = ws.map some := by
  obtain ⟨rest, rfl⟩ := hs
  refine List.ext_getElem (by simp) fun j hj hj' => ?_
  simp only [List.length_map] at hj'
  simp only [List.getElem_map, List.getElem_range, cstring_slots h hj']

/-- The C program fills exactly the slots it has counted, with the variants in order. -/
theorem InRange.tryWord_eq (h : InRange w)
    (hr : (variants substitutes w).length * (w.length + 1) ≤ all.length) :
    ∃ all', C.tryWord w all = some (all', (variants substitutes w).length) ∧
      slots (variants substitutes w) <+: all' := by
  have hpos := variants_length_pos w
  have hle : w.length + 1 ≤ (variants substitutes w).length * (w.length + 1) :=
    Nat.le_mul_of_pos_left _ hpos
  have hfit : (variants substitutes w).length * (w.length + 1) < 2 ^ 32 :=
    length_variants ▸ h.fits
  have hlen0 : (w.length + 1) % 2 ^ 32 = w.length + 1 :=
    Nat.mod_eq_of_lt (Nat.lt_of_le_of_lt hle hfit)
  have hstore := storeBytes_append [] (all.take (w.length + 1)) (all.drop (w.length + 1))
    (w ++ [0]) (by simp; omega)
  rw [List.take_append_drop, List.nil_append, List.nil_append] at hstore
  have hs : slots [w] <+: (w ++ [0]) ++ all.drop (w.length + 1) :=
    ⟨all.drop (w.length + 1), by simp [slots]⟩
  obtain ⟨all', hf, hs', _⟩ := getvariants_loop h.not_zero h.row hs (Nat.le_refl _)
    (by rw [← variants]; simp; omega) hfit
  refine ⟨all', ?_, hs'⟩
  rw [C.tryWord, show (0 : ℕ) = ([] : List UInt8).length from rfl, hstore, Option.bind_some,
    C.getvariants, hlen0]
  exact hf

/--
The C program fills as many slots as `main` has counted, and they hold the list that the Perl
program returns, which lists each word that keeps or substitutes every letter exactly once.
-/
theorem getvariants_agree (h : InRange w)
    (hr : ∀ count, C.count w = some count → C.size count w.length ≤ all.length) :
    ∃ count all', C.count w = some count ∧ C.tryWord w all = some (all', count) ∧
      (List.range count).map (fun j => cstring all' (j * (w.length + 1))) =
        (Perl.getvariants w).map some ∧
      (Perl.getvariants w).Nodup ∧
      ∀ v, v ∈ Perl.getvariants w ↔ List.Forall₂ (fun c d => d = c ∨ d ∈ substitutes c) w v := by
  have hsize : C.size (variants substitutes w).length w.length =
      (variants substitutes w).length * (w.length + 1) :=
    Nat.mod_eq_of_lt (length_variants ▸ h.fits)
  obtain ⟨all', ht, hs⟩ := h.tryWord_eq (hsize ▸ hr _ h.count_eq)
  refine ⟨_, all', h.count_eq, ht, ?_, ?_, fun v => ?_⟩
  · rw [perl_getvariants]
    exact map_cstring_slots (words_variantsUpTo h.not_zero (Nat.le_refl _)) hs
  · rw [perl_getvariants]
    exact nodup_variants (fun c _ => nodup_substitutes c) (fun c _ => not_mem_substitutes c)
  · rw [perl_getvariants]
    exact mem_variants

theorem inRange_at : InRange [byte 'a', byte 'T'] := ⟨by decide, by decide +kernel, by decide⟩

theorem getvariants_agree_at :
    InRange [byte 'a', byte 'T'] ∧ ∃ count all',
      C.count [byte 'a', byte 'T'] = some count ∧
      C.tryWord [byte 'a', byte 'T'] (List.replicate 18 255) = some (all', count) ∧
      (List.range count).map (fun j => cstring all' (j * 3)) =
        (Perl.getvariants [byte 'a', byte 'T']).map some := by
  obtain ⟨count, all', hc, ht, hs, _⟩ := @getvariants_agree (List.replicate 18 255) _
    inRange_at (by decide)
  exact ⟨inRange_at, count, all', hc, ht, hs⟩

end CollectedSources.Variants
