import CollectedSources.Variants.Generators
import Mathlib

/-! # The buffer for the variants of a line

`main` takes a word from a line, counts its variants in 32 bits and asks for as
many bytes as they need. The table of substitutes and the buffer are large
enough for some lines only.
-/

namespace CollectedSources.Variants

open Memory Choices Perl

def newline : UInt8 := byte '\n'

/-- A line as `fgets` stores it, without the zero byte at its end. -/
structure Line where
  bytes : List UInt8
  pos : 0 < bytes.length
  length_le : bytes.length ≤ 39
  newline_last : newline ∉ bytes.dropLast

namespace C

/-- The word in `buf` and its length after the test for the newline, if `buf[len - 1]` is inside
`buf`. -/
def chomp (bytes : List UInt8) : Option (List UInt8) :=
  let word := bytes.takeWhile (· ≠ 0)
  word.getLast?.map fun c => if c = newline then word.dropLast else word

end C

/-- All accesses of `main` and of `getvariants` are inside the table and inside the bytes that
`main` asks for. -/
def Safe (word : List UInt8) : Prop :=
  ∃ count, C.count word = some count ∧
    ∀ all : List UInt8, all.length = C.size count word.length → (C.tryWord word all).isSome

variable {n i j : ℕ} {ws acc : List (List UInt8)} {all : List UInt8} {c : UInt8}

theorem variant_eq_none {w : List UInt8} (h : Words n ws) (hs : slots ws <+: all)
    (hw : ws[j]? = some w) (hfit : all.length < 2 ^ 32)
    (hr : all.length < (ws.length + 1) * (n + 1)) :
    C.variant (n + 1) i c (all, ws.length) j = none := by
  have hlen : (slots ws).length = ws.length * (n + 1) := length_slots fun w hw => (h w hw).1
  obtain ⟨rest, rfl⟩ := hs
  obtain ⟨hj, rfl⟩ := List.getElem?_eq_some_iff.mp hw
  rw [List.length_append, hlen] at hfit hr
  have hjle : j * (n + 1) ≤ ws.length * (n + 1) := Nat.mul_le_mul_right _ (Nat.le_of_lt hj)
  have hmod₁ : j * (n + 1) % 2 ^ 32 = j * (n + 1) := Nat.mod_eq_of_lt (by omega)
  have hmod₂ : ws.length * (n + 1) % 2 ^ 32 = ws.length * (n + 1) := Nat.mod_eq_of_lt (by omega)
  have hcopy : strcpy (slots ws ++ rest) (ws.length * (n + 1)) (j * (n + 1)) = none := by
    rw [strcpy, cstring_slots h hj, Option.bind_some, storeBytes, if_neg]
    rw [List.length_append, List.length_append, hlen, (h _ (List.getElem_mem hj)).1,
      List.length_singleton]
    rw [Nat.add_mul] at hr
    omega
  simp only [C.variant, hmod₁, hmod₂, hcopy, Option.bind_none]

theorem variant_loop_eq_none (h : Words n ws) (ha : Words n acc)
    (hs : slots (ws ++ acc) <+: all) (hi : i < n) (hc : c ≠ 0) (hfit : all.length < 2 ^ 32)
    (hj : j ≤ ws.length) (hr : all.length < ((ws ++ acc).length + j) * (n + 1)) :
    (List.range j).foldlM (C.variant (n + 1) i c) (all, (ws ++ acc).length) = none := by
  induction j with
  | zero =>
    obtain ⟨rest, rfl⟩ := hs
    simp only [Nat.add_zero] at hr
    rw [List.length_append, length_slots fun w hw => (h.append ha w hw).1] at hr
    omega
  | succ j ih =>
    rw [List.range_succ, List.foldlM_append]
    rcases Nat.lt_or_ge all.length (((ws ++ acc).length + j) * (n + 1)) with hlt | hge
    · rw [ih (by omega) hlt]
      rfl
    · obtain ⟨all', hf, hs', hl'⟩ := variant_loop h ha hs hi hc hge (by omega) (by omega)
      obtain ⟨hwords, hlen, hw⟩ := replaced_words (i := i) h ha hc hj
      have hnone := variant_eq_none (i := i) (c := c) hwords hs' hw (by omega)
        (by rw [hlen, hl']; exact hr)
      rw [hlen] at hnone
      rw [hf]
      simp only [Option.bind_eq_bind, Option.bind_some, List.foldlM_cons, hnone, Option.bind_none]

theorem subs_loop_eq_none {subs : List UInt8} (h : Words n ws) (ha : Words n acc)
    (hs : slots (ws ++ acc) <+: all) (hi : i < n) (hz : 0 ∉ subs) (hfit : all.length < 2 ^ 32)
    (hr : all.length < ((ws ++ acc).length + subs.length * ws.length) * (n + 1)) :
    subs.foldlM (fun s c => (List.range ws.length).foldlM (C.variant (n + 1) i c) s)
      (all, (ws ++ acc).length) = none := by
  induction subs generalizing all acc with
  | nil =>
    obtain ⟨rest, rfl⟩ := hs
    rw [List.length_append, length_slots fun w hw => (h.append ha w hw).1] at hr
    simp at hr
  | cons c subs ih =>
    have hc : c ≠ 0 := by rintro rfl; simp at hz
    rw [List.foldlM_cons]
    rcases Nat.lt_or_ge all.length (((ws ++ acc).length + ws.length) * (n + 1)) with hlt | hge
    · rw [variant_loop_eq_none h ha hs hi hc hfit (Nat.le_refl _) hlt]
      rfl
    · obtain ⟨all₁, hf, hs₁, hl₁⟩ := variant_loop h ha hs hi hc hge (by omega) (Nat.le_refl _)
      rw [List.take_length, List.append_assoc] at hs₁
      have hlen : (ws ++ (acc ++ ws.map fun u => u.set i c)).length + subs.length * ws.length =
          (ws ++ acc).length + (c :: subs).length * ws.length := by
        simp [Nat.add_mul]; omega
      have hnone := ih (ha.append (h.map_set hc)) hs₁ (fun hm => hz (List.mem_cons_of_mem _ hm))
        (by omega) (by rw [hlen, hl₁]; exact hr)
      rw [hf]
      simpa [Nat.add_assoc] using hnone

variable {w : List UInt8}

theorem getvariants_loop_eq_none (hz : 0 ∉ w) (hrows : ∀ c ∈ w, tolower c < byte 'z')
    (hs : slots [w] <+: all) (hn : n ≤ w.length) (hfit : all.length < 2 ^ 32)
    (hr : all.length < (variantsUpTo substitutes w n).length * (w.length + 1)) :
    (List.range n).foldlM (fun s i =>
      ((w.map tolower)[i]?.bind C.subs).bind fun sub => sub.foldlM (fun s' c =>
        (List.range s.2).foldlM (C.variant (w.length + 1) i c) s') s) (all, 1) = none := by
  induction n with
  | zero =>
    obtain ⟨rest, rfl⟩ := hs
    simp [slots, variantsUpTo] at hr
  | succ n ih =>
    rw [List.range_succ, List.foldlM_append]
    rcases Nat.lt_or_ge all.length ((variantsUpTo substitutes w n).length * (w.length + 1))
      with hlt | hge
    · rw [ih (by omega) hlt]
      rfl
    · obtain ⟨all₁, hf, hs₁, hl₁⟩ := getvariants_loop hz hrows hs (Nat.le_of_lt hn) hge (by omega)
      have hlen := length_variantsUpTo_succ hn
      have hnil : Words w.length [] := by simp [Words]
      rw [← List.append_nil (variantsUpTo substitutes w n)] at hs₁
      have hnone := subs_loop_eq_none (words_variantsUpTo hz (Nat.le_of_lt hn)) hnil hs₁ hn
        (zero_not_mem_substitutes w[n]) (by omega)
        (by rw [List.append_nil, hlen, hl₁]; exact hr)
      rw [List.append_nil] at hnone
      rw [hf]
      simp only [Option.bind_eq_bind, Option.bind_some, List.foldlM_cons,
        subs_row hrows hn, hnone, Option.bind_none]

theorem tryWord_eq_none (hz : 0 ∉ w) (hrows : ∀ c ∈ w, tolower c < byte 'z')
    (hfit : all.length < 2 ^ 32)
    (hr : all.length < (variants substitutes w).length * (w.length + 1)) :
    C.tryWord w all = none := by
  rw [C.tryWord]
  by_cases hlen : w.length + 1 ≤ all.length
  · have hlen0 : (w.length + 1) % 2 ^ 32 = w.length + 1 := Nat.mod_eq_of_lt (by omega)
    have hstore := storeBytes_append [] (all.take (w.length + 1)) (all.drop (w.length + 1))
      (w ++ [0]) (by simp; omega)
    rw [List.take_append_drop, List.nil_append, List.nil_append, List.length_nil] at hstore
    have hs : slots [w] <+: (w ++ [0]) ++ all.drop (w.length + 1) :=
      ⟨all.drop (w.length + 1), by simp [slots]⟩
    have hall : ((w ++ [0]) ++ all.drop (w.length + 1)).length = all.length := by
      simp; omega
    rw [hstore, Option.bind_some, C.getvariants, hlen0]
    exact getvariants_loop_eq_none hz hrows hs (Nat.le_refl _) (by omega) (by rw [hall]; exact hr)
  · rw [storeBytes, if_neg (by simpa using hlen), Option.bind_none]

theorem rows_of_count {count : ℕ} (h : C.count w = some count) :
    ∀ c ∈ w, tolower c < byte 'z' := by
  have hloop : ∀ (w : List UInt8) (m : ℕ), w.foldlM (fun count c =>
      (C.subs (tolower c)).map fun sub => count * (sub.length + 1) % 2 ^ 32) m = some count →
      ∀ c ∈ w, tolower c < byte 'z' := by
    intro w
    induction w with
    | nil => simp
    | cons c w ih =>
      intro m hm
      rw [List.foldlM_cons, C.subs] at hm
      by_cases hc : tolower c < byte 'z'
      · rw [if_pos hc] at hm
        intro d hd
        rcases List.mem_cons.mp hd with rfl | hd
        · exact hc
        · exact ih _ hm d hd
      · rw [if_neg hc] at hm
        cases hm
  exact hloop w 1 h

theorem zero_not_mem_of_chomp {bytes : List UInt8} (h : C.chomp bytes = some w) : 0 ∉ w := by
  have hword : (0 : UInt8) ∉ bytes.takeWhile (· ≠ 0) := by
    intro hmem
    simpa using List.mem_takeWhile_imp hmem
  obtain ⟨c, -, rfl⟩ := Option.map_eq_some_iff.mp h
  split
  · exact fun hmem => hword (List.mem_of_mem_dropLast hmem)
  · exact hword

/-- The accesses for a word are safe if and only if its letters have rows in the table and the
number of bytes for its variants does not wrap around. -/
theorem safe_iff_inRange (hz : 0 ∉ w) : Safe w ↔ InRange w := by
  constructor
  · rintro ⟨count, hcount, hall⟩
    have hrows := rows_of_count hcount
    refine ⟨hz, hrows, ?_⟩
    by_contra hfits
    have hsome := hall (List.replicate (C.size count w.length) 0) (List.length_replicate ..)
    have hlt : C.size count w.length < 2 ^ 32 := Nat.mod_lt _ (by decide)
    rw [tryWord_eq_none hz hrows (by simpa using hlt)] at hsome
    · cases hsome
    · rw [List.length_replicate, length_variants]
      omega
  · intro h
    refine ⟨_, h.count_eq, fun all hall => ?_⟩
    have hsize : C.size (variants substitutes w).length w.length =
        (variants substitutes w).length * (w.length + 1) :=
      Nat.mod_eq_of_lt (length_variants ▸ h.fits)
    obtain ⟨all', hword, -⟩ := h.tryWord_eq (Nat.le_of_eq (hall.trans hsize).symm)
    rw [hword]
    rfl

/-- The line of a run is handled inside the table and the buffer if and only if all letters of
its word have rows in the table and the bytes for its variants are less than 2 ^ 32. -/
theorem line_safe_iff (line : Line) :
    (∀ word, C.chomp line.bytes = some word → Safe word) ↔
      ∀ word, C.chomp line.bytes = some word →
        (∀ c ∈ word, tolower c < byte 'z') ∧
          (word.map fun c => (substitutes c).length + 1).prod * (word.length + 1) < 2 ^ 32 := by
  refine forall_congr' fun word => forall_congr' fun hword => ?_
  have hz := zero_not_mem_of_chomp hword
  rw [safe_iff_inRange hz]
  exact ⟨fun h => ⟨h.row, h.fits⟩, fun h => ⟨hz, h.1, h.2⟩⟩

/-- The line `zoo`. -/
def zooLine : Line where
  bytes := [byte 'z', byte 'o', byte 'o', newline]
  pos := by decide
  length_le := by decide
  newline_last := by decide

theorem not_safe_zooLine :
    ∃ word, C.chomp zooLine.bytes = some word ∧ ¬ Safe word := by
  refine ⟨[byte 'z', byte 'o', byte 'o'], by decide, ?_⟩
  rintro ⟨count, hcount, -⟩
  have hnone : C.count [byte 'z', byte 'o', byte 'o'] = none := by decide
  rw [hnone] at hcount
  cases hcount

end CollectedSources.Variants
