import CollectedSources.Machine.Run
import CollectedSources.Renames.LogRaw
import Mathlib

/-! # Similarities of composed renames

A composed rename is stored with the product of two similarities in per cent,
rounded down. Nothing keeps it above zero, so a long chain of renames loses its
similarity.
-/

namespace CollectedSources.LogRaw

open Machine

/-- A rename as `git log -M30` reports it. -/
abbrev Reported := {r : Rename // 30 ≤ r.similarity.toNat ∧ r.similarity.toNat ≤ 100}

/-- The map of the renames, and for each old path the renames its entry was made from. -/
structure Tracked where
  renames : RenameMap
  chain : Path → List Rename

/-- The renames from a path to another one. -/
def Linked : Path → List Rename → Path → Prop
  | f, [], g => f = g
  | f, r :: rs, g => r.oldFile = f ∧ Linked r.newFile rs g

/-- The loop of `between` with the chains of its entries. -/
def track (s : Tracked) (r : Reported) : Option Tracked :=
  some {
    renames := processRename s.renames r
    chain :=
      match s.renames.lookup r.1.newFile with
      | some final =>
        if r.1.oldFile ≠ final.path ∧ r.1.oldFile ∉ s.renames.erase r.1.newFile then
          Function.update s.chain r.1.oldFile (r.1 :: s.chain r.1.newFile)
        else s.chain
      | none =>
        if r.1.oldFile ∉ s.renames then Function.update s.chain r.1.oldFile [r.1] else s.chain }

def trackInit : Tracked := ⟨∅, fun _ => []⟩

/-- A similarity is one of a rename, and not more than that of any rename of the chain. -/
structure Meaningful (info : RenameInfo) (chain : List Rename) : Prop where
  pos : 1 ≤ info.similarity.toNat
  percent : info.similarity.toNat ≤ 100
  chain_le : ∀ r ∈ chain, info.similarity ≤ r.similarity

/-- All stored similarities are meaningful, for the chain of their entry. -/
def AllMeaningful (s : Tracked) : Prop :=
  ∀ f info, s.renames.lookup f = some info →
    Linked f (s.chain f) info.path ∧ Meaningful info (s.chain f)

/-- The product for a rename fits an `unsigned`. -/
def NoOverflow (s : Tracked) (r : Reported) : Prop :=
  ∀ final, s.renames.lookup r.1.newFile = some final → r.1.oldFile ≠ final.path →
    final.similarity.toNat * r.1.similarity.toNat < 2 ^ 32

/-- A rename that is composed with a stored one leaves one per cent at least. -/
def Similar (s : Tracked) (r : Reported) : Prop :=
  ∀ final, s.renames.lookup r.1.newFile = some final → r.1.oldFile ≠ final.path →
    r.1.oldFile ∉ s.renames.erase r.1.newFile →
      100 ≤ final.similarity.toNat * r.1.similarity.toNat

theorem run_track_renames {s s' : Tracked} {log : List Reported}
    (h : run track s log = some s') :
    s'.renames = (log.map Subtype.val).foldl processRename s.renames := by
  induction log generalizing s with
  | nil =>
    obtain rfl := Option.some.inj h
    rfl
  | cons r log ih => exact ih h

theorem toNat_composed {a b : UInt32} (h : a.toNat * b.toNat < 2 ^ 32) :
    (a * b / 100).toNat = a.toNat * b.toNat / 100 := by
  rw [UInt32.toNat_div, UInt32.toNat_mul, Nat.mod_eq_of_lt h]
  rfl

theorem track_cases {s s' : Tracked} {r : Reported} (h : s' ∈ track s r) (f : Path) :
    (∃ final, s.renames.lookup r.1.newFile = some final ∧ r.1.oldFile ≠ final.path ∧
        r.1.oldFile ∉ s.renames.erase r.1.newFile ∧ f = r.1.oldFile ∧
        s'.renames.lookup f = some ⟨final.path, final.similarity * r.1.similarity / 100⟩ ∧
        s'.chain f = r.1 :: s.chain r.1.newFile) ∨
      (f = r.1.oldFile ∧ s'.renames.lookup f = some ⟨r.1.newFile, r.1.similarity⟩ ∧
        s'.chain f = [r.1]) ∨
      ((s'.renames.lookup f = s.renames.lookup f ∨ s'.renames.lookup f = none) ∧
        s'.chain f = s.chain f) := by
  obtain rfl := Option.some.inj h
  dsimp only
  unfold processRename
  cases hn : s.renames.lookup r.1.newFile with
  | none =>
    dsimp only
    unfold emplace
    by_cases ho : r.1.oldFile ∈ s.renames
    · simp [ho]
    · by_cases hf : f = r.1.oldFile
      · subst hf
        simp [ho]
      · simp [ho, hf, Finmap.lookup_insert_of_ne _ hf]
  | some final =>
    have herase : (s.renames.erase r.1.newFile).lookup f = s.renames.lookup f ∨
        (s.renames.erase r.1.newFile).lookup f = none := by
      by_cases hf : f = r.1.newFile
      · exact Or.inr (hf ▸ Finmap.lookup_erase _ _)
      · exact Or.inl (Finmap.lookup_erase_ne hf)
    dsimp only
    unfold emplace
    by_cases hp : r.1.oldFile = final.path
    · refine Or.inr (Or.inr ?_)
      rw [if_neg (not_not.mpr hp), if_neg (fun h => h.1 hp)]
      exact ⟨herase, rfl⟩
    · by_cases ho : r.1.oldFile ∈ s.renames.erase r.1.newFile
      · refine Or.inr (Or.inr ?_)
        rw [if_pos hp, if_pos ho, if_neg (fun h => h.2 ho)]
        exact ⟨herase, rfl⟩
      · rw [if_pos hp, if_neg ho, if_pos ⟨hp, ho⟩]
        by_cases hf : f = r.1.oldFile
        · subst hf
          exact Or.inl ⟨final, rfl, hp, ho, rfl, Finmap.lookup_insert _,
            Function.update_self _ _ _⟩
        · refine Or.inr (Or.inr ?_)
          rw [Finmap.lookup_insert_of_ne _ hf, Function.update_of_ne hf]
          exact ⟨herase, rfl⟩

variable {s s' : Tracked} {r : Reported}

theorem product_lt {a b : ℕ} (ha : a ≤ 100) (hb : b ≤ 100) : a * b < 2 ^ 32 := by
  calc
    a * b ≤ 100 * 100 := Nat.mul_le_mul ha hb
    _ < 2 ^ 32 := by norm_num

theorem noOverflow_of_allMeaningful (h : AllMeaningful s) : NoOverflow s r :=
  fun _ hfinal _ => product_lt (h _ _ hfinal).2.percent r.2.2

theorem Meaningful.composed {final : RenameInfo} {chain : List Rename}
    (h : Meaningful final chain) (hsim : 100 ≤ final.similarity.toNat * r.1.similarity.toNat) :
    Meaningful ⟨final.path, final.similarity * r.1.similarity / 100⟩ (r.1 :: chain) := by
  have hvalue : (final.similarity * r.1.similarity / 100).toNat =
      final.similarity.toNat * r.1.similarity.toNat / 100 :=
    toNat_composed (product_lt h.percent r.2.2)
  have hfinal : final.similarity.toNat * r.1.similarity.toNat / 100 ≤ final.similarity.toNat :=
    Nat.div_le_of_le_mul (by rw [Nat.mul_comm]; exact Nat.mul_le_mul_right _ r.2.2)
  have hrename : final.similarity.toNat * r.1.similarity.toNat / 100 ≤ r.1.similarity.toNat :=
    Nat.div_le_of_le_mul (Nat.mul_le_mul_right _ h.percent)
  refine ⟨?_, ?_, ?_⟩
  · rw [hvalue]
    exact Nat.div_pos hsim (by norm_num)
  · rw [hvalue]
    exact hfinal.trans h.percent
  · intro link hlink
    rw [UInt32.le_iff_toNat_le, hvalue]
    rcases List.mem_cons.mp hlink with rfl | hlink
    · exact hrename
    · exact hfinal.trans (UInt32.le_iff_toNat_le.mp (h.chain_le link hlink))

theorem allMeaningful_track (h : AllMeaningful s) (hsim : Similar s r) (hs' : s' ∈ track s r) :
    AllMeaningful s' := by
  intro f info hinfo
  rcases track_cases hs' f with ⟨final, hfinal, hp, ho, rfl, hentry, hchain⟩ |
    ⟨rfl, hentry, hchain⟩ | ⟨hentry, hchain⟩
  · obtain rfl := Option.some.inj (hentry.symm.trans hinfo)
    obtain ⟨hlinked, hmean⟩ := h _ _ hfinal
    rw [hchain]
    exact ⟨⟨rfl, hlinked⟩, hmean.composed (hsim final hfinal hp ho)⟩
  · obtain rfl := Option.some.inj (hentry.symm.trans hinfo)
    rw [hchain]
    refine ⟨⟨rfl, rfl⟩, ?_, r.2.2, ?_⟩
    · exact le_trans (by norm_num) r.2.1
    · intro link hlink
      rw [List.mem_singleton.mp hlink]
      exact UInt32.le_refl _
  · rw [hchain]
    rcases hentry with hentry | hentry
    · exact h f info (hentry ▸ hinfo)
    · rw [hentry] at hinfo
      cases hinfo

theorem similar_of_allMeaningful (h : AllMeaningful s)
    (hnext : ∀ s' ∈ track s r, AllMeaningful s') : Similar s r := by
  intro final hfinal hp ho
  have hentry : (processRename s.renames r).lookup r.1.oldFile =
      some ⟨final.path, final.similarity * r.1.similarity / 100⟩ := by
    unfold processRename emplace
    rw [hfinal]
    dsimp only
    rw [if_pos hp, if_neg ho, Finmap.lookup_insert]
  have hpos := (hnext _ rfl _ _ hentry).2.pos
  rw [toNat_composed (noOverflow_of_allMeaningful h final hfinal hp)] at hpos
  exact (Nat.div_pos_iff.mp hpos).2

/--
All similarities stored along a log are meaningful exactly when no composition leaves less than
one per cent.
-/
theorem similarities_meaningful_iff (log : List Reported) :
    Along track AllMeaningful NoOverflow trackInit log ↔ AllSteps track Similar trackInit log := by
  have hinit : AllMeaningful trackInit := by
    intro f info hinfo
    simp [trackInit] at hinfo
  refine along_iff_allSteps (fun _ h => h) (fun s r h hsim => ?_) (fun s r h _ hnext => ?_) hinit
  · exact ⟨noOverflow_of_allMeaningful h, fun _ hs' => allMeaningful_track h hsim hs'⟩
  · exact similar_of_allMeaningful h hnext

/-- Four renames of a file, the newest first. -/
def fourRenames : List Reported :=
  [⟨⟨30, ['d'], ['e']⟩, by decide⟩, ⟨⟨30, ['c'], ['d']⟩, by decide⟩,
    ⟨⟨30, ['b'], ['c']⟩, by decide⟩, ⟨⟨30, ['a'], ['b']⟩, by decide⟩]

/-- The four renames are reported as one of similarity zero. -/
theorem fourRenames_lose_similarity :
    (between (fourRenames.map Subtype.val)).lookup ['a'] = some ⟨['e'], 0⟩ ∧
      ¬ Along track AllMeaningful NoOverflow trackInit fourRenames := by
  have hentry : (between (fourRenames.map Subtype.val)).lookup ['a'] = some ⟨['e'], 0⟩ := by
    decide +kernel
  refine ⟨hentry, fun h => ?_⟩
  obtain ⟨s', hrun⟩ : ∃ s', run track trackInit fourRenames = some s' := ⟨_, rfl⟩
  have hmean := h.run hrun ['a'] ⟨['e'], 0⟩ ((run_track_renames hrun).symm ▸ hentry)
  exact absurd hmean.2.pos (by decide)

end CollectedSources.LogRaw
