import Mathlib.Data.Finmap
import CollectedSources.Renames.History

/-! # Composing the renames of a log

The loop of `between` reads the renames of a range newest first and keeps one
map from old paths to final paths. It composes the range as long as no rename
finds the entry of its old path taken, or its new path already followed by
a more recent rename.
-/

namespace CollectedSources.LogRaw

open History

abbrev Path := List Char

structure RenameInfo where
  path : Path
  similarity : UInt32
  deriving DecidableEq, Repr

/-- The fields of one parsed line of the raw log. -/
structure Rename where
  similarity : UInt32
  oldFile : Path
  newFile : Path
  deriving DecidableEq, Repr

abbrev RenameMap := Finmap fun _ : Path => RenameInfo

/-- Insert an entry unless its key is present. -/
def emplace (renames : RenameMap) (key : Path) (info : RenameInfo) : RenameMap :=
  if key ∈ renames then renames else renames.insert key info

/-- The body of the loop of `between`, after the line has been parsed. -/
def processRename (renames : RenameMap) (r : Rename) : RenameMap :=
  match renames.lookup r.newFile with
  | some final =>
    let renames := renames.erase r.newFile
    if r.oldFile ≠ final.path then
      emplace renames r.oldFile ⟨final.path, final.similarity * r.similarity / 100⟩
    else renames
  | none => emplace renames r.oldFile ⟨r.newFile, r.similarity⟩

/-- The map after the loop of `between` has read a log, newest rename first. -/
def between (log : List Rename) : RenameMap := log.foldl processRename ∅

/-- The final path stored for a name. -/
def finalPath (renames : RenameMap) (f : Path) : Option Path :=
  (renames.lookup f).map RenameInfo.path

/-- The chronological history of a chronological list of renames. -/
def history (rs : List Rename) : List (Path × Path) := rs.map fun r => (r.oldFile, r.newFile)

/--
The map holds the composition of a history: an entry for each name that was there from the
beginning and ends under another name, and nothing else.
-/
structure Composes (renames : RenameMap) (rs : List (Path × Path)) : Prop where
  moved : ∀ f, Origin rs f → follow rs f ≠ f → finalPath renames f = some (follow rs f)
  unmoved : ∀ f, Origin rs f → follow rs f = f → f ∉ renames
  other : ∀ f, ¬ Origin rs f → f ∉ renames

theorem finalPath_eq_none {renames : RenameMap} {f : Path} :
    finalPath renames f = none ↔ f ∉ renames := by
  simp [finalPath, Finmap.lookup_eq_none]

theorem composes_iff {renames : RenameMap} {rs : List (Path × Path)} :
    Composes renames rs ↔ ∀ f, finalPath renames f = composition rs f := by
  constructor
  · intro h f
    unfold composition
    split_ifs with hf
    · exact h.moved f hf.1 hf.2
    · apply finalPath_eq_none.mpr
      by_cases ho : Origin rs f
      · exact h.unmoved f ho (not_not.mp fun hn => hf ⟨ho, hn⟩)
      · exact h.other f ho
  · intro h
    refine ⟨fun f ho hf => ?_, fun f ho hf => ?_, fun f ho => ?_⟩
    · rw [h, composition, if_pos ⟨ho, hf⟩]
    · rw [← finalPath_eq_none, h, composition_eq_none]
      exact fun _ => hf
    · rw [← finalPath_eq_none, h, composition_eq_none]
      exact fun h => False.elim (ho h)

theorem finalPath_emplace (renames : RenameMap) (key : Path) (info : RenameInfo) (f : Path) :
    finalPath (emplace renames key info) f =
      if f = key ∧ finalPath renames key = none then some info.path else finalPath renames f := by
  unfold emplace
  split_ifs with hk hf hf
  · exact absurd hk (finalPath_eq_none.mp hf.2)
  · rfl
  · rw [hf.1]; simp [finalPath]
  · have hne : f ≠ key := fun he => hf ⟨he, finalPath_eq_none.mpr hk⟩
    simp [finalPath, Finmap.lookup_insert_of_ne _ hne]

theorem finalPath_erase (renames : RenameMap) (key f : Path) :
    finalPath (renames.erase key) f = if f = key then none else finalPath renames f := by
  split_ifs with h
  · subst h; simp [finalPath]
  · simp [finalPath, Finmap.lookup_erase_ne h]

@[simp] theorem between_nil : between [] = ∅ := rfl

theorem between_reverse_cons (r : Rename) (rs : List Rename) :
    between (r :: rs).reverse = processRename (between rs.reverse) r := by
  simp [between]

theorem finalPath_processRename_old (renames : RenameMap) (r : Rename) :
    finalPath (processRename renames r) r.oldFile =
      if r.oldFile ≠ r.newFile ∧ finalPath renames r.oldFile ≠ none then
        finalPath renames r.oldFile
      else match finalPath renames r.newFile with
        | some p => if p = r.oldFile then none else some p
        | none => some r.newFile := by
  unfold processRename
  cases hn : renames.lookup r.newFile with
  | none =>
    have hn' : finalPath renames r.newFile = none := by simp [finalPath, hn]
    simp only [finalPath_emplace, hn']
    split_ifs <;> simp_all
  | some final =>
    have hn' : finalPath renames r.newFile = some final.path := by simp [finalPath, hn]
    by_cases ho : r.oldFile = final.path
    · simp only [ne_eq, ho, not_true_eq_false, if_false, finalPath_erase, hn', if_true]
      split_ifs <;> simp_all
    · simp only [ne_eq, ho, not_false_eq_true, if_true, finalPath_emplace, finalPath_erase, hn',
        Ne.symm ho, if_false]
      split_ifs <;> simp_all

theorem finalPath_processRename_of_ne (renames : RenameMap) {r : Rename} {f : Path}
    (h : f ≠ r.oldFile) :
    finalPath (processRename renames r) f =
      if f = r.newFile then none else finalPath renames f := by
  unfold processRename
  cases hn : renames.lookup r.newFile with
  | none =>
    have hn' : finalPath renames r.newFile = none := by simp [finalPath, hn]
    simp only [finalPath_emplace, h, false_and, if_false]
    split_ifs with hf
    · rw [hf, hn']
    · rfl
  | some final =>
    simp only [ne_eq, ite_not]
    split_ifs <;> simp_all [finalPath_emplace, finalPath_erase]

variable {renames : RenameMap} {newer : List (Path × Path)}

theorem composes_cons_iff (h : Composes renames newer) (r : Rename) :
    Composes (processRename renames r) ((r.oldFile, r.newFile) :: newer) ↔
      finalPath (processRename renames r) r.oldFile =
        if follow newer r.newFile = r.oldFile then none else some (follow newer r.newFile) := by
  rw [composes_iff, ← composition_cons_old]
  refine ⟨fun hf => hf _, fun hf f => ?_⟩
  by_cases ho : f = r.oldFile
  · rw [ho, hf]
  · rw [finalPath_processRename_of_ne _ ho]
    split_ifs with hn
    · subst hn
      exact (composition_cons_new newer ho).symm
    · rw [composition_cons_of_ne newer ho hn]
      exact composes_iff.mp h f

/--
One step of the loop: reading an older rename keeps the map the composition of the renames
read so far exactly when the rename is composable with them.
-/
theorem composes_processRename_iff (h : Composes renames newer) (r : Rename) :
    Composes (processRename renames r) ((r.oldFile, r.newFile) :: newer) ↔
      Composable r.oldFile r.newFile newer := by
  obtain ⟨s, o, n⟩ := r
  rw [composes_cons_iff h, finalPath_processRename_old, Composable]
  simp only [composes_iff.mp h]
  cases ho : composition newer o with
  | some g =>
    obtain ⟨_, hg, hgo⟩ := composition_eq_some.mp ho
    by_cases hon : o = n
    · subst hon; simp [ho, hg, hgo]
    · simp only [ne_eq, hon, not_false_eq_true, reduceCtorEq, and_self, if_true]
      split_ifs with hf
      · simpa [hf] using hg
      · simp
  | none =>
    simp only [ne_eq, not_true_eq_false, and_false, if_false]
    cases hn : composition newer n with
    | some p =>
      obtain ⟨hp, _, rfl⟩ := composition_eq_some.mp hn
      have hon : o ≠ n := by rintro rfl; simp [ho] at hn
      simp [hp, hon]
    | none =>
      have hn' := composition_eq_none.mp hn
      constructor
      · split_ifs with hf
        · simp
        · intro he
          have he' := Option.some.inj he
          exact ⟨fun hon => hf (he'.symm.trans hon.symm), Or.inr he'.symm⟩
      · rintro ⟨hon, hf⟩
        have hf' : follow newer n = n := hf.elim hn' id
        simp [hf', Ne.symm hon]

theorem composes_nil : Composes (between []) (history []) := by
  rw [composes_iff]
  intro f
  simp [finalPath, history]

/--
After every line read the map is the composition of the renames read so far, exactly when each
rename of the range is composable with the renames after it.
-/
theorem between_composes_iff (rs : List Rename) :
    (∀ newer, newer <:+ rs → Composes (between newer.reverse) (history newer)) ↔
      ∀ r newer, r :: newer <:+ rs → Composable r.oldFile r.newFile (history newer) := by
  constructor
  · intro h r newer hs
    have hc := h _ hs
    rw [between_reverse_cons] at hc
    exact (composes_processRename_iff (h _ ((List.suffix_cons r newer).trans hs)) r).mp hc
  · intro h newer
    induction newer with
    | nil => exact fun _ => composes_nil
    | cons r newer ih =>
      intro hs
      rw [between_reverse_cons]
      exact (composes_processRename_iff (ih ((List.suffix_cons r newer).trans hs)) r).mpr
        (h r newer hs)

/-- A path renamed twice, having been added again in between, loses its first rename. -/
theorem between_loses_rename :
    ¬ Composes
      (between [⟨100, ['a'], ['b']⟩, ⟨100, ['a'], ['c']⟩].reverse)
      (history [⟨100, ['a'], ['b']⟩, ⟨100, ['a'], ['c']⟩]) := by
  intro h
  have hm := h.moved ['a'] (by decide) (by decide)
  exact absurd hm (by decide)

end CollectedSources.LogRaw
