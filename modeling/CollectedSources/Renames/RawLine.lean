import CollectedSources.Machine.Fields
import CollectedSources.Renames.LogRaw
import Mathlib

/-! # Lines of the raw log

The loop of `between` cuts a line at spaces, tabs and its end, and takes the
names of the files by their positions among the fields. It finds the names that
have no spaces.
-/

namespace CollectedSources.LogRaw

open Machine

section Code

/-- The number of decimal digits. -/
def decimalValue (digits : List Char) : ℕ := digits.foldl (fun n c => 10 * n + (c.toNat - 48)) 0

/-- `std::from_chars` for an `unsigned`, which keeps its value if there is no number or one that
is too large. -/
def fromChars (text : List Char) (value : UInt32) : UInt32 :=
  let digits := text.takeWhile Char.isDigit
  if digits = [] ∨ 2 ^ 32 ≤ decimalValue digits then value else .ofNat (decimalValue digits)

def delimiters : List Char := [' ', '\t', '\n']

variable (splitSV : List Char → List Char → List (List Char))

/-- The part of the loop of `between` that reads a line. -/
def parseLine (line : List Char) : Except String Rename :=
  if line.head? ≠ some ':' then .error ("bad line: " ++ String.ofList line)
  else
    match splitSV line delimiters with
    | _ :: _ :: _ :: _ :: kind :: oldFile :: newFile :: _ =>
      let similarity := fromChars (kind.drop 1) 0
      if similarity = 0 then .error ("bad rename: " ++ String.ofList kind)
      else .ok ⟨similarity, oldFile, newFile⟩
    | _ => .error ("bad formatted line: " ++ String.ofList line)

/-- The loop of `between` over the lines of the log. -/
def betweenLines (lines : List (List Char)) : Except String RenameMap :=
  lines.foldlM (fun renames line => (parseLine splitSV line).map (processRename renames)) ∅

end Code

section Lines

/-- A rename as `git log --raw` prints it. -/
structure RawLine where
  oldMode : List Char
  newMode : List Char
  oldId : List Char
  newId : List Char
  digits : List Char
  oldFile : Path
  newFile : Path
  fixed : ∀ field ∈ [oldMode, newMode, oldId, newId], ∀ c ∈ field, c ∉ delimiters
  digit : ∀ c ∈ digits, c.isDigit
  score : 1 ≤ decimalValue digits ∧ decimalValue digits ≤ 100
  nonempty : oldFile ≠ [] ∧ newFile ≠ []
  names : ∀ file ∈ [oldFile, newFile], '\t' ∉ file ∧ '\n' ∉ file ∧ '\x00' ∉ file

def RawLine.text (l : RawLine) : List Char :=
  (':' :: l.oldMode) ++ ' ' :: (l.newMode ++ ' ' :: (l.oldId ++ ' ' :: (l.newId ++ ' ' ::
    (('R' :: l.digits) ++ '\t' :: (l.oldFile ++ '\t' :: (l.newFile ++ ['\n']))))))

def RawLine.rename (l : RawLine) : Rename :=
  ⟨.ofNat (decimalValue l.digits), l.oldFile, l.newFile⟩

variable {splitSV : List Char → List Char → List (List Char)}

theorem fromChars_digits {digits : List Char} (h : ∀ c ∈ digits, c.isDigit)
    (hscore : 1 ≤ decimalValue digits ∧ decimalValue digits ≤ 100) :
    fromChars digits 0 = .ofNat (decimalValue digits) := by
  have htake : digits.takeWhile Char.isDigit = digits := List.takeWhile_eq_self_iff.mpr h
  have hne : digits ≠ [] := by
    rintro rfl
    exact absurd hscore.1 (by decide)
  unfold fromChars
  rw [htake, if_neg]
  rintro (hnil | hlarge)
  · exact hne hnil
  · omega

theorem ofNat_ne_zero {n : ℕ} (h : 1 ≤ n ∧ n ≤ 100) : UInt32.ofNat n ≠ 0 := by
  intro heq
  have hzero : n % 2 ^ 32 = 0 := by simpa using congrArg UInt32.toNat heq
  omega

variable (l : RawLine)

theorem RawLine.fixed_fields : ∀ field ∈ [':' :: l.oldMode, l.newMode, l.oldId, l.newId,
    'R' :: l.digits], ∀ c ∈ field, c ∉ delimiters := by
  have hdigits : ∀ c ∈ l.digits, c ∉ delimiters := by
    intro c hc hd
    have hdigit := l.digit c hc
    simp only [delimiters, List.mem_cons, List.not_mem_nil, or_false] at hd
    rcases hd with rfl | rfl | rfl <;> exact absurd hdigit (by decide)
  have hfixed := l.fixed
  simp only [List.forall_mem_cons] at hfixed ⊢
  exact ⟨⟨by decide, hfixed.1⟩, hfixed.2.1, hfixed.2.2.1, hfixed.2.2.2.1,
    ⟨by decide, hdigits⟩, by simp⟩

theorem RawLine.splitOnP_text :
    l.text.splitOnP (· ∈ delimiters) =
      [':' :: l.oldMode, l.newMode, l.oldId, l.newId, 'R' :: l.digits] ++
        (l.oldFile ++ '\t' :: (l.newFile ++ ['\n'])).splitOnP (· ∈ delimiters) := by
  have hfields := l.fixed_fields
  simp only [List.forall_mem_cons] at hfields
  obtain ⟨h₁, h₂, h₃, h₄, h₅, -⟩ := hfields
  unfold RawLine.text
  rw [List.splitOnP_append_cons_of_forall_mem (by simpa using h₁) _ (by decide),
    List.splitOnP_append_cons_of_forall_mem (by simpa using h₂) _ (by decide),
    List.splitOnP_append_cons_of_forall_mem (by simpa using h₃) _ (by decide),
    List.splitOnP_append_cons_of_forall_mem (by simpa using h₄) _ (by decide),
    List.splitOnP_append_cons_of_forall_mem (by simpa using h₅) _ (by decide)]
  rfl

/-- The part of a line with the names of the files. -/
def RawLine.files : List Char := l.oldFile ++ '\t' :: (l.newFile ++ ['\n'])

theorem RawLine.head_text : l.text.head? = some ':' := rfl

section

variable (hsplit : ∀ line delims, splitSV line delims = line.splitOnP (· ∈ delims))

include hsplit

theorem parseLine_text_eq_ok_iff (r : Rename) :
    parseLine splitSV l.text = .ok r ↔ ∃ oldFile newFile rest,
      l.files.splitOnP (· ∈ delimiters) = oldFile :: newFile :: rest ∧
        r = ⟨.ofNat (decimalValue l.digits), oldFile, newFile⟩ := by
  have hscore : fromChars (('R' :: l.digits).drop 1) 0 = .ofNat (decimalValue l.digits) :=
    fromChars_digits l.digit l.score
  unfold parseLine
  rw [if_neg (by simp [RawLine.head_text]), hsplit, RawLine.splitOnP_text, ← RawLine.files]
  rcases hfields : l.files.splitOnP (· ∈ delimiters) with _ | ⟨oldFile, _ | ⟨newFile, rest⟩⟩
  · simp
  · simp
  · simp only [List.cons_append, List.nil_append]
    rw [hscore, if_neg (ofNat_ne_zero l.score)]
    constructor
    · intro h
      exact ⟨oldFile, newFile, rest, rfl, (Except.ok.inj h).symm⟩
    · rintro ⟨_, _, _, heq, rfl⟩
      cases heq
      rfl

theorem no_space_of_parseLine (h : parseLine splitSV l.text = .ok l.rename) :
    ' ' ∉ l.oldFile ∧ ' ' ∉ l.newFile := by
  obtain ⟨oldFile, newFile, rest, hfields, hrename⟩ := (parseLine_text_eq_ok_iff l hsplit _).mp h
  obtain ⟨rfl, rfl⟩ : l.oldFile = oldFile ∧ l.newFile = newFile := by
    simpa [RawLine.rename] using hrename
  have hclean : ∀ field ∈ [l.oldFile, l.newFile], ' ' ∉ field := by
    intro field hfield hspace
    have hmem : field ∈ l.files.splitOnP (· ∈ delimiters) := by
      rw [hfields]
      simp only [List.mem_cons, List.not_mem_nil, or_false] at hfield ⊢
      tauto
    exact absurd ((of_mem_splitOnP hmem).1 ' ' hspace) (by decide)
  exact ⟨hclean _ (by simp), hclean _ (by simp)⟩

theorem parseLine_of_no_space (hold : ' ' ∉ l.oldFile) (hnew : ' ' ∉ l.newFile) :
    parseLine splitSV l.text = .ok l.rename := by
  have hclean : ∀ file ∈ [l.oldFile, l.newFile], ∀ c ∈ file, c ∉ delimiters := by
    intro file hfile c hc hd
    obtain ⟨htab, hend, -⟩ := l.names file hfile
    simp only [delimiters, List.mem_cons, List.not_mem_nil, or_false] at hd hfile
    rcases hd with rfl | rfl | rfl
    · rcases hfile with rfl | rfl
      · exact hold hc
      · exact hnew hc
    · exact htab hc
    · exact hend hc
  refine (parseLine_text_eq_ok_iff l hsplit _).mpr ⟨l.oldFile, l.newFile, [[]], ?_, rfl⟩
  unfold RawLine.files
  rw [List.splitOnP_append_cons_of_forall_mem (by simpa using hclean _ (by simp)) _ (by decide),
    List.splitOnP_append_cons_of_forall_mem (by simpa using hclean l.newFile (by simp)) _
      (by decide)]
  rfl

/-- The loop reads the names of a rename exactly when they have no spaces. -/
theorem parseLine_text_iff :
    parseLine splitSV l.text = .ok l.rename ↔ ' ' ∉ l.oldFile ∧ ' ' ∉ l.newFile :=
  ⟨no_space_of_parseLine l hsplit, fun h => parseLine_of_no_space l hsplit h.1 h.2⟩

theorem betweenLines_eq (ls : List RawLine)
    (h : ∀ l ∈ ls, ' ' ∉ l.oldFile ∧ ' ' ∉ l.newFile) :
    betweenLines splitSV (ls.map RawLine.text) = .ok (between (ls.map RawLine.rename)) := by
  have hfold : ∀ renames : RenameMap,
      (ls.map RawLine.text).foldlM
          (fun renames line => (parseLine splitSV line).map (processRename renames)) renames =
        .ok ((ls.map RawLine.rename).foldl processRename renames) := by
    induction ls with
    | nil => exact fun _ => rfl
    | cons l ls ih =>
      intro renames
      rw [List.forall_mem_cons] at h
      rw [List.map_cons, List.foldlM_cons, parseLine_of_no_space l hsplit h.1.1 h.1.2]
      exact ih h.2 _
  exact hfold ∅

end

/-- A rename to `c` as the log prints it. -/
def renameToC (file : Path) (hne : file ≠ [])
    (hnames : '\t' ∉ file ∧ '\n' ∉ file ∧ '\x00' ∉ file) : RawLine where
  oldMode := ['1', '0', '0', '6', '4', '4']
  newMode := ['1', '0', '0', '6', '4', '4']
  oldId := ['5', '6', '2', '6']
  newId := ['f', '7', '1', '9']
  digits := ['0', '9', '5']
  oldFile := file
  newFile := ['c']
  fixed := by simp [delimiters]
  digit := by simp
  score := by simp [decimalValue]
  nonempty := ⟨hne, by decide⟩
  names := by
    simp only [List.forall_mem_cons]
    exact ⟨hnames, by decide +kernel, by simp⟩

theorem parseLine_plain_name :
    parseLine (fun line delims => line.splitOnP (· ∈ delims))
        (renameToC ['a', 'b'] (by decide) (by decide)).text =
      .ok (renameToC ['a', 'b'] (by decide) (by decide)).rename :=
  (parseLine_text_iff (renameToC ['a', 'b'] (by decide) (by decide)) fun _ _ => rfl).mpr
    (by decide)

/-- The name `a b` is taken for the names `a` and `b`. -/
theorem parseLine_spaced_name :
    parseLine (fun line delims => line.splitOnP (· ∈ delims))
        (renameToC ['a', ' ', 'b'] (by decide) (by decide)).text = .ok ⟨95, ['a'], ['b']⟩ ∧
      (renameToC ['a', ' ', 'b'] (by decide) (by decide)).rename =
        ⟨95, ['a', ' ', 'b'], ['c']⟩ := by
  decide +kernel

end Lines

end CollectedSources.LogRaw
