import CollectedSources.Machine.Resources
import Mathlib

/-! # Loading an effect file

`Effect::load` maps a file and reads it without a look at its end. It stays
inside of a file that has the whole header, and at each list all that it reads
of the list. It forgets the descriptor of a file of less than nine bytes.
-/

namespace CollectedSources.VreckoFf.Linux

open Resource

section Code

/-- What `load` has to give back. -/
inductive Held
  | descriptor (fd : ℕ)
  | mapping
  deriving DecidableEq, Repr

/-- What the system answers for a file: an error number or a descriptor, where its end is, and which
bytes can be read from the beginning of its mapping, if it can be mapped. -/
structure File where
  opened : Except ℕ+ ℕ
  seek : ℤ
  memory : Option (List UInt8)

def riffForc : List UInt8 :=
  [82, 73, 70, 70, 0, 0, 0, 0, 70, 79, 82, 67, 0x5c, 0x77, 0x7e, 0x19, 0xba, 0x34, 0xd3, 0x11,
    0xab, 0xd5, 0, 0xc0, 0x4f, 0x8e, 0xc6, 0x27]

def list : List UInt8 := [76, 73, 83, 84]

/-- Whether the next bytes are the given ones, which all have to be in the memory. -/
def compare (memory bytes : List UInt8) : Option Bool :=
  if memory.length < bytes.length then none else some (memory.take bytes.length = bytes)

/-- The number in the next four bytes. -/
def readSize : List UInt8 → Option ℕ
  | b₀ :: b₁ :: b₂ :: b₃ :: _ =>
    some (b₀.toNat + 2 ^ 8 * b₁.toNat + 2 ^ 16 * b₂.toNat + 2 ^ 24 * b₃.toNat)
  | _ => none

/-- The length of the string at the beginning of the memory. -/
def nameLength (memory : List UInt8) : Option ℕ :=
  if 0 ∈ memory then some (memory.idxOf 0) else none

def countDown (len : ℤ) : ℤ := if 0 < len then countDown (len - 1) else len
termination_by len.toNat
decreasing_by omega

/-- The name of a list, and a loop with an empty body. -/
def processList (memory : List UInt8) (size : ℕ) : Option ℤ := do
  let len := (size : ℤ).bmod (2 ^ 32) - (← nameLength memory)
  some (countDown (if len / 2 * 2 ≠ len then len - 1 else len))

/-- The lists of the mapped file. There is no result if a byte outside of it is read. -/
def readLists (len : ℤ) (memory : List UInt8) (tmp : ℕ) : Option ℕ :=
  if (tmp : ℤ) < len then do
    let _ ← nameLength (memory.drop tmp)
    if !(← compare (memory.drop tmp) list) then some 6
    else
      let size ← readSize (memory.drop (tmp + 4))
      let _ ← processList (memory.drop (tmp + 4)) size
      readLists len memory (tmp + 4 + (size + 4) % 2 ^ 32)
  else some 0
termination_by (len - tmp).toNat
decreasing_by omega

/-- The return value of `load` for the mapped file. -/
def readFile (len : ℤ) (memory : List UInt8) : Option ℕ := do
  if !(← compare memory riffForc) then some 5 else readLists len memory 28

/-- `Effect::load` with what it takes from the system and gives back. There is no result if it reads
behind the readable bytes. -/
def load (really : Bool) (file : File) : Option (ℕ × List (Event Held)) :=
  if !really then some (0, [])
  else
    match file.opened with
    | .error errno => some (errno, [])
    | .ok fd =>
      let len := file.seek.bmod (2 ^ 32)
      let found := [.opened (.descriptor fd), .used (.descriptor fd)]
      if len < 9 then some (1, found)
      else
        match file.memory with
        | none => some (2, found ++ [.used (.descriptor fd), .closed (.descriptor fd)])
        | some memory => do
          let ret ← readFile len memory
          some (ret, found ++ [.used (.descriptor fd), .opened .mapping, .used .mapping,
            .closed .mapping, .closed (.descriptor fd)])

/-- The answers of the system: an error number or a descriptor, the file, and whether it can be
mapped. -/
structure System where
  opened : Except ℕ+ ℕ
  file : List UInt8
  mmap : Bool

/-- The file, with the bytes that are mapped of it. -/
def System.mapped (a : System) : File where
  opened := a.opened
  seek := a.file.length
  memory := if a.mmap then some (a.file.take ((a.file.length : ℤ).bmod (2 ^ 32)).toNat) else none

/-- A load that may read bytes of the file only. -/
def loadFile (really : Bool) (a : System) : Option (ℕ × List (Event Held)) := load really a.mapped

end Code

section Reading

/-- `load` returns, has read bytes of the mapped file only, and has given everything back. -/
def Safe (r : Option (ℕ × List (Event Held))) : Prop :=
  ∃ ret calls, r = some (ret, calls) ∧ Proper [] calls ∧ after [] calls = []

/-- A list is followed by the next one. -/
def NextList (memory : List UInt8) (tmp next : ℕ) : Prop :=
  tmp < memory.length ∧ list <+: memory.drop tmp ∧
    ∃ size, readSize (memory.drop (tmp + 4)) = some size ∧ next = tmp + 4 + (size + 4) % 2 ^ 32

/-- The file has four bytes and a zero at the place of a list, and after the four bytes of a list
it has the four of its size and a zero. -/
def ListReadable (memory : List UInt8) (tmp : ℕ) : Prop :=
  tmp + 4 ≤ memory.length ∧ 0 ∈ memory.drop tmp ∧
    (list <+: memory.drop tmp → tmp + 8 ≤ memory.length ∧ 0 ∈ memory.drop (tmp + 4))

/-- The file has the bytes of the header, and the bytes of each list that can be reached. -/
def FileReadable (memory : List UInt8) : Prop :=
  riffForc.length ≤ memory.length ∧ (riffForc <+: memory → ∀ tmp,
    Relation.ReflTransGen (NextList memory) riffForc.length tmp → tmp < memory.length →
      ListReadable memory tmp)

variable {memory bytes : List UInt8}

theorem compare_eq_some_iff {same : Bool} :
    compare memory bytes = some same ↔
      bytes.length ≤ memory.length ∧ (same = true ↔ bytes <+: memory) := by
  unfold compare
  split_ifs with h
  · simp
    omega
  · have hle : bytes.length ≤ memory.length := not_lt.mp h
    simp only [Option.some.injEq, hle, true_and, List.prefix_iff_eq_take]
    cases same <;> simp [eq_comm]

theorem nameLength_isSome_iff : (∃ n, nameLength memory = some n) ↔ 0 ∈ memory := by
  unfold nameLength
  split_ifs with h <;> simp [h]

theorem processList_isSome_iff {size : ℕ} :
    (∃ len, processList memory size = some len) ↔ 0 ∈ memory := by
  rw [← nameLength_isSome_iff]
  unfold processList
  cases nameLength memory <;> simp

theorem readSize_isSome_iff : (∃ size, readSize memory = some size) ↔ 4 ≤ memory.length := by
  rcases memory with _ | ⟨_, _ | ⟨_, _ | ⟨_, _ | ⟨_, _⟩⟩⟩⟩ <;> simp [readSize]

theorem nameLength_eq_none (h : 0 ∉ memory) : nameLength memory = none := if_neg h

theorem processList_eq_none {size : ℕ} (h : 0 ∉ memory) : processList memory size = none := by
  rw [processList, nameLength_eq_none h]
  rfl

variable {len : ℤ} {tmp : ℕ}

theorem readLists_of_ge (h : len ≤ tmp) : readLists len memory tmp = some 0 := by
  rw [readLists, if_neg (not_lt.mpr h)]

theorem readLists_isSome_step (h : (tmp : ℤ) < len) (hlen : len = memory.length) :
    (∃ ret, readLists len memory tmp = some ret) ↔
      ListReadable memory tmp ∧
        ∀ next, NextList memory tmp next → ∃ ret, readLists len memory next = some ret := by
  have htmp : tmp < memory.length := by omega
  rw [readLists, if_pos h]
  unfold ListReadable
  by_cases hzero : 0 ∈ memory.drop tmp
  swap
  · rw [nameLength_eq_none hzero]
    simp [hzero]
  obtain ⟨n, hn⟩ := nameLength_isSome_iff.mpr hzero
  rw [hn, Option.bind_eq_bind, Option.bind_some]
  by_cases hfour : tmp + 4 ≤ memory.length
  swap
  · have hnone : compare (memory.drop tmp) list = none := by
      refine if_pos ?_
      rw [List.length_drop]
      change _ < 4
      omega
    rw [hnone]
    simp [hfour]
  have hfour' : list.length ≤ (memory.drop tmp).length := by
    rw [List.length_drop]
    change 4 ≤ _
    omega
  by_cases hlist : list <+: memory.drop tmp
  swap
  · have hfalse : compare (memory.drop tmp) list = some false :=
      compare_eq_some_iff.mpr ⟨hfour', by simpa using hlist⟩
    rw [hfalse]
    simp [hfour, hzero, hlist, NextList]
  have htrue : compare (memory.drop tmp) list = some true :=
    compare_eq_some_iff.mpr ⟨hfour', by simpa using hlist⟩
  rw [htrue]
  by_cases height : tmp + 8 ≤ memory.length
  swap
  · have hnone : readSize (memory.drop (tmp + 4)) = none := by
      rw [← Option.not_isSome_iff_eq_none, Option.isSome_iff_exists, readSize_isSome_iff,
        List.length_drop]
      omega
    simp [hnone, hlist, height]
  obtain ⟨size, hsize⟩ : ∃ size, readSize (memory.drop (tmp + 4)) = some size := by
    rw [readSize_isSome_iff, List.length_drop]
    omega
  by_cases hname : 0 ∈ memory.drop (tmp + 4)
  swap
  · simp [hsize, processList_eq_none hname, hlist, hname]
  obtain ⟨rest, hrest⟩ := @processList_isSome_iff (memory.drop (tmp + 4)) size |>.mpr hname
  have hnext : ∀ next, NextList memory tmp next ↔ next = tmp + 4 + (size + 4) % 2 ^ 32 := by
    simp [NextList, htmp, hlist, hsize]
  simp only [hnext, forall_eq]
  simp [hsize, hrest, hfour, hzero, height, hname]

/-- The lists from a place on are read to their end exactly when each that is reached has its
bytes. -/
theorem readLists_isSome_iff (hlen : len = memory.length) :
    (∃ ret, readLists len memory tmp = some ret) ↔
      ∀ t, Relation.ReflTransGen (NextList memory) tmp t → t < memory.length →
        ListReadable memory t := by
  induction hn : memory.length - tmp using Nat.strong_induction_on generalizing tmp with
  | h n ih =>
    by_cases htmp : tmp < memory.length
    · rw [readLists_isSome_step (by omega) hlen]
      have hlater : ∀ next, NextList memory tmp next →
          ((∃ ret, readLists len memory next = some ret) ↔
            ∀ t, Relation.ReflTransGen (NextList memory) next t → t < memory.length →
              ListReadable memory t) := by
        rintro next ⟨-, -, size, -, rfl⟩
        exact ih _ (by omega) rfl
      constructor
      · rintro ⟨hreadable, hnext⟩ t ht hlt
        rcases Relation.ReflTransGen.cases_head ht with rfl | ⟨next, hstep, hrest⟩
        · exact hreadable
        · exact (hlater next hstep).mp (hnext next hstep) t hrest hlt
      · intro h
        refine ⟨h tmp .refl htmp, fun next hstep => (hlater next hstep).mpr fun t ht => ?_⟩
        exact h t (.head hstep ht)
    · rw [readLists_of_ge (by omega)]
      refine iff_of_true ⟨0, rfl⟩ fun t ht hlt => ?_
      rcases Relation.ReflTransGen.cases_head ht with rfl | ⟨next, hstep, -⟩
      · exact absurd hlt htmp
      · exact absurd hstep.1 htmp

theorem readFile_isSome_iff (hlen : len = memory.length) :
    (∃ ret, readFile len memory = some ret) ↔ FileReadable memory := by
  unfold readFile FileReadable
  by_cases hlong : riffForc.length ≤ memory.length
  swap
  · have hnone : compare memory riffForc = none := if_pos (not_le.mp hlong)
    simp [hnone, hlong]
  by_cases hprefix : riffForc <+: memory
  · have htrue : compare memory riffForc = some true :=
      compare_eq_some_iff.mpr ⟨hlong, by simpa using hprefix⟩
    rw [htrue, ← readLists_isSome_iff hlen]
    simp [hlong, hprefix]
    rfl
  · have hfalse : compare memory riffForc = some false :=
      compare_eq_some_iff.mpr ⟨hlong, by simpa using hprefix⟩
    simp [hfalse, hlong, hprefix]

/-- The part of the file that is mapped has the length that `load` goes by. -/
theorem length_take_bmod {file : List UInt8} (h : 9 ≤ (file.length : ℤ).bmod (2 ^ 32)) :
    (file.length : ℤ).bmod (2 ^ 32) =
      (file.take ((file.length : ℤ).bmod (2 ^ 32)).toNat).length := by
  have hle : (file.length : ℤ).bmod (2 ^ 32) ≤ file.length := by
    rw [Int.bmod_def]
    omega
  rw [List.length_take]
  omega

/--
`Effect::load` stays inside of the file and gives back what it has taken exactly when it opens
nothing, or the file has nine bytes at least, as an `int` counts them, and cannot be mapped or
has all bytes that are read.
-/
theorem loadFile_safe_iff (really : Bool) (a : System) :
    Safe (loadFile really a) ↔
      really = false ∨ (∃ errno, a.opened = .error errno) ∨
        9 ≤ (a.file.length : ℤ).bmod (2 ^ 32) ∧
          (a.mmap = false ∨
            FileReadable (a.file.take ((a.file.length : ℤ).bmod (2 ^ 32)).toNat)) := by
  unfold loadFile load System.mapped
  dsimp only
  cases really with
  | false => exact iff_of_true ⟨0, [], rfl, trivial, rfl⟩ (Or.inl rfl)
  | true =>
    cases hopened : a.opened with
    | error errno => exact iff_of_true ⟨errno, [], rfl, trivial, rfl⟩ (Or.inr (Or.inl ⟨errno, rfl⟩))
    | ok fd =>
      simp only [Bool.not_true, Bool.false_eq_true, if_false, reduceCtorEq, exists_false, false_or]
      by_cases hshort : (a.file.length : ℤ).bmod (2 ^ 32) < 9
      · rw [if_pos hshort]
        refine iff_of_false ?_ fun h => absurd h.1 (not_le.mpr hshort)
        rintro ⟨ret, calls, heq, -, hafter⟩
        cases heq
        cases hafter
      · have hlong : 9 ≤ (a.file.length : ℤ).bmod (2 ^ 32) := not_lt.mp hshort
        rw [if_neg hshort]
        cases a.mmap with
        | false =>
          refine iff_of_true ⟨2, _, rfl, ?_, ?_⟩ ⟨hlong, Or.inl rfl⟩
          · simp [Proper]
          · simp [after]
        | true =>
          rw [← readFile_isSome_iff (length_take_bmod hlong), if_pos rfl]
          generalize (a.file.length : ℤ).bmod (2 ^ 32) = len at hlong
          constructor
          · rintro ⟨ret, calls, heq, -⟩
            obtain ⟨ret', hread, -⟩ := Option.bind_eq_some_iff.mp heq
            exact ⟨hlong, Or.inr ⟨ret', hread⟩⟩
          · rintro ⟨-, hfalse | ⟨ret, hread⟩⟩
            · cases hfalse
            · refine ⟨ret, _, Option.bind_eq_some_iff.mpr ⟨ret, hread, rfl⟩, ?_, ?_⟩
              · simp [Proper]
              · simp [after]

/-- The descriptor of a file of four bytes stays open, and nine bytes of the header are read to
the end of the header. -/
theorem loadFile_not_safe :
    loadFile true ⟨.ok 3, [82, 73, 70, 70], true⟩ =
        some (1, [.opened (.descriptor 3), .used (.descriptor 3)]) ∧
      ¬ Safe (loadFile true ⟨.ok 3, [82, 73, 70, 70], true⟩) ∧
      loadFile true ⟨.ok 3, [82, 73, 70, 70, 0, 0, 0, 0, 70], true⟩ = none := by
  have hshort : loadFile true ⟨.ok 3, [82, 73, 70, 70], true⟩ =
      some (1, [.opened (.descriptor 3), .used (.descriptor 3)]) := rfl
  refine ⟨hshort, ?_, rfl⟩
  rw [hshort]
  rintro ⟨ret, calls, heq, -, hafter⟩
  cases heq
  cases hafter

end Reading

end CollectedSources.VreckoFf.Linux
