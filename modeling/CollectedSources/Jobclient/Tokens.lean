import Mathlib

/-! # The tokens of jobclient

The client takes up to eight tokens from the jobserver of make and gives them back.
A read that delivers nothing at the end of file is counted as one that delivered a
token.
-/

namespace CollectedSources.Jobclient

/-- The result of reading one byte. -/
inductive Read where
  | token (byte : UInt8)
  | eof
  | error
  deriving DecidableEq

/-- The state of the first loop; nothing is known of the contents of a new buffer. -/
structure State where
  buf : ℕ → UInt8
  count : ℕ
  lines : List String

/-- The size of the buffer. -/
def size : ℕ := 8

/-- The buffer after a read at the index. -/
def Read.store (buf : ℕ → UInt8) (i : ℕ) : Read → ℕ → UInt8
  | .token byte => Function.update buf i byte
  | _ => buf

/-- The state after a read that is not an error. -/
def State.next (s : State) (rd : Read) : State where
  buf := rd.store s.buf s.count
  count := s.count + 1
  lines := s.lines ++ ["ch" ++ toString s.count ++ "=" ++
    String.singleton (Char.ofNat (rd.store s.buf s.count s.count).toNat)]

/-- The first loop, with the results of the reads that it can still make. -/
def acquire (s : State) : List Read → State
  | [] => s
  | rd :: reads => if rd = .error then s else acquire (s.next rd) reads

/-- The bytes written by the second loop. -/
def release (buf : ℕ → UInt8) : ℕ → List UInt8
  | 0 => []
  | count + 1 => buf count :: release buf count

/-- The bytes that are written back, for the results of all reads and the initial contents of
the buffer. -/
def main (reads : ℕ → Read) (buf : ℕ → UInt8) : List UInt8 :=
  let s := acquire ⟨buf, 0, []⟩ ((List.range size).map reads)
  release s.buf s.count

/-- The reads that the client makes before an error. -/
def performed (reads : ℕ → Read) : List Read :=
  ((List.range size).map reads).takeWhile (· ≠ .error)

/-- The tokens that were read. -/
def tokens (reads : List Read) : List UInt8 :=
  reads.filterMap fun
    | .token byte => some byte
    | _ => none

section Buffer

variable {s : State} {buf : ℕ → UInt8} {rd : Read} {reads : List Read} {i : ℕ}

theorem store_of_ne (hi : i ≠ s.count) : rd.store s.buf s.count i = s.buf i := by
  cases rd with
  | token byte => exact Function.update_of_ne hi byte s.buf
  | eof => rfl
  | error => rfl

theorem count_acquire (s : State) (reads : List Read) :
    (acquire s reads).count = s.count + (reads.takeWhile (· ≠ .error)).length := by
  induction reads generalizing s with
  | nil => rfl
  | cons rd reads ih =>
    rw [acquire]
    split_ifs with herror
    · simp [herror]
    · rw [ih, List.takeWhile_cons_of_pos (by simpa using herror), List.length_cons]
      change s.count + 1 + _ = _
      omega

theorem length_release (buf : ℕ → UInt8) (n : ℕ) : (release buf n).length = n := by
  induction n with
  | zero => rfl
  | succ n ih => rw [release, List.length_cons, ih]

theorem release_congr {buf' : ℕ → UInt8} {n : ℕ} (h : ∀ i < n, buf i = buf' i) :
    release buf n = release buf' n := by
  induction n with
  | zero => rfl
  | succ n ih =>
    rw [release, release, h n (Nat.lt_succ_self n), ih fun i hi => h i (Nat.lt_succ_of_lt hi)]

theorem release_acquire (heof : .eof ∉ reads.takeWhile (· ≠ .error)) :
    release (acquire s reads).buf (acquire s reads).count =
      (tokens (reads.takeWhile (· ≠ .error))).reverse ++ release s.buf s.count := by
  induction reads generalizing s with
  | nil => rfl
  | cons rd reads ih =>
    cases rd with
    | error => simp [acquire, tokens]
    | eof => simp at heof
    | token byte =>
      rw [List.takeWhile_cons_of_pos (by simp), List.mem_cons, not_or] at heof
      have hnext : release (s.next (.token byte)).buf (s.next (.token byte)).count =
          byte :: release s.buf s.count := by
        rw [State.next, release]
        refine congrArg₂ List.cons (Function.update_self ..) (release_congr fun i hi => ?_)
        exact @store_of_ne s (.token byte) i hi.ne
      rw [List.takeWhile_cons_of_pos (by simp), acquire, if_neg (by simp), ih heof.2, hnext]
      simp [tokens]

theorem length_tokens_le (reads : List Read) : (tokens reads).length ≤ reads.length :=
  List.length_filterMap_le _ _

theorem length_tokens_lt (heof : .eof ∈ reads) : (tokens reads).length < reads.length := by
  induction reads with
  | nil => simp at heof
  | cons rd reads ih =>
    rcases List.mem_cons.mp heof with rfl | heof
    · exact Nat.lt_succ_of_le (length_tokens_le reads)
    · have hlt := ih heof
      have hle : (tokens (rd :: reads)).length ≤ (tokens reads).length + 1 := by
        unfold tokens
        rw [List.filterMap_cons]
        split <;> simp
      rw [List.length_cons]
      omega

end Buffer

/-- The tokens are given back exactly when no read comes to the end of file. -/
theorem main_perm_iff (reads : ℕ → Read) (buf : ℕ → UInt8) :
    (main reads buf).Perm (tokens (performed reads)) ↔ .eof ∉ performed reads := by
  unfold main performed
  generalize (List.range size).map reads = results
  constructor
  · intro hperm heof
    have hlength := hperm.length_eq
    rw [length_release, count_acquire, Nat.zero_add] at hlength
    have := length_tokens_lt heof
    omega
  · intro heof
    rw [release_acquire heof, release, List.append_nil]
    exact List.reverse_perm _

/-- At the end of file eight bytes of the new buffer are written. -/
theorem endOfFile_makes_tokens :
    main (fun _ => .eof) (fun _ => 0) = List.replicate 8 0 ∧
      tokens (performed fun _ => .eof) = [] ∧
      ¬ (main (fun _ => .eof) fun _ => 0).Perm (tokens (performed fun _ => .eof)) := by
  have hmain : main (fun _ => .eof) (fun _ => 0) = List.replicate 8 0 := by
    unfold main
    simp [size, List.range_succ, acquire, State.next, Read.store, release]
  have htokens : tokens (performed fun _ => .eof) = [] := by decide
  refine ⟨hmain, htokens, ?_⟩
  rw [hmain, htokens]
  decide

end CollectedSources.Jobclient
