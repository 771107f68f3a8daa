import CollectedSources.Machine.Run
import Mathlib

/-! # The threads of the stopwatch

Each start of the stopwatch starts a thread, which shows the time as long as it
finds the flag raised. A thread learns about a stop only when it looks at the
flag again. If the flag is raised again before that, two threads run.
-/

namespace CollectedSources.Stopky

open Machine

/-- The label of the command. -/
inductive Label
  | start
  | stop
  deriving DecidableEq, Repr

/-- Where a thread is in its loop. -/
inductive Thread
  | testing
  | measuring
  | showing (diff : ℤ)
  | sleeping
  | finished
  deriving DecidableEq, Repr

/-- The fields of the application and its threads. -/
structure State where
  canRun : Bool
  start : ℤ
  label : Label
  time : String
  threads : List Thread
  deriving DecidableEq, Repr

/-- A command, shown now or not any more, the end of the application, or a step of a thread, at
some time. -/
inductive Event
  | command (current : Bool) (now : ℤ)
  | destroyApp
  | thread (i : ℕ) (now : ℤ)
  deriving DecidableEq, Repr

section Methods

def pad (n : ℤ) : String := (if n ≤ 9 then "0" else "") ++ toString n

/-- Minutes, seconds and hundredths. -/
def text (diff : ℤ) : String :=
  let m := (diff.tdiv 60000).tmod 60
  let s := (diff.tdiv 1000).tmod 60
  let ms := (diff.tdiv 10).tmod 100
  pad m ++ ":" ++ pad s ++ "." ++ pad ms

/-- The size of the field, which takes no longer text. -/
def maxSize : ℕ := 8

def startThread (s : State) (now : ℤ) : State :=
  { s with start := now, threads := s.threads ++ [.testing] }

def commandAction (s : State) (current : Bool) (now : ℤ) : State :=
  if !current then s
  else
    let s := { s with canRun := !s.canRun }
    let s := if s.canRun then startThread s now else s
    { s with label := if s.canRun then .stop else .start }

def destroyApp (s : State) : State := { s with canRun := false }

/-- One step of the loop. A text that does not fit throws an exception, which ends the thread. -/
def runStep (s : State) (now : ℤ) : Thread → Option (Thread × String)
  | .testing => some (if s.canRun then .measuring else .finished, s.time)
  | .measuring => some (.showing ((now - s.start).bmod (2 ^ 64)), s.time)
  | .showing diff =>
    if (text diff).length ≤ maxSize then some (.sleeping, text diff) else some (.finished, s.time)
  | .sleeping => some (.testing, s.time)
  | .finished => none

def step (s : State) : Event → Option State
  | .command current now => some (commandAction s current now)
  | .destroyApp => some (destroyApp s)
  | .thread i now => do
    let (thread, time) ← runStep s now (← s.threads[i]?)
    some { s with time := time, threads := s.threads.set i thread }

def start : State := ⟨false, 0, .start, "00:00.00", []⟩

theorem length_pad {n : ℤ} (h : 0 ≤ n) (h' : n < 100) : (pad n).length = 2 := by
  lift n to ℕ using h
  have hall : ∀ n : Fin 100, (pad (n.val : ℤ)).length = 2 := by decide +kernel
  exact hall ⟨n, by exact_mod_cast h'⟩

/-- The text fits unless the clock has been set back. -/
theorem length_text {diff : ℤ} (h : 0 ≤ diff) : (text diff).length = maxSize := by
  have hpad : ∀ a b : ℤ, 0 ≤ a → 0 < b → b ≤ 100 →
      (pad ((diff.tdiv a).tmod b)).length = 2 := by
    intro a b ha hb hb'
    have hlt := Int.tmod_lt_of_pos (diff.tdiv a) hb
    exact length_pad (Int.tmod_nonneg b (Int.tdiv_nonneg h ha)) (by omega)
  have hm := hpad 60000 60 (by decide) (by decide) (by decide)
  have hs := hpad 1000 60 (by decide) (by decide) (by decide)
  have hms := hpad 10 100 (by decide) (by decide) (by decide)
  simp only [text, String.length_append, hm, hs, hms]
  rfl

end Methods

section Threads

/-- The number of threads that have not finished. -/
def alive (s : State) : ℕ := s.threads.countP (· ≠ .finished)

/-- While the flag is raised at most one thread runs. -/
def OneTimer (s : State) : Prop := s.canRun = true → alive s ≤ 1

/-- The flag is raised only when all threads have finished. -/
def StartsAlone (s : State) : Event → Prop
  | .command current _ => current = true → s.canRun = false → alive s = 0
  | _ => True

instance : DecidablePred OneTimer := fun s =>
  inferInstanceAs (Decidable (s.canRun = true → alive s ≤ 1))

variable {s s' : State} {e : Event}

theorem alive_commandAction (s : State) (now : ℤ) :
    alive (commandAction s true now) = if s.canRun then alive s else alive s + 1 := by
  rcases hrun : s.canRun with _ | _
  · simp [commandAction, startThread, hrun, alive]
  · simp [commandAction, hrun, alive]

theorem canRun_commandAction (s : State) (now : ℤ) :
    (commandAction s true now).canRun = !s.canRun := by
  rcases hrun : s.canRun with _ | _ <;> simp [commandAction, startThread, hrun]

theorem alive_thread {i : ℕ} {now : ℤ} (h : step s (.thread i now) = some s') :
    alive s' ≤ alive s := by
  obtain ⟨thread, hthread, h⟩ := Option.bind_eq_some_iff.mp h
  obtain ⟨⟨thread', time⟩, hrun, h⟩ := Option.bind_eq_some_iff.mp h
  obtain rfl := Option.some.inj h
  obtain ⟨hi, hthread⟩ := List.getElem?_eq_some_iff.mp hthread
  have hrunning : thread ≠ .finished := by
    rintro rfl
    cases hrun
  have hpos : 0 < s.threads.countP (· ≠ .finished) :=
    List.countP_pos_iff.mpr ⟨thread, hthread ▸ List.getElem_mem hi, by simpa using hrunning⟩
  simp only [alive, List.countP_set hi, hthread]
  rw [if_pos (by simpa using hrunning)]
  split <;> omega

theorem alive_step (h : alive s ≤ 1) (he : StartsAlone s e) (hs : step s e = some s') :
    alive s' ≤ 1 := by
  cases e with
  | command current now =>
    obtain rfl := Option.some.inj hs
    cases current with
    | false => exact h
    | true =>
      rw [alive_commandAction]
      split_ifs with hrun
      · exact h
      · rw [he rfl (Bool.eq_false_of_not_eq_true hrun)]
  | destroyApp =>
    obtain rfl := Option.some.inj hs
    exact h
  | thread i now => exact (alive_thread hs).trans h

/-- One timer runs at a time in exactly the runs that start a thread only after all others have
finished. -/
theorem oneTimer_iff_startsAlone (events : List Event) :
    AllStates step OneTimer start events ↔ AllSteps step StartsAlone start events := by
  refine allStates_iff_allSteps (J := fun s => alive s ≤ 1) (fun s hs _ => hs)
    (fun s e hs he s' hs' => alive_step hs he hs') (fun s e hs hnext => ?_) (Nat.zero_le 1)
  cases e with
  | command current now =>
    rintro rfl hrun
    have hone := hnext _ rfl (by rw [canRun_commandAction, hrun]; rfl)
    rw [alive_commandAction, hrun] at hone
    exact Nat.le_zero.mp (Nat.le_of_succ_le_succ hone)
  | destroyApp => trivial
  | thread i now => trivial

/-- The stopwatch is stopped and started again before its thread looks at the flag. -/
theorem not_oneTimer_restart :
    ¬ AllStates step OneTimer start
      [.command true 0, .thread 0 0, .thread 0 0, .command true 5, .command true 10] := by
  decide

end Threads

end CollectedSources.Stopky
