import CollectedSources.Machine.Run
import Mathlib

/-! # A rendezvous over two condition variables

`main` hands each printable character to a reader thread and waits for its
answer. The reader keeps the mutex from its answer to its next wait, so that
`main` cannot go on before the reader waits again. Only the first wait of the
reader is not awaited.
-/

namespace CollectedSources.CondWait

open Machine

section Code

inductive Party
  | main
  | thr
  deriving DecidableEq, Repr

/-- The next call of `thr`; `parked` inside `pthread_cond_wait`, `woken` if it is about to take the
mutex again there. -/
inductive Thr
  | lock
  | wait
  | parked
  | woken
  | print
  | broadcast
  | usleep
  | ended
  deriving DecidableEq, Repr

/-- The next call of `main`. -/
inductive Main
  | getchar
  | print (c : UInt8)
  | lock (c : UInt8)
  | store (c : UInt8)
  | broadcast
  | wait
  | parked
  | woken
  | unlock
  | cancel
  | join
  | ended
  deriving DecidableEq, Repr

inductive Line
  | writing (c : UInt8)
  | read (c : UInt8) (ret : ℕ)
  deriving DecidableEq, Repr

structure State where
  input : List UInt8
  ccc : UInt8
  owner : Option Party
  canceled : Bool
  main : Main
  thr : Thr
  output : List Line
  deriving DecidableEq, Repr

def init (input : List UInt8) : State where
  input := input
  ccc := 0
  owner := none
  canceled := false
  main := .getchar
  thr := .lock
  output := []

def isprint (c : UInt8) : Bool := 0x20 ≤ c && c ≤ 0x7e

/-- A step of a thread, the end of the reader at a cancellation point, or a wait that ends without
a broadcast. -/
inductive Action
  | main
  | thr
  | canceled
  | wakeMain
  | wakeThr
  deriving DecidableEq, Repr

/-- `pthread_cond_broadcast(&cond)`. -/
def Thr.signal : Thr → Thr
  | .parked => .woken
  | t => t

/-- `pthread_cond_broadcast(&condw)`. -/
def Main.signal : Main → Main
  | .parked => .woken
  | m => m

variable (s : State)

def mainStep : Option State :=
  match s.main with
  | .getchar =>
    match s.input with
    | [] => some { s with main := .cancel }
    | c :: rest => some { s with input := rest, main := if isprint c then .print c else .getchar }
  | .print c => some { s with output := s.output ++ [.writing c], main := .lock c }
  | .lock c =>
    if s.owner = none then some { s with owner := some .main, main := .store c } else none
  | .store c => some { s with ccc := c, main := .broadcast }
  | .broadcast => some { s with thr := s.thr.signal, main := .wait }
  | .wait => some { s with owner := none, main := .parked }
  | .parked => none
  | .woken => if s.owner = none then some { s with owner := some .main, main := .unlock } else none
  | .unlock => some { s with owner := none, main := .getchar }
  | .cancel => some { s with canceled := true, main := .join }
  | .join => if s.thr = .ended then some { s with main := .ended } else none
  | .ended => none

def thrStep : Option State :=
  match s.thr with
  | .lock => if s.owner = none then some { s with owner := some .thr, thr := .wait } else none
  | .wait => some { s with owner := none, thr := .parked }
  | .parked => none
  | .woken => if s.owner = none then some { s with owner := some .thr, thr := .print } else none
  | .print => some { s with output := s.output ++ [.read s.ccc 0], thr := .broadcast }
  | .broadcast => some { s with main := s.main.signal, thr := .usleep }
  | .usleep => some { s with thr := .wait }
  | .ended => none

/-- The reader ends at a cancellation point. Inside its wait it takes the mutex first, which it
never gives back. -/
def canceledStep : Option State :=
  if s.canceled then
    match s.thr with
    | .wait | .print | .usleep => some { s with thr := .ended }
    | .parked | .woken =>
      if s.owner = none then some { s with owner := some .thr, thr := .ended } else none
    | _ => none
  else none

def step (s : State) : Action → Option State
  | .main => mainStep s
  | .thr => thrStep s
  | .canceled => canceledStep s
  | .wakeMain => if s.main = .parked then some { s with main := .woken } else none
  | .wakeThr => if s.thr = .parked then some { s with thr := .woken } else none

end Code

/-- No wait ends without a broadcast. -/
def Action.Signaled (a : Action) : Prop := a ≠ .wakeMain ∧ a ≠ .wakeThr
  deriving Decidable

/-- Each printable character written and then read. -/
def transcript (input : List UInt8) : List Line :=
  (input.filter isprint).flatMap fun c => [.writing c, .read c 0]

def Main.locks : Main → Bool
  | .lock _ => true
  | _ => false

/-- At the first lock of `main`, with one line printed, the reader waits. -/
def Met (s : State) (a : Action) : Prop :=
  a = .main → s.main.locks = true → s.output.length = 1 → s.thr = .parked
  deriving Decidable

/-- Nothing goes on without a wait that ends by itself. -/
def Stuck (s : State) : Prop := ∀ a, a.Signaled → step s a = none

section Measure

def Main.work : Main → ℕ
  | .getchar => 3
  | .print _ => 16
  | .lock _ => 15
  | .store _ => 14
  | .broadcast => 13
  | .wait => 7
  | .parked => 6
  | .woken => 5
  | .unlock => 4
  | .cancel => 2
  | .join => 1
  | .ended => 0

def Thr.work : Thr → ℕ
  | .lock => 3
  | .wait => 2
  | .parked => 1
  | .woken => 6
  | .print => 5
  | .broadcast => 4
  | .usleep => 3
  | .ended => 0

/-- The steps that are left, at most. -/
def work (s : State) : ℕ := 14 * s.input.length + s.main.work + s.thr.work

theorem signal_work_main (m : Main) : m.signal.work ≤ m.work := by
  cases m <;> simp [Main.signal, Main.work]

theorem signal_work_thr (t : Thr) : t.signal.work ≤ t.work + 5 := by
  cases t <;> simp [Thr.signal, Thr.work]

theorem work_lt {s s' : State} {a : Action} (ha : a.Signaled) (h : step s a = some s') :
    work s' < work s := by
  cases a with
  | main =>
    have hs := signal_work_thr s.thr
    rcases s with ⟨input, ccc, owner, canceled, main, thr, output⟩
    cases main <;> grind [step, mainStep, work, Main.work]
  | thr =>
    have hs := signal_work_main s.main
    rcases s with ⟨input, ccc, owner, canceled, main, thr, output⟩
    cases thr <;> grind [step, thrStep, work, Thr.work]
  | canceled =>
    rcases s with ⟨input, ccc, owner, canceled, main, thr, output⟩
    cases thr <;> grind [step, canceledStep, work, Thr.work]
  | wakeMain => exact absurd rfl ha.1
  | wakeThr => exact absurd rfl ha.2

end Measure

section Invariant

/-- What is still to be printed for the character at hand. -/
def pending (ccc : UInt8) (t : Thr) : Main → List Line
  | .print c => [.writing c, .read c 0]
  | .lock c => [.read c 0]
  | .store c => [.read c 0]
  | .broadcast => [.read ccc 0]
  | .wait => [.read ccc 0]
  | .parked => if t = .broadcast then [] else [.read ccc 0]
  | .getchar | .woken | .unlock | .cancel | .join | .ended => []

def todo (s : State) : List Line := pending s.ccc s.thr s.main ++ transcript s.input

/-- The reader has not met `main` yet, or waits for it. -/
def Resting (s : State) : Prop :=
  s.thr = .lock ∧ s.owner = none ∨ s.thr = .wait ∧ s.owner = some .thr ∨
    s.thr = .parked ∧ s.owner = none

/-- Where the reader is in the round of `main`. -/
def InStep (s : State) : Prop :=
  match s.main with
  | .getchar | .cancel => Resting s ∧ (s.thr = .lock → s.output = [])
  | .print _ => Resting s ∧ (s.thr = .lock → s.output = [])
  | .lock c => Resting s ∧ (s.thr = .lock → s.output = [.writing c])
  | .store _ | .broadcast | .unlock => s.thr = .parked ∧ s.owner = some .main
  | .wait => s.thr = .woken ∧ s.owner = some .main
  | .parked =>
    s.thr = .woken ∧ s.owner = none ∨ (s.thr = .print ∨ s.thr = .broadcast) ∧ s.owner = some .thr
  | .woken =>
    (s.thr = .usleep ∨ s.thr = .wait) ∧ s.owner = some .thr ∨ s.thr = .parked ∧ s.owner = none
  | .join => Resting s ∨ s.thr = .ended
  | .ended => s.thr = .ended

structure Meeting (input : List UInt8) (s : State) : Prop where
  lines : s.output ++ todo s = transcript input
  inStep : InStep s
  canceled : s.canceled = true ↔ s.main = .join ∨ s.main = .ended
  eof : s.main = .cancel ∨ s.main = .join ∨ s.main = .ended → s.input = []

/-- `main` has called before the reader waited. -/
structure Missed (input : List UInt8) (s : State) : Prop where
  lines : s.output ++ todo s = transcript input
  first : s.output.length = 1
  place : (∃ c, s.main = .store c) ∧ s.thr = .lock ∧ s.owner = some .main ∨
    (s.main = .broadcast ∨ s.main = .wait) ∧ s.thr = .lock ∧ s.owner = some .main ∨
    s.main = .parked ∧ Resting s
  canceled : s.canceled = false

variable {input : List UInt8} {s s' : State} {a : Action}

theorem transcript_cons (c : UInt8) (rest : List UInt8) :
    transcript (c :: rest) = (if isprint c then [.writing c, .read c 0] else []) ++
      transcript rest := by
  by_cases hc : isprint c <;> simp [transcript, hc]

theorem lines_main (h : mainStep s = some s') (hl : s.output ++ todo s = transcript input)
    (hthr : s.main = .wait → s.thr ≠ .broadcast) : s'.output ++ todo s' = transcript input := by
  rcases s with ⟨chars, ccc, owner, canceled, main, thr, output⟩
  cases main with
  | getchar =>
    cases chars with
    | nil =>
      obtain rfl := Option.some.inj h
      simpa [todo, pending] using hl
    | cons c rest =>
      obtain rfl := Option.some.inj h
      by_cases hc : isprint c <;> simpa [todo, pending, transcript_cons, hc] using hl
  | _ => grind [mainStep, todo, pending]

theorem pending_of_ne (ccc : UInt8) (m : Main) {t t' : Thr} (ht : t ≠ .broadcast)
    (ht' : t' ≠ .broadcast) : pending ccc t m = pending ccc t' m := by
  cases m <;> simp [pending, ht, ht']

theorem lines_thr (h : thrStep s = some s') (hl : s.output ++ todo s = transcript input)
    (hmain : s.thr = .print ∨ s.thr = .broadcast → s.main = .parked) :
    s'.output ++ todo s' = transcript input := by
  rcases s with ⟨chars, ccc, owner, canceled, main, thr, output⟩
  have hrest : ∀ t t' : Thr, t ≠ .broadcast → t' ≠ .broadcast → ∀ owner',
      output ++ todo ⟨chars, ccc, owner, canceled, main, t, output⟩ = transcript input →
      output ++ todo ⟨chars, ccc, owner', canceled, main, t', output⟩ = transcript input := by
    rintro t t' ht ht' owner' hl
    rwa [todo, pending_of_ne ccc main ht' ht]
  cases thr with
  | lock =>
    obtain ⟨-, rfl⟩ : _ ∧ _ = s' := by simpa [thrStep] using h
    exact hrest _ _ (by simp) (by simp) _ hl
  | wait =>
    obtain rfl := Option.some.inj h
    exact hrest _ _ (by simp) (by simp) _ hl
  | parked => cases h
  | woken =>
    obtain ⟨-, rfl⟩ : _ ∧ _ = s' := by simpa [thrStep] using h
    exact hrest _ _ (by simp) (by simp) _ hl
  | print =>
    obtain rfl := Option.some.inj h
    obtain rfl : main = .parked := hmain (.inl rfl)
    simpa [todo, pending] using hl
  | broadcast =>
    obtain rfl := Option.some.inj h
    obtain rfl : main = .parked := hmain (.inr rfl)
    simpa [todo, pending, Main.signal] using hl
  | usleep =>
    obtain rfl := Option.some.inj h
    exact hrest _ _ (by simp) (by simp) _ hl
  | ended => cases h

/-- A step of `main`, unless it takes the mutex for the first time. -/
theorem Meeting.main_of_ne (h : Meeting input s) (hs : mainStep s = some s')
    (hlock : ∀ c, s.main = .lock c → s.thr = .parked) : Meeting input s' := by
  obtain ⟨hlines, hin, hcanceled, heof⟩ := h
  rcases s with ⟨chars, ccc, owner, canceled, main, thr, output⟩
  refine ⟨lines_main hs hlines ?_, ?_, ?_, ?_⟩
  · rintro rfl
    have hthr : thr = .woken := hin.1
    simp [hthr]
  · cases main <;> grind [mainStep, InStep, Resting, Thr.signal]
  · cases main <;> grind [mainStep]
  · cases main <;> grind [mainStep]

theorem Meeting.thr (h : Meeting input s) (hs : thrStep s = some s') : Meeting input s' := by
  obtain ⟨hlines, hin, hcanceled, heof⟩ := h
  rcases s with ⟨chars, ccc, owner, canceled, main, thr, output⟩
  have hmain : thr = .print ∨ thr = .broadcast → main = .parked := by
    cases main <;> grind [InStep, Resting]
  refine ⟨lines_thr hs hlines hmain, ?_, ?_, ?_⟩
  · cases thr <;> cases main <;> grind [thrStep, InStep, Resting, Main.signal]
  · cases thr <;> grind [thrStep, Main.signal]
  · cases thr <;> cases main <;> grind [thrStep, Main.signal]

theorem Meeting.canceled_step (h : Meeting input s) (hs : canceledStep s = some s') :
    Meeting input s' := by
  obtain ⟨hlines, hin, hcanceled, heof⟩ := h
  rcases s with ⟨chars, ccc, owner, canceled, main, thr, output⟩
  have hmain : main = .join ∨ main = .ended := by
    apply hcanceled.mp
    grind [canceledStep]
  refine ⟨?_, ?_, ?_, ?_⟩
  · rcases hmain with rfl | rfl <;> cases thr <;> grind [canceledStep, todo, pending]
  · rcases hmain with rfl | rfl <;> cases thr <;> grind [canceledStep, InStep, Resting]
  · cases thr <;> grind [canceledStep]
  · cases thr <;> grind [canceledStep]

/-- `main` takes the mutex before the reader has waited. -/
theorem Meeting.missed {c : UInt8} (h : Meeting input s) (hs : mainStep s = some s')
    (hc : s.main = .lock c) (hthr : s.thr ≠ .parked) :
    s.output = [.writing c] ∧ Missed input s' := by
  obtain ⟨hlines, hin, hcanceled, heof⟩ := h
  have hlines' := lines_main hs hlines (by simp [hc])
  rcases s with ⟨chars, ccc, owner, canceled, main, thr, output⟩
  obtain rfl : main = .lock c := hc
  have hfree : owner = none ∧ s' = ⟨chars, ccc, some .main, canceled, .store c, thr, output⟩ := by
    grind [mainStep]
  obtain ⟨rfl, rfl⟩ := hfree
  have hlock : thr = .lock := by
    grind [InStep, Resting]
  obtain rfl := hlock
  have hfirst : output = [.writing c] := hin.2 rfl
  refine ⟨hfirst, hlines', by simp [hfirst], .inl ⟨⟨c, rfl⟩, rfl, rfl⟩, ?_⟩
  simpa using hcanceled

theorem Missed.next (h : Missed input s) (ha : a.Signaled) (hs : step s a = some s') :
    Missed input s' := by
  obtain ⟨hlines, hfirst, hplace, hcanceled⟩ := h
  rcases s with ⟨chars, ccc, owner, canceled, main, thr, output⟩
  cases a with
  | main =>
    refine ⟨lines_main hs hlines ?_, ?_, ?_, ?_⟩ <;>
      cases main <;> grind [step, mainStep, Resting, Thr.signal]
  | thr =>
    refine ⟨lines_thr hs hlines ?_, ?_, ?_, ?_⟩ <;>
      cases thr <;> grind [step, thrStep, Resting]
  | canceled =>
    simp only at hcanceled
    simp [step, canceledStep, hcanceled] at hs
  | wakeMain => exact absurd rfl ha.1
  | wakeThr => exact absurd rfl ha.2

theorem meeting_init (input : List UInt8) : Meeting input (init input) where
  lines := rfl
  inStep := ⟨.inl ⟨rfl, rfl⟩, fun _ => rfl⟩
  canceled := by simp [init]
  eof := by simp [init]

end Invariant

section Runs

variable {input : List UInt8} {s s' : State} {a : Action} {actions : List Action}

theorem Meeting.next (h : Meeting input s) (ha : a.Signaled) (hs : step s a = some s') :
    Met s a ∧ Meeting input s' ∨ ¬ Met s a ∧ Missed input s' := by
  cases a with
  | main =>
    by_cases hlock : ∀ c, s.main = .lock c → s.thr = .parked
    · refine .inl ⟨fun _ hc _ => ?_, h.main_of_ne hs hlock⟩
      rcases hmain : s.main <;> simp [hmain, Main.locks] at hc
      exact hlock _ hmain
    · push Not at hlock
      obtain ⟨c, hc, hthr⟩ := hlock
      obtain ⟨hfirst, hmissed⟩ := h.missed hs hc hthr
      refine .inr ⟨fun hmet => hthr (hmet rfl ?_ ?_), hmissed⟩
      · simp [hc, Main.locks]
      · simp [hfirst]
  | thr => exact .inl ⟨nofun, h.thr hs⟩
  | canceled => exact .inl ⟨nofun, h.canceled_step hs⟩
  | wakeMain => exact absurd rfl ha.1
  | wakeThr => exact absurd rfl ha.2

theorem Missed.of_run (h : Missed input s) (ha : ∀ a ∈ actions, a.Signaled)
    (hrun : run step s actions = some s') : Missed input s' :=
  run_invariant (fun _ a hmem _ hs h => h.next (ha a hmem) hs) hrun h

theorem Meeting.of_run (h : Meeting input s) (ha : ∀ a ∈ actions, a.Signaled)
    (hrun : run step s actions = some s') :
    AllSteps step Met s actions ∧ Meeting input s' ∨
      ¬ AllSteps step Met s actions ∧ Missed input s' := by
  induction actions generalizing s with
  | nil =>
    obtain rfl := Option.some.inj hrun
    exact .inl ⟨trivial, h⟩
  | cons a actions ih =>
    rw [List.forall_mem_cons] at ha
    obtain ⟨t, ht, hrun⟩ := Option.bind_eq_some_iff.mp hrun
    have hsteps : AllSteps step Met s (a :: actions) ↔ Met s a ∧ AllSteps step Met t actions := by
      simp [AllSteps, Along, ht]
    rw [hsteps]
    rcases h.next ha.1 ht with ⟨hmet, hnext⟩ | ⟨hmet, hmissed⟩
    · simpa [hmet] using ih hnext ha.2 hrun
    · exact .inr ⟨fun hall => hmet hall.1, hmissed.of_run ha.2 hrun⟩

/-- With the reader in step, only the end of both threads is the end. -/
theorem Meeting.ended (h : Meeting input s) (hstuck : Stuck s) :
    s.main = .ended ∧ s.thr = .ended ∧ s.output = transcript input := by
  obtain ⟨hlines, hin, hcanceled, heof⟩ := h
  have hmain : mainStep s = none := hstuck .main ⟨by simp, by simp⟩
  have hthr : thrStep s = none := hstuck .thr ⟨by simp, by simp⟩
  have hcancel : canceledStep s = none := hstuck .canceled ⟨by simp, by simp⟩
  rcases s with ⟨chars, ccc, owner, canceled, main, thr, output⟩
  have hended : main = .ended := by
    cases main <;> grind [mainStep, thrStep, canceledStep, InStep, Resting]
  obtain rfl := hended
  obtain rfl : thr = .ended := hin
  obtain rfl : chars = [] := heof (.inr (.inr rfl))
  refine ⟨rfl, rfl, ?_⟩
  simpa [todo, pending, transcript] using hlines

theorem Missed.deadlock (h : Missed input s) (hstuck : Stuck s) :
    s.main = .parked ∧ s.thr = .parked := by
  obtain ⟨-, -, hplace, -⟩ := h
  have hmain : mainStep s = none := hstuck .main ⟨by simp, by simp⟩
  have hthr : thrStep s = none := hstuck .thr ⟨by simp, by simp⟩
  rcases s with ⟨chars, ccc, owner, canceled, main, thr, output⟩
  grind [mainStep, thrStep, Resting]

/-- If the reader waits when `main` takes the mutex for the first time, every printable character is
written and then read, and the program ends. Otherwise the first character is never read, and both
threads end up waiting. In either case there is an end. -/
theorem rendezvous (hrun : run step (init input) actions = some s)
    (hsignaled : ∀ a ∈ actions, a.Signaled) :
    actions.length ≤ 14 * input.length + 6 ∧
      (AllSteps step Met (init input) actions → s.output <+: transcript input ∧
        (Stuck s → s.main = .ended ∧ s.thr = .ended ∧ s.output = transcript input)) ∧
      (¬ AllSteps step Met (init input) actions → s.output = (transcript input).take 1 ∧
        (Stuck s → s.main = .parked ∧ s.thr = .parked)) := by
  refine ⟨?_, ?_⟩
  · have hlen := length_add_le_of_run (fun s a ha s' => work_lt (hsignaled a ha)) hrun
    have hwork : work (init input) = 14 * input.length + 6 := rfl
    omega
  · rcases (meeting_init input).of_run hsignaled hrun with ⟨hmet, h⟩ | ⟨hmet, h⟩
    · refine ⟨fun _ => ⟨⟨_, h.lines⟩, h.ended⟩, fun hnot => absurd hmet hnot⟩
    · refine ⟨fun hall => absurd hall hmet, fun _ => ⟨?_, h.deadlock⟩⟩
      rw [← h.lines, ← h.first, List.take_left]

/-- One character, with the reader waiting before it comes. -/
def oneCharacter : List Action :=
  [.thr, .thr, .main, .main, .main, .main, .main, .main, .thr, .thr, .thr, .thr, .thr, .main, .main,
    .main, .main, .canceled, .main]

theorem rendezvous_oneCharacter :
    ∃ s, run step (init [97]) oneCharacter = some s ∧ s.main = .ended ∧ s.thr = .ended ∧
      s.output = [.writing 97, .read 97 0] := by
  have hrun : run step (init [97]) oneCharacter =
      some ⟨[], 97, some .thr, true, .ended, .ended, [.writing 97, .read 97 0]⟩ := by decide
  obtain ⟨-, hmet, -⟩ := rendezvous hrun (by decide)
  refine ⟨_, hrun, (hmet (by decide)).2 ?_⟩
  rintro (_ | _ | _ | _ | _) ⟨-, -⟩ <;> rfl

end Runs

end CollectedSources.CondWait
