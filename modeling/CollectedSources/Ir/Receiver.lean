import CollectedSources.Machine.Process
import CollectedSources.Machine.Run
import Mathlib

/-! # The infrared receiver

The receiver counts the pulses of a frame and waits for the end of a frame for
a time that grows with the longest frame so far. The timer takes less than a
second. It is armed in every run whose frames have less than 400 pulses.
-/

namespace CollectedSources.Ir

open Machine Process

structure Timeval where
  sec : ℤ
  usec : ℤ
  deriving DecidableEq, Repr

/-- The difference as an `unsigned long`, and `y` after the carry. -/
def timevalDiff (x y : Timeval) : ℕ × Timeval :=
  let y : Timeval :=
    if x.usec < y.usec then
      let nsec := ((y.usec - x.usec) / 1000000 + 1) % 2 ^ 32
      ⟨y.sec + nsec, y.usec - 1000000 * nsec % 2 ^ 32⟩
    else y
  let y : Timeval :=
    if x.usec - y.usec > 1000000 then
      let nsec := (x.usec - y.usec) / 1000000 % 2 ^ 32
      ⟨y.sec - nsec, y.usec + 1000000 * nsec % 2 ^ 32⟩
    else y
  ((((x.sec - y.sec) * 1000000 + x.usec - y.usec) % 2 ^ 64).toNat, y)

/-- The local variables of `process`. `ret` and `oret` are the levels of DSR. -/
structure Locals where
  ret : Bool
  oret : Bool
  start : Timeval
  fin : Timeval
  cnt : ℕ
  arr : BitVec 64
  deriving DecidableEq, Repr

inductive Pc
  | entry
  | arm
  | test
  | body
  | after
  deriving DecidableEq, Repr

/-- The static variables, whether an alarm is pending, and the call of `process`. -/
structure State where
  maxCnt : ℕ
  timeout : ℕ
  pending : Bool
  pc : Pc
  locals : Locals
  deriving DecidableEq, Repr

inductive Event
  | setitimer (usec : ℕ)
  | now
  | output (arr : BitVec 64)
  | newController (diff maxCnt usec : ℕ)
  | summary (cnt maxCnt : ℕ)
  | perror (text : String)
  deriving DecidableEq, Repr

/-- What the environment does. The local variables of a call start with any times. -/
inductive Input
  | call (wait : Bool) (level : Option Bool) (start fin : Timeval)
  | next
  | sample (now : Option Timeval) (level : Option Bool)
  | finish (now : Option Timeval)
  | alarm
  deriving DecidableEq, Repr

section Steps

def timerValue (cycles : ℕ) : ℕ := if cycles > 10 then cycles * 2500 % 2 ^ 32 else 200000

/-- Zero turns the timer off; a second or more is refused and changes nothing. -/
def setupTimer (s : State) (cycles : ℕ) : List Event × State :=
  let usec := timerValue cycles
  ([.setitimer usec],
    if usec = 0 then { s with pending := false }
    else if usec < 1000000 then { s with pending := true }
    else s)

def outputArr (arr : BitVec 64) : List Event := if arr = 0 then [] else [.output arr]

def fail (text : String) : List Event × Option State := ([.perror text], none)

/-- The end of a pulse. -/
def pulse (s : State) (now : Timeval) : List Event × State :=
  let l := s.locals
  let (diff, start) := timevalDiff now l.start
  if diff > 3000 then
    let s' : State :=
      { s with locals := { l with start, fin := now, cnt := 1, arr := 0 } }
    if l.cnt > 0 then
      let s' := { s' with maxCnt := max s.maxCnt l.cnt }
      (outputArr l.arr ++ (setupTimer s' s'.maxCnt).1, (setupTimer s' s'.maxCnt).2)
    else ([], s')
  else
    let arr := if diff > 1000 ∧ diff < 2500 ∧ l.cnt < 64 then l.arr ||| 1 <<< l.cnt else l.arr
    ([], { s with locals := { l with start, fin := now, cnt := (l.cnt + 1) % 2 ^ 32, arr } })

/-- An iteration of the loop up to the next level. -/
def edge (s : State) (now : Option Timeval) : List Event × Option State :=
  if s.locals.ret = s.locals.oret then ([], some s)
  else
    match now with
    | none => fail "gettimeofday"
    | some now =>
      if s.locals.ret then ([], some { s with locals := { s.locals with start := now } })
      else ((pulse s now).1, some (pulse s now).2)

def sample (s : State) (level : Option Bool) : List Event × Option State :=
  match level with
  | none => fail "ioctl (TIOCMGET)"
  | some level =>
    ([], some { s with
      pc := .test
      locals := { s.locals with oret := s.locals.ret, ret := level } })

/-- What follows the loop. -/
def finish (s : State) (now : Timeval) : List Event × State :=
  let l := s.locals
  let (diff, fin) := timevalDiff now l.fin
  let maxCnt := if diff < 1000 then 0 else max s.maxCnt l.cnt
  ((if diff < 1000 then [.newController diff s.maxCnt (s.maxCnt * 2500 % 2 ^ 32)] else []) ++
      outputArr l.arr ++ [.summary l.cnt maxCnt],
    { s with maxCnt, pc := .entry, locals := { l with start := now, fin } })

def step (s : State) : Input → List Event × Option State
  | .call wait level start fin =>
    if s.pc ≠ .entry then ([], none)
    else if !wait then fail "ioctl (TIOCMIWAIT)"
    else
      match level with
      | none => fail "ioctl (TIOCMGET)"
      | some true => ([], some s)
      | some false =>
        ([], some { s with pc := .arm, timeout := 0, locals := ⟨false, true, start, fin, 0, 0⟩ })
  | .next =>
    match s.pc with
    | .arm => ((setupTimer s s.maxCnt).1, some { (setupTimer s s.maxCnt).2 with pc := .test })
    | .test => ([], some { s with pc := if s.timeout = 0 then .body else .after })
    | _ => ([], none)
  | .sample now level =>
    if s.pc = .body then andThen (edge s now) fun s => sample s level else ([], none)
  | .finish now =>
    if s.pc = .after then
      match now with
      | none => fail "gettimeofday"
      | some now => ((finish s now).1, some (finish s now).2)
    else ([], none)
  | .alarm =>
    if s.pending then ([.now], some { s with timeout := s.timeout + 1, pending := false })
    else ([], none)

/-- The program starts with no timer. -/
def start : State := ⟨0, 0, false, .entry, ⟨false, false, ⟨0, 0⟩, ⟨0, 0⟩, 0, 0⟩⟩

end Steps

section Timer

/-- The values that start the timer. -/
def Event.Accepted : Event → Prop
  | .setitimer usec => 0 < usec ∧ usec < 1000000
  | _ => True

/-- An alarm is pending in the loop. -/
def Armed (s : State) : Prop := s.pc = .test ∨ s.pc = .body → s.timeout = 0 → s.pending

/-- A frame that is over had less than 400 pulses. -/
def FrameShort (s : State) : Input → Prop
  | .sample (some now) _ => s.pc = .body → s.locals.oret = true → s.locals.ret = false →
      3000 < (timevalDiff now s.locals.start).1 → s.locals.cnt < 400
  | .finish (some now) => s.pc = .after → 1000 ≤ (timevalDiff now s.locals.fin).1 →
      s.locals.cnt < 400
  | _ => True

instance (s : State) (i : Input) : Decidable (FrameShort s i) := by
  unfold FrameShort
  split <;> infer_instance

structure Inv (s : State) : Prop where
  maxCnt : s.maxCnt < 400
  armed : Armed s

variable {s : State}

theorem timerValue_bounds {cycles : ℕ} (h : cycles < 400) :
    0 < timerValue cycles ∧ timerValue cycles < 1000000 := by
  have hmod : cycles * 2500 % 2 ^ 32 = cycles * 2500 := Nat.mod_eq_of_lt (by omega)
  rw [timerValue, hmod]
  split <;> omega

theorem setupTimer_eq {cycles : ℕ} (h : cycles < 400) :
    setupTimer s cycles = ([.setitimer (timerValue cycles)], { s with pending := true }) := by
  obtain ⟨hpos, hlt⟩ := timerValue_bounds h
  rw [setupTimer, if_neg hpos.ne', if_pos hlt]

theorem accepted_outputArr {arr : BitVec 64} : ∀ e ∈ outputArr arr, e.Accepted := by
  intro e he
  rw [outputArr] at he
  split at he
  · cases he
  · rw [List.mem_singleton.mp he]
    trivial

theorem accepted_setitimer {cycles : ℕ} (h : cycles < 400) :
    ∀ e ∈ [Event.setitimer (timerValue cycles)], e.Accepted := by
  intro e he
  rw [List.mem_singleton.mp he]
  exact timerValue_bounds h

theorem pulse_spec {now : Timeval} (h : Inv s)
    (hshort : 3000 < (timevalDiff now s.locals.start).1 → s.locals.cnt < 400) :
    (∀ e ∈ (pulse s now).1, e.Accepted) ∧ (pulse s now).2.maxCnt < 400 ∧
      (pulse s now).2.timeout = s.timeout ∧ (s.pending → (pulse s now).2.pending) := by
  unfold pulse
  dsimp only
  split
  · rename_i hdiff
    have hmax : max s.maxCnt s.locals.cnt < 400 := max_lt h.maxCnt (hshort hdiff)
    split
    · rw [setupTimer_eq hmax]
      refine ⟨?_, hmax, rfl, fun _ => rfl⟩
      intro e he
      rcases List.mem_append.mp he with he | he
      · exact accepted_outputArr e he
      · exact accepted_setitimer hmax e he
    · exact ⟨by simp, h.maxCnt, rfl, id⟩
  · exact ⟨by simp, h.maxCnt, rfl, id⟩

theorem accepted_fail {text : String} : ∀ e ∈ (fail text).1, e.Accepted := by
  intro e he
  rw [List.mem_singleton.mp he]
  trivial

theorem edge_spec {now : Option Timeval} {level : Option Bool} (h : Inv s) (hpc : s.pc = .body)
    (hshort : FrameShort s (.sample now level)) :
    (∀ e ∈ (edge s now).1, e.Accepted) ∧ ∀ s' ∈ (edge s now).2, s'.maxCnt < 400 ∧
      (s'.timeout = 0 → s'.pending) := by
  have harmed : s.timeout = 0 → s.pending := h.armed (Or.inr hpc)
  unfold edge
  split
  · refine ⟨by simp, fun s' hs' => ?_⟩
    cases hs'
    exact ⟨h.maxCnt, harmed⟩
  · rename_i hne
    cases now with
    | none => exact ⟨accepted_fail, fun s' hs' => by cases hs'⟩
    | some now =>
      dsimp only
      split
      · refine ⟨by simp, fun s' hs' => ?_⟩
        cases hs'
        exact ⟨h.maxCnt, harmed⟩
      · rename_i hret
        have hret : s.locals.ret = false := Bool.not_eq_true _ ▸ hret
        have horet : s.locals.oret = true := by
          rw [hret] at hne
          exact Bool.eq_true_of_not_eq_false (Ne.symm hne)
        obtain ⟨hev, hmax, htimeout, hpending⟩ := pulse_spec h (hshort hpc horet hret)
        refine ⟨hev, fun s' hs' => ?_⟩
        cases hs'
        rw [htimeout]
        exact ⟨hmax, fun ht => hpending (harmed ht)⟩

theorem finish_spec {now : Timeval} (h : Inv s)
    (hshort : 1000 ≤ (timevalDiff now s.locals.fin).1 → s.locals.cnt < 400) :
    (∀ e ∈ (finish s now).1, e.Accepted) ∧ (finish s now).2.maxCnt < 400 := by
  unfold finish
  dsimp only
  split
  · refine ⟨fun e he => ?_, by decide⟩
    simp only [List.mem_append, List.mem_singleton] at he
    rcases he with (rfl | he) | rfl
    · trivial
    · exact accepted_outputArr e he
    · trivial
  · rename_i hdiff
    refine ⟨fun e he => ?_, max_lt h.maxCnt (hshort (not_lt.mp hdiff))⟩
    simp only [List.nil_append, List.mem_append, List.mem_singleton] at he
    rcases he with he | rfl
    · exact accepted_outputArr e he
    · trivial

theorem sample_forall {P : Event → Prop} {Q : State → Prop} {r : List Event × Option State}
    {level : Option Bool} (hfail : ∀ text, P (.perror text)) (hevents : ∀ e ∈ r.1, P e)
    (hnext : ∀ t ∈ r.2, ∀ level, Q { t with
      pc := .test
      locals := { t.locals with oret := t.locals.ret, ret := level } }) :
    (∀ e ∈ (andThen r fun s => sample s level).1, P e) ∧
      ∀ s' ∈ (andThen r fun s => sample s level).2, Q s' := by
  obtain ⟨events, _ | t⟩ := r
  · exact ⟨hevents, fun s' hs' => by cases hs'⟩
  · rw [andThen_some]
    cases level with
    | none =>
      refine ⟨fun e he => ?_, fun s' hs' => by cases hs'⟩
      rcases List.mem_append.mp he with he | he
      · exact hevents e he
      · rw [List.mem_singleton.mp he]
        exact hfail _
    | some level =>
      refine ⟨by simpa [sample] using hevents, fun s' hs' => ?_⟩
      cases hs'
      exact hnext t rfl level

theorem Inv.step {i : Input} (h : Inv s) (hshort : FrameShort s i) :
    (∀ e ∈ (step s i).1, e.Accepted) ∧ ∀ s' ∈ (step s i).2, Inv s' := by
  cases i with
  | call wait level start fin =>
    simp only [Ir.step]
    split
    · simp
    split
    · exact ⟨accepted_fail, fun s' hs' => by cases hs'⟩
    split
    · exact ⟨accepted_fail, fun s' hs' => by cases hs'⟩
    · exact ⟨by simp, fun s' hs' => by cases hs'; exact h⟩
    · refine ⟨by simp, fun s' hs' => ?_⟩
      cases hs'
      exact ⟨h.maxCnt, by simp [Armed]⟩
  | next =>
    simp only [Ir.step]
    split
    · rw [setupTimer_eq h.maxCnt]
      refine ⟨accepted_setitimer h.maxCnt, fun s' hs' => ?_⟩
      cases hs'
      exact ⟨h.maxCnt, fun _ _ => rfl⟩
    · rename_i hpc
      refine ⟨by simp, fun s' hs' => ?_⟩
      cases hs'
      exact ⟨h.maxCnt, fun _ => h.armed (Or.inl hpc)⟩
    · simp
  | sample now level =>
    simp only [Ir.step]
    split
    · rename_i hpc
      obtain ⟨hev, hst⟩ := edge_spec h hpc hshort
      apply sample_forall (fun _ => trivial) hev
      intro t ht level
      obtain ⟨hmax, harmed⟩ := hst t ht
      exact ⟨hmax, fun _ => harmed⟩
    · simp
  | finish now =>
    simp only [Ir.step]
    split
    · rename_i hpc
      cases now with
      | none => exact ⟨accepted_fail, fun s' hs' => by cases hs'⟩
      | some now =>
        obtain ⟨hev, hmax⟩ := finish_spec h (hshort hpc)
        refine ⟨hev, fun s' hs' => ?_⟩
        cases hs'
        exact ⟨hmax, by simp [Armed, finish]⟩
    · simp
  | alarm =>
    simp only [Ir.step]
    split
    · refine ⟨by simp [Event.Accepted], fun s' hs' => ?_⟩
      cases hs'
      exact ⟨h.maxCnt, fun _ ht => absurd ht (Nat.succ_ne_zero _)⟩
    · simp

theorem inv_start : Inv start := ⟨by decide, by simp [Armed, start]⟩

/-- Without long frames every value starts the timer, and the loop has its alarm. -/
theorem armed_of_frameShort {inputs : List Input}
    (h : AllSteps (fun s i => (step s i).2) FrameShort start inputs) :
    Along (fun s i => (step s i).2) Armed (fun s i => ∀ e ∈ (step s i).1, e.Accepted)
      start inputs :=
  along_of_allSteps (fun _ hs => hs.armed) (fun _ _ hs hi => hs.step hi) inv_start h

/-- A frame of 400 short pulses that ends with a gap of 4 ms. -/
def longFrame : List Input :=
  [.call true (some false) ⟨1000, 0⟩ ⟨1000, 0⟩, .next] ++
    (List.range 800).flatMap (fun k =>
      [.next, .sample (some ⟨1000, 200 * k⟩) (some (k % 2 = 0))]) ++
    [.next, .sample (some ⟨1000, 164000⟩) (some false)]

theorem not_armed_longFrame :
    ¬ Along (fun s i => (step s i).2) Armed (fun s i => ∀ e ∈ (step s i).1, e.Accepted)
      start longFrame := by
  intro h
  have hmem : Event.setitimer 1000000 ∈ (Process.run step start longFrame).1 := by decide +kernel
  exact absurd (forall_of_along h _ hmem).2 (lt_irrefl _)

/-- A frame of two pulses that the third one closes, and the alarm after it. -/
def shortFrames : List Input :=
  [.call true (some false) ⟨5, 0⟩ ⟨5, 0⟩, .next,
    .next, .sample (some ⟨6, 0⟩) (some true), .next, .sample (some ⟨6, 900⟩) (some false),
    .next, .sample (some ⟨6, 1500⟩) (some true), .next, .sample (some ⟨6, 2000⟩) (some false),
    .next, .sample (some ⟨6, 7000⟩) (some true), .alarm, .next, .finish (some ⟨6, 200000⟩)]

theorem armed_shortFrame :
    Along (fun s i => (step s i).2) Armed (fun s i => ∀ e ∈ (step s i).1, e.Accepted) start
        shortFrames ∧
      (Process.run step start shortFrames).1 =
        [.setitimer 200000, .setitimer 200000, .now, .summary 1 2] := by
  refine ⟨armed_of_frameShort ?_, ?_⟩ <;> decide

end Timer

end CollectedSources.Ir
