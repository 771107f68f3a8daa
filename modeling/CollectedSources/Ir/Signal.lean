import CollectedSources.Ir.Receiver
import Mathlib

/-! # The signal and the receiver

Two runs of the receiver see the same levels at the same times of their clocks.
Before its first edge a call has timed no gap, but it looks at the time since
the initial contents of `start`. If that does not pass for a gap of one, both
runs print the same, whatever `start` was.
-/

namespace CollectedSources.Ir

open Machine Process

section Times

def micros (t : Timeval) : ℤ := t.sec * 1000000 + t.usec

/-- A time as the clock gives it. -/
def Normal (t : Timeval) : Prop := 0 ≤ t.usec ∧ t.usec < 1000000

/-- The time from `y` to `x` in microseconds, as an `unsigned long`. -/
def elapsed (x y : Timeval) : ℕ := ((micros x - micros y) % 2 ^ 64).toNat

/-- The same time of two clocks, the second of which is ahead by some microseconds. -/
def Same (ahead : ℤ) (t t' : Timeval) : Prop :=
  Normal t ∧ Normal t' ∧ micros t' = micros t + ahead

/-- The same time, or the same contents of a variable if the clocks agree. -/
def Held (ahead : ℤ) (t t' : Timeval) : Prop := Same ahead t t' ∨ ahead = 0 ∧ t = t'

theorem timevalDiff_of_normal {x y : Timeval} (hx : Normal x) (hy : Normal y) :
    (timevalDiff x y).1 = elapsed x y := by
  obtain ⟨xsec, xusec⟩ := x
  obtain ⟨ysec, yusec⟩ := y
  simp only [Normal] at hx hy
  have hno : ¬ xusec - yusec > 1000000 := by omega
  unfold timevalDiff elapsed micros
  by_cases hcarry : xusec < yusec
  · have hnsec : ((yusec - xusec) / 1000000 + 1) % 2 ^ 32 = 1 := by omega
    have hno' : ¬ xusec - (yusec - 1000000 * 1 % 2 ^ 32) > 1000000 := by omega
    simp only [hcarry, if_true, hnsec, hno', if_false]
    congr 2
    omega
  · simp only [hcarry, if_false, hno]
    congr 2
    omega

theorem Normal.eq_of_micros {x y : Timeval} (hx : Normal x) (hy : Normal y)
    (h : micros x = micros y) : x = y := by
  obtain ⟨xsec, xusec⟩ := x
  obtain ⟨ysec, yusec⟩ := y
  simp only [Normal, micros] at hx hy h
  congr 1 <;> omega

theorem Same.timevalDiff_eq {ahead : ℤ} {x x' y y' : Timeval} (hx : Same ahead x x')
    (hy : Held ahead y y') : (timevalDiff x y).1 = (timevalDiff x' y').1 := by
  obtain ⟨hnormal, hnormal', hmicros⟩ := hx
  rcases hy with ⟨hy, hy', hmicros'⟩ | ⟨rfl, rfl⟩
  · rw [timevalDiff_of_normal hnormal hy, timevalDiff_of_normal hnormal' hy', elapsed, elapsed,
      hmicros, hmicros']
    congr 2
    omega
  · rw [hnormal.eq_of_micros hnormal' (by omega)]

end Times

section Runs

/-- The time since the rising edge, or since the initial contents of `start`. -/
abbrev gapOf (s : State) (now : Timeval) : ℕ := (timevalDiff now s.locals.start).1

/-- The first edge of a call does not pass for a gap of one, and the counter does not wrap. -/
def Decodable (s : State) : Input → Prop
  | .sample (some now) _ => s.pc = .body → s.locals.oret = true → s.locals.ret = false →
      (s.locals.cnt = 0 → ¬ (1000 < gapOf s now ∧ gapOf s now < 2500)) ∧
        (gapOf s now ≤ 3000 → s.locals.cnt + 1 < 2 ^ 32)
  | _ => True

instance (s : State) : (i : Input) → Decidable (Decodable s i)
  | .sample (some now) _ =>
    inferInstanceAs (Decidable (s.pc = .body → s.locals.oret = true → s.locals.ret = false →
      (s.locals.cnt = 0 → ¬ (1000 < gapOf s now ∧ gapOf s now < 2500)) ∧
        (gapOf s now ≤ 3000 → s.locals.cnt + 1 < 2 ^ 32)))
  | .sample none _ => .isTrue trivial
  | .call _ _ _ _ => .isTrue trivial
  | .next => .isTrue trivial
  | .finish _ => .isTrue trivial
  | .alarm => .isTrue trivial

/-- The same levels at the same times of two clocks. The initial contents of `start` may differ. -/
inductive SameSignal (ahead : ℤ) : Input → Input → Prop
  | call {wait : Bool} {level : Option Bool} {start start' fin fin' : Timeval}
      (h : Held ahead fin fin') :
      SameSignal ahead (.call wait level start fin) (.call wait level start' fin')
  | next : SameSignal ahead .next .next
  | sample {now now' : Option Timeval} {level : Option Bool}
      (h : Option.Rel (Same ahead) now now') :
      SameSignal ahead (.sample now level) (.sample now' level)
  | finish {now now' : Option Timeval} (h : Option.Rel (Same ahead) now now') :
      SameSignal ahead (.finish now) (.finish now')
  | alarm : SameSignal ahead .alarm .alarm

/-- The variables of two calls agree, and `start` too if a gap has begun at `level`. -/
structure LocalsAlike (ahead : ℤ) (level : Bool) (l l' : Locals) : Prop where
  ret : l'.ret = l.ret
  oret : l'.oret = l.oret
  cnt : l'.cnt = l.cnt
  arr : l'.arr = l.arr
  fin : Held ahead l.fin l'.fin
  start : level = true → Same ahead l.start l'.start ∨ l.cnt = 0
  zero : l.cnt = 0 → l.arr = 0

/-- The static variables agree. -/
structure Alike (s s' : State) : Prop where
  maxCnt : s'.maxCnt = s.maxCnt
  timeout : s'.timeout = s.timeout
  pending : s'.pending = s.pending
  pc : s'.pc = s.pc

/-- Two runs between two steps. -/
structure RunsAlike (ahead : ℤ) (s s' : State) : Prop extends Alike s s' where
  locals : s.pc ≠ .entry → LocalsAlike ahead s.locals.oret s.locals s'.locals

variable {ahead : ℤ} {s s' : State} {now now' : Timeval}

@[simp] theorem setupTimer_locals {cycles : ℕ} : (setupTimer s cycles).2.locals = s.locals := by
  unfold setupTimer
  dsimp only
  split_ifs <;> rfl

theorem setupTimer_alike (h : Alike s s') (cycles : ℕ) :
    (setupTimer s cycles).1 = (setupTimer s' cycles).1 ∧
      Alike (setupTimer s cycles).2 (setupTimer s' cycles).2 := by
  unfold setupTimer
  dsimp only
  split_ifs
  all_goals exact ⟨rfl, h.maxCnt, h.timeout, by first | rfl | exact h.pending, h.pc⟩

theorem pulse_of_cnt_eq_zero (hcnt : s.locals.cnt = 0) (harr : s.locals.arr = 0)
    (hgap : ¬ (1000 < gapOf s now ∧ gapOf s now < 2500)) :
    pulse s now = ([], { s with locals := { s.locals with
      start := (timevalDiff now s.locals.start).2, fin := now, cnt := 1, arr := 0 } }) := by
  unfold pulse
  dsimp only
  split
  · simp [hcnt]
  · rw [if_neg fun h => hgap ⟨h.1, h.2.1⟩, hcnt, harr]
    rfl

theorem pulse_alike (h : Alike s s') (hl : LocalsAlike ahead true s.locals s'.locals)
    (hnow : Same ahead now now')
    (hfirst : s.locals.cnt = 0 → ¬ (1000 < gapOf s now ∧ gapOf s now < 2500))
    (hfirst' : s'.locals.cnt = 0 → ¬ (1000 < gapOf s' now' ∧ gapOf s' now' < 2500))
    (hcnt : gapOf s now ≤ 3000 → s.locals.cnt + 1 < 2 ^ 32) (hret : s.locals.ret = false) :
    (pulse s now).1 = (pulse s' now').1 ∧ Alike (pulse s now).2 (pulse s' now').2 ∧
      LocalsAlike ahead (pulse s now).2.locals.ret (pulse s now).2.locals
        (pulse s' now').2.locals := by
  have hlow : s.locals.ret ≠ true := by simp [hret]
  by_cases hzero : s.locals.cnt = 0
  · have hzero' : s'.locals.cnt = 0 := hl.cnt.trans hzero
    have harr := hl.zero hzero
    rw [pulse_of_cnt_eq_zero hzero harr (hfirst hzero),
      pulse_of_cnt_eq_zero hzero' (hl.arr.trans harr) (hfirst' hzero')]
    exact ⟨rfl, ⟨h.maxCnt, h.timeout, h.pending, h.pc⟩,
      hl.ret, hl.oret, rfl, rfl, Or.inl hnow, fun h => absurd h hlow, nofun⟩
  · have hgap : (timevalDiff now' s'.locals.start).1 = (timevalDiff now s.locals.start).1 :=
      (hnow.timevalDiff_eq (Or.inl ((hl.start rfl).resolve_right hzero))).symm
    unfold pulse
    dsimp only
    rw [hgap, hl.cnt, hl.arr, h.maxCnt]
    by_cases hlong : (timevalDiff now s.locals.start).1 > 3000
    · rw [if_pos hlong, if_pos hlong, if_pos (Nat.pos_of_ne_zero hzero),
        if_pos (Nat.pos_of_ne_zero hzero)]
      have halike : Alike
          { s with
            maxCnt := max s.maxCnt s.locals.cnt
            locals := { s.locals with
              start := (timevalDiff now s.locals.start).2, fin := now, cnt := 1, arr := 0 } }
          { s' with
            maxCnt := max s.maxCnt s.locals.cnt
            locals := { s'.locals with
              start := (timevalDiff now' s'.locals.start).2, fin := now', cnt := 1, arr := 0 } } :=
        ⟨rfl, h.timeout, h.pending, h.pc⟩
      obtain ⟨hevents, halike⟩ := setupTimer_alike halike (max s.maxCnt s.locals.cnt)
      refine ⟨congrArg (_ ++ ·) hevents, halike, ?_⟩
      simp only [setupTimer_locals]
      exact ⟨hl.ret, hl.oret, rfl, rfl, Or.inl hnow, fun h => absurd h hlow, nofun⟩
    · rw [if_neg hlong, if_neg hlong]
      have hne : (s.locals.cnt + 1) % 2 ^ 32 ≠ 0 := by
        have := hcnt (not_lt.mp hlong)
        omega
      refine ⟨rfl, ⟨rfl, h.timeout, h.pending, h.pc⟩, ?_⟩
      exact ⟨hl.ret, hl.oret, rfl, rfl, Or.inl hnow, fun h => absurd h hlow, fun h => absurd h hne⟩

theorem edge_alike {now now' : Option Timeval} {level : Option Bool} (h : RunsAlike ahead s s')
    (hpc : s.pc = .body) (hnow : Option.Rel (Same ahead) now now')
    (hc : Decodable s (.sample now level)) (hc' : Decodable s' (.sample now' level)) :
    (edge s now).1 = (edge s' now').1 ∧ Option.Rel
      (fun t t' => Alike t t' ∧ LocalsAlike ahead t.locals.ret t.locals t'.locals)
      (edge s now).2 (edge s' now').2 := by
  have hl : LocalsAlike ahead s.locals.oret s.locals s'.locals := h.locals (by simp [hpc])
  unfold edge
  rw [hl.ret, hl.oret]
  by_cases hlevel : s.locals.ret = s.locals.oret
  · rw [if_pos hlevel, if_pos hlevel]
    rw [← hlevel] at hl
    exact ⟨rfl, .some ⟨h.toAlike, hl⟩⟩
  · rw [if_neg hlevel, if_neg hlevel]
    cases hnow with
    | none => exact ⟨rfl, .none⟩
    | @some now now' hnow =>
      dsimp only
      by_cases hret : s.locals.ret = true
      · rw [if_pos hret, if_pos hret]
        exact ⟨rfl, .some ⟨⟨h.maxCnt, h.timeout, h.pending, h.pc⟩, hl.ret, hl.oret, hl.cnt, hl.arr,
          hl.fin, fun _ => Or.inl hnow, hl.zero⟩⟩
      · rw [if_neg hret, if_neg hret]
        have hret : s.locals.ret = false := Bool.eq_false_iff.mpr hret
        have horet : s.locals.oret = true := by
          rw [hret] at hlevel
          exact Bool.eq_true_of_not_eq_false (Ne.symm hlevel)
        rw [horet] at hl
        obtain ⟨hfirst, hcnt⟩ := hc hpc horet hret
        obtain ⟨hfirst', -⟩ := hc' (h.pc.trans hpc) (hl.oret.trans horet) (hl.ret.trans hret)
        obtain ⟨hevents, halike, hlocals⟩ :=
          pulse_alike h.toAlike hl hnow hfirst hfirst' hcnt hret
        exact ⟨hevents, .some ⟨halike, hlocals⟩⟩

theorem RunsAlike.sample {now now' : Option Timeval} {level : Option Bool}
    (h : RunsAlike ahead s s') (hpc : s.pc = .body) (hnow : Option.Rel (Same ahead) now now')
    (hc : Decodable s (.sample now level)) (hc' : Decodable s' (.sample now' level)) :
    (andThen (edge s now) fun s => sample s level).1 =
        (andThen (edge s' now') fun s => sample s level).1 ∧
      Option.Rel (RunsAlike ahead) (andThen (edge s now) fun s => sample s level).2
        (andThen (edge s' now') fun s => sample s level).2 := by
  obtain ⟨hevents, hnext⟩ := edge_alike h hpc hnow hc hc'
  generalize edge s now = r at hevents hnext ⊢
  generalize edge s' now' = r' at hevents hnext ⊢
  obtain ⟨events, next⟩ := r
  obtain ⟨events', next'⟩ := r'
  cases hnext with
  | none => exact ⟨hevents, .none⟩
  | some hnext =>
    obtain ⟨halike, hl⟩ := hnext
    simp only [andThen_some]
    cases level with
    | none => exact ⟨congrArg (· ++ _) hevents, .none⟩
    | some level =>
      refine ⟨congrArg (· ++ _) hevents, .some
        ⟨⟨halike.maxCnt, halike.timeout, halike.pending, rfl⟩, fun _ => ?_⟩⟩
      exact ⟨rfl, hl.ret, hl.cnt, hl.arr, hl.fin, hl.start, hl.zero⟩

theorem finish_alike (h : RunsAlike ahead s s') (hpc : s.pc = .after)
    (hnow : Same ahead now now') :
    (finish s now).1 = (finish s' now').1 ∧
      RunsAlike ahead (finish s now).2 (finish s' now').2 := by
  have hl : LocalsAlike ahead s.locals.oret s.locals s'.locals := h.locals (by simp [hpc])
  have hdiff : (timevalDiff now' s'.locals.fin).1 = (timevalDiff now s.locals.fin).1 :=
    (hnow.timevalDiff_eq hl.fin).symm
  unfold finish
  dsimp only
  rw [hdiff, hl.cnt, hl.arr, h.maxCnt]
  exact ⟨rfl, ⟨rfl, h.timeout, h.pending, rfl⟩, fun h => absurd rfl h⟩

theorem RunsAlike.step {i i' : Input} (h : RunsAlike ahead s s') (hi : SameSignal ahead i i')
    (hc : Decodable s i) (hc' : Decodable s' i') :
    (step s i).1 = (step s' i').1 ∧ Option.Rel (RunsAlike ahead) (step s i).2 (step s' i').2 := by
  cases hi with
  | @call wait level start start' fin fin' hfin =>
    simp only [Ir.step, h.pc]
    by_cases hpc : s.pc ≠ .entry
    · rw [if_pos hpc, if_pos hpc]
      exact ⟨rfl, .none⟩
    · rw [if_neg hpc, if_neg hpc]
      cases wait with
      | false => exact ⟨rfl, .none⟩
      | true =>
        rcases level with _ | _ | _
        · exact ⟨rfl, .none⟩
        · exact ⟨rfl, .some ⟨⟨h.maxCnt, rfl, h.pending, rfl⟩, fun _ =>
            ⟨rfl, rfl, rfl, rfl, hfin, fun _ => Or.inr rfl, fun _ => rfl⟩⟩⟩
        · exact ⟨rfl, .some h⟩
  | next =>
    simp only [Ir.step, h.pc, h.maxCnt, h.timeout]
    rcases hpc : s.pc
    · exact ⟨rfl, .none⟩
    · obtain ⟨hevents, halike⟩ := setupTimer_alike h.toAlike s.maxCnt
      refine ⟨hevents, .some ⟨⟨halike.maxCnt, halike.timeout, halike.pending, rfl⟩, fun _ => ?_⟩⟩
      simp only [setupTimer_locals]
      exact h.locals (by simp [hpc])
    · exact ⟨rfl, .some ⟨⟨rfl, rfl, h.pending, rfl⟩, fun _ => h.locals (by simp [hpc])⟩⟩
    · exact ⟨rfl, .none⟩
    · exact ⟨rfl, .none⟩
  | @sample now now' level hnow =>
    simp only [Ir.step, h.pc]
    by_cases hpc : s.pc = .body
    · rw [if_pos hpc, if_pos hpc]
      exact h.sample hpc hnow hc hc'
    · rw [if_neg hpc, if_neg hpc]
      exact ⟨rfl, .none⟩
  | @finish now now' hnow =>
    simp only [Ir.step, h.pc]
    by_cases hpc : s.pc = .after
    · rw [if_pos hpc, if_pos hpc]
      cases hnow with
      | none => exact ⟨rfl, .none⟩
      | some hnow =>
        obtain ⟨hevents, hnext⟩ := finish_alike h hpc hnow
        exact ⟨hevents, .some hnext⟩
    · rw [if_neg hpc, if_neg hpc]
      exact ⟨rfl, .none⟩
  | alarm =>
    simp only [Ir.step, h.pending, h.timeout]
    by_cases hpending : s.pending = true
    · rw [if_pos hpending, if_pos hpending]
      exact ⟨rfl, .some ⟨⟨h.maxCnt, rfl, rfl, h.pc⟩, h.locals⟩⟩
    · rw [if_neg hpending, if_neg hpending]
      exact ⟨rfl, .none⟩

theorem events_eq_of_sameSignal {inputs inputs' : List Input} (hs : s.pc = .entry)
    (hsame : List.Forall₂ (SameSignal ahead) inputs inputs')
    (h : AllSteps (fun s i => (step s i).2) Decodable s inputs)
    (h' : AllSteps (fun s i => (step s i).2) Decodable s inputs') :
    (run step s inputs).1 = (run step s inputs').1 := by
  have hstart : RunsAlike ahead s s := ⟨⟨rfl, rfl, rfl, rfl⟩, fun hne => absurd hs hne⟩
  refine run_events_eq (fun s s' i i' hs hi hc hc' => ?_) hstart hsame h h'
  exact RunsAlike.step hs hi hc hc'

end Runs

end CollectedSources.Ir
