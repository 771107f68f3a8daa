import CollectedSources.Ir.Signal
import Mathlib

/-! # What the receiver decodes

The gaps between the pulses of a frame give the bits of a code. What a run
prints is compared with a record of the edges that it has seen. The record has
no gap for the first edge of a call.
-/

namespace CollectedSources.Ir

open Machine Process

section Gaps

/-- The last rising edge of a call, and the gaps of the frame. -/
structure Observed where
  rise : Option Timeval
  frame : List (Option ℕ)
  deriving DecidableEq, Repr

/-- A pulse begins. The first edge of a call ends no gap, a long gap begins a frame. -/
def Observed.fall (o : Observed) (now : Timeval) : Observed :=
  match o.rise with
  | none => { o with frame := o.frame ++ [none] }
  | some rise =>
    { o with
      frame := (if 3000 < elapsed now rise then [] else o.frame) ++ [some (elapsed now rise)] }

/-- What the levels and the times say of the frame. -/
def observe (s : State) (o : Observed) : Input → Observed
  | .call _ _ _ _ => ⟨none, []⟩
  | .sample (some now) _ =>
    if s.locals.ret = s.locals.oret then o
    else if s.locals.ret then { o with rise := some now }
    else o.fall now
  | _ => o

/-- The gaps of one set their bits. -/
def Codes (arr : BitVec 64) (frame : List (Option ℕ)) : Prop :=
  ∀ k < 64, arr.getLsbD k = true ↔ ∃ gap, frame[k]? = some (some gap) ∧ 1000 < gap ∧ gap < 2500

/-- What is printed is what the frame before it says. -/
def Describes : Event × Observed → Prop
  | (.output arr, o) => Codes arr o.frame
  | (.summary cnt _, o) => cnt = o.frame.length
  | _ => True

/-- The clock gives a time. -/
def Timed : Input → Prop
  | .sample (some now) _ => Normal now
  | _ => True

theorem codes_zero {frame : List (Option ℕ)}
    (h : ∀ gap, some gap ∈ frame → ¬ (1000 < gap ∧ gap < 2500)) : Codes 0 frame := by
  intro k _
  constructor
  · simp
  · rintro ⟨gap, hgap, hone⟩
    exact absurd hone (h gap (List.mem_of_getElem? hgap))

theorem getLsbD_or_bit {arr : BitVec 64} {n k : ℕ} (hk : k < 64) :
    (arr ||| 1 <<< n).getLsbD k = (arr.getLsbD k || decide (n = k)) := by
  rw [BitVec.getLsbD_or, BitVec.natCast_eq_ofNat, BitVec.getLsbD_ofNat, Nat.one_shiftLeft,
    Nat.testBit_two_pow, decide_eq_true hk, Bool.true_and]

theorem Codes.eq_false {arr : BitVec 64} {frame : List (Option ℕ)} {k : ℕ} (h : Codes arr frame)
    (hk : k < 64) (hle : frame.length ≤ k) : arr.getLsbD k = false := by
  rw [Bool.eq_false_iff, Ne, h k hk, List.getElem?_eq_none hle]
  simp

theorem Codes.eq_zero {arr : BitVec 64} (h : Codes arr []) : arr = 0 := by
  apply BitVec.eq_of_getLsbD_eq
  intro k hk
  rw [h.eq_false hk (Nat.zero_le k)]
  simp

theorem Codes.append {arr : BitVec 64} {frame : List (Option ℕ)} (h : Codes arr frame)
    (gap : ℕ) :
    Codes (if gap > 1000 ∧ gap < 2500 ∧ frame.length < 64 then arr ||| 1 <<< frame.length else arr)
      (frame ++ [some gap]) := by
  intro k hk
  rcases lt_trichotomy k frame.length with hlt | rfl | hlt
  · rw [List.getElem?_append_left hlt, ← h k hk]
    split
    · rw [getLsbD_or_bit hk, decide_eq_false hlt.ne', Bool.or_false]
    · rfl
  · rw [List.getElem?_concat_length]
    split
    · rename_i hone
      rw [getLsbD_or_bit hk]
      simp [hone.1, hone.2.1]
    · rename_i hone
      rw [h.eq_false hk le_rfl]
      simp only [Bool.false_eq_true, Option.some.injEq, false_iff]
      rintro ⟨gap, rfl, hgap⟩
      exact hone ⟨hgap.1, hgap.2, hk⟩
  · rw [List.getElem?_eq_none (by simp; omega)]
    split
    · rw [getLsbD_or_bit hk, h.eq_false hk hlt.le, decide_eq_false hlt.ne]
      simp
    · rw [h.eq_false hk hlt.le]
      simp

/-- The counter and the code are those of the frame. At a high level `start` is the last rising
edge, or there was no edge yet. -/
structure Decoded (level : Bool) (l : Locals) (o : Observed) : Prop where
  cnt : l.cnt = o.frame.length
  arr : Codes l.arr o.frame
  start : level = true → (o.rise = some l.start ∧ Normal l.start) ∨ o.rise = none ∧ o.frame = []

variable {s : State} {o : Observed} {now : Timeval}

theorem describes_outputArr {arr : BitVec 64} (h : Codes arr o.frame) :
    ∀ e ∈ outputArr arr, Describes (e, o) := by
  intro e he
  rw [outputArr] at he
  split at he
  · cases he
  · rw [List.mem_singleton.mp he]
    exact h

theorem describes_setupTimer (s : State) (cycles : ℕ) :
    ∀ e ∈ (setupTimer s cycles).1, Describes (e, o) := by
  intro e he
  rw [List.mem_singleton.mp he]
  trivial

theorem describes_fail {text : String} : ∀ e ∈ (fail text).1, Describes (e, o) := by
  intro e he
  rw [List.mem_singleton.mp he]
  trivial

theorem Decoded.pulse (h : Decoded true s.locals o) (hnow : Normal now)
    (hret : s.locals.ret = false)
    (hfirst : s.locals.cnt = 0 → ¬ (1000 < gapOf s now ∧ gapOf s now < 2500))
    (hcnt : gapOf s now ≤ 3000 → s.locals.cnt + 1 < 2 ^ 32) :
    (∀ e ∈ (pulse s now).1, Describes (e, o)) ∧
      Decoded (pulse s now).2.locals.ret (pulse s now).2.locals (o.fall now) := by
  have hlow : s.locals.ret ≠ true := by simp [hret]
  rcases h.start rfl with ⟨hrise, hnormal⟩ | ⟨hrise, hframe⟩
  · have hgap : (timevalDiff now s.locals.start).1 = elapsed now s.locals.start :=
      timevalDiff_of_normal hnow hnormal
    simp only [gapOf, hgap] at hcnt
    unfold Ir.pulse Observed.fall
    simp only [hgap, hrise]
    by_cases hlong : 3000 < elapsed now s.locals.start
    · have hcodes : Codes 0 [some (elapsed now s.locals.start)] := by
        apply codes_zero
        intro gap hmem
        obtain rfl := Option.some.inj (List.mem_singleton.mp hmem)
        omega
      simp only [hlong, if_true]
      by_cases hpos : s.locals.cnt > 0
      · simp only [hpos, if_true, setupTimer_locals]
        refine ⟨?_, rfl, hcodes, fun h => absurd h hlow⟩
        intro e he
        rcases List.mem_append.mp he with he | he
        · exact describes_outputArr h.arr e he
        · exact describes_setupTimer _ _ e he
      · simp only [hpos, if_false]
        exact ⟨nofun, rfl, hcodes, fun h => absurd h hlow⟩
    · have hlt := hcnt (not_lt.mp hlong)
      rw [if_neg hlong, if_neg hlong]
      refine ⟨nofun, ?_, ?_, fun h => absurd h hlow⟩
      · rw [List.length_append, ← h.cnt]
        exact Nat.mod_eq_of_lt hlt
      · rw [h.cnt]
        exact h.arr.append _
  · have hzero : s.locals.cnt = 0 := by rw [h.cnt, hframe, List.length_nil]
    have harr : s.locals.arr = 0 := by
      have hcodes := h.arr
      rw [hframe] at hcodes
      exact hcodes.eq_zero
    rw [pulse_of_cnt_eq_zero hzero harr (hfirst hzero), Observed.fall, hrise, hframe]
    refine ⟨nofun, rfl, ?_, fun h => absurd h hlow⟩
    apply codes_zero
    simp

theorem Decoded.edge {now : Option Timeval} {level : Option Bool}
    (h : Decoded s.locals.oret s.locals o) (hpc : s.pc = .body)
    (hc : Decodable s (.sample now level)) (htimed : Timed (.sample now level)) :
    (∀ e ∈ (edge s now).1, Describes (e, o)) ∧ ∀ t ∈ (edge s now).2,
      Decoded t.locals.ret t.locals (observe s o (.sample now level)) := by
  unfold Ir.edge
  by_cases hlevel : s.locals.ret = s.locals.oret
  · rw [if_pos hlevel]
    refine ⟨by simp, fun t ht => ?_⟩
    cases ht
    rw [← hlevel] at h
    cases now with
    | none => exact h
    | some now =>
      rw [observe, if_pos hlevel]
      exact h
  · rw [if_neg hlevel]
    cases now with
    | none => exact ⟨describes_fail, by simp [fail]⟩
    | some now =>
      dsimp only
      by_cases hret : s.locals.ret = true
      · rw [if_pos hret]
        refine ⟨by simp, fun t ht => ?_⟩
        cases ht
        rw [observe, if_neg hlevel, if_pos hret]
        exact ⟨h.cnt, h.arr, fun _ => Or.inl ⟨rfl, htimed⟩⟩
      · rw [if_neg hret, observe, if_neg hlevel, if_neg hret]
        have hret : s.locals.ret = false := Bool.eq_false_iff.mpr hret
        have horet : s.locals.oret = true := by
          rw [hret] at hlevel
          exact Bool.eq_true_of_not_eq_false (Ne.symm hlevel)
        rw [horet] at h
        obtain ⟨hfirst, hcnt⟩ := hc hpc horet hret
        obtain ⟨hevents, hnext⟩ := h.pulse htimed hret hfirst hcnt
        refine ⟨hevents, fun t ht => ?_⟩
        cases ht
        exact hnext

theorem Decoded.finish {level : Bool} (h : Decoded level s.locals o) :
    ∀ e ∈ (finish s now).1, Describes (e, o) := by
  intro e he
  unfold Ir.finish at he
  dsimp only at he
  rcases List.mem_append.mp he with he | he
  · rcases List.mem_append.mp he with he | he
    · split at he
      · rw [List.mem_singleton.mp he]
        trivial
      · cases he
    · exact describes_outputArr h.arr e he
  · rw [List.mem_singleton.mp he]
    exact h.cnt

/-- In a call the variables are those of the frame. -/
def Tracks (s : State) (o : Observed) : Prop := s.pc ≠ .entry → Decoded s.locals.oret s.locals o

theorem Tracks.sample {now : Option Timeval} {level : Option Bool} (h : Tracks s o)
    (hpc : s.pc = .body) (hc : Decodable s (.sample now level))
    (htimed : Timed (.sample now level)) :
    (∀ e ∈ (andThen (edge s now) fun s => sample s level).1, Describes (e, o)) ∧
      ∀ s' ∈ (andThen (edge s now) fun s => sample s level).2,
        Tracks s' (observe s o (.sample now level)) := by
  obtain ⟨hevents, hnext⟩ := (h (by simp [hpc])).edge hpc hc htimed
  apply sample_forall (fun _ => trivial) hevents
  intro t ht level _
  have hnext := hnext t ht
  exact ⟨hnext.cnt, hnext.arr, hnext.start⟩

theorem Tracks.step {i : Input} (h : Tracks s o) (hc : Decodable s i) (htimed : Timed i) :
    (∀ e ∈ (step s i).1, Describes (e, o)) ∧ ∀ s' ∈ (step s i).2, Tracks s' (observe s o i) := by
  cases i with
  | call wait level start fin =>
    simp only [Ir.step]
    by_cases hpc : s.pc ≠ .entry
    · rw [if_pos hpc]
      simp
    · rw [if_neg hpc]
      cases wait with
      | false => exact ⟨describes_fail, by simp [fail]⟩
      | true =>
        rcases level with _ | _ | _
        · exact ⟨describes_fail, by simp [fail]⟩
        · refine ⟨by simp, fun s' hs' _ => ?_⟩
          cases hs'
          exact ⟨rfl, codes_zero (by simp [observe]), fun _ => Or.inr ⟨rfl, rfl⟩⟩
        · refine ⟨by simp, fun s' hs' hne => ?_⟩
          cases hs'
          exact absurd hne hpc
  | next =>
    simp only [Ir.step]
    rcases hpc : s.pc
    · simp
    · refine ⟨describes_setupTimer s _, fun s' hs' _ => ?_⟩
      cases hs'
      simp only [setupTimer_locals]
      exact h (by simp [hpc])
    · refine ⟨by simp, fun s' hs' _ => ?_⟩
      cases hs'
      exact h (by simp [hpc])
    · simp
    · simp
  | sample now level =>
    simp only [Ir.step]
    by_cases hpc : s.pc = .body
    · rw [if_pos hpc]
      exact h.sample hpc hc htimed
    · rw [if_neg hpc]
      simp
  | finish now =>
    simp only [Ir.step]
    by_cases hpc : s.pc = .after
    · rw [if_pos hpc]
      cases now with
      | none => exact ⟨describes_fail, by simp [fail]⟩
      | some now =>
        refine ⟨(h (by simp [hpc])).finish, fun s' hs' hne => ?_⟩
        cases hs'
        exact absurd rfl hne
    · rw [if_neg hpc]
      simp
  | alarm =>
    simp only [Ir.step]
    by_cases hpending : s.pending = true
    · rw [if_pos hpending]
      refine ⟨fun e he => ?_, fun s' hs' hne => ?_⟩
      · rw [List.mem_singleton.mp he]
        trivial
      · cases hs'
        exact h hne
    · rw [if_neg hpending]
      simp

theorem SameSignal.timed {ahead : ℤ} {i i' : Input} (h : SameSignal ahead i i') : Timed i := by
  cases h with
  | call _ => trivial
  | next => trivial
  | sample h =>
    cases h with
    | none => trivial
    | some h => exact h.1
  | finish _ => trivial
  | alarm => trivial

theorem timed_of_sameSignal {ahead : ℤ} {inputs inputs' : List Input}
    (h : List.Forall₂ (SameSignal ahead) inputs inputs') : ∀ i ∈ inputs, Timed i := by
  induction h with
  | nil => simp
  | cons hi _ ih => exact List.forall_mem_cons.mpr ⟨hi.timed, ih⟩

theorem describes_of_decodable {inputs : List Input} (hs : s.pc = .entry)
    (htimed : ∀ i ∈ inputs, Timed i)
    (h : AllSteps (fun s i => (step s i).2) Decodable s inputs) :
    ∀ e ∈ (run (recorded step observe) (s, ⟨none, []⟩) inputs).1, Describes e := by
  have htracks : Tracks s ⟨none, []⟩ := fun hne => absurd hs hne
  refine run_recorded_forall (fun s o i htracks hc => ?_) htracks (h.and_of_forall htimed)
  exact Tracks.step htracks hc.1 hc.2

/-- If no first edge passes for a gap of one, the codes are those of the signal. -/
theorem decoding_of_decodable {ahead : ℤ} {inputs inputs' : List Input} (hs : s.pc = .entry)
    (hsame : List.Forall₂ (SameSignal ahead) inputs inputs')
    (h : AllSteps (fun s i => (step s i).2) Decodable s inputs)
    (h' : AllSteps (fun s i => (step s i).2) Decodable s inputs') :
    (run step s inputs).1 = (run step s inputs').1 ∧
      (run step s inputs).1 =
        (run (recorded step observe) (s, ⟨none, []⟩) inputs).1.map Prod.fst ∧
      ∀ e ∈ (run (recorded step observe) (s, ⟨none, []⟩) inputs).1, Describes e :=
  ⟨events_eq_of_sameSignal hs hsame h h', run_recorded.symm,
    describes_of_decodable hs (timed_of_sameSignal hsame) h⟩

/-- A call with two edges and a gap of two milliseconds between them. -/
def oneGap (first : Timeval) : List Input :=
  [.call true (some false) first ⟨0, 0⟩, .next, .next, .sample (some ⟨1000, 2000⟩) (some true),
    .next, .sample (some ⟨1000, 3000⟩) (some false), .next,
    .sample (some ⟨1000, 5000⟩) (some false), .alarm, .next, .finish (some ⟨1001, 0⟩)]

theorem sameSignal_oneGap (first first' : Timeval) :
    List.Forall₂ (SameSignal 0) (oneGap first) (oneGap first') := by
  have hsame : ∀ sec usec, 0 ≤ usec → usec < 1000000 → Same 0 ⟨sec, usec⟩ ⟨sec, usec⟩ :=
    fun sec usec hpos hlt => ⟨⟨hpos, hlt⟩, ⟨hpos, hlt⟩, (add_zero _).symm⟩
  have hsample : ∀ usec level, 0 ≤ usec → usec < 1000000 →
      SameSignal 0 (.sample (some ⟨1000, usec⟩) level) (.sample (some ⟨1000, usec⟩) level) :=
    fun usec level hpos hlt => .sample (.some (hsame 1000 usec hpos hlt))
  refine .cons (.call (Or.inr ⟨rfl, rfl⟩)) <| .cons .next <| .cons .next <|
    .cons (hsample _ _ ?_ ?_) <| .cons .next <| .cons (hsample _ _ ?_ ?_) <| .cons .next <|
    .cons (hsample _ _ ?_ ?_) <| .cons .alarm <| .cons .next <|
    .cons (.finish (.some (hsame _ _ ?_ ?_))) .nil
  all_goals decide

theorem decoding_oneGap :
    (run step start (oneGap ⟨0, 0⟩)).1 = (run step start (oneGap ⟨999, 0⟩)).1 ∧
      Event.output 2 ∈ (run step start (oneGap ⟨0, 0⟩)).1 :=
  ⟨(decoding_of_decodable rfl (sameSignal_oneGap _ _) (by decide) (by decide)).1, by decide⟩

/-- The first edge sets the lowest bit if `start` happens to be two milliseconds before it. -/
theorem oneGap_depends_on_start :
    List.Forall₂ (SameSignal 0) (oneGap ⟨1000, 0⟩) (oneGap ⟨999, 0⟩) ∧
      Event.output 3 ∈ (run step start (oneGap ⟨1000, 0⟩)).1 ∧
      Event.output 3 ∉ (run step start (oneGap ⟨999, 0⟩)).1 ∧
      (run step start (oneGap ⟨1000, 0⟩)).1 ≠ (run step start (oneGap ⟨999, 0⟩)).1 :=
  ⟨sameSignal_oneGap _ _, by decide, by decide, by decide⟩

end Gaps

end CollectedSources.Ir
