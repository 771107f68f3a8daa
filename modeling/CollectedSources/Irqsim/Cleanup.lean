import CollectedSources.Irqsim.Module
import CollectedSources.Machine.Process
import CollectedSources.Machine.Resources

/-! # Failing to load the interrupt simulator

What `irqsim_init` acquires is a stack, and the error labels release it from the
top. The failure of `irq_create_mapping` jumps over the label that releases the
interrupts and mappings made so far, so it is harmless for the first one only.
-/

namespace CollectedSources.Irqsim

open Machine Resource

inductive Res
  | debugfs
  | fwnode
  | domain
  | mapping (hwirq : ℕ)
  | irq (hwirq : ℕ)
  deriving DecidableEq, Repr

/-- What has to be released first. -/
def Res.Needs : Res → Res → Prop
  | .irq hwirq, .mapping hwirq' => hwirq = hwirq'
  | .mapping _, .domain => True
  | _, _ => False

section Calls

/-- What the next call of the module acquires or releases. -/
def effect (pc : Pc) (ok : Bool) : List (Event Res) :=
  match pc with
  | .createDir => if ok then [.opened .debugfs] else []
  | .createFwnode => if ok then [.opened .fwnode] else []
  | .createDomain => if ok then [.opened .domain] else []
  | .createMapping hwirq => if hwirq < irqs ∧ ok then [.opened (.mapping hwirq)] else []
  | .requestIrq hwirq => if ok then [.opened (.irq hwirq)] else [.closed (.mapping hwirq)]
  | .errMapping (hwirq + 1) => [.closed (.irq hwirq), .closed (.mapping hwirq)]
  | .exitMapping hwirq =>
    if hwirq < irqs then [.closed (.irq hwirq), .closed (.mapping hwirq)] else []
  | .removeDomain => [.closed .domain]
  | .removeFwnode => [.closed .fwnode]
  | .removeDebugfs => [.closed .debugfs]
  | _ => []

def call (s : State) (ok : Bool) : List (Event Res) × Option State :=
  (effect s.pc ok, moduleStep s ok)

/-- The answers to the calls of `irqsim_init` let it return an error, with the given trace. -/
def ReturnsError (s : State) (oks : List Bool) (es : List (Event Res)) : Prop :=
  ∃ s', Process.run call s oks = (es, some s') ∧ s'.pc = .unloaded

end Calls

section Cleanup

/-- Everything that was acquired is released once and in order. -/
structure CleansUp (es : List (Event Res)) : Prop where
  proper : Proper [] es
  released : ∀ r, (closed es).count r = (opened es).count r
  inOrder : Respects Res.Needs [] es

/-- Only the first mapping may fail. -/
def MappingSucceeds (s : State) (ok : Bool) : Prop :=
  match s.pc with
  | .createMapping (hwirq + 1) => hwirq + 1 < irqs → ok = true
  | _ => True

instance (s : State) (ok : Bool) : Decidable (MappingSucceeds s ok) := by
  unfold MappingSucceeds
  split <;> infer_instance

/-- The interrupts below a number and their mappings. -/
def below : ℕ → List Res
  | 0 => []
  | hwirq + 1 => .irq hwirq :: .mapping hwirq :: below hwirq

/-- What is held before a call. -/
def held : Pc → List Res
  | .createFile | .createFwnode | .removeDebugfs => [.debugfs]
  | .createDomain | .removeFwnode => [.fwnode, .debugfs]
  | .createMapping hwirq | .errMapping hwirq => below hwirq ++ [.domain, .fwnode, .debugfs]
  | .requestIrq hwirq => .mapping hwirq :: (below hwirq ++ [.domain, .fwnode, .debugfs])
  | .removeDomain => [.domain, .fwnode, .debugfs]
  | _ => []

/-- The calls of `irqsim_init` up to its success. -/
def Pc.InInit : Pc → Prop
  | .loaded | .exitMapping _ => False
  | _ => True

/-- The calls after which nothing but the domain and what is below it is released. -/
def Pc.AfterMappings : Pc → Prop
  | .unloaded | .removeDomain | .removeFwnode | .removeDebugfs | .waitForWriters => True
  | _ => False

variable {s s' : State} {ok : Bool} {oks : List Bool} {es : List (Event Res)} {live : List Res}

theorem irq_not_mem_below {hwirq n : ℕ} (h : n ≤ hwirq) : Res.irq hwirq ∉ below n := by
  induction n with
  | zero => exact List.not_mem_nil
  | succ n ih =>
    simp only [below, List.mem_cons, Res.irq.injEq, reduceCtorEq, false_or, not_or]
    exact ⟨by omega, ih (by omega)⟩

theorem needs_mapping {r : Res} {hwirq : ℕ} (h : r.Needs (.mapping hwirq)) : r = .irq hwirq := by
  cases r <;> simp_all [Res.Needs]

theorem not_needs_mapping (hwirq : ℕ) :
    ∀ r ∈ held (.requestIrq hwirq), ¬ r.Needs (.mapping hwirq) := by
  intro r hr hneeds
  obtain rfl := needs_mapping hneeds
  simp [held, irq_not_mem_below (Nat.le_refl hwirq)] at hr

theorem irq_zero_mem_below (n : ℕ) : Res.irq 0 ∈ below (n + 1) := by
  induction n with
  | zero => exact List.mem_cons_self
  | succ n ih => exact List.mem_cons_of_mem _ (List.mem_cons_of_mem _ ih)

/-- A call that goes on with `irqsim_init` keeps the stack. -/
theorem call_spec (hpc : s.pc.InInit) (hok : MappingSucceeds s ok)
    (hs : moduleStep s ok = some s') (hpc' : s'.pc.InInit) :
    Proper (held s.pc) (effect s.pc ok) ∧ Respects Res.Needs (held s.pc) (effect s.pc ok) ∧
      after (held s.pc) (effect s.pc ok) = held s'.pc := by
  cases hcall : s.pc <;> simp only [moduleStep, hcall, MappingSucceeds] at hs hpc hok ⊢
  case unloaded => cases hs
  case loaded => exact hpc.elim
  case exitMapping => exact hpc.elim
  case createDir =>
    cases hs
    cases ok <;> exact ⟨trivial, trivial, rfl⟩
  case createFwnode =>
    cases hs
    cases ok <;> exact ⟨trivial, trivial, rfl⟩
  case createDomain =>
    cases ok <;> cases hs <;> exact ⟨trivial, trivial, rfl⟩
  case createMapping hwirq =>
    split at hs
    · rename_i hlt
      cases ok with
      | true =>
        cases hs
        simp [effect, hlt, Proper, Respects, after, held]
      | false =>
        cases hs
        cases hwirq with
        | zero => exact ⟨trivial, trivial, rfl⟩
        | succ hwirq => cases hok hlt
    · cases hs
      exact hpc'.elim
  case requestIrq hwirq =>
    cases ok with
    | true =>
      cases hs
      exact ⟨trivial, trivial, rfl⟩
    | false =>
      cases hs
      refine ⟨⟨List.mem_cons_self, trivial⟩, ⟨not_needs_mapping hwirq, trivial⟩, ?_⟩
      exact List.erase_cons_head _ _
  case errMapping hwirq =>
    cases hwirq with
    | zero =>
      cases hs
      exact ⟨trivial, trivial, rfl⟩
    | succ hwirq =>
      cases hs
      have herase : (held (.errMapping (hwirq + 1))).erase (.irq hwirq) =
          held (.requestIrq hwirq) :=
        List.erase_cons_head _ _
      simp only [effect, Proper, Respects, after, herase, and_true]
      refine ⟨⟨List.mem_cons_self, List.mem_cons_self⟩, ⟨?_, not_needs_mapping hwirq⟩, ?_⟩
      · intro r _ hneeds
        cases r <;> exact hneeds
      · exact List.erase_cons_head _ _
  case waitForWriters =>
    split at hs <;> cases hs
    exact ⟨trivial, trivial, rfl⟩
  all_goals
    cases hs
    simp [effect, Proper, Respects, after, held, Res.Needs]

theorem inInit_or_loaded (hpc : s.pc.InInit) (hs : moduleStep s ok = some s') :
    s'.pc.InInit ∨ s'.pc = .loaded := by
  cases hcall : s.pc <;> simp only [moduleStep, hcall] at hs hpc
  case loaded => exact hpc.elim
  case exitMapping => exact hpc.elim
  case errMapping hwirq =>
    cases hwirq <;> cases hs <;> exact Or.inl trivial
  case createMapping hwirq =>
    split at hs
    · split at hs <;> cases hs <;> exact Or.inl trivial
    · cases hs
      exact Or.inr rfl
  all_goals
    try split at hs
    all_goals
      cases hs
      try (cases ok)
      all_goals exact Or.inl trivial

/-- A run that returns an error goes on with `irqsim_init`. -/
theorem inInit_of_run (hpc : s.pc.InInit) (hs : moduleStep s ok = some s') {s'' : State}
    (hrun : Process.run call s' oks = (es, some s'')) (hpc' : s''.pc = .unloaded) :
    s'.pc.InInit := by
  rcases inInit_or_loaded hpc hs with h | h
  · exact h
  · cases oks with
    | nil =>
      cases hrun
      rw [h] at hpc'
      cases hpc'
    | cons ok' oks =>
      obtain ⟨_, t, _, hcall, -⟩ := Process.exists_of_run_cons hrun
      simp [call, moduleStep, h] at hcall

/-- Without a failing mapping the stack is empty when an error is returned. -/
theorem run_spec (hpc : s.pc.InInit) (hok : AllSteps moduleStep MappingSucceeds s oks)
    (hrun : Process.run call s oks = (es, some s')) (hpc' : s'.pc = .unloaded) :
    Proper (held s.pc) es ∧ Respects Res.Needs (held s.pc) es ∧ after (held s.pc) es = [] := by
  induction oks generalizing s es with
  | nil =>
    cases hrun
    rw [hpc']
    exact ⟨trivial, trivial, rfl⟩
  | cons ok oks ih =>
    obtain ⟨es₁, t, es₂, hcall, hnext, rfl⟩ := Process.exists_of_run_cons hrun
    obtain ⟨rfl, hs⟩ := Prod.mk.inj hcall
    have hinit := inInit_of_run hpc hs hnext hpc'
    obtain ⟨hproper, horder, hafter⟩ := call_spec hpc hok.2.1 hs hinit
    have hrest := ih hinit (hok.2.2 t hs) hnext
    rw [← hafter] at hrest
    refine ⟨proper_append.mpr ⟨hproper, hrest.1⟩, respects_append.mpr ⟨horder, hrest.2.1⟩, ?_⟩
    rw [after_append]
    exact hrest.2.2

theorem irq_mem_after (hpc : s.pc.AfterMappings)
    (hrun : Process.run call s oks = (es, some s')) (hlive : Res.irq 0 ∈ live) :
    Res.irq 0 ∈ after live es := by
  induction oks generalizing s es live with
  | nil =>
    cases hrun
    exact hlive
  | cons ok oks ih =>
    obtain ⟨es₁, t, es₂, hcall, hnext, rfl⟩ := Process.exists_of_run_cons hrun
    obtain ⟨rfl, hs⟩ := Prod.mk.inj hcall
    rw [after_append]
    have hstep : t.pc.AfterMappings ∧ Res.irq 0 ∈ after live (effect s.pc ok) := by
      cases hcall : s.pc <;> simp only [moduleStep, hcall] at hs hpc
      case unloaded => cases hs
      case waitForWriters =>
        split at hs <;> cases hs
        exact ⟨trivial, hlive⟩
      case removeDomain | removeFwnode | removeDebugfs =>
        cases hs
        exact ⟨trivial, (List.mem_erase_of_ne Res.noConfusion).mpr hlive⟩
      all_goals exact hpc.elim
    exact ih hstep.1 hnext hstep.2

theorem mappingSucceeds_of_after (hpc : s.pc.InInit)
    (hrun : Process.run call s oks = (es, some s')) (hpc' : s'.pc = .unloaded)
    (hafter : after (held s.pc) es = []) : AllSteps moduleStep MappingSucceeds s oks := by
  induction oks generalizing s es with
  | nil => trivial
  | cons ok oks ih =>
    obtain ⟨es₁, t, es₂, hcall, hnext, rfl⟩ := Process.exists_of_run_cons hrun
    obtain ⟨rfl, hs⟩ := Prod.mk.inj hcall
    rw [after_append] at hafter
    have hok : MappingSucceeds s ok := by
      unfold MappingSucceeds
      split
      · rename_i hwirq hmapping
        intro hlt
        by_contra hfail
        rw [Bool.not_eq_true] at hfail
        simp only [moduleStep, hmapping, hlt, hfail, if_true] at hs
        cases hs
        have hlive : Res.irq 0 ∈ after (held s.pc) (effect s.pc ok) := by
          simp [hmapping, hfail, effect, after, held, irq_zero_mem_below]
        have hmem := irq_mem_after (by trivial) hnext hlive
        rw [hafter] at hmem
        cases hmem
      · trivial
    have hinit := inInit_of_run hpc hs hnext hpc'
    rw [(call_spec hpc hok hs hinit).2.2] at hafter
    refine ⟨trivial, hok, fun t' ht' => ?_⟩
    obtain rfl := Option.some.inj (hs.symm.trans ht')
    exact ih hinit hnext hafter

/-- A failure is cleaned up exactly if it is not a later mapping that fails. -/
theorem cleansUp_iff_mappingSucceeds (hpc : s.pc = .createDir) (h : ReturnsError s oks es) :
    CleansUp es ↔ AllSteps moduleStep MappingSucceeds s oks := by
  obtain ⟨s', hrun, hpc'⟩ := h
  have hinit : s.pc.InInit := by rw [hpc]; trivial
  have hheld : held s.pc = [] := by rw [hpc]; rfl
  constructor
  · intro h
    apply mappingSucceeds_of_after hinit hrun hpc'
    rw [hheld, List.eq_nil_iff_forall_not_mem]
    intro r hr
    have hcount := count_closed_add h.proper r
    have hpos : 0 < (after [] es).count r := List.count_pos_iff.mpr hr
    have hreleased := h.released r
    rw [List.count_nil] at hcount
    omega
  · intro hok
    obtain ⟨hproper, horder, hafter⟩ := run_spec hinit hok hrun hpc'
    rw [hheld] at hproper horder hafter
    refine ⟨hproper, fun r => ?_, horder⟩
    have hcount := count_closed_add hproper r
    simpa [hafter] using hcount

/-- The second interrupt cannot be requested. -/
theorem cleansUp_second_irq :
    ∃ es, ReturnsError { start with pc := .createDir }
      [true, true, true, true, true, true, true, false, true, true, true, true, true, true] es ∧
        CleansUp es := by
  have h : ReturnsError { start with pc := .createDir }
      [true, true, true, true, true, true, true, false, true, true, true, true, true, true] _ :=
    ⟨_, rfl, rfl⟩
  refine ⟨_, h, (cleansUp_iff_mappingSucceeds rfl h).mpr ?_⟩
  decide

/-- The second mapping cannot be made. -/
theorem not_cleansUp_second_mapping :
    ∃ es, ReturnsError { start with pc := .createDir }
      [true, true, true, true, true, true, false, true, true, true, true] es ∧ ¬ CleansUp es := by
  refine ⟨_, ⟨_, rfl, rfl⟩, fun h => ?_⟩
  exact absurd (h.released (.irq 0)) (by decide)

end Cleanup

end CollectedSources.Irqsim
