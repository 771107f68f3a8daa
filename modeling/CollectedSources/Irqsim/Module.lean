import CollectedSources.Machine.Run
import Mathlib.Data.List.Basic
import Mathlib.Logic.Function.Basic

/-! # The interrupt simulator

Loading the module publishes the file `gen_irq` before there is a domain, and
unloading removes the domain before the file. In between, a write finds no
domain. The writes that meet a domain are the ones that begin in its lifetime
and are over when it is removed.
-/

namespace CollectedSources.Irqsim

open Machine

def irqs : ℕ := 128

/-- What `irqd` points to. -/
inductive Irqd | null | error | live | removed
  deriving DecidableEq, Repr

/-- The next call of `irqsim_init` or `irqsim_exit`. The error labels and the exit end with the
same calls. -/
inductive Pc
  | unloaded
  | createDir
  | createFile
  | createFwnode
  | createDomain
  | createMapping (hwirq : ℕ)
  | requestIrq (hwirq : ℕ)
  | loaded
  | errMapping (hwirq : ℕ)
  | exitMapping (hwirq : ℕ)
  | removeDomain
  | removeFwnode
  | removeDebugfs
  | waitForWriters
  deriving DecidableEq, Repr

/-- A call of `gen_irq_write`: before it has the bitmap, or in pass `i` with the interrupts that
are left of it. -/
inductive Writer
  | started
  | pass (bits pending : List (Fin irqs)) (i : ℕ)
  deriving DecidableEq, Repr

structure State where
  pc : Pc
  file : Bool
  irqd : Irqd
  mapped : ℕ → Bool
  writeCount : ℕ
  writers : List Writer

inductive Action
  | load
  | unload
  | module (ok : Bool)
  | setWriteCount (n : ℕ)
  | write
  | parse (k : ℕ) (bits : Option (List (Fin irqs)))
  | trigger (k : ℕ) (answer : Bool)
  deriving DecidableEq, Repr

section Steps

def dispose (s : State) (hwirq : ℕ) : State :=
  { s with mapped := Function.update s.mapped hwirq false }

/-- The next call of the module, which may succeed or not. -/
def moduleStep (s : State) (ok : Bool) : Option State :=
  match s.pc with
  | .unloaded => none
  | .createDir => some { s with pc := if ok then .createFile else .unloaded }
  | .createFile => some { s with pc := .createFwnode, file := ok }
  | .createFwnode => some { s with pc := if ok then .createDomain else .removeDebugfs }
  | .createDomain =>
    if ok then some { s with pc := .createMapping 0, irqd := .live, mapped := fun _ => false }
    else some { s with pc := .removeFwnode, irqd := .error }
  | .createMapping hwirq =>
    if hwirq < irqs then
      if ok then
        some { s with pc := .requestIrq hwirq, mapped := Function.update s.mapped hwirq true }
      else some { s with pc := .removeDomain }
    else some { s with pc := .loaded }
  | .requestIrq hwirq =>
    if ok then some { s with pc := .createMapping (hwirq + 1) }
    else some { dispose s hwirq with pc := .errMapping hwirq }
  | .loaded => none
  | .errMapping 0 => some { s with pc := .removeDomain }
  | .errMapping (hwirq + 1) => some { dispose s hwirq with pc := .errMapping hwirq }
  | .exitMapping hwirq =>
    if hwirq < irqs then some { dispose s hwirq with pc := .exitMapping (hwirq + 1) }
    else some { s with pc := .removeDomain }
  | .removeDomain => some { s with pc := .removeFwnode, irqd := .removed }
  | .removeFwnode => some { s with pc := .removeDebugfs }
  | .removeDebugfs => some { s with pc := .waitForWriters, file := false }
  | .waitForWriters => if s.writers = [] then some { s with pc := .unloaded } else none

/-- The answer of `irq_find_mapping` can be anything without a domain. -/
def findMapping (s : State) (hwirq : ℕ) (answer : Bool) : Bool :=
  if s.irqd = .live then s.mapped hwirq else answer

/-- The `k`th write goes on or returns. -/
def setWriter (s : State) (k : ℕ) : Option Writer → State
  | none => { s with writers := s.writers.eraseIdx k }
  | some w => { s with writers := s.writers.set k w }

/-- One step in the loops of `gen_irq_write`. -/
def genIrqWrite (s : State) (answer : Bool) (bits pending : List (Fin irqs)) (i : ℕ) :
    Option Writer :=
  match pending with
  | hwirq :: pending =>
    if findMapping s hwirq answer then some (.pass bits pending i) else none
  | [] => if i + 1 < s.writeCount then some (.pass bits bits (i + 1)) else none

def step (s : State) : Action → Option State
  | .load =>
    if s.pc = .unloaded then some { s with pc := .createDir, irqd := .null, writeCount := 1 }
    else none
  | .unload => if s.pc = .loaded then some { s with pc := .exitMapping 0 } else none
  | .module ok => moduleStep s ok
  | .setWriteCount n => some { s with writeCount := n }
  | .write => if s.file then some { s with writers := s.writers ++ [.started] } else none
  | .parse k bits =>
    match s.writers[k]?, bits with
    | some .started, some bits =>
      some (setWriter s k (if 0 < s.writeCount then some (.pass bits bits 0) else none))
    | some .started, none => some (setWriter s k none)
    | _, _ => none
  | .trigger k answer =>
    match s.writers[k]? with
    | some (.pass bits pending i) => some (setWriter s k (genIrqWrite s answer bits pending i))
    | _ => none

def start : State := ⟨.unloaded, false, .null, fun _ => false, 1, []⟩

end Steps

section Domain

/-- Writes run only while there is a domain. -/
def DomainLive (s : State) : Prop := s.writers ≠ [] → s.irqd = .live

/-- The calls between the creation of the domain and its removal. -/
def Pc.HasDomain : Pc → Prop
  | .createMapping _ | .requestIrq _ | .loaded | .errMapping _ | .exitMapping _ | .removeDomain =>
    True
  | _ => False

/-- No write begins outside these calls, and none runs when the domain is removed. -/
def WellTimed (s : State) : Action → Prop
  | .write => s.file → s.pc.HasDomain
  | .module _ => s.pc = .removeDomain → s.writers = []
  | _ => True

/-- Writes run only while there is a domain, and there is one between its calls. -/
structure Inv (s : State) : Prop where
  domainLive : DomainLive s
  irqd : s.irqd = .live ↔ s.pc.HasDomain

variable {s s' : State}

theorem inv_start : Inv start := by
  constructor
  · exact fun h => absurd rfl h
  · exact iff_of_false (by decide) id

/-- A call of the module that keeps `irqd` and stays in the lifetime of the domain or out of it. -/
theorem Inv.move (h : Inv s) (hwriters : s'.writers = s.writers) (hirqd : s'.irqd = s.irqd)
    (hpc : s'.pc.HasDomain ↔ s.pc.HasDomain) : Inv s' := by
  constructor
  · intro hw
    rw [hwriters] at hw
    rw [hirqd]
    exact h.domainLive hw
  · rw [hirqd, hpc]
    exact h.irqd

theorem Inv.writers_eq_nil (h : Inv s) (hpc : ¬ s.pc.HasDomain) : s.writers = [] := by
  by_contra hw
  exact hpc (h.irqd.mp (h.domainLive hw))

theorem moduleStep_cases {ok : Bool} (h : moduleStep s ok = some s') :
    s'.writers = s.writers ∧
      (s'.irqd = s.irqd ∧ (s'.pc.HasDomain ↔ s.pc.HasDomain) ∨
        s.pc = .createDomain ∧ s'.irqd = .live ∧ s'.pc.HasDomain ∨
        (s.pc = .createDomain ∨ s.pc = .removeDomain) ∧ s'.irqd ≠ .live ∧ ¬ s'.pc.HasDomain) := by
  cases hpc : s.pc <;> simp only [moduleStep, hpc] at h
  case unloaded => cases h
  case loaded => cases h
  case createDomain =>
    split at h <;> cases h
    · exact ⟨rfl, Or.inr (Or.inl ⟨rfl, rfl, trivial⟩)⟩
    · exact ⟨rfl, Or.inr (Or.inr ⟨Or.inl rfl, Irqd.noConfusion, id⟩)⟩
  case removeDomain =>
    cases h
    exact ⟨rfl, Or.inr (Or.inr ⟨Or.inr rfl, Irqd.noConfusion, id⟩)⟩
  -- The other calls leave the domain alone.
  case createDir =>
    cases h
    cases ok <;> exact ⟨rfl, Or.inl ⟨rfl, Iff.rfl⟩⟩
  case createFwnode =>
    cases h
    cases ok <;> exact ⟨rfl, Or.inl ⟨rfl, Iff.rfl⟩⟩
  case createMapping hwirq =>
    split at h
    · split at h <;> cases h <;> exact ⟨rfl, Or.inl ⟨rfl, Iff.rfl⟩⟩
    · cases h
      exact ⟨rfl, Or.inl ⟨rfl, Iff.rfl⟩⟩
  case requestIrq hwirq =>
    split at h <;> cases h <;> exact ⟨rfl, Or.inl ⟨rfl, Iff.rfl⟩⟩
  case errMapping hwirq =>
    cases hwirq <;> cases h <;> exact ⟨rfl, Or.inl ⟨rfl, Iff.rfl⟩⟩
  case exitMapping hwirq =>
    split at h <;> cases h <;> exact ⟨rfl, Or.inl ⟨rfl, Iff.rfl⟩⟩
  case waitForWriters =>
    split at h <;> cases h
    exact ⟨rfl, Or.inl ⟨rfl, Iff.rfl⟩⟩
  all_goals
    cases h
    exact ⟨rfl, Or.inl ⟨rfl, Iff.rfl⟩⟩

theorem Inv.moduleStep {ok : Bool} (h : Inv s) (hs : moduleStep s ok = some s')
    (htimed : s.pc = .removeDomain → s.writers = []) : Inv s' := by
  obtain ⟨hw, ⟨hirqd, hpc⟩ | ⟨hpc, hirqd, hpc'⟩ | ⟨hpc, hirqd, hpc'⟩⟩ := moduleStep_cases hs
  · exact h.move hw hirqd hpc
  · exact ⟨fun _ => hirqd, iff_of_true hirqd hpc'⟩
  · have hnil : s.writers = [] := by
      rcases hpc with hpc | hpc
      · exact h.writers_eq_nil (by rw [hpc]; exact id)
      · exact htimed hpc
    exact ⟨fun hne => absurd (hw.trans hnil) hne, iff_of_false hirqd hpc'⟩

theorem Inv.setWriter (h : Inv s) {k : ℕ} {w : Writer} (hk : s.writers[k]? = some w)
    (w' : Option Writer) : Inv (setWriter s k w') := by
  have hw : s.writers ≠ [] := by
    intro hnil
    rw [hnil] at hk
    cases hk
  cases w' with
  | none => exact ⟨fun _ => h.domainLive hw, h.irqd⟩
  | some w' => exact ⟨fun _ => h.domainLive hw, h.irqd⟩

theorem Inv.step {a : Action} (h : Inv s) (ha : WellTimed s a) (hs : step s a = some s') :
    Inv s' := by
  cases a with
  | load =>
    rw [Irqsim.step] at hs
    split at hs <;> cases hs
    rename_i hpc
    have hnil : s.writers = [] := h.writers_eq_nil (by rw [hpc]; exact id)
    exact ⟨fun hne => absurd hnil hne, iff_of_false Irqd.noConfusion id⟩
  | unload =>
    rw [Irqsim.step] at hs
    split at hs <;> cases hs
    rename_i hpc
    exact h.move rfl rfl (by rw [hpc]; rfl)
  | module ok => exact h.moduleStep hs ha
  | setWriteCount n =>
    cases hs
    exact h.move rfl rfl Iff.rfl
  | write =>
    rw [Irqsim.step] at hs
    split at hs <;> cases hs
    rename_i hfile
    exact ⟨fun _ => h.irqd.mpr (ha hfile), h.irqd⟩
  | parse k bits =>
    simp only [Irqsim.step] at hs
    split at hs <;> cases hs
    · exact h.setWriter ‹_› _
    · exact h.setWriter ‹_› _
  | trigger k answer =>
    simp only [Irqsim.step] at hs
    split at hs <;> cases hs
    exact h.setWriter ‹_› _

/-- Writes meet a domain in exactly the runs where they are well timed. -/
theorem domainLive_iff_wellTimed (actions : List Action) :
    AllStates step DomainLive start actions ↔ AllSteps step WellTimed start actions := by
  refine allStates_iff_allSteps (fun s h => h.domainLive)
    (fun s a h ha s' hs' => h.step ha hs') (fun s a h hnext => ?_) inv_start
  cases a with
  | write =>
    intro hfile
    refine h.irqd.mp (hnext { s with writers := s.writers ++ [.started] } (if_pos hfile) ?_)
    exact List.append_ne_nil_of_right_ne_nil _ (List.cons_ne_nil _ _)
  | module ok =>
    intro hpc
    by_contra hne
    have hlive := hnext { s with pc := .removeFwnode, irqd := .removed }
      (by simp only [step, moduleStep, hpc]; rfl) hne
    cases hlive
  | _ => trivial

theorem not_domainLive_write_before_domain :
    ¬ AllStates step DomainLive start [.load, .module true, .module true, .write] := by
  intro h
  have hlive := Along.run h rfl
  exact absurd (hlive (List.cons_ne_nil _ _)) Irqd.noConfusion

end Domain

end CollectedSources.Irqsim
