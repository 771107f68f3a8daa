import CollectedSources.Machine.Resources
import CollectedSources.Machine.Run
import Mathlib

/-! # The device handle on Linux

The descriptor of the device is also the sign that the device is open. It is
not reset when the descriptor is closed, neither by a failing `openDevice` nor
by `closeDevice`. The handle is right as long as nothing is ever closed.
-/

namespace CollectedSources.VreckoFf.Linux

open Machine Resource

/-- What the calls of `openDevice` return: an error number or a result. -/
structure Opening where
  fd : Except ℕ ℕ
  forceFeedback : Except ℕ Bool
  autocenter : Except ℕ Unit
  constant : Bool
  constantEffect : Bool
  deriving Repr

/-- A method of the device. -/
inductive Method
  | openDevice (o : Opening)
  | update
  | processFFdata
  | closeDevice
  deriving Repr

/-- The descriptor, the open ones, and what the last `open` returned. -/
structure State where
  portDes : ℤ
  live : List ℤ
  last : Option ℤ
  deriving DecidableEq, Repr

section Methods

/-- The return value, the system calls and the new `portDes`. -/
def openDevice (o : Opening) : ℕ × List (Event ℤ) × ℤ :=
  match o.fd with
  | .error errno => (errno, [], -1)
  | .ok fd =>
    match o.forceFeedback with
    | .error errno => (errno, [.opened fd, .used fd, .closed fd], fd)
    | .ok false => (1, [.opened fd, .used fd, .closed fd], fd)
    | .ok true =>
      match o.autocenter with
      | .error errno => (errno, [.opened fd, .used fd, .used fd, .closed fd], fd)
      | .ok () =>
        if !o.constant then (2, [.opened fd, .used fd, .used fd, .used fd, .closed fd], fd)
        else if !o.constantEffect then
          (3, [.opened fd, .used fd, .used fd, .used fd, .used fd, .closed fd], fd)
        else (0, [.opened fd, .used fd, .used fd, .used fd, .used fd], fd)

def closeDevice (portDes : ℤ) : List (Event ℤ) := if 0 ≤ portDes then [.closed portDes] else []

/-- The reading of `update`. -/
def update (portDes : ℤ) : List (Event ℤ) := if portDes < 0 then [] else [.used portDes]

/-- The control of the constant effect. There is no descriptor behind a negative number. -/
def processFFdata (portDes : ℤ) : List (Event ℤ) := if 0 ≤ portDes then [.used portDes] else []

def events (s : State) : Method → List (Event ℤ)
  | .openDevice o => (openDevice o).2.1
  | .update => update s.portDes
  | .processFFdata => processFFdata s.portDes
  | .closeDevice => closeDevice s.portDes

/-- A method, with a new descriptor for each successful `open`. -/
def step (s : State) (m : Method) : Option State :=
  match m with
  | .openDevice o =>
    match o.fd with
    | .error _ => some ⟨(openDevice o).2.2, after s.live (events s m), none⟩
    | .ok fd =>
      if (fd : ℤ) ∈ s.live then none
      else some ⟨(openDevice o).2.2, after s.live (events s m), some fd⟩
  | _ => some { s with live := after s.live (events s m) }

def start : State := ⟨-1, [], none⟩

end Methods

section Handle

/-- The descriptor that the last `open` returned is open. -/
def DeviceOpen (s : State) : Prop := ∃ fd ∈ s.last, fd ∈ s.live

def HandleRight (s : State) : Prop := 0 ≤ s.portDes ↔ DeviceOpen s

/-- The system calls of a method are on open descriptors. -/
def CallsProper (s : State) (m : Method) : Prop :=
  (step s m).isSome → Proper s.live (events s m)

/-- All calls after a successful `open` succeed. -/
def Opening.Completes (o : Opening) : Prop :=
  o.forceFeedback = .ok true ∧ o.autocenter = .ok () ∧ o.constant = true ∧ o.constantEffect = true

/-- Nothing is closed. -/
def ClosesNothing (s : State) : Method → Prop
  | .openDevice o => ∀ fd, o.fd = .ok fd → (fd : ℤ) ∉ s.live → o.Completes
  | .closeDevice => s.portDes < 0
  | _ => True

/-- The descriptor is the one of the last `open`, and it is open. -/
structure Inv (s : State) : Prop where
  valid : ∀ fd, s.last = some fd → s.portDes = fd ∧ 0 ≤ fd ∧ fd ∈ s.live
  negative : s.last = none → s.portDes < 0
  nodup : s.live.Nodup

variable {s s' : State} {m : Method}

theorem inv_start : Inv start := by
  constructor
  · rintro fd ⟨⟩
  · exact fun _ => by decide
  · exact List.nodup_nil

theorem Inv.handleRight (h : Inv s) : HandleRight s := by
  rcases hlast : s.last with _ | fd
  · refine iff_of_false (not_le.mpr (h.negative hlast)) ?_
    rintro ⟨fd, hfd, -⟩
    rw [hlast] at hfd
    cases hfd
  · obtain ⟨hport, hpos, hlive⟩ := h.valid fd hlast
    exact iff_of_true (hport ▸ hpos) ⟨fd, hlast, hlive⟩

theorem Inv.mem_live (h : Inv s) (hport : 0 ≤ s.portDes) : s.portDes ∈ s.live := by
  rcases hlast : s.last with _ | fd
  · exact absurd (h.negative hlast) (not_lt.mpr hport)
  · obtain ⟨hfd, -, hlive⟩ := h.valid fd hlast
    exact hfd ▸ hlive

theorem openDevice_of_completes {o : Opening} {fd : ℕ} (hfd : o.fd = .ok fd) (ho : o.Completes) :
    openDevice o = (0, [.opened ↑fd, .used ↑fd, .used ↑fd, .used ↑fd, .used ↑fd], ↑fd) := by
  obtain ⟨hff, hauto, hconst, heff⟩ := ho
  simp [openDevice, hfd, hff, hauto, hconst, heff]

theorem after_openDevice {o : Opening} {fd : ℕ} (hfd : o.fd = .ok fd) (ho : ¬ o.Completes)
    (live : List ℤ) :
    (openDevice o).2.2 = fd ∧ after live (openDevice o).2.1 = live := by
  rw [openDevice, hfd]
  rcases hff : o.forceFeedback with errno | _ | _
  · simp [after]
  · simp [after]
  · rcases hauto : o.autocenter with errno | _
    · simp [after]
    · dsimp only
      rcases hconst : o.constant with _ | _
      · simp [after]
      · rcases heff : o.constantEffect with _ | _
        · simp [after]
        · exact absurd ⟨hff, hauto, hconst, heff⟩ ho

theorem Inv.step_openDevice {o : Opening} (h : Inv s) (ho : ClosesNothing s (.openDevice o))
    (hs : step s (.openDevice o) = some s') : Proper s.live (openDevice o).2.1 ∧ Inv s' := by
  rcases hfd : o.fd with errno | fd
  · simp only [step, events, openDevice, hfd, after] at hs
    obtain rfl := Option.some.inj hs
    simp only [openDevice, hfd]
    refine ⟨trivial, ?_, fun _ => ?_, h.nodup⟩
    · rintro fd ⟨⟩
    · exact Int.negSucc_lt_zero 0
  · simp only [step, events, hfd] at hs
    split at hs
    · cases hs
    · rename_i hnew
      obtain rfl := Option.some.inj hs
      rw [openDevice_of_completes hfd (ho fd hfd hnew)]
      refine ⟨by simp [Proper], ?_, ?_, ?_⟩
      · rintro _ ⟨⟩
        simp [after]
      · rintro ⟨⟩
      · exact List.nodup_cons.mpr ⟨hnew, h.nodup⟩

theorem Inv.step (h : Inv s) (hm : ClosesNothing s m) (hs : step s m = some s') :
    Proper s.live (events s m) ∧ Inv s' := by
  cases m with
  | openDevice o => exact h.step_openDevice hm hs
  | update =>
    obtain rfl := Option.some.inj hs
    simp only [events, update]
    split
    · exact ⟨trivial, h⟩
    · rename_i hport
      exact ⟨⟨h.mem_live (not_lt.mp hport), trivial⟩, h⟩
  | processFFdata =>
    obtain rfl := Option.some.inj hs
    simp only [events, processFFdata]
    split
    · rename_i hport
      exact ⟨⟨h.mem_live hport, trivial⟩, h⟩
    · exact ⟨trivial, h⟩
  | closeDevice =>
    obtain rfl := Option.some.inj hs
    simp only [events, closeDevice, if_neg (not_le.mpr hm)]
    exact ⟨trivial, h⟩

/-- Descriptors are used and closed only while they are open, and the handle is right, in exactly
the runs that close nothing. -/
theorem handleRight_iff_closesNothing (methods : List Method) :
    Along step HandleRight CallsProper start methods ↔
      AllSteps step ClosesNothing start methods := by
  refine along_iff_allSteps (fun s h => h.handleRight) (fun s m h hm => ⟨fun hsome => ?_, ?_⟩)
    (fun s m h _ hnext => ?_) inv_start
  · obtain ⟨s', hs'⟩ := Option.isSome_iff_exists.mp hsome
    exact (h.step hm hs').1
  · exact fun s' hs' => (h.step hm hs').2
  · cases m with
    | openDevice o =>
      intro fd hfd hnew
      by_contra ho
      obtain ⟨hport, hafter⟩ := after_openDevice hfd ho s.live
      have hright := hnext ⟨fd, s.live, some fd⟩
        (by simp only [step, events, hfd, if_neg hnew, hport, hafter]; rfl)
      obtain ⟨_, ⟨⟩, hlive⟩ := hright.mp (Int.natCast_nonneg fd)
      exact hnew hlive
    | closeDevice =>
      by_contra hport
      have hport : 0 ≤ s.portDes := not_lt.mp hport
      have hright := hnext { s with live := s.live.erase s.portDes }
        (by simp only [step, events, closeDevice, if_pos hport, after]; rfl)
      obtain ⟨fd, hfd, hlive⟩ := hright.mp hport
      rw [(h.valid fd hfd).1] at hlive
      exact h.nodup.not_mem_erase hlive
    | _ => trivial

/-- The device is opened, used and closed once. -/
theorem not_handleRight_open_close :
    ¬ Along step HandleRight CallsProper start
      [.openDevice ⟨.ok 3, .ok true, .ok (), true, true⟩, .update, .closeDevice, .update] := by
  intro h
  have hused := (((h.2.2 _ rfl).2.2 _ rfl).2.2 _ rfl).2.1 rfl
  exact absurd hused.1 (by decide)

end Handle

end CollectedSources.VreckoFf.Linux
