import CollectedSources.Machine.Run
import Mathlib.Data.List.Basic

/-! # The remote tuner

The server runs one tuner process for each channel line of a client and
remembers the last process only. A line that comes while a process still runs
loses its pid, and a hang-up leaves it running. In all other runs the server
keeps track of its processes.
-/

namespace CollectedSources.RemoteTuner

open Machine

/-- A running tuner, with the connection that started it. -/
structure Tzap where
  pid : ℕ
  channel : List UInt8
  conn : ℕ
  signalled : Bool
  deriving DecidableEq, Repr

/-- The result of `poll` for one descriptor: an error or a hang-up, and data to read. -/
structure Revents where
  bad : Bool
  readable : Bool
  deriving DecidableEq, Repr

/-- The next call of the server. Between connections it is `idle`, after a failed one `over`. -/
inductive Pc | idle | poll | wait | flags | client | openDvr | dvr | closing | over
  deriving DecidableEq, Repr

structure State where
  tzapPid : Option ℕ
  running : List Tzap
  zombies : List ℕ
  conn : ℕ
  dvrOpen : Bool
  client : Revents
  dvr : Revents
  pc : Pc
  deriving DecidableEq, Repr

/-- How the copying of data from the tuner to the client ends. -/
inductive Copy | readError | eof | writeError | short | done
  deriving DecidableEq, Repr

/-- The outcomes of the calls, and the end of a process at any time. A fork has the new pid, and
tells whether the child could be executed. -/
inductive Input
  | connect
  | poll (revents : Option (Revents × Revents))
  | next
  | read (data : Option (List UInt8)) (fork : Option (ℕ × Bool))
  | opened (ok : Bool)
  | copy (c : Copy)
  | exit (pid : ℕ)
  deriving DecidableEq, Repr

section Steps

def newline : UInt8 := 10

/-- A pid that no child has. -/
def State.Fresh (s : State) (pid : ℕ) : Prop :=
  (∀ p ∈ s.running, p.pid ≠ pid) ∧ pid ∉ s.zombies

instance (s : State) (pid : ℕ) : Decidable (s.Fresh pid) :=
  inferInstanceAs (Decidable (_ ∧ _))

/-- `run_tzap` up to the opening of the device. A child that cannot be executed exits at once. -/
def runTzap (s : State) (channel : List UInt8) : Option (ℕ × Bool) → Option State
  | none => none
  | some (pid, executed) =>
    if ¬ s.Fresh pid then none
    else if executed then
      some { s with
        tzapPid := some pid
        running := s.running ++ [⟨pid, channel, s.conn, false⟩]
        pc := .openDvr }
    else some { s with tzapPid := some pid, zombies := s.zombies ++ [pid], pc := .openDvr }

def killTzap (s : State) : State :=
  match s.tzapPid with
  | none => s
  | some pid =>
    { s with running := s.running.map fun p =>
        if p.pid = pid then { p with signalled := true } else p }

/-- `waitpid` without blocking. -/
def waitTzap (s : State) : Option State :=
  match s.tzapPid with
  | none => some s
  | some pid =>
    if pid ∈ s.zombies then some { s with tzapPid := none, zombies := s.zombies.erase pid }
    else if pid ∈ s.running.map Tzap.pid then some s
    else none

def next (s : State) : Option State :=
  match s.pc with
  | .wait => (waitTzap s).map fun s => { s with pc := .flags }
  | .flags => some { s with pc := if s.client.bad || s.dvr.bad then .over else .client }
  | .client => if s.client.readable then none else some { s with pc := .dvr }
  | .dvr => if s.dvr.readable then none else some { s with pc := .poll }
  | .closing => some { killTzap s with pc := .idle }
  | _ => none

def step (s : State) : Input → Option State
  | .connect =>
    if s.pc = .idle then some { s with conn := s.conn + 1, dvrOpen := false, pc := .poll } else none
  | .poll revents =>
    match s.pc, revents with
    | .poll, some (client, dvr) =>
      some { s with client, dvr := if s.dvrOpen then dvr else ⟨false, false⟩, pc := .wait }
    | _, _ => none
  | .next => next s
  | .read data fork =>
    if s.pc = .client ∧ s.client.readable then
      match data with
      | none => none
      | some [] => some { s with pc := .closing }
      | some data =>
        if data.getLast? = some newline then runTzap s data.dropLast fork
        else some { s with pc := .dvr }
    else none
  | .opened ok => if s.pc = .openDvr ∧ ok then some { s with dvrOpen := true, pc := .dvr } else none
  | .copy c =>
    if s.pc = .dvr ∧ s.dvr.readable then
      match c with
      | .readError | .writeError => none
      | .eof | .short => some { s with pc := .closing }
      | .done => some { s with pc := .poll }
    else none
  | .exit pid =>
    if pid ∈ s.running.map Tzap.pid then
      some { s with running := s.running.filter (·.pid ≠ pid), zombies := s.zombies ++ [pid] }
    else none

def start : State :=
  ⟨none, [], [], 0, false, ⟨false, false⟩, ⟨false, false⟩, .idle⟩

end Steps

section Tracking

/-- At most one tuner runs, its pid is known, and after a connection the tuners it has started are
over or signalled. -/
structure Tracked (s : State) : Prop where
  one : s.running.length ≤ 1
  known : ∀ p ∈ s.running, s.tzapPid = some p.pid
  returned : s.pc = .idle ∨ s.pc = .over → ∀ p ∈ s.running, p.conn = s.conn → p.signalled

/-- A channel line comes when no tuner runs, and a connection fails when no tuner runs that has not
been signalled. -/
def Orderly (s : State) : Input → Prop
  | .read (some data) (some (pid, _)) => s.pc = .client → s.client.readable →
      data.getLast? = some newline → s.Fresh pid → s.running = []
  | .next => s.pc = .flags → s.client.bad ∨ s.dvr.bad → ∀ p ∈ s.running, p.signalled
  | _ => True

structure Inv (s : State) : Prop extends Tracked s where
  conns : ∀ p ∈ s.running, p.conn ≤ s.conn
  earlier : ∀ p ∈ s.running, p.conn ≠ s.conn → p.signalled
  apart : ∀ p ∈ s.running, p.pid ∉ s.zombies

variable {s s' : State}

theorem Tracked.pid_eq (h : Tracked s) {p : Tzap} {pid : ℕ} (hpid : s.tzapPid = some pid)
    (hp : p ∈ s.running) : p.pid = pid :=
  Option.some.inj ((h.known p hp).symm.trans hpid)

theorem inv_of_running_eq_nil (h : s.running = []) : Inv s := by
  constructor
  · constructor <;> simp [h]
  · simp [h]
  · simp [h]
  · simp [h]

theorem Inv.move (h : Inv s) (hrunning : s'.running = s.running) (hpid : s'.tzapPid = s.tzapPid)
    (hzombies : s'.zombies = s.zombies) (hconn : s'.conn = s.conn)
    (hpc : s'.pc ≠ .idle ∧ s'.pc ≠ .over) : Inv s' where
  one := hrunning ▸ h.one
  known := hrunning ▸ hpid ▸ h.known
  returned hret := (hret.elim hpc.1 hpc.2).elim
  conns := hrunning ▸ hconn ▸ h.conns
  earlier := hrunning ▸ hconn ▸ h.earlier
  apart := hrunning ▸ hzombies ▸ h.apart

theorem Inv.signalled (h : Inv s) (hpc : s.pc = .idle ∨ s.pc = .over) :
    ∀ p ∈ s.running, p.signalled := by
  intro p hp
  by_cases hconn : p.conn = s.conn
  · exact h.returned hpc p hp hconn
  · exact h.earlier p hp hconn

theorem Inv.connect (h : Inv s) (hpc : s.pc = .idle) :
    Inv { s with conn := s.conn + 1, dvrOpen := false, pc := .poll } where
  one := h.one
  known := h.known
  returned hret := by simp at hret
  conns p hp := Nat.le_succ_of_le (h.conns p hp)
  earlier p hp _ := h.signalled (Or.inl hpc) p hp
  apart := h.apart

theorem inv_runTzap {channel : List UInt8} {fork : Option (ℕ × Bool)}
    (hnone : ∀ pid executed, fork = some (pid, executed) → s.Fresh pid → s.running = [])
    (hs : runTzap s channel fork = some s') : Inv s' := by
  rcases fork with _ | ⟨pid, executed⟩
  · cases hs
  simp only [runTzap] at hs
  split at hs
  · cases hs
  rename_i hfresh
  have hfresh : s.Fresh pid := not_not.mp hfresh
  have hrunning : s.running = [] := hnone pid executed rfl hfresh
  cases executed with
  | true =>
    cases hs
    constructor
    · constructor <;> simp [hrunning]
    · simp [hrunning]
    · simp [hrunning]
    · simpa [hrunning] using hfresh.2
  | false =>
    cases hs
    exact inv_of_running_eq_nil hrunning

theorem Inv.waitTzap (h : Inv s) (hs : waitTzap s = some s') : Inv { s' with pc := .flags } := by
  unfold RemoteTuner.waitTzap at hs
  split at hs
  · cases hs
    exact h.move rfl rfl rfl rfl (by simp)
  · rename_i pid hpid
    split at hs
    · rename_i hzombie
      cases hs
      have hnone : s.running = [] := by
        rw [List.eq_nil_iff_forall_not_mem]
        intro p hp
        rw [← h.pid_eq hpid hp] at hzombie
        exact h.apart p hp hzombie
      exact inv_of_running_eq_nil hnone
    · split at hs
      · cases hs
        exact h.move rfl rfl rfl rfl (by simp)
      · cases hs

theorem Inv.killTzap (h : Inv s) : Inv { killTzap s with pc := .idle } := by
  unfold RemoteTuner.killTzap
  split
  · rename_i hnone
    apply inv_of_running_eq_nil
    rw [List.eq_nil_iff_forall_not_mem]
    intro p hp
    rw [h.known p hp] at hnone
    cases hnone
  · rename_i pid hpid
    have hsignalled : ∀ p ∈ s.running,
        (if p.pid = pid then { p with signalled := true } else p) = { p with signalled := true } :=
      fun p hp => if_pos (h.pid_eq hpid hp)
    rw [List.map_congr_left hsignalled]
    constructor
    · constructor
      · simpa using h.one
      · simpa [hpid] using h.known
      · simp
    · simpa using h.conns
    · simp
    · simpa using h.apart

theorem Inv.exit (h : Inv s) (pid : ℕ) :
    Inv { s with running := s.running.filter (·.pid ≠ pid), zombies := s.zombies ++ [pid] } := by
  have hsub : ∀ p ∈ s.running.filter (·.pid ≠ pid), p ∈ s.running :=
    fun p hp => List.mem_of_mem_filter hp
  constructor
  · constructor
    · exact Nat.le_trans (List.length_filter_le _ _) h.one
    · exact fun p hp => h.known p (hsub p hp)
    · exact fun hpc p hp => h.returned hpc p (hsub p hp)
  · exact fun p hp => h.conns p (hsub p hp)
  · exact fun p hp => h.earlier p (hsub p hp)
  · intro p hp hzombie
    rcases List.mem_append.mp hzombie with hzombie | hpid
    · exact h.apart p (hsub p hp) hzombie
    · simpa [List.mem_singleton.mp hpid] using List.of_mem_filter hp

theorem Inv.next (h : Inv s) (hi : Orderly s .next) (hs : next s = some s') : Inv s' := by
  unfold RemoteTuner.next at hs
  split at hs
  · obtain ⟨s₁, hs₁, rfl⟩ := Option.map_eq_some_iff.mp hs
    exact h.waitTzap hs₁
  · rename_i hpc
    cases hs
    by_cases hbad : s.client.bad ∨ s.dvr.bad
    · have hover : (s.client.bad || s.dvr.bad) = true := by simpa using hbad
      rw [if_pos hover]
      exact ⟨⟨h.one, h.known, fun _ p hp _ => hi hpc hbad p hp⟩, h.conns, h.earlier, h.apart⟩
    · have hover : ¬ (s.client.bad || s.dvr.bad) = true := by simpa using hbad
      rw [if_neg hover]
      exact h.move rfl rfl rfl rfl (by simp)
  · split at hs
    · cases hs
    · cases hs
      exact h.move rfl rfl rfl rfl (by simp)
  · split at hs
    · cases hs
    · cases hs
      exact h.move rfl rfl rfl rfl (by simp)
  · cases hs
    exact h.killTzap
  · cases hs

theorem Inv.step {i : Input} (h : Inv s) (hi : Orderly s i) (hs : step s i = some s') : Inv s' := by
  cases i with
  | connect =>
    simp only [RemoteTuner.step] at hs
    split at hs <;> cases hs
    exact h.connect ‹_›
  | poll revents =>
    simp only [RemoteTuner.step] at hs
    split at hs <;> cases hs
    exact h.move rfl rfl rfl rfl (by simp)
  | next => exact h.next hi hs
  | read data fork =>
    simp only [RemoteTuner.step] at hs
    split at hs
    · rename_i hpc
      split at hs
      · cases hs
      · cases hs
        exact h.move rfl rfl rfl rfl (by simp)
      · split at hs
        · rename_i hline
          refine inv_runTzap (fun pid executed hfork hfresh => ?_) hs
          subst hfork
          exact hi hpc.1 hpc.2 hline hfresh
        · cases hs
          exact h.move rfl rfl rfl rfl (by simp)
    · cases hs
  | opened ok =>
    simp only [RemoteTuner.step] at hs
    split at hs <;> cases hs
    exact h.move rfl rfl rfl rfl (by simp)
  | copy c =>
    simp only [RemoteTuner.step] at hs
    split at hs
    · split at hs <;> cases hs
      all_goals exact h.move rfl rfl rfl rfl (by simp)
    · cases hs
  | exit pid =>
    simp only [RemoteTuner.step] at hs
    split at hs <;> cases hs
    exact h.exit pid

theorem step_read_line {data : List UInt8} (fork : Option (ℕ × Bool)) (hpc : s.pc = .client)
    (hreadable : s.client.readable) (hline : data.getLast? = some newline) :
    step s (.read (some data) fork) = runTzap s data.dropLast fork := by
  cases data with
  | nil => cases hline
  | cons byte data => simp only [step, hpc, hreadable, hline, and_self, if_true]

theorem running_eq_nil_of_tracked {channel : List UInt8} {pid : ℕ} {executed : Bool}
    (hfresh : s.Fresh pid)
    (h : ∀ s', runTzap s channel (some (pid, executed)) = some s' → Tracked s') :
    s.running = [] := by
  rw [List.eq_nil_iff_forall_not_mem]
  intro p hp
  simp only [runTzap, not_true_eq_false, hfresh, if_false] at h
  cases executed with
  | true =>
    have hlen : s.running.length + 1 ≤ 1 := by simpa using (h _ rfl).one
    have hpos : 0 < s.running.length := List.length_pos_of_mem hp
    omega
  | false =>
    have hpid : pid = p.pid := Option.some.inj ((h _ rfl).known p hp)
    exact hfresh.1 p hp hpid.symm

/-- The server keeps track of its tuners in exactly the orderly runs. -/
theorem tracked_iff_orderly (inputs : List Input) :
    AllStates step Tracked start inputs ↔ AllSteps step Orderly start inputs := by
  refine allStates_iff_allSteps (fun s h => h.toTracked) (fun s i h hi s' hs => h.step hi hs)
    (fun s i h hnext => ?_) (inv_of_running_eq_nil rfl)
  unfold Orderly
  split
  · rename_i data pid executed
    intro hpc hreadable hline hfresh
    have hstep := step_read_line (some (pid, executed)) hpc hreadable hline
    exact running_eq_nil_of_tracked hfresh fun s' hs' => hnext s' (hstep.trans hs')
  · intro hpc hbad p hp
    have hover : (s.client.bad || s.dvr.bad) = true := by simpa using hbad
    have htracked : Tracked { s with pc := .over } :=
      hnext _ (by simp only [step, next, hpc, hover, if_true]; rfl)
    by_cases hconn : p.conn = s.conn
    · exact htracked.returned (Or.inr rfl) p hp hconn
    · exact h.earlier p hp hconn
  · trivial

/-- A client that sends a second channel line. -/
def twoChannels : List Input :=
  [.connect, .poll (some (⟨false, true⟩, ⟨false, false⟩)), .next, .next,
    .read (some [65, newline]) (some (100, true)), .opened true, .next,
    .poll (some (⟨false, true⟩, ⟨false, false⟩)), .next, .next,
    .read (some [66, newline]) (some (101, true))]

theorem not_tracked_twoChannels : ¬ AllStates step Tracked start twoChannels := by
  intro h
  have htracked := Along.run h rfl
  exact absurd htracked.one (by decide)

end Tracking

end CollectedSources.RemoteTuner
