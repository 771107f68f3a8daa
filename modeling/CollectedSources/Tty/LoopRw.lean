import CollectedSources.Machine.Process
import CollectedSources.Machine.Resources
import Mathlib

/-! # The terminal loop

The loop of `tty-loop-rw` opens a device, in every round or once, waits for it,
and writes to it and reads from it. It gives back what it opens. A counter of
the rounds is written after a text, into a buffer with room for eight digits.
-/

namespace CollectedSources.LoopRw

open Machine Resource

section Code

/-- The options that pass the checks before the loop. -/
structure Options where
  doCounter : Bool
  noecho : Bool
  openOnce : Bool
  doRead : Bool
  silent : Bool
  doWrite : Option (List Char)
  sleep : UInt32
  work : doRead ∨ doWrite.isSome
  counted : doCounter → doWrite.isSome

def Options.writeLen (o : Options) : ℕ := (o.doWrite.getD []).length

/-- The size of the buffer for the text and the counter. -/
def Options.allocated (o : Options) : ℕ := o.writeLen + 8 + 1 + 1

inductive Call
  | opened (result : ℤ)
  | poll (fd : ℤ) (pollout pollin : Bool)
  | sprintf (offset : ℕ) (text : List Char)
  | write (fd : ℤ) (data : List Char)
  | read (fd : ℤ) (size : ℕ)
  | close (fd : ℤ)
  | printf (text : List Char)
  | warn (text : List Char)
  | usleep (usec : UInt32)
  deriving DecidableEq, Repr

/-- What the calls of one round of the loop give. -/
structure Round where
  openResult : ℤ
  openErrno : ℤ
  pollFailed : Bool
  pollerr : Bool
  pollout : Bool
  pollin : Bool
  written : ℤ
  writeEio : Bool
  received : Option (List Char)
  readEio : Bool
  stop : Bool

structure State where
  fd : ℤ
  counter : UInt32
  deriving DecidableEq, Repr

def init : State := ⟨-1, 0⟩

variable (o : Options) (i : Round)

/-- One letter to the standard output. -/
def report (c : Char) : List Call := if o.silent then [] else [.write 1 [c]]

def sizeText (n : ℕ) : List Char := Nat.toDigits 10 n

def closingText (counter : UInt32) : List Char :=
  "\nClosing (counter=".toList ++ sizeText counter.toNat ++ ")\n".toList

/-- The end of a round, and of the program. -/
def finish (s : State) : List Call × Option State :=
  let calls := (if o.openOnce then [] else [.close s.fd]) ++ report o 'y'
  if i.stop then
    (calls ++ (if o.silent then [] else [.printf (closingText s.counter)]) ++
      (if o.openOnce then [.close s.fd] else []), none)
  else (calls ++ (if o.sleep = 0 then [] else [.usleep (o.sleep * 1000)]), some s)

def readBack (s : State) : List Call × Option State :=
  if i.pollin then
    match i.received with
    | none =>
      if i.readEio then
        (.read s.fd 64 :: .close s.fd :: report o 'r', some { s with fd := -1 })
      else Process.andThen (.read s.fd 64 :: report o 'R', some s) (finish o i)
    | some data =>
      Process.andThen
        (.read s.fd 64 :: (if o.noecho ∨ data = [] then [] else [.write 1 data]), some s)
        (finish o i)
  else finish o i s

def counterText (counter : UInt32) : List Char := sizeText counter.toNat ++ ['\n']

def count (s : State) : State := if o.doCounter then { s with counter := s.counter + 1 } else s

/-- The counter goes to the end of the text. -/
def store (counter : UInt32) : List Call :=
  if o.doCounter then [.sprintf o.writeLen (counterText counter)] else []

def payload (counter : UInt32) : List Char :=
  o.doWrite.getD [] ++ if o.doCounter then counterText counter else []

def shortText (written : ℤ) (size : ℕ) : List Char :=
  "\nW(".toList ++ sizeText (written % 2 ^ 64).toNat ++ " != ".toList ++ sizeText size ++
    ")\n".toList

def writeOut (s : State) : List Call × Option State :=
  if i.pollout then
    let s' := count o s
    let data := payload o s'.counter
    let calls := store o s'.counter ++ [.write s.fd data]
    if i.written % 2 ^ 64 ≠ data.length then
      if i.writeEio then (calls ++ .close s.fd :: report o 'w', some { s' with fd := -1 })
      else
        Process.andThen
          (calls ++ (if o.silent then [] else [.printf (shortText i.written data.length)]) ++
            report o 'W', some s')
          (readBack o i)
    else Process.andThen (calls, some s') (readBack o i)
  else readBack o i s

def transfer (s : State) : List Call × Option State :=
  Process.andThen
    (.poll s.fd o.doWrite.isSome o.doRead ::
      (if i.pollFailed ∨ i.pollerr then [.printf ['P']] else []), some s)
    (writeOut o i)

/-- A round of the loop. -/
def round (s : State) (i : Round) : List Call × Option State :=
  if s.fd < 0 ∨ ¬ o.openOnce then
    if i.openResult < 0 then
      (.opened i.openResult :: (if i.openErrno = -1 then [.warn "open".toList] else []) ++
        report o 'O', some { s with fd := i.openResult })
    else
      Process.andThen ([.opened i.openResult], some { s with fd := i.openResult }) (transfer o i)
  else transfer o i s

end Code

section Descriptors

/-- What a call does to the descriptors. -/
def Call.events : Call → List (Event ℤ)
  | .opened fd => if fd < 0 then [] else [.opened fd]
  | .poll fd _ _ => [.used fd]
  | .write fd _ => [.used fd]
  | .read fd _ => [.used fd]
  | .close fd => [.closed fd]
  | _ => []

/-- The standard descriptors. -/
def inherited : List ℤ := [0, 1, 2]

/-- Only open descriptors are used and closed, and nothing that the program has opened is open
when it opens the device. -/
def Disciplined (live : List ℤ) : List Call → Prop
  | [] => True
  | c :: cs =>
    (∀ result, c = .opened result → live = inherited) ∧ Proper live c.events ∧
      Disciplined (after live c.events) cs

/-- The last descriptor is closed once after it has been opened. -/
def LastClosedOnce (cs : List Call) : Prop :=
  ∃ before fd rest, cs = before ++ .opened fd :: rest ∧ 0 ≤ fd ∧
    (∀ result, .opened result ∉ rest) ∧ rest.count (.close fd) = 1

theorem disciplined_append {live : List ℤ} {cs cs' : List Call} :
    Disciplined live (cs ++ cs') ↔
      Disciplined live cs ∧ Disciplined (after live (cs.flatMap Call.events)) cs' := by
  induction cs generalizing live with
  | nil => simp [Disciplined, after]
  | cons c cs ih => simp [Disciplined, ih, after_append, and_assoc]

/-- A call that uses some descriptors only. -/
def Call.Uses (fds : List ℤ) (c : Call) : Prop :=
  (∀ e ∈ c.events, ∃ fd ∈ fds, e = .used fd) ∧ ∀ result, c ≠ .opened result

/-- Calls that use some descriptors only. -/
def AllUse (fds : List ℤ) (cs : List Call) : Prop := ∀ c ∈ cs, c.Uses fds

variable {o : Options} {i : Round} {fds : List ℤ} {cs cs' : List Call}

theorem after_used {live : List ℤ} {es : List (Event ℤ)} (h : ∀ e ∈ es, ∃ fd ∈ live, e = .used fd) :
    Proper live es ∧ after live es = live := by
  induction es with
  | nil => exact ⟨trivial, rfl⟩
  | cons e es ih =>
    rw [List.forall_mem_cons] at h
    obtain ⟨⟨fd, hfd, rfl⟩, h⟩ := h
    exact ⟨⟨hfd, (ih h).1⟩, (ih h).2⟩

theorem disciplined_of_allUse {live : List ℤ} (h : AllUse fds cs) (hsub : fds ⊆ live) :
    Disciplined live cs ∧ after live (cs.flatMap Call.events) = live := by
  induction cs with
  | nil => exact ⟨trivial, rfl⟩
  | cons c cs ih =>
    obtain ⟨⟨hused, hopened⟩, hcs⟩ := List.forall_mem_cons.mp h
    obtain ⟨hproper, hafter⟩ : Proper live c.events ∧ after live c.events = live :=
      after_used fun e he => by
        obtain ⟨fd, hfd, rfl⟩ := hused e he
        exact ⟨fd, hsub hfd, rfl⟩
    obtain ⟨hdisc, hrest⟩ := ih hcs
    rw [Disciplined, List.flatMap_cons, after_append, hafter]
    exact ⟨⟨fun result hc => absurd hc (hopened result), hproper, hdisc⟩, hrest⟩

/-- The descriptor of a state is open between two rounds. -/
def Holds (o : Options) (s : State) : Prop := o.openOnce = true ∧ 0 ≤ s.fd

/-- What a part of a round does with the open descriptor `fd`: it closes it, or keeps it for the
next round. -/
def Leaves (o : Options) (fd : ℤ) (r : List Call × Option State) : Prop :=
  (∃ before rest, r.1 = before ++ .close fd :: rest ∧ AllUse [fd, 1] before ∧ AllUse [1] rest ∧
      ∀ s' ∈ r.2, ¬ Holds o s') ∨
    (AllUse [fd, 1] r.1 ∧ ∃ s', r.2 = some s' ∧ Holds o s' ∧ s'.fd = fd)

theorem allUse_append : AllUse fds (cs ++ cs') ↔ AllUse fds cs ∧ AllUse fds cs' :=
  List.forall_mem_append

theorem AllUse.ite {p : Prop} [Decidable p] (h : AllUse fds cs) (h' : AllUse fds cs') :
    AllUse fds (if p then cs else cs') := by
  split_ifs
  · exact h
  · exact h'

theorem Leaves.andThen {fd : ℤ} {s : State} {next : State → List Call × Option State}
    (hcs : AllUse [fd, 1] cs) (h : Leaves o fd (next s)) :
    Leaves o fd (Process.andThen (cs, some s) next) := by
  rw [Process.andThen_some]
  rcases h with ⟨before, rest, heq, hbefore, hrest, hs'⟩ | ⟨hnext, hs'⟩
  · left
    refine ⟨cs ++ before, rest, ?_, allUse_append.mpr ⟨hcs, hbefore⟩, hrest, hs'⟩
    rw [heq, List.append_assoc]
  · exact Or.inr ⟨allUse_append.mpr ⟨hcs, hnext⟩, hs'⟩

@[simp] theorem allUse_nil : AllUse fds [] := by simp [AllUse]

@[simp] theorem allUse_cons {c : Call} : AllUse fds (c :: cs) ↔ c.Uses fds ∧ AllUse fds cs :=
  List.forall_mem_cons

theorem uses_iff_mem {c : Call} {fd : ℤ} (h : c.events = [.used fd]) :
    c.Uses fds ↔ fd ∈ fds := by
  rw [Call.Uses, h]
  constructor
  · rintro ⟨hused, -⟩
    obtain ⟨fd', hmem, heq⟩ := hused _ (List.mem_singleton_self _)
    cases heq
    exact hmem
  · refine fun hmem => ⟨fun e he => ⟨fd, hmem, List.mem_singleton.mp he⟩, ?_⟩
    rintro result rfl
    simp only [Call.events] at h
    split_ifs at h
    cases h

@[simp] theorem uses_poll {fd : ℤ} {out input : Bool} :
    (Call.poll fd out input).Uses fds ↔ fd ∈ fds := uses_iff_mem rfl

@[simp] theorem uses_write {fd : ℤ} {data : List Char} :
    (Call.write fd data).Uses fds ↔ fd ∈ fds := uses_iff_mem rfl

@[simp] theorem uses_read {fd : ℤ} {size : ℕ} :
    (Call.read fd size).Uses fds ↔ fd ∈ fds := uses_iff_mem rfl

@[simp] theorem uses_sprintf {offset : ℕ} {text : List Char} :
    (Call.sprintf offset text).Uses fds := ⟨nofun, nofun⟩

@[simp] theorem uses_printf {text : List Char} : (Call.printf text).Uses fds := ⟨nofun, nofun⟩

@[simp] theorem uses_warn {text : List Char} : (Call.warn text).Uses fds := ⟨nofun, nofun⟩

@[simp] theorem uses_usleep {usec : UInt32} : (Call.usleep usec).Uses fds := ⟨nofun, nofun⟩

theorem allUse_report (h : 1 ∈ fds) (c : Char) : AllUse fds (report o c) :=
  AllUse.ite allUse_nil (by simp [h])

theorem finish_leaves {s : State} (h : 0 ≤ s.fd) : Leaves o s.fd (finish o i s) := by
  have hy : ∀ fds, 1 ∈ fds → AllUse fds (report o 'y') := fun fds hfds => allUse_report hfds 'y'
  unfold finish
  cases ho : o.openOnce with
  | false =>
    have hrest : ∀ s' : State, ¬ Holds o s' := fun s' hs' => by simp [Holds, ho] at hs'
    left
    by_cases hstop : i.stop
    · rw [if_pos hstop]
      refine ⟨[], _, rfl, allUse_nil, ?_, fun s' _ => hrest s'⟩
      exact allUse_append.mpr
        ⟨allUse_append.mpr ⟨hy _ (by simp), AllUse.ite (by simp) (by simp)⟩, allUse_nil⟩
    · rw [if_neg hstop]
      refine ⟨[], _, rfl, allUse_nil, ?_, fun s' _ => hrest s'⟩
      exact allUse_append.mpr ⟨hy _ (by simp), AllUse.ite (by simp) (by simp)⟩
  | true =>
    by_cases hstop : i.stop
    · left
      rw [if_pos hstop]
      refine ⟨_, [], rfl, ?_, allUse_nil, by simp⟩
      exact allUse_append.mpr ⟨hy _ (by simp), AllUse.ite (by simp) (by simp)⟩
    · right
      rw [if_neg hstop]
      refine ⟨?_, s, rfl, ⟨ho, h⟩, rfl⟩
      exact allUse_append.mpr ⟨hy _ (by simp), AllUse.ite (by simp) (by simp)⟩

theorem readBack_leaves {s : State} (h : 0 ≤ s.fd) : Leaves o s.fd (readBack o i s) := by
  unfold readBack
  split
  · split
    · split
      · left
        refine ⟨[.read s.fd 64], _, rfl, by simp, allUse_report (by simp) 'r', ?_⟩
        simp [Holds]
      · exact Leaves.andThen (by simp [allUse_report]) (finish_leaves h)
    · apply Leaves.andThen _ (finish_leaves h)
      exact allUse_cons.mpr ⟨by simp, AllUse.ite (by simp) (by simp)⟩
  · exact finish_leaves h

theorem count_fd (s : State) : (count o s).fd = s.fd := by
  unfold count
  split_ifs <;> rfl

theorem writeOut_leaves {s : State} (h : 0 ≤ s.fd) : Leaves o s.fd (writeOut o i s) := by
  have hread : Leaves o s.fd (readBack o i (count o s)) := by
    rw [← count_fd s]
    exact readBack_leaves (by rwa [count_fd])
  have hcalls : AllUse [s.fd, 1]
      (store o (count o s).counter ++ [.write s.fd (payload o (count o s).counter)]) :=
    allUse_append.mpr ⟨AllUse.ite (by simp) (by simp), by simp⟩
  unfold writeOut
  by_cases hout : i.pollout
  · rw [if_pos hout]
    dsimp only
    split
    · split
      · left
        refine ⟨_, _, rfl, hcalls, allUse_report (by simp) 'w', ?_⟩
        simp [Holds]
      · apply Leaves.andThen _ hread
        refine allUse_append.mpr ⟨allUse_append.mpr ⟨hcalls, ?_⟩, allUse_report (by simp) 'W'⟩
        exact AllUse.ite (by simp) (by simp)
    · exact Leaves.andThen hcalls hread
  · rw [if_neg hout]
    exact readBack_leaves h

theorem transfer_leaves {s : State} (h : 0 ≤ s.fd) : Leaves o s.fd (transfer o i s) := by
  apply Leaves.andThen _ (writeOut_leaves h)
  exact allUse_cons.mpr ⟨by simp, AllUse.ite (by simp) (by simp)⟩

theorem round_cases (o : Options) (s : State) (i : Round) :
    (¬ Holds o s ∧ ∃ result rest s', round o s i = (.opened result :: rest, some s') ∧
        result < 0 ∧ AllUse [1] rest ∧ ¬ Holds o s') ∨
      (¬ Holds o s ∧ ∃ fd rest next, round o s i = (.opened fd :: rest, next) ∧ 0 ≤ fd ∧
        Leaves o fd (rest, next)) ∨
      (Holds o s ∧ Leaves o s.fd (round o s i)) := by
  unfold round
  split
  · rename_i hopen
    have hnot : ¬ Holds o s := by
      rintro ⟨honce, hfd⟩
      rcases hopen with hneg | hmany
      · omega
      · exact hmany honce
    split
    · rename_i hneg
      refine Or.inl ⟨hnot, _, _, _, rfl, hneg, ?_, fun h => absurd h.2 (not_le.mpr hneg)⟩
      exact allUse_append.mpr ⟨AllUse.ite (by simp) (by simp), allUse_report (by simp) 'O'⟩
    · rename_i hpos
      have hfd : 0 ≤ i.openResult := not_lt.mp hpos
      exact Or.inr (Or.inl ⟨hnot, i.openResult, _, _, rfl, hfd, @transfer_leaves o i ⟨_, _⟩ hfd⟩)
  · rename_i hkeep
    simp only [not_or, not_not] at hkeep
    have hfd : 0 ≤ s.fd := not_lt.mp hkeep.1
    exact Or.inr (Or.inr ⟨⟨hkeep.2, hfd⟩, transfer_leaves hfd⟩)

/-- The open descriptors between two rounds. -/
def Live (o : Options) (s : State) (live : List ℤ) : Prop :=
  (Holds o s ∧ live = s.fd :: inherited) ∨ (¬ Holds o s ∧ live = inherited)

/-- The calls of the rest of a run close the last descriptor once. -/
def Ends (o : Options) (s : State) (cs : List Call) : Prop :=
  LastClosedOnce cs ∨
    (Holds o s ∧ (∀ result, .opened result ∉ cs) ∧ cs.count (.close s.fd) = 1)

theorem AllUse.not_opened (h : AllUse fds cs) (result : ℤ) : .opened result ∉ cs :=
  fun hmem => (h _ hmem).2 result rfl

theorem AllUse.count_close (h : AllUse fds cs) (fd : ℤ) : cs.count (.close fd) = 0 := by
  rw [List.count_eq_zero]
  intro hmem
  obtain ⟨fd', -, heq⟩ := (h _ hmem).1 (.closed fd) (by simp [Call.events])
  cases heq

theorem Leaves.disciplined {fd : ℤ} {next : Option State} (h : Leaves o fd (cs, next)) :
    Disciplined (fd :: inherited) cs ∧
      (∀ s' ∈ next, Live o s' (after (fd :: inherited) (cs.flatMap Call.events))) ∧
      (next = none → after (fd :: inherited) (cs.flatMap Call.events) = inherited) := by
  rcases h with ⟨before, rest, rfl, hbefore, hrest, hs'⟩ | ⟨huse, s', rfl, hholds, rfl⟩
  · obtain ⟨hdisc, hafter⟩ := disciplined_of_allUse hbefore
      (show [fd, 1] ⊆ fd :: inherited by simp [inherited])
    obtain ⟨hdisc', hafter'⟩ := disciplined_of_allUse hrest
      (show [1] ⊆ inherited by simp [inherited])
    have hclose : after (fd :: inherited) (Call.close fd).events = inherited :=
      List.erase_cons_head fd inherited
    have hend : after (fd :: inherited) ((before ++ .close fd :: rest).flatMap Call.events) =
        inherited := by
      rw [List.flatMap_append, after_append, hafter, List.flatMap_cons, after_append, hclose,
        hafter']
    refine ⟨?_, fun s' hmem => Or.inr ⟨hs' s' hmem, hend⟩, fun _ => hend⟩
    rw [disciplined_append, hafter, Disciplined, hclose]
    exact ⟨hdisc, nofun, ⟨List.mem_cons_self, trivial⟩, hdisc'⟩
  · obtain ⟨hdisc, hafter⟩ := disciplined_of_allUse huse
      (show [s'.fd, 1] ⊆ s'.fd :: inherited by simp [inherited])
    refine ⟨hdisc, fun t ht => Or.inl ?_, nofun⟩
    obtain rfl := Option.some.inj ht
    exact ⟨hholds, hafter⟩

theorem LastClosedOnce.append_left (h : LastClosedOnce cs') : LastClosedOnce (cs ++ cs') := by
  obtain ⟨before, fd, rest, rfl, hrest⟩ := h
  exact ⟨cs ++ before, fd, rest, by simp, hrest⟩

/-- The last part of a run that has `fd` open closes it once. -/
theorem Leaves.closes {fd : ℤ} (h : Leaves o fd (cs, none)) :
    (∀ result, .opened result ∉ cs) ∧ cs.count (.close fd) = 1 := by
  rcases h with ⟨before, rest, rfl, hbefore, hrest, -⟩ | ⟨-, s', hs', -⟩
  · constructor
    · intro result hmem
      rcases List.mem_append.mp hmem with hmem | hmem
      · exact hbefore.not_opened result hmem
      · rcases List.mem_cons.mp hmem with heq | hmem
        · cases heq
        · exact hrest.not_opened result hmem
    · rw [List.count_append, hbefore.count_close, List.count_cons_self, hrest.count_close]
  · cases hs'

theorem Leaves.closes_append {fd : ℤ} {s' : State} (h : Leaves o fd (cs, some s'))
    (hends : Ends o s' cs') :
    LastClosedOnce (cs ++ cs') ∨
      ((∀ result, .opened result ∉ cs ++ cs') ∧ (cs ++ cs').count (.close fd) = 1) := by
  rcases hends with hlast | ⟨hholds, hopened, hcount⟩
  · exact Or.inl hlast.append_left
  · rcases h with ⟨-, -, -, -, -, hnot⟩ | ⟨huse, t, ht, -, hfd⟩
    · exact absurd hholds (hnot s' rfl)
    · obtain rfl : s' = t := Option.some.inj ht
      right
      constructor
      · intro result hmem
        rcases List.mem_append.mp hmem with hmem | hmem
        · exact huse.not_opened result hmem
        · exact hopened result hmem
      · rw [List.count_append, huse.count_close, ← hfd, hcount]

theorem round_spec {s : State} {live : List ℤ} (hlive : Live o s live) :
    Disciplined live (round o s i).1 ∧
      (∀ s' ∈ (round o s i).2, Live o s' (after live ((round o s i).1.flatMap Call.events))) ∧
      ((round o s i).2 = none → Ends o s (round o s i).1 ∧
        after live ((round o s i).1.flatMap Call.events) = inherited) ∧
      ∀ s' ∈ (round o s i).2, ∀ cs', Ends o s' cs' → Ends o s ((round o s i).1 ++ cs') := by
  rcases round_cases o s i with ⟨hnot, result, rest, s', heq, hneg, huse, hnot'⟩ |
    ⟨hnot, fd, rest, next, heq, hfd, hleaves⟩ | ⟨hholds, hleaves⟩
  · obtain ⟨-, rfl⟩ : ¬ Holds o s ∧ live = inherited := hlive.resolve_left fun h => hnot h.1
    obtain ⟨hdisc, hafter⟩ := disciplined_of_allUse huse
      (show [1] ⊆ inherited by simp [inherited])
    have hevents : (Call.opened result).events = [] := if_pos hneg
    rw [heq]
    refine ⟨?_, fun t ht => ?_, nofun, fun t ht cs' hends => ?_⟩
    · rw [Disciplined, hevents]
      exact ⟨fun _ _ => rfl, trivial, hdisc⟩
    · obtain rfl := Option.some.inj ht
      rw [List.flatMap_cons, hevents, List.nil_append, hafter]
      exact Or.inr ⟨hnot', rfl⟩
    · obtain rfl := Option.some.inj ht
      rcases hends with hlast | hholds
      · exact Or.inl hlast.append_left
      · exact absurd hholds.1 hnot'
  · obtain ⟨-, rfl⟩ : ¬ Holds o s ∧ live = inherited := hlive.resolve_left fun h => hnot h.1
    obtain ⟨hdisc, hnext, hend⟩ := hleaves.disciplined
    have hevents : (Call.opened fd).events = [.opened fd] := if_neg (not_lt.mpr hfd)
    rw [heq]
    simp only [List.flatMap_cons, hevents, Disciplined]
    refine ⟨⟨fun _ _ => by trivial, trivial, hdisc⟩, hnext, fun hnone => ⟨Or.inl ?_, hend hnone⟩,
      fun t ht cs' hends => Or.inl ?_⟩
    · subst hnone
      exact ⟨[], fd, rest, rfl, hfd, hleaves.closes⟩
    · obtain rfl := Option.mem_def.mp ht
      rcases hleaves.closes_append hends with hlast | hcloses
      · exact @LastClosedOnce.append_left [.opened fd] _ hlast
      · exact ⟨[], fd, rest ++ cs', rfl, hfd, hcloses⟩
  · obtain ⟨-, rfl⟩ : Holds o s ∧ live = s.fd :: inherited :=
      hlive.resolve_right fun h => h.1 hholds
    generalize round o s i = r at hleaves ⊢
    obtain ⟨cs, next⟩ := r
    obtain ⟨hdisc, hnext, hend⟩ := hleaves.disciplined
    refine ⟨hdisc, hnext, fun hnone => ⟨Or.inr ⟨hholds, ?_⟩, hend hnone⟩, fun t ht cs' hends => ?_⟩
    · subst hnone
      exact hleaves.closes
    · obtain rfl := Option.mem_def.mp ht
      rcases hleaves.closes_append hends with hlast | hcloses
      · exact Or.inl hlast
      · exact Or.inr ⟨hholds, hcloses⟩

theorem run_spec (rounds : List Round) {s : State} {live : List ℤ} (hlive : Live o s live) :
    Disciplined live (Process.run (round o) s rounds).1 ∧
      ((Process.run (round o) s rounds).2 = none →
        Ends o s (Process.run (round o) s rounds).1 ∧
          after live ((Process.run (round o) s rounds).1.flatMap Call.events) = inherited) := by
  induction rounds generalizing s live with
  | nil => exact ⟨trivial, nofun⟩
  | cons i rounds ih =>
    obtain ⟨hdisc, hnext, hend, happend⟩ := @round_spec o i s live hlive
    rw [Process.run_cons]
    generalize round o s i = r at hdisc hnext hend happend ⊢
    obtain ⟨cs, _ | s'⟩ := r
    · exact ⟨hdisc, hend⟩
    · obtain ⟨hrest, hrestEnd⟩ := ih (hnext s' rfl)
      rw [Process.andThen_some]
      refine ⟨disciplined_append.mpr ⟨hdisc, hrest⟩, fun hnone => ?_⟩
      obtain ⟨hends, hafter⟩ := hrestEnd hnone
      rw [List.flatMap_append, after_append]
      exact ⟨happend s' rfl _ hends, hafter⟩

/--
The loop uses and closes what it has opened, opens nothing while it has a descriptor, and at the
end it has closed the last descriptor once.
-/
theorem descriptors_disciplined (o : Options) (rounds : List Round) :
    Disciplined inherited (Process.run (round o) init rounds).1 ∧
      ((Process.run (round o) init rounds).2 = none →
        LastClosedOnce (Process.run (round o) init rounds).1 ∧
          after inherited ((Process.run (round o) init rounds).1.flatMap Call.events) =
            inherited) := by
  have hinit : ¬ Holds o init := fun h => absurd h.2 (by decide)
  obtain ⟨hdisc, hend⟩ := run_spec rounds (Or.inr ⟨hinit, rfl⟩)
  refine ⟨hdisc, fun hnone => ?_⟩
  obtain ⟨hends, hafter⟩ := hend hnone
  exact ⟨hends.resolve_right fun h => hinit h.1, hafter⟩

end Descriptors

section Counter

variable {o : Options} {i : Round} {s : State}

/-- What `sprintf` stores lies in the buffer, with the zero at its end. -/
def Call.Fits (o : Options) : Call → Prop
  | .sprintf offset text => offset + text.length + 1 ≤ o.allocated
  | _ => True

/-- The round has a descriptor to write to. -/
def Reaches (o : Options) (s : State) (i : Round) : Prop :=
  (0 ≤ s.fd ∧ o.openOnce) ∨ 0 ≤ i.openResult

instance : Decidable (Reaches o s i) :=
  inferInstanceAs (Decidable ((0 ≤ s.fd ∧ o.openOnce) ∨ 0 ≤ i.openResult))

/-- A round that counts finds a counter whose successor has eight digits at most. -/
def EightDigits (o : Options) (s : State) (i : Round) : Prop :=
  o.doCounter → Reaches o s i → i.pollout → (s.counter + 1).toNat < 10 ^ 8

/-- What a call stores in the buffer, with its place. -/
def Call.stored : Call → Option (ℕ × List Char)
  | .sprintf offset text => some (offset, text)
  | _ => none

def stored (cs : List Call) : List (ℕ × List Char) := cs.filterMap Call.stored

theorem fits_iff {c : Call} :
    c.Fits o ↔ ∀ p ∈ c.stored, p.1 + p.2.length + 1 ≤ o.allocated := by
  cases c with
  | sprintf offset text =>
    refine ⟨fun h p hp => ?_, fun h => h _ rfl⟩
    obtain rfl := Option.some.inj hp
    exact h
  | _ => exact ⟨fun _ => nofun, fun _ => trivial⟩

theorem forall_fits_iff {cs : List Call} :
    (∀ c ∈ cs, c.Fits o) ↔ ∀ p ∈ stored cs, p.1 + p.2.length + 1 ≤ o.allocated := by
  simp only [fits_iff, stored, List.mem_filterMap]
  constructor
  · rintro h p ⟨c, hc, hp⟩
    exact h c hc p hp
  · exact fun h c hc p hp => h p ⟨c, hc, hp⟩

@[simp] theorem stored_nil : stored [] = [] := rfl

@[simp] theorem stored_cons (c : Call) (cs : List Call) :
    stored (c :: cs) = c.stored.toList ++ stored cs := by
  cases c <;> rfl

@[simp] theorem stored_append (cs cs' : List Call) : stored (cs ++ cs') = stored cs ++ stored cs' :=
  List.filterMap_append

@[simp] theorem stored_ite {p : Prop} [Decidable p] (cs cs' : List Call) :
    stored (if p then cs else cs') = if p then stored cs else stored cs' :=
  apply_ite stored p cs cs'

@[simp] theorem stored_report (c : Char) : stored (report o c) = [] := by
  simp [report, Call.stored]

theorem stored_finish : stored (finish o i s).1 = [] := by
  unfold finish
  by_cases hstop : i.stop
  · simp [hstop, Call.stored]
  · simp [hstop, Call.stored]

theorem stored_readBack : stored (readBack o i s).1 = [] := by
  unfold readBack
  split
  · split
    · split <;> simp [stored_finish, Call.stored]
    · simp [stored_finish, Call.stored]
  · exact stored_finish

theorem stored_store : stored (store o (count o s).counter) =
    if o.doCounter then [(o.writeLen, counterText (s.counter + 1))] else [] := by
  unfold store count
  split_ifs <;> rfl

theorem stored_writeOut : stored (writeOut o i s).1 =
    if o.doCounter ∧ i.pollout then [(o.writeLen, counterText (s.counter + 1))] else [] := by
  unfold writeOut
  by_cases hout : i.pollout
  · rw [if_pos hout]
    simp only [hout, and_true, ← stored_store]
    split
    · split <;> simp [stored_readBack, Call.stored]
    · simp [stored_readBack, Call.stored]
  · rw [if_neg hout, stored_readBack, if_neg fun h => hout h.2]

theorem stored_transfer : stored (transfer o i s).1 =
    if o.doCounter ∧ i.pollout then [(o.writeLen, counterText (s.counter + 1))] else [] := by
  unfold transfer
  simp [stored_writeOut, Call.stored]

theorem stored_round : stored (round o s i).1 =
    if o.doCounter ∧ Reaches o s i ∧ i.pollout then
      [(o.writeLen, counterText (s.counter + 1))] else [] := by
  unfold round
  split
  · rename_i hopen
    split
    · rename_i hneg
      have hnot : ¬ Reaches o s i := by
        rintro (⟨hfd, honce⟩ | hpos)
        · rcases hopen with hneg' | hmany
          · omega
          · exact hmany honce
        · omega
      simp [hnot, Call.stored]
    · rename_i hpos
      have hreach : Reaches o s i := Or.inr (not_lt.mp hpos)
      simp [stored_transfer, hreach, Call.stored]
  · rename_i hkeep
    simp only [not_or, not_not] at hkeep
    have hreach : Reaches o s i := Or.inl ⟨not_lt.mp hkeep.1, hkeep.2⟩
    rw [stored_transfer]
    simp [hreach]

theorem counterText_fits_iff (counter : UInt32) :
    o.writeLen + (counterText counter).length + 1 ≤ o.allocated ↔ counter.toNat < 10 ^ 8 := by
  have hlen : (Nat.toDigits 10 counter.toNat).length ≤ 8 ↔ counter.toNat < 10 ^ 8 :=
    Nat.length_toDigits_le_iff (by norm_num) (by norm_num)
  rw [← hlen]
  simp only [counterText, sizeText, Options.allocated, List.length_append, List.length_singleton]
  omega

theorem round_fits_iff : (∀ c ∈ (round o s i).1, c.Fits o) ↔ EightDigits o s i := by
  rw [forall_fits_iff, stored_round, EightDigits]
  split_ifs with h
  · simp only [List.forall_mem_singleton, counterText_fits_iff, h, true_imp_iff]
  · simp only [List.not_mem_nil, false_imp_iff, imp_true_iff, true_iff]
    exact fun hcounter hreach hout => absurd ⟨hcounter, hreach, hout⟩ h

/--
The counter fits its buffer in all rounds of a run exactly when every round that counts makes it
a number of eight digits at most.
-/
theorem counter_fits_iff (o : Options) (rounds : List Round) :
    (∀ c ∈ (Process.run (round o) init rounds).1, c.Fits o) ↔
      AllSteps (fun s i => (round o s i).2) (EightDigits o) init rounds := by
  have hround : (fun s i => ∀ c ∈ (round o s i).1, c.Fits o) = EightDigits o := by
    funext s i
    exact propext round_fits_iff
  rw [Process.run_forall_iff, hround]

variable {t : State}

theorem counter_of_finish (h : (finish o i s).2 = some t) : t.counter = s.counter := by
  unfold finish at h
  dsimp only at h
  split at h
  · cases h
  · cases h
    rfl

theorem counter_of_readBack (h : (readBack o i s).2 = some t) : t.counter = s.counter := by
  unfold readBack at h
  split at h
  · split at h
    · split at h
      · cases h
        rfl
      · exact counter_of_finish h
    · exact counter_of_finish h
  · exact counter_of_finish h

theorem counter_of_writeOut (h : (writeOut o i s).2 = some t) :
    t.counter = if i.pollout then (count o s).counter else s.counter := by
  unfold writeOut at h
  split at h
  · rename_i hout
    rw [if_pos hout]
    dsimp only at h
    split at h
    · split at h
      · cases h
        rfl
      · exact counter_of_readBack h
    · exact counter_of_readBack h
  · rename_i hout
    rw [if_neg hout]
    exact counter_of_readBack h

theorem counter_of_round (h : (round o s i).2 = some t) :
    t.counter.toNat ≤ s.counter.toNat + if i.pollout then 1 else 0 := by
  have hwrite : ∀ s' : State, s'.counter = s.counter → (writeOut o i s').2 = some t →
      t.counter.toNat ≤ s.counter.toNat + if i.pollout then 1 else 0 := by
    rintro s' hs' h
    rw [counter_of_writeOut h, ← hs']
    unfold count
    have hadd : (s'.counter + 1).toNat ≤ s'.counter.toNat + 1 := Nat.mod_le ..
    split_ifs <;> omega
  unfold round at h
  split at h
  · split at h
    · cases h
      exact Nat.le_add_right ..
    · exact hwrite { s with fd := i.openResult } rfl h
  · exact hwrite s rfl h

theorem eightDigits_of_few (rounds : List Round)
    (hfew : s.counter.toNat + rounds.countP Round.pollout < 10 ^ 8) :
    AllSteps (fun s i => (round o s i).2) (EightDigits o) s rounds := by
  induction rounds generalizing s with
  | nil => trivial
  | cons i rounds ih =>
    rw [List.countP_cons] at hfew
    refine ⟨trivial, ?_, ?_⟩
    · rintro - - hout
      have hadd : (s.counter + 1).toNat ≤ s.counter.toNat + 1 := Nat.mod_le ..
      rw [if_pos hout] at hfew
      omega
    · rintro t ht
      have hle := counter_of_round ht
      apply ih
      omega

/-- A round that opens the device, writes the counter and closes the device. -/
def Counts (o : Options) (i : Round) : Prop :=
  0 ≤ i.openResult ∧ i.pollout ∧ i.pollin = false ∧ i.writeEio = false ∧ i.stop = false ∧
    o.doCounter ∧ o.openOnce = false

theorem round_of_counts (h : Counts o i) :
    (round o s i).2 = some ⟨i.openResult, s.counter + 1⟩ := by
  obtain ⟨hopen, hout, hin, heio, hstop, hcounter, honce⟩ := h
  have hread : ∀ t, (readBack o i t).2 = some t := by
    intro t
    simp [readBack, finish, hin, hstop]
  have hwrite : ∀ t, (writeOut o i t).2 = some ⟨t.fd, t.counter + 1⟩ := by
    intro t
    have hnext : (readBack o i (count o t)).2 = some ⟨t.fd, t.counter + 1⟩ := by
      rw [hread, count, if_pos hcounter]
    unfold writeOut
    rw [if_pos hout, heio]
    dsimp only
    split
    · exact hnext
    · exact hnext
  simp [round, transfer, hwrite, honce, not_lt.mpr hopen]

/-- After `n` rounds that count, the next one stores the counter of the first plus `n`. -/
theorem mem_stored_run {rounds : List Round} (h : ∀ i ∈ rounds, Counts o i) {n : ℕ}
    (hlen : n < rounds.length) :
    (o.writeLen, counterText (s.counter + .ofNat (n + 1))) ∈
      stored (Process.run (round o) s rounds).1 := by
  induction rounds generalizing s n with
  | nil => simp at hlen
  | cons i rounds ih =>
    rw [List.forall_mem_cons] at h
    have hround : round o s i = ((round o s i).1, some ⟨i.openResult, s.counter + 1⟩) :=
      Prod.ext rfl (round_of_counts h.1)
    rw [Process.run_cons, hround, Process.andThen_some, stored_append, List.mem_append]
    cases n with
    | zero =>
      left
      obtain ⟨hopen, hout, -, -, -, hcounter, -⟩ := h.1
      have hreach : Reaches o s i := Or.inr hopen
      rw [stored_round, if_pos ⟨hcounter, hreach, hout⟩]
      exact List.mem_singleton_self _
    | succ n =>
      right
      have hmem := @ih ⟨i.openResult, s.counter + 1⟩ h.2 n (by simpa using hlen)
      have hsum : s.counter + 1 + .ofNat (n + 1) = s.counter + .ofNat (n + 1 + 1) := by
        rw [UInt32.add_assoc, UInt32.add_comm 1, UInt32.ofNat_add (n + 1) 1]
        rfl
      rwa [hsum] at hmem

/-- `-w -c`, with the other options left out. -/
def counterOptions : Options where
  doCounter := true
  noecho := false
  openOnce := false
  doRead := false
  silent := false
  doWrite := some ['x']
  sleep := 0
  work := by decide
  counted := by decide

/-- A round in which the whole text is written. -/
def wholeRound (n : ℕ) : Round where
  openResult := 3
  openErrno := 0
  pollFailed := false
  pollerr := false
  pollout := true
  pollin := false
  written := (payload counterOptions (.ofNat (n + 1))).length
  writeEio := false
  received := none
  readEio := false
  stop := false

/-- The round number one hundred million stores nine digits. -/
theorem counter_overflows :
    ¬ ∀ c ∈ (Process.run (round counterOptions) init
      ((List.range (10 ^ 8)).map wholeRound)).1, c.Fits counterOptions := by
  rw [forall_fits_iff]
  intro h
  have hcounts : ∀ i ∈ (List.range (10 ^ 8)).map wholeRound, Counts counterOptions i := by
    intro i hi
    obtain ⟨n, -, rfl⟩ := List.mem_map.mp hi
    exact ⟨by simp [wholeRound], rfl, rfl, rfl, rfl, rfl, rfl⟩
  have hmem := @mem_stored_run counterOptions init _ hcounts (10 ^ 8 - 1)
    (by rw [List.length_map, List.length_range]; norm_num)
  exact absurd ((counterText_fits_iff _).mp (h _ hmem)) (by decide)

end Counter

end CollectedSources.LoopRw
