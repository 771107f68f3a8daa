import CollectedSources.Lgap.Frames
import CollectedSources.Machine.Process
import CollectedSources.Machine.Run

/-! # The rounds of the air conditioner tool

The tool asks for the state in up to ten rounds. The first response it accepts
is turned into a command with the requested settings, which is sent until the
next accepted response. Responses are accepted by the checksum of the buffer,
which need not have been received as a whole.
-/

namespace CollectedSources.Lgap

open Process

/-- The options found by `getopt`, with the values of their arguments. -/
inductive Opt
  | off
  | on
  | fan (arg : ℤ)
  | mode (arg : ℤ)
  | plasma (arg : ℤ)
  | swing (arg : ℤ)
  | temp (arg : ℤ)
  | other
  deriving DecidableEq, Repr

/-- The variables of the options, `-1` where nothing is requested. -/
structure Options where
  onoff : Int8 := -1
  fan : Int8 := -1
  mode : Int8 := -1
  plasma : Int8 := -1
  swing : Int8 := -1
  temp : Int8 := -1
  set : Bool := false
  deriving DecidableEq, Repr

/-- The switch of the option loop; it ends the program at an unknown option. -/
def Options.parse (o : Options) : Opt → Option Options
  | .off => some { o with onoff := 0, set := true }
  | .on => some { o with onoff := 1, set := true }
  | .fan arg =>
    let fan := Int8.ofInt arg
    some (if fan < 1 ∨ fan > 6 then { o with fan := -1 } else { o with fan, set := true })
  | .mode arg =>
    let mode := Int8.ofInt arg
    some (if mode < 0 ∨ mode > 4 then { o with mode := -1 } else { o with mode, set := true })
  | .plasma arg => some { o with plasma := if arg ≠ 0 then 1 else 0, set := true }
  | .swing arg => some { o with swing := if arg ≠ 0 then 1 else 0, set := true }
  | .temp arg => some { o with temp := Int8.ofInt (cToTemp (BitVec.ofInt 8 arg)), set := true }
  | .other => none

def parseOptions (args : List Opt) : Option Options := Machine.run Options.parse {} args

/-- `opt >= 0 ? opt : value`, stored in a bit-field. -/
def choose {v : ℕ} (w : ℕ) (opt : Int8) (value : BitVec v) : BitVec w :=
  BitVec.ofInt w (if opt ≥ 0 then opt.toInt else value.toNat)

/-- The command made of the options and of a response. -/
def Query.command (q : Query) (o : Options) (r : Response) : Query :=
  { q with
    fanSpeed := choose 3 o.fan r.fanSpeed
    mode := choose 3 o.mode r.mode
    on := choose 1 o.onoff r.on
    plasma := choose 1 o.plasma r.plasma
    autoSwing := choose 1 o.swing r.autoSwing
    temp := choose 5 o.temp r.temp
    exe := 1 }.sum

/-- The outcome of `read`: an error, or `n` bytes, the first of `bytes`. -/
inductive Read
  | error
  | data (n : Fin 25) (bytes : Response)

/-- The return value of `read`. -/
def Read.rd : Read → ℤ
  | .error => -1
  | .data n _ => n

/-- The buffer after `read`. -/
def Read.overlay : Read → Response → Response
  | .error, r => r
  | .data n bytes, r => fun i => if i < n.val then bytes i else r i

/-- `rd < sizeof(sizeof(resp))`, a comparison of unsigned numbers. -/
def Read.Ends (read : Read) : Prop := read.rd % 2 ^ 64 < 8

instance (read : Read) : Decidable read.Ends := inferInstanceAs (Decidable (_ < _))

inductive Event
  | exe
  | write (query : Query)
  | received (bytes : List Byte)
  | badChecksum
  | status (status : Status)
  deriving DecidableEq, Repr

structure State where
  query : Query
  resp : Response
  set : Bool

/-- What an accepted response changes. -/
def State.accept (s : State) (o : Options) : State :=
  if s.set then { s with query := s.query.command o s.resp, set := false }
  else if s.query.exe = 1 then { s with query := { s.query with exe := 0 }.sum }
  else s

/-- What a round writes and prints up to the checks of the response. -/
def State.exchange (s : State) (read : Read) : List Event :=
  (if s.query.exe = 1 then [.exe] else []) ++ [.write s.query] ++
    if read.rd > 0 then [.received ((List.ofFn (read.overlay s.resp)).take read.rd.toNat)] else []

/-- The loop body of `main`. -/
def round (o : Options) (s : State) (read : Read) : List Event × Option State :=
  let resp := read.overlay s.resp
  if read.Ends then (s.exchange read, none)
  else if computeChecksum resp.payload ≠ resp.checksum then
    (s.exchange read ++ [.badChecksum], some { s with resp })
  else (s.exchange read ++ [.status resp.status], some ({ s with resp }.accept o))

/-- The state before the first round. -/
def start (o : Options) (unit : Byte) : State where
  query := Query.sum
    { query := 1, a0 := 0xa0, group := (unit >>> 4).setWidth 4, unit := unit.setWidth 4 }
  resp := fun _ => 0
  set := o.set

/-- What `main` does behind the options. -/
def main (o : Options) (unit : Byte) (reads : List Read) : List Event × Option State :=
  run (round o) (start o unit) (reads.take 10)

def frames (events : List Event) : List Query :=
  events.filterMap fun
    | .write query => some query
    | _ => none

/-- The rounds that accept a response, before a read that ends the loop. -/
def accepted : Response → List Read → ℕ
  | _, [] => 0
  | r, read :: reads =>
    if read.Ends then 0
    else (if (read.overlay r).Valid then 1 else 0) + accepted (read.overlay r) reads

section Protocol

variable {o : Options} {s : State} {read : Read} {n : ℕ}

theorem frames_append (events events' : List Event) :
    frames (events ++ events') = frames events ++ frames events' :=
  List.filterMap_append

theorem frames_exchange (s : State) (read : Read) : frames (s.exchange read) = [s.query] := by
  rw [State.exchange, frames_append, frames_append]
  split <;> split <;> rfl

theorem round_cases (o : Options) (s : State) (read : Read) :
    ∃ events, frames events = [s.query] ∧
      ((read.Ends ∧ round o s read = (events, none)) ∨
        (¬ read.Ends ∧ ¬ (read.overlay s.resp).Valid ∧
          round o s read = (events, some { s with resp := read.overlay s.resp })) ∨
        (¬ read.Ends ∧ (read.overlay s.resp).Valid ∧
          round o s read = (events, some ({ s with resp := read.overlay s.resp }.accept o)))) := by
  unfold round
  by_cases hends : read.Ends
  · exact ⟨_, frames_exchange s read, Or.inl ⟨hends, if_pos hends⟩⟩
  rw [if_neg hends]
  by_cases hv : (read.overlay s.resp).Valid
  · refine ⟨_, ?_, Or.inr (Or.inr ⟨hends, hv, if_neg (not_not.mpr hv)⟩)⟩
    rw [frames_append, frames_exchange]
    rfl
  · refine ⟨_, ?_, Or.inr (Or.inl ⟨hends, hv, if_pos hv⟩)⟩
    rw [frames_append, frames_exchange]
    rfl

theorem frames_run_none {events : List Event} (hf : frames events = [s.query])
    (h : round o s read = (events, none)) (reads : List Read) :
    frames (run (round o) s (read :: reads)).1 = [s.query] := by
  rw [run_cons, h, andThen_none, hf]

theorem frames_run_some {s' : State} {events : List Event} (hf : frames events = [s.query])
    (h : round o s read = (events, some s')) (reads : List Read) :
    frames (run (round o) s (read :: reads)).1 =
      s.query :: frames (run (round o) s' reads).1 := by
  rw [run_cons, h, andThen_some, frames_append, hf, List.singleton_append]

theorem frames_run_head (o : Options) (s : State) (read : Read) (reads : List Read) :
    (frames (run (round o) s (read :: reads)).1)[0]? = some s.query := by
  obtain ⟨events, hf, ⟨-, hr⟩ | ⟨-, -, hr⟩ | ⟨-, -, hr⟩⟩ := round_cases o s read
  · rw [frames_run_none hf hr]
    rfl
  · rw [frames_run_some hf hr]
    rfl
  · rw [frames_run_some hf hr]
    rfl

/-- The queries are right, and a command is pending or sent according to the number of
responses accepted. -/
structure State.Sound (s : State) (wanted : Bool) (n : ℕ) : Prop where
  wellFormed : s.query.WellFormed
  pending : s.set = true ↔ wanted = true ∧ n = 0
  sent : s.query.exe = 1 ↔ wanted = true ∧ n = 1

variable {wanted : Bool}

theorem sound_start (o : Options) (unit : Byte) : (start o unit).Sound o.set 0 where
  wellFormed := Query.Fixed.sum ⟨rfl, rfl, rfl, rfl, rfl, rfl, rfl, rfl⟩
  pending := by simp [start]
  sent := by simp [start, Query.sum]

theorem State.Sound.receive (h : s.Sound wanted n) (r : Response) :
    { s with resp := r }.Sound wanted n :=
  ⟨h.wellFormed, h.pending, h.sent⟩

@[simp] theorem resp_accept (s : State) (o : Options) : (s.accept o).resp = s.resp := by
  unfold State.accept
  split
  · rfl
  · split <;> rfl

theorem State.Sound.accept (h : s.Sound wanted n) (o : Options) :
    (s.accept o).Sound wanted (n + 1) := by
  obtain ⟨hw, hset, hexe⟩ := h
  unfold State.accept
  split
  case isTrue hs =>
    obtain ⟨rfl, rfl⟩ := hset.mp hs
    exact ⟨Query.Fixed.sum { hw.toFixed with }, by simp, by simp [Query.command, Query.sum]⟩
  case isFalse hs =>
    split
    case isTrue he =>
      obtain ⟨rfl, rfl⟩ := hexe.mp he
      exact ⟨Query.Fixed.sum { hw.toFixed with }, by simpa using hs, by simp [Query.sum]⟩
    case isFalse he =>
      rw [hset] at hs
      refine ⟨hw, by simp [hset, hs], ?_⟩
      simp only [he, false_iff]
      rintro ⟨hwanted, hn⟩
      exact hs ⟨hwanted, by omega⟩

/-- Every frame is right, and a command iff exactly one response has been accepted before it. -/
theorem frames_run (h : s.Sound wanted n) (reads : List Read) (i : ℕ) (q : Query)
    (hq : (frames (run (round o) s reads).1)[i]? = some q) :
    q.WellFormed ∧
      (q.exe = 1 ↔ wanted = true ∧ n + accepted s.resp (reads.take i) = 1) := by
  induction reads generalizing s n i with
  | nil => simp [frames] at hq
  | cons read reads ih =>
    cases i with
    | zero =>
      obtain rfl : s.query = q := by simpa [frames_run_head] using hq
      exact ⟨h.wellFormed, h.sent⟩
    | succ i =>
      obtain ⟨events, hf, ⟨-, hr⟩ | ⟨he, hv, hr⟩ | ⟨he, hv, hr⟩⟩ := round_cases o s read
      · simp [frames_run_none hf hr] at hq
      · rw [frames_run_some hf hr, List.getElem?_cons_succ] at hq
        have hi := ih (h.receive _) i hq
        simpa [accepted, he, hv] using hi
      · rw [frames_run_some hf hr, List.getElem?_cons_succ] at hq
        have hi := ih ((h.receive _).accept o) i hq
        simpa [accepted, he, hv, Nat.add_assoc] using hi

theorem length_frames_run_le (o : Options) (s : State) (reads : List Read) :
    (frames (run (round o) s reads).1).length ≤ reads.length := by
  induction reads generalizing s with
  | nil => simp [frames]
  | cons read reads ih =>
    obtain ⟨events, hf, ⟨-, hr⟩ | ⟨-, -, hr⟩ | ⟨-, -, hr⟩⟩ := round_cases o s read
    · simp [frames_run_none hf hr]
    · simpa [frames_run_some hf hr] using ih _
    · simpa [frames_run_some hf hr] using ih _

/-- Every frame is right; it carries a command iff an option is set and exactly one response has
been accepted before it. -/
theorem frames_main (o : Options) (unit : Byte) (reads : List Read) (i : ℕ) (q : Query)
    (hq : (frames (main o unit reads).1)[i]? = some q) :
    q.WellFormed ∧ (q.exe = 1 ↔ o.set = true ∧ accepted (fun _ => 0) (reads.take i) = 1) := by
  have hlt : i < 10 := by
    obtain ⟨hi, -⟩ := List.getElem?_eq_some_iff.mp hq
    have hle : _ ≤ (reads.take 10).length := length_frames_run_le o (start o unit) _
    rw [List.length_take] at hle
    unfold main at hi
    omega
  have h := frames_run (sound_start o unit) (reads.take 10) i q hq
  rw [Nat.zero_add, List.take_take, Nat.min_eq_left hlt.le] at h
  exact h

end Protocol

section Choice

/-- The value of an option variable, or one of the response if the variable is negative. -/
def requested (opt : Int8) (value : ℕ) : ℤ := if opt ≥ 0 then opt.toInt else value

theorem toInt_cToTemp_lt (temp : Byte) : (Int8.ofInt (cToTemp temp)).toInt < 2 ^ 5 := by
  have h : 0x03 ≤ cToTemp temp ∧ cToTemp temp ≤ 0x0f := by
    unfold cToTemp
    dsimp only
    split_ifs <;> omega
  rw [Int8.toInt_ofInt_of_le (by omega) (by omega)]
  omega

theorem toNat_choose {v w : ℕ} {opt : Int8} (hopt : opt.toInt < 2 ^ w) (hv : v ≤ w)
    (value : BitVec v) : (choose w opt value).toNat = requested opt value.toNat := by
  have hvalue : (value.toNat : ℤ) < 2 ^ w := by
    have := Nat.lt_of_lt_of_le value.isLt (Nat.pow_le_pow_right (by decide) hv)
    exact_mod_cast this
  have h : 0 ≤ requested opt value.toNat ∧ requested opt value.toNat < 2 ^ w := by
    unfold requested
    split
    · rename_i hge
      exact ⟨by rwa [ge_iff_le, Int8.le_iff_toInt_le] at hge, hopt⟩
    · exact ⟨by omega, hvalue⟩
  have hr : choose w opt value = BitVec.ofInt w (requested opt value.toNat) := rfl
  rw [hr, BitVec.toNat_ofInt]
  have : ((2 ^ w : ℕ) : ℤ) = 2 ^ w := by simp
  rw [this, Int.emod_eq_of_lt h.1 h.2, Int.toNat_of_nonneg h.1]

end Choice

section Sample

/-- A response of zeros with its checksum. -/
def sample : Response := fun i => if i.val = 22 then 0x55 else 0

/-- The first round receives some bytes of the response, the others fail. -/
def sampleReads (n : Fin 25) : List Read := .data n sample :: List.replicate 9 .error

theorem frames_main_sample :
    ∃ q, (frames (main { onoff := 1, set := true } 0 (sampleReads 24)).1)[1]? = some q ∧
      q.WellFormed ∧ q.exe = 1 := by
  refine ⟨_, rfl, ?_⟩
  obtain ⟨hw, he⟩ := frames_main { onoff := 1, set := true } 0 (sampleReads 24) 1 _ rfl
  exact ⟨hw, he.mpr ⟨rfl, by decide⟩⟩

end Sample

end CollectedSources.Lgap
