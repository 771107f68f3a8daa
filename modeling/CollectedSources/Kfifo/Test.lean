import CollectedSources.Machine.Process
import Mathlib

/-! # The test of kfifo devices

The writer sends the digits in a cycle, as many at a time as the device takes;
the reader warns of each digit that does not follow the one before it. The two
agree however the stream is cut into writes and reads.
-/

namespace CollectedSources.Kfifo

open Process

inductive Mask | pollin | pollout
  deriving DecidableEq, Repr

/-- What the two processes do to the device and print. -/
inductive Event
  | wrote (bytes : List UInt8)
  | ioctl (request : ℕ)
  | received (shown code expected : Int8) (offset chunk : UInt64)
  | tooManyErrors
  | pollFailed (mask : Mask)
  | noData (mask : Mask)
  | noMask (mask : Mask)
  | readFailed
  | nothingRead
  | writeFailed
  | nothingWritten
  | assertFailed
  deriving DecidableEq, Repr

def Event.isWarning : Event → Bool
  | .received .. => true
  | _ => false

/-- The outcome of `poll`. -/
inductive Poll | failed | timeout | other | ready
  deriving DecidableEq, Repr

def doPoll (mask : Mask) : Poll → List Event × Option Bool
  | .failed => ([.pollFailed mask], none)
  | .timeout => ([.noData mask], some false)
  | .other => ([.noMask mask], none)
  | .ready => ([], some true)

/-- The static variables of `dump`. -/
structure State where
  chunk : UInt64 := 0
  off : UInt64 := 0
  errors : ℕ := 0
  last : Int8 := 0
  deriving DecidableEq, Repr

def isprint (c : Int8) : Bool := 32 ≤ c ∧ c ≤ 126

/-- The end of the loop body of `dump`. -/
def State.advance (s : State) : State := { s with last := (s.last + 1) % 10, off := s.off + 1 }

/-- The loop body of `dump`. -/
def dumpByte (s : State) (byte : UInt8) : List Event × Option State :=
  let c := byte.toInt8
  if c.toInt - 48 ≠ s.last.toInt then
    let events := [.received (if isprint c then c else 32) c (s.last + 48) s.off s.chunk,
      .ioctl 0xdea1]
    if s.errors > 2 then (events ++ [.tooManyErrors], none)
    else (events, some { s with last := c - 48, errors := s.errors + 1 }.advance)
  else ([], some s.advance)

def dump (s : State) (buf : List UInt8) : List Event × Option State :=
  andThen (run dumpByte s buf) fun s => ([], some { s with chunk := s.chunk + 1 })

/-- The outcome of `poll` and of `read`, which fails or returns some bytes. -/
structure Read where
  poll : Poll
  data : Option (List UInt8)
  deriving DecidableEq, Repr

/-- The loop body of `do_read`. -/
def doReadStep (s : State) (input : Read) : List Event × Option State :=
  andThen (doPoll .pollin input.poll) fun ready =>
    if !ready then ([], none)
    else match input.data with
      | none => ([.readFailed], none)
      | some [] => ([.nothingRead], none)
      | some buf => dump s buf

def doRead (inputs : List Read) : List Event × Option State := run doReadStep {} inputs

/-- `roundup` in the arithmetic of `unsigned int`. -/
def roundup (x y : ℕ) : ℕ := (x + (y - 1)) % 2 ^ 32 / y * y % 2 ^ 32

def prefill (size : ℕ) : List UInt8 := (List.range size).map fun a => UInt8.ofNat (48 + a % 10)

/-- The outcome of `poll`, of `write`, which fails or takes what fits the room, and of `rand`. -/
structure Write where
  poll : Poll
  room : Option ℕ
  rand : ℕ
  deriving DecidableEq, Repr

/-- The loop body of `do_write` with something to write. -/
def writeFrom (size off : ℕ) (input : Write) : List Event × Option ℕ :=
  let cnt := (size - off) % 2 ^ 32
  andThen (doPoll .pollout input.poll) fun ready =>
    if !ready then ([], none)
    else match input.room with
      | none => ([.writeFailed], none)
      | some room =>
        let wr := min room cnt
        if wr = 0 then ([.nothingWritten], none)
        else
          let mark := if input.rand % 10000 = 0 then [.ioctl 0x1234] else []
          (.wrote (((prefill size).drop off).take wr) :: mark, some ((off + wr) % 2 ^ 32))

/-- The loop of `do_write` up to the next write: at the end of the buffer, which is not empty, it
starts over. -/
def doWriteStep (size off : ℕ) (input : Write) : List Event × Option ℕ :=
  if (size - off) % 2 ^ 32 = 0 then writeFrom size 0 input else writeFrom size off input

def doWrite (fifoSize : ℕ) (inputs : List Write) : List Event × Option ℕ :=
  let size := roundup fifoSize 10
  if (prefill size).getLast? = some 57 then run (doWriteStep size) 0 inputs
  else ([.assertFailed], none)

/-- The bytes that the device takes. -/
def written (events : List Event) : List UInt8 :=
  events.flatMap fun
    | .wrote bytes => bytes
    | _ => []

/-- The bytes that the device delivers, up to the read that ends the loop. -/
def delivered : List Read → List UInt8
  | ⟨.ready, some (byte :: bytes)⟩ :: inputs => byte :: bytes ++ delivered inputs
  | _ => []

def warnings (events : List Event) : ℕ := events.countP Event.isWarning

def digit (d : Fin 10) : UInt8 := UInt8.ofNat (48 + d)

/-- The positions whose digit is not the successor of the previous one, with `e` expected first. -/
def mismatchesFrom (e : Fin 10) (ds : List (Fin 10)) : ℕ :=
  (ds.zip (e :: ds.map (· + 1))).countP fun p => p.1 ≠ p.2

def mismatches (ds : List (Fin 10)) : ℕ := mismatchesFrom 0 ds

/-- The digit expected after a stream. -/
def expectedAfter (e : Fin 10) (ds : List (Fin 10)) : Fin 10 := ds.foldl (fun _ d => d + 1) e

theorem mismatchesFrom_cons (e d : Fin 10) (ds : List (Fin 10)) :
    mismatchesFrom e (d :: ds) = (if d = e then 0 else 1) + mismatchesFrom (d + 1) ds := by
  simp only [mismatchesFrom, List.map_cons, List.zip_cons_cons, List.countP_cons]
  by_cases h : d = e <;> simp [h, Nat.add_comm]

theorem mismatchesFrom_append (e : Fin 10) (ds ds' : List (Fin 10)) :
    mismatchesFrom e (ds ++ ds') =
      mismatchesFrom e ds + mismatchesFrom (expectedAfter e ds) ds' := by
  induction ds generalizing e with
  | nil => simp [mismatchesFrom, expectedAfter]
  | cons d ds ih =>
    rw [List.cons_append, mismatchesFrom_cons, mismatchesFrom_cons, ih, Nat.add_assoc]
    rfl

section Reader

/-- The reader has seen `k` mismatches and expects the digit `e`. -/
structure State.Expects (s : State) (k : ℕ) (e : Fin 10) : Prop where
  errors : s.errors = k
  last : s.last = Int8.ofNat e

/-- From `k` mismatches the reader has met `n` more and expects `e` next, or has given up. -/
structure Warns (r : List Event × Option State) (k n : ℕ) (e : Fin 10) : Prop where
  count : warnings r.1 = min (4 - k) n
  goes : k + n < 4 → ∃ s, r.2 = some s ∧ s.Expects (k + n) e
  ends : 4 ≤ k + n → r.2 = none

variable {s : State} {k n m : ℕ} {e e' : Fin 10}

theorem warnings_append (events events' : List Event) :
    warnings (events ++ events') = warnings events + warnings events' :=
  List.countP_append

variable {r : List Event × Option State} {next : State → List Event × Option State}

theorem Warns.warnings_andThen (h : Warns r k n e)
    (hnext : ∀ s, k + n < 4 → s.Expects (k + n) e →
      warnings (next s).1 = min (4 - (k + n)) m) :
    warnings (andThen r next).1 = min (4 - k) (n + m) := by
  obtain ⟨events, s⟩ := r
  rcases Nat.lt_or_ge (k + n) 4 with hlt | hge
  · obtain ⟨s, rfl, hs⟩ := h.goes hlt
    rw [andThen_some, warnings_append, h.count, hnext s hlt hs]
    omega
  · obtain rfl : s = none := h.ends hge
    rw [andThen_none, h.count]
    omega

theorem Warns.andThen (h : Warns r k n e)
    (hnext : ∀ s, k + n < 4 → s.Expects (k + n) e → Warns (next s) (k + n) m e') :
    Warns (andThen r next) k (n + m) e' := by
  refine ⟨h.warnings_andThen fun s hlt hs => (hnext s hlt hs).count, fun hlt => ?_, fun hge => ?_⟩
  · obtain ⟨events, s⟩ := r
    obtain ⟨s, rfl, hs⟩ := h.goes (by omega)
    obtain ⟨s', hs', he⟩ := (hnext s (by omega) hs).goes (by omega)
    exact ⟨s', hs', by rwa [Nat.add_assoc] at he⟩
  · obtain ⟨events, s⟩ := r
    rcases Nat.lt_or_ge (k + n) 4 with hlt | hge'
    · obtain ⟨s, rfl, hs⟩ := h.goes hlt
      exact (hnext s hlt hs).ends (by omega)
    · obtain rfl : s = none := h.ends hge'
      rfl

theorem digit_toInt (d : Fin 10) : (digit d).toInt8.toInt - 48 = d := by
  revert d
  decide

theorem toInt_ofNat_fin (e : Fin 10) : (Int8.ofNat e).toInt = e := by
  revert e
  decide

theorem digit_sub (d : Fin 10) : (digit d).toInt8 - 48 = Int8.ofNat d := by
  revert d
  decide

theorem succ_mod (d : Fin 10) : (Int8.ofNat d + 1) % 10 = Int8.ofNat (d + 1 : Fin 10) := by
  revert d
  decide

theorem warns_advance (hk : k < 4) {d : Fin 10} (hs : s.Expects k d) (events : List Event)
    (hn : warnings events = 0) : Warns (events, some s.advance) k 0 (d + 1) := by
  refine ⟨by simpa using hn, fun _ => ⟨_, rfl, hs.errors, ?_⟩, by omega⟩
  simp only [State.advance, hs.last, succ_mod]

theorem warns_dumpByte (hk : k < 4) (hs : s.Expects k e) (d : Fin 10) :
    Warns (dumpByte s (digit d)) k (if d = e then 0 else 1) (d + 1) := by
  have hc : (digit d).toInt8.toInt - 48 ≠ s.last.toInt ↔ d ≠ e := by
    rw [digit_toInt, hs.last, toInt_ofNat_fin]
    simp only [ne_eq, Fin.ext_iff, Int.natCast_inj]
  simp only [dumpByte, hc, digit_sub]
  by_cases hde : d = e
  · subst hde
    simpa using warns_advance hk hs [] rfl
  · rw [if_pos hde, if_neg hde]
    by_cases hk3 : s.errors > 2
    · have := hs.errors
      rw [if_pos hk3]
      refine ⟨?_, by omega, fun _ => rfl⟩
      have : 4 - k = 1 := by omega
      rw [this]
      rfl
    · have := hs.errors
      rw [if_neg hk3]
      refine ⟨?_, fun _ => ⟨_, rfl, ?_, ?_⟩, by omega⟩
      · have : min (4 - k) 1 = 1 := by omega
        rw [this]
        rfl
      · simp [State.advance, hs.errors]
      · simp only [State.advance, succ_mod]

theorem warns_run (hk : k < 4) (hs : s.Expects k e) (ds : List (Fin 10)) :
    Warns (run dumpByte s (ds.map digit)) k (mismatchesFrom e ds) (expectedAfter e ds) := by
  induction ds generalizing s k e with
  | nil => exact ⟨by simp [warnings, mismatchesFrom], fun _ => ⟨s, rfl, hs⟩, by
      simp only [mismatchesFrom, List.zip_nil_left, List.countP_nil]; omega⟩
  | cons d ds ih =>
    rw [mismatchesFrom_cons]
    exact (warns_dumpByte hk hs d).andThen fun s hk hs => ih hk hs

theorem warns_dump (hk : k < 4) (hs : s.Expects k e) (ds : List (Fin 10)) :
    Warns (dump s (ds.map digit)) k (mismatchesFrom e ds) (expectedAfter e ds) := by
  refine (warns_run hk hs ds).andThen (m := 0) fun s hk hs => ⟨?_, fun _ => ?_, ?_⟩
  · simp [warnings]
  · exact ⟨_, rfl, hs.errors, hs.last⟩
  · omega

theorem doReadStep_cases (s : State) (input : Read) :
    (∃ byte bytes, input = ⟨.ready, some (byte :: bytes)⟩) ∨
      (∀ inputs, delivered (input :: inputs) = []) ∧
        ∃ events, doReadStep s input = (events, none) ∧ warnings events = 0 := by
  rcases input with ⟨_ | _ | _ | _, _ | _ | ⟨byte, bytes⟩⟩
  case ready.some.cons => exact Or.inl ⟨byte, bytes, rfl⟩
  all_goals exact Or.inr ⟨fun _ => rfl, _, rfl, rfl⟩

theorem warnings_run_doReadStep (hk : k < 4) (hs : s.Expects k e) {inputs : List Read}
    {ds : List (Fin 10)} (h : delivered inputs = ds.map digit) :
    warnings (run doReadStep s inputs).1 = min (4 - k) (mismatchesFrom e ds) := by
  induction inputs generalizing s k e ds with
  | nil =>
    obtain rfl : ds = [] := by simpa [delivered] using h.symm
    simp [warnings, mismatchesFrom]
  | cons input inputs ih =>
    rw [run_cons]
    rcases doReadStep_cases s input with ⟨byte, bytes, rfl⟩ | ⟨hd, events, hr, hn⟩
    · obtain ⟨ds₁, ds₂, rfl, h₁, h₂⟩ := List.map_eq_append_iff.mp h.symm
      have hstep : Warns (doReadStep s ⟨.ready, some (byte :: bytes)⟩) k (mismatchesFrom e ds₁)
          (expectedAfter e ds₁) := by
        have hd := warns_dump hk hs ds₁
        rw [h₁] at hd
        exact hd
      rw [mismatchesFrom_append]
      exact hstep.warnings_andThen fun s hk hs => ih hk hs h₂.symm
    · obtain rfl : ds = [] := by simpa [hd] using h.symm
      simp [hr, hn, mismatchesFrom]

end Reader

section Writer

/-- The digits of the numbers from `start` on. -/
def cyclic (start n : ℕ) : List (Fin 10) := (List.range' start n).map (Fin.ofNat 10)

theorem cyclic_append (start m n : ℕ) :
    cyclic start m ++ cyclic (start + m) n = cyclic start (m + n) := by
  rw [cyclic, cyclic, ← List.map_append, List.range'_append_1, cyclic]

theorem cyclic_congr {start start' : ℕ} (h : start % 10 = start' % 10) (n : ℕ) :
    cyclic start n = cyclic start' n := by
  induction n generalizing start start' with
  | zero => rfl
  | succ n ih =>
    simp only [cyclic, List.range'_succ, List.map_cons, List.cons.injEq] at ih ⊢
    exact ⟨Fin.ext h, ih (by omega)⟩

theorem take_cyclic (start : ℕ) {m n : ℕ} (h : m ≤ n) :
    (cyclic start n).take m = cyclic start m := by
  rw [cyclic, ← List.map_take, List.take_range'_of_length_ge h, cyclic]

theorem drop_cyclic (start m n : ℕ) : (cyclic start n).drop m = cyclic (start + m) (n - m) := by
  rw [cyclic, ← List.map_drop, List.drop_range', Nat.mul_one, cyclic]

theorem mismatchesFrom_cyclic (start n : ℕ) :
    mismatchesFrom (Fin.ofNat 10 start) (cyclic start n) = 0 := by
  induction n generalizing start with
  | zero => rfl
  | succ n ih =>
    have hs : Fin.ofNat 10 start + 1 = Fin.ofNat 10 (start + 1) := by
      apply Fin.ext
      simp [Fin.val_add]
    rw [cyclic, List.range'_succ, List.map_cons, mismatchesFrom_cons, if_pos rfl, hs]
    simpa [cyclic] using ih (start + 1)

theorem prefill_eq (size : ℕ) : prefill size = (cyclic 0 size).map digit := by
  rw [prefill, cyclic, List.map_map, List.range_eq_range']
  rfl

theorem take_drop_prefill {size off n : ℕ} (h : off + n ≤ size) :
    ((prefill size).drop off).take n = (cyclic off n).map digit := by
  rw [prefill_eq, ← List.map_drop, ← List.map_take, drop_cyclic, take_cyclic _ (by omega),
    Nat.zero_add]

theorem getLast_prefill {size : ℕ} (h : size % 10 = 0) (hpos : 0 < size) :
    (prefill size).getLast? = some 57 := by
  obtain ⟨n, rfl⟩ := Nat.exists_eq_add_of_lt hpos
  have hn : (0 + n) % 10 = 9 := by omega
  rw [prefill, List.range_succ, List.map_append, List.map_cons, hn, List.map_nil,
    List.getLast?_concat]
  rfl

theorem roundup_spec {x : ℕ} (h : 1 ≤ x) (hx : x < 2 ^ 31) :
    roundup x 10 % 10 = 0 ∧ 0 < roundup x 10 ∧ roundup x 10 < 2 ^ 32 := by
  have hr : roundup x 10 = (x + 9) / 10 * 10 := by
    rw [roundup, Nat.mod_eq_of_lt (by omega), Nat.mod_eq_of_lt (by omega)]
  omega

theorem writeFrom_cases {size off : ℕ} (hlt : size < 2 ^ 32) (hoff : off ≤ size)
    (input : Write) :
    (∃ events n, writeFrom size off input = (events, some (off + n)) ∧
      written events = (cyclic off n).map digit ∧ off + n ≤ size) ∨
      ∃ events, writeFrom size off input = (events, none) ∧ written events = [] := by
  rcases input with ⟨_ | _ | _ | _, _ | room, rand⟩
  case ready.some =>
    have hcnt : (size - off) % 2 ^ 32 = size - off := Nat.mod_eq_of_lt (by omega)
    simp only [writeFrom, doPoll, andThen_some, hcnt, Bool.not_true, Bool.false_eq_true, if_false,
      List.nil_append]
    split
    · exact Or.inr ⟨_, rfl, rfl⟩
    · have hle : off + min room (size - off) ≤ size := by omega
      rw [Nat.mod_eq_of_lt (Nat.lt_of_le_of_lt hle hlt), take_drop_prefill hle]
      refine Or.inl ⟨_, _, rfl, ?_, hle⟩
      split <;> simp [written]
  all_goals exact Or.inr ⟨_, rfl, rfl⟩

theorem doWriteStep_cases {size off : ℕ} (hsize : size % 10 = 0) (hlt : size < 2 ^ 32)
    (hoff : off ≤ size) (input : Write) :
    (∃ events off' n, doWriteStep size off input = (events, some off') ∧
      written events = (cyclic off n).map digit ∧ off' ≤ size ∧ off' % 10 = (off + n) % 10) ∨
      ∃ events, doWriteStep size off input = (events, none) ∧ written events = [] := by
  have hcnt : (size - off) % 2 ^ 32 = size - off := Nat.mod_eq_of_lt (by omega)
  rw [doWriteStep, hcnt]
  by_cases hend : size - off = 0
  · rw [if_pos hend]
    rcases writeFrom_cases hlt (Nat.zero_le size) input with ⟨events, n, hr, hw, hle⟩ | h
    · have hmod : 0 % 10 = off % 10 := by omega
      exact Or.inl ⟨events, _, n, hr, by rw [hw, cyclic_congr hmod], hle, by omega⟩
    · exact Or.inr h
  · rw [if_neg hend]
    rcases writeFrom_cases hlt hoff input with ⟨events, n, hr, hw, hle⟩ | h
    · exact Or.inl ⟨events, _, n, hr, hw, hle, rfl⟩
    · exact Or.inr h

theorem written_run {size off : ℕ} (hsize : size % 10 = 0) (hlt : size < 2 ^ 32)
    (hoff : off ≤ size) (inputs : List Write) :
    ∃ n, written (run (doWriteStep size) off inputs).1 = (cyclic off n).map digit := by
  induction inputs generalizing off with
  | nil => exact ⟨0, rfl⟩
  | cons input inputs ih =>
    rw [run_cons]
    rcases doWriteStep_cases hsize hlt hoff input with
      ⟨events, off', n, hr, hw, hoff', hmod⟩ | ⟨events, hr, hw⟩
    · obtain ⟨m, hm⟩ := ih hoff'
      refine ⟨n + m, ?_⟩
      rw [hr, andThen_some, written, List.flatMap_append, ← written, ← written, hw, hm,
        cyclic_congr hmod, ← List.map_append, cyclic_append]
    · refine ⟨0, ?_⟩
      rw [hr, andThen_none, hw]
      rfl

theorem written_doWrite {fifoSize : ℕ} (h : 1 ≤ fifoSize) (hlt : fifoSize < 2 ^ 31)
    (inputs : List Write) :
    ∃ n, written (doWrite fifoSize inputs).1 = (cyclic 0 n).map digit := by
  obtain ⟨hmod, hpos, hsize⟩ := roundup_spec h hlt
  simp only [doWrite, getLast_prefill hmod hpos, if_true]
  exact written_run hmod hsize (Nat.zero_le _) inputs

end Writer

/-- Whatever the writes and reads, the reader does not warn of what the writer has sent; of any
other digits it warns once for each mismatch, at most four times. -/
theorem dump_agrees :
    (∀ fifoSize, 1 ≤ fifoSize → fifoSize < 2 ^ 31 → ∀ writes reads,
      delivered reads <+: written (doWrite fifoSize writes).1 →
      warnings (doRead reads).1 = 0) ∧
    ∀ reads ds, delivered reads = ds.map digit →
      warnings (doRead reads).1 = min 4 (mismatches ds) := by
  have hcount : ∀ reads ds, delivered reads = ds.map digit →
      warnings (doRead reads).1 = min 4 (mismatches ds) := fun _ _ h =>
    warnings_run_doReadStep (k := 0) (by decide) ⟨rfl, rfl⟩ h
  refine ⟨fun fifoSize h hlt writes reads hpre => ?_, hcount⟩
  obtain ⟨n, hn⟩ := written_doWrite h hlt writes
  have hlen : (delivered reads).length ≤ n := by
    simpa [hn, cyclic] using hpre.length_le
  have hd : delivered reads = (cyclic 0 (delivered reads).length).map digit := by
    rw [← take_cyclic 0 hlen, List.map_take, ← hn]
    exact List.prefix_iff_eq_take.mp hpre
  have hz : mismatches (cyclic 0 (delivered reads).length) = 0 := mismatchesFrom_cyclic 0 _
  rw [hcount reads _ hd, hz]
  rfl

def sampleWrites : List Write := [⟨.ready, some 7, 1⟩, ⟨.ready, some 40, 0⟩, ⟨.ready, some 5, 3⟩]

def sampleReads : List Read :=
  [⟨.ready, some [48, 49]⟩, ⟨.ready, some [50, 51, 52, 53, 54, 55, 56, 57, 48, 49]⟩,
    ⟨.timeout, none⟩]

/-- A buffer of 20 digits sent in three writes, and a stream of digits with two mismatches. -/
theorem dump_agrees_at :
    written (doWrite 16 sampleWrites).1 = (cyclic 0 25).map digit ∧
      warnings (doRead sampleReads).1 = 0 ∧
      warnings (doRead [⟨.ready, some [48, 50]⟩, ⟨.ready, some [51, 49]⟩]).1 = 2 :=
  ⟨by decide, dump_agrees.1 16 (by decide) (by decide) sampleWrites sampleReads (by decide),
    dump_agrees.2 _ [0, 2, 3, 1] (by decide)⟩

end CollectedSources.Kfifo
