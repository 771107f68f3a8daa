import CollectedSources.Machine.Loop
import Mathlib

/-! # The loop of pcm_anal

The program reads half a second of samples at a time, looks for the highest sample
of the first channel and reports loud and quiet chunks. The bytes that it asks for and
the frames that it scans are rounded apart.
-/

namespace CollectedSources.PcmAnal

open Machine

section Code

/-- The options `-c` and `-r`. -/
structure Options where
  chans : UInt32
  rate : UInt32

def div : UInt32 := 2

def wmark : ℕ := 30000

/-- The number of values in `vals`. -/
def Options.words (o : Options) : ℕ := (o.chans * o.rate / div).toNat

/-- The number of bytes of one read. -/
def Options.toRead (o : Options) : ℕ := o.words * 2

/-- The number of values that are compared. -/
def Options.frames (o : Options) : ℕ := (o.rate / div).toNat

/-- The index `i * chans`. -/
def Options.index (o : Options) (i : ℕ) : ℕ := (UInt32.ofNat i * o.chans).toNat

/-- A 16-bit value of some bytes, with the low byte first; none is outside of them. -/
def value (bytes : List UInt8) (i : ℕ) : Option ℕ :=
  bytes[2 * i]?.bind fun lo => bytes[2 * i + 1]?.map fun hi => lo.toNat + 256 * hi.toNat

/-- The values that are compared with `max`, in order. -/
def Options.scan (o : Options) (vals : List UInt8) : Option (List ℕ) :=
  forEach (fun i => (value vals (o.index i)).map ([·])) (List.range o.frames)

def maximum (samples : List ℕ) : ℕ := samples.foldl (fun max v => if v > max then v else max) 0

/-- A number in at least as many characters as given. -/
def field (width : ℕ) (c : Char) (text : String) : String :=
  String.ofList (text.toList.leftpad width c)

/-- The line of a loud chunk. -/
def peak (totCount max : ℕ) : String :=
  let time := totCount / div.toNat
  field 3 ' ' (toString (time / 3600)) ++ ":" ++ field 2 '0' (toString (time / 60 % 60)) ++ ":" ++
    field 2 '0' (toString (time % 60)) ++ "." ++
    field 2 '0' (toString (time * 10000 % 2 ^ 64 % 100)) ++ " " ++
    field 6 ' ' (toString ((max : ℤ) - 0x8000)) ++ " " ++ field 5 ' ' (toString max) ++ " " ++
    String.ofList (List.replicate (max / (65535 / 150)) '-')

/-- The lines printed for a chunk. -/
def report (totCount max : ℕ) : List String :=
  (if max < 0x8000 then ["MAX " ++ toString max] else []) ++
    if ((max : ℤ) - 0x8000).natAbs > wmark then [peak totCount max] else []

inductive Status where
  | reading
  | returned
  | failed
  deriving DecidableEq

/-- The state between two rounds, with the values compared in each round. -/
structure State where
  status : Status
  totCount : ℕ
  lines : List String
  compared : List (List ℕ)

def State.init : State := ⟨.reading, 0, [], []⟩

def State.analyse (s : State) (samples : List ℕ) : State where
  status := .reading
  totCount := (s.totCount + 1) % 2 ^ 64
  lines := s.lines ++ report s.totCount (maximum samples)
  compared := s.compared ++ [samples]

/-- One round, with the result of its `read`; none is an access outside of `vals`. -/
def round (o : Options) (s : State) : Option (List UInt8) → Option State
  | none => some { s with status := .failed }
  | some vals =>
    if vals.length ≠ o.toRead then some { s with status := .returned }
    else (o.scan vals).map s.analyse

/-- The results of all calls of `read`. -/
abbrev Input := ℕ → Option (List UInt8)

/-- The state after some rounds. -/
def main (o : Options) (input : Input) : ℕ → Option State
  | 0 => some State.init
  | n + 1 => (main o input n).bind fun s =>
    if s.status = .reading then round o s (input n) else some s

end Code

section Rounds

variable {o : Options} {input : Input} {s s' : State} {n k : ℕ} {stream : List UInt8}

theorem main_succ (h : main o input n = some s) (hs : s.status = .reading) :
    main o input (n + 1) = round o s (input n) := by
  rw [main, h, Option.bind_some, if_pos hs]

/-- The accesses of one chunk are inside of it. -/
def Options.InBounds (o : Options) : Prop := ∀ i < o.frames, o.index i < o.words

instance (o : Options) : Decidable o.InBounds := inferInstanceAs (Decidable (∀ i < _, _))

theorem value_isSome_iff {vals : List UInt8} {i : ℕ} :
    (∃ v, value vals i = some v) ↔ 2 * i + 1 < vals.length := by
  unfold value
  constructor
  · rintro ⟨v, hv⟩
    obtain ⟨lo, -, hv⟩ := Option.bind_eq_some_iff.mp hv
    obtain ⟨hi, hhi, -⟩ := Option.map_eq_some_iff.mp hv
    exact (List.getElem?_eq_some_iff.mp hhi).1
  · intro h
    rw [List.getElem?_eq_getElem (by omega), List.getElem?_eq_getElem h]
    exact ⟨_, rfl⟩

theorem scan_isSome_iff {vals : List UInt8} (hvals : vals.length = o.toRead) :
    (∃ samples, o.scan vals = some samples) ↔ o.InBounds := by
  unfold Options.scan Options.InBounds
  rw [forEach_isSome_iff]
  simp only [List.mem_range, Option.map_eq_some_iff]
  refine forall₂_congr fun i _ => ?_
  have hvalue := @value_isSome_iff vals (o.index i)
  rw [hvals] at hvalue
  unfold Options.toRead at hvalue
  constructor
  · rintro ⟨es, v, hv, -⟩
    have := hvalue.mp ⟨v, hv⟩
    omega
  · intro h
    obtain ⟨v, hv⟩ := hvalue.mpr (by omega)
    exact ⟨[v], v, hv, rfl⟩

/-- A chunk of the stream. -/
def Options.chunk (o : Options) (stream : List UInt8) (k : ℕ) : List UInt8 :=
  (stream.drop (k * o.toRead)).take o.toRead

theorem length_chunk (hk : (k + 1) * o.toRead ≤ stream.length) :
    (o.chunk stream k).length = o.toRead := by
  unfold Options.chunk
  rw [Nat.add_mul] at hk
  rw [List.length_take, List.length_drop]
  omega

theorem main_of_chunks (hread : ∀ k < n, input k = some (o.chunk stream k))
    (hlength : ∀ k < n, (k + 1) * o.toRead ≤ stream.length) (hbounds : 0 < n → o.InBounds) :
    ∃ s, main o input n = some s ∧ s.status = .reading ∧
      s.compared.map some = (List.range n).map fun k => o.scan (o.chunk stream k) := by
  induction n with
  | zero => exact ⟨State.init, rfl, rfl, rfl⟩
  | succ n ih =>
    obtain ⟨s, hmain, hs, hcompared⟩ := ih (fun k hk => hread k (by omega))
      (fun k hk => hlength k (by omega)) (fun _ => hbounds (by omega))
    have hchunk := length_chunk (hlength n (by omega))
    obtain ⟨samples, hscan⟩ := (scan_isSome_iff hchunk).mpr (hbounds (by omega))
    refine ⟨s.analyse samples, ?_, rfl, ?_⟩
    · rw [main_succ hmain hs, hread n (by omega), round, if_neg (by simpa using hchunk), hscan]
      rfl
    · rw [List.range_succ, List.map_append, ← hcompared]
      simp [State.analyse, hscan]

end Rounds

section Frames

variable {o : Options} {stream : List UInt8} {k len : ℕ}

/-- A pipe that always has as much as is asked for, up to the end of the stream. -/
def fullReads (o : Options) (stream : List UInt8) : Input := fun k => some (o.chunk stream k)

/-- The values that are compared in a chunk. -/
def analysed (o : Options) (input : Input) (k : ℕ) : Option (List ℕ) :=
  (main o input (k + 1)).bind fun s => s.compared[k]?

/-- The sample of channel 0 in a frame. -/
def channelZero (o : Options) (stream : List UInt8) (frame : ℕ) : Option ℕ :=
  value stream (frame * o.chans.toNat)

/-- The values compared in each complete chunk are the samples of channel 0 of its frames. -/
def FollowsFrames (o : Options) (stream : List UInt8) : Prop :=
  ∀ k, (k + 1) * o.toRead ≤ stream.length →
    (analysed o (fullReads o stream) k).map (·.map some) =
      some ((List.range' (k * o.frames) o.frames).map (channelZero o stream))

theorem analysed_fullReads (hbounds : o.InBounds) (hk : (k + 1) * o.toRead ≤ stream.length) :
    analysed o (fullReads o stream) k = o.scan (o.chunk stream k) := by
  have hlength : ∀ j < k + 1, (j + 1) * o.toRead ≤ stream.length := fun j hj =>
    (Nat.mul_le_mul_right _ hj).trans hk
  obtain ⟨s, hmain, -, hcompared⟩ :=
    @main_of_chunks o (fullReads o stream) (k + 1) stream (fun _ _ => rfl) hlength
      (fun _ => hbounds)
  have hget := congrArg (·[k]?) hcompared
  simp only [List.getElem?_map, List.getElem?_range (Nat.lt_succ_self k), Option.map_some] at hget
  obtain ⟨samples, hsamples, hscan⟩ := Option.map_eq_some_iff.mp hget
  unfold analysed
  rw [hmain, Option.bind_some, hsamples, hscan]

theorem value_chunk {i : ℕ} (hi : i < o.words) :
    value (o.chunk stream k) i = value stream (k * o.words + i) := by
  have hlow : k * (o.words * 2) + 2 * i = 2 * (k * o.words + i) := by ring
  have hhigh : k * (o.words * 2) + (2 * i + 1) = 2 * (k * o.words + i) + 1 := by ring
  unfold value Options.chunk Options.toRead
  rw [List.getElem?_take_of_lt (by omega), List.getElem?_take_of_lt (by omega),
    List.getElem?_drop, List.getElem?_drop, hlow, hhigh]

theorem scan_chunk (hbounds : o.InBounds) (hk : (k + 1) * o.toRead ≤ stream.length) :
    (o.scan (o.chunk stream k)).map (·.map some) =
      some ((List.range o.frames).map fun i => value stream (k * o.words + o.index i)) := by
  have hsome : ∀ i ∈ List.range o.frames, ∃ v,
      value (o.chunk stream k) (o.index i) = some v := by
    intro i hi
    rw [value_isSome_iff, length_chunk hk]
    have := hbounds i (List.mem_range.mp hi)
    unfold Options.toRead
    omega
  have hscan : o.scan (o.chunk stream k) = some ((List.range o.frames).flatMap fun i =>
      [(value (o.chunk stream k) (o.index i)).getD 0]) := by
    refine forEach_eq_flatMap fun i hi => ?_
    obtain ⟨v, hv⟩ := hsome i hi
    rw [hv]
    rfl
  rw [hscan, Option.map_some, ← List.map_eq_flatMap, List.map_map]
  congr 1
  apply List.map_congr_left
  intro i hi
  obtain ⟨v, hv⟩ := hsome i hi
  rw [Function.comp_apply, ← value_chunk (hbounds i (List.mem_range.mp hi)), hv]
  rfl

theorem words_eq (hfit : o.chans.toNat * o.rate.toNat < 2 ^ 32) :
    o.words = o.frames * o.chans.toNat + o.rate.toNat % 2 * o.chans.toNat / 2 := by
  have hdiv : div.toNat = 2 := rfl
  have hrate := Nat.div_add_mod o.rate.toNat 2
  have hsplit : o.chans.toNat * o.rate.toNat =
      2 * (o.rate.toNat / 2 * o.chans.toNat) + o.rate.toNat % 2 * o.chans.toNat := by
    conv_lhs => rw [← hrate]
    ring
  unfold Options.words Options.frames
  rw [UInt32.toNat_div, UInt32.toNat_div, UInt32.toNat_mul, hdiv, Nat.mod_eq_of_lt hfit, hsplit]
  omega

theorem index_eq (hfit : o.chans.toNat * o.rate.toNat < 2 ^ 32) {i : ℕ} (hi : i < o.frames) :
    o.index i = i * o.chans.toNat := by
  have hrate : i ≤ o.rate.toNat := by
    unfold Options.frames at hi
    rw [UInt32.toNat_div] at hi
    exact hi.le.trans (Nat.div_le_self _ _)
  have hlt : i * o.chans.toNat < 2 ^ 32 := by
    rw [Nat.mul_comm]
    exact (Nat.mul_le_mul_left _ hrate).trans_lt hfit
  have hi32 : i < 2 ^ 32 := hrate.trans_lt o.rate.toNat_lt
  unfold Options.index
  rw [UInt32.toNat_mul, UInt32.toNat_ofNat_of_lt' hi32, Nat.mod_eq_of_lt hlt]

theorem inBounds_of_fit (hchans : 1 ≤ o.chans.toNat)
    (hfit : o.chans.toNat * o.rate.toNat < 2 ^ 32) : o.InBounds := by
  intro i hi
  rw [index_eq hfit hi, words_eq hfit]
  have : (i + 1) * o.chans.toNat ≤ o.frames * o.chans.toNat := Nat.mul_le_mul_right _ hi
  rw [Nat.add_mul] at this
  omega

/-- The first place where a chunk and its frames part. -/
def mark (len place : ℕ) : List UInt8 := (List.range len).map fun j => if j = place then 1 else 0

theorem length_mark (len place : ℕ) : (mark len place).length = len := by
  unfold mark
  rw [List.length_map, List.length_range]

theorem value_mark {len place i : ℕ} (hi : 2 * i + 1 < len) (hplace : place ≠ 2 * i + 1) :
    value (mark len place) i = some (if 2 * i = place then 1 else 0) := by
  unfold value mark
  rw [List.getElem?_map, List.getElem?_map, List.getElem?_range (by omega), List.getElem?_range hi]
  simp only [Option.map_some, Option.bind_some, if_neg hplace.symm]
  split <;> rfl

theorem followsFrames_iff_values (hchans : 1 ≤ o.chans.toNat)
    (hfit : o.chans.toNat * o.rate.toNat < 2 ^ 32) :
    FollowsFrames o stream ↔ ∀ k, (k + 1) * o.toRead ≤ stream.length → ∀ i < o.frames,
      value stream (k * o.words + i * o.chans.toNat) = channelZero o stream (k * o.frames + i) := by
  have hbounds := inBounds_of_fit hchans hfit
  refine forall₂_congr fun k hk => ?_
  rw [analysed_fullReads hbounds hk, scan_chunk hbounds hk, Option.some_inj,
    List.range'_eq_map_range, List.map_map, List.map_inj_left]
  simp only [List.mem_range, Function.comp_apply]
  refine forall₂_congr fun i hi => ?_
  rw [index_eq hfit hi]

/-- Chunks end at frames, unless the rate is odd and there are several channels. -/
theorem mul_words_eq (hfit : o.chans.toNat * o.rate.toNat < 2 ^ 32)
    (h : o.rate.toNat % 2 = 0 ∨ o.chans.toNat = 1 ∨ k = 0) :
    k * o.words = k * o.frames * o.chans.toNat := by
  have hwords := words_eq hfit
  rcases h with heven | hone | rfl
  · rw [hwords, heven, Nat.zero_mul, Nat.zero_div, Nat.add_zero, Nat.mul_assoc]
  · have hhalf : o.rate.toNat % 2 / 2 = 0 := by omega
    rw [hwords, hone, Nat.mul_one, Nat.mul_one, Nat.mul_one, hhalf, Nat.add_zero]
  · rw [Nat.zero_mul, Nat.zero_mul, Nat.zero_mul]

theorem not_followsFrames_mark (hrate : 2 ≤ o.rate.toNat)
    (hfit : o.chans.toNat * o.rate.toNat < 2 ^ 32) (hodd : o.rate.toNat % 2 = 1)
    (hchans : 2 ≤ o.chans.toNat) (hlen : 2 * o.toRead ≤ len) :
    ¬ FollowsFrames o (mark len (2 * o.words)) := by
  have hwords := words_eq hfit
  have hframes : 0 < o.frames := by
    have hdiv : div.toNat = 2 := rfl
    unfold Options.frames
    rw [UInt32.toNat_div, hdiv]
    omega
  rw [hodd, Nat.one_mul] at hwords
  rw [followsFrames_iff_values (by omega) hfit, length_mark]
  intro h
  have hfirst := h 1 (by omega) 0 hframes
  unfold Options.toRead at hlen
  unfold channelZero at hfirst
  rw [Nat.one_mul, Nat.zero_mul, Nat.one_mul, Nat.add_zero, Nat.add_zero,
    value_mark (by omega) (by omega), value_mark (by omega) (by omega), if_pos rfl,
    if_neg (by omega)] at hfirst
  exact absurd (Option.some.inj hfirst) one_ne_zero

/-- Every frame is looked at once, in every stream, exactly when chunks end at frames or there is
at most one. -/
theorem followsFrames_iff (hchans : 1 ≤ o.chans.toNat) (hrate : 2 ≤ o.rate.toNat)
    (hfit : o.chans.toNat * o.rate.toNat < 2 ^ 32) (len : ℕ) :
    (∀ stream, stream.length = len → FollowsFrames o stream) ↔
      o.rate.toNat % 2 = 0 ∨ o.chans.toNat = 1 ∨ len < 2 * o.toRead := by
  constructor
  · intro h
    by_contra hne
    simp only [not_or, Nat.not_lt] at hne
    obtain ⟨hodd, hmany, hlen⟩ := hne
    exact not_followsFrames_mark hrate hfit (by omega) (by omega) hlen (h _ (length_mark ..))
  · rintro hcond stream rfl
    rw [followsFrames_iff_values hchans hfit]
    intro k hk i hi
    have hplace : k * o.words = k * o.frames * o.chans.toNat := by
      refine mul_words_eq hfit (hcond.imp_right (Or.imp_right fun hshort => ?_))
      have := Nat.lt_of_mul_lt_mul_right (hk.trans_lt hshort)
      omega
    rw [hplace, channelZero, Nat.add_mul]

theorem followsFrames_stereo :
    FollowsFrames ⟨2, 4⟩ [1, 0, 2, 0, 3, 1, 4, 1, 5, 2, 6, 2, 7, 3, 8, 3] :=
  (@followsFrames_iff ⟨2, 4⟩ (by decide) (by decide) (by decide) 16).mpr (by decide) _ rfl

/-- Two channels at an odd rate: the second chunk starts at the second channel. -/
theorem stereoAtOddRate_drifts :
    ¬ FollowsFrames ⟨2, 3⟩ [0, 0, 1, 0, 2, 0, 3, 0, 4, 0, 5, 0] := by
  intro h
  exact absurd (h 1 (by decide)) (by decide)

end Frames

end CollectedSources.PcmAnal
