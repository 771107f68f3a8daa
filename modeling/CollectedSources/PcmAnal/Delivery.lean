import CollectedSources.PcmAnal.Main
import Mathlib

/-! # The reads of pcm_anal

A pipe may hand out a stream in smaller pieces than were asked for. The loop takes
such a piece for the end of the stream.
-/

namespace CollectedSources.PcmAnal

section Reads

variable {α : Type*} {reads : List (List α)} {k w : ℕ}

/-- A read that follows full reads only is the next chunk. -/
theorem getD_eq_chunk (hfull : ∀ j ≤ k, (reads.getD j []).length = w) :
    reads.getD k [] = (reads.flatten.drop (k * w)).take w := by
  induction k generalizing reads with
  | zero =>
    cases reads with
    | nil => simp
    | cons r reads =>
      have hr : r.length = w := hfull 0 le_rfl
      simp [← hr]
  | succ k ih =>
    cases reads with
    | nil => simp
    | cons r reads =>
      have hr : r.length = w := hfull 0 (Nat.zero_le _)
      have hdrop : (k + 1) * w = r.length + k * w := by
        rw [hr]
        ring
      rw [List.getD_cons_succ, ih fun j hj => hfull (j + 1) (by omega), List.flatten_cons, hdrop,
        List.drop_length_add_append]

theorem mul_le_length_flatten (hfull : ∀ j < k, (reads.getD j []).length = w) :
    k * w ≤ reads.flatten.length := by
  induction k generalizing reads with
  | zero => simp
  | succ k ih =>
    cases reads with
    | nil =>
      have hw : w = 0 := (hfull 0 (Nat.zero_lt_succ k)).symm
      simp [hw]
    | cons r reads =>
      have hr : r.length = w := hfull 0 (Nat.zero_lt_succ k)
      have htail := ih fun j hj => hfull (j + 1) (by omega)
      rw [List.flatten_cons, List.length_append, hr, Nat.add_mul, Nat.one_mul]
      omega

end Reads

variable {o : Options} {stream : List UInt8}

/-- The successful reads of a stream, before the end of file. -/
structure Delivery (o : Options) (stream : List UInt8) where
  reads : List (List UInt8)
  ne_nil : ∀ r ∈ reads, r ≠ []
  length_le : ∀ r ∈ reads, r.length ≤ o.toRead
  flatten : reads.flatten = stream

def Delivery.input (d : Delivery o stream) : Input := fun k => some (d.reads.getD k [])

/-- Every read that the stream can fill is full. -/
def Delivery.Filled (d : Delivery o stream) : Prop :=
  ∀ k, (k + 1) * o.toRead ≤ stream.length → (d.reads.getD k []).length = o.toRead

/-- The complete chunks of a stream among the first ones. -/
def completeChunks (o : Options) (stream : List UInt8) (n : ℕ) : List ℕ :=
  (List.range n).filter fun k => (k + 1) * o.toRead ≤ stream.length

/-- Every round analyses the next complete chunk, and nothing else is analysed. -/
def Covers (o : Options) (stream : List UInt8) (input : Input) : Prop :=
  ∀ n, ∃ s, main o input n = some s ∧
    s.compared.map some = (completeChunks o stream n).map fun k => o.scan (o.chunk stream k)

/-- Two deliveries of a stream make the same report, on all its complete chunks. -/
structure SameReport (d₁ d₂ : Delivery o stream) : Prop where
  covers₁ : Covers o stream d₁.input
  covers₂ : Covers o stream d₂.input
  lines : ∀ n, (main o d₁.input n).map State.lines = (main o d₂.input n).map State.lines

variable {input : Input} {s : State} {n k : ℕ}

section Lines

/-- The state is the one after analysing what was compared. -/
def Consistent (s : State) : Prop :=
  s.compared.foldl State.analyse State.init = { s with status := .reading }

theorem round_cases {rd : Option (List UInt8)} {s' : State} (h : round o s rd = some s') :
    (∃ status, status ≠ .reading ∧ s' = { s with status := status }) ∨
      ∃ vals samples, rd = some vals ∧ vals.length = o.toRead ∧ s' = s.analyse samples := by
  cases rd with
  | none => exact .inl ⟨.failed, by decide, (Option.some.inj h).symm⟩
  | some vals =>
    rw [round] at h
    split_ifs at h with hlength
    · exact .inl ⟨.returned, by decide, (Option.some.inj h).symm⟩
    · obtain ⟨samples, -, rfl⟩ := Option.map_eq_some_iff.mp h
      exact .inr ⟨vals, samples, rfl, not_not.mp hlength, rfl⟩

theorem main_succ_cases {s' : State} (h : main o input (n + 1) = some s') :
    ∃ s, main o input n = some s ∧ ((s'.compared = s.compared ∧ s'.lines = s.lines ∧
      s'.totCount = s.totCount ∧ s'.status ≠ .reading) ∨
      (∃ vals samples, s.status = .reading ∧ input n = some vals ∧ vals.length = o.toRead ∧
        s' = s.analyse samples)) := by
  obtain ⟨s, hs, h⟩ := Option.bind_eq_some_iff.mp h
  refine ⟨s, hs, ?_⟩
  split_ifs at h with hreading
  · rcases round_cases h with ⟨status, hstatus, rfl⟩ | ⟨vals, samples, hread, hlength, rfl⟩
    · exact .inl ⟨rfl, rfl, rfl, hstatus⟩
    · exact .inr ⟨vals, samples, hreading, hread, hlength, rfl⟩
  · obtain rfl := Option.some.inj h
    exact .inl ⟨rfl, rfl, rfl, hreading⟩

theorem main_consistent (h : main o input n = some s) : Consistent s := by
  induction n generalizing s with
  | zero =>
    obtain rfl := Option.some.inj h
    rfl
  | succ n ih =>
    obtain ⟨t, ht, hstep⟩ := main_succ_cases h
    have hconsistent := ih ht
    unfold Consistent at hconsistent ⊢
    rcases hstep with ⟨hcompared, hlines, hcount, -⟩ | ⟨-, samples, -, -, -, rfl⟩
    · rw [hcompared, hconsistent, hlines, hcount]
    · rw [State.analyse, List.foldl_append, hconsistent]
      rfl

theorem lines_eq {input' : Input} {s' : State} (h : main o input n = some s)
    (h' : main o input' n = some s') (hcompared : s.compared = s'.compared) :
    s.lines = s'.lines := by
  have hs := main_consistent h
  have hs' := main_consistent h'
  unfold Consistent at hs hs'
  rw [hcompared, hs'] at hs
  exact (congrArg State.lines hs).symm

/-- One chunk is analysed in a round, and only after full reads. -/
theorem length_compared (h : main o input n = some s) : s.compared.length ≤ n ∧
    (s.compared.length = n → ∀ k < n, ∃ vals, input k = some vals ∧ vals.length = o.toRead) := by
  induction n generalizing s with
  | zero =>
    obtain rfl := Option.some.inj h
    exact ⟨le_rfl, fun _ k hk => absurd hk (Nat.not_lt_zero k)⟩
  | succ n ih =>
    obtain ⟨t, ht, hstep⟩ := main_succ_cases h
    obtain ⟨hle, hfull⟩ := ih ht
    rcases hstep with ⟨hcompared, -⟩ | ⟨vals, samples, -, hread, hlength, rfl⟩
    · rw [hcompared]
      exact ⟨by omega, fun heq => absurd heq (by omega)⟩
    · have hlength' : (t.analyse samples).compared.length = t.compared.length + 1 := by
        simp [State.analyse]
      rw [hlength']
      refine ⟨by omega, fun heq k hk => ?_⟩
      rcases Nat.lt_succ_iff_lt_or_eq.mp hk with hk | rfl
      · exact hfull (by omega) k hk
      · exact ⟨vals, hread, hlength⟩

end Lines

section Cover

theorem complete_mono {j : ℕ} (hjk : j ≤ k) (hk : (k + 1) * o.toRead ≤ stream.length) :
    (j + 1) * o.toRead ≤ stream.length :=
  (Nat.mul_le_mul_right _ (by omega)).trans hk

theorem completeChunks_eq_range (hk : (k + 1) * o.toRead ≤ stream.length) :
    completeChunks o stream (k + 1) = List.range (k + 1) := by
  unfold completeChunks
  rw [List.filter_eq_self]
  intro j hj
  rw [List.mem_range] at hj
  exact decide_eq_true (complete_mono (by omega) hk)

theorem completeChunks_succ (hn : ¬ (n + 1) * o.toRead ≤ stream.length) :
    completeChunks o stream (n + 1) = completeChunks o stream n := by
  unfold completeChunks
  rw [List.range_succ, List.filter_append]
  simp [hn]

variable {d : Delivery o stream}

theorem inBounds_of_covers (h : Covers o stream input) (hlength : o.toRead ≤ stream.length) :
    o.InBounds := by
  have hfirst : (0 + 1) * o.toRead ≤ stream.length := by omega
  obtain ⟨s, -, hcompared⟩ := h 1
  rw [completeChunks_eq_range hfirst] at hcompared
  have hmem : o.scan (o.chunk stream 0) ∈ s.compared.map some := by
    rw [hcompared]
    exact List.mem_map_of_mem (List.mem_range.mpr Nat.one_pos)
  obtain ⟨samples, -, hscan⟩ := List.mem_map.mp hmem
  exact (scan_isSome_iff (length_chunk hfirst)).mp ⟨samples, hscan.symm⟩

theorem filled_of_covers (h : Covers o stream d.input) : d.Filled := by
  intro k hk
  obtain ⟨s, hmain, hcompared⟩ := h (k + 1)
  have hlength := congrArg List.length hcompared
  rw [completeChunks_eq_range hk, List.length_map, List.length_map, List.length_range] at hlength
  obtain ⟨vals, hread, hvals⟩ := (length_compared hmain).2 hlength k (Nat.lt_succ_self k)
  obtain rfl := Option.some.inj hread
  exact hvals

theorem input_eq_chunk (hfilled : d.Filled) (hk : (k + 1) * o.toRead ≤ stream.length) :
    d.input k = some (o.chunk stream k) := by
  have hread := getD_eq_chunk fun j hj => hfilled j (complete_mono hj hk)
  rw [d.flatten] at hread
  unfold Delivery.input
  rw [hread]
  rfl

theorem length_read_ne (hfilled : d.Filled)
    (hreading : ∀ k < n, (k + 1) * o.toRead ≤ stream.length)
    (hn : ¬ (n + 1) * o.toRead ≤ stream.length) : (d.reads.getD n []).length ≠ o.toRead := by
  intro hfull
  apply hn
  rw [← d.flatten]
  apply mul_le_length_flatten
  intro j hj
  rcases Nat.lt_succ_iff_lt_or_eq.mp hj with hj | rfl
  · exact hfilled j (hreading j hj)
  · exact hfull

theorem main_of_filled (hbounds : o.toRead ≤ stream.length → o.InBounds) (hfilled : d.Filled)
    (n : ℕ) : ∃ s, main o d.input n = some s ∧
      (s.compared.map some = (completeChunks o stream n).map fun k => o.scan (o.chunk stream k)) ∧
      (s.status = .reading → ∀ k < n, (k + 1) * o.toRead ≤ stream.length) := by
  induction n with
  | zero => exact ⟨State.init, rfl, rfl, fun _ k hk => absurd hk (Nat.not_lt_zero k)⟩
  | succ n ih =>
    by_cases hn : (n + 1) * o.toRead ≤ stream.length
    · have hcomplete : ∀ k < n + 1, (k + 1) * o.toRead ≤ stream.length :=
        fun k hk => complete_mono (by omega) hn
      have hfirst := hcomplete 0 (Nat.zero_lt_succ n)
      obtain ⟨s, hmain, -, hcompared⟩ := main_of_chunks
        (fun k hk => input_eq_chunk hfilled (hcomplete k hk)) hcomplete
        (fun _ => hbounds (by omega))
      rw [completeChunks_eq_range hn]
      exact ⟨s, hmain, hcompared, fun _ => hcomplete⟩
    · obtain ⟨s, hmain, hcompared, hreading⟩ := ih
      rw [completeChunks_succ hn, ← hcompared]
      by_cases hs : s.status = .reading
      · refine ⟨{ s with status := .returned }, ?_, rfl, fun h => by simp at h⟩
        rw [main_succ hmain hs, Delivery.input, round,
          if_pos (length_read_ne hfilled (hreading hs) hn)]
      · refine ⟨s, ?_, rfl, fun h => absurd h hs⟩
        rw [main, hmain, Option.bind_some, if_neg hs]

theorem covers_of_filled (hbounds : o.toRead ≤ stream.length → o.InBounds) (hfilled : d.Filled) :
    Covers o stream d.input := by
  intro n
  obtain ⟨s, hs, hcompared, -⟩ := main_of_filled hbounds hfilled n
  exact ⟨s, hs, hcompared⟩

/-- The report does not depend on the delivery exactly when each read that can be full is, and
the values scanned in a chunk are in it. -/
theorem sameReport_iff (d₁ d₂ : Delivery o stream) :
    SameReport d₁ d₂ ↔ (o.toRead ≤ stream.length → o.InBounds) ∧ d₁.Filled ∧ d₂.Filled := by
  constructor
  · rintro ⟨h₁, h₂, -⟩
    exact ⟨inBounds_of_covers h₁, filled_of_covers h₁, filled_of_covers h₂⟩
  · rintro ⟨hbounds, hfilled₁, hfilled₂⟩
    have h₁ := covers_of_filled hbounds hfilled₁
    have h₂ := covers_of_filled hbounds hfilled₂
    refine ⟨h₁, h₂, fun n => ?_⟩
    obtain ⟨s₁, hmain₁, hcompared₁⟩ := h₁ n
    obtain ⟨s₂, hmain₂, hcompared₂⟩ := h₂ n
    have hsame : s₁.compared = s₂.compared := by
      rw [← hcompared₂] at hcompared₁
      exact List.map_injective_iff.mpr (Option.some_injective _) hcompared₁
    rw [hmain₁, hmain₂, Option.map_some, Option.map_some, lines_eq hmain₁ hmain₂ hsame]

/-- One sample in one read, or in two. -/
theorem splitSample_unreported : ¬ SameReport
    (⟨[[1, 2]], by decide, by decide, rfl⟩ : Delivery ⟨1, 2⟩ [1, 2])
    ⟨[[1], [2]], by decide, by decide, rfl⟩ := by
  intro h
  exact absurd (filled_of_covers h.covers₂ 0 (by decide)) (by decide)

end Cover

end CollectedSources.PcmAnal
