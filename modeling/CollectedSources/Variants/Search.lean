import CollectedSources.Machine.Loop
import CollectedSources.Md5.Stream
import CollectedSources.Variants.Sizing
import Mathlib

/-! # The search for a word

`main` reads words from a dictionary until one of them, or with `VARIANTS` one
of its variants, has the wanted digest. It keeps one buffer for the variants of
all words, enlarges it when a word needs more, and remembers the word that
needed most.
-/

namespace CollectedSources.Variants

open Memory Choices Md5 Perl

/-- With or without `VARIANTS`. -/
inductive Build | plain | variants
  deriving DecidableEq

/-- The wanted digest. -/
def hash : List UInt8 :=
  [0x6c, 0x8d, 0x87, 0xe6, 0xc4, 0xbc, 0x74, 0x7c, 0x67, 0xba, 0x4b, 0x99, 0x3d, 0xbc, 0x64, 0x4f]

/-- The allocator fails or gives as many bytes as it is asked for. -/
structure Realloc where
  run : List UInt8 → ℕ → Option (List UInt8)
  length_eq : ∀ {all size all'}, run all size = some all' → all'.length = size

namespace C

/-- The offset of the first word with the digest, if all accesses are inside. -/
def compute (target : Target) (arr : List UInt8) (len : ℕ) : Ctx → List ℕ → Option (Option ℕ)
  | _, [] => some none
  | ctx, i :: is =>
    let off := i * ((len + 1) % 2 ^ 32) % 2 ^ 32
    (md5Update target (md5Init ctx) (arr.drop off) len).bind fun ctx =>
      (md5Final target ctx).bind fun r =>
        if r.1 = hash then some (some off) else compute target arr len r.2 is

structure State where
  all : List UInt8
  lastSize : ℕ
  counter : ℕ
  consuming : List UInt8

def State.start : State := ⟨[], 0, 0, []⟩

inductive Outcome
  | gotIt (word : List UInt8) (counter : ℕ) (consuming : List UInt8)
  | notFound
  | noMemory

def wordCount (build : Build) (buf : List UInt8) : Option ℕ :=
  match build with
  | .plain => some 1
  | .variants => count buf

/-- The buffer for a word, if it can be allocated. -/
def enlarge (realloc : Realloc) (s : State) (buf : List UInt8) (size : ℕ) : Option State :=
  if s.lastSize < size then
    (realloc.run s.all size).map fun all => { s with all, lastSize := size, consuming := buf }
  else some s

def fillWords (build : Build) (buf all : List UInt8) : Option (List UInt8) :=
  match build with
  | .plain => storeBytes all 0 (buf ++ [0])
  | .variants => (tryWord buf all).map Prod.fst

/-- The end of the program, if all accesses are inside. -/
def main (build : Build) (target : Target) (realloc : Realloc) (ctx : Ctx) :
    State → List Line → Option Outcome
  | _, [] => some .notFound
  | s, line :: lines =>
    (chomp line.bytes).bind fun buf => (wordCount build buf).bind fun count =>
      match enlarge realloc s buf (size count buf.length) with
      | none => some .noMemory
      | some s => (fillWords build buf s.all).bind fun all =>
        let counter := (s.counter + count) % 2 ^ 64
        (compute target all buf.length ctx (List.range count)).bind fun
          | some off => (cstring all off).map fun word => .gotIt word counter s.consuming
          | none => main build target realloc ctx { s with all, counter } lines

end C

/-- A word with the wanted digest. -/
def Wanted (word : List UInt8) : Prop := Rfc.md5 word = hash

noncomputable instance (word : List UInt8) : Decidable (Wanted word) :=
  inferInstanceAs (Decidable (Rfc.md5 word = hash))

/-- The words that are tried for a word of the dictionary. -/
def tried (build : Build) (buf : List UInt8) : List (List UInt8) :=
  match build with
  | .plain => [buf]
  | .variants => variants substitutes buf

/-- The number of bytes that a word of the dictionary needs. -/
def need (build : Build) (buf : List UInt8) : ℕ := (tried build buf).length * (buf.length + 1)

/-- A word whose variants fit the table and the arithmetic. -/
def Manageable (build : Build) (buf : List UInt8) : Prop :=
  match build with
  | .plain => True
  | .variants => InRange buf

variable {build : Build} {target : Target} {realloc : Realloc} {ctx : Ctx} {n : ℕ}
  {ws : List (List UInt8)} {all w : List UInt8}

theorem slot_digest (target : Target) (ctx : Ctx) (h : Words n ws) (hs : slots ws <+: all)
    {i : ℕ} (hi : i < ws.length) (hn : n < 2 ^ 64) :
    ∃ ctx', md5Update target (md5Init ctx) (all.drop (i * (n + 1))) n = some ctx' ∧
      md5Final target ctx' = some (Rfc.md5 ws[i], Ctx.cleared) := by
  obtain ⟨rest, rfl⟩ := hs
  have hlen : ws[i].length = n := (h _ (List.getElem_mem hi)).1
  have htake : (slots (ws.take i)).length = i * (n + 1) := by
    have hwords : ∀ w ∈ ws.take i, w.length = n := fun w hw => (h w (List.mem_of_mem_take hw)).1
    rw [length_slots hwords, List.length_take_of_le (Nat.le_of_lt hi)]
  have hdrop : (slots ws ++ rest).drop (i * (n + 1)) =
      ws[i] ++ 0 :: (slots (ws.drop (i + 1)) ++ rest) := by
    have hws : slots ws = slots (ws.take i) ++ (ws[i] ++ 0 :: slots (ws.drop (i + 1))) := by
      rw [← slots_cons, ← slots_append, ← List.drop_eq_getElem_cons hi, List.take_append_drop]
    rw [hws, List.append_assoc, List.drop_left' htake]
    simp
  have hdata : n ≤ ((slots ws ++ rest).drop (i * (n + 1))).length := by
    rw [hdrop, List.length_append, hlen]
    exact Nat.le_add_right n _
  obtain ⟨ctx', hupdate, habs⟩ := md5Update_eq target (Ctx.Absorbed.init ctx) hn hdata
  refine ⟨ctx', hupdate, md5Final_eq target ?_⟩
  rw [hdrop, List.take_left' hlen, List.nil_append] at habs
  exact habs

/-- `compute` finds the first word with the digest. -/
theorem compute_eq (target : Target) (ctx : Ctx) (h : Words n ws) (hs : slots ws <+: all)
    (hfit : ws.length * (n + 1) < 2 ^ 32) {k m : ℕ} (hk : k + m = ws.length) :
    ∃ r, C.compute target all n ctx (List.range' k m) = some r ∧
      match (ws.drop k).find? (fun w => Wanted w) with
      | none => r = none
      | some w => ∃ off, r = some off ∧ cstring all off = some w := by
  induction m generalizing k ctx with
  | zero =>
    refine ⟨none, rfl, ?_⟩
    have hdrop : ws.drop k = [] := List.drop_eq_nil_of_le (Nat.le_of_eq hk.symm)
    rw [hdrop]
    rfl
  | succ m ih =>
    have hlt : k < ws.length := by omega
    have hle : k * (n + 1) ≤ ws.length * (n + 1) := Nat.mul_le_mul_right _ (Nat.le_of_lt hlt)
    have hone : n + 1 ≤ ws.length * (n + 1) := Nat.le_mul_of_pos_left _ (by omega)
    have hmod : k * ((n + 1) % 2 ^ 32) % 2 ^ 32 = k * (n + 1) := by
      rw [Nat.mod_eq_of_lt (Nat.lt_of_le_of_lt hone hfit)]
      exact Nat.mod_eq_of_lt (Nat.lt_of_le_of_lt hle hfit)
    obtain ⟨ctx', hupdate, hfinal⟩ := slot_digest target ctx h hs hlt (by omega)
    have hdrop : ws.drop k = ws[k] :: ws.drop (k + 1) := List.drop_eq_getElem_cons hlt
    rw [List.range'_succ, C.compute]
    simp only [hmod, hupdate, hfinal, Option.bind_some, hdrop]
    by_cases hw : Wanted ws[k]
    · rw [if_pos (show Rfc.md5 ws[k] = hash from hw), List.find?_cons_of_pos (by simpa using hw)]
      obtain ⟨rest, rfl⟩ := hs
      exact ⟨_, rfl, _, rfl, cstring_slots h hlt rest⟩
    · rw [if_neg (show ¬ Rfc.md5 ws[k] = hash from hw), List.find?_cons_of_neg (by simpa using hw)]
      exact ih _ (by omega)

theorem length_variant {len0 i j : ℕ} {sub : UInt8} {s s' : List UInt8 × ℕ}
    (h : C.variant len0 i sub s j = some s') : s'.1.length = s.1.length := by
  obtain ⟨all₁, hcpy, hstore⟩ := Option.bind_eq_some_iff.mp h
  obtain ⟨all₂, hset, rfl⟩ := Option.map_eq_some_iff.mp hstore
  obtain ⟨w, -, hbytes⟩ := Option.bind_eq_some_iff.mp hcpy
  exact (length_store hset).trans (length_storeBytes hbytes)

theorem length_tryWord {all' : List UInt8} {count : ℕ} (h : C.tryWord w all = some (all', count)) :
    all'.length = all.length := by
  obtain ⟨all₁, hbytes, hrun⟩ := Option.bind_eq_some_iff.mp h
  rw [← length_storeBytes hbytes]
  apply Machine.foldlM_invariant (P := fun s => s.1.length = all₁.length) _ hrun rfl
  intro s i s' hround hs
  obtain ⟨sub, -, hsubs⟩ := Option.bind_eq_some_iff.mp hround
  apply Machine.foldlM_invariant (P := fun s => s.1.length = all₁.length) _ hsubs hs
  intro t c t' hcopies ht
  apply Machine.foldlM_invariant (P := fun s => s.1.length = all₁.length) _ hcopies ht
  intro u j u' hcopy hu
  exact (length_variant hcopy).trans hu

theorem words_tried (hz : 0 ∉ w) : Words w.length (tried build w) := by
  cases build with
  | plain => simpa [tried, Words] using hz
  | variants => exact words_variantsUpTo hz (Nat.le_refl _)

theorem tried_length_pos (build : Build) (w : List UInt8) : 0 < (tried build w).length := by
  cases build with
  | plain => exact Nat.one_pos
  | variants => exact variants_length_pos w

theorem Manageable.filled (h : Manageable build w) (hlen : w.length ≤ 39) :
    C.wordCount build w = some (tried build w).length ∧ need build w < 2 ^ 32 ∧
      ∀ all : List UInt8, need build w ≤ all.length → ∃ all', C.fillWords build w all = some all' ∧
        slots (tried build w) <+: all' ∧ all'.length = all.length := by
  cases build with
  | plain =>
    refine ⟨rfl, ?_, fun all hall => ?_⟩
    · simp only [need, tried, List.length_singleton]
      omega
    · simp only [need, tried, List.length_singleton, Nat.one_mul] at hall
      have hstore := storeBytes_append [] (all.take (w.length + 1)) (all.drop (w.length + 1))
        (w ++ [0]) (by simp; omega)
      rw [List.take_append_drop, List.nil_append, List.nil_append] at hstore
      refine ⟨_, hstore, ⟨all.drop (w.length + 1), by simp [tried, slots]⟩, ?_⟩
      simp
      omega
  | variants =>
    have hfits : need .variants w < 2 ^ 32 := by
      rw [need, tried, length_variants]
      exact InRange.fits h
    refine ⟨InRange.count_eq h, hfits, fun all hall => ?_⟩
    obtain ⟨all', hword, hs⟩ := InRange.tryWord_eq h hall
    exact ⟨all', by rw [C.fillWords, hword]; rfl, hs, length_tryWord hword⟩

/-- The search after some words of the dictionary. -/
structure C.State.After (build : Build) (pre : List (List UInt8)) (s : C.State) : Prop where
  length : s.all.length = s.lastSize
  lastSize : s.lastSize = ((pre.argmax (need build)).map (need build)).getD 0
  consuming : ∀ b ∈ pre.argmax (need build), s.consuming = b
  counter : s.counter = (pre.map fun b => (tried build b).length).sum % 2 ^ 64

theorem C.State.After.start (build : Build) : C.State.start.After build [] :=
  ⟨rfl, rfl, by simp, rfl⟩

theorem C.State.After.enlarge {s s' : C.State} {pre : List (List UInt8)} (h : s.After build pre)
    (henl : C.enlarge realloc s w (need build w) = some s') :
    s'.all.length = s'.lastSize ∧ need build w ≤ s'.lastSize ∧ s'.counter = s.counter ∧
      s'.lastSize = (((pre ++ [w]).argmax (need build)).map (need build)).getD 0 ∧
      ∀ b ∈ (pre ++ [w]).argmax (need build), s'.consuming = b := by
  have hpos : 0 < need build w := Nat.mul_pos (tried_length_pos build w) (Nat.succ_pos _)
  have hlast := h.lastSize
  have hcons := h.consuming
  rw [C.enlarge] at henl
  split_ifs at henl with hlt
  · obtain ⟨all, hall, rfl⟩ := Option.map_eq_some_iff.mp henl
    have hmax : (pre ++ [w]).argmax (need build) = some w := by
      rw [List.argmax_concat]
      cases hp : pre.argmax (need build) with
      | none => rfl
      | some b =>
        rw [hlast, hp] at hlt
        exact if_pos hlt
    refine ⟨realloc.length_eq hall, Nat.le_refl _, rfl, ?_, ?_⟩
    · rw [hmax]
      rfl
    · rw [hmax]
      rintro b ⟨⟩
      rfl
  · obtain rfl := Option.some.inj henl
    have hmax : (pre ++ [w]).argmax (need build) = pre.argmax (need build) := by
      rw [List.argmax_concat]
      cases hp : pre.argmax (need build) with
      | none =>
        rw [hlast, hp] at hlt
        exact absurd hpos hlt
      | some b =>
        rw [hlast, hp] at hlt
        exact if_neg hlt
    rw [hmax]
    exact ⟨h.length, Nat.le_of_not_lt hlt, rfl, hlast, hcons⟩

theorem chomp_spec {line : Line} (h : C.chomp line.bytes = some w) : 0 ∉ w ∧ w.length ≤ 39 := by
  refine ⟨zero_not_mem_of_chomp h, ?_⟩
  have htake : (line.bytes.takeWhile (· ≠ 0)).length ≤ line.bytes.length :=
    (List.takeWhile_prefix _).length_le
  obtain ⟨c, -, rfl⟩ := Option.map_eq_some_iff.mp h
  have hline := line.length_le
  split_ifs
  · rw [List.length_dropLast]
    omega
  · omega

/-- What the end of the search says about the words of the dictionary. -/
def Sound (build : Build) (realloc : Realloc) (bufs : List (List UInt8)) : C.Outcome → Prop
  | .gotIt word counter consuming => ∃ pre buf post, bufs = pre ++ buf :: post ∧
      (∀ b ∈ pre, ∀ v ∈ tried build b, ¬ Wanted v) ∧
      (tried build buf).find? (fun v => Wanted v) = some word ∧
      counter = ((pre ++ [buf]).map fun b => (tried build b).length).sum % 2 ^ 64 ∧
      consuming ∈ (pre ++ [buf]).argmax (need build)
  | .notFound => ∀ b ∈ bufs, ∀ v ∈ tried build b, ¬ Wanted v
  | .noMemory => ∃ all, ∃ buf ∈ bufs, realloc.run all (need build buf) = none

/-- The program stays inside its buffers and its table and says the truth about the words it has
tried, if it can manage all words of the dictionary. -/
theorem main_sound (build : Build) (target : Target) (realloc : Realloc) (ctx : Ctx)
    {lines : List Line} {bufs : List (List UInt8)}
    (h : List.Forall₂ (fun line buf => C.chomp line.bytes = some buf ∧ Manageable build buf)
      lines bufs) :
    ∃ outcome, C.main build target realloc ctx C.State.start lines = some outcome ∧
      Sound build realloc bufs outcome := by
  suffices hrun : ∀ (pre : List (List UInt8)) (s : C.State), s.After build pre →
      (∀ b ∈ pre, ∀ v ∈ tried build b, ¬ Wanted v) →
      ∃ outcome, C.main build target realloc ctx s lines = some outcome ∧
        Sound build realloc (pre ++ bufs) outcome by
    exact hrun [] _ (C.State.After.start build) (by simp)
  induction h with
  | nil =>
    intro pre s _ hpre
    exact ⟨.notFound, rfl, by simpa [Sound] using hpre⟩
  | @cons line buf lines bufs hline _ ih =>
    intro pre s hs hpre
    obtain ⟨hchomp, hman⟩ := hline
    obtain ⟨hz, hlen⟩ := chomp_spec hchomp
    obtain ⟨hcount, hfit, hfill⟩ := hman.filled hlen
    have hsize : C.size (tried build buf).length buf.length = need build buf :=
      Nat.mod_eq_of_lt hfit
    rw [C.main, hchomp, Option.bind_some, hcount, Option.bind_some, hsize]
    cases henl : C.enlarge realloc s buf (need build buf) with
    | none =>
      refine ⟨.noMemory, rfl, s.all, buf, by simp, ?_⟩
      rw [C.enlarge] at henl
      split_ifs at henl
      exact Option.map_eq_none_iff.mp henl
    | some s' =>
      obtain ⟨hall, hroom, hctr, hlast, hcons⟩ := hs.enlarge henl
      obtain ⟨all, hfilled, hslots, hlength⟩ := hfill s'.all (by rw [hall]; exact hroom)
      obtain ⟨r, hcompute, hr⟩ := compute_eq target ctx (words_tried hz) hslots hfit
        (Nat.zero_add _)
      rw [← List.range_eq_range'] at hcompute
      rw [List.drop_zero] at hr
      have hcounter : (s'.counter + (tried build buf).length) % 2 ^ 64 =
          ((pre ++ [buf]).map fun b => (tried build b).length).sum % 2 ^ 64 := by
        rw [hctr, hs.counter, Nat.mod_add_mod]
        simp
      simp only [hfilled, Option.bind_some, hcompute]
      cases hfind : (tried build buf).find? fun v => Wanted v with
      | some word =>
        rw [hfind] at hr
        obtain ⟨off, rfl, hword⟩ := hr
        refine ⟨.gotIt word _ s'.consuming, by simp only [hword, Option.map_some], pre, buf, bufs,
          rfl, hpre, hfind, hcounter, ?_⟩
        cases hmax : (pre ++ [buf]).argmax (need build) with
        | none => exact absurd (List.argmax_eq_none.mp hmax) (by simp)
        | some b =>
          rw [hcons b hmax]
          exact rfl
      | none =>
        rw [hfind] at hr
        subst hr
        have hnone : ∀ v ∈ tried build buf, ¬ Wanted v := by
          simpa using hfind
        have hpre' : ∀ b ∈ pre ++ [buf], ∀ v ∈ tried build b, ¬ Wanted v := by
          simp only [List.mem_append, List.mem_singleton]
          rintro b (hb | rfl)
          · exact hpre b hb
          · exact hnone
        obtain ⟨outcome, hmain, hsound⟩ := ih (pre ++ [buf])
          ⟨all, s'.lastSize, (s'.counter + (tried build buf).length) % 2 ^ 64, s'.consuming⟩
          ⟨hlength.trans hall, hlast, hcons, hcounter⟩ hpre'
        rw [List.append_assoc] at hsound
        exact ⟨outcome, hmain, hsound⟩

/-- An allocator that never fails. -/
def plentiful : Realloc := ⟨fun _ size => some (List.replicate size 0), by
  rintro all size all' ⟨⟩
  exact List.length_replicate⟩

/-- The line `aT`. -/
def atLine : Line where
  bytes := [byte 'a', byte 'T', newline]
  pos := by decide
  length_le := by decide
  newline_last := by decide

theorem main_sound_at : ∃ outcome,
    C.main .variants .portable plentiful Ctx.cleared C.State.start [atLine] = some outcome ∧
      Sound .variants plentiful [[byte 'a', byte 'T']] outcome := by
  apply main_sound
  exact .cons ⟨by decide, inRange_at⟩ .nil

end CollectedSources.Variants
