import CollectedSources.Machine.Heap
import CollectedSources.Machine.Run
import Mathlib

/-! # The average age of prumvek

The program reads people from the lines of a file into a list whose first node is
always an empty one. This node is freed before the list is gone through, and the
listing starts with it.
-/

namespace CollectedSources.Prumvek

open Machine

abbrev Text := List Char

section Text

/-- A line, or the first 100 characters of one; none at the end of the file. -/
def fgets (file : Text) : Option (Text × Text) :=
  if file = [] then none
  else
    let line := (file.take 100).takeWhile (· ≠ '\n')
    let line := if line.length < (file.take 100).length then line ++ ['\n'] else line
    some (line, file.drop line.length)

/-- The results of all calls of `fgets`. -/
def fgetsAll : ℕ → Text → List Text
  | 0, _ => []
  | fuel + 1, file =>
    match fgets file with
    | none => []
    | some (line, rest) => line :: fgetsAll fuel rest

def radky (file : Text) : List Text := fgetsAll file.length file

def nul : Char := Char.ofNat 0

/-- The delimiters. -/
def delims (c : Char) : Bool := c = ' ' ∨ c = '\t'

/-- A token with the character before it and the characters behind the delimiter that was
overwritten. -/
structure Token where
  before : Char
  text : Text
  rest : Text
  deriving DecidableEq

/-- `strtok` on the rest of a string, which follows an overwritten delimiter. -/
def strtok (string : Text) : Option Token :=
  let body := string.dropWhile delims
  if body = [] then none
  else some
    { before := (string.takeWhile delims).getLastD nul
      text := body.takeWhile (! delims ·)
      rest := (body.dropWhile (! delims ·)).tail }

def isspace (c : Char) : Bool := c = ' ' ∨ 9 ≤ c.toNat ∧ c.toNat ≤ 13

/-- `strtol` in base 10: a `long`, and the rest of the string. -/
def strtol (string : Text) : ℤ × Text :=
  let body := string.dropWhile isspace
  let negative := body.head? = some '-'
  let body := if negative ∨ body.head? = some '+' then body.tail else body
  let digits := body.takeWhile Char.isDigit
  let n : ℕ := digits.foldl (fun n c => 10 * n + (c.toNat - 48)) 0
  if digits = [] then (0, string)
  else (if negative then max (-2 ^ 63) (-n) else min (2 ^ 63 - 1) n, body.dropWhile Char.isDigit)

def atoi (string : Text) : ℤ := (BitVec.ofInt 32 (strtol string).1).toInt

/-- The test of the last two characters of the third token; the last but one of a single
character is the one before the token. -/
def chop (cislo : Token) : Text :=
  if (cislo.before :: cislo.text).dropLast.getLast? = some ' ' ∨
      cislo.text.getLast? = some '\n' then cislo.text.dropLast
  else cislo.text

end Text

section Code

structure Person where
  jmeno : Text
  prijmeni : Text
  rokNarozeni : ℤ
  deriving DecidableEq

/-- A node of the list, empty when it is new. -/
structure Node where
  person : Option Person
  next : ℕ

/-- The list, the sums over it and the people in it, in the order of the file. -/
structure State where
  heap : Heap Node
  lidi : ℕ
  tmp : ℕ
  soucet : ℤ
  pocet : ℕ
  people : List Person

/-- The result of an operation on `int`. -/
def int (v : ℤ) : Option ℤ := if -2 ^ 31 ≤ v ∧ v < 2 ^ 31 then some v else none

def vek (rok : ℤ) (p : Person) : Option ℤ :=
  (int (1900 + rok)).bind fun now => int (now - p.rokNarozeni)

/-- The state that `main` makes for `napln`. -/
def start : State where
  heap := Heap.empty.alloc ⟨none, 0⟩
  lidi := 1
  tmp := 1
  soucet := 0
  pocet := 0
  people := []

/-- A person is filled in, if the first name fits, and a new node is put in front. -/
def State.fill (s : State) (rok : ℤ) (p : Person) : Option State :=
  if 16 ≤ p.jmeno.length then none
  else do
    let node ← s.heap.blocks s.tmp
    let heap ← s.heap.write s.tmp { node with person := some p }
    let vek ← vek rok p
    let soucet ← int (s.soucet + vek)
    let _ ← int (s.pocet + 1)
    some
      { heap := heap.alloc ⟨none, s.lidi⟩
        lidi := heap.next
        tmp := heap.next
        soucet := soucet
        pocet := s.pocet + 1
        people := s.people ++ [p] }

/-- One round of the reading loop; none where `cislo` is a null pointer. -/
def readLine (rok : ℤ) (s : State) (radek : Text) : Option State :=
  match strtok (radek.takeWhile (· ≠ nul)) with
  | none => some s
  | some meno =>
    match strtok meno.rest with
    | none => some s
    | some surname =>
      match strtok surname.rest with
      | none => none
      | some cislo =>
        if (strtol (chop cislo)).2 = [] then
          s.fill rok ⟨meno.text, surname.text.take 20, atoi (chop cislo)⟩
        else some s

/-- The listing, which goes on to the next node only behind a person of average age. -/
def vypis (heap : Heap Node) (rok prumer : ℤ) : ℕ → ℕ → Option (List Person)
  | 0, _ => some []
  | n + 1, lidi => do
    let node ← heap.blocks lidi
    let p ← node.person
    let vek ← vek rok p
    if prumer = vek then (vypis heap rok prumer n node.next).map (p :: ·)
    else vypis heap rok prumer n lidi

/-- What `napln` stored, computed and listed. -/
structure Result where
  people : List Person
  prumer : ℤ
  listed : List Person

/-- `napln` on a file that can be opened; none where its behaviour is undefined. -/
def napln (rok : ℤ) (file : Text) : Option Result := do
  let s ← run (readLine rok) start (radky file)
  let heap ← s.heap.free s.tmp
  if s.pocet = 0 then none
  else
    let prumer := s.soucet.tdiv s.pocet
    (vypis heap rok prumer s.pocet s.lidi).map fun listed => ⟨s.people, prumer, listed⟩

end Code

section Reading

variable {file line rest : Text}

theorem fgets_append (h : fgets file = some (line, rest)) : line ++ rest = file ∧ line ≠ [] := by
  unfold fgets at h
  split_ifs at h with hnil
  simp only [Option.some.injEq, Prod.mk.injEq] at h
  obtain ⟨rfl, rfl⟩ := h
  rw [← List.prefix_iff_eq_append]
  have hpos : 0 < (file.take 100).length := by
    rw [List.length_take]
    have := List.length_pos_iff.mpr hnil
    omega
  have htake : file.take 100 <+: file := List.take_prefix 100 file
  generalize file.take 100 = buffer at hpos htake ⊢
  have hsplit := List.takeWhile_append_dropWhile (p := (· ≠ '\n')) (l := buffer)
  split_ifs with hshort
  · refine ⟨List.IsPrefix.trans ?_ htake, by simp⟩
    cases hrest : buffer.dropWhile (· ≠ '\n') with
    | nil =>
      rw [hrest, List.append_nil] at hsplit
      rw [hsplit] at hshort
      exact absurd hshort (lt_irrefl _)
    | cons c tail =>
      have hc : (decide (c ≠ '\n')) = false := by
        have := List.head?_dropWhile_not (fun c => decide (c ≠ '\n')) buffer
        rw [hrest] at this
        exact this
      rw [decide_eq_false_iff_not, not_not] at hc
      rw [hrest, hc] at hsplit
      exact ⟨tail, by rw [List.append_assoc]; exact hsplit⟩
  · have hle : (buffer.takeWhile (· ≠ '\n')).length = buffer.length :=
      le_antisymm (List.takeWhile_prefix _).length_le (Nat.le_of_not_lt hshort)
    refine ⟨(List.takeWhile_prefix _).trans htake, ?_⟩
    rw [← List.length_pos_iff, hle]
    exact hpos

theorem flatten_radky (file : Text) : (radky file).flatten = file := by
  have hall (fuel : ℕ) (file : Text) (hfuel : file.length ≤ fuel) :
      (fgetsAll fuel file).flatten = file := by
    induction fuel generalizing file with
    | zero =>
      rw [List.length_eq_zero_iff.mp (Nat.le_zero.mp hfuel)]
      rfl
    | succ fuel ih =>
      rw [fgetsAll]
      cases hline : fgets file with
      | none =>
        unfold fgets at hline
        split_ifs at hline with hnil
        rw [hnil]
        rfl
      | some p =>
        obtain ⟨line, rest⟩ := p
        obtain ⟨happend, hne⟩ := fgets_append hline
        have hlength := congrArg List.length happend
        have := List.length_pos_iff.mpr hne
        rw [List.length_append] at hlength
        simp only
        rw [List.flatten_cons, ih rest (by omega), happend]
  exact hall file.length file le_rfl

end Reading

section List

variable {h h' : Heap Node} {p q : ℕ} {xs : List Person} {rok : ℤ} {s s' : State}

/-- The age of a person, in unbounded numbers. -/
def age (rok : ℤ) (p : Person) : ℤ := 1900 + rok - p.rokNarozeni

/-- The people in the list from a node on, each in a node older than the one before. -/
def Chain (h : Heap Node) : ℕ → List Person → Prop
  | p, [] => p = 0
  | p, x :: xs => ∃ next, h.blocks p = some ⟨some x, next⟩ ∧ next < p ∧ Chain h next xs

/-- A list depends on the blocks up to its first one only. -/
theorem Chain.congr (hblocks : ∀ q ≤ p, h'.blocks q = h.blocks q) (hp : Chain h p xs) :
    Chain h' p xs := by
  induction xs generalizing p with
  | nil => exact hp
  | cons x xs ih =>
    obtain ⟨next, hnode, hlt, hrest⟩ := hp
    refine ⟨next, (hblocks p le_rfl).trans hnode, hlt, ih (fun q hq => ?_) hrest⟩
    exact hblocks q (hq.trans hlt.le)

/-- The list has an empty node in front of the people, which is the one to be filled next. -/
structure State.Inv (rok : ℤ) (s : State) : Prop where
  first : s.tmp = s.lidi
  spare : ∃ next, s.heap.blocks s.lidi = some ⟨none, next⟩ ∧ next < s.lidi ∧
    Chain s.heap next s.people.reverse
  pocet : s.pocet = s.people.length
  soucet : s.soucet = (s.people.map (age rok)).sum

theorem inv_start (rok : ℤ) : start.Inv rok :=
  ⟨rfl, ⟨0, rfl, Nat.one_pos, rfl⟩, rfl, rfl⟩

theorem int_eq_some {v w : ℤ} (hv : int v = some w) : w = v := by
  unfold int at hv
  split_ifs at hv
  exact (Option.some.inj hv).symm

theorem vek_eq_some {x : Person} {v : ℤ} (hv : vek rok x = some v) : v = age rok x := by
  obtain ⟨now, hnow, hv⟩ := Option.bind_eq_some_iff.mp hv
  rw [int_eq_some hv, int_eq_some hnow, age]

theorem inv_fill {x : Person} (hfill : s.fill rok x = some s') (hs : s.Inv rok) : s'.Inv rok := by
  obtain ⟨hfirst, ⟨next, hspare, hlt, hchain⟩, hpocet, hsoucet⟩ := hs
  unfold State.fill at hfill
  split_ifs at hfill
  simp only [Option.bind_eq_bind, Option.bind_eq_some_iff, Option.some.injEq] at hfill
  obtain ⟨node, hnode, heap, hwrite, v, hv, soucet, hsum, -, -, rfl⟩ := hfill
  rw [hfirst, hspare, Option.some.injEq] at hnode
  subst hnode
  rw [hfirst] at hwrite
  obtain ⟨hblocks, hself, hnext⟩ := Heap.blocks_of_write hwrite
  have hused : s.lidi < heap.next := hnext ▸ (s.heap.used hspare).2
  have hfilled : Chain heap s.lidi (x :: s.people.reverse) :=
    ⟨next, hself, hlt, hchain.congr fun q hq => hblocks (by omega)⟩
  refine ⟨rfl, ⟨s.lidi, Heap.blocks_alloc_next .., hused, ?_⟩, ?_, ?_⟩
  · rw [List.reverse_append]
    exact hfilled.congr fun q hq => Heap.blocks_alloc_of_lt (by omega) _
  · rw [List.length_append, ← hpocet]
    rfl
  · rw [List.map_append, List.sum_append, ← hsoucet, int_eq_some hsum, vek_eq_some hv]
    simp

theorem inv_readLine {radek : Text} (hline : readLine rok s radek = some s') (hs : s.Inv rok) :
    s'.Inv rok := by
  unfold readLine at hline
  split at hline
  · obtain rfl := Option.some.inj hline
    exact hs
  · split at hline
    · obtain rfl := Option.some.inj hline
      exact hs
    · split at hline
      · cases hline
      · split_ifs at hline
        · exact inv_fill hline hs
        · obtain rfl := Option.some.inj hline
          exact hs

theorem inv_run {lines : List Text} (hrun : run (readLine rok) start lines = some s) :
    s.Inv rok :=
  run_invariant (fun _ _ _ _ => inv_readLine) hrun (inv_start rok)

end List

section Average

variable {rok : ℤ} {file : Text}

theorem napln_eq_none (rok : ℤ) (file : Text) : napln rok file = none := by
  unfold napln
  cases hread : run (readLine rok) start (radky file) with
  | none => rfl
  | some s =>
    have hfirst : s.tmp = s.lidi := (inv_run hread).first
    cases hfree : s.heap.free s.tmp with
    | none => simp [hfree]
    | some heap =>
      obtain rfl := Heap.eq_erase_of_free hfree
      cases hpocet : s.pocet with
      | zero => simp [hfree, hpocet]
      | succ n =>
        have hlist (prumer : ℤ) : vypis (s.heap.erase s.tmp) rok prumer (n + 1) s.lidi = none := by
          rw [vypis, ← hfirst, Heap.blocks_erase_self]
          rfl
        simp [hfree, hpocet, hlist]

/-- The blank-separated fields of a line. -/
def fields (radek : Text) : List Text :=
  ((radek.takeWhile fun c => c ≠ nul ∧ c ≠ '\n').splitOnP delims).filter (· ≠ [])

/-- The record of a line with a number in its third field. -/
def record (radek : Text) : Option Person :=
  match fields radek with
  | jmeno :: prijmeni :: cislo :: _ =>
    if (strtol cislo).2 = [] then some ⟨jmeno.take 15, prijmeni.take 20, atoi cislo⟩ else none
  | _ => none

/-- The report on the people of average age. -/
structure Result.Right (rok : ℤ) (file : Text) (r : Result) : Prop where
  people : r.people = (radky file).filterMap record
  prumer : r.people ≠ [] → r.prumer = (r.people.map (age rok)).sum.tdiv r.people.length
  listed : r.listed.Perm (r.people.filter fun p => age rok p = r.prumer)

/-- There is no file for which the report is made. -/
theorem napln_never_right (rok : ℤ) (file : Text) :
    ¬ ∃ r, napln rok file = some r ∧ r.Right rok file := by
  rintro ⟨r, hr, -⟩
  rw [napln_eq_none] at hr
  cases hr

/-- One person, who is of average age and is not listed. -/
def oneLine : Text := "Jan Novak 1970\n".toList

example : (run (readLine 105) start (radky oneLine)).map (fun s => (s.people, s.soucet, s.pocet)) =
    some ([⟨"Jan".toList, "Novak".toList, 1970⟩], 35, 1) := by
  decide

theorem oneLine_not_right : (radky oneLine).filterMap record =
    [⟨"Jan".toList, "Novak".toList, 1970⟩] ∧
      ¬ ∃ r, napln 105 oneLine = some r ∧ r.Right 105 oneLine := by
  refine ⟨by decide, ?_⟩
  rintro ⟨r, hr, -⟩
  rw [napln_eq_none] at hr
  cases hr

end Average

end CollectedSources.Prumvek
