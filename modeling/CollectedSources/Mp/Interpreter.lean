import CollectedSources.Mp.Store

/-! # Programs of the interpreter

The actions of the grammar print, set and read variables. An action goes wrong
if it follows a null pointer, frees what is not allocated or writes past a
buffer. Going through a program with a typed map tells whether that happens.
-/

namespace CollectedSources.Mp

open Process

inductive Token
  | q | h | p | r | i | g | STR | eq | semicolon | lbr | rbr
  | namevar (name : String)
  | retez (text : Text)
  | cislo (digits : ℕ)
  deriving DecidableEq, Repr

inductive Prexp
  | empty
  | cislo (digits : ℕ)
  | retez (text : Text)
  | namevar (name : String)
  deriving DecidableEq, Repr

inductive Statement
  | quit
  | help
  | print (e : Prexp)
  | declare (type : VarType) (name : String)
  | setInt (name : String) (digits : ℕ)
  | setString (name : String) (text : Text)
  | read (name : String)
  | run (command : Text)
  deriving DecidableEq, Repr

section Grammar

def Prexp.tokens : Prexp → List Token
  | .empty => []
  | .cislo n => [.cislo n]
  | .retez t => [.retez t]
  | .namevar name => [.namevar name]

/-- The rules `lbr` and `rbr`. -/
def optional (t : Token) (given : Bool) : List Token := if given then [t] else []

/-- The tokens of a statement, with or without its brackets. -/
def Statement.tokens (l r : Bool) : Statement → List Token
  | .quit => .q :: optional .lbr l ++ optional .rbr r ++ [.semicolon]
  | .help => .h :: optional .lbr l ++ optional .rbr r ++ [.semicolon]
  | .print e => .p :: optional .lbr l ++ e.tokens ++ optional .rbr r ++ [.semicolon]
  | .declare .int name => [.i, .namevar name, .semicolon]
  | .declare .str name => [.STR, .namevar name, .semicolon]
  | .setInt name n => [.namevar name, .eq, .cislo n, .semicolon]
  | .setString name t => [.namevar name, .eq, .retez t, .semicolon]
  | .read name => .g :: optional .lbr l ++ .namevar name :: optional .rbr r ++ [.semicolon]
  | .run t => .r :: optional .lbr l ++ .retez t :: optional .rbr r ++ [.semicolon]

/-- The rule `input`: the tokens of some statements. -/
inductive Input : List Token → List Statement → Prop
  | empty : Input [] []
  | statement {ts sts} (st : Statement) (l r : Bool) : Input ts sts →
      Input (st.tokens l r ++ ts) (st :: sts)

def skipLbr : List Token → List Token
  | .lbr :: ts => ts
  | ts => ts

/-- The end of a statement. -/
def finish (st : Statement) : List Token → Option (Statement × List Token)
  | .rbr :: .semicolon :: ts => some (st, ts)
  | .semicolon :: ts => some (st, ts)
  | _ => none

/-- The first statement of some tokens. -/
def parseStatement : List Token → Option (Statement × List Token)
  | .q :: ts => finish .quit (skipLbr ts)
  | .h :: ts => finish .help (skipLbr ts)
  | .p :: ts =>
    match skipLbr ts with
    | .cislo n :: ts => finish (.print (.cislo n)) ts
    | .retez t :: ts => finish (.print (.retez t)) ts
    | .namevar name :: ts => finish (.print (.namevar name)) ts
    | ts => finish (.print .empty) ts
  | .i :: .namevar name :: .semicolon :: ts => some (.declare .int name, ts)
  | .STR :: .namevar name :: .semicolon :: ts => some (.declare .str name, ts)
  | .namevar name :: .eq :: .cislo n :: .semicolon :: ts => some (.setInt name n, ts)
  | .namevar name :: .eq :: .retez t :: .semicolon :: ts => some (.setString name t, ts)
  | .g :: ts =>
    match skipLbr ts with
    | .namevar name :: ts => finish (.read name) ts
    | _ => none
  | .r :: ts =>
    match skipLbr ts with
    | .retez t :: ts => finish (.run t) ts
    | _ => none
  | _ => none

theorem parseStatement_tokens (st : Statement) (l r : Bool) (ts : List Token) :
    parseStatement (st.tokens l r ++ ts) = some (st, ts) := by
  cases st with
  | print e => cases e <;> cases l <;> cases r <;> rfl
  | declare type name => cases type <;> rfl
  | setInt name n => rfl
  | setString name t => rfl
  | _ => cases l <;> cases r <;> rfl

theorem Input.unique {ts : List Token} {sts sts' : List Statement} (h : Input ts sts)
    (h' : Input ts sts') : sts = sts' := by
  induction h generalizing sts' with
  | empty =>
    generalize hts : ([] : List Token) = ts at h'
    cases h' with
    | empty => rfl
    | @statement us _ st l r _ =>
      have hparse := parseStatement_tokens st l r us
      rw [← hts] at hparse
      cases hparse
  | @statement ts sts st l r _ ih =>
    generalize hts : st.tokens l r ++ ts = us at h'
    have hparse := parseStatement_tokens st l r ts
    rw [hts] at hparse
    cases h' with
    | empty => cases hparse
    | statement st' l' r' h' =>
      rw [parseStatement_tokens] at hparse
      cases hparse
      rw [ih h']

end Grammar

section Library

/-- The characters of `isspace`. -/
def isSpace (c : Char) : Bool := c = ' ' ∨ 9 ≤ c.toNat ∧ c.toNat ≤ 13

/-- `strtol` stops at the bounds of a `long`; the result is cut to an `int`. -/
def toInt (n : ℤ) : BitVec 32 := BitVec.ofInt 32 (max (-2 ^ 63) (min n (2 ^ 63 - 1)))

/-- The result of `scanf("%s")`, and what is left of the input. -/
def scanfString (input : List Char) : Option Text × List Char :=
  let rest := input.dropWhile isSpace
  let word := rest.takeWhile (!isSpace ·)
  (if word = [] then none else some word, rest.dropWhile (!isSpace ·))

def natOfDigits (digits : List Char) : ℕ :=
  digits.foldl (fun n c => 10 * n + (c.toNat - '0'.toNat)) 0

/-- The result of `scanf("%d")`, and what is left of the input. -/
def scanfInt (input : List Char) : Option (BitVec 32) × List Char :=
  let rest := input.dropWhile isSpace
  let (negative, rest) :=
    match rest with
    | '-' :: rest => (true, rest)
    | '+' :: rest => (false, rest)
    | rest => (false, rest)
  let digits := rest.takeWhile Char.isDigit
  let n : ℤ := natOfDigits digits
  (if digits = [] then none else some (toInt (if negative then -n else n)),
    rest.dropWhile Char.isDigit)

/-- The cast of a logarithm to `int`; the one of a number that has none is the least `int`. -/
def log10 (n : ℤ) : ℤ := if 0 < n then Nat.log 10 n.toNat else -2 ^ 31

/-- The size of a number's buffer. There is no buffer for a negative size. -/
def numberSize (n : ℤ) : ℕ := (log10 n + 1).toNat

end Library

section Execution

structure State where
  store : Store
  stdin : List Char

inductive Output
  | stderr (text : String)
  | printed (text : Text)
  | help
  | system (command : Text)
  | fault (f : Fault)
  deriving DecidableEq, Repr

def wrong {α : Type} (f : Fault) : List Output × Option α := ([.fault f], none)

/-- The address of an expression's text. The empty expression is a literal outside the heap. -/
def prexp (s : Store) : Prexp → List Output × Option (Option ℕ × Store)
  | .empty => ([], some (none, s))
  | .cislo n =>
    match fill (numberSize (toInt n).toInt) (decimal (toInt n).toInt) with
    | .ok text => ([], some (some s.heap.next, { s with heap := s.heap.alloc text }))
    | .error f => wrong f
  | .retez text => ([], some (some s.heap.next, { s with heap := s.heap.alloc text }))
  | .namevar name =>
    match getvar s name with
    | (errors, .ok (p, s')) => (errors.map .stderr, some (some p, s'))
    | (errors, .error f) => (errors.map .stderr ++ [.fault f], none)

/-- Print a text and free it. -/
def print (s : Store) : Option ℕ → List Output × Option Store
  | none => ([.printed [], .fault .badFree], none)
  | some p =>
    match s.heap.blocks p, s.heap.free p with
    | some text, some heap => ([.printed text], some { s with heap })
    | _, _ => wrong .badFree

def readvar (s : State) (name : String) : List Output × Option State :=
  match findvar s.store name with
  | none => wrong .nullVariable
  | some v =>
    match v.type with
    | .str =>
      let (word, rest) := scanfString s.stdin
      match fill 128 (word.getD []) with
      | .error f => wrong f
      | .ok text =>
        let heap := s.store.heap.alloc text
        ([], some ⟨⟨assign name (fun _ => s.store.heap.next) s.store.varis, heap⟩, rest⟩)
    | .int =>
      match scanfInt s.stdin with
      | (none, rest) => ([], some { s with stdin := rest })
      | (some n, rest) =>
        ([], some ⟨{ s.store with varis := assign name (setIcnt n) s.store.varis }, rest⟩)

def step (s : State) : Statement → List Output × Option State
  | .quit => ([], none)
  | .help => ([.help], some s)
  | .print e =>
    andThen (andThen (prexp s.store e) fun r => print r.2 r.1) fun store =>
      ([], some { s with store })
  | .declare type name =>
    ((newvar s.store type name).1.map .stderr,
      some { s with store := (newvar s.store type name).2 })
  | .setInt name n =>
    ((setivar s.store name (toInt n)).1.map .stderr,
      some { s with store := (setivar s.store name (toInt n)).2 })
  | .setString name text =>
    let store := { s.store with heap := s.store.heap.alloc text }
    ((setsvar store name s.store.heap.next).1.map .stderr,
      some { s with store := (setsvar store name s.store.heap.next).2 })
  | .read name => readvar s name
  | .run command => ([.system command], some s)

/-- Free the strings of all variables. -/
def clean (heap : Heap Text) : List Var → List Output × Option (Heap Text)
  | [] => ([], some heap)
  | v :: vs =>
    if v.type = .str ∧ v.scnt ≠ 0 then
      match heap.free v.scnt with
      | none => wrong .badFree
      | some heap => clean heap vs
    else clean heap vs

/-- A program with its input; `clean` follows unless the program quits. -/
def execute (sts : List Statement) (stdin : List Char) : List Output × Option (Heap Text) :=
  andThen (Process.run step ⟨.empty, stdin⟩ sts) fun s => clean s.store.heap s.store.varis

end Execution

section Safety

/-- No action goes wrong for some tokens. -/
def Safe (ts : List Token) (stdin : List Char) : Prop :=
  ∀ sts, Input ts sts → ∀ f, Output.fault f ∉ (execute sts stdin).1

/-- What a statement does to a typed map and the input. -/
inductive Outcome
  | wrong
  | exit
  | next (m : TypedMap) (stdin : List Char)

def outcome (m : TypedMap) (stdin : List Char) : Statement → Outcome
  | .quit => .exit
  | .help => .next m stdin
  | .print .empty => .wrong
  | .print (.cislo _) => .wrong
  | .print (.retez _) => .next m stdin
  | .print (.namevar name) =>
    match m.get name with
    | some (.str none) => .wrong
    | some (.str (some text)) => if text.length ≤ 127 then .next m stdin else .wrong
    | _ => .next m stdin
  | .declare type name => .next (m.declare type name) stdin
  | .setInt name n => .next (m.set name (.int (toInt n))) stdin
  | .setString name text => .next (m.set name (.str (some text))) stdin
  | .read name =>
    match m.get name with
    | none => .wrong
    | some (.int _) =>
      match scanfInt stdin with
      | (none, rest) => .next m rest
      | (some n, rest) => .next (m.set name (.int n)) rest
    | some (.str _) =>
      let (word, rest) := scanfString stdin
      if (word.getD []).length ≤ 127 then .next (m.set name (.str (some (word.getD [])))) rest
      else .wrong
  | .run _ => .next m stdin

/-- Nothing is printed but texts and variables with short texts, and only declared variables are
read, with short words, until the program quits. -/
def Harmless : TypedMap → List Char → List Statement → Prop
  | _, _, [] => True
  | m, stdin, st :: sts =>
    match outcome m stdin st with
    | .wrong => False
    | .exit => True
    | .next m stdin => Harmless m stdin sts

end Safety

section Ownership

/-- The addresses of the strings that are set. -/
def addresses (vs : List Var) : List ℕ :=
  (vs.filter fun v => v.type = .str ∧ v.scnt ≠ 0).map Var.scnt

/-- Every string that is set has its own block. -/
structure Store.Sound (s : Store) : Prop extends s.WellFormed where
  nodup : (Mp.addresses s.varis).Nodup
  allocated : ∀ p ∈ Mp.addresses s.varis, (s.heap.blocks p).isSome

variable {s : Store} {name : String} {v : Var} {vs : List Var} {p : ℕ}

theorem addresses_cons :
    addresses (v :: vs) =
      if v.type = .str ∧ v.scnt ≠ 0 then v.scnt :: addresses vs else addresses vs := by
  rw [addresses, List.filter_cons]
  by_cases h : v.type = .str ∧ v.scnt ≠ 0
  · rw [if_pos (decide_eq_true h), if_pos h]
    rfl
  · rw [if_neg (by simpa using h), if_neg h]
    rfl

theorem lt_next_of_mem_addresses (h : s.Sound) (hp : p ∈ addresses s.varis) : p < s.heap.next := by
  obtain ⟨text, htext⟩ := Option.isSome_iff_exists.mp (h.allocated p hp)
  exact (s.heap.used htext).2

theorem addresses_sublist_cons : (addresses vs).Sublist (addresses (v :: vs)) := by
  rw [addresses_cons]
  split
  · exact List.sublist_cons_self _ _
  · exact List.Sublist.refl _

theorem nodup_addresses_assign (name : String) (hp : p ∉ addresses vs) (h : (addresses vs).Nodup) :
    (addresses (assign name (fun _ => p) vs)).Nodup ∧
      ∀ q ∈ addresses (assign name (fun _ => p) vs), q = p ∨ q ∈ addresses vs := by
  induction vs with
  | nil => exact ⟨h, fun q hq => by cases hq⟩
  | cons v vs ih =>
    have htail : (addresses vs).Nodup := addresses_sublist_cons.nodup h
    have hp' : p ∉ addresses vs := fun hmem => hp (addresses_sublist_cons.subset hmem)
    have hold : ∀ q ∈ addresses vs, q ∈ addresses (v :: vs) :=
      fun q hq => addresses_sublist_cons.subset hq
    rw [assign]
    split
    · rw [addresses_cons]
      split
      · refine ⟨List.nodup_cons.mpr ⟨hp', htail⟩, fun q hq => ?_⟩
        exact (List.mem_cons.mp hq).imp id (hold q)
      · exact ⟨htail, fun q hq => Or.inr (hold q hq)⟩
    · obtain ⟨hnodup, hmem⟩ := ih hp' htail
      rw [addresses_cons]
      split
      · rename_i hv
        have hscnt : v.scnt ∈ addresses (v :: vs) := by
          rw [addresses_cons, if_pos hv]
          exact List.mem_cons_self
        have hnot : v.scnt ∉ addresses vs := by
          rw [addresses_cons, if_pos hv] at h
          exact (List.nodup_cons.mp h).1
        refine ⟨List.nodup_cons.mpr ⟨fun hin => ?_, hnodup⟩, fun q hq => ?_⟩
        · rcases hmem _ hin with heq | hin
          · exact hp (heq ▸ hscnt)
          · exact hnot hin
        · rcases List.mem_cons.mp hq with rfl | hq
          · exact Or.inr hscnt
          · exact (hmem q hq).imp id (hold q)
      · exact ⟨hnodup, fun q hq => (hmem q hq).imp id (hold q)⟩

theorem addresses_assign_of_int (f : ℕ → ℕ)
    (h : ∀ v ∈ vs, v.name = name → v.type = .int) :
    addresses (assign name f vs) = addresses vs := by
  induction vs with
  | nil => rfl
  | cons v vs ih =>
    rw [List.forall_mem_cons] at h
    rw [assign]
    split
    · rename_i hname
      rw [addresses_cons, addresses_cons, h.1 hname]
      rfl
    · rw [addresses_cons, ih h.2, addresses_cons]

theorem Store.Sound.alloc (h : s.Sound) (text : Text) :
    Store.Sound { s with heap := s.heap.alloc text } where
  toWellFormed := h.toWellFormed.alloc text
  nodup := h.nodup
  allocated p hp := by
    rw [Heap.blocks_alloc_of_lt (lt_next_of_mem_addresses h hp)]
    exact h.allocated p hp

theorem Store.Sound.assignInt (h : s.Sound) (hv : findvar s name = some v) (htype : v.type = .int)
    (what : BitVec 32) : Store.Sound { s with varis := assign name (setIcnt what) s.varis } := by
  have hint : ∀ w ∈ s.varis, w.name = name → w.type = .int :=
    fun w hw hname => h.eq_of_name hv hw hname ▸ htype
  have hsame := addresses_assign_of_int (setIcnt what) hint
  constructor
  · have hwf := (h.toWellFormed.setivar name what).1
    rwa [setivar_of_eq hv htype] at hwf
  · rw [hsame]
    exact h.nodup
  · rw [hsame]
    exact h.allocated

theorem Store.Sound.assignString (h : s.Sound) (name : String) (text : Text) :
    Store.Sound ⟨assign name (fun _ => s.heap.next) s.varis, s.heap.alloc text⟩ := by
  have hnew : s.heap.next ∉ addresses s.varis :=
    fun hmem => Nat.lt_irrefl _ (lt_next_of_mem_addresses h hmem)
  obtain ⟨hnodup, hmem⟩ := nodup_addresses_assign name hnew h.nodup
  constructor
  · exact (h.toWellFormed.alloc text).assign fun w _ _ _ => Nat.lt_succ_self _
  · exact hnodup
  · intro p hp
    rcases hmem p hp with rfl | hp
    · rw [Heap.blocks_alloc_next]
      rfl
    · exact (h.alloc text).allocated p hp

theorem Store.Sound.temporary (h : s.Sound) (text : Text) :
    Store.Sound { s with heap := (s.heap.alloc text).erase s.heap.next } where
  names := h.names
  addresses w hw htype := (h.alloc text).addresses w hw htype
  nodup := h.nodup
  allocated p hp := by
    have hlt := lt_next_of_mem_addresses h hp
    rw [Heap.blocks_erase_of_ne (Nat.ne_of_lt hlt)]
    exact (h.alloc text).allocated p hp

theorem Store.Sound.view_temporary (h : s.Sound) (text : Text) :
    Store.view { s with heap := (s.heap.alloc text).erase s.heap.next } = s.view := by
  refine List.map_congr_left fun v hv => ?_
  rcases htype : v.type with _ | _
  · have hlt : v.content < s.heap.next := h.addresses v hv htype
    simp only [Var.entry, htype, Var.scnt, Heap.blocks_erase_of_ne (Nat.ne_of_lt hlt),
      Heap.blocks_alloc_of_lt hlt]
  · simp only [Var.entry, htype]

theorem addresses_append_new (type : VarType) :
    addresses (vs ++ [⟨name, type, 0⟩]) = addresses vs := by
  simp [addresses, Var.scnt]

theorem Store.Sound.newvar (h : s.Sound) (type : VarType) (name : String) :
    (newvar s type name).2.Sound := by
  have hwf := (h.toWellFormed.newvar type name).1
  rw [Mp.newvar] at hwf ⊢
  rcases hv : findvar s name with _ | v <;> rw [hv] at hwf
  · refine ⟨hwf, ?_, ?_⟩
    · rw [addresses_append_new]
      exact h.nodup
    · rw [addresses_append_new]
      exact h.allocated
  · exact h

theorem clean_of_nodup {heap : Heap Text} (h : (addresses vs).Nodup)
    (halloc : ∀ p ∈ addresses vs, (heap.blocks p).isSome) : (clean heap vs).1 = [] := by
  induction vs generalizing heap with
  | nil => rfl
  | cons v vs ih =>
    rw [addresses_cons] at h halloc
    rw [clean]
    split
    · rename_i hv
      rw [if_pos hv, List.nodup_cons] at h
      rw [if_pos hv, List.forall_mem_cons] at halloc
      obtain ⟨text, htext⟩ := Option.isSome_iff_exists.mp halloc.1
      rw [Heap.free_of_blocks htext]
      refine ih h.2 fun p hp => ?_
      have hne : p ≠ v.scnt := fun hp' => h.1 (hp' ▸ hp)
      rw [Heap.blocks_erase_of_ne hne]
      exact halloc.2 p hp
    · rename_i hv
      rw [if_neg hv] at h halloc
      exact ih h halloc

end Ownership

section Simulation

def NoFault (events : List Output) : Prop := ∀ f, Output.fault f ∉ events

/-- A step does what the map says. -/
def Realizes (r : List Output × Option State) : Outcome → Prop
  | .wrong => ¬ NoFault r.1
  | .exit => NoFault r.1 ∧ r.2 = none
  | .next m stdin => NoFault r.1 ∧ ∃ store : Store, r.2 = some ⟨store, stdin⟩ ∧ store.Sound ∧
      store.view = m

variable {s : State} {name : String} {r : List Output × Option State}

@[simp] theorem noFault_nil : NoFault [] := by simp [NoFault]

@[simp] theorem noFault_stderr (texts : List String) : NoFault (texts.map .stderr) := by
  simp [NoFault]

@[simp] theorem not_noFault_append (events : List Output) (f : Fault) :
    ¬ NoFault (events ++ [.fault f]) := by
  intro h
  exact h f (by simp)

theorem numberSize_le (n : ℤ) : numberSize n ≤ (decimal n).length := by
  rw [numberSize, log10]
  split
  · rename_i hpos
    rw [decimal, if_neg (Int.not_lt.mpr hpos.le)]
    by_contra hlt
    push Not at hlt
    have hlog : Nat.log 10 n.toNat ≠ 0 := by
      intro hzero
      have hlen : 0 < (Nat.toDigits 10 n.natAbs).length := Nat.length_toDigits_pos
      omega
    have hlen : (Nat.toDigits 10 n.natAbs).length ≤ Nat.log 10 n.toNat := by omega
    rw [Nat.length_toDigits_le_iff (by decide) (Nat.pos_of_ne_zero hlog)] at hlen
    have hpow : 10 ^ Nat.log 10 n.toNat ≤ n.toNat := Nat.pow_log_le_self 10 (by omega)
    omega
  · omega

theorem fill_numberSize (n : ℤ) : fill (numberSize n) (decimal n) = .error .overflow := by
  have hsize := numberSize_le n
  exact if_neg (by omega)

theorem prexp_retez (s : Store) (text : Text) :
    prexp s (.retez text) = ([], some (some s.heap.next, { s with heap := s.heap.alloc text })) :=
  rfl

theorem prexp_namevar (s : Store) (name : String) :
    prexp s (.namevar name) =
      match getvar s name with
      | (errors, .ok (p, s')) => (errors.map .stderr, some (some p, s'))
      | (errors, .error f) => (errors.map .stderr ++ [.fault f], none) :=
  rfl

theorem prexp_cislo (s : Store) (n : ℕ) : prexp s (.cislo n) = wrong .overflow := by
  rw [prexp.eq_def]
  simp only [fill_numberSize]

theorem realizes_print_retez (h : s.store.Sound) (text : Text) :
    Realizes (step s (.print (.retez text))) (.next s.store.view s.stdin) := by
  have hfree := Heap.free_of_blocks (s.store.heap.blocks_alloc_next text)
  simp only [step, prexp_retez, print, Heap.blocks_alloc_next, hfree, andThen_some, List.append_nil,
    List.nil_append]
  exact ⟨by simp [NoFault], _, rfl, h.temporary text, h.view_temporary text⟩

/-- What printing a variable does for each result of `getvar`. -/
theorem realizes_print_ok (h : s.store.Sound) {text : Text}
    (htext : (getvarText s.store name).2 = .ok text) :
    Realizes (step s (.print (.namevar name))) (.next s.store.view s.stdin) := by
  have hfree := Heap.free_of_blocks (s.store.heap.blocks_alloc_next text)
  simp only [step, prexp_namevar, getvar, htext, Except.map, print, Heap.blocks_alloc_next, hfree,
    andThen_some, List.append_nil]
  exact ⟨by simp [NoFault], _, rfl, h.temporary text, h.view_temporary text⟩

theorem realizes_print_error {f : Fault} (htext : (getvarText s.store name).2 = .error f) :
    Realizes (step s (.print (.namevar name))) .wrong := by
  simp only [step, prexp_namevar, getvar, htext, Except.map, andThen_none]
  exact not_noFault_append _ f

theorem realizes_print_namevar (h : s.store.Sound) (name : String) :
    Realizes (step s (.print (.namevar name)))
      (outcome s.store.view s.stdin (.print (.namevar name))) := by
  have htext := getvarText_eq s.store name
  rw [outcome]
  generalize s.store.view.get name = entry at htext ⊢
  rcases entry with _ | n | _ | text
  · exact realizes_print_ok h htext
  · have hshort : (decimal n.toInt).length ≤ 127 := (length_decimal_le n).trans (by decide)
    exact realizes_print_ok h (htext.trans (fill_of_le hshort))
  · exact realizes_print_error htext
  · dsimp only at htext ⊢
    split
    · rename_i hshort
      exact realizes_print_ok h (htext.trans (fill_of_le hshort))
    · rename_i hlong
      exact realizes_print_error (htext.trans (fill_of_not_le hlong))

theorem realizes_setInt (h : s.store.Sound) (name : String) (n : ℕ) :
    Realizes (step s (.setInt name n)) (outcome s.store.view s.stdin (.setInt name n)) := by
  have hset := (h.toWellFormed.setivar name (toInt n)).2
  refine ⟨noFault_stderr _, _, rfl, ?_, hset⟩
  by_cases hne : ∀ v, findvar s.store name = some v → v.type ≠ .int
  · rw [setivar_of_ne hne]
    exact h
  · push Not at hne
    obtain ⟨v, hv, htype⟩ := hne
    rw [setivar_of_eq hv htype]
    exact h.assignInt hv htype _

theorem view_setsvar_alloc (h : s.store.Sound) (name : String) (text : Text) :
    (setsvar ⟨s.store.varis, s.store.heap.alloc text⟩ name s.store.heap.next).2.view =
      s.store.view.set name (.str (some text)) := by
  rw [← h.toWellFormed.view_alloc text]
  exact ((h.alloc text).toWellFormed.setsvar name (Heap.blocks_alloc_next _ _)).2

theorem realizes_setString (h : s.store.Sound) (name : String) (text : Text) :
    Realizes (step s (.setString name text))
      (outcome s.store.view s.stdin (.setString name text)) := by
  refine ⟨noFault_stderr _, _, rfl, ?_, view_setsvar_alloc h name text⟩
  by_cases hne : ∀ v, findvar { s.store with heap := s.store.heap.alloc text } name = some v →
      v.type ≠ .str
  · rw [setsvar_of_ne hne]
    exact h.alloc text
  · push Not at hne
    obtain ⟨v, hv, htype⟩ := hne
    rw [setsvar_of_eq hv htype]
    exact h.assignString name text

theorem realizes_read (h : s.store.Sound) (name : String) :
    Realizes (step s (.read name)) (outcome s.store.view s.stdin (.read name)) := by
  rw [step, readvar, outcome, get_view]
  rcases hv : findvar s.store name with _ | v
  · exact not_noFault_append [] .nullVariable
  · dsimp only [Option.map_some, Var.entry]
    rcases htype : v.type with _ | _
    · dsimp only
      generalize (scanfString s.stdin).1.getD [] = text
      by_cases hshort : text.length ≤ 127
      · have hset := view_setsvar_alloc h name text
        have hv' : findvar ⟨s.store.varis, s.store.heap.alloc text⟩ name = some v := hv
        rw [setsvar_of_eq hv' htype] at hset
        rw [fill_of_le hshort, if_pos hshort]
        exact ⟨by simp, _, rfl, h.assignString name text, hset⟩
      · rw [fill_of_not_le hshort, if_neg hshort]
        exact not_noFault_append [] .overflow
    · dsimp only
      rcases scanfInt s.stdin with ⟨_ | n, rest⟩
      · exact ⟨by simp, s.store, rfl, h, rfl⟩
      · have hset := (h.toWellFormed.setivar name n).2
        rw [setivar_of_eq hv htype] at hset
        exact ⟨by simp, _, rfl, h.assignInt hv htype n, hset⟩

theorem realizes_step (h : s.store.Sound) (st : Statement) :
    Realizes (step s st) (outcome s.store.view s.stdin st) := by
  cases st with
  | quit => exact ⟨by simp [step], rfl⟩
  | help => exact ⟨by simp [step, NoFault], s.store, rfl, h, rfl⟩
  | print e =>
    cases e with
    | empty => exact not_noFault_append [.printed []] .badFree
    | cislo n =>
      simp only [step, prexp_cislo]
      exact not_noFault_append [] .overflow
    | retez text => exact realizes_print_retez h text
    | namevar name => exact realizes_print_namevar h name
  | declare type name =>
    exact ⟨noFault_stderr _, _, rfl, h.newvar type name, (h.toWellFormed.newvar type name).2⟩
  | setInt name n => exact realizes_setInt h name n
  | setString name text => exact realizes_setString h name text
  | read name => exact realizes_read h name
  | run command => exact ⟨by simp [step, NoFault], s.store, rfl, h, rfl⟩

theorem noFault_append {events events' : List Output} :
    NoFault (events ++ events') ↔ NoFault events ∧ NoFault events' := by
  simp only [NoFault, List.mem_append, not_or, forall_and]

/-- From any state, a program goes wrong exactly if the map says so. -/
theorem noFault_run_iff (h : s.store.Sound) (sts : List Statement) :
    NoFault (andThen (Process.run step s sts) fun s => clean s.store.heap s.store.varis).1 ↔
      Harmless s.store.view s.stdin sts := by
  induction sts generalizing s with
  | nil =>
    rw [run_nil, andThen_some, clean_of_nodup h.nodup h.allocated]
    exact iff_of_true noFault_nil trivial
  | cons st sts ih =>
    have hstep := realizes_step h st
    rw [run_cons, andThen_assoc, Harmless]
    generalize outcome s.store.view s.stdin st = o at hstep ⊢
    rcases o with _ | _ | ⟨m, stdin⟩
    · refine iff_of_false (fun hno => ?_) id
      exact hstep fun f hf => hno f (mem_andThen_of_mem hf _)
    · obtain ⟨hno, hnone⟩ := hstep
      rcases hr : step s st with ⟨events, _ | s'⟩ <;> rw [hr] at hno hnone
      · exact iff_of_true hno trivial
      · cases hnone
    · obtain ⟨hno, store, hstore, hsound, rfl⟩ := hstep
      rcases hr : step s st with ⟨events, _ | s'⟩ <;> rw [hr] at hno hstore
      · cases hstore
      · obtain rfl := Option.some.inj hstore
        rw [andThen_some, noFault_append, and_iff_right hno]
        exact ih hsound

end Simulation

/-- No action goes wrong in exactly the programs that are harmless with their input. -/
theorem safe_iff_harmless {ts : List Token} {sts : List Statement} (h : Input ts sts)
    (stdin : List Char) : Safe ts stdin ↔ Harmless [] stdin sts := by
  have hempty : Store.empty.Sound := ⟨wellFormed_empty, List.nodup_nil, fun p hp => by cases hp⟩
  have hrun : NoFault (execute sts stdin).1 ↔ Harmless [] stdin sts :=
    noFault_run_iff (s := ⟨.empty, stdin⟩) hempty sts
  rw [← hrun]
  constructor
  · exact fun hsafe => hsafe sts h
  · rintro hno sts' h'
    rw [← h.unique h']
    exact hno

/-- The program `str $t; g($t); p $t;`. -/
def echo : List Token :=
  [.STR, .namevar "t", .semicolon, .g, .lbr, .namevar "t", .rbr, .semicolon,
    .p, .namevar "t", .semicolon]

theorem input_echo :
    Input echo [.declare .str "t", .read "t", .print (.namevar "t")] :=
  .statement (.declare .str "t") true true (.statement (.read "t") true true
    (.statement (.print (.namevar "t")) false false .empty))

theorem safe_echo :
    Input echo [.declare .str "t", .read "t", .print (.namevar "t")] ∧
      Safe echo ['\n', 'h', 'i', ' '] := by
  refine ⟨input_echo, (safe_iff_harmless input_echo _).mpr ?_⟩
  trivial

/-- The program `p(5);`. -/
def printFive : List Token := [.p, .lbr, .cislo 5, .rbr, .semicolon]

theorem not_safe_printFive :
    Input printFive [.print (.cislo 5)] ∧ ¬ Safe printFive [] := by
  have h : Input printFive [.print (.cislo 5)] :=
    .statement (.print (.cislo 5)) true true .empty
  refine ⟨h, fun hsafe => ?_⟩
  exact hsafe _ h .overflow (by decide)

end CollectedSources.Mp
