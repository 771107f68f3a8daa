import CollectedSources.Machine.Scanner

/-! # The lexer of asm_filter

The lexer copies its input and rewrites the templates of `asm` statements. Its
state is a start condition, a counter of open parentheses that wraps at 32
bits, and the template read so far, in a buffer of 1000 bytes.
-/

namespace CollectedSources.AsmFilter

inductive Start | initial | asmTempl | asmTemplStr | asmRest
  deriving DecidableEq, Repr

structure Lexer where
  start : Start
  paren : UInt32
  string : List Char
  deriving DecidableEq, Repr

def Lexer.init : Lexer := ⟨.initial, 0, []⟩

def isBlank (c : Char) : Bool := c == ' ' || c == '\t'

/-- The longest match of the pattern that opens an `asm` statement, and the text after it. -/
def matchAsm : List Char → Option (List Char × List Char)
  | 'a' :: 's' :: 'm' :: t =>
    match t.dropWhile isBlank with
    | '(' :: rest => some ('a' :: 's' :: 'm' :: t.takeWhile isBlank ++ ['('], rest)
    | 'v' :: 'o' :: 'l' :: 'a' :: 't' :: 'i' :: 'l' :: 'e' :: u =>
      match u.dropWhile isBlank with
      | '(' :: rest =>
        some ('a' :: 's' :: 'm' :: t.takeWhile isBlank ++
          ('v' :: 'o' :: 'l' :: 'a' :: 't' :: 'i' :: 'l' :: 'e' :: u.takeWhile isBlank) ++ ['('],
          rest)
      | _ => none
    | _ => none
  | _ => none

/-- The loop of `print_string`. -/
def rewrite : List Char → List Char
  | [] => []
  | '%' :: 'P' :: d :: s =>
    if '0' ≤ d ∧ d ≤ '9' then '%' :: 'p' :: d :: rewrite s else '%' :: rewrite ('P' :: d :: s)
  | c :: s => c :: rewrite s

def printString (string : List Char) : List Char := '"' :: rewrite string ++ ['"']

/-- Append to the template; nothing is defined past the end of its buffer. -/
def strcat (string yytext : List Char) : Option (List Char) :=
  let string' := string ++ yytext.takeWhile (· ≠ '\x00')
  if string'.length < 1000 then some string' else none

/-- The action of the rule that matches at the head of the input. -/
def step (l : Lexer) (c : Char) (s : List Char) : Option (Lexer × List Char × List Char) :=
  match l.start with
  | .initial =>
    match matchAsm (c :: s) with
    | some (yytext, rest) => some ({ l with start := .asmTempl, string := [] }, yytext, rest)
    | none => some (l, [c], s)
  | .asmTempl =>
    if c = '"' then some ({ l with start := .asmTemplStr }, [], s)
    else if c = ':' then
      some ({ l with start := .asmRest, string := [] }, printString l.string ++ [' ', ':'], s)
    else if c = ')' then
      some ({ l with start := .initial, string := [] }, printString l.string ++ [')'], s)
    else if isBlank c then some (l, [], s)
    else some (l, [c], s)
  | .asmTemplStr =>
    if c = '\\' ∧ s.head? = some '"' then
      (strcat l.string ['\\', '"']).map fun string => ({ l with string := string }, [], s.tail)
    else if c = '"' then some ({ l with start := .asmTempl }, [], s)
    else if c = '\n' then some (l, [c], s)
    else (strcat l.string [c]).map fun string => ({ l with string := string }, [], s)
  | .asmRest =>
    if c = '(' then some ({ l with paren := l.paren + 1 }, [c], s)
    else if c = ')' then
      some ({ l with start := if l.paren = 0 then .initial else l.start, paren := l.paren - 1 },
        [c], s)
    else some (l, [c], s)

/-- The texts matched by the pattern that opens an `asm` statement. -/
def Opening (w : List Char) : Prop :=
  ∃ b, b.all isBlank ∧ (w = ['a', 's', 'm'] ++ b ++ ['('] ∨
    ∃ b', b'.all isBlank ∧
      w = ['a', 's', 'm'] ++ b ++ ['v', 'o', 'l', 'a', 't', 'i', 'l', 'e'] ++ b' ++ ['('])

theorem matchAsm_sound {s w rest : List Char} (h : matchAsm s = some (w, rest)) :
    Opening w ∧ s = w ++ rest := by
  unfold matchAsm at h
  split at h
  · rename_i t
    have ht := List.takeWhile_append_dropWhile (p := isBlank) (l := t)
    split at h
    · rename_i u hu
      obtain ⟨rfl, rfl⟩ := Prod.mk.inj (Option.some.inj h)
      refine ⟨⟨t.takeWhile isBlank, by simp, Or.inl (by simp)⟩, ?_⟩
      rw [hu] at ht
      simp [ht]
    · rename_i u hu
      have hv := List.takeWhile_append_dropWhile (p := isBlank) (l := u)
      split at h
      · rename_i v hv'
        obtain ⟨rfl, rfl⟩ := Prod.mk.inj (Option.some.inj h)
        refine ⟨⟨t.takeWhile isBlank, by simp, Or.inr ⟨u.takeWhile isBlank, by simp, by simp⟩⟩, ?_⟩
        rw [hv'] at hv
        rw [hu, ← hv] at ht
        conv_lhs => rw [← ht]
        simp
      · simp at h
    · simp at h
  · simp at h

theorem matchAsm_complete {w : List Char} (h : Opening w) (rest : List Char) :
    matchAsm (w ++ rest) = some (w, rest) := by
  have hp : isBlank '(' = false := rfl
  have hv : isBlank 'v' = false := rfl
  obtain ⟨b, hb, rfl | ⟨b', hb', rfl⟩⟩ := h
  · have hb := List.all_eq_true.mp hb
    simp [matchAsm, List.takeWhile_append_of_pos hb, List.dropWhile_append_of_pos hb,
      hp]
  · have hb := List.all_eq_true.mp hb
    have hb' := List.all_eq_true.mp hb'
    simp [matchAsm, List.takeWhile_append_of_pos hb, List.dropWhile_append_of_pos hb,
      List.takeWhile_append_of_pos hb', List.dropWhile_append_of_pos hb',
      hp, hv]

theorem Opening.ne_nil {w : List Char} (h : Opening w) : w ≠ [] := by
  obtain ⟨b, _, rfl | ⟨b', _, rfl⟩⟩ := h <;> simp

theorem step_length {l l' : Lexer} {c : Char} {s out rest : List Char}
    (h : step l c s = some (l', out, rest)) : rest.length ≤ s.length := by
  unfold step at h
  split at h
  · split at h
    · rename_i w r hm
      obtain ⟨ho, he⟩ := matchAsm_sound hm
      have hl := congrArg List.length he
      have hw := List.length_pos_iff.mpr ho.ne_nil
      obtain ⟨_, _, rfl⟩ := by simpa using h
      simp at hl
      omega
    · obtain ⟨_, _, rfl⟩ := by simpa using h
      exact Nat.le_refl _
  · split_ifs at h <;> simp at h <;> simp [← h.2.2]
  · split_ifs at h <;> simp [Option.map_eq_some_iff] at h
    · obtain ⟨_, _, _, _, rfl⟩ := h
      simp
    · simp [← h.2.2]
    · simp [← h.2.2]
    · obtain ⟨_, _, _, _, rfl⟩ := h
      exact Nat.le_refl _
  · split_ifs at h <;> simp at h <;> simp [← h.2.2]

def lexer : Scanner Lexer Char Char where
  step := step
  step_length := step_length

/-- The output of the filter, if no template overflows its buffer. -/
def asmFilter (s : List Char) : Option (List Char) := (lexer.run .init s).map Prod.snd

theorem run_step {l l' : Lexer} {c : Char} {s out rest : List Char}
    (h : step l c s = some (l', out, rest)) :
    lexer.run l (c :: s) = (lexer.run l' rest).map (Scanner.emit out) := by
  rw [Scanner.run_cons, show lexer.step = step from rfl, h, Option.bind_some]

/-- A state that no statement leaves behind when its operand section has been counted right. -/
def Tainted (l : Lexer) : Prop := l.start = .asmRest ∨ l.paren = 0 - 1

theorem step_tainted {l l' : Lexer} {c : Char} {s out rest : List Char}
    (h : step l c s = some (l', out, rest)) (ht : Tainted l) : Tainted l' := by
  obtain ⟨start, paren, string⟩ := l
  cases start <;> simp only [step] at h
  · have hp : paren = 0 - 1 := by simpa [Tainted] using ht
    split at h <;> obtain ⟨rfl, _, _⟩ := by simpa using h
    · exact Or.inr hp
    · exact ht
  · have hp : paren = 0 - 1 := by simpa [Tainted] using ht
    split_ifs at h <;> obtain ⟨rfl, _, _⟩ := by simpa using h
    · exact Or.inr hp
    · exact Or.inl rfl
    · exact Or.inr hp
    · exact ht
    · exact ht
  · have hp : paren = 0 - 1 := by simpa [Tainted] using ht
    split_ifs at h
    · obtain ⟨_, _, he⟩ := Option.map_eq_some_iff.mp h
      obtain ⟨rfl, _, _⟩ := by simpa using he
      exact Or.inr hp
    · obtain ⟨rfl, _, _⟩ := by simpa using h
      exact Or.inr hp
    · obtain ⟨rfl, _, _⟩ := by simpa using h
      exact ht
    · obtain ⟨_, _, he⟩ := Option.map_eq_some_iff.mp h
      obtain ⟨rfl, _, _⟩ := by simpa using he
      exact Or.inr hp
  · split_ifs at h with h₁ h₂ h₃ <;> obtain ⟨rfl, _, _⟩ := by simpa using h
    · exact Or.inl rfl
    · exact Or.inr (by rw [h₃])
    · exact Or.inl rfl
    · exact Or.inl rfl

theorem run_tainted {l l' : Lexer} {s out : List Char} (h : lexer.run l s = some (l', out))
    (ht : Tainted l) : Tainted l' :=
  (Scanner.reads_of_run h).invariant step_tainted ht

end CollectedSources.AsmFilter
