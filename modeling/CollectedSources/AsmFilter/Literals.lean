import CollectedSources.AsmFilter.Statements
import Mathlib

/-! # The literals of a template

In a C string literal a backslash makes an escape with whatever follows it. The
lexer knows the escaped quote only, so a quote ends a literal for it unless a
backslash stands before it. It reads the template of a statement as C does if
no literal ends in a backslash.
-/

namespace CollectedSources.AsmFilter

open Scanner

section Definitions

/-- The text between the quotes of a literal, with escapes of any characters. -/
inductive Contents : List Char → Prop where
  | nil : Contents []
  | plain {c : Char} {s : List Char} : c ≠ '"' → c ≠ '\\' → c ≠ '\n' → Contents s →
      Contents (c :: s)
  | escape (c : Char) {s : List Char} : Contents s → Contents ('\\' :: c :: s)

inductive Part where
  | separator (c : Char) (h : isBlank c ∨ c = '\n')
  | literal (s : List Char) (h : Contents s)

def Part.render : Part → List Char
  | separator c _ => [c]
  | literal s _ => '"' :: s ++ ['"']

def Part.contents : Part → List Char
  | separator _ _ => []
  | literal s _ => s

/-- The beginning of a statement, up to the end of its template. -/
structure Template where
  opening : List Char
  isOpening : Opening opening
  parts : List Part

/-- After every literal, and so at the end, the lexer is between the literals, and has stored what
stands in those before. -/
def Template.Recognised (t : Template) : Prop :=
  ∀ p str parts, parts <+: t.parts → ∃ out, ∀ rest,
    lexer.run ⟨.initial, p, str⟩ (t.opening ++ parts.flatMap Part.render ++ rest) =
      (lexer.run ⟨.asmTempl, p, parts.flatMap Part.contents⟩ rest).map (emit out)

/-- No literal ends in a backslash or has a newline or a zero, and all fit the buffer. -/
def Template.Plain (t : Template) : Prop :=
  (∀ s h, .literal s h ∈ t.parts → s.getLast? ≠ some '\\' ∧ '\n' ∉ s ∧ '\x00' ∉ s) ∧
    (t.parts.flatMap Part.contents).length < 1000

end Definitions

section Reading

variable {p : UInt32} {str s : List Char} {c : Char}

/-- What `strcat` stores of some text. -/
def kept (s : List Char) : List Char := s.filter fun c => c ≠ '\n' ∧ c ≠ '\x00'

def newlines (s : List Char) : List Char := s.filter (· = '\n')

/-- The state after a literal. -/
def literalEnd (p : UInt32) (str s : List Char) : Lexer :=
  if s.getLast? = some '\\' then ⟨.asmTemplStr, p, str ++ kept s ++ ['"']⟩
  else ⟨.asmTempl, p, str ++ kept s⟩

theorem run_char (hstr : str.length < 1000) (hquote : c ≠ '"')
    (hescape : c = '\\' → s.head? ≠ some '"') :
    lexer.run ⟨.asmTemplStr, p, str⟩ (c :: s) =
      if (str ++ kept [c]).length < 1000 then
        (lexer.run ⟨.asmTemplStr, p, str ++ kept [c]⟩ s).map (emit (newlines [c]))
      else none := by
  have hnot : ¬ (c = '\\' ∧ s.head? = some '"') := fun h => hescape h.1 h.2
  by_cases hnewline : c = '\n'
  · subst hnewline
    have hstep : step ⟨.asmTemplStr, p, str⟩ '\n' s = some (⟨.asmTemplStr, p, str⟩, ['\n'], s) := by
      simp [step]
    rw [run_step hstep]
    simp [kept, newlines, hstr]
  · have hstep : step ⟨.asmTemplStr, p, str⟩ c s = (strcat str [c]).map
        fun string => (⟨.asmTemplStr, p, string⟩, [], s) := by
      simp only [step, hnot, hquote, hnewline, if_false]
    have htake : [c].takeWhile (· ≠ '\x00') = kept [c] := by
      by_cases hzero : c = '\x00'
      · simp [kept, hzero]
      · simp [kept, hzero, hnewline]
    have hout : newlines [c] = [] := by simp [newlines, hnewline]
    rw [Scanner.run_cons, show lexer.step = step from rfl, hstep, strcat, htake, hout]
    split_ifs <;> simp

theorem Contents.head?_ne (h : Contents s) : s.head? ≠ some '"' := by
  cases h <;> simp_all

theorem kept_append (s t : List Char) : kept (s ++ t) = kept s ++ kept t := List.filter_append ..

theorem newlines_append (s t : List Char) : newlines (s ++ t) = newlines s ++ newlines t :=
  List.filter_append ..

theorem literalEnd_append {t : List Char} (h : s = [] → t.getLast? ≠ some '\\') :
    literalEnd p str (t ++ s) = literalEnd p (str ++ kept t) s := by
  have hlast : (t ++ s).getLast? = some '\\' ↔ s.getLast? = some '\\' := by
    by_cases hs : s = []
    · subst hs
      simp [h rfl]
    · rw [List.getLast?_append_of_ne_nil _ hs]
  unfold literalEnd
  simp only [hlast, kept_append, List.append_assoc]

theorem length_le_literalEnd (p : UInt32) (str s : List Char) :
    str.length ≤ (literalEnd p str s).string.length := by
  unfold literalEnd
  split_ifs <;> simp

/-- The lexer gets to the end of a literal if what it stores of it fits the buffer. -/
def ReadsLiteral (p : UInt32) (str s : List Char) : Prop :=
  str.length < 1000 → ∀ rest, lexer.run ⟨.asmTemplStr, p, str⟩ (s ++ '"' :: rest) =
    if (literalEnd p str s).string.length < 1000 then
      (lexer.run (literalEnd p str s) rest).map (emit (newlines s))
    else none

theorem readsLiteral_nil : ReadsLiteral p str [] := by
  intro hstr rest
  have hstep : step ⟨.asmTemplStr, p, str⟩ '"' rest = some (⟨.asmTempl, p, str⟩, [], rest) := by
    simp [step]
  have hend : literalEnd p str [] = ⟨.asmTempl, p, str⟩ := by simp [literalEnd, kept]
  rw [List.nil_append, run_step hstep, hend, if_pos hstr]
  rfl

theorem ReadsLiteral.append {t : List Char} (h : ReadsLiteral p (str ++ kept t) s)
    (hlast : s = [] → t.getLast? ≠ some '\\')
    (hread : str.length < 1000 → ∀ rest,
      lexer.run ⟨.asmTemplStr, p, str⟩ (t ++ (s ++ '"' :: rest)) =
        if (str ++ kept t).length < 1000 then
          (lexer.run ⟨.asmTemplStr, p, str ++ kept t⟩ (s ++ '"' :: rest)).map (emit (newlines t))
        else none) : ReadsLiteral p str (t ++ s) := by
  intro hstr rest
  rw [List.append_assoc, hread hstr, literalEnd_append hlast]
  by_cases hfits : (str ++ kept t).length < 1000
  · rw [if_pos hfits, h hfits, newlines_append]
    split_ifs <;> simp
  · have hle := length_le_literalEnd p (str ++ kept t) s
    rw [if_neg hfits, if_neg (by omega)]

theorem ReadsLiteral.cons (h : ReadsLiteral p (str ++ kept [c]) s) (hquote : c ≠ '"')
    (hescape : c = '\\' → s ≠ [] ∧ s.head? ≠ some '"') : ReadsLiteral p str (c :: s) := by
  refine ReadsLiteral.append (t := [c]) h ?_ fun hstr rest => run_char hstr hquote fun hc => ?_
  · intro hs hc
    exact (hescape (by simpa using hc)).1 hs
  · obtain ⟨hs, hhead⟩ := hescape hc
    change (s ++ '"' :: rest).head? ≠ some '"'
    rwa [List.head?_append_of_ne_nil _ hs]

theorem readsLiteral_backslash : ReadsLiteral p str ['\\', '\\'] := by
  intro hstr rest
  have hend : literalEnd p str ['\\', '\\'] = ⟨.asmTemplStr, p, str ++ ['\\', '\\', '"']⟩ := by
    simp [literalEnd, kept]
  have hkept : kept ['\\'] = ['\\'] := rfl
  rw [List.cons_append, run_char hstr (by decide) (by simp), hkept, List.cons_append,
    List.nil_append, run_strcat_quote, hend]
  simp only [List.length_append, List.length_cons, List.length_nil, List.append_assoc,
    List.cons_append, List.nil_append, newlines]
  split_ifs
  · simp
  · rfl
  · omega
  · rfl

theorem Contents.readsLiteral (h : Contents s) : ReadsLiteral p str s := by
  induction h generalizing str with
  | nil => exact readsLiteral_nil
  | plain hquote hback _ _ ih => exact ih.cons hquote fun hc => absurd hc hback
  | @escape c s hs ih =>
    by_cases hquote : c = '"'
    · subst hquote
      refine ReadsLiteral.append (t := ['\\', '"']) ih (by simp) fun _ rest => ?_
      have hread := @run_strcat_quote p str (s ++ '"' :: rest)
      simpa [kept, newlines] using hread
    · by_cases hlast : c = '\\' ∧ s = []
      · obtain ⟨rfl, rfl⟩ := hlast
        exact readsLiteral_backslash
      · have hrest : ReadsLiteral p (str ++ kept ['\\']) (c :: s) :=
          ReadsLiteral.cons ih hquote fun hc => ⟨fun hs => hlast ⟨hc, hs⟩, hs.head?_ne⟩
        exact hrest.cons (by decide) fun _ => ⟨by simp, by simpa using hquote⟩

end Reading

section Templates

variable {p : UInt32} {str s : List Char} {parts : List Part} {t : Template}

theorem kept_eq_self_iff : kept s = s ↔ '\n' ∉ s ∧ '\x00' ∉ s := by
  unfold kept
  rw [List.filter_eq_self]
  simp only [decide_eq_true_eq]
  constructor
  · exact fun h => ⟨fun hc => (h _ hc).1 rfl, fun hc => (h _ hc).2 rfl⟩
  · rintro ⟨hnewline, hzero⟩ c hc
    exact ⟨fun heq => hnewline (heq ▸ hc), fun heq => hzero (heq ▸ hc)⟩

theorem length_lt_of_strcat {yytext string : List Char} (h : strcat str yytext = some string) :
    string.length < 1000 := by
  obtain ⟨hlt, heq⟩ := Option.ite_none_right_eq_some.mp h
  obtain rfl := Option.some.inj heq
  exact hlt

theorem run_fits {l l' : Lexer} {out : List Char} (h : lexer.run l s = some (l', out))
    (hl : l.string.length < 1000) : l'.string.length < 1000 := by
  refine Reads.invariant (I := fun l => l.string.length < 1000)
    (fun {l c s l' out rest} hstep hl => ?_) (reads_of_run h) hl
  obtain ⟨start, paren, string⟩ := l
  cases start <;> simp only [lexer, step] at hstep
  · split at hstep <;> obtain ⟨rfl, -, -⟩ := by simpa using hstep
    · simp
    · exact hl
  · split_ifs at hstep <;> obtain ⟨rfl, -, -⟩ := by simpa using hstep
    all_goals first | exact hl | simp
  · split_ifs at hstep
    · obtain ⟨string', hcat, heq⟩ := Option.map_eq_some_iff.mp hstep
      obtain ⟨rfl, -, -⟩ := by simpa using heq
      exact length_lt_of_strcat hcat
    · obtain ⟨rfl, -, -⟩ := by simpa using hstep
      exact hl
    · obtain ⟨rfl, -, -⟩ := by simpa using hstep
      exact hl
    · obtain ⟨string', hcat, heq⟩ := Option.map_eq_some_iff.mp hstep
      obtain ⟨rfl, -, -⟩ := by simpa using heq
      exact length_lt_of_strcat hcat
  · split_ifs at hstep <;> obtain ⟨rfl, -, -⟩ := by simpa using hstep
    all_goals exact hl

theorem run_initial {w : List Char} (h : Opening w) (rest : List Char) :
    lexer.run ⟨.initial, p, str⟩ (w ++ rest) =
      (lexer.run ⟨.asmTempl, p, []⟩ rest).map (emit w) := by
  obtain ⟨c, w, rfl⟩ := List.exists_cons_of_ne_nil h.ne_nil
  have hmatch : matchAsm (c :: (w ++ rest)) = some (c :: w, rest) := matchAsm_complete h rest
  have hstep : step ⟨.initial, p, str⟩ c (w ++ rest) =
      some (⟨.asmTempl, p, []⟩, c :: w, rest) := by simp [step, hmatch]
  exact run_step hstep

theorem run_quote (rest : List Char) :
    lexer.run ⟨.asmTempl, p, str⟩ ('"' :: rest) = lexer.run ⟨.asmTemplStr, p, str⟩ rest := by
  have hstep : step ⟨.asmTempl, p, str⟩ '"' rest = some (⟨.asmTemplStr, p, str⟩, [], rest) := by
    simp [step]
  rw [run_step hstep]
  simp

theorem run_separator {c : Char} (hc : isBlank c ∨ c = '\n') (rest : List Char) :
    lexer.run ⟨.asmTempl, p, str⟩ (c :: rest) =
      (lexer.run ⟨.asmTempl, p, str⟩ rest).map (emit (if isBlank c then [] else [c])) := by
  have hother : c ≠ '"' ∧ c ≠ ':' ∧ c ≠ ')' := by
    refine ⟨?_, ?_, ?_⟩ <;> rintro rfl <;> exact absurd hc (by decide)
  have hstep : step ⟨.asmTempl, p, str⟩ c rest =
      some (⟨.asmTempl, p, str⟩, if isBlank c then [] else [c], rest) := by
    simp only [step, hother, if_false]
    split_ifs <;> rfl
  exact run_step hstep

theorem run_plain_literal (h : Contents s) (hlast : s.getLast? ≠ some '\\') (hkept : kept s = s)
    (hfits : (str ++ s).length < 1000) (rest : List Char) :
    lexer.run ⟨.asmTempl, p, str⟩ ('"' :: s ++ '"' :: rest) =
      (lexer.run ⟨.asmTempl, p, str ++ s⟩ rest).map (emit (newlines s)) := by
  have hend : literalEnd p str s = ⟨.asmTempl, p, str ++ s⟩ := by
    rw [literalEnd, if_neg hlast, hkept]
  have hstr : str.length < 1000 := by
    rw [List.length_append] at hfits
    omega
  rw [List.cons_append, run_quote, h.readsLiteral hstr, hend, if_pos hfits]

theorem run_parts
    (hparts : ∀ s h, .literal s h ∈ parts → s.getLast? ≠ some '\\' ∧ '\n' ∉ s ∧ '\x00' ∉ s)
    (hfits : (str ++ parts.flatMap Part.contents).length < 1000) :
    ∃ out, ∀ rest, lexer.run ⟨.asmTempl, p, str⟩ (parts.flatMap Part.render ++ rest) =
      (lexer.run ⟨.asmTempl, p, str ++ parts.flatMap Part.contents⟩ rest).map (emit out) := by
  induction parts generalizing str with
  | nil => exact ⟨[], fun rest => by simp⟩
  | cons part parts ih =>
    have hrest : ∀ s h, .literal s h ∈ parts →
        s.getLast? ≠ some '\\' ∧ '\n' ∉ s ∧ '\x00' ∉ s :=
      fun s h hmem => hparts s h (List.mem_cons_of_mem _ hmem)
    cases part with
    | separator c hc =>
      obtain ⟨out, hout⟩ := @ih str hrest hfits
      refine ⟨(if isBlank c then [] else [c]) ++ out, fun rest => ?_⟩
      rw [List.flatMap_cons, Part.render, List.append_assoc, List.singleton_append,
        run_separator hc, hout, Option.map_map, emit_comp_emit]
      rfl
    | literal s h =>
      obtain ⟨hlast, hclean⟩ := hparts s h List.mem_cons_self
      have hfits' : (str ++ s ++ parts.flatMap Part.contents).length < 1000 := by
        rwa [List.append_assoc]
      have hfits'' : (str ++ s).length < 1000 := by
        rw [List.length_append] at hfits'
        omega
      obtain ⟨out, hout⟩ := ih hrest hfits'
      refine ⟨newlines s ++ out, fun rest => ?_⟩
      have hrender : (Part.literal s h :: parts).flatMap Part.render ++ rest =
          '"' :: s ++ '"' :: (parts.flatMap Part.render ++ rest) := by simp [Part.render]
      rw [hrender, run_plain_literal h hlast (kept_eq_self_iff.mpr hclean) hfits'', hout,
        Option.map_map, emit_comp_emit, List.append_assoc]
      rfl

theorem Template.Plain.recognised (h : t.Plain) : t.Recognised := by
  rintro p str parts ⟨parts', heq⟩
  have hfits : ([] ++ parts.flatMap Part.contents).length < 1000 := by
    have hall := h.2
    rw [← heq, List.flatMap_append, List.length_append] at hall
    rw [List.nil_append]
    omega
  obtain ⟨out, hout⟩ := @run_parts p [] parts
    (fun s hs hmem => h.1 s hs (heq ▸ List.mem_append_left _ hmem)) hfits
  refine ⟨t.opening ++ out, fun rest => ?_⟩
  rw [List.append_assoc, run_initial t.isOpening, hout, Option.map_map, emit_comp_emit,
    List.nil_append]

theorem Template.Recognised.run (h : t.Recognised) (hparts : parts <+: t.parts) :
    ∃ out, lexer.run .init (t.opening ++ parts.flatMap Part.render) =
      some (⟨.asmTempl, 0, parts.flatMap Part.contents⟩, out) := by
  obtain ⟨out, hout⟩ := h 0 [] parts hparts
  refine ⟨out, ?_⟩
  have hrun := hout []
  rw [List.append_nil] at hrun
  rw [Lexer.init, hrun]
  simp [emit]

theorem Template.Recognised.fits (h : t.Recognised) (hparts : parts <+: t.parts) :
    (parts.flatMap Part.contents).length < 1000 := by
  obtain ⟨out, hout⟩ := h.run hparts
  exact run_fits hout (by simp [Lexer.init])

theorem Template.Recognised.literal (h : t.Recognised) {hs : Contents s}
    (hmem : .literal s hs ∈ t.parts) :
    s.getLast? ≠ some '\\' ∧ '\n' ∉ s ∧ '\x00' ∉ s := by
  obtain ⟨before, after, heq⟩ := List.append_of_mem hmem
  have hbefore : before <+: t.parts := heq ▸ List.prefix_append _ _
  have hthrough : before ++ [.literal s hs] <+: t.parts := ⟨after, by simp [heq]⟩
  obtain ⟨out, hout⟩ := h 0 [] before hbefore
  obtain ⟨out', hout'⟩ := h.run hthrough
  have hread := hs.readsLiteral (p := 0) (h.fits hbefore) []
  have htext : t.opening ++ (before ++ [Part.literal s hs]).flatMap Part.render =
      t.opening ++ before.flatMap Part.render ++ '"' :: (s ++ ['"']) := by
    simp [Part.render]
  rw [htext, Lexer.init, hout, run_quote, hread] at hout'
  split_ifs at hout' with hfits
  · have hend : literalEnd 0 (before.flatMap Part.contents) s =
        ⟨.asmTempl, 0, before.flatMap Part.contents ++ s⟩ := by
      simpa [emit, Part.contents] using congrArg (Option.map Prod.fst) hout'
    unfold literalEnd at hend
    split at hend
    · cases hend
    · rename_i hlast
      exact ⟨hlast, kept_eq_self_iff.mp (by simpa using hend)⟩
  · simp at hout'

/--
The lexer reads the literals of a template as C does exactly when none of them ends in a backslash
or has a newline or a zero, and their contents fit the buffer.
-/
theorem recognised_iff (t : Template) : t.Recognised ↔ t.Plain :=
  ⟨fun h => ⟨fun _ _ hmem => h.literal hmem, h.fits (List.prefix_refl _)⟩, fun h => h.recognised⟩

/-- The template of `asm("\\" "")`, with a literal that is an escaped backslash. -/
def backslashTemplate : Template where
  opening := ['a', 's', 'm', '(']
  isOpening := opening_asm
  parts := [.literal ['\\', '\\'] (.escape _ .nil), .separator ' ' (by decide), .literal [] .nil]

/-- The lexer stores a quote and a blank, and is inside of a literal at the end. -/
theorem backslashTemplate_misread :
    ¬ backslashTemplate.Recognised ∧
      lexer.run .init (backslashTemplate.opening ++
          backslashTemplate.parts.flatMap Part.render) =
        some (⟨.asmTemplStr, 0, ['\\', '\\', '"', ' ']⟩, ['a', 's', 'm', '(']) := by
  refine ⟨fun h => ?_, by decide⟩
  exact (h.literal (s := ['\\', '\\']) List.mem_cons_self).1 rfl

end Templates

end CollectedSources.AsmFilter
