import Mathlib.Data.List.Infix
import CollectedSources.AsmFilter.Lexer

/-! # Filtering texts with asm statements

Texts are made of ordinary text and of complete `asm` statements. The filter
composes over such a text, and is back in its initial state after each
statement, exactly when no statement has an operand section and every template
fits its buffer.
-/

namespace CollectedSources.AsmFilter

open Scanner

/-- Text that neither contains the opening of a statement nor ends inside one. -/
def NonAsm (t : List Char) : Prop :=
  ∀ u, u <:+ t → u ≠ [] → ∀ w, Opening w → ¬ w <+: u ∧ ¬ u <+: w

/-- The text between the quotes of a C string literal. -/
inductive LiteralText : List Char → Prop where
  | nil : LiteralText []
  | plain {c : Char} {s : List Char} : c ≠ '"' → c ≠ '\\' → c ≠ '\n' → c ≠ '\x00' →
      LiteralText s → LiteralText (c :: s)
  | escape {c : Char} {s : List Char} : c ≠ '\n' → c ≠ '\x00' →
      LiteralText s → LiteralText ('\\' :: c :: s)

inductive TemplPart where
  | space (c : Char) (h : isBlank c ∨ c = '\n')
  | literal (s : List Char) (h : LiteralText s)

/-- The nesting depth after a text, if no parenthesis is closed that was not opened. -/
def parenDepth : List Char → ℕ → Option ℕ
  | [], n => some n
  | c :: s, n =>
    if c = '(' then parenDepth s (n + 1)
    else if c = ')' then if n = 0 then none else parenDepth s (n - 1)
    else parenDepth s n

/-- The operand sections of a statement, from the first colon to the closing parenthesis. -/
structure Operands where
  text : List Char
  balanced : parenDepth text 0 = some 0

structure AsmStatement where
  opening : List Char
  isOpening : Opening opening
  template : List TemplPart
  operands : Option Operands

inductive Item where
  | text (t : List Char) (h : NonAsm t)
  | asm (a : AsmStatement)

def TemplPart.render : TemplPart → List Char
  | space c _ => [c]
  | literal s _ => '"' :: s ++ ['"']

/-- What the lexer appends to the template for a part. -/
def TemplPart.stored : TemplPart → List Char
  | space _ _ => []
  | literal s _ => s

/-- What the lexer copies at once for a part. -/
def TemplPart.echoed : TemplPart → List Char
  | space c _ => if isBlank c then [] else [c]
  | literal _ _ => []

namespace AsmStatement

variable (a : AsmStatement)

def render : List Char :=
  a.opening ++ a.template.flatMap TemplPart.render ++
    (match a.operands with
      | none => []
      | some o => ':' :: o.text) ++ [')']

/-- The concatenated literals of the template. -/
def string : List Char := a.template.flatMap TemplPart.stored

/-- The output for a statement without operand section. -/
def filtered : List Char :=
  a.opening ++ (a.template.flatMap TemplPart.echoed ++ (printString a.string ++ [')']))

/-- No literal of the template ends in an escaped backslash. -/
def NoFinalBackslash : Prop :=
  ∀ s h, TemplPart.literal s h ∈ a.template → s.getLast? ≠ some '\\'

/-- The statement has no operand section and its template fits the buffer. -/
def Closes : Prop := a.operands = none ∧ a.string.length < 1000

end AsmStatement

def Item.render : Item → List Char
  | text t _ => t
  | asm a => a.render

def Item.filtered : Item → List Char
  | text t _ => t
  | asm a => a.filtered

def render (items : List Item) : List Char := items.flatMap Item.render

theorem NonAsm.matchAsm_eq_none {t rest : List Char} (h : NonAsm t) (hn : t ≠ []) :
    matchAsm (t ++ rest) = none := by
  cases hm : matchAsm (t ++ rest) with
  | none => rfl
  | some p =>
    obtain ⟨ho, he⟩ := @matchAsm_sound _ p.1 p.2 hm
    obtain ⟨h₁, h₂⟩ := h t List.suffix_rfl hn p.1 ho
    have hw : p.1 <+: t ++ rest := ⟨p.2, he.symm⟩
    rcases List.prefix_or_prefix_of_prefix hw (List.prefix_append t rest) with hp | hp
    · exact absurd hp h₁
    · exact absurd hp h₂

theorem run_text {t : List Char} (h : NonAsm t) (rest : List Char) :
    lexer.run .init (t ++ rest) = (lexer.run .init rest).map (emit t) := by
  induction t with
  | nil => simp
  | cons c t ih =>
    have hs : step .init c (t ++ rest) = some (.init, [c], t ++ rest) := by
      have hm : matchAsm (c :: (t ++ rest)) = none := h.matchAsm_eq_none (by simp)
      simp [step, Lexer.init, hm]
    have ht : NonAsm t := fun u hu => h u (hu.trans (List.suffix_cons c t))
    rw [List.cons_append, run_step hs, ih ht, Option.map_map, emit_comp_emit]
    rfl

theorem LiteralText.head?_ne {s : List Char} (h : LiteralText s) : s.head? ≠ some '"' := by
  cases h <;> simp_all

variable {p : UInt32} {str : List Char}

theorem run_strcat {c : Char} {s : List Char} (h₀ : c ≠ '\x00') (h₁ : c ≠ '"') (h₂ : c ≠ '\n')
    (h₃ : c = '\\' → s.head? ≠ some '"') :
    lexer.run ⟨.asmTemplStr, p, str⟩ (c :: s) =
      if (str ++ [c]).length < 1000 then lexer.run ⟨.asmTemplStr, p, str ++ [c]⟩ s else none := by
  have hc : ¬ (c = '\\' ∧ s.head? = some '"') := fun h => h₃ h.1 h.2
  have ht : [c].takeWhile (· ≠ '\x00') = [c] := by simp [h₀]
  have hs : step ⟨.asmTemplStr, p, str⟩ c s = (strcat str [c]).map
      fun string => (⟨.asmTemplStr, p, string⟩, [], s) := by
    simp only [step, hc, h₁, h₂, if_false]
  rw [Scanner.run_cons, show lexer.step = step from rfl, hs, strcat, ht]
  split_ifs <;> simp

theorem run_strcat_quote {s : List Char} :
    lexer.run ⟨.asmTemplStr, p, str⟩ ('\\' :: '"' :: s) =
      if (str ++ ['\\', '"']).length < 1000 then
        lexer.run ⟨.asmTemplStr, p, str ++ ['\\', '"']⟩ s
      else none := by
  have hs : step ⟨.asmTemplStr, p, str⟩ '\\' ('"' :: s) = (strcat str ['\\', '"']).map
      fun string => (⟨.asmTemplStr, p, string⟩, [], s) := by
    simp [step]
  rw [Scanner.run_cons, show lexer.step = step from rfl, hs, strcat,
    show ['\\', '"'].takeWhile (· ≠ '\x00') = ['\\', '"'] from rfl]
  split_ifs <;> simp

theorem run_literal {s : List Char} (h : LiteralText s) (hb : s.getLast? ≠ some '\\')
    (hs : str.length < 1000) (rest : List Char) :
    lexer.run ⟨.asmTemplStr, p, str⟩ (s ++ '"' :: rest) =
      if (str ++ s).length < 1000 then lexer.run ⟨.asmTempl, p, str ++ s⟩ rest else none := by
  induction h generalizing str with
  | nil =>
    have hq : step ⟨.asmTemplStr, p, str⟩ '"' rest = some (⟨.asmTempl, p, str⟩, [], rest) := by
      simp [step]
    simp [run_step hq, hs]
  | @plain c s h₁ h₂ h₃ h₄ _ ih =>
    have hb' : s.getLast? ≠ some '\\' := by
      cases s <;> simp_all [List.getLast?_cons_cons]
    rw [List.cons_append, run_strcat h₄ h₁ h₃ (fun h => absurd h h₂)]
    by_cases hl : (str ++ [c]).length < 1000
    · rw [if_pos hl, ih hb' hl, List.append_assoc, List.singleton_append]
    · rw [if_neg hl, if_neg (by simp at hl ⊢; omega)]
  | @escape c s h₁ h₂ hs' ih =>
    have hb' : s.getLast? ≠ some '\\' := by
      cases s <;> simp_all [List.getLast?_cons_cons]
    rw [List.cons_append, List.cons_append]
    by_cases hc : c = '"'
    · subst hc
      rw [run_strcat_quote]
      by_cases hl : (str ++ ['\\', '"']).length < 1000
      · rw [if_pos hl, ih hb' hl, List.append_assoc]
        rfl
      · rw [if_neg hl, if_neg (by simp at hl ⊢; omega)]
    · have hh : c = '\\' → (s ++ '"' :: rest).head? ≠ some '"' := by
        rintro rfl
        have hq := hs'.head?_ne
        cases s <;> simp_all
      rw [run_strcat (by decide) (by decide) (by decide) (by simpa using hc),
        run_strcat h₂ hc h₁ hh]
      by_cases hl : (str ++ ['\\'] ++ [c]).length < 1000
      · rw [if_pos (by simp at hl ⊢; omega), if_pos hl, ih hb' hl, List.append_assoc,
          List.append_assoc]
        rfl
      · rw [if_neg hl, ite_self, if_neg (by simp at hl ⊢; omega)]

theorem run_template {parts : List TemplPart}
    (hb : ∀ s h, TemplPart.literal s h ∈ parts → s.getLast? ≠ some '\\')
    (hs : str.length < 1000) (rest : List Char) :
    lexer.run ⟨.asmTempl, p, str⟩ (parts.flatMap TemplPart.render ++ rest) =
      if (str ++ parts.flatMap TemplPart.stored).length < 1000 then
        (lexer.run ⟨.asmTempl, p, str ++ parts.flatMap TemplPart.stored⟩ rest).map
          (emit (parts.flatMap TemplPart.echoed))
      else none := by
  induction parts generalizing str with
  | nil => simp [hs]
  | cons part parts ih =>
    have hb' := fun s h hm => hb s h (List.mem_cons_of_mem part hm)
    cases part with
    | space c hc =>
      have hst : step ⟨.asmTempl, p, str⟩ c (parts.flatMap TemplPart.render ++ rest) =
          some (⟨.asmTempl, p, str⟩, (TemplPart.space c hc).echoed,
            parts.flatMap TemplPart.render ++ rest) := by
        have hq : c ≠ '"' ∧ c ≠ ':' ∧ c ≠ ')' := by
          refine ⟨?_, ?_, ?_⟩ <;> rintro rfl <;> exact absurd hc (by decide)
        simp only [step, hq, TemplPart.echoed, if_false]
        split_ifs <;> rfl
      simp only [List.flatMap_cons, TemplPart.render, List.cons_append, List.nil_append,
        TemplPart.stored]
      rw [run_step hst, ih hb' hs]
      split_ifs <;> simp
    | literal s h =>
      have hst : step ⟨.asmTempl, p, str⟩ '"'
          (s ++ '"' :: (parts.flatMap TemplPart.render ++ rest)) =
          some (⟨.asmTemplStr, p, str⟩, [],
            s ++ '"' :: (parts.flatMap TemplPart.render ++ rest)) := by simp [step]
      have hl := run_literal (p := p) h (hb s h List.mem_cons_self) hs
        (parts.flatMap TemplPart.render ++ rest)
      simp only [List.flatMap_cons, TemplPart.render, List.cons_append, List.append_assoc,
        TemplPart.stored, TemplPart.echoed, List.nil_append, List.length_append]
      rw [run_step hst, hl]
      by_cases hf : (str ++ s).length < 1000
      · rw [if_pos hf, ih hb' hf]
        simp
      · rw [if_neg hf, if_neg (by simp at hf; omega)]
        rfl

theorem run_opening {w : List Char} (h : Opening w) (rest : List Char) :
    lexer.run .init (w ++ rest) = (lexer.run ⟨.asmTempl, 0, []⟩ rest).map (emit w) := by
  cases w with
  | nil => exact absurd rfl h.ne_nil
  | cons c w =>
    have hs : step .init c (w ++ rest) = some (⟨.asmTempl, 0, []⟩, c :: w, rest) := by
      have hm : matchAsm (c :: (w ++ rest)) = some (c :: w, rest) := matchAsm_complete h rest
      simp [step, Lexer.init, hm]
    exact run_step hs

variable {a : AsmStatement}

theorem run_closed (hb : a.NoFinalBackslash) (ho : a.operands = none) (rest : List Char) :
    lexer.run .init (a.render ++ rest) =
      if a.string.length < 1000 then (lexer.run .init rest).map (emit a.filtered) else none := by
  have hs : step ⟨.asmTempl, 0, a.string⟩ ')' rest =
      some (.init, printString a.string ++ [')'], rest) := by
    simp [step, Lexer.init]
  simp only [AsmStatement.render, ho, List.append_nil, List.append_assoc]
  rw [run_opening a.isOpening, run_template hb (by simp), List.nil_append,
    show a.template.flatMap TemplPart.stored = a.string from rfl, List.singleton_append,
    run_step hs]
  split_ifs
  · simp [AsmStatement.filtered]
  · rfl

theorem run_operands {o : Operands} (hb : a.NoFinalBackslash) (ho : a.operands = some o)
    (rest : List Char) : ∃ out, lexer.run .init (a.render ++ rest) =
      if a.string.length < 1000 then
        (lexer.run ⟨.asmRest, 0, []⟩ (o.text ++ ')' :: rest)).map (emit out)
      else none := by
  have hs : step ⟨.asmTempl, 0, a.string⟩ ':' (o.text ++ ')' :: rest) =
      some (⟨.asmRest, 0, []⟩, printString a.string ++ [' ', ':'], o.text ++ ')' :: rest) := by
    simp [step]
  refine ⟨a.opening ++ (a.template.flatMap TemplPart.echoed ++
    (printString a.string ++ [' ', ':'])), ?_⟩
  simp only [AsmStatement.render, ho, List.append_assoc, List.cons_append, List.nil_append]
  rw [run_opening a.isOpening, run_template hb (by simp), List.nil_append,
    show a.template.flatMap TemplPart.stored = a.string from rfl, run_step hs]
  split_ifs
  · simp
  · rfl

variable {items : List Item}

theorem run_items (hb : ∀ a, .asm a ∈ items → a.NoFinalBackslash)
    (hc : ∀ a, .asm a ∈ items → a.Closes) (rest : List Char) :
    lexer.run .init (render items ++ rest) =
      (lexer.run .init rest).map (emit (items.flatMap Item.filtered)) := by
  induction items with
  | nil => simp [render]
  | cons item items ih =>
    have ih := ih (fun a ha => hb a (List.mem_cons_of_mem _ ha))
      (fun a ha => hc a (List.mem_cons_of_mem _ ha))
    simp only [render, List.flatMap_cons, List.append_assoc] at ih ⊢
    cases item with
    | text t ht => rw [Item.render, run_text ht, ih]; simp [Item.filtered]
    | asm a =>
      obtain ⟨ho, hf⟩ := hc a List.mem_cons_self
      rw [Item.render, run_closed (hb a List.mem_cons_self) ho, if_pos hf, ih]
      simp [Item.filtered]

theorem run_items_tainted (hb : ∀ a, .asm a ∈ items → a.NoFinalBackslash)
    (hc : ¬ ∀ a, .asm a ∈ items → a.Closes) {rest : List Char} {l : Lexer} {out : List Char}
    (h : lexer.run .init (render items ++ rest) = some (l, out)) : Tainted l := by
  induction items generalizing out with
  | nil => simp at hc
  | cons item items ih =>
    have ih := @ih (fun a ha => hb a (List.mem_cons_of_mem _ ha))
    simp only [render, List.flatMap_cons, List.append_assoc] at ih h
    cases item with
    | text t ht =>
      rw [Item.render, run_text ht, map_emit_eq_some] at h
      obtain ⟨out', h', _⟩ := h
      exact ih (by simpa using hc) h'
    | asm a =>
      have hb' := hb a List.mem_cons_self
      cases ho : a.operands with
      | none =>
        rw [Item.render, run_closed hb' ho] at h
        split_ifs at h with hf
        obtain ⟨out', h', _⟩ := map_emit_eq_some.mp h
        refine ih (fun hi => hc ?_) h'
        intro a' ha
        rcases List.mem_cons.mp ha with he | ha
        · obtain rfl := Item.asm.inj he
          exact ⟨ho, hf⟩
        · exact hi a' ha
      | some o =>
        obtain ⟨out₁, hr⟩ := run_operands hb' ho (items.flatMap Item.render ++ rest)
        rw [Item.render, hr] at h
        split_ifs at h
        obtain ⟨out', h', _⟩ := map_emit_eq_some.mp h
        exact run_tainted h' (Or.inl rfl)

theorem Opening.semicolon_not_mem {w : List Char} (h : Opening w) : ';' ∉ w := by
  have hb : ∀ b : List Char, b.all isBlank → ';' ∉ b := fun b hb hm =>
    absurd (List.all_eq_true.mp hb _ hm) (by decide)
  obtain ⟨b, h₁, rfl | ⟨b', h₂, rfl⟩⟩ := h
  · simp [hb b h₁]
  · simp [hb b h₁, hb b' h₂]

theorem matchAsm_append_eq_none {s : List Char} (h : matchAsm s = none) (t : List Char) :
    matchAsm (s ++ ';' :: t) = none := by
  cases hm : matchAsm (s ++ ';' :: t) with
  | none => rfl
  | some q =>
    obtain ⟨ho, he⟩ := @matchAsm_sound _ q.1 q.2 hm
    rcases List.append_eq_append_iff.mp he with ⟨u, hu, ht⟩ | ⟨u, hu, _⟩
    · cases u with
      | nil =>
        have hw := matchAsm_complete ho []
        rw [hu, List.append_nil, List.append_nil, h] at hw
        exact absurd hw (by simp)
      | cons d u =>
        obtain ⟨rfl, _⟩ := List.cons.inj ht
        exact absurd (by simp [hu]) ho.semicolon_not_mem
    · simp [hu, matchAsm_complete ho u] at h

theorem step_append {l l' : Lexer} {c : Char} {s out rest : List Char} (t : List Char)
    (h : step l c s = some (l', out, rest)) :
    step l c (s ++ ';' :: t) = some (l', out, rest ++ ';' :: t) := by
  obtain ⟨start, paren, string⟩ := l
  cases start <;> simp only [step] at h ⊢
  · cases hm : matchAsm (c :: s) with
    | some q =>
      obtain ⟨ho, he⟩ := @matchAsm_sound _ q.1 q.2 hm
      have hm' := matchAsm_complete ho (q.2 ++ ';' :: t)
      rw [← List.append_assoc, ← he, List.cons_append] at hm'
      simp only [hm, hm'] at h ⊢
      obtain ⟨rfl, rfl, rfl⟩ := by simpa using h
      rfl
    | none =>
      have hm' := matchAsm_append_eq_none hm t
      rw [List.cons_append] at hm'
      simp only [hm, hm'] at h ⊢
      obtain ⟨rfl, rfl, rfl⟩ := by simpa using h
      rfl
  · split_ifs at h ⊢ <;> simp_all
  · have hh : (s ++ ';' :: t).head? = some '"' ↔ s.head? = some '"' := by cases s <;> simp
    simp only [hh]
    split_ifs at h ⊢ with hc
    · obtain ⟨string', hs, he⟩ := Option.map_eq_some_iff.mp h
      obtain ⟨rfl, rfl, rfl⟩ := by simpa using he
      have hn : s ≠ [] := by rintro rfl; simp at hc
      simp [hs, List.tail_append_of_ne_nil hn]
    · simp_all
    · simp_all
    · obtain ⟨string', hs, he⟩ := Option.map_eq_some_iff.mp h
      obtain ⟨rfl, rfl, rfl⟩ := by simpa using he
      simp [hs]
  · split_ifs at h ⊢ <;> simp_all

theorem run_append {l l' : Lexer} {s out : List Char} (h : lexer.run l s = some (l', out))
    (t : List Char) :
    lexer.run l (s ++ ';' :: t) = (lexer.run l' (';' :: t)).map (emit out) := by
  have hr := (reads_of_run h).append (x := ';' :: t) (step_append t)
  simpa using hr.run_eq

theorem exists_output_ne {l : Lexer} (h : Tainted l) :
    ∃ t, (lexer.run l (';' :: t)).map Prod.snd ≠ asmFilter (';' :: t) := by
  obtain ⟨start, paren, string⟩ := l
  cases start
  · obtain rfl : paren = 0 - 1 := by simpa [Tainted] using h
    let t := ['a', 's', 'm', '(', '"', '"', ':', ')', 'a', 's', 'm', '(', '"', '%', 'P', '1', '"',
      ')']
    have hr : (lexer.run ⟨.initial, 0 - 1, string⟩ (';' :: t)).map Prod.snd =
        (lexer.run ⟨.initial, 0 - 1, []⟩ (';' :: t)).map Prod.snd := rfl
    have hne : (lexer.run ⟨.initial, 0 - 1, []⟩ (';' :: t)).map Prod.snd ≠
        asmFilter (';' :: t) := by decide
    exact ⟨t, fun he => hne (hr.symm.trans he)⟩
  · have hr : (lexer.run ⟨.asmTempl, paren, string⟩ [';', ' ']).map Prod.snd = some [';'] := rfl
    exact ⟨[' '], hr ▸ by decide⟩
  · have hr : (lexer.run ⟨.asmTemplStr, paren, string⟩ [';']).map Prod.snd ≠ some [';'] := by
      rw [run_strcat (by decide) (by decide) (by decide) (by decide)]
      split_ifs <;> simp
    exact ⟨[], fun he => hr (he.trans (by decide))⟩
  · have hr : (lexer.run ⟨.asmRest, paren, string⟩ [';', 'a', 's', 'm', '(', '"']).map Prod.snd =
        some [';', 'a', 's', 'm', '(', '"'] := rfl
    exact ⟨['a', 's', 'm', '(', '"'], hr ▸ by decide⟩

/-- The output on a text, followed by any other, is the outputs on the two one after the other. -/
def Compositional (items : List Item) : Prop :=
  ∃ out, asmFilter (render items) = some out ∧
    ∀ s, asmFilter (render items ++ s) = (asmFilter s).map (out ++ ·)

/-- After every statement of a text the lexer is in its initial state. -/
def BackInInitial (items : List Item) : Prop :=
  ∀ before a, before ++ [.asm a] <+: items →
    ∃ l out, lexer.run .init (render (before ++ [.asm a])) = some (l, out) ∧
      l.start = .initial ∧ l.paren = 0

theorem not_tainted_of_initial {l : Lexer} (hs : l.start = .initial) (hp : l.paren = 0) :
    ¬ Tainted l := by
  simp only [Tainted, hs, hp, reduceCtorEq, false_or]
  decide

theorem asmFilter_append {l : Lexer} {s out : List Char}
    (h : lexer.run .init s = some (l, out)) (t : List Char) :
    asmFilter (s ++ ';' :: t) = ((lexer.run l (';' :: t)).map Prod.snd).map (out ++ ·) := by
  rw [asmFilter, run_append h, Option.map_map, Option.map_map]
  rfl

theorem compositional_iff (hb : ∀ a, .asm a ∈ items → a.NoFinalBackslash) :
    Compositional items ↔ ∀ a, .asm a ∈ items → a.Closes := by
  constructor
  · rintro ⟨out, ho, hs⟩
    by_contra hc
    obtain ⟨⟨l, out'⟩, hr, rfl⟩ := Option.map_eq_some_iff.mp ho
    have ht : Tainted l := by
      rw [← List.append_nil (render items)] at hr
      exact run_items_tainted hb hc hr
    obtain ⟨t, hne⟩ := exists_output_ne ht
    have he := hs (';' :: t)
    rw [asmFilter_append hr] at he
    exact hne (Option.map_injective (List.append_right_injective out') he)
  · intro hc
    have hr := run_items hb hc
    refine ⟨items.flatMap Item.filtered, ?_, fun s => ?_⟩
    · have h := hr []
      rw [List.append_nil, Scanner.run_nil] at h
      simp [asmFilter, h, emit]
    · simp only [asmFilter, hr s, Option.map_map]
      rfl

theorem backInInitial_iff (hb : ∀ a, .asm a ∈ items → a.NoFinalBackslash) :
    BackInInitial items ↔ ∀ a, .asm a ∈ items → a.Closes := by
  constructor
  · intro h a ha
    obtain ⟨before, after, rfl⟩ := List.append_of_mem ha
    have hp : before ++ [.asm a] <+: before ++ .asm a :: after := ⟨after, by simp⟩
    obtain ⟨l, out, hr, hs, hl⟩ := h before a hp
    by_contra hc
    rw [← List.append_nil (render _)] at hr
    exact not_tainted_of_initial hs hl (run_items_tainted
      (fun a' ha' => hb a' (hp.subset ha')) (fun hi => hc (hi a (by simp))) hr)
  · intro hc before a hp
    have hr := run_items (fun a' ha' => hb a' (hp.subset ha'))
      (fun a' ha' => hc a' (hp.subset ha')) []
    rw [List.append_nil, Scanner.run_nil] at hr
    exact ⟨.init, _, hr, rfl, rfl⟩

/--
On a text whose literals do not end in a backslash the filter is compositional, and is back in
its initial state after every statement, exactly when no statement has an operand section and
every template fits its buffer.
-/
theorem asmFilter_compositional_iff (hb : ∀ a, .asm a ∈ items → a.NoFinalBackslash) :
    (Compositional items ↔ ∀ a, .asm a ∈ items → a.operands = none ∧ a.string.length < 1000) ∧
    (BackInInitial items ↔ ∀ a, .asm a ∈ items → a.operands = none ∧ a.string.length < 1000) :=
  ⟨compositional_iff hb, backInInitial_iff hb⟩

theorem opening_asm : Opening ['a', 's', 'm', '('] := ⟨[], rfl, Or.inl rfl⟩

theorem literalText_cli : LiteralText ['c', 'l', 'i'] := by
  repeat' first | exact .nil | refine .plain (by decide) (by decide) (by decide) (by decide) ?_

/-- The statement `asm("cli")`. -/
def asmCli : AsmStatement := ⟨_, opening_asm, [.literal _ literalText_cli], none⟩

/-- The statement `asm("cli" : : : "memory")`. -/
def asmCliMemory : AsmStatement :=
  { asmCli with operands := some ⟨[':', ':', '"', 'm', 'e', 'm', 'o', 'r', 'y', '"'], by decide⟩ }

theorem noFinalBackslash_asmCli : asmCli.NoFinalBackslash := by
  intro s h hm
  obtain ⟨rfl⟩ : s = ['c', 'l', 'i'] := by simpa [asmCli] using hm
  decide

theorem asmFilter_compositional_asmCli :
    (∀ a, .asm a ∈ [Item.asm asmCli] → a.NoFinalBackslash) ∧
      Compositional [.asm asmCli] ∧ BackInInitial [.asm asmCli] := by
  have hb : ∀ a, .asm a ∈ [Item.asm asmCli] → a.NoFinalBackslash := by
    intro a ha
    obtain rfl : a = asmCli := by simpa using ha
    exact noFinalBackslash_asmCli
  have hc : ∀ a, .asm a ∈ [Item.asm asmCli] → a.operands = none ∧ a.string.length < 1000 := by
    intro a ha
    obtain rfl : a = asmCli := by simpa using ha
    decide
  exact ⟨hb, (asmFilter_compositional_iff hb).1.mpr hc, (asmFilter_compositional_iff hb).2.mpr hc⟩

/-- After a statement with operands the next one swallows the rest of the text. -/
theorem asmFilter_operands_leak :
    ¬ Compositional [.asm asmCliMemory] ∧ ¬ BackInInitial [.asm asmCliMemory] := by
  constructor
  · rintro ⟨out, ho, hs⟩
    have he := hs (asmCliMemory.render ++
      ['a', 's', 'm', '(', '"', '%', 'P', '1', '"', ')'])
    obtain rfl := Option.some.inj ho
    exact absurd he (by decide)
  · intro h
    obtain ⟨l, out, hr, _, hp⟩ := h [] asmCliMemory (List.prefix_refl _)
    obtain ⟨rfl, _⟩ := Prod.mk.inj (Option.some.inj hr)
    exact absurd hp (by decide)

end CollectedSources.AsmFilter
