import CollectedSources.Antlr.Expr
import CollectedSources.Machine.Process
import CollectedSources.Machine.Run

/-! # Programs of the interpreter

The walker adds the declared identifiers and goes through the lines. The tag of
an identifier is the one of its declaration, whatever is assigned to it later,
and arithmetic casts both operands to the class of the result. Tags and values
agree exactly in the programs that never mix the two types.
-/

namespace CollectedSources.Antlr

open Machine Process

inductive TypeName | int | real
  deriving DecidableEq, Repr

/-- The rule `type` of the walker. -/
def TypeName.tag : TypeName → ℕ
  | .int => 1
  | .real => 2

structure Def where
  name : String
  type : TypeName
  deriving DecidableEq, Repr

inductive Line
  | assign (name : String) (expr : Tree)
  | print (expr : Tree)
  deriving DecidableEq, Repr

def Line.expr : Line → Tree
  | .assign _ e => e
  | .print e => e

structure Program where
  defs : List Def
  lines : List Line
  deriving DecidableEq, Repr

/-- What the walker visits. -/
inductive Item
  | vardef (d : Def)
  | line (l : Line)
  deriving DecidableEq, Repr

theorem exists_builds (t : Tree) : ∃ ts, Builds .exp ts t := by
  induction t with
  | add a b iha ihb =>
    obtain ⟨ts, hts⟩ := iha
    obtain ⟨us, hus⟩ := ihb
    exact ⟨_, .paren (.add (.expr (.exps hts.operand)) (.exps hus.operand))⟩
  | sub a b iha ihb =>
    obtain ⟨ts, hts⟩ := iha
    obtain ⟨us, hus⟩ := ihb
    exact ⟨_, .paren (.expr (.sub (.exps hts.operand) hus.operand))⟩
  | mul a b iha ihb =>
    obtain ⟨ts, hts⟩ := iha
    obtain ⟨us, hus⟩ := ihb
    exact ⟨_, .paren (.expr (.exps (.mul hts.operand (.expd hus))))⟩
  | div a b iha ihb =>
    obtain ⟨ts, hts⟩ := iha
    obtain ⟨us, hus⟩ := ihb
    exact ⟨_, .paren (.expr (.exps (.expm (.div (.expd hts) hus))))⟩
  | id name => exact ⟨_, .id name⟩
  | int text => exact ⟨_, .int text⟩
  | real text => exact ⟨_, .real text⟩

def Program.items (p : Program) : List Item := p.defs.map .vardef ++ p.lines.map .line

/-- What a run shows: printed lines, and the exception that ends it. -/
inductive Event (F : Type)
  | message (m : Message)
  | redefined (name : String)
  | added (name : String) (type getType : ℕ)
  | compilerBug
  | printed (v : Value F) (getType : ℕ)
  | threw (e : JavaException)
  deriving DecidableEq, Repr

variable {F : Type}

/-- The identifiers by their names. -/
abbrev Ids (F : Type) := String → Option (Ident F)

section Walker

def addId (ids : Ids F) (name : String) (type : ℕ) : List (Event F) × Option (Ids F) :=
  if (ids name).isSome then ([.redefined name], some ids)
  else if type = 1 then
    ([.added name type 1], some (Function.update ids name (some ⟨1, none⟩)))
  else if type = 2 then
    ([.added name type 2], some (Function.update ids name (some ⟨2, none⟩)))
  else ([.compilerBug], none)

/-- The value is cast to the class of the tag it comes with. The tag of `self` stays. -/
def Ident.set (self val : Ident F) : Except JavaException (Ident F) :=
  if val.type = 1 then
    match val.val with
    | some (.float _) => .error .classCast
    | v => .ok { self with val := v }
  else if val.type = 2 then
    match val.val with
    | some (.integer _) => .error .classCast
    | v => .ok { self with val := v }
  else .ok self

def raise {α : Type} (e : JavaException) : List (Event F) × Option α := ([.threw e], none)

def setId (ids : Ids F) (name : String) (id : Option (Ident F)) :
    List (Event F) × Option (Ids F) :=
  match ids name, id with
  | none, _ => ([.message (.undefinedReference name)], some ids)
  | some _, none => raise .nullPointer
  | some self, some val =>
    match self.set val with
    | .error e => raise e
    | .ok self' => ([], some (Function.update ids name (some self')))

def println (ids : Ids F) (id : Option (Ident F)) : List (Event F) × Option (Ids F) :=
  match id with
  | some ⟨type, some v⟩ => ([.printed v type], some ids)
  | _ => raise .nullPointer

variable [Add F] [Sub F] (floatValueOf : RealText → F) (ids : Ids F)

/-- The result of an expression, and the messages on the way. -/
def evaluate (t : Tree) : Except JavaException (Option (Ident F)) × List Message :=
  (walkExpr floatValueOf ids t).run.run []

/-- An expression as a part of a line. -/
def expr (t : Tree) : List (Event F) × Option (Option (Ident F)) :=
  match evaluate floatValueOf ids t with
  | (.ok id, messages) => (messages.map .message, some id)
  | (.error e, messages) => (messages.map .message ++ [.threw e], none)

def line : Line → List (Event F) × Option (Ids F)
  | .assign name e => andThen (expr floatValueOf ids e) (setId ids name)
  | .print e => andThen (expr floatValueOf ids e) (println ids)

def visit : Item → List (Event F) × Option (Ids F)
  | .vardef d => addId ids d.name d.type.tag
  | .line l => line floatValueOf ids l

end Walker

section Soundness

def Value.type : Value F → TypeName
  | .integer _ => .int
  | .float _ => .real

/-- A type tag names the class of the value, if there is one. -/
def Ident.TagAgrees (id : Ident F) : Prop :=
  (id.type = 1 ∨ id.type = 2) ∧ ∀ v ∈ id.val, id.type = v.type.tag

def TagsAgree (ids : Ids F) : Prop := ∀ name, ∀ id ∈ ids name, id.TagAgrees

def Sign.node : Sign → Tree → Tree → Tree
  | .plus => .add
  | .minus => .sub

variable [Add F] [Sub F]

def Sign.method : Sign → Ident F → Ident F → Except JavaException (Ident F)
  | .plus => Ident.add
  | .minus => Ident.sub

variable (floatValueOf : RealText → F) (ids : Ids F)

/-- The evaluation of a tree gets to an operator with the two operands computed. -/
inductive Applies : Tree → Sign → Ident F → Ident F → Prop
  | here {a b x y} (op : Sign) : (evaluate floatValueOf ids a).1 = .ok (some x) →
      (evaluate floatValueOf ids b).1 = .ok (some y) → Applies (op.node a b) op x y
  | left {a b op x y} (root : Sign) : Applies a op x y → Applies (root.node a b) op x y
  | right {a b op x y z} (root : Sign) : (evaluate floatValueOf ids a).1 = .ok z →
      Applies b op x y → Applies (root.node a b) op x y

/-- No cast fails, and a mixed operation has a real result. -/
def VisitSound (ids : Ids F) : Item → Prop
  | .vardef d => Event.threw .classCast ∉ (visit floatValueOf ids (.vardef d)).1
  | .line l => Event.threw .classCast ∉ (visit floatValueOf ids (.line l)).1 ∧
      ∀ op x y, Applies floatValueOf ids l.expr op x y →
        ∀ v ∈ x.val, ∀ w ∈ y.val, v.type ≠ w.type →
          ∃ r, op.method x y = .ok ⟨2, some (.float r)⟩

/-- The soundness of a whole execution: of all its states and all its steps. -/
def Program.Sound (p : Program) : Prop :=
  Along (fun ids item => (visit floatValueOf ids item).2) TagsAgree (VisitSound floatValueOf)
    (fun _ => none) p.items

end Soundness

section Typing

inductive Refusal | literal | mixed | undefined
  deriving DecidableEq, Repr

/-- The type of an expression whose operands have one type. Operands are looked at from left to
right. -/
def typeOf (Γ : String → Option TypeName) : Tree → Except Refusal TypeName
  | .add a b => do
    let ta ← typeOf Γ a
    let tb ← typeOf Γ b
    if ta = tb then return ta else throw .mixed
  | .sub a b => do
    let ta ← typeOf Γ a
    let tb ← typeOf Γ b
    if ta = tb then return ta else throw .mixed
  | .mul _ _ => throw .undefined
  | .div _ _ => throw .undefined
  | .id name =>
    match Γ name with
    | none => throw .undefined
    | some t => return t
  | .int text => if text.toNat < 2 ^ 31 then return .int else throw .literal
  | .real _ => return .real

def declared (defs : List Def) (name : String) : Option TypeName :=
  (defs.find? (·.name = name)).map Def.type

/-- Operands have one type and each assigned value has the type of its variable, up to the first
line with a literal that is no `int`. -/
def WellTyped (Γ : String → Option TypeName) : List Line → Prop
  | [] => True
  | .assign name e :: lines =>
    match typeOf Γ e with
    | .ok t => Γ name = some t ∧ WellTyped Γ lines
    | .error r => r ≠ .mixed
  | .print e :: lines =>
    match typeOf Γ e with
    | .ok _ => WellTyped Γ lines
    | .error r => r ≠ .mixed

end Typing

section Domain

/-- Only sums and differences. -/
def Tree.IsSum : Tree → Prop
  | .add a b => a.IsSum ∧ b.IsSum
  | .sub a b => a.IsSum ∧ b.IsSum
  | .mul _ _ => False
  | .div _ _ => False
  | _ => True

def Tree.names : Tree → List String
  | .add a b => a.names ++ b.names
  | .sub a b => a.names ++ b.names
  | .mul a b => a.names ++ b.names
  | .div a b => a.names ++ b.names
  | .id name => [name]
  | _ => []

def Line.names : Line → List String
  | .assign name e => name :: e.names
  | .print e => e.names

/-- Every variable that is read is one of those assigned before. -/
def AssignedFirst : List String → List Line → Prop
  | _, [] => True
  | done, .assign name e :: lines => e.names ⊆ done ∧ AssignedFirst (name :: done) lines
  | done, .print e :: lines => e.names ⊆ done ∧ AssignedFirst done lines

/-- Sums and differences over variables declared once and assigned before they are read. -/
structure Program.IsRegular (p : Program) : Prop where
  isSum : ∀ l ∈ p.lines, l.expr.IsSum
  once : (p.defs.map Def.name).Nodup
  declared : ∀ l ∈ p.lines, l.names ⊆ p.defs.map Def.name
  assigned : AssignedFirst [] p.lines

end Domain

section Evaluation

/-- What the evaluation does with an expression of no type. -/
def Refusal.exception : Refusal → JavaException
  | .literal => .numberFormat
  | .mixed => .classCast
  | .undefined => .nullPointer

/-- The result of the walker for a value. -/
def Value.ident (v : Value F) : Ident F := ⟨v.type.tag, some v⟩

theorem typeOf_node (Γ : String → Option TypeName) (op : Sign) (a b : Tree) :
    typeOf Γ (op.node a b) = (do
      let ta ← typeOf Γ a
      let tb ← typeOf Γ b
      if ta = tb then return ta else throw .mixed) := by
  cases op <;> rfl

variable [Add F] [Sub F]

theorem method_ident (op : Sign) {v w : Value F} (h : v.type = w.type) :
    ∃ z : Value F, z.type = v.type ∧ op.method v.ident w.ident = .ok z.ident := by
  rcases v with m | x <;> rcases w with n | y
  · cases op with
    | plus => exact ⟨.integer (n + m), rfl, rfl⟩
    | minus => exact ⟨.integer (m - n), rfl, rfl⟩
  · cases h
  · cases h
  · cases op with
    | plus => exact ⟨.float (y + x), rfl, rfl⟩
    | minus => exact ⟨.float (x - y), rfl, rfl⟩

theorem method_ident_mixed (op : Sign) {v w : Value F} (h : v.type ≠ w.type) :
    op.method v.ident w.ident = .error .classCast := by
  rcases v with m | x <;> rcases w with n | y
  · exact absurd rfl h
  · cases op <;> rfl
  · cases op <;> rfl
  · exact absurd rfl h

variable (floatValueOf : RealText → F) (Γ : String → Option TypeName) (ids : Ids F)

theorem walkExpr_node (op : Sign) (a b : Tree) :
    walkExpr floatValueOf ids (op.node a b) = (do
      let x ← walkExpr floatValueOf ids a
      let y ← walkExpr floatValueOf ids b
      liftExcept (invoke op.method x y)) := by
  cases op <;> rfl

/-- The walker computes a value of the type of the tree, or throws for its refusal. -/
def Evaluates (t : Tree) : Prop :=
  (∃ v : Value F, typeOf Γ t = .ok v.type ∧ walkExpr floatValueOf ids t = pure (some v.ident)) ∨
    ∃ e : Refusal, typeOf Γ t = .error e ∧
      walkExpr floatValueOf ids t = liftExcept (.error e.exception)

variable {floatValueOf Γ ids} {a b t : Tree}

theorem Evaluates.node (op : Sign) (ha : Evaluates floatValueOf Γ ids a)
    (hb : Evaluates floatValueOf Γ ids b) : Evaluates floatValueOf Γ ids (op.node a b) := by
  rw [Evaluates, walkExpr_node, typeOf_node]
  rcases ha with ⟨v, hv, hwalk⟩ | ⟨e, he, hwalk⟩
  · rcases hb with ⟨w, hw, hwalk'⟩ | ⟨e, he, hwalk'⟩
    · rw [hv, hw, hwalk, hwalk']
      by_cases h : v.type = w.type
      · obtain ⟨z, hz, hmethod⟩ := method_ident op h
        refine Or.inl ⟨z, ?_, ?_⟩
        · rw [hz]
          exact if_pos h
        · simp only [pure_bind, invoke, hmethod]
          rfl
      · refine Or.inr ⟨.mixed, if_neg h, ?_⟩
        simp only [pure_bind, invoke, method_ident_mixed op h]
        rfl
    · rw [hv, he, hwalk, hwalk']
      exact Or.inr ⟨e, rfl, rfl⟩
  · rw [he, hwalk]
    exact Or.inr ⟨e, rfl, rfl⟩

/-- The variables of a tree have values of the types of the context. -/
def Reads (Γ : String → Option TypeName) (ids : Ids F) (name : String) : Prop :=
  ∃ v : Value F, Γ name = some v.type ∧ ids name = some v.ident

theorem evaluates (hsum : t.IsSum) (hnames : ∀ name ∈ t.names, Reads Γ ids name) :
    Evaluates floatValueOf Γ ids t := by
  induction t with
  | add a b iha ihb =>
    exact (iha hsum.1 fun name h => hnames name (List.mem_append_left _ h)).node .plus
      (ihb hsum.2 fun name h => hnames name (List.mem_append_right _ h))
  | sub a b iha ihb =>
    exact (iha hsum.1 fun name h => hnames name (List.mem_append_left _ h)).node .minus
      (ihb hsum.2 fun name h => hnames name (List.mem_append_right _ h))
  | mul a b => exact hsum.elim
  | div a b => exact hsum.elim
  | id name =>
    obtain ⟨v, hΓ, hids⟩ := hnames name (List.mem_singleton_self name)
    refine Or.inl ⟨v, ?_, ?_⟩
    · simp only [typeOf, hΓ]
      rfl
    · simp only [walkExpr, getId, hids]
  | int text =>
    rw [Evaluates, walkExpr, typeOf, integerValueOf]
    split
    · exact Or.inl ⟨.integer (BitVec.ofNat 32 text.toNat), rfl, rfl⟩
    · exact Or.inr ⟨.literal, rfl, rfl⟩
  | real text => exact Or.inl ⟨.float (floatValueOf text), rfl, rfl⟩

theorem Evaluates.evaluate (h : Evaluates floatValueOf Γ ids t) :
    (∃ v : Value F, typeOf Γ t = .ok v.type ∧
        evaluate floatValueOf ids t = (.ok (some v.ident), [])) ∨
      ∃ e : Refusal, typeOf Γ t = .error e ∧
        evaluate floatValueOf ids t = (.error e.exception, []) := by
  rcases h with ⟨v, hv, hwalk⟩ | ⟨e, he, hwalk⟩
  · refine Or.inl ⟨v, hv, ?_⟩
    rw [Antlr.evaluate, hwalk]
    rfl
  · refine Or.inr ⟨e, he, ?_⟩
    rw [Antlr.evaluate, hwalk]
    rfl

theorem Evaluates.eq_ident {x : Ident F} (h : Evaluates floatValueOf Γ ids t)
    (hx : (Antlr.evaluate floatValueOf ids t).1 = .ok (some x)) :
    ∃ v : Value F, typeOf Γ t = .ok v.type ∧ x = v.ident := by
  rcases h.evaluate with ⟨v, hv, heval⟩ | ⟨e, he, heval⟩
  · rw [heval] at hx
    cases hx
    exact ⟨v, hv, rfl⟩
  · rw [heval] at hx
    cases hx

theorem Evaluates.typeOf_eq_ok {z : Option (Ident F)} (h : Evaluates floatValueOf Γ ids t)
    (hz : (Antlr.evaluate floatValueOf ids t).1 = .ok z) : ∃ ty, typeOf Γ t = .ok ty := by
  rcases h.evaluate with ⟨v, hv, -⟩ | ⟨e, -, heval⟩
  · exact ⟨v.type, hv⟩
  · rw [heval] at hz
    cases hz

theorem isSum_node {op : Sign} : (op.node a b).IsSum ↔ a.IsSum ∧ b.IsSum := by
  cases op <;> rfl

theorem names_node (op : Sign) : (op.node a b).names = a.names ++ b.names := by
  cases op <;> rfl

/-- An operator is applied to operands of one type, unless the tree mixes types. -/
theorem Applies.type_eq {op : Sign} {x y : Ident F} (h : Applies floatValueOf ids t op x y)
    (hsum : t.IsSum) (hnames : ∀ name ∈ t.names, Reads Γ ids name)
    (hmixed : typeOf Γ t ≠ .error .mixed) : ∀ v ∈ x.val, ∀ w ∈ y.val, v.type = w.type := by
  induction h with
  | here op hx hy =>
    rw [isSum_node] at hsum
    simp only [names_node, List.mem_append] at hnames
    obtain ⟨v, hv, rfl⟩ := (evaluates hsum.1 fun name h => hnames name (.inl h)).eq_ident hx
    obtain ⟨w, hw, rfl⟩ := (evaluates hsum.2 fun name h => hnames name (.inr h)).eq_ident hy
    rintro v' ⟨⟩ w' ⟨⟩
    by_contra hne
    rw [typeOf_node, hv, hw] at hmixed
    exact hmixed (if_neg hne)
  | left root _ ih =>
    rw [isSum_node] at hsum
    simp only [names_node, List.mem_append] at hnames
    refine ih hsum.1 (fun name h => hnames name (.inl h)) fun hmix => hmixed ?_
    rw [typeOf_node, hmix]
    rfl
  | right root hz _ ih =>
    rw [isSum_node] at hsum
    simp only [names_node, List.mem_append] at hnames
    refine ih hsum.2 (fun name h => hnames name (.inr h)) fun hmix => hmixed ?_
    obtain ⟨ty, hty⟩ := (evaluates hsum.1 fun name h => hnames name (.inl h)).typeOf_eq_ok hz
    rw [typeOf_node, hty, hmix]
    rfl

end Evaluation

section Lines

/-- The identifiers have the declared tags and values of the declared types. -/
structure Typed (Γ : String → Option TypeName) (done : List String) (ids : Ids F) : Prop where
  ident : ∀ name t, Γ name = some t →
    ∃ val : Option (Value F), ids name = some ⟨t.tag, val⟩ ∧ ∀ v ∈ val, v.type = t
  absent : ∀ name, Γ name = none → ids name = none
  assigned : ∀ name ∈ done, Reads Γ ids name

variable {Γ : String → Option TypeName} {done : List String} {ids : Ids F}

theorem Typed.tagsAgree (h : Typed Γ done ids) : TagsAgree ids := by
  intro name id hid
  rcases hΓ : Γ name with _ | t
  · rw [h.absent name hΓ] at hid
    cases hid
  · obtain ⟨val, hval, htype⟩ := h.ident name t hΓ
    rw [hval] at hid
    cases hid
    refine ⟨?_, fun v hv => ?_⟩
    · cases t with
      | int => exact Or.inl rfl
      | real => exact Or.inr rfl
    · rw [htype v hv]

theorem Typed.update (h : Typed Γ done ids) {name : String} {v : Value F}
    (hΓ : Γ name = some v.type) :
    Typed Γ (name :: done) (Function.update ids name (some v.ident)) := by
  constructor
  · intro other t ht
    by_cases ho : other = name
    · subst ho
      obtain rfl : v.type = t := Option.some.inj (hΓ.symm.trans ht)
      exact ⟨some v, Function.update_self .., fun w hw => by cases hw; rfl⟩
    · rw [Function.update_of_ne ho]
      exact h.ident other t ht
  · intro other hnone
    have ho : other ≠ name := by
      rintro rfl
      rw [hΓ] at hnone
      cases hnone
    rw [Function.update_of_ne ho]
    exact h.absent other hnone
  · intro other hother
    by_cases ho : other = name
    · subst ho
      exact ⟨v, hΓ, Function.update_self ..⟩
    · obtain ⟨w, hw, hids⟩ := h.assigned other ((List.mem_cons.mp hother).resolve_left ho)
      exact ⟨w, hw, (Function.update_of_ne ho ..).trans hids⟩

theorem not_tagsAgree_update {name : String} {ty : TypeName} {v : Value F} (h : v.type ≠ ty) :
    ¬ TagsAgree (Function.update ids name (some ⟨ty.tag, some v⟩)) := by
  intro hagree
  have htag : ty.tag = v.type.tag := (hagree name _ (Function.update_self ..)).2 v rfl
  revert h htag
  cases ty <;> cases v.type <;> decide

variable [Add F] [Sub F] {floatValueOf : RealText → F} {l : Line}

theorem visit_line_of_error {e : JavaException}
    (h : evaluate floatValueOf ids l.expr = (.error e, [])) :
    visit floatValueOf ids (.line l) = raise e := by
  cases l with
  | assign name t =>
    rw [visit, line, expr, show evaluate floatValueOf ids t = _ from h]
    rfl
  | print t =>
    rw [visit, line, expr, show evaluate floatValueOf ids t = _ from h]
    rfl

theorem visit_assign {name : String} {t : Tree} {v : Value F} {self : Ident F}
    (h : evaluate floatValueOf ids t = (.ok (some v.ident), [])) (hself : ids name = some self) :
    visit floatValueOf ids (.line (.assign name t)) =
      ([], some (Function.update ids name (some { self with val := some v }))) := by
  rw [visit, line, expr, h]
  simp only [List.map_nil, andThen_some, setId, hself]
  cases v <;> rfl

theorem visit_print {t : Tree} {v : Value F}
    (h : evaluate floatValueOf ids t = (.ok (some v.ident), [])) :
    visit floatValueOf ids (.line (.print t)) = ([.printed v v.type.tag], some ids) := by
  rw [visit, line, expr, h]
  rfl

theorem Typed.visit_cases (floatValueOf : RealText → F) (h : Typed Γ done ids) (hsum : l.expr.IsSum)
    (hread : l.expr.names ⊆ done) (hdecl : ∀ name ∈ l.names, (Γ name).isSome) :
    (∃ e : Refusal, typeOf Γ l.expr = .error e ∧
      visit floatValueOf ids (.line l) = raise e.exception) ∨
    (∃ name t, ∃ v : Value F, ∃ ty : TypeName, l = .assign name t ∧ typeOf Γ t = .ok v.type ∧
      Γ name = some ty ∧ visit floatValueOf ids (.line l) =
        ([], some (Function.update ids name (some ⟨ty.tag, some v⟩)))) ∨
    ∃ t, ∃ v : Value F, l = .print t ∧ typeOf Γ t = .ok v.type ∧
      visit floatValueOf ids (.line l) = ([.printed v v.type.tag], some ids) := by
  have heval : Evaluates floatValueOf Γ ids l.expr :=
    evaluates hsum fun name hname => h.assigned name (hread hname)
  rcases heval.evaluate with ⟨v, hv, heval⟩ | ⟨e, he, heval⟩
  · cases l with
    | assign name t =>
      obtain ⟨ty, hty⟩ := Option.isSome_iff_exists.mp (hdecl name List.mem_cons_self)
      obtain ⟨val, hval, -⟩ := h.ident name ty hty
      exact Or.inr (Or.inl ⟨name, t, v, ty, rfl, hv, hty, visit_assign heval hval⟩)
    | print t => exact Or.inr (Or.inr ⟨t, v, rfl, hv, visit_print heval⟩)
  · exact Or.inl ⟨e, he, visit_line_of_error heval⟩

theorem Typed.visitSound_iff (h : Typed Γ done ids) (hsum : l.expr.IsSum)
    (hread : l.expr.names ⊆ done) (hdecl : ∀ name ∈ l.names, (Γ name).isSome) :
    VisitSound floatValueOf ids (.line l) ↔ typeOf Γ l.expr ≠ .error .mixed := by
  have hcast : Event.threw .classCast ∉ (visit floatValueOf ids (.line l)).1 ↔
      typeOf Γ l.expr ≠ .error .mixed := by
    rcases h.visit_cases floatValueOf hsum hread hdecl with
      ⟨e, he, hvisit⟩ | ⟨name, t, v, ty, rfl, hv, -, hvisit⟩ | ⟨t, v, rfl, hv, hvisit⟩
    · rw [hvisit, he]
      cases e <;> simp [raise, Refusal.exception]
    · rw [hvisit]
      simp [Line.expr, hv]
    · rw [hvisit]
      simp [Line.expr, hv]
  rw [VisitSound, hcast, and_iff_left_iff_imp]
  intro hmixed op x y happ v hv w hw hne
  have hnames : ∀ name ∈ l.expr.names, Reads Γ ids name := fun name hn => h.assigned name (hread hn)
  exact absurd (happ.type_eq hsum hnames hmixed v hv w hw) hne

/-- The lines of a program are sound exactly if they are well typed. -/
theorem Typed.along_iff (h : Typed Γ done ids) {lines : List Line}
    (hsum : ∀ l ∈ lines, l.expr.IsSum) (hdecl : ∀ l ∈ lines, ∀ name ∈ l.names, (Γ name).isSome)
    (hfirst : AssignedFirst done lines) :
    Along (fun ids item => (visit floatValueOf ids item).2) TagsAgree (VisitSound floatValueOf)
      ids (lines.map .line) ↔ WellTyped Γ lines := by
  induction lines generalizing ids done with
  | nil => exact iff_of_true h.tagsAgree trivial
  | cons l lines ih =>
    rw [List.forall_mem_cons] at hsum hdecl
    have hread : l.expr.names ⊆ done := by
      cases l <;> exact hfirst.1
    rw [List.map_cons, Along, h.visitSound_iff hsum.1 hread hdecl.1, and_iff_right h.tagsAgree]
    rcases h.visit_cases floatValueOf hsum.1 hread hdecl.1 with
      ⟨e, he, hvisit⟩ | ⟨name, t, v, ty, rfl, hv, hty, hvisit⟩ | ⟨t, v, rfl, hv, hvisit⟩
    · rw [hvisit, he]
      cases l with
      | assign name t =>
        rw [WellTyped, show typeOf Γ t = .error e from he]
        simp [raise]
      | print t =>
        rw [WellTyped, show typeOf Γ t = .error e from he]
        simp [raise]
    · rw [hvisit, WellTyped, hv, hty]
      by_cases htype : v.type = ty
      · subst htype
        simpa [Line.expr, hv, Value.ident] using ih (h.update hty) hsum.2 hdecl.2 hfirst.2
      · refine iff_of_false (fun hrest => ?_) fun htyped => htype (Option.some.inj htyped.1).symm
        exact not_tagsAgree_update htype (hrest.2 _ rfl).head
    · rw [hvisit, WellTyped, hv]
      simpa [Line.expr, hv] using ih h hsum.2 hdecl.2 hfirst.2

end Lines

section Programs

/-- The identifiers after the declarations. -/
def addAll (ids : Ids F) (defs : List Def) : Ids F := fun name =>
  match declared defs name with
  | none => ids name
  | some t => some ⟨t.tag, none⟩

variable {ids : Ids F} {d : Def} {defs : List Def}

theorem declared_cons (name : String) :
    declared (d :: defs) name = if d.name = name then some d.type else declared defs name := by
  rw [declared, List.find?_cons]
  by_cases h : d.name = name <;> simp [h, declared]

theorem declared_isSome {name : String} :
    (declared defs name).isSome ↔ name ∈ defs.map Def.name := by
  simp [declared]

theorem addAll_cons (h : d.name ∉ defs.map Def.name) :
    addAll ids (d :: defs) =
      addAll (Function.update ids d.name (some ⟨d.type.tag, none⟩)) defs := by
  ext1 name
  rw [addAll, addAll, declared_cons]
  by_cases hname : d.name = name
  · subst hname
    have hnone : declared defs d.name = none := by
      rwa [← declared_isSome, Option.not_isSome_iff_eq_none] at h
    simp [hnone]
  · rw [if_neg hname, Function.update_of_ne (Ne.symm hname)]

theorem addId_new (h : ids d.name = none) :
    addId ids d.name d.type.tag = ([.added d.name d.type.tag d.type.tag],
      some (Function.update ids d.name (some ⟨d.type.tag, none⟩))) := by
  rw [addId, h]
  cases d.type <;> rfl

theorem tagsAgree_update_new (h : TagsAgree ids) (name : String) (t : TypeName) :
    TagsAgree (Function.update ids name (some ⟨t.tag, none⟩)) := by
  intro other id hid
  by_cases ho : other = name
  · subst ho
    rw [Function.update_self] at hid
    cases hid
    refine ⟨?_, fun v hv => by cases hv⟩
    cases t with
    | int => exact Or.inl rfl
    | real => exact Or.inr rfl
  · rw [Function.update_of_ne ho] at hid
    exact h other id hid

theorem typed_addAll : Typed (declared defs) [] (addAll (fun _ => none : Ids F) defs) := by
  constructor
  · intro name t ht
    refine ⟨none, ?_, fun v hv => by cases hv⟩
    rw [addAll, ht]
  · intro name hname
    rw [addAll, hname]
  · intro name hname
    cases hname

variable [Add F] [Sub F] {floatValueOf : RealText → F}

theorem along_defs (hids : TagsAgree ids) (honce : (defs.map Def.name).Nodup)
    (hnew : ∀ d ∈ defs, ids d.name = none) (items : List Item) :
    Along (fun ids item => (visit floatValueOf ids item).2) TagsAgree (VisitSound floatValueOf)
        ids (defs.map .vardef ++ items) ↔
      Along (fun ids item => (visit floatValueOf ids item).2) TagsAgree (VisitSound floatValueOf)
        (addAll ids defs) items := by
  induction defs generalizing ids with
  | nil => rfl
  | cons d defs ih =>
    rw [List.map_cons, List.nodup_cons] at honce
    rw [List.forall_mem_cons] at hnew
    have hnew' : ∀ d' ∈ defs,
        Function.update ids d.name (some ⟨d.type.tag, none⟩) d'.name = none := by
      intro d' hd'
      have hne : d'.name ≠ d.name := fun h => honce.1 (h ▸ List.mem_map_of_mem hd')
      rw [Function.update_of_ne hne]
      exact hnew.2 d' hd'
    rw [addAll_cons honce.1, ← ih (tagsAgree_update_new hids _ _) honce.2 hnew']
    simp [Along, VisitSound, visit, addId_new hnew.1, hids]

/-- Tags and values agree and no cast fails exactly in the programs that never mix types. -/
theorem sound_iff_wellTyped (floatValueOf : RealText → F) {p : Program} (h : p.IsRegular) :
    p.Sound floatValueOf ↔ WellTyped (declared p.defs) p.lines := by
  have hempty : TagsAgree (fun _ => none : Ids F) := by
    intro name id hid
    cases hid
  have hdecl : ∀ l ∈ p.lines, ∀ name ∈ l.names, (declared p.defs name).isSome :=
    fun l hl name hname => declared_isSome.mpr (h.declared l hl hname)
  rw [Program.Sound, Program.items, along_defs hempty h.once fun _ _ => rfl]
  exact typed_addAll.along_iff h.isSum hdecl h.assigned

/-- The program `var x: int; y: real; begin x = 7-4; y = .5; print y+y; end`. -/
def uniformProgram : Program where
  defs := [⟨"x", .int⟩, ⟨"y", .real⟩]
  lines := [.assign "x" (.sub (.int seven) (.int four)), .assign "y" (.real ⟨none, five⟩),
    .print (.add (.id "y") (.id "y"))]

theorem isRegular_uniformProgram : uniformProgram.IsRegular := by
  constructor
  · simp [uniformProgram, Line.expr, Tree.IsSum]
  · decide
  · simp [uniformProgram, Line.names, Tree.names]
  · simp [uniformProgram, AssignedFirst, Tree.names]

theorem sound_uniformProgram :
    uniformProgram.IsRegular ∧ uniformProgram.Sound (fun _ => (0 : ℤ)) := by
  refine ⟨isRegular_uniformProgram, (sound_iff_wellTyped _ isRegular_uniformProgram).mpr ?_⟩
  exact ⟨rfl, rfl, trivial⟩

/-- The program `var x: real; begin x = 7; print x+x; end`. -/
def mixedProgram : Program where
  defs := [⟨"x", .real⟩]
  lines := [.assign "x" (.int seven), .print (.add (.id "x") (.id "x"))]

theorem not_sound_mixedProgram :
    mixedProgram.IsRegular ∧ ¬ mixedProgram.Sound (fun _ => (0 : ℤ)) ∧
      Event.threw .classCast ∈
        (Process.run (visit fun _ => (0 : ℤ)) (fun _ => none) mixedProgram.items).1 := by
  refine ⟨?_, fun h => ?_, by decide⟩
  · constructor
    · simp [mixedProgram, Line.expr, Tree.IsSum]
    · decide
    · simp [mixedProgram, Line.names, Tree.names]
    · simp [mixedProgram, AssignedFirst, Tree.names]
  · have hagree := ((h.2.2 _ rfl).2.2 _ rfl).head "x" ⟨2, some (.integer 7)⟩ rfl
    exact absurd (hagree.2 _ rfl) (by decide)

end Programs

end CollectedSources.Antlr
