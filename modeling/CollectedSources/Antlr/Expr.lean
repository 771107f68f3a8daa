import Mathlib.Data.BitVec

/-! # Expressions of the interpreter

The grammar lets subtraction bind tighter than addition. The walker computes on
the trees of that grammar. For sums and differences of integers the result is
the one of going through the expression from left to right.
-/

namespace CollectedSources.Antlr

/-- The text of a number: some digits. -/
structure Digits where
  digits : List (Fin 10)
  nonempty : digits ≠ []
  deriving DecidableEq, Repr

def Digits.toNat (d : Digits) : ℕ := d.digits.foldl (fun n digit => 10 * n + digit) 0

/-- The text of a real number, with an optional part before the point. -/
structure RealText where
  whole : Option Digits
  fraction : Digits
  deriving DecidableEq, Repr

inductive Token
  | id (name : String)
  | int (text : Digits)
  | real (text : RealText)
  | plus
  | minus
  | times
  | divide
  | lpar
  | rpar
  deriving DecidableEq, Repr

inductive Tree
  | add (a b : Tree)
  | sub (a b : Tree)
  | mul (a b : Tree)
  | div (a b : Tree)
  | id (name : String)
  | int (text : Digits)
  | real (text : RealText)
  deriving DecidableEq, Repr

inductive Rule | expr | exps | expm | expd | exp
  deriving DecidableEq, Repr

/-- A rule of the grammar matches some tokens and builds a tree. Each operator of a chain becomes
the root above what the chain has built so far. -/
inductive Builds : Rule → List Token → Tree → Prop
  | expr {ts t} : Builds .exps ts t → Builds .expr ts t
  | add {ts us t u} : Builds .expr ts t → Builds .exps us u →
      Builds .expr (ts ++ .plus :: us) (.add t u)
  | exps {ts t} : Builds .expm ts t → Builds .exps ts t
  | sub {ts us t u} : Builds .exps ts t → Builds .expm us u →
      Builds .exps (ts ++ .minus :: us) (.sub t u)
  | expm {ts t} : Builds .expd ts t → Builds .expm ts t
  | mul {ts us t u} : Builds .expm ts t → Builds .expd us u →
      Builds .expm (ts ++ .times :: us) (.mul t u)
  | expd {ts t} : Builds .exp ts t → Builds .expd ts t
  | div {ts us t u} : Builds .expd ts t → Builds .exp us u →
      Builds .expd (ts ++ .divide :: us) (.div t u)
  | id (name : String) : Builds .exp [.id name] (.id name)
  | int (text : Digits) : Builds .exp [.int text] (.int text)
  | real (text : RealText) : Builds .exp [.real text] (.real text)
  | paren {ts t} : Builds .expr ts t → Builds .exp (.lpar :: (ts ++ [.rpar])) t

inductive JavaException | classCast | nullPointer | numberFormat
  deriving DecidableEq, Repr

inductive Message
  | undefinedReference (name : String)
  deriving DecidableEq, Repr

/-- Computations that print messages and may throw. -/
abbrev Walk := ExceptT JavaException (StateM (List Message))

/-- The boxed values, with any type of reals. -/
inductive Value (F : Type)
  | integer (n : BitVec 32)
  | float (x : F)
  deriving DecidableEq, Repr

/-- An identifier or an intermediate result: a type tag and a value, if it has one. -/
structure Ident (F : Type) where
  type : ℕ
  val : Option (Value F)
  deriving DecidableEq, Repr

variable {F : Type}

/-- A cast to `Integer` and its unboxing. -/
def asInteger : Option (Value F) → Except JavaException (BitVec 32)
  | none => .error .nullPointer
  | some (.float _) => .error .classCast
  | some (.integer n) => .ok n

/-- A cast to `Float` and its unboxing. -/
def asFloat : Option (Value F) → Except JavaException F
  | none => .error .nullPointer
  | some (.integer _) => .error .classCast
  | some (.float x) => .ok x

def integerValueOf (text : Digits) : Except JavaException (BitVec 32) :=
  if text.toNat < 2 ^ 31 then .ok (BitVec.ofNat 32 text.toNat) else .error .numberFormat

section Walker

variable [Add F] [Sub F]

def Ident.add (self id : Ident F) : Except JavaException (Ident F) :=
  if id.type = 2 ∨ self.type = 2 then do
    let x ← asFloat id.val
    let y ← asFloat self.val
    return ⟨2, some (.float (x + y))⟩
  else do
    let x ← asInteger id.val
    let y ← asInteger self.val
    return ⟨1, some (.integer (x + y))⟩

def Ident.sub (self id : Ident F) : Except JavaException (Ident F) :=
  if id.type = 2 ∨ self.type = 2 then do
    let x ← asFloat self.val
    let y ← asFloat id.val
    return ⟨2, some (.float (x - y))⟩
  else do
    let x ← asInteger self.val
    let y ← asInteger id.val
    return ⟨1, some (.integer (x - y))⟩

/-- A method of `a` with the argument `b`, either of which may be null. -/
def invoke (method : Ident F → Ident F → Except JavaException (Ident F)) :
    Option (Ident F) → Option (Ident F) → Except JavaException (Option (Ident F))
  | some a, some b => (method a b).map some
  | _, _ => .error .nullPointer

variable (floatValueOf : RealText → F) (ids : String → Option (Ident F))

def getId (name : String) : Walk (Option (Ident F)) := do
  match ids name with
  | none =>
    modify (· ++ [.undefinedReference name])
    return none
  | some id => return some id

/-- The rule `expr` of the walker; products have no value. -/
def walkExpr : Tree → Walk (Option (Ident F))
  | .add a b => do
    let a ← walkExpr a
    let b ← walkExpr b
    liftExcept (invoke Ident.add a b)
  | .sub a b => do
    let a ← walkExpr a
    let b ← walkExpr b
    liftExcept (invoke Ident.sub a b)
  | .mul a b => do
    let _ ← walkExpr a
    let _ ← walkExpr b
    return none
  | .div a b => do
    let _ ← walkExpr a
    let _ ← walkExpr b
    return none
  | .id name => getId ids name
  | .int text => do
    let n ← liftExcept (integerValueOf text)
    return some ⟨1, some (.integer n)⟩
  | .real text => return some ⟨2, some (.float (floatValueOf text))⟩

end Walker

section Conventional

inductive Sign | plus | minus
  deriving DecidableEq, Repr

def Sign.apply : Sign → BitVec 32 → BitVec 32 → BitVec 32
  | .plus, x, y => x + y
  | .minus, x, y => x - y

/-- The value so far, the operator before the next operand, and the same for each open
parenthesis. -/
structure Calc where
  acc : BitVec 32
  op : Sign
  stack : List (BitVec 32 × Sign)
  deriving DecidableEq, Repr

def Calc.operand (s : Calc) (n : BitVec 32) : Calc := ⟨s.op.apply s.acc n, .plus, s.stack⟩

variable (ids : String → Option (Ident F))

/-- Go through sums and differences from left to right. -/
def calculate : Calc → List Token → Except JavaException (BitVec 32)
  | s, [] => .ok s.acc
  | s, .plus :: ts => calculate { s with op := .plus } ts
  | s, .minus :: ts => calculate { s with op := .minus } ts
  | s, .lpar :: ts => calculate ⟨0, .plus, (s.acc, s.op) :: s.stack⟩ ts
  | s, .rpar :: ts =>
    match s.stack with
    | [] => calculate s ts
    | (acc, op) :: stack => calculate (Calc.operand ⟨acc, op, stack⟩ s.acc) ts
  | s, .id name :: ts => do
    let n ← asInteger ((ids name).bind Ident.val)
    calculate (s.operand n) ts
  | s, .int text :: ts => do
    let n ← integerValueOf text
    calculate (s.operand n) ts
  | s, _ :: ts => calculate s ts

/-- The value of sums and differences with operators of equal precedence. -/
def conventional (ts : List Token) : Except JavaException (BitVec 32) :=
  calculate ids ⟨0, .plus, []⟩ ts

/-- The tokens of sums and differences of integers: variables are initialised. -/
def Token.InIntSum : Token → Prop
  | .id name => ∃ n, ids name = some ⟨1, some (.integer n)⟩
  | .int _ | .plus | .minus | .lpar | .rpar => True
  | .real _ | .times | .divide => False

end Conventional

section Agreement

/-- The result of the walker for an integer. -/
def boxed (n : BitVec 32) : Option (Ident F) := some ⟨1, some (.integer n)⟩

theorem invoke_add_boxed [Add F] (m n : BitVec 32) :
    invoke (F := F) Ident.add (boxed m) (boxed n) = .ok (boxed (m + n)) := by
  rw [BitVec.add_comm]
  rfl

variable [Add F] [Sub F] (floatValueOf : RealText → F) (ids : String → Option (Ident F))

/-- The walker and the calculation agree on what a rule has built. An operand may follow any
operator, a chain only an addition. -/
def Agrees (r : Rule) (ts : List Token) (t : Tree) : Prop :=
  ∃ m : Except JavaException (BitVec 32),
    walkExpr floatValueOf ids t = liftExcept (m.map boxed) ∧
      ∀ (s : Calc) (rest : List Token), (r = .expr ∨ r = .exps → s.op = .plus) →
        calculate ids s (ts ++ rest) = m.bind fun n => calculate ids (s.operand n) rest

variable {floatValueOf ids} {r r' : Rule} {ts us : List Token} {t u : Tree}

theorem Agrees.rule (h : Agrees floatValueOf ids r ts t)
    (hr : r = .expr ∨ r = .exps → r' = .expr ∨ r' = .exps) :
    Agrees floatValueOf ids r' ts t := by
  obtain ⟨m, hm, hcalc⟩ := h
  exact ⟨m, hm, fun s rest hs => hcalc s rest fun h => hs (hr h)⟩

theorem operand_operand {s : Calc} (hs : s.op = .plus) (op : Sign) (x y : BitVec 32) :
    Calc.operand { s.operand x with op } y = s.operand (op.apply x y) := by
  have happly : op.apply (s.acc + x) y = s.acc + op.apply x y := by
    cases op with
    | plus => exact BitVec.add_assoc s.acc x y
    | minus => simp only [Sign.apply, BitVec.sub_eq_add_neg, BitVec.add_assoc]
  simp only [Calc.operand, hs, Sign.apply] at happly ⊢
  rw [← happly]

theorem Agrees.chain (op : Sign) {token : Token} {node : Tree → Tree → Tree}
    {method : Ident F → Ident F → Except JavaException (Ident F)} {r₂ : Rule}
    (h : Agrees floatValueOf ids r ts t) (h' : Agrees floatValueOf ids r₂ us u)
    (hr : r = .expr ∨ r = .exps) (hr₂ : r₂ = .expr ∨ r₂ = .exps → op = .plus)
    (hwalk : walkExpr floatValueOf ids (node t u) = do
      let a ← walkExpr floatValueOf ids t
      let b ← walkExpr floatValueOf ids u
      liftExcept (invoke method a b))
    (hmethod : ∀ m n, invoke method (boxed m) (boxed n) = .ok (boxed (op.apply m n)))
    (htoken : ∀ s ts, calculate ids s (token :: ts) = calculate ids { s with op } ts) :
    Agrees floatValueOf ids r (ts ++ token :: us) (node t u) := by
  obtain ⟨m, hm, hcalc⟩ := h
  obtain ⟨m', hm', hcalc'⟩ := h'
  refine ⟨m.bind fun x => m'.map fun y => op.apply x y, ?_, fun s rest hs => ?_⟩
  · rw [hwalk, hm, hm']
    rcases m with e | x
    · rfl
    · rcases m' with e | y
      · rfl
      · change (liftExcept (invoke method (boxed x) (boxed y)) : Walk _) = _
        rw [hmethod]
        rfl
  · rw [List.append_assoc, hcalc s _ hs]
    rcases m with e | x
    · rfl
    · refine (htoken _ _).trans ((hcalc' _ rest hr₂).trans ?_)
      rcases m' with e | y
      · rfl
      · exact congrArg (calculate ids · rest) (operand_operand (hs hr) op x y)

theorem agrees_of_builds (h : Builds r ts t) (hts : ∀ token ∈ ts, token.InIntSum ids) :
    Agrees floatValueOf ids r ts t := by
  induction h with
  | expr _ ih => exact (ih hts).rule fun _ => Or.inl rfl
  | exps _ ih => exact (ih hts).rule (by decide)
  | expm _ ih => exact (ih hts).rule (by decide)
  | expd _ ih => exact (ih hts).rule (by decide)
  | add _ _ ih ih' =>
    exact (ih fun token h => hts token (by simp [h])).chain .plus
      (ih' fun token h => hts token (by simp [h])) (Or.inl rfl) (fun _ => rfl) rfl
      invoke_add_boxed (fun _ _ => rfl)
  | sub _ _ ih ih' =>
    exact (ih fun token h => hts token (by simp [h])).chain .minus
      (ih' fun token h => hts token (by simp [h])) (Or.inr rfl) (by decide) rfl
      (fun _ _ => rfl) (fun _ _ => rfl)
  | mul => exact absurd (hts .times (by simp)) id
  | div => exact absurd (hts .divide (by simp)) id
  | id name =>
    obtain ⟨n, hn⟩ := hts (.id name) (by simp)
    refine ⟨.ok n, ?_, fun s rest _ => ?_⟩
    · simp only [walkExpr, getId, hn]
      rfl
    · simp only [List.singleton_append, calculate, hn]
      rfl
  | int text =>
    refine ⟨integerValueOf text, ?_, fun s rest _ => rfl⟩
    rw [walkExpr]
    rcases integerValueOf text with e | n <;> rfl
  | real text => exact absurd (hts (.real text) (by simp)) id
  | paren _ ih =>
    obtain ⟨m, hm, hcalc⟩ := ih fun token h => hts token (by simp [h])
    refine ⟨m, hm, fun s rest _ => ?_⟩
    rw [List.cons_append, List.append_assoc, calculate, hcalc _ _ fun _ => rfl]
    rcases m with e | n
    · rfl
    · exact congrArg (fun k => calculate ids (s.operand k) rest) (BitVec.zero_add n)

/-- On sums and differences of integers the walker computes the conventional value. -/
theorem walkExpr_eq_conventional (h : Builds .expr ts t)
    (hts : ∀ token ∈ ts, token.InIntSum ids) :
    walkExpr floatValueOf ids t = liftExcept ((conventional ids ts).map boxed) := by
  have hagrees : Agrees floatValueOf ids .expr ts t := agrees_of_builds h hts
  obtain ⟨m, hm, hcalc⟩ := hagrees
  have hvalue : conventional ids ts = m := by
    rw [conventional, ← List.append_nil ts, hcalc _ _ fun _ => rfl]
    rcases m with e | n
    · rfl
    · exact congrArg Except.ok (BitVec.zero_add n)
  rw [hm, hvalue]

end Agreement

section Sample

/-- The text of a number with one digit. -/
def oneDigit (n : ℕ) (h : n < 10) : Digits := ⟨[⟨n, h⟩], List.cons_ne_nil _ _⟩

def seven : Digits := oneDigit 7 (by decide)

def four : Digits := oneDigit 4 (by decide)

def five : Digits := oneDigit 5 (by decide)

/-- The tokens of `7-x+(x-4)-5`, which the grammar groups as `(7-x)+((x-4)-5)`. -/
def sampleTokens : List Token :=
  [.int seven, .minus, .id "x", .plus, .lpar, .id "x", .minus, .int four, .rpar, .minus, .int five]

def sampleTree : Tree :=
  .add (.sub (.int seven) (.id "x")) (.sub (.sub (.id "x") (.int four)) (.int five))

def sampleIds (name : String) : Option (Ident ℤ) :=
  if name = "x" then some ⟨1, some (.integer 3)⟩ else none

theorem Builds.operand {ts : List Token} {t : Tree} (h : Builds .exp ts t) : Builds .expm ts t :=
  .expm (.expd h)

theorem builds_sample : Builds .expr sampleTokens sampleTree := by
  have hleft : Builds .exps [.int seven, .minus, .id "x"] (.sub (.int seven) (.id "x")) :=
    .sub (.exps (Builds.int seven).operand) (Builds.id "x").operand
  have hparen : Builds .exp [.lpar, .id "x", .minus, .int four, .rpar]
      (.sub (.id "x") (.int four)) :=
    .paren (.expr (.sub (.exps (Builds.id "x").operand) (Builds.int four).operand))
  exact .add (.expr hleft) (.sub (.exps hparen.operand) (Builds.int five).operand)

theorem walkExpr_eq_conventional_sample :
    Builds .expr sampleTokens sampleTree ∧
      walkExpr (fun _ => 0) sampleIds sampleTree = pure (boxed (-2)) := by
  have hts : ∀ token ∈ sampleTokens, token.InIntSum sampleIds := by
    simp [sampleTokens, Token.InIntSum, sampleIds]
  refine ⟨builds_sample, (walkExpr_eq_conventional builds_sample hts).trans ?_⟩
  have hvalue : conventional sampleIds sampleTokens = .ok (-2) := by decide
  rw [hvalue]
  rfl

end Sample

end CollectedSources.Antlr
