import CollectedSources.Machine.Blocks
import CollectedSources.Machine.Sine
import Mathlib

/-! # The transformation of a block

`body` unrolls the four rounds of the algorithm: 64 uses of one macro, each with
its own registers, word, constant and shift. On x86 the words are read where
they are; elsewhere the first round puts them into the context and the later
rounds read them there. The functions are rewritten to save operations. In RFC
1321 the rounds are 64 operations on rotating registers and the constants are
the sines of the first 64 numbers.
-/

namespace CollectedSources.Md5

open Blocks

abbrev U32plus := BitVec 32

def F (x y z : U32plus) : U32plus := z ^^^ (x &&& (y ^^^ z))

def G (x y z : U32plus) : U32plus := y ^^^ (z &&& (x ^^^ y))

def H (x y z : U32plus) : U32plus := (x ^^^ y) ^^^ z

def H2 (x y z : U32plus) : U32plus := x ^^^ (y ^^^ z)

def I (x y z : U32plus) : U32plus := y ^^^ (x ||| ~~~z)

/-- The new value of the first register. -/
def step (f : U32plus → U32plus → U32plus → U32plus) (a b c d x t : U32plus) (s : ℕ) : U32plus :=
  let a := a + (f b c d + x + t)
  let a := (a <<< s) ||| ((a &&& 0xffffffff) >>> (32 - s))
  a + b

structure Regs where
  a : U32plus
  b : U32plus
  c : U32plus
  d : U32plus
  deriving DecidableEq

inductive Reg | a | b | c | d
  deriving DecidableEq

inductive Fn | F | G | H | H2 | I
  deriving DecidableEq

inductive Word
  | set (n : Fin 16)
  | get (n : Fin 16)
  deriving DecidableEq

/-- The arguments of a use of `STEP`. -/
structure Step where
  f : Fn
  a : Reg
  b : Reg
  c : Reg
  d : Reg
  x : Word
  t : U32plus
  s : ℕ
  deriving DecidableEq

def round1 : List Step :=
  [⟨.F, .a, .b, .c, .d, .set 0, 0xd76aa478, 7⟩,
    ⟨.F, .d, .a, .b, .c, .set 1, 0xe8c7b756, 12⟩,
    ⟨.F, .c, .d, .a, .b, .set 2, 0x242070db, 17⟩,
    ⟨.F, .b, .c, .d, .a, .set 3, 0xc1bdceee, 22⟩,
    ⟨.F, .a, .b, .c, .d, .set 4, 0xf57c0faf, 7⟩,
    ⟨.F, .d, .a, .b, .c, .set 5, 0x4787c62a, 12⟩,
    ⟨.F, .c, .d, .a, .b, .set 6, 0xa8304613, 17⟩,
    ⟨.F, .b, .c, .d, .a, .set 7, 0xfd469501, 22⟩,
    ⟨.F, .a, .b, .c, .d, .set 8, 0x698098d8, 7⟩,
    ⟨.F, .d, .a, .b, .c, .set 9, 0x8b44f7af, 12⟩,
    ⟨.F, .c, .d, .a, .b, .set 10, 0xffff5bb1, 17⟩,
    ⟨.F, .b, .c, .d, .a, .set 11, 0x895cd7be, 22⟩,
    ⟨.F, .a, .b, .c, .d, .set 12, 0x6b901122, 7⟩,
    ⟨.F, .d, .a, .b, .c, .set 13, 0xfd987193, 12⟩,
    ⟨.F, .c, .d, .a, .b, .set 14, 0xa679438e, 17⟩,
    ⟨.F, .b, .c, .d, .a, .set 15, 0x49b40821, 22⟩]

def round2 : List Step :=
  [⟨.G, .a, .b, .c, .d, .get 1, 0xf61e2562, 5⟩,
    ⟨.G, .d, .a, .b, .c, .get 6, 0xc040b340, 9⟩,
    ⟨.G, .c, .d, .a, .b, .get 11, 0x265e5a51, 14⟩,
    ⟨.G, .b, .c, .d, .a, .get 0, 0xe9b6c7aa, 20⟩,
    ⟨.G, .a, .b, .c, .d, .get 5, 0xd62f105d, 5⟩,
    ⟨.G, .d, .a, .b, .c, .get 10, 0x02441453, 9⟩,
    ⟨.G, .c, .d, .a, .b, .get 15, 0xd8a1e681, 14⟩,
    ⟨.G, .b, .c, .d, .a, .get 4, 0xe7d3fbc8, 20⟩,
    ⟨.G, .a, .b, .c, .d, .get 9, 0x21e1cde6, 5⟩,
    ⟨.G, .d, .a, .b, .c, .get 14, 0xc33707d6, 9⟩,
    ⟨.G, .c, .d, .a, .b, .get 3, 0xf4d50d87, 14⟩,
    ⟨.G, .b, .c, .d, .a, .get 8, 0x455a14ed, 20⟩,
    ⟨.G, .a, .b, .c, .d, .get 13, 0xa9e3e905, 5⟩,
    ⟨.G, .d, .a, .b, .c, .get 2, 0xfcefa3f8, 9⟩,
    ⟨.G, .c, .d, .a, .b, .get 7, 0x676f02d9, 14⟩,
    ⟨.G, .b, .c, .d, .a, .get 12, 0x8d2a4c8a, 20⟩]

def round3 : List Step :=
  [⟨.H, .a, .b, .c, .d, .get 5, 0xfffa3942, 4⟩,
    ⟨.H2, .d, .a, .b, .c, .get 8, 0x8771f681, 11⟩,
    ⟨.H, .c, .d, .a, .b, .get 11, 0x6d9d6122, 16⟩,
    ⟨.H2, .b, .c, .d, .a, .get 14, 0xfde5380c, 23⟩,
    ⟨.H, .a, .b, .c, .d, .get 1, 0xa4beea44, 4⟩,
    ⟨.H2, .d, .a, .b, .c, .get 4, 0x4bdecfa9, 11⟩,
    ⟨.H, .c, .d, .a, .b, .get 7, 0xf6bb4b60, 16⟩,
    ⟨.H2, .b, .c, .d, .a, .get 10, 0xbebfbc70, 23⟩,
    ⟨.H, .a, .b, .c, .d, .get 13, 0x289b7ec6, 4⟩,
    ⟨.H2, .d, .a, .b, .c, .get 0, 0xeaa127fa, 11⟩,
    ⟨.H, .c, .d, .a, .b, .get 3, 0xd4ef3085, 16⟩,
    ⟨.H2, .b, .c, .d, .a, .get 6, 0x04881d05, 23⟩,
    ⟨.H, .a, .b, .c, .d, .get 9, 0xd9d4d039, 4⟩,
    ⟨.H2, .d, .a, .b, .c, .get 12, 0xe6db99e5, 11⟩,
    ⟨.H, .c, .d, .a, .b, .get 15, 0x1fa27cf8, 16⟩,
    ⟨.H2, .b, .c, .d, .a, .get 2, 0xc4ac5665, 23⟩]

def round4 : List Step :=
  [⟨.I, .a, .b, .c, .d, .get 0, 0xf4292244, 6⟩,
    ⟨.I, .d, .a, .b, .c, .get 7, 0x432aff97, 10⟩,
    ⟨.I, .c, .d, .a, .b, .get 14, 0xab9423a7, 15⟩,
    ⟨.I, .b, .c, .d, .a, .get 5, 0xfc93a039, 21⟩,
    ⟨.I, .a, .b, .c, .d, .get 12, 0x655b59c3, 6⟩,
    ⟨.I, .d, .a, .b, .c, .get 3, 0x8f0ccc92, 10⟩,
    ⟨.I, .c, .d, .a, .b, .get 10, 0xffeff47d, 15⟩,
    ⟨.I, .b, .c, .d, .a, .get 1, 0x85845dd1, 21⟩,
    ⟨.I, .a, .b, .c, .d, .get 8, 0x6fa87e4f, 6⟩,
    ⟨.I, .d, .a, .b, .c, .get 15, 0xfe2ce6e0, 10⟩,
    ⟨.I, .c, .d, .a, .b, .get 6, 0xa3014314, 15⟩,
    ⟨.I, .b, .c, .d, .a, .get 13, 0x4e0811a1, 21⟩,
    ⟨.I, .a, .b, .c, .d, .get 4, 0xf7537e82, 6⟩,
    ⟨.I, .d, .a, .b, .c, .get 11, 0xbd3af235, 10⟩,
    ⟨.I, .c, .d, .a, .b, .get 2, 0x2ad7d2bb, 15⟩,
    ⟨.I, .b, .c, .d, .a, .get 9, 0xeb86d391, 21⟩]

def steps : List Step := round1 ++ round2 ++ round3 ++ round4

def Fn.eval : Fn → U32plus → U32plus → U32plus → U32plus
  | .F => Md5.F
  | .G => Md5.G
  | .H => Md5.H
  | .H2 => Md5.H2
  | .I => Md5.I

def Regs.get (q : Regs) : Reg → U32plus
  | .a => q.a
  | .b => q.b
  | .c => q.c
  | .d => q.d

def Regs.set (q : Regs) (v : U32plus) : Reg → Regs
  | .a => { q with a := v }
  | .b => { q with b := v }
  | .c => { q with c := v }
  | .d => { q with d := v }

def Regs.add (q r : Regs) : Regs := ⟨q.a + r.a, q.b + r.b, q.c + r.c, q.d + r.d⟩

/-- The two definitions of `SET` and `GET`. -/
inductive Target | x86 | portable
  deriving DecidableEq

abbrev Block := Fin 16 → U32plus

def byteAt (ptr : List UInt8) (i : ℕ) : BitVec 8 := (ptr.getD i 0).toBitVec

/-- A load of four bytes, the first one lowest. -/
def load (ptr : List UInt8) (n : ℕ) : U32plus :=
  byteAt ptr (n * 4 + 3) ++ byteAt ptr (n * 4 + 2) ++ byteAt ptr (n * 4 + 1) ++ byteAt ptr (n * 4)

/-- The same word from single bytes. -/
def assemble (ptr : List UInt8) (n : ℕ) : U32plus :=
  (byteAt ptr (n * 4)).setWidth 32 ||| ((byteAt ptr (n * 4 + 1)).setWidth 32 <<< 8) |||
    ((byteAt ptr (n * 4 + 2)).setWidth 32 <<< 16) ||| ((byteAt ptr (n * 4 + 3)).setWidth 32 <<< 24)

/-- The word that `SET` or `GET` gives, with the words in the context. -/
def Word.eval (target : Target) (ptr : List UInt8) (block : Block) : Word → U32plus × Block
  | .set n =>
    match target with
    | .x86 => (load ptr n, block)
    | .portable => (assemble ptr n, Function.update block n (assemble ptr n))
  | .get n =>
    match target with
    | .x86 => (load ptr n, block)
    | .portable => (block n, block)

def Step.exec (target : Target) (ptr : List UInt8) (s : Regs × Block) (r : Step) : Regs × Block :=
  let x := r.x.eval target ptr s.2
  (s.1.set (step r.f.eval (s.1.get r.a) (s.1.get r.b) (s.1.get r.c) (s.1.get r.d) x.1 r.t r.s) r.a,
    x.2)

/-- The body of the loop, over the 64 bytes at `ptr`. -/
def transform (target : Target) (s : Regs × Block) (ptr : List UInt8) : Regs × Block :=
  let s' := steps.foldl (Step.exec target ptr) s
  (s'.1.add s.1, s'.2)

/-- The registers and words at the end, and the bytes from `ptr` on. The loop ends when `size` gets
to zero; it has no result when fewer than 64 bytes are left. -/
def body (target : Target) (s : Regs × Block) (data : List UInt8) (size : ℕ) :
    Option ((Regs × Block) × List UInt8) :=
  if data.length < 64 then none
  else
    let s' := transform target s data
    let size' := (size + 2 ^ 64 - 64) % 2 ^ 64
    if size' = 0 then some (s', data.drop 64) else body target s' (data.drop 64) size'
termination_by data.length
decreasing_by rw [List.length_drop]; omega

namespace Rfc

def F (x y z : U32plus) : U32plus := (x &&& y) ||| (~~~x &&& z)

def G (x y z : U32plus) : U32plus := (x &&& z) ||| (y &&& ~~~z)

def H (x y z : U32plus) : U32plus := x ^^^ y ^^^ z

def I (x y z : U32plus) : U32plus := y ^^^ (x ||| ~~~z)

/-- The function of a round. -/
def f : ℕ → U32plus → U32plus → U32plus → U32plus
  | 0 => F
  | 1 => G
  | 2 => H
  | _ => I

/-- The integer part of a sine, scaled. -/
noncomputable def T (i : ℕ) : U32plus := BitVec.ofNat 32 ⌊(4294967296 : ℕ) * |Real.sin i|⌋₊

def shift (i : ℕ) : ℕ :=
  match i / 16, i % 4 with
  | 0, 0 => 7 | 0, 1 => 12 | 0, 2 => 17 | 0, _ => 22
  | 1, 0 => 5 | 1, 1 => 9 | 1, 2 => 14 | 1, _ => 20
  | 2, 0 => 4 | 2, 1 => 11 | 2, 2 => 16 | 2, _ => 23
  | _, 0 => 6 | _, 1 => 10 | _, 2 => 15 | _, _ => 21

def index (i : ℕ) : Fin 16 :=
  match i / 16 with
  | 0 => Fin.ofNat 16 i
  | 1 => Fin.ofNat 16 (5 * i + 1)
  | 2 => Fin.ofNat 16 (3 * i + 5)
  | _ => Fin.ofNat 16 (7 * i)

/-- The words of a block, the first byte of each lowest. -/
def word (block : List UInt8) (n : Fin 16) : U32plus :=
  BitVec.ofNat 32 (Nat.ofDigits 256 (((block.drop (n * 4)).take 4).map UInt8.toNat))

noncomputable def operation (x : Block) (q : Regs) (i : ℕ) : Regs :=
  ⟨q.d, q.b + (q.a + f (i / 16) q.b q.c q.d + x (index i) + T (i + 1)).rotateLeft (shift i),
    q.b, q.c⟩

noncomputable def compress (q : Regs) (block : List UInt8) : Regs :=
  ((List.range 64).foldl (operation (word block)) q).add q

end Rfc

theorem F_eq (x y z : U32plus) : F x y z = Rfc.F x y z := by
  ext i hi
  simp only [F, Rfc.F, BitVec.getElem_xor, BitVec.getElem_and, BitVec.getElem_or,
    BitVec.getElem_not]
  cases x[i] <;> cases y[i] <;> cases z[i] <;> rfl

theorem G_eq (x y z : U32plus) : G x y z = Rfc.G x y z := by
  ext i hi
  simp only [G, Rfc.G, BitVec.getElem_xor, BitVec.getElem_and, BitVec.getElem_or,
    BitVec.getElem_not]
  cases x[i] <;> cases y[i] <;> cases z[i] <;> rfl

theorem H2_eq (x y z : U32plus) : H2 x y z = Rfc.H x y z := by
  rw [H2, Rfc.H, BitVec.xor_assoc]

/-- The round that uses a function. -/
def Fn.round : Fn → ℕ
  | .F => 0
  | .G => 1
  | .H => 2
  | .H2 => 2
  | .I => 3

theorem Fn.eval_eq (f : Fn) (x y z : U32plus) : f.eval x y z = Rfc.f f.round x y z := by
  cases f with
  | F => exact F_eq x y z
  | G => exact G_eq x y z
  | H => rfl
  | H2 => exact H2_eq x y z
  | I => rfl

theorem step_eq (f : U32plus → U32plus → U32plus → U32plus) (a b c d x t : U32plus) {s : ℕ}
    (hs : s < 32) : step f a b c d x t s = b + (a + f b c d + x + t).rotateLeft s := by
  have hmask : ∀ y : U32plus, y &&& 0xffffffff = y := fun y => by
    exact BitVec.and_allOnes
  rw [step, BitVec.rotateLeft_def, Nat.mod_eq_of_lt hs]
  simp only [hmask]
  rw [BitVec.add_comm, BitVec.add_assoc a, BitVec.add_assoc a, BitVec.add_assoc (f b c d)]

theorem toNat_or_shiftLeft {x : U32plus} {k : ℕ} (y : BitVec 8) (hx : x.toNat < 2 ^ k)
    (hk : k + 8 ≤ 32) : (x ||| (y.setWidth 32 <<< k)).toNat = x.toNat + y.toNat * 2 ^ k := by
  have hy : y.toNat * 2 ^ k < 2 ^ 32 := by
    calc y.toNat * 2 ^ k < 2 ^ 8 * 2 ^ k := Nat.mul_lt_mul_of_pos_right y.isLt (Nat.two_pow_pos k)
      _ ≤ 2 ^ 32 := by
        rw [← Nat.pow_add]
        exact Nat.pow_le_pow_right (by decide) (by omega)
  have hy' : y.toNat < 2 ^ 32 := Nat.lt_trans y.isLt (by decide)
  rw [BitVec.toNat_or, BitVec.toNat_shiftLeft, BitVec.toNat_setWidth, Nat.mod_eq_of_lt hy',
    Nat.shiftLeft_eq, Nat.mod_eq_of_lt hy, Nat.or_comm, ← Nat.shiftLeft_eq,
    ← Nat.shiftLeft_add_eq_or_of_lt hx, Nat.add_comm]

theorem toNat_append_byte {w : ℕ} (x : BitVec w) (y : BitVec 8) :
    (x ++ y).toNat = y.toNat + 256 * x.toNat := by
  rw [BitVec.toNat_append, ← Nat.shiftLeft_add_eq_or_of_lt y.isLt, Nat.shiftLeft_eq]
  omega

/-- The value of the four bytes of a word. -/
def value (ptr : List UInt8) (n : ℕ) : ℕ :=
  Nat.ofDigits 256 [(byteAt ptr (n * 4)).toNat, (byteAt ptr (n * 4 + 1)).toNat,
    (byteAt ptr (n * 4 + 2)).toNat, (byteAt ptr (n * 4 + 3)).toNat]

theorem toNat_load (ptr : List UInt8) (n : ℕ) : (load ptr n).toNat = value ptr n := by
  rw [load, value]
  generalize byteAt ptr (n * 4) = b₀
  generalize byteAt ptr (n * 4 + 1) = b₁
  generalize byteAt ptr (n * 4 + 2) = b₂
  generalize byteAt ptr (n * 4 + 3) = b₃
  change (b₃ ++ b₂ ++ b₁ ++ b₀ : BitVec (8 + 8 + 8 + 8)).toNat = _
  rw [toNat_append_byte, toNat_append_byte, toNat_append_byte]
  simp [Nat.ofDigits_cons]

theorem toNat_assemble (ptr : List UInt8) (n : ℕ) : (assemble ptr n).toNat = value ptr n := by
  rw [assemble, value]
  generalize byteAt ptr (n * 4) = b₀
  generalize byteAt ptr (n * 4 + 1) = b₁
  generalize byteAt ptr (n * 4 + 2) = b₂
  generalize byteAt ptr (n * 4 + 3) = b₃
  have h₀ : (b₀.setWidth 32).toNat = b₀.toNat := by
    rw [BitVec.toNat_setWidth]
    exact Nat.mod_eq_of_lt (Nat.lt_trans b₀.isLt (by decide))
  have hlt₀ := b₀.isLt
  have hlt₁ := b₁.isLt
  have hlt₂ := b₂.isLt
  have h₁ := toNat_or_shiftLeft (x := b₀.setWidth 32) (k := 8) b₁ (by omega) (by decide)
  have h₂ := toNat_or_shiftLeft (x := b₀.setWidth 32 ||| b₁.setWidth 32 <<< 8) (k := 16) b₂
    (by omega) (by decide)
  have h₃ := toNat_or_shiftLeft (k := 24) (x := b₀.setWidth 32 ||| b₁.setWidth 32 <<< 8 |||
    b₂.setWidth 32 <<< 16) b₃ (by omega) (by decide)
  rw [h₃, h₂, h₁, h₀]
  simp only [Nat.ofDigits_cons, Nat.ofDigits_nil]
  push_cast
  omega

theorem take_drop_four {ptr : List UInt8} {m : ℕ} (h : m + 4 ≤ ptr.length) :
    (ptr.drop m).take 4 =
      [ptr.getD m 0, ptr.getD (m + 1) 0, ptr.getD (m + 2) 0, ptr.getD (m + 3) 0] := by
  apply List.ext_getElem
  · simp
    omega
  · intro i h₁ h₂
    simp only [List.length_cons, List.length_nil] at h₂
    rw [List.getElem_take, List.getElem_drop]
    interval_cases i <;> simp [List.getD_eq_getElem?_getD] <;> rw [List.getElem?_eq_getElem] <;> rfl

theorem word_eq_ofNat {ptr : List UInt8} (h : 64 ≤ ptr.length) (n : Fin 16) :
    Rfc.word ptr n = BitVec.ofNat 32 (value ptr n) := by
  have hn : n.val * 4 + 4 ≤ ptr.length := by omega
  rw [Rfc.word, take_drop_four hn]
  rfl

/-- The registers of a use of `STEP` by its number. -/
def regsOf (i : ℕ) : Reg × Reg × Reg × Reg :=
  match i % 4 with
  | 0 => (.a, .b, .c, .d)
  | 1 => (.d, .a, .b, .c)
  | 2 => (.c, .d, .a, .b)
  | _ => (.b, .c, .d, .a)

/-- A use of `STEP` has the arguments of an operation of the algorithm. -/
structure Step.Of (i : ℕ) (r : Step) : Prop where
  f : r.f.round = i / 16
  regs : (r.a, r.b, r.c, r.d) = regsOf i
  x : r.x = if i < 16 then .set (Rfc.index i) else .get (Rfc.index i)
  s : r.s = Rfc.shift i
  lt : r.s < 32
  lo : r.t.toNat * Sine.scale ≤ 4294967296 * (|(Sine.angle (i + 1)).2| - 6 * (i + 1 : ℕ))
  hi : 4294967296 * (|(Sine.angle (i + 1)).2| + 6 * (i + 1 : ℕ)) < (r.t.toNat + 1) * Sine.scale

instance (i : ℕ) (r : Step) : Decidable (Step.Of i r) :=
  decidable_of_iff ((r.f.round = i / 16 ∧ (r.a, r.b, r.c, r.d) = regsOf i) ∧
    (r.x = (if i < 16 then .set (Rfc.index i) else .get (Rfc.index i)) ∧ r.s = Rfc.shift i ∧
      r.s < 32) ∧
    r.t.toNat * Sine.scale ≤ 4294967296 * (|(Sine.angle (i + 1)).2| - 6 * (i + 1 : ℕ)) ∧
    4294967296 * (|(Sine.angle (i + 1)).2| + 6 * (i + 1 : ℕ)) < (r.t.toNat + 1) * Sine.scale)
    ⟨fun ⟨⟨h₁, h₂⟩, ⟨h₃, h₄, h₅⟩, h₆, h₇⟩ => ⟨h₁, h₂, h₃, h₄, h₅, h₆, h₇⟩,
      fun h => ⟨⟨h.f, h.regs⟩, ⟨h.x, h.s, h.lt⟩, h.lo, h.hi⟩⟩

theorem steps_of : ∀ i : Fin steps.length, Step.Of i steps[i] := by
  decide +kernel

variable {target : Target} {ptr : List UInt8} {i : ℕ}

theorem Step.Of.T_eq {r : Step} (h : r.Of i) (hi : i < 64) : r.t = Rfc.T (i + 1) := by
  have hsmall : (6 * (i + 1 : ℕ) : ℝ) ≤ Sine.scale := by
    have hle : (6 * (i + 1) : ℤ) ≤ Sine.scale := by
      rw [Sine.scale]
      omega
    exact_mod_cast hle
  rw [Rfc.T, Sine.floor_mul_abs_sin hsmall h.lo h.hi, BitVec.ofNat_toNat, BitVec.setWidth_eq]

/-- The registers in the order of an operation. -/
def Regs.view (q : Regs) (i : ℕ) : Regs :=
  ⟨q.get (regsOf i).1, q.get (regsOf i).2.1, q.get (regsOf i).2.2.1, q.get (regsOf i).2.2.2⟩

theorem Regs.view_set (q : Regs) (i : ℕ) (v : U32plus) :
    (q.set v (regsOf i).1).view (i + 1) = ⟨(q.view i).d, v, (q.view i).b, (q.view i).c⟩ := by
  have hmod : i % 4 = 0 ∨ i % 4 = 1 ∨ i % 4 = 2 ∨ i % 4 = 3 := by omega
  rcases hmod with h | h | h | h
  · have h' : (i + 1) % 4 = 1 := by omega
    simp only [view, regsOf, h, h']
    rfl
  · have h' : (i + 1) % 4 = 2 := by omega
    simp only [view, regsOf, h, h']
    rfl
  · have h' : (i + 1) % 4 = 3 := by omega
    simp only [view, regsOf, h, h']
    rfl
  · have h' : (i + 1) % 4 = 0 := by omega
    simp only [view, regsOf, h, h']
    rfl

/-- Off x86 the words of the first steps are in the context. -/
def Filled (target : Target) (ptr : List UInt8) (i : ℕ) (block : Block) : Prop :=
  target = .portable → ∀ n : Fin 16, n.val < i → block n = Rfc.word ptr n

theorem load_eq (h : 64 ≤ ptr.length) (n : Fin 16) : load ptr n = Rfc.word ptr n := by
  rw [word_eq_ofNat h, ← toNat_load, BitVec.ofNat_toNat, BitVec.setWidth_eq]

theorem assemble_eq (h : 64 ≤ ptr.length) (n : Fin 16) : assemble ptr n = Rfc.word ptr n := by
  rw [word_eq_ofNat h, ← toNat_assemble, BitVec.ofNat_toNat, BitVec.setWidth_eq]

theorem index_of_lt (h : i < 16) : (Rfc.index i).val = i := by
  have hdiv : i / 16 = 0 := Nat.div_eq_of_lt h
  simp only [Rfc.index, hdiv, Fin.val_ofNat]
  exact Nat.mod_eq_of_lt h

theorem eval_set (h : 64 ≤ ptr.length) (hi : i < 16) {block : Block}
    (hb : Filled target ptr i block) :
    ((Word.set (Rfc.index i)).eval target ptr block).1 = Rfc.word ptr (Rfc.index i) ∧
      Filled target ptr (i + 1) ((Word.set (Rfc.index i)).eval target ptr block).2 := by
  cases target with
  | x86 => exact ⟨load_eq h _, nofun⟩
  | portable =>
    refine ⟨assemble_eq h _, fun _ n hn => ?_⟩
    simp only [Word.eval]
    rcases Nat.lt_or_ge n.val i with hlt | hge
    · have hne : n ≠ Rfc.index i := by
        rintro rfl
        rw [index_of_lt hi] at hlt
        exact Nat.lt_irrefl i hlt
      rw [Function.update_of_ne hne]
      exact hb rfl n hlt
    · have heq : n = Rfc.index i := by
        apply Fin.ext
        rw [index_of_lt hi]
        omega
      rw [heq, Function.update_self]
      exact assemble_eq h _

theorem eval_get (h : 64 ≤ ptr.length) (hi : 16 ≤ i) {block : Block}
    (hb : Filled target ptr i block) (n : Fin 16) :
    ((Word.get n).eval target ptr block).1 = Rfc.word ptr n ∧
      Filled target ptr (i + 1) ((Word.get n).eval target ptr block).2 := by
  cases target with
  | x86 => exact ⟨load_eq h _, nofun⟩
  | portable => exact ⟨hb rfl n (by omega), fun _ m _ => hb rfl m (by omega)⟩

/-- A use of `STEP` is the operation with its number. -/
theorem exec_view {r : Step} {s : Regs × Block} (h : 64 ≤ ptr.length) (hi : i < 64) (hr : r.Of i)
    (hb : Filled target ptr i s.2) :
    (r.exec target ptr s).1.view (i + 1) = Rfc.operation (Rfc.word ptr) (s.1.view i) i ∧
      Filled target ptr (i + 1) (r.exec target ptr s).2 := by
  have hx : (r.x.eval target ptr s.2).1 = Rfc.word ptr (Rfc.index i) ∧
      Filled target ptr (i + 1) (r.x.eval target ptr s.2).2 := by
    rw [hr.x]
    split_ifs with hlt
    · exact eval_set h hlt hb
    · exact eval_get h (Nat.le_of_not_lt hlt) hb _
  refine ⟨?_, hx.2⟩
  have hregs := hr.regs
  simp only [Prod.ext_iff] at hregs
  obtain ⟨ha, hb, hc, hd⟩ := hregs
  simp only [Step.exec, ha, Regs.view_set, Rfc.operation]
  rw [step_eq _ _ _ _ _ _ _ hr.lt, hx.1, hr.T_eq hi, hr.s, Fn.eval_eq, hr.f, hb, hc, hd]
  rfl

theorem length_steps : steps.length = 64 := rfl

/-- The first uses of `STEP` are the first operations. -/
theorem foldl_exec_view (h : 64 ≤ ptr.length) (s : Regs × Block) (hi : i ≤ 64) :
    ((steps.take i).foldl (Step.exec target ptr) s).1.view i =
        (List.range i).foldl (Rfc.operation (Rfc.word ptr)) s.1 ∧
      Filled target ptr i ((steps.take i).foldl (Step.exec target ptr) s).2 := by
  induction i with
  | zero => exact ⟨rfl, fun _ n hn => absurd hn (Nat.not_lt_zero _)⟩
  | succ i ih =>
    obtain ⟨hq, hb⟩ := ih (Nat.le_of_succ_le hi)
    have hlt : i < steps.length := hi
    have hr : steps[i].Of i := steps_of ⟨i, hlt⟩
    rw [List.take_succ_eq_append_getElem hlt, List.foldl_append, List.foldl_cons, List.foldl_nil,
      List.range_succ, List.foldl_append, List.foldl_cons, List.foldl_nil, ← hq]
    exact exec_view h hi hr hb

theorem word_take (ptr : List UInt8) : Rfc.word (ptr.take 64) = Rfc.word ptr := by
  ext1 n
  rw [Rfc.word, List.drop_take, List.take_take, min_eq_left (by omega), Rfc.word]

theorem transform_regs (h : 64 ≤ ptr.length) (s : Regs × Block) :
    (transform target s ptr).1 = Rfc.compress s.1 (ptr.take 64) := by
  obtain ⟨hq, -⟩ := foldl_exec_view h s (Nat.le_refl 64)
  have htake : steps.take 64 = steps := List.take_of_length_le (Nat.le_of_eq length_steps)
  rw [htake] at hq
  have hview : ∀ q : Regs, q.view 64 = q := fun _ => rfl
  rw [transform, Rfc.compress, word_take, ← hq, hview]

theorem body_step (s : Regs × Block) {data : List UInt8} (size : ℕ) (h : 64 ≤ data.length) :
    body target s data size =
      if (size + 2 ^ 64 - 64) % 2 ^ 64 = 0 then some (transform target s data, data.drop 64)
      else body target (transform target s data) (data.drop 64)
        ((size + 2 ^ 64 - 64) % 2 ^ 64) := by
  rw [body, if_neg (Nat.not_lt.mpr h)]

/-- `body` runs the algorithm over all blocks of its input, on both kinds of targets, and returns
the end of the input. -/
theorem body_eq (target : Target) {k : ℕ} (s : Regs × Block) (data : List UInt8) (hk : 0 < k)
    (hsize : k * 64 < 2 ^ 64) (hdata : k * 64 ≤ data.length) :
    ∃ block, body target s data (k * 64) =
      some ((whole 64 Rfc.compress s.1 (data.take (k * 64)), block), data.drop (k * 64)) := by
  induction k generalizing s data with
  | zero => exact absurd hk (Nat.lt_irrefl 0)
  | succ k ih =>
    have hlen : 64 ≤ data.length := by omega
    have hmod : ((k + 1) * 64 + 2 ^ 64 - 64) % 2 ^ 64 = k * 64 := by omega
    have hcount : (k + 1) * 64 = 64 + k * 64 := by rw [Nat.add_mul, Nat.one_mul, Nat.add_comm]
    have hsplit : data.take ((k + 1) * 64) = data.take 64 ++ (data.drop 64).take (k * 64) := by
      rw [hcount, List.take_add]
    have hdrop : data.drop ((k + 1) * 64) = (data.drop 64).drop (k * 64) := by
      rw [hcount, List.drop_drop]
    rw [body_step _ _ hlen, hmod, hsplit,
      whole_append_of_length (by decide) (List.length_take_of_le hlen), hdrop,
      ← transform_regs hlen s]
    generalize transform target s data = s'
    obtain ⟨q, block⟩ := s'
    rcases Nat.eq_zero_or_pos k with rfl | hpos
    · have hnone : whole 64 Rfc.compress q [] = q := whole_of_lt (Nat.zero_lt_succ 63)
      refine ⟨block, ?_⟩
      rw [if_pos (Nat.zero_mul 64), Nat.zero_mul, List.take_zero, hnone, List.drop_zero]
    · rw [if_neg (by omega)]
      exact ih _ _ hpos (by omega) (by rw [List.length_drop]; omega)

theorem size_of_body {s : Regs × Block} {data : List UInt8} {size : ℕ}
    {r : (Regs × Block) × List UInt8} (hsize : size < 2 ^ 64)
    (h : body target s data size = some r) :
    64 ∣ size ∧ (if size = 0 then 2 ^ 64 else size) ≤ data.length := by
  induction hl : data.length using Nat.strong_induction_on generalizing s data size with
  | h l ih =>
    rcases Nat.lt_or_ge data.length 64 with hlt | hge
    · rw [body, if_pos hlt] at h
      cases h
    · rw [body_step _ _ hge] at h
      split_ifs at h with hend
      · have heq : size = 64 := by omega
        rw [heq, if_neg (by decide), ← hl]
        exact ⟨Nat.dvd_refl 64, hge⟩
      · have hdrop : (data.drop 64).length = l - 64 := by rw [List.length_drop, hl]
        obtain ⟨hdvd, hle⟩ := ih (l - 64) (by omega) (Nat.mod_lt _ (by decide)) h hdrop
        rw [if_neg hend] at hle
        split_ifs with hzero
        · omega
        · omega

/-- `body` stays inside its input exactly if the size is a positive number of whole blocks of it,
and then gives the registers of RFC 1321 and the end of the input, with the words of the context or
without them. -/
theorem body_spec (target : Target) (s : Regs × Block) {data : List UInt8} {size : ℕ}
    (hsize : size < 2 ^ 64) (hdata : data.length < 2 ^ 64) :
    (∀ r, body target s data size = some r →
      r.1.1 = whole 64 Rfc.compress s.1 (data.take size) ∧ r.2 = data.drop size) ∧
    ((body target s data size).isSome ↔ 0 < size ∧ 64 ∣ size ∧ size ≤ data.length) := by
  have hback : ∀ r, body target s data size = some r →
      0 < size ∧ 64 ∣ size ∧ size ≤ data.length := by
    intro r hr
    obtain ⟨hdvd, hle⟩ := size_of_body hsize hr
    split_ifs at hle with hzero
    · omega
    · exact ⟨Nat.pos_of_ne_zero hzero, hdvd, hle⟩
  have hrun : 0 < size → 64 ∣ size → size ≤ data.length → ∃ block, body target s data size =
      some ((whole 64 Rfc.compress s.1 (data.take size), block), data.drop size) := by
    rintro hpos ⟨k, rfl⟩ hle
    rw [Nat.mul_comm 64 k] at hsize hle ⊢
    exact body_eq target s data (by omega) hsize hle
  constructor
  · intro r hr
    obtain ⟨hpos, hdvd, hle⟩ := hback r hr
    obtain ⟨block, hbody⟩ := hrun hpos hdvd hle
    obtain rfl := Option.some.inj (hr.symm.trans hbody)
    exact ⟨rfl, rfl⟩
  · constructor
    · intro h
      obtain ⟨r, hr⟩ := Option.isSome_iff_exists.mp h
      exact hback r hr
    · rintro ⟨hpos, hdvd, hle⟩
      obtain ⟨block, hbody⟩ := hrun hpos hdvd hle
      rw [hbody]
      rfl

theorem body_spec_twoBlocks :
    (body .portable (⟨0, 0, 0, 0⟩, fun _ => 0) (List.replicate 130 7) 128).isSome ∧
      ¬ (body .x86 (⟨0, 0, 0, 0⟩, fun _ => 0) (List.replicate 130 7) 130).isSome := by
  have hlen : (List.replicate 130 (7 : UInt8)).length < 2 ^ 64 := by
    rw [List.length_replicate]
    decide
  constructor
  · rw [(body_spec .portable _ (by decide) hlen).2, List.length_replicate]
    decide
  · rw [(body_spec .x86 _ (by decide) hlen).2]
    decide

end CollectedSources.Md5
