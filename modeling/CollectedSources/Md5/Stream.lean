import CollectedSources.Md5.Body
import Mathlib

/-! # The digest of a stream

A context counts the bytes of a message in two words of 29 and 32 bits and keeps
in a buffer what does not fill a block. `md5Final` pads the message and writes
the digest. However a message is split into parts, the digest is that of
RFC 1321.
-/

namespace CollectedSources.Md5

open Blocks

structure Buffer where
  bytes : List UInt8
  length_eq : bytes.length = 64

/-- A copy into the buffer, if it stays inside the buffer and its source. -/
def Buffer.memcpy (buffer : Buffer) (p : ℕ) (src : List UInt8) (size : ℕ) : Option Buffer :=
  if h : p + size ≤ 64 ∧ size ≤ src.length then
    some ⟨buffer.bytes.take p ++ (src.take size ++ buffer.bytes.drop (p + size)), by
      have := buffer.length_eq
      simp
      omega⟩
  else none

def Buffer.memset (buffer : Buffer) (p : ℕ) (c : UInt8) (size : ℕ) : Option Buffer :=
  buffer.memcpy p (List.replicate size c) size

structure Ctx where
  lo : U32plus
  hi : U32plus
  regs : Regs
  buffer : Buffer
  block : Block

def Ctx.body (target : Target) (ctx : Ctx) (data : List UInt8) (size : ℕ) :
    Option (Ctx × List UInt8) :=
  (Md5.body target (ctx.regs, ctx.block) data size).map fun r =>
    ({ ctx with regs := r.1.1, block := r.1.2 }, r.2)

def initRegs : Regs := ⟨0x67452301, 0xefcdab89, 0x98badcfe, 0x10325476⟩

def md5Init (ctx : Ctx) : Ctx := { ctx with regs := initRegs, lo := 0, hi := 0 }

/-- The new number of bytes. -/
def Ctx.count (ctx : Ctx) (size : ℕ) : Ctx :=
  let lo : U32plus := BitVec.ofNat 32 ((ctx.lo.toNat + size) % 2 ^ 64 &&& 0x1fffffff)
  let hi := if lo < ctx.lo then ctx.hi + 1 else ctx.hi
  { ctx with lo, hi := hi + BitVec.ofNat 32 (size >>> 29) }

/-- The whole blocks of the input, and what is left of it. -/
def Ctx.takeBlocks (target : Target) (ctx : Ctx) (data : List UInt8) (size : ℕ) :
    Option (Ctx × List UInt8 × ℕ) :=
  if 64 ≤ size then
    (ctx.body target data (size &&& 0xffffffffffffffc0)).map fun r => (r.1, r.2, size &&& 0x3f)
  else some (ctx, data, size)

/-- The end of `md5Update`, with an empty buffer. -/
def Ctx.absorb (target : Target) (ctx : Ctx) (data : List UInt8) (size : ℕ) : Option Ctx :=
  (ctx.takeBlocks target data size).bind fun r =>
    (r.1.buffer.memcpy 0 r.2.1 r.2.2).map fun buffer => { r.1 with buffer }

def md5Update (target : Target) (ctx : Ctx) (data : List UInt8) (size : ℕ) : Option Ctx :=
  let used := ctx.lo.toNat &&& 0x3f
  let ctx := ctx.count size
  if used = 0 then ctx.absorb target data size
  else
    let available := 64 - used
    if size < available then
      (ctx.buffer.memcpy used data size).map fun buffer => { ctx with buffer }
    else do
      let buffer ← ctx.buffer.memcpy used data available
      let (ctx, _) ← Ctx.body target { ctx with buffer } buffer.bytes 64
      ctx.absorb target (data.drop available) (size - available)

/-- The bytes of a word, as they are written one by one. -/
def bytes (w : U32plus) : List UInt8 :=
  [⟨w.setWidth 8⟩, ⟨(w >>> 8).setWidth 8⟩, ⟨(w >>> 16).setWidth 8⟩, ⟨(w >>> 24).setWidth 8⟩]

/-- The context after `memset`. -/
def Ctx.cleared : Ctx :=
  ⟨0, 0, ⟨0, 0, 0, 0⟩, ⟨List.replicate 64 0, List.length_replicate⟩, fun _ => 0⟩

/-- The context, the used bytes and the available ones before the zeros of `md5Final`, after a
block when the length does not fit. -/
def Ctx.lastBlock (target : Target) (ctx : Ctx) (used available : ℕ) : Option (Ctx × ℕ × ℕ) :=
  if available < 8 then
    (ctx.buffer.memset used 0 available).bind fun buffer =>
      (Ctx.body target { ctx with buffer } buffer.bytes 64).map fun r => (r.1, 0, 64)
  else some (ctx, used, available)

/-- The digest and the context at the end. -/
def md5Final (target : Target) (ctx : Ctx) : Option (List UInt8 × Ctx) := do
  let used := ctx.lo.toNat &&& 0x3f
  let buffer ← ctx.buffer.memset used 0x80 1
  let used := used + 1
  let (ctx, used, available) ← Ctx.lastBlock target { ctx with buffer } used (64 - used)
  let buffer ← ctx.buffer.memset used 0 (available - 8)
  let buffer ← buffer.memcpy 56 (bytes (ctx.lo <<< 3) ++ bytes ctx.hi) 8
  let (ctx, _) ← Ctx.body target { ctx with buffer } buffer.bytes 64
  pure (bytes ctx.regs.a ++ bytes ctx.regs.b ++ bytes ctx.regs.c ++ bytes ctx.regs.d, Ctx.cleared)

namespace Rfc

/-- The low bytes of a number, the lowest one first. -/
def encode (k v : ℕ) : List UInt8 := (List.range k).map fun i => UInt8.ofNat (v / 256 ^ i)

/-- A message, a set bit, zeros and the number of bits of the message. -/
def pad (m : List UInt8) : List UInt8 :=
  m ++ (0x80 :: (List.replicate ((119 - m.length % 64) % 64) 0 ++ encode 8 (8 * m.length)))

def output (q : Regs) : List UInt8 :=
  encode 4 q.a.toNat ++ encode 4 q.b.toNat ++ encode 4 q.c.toNat ++ encode 4 q.d.toNat

noncomputable def md5 (m : List UInt8) : List UInt8 := output (whole 64 compress initRegs (pad m))

end Rfc

variable {target : Target} {m : List UInt8}

theorem memcpy_eq (buffer : Buffer) (p size : ℕ) (src : List UInt8) (hp : p + size ≤ 64)
    (hs : size ≤ src.length) : ∃ buffer', buffer.memcpy p src size = some buffer' ∧
      buffer'.bytes.take (p + size) = buffer.bytes.take p ++ src.take size := by
  have hlen := buffer.length_eq
  have htake : (buffer.bytes.take p ++ src.take size).length = p + size := by
    rw [List.length_append, List.length_take_of_le (by omega), List.length_take_of_le hs]
  rw [Buffer.memcpy, dif_pos ⟨hp, hs⟩]
  refine ⟨_, rfl, ?_⟩
  simp only [← List.append_assoc]
  exact List.take_left' htake

theorem memset_eq (buffer : Buffer) (p size : ℕ) (c : UInt8) (hp : p + size ≤ 64) :
    ∃ buffer', buffer.memset p c size = some buffer' ∧
      buffer'.bytes.take (p + size) = buffer.bytes.take p ++ List.replicate size c := by
  obtain ⟨buffer', hcpy, htake⟩ :=
    memcpy_eq buffer p size (List.replicate size c) hp (Nat.le_of_eq List.length_replicate.symm)
  rw [List.take_of_length_le (Nat.le_of_eq List.length_replicate)] at htake
  exact ⟨buffer', hcpy, htake⟩

theorem ctx_body_buffer (target : Target) (ctx : Ctx) (buffer : Buffer) :
    ∃ ctx', ({ ctx with buffer } : Ctx).body target buffer.bytes 64 = some (ctx', []) ∧
      ctx'.regs = Rfc.compress ctx.regs buffer.bytes ∧ ctx'.lo = ctx.lo ∧ ctx'.hi = ctx.hi ∧
      ctx'.buffer = buffer := by
  have hlen := buffer.length_eq
  obtain ⟨block, hbody⟩ := body_eq target (k := 1) (ctx.regs, ctx.block) buffer.bytes
    (by decide) (by decide) (Nat.le_of_eq hlen.symm)
  have htake : buffer.bytes.take (1 * 64) = buffer.bytes := List.take_of_length_le (by omega)
  have hdrop : buffer.bytes.drop (1 * 64) = [] := List.drop_eq_nil_of_le (by omega)
  have hwhole : whole 64 Rfc.compress ctx.regs buffer.bytes =
      Rfc.compress ctx.regs buffer.bytes := whole_of_length_eq (by decide) hlen
  rw [htake, hdrop, hwhole, Nat.one_mul] at hbody
  refine ⟨{ ctx with buffer, regs := Rfc.compress ctx.regs buffer.bytes, block }, ?_, rfl, rfl, rfl,
    rfl⟩
  rw [Ctx.body, hbody]
  rfl

theorem and_low (x : ℕ) : x &&& 0x3f = x % 64 := Nat.and_two_pow_sub_one_eq_mod x 6

theorem and_high {x : ℕ} (h : x < 2 ^ 64) : x &&& 0xffffffffffffffc0 = x / 64 * 64 := by
  have hmask : 0xffffffffffffffc0 = (2 ^ 58 - 1) <<< 6 := by decide
  have hshift : x / 64 * 64 = (x >>> 6) <<< 6 := by
    rw [Nat.shiftRight_eq_div_pow, Nat.shiftLeft_eq]
  rw [hmask, hshift]
  apply Nat.eq_of_testBit_eq
  intro i
  rw [Nat.testBit_and, Nat.testBit_shiftLeft, Nat.testBit_shiftLeft, Nat.testBit_shiftRight,
    Nat.testBit_two_pow_sub_one]
  by_cases hi : 6 ≤ i
  · rw [Nat.add_sub_cancel' hi]
    by_cases hlt : i - 6 < 58
    · simp [hi, hlt]
    · have hbit : x.testBit i = false :=
        Nat.testBit_lt_two_pow (Nat.lt_of_lt_of_le h (Nat.pow_le_pow_right (by decide) (by omega)))
      simp [hbit]
  · simp [hi]

theorem count_lo {ctx : Ctx} {len : ℕ} (size : ℕ) (h : ctx.lo.toNat = len % 2 ^ 29) :
    (ctx.count size).lo.toNat = (len + size) % 2 ^ 29 := by
  have hmask : ∀ x : ℕ, x &&& 0x1fffffff = x % 2 ^ 29 := fun x =>
    Nat.and_two_pow_sub_one_eq_mod x 29
  rw [Ctx.count, BitVec.toNat_ofNat, hmask, h]
  omega

theorem count_hi {ctx : Ctx} {len : ℕ} (size : ℕ) (hlo : ctx.lo.toNat = len % 2 ^ 29)
    (hhi : ctx.hi.toNat = len / 2 ^ 29 % 2 ^ 32) :
    (ctx.count size).hi.toNat = (len + size) / 2 ^ 29 % 2 ^ 32 := by
  have hnew := count_lo size hlo
  have hcarry : (ctx.count size).hi =
      (if (ctx.count size).lo < ctx.lo then ctx.hi + 1 else ctx.hi) +
        BitVec.ofNat 32 (size / 2 ^ 29) := by
    rw [← Nat.shiftRight_eq_div_pow]
    rfl
  rw [hcarry, BitVec.toNat_add, BitVec.toNat_ofNat]
  split_ifs with hlt
  · rw [BitVec.lt_def, hnew, hlo] at hlt
    have hone : (1 : U32plus).toNat = 1 := rfl
    rw [BitVec.toNat_add, hhi, hone]
    omega
  · rw [BitVec.lt_def, hnew, hlo] at hlt
    rw [hhi]
    omega

/-- The registers have taken the whole blocks of a message, and the buffer holds the rest. -/
structure Ctx.Holds (ctx : Ctx) (m : List UInt8) : Prop where
  regs : ctx.regs = whole 64 Rfc.compress initRegs m
  buffer : ctx.buffer.bytes.take (m.length % 64) = rest 64 m

/-- A context after a message. -/
structure Ctx.Absorbed (ctx : Ctx) (m : List UInt8) : Prop where
  holds : ctx.Holds m
  lo : ctx.lo.toNat = m.length % 2 ^ 29
  hi : ctx.hi.toNat = m.length / 2 ^ 29 % 2 ^ 32

theorem takeBlocks_eq (target : Target) (ctx : Ctx) {data : List UInt8} {size : ℕ}
    (hsize : size < 2 ^ 64) (hdata : size ≤ data.length) :
    ∃ ctx', ctx.takeBlocks target data size =
        some (ctx', data.drop (size / 64 * 64), size % 64) ∧
      ctx'.lo = ctx.lo ∧ ctx'.hi = ctx.hi ∧ ctx'.buffer = ctx.buffer ∧
      ctx'.regs = whole 64 Rfc.compress ctx.regs (data.take (size / 64 * 64)) := by
  rw [Ctx.takeBlocks]
  split_ifs with h
  · obtain ⟨block, hbody⟩ := body_eq target (k := size / 64) (ctx.regs, ctx.block) data
      (by omega) (by omega) (by omega)
    rw [and_high hsize, and_low, Ctx.body, hbody]
    exact ⟨_, rfl, rfl, rfl, rfl, rfl⟩
  · have hdiv : size / 64 * 64 = 0 := by omega
    have hmod : size % 64 = size := Nat.mod_eq_of_lt (Nat.lt_of_not_le h)
    rw [hdiv, hmod, List.drop_zero, List.take_zero]
    exact ⟨ctx, rfl, rfl, rfl, rfl, (whole_of_lt (by decide)).symm⟩

theorem absorb_eq (target : Target) {ctx : Ctx} (data : List UInt8) (size : ℕ) (hm : 64 ∣ m.length)
    (hregs : ctx.regs = whole 64 Rfc.compress initRegs m) (hsize : size < 2 ^ 64)
    (hdata : size ≤ data.length) :
    ∃ ctx', ctx.absorb target data size = some ctx' ∧ ctx'.Holds (m ++ data.take size) ∧
      ctx'.lo = ctx.lo ∧ ctx'.hi = ctx.hi := by
  obtain ⟨ctx₁, hblocks, hlo, hhi, hbuf, hregs₁⟩ := takeBlocks_eq target ctx hsize hdata
  have hlen : size % 64 ≤ (data.drop (size / 64 * 64)).length := by
    rw [List.length_drop]
    omega
  obtain ⟨buffer, hcpy, htake⟩ := memcpy_eq ctx₁.buffer 0 (size % 64)
    (data.drop (size / 64 * 64)) (by have := Nat.mod_lt size (y := 64) (by decide); omega) hlen
  have hsplit : data.take size =
      data.take (size / 64 * 64) ++ (data.drop (size / 64 * 64)).take (size % 64) := by
    rw [← List.take_add]
    congr 1
    omega
  have hfull : 64 ∣ (data.take (size / 64 * 64)).length := by
    rw [List.length_take_of_le (by omega)]
    exact Nat.dvd_mul_left 64 _
  have hshort : ((data.drop (size / 64 * 64)).take (size % 64)).length < 64 := by
    rw [List.length_take_of_le hlen]
    exact Nat.mod_lt _ (by decide)
  have hmod : (m ++ data.take size).length % 64 = size % 64 := by
    rw [List.length_append, List.length_take_of_le hdata]
    omega
  refine ⟨{ ctx₁ with buffer }, ?_, ⟨?_, ?_⟩, hlo, hhi⟩
  · rw [Ctx.absorb, hblocks]
    simp only [Option.bind_some, hcpy, Option.map_some]
  · rw [whole_append_of_dvd (by decide) hm, hsplit, whole_append_of_dvd (by decide) hfull,
      whole_of_lt hshort, ← hregs]
    exact hregs₁
  · rw [Nat.zero_add, List.take_zero, List.nil_append] at htake
    rw [hmod, rest_append_of_dvd (by decide) hm, hsplit, rest_append_of_dvd (by decide) hfull,
      rest_of_lt hshort]
    exact htake

theorem Ctx.Absorbed.used {ctx : Ctx} (h : ctx.Absorbed m) :
    ctx.lo.toNat &&& 0x3f = m.length % 64 := by
  rw [and_low, h.lo]
  omega

theorem Ctx.Absorbed.count {ctx ctx' : Ctx} {data : List UInt8} {size : ℕ} (h : ctx.Absorbed m)
    (hdata : size ≤ data.length) (hlo : ctx'.lo = (ctx.count size).lo)
    (hhi : ctx'.hi = (ctx.count size).hi) (hholds : ctx'.Holds (m ++ data.take size)) :
    ctx'.Absorbed (m ++ data.take size) := by
  have hlen : (m ++ data.take size).length = m.length + size := by
    rw [List.length_append, List.length_take_of_le hdata]
  refine ⟨hholds, ?_, ?_⟩
  · rw [hlo, hlen]
    exact count_lo size h.lo
  · rw [hhi, hlen]
    exact count_hi size h.lo h.hi

theorem holds_short {ctx : Ctx} {xs : List UInt8} {buffer : Buffer} (h : ctx.Holds m)
    (hlt : m.length % 64 + xs.length < 64)
    (hbuf : buffer.bytes.take (m.length % 64 + xs.length) =
      ctx.buffer.bytes.take (m.length % 64) ++ xs) :
    ({ ctx with buffer } : Ctx).Holds (m ++ xs) := by
  have hshort : (rest 64 m ++ xs).length < 64 := by
    rwa [List.length_append, length_rest]
  have hmod : (m ++ xs).length % 64 = m.length % 64 + xs.length := by
    rw [List.length_append]
    omega
  constructor
  · rw [whole_append (by decide), whole_of_lt hshort]
    exact h.regs
  · rw [hmod, rest_append (by decide), rest_of_lt hshort, ← h.buffer]
    exact hbuf

theorem regs_full {ctx : Ctx} {xs : List UInt8} {buffer : Buffer} (h : ctx.Holds m)
    (hfull : m.length % 64 + xs.length = 64)
    (hbuf : buffer.bytes = ctx.buffer.bytes.take (m.length % 64) ++ xs) :
    Rfc.compress ctx.regs buffer.bytes = whole 64 Rfc.compress initRegs (m ++ xs) := by
  have hblock : (rest 64 m ++ xs).length = 64 := by
    rwa [List.length_append, length_rest]
  rw [whole_append (by decide), whole_of_length_eq (by decide) hblock, h.regs, hbuf, h.buffer]

theorem take_full (buffer : Buffer) {p size : ℕ} (h : p + size = 64) :
    buffer.bytes.take (p + size) = buffer.bytes := by
  rw [h, ← buffer.length_eq, List.take_length]

theorem md5Update_eq (target : Target) {ctx : Ctx} {data : List UInt8} {size : ℕ}
    (h : ctx.Absorbed m) (hsize : size < 2 ^ 64) (hdata : size ≤ data.length) :
    ∃ ctx', md5Update target ctx data size = some ctx' ∧ ctx'.Absorbed (m ++ data.take size) := by
  have hmod : m.length % 64 < 64 := Nat.mod_lt _ (by decide)
  have hcount : (ctx.count size).Holds m := ⟨h.holds.regs, h.holds.buffer⟩
  rw [md5Update, h.used]
  dsimp only
  split_ifs with hzero hlt
  · obtain ⟨ctx', habs, hholds, hlo, hhi⟩ := absorb_eq target data size
      (Nat.dvd_of_mod_eq_zero hzero) hcount.regs hsize hdata
    exact ⟨ctx', habs, h.count hdata hlo hhi hholds⟩
  · obtain ⟨buffer, hcpy, htake⟩ := memcpy_eq (ctx.count size).buffer
      (m.length % 64) size data (by omega) hdata
    rw [hcpy]
    refine ⟨_, rfl, h.count hdata rfl rfl (holds_short hcount ?_ ?_)⟩
    · rw [List.length_take_of_le hdata]
      omega
    · rwa [List.length_take_of_le hdata]
  · have havail : 64 - m.length % 64 ≤ data.length := by omega
    obtain ⟨buffer, hcpy, htake⟩ := memcpy_eq (ctx.count size).buffer
      (m.length % 64) (64 - m.length % 64) data (by omega) havail
    obtain ⟨ctx₁, hbody, hregs, hlo₁, hhi₁, -⟩ :=
      ctx_body_buffer target (ctx.count size) buffer
    rw [take_full _ (by omega)] at htake
    have hlen : (data.take (64 - m.length % 64)).length = 64 - m.length % 64 :=
      List.length_take_of_le havail
    rw [regs_full hcount (by rw [hlen]; omega) htake] at hregs
    obtain ⟨ctx', habs, hholds, hlo, hhi⟩ := absorb_eq target
      (data.drop (64 - m.length % 64)) (size - (64 - m.length % 64))
      (by rw [List.length_append, hlen]; omega) hregs (by omega) (by rw [List.length_drop]; omega)
    have hsplit : m ++ data.take (64 - m.length % 64) ++
        (data.drop (64 - m.length % 64)).take (size - (64 - m.length % 64)) =
          m ++ data.take size := by
      rw [List.append_assoc, ← List.take_add]
      congr 2
      omega
    rw [hsplit] at hholds
    rw [hcpy]
    refine ⟨ctx', ?_, h.count hdata (hlo.trans hlo₁) (hhi.trans hhi₁) hholds⟩
    simp only [Option.bind_eq_bind, Option.bind_some, hbody, habs]

theorem Ctx.Absorbed.init (ctx : Ctx) : (md5Init ctx).Absorbed [] :=
  ⟨⟨(whole_of_lt (by decide)).symm, rfl⟩, rfl, rfl⟩

theorem uint8_eq {a b : ℕ} (h : a % 256 = b % 256) : UInt8.ofNat a = UInt8.ofNat b := by
  apply UInt8.toNat.inj
  rw [UInt8.toNat_ofNat', UInt8.toNat_ofNat']
  exact h

theorem bytes_eq (w : U32plus) : bytes w = Rfc.encode 4 w.toNat := by
  have hbyte : ∀ x : U32plus, (⟨x.setWidth 8⟩ : UInt8) = UInt8.ofNat x.toNat := fun x => rfl
  simp only [bytes, hbyte, BitVec.toNat_ushiftRight, Nat.shiftRight_eq_div_pow, Rfc.encode,
    List.range_succ, List.range_zero, List.nil_append, List.cons_append, List.map_cons,
    List.map_nil]
  simp

theorem encode_bits {ctx : Ctx} (h : ctx.Absorbed m) :
    bytes (ctx.lo <<< 3) ++ bytes ctx.hi = Rfc.encode 8 (8 * m.length) := by
  have hlo : (ctx.lo <<< 3).toNat = 8 * m.length % 2 ^ 32 := by
    rw [BitVec.toNat_shiftLeft, Nat.shiftLeft_eq, h.lo]
    omega
  have hhi : ctx.hi.toNat = 8 * m.length / 2 ^ 32 % 2 ^ 32 := by
    rw [h.hi]
    omega
  rw [bytes_eq, bytes_eq, hlo, hhi]
  generalize 8 * m.length = v
  simp only [Rfc.encode, List.range_succ, List.range_zero, List.nil_append, List.cons_append,
    List.map_cons, List.map_nil, List.cons.injEq, and_true]
  refine ⟨?_, ?_, ?_, ?_, ?_, ?_, ?_, ?_⟩ <;> apply uint8_eq <;> omega

/-- The set bit and zeros, so that the number of bits fits into the block. -/
theorem lastBlock_eq (target : Target) {ctx : Ctx} {buffer : Buffer} (h : ctx.Holds m)
    (hbuf : buffer.bytes.take (m.length % 64 + 1) =
      ctx.buffer.bytes.take (m.length % 64) ++ [0x80]) :
    ∃ ctx' z, let m' := m ++ 0x80 :: List.replicate z 0
      Ctx.lastBlock target { ctx with buffer } (m.length % 64 + 1) (64 - (m.length % 64 + 1)) =
          some (ctx', m'.length % 64, 64 - m'.length % 64) ∧
        ctx'.Holds m' ∧ ctx'.lo = ctx.lo ∧ ctx'.hi = ctx.hi ∧ m'.length % 64 ≤ 56 ∧
        z + (64 - m'.length % 64 - 8) = (119 - m.length % 64) % 64 := by
  have hmod : m.length % 64 < 64 := Nat.mod_lt _ (by decide)
  rw [Ctx.lastBlock]
  split_ifs with hlt
  · obtain ⟨buffer', hset, htake⟩ := memset_eq buffer (m.length % 64 + 1)
      (64 - (m.length % 64 + 1)) 0 (by omega)
    obtain ⟨ctx', hbody, hregs, hlo, hhi, -⟩ := ctx_body_buffer target ctx buffer'
    have hlen : (m ++ 0x80 :: List.replicate (64 - (m.length % 64 + 1)) (0 : UInt8)).length % 64 =
        0 := by
      rw [List.length_append, List.length_cons, List.length_replicate]
      omega
    rw [take_full _ (by omega), hbuf, List.append_assoc] at htake
    rw [regs_full h (by simp; omega) htake] at hregs
    refine ⟨ctx', 64 - (m.length % 64 + 1), ?_, ⟨hregs, ?_⟩, hlo, hhi, ?_, ?_⟩
    · simp only [hset, Option.bind_some, hbody, Option.map_some, hlen]
    · rw [hlen, List.take_zero, rest_of_dvd (Nat.dvd_of_mod_eq_zero hlen)]
    · rw [hlen]
      omega
    · rw [hlen]
      omega
  · have hlen : (m ++ [(0x80 : UInt8)]).length % 64 = m.length % 64 + 1 := by
      rw [List.length_append, List.length_singleton]
      omega
    refine ⟨{ ctx with buffer }, 0, ?_, ?_, rfl, rfl, ?_, ?_⟩
    · simp only [List.replicate_zero, hlen]
    · exact holds_short h (by rw [List.replicate_zero, List.length_singleton]; omega) hbuf
    · simp only [List.replicate_zero, hlen]
      omega
    · simp only [List.replicate_zero, hlen]
      omega

theorem md5Final_eq (target : Target) {ctx : Ctx} (h : ctx.Absorbed m) :
    md5Final target ctx = some (Rfc.md5 m, Ctx.cleared) := by
  obtain ⟨buffer₁, hset₁, htake₁⟩ := memset_eq ctx.buffer (m.length % 64) 1 0x80
    (by have := Nat.mod_lt m.length (y := 64) (by decide); omega)
  obtain ⟨ctx₂, z, hlast, hholds, hlo, hhi, hroom, hz⟩ := lastBlock_eq target h.holds htake₁
  set m' := m ++ 0x80 :: List.replicate z 0 with hm'
  clear_value m'
  obtain ⟨buffer₂, hset₂, htake₂⟩ := memset_eq ctx₂.buffer (m'.length % 64)
    (64 - m'.length % 64 - 8) 0 (by omega)
  obtain ⟨buffer₃, hset₃, htake₃⟩ := memcpy_eq buffer₂ 56 8
    (bytes (ctx₂.lo <<< 3) ++ bytes ctx₂.hi) (by decide) (Nat.le_refl 8)
  have hbits : bytes (ctx₂.lo <<< 3) ++ bytes ctx₂.hi = Rfc.encode 8 (8 * m.length) := by
    rw [hlo, hhi]
    exact encode_bits h
  have hencode : (Rfc.encode 8 (8 * m.length)).length = 8 := rfl
  obtain ⟨ctx₃, hbody, hregs, -⟩ := ctx_body_buffer target ctx₂ buffer₃
  have hsum : m'.length % 64 + (64 - m'.length % 64 - 8) = 56 := by omega
  rw [hsum] at htake₂
  rw [take_full _ (by decide), htake₂, hbits, List.take_of_length_le (Nat.le_of_eq hencode),
    List.append_assoc] at htake₃
  have hpad : m' ++ (List.replicate (64 - m'.length % 64 - 8) 0 ++ Rfc.encode 8 (8 * m.length)) =
      Rfc.pad m := by
    rw [Rfc.pad, ← hz, hm', List.append_assoc, List.cons_append, ← List.append_assoc,
      List.replicate_append_replicate]
  have hfull : m'.length % 64 + (List.replicate (64 - m'.length % 64 - 8) (0 : UInt8) ++
      Rfc.encode 8 (8 * m.length)).length = 64 := by
    rw [List.length_append, hencode, List.length_replicate]
    omega
  rw [regs_full hholds hfull htake₃, hpad] at hregs
  rw [md5Final, h.used, hset₁]
  simp only [Option.bind_eq_bind, Option.bind_some, hlast, hset₂, hset₃, hbody, hregs,
    Option.pure_def]
  rw [bytes_eq, bytes_eq, bytes_eq, bytes_eq]
  rfl

/-- A part of a message, whose size fits its type. -/
structure Chunk where
  bytes : List UInt8
  size_lt : bytes.length < 2 ^ 64

/-- All calls for a message that arrives in parts. -/
def digest (target : Target) (ctx : Ctx) (chunks : List Chunk) : Option (List UInt8 × Ctx) :=
  (chunks.foldlM (fun ctx c => md5Update target ctx c.bytes c.bytes.length) (md5Init ctx)).bind
    (md5Final target)

theorem foldlM_update (target : Target) {ctx : Ctx} (chunks : List Chunk) (h : ctx.Absorbed m) :
    ∃ ctx', chunks.foldlM (fun ctx c => md5Update target ctx c.bytes c.bytes.length) ctx =
      some ctx' ∧ ctx'.Absorbed (m ++ chunks.flatMap Chunk.bytes) := by
  induction chunks generalizing ctx m with
  | nil => exact ⟨ctx, rfl, by simpa using h⟩
  | cons c chunks ih =>
    obtain ⟨ctx₁, hupdate, h₁⟩ := md5Update_eq target h c.size_lt (Nat.le_refl _)
    rw [List.take_length] at h₁
    obtain ⟨ctx', hrun, h'⟩ := ih h₁
    rw [List.append_assoc] at h'
    refine ⟨ctx', ?_, h'⟩
    rw [List.foldlM_cons, hupdate]
    exact hrun

/-- However a message is split, and whatever is in the context before, the digest is that of
RFC 1321, no access is outside the buffer or the parts, and nothing of the message stays in the
context. -/
theorem digest_eq (target : Target) (ctx : Ctx) (chunks : List Chunk) :
    digest target ctx chunks = some (Rfc.md5 (chunks.flatMap Chunk.bytes), Ctx.cleared) := by
  obtain ⟨ctx', hrun, h⟩ := foldlM_update target chunks (Ctx.Absorbed.init ctx)
  rw [digest, hrun]
  exact md5Final_eq target h

end CollectedSources.Md5
