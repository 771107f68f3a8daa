import Mathlib

/-! # Frames of the air conditioner bus

Queries and responses are packed bit-fields. A checksum covers the payload of
either; of a response it leaves out the bytes around the payload.
-/

namespace CollectedSources.Lgap

abbrev Byte := BitVec 8

def computeChecksum (payload : List Byte) : Byte := payload.foldl (· + ·) 0 ^^^ 0x55

theorem toNat_foldl_add (payload : List Byte) (sum : Byte) :
    (payload.foldl (· + ·) sum).toNat = (sum.toNat + (payload.map BitVec.toNat).sum) % 256 := by
  induction payload generalizing sum with
  | nil => simp [Nat.mod_eq_of_lt sum.isLt]
  | cons byte payload ih =>
    rw [List.foldl_cons, ih, BitVec.toNat_add, List.map_cons, List.sum_cons]
    omega

theorem toNat_computeChecksum (payload : List Byte) :
    (computeChecksum payload).toNat = (payload.map BitVec.toNat).sum % 256 ^^^ 0x55 := by
  rw [computeChecksum, BitVec.toNat_xor, toNat_foldl_add]
  simp

structure Query where
  res0 : BitVec 7 := 0
  query : BitVec 1 := 0
  res1 : BitVec 8 := 0
  a0 : BitVec 8 := 0
  unit : BitVec 4 := 0
  group : BitVec 4 := 0
  on : BitVec 1 := 0
  exe : BitVec 1 := 0
  lock : BitVec 1 := 0
  res2 : BitVec 1 := 0
  plasma : BitVec 1 := 0
  res3 : BitVec 3 := 0
  mode : BitVec 3 := 0
  autoSwing : BitVec 1 := 0
  fanSpeed : BitVec 3 := 0
  res4 : BitVec 1 := 0
  temp : BitVec 5 := 0
  res5 : BitVec 3 := 0
  checksum : BitVec 8 := 0
  deriving DecidableEq, Repr

namespace Query

/-- The bytes of the bit-fields, the first field of each in the lowest bits. -/
def payload (q : Query) : List Byte :=
  [q.query ++ q.res0, q.res1, q.a0, q.group ++ q.unit,
    q.res3 ++ q.plasma ++ q.res2 ++ q.lock ++ q.exe ++ q.on,
    q.res4 ++ q.fanSpeed ++ q.autoSwing ++ q.mode, q.res5 ++ q.temp]

def sum (q : Query) : Query := { q with checksum := computeChecksum q.payload }

/-- The bits that are the same in every query. -/
structure Fixed (q : Query) : Prop where
  query : q.query = 1
  a0 : q.a0 = 0xa0
  res0 : q.res0 = 0
  res1 : q.res1 = 0
  res2 : q.res2 = 0
  res3 : q.res3 = 0
  res4 : q.res4 = 0
  res5 : q.res5 = 0

/-- The constant bits and the checksum of a query are right. -/
structure WellFormed (q : Query) : Prop extends Fixed q where
  checksum : q.checksum.toNat = (q.payload.map BitVec.toNat).sum % 256 ^^^ 0x55

theorem Fixed.sum {q : Query} (h : q.Fixed) : q.sum.WellFormed :=
  { h with checksum := toNat_computeChecksum q.payload }

end Query

/-- The buffer of a response: 7 bytes of noise, a payload of 15 bytes, the checksum and
one more byte. -/
abbrev Response := Fin 24 → Byte

namespace Response

variable (r : Response)

def payload : List Byte := List.ofFn fun i : Fin 15 => r ⟨7 + i, by omega⟩

def checksum : Byte := r 22

def len : BitVec 7 := (r 7).extractLsb' 0 7

def on : BitVec 1 := (r 8).extractLsb' 0 1

def lock : BitVec 1 := (r 8).extractLsb' 2 1

def unit : BitVec 4 := (r 11).extractLsb' 0 4

def group : BitVec 4 := (r 11).extractLsb' 4 4

def error : Byte := r 12

def mode : BitVec 3 := (r 13).extractLsb' 0 3

def autoSwing : BitVec 1 := (r 13).extractLsb' 3 1

def fanSpeed : BitVec 3 := (r 13).extractLsb' 4 3

def temp : BitVec 4 := (r 14).extractLsb' 0 4

def plasma : BitVec 1 := (r 14).extractLsb' 5 1

def roomTemp : Byte := r 15

def Valid : Prop := computeChecksum r.payload = r.checksum

instance : Decidable r.Valid := inferInstanceAs (Decidable (_ = _))

end Response

def roomTempTable : List (ℕ × ℕ) :=
  [(76, 77), (78, 79), (80, 82), (83, 84), (85, 86), (87, 89), (90, 92), (93, 94), (95, 97),
    (98, 99), (100, 102), (103, 105), (106, 108), (109, 111), (112, 113), (114, 116), (117, 119),
    (120, 122), (123, 125), (126, 128), (129, 131), (132, 134), (135, 137), (138, 141),
    (142, 144), (145, 147), (148, 150), (151, 153), (154, 156), (157, 159), (160, 162)]

def roomTempToC (temp : Byte) : ℕ :=
  match roomTempTable.findIdx? fun row => row.1 ≤ temp.toNat ∧ temp.toNat ≤ row.2 with
  | some a => 40 - a
  | none => 0

def tempToC (temp : ℕ) : ℕ := (temp + 15) % 256

def cToTemp (temp : Byte) : ℤ :=
  let ret : ℤ := temp.toNat - 15
  if ret < 0x03 then 0x03 else if ret > 0x0f then 0x0f else ret

/-- What is printed of an accepted response. -/
structure Status where
  len : ℕ
  on : ℕ
  lock : ℕ
  unit : ℕ
  error : ℕ
  mode : ℕ
  autoSwing : ℕ
  fanSpeed : ℕ
  temp : ℕ
  plasma : ℕ
  roomTemp : ℕ
  roomTempC : ℕ
  deriving DecidableEq, Repr

def Response.status (r : Response) : Status where
  len := r.len.toNat
  on := r.on.toNat
  lock := r.lock.toNat
  unit := r.group.toNat <<< 4 ||| r.unit.toNat
  error := r.error.toNat
  mode := r.mode.toNat
  autoSwing := r.autoSwing.toNat
  fanSpeed := r.fanSpeed.toNat
  temp := tempToC r.temp.toNat
  plasma := r.plasma.toNat
  roomTemp := r.roomTemp.toNat
  roomTempC := roomTempToC r.roomTemp

end CollectedSources.Lgap
