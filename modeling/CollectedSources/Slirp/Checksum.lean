import CollectedSources.Machine.Memory
import CollectedSources.Machine.OnesComplement
import Mathlib

/-! # Checksums of the slirp test

`my_cksum6` writes the pseudo-header of an IPv6 packet over its header, sums up
the words of the packet and puts the header back. The sum is related to one's
complement addition, and the packet that carries it to one that verifies.
-/

namespace CollectedSources.Slirp

open Memory OnesComplement

abbrev Byte := BitVec 8

/-- The first loop of `my_cksum` with the byte behind it, on the memory at `addr`. -/
def sumWords : List Byte → ℕ → ℕ → Option ℕ
  | _, 0, sum => some sum
  | c :: _, 1, sum => some (sum + c.toNat)
  | c :: d :: addr, count + 2, sum => sumWords addr count (sum + (d ++ c).toNat)
  | _, _, _ => none

/-- The second loop of `my_cksum`. -/
def foldSum (sum : ℕ) : ℕ :=
  if sum >>> 16 = 0 then sum else foldSum ((sum &&& 0xffff) + (sum >>> 16))
termination_by sum
decreasing_by
  rw [Nat.shiftRight_eq_div_pow] at *
  rw [Nat.and_two_pow_sub_one_eq_mod sum 16]
  omega

def myCksum (addr : List Byte) (count : BitVec 32) : Option (BitVec 16) :=
  (sumWords addr count.toNat 0).map fun sum => ~~~ BitVec.ofNat 16 (foldSum sum)

def swap16 (x : BitVec 16) : BitVec 16 := x.extractLsb' 0 8 ++ x.extractLsb' 8 8

def swap32 (x : BitVec 32) : BitVec 32 :=
  x.extractLsb' 0 8 ++ x.extractLsb' 8 8 ++ x.extractLsb' 16 8 ++ x.extractLsb' 24 8

def ntohs : BitVec 16 → BitVec 16 := swap16

def htonl : BitVec 32 → BitVec 32 := swap32

def ntohl : BitVec 32 → BitVec 32 := swap32

/-- The bytes of a word in the memory of a little-endian host. -/
def bytes16 (x : BitVec 16) : List Byte := [x.extractLsb' 0 8, x.extractLsb' 8 8]

def bytes32 (x : BitVec 32) : List Byte :=
  [x.extractLsb' 0 8, x.extractLsb' 8 8, x.extractLsb' 16 8, x.extractLsb' 24 8]

def load16 (mem : List Byte) (p : ℕ) : Option (BitVec 16) := do
  some ((← mem[p + 1]?) ++ (← mem[p]?))

def load32 (mem : List Byte) (p : ℕ) : Option (BitVec 32) := do
  some ((← mem[p + 3]?) ++ (← mem[p + 2]?) ++ (← mem[p + 1]?) ++ (← mem[p]?))

def loadBytes (mem : List Byte) (p n : ℕ) : Option (List Byte) :=
  if p + n ≤ mem.length then some ((mem.drop p).take n) else none

/-- The stores of `my_cksum6` through `ih`, the saved header being given. -/
def storePseudohdr (saved mem : List Byte) : Option (List Byte) := do
  let mem ← storeBytes mem 0 (← loadBytes saved 8 16)
  let mem ← storeBytes mem 16 (← loadBytes saved 24 16)
  let mem ← storeBytes mem 32 (bytes32 (htonl ((ntohs (← load16 saved 4)).setWidth 32)))
  let mem ← storeBytes mem 36 (bytes16 0)
  let mem ← store mem 38 0
  store mem 39 (← saved[6]?)

/-- `my_cksum6` on the memory behind `ip6`: the checksum and the memory after the call. -/
def myCksum6 (mem : List Byte) : Option (BitVec 16 × List Byte) := do
  let saved ← loadBytes mem 0 40
  let mem ← storePseudohdr saved mem
  let csum ← myCksum mem (40 + ntohl (← load32 mem 32))
  let mem ← storeBytes mem 0 saved
  some (csum, mem)

/-- An IPv6 packet. -/
structure Packet where
  flow : List Byte
  plen : BitVec 16
  nxt : Byte
  hlim : Byte
  src : List Byte
  dst : List Byte
  payload : List Byte
  length_flow : flow.length = 4
  length_src : src.length = 16
  length_dst : dst.length = 16
  length_payload : payload.length = plen.toNat

/-- Numbers are stored with their high byte first. -/
def Packet.header (p : Packet) : List Byte :=
  p.flow ++ [p.plen.extractLsb' 8 8, p.plen.extractLsb' 0 8, p.nxt, p.hlim] ++ p.src ++ p.dst

def Packet.bytes (p : Packet) : List Byte := p.header ++ p.payload

/-- The pseudo-header of RFC 2460: the addresses, the length of the payload as a number of four
bytes, three zero bytes and the next header. -/
def Packet.pseudoHeader (p : Packet) : List Byte :=
  p.src ++ p.dst ++ [0, 0, p.plen.extractLsb' 8 8, p.plen.extractLsb' 0 8] ++ [0, 0, 0, p.nxt]

/-- Words in the order of the host; a last byte is followed by zero. -/
def words : List Byte → List (BitVec 16)
  | [] => []
  | [c] => [0#8 ++ c]
  | c :: d :: bytes => (d ++ c) :: words bytes

section Words

theorem foldSum_eq_rep (sum : ℕ) : foldSum sum = rep 65535 sum := by
  induction sum using foldSum.induct with
  | case1 sum h =>
    rw [foldSum, if_pos h]
    rw [Nat.shiftRight_eq_div_pow] at h
    exact rep_eq_of_modEq (by omega) rfl Iff.rfl
  | case2 sum h ih =>
    rw [foldSum, if_neg h, ih, Nat.shiftRight_eq_div_pow, Nat.and_two_pow_sub_one_eq_mod sum 16]
    exact rep_carry (m := 65535) (by omega) sum

theorem sumWords_append (bytes rest : List Byte) (sum : ℕ) :
    sumWords (bytes ++ rest) bytes.length sum =
      some (sum + ((words bytes).map BitVec.toNat).sum) := by
  induction bytes using words.induct generalizing sum with
  | case1 => cases rest <;> rfl
  | case2 c =>
    have hc : (0#8 ++ c).toNat = c.toNat := by
      rw [BitVec.toNat_append]
      simp
    simp [sumWords, words, hc]
  | case3 c d bytes ih =>
    rw [List.cons_append, List.cons_append, List.length_cons, List.length_cons, sumWords, ih,
      words, List.map_cons, List.sum_cons, Nat.add_assoc]

/-- `my_cksum` computes the one's complement checksum of the words. -/
theorem myCksum_append (bytes rest : List Byte) {count : BitVec 32}
    (hcount : count.toNat = bytes.length) :
    myCksum (bytes ++ rest) count = some (checksum (words bytes)) := by
  have hsum : BitVec.ofNat 16 (foldSum ((words bytes).map BitVec.toNat).sum) =
      OnesComplement.sum (words bytes) := by
    have hrep := toNat_sum (w := 16) (by omega) (words bytes)
    rw [foldSum_eq_rep]
    apply BitVec.eq_of_toNat_eq
    rw [hrep, BitVec.toNat_ofNat]
    exact Nat.mod_eq_of_lt (Nat.lt_succ_of_le (rep_le (by omega) _))
  rw [myCksum, hcount, sumWords_append, Nat.zero_add, Option.map_some, hsum]
  rfl

theorem words_append {bytes : List Byte} (heven : Even bytes.length) (bytes' : List Byte) :
    words (bytes ++ bytes') = words bytes ++ words bytes' := by
  induction bytes using words.induct with
  | case1 => rfl
  | case2 c => simp at heven
  | case3 c d bytes ih =>
    have heven' : Even bytes.length := by
      simpa [Nat.even_add_one] using heven
    rw [List.cons_append, List.cons_append, words, ih heven', words, List.cons_append]

theorem words_bytes16 (x : BitVec 16) (bytes : List Byte) :
    words (bytes16 x ++ bytes) = x :: words bytes := by
  have hx : x.extractLsb' 8 8 ++ x.extractLsb' 0 8 = x := by
    rw [BitVec.extractLsb'_append_extractLsb'_eq_extractLsb' (by rfl)]
    simp
  rw [bytes16, List.cons_append, List.cons_append, words, hx, List.nil_append]

theorem swap16_swap16 (x : BitVec 16) : swap16 (swap16 x) = x := by
  apply BitVec.eq_of_getLsbD_eq
  intro i hi
  unfold swap16
  simp only [BitVec.getLsbD_append, BitVec.getLsbD_extractLsb']
  interval_cases i <;> simp

theorem getLsbD_append4 (a b c d : Byte) (i : ℕ) :
    (a ++ b ++ c ++ d : BitVec 32).getLsbD i =
      if i < 8 then d.getLsbD i else if i < 16 then c.getLsbD (i - 8)
      else if i < 24 then b.getLsbD (i - 16) else a.getLsbD (i - 24) := by
  have h16 : i - 8 < 8 ↔ i < 16 := by omega
  have h24 : i - 16 < 8 ↔ i < 24 := by omega
  change BitVec.getLsbD (w := 8 + 8 + 8 + 8) (a ++ b ++ c ++ d) i = _
  simp only [BitVec.getLsbD_append]
  simp only [Nat.sub_sub, Nat.reduceAdd, h16, h24]

theorem swap32_swap32 (x : BitVec 32) : swap32 (swap32 x) = x := by
  apply BitVec.eq_of_getLsbD_eq
  intro i hi
  unfold swap32
  simp only [getLsbD_append4, BitVec.getLsbD_extractLsb']
  interval_cases i <;> simp

end Words

section Memory

variable {p n : ℕ} {pre post bytes : List Byte}

theorem loadBytes_append (hp : p = pre.length) (hn : n = bytes.length) :
    loadBytes (pre ++ (bytes ++ post)) p n = some bytes := by
  simp [loadBytes, hp, hn]

theorem load32_append (hp : p = pre.length) (x : BitVec 32) :
    load32 (pre ++ (bytes32 x ++ post)) p = some x := by
  have hx : x.extractLsb' 24 8 ++ x.extractLsb' 16 8 ++ x.extractLsb' 8 8 ++ x.extractLsb' 0 8 =
      x := by
    apply BitVec.eq_of_getLsbD_eq
    intro i hi
    simp only [getLsbD_append4, BitVec.getLsbD_extractLsb']
    interval_cases i <;> simp
  subst hp
  simp [load32, bytes32]
  exact hx

theorem storeBytes_next (hp : p = pre.length) (hlen : bytes.length ≤ post.length) :
    storeBytes (pre ++ post) p bytes = some ((pre ++ bytes) ++ post.drop bytes.length) := by
  subst hp
  simp [storeBytes, hlen, List.drop_append]

theorem store_next (hp : p = pre.length) (hlen : post ≠ []) (c : Byte) :
    store (pre ++ post) p c = some ((pre ++ [c]) ++ post.drop 1) := by
  obtain ⟨d, post, rfl⟩ := List.exists_cons_of_ne_nil hlen
  subst hp
  simp [store]

end Memory

section Packets

theorem Packet.length_header (p : Packet) : p.header.length = 40 := by
  simp [Packet.header, p.length_flow, p.length_src, p.length_dst]

theorem Packet.length_pseudoHeader (p : Packet) : p.pseudoHeader.length = 40 := by
  simp [Packet.pseudoHeader, p.length_src, p.length_dst]

/-- What `my_cksum6` reads from the header. -/
theorem Packet.load_header (p : Packet) :
    loadBytes p.header 8 16 = some p.src ∧ loadBytes p.header 24 16 = some p.dst ∧
      load16 p.header 4 = some (swap16 p.plen) ∧ p.header[6]? = some p.nxt := by
  have hflow := p.length_flow
  have hsrc := p.length_src
  have hdst := p.length_dst
  refine ⟨?_, ?_, ?_, ?_⟩
  · rw [Packet.header, List.append_assoc]
    exact loadBytes_append (by simp [hflow]) hsrc.symm
  · have h : loadBytes (p.header ++ []) 24 16 = some p.dst := by
      rw [Packet.header, List.append_assoc _ p.dst]
      exact loadBytes_append (by simp [hflow, hsrc]) hdst.symm
    rwa [List.append_nil] at h
  · simp [Packet.header, load16, List.getElem?_append, hflow, swap16]
  · simp [Packet.header, List.getElem?_append, hflow]

theorem bytes32_htonl (x : BitVec 16) :
    bytes32 (htonl ((ntohs (swap16 x)).setWidth 32)) =
      [0, 0, x.extractLsb' 8 8, x.extractLsb' 0 8] := by
  have hbyte : ∀ k i, k < 4 → i < 8 →
      ((swap32 (x.setWidth 32)).extractLsb' (8 * k) 8).getLsbD i =
        x.getLsbD (8 * (3 - k) + i) := by
    intro k i hk hi
    unfold swap32
    simp only [getLsbD_append4, BitVec.getLsbD_extractLsb', BitVec.getLsbD_setWidth]
    interval_cases k <;> interval_cases i <;> simp
  rw [ntohs, swap16_swap16, htonl, bytes32]
  simp only [List.cons.injEq, and_true]
  refine ⟨?_, ?_, ?_, ?_⟩ <;> apply BitVec.eq_of_getLsbD_eq <;> intro i hi
  · rw [hbyte 0 i (by omega) hi, BitVec.getLsbD_of_ge x _ (by omega), BitVec.ofNat_eq_ofNat,
      BitVec.getLsbD_zero]
  · rw [hbyte 1 i (by omega) hi, BitVec.getLsbD_of_ge x _ (by omega), BitVec.ofNat_eq_ofNat,
      BitVec.getLsbD_zero]
  · rw [hbyte 2 i (by omega) hi, BitVec.getLsbD_extractLsb', decide_eq_true hi, Bool.true_and]
  · rw [hbyte 3 i (by omega) hi, BitVec.getLsbD_extractLsb', decide_eq_true hi, Bool.true_and]

theorem storePseudohdr_packet (p : Packet) {header : List Byte} (hlen : header.length = 40)
    (rest : List Byte) :
    storePseudohdr p.header (header ++ rest) = some (p.pseudoHeader ++ rest) := by
  have hsrc := p.length_src
  have hdst := p.length_dst
  obtain ⟨hloadSrc, hloadDst, hplen, hnxt⟩ := p.load_header
  have hlen' : (header ++ rest).length = 40 + rest.length := by rw [List.length_append, hlen]
  have hzero : bytes16 0 = [0, 0] := by decide
  have hdrop : (header ++ rest).drop 40 = rest := by rw [← hlen, List.drop_left]
  simp only [storePseudohdr, hloadSrc, hloadDst, hplen, hnxt, bytes32_htonl, hzero,
    Option.bind_eq_bind, Option.bind_some]
  rw [← List.nil_append (header ++ rest),
    storeBytes_next (p := 0) rfl (by omega), Option.bind_some,
    storeBytes_next (by simp [hsrc]) (by rw [List.length_drop]; omega), Option.bind_some,
    storeBytes_next (by simp [hsrc, hdst]) (by simp [hsrc, hdst]; omega), Option.bind_some,
    storeBytes_next (by simp [hsrc, hdst]) (by simp [hsrc, hdst]; omega), Option.bind_some,
    store_next (by simp [hsrc, hdst]) (by simp [hsrc, hdst]; omega), Option.bind_some,
    store_next (by simp [hsrc, hdst]) (by simp [hsrc, hdst]; omega)]
  simp only [List.drop_drop, hsrc, hdst, List.length_cons, List.length_nil, Nat.reduceAdd, hdrop]
  simp [Packet.pseudoHeader]

theorem myCksum6_packet (p : Packet) (rest : List Byte) :
    myCksum6 (p.bytes ++ rest) =
      some (checksum (words (p.pseudoHeader ++ p.payload)), p.bytes ++ rest) := by
  have hheader := p.length_header
  have hload : loadBytes (p.header ++ (p.payload ++ rest)) 0 40 = some p.header := by
    rw [← List.nil_append (p.header ++ _)]
    exact loadBytes_append rfl hheader.symm
  have hload32 : load32 (p.pseudoHeader ++ (p.payload ++ rest)) 32 =
      some (htonl (p.plen.setWidth 32)) := by
    have hswap : bytes32 (htonl (p.plen.setWidth 32)) =
        [0, 0, p.plen.extractLsb' 8 8, p.plen.extractLsb' 0 8] := by
      rw [← bytes32_htonl, ntohs, swap16_swap16]
    rw [Packet.pseudoHeader, ← hswap, List.append_assoc, List.append_assoc]
    exact load32_append (by simp [p.length_src, p.length_dst]) _
  have hrestore : storeBytes (p.pseudoHeader ++ p.payload ++ rest) 0 p.header =
      some (p.header ++ p.payload ++ rest) := by
    have hlen : p.header.length ≤ (p.pseudoHeader ++ (p.payload ++ rest)).length := by
      simp [hheader, p.length_pseudoHeader]
    rw [List.append_assoc, ← List.nil_append (p.pseudoHeader ++ _),
      storeBytes_next (p := 0) rfl hlen, hheader, ← p.length_pseudoHeader, List.drop_left,
      List.nil_append, List.append_assoc]
  have hcount : (40 + ntohl (htonl (p.plen.setWidth 32))).toNat =
      (p.pseudoHeader ++ p.payload).length := by
    have hlt := p.plen.isLt
    rw [ntohl, htonl, swap32_swap32, List.length_append, p.length_pseudoHeader, p.length_payload,
      BitVec.toNat_add]
    simp
    omega
  rw [Packet.bytes, List.append_assoc]
  simp only [myCksum6, hload, Option.bind_eq_bind, Option.bind_some,
    storePseudohdr_packet p hheader, hload32]
  rw [← List.append_assoc, myCksum_append _ _ hcount, Option.bind_some, hrestore, Option.bind_some,
    ← List.append_assoc]

/-- The packet with other bytes for a part of its payload. -/
def Packet.replace (p : Packet) {pre old post : List Byte} (h : p.payload = pre ++ (old ++ post))
    (bytes : List Byte) (hlen : bytes.length = old.length) : Packet :=
  { p with
    payload := pre ++ (bytes ++ post)
    length_payload := by simp [← p.length_payload, h, hlen] }

theorem Packet.bytes_replace (p : Packet) {pre old post : List Byte}
    (h : p.payload = pre ++ (old ++ post)) (bytes : List Byte) (hlen : bytes.length = old.length) :
    (p.replace h bytes hlen).bytes = p.header ++ (pre ++ (bytes ++ post)) := rfl

theorem Packet.storeBytes_replace (p : Packet) {pre old post : List Byte}
    (h : p.payload = pre ++ (old ++ post)) {bytes : List Byte} (hlen : bytes.length = old.length)
    (rest : List Byte) :
    storeBytes (p.bytes ++ rest) (40 + pre.length) bytes =
      some ((p.replace h bytes hlen).bytes ++ rest) := by
  have hstore := storeBytes_append (p.header ++ pre) old (post ++ rest) bytes hlen
  rw [List.length_append, p.length_header] at hstore
  rw [Packet.bytes_replace, Packet.bytes, h]
  simpa only [List.append_assoc] using hstore

/-- A packet whose checksum field is zero gets a checksum from `my_cksum6` that verifies: a call
on the packet with the checksum in the field returns zero. -/
theorem myCksum6_verifies (p : Packet) {pre post : List Byte}
    (hpayload : p.payload = pre ++ ([0, 0] ++ post)) (heven : Even pre.length)
    (rest : List Byte) :
    ∃ csum mem, csum = checksum (words (p.pseudoHeader ++ p.payload)) ∧
      myCksum6 (p.bytes ++ rest) = some (csum, p.bytes ++ rest) ∧
      storeBytes (p.bytes ++ rest) (40 + pre.length) (bytes16 csum) = some mem ∧
      myCksum6 mem = some (0, mem) := by
  have heven' : Even (p.pseudoHeader ++ pre).length := by
    rw [List.length_append, p.length_pseudoHeader]
    exact Even.add (by decide) heven
  have hwords : ∀ x : BitVec 16, words (p.pseudoHeader ++ (pre ++ (bytes16 x ++ post))) =
      words (p.pseudoHeader ++ pre) ++ x :: words post := by
    intro x
    rw [← List.append_assoc, words_append heven', words_bytes16]
  have hzero : [0, 0] = bytes16 0#16 := by decide
  have hcsum : checksum (words (p.pseudoHeader ++ p.payload)) =
      checksum (words (p.pseudoHeader ++ pre) ++ 0#16 :: words post) := by
    rw [hpayload, hzero, hwords]
  have hverify := checksum_verifies (w := 16) (by omega) (words (p.pseudoHeader ++ pre))
    (words post)
  rw [← hcsum] at hverify
  have hcall := myCksum6_packet p rest
  generalize checksum (words (p.pseudoHeader ++ p.payload)) = csum at hcall hverify ⊢
  have hlen : (bytes16 csum).length = [(0 : Byte), 0].length := rfl
  have hcall' := myCksum6_packet (p.replace hpayload (bytes16 csum) hlen) rest
  have hpseudo : (p.replace hpayload (bytes16 csum) hlen).pseudoHeader ++
      (p.replace hpayload (bytes16 csum) hlen).payload =
      p.pseudoHeader ++ (pre ++ (bytes16 csum ++ post)) := rfl
  rw [hpseudo, hwords, hverify] at hcall'
  exact ⟨csum, _, rfl, hcall, p.storeBytes_replace hpayload hlen rest, hcall'⟩

/-- A packet with an odd payload. -/
def samplePacket : Packet where
  flow := [0x60, 0, 0, 0]
  plen := 3
  nxt := 0x11
  hlim := 64
  src := List.replicate 16 0xfe
  dst := List.replicate 16 0x80
  payload := [0, 0, 0x61]
  length_flow := rfl
  length_src := rfl
  length_dst := rfl
  length_payload := rfl

theorem myCksum6_verifies_sample :
    ∃ csum mem, csum = checksum (words (samplePacket.pseudoHeader ++ samplePacket.payload)) ∧
      myCksum6 samplePacket.bytes = some (csum, samplePacket.bytes) ∧
      storeBytes samplePacket.bytes 40 (bytes16 csum) = some mem ∧
      myCksum6 mem = some (0, mem) := by
  have h := myCksum6_verifies samplePacket
    (show samplePacket.payload = [] ++ ([0, 0] ++ [0x61]) from rfl) (by decide) []
  rwa [List.append_nil] at h

end Packets

end CollectedSources.Slirp
