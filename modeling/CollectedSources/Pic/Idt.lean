import CollectedSources.Machine.DoubleWord
import Mathlib

/-! # Gates of the interrupt descriptor table

A gate holds the address of its handler in three words, beside a segment selector
and flags. `dump_idt` prints the gates of the table, writes the handler of the timer
into one of them and prints that one again. The high word is printed as a part of
the address, but it is not written.
-/

namespace CollectedSources.Pic

open Machine

/-- `struct idt_desc`. -/
structure IdtDesc where
  a : BitVec 32
  b : BitVec 32
  c : BitVec 32
  rsvd : BitVec 32
deriving DecidableEq, Repr

/-- A line that is printed for the table, or for a gate. -/
inductive Line where
  | idt (addr : BitVec 64) (size : BitVec 16)
  | gate (a b c : BitVec 32) (seg : BitVec 16) (off : BitVec 64) (flags : BitVec 32)
deriving DecidableEq, Repr

def IdtDesc.seg (d : IdtDesc) : BitVec 16 := (d.a >>> 16).setWidth 16

def IdtDesc.off (d : IdtDesc) : BitVec 64 :=
  (d.c.setWidth 64 <<< 32) ||| (d.b &&& 0xffff0000).setWidth 64 ||| (d.a &&& 0xffff).setWidth 64

def IdtDesc.flags (d : IdtDesc) : BitVec 32 := d.b &&& 0xffff

def dumpIdtr (d : IdtDesc) : Line := .gate d.a d.b d.c d.seg d.off d.flags

/-- The update of a gate in `dump_idt`, where numbers of 64 bits are stored in words. -/
def setHandler (handler : BitVec 64) (d : IdtDesc) : IdtDesc :=
  let d := { d with a := d.a &&& 0xffff0000 }
  let d := { d with a := (d.a.setWidth 64 ||| (handler &&& 0x0000ffff)).setWidth 32 }
  let d := { d with b := d.b &&& 0x0000ffff }
  { d with b := (d.b.setWidth 64 ||| (handler &&& 0xffff0000)).setWidth 32 }

/-- The loop over the table, from the offset `a` and the gates behind it on. -/
def dumpGates (len : BitVec 16) : ℕ → List IdtDesc → Option (List Line)
  | a, [] => if a < len.toNat then none else some []
  | a, d :: idtr =>
    if a < len.toNat then (dumpGates len (a + 16) idtr).map (dumpIdtr d :: ·) else some []

/-- `dump_idt` with the memory at the table: the lines that are printed and the memory after the
call. -/
def dumpIdt (addr : BitVec 64) (len : BitVec 16) (handler : BitVec 64) (mem : List IdtDesc) :
    Option (List Line × List IdtDesc) := do
  let lines ← dumpGates len 0 mem
  let d ← mem[0x20]?
  let d := setHandler handler d
  some (.idt addr len :: lines ++ [dumpIdtr d], mem.set 0x20 d)

section Gates

variable {d : IdtDesc} {handler : BitVec 64}

theorem setHandler_a : (setHandler handler d).a = merge d.a (handler.setWidth 32) 0xffff := by
  simp only [setHandler, merge, BitVec.setWidth_or, BitVec.setWidth_and]
  rw [BitVec.setWidth_setWidth_of_le _ (by omega), BitVec.setWidth_eq]
  rfl

theorem setHandler_b : (setHandler handler d).b = merge d.b (handler.setWidth 32) 0xffff0000 := by
  simp only [setHandler, merge, BitVec.setWidth_or, BitVec.setWidth_and]
  rw [BitVec.setWidth_setWidth_of_le _ (by omega), BitVec.setWidth_eq]
  rfl

theorem setHandler_c : (setHandler handler d).c = d.c := rfl

theorem not_low_mask : ~~~ (0xffff : BitVec 32) = 0xffff0000 := by decide

theorem not_high_mask : ~~~ (0xffff0000 : BitVec 32) = 0xffff := by decide

theorem seg_eq (d : IdtDesc) : d.seg = ((d.a &&& ~~~ 0xffff) >>> 16).setWidth 16 := by
  have hmask : ((~~~ (0xffff : BitVec 32)) >>> 16).setWidth 16 = BitVec.allOnes 16 := by decide
  rw [BitVec.ushiftRight_and_distrib, BitVec.setWidth_and, hmask, BitVec.and_allOnes]
  rfl

theorem off_eq (d : IdtDesc) :
    d.off = d.c ++ ((d.b &&& 0xffff0000) ||| (d.a &&& 0xffff)) := by
  rw [IdtDesc.off, BitVec.or_assoc, ← BitVec.setWidth_or,
    ← BitVec.setWidth_append_eq_shiftLeft_setWidth_or, BitVec.setWidth_eq]

theorem seg_setHandler (handler : BitVec 64) (d : IdtDesc) :
    (setHandler handler d).seg = d.seg := by
  rw [seg_eq, seg_eq, setHandler_a, merge_and_not_mask]

theorem flags_setHandler (handler : BitVec 64) (d : IdtDesc) :
    (setHandler handler d).flags = d.flags := by
  unfold IdtDesc.flags
  rw [setHandler_b, ← not_high_mask]
  exact merge_and_not_mask

theorem off_setHandler (handler : BitVec 64) (d : IdtDesc) :
    (setHandler handler d).off = d.c ++ handler.setWidth 32 := by
  have hlow : (handler.setWidth 32 &&& ~~~ 0xffff) ||| (handler.setWidth 32 &&& 0xffff) =
      handler.setWidth 32 := merge_self
  rw [not_low_mask] at hlow
  rw [off_eq, setHandler_a, setHandler_b, setHandler_c, merge_and_mask, merge_and_mask]
  exact congrArg (d.c ++ ·) hlow

theorem append_halves (handler : BitVec 64) :
    (handler >>> 32).setWidth 32 ++ handler.setWidth 32 = handler := by
  apply BitVec.eq_of_getLsbD_eq
  intro i hi
  rw [BitVec.getLsbD_append]
  split
  · rename_i hlow
    simp [hlow]
  · have hsub : 32 + (i - 32) = i := by omega
    have hhigh : i - 32 < 32 := by omega
    simp [hsub, hhigh]

theorem off_setHandler_eq_iff (handler : BitVec 64) (d : IdtDesc) :
    (setHandler handler d).off = handler ↔ d.c = (handler >>> 32).setWidth 32 := by
  have hiff : d.c ++ handler.setWidth 32 = (handler >>> 32).setWidth 32 ++ handler.setWidth 32 ↔
      d.c = (handler >>> 32).setWidth 32 := BitVec.append_left_inj _
  rw [append_halves] at hiff
  rw [off_setHandler]
  exact hiff

end Gates

section Table

variable {mem : List IdtDesc} {len : BitVec 16} {d : IdtDesc}

theorem dumpGates_eq {a : ℕ} (hlen : len.toNat ≤ a + 16 * mem.length) :
    dumpGates len a mem = some ((mem.take ((len.toNat - a + 15) / 16)).map dumpIdtr) := by
  induction mem generalizing a with
  | nil =>
    rw [dumpGates, if_neg (by simpa using hlen)]
    simp
  | cons d mem ih =>
    rw [List.length_cons] at hlen
    rw [dumpGates]
    split
    · have hcount : (len.toNat - a + 15) / 16 = (len.toNat - (a + 16) + 15) / 16 + 1 := by omega
      rw [ih (by omega), hcount, List.take_succ_cons, List.map_cons, Option.map_some]
    · have hcount : (len.toNat - a + 15) / 16 = 0 := by omega
      rw [hcount, List.take_zero, List.map_nil]

/-- `dump_idt` prints the table and the gate that it has changed, and changes no other gate. -/
theorem dumpIdt_eq (addr handler : BitVec 64) (hd : mem[0x20]? = some d)
    (hlen : len.toNat ≤ 16 * mem.length) :
    dumpIdt addr len handler mem =
      some (.idt addr len :: (mem.take ((len.toNat + 15) / 16)).map dumpIdtr ++
        [dumpIdtr (setHandler handler d)], mem.set 0x20 (setHandler handler d)) := by
  have hgates : dumpGates len 0 mem =
      some ((mem.take ((len.toNat - 0 + 15) / 16)).map dumpIdtr) := dumpGates_eq (by omega)
  rw [Nat.sub_zero] at hgates
  simp only [dumpIdt, hgates, hd, Option.bind_eq_bind, Option.bind_some]

end Table

/-- The gate agrees with the handler exactly when its third word is the high word of the handler
already. -/
theorem setHandler_agrees_iff (d : IdtDesc) (handler : BitVec 64) :
    ((setHandler handler d).off = handler ∧ (setHandler handler d).seg = d.seg ∧
      (setHandler handler d).flags = d.flags) ↔ d.c = (handler >>> 32).setWidth 32 := by
  rw [off_setHandler_eq_iff]
  constructor
  · rintro ⟨hc, -, -⟩
    exact hc
  · intro hc
    exact ⟨hc, seg_setHandler handler d, flags_setHandler handler d⟩

/-- A handler above the first 4 GiB gets lost. -/
theorem setHandler_loses_high :
    (setHandler 0x100000000 ⟨0x00380000, 0x00008e00, 0, 0⟩).off ≠ 0x100000000 := by
  decide

end CollectedSources.Pic
