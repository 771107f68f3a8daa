import CollectedSources.Machine.Wires

/-! # The display of diasel

Characters reach two display controllers as nibbles, nibbles as bytes of a
shift register and these bytes as clocked bits of a port. Each level is related
to the next one, from the writes to the port up to the strings received.
-/

namespace CollectedSources.Diasel

open Wires

abbrev Byte := BitVec 8

def shiftLcdSet : ℕ := 1

def shiftOut : ℕ := 6

def shiftClk : ℕ := 7

def lcdRs : BitVec 16 := 0x100

def lcdEn1 : BitVec 16 := 0x200

def lcdEn2 : BitVec 16 := 0x400

def pLcdRs : Byte := 0x01

def pLcdEn1 : Byte := 0x04

def pLcdEn2 : Byte := 0x02

/-- Writes to the direction register and to the port, each of one bit. -/
inductive Op
  | ddrSet (bit : ℕ)
  | portSet (bit : ℕ)
  | portClear (bit : ℕ)
  deriving DecidableEq, Repr

/-- The loop of `DevBoardShiftLcdOut`, with the value that `i--` tests. -/
def shiftLoop (val : Byte) : ℕ → List Op
  | 0 => []
  | i + 1 =>
    [if val &&& BitVec.twoPow 8 i ≠ 0 then .portSet shiftOut else .portClear shiftOut,
      .portSet shiftClk, .portClear shiftClk] ++ shiftLoop val i

def devBoardShiftLcdOut (val : Byte) : List Op :=
  [.ddrSet shiftLcdSet, .ddrSet shiftClk, .ddrSet shiftOut, .portClear shiftLcdSet,
    .portClear shiftClk] ++ shiftLoop val 8 ++ [.portSet shiftLcdSet]

/-- The control bits of `LCD_sendval`. -/
def ctrl (val : BitVec 16) : Byte :=
  (if lcdRs &&& val ≠ 0 then pLcdRs else 0) ||| (if lcdEn1 &&& val ≠ 0 then pLcdEn1 else 0) |||
    (if lcdEn2 &&& val ≠ 0 then pLcdEn2 else 0)

/-- The bytes that `LCD_sendval` writes. -/
def sendvalBytes (val : BitVec 16) : List Byte :=
  [ctrl val ||| (val &&& 0xf0).setWidth 8,
    (ctrl val &&& ~~~ (pLcdEn1 ||| pLcdEn2)) ||| (val &&& 0xf0).setWidth 8,
    ctrl val ||| ((val &&& 0xf) <<< 4).setWidth 8,
    (ctrl val &&& ~~~ (pLcdEn1 ||| pLcdEn2)) ||| ((val &&& 0xf) <<< 4).setWidth 8]

def lcdSendval (val : BitVec 16) : List Op := (sendvalBytes val).flatMap devBoardShiftLcdOut

def lcdSenddata (val : BitVec 16) : List Op := lcdSendval (val ||| lcdRs)

/-- `LCD_puts` on the memory behind its argument. -/
def lcdPuts : List Byte → Byte → List Op
  | [], _ => []
  | c :: str, row =>
    if c = 0 then []
    else lcdSenddata ((if row < 3 then lcdEn1 else lcdEn2) ||| c.setWidth 16) ++ lcdPuts str row

/-- A byte received in two nibbles, with the register select of each. -/
structure Transfer where
  rsHigh : Bool
  rsLow : Bool
  byte : Byte
  deriving DecidableEq, Repr

/-- A display controller in 4-bit mode: the high nibble, if it has come, and all bytes. -/
structure Controller where
  high : Option (Bool × BitVec 4)
  received : List Transfer
  deriving DecidableEq, Repr

/-- A controller takes a nibble, the high one first. -/
def Controller.take (k : Controller) (rs : Bool) (nibble : BitVec 4) : Controller :=
  match k.high with
  | none => { k with high := some (rs, nibble) }
  | some (rsHigh, high) =>
    { high := none, received := k.received ++ [⟨rsHigh, rs, high ++ nibble⟩] }

/-- The end of an enable pulse with some data on the lines. -/
def Controller.strobe (k : Controller) (lines : Byte) : Controller :=
  k.take (lines.getLsbD 0) (lines.extractLsb' 4 4)

/-- The enable line of each controller. -/
def enable (i : Fin 2) : ℕ := if i = 0 then 2 else 1

/-- The outputs of the shift register and the controllers on them. -/
structure Panel where
  out : Byte
  lcd : Fin 2 → Controller

/-- The outputs change; a controller whose enable falls takes the data from before the edge, or
those from after it if it is late. -/
def Panel.write (late : Bool) (p : Panel) (val : Byte) : Panel where
  out := val
  lcd i := if falling p.out val (enable i) then (p.lcd i).strobe (if late then val else p.out)
    else p.lcd i

/-- The registers of the microcontroller, the shift register and what is behind it. -/
structure Board where
  ddr : Byte
  port : Byte
  reg : Byte
  panel : Panel

/-- A new value of the port: the register shifts at a rising clock and shows its contents at a
rising latch line. -/
def Board.drive (late : Bool) (b : Board) (port : Byte) : Board where
  ddr := b.ddr
  port := port
  reg := if rising b.port port shiftClk then b.reg.shiftConcat (port.getLsbD shiftOut) else b.reg
  panel := if rising b.port port shiftLcdSet then b.panel.write late b.reg else b.panel

def Board.exec (late : Bool) (b : Board) : Op → Board
  | .ddrSet i => { b with ddr := setBit b.ddr i }
  | .portSet i => b.drive late (setBit b.port i)
  | .portClear i => b.drive late (clearBit b.port i)

def Board.replay (late : Bool) (b : Board) (ops : List Op) : Board := ops.foldl (Board.exec late) b

section Port

variable {late : Bool} {b : Board}

theorem replay_append (b : Board) (ops ops' : List Op) :
    b.replay late (ops ++ ops') = (b.replay late ops).replay late ops' :=
  List.foldl_append

theorem replay_cons (b : Board) (op : Op) (ops : List Op) :
    b.replay late (op :: ops) = (b.exec late op).replay late ops := rfl

theorem exec_portClear (b : Board) (i : ℕ) :
    b.exec late (.portClear i) = { b with port := clearBit b.port i } := by
  simp [Board.exec, Board.drive, rising_clearBit]

theorem exec_portSet_out (b : Board) :
    b.exec late (.portSet shiftOut) = { b with port := setBit b.port shiftOut } := by
  have hclk : shiftOut ≠ shiftClk := by decide
  have hset : shiftOut ≠ shiftLcdSet := by decide
  simp [Board.exec, Board.drive, rising_setBit_of_ne, hclk, hset]

theorem exec_portSet_clk (h : b.port.getLsbD shiftClk = false) :
    b.exec late (.portSet shiftClk) =
      { b with
        port := setBit b.port shiftClk
        reg := b.reg.shiftConcat (b.port.getLsbD shiftOut) } := by
  have hset : shiftClk ≠ shiftLcdSet := by decide
  have hout : shiftClk ≠ shiftOut := by decide
  rw [Board.exec, Board.drive, rising_setBit b.port (by decide), h, rising_setBit_of_ne b.port hset,
    getLsbD_setBit, decide_eq_false hout, Bool.and_false, Bool.or_false]
  rfl

theorem exec_portSet_set (h : b.port.getLsbD shiftLcdSet = false) :
    b.exec late (.portSet shiftLcdSet) =
      { b with
        port := setBit b.port shiftLcdSet
        panel := b.panel.write late b.reg } := by
  have hclk : shiftLcdSet ≠ shiftClk := by decide
  rw [Board.exec, Board.drive, rising_setBit b.port (by decide), h, rising_setBit_of_ne b.port hclk]
  rfl

/-- The latch and the clock line are low. -/
structure Board.Ready (b : Board) : Prop where
  set : b.port.getLsbD shiftLcdSet = false
  clk : b.port.getLsbD shiftClk = false

theorem replay_bit (late : Bool) (h : b.Ready) (bit : Bool) :
    ∃ port, b.replay late [if bit then .portSet shiftOut else .portClear shiftOut,
        .portSet shiftClk, .portClear shiftClk] =
      { b with port, reg := b.reg.shiftConcat bit } ∧
      Board.Ready { b with port, reg := b.reg.shiftConcat bit } := by
  have hset : shiftClk ≠ shiftLcdSet := by decide
  have hoc : shiftOut ≠ shiftClk := by decide
  have hos : shiftOut ≠ shiftLcdSet := by decide
  have hout : ∃ port, b.exec late (if bit then .portSet shiftOut else .portClear shiftOut) =
      { b with port } ∧ port.getLsbD shiftOut = bit ∧
      Board.Ready { b with port } := by
    cases bit with
    | true =>
      refine ⟨_, exec_portSet_out b, by simp [getLsbD_setBit, shiftOut], ?_, ?_⟩
      · simp [getLsbD_setBit, h.set, hos]
      · simp [getLsbD_setBit, h.clk, hoc]
    | false =>
      refine ⟨_, exec_portClear b shiftOut, by simp [getLsbD_clearBit], ?_, ?_⟩
      · simp [getLsbD_clearBit, h.set]
      · simp [getLsbD_clearBit, h.clk]
  obtain ⟨port, hexec, hbit, hready⟩ := hout
  refine ⟨clearBit (setBit port shiftClk) shiftClk, ?_, ?_, ?_⟩
  · rw [replay_cons, hexec, replay_cons, exec_portSet_clk hready.clk, replay_cons, exec_portClear]
    simp only [hbit]
    rfl
  · have := hready.set
    simp_all [getLsbD_clearBit, getLsbD_setBit]
  · simp [getLsbD_clearBit]

theorem replay_shiftLoop (late : Bool) (val : Byte) {k : ℕ} (hk : k ≤ 8) (h : b.Ready) :
    ∃ port, b.replay late (shiftLoop val k) = { b with port, reg := shiftIn val k b.reg } ∧
      port.getLsbD shiftLcdSet = false := by
  induction k generalizing b with
  | zero => exact ⟨b.port, rfl, h.set⟩
  | succ k ih =>
    obtain ⟨port, hb, hready⟩ := replay_bit late h (val.getLsbD k)
    obtain ⟨port', hb', hset⟩ := ih (by omega) hready
    refine ⟨port', ?_, hset⟩
    rw [shiftLoop, replay_append]
    simp only [and_twoPow_ne_zero_iff val (i := k) (by omega)]
    rw [hb, hb']
    rfl

theorem replay_start (late : Bool) (b : Board) :
    ∃ b', b.replay late [.ddrSet shiftLcdSet, .ddrSet shiftClk, .ddrSet shiftOut,
      .portClear shiftLcdSet, .portClear shiftClk] = b' ∧ b'.Ready ∧ b'.panel = b.panel := by
  refine ⟨⟨setBit (setBit (setBit b.ddr shiftLcdSet) shiftClk) shiftOut,
    clearBit (clearBit b.port shiftLcdSet) shiftClk, b.reg, b.panel⟩, ?_, ⟨?_, ?_⟩, rfl⟩
  · simp only [replay_cons, exec_portClear]
    rfl
  · simp [getLsbD_clearBit]
  · simp [getLsbD_clearBit]

theorem panel_devBoardShiftLcdOut (b : Board) (val : Byte) :
    (b.replay late (devBoardShiftLcdOut val)).panel = b.panel.write late val := by
  obtain ⟨b', hb', hready, hpanel⟩ := replay_start late b
  obtain ⟨port, hloop, hset⟩ := replay_shiftLoop late val (Nat.le_refl 8) hready
  rw [devBoardShiftLcdOut, replay_append, replay_append, hb', hloop, replay_cons,
    exec_portSet_set hset, shiftIn_width, ← hpanel]
  rfl

theorem panel_flatMap (b : Board) (vals : List Byte) :
    (b.replay late (vals.flatMap devBoardShiftLcdOut)).panel =
      vals.foldl (Panel.write late) b.panel := by
  induction vals generalizing b with
  | nil => rfl
  | cons val vals ih =>
    rw [List.flatMap_cons, replay_append, ih, panel_devBoardShiftLcdOut, List.foldl_cons]

end Port

section Nibbles

variable {late : Bool} {p : Panel}

/-- The controllers that a value is for. -/
def enabled (val : BitVec 16) (i : Fin 2) : Bool := val.getLsbD (if i = 0 then 9 else 10)

/-- A controller that waits for a high nibble receives a byte. -/
def Controller.receive (k : Controller) (rs : Bool) (byte : Byte) : Controller :=
  { k with received := k.received ++ [⟨rs, rs, byte⟩] }

/-- No enable is high, and all controllers wait for a high nibble. -/
structure Panel.Idle (p : Panel) : Prop where
  enable : ∀ i, p.out.getLsbD (enable i) = false
  high : ∀ i, (p.lcd i).high = none

theorem ctrl_eq (val : BitVec 16) :
    ctrl val = (if val.getLsbD 8 then 0x01 else 0) ||| (if val.getLsbD 9 then 0x04 else 0) |||
      (if val.getLsbD 10 then 0x02 else 0) := by
  have hbit : ∀ (i : ℕ) (mask : BitVec 16), i < 16 → mask = BitVec.twoPow 16 i →
      (mask &&& val ≠ 0 ↔ val.getLsbD i = true) := by
    rintro i _ hi rfl
    rw [BitVec.and_comm, and_twoPow_ne_zero_iff val hi]
  unfold ctrl
  simp only [hbit 8 lcdRs (by decide) (by decide), hbit 9 lcdEn1 (by decide) (by decide),
    hbit 10 lcdEn2 (by decide) (by decide)]
  rfl

/-- The lines of the display: register select, enables and a nibble. -/
structure Lines (v : Byte) (rs : Bool) (en : Fin 2 → Bool) (nibble : BitVec 4) : Prop where
  rs : v.getLsbD 0 = rs
  enable : ∀ i, v.getLsbD (enable i) = en i
  nibble : v.extractLsb' 4 4 = nibble

theorem Lines.or {v v' : Byte} {rs : Bool} {en : Fin 2 → Bool} {nibble : BitVec 4}
    (h : Lines v rs en 0) (h' : Lines v' false (fun _ => false) nibble) :
    Lines (v ||| v') rs en nibble where
  rs := by rw [BitVec.getLsbD_or, h.rs, h'.rs, Bool.or_false]
  enable i := by rw [BitVec.getLsbD_or, h.enable, h'.enable, Bool.or_false]
  nibble := by rw [BitVec.extractLsb'_or, h.nibble, h'.nibble]; exact BitVec.zero_or

theorem lines_bits (rs en1 en2 : Bool) :
    Lines ((if rs then 0x01 else 0) ||| (if en1 then 0x04 else 0) ||| (if en2 then 0x02 else 0))
      rs (fun i => if i = 0 then en1 else en2) 0 := by
  refine ⟨?_, ?_, ?_⟩ <;> revert rs en1 en2 <;> decide

theorem lines_ctrl (val : BitVec 16) : Lines (ctrl val) (val.getLsbD 8) (enabled val) 0 := by
  have hen : enabled val = fun i => if i = 0 then val.getLsbD 9 else val.getLsbD 10 := by
    funext i
    unfold enabled
    split <;> rfl
  rw [ctrl_eq, hen]
  exact lines_bits _ _ _

theorem lines_ctrl_masked (val : BitVec 16) :
    Lines (ctrl val &&& ~~~ (pLcdEn1 ||| pLcdEn2)) (val.getLsbD 8) (fun _ => false) 0 := by
  obtain ⟨hrs, -, hnibble⟩ := lines_ctrl val
  refine ⟨?_, fun i => ?_, ?_⟩
  · rw [BitVec.getLsbD_and, hrs]
    exact Bool.and_true _
  · have hmask : (~~~ (pLcdEn1 ||| pLcdEn2)).getLsbD (enable i) = false := by
      revert i
      decide
    rw [BitVec.getLsbD_and, hmask, Bool.and_false]
  · rw [BitVec.extractLsb'_and, hnibble]
    exact BitVec.zero_and

theorem lines_high (val : BitVec 16) :
    Lines ((val &&& 0xf0).setWidth 8) false (fun _ => false) (val.extractLsb' 4 4) := by
  refine ⟨by simp, fun i => ?_, ?_⟩
  · have hmask : (0xf0#16).getLsbD (enable i) = false := by
      revert i
      decide
    rw [BitVec.getLsbD_setWidth, BitVec.getLsbD_and]
    simp [hmask]
  · have hmask : (0xf0#16).extractLsb' 4 4 = BitVec.allOnes 4 := by decide
    rw [BitVec.extractLsb'_setWidth_of_le (by decide), BitVec.extractLsb'_and]
    exact (congrArg _ hmask).trans BitVec.and_allOnes

theorem lines_low (val : BitVec 16) :
    Lines (((val &&& 0xf) <<< 4).setWidth 8) false (fun _ => false) (val.extractLsb' 0 4) := by
  refine ⟨by simp, fun i => ?_, ?_⟩
  · have hlt : enable i < 4 := by
      revert i
      decide
    rw [BitVec.getLsbD_setWidth, BitVec.getLsbD_shiftLeft]
    simp [hlt]
  · have hshift : ((val &&& 0xf) <<< 4).extractLsb' 4 4 = (val &&& 0xf).extractLsb' 0 4 := by
      ext j hj
      rw [BitVec.getElem_extractLsb' hj, BitVec.getElem_extractLsb' hj, BitVec.getLsbD_shiftLeft,
        decide_eq_true (by omega), decide_eq_false (by omega), Nat.add_sub_cancel_left,
        Nat.zero_add]
      rfl
    have hmask : (0xf#16).extractLsb' 0 4 = BitVec.allOnes 4 := by decide
    rw [BitVec.extractLsb'_setWidth_of_le (by decide), hshift, BitVec.extractLsb'_and]
    exact (congrArg _ hmask).trans BitVec.and_allOnes

variable {v v' : Byte} {rs : Bool} {en : Fin 2 → Bool} {nibble : BitVec 4}

theorem write_pulse (hp : ∀ i, p.out.getLsbD (enable i) = false) (h : Lines v rs en nibble)
    (h' : Lines v' rs (fun _ => false) nibble) :
    (p.write late v).write late v' =
      ⟨v', fun i => if en i then (p.lcd i).take rs nibble else p.lcd i⟩ := by
  have hraise : (p.write late v).lcd = p.lcd := by
    funext i
    simp [Panel.write, falling, hp]
  have hsample : ∀ k : Controller, k.strobe (if late then v' else v) = k.take rs nibble := by
    intro k
    cases late with
    | true => exact congrArg₂ k.take h'.rs h'.nibble
    | false => exact congrArg₂ k.take h.rs h.nibble
  have hdrop : ∀ i, falling v v' (enable i) = en i := by
    intro i
    rw [falling, h.enable, h'.enable, Bool.not_false, Bool.and_true]
  have hlcd : ((p.write late v).write late v').lcd =
      fun i => if en i then (p.lcd i).take rs nibble else p.lcd i := by
    funext i
    rw [← hraise, ← hsample, ← hdrop]
    rfl
  rw [← hlcd]
  rfl

theorem take_take (k : Controller) (hk : k.high = none) (rs : Bool) (val : BitVec 16) :
    (k.take rs (val.extractLsb' 4 4)).take rs (val.extractLsb' 0 4) =
      k.receive rs (val.setWidth 8) := by
  have hbyte : val.extractLsb' 4 4 ++ val.extractLsb' 0 4 = val.setWidth 8 := by
    rw [BitVec.extractLsb'_append_extractLsb'_eq_extractLsb' (by rfl)]
    ext j hj
    simp
  simp only [Controller.take, Controller.receive, hk, hbyte]

theorem foldl_sendvalBytes (late : Bool) (h : p.Idle) (val : BitVec 16) :
    ((sendvalBytes val).foldl (Panel.write late) p).Idle ∧
      ∀ i, ((sendvalBytes val).foldl (Panel.write late) p).lcd i =
        if enabled val i then (p.lcd i).receive (val.getLsbD 8) (val.setWidth 8) else p.lcd i := by
  have hhigh := (lines_ctrl_masked val).or (lines_high val)
  have hlow := (lines_ctrl_masked val).or (lines_low val)
  simp only [sendvalBytes, List.foldl_cons, List.foldl_nil]
  rw [write_pulse h.enable ((lines_ctrl val).or (lines_high val)) hhigh,
    write_pulse hhigh.enable ((lines_ctrl val).or (lines_low val)) hlow]
  have hlcd : ∀ i, (if enabled val i then
      (if enabled val i then (p.lcd i).take (val.getLsbD 8) (val.extractLsb' 4 4)
        else p.lcd i).take (val.getLsbD 8) (val.extractLsb' 0 4)
      else if enabled val i then (p.lcd i).take (val.getLsbD 8) (val.extractLsb' 4 4)
        else p.lcd i) =
      if enabled val i then (p.lcd i).receive (val.getLsbD 8) (val.setWidth 8) else p.lcd i := by
    intro i
    cases enabled val i with
    | true => exact take_take (p.lcd i) (h.high i) _ val
    | false => rfl
  refine ⟨⟨hlow.enable, fun i => ?_⟩, hlcd⟩
  dsimp only
  rw [hlcd]
  split
  · exact h.high i
  · exact h.high i

end Nibbles

section Strings

/-- Rows 1 and 2 are on the first controller, rows 3 and 4 on the second one. -/
def selected (row : Byte) : Fin 2 := if row < 3 then 0 else 1

theorem getLsbD_setWidth_of_ge (c : Byte) {i : ℕ} (hi : 8 ≤ i) :
    (c.setWidth 16).getLsbD i = false := by
  rw [BitVec.getLsbD_setWidth, BitVec.getLsbD_of_ge c i hi, Bool.and_false]

/-- What `LCD_puts` sends for a character. -/
theorem senddata_value (row c : Byte) :
    let val := ((if row < 3 then lcdEn1 else lcdEn2) ||| c.setWidth 16) ||| lcdRs
    (∀ i, enabled val i = decide (i = selected row)) ∧ val.getLsbD 8 = true ∧
      val.setWidth 8 = c := by
  have hmask : ∀ i : Fin 2, ((if row < 3 then lcdEn1 else lcdEn2) ||| lcdRs).getLsbD
      (if i = 0 then 9 else 10) = decide (i = selected row) := by
    unfold selected
    split <;> decide
  have hlow : ((if row < 3 then lcdEn1 else lcdEn2) ||| lcdRs).setWidth 8 = 0 := by
    split <;> decide
  have hge : ∀ i : Fin 2, 8 ≤ if i = 0 then 9 else 10 := by decide
  refine ⟨fun i => ?_, ?_, ?_⟩
  · rw [enabled, BitVec.or_assoc, BitVec.or_comm (c.setWidth 16), ← BitVec.or_assoc,
      BitVec.getLsbD_or, getLsbD_setWidth_of_ge c (hge i), Bool.or_false, hmask]
  · rw [BitVec.getLsbD_or]
    exact Bool.or_true _
  · rw [BitVec.or_assoc, BitVec.or_comm (c.setWidth 16), ← BitVec.or_assoc, BitVec.setWidth_or,
      hlow]
    simp

theorem replay_senddata (late : Bool) {b : Board} (h : b.panel.Idle) (row c : Byte) :
    ∃ b', b.replay late
        (lcdSenddata ((if row < 3 then lcdEn1 else lcdEn2) ||| c.setWidth 16)) = b' ∧
      b'.panel.Idle ∧ ∀ i, b'.panel.lcd i =
        if i = selected row then (b.panel.lcd i).receive true c else b.panel.lcd i := by
  obtain ⟨hen, hrs, hc⟩ := senddata_value row c
  obtain ⟨hidle, hlcd⟩ := foldl_sendvalBytes late h
    (((if row < 3 then lcdEn1 else lcdEn2) ||| c.setWidth 16) ||| lcdRs)
  refine ⟨_, rfl, ?_⟩
  rw [lcdSenddata, lcdSendval, panel_flatMap]
  refine ⟨hidle, fun i => ?_⟩
  rw [hlcd, hen, hrs, hc]
  simp only [decide_eq_true_eq]

/-- The controller of the row receives the bytes of the string as data, the other one nothing. -/
theorem puts_received (late : Bool) {b : Board} (h : b.panel.Idle) (row : Byte)
    (str rest : List Byte) (hstr : ∀ c ∈ str, c ≠ 0) :
    ∀ i, (b.replay late (lcdPuts (str ++ 0 :: rest) row)).panel.lcd i =
      if i = selected row then
        { b.panel.lcd i with
          received := (b.panel.lcd i).received ++ str.map fun c => ⟨true, true, c⟩ }
      else b.panel.lcd i := by
  induction str generalizing b with
  | nil =>
    intro i
    simp [lcdPuts, Board.replay]
  | cons c str ih =>
    intro i
    obtain ⟨b', hb', hidle, hlcd⟩ := replay_senddata late h row c
    have hc : c ≠ 0 := hstr c (by simp)
    rw [List.cons_append, lcdPuts, if_neg hc, replay_append, hb',
      ih hidle (fun c hc => hstr c (by simp [hc])), hlcd]
    split
    · simp [Controller.receive]
    · rfl

/-- A board with every line of the port high, before anything is received. -/
def sampleBoard : Board := ⟨0, 0xff, 0xaa, ⟨0, fun _ => ⟨none, []⟩⟩⟩

theorem puts_received_sample :
    sampleBoard.panel.Idle ∧
      ((sampleBoard.replay true (lcdPuts ([0x48, 0x69] ++ 0 :: [0x21]) 3)).panel.lcd 1).received =
        [⟨true, true, 0x48⟩, ⟨true, true, 0x69⟩] ∧
      ((sampleBoard.replay true (lcdPuts ([0x48, 0x69] ++ 0 :: [0x21]) 3)).panel.lcd 0).received =
        [] := by
  have hidle : sampleBoard.panel.Idle := ⟨by decide, fun _ => rfl⟩
  have h := puts_received true hidle 3 [0x48, 0x69] [0x21] (by decide)
  refine ⟨hidle, ?_, ?_⟩
  · rw [h 1]
    rfl
  · rw [h 0]
    rfl

end Strings

end CollectedSources.Diasel
