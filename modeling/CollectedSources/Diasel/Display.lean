import CollectedSources.Diasel.WriteAll
import Mathlib

/-! # The start of the display

A display controller takes bytes or nibbles. Only its upper four data lines are
connected, and after a reset of the microcontroller nobody knows what it takes
and whether half a byte is still missing. `LCD_init` brings both controllers
from any state into the same one.
-/

namespace CollectedSources.Diasel

open Wires

/-- What a controller reads where the lines do not say: the lower half of a whole byte, and the
register if the nibbles of a byte do not agree. -/
structure Noise where
  low : BitVec 4
  rs : Bool

/-- The data length, with the high nibble if it has come. -/
inductive Interface
  | wide
  | narrow (high : Option (Bool × BitVec 4))
  deriving DecidableEq

inductive Address
  | ddram (a : BitVec 7)
  | cgram (a : BitVec 6)
  deriving DecidableEq

/-- A display controller with its instruction flags and its memories. -/
structure Lcd where
  interface : Interface
  twoLines : Bool
  tall : Bool
  on : Bool
  cursor : Bool
  blink : Bool
  increment : Bool
  shifting : Bool
  offset : ℤ
  ddram : BitVec 7 → Byte
  cgram : BitVec 6 → Byte
  address : Address

/-- The lines of the display data memory have 40 places each, or 80 if there is one line. -/
def nextPlace (twoLines : Bool) (a : BitVec 7) : BitVec 7 :=
  if twoLines then if a = 0x27 then 0x40 else if a = 0x67 then 0 else a + 1
  else if a = 0x4f then 0 else a + 1

def prevPlace (twoLines : Bool) (a : BitVec 7) : BitVec 7 :=
  if twoLines then if a = 0x40 then 0x27 else if a = 0 then 0x67 else a - 1
  else if a = 0 then 0x4f else a - 1

def Address.move (twoLines forward : Bool) : Address → Address
  | .ddram a => .ddram (if forward then nextPlace twoLines a else prevPlace twoLines a)
  | .cgram a => .cgram (if forward then a + 1 else a - 1)

/-- The instructions, by their highest bit. -/
def Lcd.instruction (d : Lcd) (c : Byte) : Lcd :=
  if c.getLsbD 7 then { d with address := .ddram (c.setWidth 7) }
  else if c.getLsbD 6 then { d with address := .cgram (c.setWidth 6) }
  else if c.getLsbD 5 then
    { d with
      interface := if c.getLsbD 4 then .wide else .narrow none
      twoLines := c.getLsbD 3
      tall := c.getLsbD 2 }
  else if c.getLsbD 4 then
    if c.getLsbD 3 then { d with offset := d.offset + if c.getLsbD 2 then 1 else -1 }
    else { d with address := d.address.move d.twoLines (c.getLsbD 2) }
  else if c.getLsbD 3 then
    { d with on := c.getLsbD 2, cursor := c.getLsbD 1, blink := c.getLsbD 0 }
  else if c.getLsbD 2 then { d with increment := c.getLsbD 1, shifting := c.getLsbD 0 }
  else if c.getLsbD 1 then { d with address := .ddram 0, offset := 0 }
  else if c.getLsbD 0 then
    { d with ddram := fun _ => 0x20, address := .ddram 0, offset := 0, increment := true }
  else d

/-- A byte for the memory that the address is in. -/
def Lcd.data (d : Lcd) (c : Byte) : Lcd :=
  let d' := { d with address := d.address.move d.twoLines d.increment }
  match d.address with
  | .ddram a =>
    { d' with
      ddram := Function.update d.ddram a c
      offset := if d.shifting then d.offset + if d.increment then -1 else 1 else d.offset }
  | .cgram a => { d' with cgram := Function.update d.cgram a c }

def Lcd.exec (d : Lcd) (rs : Bool) (c : Byte) : Lcd := if rs then d.data c else d.instruction c

/-- The end of an enable pulse. -/
def Lcd.strobe (d : Lcd) (noise : Noise) (nibble : Bool × BitVec 4) : Lcd :=
  match d.interface with
  | .wide => d.exec nibble.1 (nibble.2 ++ noise.low)
  | .narrow none => { d with interface := .narrow (some nibble) }
  | .narrow (some high) =>
    Lcd.exec { d with interface := .narrow none } (if high.1 = nibble.1 then nibble.1 else noise.rs)
      (high.2 ++ nibble.2)

def Lcd.run : (ℕ → Noise) → Lcd → List (Bool × BitVec 4) → Lcd
  | _, d, [] => d
  | noise, d, nibble :: nibbles =>
    Lcd.run (fun k => noise (k + 1)) (d.strobe (noise 0) nibble) nibbles

/-- All nibbles that a controller has taken. -/
def Controller.nibbles (k : Controller) : List (Bool × BitVec 4) :=
  (k.received.flatMap fun t =>
    [(t.rsHigh, t.byte.extractLsb' 4 4), (t.rsLow, t.byte.extractLsb' 0 4)]) ++ k.high.toList

/-- The writes of `LCD_init` before its commands. -/
def initWrites : List Byte :=
  [0, pLcdEn1 ||| pLcdEn2 ||| 0x30, 0x30, pLcdEn1 ||| pLcdEn2 ||| 0x30, 0x30,
    pLcdEn1 ||| pLcdEn2 ||| 0x30, 0x30, pLcdEn1 ||| pLcdEn2 ||| 0x20, 0x20]

/-- The commands of `LCD_init`. -/
def initCalls : List (BitVec 16) :=
  [lcdEn1 ||| lcdEn2 ||| 0x28, lcdEn1 ||| lcdEn2 ||| 0x08, lcdEn1 ||| lcdEn2 ||| 0x01,
    lcdEn1 ||| lcdEn2 ||| 0x06, lcdEn1 ||| lcdEn2 ||| 0x0f]

def lcdInit : List Op :=
  initWrites.flatMap devBoardShiftLcdOut ++ initCalls.flatMap lcdSendval

section Nibbles

variable {late : Bool} {b : Board}

theorem append_nibbles : ∀ a c : BitVec 4,
    (a ++ c).extractLsb' 4 4 = a ∧ (a ++ c).extractLsb' 0 4 = c := by
  decide

theorem nibbles_take (k : Controller) (rs : Bool) (nibble : BitVec 4) :
    (k.take rs nibble).nibbles = k.nibbles ++ [(rs, nibble)] := by
  obtain ⟨high, received⟩ := k
  cases high with
  | none => simp [Controller.take, Controller.nibbles]
  | some h =>
    obtain ⟨hhigh, hlow⟩ := append_nibbles h.2 nibble
    simp [Controller.take, Controller.nibbles, hhigh, hlow]

/-- The enables are low. -/
def Panel.Low (p : Panel) : Prop := ∀ i, p.out.getLsbD (enable i) = false

/-- Some operations hand nibbles to the controllers. -/
structure Sends (late : Bool) (b : Board) (ops : List Op)
    (nibbles : Fin 2 → List (Bool × BitVec 4)) : Prop where
  low : (b.replay late ops).panel.Low
  nibbles : ∀ i, ((b.replay late ops).panel.lcd i).nibbles =
    (b.panel.lcd i).nibbles ++ nibbles i

theorem Sends.append {ops ops' : List Op} {ns ns' : Fin 2 → List (Bool × BitVec 4)}
    (h : Sends late b ops ns) (h' : Sends late (b.replay late ops) ops' ns') :
    Sends late b (ops ++ ops') (fun i => ns i ++ ns' i) := by
  constructor
  · rw [replay_append]
    exact h'.low
  · intro i
    rw [replay_append, h'.nibbles, h.nibbles, List.append_assoc]

theorem sends_nil (h : b.panel.Low) : Sends late b [] (fun _ => []) :=
  ⟨h, fun _ => (List.append_nil _).symm⟩

variable {v v' : Byte} {rs : Bool} {en : Fin 2 → Bool} {nibble : BitVec 4}

theorem sends_pulse (late : Bool) (hb : b.panel.Low) (h : Lines v rs en nibble)
    (h' : Lines v' rs (fun _ => false) nibble) :
    Sends late b ([v, v'].flatMap devBoardShiftLcdOut)
      (fun i => if en i then [(rs, nibble)] else []) := by
  have hpulse : (b.panel.write late v).write late v' =
      ⟨v', fun i => if en i then (b.panel.lcd i).take rs nibble else b.panel.lcd i⟩ :=
    write_pulse hb h h'
  constructor
  · rw [panel_flatMap]
    simp only [List.foldl_cons, List.foldl_nil, hpulse]
    exact h'.enable
  · intro i
    rw [panel_flatMap]
    simp only [List.foldl_cons, List.foldl_nil, hpulse]
    cases en i with
    | true => exact nibbles_take _ _ _
    | false => exact (List.append_nil _).symm

/-- The nibbles of a value that `LCD_sendval` sends. -/
def byteNibbles (val : BitVec 16) : List (Bool × BitVec 4) :=
  [(val.getLsbD 8, val.extractLsb' 4 4), (val.getLsbD 8, val.extractLsb' 0 4)]

theorem sends_sendval (late : Bool) (hb : b.panel.Low) (val : BitVec 16) :
    Sends late b (lcdSendval val) (fun i => if enabled val i then byteNibbles val else []) := by
  have hhigh := sends_pulse late hb ((lines_ctrl val).or (lines_high val))
    ((lines_ctrl_masked val).or (lines_high val))
  have hlow := sends_pulse late hhigh.low ((lines_ctrl val).or (lines_low val))
    ((lines_ctrl_masked val).or (lines_low val))
  have hboth := hhigh.append hlow
  have hnibbles : (fun i =>
      (if enabled val i then [(val.getLsbD 8, val.extractLsb' 4 4)] else []) ++
      if enabled val i then [(val.getLsbD 8, val.extractLsb' 0 4)] else []) =
      fun i => if enabled val i then byteNibbles val else [] := by
    ext1 i
    cases enabled val i <;> rfl
  rw [hnibbles, ← List.flatMap_append] at hboth
  exact hboth

/-- The nibbles of some values for one controller. -/
def streamFor (i : Fin 2) (vals : List (BitVec 16)) : List (Bool × BitVec 4) :=
  vals.flatMap fun val => if enabled val i then byteNibbles val else []

theorem sends_sendvals (late : Bool) (hb : b.panel.Low) (vals : List (BitVec 16)) :
    Sends late b (vals.flatMap lcdSendval) (fun i => streamFor i vals) := by
  induction vals generalizing b with
  | nil => exact sends_nil hb
  | cons val vals ih =>
    have hval := sends_sendval late hb val
    exact hval.append (ih hval.low)

end Nibbles

section Device

variable {d : Lcd} {noise : ℕ → Noise}

theorem Lcd.run_append (noise : ℕ → Noise) (d : Lcd) (ns ms : List (Bool × BitVec 4)) :
    d.run noise (ns ++ ms) = Lcd.run (fun k => noise (k + ns.length)) (d.run noise ns) ms := by
  induction ns generalizing d noise with
  | nil => rfl
  | cons n ns ih => exact ih _ _

theorem interface_instruction (h : d.interface = .narrow none) (c : Byte) :
    (d.instruction c).interface = .wide ∨ (d.instruction c).interface = .narrow none := by
  unfold Lcd.instruction
  split_ifs
  all_goals first | exact Or.inr h | exact Or.inl rfl | exact Or.inr rfl

theorem interface_data (d : Lcd) (c : Byte) : (d.data c).interface = d.interface := by
  unfold Lcd.data
  cases d.address <;> rfl

theorem interface_exec (h : d.interface = .narrow none) (rs : Bool) (c : Byte) :
    (d.exec rs c).interface = .wide ∨ (d.exec rs c).interface = .narrow none := by
  cases rs with
  | true => exact Or.inr ((interface_data d c).trans h)
  | false => exact interface_instruction h c

theorem functionSet_bits : ∀ (wide : Bool) (low : BitVec 4),
    let c : Byte := (if wide then 3 else 2 : BitVec 4) ++ low
    c.getLsbD 7 = false ∧ c.getLsbD 6 = false ∧ c.getLsbD 5 = true ∧ c.getLsbD 4 = wide := by
  decide

theorem exec_functionSet (d : Lcd) (wide : Bool) (low : BitVec 4) :
    (d.exec false ((if wide then 3 else 2 : BitVec 4) ++ low)).interface =
      if wide then .wide else .narrow none := by
  obtain ⟨h₇, h₆, h₅, h₄⟩ := functionSet_bits wide low
  simp only [Lcd.exec, Lcd.instruction, h₇, h₆, h₅, h₄, Bool.false_eq_true, if_false, if_true]

theorem strobe_wide (h : d.interface = .wide) (n : Noise) :
    (d.strobe n (false, 3)).interface = .wide := by
  simp only [Lcd.strobe, h]
  exact exec_functionSet d true n.low

theorem strobe_narrow (h : d.interface = .wide) (n : Noise) :
    (d.strobe n (false, 2)).interface = .narrow none := by
  simp only [Lcd.strobe, h]
  exact exec_functionSet d false n.low

theorem strobe_strobe (h : d.interface = .narrow none) (n n' : Noise) :
    ((d.strobe n (false, 3)).strobe n' (false, 3)).interface = .wide := by
  simp only [Lcd.strobe, h, if_true]
  exact exec_functionSet _ true 3

theorem strobe_pending {high : Bool × BitVec 4} (h : d.interface = .narrow (some high)) (n : Noise)
    (nibble : Bool × BitVec 4) : (d.strobe n nibble).interface = .wide ∨
      (d.strobe n nibble).interface = .narrow none := by
  simp only [Lcd.strobe, h]
  apply interface_exec
  rfl

/-- The first nibbles of `LCD_init`. -/
def syncNibbles : List (Bool × BitVec 4) := [(false, 3), (false, 3), (false, 3), (false, 2)]

theorem interface_sync (noise : ℕ → Noise) (d : Lcd) :
    (d.run noise syncNibbles).interface = .narrow none := by
  simp only [syncNibbles, Lcd.run]
  apply strobe_narrow
  cases h : d.interface with
  | wide =>
    apply strobe_wide
    apply strobe_wide
    exact strobe_wide h _
  | narrow high =>
    cases high with
    | none =>
      apply strobe_wide
      exact strobe_strobe h _ _
    | some high =>
      rcases strobe_pending h (noise 0) (false, 3) with hwide | hnarrow
      · apply strobe_wide
        exact strobe_wide hwide _
      · exact strobe_strobe hnarrow _ _

theorem run_byteNibbles (noise : ℕ → Noise) (h : d.interface = .narrow none) (val : BitVec 16) :
    d.run noise (byteNibbles val) = d.exec (val.getLsbD 8) (val.setWidth 8) := by
  have hbyte : val.extractLsb' 4 4 ++ val.extractLsb' 0 4 = val.setWidth 8 := by
    rw [BitVec.extractLsb'_append_extractLsb'_eq_extractLsb' (by rfl)]
    ext j hj
    simp
  have hself : ({ d with interface := .narrow none } : Lcd) = d := by
    rw [← h]
  simp only [byteNibbles, Lcd.run, Lcd.strobe, h, if_true, hbyte, hself]

/-- A controller after `LCD_init`: two lines, empty, with the cursor at the start and moving to the
right, and switched on. -/
def Lcd.started (cgram : BitVec 6 → Byte) : Lcd where
  interface := .narrow none
  twoLines := true
  tall := false
  on := true
  cursor := true
  blink := true
  increment := true
  shifting := false
  offset := 0
  ddram := fun _ => 0x20
  cgram := cgram
  address := .ddram 0

theorem streamFor_initCalls (i : Fin 2) :
    streamFor i initCalls = initCalls.flatMap byteNibbles := by
  revert i
  decide

theorem run_initCalls (noise : ℕ → Noise) (h : d.interface = .narrow none) :
    d.run noise (initCalls.flatMap byteNibbles) = Lcd.started d.cgram := by
  simp only [initCalls, List.flatMap_cons, List.flatMap_nil, List.append_nil, Lcd.run_append]
  rw [run_byteNibbles _ h, run_byteNibbles _ rfl, run_byteNibbles _ rfl, run_byteNibbles _ rfl,
    run_byteNibbles _ rfl]
  rfl

end Device

section Start

/-- A controller after some operations: it was in the given state before its first nibble. -/
def Board.device (b : Board) (noise : ℕ → Noise) (d : Lcd) (i : Fin 2) : Lcd :=
  d.run noise (b.panel.lcd i).nibbles

theorem sends_sync (late : Bool) {b : Board} (hb : b.panel.Low) :
    Sends late b (initWrites.tail.flatMap devBoardShiftLcdOut) (fun _ => syncNibbles) := by
  have hthree : Lines (pLcdEn1 ||| pLcdEn2 ||| 0x30) false (fun _ => true) 3 := by
    refine ⟨?_, ?_, ?_⟩ <;> decide
  have hthree' : Lines 0x30 false (fun _ => false) 3 := by
    refine ⟨?_, ?_, ?_⟩ <;> decide
  have htwo : Lines (pLcdEn1 ||| pLcdEn2 ||| 0x20) false (fun _ => true) 2 := by
    refine ⟨?_, ?_, ?_⟩ <;> decide
  have htwo' : Lines 0x20 false (fun _ => false) 2 := by
    refine ⟨?_, ?_, ?_⟩ <;> decide
  have h₁ := sends_pulse late hb hthree hthree'
  have h₂ := h₁.append (sends_pulse late h₁.low hthree hthree')
  have h₃ := h₂.append (sends_pulse late h₂.low hthree hthree')
  have h₄ := h₃.append (sends_pulse late h₃.low htwo htwo')
  exact h₄

/-- From every state of the port, the shift register and the controllers, `LCD_init` starts both
controllers. -/
theorem lcdInit_started (late : Bool) (b : Board) (noise : Fin 2 → ℕ → Noise) (d : Fin 2 → Lcd) :
    (b.replay late lcdInit).panel.Low ∧
      ∀ i, ∃ cgram, (b.replay late lcdInit).device (noise i) (d i) i = Lcd.started cgram := by
  have hinit : lcdInit = devBoardShiftLcdOut 0 ++
      (initWrites.tail.flatMap devBoardShiftLcdOut ++ initCalls.flatMap lcdSendval) := by
    rw [← List.append_assoc]
    rfl
  have hlow : (b.replay late (devBoardShiftLcdOut 0)).panel.Low := by
    rw [panel_devBoardShiftLcdOut]
    intro i
    exact BitVec.getLsbD_zero
  have hsync := sends_sync late hlow
  have hsends := hsync.append (sends_sendvals late hsync.low initCalls)
  rw [hinit, replay_append]
  refine ⟨hsends.low, fun i => ?_⟩
  rw [Board.device, hsends.nibbles, Lcd.run_append, Lcd.run_append, streamFor_initCalls,
    run_initCalls _ (interface_sync _ _)]
  exact ⟨_, rfl⟩

end Start

end CollectedSources.Diasel
