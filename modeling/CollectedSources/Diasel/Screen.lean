import CollectedSources.Diasel.Display
import CollectedSources.Machine.Memory
import Mathlib

/-! # What is on the display

After `LCD_init` every call sends only addresses and data, so the controllers
keep reading whole bytes and write to the right. Texts then appear where the
cursor is set, and glyphs replace one character each.
-/

namespace CollectedSources.Diasel

/-- The values that `LCD_wr_cgram` sends. -/
def wrCgramCalls (charVal : Byte) (charBuf : Fin 8 → Byte) : List (BitVec 16) :=
  (lcdEn1 ||| lcdEn2 ||| 0x40#16 ||| (charVal <<< 3).setWidth 16) ::
    (List.ofFn charBuf).map (fun c => lcdEn1 ||| lcdEn2 ||| c.setWidth 16 ||| lcdRs) ++
    [lcdEn1 ||| lcdEn2 ||| 0x80]

/-- A value with data or an address. -/
def Plain (val : BitVec 16) : Prop :=
  val.getLsbD 8 = true ∨ val.getLsbD 7 = true ∨ val.getLsbD 6 = true

/-- The calls that a program makes once the display is started: all but those of `LCD_sendval` with
an instruction that sets a mode. -/
inductive Call
  | cursorYx (row column : Byte)
  | puts (str : List Byte) (row : Byte)
  | wrCgram (charVal : Byte) (charBuf : Fin 8 → Byte)
  | writeAll (dta : List Byte)
  | sendval (val : BitVec 16) (h : Plain val)

def Call.vals : Call → List (BitVec 16)
  | .cursorYx row column => [Diasel.cursorYx row column]
  | .puts str row => putsCalls str row
  | .wrCgram charVal charBuf => wrCgramCalls charVal charBuf
  | .writeAll dta => writeAllCalls dta
  | .sendval val _ => [val]

/-- The operations of `LCD_init` and of some calls after it. -/
def session (calls : List Call) : List Op :=
  lcdInit ++ (calls.flatMap Call.vals).flatMap lcdSendval

/-- A controller gets a value if it is enabled. -/
def Lcd.receive (i : Fin 2) (d : Lcd) (val : BitVec 16) : Lcd :=
  if enabled val i then d.exec (val.getLsbD 8) (val.setWidth 8) else d

/-- What `LCD_init` sets and nothing else changes. -/
structure Lcd.Settled (d : Lcd) : Prop where
  interface : d.interface = .narrow none
  twoLines : d.twoLines = true
  increment : d.increment = true
  shifting : d.shifting = false
  offset : d.offset = 0
  on : d.on = true

section Settled

variable {d : Lcd} {val : BitVec 16}

theorem Lcd.Settled.data (h : d.Settled) (c : Byte) : (d.data c).Settled := by
  unfold Lcd.data
  cases d.address with
  | ddram a =>
    refine ⟨h.interface, h.twoLines, h.increment, h.shifting, ?_, h.on⟩
    simp only [h.shifting, Bool.false_eq_true, if_false, h.offset]
  | cgram a => exact ⟨h.interface, h.twoLines, h.increment, h.shifting, h.offset, h.on⟩

theorem Lcd.Settled.receive (h : d.Settled) (i : Fin 2) (hval : Plain val) :
    (d.receive i val).Settled := by
  have hbit : ∀ k < 8, (val.setWidth 8).getLsbD k = val.getLsbD k := by
    intro k hk
    simp [hk]
  unfold Lcd.receive Lcd.exec
  split_ifs with hen hrs
  · exact h.data _
  · unfold Lcd.instruction
    rw [hbit 7 (by decide), hbit 6 (by decide)]
    rcases hval with h₈ | h₇ | h₆
    · exact absurd h₈ hrs
    · rw [if_pos h₇]
      exact ⟨h.interface, h.twoLines, h.increment, h.shifting, h.offset, h.on⟩
    · split_ifs
      · exact ⟨h.interface, h.twoLines, h.increment, h.shifting, h.offset, h.on⟩
      · exact ⟨h.interface, h.twoLines, h.increment, h.shifting, h.offset, h.on⟩
  · exact h

theorem run_streamFor (i : Fin 2) (noise : ℕ → Noise) {vals : List (BitVec 16)} (h : d.Settled)
    (hvals : ∀ val ∈ vals, Plain val) :
    d.run noise (streamFor i vals) = vals.foldl (Lcd.receive i) d ∧
      (vals.foldl (Lcd.receive i) d).Settled := by
  induction vals generalizing d noise with
  | nil => exact ⟨rfl, h⟩
  | cons val vals ih =>
    rw [List.forall_mem_cons] at hvals
    have hstep : ∀ noise : ℕ → Noise,
        d.run noise (if enabled val i then byteNibbles val else []) = d.receive i val := by
      intro noise
      unfold Lcd.receive
      split_ifs
      · exact run_byteNibbles noise h.interface val
      · rfl
    obtain ⟨hrun, hsettled⟩ := ih _ (h.receive i hvals.1) hvals.2
    refine ⟨?_, hsettled⟩
    rw [streamFor, List.flatMap_cons, Lcd.run_append, hstep]
    exact hrun

instance (val : BitVec 16) : Decidable (Plain val) := inferInstanceAs (Decidable (_ ∨ _))

theorem Plain.or (h : Plain val) (mask : BitVec 16) : Plain (val ||| mask) := by
  simp only [Plain, BitVec.getLsbD_or, Bool.or_eq_true]
  rcases h with h | h | h
  · exact Or.inl (Or.inl h)
  · exact Or.inr (Or.inl (Or.inl h))
  · exact Or.inr (Or.inr (Or.inl h))

theorem plain_data (mask : BitVec 16) (c : Byte) : Plain (mask ||| c.setWidth 16 ||| lcdRs) := by
  left
  rw [BitVec.getLsbD_or]
  exact Bool.or_true _

theorem plain_putsCalls (str : List Byte) (row : Byte) : ∀ val ∈ putsCalls str row, Plain val := by
  induction str with
  | nil => simp [putsCalls]
  | cons c str ih =>
    unfold putsCalls
    split_ifs
    · simp
    · exact List.forall_mem_cons.mpr ⟨plain_data _ c, ih⟩
    · exact List.forall_mem_cons.mpr ⟨plain_data _ c, ih⟩

theorem plain_writeColumns (i k : ℕ) (dta : List Byte) :
    ∀ val ∈ (writeColumns i k dta).1, Plain val := by
  induction k generalizing dta with
  | zero => simp [writeColumns]
  | succ k ih =>
    cases dta with
    | nil => simp [writeColumns]
    | cons c dta =>
      unfold writeColumns
      split_ifs
      · simp
      · simp
      · rw [List.forall_mem_cons]
        exact ⟨plain_data _ c, ih dta⟩

theorem plain_setLine (i : ℕ) : ∀ val ∈ setLine i, Plain val := by
  rcases i with _ | _ | _ | _ | i <;> simp [setLine, Plain, lcdEn1, lcdEn2]

theorem plain_writeRows (n : ℕ) (dta : List Byte) : ∀ val ∈ writeRows n dta, Plain val := by
  induction n generalizing dta with
  | zero => simp [writeRows]
  | succ n ih =>
    simp only [writeRows, List.forall_mem_append]
    refine ⟨⟨plain_setLine _, plain_writeColumns _ _ _⟩, ?_⟩
    split_ifs
    · simp
    · exact ih _

theorem plain_column : ∀ column : Byte,
    Plain (0x80 + column.setWidth 16) ∧ Plain (0xc0 + column.setWidth 16) := by
  decide +kernel

theorem plain_cursorYx (row column : Byte) : Plain (Diasel.cursorYx row column) := by
  obtain ⟨hfirst, hsecond⟩ := plain_column (column - 1)
  unfold Diasel.cursorYx
  split
  · exact hfirst.or _
  · exact hsecond.or _
  · exact hfirst.or _
  · exact hsecond.or _
  · exact (hfirst.or _).or _

theorem plain_wrCgramCalls (charVal : Byte) (charBuf : Fin 8 → Byte) :
    ∀ val ∈ wrCgramCalls charVal charBuf, Plain val := by
  have haddress : Plain (lcdEn1 ||| lcdEn2 ||| 0x40) := by decide
  have hback : Plain (lcdEn1 ||| lcdEn2 ||| 0x80) := by decide
  simp only [wrCgramCalls, List.cons_append, List.forall_mem_cons, List.forall_mem_append,
    List.forall_mem_map, List.not_mem_nil, false_implies, implies_true, and_true]
  exact ⟨haddress.or _, fun c _ => plain_data _ c, hback⟩

theorem Call.plain (call : Call) : ∀ val ∈ call.vals, Plain val := by
  cases call with
  | cursorYx row column => simpa [Call.vals] using plain_cursorYx row column
  | puts str row => exact plain_putsCalls str row
  | wrCgram charVal charBuf => exact plain_wrCgramCalls charVal charBuf
  | writeAll dta => exact plain_writeRows 4 dta
  | sendval val h => simpa [Call.vals] using h

theorem settled_started (cgram : BitVec 6 → Byte) : (Lcd.started cgram).Settled :=
  ⟨rfl, rfl, rfl, rfl, rfl, rfl⟩

end Settled

section Session

variable {b : Board} {noise : Fin 2 → ℕ → Noise} {d : Fin 2 → Lcd}

/-- The enables are low and the controllers settled. -/
structure Board.Running (b : Board) (noise : Fin 2 → ℕ → Noise) (d : Fin 2 → Lcd) : Prop where
  low : b.panel.Low
  settled : ∀ i, (b.device (noise i) (d i) i).Settled

theorem Board.Running.sendvals (late : Bool) (h : b.Running noise d) {vals : List (BitVec 16)}
    (hvals : ∀ val ∈ vals, Plain val) :
    (b.replay late (vals.flatMap lcdSendval)).Running noise d ∧
      ∀ i, (b.replay late (vals.flatMap lcdSendval)).device (noise i) (d i) i =
        vals.foldl (Lcd.receive i) (b.device (noise i) (d i) i) := by
  have hsends := sends_sendvals late h.low vals
  have hdevice : ∀ i, (b.replay late (vals.flatMap lcdSendval)).device (noise i) (d i) i =
      vals.foldl (Lcd.receive i) (b.device (noise i) (d i) i) := by
    intro i
    rw [Board.device, hsends.nibbles, Lcd.run_append]
    exact (run_streamFor i _ (h.settled i) hvals).1
  refine ⟨⟨hsends.low, fun i => ?_⟩, hdevice⟩
  rw [hdevice]
  exact (run_streamFor i (noise i) (h.settled i) hvals).2

theorem plain_calls (calls : List Call) : ∀ val ∈ calls.flatMap Call.vals, Plain val := by
  simp only [List.mem_flatMap]
  rintro val ⟨call, -, hval⟩
  exact call.plain val hval

theorem running_init (late : Bool) (b : Board) (noise : Fin 2 → ℕ → Noise) (d : Fin 2 → Lcd) :
    (b.replay late lcdInit).Running noise d := by
  obtain ⟨hlow, hstarted⟩ := lcdInit_started late b noise d
  refine ⟨hlow, fun i => ?_⟩
  obtain ⟨cgram, hi⟩ := hstarted i
  rw [hi]
  exact settled_started cgram

theorem running_session (late : Bool) (b : Board) (noise : Fin 2 → ℕ → Noise) (d : Fin 2 → Lcd)
    (calls : List Call) : (b.replay late (session calls)).Running noise d := by
  rw [session, replay_append]
  exact ((running_init late b noise d).sendvals late (plain_calls calls)).1

theorem session_append (calls calls' : List Call) :
    session (calls ++ calls') = session calls ++ (calls'.flatMap Call.vals).flatMap lcdSendval := by
  simp [session]

theorem device_session_append (late : Bool) (b : Board) (noise : Fin 2 → ℕ → Noise)
    (d : Fin 2 → Lcd) (calls calls' : List Call) (i : Fin 2) :
    (b.replay late (session (calls ++ calls'))).device (noise i) (d i) i =
      (calls'.flatMap Call.vals).foldl (Lcd.receive i)
        ((b.replay late (session calls)).device (noise i) (d i) i) := by
  rw [session_append, replay_append]
  exact ((running_session late b noise d calls).sendvals late (plain_calls calls')).2 i

/-- Whatever the port, the shift register and the controllers hold before, after `LCD_init` and any
calls both controllers have taken exactly the bytes of these calls, starting with an empty display,
and they still take nibbles in pairs, write to the right and are on. -/
theorem session_device (late : Bool) (b : Board) (noise : Fin 2 → ℕ → Noise) (d : Fin 2 → Lcd)
    (calls : List Call) (i : Fin 2) :
    ((b.replay late (session calls)).device (noise i) (d i) i).Settled ∧
      ∃ cgram, (b.replay late (session calls)).device (noise i) (d i) i =
        (calls.flatMap Call.vals).foldl (Lcd.receive i) (Lcd.started cgram) := by
  refine ⟨(running_session late b noise d calls).settled i, ?_⟩
  obtain ⟨cgram, hstarted⟩ := (lcdInit_started late b noise d).2 i
  have hcalls := ((running_init late b noise d).sendvals late (plain_calls calls)).2 i
  rw [← replay_append, hstarted] at hcalls
  exact ⟨cgram, hcalls⟩

end Session

section Text

open Memory

variable {d : Lcd} {row column : Byte} {str : List Byte}

/-- Where `LCD_cursor_yx` puts the cursor. -/
def place (row column : Byte) : BitVec 7 :=
  (if row = 1 ∨ row = 3 then 0 else 0x40) + (column - 1).setWidth 7

theorem foldl_data {a : BitVec 7} (h : d.Settled) (ha : d.address = .ddram a)
    (hroom : a.toNat % 64 + str.length ≤ 40) :
    (str.foldl Lcd.data d).ddram = overlay d.ddram a str ∧
      (str.foldl Lcd.data d).cgram = d.cgram := by
  induction str generalizing d a with
  | nil => exact ⟨rfl, rfl⟩
  | cons c str ih =>
    rw [List.length_cons] at hroom
    have hdata : d.data c = { d with
        ddram := Function.update d.ddram a c
        address := .ddram (nextPlace true a) } := by
      simp only [Lcd.data, ha, h.shifting, h.twoLines, h.increment, Address.move, if_true,
        Bool.false_eq_true, if_false]
    rw [List.foldl_cons]
    have hsettled := h.data c
    cases str with
    | nil =>
      rw [hdata]
      refine ⟨?_, rfl⟩
      rw [List.foldl_nil, ← overlay_update _ _ _ (Nat.two_pow_pos 7)]
      rfl
    | cons c' str =>
      rw [List.length_cons] at hroom
      have hinner : a.toNat % 64 < 39 := by omega
      have hnext : nextPlace true a = a + 1 := by
        have hlast : a ≠ 0x27 := by
          rintro rfl
          exact absurd hinner (by decide)
        have hlast' : a ≠ 0x67 := by
          rintro rfl
          exact absurd hinner (by decide)
        simp only [nextPlace, if_true, hlast, hlast', if_false]
      have hsucc : (a + 1).toNat % 64 = a.toNat % 64 + 1 := by
        have hone : (1 : BitVec 7).toNat = 1 := rfl
        rw [BitVec.toNat_add, hone]
        omega
      have haddr : (d.data c).address = .ddram (a + 1) := by
        rw [hdata, ← hnext]
      obtain ⟨hddram, hcgram⟩ := ih hsettled haddr (by rw [hsucc, List.length_cons]; omega)
      refine ⟨?_, ?_⟩
      · rw [hddram, hdata, overlay_update]
        rw [List.length_cons]
        omega
      · rw [hcgram, hdata]

theorem foldl_receive_puts (d : Lcd) (hstr : 0 ∉ str) (rest : List Byte) (i : Fin 2) :
    (putsCalls (str ++ 0 :: rest) row).foldl (Lcd.receive i) d =
      if i = selected row then str.foldl Lcd.data d else d := by
  induction str generalizing d with
  | nil =>
    rw [List.nil_append, putsCalls, if_pos rfl, List.foldl_nil, List.foldl_nil, ite_self]
  | cons c str ih =>
    rw [List.mem_cons, not_or] at hstr
    obtain ⟨hen, hrs, hbyte⟩ := senddata_value row c
    have hreceive : d.receive i ((if row < 3 then lcdEn1 else lcdEn2) ||| c.setWidth 16 ||| lcdRs) =
        if i = selected row then d.data c else d := by
      simp only [Lcd.receive, hen, hrs, hbyte, Lcd.exec, if_true, decide_eq_true_eq]
    rw [List.cons_append, putsCalls, if_neg (Ne.symm hstr.1), List.foldl_cons, hreceive,
      ih _ hstr.2]
    split_ifs <;> rfl

/-- A position of the display: its row, and a column from 1 to 40. -/
def Inside (row column : Byte) : Prop := row ∈ [1, 2, 3, 4] ∧ 1 ≤ column ∧ column ≤ 40

theorem cursorYx_value : ∀ row ∈ [(1 : Byte), 2, 3, 4], ∀ column : Byte, 1 ≤ column → column ≤ 40 →
    (∀ i, enabled (Diasel.cursorYx row column) i = decide (i = selected row)) ∧
      (Diasel.cursorYx row column).getLsbD 8 = false ∧
      ((Diasel.cursorYx row column).setWidth 8).getLsbD 7 = true ∧
      ((Diasel.cursorYx row column).setWidth 8).setWidth 7 = place row column ∧
      (place row column).toNat % 64 = column.toNat - 1 := by
  decide +kernel

theorem receive_cursorYx (d : Lcd) (h : Inside row column) (i : Fin 2) :
    d.receive i (Diasel.cursorYx row column) =
      if i = selected row then { d with address := .ddram (place row column) } else d := by
  obtain ⟨hrow, hone, hforty⟩ := h
  obtain ⟨hen, hrs, hhigh, hplace, -⟩ := cursorYx_value row hrow column hone hforty
  simp only [Lcd.receive, hen, hrs, Lcd.exec, Lcd.instruction, hhigh, hplace, if_true,
    Bool.false_eq_true, if_false, decide_eq_true_eq]

theorem receive_text (d : Lcd) (h : Inside row column) (hstr : 0 ∉ str) (rest : List Byte)
    (i : Fin 2) :
    ([Call.cursorYx row column, .puts (str ++ 0 :: rest) row].flatMap Call.vals).foldl
        (Lcd.receive i) d =
      if i = selected row then str.foldl Lcd.data { d with address := .ddram (place row column) }
      else d := by
  have hvals : [Call.cursorYx row column, .puts (str ++ 0 :: rest) row].flatMap Call.vals =
      Diasel.cursorYx row column :: putsCalls (str ++ 0 :: rest) row := by
    simp [Call.vals]
  rw [hvals, List.foldl_cons, foldl_receive_puts _ hstr, receive_cursorYx _ h]
  split_ifs <;> rfl

/-- After any session, a text that fits into its row appears where the cursor is set, on the
controller of the row, and nothing else changes in the memories of the display. -/
theorem text_shown (late : Bool) (b : Board) (noise : Fin 2 → ℕ → Noise) (d : Fin 2 → Lcd)
    (calls : List Call) (h : Inside row column) (hstr : 0 ∉ str)
    (hfit : column.toNat - 1 + str.length ≤ 40) (rest : List Byte) (i : Fin 2) :
    let before := (b.replay late (session calls)).device (noise i) (d i) i
    let after := (b.replay late (session (calls ++
      [.cursorYx row column, .puts (str ++ 0 :: rest) row]))).device (noise i) (d i) i
    after.cgram = before.cgram ∧ after.ddram =
      if i = selected row then overlay before.ddram (place row column) str else before.ddram := by
  have hsettled := (running_session late b noise d calls).settled i
  rw [device_session_append, receive_text _ h hstr]
  generalize (b.replay late (session calls)).device (noise i) (d i) i = before at hsettled
  dsimp only
  split_ifs
  · have hplace := (cursorYx_value row h.1 column h.2.1 h.2.2).2.2.2.2
    have hmoved : ({ before with address := .ddram (place row column) } : Lcd).Settled :=
      ⟨hsettled.interface, hsettled.twoLines, hsettled.increment, hsettled.shifting,
        hsettled.offset, hsettled.on⟩
    have hroom : (place row column).toNat % 64 + str.length ≤ 40 := by
      rw [hplace]
      exact hfit
    obtain ⟨hddram, hcgram⟩ := foldl_data hmoved rfl hroom
    exact ⟨hcgram, hddram⟩
  · exact ⟨rfl, rfl⟩

theorem text_shown_hi :
    ((sampleBoard.replay true (session ([] ++
      [.cursorYx 3 5, .puts ([0x48, 0x69] ++ 0 :: [0x21]) 3]))).device (fun _ => ⟨0, false⟩)
        (Lcd.started fun _ => 0) 1).ddram 5 = 0x69 := by
  have hinside : Inside 3 5 := ⟨by decide, by decide, by decide⟩
  have hstr : 0 ∉ ([0x48, 0x69] : List Byte) := by decide
  have h := text_shown true sampleBoard (fun _ _ => ⟨0, false⟩) (fun _ => Lcd.started fun _ => 0) []
    hinside hstr (by decide) [0x21] 1
  have hplace : place 3 5 = 4 := by decide
  rw [h.2, if_pos (by decide), hplace]
  rfl

end Text

section Glyphs

open Memory

variable {d : Lcd} {charVal : Byte}

/-- The lines of a character in the generator memory. -/
def Lcd.glyph (d : Lcd) (char line : BitVec 3) : Byte := d.cgram (char ++ line)

theorem foldl_data_cgram {a : BitVec 6} {bs : List Byte} (h : d.Settled)
    (ha : d.address = .cgram a) (hlen : bs.length ≤ 64) :
    ∃ a', bs.foldl Lcd.data d = { d with cgram := overlay d.cgram a bs, address := .cgram a' } := by
  induction bs generalizing d a with
  | nil =>
    refine ⟨a, ?_⟩
    rw [List.foldl_nil, ← ha]
    rfl
  | cons c bs ih =>
    rw [List.length_cons] at hlen
    have hdata : d.data c =
        { d with cgram := Function.update d.cgram a c, address := .cgram (a + 1) } := by
      simp only [Lcd.data, ha, h.increment, Address.move, if_true]
    have hsettled := h.data c
    obtain ⟨a', hrest⟩ := ih hsettled (by rw [hdata]) (by omega)
    refine ⟨a', ?_⟩
    rw [List.foldl_cons, hrest, hdata]
    simp only
    rw [overlay_update _ _ _ (by omega)]

theorem glyph_bits : ∀ charVal : Byte,
    let c := (lcdEn1 ||| lcdEn2 ||| 0x40#16 ||| (charVal <<< 3).setWidth 16 : BitVec 16)
    (∀ i, enabled c i = true) ∧ c.getLsbD 8 = false ∧
      (c.setWidth 8).getLsbD 7 = charVal.getLsbD 4 ∧ (c.setWidth 8).getLsbD 6 = true ∧
      (c.setWidth 8).setWidth 6 = charVal.setWidth 3 ++ (0 : BitVec 3) := by
  decide +kernel

theorem glyph_offset : ∀ char char' line : BitVec 3,
    let offset := ((char ++ line) - (char' ++ (0 : BitVec 3)) : BitVec 6).toNat
    if char = char' then offset = line.toNat else 8 ≤ offset := by
  decide +kernel

theorem receive_glyphData (d : Lcd) (c : Byte) (i : Fin 2) :
    d.receive i (lcdEn1 ||| lcdEn2 ||| c.setWidth 16 ||| lcdRs) = d.data c := by
  have hvalue : ∀ c : Byte, let v := lcdEn1 ||| lcdEn2 ||| c.setWidth 16 ||| lcdRs
      (∀ i, enabled v i = true) ∧ v.getLsbD 8 = true ∧ v.setWidth 8 = c := by
    decide +kernel
  obtain ⟨hen, hrs, hbyte⟩ := hvalue c
  simp only [Lcd.receive, hen, hrs, hbyte, Lcd.exec, if_true]

theorem receive_back (d : Lcd) (i : Fin 2) :
    d.receive i (lcdEn1 ||| lcdEn2 ||| 0x80) = { d with address := .ddram 0 } := by
  have hen : enabled (lcdEn1 ||| lcdEn2 ||| 0x80) i = true := by
    revert i
    decide
  rw [Lcd.receive, if_pos hen]
  rfl

/-- The controllers while `LCD_wr_cgram` sends a glyph. -/
theorem receive_wrCgram (d : Lcd) (charBuf : Fin 8 → Byte) (i : Fin 2) :
    (wrCgramCalls charVal charBuf).foldl (Lcd.receive i) d =
      { (List.ofFn charBuf).foldl Lcd.data (d.receive i
          (lcdEn1 ||| lcdEn2 ||| 0x40#16 ||| (charVal <<< 3).setWidth 16)) with
        address := .ddram 0 } := by
  have hdata : ∀ (cs : List Byte) (d : Lcd),
      (cs.map fun c => lcdEn1 ||| lcdEn2 ||| c.setWidth 16 ||| lcdRs).foldl (Lcd.receive i) d =
        cs.foldl Lcd.data d := by
    intro cs
    induction cs with
    | nil => exact fun _ => rfl
    | cons c cs ih =>
      intro d
      rw [List.map_cons, List.foldl_cons, List.foldl_cons, receive_glyphData]
      exact ih _
  rw [wrCgramCalls, List.cons_append, List.foldl_cons, List.foldl_append, hdata, List.foldl_cons,
    List.foldl_nil, receive_back]

theorem cgram_foldl_data {a : BitVec 7} {bs : List Byte} (ha : d.address = .ddram a) :
    (bs.foldl Lcd.data d).cgram = d.cgram := by
  induction bs generalizing d a with
  | nil => rfl
  | cons c bs ih =>
    have hdata : ∃ a', (d.data c).address = .ddram a' ∧ (d.data c).cgram = d.cgram := by
      simp only [Lcd.data, ha, Address.move]
      exact ⟨_, rfl, trivial⟩
    obtain ⟨a', haddr, hcgram⟩ := hdata
    rw [List.foldl_cons, ih haddr, hcgram]

/-- After any session, a call of `LCD_wr_cgram` replaces the lines of one character on both
controllers, changes nothing else and leaves the cursor at the start, if the fifth bit of its
argument is clear. Otherwise it does not change any character. -/
theorem glyph_written (late : Bool) (b : Board) (noise : Fin 2 → ℕ → Noise) (d : Fin 2 → Lcd)
    (calls : List Call) (charVal : Byte) (charBuf : Fin 8 → Byte) (i : Fin 2) :
    let before := (b.replay late (session calls)).device (noise i) (d i) i
    let after := (b.replay late (session (calls ++ [.wrCgram charVal charBuf]))).device
      (noise i) (d i) i
    if charVal.getLsbD 4 then after.cgram = before.cgram
    else after = { before with cgram := after.cgram, address := .ddram 0 } ∧
      ∀ char line : BitVec 3, after.glyph char line =
        if char = charVal.setWidth 3 then charBuf line.toFin else before.glyph char line := by
  have hsettled := (running_session late b noise d calls).settled i
  have hvals : [Call.wrCgram charVal charBuf].flatMap Call.vals =
      wrCgramCalls charVal charBuf := by
    simp [Call.vals]
  rw [device_session_append, hvals, receive_wrCgram]
  generalize (b.replay late (session calls)).device (noise i) (d i) i = before at hsettled
  obtain ⟨hen, hrs, hseven, hsix, haddress⟩ := glyph_bits charVal
  simp only [Lcd.receive, hen, hrs, hseven, hsix, haddress, Lcd.exec, Lcd.instruction, if_true,
    Bool.false_eq_true, if_false]
  split_ifs with hfour
  · exact cgram_foldl_data rfl
  · have hmoved : ({ before with
        address := .cgram (charVal.setWidth 3 ++ (0 : BitVec 3)) } : Lcd).Settled :=
      ⟨hsettled.interface, hsettled.twoLines, hsettled.increment, hsettled.shifting,
        hsettled.offset, hsettled.on⟩
    have hlen : (List.ofFn charBuf).length ≤ 64 := by simp
    obtain ⟨a', hdata⟩ := foldl_data_cgram hmoved rfl hlen
    rw [hdata]
    refine ⟨rfl, ?_⟩
    intro char line
    have hoffset := glyph_offset char (charVal.setWidth 3) line
    simp only [Lcd.glyph, overlay]
    split_ifs at hoffset ⊢ with hchar
    · rw [hoffset, List.getElem?_ofFn, dif_pos line.isLt]
      rfl
    · rw [List.getElem?_eq_none (by rw [List.length_ofFn]; exact hoffset), Option.getD_none]

end Glyphs

end CollectedSources.Diasel
