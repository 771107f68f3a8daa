import CollectedSources.Diasel.Lcd
import CollectedSources.Machine.Fields
import Mathlib

/-! # The whole display at once

`LCD_write_all` walks over a text and sets the cursor at the start of each row.
Its calls of `LCD_sendval` are compared with those that write the lines of the
text one by one.
-/

namespace CollectedSources.Diasel

def newline : Byte := 0x0a

/-- The calls of `LCD_sendval` that `LCD_puts` makes. -/
def putsCalls : List Byte → Byte → List (BitVec 16)
  | [], _ => []
  | c :: str, row =>
    if c = 0 then []
    else ((if row < 3 then lcdEn1 else lcdEn2) ||| c.setWidth 16 ||| lcdRs) :: putsCalls str row

theorem lcdPuts_eq_flatMap (str : List Byte) (row : Byte) :
    lcdPuts str row = (putsCalls str row).flatMap lcdSendval := by
  induction str with
  | nil => rfl
  | cons c str ih =>
    unfold lcdPuts putsCalls
    split
    · rfl
    · rw [ih]
      rfl

/-- The value that `LCD_cursor_yx` sends. -/
def cursorYx (row column : Byte) : BitVec 16 :=
  let column := (column - 1).setWidth 16
  match row with
  | 1 => (0x80 + column) ||| lcdEn1
  | 2 => (0xc0 + column) ||| lcdEn1
  | 3 => (0x80 + column) ||| lcdEn2
  | 4 => (0xc0 + column) ||| lcdEn2
  | _ => (0x80 + column) ||| lcdEn1 ||| lcdEn2

/-- The command at the start of row `i` of `LCD_write_all`. -/
def setLine : ℕ → List (BitVec 16)
  | 0 => [lcdEn1 ||| 0x80]
  | 1 => [lcdEn1 ||| 0xc0]
  | 2 => [lcdEn2 ||| 0x80]
  | 3 => [lcdEn2 ||| 0xc0]
  | _ => []

/-- The value sent for a character in row `i` of `LCD_write_all`. -/
def rowData (i : ℕ) (c : Byte) : BitVec 16 :=
  (if i < 3 then lcdEn1 else lcdEn2) ||| c.setWidth 16 ||| lcdRs

/-- The columns that are left in row `i`: the calls, whether the text has ended, and the memory
behind `dta`. -/
def writeColumns (i : ℕ) : ℕ → List Byte → List (BitVec 16) × Bool × List Byte
  | 0, dta => ([], false, dta)
  | _ + 1, [] => ([], true, [])
  | j + 1, c :: dta =>
    if c = 0 then ([], true, dta)
    else if c = newline then ([], false, dta)
    else
      let (calls, ended, dta) := writeColumns i j dta
      (rowData i c :: calls, ended, dta)

/-- The rows that are left, the last one being row 3. -/
def writeRows : ℕ → List Byte → List (BitVec 16)
  | 0, _ => []
  | n + 1, dta =>
    let (calls, ended, dta) := writeColumns (3 - n) 40 dta
    setLine (3 - n) ++ calls ++ if ended then [] else writeRows n dta

/-- The calls of `LCD_sendval` that `LCD_write_all` makes on the memory behind its argument. -/
def writeAllCalls (dta : List Byte) : List (BitVec 16) := writeRows 4 dta

/-- The calls for one line, at the start of row `i`. -/
def lineCalls (i : ℕ) (line : List Byte) : List (BitVec 16) :=
  cursorYx (BitVec.ofNat 8 (i + 1)) 1 :: putsCalls (line ++ [0]) (BitVec.ofNat 8 (i + 1))

/-- The calls for some lines, the first of them at the start of row `i`. -/
def linesCalls : ℕ → List (List Byte) → List (BitVec 16)
  | _, [] => []
  | i, line :: lines => lineCalls i line ++ linesCalls (i + 1) lines

/-- A text of at most four lines that fit into a row. -/
structure Text where
  bytes : List Byte
  nonzero : 0 ∉ bytes
  rows : (bytes.splitOn newline).length ≤ 4
  width : ∀ line ∈ bytes.splitOn newline, line.length ≤ 40

def Text.lines (t : Text) : List (List Byte) := t.bytes.splitOn newline

/-- A line in memory: all that the display can show in a row. -/
structure Line (line : List Byte) : Prop where
  nonzero : 0 ∉ line
  newline : newline ∉ line
  width : line.length ≤ 40

/-- The lines of a text as they are in memory. -/
def stored : List (List Byte) → List Byte → List Byte
  | [], rest => rest
  | [line], rest => line ++ 0 :: rest
  | line :: lines, rest => line ++ newline :: stored lines rest

/-- The line of row 2 is empty, and only empty lines, up to the last row, follow a line that fills
row 0 or row 1. The first of the lines is for row `i`. -/
structure Unshifted (i : ℕ) (lines : List (List Byte)) : Prop where
  third : ∀ k line, i + k = 2 → lines[k]? = some line → line = []
  full : ∀ k line, i + k < 2 → lines[k]? = some line → line.length = 40 →
    i + lines.length = 4 ∧ ∀ line' ∈ lines.drop (k + 1), line' = []

section Rows

variable {i n : ℕ} {line : List Byte}

/-- The value that `LCD_puts` sends for a character of the line of row `i`. -/
def lineData (i : ℕ) (c : Byte) : BitVec 16 :=
  (if i < 2 then lcdEn1 else lcdEn2) ||| c.setWidth 16 ||| lcdRs

theorem writeColumns_append (h₀ : 0 ∉ line) (hn : newline ∉ line) (hw : line.length ≤ n)
    (dta : List Byte) :
    writeColumns i n (line ++ dta) =
      (line.map (rowData i) ++ (writeColumns i (n - line.length) dta).1,
        (writeColumns i (n - line.length) dta).2) := by
  induction line generalizing n with
  | nil => rfl
  | cons c line ih =>
    cases n with
    | zero => exact absurd hw (Nat.not_succ_le_zero _)
    | succ n =>
      rw [List.mem_cons, not_or] at h₀ hn
      rw [List.cons_append, writeColumns, if_neg (Ne.symm h₀.1), if_neg (Ne.symm hn.1),
        ih h₀.2 hn.2 (Nat.le_of_succ_le_succ hw), List.length_cons, Nat.add_sub_add_right]
      rfl

theorem putsCalls_line (hi : i < 4) (h₀ : 0 ∉ line) :
    putsCalls (line ++ [0]) (BitVec.ofNat 8 (i + 1)) = line.map (lineData i) := by
  have hrow : BitVec.ofNat 8 (i + 1) < 3 ↔ i < 2 := by
    interval_cases i <;> decide
  induction line with
  | nil => rfl
  | cons c line ih =>
    rw [List.mem_cons, not_or] at h₀
    rw [List.cons_append, putsCalls, if_neg (Ne.symm h₀.1), ih h₀.2, List.map_cons, lineData]
    simp only [hrow]

theorem lineCalls_eq (hi : i < 4) (h₀ : 0 ∉ line) :
    lineCalls i line = setLine i ++ line.map (lineData i) := by
  have hcursor : setLine i = [cursorYx (BitVec.ofNat 8 (i + 1)) 1] := by
    interval_cases i <;> decide
  rw [lineCalls, putsCalls_line hi h₀, hcursor]
  rfl

theorem map_rowData_eq_iff (line : List Byte) :
    line.map (rowData i) = line.map (lineData i) ↔ (i = 2 → line = []) := by
  have hdata : ∀ c, rowData i c = lineData i c ↔ i ≠ 2 := by
    intro c
    constructor
    · rintro h rfl
      have hbit := congrArg (BitVec.getLsbD · 9) h
      simp [rowData, lineData, lcdEn1, lcdEn2, lcdRs] at hbit
    · intro hi
      have hlt : i < 3 ↔ i < 2 := by omega
      simp only [rowData, lineData, hlt]
  cases line with
  | nil => simp
  | cons c line =>
    rw [List.map_inj_left]
    simp only [hdata]
    constructor
    · intro h hi
      exact absurd hi (h c List.mem_cons_self)
    · intro h c' _ hi
      cases h hi

theorem getLsbD_lineData (c : Byte) : (lineData i c).getLsbD 8 = true := by
  unfold lineData
  rw [BitVec.getLsbD_or]
  exact Bool.or_true _

theorem writeRows_head (hn : n ≤ 4) (dta : List Byte) {call : BitVec 16}
    (h : (writeRows n dta).head? = some call) : call.getLsbD 8 = false := by
  cases n with
  | zero => cases h
  | succ n =>
    have hset : ∀ n < 4, ∃ call, setLine (3 - n) = [call] ∧ call.getLsbD 8 = false := by
      intro n hn
      interval_cases n <;> exact ⟨_, rfl, by decide⟩
    obtain ⟨call', hcall, hbit⟩ := hset n hn
    simp only [writeRows, hcall, List.cons_append, List.head?_cons, Option.some.injEq] at h
    rw [← h, hbit]

theorem writeRows_short (hi : i + n = 3) (h : Line line) (hw : line.length < 40)
    (dta : List Byte) :
    writeRows (n + 1) (line ++ newline :: dta) =
        setLine i ++ (line.map (rowData i) ++ writeRows n dta) ∧
      writeRows (n + 1) (line ++ 0 :: dta) = setLine i ++ line.map (rowData i) := by
  obtain rfl : i = 3 - n := by omega
  obtain ⟨j, hj⟩ : ∃ j, 40 - line.length = j + 1 := ⟨39 - line.length, by omega⟩
  have hcolumns := writeColumns_append (i := 3 - n) h.nonzero h.newline h.width
  have hne : newline ≠ 0#8 := by decide
  constructor
  · simp [writeRows, hcolumns, hj, writeColumns, hne]
  · simp [writeRows, hcolumns, hj, writeColumns]

theorem writeRows_full (hi : i + n = 3) (h : Line line) (hw : line.length = 40)
    (dta : List Byte) :
    writeRows (n + 1) (line ++ dta) =
      setLine i ++ (line.map (rowData i) ++ writeRows n dta) := by
  obtain rfl : i = 3 - n := by omega
  have hcolumns := writeColumns_append (i := 3 - n) h.nonzero h.newline h.width
  simp [writeRows, hcolumns, hw, writeColumns]

theorem writeRows_end_eq_nil_iff (hn : n ≤ 4) (rest : List Byte) :
    writeRows n (0 :: rest) = [] ↔ n = 0 := by
  cases n with
  | zero => simp [writeRows]
  | succ n =>
    have hset : setLine (3 - n) ≠ [] := by
      have : n < 4 := hn
      interval_cases n <;> decide
    simp [writeRows, hset]

end Rows

section Lines

variable {i n : ℕ} {line : List Byte} {lines : List (List Byte)}

theorem linesCalls_cons (hi : i < 4) (h : Line line) (lines : List (List Byte)) :
    linesCalls i (line :: lines) =
      setLine i ++ (line.map (lineData i) ++ linesCalls (i + 1) lines) := by
  rw [linesCalls, lineCalls_eq hi h.nonzero, List.append_assoc]

theorem stored_cons (line : List Byte) (hlines : lines ≠ []) (rest : List Byte) :
    stored (line :: lines) rest = line ++ newline :: stored lines rest := by
  cases lines with
  | nil => exact absurd rfl hlines
  | cons _ _ => rfl

/-- Behind a newline that a full row has left over, only empty lines come out right. -/
theorem writeRows_shifted (hi : i + n = 4) (hne : lines ≠ []) (hlen : lines.length ≤ n)
    (hlines : ∀ line ∈ lines, Line line) (rest : List Byte) :
    writeRows n (newline :: stored lines rest) = linesCalls i lines ↔
      lines.length = n ∧ ∀ line ∈ lines, line = [] := by
  induction n generalizing i lines with
  | zero => exact absurd (List.length_eq_zero_iff.mp (Nat.le_zero.mp hlen)) hne
  | succ n ih =>
    obtain ⟨line, lines, rfl⟩ := List.exists_cons_of_ne_nil hne
    have hempty : Line [] := ⟨by simp, by simp, by simp⟩
    have hrow := (writeRows_short (i := i) (n := n) (by omega) hempty (by simp)
      (stored (line :: lines) rest)).1
    rw [List.nil_append] at hrow
    rw [hrow, linesCalls_cons (by omega) (hlines line List.mem_cons_self),
      List.append_cancel_left_eq, List.map_nil, List.nil_append]
    cases line with
    | nil =>
      cases lines with
      | nil =>
        rw [stored, List.nil_append, linesCalls, List.map_nil, List.append_nil,
          writeRows_end_eq_nil_iff (by omega)]
        simp only [List.length_singleton, List.mem_singleton, forall_eq, and_true]
        omega
      | cons line' lines =>
        rw [stored_cons _ (List.cons_ne_nil _ _), List.nil_append, List.map_nil, List.nil_append,
          ih (by omega) (List.cons_ne_nil _ _) (Nat.le_of_succ_le_succ hlen)
            (fun line h => hlines line (List.mem_cons_of_mem _ h))]
        simp
    | cons c line =>
      constructor
      · intro h
        have hhead := writeRows_head (by omega) _ (congrArg List.head? h)
        rw [getLsbD_lineData] at hhead
        cases hhead
      · intro h
        cases h.2 _ List.mem_cons_self

theorem unshifted_cons :
    Unshifted i (line :: lines) ↔
      ((i = 2 → line = []) ∧
        (i < 2 → line.length = 40 → i + 1 + lines.length = 4 ∧ ∀ line' ∈ lines, line' = [])) ∧
      Unshifted (i + 1) lines := by
  constructor
  · rintro ⟨hthird, hfull⟩
    refine ⟨⟨fun hi => hthird 0 line hi rfl, fun hi hw => ?_⟩,
      fun k l hk hl => hthird (k + 1) l (by omega) hl, fun k l hk hl h40 => ?_⟩
    · obtain ⟨hlen, hempty⟩ := hfull 0 line hi rfl hw
      rw [List.length_cons] at hlen
      exact ⟨by omega, hempty⟩
    · obtain ⟨hlen, hdrop⟩ := hfull (k + 1) l (by omega) hl h40
      rw [List.length_cons] at hlen
      exact ⟨by omega, hdrop⟩
  · rintro ⟨⟨hfirst, hfirst'⟩, hthird, hfull⟩
    constructor
    · intro k l hk hl
      cases k with
      | zero =>
        cases hl
        exact hfirst hk
      | succ k => exact hthird k l (by omega) hl
    · intro k l hk hl h40
      rw [List.length_cons]
      cases k with
      | zero =>
        cases hl
        obtain ⟨hlen, hempty⟩ := hfirst' hk h40
        exact ⟨by omega, hempty⟩
      | succ k =>
        obtain ⟨hlen, hdrop⟩ := hfull k l (by omega) hl h40
        exact ⟨by omega, hdrop⟩

theorem unshifted_of_empty (hempty : ∀ line ∈ lines, line = []) : Unshifted i lines := by
  have hcell : ∀ k l, lines[k]? = some l → l = [] :=
    fun k l hl => hempty l (List.mem_of_getElem? hl)
  refine ⟨fun k l _ hl => hcell k l hl, fun k l _ hl h40 => ?_⟩
  rw [hcell k l hl] at h40
  cases h40

theorem unshifted_cons_short (hw : line.length < 40) :
    Unshifted i (line :: lines) ↔ (i = 2 → line = []) ∧ Unshifted (i + 1) lines := by
  rw [unshifted_cons]
  constructor
  · rintro ⟨⟨hfirst, -⟩, hrest⟩
    exact ⟨hfirst, hrest⟩
  · rintro ⟨hfirst, hrest⟩
    exact ⟨⟨hfirst, fun _ h40 => absurd h40 hw.ne⟩, hrest⟩

theorem unshifted_cons_full (hi : i + n = 3) (hlen : lines.length ≤ n) (hw : line.length = 40) :
    Unshifted i (line :: lines) ↔
      (i = 2 → line = []) ∧ lines.length = n ∧ ∀ line' ∈ lines, line' = [] := by
  rw [unshifted_cons]
  constructor
  · rintro ⟨⟨hfirst, hfull⟩, -⟩
    refine ⟨hfirst, ?_⟩
    by_cases h2 : i < 2
    · obtain ⟨hlen, hempty⟩ := hfull h2 hw
      exact ⟨by omega, hempty⟩
    · have hi2 : i ≠ 2 := by
        intro hi
        rw [hfirst hi] at hw
        cases hw
      obtain rfl : lines = [] := List.length_eq_zero_iff.mp (by omega)
      exact ⟨by simp; omega, by simp⟩
  · rintro ⟨hfirst, hlen, hempty⟩
    exact ⟨⟨hfirst, fun _ _ => ⟨by omega, hempty⟩⟩, unshifted_of_empty hempty⟩

/-- The rows that are left come out right if and only if the condition holds for their lines. -/
theorem writeRows_eq_linesCalls_iff (hi : i + n = 4) (hne : lines ≠ []) (hlen : lines.length ≤ n)
    (hlines : ∀ line ∈ lines, Line line) (rest : List Byte) :
    writeRows n (stored lines rest) = linesCalls i lines ↔ Unshifted i lines := by
  induction n generalizing i lines with
  | zero => exact absurd (List.length_eq_zero_iff.mp (Nat.le_zero.mp hlen)) hne
  | succ n ih =>
    obtain ⟨line, lines, rfl⟩ := List.exists_cons_of_ne_nil hne
    have hrow : i + n = 3 := by omega
    have hline := hlines line List.mem_cons_self
    have htail : ∀ line ∈ lines, Line line := fun l h => hlines l (List.mem_cons_of_mem _ h)
    have hlen' : lines.length ≤ n := Nat.le_of_succ_le_succ hlen
    have hsplit : ∀ calls : List (BitVec 16),
        setLine i ++ (line.map (rowData i) ++ calls) = linesCalls i (line :: lines) ↔
          (i = 2 → line = []) ∧ calls = linesCalls (i + 1) lines := by
      intro calls
      rw [linesCalls_cons (by omega) hline, List.append_cancel_left_eq,
        List.append_eq_append_iff_of_size_eq_left (by simp), map_rowData_eq_iff]
    rcases Nat.lt_or_eq_of_le hline.width with hw | hw
    · rw [unshifted_cons_short hw]
      cases lines with
      | nil =>
        have hlast := (writeRows_short hrow hline hw rest).2
        have hnil : Unshifted (i + 1) [] := unshifted_of_empty (by simp)
        rw [← List.append_nil (line.map _)] at hlast
        rw [stored, hlast, hsplit]
        simp [linesCalls, hnil]
      | cons line' lines =>
        rw [stored_cons _ (List.cons_ne_nil _ _),
          (writeRows_short hrow hline hw _).1, hsplit,
          ih (by omega) (List.cons_ne_nil _ _) hlen' htail]
    · rw [unshifted_cons_full hrow hlen' hw]
      cases lines with
      | nil =>
        rw [stored, writeRows_full hrow hline hw, hsplit, linesCalls,
          writeRows_end_eq_nil_iff (by omega)]
        simp [eq_comm]
      | cons line' lines =>
        rw [stored_cons _ (List.cons_ne_nil _ _), writeRows_full hrow hline hw, hsplit,
          writeRows_shifted (by omega) (List.cons_ne_nil _ _) hlen' htail]

end Lines

section Texts

theorem of_mem_splitOn {c : Byte} {bytes line : List Byte} (h : line ∈ bytes.splitOn c) :
    c ∉ line ∧ line ⊆ bytes := by
  obtain ⟨hline, hsub⟩ := Machine.of_mem_splitOnP h
  exact ⟨fun hc => by simpa using hline c hc, hsub⟩

theorem stored_eq_intercalate {lines : List (List Byte)} (hne : lines ≠ []) (rest : List Byte) :
    stored lines rest = [newline].intercalate lines ++ 0 :: rest := by
  induction lines with
  | nil => exact absurd rfl hne
  | cons line lines ih =>
    cases lines with
    | nil => simp [stored]
    | cons line' lines =>
      rw [stored_cons _ (List.cons_ne_nil _ _), ih (List.cons_ne_nil _ _)]
      simp [List.intercalate]

theorem Text.line (t : Text) : ∀ line ∈ t.lines, Line line := by
  intro line hline
  obtain ⟨hnewline, hsub⟩ := of_mem_splitOn hline
  exact ⟨fun h₀ => t.nonzero (hsub h₀), hnewline, t.width line hline⟩

/-- `LCD_write_all` writes a text as `LCD_cursor_yx` and `LCD_puts` do line by line if and only
if the line of row 2 is empty and no line that fills a row shifts the lines behind it. -/
theorem writeAllCalls_eq_linesCalls_iff (t : Text) (rest : List Byte) :
    writeAllCalls (t.bytes ++ 0 :: rest) = linesCalls 0 t.lines ↔ Unshifted 0 t.lines := by
  have hstored := stored_eq_intercalate (List.splitOn_ne_nil newline t.bytes) rest
  rw [List.intercalate_splitOn] at hstored
  rw [← hstored]
  exact writeRows_eq_linesCalls_iff (by omega) (List.splitOn_ne_nil _ _) t.rows t.line rest

/-- Three lines with one character each. -/
def threeLines : Text where
  bytes := [0x61, newline, 0x62, newline, 0x63]
  nonzero := by decide
  rows := by decide
  width := by decide

theorem not_linesCalls_threeLines :
    writeAllCalls (threeLines.bytes ++ 0 :: []) ≠ linesCalls 0 threeLines.lines := by
  decide

end Texts

end CollectedSources.Diasel
