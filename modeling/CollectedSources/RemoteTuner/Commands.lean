import CollectedSources.Machine.Fields
import CollectedSources.RemoteTuner.Connections
import Mathlib

/-! # The lines of a client

The server takes a read from a client for a channel line if its last byte ends
a line. It keeps nothing of other reads and does not look inside of one, so it
finds the lines of a client that come each in a read of its own.
-/

namespace CollectedSources.RemoteTuner

open Machine

section Reads

/-- The string in a buffer, up to the first zero. -/
def cString (data : List UInt8) : List UInt8 := data.takeWhile (· ≠ 0)

/-- The channel of a read. -/
def command (data : List UInt8) : Option (List UInt8) :=
  if data.getLast? = some newline then some (cString data.dropLast) else none

/-- The data that a step reads from the client. -/
def received (s : State) : Input → Option (List UInt8)
  | .read (some data) _ =>
    if s.pc = .client ∧ s.client.readable ∧ data ≠ [] then some data else none
  | _ => none

/-- The name that a step passes to `run_tzap`. -/
def called (s : State) : Input → Option (List UInt8)
  | .read (some data) _ =>
    if s.pc = .client ∧ s.client.readable ∧ data.getLast? = some newline then
      some (cString data.dropLast) else none
  | _ => none

/-- Something of each step of a run. -/
def collect (f : State → Input → Option (List UInt8)) : State → List Input → List (List UInt8)
  | _, [] => []
  | s, i :: inputs => (f s i).toList ++ ((step s i).map fun s' => collect f s' inputs).getD []

theorem called_eq (s : State) (i : Input) : called s i = (received s i).bind command := by
  unfold called received
  split
  · rename_i data fork
    by_cases hclient : s.pc = .client ∧ s.client.readable
    · cases data <;> simp [hclient, command]
    · simp only [← and_assoc, hclient, false_and, if_false, Option.bind_none]
  · rfl

/-- The names that a run passes to `run_tzap` are the commands of its reads. -/
theorem collect_called (s : State) (inputs : List Input) :
    collect called s inputs = (collect received s inputs).filterMap command := by
  induction inputs generalizing s with
  | nil => rfl
  | cons i inputs ih =>
    rw [collect, collect, List.filterMap_append, called_eq]
    congr 1
    · cases received s i <;> simp [List.filterMap_cons, Option.toList]
      rename_i data
      cases command data <;> rfl
    · cases step s i with
      | none => rfl
      | some s' => exact ih s'

theorem ne_nil_of_mem_collect {s : State} {inputs : List Input} :
    ∀ data ∈ collect received s inputs, data ≠ [] := by
  induction inputs generalizing s with
  | nil => simp [collect]
  | cons i inputs ih =>
    rw [collect, List.forall_mem_append]
    constructor
    · unfold received
      split
      · split_ifs with h
        · simpa using h.2.2
        · simp
      · simp
    · cases step s i with
      | none => simp
      | some s' => exact ih

end Reads

section Lines

variable {reads : List (List UInt8)} {line data : List UInt8}

/-- Each line comes in a read of its own, and has no zero. -/
def LinePerRead (reads : List (List UInt8)) : Prop :=
  ∃ ls rest : List (List UInt8), reads = ls.map (· ++ [newline]) ++ rest ∧
    (∀ line ∈ ls, newline ∉ line ∧ 0 ∉ line) ∧ ∀ data ∈ rest, newline ∉ data

theorem cString_eq_self (h : 0 ∉ line) : cString line = line := by
  apply List.takeWhile_eq_self_iff.mpr
  intro x hx
  simpa using fun heq : x = 0 => h (heq ▸ hx)

theorem command_line (line : List UInt8) : command (line ++ [newline]) = some (cString line) := by
  simp [command]

theorem command_of_not_mem (h : newline ∉ data) : command data = none := by
  apply if_neg
  intro hlast
  exact h (List.mem_of_getLast? hlast)

theorem length_commands_le (reads : List (List UInt8)) :
    (reads.filterMap command).length ≤ reads.flatten.count newline := by
  induction reads with
  | nil => simp
  | cons data reads ih =>
    rw [List.flatten_cons, List.count_append]
    cases hcommand : command data with
    | none =>
      rw [List.filterMap_cons_none hcommand]
      omega
    | some name =>
      have hmem : newline ∈ data := by
        by_contra hnot
        rw [command_of_not_mem hnot] at hcommand
        cases hcommand
      have hpos : 0 < data.count newline := List.count_pos_iff.mpr hmem
      rw [List.filterMap_cons_some hcommand, List.length_cons]
      omega

theorem commands_of_linePerRead (h : LinePerRead reads) :
    reads.filterMap command = lines newline reads.flatten := by
  obtain ⟨ls, rest, rfl, hls, hrest⟩ := h
  induction ls with
  | nil =>
    have hnone : rest.filterMap command = [] := by
      rw [List.filterMap_eq_nil_iff]
      exact fun data hdata => command_of_not_mem (hrest data hdata)
    have hlines : newline ∉ rest.flatten := by
      rw [List.mem_flatten]
      rintro ⟨data, hdata, hmem⟩
      exact hrest data hdata hmem
    rw [List.map_nil, List.nil_append, hnone, lines_of_not_mem hlines]
  | cons line ls ih =>
    rw [List.forall_mem_cons] at hls
    have hflat : ((line :: ls).map (· ++ [newline]) ++ rest).flatten =
        line ++ newline :: (ls.map (· ++ [newline]) ++ rest).flatten := by simp
    rw [hflat, lines_append_cons hls.1.1, List.map_cons, List.cons_append,
      List.filterMap_cons_some (command_line line), cString_eq_self hls.1.2, ih hls.2]

theorem linePerRead_of_not_mem (h : ∀ data ∈ reads, newline ∉ data) : LinePerRead reads :=
  ⟨[], reads, rfl, by simp, h⟩

theorem LinePerRead.cons (hline : newline ∉ line ∧ 0 ∉ line) (h : LinePerRead reads) :
    LinePerRead ((line ++ [newline]) :: reads) := by
  obtain ⟨ls, rest, rfl, hls, hrest⟩ := h
  exact ⟨line :: ls, rest, rfl, List.forall_mem_cons.mpr ⟨hline, hls⟩, hrest⟩

/-- A name is not longer than its line, and as long only without a zero. -/
theorem eq_nil_of_cString_eq {before : List UInt8} (h : cString line = before ++ line) :
    before = [] ∧ 0 ∉ line := by
  have hle : (cString line).length ≤ line.length := (List.takeWhile_prefix _).length_le
  have hlen : before = [] := by
    rw [h, List.length_append] at hle
    exact List.length_eq_zero_iff.mp (by omega)
  subst hlen
  refine ⟨rfl, fun hzero => ?_⟩
  simpa using List.takeWhile_eq_self_iff.mp h 0 hzero

theorem eq_nil_of_length_eq {rest : List UInt8}
    (h : (((line ++ newline :: rest) :: reads).filterMap command).length =
      1 + (rest ++ reads.flatten).count newline) : rest = [] := by
  have hle := length_commands_le reads
  rw [List.count_append] at h
  by_contra hne
  have hlast : (line ++ newline :: rest).getLast? = rest.getLast? := by
    rw [List.getLast?_append_of_ne_nil _ (by simp), List.getLast?_cons,
      List.getLast?_eq_some_getLast hne]
    rfl
  by_cases hend : rest.getLast? = some newline
  · have hpos : 0 < rest.count newline :=
      List.count_pos_iff.mpr (List.mem_of_getLast? hend)
    have hcommand : command (line ++ newline :: rest) = some _ := if_pos (hlast.trans hend)
    rw [List.filterMap_cons_some hcommand, List.length_cons] at h
    omega
  · have hcommand : command (line ++ newline :: rest) = none :=
      if_neg fun h => hend (hlast.symm.trans h)
    rw [List.filterMap_cons_none hcommand] at h
    omega

theorem linePerRead_of_commands (hne : ∀ data ∈ reads, data ≠ []) {before : List UInt8}
    (hbefore : newline ∉ before)
    (h : reads.filterMap command = lines newline (before ++ reads.flatten)) :
    (before = [] ∧ LinePerRead reads) ∨ ∀ data ∈ reads, newline ∉ data := by
  induction reads generalizing before with
  | nil => simp
  | cons data reads ih =>
    rw [List.forall_mem_cons] at hne
    by_cases hmem : newline ∈ data
    · left
      obtain ⟨line, rest, rfl, hline⟩ := List.eq_append_cons_of_mem hmem
      have hnot : newline ∉ before ++ line := by simp [hbefore, hline]
      have hlines : lines newline (before ++ ((line ++ newline :: rest) :: reads).flatten) =
          (before ++ line) :: lines newline (rest ++ reads.flatten) := by
        rw [← lines_append_cons hnot]
        simp
      rw [hlines] at h
      obtain rfl : rest = [] := by
        apply eq_nil_of_length_eq
        rw [h, List.length_cons, length_lines, Nat.add_comm]
      rw [List.filterMap_cons_some (command_line line), List.nil_append] at h
      obtain ⟨hname, hreads⟩ := List.cons.inj h
      obtain ⟨hnil, hzero⟩ := eq_nil_of_cString_eq hname
      refine ⟨hnil, LinePerRead.cons ⟨hline, hzero⟩ ?_⟩
      rcases @ih hne.2 [] (by simp) hreads with ⟨-, hper⟩ | hnone
      · exact hper
      · exact linePerRead_of_not_mem hnone
    · right
      rw [List.filterMap_cons_none (command_of_not_mem hmem), List.flatten_cons,
        ← List.append_assoc] at h
      rcases ih hne.2 (by simp [hbefore, hmem]) h with ⟨hnil, -⟩ | hnone
      · exact absurd (List.append_eq_nil_iff.mp hnil).2 hne.1
      · exact List.forall_mem_cons.mpr ⟨hmem, hnone⟩

/--
In a connection, from any state of the server on, `run_tzap` is called with the lines of the
stream exactly when each of them comes in a read of its own and has no zero.
-/
theorem channels_eq_lines_iff (s : State) (inputs : List {i : Input // i ≠ .connect}) :
    collect called s (inputs.map Subtype.val) =
        lines newline (collect received s (inputs.map Subtype.val)).flatten ↔
      LinePerRead (collect received s (inputs.map Subtype.val)) := by
  rw [collect_called]
  refine ⟨fun h => ?_, commands_of_linePerRead⟩
  rcases @linePerRead_of_commands _ ne_nil_of_mem_collect [] (by simp) h with ⟨-, hper⟩ | hnone
  · exact hper
  · exact linePerRead_of_not_mem hnone

/-- A client in a connection sends `AB` and an end of the line, in two reads or in one. -/
def twoReads : List {i : Input // i ≠ .connect} :=
  [⟨.poll (some (⟨false, true⟩, ⟨false, false⟩)), by decide⟩, ⟨.next, by decide⟩,
    ⟨.next, by decide⟩, ⟨.read (some [65]) none, by decide⟩, ⟨.next, by decide⟩,
    ⟨.poll (some (⟨false, true⟩, ⟨false, false⟩)), by decide⟩, ⟨.next, by decide⟩,
    ⟨.next, by decide⟩, ⟨.read (some [66, newline]) (some (100, true)), by decide⟩]

def oneRead : List {i : Input // i ≠ .connect} :=
  [⟨.poll (some (⟨false, true⟩, ⟨false, false⟩)), by decide⟩, ⟨.next, by decide⟩,
    ⟨.next, by decide⟩, ⟨.read (some [65, 66, newline]) (some (100, true)), by decide⟩]

/-- The same stream gives `B` or `AB`. -/
theorem channels_depend_on_reads :
    (collect received { start with conn := 1, pc := .poll } (twoReads.map Subtype.val)).flatten =
        (collect received { start with conn := 1, pc := .poll }
          (oneRead.map Subtype.val)).flatten ∧
      collect called { start with conn := 1, pc := .poll } (twoReads.map Subtype.val) = [[66]] ∧
      collect called { start with conn := 1, pc := .poll } (oneRead.map Subtype.val) =
        [[65, 66]] := by
  decide +kernel

end Lines

end CollectedSources.RemoteTuner
