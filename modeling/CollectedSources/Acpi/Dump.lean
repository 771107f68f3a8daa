import CollectedSources.Acpi.Tables
import CollectedSources.Machine.Loop
import Mathlib

/-! # The dump of the tables under EFI

`dump_ACPI` prints the tables of the RSDT and of the XSDT, and `dump_MADT` the
subtables of a MADT. The length of a subtable is subtracted from what is left
of the table, whether it is zero or too large. The walk is right for tables
that have their header, and for MADTs that are filled by their subtables.
-/

namespace CollectedSources.Acpi

open Machine

section Code

/-- The memory, and the configuration tables of the system table: whether the GUID is the one of
ACPI, and the address. -/
structure System where
  memory : Memory
  configurationTable : List (Bool × ℕ)

inductive Subtable
  | localApic (cpu id : ℕ) (enabled onlineCap : Bool)
  | ioApic (id address irqBase : ℕ)
  | interruptOverride (bus source global trig pol : ℕ)
  | localApicNmi (cpu trig pol lint : ℕ)
  | unknown
  deriving DecidableEq, Repr

/-- What is printed. An entry stands before the header of its table, and a subtable has the address
of its table and its own. -/
inductive Line
  | badRsdp
  | rsdp (address length revision rsdt xsdt : ℕ)
  | header (table length : ℕ)
  | entries (count : ℕ)
  | entry (size table index : ℕ)
  | madt (address : ℕ) (compat : Bool) (entlen : ℕ)
  | subtable (table ctrl type length : ℕ) (s : Subtable)
  | lapic (address : ℕ)
  | ioapic (address : ℕ)
  deriving DecidableEq, Repr

variable (memory : Memory)

def byte (address : ℕ) : ℕ := (memory address).toNat

/-- The variables of the loop of `dump_MADT`, and what it has printed. -/
structure Walk where
  ctrl : ℕ
  entlen : ℕ
  ioapicAddr : ℕ
  lines : List Line

/-- The size of `struct acpi_table_madt`. -/
abbrev madtSize : ℕ := 44

def header (table : ℕ) : Line := .header table (tableLength memory table)

def rsdpSignature : List UInt8 := [82, 83, 68, 32, 80, 84, 82, 32]

def madtSignature : List UInt8 := [65, 80, 73, 67]

/-- One of the configuration tables, after what has been printed and found. -/
def checkTable (found : List Line × ℕ) (table : Bool × ℕ) : List Line × ℕ :=
  if table.1 then
    if (List.range 8).map (fun i => memory (table.2 + i)) = rsdpSignature then (found.1, table.2)
    else (found.1 ++ [.badRsdp], 0)
  else found

/-- The loop over the configuration tables. -/
def findRsdp (tables : List (Bool × ℕ)) : List Line × ℕ := tables.foldl (checkTable memory) ([], 0)

end Code

section Madt

variable {memory : Memory} {madt ctrl rest fuel : ℕ} {s s' : Walk}

/-- The entries and the headers of the subtables that are read are inside of their tables. -/
def Line.Inside (memory : Memory) : Line → Prop
  | .entry size table index => EntryInside memory size table index
  | .subtable table ctrl _ _ _ => ctrl + 2 ≤ table + tableLength memory table
  | _ => True

/-- The rest of a table is filled by subtables. -/
inductive Tiled (memory : Memory) : ℕ → ℕ → Prop
  | done (ctrl : ℕ) : Tiled memory ctrl 0
  | next {ctrl rest : ℕ} (hheader : 2 ≤ rest) (hpos : 0 < byte memory (ctrl + 1))
      (hle : byte memory (ctrl + 1) ≤ rest)
      (h : Tiled memory (ctrl + byte memory (ctrl + 1)) (rest - byte memory (ctrl + 1))) :
      Tiled memory ctrl rest

/-- A MADT has its fields, and is filled by its subtables. -/
def MadtFilled (memory : Memory) (madt : ℕ) : Prop :=
  madtSize ≤ tableLength memory madt ∧
    Tiled memory (madt + madtSize) (tableLength memory madt - madtSize)

end Madt

section Walk

/-- The addresses of the RSDT and the XSDT that are walked. -/
def Walked (systab : System) (rsdt xsdt : ℕ) : Prop :=
  let rsdp := (findRsdp systab.memory systab.configurationTable).2
  rsdp ≠ 0 ∧ rsdt ≠ 0 ∧ xsdt ≠ 0 ∧ rsdt = number systab.memory (rsdp + 16) 4 ∧
    xsdt = number systab.memory (rsdp + 24) 8

/-- The RSDT and the XSDT have their headers, and the MADTs of the XSDT are filled. -/
def WellFormed (systab : System) : Prop :=
  ∀ rsdt xsdt, Walked systab rsdt xsdt →
    headerSize ≤ tableLength systab.memory rsdt ∧ headerSize ≤ tableLength systab.memory xsdt ∧
      ∀ a < entryCount 8 (tableLength systab.memory xsdt),
        signature systab.memory (tableEntry systab.memory 8 xsdt a) = madtSignature →
          MadtFilled systab.memory (tableEntry systab.memory 8 xsdt a)

variable {memory : Memory} {rsdt xsdt fuel a : ℕ} {lines : List Line}

end Walk

end CollectedSources.Acpi
