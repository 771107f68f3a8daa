import CollectedSources.Acpi.Tables
import CollectedSources.Machine.Graph
import CollectedSources.Machine.Loop
import Mathlib

/-! # The traversal of the module

`handle_table_phys` and `handle_rsdt` call each other along the entries of the
RSDTs in physical memory. They remember no table, so they end exactly when no
table is reached from itself.
-/

namespace CollectedSources.Acpi

open Machine Relation

section Code

/-- The memory, and the ranges that can be mapped. -/
structure Platform where
  memory : Memory
  ioremap : ℕ → ℕ → Bool

/-- What the traversal prints, and which entries it reads. -/
inductive Visit
  | header (table : ℕ)
  | dumping (entries : ℕ)
  | entry (table index : ℕ)
  | apic (address flags restSize : ℕ)
  | hpet (table : ℕ) (registers : Bool)
  deriving DecidableEq, Repr

def rsdtSignature : List UInt8 := [82, 83, 68, 84]
def apicSignature : List UInt8 := [65, 80, 73, 67]
def hpetSignature : List UInt8 := [72, 80, 69, 84]

variable (p : Platform)

def handleRsdt (handleTablePhys : ℕ → Option (List Visit)) (h : ℕ) : Option (List Visit) :=
  let count := entryCount 4 (tableLength p.memory h)
  (forEach (fun a => (handleTablePhys (tableEntry p.memory 4 h a)).map (.entry h a :: ·))
    (List.range count)).map (.dumping count :: ·)

/-- The sizes are those of `struct acpi_table_madt`, which has the address and the flags after the
header. -/
def handleApic (h : ℕ) : List Visit :=
  [.apic (number p.memory (h + 36) 4) (number p.memory (h + 40) 4)
    ((tableLength p.memory h + 2 ^ 64 - 44) % 2 ^ 64)]

/-- The address of the registers is in the generic address after the header and the id. -/
def handleHpet (h : ℕ) : List Visit := [.hpet h (p.ioremap (number p.memory (h + 44) 8) 1024)]

/-- At most `fuel` tables deep. -/
def handleTablePhys : ℕ → ℕ → Option (List Visit)
  | 0, _ => none
  | fuel + 1, phys =>
    if !p.ioremap phys headerSize then some []
    else if !p.ioremap phys (tableLength p.memory phys) then some []
    else if signature p.memory phys = rsdtSignature then
      (handleRsdt p (handleTablePhys fuel) phys).map (.header phys :: ·)
    else if signature p.memory phys = apicSignature then some (.header phys :: handleApic p phys)
    else if signature p.memory phys = hpetSignature then some (.header phys :: handleHpet p phys)
    else some [.header phys]

end Code

section Termination

/-- An RSDT that can be mapped. -/
def IsRsdt (p : Platform) (table : ℕ) : Prop :=
  p.ioremap table headerSize ∧ p.ioremap table (tableLength p.memory table) ∧
    signature p.memory table = rsdtSignature

/-- An RSDT has the address of a table among its entries. -/
def Refers (p : Platform) (table next : ℕ) : Prop :=
  IsRsdt p table ∧ ∃ a < entryCount 4 (tableLength p.memory table),
    next = tableEntry p.memory 4 table a

/-- An entry that is read is inside of its table. -/
def Visit.Inside (p : Platform) : Visit → Prop
  | .entry table index => EntryInside p.memory 4 table index
  | _ => True

variable {p : Platform} {table fuel : ℕ} {visits : List Visit}

theorem handleTablePhys_of_not_isRsdt (h : ¬ IsRsdt p table) :
    ∃ visits, (∀ fuel, handleTablePhys p (fuel + 1) table = some visits) ∧
      ∀ v ∈ visits, v.Inside p := by
  simp only [handleTablePhys]
  by_cases hmap : p.ioremap table headerSize
  swap
  · exact ⟨[], fun _ => by simp [hmap], by simp⟩
  by_cases hmap' : p.ioremap table (tableLength p.memory table)
  swap
  · exact ⟨[], fun _ => by simp [hmap'], by simp⟩
  have hsig : signature p.memory table ≠ rsdtSignature := fun hsig => h ⟨hmap, hmap', hsig⟩
  simp only [hmap, hmap', hsig, Bool.not_true, Bool.false_eq_true, if_false]
  split_ifs
  · exact ⟨_, fun _ => rfl, by simp [handleApic, Visit.Inside]⟩
  · exact ⟨_, fun _ => rfl, by simp [handleHpet, Visit.Inside]⟩
  · exact ⟨_, fun _ => rfl, by simp [Visit.Inside]⟩

theorem handleTablePhys_of_isRsdt (h : IsRsdt p table) (fuel : ℕ) :
    handleTablePhys p (fuel + 1) table =
      (handleRsdt p (handleTablePhys p fuel) table).map (.header table :: ·) := by
  simp [handleTablePhys, h.1, h.2.1, h.2.2]

theorem handleTablePhys_eq_some (h : IsRsdt p table) :
    handleTablePhys p (fuel + 1) table = some visits ↔ ∃ rest,
      forEach (fun a => (handleTablePhys p fuel (tableEntry p.memory 4 table a)).map
        (.entry table a :: ·)) (List.range (entryCount 4 (tableLength p.memory table))) =
          some rest ∧
        visits = .header table :: .dumping (entryCount 4 (tableLength p.memory table)) :: rest := by
  rw [handleTablePhys_of_isRsdt h, handleRsdt, Option.map_map, Option.map_eq_some_iff]
  simp [eq_comm]

theorem handleTablePhys_mono {fuel' : ℕ} (hle : fuel ≤ fuel')
    (h : handleTablePhys p fuel table = some visits) :
    handleTablePhys p fuel' table = some visits := by
  induction fuel generalizing fuel' table visits with
  | zero => cases h
  | succ fuel ih =>
    obtain ⟨fuel', rfl⟩ := Nat.exists_eq_succ_of_ne_zero (Nat.ne_zero_of_lt hle)
    by_cases hrsdt : IsRsdt p table
    · rw [Nat.succ_eq_add_one]
      rw [handleTablePhys_eq_some hrsdt] at h ⊢
      obtain ⟨rest, hrest, rfl⟩ := h
      refine ⟨rest, forEach_mono (fun a _ es hes => ?_) hrest, rfl⟩
      obtain ⟨es', hes', rfl⟩ := Option.map_eq_some_iff.mp hes
      exact Option.map_eq_some_iff.mpr ⟨es', ih (Nat.le_of_succ_le_succ hle) hes', rfl⟩
    · obtain ⟨visits', hvisits, -⟩ := handleTablePhys_of_not_isRsdt hrsdt
      rw [hvisits] at h
      exact (hvisits fuel').trans h

/-- The traversal ends exactly when every walk along the entries does. -/
theorem handleTablePhys_ends_iff :
    (∃ fuel visits, handleTablePhys p fuel table = some visits) ↔
      Acc (fun next table => Refers p table next) table := by
  constructor
  · rintro ⟨fuel, visits, h⟩
    induction fuel generalizing table visits with
    | zero => cases h
    | succ fuel ih =>
      refine Acc.intro table fun next hnext => ?_
      obtain ⟨hrsdt, a, ha, rfl⟩ := hnext
      obtain ⟨rest, hrest, -⟩ := (handleTablePhys_eq_some hrsdt).mp h
      obtain ⟨es, hes⟩ := forEach_isSome_iff.mp ⟨rest, hrest⟩ a (List.mem_range.mpr ha)
      obtain ⟨visits', hvisits, -⟩ := Option.map_eq_some_iff.mp hes
      exact ih visits' hvisits
  · intro h
    induction h with
    | intro table _ ih =>
      by_cases hrsdt : IsRsdt p table
      · obtain ⟨fuel, hfuel⟩ : ∃ fuel, ∀ a ∈ List.range (entryCount 4 (tableLength p.memory table)),
            ∃ visits, handleTablePhys p fuel (tableEntry p.memory 4 table a) = some visits := by
          refine exists_fuel (fun fuel fuel' a hle => ?_) fun a ha => ?_
          · rintro ⟨visits, hvisits⟩
            exact ⟨visits, handleTablePhys_mono hle hvisits⟩
          · exact ih _ ⟨hrsdt, a, List.mem_range.mp ha, rfl⟩
        obtain ⟨rest, hrest⟩ : ∃ rest, forEach (fun a =>
            (handleTablePhys p fuel (tableEntry p.memory 4 table a)).map (.entry table a :: ·))
            (List.range (entryCount 4 (tableLength p.memory table))) = some rest := by
          rw [forEach_isSome_iff]
          intro a ha
          obtain ⟨visits, hvisits⟩ := hfuel a ha
          exact ⟨_, Option.map_eq_some_iff.mpr ⟨visits, hvisits, rfl⟩⟩
        exact ⟨fuel + 1, _, (handleTablePhys_eq_some hrsdt).mpr ⟨rest, hrest, rfl⟩⟩
      · obtain ⟨visits, hvisits, -⟩ := handleTablePhys_of_not_isRsdt hrsdt
        exact ⟨1, visits, hvisits 0⟩

/-- A traversal that ends reads inside of the tables exactly when all RSDTs that it reaches have
their header. -/
theorem handleTablePhys_inside_iff (h : handleTablePhys p fuel table = some visits) :
    (∀ v ∈ visits, v.Inside p) ↔
      ∀ t, ReflTransGen (Refers p) table t → IsRsdt p t → headerSize ≤ tableLength p.memory t := by
  induction fuel generalizing table visits with
  | zero => cases h
  | succ fuel ih =>
    by_cases hrsdt : IsRsdt p table
    · obtain ⟨rest, hrest, rfl⟩ := (handleTablePhys_eq_some hrsdt).mp h
      have hchild : ∀ a < entryCount 4 (tableLength p.memory table), ∃ es,
          handleTablePhys p fuel (tableEntry p.memory 4 table a) = some es := by
        intro a ha
        obtain ⟨es, hes⟩ := forEach_isSome_iff.mp ⟨rest, hrest⟩ a (List.mem_range.mpr ha)
        obtain ⟨visits', hvisits, -⟩ := Option.map_eq_some_iff.mp hes
        exact ⟨visits', hvisits⟩
      have hsplit : (∀ v ∈ Visit.header table ::
          .dumping (entryCount 4 (tableLength p.memory table)) :: rest, v.Inside p) ↔
          (∀ a < entryCount 4 (tableLength p.memory table),
            EntryInside p.memory 4 table a ∧ ∀ es,
              handleTablePhys p fuel (tableEntry p.memory 4 table a) = some es →
                ∀ v ∈ es, v.Inside p) := by
        rw [List.forall_mem_cons, List.forall_mem_cons, forEach_forall_iff hrest]
        simp only [Visit.Inside, true_and, List.mem_range]
        refine forall₂_congr fun a ha => ?_
        obtain ⟨es, hes⟩ := hchild a ha
        simp [hes]
      rw [hsplit]
      constructor
      · intro hinside t ht hrsdt'
        rcases ht.cases_head with rfl | ⟨next, ⟨-, a, ha, rfl⟩, hnext⟩
        · exact (entries_inside_iff p.memory (Or.inl rfl)).mp fun a ha => (hinside a ha).1
        · obtain ⟨es, hes⟩ := hchild a ha
          exact (ih hes).mp ((hinside a ha).2 es hes) t hnext hrsdt'
      · intro hlength a ha
        refine ⟨(entries_inside_iff p.memory (Or.inl rfl)).mpr (hlength table .refl hrsdt) a ha,
          fun es hes => (ih hes).mpr fun t ht => ?_⟩
        exact hlength t (.head ⟨hrsdt, a, ha, rfl⟩ ht)
    · obtain ⟨visits', hvisits, hinside⟩ := handleTablePhys_of_not_isRsdt hrsdt
      obtain rfl : visits' = visits := Option.some.inj ((hvisits fuel).symm.trans h)
      refine iff_of_true hinside fun t ht hrsdt' => ?_
      rcases ht.cases_head with rfl | ⟨next, hnext, -⟩
      · exact absurd hrsdt' hrsdt
      · exact absurd hnext.1 hrsdt

theorem finite_referred (p : Platform) : {next | ∃ table, Refers p table next}.Finite := by
  refine (Set.finite_Iio (2 ^ 32)).subset ?_
  rintro next ⟨table, -, a, -, rfl⟩
  exact number_lt p.memory _ 4

/--
The traversal from a table ends and reads inside of the tables exactly when every table that is
reached from it is not reached from itself, and has its header if it is an RSDT.
-/
theorem traversal_iff (p : Platform) (table : ℕ) :
    (∃ fuel visits, handleTablePhys p fuel table = some visits ∧ ∀ v ∈ visits, v.Inside p) ↔
      ∀ t, ReflTransGen (Refers p) table t →
        ¬ TransGen (Refers p) t t ∧ (IsRsdt p t → headerSize ≤ tableLength p.memory t) := by
  have hends := handleTablePhys_ends_iff.trans (@acc_iff_acyclic _ _ table (finite_referred p))
  constructor
  · rintro ⟨fuel, visits, h, hinside⟩ t ht
    exact ⟨hends.mp ⟨fuel, visits, h⟩ t ht, (handleTablePhys_inside_iff h).mp hinside t ht⟩
  · intro h
    obtain ⟨fuel, visits, hvisits⟩ := hends.mpr fun t ht => (h t ht).1
    exact ⟨fuel, visits, hvisits, (handleTablePhys_inside_iff hvisits).mpr fun t ht => (h t ht).2⟩

/-- An RSDT at the address 4096 with the one entry 4096. -/
def selfReference : Platform where
  memory address :=
    (([82, 83, 68, 84, 40, 0, 0, 0] : List UInt8) ++ List.replicate 28 0 ++ [0, 16, 0, 0]).getD
      (address - 4096) 0
  ioremap _ _ := true

/-- The table is handled again and again. -/
theorem selfReference_endless :
    ¬ ∃ fuel visits, handleTablePhys selfReference fuel 4096 = some visits ∧
      ∀ v ∈ visits, v.Inside selfReference := by
  rintro ⟨fuel, visits, h, -⟩
  have hself : Refers selfReference 4096 4096 :=
    ⟨⟨rfl, rfl, by decide⟩, 0, by decide, by decide⟩
  exact not_transGen_of_acc (handleTablePhys_ends_iff.mp ⟨fuel, visits, h⟩) .refl (.single hself)

end Termination

end CollectedSources.Acpi
