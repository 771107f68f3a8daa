import Mathlib

/-! # Graphs with finitely many targets

In a graph whose edges have finitely many targets, a walk from a point always
ends if and only if no point that it can reach lies on a cycle.
-/

namespace CollectedSources.Machine

open Relation

variable {α : Type*} {r : α → α → Prop} {a : α}

theorem not_transGen_of_acc (h : Acc (fun y x => r x y) a) {b : α} (hb : ReflTransGen r a b) :
    ¬ TransGen r b b := by
  induction h generalizing b with
  | intro a _ ih =>
    rcases hb.cases_head with rfl | ⟨c, hac, hcb⟩
    · intro hcycle
      obtain ⟨c, hac, hca⟩ := TransGen.head'_iff.mp hcycle
      exact ih c hac hca hcycle
    · exact ih c hac hcb

theorem acc_iff_acyclic (hfin : {y | ∃ x, r x y}.Finite) :
    Acc (fun y x => r x y) a ↔ ∀ b, ReflTransGen r a b → ¬ TransGen r b b := by
  refine ⟨fun h b hb => not_transGen_of_acc h hb, fun h => ?_⟩
  have hreach : {y | ReflTransGen r a y}.Finite := by
    refine (hfin.insert a).subset fun y hy => ?_
    rcases hy.cases_tail with rfl | ⟨x, -, hxy⟩
    · exact Set.mem_insert _ _
    · exact Set.mem_insert_of_mem _ ⟨x, hxy⟩
  have : Finite {y // ReflTransGen r a y} := hreach
  let later (y x : {y // ReflTransGen r a y}) : Prop := TransGen r x.1 y.1
  have : IsTrans _ later := ⟨fun _ _ _ hxy hyz => hyz.trans hxy⟩
  have : Std.Irrefl later := ⟨fun x => h x.1 x.2⟩
  have hwf : WellFounded later := Finite.wellFounded_of_trans_of_irrefl later
  have hacc : ∀ x : {y // ReflTransGen r a y}, Acc (fun y x => r x y) x.1 := by
    intro x
    induction x using hwf.induction with
    | _ x ih => exact Acc.intro _ fun y hxy => ih ⟨y, x.2.tail hxy⟩ (TransGen.single hxy)
  exact hacc ⟨a, .refl⟩

end CollectedSources.Machine
