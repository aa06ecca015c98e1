import Mathlib.Data.Fintype.EquivFin
import Mathlib.Logic.Relation
import Mathlib.Order.WellFounded

/-!
# Finite relations without cycles
-/

namespace FiniteRel
open Relation

variable {α : Type*} {r r' : α → α → Prop}

/-- No element leads back to itself. -/
def Acyclic (r : α → α → Prop) : Prop := ∀ a, ¬ TransGen r a a

theorem Acyclic.wellFounded [Finite α] (h : Acyclic r) : WellFounded r := by
  have : IsTrans α (TransGen r) := ⟨fun _ _ _ => TransGen.trans⟩
  have : Std.Irrefl (TransGen r) := ⟨h⟩
  exact Subrelation.wf TransGen.single (Finite.wellFounded_of_trans_of_irrefl (TransGen r))

theorem Acyclic.swap (h : Acyclic r) : Acyclic (Function.swap r) :=
  fun a ha => h a (transGen_swap.mp ha)

/-- A relation that only goes up has no cycle. -/
theorem acyclic_of_lt [Preorder α] (h : ∀ a b, r a b → a < b) : Acyclic r := by
  intro a ha
  have hlt (b : α) (hb : TransGen r a b) : a < b := by
    induction hb with
    | single hab => exact h _ _ hab
    | tail _ hbc ih => exact ih.trans (h _ _ hbc)
  exact lt_irrefl a (hlt a ha)

end FiniteRel
