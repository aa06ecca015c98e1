import Mathlib.Algebra.BigOperators.Group.List.Basic
import Mathlib.Algebra.GroupWithZero.Nat
import Mathlib.Data.Finset.Card
import Mathlib.Order.Interval.Finset.Nat

/-!
# Counting what disjoint blocks cover
-/

namespace BlockCount

variable {α : Type*} {P : α → ℕ → Prop} [∀ a, DecidablePred (P a)]

theorem card_filter_exists (S : Finset ℕ) {l : List α}
    (h : l.Pairwise fun a b => ∀ q, ¬ (P a q ∧ P b q)) :
    (S.filter fun q => ∃ a ∈ l, P a q).card = (l.map fun a => (S.filter (P a)).card).sum := by
  induction l with
  | nil => simp
  | cons a l ih =>
    obtain ⟨ha, hl⟩ := List.pairwise_cons.mp h
    have hsplit : S.filter (fun q => ∃ b ∈ a :: l, P b q) =
        S.filter (P a) ∪ S.filter fun q => ∃ b ∈ l, P b q := by
      rw [← Finset.filter_or]
      simp
    have hdisj : Disjoint (S.filter (P a)) (S.filter fun q => ∃ b ∈ l, P b q) := by
      rw [Finset.disjoint_filter]
      rintro q - hq ⟨b, hb, hbq⟩
      exact ha b hb q ⟨hq, hbq⟩
    rw [hsplit, Finset.card_union_of_disjoint hdisj, ih hl, List.map_cons, List.sum_cons]

/-- The block of `n` numbers from `a` on, when it lies below `N`. -/
theorem card_filter_block {N a n : ℕ} (h : ∀ q, a ≤ q → q < a + n → q < N) :
    ((Finset.range N).filter fun q => a ≤ q ∧ q < a + n).card = n := by
  have hset : ((Finset.range N).filter fun q => a ≤ q ∧ q < a + n) = Finset.Ico a (a + n) := by
    ext q
    simp only [Finset.mem_filter, Finset.mem_range, Finset.mem_Ico]
    exact ⟨fun hq => hq.2, fun hq => ⟨h q hq.1 hq.2, hq⟩⟩
  rw [hset, Nat.card_Ico, Nat.add_sub_cancel_left]

end BlockCount
