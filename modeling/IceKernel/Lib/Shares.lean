import Mathlib.Algebra.BigOperators.Group.Finset.Basic
import Mathlib.Algebra.Order.BigOperators.Group.Finset

/-!
# A total kept in shares

Every agent holds a share of a total. A step of one agent changes the total
by what it changes the agent's own share.
-/

namespace Shares

variable {ι α : Type*} [Fintype ι] [DecidableEq ι]

/-- The total after one agent's data is replaced. -/
theorem sum_update_add (g : α → ℕ) (f : ι → α) (i : ι) (x : α) :
    ∑ j, g (Function.update f i x j) + g (f i) = ∑ j, g (f j) + g x := by
  have hrest : ∑ j ∈ Finset.univ.erase i, g (Function.update f i x j) =
      ∑ j ∈ Finset.univ.erase i, g (f j) :=
    Finset.sum_congr rfl fun j hj => by rw [Function.update_of_ne (Finset.ne_of_mem_erase hj)]
  rw [← Finset.add_sum_erase _ _ (Finset.mem_univ i),
    ← Finset.add_sum_erase _ (fun j => g (f j)) (Finset.mem_univ i), hrest, Function.update_self]
  omega

omit [DecidableEq ι] in
/-- A share is at most the total. -/
theorem share_le (f : ι → ℕ) (i : ι) : f i ≤ ∑ j, f j :=
  Finset.single_le_sum (fun _ _ => Nat.zero_le _) (Finset.mem_univ i)

/-- What one agent gives and another takes leaves the total as it is. -/
theorem sum_transfer (f : ι → ℕ) {i j : ι} (hne : i ≠ j) {k : ℕ} (hk : k ≤ f i) :
    ∑ l, Function.update (Function.update f i (f i - k)) j (f j + k) l = ∑ l, f l := by
  have hgive := sum_update_add id f i (f i - k)
  have htake := sum_update_add id (Function.update f i (f i - k)) j (f j + k)
  rw [Function.update_of_ne hne.symm] at htake
  simp only [id_eq] at hgive htake
  omega

end Shares
