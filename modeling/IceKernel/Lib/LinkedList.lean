import Mathlib.Data.List.Basic
import Mathlib.Tactic.Common

namespace LinkedList

variable {α : Type*} {null : α} {next next' : α → α}

/-- The cells met by following `next` from a head pointer until `null`. -/
inductive Chain (null : α) (next : α → α) : α → List α → Prop
  | nil : Chain null next null []
  | cons {a : α} {l : List α} : a ≠ null → Chain null next (next a) l → Chain null next a (a :: l)

/-- A chain depends only on the links of its own cells. -/
theorem Chain.congr {a : α} {l : List α} (h : Chain null next a l)
    (he : ∀ x ∈ l, next' x = next x) : Chain null next' a l := by
  induction h with
  | nil => exact Chain.nil
  | @cons a l ha _ ih =>
    refine Chain.cons ha ?_
    rw [he a List.mem_cons_self]
    exact ih fun x hx => he x (List.mem_cons_of_mem _ hx)

theorem Chain.eq_nil {l : List α} (h : Chain null next null l) : l = [] := by
  cases h with
  | nil => rfl
  | cons ha _ => exact absurd rfl ha

/-- A head other than `null` is the first cell. -/
theorem Chain.exists_cons {a : α} {l : List α} (h : Chain null next a l) (ha : a ≠ null) :
    ∃ l', l = a :: l' ∧ Chain null next (next a) l' := by
  cases h with
  | nil => exact absurd rfl ha
  | cons _ h => exact ⟨_, rfl, h⟩

/-- Links laid from each cell to the one after it, the last to `null`. -/
theorem chain_of_links (cell : ℕ → α) (n : ℕ) (hne : ∀ j ≤ n, cell j ≠ null)
    (hlink : ∀ j < n, next (cell j) = cell (j + 1)) (hlast : next (cell n) = null) :
    Chain null next (cell 0) ((List.range (n + 1)).map cell) := by
  induction n generalizing cell with
  | zero =>
    refine Chain.cons (hne 0 (Nat.le_refl 0)) ?_
    rw [hlast]
    exact Chain.nil
  | succ n ih =>
    rw [List.range_succ_eq_map, List.map_cons, List.map_map]
    refine Chain.cons (hne 0 (Nat.zero_le _)) ?_
    rw [hlink 0 (Nat.succ_pos n)]
    exact ih (fun j => cell (j + 1)) (fun j hj => hne (j + 1) (by omega))
      (fun j hj => hlink (j + 1) (by omega)) hlast

end LinkedList
