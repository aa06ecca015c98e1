import Mathlib.Logic.Function.Basic
import Mathlib.Logic.ExistsUnique
import Mathlib.Data.Nat.Notation

/-!
# Objects in places

Objects are numbered as they are made, and each of them lies in one place.
-/

namespace Custody

variable {P : Type*} {n x : ℕ} {p q : P} {lies lies' : ℕ → P → Prop}

/-- Each of the first `n` objects lies in one place, and no other object lies anywhere. -/
def Located (n : ℕ) (lies : ℕ → P → Prop) : Prop :=
  ∃ place : ℕ → P, ∀ o q, lies o q ↔ o < n ∧ place o = q

theorem Located.lt (h : Located n lies) (hx : lies x q) : x < n := by
  obtain ⟨place, h⟩ := h
  exact ((h x q).1 hx).1

theorem Located.unique (h : Located n lies) (hp : lies x p) (hq : lies x q) : p = q := by
  obtain ⟨place, h⟩ := h
  exact ((h x p).1 hp).2.symm.trans ((h x q).1 hq).2

theorem located_zero [Inhabited P] (h : ∀ o q, ¬ lies o q) : Located 0 lies :=
  ⟨fun _ => default, fun o q => iff_of_false (h o q) fun hlt => Nat.not_lt_zero o hlt.1⟩

/-- The object `x` goes to the place `p`. -/
theorem Located.move (h : Located n lies) (hx : x < n)
    (hmove : ∀ o q, lies' o q ↔ if o = x then q = p else lies o q) : Located n lies' := by
  obtain ⟨place, h⟩ := h
  refine ⟨Function.update place x p, fun o q => ?_⟩
  rw [hmove]
  by_cases ho : o = x
  · subst ho
    rw [if_pos rfl, Function.update_self, and_iff_right hx, eq_comm]
  · rw [if_neg ho, Function.update_of_ne ho, h]

/-- The next object is made at the place `p`. -/
theorem Located.create (h : Located n lies)
    (hmove : ∀ o q, lies' o q ↔ if o = n then q = p else lies o q) : Located (n + 1) lies' := by
  obtain ⟨place, h⟩ := h
  refine ⟨Function.update place n p, fun o q => ?_⟩
  rw [hmove]
  by_cases ho : o = n
  · subst ho
    rw [if_pos rfl, Function.update_self, and_iff_right (Nat.lt_succ_self o), eq_comm]
  · have hlt : o < n + 1 ↔ o < n := by omega
    rw [if_neg ho, Function.update_of_ne ho, h, hlt]

end Custody
