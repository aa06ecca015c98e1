import Mathlib.Data.Set.Function
import Mathlib.Logic.Function.Basic
import Mathlib.Order.Interval.Set.Defs

namespace Mirror
open Function

variable {ι α : Type*} {cell : ℕ → ι} {i j : ℕ} {f f' f'' : ι → α}

/-- The cells from `i` to `j` are turned round, and nothing else changes. -/
structure Mirrored (cell : ℕ → ι) (i j : ℕ) (f f' : ι → α) : Prop where
  inside : ∀ k ∈ Set.Icc i j, f' (cell k) = f (cell (i + j - k))
  outside : ∀ x, (∀ k ∈ Set.Icc i j, x ≠ cell k) → f' x = f x

/-- The contents of two cells change places. -/
def swapCells [DecidableEq ι] (x y : ι) (f : ι → α) : ι → α :=
  update (update f x (f y)) y (f x)

/-- A single cell is turned round already, and so is none. -/
theorem mirrored_of_le (h : j ≤ i) : Mirrored cell i j f f := by
  refine ⟨fun k hk => ?_, fun _ _ => rfl⟩
  obtain ⟨hik, hkj⟩ := hk
  have hk' : i + j - k = k := by omega
  rw [hk']

/-- From the ends inwards: after the exchange of the two ends, what is between them remains. -/
theorem mirrored_of_swap [DecidableEq ι] (hinj : Set.InjOn cell (Set.Icc i j)) (hij : i < j)
    (h : Mirrored cell (i + 1) (j - 1) (swapCells (cell i) (cell j) f) f') :
    Mirrored cell i j f f' := by
  have hi : i ∈ Set.Icc i j := ⟨le_rfl, hij.le⟩
  have hj : j ∈ Set.Icc i j := ⟨hij.le, le_rfl⟩
  have hmid {k : ℕ} (hk : k ∈ Set.Icc (i + 1) (j - 1)) : k ∈ Set.Icc i j :=
    ⟨by have := hk.1; omega, by have := hk.2; omega⟩
  have hends {k : ℕ} (hk : k ∈ Set.Icc (i + 1) (j - 1)) : cell k ≠ cell i ∧ cell k ≠ cell j := by
    refine ⟨fun hc => ?_, fun hc => ?_⟩
    · have := hinj (hmid hk) hi hc
      have := hk.1
      omega
    · have := hinj (hmid hk) hj hc
      have := hk.2
      omega
  have hij' : cell i ≠ cell j := fun hc => hij.ne (hinj hi hj hc)
  constructor
  · intro k hk
    by_cases hki : k = i
    · subst hki
      rw [h.outside _ fun l hl => (hends hl).1.symm, swapCells, update_of_ne hij', update_self,
        Nat.add_sub_cancel_left]
    by_cases hkj : k = j
    · subst hkj
      rw [h.outside _ fun l hl => (hends hl).2.symm, swapCells, update_self, Nat.add_sub_cancel]
    obtain ⟨hik, hkj'⟩ := hk
    have hk' : k ∈ Set.Icc (i + 1) (j - 1) := ⟨by omega, by omega⟩
    have hmirror : i + 1 + (j - 1) - k = i + j - k := by omega
    have hother : i + j - k ∈ Set.Icc (i + 1) (j - 1) := ⟨by omega, by omega⟩
    rw [h.inside k hk', hmirror, swapCells, update_of_ne (hends hother).2,
      update_of_ne (hends hother).1]
  · intro x hx
    rw [h.outside x fun k hk => hx k (hmid hk), swapCells, update_of_ne (hx j hj),
      update_of_ne (hx i hi)]

theorem Mirrored.unique (h : Mirrored cell i j f f') (h' : Mirrored cell i j f f'') : f' = f'' := by
  funext x
  by_cases hx : ∃ k ∈ Set.Icc i j, x = cell k
  · obtain ⟨k, hk, rfl⟩ := hx
    rw [h.inside k hk, h'.inside k hk]
  · have hout : ∀ k ∈ Set.Icc i j, x ≠ cell k := fun k hk hc => hx ⟨k, hk, hc⟩
    rw [h.outside x hout, h'.outside x hout]

theorem Mirrored.symm (h : Mirrored cell i j f f') : Mirrored cell i j f' f := by
  refine ⟨fun k hk => ?_, fun x hx => (h.outside x hx).symm⟩
  obtain ⟨hik, hkj⟩ := hk
  have hback : i + j - (i + j - k) = k := by omega
  rw [h.inside _ ⟨by omega, by omega⟩, hback]

/-- Turned round twice, everything is as before. -/
theorem Mirrored.involutive (h : Mirrored cell i j f f') (h' : Mirrored cell i j f' f'') :
    f'' = f :=
  h'.unique h.symm

end Mirror
