import Mathlib.NumberTheory.Multiplicity
import Mathlib.RingTheory.Int.Basic
import Mathlib.Data.Nat.Bitwise

/-!
# Linear congruential generators

The state is multiplied by `a` and `c` is added, and only the last `k` bits of it are kept.
-/

namespace Congruential
open Finset

/-- One step, with all bits kept. -/
def affine (a c x : ℤ) : ℤ := a * x + c

theorem iterate_affine_sub (a c x : ℤ) (n : ℕ) :
    (affine a c)^[n] x - x = (∑ i ∈ range n, a ^ i) * ((a - 1) * x + c) := by
  induction n with
  | zero => simp
  | succ n ih =>
    have hn : (affine a c)^[n] x = (∑ i ∈ range n, a ^ i) * ((a - 1) * x + c) + x := by omega
    rw [Function.iterate_succ_apply', hn, geom_sum_succ, affine]
    ring

/-- Lifting the exponent: the sum of the first `n` powers of `a` is divisible by the same powers
of two as `n`. -/
theorem two_pow_dvd_geom_sum_iff {a : ℤ} (ha : 4 ∣ a - 1) (n k : ℕ) :
    2 ^ k ∣ ∑ i ∈ range n, a ^ i ↔ 2 ^ k ∣ n := by
  by_cases hone : a = 1
  · subst hone
    simp only [one_pow, sum_const, card_range, nsmul_eq_mul, mul_one]
    exact_mod_cast Iff.rfl
  have hodd : ¬ 2 ∣ a := by omega
  have hlift := Int.two_pow_sub_pow' n ha hodd
  rw [one_pow, ← geom_sum_mul, emultiplicity_mul Int.prime_two,
    add_comm (emultiplicity 2 (a - 1))] at hlift
  have hfinite : emultiplicity 2 (a - 1) ≠ ⊤ := finiteMultiplicity_iff_emultiplicity_ne_top.1
    (Int.finiteMultiplicity_iff.2 ⟨by decide, sub_ne_zero.2 hone⟩)
  have heq := ENat.add_left_injective_of_ne_top hfinite hlift
  rw [pow_dvd_iff_le_emultiplicity, heq, ← pow_dvd_iff_le_emultiplicity]
  exact_mod_cast Iff.rfl

/-- Modulo `2 ^ k`, the state comes back after `n` steps if and only if `2 ^ k` divides `n`. -/
theorem iterate_affine_modEq_iff {a c : ℤ} (ha : 4 ∣ a - 1) (hc : Odd c) (x : ℤ) (n k : ℕ) :
    (affine a c)^[n] x ≡ x [ZMOD 2 ^ k] ↔ 2 ^ k ∣ n := by
  have hodd : Odd ((a - 1) * x + c) :=
    ((even_iff_two_dvd.2 (dvd_trans (by decide) ha)).mul_right x).add_odd hc
  have hcoprime : IsCoprime ((2 : ℤ) ^ k) ((a - 1) * x + c) :=
    (Int.isCoprime_two_left.2 hodd).pow_left
  rw [Int.modEq_comm, Int.modEq_iff_dvd, iterate_affine_sub, ← two_pow_dvd_geom_sum_iff ha]
  exact ⟨hcoprime.dvd_of_dvd_mul_right, fun h => h.mul_right _⟩

/-- The states along a run are as far apart as their places in it. -/
theorem iterate_affine_modEq_iterate_iff {a c : ℤ} (ha : 4 ∣ a - 1) (hc : Odd c) (x : ℤ)
    (m n k : ℕ) :
    (affine a c)^[m] x ≡ (affine a c)^[n] x [ZMOD 2 ^ k] ↔ m ≡ n [MOD 2 ^ k] := by
  wlog hmn : n ≤ m generalizing m n
  · rw [Int.modEq_comm, Nat.ModEq.comm]
    exact this n m (Nat.le_of_not_le hmn)
  obtain ⟨d, rfl⟩ := Nat.exists_eq_add_of_le' hmn
  rw [Function.iterate_add_apply, iterate_affine_modEq_iff ha hc, ← Nat.modEq_zero_iff_dvd]
  exact ⟨fun h => by simpa using h.add_right n,
    fun h => Nat.ModEq.add_right_cancel' n (by simpa using h)⟩

/-! ## Sequences that keep distances modulo powers of two -/

/-- Modulo `2 ^ k`, for every `k` up to `w`, two members of the sequence agree if and only if
their places do. -/
def IsFull (w : ℕ) (s : ℕ → ℕ) : Prop :=
  ∀ k ≤ w, ∀ m n, s m ≡ s n [MOD 2 ^ k] ↔ m ≡ n [MOD 2 ^ k]

section Full

variable {w : ℕ} {s : ℕ → ℕ}

theorem modEq_two_pow_iff {x y k : ℕ} :
    x ≡ y [MOD 2 ^ k] ↔ ∀ i < k, x.testBit i = y.testBit i := by
  constructor
  · intro h i hi
    have hbit := congrArg (Nat.testBit · i) (h : x % 2 ^ k = y % 2 ^ k)
    simpa [hi] using hbit
  · intro h
    refine Nat.eq_of_testBit_eq fun i => ?_
    rw [Nat.testBit_mod_two_pow, Nat.testBit_mod_two_pow]
    by_cases hi : i < k
    · rw [h i hi]
    · simp [hi]

theorem modEq_two_pow_succ_iff {x y k : ℕ} :
    x ≡ y [MOD 2 ^ (k + 1)] ↔ x ≡ y [MOD 2 ^ k] ∧ x.testBit k = y.testBit k := by
  rw [modEq_two_pow_iff, modEq_two_pow_iff, Nat.forall_lt_succ_right]

/-- The period of bit `k` is `2 ^ (k + 1)`. -/
theorem IsFull.testBit_periodic_iff (h : IsFull w s) {k : ℕ} (hk : k < w) (p : ℕ) :
    (∀ n, (s (n + p)).testBit k = (s n).testBit k) ↔ 2 ^ (k + 1) ∣ p := by
  constructor
  · intro hper
    rcases Nat.eq_zero_or_pos p with rfl | hpos
    · exact dvd_zero _
    obtain ⟨j, q, hq, rfl⟩ := Nat.exists_eq_two_pow_mul_odd hpos.ne'
    rcases Nat.lt_or_ge k j with hj | hj
    · exact dvd_mul_of_dvd_left (pow_dvd_pow 2 hj) q
    -- A multiple of the period is one, and over `2 ^ k * q` steps only bit `k` may change.
    have hmultiple : ∀ i n, (s (n + i * (2 ^ j * q))).testBit k = (s n).testBit k := by
      intro i
      induction i with
      | zero => simp
      | succ i ih => exact fun n => by rw [Nat.succ_mul, ← Nat.add_assoc, hper, ih]
    have hdist : 2 ^ (k - j) * (2 ^ j * q) = 2 ^ k * q := by
      rw [← Nat.mul_assoc, ← pow_add, Nat.sub_add_cancel hj]
    have hbit := hmultiple (2 ^ (k - j)) 0
    rw [hdist, Nat.zero_add] at hbit
    have hlow : 2 ^ k * q ≡ 0 [MOD 2 ^ k] := Nat.modEq_zero_iff_dvd.2 (dvd_mul_right _ _)
    have hall := modEq_two_pow_succ_iff.2 ⟨(h k hk.le _ _).2 hlow, hbit⟩
    have hdvd := Nat.modEq_zero_iff_dvd.1 ((h (k + 1) hk _ _).1 hall)
    rw [pow_succ, Nat.mul_dvd_mul_iff_left (Nat.two_pow_pos k)] at hdvd
    exact absurd hdvd hq.not_two_dvd_nat
  · intro hdvd n
    have hplace : n + p ≡ n [MOD 2 ^ (k + 1)] := by
      simpa using (Nat.modEq_zero_iff_dvd.2 hdvd).add_left n
    exact (modEq_two_pow_succ_iff.1 ((h (k + 1) hk _ _).2 hplace)).2

/-- In `2 ^ w` consecutive members every residue modulo `2 ^ w` occurs once. -/
theorem IsFull.image_range (h : IsFull w s) (m : ℕ) :
    (range (2 ^ w)).image (fun n => s (m + n) % 2 ^ w) = range (2 ^ w) := by
  apply eq_of_subset_of_card_le
  · intro y hy
    obtain ⟨n, -, rfl⟩ := mem_image.1 hy
    exact mem_range.2 (Nat.mod_lt _ (Nat.two_pow_pos w))
  · rw [card_image_of_injOn]
    intro i hi j hj hij
    have hplace := Nat.ModEq.add_left_cancel' m ((h w le_rfl _ _).1 hij)
    exact hplace.eq_of_lt_of_lt (mem_range.1 hi) (mem_range.1 hj)

/-- So a set of residues is met as often as it has members. -/
theorem IsFull.card_filter (h : IsFull w s) (m : ℕ) (P : ℕ → Prop) [DecidablePred P] :
    #{n ∈ range (2 ^ w) | P (s (m + n) % 2 ^ w)} = #{y ∈ range (2 ^ w) | P y} := by
  conv_rhs => rw [← h.image_range m, filter_image]
  refine (card_image_of_injOn fun i hi j hj hij => ?_).symm
  have hplace := Nat.ModEq.add_left_cancel' m ((h w le_rfl _ _).1 hij)
  exact hplace.eq_of_lt_of_lt (mem_range.1 (mem_filter.1 hi).1) (mem_range.1 (mem_filter.1 hj).1)

/-- A generator with both conditions on `a` and `c` reaches all its states. -/
theorem isFull_of_step {a c : ℕ} (ha : a % 4 = 1) (hc : c % 2 = 1)
    (hstep : ∀ n, s (n + 1) = (s n * a + c) % 2 ^ w) : IsFull w s := by
  have hmod (n : ℕ) : (s n : ℤ) ≡ (affine a c)^[n] (s 0) [ZMOD 2 ^ w] := by
    induction n with
    | zero => rfl
    | succ n ih =>
      rw [hstep, Function.iterate_succ_apply', affine, mul_comm (a : ℤ)]
      push_cast
      exact (Int.mod_modEq _ _).trans ((ih.mul_right _).add_right _)
  have ha4 : (4 : ℤ) ∣ a - 1 := by omega
  have hodd : Odd (c : ℤ) := Int.odd_iff.2 (by omega)
  intro k hk m n
  have hm := (hmod m).of_dvd (pow_dvd_pow 2 hk)
  have hn := (hmod n).of_dvd (pow_dvd_pow 2 hk)
  rw [← iterate_affine_modEq_iterate_iff ha4 hodd (s 0) m n k, ← Int.natCast_modEq_iff]
  push_cast
  exact ⟨fun h => hm.symm.trans (h.trans hn), fun h => hm.trans (h.trans hn.symm)⟩

end Full

end Congruential
