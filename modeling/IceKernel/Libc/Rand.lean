import IceKernel.Lib.Congruential

/-!
# `rand` and `srand` of `libs/libc/stdlib.cpp`

The seed is an `unsigned long long`, and what `rand` returns is read from 15 of its bits.
-/

namespace IceKernel.Rand
open Congruential Finset

/-- `rand()` from the seed `cseed`: what it returns, and the seed after it. -/
def rand (cseed : BitVec 64) : BitVec 32 × BitVec 64 :=
  let cseed := cseed * 1103515245 + 12345
  ((cseed / 65536).setWidth 32 % 32768, cseed)

/-- `srand(seed)`. -/
def srand (seed : BitVec 32) : BitVec 64 := seed.setWidth 64

/-- The seed after `n` calls of `rand`. -/
def seedAfter (cseed : BitVec 64) (n : ℕ) : BitVec 64 := (fun s => (rand s).2)^[n] cseed

/-- What call `n` of `rand` returns, counted from 0. -/
def draw (cseed : BitVec 64) (n : ℕ) : BitVec 32 := (rand (seedAfter cseed n)).1

example : (List.range 3).map (draw (srand 1)) = [16838, 5758, 10113] := by decide

/-! ## The seed -/

theorem seedAfter_succ_toNat (cseed : BitVec 64) (n : ℕ) :
    (seedAfter cseed (n + 1)).toNat =
      ((seedAfter cseed n).toNat * 1103515245 + 12345) % 2 ^ 64 := by
  have hseed : seedAfter cseed (n + 1) = seedAfter cseed n * 1103515245 + 12345 :=
    Function.iterate_succ_apply' _ n cseed
  rw [hseed, BitVec.toNat_add, BitVec.toNat_mul, Nat.mod_add_mod]
  rfl

theorem isFull_seedAfter (cseed : BitVec 64) : IsFull 64 fun n => (seedAfter cseed n).toNat :=
  isFull_of_step (by decide) (by decide) (seedAfter_succ_toNat cseed)

/-- The seed comes back after every multiple of 2^64 calls, and never otherwise: the calls between
go through all seeds. -/
theorem seedAfter_eq_iff (cseed : BitVec 64) (m n : ℕ) :
    seedAfter cseed m = seedAfter cseed n ↔ m ≡ n [MOD 2 ^ 64] := by
  rw [← isFull_seedAfter cseed 64 le_rfl m n, Nat.ModEq, Nat.mod_eq_of_lt (BitVec.isLt _),
    Nat.mod_eq_of_lt (BitVec.isLt _), BitVec.toNat_inj]

/-! ## What is returned -/

theorem upper_bits (x : ℕ) : x / 65536 % 2 ^ 32 % 32768 = x % 2 ^ 31 / 2 ^ 16 := by omega

theorem draw_toNat (cseed : BitVec 64) (n : ℕ) :
    (draw cseed n).toNat = (seedAfter (rand cseed).2 n).toNat % 2 ^ 31 / 2 ^ 16 := by
  have hseed : seedAfter (rand cseed).2 n = (rand (seedAfter cseed n)).2 :=
    (Function.iterate_succ_apply _ n cseed).symm.trans (Function.iterate_succ_apply' _ n cseed)
  have hdiv : (65536 : BitVec 64).toNat = 65536 := rfl
  have hmod : (32768 : BitVec 32).toNat = 32768 := rfl
  rw [hseed, ← upper_bits, draw]
  generalize seedAfter cseed n = s
  unfold rand
  dsimp only
  rw [BitVec.toNat_umod, BitVec.toNat_setWidth, BitVec.toNat_udiv, hdiv, hmod]

theorem draw_testBit (cseed : BitVec 64) (n : ℕ) {b : ℕ} (hb : b < 15) :
    (draw cseed n).getLsbD b = (seedAfter (rand cseed).2 n).toNat.testBit (16 + b) := by
  rw [BitVec.getLsbD, draw_toNat, Nat.testBit_div_two_pow, Nat.testBit_mod_two_pow, Nat.add_comm,
    decide_eq_true (by omega), Bool.true_and]

/-- Bit `b` of what `rand` returns has the period 2^(17 + b), whatever the seed. -/
theorem draw_bit_periodic_iff (cseed : BitVec 64) {b : ℕ} (hb : b < 15) (p : ℕ) :
    (∀ n, (draw cseed (n + p)).getLsbD b = (draw cseed n).getLsbD b) ↔ 2 ^ (17 + b) ∣ p := by
  simp only [draw_testBit cseed _ hb]
  rw [(isFull_seedAfter _).testBit_periodic_iff (by omega), Nat.add_right_comm]

/-- The lowest bit is the same again after 131072 calls. -/
theorem draw_bit_periodic_iff_lowest :
    (∀ n, (draw (srand 1) (n + 131072)).getLsbD 0 = (draw (srand 1) n).getLsbD 0) ↔
      2 ^ 17 ∣ 131072 :=
  draw_bit_periodic_iff (srand 1) (by decide) 131072

/-- What `rand` returns has the period 2^31, whatever the seed. -/
theorem draw_periodic_iff (cseed : BitVec 64) (p : ℕ) :
    (∀ n, draw cseed (n + p) = draw cseed n) ↔ 2 ^ 31 ∣ p := by
  have hfull := isFull_seedAfter (rand cseed).2
  constructor
  · intro h
    refine (hfull.testBit_periodic_iff (k := 30) (by decide) p).1 fun n => ?_
    have hbit := congrArg (BitVec.getLsbD · 14) (h n)
    simpa only [draw_testBit cseed _ (by decide : 14 < 15)] using hbit
  · intro hdvd n
    have hplace : n + p ≡ n [MOD 2 ^ 31] := by
      simpa using (Nat.modEq_zero_iff_dvd.2 hdvd).add_left n
    have hmod : (seedAfter (rand cseed).2 (n + p)).toNat % 2 ^ 31 =
        (seedAfter (rand cseed).2 n).toNat % 2 ^ 31 := (hfull 31 (by decide) _ _).2 hplace
    rw [← BitVec.toNat_inj, draw_toNat, draw_toNat, hmod]

theorem card_of_upper_bits (v : ℕ) :
    #{y ∈ range (2 ^ 31) | y / 2 ^ 16 = v} = if v < 2 ^ 15 then 2 ^ 16 else 0 := by
  by_cases hv : v < 2 ^ 15
  · have heq : {y ∈ range (2 ^ 31) | y / 2 ^ 16 = v} = Ico (2 ^ 16 * v) (2 ^ 16 * v + 2 ^ 16) := by
      ext y
      simp only [mem_filter, mem_range, mem_Ico]
      omega
    rw [heq, Nat.card_Ico, Nat.add_sub_cancel_left, if_pos hv]
  · rw [if_neg hv, card_eq_zero, filter_eq_empty_iff]
    intro y hy
    have := mem_range.1 hy
    omega

/-- In 2^31 calls in a row, wherever they begin, `rand` returns each number below 32768 exactly
65536 times, and no other number. -/
theorem draw_uniform (cseed : BitVec 64) (m : ℕ) (v : BitVec 32) :
    #{n ∈ range (2 ^ 31) | draw cseed (m + n) = v} =
      if v.toNat < 2 ^ 15 then 2 ^ 16 else 0 := by
  have hfull : IsFull 31 fun n => (seedAfter (rand cseed).2 n).toNat :=
    fun k hk => isFull_seedAfter _ k (hk.trans (by decide))
  rw [← card_of_upper_bits, ← hfull.card_filter m fun y => y / 2 ^ 16 = v.toNat]
  simp only [← BitVec.toNat_inj, draw_toNat]

end IceKernel.Rand
