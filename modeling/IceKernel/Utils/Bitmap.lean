import IceKernel.Utils.Math
import Mathlib.Logic.Function.Basic

/-!
# `utils/bitmap.cpp`

`bitmap_t::get` keeps the byte index in a `uint8_t`, `bitmap_t::set` in a
`uint16_t`. Bit indices are the non-negative values of `int`.
-/

namespace IceKernel

abbrev Byte := BitVec 8

/-- `utils::bitmap_t`: the bytes from `buffer` on, and the size it was given. -/
structure BitmapT where
  buffer : ℕ → Byte
  size : ℕ

namespace BitmapT

/-- `bitmap_t::get`. -/
def get (b : BitmapT) (index : ℕ) : Bool :=
  let bit := index % 8 % 2 ^ 8
  let byte := index / 8 % 2 ^ 8
  b.buffer byte &&& (1#8 <<< bit) != 0#8

/-- `bitmap_t::set`. -/
def set (b : BitmapT) (index : ℕ) (value : Bool) : BitmapT :=
  let bit := index % 8 % 2 ^ 8
  let byte := index / 8 % 2 ^ 16
  if value then
    { b with buffer := Function.update b.buffer byte (b.buffer byte ||| (1#8 <<< bit)) }
  else
    { b with buffer := Function.update b.buffer byte (b.buffer byte &&& ~~~(1#8 <<< bit)) }

theorem one_shiftLeft (k : ℕ) : (1#8 <<< k) = BitVec.twoPow 8 k := rfl

/-- `get` reads bit `index % 8` of byte `index / 8` reduced modulo 256. -/
theorem get_eq (b : BitmapT) (i : ℕ) : b.get i = (b.buffer (i / 8 % 256)).getLsbD (i % 8) := by
  have hk : i % 8 < 8 := Nat.mod_lt _ (by norm_num)
  have hm : i % 8 % 2 ^ 8 = i % 8 := Nat.mod_eq_of_lt (by omega)
  simp only [get, hm, one_shiftLeft, BitVec.and_twoPow]
  cases hb : (b.buffer (i / 8 % 2 ^ 8)).getLsbD (i % 8)
  · simp
  · have hne : BitVec.twoPow 8 (i % 8) ≠ 0#8 := by
      intro h
      have := congrArg (fun x => x.getLsbD (i % 8)) h
      simp [hk] at this
    simp [hne]

theorem getLsbD_twoPow_eight {k m : ℕ} (hk : k < 8) :
    (BitVec.twoPow 8 k).getLsbD m = decide (m = k) := by
  rw [BitVec.getLsbD_twoPow]
  simp [hk, eq_comm]

/-- `set` writes bit `index % 8` of byte `index / 8` reduced modulo 65536 and no other bit. -/
theorem getLsbD_set (b : BitmapT) (i : ℕ) (v : Bool) (k m : ℕ) (hm : m < 8) :
    ((b.set i v).buffer k).getLsbD m =
      if k = i / 8 % 65536 ∧ m = i % 8 then v else (b.buffer k).getLsbD m := by
  have hi : i % 8 < 8 := Nat.mod_lt _ (by norm_num)
  have he : i % 8 % 2 ^ 8 = i % 8 := Nat.mod_eq_of_lt (by omega)
  by_cases hk : k = i / 8 % 65536
  · subst hk
    simp only [set, he, one_shiftLeft]
    cases v
    · simp only [Bool.false_eq_true, if_false, Nat.reducePow, Function.update_self,
        BitVec.getLsbD_and, BitVec.getLsbD_not, getLsbD_twoPow_eight hi, hm]
      by_cases hmi : m = i % 8 <;> simp [hmi]
    · simp only [if_true, Nat.reducePow, Function.update_self, BitVec.getLsbD_or,
        getLsbD_twoPow_eight hi]
      by_cases hmi : m = i % 8 <;> simp [hmi]
  · cases v <;> simp [set, hk]

theorem set_buffer_of_ne (b : BitmapT) (i : ℕ) (v : Bool) {k : ℕ} (hk : k ≠ i / 8 % 65536) :
    (b.set i v).buffer k = b.buffer k := by
  cases v <;> simp [set, hk]

/-- Reading `j` after writing `i`: the write is seen when both paths address the same bit. -/
theorem get_set (b : BitmapT) (i j : ℕ) (v : Bool) :
    (b.set i v).get j =
      if j / 8 % 256 = i / 8 % 65536 ∧ j % 8 = i % 8 then v else b.get j := by
  rw [get_eq, get_eq, getLsbD_set _ _ _ _ _ (Nat.mod_lt _ (by norm_num))]

/-- What an array of independent bits promises of one write and one read. -/
def IndependentAt (b : BitmapT) (v : Bool) (i j : ℕ) : Prop :=
  (b.set i v).get j = (if i = j then v else b.get j) ∧
    ∀ k, k ≠ i / 8 → (b.set i v).buffer k = b.buffer k

/-- The two byte-index types agree on bit `i` exactly below 8 * 65536, and then a read of `j`
sees bit `i` exactly when `j` is `i` modulo 8 * 256. -/
theorem independent_at_iff (size i j : ℕ) :
    (∀ b : BitmapT, b.size = size → ∀ v, b.IndependentAt v i j) ↔
      i < 524288 ∧ (j % 2048 = i ↔ i = j) := by
  constructor
  · intro h
    let zeros : BitmapT := ⟨fun _ => 0#8, size⟩
    obtain ⟨hget, hframe⟩ := h zeros rfl true
    have hi : i / 8 % 65536 = i / 8 := by
      by_contra hne
      have hbit := getLsbD_set zeros i true (i / 8 % 65536) (i % 8) (Nat.mod_lt _ (by norm_num))
      rw [hframe _ hne] at hbit
      simp [zeros] at hbit
    have hlt : i < 524288 := by omega
    have hz : zeros.get j = false := by simp [get_eq, zeros]
    rw [get_set, hz, hi] at hget
    refine ⟨hlt, ?_⟩
    have hiff : (j / 8 % 256 = i / 8 ∧ j % 8 = i % 8) ↔ i = j := by
      by_cases hij : i = j
      · simpa [hij] using hget
      · simpa [hij] using hget
    omega
  · rintro ⟨hlt, hiff⟩ b - v
    have hi : i / 8 % 65536 = i / 8 := by omega
    refine ⟨?_, fun k hk => set_buffer_of_ne b i v (by rwa [hi])⟩
    rw [get_set, hi]
    have hij : (j / 8 % 256 = i / 8 ∧ j % 8 = i % 8) ↔ i = j := by omega
    simp only [hij]

/-- The bitmap is an array of independent bits for buffers of at most 256 bytes and for no
larger ones; index by index, a write to `i` and a read of `j` behave exactly when `set` does
not wrap `i` and `get` takes `j` for `i` only if they are equal. -/
theorem independent_bits_iff (size : ℕ) (hint : 8 * size < 2 ^ 31) :
    ((∀ b : BitmapT, b.size = size → ∀ v i j, i < 8 * size → j < 8 * size →
        b.IndependentAt v i j) ↔ size ≤ 256) ∧
    ∀ i j, i < 8 * size → j < 8 * size →
      ((∀ b : BitmapT, b.size = size → ∀ v, b.IndependentAt v i j) ↔
        i < 524288 ∧ (j % 2048 = i ↔ i = j)) := by
  refine ⟨⟨?_, ?_⟩, fun i j _ _ => independent_at_iff size i j⟩
  · intro h
    by_contra hlarge
    have h2048 := (independent_at_iff size 2048 2048).mp fun b hb v =>
      h b hb v 2048 2048 (by omega) (by omega)
    omega
  · intro hsmall b hb v i j hi hj
    exact (independent_at_iff size i j).mpr ⟨by omega, by omega⟩ b hb v

theorem independent_bits_iff_page : (8 * 4096 < 2 ^ 31) ∧
    ¬ ∀ b : BitmapT, b.size = 4096 → ∀ v i j, i < 8 * 4096 → j < 8 * 4096 →
      b.IndependentAt v i j := by
  refine ⟨by norm_num, fun h => ?_⟩
  have := (independent_bits_iff 4096 (by norm_num)).1.mp h
  omega

/-- In a zeroed 257-byte buffer the bit written at index 2048 is not read back. -/
theorem bit_2048_lost : 8 * 257 < 2 ^ 31 ∧
    ¬ (⟨fun _ => 0#8, 257⟩ : BitmapT).IndependentAt true 2048 2048 := by
  refine ⟨by norm_num, fun h => ?_⟩
  have hread := h.1
  rw [get_set] at hread
  simp [get_eq] at hread

end BitmapT
end IceKernel
