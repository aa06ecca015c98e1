import IceKernel.Lib.ByteMemory

/-!
# `memset` and `memcpy` of `libs/libc/string.cpp`
-/

namespace IceKernel
open ByteMemory

/-- The loop of `memset`, after its first `i` stores. -/
def memsetLoop (dest : ℕ) (ch : BitVec 8) (m : Mem) : ℕ → Mem
  | 0 => m
  | i + 1 => Function.update (memsetLoop dest ch m i) (dest + i) ch

/-- `memset(dest, ch, len)`. -/
def memset (m : Mem) (dest : ℕ) (ch : BitVec 8) (len : ℕ) : Mem := memsetLoop dest ch m len

/-- The loop of `memcpy`, after its first `i` bytes. -/
def memcpyLoop (dest src : ℕ) (m : Mem) : ℕ → Mem
  | 0 => m
  | i + 1 =>
    let m' := memcpyLoop dest src m i
    Function.update m' (dest + i) (m' (src + i))

/-- `memcpy(dest, src, len)`. -/
def memcpy (m : Mem) (dest src len : ℕ) : Mem := memcpyLoop dest src m len

theorem memset_apply (m : Mem) (dest : ℕ) (ch : BitVec 8) (len x : ℕ) :
    memset m dest ch len x = if dest ≤ x ∧ x < dest + len then ch else m x := by
  unfold memset
  induction len with
  | zero => rw [memsetLoop, if_neg (by omega)]
  | succ len ih =>
    rw [memsetLoop]
    by_cases hx : x = dest + len
    · rw [hx, Function.update_self, if_pos (by omega)]
    · rw [Function.update_of_ne hx, ih]
      exact if_congr (by omega) rfl rfl

theorem memset_filled (m : Mem) (dest : ℕ) (ch : BitVec 8) (len : ℕ) :
    Filled (memset m dest ch len) dest len ch := by
  intro i hi
  rw [memset_apply, if_pos (by omega)]

theorem memset_sameOutside (m : Mem) (dest : ℕ) (ch : BitVec 8) (len : ℕ) :
    SameOutside m (memset m dest ch len) dest len := by
  intro x hx
  rw [memset_apply, if_neg (by omega)]

theorem memcpy_sameOutside (m : Mem) (dest src len : ℕ) :
    SameOutside m (memcpy m dest src len) dest len := by
  unfold memcpy
  induction len with
  | zero => exact SameOutside.rfl
  | succ len ih =>
    intro x hx
    rw [memcpyLoop, Function.update_of_ne (by omega)]
    exact ih x (by omega)

/-- Between disjoint buffers `memcpy` copies every byte. -/
theorem memcpy_copies (m : Mem) {dest src len : ℕ}
    (hd : dest + len ≤ src ∨ src + len ≤ dest) (i : ℕ) (hi : i < len) :
    memcpy m dest src len (dest + i) = m (src + i) := by
  unfold memcpy
  induction len with
  | zero => omega
  | succ len ih =>
    rw [memcpyLoop]
    by_cases hil : i = len
    · subst hil
      rw [Function.update_self]
      exact memcpy_sameOutside m dest src i _ (by omega)
    · rw [Function.update_of_ne (by omega)]
      exact ih (by omega) (by omega)

end IceKernel
