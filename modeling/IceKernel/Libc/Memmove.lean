import IceKernel.Lib.Word64
import IceKernel.Libc.Memory

/-!
# `memmove` of `libs/libc/string.cpp`
-/

namespace IceKernel
open ByteMemory Word64

/-- The second loop of `memmove`, after its first `i` rounds. The indices are words. -/
def memmoveLoop (dest src : ℕ) (m : Mem) : ℕ → Mem
  | 0 => m
  | i + 1 =>
    let m' := memmoveLoop dest src m i
    Function.update m' (wrap (dest + sub i 1)) (m' (wrap (src + sub i 1)))

/-- `memmove(dest, src, len)`. The first loop is the one of `memcpy`. -/
def memmove (m : Mem) (dest src len : ℕ) : Mem :=
  if src > dest then memcpyLoop dest src m len
  else if src < dest then memmoveLoop dest src m len
  else m

/-- The bytes from `src` on are copied as if through a temporary. -/
structure Moved (m m' : Mem) (dest src len : ℕ) : Prop where
  copied : ∀ i < len, m' (dest + i) = m (src + i)
  outside : SameOutside m m' dest len

/-- What the bytes of the memory must be for a move to a higher address: where the second loop
writes another byte than it should, the right one is there. -/
structure ShiftHarmless (m : Mem) (dest src len : ℕ) : Prop where
  before : m (sub src 1) = m (dest - 1)
  last : m (src + (len - 1)) = m (dest + (len - 1))
  periodic : ∀ k, dest - src ≤ k → k < len - 1 → m (src + k) = m (src + (k - (dest - src)))

/-! ## To a lower address -/

/-- Upwards to a lower address, every byte is read before it is written. -/
theorem memcpyLoop_moved (m : Mem) {dest src : ℕ} (h : dest ≤ src) (len : ℕ) :
    Moved m (memcpyLoop dest src m len) dest src len := by
  refine ⟨fun i hi => ?_, memcpy_sameOutside m dest src len⟩
  induction len with
  | zero => omega
  | succ len ih =>
    rw [memcpyLoop]
    by_cases hil : i = len
    · subst hil
      rw [Function.update_self]
      exact memcpy_sameOutside m dest src i _ (by omega)
    · rw [Function.update_of_ne (by omega)]
      exact ih (by omega)

/-! ## To a higher address -/

section Shift

variable (m : Mem) {dest src : ℕ}

/-- The address of round `i`, one below what it should be. -/
theorem wrap_add_sub_one {a i : ℕ} (ha : 0 < a) (h : a + i ≤ 2 ^ 64) :
    wrap (a + sub i 1) = a + i - 1 := by
  unfold wrap sub wrap
  omega

/-- The first round reads the byte before the source. -/
theorem wrap_add_sub_zero (a : ℕ) : wrap (a + sub 0 1) = sub a 1 := by
  unfold wrap sub wrap
  omega

/-- Rounds write from `dest - 1` on. -/
theorem memmoveLoop_of_outside (hdest : 0 < dest) {k x : ℕ} (hk : dest + k ≤ 2 ^ 64)
    (hx : x < dest - 1 ∨ dest - 1 + k ≤ x) : memmoveLoop dest src m k x = m x := by
  induction k with
  | zero => rfl
  | succ k ih =>
    rw [memmoveLoop, wrap_add_sub_one hdest (by omega), Function.update_of_ne (by omega)]
    exact ih (by omega) (by omega)

/-- What round `j` writes stays. -/
theorem memmoveLoop_written (hdest : 0 < dest) {j k : ℕ} (hjk : j < k) (hk : dest + k ≤ 2 ^ 64) :
    memmoveLoop dest src m k (dest - 1 + j) =
      memmoveLoop dest src m j (wrap (src + sub j 1)) := by
  induction k with
  | zero => omega
  | succ k ih =>
    rw [memmoveLoop, wrap_add_sub_one hdest (by omega)]
    by_cases hj : j = k
    · subst hj
      have hcell : dest - 1 + j = dest + j - 1 := by omega
      rw [hcell, Function.update_self]
    · rw [Function.update_of_ne (by omega)]
      exact ih (by omega) (by omega)

variable {len : ℕ}

/-- The byte before the destination gets the one before the source. -/
theorem memmoveLoop_before (hlt : src < dest) (hlen : 0 < len) (hdest : dest + len ≤ 2 ^ 64) :
    memmoveLoop dest src m len (dest - 1) = m (sub src 1) := by
  have hwritten : memmoveLoop dest src m len (dest - 1 + 0) = m (wrap (src + sub 0 1)) :=
    memmoveLoop_written m (by omega) hlen hdest
  rw [Nat.add_zero, wrap_add_sub_zero] at hwritten
  exact hwritten

/-- Byte `k` of the destination, from the memory its round finds. -/
theorem memmoveLoop_byte (hlt : src < dest) {k : ℕ} (hk : k + 1 < len)
    (hdest : dest + len ≤ 2 ^ 64) :
    memmoveLoop dest src m len (dest + k) = memmoveLoop dest src m (k + 1) (src + k) := by
  have hwritten : memmoveLoop dest src m len (dest - 1 + (k + 1)) =
      memmoveLoop dest src m (k + 1) (wrap (src + sub (k + 1) 1)) :=
    memmoveLoop_written m (by omega) hk hdest
  have hsrc : wrap (src + sub (k + 1) 1) = src + k := by
    rw [sub_of_le (by omega) (by omega), Nat.add_sub_cancel, wrap_of_lt (by omega)]
  have hcell : dest - 1 + (k + 1) = dest + k := by omega
  rw [hcell] at hwritten
  rw [hwritten, hsrc]

/-- Where the source byte has been written already, it is a byte of the destination. -/
theorem memmoveLoop_overlap (hlt : src < dest) {k : ℕ} (hk : k + 1 < len)
    (hdest : dest + len ≤ 2 ^ 64) (hd : dest - src ≤ k) :
    memmoveLoop dest src m len (dest + k) =
      memmoveLoop dest src m len (dest + (k - (dest - src))) := by
  have hsame : src + k = dest + (k - (dest - src)) := by omega
  have hround : memmoveLoop dest src m (k + 1) (dest + (k - (dest - src))) =
      memmoveLoop dest src m (k - (dest - src) + 1) (src + (k - (dest - src))) :=
    memmoveLoop_byte m hlt (by omega) (by omega)
  rw [memmoveLoop_byte m hlt hk hdest, hsame, hround,
    memmoveLoop_byte m (k := k - (dest - src)) hlt (by omega) hdest]

theorem memmoveLoop_copied (hlt : src < dest) (hlen : 0 < len) (hdest : dest + len ≤ 2 ^ 64)
    (h : ShiftHarmless m dest src len) {k : ℕ} (hk : k < len) :
    memmoveLoop dest src m len (dest + k) = m (src + k) := by
  induction k using Nat.strong_induction_on with
  | _ k ih =>
    by_cases hlast : k = len - 1
    · subst hlast
      rw [memmoveLoop_of_outside m (by omega) hdest (by omega), h.last]
    · by_cases hd : dest - src ≤ k
      · rw [memmoveLoop_overlap m hlt (by omega) hdest hd, ih _ (by omega) (by omega),
          h.periodic k hd (by omega)]
      · rw [memmoveLoop_byte m hlt (by omega) hdest]
        by_cases hbefore : k + 1 = dest - src
        · have hcell : src + k = dest - 1 := by omega
          rw [hcell, memmoveLoop_before m hlt (by omega) (by omega), h.before]
        · exact memmoveLoop_of_outside m (by omega) (by omega) (by omega)

theorem memmoveLoop_moved_iff (hlt : src < dest) (hlen : 0 < len) (hdest : dest + len ≤ 2 ^ 64) :
    Moved m (memmoveLoop dest src m len) dest src len ↔ ShiftHarmless m dest src len := by
  constructor
  · intro h
    refine ⟨?_, ?_, fun k hd hk => ?_⟩
    · rw [← memmoveLoop_before m hlt hlen hdest]
      exact h.outside _ (by omega)
    · rw [← h.copied (len - 1) (by omega)]
      exact memmoveLoop_of_outside m (by omega) hdest (by omega)
    · rw [← h.copied k (by omega), ← h.copied (k - (dest - src)) (by omega)]
      exact memmoveLoop_overlap m hlt (by omega) hdest hd
  · intro h
    refine ⟨fun k hk => memmoveLoop_copied m hlt hlen hdest h hk, fun x hx => ?_⟩
    by_cases hbefore : x = dest - 1
    · rw [hbefore, memmoveLoop_before m hlt hlen hdest, h.before]
    · exact memmoveLoop_of_outside m (by omega) hdest (by omega)

end Shift

/-- `memmove` is a move if it goes to a lower address or nowhere. To a higher address it is one
only where the bytes hide it. -/
theorem memmove_moved_iff (m : Mem) {dest src len : ℕ} (hdest : dest + len ≤ 2 ^ 64) :
    Moved m (memmove m dest src len) dest src len ↔
      dest ≤ src ∨ len = 0 ∨ ShiftHarmless m dest src len := by
  rw [memmove]
  by_cases hgt : src > dest
  · rw [if_pos hgt]
    exact iff_of_true (memcpyLoop_moved m hgt.le len) (.inl hgt.le)
  rw [if_neg hgt]
  by_cases hlt : src < dest
  · rw [if_pos hlt, or_iff_right (by omega)]
    by_cases hlen : len = 0
    · subst hlen
      exact iff_of_true ⟨fun i hi => absurd hi (Nat.not_lt_zero i), SameOutside.rfl⟩ (.inl rfl)
    · rw [or_iff_right hlen]
      exact memmoveLoop_moved_iff m hlt (by omega) hdest
  · obtain rfl : src = dest := by omega
    rw [if_neg hlt]
    exact iff_of_true ⟨fun _ _ => rfl, SameOutside.rfl⟩ (.inl le_rfl)

/-- The bytes 0, 1, 2, .. at the addresses 0, 1, 2, ... -/
def countingMem : Mem := fun x => BitVec.ofNat 8 x

theorem memmove_moved_iff_counting :
    Moved countingMem (memmove countingMem 10 12 4) 10 12 4 ↔
      10 ≤ 12 ∨ 4 = 0 ∨ ShiftHarmless countingMem 10 12 4 :=
  memmove_moved_iff countingMem (by norm_num)

/-- Two bytes one up: the byte before the destination is written, the last one is not. -/
theorem memmove_up_not_moved :
    ¬ Moved countingMem (memmove countingMem 11 10 2) 11 10 2 := by
  intro h
  have hlast := h.copied 1 (by norm_num)
  revert hlast
  decide

end IceKernel
