import IceKernel.Lib.Word64

/-!
# `utils/math.hpp`

The alignment helpers and the conversions between a physical address and its
image in the higher-half direct map, on 64-bit unsigned arguments.
-/

namespace IceKernel
open Word64

/-- `page_size` of `memory/physical.hpp`. -/
def pageSize : ℕ := 0x1000

/-- `align_down(n, a)`, that is `n & ~(a - 1)`. -/
def alignDown (n a : ℕ) : ℕ := n &&& compl64 (sub a 1)

/-- `align_up(n, a)`, that is `align_down(n + a - 1, a)`. -/
def alignUp (n a : ℕ) : ℕ := alignDown (sub (wrap (n + a)) 1) a

/-- `div_roundup(n, a)`, that is `align_down(n + a - 1, a) / a`. -/
def divRoundup (n a : ℕ) : ℕ := alignDown (sub (wrap (n + a)) 1) a / a

/-- `ishh(a)`: the address already lies in the direct map. -/
def ishh (hhdmOffset a : ℕ) : Bool := hhdmOffset ≤ a

/-- `tohh(a)`. -/
def tohh (hhdmOffset a : ℕ) : ℕ := if ishh hhdmOffset a then a else wrap (a + hhdmOffset)

/-- `fromhh(a)`. -/
def fromhh (hhdmOffset a : ℕ) : ℕ := if ishh hhdmOffset a then a - hhdmOffset else a

theorem alignDown_two_pow {n k : ℕ} (hn : n < 2 ^ 64) (hk : k < 64) :
    alignDown n (2 ^ k) = n / 2 ^ k * 2 ^ k := by
  have hlt : 2 ^ k < 2 ^ 64 := Nat.pow_lt_pow_right (by norm_num) hk
  rw [alignDown, sub_of_le (Nat.one_le_two_pow) hlt, and_compl64_low hn hk.le]

theorem alignDown_page {n : ℕ} (hn : n < 2 ^ 64) : alignDown n 0x1000 = n / 4096 * 4096 :=
  alignDown_two_pow (k := 12) hn (by norm_num)

/-- Rounding up to whole pages, as long as the sum does not wrap. -/
theorem alignUp_page {n : ℕ} (hn : n + 0xFFF < 2 ^ 64) :
    alignUp n 0x1000 = (n + 4095) / 4096 * 4096 := by
  have h : sub (wrap (n + 0x1000)) 1 = n + 4095 := by
    unfold sub wrap
    omega
  rw [alignUp, h, alignDown_page hn]

theorem divRoundup_page {n : ℕ} (hn : n + 0xFFF < 2 ^ 64) :
    divRoundup n 0x1000 = (n + 4095) / 4096 := by
  have h := alignUp_page hn
  rw [alignUp] at h
  rw [divRoundup, h, Nat.mul_div_cancel _ (by norm_num)]

/-- The higher-half direct map: physical addresses below `limit` appear at `offset + address`,
and no address below `limit` is mistaken for one that is already in the window. -/
structure Hhdm where
  offset : ℕ
  limit : ℕ
  aligned : offset % 4096 = 0
  limit_le : limit ≤ offset
  top_le : offset + limit ≤ 2 ^ 64

namespace Hhdm

variable (h : Hhdm)

theorem tohh_eq {a : ℕ} (ha : a < h.limit) : tohh h.offset a = h.offset + a := by
  have := h.limit_le
  have := h.top_le
  rw [tohh, ishh, if_neg (by simpa using (by omega : a < h.offset)), wrap_of_lt (by omega),
    Nat.add_comm]

theorem fromhh_eq (a : ℕ) : fromhh h.offset (h.offset + a) = a := by
  rw [fromhh, ishh, if_pos (by simp), Nat.add_sub_cancel_left]

end Hhdm

end IceKernel
