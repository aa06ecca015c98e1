import Mathlib.Logic.Function.Basic
import Mathlib.Tactic.NormNum
import Mathlib.Tactic.Ring

namespace ByteMemory

/-- A byte-addressed memory. -/
abbrev Mem := ℕ → BitVec 8

/-- The `n` bytes from `a` on all hold `v`. -/
def Filled (m : Mem) (a n : ℕ) (v : BitVec 8) : Prop := ∀ i < n, m (a + i) = v

/-- Two memories agree outside `[a, a + n)`. -/
def SameOutside (m m' : Mem) (a n : ℕ) : Prop := ∀ x, x < a ∨ a + n ≤ x → m' x = m x

/-- Little-endian load of `n` bytes. -/
def load (m : Mem) (a : ℕ) : ℕ → ℕ
  | 0 => 0
  | n + 1 => (m a).toNat + 256 * load m (a + 1) n

/-- Little-endian store of `n` bytes. -/
def store (m : Mem) (a v : ℕ) : ℕ → Mem
  | 0 => m
  | n + 1 => store (Function.update m a (BitVec.ofNat 8 v)) (a + 1) (v / 256) n

/-- The 64-bit word at an address. -/
abbrev load64 (m : Mem) (a : ℕ) : ℕ := load m a 8

abbrev store64 (m : Mem) (a v : ℕ) : Mem := store m a v 8

theorem SameOutside.rfl {m : Mem} {a n : ℕ} : SameOutside m m a n := fun _ _ => by rfl

theorem SameOutside.trans {m m' m'' : Mem} {a n : ℕ} (h : SameOutside m m' a n)
    (h' : SameOutside m' m'' a n) : SameOutside m m'' a n :=
  fun x hx => (h' x hx).trans (h x hx)

/-- A change inside a range is a change inside any larger range. -/
theorem SameOutside.mono {m m' : Mem} {a n b k : ℕ} (h : SameOutside m m' a n)
    (hb : b ≤ a) (hk : a + n ≤ b + k) : SameOutside m m' b k :=
  fun x hx => h x (by omega)

theorem store_sameOutside (m : Mem) (a v n : ℕ) : SameOutside m (store m a v n) a n := by
  induction n generalizing m a v with
  | zero => exact SameOutside.rfl
  | succ n ih =>
    intro x hx
    rw [store, ih _ _ _ x (by omega), Function.update_of_ne (by omega)]

/-- The bytes of a stored number. -/
theorem store_apply (m : Mem) (a v : ℕ) {n i : ℕ} (hi : i < n) :
    store m a v n (a + i) = BitVec.ofNat 8 (v / 256 ^ i) := by
  induction n generalizing m a v i with
  | zero => exact absurd hi (Nat.not_lt_zero i)
  | succ n ih =>
    cases i with
    | zero =>
      rw [store, store_sameOutside _ _ _ _ _ (by omega), Nat.add_zero, Function.update_self,
        Nat.pow_zero, Nat.div_one]
    | succ i =>
      have hshift : a + (i + 1) = a + 1 + i := by omega
      rw [store, hshift, ih _ _ _ (by omega), Nat.div_div_eq_div_mul, Nat.pow_succ']

theorem load_congr {m m' : Mem} {a n : ℕ} (h : ∀ i < n, m' (a + i) = m (a + i)) :
    load m' a n = load m a n := by
  induction n generalizing a with
  | zero => rfl
  | succ n ih =>
    have h0 : m' a = m a := h 0 (by omega)
    have hs : load m' (a + 1) n = load m (a + 1) n := ih fun i hi => by
      rw [Nat.add_assoc, Nat.add_comm 1 i]
      exact h (i + 1) (by omega)
    rw [load, load, h0, hs]

theorem load_of_sameOutside {m m' : Mem} {a n b k : ℕ} (h : SameOutside m m' a n)
    (hd : b + k ≤ a ∨ a + n ≤ b) : load m' b k = load m b k :=
  load_congr fun i hi => h _ (by omega)

/-- A load reads back what the store to the same place wrote. -/
theorem load_store (m : Mem) (a v n : ℕ) : load (store m a v n) a n = v % 256 ^ n := by
  induction n generalizing m a v with
  | zero => simp [load, Nat.mod_one]
  | succ n ih =>
    have h0 : store (Function.update m a (BitVec.ofNat 8 v)) (a + 1) (v / 256) n a =
        BitVec.ofNat 8 v := by
      rw [store_sameOutside _ _ _ _ a (by omega), Function.update_self]
    rw [load, store, ih, h0, BitVec.toNat_ofNat, Nat.pow_succ 256 n, Nat.mul_comm (256 ^ n) 256,
      Nat.mod_mul]

theorem load64_store64 (m : Mem) (a : ℕ) {v : ℕ} (hv : v < 2 ^ 64) :
    load64 (store64 m a v) a = v := by
  have h := load_store m a v 8
  rwa [Nat.mod_eq_of_lt (by norm_num at hv ⊢; exact hv)] at h

end ByteMemory
