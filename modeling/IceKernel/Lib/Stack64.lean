import Mathlib.Algebra.Group.Nat.Defs
import Mathlib.Tactic.Common

/-!
# A stack of quadwords in a 64-bit address space

The stack grows downwards, and addresses wrap.
-/

namespace Stack64

abbrev Mem := BitVec 64 → BitVec 8

/-- Little-endian load of `n` bytes. -/
def load (m : Mem) (a : BitVec 64) : (n : ℕ) → BitVec (8 * n)
  | 0 => 0#0
  | n + 1 => load m (a + 1) n ++ m a

abbrev load64 (m : Mem) (a : BitVec 64) : BitVec 64 := load m a 8

/-- Little-endian store of a quadword. -/
def store64 (m : Mem) (a v : BitVec 64) : Mem := fun x =>
  if (x - a).toNat < 8 then v.extractLsb' (8 * (x - a).toNat) 8 else m x

/-- From `sp` upwards lie the words `ws`, the top of the stack first. -/
def HoldsStack (m : Mem) : BitVec 64 → List (BitVec 64) → Prop
  | _, [] => True
  | sp, w :: ws => load64 m sp = w ∧ HoldsStack m (sp + 8) ws

theorem load_congr {m m' : Mem} {a : BitVec 64} {n : ℕ}
    (h : ∀ i < n, m' (a + BitVec.ofNat 64 i) = m (a + BitVec.ofNat 64 i)) :
    load m' a n = load m a n := by
  induction n generalizing a with
  | zero => rfl
  | succ n ih =>
    have h0 : m' a = m a := by simpa using h 0 (by omega)
    have hs : load m' (a + 1) n = load m (a + 1) n := ih fun i hi => by
      have hi' : a + 1 + BitVec.ofNat 64 i = a + BitVec.ofNat 64 (i + 1) := by bv_omega
      rw [hi']
      exact h (i + 1) (by omega)
    rw [load, load, h0, hs]

/-- The bits of a load, byte after byte. -/
theorem getLsbD_load (m : Mem) (a : BitVec 64) {n i : ℕ} (hi : i < 8 * n) :
    (load m a n).getLsbD i = (m (a + BitVec.ofNat 64 (i / 8))).getLsbD (i % 8) := by
  induction n generalizing a i with
  | zero => omega
  | succ n ih =>
    rw [load, BitVec.getLsbD_append]
    by_cases hlow : i < 8
    · have hdiv : i / 8 = 0 := by omega
      have hmod : i % 8 = i := by omega
      rw [if_pos hlow, hdiv, hmod]
      simp
    · have hdiv : a + 1 + BitVec.ofNat 64 ((i - 8) / 8) = a + BitVec.ofNat 64 (i / 8) := by
        have hpred : (i - 8) / 8 + 1 = i / 8 := by omega
        bv_omega
      have hmod : (i - 8) % 8 = i % 8 := by omega
      rw [if_neg hlow, ih _ (by omega), hdiv, hmod]

theorem load64_store64 (m : Mem) (a v : BitVec 64) : load64 (store64 m a v) a = v := by
  refine BitVec.eq_of_getLsbD_eq fun i hi => ?_
  have hd : (a + BitVec.ofNat 64 (i / 8) - a).toNat = i / 8 := by bv_omega
  have hlt : i / 8 < 8 := by omega
  have hmod : i % 8 < 8 := by omega
  have hbit : 8 * (i / 8) + i % 8 = i := Nat.div_add_mod i 8
  rw [load64, getLsbD_load _ a hi, store64, hd, if_pos hlt, BitVec.getLsbD_extractLsb', hbit]
  simp [hmod]

section

variable {m m' : Mem} {sp : BitVec 64} {ws : List (BitVec 64)}

@[simp] theorem holdsStack_nil : HoldsStack m sp [] := trivial

/-- The word at a depth of `i`. -/
theorem HoldsStack.load (h : HoldsStack m sp ws) {i : ℕ} {w : BitVec 64} (hi : ws[i]? = some w) :
    load64 m (sp + BitVec.ofNat 64 (8 * i)) = w := by
  induction ws generalizing sp i with
  | nil => simp at hi
  | cons v ws ih =>
    cases i with
    | zero =>
      obtain rfl : v = w := by simpa using hi
      simpa using h.1
    | succ i =>
      have hstep : sp + BitVec.ofNat 64 (8 * (i + 1)) = sp + 8 + BitVec.ofNat 64 (8 * i) := by
        bv_omega
      rw [hstep]
      exact ih h.2 (by simpa using hi)

/-- Only the bytes of the stack matter. -/
theorem HoldsStack.congr (h : HoldsStack m sp ws)
    (hm : ∀ i < 8 * ws.length, m' (sp + BitVec.ofNat 64 i) = m (sp + BitVec.ofNat 64 i)) :
    HoldsStack m' sp ws := by
  induction ws generalizing sp with
  | nil => trivial
  | cons w ws ih =>
    rw [List.length_cons] at hm
    refine ⟨(load_congr fun i hi => hm i (by omega)).trans h.1, ih h.2 fun i hi => ?_⟩
    have hstep : sp + 8 + BitVec.ofNat 64 i = sp + BitVec.ofNat 64 (i + 8) := by bv_omega
    rw [hstep]
    exact hm (i + 8) (by omega)

/-- A stack that does not fill the whole memory takes one more word. -/
theorem HoldsStack.push (h : HoldsStack m sp ws) (hlen : 8 * ws.length + 8 ≤ 2 ^ 64)
    (w : BitVec 64) : HoldsStack (store64 m (sp - 8) w) (sp - 8) (w :: ws) := by
  have hsp : sp - 8 + 8 = sp := BitVec.sub_add_cancel sp 8
  refine ⟨load64_store64 m _ w, ?_⟩
  rw [hsp]
  refine h.congr fun i hi => ?_
  have hout : ¬ (sp + BitVec.ofNat 64 i - (sp - 8)).toNat < 8 := by bv_omega
  rw [store64, if_neg hout]

theorem HoldsStack.drop (n : ℕ) (h : HoldsStack m sp ws) :
    HoldsStack m (sp + BitVec.ofNat 64 (8 * n)) (ws.drop n) := by
  induction n generalizing sp ws with
  | zero => simpa using h
  | succ n ih =>
    cases ws with
    | nil => trivial
    | cons w ws =>
      have hstep : sp + BitVec.ofNat 64 (8 * (n + 1)) = sp + 8 + BitVec.ofNat 64 (8 * n) := by
        bv_omega
      rw [hstep]
      exact ih h.2

end

end Stack64
