import Mathlib.Data.List.Induction
import Mathlib.Tactic.Common

/-!
# Loops over the slots of a buffer

A buffer has a fixed number of slots. A load or store outside it has no
result, so a loop that has one stayed inside.
-/

namespace Slots

variable {α : Type*}

def load (buf : List α) (i : ℕ) : Option α := buf[i]?

def store (buf : List α) (i : ℕ) (x : α) : Option (List α) :=
  if i < buf.length then some (buf.set i x) else none

/-- `n` slots from `i` on, from one buffer to the same slots of another. -/
def copy (src : List α) : ℕ → ℕ → List α → Option (List α)
  | 0, _, dst => some dst
  | n + 1, i, dst =>
    (load src i).bind fun x => (store dst i x).bind fun dst => copy src n (i + 1) dst

/-- `n` slots from `i` on get the value `x`. -/
def fill (x : α) : ℕ → ℕ → List α → Option (List α)
  | 0, _, buf => some buf
  | n + 1, i, buf => (store buf i x).bind fun buf => fill x n (i + 1) buf

/-- From slot `i` downwards, `n` slots get the value of the slot before them. -/
def moveUp : ℕ → ℕ → List α → Option (List α)
  | 0, _, buf => some buf
  | n + 1, i, buf =>
    (load buf (i - 1)).bind fun x => (store buf i x).bind fun buf => moveUp n (i - 1) buf

/-- From slot `i` upwards, `n` slots get the value of the slot `k` after them. -/
def moveDown (k : ℕ) : ℕ → ℕ → List α → Option (List α)
  | 0, _, buf => some buf
  | n + 1, i, buf =>
    (load buf (i + k)).bind fun x => (store buf i x).bind fun buf => moveDown k n (i + 1) buf

@[simp] theorem load_append (a b : List α) (x : α) : load (a ++ x :: b) a.length = some x := by
  simp [load]

@[simp] theorem store_append (a b : List α) (x y : α) :
    store (a ++ x :: b) a.length y = some (a ++ y :: b) := by
  simp [store]

/-- The slot after the first `a`. -/
theorem append_snoc (a b : List α) (x : α) : a ++ x :: b = (a ++ [x]) ++ b := by
  rw [List.append_assoc, List.singleton_append]

theorem copy_append (p q r : List α) {d e : List α} (hd : d.length = q.length) :
    copy (p ++ (q ++ r)) q.length p.length (p ++ (d ++ e)) = some (p ++ (q ++ e)) := by
  induction q generalizing p d with
  | nil =>
    obtain rfl := List.length_eq_zero_iff.mp hd
    rfl
  | cons x q ih =>
    obtain ⟨y, d, rfl⟩ := List.exists_cons_of_length_eq_add_one hd
    have hlen : p.length + 1 = (p ++ [x]).length := by simp
    rw [List.length_cons, copy, List.cons_append, load_append, Option.bind_some, List.cons_append,
      store_append, Option.bind_some, append_snoc p (q ++ r), append_snoc p (d ++ e), hlen,
      ih (p ++ [x]) (Nat.succ.inj hd), List.cons_append, append_snoc p (q ++ e)]

theorem fill_append (x : α) (a d e : List α) :
    fill x d.length a.length (a ++ (d ++ e)) = some (a ++ (List.replicate d.length x ++ e)) := by
  induction d generalizing a with
  | nil => rfl
  | cons y d ih =>
    have hlen : a.length + 1 = (a ++ [x]).length := by simp
    rw [List.length_cons, fill, List.cons_append, store_append, Option.bind_some,
      append_snoc a (d ++ e), hlen, ih (a ++ [x]), List.replicate_succ, List.cons_append,
      ← append_snoc a]

/-- A block moves up by one into a free slot and leaves its first slot free. -/
theorem moveUp_append (a b c : List α) (w : α) :
    ∃ w', moveUp b.length (a.length + b.length) (a ++ (b ++ w :: c)) =
      some (a ++ w' :: (b ++ c)) := by
  induction b using List.reverseRecOn generalizing w c with
  | nil => exact ⟨w, rfl⟩
  | append_singleton b z ih =>
    obtain ⟨w', h⟩ := ih (z :: c) z
    refine ⟨w', ?_⟩
    have hload : load (a ++ (b ++ [z] ++ w :: c)) (a.length + b.length) = some z := by
      have hbuf : a ++ (b ++ [z] ++ w :: c) = (a ++ b) ++ z :: (w :: c) := by simp
      rw [hbuf, ← List.length_append, load_append]
    have hstore : store (a ++ (b ++ [z] ++ w :: c)) (a.length + (b.length + 1)) z =
        some (a ++ (b ++ z :: z :: c)) := by
      have hbuf : a ++ (b ++ [z] ++ w :: c) = (a ++ (b ++ [z])) ++ w :: c := by simp
      have hlen : a.length + (b.length + 1) = (a ++ (b ++ [z])).length := by simp
      rw [hbuf, hlen, store_append]
      simp
    have hlast : (b ++ [z]).length = b.length + 1 := by simp
    rw [hlast, moveUp, Nat.add_succ_sub_one, hload, Option.bind_some, hstore, Option.bind_some, h,
      List.append_assoc]
    rfl

/-- A block moves down over the slots of `m`, which come free behind it. -/
theorem moveDown_append (a m b c : List α) :
    ∃ m', m'.length = m.length ∧ moveDown m.length b.length a.length (a ++ (m ++ (b ++ c))) =
      some (a ++ (b ++ (m' ++ c))) := by
  induction b generalizing a m with
  | nil => exact ⟨m, rfl, rfl⟩
  | cons y b ih =>
    -- the first free slot takes `y`, and the slot of `y` comes free
    obtain ⟨z, m₁, hm⟩ : ∃ z m₁, m ++ [y] = z :: m₁ :=
      List.exists_cons_of_length_eq_add_one (n := m.length) (by simp)
    have hm₁ : m₁.length = m.length := by
      have h := congrArg List.length hm
      simpa using h.symm
    obtain ⟨m', hm', h⟩ := ih (a ++ [y]) m₁
    refine ⟨m', hm'.trans hm₁, ?_⟩
    have hload : load (a ++ (m ++ (y :: b ++ c))) (a.length + m.length) = some y := by
      have hbuf : a ++ (m ++ (y :: b ++ c)) = (a ++ m) ++ y :: (b ++ c) := by simp
      rw [hbuf, ← List.length_append, load_append]
    have hstore : store (a ++ (m ++ (y :: b ++ c))) a.length y =
        some ((a ++ [y]) ++ (m₁ ++ (b ++ c))) := by
      have hbuf : a ++ (m ++ (y :: b ++ c)) = a ++ z :: (m₁ ++ (b ++ c)) := by
        rw [List.cons_append, append_snoc m, hm, List.cons_append]
      rw [hbuf, store_append, ← append_snoc a]
    have hlen : a.length + 1 = (a ++ [y]).length := by simp
    rw [List.length_cons, moveDown, hload, Option.bind_some, hstore, Option.bind_some, hlen, ← hm₁,
      h, List.cons_append, ← append_snoc a]

/-! ## Slots that a loop leaves alone -/

section Drop

variable {buf buf' : List α} {i k n : ℕ} {x : α}

theorem store_drop (h : store buf i x = some buf') (hk : i < k) : buf'.drop k = buf.drop k := by
  rw [store] at h
  split at h
  · obtain rfl := Option.some.inj h
    exact List.drop_set_of_lt hk
  · simp at h

theorem copy_drop {src : List α} (h : copy src n i buf = some buf') (hk : i + n ≤ k) :
    buf'.drop k = buf.drop k := by
  induction n generalizing i buf with
  | zero =>
    obtain rfl := Option.some.inj h
    rfl
  | succ n ih =>
    obtain ⟨y, -, h⟩ := Option.bind_eq_some_iff.mp h
    obtain ⟨b, hb, h⟩ := Option.bind_eq_some_iff.mp h
    rw [ih h (by omega), store_drop hb (by omega)]

theorem fill_drop (h : fill x n i buf = some buf') (hk : i + n ≤ k) :
    buf'.drop k = buf.drop k := by
  induction n generalizing i buf with
  | zero =>
    obtain rfl := Option.some.inj h
    rfl
  | succ n ih =>
    obtain ⟨b, hb, h⟩ := Option.bind_eq_some_iff.mp h
    rw [ih h (by omega), store_drop hb (by omega)]

theorem moveUp_drop (h : moveUp n i buf = some buf') (hk : i < k) :
    buf'.drop k = buf.drop k := by
  induction n generalizing i buf with
  | zero =>
    obtain rfl := Option.some.inj h
    rfl
  | succ n ih =>
    obtain ⟨y, -, h⟩ := Option.bind_eq_some_iff.mp h
    obtain ⟨b, hb, h⟩ := Option.bind_eq_some_iff.mp h
    rw [ih h (by omega), store_drop hb hk]

theorem moveDown_drop {m : ℕ} (h : moveDown m n i buf = some buf') (hk : i + n ≤ k) :
    buf'.drop k = buf.drop k := by
  induction n generalizing i buf with
  | zero =>
    obtain rfl := Option.some.inj h
    rfl
  | succ n ih =>
    obtain ⟨y, -, h⟩ := Option.bind_eq_some_iff.mp h
    obtain ⟨b, hb, h⟩ := Option.bind_eq_some_iff.mp h
    rw [ih h (by omega), store_drop hb (by omega)]

end Drop

end Slots
