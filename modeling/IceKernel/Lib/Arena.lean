import Mathlib.Logic.Function.Basic
import Mathlib.Tactic.Common

/-!
# Objects in the order of their allocation

A pointer to an object is its number. Objects are not given back.
-/

structure Arena (α : Type*) where
  get : ℕ → α
  size : ℕ

namespace Arena

variable {α : Type*} {s : Arena α} {x : α} {i j : ℕ}

def push (s : Arena α) (x : α) : Arena α := ⟨Function.update s.get s.size x, s.size + 1⟩

def set (s : Arena α) (i : ℕ) (x : α) : Arena α := ⟨Function.update s.get i x, s.size⟩

@[simp] theorem size_push : (s.push x).size = s.size + 1 := rfl

@[simp] theorem size_set : (s.set i x).size = s.size := rfl

@[simp] theorem get_push_self : (s.push x).get s.size = x := Function.update_self ..

theorem get_push_of_ne (h : i ≠ s.size) : (s.push x).get i = s.get i := Function.update_of_ne h _ _

@[simp] theorem get_set_self : (s.set i x).get i = x := Function.update_self ..

theorem get_set_of_ne (h : j ≠ i) : (s.set i x).get j = s.get j := Function.update_of_ne h _ _

end Arena
