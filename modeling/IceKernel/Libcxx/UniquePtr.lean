import IceKernel.Lib.Custody
import IceKernel.Lib.Run
import Mathlib.Data.Finset.Insert
import Mathlib.Data.Finset.Erase

/-!
# `unique_ptr` of `libs/libc++/memory`

Any number of pointers to objects of one type, which are numbered as they are made.
-/

namespace IceKernel.Libcxx.UniquePtr
open Custody

/-- The pointers by their names, each with its `__ptr`; a name without a pointer has `none`.
`raw` has the objects whose address `release` has handed out, and `deleted` those that have been
deleted, the last one first. An object that a move assignment has lost is in `dropped`. -/
structure State where
  ptr : ℕ → Option (Option ℕ) := fun _ => none
  next : ℕ := 0
  raw : Finset ℕ := ∅
  dropped : Finset ℕ := ∅
  deleted : List ℕ := []

namespace State

def setPtr (s : State) (i : ℕ) (v : Option (Option ℕ)) : State :=
  { s with ptr := Function.update s.ptr i v }

/-- `delete`, which does nothing for a null pointer. -/
def delete (s : State) (p : Option ℕ) : State :=
  p.elim s fun o => { s with deleted := o :: s.deleted }

def handOut (s : State) (p : Option ℕ) : State :=
  p.elim s fun o => { s with raw := insert o s.raw }

def drop (s : State) (p : Option ℕ) : State :=
  p.elim s fun o => { s with dropped := insert o s.dropped }

/-- `__assign(p)` for the pointer `i`, which holds `held`. -/
def assign (s : State) (i : ℕ) (held p : Option ℕ) : State :=
  if held ≠ p then (s.delete held).setPtr i (some p) else s

end State

/-- The members of `unique_ptr`, and its constructor for a raw pointer. -/
inductive Call
  | make (i : ℕ)
  | adopt (i o : ℕ)
  | null (i : ℕ)
  | moveConstruct (i j : ℕ)
  | moveAssign (i j : ℕ)
  | assignNull (i : ℕ)
  | release (i : ℕ)
  | destroy (i : ℕ)
  deriving DecidableEq, Repr

/-- A call with a name that is in use, or is not, where it must not be, has no result; a raw pointer
is adopted only once. -/
def step (s : State) : Call → Option State
  | .make i =>
    if s.ptr i = none then
      some { s.setPtr i (some (some s.next)) with next := s.next + 1 }
    else none
  | .adopt i o =>
    if s.ptr i = none ∧ o ∈ s.raw then
      some { s.setPtr i (some (some o)) with raw := s.raw.erase o }
    else none
  | .null i => if s.ptr i = none then some (s.setPtr i (some none)) else none
  | .moveConstruct i j =>
    if s.ptr i = none then
      (s.ptr j).map fun p => (s.setPtr i (some p)).setPtr j (some none)
    else none
  | .moveAssign i j =>
    (s.ptr i).bind fun held => (s.ptr j).map fun p =>
      let t := (s.assign i held p).setPtr j (some none)
      if i = j then t.drop p else t
  | .assignNull i => (s.ptr i).map fun held => s.assign i held none
  | .release i => (s.ptr i).map fun held => (s.setPtr i (some none)).handOut held
  | .destroy i => (s.ptr i).map fun held => (s.delete held).setPtr i none

/-! ## Where the objects are -/

inductive Place
  | held (i : ℕ)
  | raw
  | dropped
  | deleted
  deriving DecidableEq, Repr

instance : Inhabited Place := ⟨.raw⟩

def State.Lies (s : State) (o : ℕ) : Place → Prop
  | .held i => s.ptr i = some (some o)
  | .raw => o ∈ s.raw
  | .dropped => o ∈ s.dropped
  | .deleted => o ∈ s.deleted

structure Inv (s : State) : Prop where
  located : Located s.next s.Lies
  nodup : s.deleted.Nodup

section Steps

variable {s t : State} {i j x : ℕ}

theorem inv_init : Inv {} :=
  ⟨located_zero fun o q => by cases q <;> simp [State.Lies], List.nodup_nil⟩

/-- The object of a pointer lies nowhere else. -/
theorem Inv.held_only (h : Inv s) (hx : s.ptr i = some (some x)) :
    x < s.next ∧ (∀ k, s.ptr k = some (some x) → k = i) ∧ x ∉ s.raw ∧ x ∉ s.dropped ∧
      x ∉ s.deleted := by
  have hheld : s.Lies x (.held i) := hx
  have hunique (q : Place) (hq : s.Lies x q) : q = .held i := h.located.unique hq hheld
  refine ⟨h.located.lt hheld, fun k hk => Place.held.inj (hunique (.held k) hk), fun hr => ?_,
    fun hd => ?_, fun hd => ?_⟩
  · exact Place.noConfusion (hunique .raw hr)
  · exact Place.noConfusion (hunique .dropped hd)
  · exact Place.noConfusion (hunique .deleted hd)

/-- A released object lies nowhere else. -/
theorem Inv.raw_only (h : Inv s) (hx : x ∈ s.raw) :
    x < s.next ∧ (∀ k, s.ptr k ≠ some (some x)) ∧ x ∉ s.dropped ∧ x ∉ s.deleted := by
  have hraw : s.Lies x .raw := hx
  have hunique (q : Place) (hq : s.Lies x q) : q = .raw := h.located.unique hq hraw
  refine ⟨h.located.lt hraw, fun k hk => ?_, fun hd => ?_, fun hd => ?_⟩
  · exact Place.noConfusion (hunique (.held k) hk)
  · exact Place.noConfusion (hunique .dropped hd)
  · exact Place.noConfusion (hunique .deleted hd)

/-- The next object lies nowhere yet. -/
theorem Inv.fresh (h : Inv s) : (∀ k, s.ptr k ≠ some (some s.next)) ∧ s.next ∉ s.raw ∧
    s.next ∉ s.dropped ∧ s.next ∉ s.deleted := by
  have hnew (q : Place) : ¬ s.Lies s.next q := fun hq => Nat.lt_irrefl _ (h.located.lt hq)
  exact ⟨fun k => hnew (.held k), hnew .raw, hnew .dropped, hnew .deleted⟩

/-- Null pointers come and go. -/
theorem Inv.setNull (h : Inv s) (hnull : ∀ o, s.ptr i ≠ some (some o))
    {v : Option (Option ℕ)} (hv : ∀ o, v ≠ some (some o)) : Inv (s.setPtr i v) := by
  refine ⟨?_, h.nodup⟩
  have hsame : (s.setPtr i v).Lies = s.Lies := by
    funext o q
    cases q with
    | held k =>
      by_cases hk : k = i
      · subst hk
        simp [State.Lies, State.setPtr, hnull o, hv o]
      · simp [State.Lies, State.setPtr, Function.update_of_ne hk]
    | _ => rfl
  rw [hsame]
  exact h.located

/-- The object of a pointer is deleted. -/
theorem Inv.deleteHeld (h : Inv s) {held : Option ℕ} (hi : s.ptr i = some held)
    {v : Option (Option ℕ)} (hv : ∀ o, v ≠ some (some o)) :
    Inv ((s.delete held).setPtr i v) := by
  cases held with
  | none => exact h.setNull (fun o => by simp [hi]) hv
  | some x =>
    obtain ⟨hlt, honly, hraw, hdropped, hdeleted⟩ := h.held_only hi
    refine ⟨h.located.move (p := .deleted) hlt fun o q => ?_,
      List.nodup_cons.2 ⟨hdeleted, h.nodup⟩⟩
    cases q <;>
      simp only [State.Lies, State.setPtr, State.delete, Option.elim_some, Function.update_apply] <;>
      grind

/-- The object of one pointer goes to another one, which holds nothing. -/
theorem Inv.pass (h : Inv s) {p : Option ℕ} (hj : s.ptr j = some p) (hne : i ≠ j)
    (hnull : ∀ o, s.ptr i ≠ some (some o)) :
    Inv ((s.setPtr i (some p)).setPtr j (some none)) := by
  cases p with
  | none =>
    exact (h.setNull hnull (by simp)).setNull
      (fun o => by simp [State.setPtr, Function.update_of_ne hne.symm, hj]) (by simp)
  | some x =>
    obtain ⟨hlt, honly, hraw, hdropped, hdeleted⟩ := h.held_only hj
    refine ⟨h.located.move (p := .held i) hlt fun o q => ?_, h.nodup⟩
    cases q <;> simp only [State.Lies, State.setPtr, Function.update_apply] <;> grind

/-- What `__assign` followed by the loss of the other pointer amounts to. -/
theorem assign_eq (h : Inv s) {held p : Option ℕ} (hi : s.ptr i = some held)
    (hj : s.ptr j = some p) (hne : i ≠ j) :
    (s.assign i held p).setPtr j (some none) =
      (((s.delete held).setPtr i (some none)).setPtr i (some p)).setPtr j (some none) := by
  unfold State.assign
  split
  · simp [State.setPtr]
  next heq =>
    obtain rfl := not_not.1 heq
    cases held with
    | none => simp [State.setPtr, State.delete, ← hi]
    | some x => exact absurd ((h.held_only hj).2.1 i hi) hne

theorem inv_step {c : Call} (h : Inv s) (hstep : step s c = some t) : Inv t := by
  cases c with
  | make i =>
    obtain ⟨hi, hsome⟩ := Option.ite_none_right_eq_some.1 hstep
    obtain rfl := Option.some.inj hsome
    obtain ⟨hptr, hraw, hdropped, hdeleted⟩ := h.fresh
    clear hstep hsome
    refine ⟨h.located.create (p := .held i) fun o q => ?_, h.nodup⟩
    cases q <;> simp only [State.Lies, State.setPtr, Function.update_apply] <;> grind
  | adopt i o =>
    obtain ⟨hi, hsome⟩ := Option.ite_none_right_eq_some.1 hstep
    obtain rfl := Option.some.inj hsome
    obtain ⟨hlt, hptr, hdropped, hdeleted⟩ := h.raw_only hi.2
    clear hstep hsome
    refine ⟨h.located.move (p := .held i) hlt fun o' q => ?_, h.nodup⟩
    cases q <;> simp only [State.Lies, State.setPtr, Function.update_apply] <;> grind
  | null i =>
    obtain ⟨hi, hsome⟩ := Option.ite_none_right_eq_some.1 hstep
    obtain rfl := Option.some.inj hsome
    exact h.setNull (by simp [hi]) (by simp)
  | moveConstruct i j =>
    obtain ⟨hi, hmap⟩ := Option.ite_none_right_eq_some.1 hstep
    obtain ⟨p, hj, rfl⟩ := Option.map_eq_some_iff.1 hmap
    have hne : i ≠ j := by
      rintro rfl
      exact absurd (hj.symm.trans hi) (Option.some_ne_none p)
    exact h.pass hj hne (by simp [hi])
  | moveAssign i j =>
    obtain ⟨held, hi, hmap⟩ := Option.bind_eq_some_iff.1 hstep
    obtain ⟨p, hj, rfl⟩ := Option.map_eq_some_iff.1 hmap
    dsimp only
    by_cases hij : i = j
    · -- Nothing is assigned, and what the pointer holds is lost.
      subst hij
      obtain rfl := Option.some.inj (hi.symm.trans hj)
      have hsame : s.assign i held held = s := if_neg (not_not.2 rfl)
      rw [if_pos rfl, hsame]
      cases held with
      | none => exact h.setNull (by simp [hi]) (by simp)
      | some x =>
        obtain ⟨hlt, honly, hraw, hdropped, hdeleted⟩ := h.held_only hi
        refine ⟨h.located.move (p := .dropped) hlt fun o q => ?_,
          h.nodup⟩
        cases q <;>
      simp only [State.Lies, State.setPtr, State.drop, Option.elim_some, Function.update_apply] <;>
      grind
    · -- What was held is deleted, and the other pointer's object takes its place.
      rw [if_neg hij, assign_eq h hi hj hij]
      have hdeleted := h.deleteHeld hi (v := some none) (by simp)
      have hj' : ((s.delete held).setPtr i (some none)).ptr j = some p := by
        cases held <;> simp [State.setPtr, State.delete, Function.update_of_ne (Ne.symm hij), hj]
      exact hdeleted.pass hj' hij (by simp [State.setPtr])
  | assignNull i =>
    obtain ⟨held, hi, rfl⟩ := Option.map_eq_some_iff.1 hstep
    unfold State.assign
    split
    · exact h.deleteHeld hi (by simp)
    · exact h
  | release i =>
    obtain ⟨held, hi, rfl⟩ := Option.map_eq_some_iff.1 hstep
    cases held with
    | none => exact h.setNull (by simp [hi]) (by simp)
    | some x =>
      obtain ⟨hlt, honly, hraw, hdropped, hdeleted⟩ := h.held_only hi
      refine ⟨h.located.move (p := .raw) hlt fun o q => ?_, h.nodup⟩
      cases q <;>
      simp only [State.Lies, State.setPtr, State.handOut, Option.elim_some, Function.update_apply] <;>
      grind
  | destroy i =>
    obtain ⟨held, hi, rfl⟩ := Option.map_eq_some_iff.1 hstep
    exact h.deleteHeld hi (by simp)

end Steps

end IceKernel.Libcxx.UniquePtr
