import Mathlib.Data.Set.BooleanAlgebra
import Mathlib.Order.CompletePartialOrder
import Mathlib.Data.List.Nodup

/-!
# Taking a structure down

Traces of reads and releases, at addresses of any type. What has been released
is not touched again.
-/

namespace Teardown

variable {α : Type*}

inductive Access (α : Type*)
  | read (a : α)
  | delete (a : α)

def Access.addr : Access α → α
  | .read a => a
  | .delete a => a

def Access.deleted? : Access α → Option α
  | .read _ => none
  | .delete a => some a

/-- What a trace releases, in order. -/
def deleted (trace : List (Access α)) : List α := trace.filterMap Access.deleted?

theorem mem_deleted {trace : List (Access α)} {a : α} :
    a ∈ deleted trace ↔ .delete a ∈ trace := by
  rw [deleted, List.mem_filterMap]
  constructor
  · rintro ⟨x, hx, h⟩
    cases x with
    | read b => simp [Access.deleted?] at h
    | delete b =>
      obtain rfl : b = a := Option.some.inj h
      exact hx
  · exact fun h => ⟨_, h, rfl⟩

/-- Nothing is touched after its release. -/
def Careful (trace : List (Access α)) : Prop :=
  trace.Pairwise fun x y => ∀ a, x = .delete a → y.addr ≠ a

/-- So nothing is released twice. -/
theorem Careful.nodup {trace : List (Access α)} (h : Careful trace) : (deleted trace).Nodup := by
  induction trace with
  | nil => exact List.nodup_nil
  | cons x trace ih =>
    obtain ⟨hx, htail⟩ := List.pairwise_cons.mp h
    cases x with
    | read a => exact ih htail
    | delete a =>
      refine List.nodup_cons.mpr ⟨fun hmem => ?_, ih htail⟩
      exact hx _ (mem_deleted.mp hmem) a rfl rfl

/-- A careful trace that releases exactly `D`, and reads in `D` and `R` only. -/
structure Frees (R D : Set α) (trace : List (Access α)) : Prop where
  deletes : ∀ a, .delete a ∈ trace ↔ a ∈ D
  reads : ∀ a, .read a ∈ trace → a ∈ R ∪ D
  careful : Careful trace

namespace Frees

variable {R R' D D' : Set α} {trace trace' : List (Access α)} {a : α}

theorem nil : Frees R ∅ ([] : List (Access α)) where
  deletes a := by simp
  reads a h := by simp at h
  careful := List.Pairwise.nil

theorem read (h : a ∈ R) : Frees R ∅ [.read a] where
  deletes b := by simp
  reads b hb := by
    obtain rfl : b = a := by simpa using hb
    exact Or.inl h
  careful := List.pairwise_singleton _ _

theorem delete (R : Set α) (a : α) : Frees R {a} [.delete a] where
  deletes b := by simp [Set.mem_singleton_iff]
  reads b hb := by simp at hb
  careful := List.pairwise_singleton _ _

theorem addr_mem (h : Frees R D trace) {x : Access α} (hx : x ∈ trace) : x.addr ∈ R ∪ D := by
  cases x with
  | read b => exact h.reads b hx
  | delete b => exact Or.inr ((h.deletes b).mp hx)

theorem mono (h : Frees R D trace) (hR : R ⊆ R') : Frees R' D trace where
  deletes := h.deletes
  reads b hb := (h.reads b hb).imp_left fun hb => hR hb
  careful := h.careful

/-- One trace after another that does not touch what the first released. -/
theorem append (h : Frees R D trace) (h' : Frees R D' trace') (hR : Disjoint D R)
    (hD : Disjoint D D') : Frees R (D ∪ D') (trace ++ trace') where
  deletes b := by rw [List.mem_append, h.deletes, h'.deletes, Set.mem_union]
  reads b hb := by
    rcases List.mem_append.mp hb with hb | hb
    · exact (h.reads b hb).imp_right Or.inl
    · exact (h'.reads b hb).imp_right Or.inr
  careful := by
    refine List.pairwise_append.mpr ⟨h.careful, h'.careful, ?_⟩
    rintro x hx y hy b rfl rfl
    have hb := (h.deletes _).mp hx
    rcases h'.addr_mem hy with hr | hd
    · exact Set.disjoint_left.mp hR hb hr
    · exact Set.disjoint_left.mp hD hb hd

end Frees

end Teardown
