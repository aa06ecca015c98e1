import Mathlib.Data.List.Infix
import Mathlib.Logic.Function.Basic
import Mathlib.Tactic.Common

/-!
# Mutable radix trees

Nodes are addresses `α`, each an array of words `W` indexed by `ι`. What a
word means may depend on the depth of its node. A path lists the indices
taken from the root, the last one first.
-/

namespace RadixTree

variable {α β ι W : Type*}

/-- What a word of a node means. -/
inductive Slot (α β : Type*)
  | empty
  | child (a : α)
  | leaf (b : β)

def Slot.child? : Slot α β → Option α
  | .child a => some a
  | _ => none

def Slot.leaf? : Slot α β → Option β
  | .leaf b => some b
  | _ => none

variable (decode : ℕ → W → Slot α β)

/-- The node a path leads to. -/
def descend (mem : α → ι → W) (root : α) : List ι → Option α
  | [] => some root
  | i :: p => (descend mem root p).bind fun t => (decode p.length (mem t i)).child?

/-- The slot `i` of the node at `p`, empty when there is no such node. -/
def slotAt (mem : α → ι → W) (root : α) (p : List ι) (i : ι) : Slot α β :=
  match descend decode mem root p with
  | none => .empty
  | some t => decode p.length (mem t i)

/-- No two paths lead to the same node. -/
def Unshared (mem : α → ι → W) (root : α) : Prop :=
  ∀ p q t, descend decode mem root p = some t → descend decode mem root q = some t → p = q

variable {decode} {mem mem' : α → ι → W} {root t : α} {p q : List ι} {i j : ι} {w : W}

theorem slotAt_of_descend (h : descend decode mem root p = some t) (i : ι) :
    slotAt decode mem root p i = decode p.length (mem t i) := by
  simp only [slotAt, h]

theorem descend_cons (p : List ι) (i : ι) :
    descend decode mem root (i :: p) = (slotAt decode mem root p i).child? := by
  rw [descend, slotAt]
  cases descend decode mem root p <;> rfl

/-- Only the words of reachable nodes matter. -/
theorem descend_congr (h : ∀ p t, descend decode mem root p = some t → mem' t = mem t)
    (q : List ι) : descend decode mem' root q = descend decode mem root q := by
  induction q with
  | nil => rfl
  | cons j q ih =>
    rw [descend, descend, ih]
    cases hq : descend decode mem root q with
    | none => rfl
    | some t => simp only [Option.bind_some, h q t hq]

theorem slotAt_congr (h : ∀ p t, descend decode mem root p = some t → mem' t = mem t)
    (q : List ι) (j : ι) : slotAt decode mem' root q j = slotAt decode mem root q j := by
  rw [slotAt, slotAt, descend_congr h]
  cases hq : descend decode mem root q with
  | none => rfl
  | some t => simp only [h q t hq]

theorem descend_eq_none_of_suffix (h : descend decode mem root p = none) (hq : p <:+ q) :
    descend decode mem root q = none := by
  induction q with
  | nil => rwa [List.suffix_nil.mp hq] at h
  | cons j q ih =>
    rcases List.suffix_cons_iff.mp hq with rfl | hq
    · exact h
    · rw [descend, ih hq, Option.bind_none]

/-- Below a slot that is not a child there is nothing. -/
theorem descend_below (h : (slotAt decode mem root p i).child? = none) (hq : (i :: p) <:+ q) :
    descend decode mem root q = none :=
  descend_eq_none_of_suffix ((descend_cons p i).trans h) hq

theorem slotAt_below (h : (slotAt decode mem root p i).child? = none) (hq : (i :: p) <:+ q)
    (j : ι) : slotAt decode mem root q j = .empty := by
  rw [slotAt, descend_below h hq]

section Write

variable [DecidableEq α] [DecidableEq ι]

/-- Store one word. -/
def write (mem : α → ι → W) (t : α) (i : ι) (w : W) : α → ι → W :=
  Function.update mem t (Function.update (mem t) i w)

@[simp] theorem write_self (mem : α → ι → W) (t : α) (i : ι) (w : W) :
    write mem t i w t i = w := by
  simp [write]

theorem write_of_ne {s : α} {k : ι} (h : ¬ (s = t ∧ k = i)) : write mem t i w s k = mem s k := by
  by_cases hs : s = t
  · have hk : k ≠ i := fun hk => h ⟨hs, hk⟩
    rw [hs, write, Function.update_self, Function.update_of_ne hk]
  · rw [write, Function.update_of_ne hs]

theorem write_node_of_ne {s : α} (h : s ≠ t) : write mem t i w s = mem s := by
  rw [write, Function.update_of_ne h]

@[simp] theorem write_write (mem : α → ι → W) (t : α) (i : ι) (w w' : W) :
    write (write mem t i w) t i w' = write mem t i w' := by
  simp [write]

/-- A store is seen only at and below its own slot. -/
theorem descend_write (hu : Unshared decode mem root) (hp : descend decode mem root p = some t)
    (hq : ¬ (i :: p) <:+ q) :
    descend decode (write mem t i w) root q = descend decode mem root q := by
  induction q with
  | nil => rfl
  | cons j q ih =>
    rw [List.suffix_cons_iff, not_or] at hq
    rw [descend, descend, ih hq.2]
    cases hd : descend decode mem root q with
    | none => rfl
    | some s =>
      have hne : ¬ (s = t ∧ j = i) := by
        rintro ⟨rfl, rfl⟩
        exact hq.1 (by rw [hu q p s hd hp])
      rw [Option.bind_some, Option.bind_some, write_of_ne hne]

/-- A store to a slot that is not a child keeps every node. -/
theorem descend_write_of_some (hu : Unshared decode mem root)
    (hp : descend decode mem root p = some t)
    (hslot : (slotAt decode mem root p i).child? = none) {s : α}
    (hq : descend decode mem root q = some s) :
    descend decode (write mem t i w) root q = some s := by
  by_cases hs : (i :: p) <:+ q
  · rw [descend_below hslot hs] at hq
    simp at hq
  · rw [descend_write hu hp hs, hq]

theorem slotAt_write (hu : Unshared decode mem root) (hp : descend decode mem root p = some t)
    (hq : ¬ (i :: p) <:+ (j :: q)) :
    slotAt decode (write mem t i w) root q j = slotAt decode mem root q j := by
  rw [List.suffix_cons_iff, not_or] at hq
  rw [slotAt, slotAt, descend_write hu hp hq.2]
  cases hd : descend decode mem root q with
  | none => rfl
  | some s =>
    have hne : ¬ (s = t ∧ j = i) := by
      rintro ⟨rfl, rfl⟩
      exact hq.1 (by rw [hu q p s hd hp])
    simp only [write_of_ne hne]

theorem slotAt_write_self (hu : Unshared decode mem root)
    (hp : descend decode mem root p = some t) :
    slotAt decode (write mem t i w) root p i = decode p.length w := by
  have hlen : ¬ (i :: p) <:+ p := fun h => absurd h.length_le (by simp)
  rw [slotAt, descend_write hu hp hlen, hp]
  simp only [write_self]

/-- Storing a word that is not a child cuts off what was below. -/
theorem descend_write_cut (hu : Unshared decode mem root)
    (hp : descend decode mem root p = some t) (hw : (decode p.length w).child? = none)
    {s : α} (hq : descend decode (write mem t i w) root q = some s) :
    descend decode mem root q = some s := by
  by_cases hs : (i :: p) <:+ q
  · rw [descend_below (by rw [slotAt_write_self hu hp, hw]) hs] at hq
    simp at hq
  · rwa [descend_write hu hp hs] at hq

/-- No paths change if neither the old word nor the new one is a link. -/
theorem descend_write_leaf (hu : Unshared decode mem root)
    (hp : descend decode mem root p = some t) (hslot : (slotAt decode mem root p i).child? = none)
    (hw : (decode p.length w).child? = none) (q : List ι) :
    descend decode (write mem t i w) root q = descend decode mem root q := by
  by_cases hs : (i :: p) <:+ q
  · rw [descend_below (by rw [slotAt_write_self hu hp, hw]) hs, descend_below hslot hs]
  · exact descend_write hu hp hs

theorem Unshared.write_cut (hu : Unshared decode mem root)
    (hp : descend decode mem root p = some t) (hw : (decode p.length w).child? = none) :
    Unshared decode (write mem t i w) root := fun _ _ _ h1 h2 =>
  hu _ _ _ (descend_write_cut hu hp hw h1) (descend_write_cut hu hp hw h2)

section Graft

variable {a : α}

/-- Below the slot into which an empty node was hung there is just that node. -/
theorem descend_graft_below (hu : Unshared decode mem root)
    (hp : descend decode mem root p = some t) (hta : a ≠ t)
    (hempty : ∀ d k, decode d (mem a k) = .empty) (hw : decode p.length w = .child a)
    {s : α} (hs : (i :: p) <:+ q) (hq : descend decode (write mem t i w) root q = some s) :
    q = i :: p ∧ s = a := by
  induction q generalizing s with
  | nil => exact absurd (List.suffix_nil.mp hs) (by simp)
  | cons k q ih =>
    rcases List.suffix_cons_iff.mp hs with heq | hs
    · rw [← heq, descend_cons, slotAt_write_self hu hp, hw] at hq
      exact ⟨heq.symm, (Option.some.inj hq).symm⟩
    · rw [descend] at hq
      obtain ⟨s', hs', hchild⟩ := Option.bind_eq_some_iff.mp hq
      obtain ⟨-, rfl⟩ := ih hs hs'
      rw [write_node_of_ne hta, hempty] at hchild
      simp [Slot.child?] at hchild

/-- Hanging an empty node `a`, not in the tree before, into an empty slot changes that slot
only. -/
theorem slotAt_graft (hu : Unshared decode mem root)
    (hp : descend decode mem root p = some t) (hslot : slotAt decode mem root p i = .empty)
    (hnew : ∀ q, descend decode mem root q ≠ some a)
    (hempty : ∀ d k, decode d (mem a k) = .empty) (hw : decode p.length w = .child a)
    (hne : i :: p ≠ j :: q) :
    slotAt decode (write mem t i w) root q j = slotAt decode mem root q j := by
  have hta : a ≠ t := fun h => hnew p (h ▸ hp)
  by_cases hs : (i :: p) <:+ (j :: q)
  · have hsq : (i :: p) <:+ q := (List.suffix_cons_iff.mp hs).resolve_left hne
    have hcut : (slotAt decode mem root p i).child? = none := by
      rw [hslot]
      rfl
    rw [slotAt_below hcut hsq, slotAt]
    cases hd : descend decode (write mem t i w) root q with
    | none => rfl
    | some s =>
      obtain ⟨-, rfl⟩ := descend_graft_below hu hp hta hempty hw hsq hd
      simp only [write_node_of_ne hta, hempty]
  · exact slotAt_write hu hp hs

theorem descend_graft (hu : Unshared decode mem root)
    (hp : descend decode mem root p = some t) (hta : a ≠ t)
    (hempty : ∀ d k, decode d (mem a k) = .empty) (hw : decode p.length w = .child a)
    {s : α} (hq : descend decode (write mem t i w) root q = some s) :
    (q = i :: p ∧ s = a) ∨ descend decode mem root q = some s := by
  by_cases hs : (i :: p) <:+ q
  · exact Or.inl (descend_graft_below hu hp hta hempty hw hs hq)
  · rw [descend_write hu hp hs] at hq
    exact Or.inr hq

theorem Unshared.graft (hu : Unshared decode mem root)
    (hp : descend decode mem root p = some t)
    (hnew : ∀ q, descend decode mem root q ≠ some a)
    (hempty : ∀ d k, decode d (mem a k) = .empty) (hw : decode p.length w = .child a) :
    Unshared decode (write mem t i w) root := by
  have hta : a ≠ t := fun h => hnew p (h ▸ hp)
  intro q r s hq hr
  rcases descend_graft hu hp hta hempty hw hq with ⟨rfl, rfl⟩ | hq'
  · rcases descend_graft hu hp hta hempty hw hr with ⟨rfl, -⟩ | hr'
    · rfl
    · exact absurd hr' (hnew r)
  · rcases descend_graft hu hp hta hempty hw hr with ⟨rfl, rfl⟩ | hr'
    · exact absurd hq' (hnew q)
    · exact hu q r s hq' hr'

end Graft

end Write

/-! ## A second root -/

section Reroot

variable {root' : α} (hrow : ∀ j, mem' root' j = mem root j ∨ decode 0 (mem' root' j) = .empty)
  (hold : ∀ p t, descend decode mem root p = some t → mem' t = mem t)

include hrow hold

/-- A root whose slots are copied from `root` or empty leads to nothing but nodes below `root`,
by the same paths. -/
theorem descend_reroot (hp : p ≠ []) (h : descend decode mem' root' p = some t) :
    descend decode mem root p = some t := by
  induction p generalizing t with
  | nil => exact absurd rfl hp
  | cons j p ih =>
    obtain ⟨s, hs, hchild⟩ := Option.bind_eq_some_iff.mp h
    cases p with
    | nil =>
      obtain rfl : root' = s := Option.some.inj hs
      rcases hrow j with hj | hj
      · rw [hj] at hchild
        exact hchild
      · rw [List.length_nil, hj] at hchild
        simp [Slot.child?] at hchild
    | cons k p =>
      have hs' := ih (List.cons_ne_nil k p) hs
      rw [hold _ s hs'] at hchild
      exact Option.bind_eq_some_iff.mpr ⟨s, hs', hchild⟩

theorem Unshared.reroot (hu : Unshared decode mem root)
    (hnew : ∀ p, descend decode mem root p ≠ some root') : Unshared decode mem' root' := by
  intro p q t hp hq
  by_cases hp0 : p = []
  · by_cases hq0 : q = []
    · rw [hp0, hq0]
    · obtain rfl : root' = t := Option.some.inj (by rw [← hp, hp0]; rfl)
      exact absurd (descend_reroot hrow hold hq0 hq) (hnew q)
  · by_cases hq0 : q = []
    · obtain rfl : root' = t := Option.some.inj (by rw [← hq, hq0]; rfl)
      exact absurd (descend_reroot hrow hold hp0 hp) (hnew p)
    · exact hu p q t (descend_reroot hrow hold hp0 hp) (descend_reroot hrow hold hq0 hq)

end Reroot

end RadixTree
