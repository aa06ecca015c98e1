import IceKernel.Lib.Acyclic
import IceKernel.Libcxx.WeakConversions

/-!
# `libs/libc++/memory`: objects that hold `shared_ptr`s

The destructor of a managed object destroys its members, so one release can
take down everything that was owned through it.
-/

namespace IceKernel.Libcxx.Graph
open Function Relation Shares FiniteRel

/-- The handles that each object has as members, in the order of their destruction. The others are
members of no object. -/
structure Layout (O L : Type) where
  members : O → List L
  nodup : ∀ o, (members o).Nodup
  unique : ∀ o o' l, l ∈ members o → l ∈ members o' → o = o'

/-- The objects' control blocks and the handles. A handle has an object or is null; after its
destruction, there is no handle. -/
structure Heap (O L : Type) where
  block : O → CtrlBlock
  handle : L → Option (Option O)

section Source

variable {O L : Type} [DecidableEq O] [DecidableEq L]

def Heap.setBlock (s : Heap O L) (o : O) (c : CtrlBlock) : Heap O L :=
  { s with block := update s.block o c }

def Heap.setHandle (s : Heap O L) (l : L) (x : Option (Option O)) : Heap O L :=
  { s with handle := update s.handle l x }

/-- `__add_shared`. -/
def addShared (c : CtrlBlock) : CtrlBlock := Conversions.addWeak { c with refCount := c.refCount + 1 }

/-- The destructors of members: each one ends its handle and releases what that has. -/
def destroyMembers (release : O → Heap O L → Option (Heap O L)) :
    List L → Heap O L → Option (Heap O L)
  | [], s => some s
  | l :: ls, s =>
    match s.handle l with
    | some (some o) => (release o (s.setHandle l none)).bind (destroyMembers release ls)
    | _ => destroyMembers release ls (s.setHandle l none)

/-- The start of `__release_shared`, up to the call of the deleter. -/
def subRef (o : O) (s : Heap O L) : Heap O L :=
  let c := s.block o
  s.setBlock o { c with
    refCount := c.refCount - 1, deleted := c.deleted + if c.refCount = 1 then 1 else 0 }

/-- `__release_shared`; none if the nested calls go deeper than `fuel`. -/
def releaseShared (m : Layout O L) : ℕ → O → Heap O L → Option (Heap O L)
  | 0, _, _ => none
  | fuel + 1, o, s =>
    let deleter := fun s => destroyMembers (releaseShared m fuel) (m.members o) s
    (if (s.block o).refCount = 1 then deleter (subRef o s) else some (subRef o s)).map fun s =>
      s.setBlock o (Conversions.releaseWeak (s.block o))

/-- `shared_ptr::__delete`. -/
def delete (m : Layout O L) (fuel : ℕ) (l : L) (s : Heap O L) : Option (Heap O L) :=
  match s.handle l with
  | some (some o) => releaseShared m fuel o s
  | _ => some s

/-- How an assignment ends: in a state, or reading a handle that is no more. -/
inductive Outcome (O L : Type) where
  | done (s : Heap O L)
  | deadRead

/-- The copy assignment `p = h`. -/
def copyAssign (m : Layout O L) (fuel : ℕ) (p h : L) (s : Heap O L) : Option (Outcome O L) :=
  if p = h then some (.done s)
  else (delete m fuel p s).map fun s =>
    match s.handle h with
    | none => .deadRead
    | some none => .done (s.setHandle p (some none))
    | some (some o) => .done ((s.setHandle p (some (some o))).setBlock o (addShared (s.block o)))

/-- The move assignment `p = std::move(h)`. -/
def moveAssign (m : Layout O L) (fuel : ℕ) (p h : L) (s : Heap O L) : Option (Outcome O L) :=
  if p = h then some (.done s)
  else (delete m fuel p s).map fun s =>
    match s.handle h with
    | none => .deadRead
    | some ctrl => .done ((s.setHandle p (some ctrl)).setHandle h (some none))

inductive Assignment where
  | copy
  | move
  deriving DecidableEq, Repr

def assign (m : Layout O L) : Assignment → ℕ → L → L → Heap O L → Option (Outcome O L)
  | .copy => copyAssign m
  | .move => moveAssign m

end Source

/-! ## Ownership -/

section Spec

variable {O L : Type} [DecidableEq O] [DecidableEq L] [Fintype L]

/-- An object owns what its members have. -/
def Owns (m : Layout O L) (s : Heap O L) (a b : O) : Prop :=
  ∃ l ∈ m.members a, s.handle l = some (some b)

/-- How many handles an object has. -/
def owners (s : Heap O L) (o : O) : ℕ :=
  (Finset.univ.filter fun l => s.handle l = some (some o)).card

/-- All counts are exact. An object is deleted, its block freed and its members destroyed if and
only if nothing owns it. -/
structure Exact (m : Layout O L) (s : Heap O L) : Prop where
  refCount : ∀ o, (s.block o).refCount = owners s o
  weakCount : ∀ o, (s.block o).weakCount = owners s o
  deleted : ∀ o, (s.block o).deleted = if owners s o = 0 then 1 else 0
  freed : ∀ o, (s.block o).freed = if owners s o = 0 then 1 else 0
  members : ∀ o, ∀ l ∈ m.members o, s.handle l = none ↔ owners s o = 0

/-- Owned by a handle that no object has as a member, other than through `p`. -/
inductive Held (m : Layout O L) (s : Heap O L) (p : L) : O → Prop
  | root {r : L} {o : O} (hp : r ≠ p) (hroot : ∀ a, r ∉ m.members a)
      (hr : s.handle r = some (some o)) : Held m s p o
  | member {a o : O} {l : L} (ha : Held m s p a) (hp : l ≠ p) (hl : l ∈ m.members a)
      (ho : s.handle l = some (some o)) : Held m s p o

/-- The assignment `p = h` ends, without reading a dead handle. Then `p` has the object that `h`
had, the object is not deleted, and all counts are exact. -/
def AssignsSafely (m : Layout O L) (kind : Assignment) (p h : L) (s : Heap O L) : Prop :=
  ∃ n, ∀ fuel ≥ n, ∃ t, assign m kind fuel p h s = some (.done t) ∧
    t.handle p = s.handle h ∧ (∀ o, s.handle h = some (some o) → (t.block o).deleted = 0) ∧
    Exact m t

end Spec

end IceKernel.Libcxx.Graph
