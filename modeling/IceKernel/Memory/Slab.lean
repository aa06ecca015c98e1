import IceKernel.Libc.Memory
import IceKernel.Utils.Math
import Mathlib.Data.List.FinRange
import Mathlib.Data.Fin.VecNotation

/-!
# `memory/memory.cpp`: the slab allocator

Memory is one byte array addressed by the kernel's virtual addresses. The
page allocator is a parameter: `PageSource` says what this file relies on. An
operation that yields `none` did not return, because the page allocator
panicked or a pointer was followed to something that is not a `slab_t`.
-/

namespace IceKernel.Slab
open ByteMemory Word64

/-- Two runs of pages `(address, count)` do not overlap. -/
def RunsApart (x y : ℕ × ℕ) : Prop := x.1 + x.2 * 0x1000 ≤ y.1 ∨ y.1 + y.2 * 0x1000 ≤ x.1

/-- `physical::alloc` and `physical::free` as the slab code uses them: runs of pages that are
aligned, lie in the direct map, never overlap while live, and arrive zeroed. -/
structure PageSource (h : Hhdm) (P : Type) where
  alloc : ℕ → P → Mem → Option (ℕ × P × Mem)
  free : ℕ → ℕ → P → P
  live : P → ℕ × ℕ → Prop
  aligned : ∀ {p x}, live p x → x.1 % 0x1000 = 0
  inWindow : ∀ {p x}, live p x → x.1 + x.2 * 0x1000 ≤ h.limit
  apart : ∀ {p x y}, live p x → live p y → x ≠ y → RunsApart x y
  alloc_fresh : ∀ {n p m a p' m'}, 0 < n → alloc n p m = some (a, p', m') → ¬ live p (a, n)
  alloc_live : ∀ {n p m a p' m'}, 0 < n → alloc n p m = some (a, p', m') →
    ∀ x, live p' x ↔ x = (a, n) ∨ live p x
  alloc_zeroed : ∀ {n p m a p' m'}, 0 < n → alloc n p m = some (a, p', m') →
    Filled m' (h.offset + a) (n * 0x1000) 0#8
  alloc_frame : ∀ {n p m a p' m'}, 0 < n → alloc n p m = some (a, p', m') →
    SameOutside m m' (h.offset + a) (n * 0x1000)
  free_live : ∀ {n p a}, 0 < n → live p (a, n) →
    ∀ x, live (free a n p) x ↔ live p x ∧ x ≠ (a, n)

/-- The surroundings of the allocator: the direct map, the page allocator, and the address of
the static `slab_allocator` object. -/
structure Kernel (P : Type) where
  hhdm : Hhdm
  source : PageSource hhdm P
  base : ℕ
  base_lt : base + 168 < 2 ^ 64

/-- `slab_t`. -/
structure SlabT where
  head : ℕ
  size : ℕ

/-- The state of the allocator. `carved` is a ghost: the pages each slab was given. -/
structure Heap (P : Type) where
  slabs : Fin 10 → SlabT
  mem : Mem
  phys : P
  carved : Fin 10 → List ℕ

variable {P : Type} (K : Kernel P)

/-- `&this->slabs[i]`: eight bytes for `initialized`, then sixteen for each `slab_t`. -/
def Kernel.slabAddr (i : Fin 10) : ℕ := K.base + 8 + 16 * i

/-- The slab a stored `slab_t*` points to. -/
def Kernel.slabAt (addr : ℕ) : Option (Fin 10) :=
  (List.finRange 10).find? fun i => K.slabAddr i = addr

/-- The bytes `slab_t::init` keeps for the `slab_header` of a page. -/
def headerSpace (size : ℕ) : ℕ := alignUp 8 size

/-- The first loop of `slab_t::init`: `array[i * count] = &array[(i + 1) * count]`. -/
def linkLoop (m : Mem) (array count : ℕ) : ℕ → Mem
  | 0 => m
  | i + 1 =>
    store64 (linkLoop m array count i) (array + 8 * (i * count)) (array + 8 * ((i + 1) * count))

/-- The writes of `slab_t::init` to the page at `page`. -/
def carve (m : Mem) (page owner size : ℕ) : Mem :=
  let available := sub 0x1000 (headerSpace size)
  let m := store64 m page owner
  let array := wrap (page + headerSpace size)
  let max := sub (available / size) 1
  let count := size / 8
  store64 (linkLoop m array count max) (array + 8 * (max * count)) 0

/-- `slab_t::init`. -/
def slabInit (i : Fin 10) (size : ℕ) (st : Heap P) : Option (Heap P) :=
  (K.source.alloc 1 st.phys st.mem).map fun (a, phys, m) =>
    let page := tohh K.hhdm.offset a
    { slabs := Function.update st.slabs i ⟨wrap (page + headerSpace size), size⟩
      mem := carve m page (K.slabAddr i) size
      phys := phys
      carved := Function.update st.carved i (page :: st.carved i) }

/-- The end of `slab_t::alloc`: unlink the head and clear its slot. -/
def popHead (i : Fin 10) (st : Heap P) : ℕ × Heap P :=
  let slab := st.slabs i
  (slab.head, { st with
    slabs := Function.update st.slabs i ⟨load64 st.mem slab.head, slab.size⟩
    mem := memset st.mem slab.head 0#8 slab.size })

/-- `slab_t::alloc`. -/
def slabAlloc (i : Fin 10) (st : Heap P) : Option (ℕ × Heap P) :=
  if (st.slabs i).head = 0 then (slabInit K i (st.slabs i).size st).map (popHead i)
  else some (popHead i st)

/-- `slab_t::free`. -/
def slabFree (i : Fin 10) (ptr : ℕ) (st : Heap P) : Heap P :=
  if ptr = 0 then st
  else
    { st with
      slabs := Function.update st.slabs i ⟨ptr, (st.slabs i).size⟩
      mem := store64 st.mem ptr (st.slabs i).head }

/-- The object sizes the constructor passes to `init`. -/
def classSize : Fin 10 → ℕ := ![16, 32, 48, 80, 128, 192, 288, 448, 672, 1024]

/-- The `init` calls of the constructor, for the slabs listed. -/
def initSlabs : List (Fin 10) → Heap P → Option (Heap P)
  | [], st => some st
  | i :: is, st => (slabInit K i (classSize i) st).bind (initSlabs is)

/-- `slab_allocator::slab_allocator`. -/
def construct (phys : P) (m : Mem) : Option (Heap P) :=
  initSlabs K (List.finRange 10) ⟨fun _ => ⟨0, 0⟩, m, phys, fun _ => []⟩

/-- `slab_allocator::get_slab`. -/
def getSlab (size : ℕ) (st : Heap P) : Option (Fin 10) :=
  (List.finRange 10).find? fun i => size ≤ (st.slabs i).size

/-- `slab_allocator::big_malloc`; `big_alloc_meta` is `pages` and then `size`. -/
def bigMalloc (size : ℕ) (st : Heap P) : Option (ℕ × Heap P) :=
  let pages := divRoundup size 0x1000
  (K.source.alloc (wrap (pages + 1)) st.phys st.mem).map fun (a, phys, m) =>
    let ptr := tohh K.hhdm.offset a
    (wrap (ptr + 0x1000),
      { st with mem := store64 (store64 m ptr pages) (ptr + 8) size, phys := phys })

/-- `slab_allocator::malloc`. -/
def malloc (size : ℕ) (st : Heap P) : Option (ℕ × Heap P) :=
  match getSlab size st with
  | none => bigMalloc K size st
  | some i => slabAlloc K i st

/-- `slab_allocator::calloc`. -/
def calloc (num size : ℕ) (st : Heap P) : Option (ℕ × Heap P) :=
  (malloc K (wrap (num * size)) st).map fun (ptr, st) =>
    if ptr = 0 then (0, st)
    else (ptr, { st with mem := memset st.mem ptr 0#8 (wrap (num * size)) })

/-- `slab_allocator::big_free`. -/
def bigFree (ptr : ℕ) (st : Heap P) : Heap P :=
  let metaData := sub ptr 0x1000
  let pages := load64 st.mem metaData
  { st with phys := K.source.free (fromhh K.hhdm.offset metaData) (wrap (pages + 1)) st.phys }

/-- The slab whose header stands at the start of the page of `ptr`. -/
def ownerOf (ptr : ℕ) (st : Heap P) : Option (Fin 10) :=
  K.slabAt (load64 st.mem (ptr &&& compl64 0xFFF))

/-- `slab_allocator::free`. -/
def free (ptr : ℕ) (st : Heap P) : Option (Heap P) :=
  if ptr = 0 then some st
  else if ptr &&& 0xFFF = 0 then some (bigFree K ptr st)
  else (ownerOf K ptr st).map fun i => slabFree i ptr st

/-- `slab_allocator::alloc_size`. -/
def allocSize (ptr : ℕ) (st : Heap P) : Option ℕ :=
  if ptr = 0 then some 0
  else if ptr &&& 0xFFF = 0 then some (load64 st.mem (sub ptr 0x1000 + 8))
  else (ownerOf K ptr st).map fun i => (st.slabs i).size

/-- The common end of the two `realloc`s: a new block, the bytes copied, the old block freed. -/
def reallocMove (oldPtr oldSize size : ℕ) (st : Heap P) : Option (ℕ × Heap P) :=
  let oldSize := if size < oldSize then size else oldSize
  (malloc K size st).bind fun (newPtr, st) =>
    if newPtr = 0 then some (oldPtr, st)
    else
      (free K oldPtr { st with mem := memcpy st.mem newPtr oldPtr oldSize }).map fun st =>
        (newPtr, st)

/-- `slab_allocator::big_realloc`. -/
def bigRealloc (oldPtr size : ℕ) (st : Heap P) : Option (ℕ × Heap P) :=
  if oldPtr = 0 then malloc K size st
  else
    let metaData := sub oldPtr 0x1000
    let oldSize := load64 st.mem (metaData + 8)
    if divRoundup oldSize 0x1000 = divRoundup size 0x1000 then
      some (0, { st with mem := store64 st.mem (metaData + 8) size })
    else if size = 0 then (free K oldPtr st).map fun st => (0, st)
    else reallocMove K oldPtr oldSize size st

/-- `slab_allocator::realloc`. -/
def realloc (oldPtr size : ℕ) (st : Heap P) : Option (ℕ × Heap P) :=
  if oldPtr = 0 then malloc K size st
  else if oldPtr &&& 0xFFF = 0 then bigRealloc K oldPtr size st
  else
    (ownerOf K oldPtr st).bind fun i =>
      if size = 0 then (free K oldPtr st).map fun st => (0, st)
      else reallocMove K oldPtr (st.slabs i).size size st

end IceKernel.Slab
