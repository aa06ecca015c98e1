import IceKernel.Lib.RadixTree
import IceKernel.Memory.PagingEntry

/-!
# `arch/x86_64/memory/virtual.cpp`: page tables

Memory is seen through the direct map as pages of 512 words: `mem t i` is
word `i` of the page at `t`. An operation that yields `none` did not return,
because `new page_table_t` did not.
-/

namespace IceKernel.Paging
open Word64 RadixTree

abbrev Mem := ℕ → ℕ → BitVec 64

/-- `new page_table_t`: tables that are page-aligned, in the direct map, and never handed out
twice. Clearing them is done by the constructor of `page_table_t`, in `getNextLvl`. -/
structure TableSource (h : Hhdm) (A : Type) where
  alloc : A → Option (ℕ × A)
  owned : A → ℕ → Prop
  alloc_addr : ∀ {s q s'}, alloc s = some (q, s') →
    ∃ a, q = h.offset + a ∧ a % KiB4 = 0 ∧ a < h.limit ∧ a < 2 ^ 52
  alloc_fresh : ∀ {s q s'}, alloc s = some (q, s') → ¬ owned s q
  alloc_owned : ∀ {s q s'}, alloc s = some (q, s') → ∀ x, owned s' x ↔ x = q ∨ owned s x

/-- The surroundings: the direct map, the allocator, and the static `gib1_pages`. -/
structure Machine (A : Type) where
  hhdm : Hhdm
  source : TableSource hhdm A
  gib1Pages : Bool

/-- `tables` and `visited` are ghosts: the tables allocated so far, and the tables that
`get_next_lvl` returned. -/
structure State (A : Type) where
  mem : Mem
  heap : A
  tables : List ℕ
  visited : List ℕ

variable {A : Type} (K : Machine A)

/-- `invalid_addr`. -/
def invalidAddr : ℕ := 2 ^ 64 - 1

/-- `new page_table_t`. -/
def newTable (st : State A) : Option (ℕ × State A) :=
  (K.source.alloc st.heap).map fun (ret, heap) =>
    (ret, { st with
      mem := Function.update st.mem ret fun _ => 0#64
      heap := heap
      tables := ret :: st.tables })

/-- `get_next_lvl`; 0 is `nullptr`. -/
def getNextLvl (currLvl entry : ℕ) (allocate : Bool) (st : State A) : Option (ℕ × State A) :=
  if currLvl = 0 then some (0, st)
  else if getFlags (st.mem currLvl entry) present then
    let ret := tohh K.hhdm.offset (getAddress (st.mem currLvl entry))
    some (ret, { st with visited := ret :: st.visited })
  else if allocate then
    (newTable K st).map fun (ret, st) =>
      let value := setAddress (st.mem currLvl entry) (fromhh K.hhdm.offset ret)
      (ret, { st with
        mem := write st.mem currLvl entry (setFlags value (present ||| writable ||| userSuper) true)
        visited := ret :: st.visited })
  else some (0, st)

/-- `(virtual_address & (0x1FF << shift)) >> shift`. -/
def tableIndex (virtualAddress shift : ℕ) : ℕ := (virtualAddress &&& (0x1FF <<< shift)) >>> shift

/-- `pagemap_t::virtual_to_pt_entry`. An entry pointer is a table and an index in it. The
constructor of `pagemap_t` gives every pagemap the sizes `GiB1`, `MiB2` and `KiB4`. -/
def virtualToPtEntry (topLevel virtualAddress : ℕ) (allocate : Bool) (pageSize : ℕ)
    (st : State A) : Option (Option (ℕ × ℕ) × State A) :=
  let pml4Entry := tableIndex virtualAddress 39
  let pml3Entry := tableIndex virtualAddress 30
  let pml2Entry := tableIndex virtualAddress 21
  let pml1Entry := tableIndex virtualAddress 12
  if topLevel = 0 then some (none, st)
  else
    (getNextLvl K topLevel pml4Entry allocate st).bind fun (pml3, st) =>
      if pml3 = 0 then some (none, st)
      else if pageSize = GiB1 then some (some (pml3, pml3Entry), st)
      else
        (getNextLvl K pml3 pml3Entry allocate st).bind fun (pml2, st) =>
          if pml2 = 0 then some (none, st)
          else if pageSize = MiB2 then some (some (pml2, pml2Entry), st)
          else
            (getNextLvl K pml2 pml2Entry allocate st).bind fun (pml1, st) =>
              if pml1 = 0 then some (none, st)
              else some (some (pml1, pml1Entry), st)

/-- `pagemap_t::get_page_size`. -/
def getPageSize (flags : BitVec 64) : ℕ :=
  let pageSize := KiB4
  let pageSize := if getFlags flags LPAGE then MiB2 else pageSize
  if getFlags flags LLPAGE then GiB1 else pageSize

/-- `pagemap_t::virtual_to_physical`. -/
def virtualToPhysical (topLevel virtualAddress : ℕ) (flags : BitVec 64) (st : State A) :
    Option (ℕ × State A) :=
  let pageSize := getPageSize flags
  (virtualToPtEntry K topLevel virtualAddress false pageSize st).map fun (entry, st) =>
    match entry with
    | none => (invalidAddr, st)
    | some (t, i) =>
      if !getFlags (st.mem t i) present then (invalidAddr, st)
      else (wrap (getAddress (st.mem t i) + virtualAddress % pageSize), st)

/-- The lambda `map_one` of `map`. -/
def mapOne (topLevel virtualAddress physicalAddress : ℕ) (flags : BitVec 64) (cache : Caching)
    (pageSize : ℕ) (st : State A) : Option (Bool × State A) :=
  (virtualToPtEntry K topLevel virtualAddress true pageSize st).map fun (entry, st) =>
    match entry with
    | none => (false, st)
    | some (t, i) =>
      let value := setAddress (st.mem t i) physicalAddress
      let value := setFlags value (realFlags flags cache (pageSize ≠ KiB4)) true
      (true, { st with mem := write st.mem t i value })

/-- The loop of `map` over 2 MiB pages, from offset `i` on with `n` rounds to go. -/
def mapLoop (topLevel virtualAddress physicalAddress : ℕ) (flags : BitVec 64) (cache : Caching) :
    ℕ → ℕ → State A → Option (Bool × State A)
  | 0, _, st => some (true, st)
  | n + 1, i, st =>
    (mapOne K topLevel (wrap (virtualAddress + i)) (wrap (physicalAddress + i)) flags cache MiB2
      st).bind fun (ok, st) =>
        if ok then mapLoop topLevel virtualAddress physicalAddress flags cache n (i + MiB2) st
        else some (false, st)

/-- `pagemap_t::map`. -/
def map (topLevel virtualAddress physicalAddress : ℕ) (flags : BitVec 64) (cache : Caching)
    (st : State A) : Option (Bool × State A) :=
  let pageSize := getPageSize flags
  if pageSize = GiB1 ∧ K.gib1Pages = false then
    let flags := (flags &&& ~~~LLPAGE) ||| LPAGE
    mapLoop K topLevel virtualAddress physicalAddress flags cache (GiB1 / MiB2) 0 st
  else mapOne K topLevel virtualAddress physicalAddress flags cache pageSize st

/-- The lambda `unmap_one` of `unmap`. It captures `this`, so its `page_size` is the member, the
size of the smallest page. -/
def unmapOne (topLevel virtualAddress : ℕ) (st : State A) : Option (Bool × State A) :=
  (virtualToPtEntry K topLevel virtualAddress false KiB4 st).map fun (entry, st) =>
    match entry with
    | none => (false, st)
    | some (t, i) => (true, { st with mem := write st.mem t i 0#64 })

/-- The loop of `unmap` over 2 MiB pages. -/
def unmapLoop (topLevel virtualAddress : ℕ) : ℕ → ℕ → State A → Option (Bool × State A)
  | 0, _, st => some (true, st)
  | n + 1, i, st =>
    (unmapOne K topLevel (wrap (virtualAddress + i)) st).bind fun (ok, st) =>
      if ok then unmapLoop topLevel virtualAddress n (i + MiB2) st else some (false, st)

/-- `pagemap_t::unmap`. -/
def unmap (topLevel virtualAddress : ℕ) (flags : BitVec 64) (st : State A) :
    Option (Bool × State A) :=
  let pageSize := getPageSize flags
  if pageSize = GiB1 ∧ K.gib1Pages = false then
    unmapLoop K topLevel virtualAddress (GiB1 / MiB2) 0 st
  else unmapOne K topLevel virtualAddress st

/-- `pagemap_t::set_flags`. -/
def setFlagsAt (topLevel virtualAddress : ℕ) (flags : BitVec 64) (cache : Caching)
    (st : State A) : Option (Bool × State A) :=
  let pageSize := getPageSize flags
  (virtualToPtEntry K topLevel virtualAddress true pageSize st).map fun (entry, st) =>
    match entry with
    | none => (false, st)
    | some (t, i) =>
      let value := setAddress 0#64 (getAddress (st.mem t i))
      let value := setFlags value (realFlags flags cache (pageSize ≠ KiB4)) true
      (true, { st with mem := write st.mem t i value })

/-- The first loop of the constructor: `n` entries from `i` on get a table. -/
def fillUpperHalf (topLevel : ℕ) : ℕ → ℕ → State A → Option (State A)
  | 0, _, st => some st
  | n + 1, i, st =>
    (getNextLvl K topLevel i true st).bind fun (_, st) => fillUpperHalf topLevel n (i + 1) st

/-- The second loop of the constructor: `n` entries from `i` on are copied. -/
def copyUpperHalf (topLevel kernelTop : ℕ) (mem : Mem) : ℕ → ℕ → Mem
  | 0, _ => mem
  | n + 1, i => copyUpperHalf topLevel kernelTop (write mem topLevel i (mem kernelTop i)) n (i + 1)

/-- `pagemap_t::pagemap_t`; `kernelTop` is the top level of `kernel_pagemap`, unless that is
`nullptr`. -/
def construct (kernelTop : Option ℕ) (st : State A) : Option (ℕ × State A) :=
  (newTable K st).bind fun (topLevel, st) =>
    match kernelTop with
    | none => (fillUpperHalf K topLevel 256 256 st).map fun st => (topLevel, st)
    | some k =>
      some (topLevel, { st with mem := copyUpperHalf topLevel k st.mem 256 256 })

/-- `is_canonical`. -/
def isCanonical (address : ℕ) : Bool :=
  address ≤ 0x00007FFFFFFFFFFF || address ≥ 0xFFFF800000000000

end IceKernel.Paging
