import IceKernel.Lib.Arena
import IceKernel.Memory.PagingSpaces

/-!
# `memory/memmap.cpp`: memory ranges

`pagemap_t`, `memmap::global` and `memmap::local` are objects that point at
each other. They are never destroyed here, nor is memory given back: the
allocators are taken to hand out nothing twice.
-/

namespace IceKernel.Memmap
open Word64 RadixTree Paging

/-! The constants of `memory::paging::memmap` that the functions below use. -/

def mapShared : BitVec 32 := 0x01
def mapPrivate : BitVec 32 := 0x02
def mapAnonymous : BitVec 32 := 0x20

def protocolRead : BitVec 32 := 1
def protocolWrite : BitVec 32 := 2
def protocolExec : BitVec 32 := 4

/-- `memmap::local`. The number of a `global` and of a `pagemap_t` stand for the pointers. -/
structure Local where
  global : ℕ
  pagemap : ℕ
  base : ℕ
  length : ℕ
  offset : ℕ
  prot : BitVec 32
  flags : BitVec 32
  deriving DecidableEq, Repr

/-- `memmap::global`. -/
structure Global where
  locals : List ℕ
  shadow : ℕ
  base : ℕ
  length : ℕ
  offset : ℕ
  deriving DecidableEq, Repr

/-- `pagemap_t`, whose page sizes are always `GiB1`, `MiB2` and `KiB4`. -/
structure Pagemap where
  ranges : List ℕ
  topLevel : ℕ
  deriving DecidableEq, Repr

/-- `make_shared` of a `local` and of a `global`: numbers are zero, pointers null. -/
def Local.zero : Local := ⟨0, 0, 0, 0, 0, 0, 0⟩

def Global.zero : Global := ⟨[], 0, 0, 0, 0⟩

/-- The surroundings, with `physical::alloc` for one frame: page-aligned, in the direct map, and in
use by nobody. -/
structure Host (A : Type) extends Machine A where
  allocFrame : A → Option (ℕ × A)
  frame_addr : ∀ {s q s'}, allocFrame s = some (q, s') →
    0 < q ∧ q % KiB4 = 0 ∧ q < hhdm.limit ∧ q < 2 ^ 52
  frame_fresh : ∀ {s q s'}, allocFrame s = some (q, s') → ¬ source.owned s (hhdm.offset + q)
  frame_owned : ∀ {s q s'}, allocFrame s = some (q, s') →
    ∀ x, source.owned s' x ↔ x = hhdm.offset + q ∨ source.owned s x

structure State (A : Type) where
  paging : Paging.State A
  pagemaps : Arena Pagemap
  globals : Arena Global
  locals : Arena Local

variable {A : Type} (H : Host A)

/-- The top level of a pagemap. -/
def State.top (st : State A) (m : ℕ) : ℕ := (st.pagemaps.get m).topLevel

/-! ## `global::map_page` -/

/-- The flags of `map_page`. -/
def protFlags (prot : BitVec 32) : BitVec 64 :=
  let flags := USER
  let flags := if prot &&& protocolRead ≠ 0 then flags ||| READ else flags
  let flags := if prot &&& protocolWrite ≠ 0 then flags ||| WRITE else flags
  if prot &&& protocolExec ≠ 0 then flags ||| EXEC else flags

/-- `address` lies in the range; the sum wraps. -/
def Local.Covers (l : Local) (address : ℕ) : Prop :=
  ¬ (address < l.base ∨ wrap (l.base + l.length) ≤ address)

instance (l : Local) (address : ℕ) : Decidable (l.Covers address) :=
  inferInstanceAs (Decidable (¬ _))

/-- The loop of `map_page` over `locals`. -/
def mapLocals (virtualAddress physicalAddress : ℕ) (flags : BitVec 64) :
    List ℕ → State A → Option (Bool × State A)
  | [], st => some (true, st)
  | l :: ls, st =>
    let loc := st.locals.get l
    if loc.Covers virtualAddress then
      (map H.toMachine (st.top loc.pagemap) virtualAddress physicalAddress flags defaultCaching
        st.paging).bind fun (ok, paging) =>
          if ok then mapLocals virtualAddress physicalAddress flags ls { st with paging := paging }
          else some (false, { st with paging := paging })
    else mapLocals virtualAddress physicalAddress flags ls st

/-- `global::map_page`. -/
def mapPage (g virtualAddress physicalAddress : ℕ) (prot : BitVec 32) (st : State A) :
    Option (Bool × State A) :=
  let flags := protFlags prot
  (map H.toMachine (st.top (st.globals.get g).shadow) virtualAddress physicalAddress flags
    defaultCaching st.paging).bind fun (ok, paging) =>
      if ok then
        mapLocals H virtualAddress physicalAddress flags (st.globals.get g).locals
          { st with paging := paging }
      else some (false, { st with paging := paging })

/-! ## `pagemap_t::address_to_range` -/

/-- `pagemap_t::address_to_range`: the first range with the address, the page of the address, and
the page in the range. -/
def addressToRange (m address : ℕ) (st : State A) : Option (ℕ × ℕ × ℕ) :=
  ((st.pagemaps.get m).ranges.find? fun l => (st.locals.get l).Covers address).map fun l =>
    let loc := st.locals.get l
    let mapPage := address / KiB4
    let page := wrap (loc.offset / KiB4 + sub mapPage (loc.base / KiB4))
    (l, mapPage, page)

/-! ## `pagemap_t::pagemap_t` and `pagemap_t::map_range` -/

/-- `new pagemap_t` once `kernel_pagemap`, with top level `k`, is there. -/
def newPagemap (k : ℕ) (st : State A) : Option (ℕ × State A) :=
  (construct H.toMachine (some k) st.paging).map fun (topLevel, paging) =>
    (st.pagemaps.size, { st with
      paging := paging
      pagemaps := st.pagemaps.push ⟨[], topLevel⟩ })

/-- The loop of `map_range`, from offset `i` on with `n` rounds to go. -/
def mapPages (g virtualAddress physicalAddress : ℕ) (prot : BitVec 32) :
    ℕ → ℕ → State A → Option (Bool × State A)
  | 0, _, st => some (true, st)
  | n + 1, i, st =>
    (mapPage H g (wrap (virtualAddress + i)) (wrap (physicalAddress + i)) prot st).bind
      fun (ok, st) =>
        if ok then mapPages g virtualAddress physicalAddress prot n (i + KiB4) st
        else some (false, st)

/-- `pagemap_t::map_range` with a length. It leaves the length of the `local` as `make_shared` made
it. -/
def mapRange (k m virtualAddress physicalAddress length : ℕ) (prot flags : BitVec 32)
    (st : State A) : Option (Bool × State A) :=
  let flags := flags ||| mapAnonymous
  let alignedVirtualAddress := alignDown virtualAddress KiB4
  let alignedLength :=
    alignUp (wrap (length + sub virtualAddress alignedVirtualAddress)) KiB4
  (newPagemap H k st).bind fun (shadow, st) =>
    let g := st.globals.size
    let l := st.locals.size
    let glob := { Global.zero with
      shadow := shadow, base := alignedVirtualAddress, length := alignedLength, locals := [l] }
    let loc := { Local.zero with
      global := g, pagemap := m, base := alignedVirtualAddress, prot := prot, flags := flags }
    let this := st.pagemaps.get m
    mapPages H g alignedVirtualAddress physicalAddress prot (alignedLength / KiB4) 0
      { st with
        globals := st.globals.push glob
        locals := st.locals.push loc
        pagemaps := st.pagemaps.set m { this with ranges := this.ranges ++ [l] } }

/-! ## `pagemap_t::fork` -/

/-- The rounds of a loop over the pages from `start` to `stop`. -/
def rounds (start stop : ℕ) : ℕ := (stop - start + (KiB4 - 1)) / KiB4

/-- The loop of the shared branch: the entries of the parent's page tables are copied as they are.
A store through a null pointer does not return. -/
def sharePages (parent child : ℕ) : ℕ → ℕ → Paging.State A → Option (Paging.State A)
  | 0, _, st => some st
  | n + 1, i, st =>
    (virtualToPtEntry H.toMachine parent i false KiB4 st).bind fun (oldPtEntry, st) =>
      match oldPtEntry with
      | none => sharePages parent child n (i + KiB4) st
      | some (t, j) =>
        let value := st.mem t j
        (virtualToPtEntry H.toMachine child i true KiB4 st).bind fun (newPtEntry, st) =>
          newPtEntry.bind fun (t, j) =>
            sharePages parent child n (i + KiB4) { st with mem := write st.mem t j value }

/-- `pt_entry_t::get_flags()`. -/
def flagBits (value : BitVec 64) : BitVec 64 := value &&& ~~~paMask

/-- `memcpy` of one page. -/
def copyPage (mem : Mem) (dst src : ℕ) : Mem :=
  Function.update mem dst fun i => if i < 512 then mem src i else mem dst i

/-- One round of the private branch. Both `old_pt_entry` and `new_pt_entry` are looked up in this
pagemap, the parent, and a table is made where there is none. -/
def copyOne (parent shadow i : ℕ) (st : Paging.State A) : Option (Paging.State A) :=
  (virtualToPtEntry H.toMachine parent i true KiB4 st).bind fun (oldPtEntry, st) =>
    match oldPtEntry with
    | none => some st
    | some (t, j) =>
      (virtualToPtEntry H.toMachine parent i true KiB4 st).bind fun (newPtEntry, st) =>
        (virtualToPtEntry H.toMachine shadow i true KiB4 st).bind fun (newShadowPtEntry, st) =>
          let oldPage := getAddress (st.mem t j)
          (H.allocFrame st.heap).bind fun (page, heap) =>
            let mem := copyPage st.mem (tohh H.hhdm.offset page) (tohh H.hhdm.offset oldPage)
            newPtEntry.bind fun (t', j') =>
              let mem := write mem t' j' 0#64
              let mem := write mem t' j' (setFlags (mem t' j') (flagBits (mem t j)) true)
              let mem := write mem t' j' (setAddress (mem t' j') page)
              newShadowPtEntry.map fun (t'', j'') =>
                { st with mem := write mem t'' j'' (mem t' j'), heap := heap }

/-- The loop of the private branch. -/
def copyPages (parent shadow : ℕ) : ℕ → ℕ → Paging.State A → Option (Paging.State A)
  | 0, _, st => some st
  | n + 1, i, st =>
    (copyOne H parent shadow i st).bind fun st => copyPages parent shadow n (i + KiB4) st

/-- What `fork` does for one range of the pagemap `m`. The copy of the `local` keeps its `pagemap`
and its `global`; in the private branch `new_global` is dropped at the end. -/
def forkRange (k m child l : ℕ) (st : State A) : Option (State A) :=
  let loc := st.locals.get l
  let glob := st.globals.get loc.global
  let newLocal := st.locals.size
  let st := { st with locals := st.locals.push loc }
  let stop := wrap (loc.base + loc.length)
  let copied : Option (State A) :=
    if loc.flags &&& mapShared ≠ 0 then
      let st := { st with
        globals := st.globals.set loc.global { glob with locals := glob.locals ++ [newLocal] } }
      (sharePages H (st.top m) (st.top child) (rounds loc.base stop) loc.base st.paging).map
        fun paging => { st with paging := paging }
    else
      (newPagemap H k st).bind fun (shadow, st) =>
        let newGlobal := { glob with shadow := shadow, locals := [newLocal] }
        let st := { st with globals := st.globals.push newGlobal }
        let start := (loc.flags.signExtend 64).toNat
        (copyPages H (st.top m) (st.top shadow) (rounds start stop) start st.paging).map
          fun paging => { st with paging := paging }
  copied.map fun st =>
    let pagemap := st.pagemaps.get child
    { st with
      pagemaps := st.pagemaps.set child { pagemap with ranges := pagemap.ranges ++ [newLocal] } }

/-- The loop of `fork` over the ranges. -/
def forkRanges (k m child : ℕ) : List ℕ → State A → Option (State A)
  | [], st => some st
  | l :: ls, st => (forkRange H k m child l st).bind fun st => forkRanges k m child ls st

/-- `pagemap_t::fork`. -/
def fork (k m : ℕ) (st : State A) : Option (ℕ × State A) :=
  (newPagemap H k st).bind fun (child, st) =>
    (forkRanges H k m child (st.pagemaps.get m).ranges st).map fun st => (child, st)

/-- The objects when there is `kernel_pagemap` only. -/
def boot (k : ℕ) (paging : Paging.State A) : State A :=
  ⟨paging, ⟨fun _ => ⟨[], k⟩, 1⟩, ⟨fun _ => Global.zero, 0⟩, ⟨fun _ => Local.zero, 0⟩⟩

/-- A host that hands out tables and frames in order. -/
def orderedHost : Host ℕ where
  toMachine := orderedMachine false
  allocFrame n := if 0 < n ∧ n < 0x1000 then some (n * KiB4, n + 1) else none
  frame_addr {s q s'} he := by
    split_ifs at he with hs
    simp only [Option.some.injEq, Prod.mk.injEq] at he
    obtain ⟨rfl, rfl⟩ := he
    refine ⟨Nat.mul_pos hs.1 (by decide), Nat.mul_mod_left _ _, ?_, ?_⟩
    · unfold KiB4 orderedMachine Physical.smallHhdm
      dsimp only
      omega
    · unfold KiB4
      omega
  frame_fresh {s q s'} he := by
    split_ifs at he with hs
    simp only [Option.some.injEq, Prod.mk.injEq] at he
    rintro ⟨n, hn, heq⟩
    have hq : q = n * KiB4 := Nat.add_left_cancel heq
    unfold KiB4 at he hq
    omega
  frame_owned {s q s'} he x := by
    split_ifs at he with hs
    simp only [Option.some.injEq, Prod.mk.injEq] at he
    obtain ⟨rfl, rfl⟩ := he
    exact orderedSource.alloc_owned (if_pos hs.2) x

end IceKernel.Memmap
