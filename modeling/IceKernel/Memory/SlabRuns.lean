import IceKernel.Lib.Run
import IceKernel.Memory.SlabOps
import IceKernel.Memory.PhysicalSource

/-!
# The slab allocator over whole runs

A run is any finite sequence of `malloc`, `calloc` and `free` calls after the
constructor, with user writes inside live blocks between them. Requests do
not wrap 64 bits and `free` receives live pointers only.
-/

namespace IceKernel.Slab
open ByteMemory Word64 LinkedList

variable {P : Type} {K : Kernel P} {st st' : Heap P} {live : List (ℕ × ℕ)}

/-- The allocator is in order, with these blocks live. -/
def HeapOk (K : Kernel P) (st : Heap P) (live : List (ℕ × ℕ)) : Prop :=
  Sized st ∧ ∃ fl, HeapInv K st live fl

/-! ## The calls -/

theorem getSlab_eq (hs : Sized st) (n : ℕ) : getSlab n st = classFor n := by
  simp only [getSlab, classFor, hs _]

theorem Sized.update (hs : Sized st) {i : Fin 10} {head : ℕ} {m : Mem} {phys : P}
    {carved : Fin 10 → List ℕ} :
    Sized ⟨Function.update st.slabs i ⟨head, classSize i⟩, m, phys, carved⟩ := by
  intro j
  by_cases hj : j = i
  · subst hj
    simp
  · simpa [hj] using hs j

theorem slabAlloc_spec (h : HeapOk K st live) {i : Fin 10} {n q : ℕ} (hn : classFor n = some i)
    (he : slabAlloc K i st = some (q, st')) :
    HeapOk K st' ((q, n) :: live) ∧ KeepsBlocks live st.mem st'.mem ∧
      Filled st'.mem q (capacity n) 0#8 := by
  obtain ⟨hs, fl, hi⟩ := h
  rw [slabAlloc] at he
  split_ifs at he with hhead
  · rw [hs i] at he
    obtain ⟨st1, hinit, hpop⟩ := Option.map_eq_some_iff.mp he
    -- the list was empty: carve a new page first, then take its first slot
    have hfl : fl i = [] := by
      have hc := hi.chain i
      rw [hhead] at hc
      exact hc.eq_nil
    obtain ⟨page, hi1, hslabs, hk1⟩ := hi.init hfl hinit
    have hs1 : Sized st1 := by
      have := @Sized.update P st hs i (page + headerSpace (classSize i)) st1.mem st1.phys st1.carved
      rwa [← hslabs] at this
    have hhead1 : (st1.slabs i).head ≠ 0 := by
      have := (class_layout i).2.2.2.1
      rw [hslabs, Function.update_self]
      dsimp only
      omega
    obtain ⟨rest, -, hi2, hk2, hz⟩ := hi1.pop hn (hs1 i) hhead1
    rw [hpop] at hi2 hk2 hz
    refine ⟨⟨?_, _, hi2⟩, fun b hb k hk => (hk2 b hb k hk).trans (hk1 b hb k hk), hz⟩
    rw [popHead, hs1 i, Prod.mk.injEq] at hpop
    rw [← hpop.2]
    exact hs1.update
  · obtain ⟨rest, -, hi2, hk2, hz⟩ := hi.pop hn (hs i) hhead
    have hpop : popHead i st = (q, st') := by simpa using he
    rw [hpop] at hi2 hk2 hz
    refine ⟨⟨?_, _, hi2⟩, hk2, hz⟩
    rw [popHead, hs i, Prod.mk.injEq] at hpop
    rw [← hpop.2]
    exact hs.update

theorem malloc_spec (h : HeapOk K st live) {n q : ℕ} (hw : n + 0xFFF < 2 ^ 64)
    (he : malloc K n st = some (q, st')) :
    HeapOk K st' ((q, n) :: live) ∧ KeepsBlocks live st.mem st'.mem ∧
      Filled st'.mem q (capacity n) 0#8 := by
  rw [malloc, getSlab_eq h.1] at he
  cases hn : classFor n with
  | some i =>
    rw [hn] at he
    exact slabAlloc_spec h hn he
  | none =>
    rw [hn] at he
    obtain ⟨hs, fl, hi⟩ := h
    obtain ⟨hi', hk, hz, hslabs⟩ := hi.bigAlloc hn hw he
    refine ⟨⟨fun j => ?_, fl, hi'⟩, hk, hz⟩
    rw [hslabs]
    exact hs j

/-- `malloc` fails to return only when the page allocator does. -/
theorem malloc_eq_none {n : ℕ} (hw : n + 0xFFF < 2 ^ 64) (he : malloc K n st = none) :
    ∃ k, 0 < k ∧ K.source.alloc k st.phys st.mem = none := by
  rw [malloc] at he
  split at he
  · refine ⟨_, ?_, by simpa [bigMalloc] using he⟩
    rw [wrap_of_lt (HeapInv.pages_lt hw)]
    exact Nat.succ_pos _
  · refine ⟨1, Nat.one_pos, ?_⟩
    rw [slabAlloc] at he
    split_ifs at he
    simpa [slabInit] using he

theorem HeapOk.ptr_pos (h : HeapOk K st live) {b : ℕ × ℕ} (hb : b ∈ live) : 0 < b.1 := by
  obtain ⟨-, fl, hi⟩ := h
  obtain ⟨r, -, -, hkind⟩ := hi.block_run hb
  rcases hkind with ⟨i, -, -, h1⟩ | ⟨-, -, h1⟩ <;> omega

theorem HeapOk.write (h : HeapOk K st live) {b : ℕ × ℕ} (hb : b ∈ live) {m' : Mem}
    (hm : SameOutside st.mem m' b.1 (capacity b.2)) : HeapOk K { st with mem := m' } live := by
  obtain ⟨hs, fl, hi⟩ := h
  exact ⟨hs, fl, hi.write hb hm⟩

theorem calloc_spec (h : HeapOk K st live) {num size q : ℕ} (hw : num * size + 0xFFF < 2 ^ 64)
    (he : calloc K num size st = some (q, st')) :
    HeapOk K st' ((q, num * size) :: live) ∧ KeepsBlocks live st.mem st'.mem ∧
      Filled st'.mem q (capacity (num * size)) 0#8 := by
  rw [calloc, wrap_of_lt (by omega)] at he
  obtain ⟨⟨p, st1⟩, hm, heq⟩ := Option.map_eq_some_iff.mp he
  obtain ⟨hok, hk, hz⟩ := malloc_spec h hw hm
  have hp : p ≠ 0 := (hok.ptr_pos List.mem_cons_self).ne'
  simp only [hp, if_false, Prod.mk.injEq] at heq
  obtain ⟨rfl, rfl⟩ := heq
  have hle := le_capacity hw
  have hout : SameOutside st1.mem (memset st1.mem p 0#8 (num * size)) p
      (capacity (num * size)) :=
    (memset_sameOutside _ _ _ _).mono (Nat.le_refl _) (by omega)
  refine ⟨hok.write List.mem_cons_self hout, fun b hb k hk' => ?_, fun k hk' => ?_⟩
  · obtain ⟨-, fl, hi⟩ := hok
    exact (hi.write_keeps hout b hb k hk').trans (hk b hb k hk')
  · change memset st1.mem p 0#8 (num * size) (p + k) = 0#8
    rw [memset_apply]
    split_ifs
    · rfl
    · exact hz k hk'

/-! ## Finding the owner of a pointer -/

theorem slabAt_slabAddr (K : Kernel P) (i : Fin 10) : K.slabAt (K.slabAddr i) = some i := by
  have hinj (j : Fin 10) : K.slabAddr j = K.slabAddr i ↔ j = i := by
    unfold Kernel.slabAddr
    omega
  simp only [Kernel.slabAt, hinj]
  clear hinj
  revert i
  decide

theorem and_low_page (ptr : ℕ) : ptr &&& 0xFFF = ptr % 0x1000 :=
  Nat.and_two_pow_sub_one_eq_mod ptr 12

/-- Slab pointers are never page-aligned, big ones always are. -/
theorem HeapInv.pageAligned_iff {fl : Fin 10 → List ℕ} (hi : HeapInv K st live fl) {b : ℕ × ℕ}
    (hb : b ∈ live) : b.1 &&& 0xFFF = 0 ↔ classFor b.2 = none := by
  rw [and_low_page]
  have h1 := K.hhdm.aligned
  obtain ⟨r, hr, hend, hkind⟩ := hi.block_run hb
  have h2 := K.source.aligned hr
  rcases hkind with ⟨i, hc, hone, h3⟩ | ⟨hc, -, h3⟩
  · have hpos : 16 ≤ classSize i := (class_layout i).2.1
    have hcap := capacity_slab hc
    simp only [hc, reduceCtorEq, iff_false]
    omega
  · simp only [hc, iff_true]
    omega

/-- The header at `ptr & ~0xFFF` points to the slab the block came from. -/
theorem HeapInv.header_of_block {fl : Fin 10 → List ℕ} (hi : HeapInv K st live fl) {b : ℕ × ℕ}
    (hb : b ∈ live) {i : Fin 10} (hc : classFor b.2 = some i) :
    load64 st.mem (b.1 &&& compl64 0xFFF) = K.slabAddr i := by
  obtain ⟨page, hp, hslot⟩ := mem_carvedSlots.mp (hi.live_slot hb hc)
  have h1 := slot_bounds hslot
  have h2 := hi.page_aligned hp
  have hpos : 16 ≤ classSize i := (class_layout i).2.1
  obtain ⟨a, ha, hrun⟩ := hi.page i page hp
  have h3 := K.source.inWindow hrun
  have h4 := K.hhdm.top_le
  dsimp only at h3
  have hmask : b.1 &&& compl64 0xFFF = page := by
    have := and_compl64_low (n := b.1) (k := 12) (by omega) (by norm_num)
    norm_num at this
    rw [this]
    omega
  rw [hmask]
  exact hi.header i page hp

theorem HeapInv.ownerOf_eq {fl : Fin 10 → List ℕ} (hi : HeapInv K st live fl) {b : ℕ × ℕ}
    (hb : b ∈ live) {i : Fin 10} (hc : classFor b.2 = some i) :
    ownerOf K b.1 st = some i := by
  rw [ownerOf, hi.header_of_block hb hc, slabAt_slabAddr]

/-- `free` goes to the slab of the block, or gives back the run of a big block. -/
theorem free_eq (h : HeapOk K st live) {b : ℕ × ℕ} (hb : b ∈ live) :
    free K b.1 st = some (match classFor b.2 with
      | some i => slabFree i b.1 st
      | none => bigFree K b.1 st) := by
  have hpos := (h.ptr_pos hb).ne'
  obtain ⟨-, fl, hi⟩ := h
  have hal := hi.pageAligned_iff hb
  rw [free, if_neg hpos]
  cases hc : classFor b.2 with
  | none => rw [if_pos (hal.mpr hc)]
  | some i =>
    rw [if_neg (by rw [hal, hc]; exact Option.some_ne_none i), hi.ownerOf_eq hb hc]
    rfl

theorem allocSize_eq (h : HeapOk K st live) {b : ℕ × ℕ} (hb : b ∈ live) :
    allocSize K b.1 st = some (match classFor b.2 with
      | some i => classSize i
      | none => b.2) := by
  have hpos := (h.ptr_pos hb).ne'
  obtain ⟨hs, fl, hi⟩ := h
  have hal := hi.pageAligned_iff hb
  rw [allocSize, if_neg hpos]
  cases hc : classFor b.2 with
  | none =>
    obtain ⟨a, hbig⟩ := hi.big b hb hc
    rw [if_pos (hal.mpr hc), HeapInv.meta_addr hbig hc, hbig.size]
  | some i =>
    rw [if_neg (by rw [hal, hc]; exact Option.some_ne_none i), hi.ownerOf_eq hb hc]
    exact congrArg some (hs i)

/-- `free` of a live pointer returns, and only that block is gone. -/
theorem free_spec {b : ℕ × ℕ} (h : HeapOk K st (b :: live)) :
    ∃ st', free K b.1 st = some st' ∧ HeapOk K st' live ∧ KeepsBlocks live st.mem st'.mem := by
  refine ⟨_, free_eq h List.mem_cons_self, ?_⟩
  obtain ⟨hs, fl, hi⟩ := h
  cases hc : classFor b.2 with
  | some i =>
    obtain ⟨hi', hk⟩ := hi.push hc
    refine ⟨⟨fun j => ?_, _, hi'⟩, hk⟩
    dsimp only [slabFree]
    split_ifs
    · exact hs j
    · rw [hs i]
      exact hs.update j
  | none => exact ⟨⟨hs, fl, hi.bigRelease hc⟩, fun _ _ _ _ => rfl⟩

/-! ## The constructor -/

theorem HeapInv.start (K : Kernel P) (phys : P) (m : Mem) :
    HeapInv K ⟨fun _ => ⟨0, 0⟩, m, phys, fun _ => []⟩ [] fun _ => [] where
  chain _ := Chain.nil
  split _ := List.Perm.refl _
  pages _ := List.nodup_nil
  pagesApart _ _ _ _ hb := absurd hb List.not_mem_nil
  page _ _ hb := absurd hb List.not_mem_nil
  header _ _ hb := absurd hb List.not_mem_nil
  big _ hb := absurd hb List.not_mem_nil
  ptrs := List.nodup_nil

/-- The slabs still to be set up have no pages; the others have their size. -/
theorem initSlabs_spec {is : List (Fin 10)} {fl : Fin 10 → List ℕ} (hnd : is.Nodup)
    (hi : HeapInv K st [] fl) (hnone : ∀ i ∈ is, fl i = [])
    (hsome : ∀ i ∉ is, (st.slabs i).size = classSize i) (he : initSlabs K is st = some st') :
    HeapOk K st' [] := by
  induction is generalizing st fl with
  | nil =>
    obtain rfl : st = st' := by simpa [initSlabs] using he
    exact ⟨fun i => hsome i List.not_mem_nil, fl, hi⟩
  | cons i is ih =>
    rw [List.nodup_cons] at hnd
    obtain ⟨st1, h1, h2⟩ := Option.bind_eq_some_iff.mp he
    obtain ⟨page, hi1, hslabs, -⟩ := hi.init (hnone i List.mem_cons_self) h1
    refine ih hnd.2 hi1 (fun j hj => ?_) (fun j hj => ?_) h2
    · have hji : j ≠ i := fun h => hnd.1 (h ▸ hj)
      rw [Function.update_of_ne hji]
      exact hnone j (List.mem_cons_of_mem _ hj)
    · rw [hslabs]
      by_cases hji : j = i
      · rw [hji, Function.update_self]
      · rw [Function.update_of_ne hji]
        exact hsome j (by simp [hji, hj])

theorem construct_spec {phys : P} {m : Mem} (he : construct K phys m = some st) :
    HeapOk K st [] :=
  initSlabs_spec (List.nodup_finRange 10) (HeapInv.start K phys m) (fun _ _ => rfl)
    (fun i hi => absurd (List.mem_finRange i) hi) he

/-! ## Runs -/

inductive Call where
  | malloc (size : ℕ)
  | calloc (num size : ℕ)
  | free (ptr : ℕ)
  | write (addr : ℕ) (value : BitVec 8)
  deriving DecidableEq

/-- The heap and the live blocks `(pointer, requested size)`. -/
structure Trace (P : Type) where
  heap : Heap P
  live : List (ℕ × ℕ)

/-- One call, or one user write. A request that wraps, a `free` of something not live and a
write outside the live blocks are not made. -/
def step (K : Kernel P) (t : Trace P) : Call → Option (Trace P)
  | .malloc size =>
    if size + 0xFFF < 2 ^ 64 then
      (malloc K size t.heap).map fun (ptr, st) => ⟨st, (ptr, size) :: t.live⟩
    else none
  | .calloc num size =>
    if num * size + 0xFFF < 2 ^ 64 then
      (calloc K num size t.heap).map fun (ptr, st) => ⟨st, (ptr, num * size) :: t.live⟩
    else none
  | .free ptr =>
    if ptr = 0 then (free K ptr t.heap).map fun st => ⟨st, t.live⟩
    else
      (t.live.find? fun b => b.1 = ptr).bind fun b =>
        (free K ptr t.heap).map fun st => ⟨st, t.live.erase b⟩
  | .write addr value =>
    if ∃ b ∈ t.live, b.1 ≤ addr ∧ addr < b.1 + capacity b.2 then
      some { t with heap := { t.heap with mem := Function.update t.heap.mem addr value } }
    else none

theorem HeapOk.perm (h : HeapOk K st live) {live' : List (ℕ × ℕ)} (hp : live.Perm live') :
    HeapOk K st live' := by
  obtain ⟨hs, fl, hi⟩ := h
  exact ⟨hs, fl, hi.perm hp⟩

theorem HeapOk.step {t t' : Trace P} {c : Call} (h : HeapOk K t.heap t.live)
    (he : step K t c = some t') : HeapOk K t'.heap t'.live := by
  cases c with
  | malloc size =>
    rw [Slab.step] at he
    split_ifs at he with hw
    obtain ⟨⟨q, st⟩, hm, rfl⟩ := Option.map_eq_some_iff.mp he
    exact (malloc_spec h hw hm).1
  | calloc num size =>
    rw [Slab.step] at he
    split_ifs at he with hw
    obtain ⟨⟨q, st⟩, hm, rfl⟩ := Option.map_eq_some_iff.mp he
    exact (calloc_spec h hw hm).1
  | free ptr =>
    rw [Slab.step] at he
    split_ifs at he with hp
    · obtain ⟨st, hf, rfl⟩ := Option.map_eq_some_iff.mp he
      obtain rfl : t.heap = st := by simpa [free, hp] using hf
      exact h
    · obtain ⟨b, hb, hrest⟩ := Option.bind_eq_some_iff.mp he
      obtain ⟨st, hf, rfl⟩ := Option.map_eq_some_iff.mp hrest
      -- the pointer names one live block; move it to the front
      have hptr : b.1 = ptr := by simpa using List.find?_some hb
      have hmem := List.mem_of_find?_eq_some hb
      obtain ⟨st1, hf1, hok, -⟩ := free_spec (h.perm (List.perm_cons_erase hmem))
      rw [hptr, hf, Option.some.injEq] at hf1
      rw [hf1]
      exact hok
  | write addr value =>
    rw [Slab.step] at he
    split_ifs at he with hin
    obtain ⟨b, hb, h1, h2⟩ := hin
    obtain rfl := Option.some.inj he
    refine h.write hb fun x hx => ?_
    exact Function.update_of_ne (by omega) _ _

/-! ## What callers may rely on -/

/-- `[a, a + n)` and `[b, b + k)` do not overlap. -/
def Apart (a n b k : ℕ) : Prop := a + n ≤ b ∨ b + k ≤ a

/-- A block `(pointer, requested size)` is large enough, aligned, inside memory of the page
allocator, and clear of all headers and metadata pages. -/
structure BlockOk (K : Kernel P) (st : Heap P) (live : List (ℕ × ℕ)) (b : ℕ × ℕ) : Prop where
  fits : b.2 ≤ capacity b.2
  aligned : b.1 % 16 = 0
  inside : ∃ r, K.source.live st.phys r ∧ K.hhdm.offset + r.1 ≤ b.1 ∧
    b.1 + capacity b.2 ≤ K.hhdm.offset + r.1 + r.2 * 0x1000
  headers : ∀ i, ∀ page ∈ st.carved i, Apart b.1 (capacity b.2) page 8
  metas : ∀ c ∈ live, classFor c.2 = none →
    0x1000 ≤ c.1 ∧ Apart b.1 (capacity b.2) (c.1 - 0x1000) 0x1000

/-- What `malloc` and `calloc` returned: a good block, all zero, apart from every other one. -/
structure Returned (K : Kernel P) (live : List (ℕ × ℕ)) (n q : ℕ) (st : Heap P) : Prop where
  block : BlockOk K st ((q, n) :: live) (q, n)
  zeroed : Filled st.mem q (capacity n) 0#8
  others : ∀ c ∈ live, Apart q (capacity n) c.1 (capacity c.2)

/-- The free list of a slab: finite, without duplicates, ended by 0, and exactly the slots of
the slab's pages that are not live. -/
def FreeListOk (st : Heap P) (live : List (ℕ × ℕ)) (i : Fin 10) : Prop :=
  ∃ l, Chain 0 (load64 st.mem) (st.slabs i).head l ∧ l.Nodup ∧ (carvedSlots st i).Nodup ∧
    (l ++ liveSlots live i).Perm (carvedSlots st i)

/-- `free` and `alloc_size` find where the block came from. -/
structure OwnerOk (K : Kernel P) (st : Heap P) (b : ℕ × ℕ) : Prop where
  pageAligned : b.1 &&& 0xFFF = 0 ↔ classFor b.2 = none
  header : ∀ i, classFor b.2 = some i → b.1 ∈ carvedSlots st i ∧
    load64 st.mem (b.1 &&& compl64 0xFFF) = K.slabAddr i
  allocSize : allocSize K b.1 st = some (match classFor b.2 with
    | some i => classSize i
    | none => b.2)
  free : free K b.1 st = some (match classFor b.2 with
    | some i => slabFree i b.1 st
    | none => bigFree K b.1 st)
  run : classFor b.2 = none → ∃ a, K.source.live st.phys (a, divRoundup b.2 0x1000 + 1) ∧
    b.1 = K.hhdm.offset + a + 0x1000 ∧
    bigFree K b.1 st = { st with phys := K.source.free a (divRoundup b.2 0x1000 + 1) st.phys }

theorem HeapInv.blockOk {fl : Fin 10 → List ℕ} (hi : HeapInv K st live fl) {b : ℕ × ℕ}
    (hb : b ∈ live) : BlockOk K st live b := by
  obtain ⟨r, hr, hend, hkind⟩ := hi.block_run hb
  have hstart : K.hhdm.offset + r.1 ≤ b.1 := by
    rcases hkind with ⟨i, -, -, h1⟩ | ⟨-, -, h1⟩ <;> omega
  have hal := K.source.aligned hr
  have hoff := K.hhdm.aligned
  constructor
  · cases hc : classFor b.2 with
    | some i =>
      rw [capacity_slab hc]
      exact classFor_eq_some hc
    | none =>
      obtain ⟨a, hbig⟩ := hi.big b hb hc
      exact le_capacity hbig.noWrap
  · rcases hkind with ⟨i, hc, -, -⟩ | ⟨-, -, h1⟩
    · obtain ⟨page, hp, hslot⟩ := mem_carvedSlots.mp (hi.live_slot hb hc)
      have h2 := slot_bounds hslot
      have h3 := hi.page_aligned hp
      omega
    · omega
  · exact ⟨r, hr, hstart, hend⟩
  · intro i page hp
    obtain ⟨a, rfl, ha⟩ := hi.page i page hp
    by_cases hra : r = (a, 1)
    · subst hra
      rcases hkind with ⟨i, -, -, h1⟩ | ⟨-, h1, -⟩
      · right
        dsimp only at h1
        omega
      · exact absurd h1 (by norm_num)
    · have hap := K.source.apart hr ha hra
      unfold RunsApart at hap
      unfold Apart
      dsimp only at hap
      omega
  · intro c hcl hc
    obtain ⟨a, hbig⟩ := hi.big c hcl hc
    have hptr := hbig.ptr
    refine ⟨by omega, ?_⟩
    unfold Apart
    by_cases hra : r = (a, divRoundup c.2 0x1000 + 1)
    · subst hra
      have hpos := pages_pos hc hbig.noWrap
      rcases hkind with ⟨i, -, h1, -⟩ | ⟨-, -, h1⟩
      · dsimp only at h1
        omega
      · dsimp only at h1
        omega
    · have hap := K.source.apart hr hbig.run hra
      unfold RunsApart at hap
      dsimp only at hap
      omega

theorem HeapInv.others {fl : Fin 10 → List ℕ} {b : ℕ × ℕ} (hi : HeapInv K st (b :: live) fl)
    {c : ℕ × ℕ} (hc : c ∈ live) : Apart b.1 (capacity b.2) c.1 (capacity c.2) := by
  have hnd := hi.ptrs
  rw [List.map_cons, List.nodup_cons] at hnd
  have hne : b.1 ≠ c.1 := fun he => hnd.1 (he ▸ List.mem_map_of_mem hc)
  exact hi.blocks_apart List.mem_cons_self (List.mem_cons_of_mem _ hc) hne

theorem HeapOk.returned {n q : ℕ} (h : HeapOk K st ((q, n) :: live))
    (hz : Filled st.mem q (capacity n) 0#8) : Returned K live n q st := by
  obtain ⟨-, fl, hi⟩ := h
  exact ⟨hi.blockOk List.mem_cons_self, hz, fun c hc => hi.others hc⟩

theorem HeapInv.freeListOk {fl : Fin 10 → List ℕ} (hi : HeapInv K st live fl) (i : Fin 10) :
    FreeListOk st live i := by
  have hnd := hi.carvedSlots_nodup i
  have hall := (hi.split i).nodup_iff.mpr hnd
  exact ⟨fl i, hi.chain i, (List.nodup_append'.mp hall).1, hnd, hi.split i⟩

theorem HeapOk.ownerOk (h : HeapOk K st live) {b : ℕ × ℕ} (hb : b ∈ live) : OwnerOk K st b := by
  refine { allocSize := allocSize_eq h hb, free := free_eq h hb, pageAligned := ?_, header := ?_,
           run := ?_ } <;> obtain ⟨-, fl, hi⟩ := h
  · exact hi.pageAligned_iff hb
  · exact fun i hc => ⟨hi.live_slot hb hc, hi.header_of_block hb hc⟩
  · intro hc
    obtain ⟨a, hbig⟩ := hi.big b hb hc
    exact ⟨a, hbig.run, hbig.ptr, HeapInv.bigFree_eq hbig hc⟩

/-- After every run: the live blocks are good and pairwise apart, `malloc` and `calloc` return
only when they have such a block, zeroed, to give (and always return unless the page allocator
panics), every free list is exact, and every live pointer leads back to its owner. -/
theorem heap_sound (K : Kernel P) {phys : P} {m : Mem} {heap : Heap P} {calls : List Call}
    {t : Trace P} (h0 : construct K phys m = some heap)
    (hrun : Run.run (step K) ⟨heap, []⟩ calls = some t) :
    (∀ b ∈ t.live, BlockOk K t.heap t.live b) ∧
    t.live.Pairwise (fun b c => Apart b.1 (capacity b.2) c.1 (capacity c.2)) ∧
    (∀ n q st, n + 0xFFF < 2 ^ 64 → malloc K n t.heap = some (q, st) →
      Returned K t.live n q st) ∧
    (∀ num size q st, num * size + 0xFFF < 2 ^ 64 → calloc K num size t.heap = some (q, st) →
      Returned K t.live (num * size) q st) ∧
    (∀ n, n + 0xFFF < 2 ^ 64 → malloc K n t.heap = none →
      ∃ k, 0 < k ∧ K.source.alloc k t.heap.phys t.heap.mem = none) ∧
    (∀ num size, num * size + 0xFFF < 2 ^ 64 → calloc K num size t.heap = none →
      ∃ k, 0 < k ∧ K.source.alloc k t.heap.phys t.heap.mem = none) ∧
    (∀ i, FreeListOk t.heap t.live i) ∧
    (∀ b ∈ t.live, OwnerOk K t.heap b) := by
  have hok : HeapOk K t.heap t.live :=
    Run.run_invariant (fun _ _ _ h he => HeapOk.step h he) (construct_spec h0) hrun
  refine ⟨?_, ?_, ?_, ?_, fun n hw he => malloc_eq_none hw he, ?_, ?_,
    fun b hb => hok.ownerOk hb⟩
  · obtain ⟨-, fl, hi⟩ := hok
    exact fun b hb => hi.blockOk hb
  · obtain ⟨-, fl, hi⟩ := hok
    have hnd := List.pairwise_map.mp hi.ptrs
    exact hnd.imp_of_mem fun hb hc hne => hi.blocks_apart hb hc hne
  · intro n q st hw he
    obtain ⟨h1, -, hz⟩ := malloc_spec hok hw he
    exact h1.returned hz
  · intro num size q st hw he
    obtain ⟨h1, -, hz⟩ := calloc_spec hok hw he
    exact h1.returned hz
  · intro num size hw he
    rw [calloc, Option.map_eq_none_iff, wrap_of_lt (by omega)] at he
    exact malloc_eq_none hw he
  · obtain ⟨-, fl, hi⟩ := hok
    exact fun i => hi.freeListOk i

/-- A boot of the allocator on the small machine, and a few calls. -/
def smallRun (calls : List Call) :=
  (construct Physical.heapKernel Physical.heapBoot fun _ => 0#8).bind fun heap =>
    Run.run (step Physical.heapKernel) ⟨heap, []⟩ calls

theorem heap_sound_small :
    ∃ t, smallRun [.malloc 24, .malloc 5000, .calloc 3 100] = some t ∧
      t.live.map Prod.snd = [300, 5000, 24] ∧
      ∀ b ∈ t.live, BlockOk Physical.heapKernel t.heap t.live b := by
  obtain ⟨t, ht, hlive⟩ := Option.map_eq_some_iff.mp
    (rfl : (smallRun [.malloc 24, .malloc 5000, .calloc 3 100]).map
      (fun t => t.live.map Prod.snd) = some [300, 5000, 24])
  obtain ⟨heap, h0, hrun⟩ := Option.bind_eq_some_iff.mp ht
  exact ⟨t, ht, hlive, (heap_sound Physical.heapKernel h0 hrun).1⟩

end IceKernel.Slab
