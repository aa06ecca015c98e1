import IceKernel.Memory.SlabInvariant

/-!
# What each operation does to the heap invariant
-/

namespace IceKernel.Slab
open ByteMemory Word64 LinkedList

variable {P : Type} {K : Kernel P} {st : Heap P} {live : List (ℕ × ℕ)} {fl : Fin 10 → List ℕ}

/-! ## `slab_t::init` -/

/-- What `init` leaves in the page: the owner in the header and all slots linked up, in order. -/
theorem carve_spec (m : Mem) (i : Fin 10) (page : ℕ) {owner : ℕ} (hlt : page + 0x1000 ≤ 2 ^ 64)
    (ho : owner < 2 ^ 64) :
    SameOutside m (carve m page owner (classSize i)) page 0x1000 ∧
      load64 (carve m page owner (classSize i)) page = owner ∧
      Chain 0 (load64 (carve m page owner (classSize i)))
        (page + headerSpace (classSize i)) (slotsOf i page) :=
  (class_fits i).carve_layout m page hlt ho

/-- The contents of the live blocks are the same in `m` and `m'`. -/
def KeepsBlocks (live : List (ℕ × ℕ)) (m m' : Mem) : Prop :=
  ∀ b ∈ live, ∀ k < capacity b.2, m' (b.1 + k) = m (b.1 + k)

namespace HeapInv

/-- Writes to a newly allocated run miss every live block. -/
theorem grow_keeps (hi : HeapInv K st live fl) {n a : ℕ} {phys' : P} {m' m'' : Mem} (hn : 0 < n)
    (he : K.source.alloc n st.phys st.mem = some (a, phys', m'))
    (hm : SameOutside st.mem m'' (K.hhdm.offset + a) (n * 0x1000)) :
    KeepsBlocks live st.mem m'' := by
  intro b hb k hk
  obtain ⟨r, hr, hend, hkind⟩ := hi.block_run hb
  have hap := run_fresh hn he hr
  unfold RunsApart at hap
  dsimp only at hap
  apply hm
  rcases hkind with ⟨i, -, -, h1⟩ | ⟨-, -, h1⟩ <;> omega

/-- `init` on a slab without free slots adds one page, all of whose slots are free. -/
theorem init (hi : HeapInv K st live fl) {i : Fin 10} {st' : Heap P} (hfl : fl i = [])
    (he : slabInit K i (classSize i) st = some st') :
    ∃ page, HeapInv K st' live (Function.update fl i (slotsOf i page)) ∧
      st'.slabs = Function.update st.slabs i
        ⟨page + headerSpace (classSize i), classSize i⟩ ∧
      KeepsBlocks live st.mem st'.mem := by
  obtain ⟨⟨a, phys', m'⟩, hal, rfl⟩ := Option.map_eq_some_iff.mp he
  obtain ⟨haddr, htop⟩ := run_addr Nat.one_pos hal
  have hfit := (class_fits i).room
  have hpage : ∀ j, ∀ b ∈ st.carved j, b ≠ K.hhdm.offset + a := fun j b hb heq => by
    obtain ⟨a', rfl, ha'⟩ := hi.page j b hb
    have hap := run_fresh Nat.one_pos hal ha'
    unfold RunsApart at hap
    dsimp only at hap
    omega
  obtain ⟨hout, hheader, hchain⟩ := carve_spec m' i (K.hhdm.offset + a) (by omega)
    (K.slabAddr_lt i)
  have hframe : SameOutside st.mem (carve m' (K.hhdm.offset + a) (K.slabAddr i) (classSize i))
      (K.hhdm.offset + a) (1 * 0x1000) := (K.source.alloc_frame Nat.one_pos hal).trans hout
  have hg := hi.grow Nat.one_pos hal hframe
  have hwrap : wrap (K.hhdm.offset + a + headerSpace (classSize i)) =
      K.hhdm.offset + a + headerSpace (classSize i) := by
    have := (class_layout i).2.1
    exact wrap_of_lt (by omega)
  have hmem (j : Fin 10) (b : ℕ) :
      b ∈ Function.update st.carved i ((K.hhdm.offset + a) :: st.carved i) j ↔
        (j = i ∧ b = K.hhdm.offset + a) ∨ b ∈ st.carved j := by
    by_cases hj : j = i
    · subst hj
      simp
    · simp [hj]
  simp only [haddr, hwrap]
  -- only class `i` changes, by the new page and its slots; the other fields come from `grow`
  refine ⟨K.hhdm.offset + a, ?_, rfl, hi.grow_keeps Nat.one_pos hal hframe⟩
  constructor
  · intro j
    by_cases hj : j = i
    · subst hj
      simpa using hchain
    · simpa [hj] using hg.chain j
  · intro j
    by_cases hj : j = i
    · subst hj
      have hs := hi.split j
      rw [hfl, List.nil_append] at hs
      simpa [carvedSlots] using hs.append_left (slotsOf j (K.hhdm.offset + a))
    · simpa [hj, carvedSlots] using hi.split j
  · intro j
    by_cases hj : j = i
    · subst hj
      simpa using ⟨fun h => hpage j _ h rfl, hi.pages j⟩
    · simpa [hj] using hi.pages j
  · intro j k hjk b hb hb'
    rcases (hmem j b).mp hb with ⟨h1, h2⟩ | hb <;> rcases (hmem k b).mp hb' with ⟨h3, h4⟩ | hb'
    · exact hjk (h1.trans h3.symm)
    · exact hpage k b hb' h2
    · exact hpage j b hb h4
    · exact hi.pagesApart j k hjk b hb hb'
  · intro j b hb
    rcases (hmem j b).mp hb with ⟨rfl, rfl⟩ | hb
    · exact ⟨a, rfl, (K.source.alloc_live Nat.one_pos hal _).mpr (Or.inl rfl)⟩
    · exact hg.page j b hb
  · intro j b hb
    rcases (hmem j b).mp hb with ⟨rfl, rfl⟩ | hb
    · exact hheader
    · exact hg.header j b hb
  · intro b hb hc
    obtain ⟨a', hbig⟩ := hg.big b hb hc
    exact ⟨a', hbig.ptr, hbig.noWrap, hbig.run, hbig.pages, hbig.size⟩
  · exact hi.ptrs

/-! ## Slots change hands -/

theorem liveSlots_cons_self {n : ℕ} {i : Fin 10} (hn : classFor n = some i) (s : ℕ) :
    liveSlots ((s, n) :: live) i = s :: liveSlots live i := by
  simp [liveSlots, hn]

theorem liveSlots_cons_ne {n : ℕ} {i : Fin 10} (hn : classFor n ≠ some i) (s : ℕ) :
    liveSlots ((s, n) :: live) i = liveSlots live i := by
  simp [liveSlots, hn]

/-- A write inside one live block leaves the others as they are. -/
theorem write_keeps {b : ℕ × ℕ} (hi : HeapInv K st (b :: live) fl) {m' : Mem}
    (hm : SameOutside st.mem m' b.1 (capacity b.2)) : KeepsBlocks live st.mem m' := by
  intro c hc k hk
  have hnd := hi.ptrs
  rw [List.map_cons, List.nodup_cons] at hnd
  have hne : b.1 ≠ c.1 := fun he => hnd.1 (he ▸ List.mem_map_of_mem hc)
  have := hi.blocks_apart List.mem_cons_self (List.mem_cons_of_mem _ hc) hne
  apply hm
  omega

/-- The head of a free list becomes a live block; nothing in memory has changed yet. -/
theorem take (hi : HeapInv K st live fl) {i : Fin 10} {n s : ℕ} {rest : List ℕ}
    (hn : classFor n = some i) (hfl : fl i = s :: rest)
    (hrest : Chain 0 (load64 st.mem) (load64 st.mem s) rest) :
    HeapInv K
      { st with slabs := Function.update st.slabs i ⟨load64 st.mem s, (st.slabs i).size⟩ }
      ((s, n) :: live) (Function.update fl i rest) := by
  have hs : s ∈ fl i := by
    rw [hfl]
    exact List.mem_cons_self
  refine { hi with chain := fun j => ?_, split := fun j => ?_, big := fun b hb hc => ?_,
                   ptrs := ?_ }
  · by_cases hj : j = i
    · subst hj
      simpa using hrest
    · simpa [hj] using hi.chain j
  · by_cases hj : j = i
    · subst hj
      rw [Function.update_self, liveSlots_cons_self hn]
      have hp := hi.split j
      rw [hfl] at hp
      exact List.perm_middle.trans hp
    · rw [Function.update_of_ne hj, liveSlots_cons_ne (by simpa [hn] using Ne.symm hj)]
      exact hi.split j
  · rcases List.mem_cons.mp hb with rfl | hb
    · simp [hn] at hc
    · obtain ⟨a, hbig⟩ := hi.big b hb hc
      exact ⟨a, hbig.ptr, hbig.noWrap, hbig.run, hbig.pages, hbig.size⟩
  · rw [List.map_cons, List.nodup_cons]
    refine ⟨fun hmem => ?_, hi.ptrs⟩
    -- a slot on the free list is no live slot, and it is not page-aligned as a big block is
    obtain ⟨b, hb, hbs⟩ := List.mem_map.mp hmem
    cases hc : classFor b.2 with
    | some j => exact hi.free_ne_live hs hb hc hbs.symm
    | none =>
      obtain ⟨a, hr, h1, h2⟩ := hi.slot_run (hi.free_slot hs)
      have h3 := K.source.aligned hr
      have h4 := K.hhdm.aligned
      obtain ⟨a', hbig⟩ := hi.big b hb hc
      have h5 := hbig.ptr
      have h6 := K.source.aligned hbig.run
      have hpos : 16 ≤ classSize i := (class_layout i).2.1
      dsimp only at h3 h5 h6 hbs
      omega

/-- The end of `slab_t::alloc`. -/
theorem pop (hi : HeapInv K st live fl) {i : Fin 10} {n : ℕ} (hn : classFor n = some i)
    (hsize : (st.slabs i).size = classSize i) (hhead : (st.slabs i).head ≠ 0) :
    ∃ rest, fl i = (popHead i st).1 :: rest ∧
      HeapInv K (popHead i st).2 (((popHead i st).1, n) :: live) (Function.update fl i rest) ∧
      KeepsBlocks live st.mem (popHead i st).2.mem ∧
      Filled (popHead i st).2.mem (popHead i st).1 (capacity n) 0#8 := by
  obtain ⟨rest, hfl, hrest⟩ := (hi.chain i).exists_cons hhead
  have ht := hi.take hn hfl hrest
  have hcap : (st.slabs i).size = capacity n := hsize.trans (capacity_slab hn).symm
  have hm : SameOutside st.mem (memset st.mem (st.slabs i).head 0#8 (st.slabs i).size)
      (st.slabs i).head (capacity n) := by
    rw [hcap]
    exact memset_sameOutside _ _ _ _
  refine ⟨rest, hfl, ht.write List.mem_cons_self hm, ht.write_keeps hm, ?_⟩
  rw [← hcap]
  exact memset_filled _ _ _ _

theorem head_lt (hi : HeapInv K st live fl) (i : Fin 10) : (st.slabs i).head < 2 ^ 64 := by
  by_cases hh : (st.slabs i).head = 0
  · rw [hh]
    norm_num
  · obtain ⟨rest, hfl, -⟩ := (hi.chain i).exists_cons hh
    have hs : (st.slabs i).head ∈ fl i := by
      rw [hfl]
      exact List.mem_cons_self
    obtain ⟨a, hr, h1, h2⟩ := hi.slot_run (hi.free_slot hs)
    have h3 := K.source.inWindow hr
    have h4 := K.hhdm.top_le
    have hpos : 16 ≤ classSize i := (class_layout i).2.1
    dsimp only at h3
    omega

/-- `slab_t::free` of a live slot. -/
theorem push {ptr n : ℕ} (hi : HeapInv K st ((ptr, n) :: live) fl) {i : Fin 10}
    (hn : classFor n = some i) :
    HeapInv K (slabFree i ptr st) live (Function.update fl i (ptr :: fl i)) ∧
      KeepsBlocks live st.mem (slabFree i ptr st).mem := by
  have hslot := hi.live_slot List.mem_cons_self hn
  have hpos : 16 ≤ classSize i := (class_layout i).2.1
  obtain ⟨a, -, h1, -⟩ := hi.slot_run hslot
  have hne : ptr ≠ 0 := by
    dsimp only at h1
    omega
  have hm : SameOutside st.mem (store64 st.mem ptr (st.slabs i).head) ptr (capacity n) := by
    rw [capacity_slab hn]
    exact (store_sameOutside _ _ _ 8).mono (Nat.le_refl _) (by omega)
  have hw := hi.write List.mem_cons_self hm
  rw [slabFree, if_neg hne]
  refine ⟨?_, hi.write_keeps hm⟩
  refine { hw with chain := fun j => ?_, split := fun j => ?_, big := fun b hb hc => ?_,
                   ptrs := ?_ }
  · by_cases hj : j = i
    · subst hj
      simp only [Function.update_self]
      -- the freed slot links to the old head
      refine Chain.cons hne ?_
      rw [load64_store64 _ _ (hi.head_lt j)]
      exact hw.chain j
    · simpa [hj] using hw.chain j
  · by_cases hj : j = i
    · subst hj
      have hp := hi.split j
      rw [liveSlots_cons_self hn] at hp
      rw [Function.update_self]
      exact List.perm_middle.symm.trans hp
    · have hp := hi.split j
      rw [liveSlots_cons_ne (by simpa [hn] using Ne.symm hj)] at hp
      rw [Function.update_of_ne hj]
      exact hp
  · obtain ⟨a, hbig⟩ := hw.big b (List.mem_cons_of_mem _ hb) hc
    exact ⟨a, hbig.ptr, hbig.noWrap, hbig.run, hbig.pages, hbig.size⟩
  · have hnd := hi.ptrs
    rw [List.map_cons, List.nodup_cons] at hnd
    exact hnd.2

/-! ## Big allocations -/

/-- The page arithmetic of `big_malloc` does not wrap when the request does not. -/
theorem pages_lt {n : ℕ} (hw : n + 0xFFF < 2 ^ 64) : divRoundup n 0x1000 + 1 < 2 ^ 64 := by
  rw [divRoundup_page hw]
  omega

/-- `big_malloc`. -/
theorem bigAlloc (hi : HeapInv K st live fl) {n q : ℕ} {st' : Heap P} (hn : classFor n = none)
    (hw : n + 0xFFF < 2 ^ 64) (he : bigMalloc K n st = some (q, st')) :
    HeapInv K st' ((q, n) :: live) fl ∧ KeepsBlocks live st.mem st'.mem ∧
      Filled st'.mem q (capacity n) 0#8 ∧ st'.slabs = st.slabs := by
  have hlt := pages_lt hw
  have hpos := pages_pos hn hw
  have hcap := capacity_big hn
  rw [bigMalloc, wrap_of_lt hlt] at he
  obtain ⟨⟨a, phys', m'⟩, hal, heq⟩ := Option.map_eq_some_iff.mp he
  obtain ⟨haddr, htop⟩ := run_addr (Nat.succ_pos _) hal
  have hptr : wrap (K.hhdm.offset + a + 0x1000) = K.hhdm.offset + a + 0x1000 :=
    wrap_of_lt (by omega)
  simp only [haddr, hptr, Prod.mk.injEq] at heq
  obtain ⟨rfl, rfl⟩ := heq
  have hmeta : SameOutside m' (store64 (store64 m' (K.hhdm.offset + a) (divRoundup n 0x1000))
      (K.hhdm.offset + a + 8) n) (K.hhdm.offset + a) 16 :=
    ((store_sameOutside _ _ _ 8).mono (by omega) (by omega)).trans
      ((store_sameOutside _ _ _ 8).mono (by omega) (by omega))
  have hframe := (K.source.alloc_frame (Nat.succ_pos _) hal).trans
    (hmeta.mono (Nat.le_refl _) (by omega))
  have hg := hi.grow (Nat.succ_pos _) hal hframe
  refine ⟨?_, hi.grow_keeps (Nat.succ_pos _) hal hframe, ?_, rfl⟩
  · refine { hg with split := fun j => ?_, big := fun b hb hc => ?_, ptrs := ?_ }
    · rw [liveSlots_cons_ne (by simp [hn])]
      exact hg.split j
    · rcases List.mem_cons.mp hb with rfl | hb
      · refine ⟨a, rfl, hw, (K.source.alloc_live (Nat.succ_pos _) hal _).mpr (Or.inl rfl), ?_, ?_⟩
        · refine (load_of_sameOutside (store_sameOutside _ _ _ 8) (by omega)).trans ?_
          exact load64_store64 _ _ (by omega)
        · exact load64_store64 _ _ (by omega)
      · exact hg.big b hb hc
    · rw [List.map_cons, List.nodup_cons]
      refine ⟨fun hmem => ?_, hi.ptrs⟩
      obtain ⟨b, hb, hbq⟩ := List.mem_map.mp hmem
      -- the new run overlaps no run in use, so its pointer is new
      obtain ⟨r, hr, hend, hkind⟩ := hi.block_run hb
      have hap := run_fresh (Nat.succ_pos _) hal hr
      have hone : 16 ≤ capacity b.2 := by
        rcases hkind with ⟨i, hc, -, -⟩ | ⟨hc, -, -⟩
        · rw [capacity_slab hc]
          exact (class_layout i).2.1
        · obtain ⟨a', hbig⟩ := hi.big b hb hc
          have := pages_pos hc hbig.noWrap
          have := capacity_big hc
          omega
      unfold RunsApart at hap
      dsimp only at hap hbq
      rcases hkind with ⟨i, -, -, h1⟩ | ⟨-, -, h1⟩ <;> omega
  · intro k hk
    refine (hmeta _ (by omega)).trans ?_
    have hz := K.source.alloc_zeroed (Nat.succ_pos _) hal (0x1000 + k) (by omega)
    rwa [← Nat.add_assoc] at hz

/-- The metadata of a big block stands one page below it. -/
theorem meta_addr {b : ℕ × ℕ} {a : ℕ} (hbig : BigBlock K st b a) (hn : classFor b.2 = none) :
    sub b.1 0x1000 = K.hhdm.offset + a := by
  have hptr := hbig.ptr
  have hwin := K.source.inWindow hbig.run
  have htop := K.hhdm.top_le
  have hpos := pages_pos hn hbig.noWrap
  dsimp only at hwin
  rw [sub_of_le (by omega) (by omega)]
  omega

theorem bigFree_eq {b : ℕ × ℕ} {a : ℕ} (hbig : BigBlock K st b a) (hn : classFor b.2 = none) :
    bigFree K b.1 st =
      { st with phys := K.source.free a (divRoundup b.2 0x1000 + 1) st.phys } := by
  rw [bigFree, meta_addr hbig hn, hbig.pages, K.hhdm.fromhh_eq, wrap_of_lt (pages_lt hbig.noWrap)]

/-- `big_free` of a live big block. -/
theorem bigRelease {b : ℕ × ℕ} (hi : HeapInv K st (b :: live) fl) (hn : classFor b.2 = none) :
    HeapInv K (bigFree K b.1 st) live fl := by
  obtain ⟨a, hbig⟩ := hi.big b List.mem_cons_self hn
  have hnd := hi.ptrs
  rw [List.map_cons, List.nodup_cons] at hnd
  have hpos := pages_pos hn hbig.noWrap
  have hlive (r : ℕ × ℕ) (hr : K.source.live st.phys r)
      (hne : r ≠ (a, divRoundup b.2 0x1000 + 1)) :
      K.source.live (K.source.free a (divRoundup b.2 0x1000 + 1) st.phys) r :=
    (K.source.free_live (Nat.succ_pos _) hbig.run r).mpr ⟨hr, hne⟩
  rw [bigFree_eq hbig hn]
  refine { hi with split := fun j => ?_, page := fun i c hc => ?_, big := fun c hc hcn => ?_,
                   ptrs := hnd.2 }
  · have hp := hi.split j
    rwa [liveSlots_cons_ne (by simp [hn])] at hp
  · obtain ⟨a', rfl, ha'⟩ := hi.page i c hc
    refine ⟨a', rfl, hlive _ ha' ?_⟩
    simp only [ne_eq, Prod.mk.injEq, not_and]
    omega
  · obtain ⟨a', hc'⟩ := hi.big c (List.mem_cons_of_mem _ hc) hcn
    refine ⟨a', hc'.ptr, hc'.noWrap, hlive _ hc'.run ?_, hc'.pages, hc'.size⟩
    -- a run shared with another big block would mean the same pointer
    intro he
    rw [Prod.mk.injEq] at he
    apply hnd.1
    refine List.mem_map.mpr ⟨c, hc, ?_⟩
    rw [hc'.ptr, he.1, hbig.ptr]

end HeapInv

end IceKernel.Slab
