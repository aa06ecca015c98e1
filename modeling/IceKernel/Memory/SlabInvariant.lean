import IceKernel.Memory.SlabLayout
import Mathlib.Data.List.Perm.Basic

/-!
# The heap invariant

Every page of a slab is a header followed by equal slots, each slot either on
the slab's free list or live; every big allocation is a run of pages of its
own whose first page holds the metadata.
-/

namespace IceKernel.Slab
open ByteMemory Word64 LinkedList

variable {P : Type} {K : Kernel P} {st : Heap P} {live : List (ℕ × ℕ)} {fl : Fin 10 → List ℕ}

/-! ## Size classes and the layout of a slab page -/

/-- The class that serves a request, as `get_slab` picks it. -/
def classFor (n : ℕ) : Option (Fin 10) := (List.finRange 10).find? fun i => n ≤ classSize i

def slotCount (i : Fin 10) : ℕ := (0x1000 - headerSpace (classSize i)) / classSize i

/-- The slots of the page at `page`. -/
def slotsOf (i : Fin 10) (page : ℕ) : List ℕ :=
  (List.range (slotCount i)).map fun j => page + headerSpace (classSize i) + j * classSize i

/-- The bytes a block for a request of `n` bytes really has. -/
def capacity (n : ℕ) : ℕ :=
  match classFor n with
  | some i => classSize i
  | none => divRoundup n 0x1000 * 0x1000

/-- What is particular to the ten sizes: all multiples of 16, as are the header spaces, and at
least one slot fits. -/
theorem class_layout (i : Fin 10) :
    classSize i % 16 = 0 ∧ 16 ≤ classSize i ∧ headerSpace (classSize i) % 16 = 0 ∧
      16 ≤ headerSpace (classSize i) ∧ 1 ≤ slotCount i ∧
      headerSpace (classSize i) + slotCount i * classSize i ≤ 0x1000 := by
  revert i
  decide

theorem class_fits (i : Fin 10) : Fits (classSize i) := by
  obtain ⟨h1, h2, -, h4, h5, h6⟩ := class_layout i
  have hslot : classSize i ≤ slotCount i * classSize i := Nat.le_mul_of_pos_left _ h5
  exact ⟨by omega, by omega, by omega, by omega⟩

theorem classFor_eq_some {n : ℕ} {i : Fin 10} (h : classFor n = some i) : n ≤ classSize i := by
  simpa using List.find?_some h

theorem classFor_eq_none {n : ℕ} (h : classFor n = none) : 1024 < n := by
  have h9 := List.find?_eq_none.mp h 9 (List.mem_finRange 9)
  have : ¬ n ≤ classSize 9 := by simpa using h9
  exact Nat.lt_of_not_le this

theorem le_capacity {n : ℕ} (hn : n + 0xFFF < 2 ^ 64) : n ≤ capacity n := by
  unfold capacity
  cases h : classFor n with
  | some i => exact classFor_eq_some h
  | none =>
    dsimp only
    rw [divRoundup_page hn]
    omega

theorem mem_slotsOf {i : Fin 10} {page x : ℕ} :
    x ∈ slotsOf i page ↔
      ∃ j < slotCount i, x = page + headerSpace (classSize i) + j * classSize i := by
  simp [slotsOf, eq_comm]

/-- A slot lies in its page, above the header, on a 16-byte boundary. -/
theorem slot_bounds {i : Fin 10} {page x : ℕ} (h : x ∈ slotsOf i page) :
    page + 16 ≤ x ∧ x + classSize i ≤ page + 0x1000 ∧ (x - page) % 16 = 0 := by
  have hin := (class_fits i).slot_within h
  obtain ⟨j, -, rfl⟩ := mem_slotsOf.mp h
  obtain ⟨h1, -, h3, h4, -, -⟩ := class_layout i
  have hmod : j * classSize i % 16 = 0 := by rw [Nat.mul_mod, h1, Nat.mul_zero, Nat.zero_mod]
  omega

/-- Different slots of one page do not overlap. -/
theorem slots_apart {i : Fin 10} {page x y : ℕ} (hx : x ∈ slotsOf i page)
    (hy : y ∈ slotsOf i page) (hne : x ≠ y) : x + classSize i ≤ y ∨ y + classSize i ≤ x := by
  obtain ⟨j, -, rfl⟩ := mem_slotsOf.mp hx
  obtain ⟨k, -, rfl⟩ := mem_slotsOf.mp hy
  rcases Nat.lt_trichotomy j k with h | rfl | h
  · have := Nat.mul_le_mul_right (classSize i) (Nat.succ_le_of_lt h)
    rw [Nat.succ_mul] at this
    omega
  · exact absurd rfl hne
  · have := Nat.mul_le_mul_right (classSize i) (Nat.succ_le_of_lt h)
    rw [Nat.succ_mul] at this
    omega

theorem slotsOf_nodup (i : Fin 10) (page : ℕ) : (slotsOf i page).Nodup :=
  (class_fits i).slotsAt_nodup page

/-! ## The invariant -/

/-- The slots carved from the pages of one class. -/
def carvedSlots (st : Heap P) (i : Fin 10) : List ℕ := (st.carved i).flatMap (slotsOf i)

/-- The live blocks `(pointer, requested size)` of one class. -/
def liveSlots (live : List (ℕ × ℕ)) (i : Fin 10) : List ℕ :=
  (live.filter fun b => classFor b.2 = some i).map Prod.fst

/-- A live big block: the run at `a` starts with the page of its `big_alloc_meta`. -/
structure BigBlock (K : Kernel P) (st : Heap P) (b : ℕ × ℕ) (a : ℕ) : Prop where
  ptr : b.1 = K.hhdm.offset + a + 0x1000
  noWrap : b.2 + 0xFFF < 2 ^ 64
  run : K.source.live st.phys (a, divRoundup b.2 0x1000 + 1)
  pages : load64 st.mem (K.hhdm.offset + a) = divRoundup b.2 0x1000
  size : load64 st.mem (K.hhdm.offset + a + 8) = b.2

/-- `fl` lists the free slots of each class in list order. -/
structure HeapInv (K : Kernel P) (st : Heap P) (live : List (ℕ × ℕ)) (fl : Fin 10 → List ℕ) :
    Prop where
  chain : ∀ i, Chain 0 (load64 st.mem) (st.slabs i).head (fl i)
  split : ∀ i, (fl i ++ liveSlots live i).Perm (carvedSlots st i)
  pages : ∀ i, (st.carved i).Nodup
  pagesApart : ∀ i j, i ≠ j → ∀ b ∈ st.carved i, b ∉ st.carved j
  page : ∀ i, ∀ b ∈ st.carved i, ∃ a, b = K.hhdm.offset + a ∧ K.source.live st.phys (a, 1)
  header : ∀ i, ∀ b ∈ st.carved i, load64 st.mem b = K.slabAddr i
  big : ∀ b ∈ live, classFor b.2 = none → ∃ a, BigBlock K st b a
  ptrs : (live.map Prod.fst).Nodup

/-- The constructor has given every slab its size. -/
def Sized (st : Heap P) : Prop := ∀ i, (st.slabs i).size = classSize i

/-- The bytes the allocator itself reads: links of free slots, headers, metadata. -/
inductive AllocByte (st : Heap P) (live : List (ℕ × ℕ)) (fl : Fin 10 → List ℕ) (x : ℕ) : Prop
  | link (i : Fin 10) (s : ℕ) : s ∈ fl i → s ≤ x → x < s + 8 → AllocByte st live fl x
  | header (i : Fin 10) (b : ℕ) : b ∈ st.carved i → b ≤ x → x < b + 8 → AllocByte st live fl x
  | info (b : ℕ × ℕ) : b ∈ live → classFor b.2 = none → b.1 ≤ x + 0x1000 →
      x + 0x1000 < b.1 + 16 → AllocByte st live fl x

namespace HeapInv

/-- The invariant only depends on the allocator's own bytes. -/
theorem frame (hi : HeapInv K st live fl) {m' : Mem}
    (hm : ∀ x, AllocByte st live fl x → m' x = st.mem x) :
    HeapInv K { st with mem := m' } live fl where
  chain i := (hi.chain i).congr fun s hs =>
    load_congr fun k hk => hm _ (.link i s hs (by omega) (by omega))
  split := hi.split
  pages := hi.pages
  pagesApart := hi.pagesApart
  page := hi.page
  header i b hb := by
    rw [← hi.header i b hb]
    exact load_congr fun k hk => hm _ (.header i b hb (by omega) (by omega))
  big b hb hn := by
    obtain ⟨a, hbig⟩ := hi.big b hb hn
    have hptr := hbig.ptr
    refine ⟨a, hptr, hbig.noWrap, hbig.run, ?_, ?_⟩
    · rw [← hbig.pages]
      exact load_congr fun k hk => hm _ (.info b hb hn (by omega) (by omega))
    · rw [← hbig.size]
      exact load_congr fun k hk => hm _ (.info b hb hn (by omega) (by omega))
  ptrs := hi.ptrs

theorem page_aligned (hi : HeapInv K st live fl) {i : Fin 10} {b : ℕ} (hb : b ∈ st.carved i) :
    b % 0x1000 = 0 := by
  obtain ⟨a, rfl, ha⟩ := hi.page i b hb
  have h1 := K.source.aligned ha
  have h2 := K.hhdm.aligned
  dsimp only at h1
  omega

theorem mem_carvedSlots {i : Fin 10} {x : ℕ} :
    x ∈ carvedSlots st i ↔ ∃ b ∈ st.carved i, x ∈ slotsOf i b := by
  simp [carvedSlots]

theorem live_slot (hi : HeapInv K st live fl) {b : ℕ × ℕ} {i : Fin 10} (hb : b ∈ live)
    (hc : classFor b.2 = some i) : b.1 ∈ carvedSlots st i := by
  apply (hi.split i).mem_iff.mp
  refine List.mem_append_right _ (List.mem_map.mpr ⟨b, ?_, rfl⟩)
  exact List.mem_filter.mpr ⟨hb, by simpa using hc⟩

theorem free_slot (hi : HeapInv K st live fl) {i : Fin 10} {s : ℕ} (hs : s ∈ fl i) :
    s ∈ carvedSlots st i := (hi.split i).mem_iff.mp (List.mem_append_left _ hs)

/-- Slots of any two classes are equal or do not overlap. -/
theorem slots_disjoint (hi : HeapInv K st live fl) {i j : Fin 10} {x y : ℕ}
    (hx : x ∈ carvedSlots st i) (hy : y ∈ carvedSlots st j) (hne : x ≠ y) :
    x + classSize i ≤ y ∨ y + classSize j ≤ x := by
  obtain ⟨b, hb, hxb⟩ := mem_carvedSlots.mp hx
  obtain ⟨c, hc, hyc⟩ := mem_carvedSlots.mp hy
  by_cases hbc : b = c
  · subst hbc
    have hij : i = j := by
      by_contra hij
      exact hi.pagesApart i j hij b hb hc
    subst hij
    exact slots_apart hxb hyc hne
  · have h1 := slot_bounds hxb
    have h2 := slot_bounds hyc
    have h3 := hi.page_aligned hb
    have h4 := hi.page_aligned hc
    omega

/-- A slot belongs to one class. -/
theorem class_unique (hi : HeapInv K st live fl) {i j : Fin 10} {x : ℕ}
    (hx : x ∈ carvedSlots st i) (hy : x ∈ carvedSlots st j) : i = j := by
  obtain ⟨b, hb, hxb⟩ := mem_carvedSlots.mp hx
  obtain ⟨c, hc, hxc⟩ := mem_carvedSlots.mp hy
  have h1 := slot_bounds hxb
  have h2 := slot_bounds hxc
  have h3 := hi.page_aligned hb
  have h4 := hi.page_aligned hc
  have hpos : 16 ≤ classSize i := (class_layout i).2.1
  have hpos' : 16 ≤ classSize j := (class_layout j).2.1
  obtain rfl : b = c := by omega
  by_contra hij
  exact hi.pagesApart i j hij b hb hc

theorem carvedSlots_nodup (hi : HeapInv K st live fl) (i : Fin 10) : (carvedSlots st i).Nodup := by
  refine List.nodup_flatMap.mpr ⟨fun b _ => slotsOf_nodup i b, ?_⟩
  refine (hi.pages i).imp_of_mem fun {b c} hb hc hne x hx hx' => hne ?_
  have h1 := slot_bounds hx
  have h2 := slot_bounds hx'
  have h3 := hi.page_aligned hb
  have h4 := hi.page_aligned hc
  have hpos : 16 ≤ classSize i := (class_layout i).2.1
  omega

/-- Free and live slots are different, whatever their classes. -/
theorem free_ne_live (hi : HeapInv K st live fl) {i j : Fin 10} {s : ℕ} {b : ℕ × ℕ}
    (hs : s ∈ fl i) (hb : b ∈ live) (hc : classFor b.2 = some j) : s ≠ b.1 := by
  rintro rfl
  obtain rfl := hi.class_unique (hi.free_slot hs) (hi.live_slot hb hc)
  have hnd := (hi.split i).nodup_iff.mpr (hi.carvedSlots_nodup i)
  refine (List.nodup_append'.mp hnd).2.2 hs (List.mem_map.mpr ⟨b, ?_, rfl⟩)
  exact List.mem_filter.mpr ⟨hb, by simpa using hc⟩

theorem perm (hi : HeapInv K st live fl) {live' : List (ℕ × ℕ)} (hp : live.Perm live') :
    HeapInv K st live' fl where
  chain := hi.chain
  split i := (List.Perm.append_left _ ((hp.filter _).map _)).symm.trans (hi.split i)
  pages := hi.pages
  pagesApart := hi.pagesApart
  page := hi.page
  header := hi.header
  big b hb := hi.big b (hp.mem_iff.mpr hb)
  ptrs := (hp.map _).nodup_iff.mp hi.ptrs

/-! ## Where blocks and the allocator's bytes lie -/

/-- A slot lies in a page run of its own, above the header. -/
theorem slot_run (hi : HeapInv K st live fl) {i : Fin 10} {x : ℕ} (hx : x ∈ carvedSlots st i) :
    ∃ a, K.source.live st.phys (a, 1) ∧ K.hhdm.offset + a + 16 ≤ x ∧
      x + classSize i ≤ K.hhdm.offset + a + 0x1000 := by
  obtain ⟨b, hb, hxb⟩ := mem_carvedSlots.mp hx
  obtain ⟨a, rfl, ha⟩ := hi.page i b hb
  have h := slot_bounds hxb
  exact ⟨a, ha, h.1, h.2.1⟩

end HeapInv

theorem capacity_slab {n : ℕ} {i : Fin 10} (h : classFor n = some i) :
    capacity n = classSize i := by
  simp only [capacity, h]

theorem capacity_big {n : ℕ} (h : classFor n = none) :
    capacity n = divRoundup n 0x1000 * 0x1000 := by
  simp only [capacity, h]

theorem pages_pos {n : ℕ} (h : classFor n = none) (hn : n + 0xFFF < 2 ^ 64) :
    1 ≤ divRoundup n 0x1000 := by
  have := classFor_eq_none h
  rw [divRoundup_page hn]
  omega

namespace HeapInv

/-- A live block lies in one run: a slab block above the header of its page, a big block above
the metadata page. -/
theorem block_run (hi : HeapInv K st live fl) {b : ℕ × ℕ} (hb : b ∈ live) :
    ∃ r, K.source.live st.phys r ∧ b.1 + capacity b.2 ≤ K.hhdm.offset + r.1 + r.2 * 0x1000 ∧
      ((∃ i, classFor b.2 = some i ∧ r.2 = 1 ∧ K.hhdm.offset + r.1 + 16 ≤ b.1) ∨
        (classFor b.2 = none ∧ 2 ≤ r.2 ∧ K.hhdm.offset + r.1 + 0x1000 = b.1)) := by
  cases hc : classFor b.2 with
  | some i =>
    obtain ⟨a, ha, h1, h2⟩ := hi.slot_run (hi.live_slot hb hc)
    have hcap := capacity_slab hc
    refine ⟨(a, 1), ha, ?_, Or.inl ⟨i, rfl, rfl, h1⟩⟩
    dsimp only
    omega
  | none =>
    obtain ⟨a, hbig⟩ := hi.big b hb hc
    have hptr := hbig.ptr
    have hpos := pages_pos hc hbig.noWrap
    have hcap := capacity_big hc
    refine ⟨_, hbig.run, ?_, Or.inr ⟨rfl, ?_, hptr.symm⟩⟩ <;> dsimp only <;> omega

/-- The allocator's own bytes are links in slab pages, headers of slab pages, or metadata of big
runs. -/
theorem allocByte_run (hi : HeapInv K st live fl) {x : ℕ} (hx : AllocByte st live fl x) :
    ∃ r, K.source.live st.phys r ∧ K.hhdm.offset + r.1 ≤ x ∧
      x < K.hhdm.offset + r.1 + 0x1000 ∧
      ((∃ i s, s ∈ fl i ∧ s ≤ x ∧ x < s + 8 ∧ r.2 = 1) ∨
        (x < K.hhdm.offset + r.1 + 16 ∧ 1 ≤ r.2)) := by
  cases hx with
  | link i s hs h1 h2 =>
    obtain ⟨a, ha, h3, h4⟩ := hi.slot_run (hi.free_slot hs)
    have hpos : 16 ≤ classSize i := (class_layout i).2.1
    refine ⟨(a, 1), ha, ?_, ?_, Or.inl ⟨i, s, hs, h1, h2, rfl⟩⟩ <;> dsimp only <;> omega
  | header i b hb h1 h2 =>
    obtain ⟨a, rfl, ha⟩ := hi.page i b hb
    refine ⟨(a, 1), ha, h1, ?_, Or.inr ⟨?_, ?_⟩⟩ <;> dsimp only <;> omega
  | info b hb hn h1 h2 =>
    obtain ⟨a, hbig⟩ := hi.big b hb hn
    have hptr := hbig.ptr
    refine ⟨_, hbig.run, ?_, ?_, Or.inr ⟨?_, ?_⟩⟩ <;> dsimp only <;> omega

/-- No byte of a live block is read by the allocator. -/
theorem block_not_alloc (hi : HeapInv K st live fl) {b : ℕ × ℕ} (hb : b ∈ live) {x : ℕ}
    (h1 : b.1 ≤ x) (h2 : x < b.1 + capacity b.2) : ¬ AllocByte st live fl x := by
  intro hx
  obtain ⟨r, hr, hend, hkind⟩ := hi.block_run hb
  obtain ⟨r', hr', hlo, hhi, hbyte⟩ := hi.allocByte_run hx
  by_cases hrr : r = r'
  · subst hrr
    rcases hbyte with ⟨i, s, hs, h3, h4, hone⟩ | ⟨h3, -⟩
    · rcases hkind with ⟨j, hj, -, -⟩ | ⟨-, htwo, -⟩
      · have hne := hi.free_ne_live hs hb hj
        have hpos : 16 ≤ classSize i := (class_layout i).2.1
        have hcap := capacity_slab hj
        have := hi.slots_disjoint (hi.free_slot hs) (hi.live_slot hb hj) hne
        omega
      · omega
    · rcases hkind with ⟨j, -, -, h4⟩ | ⟨-, -, h4⟩ <;> omega
  · have hap := K.source.apart hr hr' hrr
    have hone : 1 ≤ r'.2 := by
      rcases hbyte with ⟨-, -, -, -, -, h⟩ | ⟨-, h⟩ <;> omega
    unfold RunsApart at hap
    rcases hkind with ⟨j, -, -, h4⟩ | ⟨-, -, h4⟩ <;> omega

/-- Different live blocks do not overlap. -/
theorem blocks_apart (hi : HeapInv K st live fl) {b c : ℕ × ℕ} (hb : b ∈ live) (hc : c ∈ live)
    (hne : b.1 ≠ c.1) : b.1 + capacity b.2 ≤ c.1 ∨ c.1 + capacity c.2 ≤ b.1 := by
  obtain ⟨r, hr, hend, hkind⟩ := hi.block_run hb
  obtain ⟨r', hr', hend', hkind'⟩ := hi.block_run hc
  by_cases hrr : r = r'
  · subst hrr
    rcases hkind with ⟨i, hci, h1, -⟩ | ⟨-, h1, h2⟩
    · rcases hkind' with ⟨j, hcj, -, -⟩ | ⟨-, h3, -⟩
      · rw [capacity_slab hci, capacity_slab hcj]
        exact hi.slots_disjoint (hi.live_slot hb hci) (hi.live_slot hc hcj) hne
      · omega
    · rcases hkind' with ⟨j, -, h3, -⟩ | ⟨-, -, h4⟩ <;> omega
  · have hap := K.source.apart hr hr' hrr
    unfold RunsApart at hap
    rcases hkind with ⟨i, -, -, h1⟩ | ⟨-, -, h1⟩ <;>
      rcases hkind' with ⟨j, -, -, h2⟩ | ⟨-, -, h2⟩ <;> omega

/-- User writes inside a live block keep the invariant. -/
theorem write (hi : HeapInv K st live fl) {b : ℕ × ℕ} (hb : b ∈ live) {m' : Mem}
    (hm : SameOutside st.mem m' b.1 (capacity b.2)) : HeapInv K { st with mem := m' } live fl := by
  apply hi.frame
  intro x hx
  apply hm
  by_contra hin
  exact hi.block_not_alloc hb (x := x) (by omega) (by omega) hx

/-! ## Taking pages from and giving pages to the page allocator -/

/-- A newly allocated run holds none of the blocks and none of the allocator's bytes. -/
theorem run_fresh {n a : ℕ} {phys' : P} {m' : Mem} (hn : 0 < n)
    (he : K.source.alloc n st.phys st.mem = some (a, phys', m')) {r : ℕ × ℕ}
    (hr : K.source.live st.phys r) : RunsApart r (a, n) := by
  have hlive := K.source.alloc_live hn he
  have hne : r ≠ (a, n) := by
    rintro rfl
    exact K.source.alloc_fresh hn he hr
  exact K.source.apart ((hlive r).mpr (Or.inr hr)) ((hlive _).mpr (Or.inl rfl)) hne

/-- Whatever is written to a newly allocated run, the heap stands. -/
theorem grow (hi : HeapInv K st live fl) {n a : ℕ} {phys' : P} {m' m'' : Mem} (hn : 0 < n)
    (he : K.source.alloc n st.phys st.mem = some (a, phys', m'))
    (hm : SameOutside st.mem m'' (K.hhdm.offset + a) (n * 0x1000)) :
    HeapInv K { st with mem := m'', phys := phys' } live fl := by
  have hframe : HeapInv K { st with mem := m'' } live fl := by
    apply hi.frame
    intro x hx
    obtain ⟨r, hr, h1, h2, hbyte⟩ := hi.allocByte_run hx
    have hap := run_fresh hn he hr
    have hone : 1 ≤ r.2 := by
      rcases hbyte with ⟨-, -, -, -, -, h⟩ | ⟨-, h⟩ <;> omega
    apply hm
    unfold RunsApart at hap
    dsimp only at hap
    omega
  have hlive (r : ℕ × ℕ) (hr : K.source.live st.phys r) : K.source.live phys' r :=
    (K.source.alloc_live hn he r).mpr (Or.inr hr)
  refine { hframe with page := fun i b hb => ?_, big := fun b hb hc => ?_ }
  · obtain ⟨a', rfl, ha⟩ := hi.page i b hb
    exact ⟨a', rfl, hlive _ ha⟩
  · obtain ⟨a', hbig⟩ := hframe.big b hb hc
    exact ⟨a', { hbig with run := hlive _ hbig.run }⟩

end HeapInv
end IceKernel.Slab
