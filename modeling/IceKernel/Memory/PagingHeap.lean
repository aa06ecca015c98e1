import IceKernel.Memory.PagingWalk
import IceKernel.Memory.SlabRuns

/-!
# Page tables from the heap

`new page_table_t` is `malloc(4096)`. The slab allocator, on top of the page
allocator, hands out tables as the page-table code needs them.
-/

namespace IceKernel.Paging
open Word64

variable {P : Type}

/-- A heap that has been used correctly so far, with its live blocks. -/
structure Pool (K : Slab.Kernel P) where
  heap : Slab.Heap P
  live : List (ℕ × ℕ)
  ok : Slab.HeapOk K heap live

namespace Pool

variable {K : Slab.Kernel P} {s s' : Pool K} {q : ℕ}

/-- `operator new(sizeof(page_table_t))`. -/
def alloc (s : Pool K) : Option (ℕ × Pool K) :=
  match he : Slab.malloc K KiB4 s.heap with
  | none => none
  | some (q, heap) =>
    some (q, ⟨heap, (q, KiB4) :: s.live, (Slab.malloc_spec s.ok (by decide) he).1⟩)

theorem alloc_live (he : s.alloc = some (q, s')) : s'.live = (q, KiB4) :: s.live := by
  unfold alloc at he
  split at he
  · simp at he
  · simp only [Option.some.injEq, Prod.mk.injEq] at he
    obtain ⟨rfl, rfl⟩ := he
    rfl

/-- A table is a big block: it starts one page above the start of its run. -/
theorem table_run (hq : (q, KiB4) ∈ s.live) :
    ∃ a, q = K.hhdm.offset + a + KiB4 ∧ K.source.live s.heap.phys (a, 2) := by
  obtain ⟨-, fl, hi⟩ := s.ok
  have hbig : Slab.classFor KiB4 = none := by decide
  have hpages : divRoundup KiB4 0x1000 + 1 = 2 := by decide
  obtain ⟨a, ha⟩ := hi.big (q, KiB4) hq hbig
  have hrun := ha.run
  rw [hpages] at hrun
  exact ⟨a, ha.ptr, hrun⟩

theorem alloc_addr (hlim : K.hhdm.limit ≤ 2 ^ 52) (he : s.alloc = some (q, s')) :
    ∃ a, q = K.hhdm.offset + a ∧ a % KiB4 = 0 ∧ a < K.hhdm.limit ∧ a < 2 ^ 52 := by
  obtain ⟨a, hq, hrun⟩ := table_run (s := s') (by rw [alloc_live he]; exact List.mem_cons_self)
  have hal := K.source.aligned hrun
  have hwin := K.source.inWindow hrun
  dsimp only at hal hwin
  have hpage : KiB4 = 0x1000 := rfl
  refine ⟨a + KiB4, by omega, ?_, by omega, by omega⟩
  rw [hpage, Nat.add_mod_right, hal]

theorem alloc_fresh (he : s.alloc = some (q, s')) : (q, KiB4) ∉ s.live := by
  intro hn
  obtain ⟨-, fl, hi⟩ := s'.ok
  have hnd := hi.ptrs
  rw [alloc_live he, List.map_cons, List.nodup_cons] at hnd
  exact hnd.1 (List.mem_map_of_mem hn)

/-- The heap as a source of page tables. -/
def source (K : Slab.Kernel P) (hlim : K.hhdm.limit ≤ 2 ^ 52) : TableSource K.hhdm (Pool K) where
  alloc := alloc
  owned s x := (x, KiB4) ∈ s.live
  alloc_addr he := alloc_addr hlim he
  alloc_fresh he := alloc_fresh he
  alloc_owned he x := by
    rw [alloc_live he, List.mem_cons, Prod.mk.injEq]
    exact or_congr_left (and_iff_left rfl)

/-- The heap right after its constructor. -/
def ofConstruct {phys : P} {m : ByteMemory.Mem} {heap : Slab.Heap P}
    (he : Slab.construct K phys m = some heap) : Pool K :=
  ⟨heap, [], Slab.construct_spec he⟩

end Pool

section Stack

variable {h : Hhdm} {entries : List MemmapEntry} (hv : Physical.ValidMemmap entries)
  (hz : Physical.NoPageZero entries) (hcov : Physical.usableTop entries ≤ h.limit)
  (hlim : h.limit ≤ 2 ^ 52) {base : ℕ} (hbase : base + 168 < 2 ^ 64) (gib1Pages : Bool)

/-- The whole stack: page tables from the slab allocator, its pages from `physical::alloc`. -/
def kernelMachine : Machine (Pool ⟨h, Physical.Pages.source h hv hz hcov, base, hbase⟩) :=
  ⟨h, Pool.source ⟨h, Physical.Pages.source h hv hz hcov, base, hbase⟩ hlim, gib1Pages⟩

/-- Every page table lies in usable memory, outside the bitmap of the page allocator. -/
theorem tables_in_usable_memory {top : ℕ}
    {st : State (Pool ⟨h, Physical.Pages.source h hv hz hcov, base, hbase⟩)}
    (ht : Tables (kernelMachine hv hz hcov hlim hbase gib1Pages) top st) {t : ℕ}
    (hm : t ∈ st.tables) :
    ∃ q, t = h.offset + q * KiB4 ∧ (∃ e ∈ entries, e.HasPage q) ∧
      ¬ (Physical.init h.offset entries).2.BitmapPage h.offset q := by
  obtain ⟨a, hta, hal, -⟩ := ht.addr t hm
  have hta' : t = h.offset + a := hta
  obtain ⟨r, hr, hrun⟩ := Pool.table_run (ht.owned t hm)
  have hr' : t = h.offset + r + KiB4 := hr
  have hlive : st.heap.heap.phys.Live (r, 2) := hrun
  have hown : Physical.Owns (r, 2) (a / KiB4) := by
    unfold KiB4 at hr'
    unfold Physical.Owns KiB4
    simp only [show pageSize = 4096 from rfl]
    omega
  obtain ⟨start, hs⟩ := Physical.init_spec h.offset hv
  obtain ⟨husable, hbitmap⟩ := (hs.clear _).mp (st.heap.heap.phys.inv.owned (r, 2) hlive.1 _ hown)
  refine ⟨a / KiB4, ?_, husable, fun hb => hbitmap ((hs.bitmapPage_iff hv hcov _).mp hb)⟩
  rw [Nat.div_mul_cancel (Nat.dvd_of_mod_eq_zero hal)]
  exact hta

/-- From boot on, the walks of clear calls go through usable memory only. -/
theorem walks_in_usable_memory {phys : Physical.Pages h.offset entries} {m : ByteMemory.Mem}
    {heap : Slab.Heap (Physical.Pages h.offset entries)}
    (hheap : Slab.construct ⟨h, Physical.Pages.source h hv hz hcov, base, hbase⟩ phys m =
      some heap) {mem : Mem} {top : ℕ} {ops : List Op}
    {st₀ st : State (Pool ⟨h, Physical.Pages.source h hv hz hcov, base, hbase⟩)}
    (h0 : construct (kernelMachine hv hz hcov hlim hbase gib1Pages) none
      (start mem (Pool.ofConstruct hheap)) = some (top, st₀))
    (hclear : Run.Along (opStep (kernelMachine hv hz hcov hlim hbase gib1Pages) top)
      (fun st op => op.Clear (kernelMachine hv hz hcov hlim hbase gib1Pages) top st) st₀ ops)
    (hrun : Run.run (opStep (kernelMachine hv hz hcov hlim hbase gib1Pages) top) st₀ ops =
      some st) {t : ℕ} (hm : t ∈ st.visited) :
    ∃ q, t = h.offset + q * KiB4 ∧ (∃ e ∈ entries, e.HasPage q) ∧
      ¬ (Physical.init h.offset entries).2.BitmapPage h.offset q := by
  obtain ⟨ht, honly⟩ := clear_run_spec (.first h0) hclear hrun
  exact tables_in_usable_memory hv hz hcov hlim hbase gib1Pages ht (honly.visited t hm)

end Stack

end IceKernel.Paging
