import IceKernel.Memory.SlabRuns

/-!
# Requests near `2^64`

`calloc` multiplies and `big_malloc` rounds up without a check. Where one of
these wraps, the block is smaller than the request.
-/

namespace IceKernel.Slab
open ByteMemory Word64

variable {P : Type} {K : Kernel P} {st st' : Heap P} {live : List (ℕ × ℕ)} {num size n q c : ℕ}

/-- The block at `ptr` has `c` bytes: it is a slot of a slab, or a run after its metadata page. -/
inductive Extent (K : Kernel P) (st : Heap P) (ptr : ℕ) : ℕ → Prop
  | slot (i : Fin 10) (page : ℕ) : page ∈ st.carved i → ptr ∈ slotsOf i page →
      Extent K st ptr (classSize i)
  | run (a pages : ℕ) : K.source.live st.phys (a, pages + 1) →
      ptr = K.hhdm.offset + a + 0x1000 → Extent K st ptr (pages * 0x1000)

theorem Extent.setMem (h : Extent K st q c) (m : Mem) : Extent K { st with mem := m } q c := by
  cases h with
  | slot i page hpage hslot => exact Extent.slot i page hpage hslot
  | run a pages hrun hptr => exact Extent.run a pages hrun hptr

theorem divRoundup_wrapped (hn : n < 2 ^ 64) (hw : ¬ n + 0xFFF < 2 ^ 64) :
    divRoundup n 0x1000 = 0 := by
  have hsub : sub (wrap (n + 0x1000)) 1 < 0x1000 := by
    unfold sub wrap
    omega
  have hdown := alignDown_page (n := sub (wrap (n + 0x1000)) 1) (by omega)
  rw [divRoundup, hdown]
  omega

theorem capacity_wrapped (hn : n < 2 ^ 64) (hw : ¬ n + 0xFFF < 2 ^ 64) :
    classFor n = none ∧ capacity n = 0 := by
  have hnone : classFor n = none := by
    cases hc : classFor n with
    | none => rfl
    | some i =>
      have hle := classFor_eq_some hc
      have hfit := (class_layout i).2.2.2.2.2
      have hcount := (class_layout i).2.2.2.2.1
      have hone := Nat.le_mul_of_pos_left (classSize i) hcount
      omega
  exact ⟨hnone, by rw [capacity_big hnone, divRoundup_wrapped hn hw, Nat.zero_mul]⟩

theorem capacity_lt (hn : n < 2 ^ 64) : capacity n < 2 ^ 64 := by
  by_cases hw : n + 0xFFF < 2 ^ 64
  · cases hc : classFor n with
    | some i =>
      have hfit := (class_layout i).2.2.2.2.2
      have hcount := (class_layout i).2.2.2.2.1
      have hone := Nat.le_mul_of_pos_left (classSize i) hcount
      rw [capacity_slab hc]
      omega
    | none =>
      rw [capacity_big hc, divRoundup_page hw]
      omega
  · rw [(capacity_wrapped hn hw).2]
    norm_num

/-- The block that `malloc` returns, also for a request that wraps. -/
theorem malloc_extent (h : HeapOk K st live) (hn : n < 2 ^ 64) (hq : q ≠ 0)
    (he : malloc K n st = some (q, st')) : Extent K st' q (capacity n) := by
  by_cases hw : n + 0xFFF < 2 ^ 64
  · obtain ⟨⟨-, fl, hi⟩, -, -⟩ := malloc_spec h hw he
    cases hc : classFor n with
    | some i =>
      obtain ⟨page, hp, hslot⟩ :=
        HeapInv.mem_carvedSlots.mp (hi.live_slot (b := (q, n)) List.mem_cons_self hc)
      rw [capacity_slab hc]
      exact Extent.slot i page hp hslot
    | none =>
      obtain ⟨a, hbig⟩ := hi.big (q, n) List.mem_cons_self hc
      rw [capacity_big hc]
      exact Extent.run a _ hbig.run hbig.ptr
  · obtain ⟨hc, hcap⟩ := capacity_wrapped hn hw
    rw [malloc, getSlab_eq h.1, hc] at he
    dsimp only at he
    rw [bigMalloc, divRoundup_wrapped hn hw, wrap_of_lt (by norm_num)] at he
    -- the page for the metadata is all there is
    obtain ⟨⟨a, phys', m'⟩, hal, heq⟩ := Option.map_eq_some_iff.mp he
    obtain ⟨haddr, htop⟩ := run_addr Nat.one_pos hal
    simp only [haddr, Prod.mk.injEq] at heq
    obtain ⟨rfl, rfl⟩ := heq
    have hlt : K.hhdm.offset + a + 0x1000 < 2 ^ 64 := by
      by_contra hend
      apply hq
      unfold wrap
      omega
    have hrun : Extent K ⟨st.slabs, store64 (store64 m' (K.hhdm.offset + a) 0)
          (K.hhdm.offset + a + 8) n, phys', st.carved⟩
        (wrap (K.hhdm.offset + a + 0x1000)) (0 * 0x1000) :=
      Extent.run a 0 ((K.source.alloc_live Nat.one_pos hal _).mpr (Or.inl rfl)) (wrap_of_lt hlt)
    rw [hcap]
    rwa [Nat.zero_mul] at hrun

/-- `calloc` gets its block from `malloc`, for the product modulo `2^64`. -/
theorem calloc_extent (h : HeapOk K st live) (hq : q ≠ 0)
    (he : calloc K num size st = some (q, st')) :
    Extent K st' q (capacity (wrap (num * size))) := by
  obtain ⟨⟨p, st₁⟩, hm, heq⟩ := Option.map_eq_some_iff.mp he
  dsimp only at heq
  split_ifs at heq with hp
  · exact absurd (Prod.mk.inj heq).1.symm hq
  · obtain ⟨rfl, rfl⟩ := Prod.mk.inj heq
    exact (malloc_extent h (wrap_lt _) hp hm).setMem _

/-- The request fits exactly when rounding it up does not wrap. -/
theorem le_capacity_iff (hn : n < 2 ^ 64) : n ≤ capacity n ↔ n + 0xFFF < 2 ^ 64 := by
  refine ⟨fun hle => ?_, le_capacity⟩
  by_contra hw
  rw [(capacity_wrapped hn hw).2] at hle
  omega

theorem product_le_capacity_iff :
    num * size ≤ capacity (wrap (num * size)) ↔ num * size + 0xFFF < 2 ^ 64 := by
  by_cases hlt : num * size < 2 ^ 64
  · rw [wrap_of_lt hlt, le_capacity_iff hlt]
  · have hcap := capacity_lt (wrap_lt (num * size))
    exact ⟨fun hle => by omega, fun hw => by omega⟩

/-- The blocks that `malloc` and `calloc` return have the bytes asked for exactly when the request,
rounded up to whole pages, is below `2^64`. -/
theorem block_fits_iff (h : HeapOk K st live) :
    (∀ size q st', size < 2 ^ 64 → malloc K size st = some (q, st') → q ≠ 0 →
      ∃ c, Extent K st' q c ∧ (size ≤ c ↔ size + 0xFFF < 2 ^ 64)) ∧
    ∀ num size q st', num < 2 ^ 64 → size < 2 ^ 64 → calloc K num size st = some (q, st') →
      q ≠ 0 → ∃ c, Extent K st' q c ∧ (num * size ≤ c ↔ num * size + 0xFFF < 2 ^ 64) :=
  ⟨fun _ _ _ hn he hq => ⟨_, malloc_extent h hn hq he, le_capacity_iff hn⟩,
    fun _ _ _ _ _ _ he hq => ⟨_, calloc_extent h hq he, product_le_capacity_iff⟩⟩

theorem block_fits_iff_small :
    ∃ heap q st' c, construct Physical.heapKernel Physical.heapBoot (fun _ => 0#8) = some heap ∧
      malloc Physical.heapKernel 5000 heap = some (q, st') ∧
      Extent Physical.heapKernel st' q c ∧ 5000 ≤ c := by
  have hvals : ((construct Physical.heapKernel Physical.heapBoot fun _ => 0#8).bind fun heap =>
      (malloc Physical.heapKernel 5000 heap).map Prod.fst) = some 0xffff80000000d000 := by
    decide +kernel
  obtain ⟨heap, h0, h1⟩ := Option.bind_eq_some_iff.mp hvals
  obtain ⟨⟨q, st'⟩, he, rfl⟩ := Option.map_eq_some_iff.mp h1
  obtain ⟨c, hext, hc⟩ :=
    (block_fits_iff (construct_spec h0)).1 5000 _ st' (by norm_num) he (by norm_num)
  exact ⟨heap, _, st', c, h0, he, hext, hc.mpr (by norm_num)⟩

/-- `calloc(2^63, 2)` and `malloc(2^64 - 1)` return blocks of 16 bytes and of none. -/
theorem huge_requests_served :
    ∃ heap p q st₁ st₂,
      construct Physical.heapKernel Physical.heapBoot (fun _ => 0#8) = some heap ∧
      calloc Physical.heapKernel (2 ^ 63) 2 heap = some (p, st₁) ∧ p ≠ 0 ∧
      Extent Physical.heapKernel st₁ p 16 ∧
      malloc Physical.heapKernel (2 ^ 64 - 1) heap = some (q, st₂) ∧ q ≠ 0 ∧
      Extent Physical.heapKernel st₂ q 0 := by
  have hvals : ((construct Physical.heapKernel Physical.heapBoot fun _ => 0#8).bind fun heap =>
      (calloc Physical.heapKernel (2 ^ 63) 2 heap).bind fun (p, _) =>
        (malloc Physical.heapKernel (2 ^ 64 - 1) heap).map fun (q, _) => (p, q)) =
      some (0xffff800000002010, 0xffff80000000d000) := by
    decide +kernel
  obtain ⟨heap, h0, h1⟩ := Option.bind_eq_some_iff.mp hvals
  obtain ⟨⟨p, st₁⟩, hp, h2⟩ := Option.bind_eq_some_iff.mp h1
  obtain ⟨⟨q, st₂⟩, hq, h3⟩ := Option.map_eq_some_iff.mp h2
  obtain ⟨rfl, rfl⟩ := Prod.mk.inj h3
  have hok := construct_spec h0
  have hsmall := calloc_extent hok (by norm_num) hp
  have hnone := malloc_extent hok (by norm_num) (by norm_num) hq
  rw [(capacity_wrapped (by norm_num) (by norm_num)).2] at hnone
  exact ⟨heap, _, _, st₁, st₂, h0, hp, by norm_num, hsmall, hq, by norm_num, hnone⟩

end IceKernel.Slab
