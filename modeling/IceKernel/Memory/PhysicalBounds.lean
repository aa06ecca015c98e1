import IceKernel.Memory.PhysicalRuns

/-!
# The size of the page bitmap

Which indices reach `bitmap.get` and `bitmap.set` over whole runs, against the
buffer that `init` reserves.
-/

namespace IceKernel.Physical
open ByteMemory

section Runs

variable {entries : List MemmapEntry} {calls : List Call} {t : Trace} {m : Mem}

/-- One pass hands only indices below its limit to the bitmap. -/
theorem innerAlloc_bounded {count limit : ℕ} {s : State} (hc : 0 < count)
    (hle : s.lastIndex ≤ limit) :
    (innerAlloc count limit s).2.fixed = s.fixed ∧
    (innerAlloc count limit s).2.lastIndex ≤ limit ∧
    (∀ q ∈ s.touched, q ∈ (innerAlloc count limit s).2.touched) ∧
    (∀ q ∈ (innerAlloc count limit s).2.touched, q ∈ s.touched ∨ q < limit) ∧
    ∃ page, (innerAlloc count limit s).1 = page * pageSize ∧ (page = 0 ∨ page + count ≤ limit) := by
  rw [innerAlloc, innerAllocLoop_eq]
  cases hs : WindowScan.scan s.clearAt count (limit - s.lastIndex) s.lastIndex 0 with
  | none =>
    refine ⟨advance_fixed _ s, ?_, fun q hq => ?_, fun q hq => ?_, 0, by simp, Or.inl rfl⟩
    · simp only [advance_lastIndex]
      omega
    · exact (mem_advance_touched _ s q).mpr (Or.inr hq)
    · rcases (mem_advance_touched _ s q).mp hq with h | h
      · exact Or.inr (by omega)
      · exact Or.inl h
  | some j =>
    obtain ⟨hcj, -, -⟩ := WindowScan.scan_sound hc (Nat.zero_le _)
      (fun q hq hlt => absurd hlt (by omega)) hs
    have hj := WindowScan.scan_bounds hs
    refine ⟨?_, ?_, fun q hq => ?_, fun q hq => ?_, j - count, rfl, Or.inr (by omega)⟩
    · rw [setPages_fixed, advance_fixed]
    · rw [setPages_lastIndex, advance_lastIndex]
      omega
    · rw [mem_setPages_touched, mem_advance_touched]
      exact Or.inr (Or.inr hq)
    · rw [mem_setPages_touched, mem_advance_touched] at hq
      rcases hq with h | h | h
      · exact Or.inr (by omega)
      · exact Or.inr (by omega)
      · exact Or.inl h

/-- `alloc` hands only page indices below `mem_usable_top` to the bitmap, and returns only runs
of such pages, whether or not page 0 is usable. -/
theorem alloc_bounded (off : ℕ) {count : ℕ} {s : State} (m : Mem) (hc : 0 < count)
    (hle : s.lastIndex ≤ s.pageCount) :
    (alloc off count s m).2.1.memUsableTop = s.memUsableTop ∧
    (alloc off count s m).2.1.bitmapSize = s.bitmapSize ∧
    (alloc off count s m).2.1.lastIndex ≤ s.pageCount ∧
    (∀ q ∈ (innerAlloc count s.pageCount s).2.touched, q ∈ (alloc off count s m).2.1.touched) ∧
    (∀ q ∈ (alloc off count s m).2.1.touched, q ∈ s.touched ∨ q < s.pageCount) ∧
    ∀ ptr, (alloc off count s m).1 = .ok ptr → ptr / pageSize + count ≤ s.pageCount := by
  have hps : 0 < pageSize := by norm_num [pageSize]
  obtain ⟨hf1, hl1, -, ht1, page1, hr1, hp1⟩ := innerAlloc_bounded hc hle
  rcases hr : innerAlloc count s.pageCount s with ⟨ret1, t1⟩
  rw [hr] at hf1 hl1 ht1 hr1
  dsimp only at hf1 hl1 ht1 hr1
  -- a pass that succeeds did not start its run at page 0, since that would read as `nullptr`
  have hpage (ret page limit : ℕ) (hne : ret ≠ 0) (hr : ret = page * pageSize)
      (hp : page = 0 ∨ page + count ≤ limit) (hlim : limit ≤ s.pageCount) :
      ret / pageSize + count ≤ s.pageCount := by
    rw [hr, Nat.mul_div_cancel _ hps]
    rcases hp with rfl | hp
    · exact absurd (by simpa using hr) hne
    · omega
  simp only [State.fixed, Prod.mk.injEq] at hf1
  -- the second pass runs with the old cursor as its limit
  by_cases hz : ret1 = 0
  · obtain ⟨hf2, hl2, hm2, ht2, page2, hr2, hp2⟩ :=
      innerAlloc_bounded (s := { t1 with lastIndex := 0 }) hc (Nat.zero_le s.lastIndex)
    rcases hr' : innerAlloc count s.lastIndex { t1 with lastIndex := 0 } with ⟨ret2, t2⟩
    rw [hr'] at hf2 hl2 hm2 ht2 hr2
    dsimp only at hf2 hl2 hm2 ht2 hr2
    simp only [State.fixed, Prod.mk.injEq] at hf2
    subst hz
    have ht (q : ℕ) (hq : q ∈ t2.touched) : q ∈ s.touched ∨ q < s.pageCount := by
      rcases ht2 q hq with h | h
      · exact ht1 q h
      · exact Or.inr (h.trans_le hle)
    rw [alloc_of_second off m hc hr hr']
    by_cases hz2 : ret2 = 0
    · rw [if_pos hz2]
      exact ⟨hf2.1.trans hf1.1, hf2.2.2.1.trans hf1.2.2.1, hl2.trans hle, hm2, ht,
        fun ptr hptr => by simp at hptr⟩
    · rw [if_neg hz2]
      refine ⟨hf2.1.trans hf1.1, hf2.2.2.1.trans hf1.2.2.1, hl2.trans hle, hm2, ht, ?_⟩
      intro ptr hptr
      obtain rfl : ret2 = ptr := by simpa using hptr
      exact hpage ret2 page2 s.lastIndex hz2 hr2 hp2 hle
  · rw [alloc_of_first off m hc hr hz]
    refine ⟨hf1.1, hf1.2.2.1, hl1, fun q hq => hq, ht1, fun ptr hptr => ?_⟩
    obtain rfl : ret1 = ptr := by simpa using hptr
    exact hpage ret1 page1 s.pageCount hz hr1 hp1 le_rfl

/-- Every index handed to the bitmap, and every page of a live pair, is below the top. -/
structure Bounded (s0 : State) (t : Trace) : Prop where
  layout : t.state.memUsableTop = s0.memUsableTop ∧ t.state.bitmapSize = s0.bitmapSize
  cursor : t.state.lastIndex ≤ t.state.pageCount
  touched : ∀ q ∈ t.state.touched, q < t.state.pageCount
  live : ∀ a ∈ t.live, a.2 = 0 ∨ a.1 / pageSize + a.2 ≤ t.state.pageCount

theorem Bounded.step {s0 : State} (off : ℕ) (t : Trace) (c : Call) (t' : Trace)
    (hb : Bounded s0 t) (h : Physical.step off t c = some t') : Bounded s0 t' := by
  cases c with
  | alloc count =>
    by_cases hz : count = 0
    · subst hz
      obtain rfl : (⟨t.state, t.mem, (0, 0) :: t.live⟩ : Trace) = t' := by
        simpa [Physical.step, alloc] using h
      refine ⟨hb.layout, hb.cursor, hb.touched, fun a ha => ?_⟩
      rcases List.mem_cons.mp ha with rfl | ha
      · exact Or.inl rfl
      · exact hb.live a ha
    · obtain ⟨htop, hsize, hcur, -, ht, hptr⟩ :=
        alloc_bounded off t.mem (Nat.pos_of_ne_zero hz) hb.cursor
      rcases hr : alloc off count t.state t.mem with ⟨r, s', m'⟩
      rw [hr] at htop hsize hcur ht hptr
      have hpc : s'.pageCount = t.state.pageCount := by
        rw [State.pageCount, State.pageCount, htop]
      cases r with
      | error msg => simp [Physical.step, hr] at h
      | ok ptr =>
        simp only [Physical.step, hr, Option.some.injEq] at h
        subst h
        refine ⟨⟨htop.trans hb.layout.1, hsize.trans hb.layout.2⟩, hcur.trans hpc.ge, ?_, ?_⟩
        · intro q hq
          rw [hpc]
          exact (ht q hq).elim (hb.touched q) id
        · intro a ha
          rw [hpc]
          rcases List.mem_cons.mp ha with rfl | ha
          · exact Or.inr (hptr ptr rfl)
          · exact hb.live a ha
  | free ptr count =>
    simp only [Physical.step] at h
    split_ifs at h with hl
    simp only [Option.some.injEq] at h
    subst h
    have hlive : ∀ a ∈ t.live.erase (ptr, count), a ∈ t.live := fun a => List.mem_of_mem_erase
    by_cases hp : ptr = 0
    · have hfree : free ptr count t.state = t.state := by simp [free, hp]
      rw [hfree]
      exact ⟨hb.layout, hb.cursor, hb.touched, fun a ha => hb.live a (hlive a ha)⟩
    · have hfix := setPages_fixed false t.state (ptr / pageSize) count
      simp only [State.fixed, Prod.mk.injEq] at hfix
      constructor
      · simp only [free, hp, if_false, hfix]
        exact hb.layout
      · simp only [free, hp, if_false, State.pageCount, hfix, setPages_lastIndex]
        exact (min_le_left _ _).trans hb.cursor
      · simp only [free, hp, if_false, State.pageCount, hfix, mem_setPages_touched]
        rintro q (hq | hq)
        · rcases hb.live _ hl with hz | hle
          · dsimp only at hz
            omega
          · exact hq.2.trans_le hle
        · exact hb.touched q hq
      · simp only [free, hp, if_false, State.pageCount, hfix]
        exact fun a ha => hb.live a (hlive a ha)

/-- A request for more pages than there are reads every bit, the last one included. -/
theorem last_page_touched (off : ℕ) (m : Mem) (hv : ValidMemmap entries)
    (hpos : 0 < usableTop entries / pageSize) :
    usableTop entries / pageSize - 1 ∈
      (alloc off (usableTop entries / pageSize + 1) (init off entries).2 m).2.1.touched := by
  obtain ⟨base, hs⟩ := init_spec off hv
  have hpc : (init off entries).2.pageCount = usableTop entries / pageSize := by
    rw [State.pageCount, hs.memUsableTop]
  have hle : (init off entries).2.lastIndex ≤ (init off entries).2.pageCount := by
    rw [hs.lastIndex]
    exact Nat.zero_le _
  generalize usableTop entries / pageSize = n at hpos hpc ⊢
  obtain ⟨-, -, -, hsub, -, -⟩ := alloc_bounded off m (Nat.succ_pos n) hle
  apply hsub
  rw [innerAlloc, innerAllocLoop_eq]
  cases hsc : WindowScan.scan (init off entries).2.clearAt (n + 1)
      ((init off entries).2.pageCount - (init off entries).2.lastIndex)
      (init off entries).2.lastIndex 0 with
  | none =>
    refine (mem_advance_touched _ _ _).mpr (Or.inl ?_)
    rw [hs.lastIndex, hpc]
    omega
  | some j =>
    have hj := (WindowScan.scan_bounds hsc).2
    have hc := (WindowScan.scan_sound (Nat.succ_pos n) (Nat.zero_le _)
      (fun q hq hlt => absurd hlt (by omega)) hsc).1
    rw [hs.lastIndex, hpc] at hj
    omega

/-- The reserved buffer ends before the last page bit when the page count is 1 to 7 modulo the
8 * 4096 pages that one bitmap page covers. -/
theorem bitmapSize_le {n top : ℕ} (htop : top < 2 ^ 64) (hn : top / pageSize = n)
    (hres : ¬ (n % 32768 = 0 ∨ 8 ≤ n % 32768)) : 8 * bitmapSizeFor top ≤ n - 1 := by
  rw [bitmapSizeFor_eq htop]
  unfold pageSize at hn
  omega

theorem le_bitmapSize {n top : ℕ} (htop : top < 2 ^ 64) (hn : top / pageSize = n)
    (hres : n % 32768 = 0 ∨ 8 ≤ n % 32768) : n ≤ 8 * bitmapSizeFor top := by
  rw [bitmapSizeFor_eq htop]
  unfold pageSize at hn
  omega

/-- The indices the allocator uses stay inside the reserved buffer exactly when the number of
pages below `mem_usable_top` is not 1 to 7 modulo 8 * 4096, the pages one bitmap page covers. -/
theorem bitmap_covers_iff (off : ℕ) (m : Mem) (hv : ValidMemmap entries) :
    (∀ calls t, Run.run (step off) (boot off entries m) calls = some t →
      (∀ i ∈ t.state.touched, i < 8 * t.state.bitmapSize) ∧
      ∀ count, ∀ i ∈ (alloc off count t.state t.mem).2.1.touched, i < 8 * t.state.bitmapSize) ↔
    (usableTop entries / pageSize % 32768 = 0 ∨ 8 ≤ usableTop entries / pageSize % 32768) := by
  obtain ⟨base, hs⟩ := init_spec off hv
  have hpc : (init off entries).2.pageCount = usableTop entries / pageSize := by
    rw [State.pageCount, hs.memUsableTop]
  constructor
  · intro h
    by_contra hres
    have hsize := bitmapSize_le (usableTop_lt entries) rfl hres
    have hlast := last_page_touched off m hv (Nat.pos_of_ne_zero fun hz => hres (by simp [hz]))
    -- an allocation of more pages than there are, right after boot, reads the last bit
    have hbad := (h [] (boot off entries m) rfl).2 _ _ hlast
    change _ < 8 * (init off entries).2.bitmapSize at hbad
    rw [hs.bitmapSize] at hbad
    omega
  · intro hres calls t hrun
    have hb : Bounded (init off entries).2 t := by
      refine Run.run_invariant (Bounded.step off) ⟨⟨rfl, rfl⟩, ?_, ?_, ?_⟩ hrun
      · exact (hs.lastIndex.trans_le (Nat.zero_le _))
      · intro q hq
        obtain ⟨⟨e, he, hp⟩, -⟩ := (hs.clear q).mp ((hs.touched q).mp hq)
        exact (hv.page_lt he hp).trans_eq hpc.symm
      · exact fun a ha => absurd ha (List.not_mem_nil)
    -- the layout is that of boot, so the bound on the buffer carries over
    have htop : t.state.pageCount ≤ 8 * t.state.bitmapSize := by
      rw [hb.layout.2, hs.bitmapSize, State.pageCount, hb.layout.1, hs.memUsableTop]
      exact le_bitmapSize (usableTop_lt entries) rfl hres
    refine ⟨fun i hi => (hb.touched i hi).trans_le htop, fun count i hi => ?_⟩
    by_cases hz : count = 0
    · subst hz
      exact (hb.touched i (by simpa [alloc] using hi)).trans_le htop
    · obtain ⟨-, -, -, -, ht, -⟩ :=
        alloc_bounded off t.mem (Nat.pos_of_ne_zero hz) hb.cursor
      rcases ht i hi with h | h
      · exact (hb.touched i h).trans_le htop
      · exact h.trans_le htop

theorem bitmap_covers_iff_small : ValidMemmap smallMap ∧
    ∀ calls t, Run.run (step smallHhdm.offset) smallBoot calls = some t →
      (∀ i ∈ t.state.touched, i < 8 * t.state.bitmapSize) ∧
      ∀ count, ∀ i ∈ (alloc smallHhdm.offset count t.state t.mem).2.1.touched,
        i < 8 * t.state.bitmapSize :=
  ⟨smallMap_valid, (bitmap_covers_iff smallHhdm.offset (fun _ => 0#8) smallMap_valid).mpr (by decide)⟩

/-- A machine with 128 MiB and one page: 32769 page bits, a 4096-byte bitmap. -/
def oddMap : List MemmapEntry := [⟨0x100000, 0x7F01000, .usable⟩]

theorem oddMap_valid : ValidMemmap oddMap where
  aligned := by decide
  noWrap := by decide
  disjoint := List.pairwise_singleton _ _
  room := ⟨_, List.mem_cons_self, rfl, by decide⟩

theorem last_bit_outside : ValidMemmap oddMap ∧
    ∃ i ∈ (alloc 0xffff800000000000 32770 (init 0xffff800000000000 oddMap).2
      fun _ => 0#8).2.1.touched,
      8 * (init 0xffff800000000000 oddMap).2.bitmapSize ≤ i := by
  obtain ⟨base, hs⟩ := init_spec 0xffff800000000000 oddMap_valid
  have hlast := last_page_touched 0xffff800000000000 (fun _ => 0#8) oddMap_valid (by decide)
  have hcount : usableTop oddMap / pageSize = 32769 := by decide
  simp only [hcount, Nat.reduceSub, Nat.reduceAdd] at hlast
  refine ⟨oddMap_valid, 32768, hlast, ?_⟩
  rw [hs.bitmapSize]
  decide

end Runs

end IceKernel.Physical
