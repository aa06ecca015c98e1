import IceKernel.Memory.SlabRuns

/-!
# `realloc`

`realloc` moves a block: a new block, the contents copied, the old block
freed. The exception is the shortcut of `big_realloc` for sizes with the same
number of pages, which keeps the block but returns `nullptr`.
-/

namespace IceKernel.Slab
open ByteMemory Word64 LinkedList

variable {P : Type} {K : Kernel P} {st st' : Heap P} {live : List (ℕ × ℕ)}

/-- A move to a block of `n` bytes took place: the new block `q` is live in place of `b`, holds
the common part of the contents, and every other block is as it was. -/
structure Moved (K : Kernel P) (st : Heap P) (live : List (ℕ × ℕ)) (b : ℕ × ℕ) (n q : ℕ)
    (st' : Heap P) : Prop where
  nonnull : q ≠ 0
  heap : HeapOk K st' ((q, n) :: live)
  block : BlockOk K st' ((q, n) :: live) (q, n)
  contents : ∀ k < min b.2 n, st'.mem (q + k) = st.mem (b.1 + k)
  others : KeepsBlocks live st.mem st'.mem
  gone : q ≠ b.1 → b.1 ∉ ((q, n) :: live).map Prod.fst

theorem reallocMove_spec {b : ℕ × ℕ} {oldSize n q : ℕ} (h : HeapOk K st (b :: live))
    (hlo : b.2 ≤ oldSize) (hhi : oldSize ≤ capacity b.2) (hw : n + 0xFFF < 2 ^ 64)
    (he : reallocMove K b.1 oldSize n st = some (q, st')) : Moved K st live b n q st' := by
  unfold reallocMove at he
  obtain ⟨⟨p, st1⟩, hm, hrest⟩ := Option.bind_eq_some_iff.mp he
  obtain ⟨hok1, hk1, -⟩ := malloc_spec h hw hm
  have hp : p ≠ 0 := (hok1.ptr_pos List.mem_cons_self).ne'
  generalize hlen : (if n < oldSize then n else oldSize) = len at hrest
  have hlen' : len = min n oldSize := by
    rw [← hlen]
    split_ifs <;> omega
  have hcap := le_capacity hw
  -- the copy stays inside the new block, which is apart from the old one
  have hout : SameOutside st1.mem (memcpy st1.mem p b.1 len) p (capacity n) :=
    (memcpy_sameOutside _ _ _ _).mono (Nat.le_refl _) (by omega)
  have hok2 := hok1.write List.mem_cons_self hout
  have hap : Apart p (capacity n) b.1 (capacity b.2) := by
    obtain ⟨-, fl, hi⟩ := hok1
    exact hi.others List.mem_cons_self
  have hk2 : KeepsBlocks (b :: live) st1.mem (memcpy st1.mem p b.1 len) := by
    obtain ⟨-, fl, hi⟩ := hok1
    exact hi.write_keeps hout
  obtain ⟨st3, hfree, hok3, hk3⟩ := free_spec (hok2.perm (List.Perm.swap _ _ _))
  simp only [hp, if_false, hfree, Option.map_some, Option.some.injEq, Prod.mk.injEq] at hrest
  obtain ⟨rfl, rfl⟩ := hrest
  refine ⟨hp, hok3, ?_, fun k hk => ?_, fun c hc k hk => ?_, fun hne hmem => ?_⟩
  · obtain ⟨-, fl, hi⟩ := hok3
    exact hi.blockOk List.mem_cons_self
  · unfold Apart at hap
    calc st3.mem (p + k) = memcpy st1.mem p b.1 len (p + k) :=
          hk3 (p, n) List.mem_cons_self k (by dsimp only; omega)
      _ = st1.mem (b.1 + k) := memcpy_copies _ (by omega) k (by omega)
      _ = st.mem (b.1 + k) := hk1 b List.mem_cons_self k (by omega)
  · calc st3.mem (c.1 + k) = memcpy st1.mem p b.1 len (c.1 + k) :=
          hk3 c (List.mem_cons_of_mem _ hc) k hk
      _ = st1.mem (c.1 + k) := hk2 c (List.mem_cons_of_mem _ hc) k hk
      _ = st.mem (c.1 + k) := hk1 c (List.mem_cons_of_mem _ hc) k hk
  · obtain ⟨-, fl, hi⟩ := h
    have hnd := hi.ptrs
    rw [List.map_cons, List.nodup_cons] at hnd
    rw [List.map_cons, List.mem_cons] at hmem
    rcases hmem with heq | hmem
    · exact hne heq.symm
    · exact hnd.1 hmem

/-- A move fails to return only when the page allocator does. -/
theorem reallocMove_eq_none {b : ℕ × ℕ} {oldSize n : ℕ} (h : HeapOk K st (b :: live))
    (hw : n + 0xFFF < 2 ^ 64) (he : reallocMove K b.1 oldSize n st = none) :
    ∃ k, 0 < k ∧ K.source.alloc k st.phys st.mem = none := by
  cases hm : malloc K n st with
  | none => exact malloc_eq_none hw hm
  | some r =>
    obtain ⟨p, st1⟩ := r
    obtain ⟨hok1, -, -⟩ := malloc_spec h hw hm
    have hp : p ≠ 0 := (hok1.ptr_pos List.mem_cons_self).ne'
    have hlen : (if n < oldSize then n else oldSize) ≤ capacity n := by
      have := le_capacity hw
      split_ifs <;> omega
    have hok2 := hok1.write List.mem_cons_self
      ((memcpy_sameOutside st1.mem p b.1 _).mono (Nat.le_refl _) (Nat.add_le_add_left hlen p))
    obtain ⟨st3, hfree, -⟩ := free_spec (hok2.perm (List.Perm.swap _ _ _))
    simp [reallocMove, hm, hp, hfree] at he

/-- Both sizes take the same number of pages and the block is a big one: the case in which
`big_realloc` keeps the block. -/
def SamePages (m n : ℕ) : Prop := classFor m = none ∧ divRoundup m 0x1000 = divRoundup n 0x1000

instance (m n : ℕ) : Decidable (SamePages m n) := inferInstanceAs (Decidable (_ ∧ _))

/-- Which of its paths `realloc` takes for a live pointer. -/
theorem realloc_eq (h : HeapOk K st live) {b : ℕ × ℕ} (hb : b ∈ live) (n : ℕ) :
    ∃ oldSize, b.2 ≤ oldSize ∧ oldSize ≤ capacity b.2 ∧ realloc K b.1 n st =
      if SamePages b.2 n then
        some (0, { st with mem := store64 st.mem (sub b.1 0x1000 + 8) n })
      else if n = 0 then (free K b.1 st).map fun st => (0, st)
      else reallocMove K b.1 oldSize n st := by
  have hpos := (h.ptr_pos hb).ne'
  obtain ⟨hs, fl, hi⟩ := h
  have hal := hi.pageAligned_iff hb
  have hfit := (hi.blockOk hb).fits
  rw [realloc, if_neg hpos]
  cases hc : classFor b.2 with
  | none =>
    obtain ⟨a, hbig⟩ := hi.big b hb hc
    refine ⟨b.2, Nat.le_refl _, hfit, ?_⟩
    rw [if_pos (hal.mpr hc), bigRealloc, if_neg hpos, HeapInv.meta_addr hbig hc]
    dsimp only
    rw [hbig.size]
    exact if_congr (by simp [SamePages, hc]) rfl rfl
  | some i =>
    have hcap := capacity_slab hc
    refine ⟨classSize i, by omega, by omega, ?_⟩
    rw [if_neg (by rw [hal, hc]; exact Option.some_ne_none i), hi.ownerOf_eq hb hc,
      if_neg (by simp [SamePages, hc])]
    simp only [Option.bind_some, hs i]

/-- The contract of `realloc(p, n)` for the live block `b` at `p` and `n > 0`. -/
def ReallocContract (K : Kernel P) (t : Trace P) (b : ℕ × ℕ) (n : ℕ) : Prop :=
  (realloc K b.1 n t.heap = none → ∃ k, 0 < k ∧ K.source.alloc k t.heap.phys t.heap.mem = none) ∧
  ∀ q st, realloc K b.1 n t.heap = some (q, st) → Moved K t.heap (t.live.erase b) b n q st

theorem reallocContract_iff {t : Trace P} (h : HeapOk K t.heap t.live) {b : ℕ × ℕ}
    (hb : b ∈ t.live) {n : ℕ} (hn : 0 < n) (hw : n + 0xFFF < 2 ^ 64) :
    ReallocContract K t b n ↔ ¬ SamePages b.2 n := by
  obtain ⟨oldSize, hlo, hhi, he⟩ := realloc_eq h hb n
  have hperm := h.perm (List.perm_cons_erase hb)
  unfold ReallocContract
  rw [he]
  constructor
  · intro hcon hsame
    rw [if_pos hsame] at hcon
    exact (hcon.2 _ _ rfl).nonnull rfl
  · intro hdiff
    rw [if_neg hdiff, if_neg hn.ne']
    exact ⟨fun hnone => reallocMove_eq_none hperm hw hnone,
      fun q st hsome => reallocMove_spec hperm hlo hhi hw hsome⟩

/-- `realloc(p, 0)` is `free(p)` and returns `nullptr`. -/
theorem realloc_zero {t : Trace P} (h : HeapOk K t.heap t.live) {b : ℕ × ℕ} (hb : b ∈ t.live) :
    ∃ st, realloc K b.1 0 t.heap = some (0, st) ∧ free K b.1 t.heap = some st ∧
      HeapOk K st (t.live.erase b) ∧ KeepsBlocks (t.live.erase b) t.heap.mem st.mem := by
  obtain ⟨oldSize, -, -, he⟩ := realloc_eq h hb 0
  obtain ⟨st, hf, hok, hk⟩ := free_spec (h.perm (List.perm_cons_erase hb))
  refine ⟨st, ?_, hf, hok, hk⟩
  have hdiff : ¬ SamePages b.2 0 := by
    rintro ⟨hc, hpages⟩
    obtain ⟨-, fl, hi⟩ := h
    obtain ⟨a, hbig⟩ := hi.big b hb hc
    have hpos := pages_pos hc hbig.noWrap
    rw [hpages] at hpos
    exact absurd hpos (by decide)
  rw [he, if_neg hdiff, if_pos rfl, hf]
  rfl

/-! ## Runs with `realloc` -/

inductive Op where
  | call (c : Call)
  | realloc (ptr size : ℕ)

/-- The live blocks after `realloc` of `b` to `n` bytes returned `q`. -/
def liveAfter (live : List (ℕ × ℕ)) (b : ℕ × ℕ) (n q : ℕ) : List (ℕ × ℕ) :=
  if n = 0 then live.erase b else if q = 0 then live else (q, n) :: live.erase b

/-- One call or one `realloc`, which receives `nullptr` or a live pointer. -/
def opStep (K : Kernel P) (t : Trace P) : Op → Option (Trace P)
  | .call c => step K t c
  | .realloc ptr n =>
    if n + 0xFFF < 2 ^ 64 then
      if ptr = 0 then
        (realloc K ptr n t.heap).map fun (q, st) => ⟨st, (q, n) :: t.live⟩
      else
        (t.live.find? fun b => b.1 = ptr).bind fun b =>
          (realloc K ptr n t.heap).map fun (q, st) => ⟨st, liveAfter t.live b n q⟩
    else none

/-- The operation does not take the shortcut of `big_realloc`. -/
def NoShortcut (t : Trace P) : Op → Prop
  | .call _ => True
  | .realloc ptr n => ∀ b ∈ t.live, b.1 = ptr → ¬ SamePages b.2 n

theorem HeapOk.opStep {t t' : Trace P} {o : Op} (h : HeapOk K t.heap t.live)
    (hc : NoShortcut t o) (he : opStep K t o = some t') : HeapOk K t'.heap t'.live := by
  cases o with
  | call c => exact h.step he
  | realloc ptr n =>
    rw [Slab.opStep] at he
    split_ifs at he with hw hp
    · obtain ⟨⟨q, st⟩, hm, rfl⟩ := Option.map_eq_some_iff.mp he
      rw [realloc, if_pos hp] at hm
      exact (malloc_spec h hw hm).1
    · obtain ⟨b, hb, hrest⟩ := Option.bind_eq_some_iff.mp he
      obtain ⟨⟨q, st⟩, hr, rfl⟩ := Option.map_eq_some_iff.mp hrest
      obtain rfl : b.1 = ptr := by simpa using List.find?_some hb
      have hmem := List.mem_of_find?_eq_some hb
      change HeapOk K st (liveAfter t.live b n q)
      unfold liveAfter
      by_cases hn : n = 0
      · subst hn
        obtain ⟨st1, hr1, -, hok, -⟩ := realloc_zero h hmem
        simp only [hr, Option.some.injEq, Prod.mk.injEq] at hr1
        rw [if_pos rfl, hr1.2]
        exact hok
      · have hmoved := ((reallocContract_iff h hmem (Nat.pos_of_ne_zero hn) hw).mpr
          (hc b hmem rfl)).2 q st hr
        rw [if_neg hn, if_neg hmoved.nonnull]
        exact hmoved.heap

/-- In every state reached without the shortcut, `realloc` of a live block to `n > 0` bytes meets
its contract exactly when it does not take the shortcut; `realloc(p, 0)` and
`realloc(nullptr, n)` do what they should in all of these states. -/
theorem realloc_contract_iff (K : Kernel P) {phys : P} {m : Mem} {heap : Heap P} {ops : List Op}
    {t : Trace P} (h0 : construct K phys m = some heap)
    (hcond : Run.Along (opStep K) NoShortcut ⟨heap, []⟩ ops)
    (hrun : Run.run (opStep K) ⟨heap, []⟩ ops = some t) :
    (∀ b ∈ t.live, ∀ n, 0 < n → n + 0xFFF < 2 ^ 64 →
      (ReallocContract K t b n ↔ ¬ SamePages b.2 n)) ∧
    (∀ b ∈ t.live, ∃ st, realloc K b.1 0 t.heap = some (0, st) ∧ free K b.1 t.heap = some st ∧
      HeapOk K st (t.live.erase b) ∧ KeepsBlocks (t.live.erase b) t.heap.mem st.mem) ∧
    (∀ n, realloc K 0 n t.heap = malloc K n t.heap) := by
  have hok : HeapOk K t.heap t.live :=
    Run.run_invariant_along (I := fun t => HeapOk K t.heap t.live)
      (fun _ _ _ h hc he => HeapOk.opStep h hc he) (construct_spec h0) hcond hrun
  refine ⟨fun b hb n hn hw => reallocContract_iff hok hb hn hw, fun b hb => realloc_zero hok hb,
    fun n => ?_⟩
  rw [realloc, if_pos rfl]

/-- The allocator on the small machine after `malloc(5000)` and `realloc` to 16 bytes. -/
def movedRun :=
  (construct Physical.heapKernel Physical.heapBoot fun _ => 0#8).bind fun heap =>
    Run.run (opStep Physical.heapKernel) ⟨heap, []⟩
      [.call (.malloc 5000), .realloc 0xffff80000000d000 16]

theorem realloc_contract_iff_small :
    ∃ t, movedRun = some t ∧ t.live = [(0xffff800000002010, 16)] ∧
      ReallocContract Physical.heapKernel t (0xffff800000002010, 16) 100 := by
  have hmoved : movedRun.map Trace.live = some [(0xffff800000002010, 16)] := by
    decide +kernel
  obtain ⟨t, ht, hlive⟩ := Option.map_eq_some_iff.mp hmoved
  obtain ⟨heap, h0, hrun⟩ := Option.bind_eq_some_iff.mp ht
  refine ⟨t, ht, hlive, ((realloc_contract_iff Physical.heapKernel h0 ?_ hrun).1 _
    (by rw [hlive]; exact List.mem_cons_self) 100 (by norm_num) (by norm_num)).mpr (by decide)⟩
  refine ⟨trivial, fun t1 h1 => ⟨fun b hb _ => ?_, fun _ _ => trivial⟩⟩
  rw [opStep, step, if_pos (by norm_num)] at h1
  obtain ⟨⟨q, st⟩, -, rfl⟩ := Option.map_eq_some_iff.mp h1
  obtain rfl := List.mem_singleton.mp hb
  exact (by decide : ¬ SamePages 5000 16)

/-- A block of 5000 bytes takes two pages, as 6000 bytes do: `realloc` returns `nullptr`. -/
theorem same_pages_returns_null :
    ∃ t st, smallRun [.malloc 5000] = some t ∧ t.live = [(0xffff80000000d000, 5000)] ∧
      realloc Physical.heapKernel 0xffff80000000d000 6000 t.heap = some (0, st) ∧
      ¬ ReallocContract Physical.heapKernel t (0xffff80000000d000, 5000) 6000 := by
  have hnull : (smallRun [.malloc 5000]).map (fun t =>
      (t.live, (realloc Physical.heapKernel 0xffff80000000d000 6000 t.heap).map Prod.fst)) =
        some ([(0xffff80000000d000, 5000)], some 0) := by
    decide +kernel
  obtain ⟨t, ht, he⟩ := Option.map_eq_some_iff.mp hnull
  rw [Prod.mk.injEq] at he
  obtain ⟨⟨q, st⟩, hr, hq⟩ := Option.map_eq_some_iff.mp he.2
  obtain rfl : q = 0 := hq
  exact ⟨t, st, ht, he.1, hr, fun hc => (hc.2 _ _ hr).nonnull rfl⟩

end IceKernel.Slab
