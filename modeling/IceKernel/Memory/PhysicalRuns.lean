import IceKernel.Lib.Run
import IceKernel.Memory.PhysicalInit
import Mathlib.Data.List.Perm.Basic

/-!
# The page allocator over whole runs

A run is any finite sequence of `alloc` and `free` calls after the bitmap
set-up, `free` receiving only pairs that `alloc` returned and that are live.
-/

namespace IceKernel.Physical
open ByteMemory Word64

inductive Call where
  | alloc (count : ℕ)
  | free (ptr count : ℕ)
  deriving DecidableEq, Repr

/-- The allocator, the memory it clears, and the live pairs `(ptr, count)`. -/
structure Trace where
  state : State
  mem : Mem
  live : List (ℕ × ℕ)

/-- One call. A panicking `alloc` and a `free` of something not live end the run. -/
def step (hhdmOffset : ℕ) (t : Trace) : Call → Option Trace
  | .alloc count =>
    match alloc hhdmOffset count t.state t.mem with
    | (.ok ptr, s, m) => some ⟨s, m, (ptr, count) :: t.live⟩
    | (.error _, _, _) => none
  | .free ptr count =>
    if (ptr, count) ∈ t.live then
      some ⟨free ptr count t.state, t.mem, t.live.erase (ptr, count)⟩
    else none

/-- The trace before the first call. -/
def boot (hhdmOffset : ℕ) (entries : List MemmapEntry) (m : Mem) : Trace :=
  ⟨(init hhdmOffset entries).2, m, []⟩

/-- Page `q` belongs to the allocation `a = (ptr, count)`. -/
def Owns (a : ℕ × ℕ) (q : ℕ) : Prop := a.1 / pageSize ≤ q ∧ q < a.1 / pageSize + a.2

def Apart (a b : ℕ × ℕ) : Prop := ∀ q, ¬ (Owns a q ∧ Owns b q)

def Trace.LivePage (t : Trace) (q : ℕ) : Prop := ∃ a ∈ t.live, Owns a q

theorem Apart.symm {a b : ℕ × ℕ} (h : Apart a b) : Apart b a := fun q hq => h q hq.symm

theorem owns_page (page count q : ℕ) :
    Owns (page * pageSize, count) q ↔ page ≤ q ∧ q < page + count := by
  have hps : 0 < pageSize := by norm_num [pageSize]
  simp only [Owns, Nat.mul_div_cancel _ hps]

/-- The allocator agrees with the pages that `s0` had clear: a bit is clear exactly when its page
was available and no live allocation owns it. -/
structure Inv (s0 : State) (t : Trace) : Prop where
  layout : t.state.memUsableTop = s0.memUsableTop ∧ t.state.bitmapBuffer = s0.bitmapBuffer ∧
    t.state.bitmapSize = s0.bitmapSize
  cursor : t.state.lastIndex ≤ t.state.pageCount
  clear : ∀ q, t.state.bits q = false ↔ s0.bits q = false ∧ ¬ t.LivePage q
  owned : ∀ a ∈ t.live, ∀ q, Owns a q → s0.bits q = false
  apart : t.live.Pairwise Apart

theorem Inv.pageCount_eq {s0 : State} {t : Trace} (hi : Inv s0 t) :
    t.state.pageCount = s0.pageCount := by
  rw [State.pageCount, State.pageCount, hi.layout.1]

theorem Inv.bit_zero {s0 : State} {t : Trace} (hi : Inv s0 t) (h0 : s0.bits 0 = true) :
    t.state.bits 0 = true := by
  by_contra hne
  have := ((hi.clear 0).mp (by simpa using hne)).1
  rw [h0] at this
  exact Bool.noConfusion this

/-- A marked window becomes one more live allocation. -/
theorem Inv.mark {s0 : State} {t : Trace} (hi : Inv s0 t) {page count : ℕ} {s' : State} {m' : Mem}
    (hw : t.state.ClearRun page count) (hm : Marked t.state page count s') :
    Inv s0 ⟨s', m', (page * pageSize, count) :: t.live⟩ := by
  have hfix := hm.fixed
  simp only [State.fixed, Prod.mk.injEq] at hfix
  have hclear (q : ℕ) (hq : Owns (page * pageSize, count) q) : t.state.bits q = false := by
    obtain ⟨h1, h2⟩ := (owns_page page count q).mp hq
    exact window_clear.mp hw.2 q h1 h2
  constructor
  · exact ⟨hfix.1.trans hi.layout.1, hfix.2.1.trans hi.layout.2.1,
      hfix.2.2.1.trans hi.layout.2.2⟩
  · change s'.lastIndex ≤ s'.memUsableTop / pageSize
    rw [hm.lastIndex, hfix.1]
    exact hw.1
  · intro q
    change s'.bits q = false ↔ _
    have hlive : Trace.LivePage ⟨s', m', (page * pageSize, count) :: t.live⟩ q ↔
        Owns (page * pageSize, count) q ∨ t.LivePage q := by
      simp [Trace.LivePage]
    rw [hlive, hm.bits, owns_page]
    by_cases hq : page ≤ q ∧ q < page + count
    · simp [hq]
    · rw [if_neg hq, hi.clear]
      simp [hq]
  · intro a ha q hq
    rcases List.mem_cons.mp ha with rfl | ha
    · exact ((hi.clear q).mp (hclear q hq)).1
    · exact hi.owned a ha q hq
  · refine List.pairwise_cons.mpr ⟨fun b hb q hq => ?_, hi.apart⟩
    exact ((hi.clear q).mp (hclear q hq.1)).2 ⟨b, hb, hq.2⟩

/-- Releasing a live pair gives back exactly its pages. -/
theorem Inv.release {s0 : State} {t : Trace} (hi : Inv s0 t) (h0 : s0.bits 0 = true)
    {ptr count : ℕ} (hl : (ptr, count) ∈ t.live) :
    Inv s0 ⟨free ptr count t.state, t.mem, t.live.erase (ptr, count)⟩ := by
  have hperm := List.perm_cons_erase hl
  have hap := (hperm.pairwise_iff fun {a b} => @Apart.symm a b).mp hi.apart
  rw [List.pairwise_cons] at hap
  have hmem (a : ℕ × ℕ) : a ∈ t.live ↔ a = (ptr, count) ∨ a ∈ t.live.erase (ptr, count) := by
    rw [hperm.mem_iff, List.mem_cons]
  have hlive (q : ℕ) : t.LivePage q ↔ Owns (ptr, count) q ∨
      ∃ a ∈ t.live.erase (ptr, count), Owns a q := by
    simp only [Trace.LivePage, hmem, or_and_right, exists_or, exists_eq_left]
  have howned : ∀ a ∈ t.live.erase (ptr, count), ∀ q, Owns a q → s0.bits q = false :=
    fun a ha => hi.owned a ((hmem a).mpr (Or.inr ha))
  by_cases hp : ptr = 0
  · -- only `alloc(0)` hands out a null pair, and it owns nothing
    have hnone (q : ℕ) : ¬ Owns (ptr, count) q := by
      intro hq
      have hc : 0 < count := by
        have := hq.2
        simp only [hp, Nat.zero_div] at this
        omega
      have := hi.owned _ hl 0 ⟨by simp [hp], by simpa [hp] using hc⟩
      rw [h0] at this
      exact Bool.noConfusion this
    have hfree : free ptr count t.state = t.state := by simp [free, hp]
    rw [hfree]
    refine ⟨hi.layout, hi.cursor, fun q => ?_, howned, hap.2⟩
    rw [hi.clear, hlive]
    simp [hnone q, Trace.LivePage]
  · have hfix := setPages_fixed false t.state (ptr / pageSize) count
    simp only [State.fixed, Prod.mk.injEq] at hfix
    -- inside the pair all bits become clear, outside none changes
    have hin (q : ℕ) (hq : Owns (ptr, count) q) : (free ptr count t.state).bits q = false := by
      simp only [free, hp, if_false, setPages_bits]
      exact if_pos hq
    have hout (q : ℕ) (hq : ¬ Owns (ptr, count) q) :
        (free ptr count t.state).bits q = t.state.bits q := by
      simp only [free, hp, if_false, setPages_bits]
      exact if_neg hq
    constructor
    · simp only [free, hp, if_false, hfix]
      exact hi.layout
    · simp only [free, hp, if_false, State.pageCount, hfix, setPages_lastIndex]
      exact (min_le_left _ _).trans hi.cursor
    · intro q
      change (free ptr count t.state).bits q = false ↔ _
      by_cases hq : Owns (ptr, count) q
      · simp only [hin q hq, true_iff]
        refine ⟨hi.owned _ hl q hq, ?_⟩
        rintro ⟨b, hb, hbq⟩
        exact hap.1 b hb q ⟨hq, hbq⟩
      · rw [hout q hq, hi.clear, hlive]
        simp [hq, Trace.LivePage]
    · exact howned
    · exact hap.2

theorem Inv.step {s0 : State} (h0 : s0.bits 0 = true) (off : ℕ) (t : Trace) (c : Call)
    (t' : Trace) (hi : Inv s0 t) (h : step off t c = some t') : Inv s0 t' := by
  cases c with
  | alloc count =>
    by_cases hc : count = 0
    · subst hc
      obtain rfl : (⟨t.state, t.mem, (0, 0) :: t.live⟩ : Trace) = t' := by
        simpa [Physical.step, alloc] using h
      -- `alloc(0)` returns `nullptr` and takes nothing
      have hnone (q : ℕ) : ¬ Owns (0, 0) q := by
        simp [Owns]
      refine ⟨hi.layout, hi.cursor, fun q => ?_, ?_, ?_⟩
      · rw [hi.clear]
        simp [Trace.LivePage, hnone q]
      · intro a ha q hq
        rcases List.mem_cons.mp ha with rfl | ha
        · exact absurd hq (hnone q)
        · exact hi.owned a ha q hq
      · exact List.pairwise_cons.mpr ⟨fun b _ q hq => hnone q hq.1, hi.apart⟩
    · rcases alloc_cases off t.mem (Nat.pos_of_ne_zero hc) (hi.bit_zero h0) hi.cursor with
        ⟨page, s', -, hw, -, hm, he⟩ | ⟨-, s', he⟩
      · simp only [Physical.step, he, Option.some.injEq] at h
        subst h
        exact hi.mark hw hm
      · simp [Physical.step, he] at h
  | free ptr count =>
    simp only [Physical.step] at h
    split_ifs at h with hl
    simp only [Option.some.injEq] at h
    subst h
    exact hi.release h0 hl

theorem Inv.boot {off : ℕ} {entries : List MemmapEntry} (hv : ValidMemmap entries) (m : Mem) :
    Inv (init off entries).2 (boot off entries m) where
  layout := ⟨rfl, rfl, rfl⟩
  cursor := by
    obtain ⟨base, hs⟩ := init_spec off hv
    change (init off entries).2.lastIndex ≤ _
    rw [hs.lastIndex]
    exact Nat.zero_le _
  clear q := by simp [Physical.boot, Trace.LivePage]
  owned a ha := absurd ha (List.not_mem_nil)
  apart := List.Pairwise.nil

/-- Page 0 is in use from the start when no usable entry contains it. -/
theorem init_bit_zero (off : ℕ) {entries : List MemmapEntry} (hv : ValidMemmap entries)
    (hz : NoPageZero entries) : (init off entries).2.bits 0 = true := by
  obtain ⟨base, hs⟩ := init_spec off hv
  by_contra hne
  obtain ⟨⟨e, he, hq⟩, -⟩ := (hs.clear 0).mp (by simpa using hne)
  exact hz e he hq

/-! ## A small machine

Nine pages below the top, pages 1 to 8 usable; the bitmap takes page 1. -/

def smallMap : List MemmapEntry := [⟨0x1000, 0x8000, .usable⟩, ⟨0x9000, 0x1000, .reserved⟩]

def smallHhdm : Hhdm where
  offset := 0xffff800000000000
  limit := 0x400000000000
  aligned := by norm_num
  limit_le := by norm_num
  top_le := by norm_num

theorem smallMap_valid : ValidMemmap smallMap where
  aligned := by decide
  noWrap := by decide
  disjoint := by
    refine List.pairwise_pair.mpr fun q hq => ?_
    exact absurd hq.2.1 (by decide)
  room := ⟨_, List.mem_cons_self, rfl, by decide⟩

theorem smallMap_noPageZero : NoPageZero smallMap := by
  intro e he
  simp only [smallMap, List.mem_cons, List.not_mem_nil, or_false] at he
  rcases he with rfl | rfl <;> simp [MemmapEntry.HasPage, pageSize]

/-- Page 2 is freed and passed over by the scan for two pages, then page 3 is freed. -/
def straddlingCalls : List Call :=
  [.alloc 1, .alloc 1, .free 0x2000 1, .alloc 2, .alloc 3, .free 0x3000 1]

def smallBoot : Trace := boot smallHhdm.offset smallMap fun _ => 0#8

section Runs

variable {entries : List MemmapEntry} {calls : List Call} {t : Trace} {m : Mem}

theorem inv_of_run {off : ℕ} (hv : ValidMemmap entries) (hz : NoPageZero entries)
    (hrun : Run.run (step off) (boot off entries m) calls = some t) :
    Inv (init off entries).2 t :=
  Run.run_invariant (Inv.step (init_bit_zero off hv hz) off) (Inv.boot hv m) hrun

/-- The buffer's physical pages, read off the pointer `init` stored. -/
theorem InitSpec.bitmapPage_iff {h : Hhdm} {s : State} {base : ℕ} (hv : ValidMemmap entries)
    (hcov : usableTop entries ≤ h.limit) (hs : InitSpec h.offset entries s base) (q : ℕ) :
    s.BitmapPage h.offset q ↔ base ≤ q * pageSize ∧ q * pageSize < base + s.bitmapSize := by
  obtain ⟨e, he, hu, rfl, hl⟩ := hs.inside
  have htop := (le_foldl_memUsableTop entries {}).2 e he hu
  rw [wrap_of_lt (hv.noWrap e he hu)] at htop
  change e.base + e.length ≤ usableTop entries at htop
  rw [State.BitmapPage, hs.bitmapBuffer]
  by_cases hz : s.bitmapSize = 0
  · rw [hz]
    omega
  · rw [h.tohh_eq (by omega), h.fromhh_eq]

/-- At every point of every run the clear bits are the usable pages that neither the bitmap nor
a live allocation occupies, and the next allocation takes and clears such pages only. -/
theorem clear_bits_exact (h : Hhdm) (hv : ValidMemmap entries) (hz : NoPageZero entries)
    (hcov : usableTop entries ≤ h.limit)
    (hrun : Run.run (step h.offset) (boot h.offset entries m) calls = some t) :
    (∀ q, t.state.bits q = false ↔ (∃ e ∈ entries, e.HasPage q) ∧
      ¬ t.state.BitmapPage h.offset q ∧ ¬ t.LivePage q) ∧
    ∀ count ptr s' m', 0 < count →
      alloc h.offset count t.state t.mem = (.ok ptr, s', m') →
      ptr % pageSize = 0 ∧
      (∀ q, Owns (ptr, count) q → t.state.bits q = false ∧ (∃ e ∈ entries, e.HasPage q) ∧
        q < usableTop entries / pageSize ∧ ¬ t.LivePage q ∧ ¬ t.state.BitmapPage h.offset q) ∧
      ∀ a < h.limit,
        (Owns (ptr, count) (a / pageSize) → m' (tohh h.offset a) = 0#8) ∧
        (¬ Owns (ptr, count) (a / pageSize) →
          m' (tohh h.offset a) = t.mem (tohh h.offset a)) := by
  obtain ⟨base, hs⟩ := init_spec h.offset hv
  have hi := inv_of_run hv hz hrun
  have hps : pageSize = 4096 := rfl
  have hbitmap (q : ℕ) : t.state.BitmapPage h.offset q ↔
      (init h.offset entries).2.BitmapPage h.offset q := by
    rw [State.BitmapPage, State.BitmapPage, hi.layout.2.1, hi.layout.2.2]
  have hclear (q : ℕ) : t.state.bits q = false ↔ (∃ e ∈ entries, e.HasPage q) ∧
      ¬ t.state.BitmapPage h.offset q ∧ ¬ t.LivePage q := by
    rw [hi.clear, hs.clear, hbitmap, hs.bitmapPage_iff hv hcov, and_assoc]
  refine ⟨hclear, fun count ptr s' m' hc he => ?_⟩
  rcases alloc_cases h.offset t.mem hc (hi.bit_zero (init_bit_zero h.offset hv hz)) hi.cursor with
    ⟨page, s1, -, hw, -, -, he1⟩ | ⟨-, s1, he1⟩
  · rw [he1] at he
    simp only [Prod.mk.injEq, Except.ok.injEq] at he
    obtain ⟨rfl, -, rfl⟩ := he
    refine ⟨Nat.mul_mod_left _ _, fun q hq => ?_, fun a ha => ?_⟩
    · obtain ⟨h1, h2⟩ := (owns_page page count q).mp hq
      have hq0 := window_clear.mp hw.2 q h1 h2
      obtain ⟨⟨e, he, hp⟩, hb, hl⟩ := (hclear q).mp hq0
      exact ⟨hq0, ⟨e, he, hp⟩, hv.page_lt he hp, hl, hb⟩
    · have htop : (page + count) * 4096 ≤ usableTop entries := by
        have h1 := hw.1
        rw [hi.pageCount_eq, State.pageCount, hs.memUsableTop, hps] at h1
        omega
      have hlim := h.limit_le
      have hlt := h.top_le
      rw [owns_page, h.tohh_eq ha, h.tohh_eq (by rw [hps]; omega),
        wrap_of_lt (by rw [hps]; omega), memset_apply, hps]
      exact ⟨fun hq => if_pos (by omega), fun hq => if_neg (by omega)⟩
  · rw [he1] at he
    simp at he

theorem clear_bits_exact_small :
    ∃ t, Run.run (step smallHhdm.offset) smallBoot straddlingCalls = some t ∧
      ∀ q, t.state.bits q = false ↔ (∃ e ∈ smallMap, e.HasPage q) ∧
        ¬ t.state.BitmapPage smallHhdm.offset q ∧ ¬ t.LivePage q := by
  obtain ⟨t, ht⟩ := Option.isSome_iff_exists.mp
    (rfl : (Run.run (step smallHhdm.offset) smallBoot straddlingCalls).isSome = true)
  exact ⟨t, ht, (clear_bits_exact smallHhdm smallMap_valid smallMap_noPageZero (by decide) ht).1⟩

end Runs

end IceKernel.Physical
