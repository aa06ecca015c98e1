import IceKernel.Lib.BlockCount
import IceKernel.Memory.PhysicalRuns
import Mathlib.Algebra.BigOperators.Ring.List

/-!
# The page counters

`init`, `alloc` and `free` each update `used_memory` on their own; together
they keep it at the bitmap and the pages of the live allocations.
-/

namespace IceKernel.Physical
open ByteMemory Word64

/-- `physical::used()`. -/
def State.used (s : State) : ℕ := s.usedMemory

/-- `physical::free()`, without arguments. -/
def State.free (s : State) : ℕ := sub s.usableMemory s.usedMemory

/-- The clear bits below the top of usable memory. -/
def State.clearPages (s : State) : Finset ℕ :=
  (Finset.range s.pageCount).filter fun q => s.bits q = false

/-- The number of pages that live allocations own. -/
def Trace.livePages (t : Trace) : ℕ := (t.live.map Prod.snd).sum

/-- One call, `free(nullptr, n)` included. -/
def callStep (hhdmOffset : ℕ) (t : Trace) : Call → Option Trace
  | .free 0 count => some { t with state := Physical.free 0 count t.state }
  | c => step hhdmOffset t c

instance (e : MemmapEntry) : DecidablePred e.HasPage := fun _ => inferInstanceAs (Decidable (_ ∧ _))

instance (a : ℕ × ℕ) : DecidablePred (Owns a) := fun _ => inferInstanceAs (Decidable (_ ∧ _))

variable {entries : List MemmapEntry} {s0 : State} {t t' : Trace} {off : ℕ}

/-! ## Pages -/

/-- The pages `s0` had clear are clear still or live. -/
theorem Inv.card_clearPages (hi : Inv s0 t) (h0 : ∀ q, s0.bits q = false → q < s0.pageCount) :
    t.state.clearPages.card + t.livePages = s0.clearPages.card := by
  have hlive : ((Finset.range s0.pageCount).filter fun q => ∃ a ∈ t.live, Owns a q).card =
      t.livePages := by
    rw [BlockCount.card_filter_exists _ hi.apart, Trace.livePages]
    refine congrArg List.sum (List.map_congr_left fun a ha => ?_)
    exact BlockCount.card_filter_block fun q h1 h2 => h0 q (hi.owned a ha q ⟨h1, h2⟩)
  have hsplit : s0.clearPages = t.state.clearPages ∪
      (Finset.range s0.pageCount).filter fun q => ∃ a ∈ t.live, Owns a q := by
    rw [State.clearPages, State.clearPages, hi.pageCount_eq, ← Finset.filter_or]
    refine Finset.filter_congr fun q _ => ?_
    rw [hi.clear]
    refine ⟨fun hq => ?_, ?_⟩
    · by_cases hl : t.LivePage q
      · exact Or.inr hl
      · exact Or.inl ⟨hq, hl⟩
    · rintro (⟨hq, -⟩ | ⟨a, ha, hq⟩)
      · exact hq
      · exact hi.owned a ha q hq
  have hdisj : Disjoint t.state.clearPages
      ((Finset.range s0.pageCount).filter fun q => ∃ a ∈ t.live, Owns a q) := by
    rw [State.clearPages, hi.pageCount_eq, Finset.disjoint_filter]
    intro q _ hq
    exact ((hi.clear q).mp hq).2
  rw [hsplit, Finset.card_union_of_disjoint hdisj, hlive]

/-! ## The totals -/

/-- The bytes of the usable entries. -/
def usableLength (entries : List MemmapEntry) : ℕ :=
  (entries.map fun e => if e.type = .usable then e.length else 0).sum

theorem foldl_usableMemory (es : List MemmapEntry) (s : State) (hs : s.usableMemory < 2 ^ 64) :
    (es.foldl countEntry s).usableMemory = wrap (s.usableMemory + usableLength es) := by
  induction es generalizing s with
  | nil => exact (wrap_of_lt hs).symm
  | cons e es ih =>
    rw [List.foldl_cons]
    by_cases hu : e.type = .usable
    · have hcount : (countEntry s e).usableMemory = wrap (s.usableMemory + e.length) := by
        simp [countEntry, hu]
      rw [ih _ (by rw [hcount]; exact wrap_lt _), hcount, usableLength, usableLength,
        List.map_cons, List.sum_cons, if_pos hu]
      unfold wrap
      omega
    · have hcount : (countEntry s e).usableMemory = s.usableMemory := by
        simp [countEntry, hu]
      rw [ih _ (by rwa [hcount]), hcount, usableLength, usableLength, List.map_cons, List.sum_cons,
        if_neg hu, Nat.zero_add]

/-- Whole pages from `a` on. -/
theorem card_filter_bytes {N a n : ℕ} (ha : a % pageSize = 0) (hn : n % pageSize = 0)
    (hN : a + n ≤ N * pageSize) :
    pageSize * ((Finset.range N).filter fun q => a ≤ q * pageSize ∧ q * pageSize < a + n).card =
      n := by
  have hps : pageSize = 4096 := rfl
  rw [hps] at ha hn hN ⊢
  have hset : ((Finset.range N).filter fun q => a ≤ q * 4096 ∧ q * 4096 < a + n) =
      (Finset.range N).filter fun q => a / 4096 ≤ q ∧ q < a / 4096 + n / 4096 :=
    Finset.filter_congr fun q _ => by omega
  rw [hset, BlockCount.card_filter_block fun q _ _ => by omega]
  omega

/-- The usable pages, counted in bytes. -/
theorem ValidMemmap.card_usable (hv : ValidMemmap entries) :
    pageSize * ((Finset.range (usableTop entries / pageSize)).filter
      fun q => ∃ e ∈ entries, e.HasPage q).card = usableLength entries := by
  rw [BlockCount.card_filter_exists _ hv.disjoint, ← List.sum_map_mul_left, usableLength]
  refine congrArg List.sum (List.map_congr_left fun e he => ?_)
  by_cases hu : e.type = .usable
  · have htop := (le_foldl_memUsableTop entries {}).2 e he hu
    rw [wrap_of_lt (hv.noWrap e he hu)] at htop
    obtain ⟨hb, hl⟩ := hv.aligned e he hu
    have hset : (Finset.range (usableTop entries / pageSize)).filter e.HasPage =
        (Finset.range (usableTop entries / pageSize)).filter
          fun q => e.base ≤ q * pageSize ∧ q * pageSize < e.base + e.length :=
      Finset.filter_congr fun q _ => by simp only [MemmapEntry.HasPage, hu, true_and]
    rw [hset, if_pos hu]
    refine card_filter_bytes hb hl ?_
    have hle : e.base + e.length ≤ usableTop entries := htop
    unfold pageSize at *
    omega
  · have hset : (Finset.range (usableTop entries / pageSize)).filter e.HasPage = ∅ :=
      Finset.filter_false_of_mem fun q _ hq => hu hq.1
    rw [hset, if_neg hu]
    rfl

/-- The usable bytes fit in a word, so the sum of the first loop does not wrap. -/
theorem ValidMemmap.usableLength_lt (hv : ValidMemmap entries) : usableLength entries < 2 ^ 64 := by
  have hcard := Finset.card_filter_le (Finset.range (usableTop entries / pageSize))
    fun q => ∃ e ∈ entries, e.HasPage q
  rw [Finset.card_range] at hcard
  have hlen := hv.card_usable
  have htop := usableTop_lt entries
  unfold pageSize at *
  omega

/-- The counters that `init` leaves. -/
theorem init_memory (off : ℕ) (hv : ValidMemmap entries) :
    (init off entries).2.usableMemory = usableLength entries ∧
      (init off entries).2.usedMemory = (init off entries).2.bitmapSize := by
  obtain ⟨pre, e, post, -, -, -, hp⟩ :=
    placeBitmap_cases off _ entries (entries.foldl countEntry {}) hv.room
  have hused : (entries.foldl countEntry {}).usedMemory = 0 := (foldl_countEntry_frame entries {}).2.2
  have hfree := foldl_usableMemory entries {} (by norm_num)
  rw [Nat.zero_add, wrap_of_lt hv.usableLength_lt] at hfree
  have hsize : bitmapSizeFor (usableTop entries) < 2 ^ 64 := by
    have htop := usableTop_lt entries
    rw [bitmapSizeFor_eq htop]
    omega
  -- the third pass changes no counter
  have hfix (es : List MemmapEntry) (s : State) :
      (es.foldl clearEntry s).usableMemory = s.usableMemory ∧
        (es.foldl clearEntry s).usedMemory = s.usedMemory ∧
        (es.foldl clearEntry s).bitmapSize = s.bitmapSize := by
    have h := (foldl_clearEntry_frame es s).1
    simp only [State.fixed, Prod.mk.injEq] at h
    exact ⟨h.2.2.2.1, h.2.2.2.2.2.1, h.2.2.1⟩
  have htop : (entries.foldl countEntry {}).memUsableTop = usableTop entries := rfl
  rw [htop] at hp
  simp only [init, htop, hp, hfix, hfree, hused, Nat.zero_add, wrap_of_lt hsize, and_self]

/-- Bitmap and clear pages together are the usable memory. -/
theorem InitSpec.card_clearPages {s : State} {base : ℕ} (hv : ValidMemmap entries)
    (hs : InitSpec off entries s base) :
    pageSize * s.clearPages.card + s.bitmapSize = usableLength entries := by
  obtain ⟨e, he, hu, rfl, hl⟩ := hs.inside
  have hcount : s.pageCount = usableTop entries / pageSize := by
    rw [State.pageCount, hs.memUsableTop]
  obtain ⟨hb, -⟩ := hv.aligned e he hu
  have hwhole : s.bitmapSize % pageSize = 0 := by
    rw [hs.bitmapSize, bitmapSizeFor_eq (usableTop_lt entries)]
    exact Nat.mul_mod_left _ _
  have hle : e.base + e.length ≤ usableTop entries := by
    have htop := (le_foldl_memUsableTop entries {}).2 e he hu
    rwa [wrap_of_lt (hv.noWrap e he hu)] at htop
  have hbitmap := card_filter_bytes (N := usableTop entries / pageSize) hb hwhole (by
    unfold pageSize at *
    omega)
  have hsplit : ((Finset.range (usableTop entries / pageSize)).filter
      fun q => ∃ e ∈ entries, e.HasPage q) = s.clearPages ∪
        (Finset.range (usableTop entries / pageSize)).filter
          fun q => e.base ≤ q * pageSize ∧ q * pageSize < e.base + s.bitmapSize := by
    rw [State.clearPages, hcount, ← Finset.filter_or]
    refine Finset.filter_congr fun q _ => ?_
    rw [hs.clear]
    refine ⟨fun hq => ?_, ?_⟩
    · by_cases hin : e.base ≤ q * pageSize ∧ q * pageSize < e.base + s.bitmapSize
      · exact Or.inr hin
      · exact Or.inl ⟨hq, hin⟩
    · rintro (⟨hq, -⟩ | ⟨h1, h2⟩)
      · exact hq
      · exact ⟨e, he, hu, h1, by omega⟩
  have hdisj : Disjoint s.clearPages ((Finset.range (usableTop entries / pageSize)).filter
      fun q => e.base ≤ q * pageSize ∧ q * pageSize < e.base + s.bitmapSize) := by
    rw [State.clearPages, hcount, Finset.disjoint_filter]
    intro q _ hq
    exact ((hs.clear q).mp hq).2
  rw [← hv.card_usable, hsplit, Finset.card_union_of_disjoint hdisj, Nat.mul_add, hbitmap]

/-! ## Runs -/

/-- `used_memory` counts the bitmap and the live pages. -/
structure Accounted (s0 : State) (t : Trace) : Prop where
  inv : Inv s0 t
  usable : t.state.usableMemory = s0.usableMemory
  used : t.state.usedMemory = s0.bitmapSize + pageSize * t.livePages

section Step

variable (hbit : s0.bits 0 = true) (h0 : ∀ q, s0.bits q = false → q < s0.pageCount)
  (hroom : s0.bitmapSize + pageSize * s0.clearPages.card < 2 ^ 64)

include h0 hroom in
/-- What is in use fits in a word. -/
theorem Inv.livePages_lt (hi : Inv s0 t) : s0.bitmapSize + pageSize * t.livePages < 2 ^ 64 := by
  have hcard := hi.card_clearPages h0
  unfold pageSize at *
  omega

include hbit h0 hroom in
theorem Accounted.alloc {count : ℕ} (h : Accounted s0 t)
    (he : step off t (.alloc count) = some t') : Accounted s0 t' := by
  have hinv := Inv.step hbit off t (.alloc count) t' h.inv he
  by_cases hc : count = 0
  · subst hc
    obtain rfl : (⟨t.state, t.mem, (0, 0) :: t.live⟩ : Trace) = t' := by
      simpa [Physical.step, Physical.alloc] using he
    refine ⟨hinv, h.usable, h.used.trans ?_⟩
    simp [Trace.livePages]
  · rcases alloc_cases off t.mem (Nat.pos_of_ne_zero hc) (h.inv.bit_zero hbit) h.inv.cursor with
      ⟨page, s', -, -, -, hm, ha⟩ | ⟨-, s', ha⟩
    · simp only [Physical.step, ha, Option.some.injEq] at he
      subst he
      have hfix := hm.fixed
      simp only [State.fixed, Prod.mk.injEq] at hfix
      have hlive := hinv.livePages_lt h0 hroom
      simp only [Trace.livePages, List.map_cons, List.sum_cons] at hlive
      refine ⟨hinv, hfix.2.2.2.1.trans h.usable, hfix.2.2.2.2.2.1.trans ?_⟩
      simp only [h.used, Trace.livePages, List.map_cons, List.sum_cons]
      unfold pageSize wrap at *
      omega
    · simp [Physical.step, ha] at he

include hbit h0 hroom in
theorem Accounted.release {ptr count : ℕ} (hp : ptr ≠ 0) (h : Accounted s0 t)
    (he : step off t (.free ptr count) = some t') : Accounted s0 t' := by
  have hinv := Inv.step hbit off t (.free ptr count) t' h.inv he
  simp only [Physical.step] at he
  split_ifs at he with hl
  obtain rfl := Option.some.inj he
  have hfix := setPages_fixed false t.state (ptr / pageSize) count
  simp only [State.fixed, Prod.mk.injEq] at hfix
  have hsum : t.livePages = count + ((t.live.erase (ptr, count)).map Prod.snd).sum := by
    rw [Trace.livePages, ((List.perm_cons_erase hl).map Prod.snd).sum_eq, List.map_cons,
      List.sum_cons]
  have hlive := h.inv.livePages_lt h0 hroom
  refine ⟨hinv, ?_, ?_⟩
  · simp only [Physical.free, hp, if_false, hfix]
    exact h.usable
  · simp only [Physical.free, hp, if_false, hfix, h.used]
    rw [hsum] at hlive ⊢
    simp only [Trace.livePages]
    unfold pageSize sub wrap at *
    omega

include hbit h0 hroom in
theorem Accounted.step (off : ℕ) (t : Trace) (c : Call) (t' : Trace) (h : Accounted s0 t)
    (he : callStep off t c = some t') : Accounted s0 t' := by
  cases c with
  | alloc count => exact h.alloc hbit h0 hroom he
  | free ptr count =>
    by_cases hp : ptr = 0
    · subst hp
      obtain rfl : t = t' := by simpa [callStep, Physical.free] using he
      exact h
    · have hcall : callStep off t (.free ptr count) = Physical.step off t (.free ptr count) := by
        cases ptr with
        | zero => exact absurd rfl hp
        | succ ptr => rfl
      exact h.release hbit h0 hroom hp (hcall.symm.trans he)

end Step

/-- After any run of `alloc` and `free`, the counters are those of the bitmap: what is used is the
bitmap and the live pages, and what is free is the clear bits. -/
theorem accounting_exact (off : ℕ) (hv : ValidMemmap entries) (hz : NoPageZero entries) {m : Mem}
    {calls : List Call} (hrun : Run.run (callStep off) (boot off entries m) calls = some t) :
    t.state.used = t.state.bitmapSize + pageSize * t.livePages ∧
      t.state.free = pageSize * t.state.clearPages.card ∧
      t.state.usedMemory ≤ t.state.usableMemory := by
  obtain ⟨base, hs⟩ := init_spec off hv
  obtain ⟨husable, hused⟩ := init_memory off hv
  have hbit := init_bit_zero off hv hz
  have hcard := hs.card_clearPages hv
  have hlt := hv.usableLength_lt
  have h0 (q : ℕ) (hq : (init off entries).2.bits q = false) :
      q < (init off entries).2.pageCount := by
    obtain ⟨⟨e, he, hp⟩, -⟩ := (hs.clear q).mp hq
    rw [State.pageCount, hs.memUsableTop]
    exact hv.page_lt he hp
  have hstart : Accounted (init off entries).2 (boot off entries m) :=
    ⟨Inv.boot hv m, rfl, by rw [boot, hused]; rfl⟩
  have hacc : Accounted (init off entries).2 t :=
    Run.run_invariant (Accounted.step hbit h0 (by omega) off) hstart hrun
  have hpages := hacc.inv.card_clearPages h0
  have hmul : pageSize * t.state.clearPages.card + pageSize * t.livePages =
      pageSize * (init off entries).2.clearPages.card := by
    rw [← Nat.mul_add, hpages]
  have hle : t.state.usedMemory ≤ t.state.usableMemory := by
    rw [hacc.used, hacc.usable, husable]
    omega
  refine ⟨by rw [State.used, hacc.used, hacc.inv.layout.2.2], ?_, hle⟩
  rw [State.free, sub_of_le hle (by rw [hacc.usable, husable]; exact hlt), hacc.used, hacc.usable,
    husable]
  omega

/-- Calls with nothing to do among others. -/
def idleCalls : List Call := [.alloc 2, .alloc 0, .free 0 7, .alloc 1, .free 0x2000 2]

theorem accounting_exact_small :
    ∃ t, Run.run (callStep smallHhdm.offset) smallBoot idleCalls = some t ∧
      t.state.used = t.state.bitmapSize + pageSize * t.livePages ∧ t.livePages = 1 ∧
      t.state.free = pageSize * t.state.clearPages.card := by
  obtain ⟨t, ht⟩ := Option.isSome_iff_exists.mp
    (rfl : (Run.run (callStep smallHhdm.offset) smallBoot idleCalls).isSome = true)
  have hlive : (Run.run (callStep smallHhdm.offset) smallBoot idleCalls).map Trace.livePages =
      some 1 := rfl
  rw [ht, Option.map_some, Option.some.injEq] at hlive
  obtain ⟨hused, hfree, -⟩ := accounting_exact smallHhdm.offset smallMap_valid smallMap_noPageZero ht
  exact ⟨t, ht, hused, hlive, hfree⟩

end IceKernel.Physical
