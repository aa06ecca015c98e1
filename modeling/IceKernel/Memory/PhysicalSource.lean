import IceKernel.Memory.PhysicalRuns
import IceKernel.Memory.Slab
import Mathlib.Data.List.Pairwise

/-!
# The page allocator meets what the slab allocator assumes

The pages handed out by `physical::alloc` over whole runs are a `PageSource`.
-/

namespace IceKernel.Physical
open ByteMemory Word64

/-- A page allocator that has been set up from a memory map and used correctly since. -/
structure Pages (off : ℕ) (entries : List MemmapEntry) where
  trace : Trace
  inv : Inv (init off entries).2 trace
  aligned : ∀ a ∈ trace.live, a.1 % pageSize = 0

variable {h : Hhdm} {entries : List MemmapEntry} {m m' : Mem}

theorem alloc_ok_step {off count ptr : ℕ} {t : Trace} {s' : State}
    (he : alloc off count t.state m = (.ok ptr, s', m')) :
    step off { t with mem := m } (.alloc count) = some ⟨s', m', (ptr, count) :: t.live⟩ := by
  simp [step, he]

/-- What a successful `alloc` did, from any reachable state. -/
theorem alloc_ok {off count ptr : ℕ} {t : Trace} {s' : State} (hv : ValidMemmap entries)
    (hz : NoPageZero entries) (hi : Inv (init off entries).2 t) (hc : 0 < count)
    (he : alloc off count t.state m = (.ok ptr, s', m')) :
    ∃ page, ptr = page * pageSize ∧ t.state.ClearRun page count ∧
      m' = memset m (tohh off ptr) 0#8 (wrap (count * pageSize)) := by
  rcases alloc_cases off m hc (hi.bit_zero (init_bit_zero off hv hz)) hi.cursor with
    ⟨page, s1, -, hw, -, -, he1⟩ | ⟨-, s1, he1⟩
  · rw [he1] at he
    simp only [Prod.mk.injEq, Except.ok.injEq] at he
    exact ⟨page, he.1.symm, hw, by rw [← he.1, he.2.2]⟩
  · rw [he1] at he
    simp at he

theorem Inv.setMem {s0 : State} {t : Trace} (hi : Inv s0 t) (m : Mem) :
    Inv s0 { t with mem := m } := ⟨hi.layout, hi.cursor, hi.clear, hi.owned, hi.apart⟩

namespace Pages

variable {off : ℕ}

/-- The state right after `physical::init`. -/
def boot (off : ℕ) (hv : ValidMemmap entries) : Pages off entries where
  trace := Physical.boot off entries fun _ => 0#8
  inv := Inv.boot hv _
  aligned _ ha := absurd ha List.not_mem_nil

theorem aligned_cons (hv : ValidMemmap entries) (hz : NoPageZero entries)
    (p : Pages off entries) {count ptr : ℕ} {s' : State}
    (he : Physical.alloc off count p.trace.state m = (.ok ptr, s', m')) :
    ∀ a ∈ (ptr, count) :: p.trace.live, a.1 % pageSize = 0 := by
  intro a ha
  rcases List.mem_cons.mp ha with rfl | ha
  · by_cases hc : count = 0
    · subst hc
      simp only [Physical.alloc, if_true, Prod.mk.injEq, Except.ok.injEq] at he
      rw [← he.1, Nat.zero_mod]
    · obtain ⟨page, rfl, -⟩ := alloc_ok hv hz p.inv (Nat.pos_of_ne_zero hc) he
      exact Nat.mul_mod_left _ _
  · exact p.aligned a ha

/-- `physical::alloc` on a set-up allocator; `none` when it panics. -/
def alloc (hv : ValidMemmap entries) (hz : NoPageZero entries) (count : ℕ)
    (p : Pages off entries) (m : Mem) : Option (ℕ × Pages off entries × Mem) :=
  match he : Physical.alloc off count p.trace.state m with
  | (.ok ptr, s, m') =>
    some (ptr, ⟨⟨s, m', (ptr, count) :: p.trace.live⟩,
      Inv.step (init_bit_zero off hv hz) off _ _ _ (p.inv.setMem m) (alloc_ok_step he),
      aligned_cons hv hz p he⟩, m')
  | (.error _, _, _) => none

/-- `physical::free` of a live pair. -/
def free (hv : ValidMemmap entries) (hz : NoPageZero entries) (ptr count : ℕ)
    (p : Pages off entries) : Pages off entries :=
  if hl : p.trace.live.contains (ptr, count) then
    ⟨⟨Physical.free ptr count p.trace.state, p.trace.mem, p.trace.live.erase (ptr, count)⟩,
      p.inv.release (init_bit_zero off hv hz) (List.contains_iff_mem.mp hl),
      fun a ha => p.aligned a (List.mem_of_mem_erase ha)⟩
  else p

/-- A live run of at least one page. -/
def Live (p : Pages off entries) (x : ℕ × ℕ) : Prop := x ∈ p.trace.live ∧ 0 < x.2

theorem alloc_cases {hv : ValidMemmap entries} {hz : NoPageZero entries} {count ptr : ℕ}
    {p p' : Pages off entries} (hc : 0 < count)
    (he : p.alloc hv hz count m = some (ptr, p', m')) :
    p'.trace.live = (ptr, count) :: p.trace.live ∧ ∃ page, ptr = page * pageSize ∧
      p.trace.state.ClearRun page count ∧
      m' = memset m (tohh off ptr) 0#8 (wrap (count * pageSize)) := by
  unfold alloc at he
  split at he
  · next ptr' s m1 heq =>
    simp only [Option.some.injEq, Prod.mk.injEq] at he
    obtain ⟨rfl, rfl, rfl⟩ := he
    exact ⟨rfl, alloc_ok hv hz p.inv hc heq⟩
  · simp at he

theorem Live.owned {p : Pages off entries} (hv : ValidMemmap entries) {x : ℕ × ℕ}
    (hx : p.Live x) {q : ℕ} (hq : Owns x q) : q < usableTop entries / pageSize := by
  obtain ⟨base, hs⟩ := init_spec off hv
  obtain ⟨⟨e, he, hp⟩, -⟩ := (hs.clear q).mp (p.inv.owned x hx.1 q hq)
  exact hv.page_lt he hp

theorem Live.bounds {p : Pages off entries} (hv : ValidMemmap entries) {x : ℕ × ℕ}
    (hx : p.Live x) : x.1 + x.2 * pageSize ≤ usableTop entries := by
  have hlast := hx.owned hv (q := x.1 / pageSize + (x.2 - 1)) ⟨by omega, by have := hx.2; omega⟩
  have hal := p.aligned x hx.1
  have hpos := hx.2
  simp only [show pageSize = 4096 from rfl] at *
  omega

theorem apart_runs {x y : ℕ × ℕ} (hx : x.1 % pageSize = 0) (hy : y.1 % pageSize = 0)
    (hx0 : 0 < x.2) (hy0 : 0 < y.2) (hap : Apart x y) : Slab.RunsApart x y := by
  simp only [show pageSize = 4096 from rfl] at hx hy
  unfold Slab.RunsApart
  by_contra hov
  apply hap (max (x.1 / 4096) (y.1 / 4096))
  simp only [Owns, show pageSize = 4096 from rfl]
  omega

theorem Live.apart {p : Pages off entries} {x y : ℕ × ℕ} (hx : p.Live x) (hy : p.Live y)
    (hne : x ≠ y) : Slab.RunsApart x y := by
  have : Std.Symm Apart := ⟨fun _ _ h => h.symm⟩
  have hap : Apart x y := p.inv.apart.forall hx.1 hy.1 hne
  exact apart_runs (p.aligned x hx.1) (p.aligned y hy.1) hx.2 hy.2 hap

theorem alloc_fresh {hv : ValidMemmap entries} {hz : NoPageZero entries} {count ptr : ℕ}
    {p p' : Pages off entries} (hc : 0 < count)
    (he : p.alloc hv hz count m = some (ptr, p', m')) : ¬ p.Live (ptr, count) := by
  intro hl
  obtain ⟨-, page, rfl, hw, -⟩ := alloc_cases hc he
  have hclear := window_clear.mp hw.2 page (Nat.le_refl _) (by omega)
  apply ((p.inv.clear page).mp hclear).2
  exact ⟨_, hl.1, (owns_page page count page).mpr ⟨Nat.le_refl _, by omega⟩⟩

/-- Where `alloc` clears memory, in a direct map that covers all usable memory. -/
theorem alloc_mem {h : Hhdm} (hcov : usableTop entries ≤ h.limit) {hv : ValidMemmap entries}
    {hz : NoPageZero entries} {count ptr : ℕ} {p p' : Pages h.offset entries} (hc : 0 < count)
    (he : p.alloc hv hz count m = some (ptr, p', m')) :
    m' = memset m (h.offset + ptr) 0#8 (count * 0x1000) := by
  obtain ⟨hlive, page, -, -, hm⟩ := alloc_cases hc he
  have hl : p'.Live (ptr, count) := ⟨by rw [hlive]; exact List.mem_cons_self, hc⟩
  have hb := hl.bounds hv
  have hlim := h.limit_le
  have htop := h.top_le
  simp only [show pageSize = 4096 from rfl] at hb hm
  rw [hm, h.tohh_eq (by omega), wrap_of_lt (by omega)]

theorem free_live {hv : ValidMemmap entries} {hz : NoPageZero entries} {count ptr : ℕ}
    {p : Pages off entries} (hl : p.Live (ptr, count)) (x : ℕ × ℕ) :
    (p.free hv hz ptr count).Live x ↔ p.Live x ∧ x ≠ (ptr, count) := by
  have hap := ((List.perm_cons_erase hl.1).pairwise_iff fun {a b} => @Apart.symm a b).mp p.inv.apart
  rw [List.pairwise_cons] at hap
  have hself : ¬ Apart (ptr, count) (ptr, count) := by
    intro h
    exact h (ptr / pageSize) ⟨⟨Nat.le_refl _, by have := hl.2; dsimp only at this ⊢; omega⟩,
      ⟨Nat.le_refl _, by have := hl.2; dsimp only at this ⊢; omega⟩⟩
  have hfree : (p.free hv hz ptr count).trace.live = p.trace.live.erase (ptr, count) := by
    unfold free
    rw [dif_pos (List.contains_iff_mem.mpr hl.1)]
  simp only [Live, hfree]
  by_cases hx : x = (ptr, count)
  · subst hx
    simp only [ne_eq, not_true_eq_false, and_false, iff_false]
    exact fun hmem => hself (hap.1 _ hmem.1)
  · simp [hx, List.mem_erase_of_ne hx]

/-- The whole page allocator as the slab allocator sees it. -/
def source (h : Hhdm) (hv : ValidMemmap entries) (hz : NoPageZero entries)
    (hcov : usableTop entries ≤ h.limit) : Slab.PageSource h (Pages h.offset entries) where
  alloc count p m := p.alloc hv hz count m
  free ptr count p := p.free hv hz ptr count
  live := Live
  aligned {p x} hx := p.aligned x hx.1
  inWindow {p x} hx := (hx.bounds hv).trans hcov
  apart hx hy hne := hx.apart hy hne
  alloc_fresh hc he := alloc_fresh hc he
  alloc_live hc he x := by
    rw [Live, (alloc_cases hc he).1, List.mem_cons, or_and_right, Live]
    exact or_congr_left ⟨fun h => h.1, fun h => ⟨h, by rw [h]; exact hc⟩⟩
  alloc_zeroed hc he := by
    rw [alloc_mem hcov hc he]
    exact memset_filled _ _ _ _
  alloc_frame hc he := by
    rw [alloc_mem hcov hc he]
    exact memset_sameOutside _ _ _ _
  free_live _ hl := free_live hl

end Pages

/-! ## A machine with sixty-four usable pages -/

def heapMap : List MemmapEntry := [⟨0x1000, 0x40000, .usable⟩]

theorem heapMap_valid : ValidMemmap heapMap where
  aligned := by decide
  noWrap := by decide
  disjoint := List.pairwise_singleton _ _
  room := ⟨_, List.mem_cons_self, rfl, by decide⟩

theorem heapMap_noPageZero : NoPageZero heapMap := by
  intro e he
  obtain rfl := List.mem_singleton.mp he
  simp [MemmapEntry.HasPage, pageSize]

def heapKernel : Slab.Kernel (Pages smallHhdm.offset heapMap) where
  hhdm := smallHhdm
  source := Pages.source smallHhdm heapMap_valid heapMap_noPageZero (by decide)
  base := 0xffffffff80100000
  base_lt := by norm_num

def heapBoot : Pages smallHhdm.offset heapMap := Pages.boot smallHhdm.offset heapMap_valid

end IceKernel.Physical
