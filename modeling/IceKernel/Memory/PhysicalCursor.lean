import IceKernel.Memory.PhysicalRuns

/-!
# When `alloc` panics

`alloc` searches from the cursor to the top and then from page 0 to the old
cursor, each pass with its own run counter.
-/

namespace IceKernel.Physical
open ByteMemory

section Runs

variable {entries : List MemmapEntry} {calls : List Call} {t : Trace} {m : Mem}

/-- A call that does not leave the cursor just above a clear page: every `alloc`, and a `free`
that keeps the cursor or whose preceding page is in use. -/
def Settled (t : Trace) : Call → Prop
  | .alloc _ => True
  | .free ptr _ => ptr / pageSize = 0 ∨ t.state.bits (ptr / pageSize - 1) = true ∨
      t.state.lastIndex ≤ ptr / pageSize

/-- The cursor stands at page 0 or just above a page in use. -/
def Trace.AtBoundary (t : Trace) : Prop :=
  t.state.lastIndex = 0 ∨ t.state.bits (t.state.lastIndex - 1) = true

/-- Allocating keeps the cursor at a boundary, and so does every settled `free`. -/
theorem AtBoundary.step {s0 : State} (h0 : s0.bits 0 = true) (off : ℕ) {t t' : Trace} {c : Call}
    (hi : Inv s0 t) (hb : t.AtBoundary) (hc : Settled t c) (h : Physical.step off t c = some t') :
    t'.AtBoundary := by
  cases c with
  | alloc count =>
    by_cases hz : count = 0
    · subst hz
      obtain rfl : (⟨t.state, t.mem, (0, 0) :: t.live⟩ : Trace) = t' := by
        simpa [Physical.step, alloc] using h
      exact hb
    · rcases alloc_cases off t.mem (Nat.pos_of_ne_zero hz) (hi.bit_zero h0) hi.cursor with
        ⟨page, s', -, -, -, hm, he⟩ | ⟨-, s', he⟩
      · simp only [Physical.step, he, Option.some.injEq] at h
        subst h
        right
        -- the cursor stands right after the run just marked
        change s'.bits (s'.lastIndex - 1) = true
        rw [hm.bits, hm.lastIndex, if_pos (by omega)]
      · simp [Physical.step, he] at h
  | free ptr count =>
    simp only [Physical.step] at h
    split_ifs at h with hl
    simp only [Option.some.injEq] at h
    subst h
    by_cases hp : ptr = 0
    · simpa [Trace.AtBoundary, free, hp] using hb
    · simp only [Settled] at hc
      simp only [Trace.AtBoundary, free, hp, if_false, setPages_lastIndex, setPages_bits]
      generalize ptr / pageSize = page at hc ⊢
      rcases Nat.lt_or_ge page t.state.lastIndex with hlt | hge
      · -- the cursor is pulled back to the freed block
        rw [min_eq_right hlt.le]
        by_cases hpz : page = 0
        · exact Or.inl hpz
        rcases hc with hc | hc | hc
        · exact absurd hc hpz
        · exact Or.inr (by rw [if_neg (by omega)]; exact hc)
        · omega
      · rw [min_eq_left hge]
        by_cases hcz : t.state.lastIndex = 0
        · exact Or.inl hcz
        · exact Or.inr (by rw [if_neg (by omega)]; exact hb.resolve_left hcz)

/-- In every reachable state `alloc` reports `Out of memory` truthfully unless clear runs of the
wanted length exist and each of them lies across the cursor; and in runs that never leave the
cursor just above a clear page it always reports truthfully. -/
theorem out_of_memory_iff {off : ℕ} (hv : ValidMemmap entries) (hz : NoPageZero entries)
    (hrun : Run.run (step off) (boot off entries m) calls = some t) :
    (∀ count, 0 < count →
      ((∀ s' m', alloc off count t.state t.mem =
          (.error "Physical Memory Manager: Out of memory!", s', m') →
          ¬ ∃ a, t.state.ClearRun a count) ↔
        ((∃ a, t.state.ClearRun a count) → ∃ a, t.state.ClearRun a count ∧
          (a + count ≤ t.state.lastIndex ∨ t.state.lastIndex ≤ a)))) ∧
    (Run.Along (step off) Settled (boot off entries m) calls → ∀ count, 0 < count →
      ∀ s' m', alloc off count t.state t.mem =
        (.error "Physical Memory Manager: Out of memory!", s', m') →
        ¬ ∃ a, t.state.ClearRun a count) := by
  have h0 := init_bit_zero off hv hz
  have hi := inv_of_run hv hz hrun
  have hiff (count : ℕ) (hc : 0 < count) :
      (∀ s' m', alloc off count t.state t.mem =
          (.error "Physical Memory Manager: Out of memory!", s', m') →
          ¬ ∃ a, t.state.ClearRun a count) ↔
        ((∃ a, t.state.ClearRun a count) → ∃ a, t.state.ClearRun a count ∧
          (a + count ≤ t.state.lastIndex ∨ t.state.lastIndex ≤ a)) := by
    rcases alloc_cases off t.mem hc (hi.bit_zero h0) hi.cursor with
      ⟨page, s1, -, hw, hside, -, he⟩ | ⟨hno, s1, he⟩
    · constructor
      · exact fun _ _ => ⟨page, hw, hside.symm⟩
      · intro _ s' m' he'
        rw [he] at he'
        simp at he'
    · constructor
      · exact fun hp hex => absurd hex (hp s1 t.mem he)
      · rintro hcond s' m' - hex
        obtain ⟨a, ha, hside⟩ := hcond hex
        have := hno a ha
        omega
  refine ⟨hiff, fun hC count hc => (hiff count hc).mpr ?_⟩
  have hb : Inv (init off entries).2 t ∧ t.AtBoundary := by
    refine Run.run_invariant_along (I := fun t => Inv (init off entries).2 t ∧ t.AtBoundary)
      ?_ ⟨Inv.boot hv m, ?_⟩ hC hrun
    · exact fun t c t' ht hs hst => ⟨Inv.step h0 off t c t' ht.1 hst,
        AtBoundary.step h0 off ht.1 ht.2 hs hst⟩
    · obtain ⟨base, hs⟩ := init_spec off hv
      exact Or.inl hs.lastIndex
  rintro ⟨a, ha⟩
  refine ⟨a, ha, ?_⟩
  by_contra hside
  -- a run across the cursor would contain the page in use just below it
  have hin := window_clear.mp ha.2 (t.state.lastIndex - 1) (by omega) (by omega)
  rcases hb.2 with hb | hb
  · omega
  · rw [hb] at hin
    exact Bool.noConfusion hin

theorem out_of_memory_iff_small :
    ∃ t, Run.run (step smallHhdm.offset) smallBoot [.alloc 1, .alloc 1] = some t ∧
      ∀ s' m', alloc smallHhdm.offset 9 t.state t.mem =
        (.error "Physical Memory Manager: Out of memory!", s', m') →
        ¬ ∃ a, t.state.ClearRun a 9 := by
  obtain ⟨t, ht⟩ := Option.isSome_iff_exists.mp
    (rfl : (Run.run (step smallHhdm.offset) smallBoot [.alloc 1, .alloc 1]).isSome = true)
  refine ⟨t, ht, (out_of_memory_iff smallMap_valid smallMap_noPageZero ht).2 ?_ 9 (by norm_num)⟩
  exact ⟨trivial, fun _ _ => ⟨trivial, fun _ _ => trivial⟩⟩

/-- Pages 2 and 3 are clear with the cursor between them: a request for two pages panics. -/
theorem straddling_run_missed : ValidMemmap smallMap ∧ NoPageZero smallMap ∧
    ∃ t, Run.run (step smallHhdm.offset) smallBoot straddlingCalls = some t ∧
      t.state.ClearRun 2 2 ∧
      ∃ s' m', alloc smallHhdm.offset 2 t.state t.mem =
        (.error "Physical Memory Manager: Out of memory!", s', m') := by
  refine ⟨smallMap_valid, smallMap_noPageZero, ?_⟩
  obtain ⟨t, ht⟩ := Option.isSome_iff_exists.mp
    (rfl : (Run.run (step smallHhdm.offset) smallBoot straddlingCalls).isSome = true)
  have hstate : (Run.run (step smallHhdm.offset) smallBoot straddlingCalls).map
      (fun t => (t.state.pageCount, t.state.bits 2, t.state.bits 3)) =
      some (9, false, false) := rfl
  have halloc : (Run.run (step smallHhdm.offset) smallBoot straddlingCalls).map
      (fun t => (alloc smallHhdm.offset 2 t.state t.mem).1) =
      some (.error "Physical Memory Manager: Out of memory!") := rfl
  have hmem : (alloc smallHhdm.offset 2 t.state t.mem).1 =
      .error "Physical Memory Manager: Out of memory!" := by
    rw [ht] at halloc
    exact Option.some.inj halloc
  simp only [ht, Option.map_some, Option.some.injEq, Prod.mk.injEq] at hstate
  refine ⟨t, ht, ⟨by rw [hstate.1]; norm_num, window_clear.mpr fun q h1 h2 => ?_⟩,
    (alloc smallHhdm.offset 2 t.state t.mem).2.1, (alloc smallHhdm.offset 2 t.state t.mem).2.2,
    Prod.ext hmem rfl⟩
  obtain rfl | rfl : q = 2 ∨ q = 3 := by omega
  · exact hstate.2.1
  · exact hstate.2.2

end Runs

end IceKernel.Physical
