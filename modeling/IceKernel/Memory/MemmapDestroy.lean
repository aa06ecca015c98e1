import IceKernel.Memory.MemmapRanges

/-!
# `pagemap_t::~pagemap_t`

Its loop runs until there are no ranges, and its body calls the `unmap` for
single pages, which leaves the ranges alone.
-/

namespace IceKernel.Memmap
open Word64 RadixTree Paging

variable {A : Type} (H : Host A)

/-- The loop of the destructor, for at most `fuel` rounds; `none` when it has not ended by then. The
length of the range is taken for the flags of `unmap`. -/
def destructLoop (m : ℕ) : ℕ → State A → Option (State A)
  | 0, st => if (st.pagemaps.get m).ranges = [] then some st else none
  | fuel + 1, st =>
    match (st.pagemaps.get m).ranges with
    | [] => some st
    | l :: _ =>
      let loc := st.locals.get l
      (unmap H.toMachine (st.top m) loc.base (BitVec.ofNat 64 loc.length) st.paging).bind
        fun (_, paging) => destructLoop m fuel { st with paging := paging }

/-- What the loop is for: no ranges, and nothing mapped where they were. -/
structure Destructed (m : ℕ) (st st' : State A) : Prop where
  ranges : (st'.pagemaps.get m).ranges = []
  unmapped : ∀ l ∈ (st.pagemaps.get m).ranges, ∀ a, (st.locals.get l).base ≤ a →
    a < (st.locals.get l).base + (st.locals.get l).length →
    hwTranslate H.toMachine st'.paging.mem (st.top m) a = none

variable {H} {m fuel : ℕ} {st : State A}

/-- Each round finds the ranges of the one before. -/
theorem destructLoop_eq_none (h : (st.pagemaps.get m).ranges ≠ []) :
    destructLoop H m fuel st = none := by
  induction fuel generalizing st with
  | zero => exact if_neg h
  | succ fuel ih =>
    obtain ⟨l, ls, hl⟩ := List.exists_cons_of_ne_nil h
    rw [destructLoop, hl]
    refine Option.bind_eq_none_iff.mpr fun ⟨ok, paging⟩ _ => ?_
    exact ih h

/-- The loop ends exactly where there is nothing to do. -/
theorem destructLoop_ends_iff (H : Host A) (m : ℕ) (st : State A) :
    (∃ fuel st', destructLoop H m fuel st = some st' ∧ Destructed H m st st') ↔
      (st.pagemaps.get m).ranges = [] := by
  constructor
  · rintro ⟨fuel, st', he, -⟩
    by_contra h
    rw [destructLoop_eq_none h] at he
    simp at he
  · intro h
    refine ⟨0, st, if_pos h, h, fun l hl => ?_⟩
    rw [h] at hl
    exact absurd hl List.not_mem_nil

/-- The destructor of a pagemap with one range does not end. -/
theorem one_range_never_destructed :
    ∃ m st st', smallRange = some (m, st, st') ∧ (st'.pagemaps.get m).ranges = [0] ∧
      ∀ fuel, destructLoop orderedHost m fuel st' = none := by
  have hvals : smallRange.map (fun (m, _, st') => (st'.pagemaps.get m).ranges) = some [0] := by
    decide +kernel
  obtain ⟨⟨m, st, st'⟩, hr, hv⟩ := Option.map_eq_some_iff.mp hvals
  have hranges : (st'.pagemaps.get m).ranges = [0] := hv
  refine ⟨m, st, st', hr, hranges, fun fuel => destructLoop_eq_none ?_⟩
  rw [hranges]
  exact List.cons_ne_nil 0 []

end IceKernel.Memmap
