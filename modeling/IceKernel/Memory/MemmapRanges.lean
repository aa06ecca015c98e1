import IceKernel.Lib.Run
import IceKernel.Memory.Memmap

/-!
# Ranges, globals and locals

What `map_range` and `fork` do to the objects, apart from the page tables.
-/

namespace IceKernel.Memmap
open Word64 RadixTree Paging

variable {A : Type} {H : Host A} {k m : ℕ} {st st' : State A}

/-! ## What the page-table loops leave alone -/

/-- Only the page tables changed. -/
structure SameObjects (st st' : State A) : Prop where
  pagemaps : st'.pagemaps = st.pagemaps
  globals : st'.globals = st.globals
  locals : st'.locals = st.locals

theorem SameObjects.trans {st'' : State A} (h : SameObjects st st') (h' : SameObjects st' st'') :
    SameObjects st st'' :=
  ⟨h'.pagemaps.trans h.pagemaps, h'.globals.trans h.globals, h'.locals.trans h.locals⟩

theorem SameObjects.of_paging {paging : Paging.State A}
    (h : SameObjects { st with paging := paging } st') : SameObjects st st' :=
  ⟨h.pagemaps, h.globals, h.locals⟩

theorem mapLocals_objects {v pa : ℕ} {flags : BitVec 64} {ls : List ℕ} {ok : Bool}
    (he : mapLocals H v pa flags ls st = some (ok, st')) : SameObjects st st' := by
  induction ls generalizing st with
  | nil =>
    simp only [mapLocals, Option.some.injEq, Prod.mk.injEq] at he
    obtain ⟨-, rfl⟩ := he
    exact ⟨rfl, rfl, rfl⟩
  | cons l ls ih =>
    rw [mapLocals] at he
    split_ifs at he
    · obtain ⟨⟨ok1, paging⟩, -, h2⟩ := Option.bind_eq_some_iff.mp he
      dsimp only at h2
      split_ifs at h2
      · exact (ih h2).of_paging
      · simp only [Option.some.injEq, Prod.mk.injEq] at h2
        obtain ⟨-, rfl⟩ := h2
        exact ⟨rfl, rfl, rfl⟩
    · exact ih he

theorem mapPage_objects {g v pa : ℕ} {prot : BitVec 32} {ok : Bool}
    (he : mapPage H g v pa prot st = some (ok, st')) : SameObjects st st' := by
  obtain ⟨⟨ok1, paging⟩, -, h2⟩ := Option.bind_eq_some_iff.mp he
  dsimp only at h2
  split_ifs at h2
  · exact (mapLocals_objects h2).of_paging
  · simp only [Option.some.injEq, Prod.mk.injEq] at h2
    obtain ⟨-, rfl⟩ := h2
    exact ⟨rfl, rfl, rfl⟩

theorem mapPages_objects {g v pa n i : ℕ} {prot : BitVec 32} {ok : Bool}
    (he : mapPages H g v pa prot n i st = some (ok, st')) : SameObjects st st' := by
  induction n generalizing i st with
  | zero =>
    simp only [mapPages, Option.some.injEq, Prod.mk.injEq] at he
    obtain ⟨-, rfl⟩ := he
    exact ⟨rfl, rfl, rfl⟩
  | succ n ih =>
    obtain ⟨⟨ok1, st1⟩, h1, h2⟩ := Option.bind_eq_some_iff.mp he
    dsimp only at h2
    split_ifs at h2
    · exact (mapPage_objects h1).trans (ih h2)
    · simp only [Option.some.injEq, Prod.mk.injEq] at h2
      obtain ⟨-, rfl⟩ := h2
      exact mapPage_objects h1

/-- A new pagemap has no ranges. -/
theorem newPagemap_eq_some {child : ℕ} (he : newPagemap H k st = some (child, st')) :
    child = st.pagemaps.size ∧ ∃ topLevel paging,
      construct H.toMachine (some k) st.paging = some (topLevel, paging) ∧
      st' = { st with paging := paging, pagemaps := st.pagemaps.push ⟨[], topLevel⟩ } := by
  obtain ⟨⟨topLevel, paging⟩, h1, h2⟩ := Option.map_eq_some_iff.mp he
  simp only [Prod.mk.injEq] at h2
  exact ⟨h2.1.symm, topLevel, paging, h1, h2.2.symm⟩

/-- The `local` that `map_range` makes. -/
def rangeLocal (g m virtualAddress : ℕ) (prot flags : BitVec 32) : Local :=
  { Local.zero with
    global := g, pagemap := m, base := alignDown virtualAddress KiB4, prot := prot,
    flags := flags ||| mapAnonymous }

/-- The objects after `map_range`: one more of each kind. -/
theorem mapRange_objects {va pa length : ℕ} {prot flags : BitVec 32} {ok : Bool}
    (he : mapRange H k m va pa length prot flags st = some (ok, st')) :
    ∃ topLevel glob, glob.locals = [st.locals.size] ∧ glob.shadow = st.pagemaps.size ∧
      st'.locals = st.locals.push (rangeLocal st.globals.size m va prot flags) ∧
      st'.globals = st.globals.push glob ∧
      st'.pagemaps = (st.pagemaps.push ⟨[], topLevel⟩).set m
        { (st.pagemaps.push ⟨[], topLevel⟩).get m with
          ranges := ((st.pagemaps.push ⟨[], topLevel⟩).get m).ranges ++ [st.locals.size] } := by
  obtain ⟨⟨shadow, st1⟩, h1, h2⟩ := Option.bind_eq_some_iff.mp he
  obtain ⟨rfl, topLevel, paging, -, rfl⟩ := newPagemap_eq_some h1
  have hobj := mapPages_objects h2
  exact ⟨topLevel, _, rfl, rfl, hobj.locals, hobj.globals, hobj.pagemaps⟩

/-! ## The index of ranges -/

/-- What the caller of `map_range` expects: the range is found at each of its addresses, this
pagemap and the shadow of its `global` translate it, and earlier ranges are as they were. -/
def RangeMapped (H : Host A) (st st' : State A) (m va pa length : ℕ) : Prop :=
  (∀ o < length,
    addressToRange m (va + o) st' = some (st.locals.size, (va + o) / KiB4, o / KiB4) ∧
    ∀ top ∈ [st'.top m,
        st'.top (st'.globals.get (st'.locals.get st.locals.size).global).shadow],
      (virtualToPhysical H.toMachine top (va + o) 0 st'.paging).map Prod.fst = some (pa + o)) ∧
  ∀ a r, addressToRange m a st = some r →
    addressToRange m a st' = some r ∧
      (virtualToPhysical H.toMachine (st'.top m) a 0 st'.paging).map Prod.fst =
        (virtualToPhysical H.toMachine (st.top m) a 0 st.paging).map Prod.fst

theorem covers_of_addressToRange {a l p q : ℕ} (h : addressToRange m a st = some (l, p, q)) :
    (st.locals.get l).Covers a := by
  obtain ⟨l', hfind, heq⟩ := Option.map_eq_some_iff.mp h
  obtain rfl : l' = l := (Prod.mk.inj heq).1
  simpa using List.find?_some hfind

/-- The range of a fresh `local` has no addresses. -/
theorem rangeLocal_not_covers (g m va : ℕ) (prot flags : BitVec 32) {a : ℕ}
    (ha : alignDown va KiB4 ≤ a) : ¬ (rangeLocal g m va prot flags).Covers a := by
  have hwrap : wrap (alignDown va KiB4 + 0) ≤ alignDown va KiB4 := Nat.mod_le _ _
  exact not_not_intro (Or.inr (hwrap.trans ha))

/-- `map_range` never makes a range that `address_to_range` finds, also where it returns true. -/
theorem map_range_never_found (H : Host A) {va pa length : ℕ} {prot flags : BitVec 32}
    (hlen : 0 < length)
    (he : mapRange H k m va pa length prot flags st = some (true, st')) :
    ¬ RangeMapped H st st' m va pa length := by
  intro hmapped
  obtain ⟨topLevel, glob, -, -, hlocals, -, -⟩ := mapRange_objects he
  have hcov := covers_of_addressToRange (hmapped.1 0 hlen).1
  rw [hlocals, Arena.get_push_self] at hcov
  exact rangeLocal_not_covers _ _ _ _ _ Nat.and_le_left hcov

/-- A pagemap in which nothing is mapped, and one page mapped as a range of it. -/
def smallRange : Option (ℕ × State ℕ × State ℕ) :=
  (construct (orderedMachine false) none (start (fun _ _ => 0#64) 1)).bind fun (k, s₀) =>
    (newPagemap orderedHost k (boot k s₀)).bind fun (m, st) =>
      (mapRange orderedHost k m 0x400000 0x7000 0x1000 protocolRead mapPrivate st).bind
        fun (ok, st') => if ok then some (m, st, st') else none

theorem map_range_never_found_small :
    ∃ m st st', smallRange = some (m, st, st') ∧
      ¬ RangeMapped orderedHost st st' m 0x400000 0x7000 0x1000 := by
  have hsome : smallRange.isSome = true := by decide +kernel
  obtain ⟨⟨m, st, st'⟩, hr⟩ := Option.isSome_iff_exists.mp hsome
  refine ⟨m, st, st', hr, ?_⟩
  obtain ⟨⟨k, s₀⟩, -, h1⟩ := Option.bind_eq_some_iff.mp hr
  obtain ⟨⟨m', st1⟩, -, h2⟩ := Option.bind_eq_some_iff.mp h1
  obtain ⟨⟨ok, st2⟩, h3, h4⟩ := Option.bind_eq_some_iff.mp h2
  dsimp only at h4
  split_ifs at h4 with hok
  simp only [Option.some.injEq, Prod.mk.injEq] at h4
  obtain ⟨rfl, rfl, rfl⟩ := h4
  rw [hok] at h3
  exact map_range_never_found orderedHost (by decide) h3

/-- The first range of a pagemap is neither found nor mapped in it. -/
theorem first_range_lost :
    ∃ m st st', smallRange = some (m, st, st') ∧ (st.pagemaps.get m).ranges = [] ∧
      addressToRange m 0x400000 st' = none ∧
      (virtualToPhysical (orderedMachine false) (st'.top m) 0x400000 0 st'.paging).map Prod.fst =
        some invalidAddr ∧
      ¬ RangeMapped orderedHost st st' m 0x400000 0x7000 0x1000 := by
  have hvals : smallRange.map (fun (m, st, st') => ((st.pagemaps.get m).ranges,
      addressToRange m 0x400000 st',
      (virtualToPhysical (orderedMachine false) (st'.top m) 0x400000 0 st'.paging).map Prod.fst)) =
        some ([], none, some invalidAddr) := by
    decide +kernel
  obtain ⟨⟨m, st, st'⟩, hr, hv⟩ := Option.map_eq_some_iff.mp hvals
  simp only [Prod.mk.injEq] at hv
  refine ⟨m, st, st', hr, hv.1, hv.2.1, hv.2.2, fun hmapped => ?_⟩
  have hfound := (hmapped.1 0 (by decide)).1
  rw [Nat.add_zero, hv.2.1] at hfound
  simp at hfound

end IceKernel.Memmap
