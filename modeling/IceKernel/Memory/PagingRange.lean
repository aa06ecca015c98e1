import IceKernel.Memory.PagingSpaces

/-!
# The range operations of `pagemap_t`

`remap` and the inline loops of `virtual.hpp`. None of the loops looks at what
its calls return.
-/

namespace IceKernel.Paging
open Word64 RadixTree

variable {A : Type} (K : Machine A) {top v : ℕ} {st st' : State A}

/-- The rounds of `for (size_t i = 0; i < size; i += page_size)`, as long as `i` does not wrap. -/
def pageRounds (size pageSize : ℕ) : ℕ := (size + (pageSize - 1)) / pageSize

/-- Such a loop from the offset `i` on, with `n` rounds to go. -/
def rangeLoop (body : ℕ → State A → Option (Bool × State A)) (pageSize : ℕ) :
    ℕ → ℕ → State A → Option (State A)
  | 0, _, st => some st
  | n + 1, i, st => (body i st).bind fun (_, st) => rangeLoop body pageSize n (i + pageSize) st

/-- `pagemap_t::remap`. -/
def remap (topLevel oldPtr newPtr : ℕ) (flags : BitVec 64) (cache : Caching) (st : State A) :
    Option (Bool × State A) :=
  (virtualToPhysical K topLevel oldPtr flags st).bind fun (physicalAddress, st) =>
    (unmap K topLevel oldPtr flags st).bind fun (_, st) =>
      map K topLevel newPtr physicalAddress flags cache st

/-- The inline `pagemap_t::map_range`. Its body is that of `unmap_range`. -/
def mapRange (topLevel virtualAddress _physicalAddress size : ℕ) (flags : BitVec 64)
    (_cache : Caching) (st : State A) : Option (State A) :=
  let pageSize := getPageSize flags
  rangeLoop (fun i => unmap K topLevel (wrap (virtualAddress + i)) flags) pageSize
    (pageRounds size pageSize) 0 st

/-- `pagemap_t::unmap_range`. -/
def unmapRange (topLevel virtualAddress size : ℕ) (flags : BitVec 64) (st : State A) :
    Option (State A) :=
  let pageSize := getPageSize flags
  rangeLoop (fun i => unmap K topLevel (wrap (virtualAddress + i)) flags) pageSize
    (pageRounds size pageSize) 0 st

/-- `pagemap_t::remap_range`. -/
def remapRange (topLevel oldPtr newPtr size : ℕ) (flags : BitVec 64) (cache : Caching)
    (st : State A) : Option (State A) :=
  let pageSize := getPageSize flags
  rangeLoop (fun i => remap K topLevel (wrap (oldPtr + i)) (wrap (newPtr + i)) flags cache) pageSize
    (pageRounds size pageSize) 0 st

variable {K}

/-! ## Rounds -/

theorem pageRounds_lt {size k : ℕ} (hk : k < pageRounds size KiB4) : k * KiB4 < size := by
  unfold pageRounds KiB4 at *
  omega

theorem div_lt_pageRounds {size o : ℕ} (ho : o < size) : o / KiB4 < pageRounds size KiB4 := by
  unfold pageRounds KiB4
  omega

/-- The loop rule: an invariant that the body at each offset keeps. -/
theorem rangeLoop_invariant {body : ℕ → State A → Option (Bool × State A)} {pageSize : ℕ}
    {I : ℕ → State A → Prop} {n m : ℕ}
    (hbody : ∀ k < m + n, ∀ s ok s', I k s → body (k * pageSize) s = some (ok, s') → I (k + 1) s')
    (hi : I m st) (he : rangeLoop body pageSize n (m * pageSize) st = some st') :
    I (m + n) st' := by
  induction n generalizing m st with
  | zero =>
    obtain rfl : st = st' := Option.some.inj he
    exact hi
  | succ n ih =>
    obtain ⟨⟨ok, st1⟩, h1, h2⟩ := Option.bind_eq_some_iff.mp he
    rw [← Nat.succ_mul] at h2
    have hshift : m + (n + 1) = m + 1 + n := by omega
    rw [hshift] at hbody ⊢
    exact ih hbody (hbody m (by omega) st ok st1 hi h1) h2

/-! ## `map_range` unmaps -/

/-- A small `unmap` takes away leaves only, whatever the address. -/
theorem unmapOne_thins (ht : Tables K top st) (hc : ClearAbove K st.mem top v 3) {ok : Bool}
    (he : unmapOne K top v st = some (ok, st')) :
    Tables K top st' ∧ ∀ a d, leafFor K st'.mem top a d = leafFor K st.mem top a d ∨
      leafFor K st'.mem top a d = none := by
  obtain ⟨e, vis, hw⟩ := entry_false K top v KiB4 st
  rw [unmapOne, hw, Option.map_some, Option.some.injEq] at he
  obtain ⟨ht1, hg, ⟨t, rfl, hn⟩ | ⟨rfl, -, -⟩⟩ := ht.entry hc hw
  · simp only [Prod.mk.injEq] at he
    obtain ⟨-, rfl⟩ := he
    have hlen : 0 < (pathTo v (levelOf KiB4)).length := by simp [levelOf, KiB4, GiB1, MiB2]
    refine ⟨ht1.put hn hlen rfl (Or.inr rfl), fun a d => ?_⟩
    have hself := slotAt_write_self (i := idx v 3) (w := 0#64) ht1.unshared hn
    by_cases hsuf : idx v 3 :: pathTo v 3 <:+ idx a d :: pathTo a d
    · right
      rcases List.suffix_cons_iff.mp hsuf with heq | hbelow
      · obtain ⟨hidx, hpath⟩ := List.cons.inj heq
        rw [leafFor, leafOf, ← hidx, ← hpath, slotOf]
        exact congrArg Slot.leaf? hself
      · exact congrArg Slot.leaf? (slotAt_below (congrArg Slot.child? hself) hbelow (idx a d))
    · left
      exact congrArg Slot.leaf? (slotAt_write ht1.unshared hn hsuf)
  · simp only [Prod.mk.injEq] at he
    obtain ⟨-, rfl⟩ := he
    exact ⟨ht1, fun a d => Or.inl (hg.leaves _ _)⟩

theorem Unmapped.thins {size : ℕ} (h : Unmapped K st.mem top v size)
    (hleaf : ∀ a d, leafFor K st'.mem top a d = leafFor K st.mem top a d ∨
      leafFor K st'.mem top a d = none) : Unmapped K st'.mem top v size := by
  intro a hle hlt
  have hnone := hwTranslate_eq_none.mp (h a hle hlt)
  refine hwTranslate_eq_none.mpr fun d hd => ?_
  rcases hleaf a d with heq | heq
  · rw [heq, hnone d hd]
  · exact heq

/-- Unmapping the pages of a range that is not mapped. -/
theorem unmapRange_unmapped {size : ℕ} {flags : BitVec 64} (ht : Tables K top st)
    (hf : isLpage flags = false) (hwrap : v + size ≤ 2 ^ 64) (hun : Unmapped K st.mem top v size)
    (he : unmapRange K top v size flags st = some st') :
    Tables K top st' ∧ Unmapped K st'.mem top v size := by
  rw [unmapRange, getPageSize_plain hf] at he
  have hrun := rangeLoop_invariant
    (I := fun _ s => Tables K top s ∧ Unmapped K s.mem top v size) (m := 0) ?_ ⟨ht, hun⟩
    (by rwa [Nat.zero_mul])
  · exact hrun
  intro k hk s ok s' ⟨hs, hu⟩ h1
  have hlt := pageRounds_lt (by rwa [Nat.zero_add] at hk)
  rw [wrap_of_lt (by omega), unmap_plain hf] at h1
  obtain ⟨hs', hleaf⟩ := unmapOne_thins hs (hu.clearAbove hlt (Nat.le_refl 3)) h1
  exact ⟨hs', hu.thins hleaf⟩

/-- What `map_range` is for: each address of the range gets its frame, no page outside the range
changes, and `unmap_range` then restores all translations. -/
def MapsRange (K : Machine A) (top v pa size : ℕ) (flags : BitVec 64) (cache : Caching)
    (st : State A) : Prop :=
  ∃ st', mapRange K top v pa size flags cache st = some st' ∧
    (∀ o < size, hwTranslate K st'.mem top (v + o) = some (pa + o)) ∧
    (∀ a, Canonical a → (∀ o < size, a / KiB4 ≠ (v + o) / KiB4) →
      hwTranslate K st'.mem top a = hwTranslate K st.mem top a) ∧
    ∃ st'', unmapRange K top v size flags st' = some st'' ∧
      ∀ a, Canonical a → hwTranslate K st''.mem top a = hwTranslate K st.mem top a

/-- The inline `map_range` maps nothing, so it does its task for the empty range only. -/
theorem map_range_maps_iff (K : Machine A) {pa size : ℕ} {flags : BitVec 64} {cache : Caching}
    (ht : Tables K top st) (hf : isLpage flags = false) (hwrap : v + size ≤ 2 ^ 64)
    (hun : Unmapped K st.mem top v size) :
    MapsRange K top v pa size flags cache st ↔ size = 0 := by
  constructor
  · rintro ⟨st', he, hmapped, -, -⟩
    obtain ⟨-, hun'⟩ := unmapRange_unmapped ht hf hwrap hun he
    by_contra hsize
    have hv := hmapped 0 (Nat.pos_of_ne_zero hsize)
    rw [hun' (v + 0) (by omega) (by omega)] at hv
    simp at hv
  · rintro rfl
    have hnothing (st : State A) : unmapRange K top v 0 flags st = some st := by
      rw [unmapRange, getPageSize_plain hf]
      rfl
    exact ⟨st, hnothing st, fun o ho => absurd ho (Nat.not_lt_zero o), fun _ _ _ => rfl, st,
      hnothing st, fun _ _ => rfl⟩

theorem map_range_maps_iff_small :
    ∃ top st, construct (orderedMachine false) none (start (fun _ _ => 0#64) 1) =
        some (top, st) ∧
      (MapsRange (orderedMachine false) top 0x400000 0x7000 0x2000 RW .writeBack st ↔
        0x2000 = 0) := by
  have hsome : (construct (orderedMachine false) none (start (fun _ _ => 0#64) 1)).isSome =
      true := by
    decide +kernel
  obtain ⟨⟨top, st⟩, h0⟩ := Option.isSome_iff_exists.mp hsome
  exact ⟨top, st, h0, map_range_maps_iff (orderedMachine false) (construct_spec h0).1 (by decide)
    (by norm_num) (construct_unmapped h0 _ _)⟩

/-- After `map_range` of one page that page is not mapped. -/
theorem map_range_leaves_unmapped :
    ∃ top st st', construct (orderedMachine false) none (start (fun _ _ => 0#64) 1) =
        some (top, st) ∧
      Unmapped (orderedMachine false) st.mem top 0x400000 KiB4 ∧
      mapRange (orderedMachine false) top 0x400000 0x7000 KiB4 RW .writeBack st = some st' ∧
      hwTranslate (orderedMachine false) st'.mem top 0x400000 = none ∧
      ¬ MapsRange (orderedMachine false) top 0x400000 0x7000 KiB4 RW .writeBack st := by
  have hrun : ((construct (orderedMachine false) none (start (fun _ _ => 0#64) 1)).bind
      fun new => (mapRange (orderedMachine false) new.1 0x400000 0x7000 KiB4 RW .writeBack
        new.2).map fun st' => hwTranslate (orderedMachine false) st'.mem new.1 0x400000) =
        some none := by
    decide +kernel
  obtain ⟨⟨top, st⟩, h0, h1⟩ := Option.bind_eq_some_iff.mp hrun
  obtain ⟨st', hm, hnone⟩ := Option.map_eq_some_iff.mp h1
  refine ⟨top, st, st', h0, construct_unmapped h0 _ _, hm, hnone, ?_⟩
  rintro ⟨st2, h2, hmapped, -⟩
  rw [hm, Option.some.injEq] at h2
  have hv := hmapped 0 (by decide)
  rw [← h2, Nat.add_zero, hnone] at hv
  simp at hv

/-! ## `remap` -/

/-- The frame `remap` maps for what the old page had: when it had none, `invalid_addr` fills the
whole address field. -/
def remappedFrame (frame : Option ℕ) : ℕ := frame.getD paMask.toNat

/-- What `remap` does to the map. -/
def PageMap.move (M : PageMap) (oldPage newPage : ℕ) : PageMap :=
  Function.update (Function.update M oldPage none) newPage (some (remappedFrame (M oldPage)))

theorem getAddress_mod (w : BitVec 64) : getAddress w % KiB4 = 0 := by
  have hmask : paMask.toNat = (2 ^ 40 - 1) <<< 12 := rfl
  rw [getAddress, BitVec.toNat_and, hmask, and_field]
  exact Nat.mul_mod_left _ _

/-- `map` with `invalid_addr` sets all bits of the entry. -/
theorem getAddress_mappedWord_invalid (old flags : BitVec 64) (cache : Caching) (pageSize : ℕ) :
    getAddress (mappedWord old invalidAddr flags cache pageSize) = paMask.toNat := by
  have hall : BitVec.ofNat 64 invalidAddr = BitVec.allOnes 64 := rfl
  have hword : mappedWord old invalidAddr flags cache pageSize = BitVec.allOnes 64 := by
    apply BitVec.eq_of_getLsbD_eq
    intro i hi
    rw [mappedWord, getLsbD_setFlags, setAddress, hall, BitVec.getLsbD_or, BitVec.getLsbD_allOnes]
    simp [hi]
  rw [getAddress, hword, BitVec.allOnes_and]

/-- A lookup records its visits and changes nothing else. -/
theorem Refines.visit {M : PageMap} (h : Refines K top st M) (vis : List ℕ) :
    Refines K top { st with visited := vis } M :=
  ⟨Tables.of_skeleton (h.tables.skeleton.visit vis) h.tables.zero, h.small, h.agrees⟩

theorem Refines.remap {M : PageMap} (h : Refines K top st M) {oldPtr newPtr : ℕ}
    {flags : BitVec 64} {cache : Caching} (hf : isLpage flags = false) (hold : Canonical oldPtr)
    (hnew : Canonical newPtr) (hal : oldPtr % KiB4 = 0) {ok : Bool}
    (he : Paging.remap K top oldPtr newPtr flags cache st = some (ok, st')) :
    Refines K top st' (M.move (oldPtr / KiB4) (newPtr / KiB4)) := by
  obtain ⟨⟨pa, st1⟩, h1, h2⟩ := Option.bind_eq_some_iff.mp he
  obtain ⟨⟨ok2, st2⟩, h3, h4⟩ := Option.bind_eq_some_iff.mp h2
  obtain ⟨vis, hlook⟩ := h.tables.skeleton.lookup_small hf (h.small oldPtr hold)
  have hagree := h.agrees oldPtr hold
  rw [hlook, hagree, Option.some.injEq, Prod.mk.injEq] at h1
  obtain ⟨rfl, rfl⟩ := h1
  have hr := (h.visit vis).unmap hf hold h3
  rw [PageMap.move]
  cases hM : M (oldPtr / KiB4) with
  | some frame =>
    rw [hM] at h4 hagree
    obtain ⟨w, -, rfl⟩ := Option.map_eq_some_iff.mp hagree
    rw [frameAddress, hal, Nat.add_zero] at h4
    exact (hr.map hf hnew (getAddress_mod w) (getAddress_lt w) h4).2
  | none =>
    -- `map` takes the sentinel for an address
    rw [hM] at h4
    have h5 : Paging.map K top newPtr invalidAddr flags cache st2 = some (ok, st') := h4
    rw [map_plain hf] at h5
    have hclear : ClearAbove K st2.mem top newPtr (levelOf KiB4) := hr.small newPtr hnew
    obtain ⟨-, ht, old, hp⟩ := mapOne_spec hr.tables hnew (Or.inl rfl) hclear h5
    have hput := hr.put ht hp
    rwa [Option.map_some, getAddress_mappedWord_invalid] at hput

/-! ## `remap_range` -/

/-- What the loop of `remap_range` does to the map, for `n` pages. -/
def PageMap.moveRange (M : PageMap) (oldPage newPage : ℕ) : ℕ → PageMap
  | 0 => M
  | n + 1 => (M.moveRange oldPage newPage n).move (oldPage + n) (newPage + n)

/-- All pages at once, when the ranges do not overlap. -/
theorem PageMap.moveRange_apply (M : PageMap) {oldPage newPage n : ℕ}
    (hdisj : oldPage + n ≤ newPage ∨ newPage + n ≤ oldPage) (page : ℕ) :
    M.moveRange oldPage newPage n page =
      if oldPage ≤ page ∧ page < oldPage + n then none
      else if newPage ≤ page ∧ page < newPage + n then
        some (remappedFrame (M (page - newPage + oldPage)))
      else M page := by
  induction n generalizing page with
  | zero =>
    rw [if_neg (by omega), if_neg (by omega)]
    rfl
  | succ n ih =>
    have hih := ih (by omega)
    -- the old page of this round has not been touched yet
    have hsrc : M.moveRange oldPage newPage n (oldPage + n) = M (oldPage + n) := by
      rw [hih, if_neg (by omega), if_neg (by omega)]
    rw [PageMap.moveRange, PageMap.move, hsrc]
    by_cases hnew : page = newPage + n
    · have hback : page - newPage + oldPage = oldPage + n := by omega
      rw [hnew, Function.update_self, if_neg (by omega), if_pos (by omega), ← hnew, hback]
    · rw [Function.update_of_ne hnew]
      by_cases hold : page = oldPage + n
      · rw [hold, Function.update_self, if_pos (by omega)]
      · rw [Function.update_of_ne hold, hih]
        exact if_congr (by omega) rfl (if_congr (by omega) rfl rfl)

section Moved

variable {M : PageMap} {oldPage newPage n : ℕ}
  (hdisj : oldPage + n ≤ newPage ∨ newPage + n ≤ oldPage)

include hdisj

theorem PageMap.moveRange_old {k : ℕ} (hk : k < n) :
    M.moveRange oldPage newPage n (oldPage + k) = none := by
  rw [PageMap.moveRange_apply M hdisj, if_pos (by omega)]

theorem PageMap.moveRange_new {k : ℕ} (hk : k < n) :
    M.moveRange oldPage newPage n (newPage + k) = some (remappedFrame (M (oldPage + k))) := by
  have hback : newPage + k - newPage + oldPage = oldPage + k := by omega
  rw [PageMap.moveRange_apply M hdisj, if_neg (by omega), if_pos (by omega), hback]

theorem PageMap.moveRange_other {page : ℕ}
    (hout : ∀ k < n, page ≠ oldPage + k ∧ page ≠ newPage + k) :
    M.moveRange oldPage newPage n page = M page := by
  rw [PageMap.moveRange_apply M hdisj, if_neg, if_neg]
  · rintro ⟨hle, hlt⟩
    exact (hout (page - newPage) (by omega)).2 (by omega)
  · rintro ⟨hle, hlt⟩
    exact (hout (page - oldPage) (by omega)).1 (by omega)

end Moved

section RemapRange

variable {oldPtr newPtr size : ℕ} {flags : BitVec 64} {cache : Caching}

theorem Refines.remapRange {M : PageMap} (h : Refines K top st M) (hf : isLpage flags = false)
    (hal : oldPtr % KiB4 = 0) (hold : ∀ o < size, Canonical (oldPtr + o))
    (hnew : ∀ o < size, Canonical (newPtr + o))
    (he : Paging.remapRange K top oldPtr newPtr size flags cache st = some st') :
    Refines K top st'
      (M.moveRange (oldPtr / KiB4) (newPtr / KiB4) (pageRounds size KiB4)) := by
  rw [Paging.remapRange, getPageSize_plain hf] at he
  have hrun := rangeLoop_invariant
    (I := fun k s => Refines K top s (M.moveRange (oldPtr / KiB4) (newPtr / KiB4) k)) (m := 0) ?_ h
    (by rwa [Nat.zero_mul])
  · rwa [Nat.zero_add] at hrun
  intro k hk s ok s' hs h1
  have hlt := pageRounds_lt (by rwa [Nat.zero_add] at hk)
  have hpage {p : ℕ} : (p + k * KiB4) / KiB4 = p / KiB4 + k :=
    Nat.add_mul_div_right _ _ (by decide)
  rw [wrap_of_lt (hold _ hlt).2, wrap_of_lt (hnew _ hlt).2] at h1
  have hmod : (oldPtr + k * KiB4) % KiB4 = 0 := by rw [Nat.add_mul_mod_self_right, hal]
  have hstep := hs.remap hf (hold _ hlt) (hnew _ hlt) hmod h1
  rwa [hpage, hpage] at hstep

/-- What a lookup returns. -/
def lookup (K : Machine A) (top a : ℕ) (flags : BitVec 64) (st : State A) : Option ℕ :=
  (virtualToPhysical K top a flags st).map Prod.fst

/-- What `remap_range` is for: the new range translates as the old one did, the old one not at
all, and all other pages as before. -/
structure MovesRange (K : Machine A) (top oldPtr newPtr size : ℕ) (flags : BitVec 64)
    (st st' : State A) : Prop where
  moved : ∀ o < size, lookup K top (newPtr + o) flags st' = lookup K top (oldPtr + o) flags st
  gone : ∀ o < size, lookup K top (oldPtr + o) flags st' = some invalidAddr
  others : ∀ a, Canonical a →
    (∀ o < size, a / KiB4 ≠ (oldPtr + o) / KiB4 ∧ a / KiB4 ≠ (newPtr + o) / KiB4) →
      lookup K top a flags st' = lookup K top a flags st

theorem Refines.lookup_eq {M : PageMap} (h : Refines K top st M) {a : ℕ} (ha : Canonical a)
    (hf : isLpage flags = false) : Paging.lookup K top a flags st = some (M.translate a) := by
  obtain ⟨st1, h1⟩ := h.lookup ha hf
  rw [Paging.lookup, h1, Option.map_some]

/-- The map of a pagemap that has small pages only. -/
theorem Refines.of_tables (ht : Tables K top st)
    (hsmall : ∀ a, Canonical a → ∀ d < 3, leafFor K st.mem top a d = none) :
    Refines K top st (frames K st.mem top) := by
  refine ⟨ht, hsmall, fun a _ => ?_⟩
  have hpage : a / KiB4 * KiB4 / sizeAt 3 = a / sizeAt 3 := Nat.mul_div_cancel _ (by decide)
  rw [frames, leafFor, leafFor, pathTo_congr hpage (by norm_num) (by norm_num),
    idx_congr hpage (Nat.le_refl 3) (by norm_num)]

theorem Refines.hwTranslate_eq_none {M : PageMap} (h : Refines K top st M) {a : ℕ}
    (ha : Canonical a) : hwTranslate K st.mem top a = none ↔ M (a / KiB4) = none := by
  rw [Paging.hwTranslate_eq_none, ← h.agrees a ha, Option.map_eq_none_iff]
  constructor
  · exact fun hd => hd 3 (Nat.le_refl 3)
  · intro h3 d hd
    by_cases hd3 : d = 3
    · rw [hd3, h3]
    · exact h.small a ha d (by omega)

/-- A frame address is never the sentinel, not even where the sentinel was mapped. -/
theorem frame_ne_invalid (a : ℕ) : paMask.toNat + a % KiB4 ≠ invalidAddr := by
  have hmask : paMask.toNat = 0x000FFFFFFFFFF000 := rfl
  have hlt : a % KiB4 < KiB4 := Nat.mod_lt _ (by decide)
  rw [hmask]
  unfold KiB4 invalidAddr at *
  omega

/-- The pages of two ranges that do not overlap. -/
theorem pages_disjoint (hal : oldPtr % KiB4 = 0) (hal' : newPtr % KiB4 = 0)
    (hdisj : oldPtr + size ≤ newPtr ∨ newPtr + size ≤ oldPtr) :
    oldPtr / KiB4 + pageRounds size KiB4 ≤ newPtr / KiB4 ∨
      newPtr / KiB4 + pageRounds size KiB4 ≤ oldPtr / KiB4 := by
  unfold pageRounds KiB4 at *
  omega

theorem page_of_offset {p o : ℕ} (hal : p % KiB4 = 0) : (p + o) / KiB4 = p / KiB4 + o / KiB4 := by
  unfold KiB4 at *
  omega

/-- `remap_range` moves a range all of whose pages are mapped. A page that is not mapped becomes
one that translates to the top of the address field. -/
theorem remap_range_moves_iff (K : Machine A) (ht : Tables K top st)
    (hsmall : ∀ a, Canonical a → ∀ d < 3, leafFor K st.mem top a d = none)
    (hf : isLpage flags = false) (hal : oldPtr % KiB4 = 0) (hal' : newPtr % KiB4 = 0)
    (hold : ∀ o < size, Canonical (oldPtr + o)) (hnew : ∀ o < size, Canonical (newPtr + o))
    (hdisj : oldPtr + size ≤ newPtr ∨ newPtr + size ≤ oldPtr)
    (he : remapRange K top oldPtr newPtr size flags cache st = some st') :
    MovesRange K top oldPtr newPtr size flags st st' ↔
      ∀ o < size, hwTranslate K st.mem top (oldPtr + o) ≠ none := by
  have hr := Refines.of_tables ht hsmall
  generalize frames K st.mem top = M at hr
  have hr' := hr.remapRange hf hal hold hnew he
  have hpages := pages_disjoint hal hal' hdisj
  have hold' (o : ℕ) (ho : o < size) : M.moveRange (oldPtr / KiB4) (newPtr / KiB4)
      (pageRounds size KiB4) ((oldPtr + o) / KiB4) = none := by
    rw [page_of_offset hal, PageMap.moveRange_old hpages (div_lt_pageRounds ho)]
  have hnew' (o : ℕ) (ho : o < size) : M.moveRange (oldPtr / KiB4) (newPtr / KiB4)
      (pageRounds size KiB4) ((newPtr + o) / KiB4) =
        some (remappedFrame (M ((oldPtr + o) / KiB4))) := by
    rw [page_of_offset hal', page_of_offset hal,
      PageMap.moveRange_new hpages (div_lt_pageRounds ho)]
  have hoffset (o : ℕ) : (newPtr + o) % KiB4 = (oldPtr + o) % KiB4 := by
    rw [Nat.add_mod, hal', Nat.add_mod oldPtr, hal]
  constructor
  · intro h o ho hnone
    rw [hr.hwTranslate_eq_none (hold o ho)] at hnone
    have hm := h.moved o ho
    rw [hr'.lookup_eq (hnew o ho) hf, hr.lookup_eq (hold o ho) hf, PageMap.translate_eq,
      PageMap.translate_eq, hnew' o ho, hnone, Option.some.injEq] at hm
    exact frame_ne_invalid _ hm
  · intro hmapped
    refine ⟨fun o ho => ?_, fun o ho => ?_, fun a ha hout => ?_⟩
    · have hne : M ((oldPtr + o) / KiB4) ≠ none := fun h =>
        hmapped o ho ((hr.hwTranslate_eq_none (hold o ho)).mpr h)
      obtain ⟨frame, hframe⟩ := Option.ne_none_iff_exists'.mp hne
      rw [hr'.lookup_eq (hnew o ho) hf, hr.lookup_eq (hold o ho) hf, PageMap.translate_eq,
        PageMap.translate_eq, hnew' o ho, hframe, remappedFrame, Option.getD_some, frameAddress,
        frameAddress, hoffset]
    · rw [hr'.lookup_eq (hold o ho) hf, PageMap.translate_eq, hold' o ho]
      rfl
    · have hsame : M.moveRange (oldPtr / KiB4) (newPtr / KiB4) (pageRounds size KiB4) (a / KiB4) =
          M (a / KiB4) := by
        refine PageMap.moveRange_other hpages fun k hk => ?_
        have hpage (p : ℕ) : (p + k * KiB4) / KiB4 = p / KiB4 + k :=
          Nat.add_mul_div_right _ _ (by decide)
        rw [← hpage, ← hpage]
        exact hout _ (pageRounds_lt hk)
      rw [hr'.lookup_eq ha hf, hr.lookup_eq ha hf, PageMap.translate_eq, PageMap.translate_eq,
        hsame]

end RemapRange

theorem remap_range_moves_iff_small :
    ∃ top st₀ st st', construct (orderedMachine false) none (start (fun _ _ => 0#64) 1) =
        some (top, st₀) ∧
      map (orderedMachine false) top 0x400000 0x7000 RW .writeBack st₀ = some (true, st) ∧
      remapRange (orderedMachine false) top 0x400000 0x800000 0x1000 RW .writeBack st = some st' ∧
      (MovesRange (orderedMachine false) top 0x400000 0x800000 0x1000 RW st st' ↔
        ∀ o < 0x1000, hwTranslate (orderedMachine false) st.mem top (0x400000 + o) ≠ none) := by
  have htrue : ((construct (orderedMachine false) none (start (fun _ _ => 0#64) 1)).bind
      fun new => (map (orderedMachine false) new.1 0x400000 0x7000 RW .writeBack new.2).bind
        fun mapped => (remapRange (orderedMachine false) new.1 0x400000 0x800000 0x1000 RW
          .writeBack mapped.2).map fun _ => mapped.1) = some true := by
    decide +kernel
  obtain ⟨⟨top, st₀⟩, h0, h1⟩ := Option.bind_eq_some_iff.mp htrue
  obtain ⟨⟨ok, st⟩, hm, h2⟩ := Option.bind_eq_some_iff.mp h1
  obtain ⟨st', hr, rfl⟩ := Option.map_eq_some_iff.mp h2
  obtain ⟨ht, hnone⟩ := construct_spec h0
  have hempty : Refines (orderedMachine false) top st₀ fun _ => none :=
    ⟨ht, fun a _ d _ => hnone a d, fun a _ => by rw [hnone a 3]; rfl⟩
  have hst := (hempty.map (by decide) (by decide) (by decide) (by decide) hm).2
  have hpage {p : ℕ} (hp : Canonical p) (hal : p % KiB4 = 0) (o : ℕ) (ho : o < 0x1000) :
      Canonical (p + o) := canonical_add (Or.inl rfl) hp hal ho
  exact ⟨top, st₀, st, st', h0, hm, hr, remap_range_moves_iff (orderedMachine false) hst.tables
    hst.small (by decide) (by decide) (by decide) (hpage (by decide) (by decide))
    (hpage (by decide) (by decide)) (by norm_num) hr⟩

/-- After `remap_range` of a page that is not mapped, the new page is. -/
theorem remap_range_maps_sentinel :
    ∃ top st st', construct (orderedMachine false) none (start (fun _ _ => 0#64) 1) =
        some (top, st) ∧
      Unmapped (orderedMachine false) st.mem top 0x400000 0x1000 ∧
      Unmapped (orderedMachine false) st.mem top 0x800000 0x1000 ∧
      remapRange (orderedMachine false) top 0x400000 0x800000 0x1000 RW .writeBack st = some st' ∧
      lookup (orderedMachine false) top 0x400000 RW st = some invalidAddr ∧
      lookup (orderedMachine false) top 0x800000 RW st' = some 0x000FFFFFFFFFF000 ∧
      ¬ MovesRange (orderedMachine false) top 0x400000 0x800000 0x1000 RW st st' := by
  have hrun : ((construct (orderedMachine false) none (start (fun _ _ => 0#64) 1)).bind
      fun new => (remapRange (orderedMachine false) new.1 0x400000 0x800000 0x1000 RW .writeBack
        new.2).map fun st' => (lookup (orderedMachine false) new.1 0x400000 RW new.2,
          lookup (orderedMachine false) new.1 0x800000 RW st')) =
        some (some invalidAddr, some 0x000FFFFFFFFFF000) := by
    decide +kernel
  obtain ⟨⟨top, st⟩, h0, h1⟩ := Option.bind_eq_some_iff.mp hrun
  obtain ⟨st', hr, h2⟩ := Option.map_eq_some_iff.mp h1
  obtain ⟨hbefore, hafter⟩ := Prod.mk.inj h2
  refine ⟨top, st, st', h0, construct_unmapped h0 _ _, construct_unmapped h0 _ _, hr, hbefore,
    hafter, fun h => ?_⟩
  have hmoved := h.moved 0 (by decide)
  rw [Nat.add_zero, Nat.add_zero, hbefore, hafter] at hmoved
  exact absurd hmoved (by decide)

end IceKernel.Paging
