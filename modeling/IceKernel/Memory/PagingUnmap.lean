import IceKernel.Memory.PagingLarge

/-!
# `unmap` after `map`

`unmap` always walks to the smallest page size. For small pages that undoes
`map`; for large ones the walk runs through the leaf into the mapped frame.
-/

namespace IceKernel.Paging
open Word64 RadixTree

variable {A : Type} {K : Machine A} {top : ℕ} {st st' : State A} {v : ℕ}

/-- The tables and their contents are the same. -/
structure SameTables (st st' : State A) : Prop where
  tables : st'.tables = st.tables
  heap : st'.heap = st.heap
  mem : ∀ t ∈ st.tables, st'.mem t = st.mem t

theorem SameTables.trans {st'' : State A} (h : SameTables st st') (h' : SameTables st' st'') :
    SameTables st st'' where
  tables := h'.tables.trans h.tables
  heap := h'.heap.trans h.heap
  mem t ht := (h'.mem t (by rw [h.tables]; exact ht)).trans (h.mem t ht)

theorem Tables.nodeAt_same (ht : Tables K top st) (h : SameTables st st') (p : List ℕ) :
    nodeAt K st'.mem top p = nodeAt K st.mem top p :=
  descend_congr (fun q t hq => h.mem t (ht.closed q t hq)) p

theorem Tables.leafFor_same (ht : Tables K top st) (h : SameTables st st') (a d : ℕ) :
    leafFor K st'.mem top a d = leafFor K st.mem top a d :=
  congrArg Slot.leaf? (slotAt_congr (fun q t hq => h.mem t (ht.closed q t hq)) _ _)

theorem Tables.same (ht : Tables K top st) (h : SameTables st st') : Tables K top st' where
  unshared p q t h1 h2 :=
    ht.unshared p q t ((ht.nodeAt_same h p).symm.trans h1) ((ht.nodeAt_same h q).symm.trans h2)
  closed p t hp := by
    rw [h.tables]
    exact ht.closed p t ((ht.nodeAt_same h p).symm.trans hp)
  owned t hm := by
    rw [h.heap]
    rw [h.tables] at hm
    exact ht.owned t hm
  addr t hm := by
    rw [h.tables] at hm
    exact ht.addr t hm
  zero t hm i := by
    rw [h.tables] at hm
    rw [h.mem t hm]
    exact ht.zero t hm i
  topPlain i := by
    rw [h.mem top ht.top_mem]
    exact ht.topPlain i

/-! ## Walking through a leaf -/

/-- Having reached a leaf, the walk goes on into its frame. -/
theorem Tables.walk_into_frame (ht : Tables K top st) {d : ℕ} (hd : d ≤ 3) {w : BitVec 64}
    (h : leafFor K st.mem top v d = some w) :
    ∃ vis, Paging.walk K top v false (d + 1) st =
      some (tohh K.hhdm.offset (getAddress w), { st with visited := vis }) := by
  obtain ⟨t, hn, hword, h0⟩ := leafFor_eq_some h
  obtain ⟨r, vis, hw⟩ := walk_false K top v d st
  obtain ⟨-, -, hr⟩ := ht.walk hd (fun e he => leafFor_above h he) hw
  rcases hr with ⟨hr0, hr⟩ | ⟨-, -, hr⟩
  · obtain rfl : r = t := Option.some.inj (hr.symm.trans hn)
    refine ⟨tohh K.hhdm.offset (getAddress w) :: vis, ?_⟩
    rw [Paging.walk, hw, Option.bind_some]
    simp only [getNextLvl, hr0, if_false, getFlags_present, hword, h0, if_true]
  · rw [hn] at hr
    simp at hr

/-- `unmap_one` at a large leaf leaves all tables as they are, if the page it takes for a table
is not one. -/
theorem Tables.unmapOne_strays (ht : Tables K top st) {d : ℕ} (hd : d = 1 ∨ d = 2)
    {w : BitVec 64} (h : leafFor K st.mem top v d = some w)
    (hout : tohh K.hhdm.offset (getAddress w) ∉ st.tables)
    (hword : d = 1 → (st.mem (tohh K.hhdm.offset (getAddress w)) (idx v 2)).getLsbD 0 = false) :
    ∃ ok st', unmapOne K top v st = some (ok, st') ∧ SameTables st st' := by
  obtain ⟨vis, hw⟩ := ht.walk_into_frame (by omega) h
  have hlevel : levelOf KiB4 = 3 := rfl
  rw [unmapOne, virtualToPtEntry_eq, hlevel]
  rcases hd with rfl | rfl
  · -- a 1 GiB leaf: the word read from the frame is not present, so the walk ends there
    have hstop : getNextLvl K (tohh K.hhdm.offset (getAddress w)) (idx v 2) false
        { st with visited := vis } = some (0, { st with visited := vis }) := by
      by_cases hz : tohh K.hhdm.offset (getAddress w) = 0
      · rw [hz, getNextLvl_null]
      · rw [getNextLvl, if_neg hz, getFlags_present, if_neg (by rw [hword rfl]; simp)]
        rfl
    have hw3 : Paging.walk K top v false 3 st = some (0, { st with visited := vis }) := by
      rw [Paging.walk, hw]
      exact hstop
    rw [hw3]
    exact ⟨false, { st with visited := vis }, rfl, rfl, rfl, fun _ _ => rfl⟩
  · rw [hw, Option.map_some, Option.map_some]
    by_cases hz : tohh K.hhdm.offset (getAddress w) = 0
    · simp only [hz, if_true]
      exact ⟨false, { st with visited := vis }, rfl, rfl, rfl, fun _ _ => rfl⟩
    · simp only [hz, if_false]
      refine ⟨true, _, rfl, rfl, rfl, fun t htm => ?_⟩
      have hne : t ≠ tohh K.hhdm.offset (getAddress w) := fun heq => hout (heq ▸ htm)
      exact write_node_of_ne hne

/-- The loop of `unmap` over 2 MiB leaves. -/
theorem Tables.unmapLoop_strays (ht : Tables K top st) (hv : Canonical v) (hal : v % GiB1 = 0)
    (hleaf : ∀ i < GiB1, i % MiB2 = 0 → ∃ w, leafFor K st.mem top (v + i) 2 = some w ∧
      tohh K.hhdm.offset (getAddress w) ∉ st.tables)
    {n i : ℕ} (hi : i % MiB2 = 0) (hin : i + n * MiB2 ≤ GiB1) (h : SameTables st st') :
    ∃ ok st'', unmapLoop K top v n i st' = some (ok, st'') ∧ SameTables st st'' := by
  induction n generalizing i st' with
  | zero => exact ⟨true, st', rfl, h⟩
  | succ n ih =>
    have hmul : (n + 1) * MiB2 = n * MiB2 + MiB2 := Nat.succ_mul n MiB2
    have hiG : i < GiB1 := by
      unfold MiB2 GiB1 at *
      omega
    have hvi : Canonical (v + i) := canonical_add (Or.inr (Or.inr rfl)) hv hal hiG
    obtain ⟨w, hw, hout⟩ := hleaf i hiG hi
    have hw' : leafFor K st'.mem top (v + i) 2 = some w := (ht.leafFor_same h _ _).trans hw
    obtain ⟨ok, st1, h1, hsame⟩ := (ht.same h).unmapOne_strays (Or.inr rfl) hw'
      (by rw [h.tables]; exact hout) (by omega)
    rw [unmapLoop, wrap_of_lt hvi.2, h1, Option.bind_some]
    cases ok with
    | false => exact ⟨false, st1, rfl, h.trans hsame⟩
    | true =>
      have hi1 : (i + MiB2) % MiB2 = 0 := by rw [Nat.add_mod_right, hi]
      exact ih hi1 (by omega) (h.trans hsame)

/-! ## `unmap` undoes `map` for small pages only -/

/-- From `st` to `st'` nothing in `[v, v + size)` is mapped any more, all other translations are
as before, and nothing but tables was written. -/
structure Undone (K : Machine A) (top v size : ℕ) (st st' : State A) : Prop where
  gone : Unmapped K st'.mem top v size
  others : ∀ a, Canonical a → (a < v ∨ v + size ≤ a) →
    hwTranslate K st'.mem top a = hwTranslate K st.mem top a
  frame : ∀ t, t ∉ st'.tables → st'.mem t = st.mem t

/-- After `map`, which led from `st` to `st'`, `unmap` returns and has undone it. -/
def Undoes (K : Machine A) (top v : ℕ) (flags : BitVec 64) (st st' : State A) : Prop :=
  ∃ ok st'', unmap K top v flags st' = some (ok, st'') ∧
    Undone K top v (getPageSize flags) st st''

/-- The address field of a large entry for `pa`. -/
def largeAddress (cache : Caching) (pa : ℕ) : ℕ := if cache.usesPat then pa + 0x1000 else pa

/-- None of the pages that `unmap` takes for a table when it meets a large entry is one, and the
first word of a 1 GiB frame does not look like a present entry. -/
def PlainFrame (K : Machine A) (st : State A) (pa : ℕ) (flags : BitVec 64) (cache : Caching) :
    Prop :=
  (∀ i < getPageSize flags, i % MiB2 = 0 →
    tohh K.hhdm.offset (largeAddress cache (pa + i)) ∉ st.tables) ∧
  (getFlags flags LLPAGE = true → K.gib1Pages = true →
    (st.mem (tohh K.hhdm.offset (largeAddress cache pa)) 0).getLsbD 0 = false)

section Undo

variable {pa : ℕ} {flags : BitVec 64} {cache : Caching}

theorem Put.undone {st'' : State A} {w : Option (BitVec 64)} (hv : Canonical v)
    (hal : v % KiB4 = 0) (hun : Unmapped K st.mem top v KiB4) (h1 : Put K top st st' v 3 w)
    (h2 : Put K top st' st'' v 3 none) : Undone K top v KiB4 st st'' := by
  have hsize : sizeAt 3 = KiB4 := rfl
  have hregion (a : ℕ) : a / sizeAt 3 = v / sizeAt 3 ↔ v ≤ a ∧ a < v + KiB4 := by
    rw [hsize]
    unfold KiB4 at *
    omega
  have hout (a e : ℕ) (ha : Canonical a) (h : ¬ (a / sizeAt 3 = v / sizeAt 3 ∧ 3 ≤ e)) :
      leafFor K st''.mem top a e = leafFor K st.mem top a e := by
    rw [h2.leaf a e ha, if_neg h, h1.leaf a e ha, if_neg h]
  constructor
  · intro a hle hlt
    obtain ⟨o, rfl⟩ := Nat.exists_eq_add_of_le hle
    have ha : Canonical (v + o) := canonical_add (Or.inl rfl) hv hal (by omega)
    refine hwTranslate_eq_none.mpr fun d hd => ?_
    by_cases hd3 : d = 3
    · rw [hd3, h2.leaf _ _ ha, if_pos ⟨(hregion _).mpr ⟨hle, hlt⟩, Nat.le_refl 3⟩, if_pos rfl]
    · rw [hout _ d ha (by omega)]
      exact hwTranslate_eq_none.mp (hun _ hle hlt) d hd
  · intro a ha h
    refine hwTranslate_congr fun d _ => hout a d ha fun hin => ?_
    have hin' := (hregion a).mp hin.1
    omega
  · exact (h1.toTouches.trans h2.toTouches).frame

theorem undoes_small (ht : Tables K top st) (hf : isLpage flags = false) (hv : Canonical v)
    (hal : v % getPageSize flags = 0) (hun : Unmapped K st.mem top v (getPageSize flags))
    {ok : Bool} (he : map K top v pa flags cache st = some (ok, st')) :
    Undoes K top v flags st st' := by
  rw [getPageSize_plain hf] at hal hun
  have hlevel : levelOf KiB4 = 3 := rfl
  have hclear : ClearAbove K st.mem top v (levelOf KiB4) :=
    hun.clearAbove (o := 0) (by decide) (by decide)
  rw [map_plain hf] at he
  obtain ⟨-, ht', old, h1⟩ := mapOne_spec ht hv (Or.inl rfl) hclear he
  rw [hlevel] at h1 hclear
  have hclear' : ClearAbove K st'.mem top v 3 := (h1.clearAbove hv (Nat.le_refl 3)).mpr hclear
  obtain ⟨e, vis, hw⟩ := entry_false K top v KiB4 st'
  have hret : ∃ ok st'', unmapOne K top v st' = some (ok, st'') := by
    rw [unmapOne, hw]
    exact ⟨_, _, rfl⟩
  obtain ⟨ok', st'', hu⟩ := hret
  obtain ⟨-, h2, -⟩ := unmapOne_spec ht' hv hclear' hu
  refine ⟨ok', st'', by rw [unmap_plain hf, hu], ?_⟩
  rw [getPageSize_plain hf]
  exact h1.undone hv hal hun h2

theorem levelOf_large (hl : isLpage flags = true) :
    levelOf (getPageSize flags) = 1 ∨ levelOf (getPageSize flags) = 2 := by
  rcases getPageSize_cases flags with hs | hs | hs
  · exact absurd hs (getPageSize_large hl)
  · exact Or.inr (by rw [hs]; rfl)
  · exact Or.inl (by rw [hs]; rfl)

theorem getPageSize_of_level (h : levelOf (getPageSize flags) = 1) : getPageSize flags = GiB1 := by
  have hsize := sizeAt_levelOf (getPageSize_cases flags)
  rw [h] at hsize
  exact hsize.symm

/-- One large entry: `unmap` walks through it and does not reach it. -/
theorem unmap_direct_strays (ht : Tables K top st) (hv : Canonical v) (hl : isLpage flags = true)
    (hal : v % getPageSize flags = 0) (hun : Unmapped K st.mem top v (getPageSize flags))
    (hpa : pa % getPageSize flags = 0) (hlt : pa < 2 ^ 52)
    (hdirect : getFlags flags LLPAGE = true → K.gib1Pages = true) {ok : Bool}
    (he : map K top v pa flags cache st = some (ok, st'))
    (hframe : PlainFrame K st' pa flags cache) :
    Tables K top st' ∧ hwTranslate K st'.mem top v ≠ none ∧
      ∃ ok st'', unmap K top v flags st' = some (ok, st'') ∧ SameTables st' st'' := by
  have hpos := (getPageSize_le flags).1
  have hbound := (levelOf_bounds (getPageSize flags)).2
  obtain ⟨ht', old, hleaves⟩ := map_direct_spec ht hv hal hun hdirect he
  have hleaf := hleaves 0 hpos
  rw [Nat.add_zero] at hleaf
  have haddr : getAddress (mappedWord old pa flags cache (getPageSize flags)) =
      largeAddress cache pa :=
    getAddress_mappedWord_large old (mod_MiB2_of_large hl hpa) hlt (getPageSize_large hl) flags cache
  have hunmap : unmap K top v flags st' = unmapOne K top v st' := by
    rw [unmap, if_neg (not_fallback hdirect)]
  refine ⟨ht', by rw [hwTranslate_of_leaf hleaf hbound]; simp, ?_⟩
  rw [hunmap]
  apply ht'.unmapOne_strays (levelOf_large hl) hleaf
  · rw [haddr]
    exact hframe.1 0 hpos rfl
  · intro hlevel
    have hsize := getPageSize_of_level hlevel
    have hll := getPageSize_eq_GiB1.mp hsize
    -- the walk reads entry 0 of the frame, since `v` is 1 GiB-aligned
    have hidx : idx v 2 = 0 := by
      rw [hsize] at hal
      rw [idx_eq]
      unfold GiB1 at hal
      unfold sizeAt
      omega
    rw [haddr, hidx]
    exact hframe.2 hll (hdirect hll)

theorem block_address {i : ℕ} (hpa : pa % GiB1 = 0) (hlt : pa < 2 ^ 52) (hi : i < GiB1)
    (hmod : i % MiB2 = 0) : (pa + i) % MiB2 = 0 ∧ pa + i < 2 ^ 52 := by
  unfold MiB2 GiB1 at *
  omega

/-- 512 entries of 2 MiB: `unmap` walks through each of them. -/
theorem unmap_fallback_strays (ht : Tables K top st) (hv : Canonical v)
    (hll : getFlags flags LLPAGE = true) (hg : K.gib1Pages = false) (hal : v % GiB1 = 0)
    (hun : Unmapped K st.mem top v GiB1) (hpa : pa % GiB1 = 0) (hlt : pa < 2 ^ 52) {ok : Bool}
    (he : map K top v pa flags cache st = some (ok, st'))
    (hframe : PlainFrame K st' pa flags cache) :
    Tables K top st' ∧ hwTranslate K st'.mem top v ≠ none ∧
      ∃ ok st'', unmap K top v flags st' = some (ok, st'') ∧ SameTables st' st'' := by
  have hsize := getPageSize_eq_GiB1.mpr hll
  obtain ⟨ht', hleaves⟩ := map_fallback_spec ht hv hll hg hal hun he
  have hleaf : ∀ i < GiB1, i % MiB2 = 0 → ∃ w, leafFor K st'.mem top (v + i) 2 = some w ∧
      tohh K.hhdm.offset (getAddress w) ∉ st'.tables := by
    intro i hi hmod
    obtain ⟨old, hw⟩ := hleaves i hi
    refine ⟨_, hw, ?_⟩
    obtain ⟨hpi, hpi'⟩ := block_address hpa hlt hi hmod
    rw [Nat.div_mul_cancel (Nat.dvd_of_mod_eq_zero hmod), wrap_of_lt (by omega),
      getAddress_mappedWord_large old hpi hpi' (by decide)]
    exact hframe.1 i (by rw [hsize]; exact hi) hmod
  obtain ⟨w, hw, -⟩ := hleaf 0 (by decide) rfl
  rw [Nat.add_zero] at hw
  refine ⟨ht', by rw [hwTranslate_of_leaf hw (by norm_num)]; simp, ?_⟩
  rw [unmap, if_pos ⟨hsize, hg⟩]
  exact ht'.unmapLoop_strays hv hal hleaf rfl (by decide) ⟨rfl, rfl, fun _ _ => rfl⟩

/-- `unmap` undoes `map` for small pages. For large ones it does not, wherever the frame is not
itself taken up by page tables. -/
theorem unmap_undoes_map_iff (K : Machine A) (ht : Tables K top st) (hv : Canonical v)
    (hal : v % getPageSize flags = 0) (hun : Unmapped K st.mem top v (getPageSize flags))
    (hpa : pa % getPageSize flags = 0) {ok : Bool}
    (he : map K top v pa flags cache st = some (ok, st')) :
    (isLpage flags = false → Undoes K top v flags st st') ∧
      (pa < 2 ^ 52 → PlainFrame K st' pa flags cache →
        (Undoes K top v flags st st' ↔ isLpage flags = false)) := by
  have hgood (hf : isLpage flags = false) : Undoes K top v flags st st' :=
    undoes_small ht hf hv hal hun he
  refine ⟨hgood, fun hlt hframe => ⟨fun hundo => ?_, hgood⟩⟩
  by_contra hl
  rw [Bool.not_eq_false] at hl
  have hstrays : Tables K top st' ∧ hwTranslate K st'.mem top v ≠ none ∧
      ∃ ok st'', unmap K top v flags st' = some (ok, st'') ∧ SameTables st' st'' := by
    by_cases hdirect : getFlags flags LLPAGE = true → K.gib1Pages = true
    · exact unmap_direct_strays ht hv hl hal hun hpa hlt hdirect he hframe
    · obtain ⟨hll, hg⟩ := Classical.not_imp.mp hdirect
      rw [getPageSize_eq_GiB1.mpr hll] at hal hun hpa
      exact unmap_fallback_strays ht hv hll (by simpa using hg) hal hun hpa hlt he hframe
  obtain ⟨ht', hstill, ok1, st1, h1, hsame⟩ := hstrays
  obtain ⟨ok2, st2, h2, hundone⟩ := hundo
  rw [h1, Option.some.injEq, Prod.mk.injEq] at h2
  obtain ⟨-, rfl⟩ := h2
  have hgone := hundone.gone v (Nat.le_refl v) (Nat.lt_add_of_pos_right (getPageSize_le flags).1)
  rw [hwTranslate_congr fun d _ => ht'.leafFor_same hsame v d] at hgone
  exact hstill hgone

end Undo

theorem unmap_undoes_map_iff_small :
    ∃ top st₀ st, construct (orderedMachine false) none (start (fun _ _ => 0#64) 1) =
        some (top, st₀) ∧
      map (orderedMachine false) top 0x400000 0x7000 WRITE .writeBack st₀ = some (true, st) ∧
      Undoes (orderedMachine false) top 0x400000 WRITE st₀ st := by
  have htrue : ((construct (orderedMachine false) none (start (fun _ _ => 0#64) 1)).bind
      fun (top, st₀) => (map (orderedMachine false) top 0x400000 0x7000 WRITE .writeBack
        st₀).map Prod.fst) = some true := by
    decide +kernel
  obtain ⟨⟨top, st₀⟩, h0, h1⟩ := Option.bind_eq_some_iff.mp htrue
  obtain ⟨⟨ok, st⟩, hm, rfl⟩ := Option.map_eq_some_iff.mp h1
  refine ⟨top, st₀, st, h0, hm, ?_⟩
  exact (unmap_undoes_map_iff (orderedMachine false) (construct_spec h0).1 (by decide)
    (by decide) (construct_unmapped h0 _ _) (by decide) hm).1 (by decide)

/-- `unmap` of a 2 MiB page clears the first word of its frame and leaves the page mapped. -/
theorem unmap_clears_frame_word :
    ∃ top st₀ st st', construct (orderedMachine false) none (start (fun _ _ => 7#64) 1) =
        some (top, st₀) ∧
      Unmapped (orderedMachine false) st₀.mem top 0x200000 MiB2 ∧
      map (orderedMachine false) top 0x200000 0x600000 LPAGE .uncachable st₀ = some (true, st) ∧
      unmap (orderedMachine false) top 0x200000 LPAGE st = some (true, st') ∧
      hwTranslate (orderedMachine false) st'.mem top 0x200000 = some 0x600000 ∧
      st.mem (tohh Physical.smallHhdm.offset 0x600000) 0 = 7#64 ∧
      st'.mem (tohh Physical.smallHhdm.offset 0x600000) 0 = 0#64 ∧
      ¬ Undoes (orderedMachine false) top 0x200000 LPAGE st₀ st := by
  have hrun : ((construct (orderedMachine false) none (start (fun _ _ => 7#64) 1)).bind
      fun (top, st₀) => (map (orderedMachine false) top 0x200000 0x600000 LPAGE .uncachable
        st₀).bind fun (ok, st) => (unmap (orderedMachine false) top 0x200000 LPAGE st).map
          fun (ok', st') => (ok, ok', hwTranslate (orderedMachine false) st'.mem top 0x200000,
            st.mem (tohh Physical.smallHhdm.offset 0x600000) 0,
            st'.mem (tohh Physical.smallHhdm.offset 0x600000) 0)) =
        some (true, true, some 0x600000, 7#64, 0#64) := by
    decide +kernel
  obtain ⟨⟨top, st₀⟩, h0, h1⟩ := Option.bind_eq_some_iff.mp hrun
  obtain ⟨⟨ok, st⟩, hm, h2⟩ := Option.bind_eq_some_iff.mp h1
  obtain ⟨⟨ok', st'⟩, hu, h3⟩ := Option.map_eq_some_iff.mp h2
  simp only [Prod.mk.injEq] at h3
  obtain ⟨rfl, rfl, hhw, hbefore, hafter⟩ := h3
  refine ⟨top, st₀, st, st', h0, construct_unmapped h0 _ _, hm, hu, hhw, hbefore, hafter, ?_⟩
  rintro ⟨ok2, st2, h4, hundone⟩
  rw [hu, Option.some.injEq, Prod.mk.injEq] at h4
  obtain ⟨-, rfl⟩ := h4
  have hgone := hundone.gone 0x200000 (by decide) (by decide)
  rw [hhw] at hgone
  simp at hgone

end IceKernel.Paging
