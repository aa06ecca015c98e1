import IceKernel.Memory.PagingRefines

/-!
# Large pages

What `map` leaves behind for 2 MiB and 1 GiB pages, and what a lookup with
the same flags then reads.
-/

namespace IceKernel.Paging
open Word64 RadixTree

variable {A : Type} {K : Machine A} {top : ℕ} {st st' : State A} {v : ℕ}

/-- The hardware finds nothing in `[v, v + size)`. -/
def Unmapped (K : Machine A) (mem : Mem) (top v size : ℕ) : Prop :=
  ∀ a, v ≤ a → a < v + size → hwTranslate K mem top a = none

/-- An aligned region that starts at a canonical address is canonical throughout. -/
theorem canonical_add {size o : ℕ} (hs : size = KiB4 ∨ size = MiB2 ∨ size = GiB1)
    (hv : Canonical v) (hal : v % size = 0) (ho : o < size) : Canonical (v + o) := by
  obtain ⟨hc, hlt⟩ := hv
  simp only [isCanonical, Bool.or_eq_true, decide_eq_true_eq] at hc
  simp only [Canonical, isCanonical, Bool.or_eq_true, decide_eq_true_eq]
  unfold KiB4 MiB2 GiB1 at hs
  rcases hs with rfl | rfl | rfl <;> omega

theorem div_add_offset {size o : ℕ} (hal : v % size = 0) (ho : o < size) :
    (v + o) / size = v / size := by
  obtain ⟨c, rfl⟩ := Nat.dvd_of_mod_eq_zero hal
  have hpos : 0 < size := Nat.zero_lt_of_lt ho
  rw [Nat.mul_add_div hpos, Nat.mul_div_cancel_left _ hpos, Nat.div_eq_of_lt ho, Nat.add_zero]

theorem mod_add_offset {size o : ℕ} (hal : v % size = 0) (ho : o < size) :
    (v + o) % size = o := by
  rw [Nat.add_mod, hal, Nat.zero_add, Nat.mod_mod, Nat.mod_eq_of_lt ho]

/-- A leaf is a present word of a table. -/
theorem leafFor_eq_some {mem : Mem} {a d : ℕ} {w : BitVec 64}
    (h : leafFor K mem top a d = some w) :
    ∃ t, nodeAt K mem top (pathTo a d) = some t ∧ mem t (idx a d) = w ∧ w.getLsbD 0 = true := by
  cases hn : nodeAt K mem top (pathTo a d) with
  | none =>
    rw [leafFor_of_no_node hn (Nat.le_refl d)] at h
    simp at h
  | some t =>
    rw [leafFor, leafOf, slot_step hn, decode] at h
    refine ⟨t, rfl, ?_⟩
    split_ifs at h with h0 <;> simp only [Slot.leaf?, Option.some.injEq, reduceCtorEq] at h
    all_goals
      subst h
      exact ⟨rfl, by simpa using h0⟩

/-- A node on the path is linked from a present word that is not a leaf. -/
theorem link_of_nodeAt {mem : Mem} {a d t : ℕ} (h : nodeAt K mem top (pathTo a (d + 1)) = some t) :
    ∃ s, nodeAt K mem top (pathTo a d) = some s ∧ (mem s (idx a d)).getLsbD 0 = true ∧
      tohh K.hhdm.offset (getAddress (mem s (idx a d))) = t := by
  obtain ⟨s, hs, hchild⟩ := Option.bind_eq_some_iff.mp h
  refine ⟨s, hs, ?_⟩
  rw [decode] at hchild
  split_ifs at hchild with h0 <;>
    simp only [Slot.child?, Option.some.injEq, reduceCtorEq] at hchild
  exact ⟨by simpa using h0, hchild⟩

theorem Unmapped.clearAbove {size : ℕ} (h : Unmapped K st.mem top v size) {o : ℕ}
    (ho : o < size) {level : ℕ} (hl : level ≤ 3) : ClearAbove K st.mem top (v + o) level := by
  intro d hd
  exact hwTranslate_eq_none.mp (h (v + o) (by omega) (by omega)) d (by omega)

/-! ## The 2 MiB loop -/

theorem block_offset {a i : ℕ} (hi : i % MiB2 = 0) (h1 : v + i ≤ a) (h2 : a < v + i + MiB2) :
    (a - v) / MiB2 * MiB2 = i := by
  unfold MiB2 at *
  omega

/-- The region `[v + i, v + i + n * 2 MiB)` consists of 2 MiB leaves for the frames from
`pa + i` on; all other leaves are as before. -/
structure PutLoop (K : Machine A) (top : ℕ) (st st' : State A) (v pa : ℕ) (flags : BitVec 64)
    (cache : Caching) (i n : ℕ) : Prop extends Touches st st' where
  outside : ∀ a e, Canonical a → (a < v + i ∨ v + i + n * MiB2 ≤ a) →
    leafFor K st'.mem top a e = leafFor K st.mem top a e
  inside : ∀ a, Canonical a → v + i ≤ a → a < v + i + n * MiB2 →
    ∃ old, leafFor K st'.mem top a 2 =
      some (mappedWord old (wrap (pa + (a - v) / MiB2 * MiB2)) flags cache MiB2)

theorem mapLoop_spec {pa : ℕ} {flags : BitVec 64} {cache : Caching} (hf : isLpage flags = true)
    (hv : Canonical v) (hal : v % GiB1 = 0) {n i : ℕ} (hi : i % MiB2 = 0)
    (hin : i + n * MiB2 ≤ GiB1) (ht : Tables K top st)
    (hc : ∀ o < GiB1, ClearAbove K st.mem top (v + o) 2) {ok : Bool}
    (he : mapLoop K top v pa flags cache n i st = some (ok, st')) :
    ok = true ∧ Tables K top st' ∧ PutLoop K top st st' v pa flags cache i n := by
  induction n generalizing i st with
  | zero =>
    simp only [mapLoop, Option.some.injEq, Prod.mk.injEq] at he
    obtain ⟨rfl, rfl⟩ := he
    exact ⟨rfl, ht, Touches.refl st, fun _ _ _ _ => rfl, fun a _ h1 h2 => by omega⟩
  | succ n ih =>
    have hiG : i < GiB1 := by
      unfold MiB2 GiB1 at *
      omega
    have hvi : Canonical (v + i) := canonical_add (Or.inr (Or.inr rfl)) hv hal hiG
    obtain ⟨⟨ok1, st1⟩, h1, h2⟩ := Option.bind_eq_some_iff.mp he
    rw [wrap_of_lt hvi.2] at h1
    have hlevel : levelOf MiB2 = 2 := rfl
    have hsize : sizeAt 2 = MiB2 := rfl
    have hclear : ClearAbove K st.mem top (v + i) (levelOf MiB2) := hc i hiG
    obtain ⟨rfl, ht1, old, hput⟩ := mapOne_spec ht hvi (Or.inr hf) hclear h1
    rw [hlevel] at hput
    have hregion (a : ℕ) : a / sizeAt 2 = (v + i) / sizeAt 2 ↔ v + i ≤ a ∧ a < v + i + MiB2 := by
      rw [hsize]
      unfold MiB2 GiB1 at *
      omega
    have hc1 : ∀ o < GiB1, ClearAbove K st1.mem top (v + o) 2 := fun o ho =>
      (hput.clearAbove (canonical_add (Or.inr (Or.inr rfl)) hv hal ho) (Nat.le_refl 2)).mpr (hc o ho)
    have hmul : (n + 1) * MiB2 = n * MiB2 + MiB2 := Nat.succ_mul n MiB2
    have hi1 : (i + MiB2) % MiB2 = 0 := by rw [Nat.add_mod_right, hi]
    -- later rounds only touch higher blocks, so the first leaf stays
    obtain ⟨rfl, ht2, hrest⟩ := ih hi1 (by omega) ht1 hc1 h2
    refine ⟨rfl, ht2, hput.toTouches.trans hrest.toTouches, fun a e ha hout => ?_,
      fun a ha h3 h4 => ?_⟩
    · rw [hrest.outside a e ha (by omega), hput.leaf a e ha, if_neg]
      rw [hregion]
      omega
    · by_cases hfirst : a < v + i + MiB2
      · refine ⟨old, ?_⟩
        rw [hrest.outside a 2 ha (by omega), hput.leaf a 2 ha,
          if_pos ⟨(hregion a).mpr ⟨h3, hfirst⟩, Nat.le_refl 2⟩, if_pos rfl]
        rw [block_offset hi h3 hfirst]
      · exact hrest.inside a ha (by omega) (by omega)

/-! ## Looking a large page up again -/

/-- A lookup that reaches a present word returns its address field. -/
theorem virtualToPhysical_of_word (ht : Tables K top st) {a t : ℕ} {flags : BitVec 64}
    (hc : ClearAbove K st.mem top a (levelOf (getPageSize flags)))
    (hn : nodeAt K st.mem top (pathTo a (levelOf (getPageSize flags))) = some t)
    (h0 : (st.mem t (idx a (levelOf (getPageSize flags)))).getLsbD 0 = true) :
    ∃ vis, virtualToPhysical K top a flags st =
      some (getAddress (st.mem t (idx a (levelOf (getPageSize flags)))) + a % getPageSize flags,
        { st with visited := vis }) := by
  obtain ⟨vis, hr, -⟩ := virtualToPhysical_spec ht flags hc
  refine ⟨vis, ?_⟩
  rw [hr, hn, Option.map_some, lookupResult, if_pos h0]

theorem getPageSize_eq_GiB1 {flags : BitVec 64} :
    getPageSize flags = GiB1 ↔ getFlags flags LLPAGE = true := by
  have h1 : KiB4 ≠ GiB1 := by decide
  have h2 : MiB2 ≠ GiB1 := by decide
  simp only [getPageSize]
  split_ifs <;> simp_all

theorem getPageSize_large {flags : BitVec 64} (h : isLpage flags = true) :
    getPageSize flags ≠ KiB4 := by
  have h1 : MiB2 ≠ KiB4 := by decide
  have h2 : GiB1 ≠ KiB4 := by decide
  simp only [isLpage, Bool.or_eq_true] at h
  simp only [getPageSize]
  split_ifs <;> simp_all

theorem mod_MiB2_of_large {a : ℕ} {flags : BitVec 64} (hl : isLpage flags = true)
    (h : a % getPageSize flags = 0) : a % MiB2 = 0 := by
  rcases getPageSize_cases flags with hs | hs | hs
  · exact absurd hs (getPageSize_large hl)
  · rwa [hs] at h
  · rw [hs] at h
    unfold GiB1 at h
    unfold MiB2
    omega

theorem not_fallback {flags : BitVec 64} (h : getFlags flags LLPAGE = true → K.gib1Pages = true) :
    ¬ (getPageSize flags = GiB1 ∧ K.gib1Pages = false) := by
  rintro ⟨h1, h2⟩
  rw [h (getPageSize_eq_GiB1.mp h1)] at h2
  exact Bool.noConfusion h2

theorem map_direct {flags : BitVec 64} (h : getFlags flags LLPAGE = true → K.gib1Pages = true)
    (pa : ℕ) (cache : Caching) :
    map K top v pa flags cache st = mapOne K top v pa flags cache (getPageSize flags) st := by
  rw [map, if_neg (not_fallback h)]

theorem map_fallback {flags : BitVec 64} (h : getFlags flags LLPAGE = true)
    (hg : K.gib1Pages = false) (pa : ℕ) (cache : Caching) :
    map K top v pa flags cache st =
      mapLoop K top v pa ((flags &&& ~~~LLPAGE) ||| LPAGE) cache 512 0 st := by
  rw [map, if_pos ⟨getPageSize_eq_GiB1.mpr h, hg⟩]
  rfl

theorem isLpage_fallback (flags : BitVec 64) :
    isLpage ((flags &&& ~~~LLPAGE) ||| LPAGE) = true := by
  have hbit : getFlags ((flags &&& ~~~LLPAGE) ||| LPAGE) LPAGE = true := by
    change getFlags _ (BitVec.twoPow 64 5) = true
    rw [getFlags_twoPow _ (by norm_num), BitVec.getLsbD_or]
    exact Bool.or_true _
  rw [isLpage, hbit, Bool.true_or]

/-- The address read back from a large entry. -/
theorem getAddress_mappedWord_large (old : BitVec 64) {pa pageSize : ℕ} (hpa : pa % MiB2 = 0)
    (hlt : pa < 2 ^ 52) (hs : pageSize ≠ KiB4) (flags : BitVec 64) (cache : Caching) :
    getAddress (mappedWord old pa flags cache pageSize) =
      if cache.usesPat then pa + 0x1000 else pa := by
  have hmask := realFlags_and_paMask flags cache (decide (pageSize ≠ KiB4))
  simp only [hs, ne_eq, not_false_eq_true, decide_true, Bool.true_and] at hmask
  have hp4 : pa % KiB4 = 0 := by
    unfold MiB2 at hpa
    unfold KiB4
    omega
  unfold mappedWord
  simp only [hs, ne_eq, not_false_eq_true, decide_true]
  cases hu : cache.usesPat with
  | false => exact getAddress_mapped old hp4 hlt (by simpa [hu] using hmask)
  | true => exact getAddress_mapped_pat old hpa hlt (by simpa [hu] using hmask)

/-- A lookup with the same flags gives back the mapped address, at every offset. -/
def ReadsBack (K : Machine A) (top v pa : ℕ) (flags : BitVec 64) (st : State A) : Prop :=
  ∀ o < getPageSize flags, ∃ st', virtualToPhysical K top (v + o) flags st = some (pa + o, st')

/-- The modes for which the entry holds the frame unchanged, at the level the lookup reads. -/
def LargeOk (K : Machine A) (flags : BitVec 64) (cache : Caching) : Prop :=
  cache.usesPat = false ∧ (getFlags flags LLPAGE = true → K.gib1Pages = true)

section RoundTrip

variable {pa : ℕ} {flags : BitVec 64} {cache : Caching}

/-- One entry of its own size maps the whole page. -/
theorem map_direct_spec (ht : Tables K top st) (hv : Canonical v)
    (hal : v % getPageSize flags = 0) (hun : Unmapped K st.mem top v (getPageSize flags))
    (hdirect : getFlags flags LLPAGE = true → K.gib1Pages = true) {ok : Bool}
    (he : map K top v pa flags cache st = some (ok, st')) :
    Tables K top st' ∧ ∃ old, ∀ o < getPageSize flags,
      leafFor K st'.mem top (v + o) (levelOf (getPageSize flags)) =
        some (mappedWord old pa flags cache (getPageSize flags)) := by
  have hs := getPageSize_cases flags
  have hclear := hun.clearAbove (o := 0) (getPageSize_le flags).1
    (levelOf_bounds (getPageSize flags)).2
  rw [map_direct hdirect] at he
  obtain ⟨-, ht', old, hput⟩ := mapOne_spec ht hv (levelOf_getPageSize flags) hclear he
  refine ⟨ht', old, fun o ho => ?_⟩
  have hdiv : (v + o) / sizeAt (levelOf (getPageSize flags)) =
      v / sizeAt (levelOf (getPageSize flags)) := by
    rw [sizeAt_levelOf hs]
    exact div_add_offset hal ho
  rw [hput.leaf _ _ (canonical_add hs hv hal ho), if_pos ⟨hdiv, Nat.le_refl _⟩, if_pos rfl]

/-- The fallback maps the page by 2 MiB entries. -/
theorem map_fallback_spec (ht : Tables K top st) (hv : Canonical v)
    (hll : getFlags flags LLPAGE = true) (hg : K.gib1Pages = false) (hal : v % GiB1 = 0)
    (hun : Unmapped K st.mem top v GiB1) {ok : Bool}
    (he : map K top v pa flags cache st = some (ok, st')) :
    Tables K top st' ∧ ∀ o < GiB1, ∃ old, leafFor K st'.mem top (v + o) 2 =
      some (mappedWord old (wrap (pa + o / MiB2 * MiB2)) ((flags &&& ~~~LLPAGE) ||| LPAGE) cache
        MiB2) := by
  have htotal : 512 * MiB2 = GiB1 := rfl
  rw [map_fallback hll hg] at he
  obtain ⟨-, ht', hput⟩ := mapLoop_spec (isLpage_fallback flags) hv hal rfl (by decide) ht
    (fun o' ho' => hun.clearAbove ho' (by norm_num)) he
  refine ⟨ht', fun o ho => ?_⟩
  obtain ⟨old, hleaf⟩ := hput.inside (v + o) (canonical_add (Or.inr (Or.inr rfl)) hv hal ho)
    (by omega) (by omega)
  rw [Nat.add_sub_cancel_left] at hleaf
  exact ⟨old, hleaf⟩

/-- With one entry of its own size, the lookup returns the address field of that entry. -/
theorem lookup_direct (ht : Tables K top st) (hv : Canonical v) (hl : isLpage flags = true)
    (hal : v % getPageSize flags = 0) (hun : Unmapped K st.mem top v (getPageSize flags))
    (hpa : pa % getPageSize flags = 0) (hlt : pa < 2 ^ 52)
    (hdirect : getFlags flags LLPAGE = true → K.gib1Pages = true) {ok : Bool}
    (he : map K top v pa flags cache st = some (ok, st')) {o : ℕ} (ho : o < getPageSize flags) :
    ∃ st'', virtualToPhysical K top (v + o) flags st' =
      some ((if cache.usesPat then pa + 0x1000 else pa) + o, st'') := by
  obtain ⟨ht', old, hleaves⟩ := map_direct_spec ht hv hal hun hdirect he
  have hleaf := hleaves o ho
  obtain ⟨t, hn, hword, h0⟩ := leafFor_eq_some hleaf
  have hclear' : ClearAbove K st'.mem top (v + o) (levelOf (getPageSize flags)) :=
    fun d hd => leafFor_above hleaf hd
  obtain ⟨vis, hr⟩ := virtualToPhysical_of_word ht' hclear' hn (by rw [hword, h0])
  rw [hword, getAddress_mappedWord_large old (mod_MiB2_of_large hl hpa) hlt (getPageSize_large hl),
    mod_add_offset hal ho] at hr
  exact ⟨_, hr⟩

/-- After the 2 MiB fallback a 1 GiB lookup reads the link to the table of the 2 MiB entries. -/
theorem lookup_fallback (ht : Tables K top st) (hv : Canonical v)
    (hll : getFlags flags LLPAGE = true) (hg : K.gib1Pages = false) (hal : v % GiB1 = 0)
    (hun : Unmapped K st.mem top v GiB1) {ok : Bool}
    (he : map K top v pa flags cache st = some (ok, st')) {o : ℕ} (ho : o < GiB1) :
    ∃ r st'', virtualToPhysical K top (v + o) flags st' = some (r + o, st'') ∧
      tohh K.hhdm.offset r ∈ st'.tables := by
  have hsize := getPageSize_eq_GiB1.mpr hll
  have hlevel : levelOf GiB1 = 1 := rfl
  obtain ⟨ht', hleaves⟩ := map_fallback_spec ht hv hll hg hal hun he
  obtain ⟨old, hleaf⟩ := hleaves o ho
  obtain ⟨t, hn, -⟩ := leafFor_eq_some hleaf
  obtain ⟨s, hs, h0, hlink⟩ := link_of_nodeAt hn
  have hclear : ClearAbove K st'.mem top (v + o) (levelOf (getPageSize flags)) := by
    intro d hd
    rw [hsize, hlevel] at hd
    exact leafFor_above hleaf (by omega)
  obtain ⟨vis, hr⟩ := virtualToPhysical_of_word ht' hclear (t := s) (by rw [hsize]; exact hs)
    (by rw [hsize]; exact h0)
  rw [hsize, hlevel, mod_add_offset hal ho] at hr
  refine ⟨_, _, hr, ?_⟩
  rw [hlink]
  exact ht'.closed _ _ hn

/-- Large pages read back exactly in the modes without the PAT bit and, for 1 GiB pages, with
hardware support for them. -/
theorem large_page_round_trip_iff (K : Machine A) (ht : Tables K top st) (hv : Canonical v)
    (hl : isLpage flags = true) (hal : v % getPageSize flags = 0)
    (hun : Unmapped K st.mem top v (getPageSize flags)) (hpa : pa % getPageSize flags = 0)
    (hlt : pa < 2 ^ 52) (he : map K top v pa flags cache st = some (true, st')) :
    (LargeOk K flags cache → ReadsBack K top v pa flags st') ∧
      (tohh K.hhdm.offset pa ∉ st'.tables →
        (ReadsBack K top v pa flags st' ↔ LargeOk K flags cache)) := by
  have hpos := (getPageSize_le flags).1
  have hgood : LargeOk K flags cache → ReadsBack K top v pa flags st' := by
    intro hok o ho
    obtain ⟨st'', hr⟩ := lookup_direct ht hv hl hal hun hpa hlt hok.2 he ho
    rw [hok.1] at hr
    exact ⟨st'', hr⟩
  refine ⟨hgood, fun hframe => ⟨fun hback => ?_, hgood⟩⟩
  -- offset 0 already shows the difference
  obtain ⟨st1, h1⟩ := hback 0 hpos
  by_cases hdirect : getFlags flags LLPAGE = true → K.gib1Pages = true
  · refine ⟨?_, hdirect⟩
    obtain ⟨st2, h2⟩ := lookup_direct ht hv hl hal hun hpa hlt hdirect he hpos
    rw [h1] at h2
    cases hu : cache.usesPat with
    | false => rfl
    | true =>
      simp only [hu, if_true, Option.some.injEq, Prod.mk.injEq] at h2
      omega
  · obtain ⟨hll, hg⟩ := Classical.not_imp.mp hdirect
    rw [getPageSize_eq_GiB1.mpr hll] at hal hun hpos
    obtain ⟨r, st2, h2, hr⟩ := lookup_fallback ht hv hll (by simpa using hg) hal hun he hpos
    rw [h1] at h2
    simp only [Option.some.injEq, Prod.mk.injEq, Nat.add_zero] at h2
    rw [h2.1] at hframe
    exact absurd hr hframe

end RoundTrip

/-- A new pagemap maps nothing. -/
theorem construct_unmapped {mem : Mem} {heap : A}
    (he : construct K none (start mem heap) = some (top, st)) (v size : ℕ) :
    Unmapped K st.mem top v size :=
  fun _ _ _ => hwTranslate_eq_none.mpr fun d _ => (construct_spec he).2 _ d

theorem large_page_round_trip_iff_small :
    ∃ top st₀ st, construct (orderedMachine false) none (start (fun _ _ => 0#64) 1) =
        some (top, st₀) ∧
      map (orderedMachine false) top 0x200000 0x600000 LPAGE .uncachable st₀ = some (true, st) ∧
      ReadsBack (orderedMachine false) top 0x200000 0x600000 LPAGE st := by
  have htrue : ((construct (orderedMachine false) none (start (fun _ _ => 0#64) 1)).bind
      fun (top, st₀) => (map (orderedMachine false) top 0x200000 0x600000 LPAGE .uncachable
        st₀).map Prod.fst) = some true := by
    decide +kernel
  obtain ⟨⟨top, st₀⟩, h0, h1⟩ := Option.bind_eq_some_iff.mp htrue
  obtain ⟨⟨ok, st⟩, hm, rfl⟩ := Option.map_eq_some_iff.mp h1
  refine ⟨top, st₀, st, h0, hm, ?_⟩
  exact (large_page_round_trip_iff (orderedMachine false) (construct_spec h0).1 (by decide)
    (by decide) (by decide) (construct_unmapped h0 _ _) (by decide) (by decide) hm).1
    ⟨rfl, by decide⟩

/-- With the default caching the lookup of a 2 MiB page is 4 KiB off. -/
theorem default_caching_shifts :
    ∃ top st₀ st st', construct (orderedMachine false) none (start (fun _ _ => 0#64) 1) =
        some (top, st₀) ∧
      Unmapped (orderedMachine false) st₀.mem top 0x200000 MiB2 ∧
      map (orderedMachine false) top 0x200000 0x600000 LPAGE defaultCaching st₀ =
        some (true, st) ∧
      virtualToPhysical (orderedMachine false) top 0x200000 LPAGE st = some (0x601000, st') ∧
      ¬ ReadsBack (orderedMachine false) top 0x200000 0x600000 LPAGE st := by
  have hshift : ((construct (orderedMachine false) none (start (fun _ _ => 0#64) 1)).bind
      fun (top, st₀) => (map (orderedMachine false) top 0x200000 0x600000 LPAGE defaultCaching
        st₀).map fun (ok, st) =>
          (ok, (virtualToPhysical (orderedMachine false) top 0x200000 LPAGE st).map Prod.fst)) =
        some (true, some 0x601000) := by
    decide +kernel
  obtain ⟨⟨top, st₀⟩, h0, h1⟩ := Option.bind_eq_some_iff.mp hshift
  obtain ⟨⟨ok, st⟩, hm, h2⟩ := Option.map_eq_some_iff.mp h1
  rw [Prod.mk.injEq] at h2
  obtain ⟨rfl, h3⟩ := h2
  obtain ⟨⟨r, st'⟩, hr, rfl⟩ := Option.map_eq_some_iff.mp h3
  refine ⟨top, st₀, st, st', h0, construct_unmapped h0 _ _, hm, hr, fun hback => ?_⟩
  obtain ⟨st1, h4⟩ := hback 0 (by decide)
  rw [Nat.add_zero, hr] at h4
  simp at h4

end IceKernel.Paging
