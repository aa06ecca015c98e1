import IceKernel.Memory.PagingInit

/-!
# `_start`: from `physical::init` to `paging::init`

Both read the same memory map, and the first takes the bitmap out of one of
its entries before the second derives the page tables from what is left.
-/

namespace IceKernel.Boot
open Word64 Physical Paging

variable {A : Type} {K : Machine A} {entries : List MemmapEntry} {image : KernelImage}

/-- The two calls of `_start`, with the state of the page allocator and the new pagemap. -/
def start (K : Machine A) (entries : List MemmapEntry) (image : KernelImage)
    (st : Paging.State A) : Option (Physical.State × ℕ × Bool × Paging.State A) :=
  let physical := Physical.init K.hhdm.offset entries
  (Paging.init K physical.1 image st).map fun r => (physical.2, r)

/-- Every byte the page allocator may touch is mapped where it will look for it: the bitmap, and
the pages it may hand out. -/
def Reachable (K : Machine A) (s : Physical.State) (top : ℕ) (st : Paging.State A) : Prop :=
  (∀ i < s.bitmapSize, hwTranslate K st.mem top (s.bitmapBuffer + i) =
    some (fromhh K.hhdm.offset s.bitmapBuffer + i)) ∧
  ∀ q, s.bits q = false → ∀ o < pageSize,
    hwTranslate K st.mem top (tohh K.hhdm.offset (q * pageSize + o)) = some (q * pageSize + o)

/-- The first usable entry of at least `size` bytes, and all the others. -/
def bitmapHome (size : ℕ) : List MemmapEntry → Option (MemmapEntry × List MemmapEntry)
  | [] => none
  | e :: es =>
    if e.type = .usable ∧ size ≤ e.length then some (e, es)
    else (bitmapHome size es).map fun (home, others) => (home, e :: others)

/-- The bytes at the start of that entry lie below 4 GiB or in pages that other entries touch. -/
def CarvedMapped (entries : List MemmapEntry) : Prop :=
  ∀ e others, bitmapHome (bitmapSizeFor (usableTop entries)) entries = some (e, others) →
    ∀ x, e.base ≤ x → x < e.base + bitmapSizeFor (usableTop entries) →
      x < GiB4 ∨ ∃ f ∈ others, Covers f x

/-- `placeBitmap` shortens the home of the bitmap and keeps the other entries. -/
theorem placeBitmap_home (off : ℕ) {size : ℕ} {es others : List MemmapEntry} {e : MemmapEntry}
    (h : bitmapHome size es = some (e, others)) (s : Physical.State) :
    e ∈ es ∧ (∀ f ∈ others, f ∈ es) ∧ e.type = .usable ∧ size ≤ e.length ∧
      (placeBitmap off size es s).2 = { s with
        bitmapBuffer := tohh off e.base
        bitmapSize := size
        bits := fun _ => true
        usedMemory := wrap (s.usedMemory + size) } ∧
      ∀ f, f ∈ (placeBitmap off size es s).1 ↔
        f = { e with length := sub e.length size, base := wrap (e.base + size) } ∨ f ∈ others := by
  induction es generalizing others with
  | nil => simp [bitmapHome] at h
  | cons g es ih =>
    by_cases hg : g.type = .usable ∧ size ≤ g.length
    · rw [bitmapHome, if_pos hg, Option.some.injEq, Prod.mk.injEq] at h
      obtain ⟨rfl, rfl⟩ := h
      refine ⟨List.mem_cons_self, fun f hf => List.mem_cons_of_mem _ hf, hg.1, hg.2, ?_, fun f => ?_⟩
      · simp only [placeBitmap, if_pos hg]
      · simp only [placeBitmap, if_pos hg, List.mem_cons]
    · rw [bitmapHome, if_neg hg] at h
      obtain ⟨⟨home, rest⟩, hrest, heq⟩ := Option.map_eq_some_iff.mp h
      simp only [Prod.mk.injEq] at heq
      obtain ⟨rfl, rfl⟩ := heq
      obtain ⟨h1, h2, h3, h4, h5, h6⟩ := ih hrest
      refine ⟨List.mem_cons_of_mem _ h1, fun f hf => ?_, h3, h4, ?_, fun f => ?_⟩
      · rcases List.mem_cons.mp hf with rfl | hf
        · exact List.mem_cons_self
        · exact List.mem_cons_of_mem _ (h2 f hf)
      · simp only [placeBitmap, if_neg hg, h5]
      · simp only [placeBitmap, if_neg hg, List.mem_cons, h6]
        exact or_left_comm

theorem bitmapHome_of_room {size : ℕ} {es : List MemmapEntry}
    (h : ∃ e ∈ es, e.type = .usable ∧ size ≤ e.length) : ∃ r, bitmapHome size es = some r := by
  induction es with
  | nil =>
    obtain ⟨e, he, -⟩ := h
    exact absurd he List.not_mem_nil
  | cons g es ih =>
    by_cases hg : g.type = .usable ∧ size ≤ g.length
    · exact ⟨_, by rw [bitmapHome, if_pos hg]⟩
    · obtain ⟨e, he, hfit⟩ := h
      obtain ⟨r, hr⟩ := ih ⟨e, (List.mem_cons.mp he).resolve_left fun heq => hg (heq ▸ hfit), hfit⟩
      exact ⟨_, by rw [bitmapHome, if_neg hg, hr, Option.map_some]⟩

/-- The map and the bitmap after `physical::init` are those of its second loop. -/
theorem init_placed (off : ℕ) (entries : List MemmapEntry) :
    let placed := placeBitmap off (bitmapSizeFor (usableTop entries)) entries
      (entries.foldl countEntry {})
    (Physical.init off entries).1 = placed.1 ∧
      (Physical.init off entries).2.bitmapBuffer = placed.2.bitmapBuffer ∧
      (Physical.init off entries).2.bits = (placed.1.foldl clearEntry placed.2).bits := by
  intro placed
  have htop : (entries.foldl countEntry {}).memUsableTop = usableTop entries := rfl
  obtain ⟨hfix, -⟩ := foldl_clearEntry_frame placed.1 placed.2
  simp only [State.fixed, Prod.mk.injEq] at hfix
  rw [← hfix.2.1]
  simp only [Physical.init, htop, placed, and_self]

/-- What `physical::init` leaves of the memory map, and where the bitmap went. -/
theorem init_home (off : ℕ) (hv : ValidMemmap entries) {e : MemmapEntry}
    {others : List MemmapEntry}
    (h : bitmapHome (bitmapSizeFor (usableTop entries)) entries = some (e, others)) :
    (Physical.init off entries).2.bitmapBuffer = tohh off e.base ∧
      ∀ f, f ∈ (Physical.init off entries).1 ↔
        f = shorten e (bitmapSizeFor (usableTop entries)) ∨ f ∈ others := by
  obtain ⟨hmem, -, hu, hl, hstate, hlist⟩ :=
    placeBitmap_home off h (entries.foldl countEntry {})
  have hwe := hv.noWrap e hmem hu
  obtain ⟨hmap, hbuffer, -⟩ := init_placed off entries
  rw [hmap, hbuffer, hstate]
  refine ⟨rfl, fun f => (hlist f).trans (or_congr_left ?_)⟩
  rw [sub_of_le hl (by omega), wrap_of_lt (by omega)]
  rfl

theorem covers_page {f : MemmapEntry} {q o : ℕ} (h : f.HasPage q) (ho : o < pageSize) :
    Covers f (q * pageSize + o) := by
  obtain ⟨-, h1, h2⟩ := h
  unfold Covers KiB4
  unfold pageSize at *
  omega

/-- The pages set free are those of the remaining map. -/
theorem init_clear (off : ℕ) (hv : ValidMemmap entries) (q : ℕ) :
    (Physical.init off entries).2.bits q = false ↔
      ∃ f ∈ (Physical.init off entries).1, f.HasPage q := by
  obtain ⟨⟨e, others⟩, hhome⟩ := bitmapHome_of_room hv.room
  obtain ⟨hmem, hothers, hu, hl, hstate, -⟩ :=
    placeBitmap_home off hhome (entries.foldl countEntry {})
  obtain ⟨-, hlist⟩ := init_home off hv hhome
  obtain ⟨hmap, -, hbits⟩ := init_placed off entries
  have hwhole : bitmapSizeFor (usableTop entries) % pageSize = 0 := by
    rw [bitmapSizeFor_eq (usableTop_lt entries)]
    exact Nat.mul_mod_left _ _
  have hok (f : MemmapEntry) (hf : f ∈ (Physical.init off entries).1) (hfu : f.type = .usable) :
      (f.base % pageSize = 0 ∧ f.length % pageSize = 0) ∧ f.base + f.length < 2 ^ 64 := by
    rcases (hlist f).mp hf with rfl | hf
    · have hal := hv.aligned e hmem hu
      have hwe := hv.noWrap e hmem hu
      unfold shorten pageSize at *
      dsimp only
      omega
    · exact ⟨hv.aligned f (hothers f hf) hfu, hv.noWrap f (hothers f hf) hfu⟩
  rw [hmap] at hok ⊢
  rw [hbits, (foldl_clearEntry_spec _ _ (fun f hf hfu => (hok f hf hfu).1)
    (fun f hf hfu => (hok f hf hfu).2) q).1, hstate]
  simp

section Start

variable {top : ℕ} {st : Paging.State A}

/-- In the direct map exactly the covered bytes are reachable. -/
theorem reachable_iff (hb : BootInfo K entries image)
    (hboot : Boots K top st (bootMap K entries image)) {x : ℕ} (hx : x < K.hhdm.limit) :
    hwTranslate K st.mem top (K.hhdm.offset + x) = some x ↔
      x < GiB4 ∨ ∃ f ∈ entries, Covers f x := by
  rw [hboot.translate _ x (hb.canonical hx).2]
  constructor
  · intro h
    have hout : ¬ (image.virtualBase ≤ K.hhdm.offset + x ∧
        K.hhdm.offset + x < image.virtualBase + image.span) := by
      rintro ⟨h1, h2⟩
      have hap := hb.imageApart (K.hhdm.offset + x - image.virtualBase) (by omega)
      rw [Nat.add_sub_cancel' h1] at hap
      omega
    rw [bootMap, overlay, if_neg hout] at h
    exact h.1
  · intro h
    exact (bootMap_direct hb h).2.2

section Placed

variable {e : MemmapEntry} {others : List MemmapEntry}

/-- The entries as `paging::init` reads them are no higher than before. -/
theorem bootInfo_placed (hv : ValidMemmap entries) (hb : BootInfo K entries image)
    (hhome : bitmapHome (bitmapSizeFor (usableTop entries)) entries = some (e, others)) :
    BootInfo K (Physical.init K.hhdm.offset entries).1 image := by
  obtain ⟨hmem, hothers, hu, hl, -⟩ := placeBitmap_home K.hhdm.offset hhome {}
  obtain ⟨-, hlist⟩ := init_home K.hhdm.offset hv hhome
  have hin := hb.inside e hmem
  have hwe := hv.noWrap e hmem hu
  refine { hb with inside := fun f hf => ?_ }
  rcases (hlist f).mp hf with rfl | hf
  · simp only [shorten]
    omega
  · exact hb.inside f (hothers f hf)

/-- The bytes of the bitmap are reachable where the low map or another entry covers them: its own
entry no longer does. -/
theorem bitmap_reachable_iff (hv : ValidMemmap entries) (hb : BootInfo K entries image)
    (hhome : bitmapHome (bitmapSizeFor (usableTop entries)) entries = some (e, others))
    (hboot : Boots K top st (bootMap K (Physical.init K.hhdm.offset entries).1 image)) :
    (∀ i < bitmapSizeFor (usableTop entries), hwTranslate K st.mem top
        ((Physical.init K.hhdm.offset entries).2.bitmapBuffer + i) =
          some (fromhh K.hhdm.offset (Physical.init K.hhdm.offset entries).2.bitmapBuffer + i)) ↔
      ∀ x, e.base ≤ x → x < e.base + bitmapSizeFor (usableTop entries) →
        x < GiB4 ∨ ∃ f ∈ others, Covers f x := by
  obtain ⟨hmem, -, hu, hl, -⟩ := placeBitmap_home K.hhdm.offset hhome {}
  obtain ⟨hbuffer, hlist⟩ := init_home K.hhdm.offset hv hhome
  have hb' := bootInfo_placed hv hb hhome
  have hin := hb.inside e hmem
  have hwe := hv.noWrap e hmem hu
  obtain ⟨hal, -⟩ := hv.aligned e hmem hu
  set size := bitmapSizeFor (usableTop entries) with hsize
  have hwhole : size % pageSize = 0 := by
    rw [hsize, bitmapSizeFor_eq (usableTop_lt entries)]
    exact Nat.mul_mod_left _ _
  have hrest (x : ℕ) (hx : x < e.base + size) : ¬ Covers (shorten e size) x := by
    unfold Covers shorten KiB4
    unfold pageSize at hal hwhole
    dsimp only
    omega
  have hstep (i : ℕ) (hi : i < size) : hwTranslate K st.mem top
      ((Physical.init K.hhdm.offset entries).2.bitmapBuffer + i) =
        some (fromhh K.hhdm.offset (Physical.init K.hhdm.offset entries).2.bitmapBuffer + i) ↔
      e.base + i < GiB4 ∨ ∃ f ∈ others, Covers f (e.base + i) := by
    rw [hbuffer, K.hhdm.tohh_eq (by omega), K.hhdm.fromhh_eq, Nat.add_assoc,
      reachable_iff hb' hboot (by omega)]
    refine or_congr_right ⟨fun ⟨f, hf, hc⟩ => ?_,
      fun ⟨f, hf, hc⟩ => ⟨f, (hlist f).mpr (Or.inr hf), hc⟩⟩
    rcases (hlist f).mp hf with rfl | hf
    · exact absurd hc (hrest _ (by omega))
    · exact ⟨f, hf, hc⟩
  constructor
  · intro h x h1 h2
    have := (hstep (x - e.base) (by omega)).mp (h _ (by omega))
    rwa [Nat.add_sub_cancel' h1] at this
  · exact fun h i hi => (hstep i hi).mpr (h _ (by omega) (by omega))

/-- Every page the allocator may hand out is reachable in the direct map. -/
theorem free_pages_reachable (hv : ValidMemmap entries)
    (hb : BootInfo K (Physical.init K.hhdm.offset entries).1 image)
    (hboot : Boots K top st (bootMap K (Physical.init K.hhdm.offset entries).1 image)) {q : ℕ}
    (hq : (Physical.init K.hhdm.offset entries).2.bits q = false) {o : ℕ} (ho : o < pageSize) :
    hwTranslate K st.mem top (tohh K.hhdm.offset (q * pageSize + o)) =
      some (q * pageSize + o) := by
  obtain ⟨f, hf, hpage⟩ := (init_clear K.hhdm.offset hv q).mp hq
  have hcov := covers_page hpage ho
  have hlt := (bootMap_direct hb (Or.inr ⟨f, hf, hcov⟩)).1
  rw [K.hhdm.tohh_eq hlt, reachable_iff hb hboot hlt]
  exact Or.inr ⟨f, hf, hcov⟩

end Placed

/-- The page allocator stays reachable exactly when the start of the entry that holds the bitmap
lies below 4 GiB or is covered by other entries. -/
theorem allocator_reachable_iff (K : Machine A) (hv : ValidMemmap entries)
    (hb : BootInfo K entries image) {mem : Mem} {heap : A} {s : Physical.State} {ok : Bool}
    (he : start K entries image (Paging.start mem heap) = some (s, top, ok, st)) :
    Reachable K s top st ↔ CarvedMapped entries := by
  obtain ⟨⟨top', ok', st'⟩, hinit, heq⟩ := Option.map_eq_some_iff.mp he
  simp only [Prod.mk.injEq] at heq
  obtain ⟨rfl, rfl, rfl, rfl⟩ := heq
  obtain ⟨⟨e, others⟩, hhome⟩ := bitmapHome_of_room hv.room
  obtain ⟨base, hs⟩ := init_spec K.hhdm.offset hv
  have hb' := bootInfo_placed hv hb hhome
  obtain ⟨-, hboot⟩ := init_boots hb' hinit
  rw [Reachable, hs.bitmapSize, bitmap_reachable_iff hv hb hhome hboot]
  constructor
  · rintro ⟨h, -⟩ e' others' hhome'
    rw [hhome, Option.some.injEq, Prod.mk.injEq] at hhome'
    obtain ⟨rfl, rfl⟩ := hhome'
    exact h
  · exact fun h => ⟨h e others hhome, fun q hq o ho => free_pages_reachable hv hb' hboot hq ho⟩

end Start

/-! ## Two memory maps

In the first the bitmap fits below 4 GiB, in the second only above. -/

def lowRoom : List MemmapEntry :=
  [⟨0x1000, 0x22000, .usable⟩, ⟨0x100000000, 0x2000, .usable⟩]

def highRoom : List MemmapEntry :=
  [⟨0x1000, 0x8000, .usable⟩, ⟨0x100000000, 0x22000, .usable⟩]

theorem lowRoom_valid : ValidMemmap lowRoom where
  aligned := by decide
  noWrap := by decide
  disjoint := by
    refine List.pairwise_pair.mpr fun q hq => ?_
    simp only [MemmapEntry.HasPage, pageSize] at hq
    omega
  room := ⟨_, List.mem_cons_self, rfl, by decide⟩

theorem highRoom_valid : ValidMemmap highRoom where
  aligned := by decide
  noWrap := by decide
  disjoint := by
    refine List.pairwise_pair.mpr fun q hq => ?_
    simp only [MemmapEntry.HasPage, pageSize] at hq
    omega
  room := ⟨_, List.mem_cons_of_mem _ List.mem_cons_self, rfl, by decide⟩

theorem room_boot {entries : List MemmapEntry}
    (h : ∀ e ∈ entries, e.base + e.length ≤ 0x400000000000) :
    BootInfo (orderedMachine true) entries smallImage :=
  { highMap_boot with inside := h }

theorem allocator_reachable_iff_small :
    ∃ s top st, start (orderedMachine true) lowRoom smallImage
        (Paging.start (fun _ _ => 0#64) 1) = some (s, top, true, st) ∧
      Reachable (orderedMachine true) s top st := by
  have hsome : (start (orderedMachine true) lowRoom smallImage
      (Paging.start (fun _ _ => 0#64) 1)).map (fun r => r.2.2.1) = some true := by
    decide +kernel
  obtain ⟨⟨s, top, ok, st⟩, he, rfl⟩ := Option.map_eq_some_iff.mp hsome
  refine ⟨s, top, st, he, (allocator_reachable_iff (orderedMachine true) lowRoom_valid
    (room_boot (by decide)) he).mpr fun e others hhome x _ hx => Or.inl ?_⟩
  have hfirst : bitmapHome (bitmapSizeFor (usableTop lowRoom)) lowRoom =
      some (⟨0x1000, 0x22000, .usable⟩, [⟨0x100000000, 0x2000, .usable⟩]) := by
    decide +kernel
  rw [hfirst, Option.some.injEq, Prod.mk.injEq] at hhome
  have hsize : bitmapSizeFor (usableTop lowRoom) = 0x20000 := by decide +kernel
  rw [← hhome.1, hsize] at hx
  dsimp only at hx
  unfold GiB4 GiB1
  omega

/-- A bitmap above 4 GiB is not in the page tables any more. -/
theorem high_bitmap_unmapped :
    ∃ s top st, start (orderedMachine true) highRoom smallImage
        (Paging.start (fun _ _ => 0#64) 1) = some (s, top, true, st) ∧
      ValidMemmap highRoom ∧ BootInfo (orderedMachine true) highRoom smallImage ∧
      s.bitmapBuffer = 0xffff800100000000 ∧ s.bitmapSize = 0x21000 ∧
      hwTranslate (orderedMachine true) st.mem top s.bitmapBuffer = none ∧
      ¬ Reachable (orderedMachine true) s top st := by
  have hrun : (start (orderedMachine true) highRoom smallImage
      (Paging.start (fun _ _ => 0#64) 1)).map (fun (s, top, ok, st) =>
        (ok, s.bitmapBuffer, s.bitmapSize,
          hwTranslate (orderedMachine true) st.mem top s.bitmapBuffer)) =
      some (true, 0xffff800100000000, 0x21000, none) := by
    decide +kernel
  obtain ⟨⟨s, top, ok, st⟩, he, heq⟩ := Option.map_eq_some_iff.mp hrun
  simp only [Prod.mk.injEq] at heq
  obtain ⟨rfl, hbuf, hsize, hnone⟩ := heq
  refine ⟨s, top, st, he, highRoom_valid, room_boot (by decide), hbuf, hsize, hnone, fun h => ?_⟩
  have h0 := h.1 0 (by rw [hsize]; norm_num)
  rw [Nat.add_zero, hnone] at h0
  simp at h0

end IceKernel.Boot
