import IceKernel.Memory.PagingWalk

/-!
# `memory/virtual.cpp`: the boot page tables

`memory::paging::init` maps the first 4 GiB, the entries of the memory map
above them and the kernel image, the first two both at their own addresses
and in the direct map. A result `(false, _)` is a failed assertion.
-/

namespace IceKernel.Paging
open Word64 RadixTree

variable {A : Type} (K : Machine A)

/-- What Limine reports about the kernel: `kernel_address_request` and the size of
`kernel_file`. -/
structure KernelImage where
  physicalBase : ℕ
  virtualBase : ℕ
  size : ℕ
  deriving DecidableEq, Repr

def GiB4 : ℕ := GiB1 * 4

/-- `pagemap_t::required_size`. -/
def requiredSize (size : ℕ) : ℕ × BitVec 64 :=
  if size ≥ GiB1 then (GiB1, LLPAGE)
  else if size ≥ MiB2 then (MiB2, LPAGE)
  else (KiB4, 0)

/-- `assert(x)`. The macro evaluates an expression that holds a second time. -/
def assertTrue (x : State A → Option (Bool × State A)) (st : State A) : Option (Bool × State A) :=
  (x st).bind fun (ok, st) =>
    if !ok then some (false, st) else (x st).map fun (_, st) => (true, st)

/-- What follows an assertion. -/
def andThen (r : Option (Bool × State A)) (f : State A → Option (Bool × State A)) :
    Option (Bool × State A) :=
  r.bind fun (ok, st) => if ok then f st else some (false, st)

/-- The two assertions in the loops of `init`: `t` at its own address and in the direct map. -/
def mapBoth (top t : ℕ) (flags : BitVec 64) (cache : Caching) (st : State A) :
    Option (Bool × State A) :=
  andThen (assertTrue (map K top t t (RWX ||| flags) cache) st) fun st =>
    assertTrue (map K top (tohh K.hhdm.offset t) t (RW ||| flags) cache) st

/-- The first loop of `init`, from `i` on with `n` rounds to go. -/
def mapLow (top pageSize : ℕ) (flags : BitVec 64) : ℕ → ℕ → State A → Option (Bool × State A)
  | 0, _, st => some (true, st)
  | n + 1, i, st =>
    andThen (mapBoth K top i flags defaultCaching st) fun st =>
      mapLow top pageSize flags n (i + pageSize) st

/-- The inner loop over the pages of an entry. -/
def mapEntryLoop (top : ℕ) (cache : Caching) : ℕ → ℕ → State A → Option (Bool × State A)
  | 0, _, st => some (true, st)
  | n + 1, t, st =>
    if t < GiB4 then mapEntryLoop top cache n (t + KiB4) st
    else
      andThen (mapBoth K top t 0 cache st) fun st => mapEntryLoop top cache n (t + KiB4) st

/-- The local `base` of the second loop. -/
def entryBase (e : MemmapEntry) : ℕ := alignDown e.base KiB4

/-- The local `top` of the second loop. -/
def entryTop (e : MemmapEntry) : ℕ := alignUp (wrap (e.base + e.length)) KiB4

/-- The body of the second loop of `init`. -/
def mapEntry (top : ℕ) (e : MemmapEntry) (st : State A) : Option (Bool × State A) :=
  if entryTop e < GiB4 then some (true, st)
  else
    let cache := if e.type = .framebuffer then .writeCombining else defaultCaching
    mapEntryLoop K top cache ((entryTop e - entryBase e + (KiB4 - 1)) / KiB4) (entryBase e) st

def mapEntries (top : ℕ) : List MemmapEntry → State A → Option (Bool × State A)
  | [], st => some (true, st)
  | e :: es, st => andThen (mapEntry K top e st) fun st => mapEntries top es st

/-- The third loop of `init`, from offset `i` on. -/
def mapImage (top : ℕ) (image : KernelImage) : ℕ → ℕ → State A → Option (Bool × State A)
  | 0, _, st => some (true, st)
  | n + 1, i, st =>
    andThen (assertTrue (map K top (wrap (image.virtualBase + i)) (wrap (image.physicalBase + i))
      RWX defaultCaching) st) fun st => mapImage top image n (i + KiB4) st

/-- `memory::paging::init` up to `kernel_pagemap->load()`, with the top level of
`kernel_pagemap`. -/
def init (entries : List MemmapEntry) (image : KernelImage) (st : State A) :
    Option (ℕ × Bool × State A) :=
  (construct K none st).bind fun (top, st) =>
    let (pageSize, flags) := requiredSize (GiB1 * 4)
    (andThen (mapLow K top pageSize flags ((GiB1 * 4 + (pageSize - 1)) / pageSize) 0 st) fun st =>
      andThen (mapEntries K top entries st) fun st =>
        mapImage K top image ((image.size + (KiB4 - 1)) / KiB4) 0 st).map fun r => (top, r)

/-! ## One mapping -/

variable {K} {top : ℕ} {st st' : State A} {v : ℕ}

/-- The part of the address space that `init` maps by large pages. -/
def InLow (K : Machine A) (a : ℕ) : Prop :=
  a < GiB4 ∨ K.hhdm.offset ≤ a ∧ a < K.hhdm.offset + GiB4

/-- The hardware translates canonical addresses as `R` says; large pages lie in the low part, and
they are 2 MiB pages when there are no others. -/
structure Boots (K : Machine A) (top : ℕ) (st : State A) (R : ℕ → ℕ → Prop) : Prop where
  tables : Tables K top st
  translate : ∀ a x, Canonical a → (hwTranslate K st.mem top a = some x ↔ R a x)
  large : ∀ a d, Canonical a → d < 3 → leafFor K st.mem top a d ≠ none → InLow K a
  level : K.gib1Pages = false → ∀ a, Canonical a → ClearAbove K st.mem top a 2

/-- `R` with the region `[v, v + size)` mapped to the frames from `pa` on. -/
def overlay (v size pa : ℕ) (R : ℕ → ℕ → Prop) (a x : ℕ) : Prop :=
  if v ≤ a ∧ a < v + size then x = pa + (a - v) else R a x

theorem over_over (v size pa : ℕ) (R : ℕ → ℕ → Prop) :
    overlay v size pa (overlay v size pa R) = overlay v size pa R := by
  funext a x
  unfold overlay
  split_ifs <;> rfl

theorem Boots.congr {R R' : ℕ → ℕ → Prop} (h : Boots K top st R)
    (heq : ∀ a x, Canonical a → (R a x ↔ R' a x)) : Boots K top st R' where
  tables := h.tables
  translate a x ha := (h.translate a x ha).trans (heq a x ha)
  large := h.large
  level := h.level

/-- A region mapped anew, all other leaves being kept. -/
theorem Boots.overlay {R : ℕ → ℕ → Prop} (h : Boots K top st R) {size pa : ℕ}
    (ht : Tables K top st')
    (hin : ∀ a, Canonical a → v ≤ a → a < v + size →
      hwTranslate K st'.mem top a = some (pa + (a - v)))
    (hout : ∀ a d, Canonical a → ¬ (v ≤ a ∧ a < v + size) →
      leafFor K st'.mem top a d = leafFor K st.mem top a d)
    (hlow : ∀ a d, Canonical a → v ≤ a → a < v + size → d < 3 →
      leafFor K st'.mem top a d ≠ none → InLow K a)
    (hlevel : K.gib1Pages = false → ∀ a, Canonical a → v ≤ a → a < v + size →
      ClearAbove K st'.mem top a 2) :
    Boots K top st' (overlay v size pa R) where
  tables := ht
  translate a x ha := by
    unfold Paging.overlay
    by_cases hr : v ≤ a ∧ a < v + size
    · rw [if_pos hr, hin a ha hr.1 hr.2, Option.some.injEq, eq_comm]
    · rw [if_neg hr, hwTranslate_congr fun d _ => hout a d ha hr]
      exact h.translate a x ha
  large a d ha hd hne := by
    by_cases hr : v ≤ a ∧ a < v + size
    · exact hlow a d ha hr.1 hr.2 hd hne
    · rw [hout a d ha hr] at hne
      exact h.large a d ha hd hne
  level hg a ha := by
    by_cases hr : v ≤ a ∧ a < v + size
    · exact hlevel hg a ha hr.1 hr.2
    · exact fun d hd => (hout a d ha hr).trans (h.level hg a ha d hd)

/-- A small page outside the low part. -/
theorem Boots.mapSmall {R : ℕ → ℕ → Prop} (h : Boots K top st R) {pa : ℕ} {flags : BitVec 64}
    {cache : Caching} (hf : isLpage flags = false) (hv : Canonical v) (hal : v % KiB4 = 0)
    (hlow : ¬ InLow K v) (hpa : pa % KiB4 = 0) (hlt : pa < 2 ^ 52) {ok : Bool}
    (he : map K top v pa flags cache st = some (ok, st')) :
    ok = true ∧ Boots K top st' (Paging.overlay v KiB4 pa R) := by
  have hclear : ClearAbove K st.mem top v (levelOf KiB4) := by
    intro d hd
    by_contra hne
    exact hlow (h.large v d hv hd hne)
  have hsize : sizeAt 3 = KiB4 := rfl
  rw [map_plain hf] at he
  obtain ⟨hok, ht, old, hput⟩ := mapOne_spec h.tables hv (Or.inl rfl) hclear he
  have hsmall : levelOf KiB4 = 3 := rfl
  rw [hsmall] at hput
  have hpage (a : ℕ) : a / sizeAt 3 = v / sizeAt 3 ↔ v ≤ a ∧ a < v + KiB4 := by
    rw [hsize]
    unfold KiB4 at *
    omega
  have habove (a : ℕ) (ha : Canonical a) {d : ℕ} (hd : d < 3) :
      leafFor K st'.mem top a d = leafFor K st.mem top a d := by
    rw [hput.leaf a d ha, if_neg (fun hc => absurd hc.2 (Nat.not_le.mpr hd))]
  refine ⟨hok, h.overlay ht (fun a ha h1 h2 => ?_) (fun a d ha hr => ?_) (fun a d ha h1 h2 hd hne => ?_)
    fun hg a ha _ _ d hd => (habove a ha (by omega)).trans (h.level hg a ha d hd)⟩
  · have hleaf : leafFor K st'.mem top a 3 = some (mappedWord old pa flags cache KiB4) := by
      have hput3 := hput.leaf a 3 ha
      rwa [if_pos ⟨(hpage a).mpr ⟨h1, h2⟩, Nat.le_refl 3⟩, if_pos rfl] at hput3
    rw [hwTranslate_of_leaf hleaf (Nat.le_refl 3), target,
      getAddress_mappedWord_small old hpa hlt, hsize]
    congr 1
    unfold KiB4 at *
    omega
  · rw [hput.leaf a d ha, if_neg (fun hc => hr ((hpage a).mp hc.1))]
  · rw [habove a ha hd] at hne
    exact h.large a d ha hd hne

/-- The frame of a large leaf, of which only the bits above the page size count. -/
theorem target_large {a o d pa : ℕ} {pageSize : ℕ} (hs : pageSize = MiB2 ∨ pageSize = GiB1)
    (hd : sizeAt d = pageSize) (ho : a % pageSize = o) (old : BitVec 64)
    (hpa : pa % pageSize = 0) (hlt : pa < 2 ^ 52) (flags : BitVec 64) (cache : Caching) :
    target a d (mappedWord old pa flags cache pageSize) = pa + o := by
  have hne : pageSize ≠ KiB4 := by
    rcases hs with rfl | rfl <;> decide
  have hpa2 : pa % MiB2 = 0 := by
    unfold MiB2 GiB1 at *
    rcases hs with rfl | rfl <;> omega
  rw [target, getAddress_mappedWord_large old hpa2 hlt hne, hd, ho]
  congr 1
  unfold MiB2 GiB1 at hs
  rcases hs with rfl | rfl <;> split_ifs <;> omega

/-- A 1 GiB region of the low part, by whichever pages the machine has. -/
theorem Boots.mapLarge {R : ℕ → ℕ → Prop} (h : Boots K top st R) {pa : ℕ} {flags : BitVec 64}
    {cache : Caching} (hll : getFlags flags LLPAGE = true) (hv : Canonical v)
    (hal : v % GiB1 = 0) (hlow : ∀ a, v ≤ a → a < v + GiB1 → InLow K a) (hpa : pa % GiB1 = 0)
    (hlt : pa + GiB1 ≤ 2 ^ 52) {ok : Bool}
    (he : map K top v pa flags cache st = some (ok, st')) :
    ok = true ∧ Boots K top st' (Paging.overlay v GiB1 pa R) := by
  have hsize := getPageSize_eq_GiB1.mpr hll
  have hl : isLpage flags = true := by rw [isLpage, hll, Bool.or_true]
  cases hg : K.gib1Pages with
  | true =>
    have hlevel : levelOf GiB1 = 1 := rfl
    have hsize1 : sizeAt 1 = GiB1 := rfl
    rw [map_direct (fun _ => hg), hsize] at he
    obtain ⟨hok, ht, old, hput⟩ := mapOne_spec h.tables hv (Or.inr hl)
      (fun d hd => by
        obtain rfl : d = 0 := by omega
        exact leaf_top K st.mem top _) he
    rw [hlevel] at hput
    have hregion (a : ℕ) : a / sizeAt 1 = v / sizeAt 1 ↔ v ≤ a ∧ a < v + GiB1 := by
      rw [hsize1]
      unfold GiB1 at *
      omega
    refine ⟨hok, h.overlay ht (fun a ha h1 h2 => ?_) (fun a d ha hr => ?_)
      (fun a d _ h1 h2 _ _ => hlow a h1 h2) fun hg' => ?_⟩
    · have hleaf : leafFor K st'.mem top a 1 = some (mappedWord old pa flags cache GiB1) := by
        have hput1 := hput.leaf a 1 ha
        rwa [if_pos ⟨(hregion a).mpr ⟨h1, h2⟩, Nat.le_refl 1⟩, if_pos rfl] at hput1
      rw [hwTranslate_of_leaf hleaf (by norm_num),
        target_large (Or.inr rfl) hsize1 (o := a - v) ?_ old hpa (by omega)]
      unfold GiB1 at *
      omega
    · rw [hput.leaf a d ha, if_neg (fun hc => hr ((hregion a).mp hc.1))]
    · rw [hg] at hg'
      exact Bool.noConfusion hg'
  | false =>
    have htotal : 512 * MiB2 = GiB1 := rfl
    have hsize2 : sizeAt 2 = MiB2 := rfl
    rw [map_fallback hll hg] at he
    obtain ⟨hok, ht, hput⟩ := mapLoop_spec (isLpage_fallback flags) hv hal rfl (by decide) h.tables
      (fun o ho => h.level hg _ (canonical_add (Or.inr (Or.inr rfl)) hv hal ho)) he
    have hleaf (a : ℕ) (ha : Canonical a) (h1 : v ≤ a) (h2 : a < v + GiB1) :
        ∃ old, leafFor K st'.mem top a 2 = some (mappedWord old (pa + (a - v) / MiB2 * MiB2)
          ((flags &&& ~~~LLPAGE) ||| LPAGE) cache MiB2) := by
      obtain ⟨old, hleaf⟩ := hput.inside a ha h1 (by rw [htotal]; exact h2)
      rw [wrap_of_lt (by unfold GiB1 MiB2 at *; omega)] at hleaf
      exact ⟨old, hleaf⟩
    refine ⟨hok, h.overlay ht (fun a ha h1 h2 => ?_) (fun a d ha hr => ?_)
      (fun a d _ h1 h2 _ _ => hlow a h1 h2) fun _ a ha h1 h2 d hd => ?_⟩
    · obtain ⟨old, hw⟩ := hleaf a ha h1 h2
      rw [hwTranslate_of_leaf hw (by norm_num),
        target_large (Or.inl rfl) hsize2 (o := a % MiB2) rfl old
          (by unfold GiB1 MiB2 at *; omega) (by unfold GiB1 MiB2 at *; omega)]
      congr 1
      unfold GiB1 MiB2 at *
      omega
    · exact hput.outside a d ha (by rw [Nat.add_zero, htotal]; omega)
    · obtain ⟨old, hw⟩ := hleaf a ha h1 h2
      exact leafFor_above hw hd

/-! ## The loops -/

theorem andThen_eq_some {r : Option (Bool × State A)} {f : State A → Option (Bool × State A)}
    {res : Bool × State A} (h : andThen r f = some res) :
    ∃ ok st, r = some (ok, st) ∧ (if ok then f st else some (false, st)) = some res := by
  obtain ⟨⟨ok, st⟩, hr, h⟩ := Option.bind_eq_some_iff.mp h
  exact ⟨ok, st, hr, h⟩

/-- The second evaluation of an asserted `map` changes nothing more. -/
theorem Boots.assertTrue {R : ℕ → ℕ → Prop} (h : Boots K top st R) {size pa : ℕ}
    {x : State A → Option (Bool × State A)}
    (hx : ∀ R st st' ok, Boots K top st R → x st = some (ok, st') →
      ok = true ∧ Boots K top st' (Paging.overlay v size pa R)) {ok : Bool}
    (he : Paging.assertTrue x st = some (ok, st')) :
    ok = true ∧ Boots K top st' (Paging.overlay v size pa R) := by
  obtain ⟨⟨ok1, st1⟩, h1, h2⟩ := Option.bind_eq_some_iff.mp he
  obtain ⟨rfl, hb1⟩ := hx R st st1 ok1 h h1
  simp only [Bool.not_true, Bool.false_eq_true, if_false] at h2
  obtain ⟨⟨ok2, st2⟩, h3, heq⟩ := Option.map_eq_some_iff.mp h2
  simp only [Prod.mk.injEq] at heq
  obtain ⟨rfl, rfl⟩ := heq
  have hb2 := (hx _ st1 st2 ok2 hb1 h3).2
  rw [over_over] at hb2
  exact ⟨rfl, hb2⟩

/-- The physical addresses in `S` appear at their own address and in the direct map. -/
def directMap (off : ℕ) (S : ℕ → Prop) (a x : ℕ) : Prop := S x ∧ (a = x ∨ a = off + x)

theorem over_directMap {h : Hhdm} {S : ℕ → Prop} (hS : ∀ x, S x → x < h.limit) {t size : ℕ}
    (ht : t + size ≤ h.limit) (a x : ℕ) :
    overlay (h.offset + t) size t (overlay t size t (directMap h.offset S)) a x ↔
      directMap h.offset (fun x => S x ∨ t ≤ x ∧ x < t + size) a x := by
  have hlim := h.limit_le
  unfold overlay directMap
  by_cases h1 : h.offset + t ≤ a ∧ a < h.offset + t + size
  · rw [if_pos h1]
    constructor
    · intro hx
      exact ⟨Or.inr (by omega), Or.inr (by omega)⟩
    · rintro ⟨hx, rfl | rfl⟩
      · rcases hx with hx | hx
        · have := hS _ hx
          omega
        · omega
      · omega
  · rw [if_neg h1]
    by_cases h2 : t ≤ a ∧ a < t + size
    · rw [if_pos h2]
      constructor
      · intro hx
        exact ⟨Or.inr (by omega), Or.inl (by omega)⟩
      · rintro ⟨hx, rfl | rfl⟩
        · omega
        · omega
    · rw [if_neg h2]
      constructor
      · rintro ⟨hx, ha⟩
        exact ⟨Or.inl hx, ha⟩
      · rintro ⟨hx, ha⟩
        refine ⟨hx.resolve_right fun hin => ?_, ha⟩
        rcases ha with rfl | rfl
        · exact h2 hin
        · exact h1 (by omega)

/-- Both assertions of a round, given what a single `map` does. -/
theorem Boots.mapBoth {S : ℕ → Prop} (h : Boots K top st (directMap K.hhdm.offset S))
    (hS : ∀ x, S x → x < K.hhdm.limit) {t size : ℕ} (hpos : 0 < size)
    (ht : t + size ≤ K.hhdm.limit) {flags : BitVec 64} {cache : Caching}
    (hmap : ∀ v fl R st st' ok, (v = t ∧ fl = RWX ||| flags ∨
        v = K.hhdm.offset + t ∧ fl = RW ||| flags) →
      Boots K top st R → map K top v t fl cache st = some (ok, st') →
        ok = true ∧ Boots K top st' (Paging.overlay v size t R)) {ok : Bool}
    (he : mapBoth K top t flags cache st = some (ok, st')) :
    ok = true ∧ Boots K top st'
      (directMap K.hhdm.offset fun x => S x ∨ t ≤ x ∧ x < t + size) := by
  obtain ⟨ok1, st1, h1, h2⟩ := andThen_eq_some he
  obtain ⟨rfl, hb1⟩ := h.assertTrue (fun R st st' ok => hmap _ _ R st st' ok (Or.inl ⟨rfl, rfl⟩)) h1
  rw [if_pos rfl, K.hhdm.tohh_eq (by omega)] at h2
  obtain ⟨rfl, hb2⟩ := hb1.assertTrue
    (fun R st st' ok => hmap _ _ R st st' ok (Or.inr ⟨rfl, rfl⟩)) h2
  exact ⟨rfl, hb2.congr fun a x _ => over_directMap hS ht a x⟩

/-- The bytes the third loop maps: whole pages. -/
def KernelImage.span (image : KernelImage) : ℕ := (image.size + (KiB4 - 1)) / KiB4 * KiB4

/-- What Limine promises: a direct map at a 1 GiB boundary of the upper half that reaches over the
first 4 GiB and the memory map, and a page-aligned image in a window of its own. -/
structure BootInfo (K : Machine A) (entries : List MemmapEntry) (image : KernelImage) : Prop where
  upper : 0xFFFF800000000000 ≤ K.hhdm.offset
  aligned : K.hhdm.offset % GiB1 = 0
  wholePages : K.hhdm.limit % KiB4 = 0
  low : GiB4 ≤ K.hhdm.limit
  inside : ∀ e ∈ entries, e.base + e.length ≤ K.hhdm.limit
  imageAligned : image.virtualBase % KiB4 = 0 ∧ image.physicalBase % KiB4 = 0
  imageFrames : image.physicalBase + image.span ≤ 2 ^ 52
  imageCanonical : ∀ i < image.span, Canonical (image.virtualBase + i)
  imageApart : ∀ i < image.span, K.hhdm.limit ≤ image.virtualBase + i ∧
    ¬ (K.hhdm.offset ≤ image.virtualBase + i ∧
      image.virtualBase + i < K.hhdm.offset + K.hhdm.limit)

section Loops

variable {entries : List MemmapEntry} {image : KernelImage}

theorem BootInfo.canonical (hb : BootInfo K entries image) {x : ℕ} (hx : x < K.hhdm.limit) :
    Canonical x ∧ Canonical (K.hhdm.offset + x) := by
  have hup := hb.upper
  have htop := K.hhdm.top_le
  simp only [Canonical, isCanonical, Bool.or_eq_true, decide_eq_true_eq]
  omega

theorem BootInfo.not_inLow (hb : BootInfo K entries image) {x : ℕ} (hx : x < K.hhdm.limit)
    (hge : GiB4 ≤ x) : ¬ InLow K x ∧ ¬ InLow K (K.hhdm.offset + x) := by
  have hlim := K.hhdm.limit_le
  have hlow := hb.low
  unfold InLow
  omega

theorem llpage_flags : getFlags (RWX ||| LLPAGE) LLPAGE = true ∧
    getFlags (RW ||| LLPAGE) LLPAGE = true := by
  decide

theorem small_flags : isLpage (RWX ||| 0) = false ∧ isLpage (RW ||| 0) = false := by
  decide

theorem Boots.mapLow (hb : BootInfo K entries image) {n i : ℕ} (hi : i % GiB1 = 0)
    (hin : i + n * GiB1 ≤ GiB4)
    (h : Boots K top st (directMap K.hhdm.offset fun x => x < i)) {ok : Bool}
    (he : mapLow K top GiB1 LLPAGE n i st = some (ok, st')) :
    ok = true ∧ Boots K top st' (directMap K.hhdm.offset fun x => x < i + n * GiB1) := by
  induction n generalizing i st with
  | zero =>
    simp only [Paging.mapLow, Option.some.injEq, Prod.mk.injEq] at he
    obtain ⟨rfl, rfl⟩ := he
    rw [Nat.zero_mul, Nat.add_zero]
    exact ⟨rfl, h⟩
  | succ n ih =>
    have hlow := hb.low
    have hmul : (n + 1) * GiB1 = GiB1 + n * GiB1 := by rw [Nat.succ_mul, Nat.add_comm]
    have hG : 0 < GiB1 := by decide
    have h4 : GiB4 + GiB1 ≤ 2 ^ 52 := by decide
    obtain ⟨hci, hco⟩ := hb.canonical (x := i) (by omega)
    obtain ⟨ok1, st1, h1, h2⟩ := andThen_eq_some he
    obtain ⟨rfl, hb1⟩ := h.mapBoth (fun x hx => by omega) hG (by omega)
      (fun v fl R s s' ok hv hR hm => by
        rcases hv with ⟨rfl, rfl⟩ | ⟨rfl, rfl⟩
        · exact hR.mapLarge llpage_flags.1 hci hi (fun a _ h4 => Or.inl (by omega)) hi (by omega) hm
        · refine hR.mapLarge llpage_flags.2 hco ?_ (fun a h3 h4 => Or.inr (by omega)) hi (by omega) hm
          have hal := hb.aligned
          unfold GiB1 at *
          omega) h1
    rw [if_pos rfl] at h2
    have hnext : Boots K top st1 (directMap K.hhdm.offset fun x => x < i + GiB1) :=
      hb1.congr fun a x _ => and_congr_left' (by omega)
    rw [hmul, ← Nat.add_assoc]
    refine ih ?_ (by omega) hnext h2
    rw [Nat.add_mod_right, hi]

/-- Entry by entry, page by page: the bytes of whole pages that an entry touches. -/
def Covers (e : MemmapEntry) (x : ℕ) : Prop :=
  e.base / KiB4 * KiB4 ≤ x ∧ x < (e.base + e.length + (KiB4 - 1)) / KiB4 * KiB4

theorem Boots.mapEntryLoop (hb : BootInfo K entries image) {S : ℕ → Prop} {cache : Caching}
    {n t : ℕ} (ht : t % KiB4 = 0) (htn : t + n * KiB4 ≤ K.hhdm.limit)
    (hS : ∀ x, S x → x < K.hhdm.limit) (hlow : ∀ x < GiB4, S x)
    (h : Boots K top st (directMap K.hhdm.offset S)) {ok : Bool}
    (he : mapEntryLoop K top cache n t st = some (ok, st')) :
    ok = true ∧ Boots K top st'
      (directMap K.hhdm.offset fun x => S x ∨ t ≤ x ∧ x < t + n * KiB4) := by
  induction n generalizing t S st with
  | zero =>
    simp only [Paging.mapEntryLoop, Option.some.injEq, Prod.mk.injEq] at he
    obtain ⟨rfl, rfl⟩ := he
    exact ⟨rfl, h.congr fun a x _ =>
      and_congr_left' ⟨Or.inl, fun hx => hx.resolve_right (by omega)⟩⟩
  | succ n ih =>
    have hmul : (n + 1) * KiB4 = KiB4 + n * KiB4 := by rw [Nat.succ_mul, Nat.add_comm]
    have hpos : 0 < KiB4 := by decide
    have ht1 : (t + KiB4) % KiB4 = 0 := by rw [Nat.add_mod_right, ht]
    have hmerge (x : ℕ) : (S x ∨ t ≤ x ∧ x < t + KiB4) ∨ t + KiB4 ≤ x ∧ x < t + KiB4 + n * KiB4 ↔
        S x ∨ t ≤ x ∧ x < t + (n + 1) * KiB4 := by
      rw [or_assoc]
      exact or_congr_right (by omega)
    have hS1 : ∀ x, (S x ∨ t ≤ x ∧ x < t + KiB4) → x < K.hhdm.limit := fun x hx =>
      hx.elim (hS x) fun h => by omega
    have hlow1 : ∀ x < GiB4, S x ∨ t ≤ x ∧ x < t + KiB4 := fun x hx => Or.inl (hlow x hx)
    rw [Paging.mapEntryLoop] at he
    by_cases hskip : t < GiB4
    · -- a page of the low part is mapped already
      rw [if_pos hskip] at he
      have hsame : Boots K top st
          (directMap K.hhdm.offset fun x => S x ∨ t ≤ x ∧ x < t + KiB4) := by
        refine h.congr fun a x _ => and_congr_left' ⟨Or.inl, fun hx => hx.elim id fun hin => ?_⟩
        apply hlow
        unfold GiB4 GiB1 KiB4 at *
        omega
      obtain ⟨hok, hres⟩ := ih ht1 (by omega) hS1 hlow1 hsame he
      exact ⟨hok, hres.congr fun a x _ => and_congr_left' (hmerge x)⟩
    · rw [if_neg hskip] at he
      have hlt : t < K.hhdm.limit := by omega
      obtain ⟨hct, hco⟩ := hb.canonical hlt
      obtain ⟨hnl, hno⟩ := hb.not_inLow hlt (by omega)
      have h52 : t < 2 ^ 52 := by
        have hup := hb.upper
        have htop := K.hhdm.top_le
        omega
      obtain ⟨ok1, st1, h1, h2⟩ := andThen_eq_some he
      obtain ⟨rfl, hb1⟩ := h.mapBoth hS hpos (by omega)
        (fun v fl R s s' ok hv hR hm => by
          rcases hv with ⟨rfl, rfl⟩ | ⟨rfl, rfl⟩
          · exact hR.mapSmall small_flags.1 hct ht hnl ht h52 hm
          · refine hR.mapSmall small_flags.2 hco ?_ hno ht h52 hm
            have hal := hb.aligned
            unfold GiB1 KiB4 at *
            omega) h1
      rw [if_pos rfl] at h2
      obtain ⟨hok, hres⟩ := ih ht1 (by omega) hS1 hlow1 hb1 h2
      exact ⟨hok, hres.congr fun a x _ => and_congr_left' (hmerge x)⟩

theorem entry_bounds (hb : BootInfo K entries image) {e : MemmapEntry} (he : e ∈ entries) :
    entryBase e = e.base / KiB4 * KiB4 ∧
      entryTop e = (e.base + e.length + (KiB4 - 1)) / KiB4 * KiB4 ∧
      entryTop e ≤ K.hhdm.limit := by
  have hin := hb.inside e he
  have hup := hb.upper
  have htop := K.hhdm.top_le
  have hwhole := hb.wholePages
  have h1 : entryBase e = e.base / KiB4 * KiB4 := alignDown_page (by omega)
  have h2 : entryTop e = (e.base + e.length + (KiB4 - 1)) / KiB4 * KiB4 := by
    rw [entryTop, wrap_of_lt (by omega)]
    exact alignUp_page (by omega)
  refine ⟨h1, h2, ?_⟩
  rw [h2]
  unfold KiB4 at *
  omega

theorem Boots.mapEntry (hb : BootInfo K entries image) {S : ℕ → Prop} {e : MemmapEntry}
    (hmem : e ∈ entries) (hS : ∀ x, S x → x < K.hhdm.limit) (hlow : ∀ x < GiB4, S x)
    (h : Boots K top st (directMap K.hhdm.offset S)) {ok : Bool}
    (he : mapEntry K top e st = some (ok, st')) :
    ok = true ∧ Boots K top st' (directMap K.hhdm.offset fun x => S x ∨ Covers e x) := by
  obtain ⟨hbase, htop, hlim⟩ := entry_bounds hb hmem
  have hcov (x : ℕ) : Covers e x ↔ entryBase e ≤ x ∧ x < entryTop e := by rw [Covers, hbase, htop]
  rw [Paging.mapEntry] at he
  by_cases hskip : entryTop e < GiB4
  · rw [if_pos hskip, Option.some.injEq, Prod.mk.injEq] at he
    obtain ⟨rfl, rfl⟩ := he
    refine ⟨rfl, h.congr fun a x _ => and_congr_left' ⟨Or.inl, fun hx => hx.elim id fun hc => ?_⟩⟩
    rw [hcov] at hc
    exact hlow x (by omega)
  · rw [if_neg hskip] at he
    have hspan : entryBase e + (entryTop e - entryBase e + (KiB4 - 1)) / KiB4 * KiB4 =
        entryTop e := by
      rw [hbase, htop]
      unfold KiB4
      omega
    have hal : entryBase e % KiB4 = 0 := by
      rw [hbase]
      exact Nat.mul_mod_left _ _
    obtain ⟨hok, hres⟩ := Boots.mapEntryLoop hb hal (by rw [hspan]; exact hlim) hS hlow h he
    rw [hspan] at hres
    exact ⟨hok, hres.congr fun a x _ => and_congr_left' (or_congr_right (hcov x).symm)⟩

theorem Boots.mapEntries (hb : BootInfo K entries image) {S : ℕ → Prop} {es : List MemmapEntry}
    (hsub : ∀ e ∈ es, e ∈ entries) (hS : ∀ x, S x → x < K.hhdm.limit) (hlow : ∀ x < GiB4, S x)
    (h : Boots K top st (directMap K.hhdm.offset S)) {ok : Bool}
    (he : mapEntries K top es st = some (ok, st')) :
    ok = true ∧ Boots K top st'
      (directMap K.hhdm.offset fun x => S x ∨ ∃ e ∈ es, Covers e x) := by
  induction es generalizing S st with
  | nil =>
    simp only [Paging.mapEntries, Option.some.injEq, Prod.mk.injEq] at he
    obtain ⟨rfl, rfl⟩ := he
    exact ⟨rfl, h.congr fun a x _ => and_congr_left' (by simp)⟩
  | cons e es ih =>
    obtain ⟨ok1, st1, h1, h2⟩ := andThen_eq_some he
    have hmem := hsub e List.mem_cons_self
    obtain ⟨rfl, hb1⟩ := h.mapEntry hb hmem hS hlow h1
    rw [if_pos rfl] at h2
    obtain ⟨-, htop, hlim⟩ := entry_bounds hb hmem
    obtain ⟨hok, hres⟩ := ih (fun f hf => hsub f (List.mem_cons_of_mem _ hf))
      (fun x hx => hx.elim (hS x) fun hc => by rw [Covers, ← htop] at hc; omega)
      (fun x hx => Or.inl (hlow x hx)) hb1 h2
    exact ⟨hok, hres.congr fun a x _ => and_congr_left' (by simp [or_assoc])⟩

/-- The first `n` pages of the image. -/
theorem Boots.mapImage (hb : BootInfo K entries image) {R : ℕ → ℕ → Prop} {n i : ℕ}
    (hi : i % KiB4 = 0) (hin : i + n * KiB4 = image.span) (h : Boots K top st R) {ok : Bool}
    (he : mapImage K top image n i st = some (ok, st')) :
    ok = true ∧ Boots K top st'
      (Paging.overlay (image.virtualBase + i) (n * KiB4) (image.physicalBase + i) R) := by
  induction n generalizing i R st with
  | zero =>
    simp only [Paging.mapImage, Option.some.injEq, Prod.mk.injEq] at he
    obtain ⟨rfl, rfl⟩ := he
    refine ⟨rfl, h.congr fun a x _ => ?_⟩
    rw [Paging.overlay, if_neg (by omega)]
  | succ n ih =>
    have hmul : (n + 1) * KiB4 = KiB4 + n * KiB4 := by rw [Nat.succ_mul, Nat.add_comm]
    have hpos : 0 < KiB4 := by decide
    have hlt : i < image.span := by omega
    have hcan := hb.imageCanonical i hlt
    have hframe := hb.imageFrames
    obtain ⟨hal, hpal⟩ := hb.imageAligned
    obtain ⟨hapart, hapart'⟩ := hb.imageApart i hlt
    have hlow := hb.low
    obtain ⟨ok1, st1, h1, h2⟩ := andThen_eq_some he
    rw [wrap_of_lt hcan.2, wrap_of_lt (by omega)] at h1
    obtain ⟨rfl, hb1⟩ := h.assertTrue (fun R s s' ok hR hm =>
      hR.mapSmall (by decide) hcan (by unfold KiB4 at *; omega)
        (by unfold InLow; omega) (by unfold KiB4 at *; omega) (by omega) hm) h1
    rw [if_pos rfl] at h2
    obtain ⟨hok, hres⟩ := ih (by rw [Nat.add_mod_right, hi]) (by omega) hb1 h2
    refine ⟨hok, hres.congr fun a x _ => ?_⟩
    unfold Paging.overlay
    by_cases h3 : image.virtualBase + i ≤ a ∧ a < image.virtualBase + i + (n + 1) * KiB4
    · rw [if_pos h3]
      split_ifs <;> omega
    · rw [if_neg h3, if_neg (by omega), if_neg (by omega)]

/-! ## After `init` -/

/-- What `init` maps to which physical address, and nothing else. -/
def bootMap (K : Machine A) (entries : List MemmapEntry) (image : KernelImage) : ℕ → ℕ → Prop :=
  overlay image.virtualBase image.span image.physicalBase
    (directMap K.hhdm.offset fun x => x < GiB4 ∨ ∃ e ∈ entries, Covers e x)

theorem init_boots (hb : BootInfo K entries image) {mem : Mem} {heap : A} {ok : Bool}
    (he : init K entries image (start mem heap) = some (top, ok, st)) :
    ok = true ∧ Boots K top st (bootMap K entries image) := by
  obtain ⟨⟨q, st0⟩, h0, h1⟩ := Option.bind_eq_some_iff.mp he
  have hreq : requiredSize (GiB1 * 4) = (GiB1, LLPAGE) := by decide
  have hrounds : (GiB1 * 4 + (GiB1 - 1)) / GiB1 = 4 := by decide
  simp only [hreq, hrounds] at h1
  obtain ⟨⟨ok', st'⟩, h2, heq⟩ := Option.map_eq_some_iff.mp h1
  simp only [Prod.mk.injEq] at heq
  obtain ⟨rfl, rfl, rfl⟩ := heq
  obtain ⟨ht, hnone⟩ := construct_spec h0
  have hstart : Boots K q st0 (directMap K.hhdm.offset fun x => x < 0) := by
    refine ⟨ht, fun a x _ => ?_, fun a d _ _ hne => absurd (hnone a d) hne, fun _ a _ d _ => hnone a d⟩
    rw [hwTranslate_eq_none.mpr fun d _ => hnone a d]
    simp [directMap]
  have hfour : 0 + 4 * GiB1 = GiB4 := rfl
  obtain ⟨ok1, st1, h3, h4⟩ := andThen_eq_some h2
  obtain ⟨rfl, hb1⟩ := hstart.mapLow hb rfl (by rw [hfour]) h3
  rw [hfour] at hb1
  rw [if_pos rfl] at h4
  obtain ⟨ok2, st2, h5, h6⟩ := andThen_eq_some h4
  obtain ⟨rfl, hb2⟩ := hb1.mapEntries hb (fun e he => he)
    (fun x hx => by have := hb.low; omega) (fun x hx => hx) h5
  rw [if_pos rfl] at h6
  exact hb2.mapImage hb rfl (Nat.zero_add _) h6

/-- An address the direct map is to show, outside the image. -/
theorem bootMap_direct (hb : BootInfo K entries image) {x : ℕ}
    (hx : x < GiB4 ∨ ∃ e ∈ entries, Covers e x) :
    x < K.hhdm.limit ∧ bootMap K entries image x x ∧
      bootMap K entries image (K.hhdm.offset + x) x := by
  have hlt : x < K.hhdm.limit := by
    rcases hx with hx | ⟨e, he, hc⟩
    · have := hb.low
      omega
    · obtain ⟨-, htop, hlim⟩ := entry_bounds hb he
      rw [Covers, ← htop] at hc
      omega
  have hout (a : ℕ) (ha : a < K.hhdm.limit ∨
      K.hhdm.offset ≤ a ∧ a < K.hhdm.offset + K.hhdm.limit) :
      ¬ (image.virtualBase ≤ a ∧ a < image.virtualBase + image.span) := by
    rintro ⟨h1, h2⟩
    have hap := hb.imageApart (a - image.virtualBase) (by omega)
    rw [Nat.add_sub_cancel' h1] at hap
    omega
  refine ⟨hlt, ?_, ?_⟩
  · rw [bootMap, overlay, if_neg (hout x (Or.inl hlt))]
    exact ⟨hx, Or.inl rfl⟩
  · rw [bootMap, overlay, if_neg (hout _ (Or.inr (by omega)))]
    exact ⟨hx, Or.inr rfl⟩

/-- The boot page tables show the first 4 GiB and every entry of the memory map at their own
addresses and in the direct map, and the kernel image at its place. -/
theorem boot_tables_cover (K : Machine A) (hb : BootInfo K entries image) {mem : Mem} {heap : A}
    {ok : Bool} (he : init K entries image (start mem heap) = some (top, ok, st)) :
    ok = true ∧
    (∀ x, (x < GiB4 ∨ ∃ e ∈ entries, e.base ≤ x ∧ x < e.base + e.length) →
      hwTranslate K st.mem top x = some x ∧
        hwTranslate K st.mem top (K.hhdm.offset + x) = some x) ∧
    ∀ i < image.size,
      hwTranslate K st.mem top (image.virtualBase + i) = some (image.physicalBase + i) := by
  obtain ⟨hok, hboot⟩ := init_boots hb he
  refine ⟨hok, fun x hx => ?_, fun i hi => ?_⟩
  · have hcov : x < GiB4 ∨ ∃ e ∈ entries, Covers e x := by
      refine hx.imp_right fun ⟨e, hmem, h1, h2⟩ => ⟨e, hmem, ?_⟩
      unfold Covers KiB4
      omega
    obtain ⟨hlt, hid, hdir⟩ := bootMap_direct hb hcov
    obtain ⟨hc1, hc2⟩ := hb.canonical hlt
    exact ⟨(hboot.translate x x hc1).mpr hid, (hboot.translate _ x hc2).mpr hdir⟩
  · have hspan : i < image.span := by
      unfold KernelImage.span KiB4
      omega
    rw [hboot.translate _ _ (hb.imageCanonical i hspan), bootMap, overlay,
      if_pos ⟨Nat.le_add_right _ _, by omega⟩, Nat.add_sub_cancel_left]

end Loops

/-! ## A small machine -/

/-- A page of usable memory at 4 GiB, and a framebuffer below. -/
def highMap : List MemmapEntry :=
  [⟨0xfd000000, 0x1000, .framebuffer⟩, ⟨0x100000000, 0x2000, .usable⟩]

def smallImage : KernelImage := ⟨0x200000, 0xffffffff80000000, 0x1800⟩

theorem highMap_boot : BootInfo (orderedMachine true) highMap smallImage where
  upper := by decide
  aligned := by decide
  wholePages := by decide
  low := by decide
  inside := by decide
  imageAligned := by decide
  imageFrames := by decide
  imageCanonical i hi := by
    have hspan : smallImage.span = 0x2000 := rfl
    have hbase : smallImage.virtualBase = 0xffffffff80000000 := rfl
    simp only [Canonical, isCanonical, Bool.or_eq_true, decide_eq_true_eq]
    omega
  imageApart i hi := by
    have hoff : (orderedMachine true).hhdm.offset = 0xffff800000000000 := rfl
    have hlim : (orderedMachine true).hhdm.limit = 0x400000000000 := rfl
    have hbase : smallImage.virtualBase = 0xffffffff80000000 := rfl
    omega

theorem boot_tables_cover_small :
    ∃ top st, init (orderedMachine true) highMap smallImage (start (fun _ _ => 0#64) 1) =
        some (top, true, st) ∧
      hwTranslate (orderedMachine true) st.mem top 0xffff800100001234 = some 0x100001234 ∧
      hwTranslate (orderedMachine true) st.mem top 0xffffffff80001234 = some 0x201234 := by
  have hsome : (init (orderedMachine true) highMap smallImage
      (start (fun _ _ => 0#64) 1)).isSome = true := by
    decide +kernel
  obtain ⟨⟨top, ok, st⟩, he⟩ := Option.isSome_iff_exists.mp hsome
  obtain ⟨rfl, hcover, himage⟩ := boot_tables_cover (orderedMachine true) highMap_boot he
  exact ⟨top, st, he, (hcover 0x100001234 (Or.inr ⟨_, List.mem_cons_of_mem _ List.mem_cons_self,
    by decide, by decide⟩)).2, himage 0x1234 (by decide)⟩

end IceKernel.Paging
