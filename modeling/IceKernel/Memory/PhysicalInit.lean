import IceKernel.Memory.Physical

/-!
# `physical::init`: the bitmap set-up

Three passes over the Limine memory map: the totals, the place of the bitmap
inside the first usable entry that is long enough, and the pages set free.
-/

namespace IceKernel

/-- The `LIMINE_MEMMAP_*` entry types. -/
inductive MemmapType where
  | usable | reserved | acpiReclaimable | acpiNvs | badMemory
  | bootloaderReclaimable | kernelAndModules | framebuffer
  deriving DecidableEq, Repr

/-- `limine_memmap_entry`. -/
structure MemmapEntry where
  base : ℕ
  length : ℕ
  type : MemmapType
  deriving DecidableEq, Repr

namespace MemmapEntry

/-- Page `q` of physical memory starts inside the usable entry `e`. -/
def HasPage (e : MemmapEntry) (q : ℕ) : Prop :=
  e.type = .usable ∧ e.base ≤ q * pageSize ∧ q * pageSize < e.base + e.length

end MemmapEntry

namespace Physical
open Word64

/-- The body of the first loop of `init`. -/
def countEntry (s : State) (e : MemmapEntry) : State :=
  let top := wrap (e.base + e.length)
  let s := { s with memTop := max s.memTop top }
  if e.type = .usable then
    { s with
      usableMemory := wrap (s.usableMemory + e.length)
      totalMemory := wrap (s.totalMemory + e.length)
      memUsableTop := max s.memUsableTop top }
  else s

/-- `mem_usable_top` after the first loop. -/
def usableTop (entries : List MemmapEntry) : ℕ := (entries.foldl countEntry {}).memUsableTop

/-- The local `bitmap_size`. -/
def bitmapSizeFor (memUsableTop : ℕ) : ℕ := alignUp (memUsableTop / pageSize / 8) pageSize

/-- The second loop: the first usable entry of at least `size` bytes gives up its first `size`
bytes, and the whole bitmap is set. -/
def placeBitmap (hhdmOffset size : ℕ) : List MemmapEntry → State → List MemmapEntry × State
  | [], s => ([], s)
  | e :: es, s =>
    if e.type = .usable ∧ size ≤ e.length then
      ({ e with length := sub e.length size, base := wrap (e.base + size) } :: es,
        { s with
          bitmapBuffer := tohh hhdmOffset e.base
          bitmapSize := size
          bits := fun _ => true
          usedMemory := wrap (s.usedMemory + size) })
    else
      let (es', s') := placeBitmap hhdmOffset size es s
      (e :: es', s')

/-- The inner loop of the third pass, after its first `n` rounds. -/
def clearEntryLoop (base : ℕ) (s : State) : ℕ → State
  | 0 => s
  | n + 1 => (clearEntryLoop base s n).set (wrap (base + n * pageSize) / pageSize) false

/-- The body of the third loop: `t` takes the multiples of `page_size` below `length`. -/
def clearEntry (s : State) (e : MemmapEntry) : State :=
  if e.type = .usable then clearEntryLoop e.base s ((e.length + (pageSize - 1)) / pageSize)
  else s

/-- `physical::init` up to `allocator.initialize()`, with the memory map it leaves behind. -/
def init (hhdmOffset : ℕ) (entries : List MemmapEntry) : List MemmapEntry × State :=
  let s := entries.foldl countEntry {}
  let bitmapSize := bitmapSizeFor s.memUsableTop
  let (entries, s) := placeBitmap hhdmOffset bitmapSize entries s
  let s := entries.foldl clearEntry s
  (entries, { s with memTop := alignUp s.memTop 0x40000000 })

/-- What Limine promises of the usable entries, and that one of them can hold the bitmap. -/
structure ValidMemmap (entries : List MemmapEntry) : Prop where
  aligned : ∀ e ∈ entries, e.type = .usable →
    e.base % pageSize = 0 ∧ e.length % pageSize = 0
  noWrap : ∀ e ∈ entries, e.type = .usable → e.base + e.length < 2 ^ 64
  disjoint : entries.Pairwise fun e f => ∀ q, ¬ (e.HasPage q ∧ f.HasPage q)
  room : ∃ e ∈ entries, e.type = .usable ∧ bitmapSizeFor (usableTop entries) ≤ e.length

/-- No usable entry contains page 0. -/
def NoPageZero (entries : List MemmapEntry) : Prop := ∀ e ∈ entries, ¬ e.HasPage 0

/-! ## The totals -/

theorem countEntry_memUsableTop (s : State) (e : MemmapEntry) :
    (countEntry s e).memUsableTop =
      if e.type = .usable then max s.memUsableTop (wrap (e.base + e.length))
      else s.memUsableTop := by
  by_cases h : e.type = .usable <;> simp [countEntry, h]

/-- The first loop only touches the totals. -/
theorem foldl_countEntry_frame (es : List MemmapEntry) (s : State) :
    (es.foldl countEntry s).lastIndex = s.lastIndex ∧
      (es.foldl countEntry s).touched = s.touched ∧
      (es.foldl countEntry s).usedMemory = s.usedMemory := by
  induction es generalizing s with
  | nil => exact ⟨rfl, rfl, rfl⟩
  | cons e es ih =>
    obtain ⟨h1, h2, h3⟩ := ih (countEntry s e)
    rw [List.foldl_cons, h1, h2, h3]
    by_cases h : e.type = .usable <;> simp [countEntry, h]

theorem le_foldl_memUsableTop (es : List MemmapEntry) (s : State) :
    s.memUsableTop ≤ (es.foldl countEntry s).memUsableTop ∧
      ∀ e ∈ es, e.type = .usable →
        wrap (e.base + e.length) ≤ (es.foldl countEntry s).memUsableTop := by
  induction es generalizing s with
  | nil => exact ⟨le_refl _, fun e he => absurd he (List.not_mem_nil)⟩
  | cons e es ih =>
    obtain ⟨h1, h2⟩ := ih (countEntry s e)
    rw [countEntry_memUsableTop] at h1
    rw [List.foldl_cons]
    constructor
    · split_ifs at h1 <;> omega
    · intro f hf hu
      rcases List.mem_cons.mp hf with rfl | hf
      · rw [if_pos hu] at h1
        omega
      · exact h2 f hf hu

theorem foldl_memUsableTop_lt (es : List MemmapEntry) (s : State)
    (h : s.memUsableTop < 2 ^ 64) : (es.foldl countEntry s).memUsableTop < 2 ^ 64 := by
  induction es generalizing s with
  | nil => exact h
  | cons e es ih =>
    apply ih
    rw [countEntry_memUsableTop]
    have := wrap_lt (e.base + e.length)
    split_ifs <;> omega

theorem usableTop_lt (entries : List MemmapEntry) : usableTop entries < 2 ^ 64 :=
  foldl_memUsableTop_lt entries {} (by norm_num)

/-- Every usable page lies below the top. -/
theorem ValidMemmap.page_lt {entries : List MemmapEntry} (hv : ValidMemmap entries)
    {e : MemmapEntry} (he : e ∈ entries) {q : ℕ} (hq : e.HasPage q) :
    q < usableTop entries / pageSize := by
  obtain ⟨hu, hlo, hhi⟩ := hq
  have htop := (le_foldl_memUsableTop entries {}).2 e he hu
  rw [wrap_of_lt (hv.noWrap e he hu)] at htop
  have hal := hv.aligned e he hu
  change e.base + e.length ≤ usableTop entries at htop
  unfold pageSize at *
  omega

/-- The bitmap, in bytes: the truncated byte count rounded up to whole pages. -/
theorem bitmapSizeFor_eq {top : ℕ} (h : top < 2 ^ 64) :
    bitmapSizeFor top = (top / 4096 / 8 + 4095) / 4096 * 4096 :=
  alignUp_page (by unfold pageSize; omega)

/-! ## The place of the bitmap -/

/-- Where the bitmap went: the entry that was split, and what became of the map and the state. -/
theorem placeBitmap_cases (off size : ℕ) (es : List MemmapEntry) (s : State)
    (h : ∃ e ∈ es, e.type = .usable ∧ size ≤ e.length) :
    ∃ pre e post, es = pre ++ e :: post ∧ e.type = .usable ∧ size ≤ e.length ∧
      placeBitmap off size es s =
        (pre ++ { e with length := sub e.length size, base := wrap (e.base + size) } :: post,
          { s with
            bitmapBuffer := tohh off e.base
            bitmapSize := size
            bits := fun _ => true
            usedMemory := wrap (s.usedMemory + size) }) := by
  induction es with
  | nil =>
    obtain ⟨e, he, -⟩ := h
    exact absurd he (List.not_mem_nil)
  | cons f es ih =>
    by_cases hf : f.type = .usable ∧ size ≤ f.length
    · refine ⟨[], f, es, rfl, hf.1, hf.2, ?_⟩
      simp only [placeBitmap, if_pos hf, List.nil_append]
    · obtain ⟨e, he, hu, hl⟩ := h
      have he' : e ∈ es := by
        rcases List.mem_cons.mp he with rfl | he
        · exact absurd ⟨hu, hl⟩ hf
        · exact he
      obtain ⟨pre, e, post, rfl, hu, hl, hp⟩ := ih ⟨e, he', hu, hl⟩
      refine ⟨f :: pre, e, post, rfl, hu, hl, ?_⟩
      simp only [placeBitmap, if_neg hf, hp, List.cons_append]

/-! ## The pages set free -/

theorem clearEntryLoop_bits {base n : ℕ} (s : State) (hb : base % pageSize = 0)
    (hw : base + n * pageSize ≤ 2 ^ 64) (q : ℕ) :
    ((clearEntryLoop base s n).bits q =
      if base / pageSize ≤ q ∧ q < base / pageSize + n then false else s.bits q) ∧
    (q ∈ (clearEntryLoop base s n).touched ↔
      (base / pageSize ≤ q ∧ q < base / pageSize + n) ∨ q ∈ s.touched) := by
  induction n with
  | zero =>
    have h : ¬ (base / pageSize ≤ q ∧ q < base / pageSize + 0) := by omega
    simp only [clearEntryLoop, h, if_false, false_or, and_self]
  | succ n ih =>
    have hps : pageSize = 4096 := rfl
    have hidx : wrap (base + n * pageSize) / pageSize = base / pageSize + n := by
      rw [hps] at hb hw ⊢
      rw [wrap_of_lt (by omega)]
      omega
    obtain ⟨ih1, ih2⟩ := ih ((Nat.add_le_add_left (Nat.mul_le_mul_right _ n.le_succ) _).trans hw)
    simp only [clearEntryLoop, State.set, hidx, List.mem_cons, ih2]
    by_cases hq : q = base / pageSize + n
    · rw [hq, Function.update_self, if_pos (by omega)]
      exact ⟨rfl, by simp⟩
    · rw [Function.update_of_ne hq, ih1]
      simp only [hq, false_or]
      exact ⟨if_congr (by omega) rfl rfl, or_congr_left (by omega)⟩

theorem clearEntryLoop_frame (base n : ℕ) (s : State) :
    (clearEntryLoop base s n).fixed = s.fixed ∧
      (clearEntryLoop base s n).lastIndex = s.lastIndex := by
  induction n with
  | zero => exact ⟨rfl, rfl⟩
  | succ n ih => exact ih

/-- One entry: its pages, and no others, become clear and are handed to `bitmap.set`. -/
theorem clearEntry_spec (s : State) {e : MemmapEntry}
    (hal : e.type = .usable → e.base % pageSize = 0 ∧ e.length % pageSize = 0)
    (hw : e.type = .usable → e.base + e.length < 2 ^ 64) (q : ℕ) :
    ((clearEntry s e).bits q = false ↔ e.HasPage q ∨ s.bits q = false) ∧
      (q ∈ (clearEntry s e).touched ↔ e.HasPage q ∨ q ∈ s.touched) := by
  unfold clearEntry
  by_cases hu : e.type = .usable
  · have hps : pageSize = 4096 := rfl
    obtain ⟨hb, hl⟩ := hal hu
    have hn : (e.length + (pageSize - 1)) / pageSize * pageSize = e.length := by
      rw [hps] at hl ⊢
      omega
    have hpage : (e.base / pageSize ≤ q ∧
        q < e.base / pageSize + (e.length + (pageSize - 1)) / pageSize) ↔ e.HasPage q := by
      simp only [MemmapEntry.HasPage, hu, true_and]
      rw [hps] at hb hl hn ⊢
      omega
    obtain ⟨h1, h2⟩ := clearEntryLoop_bits s hb (by rw [hn]; exact (hw hu).le) q
    rw [if_pos hu, h1, h2]
    by_cases hp : e.HasPage q
    · simp [hpage.mpr hp, hp]
    · simp only [hpage, hp, if_false, false_or, and_self]
  · have hp : ¬ e.HasPage q := fun h => hu h.1
    simp [hu, hp]

theorem foldl_clearEntry_spec (es : List MemmapEntry) (s : State)
    (hal : ∀ e ∈ es, e.type = .usable → e.base % pageSize = 0 ∧ e.length % pageSize = 0)
    (hw : ∀ e ∈ es, e.type = .usable → e.base + e.length < 2 ^ 64) (q : ℕ) :
    ((es.foldl clearEntry s).bits q = false ↔ (∃ e ∈ es, e.HasPage q) ∨ s.bits q = false) ∧
      (q ∈ (es.foldl clearEntry s).touched ↔ (∃ e ∈ es, e.HasPage q) ∨ q ∈ s.touched) := by
  induction es generalizing s with
  | nil => simp
  | cons e es ih =>
    obtain ⟨h1, h2⟩ := ih (clearEntry s e) (fun f hf => hal f (List.mem_cons_of_mem _ hf))
      (fun f hf => hw f (List.mem_cons_of_mem _ hf))
    obtain ⟨h3, h4⟩ := clearEntry_spec s (hal e List.mem_cons_self) (hw e List.mem_cons_self) q
    rw [List.foldl_cons, h1, h2, h3, h4]
    simp only [List.mem_cons, exists_eq_or_imp]
    exact ⟨by rw [or_assoc, or_left_comm], by rw [or_assoc, or_left_comm]⟩

theorem foldl_clearEntry_frame (es : List MemmapEntry) (s : State) :
    (es.foldl clearEntry s).fixed = s.fixed ∧
      (es.foldl clearEntry s).lastIndex = s.lastIndex := by
  induction es generalizing s with
  | nil => exact ⟨rfl, rfl⟩
  | cons e es ih =>
    obtain ⟨h1, h2⟩ := ih (clearEntry s e)
    rw [List.foldl_cons, h1, h2, clearEntry]
    split_ifs
    · exact clearEntryLoop_frame _ _ s
    · exact ⟨rfl, rfl⟩

/-! ## The state after `init` -/

/-- The pages of the bitmap buffer. -/
def State.BitmapPage (hhdmOffset : ℕ) (s : State) (q : ℕ) : Prop :=
  fromhh hhdmOffset s.bitmapBuffer ≤ q * pageSize ∧
    q * pageSize < fromhh hhdmOffset s.bitmapBuffer + s.bitmapSize

/-- What `init` leaves: `base` is the physical address of the bitmap buffer. -/
structure InitSpec (off : ℕ) (entries : List MemmapEntry) (s : State) (base : ℕ) : Prop where
  memUsableTop : s.memUsableTop = usableTop entries
  lastIndex : s.lastIndex = 0
  bitmapBuffer : s.bitmapBuffer = tohh off base
  bitmapSize : s.bitmapSize = bitmapSizeFor (usableTop entries)
  inside : ∃ e ∈ entries, e.type = .usable ∧ e.base = base ∧ s.bitmapSize ≤ e.length
  clear : ∀ q, s.bits q = false ↔ (∃ e ∈ entries, e.HasPage q) ∧
    ¬ (base ≤ q * pageSize ∧ q * pageSize < base + s.bitmapSize)
  touched : ∀ q, q ∈ s.touched ↔ s.bits q = false

/-- An entry without its first `size` bytes. -/
def shorten (e : MemmapEntry) (size : ℕ) : MemmapEntry :=
  { e with length := e.length - size, base := e.base + size }

/-- Splitting the first `size` bytes off an entry takes exactly their pages out of it. -/
theorem hasPage_shorten {e : MemmapEntry} {size : ℕ} (hl : size ≤ e.length) (q : ℕ) :
    (shorten e size).HasPage q ↔
      e.HasPage q ∧ ¬ (e.base ≤ q * pageSize ∧ q * pageSize < e.base + size) := by
  simp only [MemmapEntry.HasPage, shorten]
  constructor
  · rintro ⟨hu, h1, h2⟩
    exact ⟨⟨hu, by omega, by omega⟩, by omega⟩
  · rintro ⟨⟨hu, h1, h2⟩, h3⟩
    exact ⟨hu, by omega, by omega⟩

section Shortened

variable {entries pre post : List MemmapEntry} {e : MemmapEntry} {size : ℕ}

/-- The pages of a map with one entry shortened: since entries are disjoint, no other entry has
the pages taken away. -/
theorem hasPage_shortened (hv : ValidMemmap entries) (hes : entries = pre ++ e :: post)
    (hu : e.type = .usable) (hl : size ≤ e.length) (q : ℕ) :
    (∃ f ∈ pre ++ shorten e size :: post, f.HasPage q) ↔
      (∃ f ∈ entries, f.HasPage q) ∧ ¬ (e.base ≤ q * pageSize ∧ q * pageSize < e.base + size) := by
  have hdisj := hv.disjoint
  rw [hes, List.pairwise_append, List.pairwise_cons] at hdisj
  have hother (f : MemmapEntry) (hf : f ∈ pre ∨ f ∈ post) (hq : f.HasPage q) :
      ¬ (e.base ≤ q * pageSize ∧ q * pageSize < e.base + size) := by
    intro hin
    have heq : e.HasPage q := ⟨hu, hin.1, by omega⟩
    rcases hf with hf | hf
    · exact hdisj.2.2 f hf e List.mem_cons_self q ⟨hq, heq⟩
    · exact hdisj.2.1.1 f hf q ⟨heq, hq⟩
  rw [hes]
  simp only [List.mem_append, List.mem_cons]
  constructor
  · rintro ⟨f, hf | rfl | hf, hq⟩
    · exact ⟨⟨f, Or.inl hf, hq⟩, hother f (Or.inl hf) hq⟩
    · obtain ⟨h1, h2⟩ := (hasPage_shorten hl q).mp hq
      exact ⟨⟨e, Or.inr (Or.inl rfl), h1⟩, h2⟩
    · exact ⟨⟨f, Or.inr (Or.inr hf), hq⟩, hother f (Or.inr hf) hq⟩
  · rintro ⟨⟨f, hf | rfl | hf, hq⟩, hn⟩
    · exact ⟨f, Or.inl hf, hq⟩
    · exact ⟨shorten f size, Or.inr (Or.inl rfl), (hasPage_shorten hl q).mpr ⟨hq, hn⟩⟩
    · exact ⟨f, Or.inr (Or.inr hf), hq⟩

/-- A map shortened by whole pages stays aligned and below `2^64`. -/
theorem shortened_bounds (hv : ValidMemmap entries) (hes : entries = pre ++ e :: post)
    (hl : size ≤ e.length) (hsize : size % pageSize = 0) {f : MemmapEntry}
    (hf : f ∈ pre ++ shorten e size :: post) (hfu : f.type = .usable) :
    (f.base % pageSize = 0 ∧ f.length % pageSize = 0) ∧ f.base + f.length < 2 ^ 64 := by
  have hcases : f ∈ entries ∨ f = shorten e size := by
    rw [hes]
    simp only [List.mem_append, List.mem_cons] at hf ⊢
    tauto
  rcases hcases with hf | rfl
  · exact ⟨hv.aligned f hf hfu, hv.noWrap f hf hfu⟩
  · have he : e ∈ entries := by rw [hes]; simp
    have hal := hv.aligned e he hfu
    have hwrap := hv.noWrap e he hfu
    simp only [shorten, show pageSize = 4096 from rfl] at *
    omega

end Shortened

theorem init_spec (off : ℕ) {entries : List MemmapEntry} (hv : ValidMemmap entries) :
    ∃ base, InitSpec off entries (init off entries).2 base := by
  have htop : (entries.foldl countEntry {}).memUsableTop = usableTop entries := rfl
  obtain ⟨hlast, htouched, -⟩ := foldl_countEntry_frame entries {}
  obtain ⟨pre, e, post, hes, hu, hl, hp⟩ :=
    placeBitmap_cases off _ entries (entries.foldl countEntry {}) hv.room
  have he : e ∈ entries := by rw [hes]; simp
  have hwe := hv.noWrap e he hu
  have hsize := bitmapSizeFor_eq (usableTop_lt entries)
  set size := bitmapSizeFor (usableTop entries) with hsz
  have hwhole : size % pageSize = 0 := by
    rw [hsize]
    exact Nat.mul_mod_left _ _
  rw [sub_of_le hl (by omega), wrap_of_lt (by omega)] at hp
  have hbounds (f : MemmapEntry) (hf : f ∈ pre ++ shorten e size :: post)
      (hfu : f.type = .usable) := shortened_bounds hv hes hl hwhole hf hfu
  -- the third pass starts from an all-set bitmap that nothing has been handed to yet
  set s1 : State := { entries.foldl countEntry {} with
    bitmapBuffer := tohh off e.base
    bitmapSize := size
    bits := fun _ => true
    usedMemory := wrap ((entries.foldl countEntry {}).usedMemory + size) } with hs1
  set s2 := (pre ++ shorten e size :: post).foldl clearEntry s1 with hs2
  have hinit : (init off entries).2 = { s2 with memTop := alignUp s2.memTop 0x40000000 } := by
    simp only [init, htop, ← hsz, hp]
    rfl
  obtain ⟨hfix, hl2⟩ := foldl_clearEntry_frame (pre ++ shorten e size :: post) s1
  have hspec (q : ℕ) := foldl_clearEntry_spec _ s1 (fun f hf hfu => (hbounds f hf hfu).1)
    (fun f hf hfu => (hbounds f hf hfu).2) q
  rw [← hs2] at hfix hl2 hspec
  simp only [State.fixed, Prod.mk.injEq] at hfix
  have hclear (q : ℕ) : s2.bits q = false ↔ ∃ f ∈ pre ++ shorten e size :: post, f.HasPage q := by
    rw [(hspec q).1]
    simp [hs1]
  refine ⟨e.base, ?_⟩
  rw [hinit]
  exact
    { memUsableTop := hfix.1
      lastIndex := hl2.trans hlast
      bitmapBuffer := hfix.2.1
      bitmapSize := hfix.2.2.1
      inside := ⟨e, he, hu, rfl, hfix.2.2.1.trans_le hl⟩
      clear := fun q => by
        rw [hclear, hasPage_shortened hv hes hu hl, hfix.2.2.1]
      touched := fun q => by
        rw [hclear, (hspec q).2]
        simp [hs1, htouched] }

end Physical
end IceKernel
