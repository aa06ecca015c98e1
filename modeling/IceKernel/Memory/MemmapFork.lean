import IceKernel.Memory.MemmapCoherent

/-!
# What `fork` does to the page tables
-/

namespace IceKernel.Memmap
open Word64 RadixTree Paging

variable {A : Type} {H : Host A} {K : Machine A} {k m i n : ℕ} {roots : List ℕ}
  {parent child : ℕ} {S : ℕ → Prop} {st st' : State A} {p p' p'' : Paging.State A}

theorem spaces_visit (h : Spaces K k roots p) (vis : List ℕ) :
    Spaces K k roots { p with visited := vis } :=
  ⟨h.kernel, fun r hr => (h.tree r hr).visit vis, h.shared, h.filled, h.apart⟩

theorem PageTables.congr (h : PageTables H k st) (hsize : st'.pagemaps.size = st.pagemaps.size)
    (htop : ∀ j, st'.top j = st.top j) (hs : Spaces H.toMachine k (tops st) st'.paging) :
    PageTables H k st' := by
  have htops : tops st' = tops st := by
    rw [tops, tops, hsize]
    exact List.map_congr_left fun j _ => htop j
  refine ⟨by rwa [htops], fun j hj j' hj' heq => ?_⟩
  rw [hsize] at hj hj'
  rw [htop, htop] at heq
  exact h.distinct j hj j' hj' heq

theorem PageTables.boot {mem : Mem} {heap : A} {s₀ : Paging.State A}
    (h0 : construct H.toMachine none (start mem heap) = some (k, s₀)) :
    PageTables H k (boot k s₀) := by
  refine ⟨Spaces.singleton (construct_spec h0).1.skeleton (construct_filled h0), ?_⟩
  intro j hj j' hj' _
  rw [Nat.lt_one_iff.mp hj, Nat.lt_one_iff.mp hj']

/-! ## New pagemaps -/

theorem spaces_congr {roots' : List ℕ} (h : Spaces K k roots p) (hr : ∀ r, r ∈ roots' ↔ r ∈ roots) :
    Spaces K k roots' p :=
  ⟨(hr k).mpr h.kernel, fun r hm => h.tree r ((hr r).mp hm), fun r hm => h.shared r ((hr r).mp hm),
    h.filled, fun r hm s hs => h.apart r ((hr r).mp hm) s ((hr s).mp hs)⟩

theorem mem_tops_push {t : Pagemap} {paging : Paging.State A} (r : ℕ) :
    r ∈ tops { st with paging := paging, pagemaps := st.pagemaps.push t } ↔
      r ∈ t.topLevel :: tops st := by
  have hold (j : ℕ) (hj : j < st.pagemaps.size) :
      State.top { st with paging := paging, pagemaps := st.pagemaps.push t } j = st.top j :=
    congrArg Pagemap.topLevel (Arena.get_push_of_ne hj.ne)
  have hnew : State.top { st with paging := paging, pagemaps := st.pagemaps.push t }
      st.pagemaps.size = t.topLevel := congrArg Pagemap.topLevel Arena.get_push_self
  simp only [tops, Arena.size_push, List.range_succ, List.map_append, List.map_cons, List.map_nil,
    List.mem_append, List.mem_cons, List.not_mem_nil, or_false, hnew]
  rw [List.map_congr_left fun j hj => hold j (List.mem_range.mp hj), or_comm]

/-- A new pagemap `c`: its lower half is empty, and the others are as they were. -/
structure Fresh (H : Host A) (k : ℕ) (st : State A) (c : ℕ) (st' : State A) : Prop where
  tables : PageTables H k st'
  new : c = st.pagemaps.size
  size : st'.pagemaps.size = st.pagemaps.size + 1
  old : ∀ j < st.pagemaps.size, st'.pagemaps.get j = st.pagemaps.get j
  locals : st'.locals = st.locals
  globals : st'.globals = st.globals
  top_new : st'.top c ∉ st.paging.tables
  kept : ∀ x, H.source.owned st.paging.heap x →
    H.source.owned st'.paging.heap x ∧ st'.paging.mem x = st.paging.mem x
  bare : ∀ a, LowerHalf a →
    slotOf H.toMachine st'.paging.mem (st'.top c) (pathTo a 0) (idx a 0) = .empty

theorem PageTables.newPagemap (h : PageTables H k st) {c : ℕ}
    (he : Memmap.newPagemap H k st = some (c, st')) : Fresh H k st c st' := by
  obtain ⟨rfl, topLevel, paging, hcon, rfl⟩ := newPagemap_eq_some he
  obtain ⟨hspaces, hfresh, -, hempty⟩ := h.spaces.construct hcon
  have hold (j : ℕ) (hj : j < st.pagemaps.size) :
      (st.pagemaps.push ⟨[], topLevel⟩).get j = st.pagemaps.get j := Arena.get_push_of_ne hj.ne
  have hnew : State.top { st with
      paging := paging, pagemaps := st.pagemaps.push ⟨[], topLevel⟩ } st.pagemaps.size = topLevel :=
    congrArg Pagemap.topLevel Arena.get_push_self
  have htop (j : ℕ) (hj : j < st.pagemaps.size) : State.top { st with
      paging := paging, pagemaps := st.pagemaps.push ⟨[], topLevel⟩ } j = st.top j :=
    congrArg Pagemap.topLevel (hold j hj)
  have hne (j : ℕ) (hj : j < st.pagemaps.size) : st.top j ≠ topLevel := fun heq =>
    hfresh (heq ▸ (h.spaces.tree _ (top_mem hj)).top_mem)
  refine ⟨⟨spaces_congr hspaces fun r => mem_tops_push r, fun j hj j' hj' heq => ?_⟩, rfl, rfl,
    hold, rfl, rfl, by rwa [hnew], fun x hx => ?_,
    fun a ha => by rw [hnew]; exact hempty a ha⟩
  · rcases Nat.lt_succ_iff_lt_or_eq.mp hj with hj | rfl
    · rw [htop j hj] at heq
      rcases Nat.lt_succ_iff_lt_or_eq.mp hj' with hj' | rfl
      · rw [htop j' hj'] at heq
        exact h.distinct j hj j' hj' heq
      · exact absurd (heq.trans hnew) (hne j hj)
    · rcases Nat.lt_succ_iff_lt_or_eq.mp hj' with hj' | rfl
      · rw [htop j' hj', hnew] at heq
        exact absurd heq.symm (hne j' hj')
      · rfl
  · exact construct_copy_owned (h.spaces.tree k h.spaces.kernel) hcon hx

namespace Fresh

variable {c : ℕ}

theorem empty (h : Fresh H k st c st') (a : ℕ) (ha : LowerHalf a) (d : ℕ) :
    leafFor H.toMachine st'.paging.mem (st'.top c) a d = none :=
  leafFor_of_empty (h.bare a ha) d

theorem lt (h : Fresh H k st c st') : c < st'.pagemaps.size := by
  rw [h.size, h.new]
  exact Nat.lt_succ_self _

theorem top (h : Fresh H k st c st') (hm : m < st.pagemaps.size) : st'.top m = st.top m :=
  congrArg Pagemap.topLevel (h.old m hm)

theorem mem (h : Fresh H k st c st') (hm : m < st.pagemaps.size) : st.top m ∈ tops st' := by
  rw [← h.top hm]
  exact top_mem (by rw [h.size]; omega)

theorem ne (h : Fresh H k st c st') (hpt : PageTables H k st) (hm : m < st.pagemaps.size) :
    st.top m ≠ st'.top c := fun heq =>
  h.top_new (heq ▸ (hpt.spaces.tree _ (top_mem hm)).top_mem)

theorem node (h : Fresh H k st c st') (hpt : PageTables H k st) (hm : m < st.pagemaps.size)
    (q : List ℕ) (t : ℕ) (hq : nodeAt H.toMachine st.paging.mem (st.top m) q = some t) :
    st'.paging.mem t = st.paging.mem t :=
  (h.kept t ((hpt.spaces.tree _ (top_mem hm)).owned t
    ((hpt.spaces.tree _ (top_mem hm)).closed q t hq))).2

theorem leaves (h : Fresh H k st c st') (hpt : PageTables H k st) (hm : m < st.pagemaps.size)
    (a d : ℕ) : leafFor H.toMachine st'.paging.mem (st.top m) a d =
      leafFor H.toMachine st.paging.mem (st.top m) a d :=
  congrArg Slot.leaf? (slotAt_congr (h.node hpt hm) _ _)

end Fresh

/-! ## The shared branch -/

/-- Since `p`, only the child was written: its lower half has the small pages of the parent whose
numbers are in `S`, and nothing else. -/
structure Shares (K : Machine A) (k : ℕ) (roots : List ℕ) (parent child : ℕ) (S : ℕ → Prop)
    (p p' : Paging.State A) : Prop where
  spaces : Spaces K k roots p'
  others : ∀ r ∈ roots, r ≠ child → ∀ q t, nodeAt K p.mem r q = some t → p'.mem t = p.mem t
  large : ∀ a, LowerHalf a → ∀ d < 3, leafFor K p'.mem child a d = none
  copied : ∀ a, LowerHalf a → S (a / KiB4) →
    leafFor K p'.mem child a 3 = leafFor K p.mem parent a 3
  empty : ∀ a, LowerHalf a → ¬ S (a / KiB4) → leafFor K p'.mem child a 3 = none

namespace Shares

theorem nodes (h : Shares K k roots parent child S p p') {r : ℕ} (hr : r ∈ roots)
    (hne : r ≠ child) (q : List ℕ) : nodeAt K p'.mem r q = nodeAt K p.mem r q :=
  descend_congr (h.others r hr hne) q

theorem leaves (h : Shares K k roots parent child S p p') {r : ℕ} (hr : r ∈ roots)
    (hne : r ≠ child) (a d : ℕ) : leafFor K p'.mem r a d = leafFor K p.mem r a d :=
  congrArg Slot.leaf? (slotAt_congr (h.others r hr hne) _ _)

theorem congr {S' : ℕ → Prop} (h : Shares K k roots parent child S p p')
    (hS : ∀ page, S' page ↔ S page) : Shares K k roots parent child S' p p' where
  spaces := h.spaces
  others := h.others
  large := h.large
  copied a ha hin := h.copied a ha ((hS _).mp hin)
  empty a ha hin := h.empty a ha fun hin' => hin ((hS _).mpr hin')

theorem visit (h : Shares K k roots parent child S p p') (vis : List ℕ) :
    Shares K k roots parent child S p { p' with visited := vis } :=
  ⟨spaces_visit h.spaces vis, h.others, h.large, h.copied, h.empty⟩

/-- A page for which the parent has no table. -/
theorem skip (h : Shares K k roots parent child S p p')
    (hnone : nodeAt K p.mem parent (pathTo i 3) = none) :
    Shares K k roots parent child (fun page => page = i / KiB4 ∨ S page) p p' where
  spaces := h.spaces
  others := h.others
  large := h.large
  copied a ha hS := by
    by_cases hin : S (a / KiB4)
    · exact h.copied a ha hin
    · have hpage : a / sizeAt 3 = i / sizeAt 3 := hS.resolve_right hin
      have hn : nodeAt K p.mem parent (pathTo a 3) = none := by
        rw [pathTo_congr hpage (by norm_num) (by norm_num), hnone]
      rw [h.empty a ha hin, leafFor_of_no_node hn (Nat.le_refl 3)]
  empty a ha hS := h.empty a ha fun hin => hS (Or.inr hin)

/-- The parent's entry for a page is stored in the child. -/
theorem store (h : Shares K k roots parent child S p p') (hp : parent ∈ roots)
    (hc : child ∈ roots) (hne : parent ≠ child) (hi : LowerHalf i) {t : ℕ}
    (hn : nodeAt K p'.mem parent (pathTo i 3) = some t)
    (he : Edited K child i p' p'')
    (hput : Put K child p' p'' i 3 (decode K.hhdm.offset 3 (p'.mem t (idx i 3))).leaf?) :
    Shares K k roots parent child (fun page => page = i / KiB4 ∨ S page) p p'' := by
  have hleaf : (decode K.hhdm.offset 3 (p'.mem t (idx i 3))).leaf? =
      leafFor K p.mem parent i 3 := by
    rw [← h.leaves hp hne, leafFor, leafOf, slot_step hn]
  rw [hleaf] at hput
  have hsize : sizeAt 3 = KiB4 := rfl
  refine ⟨h.spaces.lower_edit hc hi he, fun r hr hrc q t' hq => ?_, fun a ha d hd => ?_,
    fun a ha hS => ?_, fun a ha hS => ?_⟩
  · rw [h.spaces.lower_frame hc hi he hr hrc ((h.nodes hr hrc q).trans hq)]
    exact h.others r hr hrc q t' hq
  · rw [hput.leaf a d ha.canonical, if_neg (by omega)]
    exact h.large a ha d hd
  · rw [hput.leaf a 3 ha.canonical, hsize]
    by_cases hpage : a / KiB4 = i / KiB4
    · have hpage' : a / sizeAt 3 = i / sizeAt 3 := hpage
      rw [if_pos ⟨hpage, Nat.le_refl 3⟩, if_pos rfl, leafFor, leafFor,
        pathTo_congr hpage' (by norm_num) (by norm_num), idx_congr hpage' (Nat.le_refl 3) (by norm_num)]
    · rw [if_neg fun hin => hpage hin.1]
      exact h.copied a ha (hS.resolve_left hpage)
  · rw [hput.leaf a 3 ha.canonical, hsize, if_neg fun hin => hS (Or.inl hin.1)]
    exact h.empty a ha fun hin => hS (Or.inr hin)

/-- One round of the loop. -/
theorem round (h : Shares H.toMachine k roots parent child S p p') (hp : parent ∈ roots)
    (hc : child ∈ roots) (hne : parent ≠ child) (hi : LowerHalf i)
    (hclear : ClearAbove H.toMachine p.mem parent i 3)
    (he : sharePages H parent child (n + 1) i p' = some p'') :
    ∃ p₁, Shares H.toMachine k roots parent child (fun page => page = i / KiB4 ∨ S page) p p₁ ∧
      sharePages H parent child n (i + KiB4) p₁ = some p'' := by
  obtain ⟨e, vis, hw⟩ := entry_false H.toMachine parent i KiB4 p'
  rw [sharePages, hw, Option.bind_some] at he
  have hparent : ClearAbove H.toMachine p'.mem parent i 3 := fun d hd =>
    (h.leaves hp hne i d).trans (hclear d hd)
  have hchild : ClearAbove H.toMachine p'.mem child i 3 := fun d hd => h.large i hi d hd
  obtain ⟨-, -, ⟨t, rfl, hn, -⟩ | ⟨rfl, -, hn⟩⟩ :=
    (h.spaces.tree parent hp).edit hi.canonical hparent hw
  · -- the parent has a table for the page: its word goes to the child
    obtain ⟨⟨e', p₁⟩, hw', h2⟩ := Option.bind_eq_some_iff.mp he
    have hvisit := h.visit vis
    obtain ⟨-, -, ⟨t', rfl, -, hput⟩ | ⟨-, hal, -⟩⟩ :=
      (hvisit.spaces.tree child hc).edit hi.canonical hchild hw'
    · obtain ⟨hedit, hleaf⟩ := hput (p'.mem t (idx i 3))
      exact ⟨_, hvisit.store hp hc hne hi hn hedit hleaf, h2⟩
    · exact absurd hal (by simp)
  · exact ⟨_, (h.visit vis).skip ((h.nodes hp hne _).symm.trans hn), he⟩

theorem loop (h : Shares H.toMachine k roots parent child S p p') (hp : parent ∈ roots)
    (hc : child ∈ roots) (hne : parent ≠ child)
    (hi : ∀ j < n, LowerHalf (i + j * KiB4) ∧
      ClearAbove H.toMachine p.mem parent (i + j * KiB4) 3)
    (he : sharePages H parent child n i p' = some p'') :
    Shares H.toMachine k roots parent child
      (fun page => (i / KiB4 ≤ page ∧ page < i / KiB4 + n) ∨ S page) p p'' := by
  induction n generalizing i p' S with
  | zero =>
    obtain rfl : p' = p'' := by simpa [sharePages] using he
    exact h.congr fun page => or_iff_right (by omega)
  | succ n ih =>
    obtain ⟨h0, hclear⟩ := hi 0 (Nat.succ_pos n)
    rw [Nat.zero_mul, Nat.add_zero] at h0 hclear
    obtain ⟨p₁, h1, h2⟩ := h.round hp hc hne h0 hclear he
    have hrest := ih h1 (fun j hj => by
      have hshift : i + KiB4 + j * KiB4 = i + (j + 1) * KiB4 := by
        rw [Nat.succ_mul]
        omega
      rw [hshift]
      exact hi (j + 1) (by omega)) h2
    have hnext : (i + KiB4) / KiB4 = i / KiB4 + 1 := Nat.add_div_right i (by decide)
    rw [hnext] at hrest
    refine hrest.congr fun page => ?_
    by_cases hS : S page
    · simp only [hS, or_true]
    · simp only [hS, or_false]
      omega

end Shares

/-- Whole pages of the lower half. -/
structure Local.Whole (l : Local) : Prop where
  base : l.base % KiB4 = 0
  length : l.length % KiB4 = 0
  lower : l.base + l.length ≤ 2 ^ 47

/-- The numbers of the pages of a range. -/
def Local.HasPage (l : Local) (page : ℕ) : Prop :=
  l.base / KiB4 ≤ page ∧ page < l.base / KiB4 + l.length / KiB4

namespace Local.Whole

variable {l : Local}

theorem hasPage_iff (h : l.Whole) (a : ℕ) :
    l.HasPage (a / KiB4) ↔ l.base ≤ a ∧ a < l.base + l.length := by
  have h1 := h.base
  have h2 := h.length
  unfold Local.HasPage
  unfold KiB4 at *
  omega

theorem lowerHalf (h : l.Whole) {a : ℕ} (ha : a < l.base + l.length) : LowerHalf a := by
  have hlow := h.lower
  unfold LowerHalf
  omega

theorem stop_eq (h : l.Whole) : wrap (l.base + l.length) = l.base + l.length :=
  wrap_of_lt (by have := h.lower; omega)

theorem rounds_eq (h : l.Whole) : rounds l.base (l.base + l.length) = l.length / KiB4 := by
  have h2 := h.length
  unfold rounds
  unfold KiB4 at *
  omega

theorem page_lower (h : l.Whole) {j : ℕ} (hj : j < l.length / KiB4) :
    LowerHalf (l.base + j * KiB4) ∧ l.base ≤ l.base + j * KiB4 ∧
      l.base + j * KiB4 < l.base + l.length := by
  have hlt : l.base + j * KiB4 < l.base + l.length := by
    unfold KiB4 at *
    omega
  exact ⟨h.lowerHalf hlt, Nat.le_add_right _ _, hlt⟩

end Local.Whole

/-- The shared branch for one range. -/
theorem forkRange_shared {c l : ℕ} (hs : (st.locals.get l).flags &&& mapShared ≠ 0)
    (he : forkRange H k m c l st = some st') :
    sharePages H (st.top m) (st.top c)
        (rounds (st.locals.get l).base (wrap ((st.locals.get l).base + (st.locals.get l).length)))
        (st.locals.get l).base st.paging = some st'.paging ∧
      (∀ j, st'.top j = st.top j) ∧ st'.locals = st.locals.push (st.locals.get l) := by
  obtain ⟨st1, h1, rfl⟩ := Option.map_eq_some_iff.mp he
  rw [if_pos hs] at h1
  obtain ⟨paging, h2, rfl⟩ := Option.map_eq_some_iff.mp h1
  refine ⟨h2, fun j => ?_, rfl⟩
  by_cases hj : j = c
  · simp only [hj, State.top, Arena.get_set_self]
  · simp only [State.top, Arena.get_set_of_ne hj]

theorem forkRanges_shared {c : ℕ} {ls : List ℕ}
    (h : Shares H.toMachine k roots parent child S p st.paging) (hp : parent ∈ roots)
    (hc : child ∈ roots) (hne : parent ≠ child) (hm : st.top m = parent) (hch : st.top c = child)
    (hls : ∀ l ∈ ls, l < st.locals.size ∧ (st.locals.get l).Whole ∧
      (st.locals.get l).flags &&& mapShared ≠ 0 ∧ ∀ a, (st.locals.get l).HasPage (a / KiB4) →
        ClearAbove H.toMachine p.mem parent a 3)
    (he : forkRanges H k m c ls st = some st') :
    Shares H.toMachine k roots parent child
        (fun page => (∃ l ∈ ls, (st.locals.get l).HasPage page) ∨ S page) p st'.paging ∧
      st'.top c = child := by
  induction ls generalizing st S with
  | nil =>
    obtain rfl : st = st' := by simpa [forkRanges] using he
    exact ⟨h.congr fun page => by simp, hch⟩
  | cons l ls ih =>
    obtain ⟨st1, h1, h2⟩ := Option.bind_eq_some_iff.mp he
    obtain ⟨hl, hwhole, hflag, hclear⟩ := hls l List.mem_cons_self
    obtain ⟨hshare, htop, hlocals⟩ := forkRange_shared hflag h1
    have hget {l' : ℕ} (hl' : l' < st.locals.size) : st1.locals.get l' = st.locals.get l' := by
      rw [hlocals, Arena.get_push_of_ne hl'.ne]
    rw [hm, hch, hwhole.stop_eq, hwhole.rounds_eq] at hshare
    have hloop := h.loop hp hc hne (fun j hj => ?_) hshare
    · obtain ⟨hrest, hchild⟩ := ih hloop (by rw [htop, hm]) (by rw [htop, hch])
        (fun l' hl' => by
          obtain ⟨hlt, hgood⟩ := hls l' (List.mem_cons_of_mem _ hl')
          rw [hget hlt, hlocals]
          exact ⟨Nat.lt_succ_of_lt hlt, hgood⟩) h2
      refine ⟨hrest.congr fun page => ?_, hchild⟩
      have hex : (∃ l' ∈ ls, (st1.locals.get l').HasPage page) ↔
          ∃ l' ∈ ls, (st.locals.get l').HasPage page := by
        refine exists_congr fun l' => and_congr_right fun hl' => ?_
        rw [hget (hls l' (List.mem_cons_of_mem _ hl')).1]
      rw [List.exists_mem_cons_iff, hex, or_assoc, or_left_comm]
      rfl
    · obtain ⟨hlow, hge, hlt⟩ := hwhole.page_lower hj
      exact ⟨hlow, hclear _ ((hwhole.hasPage_iff _).mpr ⟨hge, hlt⟩)⟩

/-- `a` lies in a range of the pagemap `m`. -/
def InRange (st : State A) (m a : ℕ) : Prop :=
  ∃ l ∈ (st.pagemaps.get m).ranges,
    (st.locals.get l).base ≤ a ∧ a < (st.locals.get l).base + (st.locals.get l).length

/-- The pagemap `c` of `st'` has the small pages of the ranges of `m`, in the same frames and with
the same flags, and apart from these only the upper half of `kernel_pagemap`. -/
structure Aliased (H : Host A) (k m : ℕ) (st : State A) (c : ℕ) (st' : State A) : Prop where
  parent : ∀ a, hwTranslate H.toMachine st'.paging.mem (st.top m) a =
    hwTranslate H.toMachine st.paging.mem (st.top m) a
  parentLookup : ∀ a flags,
    ClearAbove H.toMachine st.paging.mem (st.top m) a (levelOf (getPageSize flags)) →
    (virtualToPhysical H.toMachine (st.top m) a flags st'.paging).map Prod.fst =
      (virtualToPhysical H.toMachine (st.top m) a flags st.paging).map Prod.fst
  inside : ∀ a, InRange st m a →
    leafFor H.toMachine st'.paging.mem (st'.top c) a 3 =
      leafFor H.toMachine st.paging.mem (st.top m) a 3 ∧
    hwTranslate H.toMachine st'.paging.mem (st'.top c) a =
      hwTranslate H.toMachine st.paging.mem (st.top m) a ∧
    (virtualToPhysical H.toMachine (st'.top c) a 0 st'.paging).map Prod.fst =
      (virtualToPhysical H.toMachine (st.top m) a 0 st.paging).map Prod.fst
  outside : ∀ a, LowerHalf a → ¬ InRange st m a →
    hwTranslate H.toMachine st'.paging.mem (st'.top c) a = none ∧
    (virtualToPhysical H.toMachine (st'.top c) a 0 st'.paging).map Prod.fst = some invalidAddr
  upper : ∀ a, Canonical a → UpperHalf a →
    hwTranslate H.toMachine st'.paging.mem (st'.top c) a =
      hwTranslate H.toMachine st'.paging.mem k a ∧
    ∀ flags, virtualToPhysical H.toMachine (st'.top c) a flags st'.paging =
      virtualToPhysical H.toMachine k a flags st'.paging

/-- A lookup depends on the tables of the pagemap only. -/
theorem lookup_congr {top : ℕ} (hs : Skeleton K top p) (hs' : Skeleton K top p')
    (hmem : ∀ q t, nodeAt K p.mem top q = some t → p'.mem t = p.mem t) {a : ℕ} {flags : BitVec 64}
    (hclear : ClearAbove K p.mem top a (levelOf (getPageSize flags))) :
    (virtualToPhysical K top a flags p').map Prod.fst =
      (virtualToPhysical K top a flags p).map Prod.fst := by
  have hclear' : ClearAbove K p'.mem top a (levelOf (getPageSize flags)) := fun d hd => by
    rw [← hclear d hd]
    exact congrArg Slot.leaf? (slotAt_congr hmem _ _)
  obtain ⟨vis, hr, -⟩ := hs.lookup flags hclear
  obtain ⟨vis', hr', -⟩ := hs'.lookup flags hclear'
  rw [hr, hr', Option.map_some, Option.map_some, nodeAt, nodeAt, descend_congr hmem]
  cases hn : descend (decode K.hhdm.offset) p.mem top (pathTo a (levelOf (getPageSize flags))) with
  | none => rfl
  | some t => rw [Option.map_some, Option.map_some, hmem _ t hn]

theorem InRange.lower {a : ℕ}
    (hr : ∀ l ∈ (st.pagemaps.get m).ranges, (st.locals.get l).Whole) (h : InRange st m a) :
    LowerHalf a := by
  obtain ⟨l, hl, -, hlt⟩ := h
  exact (hr l hl).lowerHalf hlt

/-- The state of the page tables after `fork`, against the one the child was made in. -/
theorem fork_shares {c : ℕ} (hpt : PageTables H k st) (hm : m < st.pagemaps.size)
    (hranges : ∀ l ∈ (st.pagemaps.get m).ranges, l < st.locals.size ∧ (st.locals.get l).Whole ∧
      (st.locals.get l).flags &&& mapShared ≠ 0)
    (hsmall : ∀ a, InRange st m a → ClearAbove H.toMachine st.paging.mem (st.top m) a 3)
    (he : fork H k m st = some (c, st')) :
    ∃ st₁, Fresh H k st c st₁ ∧ st'.top c = st₁.top c ∧
      Shares H.toMachine k (tops st₁) (st.top m) (st₁.top c)
        (fun page => ∃ l ∈ (st.pagemaps.get m).ranges, (st.locals.get l).HasPage page)
        st₁.paging st'.paging := by
  obtain ⟨⟨c', st₁⟩, h1, h2⟩ := Option.bind_eq_some_iff.mp he
  obtain ⟨st2, h3, heq⟩ := Option.map_eq_some_iff.mp h2
  obtain ⟨rfl, rfl⟩ := Prod.mk.inj heq
  have hfresh := hpt.newPagemap h1
  have hstart : Shares H.toMachine k (tops st₁) (st.top m) (st₁.top c') (fun _ => False)
      st₁.paging st₁.paging :=
    ⟨hfresh.tables.spaces, fun _ _ _ _ _ _ => rfl, fun a ha d _ => hfresh.empty a ha d,
      fun _ _ h => h.elim, fun a ha _ => hfresh.empty a ha 3⟩
  rw [hfresh.old m hm] at h3
  obtain ⟨hshare, hchild⟩ := forkRanges_shared hstart (hfresh.mem hm) (top_mem hfresh.lt)
    (hfresh.ne hpt hm) (hfresh.top hm) rfl (fun l hl => by
      obtain ⟨h4, h5, h6⟩ := hranges l hl
      rw [hfresh.locals]
      refine ⟨h4, h5, h6, fun a ha d hd => ?_⟩
      exact (hfresh.leaves hpt hm a d).trans (hsmall a ⟨l, hl, (h5.hasPage_iff a).mp ha⟩ d hd)) h3
  refine ⟨st₁, hfresh, hchild, hshare.congr fun page => ?_⟩
  rw [or_false, hfresh.locals]

/-- `fork` of a pagemap whose ranges are all shared. -/
theorem shared_fork_aliases (H : Host A) {c : ℕ} (hpt : PageTables H k st)
    (hm : m < st.pagemaps.size)
    (hranges : ∀ l ∈ (st.pagemaps.get m).ranges, l < st.locals.size ∧ (st.locals.get l).Whole ∧
      (st.locals.get l).flags &&& mapShared ≠ 0)
    (hsmall : ∀ a, InRange st m a → ClearAbove H.toMachine st.paging.mem (st.top m) a 3)
    (he : fork H k m st = some (c, st')) : Aliased H k m st c st' := by
  obtain ⟨st₁, hfresh, htop, hshare⟩ := fork_shares hpt hm hranges hsmall he
  have htree := hpt.spaces.tree _ (top_mem hm)
  have hparent := hfresh.mem hm
  have hchild := top_mem hfresh.lt
  have hplain : isLpage 0 = false := rfl
  -- the pages copied are those of the ranges
  have hpages (a : ℕ) : (∃ l ∈ (st.pagemaps.get m).ranges,
      (st.locals.get l).HasPage (a / KiB4)) ↔ InRange st m a :=
    exists_congr fun l => and_congr_right fun hl => (hranges l hl).2.1.hasPage_iff a
  have hframe (q : List ℕ) (t : ℕ) (hq : nodeAt H.toMachine st.paging.mem (st.top m) q = some t) :
      st'.paging.mem t = st.paging.mem t := by
    have hq₁ : nodeAt H.toMachine st₁.paging.mem (st.top m) q = some t :=
      (descend_congr (hfresh.node hpt hm) q).trans hq
    rw [hshare.others _ hparent (hfresh.ne hpt hm) q t hq₁, hfresh.node hpt hm q t hq]
  have hlook (a : ℕ) (ha : LowerHalf a) :=
    (hshare.spaces.tree _ hchild).lookup_small hplain fun d hd => hshare.large a ha d hd
  rw [← htop] at hlook hshare hchild
  refine ⟨fun a => ?_, fun a flags hc => ?_, fun a ha => ?_, fun a ha hnot => ?_,
    fun a ha hup => hshare.spaces.upper_same hchild hshare.spaces.kernel ha hup⟩
  · exact hwTranslate_congr fun d _ => congrArg Slot.leaf? (slotAt_congr hframe _ _)
  · exact lookup_congr htree (hshare.spaces.tree _ hparent) hframe hc
  · have hlow := ha.lower fun l hl => (hranges l hl).2.1
    have hleaf := (hshare.copied a hlow ((hpages a).mpr ha)).trans (hfresh.leaves hpt hm a 3)
    refine ⟨hleaf, hwTranslate_congr fun d hd => ?_, ?_⟩
    · by_cases hd3 : d = 3
      · rw [hd3, hleaf]
      · exact (hshare.large a hlow d (by omega)).trans (hsmall a ha d (by omega)).symm
    · obtain ⟨vis, hr⟩ := hlook a hlow
      obtain ⟨vis', hr'⟩ := htree.lookup_small hplain (hsmall a ha)
      rw [hr, hr', hleaf]
      rfl
  · have hleaf := hshare.empty a ha fun hin => hnot ((hpages a).mp hin)
    refine ⟨hwTranslate_eq_none.mpr fun d hd => ?_, ?_⟩
    · by_cases hd3 : d = 3
      · rw [hd3, hleaf]
      · exact hshare.large a ha d (by omega)
    · obtain ⟨vis, hr⟩ := hlook a ha
      rw [hr, hleaf]
      rfl

/-- A range added to the pagemap `m`. -/
def addRange (m : ℕ) (l : Local) (st : State A) : State A :=
  { st with
    locals := st.locals.push l
    pagemaps := st.pagemaps.set m
      { st.pagemaps.get m with ranges := (st.pagemaps.get m).ranges ++ [st.locals.size] } }

theorem addRange_top (l : Local) (j : ℕ) : (addRange m l st).top j = st.top j := by
  by_cases hj : j = m
  · simp only [addRange, State.top, hj, Arena.get_set_self]
  · simp only [addRange, State.top, Arena.get_set_of_ne hj]

/-- A new pagemap with one range and no pages, and its fork. -/
def smallFork (l : Local) : Option (ℕ × State ℕ × ℕ × State ℕ) :=
  (construct (orderedMachine false) none (start (fun _ _ => 0#64) 1)).bind fun (k, s₀) =>
    (newPagemap orderedHost k (boot k s₀)).bind fun (m, st) =>
      (fork orderedHost k m (addRange m l st)).map fun (c, st') => (k, addRange m l st, c, st')

theorem smallFork_eq_some {l : Local} {c : ℕ} {st st' : State ℕ}
    (he : smallFork l = some (k, st, c, st')) :
    PageTables orderedHost k st ∧ 1 < st.pagemaps.size ∧
      (st.pagemaps.get 1).ranges = [0] ∧ 0 < st.locals.size ∧ st.locals.get 0 = l ∧
      (∀ a, LowerHalf a →
        slotOf (orderedMachine false) st.paging.mem (st.top 1) (pathTo a 0) (idx a 0) = .empty) ∧
      fork orderedHost k 1 st = some (c, st') := by
  obtain ⟨⟨k', s₀⟩, h0, h1⟩ := Option.bind_eq_some_iff.mp he
  obtain ⟨⟨m, st₁⟩, h2, h3⟩ := Option.bind_eq_some_iff.mp h1
  obtain ⟨⟨c', st₂⟩, h4, heq⟩ := Option.map_eq_some_iff.mp h3
  simp only [Prod.mk.injEq] at heq
  obtain ⟨rfl, rfl, rfl, rfl⟩ := heq
  have hfresh := (PageTables.boot (H := orderedHost) h0).newPagemap h2
  obtain ⟨rfl, topLevel, _, -, rfl⟩ := newPagemap_eq_some h2
  refine ⟨hfresh.tables.congr rfl (addRange_top l) hfresh.tables.spaces, hfresh.lt, rfl,
    Nat.one_pos, rfl, fun a ha => ?_, h4⟩
  rw [addRange_top]
  exact hfresh.bare a ha

/-- Two shared pages. -/
def sharedPages : Local :=
  { Local.zero with base := 0x400000, length := 0x2000, flags := mapShared }

theorem shared_fork_aliases_small :
    ∃ k st c st', smallFork sharedPages = some (k, st, c, st') ∧
      Aliased orderedHost k 1 st c st' := by
  have hsome : (smallFork sharedPages).isSome = true := by decide +kernel
  obtain ⟨⟨k, st, c, st'⟩, he⟩ := Option.isSome_iff_exists.mp hsome
  obtain ⟨hpt, hm, hranges, hsize, hlocal, hbare, hfork⟩ := smallFork_eq_some he
  have hrange (l : ℕ) (hl : l ∈ (st.pagemaps.get 1).ranges) : l < st.locals.size ∧
      (st.locals.get l).Whole ∧ (st.locals.get l).flags &&& mapShared ≠ 0 := by
    rw [hranges, List.mem_singleton] at hl
    rw [hl, hlocal]
    exact ⟨hsize, ⟨by decide, by decide, by decide⟩, by decide⟩
  exact ⟨k, st, c, st', he, shared_fork_aliases orderedHost hpt hm hrange
    (fun a ha d _ => leafFor_of_empty (hbare a (ha.lower fun l hl => (hrange l hl).2.1)) d) hfork⟩

end IceKernel.Memmap
