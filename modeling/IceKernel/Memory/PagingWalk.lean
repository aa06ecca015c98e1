import IceKernel.Memory.PagingLarge

/-!
# Where the walks go

Runs of all four operations at all page sizes. As long as no walk meets a
large page above the level it is heading for, `get_next_lvl` returns tables
of the pagemap only, and only these are written.
-/

namespace IceKernel.Paging
open Word64 RadixTree

variable {A : Type} {K : Machine A} {top : ℕ} {st st' : State A} {v : ℕ}

/-! ## Along tables that exist -/

/-- A walk to a table that exists ends there and changes nothing, whether or not it may
allocate. -/
theorem Skeleton.walk_node (hs : Skeleton K top st) {d t : ℕ}
    (hn : nodeAt K st.mem top (pathTo v d) = some t) (allocate : Bool) :
    ∃ vis, Paging.walk K top v allocate d st = some (t, { st with visited := vis }) := by
  induction d generalizing t with
  | zero =>
    obtain rfl : top = t := Option.some.inj hn
    exact ⟨st.visited, rfl⟩
  | succ d ih =>
    obtain ⟨s, hs', h0, haddr⟩ := link_of_nodeAt hn
    obtain ⟨vis, hw⟩ := ih hs'
    have hne : s ≠ 0 := (hs.addr s (hs.closed _ s hs')).pos
    refine ⟨t :: vis, ?_⟩
    rw [Paging.walk, hw, Option.bind_some]
    dsimp only
    rw [getNextLvl, if_neg hne, getFlags_present, if_pos h0]
    simp only [haddr]

theorem Skeleton.entry_node (hs : Skeleton K top st) {pageSize t : ℕ}
    (hn : nodeAt K st.mem top (pathTo v (levelOf pageSize)) = some t) (allocate : Bool) :
    ∃ vis, virtualToPtEntry K top v allocate pageSize st =
      some (some (t, idx v (levelOf pageSize)), { st with visited := vis }) := by
  obtain ⟨vis, hw⟩ := hs.walk_node hn allocate
  have hne : t ≠ 0 := (hs.addr t (hs.closed _ t hn)).pos
  refine ⟨vis, ?_⟩
  rw [virtualToPtEntry_eq, hw, Option.map_some]
  simp only [hne, if_false]

/-! ## Both constructors -/

theorem construct_touches {mem : Mem} {heap : A}
    (he : construct K none (start mem heap) = some (top, st)) :
    Touches (start mem heap) st := by
  obtain ⟨⟨q, st1⟩, h1, h2⟩ := Option.bind_eq_some_iff.mp he
  obtain ⟨st2, h3, heq⟩ := Option.map_eq_some_iff.mp h2
  simp only [Prod.mk.injEq] at heq
  obtain ⟨rfl, rfl⟩ := heq
  exact (newTable_touches h1).trans (fillUpperHalf_spec (newTable_spec h1).1 h3).2.toTouches

theorem copyUpperHalf_apply {k : ℕ} (hk : k ≠ top) (mem : Mem) (n i t j : ℕ) :
    copyUpperHalf top k mem n i t j =
      if t = top ∧ i ≤ j ∧ j < i + n then mem k j else mem t j := by
  induction n generalizing i mem with
  | zero => rw [copyUpperHalf, if_neg (by omega)]
  | succ n ih =>
    rw [copyUpperHalf, ih, write_node_of_ne hk]
    by_cases hj : t = top ∧ j = i
    · rw [if_neg (by omega), if_pos (by omega), hj.1, hj.2, write_self]
    · rw [write_of_ne hj]
      exact if_congr (by omega) rfl rfl

/-- The constructor that copies the upper half of `kernel_pagemap`, word by word. -/
theorem construct_copy_mem {k : ℕ} (hs : Skeleton K k st)
    (he : construct K (some k) st = some (top, st')) :
    top ∉ st.tables ∧ st'.tables = top :: st.tables ∧ (∀ t ∈ st.tables, st'.mem t = st.mem t) ∧
      ∀ j, st'.mem top j = if 256 ≤ j ∧ j < 512 then st.mem k j else 0#64 := by
  obtain ⟨⟨q, st1⟩, h1, h2⟩ := Option.bind_eq_some_iff.mp he
  simp only [Option.some.injEq, Prod.mk.injEq] at h2
  obtain ⟨rfl, rfl⟩ := h2
  obtain ⟨-, htables, hfresh, hzero, hkeep⟩ := hs.newTable h1
  have hk : k ≠ q := fun h => hfresh (h ▸ hs.top_mem)
  refine ⟨hfresh, htables, fun t hm => ?_, fun j => ?_⟩
  · have htq : t ≠ q := fun h => hfresh (h ▸ hm)
    funext j
    dsimp only
    rw [copyUpperHalf_apply hk, if_neg (fun h => htq h.1), hkeep t hm]
  · dsimp only
    rw [copyUpperHalf_apply hk, hzero, hkeep k hs.top_mem]
    exact if_congr (by simp) rfl rfl

/-- Memory in use is not touched by the constructor. -/
theorem construct_copy_owned {k : ℕ} (hs : Skeleton K k st)
    (he : construct K (some k) st = some (top, st')) {x : ℕ} (hx : K.source.owned st.heap x) :
    K.source.owned st'.heap x ∧ st'.mem x = st.mem x := by
  obtain ⟨⟨q, st1⟩, h1, h2⟩ := Option.bind_eq_some_iff.mp he
  simp only [Option.some.injEq, Prod.mk.injEq] at h2
  obtain ⟨rfl, rfl⟩ := h2
  obtain ⟨heap, hal, rfl⟩ := newTable_eq_some h1
  have hxq : x ≠ q := fun h => K.source.alloc_fresh hal (h ▸ hx)
  have hk : k ≠ q := fun h => hs.fresh hal (h ▸ hs.top_mem)
  refine ⟨(K.source.alloc_owned hal x).mpr (Or.inr hx), ?_⟩
  funext j
  dsimp only
  rw [copyUpperHalf_apply hk, if_neg (fun h => hxq h.1), Function.update_of_ne hxq]

/-- Below the new top level there is nothing but tables of `kernel_pagemap`, by the same paths. -/
theorem construct_copy_node {k : ℕ} (hs : Skeleton K k st)
    (he : construct K (some k) st = some (top, st')) {p : List ℕ} {t : ℕ} (hp : p ≠ [])
    (h : nodeAt K st'.mem top p = some t) : nodeAt K st.mem k p = some t := by
  obtain ⟨-, -, hkeep, hrow⟩ := construct_copy_mem hs he
  refine descend_reroot (fun j => ?_) (fun q s hq => hkeep s (hs.closed q s hq)) hp h
  rw [hrow j]
  split_ifs
  · exact Or.inl rfl
  · exact Or.inr (decode_zero _ _)

theorem construct_copy_touches {k : ℕ} (hs : Skeleton K k st)
    (he : construct K (some k) st = some (top, st')) :
    Touches st st' ∧ (∀ t ∈ st'.tables, K.source.owned st'.heap t) ∧
      ∀ t ∈ st'.tables, TableAddr K.hhdm t := by
  obtain ⟨⟨q, st1⟩, h1, h2⟩ := Option.bind_eq_some_iff.mp he
  simp only [Option.some.injEq, Prod.mk.injEq] at h2
  obtain ⟨rfl, rfl⟩ := h2
  have htouch := newTable_touches h1
  obtain ⟨hs1, htables, hfresh, -⟩ := hs.newTable h1
  have hk : k ≠ q := fun h => hfresh (h ▸ hs.top_mem)
  refine ⟨⟨fun t hm => ?_, htouch.tables, htouch.visited⟩, hs1.owned, hs1.addr⟩
  have htq : t ≠ q := by
    rintro rfl
    exact hm (by rw [htables]; exact List.mem_cons_self)
  funext j
  dsimp only
  rw [copyUpperHalf_apply hk, if_neg (fun h => htq h.1), htouch.frame t hm]

/-- The constructor that copies the upper half of `kernel_pagemap` builds a tree, which has the
tables of that half in common with the other one. -/
theorem Skeleton.construct {k : ℕ} (hs : Skeleton K k st)
    (he : Paging.construct K (some k) st = some (top, st')) :
    Skeleton K top st' ∧ Skeleton K k st' := by
  obtain ⟨hfresh, htables, hkeep, hrow⟩ := construct_copy_mem hs he
  obtain ⟨htouch, howned, haddr⟩ := construct_copy_touches hs he
  have hold (p : List ℕ) (t : ℕ) (h : nodeAt K st.mem k p = some t) : st'.mem t = st.mem t :=
    hkeep t (hs.closed p t h)
  have hslot (j : ℕ) :
      st'.mem top j = st.mem k j ∨ decode K.hhdm.offset 0 (st'.mem top j) = .empty := by
    rw [hrow j]
    split_ifs
    · exact Or.inl rfl
    · exact Or.inr (decode_zero _ _)
  have hnew (p : List ℕ) : nodeAt K st.mem k p ≠ some top := fun h => hfresh (hs.closed p _ h)
  refine ⟨⟨hs.unshared.reroot hslot hold hnew, fun p t h => ?_, howned, haddr,
    fun p t h hlen j => ?_, fun j => ?_⟩, hs.congr hold htouch.tables howned haddr⟩
  · by_cases hp : p = []
    · obtain rfl : top = t := Option.some.inj (by rw [← h, hp]; rfl)
      rw [htables]
      exact List.mem_cons_self
    · exact htouch.tables t (hs.closed p t (construct_copy_node hs he hp h))
  · by_cases hp : p = []
    · obtain rfl : top = t := Option.some.inj (by rw [← h, hp]; rfl)
      rw [hrow j]
      split_ifs
      · exact hs.zero [] k rfl (by norm_num) j
      · exact Or.inr rfl
    · have hp0 := construct_copy_node hs he hp h
      rw [hold p t hp0]
      exact hs.zero p t hp0 hlen j
  · rw [hrow j]
    split_ifs
    · exact hs.topPlain j
    · rfl

theorem construct_copy_spec {k : ℕ} (ht : Tables K k st)
    (he : construct K (some k) st = some (top, st')) : Tables K top st' ∧ Touches st st' := by
  obtain ⟨-, htables, hkeep, hrow⟩ := construct_copy_mem ht.skeleton he
  refine ⟨Tables.of_skeleton (ht.skeleton.construct he).1 fun t hm j => ?_,
    (construct_copy_touches ht.skeleton he).1⟩
  rw [htables] at hm
  rcases List.mem_cons.mp hm with rfl | hm
  · rw [hrow j]
    split_ifs
    · exact ht.zero k ht.top_mem j
    · exact Or.inr rfl
  · rw [hkeep t hm]
    exact ht.zero t hm j

/-- A new pagemap, in a memory that held `mem` before: the first one, or one with the upper half
of another. -/
inductive Constructed (K : Machine A) (mem : Mem) (top : ℕ) (st : State A) : Prop
  | first {heap : A} (he : construct K none (start mem heap) = some (top, st))
  | copy {k : ℕ} {st₀ : State A} (ht : Tables K k st₀) (hvis : ∀ t ∈ st₀.visited, t ∈ st₀.tables)
      (hmem : st₀.mem = mem) (he : construct K (some k) st₀ = some (top, st))

/-- Whatever was taken for a table is one, and nothing else was written since memory held
`mem`. -/
structure TablesOnly (mem : Mem) (st : State A) : Prop where
  visited : ∀ t ∈ st.visited, t ∈ st.tables
  frame : ∀ t, t ∉ st.tables → st.mem t = mem t

theorem TablesOnly.touches {mem : Mem} (h : TablesOnly mem st) (ht : Touches st st') :
    TablesOnly mem st' where
  visited t hm := (ht.visited t hm).elim (fun h1 => ht.tables t (h.visited t h1)) id
  frame t hm := (ht.frame t hm).trans (h.frame t fun h1 => hm (ht.tables t h1))

theorem Constructed.spec {mem : Mem} (h : Constructed K mem top st) :
    Tables K top st ∧ TablesOnly mem st := by
  cases h with
  | @first heap he =>
    have hstart : TablesOnly mem (start mem heap) := ⟨by simp [start], fun _ _ => rfl⟩
    exact ⟨(construct_spec he).1, hstart.touches (construct_touches he)⟩
  | copy ht hvis hmem he =>
    obtain ⟨ht', htouch⟩ := construct_copy_spec ht he
    exact ⟨ht', TablesOnly.touches ⟨hvis, fun _ _ => by rw [hmem]⟩ htouch⟩

/-! ## One call -/

inductive Op where
  | map (v pa : ℕ) (flags : BitVec 64) (cache : Caching)
  | unmap (v : ℕ) (flags : BitVec 64)
  | setFlags (v : ℕ) (flags : BitVec 64) (cache : Caching)
  | virtualToPhysical (v : ℕ) (flags : BitVec 64)

/-- The addresses considered: canonical, and size-aligned except in a lookup. -/
def Op.Aligned : Op → Prop
  | .map v _ flags _ => Canonical v ∧ v % getPageSize flags = 0
  | .unmap v flags => Canonical v ∧ v % getPageSize flags = 0
  | .setFlags v flags _ => Canonical v ∧ v % getPageSize flags = 0
  | .virtualToPhysical v _ => Canonical v

instance : ∀ op : Op, Decidable op.Aligned
  | .map .. => inferInstanceAs (Decidable (_ ∧ _))
  | .unmap .. => inferInstanceAs (Decidable (_ ∧ _))
  | .setFlags .. => inferInstanceAs (Decidable (_ ∧ _))
  | .virtualToPhysical .. => inferInstanceAs (Decidable (Canonical _))

/-- One call on the pagemap with this top level. -/
def opStep (K : Machine A) (top : ℕ) (st : State A) (op : Op) : Option (State A) :=
  if op.Aligned then
    match op with
    | .map v pa flags cache => (map K top v pa flags cache st).map Prod.snd
    | .unmap v flags => (unmap K top v flags st).map Prod.snd
    | .setFlags v flags cache => (setFlagsAt K top v flags cache st).map Prod.snd
    | .virtualToPhysical v flags => (virtualToPhysical K top v flags st).map Prod.snd
  else none

/-- No walk of the call meets a large page above the level it is heading for. That level is the
one of the page size, 2 MiB where `map` falls back to it, and always 4 KiB in `unmap`, whose loop
ends at the first page without a table. -/
def Op.Clear (K : Machine A) (top : ℕ) (st : State A) : Op → Prop
  | .map v _ flags _ =>
    if getPageSize flags = GiB1 ∧ K.gib1Pages = false then ClearAbove K st.mem top v 2
    else ClearAbove K st.mem top v (levelOf (getPageSize flags))
  | .unmap v flags =>
    if getPageSize flags = GiB1 ∧ K.gib1Pages = false then
      ∀ k < 512, (∀ j < k, nodeAt K st.mem top (pathTo (v + j * MiB2) 3) ≠ none) →
        ClearAbove K st.mem top (v + k * MiB2) 3
    else ClearAbove K st.mem top v 3
  | .setFlags v flags _ => ClearAbove K st.mem top v (levelOf (getPageSize flags))
  | .virtualToPhysical v flags => ClearAbove K st.mem top v (levelOf (getPageSize flags))

instance (K : Machine A) (top : ℕ) (st : State A) : ∀ op : Op, Decidable (op.Clear K top st)
  | .map .. => inferInstanceAs (Decidable (ite _ _ _))
  | .unmap .. => inferInstanceAs (Decidable (ite _ _ _))
  | .setFlags .. => inferInstanceAs (Decidable (ClearAbove ..))
  | .virtualToPhysical .. => inferInstanceAs (Decidable (ClearAbove ..))

/-- All addresses of an aligned 1 GiB region share their upper two entries. -/
theorem ClearAbove.offset {mem : Mem} (hal : v % GiB1 = 0) (h : ClearAbove K mem top v 2) {o : ℕ}
    (ho : o < GiB1) : ClearAbove K mem top (v + o) 2 := by
  intro d hd
  have hdiv : (v + o) / sizeAt 1 = v / sizeAt 1 := div_add_offset hal ho
  rw [pathTo_congr hdiv (by omega) (by norm_num), idx_congr hdiv (by omega) (by norm_num)]
  exact h d hd

theorem canonical_block (hv : Canonical v) (hal : v % GiB1 = 0) {k : ℕ} (hk : k < 512) :
    Canonical (v + k * MiB2) := by
  apply canonical_add (Or.inr (Or.inr rfl)) hv hal
  unfold MiB2 GiB1
  omega

/-- Clearing a small entry leaves the walks of the later rounds as they were. -/
theorem unmap_clear_later (hv : Canonical v) (hal : v % GiB1 = 0) {n m : ℕ}
    (hmn : m + 1 + n ≤ 512)
    (hc : ∀ k, m ≤ k → k < m + (n + 1) →
      (∀ j, m ≤ j → j < k → nodeAt K st.mem top (pathTo (v + j * MiB2) 3) ≠ none) →
        ClearAbove K st.mem top (v + k * MiB2) 3)
    (hput : Put K top st st' (v + m * MiB2) 3 none)
    (hfound : nodeAt K st.mem top (pathTo (v + m * MiB2) 3) ≠ none)
    (hnodes : ∀ p, nodeAt K st'.mem top p = nodeAt K st.mem top p) :
    ∀ k, m + 1 ≤ k → k < m + 1 + n →
      (∀ j, m + 1 ≤ j → j < k → nodeAt K st'.mem top (pathTo (v + j * MiB2) 3) ≠ none) →
        ClearAbove K st'.mem top (v + k * MiB2) 3 := by
  intro k hk hkn hlinked
  apply (hput.clearAbove (canonical_block hv hal (by omega)) (Nat.le_refl 3)).mpr
  refine hc k (by omega) (by omega) fun j hmj hjk => ?_
  by_cases hj : j = m
  · rw [hj]
    exact hfound
  · rw [← hnodes]
    exact hlinked j (by omega) hjk

theorem unmapLoop_spec (hv : Canonical v) (hal : v % GiB1 = 0) {n m : ℕ} (hmn : m + n ≤ 512)
    (ht : Tables K top st)
    (hc : ∀ k, m ≤ k → k < m + n →
      (∀ j, m ≤ j → j < k → nodeAt K st.mem top (pathTo (v + j * MiB2) 3) ≠ none) →
        ClearAbove K st.mem top (v + k * MiB2) 3) {ok : Bool}
    (he : unmapLoop K top v n (m * MiB2) st = some (ok, st')) :
    Tables K top st' ∧ Touches st st' := by
  induction n generalizing m st with
  | zero =>
    simp only [unmapLoop, Option.some.injEq, Prod.mk.injEq] at he
    obtain ⟨-, rfl⟩ := he
    exact ⟨ht, Touches.refl st⟩
  | succ n ih =>
    have hvm := canonical_block hv hal (k := m) (by omega)
    obtain ⟨⟨ok1, st1⟩, h1, h2⟩ := Option.bind_eq_some_iff.mp he
    rw [wrap_of_lt hvm.2] at h1
    have hclear := hc m (Nat.le_refl m) (by omega) fun j h3 h4 => absurd h3 (by omega)
    obtain ⟨ht1, hput, hfound, hnodes⟩ := unmapOne_spec ht hvm hclear h1
    cases ok1 with
    | false =>
      simp only [Bool.false_eq_true, if_false, Option.some.injEq, Prod.mk.injEq] at h2
      obtain ⟨-, rfl⟩ := h2
      exact ⟨ht1, hput.toTouches⟩
    | true =>
      simp only [if_true] at h2
      rw [← Nat.succ_mul] at h2
      obtain ⟨ht2, htouch⟩ := ih (by omega) ht1
        (unmap_clear_later hv hal (by omega) hc hput (hfound.mp rfl) hnodes) h2
      exact ⟨ht2, hput.toTouches.trans htouch⟩

theorem map_touches {pa : ℕ} {flags : BitVec 64} {cache : Caching} (ht : Tables K top st)
    (hv : Canonical v) (hal : v % getPageSize flags = 0)
    (hc : (Op.map v pa flags cache).Clear K top st) {ok : Bool}
    (he : map K top v pa flags cache st = some (ok, st')) : Tables K top st' ∧ Touches st st' := by
  simp only [Op.Clear] at hc
  split_ifs at hc with hfall
  · obtain ⟨hsize, hg⟩ := hfall
    rw [hsize] at hal
    rw [map_fallback (getPageSize_eq_GiB1.mp hsize) hg] at he
    obtain ⟨-, ht', hput⟩ := mapLoop_spec (isLpage_fallback flags) hv hal rfl (by decide) ht
      (fun o ho => hc.offset hal ho) he
    exact ⟨ht', hput.toTouches⟩
  · rw [map, if_neg hfall] at he
    obtain ⟨-, ht', old, hput⟩ := mapOne_spec ht hv (levelOf_getPageSize flags) hc he
    exact ⟨ht', hput.toTouches⟩

theorem unmap_touches {flags : BitVec 64} (ht : Tables K top st) (hv : Canonical v)
    (hal : v % getPageSize flags = 0) (hc : (Op.unmap v flags).Clear K top st) {ok : Bool}
    (he : unmap K top v flags st = some (ok, st')) : Tables K top st' ∧ Touches st st' := by
  simp only [Op.Clear] at hc
  split_ifs at hc with hfall
  · have hrounds : GiB1 / MiB2 = 512 := rfl
    rw [hfall.1] at hal
    rw [unmap, if_pos hfall, hrounds, ← Nat.zero_mul MiB2] at he
    apply unmapLoop_spec hv hal (by norm_num) ht (fun k _ hk hnodes => ?_) he
    exact hc k (by omega) fun j hj => hnodes j (Nat.zero_le j) hj
  · rw [unmap, if_neg hfall] at he
    obtain ⟨ht', hput, -⟩ := unmapOne_spec ht hv hc he
    exact ⟨ht', hput.toTouches⟩

/-- A clear call keeps the tree and touches tables only. -/
theorem opStep_touches {op : Op} (ht : Tables K top st) (hc : op.Clear K top st)
    (he : opStep K top st op = some st') : Tables K top st' ∧ Touches st st' := by
  unfold opStep at he
  split_ifs at he with hal
  cases op with
  | map v pa flags cache =>
    obtain ⟨⟨ok, st1⟩, hm, rfl⟩ := Option.map_eq_some_iff.mp he
    exact map_touches ht hal.1 hal.2 hc hm
  | unmap v flags =>
    obtain ⟨⟨ok, st1⟩, hm, rfl⟩ := Option.map_eq_some_iff.mp he
    exact unmap_touches ht hal.1 hal.2 hc hm
  | setFlags v flags cache =>
    obtain ⟨⟨ok, st1⟩, hm, rfl⟩ := Option.map_eq_some_iff.mp he
    obtain ⟨-, ht', w, hput⟩ := setFlagsAt_spec ht hal.1 hc hm
    exact ⟨ht', hput.toTouches⟩
  | virtualToPhysical v flags =>
    obtain ⟨⟨r, st1⟩, hm, rfl⟩ := Option.map_eq_some_iff.mp he
    obtain ⟨vis, hr, ht', hg⟩ := virtualToPhysical_spec ht flags hc
    rw [hr] at hm
    simp only [Option.some.injEq, Prod.mk.injEq] at hm
    obtain ⟨-, rfl⟩ := hm
    exact ⟨ht', hg.toTouches⟩

/-! ## Properties every call keeps -/

/-- Kept by a walk, and by storing a word that is not a link in a table below the top. -/
structure Kept (K : Machine A) (top : ℕ) (P : State A → Prop) : Prop where
  walked : ∀ {st st' : State A} {r : List ℕ}, Skeleton K top st → Skeleton K top st' →
    Walked K top r st st' → P st → P st'
  stored : ∀ {st : State A} {p : List ℕ} {t : ℕ} {w : BitVec 64} (i : ℕ), Skeleton K top st →
    nodeAt K st.mem top p = some t → 0 < p.length →
    (decode K.hhdm.offset p.length w).child? = none → P st →
    P { st with mem := write st.mem t i w }

namespace Kept

variable {P : State A → Prop}

/-- An operation that walks to an entry and stores a word in it that is not a link. -/
theorem entry (hk : Kept K top P) (h : P st) (ht : Tables K top st) {pageSize : ℕ}
    (hc : ClearAbove K st.mem top v (levelOf pageSize)) {allocate : Bool} {e : Option (ℕ × ℕ)}
    (he : virtualToPtEntry K top v allocate pageSize st = some (e, st')) :
    P st' ∧ ∀ t i w, e = some (t, i) →
      (decode K.hhdm.offset (levelOf pageSize) w).child? = none →
        P { st' with mem := write st'.mem t i w } := by
  obtain ⟨hs, hw, hr⟩ := ht.skeleton.entry hc he
  have hwalked := hk.walked ht.skeleton hs hw h
  refine ⟨hwalked, fun t i w heq hword => ?_⟩
  rcases hr with ⟨t', rfl, hn⟩ | ⟨rfl, -⟩
  · simp only [Option.some.injEq, Prod.mk.injEq] at heq
    obtain ⟨rfl, rfl⟩ := heq
    exact hk.stored _ hs hn (by rw [length_pathTo]; exact (levelOf_bounds pageSize).1)
      (by rwa [length_pathTo]) hwalked
  · simp at heq

theorem mapOne (hk : Kept K top P) (h : P st) (ht : Tables K top st) {pa : ℕ}
    {flags : BitVec 64} {cache : Caching} {pageSize : ℕ}
    (hl : levelOf pageSize = 3 ∨ isLpage flags = true)
    (hc : ClearAbove K st.mem top v (levelOf pageSize)) {ok : Bool}
    (he : Paging.mapOne K top v pa flags cache pageSize st = some (ok, st')) :
    P st' := by
  obtain ⟨⟨e, st1⟩, hw, heq⟩ := Option.map_eq_some_iff.mp he
  obtain ⟨hwalked, hput⟩ := hk.entry h ht hc hw
  cases e with
  | none =>
    simp only [Prod.mk.injEq] at heq
    rwa [← heq.2]
  | some e =>
    simp only [Prod.mk.injEq] at heq
    rw [← heq.2]
    refine hput e.1 e.2 (mappedWord _ pa flags cache pageSize) rfl ?_
    rw [decode_mappedWord _ _ _ _ hl]
    rfl

theorem unmapOne (hk : Kept K top P) (h : P st) (ht : Tables K top st)
    (hc : ClearAbove K st.mem top v 3) {ok : Bool}
    (he : Paging.unmapOne K top v st = some (ok, st')) : P st' := by
  obtain ⟨⟨e, st1⟩, hw, heq⟩ := Option.map_eq_some_iff.mp he
  have hc' : ClearAbove K st.mem top v (levelOf KiB4) := hc
  obtain ⟨hwalked, hput⟩ := hk.entry h ht hc' hw
  cases e with
  | none =>
    simp only [Prod.mk.injEq] at heq
    rwa [← heq.2]
  | some e =>
    simp only [Prod.mk.injEq] at heq
    rw [← heq.2]
    exact hput e.1 e.2 0#64 rfl rfl

theorem mapLoop (hk : Kept K top P) {pa : ℕ} {flags : BitVec 64} {cache : Caching}
    (hf : isLpage flags = true) (hv : Canonical v) (hal : v % GiB1 = 0) {n m : ℕ}
    (hmn : m + n ≤ 512) (h : P st) (ht : Tables K top st)
    (hc : ∀ k < 512, ClearAbove K st.mem top (v + k * MiB2) 2) {ok : Bool}
    (he : Paging.mapLoop K top v pa flags cache n (m * MiB2) st = some (ok, st')) :
    P st' := by
  induction n generalizing m st with
  | zero =>
    simp only [Paging.mapLoop, Option.some.injEq, Prod.mk.injEq] at he
    rwa [← he.2]
  | succ n ih =>
    have hvm := canonical_block hv hal (k := m) (by omega)
    have hclear : ClearAbove K st.mem top (v + m * MiB2) (levelOf MiB2) := hc m (by omega)
    obtain ⟨⟨ok1, st1⟩, h1, h2⟩ := Option.bind_eq_some_iff.mp he
    rw [wrap_of_lt hvm.2] at h1
    have hkept := hk.mapOne h ht (Or.inr hf) hclear h1
    obtain ⟨rfl, ht1, old, hput⟩ := mapOne_spec ht hvm (Or.inr hf) hclear h1
    simp only [if_true] at h2
    rw [← Nat.succ_mul] at h2
    exact ih (by omega) hkept ht1 (fun k hk =>
      (hput.clearAbove (canonical_block hv hal hk) (Nat.le_refl 2)).mpr (hc k hk)) h2

theorem unmapLoop (hk : Kept K top P) (hv : Canonical v) (hal : v % GiB1 = 0) {n m : ℕ}
    (hmn : m + n ≤ 512) (h : P st) (ht : Tables K top st)
    (hc : ∀ k, m ≤ k → k < m + n →
      (∀ j, m ≤ j → j < k → nodeAt K st.mem top (pathTo (v + j * MiB2) 3) ≠ none) →
        ClearAbove K st.mem top (v + k * MiB2) 3) {ok : Bool}
    (he : Paging.unmapLoop K top v n (m * MiB2) st = some (ok, st')) : P st' := by
  induction n generalizing m st with
  | zero =>
    simp only [Paging.unmapLoop, Option.some.injEq, Prod.mk.injEq] at he
    rwa [← he.2]
  | succ n ih =>
    have hvm := canonical_block hv hal (k := m) (by omega)
    obtain ⟨⟨ok1, st1⟩, h1, h2⟩ := Option.bind_eq_some_iff.mp he
    rw [wrap_of_lt hvm.2] at h1
    have hclear := hc m (Nat.le_refl m) (by omega) fun j h3 h4 => absurd h3 (by omega)
    have hkept := hk.unmapOne h ht hclear h1
    obtain ⟨ht1, hput, hfound, hnodes⟩ := unmapOne_spec ht hvm hclear h1
    cases ok1 with
    | false =>
      simp only [Bool.false_eq_true, if_false, Option.some.injEq, Prod.mk.injEq] at h2
      rwa [← h2.2]
    | true =>
      simp only [if_true] at h2
      rw [← Nat.succ_mul] at h2
      refine ih (by omega) hkept ht1 (fun k hk hkn hlinked => ?_) h2
      exact unmap_clear_later hv hal (by omega) hc hput (hfound.mp rfl) hnodes k hk hkn hlinked

/-- Every clear call keeps the property. -/
theorem step (hk : Kept K top P) {op : Op} (h : P st) (ht : Tables K top st)
    (hc : op.Clear K top st) (he : opStep K top st op = some st') : P st' := by
  unfold opStep at he
  split_ifs at he with hal
  cases op with
  | map v pa flags cache =>
    obtain ⟨⟨ok, st1⟩, hm, rfl⟩ := Option.map_eq_some_iff.mp he
    simp only [Op.Clear] at hc
    split_ifs at hc with hfall
    · have hv : v % GiB1 = 0 := by
        rw [← hfall.1]
        exact hal.2
      rw [map_fallback (getPageSize_eq_GiB1.mp hfall.1) hfall.2, ← Nat.zero_mul MiB2] at hm
      refine hk.mapLoop (isLpage_fallback flags) hal.1 hv (by norm_num) h ht
        (fun k hk => hc.offset hv ?_) hm
      unfold MiB2 GiB1
      omega
    · rw [map, if_neg hfall] at hm
      exact hk.mapOne h ht (levelOf_getPageSize flags) hc hm
  | unmap v flags =>
    obtain ⟨⟨ok, st1⟩, hm, rfl⟩ := Option.map_eq_some_iff.mp he
    simp only [Op.Clear] at hc
    split_ifs at hc with hfall
    · have hrounds : GiB1 / MiB2 = 512 := rfl
      have hv : v % GiB1 = 0 := by
        rw [← hfall.1]
        exact hal.2
      rw [unmap, if_pos hfall, hrounds, ← Nat.zero_mul MiB2] at hm
      refine hk.unmapLoop hal.1 hv (by norm_num) h ht (fun k _ hk hnodes => ?_) hm
      exact hc k (by omega) fun j hj => hnodes j (Nat.zero_le j) hj
    · rw [unmap, if_neg hfall] at hm
      exact hk.unmapOne h ht hc hm
  | setFlags v flags cache =>
    obtain ⟨⟨ok, st1⟩, hm, rfl⟩ := Option.map_eq_some_iff.mp he
    obtain ⟨⟨e, st2⟩, hw, heq⟩ := Option.map_eq_some_iff.mp hm
    obtain ⟨hwalked, hput⟩ := hk.entry h ht hc hw
    cases e with
    | none =>
      simp only [Prod.mk.injEq] at heq
      rwa [← heq.2]
    | some e =>
      simp only [Prod.mk.injEq] at heq
      rw [← heq.2]
      refine hput e.1 e.2 (mappedWord 0#64 _ flags cache (getPageSize flags)) rfl ?_
      rw [decode_mappedWord _ _ _ _ (levelOf_getPageSize flags)]
      rfl
  | virtualToPhysical v flags =>
    obtain ⟨⟨r, st1⟩, hm, rfl⟩ := Option.map_eq_some_iff.mp he
    obtain ⟨⟨e, st2⟩, hw, heq⟩ := Option.map_eq_some_iff.mp hm
    obtain ⟨hwalked, -⟩ := hk.entry h ht hc hw
    have hst : st2 = st1 := by
      cases e with
      | none => exact (Prod.mk.inj heq).2
      | some e =>
        dsimp only at heq
        split_ifs at heq <;> exact (Prod.mk.inj heq).2
    rwa [← hst]

theorem fill (hk : Kept K top P) (h : P st) (ht : Tables K top st) {n i : ℕ}
    (he : fillUpperHalf K top n i st = some st') : P st' := by
  induction n generalizing i st with
  | zero =>
    obtain rfl : st = st' := by simpa [fillUpperHalf] using he
    exact h
  | succ n ih =>
    obtain ⟨⟨r, st1⟩, h1, h2⟩ := Option.bind_eq_some_iff.mp he
    obtain ⟨hs1, hw, -⟩ := ht.skeleton.next (p := []) rfl (by norm_num) (leaf_top K st.mem top i) h1
    exact ih (hk.walked ht.skeleton hs1 hw h) (Tables.of_skeleton hs1 (hw.zero ht.zero)) h2

theorem run (hk : Kept K top P) {st₀ : State A} {ops : List Op} (h : P st₀)
    (ht : Tables K top st₀)
    (hclear : Run.Along (opStep K top) (fun st op => op.Clear K top st) st₀ ops)
    (hrun : Run.run (opStep K top) st₀ ops = some st) : Tables K top st ∧ P st := by
  apply Run.run_invariant_along (I := fun st => Tables K top st ∧ P st) _ ⟨ht, h⟩ hclear hrun
  intro s op s' hi hc he
  exact ⟨(opStep_touches hi.1 hc he).1, hk.step hi.2 hi.1 hc he⟩

end Kept

/-! ## Calls that are not clear -/

/-- The frame of a large page was taken for a table. -/
def Strays (K : Machine A) (top : ℕ) (st st' : State A) : Prop :=
  ∃ a d w, Canonical a ∧ d < 3 ∧ leafFor K st.mem top a d = some w ∧
    tohh K.hhdm.offset (getAddress w) ∈ st'.visited

theorem Strays.mono {st'' : State A} (h : Strays K top st st') (hsub : st'.visited ⊆ st''.visited) :
    Strays K top st st'' := by
  obtain ⟨a, d, w, ha, hd, hw, hmem⟩ := h
  exact ⟨a, d, w, ha, hd, hw, hsub hmem⟩

theorem getNextLvl_visited {t i r : ℕ} {allocate : Bool}
    (he : getNextLvl K t i allocate st = some (r, st')) : st.visited ⊆ st'.visited := by
  unfold getNextLvl at he
  split_ifs at he
  · simp only [Option.some.injEq, Prod.mk.injEq] at he
    rw [← he.2]
    exact List.Subset.refl _
  · simp only [Option.some.injEq, Prod.mk.injEq] at he
    rw [← he.2]
    exact List.subset_cons_self _ _
  · simp only [newTable, Option.map_map] at he
    obtain ⟨⟨q, heap⟩, -, heq⟩ := Option.map_eq_some_iff.mp he
    simp only [Function.comp_apply, Prod.mk.injEq] at heq
    rw [← heq.2]
    exact List.subset_cons_self _ _
  · simp only [Option.some.injEq, Prod.mk.injEq] at he
    rw [← he.2]
    exact List.Subset.refl _

theorem walk_visited {t d : ℕ} {allocate : Bool}
    (he : walk K top v allocate d st = some (t, st')) : st.visited ⊆ st'.visited := by
  induction d generalizing t st' with
  | zero =>
    simp only [walk, Option.some.injEq, Prod.mk.injEq] at he
    rw [← he.2]
    exact List.Subset.refl _
  | succ d ih =>
    obtain ⟨⟨s, st1⟩, h1, h2⟩ := Option.bind_eq_some_iff.mp he
    exact List.Subset.trans (ih h1) (getNextLvl_visited h2)

/-- A walk that is to go below a leaf takes its frame for a table. -/
theorem Tables.walk_strays (ht : Tables K top st) {d level : ℕ} (hd : d < level) (hl : level ≤ 3)
    {w : BitVec 64} (h : leafFor K st.mem top v d = some w) {allocate : Bool} {t : ℕ}
    (he : Paging.walk K top v allocate level st = some (t, st')) :
    tohh K.hhdm.offset (getAddress w) ∈ st'.visited := by
  induction level generalizing t st' with
  | zero => omega
  | succ level ih =>
    obtain ⟨⟨s, st1⟩, h1, h2⟩ := Option.bind_eq_some_iff.mp he
    by_cases hlast : d < level
    · exact getNextLvl_visited h2 (ih hlast (by omega) h1)
    obtain rfl : d = level := by omega
    -- above the leaf the walk follows the tree, so it arrives at the entry that holds the leaf
    obtain ⟨-, hg, hs⟩ := ht.walk (by omega) (fun e he => leafFor_above h he) h1
    have hleaf : leafFor K st1.mem top v d = some w := (hg.leaves _ _).trans h
    obtain ⟨t1, hn, hword, h0⟩ := leafFor_eq_some hleaf
    rcases hs with ⟨hs0, hs⟩ | ⟨-, -, hs⟩
    · obtain rfl : s = t1 := Option.some.inj (hs.symm.trans hn)
      simp only [getNextLvl, hs0, if_false, getFlags_present, hword, h0, if_true,
        Option.some.injEq, Prod.mk.injEq] at h2
      rw [← h2.2]
      exact List.mem_cons_self
    · obtain ⟨t2, hn2, -⟩ := leafFor_eq_some h
      rw [hs] at hn2
      simp at hn2

theorem walk_of_entry {pageSize : ℕ} {allocate : Bool} {e : Option (ℕ × ℕ)}
    (he : virtualToPtEntry K top v allocate pageSize st = some (e, st')) :
    ∃ t, walk K top v allocate (levelOf pageSize) st = some (t, st') := by
  rw [virtualToPtEntry_eq] at he
  obtain ⟨⟨t, st1⟩, hw, heq⟩ := Option.map_eq_some_iff.mp he
  have hst : st1 = st' := by
    dsimp only at heq
    split_ifs at heq <;> exact (Prod.mk.inj heq).2
  exact ⟨t, hst ▸ hw⟩

section Entry

variable {β : Type} {pageSize : ℕ} {allocate : Bool} {r : β}
  {f : Option (ℕ × ℕ) × State A → β × State A} (hf : ∀ e st, (f (e, st)).2.visited = st.visited)

include hf

/-- An operation that walks to an entry and then visits no further tables. -/
theorem entry_visited
    (he : (virtualToPtEntry K top v allocate pageSize st).map f = some (r, st')) :
    st.visited ⊆ st'.visited := by
  obtain ⟨⟨e, st1⟩, hw, heq⟩ := Option.map_eq_some_iff.mp he
  obtain ⟨t, hwalk⟩ := walk_of_entry hw
  have hvis := hf e st1
  rw [heq] at hvis
  rw [hvis]
  exact walk_visited hwalk

theorem entry_strays (ht : Tables K top st) (hv : Canonical v) {level : ℕ}
    (hc : ¬ ClearAbove K st.mem top v level)
    (he : (virtualToPtEntry K top v allocate pageSize st).map f = some (r, st'))
    (hl : levelOf pageSize = level) : Strays K top st st' := by
  obtain ⟨⟨e, st1⟩, hw, heq⟩ := Option.map_eq_some_iff.mp he
  obtain ⟨t, hwalk⟩ := walk_of_entry hw
  have hvis := hf e st1
  rw [heq] at hvis
  unfold ClearAbove at hc
  push Not at hc
  obtain ⟨d, hd, hne⟩ := hc
  obtain ⟨w, hleaf⟩ := Option.ne_none_iff_exists'.mp hne
  have hbound := (levelOf_bounds pageSize).2
  rw [← hl] at hd
  refine ⟨v, d, w, hv, by omega, hleaf, ?_⟩
  rw [hvis]
  exact ht.walk_strays hd hbound hleaf hwalk

end Entry

/-- The end of a round of either loop: go on, or stop after a failure. -/
theorem rest_visited {rest : State A → Option (Bool × State A)} {ok ok' : Bool}
    (hrest : rest st = some (ok', st') → st.visited ⊆ st'.visited)
    (h : (if ok then rest st else some (false, st)) = some (ok', st')) :
    st.visited ⊆ st'.visited := by
  cases ok with
  | false =>
    simp only [Bool.false_eq_true, if_false, Option.some.injEq, Prod.mk.injEq] at h
    rw [← h.2]
    exact List.Subset.refl _
  | true => exact hrest h

theorem mapLoop_visited {pa n i : ℕ} {flags : BitVec 64} {cache : Caching} {ok : Bool}
    (he : mapLoop K top v pa flags cache n i st = some (ok, st')) : st.visited ⊆ st'.visited := by
  induction n generalizing i st with
  | zero =>
    simp only [mapLoop, Option.some.injEq, Prod.mk.injEq] at he
    rw [← he.2]
    exact List.Subset.refl _
  | succ n ih =>
    obtain ⟨⟨ok1, st1⟩, h1, h2⟩ := Option.bind_eq_some_iff.mp he
    have hfirst : st.visited ⊆ st1.visited := entry_visited (fun e st => by cases e <;> rfl) h1
    exact List.Subset.trans hfirst (rest_visited ih h2)

theorem unmapLoop_visited {n i : ℕ} {ok : Bool}
    (he : unmapLoop K top v n i st = some (ok, st')) : st.visited ⊆ st'.visited := by
  induction n generalizing i st with
  | zero =>
    simp only [unmapLoop, Option.some.injEq, Prod.mk.injEq] at he
    rw [← he.2]
    exact List.Subset.refl _
  | succ n ih =>
    obtain ⟨⟨ok1, st1⟩, h1, h2⟩ := Option.bind_eq_some_iff.mp he
    have hfirst : st.visited ⊆ st1.visited := entry_visited (fun e st => by cases e <;> rfl) h1
    exact List.Subset.trans hfirst (rest_visited ih h2)

theorem map_strays {pa : ℕ} {flags : BitVec 64} {cache : Caching} (ht : Tables K top st)
    (hv : Canonical v) (hc : ¬ (Op.map v pa flags cache).Clear K top st) {ok : Bool}
    (he : map K top v pa flags cache st = some (ok, st')) : Strays K top st st' := by
  simp only [Op.Clear] at hc
  split_ifs at hc with hfall
  · -- already the first round meets the 1 GiB page
    rw [map_fallback (getPageSize_eq_GiB1.mp hfall.1) hfall.2] at he
    obtain ⟨⟨ok1, st1⟩, h1, h2⟩ := Option.bind_eq_some_iff.mp
      (show mapLoop K top v pa _ cache (511 + 1) 0 st = _ from he)
    rw [Nat.add_zero, wrap_of_lt hv.2] at h1
    have hfirst : Strays K top st st1 :=
      entry_strays (fun e st => by cases e <;> rfl) ht hv hc h1 rfl
    exact hfirst.mono (rest_visited mapLoop_visited h2)
  · rw [map, if_neg hfall] at he
    exact entry_strays (fun e st => by cases e <;> rfl) ht hv hc he rfl

theorem unmapLoop_strays (hv : Canonical v) (hal : v % GiB1 = 0) {n m k : ℕ} (hmn : m + n ≤ 512)
    (ht : Tables K top st) (hmk : m ≤ k) (hkn : k < m + n)
    (hlinked : ∀ j, m ≤ j → j < k → nodeAt K st.mem top (pathTo (v + j * MiB2) 3) ≠ none)
    (hc : ¬ ClearAbove K st.mem top (v + k * MiB2) 3) {ok : Bool}
    (he : unmapLoop K top v n (m * MiB2) st = some (ok, st')) : Strays K top st st' := by
  induction n generalizing m st with
  | zero => omega
  | succ n ih =>
    have hvm := canonical_block hv hal (k := m) (by omega)
    obtain ⟨⟨ok1, st1⟩, h1, h2⟩ := Option.bind_eq_some_iff.mp he
    rw [wrap_of_lt hvm.2] at h1
    by_cases hclear : ClearAbove K st.mem top (v + m * MiB2) 3
    · obtain ⟨ht1, hput, hfound, hnodes⟩ := unmapOne_spec ht hvm hclear h1
      have hne : m ≠ k := fun h => hc (h ▸ hclear)
      obtain rfl := hfound.mpr (hlinked m (Nat.le_refl m) (by omega))
      simp only [if_true] at h2
      rw [← Nat.succ_mul] at h2
      have hvk := canonical_block hv hal (k := k) (by omega)
      obtain ⟨a, d, w, ha, hd, hw, hvis⟩ := ih (by omega) ht1 (by omega) (by omega)
        (fun j hj hjk => by rw [hnodes]; exact hlinked j (by omega) hjk)
        (fun h => hc ((hput.clearAbove hvk (Nat.le_refl 3)).mp h)) h2
      -- the large leaf was there before this round
      refine ⟨a, d, w, ha, hd, ?_, hvis⟩
      rwa [hput.leaf a d ha, if_neg (by omega)] at hw
    · have hfirst : Strays K top st st1 :=
        entry_strays (fun e st => by cases e <;> rfl) ht hvm hclear h1 rfl
      exact hfirst.mono (rest_visited unmapLoop_visited h2)

theorem unmap_strays {flags : BitVec 64} (ht : Tables K top st) (hv : Canonical v)
    (hal : v % getPageSize flags = 0) (hc : ¬ (Op.unmap v flags).Clear K top st) {ok : Bool}
    (he : unmap K top v flags st = some (ok, st')) : Strays K top st st' := by
  simp only [Op.Clear] at hc
  split_ifs at hc with hfall
  · have hrounds : GiB1 / MiB2 = 512 := rfl
    rw [hfall.1] at hal
    rw [unmap, if_pos hfall, hrounds, ← Nat.zero_mul MiB2] at he
    push Not at hc
    obtain ⟨k, hk, hlinked, hclear⟩ := hc
    exact unmapLoop_strays hv hal (by norm_num) ht (Nat.zero_le k) (by omega)
      (fun j _ hj => hlinked j hj) hclear he
  · rw [unmap, if_neg hfall] at he
    exact entry_strays (fun e st => by cases e <;> rfl) ht hv hc he rfl

/-- A call that is not clear takes the frame of a large page for a table. -/
theorem opStep_strays {op : Op} (ht : Tables K top st) (hc : ¬ op.Clear K top st)
    (he : opStep K top st op = some st') : Strays K top st st' := by
  unfold opStep at he
  split_ifs at he with hal
  cases op with
  | map v pa flags cache =>
    obtain ⟨⟨ok, st1⟩, hm, rfl⟩ := Option.map_eq_some_iff.mp he
    exact map_strays ht hal.1 hc hm
  | unmap v flags =>
    obtain ⟨⟨ok, st1⟩, hm, rfl⟩ := Option.map_eq_some_iff.mp he
    exact unmap_strays ht hal.1 hal.2 hc hm
  | setFlags v flags cache =>
    obtain ⟨⟨ok, st1⟩, hm, rfl⟩ := Option.map_eq_some_iff.mp he
    exact entry_strays (fun e st => by cases e <;> rfl) ht hal.1 hc hm rfl
  | virtualToPhysical v flags =>
    obtain ⟨⟨r, st1⟩, hm, rfl⟩ := Option.map_eq_some_iff.mp he
    refine entry_strays (fun e st => ?_) ht hal hc hm rfl
    cases e with
    | none => rfl
    | some e =>
      dsimp only
      split_ifs <;> rfl

/-! ## Whole runs -/

theorem clear_run_spec {mem : Mem} {st₀ : State A} {ops : List Op}
    (h0 : Constructed K mem top st₀)
    (hclear : Run.Along (opStep K top) (fun st op => op.Clear K top st) st₀ ops)
    (hrun : Run.run (opStep K top) st₀ ops = some st) :
    Tables K top st ∧ TablesOnly mem st := by
  apply Run.run_invariant_along (I := fun st => Tables K top st ∧ TablesOnly mem st) _ h0.spec
    hclear hrun
  intro s op s' hi hc he
  obtain ⟨ht, htouch⟩ := opStep_touches hi.1 hc he
  exact ⟨ht, hi.2.touches htouch⟩

/-- In a run whose calls are all clear, every table `get_next_lvl` returned is one of the
pagemap, and nothing else was written. The first call that is not clear takes the frame of a
large page for a table. -/
theorem walks_stay_in_tables (K : Machine A) {mem : Mem} {st₀ : State A} {ops : List Op}
    (h0 : Constructed K mem top st₀)
    (hclear : Run.Along (opStep K top) (fun st op => op.Clear K top st) st₀ ops)
    (hrun : Run.run (opStep K top) st₀ ops = some st) :
    (∀ t ∈ st.visited, t ∈ st.tables) ∧ (∀ t, t ∉ st.tables → st.mem t = mem t) ∧
      ∀ op st', opStep K top st op = some st' → ¬ op.Clear K top st → Strays K top st st' := by
  obtain ⟨ht, honly⟩ := clear_run_spec h0 hclear hrun
  exact ⟨honly.visited, honly.frame, fun op st' he hc => opStep_strays ht hc he⟩

/-- Calls at two page sizes. -/
def mixedOps : List Op :=
  [.map 0x200000 0x600000 LPAGE .uncachable, .map 0x401000 0x9000 WRITE .writeBack,
    .setFlags 0x200000 (LPAGE ||| WRITE) .uncachable, .virtualToPhysical 0x200123 LPAGE,
    .unmap 0x401000 0]

theorem walks_stay_in_tables_small :
    ∃ top st₀ st, construct (orderedMachine true) none (start (fun _ _ => 7#64) 1) =
        some (top, st₀) ∧
      Run.run (opStep (orderedMachine true) top) st₀ mixedOps = some st ∧
      (∀ t ∈ st.visited, t ∈ st.tables) ∧ ∀ t, t ∉ st.tables → st.mem t = fun _ => 7#64 := by
  have hsome : ((construct (orderedMachine true) none (start (fun _ _ => 7#64) 1)).bind
      fun (top, st₀) =>
        if Run.Along (opStep (orderedMachine true) top)
            (fun st op => op.Clear (orderedMachine true) top st) st₀ mixedOps then
          Run.run (opStep (orderedMachine true) top) st₀ mixedOps
        else none).isSome = true := by
    decide +kernel
  obtain ⟨st, hst⟩ := Option.isSome_iff_exists.mp hsome
  obtain ⟨⟨top, st₀⟩, h0, h1⟩ := Option.bind_eq_some_iff.mp hst
  dsimp only at h1
  split_ifs at h1 with hclear
  obtain ⟨hvis, hframe, -⟩ := walks_stay_in_tables (orderedMachine true) (.first h0) hclear h1
  exact ⟨top, st₀, st, h0, h1, hvis, hframe⟩

/-- A lookup with 4 KiB flags of an address in a 2 MiB page reads the mapped frame as a table. -/
theorem lookup_reads_frame :
    ∃ top st₀ st, construct (orderedMachine false) none (start (fun _ _ => 7#64) 1) =
        some (top, st₀) ∧
      Run.run (opStep (orderedMachine false) top) st₀
        [.map 0x200000 0x600000 LPAGE .uncachable, .virtualToPhysical 0x200000 0] = some st ∧
      tohh Physical.smallHhdm.offset 0x600000 ∈ st.visited ∧
      tohh Physical.smallHhdm.offset 0x600000 ∉ st.tables := by
  have hrun : ((construct (orderedMachine false) none (start (fun _ _ => 7#64) 1)).bind
      fun (top, st₀) => (Run.run (opStep (orderedMachine false) top) st₀
        [.map 0x200000 0x600000 LPAGE .uncachable, .virtualToPhysical 0x200000 0]).map fun st =>
          (decide (tohh Physical.smallHhdm.offset 0x600000 ∈ st.visited),
            decide (tohh Physical.smallHhdm.offset 0x600000 ∈ st.tables))) =
        some (true, false) := by
    decide +kernel
  obtain ⟨⟨top, st₀⟩, h0, h1⟩ := Option.bind_eq_some_iff.mp hrun
  obtain ⟨st, hst, h2⟩ := Option.map_eq_some_iff.mp h1
  simp only [Prod.mk.injEq, decide_eq_true_eq, decide_eq_false_iff_not] at h2
  exact ⟨top, st₀, st, h0, hst, h2.1, h2.2⟩

end IceKernel.Paging
