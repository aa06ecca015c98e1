import IceKernel.Memory.PagingWalk

/-!
# Address spaces

Pagemaps constructed after `kernel_pagemap` share the tables of the upper
half with it and with each other. Each keeps the tables of its lower half to
itself.
-/

namespace IceKernel.Paging
open Word64 RadixTree

variable {A : Type} {K : Machine A} {top k r s v : ℕ} {roots : List ℕ} {st st' : State A}

/-! ## The two halves -/

def UpperHalf (a : ℕ) : Prop := 0xFFFF800000000000 ≤ a

def LowerHalf (a : ℕ) : Prop := a ≤ 0x00007FFFFFFFFFFF

instance (a : ℕ) : Decidable (UpperHalf a) := inferInstanceAs (Decidable (_ ≤ _))

instance (a : ℕ) : Decidable (LowerHalf a) := inferInstanceAs (Decidable (_ ≤ _))

/-- The top-level entries of the upper half. -/
def UpperIndex (j : ℕ) : Prop := 256 ≤ j ∧ j < 512

/-- A path that leaves the top level in the upper half. -/
def UpperPath (p : List ℕ) : Prop := ∃ j, p.getLast? = some j ∧ UpperIndex j

theorem Canonical.half {a : ℕ} (ha : Canonical a) : LowerHalf a ∨ UpperHalf a := by
  simpa [isCanonical, LowerHalf, UpperHalf] using ha.1

theorem LowerHalf.canonical {a : ℕ} (ha : LowerHalf a) : Canonical a := by
  unfold LowerHalf at ha
  refine ⟨?_, by omega⟩
  simp only [isCanonical, Bool.or_eq_true, decide_eq_true_eq]
  exact Or.inl ha

theorem LowerHalf.idx_lt {a : ℕ} (ha : LowerHalf a) : idx a 0 < 256 := by
  unfold LowerHalf at ha
  rw [idx_eq, sizeAt]
  norm_num
  omega

theorem UpperHalf.upperIndex {a : ℕ} (hc : Canonical a) (ha : UpperHalf a) :
    UpperIndex (idx a 0) := by
  have hlt := hc.2
  unfold UpperHalf at ha
  rw [UpperIndex, idx_eq, sizeAt]
  norm_num
  omega

/-- Addresses of different halves lie in different pages. -/
theorem half_ne {a : ℕ} (ha : LowerHalf a) (hv : UpperHalf v) : a / sizeAt 3 ≠ v / sizeAt 3 := by
  unfold LowerHalf at ha
  unfold UpperHalf at hv
  rw [sizeAt]
  norm_num
  omega

theorem getLast?_suffix {p : List ℕ} (h : p <:+ pathTo v 3) (hp : p ≠ []) :
    p.getLast? = some (idx v 0) := by
  obtain ⟨q, hq⟩ := h
  have hlast : (q ++ p).getLast? = some (idx v 0) := by
    rw [hq]
    rfl
  rwa [List.getLast?_append_of_ne_nil _ hp] at hlast

/-! ## Changes at one small page -/

/-- What an operation on the entry for `v` at the lowest level does to the tree below `top`: it
adds tables on the path of `v`, and writes no other table that was there. -/
structure Edited (K : Machine A) (top v : ℕ) (st st' : State A) : Prop extends Touches st st' where
  tree : Skeleton K top st'
  kept : ∀ p t, nodeAt K st.mem top p = some t → nodeAt K st'.mem top p = some t
  added : ∀ p t, nodeAt K st'.mem top p = some t →
    nodeAt K st.mem top p = some t ∨ (t ∉ st.tables ∧ p <:+ pathTo v 3)
  offPath : ∀ t ∈ st.tables, (∀ p, p <:+ pathTo v 3 → nodeAt K st.mem top p ≠ some t) →
    st'.mem t = st.mem t
  word : ∀ t ∈ st.tables, ∀ j, st.mem t j ≠ 0#64 →
    st'.mem t j = st.mem t j ∨ (nodeAt K st'.mem top (pathTo v 3) = some t ∧ j = idx v 3)

theorem Edited.of_walked (hs : Skeleton K top st')
    (hw : Walked K top (pathTo v 3) st st') : Edited K top v st st' where
  toTouches := hw.toTouches
  tree := hs
  kept := hw.nodes
  added := hw.added
  offPath := hw.offPath
  word t ht j hj := by
    rcases hw.word t (hw.tables t ht) j with ⟨-, heq⟩ | ⟨hz, -⟩
    · exact Or.inl heq
    · exact absurd (hz ht) hj

/-- Then a store in the entry for `v`. -/
theorem Edited.store {t : ℕ} (h : Edited K top v st st')
    (hn : nodeAt K st'.mem top (pathTo v 3) = some t) (w : BitVec 64) :
    Edited K top v st { st' with mem := write st'.mem t (idx v 3) w } := by
  have hlen : 0 < (pathTo v 3).length := by simp
  have hlow (u : BitVec 64) : (decode K.hhdm.offset (pathTo v 3).length u).child? = none := by
    rw [length_pathTo]
    exact decode_lowest _ u
  have hslot : (slotOf K st'.mem top (pathTo v 3) (idx v 3)).child? = none := by
    rw [slot_step hn, decode_lowest]
  have hnodes (p : List ℕ) :
      nodeAt K (write st'.mem t (idx v 3) w) top p = nodeAt K st'.mem top p :=
    descend_write_leaf h.tree.unshared hn hslot (hlow w) p
  have hother {u : ℕ} (hu : u ≠ t) : write st'.mem t (idx v 3) w u = st'.mem u :=
    write_node_of_ne hu
  refine ⟨⟨fun u hu => ?_, h.tables, h.visited⟩, h.tree.put hn hlen (hlow w) fun hlt => ?_,
    fun p u hp => (hnodes p).trans (h.kept p u hp), fun p u hp => ?_, fun u hu hoff => ?_,
    fun u hu j hj => ?_⟩
  · exact (hother fun heq => hu (heq ▸ h.tree.closed _ t hn)).trans (h.frame u hu)
  · exact absurd hlt (by simp)
  · exact h.added p u ((hnodes p).symm.trans hp)
  · -- the entry's table lies on the path, or is new
    have hut : u ≠ t := by
      rintro rfl
      rcases h.added _ u hn with hold | ⟨hnew, -⟩
      · exact hoff _ List.suffix_rfl hold
      · exact hnew hu
    exact (hother hut).trans (h.offPath u hu hoff)
  · by_cases huj : u = t ∧ j = idx v 3
    · exact Or.inr ⟨(hnodes _).trans (huj.1 ▸ hn), huj.2⟩
    · left
      dsimp only
      rw [write_of_ne huj]
      refine (h.word u hu j hj).resolve_right fun hnode => huj ⟨?_, hnode.2⟩
      exact Option.some.inj (hnode.1.symm.trans hn)

/-- The words of the top level that were not zero stay. -/
theorem Edited.row (h : Edited K top v st st') (htop : top ∈ st.tables) {j : ℕ}
    (hj : st.mem top j ≠ 0#64) : st'.mem top j = st.mem top j :=
  (h.word top htop j hj).resolve_right fun hn => h.tree.top_ne hn.1 (by simp) rfl

/-- `virtual_to_pt_entry` at the lowest level, and what a store through its result does. -/
theorem Skeleton.edit (hs : Skeleton K top st) (hv : Canonical v)
    (hc : ClearAbove K st.mem top v 3) {allocate : Bool} {e : Option (ℕ × ℕ)}
    (he : virtualToPtEntry K top v allocate KiB4 st = some (e, st')) :
    Edited K top v st st' ∧ Grows K top st st' ∧
      ((∃ t, e = some (t, idx v 3) ∧ nodeAt K st'.mem top (pathTo v 3) = some t ∧
        ∀ w, Edited K top v st { st' with mem := write st'.mem t (idx v 3) w } ∧
          Put K top st { st' with mem := write st'.mem t (idx v 3) w } v 3
            (decode K.hhdm.offset 3 w).leaf?) ∨
      (e = none ∧ allocate = false ∧ nodeAt K st.mem top (pathTo v 3) = none)) := by
  have hc' : ClearAbove K st.mem top v (levelOf KiB4) := hc
  obtain ⟨hs1, hw, hr⟩ := hs.entry hc' he
  have hedit : Edited K top v st st' := Edited.of_walked hs1 hw
  refine ⟨hedit, hw.toGrows, ?_⟩
  rcases hr with ⟨t, rfl, hn⟩ | ⟨rfl, hal, hn⟩
  · refine Or.inl ⟨t, rfl, hn, fun w => ⟨hedit.store hn w, Put.of_grows hw.toGrows ?_⟩⟩
    exact hs1.put_leaf hv (Nat.le_refl 3) hn (decode_lowest _ w)
  · exact Or.inr ⟨rfl, hal, hn⟩

/-- The frame a call leaves at its page. -/
def Call.frame : Call → Option ℕ
  | .map _ pa _ _ => some pa
  | .unmap _ _ => none

theorem PageMap.apply_eq (M : PageMap) (c : Call) :
    M.apply c = Function.update M (c.address / KiB4) c.frame := by
  cases c <;> rfl

/-- One `map` or `unmap` of a small page. -/
theorem step_edited {c : Call} (hs : Skeleton K top st)
    (hc : ClearAbove K st.mem top c.address 3) (he : step K top st c = some st') :
    Canonical c.address ∧ Edited K top c.address st st' ∧
      ∃ w, Put K top st st' c.address 3 w ∧ w.map getAddress = c.frame := by
  unfold Paging.step at he
  split_ifs at he with hplain
  cases c with
  | map v pa flags cache =>
    obtain ⟨hf, hv, -, hpa, hlt⟩ := hplain
    obtain ⟨⟨ok, st1⟩, hm, rfl⟩ := Option.map_eq_some_iff.mp he
    rw [map_plain hf] at hm
    obtain ⟨⟨e, st2⟩, hw, heq⟩ := Option.map_eq_some_iff.mp hm
    obtain ⟨-, -, ⟨t, rfl, -, hput⟩ | ⟨-, hal, -⟩⟩ := hs.edit hv hc hw
    · simp only [Prod.mk.injEq] at heq
      obtain ⟨-, rfl⟩ := heq
      obtain ⟨hedit, hleaf⟩ := hput (mappedWord (st2.mem t (idx v 3)) pa flags cache KiB4)
      rw [decode_leaf (mappedWord_present _ _ _ _ _) (by norm_num) (Or.inl (Nat.le_refl 3))] at hleaf
      exact ⟨hv, hedit, _, hleaf, congrArg some (getAddress_mappedWord_small _ hpa hlt _ _)⟩
    · exact absurd hal (by simp)
  | unmap v flags =>
    obtain ⟨hf, hv, -⟩ := hplain
    obtain ⟨⟨ok, st1⟩, hm, rfl⟩ := Option.map_eq_some_iff.mp he
    rw [unmap_plain hf] at hm
    obtain ⟨⟨e, st2⟩, hw, heq⟩ := Option.map_eq_some_iff.mp hm
    obtain ⟨hedit, hg, ⟨t, rfl, -, hput⟩ | ⟨rfl, -, hn⟩⟩ := hs.edit hv hc hw
    · simp only [Prod.mk.injEq] at heq
      obtain ⟨-, rfl⟩ := heq
      exact ⟨hv, (hput 0#64).1, _, (hput 0#64).2, rfl⟩
    · simp only [Prod.mk.injEq] at heq
      obtain ⟨-, rfl⟩ := heq
      exact ⟨hv, hedit, none, Put.of_no_table hg hn, rfl⟩

/-! ## Entries that two top levels have in common -/

section Shared

variable {a : ℕ} (hword : st.mem r (idx a 0) = st.mem s (idx a 0))

include hword

theorem nodeAt_shared (d : ℕ) :
    nodeAt K st.mem r (pathTo a (d + 1)) = nodeAt K st.mem s (pathTo a (d + 1)) := by
  induction d with
  | zero =>
    have h (q : ℕ) : nodeAt K st.mem q (pathTo a 1) =
        (decode K.hhdm.offset 0 (st.mem q (idx a 0))).child? := rfl
    rw [h, h, hword]
  | succ d ih =>
    rw [pathTo, nodeAt, nodeAt, descend, descend]
    exact congrArg (Option.bind · _) ih

theorem leafFor_shared (d : ℕ) : leafFor K st.mem r a d = leafFor K st.mem s a d := by
  cases d with
  | zero => rw [leafFor, leafOf, pathTo, leaf_top, leafFor, leafOf, pathTo, leaf_top]
  | succ d =>
    have hn := nodeAt_shared (K := K) hword d
    rw [leafFor, leafFor, leafOf, leafOf, slotOf, slotOf, slotAt, slotAt]
    simp only [nodeAt] at hn
    rw [hn]

/-- A walk below an entry that is present goes the same way from both top levels. -/
theorem walk_shared (hr : r ≠ 0) (hs : s ≠ 0) (hp : (st.mem s (idx a 0)).getLsbD 0 = true)
    (allocate : Bool) (d : ℕ) :
    walk K r a allocate (d + 1) st = walk K s a allocate (d + 1) st := by
  induction d with
  | zero =>
    simp only [walk, Option.bind_some, getNextLvl, if_neg hr, if_neg hs, hword, getFlags_present,
      hp, if_true]
  | succ d ih => rw [walk, ih, ← walk]

theorem entry_shared (hr : r ≠ 0) (hs : s ≠ 0) (hp : (st.mem s (idx a 0)).getLsbD 0 = true)
    (allocate : Bool) (pageSize : ℕ) :
    virtualToPtEntry K r a allocate pageSize st = virtualToPtEntry K s a allocate pageSize st := by
  obtain ⟨d, hd⟩ : ∃ d, levelOf pageSize = d + 1 :=
    ⟨levelOf pageSize - 1, by have := (levelOf_bounds pageSize).1; omega⟩
  rw [virtualToPtEntry_eq, virtualToPtEntry_eq, hd, walk_shared hword hr hs hp]

end Shared

/-! ## The invariant -/

/-- The pagemaps in `roots`, `k` being `kernel_pagemap`: every one is a tree, all have the present
upper entries of `k`, and a table reached through the lower half of one is in no other. -/
structure Spaces (K : Machine A) (k : ℕ) (roots : List ℕ) (st : State A) : Prop where
  kernel : k ∈ roots
  tree : ∀ r ∈ roots, Skeleton K r st
  shared : ∀ r ∈ roots, ∀ j, UpperIndex j → st.mem r j = st.mem k j
  filled : ∀ j, UpperIndex j → (st.mem k j).getLsbD 0 = true
  apart : ∀ r ∈ roots, ∀ s ∈ roots, ∀ p q t, nodeAt K st.mem r p = some t →
    nodeAt K st.mem s q = some t → ¬ UpperPath p → r = s

/-- Below the top level the path of a lower address is lower throughout. -/
theorem LowerHalf.not_upperPath (hv : LowerHalf v) {p : List ℕ} (hp : p <:+ pathTo v 3) :
    ¬ UpperPath p := by
  rintro ⟨j, hj, hge, -⟩
  by_cases hnil : p = []
  · rw [hnil] at hj
    simp at hj
  · rw [getLast?_suffix hp hnil, Option.some.injEq] at hj
    have := hv.idx_lt
    omega

theorem UpperHalf.upperPath (hc : Canonical v) (hv : UpperHalf v) {p : List ℕ}
    (hp : p <:+ pathTo v 3) (hnil : p ≠ []) : UpperPath p :=
  ⟨idx v 0, getLast?_suffix hp hnil, hv.upperIndex hc⟩

namespace Spaces

theorem ne_zero (h : Spaces K k roots st) (hr : r ∈ roots) : r ≠ 0 :=
  ((h.tree r hr).addr r (h.tree r hr).top_mem).pos

theorem word_eq (h : Spaces K k roots st) (hr : r ∈ roots) (hs : s ∈ roots) {j : ℕ}
    (hj : UpperIndex j) : st.mem r j = st.mem s j :=
  (h.shared r hr j hj).trans (h.shared s hs j hj).symm

theorem word_present (h : Spaces K k roots st) (hr : r ∈ roots) {j : ℕ} (hj : UpperIndex j) :
    (st.mem r j).getLsbD 0 = true := by
  rw [h.shared r hr j hj]
  exact h.filled j hj

/-- A change through one pagemap in the lower half leaves the tables of all others alone. -/
theorem lower_frame (h : Spaces K k roots st) (hr : r ∈ roots) (hv : LowerHalf v)
    (he : Edited K r v st st') (hs : s ∈ roots) (hne : s ≠ r) {p : List ℕ} {t : ℕ}
    (hp : nodeAt K st.mem s p = some t) : st'.mem t = st.mem t :=
  he.offPath t ((h.tree s hs).closed p t hp) fun q hq hnode =>
    hne (h.apart r hr s hs q p t hnode hp (hv.not_upperPath hq)).symm

theorem lower_nodes (h : Spaces K k roots st) (hr : r ∈ roots) (hv : LowerHalf v)
    (he : Edited K r v st st') (hs : s ∈ roots) (hne : s ≠ r) (p : List ℕ) :
    nodeAt K st'.mem s p = nodeAt K st.mem s p :=
  descend_congr (fun _ _ hq => h.lower_frame hr hv he hs hne hq) p

theorem lower_leaves (h : Spaces K k roots st) (hr : r ∈ roots) (hv : LowerHalf v)
    (he : Edited K r v st st') (hs : s ∈ roots) (hne : s ≠ r) (a d : ℕ) :
    leafFor K st'.mem s a d = leafFor K st.mem s a d :=
  congrArg Slot.leaf? (slotAt_congr (fun _ _ hq => h.lower_frame hr hv he hs hne hq) _ _)

/-- The top-level entries of the upper half stay. -/
theorem upper_row (h : Spaces K k roots st) (hr : r ∈ roots) (he : Edited K r v st st') {j : ℕ}
    (hj : UpperIndex j) : st'.mem r j = st.mem r j := by
  apply he.row (h.tree r hr).top_mem
  intro hz
  have hp := h.word_present hr hj
  rw [hz] at hp
  simp at hp

theorem lower_row (h : Spaces K k roots st) (hr : r ∈ roots) (hv : LowerHalf v)
    (he : Edited K r v st st') (hs : s ∈ roots) {j : ℕ} (hj : UpperIndex j) :
    st'.mem s j = st.mem s j := by
  by_cases hsr : s = r
  · rw [hsr]
    exact h.upper_row hr he hj
  · rw [h.lower_frame hr hv he hs hsr (p := []) rfl]

/-- A change in the lower half of one pagemap. -/
theorem lower_edit (h : Spaces K k roots st) (hr : r ∈ roots) (hv : LowerHalf v)
    (he : Edited K r v st st') : Spaces K k roots st' := by
  have hrow (s : ℕ) (hs : s ∈ roots) (j : ℕ) (hj : UpperIndex j) : st'.mem s j = st.mem s j :=
    h.lower_row hr hv he hs hj
  -- a table of another pagemap was there before, and is not new
  have hold (s : ℕ) (hs : s ∈ roots) (hsr : s ≠ r) (p : List ℕ) (t : ℕ)
      (hp : nodeAt K st'.mem s p = some t) : nodeAt K st.mem s p = some t ∧ t ∈ st.tables := by
    rw [h.lower_nodes hr hv he hs hsr] at hp
    exact ⟨hp, (h.tree s hs).closed p t hp⟩
  refine ⟨h.kernel, fun s hs => ?_, fun s hs j hj => ?_, fun j hj => ?_,
    fun s hs u hu p q t hp hq hlow => ?_⟩
  · by_cases hsr : s = r
    · rw [hsr]
      exact he.tree
    · exact (h.tree s hs).congr (fun p t hp => h.lower_frame hr hv he hs hsr hp) he.tables
        he.tree.owned he.tree.addr
  · rw [hrow s hs j hj, hrow k h.kernel j hj]
    exact h.shared s hs j hj
  · rw [hrow k h.kernel j hj]
    exact h.filled j hj
  · by_contra hsu
    by_cases hsr : s = r
    · obtain ⟨hq0, hmem⟩ := hold u hu (fun hur => hsu (hsr.trans hur.symm)) q t hq
      rw [hsr] at hp
      rcases he.added p t hp with hp0 | ⟨hnew, -⟩
      · exact hsu (hsr.trans (h.apart r hr u hu p q t hp0 hq0 hlow))
      · exact hnew hmem
    · obtain ⟨hp0, hmem⟩ := hold s hs hsr p t hp
      by_cases hur : u = r
      · rw [hur] at hq
        rcases he.added q t hq with hq0 | ⟨hnew, -⟩
        · exact hsu ((h.apart s hs r hr p q t hp0 hq0 hlow).trans hur.symm)
        · exact hnew hmem
      · exact hsu (h.apart s hs u hu p q t hp0 (hold u hu hur q t hq).1 hlow)

/-- A change in the upper half, which all pagemaps go through in the same way. -/
theorem upper_edit (h : Spaces K k roots st) (hc : Canonical v) (hv : UpperHalf v)
    (he : ∀ s ∈ roots, Edited K s v st st') : Spaces K k roots st' := by
  have hrow (s : ℕ) (hs : s ∈ roots) (j : ℕ) (hj : UpperIndex j) : st'.mem s j = st.mem s j :=
    h.upper_row hs (he s hs) hj
  refine ⟨h.kernel, fun s hs => (he s hs).tree, fun s hs j hj => ?_, fun j hj => ?_,
    fun s hs u hu p q t hp hq hlow => ?_⟩
  · rw [hrow s hs j hj, hrow k h.kernel j hj]
    exact h.shared s hs j hj
  · rw [hrow k h.kernel j hj]
    exact h.filled j hj
  · -- new tables lie on upper paths
    have hp0 : nodeAt K st.mem s p = some t := by
      rcases (he s hs).added p t hp with hp0 | ⟨-, hsuf⟩
      · exact hp0
      · by_cases hnil : p = []
        · rw [hnil] at hp ⊢
          exact hp
        · exact absurd (hv.upperPath hc hsuf hnil) hlow
    rcases (he u hu).added q t hq with hq0 | ⟨hnew, -⟩
    · exact h.apart s hs u hu p q t hp0 hq0 hlow
    · exact absurd ((h.tree s hs).closed p t hp0) hnew

/-- A new pagemap. -/
theorem construct (h : Spaces K k roots st)
    (he : Paging.construct K (some k) st = some (r, st')) :
    Spaces K k (r :: roots) st' ∧ r ∉ st.tables ∧ (∀ t ∈ st.tables, st'.mem t = st.mem t) ∧
      ∀ a, LowerHalf a → slotOf K st'.mem r (pathTo a 0) (idx a 0) = .empty := by
  have hk := h.tree k h.kernel
  obtain ⟨hfresh, htables, hkeep, hrow⟩ := construct_copy_mem hk he
  obtain ⟨htouch, howned, haddr⟩ := construct_copy_touches hk he
  have hframe (s : ℕ) (hs : s ∈ roots) (p : List ℕ) (t : ℕ)
      (hp : nodeAt K st.mem s p = some t) : st'.mem t = st.mem t :=
    hkeep t ((h.tree s hs).closed p t hp)
  have hnodes (s : ℕ) (hs : s ∈ roots) (p : List ℕ) :
      nodeAt K st'.mem s p = nodeAt K st.mem s p := descend_congr (hframe s hs) p
  have hold (s : ℕ) (hs : s ∈ roots) (j : ℕ) : st'.mem s j = st.mem s j := by
    rw [hframe s hs [] s rfl]
  -- every table below the new top level is one of the kernel's upper half
  have hupper (p : List ℕ) (t : ℕ) (hp : nodeAt K st'.mem r p = some t) (hnil : p ≠ []) :
      nodeAt K st.mem k p = some t ∧ UpperPath p := by
    refine ⟨construct_copy_node hk he hnil hp, ?_⟩
    obtain ⟨j, hj⟩ : ∃ j, p.getLast? = some j :=
      ⟨p.getLast hnil, List.getLast?_eq_getLast_of_ne_nil hnil⟩
    refine ⟨j, hj, ?_⟩
    by_contra hnot
    have hcut : nodeAt K st'.mem r [j] = none := by
      rw [nodeAt, descend_cons, slotAt_of_descend rfl, hrow j, if_neg (by exact hnot),
        decode_zero]
      rfl
    have hsuf : [j] <:+ p := by
      rw [List.getLast?_eq_some_iff] at hj
      obtain ⟨ys, rfl⟩ := hj
      exact ⟨ys, rfl⟩
    have hnone := descend_eq_none_of_suffix hcut hsuf
    rw [show descend _ _ r p = some t from hp] at hnone
    simp at hnone
  refine ⟨⟨List.mem_cons_of_mem _ h.kernel, fun s hs => ?_, fun s hs j hj => ?_, fun j hj => ?_,
    fun s hs u hu p q t hp hq hlow => ?_⟩, hfresh, hkeep, fun a ha => ?_⟩
  · rcases List.mem_cons.mp hs with rfl | hs
    · exact (hk.construct he).1
    · exact (h.tree s hs).congr (hframe s hs) htouch.tables howned haddr
  · rw [hold k h.kernel]
    rcases List.mem_cons.mp hs with rfl | hs
    · rw [hrow j, if_pos (by exact hj)]
    · rw [hold s hs]
      exact h.shared s hs j hj
  · rw [hold k h.kernel]
    exact h.filled j hj
  · rcases List.mem_cons.mp hs with rfl | hs
    · -- the lower half of the new pagemap is its top level alone
      have hnil : p = [] := by
        by_contra hne
        exact hlow (hupper p t hp hne).2
      rw [hnil] at hp
      obtain rfl : s = t := Option.some.inj hp
      rcases List.mem_cons.mp hu with rfl | hu
      · rfl
      · rw [hnodes u hu] at hq
        exact absurd ((h.tree u hu).closed q s hq) hfresh
    · rw [hnodes s hs] at hp
      have htree := (h.tree s hs).closed p t hp
      have hapart := h.apart s hs k h.kernel p q t hp
      rcases List.mem_cons.mp hu with rfl | hu
      · by_cases hnil : q = []
        · rw [hnil] at hq
          obtain rfl : u = t := Option.some.inj hq
          exact absurd htree hfresh
        · obtain ⟨hq0, hqu⟩ := hupper q t hq hnil
          rw [hapart hq0 hlow] at hp
          exact absurd (hk.unshared p q t hp hq0 ▸ hqu) hlow
      · rw [hnodes u hu] at hq
        exact h.apart s hs u hu p q t hp hq hlow
  · have hlt := ha.idx_lt
    rw [slotOf, slotAt_of_descend rfl, hrow, if_neg (by omega), decode_zero]

/-- A call through one pagemap at an upper address is that call through any other. -/
theorem step_shared (h : Spaces K k roots st) (hr : r ∈ roots) (hs : s ∈ roots) {c : Call}
    (hc : Canonical c.address) (hup : UpperHalf c.address) :
    step K r st c = step K s st c := by
  have hj := hup.upperIndex hc
  have hentry (allocate : Bool) := entry_shared (K := K) (h.word_eq hr hs hj) (h.ne_zero hr)
    (h.ne_zero hs) (h.word_present hs hj) allocate KiB4
  by_cases hp : c.Plain
  · cases c with
    | map v pa flags cache =>
      simp only [Call.address] at hentry
      simp only [step, if_pos hp, map_plain hp.1, mapOne, hentry]
    | unmap v flags =>
      simp only [Call.address] at hentry
      simp only [step, if_pos hp, unmap_plain hp.1, unmapOne, hentry]
  · simp only [step, if_neg hp]

theorem clear_shared (h : Spaces K k roots st) (hr : r ∈ roots) (hs : s ∈ roots) {a : ℕ}
    (hc : Canonical a) (hup : UpperHalf a) {level : ℕ} (hclear : ClearAbove K st.mem r a level) :
    ClearAbove K st.mem s a level := by
  intro d hd
  have hleaf := leafFor_shared (K := K) (h.word_eq hs hr (hup.upperIndex hc)) d
  exact hleaf.trans (hclear d hd)

/-- The upper half is the same through any two pagemaps. -/
theorem upper_same (h : Spaces K k roots st) (hr : r ∈ roots) (hs : s ∈ roots) {a : ℕ}
    (ha : Canonical a) (hup : UpperHalf a) :
    hwTranslate K st.mem r a = hwTranslate K st.mem s a ∧
      ∀ flags, virtualToPhysical K r a flags st = virtualToPhysical K s a flags st := by
  have hj := hup.upperIndex ha
  refine ⟨hwTranslate_congr fun d _ => leafFor_shared (h.word_eq hr hs hj) d, fun flags => ?_⟩
  rw [virtualToPhysical, virtualToPhysical, entry_shared (h.word_eq hr hs hj) (h.ne_zero hr)
    (h.ne_zero hs) (h.word_present hs hj)]

/-- One call through one pagemap: in the upper half a change of all pagemaps, in the lower half a
change of this one. -/
theorem call (h : Spaces K k roots st) (hr : r ∈ roots) {c : Call}
    (hclear : ClearAbove K st.mem r c.address 3) (he : step K r st c = some st') :
    Spaces K k roots st' ∧ (∀ s ∈ roots, ∀ j, UpperIndex j → st'.mem s j = st.mem s j) ∧
      ∃ w, w.map getAddress = c.frame ∧
      ((UpperHalf c.address ∧ ∀ s ∈ roots, Put K s st st' c.address 3 w) ∨
        (LowerHalf c.address ∧ Put K r st st' c.address 3 w ∧
          ∀ s ∈ roots, s ≠ r → ∀ a d, leafFor K st'.mem s a d = leafFor K st.mem s a d)) := by
  obtain ⟨hcan, hedit, w, hput, hw⟩ := step_edited (h.tree r hr) hclear he
  rcases hcan.half with hlow | hup
  · refine ⟨h.lower_edit hr hlow hedit, fun s hs j hj => h.lower_row hr hlow hedit hs hj, w, hw,
      Or.inr ⟨hlow, hput, fun s hs hne a d => ?_⟩⟩
    exact h.lower_leaves hr hlow hedit hs hne a d
  · have hall (s : ℕ) (hs : s ∈ roots) : Edited K s c.address st st' ∧
        ∃ u, Put K s st st' c.address 3 u := by
      rw [h.step_shared hr hs hcan hup] at he
      obtain ⟨-, hedits, u, hputs, -⟩ :=
        step_edited (h.tree s hs) (h.clear_shared hr hs hcan hup hclear) he
      exact ⟨hedits, u, hputs⟩
    have hspaces := h.upper_edit hcan hup fun s hs => (hall s hs).1
    refine ⟨hspaces, fun s hs j hj => h.upper_row hs (hall s hs).1 hj, w, hw,
      Or.inl ⟨hup, fun s hs => ?_⟩⟩
    -- the leaf is the same, being behind a common entry
    obtain ⟨u, hputs⟩ := (hall s hs).2
    have hleaf := leafFor_shared (K := K) (hspaces.word_eq hs hr (hup.upperIndex hcan)) 3
    rw [hputs.self hcan, hput.self hcan] at hleaf
    rwa [← hleaf]

end Spaces

/-! ## `kernel_pagemap` -/

/-- The upper entries of the top level are present. -/
def Filled (top : ℕ) (mem : Mem) : Prop := ∀ j, UpperIndex j → (mem top j).getLsbD 0 = true

theorem present_ne_zero {w : BitVec 64} (h : w.getLsbD 0 = true) : w ≠ 0#64 := by
  rintro rfl
  simp at h

/-- The present upper entries are never written again. -/
theorem row_kept (K : Machine A) (top : ℕ) {row : ℕ → BitVec 64}
    (hrow : ∀ j, UpperIndex j → (row j).getLsbD 0 = true) :
    Kept K top fun st => ∀ j, UpperIndex j → st.mem top j = row j where
  walked hs _ hw h j hj := by
    have hne : _ ≠ 0#64 := present_ne_zero (hrow j hj)
    rw [← h j hj] at hne ⊢
    exact hw.row hs.top_mem hne
  stored i hs hp hlen _ h j hj := by
    dsimp only
    rw [write_of_ne fun heq => hs.top_ne hp hlen heq.1]
    exact h j hj

theorem fillUpperHalf_present (ht : Tables K top st) {n i : ℕ}
    (he : fillUpperHalf K top n i st = some st') {j : ℕ}
    (hj : (i ≤ j ∧ j < i + n) ∨ (st.mem top j).getLsbD 0 = true) :
    (st'.mem top j).getLsbD 0 = true := by
  induction n generalizing i st with
  | zero =>
    obtain rfl : st = st' := by simpa [fillUpperHalf] using he
    exact hj.resolve_left (by omega)
  | succ n ih =>
    obtain ⟨⟨q, st1⟩, h1, h2⟩ := Option.bind_eq_some_iff.mp he
    obtain ⟨hs1, hw, hq⟩ := ht.skeleton.next (p := []) rfl (by norm_num) (leaf_top K st.mem top i) h1
    refine ih (Tables.of_skeleton hs1 (hw.zero ht.zero)) h2 ?_
    by_cases hji : j = i
    · -- the entry now has a table below it
      right
      rcases hq with ⟨-, hn⟩ | ⟨-, hal, -⟩
      · rw [hji]
        by_contra hne
        rw [nodeAt, descend_cons, slotAt_of_descend rfl,
          decode_absent (by simpa using hne)] at hn
        simp [Slot.child?] at hn
      · exact absurd hal (by simp)
    · rcases hj with hj | hj
      · exact Or.inl (by omega)
      · right
        rw [hw.row ht.top_mem (present_ne_zero hj)]
        exact hj

theorem construct_filled {mem : Mem} {heap : A}
    (he : construct K none (start mem heap) = some (top, st)) : Filled top st.mem := by
  obtain ⟨⟨q, st1⟩, h1, h2⟩ := Option.bind_eq_some_iff.mp he
  obtain ⟨st2, h3, heq⟩ := Option.map_eq_some_iff.mp h2
  simp only [Prod.mk.injEq] at heq
  obtain ⟨rfl, rfl⟩ := heq
  intro j hj
  unfold UpperIndex at hj
  exact fillUpperHalf_present (newTable_spec h1).1 h3 (Or.inl (by omega))

/-- One pagemap alone. -/
theorem Spaces.singleton (hs : Skeleton K k st) (hf : Filled k st.mem) : Spaces K k [k] st where
  kernel := List.mem_singleton_self k
  tree r hr := by rwa [List.mem_singleton.mp hr]
  shared r hr j _ := by rw [List.mem_singleton.mp hr]
  filled := hf
  apart r hr s hs _ _ _ _ _ _ := by rw [List.mem_singleton.mp hr, List.mem_singleton.mp hs]

/-- `kernel_pagemap` after calls at any page size. -/
theorem spaces_of_kernel {mem : Mem} {heap : A} {s₀ : State A} {ops : List Op}
    (h0 : construct K none (start mem heap) = some (k, s₀))
    (hclear : Run.Along (opStep K k) (fun st op => op.Clear K k st) s₀ ops)
    (hops : Run.run (opStep K k) s₀ ops = some st) :
    Spaces K k [k] st ∧ ∀ j, UpperIndex j → st.mem k j = s₀.mem k j := by
  have hfilled := construct_filled h0
  obtain ⟨ht, hrow⟩ := (row_kept K k hfilled).run (fun _ _ => rfl) (construct_spec h0).1 hclear hops
  refine ⟨Spaces.singleton ht.skeleton fun j hj => ?_, hrow⟩
  rw [hrow j hj]
  exact hfilled j hj

/-! ## What the address spaces are for -/

/-- One map of the upper half for all, and a map of the lower half for each pagemap. -/
structure View where
  upper : PageMap
  lower : ℕ → PageMap

/-- The map that decides about `a` in the pagemap `r`. -/
def View.for (V : View) (r a : ℕ) : PageMap := if UpperHalf a then V.upper else V.lower r

inductive SpaceEvent where
  | construct (r : ℕ)
  | call (r : ℕ) (c : Call)

def View.apply (V : View) : SpaceEvent → View
  | .construct r => { V with lower := Function.update V.lower r fun _ => none }
  | .call r c =>
    if UpperHalf c.address then { V with upper := V.upper.apply c }
    else { V with lower := Function.update V.lower r ((V.lower r).apply c) }

/-- The small pages of one pagemap. -/
def frames (K : Machine A) (mem : Mem) (top : ℕ) : PageMap := fun page =>
  (leafFor K mem top (page * KiB4) 3).map getAddress

/-- A new pagemap, or a call of `map` or `unmap` through a pagemap at an address that no large page
covers. The list holds the top levels. -/
def spaceStep (K : Machine A) (k : ℕ) (spaces : List ℕ × State A) :
    SpaceEvent → Option (List ℕ × State A)
  | .construct r =>
    (construct K (some k) spaces.2).bind fun (topLevel, st) =>
      if topLevel = r then some (r :: spaces.1, st) else none
  | .call r c =>
    if r ∈ spaces.1 ∧ ClearAbove K spaces.2.mem r c.address 3 then
      (step K r spaces.2 c).map fun st => (spaces.1, st)
    else none

theorem spaceStep_call {spaces spaces' : List ℕ × State A} {c : Call}
    (he : spaceStep K k spaces (.call r c) = some spaces') :
    r ∈ spaces.1 ∧ ClearAbove K spaces.2.mem r c.address 3 ∧
      ∃ st', step K r spaces.2 c = some st' ∧ spaces' = (spaces.1, st') := by
  simp only [spaceStep] at he
  split_ifs at he with hguard
  obtain ⟨st1, h1, rfl⟩ := Option.map_eq_some_iff.mp he
  exact ⟨hguard.1, hguard.2, st1, h1, rfl⟩

/-- The pagemaps translate as the view says, and have the upper entries `st₀` gave them. -/
structure Mirrors (K : Machine A) (k : ℕ) (st₀ : State A) (spaces : List ℕ × State A) (V : View) :
    Prop where
  valid : Spaces K k spaces.1 spaces.2
  rows : ∀ r ∈ spaces.1, ∀ j, UpperIndex j → spaces.2.mem r j = st₀.mem k j
  agrees : ∀ r ∈ spaces.1, ∀ a, Canonical a → ClearAbove K spaces.2.mem r a 3 →
    (leafFor K spaces.2.mem r a 3).map getAddress = V.for r a (a / KiB4)

theorem Mirrors.start (h : Spaces K k [k] st) :
    Mirrors K k st ([k], st) ⟨frames K st.mem k, fun _ => frames K st.mem k⟩ where
  valid := h
  rows r hr j _ := by rw [List.mem_singleton.mp hr]
  agrees r hr a _ _ := by
    have hpage : a / KiB4 * KiB4 / sizeAt 3 = a / sizeAt 3 := Nat.mul_div_cancel _ (by decide)
    have hfor : (⟨frames K st.mem k, fun _ => frames K st.mem k⟩ : View).for r a =
        frames K st.mem k := ite_self _
    rw [hfor, frames, List.mem_singleton.mp hr, leafFor, leafFor,
      pathTo_congr hpage (by norm_num) (by norm_num), idx_congr hpage (Nat.le_refl 3) (by norm_num)]

theorem Mirrors.construct {spaces : List ℕ × State A} {V : View} {st₀ : State A}
    (h : Mirrors K k st₀ spaces V)
    (he : Paging.construct K (some k) spaces.2 = some (r, st')) :
    Mirrors K k st₀ (r :: spaces.1, st') (V.apply (.construct r)) := by
  obtain ⟨hspaces, hfresh, hkeep, hempty⟩ := h.valid.construct he
  have hold (s : ℕ) (hs : s ∈ spaces.1) (p : List ℕ) (t : ℕ)
      (hp : nodeAt K spaces.2.mem s p = some t) : st'.mem t = spaces.2.mem t :=
    hkeep t ((h.valid.tree s hs).closed p t hp)
  have hleaf (s : ℕ) (hs : s ∈ spaces.1) (a d : ℕ) :
      leafFor K st'.mem s a d = leafFor K spaces.2.mem s a d :=
    congrArg Slot.leaf? (slotAt_congr (hold s hs) _ _)
  have hrow (s : ℕ) (hs : s ∈ spaces.1) (j : ℕ) (hj : UpperIndex j) :
      st'.mem s j = st₀.mem k j := by
    rw [hold s hs [] s rfl]
    exact h.rows s hs j hj
  -- in the upper half the new pagemap is the kernel's
  have hupper (a d : ℕ) (ha : Canonical a) (hup : UpperHalf a) :
      leafFor K st'.mem r a d = leafFor K spaces.2.mem k a d := by
    rw [← hleaf k h.valid.kernel]
    exact leafFor_shared (hspaces.word_eq List.mem_cons_self
      (List.mem_cons_of_mem _ h.valid.kernel) (hup.upperIndex ha)) d
  refine ⟨hspaces, fun s hs j hj => ?_, fun s hs a ha hclear => ?_⟩
  · rcases List.mem_cons.mp hs with rfl | hs
    · rw [hspaces.shared s List.mem_cons_self j hj]
      exact hrow k h.valid.kernel j hj
    · exact hrow s hs j hj
  · by_cases hup : UpperHalf a
    · have hfor (V : View) (s : ℕ) : V.for s a = V.upper := if_pos hup
      rw [hfor]
      rcases List.mem_cons.mp hs with rfl | hs
      · have hagree := h.agrees k h.valid.kernel a ha fun d hd => by
          rw [← hclear d hd]
          exact (hupper a d ha hup).symm
        rw [hupper a 3 ha hup, hagree, hfor]
        rfl
      · have hagree := h.agrees s hs a ha fun d hd => by
          rw [← hclear d hd]
          exact (hleaf s hs a d).symm
        rw [hleaf s hs, hagree, hfor]
        rfl
    · have hlow : LowerHalf a := ha.half.resolve_right hup
      have hfor (V : View) (s : ℕ) : V.for s a = V.lower s := if_neg hup
      rw [hfor]
      rcases List.mem_cons.mp hs with rfl | hs
      · have hnew : (V.apply (.construct s)).lower s = fun _ => none := Function.update_self ..
        rw [leafFor_of_empty (hempty a hlow), hnew]
        rfl
      · have hsr : s ≠ r := fun heq => hfresh (heq ▸ (h.valid.tree s hs).top_mem)
        have hagree := h.agrees s hs a ha fun d hd => by
          rw [← hclear d hd]
          exact (hleaf s hs a d).symm
        have hsame : (V.apply (.construct r)).lower s = V.lower s := Function.update_of_ne hsr _ _
        rw [hleaf s hs, hagree, hfor, hsame]

/-- A small leaf put in place is an update of the map. -/
theorem Put.agrees {c : Call} {w : Option (BitVec 64)} {M : PageMap} {a : ℕ}
    (h : Put K top st st' c.address 3 w) (hw : w.map getAddress = c.frame) (ha : Canonical a)
    (hold : ClearAbove K st.mem top a 3 →
      (leafFor K st.mem top a 3).map getAddress = M (a / KiB4))
    (hclear : ClearAbove K st'.mem top a 3) :
    (leafFor K st'.mem top a 3).map getAddress = M.apply c (a / KiB4) := by
  have hsize : sizeAt 3 = KiB4 := rfl
  rw [h.leaf a 3 ha, hsize, PageMap.apply_eq]
  by_cases hpage : a / KiB4 = c.address / KiB4
  · rw [if_pos ⟨hpage, Nat.le_refl 3⟩, if_pos rfl, hw, hpage, Function.update_self]
  · rw [if_neg (fun hin => hpage hin.1), Function.update_of_ne hpage]
    exact hold ((h.clearAbove ha (Nat.le_refl 3)).mp hclear)

theorem Mirrors.call {spaces : List ℕ × State A} {V : View} {st₀ : State A} {c : Call}
    (h : Mirrors K k st₀ spaces V) (hr : r ∈ spaces.1)
    (hclear : ClearAbove K spaces.2.mem r c.address 3) (he : step K r spaces.2 c = some st') :
    Mirrors K k st₀ (spaces.1, st') (V.apply (.call r c)) := by
  obtain ⟨hvalid, hrow, w, hw, hcase⟩ := h.valid.call hr hclear he
  refine ⟨hvalid, fun s hs j hj => (hrow s hs j hj).trans (h.rows s hs j hj),
    fun s hs a ha hc => ?_⟩
  rcases hcase with ⟨hup, hput⟩ | ⟨hlow, hput, hothers⟩
  · have happly : V.apply (.call r c) = { V with upper := V.upper.apply c } := if_pos hup
    have hagree := (hput s hs).agrees hw ha (h.agrees s hs a ha) hc
    rw [hagree, happly, View.for, View.for]
    by_cases hua : UpperHalf a
    · rw [if_pos hua, if_pos hua]
    · rw [if_neg hua, if_neg hua]
      exact PageMap.apply_of_ne _ (half_ne (ha.half.resolve_right hua) hup)
  · have hnup : ¬ UpperHalf c.address := by
      unfold LowerHalf at hlow
      unfold UpperHalf
      omega
    have happly : V.apply (.call r c) =
        { V with lower := Function.update V.lower r ((V.lower r).apply c) } := if_neg hnup
    rw [happly, View.for]
    by_cases hsr : s = r
    · subst hsr
      rw [hput.agrees hw ha (h.agrees s hs a ha) hc, View.for]
      by_cases hua : UpperHalf a
      · rw [if_pos hua, if_pos hua]
        exact PageMap.apply_of_ne _ (half_ne hlow hua).symm
      · rw [if_neg hua, if_neg hua]
        dsimp only
        rw [Function.update_self]
    · dsimp only
      rw [Function.update_of_ne hsr, hothers s hs hsr, ← View.for]
      refine h.agrees s hs a ha fun d hd => ?_
      rw [← hc d hd]
      exact (hothers s hs hsr a d).symm

theorem Mirrors.step {spaces spaces' : List ℕ × State A} {V : View} {st₀ : State A}
    {e : SpaceEvent} (h : Mirrors K k st₀ spaces V) (he : spaceStep K k spaces e = some spaces') :
    Mirrors K k st₀ spaces' (V.apply e) := by
  cases e with
  | construct r =>
    obtain ⟨⟨q, st1⟩, h1, h2⟩ := Option.bind_eq_some_iff.mp he
    dsimp only at h2
    split_ifs at h2 with hq
    obtain rfl := Option.some.inj h2
    rw [hq] at h1
    exact h.construct h1
  | call r c =>
    obtain ⟨hr, hclear, st1, h1, rfl⟩ := spaceStep_call he
    exact h.call hr hclear h1

/-- A lookup through one pagemap reads the view. -/
theorem Mirrors.lookup {spaces : List ℕ × State A} {V : View} {st₀ : State A}
    (h : Mirrors K k st₀ spaces V) (hr : r ∈ spaces.1) {a : ℕ} (ha : Canonical a)
    {flags : BitVec 64} (hf : isLpage flags = false)
    (hclear : ClearAbove K spaces.2.mem r a 3) :
    ∃ st', virtualToPhysical K r a flags spaces.2 = some ((V.for r a).translate a, st') := by
  obtain ⟨vis, hres⟩ := (h.valid.tree r hr).lookup_small hf hclear
  rw [hres, h.agrees r hr a ha hclear, ← PageMap.translate_eq]
  exact ⟨_, rfl⟩

/-- In every state reached by constructing pagemaps and mapping and unmapping small pages through
any of them, the translations are those of one upper map for all and a lower map for each; every
top level has the upper entries `kernel_pagemap` was made with; the upper half is the same through any two
pagemaps, at every level; and a call at a lower address leaves the others as they are. -/
theorem spaces_share_upper_half (K : Machine A) {mem : Mem} {heap : A} {s₀ st₀ : State A}
    {ops : List Op} {events : List SpaceEvent}
    (h0 : construct K none (start mem heap) = some (k, s₀))
    (hops : Run.Along (opStep K k) (fun st op => op.Clear K k st) s₀ ops)
    (hst₀ : Run.run (opStep K k) s₀ ops = some st₀)
    (hrun : Run.run (spaceStep K k) ([k], st₀) events = some (roots, st)) :
    (∀ r ∈ roots, ∀ a flags, Canonical a → isLpage flags = false → ClearAbove K st.mem r a 3 →
      ∃ st', virtualToPhysical K r a flags st =
        some (((events.foldl View.apply ⟨frames K st₀.mem k, fun _ => frames K st₀.mem k⟩).for
          r a).translate a, st')) ∧
    (∀ r ∈ roots, ∀ j, UpperIndex j → st.mem r j = s₀.mem k j) ∧
    (∀ r ∈ roots, ∀ s ∈ roots, ∀ a, Canonical a → UpperHalf a →
      hwTranslate K st.mem r a = hwTranslate K st.mem s a ∧
        ∀ flags, virtualToPhysical K r a flags st = virtualToPhysical K s a flags st) ∧
    (∀ r c st', LowerHalf c.address →
      spaceStep K k (roots, st) (.call r c) = some (roots, st') → ∀ s ∈ roots, s ≠ r → ∀ a,
        hwTranslate K st'.mem s a = hwTranslate K st.mem s a) := by
  obtain ⟨hstart, hrow⟩ := spaces_of_kernel h0 hops hst₀
  have hm : Mirrors K k st₀ (roots, st)
      (events.foldl View.apply ⟨frames K st₀.mem k, fun _ => frames K st₀.mem k⟩) :=
    Run.run_simulates (f := View.apply) (R := fun σ V => Mirrors K k st₀ σ V)
      (fun _ _ _ _ h he => h.step he) (Mirrors.start hstart) hrun
  have hvalid : Spaces K k roots st := hm.valid
  refine ⟨fun r hr a flags ha hf hc => hm.lookup hr ha hf hc,
    fun r hr j hj => (hm.rows r hr j hj).trans (hrow j hj),
    fun r hr s hs a ha hup => hvalid.upper_same hr hs ha hup,
    fun r c st' hlow he s hs hne a => ?_⟩
  obtain ⟨hr, hclear, st1, h1, heq⟩ := spaceStep_call he
  obtain rfl := (Prod.mk.inj heq).2
  obtain ⟨-, hedit, -⟩ := step_edited (hvalid.tree r hr) hclear h1
  exact hwTranslate_congr fun d _ => hvalid.lower_leaves hr hlow hedit hs hne a d

/-- Two pagemaps; the first maps an upper page, the second a lower one. -/
def twoSpaces : List SpaceEvent :=
  [.construct 0xffff800000102000, .construct 0xffff800000103000,
    .call 0xffff800000102000 (.map 0xffffc00000400000 0x7000 WRITE .writeBack),
    .call 0xffff800000103000 (.map 0x400000 0x9000 WRITE .writeBack)]

theorem spaces_share_upper_half_small :
    ∃ k s₀ roots st, construct (orderedMachine false) none (start (fun _ _ => 0#64) 1) =
        some (k, s₀) ∧
      Run.run (spaceStep (orderedMachine false) k) ([k], s₀) twoSpaces = some (roots, st) ∧
      (∀ j, UpperIndex j → st.mem 0xffff800000102000 j = s₀.mem k j) ∧
      virtualToPhysical (orderedMachine false) 0xffff800000102000 0xffffc00000400123 0 st =
        virtualToPhysical (orderedMachine false) 0xffff800000103000 0xffffc00000400123 0 st := by
  have hroots : ((construct (orderedMachine false) none (start (fun _ _ => 0#64) 1)).bind
      fun (k, s₀) => (Run.run (spaceStep (orderedMachine false) k) ([k], s₀) twoSpaces).map
        Prod.fst) = some [0xffff800000103000, 0xffff800000102000, 0xffff800000001000] := by
    decide +kernel
  obtain ⟨⟨k, s₀⟩, h0, h1⟩ := Option.bind_eq_some_iff.mp hroots
  obtain ⟨⟨roots, st⟩, hrun, rfl⟩ := Option.map_eq_some_iff.mp h1
  have hclear : Run.Along (opStep (orderedMachine false) k)
      (fun st op => op.Clear (orderedMachine false) k st) s₀ [] := trivial
  obtain ⟨-, hrows, hupper, -⟩ := spaces_share_upper_half (orderedMachine false) h0 hclear
    (Run.run_nil s₀) hrun
  exact ⟨k, s₀, _, st, h0, hrun, hrows _ (by decide),
    (hupper _ (by decide) _ (by decide) 0xffffc00000400123 (by decide) (by decide)).2 0⟩

end IceKernel.Paging
