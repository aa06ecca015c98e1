import IceKernel.Memory.MemmapFork

/-!
# The private branch of `fork`

It writes the entries of the parent where it should write those of the child:
each page it visits loses its mapping in the parent, and the child gets none.
-/

namespace IceKernel.Memmap
open Word64 RadixTree Paging

variable {A : Type} {H : Host A} {K : Machine A} {k m i n page r v : ℕ} {roots : List ℕ}
  {parent shadow : ℕ} {st st' : State A} {p p' p'' : Paging.State A}

/-! ## Entries -/

/-- The entry for `a` at the lowest level, where there is a table for it. -/
def entryAt (K : Machine A) (mem : Mem) (top a : ℕ) : Option (BitVec 64) :=
  (nodeAt K mem top (pathTo a 3)).map fun t => mem t (idx a 3)

theorem entryAt_of_node {mem : Mem} {top a t : ℕ}
    (h : nodeAt K mem top (pathTo a 3) = some t) : entryAt K mem top a = some (mem t (idx a 3)) := by
  rw [entryAt, h, Option.map_some]

theorem entryAt_eq_some {mem : Mem} {top a : ℕ} {w : BitVec 64} (h : entryAt K mem top a = some w) :
    ∃ t, nodeAt K mem top (pathTo a 3) = some t ∧ mem t (idx a 3) = w :=
  Option.map_eq_some_iff.mp h

theorem entryAt_congr {mem mem' : Mem} {top : ℕ}
    (h : ∀ q t, nodeAt K mem top q = some t → mem' t = mem t) (a : ℕ) :
    entryAt K mem' top a = entryAt K mem top a := by
  have hnode : nodeAt K mem' top (pathTo a 3) = nodeAt K mem top (pathTo a 3) := descend_congr h _
  rw [entryAt, entryAt, hnode]
  cases hn : nodeAt K mem top (pathTo a 3) with
  | none => rfl
  | some t => rw [Option.map_some, Option.map_some, h _ t hn]

theorem entryAt_page {mem : Mem} {top a b : ℕ} (h : a / KiB4 = b / KiB4) :
    entryAt K mem top a = entryAt K mem top b := by
  have hpage : a / sizeAt 3 = b / sizeAt 3 := h
  rw [entryAt, entryAt, pathTo_congr hpage (by norm_num) (by norm_num),
    idx_congr hpage (Nat.le_refl 3) (by norm_num)]

theorem entryAt_of_empty {mem : Mem} {top a : ℕ}
    (h : slotOf K mem top (pathTo a 0) (idx a 0) = .empty) : entryAt K mem top a = none := by
  rw [entryAt, nodeAt_of_empty h (by norm_num), Option.map_none]

theorem leafFor_eq_entryAt (K : Machine A) (mem : Mem) (top a : ℕ) :
    leafFor K mem top a 3 =
      (entryAt K mem top a).bind fun w => if w.getLsbD 0 then some w else none := by
  cases hn : nodeAt K mem top (pathTo a 3) with
  | none =>
    rw [leafFor_of_no_node hn (Nat.le_refl 3), entryAt, hn]
    rfl
  | some t =>
    rw [leafFor, leafOf, slot_step hn, entryAt_of_node hn, Option.bind_some]
    cases h0 : (mem t (idx a 3)).getLsbD 0 with
    | false =>
      rw [decode_absent h0]
      rfl
    | true =>
      rw [decode_leaf h0 (by norm_num) (Or.inl (Nat.le_refl 3))]
      rfl

/-- An edit keeps the entries of other pages, where these are not zero. -/
theorem entryAt_edited (he : Edited K parent v p p') (hs : Skeleton K parent p) (hv : LowerHalf v)
    {a : ℕ} (ha : LowerHalf a) (hpage : a / KiB4 ≠ v / KiB4) {w : BitVec 64} (hw : w ≠ 0#64)
    (h : entryAt K p.mem parent a = some w) : entryAt K p'.mem parent a = some w := by
  obtain ⟨t, hn, rfl⟩ := entryAt_eq_some h
  have hn' := he.kept _ t hn
  rw [entryAt_of_node hn', Option.some.injEq]
  refine (he.word t (hs.closed _ t hn) _ hw).resolve_right fun hsame => hpage ?_
  -- the same entry would be that of the same page
  have hpath : pathTo a (3 + 1) = pathTo v (3 + 1) := by
    rw [pathTo, hsame.2, he.tree.unshared _ _ t hn' hsame.1]
    rfl
  exact div_eq_of_pathTo_eq ha.canonical.1 hv.canonical.1 ha.canonical.2 hv.canonical.2
    (Nat.le_refl 3) hpath

/-! ## What a round may change -/

theorem getNextLvl_owned {t j : ℕ} {allocate : Bool} (he : getNextLvl K t j allocate p = some (r, p'))
    {x : ℕ} (hx : K.source.owned p.heap x) : K.source.owned p'.heap x := by
  unfold getNextLvl at he
  split_ifs at he
  · simp only [Option.some.injEq, Prod.mk.injEq] at he
    rwa [← he.2]
  · simp only [Option.some.injEq, Prod.mk.injEq] at he
    rwa [← he.2]
  · obtain ⟨⟨q, p₁⟩, hnew, heq⟩ := Option.map_eq_some_iff.mp he
    obtain ⟨heap, hal, rfl⟩ := newTable_eq_some hnew
    rw [← (Prod.mk.inj heq).2]
    exact (K.source.alloc_owned hal x).mpr (Or.inr hx)
  · simp only [Option.some.injEq, Prod.mk.injEq] at he
    rwa [← he.2]

theorem walk_owned {top t d : ℕ} {allocate : Bool} (he : walk K top v allocate d p = some (t, p'))
    {x : ℕ} (hx : K.source.owned p.heap x) : K.source.owned p'.heap x := by
  induction d generalizing t p' with
  | zero =>
    simp only [walk, Option.some.injEq, Prod.mk.injEq] at he
    rwa [← he.2]
  | succ d ih =>
    obtain ⟨⟨s, p₁⟩, h1, h2⟩ := Option.bind_eq_some_iff.mp he
    exact getNextLvl_owned h2 (ih h1)

/-- From `p` to `p'` nothing was written in the lower half of the parent but tables and the entries
of one page; what was in use still is. -/
structure Moved (K : Machine A) (k : ℕ) (roots : List ℕ) (parent page : ℕ)
    (p p' : Paging.State A) : Prop where
  spaces : Spaces K k roots p'
  nodes : ∀ r ∈ roots, ∀ q t, nodeAt K p.mem r q = some t → nodeAt K p'.mem r q = some t
  large : ∀ r ∈ roots, ∀ a d, LowerHalf a → d < 3 →
    leafFor K p'.mem r a d = leafFor K p.mem r a d
  owned : ∀ x, K.source.owned p.heap x → K.source.owned p'.heap x
  entry : ∀ a w, LowerHalf a → a / KiB4 ≠ page → w ≠ 0#64 →
    entryAt K p.mem parent a = some w → entryAt K p'.mem parent a = some w

namespace Moved

theorem trans (h : Moved K k roots parent page p p') (h' : Moved K k roots parent page p' p'') :
    Moved K k roots parent page p p'' where
  spaces := h'.spaces
  nodes r hr q t hq := h'.nodes r hr q t (h.nodes r hr q t hq)
  large r hr a d ha hd := (h'.large r hr a d ha hd).trans (h.large r hr a d ha hd)
  owned x hx := h'.owned x (h.owned x hx)
  entry a w ha hpage hw hold := h'.entry a w ha hpage hw (h.entry a w ha hpage hw hold)

theorem clear (h : Moved K k roots parent page p p') (hr : r ∈ roots) {a : ℕ} (ha : LowerHalf a)
    (hc : ClearAbove K p.mem r a 3) : ClearAbove K p'.mem r a 3 := fun d hd =>
  (h.large r hr a d ha hd).trans (hc d hd)

theorem edit (h : Spaces K k roots p) (hp : parent ∈ roots) (hr : r ∈ roots) (hv : LowerHalf v)
    (he : Edited K r v p p')
    (hlarge : ∀ a d, LowerHalf a → d < 3 → leafFor K p'.mem r a d = leafFor K p.mem r a d)
    (howned : ∀ x, K.source.owned p.heap x → K.source.owned p'.heap x) :
    Moved K k roots parent (v / KiB4) p p' where
  spaces := h.lower_edit hr hv he
  nodes s hs q t hq := by
    by_cases hsr : s = r
    · rw [hsr] at hq ⊢
      exact he.kept q t hq
    · exact (h.lower_nodes hr hv he hs hsr q).trans hq
  large s hs a d ha hd := by
    by_cases hsr : s = r
    · rw [hsr]
      exact hlarge a d ha hd
    · exact h.lower_leaves hr hv he hs hsr a d
  owned := howned
  entry a w ha hpage hw hold := by
    by_cases hpr : parent = r
    · subst hpr
      exact entryAt_edited he (h.tree _ hp) hv ha hpage hw hold
    · rw [entryAt_congr (fun q t hq => h.lower_frame hr hv he hp hpr hq)]
      exact hold

/-- A walk that may make tables. -/
theorem walk (h : Spaces K k roots p) (hp : parent ∈ roots) (hr : r ∈ roots) (hv : LowerHalf v)
    (hc : ClearAbove K p.mem r v 3) {e : Option (ℕ × ℕ)}
    (he : virtualToPtEntry K r v true KiB4 p = some (e, p')) :
    Moved K k roots parent (v / KiB4) p p' ∧
      ∃ t, e = some (t, idx v 3) ∧ nodeAt K p'.mem r (pathTo v 3) = some t := by
  obtain ⟨hedit, hg, ⟨t, rfl, hn, -⟩ | ⟨-, hal, -⟩⟩ := (h.tree r hr).edit hv.canonical hc he
  · refine ⟨edit h hp hr hv hedit (fun a d _ _ => hg.leaves _ _) fun x hx => ?_, t, rfl, hn⟩
    obtain ⟨t', hw⟩ := walk_of_entry he
    exact walk_owned hw hx
  · exact absurd hal (by simp)

/-- A store in the entry of the page. -/
theorem store (h : Spaces K k roots p) (hp : parent ∈ roots) (hr : r ∈ roots) (hv : LowerHalf v)
    {t : ℕ} (hn : nodeAt K p.mem r (pathTo v 3) = some t) (w : BitVec 64) :
    Moved K k roots parent (v / KiB4) p { p with mem := write p.mem t (idx v 3) w } := by
  have hedit : Edited K r v p { p with mem := write p.mem t (idx v 3) w } :=
    (Edited.of_walked (h.tree r hr)
      (Walked.of_visited K r (pathTo v 3) p fun _ hm => Or.inl hm)).store hn w
  have hput := (h.tree r hr).put_leaf hv.canonical (Nat.le_refl 3) hn (decode_lowest _ w)
  refine edit h hp hr hv hedit (fun a d ha hd => ?_) fun x hx => hx
  rw [hput.leaf a d ha.canonical, if_neg (by omega)]

/-- A frame taken and written. -/
theorem alloc (h : Spaces H.toMachine k roots p) (hp : parent ∈ roots) {q : ℕ} {heap : A}
    (ha : H.allocFrame p.heap = some (q, heap)) (row : ℕ → BitVec 64) (page : ℕ) :
    Moved H.toMachine k roots parent page p
      { p with mem := Function.update p.mem (H.hhdm.offset + q) row, heap := heap } := by
  have hmem (t : ℕ) (ht : t ∈ p.tables) :
      Function.update p.mem (H.hhdm.offset + q) row t = p.mem t := by
    refine Function.update_of_ne (fun heq => H.frame_fresh ha ?_) _ _
    rw [← heq]
    exact (h.tree k h.kernel).owned t ht
  have howned (x : ℕ) (hx : H.source.owned p.heap x) : H.source.owned heap x :=
    (H.frame_owned ha x).mpr (Or.inr hx)
  have hnode (r : ℕ) (hr : r ∈ roots) (s : List ℕ) (t : ℕ)
      (hs : nodeAt H.toMachine p.mem r s = some t) :
      Function.update p.mem (H.hhdm.offset + q) row t = p.mem t :=
    hmem t ((h.tree r hr).closed s t hs)
  have hsame (r : ℕ) (hr : r ∈ roots) (s : List ℕ) : nodeAt H.toMachine
      (Function.update p.mem (H.hhdm.offset + q) row) r s = nodeAt H.toMachine p.mem r s :=
    descend_congr (hnode r hr) s
  refine ⟨⟨h.kernel, fun r hr => ?_, fun r hr j hj => ?_, fun j hj => ?_,
    fun r hr s hs u w t hu hw => ?_⟩, fun r hr s t hs => (hsame r hr s).trans hs,
    fun r hr a d _ _ => ?_, howned, fun a w _ _ _ hold => ?_⟩
  · exact (h.tree r hr).congr (hnode r hr) (fun t ht => ht)
      (fun t ht => howned t ((h.tree r hr).owned t ht)) (h.tree r hr).addr
  · dsimp only
    rw [hmem r (h.tree r hr).top_mem, hmem k (h.tree k h.kernel).top_mem]
    exact h.shared r hr j hj
  · dsimp only
    rw [hmem k (h.tree k h.kernel).top_mem]
    exact h.filled j hj
  · exact h.apart r hr s hs u w t ((hsame r hr u).symm.trans hu) ((hsame s hs w).symm.trans hw)
  · exact congrArg Slot.leaf? (slotAt_congr (hnode r hr) _ _)
  · dsimp only
    rw [entryAt_congr (hnode parent hp)]
    exact hold

end Moved

/-! ## One round -/

/-- The entry of a page that has lost its mapping: the address of a frame that was not in use, and
no flags. -/
def Lost (H : Host A) (heap : A) (e : Option (BitVec 64)) : Prop :=
  ∃ q, e = some (BitVec.ofNat 64 q) ∧ 0 < q ∧ q % KiB4 = 0 ∧ q < H.hhdm.limit ∧ q < 2 ^ 52 ∧
    ¬ H.source.owned heap (H.hhdm.offset + q)

theorem Lost.mono {heap heap' : A} {e : Option (BitVec 64)} (h : Lost H heap' e)
    (howned : ∀ x, H.source.owned heap x → H.source.owned heap' x) : Lost H heap e := by
  obtain ⟨q, he, h1, h2, h3, h4, h5⟩ := h
  exact ⟨q, he, h1, h2, h3, h4, fun hx => h5 (howned _ hx)⟩

/-- The three assignments to the new entry, which is also the old one: its flags are read after
they have been cleared. -/
theorem private_store (mem : Mem) (t j q : ℕ) :
    let mem₁ := write mem t j 0#64
    let mem₂ := write mem₁ t j (setFlags (mem₁ t j) (flagBits (mem₁ t j)) true)
    write mem₂ t j (setAddress (mem₂ t j) q) = write mem t j (BitVec.ofNat 64 q) := by
  simp only [write_self, write_write, flagBits, setFlags, setAddress]
  simp

theorem copyOne_spec (h : Spaces H.toMachine k roots p) (hp : parent ∈ roots)
    (hs : shadow ∈ roots) (hne : parent ≠ shadow) (hi : LowerHalf i)
    (hcp : ClearAbove H.toMachine p.mem parent i 3)
    (hcs : ClearAbove H.toMachine p.mem shadow i 3)
    (he : copyOne H parent shadow i p = some p') :
    Moved H.toMachine k roots parent (i / KiB4) p p' ∧
      Lost H p.heap (entryAt H.toMachine p'.mem parent i) := by
  obtain ⟨⟨e₁, p₁⟩, hw₁, he₁⟩ := Option.bind_eq_some_iff.mp he
  obtain ⟨hm₁, t, rfl, hn₁⟩ := Moved.walk h hp hp hi hcp hw₁
  obtain ⟨⟨e₂, p₂⟩, hw₂, he₂⟩ := Option.bind_eq_some_iff.mp he₁
  obtain ⟨hm₂, t₂, rfl, hn₂⟩ := Moved.walk hm₁.spaces hp hp hi (hm₁.clear hp hi hcp) hw₂
  obtain rfl : t = t₂ := Option.some.inj ((hm₂.nodes parent hp _ t hn₁).symm.trans hn₂)
  have hm₁₂ := hm₁.trans hm₂
  obtain ⟨⟨e₃, p₃⟩, hw₃, he₃⟩ := Option.bind_eq_some_iff.mp he₂
  obtain ⟨hm₃, u, rfl, hu₃⟩ := Moved.walk hm₂.spaces hp hs hi (hm₁₂.clear hs hi hcs) hw₃
  have hm₁₃ := hm₁₂.trans hm₃
  have hn₃ := hm₃.nodes parent hp _ t hn₂
  obtain ⟨⟨q, heap⟩, hal, he₄⟩ := Option.bind_eq_some_iff.mp he₃
  obtain ⟨hq0, hqal, hqlim, hq52⟩ := H.frame_addr hal
  -- the frame, then the two stores
  dsimp only [Option.bind_some, Option.map_some] at he₄
  rw [private_store, copyPage, H.hhdm.tohh_eq hqlim, Option.some.injEq] at he₄
  have hm₄ := Moved.alloc hm₃.spaces hp hal (fun j => if j < 512 then
    p₃.mem (tohh H.hhdm.offset (getAddress (p₃.mem t (idx i 3)))) j else
      p₃.mem (H.hhdm.offset + q) j) (i / KiB4)
  have hm₅ := Moved.store hm₄.spaces hp hp hi (hm₄.nodes parent hp _ t hn₃) (BitVec.ofNat 64 q)
  have hn₅ := hm₅.nodes parent hp _ t (hm₄.nodes parent hp _ t hn₃)
  have hu₅ := hm₅.nodes shadow hs _ u (hm₄.nodes shadow hs _ u hu₃)
  have hm₆ := Moved.store hm₅.spaces hp hs hi hu₅ (BitVec.ofNat 64 q)
  rw [write_self] at he₄
  subst he₄
  have hmoved := ((hm₁₃.trans hm₄).trans hm₅).trans hm₆
  refine ⟨hmoved, q, ?_, hq0, hqal, hqlim, hq52, fun hx => H.frame_fresh hal (hm₁₃.owned _ hx)⟩
  -- the entry of the shadow is in another table
  have htu : t ≠ u := by
    rintro rfl
    exact hne (hm₅.spaces.apart parent hp shadow hs _ _ t hn₅ hu₅
      (hi.not_upperPath List.suffix_rfl))
  rw [entryAt_of_node (hm₆.nodes parent hp _ t hn₅)]
  dsimp only
  rw [write_node_of_ne htu, write_self]

/-! ## The loops -/

theorem Lost.ne_zero {heap : A} {w : BitVec 64} (h : Lost H heap (some w)) : w ≠ 0#64 := by
  obtain ⟨q, heq, hpos, -, -, h52, -⟩ := h
  rw [Option.some.inj heq]
  intro hz
  have hn := congrArg BitVec.toNat hz
  rw [BitVec.toNat_ofNat, Nat.mod_eq_of_lt (by omega)] at hn
  simp at hn
  omega

/-- From `p` to `p'` pages of the parent may have lost their mapping. -/
structure Copying (H : Host A) (k : ℕ) (roots : List ℕ) (parent : ℕ) (p p' : Paging.State A) :
    Prop where
  spaces : Spaces H.toMachine k roots p'
  large : ∀ r ∈ roots, ∀ a d, LowerHalf a → d < 3 →
    leafFor H.toMachine p'.mem r a d = leafFor H.toMachine p.mem r a d
  owned : ∀ x, H.source.owned p.heap x → H.source.owned p'.heap x
  lost : ∀ a heap, LowerHalf a → (∀ x, H.source.owned heap x → H.source.owned p.heap x) →
    Lost H heap (entryAt H.toMachine p.mem parent a) →
    Lost H heap (entryAt H.toMachine p'.mem parent a)

namespace Copying

theorem refl (h : Spaces H.toMachine k roots p) : Copying H k roots parent p p :=
  ⟨h, fun _ _ _ _ _ _ => rfl, fun _ hx => hx, fun _ _ _ _ hl => hl⟩

theorem trans (h : Copying H k roots parent p p') (h' : Copying H k roots parent p' p'') :
    Copying H k roots parent p p'' where
  spaces := h'.spaces
  large r hr a d ha hd := (h'.large r hr a d ha hd).trans (h.large r hr a d ha hd)
  owned x hx := h'.owned x (h.owned x hx)
  lost a heap ha hheap hl :=
    h'.lost a heap ha (fun x hx => h.owned x (hheap x hx)) (h.lost a heap ha hheap hl)

/-- One round: the page loses its mapping, others keep what they have. -/
theorem of_moved (h : Moved H.toMachine k roots parent (i / KiB4) p p')
    (hlost : Lost H p.heap (entryAt H.toMachine p'.mem parent i)) :
    Copying H k roots parent p p' := by
  refine ⟨h.spaces, h.large, h.owned, fun a heap ha hheap hl => ?_⟩
  by_cases hpage : a / KiB4 = i / KiB4
  · rw [entryAt_page hpage]
    exact hlost.mono hheap
  · obtain ⟨q, heq, hrest⟩ := hl
    have hw : BitVec.ofNat 64 q ≠ 0#64 := Lost.ne_zero ⟨q, rfl, hrest⟩
    exact ⟨q, h.entry a _ ha hpage hw heq, hrest⟩

end Copying

theorem copyPages_spec (h : Spaces H.toMachine k roots p) (hp : parent ∈ roots)
    (hs : shadow ∈ roots) (hne : parent ≠ shadow)
    (hclear : ∀ r, r = parent ∨ r = shadow → ∀ a, LowerHalf a → ClearAbove H.toMachine p.mem r a 3)
    (hi : ∀ j < n, LowerHalf (i + j * KiB4)) (he : copyPages H parent shadow n i p = some p') :
    Copying H k roots parent p p' ∧
      ∀ j < n, Lost H p.heap (entryAt H.toMachine p'.mem parent (i + j * KiB4)) := by
  induction n generalizing i p with
  | zero =>
    obtain rfl : p = p' := by simpa [copyPages] using he
    exact ⟨Copying.refl h, fun j hj => absurd hj (Nat.not_lt_zero j)⟩
  | succ n ih =>
    obtain ⟨p₁, h1, h2⟩ := Option.bind_eq_some_iff.mp he
    have hlow : LowerHalf i := by simpa using hi 0 (Nat.succ_pos n)
    obtain ⟨hm, hlost⟩ := copyOne_spec h hp hs hne hlow (hclear parent (Or.inl rfl) i hlow)
      (hclear shadow (Or.inr rfl) i hlow) h1
    have hfirst := Copying.of_moved hm hlost
    have hshift (j : ℕ) : i + KiB4 + j * KiB4 = i + (j + 1) * KiB4 := by
      rw [Nat.succ_mul]
      omega
    obtain ⟨hrest, hlosts⟩ := ih hfirst.spaces
      (fun r hr a ha => hm.clear (hr.elim (fun h => h ▸ hp) fun h => h ▸ hs) ha (hclear r hr a ha))
      (fun j hj => by rw [hshift]; exact hi (j + 1) (by omega)) h2
    refine ⟨hfirst.trans hrest, fun j hj => ?_⟩
    cases j with
    | zero =>
      rw [Nat.zero_mul, Nat.add_zero]
      exact hrest.lost i p.heap hlow hm.owned hlost
    | succ j =>
      rw [← hshift]
      exact (hlosts j (by omega)).mono hm.owned

/-- Where the loop of the private branch starts. -/
def Local.copyStart (l : Local) : ℕ := (l.flags.signExtend 64).toNat

/-- How many pages it visits. -/
def Local.copyRounds (l : Local) : ℕ := rounds l.copyStart (l.base + l.length)

/-- The private branch for one range, apart from the page tables. -/
theorem forkRange_private {c l : ℕ} (hs : (st.locals.get l).flags &&& mapShared = 0)
    (he : forkRange H k m c l st = some st') :
    ∃ sh st₁, newPagemap H k { st with locals := st.locals.push (st.locals.get l) } =
        some (sh, st₁) ∧
      copyPages H (st₁.top m) (st₁.top sh)
        (rounds (st.locals.get l).copyStart
          (wrap ((st.locals.get l).base + (st.locals.get l).length)))
        (st.locals.get l).copyStart st₁.paging = some st'.paging ∧
      st'.pagemaps.size = st₁.pagemaps.size ∧ (∀ j, st'.top j = st₁.top j) ∧
      st'.locals = st₁.locals := by
  obtain ⟨st2, h1, rfl⟩ := Option.map_eq_some_iff.mp he
  rw [if_neg (by rw [hs]; simp)] at h1
  obtain ⟨⟨sh, st₁⟩, h2, h3⟩ := Option.bind_eq_some_iff.mp h1
  obtain ⟨paging, h4, rfl⟩ := Option.map_eq_some_iff.mp h3
  refine ⟨sh, st₁, h2, h4, rfl, fun j => ?_, rfl⟩
  by_cases hj : j = c
  · simp only [hj, State.top, Arena.get_set_self]
  · simp only [State.top, Arena.get_set_of_ne hj]

theorem rounds_lt {start stop j : ℕ} (hj : j < rounds start stop) : start + j * KiB4 < stop := by
  unfold rounds KiB4 at *
  omega

theorem rounds_pos {start stop : ℕ} : 0 < rounds start stop ↔ start < stop := by
  unfold rounds KiB4
  omega

/-- The pagemaps and the locals of `st` are there in `st'`, as they were. -/
structure Grown (H : Host A) (k : ℕ) (st st' : State A) : Prop where
  tables : PageTables H k st'
  size : st.pagemaps.size ≤ st'.pagemaps.size
  top : ∀ j < st.pagemaps.size, st'.top j = st.top j
  localsSize : st.locals.size ≤ st'.locals.size
  locals : ∀ l < st.locals.size, st'.locals.get l = st.locals.get l

namespace Grown

theorem refl (hpt : PageTables H k st) : Grown H k st st :=
  ⟨hpt, Nat.le_refl _, fun _ _ => rfl, Nat.le_refl _, fun _ _ => rfl⟩

theorem trans {st'' : State A} (h : Grown H k st st') (h' : Grown H k st' st'') :
    Grown H k st st'' where
  tables := h'.tables
  size := h.size.trans h'.size
  top j hj := (h'.top j (hj.trans_le h.size)).trans (h.top j hj)
  localsSize := h.localsSize.trans h'.localsSize
  locals l hl := (h'.locals l (hl.trans_le h.localsSize)).trans (h.locals l hl)

theorem of_fresh {c : ℕ} (h : Fresh H k st c st') : Grown H k st st' where
  tables := h.tables
  size := by rw [h.size]; exact Nat.le_succ _
  top _ hj := h.top hj
  localsSize := by rw [h.locals]
  locals l _ := by rw [h.locals]

end Grown

/-- What the private branch does for one range, before and after the loop. -/
theorem forkRange_fresh {c l : ℕ} (hpt : PageTables H k st)
    (hs : (st.locals.get l).flags &&& mapShared = 0) (hw : (st.locals.get l).Whole)
    (he : forkRange H k m c l st = some st') :
    ∃ sh st₁, Fresh H k { st with locals := st.locals.push (st.locals.get l) } sh st₁ ∧
      copyPages H (st₁.top m) (st₁.top sh)
        (st.locals.get l).copyRounds (st.locals.get l).copyStart st₁.paging = some st'.paging ∧
      (Spaces H.toMachine k (tops st₁) st'.paging → Grown H k st st') := by
  obtain ⟨sh, st₁, h1, h2, hsize, htop, hlocals⟩ := forkRange_private hs he
  have hpt' : PageTables H k { st with locals := st.locals.push (st.locals.get l) } :=
    ⟨hpt.spaces, hpt.distinct⟩
  have hfresh := hpt'.newPagemap h1
  rw [hw.stop_eq] at h2
  refine ⟨sh, st₁, hfresh, h2, fun hspaces =>
    ⟨hfresh.tables.congr hsize htop hspaces, ?_, fun j hj => ?_, ?_, fun l' hl' => ?_⟩⟩
  · rw [hsize, hfresh.size]
    exact Nat.le_succ _
  · rw [htop]
    exact hfresh.top hj
  · rw [hlocals, hfresh.locals]
    exact Nat.le_succ _
  · rw [hlocals, hfresh.locals]
    exact Arena.get_push_of_ne hl'.ne

/-! ## Ranges whose loop runs -/

/-- From `st` to `st'` pages of the pagemap `m` may have lost their mapping. -/
structure Forked (H : Host A) (k m : ℕ) (st st' : State A) : Prop extends Grown H k st st' where
  small : (∀ a, LowerHalf a → ClearAbove H.toMachine st.paging.mem (st.top m) a 3) →
    ∀ a, LowerHalf a → ClearAbove H.toMachine st'.paging.mem (st.top m) a 3
  owned : ∀ x, H.source.owned st.paging.heap x → H.source.owned st'.paging.heap x
  lost : ∀ a heap, LowerHalf a → (∀ x, H.source.owned heap x → H.source.owned st.paging.heap x) →
    Lost H heap (entryAt H.toMachine st.paging.mem (st.top m) a) →
    Lost H heap (entryAt H.toMachine st'.paging.mem (st.top m) a)

namespace Forked

theorem refl (hpt : PageTables H k st) : Forked H k m st st :=
  ⟨Grown.refl hpt, fun hs => hs, fun _ hx => hx, fun _ _ _ _ hl => hl⟩

theorem trans {st'' : State A} (hm : m < st.pagemaps.size) (h : Forked H k m st st')
    (h' : Forked H k m st' st'') : Forked H k m st st'' := by
  have htop := h.top m hm
  refine ⟨h.toGrown.trans h'.toGrown, fun hs a ha => ?_, fun x hx => h'.owned x (h.owned x hx),
    fun a heap ha hheap hl => ?_⟩
  · have hsmall := h'.small (by rw [htop]; exact h.small hs) a ha
    rwa [htop] at hsmall
  · have hlost := h'.lost a heap ha (fun x hx => h.owned x (hheap x hx))
      (by rw [htop]; exact h.lost a heap ha hheap hl)
    rwa [htop] at hlost

/-- A new pagemap takes no mapping away. -/
theorem of_fresh {c : ℕ} (hpt : PageTables H k st) (hm : m < st.pagemaps.size)
    (h : Fresh H k st c st') : Forked H k m st st' := by
  refine ⟨Grown.of_fresh h, fun hs a ha d hd => ?_, fun x hx => (h.kept x hx).1,
    fun a heap ha hheap hl => ?_⟩
  · exact (h.leaves hpt hm a d).trans (hs a ha d hd)
  · rw [entryAt_congr (h.node hpt hm)]
    exact hl

/-- The private branch for one range. -/
theorem range {c l : ℕ} (hpt : PageTables H k st) (hm : m < st.pagemaps.size)
    (hs : (st.locals.get l).flags &&& mapShared = 0) (hw : (st.locals.get l).Whole)
    (hsmall : ∀ a, LowerHalf a → ClearAbove H.toMachine st.paging.mem (st.top m) a 3)
    (he : forkRange H k m c l st = some st') :
    Forked H k m st st' ∧ ∀ j < (st.locals.get l).copyRounds,
      Lost H st.paging.heap (entryAt H.toMachine st'.paging.mem (st.top m)
        ((st.locals.get l).copyStart + j * KiB4)) := by
  obtain ⟨sh, st₁, hfresh, h2, hgrown⟩ := forkRange_fresh hpt hs hw he
  -- the objects gained a `local`, which the page tables do not see
  have hpt' : PageTables H k { st with locals := st.locals.push (st.locals.get l) } :=
    ⟨hpt.spaces, hpt.distinct⟩
  have htop₁ : st₁.top m = st.top m := hfresh.top hm
  have hp : st.top m ∈ tops st₁ := hfresh.mem hm
  have hsh : st₁.top sh ∈ tops st₁ := top_mem hfresh.lt
  have hne : st.top m ≠ st₁.top sh := hfresh.ne hpt' hm
  have hfork₁ := of_fresh hpt' hm hfresh
  rw [htop₁] at h2
  obtain ⟨hcopy, hlost⟩ := copyPages_spec hfresh.tables.spaces hp hsh hne (fun r hr a ha => by
    rcases hr with rfl | rfl
    · exact hfork₁.small hsmall a ha
    · exact fun d _ => hfresh.empty a ha d) (fun j hj => hw.lowerHalf (rounds_lt hj)) h2
  refine ⟨⟨hgrown hcopy.spaces, fun hs a ha d hd => ?_, fun x hx => ?_,
    fun a heap ha hheap hl => ?_⟩, fun j hj => ?_⟩
  · exact (hcopy.large _ hp a d ha hd).trans (hfork₁.small hs a ha d hd)
  · exact hcopy.owned x (hfork₁.owned x hx)
  · exact hcopy.lost a heap ha (fun x hx => hfork₁.owned x (hheap x hx))
      (hfork₁.lost a heap ha hheap hl)
  · exact (hlost j hj).mono hfork₁.owned

/-- All ranges. -/
theorem ranges {c : ℕ} {ls : List ℕ} (hpt : PageTables H k st) (hm : m < st.pagemaps.size)
    (hls : ∀ l ∈ ls, l < st.locals.size ∧ (st.locals.get l).Whole ∧
      (st.locals.get l).flags &&& mapShared = 0)
    (hsmall : ∀ a, LowerHalf a → ClearAbove H.toMachine st.paging.mem (st.top m) a 3)
    (he : forkRanges H k m c ls st = some st') :
    Forked H k m st st' ∧ ∀ l ∈ ls, ∀ j < (st.locals.get l).copyRounds,
      Lost H st.paging.heap (entryAt H.toMachine st'.paging.mem (st.top m)
        ((st.locals.get l).copyStart + j * KiB4)) := by
  induction ls generalizing st with
  | nil =>
    obtain rfl : st = st' := by simpa [forkRanges] using he
    exact ⟨refl hpt, fun l hl => absurd hl List.not_mem_nil⟩
  | cons l ls ih =>
    obtain ⟨st₁, h1, h2⟩ := Option.bind_eq_some_iff.mp he
    obtain ⟨hl, hwhole, hprivate⟩ := hls l List.mem_cons_self
    obtain ⟨hfirst, hlost⟩ := range hpt hm hprivate hwhole hsmall h1
    have htop := hfirst.top m hm
    obtain ⟨hrest, hlosts⟩ := ih hfirst.tables (hm.trans_le hfirst.size)
      (fun l' hl' => by
        obtain ⟨hlt, hgood⟩ := hls l' (List.mem_cons_of_mem _ hl')
        rw [hfirst.locals l' hlt]
        exact ⟨hlt.trans_le hfirst.localsSize, hgood⟩)
      (by rw [htop]; exact hfirst.small hsmall) h2
    refine ⟨hfirst.trans hm hrest, fun l' hl' j hj => ?_⟩
    rcases List.mem_cons.mp hl' with rfl | hl'
    · -- later ranges do not restore the entry
      have hstays := hrest.lost _ st.paging.heap (hwhole.lowerHalf (rounds_lt hj)) hfirst.owned
        (by rw [htop]; exact hlost j hj)
      rwa [htop] at hstays
    · have hsame := hfirst.locals l' (hls l' (List.mem_cons_of_mem _ hl')).1
      have hstays := (hlosts l' hl' j (by rwa [hsame])).mono hfirst.owned
      rwa [hsame, htop] at hstays

end Forked

/-! ## Ranges whose loop does not run -/

/-- The loop of the private branch stops at once. -/
def Local.Idle (l : Local) : Prop := l.base + l.length ≤ l.copyStart

instance (l : Local) : Decidable l.Idle := inferInstanceAs (Decidable (_ ≤ _))

/-- From `st` to `st'` nothing in use was written. -/
structure Quiet (H : Host A) (k : ℕ) (st st' : State A) : Prop extends Grown H k st st' where
  kept : ∀ x, H.source.owned st.paging.heap x →
    H.source.owned st'.paging.heap x ∧ st'.paging.mem x = st.paging.mem x

namespace Quiet

theorem refl (hpt : PageTables H k st) : Quiet H k st st :=
  ⟨Grown.refl hpt, fun _ hx => ⟨hx, rfl⟩⟩

theorem trans {st'' : State A} (h : Quiet H k st st') (h' : Quiet H k st' st'') :
    Quiet H k st st'' :=
  ⟨h.toGrown.trans h'.toGrown, fun x hx =>
    ⟨(h'.kept x (h.kept x hx).1).1, (h'.kept x (h.kept x hx).1).2.trans (h.kept x hx).2⟩⟩

theorem of_fresh {c : ℕ} (h : Fresh H k st c st') : Quiet H k st st' :=
  ⟨Grown.of_fresh h, h.kept⟩

theorem range {c l : ℕ} (hpt : PageTables H k st)
    (hs : (st.locals.get l).flags &&& mapShared = 0) (hw : (st.locals.get l).Whole)
    (hidle : (st.locals.get l).Idle) (he : forkRange H k m c l st = some st') :
    Quiet H k st st' := by
  obtain ⟨sh, st₁, hfresh, h2, hgrown⟩ := forkRange_fresh hpt hs hw he
  have hzero : (st.locals.get l).copyRounds = 0 :=
    Nat.eq_zero_of_not_pos fun hpos => absurd hidle (Nat.not_le.mpr (rounds_pos.mp hpos))
  have hsame : st₁.paging = st'.paging := by
    rw [hzero] at h2
    simpa [copyPages] using h2
  rw [← hsame] at hgrown
  refine ⟨hgrown hfresh.tables.spaces, fun x hx => ?_⟩
  rw [← hsame]
  exact hfresh.kept x hx

theorem ranges {c : ℕ} {ls : List ℕ} (hpt : PageTables H k st)
    (hls : ∀ l ∈ ls, l < st.locals.size ∧ (st.locals.get l).Whole ∧
      (st.locals.get l).flags &&& mapShared = 0)
    (hidle : ∀ l ∈ ls, (st.locals.get l).Idle)
    (he : forkRanges H k m c ls st = some st') : Quiet H k st st' := by
  induction ls generalizing st with
  | nil =>
    obtain rfl : st = st' := by simpa [forkRanges] using he
    exact refl hpt
  | cons l ls ih =>
    obtain ⟨st₁, h1, h2⟩ := Option.bind_eq_some_iff.mp he
    obtain ⟨hl, hwhole, hprivate⟩ := hls l List.mem_cons_self
    have hfirst := range hpt hprivate hwhole (hidle l List.mem_cons_self) h1
    have hsame (l' : ℕ) (hl' : l' ∈ ls) : st₁.locals.get l' = st.locals.get l' :=
      hfirst.locals l' (hls l' (List.mem_cons_of_mem _ hl')).1
    refine hfirst.trans (ih hfirst.tables (fun l' hl' => ?_) (fun l' hl' => ?_) h2)
    · obtain ⟨hlt, hgood⟩ := hls l' (List.mem_cons_of_mem _ hl')
      rw [hsame l' hl']
      exact ⟨hlt.trans_le hfirst.localsSize, hgood⟩
    · rw [hsame l' hl']
      exact hidle l' (List.mem_cons_of_mem _ hl')

/-- The tables of a pagemap are as they were. -/
theorem node (h : Quiet H k st st') (hpt : PageTables H k st) (hm : m < st.pagemaps.size)
    (q : List ℕ) (t : ℕ) (hq : nodeAt H.toMachine st.paging.mem (st.top m) q = some t) :
    st'.paging.mem t = st.paging.mem t :=
  (h.kept t ((hpt.spaces.tree _ (top_mem hm)).owned t
    ((hpt.spaces.tree _ (top_mem hm)).closed q t hq))).2

end Quiet

/-! ## Isolation -/

/-- What the caller of `fork` expects for private ranges: the parent is as it was, and the child has
copies of the pages mapped in the ranges, in frames of its own, and no other pages. -/
structure IsolatedCopy (H : Host A) (m : ℕ) (st : State A) (c : ℕ) (st' : State A) : Prop where
  entries : ∀ q t, nodeAt H.toMachine st.paging.mem (st.top m) q = some t →
    st'.paging.mem t = st.paging.mem t
  parent : ∀ a, hwTranslate H.toMachine st'.paging.mem (st.top m) a =
    hwTranslate H.toMachine st.paging.mem (st.top m) a
  frames : ∀ a w, LowerHalf a → leafFor H.toMachine st.paging.mem (st.top m) a 3 = some w →
    ∀ j < 512, st'.paging.mem (tohh H.hhdm.offset (getAddress w)) j =
      st.paging.mem (tohh H.hhdm.offset (getAddress w)) j
  copied : ∀ a w, InRange st m a → leafFor H.toMachine st.paging.mem (st.top m) a 3 = some w →
    ∃ w', leafFor H.toMachine st'.paging.mem (st'.top c) a 3 = some w' ∧
      flagBits w' = flagBits w ∧
      ¬ H.source.owned st.paging.heap (tohh H.hhdm.offset (getAddress w')) ∧
      ∀ j < 512, st'.paging.mem (tohh H.hhdm.offset (getAddress w')) j =
        st.paging.mem (tohh H.hhdm.offset (getAddress w)) j
  unmapped : ∀ a, LowerHalf a →
    ¬ InRange st m a ∨ leafFor H.toMachine st.paging.mem (st.top m) a 3 = none →
    hwTranslate H.toMachine st'.paging.mem (st'.top c) a = none

/-- Nothing to copy: no loop runs, and no page of the ranges is mapped. -/
structure NothingToCopy (H : Host A) (m : ℕ) (st : State A) : Prop where
  idle : ∀ l ∈ (st.pagemaps.get m).ranges, (st.locals.get l).Idle
  unmapped : ∀ a, InRange st m a → leafFor H.toMachine st.paging.mem (st.top m) a 3 = none

/-- An entry that points at a frame in use is not one that has lost its mapping. -/
theorem Lost.not_backed {heap : A} {e : Option (BitVec 64)} (h : Lost H heap e)
    (hb : ∀ w, e = some w → w ≠ 0#64 →
      H.source.owned heap (tohh H.hhdm.offset (getAddress w))) : False := by
  obtain ⟨q, rfl, hrest⟩ := h
  have hne : BitVec.ofNat 64 q ≠ 0#64 := Lost.ne_zero ⟨q, rfl, hrest⟩
  obtain ⟨-, hal, hlim, h52, hfresh⟩ := hrest
  have haddr : getAddress (BitVec.ofNat 64 q) = q := by
    rw [getAddress, ofNat_and_paMask hal h52, BitVec.toNat_ofNat, Nat.mod_eq_of_lt (by omega)]
  have howned := hb _ rfl hne
  rw [haddr, H.hhdm.tohh_eq hlim] at howned
  exact hfresh howned

/-- Every page a loop of `fork` visits loses its mapping in the parent. -/
theorem fork_lost {c : ℕ} (hpt : PageTables H k st) (hm : m < st.pagemaps.size)
    (hranges : ∀ l ∈ (st.pagemaps.get m).ranges, l < st.locals.size ∧ (st.locals.get l).Whole ∧
      (st.locals.get l).flags &&& mapShared = 0)
    (hsmall : ∀ a, LowerHalf a → ClearAbove H.toMachine st.paging.mem (st.top m) a 3)
    (he : fork H k m st = some (c, st')) :
    ∀ l ∈ (st.pagemaps.get m).ranges, ∀ j < (st.locals.get l).copyRounds,
      Lost H st.paging.heap (entryAt H.toMachine st'.paging.mem (st.top m)
        ((st.locals.get l).copyStart + j * KiB4)) := by
  obtain ⟨⟨c', st₁⟩, h1, h2⟩ := Option.bind_eq_some_iff.mp he
  obtain ⟨st₂, h3, heq⟩ := Option.map_eq_some_iff.mp h2
  obtain ⟨rfl, rfl⟩ := Prod.mk.inj heq
  have hfresh := hpt.newPagemap h1
  have hfork := Forked.of_fresh hpt hm hfresh
  have htop := hfresh.top hm
  rw [hfresh.old m hm] at h3
  obtain ⟨-, hlost⟩ := Forked.ranges hfresh.tables (hm.trans_le hfork.size)
    (by rw [hfresh.locals]; exact hranges) (by rw [htop]; exact hfork.small hsmall) h3
  rw [hfresh.locals, htop] at hlost
  exact fun l hl j hj => (hlost l hl j hj).mono hfork.owned

/-- Where no loop runs, nothing in use is written and the child stays empty. -/
theorem fork_quiet {c : ℕ} (hpt : PageTables H k st) (hm : m < st.pagemaps.size)
    (hranges : ∀ l ∈ (st.pagemaps.get m).ranges, l < st.locals.size ∧ (st.locals.get l).Whole ∧
      (st.locals.get l).flags &&& mapShared = 0)
    (hidle : ∀ l ∈ (st.pagemaps.get m).ranges, (st.locals.get l).Idle)
    (he : fork H k m st = some (c, st')) :
    Quiet H k st st' ∧ ∀ a, LowerHalf a → ∀ d,
      leafFor H.toMachine st'.paging.mem (st'.top c) a d = none := by
  obtain ⟨⟨c', st₁⟩, h1, h2⟩ := Option.bind_eq_some_iff.mp he
  obtain ⟨st₂, h3, heq⟩ := Option.map_eq_some_iff.mp h2
  obtain ⟨rfl, rfl⟩ := Prod.mk.inj heq
  have hfresh := hpt.newPagemap h1
  rw [hfresh.old m hm] at h3
  have hrest : Quiet H k st₁ st₂ := Quiet.ranges hfresh.tables
    (by rw [hfresh.locals]; exact hranges) (by rw [hfresh.locals]; exact hidle) h3
  refine ⟨(Quiet.of_fresh hfresh).trans hrest, fun a ha d => ?_⟩
  rw [hrest.top c' hfresh.lt, ← hfresh.empty a ha d]
  exact congrArg Slot.leaf? (slotAt_congr (hrest.node hfresh.tables hfresh.lt) _ _)

/-- `fork` for private ranges does what it should only where there is nothing to do. -/
theorem private_fork_isolates_iff (H : Host A) {c : ℕ} (hpt : PageTables H k st)
    (hm : m < st.pagemaps.size)
    (hranges : ∀ l ∈ (st.pagemaps.get m).ranges, l < st.locals.size ∧ (st.locals.get l).Whole ∧
      (st.locals.get l).flags &&& mapShared = 0)
    (hsmall : ∀ a, LowerHalf a → ClearAbove H.toMachine st.paging.mem (st.top m) a 3)
    (hbacked : ∀ a w, LowerHalf a → entryAt H.toMachine st.paging.mem (st.top m) a = some w →
      w ≠ 0#64 → H.source.owned st.paging.heap (tohh H.hhdm.offset (getAddress w)))
    (he : fork H k m st = some (c, st')) :
    IsolatedCopy H m st c st' ↔ NothingToCopy H m st := by
  constructor
  · intro hiso
    have hidle : ∀ l ∈ (st.pagemaps.get m).ranges, (st.locals.get l).Idle := by
      intro l hl
      by_contra hrun
      have hlt : (st.locals.get l).copyStart < (st.locals.get l).base + (st.locals.get l).length :=
        Nat.not_le.mp hrun
      have hgone := fork_lost hpt hm hranges hsmall he l hl 0 (rounds_pos.mpr hlt)
      rw [Nat.zero_mul, Nat.add_zero, entryAt_congr hiso.entries] at hgone
      exact hgone.not_backed fun w hw hne =>
        hbacked _ w ((hranges l hl).2.1.lowerHalf hlt) hw hne
    have hempty := (fork_quiet hpt hm hranges hidle he).2
    refine ⟨hidle, fun a ha => ?_⟩
    cases hleaf : leafFor H.toMachine st.paging.mem (st.top m) a 3 with
    | none => rfl
    | some w =>
      obtain ⟨w', hw', -⟩ := hiso.copied a w ha hleaf
      rw [hempty a (ha.lower fun l hl => (hranges l hl).2.1) 3] at hw'
      simp at hw'
  · rintro ⟨hidle, hnone⟩
    obtain ⟨hq, hempty⟩ := fork_quiet hpt hm hranges hidle he
    refine ⟨hq.node hpt hm, fun a => ?_, fun a w ha hleaf j _ => ?_, fun a w ha hleaf => ?_,
      fun a ha _ => hwTranslate_eq_none.mpr fun d _ => hempty a ha d⟩
    · exact hwTranslate_congr fun d _ => congrArg Slot.leaf? (slotAt_congr (hq.node hpt hm) _ _)
    · rw [leafFor_eq_entryAt] at hleaf
      obtain ⟨w', hentry, hbit⟩ := Option.bind_eq_some_iff.mp hleaf
      split_ifs at hbit with h0
      obtain rfl := Option.some.inj hbit
      have hne : w' ≠ 0#64 := by
        rintro rfl
        simp at h0
      rw [(hq.kept _ (hbacked a w' ha hentry hne)).2]
    · rw [hnone a ha] at hleaf
      simp at hleaf

/-- The flags `mmap` would have for locked memory put the start of the loop past the end. -/
def lockedPage : Local :=
  { Local.zero with base := 0x1000, length := 0x1000, flags := 0x2022 }

theorem private_fork_isolates_iff_small :
    ∃ k st c st', smallFork lockedPage = some (k, st, c, st') ∧
      IsolatedCopy orderedHost 1 st c st' := by
  have hsome : (smallFork lockedPage).isSome = true := by decide +kernel
  obtain ⟨⟨k, st, c, st'⟩, he⟩ := Option.isSome_iff_exists.mp hsome
  obtain ⟨hpt, hm, hranges, hsize, hlocal, hbare, hfork⟩ := smallFork_eq_some he
  have hrange (l : ℕ) (hl : l ∈ (st.pagemaps.get 1).ranges) : l = 0 := by
    rwa [hranges, List.mem_singleton] at hl
  have hwhole : lockedPage.Whole := ⟨by decide, by decide, by decide⟩
  have hin (a : ℕ) (ha : InRange st 1 a) : LowerHalf a :=
    ha.lower fun l hl => by rwa [hrange l hl, hlocal]
  refine ⟨k, st, c, st', he, (private_fork_isolates_iff orderedHost hpt hm (fun l hl => ?_)
    (fun a ha d _ => leafFor_of_empty (hbare a ha) d) (fun a w ha hw => ?_) hfork).mpr
    ⟨fun l hl => ?_, fun a ha => leafFor_of_empty (hbare a (hin a ha)) 3⟩⟩
  · rw [hrange l hl, hlocal]
    exact ⟨hsize, hwhole, by decide⟩
  · have hnone : entryAt orderedHost.toMachine st.paging.mem (st.top 1) a = none :=
      entryAt_of_empty (hbare a ha)
    rw [hnone] at hw
    simp at hw
  · rw [hrange l hl, hlocal]
    decide

/-- An ordinary private page. -/
def privatePage : Local :=
  { Local.zero with base := 0x1000, length := 0x1000, flags := mapPrivate ||| mapAnonymous }

/-- The fork writes frames of its own into the page tables of the parent, which had none. -/
theorem private_fork_writes_parent :
    ∃ k st c st', smallFork privatePage = some (k, st, c, st') ∧
      (∀ a, LowerHalf a → entryAt (orderedMachine false) st.paging.mem (st.top 1) a = none) ∧
      Lost orderedHost st.paging.heap
        (entryAt (orderedMachine false) st'.paging.mem (st.top 1) 0x1000) ∧
      ¬ IsolatedCopy orderedHost 1 st c st' := by
  have hsome : (smallFork privatePage).isSome = true := by decide +kernel
  obtain ⟨⟨k, st, c, st'⟩, he⟩ := Option.isSome_iff_exists.mp hsome
  obtain ⟨hpt, hm, hranges, hsize, hlocal, hbare, hfork⟩ := smallFork_eq_some he
  have hrange (l : ℕ) (hl : l ∈ (st.pagemaps.get 1).ranges) : l < st.locals.size ∧
      (st.locals.get l).Whole ∧ (st.locals.get l).flags &&& mapShared = 0 := by
    rw [hranges, List.mem_singleton] at hl
    rw [hl, hlocal]
    exact ⟨hsize, ⟨by decide, by decide, by decide⟩, by decide⟩
  have hnone (a : ℕ) (ha : LowerHalf a) :
      entryAt orderedHost.toMachine st.paging.mem (st.top 1) a = none :=
    entryAt_of_empty (hbare a ha)
  -- the second round of the loop is for the page of the range
  have hlost := fork_lost hpt hm hrange (fun a ha d _ => leafFor_of_empty (hbare a ha) d) hfork
    0 (by rw [hranges]; exact List.mem_singleton_self 0) 1 (by rw [hlocal]; decide)
  rw [hlocal, entryAt_page (b := 0x1000) (by decide)] at hlost
  refine ⟨k, st, c, st', he, hnone, hlost, fun hiso => ?_⟩
  rw [entryAt_congr hiso.entries, hnone 0x1000 (by decide)] at hlost
  obtain ⟨q, hq, -⟩ := hlost
  simp at hq

end IceKernel.Memmap
