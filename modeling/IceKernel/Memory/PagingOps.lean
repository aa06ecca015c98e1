import IceKernel.Memory.PagingHardware

/-!
# What each operation does to the leaves
-/

namespace IceKernel.Paging
open Word64 RadixTree

variable {A : Type} {K : Machine A} {top : ℕ} {st st' : State A} {p q : List ℕ} {t i j v d : ℕ}

/-- A canonical 64-bit address. -/
def Canonical (a : ℕ) : Prop := isCanonical a = true ∧ a < 2 ^ 64

instance (a : ℕ) : Decidable (Canonical a) := inferInstanceAs (Decidable (_ ∧ _))

/-- The region of depth `d` around `v` now has the leaf `w` (or none) and nothing below it;
all other leaves are as before. -/
structure Put (K : Machine A) (top : ℕ) (st st' : State A) (v d : ℕ) (w : Option (BitVec 64)) :
    Prop extends Touches st st' where
  leaf : ∀ a e, Canonical a → leafFor K st'.mem top a e =
    if a / sizeAt d = v / sizeAt d ∧ d ≤ e then if e = d then w else none
    else leafFor K st.mem top a e

/-- A step that only grows the tree, before a store. -/
theorem Put.of_grows {st'' : State A} {w : Option (BitVec 64)} (hg : Grows K top st st')
    (h : Put K top st' st'' v d w) : Put K top st st'' v d w where
  toTouches := hg.toTouches.trans h.toTouches
  leaf a e ha := by
    rw [h.leaf a e ha]
    exact if_congr Iff.rfl rfl (hg.leaves _ _)

theorem Put.self {w : Option (BitVec 64)} (h : Put K top st st' v d w) (hv : Canonical v) :
    leafFor K st'.mem top v d = w := by
  rw [h.leaf v d hv, if_pos ⟨rfl, Nat.le_refl d⟩, if_pos rfl]

/-- Without a table for `v` there is no small leaf to take away. -/
theorem Put.of_no_table (hg : Grows K top st st')
    (hnone : nodeAt K st.mem top (pathTo v 3) = none) : Put K top st st' v 3 none := by
  refine ⟨hg.toTouches, fun a e ha => ?_⟩
  rw [leafFor, leafOf, hg.leaves]
  by_cases hin : a / sizeAt 3 = v / sizeAt 3 ∧ 3 ≤ e
  · have hpath : pathTo a 3 = pathTo v 3 := pathTo_congr hin.1 (by norm_num) (by norm_num)
    have hn : nodeAt K st.mem top (pathTo a 3) = none := by rw [hpath, hnone]
    rw [if_pos hin, ite_self]
    exact leafFor_of_no_node hn hin.2
  · rw [if_neg hin]

theorem Put.clearAbove {a level : ℕ} {w : Option (BitVec 64)} (h : Put K top st st' v d w)
    (ha : Canonical a) (hl : level ≤ d) :
    ClearAbove K st'.mem top a level ↔ ClearAbove K st.mem top a level := by
  refine forall₂_congr fun e he => ?_
  have hleaf : leafFor K st'.mem top a e = leafFor K st.mem top a e := by
    rw [h.leaf a e ha, if_neg (by omega)]
  exact Eq.congr_left hleaf

/-- Storing a word that is not a link in the entry for `v` at depth `d`. -/
theorem Skeleton.put_leaf (hs : Skeleton K top st) (hv : Canonical v) (hd : d ≤ 3)
    (hp : nodeAt K st.mem top (pathTo v d) = some t) {w : BitVec 64}
    (hw : (decode K.hhdm.offset d w).child? = none) :
    Put K top st { st with mem := write st.mem t (idx v d) w } v d
      (decode K.hhdm.offset d w).leaf? := by
  have hself : slotOf K (write st.mem t (idx v d) w) top (pathTo v d) (idx v d) =
      decode K.hhdm.offset d w := by
    rw [slotOf, slotAt_write_self hs.unshared hp, length_pathTo]
  refine ⟨⟨?_, fun s hm => hm, fun s hm => Or.inl hm⟩, ?_⟩
  · intro s hm
    have hst : s ≠ t := fun h => hm (h ▸ hs.closed _ t hp)
    exact write_node_of_ne hst
  · intro a e ha
    by_cases hin : a / sizeAt d = v / sizeAt d ∧ d ≤ e
    · have hpath : pathTo a d = pathTo v d := pathTo_congr hin.1 (by omega) hd
      have hidx : idx a d = idx v d := idx_congr hin.1 (Nat.le_refl d) hd
      rw [if_pos hin]
      by_cases hed : e = d
      · rw [if_pos hed, hed, leafFor, leafOf, hpath, hidx, hself]
      · rw [if_neg hed]
        apply leafFor_below (d := d) (by omega)
        rw [hpath, hidx, hself, hw]
    · rw [if_neg hin]
      refine congrArg Slot.leaf? (slotAt_write hs.unshared hp fun hsuf => hin ?_)
      have hsuf' : pathTo v (d + 1) <:+ pathTo a (e + 1) := hsuf
      obtain ⟨hle, heq⟩ := eq_of_suffix hsuf'
      exact ⟨div_eq_of_pathTo_eq ha.1 hv.1 ha.2 hv.2 hd heq, by omega⟩

/-- The store keeps the tree as well. -/
theorem Tables.store (ht : Tables K top st) (hv : Canonical v) (hd : 1 ≤ d ∧ d ≤ 3)
    (hp : nodeAt K st.mem top (pathTo v d) = some t) {w : BitVec 64}
    (hw : (decode K.hhdm.offset d w).child? = none) (hz : w.getLsbD 0 = true ∨ w = 0#64) :
    Tables K top { st with mem := write st.mem t (idx v d) w } ∧
      Put K top st { st with mem := write st.mem t (idx v d) w } v d
        (decode K.hhdm.offset d w).leaf? := by
  refine ⟨ht.put hp ?_ ?_ hz, ht.skeleton.put_leaf hv hd.2 hp hw⟩
  · rw [length_pathTo]
    exact hd.1
  · rw [length_pathTo]
    exact hw

/-! ## `map` -/

/-- The word `map_one` stores. -/
def mappedWord (old : BitVec 64) (physicalAddress : ℕ) (flags : BitVec 64) (cache : Caching)
    (pageSize : ℕ) : BitVec 64 :=
  setFlags (setAddress old physicalAddress) (realFlags flags cache (pageSize ≠ KiB4)) true

theorem mappedWord_present (old : BitVec 64) (pa : ℕ) (flags : BitVec 64) (cache : Caching)
    (pageSize : ℕ) : (mappedWord old pa flags cache pageSize).getLsbD 0 = true := by
  rw [mappedWord, getLsbD_setFlags, realFlags_present, Bool.true_or]

theorem mappedWord_larger (old : BitVec 64) (pa : ℕ) {flags : BitVec 64} (h : isLpage flags = true)
    (cache : Caching) (pageSize : ℕ) :
    (mappedWord old pa flags cache pageSize).getLsbD 7 = true := by
  rw [mappedWord, getLsbD_setFlags, realFlags_larger h, Bool.true_or]

/-- A word `map_one` stores is a leaf at the depth of its page size. -/
theorem decode_mappedWord (off : ℕ) (old : BitVec 64) (pa : ℕ) {flags : BitVec 64} (cache : Caching)
    {pageSize : ℕ} (h : levelOf pageSize = 3 ∨ isLpage flags = true) :
    decode off (levelOf pageSize) (mappedWord old pa flags cache pageSize) =
      .leaf (mappedWord old pa flags cache pageSize) := by
  apply decode_leaf (mappedWord_present _ _ _ _ _) (levelOf_bounds pageSize).1
  rcases h with h | h
  · exact Or.inl (by omega)
  · exact Or.inr (mappedWord_larger _ _ h _ _)

theorem mapOne_spec (ht : Tables K top st) (hv : Canonical v) {pa : ℕ} {flags : BitVec 64}
    {cache : Caching} {pageSize : ℕ} (hl : levelOf pageSize = 3 ∨ isLpage flags = true)
    (hc : ClearAbove K st.mem top v (levelOf pageSize)) {ok : Bool}
    (he : mapOne K top v pa flags cache pageSize st = some (ok, st')) :
    ok = true ∧ Tables K top st' ∧ ∃ old,
      Put K top st st' v (levelOf pageSize) (some (mappedWord old pa flags cache pageSize)) := by
  obtain ⟨⟨e, st1⟩, hw, heq⟩ := Option.map_eq_some_iff.mp he
  obtain ⟨ht1, hg, ⟨t, rfl, hn⟩ | ⟨-, hal, -⟩⟩ := ht.entry hc hw
  · simp only [Prod.mk.injEq] at heq
    obtain ⟨rfl, rfl⟩ := heq
    have hdec := decode_mappedWord K.hhdm.offset (st1.mem t (idx v (levelOf pageSize))) pa cache hl
    obtain ⟨ht2, hput⟩ := ht1.store hv (levelOf_bounds pageSize) hn
      (w := mappedWord (st1.mem t (idx v (levelOf pageSize))) pa flags cache pageSize)
      (by rw [hdec]; rfl) (Or.inl (mappedWord_present _ _ _ _ _))
    rw [hdec] at hput
    exact ⟨rfl, ht2, _, Put.of_grows hg hput⟩
  · exact absurd hal (by simp)

/-- The word of the lowest entry for `v`: its leaf, or zero. -/
def entryWord (K : Machine A) (mem : Mem) (top v : ℕ) : BitVec 64 :=
  (leafFor K mem top v 3).getD 0#64

theorem Tables.entryWord_eq (ht : Tables K top st)
    (hn : nodeAt K st.mem top (pathTo v 3) = some t) :
    st.mem t (idx v 3) = entryWord K st.mem top v := by
  rw [entryWord, leafFor, leafOf, slot_step hn]
  rcases ht.zero t (ht.closed _ t hn) (idx v 3) with h0 | hz
  · rw [decode_leaf h0 (by norm_num) (Or.inl (Nat.le_refl 3))]
    rfl
  · rw [hz, decode_zero]
    rfl

/-- `map_one` for a small page, word by word: a walk, and one store in the entry it reaches. -/
theorem mapOne_small (ht : Tables K top st) {pa : ℕ} {flags : BitVec 64} {cache : Caching}
    (hc : ClearAbove K st.mem top v 3) {ok : Bool}
    (he : mapOne K top v pa flags cache KiB4 st = some (ok, st')) :
    ok = true ∧ ∃ t st1, Tables K top st1 ∧ Walked K top (pathTo v 3) st st1 ∧
      nodeAt K st1.mem top (pathTo v 3) = some t ∧
      st' = { st1 with
        mem := write st1.mem t (idx v 3)
          (mappedWord (entryWord K st.mem top v) pa flags cache KiB4) } := by
  obtain ⟨⟨e, st1⟩, hw, heq⟩ := Option.map_eq_some_iff.mp he
  have hc' : ClearAbove K st.mem top v (levelOf KiB4) := hc
  obtain ⟨hs1, hw1, ⟨t, rfl, hn⟩ | ⟨-, hal, -⟩⟩ := ht.skeleton.entry hc' hw
  · have ht1 := Tables.of_skeleton hs1 (hw1.zero ht.zero)
    simp only [Prod.mk.injEq] at heq
    obtain ⟨rfl, rfl⟩ := heq
    have hold : st1.mem t (idx v 3) = entryWord K st.mem top v := by
      rw [ht1.entryWord_eq hn, entryWord, entryWord, leafFor, leafOf, hw1.leaves]
    refine ⟨rfl, t, st1, ht1, hw1, hn, ?_⟩
    rw [← hold]
    rfl
  · exact absurd hal (by simp)

/-! ## Walks that may not allocate -/

theorem getNextLvl_false (K : Machine A) (t i : ℕ) (st : State A) :
    ∃ r vis, getNextLvl K t i false st = some (r, { st with visited := vis }) := by
  by_cases ht : t = 0
  · exact ⟨0, st.visited, by simp [getNextLvl, ht]⟩
  · by_cases hp : getFlags (st.mem t i) present
    · exact ⟨_, _, by rw [getNextLvl, if_neg ht, if_pos hp]⟩
    · exact ⟨0, st.visited, by simp [getNextLvl, ht, hp]⟩

theorem walk_false (K : Machine A) (top v d : ℕ) (st : State A) :
    ∃ r vis, walk K top v false d st = some (r, { st with visited := vis }) := by
  induction d with
  | zero => exact ⟨top, st.visited, rfl⟩
  | succ d ih =>
    obtain ⟨r, vis, hr⟩ := ih
    rw [walk, hr]
    exact getNextLvl_false K r (idx v d) _

/-- A walk that may not allocate always returns and changes nothing. -/
theorem entry_false (K : Machine A) (top v pageSize : ℕ) (st : State A) :
    ∃ e vis, virtualToPtEntry K top v false pageSize st =
      some (e, { st with visited := vis }) := by
  obtain ⟨r, vis, hr⟩ := walk_false K top v (levelOf pageSize) st
  rw [virtualToPtEntry_eq, hr, Option.map_some]
  by_cases hz : r = 0
  · exact ⟨none, vis, by simp only [hz, if_true]⟩
  · exact ⟨_, vis, by simp only [hz, if_false]; rfl⟩

/-! ## `unmap` -/

theorem unmapOne_spec (ht : Tables K top st) (hv : Canonical v)
    (hc : ClearAbove K st.mem top v 3) {ok : Bool}
    (he : unmapOne K top v st = some (ok, st')) :
    Tables K top st' ∧ Put K top st st' v 3 none ∧
      (ok = true ↔ nodeAt K st.mem top (pathTo v 3) ≠ none) ∧
      ∀ p, nodeAt K st'.mem top p = nodeAt K st.mem top p := by
  obtain ⟨e, vis, hw⟩ := entry_false K top v KiB4 st
  rw [unmapOne, hw, Option.map_some, Option.some.injEq] at he
  obtain ⟨ht1, hg, ⟨t, rfl, hn⟩ | ⟨rfl, -, hn⟩⟩ := ht.entry hc hw
  · simp only [Prod.mk.injEq] at he
    obtain ⟨rfl, rfl⟩ := he
    have hn' : nodeAt K st.mem top (pathTo v 3) = some t := hn
    obtain ⟨ht2, hput⟩ := ht1.store hv (levelOf_bounds KiB4) hn (w := 0#64) rfl (Or.inr rfl)
    have hslot : (slotOf K st.mem top (pathTo v 3) (idx v 3)).child? = none := by
      rw [slot_step hn', decode_lowest]
    refine ⟨ht2, Put.of_grows hg hput, by simp [hn'], fun p => ?_⟩
    exact descend_write_leaf ht.unshared hn' hslot rfl p
  · -- no table for `v`: nothing to clear, and nothing was there
    simp only [Prod.mk.injEq] at he
    obtain ⟨rfl, rfl⟩ := he
    have hnone : nodeAt K st.mem top (pathTo v 3) = none := hn
    exact ⟨ht1, Put.of_no_table hg hnone, by simp [hnone], fun p => rfl⟩

/-! ## `set_flags` -/

theorem levelOf_getPageSize (flags : BitVec 64) :
    levelOf (getPageSize flags) = 3 ∨ isLpage flags = true := by
  by_cases h1 : getFlags flags LPAGE
  · exact Or.inr (by simp [isLpage, h1])
  · by_cases h2 : getFlags flags LLPAGE
    · exact Or.inr (by simp [isLpage, h2])
    · exact Or.inl (by simp [getPageSize, h1, h2, levelOf, KiB4, MiB2, GiB1])

theorem getPageSize_cases (flags : BitVec 64) :
    getPageSize flags = KiB4 ∨ getPageSize flags = MiB2 ∨ getPageSize flags = GiB1 := by
  simp only [getPageSize]
  split_ifs <;> simp

theorem getPageSize_le (flags : BitVec 64) :
    0 < getPageSize flags ∧ getPageSize flags ≤ 2 ^ 30 := by
  rcases getPageSize_cases flags with h | h | h <;> rw [h] <;> decide

theorem setFlagsAt_spec (ht : Tables K top st) (hv : Canonical v) {flags : BitVec 64}
    {cache : Caching} (hc : ClearAbove K st.mem top v (levelOf (getPageSize flags))) {ok : Bool}
    (he : setFlagsAt K top v flags cache st = some (ok, st')) :
    ok = true ∧ Tables K top st' ∧ ∃ w,
      Put K top st st' v (levelOf (getPageSize flags)) (some w) := by
  obtain ⟨⟨e, st1⟩, hw, heq⟩ := Option.map_eq_some_iff.mp he
  obtain ⟨ht1, hg, ⟨t, rfl, hn⟩ | ⟨-, hal, -⟩⟩ := ht.entry hc hw
  · simp only [Prod.mk.injEq] at heq
    obtain ⟨rfl, rfl⟩ := heq
    have hdec := decode_mappedWord K.hhdm.offset 0#64
      (getAddress (st1.mem t (idx v (levelOf (getPageSize flags))))) cache
      (levelOf_getPageSize flags)
    obtain ⟨ht2, hput⟩ := ht1.store hv (levelOf_bounds _) hn
      (w := mappedWord 0#64 (getAddress (st1.mem t (idx v (levelOf (getPageSize flags))))) flags
        cache (getPageSize flags))
      (by rw [hdec]; rfl) (Or.inl (mappedWord_present _ _ _ _ _))
    rw [hdec] at hput
    exact ⟨rfl, ht2, _, Put.of_grows hg hput⟩
  · exact absurd hal (by simp)

/-! ## `virtual_to_physical` -/

/-- What a lookup returns for the word of the entry it reaches. -/
def lookupResult (v pageSize : ℕ) (w : Option (BitVec 64)) : ℕ :=
  match w with
  | none => invalidAddr
  | some w => if w.getLsbD 0 then getAddress w + v % pageSize else invalidAddr

theorem getAddress_lt (w : BitVec 64) : getAddress w < 2 ^ 52 := by
  have h : getAddress w ≤ paMask.toNat := Nat.and_le_right
  have hm : paMask.toNat < 2 ^ 52 := by decide
  omega

/-- `virtual_to_physical` reads the entry for `v` at the depth of the page size. -/
theorem Skeleton.lookup (hs : Skeleton K top st) (flags : BitVec 64)
    (hc : ClearAbove K st.mem top v (levelOf (getPageSize flags))) :
    ∃ vis, virtualToPhysical K top v flags st =
      some (lookupResult v (getPageSize flags)
        ((nodeAt K st.mem top (pathTo v (levelOf (getPageSize flags)))).map fun t =>
          st.mem t (idx v (levelOf (getPageSize flags)))), { st with visited := vis }) ∧
      Grows K top st { st with visited := vis } := by
  obtain ⟨e, vis, hw⟩ := entry_false K top v (getPageSize flags) st
  obtain ⟨-, hg, hcases⟩ := hs.entry hc hw
  refine ⟨vis, ?_, hg.toGrows⟩
  rw [virtualToPhysical, hw, Option.map_some]
  rcases hcases with ⟨t, rfl, hn⟩ | ⟨rfl, -, hn⟩
  · have hn' : nodeAt K st.mem top (pathTo v (levelOf (getPageSize flags))) = some t := hn
    have hwrap : wrap (getAddress (st.mem t (idx v (levelOf (getPageSize flags)))) +
        v % getPageSize flags) =
          getAddress (st.mem t (idx v (levelOf (getPageSize flags)))) + v % getPageSize flags := by
      have h1 := getAddress_lt (st.mem t (idx v (levelOf (getPageSize flags))))
      have h2 := getPageSize_le flags
      have h3 := Nat.mod_lt v h2.1
      exact wrap_of_lt (by omega)
    simp only [hn', Option.map_some, lookupResult, getFlags_present, hwrap]
    cases (st.mem t (idx v (levelOf (getPageSize flags)))).getLsbD 0 <;> rfl
  · simp only [hn, Option.map_none, lookupResult]

theorem virtualToPhysical_spec (ht : Tables K top st) (flags : BitVec 64)
    (hc : ClearAbove K st.mem top v (levelOf (getPageSize flags))) :
    ∃ vis, virtualToPhysical K top v flags st =
      some (lookupResult v (getPageSize flags)
        ((nodeAt K st.mem top (pathTo v (levelOf (getPageSize flags)))).map fun t =>
          st.mem t (idx v (levelOf (getPageSize flags)))), { st with visited := vis }) ∧
      Tables K top { st with visited := vis } ∧ Grows K top st { st with visited := vis } := by
  obtain ⟨vis, hr, hg⟩ := ht.skeleton.lookup flags hc
  exact ⟨vis, hr, Tables.of_skeleton (ht.skeleton.visit vis) ht.zero, hg⟩

end IceKernel.Paging
