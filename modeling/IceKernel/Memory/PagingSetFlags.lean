import IceKernel.Memory.PagingRange

/-!
# `pagemap_t::set_flags`

It rebuilds the entry from the address field, in which one bit of a large
entry selects its caching mode.
-/

namespace IceKernel.Paging
open Word64 RadixTree

variable {A : Type} {K : Machine A} {top v d : ℕ} {st st' : State A} {w : BitVec 64}
  {flags : BitVec 64} {cache : Caching}

/-! ## The word -/

/-- The bits of an entry that are not part of the frame address. For a large page bit 12 is one of
them. -/
def rightsMask (larger : Bool) : BitVec 64 := ~~~paMask ||| if larger then patlg else 0#64

theorem rebuilt_eq (w flags : BitVec 64) (cache : Caching) (pageSize : ℕ) :
    mappedWord 0#64 (getAddress w) flags cache pageSize =
      (w &&& paMask) ||| realFlags flags cache (pageSize ≠ KiB4) := by
  have haddr : setAddress 0#64 (getAddress w) = w &&& paMask := by
    rw [setAddress, getAddress, BitVec.ofNat_toNat, BitVec.setWidth_eq, BitVec.zero_and,
      BitVec.zero_or]
  apply BitVec.eq_of_getLsbD_eq
  intro i _
  rw [mappedWord, haddr, getLsbD_setFlags, BitVec.getLsbD_or, Bool.or_comm]

theorem getLsbD_patlg {i : ℕ} : patlg.getLsbD i = decide (i = 12) := by
  have h : patlg = BitVec.twoPow 64 12 := rfl
  rw [h, BitVec.getLsbD_twoPow]
  by_cases hi : i = 12 <;> simp [hi]
  omega

/-- The flag bits of the address field. -/
theorem realFlags_in_mask (flags : BitVec 64) (cache : Caching) (larger : Bool) (i : ℕ) :
    ((realFlags flags cache larger).getLsbD i && paMask.getLsbD i) =
      (larger && cache.usesPat && decide (i = 12)) := by
  rw [← BitVec.getLsbD_and, realFlags_and_paMask]
  cases larger && cache.usesPat
  · simp
  · simp [getLsbD_patlg]

theorem realFlags_pat (flags : BitVec 64) (cache : Caching) :
    (realFlags flags cache true).getLsbD 12 = cache.usesPat := by
  have hpat := realFlags_in_mask flags cache true 12
  rwa [show paMask.getLsbD 12 = true from rfl, Bool.and_true, Bool.true_and,
    decide_eq_true rfl, Bool.and_true] at hpat

/-- A large entry keeps its PAT bit, all other flags are the ones asked for. -/
theorem rebuilt_rights_bit (w flags : BitVec 64) (cache : Caching) (larger : Bool) {i : ℕ}
    (hi : i < 64) :
    (((w &&& paMask) ||| realFlags flags cache larger) &&& rightsMask larger).getLsbD i =
      (larger && decide (i = 12) && w.getLsbD i || (realFlags flags cache larger).getLsbD i) := by
  have hpat := realFlags_in_mask flags cache larger i
  have hlarge : (if larger = true then patlg else 0#64).getLsbD i =
      (larger && decide (i = 12)) := by
    cases larger <;> simp [getLsbD_patlg]
  simp only [rightsMask, BitVec.getLsbD_and, BitVec.getLsbD_or, BitVec.getLsbD_not, hi, hlarge]
  by_cases h12 : i = 12
  · have hmask : paMask.getLsbD i = true := by rw [h12]; rfl
    rw [hmask, Bool.and_true] at hpat
    rw [hmask, hpat]
    cases larger <;> simp [h12]
  · rw [decide_eq_false h12, Bool.and_false] at hpat ⊢
    cases hm : paMask.getLsbD i with
    | false => simp
    | true =>
      rw [hm, Bool.and_true] at hpat
      simp [hpat]

/-- The flags afterwards are the ones asked for, unless a PAT bit was left over. -/
theorem rebuilt_rights_iff (w flags : BitVec 64) (cache : Caching) (larger : Bool) :
    ((w &&& paMask) ||| realFlags flags cache larger) &&& rightsMask larger =
        realFlags flags cache larger ↔
      larger = false ∨ (w.getLsbD 12 = true → cache.usesPat = true) := by
  constructor
  · intro h
    cases larger with
    | false => exact Or.inl rfl
    | true =>
      refine Or.inr fun hw => ?_
      have hbit := rebuilt_rights_bit w flags cache true (i := 12) (by norm_num)
      rw [h, realFlags_pat, hw] at hbit
      simpa using hbit
  · intro h
    apply BitVec.eq_of_getLsbD_eq
    intro i hi
    rw [rebuilt_rights_bit w flags cache larger hi]
    rcases h with rfl | h
    · rw [Bool.false_and, Bool.false_and, Bool.false_or]
    by_cases h12 : i = 12
    · cases larger with
      | false => simp
      | true =>
        rw [h12, realFlags_pat]
        cases hw : w.getLsbD 12 with
        | false => simp
        | true => simp [h hw]
    · simp [h12]

/-- The address field stays, unless the new PAT bit changes it. -/
theorem rebuilt_address_iff (w flags : BitVec 64) (cache : Caching) (larger : Bool) :
    getAddress ((w &&& paMask) ||| realFlags flags cache larger) = getAddress w ↔
      larger = false ∨ (cache.usesPat = true → w.getLsbD 12 = true) := by
  have hbit (i : ℕ) : (((w &&& paMask) ||| realFlags flags cache larger) &&& paMask).getLsbD i =
      ((w &&& paMask).getLsbD i || larger && cache.usesPat && decide (i = 12)) := by
    rw [← realFlags_in_mask flags cache larger i]
    simp only [BitVec.getLsbD_and, BitVec.getLsbD_or]
    cases paMask.getLsbD i <;> simp
  rw [getAddress, getAddress, ← BitVec.toNat_eq]
  constructor
  · intro h
    cases larger with
    | false => exact Or.inl rfl
    | true =>
      refine Or.inr fun hpat => ?_
      have h12 := hbit 12
      rw [h, hpat] at h12
      have hset : (w &&& paMask).getLsbD 12 = true := by simpa using h12
      rw [BitVec.getLsbD_and, Bool.and_eq_true] at hset
      exact hset.1
  · intro h
    apply BitVec.eq_of_getLsbD_eq
    intro i _
    rw [hbit i]
    by_cases h12 : i = 12
    · subst h12
      have hmask : paMask.getLsbD 12 = true := rfl
      rw [BitVec.getLsbD_and, hmask, Bool.and_true]
      rcases h with rfl | h
      · simp
      · cases hpat : cache.usesPat with
        | false => simp
        | true => simp [h hpat]
    · simp [h12]

/-- Above bit 20 the address field never changes. -/
theorem rebuilt_address_high (w flags : BitVec 64) (cache : Caching) (larger : Bool) :
    getAddress ((w &&& paMask) ||| realFlags flags cache larger) / MiB2 = getAddress w / MiB2 := by
  have hpow : MiB2 = 2 ^ 21 := rfl
  have hlow : (realFlags flags cache larger &&& paMask).toNat / 2 ^ 21 = 0 := by
    rw [realFlags_and_paMask]
    cases larger && cache.usesPat <;> rfl
  have hsplit : (w &&& paMask ||| realFlags flags cache larger) &&& paMask =
      (w &&& paMask) ||| (realFlags flags cache larger &&& paMask) := by
    rw [BitVec.and_or_distrib_right, BitVec.and_assoc, BitVec.and_self]
  rw [getAddress, getAddress, hpow, hsplit, BitVec.toNat_or, ← Nat.shiftRight_eq_div_pow,
    Nat.shiftRight_or_distrib, Nat.shiftRight_eq_div_pow, Nat.shiftRight_eq_div_pow, hlow,
    Nat.or_zero]

/-! ## A leaf in place of a leaf -/

section Replace

variable {t : ℕ} {w' : BitVec 64}

theorem Skeleton.replace_node (hs : Skeleton K top st)
    (hn : nodeAt K st.mem top (pathTo v d) = some t)
    (hleaf : leafFor K st.mem top v d = some w)
    (hdec : decode K.hhdm.offset d w' = .leaf w') (p : List ℕ) :
    nodeAt K (write st.mem t (idx v d) w') top p = nodeAt K st.mem top p := by
  have hslot : (slotOf K st.mem top (pathTo v d) (idx v d)).child? = none := by
    revert hleaf
    rw [leafFor, leafOf]
    cases slotOf K st.mem top (pathTo v d) (idx v d) <;> simp [Slot.leaf?, Slot.child?]
  refine descend_write_leaf hs.unshared hn hslot ?_ p
  rw [length_pathTo, hdec]
  rfl

/-- Only the leaf itself changes. -/
theorem Skeleton.replace_leaf (hs : Skeleton K top st)
    (hn : nodeAt K st.mem top (pathTo v d) = some t)
    (hleaf : leafFor K st.mem top v d = some w)
    (hdec : decode K.hhdm.offset d w' = .leaf w') (a e : ℕ) :
    leafFor K (write st.mem t (idx v d) w') top a e =
      if pathTo a (e + 1) = pathTo v (d + 1) then some w' else leafFor K st.mem top a e := by
  have hnode := hs.replace_node hn hleaf hdec (pathTo a e)
  by_cases hpath : pathTo a (e + 1) = pathTo v (d + 1)
  · obtain ⟨hidx, htail⟩ := List.cons.inj hpath
    rw [if_pos hpath, leafFor, leafOf, hidx, htail, slotOf, slotAt_write_self hs.unshared hn,
      length_pathTo, hdec]
    rfl
  · rw [if_neg hpath]
    simp only [nodeAt] at hnode
    rw [leafFor, leafOf, leafFor, leafOf, slotOf, slotOf, slotAt, slotAt, hnode]
    cases hs' : descend (decode K.hhdm.offset) st.mem top (pathTo a e) with
    | none => rfl
    | some s =>
      have hne : ¬ (s = t ∧ idx a e = idx v d) := by
        rintro ⟨rfl, hidx⟩
        have htail := hs.unshared _ _ _ hs' hn
        exact hpath (by rw [pathTo, pathTo, hidx, htail])
      simp only [write_of_ne hne]

end Replace

/-- `set_flags` at a leaf stores the rebuilt word in its place, and allocates nothing. -/
theorem Skeleton.setFlagsAt_leaf (hs : Skeleton K top st) (cache : Caching)
    (hleaf : leafFor K st.mem top v (levelOf (getPageSize flags)) = some w) :
    ∃ t vis, nodeAt K st.mem top (pathTo v (levelOf (getPageSize flags))) = some t ∧
      st.mem t (idx v (levelOf (getPageSize flags))) = w ∧
      setFlagsAt K top v flags cache st = some (true, { st with
        mem := write st.mem t (idx v (levelOf (getPageSize flags)))
          (mappedWord 0#64 (getAddress w) flags cache (getPageSize flags))
        visited := vis }) := by
  obtain ⟨t, hn, hword, -⟩ := leafFor_eq_some hleaf
  obtain ⟨vis, hw⟩ := hs.entry_node hn true
  refine ⟨t, vis, hn, hword, ?_⟩
  rw [setFlagsAt, hw, Option.map_some, ← hword]
  rfl

/-- Without a leaf for `v` there is one afterwards. -/
theorem Skeleton.setFlagsAt_maps (hs : Skeleton K top st)
    (hc : ClearAbove K st.mem top v (levelOf (getPageSize flags))) {ok : Bool}
    (he : setFlagsAt K top v flags cache st = some (ok, st')) :
    hwTranslate K st'.mem top v ≠ none := by
  obtain ⟨⟨e, st1⟩, hw, heq⟩ := Option.map_eq_some_iff.mp he
  obtain ⟨hs1, -, ⟨t, rfl, hn⟩ | ⟨-, hal, -⟩⟩ := hs.entry hc hw
  · simp only [Prod.mk.injEq] at heq
    obtain ⟨-, rfl⟩ := heq
    have hself := slotAt_write_self (i := idx v (levelOf (getPageSize flags)))
      (w := mappedWord 0#64 (getAddress (st1.mem t (idx v (levelOf (getPageSize flags))))) flags
        cache (getPageSize flags)) hs1.unshared hn
    rw [length_pathTo, decode_mappedWord _ _ _ _ (levelOf_getPageSize flags)] at hself
    have hleaf := congrArg Slot.leaf? hself
    have hmapped := hwTranslate_of_leaf hleaf (levelOf_bounds _).2
    intro hnone
    exact absurd (hmapped.symm.trans hnone) (by simp)
  · exact absurd hal (by simp)

/-! ## What `set_flags` is for -/

/-- No translation changes, and where `v` was mapped its flags are those asked for. -/
structure SetsRights (K : Machine A) (top v : ℕ) (flags : BitVec 64) (cache : Caching)
    (st st' : State A) : Prop where
  translation : ∀ a, hwTranslate K st'.mem top a = hwTranslate K st.mem top a
  rights : hwTranslate K st.mem top v ≠ none → ∃ w,
    leafFor K st'.mem top v (levelOf (getPageSize flags)) = some w ∧
      w &&& rightsMask (isLpage flags) =
        flagsToArch flags ||| cacheToFlags cache (isLpage flags)

/-- Lookups that meet no large page above their own level read what they read before. -/
def KeepsLookups (K : Machine A) (top : ℕ) (st st' : State A) : Prop :=
  ∀ a f, ClearAbove K st.mem top a (levelOf (getPageSize f)) →
    lookup K top a f st' = lookup K top a f st

theorem larger_eq (flags : BitVec 64) : decide (getPageSize flags ≠ KiB4) = isLpage flags := by
  cases hl : isLpage flags with
  | false => rw [getPageSize_plain hl]; rfl
  | true => exact decide_eq_true (getPageSize_large hl)

/-- The word `set_flags` stores. -/
def rebuiltWord (w flags : BitVec 64) (cache : Caching) : BitVec 64 :=
  (w &&& paMask) ||| realFlags flags cache (isLpage flags)

theorem mappedWord_rebuilt (w flags : BitVec 64) (cache : Caching) :
    mappedWord 0#64 (getAddress w) flags cache (getPageSize flags) = rebuiltWord w flags cache := by
  rw [rebuilt_eq, larger_eq, rebuiltWord]

theorem decode_rebuiltWord (off : ℕ) (w flags : BitVec 64) (cache : Caching) :
    decode off (levelOf (getPageSize flags)) (rebuiltWord w flags cache) =
      .leaf (rebuiltWord w flags cache) := by
  rw [← mappedWord_rebuilt]
  exact decode_mappedWord _ _ _ _ (levelOf_getPageSize flags)

/-- The hardware sees the same frame. -/
theorem target_rebuilt (a : ℕ) (w flags : BitVec 64) (cache : Caching) :
    target a (levelOf (getPageSize flags)) (rebuiltWord w flags cache) =
      target a (levelOf (getPageSize flags)) w := by
  have haddr : getAddress (rebuiltWord w flags cache) / sizeAt (levelOf (getPageSize flags)) =
      getAddress w / sizeAt (levelOf (getPageSize flags)) := by
    rw [rebuiltWord]
    cases hl : isLpage flags with
    | false => rw [(rebuilt_address_iff w flags cache false).mpr (Or.inl rfl)]
    | true =>
      have hhigh := rebuilt_address_high w flags cache true
      rw [sizeAt_levelOf (getPageSize_cases flags)]
      rcases getPageSize_cases flags with hsize | hsize | hsize
      · exact absurd hsize (getPageSize_large hl)
      · rw [hsize, hhigh]
      · have hmul : GiB1 = MiB2 * 512 := rfl
        rw [hsize, hmul, ← Nat.div_div_eq_div_mul, hhigh, Nat.div_div_eq_div_mul]
  rw [target, haddr, target]

theorem Skeleton.rebuilt_tree (hs : Skeleton K top st) {t : ℕ}
    (hn : nodeAt K st.mem top (pathTo v (levelOf (getPageSize flags))) = some t)
    (w : BitVec 64) (cache : Caching) (vis : List ℕ) :
    Skeleton K top { st with
      mem := write st.mem t (idx v (levelOf (getPageSize flags))) (rebuiltWord w flags cache)
      visited := vis } := by
  have hdec := decode_rebuiltWord K.hhdm.offset w flags cache
  refine (hs.put hn ?_ ?_ fun _ => Or.inl ?_).visit vis
  · rw [length_pathTo]
    exact (levelOf_bounds _).1
  · rw [length_pathTo, hdec]
    rfl
  · rw [← mappedWord_rebuilt]
    exact mappedWord_present _ _ _ _ _

section Leaf

variable {t : ℕ} {vis : List ℕ} (hs : Skeleton K top st)
  (hn : nodeAt K st.mem top (pathTo v (levelOf (getPageSize flags))) = some t)
  (hleaf : leafFor K st.mem top v (levelOf (getPageSize flags)) = some w)

include hs hn hleaf

theorem Skeleton.rebuilt_translation (a : ℕ) :
    hwTranslate K (write st.mem t (idx v (levelOf (getPageSize flags)))
      (rebuiltWord w flags cache)) top a = hwTranslate K st.mem top a := by
  have hreplace := hs.replace_leaf hn hleaf (decode_rebuiltWord _ w flags cache) a
  have hbound := (levelOf_bounds (getPageSize flags)).2
  by_cases hpath : pathTo a (levelOf (getPageSize flags) + 1) =
      pathTo v (levelOf (getPageSize flags) + 1)
  · -- `a` lies in the page of `v`
    obtain ⟨hidx, htail⟩ := List.cons.inj hpath
    have hold : leafFor K st.mem top a (levelOf (getPageSize flags)) = some w := by
      rw [leafFor, leafOf, hidx, htail]
      exact hleaf
    have hnew := hreplace (levelOf (getPageSize flags))
    rw [if_pos hpath] at hnew
    rw [hwTranslate_of_leaf hnew hbound, hwTranslate_of_leaf hold hbound, target_rebuilt]
  · refine hwTranslate_congr fun e _ => ?_
    rw [hreplace e, if_neg]
    intro heq
    have hlen := congrArg List.length heq
    rw [length_pathTo, length_pathTo] at hlen
    exact hpath (by rwa [Nat.succ.inj hlen] at heq)

/-- A lookup of another entry. -/
theorem Skeleton.rebuilt_lookup {a : ℕ} {f : BitVec 64}
    (hc : ClearAbove K st.mem top a (levelOf (getPageSize f)))
    (hpath : pathTo a (levelOf (getPageSize f) + 1) ≠
      pathTo v (levelOf (getPageSize flags) + 1)) :
    Paging.lookup K top a f { st with
      mem := write st.mem t (idx v (levelOf (getPageSize flags))) (rebuiltWord w flags cache)
      visited := vis } = Paging.lookup K top a f st := by
  have hdec := decode_rebuiltWord K.hhdm.offset w flags cache
  have hnode := hs.replace_node hn hleaf hdec (pathTo a (levelOf (getPageSize f)))
  have hs' := hs.rebuilt_tree hn w cache vis
  obtain ⟨vis1, h1, -⟩ := hs.lookup f hc
  obtain ⟨vis2, h2, -⟩ := hs'.lookup f (v := a) fun e he => by
    refine Eq.trans (hs.replace_leaf hn hleaf hdec a e) ?_
    rw [if_neg]
    · exact hc e he
    · intro heq
      -- the leaf would be above the entry that is looked up
      have hlen := congrArg List.length heq
      rw [length_pathTo, length_pathTo] at hlen
      obtain rfl := Nat.succ.inj hlen
      obtain ⟨hidx, htail⟩ := List.cons.inj heq
      have hnone := hc _ he
      rw [hidx, htail] at hnone
      exact absurd (hleaf.symm.trans hnone) (by simp)
  rw [Paging.lookup, Paging.lookup, h1, h2, Option.map_some, Option.map_some]
  simp only at hnode ⊢
  rw [hnode]
  cases hs0 : nodeAt K st.mem top (pathTo a (levelOf (getPageSize f))) with
  | none => rfl
  | some s =>
    have hne : ¬ (s = t ∧ idx a (levelOf (getPageSize f)) =
        idx v (levelOf (getPageSize flags))) := by
      rintro ⟨rfl, hidx⟩
      have htail := hs.unshared _ _ _ hs0 hn
      exact hpath (by rw [pathTo, pathTo, hidx, htail])
    rw [Option.map_some, Option.map_some, write_of_ne hne]

end Leaf

/-- A lookup at a leaf. -/
theorem Skeleton.lookup_leaf (hs : Skeleton K top st) {a : ℕ} {f : BitVec 64}
    (hleaf : leafFor K st.mem top a (levelOf (getPageSize f)) = some w) :
    Paging.lookup K top a f st = some (getAddress w + a % getPageSize f) := by
  obtain ⟨t, hn, hword, h0⟩ := leafFor_eq_some hleaf
  obtain ⟨vis, h1, -⟩ := hs.lookup f (v := a) fun e he => leafFor_above hleaf he
  rw [Paging.lookup, h1, Option.map_some, hn, Option.map_some, hword, lookupResult, if_pos h0]

/-- At a leaf nothing but the PAT bit can go wrong. -/
theorem Skeleton.setFlagsAt_iff (hs : Skeleton K top st)
    (hleaf : leafFor K st.mem top v (levelOf (getPageSize flags)) = some w) {ok : Bool}
    (he : setFlagsAt K top v flags cache st = some (ok, st')) :
    (SetsRights K top v flags cache st st' ↔
      isLpage flags = false ∨ (w.getLsbD 12 = true → cache.usesPat = true)) ∧
    (KeepsLookups K top st st' ↔
      isLpage flags = false ∨ (cache.usesPat = true → w.getLsbD 12 = true)) := by
  obtain ⟨t, vis, hn, -, hret⟩ := hs.setFlagsAt_leaf cache hleaf
  rw [hret, Option.some.injEq, Prod.mk.injEq, mappedWord_rebuilt] at he
  obtain ⟨-, rfl⟩ := he
  have hdec := decode_rebuiltWord K.hhdm.offset w flags cache
  have hself := hs.replace_leaf hn hleaf hdec v (levelOf (getPageSize flags))
  rw [if_pos rfl] at hself
  have hs' := hs.rebuilt_tree hn w cache vis
  have hrights : rebuiltWord w flags cache &&& rightsMask (isLpage flags) =
      flagsToArch flags ||| cacheToFlags cache (isLpage flags) ↔
        isLpage flags = false ∨ (w.getLsbD 12 = true → cache.usesPat = true) :=
    rebuilt_rights_iff w flags cache (isLpage flags)
  have hmapped := hwTranslate_of_leaf hleaf (levelOf_bounds _).2
  constructor
  · constructor
    · intro h
      obtain ⟨w', hw', hbits⟩ := h.rights (by rw [hmapped]; simp)
      obtain rfl := Option.some.inj (hself.symm.trans hw')
      exact hrights.mp hbits
    · intro h
      exact ⟨fun a => hs.rebuilt_translation hn hleaf a,
        fun _ => ⟨_, hself, hrights.mpr h⟩⟩
  · have haddr := rebuilt_address_iff w flags cache (isLpage flags)
    constructor
    · intro h
      have hv := h v flags fun e he => leafFor_above hleaf he
      rw [hs'.lookup_leaf hself, hs.lookup_leaf hleaf, Option.some.injEq] at hv
      exact haddr.mp (Nat.add_right_cancel hv)
    · intro h a f hc
      by_cases hpath : pathTo a (levelOf (getPageSize f) + 1) =
          pathTo v (levelOf (getPageSize flags) + 1)
      · -- the lookup reads the entry of `v`
        have hlen := congrArg List.length hpath
        rw [length_pathTo, length_pathTo] at hlen
        have hlevel := Nat.succ.inj hlen
        obtain ⟨hidx, htail⟩ := List.cons.inj hpath
        have hold : leafFor K st.mem top a (levelOf (getPageSize f)) = some w := by
          rw [leafFor, leafOf, hidx, htail]
          exact hleaf
        have hnew := hs.replace_leaf hn hleaf hdec a (levelOf (getPageSize f))
        rw [if_pos hpath] at hnew
        rw [hs'.lookup_leaf hnew, hs.lookup_leaf hold]
        exact congrArg (fun x => some (x + _)) (haddr.mpr h)
      · exact hs.rebuilt_lookup hn hleaf hc hpath

/-- `set_flags` changes the rights only when the address is mapped and no bit 12 of a large entry is
left over: for the hardware, none that the new caching mode does not use; for the lookups of the
kernel as well, the bit has to be the same before and after. At an address that is not mapped it
makes a mapping. -/
theorem set_flags_rights_iff (K : Machine A) (hs : Skeleton K top st)
    (hdom : hwTranslate K st.mem top v = none ∨
      ∃ w, leafFor K st.mem top v (levelOf (getPageSize flags)) = some w) {ok : Bool}
    (he : setFlagsAt K top v flags cache st = some (ok, st')) :
    (SetsRights K top v flags cache st st' ↔
      ∃ w, leafFor K st.mem top v (levelOf (getPageSize flags)) = some w ∧
        (isLpage flags = false ∨ (w.getLsbD 12 = true → cache.usesPat = true))) ∧
    (SetsRights K top v flags cache st st' ∧ KeepsLookups K top st st' ↔
      ∃ w, leafFor K st.mem top v (levelOf (getPageSize flags)) = some w ∧
        (isLpage flags = false ∨ w.getLsbD 12 = cache.usesPat)) := by
  rcases hdom with hnone | ⟨w, hleaf⟩
  · have hleaf := hwTranslate_eq_none.mp hnone _ (levelOf_bounds (getPageSize flags)).2
    have hclear : ClearAbove K st.mem top v (levelOf (getPageSize flags)) := fun d hd =>
      hwTranslate_eq_none.mp hnone d (by have := (levelOf_bounds (getPageSize flags)).2; omega)
    have hbad : ¬ SetsRights K top v flags cache st st' := fun h =>
      hs.setFlagsAt_maps hclear he ((h.translation v).trans hnone)
    rw [hleaf]
    simp [hbad]
  · obtain ⟨hrights, hlooks⟩ := hs.setFlagsAt_iff hleaf he
    simp only [hleaf, Option.some.injEq, exists_eq_left', hrights, hlooks, true_and]
    cases isLpage flags <;> cases w.getLsbD 12 <;> cases cache.usesPat <;> simp

theorem set_flags_rights_iff_small :
    ∃ top st₀ st st', construct (orderedMachine false) none (start (fun _ _ => 0#64) 1) =
        some (top, st₀) ∧
      map (orderedMachine false) top 0x200000 0x600000 LPAGE .uncachable st₀ = some (true, st) ∧
      setFlagsAt (orderedMachine false) top 0x200000 (LPAGE ||| WRITE) .writeCombining st =
        some (true, st') ∧
      (SetsRights (orderedMachine false) top 0x200000 (LPAGE ||| WRITE) .writeCombining st st' ↔
        ∃ w, leafFor (orderedMachine false) st.mem top 0x200000 2 = some w ∧
          (isLpage (LPAGE ||| WRITE) = false ∨
            (w.getLsbD 12 = true → Caching.writeCombining.usesPat = true))) := by
  have hrun : ((construct (orderedMachine false) none (start (fun _ _ => 0#64) 1)).bind
      fun new => (map (orderedMachine false) new.1 0x200000 0x600000 LPAGE .uncachable new.2).bind
        fun mapped => (setFlagsAt (orderedMachine false) new.1 0x200000 (LPAGE ||| WRITE)
          .writeCombining mapped.2).map fun set => (mapped.1, set.1,
            (leafFor (orderedMachine false) mapped.2.mem new.1 0x200000 2).isSome)) =
        some (true, true, true) := by
    decide +kernel
  obtain ⟨⟨top, st₀⟩, h0, h1⟩ := Option.bind_eq_some_iff.mp hrun
  obtain ⟨⟨ok, st⟩, hm, h2⟩ := Option.bind_eq_some_iff.mp h1
  obtain ⟨⟨ok', st'⟩, hset, h3⟩ := Option.map_eq_some_iff.mp h2
  simp only [Prod.mk.injEq] at h3
  obtain ⟨rfl, rfl, hleaf⟩ := h3
  obtain ⟨ht, hnone⟩ := construct_spec h0
  have hclear : ClearAbove (orderedMachine false) st₀.mem top 0x200000 (levelOf MiB2) :=
    fun d _ => hnone _ d
  have hst := (mapOne_spec ht (by decide) (Or.inr (by decide)) hclear hm).2.1
  exact ⟨top, st₀, st, st', h0, hm, hset, (set_flags_rights_iff (orderedMachine false) hst.skeleton
    (Or.inr (Option.isSome_iff_exists.mp hleaf)) hset).1⟩

/-- `set_flags` of an address that is not mapped maps it to frame 0. -/
theorem set_flags_maps_unmapped :
    ∃ top st st', construct (orderedMachine false) none (start (fun _ _ => 0#64) 1) =
        some (top, st) ∧
      hwTranslate (orderedMachine false) st.mem top 0x400123 = none ∧
      setFlagsAt (orderedMachine false) top 0x400000 RW .writeBack st = some (true, st') ∧
      hwTranslate (orderedMachine false) st'.mem top 0x400123 = some 0x123 ∧
      ¬ SetsRights (orderedMachine false) top 0x400000 RW .writeBack st st' := by
  have hrun : ((construct (orderedMachine false) none (start (fun _ _ => 0#64) 1)).bind
      fun new => (setFlagsAt (orderedMachine false) new.1 0x400000 RW .writeBack new.2).map
        fun set => (set.1, hwTranslate (orderedMachine false) new.2.mem new.1 0x400123,
          hwTranslate (orderedMachine false) set.2.mem new.1 0x400123)) =
        some (true, none, some 0x123) := by
    decide +kernel
  obtain ⟨⟨top, st⟩, h0, h1⟩ := Option.bind_eq_some_iff.mp hrun
  obtain ⟨⟨ok, st'⟩, hset, h2⟩ := Option.map_eq_some_iff.mp h1
  simp only [Prod.mk.injEq] at h2
  obtain ⟨rfl, hbefore, hafter⟩ := h2
  refine ⟨top, st, st', h0, hbefore, hset, hafter, fun h => ?_⟩
  have hsame := h.translation 0x400123
  rw [hbefore, hafter] at hsame
  simp at hsame

end IceKernel.Paging
