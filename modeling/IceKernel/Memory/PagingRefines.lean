import IceKernel.Lib.Run
import IceKernel.Memory.PagingOps
import IceKernel.Memory.PhysicalRuns

/-!
# 4 KiB paging refines a finite map

Runs of `map` and `unmap` without large pages, on a pagemap constructed while
`kernel_pagemap` is `nullptr`, against a map from page numbers to frames.
-/

namespace IceKernel.Paging
open Word64 RadixTree

variable {A : Type} {K : Machine A} {top : ℕ} {st st' : State A} {v : ℕ}

/-! ## The constructor -/

/-- Memory before the pagemap exists. -/
def start (mem : Mem) (heap : A) : State A := ⟨mem, heap, [], []⟩

/-- A top-level entry is never a leaf. -/
theorem leaf_top (K : Machine A) (mem : Mem) (top i : ℕ) :
    (slotOf K mem top [] i).leaf? = none := by
  have h : slotOf K mem top [] i = decode K.hhdm.offset 0 (mem top i) := rfl
  rw [h, decode]
  split_ifs <;> first | rfl | omega

/-- One empty table is a tree. -/
theorem newTable_spec {mem : Mem} {heap : A}
    (he : newTable K (start mem heap) = some (top, st)) :
    Tables K top st ∧ ∀ p i, slotOf K st.mem top p i = .empty := by
  obtain ⟨⟨q, heap'⟩, hal, heq⟩ := Option.map_eq_some_iff.mp he
  simp only [Prod.mk.injEq] at heq
  obtain ⟨rfl, rfl⟩ := heq
  have hempty (i : ℕ) : slotOf K (Function.update mem q fun _ => 0#64) q [] i = .empty := by
    rw [slotOf, slotAt_of_descend rfl, Function.update_self, decode_zero]
  have hnode (i : ℕ) (p : List ℕ) :
      nodeAt K (Function.update mem q fun _ => 0#64) q (i :: p) = none := by
    induction p generalizing i with
    | nil =>
      rw [nodeAt, descend_cons]
      exact congrArg Slot.child? (hempty i)
    | cons j p ih =>
      rw [nodeAt, descend]
      exact congrArg (Option.bind · _) (ih j)
  -- the new table is the whole tree
  have honly (p : List ℕ) (t : ℕ)
      (h : nodeAt K (Function.update mem q fun _ => 0#64) q p = some t) : p = [] ∧ t = q := by
    cases p with
    | nil => exact ⟨rfl, (Option.some.inj h).symm⟩
    | cons i p =>
      rw [hnode] at h
      simp at h
  refine ⟨⟨fun p r t h1 h2 => ?_, fun p t h => ?_, ?_, ?_, ?_, ?_⟩, fun p i => ?_⟩
  · rw [(honly p t h1).1, (honly r t h2).1]
  · rw [(honly p t h).2]
    exact List.mem_cons_self
  · intro t ht
    obtain rfl := List.mem_singleton.mp ht
    exact (K.source.alloc_owned hal t).mpr (Or.inl rfl)
  · intro t ht
    obtain rfl := List.mem_singleton.mp ht
    exact K.source.alloc_addr hal
  · intro t ht i
    obtain rfl := List.mem_singleton.mp ht
    dsimp only
    rw [Function.update_self]
    exact Or.inr rfl
  · intro i
    dsimp only
    rw [Function.update_self]
    rfl
  · cases p with
    | nil => exact hempty i
    | cons j p =>
      change slotAt _ (Function.update mem q fun _ => 0#64) q (j :: p) i = .empty
      rw [slotAt, show descend _ _ q (j :: p) = none from hnode j p]

theorem fillUpperHalf_spec (ht : Tables K top st) {n i : ℕ}
    (he : fillUpperHalf K top n i st = some st') : Tables K top st' ∧ Grows K top st st' := by
  induction n generalizing i st with
  | zero =>
    obtain rfl : st = st' := by simpa [fillUpperHalf] using he
    exact ⟨ht, Grows.refl K top st⟩
  | succ n ih =>
    obtain ⟨⟨r, st1⟩, h1, h2⟩ := Option.bind_eq_some_iff.mp he
    obtain ⟨ht1, hg1, -⟩ := ht.next (p := []) rfl (by norm_num) (leaf_top K st.mem top i) h1
    obtain ⟨ht2, hg2⟩ := ih ht1 h2
    exact ⟨ht2, hg1.trans hg2⟩

/-- The constructor builds a tree of tables without leaves. -/
theorem construct_spec {mem : Mem} {heap : A}
    (he : construct K none (start mem heap) = some (top, st)) :
    Tables K top st ∧ ∀ a d, leafFor K st.mem top a d = none := by
  obtain ⟨⟨q, st1⟩, h1, h2⟩ := Option.bind_eq_some_iff.mp he
  obtain ⟨st2, h3, heq⟩ := Option.map_eq_some_iff.mp h2
  simp only [Prod.mk.injEq] at heq
  obtain ⟨rfl, rfl⟩ := heq
  obtain ⟨ht1, hempty⟩ := newTable_spec h1
  obtain ⟨ht2, hg⟩ := fillUpperHalf_spec ht1 h3
  refine ⟨ht2, fun a d => ?_⟩
  rw [leafFor, leafOf, hg.leaves, hempty]
  rfl

/-! ## The abstract map -/

inductive Call where
  | map (v pa : ℕ) (flags : BitVec 64) (cache : Caching)
  | unmap (v : ℕ) (flags : BitVec 64)

def Call.address : Call → ℕ
  | .map v _ _ _ => v
  | .unmap v _ => v

/-- Page numbers to frames. -/
abbrev PageMap := ℕ → Option ℕ

/-- What a call means. -/
def PageMap.apply (M : PageMap) : Call → PageMap
  | .map v pa _ _ => Function.update M (v / KiB4) (some pa)
  | .unmap v _ => Function.update M (v / KiB4) none

theorem PageMap.apply_of_ne (M : PageMap) {c : Call} {page : ℕ} (h : page ≠ c.address / KiB4) :
    M.apply c page = M page := by
  cases c <;> exact Function.update_of_ne h _ _

/-- What a lookup of `a` in the map gives. -/
def PageMap.translate (M : PageMap) (a : ℕ) : ℕ :=
  match M (a / KiB4) with
  | some frame => frame + a % KiB4
  | none => invalidAddr

/-- The calls considered: no large pages, aligned canonical addresses, frames below `2^52`. -/
def Call.Plain : Call → Prop
  | .map v pa flags _ =>
    isLpage flags = false ∧ Canonical v ∧ v % KiB4 = 0 ∧ pa % KiB4 = 0 ∧ pa < 2 ^ 52
  | .unmap v flags => isLpage flags = false ∧ Canonical v ∧ v % KiB4 = 0

instance : ∀ c : Call, Decidable c.Plain
  | .map .. => inferInstanceAs (Decidable (_ ∧ _ ∧ _ ∧ _ ∧ _))
  | .unmap .. => inferInstanceAs (Decidable (_ ∧ _ ∧ _))

/-- One call on the pagemap with this top level. -/
def step (K : Machine A) (top : ℕ) (st : State A) (c : Call) : Option (State A) :=
  if c.Plain then
    match c with
    | .map v pa flags cache => (map K top v pa flags cache st).map Prod.snd
    | .unmap v flags => (unmap K top v flags st).map Prod.snd
  else none

/-- The page tables hold exactly the mappings of `M`, all of them small. -/
structure Refines (K : Machine A) (top : ℕ) (st : State A) (M : PageMap) : Prop where
  tables : Tables K top st
  small : ∀ a, Canonical a → ∀ d < 3, leafFor K st.mem top a d = none
  agrees : ∀ a, Canonical a → (leafFor K st.mem top a 3).map getAddress = M (a / KiB4)

theorem getPageSize_plain {flags : BitVec 64} (h : isLpage flags = false) :
    getPageSize flags = KiB4 := by
  simp only [isLpage, Bool.or_eq_false_iff] at h
  simp [getPageSize, h.1, h.2]

/-- A small leaf put in place is an update of the map. -/
theorem Refines.put {M : PageMap} (h : Refines K top st M) {w : Option (BitVec 64)}
    (ht : Tables K top st') (hp : Put K top st st' v 3 w) :
    Refines K top st' (Function.update M (v / KiB4) (w.map getAddress)) where
  tables := ht
  small a ha d hd := by
    rw [hp.leaf a d ha, if_neg (by omega)]
    exact h.small a ha d hd
  agrees a ha := by
    have hsize : sizeAt 3 = KiB4 := rfl
    rw [hp.leaf a 3 ha, hsize]
    by_cases hav : a / KiB4 = v / KiB4
    · rw [if_pos ⟨hav, Nat.le_refl 3⟩, if_pos rfl, hav, Function.update_self]
    · rw [if_neg (fun hc => hav hc.1), Function.update_of_ne hav]
      exact h.agrees a ha

theorem map_plain {flags : BitVec 64} (h : isLpage flags = false) (pa : ℕ) (cache : Caching) :
    map K top v pa flags cache st = mapOne K top v pa flags cache KiB4 st := by
  have hne : ¬ KiB4 = GiB1 := by decide
  simp only [map, getPageSize_plain h, hne, false_and, if_false]

theorem unmap_plain {flags : BitVec 64} (h : isLpage flags = false) :
    unmap K top v flags st = unmapOne K top v st := by
  have hne : ¬ KiB4 = GiB1 := by decide
  simp only [unmap, getPageSize_plain h, hne, false_and, if_false]

theorem getAddress_mappedWord_small (old : BitVec 64) {pa : ℕ} (hpa : pa % KiB4 = 0)
    (hlt : pa < 2 ^ 52) (flags : BitVec 64) (cache : Caching) :
    getAddress (mappedWord old pa flags cache KiB4) = pa := by
  apply getAddress_mapped old hpa hlt
  rw [realFlags_and_paMask]
  rfl

theorem Refines.map {M : PageMap} (h : Refines K top st M) {pa : ℕ} {flags : BitVec 64}
    {cache : Caching} (hf : isLpage flags = false) (hv : Canonical v) (hpa : pa % KiB4 = 0)
    (hlt : pa < 2 ^ 52) {ok : Bool} (he : Paging.map K top v pa flags cache st = some (ok, st')) :
    ok = true ∧ Refines K top st' (Function.update M (v / KiB4) (some pa)) := by
  rw [map_plain hf] at he
  have hclear : ClearAbove K st.mem top v (levelOf KiB4) := h.small v hv
  obtain ⟨hok, ht, old, hp⟩ := mapOne_spec h.tables hv (Or.inl rfl) hclear he
  have hr := h.put ht hp
  rw [Option.map_some, getAddress_mappedWord_small old hpa hlt] at hr
  exact ⟨hok, hr⟩

theorem Refines.unmap {M : PageMap} (h : Refines K top st M) {flags : BitVec 64}
    (hf : isLpage flags = false) (hv : Canonical v) {ok : Bool}
    (he : Paging.unmap K top v flags st = some (ok, st')) :
    Refines K top st' (Function.update M (v / KiB4) none) := by
  rw [unmap_plain hf] at he
  obtain ⟨ht, hp, -⟩ := unmapOne_spec h.tables hv (h.small v hv) he
  exact h.put ht hp

theorem Refines.step {M : PageMap} (h : Refines K top st M) {c : Call}
    (he : step K top st c = some st') : Refines K top st' (M.apply c) := by
  unfold Paging.step at he
  split_ifs at he with hc
  cases c with
  | map v pa flags cache =>
    obtain ⟨⟨ok, st1⟩, hm, rfl⟩ := Option.map_eq_some_iff.mp he
    obtain ⟨hf, hv, -, hpa, hlt⟩ := hc
    exact (h.map hf hv hpa hlt hm).2
  | unmap v flags =>
    obtain ⟨⟨ok, st1⟩, hm, rfl⟩ := Option.map_eq_some_iff.mp he
    obtain ⟨hf, hv, -⟩ := hc
    exact h.unmap hf hv hm

/-- The address a lookup of `a` gives when its page has this frame, or none. -/
def frameAddress (a : ℕ) : Option ℕ → ℕ
  | some frame => frame + a % KiB4
  | none => invalidAddr

theorem PageMap.translate_eq (M : PageMap) (a : ℕ) :
    M.translate a = frameAddress a (M (a / KiB4)) := by
  rw [PageMap.translate]
  cases M (a / KiB4) <;> rfl

/-- A lookup without large-page flags reads the small leaf. -/
theorem Skeleton.lookup_small (hs : Skeleton K top st) {a : ℕ} {flags : BitVec 64}
    (hf : isLpage flags = false) (hc : ClearAbove K st.mem top a 3) :
    ∃ vis, virtualToPhysical K top a flags st =
      some (frameAddress a ((leafFor K st.mem top a 3).map getAddress),
        { st with visited := vis }) := by
  have hsize := getPageSize_plain hf
  obtain ⟨vis, hr, -⟩ := hs.lookup flags (v := a) (by
    rw [hsize]
    exact hc)
  refine ⟨vis, ?_⟩
  have hlevel : levelOf KiB4 = 3 := rfl
  rw [hr, hsize, hlevel]
  cases hn : nodeAt K st.mem top (pathTo a 3) with
  | none =>
    rw [leafFor_of_no_node hn (Nat.le_refl 3)]
    rfl
  | some t =>
    have hslot := slot_step hn
    rw [leafFor, leafOf, hslot]
    simp only [Option.map_some, lookupResult]
    cases h0 : (st.mem t (idx a 3)).getLsbD 0 with
    | false => simp [decode_absent h0, Slot.leaf?, frameAddress]
    | true =>
      simp [decode_leaf h0 (by norm_num) (Or.inl (Nat.le_refl 3)), Slot.leaf?, frameAddress]

/-- A lookup without large-page flags reads the map. -/
theorem Refines.lookup {M : PageMap} (h : Refines K top st M) {a : ℕ} (ha : Canonical a)
    {flags : BitVec 64} (hf : isLpage flags = false) :
    ∃ st', virtualToPhysical K top a flags st = some (M.translate a, st') := by
  obtain ⟨vis, hr⟩ := h.tables.skeleton.lookup_small hf (h.small a ha)
  rw [hr, h.agrees a ha, ← PageMap.translate_eq]
  exact ⟨_, rfl⟩

/-! ## A machine that hands out tables in order -/

def orderedSource : TableSource Physical.smallHhdm ℕ where
  alloc n := if n < 0x1000 then some (Physical.smallHhdm.offset + n * KiB4, n + 1) else none
  owned n x := ∃ k < n, x = Physical.smallHhdm.offset + k * KiB4
  alloc_addr {s q s'} he := by
    split_ifs at he with hs
    simp only [Option.some.injEq, Prod.mk.injEq] at he
    refine ⟨s * KiB4, he.1.symm, Nat.mul_mod_left _ _, ?_, ?_⟩
    · unfold KiB4 Physical.smallHhdm
      dsimp only
      omega
    · unfold KiB4
      omega
  alloc_fresh {s q s'} he := by
    split_ifs at he with hs
    simp only [Option.some.injEq, Prod.mk.injEq] at he
    rintro ⟨k, hk, rfl⟩
    unfold KiB4 at he
    omega
  alloc_owned {s q s'} he x := by
    split_ifs at he with hs
    simp only [Option.some.injEq, Prod.mk.injEq] at he
    obtain ⟨rfl, rfl⟩ := he
    constructor
    · rintro ⟨k, hk, rfl⟩
      by_cases hks : k = s
      · exact Or.inl (by rw [hks])
      · exact Or.inr ⟨k, by omega, rfl⟩
    · rintro (rfl | ⟨k, hk, rfl⟩)
      · exact ⟨s, by omega, rfl⟩
      · exact ⟨k, by omega, rfl⟩

def orderedMachine (gib1Pages : Bool) : Machine ℕ :=
  ⟨Physical.smallHhdm, orderedSource, gib1Pages⟩

end IceKernel.Paging
