import IceKernel.Memory.PagingTree

/-!
# The hardware's page walk

The translation of an address is decided by the one leaf on its path.
-/

namespace IceKernel.Paging
open Word64 RadixTree

variable {A : Type} {K : Machine A} {top : ℕ} {st st' : State A} {p q : List ℕ} {t i j : ℕ}

/-! ## Addresses and paths -/

/-- The bytes an entry at depth `d` covers. -/
def sizeAt (d : ℕ) : ℕ := 2 ^ (39 - 9 * d)

theorem idx_eq (v d : ℕ) : idx v d = v / sizeAt d % 512 := field_eq v 9 _

theorem sizeAt_levelOf {pageSize : ℕ} (h : pageSize = KiB4 ∨ pageSize = MiB2 ∨ pageSize = GiB1) :
    sizeAt (levelOf pageSize) = pageSize := by
  rcases h with rfl | rfl | rfl <;> rfl

/-- Addresses in one region of depth `d` have the same path down to it. -/
theorem idx_congr {a v d e : ℕ} (h : a / sizeAt d = v / sizeAt d) (he : e ≤ d) (hd : d ≤ 3) :
    idx a e = idx v e := by
  rw [idx_eq, idx_eq]
  have hmul : sizeAt e = sizeAt d * 2 ^ (9 * d - 9 * e) := by
    rw [sizeAt, sizeAt, ← Nat.pow_add]
    congr 1
    omega
  rw [hmul, ← Nat.div_div_eq_div_mul, ← Nat.div_div_eq_div_mul, h]

theorem pathTo_congr {a v d e : ℕ} (h : a / sizeAt d = v / sizeAt d) (he : e ≤ d + 1)
    (hd : d ≤ 3) : pathTo a e = pathTo v e := by
  induction e with
  | zero => rfl
  | succ e ih => rw [pathTo, pathTo, idx_congr h (by omega) hd, ih (by omega)]

theorem pathTo_suffix (v : ℕ) {d e : ℕ} (h : d ≤ e) : pathTo v d <:+ pathTo v e := by
  induction e with
  | zero =>
    obtain rfl : d = 0 := by omega
    exact List.suffix_rfl
  | succ e ih =>
    by_cases hd : d = e + 1
    · rw [hd]
    · exact (ih (by omega)).trans (List.suffix_cons _ _)

/-- The path of one address ends in the path of another only if they share that path. -/
theorem eq_of_suffix {a v d e : ℕ} (h : pathTo v d <:+ pathTo a e) :
    d ≤ e ∧ pathTo a d = pathTo v d := by
  have hle : d ≤ e := by simpa using h.length_le
  have hs := List.suffix_of_suffix_length_le h (pathTo_suffix a hle) (by simp)
  exact ⟨hle, (hs.eq_of_length (by simp)).symm⟩

theorem idx_of_pathTo_eq {a v d e : ℕ} (h : pathTo a d = pathTo v d) (he : e < d) :
    idx a e = idx v e := by
  induction d with
  | zero => omega
  | succ d ih =>
    obtain ⟨h1, h2⟩ := List.cons.inj h
    by_cases hed : e = d
    · rw [hed, h1]
    · exact ih h2 (by omega)

/-- A canonical address is determined by its indices and its offset. -/
theorem div_eq_of_pathTo_eq {a v d : ℕ} (ha : isCanonical a) (hv : isCanonical v)
    (ha' : a < 2 ^ 64) (hv' : v < 2 ^ 64) (hd : d ≤ 3) (h : pathTo a (d + 1) = pathTo v (d + 1)) :
    a / sizeAt d = v / sizeAt d := by
  have hidx (e : ℕ) (he : e ≤ d) : a / sizeAt e % 512 = v / sizeAt e % 512 := by
    rw [← idx_eq, ← idx_eq]
    exact idx_of_pathTo_eq h (by omega)
  simp only [isCanonical, Bool.or_eq_true, decide_eq_true_eq] at ha hv
  have h0 := hidx 0 (by omega)
  simp only [sizeAt] at *
  interval_cases d
  · norm_num at h0 ⊢
    omega
  · have h1 := hidx 1 (by omega)
    norm_num at h0 h1 ⊢
    omega
  · have h1 := hidx 1 (by omega)
    have h2 := hidx 2 (by omega)
    norm_num at h0 h1 h2 ⊢
    omega
  · have h1 := hidx 1 (by omega)
    have h2 := hidx 2 (by omega)
    have h3 := hidx 3 (by omega)
    norm_num at h0 h1 h2 h3 ⊢
    omega

/-! ## Translation -/

/-- The leaf word in entry `i` of the table at `p`. -/
abbrev leafOf (K : Machine A) (mem : Mem) (top : ℕ) (p : List ℕ) (i : ℕ) : Option (BitVec 64) :=
  (slotOf K mem top p i).leaf?

/-- The leaf for `a` at depth `d`. -/
abbrev leafFor (K : Machine A) (mem : Mem) (top a d : ℕ) : Option (BitVec 64) :=
  leafOf K mem top (pathTo a d) (idx a d)

/-- The address a leaf at depth `d` gives: its frame, of which only the bits above the page
size count, and the offset. -/
def target (a d : ℕ) (w : BitVec 64) : ℕ :=
  getAddress w / sizeAt d * sizeAt d + a % sizeAt d

/-- The hardware's walk from the table `t` at depth `d`, with `n` levels to go. The PS bit ends
it; in the top level it is reserved. -/
def hwFrom (K : Machine A) (mem : Mem) (a : ℕ) : ℕ → ℕ → ℕ → Option ℕ
  | 0, _, _ => none
  | n + 1, d, t =>
    let e := mem t (idx a d)
    if !getFlags e present then none
    else if 3 ≤ d then some (target a d e)
    else if getFlags e largerPages then if d = 0 then none else some (target a d e)
    else hwFrom K mem a n (d + 1) (tohh K.hhdm.offset (getAddress e))

/-- The hardware's 4-level walk. -/
def hwTranslate (K : Machine A) (mem : Mem) (top a : ℕ) : Option ℕ := hwFrom K mem a 4 0 top

theorem getFlags_largerPages (v : BitVec 64) : getFlags v largerPages = v.getLsbD 7 :=
  getFlags_twoPow v (k := 7) (by norm_num)

theorem hwFrom_succ (K : Machine A) (mem : Mem) (a n d t : ℕ) :
    hwFrom K mem a (n + 1) d t =
      match decode K.hhdm.offset d (mem t (idx a d)) with
      | .empty => none
      | .child s => hwFrom K mem a n (d + 1) s
      | .leaf w => some (target a d w) := by
  simp only [hwFrom, getFlags_present, getFlags_largerPages, decode]
  cases (mem t (idx a d)).getLsbD 0
  · rfl
  · simp only [Bool.not_true, Bool.false_eq_true, if_false, reduceCtorEq]
    split_ifs <;> rfl

/-- Nothing is below an entry that is not a child. -/
theorem leafFor_below {mem : Mem} {a d e : ℕ} (hde : d < e)
    (h : (slotOf K mem top (pathTo a d) (idx a d)).child? = none) :
    leafFor K mem top a e = none := by
  have hs : idx a d :: pathTo a d <:+ pathTo a e := pathTo_suffix a (Nat.succ_le_of_lt hde)
  rw [leafFor, leafOf, slotOf, slotAt_below h hs]
  rfl

theorem leafFor_of_no_node {mem : Mem} {a d e : ℕ} (h : nodeAt K mem top (pathTo a d) = none)
    (hde : d ≤ e) : leafFor K mem top a e = none := by
  have hnone := descend_eq_none_of_suffix h (pathTo_suffix a hde)
  rw [leafFor, leafOf, slotOf, slotAt, hnone]
  rfl

/-- Nothing is below an empty entry of the top level. -/
theorem leafFor_of_empty {mem : Mem} {a : ℕ}
    (h : slotOf K mem top (pathTo a 0) (idx a 0) = .empty) (d : ℕ) :
    leafFor K mem top a d = none := by
  by_cases hd : d = 0
  · rw [hd, leafFor, leafOf, h]
    rfl
  · exact leafFor_below (d := 0) (by omega) (by rw [h]; rfl)

theorem nodeAt_of_empty {mem : Mem} {a d : ℕ}
    (h : slotOf K mem top (pathTo a 0) (idx a 0) = .empty) (hd : 0 < d) :
    nodeAt K mem top (pathTo a d) = none := by
  have hcut : nodeAt K mem top (pathTo a 1) = none := by
    rw [nodeAt, pathTo, descend_cons, show slotAt _ _ _ _ _ = _ from h]
    rfl
  exact descend_eq_none_of_suffix hcut (pathTo_suffix a hd)

/-- The entry for `a` in the table at depth `d`. -/
theorem slot_step {mem : Mem} {a d : ℕ} (h : nodeAt K mem top (pathTo a d) = some t) :
    slotOf K mem top (pathTo a d) (idx a d) = decode K.hhdm.offset d (mem t (idx a d)) := by
  rw [slotOf, slotAt_of_descend h, length_pathTo]

theorem node_step {mem : Mem} {a d s : ℕ}
    (h : slotOf K mem top (pathTo a d) (idx a d) = .child s) :
    nodeAt K mem top (pathTo a (d + 1)) = some s := by
  rw [nodeAt, pathTo, descend_cons]
  exact congrArg Slot.child? h

/-- The first leaf for `a` from depth `d` on. -/
def firstLeaf (K : Machine A) (mem : Mem) (top a : ℕ) : ℕ → ℕ → Option (ℕ × BitVec 64)
  | 0, _ => none
  | n + 1, d =>
    match leafFor K mem top a d with
    | some w => some (d, w)
    | none => firstLeaf K mem top a n (d + 1)

theorem firstLeaf_eq_none {mem : Mem} {a n d : ℕ}
    (h : ∀ e, d ≤ e → leafFor K mem top a e = none) : firstLeaf K mem top a n d = none := by
  induction n generalizing d with
  | zero => rfl
  | succ n ih =>
    rw [firstLeaf, h d (Nat.le_refl d)]
    exact ih fun e he => h e (by omega)

theorem hwFrom_eq {mem : Mem} {a n d : ℕ} (h : nodeAt K mem top (pathTo a d) = some t) :
    hwFrom K mem a n d t =
      (firstLeaf K mem top a n d).map fun (d, w) => target a d w := by
  induction n generalizing d t with
  | zero => rfl
  | succ n ih =>
    have hs := slot_step h
    rw [hwFrom_succ, firstLeaf]
    -- an empty entry ends the path, a leaf ends the walk, a child takes both one level down
    cases hdec : decode K.hhdm.offset d (mem t (idx a d)) with
    | empty =>
      rw [hdec] at hs
      have hnone : ∀ e, d ≤ e → leafFor K mem top a e = none := by
        intro e he
        by_cases hed : e = d
        · rw [hed, leafFor, leafOf, hs]
          rfl
        · exact leafFor_below (d := d) (by omega) (by rw [hs]; rfl)
      have hrest : firstLeaf K mem top a n (d + 1) = none :=
        firstLeaf_eq_none fun e he => hnone e (by omega)
      rw [hnone d (Nat.le_refl d), hrest]
      rfl
    | leaf w =>
      rw [hdec] at hs
      rw [leafFor, leafOf, hs]
      rfl
    | child s =>
      rw [hdec] at hs
      rw [leafFor, leafOf, hs]
      exact ih (node_step hs)

/-- The hardware finds the leaf on the path, if there is one. -/
theorem hwTranslate_eq (K : Machine A) (mem : Mem) (top a : ℕ) :
    hwTranslate K mem top a = (firstLeaf K mem top a 4 0).map fun (d, w) => target a d w :=
  hwFrom_eq rfl

theorem hwTranslate_congr {mem mem' : Mem} {top' a : ℕ}
    (h : ∀ d ≤ 3, leafFor K mem' top' a d = leafFor K mem top a d) :
    hwTranslate K mem' top' a = hwTranslate K mem top a := by
  rw [hwTranslate_eq, hwTranslate_eq]
  simp only [firstLeaf, h 0 (by norm_num), h 1 (by norm_num), h 2 (by norm_num),
    h 3 (by norm_num)]

/-- There is at most one leaf on a path. -/
theorem leafFor_above {mem : Mem} {a d e : ℕ} {w : BitVec 64}
    (h : leafFor K mem top a d = some w) (he : e < d) : leafFor K mem top a e = none := by
  by_contra hne
  have hnone : leafFor K mem top a d = none := by
    apply leafFor_below he
    revert hne
    rw [leafFor, leafOf]
    cases slotOf K mem top (pathTo a e) (idx a e) <;> simp [Slot.leaf?, Slot.child?]
  rw [hnone] at h
  simp at h

theorem hwTranslate_of_leaf {mem : Mem} {a d : ℕ} {w : BitVec 64}
    (h : leafFor K mem top a d = some w) (hd : d ≤ 3) :
    hwTranslate K mem top a = some (target a d w) := by
  rw [hwTranslate_eq]
  interval_cases d <;> simp [firstLeaf, h, leafFor_above h]

theorem hwTranslate_eq_none {mem : Mem} {a : ℕ} :
    hwTranslate K mem top a = none ↔ ∀ d ≤ 3, leafFor K mem top a d = none := by
  constructor
  · intro h d hd
    by_contra hne
    obtain ⟨w, hw⟩ := Option.ne_none_iff_exists'.mp hne
    rw [hwTranslate_of_leaf hw hd] at h
    simp at h
  · intro h
    rw [hwTranslate_eq]
    simp [firstLeaf, h 0 (by norm_num), h 1 (by norm_num), h 2 (by norm_num), h 3 (by norm_num)]

end IceKernel.Paging
