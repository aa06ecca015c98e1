import IceKernel.Lib.Teardown
import IceKernel.Memory.PagingSpaces

/-!
# `destroy_pagemap`

The recursion goes four levels down from the entries of the lower half and
deletes each table after the tables it links.
-/

namespace IceKernel.Paging
open Word64 RadixTree Teardown

variable {A : Type} (K : Machine A)

/-- The state of the recursion; `trace` is a ghost: the tables read and deleted so far. -/
structure Destroying (A : Type) where
  st : State A
  trace : List (Access ℕ)

/-- `delete pml`. What stands in the memory of the table afterwards is `freed`. -/
def deleteTable (freed : ℕ → ℕ → BitVec 64) (pml : ℕ) (s : Destroying A) : Destroying A where
  st := { s.st with mem := Function.update s.st.mem pml (freed pml) }
  trace := s.trace ++ [.delete pml]

/-- The loop of `destroy_level` over `n` entries from `i` on; `destroy` is the recursive call. -/
def destroyEntries (destroy : ℕ → Destroying A → Option (Destroying A)) (pml : ℕ) :
    ℕ → ℕ → Destroying A → Option (Destroying A)
  | 0, _, s => some s
  | n + 1, i, s =>
    (getNextLvl K pml i false s.st).bind fun (next, st) =>
      let s : Destroying A := ⟨st, s.trace ++ [.read pml]⟩
      if next = 0 then destroyEntries destroy pml n (i + 1) s
      else (destroy next s).bind fun s => destroyEntries destroy pml n (i + 1) s

/-- `destroy_level`. -/
def destroyLevel (freed : ℕ → ℕ → BitVec 64) :
    ℕ → ℕ → ℕ → ℕ → Destroying A → Option (Destroying A)
  | 0, _, _, _, s => some s
  | level + 1, pml, start, stop, s =>
    (destroyEntries K (fun next => destroyLevel freed level next 0 512) pml (stop - start) start
      s).map (deleteTable freed pml)

/-- `destroy_pagemap`. -/
def destroyPagemap (freed : ℕ → ℕ → BitVec 64) (topLevel : ℕ) (s : Destroying A) :
    Option (Destroying A) :=
  destroyLevel K freed 4 topLevel 0 256 s

variable {K} {top t : ℕ} {st : State A} {p : List ℕ}

/-! ## The tables below a path -/

/-- The tables below entries `i` to `i + n` of the table at `p`. -/
def tablesFrom (K : Machine A) (mem : Mem) (top : ℕ) (p : List ℕ) (i n : ℕ) : Set ℕ :=
  {u | ∃ r j, (∀ k ∈ r, k < 512) ∧ i ≤ j ∧ j < i + n ∧ nodeAt K mem top (r ++ j :: p) = some u}

/-- The table at `p` and all tables below it. -/
def tablesBelow (K : Machine A) (mem : Mem) (top : ℕ) (p : List ℕ) : Set ℕ :=
  {u | ∃ r, (∀ k ∈ r, k < 512) ∧ nodeAt K mem top (r ++ p) = some u}

theorem tablesFrom_zero (K : Machine A) (mem : Mem) (top i : ℕ) (p : List ℕ) :
    tablesFrom K mem top p i 0 = ∅ := by
  refine Set.eq_empty_of_forall_notMem ?_
  rintro u ⟨r, j, -, h1, h2, -⟩
  omega

theorem tablesFrom_succ (K : Machine A) (mem : Mem) (top i n : ℕ) (p : List ℕ) :
    tablesFrom K mem top p i (n + 1) =
      tablesBelow K mem top (i :: p) ∪ tablesFrom K mem top p (i + 1) n := by
  ext u
  constructor
  · rintro ⟨r, j, hr, h1, h2, hn⟩
    by_cases hj : j = i
    · subst hj
      exact Or.inl ⟨r, hr, hn⟩
    · exact Or.inr ⟨r, j, hr, by omega, by omega, hn⟩
  · rintro (⟨r, hr, hn⟩ | ⟨r, j, hr, h1, h2, hn⟩)
    · exact ⟨r, i, hr, Nat.le_refl i, by omega, hn⟩
    · exact ⟨r, j, hr, by omega, by omega, hn⟩

theorem tablesBelow_eq (hn : nodeAt K st.mem top p = some t) :
    tablesBelow K st.mem top p = tablesFrom K st.mem top p 0 512 ∪ {t} := by
  ext u
  constructor
  · rintro ⟨r, hr, hu⟩
    rcases List.eq_nil_or_concat r with rfl | ⟨r', j, rfl⟩
    · exact Or.inr (Option.some.inj (hu.symm.trans hn))
    · rw [List.concat_eq_append, List.append_assoc] at hu
      rw [List.concat_eq_append] at hr
      exact Or.inl ⟨r', j, fun k hk => hr k (List.mem_append_left _ hk), Nat.zero_le j,
        by simpa using hr j (List.mem_append_right _ List.mem_cons_self), hu⟩
  · rintro (⟨r, j, hr, -, hj, hu⟩ | rfl)
    · refine ⟨r ++ [j], fun k hk => ?_, by rw [List.append_assoc]; exact hu⟩
      rcases List.mem_append.mp hk with hk | hk
      · exact hr k hk
      · obtain rfl := List.mem_singleton.mp hk
        omega
    · exact ⟨[], by simp, hn⟩

/-- Without a table at `p` there are none below. -/
theorem tablesBelow_of_none {mem : Mem} (hn : nodeAt K mem top p = none) :
    tablesBelow K mem top p = ∅ := by
  refine Set.eq_empty_of_forall_notMem ?_
  rintro u ⟨r, -, hu⟩
  have hnone := descend_eq_none_of_suffix hn (List.suffix_append r p)
  exact absurd (hu.symm.trans hnone) (by simp)

namespace Skeleton

/-- Different entries lead to different tables. -/
theorem below_disjoint (hs : Skeleton K top st) (i n : ℕ) (p : List ℕ) :
    Disjoint (tablesBelow K st.mem top (i :: p)) (tablesFrom K st.mem top p (i + 1) n) := by
  refine Set.disjoint_left.mpr ?_
  rintro u ⟨r, -, hu⟩ ⟨r', j, -, hj, -, hu'⟩
  have hpath := hs.unshared _ _ _ hu hu'
  have hlen := congrArg List.length hpath
  simp only [List.length_append, List.length_cons] at hlen
  have htail := (List.append_inj hpath (by omega)).2
  obtain ⟨rfl, -⟩ := List.cons.inj htail
  omega

/-- A table is not below its own entries. -/
theorem node_not_from (hs : Skeleton K top st) (hn : nodeAt K st.mem top p = some t) (i n : ℕ) :
    t ∉ tablesFrom K st.mem top p i n := by
  rintro ⟨r, j, -, -, -, hu⟩
  have hlen := congrArg List.length (hs.unshared _ _ _ hu hn)
  simp only [List.length_append, List.length_cons] at hlen
  omega

/-- What `get_next_lvl` finds in an entry as long as its table is intact: the next table, or, at the
lowest level, possibly a frame. -/
theorem destroy_next (hs : Skeleton K top st) (hn : nodeAt K st.mem top p = some t) {j : ℕ}
    (hleaf : p.length < 3 → (slotOf K st.mem top p j).leaf? = none) {s : State A}
    (hmem : s.mem t = st.mem t) :
    ∃ next vis, getNextLvl K t j false s = some (next, { s with visited := vis }) ∧
      ((next ≠ 0 ∧ p.length < 3 ∧ nodeAt K st.mem top (j :: p) = some next) ∨
        ((next = 0 ∨ 3 ≤ p.length) ∧ nodeAt K st.mem top (j :: p) = none)) := by
  have htp : t ≠ 0 := (hs.addr t (hs.closed p t hn)).pos
  rw [getNextLvl, if_neg htp, getFlags_present, hmem]
  by_cases hlen : p.length < 3
  · rcases hs.child_or_zero hn hlen (hleaf hlen) with ⟨h0, hslot⟩ | ⟨h0, -, hslot⟩
    · have hnode : nodeAt K st.mem top (j :: p) =
          some (tohh K.hhdm.offset (getAddress (st.mem t j))) := by
        rw [nodeAt, descend_cons]
        exact congrArg Slot.child? hslot
      exact ⟨_, _, by rw [if_pos h0], Or.inl ⟨(hs.addr _ (hs.closed _ _ hnode)).pos, hlen,
        hnode⟩⟩
    · refine ⟨0, s.visited, by rw [h0]; rfl, Or.inr ⟨Or.inl rfl, ?_⟩⟩
      rw [nodeAt, descend_cons]
      exact congrArg Slot.child? hslot
  · have hnone : nodeAt K st.mem top (j :: p) = none := by
      rw [nodeAt, descend, show descend _ _ top p = some t from hn, Option.bind_some, decode,
        if_pos (Nat.le_of_not_lt hlen)]
      split_ifs <;> rfl
    cases (st.mem t j).getLsbD 0 with
    | true => exact ⟨_, _, rfl, Or.inr ⟨Or.inr (Nat.le_of_not_lt hlen), hnone⟩⟩
    | false => exact ⟨0, s.visited, rfl, Or.inr ⟨Or.inl rfl, hnone⟩⟩

end Skeleton

/-! ## The recursion -/

/-- From `s` to `s'` exactly the tables in `D` were deleted, after reading in `R` and `D`. -/
def Destroyed (R D : Set ℕ) (s s' : Destroying A) : Prop :=
  ∃ trace, s'.trace = s.trace ++ trace ∧ Frees R D trace ∧ ∀ u, u ∉ D → s'.st.mem u = s.st.mem u

namespace Destroyed

variable {R D D' : Set ℕ} {s s' s'' : Destroying A}

theorem refl (R : Set ℕ) (s : Destroying A) : Destroyed R ∅ s s :=
  ⟨[], (List.append_nil _).symm, Frees.nil, fun _ _ => rfl⟩

/-- Reading an entry. -/
theorem read {vis : List ℕ} (s : Destroying A) (t : ℕ) :
    Destroyed {t} ∅ s ⟨{ s.st with visited := vis }, s.trace ++ [.read t]⟩ :=
  ⟨[.read t], rfl, Frees.read (Set.mem_singleton t), fun _ _ => rfl⟩

theorem mono (h : Destroyed ∅ D s s') : Destroyed R D s s' := by
  obtain ⟨trace, htrace, hfrees, hmem⟩ := h
  exact ⟨trace, htrace, hfrees.mono (Set.empty_subset R), hmem⟩

theorem trans (h : Destroyed R D s s') (h' : Destroyed R D' s' s'') (hR : Disjoint D R)
    (hD : Disjoint D D') : Destroyed R (D ∪ D') s s'' := by
  obtain ⟨trace, htrace, hfrees, hmem⟩ := h
  obtain ⟨trace', htrace', hfrees', hmem'⟩ := h'
  refine ⟨trace ++ trace', ?_, hfrees.append hfrees' hR hD, fun u hu => ?_⟩
  · rw [htrace', htrace, List.append_assoc]
  · rw [Set.mem_union, not_or] at hu
    rw [hmem' u hu.2, hmem u hu.1]

/-- At last the table itself. -/
theorem delete (h : Destroyed {t} D s s') (ht : t ∉ D) (freed : ℕ → ℕ → BitVec 64) :
    Destroyed ∅ (D ∪ {t}) s (deleteTable freed t s') := by
  obtain ⟨trace, htrace, hfrees, hmem⟩ := h
  have hdisj : Disjoint D {t} := Set.disjoint_singleton_right.mpr ht
  have hall := hfrees.append (Frees.delete {t} t) hdisj hdisj
  refine ⟨trace ++ [.delete t], ?_, ⟨hall.deletes, fun u hu => ?_, hall.careful⟩, fun u hu => ?_⟩
  · rw [deleteTable, htrace, List.append_assoc]
  · rcases hall.reads u hu with hut | hu
    · exact Or.inr (Or.inr hut)
    · exact Or.inr hu
  · rw [Set.mem_union, not_or] at hu
    rw [deleteTable]
    dsimp only
    rw [Function.update_of_ne hu.2, hmem u hu.1]

end Destroyed

/-- No large page below `p`. -/
def SmallBelow (K : Machine A) (mem : Mem) (top : ℕ) (p : List ℕ) : Prop :=
  ∀ r i, (∀ k ∈ r, k < 512) → i < 512 → (r ++ p).length < 3 →
    (slotOf K mem top (r ++ p) i).leaf? = none

theorem SmallBelow.cons {mem : Mem} (h : SmallBelow K mem top p) {j : ℕ} (hj : j < 512) :
    SmallBelow K mem top (j :: p) := by
  intro r i hr hi hlen
  have heq : r ++ j :: p = (r ++ [j]) ++ p := by rw [List.append_assoc]; rfl
  rw [heq] at hlen ⊢
  refine h _ i (fun k hk => ?_) hi hlen
  rcases List.mem_append.mp hk with hk | hk
  · exact hr k hk
  · rw [List.mem_singleton.mp hk]
    exact hj

section Recursion

variable (hs : Skeleton K top st) (freed : ℕ → ℕ → BitVec 64)

/-- What the recursive call does at the table at `p`, with `level` levels to go. -/
def Recurses (K : Machine A) (freed : ℕ → ℕ → BitVec 64) (mem : Mem) (top level : ℕ)
    (p : List ℕ) : Prop :=
  ∀ c s, nodeAt K mem top p = some c → SmallBelow K mem top p →
    (∀ u ∈ tablesBelow K mem top p, s.st.mem u = mem u) →
    ∃ s', destroyLevel K freed level c 0 512 s = some s' ∧
      Destroyed ∅ (tablesBelow K mem top p) s s'

include hs

/-- One round of the loop: what is below the entry is taken down, if there is anything. -/
theorem Skeleton.destroy_entry {level j : ℕ} (hlen : p.length + level = 3)
    (hn : nodeAt K st.mem top p = some t)
    (hrec : level ≠ 0 → Recurses K freed st.mem top level (j :: p))
    (hsmall : SmallBelow K st.mem top (j :: p))
    (hleaf : p.length < 3 → (slotOf K st.mem top p j).leaf? = none) {s : Destroying A}
    (ht : s.st.mem t = st.mem t)
    (hmem : ∀ u ∈ tablesBelow K st.mem top (j :: p), s.st.mem u = st.mem u) :
    ∃ next s₀ s', getNextLvl K t j false s.st = some (next, s₀.st) ∧
      s₀.trace = s.trace ++ [.read t] ∧
      (if next = 0 then some s₀ else destroyLevel K freed level next 0 512 s₀) = some s' ∧
      Destroyed {t} (tablesBelow K st.mem top (j :: p)) s s' := by
  obtain ⟨next, vis, hnext, hcase⟩ := hs.destroy_next hn hleaf ht
  have hread : Destroyed {t} ∅ s ⟨{ s.st with visited := vis }, s.trace ++ [.read t]⟩ :=
    Destroyed.read s t
  refine ⟨next, ⟨{ s.st with visited := vis }, s.trace ++ [.read t]⟩, ?_⟩
  rcases hcase with ⟨hne, hdeep, hnode⟩ | ⟨hend, hnone⟩
  · obtain ⟨s1, h1, hd1⟩ := hrec (by omega) next
      ⟨{ s.st with visited := vis }, s.trace ++ [.read t]⟩ hnode hsmall hmem
    have hall := hread.trans hd1.mono (Set.empty_disjoint _) (Set.empty_disjoint _)
    rw [Set.empty_union] at hall
    exact ⟨s1, hnext, rfl, by rw [if_neg hne, h1], hall⟩
  · -- an empty entry, or a frame, at which the recursion ends
    rw [tablesBelow_of_none hnone]
    refine ⟨_, hnext, rfl, ?_, hread⟩
    by_cases hz : next = 0
    · rw [if_pos hz]
    · have hlevel : level = 0 := by omega
      rw [if_neg hz, hlevel]
      rfl

theorem Skeleton.destroyEntries (level : ℕ) (hlen : p.length + level = 3)
    (hn : nodeAt K st.mem top p = some t) {n i : ℕ}
    (hrec : ∀ j, level ≠ 0 → Recurses K freed st.mem top level (j :: p))
    (hsmall : ∀ j, i ≤ j → j < i + n → SmallBelow K st.mem top (j :: p) ∧
      (p.length < 3 → (slotOf K st.mem top p j).leaf? = none))
    {s : Destroying A} (ht : s.st.mem t = st.mem t)
    (hmem : ∀ u ∈ tablesFrom K st.mem top p i n, s.st.mem u = st.mem u) :
    ∃ s', Paging.destroyEntries K (fun next => destroyLevel K freed level next 0 512) t n i s =
        some s' ∧ Destroyed {t} (tablesFrom K st.mem top p i n) s s' := by
  induction n generalizing i s with
  | zero =>
    rw [tablesFrom_zero]
    exact ⟨s, rfl, Destroyed.refl _ s⟩
  | succ n ih =>
    have hself : t ∉ tablesFrom K st.mem top p i (n + 1) := hs.node_not_from hn i (n + 1)
    rw [tablesFrom_succ] at hmem hself ⊢
    rw [Set.mem_union, not_or] at hself
    obtain ⟨hbelow, hleaf⟩ := hsmall i (Nat.le_refl i) (by omega)
    obtain ⟨next, s₀, s1, hnext, htrace, h1, hd1⟩ := hs.destroy_entry freed hlen hn (hrec i)
      hbelow hleaf ht fun u hu => hmem u (Or.inl hu)
    have hdisj := hs.below_disjoint i n p
    obtain ⟨-, -, -, hkeep⟩ := id hd1
    obtain ⟨s2, h2, hd2⟩ := ih (i := i + 1) (fun j h3 h4 => hsmall j (by omega) (by omega))
      ((hkeep t hself.1).trans ht) fun u hu =>
        (hkeep u (Set.disjoint_right.mp hdisj hu)).trans (hmem u (Or.inr hu))
    refine ⟨s2, ?_, hd1.trans hd2 (Set.disjoint_singleton_right.mpr hself.1) hdisj⟩
    have hs₀ : (⟨s₀.st, s.trace ++ [.read t]⟩ : Destroying A) = s₀ := by rw [← htrace]
    rw [Paging.destroyEntries, hnext, Option.bind_some]
    dsimp only
    rw [hs₀]
    by_cases hz : next = 0
    · rw [if_pos hz] at h1 ⊢
      obtain rfl := Option.some.inj h1
      exact h2
    · rw [if_neg hz] at h1 ⊢
      rw [h1, Option.bind_some, h2]

/-- One level of the recursion. -/
theorem Skeleton.recurses {level : ℕ} (hlen : p.length + level = 4) (hlevel : level ≠ 0) :
    Recurses K freed st.mem top level p := by
  induction level generalizing p with
  | zero => exact absurd rfl hlevel
  | succ level ih =>
    intro c s hn hsmall hmem
    rw [tablesBelow_eq hn] at hmem ⊢
    obtain ⟨s1, h1, hd1⟩ := hs.destroyEntries freed level (by omega) hn
      (fun j hl => ih (by simp; omega) hl) (i := 0) (n := 512)
      (fun j _ hj => ⟨hsmall.cons (by omega), fun hlt => hsmall [] j (by simp) (by omega) hlt⟩)
      (hmem c (Or.inr rfl)) fun u hu => hmem u (Or.inl hu)
    exact ⟨_, by rw [destroyLevel, h1]; rfl, hd1.delete (hs.node_not_from hn 0 512) freed⟩

end Recursion

/-- The tables that belong to one pagemap alone. -/
def privateTables (K : Machine A) (mem : Mem) (top : ℕ) : Set ℕ :=
  tablesFrom K mem top [] 0 256 ∪ {top}

theorem Skeleton.destroyPagemap (hs : Skeleton K top st) (freed : ℕ → ℕ → BitVec 64)
    (hsmall : ∀ j < 256, SmallBelow K st.mem top [j]) :
    ∃ s', Paging.destroyPagemap K freed top ⟨st, []⟩ = some s' ∧
      Destroyed ∅ (privateTables K st.mem top) ⟨st, []⟩ s' := by
  obtain ⟨s1, h1, hd1⟩ := hs.destroyEntries freed (p := []) 3 rfl rfl
    (fun j hl => hs.recurses freed rfl hl) (i := 0) (n := 256)
    (fun j _ hj => ⟨hsmall j (by omega), fun _ => leaf_top K st.mem top j⟩)
    (s := ⟨st, []⟩) rfl fun _ _ => rfl
  exact ⟨_, by rw [Paging.destroyPagemap, destroyLevel, h1]; rfl,
    hd1.delete (hs.node_not_from rfl 0 256) freed⟩

/-! ## Addresses for paths -/

/-- Every path through the lower half is the path of an address. -/
theorem exists_address {p : List ℕ} {j : ℕ} (hp : ∀ k ∈ p, k < 512) (hj : j < 256)
    (hlen : p.length ≤ 3) :
    ∃ a, LowerHalf a ∧ a % 2 ^ (39 - 9 * p.length) = 0 ∧
      pathTo a (p.length + 1) = p ++ [j] := by
  induction p with
  | nil =>
    refine ⟨j * 2 ^ 39, ?_, Nat.mul_mod_left _ _, ?_⟩
    · unfold LowerHalf
      omega
    · have hidx : idx (j * 2 ^ 39) 0 = j := by
        rw [idx_eq, sizeAt]
        norm_num
        omega
      rw [List.length_nil, pathTo, pathTo, hidx]
      rfl
  | cons i p ih =>
    obtain ⟨a, hlow, hmod, hpath⟩ := ih (fun k hk => hp k (List.mem_cons_of_mem _ hk))
      (by simp at hlen; omega)
    have hi := hp i List.mem_cons_self
    rw [List.length_cons] at hlen ⊢
    generalize p.length = n at hlen hmod hpath ⊢
    -- one more index below the address of the shorter path
    have hbits : LowerHalf (a + i * 2 ^ (30 - 9 * n)) ∧
        (a + i * 2 ^ (30 - 9 * n)) % 2 ^ (39 - 9 * (n + 1)) = 0 ∧
        (a + i * 2 ^ (30 - 9 * n)) / sizeAt n = a / sizeAt n ∧
        idx (a + i * 2 ^ (30 - 9 * n)) (n + 1) = i := by
      rw [idx_eq]
      unfold LowerHalf at hlow ⊢
      simp only [sizeAt]
      have hn : n ≤ 2 := by omega
      interval_cases n <;> norm_num at hmod ⊢ <;> omega
    obtain ⟨hlow', hmod', hdiv, hidx⟩ := hbits
    refine ⟨_, hlow', hmod', ?_⟩
    rw [pathTo, hidx, pathTo_congr hdiv (Nat.le_refl _) (by omega), hpath]
    rfl

/-- The lower half of a pagemap has small pages only. -/
def LowerSmall (K : Machine A) (mem : Mem) (top : ℕ) : Prop :=
  ∀ a, LowerHalf a → ∀ d < 3, leafFor K mem top a d = none

theorem LowerSmall.below {mem : Mem} (h : LowerSmall K mem top) {j : ℕ} (hj : j < 256) :
    SmallBelow K mem top [j] := by
  intro r i hr hi hlen
  rw [List.length_append, List.length_singleton] at hlen
  obtain ⟨a, hlow, -, hpath⟩ := exists_address (p := i :: r)
    (fun k hk => (List.mem_cons.mp hk).elim (fun h => h ▸ hi) (hr k)) hj (by simp; omega)
  rw [List.length_cons, pathTo, List.cons_append] at hpath
  obtain ⟨hidx, hpath⟩ := List.cons.inj hpath
  have hleaf := h a hlow (r.length + 1) hlen
  rwa [leafFor, leafOf, hidx, hpath] at hleaf

/-! ## All pagemaps of a run -/

section Spaces

variable {k r : ℕ} {roots : List ℕ} {spaces spaces' : List ℕ × State A}

/-- Apart from `kernel_pagemap` the pagemaps have small pages only in their lower halves. -/
def UserSmall (K : Machine A) (k : ℕ) (spaces : List ℕ × State A) : Prop :=
  Spaces K k spaces.1 spaces.2 ∧ ∀ r ∈ spaces.1, r ≠ k → LowerSmall K spaces.2.mem r

theorem UserSmall.construct (h : UserSmall K k spaces) {st' : State A}
    (he : Paging.construct K (some k) spaces.2 = some (r, st')) :
    UserSmall K k (r :: spaces.1, st') := by
  obtain ⟨hspaces, -, hkeep, hempty⟩ := h.1.construct he
  refine ⟨hspaces, fun s hs hsk a ha d hd => ?_⟩
  rcases List.mem_cons.mp hs with rfl | hs
  · exact leafFor_of_empty (hempty a ha) d
  · have hold (p : List ℕ) (t : ℕ) (hp : nodeAt K spaces.2.mem s p = some t) :
        st'.mem t = spaces.2.mem t := hkeep t ((h.1.tree s hs).closed p t hp)
    rw [← h.2 s hs hsk a ha d hd]
    exact congrArg Slot.leaf? (slotAt_congr hold _ _)

theorem UserSmall.call (h : UserSmall K k spaces) {c : Call} {st' : State A} (hr : r ∈ spaces.1)
    (hclear : ClearAbove K spaces.2.mem r c.address 3) (he : step K r spaces.2 c = some st') :
    UserSmall K k (spaces.1, st') := by
  obtain ⟨hspaces, -, w, -, hcase⟩ := h.1.call hr hclear he
  refine ⟨hspaces, fun s hs hsk a ha d hd => ?_⟩
  have hput (hp : Put K s spaces.2 st' c.address 3 w) : leafFor K st'.mem s a d = none := by
    rw [hp.leaf a d ha.canonical, if_neg (by omega)]
    exact h.2 s hs hsk a ha d hd
  rcases hcase with ⟨-, hall⟩ | ⟨-, hone, hothers⟩
  · exact hput (hall s hs)
  · by_cases hsr : s = r
    · rw [hsr] at hput ⊢
      exact hput hone
    · exact (hothers s hs hsr a d).trans (h.2 s hs hsk a ha d hd)

theorem UserSmall.step (h : UserSmall K k spaces) {e : SpaceEvent}
    (he : spaceStep K k spaces e = some spaces') : UserSmall K k spaces' := by
  cases e with
  | construct r =>
    obtain ⟨⟨q, st1⟩, h1, h2⟩ := Option.bind_eq_some_iff.mp he
    dsimp only at h2
    split_ifs at h2 with hq
    obtain rfl := Option.some.inj h2
    rw [hq] at h1
    exact h.construct h1
  | call r c =>
    obtain ⟨hr, hclear, st1, h1, rfl⟩ := spaceStep_call he
    exact h.call hr hclear h1

/-- A private table lies on no upper path, and in no other pagemap. -/
theorem Spaces.private_only (h : Spaces K k roots st) (hr : r ∈ roots) {s : ℕ} (hs : s ∈ roots)
    {p : List ℕ} (hp : nodeAt K st.mem s p = some t) (hother : s ≠ r ∨ UpperPath p) :
    t ∉ privateTables K st.mem r := by
  intro hmem
  have hpath : ∃ q, nodeAt K st.mem r q = some t ∧ ¬ UpperPath q := by
    rcases hmem with ⟨q, j, -, -, hj, hn⟩ | rfl
    · refine ⟨q ++ [j], hn, ?_⟩
      rintro ⟨i, hi, hle, -⟩
      rw [List.getLast?_append_of_ne_nil _ (by simp), List.getLast?_singleton] at hi
      obtain rfl := Option.some.inj hi
      omega
    · refine ⟨[], rfl, ?_⟩
      rintro ⟨i, hi, -⟩
      simp at hi
  obtain ⟨q, hq, hlow⟩ := hpath
  have hrs := h.apart r hr s hs q p t hq hp hlow
  subst hrs
  rw [(h.tree r hr).unshared q p t hq hp] at hlow
  exact hlow (hother.resolve_left fun hne => hne rfl)

/-- In every state reached by constructing pagemaps and mapping and unmapping small pages through
any of them, `destroy_pagemap` of one that is not `kernel_pagemap` returns; it has then deleted its
top level and the tables below entries 0 to 255, each once and nothing else, so none that another
pagemap or the upper half leads to and no frame that is not itself a table; and it read no table
after it had deleted it. -/
theorem destroy_frees_private_tables (K : Machine A) (freed : ℕ → ℕ → BitVec 64) {mem : Mem}
    {heap : A} {s₀ st₀ : State A} {ops : List Op} {events : List SpaceEvent}
    (h0 : Paging.construct K none (start mem heap) = some (k, s₀))
    (hops : Run.Along (opStep K k) (fun st op => op.Clear K k st) s₀ ops)
    (hst₀ : Run.run (opStep K k) s₀ ops = some st₀)
    (hrun : Run.run (spaceStep K k) ([k], st₀) events = some (roots, st))
    (hr : r ∈ roots) (hrk : r ≠ k) :
    ∃ s', Paging.destroyPagemap K freed r ⟨st, []⟩ = some s' ∧
      (deleted s'.trace).Nodup ∧
      (∀ t, t ∈ deleted s'.trace ↔ t = r ∨ t ∈ tablesFrom K st.mem r [] 0 256) ∧
      (∀ s ∈ roots, ∀ p t, nodeAt K st.mem s p = some t → s ≠ r ∨ UpperPath p →
        t ∉ deleted s'.trace) ∧
      (∀ a d w, leafFor K st.mem r a d = some w →
        tohh K.hhdm.offset (getAddress w) ∈ deleted s'.trace →
          tohh K.hhdm.offset (getAddress w) ∈ st.tables) ∧
      Careful s'.trace := by
  have hstart : UserSmall K k ([k], st₀) :=
    ⟨(spaces_of_kernel h0 hops hst₀).1, fun r hr hne => absurd (List.mem_singleton.mp hr) hne⟩
  have hinv : UserSmall K k (roots, st) :=
    Run.run_invariant (fun _ _ _ h he => h.step he) hstart hrun
  obtain ⟨hspaces, husers⟩ := hinv
  have hs : Skeleton K r st := hspaces.tree r hr
  obtain ⟨s', hret, trace, htrace, hfrees, -⟩ :=
    hs.destroyPagemap freed fun j hj => (husers r hr hrk).below hj
  rw [List.nil_append] at htrace
  have hmem (t : ℕ) : t ∈ deleted s'.trace ↔ t ∈ privateTables K st.mem r := by
    rw [htrace, mem_deleted, hfrees.deletes]
  refine ⟨s', hret, ?_, fun t => ?_, fun s hs p t hp hother hdel => ?_, fun a d w _ hdel => ?_, ?_⟩
  · rw [htrace]
    exact hfrees.careful.nodup
  · rw [hmem, privateTables, Set.mem_union, Set.mem_singleton_iff, or_comm]
  · exact hspaces.private_only hr hs hp hother ((hmem t).mp hdel)
  · rcases (hmem _).mp hdel with ⟨q, j, -, -, -, hn⟩ | htop
    · exact hs.closed _ _ hn
    · rw [Set.mem_singleton_iff.mp htop]
      exact hs.top_mem
  · rw [htrace]
    exact hfrees.careful

end Spaces

/-- A pagemap with one small page in its lower half. -/
def spaceToDestroy : List SpaceEvent :=
  [.construct 0xffff800000102000, .call 0xffff800000102000 (.map 0x400000 0x7000 WRITE .writeBack)]

theorem destroy_frees_private_tables_small :
    ∃ k s₀ roots st s', construct (orderedMachine false) none (start (fun _ _ => 0#64) 1) =
        some (k, s₀) ∧
      Run.run (spaceStep (orderedMachine false) k) ([k], s₀) spaceToDestroy = some (roots, st) ∧
      destroyPagemap (orderedMachine false) (fun _ _ => 7#64) 0xffff800000102000 ⟨st, []⟩ =
        some s' ∧
      (deleted s'.trace).Nodup ∧ 0xffff800000102000 ∈ deleted s'.trace ∧ Careful s'.trace := by
  have hroots : ((construct (orderedMachine false) none (start (fun _ _ => 0#64) 1)).bind
      fun new => (Run.run (spaceStep (orderedMachine false) new.1) ([new.1], new.2)
        spaceToDestroy).map fun spaces => (new.1, spaces.1)) =
          some (0xffff800000001000, [0xffff800000102000, 0xffff800000001000]) := by
    decide +kernel
  obtain ⟨⟨k, s₀⟩, h0, h1⟩ := Option.bind_eq_some_iff.mp hroots
  obtain ⟨⟨roots, st⟩, hrun, h2⟩ := Option.map_eq_some_iff.mp h1
  obtain ⟨rfl, rfl⟩ := Prod.mk.inj h2
  have hclear : Run.Along (opStep (orderedMachine false) 0xffff800000001000)
      (fun st op => op.Clear (orderedMachine false) 0xffff800000001000 st) s₀ [] := trivial
  obtain ⟨s', hret, hnodup, hmem, -, -, hcareful⟩ := destroy_frees_private_tables
    (orderedMachine false) (fun _ _ => 7#64) h0 hclear (Run.run_nil s₀) hrun
    List.mem_cons_self (by decide)
  exact ⟨_, s₀, _, st, s', h0, hrun, hret, hnodup, (hmem _).mpr (Or.inl rfl), hcareful⟩

end IceKernel.Paging
