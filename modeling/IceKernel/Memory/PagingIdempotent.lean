import IceKernel.Memory.PagingInit

/-!
# `map` twice

The macro `assert` evaluates an expression that holds a second time. For `map`
that changes nothing.
-/

namespace IceKernel.Paging
open Word64 RadixTree

variable {A : Type} {K : Machine A} {top v t : ℕ} {st st' : State A} {pa : ℕ}
  {flags : BitVec 64} {cache : Caching}

/-- The same page-table memory, and no table allocated. -/
structure Unchanged (st st' : State A) : Prop where
  mem : st'.mem = st.mem
  heap : st'.heap = st.heap
  tables : st'.tables = st.tables

/-- A word that `map_one` stored is stored again by a second call. -/
theorem mappedWord_idem (old : BitVec 64) (pa : ℕ) (flags : BitVec 64) (cache : Caching)
    (pageSize : ℕ) : mappedWord (mappedWord old pa flags cache pageSize) pa flags cache pageSize =
      mappedWord old pa flags cache pageSize := by
  apply BitVec.eq_of_getLsbD_eq
  intro i hi
  simp only [mappedWord, getLsbD_setFlags, setAddress, BitVec.getLsbD_or, BitVec.getLsbD_and,
    BitVec.getLsbD_not, hi]
  cases (realFlags flags cache (pageSize ≠ KiB4)).getLsbD i <;>
    cases (BitVec.ofNat 64 pa).getLsbD i <;> cases paMask.getLsbD i <;> simp

/-- A store leaves the path to its own table. -/
theorem Skeleton.node_after_store (hs : Skeleton K top st) {p : List ℕ} {i : ℕ} {w : BitVec 64}
    (hn : nodeAt K st.mem top p = some t) : nodeAt K (write st.mem t i w) top p = some t := by
  have hlen : ¬ i :: p <:+ p := fun h => absurd h.length_le (by simp)
  rw [nodeAt, descend_write hs.unshared hn hlen]
  exact hn

/-- The state after `map_one` has stored its word in the table `t`. -/
def storeMapped (t v pa : ℕ) (flags : BitVec 64) (cache : Caching) (pageSize : ℕ)
    (st : State A) : State A :=
  let i := idx v (levelOf pageSize)
  { st with mem := write st.mem t i (mappedWord (st.mem t i) pa flags cache pageSize) }

theorem Skeleton.storeMapped (hs : Skeleton K top st) {pageSize : ℕ}
    (hl : levelOf pageSize = 3 ∨ isLpage flags = true)
    (hn : nodeAt K st.mem top (pathTo v (levelOf pageSize)) = some t) (pa : ℕ) (cache : Caching) :
    Skeleton K top (storeMapped t v pa flags cache pageSize st) ∧
      nodeAt K (Paging.storeMapped t v pa flags cache pageSize st).mem top
        (pathTo v (levelOf pageSize)) = some t := by
  refine ⟨hs.put hn ?_ ?_ fun _ => Or.inl (mappedWord_present _ _ _ _ _), hs.node_after_store hn⟩
  · rw [length_pathTo]
    exact (levelOf_bounds pageSize).1
  · rw [length_pathTo, decode_mappedWord _ _ _ _ hl]
    rfl

/-- `map_one` through tables that exist. -/
theorem Skeleton.mapOne_node (hs : Skeleton K top st) {pageSize : ℕ}
    (hn : nodeAt K st.mem top (pathTo v (levelOf pageSize)) = some t) (pa : ℕ)
    (flags : BitVec 64) (cache : Caching) :
    ∃ vis, mapOne K top v pa flags cache pageSize st =
      some (true, { Paging.storeMapped t v pa flags cache pageSize st with visited := vis }) := by
  obtain ⟨vis, hw⟩ := hs.entry_node hn true
  refine ⟨vis, ?_⟩
  rw [mapOne, hw]
  rfl

/-- `map_one` first makes the tables on the way and then stores its word. -/
theorem Skeleton.mapOne_grown (hs : Skeleton K top st) {pageSize : ℕ}
    (hc : ClearAbove K st.mem top v (levelOf pageSize)) {ok : Bool}
    (he : mapOne K top v pa flags cache pageSize st = some (ok, st')) :
    ok = true ∧ ∃ t st1, Skeleton K top st1 ∧
      nodeAt K st1.mem top (pathTo v (levelOf pageSize)) = some t ∧
      st' = Paging.storeMapped t v pa flags cache pageSize st1 := by
  obtain ⟨⟨e, st1⟩, hw, heq⟩ := Option.map_eq_some_iff.mp he
  obtain ⟨hs1, -, ⟨t, rfl, hn⟩ | ⟨-, hal, -⟩⟩ := hs.entry hc hw
  · simp only [Prod.mk.injEq] at heq
    obtain ⟨rfl, rfl⟩ := heq
    exact ⟨rfl, t, st1, hs1, hn, rfl⟩
  · exact absurd hal (by simp)

/-- One entry, stored twice. -/
theorem Skeleton.mapOne_again (hs : Skeleton K top st) {pageSize : ℕ}
    (hl : levelOf pageSize = 3 ∨ isLpage flags = true)
    (hc : ClearAbove K st.mem top v (levelOf pageSize)) {ok : Bool}
    (he : mapOne K top v pa flags cache pageSize st = some (ok, st')) :
    ok = true ∧ ∃ st'', mapOne K top v pa flags cache pageSize st' = some (true, st'') ∧
      Unchanged st' st'' := by
  obtain ⟨rfl, t, st1, hs1, hn, rfl⟩ := hs.mapOne_grown hc he
  obtain ⟨hs2, hn2⟩ := hs1.storeMapped hl hn pa cache
  obtain ⟨vis, h2⟩ := hs2.mapOne_node hn2 pa flags cache
  refine ⟨rfl, _, h2, ?_, rfl, rfl⟩
  simp only [Paging.storeMapped, write_self, mappedWord_idem, write_write]

/-! ## The 2 MiB loop -/

/-- The words of a table after the rounds `m` to `m + n` of the loop of `map`. -/
def blockRow (pa : ℕ) (flags : BitVec 64) (cache : Caching) (m n : ℕ) (row : ℕ → BitVec 64) :
    ℕ → BitVec 64 := fun j =>
  if m ≤ j ∧ j < m + n then mappedWord (row j) (wrap (pa + j * MiB2)) flags cache MiB2 else row j

theorem blockRow_zero (pa m : ℕ) (flags : BitVec 64) (cache : Caching) (row : ℕ → BitVec 64) :
    blockRow pa flags cache m 0 row = row := by
  funext j
  rw [blockRow, if_neg (by omega)]

/-- One round, then the others. -/
theorem blockRow_succ (pa m n : ℕ) (flags : BitVec 64) (cache : Caching) (row : ℕ → BitVec 64) :
    blockRow pa flags cache (m + 1) n (Function.update row m
      (mappedWord (row m) (wrap (pa + m * MiB2)) flags cache MiB2)) =
        blockRow pa flags cache m (n + 1) row := by
  funext j
  rw [blockRow, blockRow]
  by_cases hj : j = m
  · rw [if_neg (by omega), if_pos (by omega), hj, Function.update_self]
  · rw [Function.update_of_ne hj]
    exact if_congr (by omega) rfl rfl

theorem blockRow_idem (pa m n : ℕ) (flags : BitVec 64) (cache : Caching) (row : ℕ → BitVec 64) :
    blockRow pa flags cache m n (blockRow pa flags cache m n row) =
      blockRow pa flags cache m n row := by
  funext j
  by_cases hj : m ≤ j ∧ j < m + n
  · simp only [blockRow, if_pos hj, mappedWord_idem]
  · simp only [blockRow, if_neg hj]

section Block

variable (hal : v % GiB1 = 0)

include hal

theorem block_lt (hv : v < 2 ^ 64) {j : ℕ} (hj : j < 512) : v + j * MiB2 < 2 ^ 64 := by
  unfold GiB1 MiB2 at *
  omega

/-- The blocks of an aligned 1 GiB region have their entries in one table, in order. -/
theorem block_entry {j : ℕ} (hj : j < 512) :
    pathTo (v + j * MiB2) 2 = pathTo v 2 ∧ idx (v + j * MiB2) 2 = j := by
  have hoff : j * MiB2 < GiB1 := by
    unfold GiB1 MiB2
    omega
  have hdiv : (v + j * MiB2) / sizeAt 1 = v / sizeAt 1 := div_add_offset hal hoff
  refine ⟨pathTo_congr hdiv (by norm_num) (by norm_num), ?_⟩
  rw [idx_eq, sizeAt]
  unfold GiB1 at hal
  unfold MiB2
  omega

/-- The loop of `map` in a table that exists. -/
theorem Skeleton.mapLoop_node (hv : v < 2 ^ 64) (hs : Skeleton K top st) (hf : isLpage flags = true)
    (hn : nodeAt K st.mem top (pathTo v 2) = some t) {n m : ℕ} (hmn : m + n ≤ 512) :
    ∃ st', mapLoop K top v pa flags cache n (m * MiB2) st = some (true, st') ∧
      Skeleton K top st' ∧ nodeAt K st'.mem top (pathTo v 2) = some t ∧
      st'.heap = st.heap ∧ st'.tables = st.tables ∧
      st'.mem = Function.update st.mem t (blockRow pa flags cache m n (st.mem t)) := by
  induction n generalizing m st with
  | zero =>
    refine ⟨st, rfl, hs, hn, rfl, rfl, ?_⟩
    rw [blockRow_zero, Function.update_eq_self]
  | succ n ih =>
    have hlevel : levelOf MiB2 = 2 := rfl
    obtain ⟨hpath, hidx⟩ := block_entry hal (j := m) (by omega)
    have hn1 : nodeAt K st.mem top (pathTo (v + m * MiB2) (levelOf MiB2)) = some t := by
      rw [hlevel, hpath, hn]
    obtain ⟨vis, h1⟩ := hs.mapOne_node hn1 (wrap (pa + m * MiB2)) flags cache
    obtain ⟨hs1, hn2⟩ := hs.storeMapped (Or.inr hf) hn1 (wrap (pa + m * MiB2)) cache
    rw [hlevel, hpath] at hn2
    obtain ⟨st', h2, hs', hn', hheap, htables, hmem⟩ := ih (hs1.visit vis) hn2 (m := m + 1)
      (by omega)
    refine ⟨st', ?_, hs', hn', hheap, htables, ?_⟩
    · rw [mapLoop, wrap_of_lt (block_lt hal hv (by omega)), h1, ← Nat.succ_mul]
      exact h2
    · rw [hmem, ← blockRow_succ]
      simp only [Paging.storeMapped, hlevel, hidx, write, Function.update_self,
        Function.update_idem]

/-- 512 entries of one table, stored twice. -/
theorem Skeleton.mapLoop_again (hv : v < 2 ^ 64) (hs : Skeleton K top st)
    (hf : isLpage flags = true) (hc : ClearAbove K st.mem top v 2) {ok : Bool}
    (he : mapLoop K top v pa flags cache 512 0 st = some (ok, st')) :
    ok = true ∧ ∃ st'', mapLoop K top v pa flags cache 512 0 st' = some (true, st'') ∧
      Unchanged st' st'' := by
  have hlevel : levelOf MiB2 = 2 := rfl
  obtain ⟨⟨ok1, st1⟩, h1, h2⟩ := Option.bind_eq_some_iff.mp
    (show mapLoop K top v pa flags cache (511 + 1) 0 st = _ from he)
  rw [Nat.add_zero, wrap_of_lt hv, Nat.add_zero] at h1
  -- the first round makes the tables, all later ones find them
  obtain ⟨rfl, t, s, hs0, hn0, rfl⟩ := hs.mapOne_grown hc h1
  obtain ⟨hs1, hn1⟩ := hs0.storeMapped (Or.inr hf) hn0 (wrap pa) cache
  obtain ⟨st2, h3, hs2, hn2, -, -, hmem⟩ := hs1.mapLoop_node hal (m := 1) (n := 511) hv hf hn1
    (by norm_num)
  rw [Nat.one_mul] at h3
  simp only [if_true] at h2
  rw [Nat.zero_add, h3, Option.some.injEq, Prod.mk.injEq] at h2
  obtain ⟨rfl, rfl⟩ := h2
  obtain ⟨st3, h4, -, -, hheap, htables, hmem3⟩ := hs2.mapLoop_node hal (m := 0) (n := 512) hv hf
    hn2 (by norm_num)
  rw [Nat.zero_mul] at h4
  refine ⟨rfl, st3, h4, ?_, hheap, htables⟩
  have hidx : idx v 2 = 0 := by
    have h := (block_entry hal (j := 0) (by norm_num)).2
    rwa [Nat.zero_mul, Nat.add_zero] at h
  have hrow : st2.mem t = blockRow pa flags cache 0 512 (s.mem t) := by
    refine Eq.trans ?_ (blockRow_succ pa 0 511 flags cache (s.mem t))
    rw [hmem, Function.update_self, Nat.zero_mul, Nat.add_zero]
    simp only [Paging.storeMapped, hlevel, hidx, write, Function.update_self, Nat.add_zero]
  rw [hmem3, hrow, blockRow_idem, ← hrow, Function.update_eq_self]

end Block

/-- `map`, called twice. -/
theorem Skeleton.map_again (hs : Skeleton K top st) (hv : v < 2 ^ 64)
    (hal : v % getPageSize flags = 0) (hc : (Op.map v pa flags cache).Clear K top st) {ok : Bool}
    (he : Paging.map K top v pa flags cache st = some (ok, st')) :
    ok = true ∧ ∃ st'', Paging.map K top v pa flags cache st' = some (true, st'') ∧
      Unchanged st' st'' := by
  simp only [Op.Clear] at hc
  split_ifs at hc with hfall
  · obtain ⟨hsize, hg⟩ := hfall
    have hll := getPageSize_eq_GiB1.mp hsize
    rw [hsize] at hal
    rw [map_fallback hll hg] at he ⊢
    exact hs.mapLoop_again hal hv (isLpage_fallback flags) hc he
  · rw [Paging.map, if_neg hfall] at he ⊢
    exact hs.mapOne_again (levelOf_getPageSize flags) hc he

/-- A `map` that met no large page above its target does nothing more when it is called again: it
succeeds both times, and the second call neither writes nor allocates. So an asserted `map` is a
`map`. -/
theorem map_idempotent (K : Machine A) (hs : Skeleton K top st) (hv : v < 2 ^ 64)
    (hal : v % getPageSize flags = 0) (hc : (Op.map v pa flags cache).Clear K top st) {ok : Bool}
    (he : map K top v pa flags cache st = some (ok, st')) :
    ok = true ∧ ∃ st'', map K top v pa flags cache st' = some (true, st'') ∧
      Unchanged st' st'' ∧ assertTrue (map K top v pa flags cache) st = some (true, st'') := by
  obtain ⟨rfl, st'', h2, hsame⟩ := hs.map_again hv hal hc he
  refine ⟨rfl, st'', h2, hsame, ?_⟩
  rw [assertTrue, he, Option.bind_some]
  simp only [Bool.not_true, Bool.false_eq_true, if_false, h2, Option.map_some]

theorem map_idempotent_small :
    ∃ top st₀ st st', construct (orderedMachine false) none (start (fun _ _ => 0#64) 1) =
        some (top, st₀) ∧
      map (orderedMachine false) top 0x200000 0x600000 LPAGE .writeBack st₀ = some (true, st) ∧
      map (orderedMachine false) top 0x200000 0x600000 LPAGE .writeBack st = some (true, st') ∧
      Unchanged st st' := by
  have htrue : ((construct (orderedMachine false) none (start (fun _ _ => 0#64) 1)).bind
      fun (top, st₀) => (map (orderedMachine false) top 0x200000 0x600000 LPAGE .writeBack st₀).map
        Prod.fst) = some true := by
    decide +kernel
  obtain ⟨⟨top, st₀⟩, h0, h1⟩ := Option.bind_eq_some_iff.mp htrue
  obtain ⟨⟨ok, st⟩, hm, rfl⟩ := Option.map_eq_some_iff.mp h1
  obtain ⟨ht, hnone⟩ := construct_spec h0
  have hclear : (Op.map 0x200000 0x600000 LPAGE .writeBack).Clear (orderedMachine false) top st₀ :=
    fun d _ => hnone _ d
  obtain ⟨-, st', h2, hsame, -⟩ := map_idempotent (orderedMachine false) ht.skeleton (by norm_num)
    (by decide) hclear hm
  exact ⟨top, st₀, st, st', h0, hm, h2, hsame⟩

end IceKernel.Paging
