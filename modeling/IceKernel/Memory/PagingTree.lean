import IceKernel.Memory.Paging

/-!
# The page tables are a tree

Four levels of tables below a root, read as the hardware reads them: an entry
of a middle level with the PS bit is a leaf. The walk of the kernel follows
this tree as long as it meets no such leaf on the way.
-/

namespace IceKernel.Paging
open Word64 RadixTree

/-- What an entry of a table at depth `d` means to the hardware. At the top the PS bit is
reserved. -/
def decode (off d : ℕ) (w : BitVec 64) : Slot ℕ (BitVec 64) :=
  if w.getLsbD 0 = false then .empty
  else if 3 ≤ d then .leaf w
  else if w.getLsbD 7 then if d = 0 then .empty else .leaf w
  else .child (tohh off (getAddress w))

theorem decode_zero (off d : ℕ) : decode off d 0#64 = .empty := rfl

theorem decode_leaf {off d : ℕ} {w : BitVec 64} (h0 : w.getLsbD 0 = true) (hd : 0 < d)
    (h7 : 3 ≤ d ∨ w.getLsbD 7 = true) : decode off d w = .leaf w := by
  rw [decode, if_neg (by simp [h0])]
  by_cases h3 : 3 ≤ d
  · rw [if_pos h3]
  · rw [if_neg h3, if_pos (h7.resolve_left h3), if_neg hd.ne']

theorem decode_child {off d : ℕ} {w : BitVec 64} (h0 : w.getLsbD 0 = true) (hd : d < 3)
    (h7 : w.getLsbD 7 = false) : decode off d w = .child (tohh off (getAddress w)) := by
  rw [decode, if_neg (by simp [h0]), if_neg (by omega), if_neg (by rw [h7]; simp)]

theorem decode_absent {off d : ℕ} {w : BitVec 64} (h0 : w.getLsbD 0 = false) :
    decode off d w = .empty := by
  rw [decode, if_pos h0]

/-- There are no links at the lowest level. -/
theorem decode_lowest (off : ℕ) (w : BitVec 64) : (decode off 3 w).child? = none := by
  rw [decode, if_pos (Nat.le_refl 3)]
  split_ifs <;> rfl

variable {A : Type} {K : Machine A} {top : ℕ} {st st' : State A} {p : List ℕ} {t i : ℕ}

/-- The table at the end of a path. -/
abbrev nodeAt (K : Machine A) (mem : Mem) (top : ℕ) (p : List ℕ) : Option ℕ :=
  descend (decode K.hhdm.offset) mem top p

/-- Entry `i` of the table at the end of a path. -/
abbrev slotOf (K : Machine A) (mem : Mem) (top : ℕ) (p : List ℕ) (i : ℕ) :
    Slot ℕ (BitVec 64) :=
  slotAt (decode K.hhdm.offset) mem top p i

/-- Where a table may lie. -/
def TableAddr (h : Hhdm) (t : ℕ) : Prop :=
  ∃ a, t = h.offset + a ∧ a % KiB4 = 0 ∧ a < h.limit ∧ a < 2 ^ 52

/-- The links below `top` form a tree of allocated tables; the entries of the lowest level may
hold anything. -/
structure Skeleton (K : Machine A) (top : ℕ) (st : State A) : Prop where
  unshared : Unshared (decode K.hhdm.offset) st.mem top
  closed : ∀ p t, nodeAt K st.mem top p = some t → t ∈ st.tables
  owned : ∀ t ∈ st.tables, K.source.owned st.heap t
  addr : ∀ t ∈ st.tables, TableAddr K.hhdm t
  zero : ∀ p t, nodeAt K st.mem top p = some t → p.length < 3 →
    ∀ i, (st.mem t i).getLsbD 0 = true ∨ st.mem t i = 0#64
  topPlain : ∀ i, (st.mem top i).getLsbD 7 = false

/-- The tables below `top` form a tree of allocated tables, and an entry that is not present is
zero. -/
structure Tables (K : Machine A) (top : ℕ) (st : State A) : Prop where
  unshared : Unshared (decode K.hhdm.offset) st.mem top
  closed : ∀ p t, nodeAt K st.mem top p = some t → t ∈ st.tables
  owned : ∀ t ∈ st.tables, K.source.owned st.heap t
  addr : ∀ t ∈ st.tables, TableAddr K.hhdm t
  zero : ∀ t ∈ st.tables, ∀ i, (st.mem t i).getLsbD 0 = true ∨ st.mem t i = 0#64
  topPlain : ∀ i, (st.mem top i).getLsbD 7 = false

/-- Nothing but tables was written, and nothing else was taken for a table. -/
structure Touches (st st' : State A) : Prop where
  frame : ∀ t, t ∉ st'.tables → st'.mem t = st.mem t
  tables : ∀ t ∈ st.tables, t ∈ st'.tables
  visited : ∀ t ∈ st'.visited, t ∈ st.visited ∨ t ∈ st'.tables

theorem Touches.refl (st : State A) : Touches st st where
  frame _ _ := rfl
  tables _ h := h
  visited _ h := Or.inl h

theorem Touches.trans {st'' : State A} (h : Touches st st') (h' : Touches st' st'') :
    Touches st st'' where
  frame t ht := (h'.frame t ht).trans (h.frame t fun hm => ht (h'.tables t hm))
  tables t ht := h'.tables t (h.tables t ht)
  visited t ht := by
    rcases h'.visited t ht with h1 | h1
    · exact (h.visited t h1).imp_right (h'.tables t)
    · exact Or.inr h1

theorem newTable_eq_some {t : ℕ} (he : newTable K st = some (t, st')) :
    ∃ heap, K.source.alloc st.heap = some (t, heap) ∧ st' =
      { st with
        mem := Function.update st.mem t fun _ => 0#64
        heap := heap
        tables := t :: st.tables } := by
  obtain ⟨⟨q, heap⟩, hal, heq⟩ := Option.map_eq_some_iff.mp he
  simp only [Prod.mk.injEq] at heq
  obtain ⟨rfl, rfl⟩ := heq
  exact ⟨heap, hal, rfl⟩

theorem newTable_touches {t : ℕ} (he : newTable K st = some (t, st')) : Touches st st' := by
  obtain ⟨heap, -, rfl⟩ := newTable_eq_some he
  refine ⟨fun t ht => ?_, fun t ht => List.mem_cons_of_mem _ ht, fun t ht => Or.inl ht⟩
  exact Function.update_of_ne (List.ne_of_not_mem_cons ht) _ _

/-- `st'` has the leaves of `st` and possibly more tables. -/
structure Grows (K : Machine A) (top : ℕ) (st st' : State A) : Prop extends Touches st st' where
  leaves : ∀ p i, (slotOf K st'.mem top p i).leaf? = (slotOf K st.mem top p i).leaf?
  nodes : ∀ p t, nodeAt K st.mem top p = some t → nodeAt K st'.mem top p = some t

theorem Grows.refl (K : Machine A) (top : ℕ) (st : State A) : Grows K top st st where
  toTouches := Touches.refl st
  leaves _ _ := rfl
  nodes _ _ h := h

theorem Grows.trans {st'' : State A} (h : Grows K top st st') (h' : Grows K top st' st'') :
    Grows K top st st'' where
  toTouches := h.toTouches.trans h'.toTouches
  leaves p i := (h'.leaves p i).trans (h.leaves p i)
  nodes p t ht := h'.nodes p t (h.nodes p t ht)

theorem TableAddr.pos {h : Hhdm} (ha : TableAddr h t) : t ≠ 0 := by
  obtain ⟨a, rfl, -, hlt, -⟩ := ha
  have := h.limit_le
  omega

/-- The entry `get_next_lvl` writes for a new table. -/
def linkWord (off q : ℕ) : BitVec 64 :=
  setFlags (setAddress 0#64 (fromhh off q)) (present ||| writable ||| userSuper) true

theorem linkWord_spec {h : Hhdm} {q d : ℕ} (ha : TableAddr h q) (hd : d < 3) :
    decode h.offset d (linkWord h.offset q) = .child q ∧
      (linkWord h.offset q).getLsbD 0 = true ∧ (linkWord h.offset q).getLsbD 7 = false := by
  obtain ⟨a, rfl, hal, hlt, h52⟩ := ha
  rw [linkWord, h.fromhh_eq]
  have h0 : (setFlags (setAddress 0#64 a) (present ||| writable ||| userSuper) true).getLsbD 0 =
      true := by
    rw [getLsbD_setFlags]
    rfl
  have h7 : (setFlags (setAddress 0#64 a) (present ||| writable ||| userSuper) true).getLsbD 7 =
      false := by
    rw [getLsbD_setFlags, getLsbD_setAddress _ hal (by norm_num)]
    rfl
  refine ⟨?_, h0, h7⟩
  rw [decode_child h0 hd h7, getAddress_mapped _ hal h52 (by rfl), h.tohh_eq hlt]

/-- A growth along the path `r`: new tables hang on `r`, tables off `r` are unchanged, and a word
that changed was zero and is now zero or a link. -/
structure Walked (K : Machine A) (top : ℕ) (r : List ℕ) (st st' : State A) : Prop
    extends Grows K top st st' where
  added : ∀ p t, nodeAt K st'.mem top p = some t →
    nodeAt K st.mem top p = some t ∨ (t ∉ st.tables ∧ p <:+ r)
  offPath : ∀ t ∈ st.tables, (∀ p, p <:+ r → nodeAt K st.mem top p ≠ some t) →
    st'.mem t = st.mem t
  word : ∀ t ∈ st'.tables, ∀ i, (t ∈ st.tables ∧ st'.mem t i = st.mem t i) ∨
    ((t ∈ st.tables → st.mem t i = 0#64) ∧
      (st'.mem t i = 0#64 ∨ ∃ q, TableAddr K.hhdm q ∧ st'.mem t i = linkWord K.hhdm.offset q))

namespace Walked

variable {r r' : List ℕ} {st'' : State A}

/-- A walk that only records its visits. -/
theorem of_visited (K : Machine A) (top : ℕ) (r : List ℕ) (st : State A) {vis : List ℕ}
    (hvis : ∀ t ∈ vis, t ∈ st.visited ∨ t ∈ st.tables) :
    Walked K top r st { st with visited := vis } where
  toGrows := ⟨⟨fun _ _ => rfl, fun _ h => h, hvis⟩, fun _ _ => rfl, fun _ _ h => h⟩
  added _ _ h := Or.inl h
  offPath _ _ _ := rfl
  word _ h _ := Or.inl ⟨h, rfl⟩

theorem mono (h : Walked K top r st st') (hr : r <:+ r') : Walked K top r' st st' where
  toGrows := h.toGrows
  added p t hp := (h.added p t hp).imp_right fun ⟨h1, h2⟩ => ⟨h1, h2.trans hr⟩
  offPath t ht hoff := h.offPath t ht fun p hp => hoff p (hp.trans hr)
  word := h.word

theorem trans (h : Walked K top r st st') (h' : Walked K top r st' st'') :
    Walked K top r st st'' where
  toGrows := h.toGrows.trans h'.toGrows
  added p t hp := by
    rcases h'.added p t hp with hp | ⟨hn, hr⟩
    · exact h.added p t hp
    · exact Or.inr ⟨fun hm => hn (h.tables t hm), hr⟩
  offPath t ht hoff := by
    have hoff' (p : List ℕ) (hr : p <:+ r) : nodeAt K st'.mem top p ≠ some t := fun hp =>
      (h.added p t hp).elim (hoff p hr) fun hn => hn.1 ht
    rw [h'.offPath t (h.tables t ht) hoff', h.offPath t ht hoff]
  word t ht i := by
    rcases h'.word t ht i with ⟨hm, heq⟩ | ⟨hz, hnew⟩
    · rw [heq]
      exact h.word t hm i
    · refine Or.inr ⟨fun hm => ?_, hnew⟩
      have hz' := hz (h.tables t hm)
      rcases h.word t (h.tables t hm) i with ⟨-, heq⟩ | ⟨hz0, -⟩
      · rw [← heq, hz']
      · exact hz0 hm

/-- The words are present or zero after the walk if they were before. -/
theorem zero (h : Walked K top r st st')
    (hz : ∀ t ∈ st.tables, ∀ i, (st.mem t i).getLsbD 0 = true ∨ st.mem t i = 0#64) :
    ∀ t ∈ st'.tables, ∀ i, (st'.mem t i).getLsbD 0 = true ∨ st'.mem t i = 0#64 := by
  intro t ht i
  rcases h.word t ht i with ⟨hm, heq⟩ | ⟨-, heq | ⟨q, hq, heq⟩⟩
  · rw [heq]
    exact hz t hm i
  · exact Or.inr heq
  · rw [heq]
    exact Or.inl (linkWord_spec hq (d := 0) (by norm_num)).2.1

/-- The words of the top level that were not zero stay. -/
theorem row (h : Walked K top r st st') (htop : top ∈ st.tables) {j : ℕ}
    (hj : st.mem top j ≠ 0#64) : st'.mem top j = st.mem top j := by
  rcases h.word top (h.tables top htop) j with ⟨-, heq⟩ | ⟨hz, -⟩
  · exact heq
  · exact absurd (hz htop) hj

end Walked

namespace Skeleton

/-- A table that has not been handed out is not in the tree. -/
theorem fresh (hs : Skeleton K top st) {q : ℕ} {heap : A}
    (he : K.source.alloc st.heap = some (q, heap)) : q ∉ st.tables :=
  fun hq => K.source.alloc_fresh he (hs.owned q hq)

theorem top_mem (hs : Skeleton K top st) : top ∈ st.tables := hs.closed [] top rfl

theorem top_ne (hs : Skeleton K top st) (hp : nodeAt K st.mem top p = some t)
    (hlen : 0 < p.length) : top ≠ t := by
  rintro rfl
  rw [hs.unshared p [] top hp rfl] at hlen
  simp at hlen

/-- A tree is kept when its tables are. -/
theorem congr (hs : Skeleton K top st) (hmem : ∀ p t, nodeAt K st.mem top p = some t →
    st'.mem t = st.mem t) (htables : ∀ t ∈ st.tables, t ∈ st'.tables)
    (howned : ∀ t ∈ st'.tables, K.source.owned st'.heap t)
    (haddr : ∀ t ∈ st'.tables, TableAddr K.hhdm t) : Skeleton K top st' := by
  have hnode (r : List ℕ) : nodeAt K st'.mem top r = nodeAt K st.mem top r := descend_congr hmem r
  refine ⟨fun r s u h1 h2 => ?_, fun r s hr => ?_, howned, haddr, fun r s hr hlen i => ?_,
    fun i => ?_⟩
  · exact hs.unshared r s u ((hnode r).symm.trans h1) ((hnode s).symm.trans h2)
  · exact htables s (hs.closed r s ((hnode r).symm.trans hr))
  · have hr' := (hnode r).symm.trans hr
    rw [hmem r s hr']
    exact hs.zero r s hr' hlen i
  · rw [hmem [] top rfl]
    exact hs.topPlain i

/-- A new table is empty and not yet part of the tree, which is as before. -/
theorem newTable (hs : Skeleton K top st) {q : ℕ}
    (he : Paging.newTable K st = some (q, st')) :
    Skeleton K top st' ∧ st'.tables = q :: st.tables ∧ q ∉ st.tables ∧
      st'.mem q = (fun _ => 0#64) ∧ ∀ t ∈ st.tables, st'.mem t = st.mem t := by
  obtain ⟨heap, hal, rfl⟩ := newTable_eq_some he
  have hq := hs.fresh hal
  have hne (t : ℕ) (hm : t ∈ st.tables) : t ≠ q := fun h => hq (h ▸ hm)
  have hkeep (t : ℕ) (hm : t ∈ st.tables) :
      Function.update st.mem q (fun _ => 0#64) t = st.mem t :=
    Function.update_of_ne (hne t hm) _ _
  refine ⟨hs.congr (fun p t hp => hkeep t (hs.closed p t hp))
    (fun t hm => List.mem_cons_of_mem _ hm) ?_ ?_, rfl, hq, Function.update_self .., hkeep⟩
  · intro s hm
    rw [K.source.alloc_owned hal]
    exact (List.mem_cons.mp hm).imp_right (hs.owned s)
  · intro s hm
    rcases List.mem_cons.mp hm with rfl | hm
    · exact K.source.alloc_addr hal
    · exact hs.addr s hm

/-- A new table linked from an entry that is not present. -/
theorem graft (hs : Skeleton K top st) (hp : nodeAt K st.mem top p = some t)
    (hlen : p.length < 3) (habs : st.mem t i = 0#64) {q : ℕ}
    (he : Paging.newTable K st = some (q, st')) :
    let st'' : State A :=
      { st' with
        mem := write st'.mem t i (linkWord K.hhdm.offset q)
        visited := q :: st'.visited }
    Skeleton K top st'' ∧ Walked K top (i :: p) st st'' ∧
      nodeAt K st''.mem top (i :: p) = some q := by
  intro st''
  have htouch := newTable_touches he
  obtain ⟨hs1, htables, hfresh, hzero, hkeep⟩ := hs.newTable he
  have hq : q ∈ st'.tables := by
    rw [htables]
    exact List.mem_cons_self
  obtain ⟨hchild, h0, h7⟩ := linkWord_spec (hs1.addr q hq) hlen
  have hsame (r : List ℕ) (s : ℕ) (hr : nodeAt K st.mem top r = some s) :
      st'.mem s = st.mem s := hkeep s (hs.closed r s hr)
  have hnode (r : List ℕ) : nodeAt K st'.mem top r = nodeAt K st.mem top r := descend_congr hsame r
  have hp1 : nodeAt K st'.mem top p = some t := (hnode p).trans hp
  have htt : t ∈ st.tables := hs.closed p t hp
  have htq : q ≠ t := fun h => hfresh (h ▸ htt)
  have hnew (r : List ℕ) : nodeAt K st'.mem top r ≠ some q := fun h =>
    hfresh (hs.closed r q ((hnode r).symm.trans h))
  have hempty (d k : ℕ) : decode K.hhdm.offset d (st'.mem q k) = .empty := by
    rw [hzero, decode_zero]
  have habs1 : st'.mem t i = 0#64 := by rw [hkeep t htt, habs]
  -- the entry was empty, so nothing is cut off by the new link
  have hslot0 : slotOf K st'.mem top p i = .empty := by
    rw [slotOf, slotAt_of_descend hp1, habs1, decode_zero]
  have hself : slotOf K st''.mem top p i = .child q :=
    (slotAt_write_self hs1.unshared hp1).trans hchild
  have hword : st''.mem t i = linkWord K.hhdm.offset q := write_self _ _ _ _
  have hother {s j : ℕ} (h : ¬ (s = t ∧ j = i)) : st''.mem s j = st'.mem s j := write_of_ne h
  have hnodes (r : List ℕ) (s : ℕ) (hr : nodeAt K st''.mem top r = some s) :
      (r = i :: p ∧ s = q) ∨ nodeAt K st'.mem top r = some s :=
    descend_graft hs1.unshared hp1 htq hempty hchild hr
  have hlink : nodeAt K st''.mem top (i :: p) = some q := by
    rw [nodeAt, descend_cons]
    exact congrArg Slot.child? hself
  refine ⟨⟨hs1.unshared.graft hp1 hnew hempty hchild, fun r s hr => ?_, hs1.owned, hs1.addr,
    fun r s hr hlt j => ?_, fun j => ?_⟩,
    ⟨⟨⟨fun s hm => ?_, fun s hm => htouch.tables s hm, fun s hm => ?_⟩, fun r j => ?_,
      fun r s hr => ?_⟩, fun r s hr => ?_, fun s hm hoff => ?_, fun s hm j => ?_⟩, hlink⟩
  · rcases hnodes r s hr with ⟨-, rfl⟩ | hr
    · exact hq
    · exact hs1.closed r s hr
  · by_cases hsj : s = t ∧ j = i
    · rw [hsj.1, hsj.2, hword]
      exact Or.inl h0
    · rw [hother hsj]
      rcases hnodes r s hr with ⟨-, rfl⟩ | hr
      · exact Or.inr (by rw [hzero])
      · exact hs1.zero r s hr hlt j
  · by_cases hsj : top = t ∧ j = i
    · rw [hsj.1, hsj.2, hword, h7]
    · rw [hother hsj]
      exact hs1.topPlain j
  · have hst : s ≠ t := fun h => hm (h ▸ htouch.tables t htt)
    exact (write_node_of_ne hst).trans (htouch.frame s hm)
  · rcases List.mem_cons.mp hm with rfl | hm
    · exact Or.inr hq
    · exact htouch.visited s hm
  · have hst' : slotOf K st'.mem top r j = slotOf K st.mem top r j := slotAt_congr hsame r j
    rw [← hst']
    by_cases h : i :: p = j :: r
    · obtain ⟨rfl, rfl⟩ := List.cons.inj h
      rw [hself, hslot0]
      rfl
    · exact congrArg Slot.leaf? (slotAt_graft hs1.unshared hp1 hslot0 hnew hempty hchild h)
  · refine descend_write_of_some hs1.unshared hp1 ?_ ((hnode r).trans hr)
    exact congrArg Slot.child? hslot0
  · rcases hnodes r s hr with ⟨rfl, rfl⟩ | hr
    · exact Or.inr ⟨hfresh, List.suffix_rfl⟩
    · exact Or.inl ((hnode r).symm.trans hr)
  · have hst : s ≠ t := fun h => hoff p (List.suffix_cons i p) (h ▸ hp)
    exact (write_node_of_ne hst).trans (hkeep s hm)
  · by_cases hsj : s = t ∧ j = i
    · rw [hsj.1, hsj.2, hword]
      exact Or.inr ⟨fun _ => habs, Or.inr ⟨q, hs1.addr q hq, rfl⟩⟩
    · rw [hother hsj]
      change s ∈ st'.tables at hm
      rw [htables] at hm
      rcases List.mem_cons.mp hm with rfl | hm
      · exact Or.inr ⟨fun h => absurd h hfresh, Or.inl (by rw [hzero])⟩
      · exact Or.inl ⟨hm, by rw [hkeep s hm]⟩

/-- An entry the kernel may follow: a child, or nothing at all. -/
theorem child_or_zero (hs : Skeleton K top st) (hp : nodeAt K st.mem top p = some t)
    (hlen : p.length < 3) (hleaf : (slotOf K st.mem top p i).leaf? = none) :
    ((st.mem t i).getLsbD 0 = true ∧
      slotOf K st.mem top p i = .child (tohh K.hhdm.offset (getAddress (st.mem t i)))) ∨
    ((st.mem t i).getLsbD 0 = false ∧ st.mem t i = 0#64 ∧ slotOf K st.mem top p i = .empty) := by
  have hslot : slotOf K st.mem top p i = decode K.hhdm.offset p.length (st.mem t i) :=
    slotAt_of_descend hp i
  rcases hs.zero p t hp hlen i with h0 | hz
  · left
    have h7 : (st.mem t i).getLsbD 7 = false := by
      by_contra hne
      by_cases hd : p.length = 0
      · obtain rfl := List.length_eq_zero_iff.mp hd
        obtain rfl : top = t := Option.some.inj hp
        exact hne (hs.topPlain i)
      · rw [hslot, decode_leaf h0 (Nat.pos_of_ne_zero hd) (Or.inr (by simpa using hne))] at hleaf
        simp [Slot.leaf?] at hleaf
    exact ⟨h0, hslot.trans (decode_child h0 hlen h7)⟩
  · right
    rw [hslot, hz]
    exact ⟨rfl, rfl, decode_zero _ _⟩

/-- Recording a visit to a table. -/
theorem visit (hs : Skeleton K top st) (vis : List ℕ) :
    Skeleton K top { st with visited := vis } :=
  ⟨hs.unshared, hs.closed, hs.owned, hs.addr, hs.zero, hs.topPlain⟩

/-- What `get_next_lvl` does at an entry that is not a leaf. -/
theorem next (hs : Skeleton K top st) (hp : nodeAt K st.mem top p = some t) (hlen : p.length < 3)
    (hleaf : (slotOf K st.mem top p i).leaf? = none) {allocate : Bool} {r : ℕ}
    (he : getNextLvl K t i allocate st = some (r, st')) :
    Skeleton K top st' ∧ Walked K top (i :: p) st st' ∧
      ((r ≠ 0 ∧ nodeAt K st'.mem top (i :: p) = some r) ∨
        (r = 0 ∧ allocate = false ∧ nodeAt K st.mem top (i :: p) = none)) := by
  have htp : t ≠ 0 := (hs.addr t (hs.closed p t hp)).pos
  rw [getNextLvl, if_neg htp, getFlags_present] at he
  rcases hs.child_or_zero hp hlen hleaf with ⟨h0, hslot⟩ | ⟨h0, hz, hslot⟩
  · rw [if_pos h0] at he
    simp only [Option.some.injEq, Prod.mk.injEq] at he
    obtain ⟨rfl, rfl⟩ := he
    have hnode : nodeAt K st.mem top (i :: p) =
        some (tohh K.hhdm.offset (getAddress (st.mem t i))) := by
      rw [nodeAt, descend_cons]
      exact congrArg Slot.child? hslot
    have hmem := hs.closed _ _ hnode
    refine ⟨hs.visit _, Walked.of_visited K top _ st fun s hm => ?_,
      Or.inl ⟨(hs.addr _ hmem).pos, hnode⟩⟩
    rcases List.mem_cons.mp hm with rfl | hm
    · exact Or.inr hmem
    · exact Or.inl hm
  · rw [if_neg (by rw [h0]; simp)] at he
    have hnone : nodeAt K st.mem top (i :: p) = none := by
      rw [nodeAt, descend_cons]
      exact congrArg Slot.child? hslot
    cases allocate with
    | false =>
      simp only [Bool.false_eq_true, if_false, Option.some.injEq, Prod.mk.injEq] at he
      obtain ⟨rfl, rfl⟩ := he
      exact ⟨hs, Walked.of_visited K top _ st fun _ hm => Or.inl hm, Or.inr ⟨rfl, rfl, hnone⟩⟩
    | true =>
      -- a new table, then its link in the entry, which was zero
      simp only [if_true] at he
      obtain ⟨⟨q, st1⟩, hal, heq⟩ := Option.map_eq_some_iff.mp he
      obtain ⟨hs1, htables, -, -, hkeep⟩ := hs.newTable hal
      have hword : st1.mem t i = 0#64 := by rw [hkeep t (hs.closed p t hp), hz]
      simp only [hword, Prod.mk.injEq] at heq
      obtain ⟨rfl, rfl⟩ := heq
      obtain ⟨hs2, hw, hn⟩ := hs.graft hp hlen hz hal
      have hq : q ∈ st1.tables := by
        rw [htables]
        exact List.mem_cons_self
      exact ⟨hs2, hw, Or.inl ⟨(hs1.addr q hq).pos, hn⟩⟩

end Skeleton

namespace Tables

theorem skeleton (ht : Tables K top st) : Skeleton K top st :=
  ⟨ht.unshared, ht.closed, ht.owned, ht.addr, fun p t hp _ => ht.zero t (ht.closed p t hp),
    ht.topPlain⟩

theorem of_skeleton (hs : Skeleton K top st)
    (hz : ∀ t ∈ st.tables, ∀ i, (st.mem t i).getLsbD 0 = true ∨ st.mem t i = 0#64) :
    Tables K top st :=
  ⟨hs.unshared, hs.closed, hs.owned, hs.addr, hz, hs.topPlain⟩

theorem top_mem (ht : Tables K top st) : top ∈ st.tables := ht.skeleton.top_mem

/-- What `get_next_lvl` does at an entry that is not a leaf. -/
theorem next (ht : Tables K top st) (hp : nodeAt K st.mem top p = some t) (hlen : p.length < 3)
    (hleaf : (slotOf K st.mem top p i).leaf? = none) {allocate : Bool} {r : ℕ}
    (he : getNextLvl K t i allocate st = some (r, st')) :
    Tables K top st' ∧ Grows K top st st' ∧
      ((r ≠ 0 ∧ nodeAt K st'.mem top (i :: p) = some r) ∨
        (r = 0 ∧ allocate = false ∧ nodeAt K st.mem top (i :: p) = none)) := by
  obtain ⟨hs, hw, hr⟩ := ht.skeleton.next hp hlen hleaf he
  exact ⟨of_skeleton hs (hw.zero ht.zero), hw.toGrows, hr⟩

end Tables

/-! ## The walk -/

/-- The index of an address in a table at depth `d`. -/
def idx (v d : ℕ) : ℕ := tableIndex v (39 - 9 * d)

/-- The path of an address down to depth `d`. -/
def pathTo (v : ℕ) : ℕ → List ℕ
  | 0 => []
  | d + 1 => idx v d :: pathTo v d

@[simp] theorem length_pathTo (v d : ℕ) : (pathTo v d).length = d := by
  induction d with
  | zero => rfl
  | succ d ih => rw [pathTo, List.length_cons, ih]

/-- The depth of the tables whose entries map pages of this size. -/
def levelOf (pageSize : ℕ) : ℕ := if pageSize = GiB1 then 1 else if pageSize = MiB2 then 2 else 3

theorem levelOf_bounds (pageSize : ℕ) : 1 ≤ levelOf pageSize ∧ levelOf pageSize ≤ 3 := by
  unfold levelOf
  split_ifs <;> omega

/-- The first `d` steps of `virtual_to_pt_entry`. -/
def walk (K : Machine A) (top v : ℕ) (allocate : Bool) : ℕ → State A → Option (ℕ × State A)
  | 0, st => some (top, st)
  | d + 1, st =>
    (walk K top v allocate d st).bind fun (t, st) => getNextLvl K t (idx v d) allocate st

theorem getNextLvl_null (i : ℕ) (allocate : Bool) (st : State A) :
    getNextLvl K 0 i allocate st = some (0, st) := rfl

/-- `virtual_to_pt_entry` walks to the depth of the page size. -/
theorem virtualToPtEntry_eq (K : Machine A) (top v : ℕ) (allocate : Bool) (pageSize : ℕ)
    (st : State A) :
    virtualToPtEntry K top v allocate pageSize st =
      (walk K top v allocate (levelOf pageSize) st).map fun (t, st) =>
        if t = 0 then (none, st) else (some (t, idx v (levelOf pageSize)), st) := by
  by_cases htop : top = 0
  · have hwalk (d : ℕ) : walk K top v allocate d st = some (0, st) := by
      induction d with
      | zero => rw [walk, htop]
      | succ d ih =>
        rw [walk, ih]
        exact getNextLvl_null _ _ _
    rw [virtualToPtEntry, if_pos htop, hwalk]
    rfl
  · -- a null table is passed on by `get_next_lvl`, so the early returns change nothing
    have hlevel : levelOf pageSize =
        if pageSize = GiB1 then 1 else if pageSize = MiB2 then 2 else 3 := rfl
    rw [virtualToPtEntry, if_neg htop, hlevel]
    simp only [show tableIndex v 39 = idx v 0 from rfl, show tableIndex v 30 = idx v 1 from rfl,
      show tableIndex v 21 = idx v 2 from rfl, show tableIndex v 12 = idx v 3 from rfl]
    rcases h3 : getNextLvl K top (idx v 0) allocate st with _ | ⟨pml3, st3⟩
    · split_ifs <;> simp [walk, h3]
    · by_cases hz3 : pml3 = 0
      · subst hz3
        split_ifs <;> simp [walk, h3, getNextLvl_null]
      by_cases hG : pageSize = GiB1
      · simp [walk, h3, hz3, hG]
      simp only [Option.bind_some, hz3, hG, if_false]
      rcases h2 : getNextLvl K pml3 (idx v 1) allocate st3 with _ | ⟨pml2, st2⟩
      · split_ifs <;> simp [walk, h3, h2]
      · by_cases hz2 : pml2 = 0
        · subst hz2
          split_ifs <;> simp [walk, h3, h2, getNextLvl_null]
        by_cases hM : pageSize = MiB2
        · simp [walk, h3, h2, hz2, hM]
        simp only [Option.bind_some, hz2, hM, if_false]
        rcases h1 : getNextLvl K pml2 (idx v 2) allocate st2 with _ | ⟨pml1, st1⟩
        · simp [walk, h3, h2, h1]
        · by_cases hz1 : pml1 = 0 <;> simp [walk, h3, h2, h1, hz1]

/-- No leaf covers `v` above depth `level`. -/
def ClearAbove (K : Machine A) (mem : Mem) (top v level : ℕ) : Prop :=
  ∀ d < level, (slotOf K mem top (pathTo v d) (idx v d)).leaf? = none

instance (K : Machine A) (mem : Mem) (top v level : ℕ) : Decidable (ClearAbove K mem top v level) :=
  inferInstanceAs (Decidable (∀ d < level, (slotOf K mem top (pathTo v d) (idx v d)).leaf? = none))

namespace Skeleton

theorem walk (hs : Skeleton K top st) {v d : ℕ} (hd : d ≤ 3) (hc : ClearAbove K st.mem top v d)
    {allocate : Bool} (he : walk K top v allocate d st = some (t, st')) :
    Skeleton K top st' ∧ Walked K top (pathTo v d) st st' ∧
      ((t ≠ 0 ∧ nodeAt K st'.mem top (pathTo v d) = some t) ∨
        (t = 0 ∧ allocate = false ∧ nodeAt K st.mem top (pathTo v d) = none)) := by
  induction d generalizing t st' with
  | zero =>
    simp only [Paging.walk, Option.some.injEq, Prod.mk.injEq] at he
    obtain ⟨rfl, rfl⟩ := he
    exact ⟨hs, Walked.of_visited K top _ st fun _ hm => Or.inl hm,
      Or.inl ⟨(hs.addr _ hs.top_mem).pos, rfl⟩⟩
  | succ d ih =>
    obtain ⟨⟨s, st1⟩, h1, h2⟩ := Option.bind_eq_some_iff.mp he
    obtain ⟨hs1, hw1, hr1⟩ := ih (by omega) (fun k hk => hc k (by omega)) h1
    have hw1' := hw1.mono (List.suffix_cons (idx v d) (pathTo v d))
    rcases hr1 with ⟨-, hr1⟩ | ⟨rfl, hal, hr1⟩
    · obtain ⟨hs2, hw2, hr⟩ := hs1.next hr1 (by rw [length_pathTo]; omega)
        ((hw1.leaves _ _).trans (hc d (by omega))) h2
      refine ⟨hs2, hw1'.trans hw2, hr.imp_right fun ⟨h3, h4, h5⟩ => ⟨h3, h4, ?_⟩⟩
      by_contra hne
      obtain ⟨u, hu⟩ := Option.ne_none_iff_exists'.mp hne
      have hu1 := hw1.nodes _ _ hu
      rw [pathTo, h5] at hu1
      simp at hu1
    · simp only [getNextLvl_null, Option.some.injEq, Prod.mk.injEq] at h2
      obtain ⟨rfl, rfl⟩ := h2
      refine ⟨hs1, hw1', Or.inr ⟨rfl, hal, ?_⟩⟩
      rw [pathTo, nodeAt, descend]
      simp only [nodeAt] at hr1
      rw [hr1, Option.bind_none]

/-- `virtual_to_pt_entry` reaches the entry for `v` at the depth of the page size, unless it may
not allocate and there is no table. -/
theorem entry (hs : Skeleton K top st) {v pageSize : ℕ}
    (hc : ClearAbove K st.mem top v (levelOf pageSize)) {allocate : Bool} {e : Option (ℕ × ℕ)}
    (he : virtualToPtEntry K top v allocate pageSize st = some (e, st')) :
    Skeleton K top st' ∧ Walked K top (pathTo v (levelOf pageSize)) st st' ∧
      ((∃ t, e = some (t, idx v (levelOf pageSize)) ∧
          nodeAt K st'.mem top (pathTo v (levelOf pageSize)) = some t) ∨
        (e = none ∧ allocate = false ∧
          nodeAt K st.mem top (pathTo v (levelOf pageSize)) = none)) := by
  rw [virtualToPtEntry_eq] at he
  obtain ⟨⟨t, st1⟩, hw, heq⟩ := Option.map_eq_some_iff.mp he
  obtain ⟨hs1, hw1, hr⟩ := hs.walk (levelOf_bounds pageSize).2 hc hw
  rcases hr with ⟨hne, hn⟩ | ⟨rfl, hal, hn⟩
  · simp only [hne, if_false, Prod.mk.injEq] at heq
    obtain ⟨rfl, rfl⟩ := heq
    exact ⟨hs1, hw1, Or.inl ⟨t, rfl, hn⟩⟩
  · simp only [if_true, Prod.mk.injEq] at heq
    obtain ⟨rfl, rfl⟩ := heq
    exact ⟨hs1, hw1, Or.inr ⟨rfl, hal, hn⟩⟩

/-- Storing a word that is not a link into a table below the top keeps the tree. -/
theorem put (hs : Skeleton K top st) (hp : nodeAt K st.mem top p = some t) (hlen : 0 < p.length)
    {w : BitVec 64} (hw : (decode K.hhdm.offset p.length w).child? = none)
    (hz : p.length < 3 → w.getLsbD 0 = true ∨ w = 0#64) :
    Skeleton K top { st with mem := write st.mem t i w } := by
  have htop := hs.top_ne hp hlen
  refine ⟨hs.unshared.write_cut hp hw, fun q s hr => ?_, hs.owned, hs.addr,
    fun q s hr hlt j => ?_, fun j => ?_⟩
  · exact hs.closed q s (descend_write_cut hs.unshared hp hw hr)
  · have hr' : nodeAt K st.mem top q = some s := descend_write_cut hs.unshared hp hw hr
    dsimp only
    by_cases hsj : s = t ∧ j = i
    · rw [hsj.1] at hr'
      rw [hsj.1, hsj.2, write_self]
      exact hz (by rwa [← hs.unshared q p t hr' hp])
    · rw [write_of_ne hsj]
      exact hs.zero q s hr' hlt j
  · dsimp only
    rw [write_of_ne (fun h => htop h.1)]
    exact hs.topPlain j

end Skeleton

namespace Tables

theorem walk (ht : Tables K top st) {v d : ℕ} (hd : d ≤ 3) (hc : ClearAbove K st.mem top v d)
    {allocate : Bool} (he : walk K top v allocate d st = some (t, st')) :
    Tables K top st' ∧ Grows K top st st' ∧
      ((t ≠ 0 ∧ nodeAt K st'.mem top (pathTo v d) = some t) ∨
        (t = 0 ∧ allocate = false ∧ nodeAt K st.mem top (pathTo v d) = none)) := by
  obtain ⟨hs, hw, hr⟩ := ht.skeleton.walk hd hc he
  exact ⟨of_skeleton hs (hw.zero ht.zero), hw.toGrows, hr⟩

/-- `virtual_to_pt_entry` reaches the entry for `v` at the depth of the page size, unless it may
not allocate and there is no table. -/
theorem entry (ht : Tables K top st) {v pageSize : ℕ}
    (hc : ClearAbove K st.mem top v (levelOf pageSize)) {allocate : Bool} {e : Option (ℕ × ℕ)}
    (he : virtualToPtEntry K top v allocate pageSize st = some (e, st')) :
    Tables K top st' ∧ Grows K top st st' ∧
      ((∃ t, e = some (t, idx v (levelOf pageSize)) ∧
          nodeAt K st'.mem top (pathTo v (levelOf pageSize)) = some t) ∨
        (e = none ∧ allocate = false ∧
          nodeAt K st.mem top (pathTo v (levelOf pageSize)) = none)) := by
  obtain ⟨hs, hw, hr⟩ := ht.skeleton.entry hc he
  exact ⟨of_skeleton hs (hw.zero ht.zero), hw.toGrows, hr⟩

/-- Storing a word that is not a link into a table below the top keeps the tree. -/
theorem put (ht : Tables K top st) (hp : nodeAt K st.mem top p = some t) (hlen : 0 < p.length)
    {w : BitVec 64} (hw : (decode K.hhdm.offset p.length w).child? = none)
    (hz : w.getLsbD 0 = true ∨ w = 0#64) :
    Tables K top { st with mem := write st.mem t i w } := by
  refine of_skeleton (ht.skeleton.put hp hlen hw fun _ => hz) fun s hs j => ?_
  dsimp only
  by_cases hsj : s = t ∧ j = i
  · rw [hsj.1, hsj.2, write_self]
    exact hz
  · rw [write_of_ne hsj]
    exact ht.zero s hs j

end Tables

end IceKernel.Paging
