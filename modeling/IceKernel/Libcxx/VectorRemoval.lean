import IceKernel.Libcxx.VectorCalls
import Mathlib.Algebra.BigOperators.Group.Finset.Basic

/-!
# Slots between size and capacity

A call that removes elements leaves values behind in slots that no longer
count, and a later `resize(n)` shows what these hold.
-/

namespace IceKernel.Libcxx
open Word64 Slots Function

namespace StdVector

variable {T : Type}

/-- The slots from `size()` on. -/
def hidden (v : StdVector T) : List T := v.ptr.drop v.sz

/-- A value that no element has to keep: in a hidden slot, or in a buffer that no vector has. -/
def Stale (s : Vectors T) (x : T) : Prop :=
  (∃ v, x ∈ (s.vec v).hidden) ∨ ∃ buf ∈ s.leaked, x ∈ buf

/-- The last elements of a vector, as many as the call takes away. An assignment takes all. -/
def discarded (s : Vectors T) : Call T → List T
  | .op (.popBack v) | .op (.erase v _) => (s.vec v).elements.drop ((s.vec v).sz - 1)
  | .op (.eraseRange v first last) => (s.vec v).elements.drop ((s.vec v).sz - (last - first))
  | .op (.clear v) => (s.vec v).elements
  | .op (.resize v n _) | .resizeTo v n => (s.vec v).elements.drop n
  | .op (.moveAssign v other) | .copyAssign v other =>
    if v = other then [] else (s.vec v).elements
  | _ => []

/-- `use_count()` for vectors of `shared_ptr`, where `x` is a handle on an object: every handle in
a slot counts, and those held elsewhere. -/
def useCount [DecidableEq T] (live : Finset ℕ) (s : Vectors T) (elsewhere : T → ℕ) (x : T) : ℕ :=
  ∑ v ∈ live, (s.vec v).ptr.count x + s.leaked.flatten.count x + elsewhere x

/-- Removed elements are gone. A default value is a value-initialised one: for `shared_ptr`, no
handle. -/
structure Gone [Inhabited T] [DecidableEq T] (s : Vectors T) : Prop where
  overwritten : ∀ x, Stale s x → x = default
  counted : ∀ live elsewhere x, x ≠ default →
    useCount live s elsewhere x = ∑ v ∈ live, (s.vec v).elements.count x + elsewhere x
  exposed : ∀ v n, (s.vec v).sz ≤ n → n < 2 ^ 64 → ∃ s', callStep s (.resizeTo v n) = some s' ∧
    (s'.vec v).elements = (s.vec v).elements ++ List.replicate (n - (s.vec v).sz) default

/-! ## What a call leaves in one vector -/

/-- From `v` to `v'` the values `d` become hidden, and otherwise only default values. -/
structure Leaves [Inhabited T] (v v' : StdVector T) (d : List T) : Prop where
  hidden : ∀ x ∈ v'.hidden, x ∈ v.hidden ∨ x = default ∨ x ∈ d
  left : ∀ x ∈ d, x ∈ v'.hidden

section Members

variable [Inhabited T] {v v' : StdVector T} {l : List T}

theorem mem_newArray_drop {n k : ℕ} {x : T} (h : x ∈ (newArray n).drop k) : x = default :=
  List.eq_of_mem_replicate (List.mem_of_mem_drop h)

omit [Inhabited T] in
/-- The slots from the `k`-th on are the elements from there on, and the hidden ones. -/
theorem Holds.mem_drop_iff (h : Holds v l) {k : ℕ} (hk : k ≤ v.sz) {x : T} :
    x ∈ v.ptr.drop k ↔ x ∈ v.elements.drop k ∨ x ∈ v.hidden := by
  have hlen : v.elements.length = v.sz := by rw [h.elements_eq, h.size]
  have hsplit : v.ptr = v.elements ++ v.hidden := (List.take_append_drop _ _).symm
  have hzero : k - v.elements.length = 0 := by omega
  rw [hsplit, List.drop_append, hzero, List.drop_zero, List.mem_append]

/-- What becomes smaller leaves its last elements. -/
theorem Holds.leaves_shrunk (h : Holds v l) (hk : v'.sz ≤ v.sz)
    (hptr : v'.ptr.drop v'.sz = v.ptr.drop v'.sz) : Leaves v v' (v.elements.drop v'.sz) := by
  have hmem (x : T) : x ∈ v'.hidden ↔ x ∈ v.elements.drop v'.sz ∨ x ∈ v.hidden := by
    rw [hidden, hptr, h.mem_drop_iff hk]
  refine ⟨fun x hx => ?_, fun x hx => (hmem x).mpr (.inl hx)⟩
  obtain hd | hh := (hmem x).mp hx
  · exact .inr (.inr hd)
  · exact .inl hh

theorem leaves_of_nil (hd : v'.hidden = []) : Leaves v v' [] :=
  ⟨fun x hx => by simp [hd] at hx, fun x hx => absurd hx List.not_mem_nil⟩

theorem Leaves.self (v : StdVector T) : Leaves v v [] :=
  ⟨fun _ hx => .inl hx, fun _ hx => absurd hx List.not_mem_nil⟩

/-- What becomes larger hides nothing new. -/
theorem Leaves.grown {w : StdVector T} (h : Leaves v w []) (hk : w.sz ≤ v'.sz)
    (hptr : v'.ptr.drop v'.sz = w.ptr.drop v'.sz) : Leaves v v' [] := by
  refine ⟨fun x hx => h.hidden x ?_, fun x hx => absurd hx List.not_mem_nil⟩
  rw [StdVector.hidden, hptr] at hx
  have hle : v'.sz = w.sz + (v'.sz - w.sz) := by omega
  rw [hle, ← List.drop_drop] at hx
  exact List.mem_of_mem_drop hx

theorem reserve_leaves {n : ℕ} (hr : reserve n v = some v') : Leaves v v' [] ∧ v'.sz = v.sz := by
  rw [reserve] at hr
  split at hr
  · obtain ⟨ptr, hcopy, rfl⟩ := Option.map_eq_some_iff.mp hr
    refine ⟨⟨fun x hx => .inr (.inl ?_), fun x hx => absurd hx List.not_mem_nil⟩, rfl⟩
    rw [hidden, copy_drop hcopy (by simp)] at hx
    exact mem_newArray_drop hx
  · obtain rfl := Option.some.inj hr
    exact ⟨Leaves.self v, rfl⟩

theorem grow_leaves (hr : grow v = some v') : Leaves v v' [] ∧ v'.sz = v.sz := by
  rw [grow] at hr
  split at hr
  · exact reserve_leaves hr
  · obtain rfl := Option.some.inj hr
    exact ⟨Leaves.self v, rfl⟩

theorem shrinkToFit_leaves (hr : shrinkToFit v = some v') : Leaves v v' [] := by
  rw [shrinkToFit] at hr
  split at hr
  · obtain ⟨ptr, hcopy, rfl⟩ := Option.map_eq_some_iff.mp hr
    refine leaves_of_nil ?_
    rw [hidden, copy_drop hcopy (by simp), newArray]
    simp
  · obtain rfl := Option.some.inj hr
    exact Leaves.self v

theorem Holds.pushBack_leaves (h : Holds v l) (hcap : v.cap < 2 ^ 64) (hroom : CanGrow v) {x : T}
    (hr : StdVector.pushBack x v = some v') : Leaves v v' [] := by
  obtain ⟨w, -, -, hgrow, hw, -, hcap', hlt⟩ := h.grow hcap hroom
  obtain ⟨hleaves, -⟩ := grow_leaves hgrow
  rw [StdVector.pushBack, hgrow, Option.bind_some] at hr
  obtain ⟨ptr, hstore, rfl⟩ := Option.map_eq_some_iff.mp hr
  have hsz : wrap (w.sz + 1) = w.sz + 1 := wrap_of_lt (by rw [hw.size]; omega)
  exact hleaves.grown (by simp [hsz]) (store_drop hstore (by simp [hsz]))

theorem Holds.insert_leaves (h : Holds v l) (hcap : v.cap < 2 ^ 64) (hroom : CanGrow v) {pos : ℕ}
    (hpos : pos ≤ l.length) {x : T} {r : ℕ × StdVector T}
    (hr : StdVector.insert pos x v = some r) : Leaves v r.2 [] := by
  obtain ⟨w, -, -, hgrow, hw, -, hcap', hlt⟩ := h.grow hcap hroom
  obtain ⟨hleaves, -⟩ := grow_leaves hgrow
  have hsize := hw.size
  rw [StdVector.insert, hgrow, Option.bind_some] at hr
  obtain ⟨ptr, hmove, hr⟩ := Option.bind_eq_some_iff.mp hr
  obtain ⟨ptr', hstore, rfl⟩ := Option.map_eq_some_iff.mp hr
  have hsz : wrap (w.sz + 1) = w.sz + 1 := wrap_of_lt (by omega)
  refine hleaves.grown (by simp [hsz]) ?_
  simp only [hsz]
  rw [store_drop hstore (by omega), moveUp_drop hmove (Nat.lt_succ_self _)]

theorem Holds.insertRange_leaves (h : Holds v l) (hcap : v.cap < 2 ^ 64) {fuel pos : ℕ}
    {src : List T} (hpos : pos ≤ l.length) (hfit : v.sz + src.length < 2 ^ 64)
    (hne : pos + src.length ≠ 0) {r : ℕ × StdVector T}
    (hr : StdVector.insertRange fuel pos src v = some r) : Leaves v r.2 [] := by
  obtain ⟨w, -, -, hroom, hw, -, -, hcap'⟩ := h.makeRoom hcap hfit
  have hsize := h.size
  have hsize' := hw.size
  have hleaves : Leaves v w [] := by
    split at hroom
    · exact (reserve_leaves hroom).1
    · obtain rfl := Option.some.inj hroom
      exact Leaves.self v
  rw [StdVector.insertRange] at hr
  simp only [hroom, Option.bind_some] at hr
  obtain ⟨ptr, hshift, hr⟩ := Option.bind_eq_some_iff.mp hr
  obtain ⟨ptr', hwrite, rfl⟩ := Option.map_eq_some_iff.mp hr
  rw [wrap_of_lt (by omega), wrap_of_lt (by omega), sub_of_le (by omega) (by omega)] at hshift
  have hsz : wrap (w.sz + src.length) = w.sz + src.length := wrap_of_lt (by omega)
  refine hleaves.grown (by simp [hsz]) ?_
  simp only [hsz]
  rw [writeRange_drop hwrite (by omega),
    shiftUp_drop (by omega) (by omega) hshift (by omega)]

theorem Holds.resize_leaves (h : Holds v l) {n : ℕ} {x : T}
    (hr : StdVector.resize n x v = some v') : Leaves v v' (v.elements.drop n) := by
  have hle := h.size_le
  have hlen : v.elements.length = v.sz := by rw [h.elements_eq, h.size]
  rw [StdVector.resize, reserve_of_test] at hr
  obtain ⟨w, hres, hr⟩ := Option.bind_eq_some_iff.mp hr
  obtain ⟨hleaves, hsz⟩ := reserve_leaves hres
  obtain ⟨ptr, hfill, rfl⟩ := Option.map_eq_some_iff.mp hr
  by_cases hn : n > w.sz
  · rw [if_pos hn] at hfill
    have hnil : v.elements.drop n = [] := List.drop_eq_nil_of_le (by omega)
    rw [hnil]
    exact hleaves.grown (by simpa using hn.le) (fill_drop hfill (by simp; omega))
  · rw [if_neg hn] at hfill
    obtain rfl := Option.some.inj hfill
    obtain rfl : w = v := eq_of_reserve hres (by omega)
    have hk : { w with sz := n }.sz ≤ w.sz := by simpa using hn
    exact h.leaves_shrunk hk rfl

theorem Holds.resizeTo_leaves (h : Holds v l) {n : ℕ}
    (hr : StdVector.resizeTo n v = some v') : Leaves v v' (v.elements.drop n) := by
  have hle := h.size_le
  have hlen : v.elements.length = v.sz := by rw [h.elements_eq, h.size]
  rw [StdVector.resizeTo, reserve_of_test] at hr
  obtain ⟨w, hres, rfl⟩ := Option.map_eq_some_iff.mp hr
  obtain ⟨hleaves, hsz⟩ := reserve_leaves hres
  by_cases hn : n > w.sz
  · have hnil : v.elements.drop n = [] := List.drop_eq_nil_of_le (by omega)
    rw [hnil]
    exact hleaves.grown (by simpa using hn.le) rfl
  · obtain rfl : w = v := eq_of_reserve hres (by omega)
    have hk : { w with sz := n }.sz ≤ w.sz := by simpa using hn
    exact h.leaves_shrunk hk rfl

theorem Holds.eraseRange_leaves (h : Holds v l) (hcap : v.cap < 2 ^ 64) {first last : ℕ}
    (hfirst : first ≤ last) (hlast : last ≤ l.length) {r : ℕ × StdVector T}
    (hr : StdVector.eraseRange first last v = some r) :
    Leaves v r.2 (v.elements.drop (v.sz - (last - first))) := by
  have hle := h.size_le
  have hsize := h.size
  have hn : sub last first = last - first := sub_of_le hfirst (by omega)
  have hsz : sub v.sz (last - first) = v.sz - (last - first) := sub_of_le (by omega) (by omega)
  rw [StdVector.eraseRange] at hr
  simp only [hn, hsz] at hr
  obtain ⟨ptr, hmove, rfl⟩ := Option.map_eq_some_iff.mp hr
  have hk : { v with ptr := ptr, sz := v.sz - (last - first) }.sz ≤ v.sz := Nat.sub_le _ _
  exact h.leaves_shrunk hk (moveDown_drop hmove (by simp; omega))

theorem Holds.popBack_leaves (h : Holds v l) (hcap : v.cap < 2 ^ 64) (hne : v.sz ≠ 0) :
    Leaves v v.popBack (v.elements.drop (v.sz - 1)) := by
  have hle := h.size_le
  have hsz : v.popBack.sz = v.sz - 1 := by
    rw [StdVector.popBack, sub_of_le (by omega) (by omega)]
  have hptr : v.popBack.ptr = v.ptr := by rw [StdVector.popBack]
  have hk : v.popBack.sz ≤ v.sz := by omega
  have hleaves := h.leaves_shrunk hk (by rw [hptr])
  rwa [hsz] at hleaves

theorem Holds.clear_leaves (h : Holds v l) : Leaves v v.clear v.elements := by
  have hk : v.clear.sz ≤ v.sz := Nat.zero_le _
  exact h.leaves_shrunk hk rfl

end Members

/-! ## What a call leaves in all buffers -/

section Calls

variable [Inhabited T] {s s' : Vectors T} {c : Call T} {v : ℕ} {x : StdVector T} {d : List T}

/-- From `s` to `s'` the values `d` become stale, and otherwise only default values. -/
structure Discards (s s' : Vectors T) (d : List T) : Prop where
  stale : ∀ x, Stale s' x → Stale s x ∨ x = default ∨ x ∈ d
  left : ∀ x ∈ d, Stale s' x

/-- A call that changes one vector. -/
theorem Leaves.discards (h : Leaves (s.vec v) x d) :
    Discards s ⟨update s.vec v x, s.leaked⟩ d := by
  refine ⟨fun y hy => ?_, fun y hy => .inl ⟨v, ?_⟩⟩
  · obtain ⟨u, hu⟩ | hleak := hy
    · by_cases huv : u = v
      · subst huv
        simp only [update_self] at hu
        exact (h.hidden y hu).imp (fun hy => .inl ⟨u, hy⟩) id
      · simp only [update_of_ne huv] at hu
        exact .inl (.inl ⟨u, hu⟩)
    · exact .inl (.inr hleak)
  · simpa using h.left y hy

omit [Inhabited T] in
theorem hidden_of_full {x : StdVector T} (h : x.ptr.length ≤ x.sz) : x.hidden = [] :=
  List.drop_eq_nil_of_le h

/-- The new vector has the other's hidden slots, and the other none. -/
theorem discards_move (s : Vectors T) (v other : ℕ) :
    Discards s ⟨update (update s.vec v (s.vec other)) other ⟨[], 0, 0⟩, s.leaked⟩ [] := by
  refine ⟨fun y hy => .inl ?_, fun y hy => absurd hy List.not_mem_nil⟩
  obtain ⟨u, hu⟩ | hleak := hy
  · by_cases huo : u = other
    · subst huo
      simp [hidden] at hu
    · by_cases huv : u = v
      · subst huv
        simp only [update_of_ne huo, update_self] at hu
        exact .inl ⟨other, hu⟩
      · simp only [update_of_ne huo, update_of_ne huv] at hu
        exact .inl ⟨u, hu⟩
  · exact .inr hleak

/-- An assignment leaves the whole old buffer behind. -/
theorem Discards.leak {vec : ℕ → StdVector T} (h : Discards s ⟨vec, s.leaked⟩ []) (v : ℕ) :
    Discards s ⟨vec, (s.vec v).ptr :: s.leaked⟩ (s.vec v).elements := by
  have hsplit : (s.vec v).ptr = (s.vec v).elements ++ (s.vec v).hidden :=
    (List.take_append_drop _ _).symm
  refine ⟨fun y hy => ?_, fun y hy => .inr ⟨_, List.mem_cons_self, ?_⟩⟩
  · obtain hu | ⟨buf, hbuf, hy⟩ := hy
    · exact (h.stale y (.inl hu)).imp id (.imp id fun hy => absurd hy List.not_mem_nil)
    · obtain rfl | hbuf := List.mem_cons.mp hbuf
      · rw [hsplit, List.mem_append] at hy
        obtain hy | hy := hy
        · exact .inr (.inr hy)
        · exact .inl (.inl ⟨v, hy⟩)
      · exact .inl (.inr ⟨buf, hbuf, hy⟩)
  · rw [hsplit]
    exact List.mem_append_left _ hy

theorem discards_self (s : Vectors T) : Discards s s [] :=
  ⟨fun _ hx => .inl hx, fun _ hx => absurd hx List.not_mem_nil⟩

theorem discards_op (hs : Sound s.vec) {o : Op T} (hvalid : Valid s.vec o)
    (h : callStep s (.op o) = some s') : Discards s s' (discarded s (.op o)) := by
  obtain ⟨vec, hvec, rfl⟩ := Option.map_eq_some_iff.mp h
  cases o with
  | construct v =>
    obtain rfl := Option.some.inj hvec
    exact (leaves_of_nil rfl).discards
  | constructN v n val =>
    obtain ⟨x, hx, rfl⟩ := Option.map_eq_some_iff.mp hvec
    obtain ⟨ptr, hfill, rfl⟩ := Option.map_eq_some_iff.mp hx
    refine (leaves_of_nil ?_).discards
    rw [hidden, fill_drop hfill (by simp)]
    simp [newArray]
  | moveConstruct v other =>
    obtain rfl := Option.some.inj hvec
    exact discards_move s v other
  | moveAssign v other =>
    by_cases hself : v = other
    · rw [callVec, step, if_pos hself] at hvec
      obtain rfl := Option.some.inj hvec
      simpa [abandoned, discarded, hself] using discards_self s
    · rw [callVec, step, if_neg hself] at hvec
      obtain rfl := Option.some.inj hvec
      simpa [abandoned, discarded, hself, moveAssign] using (discards_move s v other).leak v
  | reserve v n =>
    obtain ⟨x, hx, rfl⟩ := Option.map_eq_some_iff.mp hvec
    exact (reserve_leaves hx).1.discards
  | shrinkToFit v =>
    obtain ⟨x, hx, rfl⟩ := Option.map_eq_some_iff.mp hvec
    exact (shrinkToFit_leaves hx).discards
  | resize v n val =>
    obtain ⟨x, hx, rfl⟩ := Option.map_eq_some_iff.mp hvec
    exact ((hs.holds v).1.resize_leaves hx).discards
  | pushBack v val =>
    obtain ⟨hh, hcap⟩ := hs.holds v
    obtain ⟨x, hx, rfl⟩ := Option.map_eq_some_iff.mp hvec
    exact (hh.pushBack_leaves hcap hvalid hx).discards
  | emplaceBack v val =>
    obtain ⟨hh, hcap⟩ := hs.holds v
    obtain ⟨r, hr, rfl⟩ := Option.map_eq_some_iff.mp hvec
    obtain ⟨x, hx, rfl⟩ := Option.map_eq_some_iff.mp hr
    exact (hh.pushBack_leaves hcap hvalid hx).discards
  | popBack v =>
    obtain ⟨hh, hcap⟩ := hs.holds v
    obtain rfl := Option.some.inj hvec
    exact (hh.popBack_leaves hcap hvalid).discards
  | clear v =>
    obtain rfl := Option.some.inj hvec
    exact (hs.holds v).1.clear_leaves.discards
  | insert v pos val =>
    obtain ⟨hh, hcap⟩ := hs.holds v
    obtain ⟨r, hr, rfl⟩ := Option.map_eq_some_iff.mp hvec
    exact (hh.insert_leaves hcap hvalid.2 (hh.size ▸ hvalid.1) hr).discards
  | erase v pos =>
    obtain ⟨hh, hcap⟩ := hs.holds v
    obtain ⟨r, hr, rfl⟩ := Option.map_eq_some_iff.mp hvec
    have hpos : pos < (s.vec v).elements.length := hh.size ▸ hvalid
    have hleaves := hh.eraseRange_leaves hcap (Nat.le_succ pos) hpos hr
    have hone : pos.succ - pos = 1 := by omega
    rw [hone] at hleaves
    exact hleaves.discards
  | eraseRange v first last =>
    obtain ⟨hh, hcap⟩ := hs.holds v
    obtain ⟨r, hr, rfl⟩ := Option.map_eq_some_iff.mp hvec
    exact (hh.eraseRange_leaves hcap hvalid.1 (hh.size ▸ hvalid.2) hr).discards

/-- Exactly what a call takes away becomes stale. -/
theorem discards_callStep (hs : Sound s.vec) (hvalid : CallValid s c)
    (h : callStep s c = some s') : Discards s s' (discarded s c) := by
  cases c with
  | op o => exact discards_op hs hvalid h
  | constructSized v n =>
    obtain ⟨vec, hvec, rfl⟩ := Option.map_eq_some_iff.mp h
    obtain rfl := Option.some.inj hvec
    exact (leaves_of_nil (hidden_of_full (by simp [constructSized, newArray]))).discards
  | constructRange v src =>
    obtain ⟨vec, hvec, rfl⟩ := Option.map_eq_some_iff.mp h
    obtain ⟨x, hx, rfl⟩ := Option.map_eq_some_iff.mp hvec
    obtain ⟨ptr, hwrite, rfl⟩ := Option.map_eq_some_iff.mp hx
    refine (leaves_of_nil ?_).discards
    rw [hidden, writeRange_drop hwrite (by simp)]
    simp [newArray]
  | copyConstruct v other =>
    obtain ⟨vec, hvec, rfl⟩ := Option.map_eq_some_iff.mp h
    obtain ⟨x, hx, rfl⟩ := Option.map_eq_some_iff.mp hvec
    rw [(hs.holds other).1.copyConstruct] at hx
    obtain rfl := Option.some.inj hx
    exact (leaves_of_nil (hidden_of_full (hs.holds other).1.size.ge)).discards
  | copyAssign v other =>
    obtain ⟨vec, hvec, rfl⟩ := Option.map_eq_some_iff.mp h
    by_cases hself : v = other
    · rw [callVec, if_pos hself] at hvec
      obtain rfl := Option.some.inj hvec
      simpa [abandoned, discarded, hself] using discards_self s
    · rw [callVec, if_neg hself] at hvec
      obtain ⟨x, hx, rfl⟩ := Option.map_eq_some_iff.mp hvec
      have hcopy : copyAssign (s.vec v) (s.vec other) = some _ := (hs.holds other).1.copyConstruct
      obtain rfl := Option.some.inj (hcopy.symm.trans hx)
      have hleaves : Leaves (s.vec v) ⟨(s.vec other).elements, (s.vec other).sz, (s.vec other).cap⟩ [] :=
        leaves_of_nil (hidden_of_full (hs.holds other).1.size.ge)
      simpa [abandoned, discarded, hself] using hleaves.discards.leak v
  | resizeTo v n =>
    obtain ⟨vec, hvec, rfl⟩ := Option.map_eq_some_iff.mp h
    obtain ⟨x, hx, rfl⟩ := Option.map_eq_some_iff.mp hvec
    exact ((hs.holds v).1.resizeTo_leaves hx).discards
  | insertRange v pos src =>
    obtain ⟨hh, hcap⟩ := hs.holds v
    obtain ⟨vec, hvec, rfl⟩ := Option.map_eq_some_iff.mp h
    obtain ⟨r, hr, rfl⟩ := Option.map_eq_some_iff.mp hvec
    exact (hh.insertRange_leaves hcap (hh.size ▸ hvalid.1) hvalid.2.1 hvalid.2.2 hr).discards

end Calls

/-! ## Histories -/

section Histories

variable [Inhabited T] [DecidableEq T] {s : Vectors T}

omit [DecidableEq T] in
/-- Growing shows default values if nothing else is hidden. -/
theorem Holds.resizeTo_elements {v : StdVector T} {l : List T} (h : Holds v l) {n : ℕ}
    (hn : v.sz ≤ n) (hdefault : ∀ x ∈ v.hidden, x = default) :
    ∃ v', StdVector.resizeTo n v = some v' ∧
      v'.elements = v.elements ++ List.replicate (n - v.sz) default := by
  obtain ⟨w, hres, hw, hcap, -, -⟩ := h.reserve n
  obtain ⟨rest, hptr⟩ := hw.slots
  have hsize := h.size
  have hlen : l.length + rest.length = w.cap := by rw [← hw.capacity, hptr, List.length_append]
  have hrest : ∀ x ∈ rest, x = default := by
    intro x hx
    have hhidden : x ∈ w.hidden := by
      rw [hidden, hw.size, hptr, List.drop_left]
      exact hx
    obtain hv | hd | hnil := (reserve_leaves hres).1.hidden x hhidden
    · exact hdefault x hv
    · exact hd
    · exact absurd hnil List.not_mem_nil
  have htake : rest.take (n - l.length) = List.replicate (n - l.length) default :=
    List.eq_replicate_iff.mpr ⟨List.length_take_of_le (by omega),
      fun x hx => hrest x (List.mem_of_mem_take hx)⟩
  refine ⟨{ w with sz := n }, ?_, ?_⟩
  · rw [StdVector.resizeTo, reserve_of_test, hres, Option.map_some]
  · have htaken : (l ++ rest).take n = l ++ rest.take (n - l.length) := by
      rw [List.take_append, List.take_of_length_le (by omega)]
    rw [h.elements_eq, hsize, ← htake, ← htaken, ← hptr]
    rfl

/-- Removed elements are gone if nothing but default values is stale. -/
theorem gone_iff (hs : Sound s.vec) : Gone s ↔ ∀ x, Stale s x → x = default := by
  refine ⟨fun h => h.overwritten, fun hclean => ⟨hclean, fun live elsewhere x hx => ?_,
    fun v n hn hword => ?_⟩⟩
  · have hvec (v : ℕ) : (s.vec v).ptr.count x = (s.vec v).elements.count x := by
      have hsplit : (s.vec v).ptr = (s.vec v).elements ++ (s.vec v).hidden :=
        (List.take_append_drop _ _).symm
      have hzero : (s.vec v).hidden.count x = 0 :=
        List.count_eq_zero.mpr fun hmem => hx (hclean x (.inl ⟨v, hmem⟩))
      rw [hsplit, List.count_append, hzero, Nat.add_zero]
    have hleaked : s.leaked.flatten.count x = 0 :=
      List.count_eq_zero.mpr fun hmem => hx (hclean x (.inr (List.mem_flatten.mp hmem)))
    rw [useCount, hleaked, Nat.add_zero]
    exact congrArg (· + _) (Finset.sum_congr rfl fun v _ => hvec v)
  · obtain ⟨x, hx, helements⟩ :=
      (hs.holds v).1.resizeTo_elements hn fun x hx => hclean x (.inl ⟨v, hx⟩)
    refine ⟨⟨update s.vec v x, s.leaked⟩, ?_, by simpa using helements⟩
    rw [callStep, callVec, hx]
    rfl

/-- One call on vectors whose removed elements are gone. -/
theorem gone_callStep_iff (hs : Sound s.vec) (hclean : ∀ x, Stale s x → x = default) {c : Call T}
    (hvalid : CallValid s c) (hfull : FullSource s c) {s' : Vectors T}
    (h : callStep s c = some s') : Gone s' ↔ ∀ x ∈ discarded s c, x = default := by
  obtain ⟨t, ht, hsound⟩ := hs.callStep hvalid hfull
  obtain rfl := Option.some.inj (ht.symm.trans h)
  have hdiscards := discards_callStep hs hvalid h
  rw [gone_iff hsound]
  refine ⟨fun hall x hx => hall x (hdiscards.left x hx), fun hd x hx => ?_⟩
  obtain hstale | hdefault | hmem := hdiscards.stale x hx
  · exact hclean x hstale
  · exact hdefault
  · exact hd x hmem

theorem along_gone_iff (hs : Sound s.vec) (hclean : ∀ x, Stale s x → x = default)
    {calls : List (Call T)}
    (hvalid : Run.Along callStep (fun s c => CallValid s c ∧ FullSource s c) s calls) :
    Run.Along callStep (fun s c => ∀ s', callStep s c = some s' → Gone s') s calls ↔
      Run.Along callStep (fun s c => ∀ x ∈ discarded s c, x = default) s calls := by
  induction calls generalizing s with
  | nil => exact Iff.rfl
  | cons c calls ih =>
    obtain ⟨⟨hcall, hfull⟩, hrest⟩ := hvalid
    obtain ⟨s', hs', hsound⟩ := hs.callStep hcall hfull
    have hgone := gone_callStep_iff hs hclean hcall hfull hs'
    have hnext (t : Vectors T) (ht : callStep s c = some t) : t = s' :=
      Option.some.inj (ht.symm.trans hs')
    constructor
    · rintro ⟨hfirst, hlater⟩
      have hg := hfirst s' hs'
      refine ⟨hgone.mp hg, fun t ht => ?_⟩
      obtain rfl := hnext t ht
      exact (ih hsound hg.overwritten (hrest t ht)).mp (hlater t ht)
    · rintro ⟨hfirst, hlater⟩
      have hg := hgone.mpr hfirst
      refine ⟨fun t ht => by rwa [hnext t ht], fun t ht => ?_⟩
      obtain rfl := hnext t ht
      exact (ih hsound hg.overwritten (hrest t ht)).mpr (hlater t ht)

/-- In a history, removed elements are always gone if and only if every call takes away default
values only. -/
theorem run_gone_iff {calls : List (Call T)}
    (hvalid : Run.Along callStep (fun s c => CallValid s c ∧ FullSource s c) Vectors.init calls) :
    Run.Along callStep (fun s c => ∀ s', callStep s c = some s' → Gone s') Vectors.init calls ↔
      Run.Along callStep (fun s c => ∀ x ∈ discarded s c, x = default) Vectors.init calls := by
  refine along_gone_iff sound_init (fun x hx => ?_) hvalid
  obtain ⟨v, hv⟩ | ⟨buf, hbuf, -⟩ := hx
  · simp [Vectors.init, hidden] at hv
  · simp [Vectors.init] at hbuf

end Histories

/-- An element is reset before it is removed. -/
theorem run_gone_iff_reset :
    let calls : List (Call (Option ℕ)) :=
      [.op (.pushBack 0 (some 7)), .op (.pushBack 0 none), .op (.popBack 0), .resizeTo 0 2]
    Run.Along callStep (fun s c => CallValid s c ∧ FullSource s c) Vectors.init calls ∧
      (Run.Along callStep (fun s c => ∀ s', callStep s c = some s' → Gone s') Vectors.init calls ↔
        Run.Along callStep (fun s c => ∀ x ∈ discarded s c, x = default) Vectors.init calls) :=
  ⟨by decide, run_gone_iff (by decide)⟩

/-- A handle that `pop_back` removed still counts, and `resize(1)` shows it again. -/
theorem popBack_not_gone :
    ∃ s : Vectors (Option ℕ), Run.run callStep Vectors.init
        [.op (.pushBack 0 (some 7)), .op (.popBack 0)] = some s ∧ ¬ Gone s ∧
      useCount {0} s (fun _ => 0) (some 7) = 1 ∧ (s.vec 0).elements = [] ∧
      ∃ s', callStep s (.resizeTo 0 1) = some s' ∧ (s'.vec 0).elements = [some 7] := by
  refine ⟨_, rfl, fun hgone => ?_, by decide, rfl, _, rfl, rfl⟩
  have hstale := hgone.overwritten (some 7) (.inl ⟨0, by decide⟩)
  exact absurd hstale (by decide)

end StdVector

end IceKernel.Libcxx
