import IceKernel.Lib.Run
import IceKernel.Lib.Slots
import IceKernel.Lib.Word64

/-!
# `libs/libc++/vector`

The buffer is the list of its slots. Positions are indices, as the source
computes them from `__ptr`; arguments are values, not references into the
buffer. Elements are moved by value, so nothing is said of what a move leaves
behind in a slot that is given up.
-/

namespace IceKernel.Libcxx
open Word64 Slots Function

/-- `std::__vector`; the slots of `nullptr` are none. -/
structure StdVector (T : Type) where
  ptr : List T
  sz : ℕ
  cap : ℕ

namespace StdVector

variable {T : Type}

section Operations

variable [Inhabited T]

/-- `new value_type[n]`. -/
def newArray (n : ℕ) : List T := List.replicate n default

/-- The constructor of an empty vector. -/
def empty : StdVector T := ⟨[], 0, 0⟩

/-- The constructor of `n` copies of `val`. -/
def constructN (n : ℕ) (val : T) : Option (StdVector T) :=
  (fill val n 0 (newArray n)).map fun ptr => ⟨ptr, n, n⟩

/-- The move constructor: the new vector, and what `other` becomes. -/
def moveConstruct (other : StdVector T) : StdVector T × StdVector T := (other, ⟨[], 0, 0⟩)

/-- The move assignment from another vector. The old buffer of this one is not deleted. -/
def moveAssign (_this other : StdVector T) : StdVector T × StdVector T := (other, ⟨[], 0, 0⟩)

/-- `reserve`. -/
def reserve (n : ℕ) (v : StdVector T) : Option (StdVector T) :=
  if n > v.cap then
    (copy v.ptr v.sz 0 (newArray n)).map fun newPtr => { v with ptr := newPtr, cap := n }
  else some v

/-- `shrink_to_fit`. -/
def shrinkToFit (v : StdVector T) : Option (StdVector T) :=
  if v.sz < v.cap then
    (copy v.ptr v.sz 0 (newArray v.sz)).map fun newPtr => { v with ptr := newPtr, cap := v.sz }
  else some v

/-- `resize(n, val)`. -/
def resize (n : ℕ) (val : T) (v : StdVector T) : Option (StdVector T) :=
  (if n > v.cap then reserve n v else some v).bind fun v =>
    (if n > v.sz then fill val (n - v.sz) v.sz v.ptr else some v.ptr).map fun ptr =>
      { v with ptr := ptr, sz := n }

/-- How `emplace_back`, `push_back` and `insert` make room for one more element. -/
def grow (v : StdVector T) : Option (StdVector T) :=
  if v.sz = v.cap then reserve (if v.cap = 0 then 1 else wrap (v.cap * 2)) v else some v

/-- `push_back`, both overloads. -/
def pushBack (val : T) (v : StdVector T) : Option (StdVector T) :=
  (grow v).bind fun v => (store v.ptr v.sz val).map fun ptr =>
    { v with ptr := ptr, sz := wrap (v.sz + 1) }

/-- `emplace_back`, with the value constructed from the arguments. It returns the last index. -/
def emplaceBack (val : T) (v : StdVector T) : Option (ℕ × StdVector T) :=
  (pushBack val v).map fun v => (sub v.sz 1, v)

/-- `pop_back`. -/
def popBack (v : StdVector T) : StdVector T := { v with sz := sub v.sz 1 }

/-- `clear`. -/
def clear (v : StdVector T) : StdVector T := { v with sz := 0 }

/-- `insert(pos, val)` for one value. It returns the position. -/
def insert (pos : ℕ) (val : T) (v : StdVector T) : Option (ℕ × StdVector T) :=
  (grow v).bind fun v =>
    (moveUp (v.sz - pos) v.sz v.ptr).bind fun ptr => (store ptr pos val).map fun ptr =>
      (pos, { v with ptr := ptr, sz := wrap (v.sz + 1) })

/-- `erase(first, last)`. It returns the position of `first`. -/
def eraseRange (first last : ℕ) (v : StdVector T) : Option (ℕ × StdVector T) :=
  let n := sub last first
  (moveDown n (sub v.sz n - first) first v.ptr).map fun ptr =>
    (first, { v with ptr := ptr, sz := sub v.sz n })

/-- `erase(pos)`. -/
def erase (pos : ℕ) (v : StdVector T) : Option (ℕ × StdVector T) := eraseRange pos (pos + 1) v

end Operations

/-! ## One vector -/

/-- The vector holds `l`, in a buffer with as many slots as its capacity. -/
structure Holds (v : StdVector T) (l : List T) : Prop where
  slots : ∃ rest, v.ptr = l ++ rest
  size : v.sz = l.length
  capacity : v.ptr.length = v.cap

variable {v v' : StdVector T} {l : List T}

theorem Holds.size_le (h : Holds v l) : v.sz ≤ v.cap := by
  obtain ⟨rest, hptr⟩ := h.slots
  rw [h.size, ← h.capacity, hptr, List.length_append]
  omega

/-- `[0, size())`. -/
def elements (v : StdVector T) : List T := v.ptr.take v.sz

theorem Holds.elements_eq (h : Holds v l) : v.elements = l := by
  obtain ⟨rest, hptr⟩ := h.slots
  rw [elements, h.size, hptr, List.take_left]

theorem holds_empty : Holds (empty : StdVector T) [] := ⟨⟨[], rfl⟩, rfl, rfl⟩

@[simp] theorem popBack_cap (v : StdVector T) : v.popBack.cap = v.cap := by rw [popBack]

theorem Holds.popBack (h : Holds v l) (hcap : v.cap < 2 ^ 64) (hne : l ≠ []) :
    Holds v.popBack l.dropLast := by
  have hle := h.size_le
  have hsize := h.size
  have hpos : 1 ≤ l.length := List.length_pos_iff.mpr hne
  obtain ⟨rest, hptr⟩ := h.slots
  refine ⟨⟨l.getLast hne :: rest, ?_⟩, ?_, ?_⟩
  · rw [StdVector.popBack, hptr, append_snoc, List.dropLast_concat_getLast]
  · have hlt : l.length < 2 ^ 64 := by omega
    calc v.popBack.sz = sub l.length 1 := congrArg (sub · 1) hsize
      _ = l.length - 1 := sub_of_le hpos hlt
      _ = l.dropLast.length := List.length_dropLast.symm
  · rw [StdVector.popBack, h.capacity]

theorem Holds.clear (h : Holds v l) : Holds v.clear [] := ⟨⟨v.ptr, rfl⟩, rfl, h.capacity⟩

theorem Holds.eraseRange (h : Holds v l) (hcap : v.cap < 2 ^ 64) {first last : ℕ}
    (hfirst : first ≤ last) (hlast : last ≤ l.length) :
    ∃ v', StdVector.eraseRange first last v = some (first, v') ∧
      Holds v' (l.take first ++ l.drop last) ∧ v'.cap = v.cap := by
  have hle := h.size_le
  have hsize := h.size
  obtain ⟨rest, hptr⟩ := h.slots
  have hmid : ((l.drop first).take (last - first)).length = last - first :=
    List.length_take_of_le (by rw [List.length_drop]; omega)
  have htake : (l.take first).length = first := List.length_take_of_le (hfirst.trans hlast)
  have hdrop : (l.drop last).length = l.length - last := List.length_drop
  have hsplit : l = l.take first ++ ((l.drop first).take (last - first) ++ l.drop last) := by
    rw [← Nat.add_sub_cancel' hfirst, ← List.drop_drop, Nat.add_sub_cancel' hfirst,
      List.take_append_drop, List.take_append_drop]
  obtain ⟨m, hm, hmove⟩ :=
    moveDown_append (l.take first) ((l.drop first).take (last - first)) (l.drop last) rest
  rw [hmid] at hm
  rw [hmid, htake, hdrop, ← List.append_assoc _ _ rest, ← List.append_assoc _ _ rest, ← hsplit,
    ← hptr] at hmove
  have hn : sub last first = last - first := sub_of_le hfirst (by omega)
  have hsz : sub v.sz (last - first) = l.length - (last - first) := by
    rw [hsize, sub_of_le (by omega) (by omega)]
  have hcount : l.length - (last - first) - first = l.length - last := by omega
  refine ⟨{ v with ptr := l.take first ++ (l.drop last ++ (m ++ rest)),
                   sz := l.length - (last - first) }, ?_, ⟨⟨m ++ rest, ?_⟩, ?_, ?_⟩, rfl⟩
  · simp only [StdVector.eraseRange, hn, hsz, hcount, hmove, Option.map_some]
  · rw [List.append_assoc]
  · rw [List.length_append, htake, hdrop]
    dsimp only
    omega
  · rw [← h.capacity, hptr]
    simp only [List.length_append, htake, hdrop, hm]
    omega

theorem Holds.erase (h : Holds v l) (hcap : v.cap < 2 ^ 64) {pos : ℕ} (hpos : pos < l.length) :
    ∃ v', StdVector.erase pos v = some (pos, v') ∧ Holds v' (l.eraseIdx pos) ∧
      v'.cap = v.cap := by
  rw [List.eraseIdx_eq_take_drop_succ]
  exact h.eraseRange hcap (Nat.le_succ pos) hpos

section Growing

variable [Inhabited T]

/-- The elements moved to a new buffer. -/
theorem Holds.copied (h : Holds v l) {n : ℕ} (hn : l.length ≤ n) :
    copy v.ptr v.sz 0 (newArray n) = some (l ++ newArray (n - l.length)) := by
  obtain ⟨rest, hptr⟩ := h.slots
  have hsplit : (newArray n : List T) = newArray l.length ++ newArray (n - l.length) := by
    rw [newArray, newArray, newArray, ← List.replicate_add]
    congr 1
    omega
  have hcopy := copy_append [] l rest (d := newArray l.length) (e := newArray (n - l.length))
    List.length_replicate
  rw [hptr, h.size, hsplit]
  exact hcopy

theorem Holds.reserve (h : Holds v l) (n : ℕ) :
    ∃ v', StdVector.reserve n v = some v' ∧ Holds v' l ∧ n ≤ v'.cap ∧ v.cap ≤ v'.cap ∧
      v'.cap ≤ max n v.cap := by
  have hle := h.size_le
  rw [StdVector.reserve]
  by_cases hn : n > v.cap
  · have hlen : l.length ≤ n := by rw [← h.size]; omega
    rw [if_pos hn, h.copied hlen]
    refine ⟨_, rfl, ⟨⟨_, rfl⟩, h.size, ?_⟩, Nat.le_refl n, by dsimp only; omega,
      Nat.le_max_left _ _⟩
    simp only [newArray, List.length_append, List.length_replicate]
    omega
  · rw [if_neg hn]
    exact ⟨v, rfl, h, by omega, Nat.le_refl _, Nat.le_max_right _ _⟩

theorem Holds.shrinkToFit (h : Holds v l) :
    ∃ v', StdVector.shrinkToFit v = some v' ∧ Holds v' l ∧ v'.cap ≤ v.cap := by
  rw [StdVector.shrinkToFit]
  by_cases hlt : v.sz < v.cap
  · rw [if_pos hlt, h.copied (by rw [h.size])]
    refine ⟨_, rfl, ⟨⟨_, rfl⟩, h.size, ?_⟩, hlt.le⟩
    simp only [newArray, List.length_append, List.length_replicate, h.size]
    omega
  · rw [if_neg hlt]
    exact ⟨v, rfl, h, Nat.le_refl _⟩

/-- The capacity can double where the next element needs it to. -/
def CanGrow (v : StdVector T) : Prop := v.sz = v.cap → v.cap * 2 < 2 ^ 64

/-- After growing there is a free slot. -/
theorem Holds.grow (h : Holds v l) (hcap : v.cap < 2 ^ 64) (hroom : CanGrow v) :
    ∃ v' y rest, StdVector.grow v = some v' ∧ Holds v' l ∧ v'.ptr = l ++ y :: rest ∧
      v'.cap < 2 ^ 64 ∧ l.length < v'.cap := by
  have hfree {v' : StdVector T} (h' : Holds v' l) (hlt : l.length < v'.cap) :
      ∃ y rest, v'.ptr = l ++ y :: rest := by
    obtain ⟨rest, hptr⟩ := h'.slots
    have hcap := h'.capacity
    rw [hptr, List.length_append] at hcap
    obtain ⟨y, rest, rfl⟩ := List.exists_cons_of_length_pos (l := rest) (by omega)
    exact ⟨y, rest, hptr⟩
  have hle := h.size_le
  have hsize := h.size
  rw [StdVector.grow]
  by_cases hfull : v.sz = v.cap
  · have hdouble := hroom hfull
    obtain ⟨v', hr, hh, hn, -, hmax⟩ := h.reserve (if v.cap = 0 then 1 else wrap (v.cap * 2))
    rw [wrap_of_lt hdouble] at hr hn hmax ⊢
    have hlt : l.length < v'.cap := by split_ifs at hn <;> omega
    have hcap' : v'.cap < 2 ^ 64 := by split_ifs at hmax <;> omega
    obtain ⟨y, rest, hptr⟩ := hfree hh hlt
    exact ⟨v', y, rest, by rw [if_pos hfull, hr], hh, hptr, hcap', hlt⟩
  · have hlt : l.length < v.cap := by omega
    obtain ⟨y, rest, hptr⟩ := hfree h hlt
    exact ⟨v, y, rest, by rw [if_neg hfull], h, hptr, hcap, hlt⟩

theorem Holds.pushBack (h : Holds v l) (hcap : v.cap < 2 ^ 64) (hroom : CanGrow v) (x : T) :
    ∃ v', StdVector.pushBack x v = some v' ∧ Holds v' (l ++ [x]) ∧ v'.cap < 2 ^ 64 := by
  obtain ⟨v', y, rest, hgrow, h', hptr, hcap', hlt⟩ := h.grow hcap hroom
  refine ⟨{ v' with ptr := l ++ x :: rest, sz := l.length + 1 }, ?_, ⟨⟨rest, by simp⟩, ?_, ?_⟩,
    hcap'⟩
  · rw [StdVector.pushBack, hgrow, Option.bind_some, hptr, h'.size, store_append, Option.map_some,
      wrap_of_lt (by omega)]
  · rw [List.length_append, List.length_singleton]
  · rw [← h'.capacity, hptr]
    simp

/-- What the elements become when the size is set to `n` and new ones are `x`. -/
def resized (n : ℕ) (x : T) (l : List T) : List T :=
  l.take n ++ List.replicate (n - l.length) x

/-- `reserve` makes the test before its call again. -/
theorem reserve_of_test (n : ℕ) (v : StdVector T) :
    (if n > v.cap then StdVector.reserve n v else some v) = StdVector.reserve n v := by
  rw [StdVector.reserve]
  split_ifs <;> rfl

theorem eq_of_reserve {n : ℕ} {v w : StdVector T} (h : StdVector.reserve n v = some w)
    (hn : n ≤ v.cap) : w = v := by
  rw [StdVector.reserve, if_neg (Nat.not_lt.mpr hn)] at h
  exact (Option.some.inj h).symm

theorem Holds.resize (h : Holds v l) (hcap : v.cap < 2 ^ 64) {n : ℕ} (hn : n < 2 ^ 64) (x : T) :
    ∃ v', StdVector.resize n x v = some v' ∧ Holds v' (resized n x l) ∧ v'.cap < 2 ^ 64 := by
  obtain ⟨v', hr, h', hcap', hle, hmax⟩ := h.reserve n
  obtain ⟨rest, hptr⟩ := h'.slots
  have hlen : l.length + rest.length = v'.cap := by rw [← h'.capacity, hptr, List.length_append]
  rw [StdVector.resize, reserve_of_test, hr, Option.bind_some]
  by_cases hlt : n > v'.sz
  · -- the free slots up to `n` are filled
    have hlt' : l.length < n := by rw [← h'.size]; exact hlt
    have hsplit : rest = rest.take (n - l.length) ++ rest.drop (n - l.length) :=
      (List.take_append_drop _ _).symm
    have htake : (rest.take (n - l.length)).length = n - l.length :=
      List.length_take_of_le (by omega)
    have hfill := fill_append x l (rest.take (n - l.length)) (rest.drop (n - l.length))
    rw [← hsplit, ← hptr, htake, ← h'.size] at hfill
    rw [if_pos hlt, hfill, Option.map_some]
    refine ⟨_, rfl, ⟨⟨rest.drop (n - l.length), ?_⟩, ?_, ?_⟩, by dsimp only; omega⟩
    · rw [resized, List.take_of_length_le hlt'.le, h'.size, List.append_assoc]
    · rw [resized, List.take_of_length_le hlt'.le, List.length_append, List.length_replicate,
        Nat.add_sub_cancel' hlt'.le]
    · rw [h'.size]
      simp only [List.length_append, List.length_replicate, List.length_drop]
      omega
  · have hge : n ≤ l.length := by rw [← h'.size]; omega
    rw [if_neg hlt, Option.map_some]
    refine ⟨_, rfl, ⟨⟨l.drop n ++ rest, ?_⟩, ?_, h'.capacity⟩, by dsimp only; omega⟩
    · rw [resized, Nat.sub_eq_zero_of_le hge, List.replicate_zero, List.append_nil, hptr,
        ← List.append_assoc, List.take_append_drop]
    · rw [resized, Nat.sub_eq_zero_of_le hge, List.replicate_zero, List.append_nil,
        List.length_take_of_le hge]

theorem holds_constructN (n : ℕ) (x : T) :
    ∃ v, constructN n x = some v ∧ Holds v (List.replicate n x) ∧ v.cap = n := by
  have hfill := fill_append x [] (newArray n) []
  simp only [newArray, List.length_replicate, List.append_nil, List.nil_append,
    List.length_nil] at hfill
  rw [constructN, newArray, hfill, Option.map_some]
  exact ⟨_, rfl, ⟨⟨[], (List.append_nil _).symm⟩, List.length_replicate.symm,
    List.length_replicate⟩, rfl⟩

theorem Holds.insert (h : Holds v l) (hcap : v.cap < 2 ^ 64) (hroom : CanGrow v) {pos : ℕ}
    (hpos : pos ≤ l.length) (x : T) :
    ∃ v', StdVector.insert pos x v = some (pos, v') ∧ Holds v' (l.insertIdx pos x) ∧
      v'.cap < 2 ^ 64 := by
  obtain ⟨v', y, rest, hgrow, h', hptr, hcap', hlt⟩ := h.grow hcap hroom
  obtain ⟨a, b, rfl, rfl, hins⟩ := List.exists_of_modifyTailIdx (List.cons x) hpos
  obtain ⟨w, hmove⟩ := moveUp_append a b rest y
  have hcount : v'.sz - a.length = b.length := by
    rw [h'.size, List.length_append, Nat.add_sub_cancel_left]
  refine ⟨{ v' with ptr := a ++ x :: (b ++ rest), sz := (a ++ b).length + 1 }, ?_,
    ⟨⟨rest, ?_⟩, ?_, ?_⟩, hcap'⟩
  · rw [StdVector.insert, hgrow, Option.bind_some, hcount, hptr, h'.size, List.append_assoc,
      List.length_append, hmove, Option.bind_some, store_append, Option.map_some,
      wrap_of_lt (by rw [List.length_append] at hlt; omega)]
  · rw [List.insertIdx, hins, List.append_assoc, List.cons_append]
  · rw [List.insertIdx, hins, List.length_append, List.length_append, List.length_cons,
      Nat.add_assoc]
  · rw [← h'.capacity, hptr]
    simp only [List.length_append, List.length_cons]
    omega

theorem Holds.emplaceBack (h : Holds v l) (hcap : v.cap < 2 ^ 64) (hroom : CanGrow v) (x : T) :
    ∃ v', StdVector.emplaceBack x v = some (l.length, v') ∧ Holds v' (l ++ [x]) ∧
      v'.cap < 2 ^ 64 := by
  obtain ⟨v', hpush, h', hcap'⟩ := h.pushBack hcap hroom x
  have hle := h'.size_le
  have hsize := h'.size
  rw [List.length_append, List.length_singleton] at hsize
  refine ⟨v', ?_, h', hcap'⟩
  rw [StdVector.emplaceBack, hpush, Option.map_some, hsize, sub_of_le (by omega) (by omega),
    Nat.add_sub_cancel]

end Growing

/-! ## Histories -/

/-- A call; `v` is the vector it is made on, or the one it constructs. -/
inductive Op (T : Type) where
  | construct (v : ℕ)
  | constructN (v n : ℕ) (val : T)
  | moveConstruct (v other : ℕ)
  | moveAssign (v other : ℕ)
  | reserve (v n : ℕ)
  | shrinkToFit (v : ℕ)
  | resize (v n : ℕ) (val : T)
  | pushBack (v : ℕ) (val : T)
  | emplaceBack (v : ℕ) (val : T)
  | popBack (v : ℕ)
  | clear (v : ℕ)
  | insert (v pos : ℕ) (val : T)
  | erase (v pos : ℕ)
  | eraseRange (v first last : ℕ)

/-- One call on the vectors of a program. It has no result if it leaves a buffer. -/
def step [Inhabited T] (s : ℕ → StdVector T) : Op T → Option (ℕ → StdVector T)
  | .construct v => some (update s v empty)
  | .constructN v n val => (constructN n val).map (update s v)
  | .moveConstruct v other =>
    some (update (update s v (moveConstruct (s other)).1) other (moveConstruct (s other)).2)
  | .moveAssign v other =>
    if v = other then some s
    else some (update (update s v (moveAssign (s v) (s other)).1) other
      (moveAssign (s v) (s other)).2)
  | .reserve v n => (reserve n (s v)).map (update s v)
  | .shrinkToFit v => (shrinkToFit (s v)).map (update s v)
  | .resize v n val => (resize n val (s v)).map (update s v)
  | .pushBack v val => (pushBack val (s v)).map (update s v)
  | .emplaceBack v val => (emplaceBack val (s v)).map fun r => update s v r.2
  | .popBack v => some (update s v (popBack (s v)))
  | .clear v => some (update s v (clear (s v)))
  | .insert v pos val => (insert pos val (s v)).map fun r => update s v r.2
  | .erase v pos => (erase pos (s v)).map fun r => update s v r.2
  | .eraseRange v first last => (eraseRange first last (s v)).map fun r => update s v r.2

/-- The same call on the lists of their elements. -/
def apply (a : ℕ → List T) : Op T → ℕ → List T
  | .construct v => update a v []
  | .constructN v n val => update a v (List.replicate n val)
  | .moveConstruct v other => update (update a v (a other)) other []
  | .moveAssign v other => if v = other then a else update (update a v (a other)) other []
  | .reserve _ _ => a
  | .shrinkToFit _ => a
  | .resize v n val => update a v (resized n val (a v))
  | .pushBack v val => update a v (a v ++ [val])
  | .emplaceBack v val => update a v (a v ++ [val])
  | .popBack v => update a v (a v).dropLast
  | .clear v => update a v []
  | .insert v pos val => update a v ((a v).insertIdx pos val)
  | .erase v pos => update a v ((a v).eraseIdx pos)
  | .eraseRange v first last => update a v ((a v).take first ++ (a v).drop last)

/-- Positions are in range, sizes are words, and doubling a full vector's capacity gives one. -/
def Valid (s : ℕ → StdVector T) : Op T → Prop
  | .constructN _ n _ => n < 2 ^ 64
  | .moveConstruct v other => v ≠ other
  | .reserve _ n => n < 2 ^ 64
  | .resize _ n _ => n < 2 ^ 64
  | .pushBack v _ => CanGrow (s v)
  | .emplaceBack v _ => CanGrow (s v)
  | .popBack v => (s v).sz ≠ 0
  | .insert v pos _ => pos ≤ (s v).sz ∧ CanGrow (s v)
  | .erase v pos => pos < (s v).sz
  | .eraseRange v first last => first ≤ last ∧ last ≤ (s v).sz
  | _ => True

instance decidableCanGrow (v : StdVector T) : Decidable (CanGrow v) :=
  inferInstanceAs (Decidable (v.sz = v.cap → v.cap * 2 < 2 ^ 64))

instance decidableValid (s : ℕ → StdVector T) : ∀ op, Decidable (Valid s op)
  | .constructN _ n _ => inferInstanceAs (Decidable (n < 2 ^ 64))
  | .moveConstruct v other => inferInstanceAs (Decidable (v ≠ other))
  | .reserve _ n => inferInstanceAs (Decidable (n < 2 ^ 64))
  | .resize _ n _ => inferInstanceAs (Decidable (n < 2 ^ 64))
  | .pushBack v _ => decidableCanGrow (s v)
  | .emplaceBack v _ => decidableCanGrow (s v)
  | .popBack v => inferInstanceAs (Decidable ((s v).sz ≠ 0))
  | .insert v pos _ => inferInstanceAs (Decidable (pos ≤ (s v).sz ∧ CanGrow (s v)))
  | .erase v pos => inferInstanceAs (Decidable (pos < (s v).sz))
  | .eraseRange v first last => inferInstanceAs (Decidable (first ≤ last ∧ last ≤ (s v).sz))
  | .construct _ => isTrue trivial
  | .moveAssign _ _ => isTrue trivial
  | .shrinkToFit _ => isTrue trivial
  | .clear _ => isTrue trivial

/-- Every vector holds its list. -/
def Related (s : ℕ → StdVector T) (a : ℕ → List T) : Prop :=
  ∀ v, Holds (s v) (a v) ∧ (s v).cap < 2 ^ 64

theorem Related.set {s : ℕ → StdVector T} {a : ℕ → List T} (h : Related s a) (v : ℕ)
    {x : StdVector T} {l : List T} (hx : Holds x l) (hcap : x.cap < 2 ^ 64) :
    Related (update s v x) (update a v l) := by
  intro w
  by_cases hw : w = v
  · subst hw
    rw [update_self, update_self]
    exact ⟨hx, hcap⟩
  · rw [update_of_ne hw, update_of_ne hw]
    exact h w

/-- A call that leaves the elements alone. -/
theorem Related.keep {s : ℕ → StdVector T} {a : ℕ → List T} (h : Related s a) (v : ℕ)
    {x : StdVector T} (hx : Holds x (a v)) (hcap : x.cap < 2 ^ 64) : Related (update s v x) a := by
  have h' := h.set v hx hcap
  rwa [update_eq_self] at h'

theorem Related.move {s : ℕ → StdVector T} {a : ℕ → List T} (h : Related s a) (v other : ℕ) :
    Related (update (update s v (s other)) other ⟨[], 0, 0⟩)
      (update (update a v (a other)) other []) :=
  (h.set v (h other).1 (h other).2).set other holds_empty (by simp)

theorem Related.step [Inhabited T] {s : ℕ → StdVector T} {a : ℕ → List T} (h : Related s a) {op : Op T}
    (hvalid : Valid s op) : ∃ s', step s op = some s' ∧ Related s' (apply a op) := by
  cases op with
  | construct v => exact ⟨_, rfl, h.set v holds_empty (by simp [empty])⟩
  | constructN v n val =>
    obtain ⟨x, hx, hh, rfl⟩ := holds_constructN n val
    exact ⟨_, by rw [StdVector.step, hx, Option.map_some], h.set v hh hvalid⟩
  | moveConstruct v other => exact ⟨_, rfl, h.move v other⟩
  | moveAssign v other =>
    by_cases hself : v = other
    · exact ⟨s, by rw [StdVector.step, if_pos hself], by rw [apply, if_pos hself]; exact h⟩
    · exact ⟨_, by rw [StdVector.step, if_neg hself],
        by rw [apply, if_neg hself]; exact h.move v other⟩
  | reserve v n =>
    obtain ⟨x, hx, hh, -, -, hmax⟩ := (h v).1.reserve n
    have hcap : x.cap < 2 ^ 64 := hmax.trans_lt (max_lt hvalid (h v).2)
    exact ⟨_, by rw [StdVector.step, hx, Option.map_some], h.keep v hh hcap⟩
  | shrinkToFit v =>
    obtain ⟨x, hx, hh, hle⟩ := (h v).1.shrinkToFit
    exact ⟨_, by rw [StdVector.step, hx, Option.map_some], h.keep v hh (hle.trans_lt (h v).2)⟩
  | resize v n val =>
    obtain ⟨x, hx, hh, hcap⟩ := (h v).1.resize (h v).2 hvalid val
    exact ⟨_, by rw [StdVector.step, hx, Option.map_some], h.set v hh hcap⟩
  | pushBack v val =>
    obtain ⟨x, hx, hh, hcap⟩ := (h v).1.pushBack (h v).2 hvalid val
    exact ⟨_, by rw [StdVector.step, hx, Option.map_some], h.set v hh hcap⟩
  | emplaceBack v val =>
    obtain ⟨x, hx, hh, hcap⟩ := (h v).1.emplaceBack (h v).2 hvalid val
    exact ⟨_, by rw [StdVector.step, hx, Option.map_some], h.set v hh hcap⟩
  | popBack v =>
    have hne : a v ≠ [] := by
      rintro hnil
      exact hvalid (by rw [(h v).1.size, hnil, List.length_nil])
    exact ⟨_, rfl, h.set v ((h v).1.popBack (h v).2 hne) (by rw [popBack_cap]; exact (h v).2)⟩
  | clear v => exact ⟨_, rfl, h.set v (h v).1.clear (h v).2⟩
  | insert v pos val =>
    have hpos : pos ≤ (a v).length := (h v).1.size ▸ hvalid.1
    obtain ⟨x, hx, hh, hcap⟩ := (h v).1.insert (h v).2 hvalid.2 hpos val
    exact ⟨_, by rw [StdVector.step, hx, Option.map_some], h.set v hh hcap⟩
  | erase v pos =>
    have hpos : pos < (a v).length := (h v).1.size ▸ hvalid
    obtain ⟨x, hx, hh, hcap⟩ := (h v).1.erase (h v).2 hpos
    exact ⟨_, by rw [StdVector.step, hx, Option.map_some], h.set v hh (hcap ▸ (h v).2)⟩
  | eraseRange v first last =>
    have hlast : last ≤ (a v).length := (h v).1.size ▸ hvalid.2
    obtain ⟨x, hx, hh, hcap⟩ := (h v).1.eraseRange (h v).2 hvalid.1 hlast
    exact ⟨_, by rw [StdVector.step, hx, Option.map_some], h.set v hh (hcap ▸ (h v).2)⟩

end StdVector

end IceKernel.Libcxx
