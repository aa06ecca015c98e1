import IceKernel.Libcxx.Vector

/-!
# `libs/libc++/vector`: insertion of a range

The source range lies outside the vector.
-/

namespace IceKernel.Libcxx
open Word64 Slots Function

namespace StdVector

variable {T : Type}

/-- The loop that makes room for `n` elements: as long as `i >= bound`, slot `i` gets the value of
slot `i - n`, and `i` goes down. None outside the buffer or after `fuel` tests. -/
def shiftUp (n bound : ℕ) : ℕ → ℕ → List T → Option (List T)
  | 0, _, _ => none
  | fuel + 1, i, buf =>
    if i ≥ bound then
      (load buf (sub i n)).bind fun x => (store buf i x).bind fun buf =>
        shiftUp n bound fuel (sub i 1) buf
    else some buf

/-- The loop that writes the range, to the slots from `i` on. -/
def writeRange : List T → ℕ → List T → Option (List T)
  | [], _, buf => some buf
  | x :: src, i, buf => (store buf i x).bind fun buf => writeRange src (i + 1) buf

/-- `insert(pos, first, last)`. It returns the position. -/
def insertRange [Inhabited T] (fuel pos : ℕ) (src : List T) (v : StdVector T) :
    Option (ℕ × StdVector T) :=
  let n := src.length
  (if wrap (v.sz + n) > v.cap then
    reserve (max (wrap (v.sz + n)) (if v.cap = 0 then 1 else wrap (v.cap * 2))) v
  else some v).bind fun v =>
    (shiftUp n (wrap (pos + n)) fuel (sub (wrap (v.sz + n)) 1) v.ptr).bind fun ptr =>
      (writeRange src pos ptr).map fun ptr => (pos, { v with ptr := ptr, sz := wrap (v.sz + n) })

/-! ## The loops -/

/-- A block moves up over the slots of `w`, which come free before it, if the bound of the loop is
not 0. -/
theorem shiftUp_append (a b w c : List T) (hpos : 0 < a.length + w.length)
    (hlen : a.length + b.length + w.length < 2 ^ 64) {fuel : ℕ} (hfuel : b.length < fuel) :
    ∃ w', w'.length = w.length ∧
      shiftUp w.length (a.length + w.length) fuel (a.length + b.length + w.length - 1)
        (a ++ (b ++ (w ++ c))) = some (a ++ (w' ++ (b ++ c))) := by
  induction b using List.reverseRecOn generalizing w c fuel with
  | nil =>
    obtain ⟨fuel, rfl⟩ := Nat.exists_eq_add_of_le' (Nat.one_le_of_lt hfuel)
    rw [List.length_nil, Nat.add_zero, shiftUp, if_neg (by omega)]
    exact ⟨w, rfl, rfl⟩
  | append_singleton b z ih =>
    -- the last slot of `w` takes `z`, and the slot of `z` comes free
    obtain ⟨y, w₁, hw⟩ : ∃ y w₁, z :: w = w₁ ++ [y] :=
      ⟨_, _, (List.dropLast_concat_getLast (List.cons_ne_nil z w)).symm⟩
    have hw₁ : w₁.length = w.length := by
      have h := congrArg List.length hw
      simpa using h.symm
    have hlast : (b ++ [z]).length = b.length + 1 := by simp
    rw [hlast] at hlen hfuel ⊢
    obtain ⟨fuel, rfl⟩ := Nat.exists_eq_add_of_le' (Nat.one_le_of_lt hfuel)
    have hrest : b.length < fuel := by omega
    obtain ⟨w', hw', h⟩ := ih w₁ (z :: c) (by omega) (by omega) hrest
    have hi : a.length + (b.length + 1) + w.length - 1 = a.length + b.length + w.length := by omega
    have hbuf : a ++ ((b ++ [z]) ++ (w ++ c)) = (a ++ b) ++ z :: (w ++ c) := by simp
    have hload : load (a ++ ((b ++ [z]) ++ (w ++ c)))
        (sub (a.length + b.length + w.length) w.length) = some z := by
      rw [sub_of_le (by omega) (by omega), Nat.add_sub_cancel, hbuf, ← List.length_append,
        load_append]
    have hstore : store (a ++ ((b ++ [z]) ++ (w ++ c))) (a.length + b.length + w.length) z =
        some (a ++ (b ++ (w₁ ++ z :: c))) := by
      have hbuf' : (a ++ b) ++ z :: (w ++ c) = (a ++ (b ++ w₁)) ++ y :: c := by
        rw [← List.cons_append, hw]
        simp
      have hlen' : a.length + b.length + w.length = (a ++ (b ++ w₁)).length := by
        simp [hw₁, Nat.add_assoc]
      rw [hbuf, hbuf', hlen', store_append]
      simp
    refine ⟨w', hw'.trans hw₁, ?_⟩
    rw [hi, shiftUp, if_pos (by omega), hload, Option.bind_some, hstore, Option.bind_some,
      sub_of_le (by omega) (by omega), ← hw₁, h, List.append_assoc]
    rfl

/-- With the bound 0 the test of the loop never fails. -/
theorem shiftUp_zero (n fuel i : ℕ) (buf : List T) : shiftUp n 0 fuel i buf = none := by
  induction fuel generalizing i buf with
  | zero => rfl
  | succ fuel ih =>
    rw [shiftUp, if_pos (Nat.zero_le i)]
    simp [ih]

theorem writeRange_append (a src : List T) {w : List T} (c : List T)
    (hw : w.length = src.length) :
    writeRange src a.length (a ++ (w ++ c)) = some (a ++ (src ++ c)) := by
  induction src generalizing a w with
  | nil =>
    obtain rfl := List.length_eq_zero_iff.mp hw
    rfl
  | cons x src ih =>
    obtain ⟨y, w, rfl⟩ := List.exists_cons_of_length_eq_add_one hw
    have hlen : a.length + 1 = (a ++ [x]).length := by simp
    rw [writeRange, List.cons_append, store_append, Option.bind_some, append_snoc a (w ++ c), hlen,
      ih (a ++ [x]) (Nat.succ.inj hw), List.cons_append, append_snoc a (src ++ c)]

theorem writeRange_drop {src buf buf' : List T} {i k : ℕ} (h : writeRange src i buf = some buf')
    (hk : i + src.length ≤ k) : buf'.drop k = buf.drop k := by
  induction src generalizing i buf with
  | nil =>
    obtain rfl := Option.some.inj h
    rfl
  | cons x src ih =>
    rw [List.length_cons] at hk
    obtain ⟨b, hb, h⟩ := Option.bind_eq_some_iff.mp h
    rw [ih h (by omega), store_drop hb (by omega)]

theorem shiftUp_drop {n bound fuel i k : ℕ} {buf buf' : List T} (hbound : 0 < bound)
    (hi : i < 2 ^ 64) (h : shiftUp n bound fuel i buf = some buf') (hk : i < k) :
    buf'.drop k = buf.drop k := by
  induction fuel generalizing i buf with
  | zero => simp [shiftUp] at h
  | succ fuel ih =>
    rw [shiftUp] at h
    split at h
    · rename_i hge
      obtain ⟨y, -, h⟩ := Option.bind_eq_some_iff.mp h
      obtain ⟨b, hb, h⟩ := Option.bind_eq_some_iff.mp h
      rw [sub_of_le (by omega) hi] at h
      rw [ih (by omega) h (by omega), store_drop hb hk]
    · obtain rfl := Option.some.inj h
      rfl

/-! ## The insertion -/

variable [Inhabited T] {v : StdVector T} {l : List T}

/-- The room for `n` more elements. -/
theorem Holds.makeRoom (h : Holds v l) (hcap : v.cap < 2 ^ 64) {n : ℕ}
    (hfit : v.sz + n < 2 ^ 64) :
    ∃ v' w rest, (if wrap (v.sz + n) > v.cap then
        StdVector.reserve (max (wrap (v.sz + n)) (if v.cap = 0 then 1 else wrap (v.cap * 2))) v
      else some v) = some v' ∧ Holds v' l ∧ v'.ptr = l ++ (w ++ rest) ∧ w.length = n ∧
      v'.cap < 2 ^ 64 := by
  suffices hroom : ∃ v', (if wrap (v.sz + n) > v.cap then
        StdVector.reserve (max (wrap (v.sz + n)) (if v.cap = 0 then 1 else wrap (v.cap * 2))) v
      else some v) = some v' ∧ Holds v' l ∧ v.sz + n ≤ v'.cap ∧ v'.cap < 2 ^ 64 by
    obtain ⟨v', hr, h', hle, hcap'⟩ := hroom
    obtain ⟨rest, hptr⟩ := h'.slots
    have hlen : l.length + rest.length = v'.cap := by rw [← h'.capacity, hptr, List.length_append]
    refine ⟨v', rest.take n, rest.drop n, hr, h', by rw [List.take_append_drop, hptr],
      List.length_take_of_le ?_, hcap'⟩
    rw [h.size] at hle
    omega
  rw [wrap_of_lt hfit]
  by_cases hn : v.sz + n > v.cap
  · obtain ⟨v', hr, h', hle, -, hmax⟩ :=
      h.reserve (max (v.sz + n) (if v.cap = 0 then 1 else wrap (v.cap * 2)))
    have hdouble : (if v.cap = 0 then 1 else wrap (v.cap * 2)) < 2 ^ 64 := by
      split
      · norm_num
      · exact wrap_lt _
    exact ⟨v', by rw [if_pos hn, hr], h', (Nat.le_max_left _ _).trans hle,
      hmax.trans_lt (max_lt (max_lt hfit hdouble) hcap)⟩
  · exact ⟨v, by rw [if_neg hn], h, by omega, hcap⟩

theorem Holds.insertRange (h : Holds v l) (hcap : v.cap < 2 ^ 64) {pos : ℕ} {src : List T}
    (hpos : pos ≤ l.length) (hfit : v.sz + src.length < 2 ^ 64) (hne : pos + src.length ≠ 0)
    {fuel : ℕ} (hfuel : l.length < fuel) :
    ∃ v', StdVector.insertRange fuel pos src v = some (pos, v') ∧
      Holds v' (l.take pos ++ src ++ l.drop pos) ∧ v'.cap < 2 ^ 64 := by
  obtain ⟨v', w, rest, hroom, h', hptr, hw, hcap'⟩ := h.makeRoom hcap hfit
  have hsize := h.size
  have htake : (l.take pos).length = pos := List.length_take_of_le hpos
  have hdrop : (l.drop pos).length = l.length - pos := List.length_drop
  have hcount : l.length + src.length - 1 =
      (l.take pos).length + (l.drop pos).length + w.length - 1 := by omega
  have hbuf : v'.ptr = l.take pos ++ (l.drop pos ++ (w ++ rest)) := by
    rw [hptr, ← List.append_assoc (l.take pos), List.take_append_drop]
  have hrounds : (l.drop pos).length < fuel := by omega
  obtain ⟨w', hw', hshift⟩ := shiftUp_append (l.take pos) (l.drop pos) w rest (by omega) (by omega)
    hrounds
  rw [htake, hw, ← hbuf] at hshift
  have hwrite := writeRange_append (l.take pos) src (l.drop pos ++ rest) (hw'.trans hw)
  rw [htake] at hwrite
  refine ⟨{ v' with ptr := l.take pos ++ (src ++ (l.drop pos ++ rest)),
                    sz := l.length + src.length }, ?_, ⟨⟨rest, by simp⟩, ?_, ?_⟩, hcap'⟩
  · rw [StdVector.insertRange]
    simp only [hroom, Option.bind_some]
    rw [h'.size, wrap_of_lt (by omega), wrap_of_lt (by omega), sub_of_le (by omega) (by omega)]
    have hstart : l.length + src.length - 1 = pos + (l.drop pos).length + src.length - 1 := by omega
    rw [hstart, hshift, Option.bind_some, hwrite, Option.map_some]
  · simp only [List.length_append, htake, hdrop]
    omega
  · rw [← h'.capacity, hbuf]
    simp only [List.length_append, hw]
    omega

/-- An empty range at the front never returns. -/
theorem insertRange_nil (v : StdVector T) (fuel : ℕ) :
    StdVector.insertRange fuel 0 [] v = none := by
  have hzero : wrap 0 = 0 := rfl
  rw [StdVector.insertRange]
  simp [hzero, shiftUp_zero]

/-- The insertion of a range returns, having stayed within the buffer and with the right elements,
if and only if it is not an empty range at the front. -/
theorem insertRange_iff (h : Holds v l) (hcap : v.cap < 2 ^ 64) {pos : ℕ} {src : List T}
    (hpos : pos ≤ l.length) (hfit : v.sz + src.length < 2 ^ 64) :
    (∃ n, ∀ fuel ≥ n, ∃ v', StdVector.insertRange fuel pos src v = some (pos, v') ∧
      Holds v' (l.take pos ++ src ++ l.drop pos)) ↔ pos + src.length ≠ 0 := by
  constructor
  · rintro ⟨n, hn⟩ hzero
    obtain ⟨rfl, hsrc⟩ := Nat.add_eq_zero_iff.mp hzero
    obtain rfl := List.length_eq_zero_iff.mp hsrc
    obtain ⟨v', hv', -⟩ := hn n (Nat.le_refl n)
    rw [insertRange_nil] at hv'
    simp at hv'
  · intro hne
    refine ⟨l.length + 1, fun fuel hfuel => ?_⟩
    obtain ⟨v', hv', h', -⟩ := h.insertRange hcap hpos hfit hne hfuel
    exact ⟨v', hv', h'⟩

/-- Three equal elements. -/
def threeFives : StdVector ℕ := ⟨[5, 5, 5], 3, 3⟩

theorem threeFives_holds : Holds threeFives [5, 5, 5] := ⟨⟨[], rfl⟩, rfl, rfl⟩

theorem insertRange_iff_threeFives :
    Holds threeFives [5, 5, 5] ∧
      ((∃ n, ∀ fuel ≥ n, ∃ v', StdVector.insertRange fuel 1 [6, 7] threeFives = some (1, v') ∧
        Holds v' ([5, 5, 5].take 1 ++ [6, 7] ++ [5, 5, 5].drop 1)) ↔ 1 + [6, 7].length ≠ 0) :=
  ⟨threeFives_holds,
    insertRange_iff threeFives_holds (by decide) (by decide) (by decide)⟩

/-- `v.insert(v.begin(), first, first)`. -/
theorem insertRange_nil_threeFives :
    Holds threeFives [5, 5, 5] ∧ 0 ≤ [5, 5, 5].length ∧
      ¬ ∃ n, ∀ fuel ≥ n, ∃ v', StdVector.insertRange fuel 0 [] threeFives = some (0, v') ∧
        Holds v' ([5, 5, 5].take 0 ++ [] ++ [5, 5, 5].drop 0) := by
  refine ⟨threeFives_holds, Nat.zero_le _, ?_⟩
  rintro ⟨n, hn⟩
  obtain ⟨v', hv', -⟩ := hn n (Nat.le_refl n)
  rw [insertRange_nil] at hv'
  simp at hv'

end StdVector

end IceKernel.Libcxx
