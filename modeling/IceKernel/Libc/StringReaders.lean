import IceKernel.Libc.Strings

/-!
# The string readers of `libs/libc/string.cpp` on arrays with an end

Here an array is what may be read through a pointer. A function that reads
anything else has no result.
-/

namespace IceKernel
open ByteMemory Word64

/-- The bytes behind a pointer, as far as there are any. -/
abbrev CArray := ℕ → Option (BitVec 8)

namespace CArray

/-- The array of exactly these bytes. -/
def ofBytes (l : List (BitVec 8)) : CArray := fun i => l[i]?

/-- Behind a pointer into the whole memory, everything may be read. -/
def ofMem (m : Mem) (ptr : ℕ) : CArray := fun i => some (m (ptr + i))

/-- The NUL-terminated string `s` stands at index `i`. -/
def IsString (str : CArray) (i : ℕ) : List (BitVec 8) → Prop
  | [] => str i = some 0
  | c :: s => str i = some c ∧ c ≠ 0 ∧ IsString str (i + 1) s

/-- `strlen(str)`, after its first `length` rounds. -/
def strlen (str : CArray) : ℕ → ℕ → Option ℕ
  | 0, _ => none
  | fuel + 1, length =>
    (str length).bind fun c =>
      if c ≠ 0 then strlen str fuel (length + 1) else some length

/-- `strnlen(str, len)`, after its first `length` rounds. -/
def strnlen (str : CArray) (len : ℕ) : ℕ → ℕ → Option ℕ
  | 0, _ => none
  | fuel + 1, length =>
    (str length).bind fun c =>
      if c ≠ 0 ∧ length < len then strnlen str len fuel (length + 1) else some length

/-- The `return` of `strncmp`. -/
def strncmpResult (str1 str2 : CArray) (i len : ℕ) : Option ℤ :=
  if len = 0 then some 0
  else (str1 i).bind fun c1 => (str2 i).map fun c2 => c1.toInt - c2.toInt

/-- `strncmp(str1, str2, len)` with both pointers advanced by `i`. -/
def strncmp (str1 str2 : CArray) : ℕ → ℕ → ℕ → Option ℤ
  | 0, _, _ => none
  | fuel + 1, i, len =>
    (str1 i).bind fun c1 =>
      if c1 = 0 then strncmpResult str1 str2 i len
      else (str2 i).bind fun c2 =>
        if c2 = 0 ∨ c1 ≠ c2 then strncmpResult str1 str2 i len
        else if len ≠ 0 then strncmp str1 str2 fuel (i + 1) (sub len 1)
        else strncmpResult str1 str2 i (sub len 1)

/-! ## Strings -/

section String

variable {str : CArray} {i : ℕ} {s : List (BitVec 8)}

theorem IsString.drop (h : str.IsString i s) {n : ℕ} (hn : n ≤ s.length) :
    str.IsString (i + n) (s.drop n) := by
  induction n generalizing i s with
  | zero => exact h
  | succ n ih =>
    cases s with
    | nil => exact absurd hn (Nat.not_succ_le_zero n)
    | cons c s =>
      rw [List.drop_succ_cons, Nat.add_comm n 1, ← Nat.add_assoc]
      exact ih h.2.2 (Nat.le_of_succ_le_succ hn)

theorem IsString.append {t : List (BitVec 8)} (h : str.IsString i (s ++ t)) :
    str.IsString (i + s.length) t := by
  have hdrop := h.drop (n := s.length) (by simp)
  rwa [List.drop_left] at hdrop

/-- No string needs more than its characters and the terminator. -/
theorem ofBytes_isString {l : List (BitVec 8)} (hl : ∀ c ∈ s, c ≠ 0) :
    (ofBytes (l ++ s ++ [0])).IsString l.length s := by
  induction s generalizing l with
  | nil => simp [IsString, ofBytes]
  | cons c s ih =>
    have htail := ih (l := l ++ [c]) fun d hd => hl d (List.mem_cons_of_mem c hd)
    rw [List.append_assoc l [c] s, List.length_append] at htail
    exact ⟨by simp [ofBytes], hl c List.mem_cons_self, htail⟩

theorem strlen_eq (h : str.IsString i s) {fuel : ℕ} (hfuel : s.length < fuel) :
    strlen str fuel i = some (i + s.length) := by
  induction s generalizing i fuel with
  | nil =>
    obtain ⟨fuel, rfl⟩ := Nat.exists_eq_add_of_le' (Nat.one_le_of_lt hfuel)
    have hnul : str i = some 0 := h
    rw [strlen, hnul, Option.bind_some, if_neg (not_not.2 rfl)]
    rfl
  | cons c s ih =>
    obtain ⟨fuel, rfl⟩ := Nat.exists_eq_add_of_le' (Nat.one_le_of_lt hfuel)
    rw [strlen, h.1, Option.bind_some, if_pos h.2.1, ih h.2.2 (Nat.lt_of_succ_lt_succ hfuel),
      List.length_cons, Nat.add_assoc, Nat.add_comm 1]

end String

/-! ## Pointers into memory -/

theorem isString_ofMem {m : Mem} {ptr i : ℕ} {s : List (BitVec 8)}
    (h : IceKernel.IsString m (ptr + i) s) : (ofMem m ptr).IsString i s := by
  induction s generalizing i with
  | nil => exact congrArg some h
  | cons c s ih =>
    obtain ⟨hc, hne, htail⟩ := h
    exact ⟨congrArg some hc, hne, ih htail⟩

theorem strncmpResult_ofMem (m : Mem) (str1 str2 i len : ℕ) :
    strncmpResult (ofMem m str1) (ofMem m str2) i len =
      some (IceKernel.strncmpResult m (str1 + i) (str2 + i) len) := by
  rw [strncmpResult, IceKernel.strncmpResult]
  split <;> rfl

/-- In memory, this is the `strncmp` that may read everything. -/
theorem strncmp_ofMem (m : Mem) (str1 str2 fuel i len : ℕ) :
    strncmp (ofMem m str1) (ofMem m str2) fuel i len =
      IceKernel.strncmp m fuel (str1 + i) (str2 + i) len := by
  induction fuel generalizing i len with
  | zero => rfl
  | succ fuel ih =>
    rw [strncmp, IceKernel.strncmp, ih]
    simp only [strncmpResult_ofMem, ofMem, Option.bind_some, Nat.add_assoc]
    by_cases h1 : m (str1 + i) = 0
    · rw [if_pos h1, if_neg fun h => h.1 h1]
    rw [if_neg h1]
    by_cases h2 : m (str2 + i) = 0 ∨ m (str1 + i) ≠ m (str2 + i)
    · rw [if_pos h2, if_neg fun h => h2.elim h.2.1 fun hne => hne h.2.2]
    · rw [if_neg h2]
      rw [not_or, not_not] at h2
      have hgo : m (str1 + i) ≠ 0 ∧ m (str2 + i) ≠ 0 ∧ m (str1 + i) = m (str2 + i) := ⟨h1, h2⟩
      rw [if_pos hgo]

/-! ## Arrays that fill the bound -/

section Bounds

variable {s t l r : List (BitVec 8)}

theorem length_snoc (l : List (BitVec 8)) (c : BitVec 8) : (l ++ [c]).length = l.length + 1 := by
  rw [List.length_append, List.length_singleton]

theorem ofBytes_append_cons (l : List (BitVec 8)) (c : BitVec 8) (s : List (BitVec 8)) :
    ofBytes (l ++ c :: s) l.length = some c := by
  simp [ofBytes]

/-- The length is right if a NUL ends it, or if the byte behind the bound may be read. -/
theorem strnlen_of_readable {e : List (BitVec 8)} (h : 0 ∈ s ∨ e ≠ []) {fuel : ℕ}
    (hfuel : s.length < fuel) :
    strnlen (ofBytes (l ++ (s ++ e))) (l ++ s).length fuel l.length =
      some (l.length + s.idxOf 0) := by
  induction s generalizing l fuel with
  | nil =>
    obtain ⟨fuel, rfl⟩ := Nat.exists_eq_add_of_le' (Nat.one_le_of_lt hfuel)
    obtain ⟨c, e, rfl⟩ := List.exists_cons_of_ne_nil (h.resolve_left List.not_mem_nil)
    rw [strnlen, List.nil_append, ofBytes_append_cons, Option.bind_some, if_neg (by simp)]
    rfl
  | cons c s ih =>
    obtain ⟨fuel, rfl⟩ := Nat.exists_eq_add_of_le' (Nat.one_le_of_lt hfuel)
    rw [strnlen, List.cons_append, ofBytes_append_cons, Option.bind_some]
    by_cases hc : c = 0
    · subst hc
      rw [if_neg (by simp), List.idxOf_cons_self, Nat.add_zero]
    · have htail : 0 ∈ s ∨ e ≠ [] :=
        h.imp_left fun hmem => (List.mem_cons.1 hmem).resolve_left (Ne.symm hc)
      have hrest := ih (l := l ++ [c]) htail (Nat.lt_of_succ_lt_succ hfuel)
      simp only [List.append_assoc, List.singleton_append, length_snoc] at hrest
      rw [if_pos ⟨hc, by simp⟩, hrest, List.idxOf_cons_ne _ hc, Nat.succ_eq_add_one]
      congr 1
      omega

/-- Without a NUL, the byte behind the array is asked for before the bound is. -/
theorem strnlen_of_not_mem (h : 0 ∉ s) (fuel : ℕ) :
    strnlen (ofBytes (l ++ s)) (l ++ s).length fuel l.length = none := by
  induction s generalizing l fuel with
  | nil =>
    cases fuel with
    | zero => rfl
    | succ fuel => simp [strnlen, ofBytes]
  | cons c s ih =>
    rw [List.mem_cons, not_or] at h
    cases fuel with
    | zero => rfl
    | succ fuel =>
      have hrest := ih (l := l ++ [c]) h.2 fuel
      rw [List.append_assoc, List.singleton_append, length_snoc] at hrest
      rw [strnlen, ofBytes_append_cons, Option.bind_some, if_pos ⟨Ne.symm h.1, by simp⟩, hrest]

theorem strncmpResult_ne_none (c : BitVec 8) (hlen : r.length = l.length) {t : List (BitVec 8)}
    (d : BitVec 8) (len : ℕ) :
    ∃ v, strncmpResult (ofBytes (l ++ c :: s)) (ofBytes (r ++ d :: t)) l.length len = some v := by
  have hd : ofBytes (r ++ d :: t) l.length = some d := by rw [← hlen, ofBytes_append_cons]
  rw [strncmpResult, ofBytes_append_cons, hd]
  split
  · exact ⟨0, rfl⟩
  · exact ⟨c.toInt - d.toInt, rfl⟩

/-- The comparison ends at a NUL or a difference. -/
theorem strncmp_of_stop (hlen : r.length = l.length) (hst : t.length = s.length)
    (hs : s.length < 2 ^ 64) (h : 0 ∈ s ∨ s ≠ t) {fuel : ℕ} (hfuel : s.length < fuel) :
    ∃ v, strncmp (ofBytes (l ++ s)) (ofBytes (r ++ t)) fuel l.length s.length = some v := by
  induction s generalizing l r t fuel with
  | nil =>
    obtain rfl := List.length_eq_zero_iff.1 hst
    simp at h
  | cons c s ih =>
    obtain ⟨d, t, rfl⟩ := List.exists_of_length_succ t hst
    obtain ⟨fuel, rfl⟩ := Nat.exists_eq_add_of_le' (Nat.one_le_of_lt hfuel)
    have hd : ofBytes (r ++ d :: t) l.length = some d := by rw [← hlen, ofBytes_append_cons]
    rw [strncmp, ofBytes_append_cons, Option.bind_some, hd, Option.bind_some]
    by_cases hc : c = 0
    · rw [if_pos hc]
      exact strncmpResult_ne_none c hlen d _
    rw [if_neg hc]
    by_cases hstop : d = 0 ∨ c ≠ d
    · rw [if_pos hstop]
      exact strncmpResult_ne_none c hlen d _
    have hleft : (c :: s).length ≠ 0 := Nat.succ_ne_zero _
    rw [if_neg hstop, if_pos hleft, sub_of_le (by simp) hs]
    rw [not_or, not_not] at hstop
    obtain ⟨-, rfl⟩ := hstop
    have hrest : 0 ∈ s ∨ s ≠ t := by
      refine h.imp (fun hmem => (List.mem_cons.1 hmem).resolve_left (Ne.symm hc)) ?_
      exact fun hne heq => hne (congrArg _ heq)
    have hgo := ih (l := l ++ [c]) (r := r ++ [c]) (t := t) (by simp [hlen])
      (Nat.succ.inj hst) (Nat.lt_of_succ_lt hs) hrest (Nat.lt_of_succ_lt_succ hfuel)
    simpa using hgo

/-- Equal arrays without a NUL are read past the bound. -/
theorem strncmp_of_equal (hlen : r.length = l.length) (hs : s.length < 2 ^ 64) (h : 0 ∉ s)
    (fuel : ℕ) :
    strncmp (ofBytes (l ++ s)) (ofBytes (r ++ s)) fuel l.length s.length = none := by
  induction s generalizing l r fuel with
  | nil =>
    cases fuel with
    | zero => rfl
    | succ fuel => simp [strncmp, ofBytes]
  | cons c s ih =>
    rw [List.mem_cons, not_or] at h
    cases fuel with
    | zero => rfl
    | succ fuel =>
      have hd : ofBytes (r ++ c :: s) l.length = some c := by rw [← hlen, ofBytes_append_cons]
      have hc : c ≠ 0 := Ne.symm h.1
      have hleft : (c :: s).length ≠ 0 := Nat.succ_ne_zero _
      have hgo := ih (l := l ++ [c]) (r := r ++ [c]) (by simp [hlen]) (Nat.lt_of_succ_lt hs) h.2
        fuel
      rw [strncmp, ofBytes_append_cons, Option.bind_some, hd, Option.bind_some, if_neg hc,
        if_neg (by simpa using hc), if_pos hleft, sub_of_le (by simp) hs]
      simpa using hgo

/-- `strnlen` and `strncmp`, given arrays that fill their bound, stay inside and give the right
length if and only if something ends them before the bound does. -/
theorem bounded_readers_iff (hst : t.length = s.length) (hs : s.length < 2 ^ 64) :
    ((∃ N, ∀ fuel ≥ N, strnlen (ofBytes s) s.length fuel 0 = some (s.idxOf 0)) ↔ 0 ∈ s) ∧
      ((∃ N, ∀ fuel ≥ N, ∃ v, strncmp (ofBytes s) (ofBytes t) fuel 0 s.length = some v) ↔
        0 ∈ s ∨ s ≠ t) := by
  constructor
  · constructor
    · rintro ⟨N, hN⟩
      by_contra hmem
      have hnone := strnlen_of_not_mem (l := []) hmem N
      have hsome := hN N le_rfl
      rw [List.nil_append] at hnone
      exact Option.some_ne_none _ (hsome.symm.trans hnone)
    · intro hmem
      refine ⟨s.length + 1, fun fuel hfuel => ?_⟩
      simpa using strnlen_of_readable (l := []) (e := []) (.inl hmem) hfuel
  · constructor
    · rintro ⟨N, hN⟩
      by_contra hstop
      rw [not_or, not_not] at hstop
      obtain ⟨hmem, rfl⟩ := hstop
      obtain ⟨v, hv⟩ := hN N le_rfl
      have hnone := strncmp_of_equal (l := []) (r := []) rfl hs hmem N
      exact Option.some_ne_none _ (hv.symm.trans hnone)
    · intro hstop
      refine ⟨s.length + 1, fun fuel hfuel => ?_⟩
      exact strncmp_of_stop (l := []) (r := []) rfl hst hs hstop hfuel

theorem bounded_readers_iff_terminated :
    ((∃ N, ∀ fuel ≥ N, strnlen (ofBytes [97, 0]) 2 fuel 0 = some 1) ↔
        0 ∈ ([97, 0] : List (BitVec 8))) ∧
      ((∃ N, ∀ fuel ≥ N, ∃ v, strncmp (ofBytes [97, 0]) (ofBytes [97, 98]) fuel 0 2 = some v) ↔
        0 ∈ ([97, 0] : List (BitVec 8)) ∨ ([97, 0] : List (BitVec 8)) ≠ [97, 98]) :=
  bounded_readers_iff (s := [97, 0]) (t := [97, 98]) rfl (by norm_num)

/-- Two full arrays "ab": both functions ask for a third byte. -/
theorem bounded_readers_overrun :
    ¬ ((∃ N, ∀ fuel ≥ N, strnlen (ofBytes [97, 98]) 2 fuel 0 = some 2) ∧
      ∃ N, ∀ fuel ≥ N, ∃ v, strncmp (ofBytes [97, 98]) (ofBytes [97, 98]) fuel 0 2 = some v) := by
  rintro ⟨⟨N, hN⟩, -⟩
  have hnone := strnlen_of_not_mem (s := [97, 98]) (l := []) (by decide) N
  exact Option.some_ne_none _ ((hN N le_rfl).symm.trans hnone)

end Bounds

end CArray

end IceKernel
