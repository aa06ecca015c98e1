import IceKernel.Lib.Mirror
import IceKernel.Libc.StringReaders

/-!
# `strncpy` and `strrev` of `libs/libc/string.cpp`
-/

namespace IceKernel
open ByteMemory Word64 Function Mirror

/-! ## `strncpy` -/

/-- A memory after a call, and the addresses that the call stored to. -/
structure Written where
  mem : Mem
  stores : List ℕ

/-- The loop of `strncpy` with `len` to go, and the store of the terminator behind it. -/
def strncpyLoop (m : Mem) : ℕ → ℕ → ℕ → Written
  | 0, dest, _ => ⟨update m dest 0, [dest]⟩
  | len + 1, dest, src =>
    if m src ≠ 0 then
      let rest := strncpyLoop (update m dest (m src)) len (dest + 1) (src + 1)
      ⟨rest.mem, dest :: rest.stores⟩
    else ⟨update m dest 0, [dest]⟩

/-- `strncpy(dest, src, len)`. -/
def strncpy (m : Mem) (dest src len : ℕ) : Written := strncpyLoop m len dest src

/-- `strncpy` stores to its `n` bytes only, and copies what fits of the string there. -/
structure CopiesWithin (m : Mem) (w : Written) (dest src n length : ℕ) : Prop where
  inBounds : ∀ x ∈ w.stores, dest ≤ x ∧ x < dest + n
  copied : ∀ i < min n length, w.mem (dest + i) = m (src + i)

section Copy

variable {m : Mem} {dest src : ℕ} {s : List (BitVec 8)}

theorem IsString.store_outside {str x : ℕ} (h : IsString m str s)
    (hx : x < str ∨ str + s.length < x) (v : BitVec 8) : IsString (update m x v) str s := by
  induction s generalizing str with
  | nil =>
    have hne : str ≠ x := by
      rintro rfl
      simp at hx
    exact (update_of_ne hne v m).trans h
  | cons c s ih =>
    rw [List.length_cons] at hx
    obtain ⟨hc, hne, htail⟩ := h
    have hstr : str ≠ x := by omega
    exact ⟨(update_of_ne hstr v m).trans hc, hne, ih htail (by omega)⟩

/-- The loop stores upwards from `dest`. -/
theorem strncpyLoop_below (m : Mem) (len dest src : ℕ) {x : ℕ} (hx : x < dest) :
    (strncpyLoop m len dest src).mem x = m x := by
  induction len generalizing m dest src with
  | zero => exact update_of_ne hx.ne 0 m
  | succ len ih =>
    rw [strncpyLoop]
    split
    · exact (ih _ _ _ (by omega)).trans (update_of_ne hx.ne _ m)
    · exact update_of_ne hx.ne 0 m

/-- A string that does not fit is followed by a terminator behind the bound. -/
theorem strncpyLoop_overrun {len : ℕ} (h : IsString m src s) (hlen : len ≤ s.length)
    (hapart : dest ≤ src ∨ src + s.length < dest) :
    dest + len ∈ (strncpyLoop m len dest src).stores := by
  induction len generalizing m dest src s with
  | zero => exact List.mem_singleton_self dest
  | succ len ih =>
    obtain ⟨c, s, rfl⟩ := List.exists_cons_of_length_pos (Nat.zero_lt_of_lt hlen)
    obtain ⟨hc, hne, htail⟩ := h
    rw [List.length_cons] at hlen hapart
    have hstring : IsString (update m dest (m src)) (src + 1) s :=
      htail.store_outside (by omega) (m src)
    have hapart' : dest + 1 ≤ src + 1 ∨ src + 1 + s.length < dest + 1 := by omega
    have hgo := ih hstring (Nat.le_of_succ_le_succ hlen) hapart'
    rw [strncpyLoop, if_pos (hc ▸ hne)]
    have hcell : dest + (len + 1) = dest + 1 + len := by omega
    rw [hcell]
    exact List.mem_cons_of_mem dest hgo

/-- A destination inside the string overwrites the terminator before it is read. -/
theorem strncpyLoop_chase {len : ℕ} (hlt : src < dest)
    (h : ∀ x, src ≤ x → x < dest → m x ≠ 0) :
    dest + len ∈ (strncpyLoop m len dest src).stores := by
  induction len generalizing m dest src with
  | zero => exact List.mem_singleton_self dest
  | succ len ih =>
    have hbytes : ∀ x, src + 1 ≤ x → x < dest + 1 → update m dest (m src) x ≠ 0 := by
      intro x hsrc hdest
      by_cases hx : x = dest
      · rw [hx, update_self]
        exact h src le_rfl hlt
      · rw [update_of_ne hx]
        exact h x (by omega) (by omega)
    rw [strncpyLoop, if_pos (h src le_rfl hlt)]
    have hcell : dest + (len + 1) = dest + 1 + len := by omega
    rw [hcell]
    exact List.mem_cons_of_mem dest (ih (Nat.succ_lt_succ hlt) hbytes)

/-- A string that fits, and is not written into, is copied with its terminator. -/
theorem strncpyLoop_fits {len : ℕ} (h : IsString m src s) (hlen : s.length < len)
    (hapart : dest ≤ src ∨ src + s.length < dest) :
    (∀ x ∈ (strncpyLoop m len dest src).stores, dest ≤ x ∧ x ≤ dest + s.length) ∧
      ∀ i < s.length, (strncpyLoop m len dest src).mem (dest + i) = m (src + i) := by
  induction s generalizing m dest src len with
  | nil =>
    obtain ⟨len, rfl⟩ := Nat.exists_eq_add_of_le' (Nat.one_le_of_lt hlen)
    have hnul : m src = 0 := h
    rw [strncpyLoop, if_neg (not_not.2 hnul)]
    refine ⟨fun x hx => ?_, fun i hi => absurd hi (Nat.not_lt_zero i)⟩
    obtain rfl := List.mem_singleton.1 hx
    exact ⟨le_rfl, Nat.le_add_right _ _⟩
  | cons c s ih =>
    obtain ⟨len, rfl⟩ := Nat.exists_eq_add_of_le' (Nat.one_le_of_lt hlen)
    obtain ⟨hc, hne, htail⟩ := h
    rw [List.length_cons] at hlen hapart
    have hstring : IsString (update m dest (m src)) (src + 1) s :=
      htail.store_outside (by omega) (m src)
    have hapart' : dest + 1 ≤ src + 1 ∨ src + 1 + s.length < dest + 1 := by omega
    obtain ⟨hstores, hcopied⟩ := ih hstring (Nat.lt_of_succ_lt_succ hlen) hapart'
    rw [strncpyLoop, if_pos (hc ▸ hne), List.length_cons]
    refine ⟨List.forall_mem_cons.2 ⟨by omega, fun x hx => ?_⟩, fun i hi => ?_⟩
    · have := hstores x hx
      omega
    · cases i with
      | zero =>
        rw [Nat.add_zero, Nat.add_zero]
        exact (strncpyLoop_below _ _ _ _ (Nat.lt_succ_self dest)).trans (update_self dest _ m)
      | succ i =>
        have hcell : dest + (i + 1) = dest + 1 + i := by omega
        have hfrom : src + (i + 1) = src + 1 + i := by omega
        rw [hcell, hfrom]
        exact (hcopied i (by omega)).trans (update_of_ne (by omega) _ m)

theorem IsString.apply_ne_zero (h : IsString m src s) {i : ℕ} (hi : i < s.length) :
    m (src + i) ≠ 0 := by
  induction s generalizing src i with
  | nil => exact absurd hi (Nat.not_lt_zero i)
  | cons c s ih =>
    obtain ⟨hc, hne, htail⟩ := h
    cases i with
    | zero => exact hc ▸ hne
    | succ i =>
      have hstep : src + (i + 1) = src + 1 + i := by omega
      rw [hstep]
      exact ih htail (Nat.lt_of_succ_lt_succ hi)

/-- `strncpy` stays within its bound if and only if the terminator fits too, and the destination
does not begin inside the string. -/
theorem strncpy_within_iff (h : IsString m src s) (dest n : ℕ) :
    CopiesWithin m (strncpy m dest src n) dest src n s.length ↔
      s.length < n ∧ ¬ (src < dest ∧ dest ≤ src + s.length) := by
  constructor
  · intro hw
    have hlast : dest + n ∉ (strncpy m dest src n).stores := fun hmem =>
      absurd (hw.inBounds _ hmem).2 (Nat.lt_irrefl _)
    by_cases hin : src < dest ∧ dest ≤ src + s.length
    · refine absurd (strncpyLoop_chase hin.1 fun x hsrc hdest => ?_) hlast
      obtain ⟨i, rfl⟩ := Nat.exists_eq_add_of_le hsrc
      exact h.apply_ne_zero (by omega)
    · refine ⟨?_, hin⟩
      by_contra hlen
      exact hlast (strncpyLoop_overrun h (by omega) (by omega))
  · rintro ⟨hlen, hin⟩
    have hapart : dest ≤ src ∨ src + s.length < dest := by omega
    obtain ⟨hstores, hcopied⟩ := strncpyLoop_fits h hlen hapart
    refine ⟨fun x hx => ?_, fun i hi => hcopied i (by omega)⟩
    have := hstores x hx
    omega

theorem strncpy_within_iff_roomy :
    CopiesWithin (memOf [97, 0]) (strncpy (memOf [97, 0]) 10 0 2) 10 0 2 1 ↔
      1 < 2 ∧ ¬ (0 < 10 ∧ 10 ≤ 0 + 1) :=
  have hstring : IsString (memOf [97, 0]) 0 [97] := ⟨rfl, by decide, rfl⟩
  strncpy_within_iff hstring 10 2

/-- A string that fills the destination: its terminator is stored behind. -/
theorem strncpy_overrun :
    ¬ CopiesWithin (memOf [97, 0]) (strncpy (memOf [97, 0]) 10 0 1) 10 0 1 1 := by
  intro h
  have hlast : 11 ∈ (strncpy (memOf [97, 0]) 10 0 1).stores := by decide
  exact absurd (h.inBounds 11 hlast).2 (by decide)

end Copy

/-! ## `strrev` -/

/-- The address of `str[i]`. -/
def charAt (str i : ℕ) : ℕ := wrap (str + i)

/-- The loop of `strrev`. -/
def strrevLoop (str : ℕ) : ℕ → ℕ → ℕ → Mem → Option Mem
  | 0, _, _, _ => none
  | fuel + 1, i, j, m =>
    if i < j then
      let a := m (charAt str i)
      let m := update m (charAt str i) (m (charAt str j))
      let m := update m (charAt str j) a
      strrevLoop str fuel (wrap (i + 1)) (sub j 1) m
    else some m

/-- `strrev(str)`. The index `j` starts at `len - 1`, a word. -/
def strrev (fuel : ℕ) (m : Mem) (str : ℕ) : Option Mem :=
  ((CArray.ofMem m str).strlen fuel 0).bind fun len => strrevLoop str fuel 0 (sub len 1) m

section Reverse

variable {m m' : Mem} {str : ℕ} {s : List (BitVec 8)}

theorem charAt_injOn (str j : ℕ) (hj : j < 2 ^ 64) (i : ℕ) :
    Set.InjOn (charAt str) (Set.Icc i j) := by
  intro k hk l hl h
  have := hk.2
  have := hl.2
  unfold charAt wrap at h
  omega

theorem strrevLoop_mirrored {i j fuel : ℕ} (hj : j < 2 ^ 64) (hfuel : j - i < fuel) (m : Mem) :
    ∃ m', strrevLoop str fuel i j m = some m' ∧ Mirrored (charAt str) i j m m' := by
  induction fuel generalizing i j m with
  | zero => exact absurd hfuel (Nat.not_lt_zero _)
  | succ fuel ih =>
    rw [strrevLoop]
    by_cases hlt : i < j
    · have hi' : wrap (i + 1) = i + 1 := wrap_of_lt (by omega)
      have hj' : sub j 1 = j - 1 := sub_of_le (by omega) hj
      rw [if_pos hlt, hi', hj']
      obtain ⟨m', hrun, hm'⟩ := ih (i := i + 1) (j := j - 1) (by omega) (by omega)
        (swapCells (charAt str i) (charAt str j) m)
      exact ⟨m', hrun, mirrored_of_swap (charAt_injOn str j hj i) hlt hm'⟩
    · rw [if_neg hlt]
      exact ⟨m, rfl, mirrored_of_le (Nat.not_lt.1 hlt)⟩

/-- `strrev` turns the indices from 0 to `len - 1` round, for whatever word that is. -/
theorem strrev_mirrored (h : IsString m str s) (hs : s.length < 2 ^ 64) :
    ∃ m', (∃ N, ∀ fuel ≥ N, strrev fuel m str = some m') ∧
      Mirrored (charAt str) 0 (sub s.length 1) m m' := by
  have hlt : sub s.length 1 < 2 ^ 64 := wrap_lt _
  have hrun (fuel : ℕ) (hfuel : s.length + sub s.length 1 < fuel) :
      ∃ m', strrev fuel m str = some m' ∧ Mirrored (charAt str) 0 (sub s.length 1) m m' := by
    have hlen := CArray.strlen_eq (CArray.isString_ofMem (i := 0) h) (by omega : s.length < fuel)
    rw [strrev, hlen, Option.bind_some, Nat.zero_add]
    exact strrevLoop_mirrored hlt (by omega) m
  obtain ⟨m', -, hm'⟩ := hrun _ (Nat.lt_succ_self _)
  refine ⟨m', ⟨s.length + sub s.length 1 + 1, fun fuel hfuel => ?_⟩, hm'⟩
  obtain ⟨m'', hm, hm''⟩ := hrun fuel hfuel
  rw [hm, hm'.unique hm'']

/-- After `strrev`: the string is reversed, nothing else has changed, and a second call restores
it. -/
structure Reverses (m m' : Mem) (str : ℕ) (s : List (BitVec 8)) : Prop where
  string : IsString m' str s.reverse
  outside : SameOutside m m' str (s.length + 1)
  again : ∃ N, ∀ fuel ≥ N, strrev fuel m' str = some m

theorem isString_iff : IsString m str s ↔
    (∀ i < s.length, s[i]? = some (m (str + i))) ∧ m (str + s.length) = 0 ∧ ∀ c ∈ s, c ≠ 0 := by
  induction s generalizing str with
  | nil => simp [IsString]
  | cons c s ih =>
    have hshift (i : ℕ) : str + 1 + i = str + (i + 1) := by omega
    rw [IsString, ih, List.length_cons, Nat.forall_lt_succ_left, List.forall_mem_cons]
    simp only [List.getElem?_cons_zero, List.getElem?_cons_succ, Nat.add_zero, hshift,
      Option.some_inj, eq_comm (a := c)]
    tauto

theorem charAt_of_lt {i : ℕ} (h : str + i < 2 ^ 64) : charAt str i = str + i := wrap_of_lt h

/-- A string with characters is reversed where it stands. -/
theorem reverses_of_mirrored (h : IsString m str s) (hfit : str + s.length < 2 ^ 64) (hne : s ≠ [])
    (hm : Mirrored (charAt str) 0 (s.length - 1) m m') :
    IsString m' str s.reverse ∧ SameOutside m m' str (s.length + 1) := by
  have hpos : 0 < s.length := List.length_pos_iff.2 hne
  obtain ⟨hbytes, hnul, hchars⟩ := isString_iff.1 h
  have hout {x : ℕ} (hx : x < str ∨ str + s.length ≤ x) : m' x = m x := by
    refine hm.outside x fun k hk => ?_
    have := hk.2
    rw [charAt_of_lt (by omega)]
    omega
  constructor
  · rw [isString_iff, List.length_reverse]
    refine ⟨fun i hi => ?_, (hout (.inr le_rfl)).trans hnul,
      fun c hc => hchars c (by simpa using hc)⟩
    have hin := hm.inside i ⟨Nat.zero_le i, by omega⟩
    have hmirror : 0 + (s.length - 1) - i = s.length - 1 - i := by omega
    rw [hmirror, charAt_of_lt (by omega), charAt_of_lt (by omega)] at hin
    rw [List.getElem?_reverse hi, hin]
    exact hbytes _ (by omega)
  · intro x hx
    exact hout (by omega)

/-- On the empty string, the indices run through the whole address space. -/
theorem mirrored_whole_iff (hstr : str < 2 ^ 64) (hm : Mirrored (charAt str) 0 (2 ^ 64 - 1) m m') :
    m' = m ↔ ∀ i < 2 ^ 63, m (charAt str i) = m (charAt str (2 ^ 64 - 1 - i)) := by
  have hin {k : ℕ} (hk : k < 2 ^ 64) : m' (charAt str k) = m (charAt str (2 ^ 64 - 1 - k)) := by
    have h := hm.inside k ⟨Nat.zero_le k, by omega⟩
    rwa [Nat.zero_add] at h
  constructor
  · rintro rfl i hi
    exact hin (by omega)
  · intro hsym
    funext x
    by_cases hx : x < 2 ^ 64
    · obtain ⟨k, hk, rfl⟩ : ∃ k < 2 ^ 64, x = charAt str k := by
        refine ⟨sub x str, wrap_lt _, ?_⟩
        unfold charAt sub wrap
        omega
      rw [hin hk]
      by_cases hlow : k < 2 ^ 63
      · exact (hsym k hlow).symm
      · have hback := hsym (2 ^ 64 - 1 - k) (by omega)
        have hk' : 2 ^ 64 - 1 - (2 ^ 64 - 1 - k) = k := by omega
        rw [hk'] at hback
        exact hback
    · refine hm.outside x fun k _ => ?_
      have := wrap_lt (str + k)
      unfold charAt
      omega

/-- `strrev` reverses if and only if the string is not empty, or the whole memory is symmetric
around it. -/
theorem strrev_reverses_iff (h : IsString m str s) (hfit : str + s.length < 2 ^ 64) :
    (∃ m', (∃ N, ∀ fuel ≥ N, strrev fuel m str = some m') ∧ Reverses m m' str s) ↔
      s ≠ [] ∨ ∀ i < 2 ^ 63, m (charAt str i) = m (charAt str (2 ^ 64 - 1 - i)) := by
  obtain ⟨m', hrun, hm⟩ := strrev_mirrored h (by omega)
  trans Reverses m m' str s
  · constructor
    · rintro ⟨m'', hend, hr⟩
      exact Run.result_unique hend hrun ▸ hr
    · intro hr
      exact ⟨m', hrun, hr⟩
  by_cases hne : s = []
  · subst hne
    have hstr : str < 2 ^ 64 := hfit
    have hlast : sub ([] : List (BitVec 8)).length 1 = 2 ^ 64 - 1 := by norm_num [sub, wrap]
    rw [hlast] at hm
    rw [or_iff_right (not_not.2 rfl), ← mirrored_whole_iff hstr hm]
    constructor
    · intro hr
      funext x
      by_cases hx : x = str
      · have hnul : m str = 0 := h
        have hnul' : m' str = 0 := hr.string
        rw [hx, hnul, hnul']
      · exact hr.outside x (by simp; omega)
    · rintro rfl
      exact ⟨h, SameOutside.rfl, hrun⟩
  · have hpos : 0 < s.length := List.length_pos_iff.2 hne
    have hlast : sub s.length 1 = s.length - 1 := sub_of_le hpos (by omega)
    rw [hlast] at hm
    obtain ⟨hstring, hout⟩ := reverses_of_mirrored h hfit hne hm
    obtain ⟨m'', hrun', hm'⟩ := strrev_mirrored hstring (by rw [List.length_reverse]; omega)
    rw [List.length_reverse, hlast] at hm'
    rw [hm.involutive hm'] at hrun'
    exact iff_of_true ⟨hstring, hout, hrun'⟩ (.inl hne)

theorem strrev_reverses_iff_two :
    (∃ m', (∃ N, ∀ fuel ≥ N, strrev fuel (memOf [97, 98, 0]) 0 = some m') ∧
      Reverses (memOf [97, 98, 0]) m' 0 [97, 98]) ↔
      [(97 : BitVec 8), 98] ≠ [] ∨ ∀ i < 2 ^ 63,
        memOf [97, 98, 0] (charAt 0 i) = memOf [97, 98, 0] (charAt 0 (2 ^ 64 - 1 - i)) :=
  have hstring : IsString (memOf [97, 98, 0]) 0 [97, 98] := ⟨rfl, by decide, rfl, by decide, rfl⟩
  strrev_reverses_iff hstring (by decide)

/-- A memory whose last byte alone is set. -/
def lastByte : Mem := fun x => if x = 2 ^ 64 - 1 then 1 else 0

/-- The empty string at address 0: its terminator becomes the last byte of the address space. -/
theorem strrev_empty :
    IsString lastByte 0 [] ∧ ¬ ∃ m', (∃ N, ∀ fuel ≥ N, strrev fuel lastByte 0 = some m') ∧
      Reverses lastByte m' 0 [] := by
  have hstring : IsString lastByte 0 [] := rfl
  refine ⟨hstring, ?_⟩
  rintro ⟨m', hend, hr⟩
  obtain ⟨m'', hrun, hm⟩ := strrev_mirrored hstring (by decide)
  obtain rfl : m' = m'' := Run.result_unique hend hrun
  have hone : m' 0 = 1 := hm.inside 0 ⟨le_rfl, Nat.zero_le _⟩
  have hzero : m' 0 = 0 := hr.string
  exact absurd (hone.symm.trans hzero) (by decide)

end Reverse

end IceKernel
