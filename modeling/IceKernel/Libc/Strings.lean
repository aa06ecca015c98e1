import IceKernel.Lib.LexSign
import IceKernel.Lib.Run
import IceKernel.Lib.Word64
import IceKernel.Lib.ByteMemory

/-!
# `memcmp`, `strcmp` and `strncmp` of `libs/libc/string.cpp`
-/

namespace IceKernel
open ByteMemory Word64 LexSign

/-! ## `memcmp` -/

/-- What a call of `memcmp` returns, and at which indices it reads its two buffers. -/
structure Comparison where
  value : ℤ
  reads1 : List ℕ
  reads2 : List ℕ

/-- The loop of `memcmp` from index `i` on. A difference is judged by byte 2 of the second
buffer, `p2[2]` in the source. -/
def memcmpLoop (p1 p2 : ℕ → BitVec 8) : ℕ → ℕ → Comparison
  | 0, _ => ⟨0, [], []⟩
  | n + 1, i =>
    if p1 i ≠ p2 i then ⟨if p1 i < p2 2 then -1 else 1, [i, i], [i, 2]⟩
    else
      let rest := memcmpLoop p1 p2 n (i + 1)
      ⟨rest.value, i :: rest.reads1, i :: rest.reads2⟩

/-- `memcmp(ptr1, ptr2, len)`. -/
def memcmp (m : Mem) (ptr1 ptr2 len : ℕ) : Comparison :=
  memcmpLoop (fun i => m (ptr1 + i)) (fun i => m (ptr2 + i)) len 0

/-- The `n` bytes of a buffer from index `i` on. -/
def bytes (p : ℕ → BitVec 8) : ℕ → ℕ → List (BitVec 8)
  | 0, _ => []
  | n + 1, i => p i :: bytes p n (i + 1)

/-- The buffer of `len` bytes at an address. -/
def buffer (m : Mem) (ptr len : ℕ) : List (BitVec 8) := bytes (fun i => m (ptr + i)) len 0

/-- Both buffers are read below `len` only. -/
def Comparison.InBounds (c : Comparison) (len : ℕ) : Prop :=
  (∀ j ∈ c.reads1, j < len) ∧ ∀ j ∈ c.reads2, j < len

/-- `memcmp` orders two buffers: its sign is their order, and it reads nothing else. -/
structure MemcmpOrders (m : Mem) (ptr1 ptr2 len : ℕ) : Prop where
  sign : SignOf (memcmp m ptr1 ptr2 len).value (buffer m ptr1 len) (buffer m ptr2 len)
  inBounds : (memcmp m ptr1 ptr2 len).InBounds len

theorem MemcmpOrders.antisymm {m : Mem} {p q len : ℕ} (h : MemcmpOrders m p q len)
    (h' : MemcmpOrders m q p len) :
    (memcmp m p q len).value < 0 ↔ 0 < (memcmp m q p len).value :=
  h.sign.antisymm h'.sign

theorem MemcmpOrders.trans {m : Mem} {p q r len : ℕ} (hpq : MemcmpOrders m p q len)
    (hqr : MemcmpOrders m q r len) (hpr : MemcmpOrders m p r len)
    (hlt : (memcmp m p q len).value < 0) (hlt' : (memcmp m q r len).value < 0) :
    (memcmp m p r len).value < 0 :=
  hpq.sign.trans hqr.sign hpr.sign hlt hlt'

theorem bytes_length (p : ℕ → BitVec 8) (n i : ℕ) : (bytes p n i).length = n := by
  induction n generalizing i with
  | zero => rfl
  | succ n ih => rw [bytes, List.length_cons, ih]

section Loop

variable {p1 p2 : ℕ → BitVec 8} {n i : ℕ}

theorem memcmpLoop_of_eq (h : bytes p1 n i = bytes p2 n i) :
    (memcmpLoop p1 p2 n i).value = 0 ∧ (memcmpLoop p1 p2 n i).InBounds (i + n) := by
  induction n generalizing i with
  | zero => exact ⟨rfl, by simp [Comparison.InBounds, memcmpLoop]⟩
  | succ n ih =>
    obtain ⟨hhead, htail⟩ := List.cons.inj h
    obtain ⟨hvalue, hreads1, hreads2⟩ := ih htail
    have hsum : i + 1 + n = i + (n + 1) := by omega
    rw [hsum] at hreads1 hreads2
    rw [memcmpLoop, if_neg (not_not.2 hhead)]
    exact ⟨hvalue, List.forall_mem_cons.2 ⟨by omega, hreads1⟩,
      List.forall_mem_cons.2 ⟨by omega, hreads2⟩⟩

/-- The first difference is found, and judged by byte 2. -/
theorem memcmpLoop_of_firstDiff {x y : BitVec 8} (h : FirstDiff (bytes p1 n i) (bytes p2 n i) x y) :
    (memcmpLoop p1 p2 n i).value = (if x < p2 2 then -1 else 1) ∧
      ∀ len ≥ i + n, (memcmpLoop p1 p2 n i).InBounds len ↔ 2 < len := by
  induction n generalizing i with
  | zero =>
    obtain ⟨l, a', b', ha, -⟩ := h
    exact absurd ha (by simp [bytes])
  | succ n ih =>
    rcases firstDiff_cons.1 h with ⟨hne, rfl, rfl⟩ | ⟨heq, htail⟩
    · rw [memcmpLoop, if_pos hne]
      refine ⟨rfl, fun len hlen => ?_⟩
      have hi : i < len := by omega
      simp [Comparison.InBounds, hi]
    · obtain ⟨hvalue, hreads⟩ := ih htail
      rw [memcmpLoop, if_neg (not_not.2 heq)]
      refine ⟨hvalue, fun len hlen => ?_⟩
      have hi : i < len := by omega
      rw [← hreads len (by omega)]
      simp [Comparison.InBounds, hi]

end Loop

/-- `memcmp` orders its buffers if and only if they are equal, or byte 2 of the second one is there
and lies on the right side of the first difference. -/
theorem memcmp_orders_iff (m : Mem) (ptr1 ptr2 len : ℕ) :
    MemcmpOrders m ptr1 ptr2 len ↔
      buffer m ptr1 len = buffer m ptr2 len ∨
        2 < len ∧ ∃ x y, FirstDiff (buffer m ptr1 len) (buffer m ptr2 len) x y ∧
          (x < m (ptr2 + 2) ↔ x < y) := by
  by_cases heq : buffer m ptr1 len = buffer m ptr2 len
  · obtain ⟨hvalue, hreads⟩ := memcmpLoop_of_eq heq
    rw [Nat.zero_add] at hreads
    have hsign : SignOf (memcmp m ptr1 ptr2 len).value (buffer m ptr1 len) (buffer m ptr2 len) := by
      rw [memcmp, hvalue, heq]
      exact signOf_zero _
    exact iff_of_true ⟨hsign, hreads⟩ (.inl heq)
  · have hlen : (buffer m ptr1 len).length = (buffer m ptr2 len).length := by
      rw [buffer, buffer, bytes_length, bytes_length]
    obtain ⟨x, y, hdiff⟩ := exists_firstDiff hlen heq
    obtain ⟨hvalue, hreads⟩ := memcmpLoop_of_firstDiff hdiff
    have hsign : SignOf (memcmp m ptr1 ptr2 len).value (buffer m ptr1 len) (buffer m ptr2 len) ↔
        (x < m (ptr2 + 2) ↔ x < y) := by
      rw [memcmp, hvalue, hdiff.signOf_iff, signOf_ite_iff hdiff.ne]
    have hbounds : (memcmp m ptr1 ptr2 len).InBounds len ↔ 2 < len := hreads len (by omega)
    rw [or_iff_right heq]
    constructor
    · intro h
      exact ⟨hbounds.1 h.inBounds, x, y, hdiff, hsign.1 h.sign⟩
    · rintro ⟨hlong, x', y', hdiff', horder⟩
      obtain ⟨rfl, rfl⟩ := hdiff.unique hdiff'
      exact ⟨hsign.2 horder, hbounds.2 hlong⟩

/-- A memory that starts with these bytes and is zero behind. -/
def memOf (l : List (BitVec 8)) : Mem := fun x => l.getD x 0

/-- The smaller of two one-byte buffers is taken for the greater, by a read behind the other. -/
theorem memcmp_one_two : ¬ MemcmpOrders (memOf [1, 2]) 0 1 1 := by
  intro h
  have hneg : (memcmp (memOf [1, 2]) 0 1 1).value < 0 := h.sign.neg.2 (by decide)
  revert hneg
  decide

/-! ## `strcmp` and `strncmp` -/

/-- `strcmp(str1, str2)` in at most `fuel` rounds. A `char` is signed. -/
def strcmp (m : Mem) : ℕ → ℕ → ℕ → Option ℤ
  | 0, _, _ => none
  | fuel + 1, str1, str2 =>
    if m str1 ≠ 0 ∧ m str2 ≠ 0 ∧ m str1 = m str2 then strcmp m fuel (str1 + 1) (str2 + 1)
    else some ((m str1).toInt - (m str2).toInt)

/-- The `return` of `strncmp`. -/
def strncmpResult (m : Mem) (str1 str2 len : ℕ) : ℤ :=
  if len = 0 then 0 else (m str1).toInt - (m str2).toInt

/-- `strncmp(str1, str2, len)` in at most `fuel` rounds. Where the first three tests hold, `len--`
takes one off `len` also when it ends the loop. -/
def strncmp (m : Mem) : ℕ → ℕ → ℕ → ℕ → Option ℤ
  | 0, _, _, _ => none
  | fuel + 1, str1, str2, len =>
    if m str1 ≠ 0 ∧ m str2 ≠ 0 ∧ m str1 = m str2 then
      if len ≠ 0 then strncmp m fuel (str1 + 1) (str2 + 1) (sub len 1)
      else some (strncmpResult m str1 str2 (sub len 1))
    else some (strncmpResult m str1 str2 len)

/-- The NUL-terminated string `s` stands at `str`. -/
def IsString (m : Mem) (str : ℕ) : List (BitVec 8) → Prop
  | [] => m str = 0
  | c :: s => m str = c ∧ c ≠ 0 ∧ IsString m (str + 1) s

/-- The difference of the signed characters at the first place where two strings differ. -/
def charDiff : List (BitVec 8) → List (BitVec 8) → ℤ
  | c :: s, d :: t => if c = d then charDiff s t else c.toInt - d.toInt
  | s, t => (s.headD 0).toInt - (t.headD 0).toInt

section String

variable {m : Mem} {str1 str2 : ℕ} {a b : List (BitVec 8)}

theorem IsString.head (h : IsString m str1 a) : m str1 = a.headD 0 := by
  cases a with
  | nil => exact h
  | cons c a => exact h.1

theorem IsString.ne_zero (h : IsString m str1 a) {c : BitVec 8} (hc : c ∈ a) : c ≠ 0 := by
  induction a generalizing str1 with
  | nil => exact absurd hc List.not_mem_nil
  | cons d a ih =>
    rcases List.mem_cons.1 hc with rfl | htail
    · exact h.2.1
    · exact ih h.2.2 htail

/-- The loops go on if and only if both strings do, with the same character. -/
theorem IsString.continues_iff (ha : IsString m str1 a) (hb : IsString m str2 b) :
    (m str1 ≠ 0 ∧ m str2 ≠ 0 ∧ m str1 = m str2) ↔ ∃ c s t, a = c :: s ∧ b = c :: t := by
  cases a with
  | nil => simp [ha.head]
  | cons c s =>
    cases b with
    | nil => simp [hb.head]
    | cons d t =>
      rw [ha.head, hb.head]
      constructor
      · rintro ⟨-, -, hcd⟩
        exact ⟨c, s, t, rfl, by rw [show c = d from hcd]⟩
      · rintro ⟨e, s', t', hs, ht⟩
        obtain ⟨rfl, -⟩ := List.cons.inj hs
        obtain ⟨rfl, -⟩ := List.cons.inj ht
        exact ⟨ha.2.1, ha.2.1, rfl⟩

theorem charDiff_of_not_continues (h : ¬ ∃ c s t, a = c :: s ∧ b = c :: t) :
    charDiff a b = (a.headD 0).toInt - (b.headD 0).toInt := by
  cases a with
  | nil => rfl
  | cons c s =>
    cases b with
    | nil => rfl
    | cons d t =>
      have hcd : c ≠ d := by
        rintro rfl
        exact h ⟨c, s, t, rfl, rfl⟩
      rw [charDiff, if_neg hcd]
      rfl

theorem charDiff_take_of_not_continues (h : ¬ ∃ c s t, a = c :: s ∧ b = c :: t) (len : ℕ) :
    charDiff (a.take (len + 1)) (b.take (len + 1)) = (a.headD 0).toInt - (b.headD 0).toInt := by
  have hcut : ¬ ∃ c s t, a.take (len + 1) = c :: s ∧ b.take (len + 1) = c :: t := by
    rintro ⟨c, s, t, hs, ht⟩
    have ha : a.head? = some c := by simpa [hs] using (List.head?_take (l := a) (i := len + 1)).symm
    have hb : b.head? = some c := by simpa [ht] using (List.head?_take (l := b) (i := len + 1)).symm
    obtain ⟨s', hs'⟩ := List.head?_eq_some_iff.1 ha
    obtain ⟨t', ht'⟩ := List.head?_eq_some_iff.1 hb
    exact h ⟨c, s', t', hs', ht'⟩
  rw [charDiff_of_not_continues hcut]
  simp [List.headD_eq_head?_getD, List.head?_take]

theorem strcmp_eq (ha : IsString m str1 a) (hb : IsString m str2 b) {fuel : ℕ}
    (hfuel : a.length < fuel) : strcmp m fuel str1 str2 = some (charDiff a b) := by
  induction fuel generalizing a b str1 str2 with
  | zero => exact absurd hfuel (Nat.not_lt_zero _)
  | succ fuel ih =>
    rw [strcmp]
    by_cases hgo : ∃ c s t, a = c :: s ∧ b = c :: t
    · rw [if_pos ((ha.continues_iff hb).2 hgo)]
      obtain ⟨c, s, t, rfl, rfl⟩ := hgo
      rw [charDiff, if_pos rfl]
      exact ih ha.2.2 hb.2.2 (Nat.lt_of_succ_lt_succ hfuel)
    · rw [if_neg (mt (ha.continues_iff hb).1 hgo), charDiff_of_not_continues hgo, ha.head, hb.head]

/-- The length counter ends the comparison where the cut strings end. -/
theorem strncmp_eq (ha : IsString m str1 a) (hb : IsString m str2 b) {fuel len : ℕ}
    (hfuel : a.length < fuel) (hlen : len < 2 ^ 64) :
    strncmp m fuel str1 str2 len = some (charDiff (a.take len) (b.take len)) := by
  induction fuel generalizing a b str1 str2 len with
  | zero => exact absurd hfuel (Nat.not_lt_zero _)
  | succ fuel ih =>
    rw [strncmp]
    by_cases hgo : ∃ c s t, a = c :: s ∧ b = c :: t
    · have htests := (ha.continues_iff hb).2 hgo
      rw [if_pos htests]
      obtain ⟨c, s, t, rfl, rfl⟩ := hgo
      cases len with
      | zero =>
        -- the counter wraps, and the two equal characters are subtracted
        rw [if_neg (not_not.2 rfl), strncmpResult, htests.2.2, sub_self, ite_self]
        rfl
      | succ len =>
        rw [if_pos (Nat.succ_ne_zero len), sub_of_le (by omega) hlen, Nat.add_sub_cancel,
          List.take_succ_cons, List.take_succ_cons, charDiff, if_pos rfl]
        exact ih ha.2.2 hb.2.2 (Nat.lt_of_succ_lt_succ hfuel) (by omega)
    · rw [if_neg (mt (ha.continues_iff hb).1 hgo), strncmpResult]
      cases len with
      | zero => rfl
      | succ len =>
        rw [if_neg (Nat.succ_ne_zero len), charDiff_take_of_not_continues hgo, ha.head, hb.head]

theorem charDiff_self (a : List (BitVec 8)) : charDiff a a = 0 := by
  induction a with
  | nil => rfl
  | cons c s ih => rw [charDiff, if_pos rfl, ih]

theorem charDiff_of_firstDiff (ha : IsString m str1 a) (hb : IsString m str2 b) {x y : BitVec 8}
    (h : FirstDiff (a ++ [0]) (b ++ [0]) x y) : charDiff a b = x.toInt - y.toInt := by
  induction a generalizing b str1 str2 with
  | nil =>
    cases b with
    | nil => exact absurd rfl h.lists_ne
    | cons d t =>
      rcases firstDiff_cons.1 h with ⟨-, rfl, rfl⟩ | ⟨heq, -⟩
      · rfl
      · exact absurd heq.symm hb.2.1
  | cons c s ih =>
    cases b with
    | nil =>
      rcases firstDiff_cons.1 h with ⟨-, rfl, rfl⟩ | ⟨heq, -⟩
      · rfl
      · exact absurd heq ha.2.1
    | cons d t =>
      rcases firstDiff_cons.1 h with ⟨hne, rfl, rfl⟩ | ⟨rfl, htail⟩
      · rw [charDiff, if_neg hne]
      · rw [charDiff, if_pos rfl]
        exact ih ha.2.2 hb.2.2 htail

end String

/-- Signed characters order as the bytes do if and only if both are ASCII or neither is. -/
theorem signOf_toInt_sub_iff {x y : BitVec 8} (hne : x ≠ y) :
    SignOf (x.toInt - y.toInt) x y ↔ x.msb = y.msb := by
  have hnat : x.toNat ≠ y.toNat := fun h => hne (BitVec.eq_of_toNat_eq h)
  have hx : x.toNat < 256 := x.isLt
  have hy : y.toNat < 256 := y.isLt
  rw [BitVec.toInt_eq_msb_cond, BitVec.toInt_eq_msb_cond]
  constructor
  · intro h
    have hneg := h.neg
    have hxtop : x.msb = decide (128 ≤ x.toNat) := BitVec.msb_eq_decide x
    have hytop : y.msb = decide (128 ≤ y.toNat) := BitVec.msb_eq_decide y
    rw [BitVec.lt_def] at hneg
    by_contra htop
    by_cases hx' : 128 ≤ x.toNat <;> by_cases hy' : 128 ≤ y.toNat <;>
      simp [hxtop, hytop, hx', hy'] at hneg htop <;> omega
  · intro h
    rw [h]
    refine ⟨?_, iff_of_false ?_ hne, ?_⟩
    · rw [BitVec.lt_def]
      split <;> omega
    · split <;> omega
    · rw [BitVec.lt_def]
      split <;> omega

/-- `strcmp` orders strings as sequences of unsigned bytes if and only if they are equal or the two
bytes of their first difference have the same top bit. The terminator counts. -/
theorem strcmp_orders_iff {m : Mem} {str1 str2 : ℕ} {a b : List (BitVec 8)}
    (ha : IsString m str1 a) (hb : IsString m str2 b) :
    (∃ r N, (∀ fuel ≥ N, strcmp m fuel str1 str2 = some r) ∧ SignOf r a b) ↔
      a = b ∨ ∃ x y, FirstDiff (a ++ [0]) (b ++ [0]) x y ∧ x.msb = y.msb := by
  have hrun : ∀ fuel ≥ a.length + 1, strcmp m fuel str1 str2 = some (charDiff a b) :=
    fun fuel hfuel => strcmp_eq ha hb hfuel
  have hpos {s : List (BitVec 8)} {str : ℕ} (h : IsString m str s) : ∀ c ∈ s, 0 < c :=
    fun c hc => (BitVec.pos_iff_ne_zero c).2 (h.ne_zero hc)
  trans SignOf (charDiff a b) a b
  · constructor
    · rintro ⟨r, N, hr, hsign⟩
      have hsame : r = charDiff a b := Run.result_unique ⟨N, hr⟩ ⟨_, hrun⟩
      exact hsame ▸ hsign
    · intro hsign
      exact ⟨_, _, hrun, hsign⟩
  by_cases heq : a = b
  · subst heq
    rw [charDiff_self]
    exact iff_of_true (signOf_zero a) (.inl rfl)
  · obtain ⟨x, y, hdiff⟩ := exists_firstDiff_terminated (fun h => ha.ne_zero h rfl)
      (fun h => hb.ne_zero h rfl) heq
    rw [or_iff_right heq, ← signOf_terminated_iff (hpos ha) (hpos hb), hdiff.signOf_iff,
      charDiff_of_firstDiff ha hb hdiff, signOf_toInt_sub_iff hdiff.ne]
    constructor
    · intro htop
      exact ⟨x, y, hdiff, htop⟩
    · rintro ⟨x', y', hdiff', htop⟩
      obtain ⟨rfl, rfl⟩ := hdiff.unique hdiff'
      exact htop

theorem strcmp_orders_iff_ascii :
    (∃ r N, (∀ fuel ≥ N, strcmp (memOf [97, 0, 98, 0]) fuel 0 2 = some r) ∧
        SignOf r ([97] : List (BitVec 8)) [98]) ↔
      ([97] : List (BitVec 8)) = [98] ∨
        ∃ x y : BitVec 8, FirstDiff ([97] ++ [0]) ([98] ++ [0]) x y ∧ x.msb = y.msb :=
  strcmp_orders_iff (a := [97]) (b := [98]) ⟨rfl, by decide, rfl⟩ ⟨rfl, by decide, rfl⟩

/-- A byte from 128 on comes before every smaller one. -/
theorem strcmp_high_byte :
    ¬ ∃ r N, (∀ fuel ≥ N, strcmp (memOf [128, 0, 1, 0]) fuel 0 2 = some r) ∧
      SignOf r ([128] : List (BitVec 8)) [1] := by
  rintro ⟨r, N, hrun, hsign⟩
  have hr := hrun (N + 1) (by omega)
  rw [strcmp, if_neg (by decide)] at hr
  have hneg : r < 0 := Option.some.inj hr ▸ by decide
  exact absurd (hsign.neg.1 hneg) (by decide)

/-- `strncmp` returns what `strcmp` returns on the strings cut to `len` characters, wherever
these stand. -/
theorem strncmp_eq_strcmp_take {m m' : Mem} {str1 str2 p1 p2 : ℕ} {a b : List (BitVec 8)}
    {len : ℕ} (hlen : len < 2 ^ 64) (ha : IsString m str1 a) (hb : IsString m str2 b)
    (ha' : IsString m' p1 (a.take len)) (hb' : IsString m' p2 (b.take len)) :
    ∃ r N, ∀ fuel ≥ N, strncmp m fuel str1 str2 len = some r ∧ strcmp m' fuel p1 p2 = some r := by
  refine ⟨charDiff (a.take len) (b.take len), a.length + 1, fun fuel hfuel => ?_⟩
  have hcut : (a.take len).length < fuel := (List.length_take_le' len a).trans_lt hfuel
  exact ⟨strncmp_eq ha hb hfuel hlen, strcmp_eq ha' hb' hcut⟩

/-- "ab" and "ac", of which one character is compared. -/
theorem strncmp_eq_strcmp_take_one :
    ∃ r N, ∀ fuel ≥ N, strncmp (memOf [97, 98, 0, 97, 99, 0]) fuel 0 3 1 = some r ∧
      strcmp (memOf [97, 0]) fuel 0 0 = some r :=
  strncmp_eq_strcmp_take (a := [97, 98]) (b := [97, 99]) (by norm_num)
    ⟨rfl, by decide, rfl, by decide, rfl⟩ ⟨rfl, by decide, rfl, by decide, rfl⟩
    ⟨rfl, by decide, rfl⟩ ⟨rfl, by decide, rfl⟩

end IceKernel
