import IceKernel.Libc.StringReaders
import Mathlib.Order.Bounds.Basic

/-!
# `strstr`, `strchr` and `memchr` of `libs/libc/string.cpp`

A pointer into the searched array is its index, and a null pointer is `none`.
-/

namespace IceKernel.CArray

/-- The loop of `strstr` with `str` advanced to `start`, and the cursors `a` and `b`. -/
def strstr (str substr : CArray) : ℕ → ℕ → ℕ → ℕ → Option (Option ℕ)
  | 0, _, _, _ => none
  | fuel + 1, start, a, b =>
    (substr b).bind fun cb =>
      if cb = 0 then some (some start)
      else (str a).bind fun ca =>
        if ca = 0 then some none
        else if ca ≠ cb then strstr str substr fuel (start + 1) (start + 1) 0
        else strstr str substr fuel start (a + 1) (b + 1)

/-- `strchr(str, ch)` with `str` advanced to `i`. A `char` is signed. -/
def strchr (str : CArray) (ch : ℤ) : ℕ → ℕ → Option (Option ℕ)
  | 0, _ => none
  | fuel + 1, i =>
    (str i).bind fun c =>
      if c ≠ 0 ∧ c.toInt ≠ ch then strchr str ch fuel (i + 1)
      else some (if ch = c.toInt then some i else none)

/-- `memchr(ptr, ch, len)` with `src` advanced to `i`. -/
def memchr (src : CArray) (ch : ℤ) : ℕ → ℕ → Option (Option ℕ)
  | 0, _ => some none
  | len + 1, i =>
    (src i).bind fun c =>
      if (c.toNat : ℤ) = ch then some (some i) else memchr src ch len (i + 1)

/-- The bytes `l` stand from index `i` on. -/
def HasBytes (src : CArray) (i : ℕ) : List (BitVec 8) → Prop
  | [] => True
  | c :: l => src i = some c ∧ HasBytes src (i + 1) l

/-! ## `strstr` -/

section Search

variable {str substr : CArray} {s t : List (BitVec 8)}

/-- `r` is the first place of `s` where `t` begins. -/
def IsFirstMatch (s t : List (BitVec 8)) (r : Option ℕ) : Prop :=
  ∀ i, r = some i ↔ IsLeast {i | t <+: s.drop i} i

theorem IsFirstMatch.unique {r r' : Option ℕ} (h : IsFirstMatch s t r)
    (h' : IsFirstMatch s t r') : r = r' :=
  Option.ext fun i => (h i).trans (h' i).symm

theorem isFirstMatch_some {i : ℕ} (h : IsLeast {i | t <+: s.drop i} i) :
    IsFirstMatch s t (some i) := by
  intro j
  constructor
  · intro hij
    obtain rfl := Option.some.inj hij
    exact h
  · intro hj
    rw [h.unique hj]

theorem isFirstMatch_none_iff : IsFirstMatch s t none ↔ ∀ i, ¬ t <+: s.drop i := by
  constructor
  · intro h i hi
    obtain ⟨j, hj⟩ : ∃ j, IsLeast {i | t <+: s.drop i} j := by
      classical exact ⟨Nat.find ⟨i, hi⟩, Nat.find_spec ⟨i, hi⟩, fun k hk => Nat.find_min' _ hk⟩
    exact Option.some_ne_none j ((h j).2 hj).symm
  · intro h i
    exact iff_of_false (Option.some_ne_none i).symm fun hi => h i hi.1

/-- With `p` matched and no earlier start possible, the loop finds the first match. Each round ends
a start or takes one character off what is left of the pattern. -/
theorem strstr_run (hs : str.IsString 0 s) (ht : substr.IsString 0 t) {fuel k : ℕ}
    {p u v : List (BitVec 8)} (hu : s.drop k = p ++ u) (hv : t = p ++ v)
    (hstart : k ≤ s.length) (hno : ∀ j < k, ¬ t <+: s.drop j)
    (hfuel : (s.length - k) * (t.length + 1) + v.length < fuel) :
    ∃ r, strstr str substr fuel k (k + p.length) p.length = some r ∧
      IsFirstMatch s t r := by
  induction fuel generalizing k p u v with
  | zero => exact absurd hfuel (Nat.not_lt_zero _)
  | succ fuel ih =>
    have hlen : s.length - k = p.length + u.length := by
      rw [← List.length_drop, hu, List.length_append]
    have htlen : t.length = p.length + v.length := by rw [hv, List.length_append]
    have hb : substr.IsString p.length v := by
      rw [hv] at ht
      have htail := ht.append
      rwa [Nat.zero_add] at htail
    have ha : str.IsString (k + p.length) u := by
      have hdrop := hs.drop (n := k + p.length) (by omega)
      rwa [← List.drop_drop, hu, List.drop_left, Nat.zero_add] at hdrop
    rw [strstr]
    cases v with
    | nil =>
      have hnul : substr p.length = some 0 := hb
      rw [hnul, Option.bind_some, if_pos rfl]
      refine ⟨some k, rfl, isFirstMatch_some ⟨?_, fun j hj => ?_⟩⟩
      · exact ⟨u, by rw [hu, hv, List.append_nil]⟩
      · by_contra hlt
        exact hno j (by omega) hj
    | cons d v =>
      rw [hb.1, Option.bind_some, if_neg hb.2.1]
      cases u with
      | nil =>
        -- no start is left with enough characters behind it
        have hnul : str (k + p.length) = some 0 := ha
        rw [hnul, Option.bind_some, if_pos rfl]
        refine ⟨none, rfl, isFirstMatch_none_iff.2 fun j hj => ?_⟩
        by_cases hlt : j < k
        · exact hno j hlt hj
        · have hle := hj.length_le
          rw [List.length_drop] at hle
          simp only [List.length_nil, List.length_cons] at hlen htlen
          omega
      | cons c u =>
        rw [ha.1, Option.bind_some, if_neg ha.2.1]
        rw [List.length_cons] at hlen htlen hfuel
        by_cases hcd : c = d
        · subst hcd
          rw [if_neg (not_not.2 rfl)]
          have hgo := ih (k := k) (p := p ++ [c]) (u := u) (v := v) (by rw [hu]; simp)
            (by rw [hv]; simp) hstart hno (by omega)
          rwa [List.length_append, List.length_singleton, ← Nat.add_assoc] at hgo
        · rw [if_pos hcd]
          have hhere : ¬ t <+: s.drop k := by
            rw [hu, hv, List.prefix_append_right_inj, List.cons_prefix_cons]
            exact fun h => hcd h.1.symm
          have hmeasure : (s.length - k) * (t.length + 1) =
              (s.length - (k + 1)) * (t.length + 1) + (t.length + 1) := by
            have hstep : s.length - k = s.length - (k + 1) + 1 := by omega
            rw [hstep, Nat.succ_mul]
          refine ih (k := k + 1) (p := []) (u := s.drop (k + 1)) (v := t) rfl rfl
            (by omega) (fun j hj => ?_) (by omega)
          rcases Nat.lt_succ_iff_lt_or_eq.1 hj with hlt | rfl
          · exact hno j hlt
          · exact hhere

/-- `strstr` ends with the first match, or with null if there is none. It does so on arrays that
end right behind the two terminators. -/
theorem strstr_first (hs : str.IsString 0 s) (ht : substr.IsString 0 t) :
    ∃ r N, (∀ fuel ≥ N, strstr str substr fuel 0 0 0 = some r) ∧
      (∀ i, r = some i ↔ IsLeast {i | t <+: s.drop i} i) ∧
      (r = none ↔ ∀ i, ¬ t <+: s.drop i) := by
  have hrun (fuel : ℕ) (hfuel : s.length * (t.length + 1) + t.length < fuel) :=
    strstr_run hs ht (k := 0) (p := []) (u := s) (v := t) rfl rfl (Nat.zero_le _)
      (fun j hj => absurd hj (Nat.not_lt_zero j)) hfuel
  obtain ⟨r, -, hr⟩ := hrun _ (Nat.lt_succ_self _)
  refine ⟨r, s.length * (t.length + 1) + t.length + 1, fun fuel hfuel => ?_, hr, ?_⟩
  · obtain ⟨r', hr', hfirst⟩ := hrun fuel hfuel
    rw [hr.unique hfirst]
    exact hr'
  · constructor
    · intro hnone
      exact isFirstMatch_none_iff.1 (hnone ▸ hr)
    · intro hno
      exact hr.unique (isFirstMatch_none_iff.2 hno)

/-- "ab" in "aab", behind a match that breaks off. -/
theorem strstr_first_aab :
    ∃ r N, (∀ fuel ≥ N, strstr (ofBytes [97, 97, 98, 0]) (ofBytes [97, 98, 0]) fuel 0 0 0 =
        some r) ∧
      (∀ i, r = some i ↔ IsLeast {i | [97, 98] <+: ([97, 97, 98] : List (BitVec 8)).drop i} i) ∧
      (r = none ↔ ∀ i, ¬ [97, 98] <+: ([97, 97, 98] : List (BitVec 8)).drop i) :=
  strstr_first (ofBytes_isString (s := [97, 97, 98]) (l := []) (by decide))
    (ofBytes_isString (s := [97, 98]) (l := []) (by decide))

end Search

/-! ## `strchr` and `memchr` -/

section Characters

variable {src : CArray} {s l : List (BitVec 8)} {ch : ℤ}

theorem strchr_eq {i : ℕ} (h : src.IsString i s) {fuel : ℕ} (hfuel : s.length < fuel) :
    strchr src ch fuel i =
      some (((s ++ [0]).findIdx? fun c : BitVec 8 => c.toInt = ch).map (i + ·)) := by
  induction s generalizing i fuel with
  | nil =>
    obtain ⟨fuel, rfl⟩ := Nat.exists_eq_add_of_le' (Nat.one_le_of_lt hfuel)
    have hnul : src i = some 0 := h
    rw [strchr, hnul, Option.bind_some, if_neg fun h => h.1 rfl, List.nil_append,
      List.findIdx?_cons, List.findIdx?_nil]
    by_cases hch : (0 : BitVec 8).toInt = ch
    · rw [if_pos hch.symm, if_pos (decide_eq_true hch)]
      rfl
    · rw [if_neg (Ne.symm hch), if_neg (by simpa using hch)]
      rfl
  | cons c s ih =>
    obtain ⟨fuel, rfl⟩ := Nat.exists_eq_add_of_le' (Nat.one_le_of_lt hfuel)
    rw [strchr, h.1, Option.bind_some, List.cons_append, List.findIdx?_cons]
    by_cases hch : c.toInt = ch
    · rw [if_neg fun hgo => hgo.2 hch, if_pos hch.symm, if_pos (decide_eq_true hch)]
      rfl
    · rw [if_pos ⟨h.2.1, hch⟩, if_neg (by simpa using hch),
        ih h.2.2 (Nat.lt_of_succ_lt_succ hfuel), Option.map_map]
      congr 2
      funext k
      simp only [Function.comp_apply]
      omega

theorem memchr_eq {i : ℕ} (h : src.HasBytes i l) :
    memchr src ch l.length i =
      some ((l.findIdx? fun c : BitVec 8 => (c.toNat : ℤ) = ch).map (i + ·)) := by
  induction l generalizing i with
  | nil => rfl
  | cons c l ih =>
    rw [List.length_cons, memchr, h.1, Option.bind_some, List.findIdx?_cons]
    by_cases hch : (c.toNat : ℤ) = ch
    · rw [if_pos hch, if_pos (decide_eq_true hch)]
      rfl
    · rw [if_neg hch, if_neg (by simpa using hch), ih h.2, Option.map_map]
      congr 2
      funext k
      simp only [Function.comp_apply]
      omega

/-- A search for `ch` itself among promoted characters is the search for the converted `ch`, unless
no character is promoted to `ch` and one is to its residue. -/
theorem findIdx_promoted_iff {promote : BitVec 8 → ℤ} {inRange : Prop}
    (hin : inRange → ∀ c, promote c = ch ↔ c = BitVec.ofInt 8 ch)
    (hout : ¬ inRange → ∀ c, promote c ≠ ch) (l : List (BitVec 8)) :
    (l.findIdx? fun c => promote c = ch) = l.idxOf? (BitVec.ofInt 8 ch) ↔
      inRange ∨ BitVec.ofInt 8 ch ∉ l := by
  by_cases h : inRange
  · have hsame : (fun c => decide (promote c = ch)) = (· == BitVec.ofInt 8 ch) := by
      funext c
      rw [Bool.eq_iff_iff, decide_eq_true_iff, beq_iff_eq]
      exact hin h c
    rw [hsame]
    exact iff_of_true rfl (.inl h)
  · have hnone : (l.findIdx? fun c => promote c = ch) = none := by
      rw [List.findIdx?_eq_none_iff]
      intro c _
      exact decide_eq_false (hout h c)
    rw [hnone, or_iff_right h, eq_comm, List.idxOf?_eq_none_iff]

theorem toInt_eq_iff (c : BitVec 8) (h : -128 ≤ ch ∧ ch < 128) :
    c.toInt = ch ↔ c = BitVec.ofInt 8 ch := by
  have hch : (BitVec.ofInt 8 ch).toInt = ch := by
    rw [BitVec.toInt_ofInt, Int.bmod_eq_of_le (by omega) (by omega)]
  constructor
  · intro hc
    exact BitVec.eq_of_toInt_eq (hc.trans hch.symm)
  · intro hc
    rw [hc, hch]

theorem toNat_eq_iff (c : BitVec 8) (h : 0 ≤ ch ∧ ch < 256) :
    (c.toNat : ℤ) = ch ↔ c = BitVec.ofInt 8 ch := by
  have hch : ((BitVec.ofInt 8 ch).toNat : ℤ) = ch := by
    rw [BitVec.toNat_ofInt]
    omega
  constructor
  · intro hc
    apply BitVec.eq_of_toNat_eq
    omega
  · intro hc
    rw [hc, hch]

/-- `strchr` and `memchr` find what C's conversion of `ch` says if and only if `ch` is a value of
their character type, or its conversion does not occur. -/
theorem char_searches_iff {p : CArray} (hs : src.IsString 0 s) (hl : p.HasBytes 0 l) (ch : ℤ) :
    ((∃ N, ∀ fuel ≥ N, strchr src ch fuel 0 = some ((s ++ [0]).idxOf? (BitVec.ofInt 8 ch))) ↔
        (-128 ≤ ch ∧ ch < 128) ∨ BitVec.ofInt 8 ch ∉ s ++ [0]) ∧
      (memchr p ch l.length 0 = some (l.idxOf? (BitVec.ofInt 8 ch)) ↔
        (0 ≤ ch ∧ ch < 256) ∨ BitVec.ofInt 8 ch ∉ l) := by
  have hid : (fun k : ℕ => 0 + k) = id := funext Nat.zero_add
  constructor
  · rw [← findIdx_promoted_iff (fun h c => toInt_eq_iff c h) fun h c hc => ?_]
    · constructor
      · intro hend
        have hsame := Run.result_unique ⟨_, fun fuel hfuel => strchr_eq hs hfuel⟩ hend
        rwa [hid, Option.map_id] at hsame
      · intro hsame
        refine ⟨s.length + 1, fun fuel hfuel => ?_⟩
        rw [strchr_eq hs hfuel, hid, Option.map_id, ← hsame]
        rfl
    · have hlo := c.le_toInt
      have hhi := c.toInt_lt
      omega
  · rw [memchr_eq hl, hid, Option.map_id, id, Option.some_inj]
    refine findIdx_promoted_iff (fun h c => toNat_eq_iff c h) (fun h c hc => ?_) l
    have hlt := c.isLt
    omega

theorem char_searches_iff_ascii :
    ((∃ N, ∀ fuel ≥ N, strchr (ofBytes [97, 0]) 98 fuel 0 =
        some (([97] ++ [0] : List (BitVec 8)).idxOf? (BitVec.ofInt 8 98))) ↔
      (-128 ≤ (98 : ℤ) ∧ (98 : ℤ) < 128) ∨ BitVec.ofInt 8 98 ∉ ([97] ++ [0] : List (BitVec 8))) ∧
    (memchr (ofBytes [97, 98]) 98 2 0 =
        some (([97, 98] : List (BitVec 8)).idxOf? (BitVec.ofInt 8 98)) ↔
      (0 ≤ (98 : ℤ) ∧ (98 : ℤ) < 256) ∨ BitVec.ofInt 8 98 ∉ ([97, 98] : List (BitVec 8))) :=
  have hbytes : (ofBytes [97, 98]).HasBytes 0 [97, 98] := ⟨rfl, rfl, trivial⟩
  char_searches_iff (ofBytes_isString (s := [97]) (l := []) (by decide)) hbytes 98

/-- 353 is converted to 'a', which both arrays have at their start. -/
theorem char_searches_unconverted :
    ¬ (∃ N, ∀ fuel ≥ N, strchr (ofBytes [97, 0]) 353 fuel 0 =
        some (([97] ++ [0] : List (BitVec 8)).idxOf? (BitVec.ofInt 8 353))) ∧
      ¬ memchr (ofBytes [97]) 353 1 0 =
        some (([97] : List (BitVec 8)).idxOf? (BitVec.ofInt 8 353)) := by
  constructor
  · rintro ⟨N, hN⟩
    have hstring : (ofBytes [97, 0]).IsString 0 [97] :=
      ofBytes_isString (s := [97]) (l := []) (by decide)
    have hrun := hN (N + 2) (by omega)
    rw [strchr_eq hstring (by simp)] at hrun
    revert hrun
    decide
  · decide

end Characters

end IceKernel.CArray
