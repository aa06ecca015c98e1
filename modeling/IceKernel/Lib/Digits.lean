import Mathlib.Data.Nat.Digits.Lemmas

/-!
# Numerals as lists of characters
-/

namespace Digits

/-- The value of a letter or digit as a digit, and 36 for every other character. -/
def digitVal (c : BitVec 8) : ℕ :=
  if 48 ≤ c.toNat ∧ c.toNat ≤ 57 then c.toNat - 48
  else if 97 ≤ c.toNat ∧ c.toNat ≤ 122 then c.toNat - 87
  else if 65 ≤ c.toNat ∧ c.toNat ≤ 90 then c.toNat - 55
  else 36

/-- The number that a list of digits denotes in a radix. -/
def numeralValue (radix : ℕ) (s : List (BitVec 8)) : ℕ :=
  s.foldl (fun n c => n * radix + digitVal c) 0

theorem numeralValue_snoc (radix : ℕ) (s : List (BitVec 8)) (c : BitVec 8) :
    numeralValue radix (s ++ [c]) = numeralValue radix s * radix + digitVal c := by
  rw [numeralValue, List.foldl_append]
  rfl

/-- The last digit, shifted, is the whole number only if there is nothing to denote. -/
theorem last_mul_radix_iff {radix q d : ℕ} (hd : d < radix) :
    d * radix = q * radix + d ↔ q * radix + d = 0 := by
  constructor
  · intro h
    have hmod : d * radix % radix = (q * radix + d) % radix := congrArg (· % radix) h
    rw [Nat.mul_mod_left, Nat.mul_add_mod', Nat.mod_eq_of_lt hd] at hmod
    rw [← h, ← hmod, Nat.zero_mul]
  · intro h
    obtain ⟨-, rfl⟩ := Nat.add_eq_zero_iff.1 h
    rw [h, Nat.zero_mul]

theorem numeralValue_lt {radix : ℕ} {s : List (BitVec 8)} (hs : ∀ c ∈ s, digitVal c < radix) :
    numeralValue radix s < radix ^ s.length := by
  induction s using List.reverseRecOn with
  | nil => exact Nat.one_pos
  | append_singleton s c ih =>
    have hc := hs c (by simp)
    have hlt := ih fun d hd => hs d (by simp [hd])
    rw [numeralValue_snoc, List.length_append, List.length_singleton, Nat.pow_succ]
    calc numeralValue radix s * radix + digitVal c
      _ < numeralValue radix s * radix + radix := Nat.add_lt_add_left hc _
      _ = (numeralValue radix s + 1) * radix := (Nat.succ_mul _ _).symm
      _ ≤ radix ^ s.length * radix := Nat.mul_le_mul_right radix hlt

/-! ## Decimal numerals -/

/-- The character of a decimal digit. -/
def digitChar (d : ℕ) : BitVec 8 := BitVec.ofNat 8 (d + 48)

/-- The decimal numeral without leading zeros. -/
def decimal (n : ℕ) : List (BitVec 8) :=
  if n = 0 then [digitChar 0] else ((Nat.digits 10 n).map digitChar).reverse

/-- `s` is the shortest numeral of `n`. -/
structure IsShortest (radix n : ℕ) (s : List (BitVec 8)) : Prop where
  ne_nil : s ≠ []
  digits : ∀ c ∈ s, digitVal c < radix
  value : numeralValue radix s = n
  shortest : ∀ t ≠ [], (∀ c ∈ t, digitVal c < radix) → numeralValue radix t = n →
    s.length ≤ t.length

theorem digitVal_digitChar {d : ℕ} (hd : d < 10) : digitVal (digitChar d) = d := by
  have hnat : (digitChar d).toNat = d + 48 := by
    rw [digitChar, BitVec.toNat_ofNat]
    omega
  rw [digitVal, hnat, if_pos (by omega)]
  omega

theorem numeralValue_digits (n : ℕ) :
    numeralValue 10 ((Nat.digits 10 n).map digitChar).reverse = n := by
  induction n using Nat.strong_induction_on with
  | _ n ih =>
    rcases Nat.eq_zero_or_pos n with rfl | hn
    · rfl
    · rw [Nat.digits_def' (by decide) hn, List.map_cons, List.reverse_cons, numeralValue_snoc,
        ih (n / 10) (Nat.div_lt_self hn (by decide)), digitVal_digitChar (Nat.mod_lt n (by decide))]
      omega

theorem decimal_isShortest (n : ℕ) : IsShortest 10 n (decimal n) := by
  unfold decimal
  split
  next h =>
    subst h
    exact ⟨List.cons_ne_nil _ _, by decide, by decide, fun t ht _ _ => List.length_pos_iff.2 ht⟩
  next h =>
    refine ⟨?_, fun c hc => ?_, numeralValue_digits n, fun t _ hdigits ht => ?_⟩
    · rw [Ne, List.reverse_eq_nil_iff, List.map_eq_nil_iff]
      exact Nat.digits_ne_nil_iff_ne_zero.2 h
    · simp only [List.mem_reverse, List.mem_map] at hc
      obtain ⟨d, hd, rfl⟩ := hc
      have hd := Nat.digits_lt_base (by decide) hd
      rw [digitVal_digitChar hd]
      exact hd
    · rw [List.length_reverse, List.length_map, Nat.digits_length_le_iff (by decide), ← ht]
      exact numeralValue_lt hdigits

/-! ## Numerals in other bases -/

/-- The character of a digit below 36. -/
def digitOf (upper : Bool) (d : ℕ) : BitVec 8 :=
  BitVec.ofNat 8 (if d < 10 then 48 + d else (if upper then 65 else 97) + d - 10)

/-- The digits of a number, the most significant one first; 0 has none. -/
def numeral (base : ℕ) (upper : Bool) (n : ℕ) : List (BitVec 8) :=
  ((Nat.digits base n).map (digitOf upper)).reverse

theorem digitVal_digitOf {d : ℕ} (upper : Bool) (hd : d < 36) :
    digitVal (digitOf upper d) = d := by
  unfold digitOf
  by_cases hten : d < 10
  · have hnat : (BitVec.ofNat 8 (48 + d)).toNat = 48 + d := by
      rw [BitVec.toNat_ofNat]
      omega
    rw [if_pos hten, digitVal, hnat, if_pos (by omega)]
    omega
  · rw [if_neg hten]
    cases upper with
    | true =>
      have hnat : (BitVec.ofNat 8 (65 + d - 10)).toNat = 55 + d := by
        rw [BitVec.toNat_ofNat]
        omega
      rw [if_pos rfl, digitVal, hnat, if_neg (by omega), if_neg (by omega), if_pos (by omega)]
      omega
    | false =>
      have hnat : (BitVec.ofNat 8 (97 + d - 10)).toNat = 87 + d := by
        rw [BitVec.toNat_ofNat]
        omega
      rw [if_neg Bool.false_ne_true, digitVal, hnat, if_neg (by omega), if_pos (by omega)]
      omega

/-- A numeral denotes its number. -/
theorem numeralValue_numeral {base : ℕ} (hbase : 2 ≤ base) (hle : base ≤ 36) (upper : Bool)
    (n : ℕ) : numeralValue base (numeral base upper n) = n := by
  induction n using Nat.strong_induction_on with
  | _ n ih =>
    rcases Nat.eq_zero_or_pos n with rfl | hn
    · simp [numeral, numeralValue]
    · have hd : n % base < 36 := (Nat.mod_lt n (by omega)).trans_le hle
      have hrec := ih (n / base) (Nat.div_lt_self hn hbase)
      rw [numeral] at hrec ⊢
      rw [Nat.digits_def' hbase hn, List.map_cons, List.reverse_cons, numeralValue_snoc, hrec,
        digitVal_digitOf upper hd, Nat.mul_comm, Nat.div_add_mod]

theorem digitVal_zero : digitVal 48 = 0 := by decide

/-- Leading zeros do not count. -/
theorem numeralValue_zeros (base k : ℕ) (s : List (BitVec 8)) :
    numeralValue base (List.replicate k 48 ++ s) = numeralValue base s := by
  induction k with
  | zero => rfl
  | succ k ih =>
    rw [List.replicate_succ, List.cons_append, numeralValue, List.foldl_cons, digitVal_zero,
      Nat.zero_mul]
    exact ih

theorem digitVal_of_mem_numeral {base : ℕ} (hbase : 2 ≤ base) (hle : base ≤ 36) {upper : Bool}
    {n : ℕ} {c : BitVec 8} (hc : c ∈ numeral base upper n) : digitVal c < base := by
  simp only [numeral, List.mem_reverse, List.mem_map] at hc
  obtain ⟨d, hd, rfl⟩ := hc
  have hlt := Nat.digits_lt_base hbase hd
  rwa [digitVal_digitOf upper (hlt.trans_le hle)]

end Digits
