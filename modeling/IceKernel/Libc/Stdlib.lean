import IceKernel.Lib.Digits
import IceKernel.Libc.StringReaders

/-!
# `strtoll`, `strtol` and `atoi` of `libs/libc/stdlib.cpp`

The text is read through an array, so that `s` is an index into it. The results
have 64 bits on the target, and so do `long long` and `long`; no step leaves
their range.
-/

namespace IceKernel
open Digits

/-! ## `libs/libc/ctype.cpp` -/

/-- `isalnum(c)`. -/
def isalnum (c : ℤ) : Bool :=
  (48 ≤ c && c ≤ 57) || (97 ≤ c && c ≤ 122) || (65 ≤ c && c ≤ 90)

/-- `isdigit(c)`. -/
def isdigit (c : ℤ) : Bool := 48 ≤ c && c ≤ 57

/-- `tolower(c)`. -/
def tolower (c : ℤ) : ℤ := if 65 ≤ c ∧ c ≤ 90 then c + 32 else c

/-- A `char` is signed. -/
theorem toInt_cases (c : BitVec 8) :
    c.toNat < 128 ∧ c.toInt = c.toNat ∨ 128 ≤ c.toNat ∧ c.toInt < 0 := by
  have hlt := c.isLt
  rw [BitVec.toInt_eq_toNat_cond]
  split <;> omega

theorem isdigit_iff (c : BitVec 8) : isdigit c.toInt ↔ digitVal c < 10 := by
  have hc := toInt_cases c
  simp only [isdigit, digitVal, Bool.and_eq_true, decide_eq_true_eq]
  grind

theorem isalnum_iff (c : BitVec 8) : isalnum c.toInt ↔ digitVal c < 36 := by
  have hc := toInt_cases c
  simp only [isalnum, digitVal, Bool.and_eq_true, Bool.or_eq_true, decide_eq_true_eq]
  grind

theorem digit_value {c : BitVec 8} (h : isdigit c.toInt) : c.toInt - 48 = digitVal c := by
  have hc := toInt_cases c
  simp only [isdigit, Bool.and_eq_true, decide_eq_true_eq] at h
  unfold digitVal
  grind

theorem letter_value {c : BitVec 8} (h : isalnum c.toInt) (hd : ¬ isdigit c.toInt) :
    tolower c.toInt - 97 + 10 = digitVal c := by
  have hc := toInt_cases c
  simp only [isalnum, Bool.and_eq_true, Bool.or_eq_true, decide_eq_true_eq] at h
  simp only [isdigit, Bool.and_eq_true, decide_eq_true_eq] at hd
  unfold tolower digitVal
  grind

/-! ## The two parsers -/

namespace CArray

/-- The `while` loop over leading spaces, with `s` at index `i`. -/
def skipSpaces (nptr : CArray) : ℕ → ℕ → Option ℕ
  | 0, _ => none
  | fuel + 1, i => (nptr i).bind fun c => if c = 32 then skipSpaces nptr fuel (i + 1) else some i

/-- The condition of the second `if`: a prefix `0x` or `0X` that the base admits. -/
def hasHexPrefix (nptr : CArray) (base : ℤ) (i : ℕ) : Option Bool :=
  if base = 0 ∨ base = 16 then
    (nptr i).bind fun c =>
      if c = 48 then (nptr (i + 1)).map fun x => decide (x = 120 ∨ x = 88) else some false
  else some false

/-- The `while` loop over letters and digits. -/
def digitLoop (nptr : CArray) (base : ℤ) : ℕ → ℕ → ℤ → Option ℤ
  | 0, _, _ => none
  | fuel + 1, i, ret =>
    (nptr i).bind fun c =>
      if isalnum c.toInt then
        if base = 10 then
          if isdigit c.toInt then digitLoop nptr base fuel (i + 1) ((c.toInt - 48) * base)
          else some ret
        else if base = 16 then
          if isdigit c.toInt then digitLoop nptr base fuel (i + 1) ((c.toInt - 48) * base)
          else digitLoop nptr base fuel (i + 1) ((tolower c.toInt - 97 + 10) * base)
        else digitLoop nptr base fuel (i + 1) ret
      else some ret

/-- What is done from the character behind the sign on. -/
def parseUnsigned (nptr : CArray) (endptr : Bool) (base : ℤ) (isNeg : Bool) (fuel i : ℕ) :
    Option (ℤ × Option ℕ) :=
  (hasHexPrefix nptr base i).bind fun marked =>
    let start := if marked then i + 2 else i
    let base := if marked then 16 else base
    let base := if base = 0 then 10 else base
    (digitLoop nptr base fuel start 0).map fun ret =>
      (if isNeg then ret * -1 else ret, if endptr then some start else none)

/-- The body that `strtoll` and `strtol` share: the returned value, and what is stored in
`*endptr` if `endptr` is not null. -/
def parseInteger (nptr : CArray) (endptr : Bool) (base : ℤ) (fuel : ℕ) :
    Option (ℤ × Option ℕ) :=
  (skipSpaces nptr fuel 0).bind fun i =>
    (nptr i).bind fun c =>
      if c = 45 then parseUnsigned nptr endptr base true fuel (i + 1)
      else parseUnsigned nptr endptr base false fuel i

/-- `strtoll(nptr, endptr, base)`. -/
def strtoll (nptr : CArray) (endptr : Bool) (base : ℤ) (fuel : ℕ) : Option (ℤ × Option ℕ) :=
  parseInteger nptr endptr base fuel

/-- `strtol(nptr, endptr, base)`. -/
def strtol (nptr : CArray) (endptr : Bool) (base : ℤ) (fuel : ℕ) : Option (ℤ × Option ℕ) :=
  parseInteger nptr endptr base fuel

/-! ## Accepted text -/

/-- The radix of a numeral for a base, behind a prefix or without one. -/
def radix (base : ℤ) (mark : Option (BitVec 8)) : ℕ := if base = 16 ∨ mark.isSome then 16 else 10

/-- A text that is to be accepted for a base, in its parts: `mark` is the letter of the prefix. -/
structure Numeral (base : ℤ) where
  spaces : ℕ
  isNeg : Bool
  mark : Option (BitVec 8)
  digits : List (BitVec 8)
  rest : List (BitVec 8)
  base_ok : base = 0 ∨ base = 10 ∨ base = 16
  mark_ok : ∀ x ∈ mark, (base = 0 ∨ base = 16) ∧ (x = 120 ∨ x = 88)
  digits_ne_nil : digits ≠ []
  digits_ok : ∀ c ∈ digits, digitVal c < radix base mark
  rest_ok : ∀ c ∈ rest.head?, radix base mark ≤ digitVal c

namespace Numeral

variable {base : ℤ} (n : Numeral base)

def sign : List (BitVec 8) := if n.isNeg then [45] else []

def hexPrefix : List (BitVec 8) := n.mark.elim [] fun x => [48, x]

/-- The text behind the sign. -/
def unsigned : List (BitVec 8) := n.hexPrefix ++ (n.digits ++ n.rest)

def text : List (BitVec 8) := List.replicate n.spaces 32 ++ (n.sign ++ n.unsigned)

def magnitude : ℕ := numeralValue (radix base n.mark) n.digits

/-- The integer that the text denotes. -/
def value : ℤ := if n.isNeg then -(n.magnitude : ℤ) else n.magnitude

/-- The place behind the sign. -/
def signEnd : ℕ := n.spaces + n.sign.length

/-- The place behind the last digit. -/
def stop : ℕ := n.signEnd + n.hexPrefix.length + n.digits.length

/-- The parser returns the integer, and stores the place behind the last digit. -/
def Parses (parser : ℕ → Option (ℤ × Option ℕ)) : Prop :=
  ∃ N, ∀ fuel ≥ N, parser fuel = some (n.value, some n.stop)

theorem radix_le : radix base n.mark ≤ 16 := by
  unfold radix
  split <;> decide

theorem unsigned_cons : ∃ c s, n.unsigned = c :: s ∧ digitVal c < 16 := by
  cases hmark : n.mark with
  | some x => exact ⟨48, x :: (n.digits ++ n.rest), by simp [unsigned, hexPrefix, hmark], by decide⟩
  | none =>
    obtain ⟨c, s, hdigits⟩ := List.exists_cons_of_ne_nil n.digits_ne_nil
    have hc := n.digits_ok c (hdigits ▸ List.mem_cons_self)
    exact ⟨c, s ++ n.rest, by simp [unsigned, hexPrefix, hmark, hdigits],
      lt_of_lt_of_le hc n.radix_le⟩

end Numeral

section Accepted

variable {nptr : CArray} {base : ℤ} {i fuel : ℕ} {s t : List (BitVec 8)}

theorem skipSpaces_eq {k : ℕ} {c : BitVec 8} (hc : c ≠ 32)
    (h : nptr.IsString i (List.replicate k 32 ++ c :: s)) (hfuel : k < fuel) :
    skipSpaces nptr fuel i = some (i + k) := by
  induction k generalizing i fuel with
  | zero =>
    obtain ⟨fuel, rfl⟩ := Nat.exists_eq_add_of_le' (Nat.one_le_of_lt hfuel)
    have hhead : nptr i = some c := h.1
    rw [skipSpaces, hhead, Option.bind_some, if_neg hc, Nat.add_zero]
  | succ k ih =>
    obtain ⟨fuel, rfl⟩ := Nat.exists_eq_add_of_le' (Nat.one_le_of_lt hfuel)
    rw [List.replicate_succ, List.cons_append] at h
    rw [skipSpaces, h.1, Option.bind_some, if_pos rfl, ih h.2.2 (Nat.lt_of_succ_lt_succ hfuel)]
    congr 1
    omega

theorem digitVal_ne {c d : BitVec 8} (hc : digitVal c < 16) (hd : 16 ≤ digitVal d) : c ≠ d := by
  rintro rfl
  omega

/-- Both parsers come to the place behind the sign. -/
theorem parseInteger_eq (n : Numeral base) (h : nptr.IsString 0 n.text) (hfuel : n.spaces < fuel)
    (endptr : Bool) :
    parseInteger nptr endptr base fuel =
      parseUnsigned nptr endptr base n.isNeg fuel n.signEnd := by
  obtain ⟨c, s, hs, hc⟩ := n.unsigned_cons
  unfold Numeral.text Numeral.sign at h
  unfold Numeral.signEnd Numeral.sign
  rw [hs] at h
  cases hneg : n.isNeg with
  | true =>
    rw [hneg, if_pos rfl, List.singleton_append] at h
    have hspaces := skipSpaces_eq (by decide) h hfuel
    have hsign := h.append.1
    rw [List.length_replicate] at hsign
    rw [parseInteger, hspaces, Option.bind_some, hsign, Option.bind_some, if_pos rfl, if_pos rfl,
      Nat.zero_add]
    rfl
  | false =>
    rw [hneg, if_neg Bool.false_ne_true, List.nil_append] at h
    have hspaces := skipSpaces_eq (digitVal_ne hc (by decide)) h hfuel
    have hhead := h.append.1
    rw [List.length_replicate] at hhead
    have hminus : c ≠ 45 := digitVal_ne hc (by decide)
    rw [parseInteger, hspaces, Option.bind_some, hhead, Option.bind_some, if_neg hminus,
      if_neg Bool.false_ne_true, Nat.zero_add]
    rfl

theorem isString_unsigned (n : Numeral base) (h : nptr.IsString 0 n.text) :
    nptr.IsString n.signEnd n.unsigned := by
  have hsign := h.append.append
  rwa [List.length_replicate, Nat.zero_add] at hsign

theorem hasHexPrefix_iff : hasHexPrefix nptr base i = some true ↔
    (base = 0 ∨ base = 16) ∧ nptr i = some 48 ∧
      ∃ x, nptr (i + 1) = some x ∧ (x = 120 ∨ x = 88) := by
  unfold hasHexPrefix
  by_cases hbase : base = 0 ∨ base = 16
  · rw [if_pos hbase, and_iff_right hbase]
    cases nptr i with
    | none => simp
    | some c =>
      by_cases hc : c = 48
      · subst hc
        simp
      · rw [Option.bind_some, if_neg hc, Option.some_inj, Option.some_inj]
        exact iff_of_false Bool.false_ne_true fun h => hc h.1
  · simp [hbase]

/-- What is stored is the place of the first digit. -/
theorem parseUnsigned_endptr {isNeg : Bool} {r : ℤ × Option ℕ}
    (h : parseUnsigned nptr true base isNeg fuel i = some r) :
    r.2 = some i ∨ r.2 = some (i + 2) ∧ hasHexPrefix nptr base i = some true := by
  obtain ⟨marked, hmarked, hrest⟩ := Option.bind_eq_some_iff.1 h
  obtain ⟨ret, -, rfl⟩ := Option.map_eq_some_iff.1 hrest
  cases marked with
  | false => exact .inl rfl
  | true => exact .inr ⟨rfl, hmarked⟩

/-- The place that is stored is never the one behind the last digit. -/
theorem not_parses (n : Numeral base) (h : nptr.IsString 0 n.text) :
    ¬ n.Parses (parseInteger nptr true base) := by
  rintro ⟨N, hN⟩
  have hrun := hN (max N (n.spaces + 1)) (le_max_left _ _)
  rw [parseInteger_eq n h (Nat.lt_of_succ_le (le_max_right _ _))] at hrun
  have hstr := isString_unsigned n h
  have hpos := List.length_pos_iff.2 n.digits_ne_nil
  have hstop : n.stop = n.signEnd + n.hexPrefix.length + n.digits.length := rfl
  cases hmark : n.mark with
  | some x =>
    have hlen : n.hexPrefix.length = 2 := by simp [Numeral.hexPrefix, hmark]
    rcases parseUnsigned_endptr hrun with hend | ⟨hend, -⟩
    · have := Option.some.inj hend
      omega
    · have := Option.some.inj hend
      omega
  | none =>
    have hlen : n.hexPrefix = [] := by simp [Numeral.hexPrefix, hmark]
    rw [hlen, List.length_nil] at hstop
    rcases parseUnsigned_endptr hrun with hend | ⟨hend, hfound⟩
    · have := Option.some.inj hend
      omega
    · -- Two digits, then, of which the second is the letter of a prefix.
      have htwo : n.digits.length = 2 := by
        have := Option.some.inj hend
        omega
      obtain ⟨c, d, hdigits⟩ := List.length_eq_two.1 htwo
      obtain ⟨-, -, x, hx, hletter⟩ := hasHexPrefix_iff.1 hfound
      rw [Numeral.unsigned, hlen, hdigits] at hstr
      have hd : digitVal d < 16 :=
        lt_of_lt_of_le (n.digits_ok d (by simp [hdigits])) n.radix_le
      have hsecond : x = d := Option.some.inj (hx.symm.trans hstr.2.2.1)
      rcases hletter with hx | hx
      · exact digitVal_ne hd (by decide : 16 ≤ digitVal 120) (hsecond.symm.trans hx)
      · exact digitVal_ne hd (by decide : 16 ≤ digitVal 88) (hsecond.symm.trans hx)

/-- On no text that is to be accepted, either function does what it is for. -/
theorem strto_never_parses (n : Numeral base) (h : nptr.IsString 0 n.text) :
    ¬ n.Parses (strtoll nptr true base) ∧ ¬ n.Parses (strtol nptr true base) :=
  ⟨not_parses n h, not_parses n h⟩

theorem strto_never_parses_forty_two :
    let n : Numeral 10 := ⟨0, false, none, [52, 50], [], by decide, by decide, by decide,
      by decide, by decide⟩
    ¬ n.Parses (strtoll (ofBytes [52, 50, 0]) true 10) ∧
      ¬ n.Parses (strtol (ofBytes [52, 50, 0]) true 10) :=
  have hstring : (ofBytes [52, 50, 0]).IsString 0 [52, 50] := ⟨rfl, by decide, rfl, by decide, rfl⟩
  strto_never_parses _ hstring

/-! ## The value -/

/-- The value is overwritten by each digit in turn. -/
theorem digitLoop_eq (hbase : base = 10 ∨ base = 16) (h : nptr.IsString i (s ++ t))
    (hs : ∀ c ∈ s, (digitVal c : ℤ) < base) (ht : ∀ c ∈ t.head?, 36 ≤ digitVal c)
    (hfuel : s.length < fuel) (ret : ℤ) :
    digitLoop nptr base fuel i ret = some (s.foldl (fun _ c => (digitVal c : ℤ) * base) ret) := by
  induction s generalizing i fuel ret with
  | nil =>
    obtain ⟨fuel, rfl⟩ := Nat.exists_eq_add_of_le' (Nat.one_le_of_lt hfuel)
    obtain ⟨c, hget, hc⟩ : ∃ c, nptr i = some c ∧ 36 ≤ digitVal c := by
      cases t with
      | nil => exact ⟨0, h, by decide⟩
      | cons c t => exact ⟨c, h.1, ht c rfl⟩
    have hstop : ¬ isalnum c.toInt := fun hc' => absurd ((isalnum_iff c).1 hc') (Nat.not_lt.2 hc)
    rw [digitLoop, hget, Option.bind_some, if_neg hstop, List.foldl_nil]
  | cons c s ih =>
    obtain ⟨fuel, rfl⟩ := Nat.exists_eq_add_of_le' (Nat.one_le_of_lt hfuel)
    rw [List.forall_mem_cons] at hs
    have hgo := ih h.2.2 hs.2 (Nat.lt_of_succ_lt_succ hfuel) ((digitVal c : ℤ) * base)
    have halnum : isalnum c.toInt := (isalnum_iff c).2 (by omega)
    have hdigit (hd : isdigit c.toInt) : (c.toInt - 48) * base = digitVal c * base := by
      rw [digit_value hd]
    rw [digitLoop, h.1, Option.bind_some, if_pos halnum, List.foldl_cons]
    rcases hbase with rfl | rfl
    · have hd : isdigit c.toInt := (isdigit_iff c).2 (by omega)
      rw [if_pos rfl, if_pos hd, hdigit hd]
      exact hgo
    · rw [if_neg (by decide), if_pos rfl]
      by_cases hd : isdigit c.toInt
      · rw [if_pos hd, hdigit hd]
        exact hgo
      · rw [if_neg hd, letter_value halnum hd]
        exact hgo

theorem hasHexPrefix_of_not {c d : BitVec 8} (hc : nptr i = some c) (hd : nptr (i + 1) = some d)
    (hletter : digitVal d ≠ 33) : hasHexPrefix nptr base i = some false := by
  have hnot : ¬ (d = 120 ∨ d = 88) := by
    rintro (rfl | rfl)
    · exact hletter (by decide)
    · exact hletter (by decide)
  rw [hasHexPrefix, hc, hd, Option.bind_some, Option.map_some, decide_eq_false hnot]
  simp only [ite_self]

/-- Behind the digits, neither a letter nor a digit: the prefix is then found where it is. -/
theorem hasHexPrefix_eq (n : Numeral base) (h : nptr.IsString 0 n.text)
    (hrest : ∀ c ∈ n.rest.head?, 36 ≤ digitVal c) :
    hasHexPrefix nptr base n.signEnd = some n.mark.isSome := by
  have hstr := isString_unsigned n h
  cases hmark : n.mark with
  | some x =>
    obtain ⟨hbase, hx⟩ := n.mark_ok x hmark
    rw [Numeral.unsigned, Numeral.hexPrefix, hmark] at hstr
    exact hasHexPrefix_iff.2 ⟨hbase, hstr.1, x, hstr.2.2.1, hx⟩
  | none =>
    obtain ⟨c, s, hdigits⟩ := List.exists_cons_of_ne_nil n.digits_ne_nil
    have hlt (d : BitVec 8) (hd : d ∈ n.digits) := lt_of_lt_of_le (n.digits_ok d hd) n.radix_le
    rw [Numeral.unsigned, Numeral.hexPrefix, hmark, hdigits] at hstr
    cases s with
    | cons d s =>
      have hd := hlt d (by simp [hdigits])
      exact hasHexPrefix_of_not hstr.1 hstr.2.2.1 (by omega)
    | nil =>
      cases hr : n.rest with
      | nil =>
        rw [hr] at hstr
        exact hasHexPrefix_of_not hstr.1 hstr.2.2 (by decide)
      | cons d t =>
        rw [hr] at hstr
        have hd := hrest d (by rw [hr]; rfl)
        exact hasHexPrefix_of_not hstr.1 hstr.2.2.1 (by omega)

/-- Behind the digits, neither a letter nor a digit: what both parsers return comes from the last
digit `d` alone. -/
theorem parseInteger_returns (n : Numeral base) (h : nptr.IsString 0 n.text)
    (hrest : ∀ c ∈ n.rest.head?, 36 ≤ digitVal c) {d : BitVec 8} (hdigits : n.digits = s ++ [d])
    (endptr : Bool) (hspaces : n.spaces < fuel) (hfuel : n.digits.length < fuel) :
    parseInteger nptr endptr base fuel =
      some (let ret : ℤ := digitVal d * radix base n.mark; if n.isNeg then ret * -1 else ret,
        if endptr then some (n.signEnd + n.hexPrefix.length) else none) := by
  have hstart : (if n.mark.isSome then n.signEnd + 2 else n.signEnd) =
      n.signEnd + n.hexPrefix.length := by
    unfold Numeral.hexPrefix
    cases n.mark <;> rfl
  have hradix : (if (if n.mark.isSome then 16 else base) = 0 then 10
      else if n.mark.isSome then 16 else base) = (radix base n.mark : ℤ) := by
    have hbase := n.base_ok
    unfold radix
    cases n.mark <;> grind
  have hrange : (radix base n.mark : ℤ) = 10 ∨ (radix base n.mark : ℤ) = 16 := by
    unfold radix
    split <;> decide
  have hlast : n.digits.foldl (fun _ c => (digitVal c : ℤ) * radix base n.mark) 0 =
      digitVal d * radix base n.mark := by
    rw [hdigits, List.foldl_append]
    rfl
  have hloop := digitLoop_eq hrange (isString_unsigned n h).append
    (fun c hc => by exact_mod_cast n.digits_ok c hc) hrest hfuel 0
  rw [parseInteger_eq n h hspaces, parseUnsigned, hasHexPrefix_eq n h hrest, Option.bind_some]
  dsimp only
  rw [hstart, hradix, hloop, Option.map_some, hlast]

/-- That is the right integer if and only if it is zero. -/
theorem parseInteger_value_iff (n : Numeral base) (h : nptr.IsString 0 n.text)
    (hrest : ∀ c ∈ n.rest.head?, 36 ≤ digitVal c) (endptr : Bool) :
    ∃ ret stored, (∃ N, ∀ fuel ≥ N, parseInteger nptr endptr base fuel = some (ret, stored)) ∧
      (ret = n.value ↔ n.magnitude = 0) := by
  obtain ⟨s, d, hdigits⟩ := (List.eq_nil_or_concat' n.digits).resolve_left n.digits_ne_nil
  refine ⟨_, _, ⟨n.spaces + n.digits.length + 1, fun fuel hfuel =>
    parseInteger_returns n h hrest hdigits endptr (by omega) (by omega)⟩, ?_⟩
  have hd : digitVal d < radix base n.mark := n.digits_ok d (by simp [hdigits])
  have hiff := last_mul_radix_iff (q := numeralValue (radix base n.mark) s) hd
  rw [← numeralValue_snoc, ← hdigits] at hiff
  unfold Numeral.value Numeral.magnitude
  dsimp only
  rw [← hiff]
  split <;> omega

/-- "42" in base 10: the value is 20, and the place is that of the first digit. -/
theorem strto_forty_two :
    let n : Numeral 10 := ⟨0, false, none, [52, 50], [], by decide, by decide, by decide,
      by decide, by decide⟩
    (ofBytes [52, 50, 0]).IsString 0 n.text ∧ n.value = 42 ∧ n.stop = 2 ∧
      (∃ N, ∀ fuel ≥ N, strtoll (ofBytes [52, 50, 0]) true 10 fuel = some (20, some 0)) ∧
      ¬ n.Parses (strtoll (ofBytes [52, 50, 0]) true 10) := by
  intro n
  have hstring : (ofBytes [52, 50, 0]).IsString 0 [52, 50] := ⟨rfl, by decide, rfl, by decide, rfl⟩
  have hrest : ∀ c ∈ n.rest.head?, 36 ≤ digitVal c := by decide
  have hdigits : n.digits = [52] ++ [50] := rfl
  have hrun : ∀ fuel ≥ 3, strtoll (ofBytes [52, 50, 0]) true 10 fuel = some (20, some 0) :=
    fun fuel hfuel => parseInteger_returns n hstring hrest hdigits true (Nat.lt_of_lt_of_le
      (by decide) hfuel) (Nat.lt_of_lt_of_le (by decide) hfuel)
  exact ⟨hstring, by decide, by decide, ⟨3, hrun⟩, not_parses n hstring⟩

end Accepted

/-! ## `atoi` -/

end CArray

end IceKernel
