import IceKernel.Libc.Strings
import IceKernel.Libc.StdioText

/-!
# A conversion is read from memory

The functions of the formatter that read a conversion find the pieces that the
grammar has for its characters.
-/

namespace IceKernel.Stdio
open ByteMemory Digits

variable {F : Type}

section Reading

variable {m : Mem} {p fuel : ℕ} {s rest : List (BitVec 8)} {flags flags' : Flags}
  {args args' : List (Arg F)}

theorem isString_append {t : List (BitVec 8)} (h : IsString m p (s ++ t)) :
    IsString m (p + s.length) t := by
  induction s generalizing p with
  | nil => exact h
  | cons c s ih =>
    rw [List.length_cons, Nat.add_comm s.length 1, ← Nat.add_assoc]
    exact ih h.2.2

theorem advance_eq {c : BitVec 8} (h : IsString m p (c :: s)) :
    advance m p = if s = [] then .error .returned else .ok (p + 1) := by
  unfold advance
  cases s with
  | nil =>
    have hend : m (p + 1) = 0 := h.2.2
    rw [if_pos hend, if_pos rfl]
  | cons d s =>
    have hd : m (p + 1) ≠ 0 := by
      rw [h.2.2.1]
      exact h.2.2.2.1
    rw [if_neg hd, if_neg (List.cons_ne_nil d s)]

theorem parseFlags_succ (m : Mem) (fuel p : ℕ) (flags : Flags) :
    parseFlags m (fuel + 1) p flags =
      if isFlag (m p) then parseFlags m fuel (p + 1) (addFlag flags (m p)) else .ok (flags, p) := by
  rw [parseFlags]
  by_cases hflag : isFlag (m p)
  · rw [if_pos hflag]
    have hcases : m p = 48 ∨ m p = 45 ∨ m p = 43 ∨ m p = 32 ∨ m p = 35 := by
      simpa [isFlag, or_assoc] using hflag
    rcases hcases with h | h | h | h | h <;> rw [h] <;> rfl
  · have hnone (d : BitVec 8) (hd : isFlag d) : m p ≠ d := by
      rintro rfl
      exact hflag hd
    rw [if_neg hflag, if_neg (hnone 48 rfl), if_neg (hnone 45 rfl), if_neg (hnone 43 rfl),
      if_neg (hnone 32 rfl), if_neg (hnone 35 rfl)]

theorem parseFlags_eq (h : IsString m p s) (hfuel : s.length < fuel) :
    parseFlags m fuel p flags =
      .ok ((s.takeWhile isFlag).foldl addFlag flags, p + (s.takeWhile isFlag).length) := by
  induction s generalizing p fuel flags with
  | nil =>
    obtain ⟨fuel, rfl⟩ : ∃ k, fuel = k + 1 := ⟨fuel - 1, by omega⟩
    have h0 : m p = 0 := h
    rw [parseFlags_succ, h0, if_neg (by decide)]
    rfl
  | cons c s ih =>
    obtain ⟨fuel, rfl⟩ : ∃ k, fuel = k + 1 := ⟨fuel - 1, by omega⟩
    obtain ⟨hc, -, htail⟩ := h
    rw [List.length_cons] at hfuel
    rw [parseFlags_succ, hc]
    by_cases hflag : isFlag c
    · rw [if_pos hflag, ih htail (by omega), List.takeWhile_cons, if_pos hflag, List.foldl_cons,
        List.length_cons, Nat.add_assoc, Nat.add_comm 1]
    · rw [if_neg hflag, List.takeWhile_cons, if_neg hflag]
      rfl

theorem digitVal_of_isDigit {c : BitVec 8} (h : isDigit c) : digitVal c = c.toNat - 48 := by
  have hle : 48 ≤ c.toNat ∧ c.toNat ≤ 57 := by
    simpa [isDigit, BitVec.le_def] using h
  rw [digitVal, if_pos hle]

theorem atou_eq (h : IsString m p s) (hfuel : s.length < fuel) (n : ℕ) :
    atou m fuel p (wrap32 n) =
      .ok (wrap32 ((s.takeWhile isDigit).foldl (fun n c => n * 10 + digitVal c) n),
        p + (s.takeWhile isDigit).length) := by
  induction s generalizing p fuel n with
  | nil =>
    obtain ⟨fuel, rfl⟩ : ∃ k, fuel = k + 1 := ⟨fuel - 1, by omega⟩
    have h0 : m p = 0 := h
    rw [atou, h0, if_neg (by decide)]
    rfl
  | cons c s ih =>
    obtain ⟨fuel, rfl⟩ : ∃ k, fuel = k + 1 := ⟨fuel - 1, by omega⟩
    obtain ⟨hc, -, htail⟩ := h
    rw [List.length_cons] at hfuel
    rw [atou, hc]
    by_cases hdigit : isDigit c
    · have hwrap : wrap32 (wrap32 n * 10 + (c.toNat - 48)) = wrap32 (n * 10 + digitVal c) := by
        rw [digitVal_of_isDigit hdigit]
        unfold wrap32
        omega
      rw [if_pos hdigit, hwrap, ih htail (by omega), List.takeWhile_cons, if_pos hdigit,
        List.foldl_cons, List.length_cons, Nat.add_assoc, Nat.add_comm 1]
    · rw [if_neg hdigit, List.takeWhile_cons, if_neg hdigit]
      rfl

/-- What `atou` reads is the number of the digits, as an `unsigned int`. -/
theorem atou_zero (h : IsString m p s) (hfuel : s.length < fuel) :
    atou m fuel p 0 = .ok (wrap32 (numeralValue 10 (s.takeWhile isDigit)),
      p + (s.takeWhile isDigit).length) :=
  atou_eq h hfuel 0

theorem toInt32_natAbs (w : BitVec 64) :
    (if toInt32 w < 0 then (-toInt32 w).toNat else (toInt32 w).toNat) = (toInt32 w).natAbs := by
  split <;> omega

theorem parseWidth_eq {width : Option Amount} {w : ℕ} (h : IsString m p s)
    (hread : readAmount s = (width, rest))
    (hwidth : widthOf width flags args = some (flags', w, args')) (hfuel : s.length < fuel) :
    parseWidth m fuel p flags args =
      if width = some .star ∧ rest = [] then .error .returned
      else .ok (flags', w, p + (amountBytes width).length, args') := by
  unfold parseWidth
  cases s with
  | nil =>
    have h0 : m p = 0 := h
    obtain ⟨rfl, rfl⟩ := Prod.mk.inj hread
    obtain ⟨rfl, h2⟩ := Prod.mk.inj (Option.some.inj hwidth)
    obtain ⟨rfl, rfl⟩ := Prod.mk.inj h2
    rw [h0, if_neg (by decide), if_neg (by decide), if_neg (by simp)]
    rfl
  | cons c s =>
    have hc : m p = c := h.1
    rw [readAmount] at hread
    rw [hc]
    by_cases hdigit : isDigit c
    · rw [if_pos hdigit] at hread
      obtain ⟨rfl, rfl⟩ := Prod.mk.inj hread
      obtain ⟨rfl, h2⟩ := Prod.mk.inj (Option.some.inj hwidth)
      obtain ⟨rfl, rfl⟩ := Prod.mk.inj h2
      rw [if_pos hdigit, atou_zero h hfuel, if_neg (by simp)]
      rfl
    · rw [if_neg hdigit] at hread
      rw [if_neg hdigit]
      by_cases hstar : c = 42
      · subst hstar
        rw [if_pos rfl] at hread
        obtain ⟨rfl, rfl⟩ := Prod.mk.inj hread
        obtain ⟨⟨arg, args₁⟩, hargs, hsome⟩ := Option.map_eq_some_iff.1 hwidth
        obtain ⟨rfl, h2⟩ := Prod.mk.inj hsome
        obtain ⟨rfl, rfl⟩ := Prod.mk.inj h2
        rw [if_pos rfl, hargs, advance_eq h]
        dsimp only
        rw [toInt32_natAbs]
        by_cases hend : s = []
        · rw [if_pos hend]
          exact (if_pos ⟨rfl, hend⟩).symm
        · rw [if_neg hend]
          exact (if_neg fun h => hend h.2).symm
      · rw [if_neg hstar] at hread
        obtain ⟨rfl, rfl⟩ := Prod.mk.inj hread
        obtain ⟨rfl, h2⟩ := Prod.mk.inj (Option.some.inj hwidth)
        obtain ⟨rfl, rfl⟩ := Prod.mk.inj h2
        rw [if_neg hstar, if_neg (by simp)]
        rfl

theorem parsePrecision_eq {precision : Option (Option Amount)} {n : ℕ} (h : IsString m p s)
    (hread : readPrecision s = (precision, rest))
    (hprecision : precisionOf precision flags args = some (flags', n, args'))
    (hfuel : s.length < fuel) :
    parsePrecision m fuel p flags args =
      if (precision = some none ∨ precision = some (some .star)) ∧ rest = [] then
        .error .returned
      else .ok (flags', n, p + (precisionBytes precision).length, args') := by
  have hnone (hc : m p ≠ 46) (hnil : precision = none) : parsePrecision m fuel p flags args =
      if (precision = some none ∨ precision = some (some .star)) ∧ rest = [] then
        .error .returned
      else .ok (flags', n, p + (precisionBytes precision).length, args') := by
    subst hnil
    obtain ⟨rfl, h2⟩ := Prod.mk.inj (Option.some.inj hprecision)
    obtain ⟨rfl, rfl⟩ := Prod.mk.inj h2
    rw [parsePrecision, if_neg hc, if_neg (by simp)]
    rfl
  cases s with
  | nil =>
    have h0 : m p = 0 := h
    exact hnone (by rw [h0]; decide) (Prod.mk.inj hread).1.symm
  | cons c s =>
    have hc : m p = c := h.1
    rw [readPrecision] at hread
    by_cases hpoint : c = 46
    · subst hpoint
      rw [if_pos rfl] at hread
      rcases hamount : readAmount s with ⟨amount, rest'⟩
      rw [hamount] at hread
      obtain ⟨rfl, rfl⟩ := Prod.mk.inj hread
      have htail : IsString m (p + 1) s := h.2.2
      rw [parsePrecision, if_pos hc, advance_eq h]
      cases s with
      | nil =>
        -- the string ends behind the point
        obtain ⟨rfl, rfl⟩ := Prod.mk.inj hamount
        exact (if_pos ⟨.inl rfl, rfl⟩).symm
      | cons d s =>
        have hd : m (p + 1) = d := htail.1
        rw [List.length_cons] at hfuel
        rw [readAmount] at hamount
        rw [if_neg (List.cons_ne_nil d s)]
        dsimp only [bind, Except.bind]
        rw [hd]
        by_cases hdigit : isDigit d
        · rw [if_pos hdigit] at hamount
          obtain ⟨rfl, rfl⟩ := Prod.mk.inj hamount
          obtain ⟨rfl, h2⟩ := Prod.mk.inj (Option.some.inj hprecision)
          obtain ⟨rfl, rfl⟩ := Prod.mk.inj h2
          rw [if_pos hdigit, atou_zero htail (by omega), if_neg (by simp), Nat.add_assoc,
            Nat.add_comm 1]
          rfl
        · rw [if_neg hdigit] at hamount
          rw [if_neg hdigit]
          by_cases hstar : d = 42
          · subst hstar
            rw [if_pos rfl] at hamount
            obtain ⟨rfl, rfl⟩ := Prod.mk.inj hamount
            obtain ⟨⟨arg, args₁⟩, hargs, hsome⟩ := Option.map_eq_some_iff.1 hprecision
            obtain ⟨rfl, h2⟩ := Prod.mk.inj hsome
            obtain ⟨rfl, rfl⟩ := Prod.mk.inj h2
            have hpos : (if 0 < toInt32 arg then (toInt32 arg).toNat else 0) =
                (toInt32 arg).toNat := by
              split <;> omega
            rw [if_pos rfl, hargs, advance_eq htail]
            dsimp only
            rw [hpos]
            by_cases hend : s = []
            · rw [if_pos hend]
              exact (if_pos ⟨.inr rfl, hend⟩).symm
            · rw [if_neg hend]
              exact (if_neg fun h => hend h.2).symm
          · rw [if_neg hstar] at hamount
            obtain ⟨rfl, rfl⟩ := Prod.mk.inj hamount
            obtain ⟨rfl, h2⟩ := Prod.mk.inj (Option.some.inj hprecision)
            obtain ⟨rfl, rfl⟩ := Prod.mk.inj h2
            rw [if_neg hstar]
            exact (if_neg fun h => List.cons_ne_nil d s h.2).symm
    · rw [if_neg hpoint] at hread
      exact hnone (by rwa [hc]) (Prod.mk.inj hread).1.symm

/-- A length of one letter or two. -/
theorem parseDouble_eq {c : BitVec 8} {one two : Length} {length : Length} {two' : Flags}
    (h : IsString m p (c :: s)) (hread : readDouble c one two s = (length, rest))
    (hone : one.bytes = [c]) (htwo : two.bytes = [c, c])
    (htwo' : two' = two.set flags) :
    ((if s = [] then .error .returned else .ok (p + 1) : Except Stop ℕ).bind fun format =>
      if m format = c then (advance m format).map fun format => (two', format)
      else .ok (one.set flags, format)) =
      if length ≠ .none ∧ rest = [] then .error .returned
      else .ok (length.set flags, p + length.bytes.length) := by
  have hlone : one ≠ .none := by
    rintro rfl
    exact List.cons_ne_nil c [] hone.symm
  have hltwo : two ≠ .none := by
    rintro rfl
    exact List.cons_ne_nil c [c] htwo.symm
  have htail : IsString m (p + 1) s := h.2.2
  subst htwo'
  cases s with
  | nil =>
    obtain ⟨rfl, rfl⟩ := Prod.mk.inj hread
    exact (if_pos ⟨hlone, rfl⟩).symm
  | cons d s =>
    rw [readDouble] at hread
    rw [if_neg (List.cons_ne_nil d s)]
    dsimp only [Except.bind]
    rw [htail.1]
    by_cases hd : d = c
    · rw [if_pos hd] at hread
      obtain ⟨rfl, rfl⟩ := Prod.mk.inj hread
      rw [if_pos hd, advance_eq htail, htwo]
      by_cases hend : s = []
      · rw [if_pos hend]
        exact (if_pos ⟨hltwo, hend⟩).symm
      · rw [if_neg hend]
        exact (if_neg fun h => hend h.2).symm
    · rw [if_neg hd] at hread
      obtain ⟨rfl, rfl⟩ := Prod.mk.inj hread
      rw [if_neg hd, hone]
      exact (if_neg fun h => List.cons_ne_nil d s h.2).symm

theorem parseLength_eq {length : Length} (h : IsString m p s)
    (hread : readLength s = (length, rest)) :
    parseLength m p flags =
      if length ≠ .none ∧ rest = [] then .error .returned
      else .ok (length.set flags, p + length.bytes.length) := by
  have hone (len : Length) {c : BitVec 8} {s : List (BitVec 8)} (h : IsString m p (c :: s))
      (hl : len ≠ .none) (hbytes : len.bytes = [c]) :
      ((advance m p).map fun format => (len.set flags, format)) =
        if len ≠ .none ∧ s = [] then .error .returned
        else .ok (len.set flags, p + len.bytes.length) := by
    rw [advance_eq h, hbytes]
    by_cases hend : s = []
    · rw [if_pos hend]
      exact (if_pos ⟨hl, hend⟩).symm
    · rw [if_neg hend]
      exact (if_neg fun h => hend h.2).symm
  unfold parseLength
  cases s with
  | nil =>
    have h0 : m p = 0 := h
    obtain ⟨rfl, rfl⟩ := Prod.mk.inj hread
    rw [h0, if_neg (by decide), if_neg (by decide), if_neg (by decide), if_neg (by simp)]
    rfl
  | cons c s =>
    have hc : m p = c := h.1
    rw [readLength] at hread
    rw [hc]
    by_cases h1 : c = 108
    · subst h1
      rw [if_pos rfl] at hread
      rw [if_pos rfl, advance_eq h]
      exact parseDouble_eq h hread rfl rfl rfl
    rw [if_neg h1] at hread ⊢
    by_cases h2 : c = 104
    · subst h2
      rw [if_pos rfl] at hread
      rw [if_pos rfl, advance_eq h]
      exact parseDouble_eq h hread rfl rfl rfl
    rw [if_neg h2] at hread ⊢
    by_cases h3 : c = 116
    · subst h3
      rw [if_pos rfl] at hread
      obtain ⟨rfl, rfl⟩ := Prod.mk.inj hread
      rw [if_pos (.inl rfl)]
      exact hone .t h (by decide) rfl
    rw [if_neg h3] at hread
    by_cases h4 : c = 106
    · subst h4
      rw [if_pos rfl] at hread
      obtain ⟨rfl, rfl⟩ := Prod.mk.inj hread
      rw [if_pos (.inr (.inl rfl))]
      exact hone .j h (by decide) rfl
    rw [if_neg h4] at hread
    by_cases h5 : c = 122
    · subst h5
      rw [if_pos rfl] at hread
      obtain ⟨rfl, rfl⟩ := Prod.mk.inj hread
      rw [if_pos (.inr (.inr rfl))]
      exact hone .z h (by decide) rfl
    rw [if_neg h5] at hread
    obtain ⟨rfl, rfl⟩ := Prod.mk.inj hread
    rw [if_neg (by rintro (h | h | h) <;> contradiction)]
    exact (if_neg fun h => h.1 rfl).symm

/-- A conversion is read up to its specifier. Where the string ends before, the loop returns,
except behind a flag or a digit. -/
theorem parseConversion_eq {spec : Spec} {r : Resolved F} (h : IsString m p (37 :: s))
    (hs : s ≠ []) (hread : readSpec s = (spec, rest)) (hresolve : spec.resolve args = some r)
    (hfuel : s.length < fuel) :
    parseConversion m fuel p args =
      if rest = [] ∧ ¬ spec.overruns then .error .returned
      else .ok ⟨r.flags, r.width, r.precision, p + 1 + spec.bytes.length, r.args⟩ := by
  -- the pieces of the conversion and where they start
  rcases hwidth : readAmount (s.dropWhile isFlag) with ⟨width, s₂⟩
  rcases hprecision : readPrecision s₂ with ⟨precision, s₃⟩
  rcases hlength : readLength s₃ with ⟨length, s₄⟩
  have hspec : (⟨s.takeWhile isFlag, width, precision, length⟩, s₄) = (spec, rest) := by
    rw [← hread, readSpec, hwidth]
    dsimp only
    rw [hprecision]
    dsimp only
    rw [hlength]
  obtain ⟨rfl, rfl⟩ := Prod.mk.inj hspec
  have hbytes₁ : s.takeWhile isFlag ++ s.dropWhile isFlag = s := List.takeWhile_append_dropWhile
  have hbytes₂ := readAmount_bytes (s.dropWhile isFlag)
  have hbytes₃ := readPrecision_bytes s₂
  have hbytes₄ := readLength_bytes s₃
  rw [hwidth] at hbytes₂
  rw [hprecision] at hbytes₃
  rw [hlength] at hbytes₄
  have hstring : IsString m (p + 1) s := h.2.2
  have hstring₁ : IsString m (p + 1 + (s.takeWhile isFlag).length) (s.dropWhile isFlag) :=
    isString_append (by rwa [hbytes₁])
  have hstring₂ : IsString m (p + 1 + (s.takeWhile isFlag).length + (amountBytes width).length) s₂ :=
    isString_append (by rwa [hbytes₂])
  have hstring₃ : IsString m (p + 1 + (s.takeWhile isFlag).length + (amountBytes width).length +
      (precisionBytes precision).length) s₃ := isString_append (by rwa [hbytes₃])
  have hlen₁ := congrArg List.length hbytes₁
  have hlen₂ := congrArg List.length hbytes₂
  rw [List.length_append] at hlen₁ hlen₂
  dsimp only at hlen₂
  -- the arguments they take
  obtain ⟨⟨flags₁, w, args₁⟩, hw, hresolve⟩ := Option.bind_eq_some_iff.1 hresolve
  obtain ⟨⟨flags₂, n, args₂⟩, hn, hr⟩ := Option.map_eq_some_iff.1 hresolve
  subst hr
  rw [parseConversion, advance_eq h, if_neg hs]
  dsimp only [bind, Except.bind]
  rw [parseFlags_eq hstring hfuel]
  dsimp only
  rw [parseWidth_eq hstring₁ hwidth hw (by omega)]
  by_cases hend₂ : width = some .star ∧ s₂ = []
  · obtain ⟨rfl, rfl⟩ := hend₂
    obtain ⟨rfl, rfl⟩ := Prod.mk.inj hprecision
    obtain ⟨rfl, rfl⟩ := Prod.mk.inj hlength
    rw [if_pos ⟨rfl, rfl⟩, if_pos ⟨rfl, by simp [Spec.overruns]⟩]
  rw [if_neg hend₂]
  dsimp only
  rw [parsePrecision_eq hstring₂ hprecision hn (by omega)]
  by_cases hend₃ : (precision = some none ∨ precision = some (some .star)) ∧ s₃ = []
  · obtain ⟨hlast, rfl⟩ := hend₃
    obtain ⟨rfl, rfl⟩ := Prod.mk.inj hlength
    have hover : ¬ (⟨s.takeWhile isFlag, width, precision, .none⟩ : Spec).overruns := by
      rcases hlast with rfl | rfl <;> simp [Spec.overruns]
    rw [if_pos ⟨hlast, rfl⟩, if_pos ⟨rfl, hover⟩]
  rw [if_neg hend₃]
  dsimp only
  rw [parseLength_eq hstring₃ hlength]
  by_cases hend₄ : length ≠ .none ∧ s₄ = []
  · obtain ⟨hlast, rfl⟩ := hend₄
    rw [if_pos ⟨hlast, rfl⟩, if_pos ⟨rfl, by simp [Spec.overruns, hlast]⟩]
  have hgo : ¬ (s₄ = [] ∧ ¬ (⟨s.takeWhile isFlag, width, precision, length⟩ : Spec).overruns) := by
    rintro ⟨rfl, hover⟩
    have hnone : length = .none := not_not.1 fun hne => hend₄ ⟨hne, rfl⟩
    subst hnone
    obtain rfl : s₃ = [] := hbytes₄.symm
    have hbytes : (⟨s.takeWhile isFlag, width, precision, .none⟩ : Spec).bytes = s := by
      have hall := readSpec_bytes s
      rwa [hread, List.append_nil] at hall
    apply hover
    rw [Spec.overruns, hbytes]
    rcases precision with _ | _ | _ | _
    · obtain rfl : s₂ = [] := hbytes₃.symm
      have hstar : width ≠ some .star := fun hw => hend₂ ⟨hw, rfl⟩
      simp [hs, hstar]
    · exact absurd ⟨.inl rfl, rfl⟩ hend₃
    · simp [hs]
    · exact absurd ⟨.inr rfl, rfl⟩ hend₃
  rw [if_neg hend₄, if_neg hgo]
  have hplace : p + 1 + (⟨s.takeWhile isFlag, width, precision, length⟩ : Spec).bytes.length =
      p + 1 + (s.takeWhile isFlag).length + (amountBytes width).length +
        (precisionBytes precision).length + length.bytes.length := by
    simp only [Spec.bytes, List.length_append]
    omega
  rw [hplace]
  rfl

end Reading

end IceKernel.Stdio
