import IceKernel.Libc.StdioCalls
import IceKernel.Libc.Stdlib

/-!
# Numbers in text

What the integer specifiers print denotes their argument, and `atoi` reads it back
from the buffer of `vsnprintf`.
-/

namespace IceKernel.Stdio
open ByteMemory Digits

variable {F : Type}

/-- The magnitude of the argument of an integer specifier, and whether it is negative. -/
def specifierValue (c : BitVec 8) (flags : Flags) (arg : BitVec 64) : ℕ × Bool :=
  let flags := integerFlags c flags
  if flags.signed then ((signedValue flags arg).natAbs, signedValue flags arg < 0)
  else (unsignedValue flags arg, false)

/-- The body of the field that the standard asks of an integer specifier. -/
def specifierBody (c : BitVec 8) (flags : Flags) (width precision : ℕ) (arg : BitVec 64) :
    List (BitVec 8) :=
  standardBody (specifierValue c flags arg).1 (specifierValue c flags arg).2 (integerBase c)
    precision width (integerFlags c flags)

section Specifier

variable {c : BitVec 8} {flags : Flags} {width precision : ℕ} {arg : BitVec 64}

theorem integerSpecifierText_eq :
    integerSpecifierText c flags width precision arg =
      integerText (specifierValue c flags arg).1 (specifierValue c flags arg).2 (integerBase c)
        precision width (integerFlags c flags) := by
  unfold integerSpecifierText specifierValue
  dsimp only
  split <;> rfl

theorem integerBase_cases (c : BitVec 8) :
    integerBase c = 2 ∨ integerBase c = 8 ∨ integerBase c = 10 ∨ integerBase c = 16 := by
  unfold integerBase
  split_ifs <;> simp

/-- What an integer specifier makes of the flags of its directive. -/
theorem integerFlags_spec (c : BitVec 8) (flags : Flags) :
    (integerFlags c flags).precision = flags.precision ∧
      (integerFlags c flags).pointer = flags.pointer ∧
      (integerFlags c flags).left = flags.left ∧
      (integerFlags c flags).zeropad = (flags.zeropad && !flags.precision) ∧
      (integerBase c = 10 → (integerFlags c flags).hash = false) := by
  refine ⟨?_, ?_, ?_, ?_, fun hten => ?_⟩
  · simp only [integerFlags, apply_ite Flags.precision, ite_self]
  · simp only [integerFlags, apply_ite Flags.pointer, ite_self]
  · simp only [integerFlags, apply_ite Flags.left, ite_self]
  · simp only [integerFlags, apply_ite Flags.zeropad, apply_ite Flags.precision, ite_self]
    cases flags.precision <;> simp
  · simp only [integerFlags, hten, if_true, apply_ite Flags.hash, ite_self]

/-- An integer specifier prints the field of the standard, of whose body only the last 32
characters have room. -/
theorem integerSpecifierText_standard (hpointer : ¬ flags.pointer)
    (hprecision : ¬ flags.precision → precision = 0)
    (hmark : ¬ MarkMisplaced (specifierValue c flags arg).1 (specifierValue c flags arg).2
      (integerBase c) width (integerFlags c flags)) :
    integerSpecifierText c flags width precision arg =
      field width (integerFlags c flags)
        ((specifierBody c flags width precision arg).rtake 32) := by
  obtain ⟨hprec, hpoint, -, hzero, hten⟩ := integerFlags_spec c flags
  rw [integerSpecifierText_eq]
  refine integerText_eq (integerBase_cases c) (fun h => by simp [hten h]) (by rwa [hpoint])
    (by rwa [hprec]) (fun h => ?_) hmark
  rw [hprec] at h
  rw [hzero, h, Bool.not_true, Bool.and_false]
  exact Bool.false_ne_true

end Specifier

/-! ## The digits denote the number -/

theorem standardDigits_zeros (value base precision : ℕ) (flags : Flags) :
    ∃ k, standardDigits value base precision flags =
      List.replicate k 48 ++ numeral base flags.uppercase value := by
  unfold standardDigits
  dsimp only
  generalize (if flags.precision then precision else 1) -
    (numeral base flags.uppercase value).length = k
  split
  · exact ⟨k + 1, rfl⟩
  · exact ⟨k, rfl⟩

/-- A body is a sign, a mark and digits that denote the number. -/
theorem standardBody_denotes (base : ℕ) (hbase : 2 ≤ base) (hle : base ≤ 36) (value : ℕ)
    (negative : Bool) (precision width : ℕ) (flags : Flags) :
    ∃ digits, standardBody value negative base precision width flags =
        standardSign negative flags ++ (standardPrefix value base flags ++ digits) ∧
      (∀ c ∈ digits, digitVal c < base) ∧ numeralValue base digits = value := by
  obtain ⟨k, hk⟩ := standardDigits_zeros value base precision flags
  refine ⟨_, rfl, fun c hc => ?_, ?_⟩
  · rw [hk, List.mem_append, List.mem_append] at hc
    rcases hc with hc | hc | hc
    · rw [List.eq_of_mem_replicate hc, digitVal_zero]
      omega
    · rw [List.eq_of_mem_replicate hc, digitVal_zero]
      omega
    · exact digitVal_of_mem_numeral hbase hle hc
  · rw [hk, numeralValue_zeros, numeralValue_zeros, numeralValue_numeral hbase hle]

theorem keeps_nothing {S : Type} {g : Gadget S} (hpos : g.pos < 2 ^ 32) : Keeps g.mem ∅ g :=
  ⟨fun _ hx => absurd hx (Set.notMem_empty _), fun _ hx => absurd hx (Set.notMem_empty _), hpos⟩

/-- Without a precision the decimal digits are the shortest ones. -/
theorem standardDigits_decimal {flags : Flags} (hprecision : ¬ flags.precision) (value : ℕ) :
    standardDigits value 10 0 flags = decimal value := by
  have hdigits : ∀ d ∈ Nat.digits 10 value, digitOf flags.uppercase d = digitChar d := by
    intro d hd
    have hlt := Nat.digits_lt_base (by norm_num) hd
    rw [digitOf, if_pos hlt, digitChar, Nat.add_comm]
  unfold standardDigits
  dsimp only
  rw [if_neg hprecision, if_neg (by simp), numeral, List.map_congr_left hdigits, decimal]
  by_cases hzero : value = 0
  · subst hzero
    rfl
  · have hne : 0 < (Nat.digits 10 value).length :=
      List.length_pos_iff.2 (Nat.digits_ne_nil_iff_ne_zero.2 hzero)
    have hnone : 1 - ((Nat.digits 10 value).map digitChar).reverse.length = 0 := by
      rw [List.length_reverse, List.length_map]
      omega
    rw [hnone, List.replicate_zero, List.nil_append, if_neg hzero]

/-- An `int` in decimal. -/
def intText (x : ℤ) : List (BitVec 8) := (if x < 0 then [45] else []) ++ decimal x.natAbs

theorem intText_length (arg : BitVec 64) : (intText (toInt32 arg)).length ≤ 21 := by
  have hlen : (decimal (toInt32 arg).natAbs).length ≤ 20 := by
    have habs := signedValue_natAbs_le {} arg
    change (toInt32 arg).natAbs ≤ 2 ^ 63 at habs
    unfold decimal
    split
    · decide
    · rw [List.length_reverse, List.length_map, Nat.digits_length_le_iff (by norm_num)]
      omega
  unfold intText
  rw [List.length_append]
  split
  · rw [List.length_singleton]
    omega
  · rw [List.length_nil]
    omega

theorem intText_ne_zero (x : ℤ) : ∀ c ∈ intText x, c ≠ 0 := by
  rintro c hc rfl
  unfold intText at hc
  rcases List.mem_append.1 hc with hc | hc
  · split at hc
    · exact absurd (List.mem_singleton.1 hc) (by decide)
    · exact List.not_mem_nil hc
  · exact absurd ((decimal_isShortest x.natAbs).digits 0 hc) (by decide)

theorem specifierBody_d (arg : BitVec 64) :
    specifierBody 100 {} 0 0 arg = intText (toInt32 arg) := by
  have hdigits : standardDigits (toInt32 arg).natAbs 10 0 { signed := true } = _ :=
    standardDigits_decimal Bool.false_ne_true _
  change standardBody (toInt32 arg).natAbs (toInt32 arg < 0) 10 0 0 { signed := true } = _
  unfold standardBody intText standardSign standardPrefix
  simp [hdigits]

/-- `%d` prints an `int` in decimal. -/
theorem specifier_d (arg : BitVec 64) :
    integerSpecifierText 100 {} 0 0 arg = intText (toInt32 arg) := by
  have hlen := intText_length arg
  have hwhole : (intText (toInt32 arg)).rtake 32 = intText (toInt32 arg) := by
    rw [List.rtake, Nat.sub_eq_zero_of_le (by omega), List.drop_zero]
  have hstandard : integerSpecifierText 100 {} 0 0 arg =
      field 0 (integerFlags 100 {}) ((specifierBody 100 {} 0 0 arg).rtake 32) :=
    integerSpecifierText_standard Bool.false_ne_true (fun _ => rfl)
      fun h => Bool.false_ne_true h.1
  rw [hstandard, specifierBody_d, hwhole, field, Nat.zero_sub]
  rfl

section Rendered

variable {fp : FloatText F} {m : Mem} {R : Set ℕ} {str : ℕ → List (BitVec 8)}

theorem renders_int (arg : BitVec 64) (rest : List (Arg F)) {c : BitVec 8}
    (hc : c = 100 ∨ c = 105) :
    Renders fp m R str [37, c] (.word arg :: rest) (intText (toInt32 arg)) rest := by
  have htext : Renders fp m R str (37 :: ([] ++ [c])) (.word arg :: rest)
      (Event.shown str (.text (integerSpecifierText c {} 0 0 arg))) rest := by
    rcases hc with rfl | rfl <;> exact renders_directive rfl rfl trivial
  have hsame : integerSpecifierText c {} 0 0 arg = intText (toInt32 arg) := by
    rw [← specifier_d]
    rcases hc with rfl | rfl <;> rfl
  rwa [Event.shown, hsame] at htext

end Rendered

/-! ## Pointers -/

/-- The specifier `p` prints all 16 digits of an address behind its mark. -/
theorem pointerText_eq {arg : BitVec 64} (harg : arg ≠ 0) :
    pointerText {} 0 arg = [48, 120] ++
      (List.replicate (16 - (numeral 16 false arg.toNat).length) 48 ++
        numeral 16 false arg.toNat) := by
  have hvalue : arg.toNat ≠ 0 := fun h => harg (BitVec.eq_of_toNat_eq h)
  have hround : digitRounds 16 false integerBufferSize arg.toNat [] =
      ((Nat.digits 16 arg.toNat).map (digitOf false)).take 32 :=
    (digitRounds_eq (by norm_num) hvalue (by decide) rfl).trans (List.nil_append _)
  have hne : (Nat.digits 16 arg.toNat).map (digitOf false) ≠ [] := by
    rw [Ne, List.map_eq_nil_iff]
    exact Nat.digits_ne_nil_iff_ne_zero.2 hvalue
  have hlen : ((Nat.digits 16 arg.toNat).map (digitOf false)).length ≤ 16 := by
    rw [List.length_map, Nat.digits_length_le_iff (by norm_num)]
    exact arg.isLt
  have hnumeral : (numeral 16 false arg.toNat).length =
      ((Nat.digits 16 arg.toNat).map (digitOf false)).length := List.length_reverse
  have hmark : bufferText (((Nat.digits 16 arg.toNat).map (digitOf false)).take 32) false 16 0 18
      { zeropad := true, pointer := true } = _ :=
    bufferText_mark (.inl rfl) (.inr rfl) (fun _ => ⟨rfl, hne⟩)
      (fun h => absurd h Bool.false_ne_true) (fun _ => by decide)
  have hzeros : zerosBesideMark 0 (zeroWidth false 18 { zeropad := true, pointer := true })
      { zeropad := true, pointer := true } ((Nat.digits 16 arg.toNat).map (digitOf false)).length =
        16 - (numeral 16 false arg.toNat).length := by
    rw [hnumeral]
    change 18 - _ - 2 = _
    omega
  have htext : pointerText {} 0 arg =
      bufferText (digitRounds 16 false integerBufferSize arg.toNat []) false 16 0 18
        { zeropad := true, pointer := true } := by
    rw [pointerText, if_neg harg, integerText, integerDigits, if_neg hvalue]
  rw [htext, hround, hmark, hzeros, List.take_of_length_le]
  · simp [field, standardSign, markChar, numeral]
  · simp only [List.length_append, List.length_replicate, List.length_cons, List.length_nil]
    rw [hnumeral]
    have hsign : (standardSign false { zeropad := true, pointer := true }).length = 0 := rfl
    omega

/-- The specifier `p` prints the 16 digits of the address in its base. -/
theorem printPointerSpecifier_prints {S : Type} {g : Gadget S} (hpos : g.pos < 2 ^ 32)
    {arg : BitVec 64} (harg : arg ≠ 0) :
    ∃ digits, printPointerSpecifier {} 0 arg g = emit ([48, 120] ++ digits) g ∧
      digits.length = 16 ∧ (∀ d ∈ digits, digitVal d < 16) ∧
      numeralValue 16 digits = arg.toNat := by
  have hlen : (numeral 16 false arg.toNat).length ≤ 16 := by
    rw [numeral, List.length_reverse, List.length_map, Nat.digits_length_le_iff (by norm_num)]
    exact arg.isLt
  refine ⟨_, (printPointerSpecifier_eq (keeps_nothing hpos) {} 0 arg).trans
    (congrArg (emit · g) (pointerText_eq harg)), ?_, fun d hd => ?_, ?_⟩
  · rw [List.length_append, List.length_replicate]
    omega
  · rcases List.mem_append.1 hd with hd | hd
    · rw [List.eq_of_mem_replicate hd, digitVal_zero]
      omega
    · exact digitVal_of_mem_numeral (by norm_num) (by norm_num) hd
  · rw [numeralValue_zeros, numeralValue_numeral (by norm_num) (by norm_num)]

theorem printPointerSpecifier_prints_address :
    ∃ digits, printPointerSpecifier {} 0 0xB8000 (discardingGadget (fun _ => 0) ()) =
        emit ([48, 120] ++ digits) (discardingGadget (fun _ => 0) ()) ∧
      digits.length = 16 ∧ (∀ d ∈ digits, digitVal d < 16) ∧
      numeralValue 16 digits = 0xB8000 :=
  printPointerSpecifier_prints (by decide) (by decide)

/-! ## There and back -/

/-- A decimal specifier whose field has no spaces and no sign before the number. -/
structure Unspaced (c : BitVec 8) (flags : Flags) (width : ℕ) (arg : BitVec 64) : Prop where
  decimal : integerBase c = 10
  unpadded : flags.left ∨ flags.zeropad ∧ ¬ flags.precision ∨ width = 0
  sign : standardSign (specifierValue c flags arg).2 (integerFlags c flags) = []

/-- The text of such a specifier starts with the digits of the number. -/
theorem Unspaced.text {c : BitVec 8} {flags : Flags} {width precision : ℕ} {arg : BitVec 64}
    (h : Unspaced c flags width arg) (hpointer : ¬ flags.pointer)
    (hprecision : ¬ flags.precision → precision = 0)
    (hfit : (specifierBody c flags width precision arg).length ≤ 32) :
    ∃ digits k, integerSpecifierText c flags width precision arg =
        digits ++ List.replicate k 32 ∧ (∀ d ∈ digits, digitVal d < 10) ∧
      numeralValue 10 digits = (specifierValue c flags arg).1 := by
  obtain ⟨-, -, hleft, hzero, hten⟩ := integerFlags_spec c flags
  have hmark : ¬ MarkMisplaced (specifierValue c flags arg).1 (specifierValue c flags arg).2
      (integerBase c) width (integerFlags c flags) := by
    intro hm
    have hhash := hm.1
    rw [hten h.decimal] at hhash
    exact Bool.false_ne_true hhash
  have hprefix : standardPrefix (specifierValue c flags arg).1 10 (integerFlags c flags) = [] := by
    simp [standardPrefix]
  obtain ⟨digits, hbody, hdigits, hvalue⟩ := standardBody_denotes 10 (by norm_num)
    (by norm_num) (specifierValue c flags arg).1 (specifierValue c flags arg).2 precision width
    (integerFlags c flags)
  rw [h.sign, hprefix, List.nil_append, List.nil_append] at hbody
  have hspec : specifierBody c flags width precision arg = digits := by
    rw [specifierBody, h.decimal, hbody]
  rw [hspec] at hfit
  have hwhole : digits.rtake 32 = digits := by
    rw [List.rtake, Nat.sub_eq_zero_of_le hfit, List.drop_zero]
  rw [integerSpecifierText_standard hpointer hprecision hmark, hspec, hwhole, field, hleft, hzero]
  split
  · exact ⟨digits, _, rfl, hdigits, hvalue⟩
  next hl =>
    split
    · exact ⟨digits, 0, (List.append_nil _).symm, hdigits, hvalue⟩
    next hz =>
      have hwidth : width = 0 := by
        rcases h.unpadded with hf | ⟨hf, hp⟩ | hf
        · exact absurd hf hl
        · exact absurd (by simp [hf, hp]) hz
        · exact hf
      refine ⟨digits, 0, ?_, hdigits, hvalue⟩
      rw [hwidth, Nat.zero_sub, List.replicate_zero, List.nil_append, List.append_nil]

end IceKernel.Stdio
