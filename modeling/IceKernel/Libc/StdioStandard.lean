import Mathlib.Data.List.DropRight
import IceKernel.Libc.StdioInteger

/-!
# Integers in the field of the C standard

What the standard asks of an integer conversion, and how far `print_integer` keeps to
it: of the sign, the mark, the zeros and the digits only the last 32 characters have
room in its buffer.
-/

namespace IceKernel.Stdio
open ByteMemory Digits

variable {S : Type}

/-! ## The field of the C standard -/

section Standard

variable (value : ℕ) (negative : Bool) (base precision width : ℕ) (flags : Flags)

/-- The digits, at least as many as the precision asks for, which is 1 if it is left out. The
alternative form of an octal number starts with a zero. -/
def standardDigits : List (BitVec 8) :=
  let digits := numeral base flags.uppercase value
  let least := if flags.precision then precision else 1
  let digits := List.replicate (least - digits.length) 48 ++ digits
  if flags.hash ∧ base = 8 ∧ digits.head? ≠ some 48 then 48 :: digits else digits

/-- The alternative form of a nonzero hexadecimal or binary number has a mark before it. -/
def standardPrefix : List (BitVec 8) :=
  if flags.hash ∧ value ≠ 0 then
    if base = 16 then [48, if flags.uppercase then 88 else 120]
    else if base = 2 then [48, 98]
    else []
  else []

def standardSign : List (BitVec 8) :=
  if negative then [45] else if flags.plus then [43] else if flags.space then [32] else []

/-- The number without the spaces of its field. -/
def standardBody : List (BitVec 8) :=
  let sign := standardSign negative flags
  let mark := standardPrefix value base flags
  let digits := standardDigits value base precision flags
  let zeros :=
    if ¬ flags.left ∧ flags.zeropad then width - (sign.length + mark.length + digits.length) else 0
  sign ++ (mark ++ (List.replicate zeros 48 ++ digits))

end Standard

section Buffer

variable {base precision width : ℕ} {flags : Flags} {R : List (BitVec 8)}

theorem push_take (c : BitVec 8) (R : List (BitVec 8)) :
    push c (R.take 32) = (R ++ [c]).take 32 := by
  unfold push integerBufferSize
  by_cases hlt : R.length < 32
  · have hsnoc : (R ++ [c]).length ≤ 32 := by simpa using hlt
    rw [List.take_of_length_le hlt.le, if_pos hlt, List.take_of_length_le hsnoc]
  · rw [if_neg (by rw [List.length_take]; omega), List.take_append_of_le_length (by omega)]

theorem padZeros_eq {limit rounds : ℕ} {buf : List (BitVec 8)} (hbuf : buf.length ≤ 32)
    (hrounds : 32 - buf.length ≤ rounds) :
    padZeros limit rounds buf = buf ++ List.replicate (min limit 32 - buf.length) 48 := by
  induction rounds generalizing buf with
  | zero =>
    have hnone : min limit 32 - buf.length = 0 := by omega
    rw [hnone, List.replicate_zero, List.append_nil]
    rfl
  | succ rounds ih =>
    rw [padZeros]
    split
    next h =>
      have hroom : buf.length < 32 := h.2
      have hcount : min limit 32 - buf.length = min limit 32 - (buf.length + 1) + 1 := by omega
      rw [ih (by simpa using hroom) (by simp; omega), List.append_assoc, List.length_append,
        List.length_singleton, hcount, List.replicate_succ]
      rfl
    next h =>
      have hnone : min limit 32 - buf.length = 0 := by
        unfold integerBufferSize at h
        omega
      rw [hnone, List.replicate_zero, List.append_nil]

theorem padZeros_take (limit : ℕ) (R : List (BitVec 8)) :
    padZeros limit integerBufferSize (R.take 32) =
      (R ++ List.replicate (limit - R.length) 48).take 32 := by
  rw [padZeros_eq (by simp) (by simp [integerBufferSize]), List.take_append, List.take_replicate,
    List.length_take]
  by_cases hlt : R.length ≤ 32
  · have hcount : min limit 32 - min 32 R.length = min (32 - R.length) (limit - R.length) := by
      omega
    rw [hcount]
  · have hnone : min limit 32 - min 32 R.length = 0 := by omega
    have hnone' : min (32 - R.length) (limit - R.length) = 0 := by omega
    rw [hnone, hnone']

/-- How far the digits are padded with zeros. -/
def zeroLimit (precision width : ℕ) (flags : Flags) : ℕ :=
  max (if ¬ flags.left ∧ flags.zeropad then width else 0) precision

theorem leadingZeros_take (precision width : ℕ) (flags : Flags) (R : List (BitVec 8)) :
    leadingZeros precision width flags (R.take 32) =
      (R ++ List.replicate (zeroLimit precision width flags - R.length) 48).take 32 := by
  unfold leadingZeros zeroLimit
  dsimp only
  split
  · rw [padZeros_take, padZeros_take, List.append_assoc, List.length_append, List.length_replicate,
      List.replicate_append_replicate]
    congr 3
    omega
  · rw [padZeros_take, Nat.zero_max]

theorem appendSign_take (negative : Bool) (flags : Flags) (R : List (BitVec 8)) :
    appendSign negative flags (R.take 32) = (R ++ standardSign negative flags).take 32 := by
  unfold appendSign standardSign
  split
  · exact push_take 45 R
  split
  · exact push_take 43 R
  split
  · exact push_take 32 R
  · rw [List.append_nil]

/-- The loop stores the digits, as many as there is room for. -/
theorem digitRounds_eq {rounds value : ℕ} {upper : Bool} {buf : List (BitVec 8)}
    (hbase : 2 ≤ base) (hvalue : value ≠ 0) (hrounds : 0 < rounds)
    (hroom : buf.length + rounds = 32) :
    digitRounds base upper rounds value buf =
      buf ++ ((Nat.digits base value).map (digitOf upper)).take rounds := by
  induction rounds generalizing value buf with
  | zero => exact absurd hrounds (lt_irrefl 0)
  | succ rounds ih =>
    rw [digitRounds, Nat.digits_def' hbase (Nat.pos_of_ne_zero hvalue), List.map_cons,
      List.take_succ_cons]
    have hlen : (buf ++ [digitOf upper (value % base)]).length + rounds = 32 := by
      rw [List.length_append, List.length_singleton]
      omega
    split
    next h =>
      have hmore : 0 < rounds := by
        have hless : (buf ++ [digitOf upper (value % base)]).length < 32 := h.2
        omega
      rw [ih h.1 hmore hlen, List.append_assoc]
      rfl
    next h =>
      have hdone : ((Nat.digits base (value / base)).map (digitOf upper)).take rounds = [] := by
        by_cases hzero : value / base = 0
        · rw [hzero, Nat.digits_zero, List.map_nil, List.take_nil]
        · have hfull : rounds = 0 := by
            by_contra hne
            refine h ⟨hzero, ?_⟩
            unfold integerBufferSize
            omega
          rw [hfull, List.take_zero]
      rw [hdone]

/-- The character of the mark of a base, `0x`, `0X` or `0b`. -/
def markChar (base : ℕ) (flags : Flags) : BitVec 8 :=
  if base = 16 then if flags.uppercase then 88 else 120 else 98

theorem handleHash_none (hhash : ¬ flags.hash) (hpointer : ¬ flags.pointer)
    (unpaddedLen base precision width : ℕ) (buf : List (BitVec 8)) :
    handleHash unpaddedLen base precision width flags buf = buf := by
  unfold handleHash
  rw [if_neg (by simp [hhash, hpointer])]

/-- An octal number that has not been padded gets a zero. -/
theorem handleHash_octal (hhash : flags.hash) (precision width : ℕ) (buf : List (BitVec 8)) :
    handleHash buf.length 8 precision width flags buf = push 48 buf := by
  unfold handleHash
  simp [hhash]

/-- The last step of a mark, from the padded digits that are left of it. -/
theorem pushMark_take (hbase : base = 16 ∨ base = 2) (flags : Flags) (R : List (BitVec 8)) :
    push 48 (if base = 16 ∧ ¬ flags.uppercase ∧ (R.take 32).length < integerBufferSize then
        R.take 32 ++ [120]
      else if base = 16 ∧ flags.uppercase ∧ (R.take 32).length < integerBufferSize then
        R.take 32 ++ [88]
      else if base = 2 ∧ (R.take 32).length < integerBufferSize then R.take 32 ++ [98]
      else R.take 32) = (R ++ [markChar base flags, 48]).take 32 := by
  have hmark : (if base = 16 ∧ ¬ flags.uppercase ∧ (R.take 32).length < integerBufferSize then
        R.take 32 ++ [120]
      else if base = 16 ∧ flags.uppercase ∧ (R.take 32).length < integerBufferSize then
        R.take 32 ++ [88]
      else if base = 2 ∧ (R.take 32).length < integerBufferSize then R.take 32 ++ [98]
      else R.take 32) = push (markChar base flags) (R.take 32) := by
    unfold push markChar
    rcases hbase with rfl | rfl <;> by_cases hupper : flags.uppercase <;> simp [hupper]
  rw [hmark, push_take, push_take, List.append_assoc]
  rfl

/-- How many zeros are left when the mark has taken its place among them. -/
def zerosBesideMark (precision width : ℕ) (flags : Flags) (n : ℕ) : ℕ :=
  if ¬ flags.left ∧ flags.zeropad then width - n - 2 else precision - n

theorem dropLast_zeros (R : List (BitVec 8)) (k : ℕ) :
    (if R.length < (R ++ List.replicate k (48 : BitVec 8)).length then
        (R ++ List.replicate k (48 : BitVec 8)).dropLast
      else R ++ List.replicate k 48) = R ++ List.replicate (k - 1) 48 := by
  rw [List.length_append, List.length_replicate]
  cases k with
  | zero => simp
  | succ k =>
    have hne : List.replicate (k + 1) (48 : BitVec 8) ≠ [] := by simp
    rw [if_pos (by omega), List.dropLast_append_of_ne_nil hne, List.dropLast_replicate]

/-- Of the zeros that fill the field, the last two give way to the mark. -/
theorem dropTwo_zeros (hbase : base = 16 ∨ base = 2) (R : List (BitVec 8)) (k : ℕ) :
    (let buf := R ++ List.replicate k (48 : BitVec 8)
      let buf := if R.length < buf.length then buf.dropLast else buf
      if buf.length ≠ 0 ∧ (base = 16 ∨ base = 2) ∧ R.length < buf.length then buf.dropLast
      else buf) = R ++ List.replicate (k - 2) 48 := by
  dsimp only
  rw [dropLast_zeros]
  have hguard : (R ++ List.replicate (k - 1) (48 : BitVec 8)).length ≠ 0 ∧
      (base = 16 ∨ base = 2) ∧ R.length < (R ++ List.replicate (k - 1) (48 : BitVec 8)).length ↔
        R.length < (R ++ List.replicate (k - 1) (48 : BitVec 8)).length :=
    ⟨fun h => h.2.2, fun h => ⟨by omega, hbase, h⟩⟩
  rw [if_congr hguard rfl rfl, dropLast_zeros, Nat.sub_sub]

theorem take_replicate_append (R l : List (BitVec 8)) {k : ℕ} (h : 32 ≤ R.length + k) :
    (R ++ (List.replicate k 48 ++ l)).take 32 = (R ++ List.replicate k 48).take 32 := by
  rw [← List.append_assoc, List.take_append_of_le_length (by simpa using h)]

theorem handleHash_mark (hbase : base = 16 ∨ base = 2) (hhash : flags.hash ∨ flags.pointer)
    (hprecision : ¬ flags.precision → precision = 0 ∧ R ≠ [])
    (hzero : flags.precision → ¬ flags.zeropad)
    (hwidth : ¬ flags.left ∧ flags.zeropad → width ≠ 33) :
    handleHash (R.take 32).length base precision width flags
        ((R ++ List.replicate (zeroLimit precision width flags - R.length) 48).take 32) =
      (R ++ (List.replicate (zerosBesideMark precision width flags R.length) 48 ++
        [markChar base flags, 48])).take 32 := by
  unfold handleHash
  rw [if_pos hhash]
  dsimp only
  by_cases hlong : 32 ≤ R.length
  · -- the digits alone fill the buffer
    have hfull (l : List (BitVec 8)) : (R ++ l).take 32 = R.take 32 :=
      List.take_append_of_le_length hlong
    rw [hfull, hfull]
    simp only [lt_irrefl, and_false, if_false, ite_self]
    rw [pushMark_take hbase, hfull]
  by_cases hfill : ¬ flags.left ∧ flags.zeropad
  · have hnoprec : ¬ flags.precision := fun h => hzero h hfill.2
    obtain ⟨rfl, hne⟩ := hprecision hnoprec
    have hpos : 0 < R.length := List.length_pos_iff.2 hne
    have hlimit : zeroLimit 0 width flags = width := by
      unfold zeroLimit
      rw [if_pos hfill, Nat.max_zero]
    have hbeside : zerosBesideMark 0 width flags R.length = width - R.length - 2 := by
      unfold zerosBesideMark
      rw [if_pos hfill]
    rw [hlimit, hbeside]
    by_cases hfits : R.length ≤ width ∧ width ≤ 32
    · -- the field is full: two zeros go
      have hR : R.take 32 = R := List.take_of_length_le (by omega)
      have hbuf : (R ++ List.replicate (width - R.length) (48 : BitVec 8)).take 32 =
          R ++ List.replicate (width - R.length) 48 := List.take_of_length_le (by simp; omega)
      have hlen : (R ++ List.replicate (width - R.length) (48 : BitVec 8)).length = width := by
        simp; omega
      have hrest : R ++ List.replicate (width - R.length - 2) (48 : BitVec 8) =
          (R ++ List.replicate (width - R.length - 2) (48 : BitVec 8)).take 32 :=
        (List.take_of_length_le (by simp; omega)).symm
      have hguard : ¬ flags.precision ∧
          (R ++ List.replicate (width - R.length) (48 : BitVec 8)).length ≠ 0 ∧
          ((R ++ List.replicate (width - R.length) (48 : BitVec 8)).length = 0 ∨
            (R ++ List.replicate (width - R.length) (48 : BitVec 8)).length = width) :=
        ⟨hnoprec, by omega, .inr hlen⟩
      have hdrop := dropTwo_zeros hbase R (width - R.length)
      dsimp only at hdrop
      rw [hR, hbuf, if_pos hguard, hdrop, hrest, pushMark_take hbase, List.append_assoc]
    · -- the buffer is not as long as the field, and no zero goes
      have hguard : ¬ (¬ flags.precision ∧
          ((R ++ List.replicate (width - R.length) (48 : BitVec 8)).take 32).length ≠ 0 ∧
          (((R ++ List.replicate (width - R.length) (48 : BitVec 8)).take 32).length = 0 ∨
            ((R ++ List.replicate (width - R.length) (48 : BitVec 8)).take 32).length = width)) := by
        simp only [List.length_take, List.length_append, List.length_replicate]
        have hw := hwidth hfill
        omega
      rw [if_neg hguard, pushMark_take hbase, List.append_assoc]
      by_cases hshort : width < R.length
      · have h1 : width - R.length = 0 := by omega
        rw [h1, Nat.zero_sub]
      · have hw := hwidth hfill
        rw [take_replicate_append _ _ (by omega), take_replicate_append _ _ (by omega),
          List.take_append, List.take_append, List.take_replicate, List.take_replicate]
        congr 2
        omega
  · -- no zeros for the field, so that only a precision can have filled the buffer
    have hlimit : zeroLimit precision width flags = precision := by
      unfold zeroLimit
      rw [if_neg hfill, Nat.zero_max]
    have hbeside : zerosBesideMark precision width flags R.length = precision - R.length := by
      unfold zerosBesideMark
      rw [if_neg hfill]
    rw [hlimit, hbeside]
    by_cases hprec : flags.precision
    · simp only [hprec, not_true_eq_false, false_and, if_false]
      rw [pushMark_take hbase, List.append_assoc]
    · obtain ⟨rfl, -⟩ := hprecision hprec
      have hsame : (R ++ List.replicate (0 - R.length) (48 : BitVec 8)).take 32 = R.take 32 := by
        rw [Nat.zero_sub, List.replicate_zero, List.append_nil]
      rw [hsame]
      simp only [lt_irrefl, and_false, if_false, ite_self]
      rw [pushMark_take hbase, Nat.zero_sub, List.replicate_zero, List.nil_append]

end Buffer

/-! ## What `print_integer` prints -/

section Finalization

variable {g : Gadget S} {R buf : List (BitVec 8)} {negative : Bool} {base precision width : ℕ}
  {flags : Flags}

theorem field_zeroWidth (body : List (BitVec 8)) :
    field (zeroWidth negative width flags) flags body = field width flags body := by
  unfold zeroWidth
  split
  next h => simp [field, h.1, h.2.2.1]
  next => rfl

/-- The zeros and the sign behind the digits, in the order of the buffer. -/
theorem bufferText_plain (hhash : ¬ flags.hash) (hpointer : ¬ flags.pointer)
    (R : List (BitVec 8)) :
    bufferText (R.take 32) negative base precision width flags =
      field width flags ((R ++ (List.replicate
        (zeroLimit precision (zeroWidth negative width flags) flags - R.length) 48 ++
          standardSign negative flags)).take 32).reverse := by
  unfold bufferText finalBuffer
  dsimp only
  have hflags : ({ flags with hash := false } : Flags) = flags := by
    cases flags
    simp_all
  rw [hflags, ite_self, leadingZeros_take, handleHash_none hhash hpointer, appendSign_take,
    field_zeroWidth, List.append_assoc]

theorem bufferText_octal (hhash : flags.hash) (hpointer : ¬ flags.pointer)
    (R : List (BitVec 8)) :
    bufferText (R.take 32) negative 8 precision width flags =
      field width flags ((R ++ (List.replicate
        (max (zeroLimit precision (zeroWidth negative width flags) flags - R.length) 1) 48 ++
          standardSign negative flags)).take 32).reverse := by
  unfold bufferText finalBuffer
  dsimp only
  rw [leadingZeros_take, field_zeroWidth]
  generalize hz : zeroLimit precision (zeroWidth negative width flags) flags - R.length = z
  by_cases hlonger : (R.take 32).length < ((R ++ List.replicate z 48).take 32).length
  · -- padded with zeros: there is one in front already
    have hmax : max z 1 = z := by
      rw [List.length_take, List.length_take, List.length_append, List.length_replicate] at hlonger
      omega
    have hnone : ¬ ({ flags with hash := false } : Flags).hash := Bool.false_ne_true
    have hsign := appendSign_take negative { flags with hash := false } (R ++ List.replicate z 48)
    rw [if_pos ⟨rfl, hlonger⟩, handleHash_none hnone hpointer, hmax, hsign, List.append_assoc]
    rfl
  · have hsame : (R ++ List.replicate z 48).take 32 = R.take 32 := by
      rw [List.length_take, List.length_take, List.length_append, List.length_replicate] at hlonger
      have hnone : min (32 - R.length) z = 0 := by omega
      rw [List.take_append, List.take_replicate, hnone, List.replicate_zero, List.append_nil]
    have hone : (R ++ ([48] ++ standardSign negative flags)).take 32 =
        (R ++ (List.replicate (max z 1) 48 ++ standardSign negative flags)).take 32 := by
      rw [List.length_take, List.length_take, List.length_append, List.length_replicate] at hlonger
      by_cases hroom : R.length < 32
      · have hz : max z 1 = 1 := by omega
        rw [hz]
        rfl
      · rw [List.take_append_of_le_length (by omega), List.take_append_of_le_length (by omega)]
    rw [if_neg (fun h => hlonger h.2), hsame, handleHash_octal hhash, push_take, appendSign_take,
      List.append_assoc, hone]

theorem bufferText_mark (hbase : base = 16 ∨ base = 2) (hhash : flags.hash ∨ flags.pointer)
    (hprecision : ¬ flags.precision → precision = 0 ∧ R ≠ [])
    (hzero : flags.precision → ¬ flags.zeropad)
    (hfull : ¬ flags.left ∧ flags.zeropad → zeroWidth negative width flags ≠ 33) :
    bufferText (R.take 32) negative base precision width flags =
      field width flags ((R ++ (List.replicate
        (zerosBesideMark precision (zeroWidth negative width flags) flags R.length) 48 ++
          ([markChar base flags, 48] ++ standardSign negative flags))).take 32).reverse := by
  unfold bufferText finalBuffer
  dsimp only
  have hnotEight : ¬ (base = 8 ∧ (R.take 32).length <
      (leadingZeros precision (zeroWidth negative width flags) flags (R.take 32)).length) := by
    rintro ⟨rfl, -⟩
    omega
  rw [if_neg hnotEight, leadingZeros_take, handleHash_mark hbase hhash hprecision hzero hfull,
    appendSign_take, field_zeroWidth, List.append_assoc, List.append_assoc]

/-! The buffer never overflows. -/

theorem push_length {c : BitVec 8} (hbuf : buf.length ≤ 32) : (push c buf).length ≤ 32 := by
  unfold push
  split
  next h =>
    rw [List.length_append, List.length_singleton]
    exact h
  next => exact hbuf

theorem padZeros_length {limit : ℕ} (hbuf : buf.length ≤ 32) :
    (padZeros limit integerBufferSize buf).length ≤ 32 := by
  have hrounds : 32 - buf.length ≤ integerBufferSize := Nat.sub_le _ _
  rw [padZeros_eq hbuf hrounds, List.length_append, List.length_replicate]
  omega

theorem leadingZeros_length (precision width : ℕ) (flags : Flags) (hbuf : buf.length ≤ 32) :
    (leadingZeros precision width flags buf).length ≤ 32 := by
  unfold leadingZeros
  dsimp only
  split
  · exact padZeros_length (padZeros_length hbuf)
  · exact padZeros_length hbuf

theorem handleHash_length (unpaddedLen base precision width : ℕ) (flags : Flags)
    (hbuf : buf.length ≤ 32) :
    (handleHash unpaddedLen base precision width flags buf).length ≤ 32 := by
  have hsnoc (c : BitVec 8) {l : List (BitVec 8)} (h : l.length < integerBufferSize) :
      (l ++ [c]).length ≤ 32 := by
    rw [List.length_append, List.length_singleton]
    exact h
  have hdrop (l : List (BitVec 8)) (h : l.length ≤ 32) : l.dropLast.length ≤ 32 := by
    rw [List.length_dropLast]
    omega
  have hmark (l : List (BitVec 8)) (h : l.length ≤ 32) :
      (if base = 16 ∧ ¬ flags.uppercase ∧ l.length < integerBufferSize then l ++ [120]
      else if base = 16 ∧ flags.uppercase ∧ l.length < integerBufferSize then l ++ [88]
      else if base = 2 ∧ l.length < integerBufferSize then l ++ [98]
      else l).length ≤ 32 := by
    split_ifs with h1 h2 h3
    · exact hsnoc 120 h1.2.2
    · exact hsnoc 88 h2.2.2
    · exact hsnoc 98 h3.2
    · exact h
  unfold handleHash
  dsimp only
  split
  · refine push_length (hmark _ ?_)
    split_ifs
    · exact hdrop _ (hdrop _ hbuf)
    · exact hdrop _ hbuf
    · exact hdrop _ hbuf
    · exact hbuf
    · exact hbuf
  · exact hbuf

theorem finalBuffer_length (negative : Bool) (base precision width : ℕ) (flags : Flags)
    (hbuf : buf.length ≤ 32) :
    (finalBuffer buf negative base precision width flags).length ≤ 32 := by
  unfold finalBuffer appendSign
  dsimp only
  have hhash (flags' : Flags) := handleHash_length buf.length base precision
    (zeroWidth negative width flags) flags'
    (leadingZeros_length precision (zeroWidth negative width flags) flags hbuf)
  split_ifs
  all_goals first | exact push_length (hhash _) | exact hhash _

theorem digitRounds_length (base : ℕ) (upper : Bool) (rounds value : ℕ) (buf : List (BitVec 8)) :
    (digitRounds base upper rounds value buf).length ≤ buf.length + rounds := by
  induction rounds generalizing value buf with
  | zero => exact Nat.le_add_right _ _
  | succ rounds ih =>
    have hsnoc : (buf ++ [digitOf upper (value % base)]).length = buf.length + 1 :=
      List.length_append
    rw [digitRounds]
    split
    · have hrest := ih (value / base) (buf ++ [digitOf upper (value % base)])
      omega
    · omega

theorem integerDigits_length (value base : ℕ) (flags : Flags) :
    (integerDigits value base flags).1.length ≤ 32 := by
  unfold integerDigits
  split
  · split
    · exact Nat.succ_le_succ (Nat.zero_le 31)
    · split <;> exact Nat.zero_le _
  · exact (digitRounds_length _ _ _ _ _).trans_eq (Nat.zero_add _)

end Finalization

section Body

variable {value : ℕ} {negative : Bool} {base precision width : ℕ} {flags : Flags}
  {R : List (BitVec 8)}

/-- In a field filled with zeros, the sign takes one place of the width. -/
theorem zeroWidth_sub (hfill : ¬ flags.left ∧ flags.zeropad) (k : ℕ) :
    zeroWidth negative width flags - k =
      width - ((standardSign negative flags).length + k) := by
  have hsign : (standardSign negative flags).length =
      if negative ∨ flags.plus ∨ flags.space then 1 else 0 := by
    unfold standardSign
    cases negative <;> cases flags.plus <;> cases flags.space <;> rfl
  rw [hsign, zeroWidth]
  by_cases hs : negative ∨ flags.plus ∨ flags.space
  · rw [if_pos hs]
    by_cases hwidth : width = 0
    · rw [if_neg (fun h => h.2.1 hwidth)]
      omega
    · rw [if_pos ⟨hfill.1, hwidth, hfill.2, hs⟩, Nat.sub_sub]
  · rw [if_neg hs, if_neg (fun h => hs h.2.2.2), Nat.zero_add]

theorem standardBody_reverse :
    (standardBody value negative base precision width flags).reverse =
      (standardDigits value base precision flags).reverse ++
        (List.replicate (if ¬ flags.left ∧ flags.zeropad then
            width - ((standardSign negative flags).length +
              ((standardPrefix value base flags).length +
                (standardDigits value base precision flags).length))
          else 0) 48 ++
        ((standardPrefix value base flags).reverse ++ standardSign negative flags)) := by
  have hsign : (standardSign negative flags).reverse = standardSign negative flags := by
    unfold standardSign
    split
    · rfl
    split
    · rfl
    split <;> rfl
  unfold standardBody
  dsimp only
  rw [List.reverse_append, List.reverse_append, List.reverse_append, hsign,
    List.reverse_replicate, Nat.add_assoc, List.append_assoc, List.append_assoc]

theorem reverse_plain (hfill : ¬ flags.left ∧ flags.zeropad → precision = 0)
    (hdigits : (standardDigits value base precision flags).reverse =
      R ++ List.replicate (precision - R.length) 48)
    (hmark : standardPrefix value base flags = []) :
    (standardBody value negative base precision width flags).reverse =
      R ++ (List.replicate
        (zeroLimit precision (zeroWidth negative width flags) flags - R.length) 48 ++
          standardSign negative flags) := by
  have hlen := congrArg List.length hdigits
  rw [List.length_reverse, List.length_append, List.length_replicate] at hlen
  rw [standardBody_reverse, hdigits, hmark, hlen]
  unfold zeroLimit
  by_cases h : ¬ flags.left ∧ flags.zeropad
  · obtain rfl := hfill h
    rw [if_pos h, if_pos h, Nat.max_zero, zeroWidth_sub h]
    simp
  · rw [if_neg h, if_neg h, Nat.zero_max]
    simp

theorem reverse_octal (hfill : ¬ flags.left ∧ flags.zeropad → precision = 0)
    (hdigits : (standardDigits value base precision flags).reverse =
      R ++ List.replicate (max (precision - R.length) 1) 48)
    (hmark : standardPrefix value base flags = []) :
    (standardBody value negative base precision width flags).reverse =
      R ++ (List.replicate
        (max (zeroLimit precision (zeroWidth negative width flags) flags - R.length) 1) 48 ++
          standardSign negative flags) := by
  have hlen := congrArg List.length hdigits
  rw [List.length_reverse, List.length_append, List.length_replicate] at hlen
  rw [standardBody_reverse, hdigits, hmark, hlen]
  unfold zeroLimit
  by_cases h : ¬ flags.left ∧ flags.zeropad
  · obtain rfl := hfill h
    have hzeros : max (max (zeroWidth negative width flags) 0 - R.length) 1 =
        1 + (width - ((standardSign negative flags).length + (0 + (R.length + 1)))) := by
      rw [Nat.max_zero, Nat.zero_add, ← zeroWidth_sub h]
      omega
    rw [if_pos h, if_pos h, hzeros, Nat.zero_sub, Nat.zero_max, ← List.replicate_append_replicate]
    simp
  · rw [if_neg h, if_neg h, Nat.zero_max]
    simp

theorem reverse_mark (hfill : ¬ flags.left ∧ flags.zeropad → precision = 0)
    (hdigits : (standardDigits value base precision flags).reverse =
      R ++ List.replicate (precision - R.length) 48)
    (hmark : standardPrefix value base flags = [48, markChar base flags]) :
    (standardBody value negative base precision width flags).reverse =
      R ++ (List.replicate
        (zerosBesideMark precision (zeroWidth negative width flags) flags R.length) 48 ++
          ([markChar base flags, 48] ++ standardSign negative flags)) := by
  have hlen := congrArg List.length hdigits
  rw [List.length_reverse, List.length_append, List.length_replicate] at hlen
  rw [standardBody_reverse, hdigits, hmark, hlen]
  unfold zerosBesideMark
  by_cases h : ¬ flags.left ∧ flags.zeropad
  · obtain rfl := hfill h
    have hzeros : zeroWidth negative width flags - R.length - 2 =
        width - ((standardSign negative flags).length + (2 + R.length)) := by
      rw [← zeroWidth_sub h]
      omega
    rw [if_pos h, if_pos h, hzeros]
    simp
  · rw [if_neg h, if_neg h]
    simp

/-! ## The digits -/

theorem numeral_head {upper : Bool} (hbase : 2 ≤ base) (hle : base ≤ 16) (hvalue : value ≠ 0) :
    (numeral base upper value).head? ≠ some 48 := by
  have hne : Nat.digits base value ≠ [] := Nat.digits_ne_nil_iff_ne_zero.2 hvalue
  have hlast := Nat.getLast_digit_ne_zero base hvalue
  have hlt := Nat.digits_lt_base hbase (List.getLast_mem hne)
  rw [numeral, List.head?_reverse, List.getLast?_map, List.getLast?_eq_getLast_of_ne_nil hne,
    Option.map_some]
  intro h
  have hval := congrArg digitVal (Option.some.inj h)
  rw [digitVal_digitOf upper (by omega)] at hval
  exact hlast hval

/-- How many zeros the precision puts before the digits. -/
theorem least_sub_length (hvalue : value ≠ 0 ∨ flags.precision)
    (hprecision : ¬ flags.precision → precision = 0) :
    (if flags.precision then precision else 1) - (numeral base flags.uppercase value).length =
      precision - ((Nat.digits base value).map (digitOf flags.uppercase)).length := by
  unfold numeral
  rw [List.length_reverse]
  split
  · rfl
  next h =>
    have hne := List.length_pos_iff.2 (Nat.digits_ne_nil_iff_ne_zero (b := base).2
      (hvalue.resolve_right h))
    rw [hprecision h, List.length_map]
    omega

/-- The digits in the order of the buffer, if a number is not in the alternative octal form. -/
theorem standardDigits_reverse (hoctal : ¬ (flags.hash ∧ base = 8))
    (hvalue : value ≠ 0 ∨ flags.precision) (hprecision : ¬ flags.precision → precision = 0) :
    (standardDigits value base precision flags).reverse =
      (Nat.digits base value).map (digitOf flags.uppercase) ++
        List.replicate (precision -
          ((Nat.digits base value).map (digitOf flags.uppercase)).length) 48 := by
  unfold standardDigits
  dsimp only
  rw [if_neg (fun h => hoctal ⟨h.1, h.2.1⟩), List.reverse_append, List.reverse_replicate,
    least_sub_length hvalue hprecision, numeral, List.reverse_reverse]

theorem standardDigits_octal (hhash : flags.hash) (hvalue : value ≠ 0 ∨ flags.precision)
    (hprecision : ¬ flags.precision → precision = 0) :
    (standardDigits value 8 precision flags).reverse =
      (Nat.digits 8 value).map (digitOf flags.uppercase) ++
        List.replicate (max (precision -
          ((Nat.digits 8 value).map (digitOf flags.uppercase)).length) 1) 48 := by
  have hreverse : (numeral 8 flags.uppercase value).reverse =
      (Nat.digits 8 value).map (digitOf flags.uppercase) := List.reverse_reverse _
  unfold standardDigits
  dsimp only
  rw [least_sub_length hvalue hprecision]
  generalize precision - ((Nat.digits 8 value).map (digitOf flags.uppercase)).length = z
  cases z with
  | zero =>
    have hhead : (numeral 8 flags.uppercase value).head? ≠ some 48 := by
      by_cases h : value = 0
      · subst h
        simp [numeral]
      · exact numeral_head (by decide) (by decide) h
    rw [if_pos ⟨hhash, rfl, hhead⟩, List.reverse_cons, List.replicate_zero, List.nil_append,
      hreverse]
    rfl
  | succ z =>
    have hmax : max (z + 1) 1 = z + 1 := by omega
    rw [if_neg (fun h => h.2.2 rfl), List.reverse_append, List.reverse_replicate, hreverse, hmax]

end Body

section PrintInteger

variable {g : Gadget S} {value : ℕ} {negative : Bool} {base precision width : ℕ} {flags : Flags}

/-- The mark of the alternative form is not where the standard puts it: a binary zero with a
precision has one, and a field of 33 zeros has none. -/
def MarkMisplaced (value : ℕ) (negative : Bool) (base width : ℕ) (flags : Flags) : Prop :=
  flags.hash ∧
    (value = 0 ∧ base = 2 ∧ flags.precision ∨
      value ≠ 0 ∧ (base = 16 ∨ base = 2) ∧ (¬ flags.left ∧ flags.zeropad) ∧
        zeroWidth negative width flags = 33)

/-- The text of an integer is the field of the standard, of whose body only the last 32
characters have room. -/
theorem integerText_eq (hbase : base = 2 ∨ base = 8 ∨ base = 10 ∨ base = 16)
    (hten : base = 10 → ¬ flags.hash) (hpointer : ¬ flags.pointer)
    (hprecision : ¬ flags.precision → precision = 0) (hzero : flags.precision → ¬ flags.zeropad)
    (hmark : ¬ MarkMisplaced value negative base width flags) :
    integerText value negative base precision width flags =
      field width flags ((standardBody value negative base precision width flags).rtake 32) := by
  have hfill : ¬ flags.left ∧ flags.zeropad → precision = 0 := fun h =>
    hprecision fun hp => hzero hp h.2
  have htwo : 2 ≤ base := by omega
  rw [List.rtake_eq_reverse_take_reverse]
  unfold integerText integerDigits
  by_cases hvalue : value = 0
  · subst hvalue
    have hprefix : standardPrefix 0 base flags = [] := if_neg fun h => h.2 rfl
    have hnone : ¬ ({ flags with hash := false } : Flags).hash := Bool.false_ne_true
    have hdigits (hoctal : ¬ (flags.hash ∧ base = 8)) (hprec : flags.precision) :
        (standardDigits 0 base precision flags).reverse =
          [] ++ List.replicate (precision - ([] : List (BitVec 8)).length) 48 := by
      rw [standardDigits_reverse hoctal (.inr hprec) hprecision, Nat.digits_zero, List.map_nil]
    rw [if_pos rfl]
    by_cases hprec : flags.precision
    · rw [if_neg (not_not.2 hprec)]
      by_cases hsixteen : base = 16
      · -- the flag is off, as in the standard's form of a zero
        rw [if_pos hsixteen, reverse_plain hfill (hdigits (by omega) hprec) hprefix]
        exact bufferText_plain hnone hpointer []
      · rw [if_neg hsixteen]
        by_cases hhash : flags.hash
        · -- a binary zero with a precision has a mark it should not have
          have height : base = 8 := by
            have hnotTwo : base ≠ 2 := fun h => hmark ⟨hhash, .inl ⟨rfl, h, hprec⟩⟩
            have hnotTen : base ≠ 10 := fun h => hten h hhash
            omega
          subst height
          have hoctal : (standardDigits 0 8 precision flags).reverse = _ :=
            standardDigits_octal hhash (.inr hprec) hprecision
          rw [Nat.digits_zero, List.map_nil] at hoctal
          rw [reverse_octal hfill hoctal hprefix]
          exact bufferText_octal hhash hpointer []
        · rw [reverse_plain hfill (hdigits (fun h => hhash h.1) hprec) hprefix]
          exact bufferText_plain hhash hpointer []
    · have hone : standardDigits 0 base precision flags = [48] := by
        simp [standardDigits, numeral, hprec]
      have hzero : (standardDigits 0 base precision flags).reverse =
          [48] ++ List.replicate (precision - ([48] : List (BitVec 8)).length) 48 := by
        rw [hone, hprecision hprec]
        rfl
      rw [if_pos hprec, reverse_plain hfill hzero hprefix]
      exact bufferText_plain hnone hpointer [48]
  · have hround : digitRounds base flags.uppercase integerBufferSize value [] =
        ((Nat.digits base value).map (digitOf flags.uppercase)).take 32 :=
      (digitRounds_eq htwo hvalue (by decide) rfl).trans (List.nil_append _)
    rw [if_neg hvalue, hround]
    dsimp only
    by_cases hhash : flags.hash
    · have hnotTen : base ≠ 10 := fun h => hten h hhash
      by_cases height : base = 8
      · subst height
        have hprefix : standardPrefix value 8 flags = [] := by simp [standardPrefix]
        rw [bufferText_octal hhash hpointer,
          reverse_octal hfill (standardDigits_octal hhash (.inl hvalue) hprecision) hprefix]
      · have hmarked : base = 16 ∨ base = 2 := by omega
        have hprefix : standardPrefix value base flags = [48, markChar base flags] := by
          unfold standardPrefix markChar
          rcases hmarked with rfl | rfl <;> simp [hhash, hvalue]
        have hne : (Nat.digits base value).map (digitOf flags.uppercase) ≠ [] := by
          rw [Ne, List.map_eq_nil_iff]
          exact Nat.digits_ne_nil_iff_ne_zero.2 hvalue
        rw [bufferText_mark hmarked (.inl hhash) (fun h => ⟨hprecision h, hne⟩) hzero
            (fun h h33 => hmark ⟨hhash, .inr ⟨hvalue, hmarked, h, h33⟩⟩),
          reverse_mark hfill (standardDigits_reverse (fun h => height h.2) (.inl hvalue)
            hprecision) hprefix]
    · have hprefix : standardPrefix value base flags = [] := if_neg fun h => hhash h.1
      rw [bufferText_plain hhash hpointer, reverse_plain hfill
        (standardDigits_reverse (fun h => hhash h.1) (.inl hvalue) hprecision) hprefix]

/-- `print_integer` prints the text, whatever the gadget. -/
theorem printInteger_eq (hpos : g.pos < 2 ^ 32) (hwidth : width < 2 ^ 32) :
    printInteger value negative base precision width flags g =
      emit (integerText value negative base precision width flags) g := by
  unfold printInteger integerText
  have hdigits := integerDigits_length value base flags
  generalize integerDigits value base flags = digits at hdigits
  obtain ⟨buf, flags⟩ := digits
  have hlen : (finalBuffer buf negative base precision width flags).length ≤ 32 :=
    finalBuffer_length negative base precision width flags hdigits
  have hle : zeroWidth negative width flags ≤ width := by
    unfold zeroWidth
    split <;> omega
  exact outRev_eq hpos (by omega) (hle.trans_lt hwidth)

end PrintInteger

end IceKernel.Stdio
