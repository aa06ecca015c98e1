import IceKernel.Lib.Digits
import IceKernel.Libc.StdioGadget

/-!
# Padding and integers of `libs/libc/stdio.cpp`

The digits of a number are collected in a buffer of 32 characters, the last one
first, and printed backwards by `out_rev`.
-/

namespace IceKernel.Stdio
open ByteMemory Digits

/-- `printf_flags_t`, one field for each bit. -/
structure Flags where
  zeropad : Bool := false
  left : Bool := false
  plus : Bool := false
  space : Bool := false
  hash : Bool := false
  uppercase : Bool := false
  char : Bool := false
  short : Bool := false
  long : Bool := false
  longLong : Bool := false
  precision : Bool := false
  adaptExp : Bool := false
  pointer : Bool := false
  signed : Bool := false
deriving DecidableEq, Repr

/-- `PRINTF_INTEGER_BUFFER_SIZE`. -/
def integerBufferSize : ℕ := 32

variable {S : Type}

/-! ## `out_rev` -/

/-- `n` spaces, one after the other. -/
def putSpaces : ℕ → Gadget S → Gadget S
  | 0, g => g
  | n + 1, g => putSpaces n (putcharViaGadget 32 g)

/-- `while (output->pos - start_pos < width)`, in at most so many rounds. -/
def padToWidth (startPos width : ℕ) : ℕ → Gadget S → Gadget S
  | 0, g => g
  | rounds + 1, g =>
    if wrap32 (g.pos + (2 ^ 32 - startPos)) < width then
      padToWidth startPos width rounds (putcharViaGadget 32 g)
    else g

/-- `out_rev(output, buf, len, width, flags)`, where `len` is the length of `buf`. -/
def outRev (buf : List (BitVec 8)) (width : ℕ) (flags : Flags) (g : Gadget S) : Gadget S :=
  let startPos := g.pos
  let g := if ¬ flags.left ∧ ¬ flags.zeropad then putSpaces (width - buf.length) g else g
  let g := buf.foldr putcharViaGadget g
  if flags.left then padToWidth startPos width width g else g

/-- A text in its field: spaces before it, unless zeros take their place, or behind it. -/
def field (width : ℕ) (flags : Flags) (body : List (BitVec 8)) : List (BitVec 8) :=
  if flags.left then body ++ List.replicate (width - body.length) 32
  else if flags.zeropad then body
  else List.replicate (width - body.length) 32 ++ body

section OutRev

variable {g : Gadget S} {buf : List (BitVec 8)} {width startPos rounds : ℕ} {flags : Flags}

theorem putSpaces_eq (n : ℕ) (g : Gadget S) : putSpaces n g = emit (List.replicate n 32) g := by
  induction n generalizing g with
  | zero => rfl
  | succ n ih => rw [putSpaces, ih, List.replicate_succ, emit_cons]

theorem foldr_eq_emit (buf : List (BitVec 8)) (g : Gadget S) :
    buf.foldr putcharViaGadget g = emit buf.reverse g := by
  rw [emit, List.foldl_reverse]

/-- The loop pads what has been put since `startPos`, and stops by its own condition. -/
theorem padToWidth_eq {done : ℕ} (hstart : startPos < 2 ^ 32) (hwidth : width < 2 ^ 32)
    (hpos : g.pos = wrap32 (startPos + done)) (hdone : done < 2 ^ 32)
    (hrounds : width - done ≤ rounds) :
    padToWidth startPos width rounds g = emit (List.replicate (width - done) 32) g := by
  have hsub : wrap32 (g.pos + (2 ^ 32 - startPos)) = done := by
    rw [hpos]
    unfold wrap32
    omega
  induction rounds generalizing g done with
  | zero =>
    have hnone : width - done = 0 := by omega
    rw [hnone]
    rfl
  | succ rounds ih =>
    rw [padToWidth, hsub]
    by_cases hlt : done < width
    · have hnext : (putcharViaGadget 32 g).pos = wrap32 (startPos + (done + 1)) := by
        rw [(putcharViaGadget_fixed 32 g).2.2.2, hpos]
        unfold wrap32
        omega
      have hcount : width - done = width - (done + 1) + 1 := by omega
      rw [if_pos hlt, hcount, List.replicate_succ, emit_cons]
      refine ih hnext (by omega) (by omega) ?_
      rw [hnext]
      unfold wrap32
      omega
    · have hnone : width - done = 0 := by omega
      rw [if_neg hlt, hnone]
      rfl

/-- `out_rev` prints the buffer backwards in its field. -/
theorem outRev_eq (hpos : g.pos < 2 ^ 32) (hlen : buf.length < 2 ^ 32) (hwidth : width < 2 ^ 32) :
    outRev buf width flags g = emit (field width flags buf.reverse) g := by
  unfold outRev field
  dsimp only
  rw [foldr_eq_emit, List.length_reverse]
  by_cases hleft : flags.left
  · have hafter : (emit buf.reverse g).pos = wrap32 (g.pos + buf.length) := by
      rw [emit_pos hpos, List.length_reverse]
    simp only [hleft, not_true_eq_false, false_and, if_false, if_true]
    rw [padToWidth_eq hpos hwidth hafter hlen (Nat.sub_le _ _), emit_append]
  · simp only [hleft, Bool.false_eq_true, not_false_eq_true, true_and, if_false]
    by_cases hzero : flags.zeropad
    · simp [hzero]
    · simp [hzero, putSpaces_eq, emit_append]

end OutRev

/-! ## The integer buffer -/

/-- `buf[len++] = c`, as long as there is room. -/
def push (c : BitVec 8) (buf : List (BitVec 8)) : List (BitVec 8) :=
  if buf.length < integerBufferSize then buf ++ [c] else buf

/-- `while (len < limit && len < PRINTF_INTEGER_BUFFER_SIZE) buf[len++] = '0'`, in at most so many
rounds. -/
def padZeros (limit : ℕ) : ℕ → List (BitVec 8) → List (BitVec 8)
  | 0, buf => buf
  | rounds + 1, buf =>
    if buf.length < limit ∧ buf.length < integerBufferSize then
      padZeros limit rounds (buf ++ [48])
    else buf

/-- The field width without the place of the sign, where zeros fill the field. -/
def zeroWidth (negative : Bool) (width : ℕ) (flags : Flags) : ℕ :=
  if ¬ flags.left ∧ width ≠ 0 ∧ flags.zeropad ∧ (negative ∨ flags.plus ∨ flags.space) then
    width - 1
  else width

/-- Pad with leading zeros. -/
def leadingZeros (precision width : ℕ) (flags : Flags) (buf : List (BitVec 8)) :
    List (BitVec 8) :=
  let buf :=
    if ¬ flags.left ∧ flags.zeropad then padZeros width integerBufferSize buf else buf
  padZeros precision integerBufferSize buf

/-- Handle hash. -/
def handleHash (unpaddedLen base precision width : ℕ) (flags : Flags) (buf : List (BitVec 8)) :
    List (BitVec 8) :=
  if flags.hash ∨ flags.pointer then
    let buf :=
      if ¬ flags.precision ∧ buf.length ≠ 0 ∧
          (buf.length = precision ∨ buf.length = width) then
        let buf := if unpaddedLen < buf.length then buf.dropLast else buf
        if buf.length ≠ 0 ∧ (base = 16 ∨ base = 2) ∧ unpaddedLen < buf.length then buf.dropLast
        else buf
      else buf
    let buf :=
      if base = 16 ∧ ¬ flags.uppercase ∧ buf.length < integerBufferSize then buf ++ [120]
      else if base = 16 ∧ flags.uppercase ∧ buf.length < integerBufferSize then buf ++ [88]
      else if base = 2 ∧ buf.length < integerBufferSize then buf ++ [98]
      else buf
    push 48 buf
  else buf

def appendSign (negative : Bool) (flags : Flags) (buf : List (BitVec 8)) : List (BitVec 8) :=
  if negative then push 45 buf
  else if flags.plus then push 43 buf
  else if flags.space then push 32 buf
  else buf

/-- The buffer that `print_integer_finalization` gives to `out_rev`. -/
def finalBuffer (buf : List (BitVec 8)) (negative : Bool) (base precision width : ℕ)
    (flags : Flags) : List (BitVec 8) :=
  let unpaddedLen := buf.length
  let width := zeroWidth negative width flags
  let buf := leadingZeros precision width flags buf
  let flags := if base = 8 ∧ unpaddedLen < buf.length then { flags with hash := false } else flags
  let buf := handleHash unpaddedLen base precision width flags buf
  appendSign negative flags buf

/-- `print_integer_finalization`. `out_rev` does not look at the hash flag, which the buffer of an
octal number may have cleared. -/
def printIntegerFinalization (buf : List (BitVec 8)) (negative : Bool)
    (base precision width : ℕ) (flags : Flags) (g : Gadget S) : Gadget S :=
  outRev (finalBuffer buf negative base precision width flags) (zeroWidth negative width flags)
    flags g

/-- The loop of `print_integer`, in at most so many rounds. -/
def digitRounds (base : ℕ) (upper : Bool) : ℕ → ℕ → List (BitVec 8) → List (BitVec 8)
  | 0, _, buf => buf
  | rounds + 1, value, buf =>
    let buf := buf ++ [digitOf upper (value % base)]
    let value := value / base
    if value ≠ 0 ∧ buf.length < integerBufferSize then digitRounds base upper rounds value buf
    else buf

/-- The digits of `print_integer`, with the flags it goes on with. -/
def integerDigits (value base : ℕ) (flags : Flags) : List (BitVec 8) × Flags :=
  if value = 0 then
    if ¬ flags.precision then ([48], { flags with hash := false })
    else if base = 16 then ([], { flags with hash := false })
    else ([], flags)
  else (digitRounds base flags.uppercase integerBufferSize value [], flags)

/-- `print_integer`. -/
def printInteger (value : ℕ) (negative : Bool) (base precision width : ℕ) (flags : Flags)
    (g : Gadget S) : Gadget S :=
  let (buf, flags) := integerDigits value base flags
  printIntegerFinalization buf negative base precision width flags g

/-- What is printed of a buffer. -/
def bufferText (buf : List (BitVec 8)) (negative : Bool) (base precision width : ℕ)
    (flags : Flags) : List (BitVec 8) :=
  field (zeroWidth negative width flags) flags
    (finalBuffer buf negative base precision width flags).reverse

/-- What `print_integer` prints. -/
def integerText (value : ℕ) (negative : Bool) (base precision width : ℕ) (flags : Flags) :
    List (BitVec 8) :=
  let (buf, flags) := integerDigits value base flags
  bufferText buf negative base precision width flags

end IceKernel.Stdio
