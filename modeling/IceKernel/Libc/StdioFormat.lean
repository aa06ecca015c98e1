import IceKernel.Lib.Word64
import IceKernel.Libc.StdioInteger

/-!
# The formatter of `libs/libc/stdio.cpp`

A format string is read from memory while its output may be stored there. What
`print_floating_point` prints is a parameter, and a missing argument or one of
another class ends the model.
-/

namespace IceKernel.Stdio
open ByteMemory Word64

/-- An argument of the call, as `va_arg` finds it: a word or a floating-point number. -/
inductive Arg (F : Type) where
  | word (w : BitVec 64)
  | double (x : F)

/-- Why the format is not read any further. -/
inductive Stop where
  /-- `ADVANCE_IN_FORMAT_STRING` has found the end and returned from the loop. -/
  | returned
  | stuck
deriving DecidableEq, Repr

variable {S F : Type}

/-- `va_arg(args, T)` for an integer or a pointer. -/
def vaWord : List (Arg F) → Option (BitVec 64 × List (Arg F))
  | .word w :: args => some (w, args)
  | _ => none

/-- `va_arg(args, double)`. -/
def vaDouble : List (Arg F) → Option (F × List (Arg F))
  | .double x :: args => some (x, args)
  | _ => none

/-- The value of a word as an `int`. -/
def toInt32 (w : BitVec 64) : ℤ := (w.setWidth 32).toInt

/-! ## Reading a conversion -/

def isDigit (c : BitVec 8) : Bool := 48 ≤ c && c ≤ 57

/-- `ADVANCE_IN_FORMAT_STRING`. -/
def advance (m : Mem) (format : ℕ) : Except Stop ℕ :=
  if m (format + 1) = 0 then .error .returned else .ok (format + 1)

/-- `atou`, from `i` on. -/
def atou (m : Mem) : ℕ → ℕ → ℕ → Except Stop (ℕ × ℕ)
  | 0, _, _ => .error .stuck
  | fuel + 1, str, i =>
    if isDigit (m str) then atou m fuel (str + 1) (wrap32 (i * 10 + ((m str).toNat - 48)))
    else .ok (i, str)

/-- `parse_flags`, from `flags` on. -/
def parseFlags (m : Mem) : ℕ → ℕ → Flags → Except Stop (Flags × ℕ)
  | 0, _, _ => .error .stuck
  | fuel + 1, format, flags =>
    if m format = 48 then parseFlags m fuel (format + 1) { flags with zeropad := true }
    else if m format = 45 then parseFlags m fuel (format + 1) { flags with left := true }
    else if m format = 43 then parseFlags m fuel (format + 1) { flags with plus := true }
    else if m format = 32 then parseFlags m fuel (format + 1) { flags with space := true }
    else if m format = 35 then parseFlags m fuel (format + 1) { flags with hash := true }
    else .ok (flags, format)

/-- Evaluate the width field. -/
def parseWidth (m : Mem) (fuel format : ℕ) (flags : Flags) (args : List (Arg F)) :
    Except Stop (Flags × ℕ × ℕ × List (Arg F)) :=
  if isDigit (m format) then
    (atou m fuel format 0).map fun (width, format) => (flags, width, format, args)
  else if m format = 42 then
    match vaWord args with
    | none => .error .stuck
    | some (arg, args) =>
      let w := toInt32 arg
      let flags := if w < 0 then { flags with left := true } else flags
      let width := if w < 0 then (-w).toNat else w.toNat
      (advance m format).map fun format => (flags, width, format, args)
  else .ok (flags, 0, format, args)

/-- Evaluate the precision field. -/
def parsePrecision (m : Mem) (fuel format : ℕ) (flags : Flags) (args : List (Arg F)) :
    Except Stop (Flags × ℕ × ℕ × List (Arg F)) :=
  if m format = 46 then do
    let flags := { flags with precision := true }
    let format ← advance m format
    if isDigit (m format) then
      (atou m fuel format 0).map fun (precision, format) => (flags, precision, format, args)
    else if m format = 42 then
      match vaWord args with
      | none => .error .stuck
      | some (arg, args) =>
        let precision := if 0 < toInt32 arg then (toInt32 arg).toNat else 0
        (advance m format).map fun format => (flags, precision, format, args)
    else .ok (flags, 0, format, args)
  else .ok (flags, 0, format, args)

/-- Evaluate the length field. `ptrdiff_t`, `intmax_t` and `size_t` are as long as a `long`. -/
def parseLength (m : Mem) (format : ℕ) (flags : Flags) : Except Stop (Flags × ℕ) :=
  if m format = 108 then do
    let flags := { flags with long := true }
    let format ← advance m format
    if m format = 108 then
      (advance m format).map fun format => ({ flags with longLong := true }, format)
    else .ok (flags, format)
  else if m format = 104 then do
    let flags := { flags with short := true }
    let format ← advance m format
    if m format = 104 then
      (advance m format).map fun format => ({ flags with char := true }, format)
    else .ok (flags, format)
  else if m format = 116 ∨ m format = 106 ∨ m format = 122 then
    (advance m format).map fun format => ({ flags with long := true }, format)
  else .ok (flags, format)

/-- A conversion from its `%` up to its specifier. -/
structure Conversion (F : Type) where
  flags : Flags
  width : ℕ
  precision : ℕ
  format : ℕ
  args : List (Arg F)

/-- `%[flags][width][.precision][length]`. -/
def parseConversion (m : Mem) (fuel format : ℕ) (args : List (Arg F)) :
    Except Stop (Conversion F) := do
  let format ← advance m format
  let (flags, format) ← parseFlags m fuel format {}
  let (flags, width, format, args) ← parseWidth m fuel format flags args
  let (flags, precision, format, args) ← parsePrecision m fuel format flags args
  let (flags, format) ← parseLength m format flags
  return ⟨flags, width, precision, format, args⟩

/-! ## Evaluating a specifier -/

/-- `ABS_FOR_PRINTING`. -/
def absForPrinting (x : ℤ) : ℕ := ((if 0 < x then x else -x) % 2 ^ 64).toNat

def integerBase (c : BitVec 8) : ℕ :=
  if c = 120 ∨ c = 88 then 16 else if c = 111 then 8 else if c = 98 then 2 else 10

/-- The value of a signed specifier. -/
def signedValue (flags : Flags) (arg : BitVec 64) : ℤ :=
  if flags.longLong then arg.toInt
  else if flags.long then arg.toInt
  else if flags.char then (arg.setWidth 8).toInt
  else if flags.short then (arg.setWidth 16).toInt
  else toInt32 arg

/-- The value of an unsigned specifier. -/
def unsignedValue (flags : Flags) (arg : BitVec 64) : ℕ :=
  if flags.longLong then arg.toNat
  else if flags.long then arg.toNat
  else if flags.char then (arg.setWidth 8).toNat
  else if flags.short then (arg.setWidth 16).toNat
  else (arg.setWidth 32).toNat

/-- The flags of an integer specifier. -/
def integerFlags (c : BitVec 8) (flags : Flags) : Flags :=
  let flags := if c = 100 ∨ c = 105 then { flags with signed := true } else flags
  let flags := if integerBase c = 10 then { flags with hash := false } else flags
  let flags := if c = 88 then { flags with uppercase := true } else flags
  -- ignore '0' flag when precision is given
  let flags := if flags.precision then { flags with zeropad := false } else flags
  if flags.signed then flags else { flags with plus := false, space := false }

/-- The specifiers `d`, `i`, `u`, `x`, `X`, `o` and `b`. -/
def printIntegerSpecifier (c : BitVec 8) (flags : Flags) (width precision : ℕ)
    (arg : BitVec 64) (g : Gadget S) : Gadget S :=
  let base := integerBase c
  let flags := integerFlags c flags
  if flags.signed then
    let value := signedValue flags arg
    printInteger (absForPrinting value) (value < 0) base precision width flags g
  else printInteger (unsignedValue flags arg) false base precision width flags g

/-- `strnlen_s`. -/
def strnlenS (m : Mem) : ℕ → ℕ → ℕ
  | _, 0 => 0
  | str, maxsize + 1 => if m str = 0 then 0 else strnlenS m (str + 1) maxsize + 1

/-- The loop of the specifier `s`. It reads the string while it prints. -/
def outputString : ℕ → ℕ → Flags → ℕ → Gadget S → Option (Gadget S)
  | 0, _, _, _, _ => none
  | fuel + 1, p, flags, precision, g =>
    if g.mem p ≠ 0 ∧ (¬ flags.precision ∨ precision ≠ 0) then
      outputString fuel (p + 1) flags (wrap32 (precision + (2 ^ 32 - 1)))
        (putcharViaGadget (g.mem p) g)
    else some g

/-- The specifier `s`. -/
def printStringSpecifier (fuel : ℕ) (flags : Flags) (width precision p : ℕ) (g : Gadget S) :
    Option (Gadget S) :=
  if p = 0 then some (outRev [41, 108, 108, 117, 110, 40] width flags g)
  else
    let l := strnlenS g.mem p (if precision ≠ 0 then precision else maxPossibleBufferSize)
    let l := if flags.precision then min l precision else l
    -- `while (l++ < width)`
    let g := if ¬ flags.left then putSpaces (width - l) g else g
    (outputString fuel p flags precision g).map fun g =>
      if flags.left then putSpaces (width - l) g else g

/-- The specifier `c`. -/
def printCharSpecifier (flags : Flags) (width : ℕ) (arg : BitVec 64) (g : Gadget S) :
    Gadget S :=
  let g := if ¬ flags.left then putSpaces (width - 1) g else g
  let g := putcharViaGadget (arg.setWidth 8) g
  if flags.left then putSpaces (width - 1) g else g

/-- The specifier `p`: two digits a byte, and the mark. -/
def printPointerSpecifier (flags : Flags) (precision : ℕ) (arg : BitVec 64) (g : Gadget S) :
    Gadget S :=
  let width := 18
  let flags := { flags with zeropad := true, pointer := true }
  if arg = 0 then outRev [41, 108, 105, 110, 40] width flags g
  else printInteger arg.toNat false 16 precision width flags g

/-- How many bytes the specifier `n` stores. -/
def countSize (flags : Flags) : ℕ :=
  if flags.char then 1 else if flags.short then 2 else if flags.long then 8
  else if flags.longLong then 8 else 4

/-- The specifier `n`. -/
def storeCount (flags : Flags) (p : ℕ) (g : Gadget S) : Gadget S :=
  { g with mem := store g.mem p g.pos (countSize flags) }

/-- The flags of a floating-point specifier. -/
def floatFlags (c : BitVec 8) (flags : Flags) : Flags :=
  let flags := if c = 103 ∨ c = 71 then { flags with adaptExp := true } else flags
  if c = 70 ∨ c = 69 ∨ c = 71 then { flags with uppercase := true } else flags

/-- What `print_floating_point` prints for a value, precision, width, flags and whether it prefers
the exponential form. -/
abbrev FloatText (F : Type) := F → ℕ → ℕ → Flags → Bool → List (BitVec 8)

/-- Evaluate the specifier `c`. -/
def evalSpecifier (fp : FloatText F) (fuel : ℕ) (c : BitVec 8) (flags : Flags)
    (width precision : ℕ) (args : List (Arg F)) (g : Gadget S) :
    Option (Gadget S × List (Arg F)) :=
  if c = 100 ∨ c = 105 ∨ c = 117 ∨ c = 120 ∨ c = 88 ∨ c = 111 ∨ c = 98 then
    (vaWord args).map fun (arg, args) =>
      (printIntegerSpecifier c flags width precision arg g, args)
  else if c = 102 ∨ c = 70 then
    (vaDouble args).map fun (x, args) =>
      (emit (fp x precision width (floatFlags c flags) false) g, args)
  else if c = 101 ∨ c = 69 ∨ c = 103 ∨ c = 71 then
    (vaDouble args).map fun (x, args) =>
      (emit (fp x precision width (floatFlags c flags) true) g, args)
  else if c = 99 then
    (vaWord args).map fun (arg, args) => (printCharSpecifier flags width arg g, args)
  else if c = 115 then
    (vaWord args).bind fun (arg, args) =>
      (printStringSpecifier fuel flags width precision arg.toNat g).map fun g => (g, args)
  else if c = 112 then
    (vaWord args).map fun (arg, args) => (printPointerSpecifier flags precision arg g, args)
  else if c = 37 then some (putcharViaGadget 37 g, args)
  else if c = 110 then
    (vaWord args).map fun (arg, args) => (storeCount flags arg.toNat g, args)
  else some (putcharViaGadget c g, args)

/-- `format_string_loop` in at most so many rounds, which bound the loops inside as well. -/
def formatStringLoop (fp : FloatText F) : ℕ → ℕ → List (Arg F) → Gadget S → Option (Gadget S)
  | 0, _, _, _ => none
  | fuel + 1, format, args, g =>
    if g.mem format = 0 then some g
    else if g.mem format ≠ 37 then
      formatStringLoop fp fuel (format + 1) args (putcharViaGadget (g.mem format) g)
    else
      match parseConversion g.mem fuel format args with
      | .error .returned => some g
      | .error .stuck => none
      | .ok conv =>
        (evalSpecifier fp fuel (g.mem conv.format) conv.flags conv.width conv.precision conv.args
          g).bind fun (g, args) => formatStringLoop fp fuel (conv.format + 1) args g

/-- `vsnprintf_impl`: the gadget behind the call, and its value as an `int`. -/
def vsnprintfImpl (fp : FloatText F) (fuel format : ℕ) (args : List (Arg F)) (g : Gadget S) :
    Option (Gadget S × ℤ) :=
  (formatStringLoop fp fuel format args g).map fun g =>
    let g := appendTerminationWithGadget g
    (g, (BitVec.ofNat 32 g.pos).toInt)

/-- `vsnprintf(s, count, format, arg)`; `count` is passed on as an `unsigned int`. -/
def vsnprintf (fp : FloatText F) (fuel s count format : ℕ) (args : List (Arg F)) (m : Mem) :
    Option (Mem × ℤ) :=
  (vsnprintfImpl fp fuel format args (bufferGadget s (wrap32 count) m ())).map fun (g, ret) =>
    (g.mem, ret)

/-- `vsprintf(s, format, arg)`. -/
def vsprintf (fp : FloatText F) (fuel s format : ℕ) (args : List (Arg F)) (m : Mem) :
    Option (Mem × ℤ) :=
  vsnprintf fp fuel s maxPossibleBufferSize format args m

/-- `vfctprintf(out, extra_arg, format, arg)`, where `out` acts on a state. `vprintf` calls
`putchar` in this way. -/
def vfctprintf (fp : FloatText F) (fuel : ℕ) (out : BitVec 8 → S → S) (env : S) (format : ℕ)
    (args : List (Arg F)) (m : Mem) : Option (Mem × S × ℤ) :=
  (vsnprintfImpl fp fuel format args (functionGadget out m env)).map fun (g, ret) =>
    (g.mem, g.env, ret)

end IceKernel.Stdio
