import IceKernel.Memory.PhysicalAccounting
import IceKernel.Memory.PhysicalBounds
import IceKernel.Sys.Logger

/-!
# The end of `_start` in `kernel.cpp`

When all parts are initialised, the kernel logs the amounts of its page allocator, each of them
with a format for an `int`.
-/

namespace IceKernel
open ByteMemory Stdio Digits

/-- `physical::total()`. -/
def Physical.State.total (s : Physical.State) : ℕ := s.totalMemory

/-- `physical::usable()`. -/
def Physical.State.usable (s : Physical.State) : ℕ := s.usableMemory

namespace Console

variable {T F : Type} (con : Console T) (fp : FloatText F) (strings : LogStrings)

/-- The addresses of the formats of the last four messages. -/
structure ReportStrings where
  total : ℕ
  usable : ℕ
  used : ℕ
  free : ℕ

/-- `"Total "`, `"Usable "`, `"Used "` and `"Free "` stand before `"Memory: "`. -/
def memoryLabel (name : List (BitVec 8)) : List (BitVec 8) :=
  name ++ [32, 77, 101, 109, 111, 114, 121, 58, 32]

def totalLabel : List (BitVec 8) := memoryLabel [84, 111, 116, 97, 108]
def usableLabel : List (BitVec 8) := memoryLabel [85, 115, 97, 98, 108, 101]
def usedLabel : List (BitVec 8) := memoryLabel [85, 115, 101, 100]
def freeLabel : List (BitVec 8) := memoryLabel [70, 114, 101, 101]

/-- The formats in memory: a label and `"%i"`. -/
structure ReportStrings.At (m : Mem) (R : Set ℕ) (formats : ReportStrings) : Prop where
  total : Format.At m R formats.total (totalLabel ++ [37, 105])
  usable : Format.At m R formats.usable (usableLabel ++ [37, 105])
  used : Format.At m R formats.used (usedLabel ++ [37, 105])
  free : Format.At m R formats.free (freeLabel ++ [37, 105])

end Console

/-! ## The amounts -/

namespace Physical
open Word64

variable {off : ℕ} {entries : List MemmapEntry}

end Physical

/-! ## The report -/

namespace Console

section Report

variable {T F : Type} {con : Console T} {fp : FloatText F} {strings : LogStrings}
  {formats : ReportStrings} {m : Mem} {R : Set ℕ} {str : ℕ → List (BitVec 8)}

variable [DecidableEq T] {t : T}

end Report

end Console

end IceKernel
