import IceKernel.Lib.ByteMemory

/-!
# `idt/idt.cpp`: the descriptor table

The table is written through a packed structure and read by the CPU, in
slots of 16 bytes.
-/

namespace IceKernel.Idt
open ByteMemory

/-- `sizeof(idt_entry_t)`: `offset_low`, `selector`, `ist`, `type_attributes`, `offset_middle`,
`offset_high` and `zero`, without padding. -/
def entrySize : ℕ := 2 + 2 + 1 + 1 + 1 + 4 + 4

/-- `idt_set_descriptor`. The array is at `idt`; each store keeps the bytes its field has. -/
def idtSetDescriptor (idt vector : ℕ) (isr : BitVec 64) (typeAttributes ist : BitVec 8) (m : Mem) :
    Mem :=
  let entry := idt + entrySize * vector
  let m := store m entry isr.toNat 2
  let m := store m (entry + 2) 0x08 2
  let m := store m (entry + 4) ist.toNat 1
  let m := store m (entry + 5) typeAttributes.toNat 1
  let m := store m (entry + 6) (isr.toNat >>> 16) 1
  let m := store m (entry + 7) (isr.toNat >>> 32) 4
  store m (entry + 11) 0 4

/-- The loop of `idt::init`, after its first `n` rounds, with the default arguments of
`idt_set_descriptor`. -/
def initLoop (idt : ℕ) (interruptTable : ℕ → BitVec 64) (m : Mem) : ℕ → Mem
  | 0 => m
  | n + 1 => idtSetDescriptor idt n (interruptTable n) 0x8E 0 (initLoop idt interruptTable m n)

/-- `idt_descriptor.limit`, a `uint16_t`. -/
def limit : ℕ := (entrySize * 256 - 1) % 2 ^ 16

/-! ## The CPU's view -/

/-- An interrupt gate of long mode. -/
structure Gate where
  offset : ℕ
  selector : ℕ
  ist : ℕ
  typeAttributes : ℕ
  deriving DecidableEq, Repr

/-- The gate in the 16 bytes at `a`, the last four of which are reserved. -/
def gateAt (m : Mem) (a : ℕ) : Gate where
  offset := load m a 2 + 2 ^ 16 * load m (a + 6) 2 + 2 ^ 32 * load m (a + 8) 4
  selector := load m (a + 2) 2
  ist := load m (a + 4) 1
  typeAttributes := load m (a + 5) 1

/-- The CPU finds every handler, inside the limit. -/
structure Installed (idt : ℕ) (interruptTable : ℕ → BitVec 64) (m : Mem) : Prop where
  decodes : ∀ v < 256, gateAt m (idt + 16 * v) = ⟨(interruptTable v).toNat, 0x08, 0, 0x8E⟩
  within : ∀ v < 256, 16 * v + 15 ≤ limit

/-! ## The bytes of the table -/

variable {idt vector : ℕ} {isr : BitVec 64} {typeAttributes ist : BitVec 8} {m : Mem}
  {interruptTable : ℕ → BitVec 64}

theorem idtSetDescriptor_sameOutside : SameOutside m
    (idtSetDescriptor idt vector isr typeAttributes ist m) (idt + entrySize * vector) entrySize := by
  have h15 : entrySize = 15 := rfl
  unfold idtSetDescriptor
  rw [h15]
  intro x hx
  dsimp only
  rw [store_sameOutside _ _ _ _ x (by omega), store_sameOutside _ _ _ _ x (by omega),
    store_sameOutside _ _ _ _ x (by omega), store_sameOutside _ _ _ _ x (by omega),
    store_sameOutside _ _ _ _ x (by omega), store_sameOutside _ _ _ _ x (by omega),
    store_sameOutside _ _ _ _ x (by omega)]

/-- The high byte of `selector`, and `ist`. -/
theorem idtSetDescriptor_selector_ist (idt vector : ℕ) (isr : BitVec 64)
    (typeAttributes ist : BitVec 8) (m : Mem) :
    idtSetDescriptor idt vector isr typeAttributes ist m (idt + entrySize * vector + 3) = 0#8 ∧
      idtSetDescriptor idt vector isr typeAttributes ist m (idt + entrySize * vector + 4) = ist := by
  set entry := idt + entrySize * vector with hentry
  have hsel : entry + 3 = entry + 2 + 1 := rfl
  have hist : entry + 4 = entry + 4 + 0 := rfl
  unfold idtSetDescriptor
  rw [← hentry]
  constructor
  · rw [store_sameOutside _ _ _ _ _ (by omega), store_sameOutside _ _ _ _ _ (by omega),
      store_sameOutside _ _ _ _ _ (by omega), store_sameOutside _ _ _ _ _ (by omega),
      store_sameOutside _ _ _ _ _ (by omega), hsel, store_apply _ _ _ (by norm_num)]
    rfl
  · rw [store_sameOutside _ _ _ _ _ (by omega), store_sameOutside _ _ _ _ _ (by omega),
      store_sameOutside _ _ _ _ _ (by omega), store_sameOutside _ _ _ _ _ (by omega), hist,
      store_apply _ _ _ (by norm_num)]
    simp

/-- Later rounds leave an entry alone. -/
theorem initLoop_entry (idt : ℕ) (interruptTable : ℕ → BitVec 64) (m : Mem) {n v i : ℕ}
    (hv : v < n) (hi : i < entrySize) :
    initLoop idt interruptTable m n (idt + entrySize * v + i) =
      initLoop idt interruptTable m (v + 1) (idt + entrySize * v + i) := by
  induction n with
  | zero => exact absurd hv (Nat.not_lt_zero v)
  | succ n ih =>
    by_cases heq : v = n
    · rw [heq]
    · have hlt : v < n := by omega
      have hstep : entrySize * v + entrySize ≤ entrySize * n := by
        rw [← Nat.mul_succ]
        exact Nat.mul_le_mul_left _ hlt
      rw [initLoop, idtSetDescriptor_sameOutside _ (Or.inl (by omega)), ih hlt]

/-- The CPU reads the high byte of `selector` and `ist` of entry 1 as the selector of vector 1. -/
theorem selector_of_one :
    (gateAt (initLoop idt interruptTable m 256) (idt + 16 * 1)).selector = 0 := by
  have h15 : entrySize = 15 := rfl
  obtain ⟨h3, h4⟩ := idtSetDescriptor_selector_ist idt 1 (interruptTable 1) 0x8E 0
    (initLoop idt interruptTable m 1)
  have hfirst : initLoop idt interruptTable m 256 (idt + 16 * 1 + 2) = 0#8 := by
    have hentry := initLoop_entry idt interruptTable m (n := 256) (v := 1) (i := 3) (by norm_num)
      (by decide)
    rw [show idt + 16 * 1 + 2 = idt + entrySize * 1 + 3 by rw [h15], hentry]
    exact h3
  have hsecond : initLoop idt interruptTable m 256 (idt + 16 * 1 + 2 + 1) = 0#8 := by
    have hentry := initLoop_entry idt interruptTable m (n := 256) (v := 1) (i := 4) (by norm_num)
      (by decide)
    rw [show idt + 16 * 1 + 2 + 1 = idt + entrySize * 1 + 4 by rw [h15], hentry]
    exact h4
  simp only [gateAt, load, hfirst, hsecond]
  rfl

/-- Whatever the handlers are, the table is not the one meant for the CPU: vector 1 has no code
segment, and the last slot lies beyond the limit. -/
theorem idt_never_installed (idt : ℕ) (interruptTable : ℕ → BitVec 64) (m : Mem) :
    ¬ Installed idt interruptTable (initLoop idt interruptTable m 256) ∧
      (gateAt (initLoop idt interruptTable m 256) (idt + 16 * 1)).selector ≠ 0x08 ∧
      limit < 16 * 255 + 15 := by
  have hsel : (gateAt (initLoop idt interruptTable m 256) (idt + 16 * 1)).selector ≠ 0x08 := by
    rw [selector_of_one]
    norm_num
  refine ⟨fun h => hsel ?_, hsel, by decide⟩
  rw [h.decodes 1 (by norm_num)]

/-- Handlers in the higher half, 64 bytes each. -/
def handlerTable (v : ℕ) : BitVec 64 := BitVec.ofNat 64 (0xffffffff80100000 + 64 * v)

theorem higher_half_handlers_lost :
    (gateAt (initLoop 0 handlerTable (fun _ => 0#8) 256) 0).offset = 0x00ffffffff100000 ∧
      ¬ Installed 0 handlerTable (initLoop 0 handlerTable (fun _ => 0#8) 256) := by
  have hoffset : (gateAt (initLoop 0 handlerTable (fun _ => 0#8) 256) 0).offset =
      0x00ffffffff100000 := by
    decide +kernel
  refine ⟨hoffset, fun h => ?_⟩
  have hgate := congrArg Gate.offset (h.decodes 0 (by norm_num))
  rw [Nat.mul_zero, Nat.add_zero, hoffset] at hgate
  exact absurd hgate (by decide)

end IceKernel.Idt
