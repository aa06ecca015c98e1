import IceKernel.Lib.ByteMemory
import IceKernel.Lib.Word64

/-!
# The output gadgets of `libs/libc/stdio.cpp`

All that the formatter writes goes through a gadget: to a function, or into a
buffer as far as it reaches. The gadget counts what it is given in either case.
-/

namespace IceKernel.Stdio
open ByteMemory Function

/-- An `unsigned int`, as is `printf_size_t`. -/
def wrap32 (n : ℕ) : ℕ := n % 2 ^ 32

/-- `INT_MAX`, the most characters a gadget takes. -/
def maxPossibleBufferSize : ℕ := 2 ^ 31 - 1

/-- `output_gadget_t`, with the memory and the state behind the function it acts on. A null
`buffer` is 0. -/
structure Gadget (S : Type) where
  function : Option (BitVec 8 → S → S)
  buffer : ℕ
  pos : ℕ
  maxChars : ℕ
  mem : Mem
  env : S

variable {S : Type}

/-- `putchar_via_gadget`. -/
def putcharViaGadget (c : BitVec 8) (g : Gadget S) : Gadget S :=
  let writePos := g.pos
  let g := { g with pos := wrap32 (g.pos + 1) }
  if g.maxChars ≤ writePos then g
  else
    match g.function with
    | some f => { g with env := f c g.env }
    | none => { g with mem := update g.mem (g.buffer + writePos) c }

/-- `append_termination_with_gadget`. -/
def appendTerminationWithGadget (g : Gadget S) : Gadget S :=
  if g.function.isSome ∨ g.maxChars = 0 then g
  else if g.buffer = 0 then g
  else
    let nullCharPos := if g.pos < g.maxChars then g.pos else g.maxChars - 1
    { g with mem := update g.mem (g.buffer + nullCharPos) 0 }

/-- `discarding_gadget`. -/
def discardingGadget (m : Mem) (env : S) : Gadget S := ⟨none, 0, 0, 0, m, env⟩

/-- `buffer_gadget`. -/
def bufferGadget (buffer bufferSize : ℕ) (m : Mem) (env : S) : Gadget S :=
  let usableBufferSize :=
    if maxPossibleBufferSize < bufferSize then maxPossibleBufferSize else bufferSize
  let result := discardingGadget m env
  if buffer ≠ 0 then { result with buffer := buffer, maxChars := usableBufferSize } else result

/-- `function_gadget`. -/
def functionGadget (f : BitVec 8 → S → S) (m : Mem) (env : S) : Gadget S :=
  { discardingGadget m env with function := some f, maxChars := maxPossibleBufferSize }

/-- The characters of a text, one after the other. -/
def emit (l : List (BitVec 8)) (g : Gadget S) : Gadget S :=
  l.foldl (fun g c => putcharViaGadget c g) g

section Emit

variable {g : Gadget S} {l r : List (BitVec 8)}

@[simp] theorem emit_nil (g : Gadget S) : emit [] g = g := rfl

theorem emit_cons (c : BitVec 8) (l : List (BitVec 8)) (g : Gadget S) :
    emit (c :: l) g = emit l (putcharViaGadget c g) := rfl

theorem emit_append (l r : List (BitVec 8)) (g : Gadget S) :
    emit (l ++ r) g = emit r (emit l g) := List.foldl_append

theorem emit_singleton (c : BitVec 8) (g : Gadget S) : emit [c] g = putcharViaGadget c g := rfl

/-- A character that is put changes the position, and the memory or the state of the function. -/
theorem putcharViaGadget_fixed (c : BitVec 8) (g : Gadget S) :
    (putcharViaGadget c g).function = g.function ∧ (putcharViaGadget c g).buffer = g.buffer ∧
      (putcharViaGadget c g).maxChars = g.maxChars ∧
      (putcharViaGadget c g).pos = wrap32 (g.pos + 1) := by
  unfold putcharViaGadget
  dsimp only
  split
  · exact ⟨rfl, rfl, rfl, rfl⟩
  · split <;> exact ⟨rfl, rfl, rfl, rfl⟩

theorem emit_fixed (l : List (BitVec 8)) (g : Gadget S) :
    (emit l g).function = g.function ∧ (emit l g).buffer = g.buffer ∧
      (emit l g).maxChars = g.maxChars := by
  induction l generalizing g with
  | nil => exact ⟨rfl, rfl, rfl⟩
  | cons c l ih =>
    obtain ⟨hf, hb, hm, -⟩ := putcharViaGadget_fixed c g
    obtain ⟨hf', hb', hm'⟩ := ih (putcharViaGadget c g)
    exact ⟨hf'.trans hf, hb'.trans hb, hm'.trans hm⟩

theorem emit_pos (hpos : g.pos < 2 ^ 32) :
    (emit l g).pos = wrap32 (g.pos + l.length) := by
  induction l generalizing g with
  | nil => exact (Nat.mod_eq_of_lt hpos).symm
  | cons c l ih =>
    obtain ⟨-, -, -, hnext⟩ := putcharViaGadget_fixed c g
    have hlt : (putcharViaGadget c g).pos < 2 ^ 32 := by
      rw [hnext]
      exact Nat.mod_lt _ (by norm_num)
    rw [emit_cons, ih hlt, hnext, List.length_cons]
    unfold wrap32
    omega

/-! ## A function -/

/-- The function is called for each character up to the limit. -/
theorem emit_function {f : BitVec 8 → S → S} (hf : g.function = some f)
    (hfit : g.pos + l.length < 2 ^ 32) :
    (emit l g).env = (l.take (g.maxChars - g.pos)).foldl (fun e c => f c e) g.env ∧
      (emit l g).mem = g.mem := by
  induction l generalizing g with
  | nil => simp
  | cons c l ih =>
    rw [List.length_cons] at hfit
    obtain ⟨hfun, -, hmax, hpos⟩ := putcharViaGadget_fixed c g
    have hpos' : wrap32 (g.pos + 1) = g.pos + 1 := Nat.mod_eq_of_lt (by omega)
    rw [hpos'] at hpos
    have hrest := ih (hfun.trans hf) (by omega)
    rw [emit_cons, hrest.1, hrest.2, hmax, hpos]
    by_cases hfull : g.maxChars ≤ g.pos
    · have h0 : g.maxChars - g.pos = 0 := by omega
      have h1 : g.maxChars - (g.pos + 1) = 0 := by omega
      rw [h0, h1]
      unfold putcharViaGadget
      simp [hfull]
    · have h1 : g.maxChars - g.pos = g.maxChars - (g.pos + 1) + 1 := by omega
      rw [h1, List.take_succ_cons, List.foldl_cons]
      unfold putcharViaGadget
      simp [hfull, hf]

/-! ## A buffer -/

/-- The bytes that the gadget may store to. -/
def Gadget.Stores (g : Gadget S) (x : ℕ) : Prop :=
  g.function = none ∧ g.buffer ≤ x ∧ x < g.buffer + g.maxChars

theorem putcharViaGadget_outside (c : BitVec 8) {x : ℕ} (hx : ¬ g.Stores x) :
    (putcharViaGadget c g).mem x = g.mem x := by
  unfold putcharViaGadget
  dsimp only
  split
  · rfl
  next hroom =>
    split
    · rfl
    next hf =>
      have hne : x ≠ g.buffer + g.pos := by
        rintro rfl
        exact hx ⟨hf, Nat.le_add_right _ _, by omega⟩
      exact update_of_ne hne c g.mem

/-- What a byte is after the characters depends on what it was, and on no other byte. -/
theorem emit_mem_congr {g' : Gadget S} {x : ℕ} (hf : g'.function = g.function)
    (hb : g'.buffer = g.buffer) (hm : g'.maxChars = g.maxChars) (hpos : g'.pos = g.pos)
    (hx : g'.mem x = g.mem x) : (emit l g').mem x = (emit l g).mem x := by
  induction l generalizing g g' with
  | nil => exact hx
  | cons c l ih =>
    obtain ⟨hf₁, hb₁, hm₁, hp₁⟩ := putcharViaGadget_fixed c g
    obtain ⟨hf₂, hb₂, hm₂, hp₂⟩ := putcharViaGadget_fixed c g'
    refine ih (by rw [hf₁, hf₂, hf]) (by rw [hb₁, hb₂, hb]) (by rw [hm₁, hm₂, hm])
      (by rw [hp₁, hp₂, hpos]) ?_
    unfold putcharViaGadget
    dsimp only
    rw [hf, hb, hm, hpos]
    split
    · exact hx
    · cases g.function with
      | some f => exact hx
      | none =>
        dsimp only
        rw [update_apply, update_apply, hx]

theorem Gadget.Stores.iff_of_emit (l : List (BitVec 8)) (g : Gadget S) (x : ℕ) :
    (emit l g).Stores x ↔ g.Stores x := by
  obtain ⟨hf, hb, hm⟩ := emit_fixed l g
  unfold Gadget.Stores
  rw [hf, hb, hm]

theorem emit_outside {x : ℕ} (hx : ¬ g.Stores x) : (emit l g).mem x = g.mem x := by
  induction l generalizing g with
  | nil => rfl
  | cons c l ih =>
    have hx' : ¬ (putcharViaGadget c g).Stores x := by
      rwa [← emit_singleton, Gadget.Stores.iff_of_emit]
    rw [emit_cons, ih hx', putcharViaGadget_outside c hx]

/-- One character is stored at the position, where the buffer reaches it. -/
theorem putcharViaGadget_mem (hf : g.function = none) (c : BitVec 8) :
    (putcharViaGadget c g).mem =
      if g.maxChars ≤ g.pos then g.mem else update g.mem (g.buffer + g.pos) c := by
  unfold putcharViaGadget
  dsimp only
  split <;> simp [hf]

/-- Nothing is stored before the position. -/
theorem emit_before (hf : g.function = none) (hfit : g.pos + l.length < 2 ^ 32) {x : ℕ}
    (hx : x < g.buffer + g.pos) : (emit l g).mem x = g.mem x := by
  induction l generalizing g with
  | nil => rfl
  | cons c l ih =>
    rw [List.length_cons] at hfit
    obtain ⟨hfun, hbuf, -, hpos⟩ := putcharViaGadget_fixed c g
    have hpos' : wrap32 (g.pos + 1) = g.pos + 1 := Nat.mod_eq_of_lt (by omega)
    rw [hpos'] at hpos
    have hne : x ≠ g.buffer + g.pos := by omega
    rw [emit_cons, ih (hfun.trans hf) (by omega) (by omega), putcharViaGadget_mem hf]
    split
    · rfl
    · exact update_of_ne hne c g.mem

/-- A buffer gets the characters up to the limit, and keeps its other bytes. -/
theorem emit_buffer (hf : g.function = none) (hfit : g.pos + l.length < 2 ^ 32) (i : ℕ) :
    (emit l g).mem (g.buffer + (g.pos + i)) =
      if h : i < l.length ∧ g.pos + i < g.maxChars then l[i] else
        g.mem (g.buffer + (g.pos + i)) := by
  induction l generalizing g i with
  | nil => simp
  | cons c l ih =>
    rw [List.length_cons] at hfit
    obtain ⟨hfun, hbuf, hmax, hpos⟩ := putcharViaGadget_fixed c g
    have hpos' : wrap32 (g.pos + 1) = g.pos + 1 := Nat.mod_eq_of_lt (by omega)
    rw [hpos'] at hpos
    rw [emit_cons]
    cases i with
    | zero =>
      rw [emit_before (hfun.trans hf) (by omega) (by omega), putcharViaGadget_mem hf]
      by_cases hfull : g.maxChars ≤ g.pos
      · simp [hfull]
      · simp [hfull, Nat.lt_of_not_le hfull]
    | succ i =>
      have hat : g.buffer + (g.pos + (i + 1)) =
          (putcharViaGadget c g).buffer + ((putcharViaGadget c g).pos + i) := by omega
      have hold : (putcharViaGadget c g).mem (g.buffer + (g.pos + (i + 1))) =
          g.mem (g.buffer + (g.pos + (i + 1))) := by
        have hne : g.buffer + (g.pos + (i + 1)) ≠ g.buffer + g.pos := by omega
        rw [putcharViaGadget_mem hf]
        split
        · rfl
        · exact update_of_ne hne c g.mem
      have hroom : (putcharViaGadget c g).pos + i < (putcharViaGadget c g).maxChars ↔
          g.pos + (i + 1) < g.maxChars := by omega
      rw [hat, ih (hfun.trans hf) (by omega), ← hat, hold]
      by_cases hin : i < l.length ∧ g.pos + (i + 1) < g.maxChars
      · rw [dif_pos ⟨hin.1, hroom.mpr hin.2⟩,
          dif_pos ⟨by rw [List.length_cons]; omega, hin.2⟩, List.getElem_cons_succ]
      · rw [dif_neg (fun h => hin ⟨h.1, hroom.mp h.2⟩),
          dif_neg (fun h => hin ⟨by rw [List.length_cons] at h; omega, h.2⟩)]

end Emit

end IceKernel.Stdio
