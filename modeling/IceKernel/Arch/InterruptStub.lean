import IceKernel.Lib.Stack64
import IceKernel.Lib.Word64
import Mathlib.Logic.Function.Basic
import Mathlib.Logic.Relation

/-!
# `idt/idt.asm`: interrupt entry and exit

The stubs run instruction by instruction, from the frame the CPU pushes to
`interrupt_handler` and back.
-/

namespace IceKernel.InterruptStub
open Stack64 Relation

inductive Reg where
  | rax | rbx | rcx | rdx | rsi | rdi | rbp | r8 | r9 | r10 | r11 | r12 | r13 | r14 | r15
  deriving DecidableEq, Repr

inductive Label where
  | intCommonStub | next0 | next1
  deriving DecidableEq, Repr

/-- The instructions of the file. `test` is the one on a quadword `[rsp + disp]`. -/
inductive Instr where
  | push (r : Reg)
  | pushImm (v : ℕ)
  | pop (r : Reg)
  | test (disp mask : BitVec 64)
  | jz (l : Label)
  | jmp (l : Label)
  | label (l : Label)
  | swapgs
  | movRsp (r : Reg)
  | addRsp (v : BitVec 64)
  | callInterruptHandler
  | iretq
  deriving DecidableEq, Repr

def pusha64 : List Instr :=
  [.push .rax, .push .rbx, .push .rcx, .push .rdx, .push .rsi, .push .rdi, .push .rbp, .push .r8,
    .push .r9, .push .r10, .push .r11, .push .r12, .push .r13, .push .r14, .push .r15]

def popa64 : List Instr :=
  [.pop .r15, .pop .r14, .pop .r13, .pop .r12, .pop .r11, .pop .r10, .pop .r9, .pop .r8, .pop .rbp,
    .pop .rdi, .pop .rsi, .pop .rdx, .pop .rcx, .pop .rbx, .pop .rax]

def intCommonStub : List Instr :=
  [.label .intCommonStub, .test 24 0x03, .jz .next0, .swapgs, .label .next0] ++ pusha64 ++
    [.movRsp .rdi, .callInterruptHandler] ++ popa64 ++
    [.addRsp 16, .test 8 0x03, .jz .next1, .swapgs, .label .next1, .iretq]

/-- The code from a label on. -/
def target (l : Label) : List Instr := intCommonStub.dropWhile (· ≠ .label l)

/-- The macro `isr`. -/
def isr (n : ℕ) : List Instr :=
  (if !(n == 8 || (n ≥ 10 && n ≤ 14) || n == 17 || n == 21 || n == 29 || n == 30) then
    [.pushImm 0] else []) ++ [.pushImm n, .jmp .intCommonStub]

/-- The table of the 256 entry points. -/
def interruptTable (i : Fin 256) : List Instr := isr i

/-- `code` is what is still to run, and `swaps` counts the `swapgs`. -/
structure Machine where
  regs : Reg → BitVec 64
  rsp : BitVec 64
  mem : Mem
  zf : Bool
  swaps : ℕ
  code : List Instr

def Machine.pushWord (s : Machine) (w : BitVec 64) : Machine :=
  { s with rsp := s.rsp - 8, mem := store64 s.mem (s.rsp - 8) w }

/-- One instruction. At the call the handler takes over, and at `iretq` the interrupted program. -/
def step (s : Machine) : Option Machine :=
  match s.code with
  | [] => none
  | .push r :: code => some { s.pushWord (s.regs r) with code }
  | .pushImm v :: code => some { s.pushWord (BitVec.ofNat 64 v) with code }
  | .pop r :: code =>
    some { s with regs := Function.update s.regs r (load64 s.mem s.rsp), rsp := s.rsp + 8, code }
  | .test disp mask :: code => some { s with zf := load64 s.mem (s.rsp + disp) &&& mask == 0, code }
  | .jz l :: code => some { s with code := if s.zf then target l else code }
  | .jmp l :: _ => some { s with code := target l }
  | .label _ :: code => some { s with code }
  | .swapgs :: code => some { s with swaps := s.swaps + 1, code }
  | .movRsp r :: code => some { s with regs := Function.update s.regs r s.rsp, code }
  | .addRsp v :: code => some { s with rsp := s.rsp + v, zf := s.rsp + v == 0, code }
  | .callInterruptHandler :: _ => none
  | .iretq :: _ => none

def Step (s t : Machine) : Prop := step s = some t

/-! ## The two sides of the stubs -/

/-- `cpu_interrupt_state_t`. -/
structure CpuInterruptState where
  r15 : BitVec 64
  r14 : BitVec 64
  r13 : BitVec 64
  r12 : BitVec 64
  r11 : BitVec 64
  r10 : BitVec 64
  r9 : BitVec 64
  r8 : BitVec 64
  rbp : BitVec 64
  rdi : BitVec 64
  rsi : BitVec 64
  rdx : BitVec 64
  rcx : BitVec 64
  rbx : BitVec 64
  rax : BitVec 64
  intNo : BitVec 64
  errorCode : BitVec 64
  rip : BitVec 64
  cs : BitVec 64
  rflags : BitVec 64
  rsp : BitVec 64
  ss : BitVec 64
  deriving DecidableEq, Repr

/-- The packed structure at an address, field after field. -/
def CpuInterruptState.read (m : Mem) (p : BitVec 64) : CpuInterruptState where
  r15 := load64 m p
  r14 := load64 m (p + 8)
  r13 := load64 m (p + 16)
  r12 := load64 m (p + 24)
  r11 := load64 m (p + 32)
  r10 := load64 m (p + 40)
  r9 := load64 m (p + 48)
  r8 := load64 m (p + 56)
  rbp := load64 m (p + 64)
  rdi := load64 m (p + 72)
  rsi := load64 m (p + 80)
  rdx := load64 m (p + 88)
  rcx := load64 m (p + 96)
  rbx := load64 m (p + 104)
  rax := load64 m (p + 112)
  intNo := load64 m (p + 120)
  errorCode := load64 m (p + 128)
  rip := load64 m (p + 136)
  cs := load64 m (p + 144)
  rflags := load64 m (p + 152)
  rsp := load64 m (p + 160)
  ss := load64 m (p + 168)

/-- The interrupted program. -/
structure Context where
  regs : Reg → BitVec 64
  rip : BitVec 64
  cs : BitVec 64
  rflags : BitVec 64
  rsp : BitVec 64
  ss : BitVec 64

/-- What the handler is to see of it. -/
def Context.state (c : Context) (intNo errorCode : BitVec 64) : CpuInterruptState :=
  { r15 := c.regs .r15, r14 := c.regs .r14, r13 := c.regs .r13, r12 := c.regs .r12,
    r11 := c.regs .r11, r10 := c.regs .r10, r9 := c.regs .r9, r8 := c.regs .r8,
    rbp := c.regs .rbp, rdi := c.regs .rdi, rsi := c.regs .rsi, rdx := c.regs .rdx,
    rcx := c.regs .rcx, rbx := c.regs .rbx, rax := c.regs .rax, intNo, errorCode,
    rip := c.rip, cs := c.cs, rflags := c.rflags, rsp := c.rsp, ss := c.ss }

/-- The vectors whose exception has an error code. -/
def hasErrorCode (vector : ℕ) : Bool := vector ∈ [8, 10, 11, 12, 13, 14, 17, 21, 29, 30]

/-- The CPU's quadwords from `rip` up. -/
def Context.frame (c : Context) : List (BitVec 64) := [c.rip, c.cs, c.rflags, c.rsp, c.ss]

/-- Where the frame is, on a stack that the CPU has aligned. -/
def ripSlot (top : BitVec 64) : BitVec 64 := (top &&& ~~~15) - 40

/-- An interrupt is delivered on the stack `top`: the CPU aligns it, pushes its frame and enters
the stub. -/
def deliver (c : Context) (m : Mem) (top errorCode : BitVec 64) (vector : Fin 256) : Machine :=
  let s : Machine :=
    { regs := c.regs, rsp := top &&& ~~~15, mem := m, zf := c.rflags.getLsbD 6, swaps := 0,
      code := interruptTable vector }
  let s := ((((s.pushWord c.ss).pushWord c.rsp).pushWord c.rflags).pushWord c.cs).pushWord c.rip
  if hasErrorCode vector then s.pushWord errorCode else s

/-- The handler, called in `s`, comes back in `t`. Registers, flags and the rest of the memory are
its own. -/
structure Returns (s t : Machine) : Prop where
  code : s.code = .callInterruptHandler :: t.code
  rsp : t.rsp = s.rsp
  frame : ∀ i < 176, t.mem (s.rsp + BitVec.ofNat 64 i) = s.mem (s.rsp + BitVec.ofNat 64 i)
  swaps : t.swaps = s.swaps

/-! ## Runs of the stub -/

@[simp] theorem pushWord_rsp (s : Machine) (w : BitVec 64) : (s.pushWord w).rsp = s.rsp - 8 := rfl

@[simp] theorem pushWord_regs (s : Machine) (w : BitVec 64) : (s.pushWord w).regs = s.regs := rfl

@[simp] theorem pushWord_swaps (s : Machine) (w : BitVec 64) : (s.pushWord w).swaps = s.swaps := rfl

/-- The stack of a machine. -/
def Machine.Stack (s : Machine) (ws : List (BitVec 64)) : Prop := HoldsStack s.mem s.rsp ws

theorem Machine.Stack.pushWord {s : Machine} {ws : List (BitVec 64)} (h : s.Stack ws)
    (hlen : ws.length < 64) (w : BitVec 64) : (s.pushWord w).Stack (w :: ws) :=
  HoldsStack.push h (by omega) w

/-- Pushing registers puts them on the stack, the last one on top. -/
theorem reaches_push (rs : List Reg) (code : List Instr) {s : Machine} {ws : List (BitVec 64)}
    (hcode : s.code = rs.map .push ++ code) (hs : s.Stack ws)
    (hlen : ws.length + rs.length ≤ 64) :
    ∃ t, ReflTransGen Step s t ∧ t.code = code ∧ t.regs = s.regs ∧ t.swaps = s.swaps ∧
      t.rsp = s.rsp - BitVec.ofNat 64 (8 * rs.length) ∧
      t.Stack ((rs.map s.regs).reverse ++ ws) := by
  induction rs generalizing s ws with
  | nil => exact ⟨s, .refl, hcode, rfl, rfl, by simp, hs⟩
  | cons r rs ih =>
    rw [List.length_cons] at hlen
    have hfirst : Step s { s.pushWord (s.regs r) with code := rs.map .push ++ code } := by
      simp [Step, step, hcode]
    obtain ⟨t, ht, htcode, hregs, hswaps, hrsp, hst⟩ := ih (s := { s.pushWord (s.regs r) with
      code := rs.map .push ++ code }) rfl (hs.pushWord (by omega) (s.regs r))
      (by rw [List.length_cons]; omega)
    refine ⟨t, .head hfirst ht, htcode, hregs, hswaps, ?_, by simpa using hst⟩
    rw [hrsp, pushWord_rsp, List.length_cons]
    bv_omega

/-- Popping into distinct registers. -/
theorem reaches_pop (rs : List Reg) {s : Machine} {code : List Instr} {vs ws : List (BitVec 64)}
    (hcode : s.code = rs.map .pop ++ code) (hs : s.Stack (vs ++ ws)) (hlen : vs.length = rs.length)
    (hnodup : rs.Nodup) :
    ∃ t, ReflTransGen Step s t ∧ t.code = code ∧ t.swaps = s.swaps ∧ t.mem = s.mem ∧
      t.rsp = s.rsp + BitVec.ofNat 64 (8 * rs.length) ∧ t.Stack ws ∧ rs.map t.regs = vs ∧
      ∀ r ∉ rs, t.regs r = s.regs r := by
  induction rs generalizing s vs with
  | nil =>
    obtain rfl := List.length_eq_zero_iff.mp hlen
    exact ⟨s, .refl, hcode, rfl, rfl, by simp, hs, rfl, fun _ _ => rfl⟩
  | cons r rs ih =>
    rw [List.length_cons] at hlen
    obtain ⟨v, vs, rfl⟩ := List.exists_cons_of_length_eq_add_one hlen
    obtain ⟨hr, hnodup⟩ := List.nodup_cons.mp hnodup
    let s' : Machine := { s with
      regs := Function.update s.regs r (load64 s.mem s.rsp), rsp := s.rsp + 8,
      code := rs.map .pop ++ code }
    have hfirst : Step s s' := by simp [Step, step, hcode, s']
    obtain ⟨t, ht, htcode, hswaps, hmem, hrsp, hst, hmap, hother⟩ :=
      ih (s := s') rfl hs.2 (by simpa using hlen) hnodup
    refine ⟨t, .head hfirst ht, htcode, hswaps, hmem, ?_, hst, ?_, fun q hq => ?_⟩
    · rw [hrsp, List.length_cons]
      simp only [s']
      bv_omega
    · have htop : load64 s.mem s.rsp = v := hs.1
      rw [List.map_cons, hmap, hother r hr]
      simp [s', htop]
    · rw [List.mem_cons, not_or] at hq
      obtain ⟨hqr, hq⟩ := hq
      rw [hother q hq]
      exact Function.update_of_ne hqr _ _

/-- `test`, `jz` over a `swapgs`, and the label: one `swapgs` unless the privilege level is 0. -/
theorem reaches_swapgs (disp : BitVec 64) {s : Machine} {l : Label} {code : List Instr}
    (hcode : s.code = .test disp 0x03 :: .jz l :: .swapgs :: .label l :: code)
    (hl : target l = .label l :: code) :
    ∃ t, ReflTransGen Step s t ∧ t.code = code ∧ t.regs = s.regs ∧ t.mem = s.mem ∧
      t.rsp = s.rsp ∧
      t.swaps = s.swaps + if load64 s.mem (s.rsp + disp) &&& 3 = 0 then 0 else 1 := by
  by_cases hcs : load64 s.mem (s.rsp + disp) &&& 3 = 0
  · refine ⟨{ s with zf := true, code }, ?_, rfl, rfl, rfl, rfl, by rw [if_pos hcs]; rfl⟩
    have h1 : Step s { s with zf := true, code := .jz l :: .swapgs :: .label l :: code } := by
      simpa [Step, step, hcode] using hcs
    have h2 : Step { s with zf := true, code := .jz l :: .swapgs :: .label l :: code }
        { s with zf := true, code := .label l :: code } := by
      simp [Step, step, hl]
    exact .head h1 (.head h2 (.single rfl))
  · refine ⟨{ s with zf := false, swaps := s.swaps + 1, code }, ?_, rfl, rfl, rfl, rfl,
      by rw [if_neg hcs]⟩
    have h1 : Step s { s with zf := false, code := .jz l :: .swapgs :: .label l :: code } := by
      simpa [Step, step, hcode] using hcs
    have h2 : Step { s with zf := false, code := .jz l :: .swapgs :: .label l :: code }
        { s with zf := false, code := .swapgs :: .label l :: code } := rfl
    have h3 : Step { s with zf := false, code := .swapgs :: .label l :: code }
        { s with zf := false, swaps := s.swaps + 1, code := .label l :: code } := rfl
    exact .head h1 (.head h2 (.head h3 (.single rfl)))

/-- The stubs leave the error code to the CPU exactly where it pushes one. -/
theorem isr_eq (n : ℕ) :
    isr n = (if hasErrorCode n then [] else [.pushImm 0]) ++ [.pushImm n, .jmp .intCommonStub] := by
  have hcond : (!(n == 8 || (n ≥ 10 && n ≤ 14) || n == 17 || n == 21 || n == 29 || n == 30)) =
      !hasErrorCode n := by
    congr 1
    rw [Bool.eq_iff_iff]
    simp only [hasErrorCode, Bool.or_eq_true, Bool.and_eq_true, beq_iff_eq, decide_eq_true_eq,
      List.mem_cons, List.not_mem_nil, or_false]
    omega
  rw [isr, hcond]
  cases hasErrorCode n <;> rfl

theorem Context.length_frame (c : Context) : c.frame.length = 5 := rfl

/-- With or without an error code of its own, an interrupt builds the same stack. -/
theorem reaches_pushImm (c : Context) (m : Mem) (top errorCode : BitVec 64) (vector : Fin 256) :
    ∃ s, ReflTransGen Step (deliver c m top errorCode vector) s ∧
      s.code = [.pushImm vector, .jmp .intCommonStub] ∧ s.regs = c.regs ∧ s.swaps = 0 ∧
      s.rsp = ripSlot top - 8 ∧
      s.Stack ((if hasErrorCode vector then errorCode else 0) :: c.frame) := by
  let s₀ : Machine :=
    { regs := c.regs, rsp := top &&& ~~~15, mem := m, zf := c.rflags.getLsbD 6, swaps := 0,
      code := interruptTable vector }
  let s₁ := ((((s₀.pushWord c.ss).pushWord c.rsp).pushWord c.rflags).pushWord c.cs).pushWord c.rip
  have hnil : s₀.Stack [] := trivial
  have hframe : s₁.Stack c.frame :=
    ((((hnil.pushWord (by simp) c.ss).pushWord (by simp) c.rsp).pushWord (by simp)
      c.rflags).pushWord (by simp) c.cs).pushWord (by simp) c.rip
  have hrsp : s₁.rsp = ripSlot top := by
    simp only [s₁, s₀, pushWord_rsp, ripSlot]
    bv_omega
  have hcode : s₁.code = isr vector := rfl
  rw [isr_eq] at hcode
  cases hcpu : hasErrorCode vector with
  | true =>
    rw [hcpu] at hcode
    have hdeliver : deliver c m top errorCode vector = s₁.pushWord errorCode := by
      rw [deliver, hcpu]
      rfl
    rw [hdeliver]
    exact ⟨_, .refl, hcode, rfl, rfl, by rw [pushWord_rsp, hrsp],
      hframe.pushWord (by simp [Context.length_frame]) errorCode⟩
  | false =>
    rw [hcpu] at hcode
    have hdeliver : deliver c m top errorCode vector = s₁ := by
      rw [deliver, hcpu]
      rfl
    have hzero : Step s₁ { s₁.pushWord 0 with code := [.pushImm vector, .jmp .intCommonStub] } := by
      simp [Step, step, hcode]
    rw [hdeliver]
    exact ⟨_, .single hzero, rfl, rfl, rfl, by rw [← hrsp]; rfl,
      hframe.pushWord (by simp [Context.length_frame]) 0⟩

theorem reaches_intCommonStub (c : Context) (m : Mem) (top errorCode : BitVec 64)
    (vector : Fin 256) :
    ∃ s, ReflTransGen Step (deliver c m top errorCode vector) s ∧
      s.code = target .intCommonStub ∧ s.regs = c.regs ∧ s.swaps = 0 ∧
      s.rsp = ripSlot top - 16 ∧
      s.Stack (BitVec.ofNat 64 vector :: (if hasErrorCode vector then errorCode else 0) ::
        c.frame) := by
  obtain ⟨s₁, h1, hcode, hregs, hswaps, hrsp, hs⟩ := reaches_pushImm c m top errorCode vector
  let s₂ : Machine :=
    { s₁.pushWord (BitVec.ofNat 64 vector) with code := [.jmp .intCommonStub] }
  have h2 : Step s₁ s₂ := by
    rw [Step, step, hcode]
  have h3 : Step s₂ { s₂ with code := target .intCommonStub } := rfl
  refine ⟨_, h1.trans (.head h2 (.single h3)), rfl, hregs, hswaps, ?_,
    hs.pushWord (by simp [Context.length_frame]) _⟩
  simp only [s₂, pushWord_rsp, hrsp]
  bv_omega

/-- The order of the pushes. -/
def savedRegs : List Reg :=
  [.rax, .rbx, .rcx, .rdx, .rsi, .rdi, .rbp, .r8, .r9, .r10, .r11, .r12, .r13, .r14, .r15]

theorem mem_savedRegs (r : Reg) : r ∈ savedRegs := by
  cases r <;> decide

/-- The 22 quadwords at the call, which are the fields of `cpu_interrupt_state_t` in order. -/
def Context.words (c : Context) (intNo errorCode : BitVec 64) : List (BitVec 64) :=
  (savedRegs.map c.regs).reverse ++ intNo :: errorCode :: c.frame

theorem Context.read_words {c : Context} {m : Mem} {p intNo errorCode : BitVec 64}
    (h : HoldsStack m p (c.words intNo errorCode)) :
    CpuInterruptState.read m p = c.state intNo errorCode := by
  have h0 : load64 m p = c.regs .r15 := h.1
  have hw (i : ℕ) {w : BitVec 64} (hi : (c.words intNo errorCode)[i]? = some w) :
      load64 m (p + BitVec.ofNat 64 (8 * i)) = w := h.load hi
  simp only [CpuInterruptState.read, Context.state, CpuInterruptState.mk.injEq]
  exact ⟨h0, hw 1 rfl, hw 2 rfl, hw 3 rfl, hw 4 rfl, hw 5 rfl, hw 6 rfl, hw 7 rfl, hw 8 rfl,
    hw 9 rfl, hw 10 rfl, hw 11 rfl, hw 12 rfl, hw 13 rfl, hw 14 rfl, hw 15 rfl, hw 16 rfl,
    hw 17 rfl, hw 18 rfl, hw 19 rfl, hw 20 rfl, hw 21 rfl⟩

/-- What follows the call. -/
def afterCall : List Instr :=
  popa64 ++ [.addRsp 16, .test 8 0x03, .jz .next1, .swapgs, .label .next1, .iretq]

/-- From the entry of the common stub to the call. -/
theorem reaches_call {c : Context} {s : Machine} {intNo errorCode : BitVec 64}
    (hcode : s.code = target .intCommonStub) (hregs : s.regs = c.regs)
    (hs : s.Stack (intNo :: errorCode :: c.frame)) :
    ∃ t, ReflTransGen Step s t ∧ t.code = .callInterruptHandler :: afterCall ∧
      t.regs .rdi = t.rsp ∧ t.rsp = s.rsp - 120 ∧ t.Stack (c.words intNo errorCode) ∧
      t.swaps = s.swaps + if c.cs &&& 3 = 0 then 0 else 1 := by
  have hcs : load64 s.mem (s.rsp + 24) = c.cs := HoldsStack.load (i := 3) hs rfl
  let s₁ : Machine := { s with code := (target .intCommonStub).tail }
  have h0 : Step s s₁ := by
    rw [Step, step, hcode]
    rfl
  obtain ⟨s₂, h1, hcode₂, hregs₂, hmem₂, hrsp₂, hswaps₂⟩ :=
    reaches_swapgs 24 (s := s₁) (l := .next0) rfl rfl
  have hs₂ : s₂.Stack (intNo :: errorCode :: c.frame) := by
    rw [Machine.Stack, hmem₂, hrsp₂]
    exact hs
  obtain ⟨s₃, h2, hcode₃, hregs₃, hswaps₃, hrsp₃, hs₃⟩ :=
    reaches_push savedRegs (.movRsp .rdi :: .callInterruptHandler :: afterCall) hcode₂ hs₂
      (by simp [Context.length_frame, savedRegs])
  let t : Machine := { s₃ with
    regs := Function.update s₃.regs .rdi s₃.rsp, code := .callInterruptHandler :: afterCall }
  have h3 : Step s₃ t := by
    rw [Step, step, hcode₃]
  refine ⟨t, .head h0 (h1.trans (h2.trans (.single h3))), rfl, by simp [t], ?_, ?_, ?_⟩
  · exact hrsp₃.trans (by rw [hrsp₂]; rfl)
  · have hwords : (savedRegs.map s₂.regs).reverse ++ intNo :: errorCode :: c.frame =
        c.words intNo errorCode := by
      rw [hregs₂]
      exact congrArg (fun g => (savedRegs.map g).reverse ++ _) hregs
    rw [← hwords]
    exact hs₃
  · rw [← hcs]
    exact hswaps₃.trans hswaps₂

/-- From the return of the handler to `iretq`. -/
theorem reaches_iretq {c : Context} {s : Machine} {intNo errorCode : BitVec 64}
    (hcode : s.code = afterCall) (hs : s.Stack (c.words intNo errorCode)) :
    ∃ t, ReflTransGen Step s t ∧ t.code = [.iretq] ∧ t.regs = c.regs ∧ t.rsp = s.rsp + 136 ∧
      t.Stack c.frame ∧ t.swaps = s.swaps + if c.cs &&& 3 = 0 then 0 else 1 := by
  obtain ⟨s₁, h0, hcode₁, hswaps₁, hmem₁, hrsp₁, hs₁, hmap, -⟩ :=
    reaches_pop savedRegs.reverse hcode hs (by simp) (by decide)
  let s₂ : Machine := { s₁ with
    rsp := s₁.rsp + 16, zf := s₁.rsp + 16 == 0,
    code := [.test 8 0x03, .jz .next1, .swapgs, .label .next1, .iretq] }
  have h1 : Step s₁ s₂ := by
    rw [Step, step, hcode₁]
  have hs₂ : s₂.Stack c.frame := HoldsStack.drop 2 hs₁
  have hcs : load64 s₂.mem (s₂.rsp + 8) = c.cs := HoldsStack.load (i := 1) hs₂ rfl
  obtain ⟨t, h2, htcode, hregs, hmem, hrsp, hswaps⟩ :=
    reaches_swapgs 8 (s := s₂) (l := .next1) rfl rfl
  refine ⟨t, h0.trans (.head h1 h2), htcode, funext fun r => ?_, ?_, ?_, ?_⟩
  · -- popping goes through the registers backwards
    rw [List.map_reverse, List.reverse_inj] at hmap
    rw [hregs]
    exact List.map_inj_left.mp hmap r (mem_savedRegs r)
  · have hlen : savedRegs.reverse.length = 15 := rfl
    rw [hlen] at hrsp₁
    simp only [hrsp, s₂, hrsp₁]
    bv_omega
  · rw [Machine.Stack, hmem, hrsp]
    exact hs₂
  · rw [hswaps, hcs]
    exact congrArg (· + _) hswaps₁

theorem ripSlot_aligned (top : BitVec 64) : (ripSlot top - 136).toNat % 16 = 0 := by
  have hmask : (top &&& ~~~15).toNat = top.toNat / 2 ^ 4 * 2 ^ 4 := by
    rw [BitVec.toNat_and]
    exact Word64.and_compl64_low (k := 4) top.isLt (by decide)
  unfold ripSlot
  bv_omega

/-- Interrupts are transparent. The handler is called with an aligned stack and a pointer to the
interrupted state, and however it returns, the stub ends with the interrupted registers and the
frame of the CPU on top of the stack. -/
theorem interrupt_transparent (c : Context) (m : Mem) (top errorCode : BitVec 64)
    (vector : Fin 256) :
    ∃ s, ReflTransGen Step (deliver c m top errorCode vector) s ∧
      s.code = .callInterruptHandler :: afterCall ∧ s.rsp.toNat % 16 = 0 ∧
      CpuInterruptState.read s.mem (s.regs .rdi) =
        c.state (BitVec.ofNat 64 vector) (if hasErrorCode vector then errorCode else 0) ∧
      ∀ s', Returns s s' → ∃ t, ReflTransGen Step s' t ∧ t.code = [.iretq] ∧
        (∀ r, t.regs r = c.regs r) ∧ t.rsp = ripSlot top ∧ HoldsStack t.mem t.rsp c.frame ∧
        (c.cs &&& 3 = 3 → t.swaps = 2) ∧ (c.cs &&& 3 = 0 → t.swaps = 0) := by
  obtain ⟨s₁, h1, hcode₁, hregs₁, hswaps₁, hrsp₁, hs₁⟩ :=
    reaches_intCommonStub c m top errorCode vector
  obtain ⟨s, h2, hcode, hrdi, hrsp, hs, hswaps⟩ := reaches_call hcode₁ hregs₁ hs₁
  have hsrsp : s.rsp = ripSlot top - 136 := by
    rw [hrsp, hrsp₁]
    bv_omega
  rw [hswaps₁, Nat.zero_add] at hswaps
  refine ⟨s, h1.trans h2, hcode, ?_, ?_, fun s' hret => ?_⟩
  · rw [hsrsp]
    exact ripSlot_aligned top
  · rw [hrdi]
    exact Context.read_words hs
  · have hcode' : s'.code = afterCall := by
      have h := hret.code
      rw [hcode] at h
      exact (List.cons.inj h).2.symm
    have hs' : s'.Stack (c.words (BitVec.ofNat 64 vector)
        (if hasErrorCode vector then errorCode else 0)) := by
      rw [Machine.Stack, hret.rsp]
      exact HoldsStack.congr hs hret.frame
    obtain ⟨t, ht, htcode, hregs, htrsp, hst, htswaps⟩ := reaches_iretq hcode' hs'
    refine ⟨t, ht, htcode, congrFun hregs, ?_, hst, fun hcs => ?_, fun hcs => ?_⟩
    · rw [htrsp, hret.rsp, hsrsp]
      bv_omega
    · rw [htswaps, hret.swaps, hswaps, hcs]
      rfl
    · rw [htswaps, hret.swaps, hswaps, if_pos hcs]

end IceKernel.InterruptStub
