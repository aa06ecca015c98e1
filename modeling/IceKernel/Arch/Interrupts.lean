import IceKernel.Lib.Run
import Mathlib.Data.List.Nodup
import Mathlib.Data.Nat.Notation

/-!
# `idt/idt.cpp`: vectors and handlers

Drivers ask for a vector and register a handler on it, while interrupts
arrive.
-/

namespace IceKernel.Interrupts

/-- `interrupt_handler_t`. -/
structure InterruptHandler where
  handler : ℕ
  args : BitVec 64
  arg : Bool
  deriving DecidableEq, Repr

/-- The static `next_free` and the array `interrupt_handlers`. -/
structure State where
  nextFree : BitVec 8 := 48
  interruptHandlers : ℕ → InterruptHandler := fun _ => ⟨0, 0, false⟩

/-- `alloc_vector`. It reads the counter and leaves it as it is. -/
def allocVector (s : State) : ℕ × State := (s.nextFree.toNat, s)

/-- `register_interrupt_handler` for a handler without an argument. `args` stays. -/
def registerInterruptHandler (vector handler : ℕ) (s : State) : State :=
  { s with
    interruptHandlers := Function.update s.interruptHandlers vector
      { s.interruptHandlers vector with handler := handler, arg := false } }

/-- `register_interrupt_handler` for a handler with an argument. -/
def registerInterruptHandlerArg (vector handler : ℕ) (args : BitVec 64) (s : State) : State :=
  { s with
    interruptHandlers := Function.update s.interruptHandlers vector
      { s.interruptHandlers vector with handler := handler, arg := true, args := args } }

/-- The overload for a handler with or without an argument. -/
def register (vector handler : ℕ) : Option (BitVec 64) → State → State
  | none => registerInterruptHandler vector handler
  | some args => registerInterruptHandlerArg vector handler args

inductive Action where
  | exception (intNo : ℕ)
  | call (handler : ℕ) (args : Option (BitVec 64))
  | eoi (intNo : ℕ)
  | panic (message : String)
  deriving DecidableEq, Repr

/-- `irq_handler`. -/
def irqHandler (intNo : ℕ) (s : State) : List Action :=
  let h := s.interruptHandlers intNo
  (if h.handler ≠ 0 then
    if h.arg then [.call h.handler (some h.args)] else [.call h.handler none]
  else []) ++ [.eoi intNo]

/-- `interrupt_handler`. -/
def interruptHandler (intNo : ℕ) (s : State) : List Action :=
  if intNo < 32 then [.exception intNo]
  else if 32 ≤ intNo ∧ intNo < 256 then irqHandler intNo s
  else [.panic "Unknown interrupt"]

/-! ## Drivers -/

/-- The state, the vectors handed out so far with the drivers that got them, the latest first, and
what drivers have registered. -/
structure Trace where
  state : State := {}
  vectors : List (ℕ × ℕ) := []
  owners : ℕ → Option (ℕ × Option (BitVec 64)) := fun _ => none

inductive Event where
  | alloc (driver : ℕ)
  | register (driver handler : ℕ) (args : Option (BitVec 64))
  | interrupt (intNo : ℕ)
  deriving DecidableEq, Repr

def Event.isAlloc : Event → Bool
  | .alloc _ => true
  | _ => false

/-- Each of at most 208 drivers asks for a vector once, and then registers one handler on it. A
handler is not null. -/
def step (t : Trace) : Event → Option Trace
  | .alloc driver =>
    if driver ∉ t.vectors.map Prod.fst ∧ t.vectors.length < 208 then
      let (vector, s) := allocVector t.state
      some { t with state := s, vectors := (driver, vector) :: t.vectors }
    else none
  | .register driver handler args =>
    if handler ≠ 0 ∧ t.owners driver = none then
      (t.vectors.lookup driver).map fun vector =>
        { t with
          state := register vector handler args t.state
          owners := Function.update t.owners driver (some (handler, args)) }
    else none
  | .interrupt _ => some t

/-- Vectors are distinct and at least 48, and an interrupt calls what its owner registered. -/
structure NoneLost (t : Trace) : Prop where
  distinct : (t.vectors.map Prod.snd).Nodup
  ge : ∀ p ∈ t.vectors, 48 ≤ p.2
  dispatch : ∀ p ∈ t.vectors, ∀ handler args, t.owners p.1 = some (handler, args) →
    interruptHandler p.2 t.state = [.call handler args, .eoi p.2]

/-! ## What a step keeps -/

/-- All vectors are 48, and with one driver that slot is its own. -/
structure Inv (t : Trace) : Prop where
  nextFree : t.state.nextFree = 48
  vectors : ∀ p ∈ t.vectors, p.2 = 48
  known : ∀ driver r, t.owners driver = some r → driver ∈ t.vectors.map Prod.fst
  slot : ∀ p, t.vectors = [p] → ∀ handler args, t.owners p.1 = some (handler, args) →
    interruptHandler 48 t.state = [.call handler args, .eoi 48]

theorem mem_of_lookup {l : List (ℕ × ℕ)} {driver vector : ℕ} (h : l.lookup driver = some vector) :
    (driver, vector) ∈ l := by
  induction l with
  | nil => simp at h
  | cons p l ih =>
    rw [List.lookup_cons] at h
    by_cases hp : driver = p.1
    · rw [hp, beq_self_eq_true] at h
      obtain rfl := Option.some.inj h
      rw [hp]
      exact List.mem_cons_self
    · rw [beq_false_of_ne hp] at h
      exact List.mem_cons_of_mem _ (ih h)

/-- The slot that was just filled. -/
theorem dispatch_registered {s : State} {handler : ℕ} (hh : handler ≠ 0)
    (args : Option (BitVec 64)) :
    interruptHandler 48 (register 48 handler args s) = [.call handler args, .eoi 48] := by
  cases args with
  | none => simp [interruptHandler, irqHandler, register, registerInterruptHandler, hh]
  | some args => simp [interruptHandler, irqHandler, register, registerInterruptHandlerArg, hh]

theorem Inv.start : Inv {} where
  nextFree := rfl
  vectors _ hp := absurd hp List.not_mem_nil
  known _ _ h := absurd h (by simp)
  slot _ h := absurd h (by simp)

theorem Inv.step {t t' : Trace} {e : Event} (hi : Inv t) (he : step t e = some t') :
    Inv t' ∧ t'.vectors.length = t.vectors.length + if e.isAlloc then 1 else 0 := by
  cases e with
  | alloc driver =>
    simp only [Interrupts.step, allocVector] at he
    split_ifs at he with hguard
    obtain rfl := Option.some.inj he
    refine ⟨⟨hi.nextFree, fun p hp => ?_, fun d r hr => ?_, fun p hp handler args ho => ?_⟩, rfl⟩
    · rcases List.mem_cons.mp hp with rfl | hp
      · dsimp only
        rw [hi.nextFree]
        rfl
      · exact hi.vectors p hp
    · exact List.mem_cons_of_mem _ (hi.known d r hr)
    · -- the only driver has just come
      obtain ⟨rfl, -⟩ := List.cons.inj hp
      exact absurd (hi.known driver _ ho) hguard.1
  | register driver handler args =>
    simp only [Interrupts.step] at he
    split_ifs at he with hguard
    obtain ⟨vector, hv, rfl⟩ := Option.map_eq_some_iff.mp he
    have hmem := mem_of_lookup hv
    obtain rfl : vector = 48 := hi.vectors _ hmem
    refine ⟨⟨?_, hi.vectors, fun d r hr => ?_, fun p hp handler' args' ho => ?_⟩, rfl⟩
    · cases args with
      | none => exact hi.nextFree
      | some args => exact hi.nextFree
    · by_cases hd : d = driver
      · exact List.mem_map.mpr ⟨_, hmem, hd.symm⟩
      · dsimp only at hr
        rw [Function.update_of_ne hd] at hr
        exact hi.known d r hr
    · -- the only driver is the one that registers
      dsimp only at hp ho ⊢
      rw [hp, List.mem_singleton] at hmem
      rw [← hmem, Function.update_self, Option.some.injEq, Prod.mk.injEq] at ho
      obtain ⟨rfl, rfl⟩ := ho
      exact dispatch_registered hguard.1 args
  | interrupt intNo =>
    obtain rfl := Option.some.inj he
    exact ⟨hi, rfl⟩

theorem Inv.run {t t' : Trace} {events : List Event} (hi : Inv t)
    (h : Run.run Interrupts.step t events = some t') :
    Inv t' ∧ t'.vectors.length = t.vectors.length + events.countP Event.isAlloc := by
  induction events generalizing t with
  | nil =>
    obtain rfl : t = t' := by simpa using h
    exact ⟨hi, rfl⟩
  | cons e es ih =>
    obtain ⟨t₁, h1, h2⟩ := Run.run_cons_eq_some.mp h
    obtain ⟨hi₁, hlen₁⟩ := hi.step h1
    obtain ⟨hi', hlen⟩ := ih hi₁ h2
    refine ⟨hi', ?_⟩
    rw [hlen, hlen₁, List.countP_cons]
    omega

/-- No handler is lost exactly when `alloc_vector` is called at most once. -/
theorem none_lost_iff {t : Trace} {events : List Event}
    (h : Run.run step {} events = some t) :
    NoneLost t ↔ events.countP Event.isAlloc ≤ 1 := by
  obtain ⟨hi, hlen⟩ := Inv.start.run h
  have hzero : t.vectors.length = events.countP Event.isAlloc := by
    rw [hlen]
    exact Nat.zero_add _
  rw [← hzero]
  constructor
  · intro hn
    by_contra hmany
    obtain ⟨p, q, l, hl⟩ : ∃ p q l, t.vectors = p :: q :: l := by
      match hv : t.vectors with
      | [] => simp [hv] at hmany
      | [_] => simp [hv] at hmany
      | p :: q :: l => exact ⟨p, q, l, rfl⟩
    have hdistinct := hn.distinct
    rw [hl, List.map_cons, List.map_cons, List.nodup_cons] at hdistinct
    apply hdistinct.1
    rw [hi.vectors p (by rw [hl]; exact List.mem_cons_self),
      hi.vectors q (by rw [hl]; exact List.mem_cons_of_mem _ List.mem_cons_self)]
    exact List.mem_cons_self
  · intro hone
    refine ⟨?_, fun p hp => Nat.le_of_eq (hi.vectors p hp).symm, fun p hp handler args ho => ?_⟩
    · match hv : t.vectors with
      | [] => exact List.nodup_nil
      | [p] => exact List.nodup_singleton p.2
      | p :: q :: l => simp [hv] at hone
    · obtain ⟨q, hq⟩ := List.length_eq_one_iff.mp
        (Nat.le_antisymm hone (List.length_pos_of_mem hp))
      have hpq : p = q := by rwa [hq, List.mem_singleton] at hp
      rw [hi.vectors p hp]
      exact hi.slot p (by rw [hq, hpq]) handler args ho

/-- One driver, with an interrupt before and after it registers. -/
def oneDriver : List Event :=
  [.alloc 7, .interrupt 48, .register 7 0x1000 (some 5), .interrupt 48]

theorem none_lost_iff_one : ∃ t, Run.run step {} oneDriver = some t ∧ NoneLost t := by
  obtain ⟨t, ht⟩ := Option.isSome_iff_exists.mp
    (by decide : (Run.run step {} oneDriver).isSome = true)
  exact ⟨t, ht, (none_lost_iff ht).mpr (by decide)⟩

/-- Two drivers, of which the second has no argument. -/
def twoDrivers : List Event :=
  [.alloc 0, .register 0 0x1000 (some 5), .alloc 1, .register 1 0x2000 none, .interrupt 48]

/-- Both drivers get vector 48, and its interrupts call the second handler only. -/
theorem first_handler_lost :
    ∃ t, Run.run step {} twoDrivers = some t ∧ t.vectors = [(1, 48), (0, 48)] ∧
      t.owners 0 = some (0x1000, some 5) ∧
      interruptHandler 48 t.state = [.call 0x2000 none, .eoi 48] ∧ ¬ NoneLost t := by
  have hvals : (Run.run step {} twoDrivers).map (fun t =>
      (t.vectors, t.owners 0, interruptHandler 48 t.state)) =
        some ([(1, 48), (0, 48)], some (0x1000, some 5), [.call 0x2000 none, .eoi 48]) := by
    decide
  obtain ⟨t, ht, hv⟩ := Option.map_eq_some_iff.mp hvals
  simp only [Prod.mk.injEq] at hv
  obtain ⟨hvec, ho, hd⟩ := hv
  refine ⟨t, ht, hvec, ho, hd, fun hn => ?_⟩
  have hcall := hn.dispatch (0, 48) (by rw [hvec]; decide) _ _ ho
  rw [hd] at hcall
  exact absurd hcall (by decide)

end IceKernel.Interrupts
