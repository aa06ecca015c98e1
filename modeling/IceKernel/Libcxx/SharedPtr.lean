import IceKernel.Lib.Run
import IceKernel.Lib.Shares

/-!
# `libs/libc++/memory`: `shared_ptr` and `weak_ptr`

One control block, the object it manages, and any number of agents with
handles of their own. An operation is the list of its steps: an atomic access
to a counter, the deleter, the release of the block, or a write to the agent's
own handles. The steps of different agents interleave freely.
-/

namespace IceKernel.Libcxx
open Function

/-- `__ptr` of a handle, and whether its `__ctrl` is the control block or null. -/
structure Handle where
  ptr : ℕ
  ctrl : Bool
  deriving DecidableEq

/-- An empty handle; also what a slot without a handle holds. -/
def Handle.null : Handle := ⟨0, false⟩

/-- The handles of one agent. -/
structure Handles (S W : Type) where
  shared : S → Handle
  weak : W → Handle

/-- One step of an operation. -/
inductive Micro (S W : Type) where
  | addRef
  | addWeak
  | subRef
  | deleter
  | subWeak
  | free
  | setShared (dst : S) (handle : Handle)
  | moveShared (dst src : S) (ptr : ℕ)
  | setWeak (dst : W) (handle : Handle)
  | moveWeak (dst src : W)
  | lockLoad (dst : S) (ptr : ℕ)
  | lockExchange (count : ℕ) (dst : S) (ptr : ℕ)
  | lockReturn (dst : S) (handle : Handle)
  deriving DecidableEq

namespace Micro

variable {S W : Type}

/-- The steps that read or write the control block. -/
def touches : Micro S W → Bool
  | addRef | addWeak | subRef | deleter | subWeak | free | lockLoad .. | lockExchange .. => true
  | _ => false

/-- The shared handle a step writes, or its operation will. -/
def writesShared : Micro S W → Option S
  | setShared dst _ | moveShared dst _ _ | lockLoad dst _ | lockExchange _ dst _
  | lockReturn dst _ => some dst
  | _ => none

/-- The weak handle a step writes. -/
def writesWeak : Micro S W → Option W
  | setWeak dst _ | moveWeak dst _ => some dst
  | _ => none

end Micro

section Operations

variable {S W : Type}

/-- `__add_weak`. -/
def addWeak : List (Micro S W) := [.addWeak]

/-- `__add_shared`. -/
def addShared : List (Micro S W) := .addRef :: addWeak

/-- `__release_weak`; the step itself goes on to free the block. -/
def releaseWeak : List (Micro S W) := [.subWeak]

/-- `__release_shared`; the step itself goes on to call the deleter. -/
def releaseShared : List (Micro S W) := .subRef :: releaseWeak

/-- `if (__ctrl)`. -/
def ifCtrl (h : Handle) (p : List (Micro S W)) : List (Micro S W) := if h.ctrl then p else []

/-- The member functions. -/
inductive HandleOp (S W : Type) where
  | construct (dst : S)
  | copyConstruct (dst src : S)
  | moveConstruct (dst src : S)
  | aliasConstruct (dst src : S) (ptr : ℕ)
  | aliasMoveConstruct (dst src : S) (ptr : ℕ)
  | copyAssign (dst src : S)
  | moveAssign (dst src : S)
  | assignNull (dst : S)
  | destroy (dst : S)
  | constructWeak (dst : W)
  | copyConstructWeak (dst src : W)
  | constructWeakFrom (dst : W) (src : S)
  | moveConstructWeak (dst src : W)
  | copyAssignWeak (dst src : W)
  | moveAssignWeak (dst src : W)
  | reset (dst : W)
  | destroyWeak (dst : W)
  | lock (dst : S) (src : W)

/-- A constructor is called where no handle is. -/
def HandleOp.valid (h : Handles S W) : HandleOp S W → Bool
  | construct dst | copyConstruct dst _ | moveConstruct dst _ | aliasConstruct dst _ _
  | aliasMoveConstruct dst _ _ | lock dst _ => !(h.shared dst).ctrl
  | constructWeak dst | copyConstructWeak dst _ | constructWeakFrom dst _
  | moveConstructWeak dst _ => !(h.weak dst).ctrl
  | _ => true

variable [DecidableEq S] [DecidableEq W]

/-- The steps of a member function, from the handles of the agent that calls it. -/
def HandleOp.program (h : Handles S W) : HandleOp S W → List (Micro S W)
  | construct dst => [.setShared dst .null]
  | copyConstruct dst src =>
    .setShared dst (h.shared src) :: ifCtrl (h.shared src) addShared
  | moveConstruct dst src => [.moveShared dst src (h.shared src).ptr]
  | aliasConstruct dst src ptr =>
    .setShared dst ⟨ptr, (h.shared src).ctrl⟩ :: ifCtrl (h.shared src) addShared
  | aliasMoveConstruct dst src ptr => [.moveShared dst src ptr]
  | copyAssign dst src =>
    if dst = src then []
    else ifCtrl (h.shared dst) releaseShared ++
      .setShared dst (h.shared src) :: ifCtrl (h.shared src) addShared
  | moveAssign dst src =>
    if dst = src then []
    else ifCtrl (h.shared dst) releaseShared ++ [.moveShared dst src (h.shared src).ptr]
  | assignNull dst => ifCtrl (h.shared dst) releaseShared ++ [.setShared dst .null]
  | destroy dst => ifCtrl (h.shared dst) releaseShared ++ [.setShared dst .null]
  | constructWeak dst => [.setWeak dst .null]
  | copyConstructWeak dst src => .setWeak dst (h.weak src) :: ifCtrl (h.weak src) addWeak
  | constructWeakFrom dst src => .setWeak dst (h.shared src) :: ifCtrl (h.shared src) addWeak
  | moveConstructWeak dst src => [.moveWeak dst src]
  | copyAssignWeak dst src =>
    if dst = src then []
    else ifCtrl (h.weak dst) releaseWeak ++
      .setWeak dst (h.weak src) :: ifCtrl (h.weak src) addWeak
  | moveAssignWeak dst src =>
    if dst = src then [] else ifCtrl (h.weak dst) releaseWeak ++ [.moveWeak dst src]
  | reset dst => ifCtrl (h.weak dst) releaseWeak ++ [.setWeak dst .null]
  | destroyWeak dst => ifCtrl (h.weak dst) releaseWeak ++ [.setWeak dst .null]
  | lock dst src =>
    if (h.weak src).ctrl then [.lockLoad dst (h.weak src).ptr] else [.lockReturn dst .null]

end Operations

/-! ## Interleaved runs -/

/-- The counters of the control block, and how often the deleter ran and the block was freed. -/
structure CtrlBlock where
  refCount : ℕ
  weakCount : ℕ
  deleted : ℕ
  freed : ℕ
  deriving DecidableEq

section Slots

variable {S W : Type}

/-- `x` put in a shared slot. -/
def Handles.setShared [DecidableEq S] (h : Handles S W) (dst : S) (x : Handle) : Handles S W :=
  { h with shared := update h.shared dst x }

/-- `x` put in a weak slot. -/
def Handles.setWeak [DecidableEq W] (h : Handles S W) (dst : W) (x : Handle) : Handles S W :=
  { h with weak := update h.weak dst x }

@[simp] theorem setShared_shared [DecidableEq S] (h : Handles S W) (dst : S) (x : Handle) :
    (h.setShared dst x).shared = update h.shared dst x := rfl

@[simp] theorem setShared_weak [DecidableEq S] (h : Handles S W) (dst : S) (x : Handle) :
    (h.setShared dst x).weak = h.weak := rfl

@[simp] theorem setWeak_shared [DecidableEq W] (h : Handles S W) (dst : W) (x : Handle) :
    (h.setWeak dst x).shared = h.shared := rfl

@[simp] theorem setWeak_weak [DecidableEq W] (h : Handles S W) (dst : W) (x : Handle) :
    (h.setWeak dst x).weak = update h.weak dst x := rfl

end Slots

section Steps

variable {S W : Type} [DecidableEq S] [DecidableEq W]

/-- What one agent's step works on: the block, its handles, and the steps it has left. -/
structure Local (S W : Type) where
  block : CtrlBlock
  handles : Handles S W
  rest : List (Micro S W)

/-- One step. The counts are of handles in memory, so they stay below `2 ^ 64`;
`spurious` is a compare-exchange that fails although the count is as expected. -/
def exec (spurious : Bool) (b : CtrlBlock) (h : Handles S W) (rest : List (Micro S W)) :
    Micro S W → Local S W
  | .addRef => ⟨{ b with refCount := b.refCount + 1 }, h, rest⟩
  | .addWeak => ⟨{ b with weakCount := b.weakCount + 1 }, h, rest⟩
  | .subRef =>
    ⟨{ b with refCount := b.refCount - 1 }, h, if b.refCount = 1 then .deleter :: rest else rest⟩
  | .deleter => ⟨{ b with deleted := b.deleted + 1 }, h, rest⟩
  | .subWeak =>
    ⟨{ b with weakCount := b.weakCount - 1 }, h, if b.weakCount = 1 then .free :: rest else rest⟩
  | .free => ⟨{ b with freed := b.freed + 1 }, h, rest⟩
  | .setShared dst handle => ⟨b, h.setShared dst handle, rest⟩
  | .moveShared dst src ptr =>
    ⟨b, (h.setShared dst ⟨ptr, (h.shared src).ctrl⟩).setShared src .null, rest⟩
  | .setWeak dst handle => ⟨b, h.setWeak dst handle, rest⟩
  | .moveWeak dst src => ⟨b, (h.setWeak dst (h.weak src)).setWeak src .null, rest⟩
  | .lockLoad dst ptr =>
    ⟨b, h, (if b.refCount = 0 then .lockReturn dst .null
      else .lockExchange b.refCount dst ptr) :: rest⟩
  | .lockExchange count dst ptr =>
    if b.refCount = count ∧ spurious = false then
      ⟨{ b with refCount := count + 1 }, h, addWeak ++ .lockReturn dst ⟨ptr, true⟩ :: rest⟩
    else ⟨b, h, .lockLoad dst ptr :: rest⟩
  | .lockReturn dst handle => ⟨b, h.setShared dst handle, rest⟩

variable {A : Type} [DecidableEq A]

structure PtrState (A S W : Type) where
  block : CtrlBlock
  handles : A → Handles S W
  program : A → List (Micro S W)

/-- An idle agent calls a member function, a busy one takes a step, or an agent gives
one of its handles to another while neither uses them. -/
inductive PtrEvent (A S W : Type) where
  | call (agent : A) (op : HandleOp S W)
  | step (agent : A) (spurious : Bool)
  | giveShared (agent : A) (src : S) (other : A) (dst : S)
  | giveWeak (agent : A) (src : W) (other : A) (dst : W)

/-- One event; none if the agent cannot do it now. -/
def ptrStep (s : PtrState A S W) : PtrEvent A S W → Option (PtrState A S W)
  | .call a op =>
    if s.program a = [] ∧ op.valid (s.handles a) then
      some { s with program := update s.program a (op.program (s.handles a)) }
    else none
  | .step a spurious =>
    match s.program a with
    | [] => none
    | m :: rest =>
      let l := exec spurious s.block (s.handles a) rest m
      some ⟨l.block, update s.handles a l.handles, update s.program a l.rest⟩
  | .giveShared a src b dst =>
    if a ≠ b ∧ s.program a = [] ∧ s.program b = [] ∧ ((s.handles b).shared dst).ctrl = false then
      some { s with handles := update (update s.handles a ((s.handles a).setShared src .null)) b
                      ((s.handles b).setShared dst ((s.handles a).shared src)) }
    else none
  | .giveWeak a src b dst =>
    if a ≠ b ∧ s.program a = [] ∧ s.program b = [] ∧ ((s.handles b).weak dst).ctrl = false then
      some { s with handles := update (update s.handles a ((s.handles a).setWeak src .null)) b
                      ((s.handles b).setWeak dst ((s.handles a).weak src)) }
    else none

end Steps

end IceKernel.Libcxx
