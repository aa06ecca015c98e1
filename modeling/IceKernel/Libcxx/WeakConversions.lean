import IceKernel.Libcxx.SharedPtr
import Mathlib.Algebra.BigOperators.Group.Finset.Piecewise

/-!
# `libs/libc++/memory`: conversions to `weak_ptr`

A `weak_ptr` is made or assigned from a handle of another type, on the same
control block or on another one. Then handles are destroyed, in any order.
-/

namespace IceKernel.Libcxx.Conversions
open Function Shares

/-- `__ptr` and `__ctrl` of a handle. -/
structure BlockHandle (B : Type) where
  ptr : ℕ
  ctrl : Option B
  deriving DecidableEq

/-- An empty handle; also what a slot without a handle holds. -/
def BlockHandle.null {B : Type} : BlockHandle B := ⟨0, none⟩

/-- The control blocks, and all handles of whatever types. -/
structure Store (B S W : Type) where
  blocks : B → CtrlBlock
  shared : S → BlockHandle B
  weak : W → BlockHandle B

/-- The converting members of `weak_ptr`. -/
inductive Conversion (S W : Type) where
  | construct (dst src : W)
  | constructShared (dst : W) (src : S)
  | moveConstruct (dst src : W)
  | assignShared (dst : W) (src : S)
  | assign (dst src : W)
  | moveAssign (dst src : W)
  deriving DecidableEq

/-- The end of a handle. -/
inductive Destruction (S W : Type) where
  | shared (i : S)
  | weak (i : W)
  deriving DecidableEq

/-! ## The counters -/

/-- `__add_weak`. -/
def addWeak (c : CtrlBlock) : CtrlBlock := { c with weakCount := c.weakCount + 1 }

/-- `__release_weak`. -/
def releaseWeak (c : CtrlBlock) : CtrlBlock :=
  { c with weakCount := c.weakCount - 1, freed := c.freed + if c.weakCount = 1 then 1 else 0 }

/-- `__release_shared`. -/
def releaseShared (c : CtrlBlock) : CtrlBlock :=
  releaseWeak { c with
    refCount := c.refCount - 1, deleted := c.deleted + if c.refCount = 1 then 1 else 0 }

section Operations

variable {B S W : Type} [DecidableEq B] [DecidableEq S] [DecidableEq W]

/-- `if (__ctrl) { .. }`. -/
def ifCtrl (f : CtrlBlock → CtrlBlock) (h : BlockHandle B) (s : Store B S W) : Store B S W :=
  match h.ctrl with
  | none => s
  | some b => { s with blocks := update s.blocks b (f (s.blocks b)) }

def setWeak (dst : W) (h : BlockHandle B) (s : Store B S W) : Store B S W :=
  { s with weak := update s.weak dst h }

def setShared (dst : S) (h : BlockHandle B) (s : Store B S W) : Store B S W :=
  { s with shared := update s.shared dst h }

/-- The six members. -/
def convert (s : Store B S W) : Conversion S W → Store B S W
  | .construct dst src =>
    let s := setWeak dst (s.weak src) s
    ifCtrl addWeak (s.weak dst) s
  | .constructShared dst src =>
    let s := setWeak dst (s.shared src) s
    ifCtrl addWeak (s.weak dst) s
  | .moveConstruct dst src =>
    let s := setWeak dst (s.weak src) s
    setWeak src .null s
  | .assignShared dst src =>
    let s := ifCtrl releaseWeak (s.weak dst) s
    let s := setWeak dst (s.shared src) s
    ifCtrl addWeak (s.weak dst) s
  | .assign dst src =>
    let s := ifCtrl releaseWeak (s.weak dst) s
    setWeak dst (s.weak src) s
  | .moveAssign dst src =>
    let s := ifCtrl releaseWeak (s.weak dst) s
    let s := setWeak dst (s.weak src) s
    setWeak src .null s

/-- The two destructors. The slot is empty after them. -/
def destroy (s : Store B S W) : Destruction S W → Store B S W
  | .shared i => setShared i .null (ifCtrl releaseShared (s.shared i) s)
  | .weak i => setWeak i .null (ifCtrl releaseWeak (s.weak i) s)

omit [DecidableEq S] [DecidableEq W] in
/-- A constructor is called where no handle is, and handles of two types are two handles. -/
def Conversion.Valid (s : Store B S W) : Conversion S W → Prop
  | .construct dst src | .moveConstruct dst src => (s.weak dst).ctrl = none ∧ dst ≠ src
  | .constructShared dst _ => (s.weak dst).ctrl = none
  | .assignShared _ _ => True
  | .assign dst src | .moveAssign dst src => dst ≠ src

omit [DecidableEq B] [DecidableEq S] [DecidableEq W] in
/-- The copy assignment from a `weak_ptr` of another type, unless that is empty. -/
def Uncounted (s : Store B S W) (op : Conversion S W) : Prop :=
  ∃ dst src, op = .assign dst src ∧ (s.weak src).ctrl ≠ none

variable [Fintype S] [Fintype W]

/-- How many handles a block has. -/
def handles (s : Store B S W) (b : B) : ℕ :=
  (Finset.univ.filter fun i => (s.shared i).ctrl = some b).card +
    (Finset.univ.filter fun i => (s.weak i).ctrl = some b).card

/-- Every `__weak_count` is the number of handles. -/
def Counted (s : Store B S W) : Prop := ∀ b, (s.blocks b).weakCount = handles s b

/-- From `s` to `t` a block is freed exactly if its last handle goes. -/
structure Frees (s t : Store B S W) (b : B) : Prop where
  gone : handles s b = 0 → handles t b = 0
  freed : (t.blocks b).freed =
    (s.blocks b).freed + if handles s b ≠ 0 ∧ handles t b = 0 then 1 else 0

end Operations

/-! ## What each part does to the counts -/

section Counts

variable {B S W : Type} [DecidableEq B]

/-- What a handle is worth for a block. -/
def worth (h : BlockHandle B) (b : B) : ℕ := if h.ctrl = some b then 1 else 0

@[simp] theorem worth_null (b : B) : worth BlockHandle.null b = 0 := rfl

theorem worth_le_one (h : BlockHandle B) (b : B) : worth h b ≤ 1 := by
  unfold worth
  split <;> omega

theorem worth_of_none {h : BlockHandle B} (hc : h.ctrl = none) (b : B) : worth h b = 0 := by
  simp [worth, hc]

@[simp] theorem ifCtrl_shared (f : CtrlBlock → CtrlBlock) (h : BlockHandle B) (s : Store B S W) :
    (ifCtrl f h s).shared = s.shared := by
  unfold ifCtrl
  split <;> rfl

@[simp] theorem ifCtrl_weak (f : CtrlBlock → CtrlBlock) (h : BlockHandle B) (s : Store B S W) :
    (ifCtrl f h s).weak = s.weak := by
  unfold ifCtrl
  split <;> rfl

omit [DecidableEq B] in
@[simp] theorem setWeak_blocks [DecidableEq W] (dst : W) (h : BlockHandle B) (s : Store B S W) :
    (setWeak dst h s).blocks = s.blocks := rfl

theorem ifCtrl_blocks (f : CtrlBlock → CtrlBlock) (h : BlockHandle B) (s : Store B S W) (b : B) :
    (ifCtrl f h s).blocks b = if h.ctrl = some b then f (s.blocks b) else s.blocks b := by
  unfold ifCtrl
  cases hc : h.ctrl with
  | none => simp
  | some a =>
    by_cases hab : a = b
    · subst hab
      simp
    · simp [hab, update_of_ne (Ne.symm hab)]

theorem weakCount_addWeak (h : BlockHandle B) (s : Store B S W) (b : B) :
    ((ifCtrl addWeak h s).blocks b).weakCount = (s.blocks b).weakCount + worth h b ∧
      ((ifCtrl addWeak h s).blocks b).freed = (s.blocks b).freed := by
  rw [ifCtrl_blocks, worth]
  split <;> exact ⟨rfl, rfl⟩

theorem weakCount_releaseWeak (h : BlockHandle B) (s : Store B S W) (b : B) :
    ((ifCtrl releaseWeak h s).blocks b).weakCount = (s.blocks b).weakCount - worth h b ∧
      ((ifCtrl releaseWeak h s).blocks b).freed = (s.blocks b).freed +
        if worth h b = 1 ∧ (s.blocks b).weakCount = 1 then 1 else 0 := by
  rw [ifCtrl_blocks, worth]
  split <;> simp [releaseWeak]

/-- Releasing a shared handle releases the block as well. -/
theorem weakCount_releaseShared (h : BlockHandle B) (s : Store B S W) (b : B) :
    ((ifCtrl releaseShared h s).blocks b).weakCount = (s.blocks b).weakCount - worth h b ∧
      ((ifCtrl releaseShared h s).blocks b).freed = (s.blocks b).freed +
        if worth h b = 1 ∧ (s.blocks b).weakCount = 1 then 1 else 0 := by
  rw [ifCtrl_blocks, worth]
  split <;> simp [releaseShared, releaseWeak]

variable [Fintype S] [Fintype W]

theorem handles_eq_sum (s : Store B S W) (b : B) :
    handles s b = ∑ i, worth (s.shared i) b + ∑ i, worth (s.weak i) b := by
  rw [handles, Finset.card_filter, Finset.card_filter]
  rfl

@[simp] theorem handles_ifCtrl (f : CtrlBlock → CtrlBlock) (h : BlockHandle B) (s : Store B S W)
    (b : B) : handles (ifCtrl f h s) b = handles s b := by
  simp [handles]

theorem handles_setShared [DecidableEq S] (dst : S) (h : BlockHandle B) (s : Store B S W) (b : B) :
    handles (setShared dst h s) b + worth (s.shared dst) b = handles s b + worth h b := by
  have hsum := sum_update_add (fun h => worth h b) s.shared dst h
  simp only [handles_eq_sum, setShared]
  omega

theorem handles_setWeak [DecidableEq W] (dst : W) (h : BlockHandle B) (s : Store B S W) (b : B) :
    handles (setWeak dst h s) b + worth (s.weak dst) b = handles s b + worth h b := by
  have hsum := sum_update_add (fun h => worth h b) s.weak dst h
  simp only [handles_eq_sum, setWeak]
  omega

theorem worth_shared_le (s : Store B S W) (i : S) (b : B) : worth (s.shared i) b ≤ handles s b := by
  have hshare := share_le (fun i => worth (s.shared i) b) i
  rw [handles_eq_sum]
  omega

theorem worth_weak_le (s : Store B S W) (i : W) (b : B) : worth (s.weak i) b ≤ handles s b := by
  have hshare := share_le (fun i => worth (s.weak i) b) i
  rw [handles_eq_sum]
  omega

theorem worth_weak_shared_le (s : Store B S W) (i : W) (j : S) (b : B) :
    worth (s.weak i) b + worth (s.shared j) b ≤ handles s b := by
  have hweak := share_le (fun i => worth (s.weak i) b) i
  have hshared := share_le (fun j => worth (s.shared j) b) j
  rw [handles_eq_sum]
  omega

/-- Two weak handles count twice. -/
theorem worth_weak_weak_le [DecidableEq W] (s : Store B S W) {i j : W} (hne : i ≠ j) (b : B) :
    worth (s.weak i) b + worth (s.weak j) b ≤ handles s b := by
  have hgone := handles_setWeak i .null s b
  have hother := worth_weak_le (setWeak i .null s) j b
  have hsame : (setWeak i .null s).weak j = s.weak j := update_of_ne hne.symm _ _
  rw [hsame] at hother
  rw [worth_null] at hgone
  omega

/-- Handles worth `out` leave a block, handles worth `copied` come, and its counter follows. -/
structure Effect (s t : Store B S W) (b : B) (out copied : ℕ) : Prop where
  out_le : out ≤ 1
  le : out + copied ≤ handles s b
  handles : handles t b + out = handles s b + copied
  weakCount : (t.blocks b).weakCount = (s.blocks b).weakCount - out + copied
  freed : (t.blocks b).freed =
    (s.blocks b).freed + if out = 1 ∧ (s.blocks b).weakCount = 1 then 1 else 0

theorem Effect.counted {s t : Store B S W} {b : B} {out copied : ℕ} (h : Effect s t b out copied)
    (hs : (s.blocks b).weakCount = Conversions.handles s b) :
    (t.blocks b).weakCount = Conversions.handles t b := by
  have hle := h.le
  have hh := h.handles
  rw [h.weakCount]
  omega

theorem Effect.frees {s t : Store B S W} {b : B} {out copied : ℕ} (h : Effect s t b out copied)
    (hs : (s.blocks b).weakCount = Conversions.handles s b) : Frees s t b := by
  have hout := h.out_le
  have hle := h.le
  have hh := h.handles
  refine ⟨by omega, ?_⟩
  rw [h.freed, hs]
  congr 1
  exact if_congr (by omega) rfl rfl

theorem Frees.rfl {s : Store B S W} {b : B} : Frees s s b :=
  ⟨id, by simp⟩

theorem Frees.trans {s t u : Store B S W} {b : B} (h : Frees s t b) (h' : Frees t u b) :
    Frees s u b := by
  refine ⟨fun hs => h'.gone (h.gone hs), ?_⟩
  have hst := h.gone
  have htu := h'.gone
  rw [h'.freed, h.freed, Nat.add_assoc]
  congr 1
  split <;> split <;> split <;> omega

end Counts

/-! ## The members -/

section Members

variable {B S W : Type} [DecidableEq B] [DecidableEq S] [DecidableEq W] [Fintype S] [Fintype W]
variable {s t : Store B S W}

/-- Of a destruction. -/
theorem effect_destroy (s : Store B S W) (d : Destruction S W) (b : B) :
    ∃ out, Effect s (destroy s d) b out 0 := by
  cases d with
  | shared i =>
    obtain ⟨hw, hf⟩ := weakCount_releaseShared (s.shared i) s b
    have hh := handles_setShared i .null (ifCtrl releaseShared (s.shared i) s) b
    rw [handles_ifCtrl, ifCtrl_shared, worth_null] at hh
    exact ⟨worth (s.shared i) b, worth_le_one _ b, worth_shared_le s i b, hh, hw, hf⟩
  | weak i =>
    obtain ⟨hw, hf⟩ := weakCount_releaseWeak (s.weak i) s b
    have hh := handles_setWeak i .null (ifCtrl releaseWeak (s.weak i) s) b
    rw [handles_ifCtrl, ifCtrl_weak, worth_null] at hh
    exact ⟨worth (s.weak i) b, worth_le_one _ b, worth_weak_le s i b, hh, hw, hf⟩

omit [DecidableEq S] in
/-- A copy into an empty slot. -/
theorem effect_construct {dst : W} {h : BlockHandle B} (hdst : (s.weak dst).ctrl = none) (b : B)
    (hle : worth h b ≤ handles s b) :
    Effect s (ifCtrl addWeak h (setWeak dst h s)) b 0 (worth h b) := by
  obtain ⟨hw, hf⟩ := weakCount_addWeak h (setWeak dst h s) b
  have hh := handles_setWeak dst h s b
  rw [worth_of_none hdst] at hh
  refine ⟨Nat.zero_le 1, by omega, by rw [handles_ifCtrl]; exact hh, hw, ?_⟩
  rw [hf]
  simp [setWeak]

omit [DecidableEq S] in
/-- What the assignments begin with. -/
theorem effect_release (s : Store B S W) (dst : W) (h : BlockHandle B) (b : B) :
    let t := setWeak dst h (ifCtrl releaseWeak (s.weak dst) s)
    handles t b + worth (s.weak dst) b = handles s b + worth h b ∧
      (t.blocks b).weakCount = (s.blocks b).weakCount - worth (s.weak dst) b ∧
      (t.blocks b).freed = (s.blocks b).freed +
        if worth (s.weak dst) b = 1 ∧ (s.blocks b).weakCount = 1 then 1 else 0 := by
  obtain ⟨hw, hf⟩ := weakCount_releaseWeak (s.weak dst) s b
  have hh := handles_setWeak dst h (ifCtrl releaseWeak (s.weak dst) s) b
  rw [handles_ifCtrl, ifCtrl_weak] at hh
  exact ⟨hh, hw, hf⟩

omit [DecidableEq S] in
/-- A handle that moves leaves its slot empty. -/
theorem handles_moved (s : Store B S W) {dst src : W} (hne : dst ≠ src) (b : B) :
    handles (setWeak src .null (setWeak dst (s.weak src) s)) b + worth (s.weak dst) b =
      handles s b := by
  have hdst := handles_setWeak dst (s.weak src) s b
  have hsrc := handles_setWeak src .null (setWeak dst (s.weak src) s) b
  have hsame : (setWeak dst (s.weak src) s).weak src = s.weak src := update_of_ne hne.symm _ _
  rw [hsame, worth_null] at hsrc
  omega

omit [DecidableEq S] in
theorem effect_convert {op : Conversion S W} (hv : op.Valid s) (hop : ¬ Uncounted s op) (b : B) :
    ∃ out copied, Effect s (convert s op) b out copied := by
  cases op with
  | construct dst src =>
    obtain ⟨hdst, hne⟩ := hv
    refine ⟨0, worth (s.weak src) b, ?_⟩
    have heff := effect_construct hdst b (worth_weak_le s src b)
    simpa [convert, setWeak] using heff
  | constructShared dst src =>
    refine ⟨0, worth (s.shared src) b, ?_⟩
    have heff := effect_construct hv b (worth_shared_le s src b)
    simpa [convert, setWeak] using heff
  | moveConstruct dst src =>
    obtain ⟨hdst, hne⟩ := hv
    have hh := handles_moved s hne b
    rw [worth_of_none hdst] at hh
    exact ⟨0, 0, Nat.zero_le 1, Nat.zero_le _, hh, rfl, rfl⟩
  | assignShared dst src =>
    obtain ⟨hh, hw, hf⟩ := effect_release s dst (s.shared src) b
    obtain ⟨hw', hf'⟩ := weakCount_addWeak (s.shared src)
      (setWeak dst (s.shared src) (ifCtrl releaseWeak (s.weak dst) s)) b
    refine ⟨worth (s.weak dst) b, worth (s.shared src) b, worth_le_one _ b,
      worth_weak_shared_le s dst src b, ?_, ?_, ?_⟩
    · simpa [convert, setWeak] using hh
    · rw [← hw, ← hw']
      simp [convert, setWeak]
    · rw [← hf, ← hf']
      simp [convert, setWeak]
  | assign dst src =>
    have hsrc : (s.weak src).ctrl = none := by
      by_contra hne
      exact hop ⟨dst, src, rfl, hne⟩
    obtain ⟨hh, hw, hf⟩ := effect_release s dst (s.weak src) b
    refine ⟨worth (s.weak dst) b, worth (s.weak src) b, worth_le_one _ b,
      worth_weak_weak_le s hv b, ?_, ?_, ?_⟩
    · simpa [convert] using hh
    · rw [worth_of_none hsrc, Nat.add_zero, ← hw]
      simp [convert]
    · rw [← hf]
      simp [convert]
  | moveAssign dst src =>
    obtain ⟨-, hw, hf⟩ := effect_release s dst (s.weak src) b
    have hh := handles_moved (ifCtrl releaseWeak (s.weak dst) s) hv b
    rw [handles_ifCtrl, ifCtrl_weak] at hh
    refine ⟨worth (s.weak dst) b, 0, worth_le_one _ b, worth_weak_le s dst b, ?_, ?_, ?_⟩
    · simpa [convert] using hh
    · rw [Nat.add_zero, ← hw]
      simp [convert]
    · rw [← hf]
      simp [convert]

/-- Destructions, one after the other. -/
theorem foldl_destroy (hs : Counted s) (ds : List (Destruction S W)) :
    Counted (ds.foldl destroy s) ∧ ∀ b, Frees s (ds.foldl destroy s) b := by
  induction ds generalizing s with
  | nil => exact ⟨hs, fun _ => Frees.rfl⟩
  | cons d ds ih =>
    have hstep (b : B) : (((destroy s d).blocks b).weakCount = handles (destroy s d) b) ∧
        Frees s (destroy s d) b := by
      obtain ⟨out, heff⟩ := effect_destroy s d b
      exact ⟨heff.counted (hs b), heff.frees (hs b)⟩
    obtain ⟨hcount, hfree⟩ := ih (fun b => (hstep b).1)
    exact ⟨hcount, fun b => (hstep b).2.trans (hfree b)⟩

omit [DecidableEq S] in
/-- The counter misses the new handle on its block. -/
theorem not_counted_of_uncounted (hs : Counted s) {op : Conversion S W} (hv : op.Valid s)
    (hop : Uncounted s op) : ¬ Counted (convert s op) := by
  obtain ⟨dst, src, rfl, hsrc⟩ := hop
  obtain ⟨b, hb⟩ := Option.ne_none_iff_exists'.mp hsrc
  intro hcount
  obtain ⟨hh, hw, -⟩ := effect_release s dst (s.weak src) b
  have hworth : worth (s.weak src) b = 1 := if_pos hb
  have hle := worth_weak_weak_le s hv b
  have hsb := hs b
  have htb := hcount b
  simp only [convert, ifCtrl_weak] at htb
  omega

/-- A conversion keeps the counts, through all destructions that follow, unless it is the copy
assignment from a `weak_ptr` that is not empty. -/
theorem conversion_counts_iff (hs : Counted s) {op : Conversion S W} (hv : op.Valid s) :
    (∀ ds : List (Destruction S W), Counted (ds.foldl destroy (convert s op)) ∧
      ∀ b, Frees s (ds.foldl destroy (convert s op)) b) ↔ ¬ Uncounted s op := by
  constructor
  · intro h hop
    exact not_counted_of_uncounted hs hv hop (h []).1
  · intro hop ds
    have hstep (b : B) : ((convert s op).blocks b).weakCount = handles (convert s op) b ∧
        Frees s (convert s op) b := by
      obtain ⟨out, copied, heff⟩ := effect_convert hv hop b
      exact ⟨heff.counted (hs b), heff.frees (hs b)⟩
    obtain ⟨hcount, hfree⟩ := foldl_destroy (fun b => (hstep b).1) ds
    exact ⟨hcount, fun b => (hstep b).2.trans (hfree b)⟩

end Members

/-- One shared handle, an empty weak one, and a weak one, on one block. -/
def sharedAndWeak : Store Unit (Fin 1) (Fin 2) where
  blocks _ := ⟨1, 2, 0, 0⟩
  shared _ := ⟨1, some ()⟩
  weak i := if i = 0 then .null else ⟨1, some ()⟩

theorem conversion_counts_iff_moveAssign :
    Counted sharedAndWeak ∧ Conversion.Valid sharedAndWeak (.moveAssign 0 1) ∧
      ((∀ ds : List (Destruction (Fin 1) (Fin 2)),
        Counted (ds.foldl destroy (convert sharedAndWeak (.moveAssign 0 1))) ∧
          ∀ b, Frees sharedAndWeak (ds.foldl destroy (convert sharedAndWeak (.moveAssign 0 1))) b) ↔
        ¬ Uncounted sharedAndWeak (.moveAssign 0 1)) :=
  have hs : Counted sharedAndWeak := by unfold Counted; decide
  have hv : Conversion.Valid sharedAndWeak (.moveAssign 0 1) := by unfold Conversion.Valid; decide
  ⟨hs, hv, conversion_counts_iff hs hv⟩

/-- The copied handle outlives its control block. -/
theorem assign_frees_early :
    Counted sharedAndWeak ∧ Conversion.Valid sharedAndWeak (.assign 0 1) ∧
      ¬ (∀ ds : List (Destruction (Fin 1) (Fin 2)),
        Counted (ds.foldl destroy (convert sharedAndWeak (.assign 0 1))) ∧
          ∀ b, Frees sharedAndWeak (ds.foldl destroy (convert sharedAndWeak (.assign 0 1))) b) := by
  refine ⟨by unfold Counted; decide, by unfold Conversion.Valid; decide, fun h => ?_⟩
  have hfreed := ((h [.shared 0, .weak 1]).2 ()).freed
  revert hfreed
  decide

end IceKernel.Libcxx.Conversions
