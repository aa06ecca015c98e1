import IceKernel.Libcxx.SharedPtr
import Mathlib.Algebra.BigOperators.Group.Finset.Piecewise

/-!
# The counts of a control block

Every agent has a share of each count: what its handles are worth, corrected
by the part of its running operation that is already done or still to come.
-/

namespace IceKernel.Libcxx
open Function Shares

/-! ## Handles -/

section Counting

variable {I : Type} [Fintype I]

/-- How many of the slots hold a handle of the block. -/
def handleCount (f : I → Handle) : ℕ := (Finset.univ.filter fun i => (f i).ctrl).card

theorem handleCount_eq_sum (f : I → Handle) : handleCount f = ∑ i, (f i).ctrl.toNat := by
  rw [handleCount, Finset.card_filter]
  refine Finset.sum_congr rfl fun i _ => ?_
  cases (f i).ctrl <;> rfl

theorem handleCount_pos {f : I → Handle} {i : I} (h : (f i).ctrl = true) : 1 ≤ handleCount f :=
  Finset.card_pos.mpr ⟨i, by simp [h]⟩

theorem handleCount_eq_zero (f : I → Handle) : handleCount f = 0 ↔ ∀ i, (f i).ctrl = false := by
  simp [handleCount]

theorem handleCount_update [DecidableEq I] (f : I → Handle) (i : I) (x : Handle) :
    handleCount (update f i x) + (f i).ctrl.toNat = handleCount f + x.ctrl.toNat := by
  rw [handleCount_eq_sum, handleCount_eq_sum]
  exact sum_update_add (fun h => h.ctrl.toNat) f i x

theorem toNat_le_handleCount (f : I → Handle) (i : I) : (f i).ctrl.toNat ≤ handleCount f := by
  rw [handleCount_eq_sum]
  exact share_le (fun i => (f i).ctrl.toNat) i

/-- With one handle gone, another one still counts. -/
theorem lt_handleCount [DecidableEq I] {f : I → Handle} {i j : I} (hne : i ≠ j)
    (h : (f j).ctrl = true) : (f i).ctrl.toNat < handleCount f := by
  have hgone := handleCount_update f i .null
  have hpos : 1 ≤ handleCount (update f i .null) :=
    handleCount_pos (i := j) (by rw [update_of_ne hne.symm, h])
  simp only [Handle.null, Bool.toNat_false] at hgone hpos
  omega

/-- A handle that moves is counted where it goes. -/
theorem handleCount_move [DecidableEq I] (f : I → Handle) {dst src : I} (ptr : ℕ)
    (hself : dst = src → (f dst).ctrl = false) :
    handleCount (update (update f dst ⟨ptr, (f src).ctrl⟩) src .null) + (f dst).ctrl.toNat =
      handleCount f := by
  have hwrite := handleCount_update f dst ⟨ptr, (f src).ctrl⟩
  have hclear := handleCount_update (update f dst ⟨ptr, (f src).ctrl⟩) src .null
  by_cases heq : dst = src
  · subst heq
    rw [update_self] at hclear
    have hvacant := hself rfl
    simp only [Handle.null, hvacant, Bool.toNat_false] at hwrite hclear ⊢
    omega
  · rw [update_of_ne (Ne.symm heq)] at hclear
    simp only [Handle.null, Bool.toNat_false] at hwrite hclear ⊢
    omega

end Counting

/-! ## Handles that stay -/

section Keeping

variable {S W : Type}

/-- The agent has a handle there that the rest of its operation does not write. -/
def KeepsShared (h : Handles S W) (p : List (Micro S W)) (i : S) : Prop :=
  (h.shared i).ctrl = true ∧ ∀ m ∈ p, m.writesShared ≠ some i

def KeepsWeak (h : Handles S W) (p : List (Micro S W)) (i : W) : Prop :=
  (h.weak i).ctrl = true ∧ ∀ m ∈ p, m.writesWeak ≠ some i

variable {h h' : Handles S W} {m : Micro S W} {p : List (Micro S W)}

theorem KeepsShared.after {i : S} (hi : KeepsShared h (m :: p) i)
    (hsame : h'.shared i = h.shared i) : KeepsShared h' p i :=
  ⟨hsame ▸ hi.1, fun m' hm' => hi.2 m' (List.mem_cons_of_mem _ hm')⟩

theorem KeepsWeak.after {i : W} (hi : KeepsWeak h (m :: p) i)
    (hsame : h'.weak i = h.weak i) : KeepsWeak h' p i :=
  ⟨hsame ▸ hi.1, fun m' hm' => hi.2 m' (List.mem_cons_of_mem _ hm')⟩

end Keeping

/-! ## Shares -/

variable {S W : Type} [Fintype S] [Fintype W] [DecidableEq S] [DecidableEq W]

/-- The agent has the shares `r` and `w` of the two counts: every step left may rely on
what it needs of them, and in the end they are the numbers of its handles. -/
def Balanced : ℕ → ℕ → Handles S W → List (Micro S W) → Prop
  | r, w, h, [] =>
    r = handleCount h.shared ∧ w = handleCount h.shared + handleCount h.weak
  | r, w, h, .addRef :: rest => 1 ≤ r ∧ Balanced (r + 1) w h rest
  | r, w, h, .addWeak :: rest => 1 ≤ w ∧ Balanced r (w + 1) h rest
  | r, w, h, .subRef :: rest => 1 ≤ r ∧ 1 ≤ w ∧ Balanced (r - 1) w h rest
  | r, w, h, .deleter :: rest => 1 ≤ w ∧ Balanced r w h rest
  | r, w, h, .subWeak :: rest => 1 ≤ w ∧ Balanced r (w - 1) h rest
  | r, w, h, .free :: rest => Balanced r w h rest
  | r, w, h, .setShared dst x :: rest => Balanced r w (h.setShared dst x) rest
  | r, w, h, .moveShared dst src ptr :: rest =>
    ((h.shared src).ctrl = true → 1 ≤ r) ∧
      Balanced r w ((h.setShared dst ⟨ptr, (h.shared src).ctrl⟩).setShared src .null) rest
  | r, w, h, .setWeak dst x :: rest => Balanced r w (h.setWeak dst x) rest
  | r, w, h, .moveWeak dst src :: rest =>
    ((h.weak src).ctrl = true → 1 ≤ w) ∧
      Balanced r w ((h.setWeak dst (h.weak src)).setWeak src .null) rest
  -- a lock may end either way
  | r, w, h, .lockLoad dst ptr :: rest =>
    1 ≤ w ∧ Balanced r w (h.setShared dst .null) rest ∧
      Balanced (r + 1) (w + 1) (h.setShared dst ⟨ptr, true⟩) rest
  | r, w, h, .lockExchange count dst ptr :: rest =>
    1 ≤ count ∧ 1 ≤ w ∧ Balanced r w (h.setShared dst .null) rest ∧
      Balanced (r + 1) (w + 1) (h.setShared dst ⟨ptr, true⟩) rest
  | r, w, h, .lockReturn dst x :: rest =>
    (x.ctrl = true → 1 ≤ r) ∧ Balanced r w (h.setShared dst x) rest

section Shares

variable {r w : ℕ} {h : Handles S W} {p : List (Micro S W)}

/-- Whoever has a share of the references has one of the weak count. -/
theorem Balanced.weak_pos (hb : Balanced r w h p) (hr : 1 ≤ r) : 1 ≤ w := by
  induction p generalizing r w h with
  | nil =>
    obtain ⟨hr', hw⟩ := hb
    omega
  | cons m rest ih =>
    cases m with
    | addRef => exact ih hb.2 (Nat.le_add_left 1 r)
    | addWeak | deleter | subWeak | lockLoad => exact hb.1
    | subRef | lockExchange => exact hb.2.1
    | free | setShared | setWeak => exact ih hb hr
    | moveShared | moveWeak | lockReturn => exact ih hb.2 hr

/-- Whoever will still touch the block has a share of the weak count, unless it is to free it. -/
theorem Balanced.touch_pos (hb : Balanced r w h p) {m : Micro S W} (hm : m ∈ p)
    (ht : m.touches = true) (hfree : m ≠ .free) : 1 ≤ w := by
  induction p generalizing r w h with
  | nil => nomatch hm
  | cons m' rest ih =>
    cases m' with
    | addRef => exact hb.2.weak_pos (Nat.le_add_left 1 r)
    | addWeak | deleter | subWeak | lockLoad => exact hb.1
    | subRef | lockExchange => exact hb.2.1
    | free =>
      obtain rfl | hm := List.mem_cons.mp hm
      · exact absurd rfl hfree
      · exact ih hb hm
    | setShared | setWeak =>
      obtain rfl | hm := List.mem_cons.mp hm
      · nomatch ht
      · exact ih hb hm
    | moveShared | moveWeak | lockReturn =>
      obtain rfl | hm := List.mem_cons.mp hm
      · nomatch ht
      · exact ih hb.2 hm

/-- Whoever keeps a shared handle has a share of the references. -/
theorem Balanced.keepsShared (hb : Balanced r w h p) {i : S} (hi : KeepsShared h p i) :
    1 ≤ r := by
  induction p generalizing r w h with
  | nil => exact hb.1 ▸ handleCount_pos hi.1
  | cons m rest ih =>
    -- a step that writes another slot leaves the handle where it is
    have hset (dst : S) (x : Handle) (hw : m.writesShared = some dst) :
        KeepsShared (h.setShared dst x) rest i := by
      have hne : i ≠ dst := fun heq => hi.2 m List.mem_cons_self (heq ▸ hw)
      exact hi.after (by rw [setShared_shared, update_of_ne hne])
    cases m with
    | addRef => exact hb.1
    | addWeak => exact ih hb.2 (hi.after rfl)
    | subRef => exact hb.1
    | deleter => exact ih hb.2 (hi.after rfl)
    | subWeak => exact ih hb.2 (hi.after rfl)
    | free => exact ih hb (hi.after rfl)
    | setShared dst x => exact ih hb (hset dst x rfl)
    | moveShared dst src ptr =>
      by_cases hsrc : i = src
      · exact hb.1 (hsrc ▸ hi.1)
      · refine ih hb.2 ⟨?_, (hset dst ⟨ptr, (h.shared src).ctrl⟩ rfl).2⟩
        rw [setShared_shared, update_of_ne hsrc]
        exact (hset dst _ rfl).1
    | setWeak => exact ih hb (hi.after rfl)
    | moveWeak => exact ih hb.2 (hi.after rfl)
    | lockLoad dst ptr => exact ih hb.2.1 (hset dst .null rfl)
    | lockExchange count dst ptr => exact ih hb.2.2.1 (hset dst .null rfl)
    | lockReturn dst x => exact ih hb.2 (hset dst x rfl)

/-- Whoever keeps a weak handle has a share of the weak count. -/
theorem Balanced.keepsWeak (hb : Balanced r w h p) {i : W} (hi : KeepsWeak h p i) : 1 ≤ w := by
  induction p generalizing r w h with
  | nil =>
    have hpos := handleCount_pos hi.1
    have hw := hb.2
    omega
  | cons m rest ih =>
    have hset (dst : W) (x : Handle) (hw : m.writesWeak = some dst) :
        KeepsWeak (h.setWeak dst x) rest i := by
      have hne : i ≠ dst := fun heq => hi.2 m List.mem_cons_self (heq ▸ hw)
      exact hi.after (by rw [setWeak_weak, update_of_ne hne])
    cases m with
    | addRef => exact ih hb.2 (hi.after rfl)
    | addWeak | deleter | subWeak | lockLoad => exact hb.1
    | subRef | lockExchange => exact hb.2.1
    | free | setShared => exact ih hb (hi.after rfl)
    | moveShared | lockReturn => exact ih hb.2 (hi.after rfl)
    | setWeak dst x => exact ih hb (hset dst x rfl)
    | moveWeak dst src =>
      by_cases hsrc : i = src
      · exact hb.1 (hsrc ▸ hi.1)
      · refine ih hb.2 ⟨?_, (hset dst (h.weak src) rfl).2⟩
        rw [setWeak_weak, update_of_ne hsrc]
        exact (hset dst _ rfl).1

/-- A lock that returns a handle has its share of the references. -/
theorem Balanced.lock_pos (hb : Balanced r w h p) {dst : S} {x : Handle}
    (hm : .lockReturn dst x ∈ p) (hx : x.ctrl = true) : 1 ≤ r := by
  induction p generalizing r w h with
  | nil => nomatch hm
  | cons m rest ih =>
    cases m with
    | lockReturn dst' x' =>
      obtain heq | hm := List.mem_cons.mp hm
      · cases heq
        exact hb.1 hx
      · exact ih hb.2 hm
    | addRef | subRef => exact hb.1
    | addWeak | deleter | subWeak | moveShared | moveWeak =>
      exact ih hb.2 (by simpa using hm)
    | free | setShared | setWeak => exact ih hb (by simpa using hm)
    | lockLoad => exact ih hb.2.1 (by simpa using hm)
    | lockExchange => exact ih hb.2.2.1 (by simpa using hm)

/-! ## Member functions -/

/-- `shared_ptr::__delete`. -/
theorem Balanced.dropShared {x : Handle} (hr : x.ctrl.toNat ≤ r) (hw : x.ctrl.toNat ≤ w)
    (hb : Balanced (r - x.ctrl.toNat) (w - x.ctrl.toNat) h p) :
    Balanced r w h (ifCtrl x releaseShared ++ p) := by
  rw [ifCtrl]
  by_cases hc : x.ctrl = true
  · rw [hc, Bool.toNat_true] at hr hw hb
    rw [if_pos hc]
    exact ⟨hr, hw, hw, hb⟩
  · rw [Bool.not_eq_true] at hc
    rw [hc] at hb ⊢
    exact hb

/-- `weak_ptr::__delete`. -/
theorem Balanced.dropWeak {x : Handle} (hw : x.ctrl.toNat ≤ w)
    (hb : Balanced r (w - x.ctrl.toNat) h p) : Balanced r w h (ifCtrl x releaseWeak ++ p) := by
  rw [ifCtrl]
  by_cases hc : x.ctrl = true
  · rw [hc, Bool.toNat_true] at hw hb
    rw [if_pos hc]
    exact ⟨hw, hb⟩
  · rw [Bool.not_eq_true] at hc
    rw [hc] at hb ⊢
    exact hb

/-- The shares are those of all handles but the one at `dst`. -/
def PaidShared (r w : ℕ) (h : Handles S W) (dst : S) : Prop :=
  r + (h.shared dst).ctrl.toNat = handleCount h.shared ∧
    w + (h.shared dst).ctrl.toNat = handleCount h.shared + handleCount h.weak

def PaidWeak (r w : ℕ) (h : Handles S W) (dst : W) : Prop :=
  r = handleCount h.shared ∧
    w + (h.weak dst).ctrl.toNat = handleCount h.shared + handleCount h.weak

/-- A slot without a handle costs nothing. -/
theorem Balanced.vacantShared (hb : Balanced r w h []) {dst : S}
    (hd : (h.shared dst).ctrl = false) : PaidShared r w h dst := by
  rw [PaidShared, hd]
  exact hb

theorem Balanced.vacantWeak (hb : Balanced r w h []) {dst : W}
    (hd : (h.weak dst).ctrl = false) : PaidWeak r w h dst := by
  rw [PaidWeak, hd]
  exact hb

/-- An idle agent can pay for any of its handles. -/
theorem Balanced.withoutShared (hb : Balanced r w h []) (dst : S) :
    (h.shared dst).ctrl.toNat ≤ r ∧ (h.shared dst).ctrl.toNat ≤ w ∧
      PaidShared (r - (h.shared dst).ctrl.toNat) (w - (h.shared dst).ctrl.toNat) h dst := by
  obtain ⟨rfl, rfl⟩ := hb
  have hle := toNat_le_handleCount h.shared dst
  exact ⟨hle, by omega, Nat.sub_add_cancel hle, Nat.sub_add_cancel (by omega)⟩

theorem Balanced.withoutWeak (hb : Balanced r w h []) (dst : W) :
    (h.weak dst).ctrl.toNat ≤ w ∧ PaidWeak r (w - (h.weak dst).ctrl.toNat) h dst := by
  obtain ⟨rfl, rfl⟩ := hb
  have hle := toNat_le_handleCount h.weak dst
  exact ⟨by omega, rfl, Nat.sub_add_cancel (by omega)⟩

/-- A new handle at `dst`, with its share. -/
theorem PaidShared.write {dst : S} (hp : PaidShared r w h dst) (x : Handle) :
    Balanced (r + x.ctrl.toNat) (w + x.ctrl.toNat) h [.setShared dst x] := by
  obtain ⟨hr, hw⟩ := hp
  have hset := handleCount_update h.shared dst x
  refine ⟨?_, ?_⟩ <;> rw [setShared_shared]
  · omega
  · rw [setShared_weak]
    omega

theorem PaidWeak.write {dst : W} (hp : PaidWeak r w h dst) (x : Handle) :
    Balanced r (w + x.ctrl.toNat) h [.setWeak dst x] := by
  obtain ⟨hr, hw⟩ := hp
  have hset := handleCount_update h.weak dst x
  refine ⟨hr, ?_⟩
  rw [setWeak_shared, setWeak_weak]
  omega

omit [DecidableEq W] in
/-- Another handle than the one at `dst` has its share. -/
theorem PaidShared.pos {dst src : S} (hp : PaidShared r w h dst)
    (hself : dst = src → (h.shared dst).ctrl = false) (hsrc : (h.shared src).ctrl = true) :
    1 ≤ r := by
  have hne : dst ≠ src := fun heq => by
    rw [← heq, hself heq] at hsrc
    nomatch hsrc
  have hlt := lt_handleCount hne hsrc
  have hr := hp.1
  omega

omit [DecidableEq S] in
theorem PaidWeak.pos {dst src : W} (hp : PaidWeak r w h dst)
    (hself : dst = src → (h.weak dst).ctrl = false) (hsrc : (h.weak src).ctrl = true) :
    1 ≤ w := by
  have hne : dst ≠ src := fun heq => by
    rw [← heq, hself heq] at hsrc
    nomatch hsrc
  have hlt := lt_handleCount hne hsrc
  have hw := hp.2
  omega

/-- The handle is written, then `if (__ctrl) { __ctrl->__add_shared(); }`. -/
theorem PaidShared.copy {dst : S} (hp : PaidShared r w h dst) (ptr : ℕ) {y : Handle}
    (hy : y.ctrl = true → 1 ≤ r) :
    Balanced r w h (.setShared dst ⟨ptr, y.ctrl⟩ :: ifCtrl y addShared) := by
  have hwrite := hp.write ⟨ptr, y.ctrl⟩
  rw [ifCtrl]
  by_cases hc : y.ctrl = true
  · have hr := hy hc
    have hw : 1 ≤ w := by
      obtain ⟨h₁, h₂⟩ := hp
      omega
    rw [hc] at hwrite ⊢
    exact ⟨hr, hw, hwrite⟩
  · rw [Bool.not_eq_true] at hc
    rw [hc] at hwrite ⊢
    exact hwrite

/-- The same with `__ctrl->__add_weak()`. -/
theorem PaidWeak.copy {dst : W} (hp : PaidWeak r w h dst) {y : Handle}
    (hy : y.ctrl = true → 1 ≤ w) :
    Balanced r w h (.setWeak dst y :: ifCtrl y addWeak) := by
  have hwrite := hp.write y
  rw [ifCtrl]
  by_cases hc : y.ctrl = true
  · rw [hc, Bool.toNat_true] at hwrite
    rw [if_pos hc]
    exact ⟨hy hc, hwrite⟩
  · rw [Bool.not_eq_true] at hc
    rw [hc] at hwrite ⊢
    exact hwrite

theorem PaidShared.move {dst src : S} (hp : PaidShared r w h dst) (ptr : ℕ)
    (hself : dst = src → (h.shared dst).ctrl = false) :
    Balanced r w h [.moveShared dst src ptr] := by
  obtain ⟨hr, hw⟩ := hp
  have hmove := handleCount_move h.shared ptr hself
  refine ⟨PaidShared.pos ⟨hr, hw⟩ hself, ?_, ?_⟩ <;> rw [setShared_shared, setShared_shared]
  · omega
  · rw [setShared_weak, setShared_weak]
    omega

theorem PaidWeak.move {dst src : W} (hp : PaidWeak r w h dst)
    (hself : dst = src → (h.weak dst).ctrl = false) : Balanced r w h [.moveWeak dst src] := by
  obtain ⟨hr, hw⟩ := hp
  have hmove : handleCount (update (update h.weak dst (h.weak src)) src .null) +
      (h.weak dst).ctrl.toNat = handleCount h.weak :=
    handleCount_move h.weak (h.weak src).ptr hself
  refine ⟨PaidWeak.pos ⟨hr, hw⟩ hself, hr, ?_⟩
  rw [setWeak_weak, setWeak_weak, setWeak_shared, setWeak_shared]
  omega

/-- The share of an idle agent pays for every member function it may call. -/
theorem Balanced.call (hb : Balanced r w h []) {op : HandleOp S W} (hv : op.valid h = true) :
    Balanced r w h (op.program h) := by
  -- a constructor writes a slot without a handle, the others release theirs first
  have hdrop (dst : S) {p : List (Micro S W)}
      (hp : ∀ r w, PaidShared r w h dst → Balanced r w h p) :
      Balanced r w h (ifCtrl (h.shared dst) releaseShared ++ p) := by
    obtain ⟨hr, hw, hpaid⟩ := hb.withoutShared dst
    exact .dropShared hr hw (hp _ _ hpaid)
  have hdropWeak (dst : W) {p : List (Micro S W)}
      (hp : ∀ r w, PaidWeak r w h dst → Balanced r w h p) :
      Balanced r w h (ifCtrl (h.weak dst) releaseWeak ++ p) := by
    obtain ⟨hw, hpaid⟩ := hb.withoutWeak dst
    exact .dropWeak hw (hp _ _ hpaid)
  have hshared (i : S) (hi : (h.shared i).ctrl = true) : 1 ≤ r :=
    hb.keepsShared ⟨hi, nofun⟩
  have hweak (i : W) (hi : (h.weak i).ctrl = true) : 1 ≤ w := hb.keepsWeak ⟨hi, nofun⟩
  cases op with
  | construct dst => exact (hb.vacantShared (by simpa [HandleOp.valid] using hv)).write .null
  | copyConstruct dst src =>
    exact (hb.vacantShared (by simpa [HandleOp.valid] using hv)).copy _ (hshared src)
  | moveConstruct dst src =>
    have hd : (h.shared dst).ctrl = false := by simpa [HandleOp.valid] using hv
    exact (hb.vacantShared hd).move _ fun _ => hd
  | aliasConstruct dst src ptr =>
    exact (hb.vacantShared (by simpa [HandleOp.valid] using hv)).copy ptr (hshared src)
  | aliasMoveConstruct dst src ptr =>
    have hd : (h.shared dst).ctrl = false := by simpa [HandleOp.valid] using hv
    exact (hb.vacantShared hd).move ptr fun _ => hd
  | copyAssign dst src =>
    rw [HandleOp.program]
    split_ifs with hself
    · exact hb
    · exact hdrop dst fun r w hp => hp.copy _ (hp.pos fun heq => absurd heq hself)
  | moveAssign dst src =>
    rw [HandleOp.program]
    split_ifs with hself
    · exact hb
    · exact hdrop dst fun r w hp => hp.move _ fun heq => absurd heq hself
  | assignNull dst => exact hdrop dst fun r w hp => hp.write .null
  | destroy dst => exact hdrop dst fun r w hp => hp.write .null
  | constructWeak dst => exact (hb.vacantWeak (by simpa [HandleOp.valid] using hv)).write .null
  | copyConstructWeak dst src =>
    exact (hb.vacantWeak (by simpa [HandleOp.valid] using hv)).copy (hweak src)
  | constructWeakFrom dst src =>
    exact (hb.vacantWeak (by simpa [HandleOp.valid] using hv)).copy fun hs =>
      hb.weak_pos (hshared src hs)
  | moveConstructWeak dst src =>
    have hd : (h.weak dst).ctrl = false := by simpa [HandleOp.valid] using hv
    exact (hb.vacantWeak hd).move fun _ => hd
  | copyAssignWeak dst src =>
    rw [HandleOp.program]
    split_ifs with hself
    · exact hb
    · exact hdropWeak dst fun r w hp => hp.copy (hp.pos fun heq => absurd heq hself)
  | moveAssignWeak dst src =>
    rw [HandleOp.program]
    split_ifs with hself
    · exact hb
    · exact hdropWeak dst fun r w hp => hp.move fun heq => absurd heq hself
  | reset dst => exact hdropWeak dst fun r w hp => hp.write .null
  | destroyWeak dst => exact hdropWeak dst fun r w hp => hp.write .null
  | lock dst src =>
    have hp : PaidShared r w h dst := hb.vacantShared (by simpa [HandleOp.valid] using hv)
    rw [HandleOp.program]
    split_ifs with hsrc
    · exact ⟨hweak src hsrc, hp.write .null,
        hp.write ⟨(h.weak src).ptr, true⟩⟩
    · exact ⟨nofun, hp.write .null⟩

end Shares

end IceKernel.Libcxx
