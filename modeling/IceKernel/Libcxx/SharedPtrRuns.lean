import IceKernel.Libcxx.SharedPtrCounts

/-!
# Interleaved runs on one control block

The counts are the sums of the agents' shares at every point of every run.
-/

namespace IceKernel.Libcxx
open Function Shares

/-- One for a count that is down to zero. -/
def zeroed (n : ℕ) : ℕ := if n = 0 then 1 else 0

theorem zeroed_of_pos {n : ℕ} (h : 1 ≤ n) : zeroed n = 0 := if_neg (by omega)

section Step

variable {S W : Type} [Fintype S] [Fintype W] [DecidableEq S] [DecidableEq W]

/-- A step from shares `r`, `w` to shares `r'`, `w'`: the counts change with them, and the
deleter or the release of the block comes due when its count reaches zero. -/
structure Settles (b : CtrlBlock) (r w : ℕ) (p : List (Micro S W)) (l : Local S W)
    (r' w' : ℕ) : Prop where
  balanced : Balanced r' w' l.handles l.rest
  refs : l.block.refCount + r = b.refCount + r'
  weaks : l.block.weakCount + w = b.weakCount + w'
  deletes : l.block.deleted + l.rest.count .deleter + zeroed b.refCount =
    b.deleted + p.count .deleter + zeroed l.block.refCount
  frees : l.block.freed + l.rest.count .free + zeroed b.weakCount =
    b.freed + p.count .free + zeroed l.block.weakCount

variable {r w : ℕ} {h : Handles S W} {m : Micro S W} {p : List (Micro S W)} {b : CtrlBlock}

/-- A step that leaves the block alone. -/
theorem Settles.quiet {h' : Handles S W} {p' : List (Micro S W)} (hb : Balanced r w h' p')
    (hd : p'.count .deleter = p.count .deleter) (hf : p'.count .free = p.count .free) :
    Settles b r w p ⟨b, h', p'⟩ r w :=
  ⟨hb, rfl, rfl, by rw [hd], by rw [hf]⟩

omit [Fintype S] [Fintype W] in
/-- The step that takes a count to zero puts what is then due in front. -/
theorem count_due {n : ℕ} (hn : 1 ≤ n) (m : Micro S W) :
    (if n = 1 then m :: p else p).count m = p.count m + zeroed (n - 1) := by
  by_cases hlast : n = 1
  · rw [if_pos hlast, List.count_cons_self, hlast]
    rfl
  · rw [if_neg hlast, zeroed_of_pos (by omega)]
    rfl

omit [Fintype S] [Fintype W] in
theorem count_due_other (n : ℕ) {m m' : Micro S W} (hne : m ≠ m') :
    (if n = 1 then m :: p else p).count m' = p.count m' := by
  split_ifs
  · exact List.count_cons_of_ne hne
  · rfl

theorem Balanced.step (hb : Balanced r w h (m :: p)) (hr : r ≤ b.refCount)
    (hw : w ≤ b.weakCount) (spurious : Bool) :
    ∃ r' w', Settles b r w (m :: p) (exec spurious b h p m) r' w' := by
  cases m with
  | addRef =>
    have hpos := zeroed_of_pos (hb.1.trans hr)
    have hpos' := zeroed_of_pos (Nat.le_add_left 1 b.refCount)
    exact ⟨r + 1, w, hb.2, Nat.add_right_comm _ _ _, rfl, by simp [exec, hpos, hpos'],
      by simp [exec]⟩
  | addWeak =>
    have hpos := zeroed_of_pos (hb.1.trans hw)
    have hpos' := zeroed_of_pos (Nat.le_add_left 1 b.weakCount)
    exact ⟨r, w + 1, hb.2, rfl, Nat.add_right_comm _ _ _, by simp [exec],
      by simp [exec, hpos, hpos']⟩
  | subRef =>
    obtain ⟨hr1, hw1, hrest⟩ := hb
    have hpos := zeroed_of_pos (hr1.trans hr)
    refine ⟨r - 1, w, ?_, ?_, rfl, ?_, ?_⟩ <;> simp only [exec]
    · split_ifs
      · exact ⟨hw1, hrest⟩
      · exact hrest
    · omega
    · have hdue := count_due (p := p) (hr1.trans hr) .deleter
      have hcons : (.subRef :: p : List (Micro S W)).count .deleter = p.count .deleter := by simp
      omega
    · have hdue := count_due_other (p := p) b.refCount (by simp : .deleter ≠ (.free : Micro S W))
      have hcons : (.subRef :: p : List (Micro S W)).count .free = p.count .free := by simp
      omega
  | subWeak =>
    obtain ⟨hw1, hrest⟩ := hb
    have hpos := zeroed_of_pos (hw1.trans hw)
    refine ⟨r, w - 1, ?_, rfl, ?_, ?_, ?_⟩ <;> simp only [exec]
    · split_ifs
      · exact hrest
      · exact hrest
    · omega
    · have hdue := count_due_other (p := p) b.weakCount (by simp : .free ≠ (.deleter : Micro S W))
      have hcons : (.subWeak :: p : List (Micro S W)).count .deleter = p.count .deleter := by simp
      omega
    · have hdue := count_due (p := p) (hw1.trans hw) .free
      have hcons : (.subWeak :: p : List (Micro S W)).count .free = p.count .free := by simp
      omega
  | deleter =>
    exact ⟨r, w, hb.2, rfl, rfl, by simp only [exec, List.count_cons_self]; omega, by simp [exec]⟩
  | free =>
    exact ⟨r, w, hb, rfl, rfl, by simp [exec], by simp only [exec, List.count_cons_self]; omega⟩
  | setShared dst x => exact ⟨r, w, .quiet hb (by simp) (by simp)⟩
  | moveShared dst src ptr => exact ⟨r, w, .quiet hb.2 (by simp) (by simp)⟩
  | setWeak dst x => exact ⟨r, w, .quiet hb (by simp) (by simp)⟩
  | moveWeak dst src => exact ⟨r, w, .quiet hb.2 (by simp) (by simp)⟩
  | lockReturn dst x => exact ⟨r, w, .quiet hb.2 (by simp) (by simp)⟩
  | lockLoad dst ptr =>
    obtain ⟨hw1, hnull, hfull⟩ := hb
    rw [exec]
    by_cases hz : b.refCount = 0
    · rw [if_pos hz]
      exact ⟨r, w, .quiet ⟨(absurd · Bool.false_ne_true), hnull⟩ (by simp) (by simp)⟩
    · rw [if_neg hz]
      exact ⟨r, w, .quiet ⟨Nat.pos_of_ne_zero hz, hw1, hnull, hfull⟩ (by simp) (by simp)⟩
  | lockExchange count dst ptr =>
    obtain ⟨hc, hw1, hnull, hfull⟩ := hb
    rw [exec]
    by_cases hok : b.refCount = count ∧ spurious = false
    · rw [if_pos hok]
      obtain ⟨rfl, -⟩ := hok
      have hpos := zeroed_of_pos hc
      have hpos' := zeroed_of_pos (Nat.le_add_left 1 b.refCount)
      exact ⟨r + 1, w, ⟨hw1, fun _ => Nat.le_add_left 1 r, hfull⟩, Nat.add_right_comm _ _ _, rfl,
        by simp [addWeak, hpos, hpos'], by simp [addWeak]⟩
    · rw [if_neg hok]
      exact ⟨r, w, .quiet ⟨hw1, hnull, hfull⟩ (by simp) (by simp)⟩

omit [Fintype S] [Fintype W] in
/-- No member function begins with the deleter or the release due. -/
theorem program_count (h : Handles S W) (op : HandleOp S W) :
    (op.program h).count .deleter = 0 ∧ (op.program h).count .free = 0 := by
  have hif (x : Handle) {q : List (Micro S W)} (hq : .deleter ∉ q ∧ .free ∉ q) :
      .deleter ∉ ifCtrl x q ∧ .free ∉ ifCtrl x q := by
    rw [ifCtrl]
    split_ifs
    · exact hq
    · exact ⟨List.not_mem_nil, List.not_mem_nil⟩
  have hadd (x : Handle) := hif x (q := addShared) (by simp [addShared, addWeak])
  have haddWeak (x : Handle) := hif x (q := addWeak) (by simp [addWeak])
  have hrel (x : Handle) := hif x (q := releaseShared) (by simp [releaseShared, releaseWeak])
  have hrelWeak (x : Handle) := hif x (q := releaseWeak) (by simp [releaseWeak])
  rw [List.count_eq_zero, List.count_eq_zero]
  cases op with
  | copyAssign | moveAssign | copyAssignWeak | moveAssignWeak | lock =>
    rw [HandleOp.program]
    split_ifs <;> simp [hadd, haddWeak, hrel, hrelWeak]
  | _ =>
    simp [HandleOp.program, hadd, haddWeak, hrel, hrelWeak]

end Step

/-! ## All agents -/

section Runs

variable {A S W : Type} [Fintype A] [Fintype S] [Fintype W] [DecidableEq A] [DecidableEq S]
  [DecidableEq W]

/-- The counts are the sums of the shares `r` and `w`. The deleter has run or is due if and
only if there is no reference left, and so with the release of the block. -/
structure Counted (s : PtrState A S W) (r w : A → ℕ) : Prop where
  balanced : ∀ a, Balanced (r a) (w a) (s.handles a) (s.program a)
  refs : s.block.refCount = ∑ a, r a
  weaks : s.block.weakCount = ∑ a, w a
  deletes : s.block.deleted + ∑ a, (s.program a).count .deleter = zeroed s.block.refCount
  frees : s.block.freed + ∑ a, (s.program a).count .free = zeroed s.block.weakCount

variable {s : PtrState A S W} {r w : A → ℕ}

/-- One agent's step settles the counts. -/
theorem Counted.settle (hc : Counted s r w) {a : A} {l : Local S W} {r' w' : ℕ}
    (hl : Settles s.block (r a) (w a) (s.program a) l r' w') :
    Counted ⟨l.block, update s.handles a l.handles, update s.program a l.rest⟩
      (update r a r') (update w a w') := by
  have hr := sum_update_add id r a r'
  have hw := sum_update_add id w a w'
  have hd := sum_update_add (List.count .deleter) s.program a l.rest
  have hf := sum_update_add (List.count .free) s.program a l.rest
  obtain ⟨hb, hrefs, hweaks, hdeletes, hfrees⟩ := hl
  obtain ⟨hbs, hrs, hws, hds, hfs⟩ := hc
  simp only [id_eq] at hr hw
  refine ⟨fun b => ?_, ?_, ?_, ?_, ?_⟩ <;> dsimp only
  · by_cases hba : b = a
    · subst hba
      simpa only [update_self] using hb
    · simpa only [update_of_ne hba] using hbs b
  · omega
  · omega
  · omega
  · omega

/-- A handle changes hands with its share. -/
theorem Counted.give (hc : Counted s r w) {a b : A} (hne : a ≠ b) {ha hb : Handles S W} {k j : ℕ}
    (hka : k ≤ r a) (hja : j ≤ w a) (hbalA : Balanced (r a - k) (w a - j) ha (s.program a))
    (hbalB : Balanced (r b + k) (w b + j) hb (s.program b)) :
    Counted { s with handles := update (update s.handles a ha) b hb }
      (update (update r a (r a - k)) b (r b + k)) (update (update w a (w a - j)) b (w b + j)) := by
  refine ⟨fun c => ?_, ?_, ?_, hc.deletes, hc.frees⟩
  · by_cases hcb : c = b
    · subst hcb
      simpa only [update_self] using hbalB
    · by_cases hca : c = a
      · subst hca
        simpa only [update_of_ne hcb, update_self] using hbalA
      · simpa only [update_of_ne hcb, update_of_ne hca] using hc.balanced c
  · rw [sum_transfer r hne hka]
    exact hc.refs
  · rw [sum_transfer w hne hja]
    exact hc.weaks

theorem Counted.step (hc : Counted s r w) {e : PtrEvent A S W} {s' : PtrState A S W}
    (h : ptrStep s e = some s') : ∃ r' w', Counted s' r' w' := by
  cases e with
  | call a op =>
    rw [ptrStep] at h
    split_ifs at h with hok
    obtain rfl := Option.some.inj h
    have hb := hc.balanced a
    have hcount := program_count (s.handles a) op
    rw [hok.1] at hb
    have hl : Settles s.block (r a) (w a) (s.program a)
        ⟨s.block, s.handles a, op.program (s.handles a)⟩ (r a) (w a) :=
      .quiet (hb.call hok.2) (by rw [hcount.1, hok.1]; rfl) (by rw [hcount.2, hok.1]; rfl)
    have hc' := hc.settle hl
    rw [update_eq_self] at hc'
    exact ⟨_, _, hc'⟩
  | step a spurious =>
    rw [ptrStep] at h
    split at h
    · nomatch h
    · rename_i m rest hprog
      obtain rfl := Option.some.inj h
      have hb := hc.balanced a
      rw [hprog] at hb
      obtain ⟨r', w', hl⟩ := hb.step (hc.refs ▸ share_le r a) (hc.weaks ▸ share_le w a) spurious
      rw [← hprog] at hl
      exact ⟨_, _, hc.settle hl⟩
  | giveShared a src b dst =>
    rw [ptrStep] at h
    split_ifs at h with hok
    obtain rfl := Option.some.inj h
    obtain ⟨hne, hpa, hpb, hvacant⟩ := hok
    have hba := hc.balanced a
    have hbb := hc.balanced b
    rw [hpa] at hba
    rw [hpb] at hbb
    obtain ⟨hra, hwa, hpaid⟩ := hba.withoutShared src
    have hgive := hpaid.write .null
    have htake := (hbb.vacantShared hvacant).write ((s.handles a).shared src)
    exact ⟨_, _, hc.give hne hra hwa (by rw [hpa]; exact hgive) (by rw [hpb]; exact htake)⟩
  | giveWeak a src b dst =>
    rw [ptrStep] at h
    split_ifs at h with hok
    obtain rfl := Option.some.inj h
    obtain ⟨hne, hpa, hpb, hvacant⟩ := hok
    have hba := hc.balanced a
    have hbb := hc.balanced b
    rw [hpa] at hba
    rw [hpb] at hbb
    obtain ⟨hwa, hpaid⟩ := hba.withoutWeak src
    have hgive := hpaid.write .null
    have htake := (hbb.vacantWeak hvacant).write ((s.handles a).weak src)
    exact ⟨_, _, hc.give hne (Nat.zero_le _) hwa (by rw [hpa]; exact hgive)
      (by rw [hpb]; exact htake)⟩

omit [Fintype S] [Fintype W] [DecidableEq A] in
/-- What is due of nothing left is due nowhere, and was not done. -/
theorem due_nowhere {done n : ℕ} {m : Micro S W}
    (h : done + ∑ a, (s.program a).count m = zeroed n) (hn : 1 ≤ n) :
    done = 0 ∧ ∀ a, m ∉ s.program a := by
  rw [zeroed_of_pos hn, Nat.add_eq_zero_iff, Finset.sum_eq_zero_iff] at h
  exact ⟨h.1, fun a => List.count_eq_zero.mp (h.2 a (Finset.mem_univ a))⟩

omit [DecidableEq A] in
theorem Counted.alive (hc : Counted s r w) {a : A} (hr : 1 ≤ r a) :
    s.block.deleted = 0 ∧ ∀ b, .deleter ∉ s.program b := by
  have hle := share_le r a
  exact due_nowhere hc.deletes (hc.refs ▸ hr.trans hle)

omit [DecidableEq A] in
theorem Counted.allocated (hc : Counted s r w) {a : A} (hw : 1 ≤ w a) :
    s.block.freed = 0 ∧ ∀ b, .free ∉ s.program b := by
  have hle := share_le w a
  exact due_nowhere hc.frees (hc.weaks ▸ hw.trans hle)

omit [DecidableEq A] in
/-- Once the block is freed, or about to be, no agent has a share of either count. -/
theorem Counted.no_shares (hc : Counted s r w)
    (hf : s.block.freed ≠ 0 ∨ ∃ a, .free ∈ s.program a) (a : A) : r a = 0 ∧ w a = 0 := by
  have hw : w a = 0 := by
    by_contra hne
    obtain ⟨hfreed, hdue⟩ := hc.allocated (Nat.pos_of_ne_zero hne)
    obtain hf | ⟨b, hb⟩ := hf
    · exact hf hfreed
    · exact hdue b hb
  refine ⟨?_, hw⟩
  by_contra hne
  have hpos := (hc.balanced a).weak_pos (Nat.pos_of_ne_zero hne)
  omega

/-- What the counts promise in one state. -/
structure Exact (s : PtrState A S W) : Prop where
  /-- The deleter has run once, or is due once, if there is no reference left; else neither. -/
  deleted_once : s.block.deleted + ∑ a, (s.program a).count .deleter =
    if s.block.refCount = 0 then 1 else 0
  freed_once : s.block.freed + ∑ a, (s.program a).count .free =
    if s.block.weakCount = 0 then 1 else 0
  /-- Neither happens while a shared handle exists that is not being given up. -/
  deleted_after : ∀ a i, KeepsShared (s.handles a) (s.program a) i →
    s.block.refCount ≠ 0 ∧ s.block.deleted = 0 ∧ ∀ b, .deleter ∉ s.program b
  freed_after : s.block.freed ≠ 0 ∨ (∃ a, .free ∈ s.program a) →
    s.block.deleted = 1 ∧ ∀ a, (∀ i, ¬ KeepsShared (s.handles a) (s.program a) i) ∧
      ∀ i, ¬ KeepsWeak (s.handles a) (s.program a) i
  untouched : ∀ a m rest, s.program a = m :: rest → m.touches = true → s.block.freed = 0
  lock_alive : ∀ a dst x, .lockReturn dst x ∈ s.program a → x.ctrl = true →
    s.block.deleted = 0 ∧ ∀ b, .deleter ∉ s.program b
  idle : (∀ a, s.program a = []) →
    s.block.refCount = ∑ a, handleCount (s.handles a).shared ∧
    s.block.weakCount =
      ∑ a, (handleCount (s.handles a).shared + handleCount (s.handles a).weak)
  idle_done : (∀ a, s.program a = []) →
    (s.block.deleted = 1 ↔ ∀ a i, ((s.handles a).shared i).ctrl = false) ∧
    (s.block.freed = 1 ↔ ∀ a, (∀ i, ((s.handles a).shared i).ctrl = false) ∧
      ∀ i, ((s.handles a).weak i).ctrl = false)

omit [DecidableEq A] in
theorem Counted.idle (hc : Counted s r w) (hidle : ∀ a, s.program a = []) :
    s.block.refCount = ∑ a, handleCount (s.handles a).shared ∧
    s.block.weakCount =
      ∑ a, (handleCount (s.handles a).shared + handleCount (s.handles a).weak) := by
  have hb (a : A) : Balanced (r a) (w a) (s.handles a) [] := hidle a ▸ hc.balanced a
  exact ⟨hc.refs.trans (Finset.sum_congr rfl fun a _ => (hb a).1),
    hc.weaks.trans (Finset.sum_congr rfl fun a _ => (hb a).2)⟩

omit [Fintype S] [Fintype W] [DecidableEq A] in
/-- Between operations nothing is due, so what is due of a count at zero has been done. -/
theorem done_iff {done n : ℕ} {m : Micro S W}
    (h : done + ∑ a, (s.program a).count m = zeroed n) (hidle : ∀ a, s.program a = []) :
    done = 1 ↔ n = 0 := by
  have hnone : ∑ a, (s.program a).count m = 0 :=
    Finset.sum_eq_zero fun a _ => by rw [hidle a, List.count_nil]
  rw [hnone, Nat.add_zero] at h
  rw [h, zeroed]
  split_ifs with hn <;> simp [hn]

omit [DecidableEq A] in
theorem Counted.exact (hc : Counted s r w) : Exact s where
  deleted_once := hc.deletes
  freed_once := hc.frees
  deleted_after a i hi := by
    have hr := (hc.balanced a).keepsShared hi
    have hle := share_le r a
    exact ⟨by rw [hc.refs]; omega, hc.alive hr⟩
  freed_after hf := by
    have hnone := hc.no_shares hf
    have href : s.block.refCount = 0 := by
      rw [hc.refs]
      exact Finset.sum_eq_zero fun a _ => (hnone a).1
    -- an agent about to call the deleter would have a share of the weak count
    have hdue : ∑ a, (s.program a).count .deleter = 0 := by
      refine Finset.sum_eq_zero fun a _ => List.count_eq_zero.mpr fun hm => ?_
      have hw := (hc.balanced a).touch_pos hm rfl nofun
      rw [(hnone a).2] at hw
      omega
    have hdel := hc.deletes
    rw [hdue, href] at hdel
    refine ⟨hdel, fun a => ⟨fun i hi => ?_, fun i hi => ?_⟩⟩
    · have hr := (hc.balanced a).keepsShared hi
      rw [(hnone a).1] at hr
      omega
    · have hw := (hc.balanced a).keepsWeak hi
      rw [(hnone a).2] at hw
      omega
  untouched a m rest hprog ht := by
    by_contra hne
    have hm : m ∈ s.program a := hprog ▸ List.mem_cons_self
    by_cases hfree : m = .free
    · -- then it would be freed twice
      subst hfree
      have hone := List.one_le_count_iff.mpr hm
      have hle := share_le (fun a => (s.program a).count .free) a
      have hf := hc.frees
      have hz : zeroed s.block.weakCount ≤ 1 := by
        rw [zeroed]
        split_ifs <;> omega
      omega
    · have hw := (hc.balanced a).touch_pos hm ht hfree
      exact hne (hc.allocated hw).1
  lock_alive a dst x hm hx := hc.alive ((hc.balanced a).lock_pos hm hx)
  idle hidle := hc.idle hidle
  idle_done hidle := by
    obtain ⟨href, hweak⟩ := hc.idle hidle
    rw [done_iff hc.deletes hidle, done_iff hc.frees hidle, href, hweak, Finset.sum_eq_zero_iff,
      Finset.sum_eq_zero_iff]
    simp [handleCount_eq_zero]

end Runs

end IceKernel.Libcxx
