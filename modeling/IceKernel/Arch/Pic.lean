import IceKernel.Lib.Pic8259
import IceKernel.Lib.Run
import Mathlib.Data.Set.Insert
import Mathlib.Order.Interval.Finset.Nat
import Mathlib.Tactic.SplitIfs

/-!
# `cpu/pic.cpp`: the interrupt controllers

What the kernel writes to the ports of the two chips, while devices request service
and the CPU takes interrupts.
-/

namespace IceKernel.Pic
open Pic8259

def pic1 : BitVec 16 := 0x20
def pic1Command : BitVec 16 := pic1
def pic2Command : BitVec 16 := pic1
def picEoi : BitVec 8 := 0x20

/-- `out8(port, value)`, as far as the two chips hear it. -/
def out8 (port : BitVec 16) (value : BitVec 8) (p : Pair) : Pair :=
  if port = 0x20 then { p with master := p.master.writeCommand value }
  else if port = 0x21 then { p with master := p.master.writeData value }
  else if port = 0xA0 then { p with slave := p.slave.writeCommand value }
  else if port = 0xA1 then { p with slave := p.slave.writeData value }
  else p

/-- `in8(port)` at the data ports. -/
def in8 (port : BitVec 16) (p : Pair) : BitVec 8 :=
  if port = 0x21 then p.master.readData else p.slave.readData

/-- `eoi(int_no)`. -/
def eoi (intNo : ℕ) (p : Pair) : Pair :=
  out8 pic1Command picEoi (if 40 ≤ intNo then out8 pic2Command picEoi p else p)

/-- The port of a line, and its number there. -/
def portOf (irq : BitVec 8) : BitVec 16 × BitVec 8 :=
  if 8 ≤ irq then (0xA1, irq - 8) else (0x21, irq)

/-- `1 << irq`; an `int` has 32 bits to shift by. -/
def shifted (irq : BitVec 8) : Option (BitVec 32) :=
  if irq.toNat < 32 then some (1#32 <<< irq.toNat) else none

/-- `mask(irq)`. -/
def mask (irq : BitVec 8) (p : Pair) : Option Pair :=
  let (port, irq) := portOf irq
  (shifted irq).map fun bit => out8 port (((in8 port p).setWidth 32 ||| bit).setWidth 8) p

/-- `unmask(irq)`. -/
def unmask (irq : BitVec 8) (p : Pair) : Option Pair :=
  let (port, irq) := portOf irq
  (shifted irq).map fun bit => out8 port (((in8 port p).setWidth 32 &&& ~~~bit).setWidth 8) p

/-- `disable()`. -/
def disable (p : Pair) : Pair := out8 0x21 0xFF (out8 0xA1 0xFF p)

/-- `init()`, after its message. -/
def init (p : Pair) : Pair :=
  let a1 := in8 0x21 p
  let a2 := in8 0xA1 p
  let p := out8 0x20 0x11 p
  let p := out8 0xA0 0x11 p
  let p := out8 0x21 0x20 p
  let p := out8 0xA1 0x28 p
  let p := out8 0x21 0x04 p
  let p := out8 0xA1 0x02 p
  let p := out8 0x21 0x01 p
  let p := out8 0xA1 0x01 p
  let p := out8 0x21 a1 p
  out8 0xA1 a2 p

/-! ## Runs -/

/-- The chips, the vector whose handler is running, and the vectors that have been taken, the latest
first. -/
structure State where
  pics : Pair
  handling : Option ℕ := none
  served : List ℕ := []
  deriving DecidableEq, Repr

inductive Event
  | raise (line : ℕ)
  | take
  | finish
  | mask (irq : BitVec 8)
  | unmask (irq : BitVec 8)
  | disable
  deriving DecidableEq, Repr

/-- A device requests service on its line; the CPU takes an interrupt, which it does not do inside
a handler; a handler ends with `eoi`; a driver or a handler masks lines. -/
def step (s : State) : Event → Option State
  | .raise line =>
    if line < 16 ∧ line ≠ 2 then some { s with pics := s.pics.raise line } else none
  | .take =>
    if s.handling.isNone then
      s.pics.acknowledge.map fun (v, pics) => ⟨pics, some v, v :: s.served⟩
    else none
  | .finish => s.handling.map fun v => { s with pics := eoi v s.pics, handling := none }
  | .mask irq => (mask irq s.pics).map fun pics => { s with pics := pics }
  | .unmask irq => (unmask irq s.pics).map fun pics => { s with pics := pics }
  | .disable => some { s with pics := disable s.pics }

/-- The chips as `init` programs them. -/
structure Ready (p : Pair) : Prop where
  master : p.master.program = (0x20, 4, .mask)
  slave : p.slave.program = (0x28, 2, .mask)

/-! ## What the calls do -/

variable {p q : Pair} {irq : BitVec 8}

theorem init_eq (p : Pair) : init p =
    ⟨⟨0, 0, p.master.masked, 0x20, 4, .mask⟩, ⟨0, 0, p.slave.masked, 0x28, 2, .mask⟩⟩ := rfl

/-- `eoi` ends the interrupts of the first chip only. -/
theorem eoi_eq (intNo : ℕ) (p : Pair) : eoi intNo p =
    { p with
      master := if 40 ≤ intNo then p.master.endOfInterrupt.endOfInterrupt
        else p.master.endOfInterrupt } := by
  by_cases h : 40 ≤ intNo
  · rw [eoi, if_pos h, if_pos h]
    rfl
  · rw [eoi, if_neg h, if_neg h]
    rfl

theorem ready_init (p : Pair) : Ready (init p) := ⟨rfl, rfl⟩

/-- The two data ports set the masks. -/
theorem out8_data (h : Ready p) (v : BitVec 8) :
    out8 0x21 v p = { p with master := { p.master with masked := v } } ∧
      out8 0xA1 v p = { p with slave := { p.slave with masked := v } } :=
  ⟨congrArg (fun c => { p with master := c })
      (Chip.writeData_mask (congrArg (·.2.2) h.master) v),
    congrArg (fun c => { p with slave := c }) (Chip.writeData_mask (congrArg (·.2.2) h.slave) v)⟩

/-- Only masks change, each as `f` says. -/
structure Remasks (f : ℕ → Bool → Bool) (p q : Pair) : Prop where
  master : q.master = { p.master with masked := q.master.masked }
  slave : q.slave = { p.slave with masked := q.slave.masked }
  masked : ∀ line < 16, q.maskedAt line = f line (p.maskedAt line)

/-- A call that writes `new` for the mask it has read. -/
theorem remasks_line {f : Bool → Bool → Bool} {new : BitVec 8} (h : Ready p)
    (hf : ∀ b, f false b = b)
    (hnew : ∀ j < 8, new.getLsbD j =
      f (decide ((portOf irq).2.toNat = j)) ((in8 (portOf irq).1 p).getLsbD j)) :
    Remasks (fun line => f (decide (irq.toNat = line))) p (out8 (portOf irq).1 new p) := by
  obtain ⟨hmaster, hslave⟩ := out8_data h new
  by_cases hirq : 8 ≤ irq
  · have hge : 8 ≤ irq.toNat := hirq
    have hport : portOf irq = (0xA1, irq - 8) := if_pos hirq
    have hsub : (irq - 8).toNat = irq.toNat - 8 := BitVec.toNat_sub_of_le hirq
    rw [hport] at hnew ⊢
    rw [hslave]
    refine ⟨rfl, rfl, fun line hline => ?_⟩
    by_cases hlow : line < 8
    · have hne : ¬ irq.toNat = line := by omega
      rw [Pair.maskedAt, Pair.maskedAt, if_pos hlow, if_pos hlow, decide_eq_false hne, hf]
    · have hiff : (irq - 8).toNat = line - 8 ↔ irq.toNat = line := by omega
      rw [Pair.maskedAt, Pair.maskedAt, if_neg hlow, if_neg hlow, hnew _ (by omega)]
      simp only [hiff]
      rfl
  · have hlt : irq.toNat < 8 := not_le.1 hirq
    have hport : portOf irq = (0x21, irq) := if_neg hirq
    rw [hport] at hnew ⊢
    rw [hmaster]
    refine ⟨rfl, rfl, fun line hline => ?_⟩
    by_cases hlow : line < 8
    · rw [Pair.maskedAt, Pair.maskedAt, if_pos hlow, if_pos hlow, hnew _ hlow]
      rfl
    · have hne : ¬ irq.toNat = line := by omega
      rw [Pair.maskedAt, Pair.maskedAt, if_neg hlow, if_neg hlow, decide_eq_false hne, hf]

/-- The bit that is shifted to. -/
theorem shifted_eq_some {bit : BitVec 32} (h : shifted irq = some bit) (j : ℕ) :
    bit.getLsbD j = decide (irq.toNat = j) := by
  unfold shifted at h
  split at h
  · rename_i hlt
    obtain rfl := Option.some.inj h
    rw [← BitVec.twoPow_eq, BitVec.getLsbD_twoPow]
    by_cases hj : irq.toNat = j
    · simp [hj, show j < 32 by omega]
    · simp [hj]
  · exact absurd h (by simp)

theorem mask_spec (h : Ready p) (hq : mask irq p = some q) :
    Remasks (fun line b => b || decide (irq.toNat = line)) p q := by
  obtain ⟨bit, hbit, rfl⟩ : ∃ bit, shifted (portOf irq).2 = some bit ∧
      out8 (portOf irq).1 (((in8 (portOf irq).1 p).setWidth 32 ||| bit).setWidth 8) p = q :=
    Option.map_eq_some_iff.1 hq
  refine remasks_line (f := fun d b => b || d) h Bool.or_false fun j hj => ?_
  rw [BitVec.getLsbD_setWidth, BitVec.getLsbD_or, BitVec.getLsbD_setWidth, shifted_eq_some hbit]
  simp [hj, show j < 32 by omega]

theorem unmask_spec (h : Ready p) (hq : unmask irq p = some q) :
    Remasks (fun line b => b && !decide (irq.toNat = line)) p q := by
  obtain ⟨bit, hbit, rfl⟩ : ∃ bit, shifted (portOf irq).2 = some bit ∧
      out8 (portOf irq).1 (((in8 (portOf irq).1 p).setWidth 32 &&& ~~~bit).setWidth 8) p = q :=
    Option.map_eq_some_iff.1 hq
  refine remasks_line (f := fun d b => b && !d) h Bool.and_true fun j hj => ?_
  rw [BitVec.getLsbD_setWidth, BitVec.getLsbD_and, BitVec.getLsbD_setWidth, BitVec.getLsbD_not,
    shifted_eq_some hbit]
  simp [hj, show j < 32 by omega]

theorem disable_spec (h : Ready p) : Remasks (fun _ _ => true) p (disable p) := by
  have hfirst := (out8_data h 0xFF).2
  have hready : Ready (out8 0xA1 0xFF p) := by
    rw [hfirst]
    exact ⟨h.master, h.slave⟩
  rw [disable, (out8_data hready 0xFF).1, hfirst]
  refine ⟨rfl, rfl, fun line hline => ?_⟩
  have hones : ∀ j < 8, (0xFF : BitVec 8).getLsbD j = true := by decide
  rw [Pair.maskedAt]
  by_cases hlow : line < 8
  · rw [if_pos hlow]
    exact hones line hlow
  · rw [if_neg hlow]
    exact hones (line - 8) (by omega)

theorem Remasks.ready {f : ℕ → Bool → Bool} (hr : Remasks f p q) (h : Ready p) : Ready q := by
  refine ⟨?_, ?_⟩
  · rw [hr.master]
    exact h.master
  · rw [hr.slave]
    exact h.slave

/-! ## Taking an interrupt -/

/-- A vector comes from the first chip, or by way of line 2 from the second one. -/
theorem acknowledge_eq_some_iff (h : Ready p) {v : ℕ} : p.acknowledge = some (v, q) ↔
    (∃ k, p.cascaded.next = some 2 ∧ p.slave.next = some k ∧ v = 40 + k ∧
      q = ⟨p.master.serve 2, p.slave.serve k⟩) ∨
    ∃ i ≠ 2, p.cascaded.next = some i ∧ v = 32 + i ∧ q = { p with master := p.master.serve i } := by
  have hbase : p.master.base = 0x20 := congrArg (·.1) h.master
  have hcascade : p.master.cascade = 4 := congrArg (·.2.1) h.master
  have hbase' : p.slave.base = 0x28 := congrArg (·.1) h.slave
  have hcascade' : p.slave.cascade = 2 := congrArg (·.2.1) h.slave
  have hvector {i : ℕ} (hi : i < 8) : ((0x20 : BitVec 8) + BitVec.ofNat 8 i).toNat = 32 + i ∧
      ((0x28 : BitVec 8) + BitVec.ofNat 8 i).toNat = 40 + i := by
    interval_cases i <;> exact ⟨rfl, rfl⟩
  have hlt {c : Chip} {i : ℕ} (hc : c.next = some i) : i < 8 := (Chip.next_eq_some_iff.1 hc).1
  have hbit (i : ℕ) : (4 : BitVec 8).getLsbD i = decide (2 = i) := getLsbD_bit 2 i (by norm_num)
  rw [Pair.acknowledge, hcascade, hcascade', hbase, hbase']
  constructor
  · intro hack
    obtain ⟨i, hi, hack⟩ := Option.bind_eq_some_iff.1 hack
    rw [hbit] at hack
    by_cases htwo : 2 = i
    · subst htwo
      obtain ⟨k, hk, heq⟩ := Option.map_eq_some_iff.1 hack
      obtain ⟨hv, rfl⟩ := Prod.mk.inj heq
      exact .inl ⟨k, hi, hk, hv.symm.trans (hvector (hlt hk)).2, rfl⟩
    · rw [if_neg (by simpa using htwo)] at hack
      obtain ⟨hv, rfl⟩ := Prod.mk.inj (Option.some.inj hack)
      exact .inr ⟨i, Ne.symm htwo, hi, hv.symm.trans (hvector (hlt hi)).1, rfl⟩
  · rintro (⟨k, hi, hk, rfl, rfl⟩ | ⟨i, htwo, hi, rfl, rfl⟩)
    · rw [hi, hk, ← (hvector (hlt hk)).2]
      rfl
    · rw [hi, Option.bind_some, hbit, if_neg (by simpa using Ne.symm htwo), (hvector (hlt hi)).1]

/-! ## What a run keeps -/

/-- The first chip has in service what the handler runs for, and nothing else; the second one has
in service every line that has ever been taken. -/
structure Inv (s : State) : Prop where
  ready : Ready s.pics
  line_two : s.pics.master.requests.getLsbD 2 = false
  idle : s.handling = none → s.pics.master.inService = 0
  busy : ∀ v, s.handling = some v →
    s.pics.master.inService = 1#8 <<< (if 40 ≤ v then 2 else v - 32) ∧ v ∈ s.served
  range : ∀ v ∈ s.served, 32 ≤ v ∧ v < 48
  slave : ∀ k < 8, s.pics.slave.inService.getLsbD k = true ↔ 40 + k ∈ s.served
  decreasing : (s.served.filter (40 ≤ ·)).Pairwise (· < ·)

theorem inv_init (p : Pair) : Inv ⟨init p, none, []⟩ where
  ready := ready_init p
  line_two := by
    rw [init_eq]
    simp
  idle _ := rfl
  busy _ h := absurd h.symm (Option.some_ne_none _)
  range _ h := absurd h List.not_mem_nil
  slave k hk := by
    rw [init_eq]
    simp
  decreasing := List.Pairwise.nil

theorem Inv.remasks {f : ℕ → Bool → Bool} {s : State} (hs : Inv s) (hr : Remasks f s.pics q) :
    Inv { s with pics := q } where
  ready := hr.ready hs.ready
  line_two := by
    rw [hr.master]
    exact hs.line_two
  idle := by
    rw [hr.master]
    exact hs.idle
  busy := by
    rw [hr.master]
    exact hs.busy
  range := hs.range
  slave := by
    rw [hr.slave]
    exact hs.slave
  decreasing := hs.decreasing

theorem Inv.raise {s : State} (hs : Inv s) {line : ℕ} (htwo : line ≠ 2) :
    Inv { s with pics := s.pics.raise line } := by
  unfold Pair.raise
  by_cases hlow : line < 8
  · rw [if_pos hlow]
    refine ⟨⟨hs.ready.master, hs.ready.slave⟩, ?_, hs.idle, hs.busy, hs.range, hs.slave,
      hs.decreasing⟩
    have hbit := Chip.request_requests s.pics.master line 2 hlow
    rwa [hs.line_two, decide_eq_false htwo, Bool.or_false] at hbit
  · rw [if_neg hlow]
    exact ⟨⟨hs.ready.master, hs.ready.slave⟩, hs.line_two, hs.idle, hs.busy, hs.range, hs.slave,
      hs.decreasing⟩

/-- Serving the second chip takes one of its lines below all those that it has in service. -/
theorem Inv.take {s : State} (hs : Inv s) (hidle : s.handling = none) {v : ℕ}
    (hack : s.pics.acknowledge = some (v, q)) : Inv ⟨q, some v, v :: s.served⟩ := by
  have hserve (i : ℕ) : (s.pics.master.serve i).inService = 1#8 <<< i := by
    rw [Chip.serve, hs.idle hidle]
    exact BitVec.zero_or
  have hline (i : ℕ) : (s.pics.master.serve i).requests.getLsbD 2 = false := by
    rw [Chip.serve, BitVec.getLsbD_and, hs.line_two, Bool.false_and]
  rcases (acknowledge_eq_some_iff hs.ready).1 hack with
    ⟨k, -, hk, rfl, rfl⟩ | ⟨i, htwo, hi, rfl, rfl⟩
  · -- Line `k` of the second chip, by way of line 2 of the first one.
    obtain ⟨hk8, -, -, hfree, -⟩ := Chip.next_eq_some_iff.1 hk
    refine ⟨⟨hs.ready.master, hs.ready.slave⟩, hline 2, fun h => absurd h (Option.some_ne_none _),
      fun v hv => ?_, fun v hv => ?_, fun j hj => ?_, ?_⟩
    · obtain rfl := Option.some.inj hv
      rw [if_pos (by omega)]
      exact ⟨hserve 2, List.mem_cons_self⟩
    · rcases List.mem_cons.1 hv with rfl | hv
      · omega
      · exact hs.range v hv
    · have hsame : k = j ↔ 40 + j = 40 + k := by omega
      rw [Chip.serve_inService _ k j hk8, Bool.or_eq_true, hs.slave j hj, decide_eq_true_iff,
        List.mem_cons, hsame, or_comm]
    · rw [List.filter_cons_of_pos (by simp), List.pairwise_cons]
      refine ⟨fun v hv => ?_, hs.decreasing⟩
      obtain ⟨hmem, hge⟩ := List.mem_filter.1 hv
      have hge : 40 ≤ v := by simpa using hge
      have hlt := (hs.range v hmem).2
      -- Whatever the second chip has served is in service still, and would have kept `k` back.
      by_contra hle
      have hbusy := (hs.slave (v - 40) (by omega)).2 (by rwa [show 40 + (v - 40) = v by omega])
      rw [hfree (v - 40) (by omega)] at hbusy
      exact Bool.false_ne_true hbusy
  · -- A line of the first chip: nothing changes at the second one.
    have hi8 := (Chip.next_eq_some_iff.1 hi).1
    refine ⟨⟨hs.ready.master, hs.ready.slave⟩, hline i, fun h => absurd h (Option.some_ne_none _),
      fun v hv => ?_, fun v hv => ?_, fun j hj => ?_, ?_⟩
    · obtain rfl := Option.some.inj hv
      rw [if_neg (by omega), Nat.add_sub_cancel_left]
      exact ⟨hserve i, List.mem_cons_self⟩
    · rcases List.mem_cons.1 hv with rfl | hv
      · omega
      · exact hs.range v hv
    · rw [hs.slave j hj, List.mem_cons, or_iff_right (by omega)]
    · rw [List.filter_cons_of_neg (by simp; omega)]
      exact hs.decreasing

/-- The first end of interrupt is for the line of the handler, and a second one finds none. -/
theorem Inv.finish {s : State} (hs : Inv s) {v : ℕ} (hv : s.handling = some v) :
    Inv { s with pics := eoi v s.pics, handling := none } := by
  obtain ⟨hservice, hmem⟩ := hs.busy v hv
  have hrange := hs.range v hmem
  have hfirst : s.pics.master.endOfInterrupt = { s.pics.master with inService := 0 } :=
    Chip.endOfInterrupt_single (by split <;> omega) hservice
  have hboth : (eoi v s.pics).master = { s.pics.master with inService := 0 } := by
    rw [eoi_eq, hfirst, Chip.endOfInterrupt_idle rfl, ite_self]
  have hslave : (eoi v s.pics).slave = s.pics.slave := by
    rw [eoi_eq]
  refine ⟨⟨?_, ?_⟩, ?_, fun _ => ?_, fun v hv => absurd hv.symm (Option.some_ne_none v), hs.range, ?_,
    hs.decreasing⟩
  · rw [hboth]
    exact hs.ready.master
  · rw [hslave]
    exact hs.ready.slave
  · rw [hboth]
    exact hs.line_two
  · rw [hboth]
  · rw [hslave]
    exact hs.slave

theorem inv_step {s t : State} {e : Event} (hs : Inv s) (h : step s e = some t) : Inv t := by
  cases e with
  | raise line =>
    rw [step] at h
    split at h
    · rename_i hline
      obtain rfl := Option.some.inj h
      exact hs.raise hline.2
    · exact absurd h.symm (Option.some_ne_none _)
  | take =>
    rw [step] at h
    split at h
    · rename_i hidle
      obtain ⟨⟨v, q⟩, hack, rfl⟩ := Option.map_eq_some_iff.1 h
      exact hs.take (Option.isNone_iff_eq_none.1 hidle) hack
    · exact absurd h.symm (Option.some_ne_none _)
  | finish =>
    obtain ⟨v, hv, rfl⟩ := Option.map_eq_some_iff.1 h
    exact hs.finish hv
  | mask irq =>
    obtain ⟨q, hq, rfl⟩ := Option.map_eq_some_iff.1 h
    exact hs.remasks (mask_spec hs.ready hq)
  | unmask irq =>
    obtain ⟨q, hq, rfl⟩ := Option.map_eq_some_iff.1 h
    exact hs.remasks (unmask_spec hs.ready hq)
  | disable =>
    obtain rfl := Option.some.inj h
    exact hs.remasks (disable_spec hs.ready)

theorem inv_run {t : State} {es : List Event}
    (h : Run.run step ⟨init p, none, []⟩ es = some t) : Inv t :=
  Run.run_invariant (fun _ _ _ hs hstep => inv_step hs hstep) (inv_init p) h

/-- The second chip is never told that an interrupt of its lines has ended: in a run its vectors get
smaller and smaller, so that there are no more than eight. -/
theorem slave_served_decreasing {t : State} {es : List Event}
    (h : Run.run step ⟨init p, none, []⟩ es = some t) :
    (t.served.filter (40 ≤ ·)).Pairwise (· < ·) ∧ (t.served.filter (40 ≤ ·)).length ≤ 8 := by
  have hinv := inv_run h
  refine ⟨hinv.decreasing, ?_⟩
  have hnodup : (t.served.filter (40 ≤ ·)).Nodup := hinv.decreasing.imp Nat.ne_of_lt
  have hsub : (t.served.filter (40 ≤ ·)).toFinset ⊆ Finset.Ico 40 48 := fun v hv => by
    obtain ⟨hmem, hge⟩ := List.mem_filter.1 (List.mem_toFinset.1 hv)
    exact Finset.mem_Ico.2 ⟨by simpa using hge, (hinv.range v hmem).2⟩
  have hcard := Finset.card_le_card hsub
  rwa [List.toFinset_card_of_nodup hnodup, Nat.card_Ico] at hcard

/-- The chips with the vectors that firmware has programmed. -/
def firmware : Pair := ⟨⟨0, 0, 0, 8, 4, .mask⟩, ⟨0, 0, 0, 112, 2, .mask⟩⟩

theorem slave_served_decreasing_twice :
    ∃ t, Run.run step ⟨init firmware, none, []⟩
        [.raise 12, .take, .finish, .raise 12, .raise 9, .take, .finish] = some t ∧
      t.served = [41, 44] ∧
      (t.served.filter (40 ≤ ·)).Pairwise (· < ·) ∧ (t.served.filter (40 ≤ ·)).length ≤ 8 := by
  obtain ⟨t, ht, hserved⟩ : ∃ t, Run.run step ⟨init firmware, none, []⟩
      [.raise 12, .take, .finish, .raise 12, .raise 9, .take, .finish] = some t ∧
      t.served = [41, 44] := ⟨_, rfl, rfl⟩
  exact ⟨t, ht, hserved, slave_served_decreasing ht⟩

/-! ## What is taken next -/

/-- A line that can be taken. A line of the second chip has to be below all those that have been
taken before. -/
structure Open (s : State) (line : ℕ) : Prop where
  lt : line < 16
  requests : s.pics.requestsAt line = true
  unmasked : s.pics.maskedAt line = false
  cascade : 8 ≤ line → s.pics.maskedAt 2 = false
  below : 8 ≤ line → ∀ v ∈ s.served, 40 ≤ v → 32 + line < v

/-- The lines by priority: the second chip stands in the place of line 2. -/
def rank (line : ℕ) : ℕ := if line < 2 then line else if line < 8 then line + 8 else line - 6

theorem rank_injective {i j : ℕ} (hi : i < 16) (hj : j < 16) (h : rank i = rank j) : i = j := by
  unfold rank at h
  split_ifs at h <;> omega

section Idle

variable {s : State} {v k l : ℕ}

theorem open_slave_iff (hs : Inv s) (hk : k < 8) : Open s (8 + k) ↔
    s.pics.slave.requests.getLsbD k = true ∧ s.pics.slave.masked.getLsbD k = false ∧
      s.pics.master.masked.getLsbD 2 = false ∧
      ∀ j ≤ k, s.pics.slave.inService.getLsbD j = false := by
  have hline : 8 + k - 8 = k := by omega
  have hrequests : s.pics.requestsAt (8 + k) = s.pics.slave.requests.getLsbD k := by
    rw [Pair.requestsAt, if_neg (by omega), hline]
  have hmasked : s.pics.maskedAt (8 + k) = s.pics.slave.masked.getLsbD k := by
    rw [Pair.maskedAt, if_neg (by omega), hline]
  have htwo : s.pics.maskedAt 2 = s.pics.master.masked.getLsbD 2 := rfl
  constructor
  · intro h
    refine ⟨hrequests ▸ h.requests, hmasked ▸ h.unmasked, h.cascade (by omega), fun j hj => ?_⟩
    rw [Bool.eq_false_iff]
    intro hbusy
    have hlt := h.below (by omega) _ ((hs.slave j (by omega)).1 hbusy) (by omega)
    omega
  · rintro ⟨hrequest, hopen, hcascade, hfree⟩
    refine ⟨by omega, hrequests.trans hrequest, hmasked.trans hopen, fun _ => hcascade,
      fun _ v hv hge => ?_⟩
    by_contra hle
    have hlt := (hs.range v hv).2
    have hbusy := (hs.slave (v - 40) (by omega)).2 (by rwa [show 40 + (v - 40) = v by omega])
    rw [hfree (v - 40) (by omega)] at hbusy
    exact Bool.false_ne_true hbusy

theorem open_master_iff (hl : l < 8) : Open s l ↔
    s.pics.master.requests.getLsbD l = true ∧ s.pics.master.masked.getLsbD l = false := by
  have hrequests : s.pics.requestsAt l = s.pics.master.requests.getLsbD l := if_pos hl
  have hmasked : s.pics.maskedAt l = s.pics.master.masked.getLsbD l := if_pos hl
  constructor
  · exact fun h => ⟨hrequests ▸ h.requests, hmasked ▸ h.unmasked⟩
  · rintro ⟨hrequest, hopen⟩
    exact ⟨by omega, hrequests.trans hrequest, hmasked.trans hopen, fun h => absurd hl (by omega),
      fun h => absurd hl (by omega)⟩

/-- Line 2 of the first chip has no device. -/
theorem not_open_two (hs : Inv s) : ¬ Open s 2 := fun h => by
  have hrequest := ((open_master_iff (by norm_num)).1 h).1
  rw [hs.line_two] at hrequest
  exact Bool.false_ne_true hrequest

/-- With an open line there is a vector. -/
theorem exists_vector (hs : Inv s) (hidle : s.handling = none) (h : Open s l) :
    ∃ v q, s.pics.acknowledge = some (v, q) := by
  have hrequests := Pair.cascaded_requests hs.line_two
  have hfree (i : ℕ) : ∀ j ≤ i, s.pics.cascaded.inService.getLsbD j = false := fun j _ => by
    rw [Pair.cascaded_inService, hs.idle hidle]
    exact BitVec.getLsbD_zero
  obtain ⟨i, hi⟩ : ∃ i, s.pics.cascaded.next = some i := by
    by_cases hlow : l < 8
    · obtain ⟨hrequest, hopen⟩ := (open_master_iff hlow).1 h
      have htwo : l ≠ 2 := fun heq => not_open_two hs (heq ▸ h)
      refine Chip.exists_next hlow ?_ ?_ (hfree l)
      · rw [hrequests, if_neg htwo, hrequest]
      · rw [Pair.cascaded_masked, hopen]
    · obtain ⟨k, rfl⟩ := Nat.exists_eq_add_of_le (not_lt.1 hlow)
      have hlt := h.lt
      obtain ⟨hrequest, hopen, hcascade, hslave⟩ := (open_slave_iff hs (by omega)).1 h
      obtain ⟨k', hk'⟩ := Chip.exists_next (by omega) hrequest hopen hslave
      refine Chip.exists_next (show 2 < 8 by norm_num) ?_ ?_ (hfree 2)
      · rw [hrequests, if_pos rfl, hk']
        rfl
      · rw [Pair.cascaded_masked, hcascade]
  by_cases htwo : i = 2
  · subst htwo
    have hsome := (Chip.next_eq_some_iff.1 hi).2.1
    rw [hrequests, if_pos rfl] at hsome
    obtain ⟨k, hk⟩ := Option.isSome_iff_exists.1 hsome
    exact ⟨_, _, (acknowledge_eq_some_iff hs.ready).2 (.inl ⟨k, hi, hk, rfl, rfl⟩)⟩
  · exact ⟨_, _, (acknowledge_eq_some_iff hs.ready).2 (.inr ⟨i, htwo, hi, rfl, rfl⟩)⟩

/-- A vector is that of the open line with the highest priority. -/
theorem open_of_vector (hs : Inv s) (hack : s.pics.acknowledge = some (v, q)) :
    ∃ line, v = 32 + line ∧ Open s line ∧ ∀ l, Open s l → rank line ≤ rank l := by
  have hrequests := Pair.cascaded_requests hs.line_two
  rcases (acknowledge_eq_some_iff hs.ready).1 hack with ⟨k, hi, hk, rfl, -⟩ | ⟨i, htwo, hi, rfl, -⟩
  · obtain ⟨-, -, hcascade, -, hfirst⟩ := Chip.next_eq_some_iff.1 hi
    obtain ⟨hk8, hrequest, hopen, hfree, hfirst'⟩ := Chip.next_eq_some_iff.1 hk
    rw [Pair.cascaded_masked] at hcascade hfirst
    refine ⟨8 + k, by omega, (open_slave_iff hs hk8).2 ⟨hrequest, hopen, hcascade, hfree⟩,
      fun l hl => ?_⟩
    have hlt := hl.lt
    by_cases hlow : l < 8
    · -- An open line of the first chip below 2 would have been chosen before the cascade.
      obtain ⟨hrequest', hopen'⟩ := (open_master_iff hlow).1 hl
      have hge : 2 ≤ l := by
        by_contra hlt
        have hmasked := hfirst l (by omega) (by rw [hrequests, if_neg (by omega), hrequest'])
        rw [hopen'] at hmasked
        exact Bool.false_ne_true hmasked
      have hne : l ≠ 2 := fun heq => not_open_two hs (heq ▸ hl)
      unfold rank
      rw [if_neg (by omega), if_neg (by omega), if_neg (by omega), if_pos hlow]
      omega
    · obtain ⟨k', rfl⟩ := Nat.exists_eq_add_of_le (not_lt.1 hlow)
      obtain ⟨hrequest', hopen', -⟩ := (open_slave_iff hs (by omega)).1 hl
      have hge : k ≤ k' := by
        by_contra hlt
        have hmasked := hfirst' k' (by omega) hrequest'
        rw [hopen'] at hmasked
        exact Bool.false_ne_true hmasked
      unfold rank
      rw [if_neg (by omega), if_neg (by omega), if_neg (by omega), if_neg (by omega)]
      omega
  · obtain ⟨hi8, hrequest, hopen, -, hfirst⟩ := Chip.next_eq_some_iff.1 hi
    rw [hrequests, if_neg htwo] at hrequest
    rw [Pair.cascaded_masked] at hopen hfirst
    refine ⟨i, rfl, (open_master_iff hi8).2 ⟨hrequest, hopen⟩, fun l hl => ?_⟩
    have hlt := hl.lt
    by_cases hlow : l < 8
    · obtain ⟨hrequest', hopen'⟩ := (open_master_iff hlow).1 hl
      have hne : l ≠ 2 := fun heq => not_open_two hs (heq ▸ hl)
      have hge : i ≤ l := by
        by_contra hlt
        have hmasked := hfirst l (by omega) (by rw [hrequests, if_neg hne, hrequest'])
        rw [hopen'] at hmasked
        exact Bool.false_ne_true hmasked
      unfold rank
      split_ifs <;> omega
    · -- An open line of the second chip requests line 2 of the first one.
      obtain ⟨k', rfl⟩ := Nat.exists_eq_add_of_le (not_lt.1 hlow)
      obtain ⟨hrequest', hopen', hcascade, hslave⟩ := (open_slave_iff hs (by omega)).1 hl
      have hsmall : i < 2 := by
        by_contra hge
        obtain ⟨k, hk⟩ := Chip.exists_next (by omega) hrequest' hopen' hslave
        have hmasked := hfirst 2 (by omega) (by rw [hrequests, if_pos rfl, hk]; rfl)
        rw [hcascade] at hmasked
        exact Bool.false_ne_true hmasked
      unfold rank
      rw [if_pos hsmall, if_neg (by omega), if_neg (by omega)]
      omega

end Idle

/-- Outside a handler the CPU takes the open line with the highest priority, if there is one. -/
theorem taken_iff_open {s : State} {es : List Event}
    (h : Run.run step ⟨init p, none, []⟩ es = some s) (hidle : s.handling = none) (v : ℕ) :
    (∃ t, step s .take = some t ∧ t.handling = some v) ↔
      ∃ line, v = 32 + line ∧ Open s line ∧ ∀ l, Open s l → rank line ≤ rank l := by
  have hs := inv_run h
  have hstep : step s .take = s.pics.acknowledge.map fun (v, pics) =>
      ⟨pics, some v, v :: s.served⟩ := by
    rw [step, hidle]
    rfl
  constructor
  · rintro ⟨t, ht, hv⟩
    obtain ⟨⟨v', q⟩, hack, rfl⟩ := Option.map_eq_some_iff.1 (hstep.symm.trans ht)
    obtain rfl := Option.some.inj hv
    exact open_of_vector hs hack
  · rintro ⟨line, rfl, hopen, hleast⟩
    obtain ⟨v, q, hack⟩ := exists_vector hs hidle hopen
    obtain ⟨line', rfl, hopen', hleast'⟩ := open_of_vector hs hack
    obtain rfl := rank_injective hopen.lt hopen'.lt (le_antisymm (hleast _ hopen') (hleast' _ hopen))
    exact ⟨⟨q, some (32 + line), (32 + line) :: s.served⟩, by rw [hstep, hack]; rfl, rfl⟩

theorem taken_iff_open_starved :
    ∃ s, Run.run step ⟨init firmware, none, []⟩ [.raise 9, .take, .finish, .raise 12, .raise 5] =
        some s ∧
      ((∃ t, step s .take = some t ∧ t.handling = some 37) ↔
        ∃ line, 37 = 32 + line ∧ Open s line ∧ ∀ l, Open s l → rank line ≤ rank l) := by
  obtain ⟨s, hs, hidle⟩ : ∃ s, Run.run step ⟨init firmware, none, []⟩
      [.raise 9, .take, .finish, .raise 12, .raise 5] = some s ∧ s.handling = none := ⟨_, rfl, rfl⟩
  exact ⟨s, hs, taken_iff_open hs hidle 37⟩

/-! ## Masks -/

end IceKernel.Pic
