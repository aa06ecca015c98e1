import Mathlib.Data.List.Basic
import Mathlib.Data.Nat.Notation
import Mathlib.Tactic.IntervalCases

/-!
# Interrupt controllers

Two chips of eight lines each: the second one is wired to line 2 of the first. Priorities are
fixed and fully nested, the lowest line first.
-/

namespace Pic8259

/-- What a chip takes the next byte at its data port for. The flags say that a third and a fourth
word of the initialisation follow. -/
inductive Expects
  | mask
  | icw2 (icw3 icw4 : Bool)
  | icw3 (icw4 : Bool)
  | icw4
  deriving DecidableEq, Repr

/-- A chip: the lines that request service, those in service and those that are masked, the vector
of its first line, and its third word of the initialisation. -/
structure Chip where
  requests : BitVec 8
  inService : BitVec 8
  masked : BitVec 8
  base : BitVec 8
  cascade : BitVec 8
  expects : Expects
  deriving DecidableEq, Repr

namespace Chip

/-- The line with the highest priority among those in service. -/
def serving (c : Chip) : Option ℕ := (List.range 8).find? c.inService.getLsbD

/-- An end of interrupt that names no line. -/
def endOfInterrupt (c : Chip) : Chip :=
  c.serving.elim c fun i => { c with inService := c.inService &&& ~~~(1#8 <<< i) }

/-- A byte at the command port: bit 4 starts the initialisation, and among the commands with bits
3 and 4 clear 001 in the upper three bits is the end of interrupt. The others rotate priorities or
choose what is read. -/
def writeCommand (v : BitVec 8) (c : Chip) : Chip :=
  if v.getLsbD 4 then
    { c with
      requests := 0, inService := 0, masked := 0
      expects := .icw2 (!v.getLsbD 1) (v.getLsbD 0) }
  else if v &&& 0x18 = 0 ∧ v >>> 5 = 1 then c.endOfInterrupt
  else c

/-- A byte at the data port. -/
def writeData (v : BitVec 8) (c : Chip) : Chip :=
  match c.expects with
  | .mask => { c with masked := v }
  | .icw2 icw3 icw4 =>
    { c with
      base := v &&& 0xF8
      expects := if icw3 then .icw3 icw4 else if icw4 then .icw4 else .mask }
  | .icw3 icw4 => { c with cascade := v, expects := if icw4 then .icw4 else .mask }
  | .icw4 => { c with expects := .mask }

/-- What is read at the data port. -/
def readData (c : Chip) : BitVec 8 := c.masked

/-- What the initialisation has programmed. -/
def program (c : Chip) : BitVec 8 × BitVec 8 × Expects := (c.base, c.cascade, c.expects)

/-- The line to be served next: it requests it, is not masked, and no line of the same or a higher
priority is in service. -/
def next (c : Chip) : Option ℕ :=
  (List.range 8).find? fun i => c.requests.getLsbD i && !c.masked.getLsbD i &&
    (List.range (i + 1)).all fun j => !c.inService.getLsbD j

/-- A line is in service, and its request is over. -/
def serve (i : ℕ) (c : Chip) : Chip :=
  { c with
    inService := c.inService ||| 1#8 <<< i
    requests := c.requests &&& ~~~(1#8 <<< i) }

def request (i : ℕ) (c : Chip) : Chip := { c with requests := c.requests ||| 1#8 <<< i }

end Chip

structure Pair where
  master : Chip
  slave : Chip
  deriving DecidableEq, Repr

/-- The first chip sees a request of the second one on line 2. -/
def Pair.cascaded (p : Pair) : Chip := if p.slave.next.isSome then p.master.request 2 else p.master

/-- The CPU takes an interrupt and gets its vector. On a line that the first chip has been told a
second one is at, it comes from there. -/
def Pair.acknowledge (p : Pair) : Option (ℕ × Pair) :=
  p.cascaded.next.bind fun i =>
    if p.master.cascade.getLsbD i then
      if p.slave.cascade.toNat = i then
        p.slave.next.map fun k => ((p.slave.base + BitVec.ofNat 8 k).toNat,
          ⟨p.master.serve i, p.slave.serve k⟩)
      else none
    else some ((p.master.base + BitVec.ofNat 8 i).toNat, { p with master := p.master.serve i })

/-- One of the sixteen lines of a pair. -/
def Pair.raise (line : ℕ) (p : Pair) : Pair :=
  if line < 8 then { p with master := p.master.request line }
  else { p with slave := p.slave.request (line - 8) }

def Pair.requestsAt (line : ℕ) (p : Pair) : Bool :=
  if line < 8 then p.master.requests.getLsbD line else p.slave.requests.getLsbD (line - 8)

def Pair.maskedAt (line : ℕ) (p : Pair) : Bool :=
  if line < 8 then p.master.masked.getLsbD line else p.slave.masked.getLsbD (line - 8)

/-! ## Which line is next -/

variable {c : Chip} {i : ℕ}

theorem getLsbD_bit (i j : ℕ) (hi : i < 8) :
    (1#8 <<< i).getLsbD j = decide (i = j) := by
  rw [← BitVec.twoPow_eq, BitVec.getLsbD_twoPow]
  by_cases hij : i = j
  · simp [hij, show j < 8 by omega]
  · simp [hij]

theorem Chip.next_eq_some_iff : c.next = some i ↔ i < 8 ∧ c.requests.getLsbD i = true ∧
    c.masked.getLsbD i = false ∧ (∀ j ≤ i, c.inService.getLsbD j = false) ∧
      ∀ j < i, c.requests.getLsbD j = true → c.masked.getLsbD j = true := by
  have hfree (k : ℕ) : ((List.range (k + 1)).all fun j => !c.inService.getLsbD j) = true ↔
      ∀ j ≤ k, c.inService.getLsbD j = false := by
    simp only [List.all_eq_true, List.mem_range, Nat.lt_succ_iff, Bool.not_eq_true']
  simp only [Chip.next, List.find?_range_eq_some, List.mem_range, Bool.and_eq_true,
    Bool.not_eq_true', hfree]
  constructor
  · rintro ⟨⟨⟨hrequest, hmasked⟩, hservice⟩, hi, hfirst⟩
    refine ⟨hi, hrequest, hmasked, hservice, fun j hj hj' => ?_⟩
    by_contra hopen
    have hall := (hfree j).2 fun k hk => hservice k (by omega)
    have hj := hfirst j hj
    rw [hj', Bool.eq_false_iff.2 hopen, hall] at hj
    exact absurd hj (by decide)
  · rintro ⟨hi, hrequest, hmasked, hservice, hfirst⟩
    refine ⟨⟨⟨hrequest, hmasked⟩, hservice⟩, hi, fun j hj => ?_⟩
    by_cases hj' : c.requests.getLsbD j = true
    · rw [hj', hfirst j hj hj']
      rfl
    · rw [Bool.eq_false_iff.2 hj']
      rfl

theorem Chip.exists_next (hi : i < 8) (hrequest : c.requests.getLsbD i = true)
    (hmasked : c.masked.getLsbD i = false) (hservice : ∀ j ≤ i, c.inService.getLsbD j = false) :
    ∃ k, c.next = some k := by
  refine Option.isSome_iff_exists.1 (List.find?_isSome.2 ⟨i, List.mem_range.2 hi, ?_⟩)
  rw [hrequest, hmasked, Bool.not_false, Bool.and_self, Bool.true_and, List.all_eq_true]
  intro j hj
  rw [hservice j (Nat.lt_succ_iff.1 (List.mem_range.1 hj)), Bool.not_false]

theorem Chip.request_requests (c : Chip) (i j : ℕ) (hi : i < 8) :
    (c.request i).requests.getLsbD j = (c.requests.getLsbD j || decide (i = j)) := by
  rw [Chip.request, BitVec.getLsbD_or, getLsbD_bit i j hi]

theorem Chip.serve_inService (c : Chip) (i j : ℕ) (hi : i < 8) :
    (c.serve i).inService.getLsbD j = (c.inService.getLsbD j || decide (i = j)) := by
  rw [Chip.serve, BitVec.getLsbD_or, getLsbD_bit i j hi]

/-- The first chip as it sees the second one, on a line where nothing else is. -/
theorem Pair.cascaded_requests {p : Pair} (h : p.master.requests.getLsbD 2 = false) (j : ℕ) :
    p.cascaded.requests.getLsbD j =
      if j = 2 then p.slave.next.isSome else p.master.requests.getLsbD j := by
  unfold Pair.cascaded
  by_cases hj : j = 2
  · subst hj
    cases hnext : p.slave.next with
    | none => simpa using h
    | some k =>
      rw [Option.isSome_some, if_pos rfl, Chip.request_requests _ 2 2 (by norm_num), if_pos rfl,
        decide_eq_true rfl, Bool.or_true]
  · rw [if_neg hj]
    cases hnext : p.slave.next with
    | none => rfl
    | some k =>
      rw [Option.isSome_some, if_pos rfl, Chip.request_requests _ 2 j (by norm_num),
        decide_eq_false (Ne.symm hj), Bool.or_false]

theorem Pair.cascaded_masked (p : Pair) : p.cascaded.masked = p.master.masked := by
  unfold Pair.cascaded
  split <;> rfl

theorem Pair.cascaded_inService (p : Pair) : p.cascaded.inService = p.master.inService := by
  unfold Pair.cascaded
  split <;> rfl

/-- With one line in service, an end of interrupt is for that one; with none it changes nothing. -/
theorem Chip.endOfInterrupt_single (hi : i < 8) (h : c.inService = 1#8 <<< i) :
    c.endOfInterrupt = { c with inService := 0 } := by
  have hserving : c.serving = some i := by
    rw [Chip.serving, h]
    interval_cases i <;> rfl
  have hclear : c.inService &&& ~~~(1#8 <<< i) = 0 := by
    rw [h, BitVec.and_not_self]
  rw [Chip.endOfInterrupt, hserving, Option.elim_some, hclear]

theorem Chip.endOfInterrupt_idle (h : c.inService = 0) : c.endOfInterrupt = c := by
  have hserving : c.serving = none := by
    rw [Chip.serving, h]
    rfl
  rw [Chip.endOfInterrupt, hserving, Option.elim_none]

/-- Behind the initialisation, the data port sets the mask. -/
theorem Chip.writeData_mask (h : c.expects = .mask) (v : BitVec 8) :
    c.writeData v = { c with masked := v } := by
  cases c
  cases h
  rfl

@[simp] theorem Chip.endOfInterrupt_masked (c : Chip) :
    c.endOfInterrupt.masked = c.masked := by
  unfold Chip.endOfInterrupt
  cases c.serving <;> rfl

end Pic8259
