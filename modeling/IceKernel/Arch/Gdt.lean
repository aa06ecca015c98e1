import IceKernel.Arch.InterruptStub
import Mathlib.Tactic.IntervalCases

/-!
# `gdt/gdt.cpp` and `gdt/gdt.asm`: the segments

Six descriptors are written to memory, and `gdt64_load` makes the CPU use them: it checks each one
that it loads.
-/

namespace IceKernel.Gdt
open Stack64 InterruptStub

/-- `gdt_entry_t`. -/
structure GdtEntry where
  limitLow : BitVec 16
  baseLow : BitVec 16
  baseMid : BitVec 8
  access : BitVec 8
  granularity : BitVec 8
  baseHigh : BitVec 8
  deriving DecidableEq, Repr

/-- The packed structure as a quadword. -/
def GdtEntry.word (e : GdtEntry) : BitVec 64 :=
  e.baseHigh ++ e.granularity ++ e.access ++ e.baseMid ++ e.baseLow ++ e.limitLow

/-- `create_entry(base, limit, granularity, access)`. -/
def createEntry (base limit : BitVec 32) (granularity access : BitVec 8) : GdtEntry where
  limitLow := (limit &&& 0xFFFF).setWidth 16
  baseLow := (base &&& 0xFFFF).setWidth 16
  baseMid := ((base >>> 16) &&& 0xFF).setWidth 8
  access := access
  granularity := ((limit >>> 16) &&& 0x0F).setWidth 8 ||| (granularity &&& 0xF0)
  baseHigh := ((base >>> 24) &&& 0xFF).setWidth 8

def longModeGranularity : BitVec 8 := 0x20
def present : BitVec 8 := 0x80
def user : BitVec 8 := 0x60
def segment : BitVec 8 := 0x10
def executable : BitVec 8 := 0x8
def readWrite : BitVec 8 := 0x2

def kernelCodeSelector : BitVec 64 := 1
def kernelDataSelector : BitVec 64 := 2

/-- The entries that `init` writes, in their order. -/
def entries : List GdtEntry :=
  [createEntry 0 0 0 0,
    createEntry 0 0 longModeGranularity (present ||| segment ||| readWrite ||| executable),
    createEntry 0 0 0 (present ||| segment ||| readWrite),
    createEntry 0 0 0 0,
    createEntry 0 0 longModeGranularity (present ||| segment ||| readWrite ||| user),
    createEntry 0 0 0 (present ||| segment ||| readWrite ||| user)]

/-- `_gdt.gdt[i] = entry` for the entries from the `i`-th on. -/
def writeEntries (gdt : BitVec 64) : List GdtEntry → ℕ → Mem → Mem
  | [], _, m => m
  | e :: es, i, m => writeEntries gdt es (i + 1) (store64 m (gdt + BitVec.ofNat 64 (8 * i)) e.word)

/-! ## The CPU's view -/

/-- A segment descriptor. The bits of `flags` are AVL, L, D/B and G. -/
structure Descriptor where
  base : BitVec 32
  limit : BitVec 20
  access : BitVec 8
  flags : BitVec 4
  deriving DecidableEq, Repr

def Descriptor.decode (w : BitVec 64) : Descriptor where
  base := w.extractLsb' 56 8 ++ w.extractLsb' 32 8 ++ w.extractLsb' 16 16
  limit := w.extractLsb' 48 4 ++ w.extractLsb' 0 16
  access := w.extractLsb' 40 8
  flags := w.extractLsb' 52 4

namespace Descriptor

variable (d : Descriptor)

/-- A code or data segment that is there. -/
def isThere : Bool := d.access.getLsbD 7 && d.access.getLsbD 4

def isCode : Bool := d.access.getLsbD 3

/-- For code, whether it is conforming. -/
def conforming : Bool := d.access.getLsbD 2

/-- Code can be read, or data can be written. -/
def accessible : Bool := d.access.getLsbD 1

def dpl : BitVec 2 := d.access.extractLsb' 5 2

/-- Code of 64 bits. -/
def isLong : Bool := d.flags.getLsbD 1 && !d.flags.getLsbD 2

end Descriptor

/-- `base` and `limit` of the table in use. -/
structure Gdtr where
  limit : BitVec 16
  base : BitVec 64
  deriving DecidableEq, Repr

/-- The requested privilege level of a selector. -/
def rpl (sel : BitVec 16) : BitVec 2 := sel.setWidth 2

/-- A selector without an index. -/
def isNull (sel : BitVec 16) : Bool := sel >>> 2 == 0

/-- The descriptor of a selector; there is no local table. -/
def lookup (m : Mem) (gdtr : Gdtr) (sel : BitVec 16) : Option Descriptor :=
  if sel.getLsbD 2 = false ∧ 8 * (sel >>> 3).toNat + 7 ≤ gdtr.limit.toNat then
    some (.decode (load64 m (gdtr.base + BitVec.ofNat 64 (8 * (sel >>> 3).toNat))))
  else none

/-- The check of a code selector on a return from the privilege level `cpl`. -/
def codeLoads (m : Mem) (gdtr : Gdtr) (cpl : BitVec 2) (sel : BitVec 16) : Bool :=
  !isNull sel && (lookup m gdtr sel).any fun d =>
    d.isThere && d.isCode && decide (cpl ≤ rpl sel) &&
      (if d.conforming then decide (d.dpl ≤ rpl sel) else d.dpl == rpl sel) && d.isLong

/-- The check of a stack selector at the privilege level `cpl`; code of 64 bits can do without one
outside level 3. -/
def stackLoads (m : Mem) (gdtr : Gdtr) (cpl : BitVec 2) (sel : BitVec 16) : Bool :=
  if isNull sel then cpl != 3 && rpl sel == cpl
  else (lookup m gdtr sel).any fun d =>
    d.isThere && !d.isCode && d.accessible && d.dpl == cpl && rpl sel == cpl

/-- The check of a data selector at the privilege level `cpl`. -/
def dataLoads (m : Mem) (gdtr : Gdtr) (cpl : BitVec 2) (sel : BitVec 16) : Bool :=
  isNull sel || (lookup m gdtr sel).any fun d =>
    d.isThere && (!d.isCode || d.accessible) &&
      (d.isCode && d.conforming || (decide (cpl ≤ d.dpl) && decide (rpl sel ≤ d.dpl)))

/-! ## `gdt64_load` -/

inductive SegReg
  | ss | gs | fs | ds | es
  deriving DecidableEq, Repr

/-- The instructions of the file. Behind `iretq` the code goes on at `.trampoline`, where it has to
return to. -/
inductive Instr
  | lgdt (r : Reg)
  | push (r : Reg)
  | movFromRsp (r : Reg)
  | pushfq
  | pushTrampoline
  | iretq
  | pop (r : Reg)
  | movSeg (s : SegReg) (r : Reg)
  | ret
  deriving DecidableEq, Repr

def gdt64Load : List Instr :=
  [.lgdt .rdi, .push .rbp, .movFromRsp .rbp, .push .rsi, .push .rbp, .pushfq, .push .rdx,
    .pushTrampoline, .iretq, .pop .rbp, .movSeg .ss .rsi, .movSeg .gs .rsi, .movSeg .fs .rsi,
    .movSeg .ds .rsi, .movSeg .es .rsi, .ret]

/-- `rip` is where a return has led to. -/
structure Machine where
  regs : Reg → BitVec 64
  rsp : BitVec 64
  rip : BitVec 64
  rflags : BitVec 64
  cs : BitVec 16
  segs : SegReg → BitVec 16
  gdtr : Gdtr
  mem : Mem

def Machine.pushWord (s : Machine) (w : BitVec 64) : Machine :=
  { s with rsp := s.rsp - 8, mem := store64 s.mem (s.rsp - 8) w }

/-- One instruction. `none` is a fault, or a return to another place or level. -/
def step (trampoline : BitVec 64) (s : Machine) : Instr → Option Machine
  | .lgdt r => some { s with gdtr := ⟨load s.mem (s.regs r) 2, load64 s.mem (s.regs r + 2)⟩ }
  | .push r => some (s.pushWord (s.regs r))
  | .movFromRsp r => some { s with regs := Function.update s.regs r s.rsp }
  | .pushfq => some (s.pushWord s.rflags)
  | .pushTrampoline => some (s.pushWord trampoline)
  | .iretq =>
    let cs : BitVec 16 := (load64 s.mem (s.rsp + 8)).setWidth 16
    let ss : BitVec 16 := (load64 s.mem (s.rsp + 32)).setWidth 16
    if load64 s.mem s.rsp = trampoline ∧ rpl cs = rpl s.cs ∧
        codeLoads s.mem s.gdtr (rpl s.cs) cs ∧ stackLoads s.mem s.gdtr (rpl cs) ss then
      some { s with
        rip := trampoline, cs := cs, rflags := load64 s.mem (s.rsp + 16)
        rsp := load64 s.mem (s.rsp + 24), segs := Function.update s.segs .ss ss }
    else none
  | .pop r =>
    some { s with regs := Function.update s.regs r (load64 s.mem s.rsp), rsp := s.rsp + 8 }
  | .movSeg seg r =>
    let sel : BitVec 16 := (s.regs r).setWidth 16
    if (if seg = .ss then stackLoads s.mem s.gdtr (rpl s.cs) sel
        else dataLoads s.mem s.gdtr (rpl s.cs) sel) then
      some { s with segs := Function.update s.segs seg sel }
    else none
  | .ret => some { s with rip := load64 s.mem s.rsp, rsp := s.rsp + 8 }

/-- `init`, after its message: the table, and `load(&_gdt_descriptor)`. -/
def init (trampoline gdt descriptor : BitVec 64) (s : Machine) : Option Machine :=
  let s := { s with mem := writeEntries gdt entries 0 s.mem }
  let regs := Function.update (Function.update (Function.update s.regs .rdi descriptor) .rsi
    (kernelDataSelector * 8)) .rdx (kernelCodeSelector * 8)
  gdt64Load.foldlM (step trampoline) { s with regs := regs }

/-! ## Entries -/

theorem mask_bits : (∀ j < 16, (0xFFFF : BitVec 32).getLsbD j = true) ∧
    (∀ j < 8, (0xFF : BitVec 32).getLsbD j = true) ∧
    (∀ j < 8, (0x0F : BitVec 32).getLsbD j = decide (j < 4)) ∧
    ∀ j < 8, (0xF0 : BitVec 8).getLsbD j = decide (4 ≤ j) := by decide

/-- The fields of an entry are cut out of its arguments. -/
theorem createEntry_eq (base limit : BitVec 32) (granularity access : BitVec 8) :
    createEntry base limit granularity access =
      ⟨limit.extractLsb' 0 16, base.extractLsb' 0 16, base.extractLsb' 16 8, access,
        granularity.extractLsb' 4 4 ++ limit.extractLsb' 16 4, base.extractLsb' 24 8⟩ := by
  obtain ⟨h16, h8, h4, hf0⟩ := mask_bits
  have hlow (x : BitVec 32) : (x &&& 0xFFFF).setWidth 16 = x.extractLsb' 0 16 := by
    refine BitVec.eq_of_getLsbD_eq fun i hi => ?_
    simp only [BitVec.getLsbD_setWidth, BitVec.getLsbD_and, BitVec.getLsbD_extractLsb', h16 i hi,
      hi, decide_true, Bool.true_and, Bool.and_true, Nat.zero_add]
  have hbyte (x : BitVec 32) (k : ℕ) :
      ((x >>> k) &&& 0xFF).setWidth 8 = x.extractLsb' k 8 := by
    refine BitVec.eq_of_getLsbD_eq fun i hi => ?_
    simp only [BitVec.getLsbD_setWidth, BitVec.getLsbD_and, BitVec.getLsbD_ushiftRight,
      BitVec.getLsbD_extractLsb', h8 i hi, hi, decide_true, Bool.true_and, Bool.and_true]
  have hnibbles : ((limit >>> 16) &&& 0x0F).setWidth 8 ||| (granularity &&& 0xF0) =
      granularity.extractLsb' 4 4 ++ limit.extractLsb' 16 4 := by
    refine BitVec.eq_of_getLsbD_eq fun i hi => ?_
    simp only [BitVec.getLsbD_setWidth, BitVec.getLsbD_and, BitVec.getLsbD_or,
      BitVec.getLsbD_ushiftRight, BitVec.getLsbD_append, BitVec.getLsbD_extractLsb', h4 i hi,
      hf0 i hi, hi, decide_true, Bool.true_and]
    by_cases hlt : i < 4
    · simp [hlt, show ¬ 4 ≤ i by omega]
    · simp [hlt, show 4 ≤ i by omega, show i - 4 < 4 by omega, show 4 + (i - 4) = i by omega]
  unfold createEntry
  rw [hlow, hlow, hbyte, hbyte, hnibbles]

theorem decode_word (e : GdtEntry) : Descriptor.decode e.word =
    ⟨e.baseHigh ++ e.baseMid ++ e.baseLow, e.granularity.extractLsb' 0 4 ++ e.limitLow, e.access,
      e.granularity.extractLsb' 4 4⟩ := by
  unfold Descriptor.decode GdtEntry.word
  simp (disch := omega) only [BitVec.extractLsb'_append_eq_of_le,
    BitVec.extractLsb'_append_eq_of_add_le, Nat.reduceSub, BitVec.extractLsb'_eq_self]

/-- An entry tells the CPU what it has been made of; a limit of more than 20 bits is cut off. -/
theorem decode_createEntry (base limit : BitVec 32) (granularity access : BitVec 8) :
    Descriptor.decode (createEntry base limit granularity access).word =
      ⟨base, limit.setWidth 20, access, granularity.extractLsb' 4 4⟩ := by
  have hbase : base.extractLsb' 24 8 ++ base.extractLsb' 16 8 ++ base.extractLsb' 0 16 = base := by
    rw [BitVec.extractLsb'_append_extractLsb'_eq_extractLsb' (show 24 = 16 + 8 by rfl),
      BitVec.extractLsb'_append_extractLsb'_eq_extractLsb' (show 16 = 0 + 16 by rfl)]
    exact BitVec.extractLsb'_eq_self
  have hlimit : limit.extractLsb' 16 4 ++ limit.extractLsb' 0 16 = limit.setWidth 20 := by
    rw [BitVec.extractLsb'_append_extractLsb'_eq_extractLsb' (show 16 = 0 + 16 by rfl)]
    exact (BitVec.setWidth_eq_extractLsb' (by norm_num)).symm
  rw [createEntry_eq, decode_word]
  simp (disch := omega) only [BitVec.extractLsb'_append_eq_of_le,
    BitVec.extractLsb'_append_eq_of_add_le, Nat.sub_self, BitVec.extractLsb'_eq_self, hbase, hlimit]

/-! ## The table -/

/-- The table in memory. -/
def Table (m : Mem) (gdt : BitVec 64) : Prop :=
  ∀ i e, entries[i]? = some e → load64 m (gdt + BitVec.ofNat 64 (8 * i)) = e.word

/-- Entries from the `i`-th on. Others lie apart, as the table is smaller than the memory. -/
theorem writeEntries_spec (gdt : BitVec 64) (es : List GdtEntry) (i : ℕ) (m : Mem)
    (hlen : 8 * (i + es.length) ≤ 2 ^ 64) :
    (∀ j e, es[j]? = some e →
      load64 (writeEntries gdt es i m) (gdt + BitVec.ofNat 64 (8 * (i + j))) = e.word) ∧
    ∀ x, ¬ (8 * i ≤ (x - gdt).toNat ∧ (x - gdt).toNat < 8 * (i + es.length)) →
      writeEntries gdt es i m x = m x := by
  induction es generalizing i m with
  | nil => exact ⟨fun j e h => absurd h (by simp), fun x _ => rfl⟩
  | cons e es ih =>
    rw [List.length_cons] at hlen
    obtain ⟨hread, hframe⟩ :=
      ih (i + 1) (store64 m (gdt + BitVec.ofNat 64 (8 * i)) e.word) (by omega)
    refine ⟨fun j e' he => ?_, fun x hx => ?_⟩
    · cases j with
      | zero =>
        obtain rfl : e = e' := by simpa using he
        rw [Nat.add_zero]
        refine (load_congr fun k hk => ?_).trans (load64_store64 m _ _)
        refine hframe _ fun hin => ?_
        have hoff : (gdt + BitVec.ofNat 64 (8 * i) + BitVec.ofNat 64 k - gdt).toNat = 8 * i + k := by
          bv_omega
        omega
      | succ j =>
        have hstep : i + (j + 1) = i + 1 + j := by omega
        rw [hstep]
        exact hread j e' (by simpa using he)
    · rw [List.length_cons] at hx
      rw [writeEntries, hframe x (by omega), store64, if_neg]
      intro hin
      have hoff : (x - gdt).toNat = 8 * i + (x - (gdt + BitVec.ofNat 64 (8 * i))).toNat := by
        bv_omega
      omega

theorem table_writeEntries (gdt : BitVec 64) (m : Mem) :
    Table (writeEntries gdt entries 0 m) gdt := fun i e he => by
  have hread := (writeEntries_spec gdt entries 0 m (by decide)).1 i e he
  rwa [Nat.zero_add] at hread

variable {m : Mem} {gdt : BitVec 64} {cpl : BitVec 2} {sel : BitVec 16}

/-- The six descriptors. -/
def descriptors : List Descriptor := entries.map fun e => .decode e.word

theorem lookup_eq (h : Table m gdt) (sel : BitVec 16) : lookup m ⟨47, gdt⟩ sel =
    if sel.getLsbD 2 = false then descriptors[(sel >>> 3).toNat]? else none := by
  have hlen : entries.length = 6 := rfl
  unfold lookup
  by_cases hlocal : sel.getLsbD 2 = false
  · rw [if_pos hlocal, descriptors, List.getElem?_map]
    by_cases hin : (sel >>> 3).toNat < 6
    · rw [if_pos ⟨hlocal, by change _ ≤ 47; omega⟩, List.getElem?_eq_getElem (by omega),
        Option.map_some]
      exact congrArg (some ∘ Descriptor.decode) (h _ _ (List.getElem?_eq_getElem (by omega)))
    · rw [if_neg fun hboth => hin (by have hle : _ ≤ 47 := hboth.2; omega),
        List.getElem?_eq_none (by omega), Option.map_none]
  · rw [if_neg hlocal, if_neg fun hboth => hlocal hboth.1]

theorem loads_kernel (h : Table m gdt) : codeLoads m ⟨47, gdt⟩ 0 8 = true ∧
    stackLoads m ⟨47, gdt⟩ 0 16 = true ∧ dataLoads m ⟨47, gdt⟩ 0 16 = true := by
  have hcode : lookup m ⟨47, gdt⟩ 8 = descriptors[1]? := lookup_eq h 8
  have hdata : lookup m ⟨47, gdt⟩ 16 = descriptors[2]? := lookup_eq h 16
  refine ⟨?_, ?_, ?_⟩
  · rw [codeLoads, hcode]
    rfl
  · rw [stackLoads, hdata]
    rfl
  · rw [dataLoads, hdata]
    rfl

/-- A selector is its index, the bit for the local table and its level. -/
theorem eq_kernelCode (hindex : (sel >>> 3).toNat = 1) (hlocal : sel.getLsbD 2 = false)
    (hrpl : rpl sel = 0) : sel = 8 := by
  have hdiv : sel.toNat / 8 = 1 := by
    rwa [BitVec.toNat_ushiftRight, Nat.shiftRight_eq_div_pow] at hindex
  have hmod : sel.toNat % 4 = 0 := by
    have htoNat := congrArg BitVec.toNat hrpl
    rwa [rpl, BitVec.toNat_setWidth] at htoNat
  have hbit : sel.toNat / 4 % 2 = 0 := by
    rw [← BitVec.testBit_toNat, Nat.testBit_eq_decide_div_mod_eq] at hlocal
    have hne := of_decide_eq_false hlocal
    omega
  refine BitVec.eq_of_toNat_eq ?_
  change sel.toNat = 8
  omega

/-- The segment for the code of programs is one of data: the only selector that the CPU takes for
code is that of the kernel, and only there. -/
theorem codeLoads_iff (h : Table m gdt) (cpl : BitVec 2) (sel : BitVec 16) :
    codeLoads m ⟨47, gdt⟩ cpl sel = true ↔ cpl = 0 ∧ sel = 8 := by
  constructor
  · intro hloads
    rw [codeLoads, lookup_eq h, Bool.and_eq_true] at hloads
    by_cases hlocal : sel.getLsbD 2 = false
    · rw [if_pos hlocal] at hloads
      obtain ⟨d, hd, hcheck⟩ := (Option.any_eq_true _ _).1 hloads.2
      obtain ⟨hlt, rfl⟩ := List.getElem?_eq_some_iff.1 hd
      have hall : ∀ i : Fin 6, ∀ r c : BitVec 2,
          ((descriptors.get i).isThere && (descriptors.get i).isCode && decide (c ≤ r) &&
            (if (descriptors.get i).conforming then decide ((descriptors.get i).dpl ≤ r)
              else (descriptors.get i).dpl == r) && (descriptors.get i).isLong) = true →
          i.val = 1 ∧ r = 0 ∧ c = 0 := by decide
      obtain ⟨hindex, hrpl, hcpl⟩ := hall ⟨_, hlt⟩ (rpl sel) cpl hcheck
      exact ⟨hcpl, eq_kernelCode hindex hlocal hrpl⟩
    · rw [if_neg hlocal] at hloads
      exact absurd hloads.2 (by simp)
  · rintro ⟨rfl, rfl⟩
    exact (loads_kernel h).1

/-! ## The switch -/

/-- What a call of `gdt64_load` does to the machine: it comes back with the segments of the kernel in
all registers and everything else as it was. -/
structure Switched (gdt : BitVec 64) (s t : Machine) : Prop where
  rip : t.rip = load64 s.mem s.rsp
  rsp : t.rsp = s.rsp + 8
  rflags : t.rflags = s.rflags
  cs : t.cs = 8
  segs : ∀ seg, t.segs seg = 16
  gdtr : t.gdtr = ⟨47, gdt⟩
  regs : t.regs = s.regs
  mem : ∀ x, 48 ≤ (x - (s.rsp - 48)).toNat → t.mem x = s.mem x

theorem store64_frame (m : Mem) (a v x : BitVec 64) (h : 8 ≤ (x - a).toNat) :
    store64 m a v x = m x := if_neg (by omega)

/-- Six words below `sp` touch nothing else. -/
theorem pushes_frame (m : Mem) (sp : BitVec 64) (v₁ v₂ v₃ v₄ v₅ v₆ : BitVec 64) {x : BitVec 64}
    (hx : 48 ≤ (x - (sp - 48)).toNat) :
    store64 (store64 (store64 (store64 (store64 (store64 m (sp - 8) v₁) (sp - 8 - 8) v₂)
      (sp - 8 - 8 - 8) v₃) (sp - 8 - 8 - 8 - 8) v₄) (sp - 8 - 8 - 8 - 8 - 8) v₅)
      (sp - 8 - 8 - 8 - 8 - 8 - 8) v₆ x = m x := by
  have h₁ : 8 ≤ (x - (sp - 8)).toNat := by bv_omega
  have h₂ : 8 ≤ (x - (sp - 8 - 8)).toNat := by bv_omega
  have h₃ : 8 ≤ (x - (sp - 8 - 8 - 8)).toNat := by bv_omega
  have h₄ : 8 ≤ (x - (sp - 8 - 8 - 8 - 8)).toNat := by bv_omega
  have h₅ : 8 ≤ (x - (sp - 8 - 8 - 8 - 8 - 8)).toNat := by bv_omega
  have h₆ : 8 ≤ (x - (sp - 8 - 8 - 8 - 8 - 8 - 8)).toNat := by bv_omega
  rw [store64_frame _ _ _ _ h₆, store64_frame _ _ _ _ h₅, store64_frame _ _ _ _ h₄,
    store64_frame _ _ _ _ h₃, store64_frame _ _ _ _ h₂, store64_frame _ _ _ _ h₁]

section Load

variable {trampoline : BitVec 64} {s : Machine}

/-- In front of `iretq` the stack holds what it is to return to, above the old `rbp`. -/
structure Prepared (trampoline gdt : BitVec 64) (s t : Machine) : Prop where
  rsp : t.rsp = s.rsp - 48
  regs : t.regs = Function.update s.regs .rbp (s.rsp - 8)
  rflags : t.rflags = s.rflags
  cs : t.cs = s.cs
  gdtr : t.gdtr = ⟨47, gdt⟩
  stack : HoldsStack t.mem (s.rsp - 48) [trampoline, s.regs .rdx, s.rflags, s.rsp - 8, s.regs .rsi,
    s.regs .rbp, load64 s.mem s.rsp]
  mem : ∀ x, 48 ≤ (x - (s.rsp - 48)).toNat → t.mem x = s.mem x

theorem prologue_prepares (trampoline : BitVec 64) (hlimit : load s.mem (s.regs .rdi) 2 = 47)
    (hbase : load64 s.mem (s.regs .rdi + 2) = gdt) :
    ∃ t, (gdt64Load.take 8).foldlM (step trampoline) s = some t ∧ Prepared trampoline gdt s t := by
  have hstack : HoldsStack s.mem s.rsp [load64 s.mem s.rsp] := ⟨rfl, trivial⟩
  have hpushed := (((((hstack.push (by norm_num) (s.regs .rbp)).push (by norm_num)
    (s.regs .rsi)).push (by norm_num) (s.rsp - 8)).push (by norm_num) s.rflags).push (by norm_num)
    (s.regs .rdx)).push (by norm_num) trampoline
  have hrsp : s.rsp - 8 - 8 - 8 - 8 - 8 - 8 = s.rsp - 48 := by bv_omega
  refine ⟨_, rfl, ⟨hrsp, rfl, rfl, rfl, congrArg₂ Gdtr.mk hlimit hbase, ?_, fun x hx => ?_⟩⟩
  · rw [← hrsp]
    exact hpushed
  · exact pushes_frame s.mem s.rsp _ _ _ _ _ _ hx

/-- A move of the kernel's data selector. -/
theorem movSeg_eq (seg : SegReg) {r : Reg} (htable : Table s.mem gdt) (hgdtr : s.gdtr = ⟨47, gdt⟩)
    (hcs : s.cs = 8) (hr : s.regs r = 16) :
    step trampoline s (.movSeg seg r) = some { s with segs := Function.update s.segs seg 16 } := by
  obtain ⟨-, hstack, hdata⟩ := loads_kernel htable
  have hsel : (s.regs r).setWidth 16 = (16 : BitVec 16) := by
    rw [hr]
    rfl
  have hcheck : (if seg = .ss then stackLoads s.mem s.gdtr (rpl s.cs) 16
      else dataLoads s.mem s.gdtr (rpl s.cs) 16) = true := by
    rw [hgdtr, hcs]
    split
    · exact hstack
    · exact hdata
  rw [step, hsel]
  exact if_pos hcheck

/-- `iretq` takes the pushed selectors, and what is behind it finds them in place. -/
theorem iretq_eq {t : Machine} (h : Prepared trampoline gdt s t) (hrsi : s.regs .rsi = 16)
    (hrdx : s.regs .rdx = 8) (hcpl : rpl s.cs = 0) (htable : Table t.mem gdt) :
    step trampoline t .iretq = some { t with
      rip := trampoline, cs := 8, rsp := s.rsp - 8, segs := Function.update t.segs .ss 16 } := by
  obtain ⟨hcode, hstack, -⟩ := loads_kernel htable
  have hrip : load64 t.mem t.rsp = trampoline := by
    rw [h.rsp]
    exact h.stack.1
  have hword {i : ℕ} {w : BitVec 64} (hi : [trampoline, s.regs .rdx, s.rflags, s.rsp - 8,
      s.regs .rsi, s.regs .rbp, load64 s.mem s.rsp][i]? = some w) :
      load64 t.mem (t.rsp + BitVec.ofNat 64 (8 * i)) = w := by
    rw [h.rsp]
    exact h.stack.load hi
  have hcs : (load64 t.mem (t.rsp + 8)).setWidth 16 = (8 : BitVec 16) :=
    (congrArg (BitVec.setWidth 16) (hword (i := 1) rfl)).trans (by rw [hrdx]; rfl)
  have hss : (load64 t.mem (t.rsp + 32)).setWidth 16 = (16 : BitVec 16) :=
    (congrArg (BitVec.setWidth 16) (hword (i := 4) rfl)).trans (by rw [hrsi]; rfl)
  have hrflags : load64 t.mem (t.rsp + 16) = t.rflags := (hword (i := 2) rfl).trans h.rflags.symm
  have hrsp : load64 t.mem (t.rsp + 24) = s.rsp - 8 := hword (i := 3) rfl
  have hzero : rpl t.cs = 0 := by rw [h.cs, hcpl]
  rw [step, hcs, hss, hrflags, hrsp, hzero, h.gdtr]
  exact if_pos ⟨hrip, rfl, hcode, hstack⟩

theorem moves_eq (trampoline : BitVec 64) (segs : List SegReg) (r : Reg)
    (htable : Table s.mem gdt) (hgdtr : s.gdtr = ⟨47, gdt⟩) (hcs : s.cs = 8) (hr : s.regs r = 16) :
    (segs.map (.movSeg · r)).foldlM (step trampoline) s =
      some { s with segs := segs.foldl (fun f seg => Function.update f seg 16) s.segs } := by
  induction segs generalizing s with
  | nil => rfl
  | cons seg segs ih =>
    rw [List.map_cons, List.foldlM_cons, movSeg_eq seg htable hgdtr hcs hr, Option.bind_eq_bind,
      Option.bind_some]
    exact ih (s := { s with segs := Function.update s.segs seg 16 }) htable hgdtr hcs hr

/-- At `.trampoline` the old `rbp` and the return address are left on the stack. -/
theorem trampoline_eq (htable : Table s.mem gdt) (hgdtr : s.gdtr = ⟨47, gdt⟩) (hcs : s.cs = 8)
    (hrsi : s.regs .rsi = 16) :
    (gdt64Load.drop 9).foldlM (step trampoline) s = some { s with
      regs := Function.update s.regs .rbp (load64 s.mem s.rsp), segs := fun _ => 16
      rsp := s.rsp + 8 + 8, rip := load64 s.mem (s.rsp + 8) } := by
  have hdrop : gdt64Load.drop 9 = .pop .rbp ::
    ([SegReg.ss, .gs, .fs, .ds, .es].map (.movSeg · .rsi) ++ [.ret]) := rfl
  have hsame : Function.update s.regs .rbp (load64 s.mem s.rsp) .rsi = 16 :=
    (Function.update_of_ne (by decide) _ _).trans hrsi
  have hmoves := moves_eq trampoline (s := { s with
    regs := Function.update s.regs .rbp (load64 s.mem s.rsp), rsp := s.rsp + 8 })
    [.ss, .gs, .fs, .ds, .es] .rsi htable hgdtr hcs hsame
  have hsegs : [SegReg.ss, .gs, .fs, .ds, .es].foldl (fun f seg => Function.update f seg 16) s.segs =
      fun _ => (16 : BitVec 16) := by
    funext seg
    cases seg <;> rfl
  rw [hdrop, List.foldlM_cons, step, Option.bind_eq_bind, Option.bind_some, List.foldlM_append,
    hmoves, Option.bind_eq_bind, Option.bind_some, hsegs]
  rfl

theorem gdt64Load_switches (trampoline : BitVec 64)
    (hlimit : load s.mem (s.regs .rdi) 2 = 47) (hbase : load64 s.mem (s.regs .rdi + 2) = gdt)
    (hrsi : s.regs .rsi = 16) (hrdx : s.regs .rdx = 8) (hcpl : rpl s.cs = 0)
    (htable : Table s.mem gdt)
    (hapart : ∀ i < 48, 48 ≤ (gdt + BitVec.ofNat 64 i - (s.rsp - 48)).toNat) :
    ∃ t, gdt64Load.foldlM (step trampoline) s = some t ∧ Switched gdt s t := by
  obtain ⟨t, hrun, ht⟩ := prologue_prepares trampoline hlimit hbase
  have htable' : Table t.mem gdt := fun i e he => by
    have hi : i < 6 := (List.getElem?_eq_some_iff.1 he).1
    refine (load_congr fun k hk => ht.mem _ ?_).trans (htable i e he)
    have hbyte : gdt + BitVec.ofNat 64 (8 * i) + BitVec.ofNat 64 k =
        gdt + BitVec.ofNat 64 (8 * i + k) := by bv_omega
    rw [hbyte]
    exact hapart _ (by omega)
  have hrbp : load64 t.mem (s.rsp - 8) = s.regs .rbp := by
    have hslot : s.rsp - 48 + BitVec.ofNat 64 (8 * 5) = s.rsp - 8 := by bv_omega
    rw [← hslot]
    exact ht.stack.load rfl
  have hret : load64 t.mem (s.rsp - 8 + 8) = load64 s.mem s.rsp := by
    have hslot : s.rsp - 48 + BitVec.ofNat 64 (8 * 6) = s.rsp - 8 + 8 := by bv_omega
    rw [← hslot]
    exact ht.stack.load rfl
  have hregs : t.regs .rsi = 16 := by
    rw [ht.regs, Function.update_of_ne (by decide), hrsi]
  have hsplit : gdt64Load = gdt64Load.take 8 ++ .iretq :: gdt64Load.drop 9 := rfl
  rw [hsplit, List.foldlM_append, hrun, Option.bind_eq_bind, Option.bind_some, List.foldlM_cons,
    iretq_eq ht hrsi hrdx hcpl htable', Option.bind_eq_bind, Option.bind_some]
  refine ⟨_, trampoline_eq (s := { t with
    rip := trampoline, cs := 8, rsp := s.rsp - 8, segs := Function.update t.segs .ss 16 })
    htable' ht.gdtr rfl hregs, ⟨hret, ?_, ht.rflags, rfl, fun _ => rfl, ht.gdtr, ?_, ht.mem⟩⟩
  · dsimp only
    rw [BitVec.sub_add_cancel]
  · dsimp only
    rw [hrbp, ht.regs, Function.update_idem, Function.update_eq_self]

end Load

/-- The return address lies in the part of the stack that the table is apart from. -/
theorem return_apart {gdt rsp : BitVec 64}
    (h : ∀ i < 48, 56 ≤ (gdt + BitVec.ofNat 64 i - (rsp - 48)).toNat) {i : ℕ} (hi : i < 8) :
    48 ≤ (rsp + BitVec.ofNat 64 i - gdt).toNat := by
  by_contra hlt
  have hin := h (rsp + BitVec.ofNat 64 i - gdt).toNat (by omega)
  have hback : gdt + BitVec.ofNat 64 (rsp + BitVec.ofNat 64 i - gdt).toNat =
      rsp + BitVec.ofNat 64 i := by bv_omega
  have hoff : (rsp + BitVec.ofNat 64 i - (rsp - 48)).toNat = 48 + i := by bv_omega
  rw [hback, hoff] at hin
  omega

/-- `init` comes back with the kernel's segments in all registers, and with a table that has no code
but the kernel's: whatever memory keeps the table, the CPU takes selector 8 for code and no other
one. Nothing but the table and the stack below has changed. -/
theorem init_switches (trampoline : BitVec 64) {gdt descriptor : BitVec 64} {s : Machine}
    (hlimit : load s.mem descriptor 2 = 47) (hbase : load64 s.mem (descriptor + 2) = gdt)
    (hcpl : rpl s.cs = 0)
    (hapart : ∀ i < 48, 56 ≤ (gdt + BitVec.ofNat 64 i - (s.rsp - 48)).toNat)
    (hdescriptor : ∀ i < 10, 48 ≤ (descriptor + BitVec.ofNat 64 i - gdt).toNat) :
    ∃ t, init trampoline gdt descriptor s = some t ∧ t.rip = load64 s.mem s.rsp ∧
      t.rsp = s.rsp + 8 ∧ t.rflags = s.rflags ∧ t.cs = 8 ∧ (∀ seg, t.segs seg = 16) ∧
      (∀ r, r ≠ .rdi → r ≠ .rsi → r ≠ .rdx → t.regs r = s.regs r) ∧
      (∀ m, (∀ i < 48, m (gdt + BitVec.ofNat 64 i) = t.mem (gdt + BitVec.ofNat 64 i)) →
        ∀ cpl sel, codeLoads m t.gdtr cpl sel = true ↔ cpl = 0 ∧ sel = 8) ∧
      ∀ x, 48 ≤ (x - gdt).toNat → 48 ≤ (x - (s.rsp - 48)).toNat → t.mem x = s.mem x := by
  obtain ⟨-, hframe⟩ := writeEntries_spec gdt entries 0 s.mem (by decide)
  have houtside (x : BitVec 64) (hx : 48 ≤ (x - gdt).toNat) :
      writeEntries gdt entries 0 s.mem x = s.mem x := hframe x fun hin => by
    have hlt : (x - gdt).toNat < 48 := hin.2
    omega
  have hreturn : load64 (writeEntries gdt entries 0 s.mem) s.rsp = load64 s.mem s.rsp :=
    load_congr fun i hi => houtside _ (return_apart hapart hi)
  have hdesc (k i : ℕ) (hi : k + i < 10) :
      writeEntries gdt entries 0 s.mem (descriptor + BitVec.ofNat 64 k + BitVec.ofNat 64 i) =
        s.mem (descriptor + BitVec.ofNat 64 k + BitVec.ofNat 64 i) := by
    have hbyte : descriptor + BitVec.ofNat 64 k + BitVec.ofNat 64 i =
        descriptor + BitVec.ofNat 64 (k + i) := by bv_omega
    rw [hbyte]
    exact houtside _ (hdescriptor _ hi)
  set regs := Function.update (Function.update (Function.update s.regs .rdi descriptor) .rsi
    (kernelDataSelector * 8)) .rdx (kernelCodeSelector * 8) with hregs
  have hrdi : regs .rdi = descriptor := by
    rw [hregs, Function.update_of_ne (by decide), Function.update_of_ne (by decide),
      Function.update_self]
  have hlimit' : load (writeEntries gdt entries 0 s.mem) (regs .rdi) 2 = 47 := by
    rw [hrdi, ← hlimit]
    exact load_congr fun i hi => by simpa using hdesc 0 i (by omega)
  have hbase' : load64 (writeEntries gdt entries 0 s.mem) (regs .rdi + 2) = gdt := by
    rw [hrdi]
    exact (load_congr fun i hi => hdesc 2 i (by omega)).trans hbase
  obtain ⟨t, hrun, ht⟩ := gdt64Load_switches trampoline
    (s := { s with mem := writeEntries gdt entries 0 s.mem, regs := regs })
    hlimit' hbase' rfl rfl hcpl (table_writeEntries gdt s.mem)
    fun i hi => (show 48 ≤ 56 by norm_num).trans (hapart i hi)
  refine ⟨t, hrun, ht.rip.trans hreturn, ht.rsp, ht.rflags, ht.cs, ht.segs, fun r h₁ h₂ h₃ => ?_,
    fun m hm cpl sel => ?_, fun x hx hx' => (ht.mem x hx').trans (houtside x hx)⟩
  · rw [ht.regs]
    dsimp only
    rw [hregs, Function.update_of_ne h₃, Function.update_of_ne h₂, Function.update_of_ne h₁]
  · have htable : Table m gdt := fun i e he => by
      have hi : i < 6 := (List.getElem?_eq_some_iff.1 he).1
      refine (load_congr fun k hk => ?_).trans (table_writeEntries gdt s.mem i e he)
      have hbyte : gdt + BitVec.ofNat 64 (8 * i) + BitVec.ofNat 64 k =
          gdt + BitVec.ofNat 64 (8 * i + k) := by bv_omega
      rw [hbyte]
      exact (hm _ (by omega)).trans
        (ht.mem _ ((show 48 ≤ 56 by norm_num).trans (hapart _ (by omega))))
    rw [ht.gdtr]
    exact codeLoads_iff htable cpl sel

/-- A machine with the table at `0x1000`, its descriptor at `0x2000` and the stack at `0x8000`. -/
def bootMachine : Machine where
  regs _ := 0
  rsp := 0x8000
  rip := 0
  rflags := 2
  cs := 0x28
  segs _ := 0x30
  gdtr := ⟨0, 0⟩
  mem x := if x = 0x2000 then 47 else if x = 0x2003 then 0x10 else 0

theorem init_switches_boot :
    ∃ t, init 0x4000 0x1000 0x2000 bootMachine = some t ∧ t.rip = 0 ∧ t.cs = 8 ∧
      ∀ seg, t.segs seg = 16 := by
  have hlimit : load bootMachine.mem 0x2000 2 = 47 := by decide
  have hbase : load64 bootMachine.mem (0x2000 + 2) = 0x1000 := by decide
  have hapart : ∀ i < 48,
      56 ≤ ((0x1000 : BitVec 64) + BitVec.ofNat 64 i - (bootMachine.rsp - 48)).toNat := by decide
  have hdescriptor : ∀ i < 10,
      48 ≤ ((0x2000 : BitVec 64) + BitVec.ofNat 64 i - 0x1000).toNat := by decide
  obtain ⟨t, hrun, hrip, -, -, hcs, hsegs, -⟩ :=
    init_switches 0x4000 hlimit hbase rfl hapart hdescriptor
  exact ⟨t, hrun, hrip.trans (by decide), hcs, hsegs⟩

end IceKernel.Gdt
