import IceKernel.Utils.Math
import Mathlib.Tactic.Common
import Mathlib.Tactic.IntervalCases

/-!
# `pt_entry_t`, map flags and caching modes

Entries and flags are 64-bit words; addresses are numbers.
-/

namespace IceKernel.Paging
open Word64

/-- `memory::paging::caching`. -/
inductive Caching where
  | uncachable
  | writeThrough
  | writeProtected
  | writeCombining
  | writeBack
  deriving DecidableEq, Repr

def defaultCaching : Caching := .writeBack

/-! The bits of `memory::paging::flags`. -/

def READ : BitVec 64 := 1
def WRITE : BitVec 64 := 2
def RW : BitVec 64 := 3
def EXEC : BitVec 64 := 4
def RWX : BitVec 64 := 7
def USER : BitVec 64 := 8
def GLOBAL : BitVec 64 := 16
def LPAGE : BitVec 64 := 32
def LLPAGE : BitVec 64 := 64

/-! The bits of an entry. -/

def present : BitVec 64 := 1
def writable : BitVec 64 := 2
def userSuper : BitVec 64 := 4
def writeThrough : BitVec 64 := 8
def cacheDisable : BitVec 64 := 16
def largerPages : BitVec 64 := 128
def pat4k : BitVec 64 := 128
def globalPage : BitVec 64 := 256
def patlg : BitVec 64 := 4096
def noExec : BitVec 64 := 1 <<< 63

def paMask : BitVec 64 := 0x000FFFFFFFFFF000

def KiB4 : ℕ := 0x1000
def MiB2 : ℕ := 0x200000
def GiB1 : ℕ := 0x40000000

/-- `pt_entry_t::set_flags`. -/
def setFlags (value flags : BitVec 64) (enabled : Bool) : BitVec 64 :=
  let temp := value &&& ~~~flags
  if enabled then temp ||| flags else temp

/-- `pt_entry_t::get_flags(flags)`, also the test `flags & bit` of the flag words. -/
def getFlags (value flags : BitVec 64) : Bool := value &&& flags ≠ 0

/-- `pt_entry_t::get_address`. -/
def getAddress (value : BitVec 64) : ℕ := (value &&& paMask).toNat

/-- `pt_entry_t::set_address`. -/
def setAddress (value : BitVec 64) (address : ℕ) : BitVec 64 :=
  (value &&& ~~~paMask) ||| BitVec.ofNat 64 address

/-- The macro `is_lpage`. -/
def isLpage (flags : BitVec 64) : Bool := getFlags flags LPAGE || getFlags flags LLPAGE

/-- `flags_to_arch`. -/
def flagsToArch (flags : BitVec 64) : BitVec 64 :=
  let ret := present
  let ret := if getFlags flags WRITE then ret ||| writable else ret
  let ret := if getFlags flags USER then ret ||| userSuper else ret
  let ret := if !getFlags flags EXEC then ret ||| noExec else ret
  let ret := if getFlags flags GLOBAL then ret ||| globalPage else ret
  if isLpage flags then ret ||| largerPages else ret

/-- `cache_to_flags`. -/
def cacheToFlags (cache : Caching) (larger : Bool) : BitVec 64 :=
  let patBit := if larger then patlg else pat4k
  match cache with
  | .uncachable => 0
  | .writeCombining => writeThrough
  | .writeThrough => patBit
  | .writeProtected => patBit ||| writeThrough
  | .writeBack => patBit ||| cacheDisable

/-- The mode selects one of the upper four PAT entries. -/
def Caching.usesPat : Caching → Bool
  | .uncachable | .writeCombining => false
  | .writeThrough | .writeProtected | .writeBack => true

/-- `real_flags` of `map` and `set_flags`. -/
def realFlags (flags : BitVec 64) (cache : Caching) (larger : Bool) : BitVec 64 :=
  flagsToArch flags ||| cacheToFlags cache larger

/-! ## Bits -/

theorem getFlags_twoPow (v : BitVec 64) {k : ℕ} (hk : k < 64) :
    getFlags v (BitVec.twoPow 64 k) = v.getLsbD k := by
  have hne : BitVec.twoPow 64 k ≠ 0#64 := by
    intro h
    have := congrArg (BitVec.getLsbD · k) h
    simp [hk] at this
  rw [getFlags, BitVec.and_twoPow]
  by_cases hv : v.getLsbD k
  · simp [hv, hne]
  · simp [hv]

theorem getFlags_present (v : BitVec 64) : getFlags v present = v.getLsbD 0 :=
  getFlags_twoPow v (k := 0) (by norm_num)

theorem getLsbD_setFlags (v f : BitVec 64) (i : ℕ) :
    (setFlags v f true).getLsbD i = (f.getLsbD i || v.getLsbD i) := by
  by_cases hi : i < 64
  · simp only [setFlags, if_true, BitVec.getLsbD_or, BitVec.getLsbD_and, BitVec.getLsbD_not, hi]
    cases f.getLsbD i <;> cases v.getLsbD i <;> rfl
  · rw [BitVec.getLsbD_of_ge _ _ (by omega), BitVec.getLsbD_of_ge _ _ (by omega),
      BitVec.getLsbD_of_ge _ _ (by omega)]
    rfl

theorem testBit_aligned {p k i : ℕ} (hp : p % 2 ^ k = 0) (hi : i < k) : p.testBit i = false := by
  obtain ⟨c, rfl⟩ := Nat.dvd_of_mod_eq_zero hp
  rw [Nat.mul_comm, Nat.testBit_mul_two_pow]
  simp [hi]

/-- The bits below the address field. -/
theorem getLsbD_setAddress (v : BitVec 64) {p i : ℕ} (hp : p % KiB4 = 0) (hi : i < 12) :
    (setAddress v p).getLsbD i = v.getLsbD i := by
  have hmask : paMask.getLsbD i = false := by
    interval_cases i <;> rfl
  have hbit : p.testBit i = false := testBit_aligned (k := 12) hp hi
  have h64 : i < 64 := by omega
  simp only [setAddress, BitVec.getLsbD_or, BitVec.getLsbD_and, BitVec.getLsbD_not,
    BitVec.getLsbD_ofNat, hmask, hbit, h64]
  cases v.getLsbD i <;> rfl

theorem ofNat_and_paMask {p : ℕ} (hp : p % KiB4 = 0) (hlt : p < 2 ^ 52) :
    BitVec.ofNat 64 p &&& paMask = BitVec.ofNat 64 p := by
  apply BitVec.eq_of_toNat_eq
  have hmask : paMask.toNat = (2 ^ 40 - 1) <<< 12 := rfl
  rw [BitVec.toNat_and, hmask, BitVec.toNat_ofNat, Nat.mod_eq_of_lt (by omega), and_field]
  unfold KiB4 at hp
  omega

/-- The address read from a mapped entry: the frame, together with any flag bit that lies in the
address field. -/
theorem address_mapped (v f : BitVec 64) {p : ℕ} (hp : p % KiB4 = 0) (hlt : p < 2 ^ 52) :
    setFlags (setAddress v p) f true &&& paMask = BitVec.ofNat 64 p ||| (f &&& paMask) := by
  have ha := ofNat_and_paMask hp hlt
  unfold setAddress
  generalize BitVec.ofNat 64 p = a at ha
  apply BitVec.eq_of_getLsbD_eq
  intro i hi
  have hai := congrArg (BitVec.getLsbD · i) ha
  simp only [BitVec.getLsbD_and] at hai
  simp only [BitVec.getLsbD_and, BitVec.getLsbD_or, BitVec.getLsbD_not, getLsbD_setFlags, hi]
  rw [← hai]
  cases paMask.getLsbD i <;> cases f.getLsbD i <;> cases a.getLsbD i <;>
    cases v.getLsbD i <;> rfl

/-- A flag word outside the address field leaves the frame alone. -/
theorem getAddress_mapped (v : BitVec 64) {f : BitVec 64} {p : ℕ} (hp : p % KiB4 = 0)
    (hlt : p < 2 ^ 52) (hf : f &&& paMask = 0#64) :
    getAddress (setFlags (setAddress v p) f true) = p := by
  rw [getAddress, address_mapped v f hp hlt, hf, BitVec.or_zero, BitVec.toNat_ofNat,
    Nat.mod_eq_of_lt (by omega)]

/-- With the large-page PAT bit set, bit 12 of the frame is set too. -/
theorem getAddress_mapped_pat (v : BitVec 64) {f : BitVec 64} {p : ℕ} (hp : p % MiB2 = 0)
    (hlt : p < 2 ^ 52) (hf : f &&& paMask = patlg) :
    getAddress (setFlags (setAddress v p) f true) = p + 0x1000 := by
  have hp4 : p % KiB4 = 0 := by
    unfold MiB2 at hp
    unfold KiB4
    omega
  rw [getAddress, address_mapped v f hp4 hlt, hf, BitVec.toNat_or, BitVec.toNat_ofNat,
    Nat.mod_eq_of_lt (by omega)]
  change p ||| 0x1000 = _
  obtain ⟨c, rfl⟩ := Nat.dvd_of_mod_eq_zero hp
  exact (Nat.two_pow_add_eq_or_of_lt (i := 21) (by norm_num) c).symm

theorem getLsbD_ite_or (c : Bool) (w m : BitVec 64) (k : ℕ) :
    (if c then w ||| m else w).getLsbD k = (w.getLsbD k || (c && m.getLsbD k)) := by
  cases c with
  | false => simp
  | true => simp

/-- Every flag brings its own bit of the entry. -/
theorem getLsbD_flagsToArch (flags : BitVec 64) (k : ℕ) :
    (flagsToArch flags).getLsbD k =
      (present.getLsbD k || (getFlags flags WRITE && writable.getLsbD k) ||
        (getFlags flags USER && userSuper.getLsbD k) ||
        (!getFlags flags EXEC && noExec.getLsbD k) ||
        (getFlags flags GLOBAL && globalPage.getLsbD k) ||
        (isLpage flags && largerPages.getLsbD k)) := by
  simp only [flagsToArch, getLsbD_ite_or]

theorem flagsToArch_and_paMask (flags : BitVec 64) : flagsToArch flags &&& paMask = 0#64 := by
  simp only [flagsToArch]
  split_ifs <;> rfl

theorem flagsToArch_present (flags : BitVec 64) : (flagsToArch flags).getLsbD 0 = true := by
  rw [getLsbD_flagsToArch]
  simp [present]

theorem flagsToArch_larger (flags : BitVec 64) :
    (flagsToArch flags).getLsbD 7 = isLpage flags := by
  rw [getLsbD_flagsToArch]
  simp [present, writable, userSuper, noExec, globalPage, largerPages]

theorem realFlags_present (flags : BitVec 64) (cache : Caching) (larger : Bool) :
    (realFlags flags cache larger).getLsbD 0 = true := by
  rw [realFlags, BitVec.getLsbD_or, flagsToArch_present, Bool.true_or]

theorem realFlags_larger {flags : BitVec 64} (h : isLpage flags = true) (cache : Caching)
    (larger : Bool) : (realFlags flags cache larger).getLsbD 7 = true := by
  rw [realFlags, BitVec.getLsbD_or, flagsToArch_larger, h, Bool.true_or]

/-- Only the large-page PAT bit of the caching flags lies in the address field. -/
theorem realFlags_and_paMask (flags : BitVec 64) (cache : Caching) (larger : Bool) :
    realFlags flags cache larger &&& paMask = if larger && cache.usesPat then patlg else 0#64 := by
  have h : realFlags flags cache larger &&& paMask = cacheToFlags cache larger &&& paMask := by
    rw [realFlags, BitVec.and_or_distrib_right, flagsToArch_and_paMask, BitVec.zero_or]
  rw [h]
  cases cache <;> cases larger <;> rfl

end IceKernel.Paging
