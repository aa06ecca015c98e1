import IceKernel.Libc.StdioReading
import IceKernel.Libc.StdioStandard

/-!
# The formatter prints what the format says

A format and the strings it prints lie where nothing is stored. Then the loop over
the characters in memory performs the events of the pieces, one after the other.
-/

namespace IceKernel.Stdio
open ByteMemory Digits

variable {S F : Type}

/-! ## Events -/

/-- What an event does to a gadget. -/
def Event.perform (str : ℕ → List (BitVec 8)) (e : Event) (g : Gadget S) : Gadget S :=
  match e with
  | .count p size => { g with mem := store g.mem p g.pos size }
  | e => emit (e.shown str) g

/-- The string at `p` can be printed: it lies in `R` as far as it is shown, and ends there unless
the precision cuts it off. -/
structure Printable (m : Mem) (R : Set ℕ) (p : ℕ) (s : List (BitVec 8)) (flags : Flags)
    (precision : ℕ) : Prop where
  bytes : ∀ i (h : i < (stringBody flags precision s).length),
    m (p + i) = (stringBody flags precision s)[i]
  ne_zero : ∀ c ∈ s, c ≠ 0
  kept : ∀ i < (stringBody flags precision s).length, p + i ∈ R
  stops : flags.precision ∧ precision ≤ s.length ∨ m (p + s.length) = 0 ∧ p + s.length ∈ R
  length_le : s.length ≤ maxPossibleBufferSize

theorem Printable.congr {m m' : Mem} {R : Set ℕ} {p : ℕ} {s : List (BitVec 8)} {flags : Flags}
    {precision : ℕ} (h : Printable m R p s flags precision) (hm : ∀ x ∈ R, m' x = m x) :
    Printable m' R p s flags precision where
  bytes i hi := (hm _ (h.kept i hi)).trans (h.bytes i hi)
  ne_zero := h.ne_zero
  kept := h.kept
  stops := h.stops.imp_right fun hn => ⟨(hm _ hn.2).trans hn.1, hn.2⟩
  length_le := h.length_le

/-- An event reads in `R` what it prints, and stores nothing there. -/
def Event.Safe (m : Mem) (R : Set ℕ) (str : ℕ → List (BitVec 8)) : Event → Prop
  | .text _ => True
  | .string p flags _ precision => Printable m R p (str p) flags precision
  | .count p size => ∀ i < size, p + i ∉ R

/-- The characters of a string that an event reads. -/
def Event.reads (str : ℕ → List (BitVec 8)) : Event → ℕ
  | .string p _ _ _ => (str p).length
  | _ => 0

/-- The gadget keeps `R` as it was. -/
structure Keeps (m : Mem) (R : Set ℕ) (g : Gadget S) : Prop where
  mem : ∀ x ∈ R, g.mem x = m x
  outside : ∀ x ∈ R, ¬ g.Stores x
  pos_lt : g.pos < 2 ^ 32

section Events

variable {m : Mem} {R : Set ℕ} {g : Gadget S} {str : ℕ → List (BitVec 8)} {p fuel precision : ℕ}
  {s : List (BitVec 8)} {flags : Flags}

theorem Keeps.emit (h : Keeps m R g) (l : List (BitVec 8)) : Keeps m R (emit l g) where
  mem x hx := (emit_outside (h.outside x hx)).trans (h.mem x hx)
  outside x hx := fun hs => h.outside x hx ((Gadget.Stores.iff_of_emit l g x).1 hs)
  pos_lt := by
    rw [emit_pos h.pos_lt]
    exact Nat.mod_lt _ (by norm_num)

theorem Keeps.perform (h : Keeps m R g) {e : Event} (he : e.Safe m R str) :
    Keeps m R (e.perform str g) := by
  cases e with
  | text l => exact h.emit l
  | string p flags width precision => exact h.emit _
  | count p size =>
    refine ⟨fun x hx => ?_, h.outside, h.pos_lt⟩
    have hout : x < p ∨ p + size ≤ x := by
      by_contra hin
      obtain ⟨i, rfl⟩ := Nat.exists_eq_add_of_le (Nat.le_of_not_lt fun hlt => hin (.inl hlt))
      exact he i (by omega) hx
    exact (store_sameOutside g.mem p g.pos size x hout).trans (h.mem x hx)

theorem strnlenS_eq {k maxsize : ℕ} (hk : k ≤ maxsize) (hne : ∀ i < k, m (p + i) ≠ 0)
    (hstop : k = maxsize ∨ m (p + k) = 0) : strnlenS m p maxsize = k := by
  induction maxsize generalizing p k with
  | zero => exact (Nat.le_zero.1 hk).symm
  | succ maxsize ih =>
    rw [strnlenS]
    cases k with
    | zero =>
      have h0 : m p = 0 := hstop.resolve_left (Nat.succ_ne_zero maxsize).symm
      rw [if_pos h0]
    | succ k =>
      have hshift (i : ℕ) : p + 1 + i = p + (i + 1) := by omega
      have h0 : m p ≠ 0 := hne 0 (Nat.succ_pos k)
      rw [if_neg h0, ih (k := k) (by omega)
        (fun i hi => hshift i ▸ hne (i + 1) (by omega))
        (hstop.imp (by omega) fun h0 => hshift k ▸ h0)]

/-- The loop prints the characters up to the terminator or the precision. -/
theorem outputString_eq (h : Keeps m R g) (hbytes : ∀ i (h : i < s.length), m (p + i) = s[i])
    (hne : ∀ c ∈ s, c ≠ 0) (hkept : ∀ i < s.length, p + i ∈ R)
    (hle : flags.precision → s.length ≤ precision) (hprecision : precision < 2 ^ 32)
    (hstop : flags.precision ∧ precision = s.length ∨ m (p + s.length) = 0 ∧ p + s.length ∈ R)
    (hfuel : s.length < fuel) :
    outputString fuel p flags precision g = some (emit s g) := by
  induction s generalizing p fuel precision g with
  | nil =>
    obtain ⟨fuel, rfl⟩ : ∃ k, fuel = k + 1 := ⟨fuel - 1, by omega⟩
    rw [outputString]
    rcases hstop with ⟨hflag, rfl⟩ | ⟨h0, hR⟩
    · rw [if_neg (by simp [hflag])]
      rfl
    · rw [List.length_nil, Nat.add_zero] at h0 hR
      rw [if_neg (fun hgo => hgo.1 ((h.mem p hR).trans h0))]
      rfl
  | cons c s ih =>
    obtain ⟨fuel, rfl⟩ : ∃ k, fuel = k + 1 := ⟨fuel - 1, by omega⟩
    rw [List.length_cons] at hfuel hle hstop
    have hc : g.mem p = c := (h.mem p (hkept 0 (by simp))).trans (hbytes 0 (by simp))
    have hshift (i : ℕ) : p + 1 + i = p + (i + 1) := by omega
    have hgo : g.mem p ≠ 0 ∧ (¬ flags.precision ∨ precision ≠ 0) := by
      refine ⟨hc ▸ hne c (by simp), ?_⟩
      by_cases hflag : flags.precision
      · exact .inr (by have := hle hflag; omega)
      · exact .inl hflag
    rw [outputString, if_pos hgo, hc, emit_cons]
    have hput : Keeps m R (putcharViaGadget c g) := h.emit [c]
    refine ih hput (fun i hi => ?_) (fun d hd => hne d (by simp [hd]))
      (fun i hi => ?_) (fun hflag => ?_) (Nat.mod_lt _ (by norm_num)) ?_ (by omega)
    · rw [hshift]
      exact hbytes (i + 1) (by rw [List.length_cons]; omega)
    · rw [hshift]
      exact hkept (i + 1) (by rw [List.length_cons]; omega)
    · have hroom := hle hflag
      unfold wrap32
      omega
    · rw [hshift]
      refine hstop.imp_left fun ⟨hflag, hlast⟩ => ⟨hflag, ?_⟩
      unfold wrap32
      omega

/-- The specifier `s` prints the string in its field. -/
theorem printStringSpecifier_eq (h : Keeps m R g) {width : ℕ} (hp : p ≠ 0)
    (hstring : Printable m R p s flags precision) (hprecision : precision < 2 ^ 32)
    (hnone : ¬ flags.precision → precision = 0) (hfuel : s.length < fuel) :
    printStringSpecifier fuel flags width precision p g =
      some (emit (spaced flags width (stringBody flags precision s)) g) := by
  have hne : ∀ c ∈ stringBody flags precision s, c ≠ 0 := by
    intro c hc
    unfold stringBody at hc
    split at hc
    · exact hstring.ne_zero c (List.mem_of_mem_take hc)
    · exact hstring.ne_zero c hc
  have hsmall : (stringBody flags precision s).length ≤ s.length := by
    unfold stringBody
    split
    · rw [List.length_take]
      omega
    · exact le_rfl
  have hle : flags.precision → (stringBody flags precision s).length ≤ precision := by
    intro hflag
    rw [stringBody, if_pos hflag, List.length_take]
    omega
  -- the string is read up to its end, or as far as the precision goes
  have hstop : flags.precision ∧ precision = (stringBody flags precision s).length ∨
      m (p + (stringBody flags precision s).length) = 0 ∧
        p + (stringBody flags precision s).length ∈ R := by
    by_cases hcut : flags.precision ∧ precision ≤ s.length
    · rw [stringBody, if_pos hcut.1, List.length_take]
      exact .inl ⟨hcut.1, by omega⟩
    · have hwhole : stringBody flags precision s = s := by
        unfold stringBody
        split
        next hflag => exact List.take_of_length_le (by
          have hlong : ¬ precision ≤ s.length := fun hle => hcut ⟨hflag, hle⟩
          omega)
        next => rfl
      rw [hwhole]
      exact .inr (hstring.stops.resolve_left hcut)
  have hlen : (if flags.precision then
      min (strnlenS g.mem p (if precision ≠ 0 then precision else maxPossibleBufferSize)) precision
      else strnlenS g.mem p (if precision ≠ 0 then precision else maxPossibleBufferSize)) =
        (stringBody flags precision s).length := by
    have hmax := hstring.length_le
    have hmem (i : ℕ) (hi : i < (stringBody flags precision s).length) : g.mem (p + i) ≠ 0 := by
      rw [h.mem _ (hstring.kept i hi), hstring.bytes i hi]
      exact hne _ (List.getElem_mem hi)
    by_cases hflag : flags.precision
    · rw [if_pos hflag]
      by_cases hzero : precision = 0
      · have h0 := hle hflag
        omega
      · have hscan : strnlenS g.mem p (if precision ≠ 0 then precision
            else maxPossibleBufferSize) = (stringBody flags precision s).length := by
          rw [if_pos hzero]
          refine strnlenS_eq (hle hflag) hmem ?_
          exact hstop.imp (fun hc => hc.2.symm) fun hn => (h.mem _ hn.2).trans hn.1
        rw [hscan]
        exact min_eq_left (hle hflag)
    · rw [if_neg hflag, if_neg (not_not.2 (hnone hflag))]
      refine strnlenS_eq (hsmall.trans hmax) hmem (.inr ?_)
      have hn := hstop.resolve_left fun hc => hflag hc.1
      exact (h.mem _ hn.2).trans hn.1
  have hloop (g' : Gadget S) (h' : Keeps m R g') :
      outputString fuel p flags precision g' =
        some (emit (stringBody flags precision s) g') :=
    outputString_eq h' hstring.bytes hne hstring.kept hle hprecision hstop (by omega)
  unfold printStringSpecifier spaced
  rw [if_neg hp]
  dsimp only
  rw [hlen]
  by_cases hleft : flags.left
  · rw [if_neg (not_not.2 hleft), hloop g h, Option.map_some, if_pos hleft, putSpaces_eq,
      if_pos hleft, emit_append]
  · rw [if_pos hleft, putSpaces_eq, hloop _ (h.emit _), Option.map_some, if_neg hleft,
      if_neg hleft, emit_append]

/-! ## Specifiers -/

theorem toInt_natAbs_le {n : ℕ} (hn : n ≤ 64) (x : BitVec n) : x.toInt.natAbs ≤ 2 ^ 63 := by
  have hle := x.toInt_lt
  have hge := x.le_toInt
  have hpow : (2 : ℤ) ^ (n - 1) ≤ 2 ^ 63 := pow_le_pow_right₀ (by norm_num) (by omega)
  omega

theorem absForPrinting_eq {x : ℤ} (hx : x.natAbs ≤ 2 ^ 63) : absForPrinting x = x.natAbs := by
  unfold absForPrinting
  split <;> omega

theorem signedValue_natAbs_le (flags : Flags) (arg : BitVec 64) :
    (signedValue flags arg).natAbs ≤ 2 ^ 63 := by
  unfold signedValue toInt32
  split_ifs <;> exact toInt_natAbs_le (by norm_num) _

/-- The bounds of a directive with its arguments in place. -/
structure Resolved.Bounded (r : Resolved F) : Prop where
  width_lt : r.width < 2 ^ 32
  precision_lt : r.precision < 2 ^ 32
  precision_eq : ¬ r.flags.precision → r.precision = 0

theorem Length.set_precision (length : Length) (flags : Flags) :
    (length.set flags).precision = flags.precision := by
  cases length <;> rfl

theorem resolve_bounded {spec : Spec} {args : List (Arg F)} {r : Resolved F}
    (h : spec.resolve args = some r) : r.Bounded := by
  have hint (w : BitVec 64) : (toInt32 w).natAbs ≤ 2 ^ 31 := by
    have hle := (w.setWidth 32).toInt_lt
    have hge := (w.setWidth 32).le_toInt
    unfold toInt32
    omega
  have hwrap (n : ℕ) : wrap32 n < 2 ^ 32 := Nat.mod_lt _ (by norm_num)
  obtain ⟨⟨flags₁, w, args₁⟩, hw, h⟩ := Option.bind_eq_some_iff.1 h
  obtain ⟨⟨flags₂, n, args₂⟩, hn, rfl⟩ := Option.map_eq_some_iff.1 h
  refine ⟨?_, ?_, fun hflag => ?_⟩
  · rcases hwidth : spec.width with _ | ds | _ <;> rw [hwidth] at hw
    · obtain ⟨-, h2⟩ := Prod.mk.inj (Option.some.inj hw)
      obtain ⟨rfl, -⟩ := Prod.mk.inj h2
      norm_num
    · obtain ⟨-, h2⟩ := Prod.mk.inj (Option.some.inj hw)
      obtain ⟨rfl, -⟩ := Prod.mk.inj h2
      exact hwrap _
    · obtain ⟨⟨arg, rest⟩, -, hsome⟩ := Option.map_eq_some_iff.1 hw
      obtain ⟨-, h2⟩ := Prod.mk.inj hsome
      obtain ⟨rfl, -⟩ := Prod.mk.inj h2
      exact (hint arg).trans_lt (by norm_num)
  · rcases hprecision : spec.precision with _ | _ | ds | _ <;> rw [hprecision] at hn
    · obtain ⟨-, h2⟩ := Prod.mk.inj (Option.some.inj hn)
      obtain ⟨rfl, -⟩ := Prod.mk.inj h2
      norm_num
    · obtain ⟨-, h2⟩ := Prod.mk.inj (Option.some.inj hn)
      obtain ⟨rfl, -⟩ := Prod.mk.inj h2
      norm_num
    · obtain ⟨-, h2⟩ := Prod.mk.inj (Option.some.inj hn)
      obtain ⟨rfl, -⟩ := Prod.mk.inj h2
      exact hwrap _
    · obtain ⟨⟨arg, rest⟩, -, hsome⟩ := Option.map_eq_some_iff.1 hn
      obtain ⟨-, h2⟩ := Prod.mk.inj hsome
      obtain ⟨rfl, -⟩ := Prod.mk.inj h2
      have harg : (toInt32 arg).toNat < 2 ^ 32 := by
        have hle := hint arg
        omega
      exact harg
  · rw [Length.set_precision] at hflag
    rcases hprecision : spec.precision with _ | _ | ds | _ <;> rw [hprecision] at hn
    · obtain ⟨-, h2⟩ := Prod.mk.inj (Option.some.inj hn)
      exact (Prod.mk.inj h2).1.symm
    · obtain ⟨rfl, -⟩ := Prod.mk.inj (Option.some.inj hn)
      exact absurd rfl hflag
    · obtain ⟨rfl, -⟩ := Prod.mk.inj (Option.some.inj hn)
      exact absurd rfl hflag
    · obtain ⟨⟨arg, rest⟩, -, hsome⟩ := Option.map_eq_some_iff.1 hn
      obtain ⟨rfl, -⟩ := Prod.mk.inj hsome
      exact absurd rfl hflag

theorem printIntegerSpecifier_eq (h : Keeps m R g) {width : ℕ} (hwidth : width < 2 ^ 32)
    (c : BitVec 8) (flags : Flags) (precision : ℕ) (arg : BitVec 64) :
    printIntegerSpecifier c flags width precision arg g =
      emit (integerSpecifierText c flags width precision arg) g := by
  unfold printIntegerSpecifier integerSpecifierText
  dsimp only
  split
  · rw [absForPrinting_eq (signedValue_natAbs_le _ _), printInteger_eq h.pos_lt hwidth]
  · rw [printInteger_eq h.pos_lt hwidth]

theorem printCharSpecifier_eq (flags : Flags) (width : ℕ) (arg : BitVec 64) (g : Gadget S) :
    printCharSpecifier flags width arg g = emit (spaced flags width [arg.setWidth 8]) g := by
  unfold printCharSpecifier spaced
  by_cases hleft : flags.left
  · simp [hleft, putSpaces_eq, emit_cons]
  · simp [hleft, putSpaces_eq, emit_append, emit_singleton]

theorem printPointerSpecifier_eq (h : Keeps m R g) (flags : Flags) (precision : ℕ)
    (arg : BitVec 64) :
    printPointerSpecifier flags precision arg g = emit (pointerText flags precision arg) g := by
  unfold printPointerSpecifier pointerText
  dsimp only
  split
  · exact outRev_eq h.pos_lt (by norm_num) (by norm_num)
  · exact printInteger_eq h.pos_lt (by norm_num)

theorem printNull_eq (h : Keeps m R g) {width : ℕ} (hwidth : width < 2 ^ 32) (fuel : ℕ)
    (flags : Flags) (precision : ℕ) :
    printStringSpecifier fuel flags width precision 0 g =
      some (emit (field width flags [40, 110, 117, 108, 108, 41]) g) := by
  unfold printStringSpecifier
  rw [if_pos rfl]
  exact congrArg some (outRev_eq h.pos_lt (by norm_num) hwidth)

/-- A specifier performs its event. -/
theorem evalSpecifier_eq {fp : FloatText F} {c : BitVec 8} {r : Resolved F} {e : Event}
    {args : List (Arg F)} (h : Keeps m R g) (hr : r.Bounded)
    (hevent : specifierEvent fp c r = some (e, args)) (he : e.Safe m R str)
    (hfuel : e.reads str < fuel) :
    evalSpecifier fp fuel c r.flags r.width r.precision r.args g =
      some (e.perform str g, args) := by
  -- Both chains of conditions are taken apart together, one specifier after the other.
  unfold specifierEvent at hevent
  unfold evalSpecifier
  split at hevent
  next hc =>
    obtain ⟨⟨arg, rest⟩, harg, hsome⟩ := Option.map_eq_some_iff.1 hevent
    obtain ⟨rfl, rfl⟩ := Prod.mk.inj hsome
    rw [if_pos hc, harg, Option.map_some]
    dsimp only
    rw [printIntegerSpecifier_eq h hr.width_lt]
    rfl
  next hc =>
  rw [if_neg hc]
  split at hevent
  next hc =>
    obtain ⟨⟨x, rest⟩, harg, hsome⟩ := Option.map_eq_some_iff.1 hevent
    obtain ⟨rfl, rfl⟩ := Prod.mk.inj hsome
    rw [if_pos hc, harg]
    rfl
  next hc =>
  rw [if_neg hc]
  split at hevent
  next hc =>
    obtain ⟨⟨x, rest⟩, harg, hsome⟩ := Option.map_eq_some_iff.1 hevent
    obtain ⟨rfl, rfl⟩ := Prod.mk.inj hsome
    rw [if_pos hc, harg]
    rfl
  next hc =>
  rw [if_neg hc]
  split at hevent
  next hc =>
    obtain ⟨⟨arg, rest⟩, harg, hsome⟩ := Option.map_eq_some_iff.1 hevent
    obtain ⟨rfl, rfl⟩ := Prod.mk.inj hsome
    rw [if_pos hc, harg, Option.map_some]
    dsimp only
    rw [printCharSpecifier_eq]
    rfl
  next hc =>
  rw [if_neg hc]
  split at hevent
  next hc =>
    obtain ⟨⟨arg, rest⟩, harg, hsome⟩ := Option.map_eq_some_iff.1 hevent
    obtain ⟨rfl, rfl⟩ := Prod.mk.inj hsome
    rw [if_pos hc, harg, Option.bind_some]
    dsimp only
    -- A null pointer prints a text of its own; any other one is a string to be read.
    by_cases hnull : arg = 0
    · have hzero : arg.toNat = 0 := congrArg BitVec.toNat hnull
      rw [hzero, printNull_eq h hr.width_lt, if_pos hnull]
      rfl
    · rw [if_neg hnull] at he hfuel ⊢
      have hp : arg.toNat ≠ 0 := fun h0 => hnull (BitVec.eq_of_toNat_eq h0)
      rw [printStringSpecifier_eq h hp he hr.precision_lt hr.precision_eq hfuel]
      rfl
  next hc =>
  rw [if_neg hc]
  split at hevent
  next hc =>
    obtain ⟨⟨arg, rest⟩, harg, hsome⟩ := Option.map_eq_some_iff.1 hevent
    obtain ⟨rfl, rfl⟩ := Prod.mk.inj hsome
    rw [if_pos hc, harg, Option.map_some]
    dsimp only
    rw [printPointerSpecifier_eq h]
    rfl
  next hc =>
  rw [if_neg hc]
  split at hevent
  next hc =>
    obtain ⟨rfl, rfl⟩ := Prod.mk.inj (Option.some.inj hevent)
    rw [if_pos hc]
    rfl
  next hc =>
  rw [if_neg hc]
  split at hevent
  next hc =>
    obtain ⟨⟨arg, rest⟩, harg, hsome⟩ := Option.map_eq_some_iff.1 hevent
    obtain ⟨rfl, rfl⟩ := Prod.mk.inj hsome
    rw [if_pos hc, harg]
    rfl
  next hc =>
    obtain ⟨rfl, rfl⟩ := Prod.mk.inj (Option.some.inj hevent)
    rw [if_neg hc]
    rfl

/-! ## The loop -/

/-- What a list of events does, one after the other. -/
def performAll (str : ℕ → List (BitVec 8)) (es : List Event) (g : Gadget S) : Gadget S :=
  es.foldl (fun g e => e.perform str g) g

theorem Keeps.performAll {es : List Event} (h : Keeps m R g) (hes : ∀ e ∈ es, e.Safe m R str) :
    Keeps m R (performAll str es g) := by
  induction es generalizing g with
  | nil => exact h
  | cons e es ih =>
    obtain ⟨he, hes⟩ := List.forall_mem_cons.1 hes
    exact ih (h.perform he) hes

/-- A string that lies in the region that is kept. -/
structure Format.At (m : Mem) (R : Set ℕ) (p : ℕ) (s : List (BitVec 8)) : Prop where
  string : IsString m p s
  kept : ∀ i ≤ s.length, p + i ∈ R

theorem Format.At.tail {k : ℕ} {t : List (BitVec 8)} (h : Format.At m R p (s ++ t))
    (hk : s.length = k) : Format.At m R (p + k) t where
  string := hk ▸ isString_append h.string
  kept i hi := by
    rw [Nat.add_assoc]
    exact h.kept _ (by rw [List.length_append]; omega)

theorem Format.At.congr {m' : Mem} (h : Format.At m R p s) (hm : ∀ x ∈ R, m' x = m x) :
    IsString m' p s := by
  obtain ⟨hstring, hkept⟩ := h
  induction s generalizing p with
  | nil => exact (hm p (hkept 0 le_rfl)).trans hstring
  | cons c s ih =>
    refine ⟨(hm p (hkept 0 (Nat.zero_le _))).trans hstring.1, hstring.2.1,
      ih hstring.2.2 fun i hi => ?_⟩
    rw [Nat.add_assoc, Nat.add_comm 1]
    exact hkept (i + 1) (by rw [List.length_cons]; omega)

/-- The characters of the directive that a format ends in. -/
def Format.endingBytes (f : Format) : List (BitVec 8) :=
  f.ending.elim [] fun spec => 37 :: spec.bytes

theorem Format.At.ending (h : Format.At m R p s) :
    Format.At m R (p + ((parse s).items.flatMap Item.bytes).length) (parse s).endingBytes := by
  have hbytes : (parse s).items.flatMap Item.bytes ++ (parse s).endingBytes = s := bytes_parse s
  exact (hbytes.symm ▸ h : Format.At m R p _).tail rfl

/-- The loop performs the events of the items, and goes on behind them. -/
theorem formatStringLoop_items {fp : FloatText F} {n : ℕ} {es : List Event}
    {args args' : List (Arg F)} (hformat : Format.At m R p s) (h : Keeps m R g)
    (hevents : events fp (parse s).items args = some (es, args'))
    (hes : ∀ e ∈ es, e.Safe m R str ∧ e.reads str ≤ n) (hfuel : s.length + n < fuel) :
    formatStringLoop fp (fuel + (parse s).items.length) p args g =
      formatStringLoop fp fuel (p + ((parse s).items.flatMap Item.bytes).length) args'
        (performAll str es g) := by
  induction s using parse_induction generalizing p args es g with
  | nil =>
    obtain ⟨rfl, rfl⟩ := Prod.mk.inj (Option.some.inj hevents)
    rfl
  | char c s hc ih =>
    have hstring := hformat.congr h.mem
    have hc' : g.mem p = c := hstring.1
    have hne : c ≠ 0 := hstring.2.1
    rw [parse_char hc] at hevents ⊢
    obtain ⟨⟨e, args₁⟩, hitem, hevents⟩ := Option.bind_eq_some_iff.1 hevents
    obtain ⟨rfl, rfl⟩ := Prod.mk.inj (Option.some.inj hitem)
    obtain ⟨⟨es', args₂⟩, hitems, hsome⟩ := Option.map_eq_some_iff.1 hevents
    obtain ⟨rfl, rfl⟩ := Prod.mk.inj hsome
    obtain ⟨-, hes⟩ := List.forall_mem_cons.1 hes
    rw [List.length_cons] at hfuel
    have hrest := ih (hformat.tail (s := [c]) rfl) (h.emit [c]) hitems hes (by omega)
    rw [List.length_cons, ← Nat.add_assoc, formatStringLoop, hc', if_neg hne, if_pos hc,
      List.flatMap_cons, List.length_append, ← Nat.add_assoc]
    exact hrest
  | directive s spec d rest hread ih =>
    have hstring := hformat.congr h.mem
    rw [parse_directive hread] at hevents ⊢
    obtain ⟨⟨e, args₁⟩, hitem, hevents⟩ := Option.bind_eq_some_iff.1 hevents
    obtain ⟨⟨es', args₂⟩, hitems, hsome⟩ := Option.map_eq_some_iff.1 hevents
    obtain ⟨rfl, rfl⟩ := Prod.mk.inj hsome
    obtain ⟨⟨he, hn⟩, hes⟩ := List.forall_mem_cons.1 hes
    obtain ⟨r, hresolve, hevent⟩ := Option.bind_eq_some_iff.1 hitem
    have hbytes := readSpec_bytes s
    rw [hread] at hbytes
    have hlen := congrArg List.length hbytes
    rw [List.length_append, List.length_cons] at hlen
    rw [List.length_cons] at hfuel
    have hs : s ≠ [] := by
      rintro rfl
      exact List.cons_ne_nil d rest (Prod.mk.inj hread).2.symm
    have hplace : 37 :: s = (37 :: spec.bytes) ++ (d :: rest) := congrArg (List.cons 37) hbytes.symm
    have hd : g.mem (p + 1 + spec.bytes.length) = d := by
      have htail := isString_append (hplace ▸ hstring)
      rw [List.length_cons, Nat.add_comm _ 1, ← Nat.add_assoc] at htail
      exact htail.1
    have hplace' : 37 :: s = Item.bytes (.directive spec d) ++ rest := by
      rw [hplace]
      simp [Item.bytes]
    have hnext : p + 1 + spec.bytes.length + 1 = p + (Item.bytes (.directive spec d)).length := by
      simp only [Item.bytes, List.length_cons, List.length_append, List.length_nil]
      omega
    have hrest := ih ((hplace' ▸ hformat).tail rfl) (h.perform he) hitems hes (by omega)
    rw [List.length_cons, ← Nat.add_assoc, formatStringLoop, hstring.1, if_neg (by decide),
      if_neg (by simp), parseConversion_eq hstring hs hread hresolve (by omega),
      if_neg (fun h => List.cons_ne_nil d rest h.1)]
    dsimp only
    rw [hd, evalSpecifier_eq h (resolve_bounded hresolve) hevent he (by omega), Option.bind_some,
      hnext, List.flatMap_cons, List.length_append, ← Nat.add_assoc]
    exact hrest
  | ending s spec hread =>
    rw [parse_ending hread] at hevents ⊢
    obtain ⟨rfl, rfl⟩ := Prod.mk.inj (Option.some.inj hevents)
    rfl

/-- The ending of a format, if any, finds its arguments, and it ends the loop. -/
def Format.Ends (f : Format) (args : List (Arg F)) : Prop :=
  ∀ spec ∈ f.ending, ¬ spec.overruns ∧ (spec.resolve args).isSome

theorem formatStringLoop_ending {fp : FloatText F} {args : List (Arg F)}
    (hformat : Format.At m R p (parse s).endingBytes) (h : Keeps m R g)
    (hend : (parse s).Ends args) (hfuel : (parse s).endingBytes.length < fuel) :
    formatStringLoop fp fuel p args g = some g := by
  obtain ⟨fuel, rfl⟩ : ∃ k, fuel = k + 1 := ⟨fuel - 1, by omega⟩
  have hstring := hformat.congr h.mem
  unfold Format.endingBytes at hstring hfuel
  rcases hending : (parse s).ending with _ | spec
  · rw [hending] at hstring
    have h0 : g.mem p = 0 := hstring
    rw [formatStringLoop, if_pos h0]
  · rw [hending, Option.elim_some] at hstring hfuel
    rw [List.length_cons] at hfuel
    obtain ⟨hover, hresolve⟩ := hend spec hending
    obtain ⟨r, hresolve⟩ := Option.isSome_iff_exists.1 hresolve
    have hreturned : parseConversion g.mem fuel p args = .error .returned := by
      by_cases hs : spec.bytes = []
      · rw [hs] at hstring
        rw [parseConversion, advance_eq hstring, if_pos rfl]
        rfl
      · rw [parseConversion_eq hstring hs (readSpec_ending hending) hresolve (by omega),
          if_pos ⟨rfl, hover⟩]
    rw [formatStringLoop, hstring.1, if_neg (by decide), if_neg (by simp), hreturned]

theorem items_length_le (s : List (BitVec 8)) : (parse s).items.length ≤ s.length := by
  have hbytes := congrArg List.length (bytes_parse s)
  have hone : (parse s).items.length ≤ ((parse s).items.flatMap Item.bytes).length := by
    induction (parse s).items with
    | nil => exact le_rfl
    | cons item items ih =>
      have hitem : 0 < item.bytes.length := by
        cases item with
        | char c => exact Nat.one_pos
        | directive spec c => exact Nat.succ_pos _
      rw [List.length_cons, List.flatMap_cons, List.length_append]
      omega
  rw [Format.bytes, List.length_append] at hbytes
  omega

/-- The loop performs the events of the format that it reads. -/
theorem formatStringLoop_eq {fp : FloatText F} {n : ℕ} {es : List Event} {args args' : List (Arg F)}
    (hformat : Format.At m R p s) (h : Keeps m R g)
    (hevents : events fp (parse s).items args = some (es, args'))
    (hes : ∀ e ∈ es, e.Safe m R str ∧ e.reads str ≤ n) (hend : (parse s).Ends args')
    (hfuel : s.length + (s.length + n) < fuel) :
    formatStringLoop fp fuel p args g = some (performAll str es g) := by
  have hitems := items_length_le s
  have hbytes : ((parse s).items.flatMap Item.bytes).length + (parse s).endingBytes.length =
      s.length := by
    rw [← List.length_append]
    exact congrArg List.length (bytes_parse s)
  obtain ⟨k, rfl⟩ := Nat.exists_eq_add_of_le' (hitems.trans (by omega : s.length ≤ fuel))
  rw [formatStringLoop_items hformat h hevents hes (by omega)]
  exact formatStringLoop_ending hformat.ending (h.performAll fun e he => (hes e he).1) hend
    (by omega)

/-- Behind a flag or a digit at its end the format is not over: the terminator is printed, and the
loop goes on reading behind it. -/
theorem formatStringLoop_overruns {fp : FloatText F} {n : ℕ} {es : List Event}
    {args args' : List (Arg F)} {spec : Spec} {r : Resolved F} (hformat : Format.At m R p s)
    (h : Keeps m R g) (hevents : events fp (parse s).items args = some (es, args'))
    (hes : ∀ e ∈ es, e.Safe m R str ∧ e.reads str ≤ n) (hending : (parse s).ending = some spec)
    (hover : spec.overruns) (hresolve : spec.resolve args' = some r)
    (hfuel : s.length + n < fuel) :
    formatStringLoop fp (fuel + (parse s).items.length + 1) p args g =
      formatStringLoop fp fuel (p + s.length + 1) r.args (emit [0] (performAll str es g)) := by
  have hg := h.performAll fun e he => (hes e he).1
  have hstring := hformat.ending.congr hg.mem
  have hlen : ((parse s).items.flatMap Item.bytes).length + (1 + spec.bytes.length) =
      s.length := by
    have hbytes := congrArg List.length (bytes_parse s)
    rw [Format.bytes, hending, List.length_append, Option.elim_some, List.length_cons] at hbytes
    omega
  have hs : spec.bytes ≠ [] := by
    intro hnil
    simp [Spec.overruns, hnil] at hover
  have hdefault (fuel : ℕ) (g : Gadget S) :
      evalSpecifier fp fuel 0 r.flags r.width r.precision r.args g = some (emit [0] g, r.args) :=
    rfl
  unfold Format.endingBytes at hstring
  rw [hending, Option.elim_some] at hstring
  have hnul : (performAll str es g).mem
      (p + ((parse s).items.flatMap Item.bytes).length + 1 + spec.bytes.length) = 0 := by
    rw [← List.append_nil (37 :: spec.bytes)] at hstring
    have hend := isString_append hstring
    rw [List.length_cons, Nat.add_comm spec.bytes.length, ← Nat.add_assoc] at hend
    exact hend
  have hplace : p + ((parse s).items.flatMap Item.bytes).length + 1 + spec.bytes.length =
      p + s.length := by
    omega
  rw [Nat.add_right_comm, formatStringLoop_items hformat h hevents hes (by omega),
    formatStringLoop, hstring.1, if_neg (by decide), if_neg (by simp),
    parseConversion_eq hstring hs (readSpec_ending hending) hresolve (by omega),
    if_neg (fun hend => hend.2 hover)]
  dsimp only
  rw [hnul, hdefault, Option.bind_some, hplace]

/-- The format `"%-"`. -/
theorem formatStringLoop_overruns_minus :
    formatStringLoop (fun _ _ _ _ _ => [] : FloatText Unit) 4 0 []
        (discardingGadget (memOf [37, 45, 0]) ()) =
      formatStringLoop (fun _ _ _ _ _ => [] : FloatText Unit) 3 3 []
        (emit [0] (discardingGadget (memOf [37, 45, 0]) ())) := by
  have hat : Format.At (memOf [37, 45, 0]) {x | x < 3} 0 [37, 45] := by
    refine ⟨⟨rfl, by decide, rfl, by decide, rfl⟩, fun i hi => ?_⟩
    have hi : i ≤ 2 := hi
    change 0 + i < 3
    omega
  have hkeeps : Keeps (memOf [37, 45, 0]) {x | x < 3}
      (discardingGadget (memOf [37, 45, 0]) ()) :=
    ⟨fun _ _ => rfl,
      fun x _ hs => Nat.not_lt_zero x (by simpa [discardingGadget] using hs.2.2), by decide⟩
  have hnone : ∀ e ∈ ([] : List Event), e.Safe (memOf [37, 45, 0]) {x | x < 3} (fun _ => []) ∧
      e.reads (fun _ => []) ≤ 0 := fun e he => absurd he List.not_mem_nil
  have hfuel : [(37 : BitVec 8), 45].length + 0 < 3 := by decide
  exact formatStringLoop_overruns hat hkeeps rfl hnone rfl (by decide) rfl hfuel

end Events

end IceKernel.Stdio
