import IceKernel.Memory.PagingWalk

/-!
# Access rights

The hardware allows what every entry on the way allows. Links allow
everything, so the rights of a small page are those of its own entry, and
`map` only ever adds bits to that entry.
-/

namespace IceKernel.Paging
open Word64 RadixTree

variable {A : Type} {K : Machine A} {top : ℕ} {st st' : State A} {p : List ℕ} {t i v : ℕ}

/-! ## The entries the hardware combines -/

/-- The entries of the hardware's walk from the table `t` at depth `d`, the leaf last. -/
def hwWordsFrom (K : Machine A) (mem : Mem) (a : ℕ) : ℕ → ℕ → ℕ → Option (List (BitVec 64))
  | 0, _, _ => none
  | n + 1, d, t =>
    let e := mem t (idx a d)
    if !getFlags e present then none
    else if 3 ≤ d then some [e]
    else if getFlags e largerPages then if d = 0 then none else some [e]
    else (hwWordsFrom K mem a n (d + 1) (tohh K.hhdm.offset (getAddress e))).map fun es => e :: es

def hwWords (K : Machine A) (mem : Mem) (top a : ℕ) : Option (List (BitVec 64)) :=
  hwWordsFrom K mem a 4 0 top

def hwWritable (es : List (BitVec 64)) : Bool := es.all fun e => getFlags e writable

def hwUser (es : List (BitVec 64)) : Bool := es.all fun e => getFlags e userSuper

def hwExecutable (es : List (BitVec 64)) : Bool := es.all fun e => !getFlags e noExec

/-- The hardware finds a 4 KiB page whose entry is just the frame and the requested flags, with
exactly the requested rights. -/
def ExactRights (K : Machine A) (mem : Mem) (top v pa : ℕ) (flags : BitVec 64) (cache : Caching) :
    Prop :=
  ∃ links, links.length = 3 ∧
    hwWords K mem top v =
      some (links ++ [BitVec.ofNat 64 pa ||| flagsToArch flags ||| cacheToFlags cache false]) ∧
    ∀ es, hwWords K mem top v = some es →
      hwWritable es = getFlags flags WRITE ∧ hwUser es = getFlags flags USER ∧
        hwExecutable es = getFlags flags EXEC

/-- `e` is a link of the tree. -/
def IsLink (K : Machine A) (mem : Mem) (top : ℕ) (e : BitVec 64) : Prop :=
  ∃ p t i s, nodeAt K mem top p = some t ∧ mem t i = e ∧
    decode K.hhdm.offset p.length e = .child s

theorem hwWordsFrom_succ (K : Machine A) (mem : Mem) (a n d t : ℕ) :
    hwWordsFrom K mem a (n + 1) d t =
      match decode K.hhdm.offset d (mem t (idx a d)) with
      | .empty => none
      | .child s => (hwWordsFrom K mem a n (d + 1) s).map fun es => mem t (idx a d) :: es
      | .leaf w => some [w] := by
  simp only [hwWordsFrom, getFlags_present, getFlags_largerPages, decode]
  cases (mem t (idx a d)).getLsbD 0
  · rfl
  · simp only [Bool.not_true, Bool.false_eq_true, if_false, reduceCtorEq]
    split_ifs <;> rfl

/-- Above the leaf the walk passes links only. -/
theorem hwWordsFrom_of_leaf {mem : Mem} {a n d k : ℕ} {w : BitVec 64}
    (h : nodeAt K mem top (pathTo a d) = some t) (hw : leafFor K mem top a (d + k) = some w)
    (hk : k < n) :
    ∃ links, links.length = k ∧ hwWordsFrom K mem a n d t = some (links ++ [w]) ∧
      ∀ e ∈ links, IsLink K mem top e := by
  induction k generalizing n d t with
  | zero =>
    obtain ⟨n, rfl⟩ : ∃ m, n = m + 1 := ⟨n - 1, by omega⟩
    have hdec : decode K.hhdm.offset d (mem t (idx a d)) = .leaf w := by
      rw [Nat.add_zero, leafFor, leafOf, slot_step h] at hw
      revert hw
      cases decode K.hhdm.offset d (mem t (idx a d)) <;> simp [Slot.leaf?]
    refine ⟨[], rfl, ?_, fun e he => absurd he List.not_mem_nil⟩
    rw [hwWordsFrom_succ, hdec]
    rfl
  | succ k ih =>
    obtain ⟨n, rfl⟩ : ∃ m, n = m + 1 := ⟨n - 1, by omega⟩
    -- the entry at depth `d` is above the leaf, so it is a child
    obtain ⟨s, hs⟩ : ∃ s, slotOf K mem top (pathTo a d) (idx a d) = .child s := by
      cases hslot : slotOf K mem top (pathTo a d) (idx a d) with
      | child s => exact ⟨s, rfl⟩
      | empty =>
        rw [leafFor_below (d := d) (by omega) (by rw [hslot]; rfl)] at hw
        simp at hw
      | leaf u =>
        rw [leafFor_below (d := d) (by omega) (by rw [hslot]; rfl)] at hw
        simp at hw
    have hdec := (slot_step h).symm.trans hs
    obtain ⟨links, hlen, hwalk, hlinks⟩ := ih (n := n) (node_step hs)
      (by rw [← hw]; congr 1; omega) (by omega)
    refine ⟨mem t (idx a d) :: links, by rw [List.length_cons, hlen], ?_, fun e he => ?_⟩
    · rw [hwWordsFrom_succ, hdec]
      simp only [hwalk, Option.map_some, List.cons_append]
    · rcases List.mem_cons.mp he with rfl | he
      · exact ⟨pathTo a d, t, idx a d, s, h, rfl, by rw [length_pathTo]; exact hdec⟩
      · exact hlinks e he

theorem hwWords_of_leaf {mem : Mem} {a d : ℕ} {w : BitVec 64}
    (hw : leafFor K mem top a d = some w) (hd : d ≤ 3) :
    ∃ links, links.length = d ∧ hwWords K mem top a = some (links ++ [w]) ∧
      ∀ e ∈ links, IsLink K mem top e :=
  hwWordsFrom_of_leaf (d := 0) rfl (by rwa [Nat.zero_add]) (by omega)

/-! ## The bits of an entry -/

theorem getFlags_writable (w : BitVec 64) : getFlags w writable = w.getLsbD 1 :=
  getFlags_twoPow w (k := 1) (by norm_num)

theorem getFlags_userSuper (w : BitVec 64) : getFlags w userSuper = w.getLsbD 2 :=
  getFlags_twoPow w (k := 2) (by norm_num)

theorem getFlags_noExec (w : BitVec 64) : getFlags w noExec = w.getLsbD 63 :=
  getFlags_twoPow w (k := 63) (by norm_num)

/-- The rights in the entry `map` asks for. Bit 63 of the frame address would be read as the
no-execute bit. -/
theorem requested_bits {pa : ℕ} (hpa : pa % KiB4 = 0) (flags : BitVec 64) (cache : Caching) :
    (BitVec.ofNat 64 pa ||| realFlags flags cache false).getLsbD 1 = getFlags flags WRITE ∧
      (BitVec.ofNat 64 pa ||| realFlags flags cache false).getLsbD 2 = getFlags flags USER ∧
      (BitVec.ofNat 64 pa ||| realFlags flags cache false).getLsbD 63 =
        (pa.testBit 63 || !getFlags flags EXEC) := by
  have h1 : pa.testBit 1 = false := testBit_aligned (k := 12) hpa (by norm_num)
  have h2 : pa.testBit 2 = false := testBit_aligned (k := 12) hpa (by norm_num)
  have hw : (flagsToArch flags).getLsbD 1 = getFlags flags WRITE := by
    rw [getLsbD_flagsToArch]
    simp [present, writable, userSuper, noExec, globalPage, largerPages]
  have hu : (flagsToArch flags).getLsbD 2 = getFlags flags USER := by
    rw [getLsbD_flagsToArch]
    simp [present, writable, userSuper, noExec, globalPage, largerPages]
  have hx : (flagsToArch flags).getLsbD 63 = !getFlags flags EXEC := by
    rw [getLsbD_flagsToArch]
    simp [present, writable, userSuper, noExec, globalPage, largerPages]
  have hc (k : ℕ) (hk : k = 1 ∨ k = 2 ∨ k = 63) : (cacheToFlags cache false).getLsbD k = false := by
    rcases hk with rfl | rfl | rfl <;> cases cache <;> rfl
  simp only [realFlags, BitVec.getLsbD_or, BitVec.getLsbD_ofNat, h1, h2, hw, hu, hx,
    hc 1 (by norm_num), hc 2 (by norm_num), hc 63 (by norm_num)]
  simp

/-- The bits outside the address field that the entry keeps without being asked to. -/
def leftover (old : BitVec 64) (pa : ℕ) (flags : BitVec 64) (cache : Caching) : BitVec 64 :=
  old &&& ~~~paMask &&& ~~~(BitVec.ofNat 64 pa ||| realFlags flags cache false)

/-- `map` adds to the entry: it replaces the address field, and clears no other bit. -/
theorem getLsbD_mappedWord (old : BitVec 64) (pa : ℕ) (flags : BitVec 64) (cache : Caching)
    {k : ℕ} (hk : k < 64) : (mappedWord old pa flags cache KiB4).getLsbD k =
      ((BitVec.ofNat 64 pa ||| realFlags flags cache false).getLsbD k ||
        (leftover old pa flags cache).getLsbD k) := by
  have hsmall : decide (KiB4 ≠ KiB4) = false := by simp
  rw [mappedWord, hsmall, getLsbD_setFlags, setAddress, leftover]
  simp only [BitVec.getLsbD_or, BitVec.getLsbD_and, BitVec.getLsbD_not, hk]
  cases (realFlags flags cache false).getLsbD k <;> cases (BitVec.ofNat 64 pa).getLsbD k <;>
    cases old.getLsbD k <;> cases paMask.getLsbD k <;> rfl

theorem mappedWord_eq_iff (old : BitVec 64) (pa : ℕ) (flags : BitVec 64) (cache : Caching) :
    mappedWord old pa flags cache KiB4 = BitVec.ofNat 64 pa ||| realFlags flags cache false ↔
      leftover old pa flags cache = 0#64 := by
  constructor
  · intro h
    apply BitVec.eq_of_getLsbD_eq
    intro k hk
    have hbit := getLsbD_mappedWord old pa flags cache hk
    rw [h] at hbit
    rw [BitVec.getLsbD_zero]
    cases hl : (leftover old pa flags cache).getLsbD k with
    | false => rfl
    | true =>
      -- a leftover bit is by definition not a requested one
      rw [hl, Bool.or_true] at hbit
      rw [leftover, BitVec.getLsbD_and, BitVec.getLsbD_not, hbit] at hl
      simp at hl
  · intro h
    apply BitVec.eq_of_getLsbD_eq
    intro k hk
    rw [getLsbD_mappedWord old pa flags cache hk, h, BitVec.getLsbD_zero, Bool.or_false]

/-! ## Links allow everything -/

def OpenWord (w : BitVec 64) : Prop :=
  w.getLsbD 1 = true ∧ w.getLsbD 2 = true ∧ w.getLsbD 63 = false

/-- Every link of the tree is writable, for users, and executable. -/
def OpenLinks (K : Machine A) (mem : Mem) (top : ℕ) : Prop :=
  ∀ e, IsLink K mem top e → OpenWord e

theorem linkWord_open {h : Hhdm} {q : ℕ} (hq : TableAddr h q) : OpenWord (linkWord h.offset q) := by
  obtain ⟨a, rfl, hal, -, h52⟩ := hq
  have hlt : a < 2 ^ 63 := by omega
  have h63 : a.testBit 63 = false := Nat.testBit_lt_two_pow hlt
  rw [linkWord, h.fromhh_eq]
  refine ⟨?_, ?_, ?_⟩
  · rw [getLsbD_setFlags]
    rfl
  · rw [getLsbD_setFlags]
    rfl
  · have haddr : (setAddress 0#64 a).getLsbD 63 = false := by
      rw [setAddress, BitVec.getLsbD_or, BitVec.getLsbD_ofNat, h63]
      rfl
    rw [getLsbD_setFlags, haddr]
    rfl

/-- A walk adds nothing but links of its own. -/
theorem OpenLinks.walked {r : List ℕ} (h : OpenLinks K st.mem top) (hs : Skeleton K top st')
    (hw : Walked K top r st st') : OpenLinks K st'.mem top := by
  rintro e ⟨p, t, i, s, hp, rfl, hdec⟩
  rcases hw.word t (hs.closed p t hp) i with ⟨hm, heq⟩ | ⟨-, heq | ⟨q, hq, heq⟩⟩
  · have hp0 := (hw.added p t hp).resolve_right fun hn => hn.1 hm
    rw [heq] at hdec ⊢
    exact h _ ⟨p, t, i, s, hp0, rfl, hdec⟩
  · rw [heq, decode_zero] at hdec
    simp at hdec
  · rw [heq]
    exact linkWord_open hq

theorem OpenLinks.put (h : OpenLinks K st.mem top) (hs : Skeleton K top st)
    (hp : nodeAt K st.mem top p = some t) {w : BitVec 64}
    (hw : (decode K.hhdm.offset p.length w).child? = none) :
    OpenLinks K (write st.mem t i w) top := by
  rintro e ⟨q, s, j, u, hq, rfl, hdec⟩
  have hq0 : nodeAt K st.mem top q = some s := descend_write_cut hs.unshared hp hw hq
  by_cases hsj : s = t ∧ j = i
  · obtain ⟨rfl, rfl⟩ := hsj
    rw [write_self, hs.unshared q p s hq0 hp] at hdec
    rw [hdec] at hw
    simp [Slot.child?] at hw
  · rw [write_of_ne hsj] at hdec ⊢
    exact h _ ⟨q, s, j, u, hq0, rfl, hdec⟩

theorem openLinks_kept (K : Machine A) (top : ℕ) :
    Kept K top fun st => OpenLinks K st.mem top where
  walked _ hs hw h := h.walked hs hw
  stored _ hs hp _ hw h := h.put hs hp hw

/-- The first constructor makes open links. -/
theorem openLinks_construct {mem : Mem} {heap : A}
    (he : construct K none (start mem heap) = some (top, st)) : OpenLinks K st.mem top := by
  obtain ⟨⟨q, st1⟩, h1, h2⟩ := Option.bind_eq_some_iff.mp he
  obtain ⟨st2, h3, heq⟩ := Option.map_eq_some_iff.mp h2
  simp only [Prod.mk.injEq] at heq
  obtain ⟨rfl, rfl⟩ := heq
  obtain ⟨ht1, hempty⟩ := newTable_spec h1
  have hopen : OpenLinks K st1.mem q := by
    rintro e ⟨p, t, i, s, hp, rfl, hdec⟩
    have hslot := slotAt_of_descend hp i
    rw [hdec] at hslot
    exact absurd ((hempty p i).symm.trans hslot) (by simp)
  exact (openLinks_kept K q).fill hopen ht1 h3

/-- The second constructor copies open links. -/
theorem openLinks_copy {k : ℕ} (h : OpenLinks K st.mem k) (hs : Skeleton K k st)
    (he : construct K (some k) st = some (top, st')) : OpenLinks K st'.mem top := by
  obtain ⟨-, -, hkeep, hrow⟩ := construct_copy_mem hs he
  rintro e ⟨p, t, i, s, hp, rfl, hdec⟩
  by_cases hnil : p = []
  · subst hnil
    obtain rfl : top = t := Option.some.inj hp
    rw [hrow i] at hdec ⊢
    split_ifs at hdec ⊢
    · exact h _ ⟨[], k, i, s, rfl, rfl, hdec⟩
    · rw [decode_zero] at hdec
      simp at hdec
  · have hp0 := construct_copy_node hs he hnil hp
    rw [hkeep t (hs.closed p t hp0)] at hdec ⊢
    exact h _ ⟨p, t, i, s, hp0, rfl, hdec⟩

theorem openLinks_of_run {st₀ : State A} {ops : List Op} (ht : Tables K top st₀)
    (ho : OpenLinks K st₀.mem top)
    (hclear : Run.Along (opStep K top) (fun st op => op.Clear K top st) st₀ ops)
    (hrun : Run.run (opStep K top) st₀ ops = some st) :
    Tables K top st ∧ OpenLinks K st.mem top :=
  (openLinks_kept K top).run ho ht hclear hrun

/-! ## What `map` leaves behind -/

section Map

variable {pa : ℕ} {flags : BitVec 64} {cache : Caching}

/-- The entry `map` reaches is the hardware's, keeps no bit of its own, and the frame address does
not set the no-execute bit. -/
def RightsOk (K : Machine A) (mem : Mem) (top v pa : ℕ) (flags : BitVec 64) (cache : Caching) :
    Prop :=
  ClearAbove K mem top v 3 ∧ leftover (entryWord K mem top v) pa flags cache = 0#64 ∧
    (pa.testBit 63 = true → getFlags flags EXEC = false)

/-- Behind open links the rights are those of the last entry. -/
theorem rights_of_last {links : List (BitVec 64)} (h : ∀ e ∈ links, OpenWord e) (w : BitVec 64) :
    hwWritable (links ++ [w]) = w.getLsbD 1 ∧ hwUser (links ++ [w]) = w.getLsbD 2 ∧
      hwExecutable (links ++ [w]) = !w.getLsbD 63 := by
  have h1 : links.all (fun e => e.getLsbD 1) = true :=
    List.all_eq_true.mpr fun e he => (h e he).1
  have h2 : links.all (fun e => e.getLsbD 2) = true :=
    List.all_eq_true.mpr fun e he => (h e he).2.1
  have h3 : links.all (fun e => !e.getLsbD 63) = true :=
    List.all_eq_true.mpr fun e he => by rw [(h e he).2.2]; rfl
  simp only [hwWritable, hwUser, hwExecutable, List.all_append, h1, h2, h3, Bool.true_and,
    List.all_cons, List.all_nil, Bool.and_true, getFlags_writable, getFlags_userSuper,
    getFlags_noExec, and_self]

/-- After a call that reaches the hardware's entry, the hardware passes three links and then the
word `map` stored. -/
theorem hwWords_map (ht : Tables K top st) (ho : OpenLinks K st.mem top)
    (hf : isLpage flags = false) (hc : ClearAbove K st.mem top v 3) {ok : Bool}
    (he : map K top v pa flags cache st = some (ok, st')) :
    ∃ links, links.length = 3 ∧ (∀ e ∈ links, OpenWord e) ∧ hwWords K st'.mem top v =
      some (links ++ [mappedWord (entryWord K st.mem top v) pa flags cache KiB4]) := by
  rw [map_plain hf] at he
  have hopen := (openLinks_kept K top).mapOne ho ht (Or.inl rfl) hc he
  obtain ⟨-, t, st1, ht1, hw, hn, rfl⟩ := mapOne_small ht hc he
  have hleaf : leafFor K (write st1.mem t (idx v 3)
      (mappedWord (entryWord K st.mem top v) pa flags cache KiB4)) top v 3 =
        some (mappedWord (entryWord K st.mem top v) pa flags cache KiB4) := by
    rw [leafFor, leafOf, slotOf, slotAt_write_self ht1.unshared hn, length_pathTo,
      decode_leaf (mappedWord_present _ _ _ _ _) (by norm_num) (Or.inl (Nat.le_refl 3))]
    rfl
  obtain ⟨links, hlen, hwords, hlinks⟩ := hwWords_of_leaf hleaf (Nat.le_refl 3)
  exact ⟨links, hlen, fun e hl => hopen e (hlinks e hl), hwords⟩

theorem exactRights_iff (ht : Tables K top st) (ho : OpenLinks K st.mem top)
    (hf : isLpage flags = false) (hpa : pa % KiB4 = 0) (hc : ClearAbove K st.mem top v 3)
    {ok : Bool} (he : map K top v pa flags cache st = some (ok, st')) :
    ExactRights K st'.mem top v pa flags cache ↔
      leftover (entryWord K st.mem top v) pa flags cache = 0#64 ∧
        (pa.testBit 63 = true → getFlags flags EXEC = false) := by
  obtain ⟨links, hlen, hopen, hwords⟩ := hwWords_map ht ho hf hc he
  obtain ⟨hw, hu, hx⟩ := rights_of_last hopen
    (mappedWord (entryWord K st.mem top v) pa flags cache KiB4)
  obtain ⟨bw, bu, bx⟩ := requested_bits hpa flags cache
  have hassoc : BitVec.ofNat 64 pa ||| flagsToArch flags ||| cacheToFlags cache false =
      BitVec.ofNat 64 pa ||| realFlags flags cache false := BitVec.or_assoc _ _ _
  rw [ExactRights, hassoc]
  constructor
  · rintro ⟨links', hlen', heq, hrights⟩
    rw [hwords, Option.some.injEq] at heq
    have hword := (List.cons.inj (List.append_inj_right heq (by rw [hlen, hlen']))).1
    have hexec := (hrights _ hwords).2.2
    rw [hx, hword, bx] at hexec
    refine ⟨(mappedWord_eq_iff _ _ _ _).mp hword, fun h63 => ?_⟩
    rw [h63] at hexec
    simpa using hexec.symm
  · rintro ⟨hleft, h63⟩
    have hword := (mappedWord_eq_iff (entryWord K st.mem top v) pa flags cache).mpr hleft
    rw [hword] at hwords hw hu hx
    refine ⟨links, hlen, hwords, fun es hes => ?_⟩
    rw [hwords, Option.some.injEq] at hes
    rw [← hes, hw, hu, hx, bw, bu, bx]
    refine ⟨rfl, rfl, ?_⟩
    cases hbit : pa.testBit 63 with
    | false => simp
    | true => simp [h63 hbit]

/-- A small `map` gives exactly the requested rights when no large page covers the address and the
entry has no bit set that is not requested; otherwise it does not, unless it wrote to the page
tables by taking the frame of a large page for one. -/
theorem map_rights_exact_iff (K : Machine A) (ht : Tables K top st) (ho : OpenLinks K st.mem top)
    (hf : isLpage flags = false) (hpa : pa % KiB4 = 0) {ok : Bool}
    (he : map K top v pa flags cache st = some (ok, st')) :
    (RightsOk K st.mem top v pa flags cache → ExactRights K st'.mem top v pa flags cache) ∧
      (ClearAbove K st.mem top v 3 ∨ (∀ t ∈ st.tables, st'.mem t = st.mem t) →
        (ExactRights K st'.mem top v pa flags cache ↔
          RightsOk K st.mem top v pa flags cache)) := by
  have hgood : RightsOk K st.mem top v pa flags cache →
      ExactRights K st'.mem top v pa flags cache := fun ⟨hc, hok⟩ =>
    (exactRights_iff ht ho hf hpa hc he).mpr hok
  refine ⟨hgood, fun hcase => ⟨fun hexact => ?_, hgood⟩⟩
  by_cases hc : ClearAbove K st.mem top v 3
  · exact ⟨hc, (exactRights_iff ht ho hf hpa hc he).mp hexact⟩
  · -- the large leaf is still there, and the hardware stops at it
    have hmem := hcase.resolve_left hc
    unfold ClearAbove at hc
    push Not at hc
    obtain ⟨d, hd, hne⟩ := hc
    obtain ⟨w, hleaf⟩ := Option.ne_none_iff_exists'.mp hne
    have hsame : leafFor K st'.mem top v d = some w := by
      rw [← hleaf]
      exact congrArg Slot.leaf? (slotAt_congr (fun p t hp => hmem t (ht.closed p t hp)) _ _)
    obtain ⟨links, hlen, hwords, -⟩ := hwWords_of_leaf hsame (by omega)
    obtain ⟨links', hlen', hwords', -⟩ := hexact
    have hlens := congrArg List.length (Option.some.inj (hwords.symm.trans hwords'))
    simp only [List.length_append, List.length_cons, List.length_nil] at hlens
    omega

end Map

theorem map_rights_exact_iff_small :
    ∃ top st₀ st, construct (orderedMachine false) none (start (fun _ _ => 0#64) 1) =
        some (top, st₀) ∧
      map (orderedMachine false) top 0x400000 0x7000 RW .writeBack st₀ = some (true, st) ∧
      ExactRights (orderedMachine false) st.mem top 0x400000 0x7000 RW .writeBack := by
  have htrue : ((construct (orderedMachine false) none (start (fun _ _ => 0#64) 1)).bind
      fun (top, st₀) => (map (orderedMachine false) top 0x400000 0x7000 RW .writeBack st₀).map
        Prod.fst) = some true := by
    decide +kernel
  obtain ⟨⟨top, st₀⟩, h0, h1⟩ := Option.bind_eq_some_iff.mp htrue
  obtain ⟨⟨ok, st⟩, hm, rfl⟩ := Option.map_eq_some_iff.mp h1
  obtain ⟨ht, hnone⟩ := construct_spec h0
  refine ⟨top, st₀, st, h0, hm, (map_rights_exact_iff (orderedMachine false) ht
    (openLinks_construct h0) (by decide) (by decide) hm).1 ⟨fun d _ => hnone _ d, ?_, by decide⟩⟩
  rw [entryWord, hnone]
  decide

/-- A page mapped for writing stays writable when it is mapped again for reading only. -/
theorem write_right_stays :
    ∃ top st₀ st₁ st₂, construct (orderedMachine false) none (start (fun _ _ => 0#64) 1) =
        some (top, st₀) ∧
      map (orderedMachine false) top 0x400000 0x7000 RW .writeBack st₀ = some (true, st₁) ∧
      map (orderedMachine false) top 0x400000 0x7000 READ .writeBack st₁ = some (true, st₂) ∧
      (hwWords (orderedMachine false) st₂.mem top 0x400000).map hwWritable = some true ∧
      ¬ ExactRights (orderedMachine false) st₂.mem top 0x400000 0x7000 READ .writeBack := by
  have hrun : ((construct (orderedMachine false) none (start (fun _ _ => 0#64) 1)).bind
      fun (top, st₀) => (map (orderedMachine false) top 0x400000 0x7000 RW .writeBack st₀).bind
        fun (ok₁, st₁) => (map (orderedMachine false) top 0x400000 0x7000 READ .writeBack st₁).map
          fun (ok₂, st₂) => (ok₁, ok₂,
            (hwWords (orderedMachine false) st₂.mem top 0x400000).map hwWritable)) =
        some (true, true, some true) := by
    decide +kernel
  obtain ⟨⟨top, st₀⟩, h0, h1⟩ := Option.bind_eq_some_iff.mp hrun
  obtain ⟨⟨ok₁, st₁⟩, hm1, h2⟩ := Option.bind_eq_some_iff.mp h1
  obtain ⟨⟨ok₂, st₂⟩, hm2, h3⟩ := Option.map_eq_some_iff.mp h2
  simp only [Prod.mk.injEq] at h3
  obtain ⟨rfl, rfl, hw⟩ := h3
  refine ⟨top, st₀, st₁, st₂, h0, hm1, hm2, hw, ?_⟩
  rintro ⟨links, -, hwords, hrights⟩
  rw [hwords, Option.map_some, Option.some.injEq, (hrights _ hwords).1] at hw
  exact absurd hw (by decide)

end IceKernel.Paging
