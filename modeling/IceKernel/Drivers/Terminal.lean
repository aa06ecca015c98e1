import IceKernel.Lib.Digits
import IceKernel.Libc.StringReaders

/-!
# The terminals of `drivers/graphics/terminal.cpp`

The bootloader's `write` is recorded as the terminal it is called for with the
bytes it is given. A terminal that a caller leaves out is `main_term`.
-/

namespace IceKernel
open Word64 Digits

/-- What the driver finds when it is called. -/
structure Console (T : Type) where
  /-- The terminal request has been answered. -/
  response : Bool
  mainTerm : Option T
  columns : T → ℕ
  columns_lt : ∀ t, columns t < 2 ^ 64

/-- The calls of `write`, the latest one last. -/
abbrev Output (T : Type) := List (T × List (BitVec 8))

/-- `n` bytes from index `i` on. -/
def CArray.readBytes (str : CArray) : ℕ → ℕ → Option (List (BitVec 8))
  | 0, _ => some []
  | n + 1, i => (str i).bind fun c => (CArray.readBytes str n (i + 1)).map (c :: ·)

namespace Console

variable {T : Type} (con : Console T)

/-- `print(str, term)`. -/
def print (str : CArray) (term : Option T) (fuel : ℕ) (out : Output T) : Option (Output T) :=
  match con.response, term with
  | true, some t =>
    (str.strlen fuel 0).bind fun len =>
      (str.readBytes len 0).map fun bytes => out ++ [(t, bytes)]
  | _, _ => some out

/-- `printc(c, term)`. -/
def printc (c : BitVec 8) (term : Option T) (fuel : ℕ) (out : Output T) : Option (Output T) :=
  con.print (CArray.ofBytes [c, 0]) term fuel out

/-! ## `printi` -/

/-- `-num` for an `int`, modulo 2^32. -/
def negate (num : ℤ) : ℤ := Int.bmod (-num) (2 ^ 32)

/-- `temp[i++] = c`, where `temp` holds what has been stored and `i` is its length. -/
def store (temp : List (BitVec 8)) (c : BitVec 8) : Option (List (BitVec 8)) :=
  if temp.length < 10 then some (temp ++ [c]) else none

/-- The loop that stores the digits. -/
def digitLoop : ℕ → ℤ → List (BitVec 8) → Option (List (BitVec 8))
  | 0, _, _ => none
  | fuel + 1, num, temp =>
    if 0 < num then
      (store temp (BitVec.ofInt 8 (num.tmod 10 + 48))).bind fun temp =>
        digitLoop fuel (num.tdiv 10) temp
    else some temp

/-- What is stored in `temp`. The first digit of the smallest `int` is stored before its loop. -/
def storeDigits (fuel : ℕ) (num : ℤ) : Option (List (BitVec 8)) :=
  (if num ≤ 0 then store [] 56 else some []).bind fun temp =>
    digitLoop fuel (if num ≤ 0 then negate (num.tdiv 10) else num) temp

/-- The loop that prints `temp[i - 1]` down to `temp[0]`. -/
def printBack (temp : List (BitVec 8)) (term : Option T) (fuel : ℕ) :
    ℕ → Output T → Option (Output T)
  | 0, out => some out
  | i + 1, out =>
    (temp[i]?).bind fun c => (con.printc c term fuel out).bind fun out =>
      printBack temp term fuel i out

/-- `printi(num, term)`. -/
def printi (num : ℤ) (term : Option T) (fuel : ℕ) (out : Output T) : Option (Output T) :=
  if num ≠ 0 then
    (if num < 0 then con.printc 45 con.mainTerm fuel out else some out).bind fun out =>
      (storeDigits fuel (if num < 0 then negate num else num)).bind fun temp =>
        con.printBack temp term fuel temp.length out
  else con.printc 48 term fuel out

/-! ## `center` -/

/-- A padding loop of `center` from its index `i` on; it ends with the index. -/
def padLoop (text : CArray) (term : T) (fuel : ℕ) : ℕ → ℕ → Output T → Option (ℕ × Output T)
  | 0, _, _ => none
  | rounds + 1, i, out =>
    (text.strlen fuel 0).bind fun len =>
      if i < sub (con.columns term / 2) (len / 2) then
        (con.printc 32 con.mainTerm fuel out).bind fun out =>
          padLoop text term fuel rounds (wrap (i + 1)) out
      else some (i, out)

/-- `center(text, term)`, with the last indices of both loops. -/
def center (text : CArray) (term : T) (fuel : ℕ) (out : Output T) :
    Option (ℕ × ℕ × Output T) :=
  (con.padLoop text term fuel fuel 0 out).bind fun (i, out) =>
    (con.print text con.mainTerm fuel out).bind fun out =>
      (con.padLoop text term fuel fuel 0 out).map fun (j, out) => (i, j, out)

/-! ## What is written -/

/-- The calls of `write` for the characters `l`, one each. -/
def emits (u : Option T) (l : List (BitVec 8)) : Output T :=
  u.elim [] fun t => l.map fun c => (t, [c])

/-- The terminal that is written to when `term` is asked for. -/
def live (term : Option T) : Option T := if con.response then term else none

/-- The bytes that have been written to `t`. -/
def bytesOn [DecidableEq T] (t : T) (out : Output T) : List (BitVec 8) :=
  out.flatMap fun w => if w.1 = t then w.2 else []

/-- From `out` to `out'`, the bytes `s` have been written to `t` and none to another terminal. -/
structure Writes [DecidableEq T] (t : T) (s : List (BitVec 8)) (out out' : Output T) : Prop where
  here : bytesOn t out' = bytesOn t out ++ s
  elsewhere : ∀ u, u ≠ t → bytesOn u out' = bytesOn u out

section Output

variable [DecidableEq T] {t : T} {out new : Output T}

@[simp] theorem bytesOn_append (t : T) (out new : Output T) :
    bytesOn t (out ++ new) = bytesOn t out ++ bytesOn t new := List.flatMap_append

@[simp] theorem bytesOn_emits (t : T) (u : Option T) (l : List (BitVec 8)) :
    bytesOn t (emits u l) = if u = some t then l else [] := by
  cases u with
  | none => rfl
  | some u =>
    simp only [bytesOn, emits, Option.elim_some, List.flatMap_map, Option.some_inj]
    split
    · exact List.flatMap_singleton' l
    · exact List.flatMap_eq_nil_iff.2 fun _ _ => rfl

@[simp] theorem bytesOn_elim (t : T) (u : Option T) (s : List (BitVec 8)) :
    bytesOn t (u.elim [] fun t => [(t, s)]) = if u = some t then s else [] := by
  cases u with
  | none => rfl
  | some u => simp [bytesOn]

theorem writes_append_iff {s : List (BitVec 8)} :
    Writes t s out (out ++ new) ↔ bytesOn t new = s ∧ ∀ u, u ≠ t → bytesOn u new = [] := by
  constructor
  · intro h
    have hhere := h.here
    rw [bytesOn_append] at hhere
    refine ⟨List.append_cancel_left hhere, fun u hu => ?_⟩
    have helse := h.elsewhere u hu
    rwa [bytesOn_append, List.append_right_eq_self] at helse
  · rintro ⟨hhere, helse⟩
    refine ⟨by rw [bytesOn_append, hhere], fun u hu => ?_⟩
    rw [bytesOn_append, helse u hu, List.append_nil]

end Output

section Printed

variable {con : Console T} {str : CArray} {s : List (BitVec 8)} {fuel i : ℕ}

theorem readBytes_eq (h : str.IsString i s) : str.readBytes s.length i = some s := by
  induction s generalizing i with
  | nil => rfl
  | cons c s ih => rw [List.length_cons, CArray.readBytes, h.1, Option.bind_some, ih h.2.2]; rfl

theorem print_eq (h : str.IsString 0 s) (hfuel : s.length < fuel) (term : Option T)
    (out : Output T) :
    con.print str term fuel out = some (out ++ (con.live term).elim [] fun t => [(t, s)]) := by
  have hlen := CArray.strlen_eq h hfuel
  rw [Nat.zero_add] at hlen
  unfold print live
  cases con.response with
  | false => simp
  | true =>
    cases term with
    | none => simp
    | some t => simp [hlen, readBytes_eq h]

theorem printc_eq {c : BitVec 8} (hc : c ≠ 0) (hfuel : 1 < fuel) (term : Option T)
    (out : Output T) :
    con.printc c term fuel out = some (out ++ emits (con.live term) [c]) := by
  have hstring : (CArray.ofBytes [c, 0]).IsString 0 [c] := ⟨rfl, hc, rfl⟩
  exact print_eq hstring hfuel term out

theorem emits_append (u : Option T) (l r : List (BitVec 8)) :
    emits u (l ++ r) = emits u l ++ emits u r := by
  cases u with
  | none => rfl
  | some u => exact List.map_append

end Printed

/-! ## The numeral -/

section Numeral

variable {con : Console T} {num : ℤ} {fuel : ℕ}

theorem digitLoop_eq {n : ℕ} {temp : List (BitVec 8)}
    (hlen : temp.length + (Nat.digits 10 n).length ≤ 10) (hfuel : (Nat.digits 10 n).length < fuel) :
    digitLoop fuel n temp = some (temp ++ (Nat.digits 10 n).map digitChar) := by
  induction fuel generalizing n temp with
  | zero => exact absurd hfuel (Nat.not_lt_zero _)
  | succ fuel ih =>
    rw [digitLoop]
    rcases Nat.eq_zero_or_pos n with rfl | hn
    · rw [if_neg (by decide)]
      simp
    · have hdigits := Nat.digits_def' (by decide : 1 < 10) hn
      rw [hdigits, List.length_cons] at hlen hfuel
      have hchar : BitVec.ofInt 8 ((n : ℤ).tmod 10 + 48) = digitChar (n % 10) :=
        BitVec.ofInt_natCast 8 (n % 10 + 48)
      have hquot : (n : ℤ).tdiv 10 = (n / 10 : ℕ) := rfl
      have hroom : temp.length < 10 := by omega
      rw [if_pos (by omega), store, if_pos hroom, Option.bind_some, hchar, hquot,
        ih (by rw [List.length_append, List.length_singleton]; omega) (by omega), hdigits,
        List.map_cons, List.append_assoc, List.singleton_append]

theorem digitChar_ne_zero {d : ℕ} (hd : d < 10) : digitChar d ≠ 0 := by
  intro h
  have hval := digitVal_digitChar hd
  rw [h] at hval
  exact absurd hval (by rw [show digitVal 0 = 36 from rfl]; omega)

theorem printBack_eq {temp : List (BitVec 8)} (htemp : ∀ c ∈ temp, c ≠ 0) (hfuel : 1 < fuel)
    (term : Option T) {i : ℕ} (hi : i ≤ temp.length) (out : Output T) :
    con.printBack temp term fuel i out =
      some (out ++ emits (con.live term) (temp.take i).reverse) := by
  induction i generalizing out with
  | zero =>
    rw [printBack, List.take_zero, List.reverse_nil]
    cases con.live term <;> simp [emits]
  | succ i ih =>
    have hget : temp[i]? = some temp[i] := List.getElem?_eq_getElem hi
    have hne : temp[i] ≠ 0 := htemp _ (List.getElem_mem hi)
    rw [printBack, hget, Option.bind_some, printc_eq hne hfuel, Option.bind_some,
      ih (Nat.le_of_succ_le hi), List.take_add_one, hget, List.reverse_append, Option.toList_some,
      List.reverse_singleton, emits_append, List.append_assoc]

theorem negate_of_lt (hmin : -2 ^ 31 < num) (hneg : num < 0) : negate num = num.natAbs := by
  unfold negate
  rw [Int.bmod_eq_of_le (by omega) (by omega)]
  omega

/-- The buffer takes all digits, also of the number that is its own negation. -/
theorem storeDigits_eq (hmin : -2 ^ 31 ≤ num) (hmax : num < 2 ^ 31) (hne : num ≠ 0)
    (hfuel : 10 < fuel) :
    storeDigits fuel (if num < 0 then negate num else num) =
      some ((Nat.digits 10 num.natAbs).map digitChar) := by
  have hlen : (Nat.digits 10 num.natAbs).length ≤ 10 :=
    (Nat.digits_length_le_iff (by decide) _).2 (by omega)
  by_cases hlast : num = -2 ^ 31
  · -- The last digit, 8, comes first, and the loop takes the others.
    subst hlast
    have hself : negate (-2 ^ 31) = -2 ^ 31 := by decide
    have hquot : negate ((-2 ^ 31 : ℤ).tdiv 10) = (214748364 : ℕ) := by decide
    have hdigits : Nat.digits 10 (-2 ^ 31 : ℤ).natAbs = 8 :: Nat.digits 10 214748364 :=
      Nat.digits_def' (by decide) (by decide)
    rw [hdigits, List.length_cons] at hlen
    have hstore : store [] 56 = some [56] := rfl
    rw [if_pos (by decide), hself, storeDigits, if_pos (by decide), if_pos (by decide), hstore,
      Option.bind_some, hquot, digitLoop_eq (by rw [List.length_singleton]; omega) (by omega),
      hdigits]
    rfl
  · have habs : (if num < 0 then negate num else num) = num.natAbs := by
      split
      · exact negate_of_lt (by omega) (by assumption)
      · omega
    have hpos : ¬ (num.natAbs : ℤ) ≤ 0 := by omega
    rw [habs, storeDigits, if_neg hpos, if_neg hpos, Option.bind_some,
      digitLoop_eq (by rw [List.length_nil]; omega) (by omega), List.nil_append]

/-- What `printi` writes: a sign on the main terminal, the digits on the one asked for. -/
theorem printi_eq (con : Console T) (hmin : -2 ^ 31 ≤ num) (hmax : num < 2 ^ 31) (hfuel : 10 < fuel)
    (term : Option T) (out : Output T) :
    con.printi num term fuel out =
      some (out ++ ((if num < 0 then emits (con.live con.mainTerm) [45] else []) ++
        emits (con.live term) (decimal num.natAbs))) := by
  have hone : 1 < fuel := by omega
  unfold printi
  by_cases hzero : num = 0
  · rw [if_neg (not_not.2 hzero), printc_eq (by decide) hone, hzero]
    rfl
  · have hnat : num.natAbs ≠ 0 := by omega
    have hdecimal : decimal num.natAbs = ((Nat.digits 10 num.natAbs).map digitChar).reverse :=
      if_neg hnat
    have hsign : (if num < 0 then con.printc 45 con.mainTerm fuel out else some out) =
        some (out ++ if num < 0 then emits (con.live con.mainTerm) [45] else []) := by
      split
      · exact printc_eq (by decide) hone _ _
      · rw [List.append_nil]
    have hchars : ∀ c ∈ (Nat.digits 10 num.natAbs).map digitChar, c ≠ 0 := by
      intro c hc
      obtain ⟨d, hd, rfl⟩ := List.mem_map.1 hc
      exact digitChar_ne_zero (Nat.digits_lt_base (by decide) hd)
    rw [if_pos hzero, hsign, Option.bind_some, storeDigits_eq hmin hmax hzero hfuel,
      Option.bind_some, printBack_eq hchars hone term le_rfl, List.take_length, ← hdecimal,
      List.append_assoc]

theorem live_eq_some_iff {t : T} {u : Option T} :
    con.live u = some t ↔ con.response = true ∧ u = some t := by
  unfold live
  cases con.response <;> simp

variable [DecidableEq T]

/-- `printi(num, t)` returns with the shortest numeral written to `t`, behind a `-` if `num` is
negative, and nothing to another terminal. -/
def PrintsNumber (con : Console T) (num : ℤ) (t : T) (out : Output T) : Prop :=
  ∃ s out', IsShortest 10 num.natAbs s ∧
    (∃ N, ∀ fuel ≥ N, con.printi num (some t) fuel out = some out') ∧
    Writes t ((if num < 0 then [45] else []) ++ s) out out'

/-- On `u` the sign appears if `u` is the main terminal, and the digits if it is the one asked
for. -/
theorem bytesOn_printed (con : Console T) (num : ℤ) (t u : T) :
    bytesOn u ((if num < 0 then emits (con.live con.mainTerm) [45] else []) ++
        emits (con.live (some t)) (decimal num.natAbs)) =
      (if num < 0 ∧ con.live con.mainTerm = some u then [45] else []) ++
        (if con.live (some t) = some u then decimal num.natAbs else []) := by
  rw [bytesOn_append, bytesOn_emits]
  by_cases hneg : num < 0
  · simp [hneg]
  · simp [hneg, bytesOn]

/-- `printi` prints the number if and only if the terminal request is answered and a negative
number goes to the main terminal. -/
theorem printi_prints_iff (hmin : -2 ^ 31 ≤ num) (hmax : num < 2 ^ 31) (t : T) (out : Output T) :
    con.PrintsNumber num t out ↔
      con.response = true ∧ (0 ≤ num ∨ con.mainTerm = some t) := by
  have hrun (fuel : ℕ) (hfuel : fuel ≥ 11) :=
    con.printi_eq hmin hmax hfuel (some t) out
  have hdigits := decimal_isShortest num.natAbs
  constructor
  · rintro ⟨s, out', hs, hend, hw⟩
    rw [Run.result_unique hend ⟨11, hrun⟩, writes_append_iff, bytesOn_printed] at hw
    have hhere := hw.1
    have hresponse : con.response = true := by
      by_contra hno
      have hnone (u : Option T) : con.live u ≠ some t := fun h => hno (live_eq_some_iff.1 h).1
      rw [if_neg fun h => hnone _ h.2, if_neg (hnone _), List.append_nil] at hhere
      exact hs.ne_nil (List.append_eq_nil_iff.1 hhere.symm).2
    refine ⟨hresponse, ?_⟩
    by_contra hboth
    rw [not_or, not_le] at hboth
    -- The numeral itself would have to begin with the sign.
    have hmain : con.live con.mainTerm ≠ some t := fun h => hboth.2 (live_eq_some_iff.1 h).2
    rw [if_neg fun h => hmain h.2, if_pos (live_eq_some_iff.2 ⟨hresponse, rfl⟩), if_pos hboth.1,
      List.nil_append] at hhere
    have hminus := hdigits.digits 45 (by rw [hhere]; simp)
    exact absurd hminus (by decide)
  · rintro ⟨hresponse, hterm⟩
    have hlive (u : T) : con.live (some t) = some u ↔ t = u := by
      rw [live_eq_some_iff, Option.some_inj, and_iff_right hresponse]
    have hmain (u : T) : num < 0 ∧ con.live con.mainTerm = some u ↔ num < 0 ∧ t = u := by
      refine and_congr_right fun hneg => ?_
      rw [hterm.resolve_left (not_le.2 hneg), hlive]
    refine ⟨decimal num.natAbs, _, hdigits, ⟨11, hrun⟩, writes_append_iff.2 ⟨?_, fun u hu => ?_⟩⟩
    · rw [bytesOn_printed, if_pos ((hlive t).2 rfl)]
      simp only [hmain, and_true]
    · rw [bytesOn_printed, if_neg fun h => hu ((hlive u).1 h).symm,
        if_neg fun h => hu ((hmain u).1 h).2.symm, List.append_nil]

/-- Two terminals, of which the first is the main one. -/
def twoTerminals : Console Bool := ⟨true, some false, fun _ => 80, fun _ => by decide⟩

theorem printi_prints_iff_main :
    twoTerminals.PrintsNumber (-42) false [] ↔
      twoTerminals.response = true ∧ (0 ≤ -42 ∨ twoTerminals.mainTerm = some false) :=
  printi_prints_iff (by decide) (by decide) false []

/-- On the second terminal, -1 appears as 1; its sign is on the main one. -/
theorem printi_sign_elsewhere : ¬ twoTerminals.PrintsNumber (-1) true [] := by
  rintro ⟨s, out', -, hend, hw⟩
  have hout : out' = [(false, [45]), (true, [49])] := Run.result_unique hend
    ⟨11, fun fuel hfuel => twoTerminals.printi_eq (by decide) (by decide) hfuel _ _⟩
  have hmain := hw.elsewhere false (by decide)
  rw [hout] at hmain
  exact absurd hmain (by decide)

end Numeral

/-! ## The centred text -/

section Center

variable {con : Console T} {text : CArray} {s : List (BitVec 8)} {term : T} {fuel : ℕ}

/-- The bound of a padding loop, a difference of words. -/
def padding (con : Console T) (term : T) (n : ℕ) : ℕ := sub (con.columns term / 2) (n / 2)

theorem padLoop_eq (h : text.IsString 0 s) (hs : s.length < fuel) (hfuel : 1 < fuel)
    {rounds i : ℕ} (hi : i ≤ con.padding term s.length)
    (hrounds : con.padding term s.length - i < rounds) (out : Output T) :
    con.padLoop text term fuel rounds i out =
      some (con.padding term s.length, out ++ emits (con.live con.mainTerm)
        (List.replicate (con.padding term s.length - i) 32)) := by
  have hlt : con.padding term s.length < 2 ^ 64 := wrap_lt _
  have hlen := CArray.strlen_eq h hs
  rw [Nat.zero_add] at hlen
  induction rounds generalizing i out with
  | zero => exact absurd hrounds (Nat.not_lt_zero _)
  | succ rounds ih =>
    rw [padLoop, hlen, Option.bind_some]
    change (if i < con.padding term s.length then _ else _) = _
    by_cases hgo : i < con.padding term s.length
    · have hnext : wrap (i + 1) = i + 1 := wrap_of_lt (by omega)
      have hcount : con.padding term s.length - i = con.padding term s.length - (i + 1) + 1 := by
        omega
      have hspaces : List.replicate (con.padding term s.length - i) (32 : BitVec 8) =
          [32] ++ List.replicate (con.padding term s.length - (i + 1)) 32 := by
        rw [hcount]
        rfl
      rw [if_pos hgo, printc_eq (by decide) hfuel, Option.bind_some, hnext,
        ih (by omega) (by omega), hspaces, emits_append, List.append_assoc]
    · obtain rfl : i = con.padding term s.length := by omega
      rw [if_neg hgo, Nat.sub_self, List.replicate_zero]
      cases con.live con.mainTerm <;> simp [emits]

/-- What `center` writes: everything on the main terminal. -/
theorem center_eq (con : Console T) (h : text.IsString 0 s) (term : T) (hs : s.length < fuel)
    (hfuel : 1 < fuel) (hrounds : con.padding term s.length < fuel) (out : Output T) :
    let pad := emits (con.live con.mainTerm) (List.replicate (con.padding term s.length) 32)
    con.center text term fuel out =
      some (con.padding term s.length, con.padding term s.length,
        out ++ (pad ++ ((con.live con.mainTerm).elim [] fun t => [(t, s)]) ++ pad)) := by
  intro pad
  have hpad (out : Output T) : con.padLoop text term fuel fuel 0 out =
      some (con.padding term s.length, out ++ pad) :=
    padLoop_eq h hs hfuel (Nat.zero_le _) hrounds out
  rw [center, hpad, Option.bind_some]
  dsimp only
  rw [print_eq h hs, Option.bind_some, hpad]
  simp only [Option.map_some, List.append_assoc]

variable [DecidableEq T]

/-- `center(text, t)` returns with the padded text written to `t`, nothing to another terminal, and
no loop has run more than `columns / 2` times. -/
def Centers (con : Console T) (text : CArray) (s : List (BitVec 8)) (t : T) (out : Output T) :
    Prop :=
  let pad := List.replicate (con.columns t / 2 - s.length / 2) 32
  ∃ i j out', (∃ N, ∀ fuel ≥ N, con.center text t fuel out = some (i, j, out')) ∧
    i ≤ con.columns t / 2 ∧ j ≤ con.columns t / 2 ∧ Writes t (pad ++ s ++ pad) out out'

theorem bytesOn_centered (con : Console T) (s : List (BitVec 8)) (b : ℕ) (u : T) :
    bytesOn u (emits (con.live con.mainTerm) (List.replicate b 32) ++
        ((con.live con.mainTerm).elim [] fun t => [(t, s)]) ++
        emits (con.live con.mainTerm) (List.replicate b 32)) =
      if con.live con.mainTerm = some u then
        List.replicate b 32 ++ s ++ List.replicate b 32 else [] := by
  rw [bytesOn_append, bytesOn_append, bytesOn_emits, bytesOn_elim]
  split <;> rfl

/-- `center` always returns; it keeps its bound, and writes what it is for, if and only if the text
is no wider than the terminal, and that is the main one of an answered request or has nothing to
show. -/
theorem center_centers_iff (h : text.IsString 0 s) (hs : s.length < 2 ^ 64) (t : T)
    (out : Output T) :
    con.Centers text s t out ↔
      s.length / 2 ≤ con.columns t / 2 ∧
        (con.response = true ∧ con.mainTerm = some t ∨ s = [] ∧ con.columns t ≤ 1) := by
  have hcols := con.columns_lt t
  have hlt : con.padding t s.length < 2 ^ 64 := wrap_lt _
  have hrun (fuel : ℕ) (hfuel : fuel ≥ 2 ^ 64 + 1) :=
    con.center_eq h t (by omega) (by omega) (by omega : _ < fuel) out
  constructor
  · rintro ⟨i, j, out', hend, hi, -, hw⟩
    have hout := Run.result_unique hend ⟨_, hrun⟩
    rw [Prod.mk.injEq, Prod.mk.injEq] at hout
    obtain ⟨rfl, -, rfl⟩ := hout
    -- A bound that wraps is larger than any number of columns.
    have hle : s.length / 2 ≤ con.columns t / 2 := by
      unfold padding sub wrap at hi
      omega
    refine ⟨hle, ?_⟩
    by_cases hmain : con.live con.mainTerm = some t
    · exact .inl (live_eq_some_iff.1 hmain)
    · rw [writes_append_iff, bytesOn_centered, if_neg hmain, eq_comm, List.append_eq_nil_iff,
        List.append_eq_nil_iff, List.replicate_eq_nil_iff] at hw
      obtain ⟨⟨⟨hpad, hs⟩, -⟩, -⟩ := hw
      rw [hs, List.length_nil] at hpad
      exact .inr ⟨hs, by omega⟩
  · rintro ⟨hle, hcase⟩
    have hpad : con.padding t s.length = con.columns t / 2 - s.length / 2 :=
      sub_of_le hle (by omega)
    rw [hpad] at hrun
    refine ⟨_, _, _, ⟨2 ^ 64 + 1, hrun⟩, Nat.sub_le _ _, Nat.sub_le _ _, writes_append_iff.2 ?_⟩
    simp only [bytesOn_centered]
    rcases hcase with hmain | ⟨hnil, hcol⟩
    · rw [live_eq_some_iff.2 hmain]
      exact ⟨if_pos rfl, fun u hu => if_neg fun h => hu (Option.some.inj h).symm⟩
    · have hnone : con.columns t / 2 - s.length / 2 = 0 := by omega
      rw [hnone, hnil]
      exact ⟨ite_self _, fun u _ => ite_self _⟩

theorem center_centers_iff_main :
    twoTerminals.Centers (CArray.ofBytes [104, 105, 0]) [104, 105] false [] ↔
      2 / 2 ≤ 80 / 2 ∧ (twoTerminals.response = true ∧ twoTerminals.mainTerm = some false ∨
        [(104 : BitVec 8), 105] = [] ∧ 80 ≤ 1) :=
  have hstring : (CArray.ofBytes [104, 105, 0]).IsString 0 [104, 105] :=
    ⟨rfl, by decide, rfl, by decide, rfl⟩
  center_centers_iff hstring (by decide) false []

/-- A text for the second terminal appears on the main one. -/
theorem center_elsewhere :
    ¬ twoTerminals.Centers (CArray.ofBytes [104, 105, 0]) [104, 105] true [] := by
  rintro ⟨i, j, out', hend, -, -, hw⟩
  have hstring : (CArray.ofBytes [104, 105, 0]).IsString 0 [104, 105] :=
    ⟨rfl, by decide, rfl, by decide, rfl⟩
  have hpad : twoTerminals.padding true 2 = 39 := by decide
  have hrun (fuel : ℕ) (hfuel : fuel ≥ 40) := twoTerminals.center_eq hstring true
    (Nat.lt_of_lt_of_le (by decide) hfuel) (Nat.lt_of_lt_of_le (by decide) hfuel)
    (Nat.lt_of_lt_of_le (by decide) hfuel) []
  have hout := Run.result_unique hend ⟨40, hrun⟩
  rw [Prod.mk.injEq, Prod.mk.injEq] at hout
  have hmain := hw.elsewhere false (by decide)
  rw [hout.2.2] at hmain
  exact absurd hmain (by decide)

end Center

end Console

end IceKernel
