import IceKernel.Libc.StdioFormat

/-!
# The grammar of a format string

A format is read into characters and directives, and what is left of a directive
behind the last of them. Reading loses nothing: the pieces spell the string.
-/

namespace IceKernel.Stdio
open Digits

/-- A width or a precision, as it is written. -/
inductive Amount where
  | digits (ds : List (BitVec 8))
  | star
deriving DecidableEq, Repr

/-- A length, as it is written. -/
inductive Length where
  | none | l | ll | h | hh | t | j | z
deriving DecidableEq, Repr

/-- A directive without its specifier. The precision is left out, or has an amount behind its
point or nothing. -/
structure Spec where
  flags : List (BitVec 8)
  width : Option Amount
  precision : Option (Option Amount)
  length : Length
deriving DecidableEq, Repr

inductive Item where
  | char (c : BitVec 8)
  | directive (spec : Spec) (c : BitVec 8)
deriving DecidableEq, Repr

/-- A format: its items, and the directive that the string ends in. -/
structure Format where
  items : List Item
  ending : Option Spec
deriving DecidableEq, Repr

/-! ## The characters of a format -/

def Amount.bytes : Amount → List (BitVec 8)
  | .digits ds => ds
  | .star => [42]

def Length.bytes : Length → List (BitVec 8)
  | .none => []
  | .l => [108]
  | .ll => [108, 108]
  | .h => [104]
  | .hh => [104, 104]
  | .t => [116]
  | .j => [106]
  | .z => [122]

def amountBytes (a : Option Amount) : List (BitVec 8) := a.elim [] Amount.bytes

def precisionBytes (p : Option (Option Amount)) : List (BitVec 8) :=
  p.elim [] fun a => 46 :: amountBytes a

def Spec.bytes (spec : Spec) : List (BitVec 8) :=
  spec.flags ++ (amountBytes spec.width ++ (precisionBytes spec.precision ++ spec.length.bytes))

def Item.bytes : Item → List (BitVec 8)
  | .char c => [c]
  | .directive spec c => 37 :: (spec.bytes ++ [c])

def Format.bytes (f : Format) : List (BitVec 8) :=
  f.items.flatMap Item.bytes ++ f.ending.elim [] fun spec => 37 :: spec.bytes

/-! ## Reading -/

def isFlag (c : BitVec 8) : Bool := c = 48 || c = 45 || c = 43 || c = 32 || c = 35

def readAmount : List (BitVec 8) → Option Amount × List (BitVec 8)
  | [] => (none, [])
  | c :: s =>
    if isDigit c then
      (some (.digits ((c :: s).takeWhile isDigit)), (c :: s).dropWhile isDigit)
    else if c = 42 then (some .star, s)
    else (none, c :: s)

def readPrecision : List (BitVec 8) → Option (Option Amount) × List (BitVec 8)
  | [] => (none, [])
  | c :: s => if c = 46 then ((readAmount s).map some id) else (none, c :: s)

/-- The character of a length, doubled or not. -/
def readDouble (c : BitVec 8) (one two : Length) : List (BitVec 8) → Length × List (BitVec 8)
  | [] => (one, [])
  | d :: s => if d = c then (two, s) else (one, d :: s)

def readLength : List (BitVec 8) → Length × List (BitVec 8)
  | [] => (.none, [])
  | c :: s =>
    if c = 108 then readDouble 108 .l .ll s
    else if c = 104 then readDouble 104 .h .hh s
    else if c = 116 then (.t, s)
    else if c = 106 then (.j, s)
    else if c = 122 then (.z, s)
    else (.none, c :: s)

def readSpec (s : List (BitVec 8)) : Spec × List (BitVec 8) :=
  let (width, s') := readAmount (s.dropWhile isFlag)
  let (precision, s') := readPrecision s'
  let (length, s') := readLength s'
  (⟨s.takeWhile isFlag, width, precision, length⟩, s')

/-- Reads a string that is at most so long. -/
def readItems : ℕ → List (BitVec 8) → Format
  | 0, _ => ⟨[], none⟩
  | _ + 1, [] => ⟨[], none⟩
  | n + 1, c :: s =>
    if c = 37 then
      match readSpec s with
      | (spec, []) => ⟨[], some spec⟩
      | (spec, d :: rest) =>
        let f := readItems n rest
        ⟨.directive spec d :: f.items, f.ending⟩
    else
      let f := readItems n s
      ⟨.char c :: f.items, f.ending⟩

def parse (s : List (BitVec 8)) : Format := readItems s.length s

/-! ## Reading loses nothing -/

section Reading

variable {s t : List (BitVec 8)}

theorem readAmount_bytes (s : List (BitVec 8)) :
    amountBytes (readAmount s).1 ++ (readAmount s).2 = s := by
  cases s with
  | nil => rfl
  | cons c s =>
    rw [readAmount]
    split
    · exact List.takeWhile_append_dropWhile
    · split
      next h => rw [h]; rfl
      next => rfl

theorem readPrecision_bytes (s : List (BitVec 8)) :
    precisionBytes (readPrecision s).1 ++ (readPrecision s).2 = s := by
  cases s with
  | nil => rfl
  | cons c s =>
    rw [readPrecision]
    split
    next h =>
      rw [h]
      exact congrArg (List.cons 46) (readAmount_bytes s)
    next => rfl

theorem readDouble_bytes {c : BitVec 8} {one two : Length} (hone : one.bytes = [c])
    (htwo : two.bytes = [c, c]) (s : List (BitVec 8)) :
    (readDouble c one two s).1.bytes ++ (readDouble c one two s).2 = c :: s := by
  cases s with
  | nil => exact congrArg (· ++ []) hone
  | cons d s =>
    rw [readDouble]
    split
    next h => rw [htwo, h]; rfl
    next => rw [hone]; rfl

theorem readLength_bytes (s : List (BitVec 8)) :
    (readLength s).1.bytes ++ (readLength s).2 = s := by
  cases s with
  | nil => rfl
  | cons c s =>
    rw [readLength]
    split
    next h => rw [h]; exact readDouble_bytes rfl rfl s
    split
    next h => rw [h]; exact readDouble_bytes rfl rfl s
    split
    next h => rw [h]; rfl
    split
    next h => rw [h]; rfl
    split
    next h => rw [h]; rfl
    next => rfl

theorem readSpec_bytes (s : List (BitVec 8)) :
    (readSpec s).1.bytes ++ (readSpec s).2 = s := by
  have hflags : s.takeWhile isFlag ++ s.dropWhile isFlag = s := List.takeWhile_append_dropWhile
  have hwidth := readAmount_bytes (s.dropWhile isFlag)
  have hprecision := readPrecision_bytes (readAmount (s.dropWhile isFlag)).2
  have hlength := readLength_bytes (readPrecision (readAmount (s.dropWhile isFlag)).2).2
  calc (readSpec s).1.bytes ++ (readSpec s).2
    _ = s.takeWhile isFlag ++ (amountBytes (readAmount (s.dropWhile isFlag)).1 ++
          (precisionBytes (readPrecision (readAmount (s.dropWhile isFlag)).2).1 ++
            ((readLength (readPrecision (readAmount (s.dropWhile isFlag)).2).2).1.bytes ++
              (readLength (readPrecision (readAmount (s.dropWhile isFlag)).2).2).2))) := by
      simp [readSpec, Spec.bytes]
    _ = s := by rw [hlength, hprecision, hwidth, hflags]

theorem readSpec_length (s : List (BitVec 8)) : (readSpec s).2.length ≤ s.length := by
  have h := congrArg List.length (readSpec_bytes s)
  rw [List.length_append] at h
  omega

theorem readItems_bytes {n : ℕ} (h : s.length ≤ n) : (readItems n s).bytes = s := by
  induction n generalizing s with
  | zero =>
    obtain rfl := List.eq_nil_of_length_eq_zero (Nat.le_zero.1 h)
    rfl
  | succ n ih =>
    cases s with
    | nil => rfl
    | cons c s =>
      rw [List.length_cons] at h
      rw [readItems]
      split
      next hc =>
        subst hc
        have hspec := readSpec_bytes s
        have hlen := readSpec_length s
        rcases hread : readSpec s with ⟨spec, _ | ⟨d, rest⟩⟩
        · rw [hread, List.append_nil] at hspec
          rw [← hspec]
          rfl
        · rw [hread] at hspec hlen
          rw [List.length_cons] at hlen
          have hrest := ih (s := rest) (by omega)
          simp only [Format.bytes, List.flatMap_cons, Item.bytes, List.cons_append,
            List.append_assoc, List.nil_append] at hrest ⊢
          rw [hrest, hspec]
      next =>
        have hrest := ih (s := s) (by omega)
        simp only [Format.bytes, List.flatMap_cons, Item.bytes, List.cons_append,
          List.nil_append] at hrest ⊢
        rw [hrest]

/-- The pieces spell the string. -/
theorem bytes_parse (s : List (BitVec 8)) : (parse s).bytes = s := readItems_bytes le_rfl

/-! ## Reading one format after the other -/

/-- A span that ends inside a list ends there as well if the list goes on. -/
theorem span_append {p : BitVec 8 → Bool} (t : List (BitVec 8)) (h : s.dropWhile p ≠ []) :
    (s ++ t).takeWhile p = s.takeWhile p ∧ (s ++ t).dropWhile p = s.dropWhile p ++ t := by
  have hempty : (s.dropWhile p).isEmpty = false := by simpa using h
  have hshort : (s.takeWhile p).length ≠ s.length := by
    intro hlen
    have hsplit := congrArg List.length (List.takeWhile_append_dropWhile (p := p) (l := s))
    rw [List.length_append, hlen] at hsplit
    exact h (List.eq_nil_of_length_eq_zero (by omega))
  rw [List.takeWhile_append, List.dropWhile_append, if_neg hshort, hempty]
  exact ⟨rfl, rfl⟩

theorem readAmount_append (t : List (BitVec 8)) (h : (readAmount s).2 ≠ []) :
    readAmount (s ++ t) = ((readAmount s).1, (readAmount s).2 ++ t) := by
  cases s with
  | nil => exact absurd rfl h
  | cons c s =>
    rw [readAmount] at h
    rw [List.cons_append, readAmount, readAmount]
    split
    next hc =>
      rw [if_pos hc] at h
      obtain ⟨htake, hdrop⟩ := span_append t h
      rw [← List.cons_append, htake, hdrop]
    next =>
      split <;> rfl

theorem readPrecision_append (t : List (BitVec 8)) (h : (readPrecision s).2 ≠ []) :
    readPrecision (s ++ t) = ((readPrecision s).1, (readPrecision s).2 ++ t) := by
  cases s with
  | nil => exact absurd rfl h
  | cons c s =>
    rw [readPrecision] at h
    rw [List.cons_append, readPrecision, readPrecision]
    split
    next hc =>
      rw [if_pos hc] at h
      rw [readAmount_append t h]
      rfl
    next => rfl

theorem readDouble_append {c : BitVec 8} {one two : Length} (t : List (BitVec 8))
    (h : (readDouble c one two s).2 ≠ []) :
    readDouble c one two (s ++ t) = ((readDouble c one two s).1, (readDouble c one two s).2 ++ t) := by
  cases s with
  | nil => exact absurd rfl h
  | cons d s =>
    rw [List.cons_append, readDouble, readDouble]
    split <;> rfl

theorem readLength_append (t : List (BitVec 8)) (h : (readLength s).2 ≠ []) :
    readLength (s ++ t) = ((readLength s).1, (readLength s).2 ++ t) := by
  cases s with
  | nil => exact absurd rfl h
  | cons c s =>
    rw [readLength] at h
    rw [List.cons_append, readLength, readLength]
    split
    next hc =>
      rw [if_pos hc] at h
      exact readDouble_append t h
    next hc =>
      rw [if_neg hc] at h
      split
      next hd =>
        rw [if_pos hd] at h
        exact readDouble_append t h
      next =>
        split_ifs <;> rfl

theorem readSpec_append {spec : Spec} {d : BitVec 8} {rest : List (BitVec 8)}
    (h : readSpec s = (spec, d :: rest)) (t : List (BitVec 8)) :
    readSpec (s ++ t) = (spec, d :: (rest ++ t)) := by
  obtain ⟨rfl, hrest⟩ := Prod.mk.inj h
  have hlength : (readLength (readPrecision (readAmount (s.dropWhile isFlag)).2).2).2 ≠ [] := by
    intro hnil
    exact List.cons_ne_nil d rest (hrest.symm.trans hnil)
  have hprecision : (readPrecision (readAmount (s.dropWhile isFlag)).2).2 ≠ [] := by
    intro hnil
    rw [hnil] at hlength
    exact hlength rfl
  have hwidth : (readAmount (s.dropWhile isFlag)).2 ≠ [] := by
    intro hnil
    rw [hnil] at hprecision
    exact hprecision rfl
  have hflags : s.dropWhile isFlag ≠ [] := by
    intro hnil
    rw [hnil] at hwidth
    exact hwidth rfl
  obtain ⟨htake, hdrop⟩ := span_append t hflags
  rw [readSpec, htake, hdrop, readAmount_append t hwidth]
  dsimp only
  rw [readPrecision_append t hprecision]
  dsimp only
  rw [readLength_append t hlength]
  exact congrArg (Prod.mk _) (congrArg (· ++ t) hrest)

theorem readItems_eq {n k : ℕ} (hn : s.length ≤ n) (hk : s.length ≤ k) :
    readItems n s = readItems k s := by
  induction n generalizing s k with
  | zero =>
    obtain rfl := List.eq_nil_of_length_eq_zero (Nat.le_zero.1 hn)
    cases k <;> rfl
  | succ n ih =>
    cases s with
    | nil => cases k <;> rfl
    | cons c s =>
      rw [List.length_cons] at hn hk
      obtain ⟨k, rfl⟩ : ∃ j, k = j + 1 := ⟨k - 1, by omega⟩
      rw [readItems, readItems]
      have hlen := readSpec_length s
      split
      · rcases hread : readSpec s with ⟨spec, _ | ⟨d, rest⟩⟩
        · rfl
        · rw [hread, List.length_cons] at hlen
          dsimp only
          rw [ih (s := rest) (k := k) (by omega) (by omega)]
      · rw [ih (s := s) (k := k) (by omega) (by omega)]

theorem parse_char {c : BitVec 8} (hc : c ≠ 37) (s : List (BitVec 8)) :
    parse (c :: s) = ⟨.char c :: (parse s).items, (parse s).ending⟩ := by
  rw [parse, List.length_cons, readItems, if_neg hc]
  rfl

theorem parse_directive {spec : Spec} {d : BitVec 8} {rest : List (BitVec 8)}
    (h : readSpec s = (spec, d :: rest)) :
    parse (37 :: s) = ⟨.directive spec d :: (parse rest).items, (parse rest).ending⟩ := by
  have hlen := readSpec_length s
  rw [h, List.length_cons] at hlen
  rw [parse, List.length_cons, readItems, if_pos rfl, h]
  dsimp only
  rw [readItems_eq (s := rest) (k := rest.length) (by omega) le_rfl, parse]

theorem parse_ending {spec : Spec} (h : readSpec s = (spec, [])) :
    parse (37 :: s) = ⟨[], some spec⟩ := by
  rw [parse, List.length_cons, readItems, if_pos rfl, h]

/-- The cases of a format string: a character, a directive or the end of one. -/
theorem parse_induction {P : List (BitVec 8) → Prop} (nil : P [])
    (char : ∀ c s, c ≠ 37 → P s → P (c :: s))
    (directive : ∀ s spec d rest, readSpec s = (spec, d :: rest) → P rest → P (37 :: s))
    (ending : ∀ s spec, readSpec s = (spec, []) → P (37 :: s)) (s : List (BitVec 8)) : P s := by
  induction hn : s.length using Nat.strong_induction_on generalizing s with
  | _ n ih =>
    cases s with
    | nil => exact nil
    | cons c s =>
      rw [List.length_cons] at hn
      by_cases hc : c = 37
      · subst hc
        have hlen := readSpec_length s
        rcases hread : readSpec s with ⟨spec, _ | ⟨d, rest⟩⟩
        · exact ending s spec hread
        · rw [hread, List.length_cons] at hlen
          exact directive s spec d rest hread (ih rest.length (by omega) rest rfl)
      · exact char c s hc (ih s.length (by omega) s rfl)

/-- The directive that a string ends in is read to the end. -/
theorem readSpec_ending {spec : Spec} (h : (parse s).ending = some spec) :
    readSpec spec.bytes = (spec, []) := by
  induction s using parse_induction with
  | nil => exact absurd h.symm (Option.some_ne_none spec)
  | char c s hc ih =>
    rw [parse_char hc] at h
    exact ih h
  | directive s spec' d rest hread ih =>
    rw [parse_directive hread] at h
    exact ih h
  | ending s spec' hread =>
    rw [parse_ending hread] at h
    obtain rfl := Option.some.inj h
    have hbytes := readSpec_bytes s
    rw [hread, List.append_nil] at hbytes
    rw [hbytes, hread]

/-- Of two strings in a row the first is read as if alone, unless it ends inside a directive. -/
theorem parse_append (h : (parse s).ending = none) (t : List (BitVec 8)) :
    parse (s ++ t) = ⟨(parse s).items ++ (parse t).items, (parse t).ending⟩ := by
  induction s using parse_induction with
  | nil => rfl
  | char c s hc ih =>
    rw [parse_char hc] at h
    rw [List.cons_append, parse_char hc, parse_char hc, ih h]
    rfl
  | directive s spec d rest hread ih =>
    rw [parse_directive hread] at h
    rw [List.cons_append, parse_directive (readSpec_append hread t), parse_directive hread, ih h]
    rfl
  | ending s spec hread =>
    rw [parse_ending hread] at h
    exact absurd h (Option.some_ne_none spec)

end Reading

end IceKernel.Stdio
