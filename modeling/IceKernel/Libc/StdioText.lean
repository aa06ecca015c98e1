import IceKernel.Libc.StdioDirective

/-!
# What a format prints

The pieces of a format with the arguments of the call make a list of events. What an
event prints depends on nothing but the strings that the arguments point to.
-/

namespace IceKernel.Stdio
open ByteMemory Digits

variable {S F : Type}

/-! ## Arguments of a directive -/

def addFlag (flags : Flags) (c : BitVec 8) : Flags :=
  if c = 48 then { flags with zeropad := true }
  else if c = 45 then { flags with left := true }
  else if c = 43 then { flags with plus := true }
  else if c = 32 then { flags with space := true }
  else if c = 35 then { flags with hash := true }
  else flags

def Length.set : Length → Flags → Flags
  | .none, flags => flags
  | .l, flags => { flags with long := true }
  | .ll, flags => { flags with long := true, longLong := true }
  | .h, flags => { flags with short := true }
  | .hh, flags => { flags with short := true, char := true }
  | .t, flags => { flags with long := true }
  | .j, flags => { flags with long := true }
  | .z, flags => { flags with long := true }

/-- The width, or the argument in its place. A negative one stands for the flag `-`. -/
def widthOf (width : Option Amount) (flags : Flags) (args : List (Arg F)) :
    Option (Flags × ℕ × List (Arg F)) :=
  match width with
  | none => some (flags, 0, args)
  | some (.digits ds) => some (flags, wrap32 (numeralValue 10 ds), args)
  | some .star => (vaWord args).map fun (w, args) =>
      (if toInt32 w < 0 then { flags with left := true } else flags, (toInt32 w).natAbs, args)

/-- The precision, or the argument in its place. A negative one stands for 0. -/
def precisionOf (precision : Option (Option Amount)) (flags : Flags) (args : List (Arg F)) :
    Option (Flags × ℕ × List (Arg F)) :=
  match precision with
  | none => some (flags, 0, args)
  | some none => some ({ flags with precision := true }, 0, args)
  | some (some (.digits ds)) =>
    some ({ flags with precision := true }, wrap32 (numeralValue 10 ds), args)
  | some (some .star) => (vaWord args).map fun (w, args) =>
      ({ flags with precision := true }, (toInt32 w).toNat, args)

/-- A directive with its arguments in place. -/
structure Resolved (F : Type) where
  flags : Flags
  width : ℕ
  precision : ℕ
  args : List (Arg F)

def Spec.resolve (spec : Spec) (args : List (Arg F)) : Option (Resolved F) :=
  (widthOf spec.width (spec.flags.foldl addFlag {}) args).bind fun (flags, width, args) =>
    (precisionOf spec.precision flags args).map fun (flags, precision, args) =>
      ⟨spec.length.set flags, width, precision, args⟩

/-- The string ends where nothing looks for its end: behind a flag or a digit. -/
def Spec.overruns (spec : Spec) : Bool :=
  spec.bytes ≠ [] && spec.length = .none &&
    match spec.precision with
    | none => spec.width ≠ some .star
    | some (some (.digits _)) => true
    | _ => false

/-! ## Events -/

inductive Event where
  | text (l : List (BitVec 8))
  /-- The string at `p`, in its field. -/
  | string (p : ℕ) (flags : Flags) (width precision : ℕ)
  /-- The count of characters so far is stored in `size` bytes at `p`. -/
  | count (p size : ℕ)
deriving DecidableEq, Repr

def spaced (flags : Flags) (width : ℕ) (body : List (BitVec 8)) : List (BitVec 8) :=
  if flags.left then body ++ List.replicate (width - body.length) 32
  else List.replicate (width - body.length) 32 ++ body

/-- What of a string is printed. -/
def stringBody (flags : Flags) (precision : ℕ) (s : List (BitVec 8)) : List (BitVec 8) :=
  if flags.precision then s.take precision else s

/-- What an event prints, where `str p` is the string at `p`. -/
def Event.shown (str : ℕ → List (BitVec 8)) : Event → List (BitVec 8)
  | .text l => l
  | .string p flags width precision => spaced flags width (stringBody flags precision (str p))
  | .count _ _ => []

def integerSpecifierText (c : BitVec 8) (flags : Flags) (width precision : ℕ)
    (arg : BitVec 64) : List (BitVec 8) :=
  let base := integerBase c
  let flags := integerFlags c flags
  if flags.signed then
    let value := signedValue flags arg
    integerText value.natAbs (value < 0) base precision width flags
  else integerText (unsignedValue flags arg) false base precision width flags

def pointerText (flags : Flags) (precision : ℕ) (arg : BitVec 64) : List (BitVec 8) :=
  let flags := { flags with zeropad := true, pointer := true }
  if arg = 0 then field 18 flags [40, 110, 105, 108, 41]
  else integerText arg.toNat false 16 precision 18 flags

/-- The event of the specifier `c`, with the arguments behind it. -/
def specifierEvent (fp : FloatText F) (c : BitVec 8) (r : Resolved F) :
    Option (Event × List (Arg F)) :=
  if c = 100 ∨ c = 105 ∨ c = 117 ∨ c = 120 ∨ c = 88 ∨ c = 111 ∨ c = 98 then
    (vaWord r.args).map fun (arg, args) =>
      (.text (integerSpecifierText c r.flags r.width r.precision arg), args)
  else if c = 102 ∨ c = 70 then
    (vaDouble r.args).map fun (x, args) =>
      (.text (fp x r.precision r.width (floatFlags c r.flags) false), args)
  else if c = 101 ∨ c = 69 ∨ c = 103 ∨ c = 71 then
    (vaDouble r.args).map fun (x, args) =>
      (.text (fp x r.precision r.width (floatFlags c r.flags) true), args)
  else if c = 99 then
    (vaWord r.args).map fun (arg, args) => (.text (spaced r.flags r.width [arg.setWidth 8]), args)
  else if c = 115 then
    (vaWord r.args).map fun (arg, args) =>
      (if arg = 0 then .text (field r.width r.flags [40, 110, 117, 108, 108, 41])
        else .string arg.toNat r.flags r.width r.precision, args)
  else if c = 112 then
    (vaWord r.args).map fun (arg, args) => (.text (pointerText r.flags r.precision arg), args)
  else if c = 37 then some (.text [37], r.args)
  else if c = 110 then
    (vaWord r.args).map fun (arg, args) => (.count arg.toNat (countSize r.flags), args)
  else some (.text [c], r.args)

def Item.event (fp : FloatText F) (args : List (Arg F)) :
    Item → Option (Event × List (Arg F))
  | .char c => some (.text [c], args)
  | .directive spec c => (spec.resolve args).bind (specifierEvent fp c)

/-- The events of the items in a row, with the arguments behind them. -/
def events (fp : FloatText F) : List Item → List (Arg F) → Option (List Event × List (Arg F))
  | [], args => some ([], args)
  | item :: items, args =>
    (item.event fp args).bind fun (e, args) =>
      (events fp items args).map fun (es, args) => (e :: es, args)

/-- The text that events print. -/
def shownBy (str : ℕ → List (BitVec 8)) (es : List Event) : List (BitVec 8) :=
  es.flatMap (Event.shown str)

theorem shownBy_append (str : ℕ → List (BitVec 8)) (es es' : List Event) :
    shownBy str (es ++ es') = shownBy str es ++ shownBy str es' := List.flatMap_append

theorem events_append {fp : FloatText F} {items items' : List Item} {es es' : List Event}
    {args args' args'' : List (Arg F)} (h : events fp items args = some (es, args'))
    (h' : events fp items' args' = some (es', args'')) :
    events fp (items ++ items') args = some (es ++ es', args'') := by
  induction items generalizing args es with
  | nil =>
    obtain ⟨rfl, rfl⟩ := Prod.mk.inj (Option.some.inj h)
    exact h'
  | cons item items ih =>
    rw [events, Option.bind_eq_some_iff] at h
    obtain ⟨⟨e, args₁⟩, hitem, h⟩ := h
    obtain ⟨⟨es₁, args₂⟩, hitems, h⟩ := Option.map_eq_some_iff.1 h
    obtain ⟨rfl, rfl⟩ := Prod.mk.inj h
    rw [List.cons_append, events, hitem, Option.bind_some]
    dsimp only
    rw [ih hitems]
    rfl

end IceKernel.Stdio
