import IceKernel.Libc.StdioLoop
import IceKernel.Libc.StringWriters

/-!
# The calls of `libs/libc/stdio.cpp`

What `vsnprintf` leaves in its buffer and what `vfctprintf` gives to its function is
one text, that of the format with the arguments.
-/

namespace IceKernel.Stdio
open ByteMemory Digits Function

variable {S F : Type}

/-- The bytes that an event stores to. -/
def Event.Touches (e : Event) (x : ℕ) : Prop :=
  match e with
  | .count p size => p ≤ x ∧ x < p + size
  | _ => False

/-! ## Gadgets -/

section Performed

theorem Event.Safe.not_touches {m : Mem} {R : Set ℕ} {str : ℕ → List (BitVec 8)} {e : Event}
    (h : e.Safe m R str) {x : ℕ} (hx : x ∈ R) : ¬ e.Touches x := by
  intro htouch
  cases e with
  | text l => exact htouch
  | string p flags width precision => exact htouch
  | count p size =>
    obtain ⟨i, rfl⟩ := Nat.exists_eq_add_of_le htouch.1
    have hi : i < size := by
      have hlt := htouch.2
      omega
    exact h i hi hx

variable {g : Gadget S} {str : ℕ → List (BitVec 8)} {e : Event} {es : List Event}

theorem perform_fixed (str : ℕ → List (BitVec 8)) (e : Event) (g : Gadget S) :
    (e.perform str g).function = g.function ∧ (e.perform str g).buffer = g.buffer ∧
      (e.perform str g).maxChars = g.maxChars := by
  cases e with
  | text l => exact emit_fixed l g
  | string p flags width precision => exact emit_fixed _ g
  | count p size => exact ⟨rfl, rfl, rfl⟩

theorem perform_pos (hpos : g.pos < 2 ^ 32) :
    (e.perform str g).pos = wrap32 (g.pos + (e.shown str).length) := by
  cases e with
  | text l => exact emit_pos hpos
  | string p flags width precision => exact emit_pos hpos
  | count p size => exact (Nat.mod_eq_of_lt hpos).symm

theorem performAll_fixed (str : ℕ → List (BitVec 8)) (es : List Event) (g : Gadget S) :
    (performAll str es g).function = g.function ∧ (performAll str es g).buffer = g.buffer ∧
      (performAll str es g).maxChars = g.maxChars := by
  induction es generalizing g with
  | nil => exact ⟨rfl, rfl, rfl⟩
  | cons e es ih =>
    obtain ⟨hf, hb, hm⟩ := perform_fixed str e g
    obtain ⟨hf', hb', hm'⟩ := ih (e.perform str g)
    exact ⟨hf'.trans hf, hb'.trans hb, hm'.trans hm⟩

theorem performAll_pos (hfit : g.pos + (shownBy str es).length < 2 ^ 32) :
    (performAll str es g).pos = g.pos + (shownBy str es).length := by
  induction es generalizing g with
  | nil => rfl
  | cons e es ih =>
    have hshown : (shownBy str (e :: es)).length =
        (e.shown str).length + (shownBy str es).length := by
      rw [shownBy, List.flatMap_cons, List.length_append, shownBy]
    have hpos : (e.perform str g).pos = g.pos + (e.shown str).length := by
      rw [perform_pos (by omega)]
      exact Nat.mod_eq_of_lt (by omega)
    have hrest := ih (g := e.perform str g) (by omega)
    rw [hpos] at hrest
    rw [hshown, ← Nat.add_assoc]
    exact hrest

/-- A function is called for each character of the text up to the limit. -/
theorem performAll_function {f : BitVec 8 → S → S} (hf : g.function = some f)
    (hfit : g.pos + (shownBy str es).length < 2 ^ 32) :
    (performAll str es g).env =
      ((shownBy str es).take (g.maxChars - g.pos)).foldl (fun e c => f c e) g.env := by
  induction es generalizing g with
  | nil => rw [shownBy, List.flatMap_nil, List.take_nil]; rfl
  | cons e es ih =>
    have hshown : shownBy str (e :: es) = e.shown str ++ shownBy str es := List.flatMap_cons
    have hlen := congrArg List.length hshown
    rw [List.length_append] at hlen
    obtain ⟨hfun, -, hmax⟩ := perform_fixed str e g
    have hpos : (e.perform str g).pos = g.pos + (e.shown str).length := by
      rw [perform_pos (by omega)]
      exact Nat.mod_eq_of_lt (by omega)
    have henv : (e.perform str g).env =
        ((e.shown str).take (g.maxChars - g.pos)).foldl (fun e c => f c e) g.env := by
      cases e with
      | text l => exact (emit_function hf (by omega)).1
      | string p flags width precision => exact (emit_function hf (by omega)).1
      | count p size => simp [Event.perform, Event.shown]
    have hrest := ih (hfun.trans hf) (by omega)
    rw [hmax, hpos, henv] at hrest
    rw [hshown, List.take_append, List.foldl_append, Nat.sub_sub]
    exact hrest

/-- Bytes that nothing is counted into are as if the text had been put in one go. -/
theorem performAll_mem {x : ℕ} (hes : ∀ e ∈ es, ¬ e.Touches x) (g : Gadget S) :
    (performAll str es g).mem x = (emit (shownBy str es) g).mem x := by
  induction es generalizing g with
  | nil => rfl
  | cons e es ih =>
    obtain ⟨he, hes⟩ := List.forall_mem_cons.1 hes
    have hshown : shownBy str (e :: es) = e.shown str ++ shownBy str es := List.flatMap_cons
    have hrest : (performAll str (e :: es) g).mem x =
        (emit (shownBy str es) (e.perform str g)).mem x := ih hes (e.perform str g)
    rw [hrest, hshown, emit_append]
    cases e with
    | text l => rfl
    | string p flags width precision => rfl
    | count p size =>
      refine emit_mem_congr rfl rfl rfl rfl (store_sameOutside g.mem p g.pos size x ?_)
      by_contra hin
      exact he ⟨by omega, by omega⟩

end Performed

/-! ## A call -/

/-- A call that prints a format `s` with its arguments: format and strings lie in `R`, the
arguments are there, `rest` of them behind, and the text is no longer than an `int` can tell. -/
structure Formats (fp : FloatText F) (m : Mem) (R : Set ℕ) (str : ℕ → List (BitVec 8))
    (format : ℕ) (s : List (BitVec 8)) (args : List (Arg F)) (es : List Event)
    (rest : List (Arg F)) : Prop where
  at_format : Format.At m R format s
  events : events fp (parse s).items args = some (es, rest)
  ends : (parse s).Ends rest
  safe : ∀ e ∈ es, e.Safe m R str
  short : (shownBy str es).length < 2 ^ 31

section Call

variable {fp : FloatText F} {m : Mem} {R : Set ℕ} {str : ℕ → List (BitVec 8)} {format : ℕ}
  {s : List (BitVec 8)} {args rest : List (Arg F)} {es : List Event}

/-- A string in the region that is kept can be printed. -/
theorem Printable.of_at {p : ℕ} {t : List (BitVec 8)} (h : Format.At m R p t)
    (hlen : t.length ≤ maxPossibleBufferSize) : Printable m R p t {} 0 where
  bytes i hi := by
    have hget : t[i]? = some (m (p + i)) := (isString_iff.1 h.string).1 i hi
    rw [List.getElem?_eq_getElem (show i < t.length from hi)] at hget
    exact (Option.some.inj hget).symm
  ne_zero := (isString_iff.1 h.string).2.2
  kept i hi := h.kept i hi.le
  stops := .inr ⟨(isString_iff.1 h.string).2.1, h.kept _ le_rfl⟩
  length_le := hlen

/-- A string in a list of bytes goes up to its first zero. -/
theorem isString_memOf {l : List (BitVec 8)} {p : ℕ} (h : 0 ∈ l.drop p) :
    IsString (memOf l) p ((l.drop p).takeWhile (· ≠ 0)) := by
  generalize hd : l.drop p = d at h
  induction d generalizing p with
  | nil => exact absurd h List.not_mem_nil
  | cons c d ih =>
    have hc : memOf l p = c := by
      have hhead := congrArg List.head? hd
      rw [List.head?_drop, List.head?_cons] at hhead
      rw [memOf, List.getD_eq_getElem?_getD, hhead]
      rfl
    have htail : l.drop (p + 1) = d := by
      rw [← List.tail_drop, hd, List.tail_cons]
    by_cases hzero : c = 0
    · rw [List.takeWhile_cons_of_neg (by simpa using hzero)]
      exact hc.trans hzero
    · rw [List.takeWhile_cons_of_pos (by simpa using hzero)]
      exact ⟨hc, hzero, ih htail ((List.mem_cons.1 h).resolve_left (Ne.symm hzero))⟩

theorem Format.at_memOf {l : List (BitVec 8)} {p : ℕ} (h : 0 ∈ l.drop p) :
    Format.At (memOf l) Set.univ p ((l.drop p).takeWhile (· ≠ 0)) :=
  ⟨isString_memOf h, fun _ _ => Set.mem_univ _⟩

/-- `"%s%s"` at 1, `"%s"` at 3, `"hi"` at 6 and `"%d"` at 9. -/
def sampleBytes : List (BitVec 8) := [0, 37, 115, 37, 115, 0, 104, 105, 0, 37, 100, 0]

def sampleStr (p : ℕ) : List (BitVec 8) := (sampleBytes.drop p).takeWhile (· ≠ 0)

/-- No text for floating-point numbers. -/
def noFloat : FloatText Unit := fun _ _ _ _ _ => []

theorem at_sample {p : ℕ} (hp : p < 12) :
    Format.At (memOf sampleBytes) {x | x < 12} p (sampleStr p) := by
  have hall : ∀ p < 12, 0 ∈ sampleBytes.drop p ∧ p + (sampleStr p).length < 12 := by decide
  obtain ⟨hzero, hlen⟩ := hall p hp
  exact ⟨isString_memOf hzero, fun i hi => (Nat.add_le_add_left hi p).trans_lt hlen⟩

theorem formats_sample (rest : List (Arg Unit)) :
    Formats noFloat (memOf sampleBytes) {x | x < 12} sampleStr 3 [37, 115] (.word 6 :: rest)
      [.string 6 {} 0 0] rest where
  at_format := at_sample (p := 3) (by decide)
  events := rfl
  ends spec hspec := absurd hspec (Option.not_mem_none spec)
  safe e he := by
    rw [List.mem_singleton.1 he]
    exact Printable.of_at (at_sample (p := 6) (by decide)) (by decide)
  short := by decide

/-- The loop performs the events and the gadget ends at the length of the text. -/
theorem Formats.vsnprintfImpl_eq (h : Formats fp m R str format s args es rest) {g : Gadget S}
    (hg : Keeps m R g) (hpos : g.pos = 0) :
    ∃ N, ∀ fuel ≥ N, vsnprintfImpl fp fuel format args g =
      some (appendTerminationWithGadget (performAll str es g), ((shownBy str es).length : ℤ)) := by
  have hreads : ∀ e ∈ es, e.Safe m R str ∧ e.reads str ≤ (es.map (Event.reads str)).sum :=
    fun e he => ⟨h.safe e he, List.single_le_sum (by simp) _ (List.mem_map_of_mem he)⟩
  have hshort := h.short
  have hend : (performAll str es g).pos = (shownBy str es).length := by
    rw [performAll_pos (by omega), hpos, Nat.zero_add]
  refine ⟨s.length + (s.length + (es.map (Event.reads str)).sum) + 1, fun fuel hfuel => ?_⟩
  have hfixed : (appendTerminationWithGadget (performAll str es g)).pos =
      (performAll str es g).pos := by
    unfold appendTerminationWithGadget
    dsimp only
    split_ifs <;> rfl
  rw [vsnprintfImpl, formatStringLoop_eq h.at_format hg h.events hreads h.ends (by omega),
    Option.map_some]
  dsimp only
  have hnat : (BitVec.ofNat 32 (shownBy str es).length).toNat = (shownBy str es).length := by
    rw [BitVec.toNat_ofNat]
    omega
  rw [hfixed, hend, BitVec.toInt_eq_toNat_of_lt (by omega), hnat]

/-- How much of a buffer `vsnprintf` uses. Its size is passed on as an `unsigned int`. -/
def usable (buf count : ℕ) : ℕ := if buf = 0 then 0 else min (wrap32 count) maxPossibleBufferSize

/-- A buffer of `n` bytes has the text `T` as far as it fits before the terminator, and nothing
else has changed but what the events count into. -/
structure Prints (m m' : Mem) (buf n : ℕ) (es : List Event) (T : List (BitVec 8)) : Prop where
  text : ∀ i (h : i < T.length), i + 1 < n → m' (buf + i) = T[i]
  terminated : 0 < n → m' (buf + min T.length (n - 1)) = 0
  frame : ∀ x, ¬ (buf ≤ x ∧ x < buf + min (T.length + 1) n) → (∀ e ∈ es, ¬ e.Touches x) →
    m' x = m x

/-- The text in the buffer is the string that was printed, cut off where it does not fit. -/
theorem Prints.isString {m m' : Mem} {buf n : ℕ} {T : List (BitVec 8)} {es : List Event}
    (h : Prints m m' buf n es T) (hn : 0 < n) (hT : ∀ c ∈ T, c ≠ 0) :
    IsString m' buf (T.take (n - 1)) := by
  have hlen : (T.take (n - 1)).length = min T.length (n - 1) := by
    rw [List.length_take, Nat.min_comm]
  have hmem : ∀ i (h : i < T.length), i < n - 1 → m' (buf + i) = T[i] :=
    fun i hi hlt => h.text i hi (by omega)
  refine isString_iff.2 ⟨fun i hi => ?_, ?_, fun c hc => hT c (List.mem_of_mem_take hc)⟩
  · rw [hlen] at hi
    rw [List.getElem?_take_of_lt (by omega), List.getElem?_eq_getElem (by omega),
      hmem i (by omega) (by omega)]
  · rw [hlen]
    exact h.terminated hn

theorem usable_eq (buf count : ℕ) (m : Mem) :
    bufferGadget buf (wrap32 count) m () = ⟨none, buf, 0, usable buf count, m, ()⟩ := by
  unfold bufferGadget usable discardingGadget
  dsimp only
  by_cases hbuf : buf = 0
  · subst hbuf
    simp
  · rw [if_pos hbuf, if_neg hbuf]
    congr 1
    split <;> omega

/-- The buffer of a gadget behind its events and the terminator. -/
theorem prints_of_gadget {g : Gadget S} (hf : g.function = none) (hpos : g.pos = 0)
    (hbuf : 0 < g.maxChars → g.buffer ≠ 0) (hshort : (shownBy str es).length < 2 ^ 31)
    (hes : ∀ e ∈ es, ∀ x, g.buffer ≤ x ∧ x < g.buffer + g.maxChars → ¬ e.Touches x) :
    Prints g.mem (appendTerminationWithGadget (performAll str es g)).mem g.buffer g.maxChars es
      (shownBy str es) := by
  obtain ⟨hfun, hbuffer, hmax⟩ := performAll_fixed str es g
  have hend : (performAll str es g).pos = (shownBy str es).length := by
    rw [performAll_pos (by omega), hpos, Nat.zero_add]
  have hmem : (appendTerminationWithGadget (performAll str es g)).mem =
      if g.maxChars = 0 then (performAll str es g).mem else
        update (performAll str es g).mem
          (g.buffer + min (shownBy str es).length (g.maxChars - 1)) 0 := by
    unfold appendTerminationWithGadget
    rw [hfun, hf, hbuffer, hmax, hend]
    by_cases hzero : g.maxChars = 0
    · rw [if_pos (.inr hzero), if_pos hzero]
    · have hplace : (if (shownBy str es).length < g.maxChars then (shownBy str es).length
          else g.maxChars - 1) = min (shownBy str es).length (g.maxChars - 1) := by
        split <;> omega
      rw [if_neg (by simp [hzero]), if_neg (hbuf (Nat.pos_of_ne_zero hzero)), if_neg hzero]
      dsimp only
      rw [hplace]
  -- No event counts into the buffer, so that its bytes are those of the text alone.
  have hput (i : ℕ) (hi : i < g.maxChars) : (performAll str es g).mem (g.buffer + i) =
      if h : i < (shownBy str es).length then (shownBy str es)[i] else g.mem (g.buffer + i) := by
    have hemit := emit_buffer (l := shownBy str es) hf (by omega) i
    simp only [hpos, Nat.zero_add] at hemit
    rw [performAll_mem fun e he => hes e he _ ⟨Nat.le_add_right _ _, by omega⟩, hemit]
    by_cases hin : i < (shownBy str es).length
    · rw [dif_pos ⟨hin, hi⟩, dif_pos hin]
    · rw [dif_neg (fun h => hin h.1), dif_neg hin]
  refine ⟨fun i hi hroom => ?_, fun hn => ?_, fun x hx hes' => ?_⟩
  · have hne : g.buffer + i ≠ g.buffer + min (shownBy str es).length (g.maxChars - 1) := by omega
    rw [hmem, if_neg (by omega), update_of_ne hne, hput i (by omega), dif_pos hi]
  · rw [hmem, if_neg (by omega), update_self]
  · have hbefore : (performAll str es g).mem x = g.mem x := by
      by_cases hin : g.buffer ≤ x ∧ x < g.buffer + g.maxChars
      · obtain ⟨i, rfl⟩ := Nat.exists_eq_add_of_le hin.1
        rw [hput i (by omega), dif_neg (by omega)]
      · rw [performAll_mem hes']
        exact emit_outside fun hs => hin hs.2
    rw [hmem]
    split
    · exact hbefore
    next hzero =>
      have hne : x ≠ g.buffer + min (shownBy str es).length (g.maxChars - 1) := by omega
      rw [update_of_ne hne, hbefore]

/-- `vsnprintf` prints the text of the format into its buffer and returns its length, whether it
has fit or not. -/
theorem vsnprintf_prints (h : Formats fp m R str format s args es rest) (buf count : ℕ)
    (hapart : ∀ x ∈ R, ¬ (buf ≤ x ∧ x < buf + usable buf count))
    (hes : ∀ e ∈ es, ∀ x, buf ≤ x ∧ x < buf + usable buf count → ¬ e.Touches x) :
    ∃ m' N, (∀ fuel ≥ N, vsnprintf fp fuel buf count format args m =
        some (m', ((shownBy str es).length : ℤ))) ∧
      Prints m m' buf (usable buf count) es (shownBy str es) := by
  let g : Gadget Unit := ⟨none, buf, 0, usable buf count, m, ()⟩
  have hkeeps : Keeps m R g :=
    ⟨fun _ _ => rfl, fun x hx hs => hapart x hx hs.2, by norm_num [g]⟩
  have hbuf : 0 < g.maxChars → g.buffer ≠ 0 := by
    intro hpos hzero
    have hnone : g.maxChars = 0 := if_pos hzero
    omega
  obtain ⟨N, hN⟩ := h.vsnprintfImpl_eq hkeeps rfl
  refine ⟨(appendTerminationWithGadget (performAll str es g)).mem, N, fun fuel hfuel => ?_,
    prints_of_gadget (g := g) rfl rfl hbuf h.short hes⟩
  rw [vsnprintf, usable_eq, hN fuel hfuel]
  rfl

/-- `vfctprintf` calls its function for every character of the text, in turn. -/
theorem vfctprintf_prints (h : Formats fp m R str format s args es rest) (out : BitVec 8 → S → S)
    (env : S) :
    ∃ m' N, (∀ fuel ≥ N, vfctprintf fp fuel out env format args m =
        some (m', (shownBy str es).foldl (fun e c => out c e) env,
          ((shownBy str es).length : ℤ))) ∧
      ∀ x, (∀ e ∈ es, ¬ e.Touches x) → m' x = m x := by
  have hkeeps : Keeps m R (functionGadget out m env) :=
    ⟨fun _ _ => rfl, fun x _ hs => Option.some_ne_none out hs.1, by norm_num [functionGadget,
      discardingGadget]⟩
  obtain ⟨N, hN⟩ := h.vsnprintfImpl_eq hkeeps rfl
  have hshort := h.short
  have hsame : appendTerminationWithGadget (performAll str es (functionGadget out m env)) =
      performAll str es (functionGadget out m env) := by
    unfold appendTerminationWithGadget
    rw [if_pos (.inl (by rw [(performAll_fixed _ es _).1]; rfl))]
  have henv : (performAll str es (functionGadget out m env)).env =
      (shownBy str es).foldl (fun e c => out c e) env := by
    have hfit : (functionGadget out m env).pos + (shownBy str es).length < 2 ^ 32 := by
      change 0 + (shownBy str es).length < 2 ^ 32
      omega
    rw [performAll_function rfl hfit]
    change ((shownBy str es).take (maxPossibleBufferSize - 0)).foldl _ env = _
    rw [List.take_of_length_le (by unfold maxPossibleBufferSize; omega)]
  refine ⟨(performAll str es (functionGadget out m env)).mem, N, fun fuel hfuel => ?_,
    fun x hx => ?_⟩
  · rw [vfctprintf, hN fuel hfuel, Option.map_some, hsame]
    exact congrArg some (Prod.ext rfl (Prod.ext henv rfl))
  · rw [performAll_mem hx]
    exact emit_outside fun hs => Option.some_ne_none out hs.1

/-- `vsnprintf` into a buffer that the format and its strings are apart from: it returns the length
of the text, and leaves it in the buffer as a string, cut off where it does not fit. Everything
else is as it was. -/
theorem vsnprintf_truncates (h : Formats fp m R str format s args es rest) (buf count : ℕ)
    (hapart : ∀ x ∈ R, ¬ (buf ≤ x ∧ x < buf + usable buf count))
    (hes : ∀ e ∈ es, ∀ x, buf ≤ x ∧ x < buf + usable buf count → ¬ e.Touches x)
    (hT : ∀ c ∈ shownBy str es, c ≠ 0) :
    ∃ m' N, (∀ fuel ≥ N, vsnprintf fp fuel buf count format args m =
        some (m', ((shownBy str es).length : ℤ))) ∧
      (0 < usable buf count → IsString m' buf ((shownBy str es).take (usable buf count - 1))) ∧
      ∀ x, ¬ (buf ≤ x ∧ x < buf + min ((shownBy str es).length + 1) (usable buf count)) →
        (∀ e ∈ es, ¬ e.Touches x) → m' x = m x := by
  obtain ⟨m', N, hcall, hprints⟩ := vsnprintf_prints h buf count hapart hes
  exact ⟨m', N, hcall, fun hn => hprints.isString hn hT, hprints.frame⟩

/-- `"hi"` does not fit into two bytes. -/
theorem vsnprintf_truncates_hi :
    ∃ m' N, (∀ fuel ≥ N, vsnprintf noFloat fuel 16 2 3 [.word 6] (memOf sampleBytes) =
        some (m', 2)) ∧ IsString m' 16 [104] ∧
      ∀ x, ¬ (16 ≤ x ∧ x < 18) → m' x = memOf sampleBytes x := by
  have hnone : ∀ e ∈ [Event.string 6 {} 0 0], ∀ x, ¬ e.Touches x := fun e he x => by
    rw [List.mem_singleton.1 he]
    exact not_false
  have hapart : ∀ x ∈ {x | x < 12}, ¬ (16 ≤ x ∧ x < 16 + usable 16 2) := fun x hx => by
    have hlt : x < 12 := hx
    omega
  obtain ⟨m', N, hcall, hstring, hframe⟩ := vsnprintf_truncates (formats_sample []) 16 2 hapart
    (fun e he x _ => hnone e he x) (by decide)
  exact ⟨m', N, hcall, hstring (by decide), fun x hx => hframe x hx fun e he => hnone e he x⟩

theorem Formats.congr {m' : Mem} (h : Formats fp m R str format s args es rest)
    (hm : ∀ x ∈ R, m' x = m x) : Formats fp m' R str format s args es rest where
  at_format := ⟨h.at_format.congr hm, h.at_format.kept⟩
  events := h.events
  ends := h.ends
  safe e he := by
    have hsafe := h.safe e he
    cases e with
    | text l => trivial
    | count p size => exact hsafe
    | string p flags width precision => exact Printable.congr hsafe hm
  short := h.short

theorem Formats.append {p q r : ℕ} {t : List (BitVec 8)} {es' : List Event}
    {args₁ args₂ : List (Arg F)} (h : Formats fp m R str p s args es args₁)
    (h' : Formats fp m R str q t args₁ es' args₂) (hcomplete : (parse s).ending = none)
    (hr : Format.At m R r (s ++ t))
    (hshort : (shownBy str es).length + (shownBy str es').length < 2 ^ 31) :
    Formats fp m R str r (s ++ t) args (es ++ es') args₂ := by
  refine ⟨hr, ?_, ?_, fun e he => ?_, ?_⟩
  · rw [parse_append hcomplete]
    exact events_append h.events h'.events
  · rw [parse_append hcomplete]
    exact h'.ends
  · rcases List.mem_append.1 he with he | he
    · exact h.safe e he
    · exact h'.safe e he
  · rw [shownBy_append, List.length_append]
    exact hshort

/-- A format behind another one prints what it prints alone, with the arguments that the first one
has left. -/
theorem vfctprintf_append {p q r : ℕ} {t : List (BitVec 8)} {es' : List Event}
    {args₁ args₂ : List (Arg F)} (h : Formats fp m R str p s args es args₁)
    (h' : Formats fp m R str q t args₁ es' args₂) (hcomplete : (parse s).ending = none)
    (hr : Format.At m R r (s ++ t))
    (hshort : (shownBy str es).length + (shownBy str es').length < 2 ^ 31)
    (out : BitVec 8 → S → S) (env : S) :
    ∃ m₁ m₂ m₃ env₁ env₂ len₁ len₂ N, ∀ fuel ≥ N,
      vfctprintf fp fuel out env p args m = some (m₁, env₁, len₁) ∧
      vfctprintf fp fuel out env₁ q args₁ m₁ = some (m₂, env₂, len₂) ∧
      vfctprintf fp fuel out env r args m = some (m₃, env₂, len₁ + len₂) := by
  obtain ⟨m₁, N₁, hcall₁, hframe⟩ := vfctprintf_prints h out env
  have hm : ∀ x ∈ R, m₁ x = m x := fun x hx =>
    hframe x fun e he => (h.safe e he).not_touches hx
  obtain ⟨m₂, N₂, hcall₂, -⟩ := vfctprintf_prints (h'.congr hm) out
    ((shownBy str es).foldl (fun e c => out c e) env)
  obtain ⟨m₃, N₃, hcall₃, -⟩ := vfctprintf_prints (h.append h' hcomplete hr hshort) out env
  refine ⟨m₁, m₂, m₃, _, _, _, _, max N₁ (max N₂ N₃), fun fuel hfuel =>
    ⟨hcall₁ fuel (by omega), hcall₂ fuel (by omega), ?_⟩⟩
  rw [hcall₃ fuel (by omega), shownBy_append, List.foldl_append, List.length_append]
  push_cast
  rfl

theorem vfctprintf_append_hi :
    ∃ m₁ m₂ m₃ env₁ env₂ len₁ len₂ N, ∀ fuel ≥ N,
      vfctprintf noFloat fuel (fun c l => l ++ [c]) [] 3 [.word 6, .word 6] (memOf sampleBytes) =
        some (m₁, env₁, len₁) ∧
      vfctprintf noFloat fuel (fun c l => l ++ [c]) env₁ 3 [.word 6] m₁ =
        some (m₂, env₂, len₂) ∧
      vfctprintf noFloat fuel (fun c l => l ++ [c]) [] 1 [.word 6, .word 6] (memOf sampleBytes) =
        some (m₃, env₂, len₁ + len₂) :=
  vfctprintf_append (formats_sample [.word 6]) (formats_sample []) rfl
    (at_sample (p := 1) (by decide)) (by decide) _ _

/-! ### Formats with one directive -/

theorem parse_literal {l : List (BitVec 8)} (hl : ∀ c ∈ l, c ≠ 37) (t : List (BitVec 8)) :
    parse (l ++ t) = ⟨l.map .char ++ (parse t).items, (parse t).ending⟩ := by
  induction l with
  | nil => rfl
  | cons c l ih =>
    obtain ⟨hc, hl⟩ := List.forall_mem_cons.1 hl
    rw [List.cons_append, parse_char hc, ih hl]
    rfl

theorem parse_plain {l : List (BitVec 8)} (hl : ∀ c ∈ l, c ≠ 37) :
    parse l = ⟨l.map .char, none⟩ := by
  have hnil : (parse []).items = [] := rfl
  have h := parse_literal hl []
  rw [List.append_nil, hnil, List.append_nil] at h
  exact h

theorem events_literal (fp : FloatText F) (l : List (BitVec 8)) (args : List (Arg F)) :
    events fp (l.map .char) args = some (l.map fun c => .text [c], args) := by
  induction l with
  | nil => rfl
  | cons c l ih =>
    rw [List.map_cons, events, Item.event, Option.bind_some]
    dsimp only
    rw [ih]
    rfl

theorem shownBy_literal (str : ℕ → List (BitVec 8)) (l : List (BitVec 8)) :
    shownBy str (l.map fun c => .text [c]) = l := by
  rw [shownBy, List.flatMap_map]
  exact List.flatMap_singleton' l

/-- The string `s` with the arguments `args` spells the text `T` and leaves `rest` of them. -/
def Renders (fp : FloatText F) (m : Mem) (R : Set ℕ) (str : ℕ → List (BitVec 8))
    (s : List (BitVec 8)) (args : List (Arg F)) (T : List (BitVec 8)) (rest : List (Arg F)) :
    Prop :=
  ∃ es, (parse s).ending = none ∧ Stdio.events fp (parse s).items args = some (es, rest) ∧
    (∀ e ∈ es, e.Safe m R str) ∧ shownBy str es = T

section Rendered

variable {T T' : List (BitVec 8)} {rest' : List (Arg F)} {t : List (BitVec 8)}

theorem Renders.append (h : Renders fp m R str s args T rest)
    (h' : Renders fp m R str t rest T' rest') :
    Renders fp m R str (s ++ t) args (T ++ T') rest' := by
  obtain ⟨es, hcomplete, hevents, hsafe, rfl⟩ := h
  obtain ⟨es', hcomplete', hevents', hsafe', rfl⟩ := h'
  refine ⟨es ++ es', ?_, ?_, fun e he => ?_, shownBy_append str es es'⟩
  · rw [parse_append hcomplete]
    exact hcomplete'
  · rw [parse_append hcomplete]
    exact events_append hevents hevents'
  · exact (List.mem_append.1 he).elim (hsafe e) (hsafe' e)

theorem Renders.formats (h : Renders fp m R str s args T rest) (hat : Format.At m R format s)
    (hlen : T.length < 2 ^ 31) :
    ∃ es, Formats fp m R str format s args es rest ∧ shownBy str es = T := by
  obtain ⟨es, hcomplete, hevents, hsafe, rfl⟩ := h
  refine ⟨es, ⟨hat, hevents, fun spec hspec => ?_, hsafe, hlen⟩, rfl⟩
  rw [hcomplete] at hspec
  exact absurd hspec (Option.not_mem_none spec)

theorem renders_literal (fp : FloatText F) (m : Mem) (R : Set ℕ) (str : ℕ → List (BitVec 8))
    {l : List (BitVec 8)} (hl : ∀ c ∈ l, c ≠ 37) (args : List (Arg F)) :
    Renders fp m R str l args l args := by
  have hparse := parse_plain hl
  refine ⟨_, congrArg Format.ending hparse,
    (congrArg (fun f : Format => Stdio.events fp f.items args) hparse).trans
      (events_literal fp l args), fun e he => ?_, shownBy_literal str l⟩
  obtain ⟨c, -, rfl⟩ := List.mem_map.1 he
  trivial

theorem renders_directive {d : List (BitVec 8)} {spec : Spec} {c : BitVec 8} {e : Event}
    (hspec : readSpec (d ++ [c]) = (spec, [c]))
    (hevent : Item.event fp args (.directive spec c) = some (e, rest)) (hsafe : e.Safe m R str) :
    Renders fp m R str (37 :: (d ++ [c])) args (e.shown str) rest := by
  have hparse : parse (37 :: (d ++ [c])) = ⟨[.directive spec c], none⟩ := parse_directive hspec
  refine ⟨[e], congrArg Format.ending hparse, ?_, fun e' he => ?_, ?_⟩
  · rw [hparse, events, hevent]
    rfl
  · rwa [List.mem_singleton.1 he]
  · rw [shownBy, List.flatMap_cons, List.flatMap_nil, List.append_nil]

theorem renders_string (fp : FloatText F) {p : BitVec 64} (hp : p ≠ 0)
    (hstring : Format.At m R p.toNat (str p.toNat)) (hlen : (str p.toNat).length < 2 ^ 31)
    (rest : List (Arg F)) :
    Renders fp m R str [37, 115] (.word p :: rest) (str p.toNat) rest := by
  have hevent : Item.event fp (.word p :: rest) (.directive ⟨[], none, none, .none⟩ 115) =
      some (.string p.toNat {} 0 0, rest) := by
    have hchoice : Item.event fp (.word p :: rest) (.directive ⟨[], none, none, .none⟩ 115) =
        some (if p = 0 then .text (field 0 {} [40, 110, 117, 108, 108, 41])
          else .string p.toNat {} 0 0, rest) := rfl
    rw [hchoice, if_neg hp]
  have hshown : Event.shown str (.string p.toNat {} 0 0) = str p.toNat := by
    simp [Event.shown, spaced, stringBody]
  have hrenders : Renders fp m R str (37 :: ([] ++ [115])) (.word p :: rest)
      (Event.shown str (.string p.toNat {} 0 0)) rest :=
    renders_directive rfl hevent
      (Printable.of_at hstring (by unfold maxPossibleBufferSize; omega))
  rwa [hshown] at hrenders

end Rendered

end Call

end IceKernel.Stdio
