import IceKernel.Drivers.Terminal
import IceKernel.Libc.StdioNumbers

/-!
# Formatted output of `drivers/graphics/terminal.hpp`

`printf` calls `printc` for every character, so that a terminal gets the text of the
format without its NULs.
-/

namespace IceKernel
open ByteMemory Digits Stdio

/-- The calls of `write` for the characters `l`, one each; a NUL is an empty string. -/
def Console.puts {T : Type} (u : Option T) (l : List (BitVec 8)) : Output T :=
  u.elim [] fun t => l.map fun c => (t, if c = 0 then [] else [c])

namespace Console

variable {T F : Type} (con : Console T)

/-- `vprintf(term, format, arg)`. The string of `printc` takes two rounds to measure. -/
def vprintfTerm (fp : FloatText F) (term : Option T) (fuel format : ℕ) (args : List (Arg F))
    (m : Mem) (out : Output T) : Option (Mem × Output T × ℤ) :=
  (vfctprintf fp fuel (fun c out => out.bind (con.printc c term 2)) (some out) format args m).bind
    fun (m, out, ret) => out.map fun out => (m, out, ret)

/-- `vprintf(format, arg)`, by way of `putchar`. -/
def vprintf (fp : FloatText F) (fuel format : ℕ) (args : List (Arg F)) (m : Mem)
    (out : Output T) : Option (Mem × Output T × ℤ) :=
  con.vprintfTerm fp con.mainTerm fuel format args m out

/-- The addresses of the four formats that move the cursor. -/
structure CursorFormats where
  up : ℕ
  down : ℕ
  right : ℕ
  left : ℕ

section Cursor

variable (fp : FloatText F) (formats : CursorFormats) (lines : BitVec 64) (term : Option T)
  (fuel : ℕ) (m : Mem) (out : Output T)

/-- `cursor_up(lines, term)`. -/
def cursorUp := con.vprintfTerm fp term fuel formats.up [.word lines] m out

/-- `cursor_down(lines, term)`. -/
def cursorDown := con.vprintfTerm fp term fuel formats.down [.word lines] m out

/-- `cursor_right(lines, term)`. -/
def cursorRight := con.vprintfTerm fp term fuel formats.right [.word lines] m out

/-- `cursor_left(lines, term)`. -/
def cursorLeft := con.vprintfTerm fp term fuel formats.left [.word lines] m out

end Cursor

/-- The formats in memory: `"\\033[dA"`, `"\\033[%dB"`, `"\\033[%dC"` and `"\\033[%dD"`. -/
structure CursorFormats.At (m : Mem) (R : Set ℕ) (formats : CursorFormats) : Prop where
  up : Format.At m R formats.up [27, 91, 100, 65]
  down : Format.At m R formats.down [27, 91, 37, 100, 66]
  right : Format.At m R formats.right [27, 91, 37, 100, 67]
  left : Format.At m R formats.left [27, 91, 37, 100, 68]

/-! ## What is written -/

section Written

variable {con : Console T} {fp : FloatText F} {m : Mem} {R : Set ℕ} {str : ℕ → List (BitVec 8)}
  {format : ℕ} {s : List (BitVec 8)} {args rest : List (Arg F)} {es : List Event}

theorem puts_append (u : Option T) (l r : List (BitVec 8)) :
    puts u (l ++ r) = puts u l ++ puts u r := by
  cases u with
  | none => rfl
  | some u => exact List.map_append

theorem printc_puts (c : BitVec 8) (term : Option T) (out : Output T) :
    con.printc c term 2 out = some (out ++ puts (con.live term) [c]) := by
  by_cases hc : c = 0
  · subst hc
    have hstring : (CArray.ofBytes [0, 0]).IsString 0 [] := rfl
    exact print_eq hstring (by norm_num) term out
  · rw [printc_eq hc (by norm_num)]
    unfold puts emits
    cases con.live term with
    | none => rfl
    | some t =>
      simp only [Option.elim_some, List.map_cons, List.map_nil]
      rw [if_neg hc]

theorem foldl_printc (term : Option T) (l : List (BitVec 8)) (out : Output T) :
    l.foldl (fun out c => out.bind (con.printc c term 2)) (some out) =
      some (out ++ puts (con.live term) l) := by
  induction l generalizing out with
  | nil =>
    have hnil : puts (con.live term) [] = [] := by
      cases con.live term <;> rfl
    rw [hnil, List.append_nil]
    rfl
  | cons c l ih =>
    have hsplit : puts (con.live term) (c :: l) =
        puts (con.live term) [c] ++ puts (con.live term) l := puts_append _ [c] l
    rw [List.foldl_cons, Option.bind_some, printc_puts, ih, hsplit, List.append_assoc]

/-- `printf` gives the text of the format to `printc`, character by character. -/
theorem vprintfTerm_eq (con : Console T) (h : Formats fp m R str format s args es rest)
    (term : Option T) (out : Output T) :
    ∃ m' N, (∀ fuel ≥ N, con.vprintfTerm fp term fuel format args m out =
        some (m', out ++ puts (con.live term) (shownBy str es),
          ((shownBy str es).length : ℤ))) ∧ ∀ x, (∀ e ∈ es, ¬ e.Touches x) → m' x = m x := by
  obtain ⟨m', N, hcall, hframe⟩ := vfctprintf_prints h
    (fun c out => out.bind (con.printc c term 2)) (some out)
  refine ⟨m', N, fun fuel hfuel => ?_, hframe⟩
  rw [vprintfTerm, hcall fuel hfuel, Option.bind_some]
  dsimp only
  rw [foldl_printc]
  rfl

variable [DecidableEq T] {t : T}

theorem bytesOn_puts (t : T) (u : Option T) (l : List (BitVec 8)) :
    bytesOn t (puts u l) = if u = some t then l.filter (· ≠ 0) else [] := by
  cases u with
  | none => rfl
  | some u =>
    simp only [bytesOn, puts, Option.elim_some, List.flatMap_map, Option.some_inj]
    split
    · induction l with
      | nil => rfl
      | cons c l ih =>
        rw [List.flatMap_cons, ih, List.filter_cons]
        by_cases hc : c = 0
        · rw [if_pos hc, if_neg (by simpa using hc)]
          rfl
        · rw [if_neg hc, if_pos (by simpa using hc)]
          rfl
    · exact List.flatMap_eq_nil_iff.2 fun _ _ => rfl

theorem writes_puts (hlive : con.live (some t) = some t) (l : List (BitVec 8)) (out : Output T) :
    Writes t (l.filter (· ≠ 0)) out (out ++ puts (con.live (some t)) l) := by
  refine writes_append_iff.2 ⟨?_, fun u hu => ?_⟩
  · rw [bytesOn_puts, if_pos hlive]
  · rw [bytesOn_puts, hlive, if_neg fun h => hu (Option.some.inj h).symm]

/-- `printf` writes the text of the format, less its NULs, to the terminal it is called for, and
nothing to another one. -/
theorem printf_writes (h : Formats fp m R str format s args es rest)
    (hresponse : con.response = true) (t : T) (out : Output T) :
    ∃ m' out' N, (∀ fuel ≥ N, con.vprintfTerm fp (some t) fuel format args m out =
        some (m', out', ((shownBy str es).length : ℤ))) ∧
      Writes t ((shownBy str es).filter (· ≠ 0)) out out' := by
  obtain ⟨m', N, hcall, -⟩ := vprintfTerm_eq con h (some t) out
  exact ⟨m', _, N, hcall, writes_puts (live_eq_some_iff.2 ⟨hresponse, rfl⟩) _ out⟩

theorem printf_writes_hi :
    ∃ m' out' N, (∀ fuel ≥ N, twoTerminals.vprintfTerm noFloat (some true) fuel 3 [.word 6]
        (memOf sampleBytes) [] = some (m', out', 2)) ∧ Writes true [104, 105] [] out' :=
  printf_writes (formats_sample []) (rfl : twoTerminals.response = true) true []

/-- An escape sequence with a number in it. -/
theorem renders_number (lines : BitVec 64) {c : BitVec 8} (hc : c ≠ 37) :
    Renders fp m R str [27, 91, 37, 100, c] [.word lines]
      ([27, 91] ++ (intText (toInt32 lines) ++ [c])) [] := by
  have hpre : Renders fp m R str [27, 91] [.word lines] [27, 91] [.word lines] :=
    renders_literal fp m R str (by decide) _
  have hpost : Renders fp m R str [c] ([] : List (Arg F)) [c] [] :=
    renders_literal fp m R str (by simpa using hc) _
  exact hpre.append ((renders_int lines [] (.inl rfl)).append hpost)

/-- The commands that move the cursor down, right and left write their escape sequence with the
number, whatever it is. The one that moves it up writes a letter in the place of the number. -/
theorem cursor_writes {formats : CursorFormats} (hformats : formats.At m R)
    (hresponse : con.response = true) (lines : BitVec 64) (t : T) (out : Output T) :
    (∃ m' out' ret N, (∀ fuel ≥ N, con.cursorDown fp formats lines (some t) fuel m out =
        some (m', out', ret)) ∧
      Writes t ([27, 91] ++ (intText (toInt32 lines) ++ [66])) out out') ∧
    (∃ m' out' ret N, (∀ fuel ≥ N, con.cursorRight fp formats lines (some t) fuel m out =
        some (m', out', ret)) ∧
      Writes t ([27, 91] ++ (intText (toInt32 lines) ++ [67])) out out') ∧
    (∃ m' out' ret N, (∀ fuel ≥ N, con.cursorLeft fp formats lines (some t) fuel m out =
        some (m', out', ret)) ∧
      Writes t ([27, 91] ++ (intText (toInt32 lines) ++ [68])) out out') ∧
    ∃ m' out' ret N, (∀ fuel ≥ N, con.cursorUp fp formats lines (some t) fuel m out =
        some (m', out', ret)) ∧ Writes t [27, 91, 100, 65] out out' := by
  have hcommand {format : ℕ} {s text : List (BitVec 8)} {rest : List (Arg F)}
      (h : Renders fp m R (fun _ => []) s [.word lines] text rest) (hat : Format.At m R format s)
      (hlen : text.length < 2 ^ 31) (hne : ∀ c ∈ text, c ≠ 0) :
      ∃ m' out' ret N, (∀ fuel ≥ N, con.vprintfTerm fp (some t) fuel format [.word lines] m out =
          some (m', out', ret)) ∧ Writes t text out out' := by
    obtain ⟨es, hes, hshown⟩ := h.formats hat hlen
    obtain ⟨m', N, hcall, -⟩ := vprintfTerm_eq con hes (some t) out
    have hwrites := writes_puts (live_eq_some_iff.2 ⟨hresponse, rfl⟩ : con.live (some t) = some t)
      text out
    rw [List.filter_eq_self.2 fun c hc => decide_eq_true (hne c hc), ← hshown] at hwrites
    exact ⟨m', _, _, N, hcall, hshown ▸ hwrites⟩
  have hnumber {c : BitVec 8} (hc : c ≠ 37) (hne : c ≠ 0) {format : ℕ}
      (hat : Format.At m R format [27, 91, 37, 100, c]) :
      ∃ m' out' ret N, (∀ fuel ≥ N, con.vprintfTerm fp (some t) fuel format [.word lines] m out =
          some (m', out', ret)) ∧
        Writes t ([27, 91] ++ (intText (toInt32 lines) ++ [c])) out out' := by
    have hlen := intText_length lines
    refine hcommand (renders_number lines hc) hat ?_ fun d hd => ?_
    · simp only [List.length_append, List.length_cons, List.length_nil]
      omega
    · rcases List.mem_append.1 hd with hd | hd
      · simp only [List.mem_cons, List.not_mem_nil, or_false] at hd
        rcases hd with rfl | rfl <;> decide
      · rcases List.mem_append.1 hd with hd | hd
        · exact intText_ne_zero _ d hd
        · rwa [List.mem_singleton.1 hd]
  exact ⟨hnumber (by decide) (by decide) hformats.down,
    hnumber (by decide) (by decide) hformats.right, hnumber (by decide) (by decide) hformats.left,
    hcommand (renders_literal fp m R _ (by decide) _) hformats.up (by decide) (by decide)⟩

/-- The four formats, one behind another. -/
def cursorBytes : List (BitVec 8) :=
  [27, 91, 100, 65, 0, 27, 91, 37, 100, 66, 0, 27, 91, 37, 100, 67, 0, 27, 91, 37, 100, 68, 0]

theorem cursor_writes_three :
    (∃ m' out' ret N, (∀ fuel ≥ N, twoTerminals.cursorDown noFloat ⟨0, 5, 11, 17⟩ 3 (some true)
        fuel (memOf cursorBytes) [] = some (m', out', ret)) ∧
      Writes true ([27, 91] ++ (intText (toInt32 3) ++ [66])) [] out') ∧
    (∃ m' out' ret N, (∀ fuel ≥ N, twoTerminals.cursorRight noFloat ⟨0, 5, 11, 17⟩ 3 (some true)
        fuel (memOf cursorBytes) [] = some (m', out', ret)) ∧
      Writes true ([27, 91] ++ (intText (toInt32 3) ++ [67])) [] out') ∧
    (∃ m' out' ret N, (∀ fuel ≥ N, twoTerminals.cursorLeft noFloat ⟨0, 5, 11, 17⟩ 3 (some true)
        fuel (memOf cursorBytes) [] = some (m', out', ret)) ∧
      Writes true ([27, 91] ++ (intText (toInt32 3) ++ [68])) [] out') ∧
    ∃ m' out' ret N, (∀ fuel ≥ N, twoTerminals.cursorUp noFloat ⟨0, 5, 11, 17⟩ 3 (some true)
        fuel (memOf cursorBytes) [] = some (m', out', ret)) ∧
      Writes true [27, 91, 100, 65] [] out' := by
  have hformats : CursorFormats.At (memOf cursorBytes) Set.univ ⟨0, 5, 11, 17⟩ :=
    ⟨Format.at_memOf (p := 0) (by decide), Format.at_memOf (p := 5) (by decide),
      Format.at_memOf (p := 11) (by decide), Format.at_memOf (p := 17) (by decide)⟩
  exact cursor_writes hformats rfl 3 true []

end Written

end Console

end IceKernel
