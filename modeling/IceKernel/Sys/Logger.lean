import IceKernel.Drivers.TerminalPrintf
import IceKernel.Lib.Run

/-!
# The log of `sys/logger.cpp` and the last lines of `sys/panic.cpp`

Every message is a line of the main terminal, behind the name of its level.
-/

namespace IceKernel
open ByteMemory Stdio

/-- `log_level`, and any value that is none of its three. -/
inductive LogLevel
  | info
  | warn
  | error
  | unknown
  deriving DecidableEq, Repr

/-- `level_str`, with the colour in front of a name and `"\\033[0m"` behind it. -/
def LogLevel.text : LogLevel → List (BitVec 8)
  | .info => [27, 91, 49, 59, 51, 52, 109, 105, 110, 102, 111, 27, 91, 48, 109]
  | .warn => [27, 91, 48, 59, 51, 51, 109, 119, 97, 114, 110, 27, 91, 48, 109]
  | .error => [27, 91, 48, 59, 51, 49, 109, 101, 114, 114, 111, 114, 27, 91, 48, 109]
  | .unknown => [117, 110, 107, 110, 111, 119, 110]

/-- The addresses of the strings of `vlog`. -/
structure LogStrings where
  levelStr : LogLevel → BitVec 64
  heading : ℕ
  newline : ℕ

/-- The strings in memory: the names, `"%s: "` and `"\n"`. -/
structure LogStrings.At (m : Mem) (R : Set ℕ) (str : ℕ → List (BitVec 8))
    (strings : LogStrings) : Prop where
  ne_zero : ∀ level, strings.levelStr level ≠ 0
  text : ∀ level, str (strings.levelStr level).toNat = level.text
  level_at : ∀ level, Format.At m R (strings.levelStr level).toNat level.text
  heading : Format.At m R strings.heading [37, 115, 58, 32]
  newline : Format.At m R strings.newline [10]

/-- The arguments of `vlog`. -/
structure LogCall (F : Type) where
  level : LogLevel
  fmt : ℕ
  args : List (Arg F)

/-- The message of a call is `l`. -/
def LogCall.Shows {F : Type} (fp : FloatText F) (m : Mem) (R : Set ℕ)
    (str : ℕ → List (BitVec 8)) (call : LogCall F) (l : List (BitVec 8)) : Prop :=
  ∃ s es rest, Formats fp m R str call.fmt s call.args es rest ∧ shownBy str es = l

namespace Console

variable {T F : Type} (con : Console T) (fp : FloatText F) (strings : LogStrings)

/-- `vlog(level, fmt, args)`, from the memory and the output on. -/
def vlog (fuel : ℕ) (s : Mem × Output T) (call : LogCall F) : Option (Mem × Output T) :=
  (con.vprintf fp fuel strings.heading [.word (strings.levelStr call.level)] s.1 s.2).bind
    fun (m, out, _) => (con.vprintf fp fuel call.fmt call.args m out).bind
      fun (m, out, _) => (con.vprintf fp fuel strings.newline [] m out).map
        fun (m, out, _) => (m, out)

/-- The addresses of the formats of `panic`. -/
structure PanicStrings where
  plain : ℕ
  file : ℕ
  line : ℕ
  function : ℕ
  halted : ℕ

/-- The calls of `log_error` in `panic(file, line, func, message)`. Each format asks for a string,
and the number of the line is what it gets for one. -/
def panicCalls (formats : PanicStrings) (file line func message : BitVec 64) : List (LogCall F) :=
  [⟨.error, formats.plain, [.word message]⟩, ⟨.error, formats.file, [.word file]⟩,
    ⟨.error, formats.line, [.word line]⟩, ⟨.error, formats.function, [.word func]⟩,
    ⟨.error, formats.halted, []⟩]

/-- `panic(file, line, func, message)` up to the call of `halt`. -/
def panic (formats : PanicStrings) (fuel : ℕ) (file line func message : BitVec 64)
    (m : Mem) (out : Output T) : Option (Mem × Output T) :=
  (con.vprintf fp fuel strings.newline [] m out).bind fun (m, out, _) =>
    Run.run (con.vlog fp strings fuel) (m, out) (panicCalls formats file line func message)

/-- The formats of `panic` in memory: `"%s"`, `"File: %s"`, `"Line: %s"`, `"Function: %s"` and
`"System halted!"`. -/
structure PanicStrings.At (m : Mem) (R : Set ℕ) (formats : PanicStrings) : Prop where
  plain : Format.At m R formats.plain [37, 115]
  file : Format.At m R formats.file [70, 105, 108, 101, 58, 32, 37, 115]
  line : Format.At m R formats.line [76, 105, 110, 101, 58, 32, 37, 115]
  function : Format.At m R formats.function
    [70, 117, 110, 99, 116, 105, 111, 110, 58, 32, 37, 115]
  halted : Format.At m R formats.halted
    [83, 121, 115, 116, 101, 109, 32, 104, 97, 108, 116, 101, 100, 33]

/-! ## The lines -/

/-- The line of a message `l`. -/
def logLine (level : LogLevel) (l : List (BitVec 8)) : List (BitVec 8) :=
  level.text ++ ([58, 32] ++ (l ++ [10]))

section Lines

variable {con : Console T} {fp : FloatText F} {strings : LogStrings} {m : Mem} {R : Set ℕ}
  {str : ℕ → List (BitVec 8)} {call : LogCall F} {l : List (BitVec 8)}

theorem Shows.of_renders {s : List (BitVec 8)} {rest : List (Arg F)}
    (h : Renders fp m R str s call.args l rest) (hat : Format.At m R call.fmt s)
    (hlen : l.length < 2 ^ 31) : call.Shows fp m R str l := by
  obtain ⟨es, hformats, hshown⟩ := h.formats hat hlen
  exact ⟨s, es, rest, hformats, hshown⟩

theorem Shows.congr {m' : Mem} (h : call.Shows fp m R str l) (hm : ∀ x ∈ R, m' x = m x) :
    call.Shows fp m' R str l := by
  obtain ⟨s, es, rest, hformats, hshown⟩ := h
  exact ⟨s, es, rest, hformats.congr hm, hshown⟩

theorem LogStrings.At.congr {m' : Mem} (h : strings.At m R str) (hm : ∀ x ∈ R, m' x = m x) :
    strings.At m' R str where
  ne_zero := h.ne_zero
  text := h.text
  level_at level := ⟨(h.level_at level).congr hm, (h.level_at level).kept⟩
  heading := ⟨h.heading.congr hm, h.heading.kept⟩
  newline := ⟨h.newline.congr hm, h.newline.kept⟩

/-- A call of `printf` that shows `l`; what it reads is there for the next call. -/
theorem vprintf_shows (con : Console T) (h : call.Shows fp m R str l) (out : Output T) :
    ∃ m' N, (∀ x ∈ R, m' x = m x) ∧ ∀ fuel ≥ N, con.vprintf fp fuel call.fmt call.args m out =
      some (m', out ++ puts (con.live con.mainTerm) l, (l.length : ℤ)) := by
  obtain ⟨s, es, rest, hformats, rfl⟩ := h
  obtain ⟨m', N, hcall, hframe⟩ := vprintfTerm_eq con hformats con.mainTerm out
  exact ⟨m', N, fun x hx => hframe x fun e he => (hformats.safe e he).not_touches hx, hcall⟩

/-- The string at `p` can be printed. -/
structure StringAt (m : Mem) (R : Set ℕ) (str : ℕ → List (BitVec 8)) (p : BitVec 64) : Prop where
  ne_zero : p ≠ 0
  string : Format.At m R p.toNat (str p.toNat)
  length_lt : (str p.toNat).length < 2 ^ 30

theorem shows_string (fp : FloatText F) (level : LogLevel) {fmt : ℕ} {pre : List (BitVec 8)}
    {p : BitVec 64} (hp : StringAt m R str p) (h : Format.At m R fmt (pre ++ [37, 115]))
    (hpre : ∀ c ∈ pre, c ≠ 37) (hlen : pre.length < 2 ^ 30) :
    LogCall.Shows fp m R str ⟨level, fmt, [.word p]⟩ (pre ++ str p.toNat) := by
  have hstring := hp.length_lt
  refine Shows.of_renders ((renders_literal fp m R str hpre [.word p]).append
    (renders_string fp hp.ne_zero hp.string (by omega) [])) h ?_
  rw [List.length_append]
  omega

theorem shows_literal (fp : FloatText F) (str : ℕ → List (BitVec 8)) (level : LogLevel) {fmt : ℕ}
    (h : Format.At m R fmt l) (hl : ∀ c ∈ l, c ≠ 37) (hlen : l.length < 2 ^ 31) :
    LogCall.Shows fp m R str ⟨level, fmt, []⟩ l :=
  Shows.of_renders (renders_literal fp m R str hl []) h hlen

/-- One message is one line. -/
theorem vlog_eq (con : Console T) (hstrings : strings.At m R str) (h : call.Shows fp m R str l)
    (out : Output T) :
    ∃ m' N, (∀ x ∈ R, m' x = m x) ∧ ∀ fuel ≥ N, con.vlog fp strings fuel (m, out) call =
      some (m', out ++ puts (con.live con.mainTerm) (logLine call.level l)) := by
  have hheading : LogCall.Shows fp m R str
      ⟨call.level, strings.heading, [.word (strings.levelStr call.level)]⟩
      (call.level.text ++ [58, 32]) := by
    have hlen : call.level.text.length ≤ 20 := by
      cases call.level <;> decide
    have hlevel := hstrings.level_at call.level
    rw [← hstrings.text call.level] at hlen hlevel ⊢
    refine Shows.of_renders ((renders_string fp (hstrings.ne_zero _) hlevel (by omega) []).append
      (renders_literal fp m R str (by decide) [])) hstrings.heading ?_
    rw [List.length_append, List.length_cons, List.length_cons, List.length_nil]
    omega
  obtain ⟨m₁, N₁, hkept₁, hcall₁⟩ := vprintf_shows con hheading out
  obtain ⟨m₂, N₂, hkept₂, hcall₂⟩ := vprintf_shows con (Shows.congr h hkept₁)
    (out ++ puts (con.live con.mainTerm) (call.level.text ++ [58, 32]))
  have hkept : ∀ x ∈ R, m₂ x = m x := fun x hx => (hkept₂ x hx).trans (hkept₁ x hx)
  have hnewline : LogCall.Shows fp m₂ R str ⟨call.level, strings.newline, []⟩ [10] :=
    shows_literal fp str _ (LogStrings.At.congr hstrings hkept).newline (by decide) (by decide)
  obtain ⟨m₃, N₃, hkept₃, hcall₃⟩ := vprintf_shows con hnewline
    (out ++ puts (con.live con.mainTerm) (call.level.text ++ [58, 32]) ++
      puts (con.live con.mainTerm) l)
  have hsplit : puts (con.live con.mainTerm) (logLine call.level l) =
      puts (con.live con.mainTerm) (call.level.text ++ [58, 32]) ++
        puts (con.live con.mainTerm) l ++ puts (con.live con.mainTerm) [10] := by
    rw [logLine, ← List.append_assoc, puts_append, puts_append _ l, List.append_assoc]
  refine ⟨m₃, max N₁ (max N₂ N₃), fun x hx => (hkept₃ x hx).trans (hkept x hx),
    fun fuel hfuel => ?_⟩
  have hfirst := hcall₁ fuel (by omega)
  have hlast := hcall₃ fuel (by omega)
  dsimp only at hfirst hlast
  rw [vlog, hfirst, Option.bind_some]
  dsimp only
  rw [hcall₂ fuel (by omega), Option.bind_some]
  dsimp only
  rw [hlast, Option.map_some, hsplit, ← List.append_assoc, ← List.append_assoc]

/-- The lines of the messages `texts`. -/
def logLines (calls : List (LogCall F)) (texts : List (List (BitVec 8))) : List (BitVec 8) :=
  (List.zipWith (fun call l => logLine call.level l) calls texts).flatten

/-- A run of messages is a line for each of them, in turn. -/
theorem run_vlog_eq (con : Console T) (hstrings : strings.At m R str) {calls : List (LogCall F)}
    {texts : List (List (BitVec 8))}
    (h : List.Forall₂ (fun call l => call.Shows fp m R str l) calls texts) (out : Output T) :
    ∃ m' N, (∀ x ∈ R, m' x = m x) ∧
      ∀ fuel ≥ N, Run.run (con.vlog fp strings fuel) (m, out) calls =
        some (m', out ++ puts (con.live con.mainTerm) (logLines calls texts)) := by
  induction calls generalizing texts m out with
  | nil =>
    obtain rfl := List.forall₂_nil_left_iff.1 h
    refine ⟨m, 0, fun _ _ => rfl, fun fuel _ => ?_⟩
    have hnil : puts (con.live con.mainTerm) [] = [] := by
      cases con.live con.mainTerm <;> rfl
    rw [logLines, List.zipWith_nil_left, List.flatten_nil, hnil, List.append_nil, Run.run_nil]
  | cons call calls ih =>
    obtain ⟨l, texts, hcall, hcalls, rfl⟩ := List.forall₂_cons_left_iff.1 h
    obtain ⟨m₁, N₁, hkept₁, hstep⟩ := vlog_eq con hstrings hcall out
    obtain ⟨m', N', hkept', hrun⟩ := ih (LogStrings.At.congr hstrings hkept₁)
      (hcalls.imp fun _ _ hshows => Shows.congr hshows hkept₁)
      (out ++ puts (con.live con.mainTerm) (logLine call.level l))
    refine ⟨m', max N₁ N', fun x hx => (hkept' x hx).trans (hkept₁ x hx), fun fuel hfuel => ?_⟩
    have hlines : logLines (call :: calls) (l :: texts) =
        logLine call.level l ++ logLines calls texts := rfl
    rw [Run.run, hstep fuel (by omega), Option.bind_some, hrun fuel (by omega), hlines,
      puts_append, List.append_assoc]

variable [DecidableEq T] {t : T}

theorem filter_logLines (calls : List (LogCall F)) (texts : List (List (BitVec 8))) :
    (logLines calls texts).filter (· ≠ 0) =
      logLines calls (texts.map fun l => l.filter (· ≠ 0)) := by
  have hline (level : LogLevel) (l : List (BitVec 8)) :
      (logLine level l).filter (· ≠ 0) = logLine level (l.filter (· ≠ 0)) := by
    have htext : level.text.filter (· ≠ 0) = level.text := by
      cases level <;> rfl
    rw [logLine, List.filter_append, List.filter_append, List.filter_append, htext]
    rfl
  unfold logLines
  induction calls generalizing texts with
  | nil => rfl
  | cons call calls ih =>
    cases texts with
    | nil => rfl
    | cons l texts =>
      rw [List.zipWith_cons_cons, List.flatten_cons, List.filter_append, hline, ih]
      rfl

/-- A run of messages writes to the main terminal a line for each of them, in turn, and nothing to
another terminal; formats and strings stay as they were. -/
theorem log_run_writes (hstrings : strings.At m R str) {calls : List (LogCall F)}
    {texts : List (List (BitVec 8))}
    (h : List.Forall₂ (fun call l => call.Shows fp m R str l) calls texts)
    (hlive : con.live con.mainTerm = some t) (out : Output T) :
    ∃ m' out' N, (∀ fuel ≥ N, Run.run (con.vlog fp strings fuel) (m, out) calls =
        some (m', out')) ∧
      Writes t (logLines calls (texts.map fun l => l.filter (· ≠ 0))) out out' ∧
      ∀ x ∈ R, m' x = m x := by
  obtain ⟨m', N, hkept, hrun⟩ := run_vlog_eq con hstrings h out
  have hmain : con.live (some t) = some t := live_eq_some_iff.2 ⟨(live_eq_some_iff.1 hlive).1, rfl⟩
  have hwrites := writes_puts hmain (logLines calls texts) out
  rw [filter_logLines, hmain, ← hlive] at hwrites
  exact ⟨m', _, N, hrun, hwrites, hkept⟩

/-- The strings of the log, the formats of `panic` and `"hi"`, one behind another. -/
def logBytes : List (BitVec 8) :=
  0 :: LogLevel.text .info ++ 0 :: LogLevel.text .warn ++ 0 :: LogLevel.text .error ++
    0 :: LogLevel.text .unknown ++ [0, 37, 115, 58, 32, 0, 10, 0, 37, 115, 0,
      70, 105, 108, 101, 58, 32, 37, 115, 0, 76, 105, 110, 101, 58, 32, 37, 115, 0,
      70, 117, 110, 99, 116, 105, 111, 110, 58, 32, 37, 115, 0,
      83, 121, 115, 116, 101, 109, 32, 104, 97, 108, 116, 101, 100, 33, 0, 104, 105, 0]

def logBytesStrings : LogStrings :=
  ⟨fun | .info => 1 | .warn => 17 | .error => 33 | .unknown => 50, 58, 63⟩

def logBytesFormats : PanicStrings := ⟨65, 68, 77, 86, 99⟩

def logBytesStr (p : ℕ) : List (BitVec 8) := (logBytes.drop p).takeWhile (· ≠ 0)

theorem logBytesStrings_at :
    logBytesStrings.At (memOf logBytes) Set.univ logBytesStr where
  ne_zero level := by cases level <;> decide
  text level := by cases level <;> decide
  level_at level := by
    have htext : LogLevel.text level = logBytesStr (logBytesStrings.levelStr level).toNat := by
      cases level <;> decide
    rw [htext]
    exact Format.at_memOf (by cases level <;> decide)
  heading := Format.at_memOf (p := 58) (by decide)
  newline := Format.at_memOf (p := 63) (by decide)

theorem logBytesFormats_at : logBytesFormats.At (memOf logBytes) Set.univ where
  plain := Format.at_memOf (p := 65) (by decide)
  file := Format.at_memOf (p := 68) (by decide)
  line := Format.at_memOf (p := 77) (by decide)
  function := Format.at_memOf (p := 86) (by decide)
  halted := Format.at_memOf (p := 99) (by decide)

theorem stringAt_logBytes : StringAt (memOf logBytes) Set.univ logBytesStr 114 :=
  ⟨by decide, Format.at_memOf (by decide), by decide⟩

theorem log_run_writes_hi :
    ∃ m' out' N, (∀ fuel ≥ N, Run.run ((⟨true, some 0, fun _ => 80, fun _ => by decide⟩ :
        Console ℕ).vlog (F := Unit) (fun _ _ _ _ _ => []) logBytesStrings fuel)
          (memOf logBytes, []) [⟨.warn, 65, [.word 114]⟩, ⟨.unknown, 63, []⟩] = some (m', out')) ∧
      Writes 0 (logLine .warn [104, 105] ++ logLine .unknown [10]) [] out' ∧
      ∀ x ∈ Set.univ, m' x = memOf logBytes x := by
  have hhi : LogCall.Shows (F := Unit) (fun _ _ _ _ _ => []) (memOf logBytes) Set.univ
      logBytesStr ⟨.warn, 65, [.word 114]⟩ ([] ++ [104, 105]) :=
    shows_string _ _ stringAt_logBytes logBytesFormats_at.plain (by simp) (by simp)
  have hnewline : LogCall.Shows (F := Unit) (fun _ _ _ _ _ => []) (memOf logBytes) Set.univ
      logBytesStr ⟨.unknown, 63, []⟩ [10] :=
    shows_literal _ _ _ logBytesStrings_at.newline (by decide) (by decide)
  exact log_run_writes logBytesStrings_at (.cons hhi (.cons hnewline .nil)) rfl []

/-- An empty line and then a run of messages without NULs. -/
theorem newline_run_writes (hstrings : strings.At m R str) {calls : List (LogCall F)}
    {texts : List (List (BitVec 8))}
    (h : List.Forall₂ (fun call l => call.Shows fp m R str l) calls texts)
    (hclean : ∀ l ∈ texts, ∀ c ∈ l, c ≠ 0) (hlive : con.live con.mainTerm = some t)
    (out : Output T) :
    ∃ m' out' N, (∀ fuel ≥ N, ((con.vprintf fp fuel strings.newline [] m out).bind
        fun (m, out, _) => Run.run (con.vlog fp strings fuel) (m, out) calls) = some (m', out')) ∧
      Writes t ([10] ++ logLines calls texts) out out' := by
  have hnewline : LogCall.Shows fp m R str ⟨.info, strings.newline, []⟩ [10] :=
    shows_literal fp str _ hstrings.newline (by decide) (by decide)
  obtain ⟨m₁, N₁, hkept₁, hcall₁⟩ := vprintf_shows con hnewline out
  obtain ⟨m', N', -, hrun⟩ := run_vlog_eq con (LogStrings.At.congr hstrings hkept₁)
    (h.imp fun _ _ h => Shows.congr h hkept₁) (out ++ puts (con.live con.mainTerm) [10])
  have hsame : texts.map (fun l => l.filter (· ≠ 0)) = texts :=
    (List.map_congr_left fun l hl => List.filter_eq_self.2 fun c hc =>
      decide_eq_true (hclean l hl c hc)).trans texts.map_id
  have hmain : con.live (some t) = some t := live_eq_some_iff.2 ⟨(live_eq_some_iff.1 hlive).1, rfl⟩
  have hwrites := writes_puts hmain ([10] ++ logLines calls texts) out
  rw [List.filter_append, filter_logLines, hsame] at hwrites
  refine ⟨m', _, max N₁ N', fun fuel hfuel => ?_, hwrites⟩
  have hfirst := hcall₁ fuel (by omega)
  dsimp only at hfirst
  rw [hfirst, Option.bind_some]
  dsimp only
  rw [hrun fuel (by omega), List.append_assoc, ← puts_append, hlive, hmain]

/-- The messages of `panic`. The number of the source line is no part of them: the string that lies
at that address is. -/
def panicMessages (str : ℕ → List (BitVec 8)) (file line func message : BitVec 64) :
    List (List (BitVec 8)) :=
  [str message.toNat, [70, 105, 108, 101, 58, 32] ++ str file.toNat,
    [76, 105, 110, 101, 58, 32] ++ str line.toNat,
    [70, 117, 110, 99, 116, 105, 111, 110, 58, 32] ++ str func.toNat,
    [83, 121, 115, 116, 101, 109, 32, 104, 97, 108, 116, 101, 100, 33]]

/-- `panic` ends with an empty line and its five messages on the main terminal. -/
theorem panic_writes {formats : PanicStrings} {file line func message : BitVec 64}
    (hstrings : strings.At m R str) (hformats : formats.At m R) (hfile : StringAt m R str file)
    (hline : StringAt m R str line) (hfunc : StringAt m R str func)
    (hmessage : StringAt m R str message) (hlive : con.live con.mainTerm = some t)
    (out : Output T) :
    ∃ m' out' N, (∀ fuel ≥ N, con.panic fp strings formats fuel file line func message m out =
        some (m', out')) ∧
      Writes t ([10] ++ (panicMessages str file line func message).flatMap (logLine .error))
        out out' := by
  have hshows : List.Forall₂ (fun call l => LogCall.Shows fp m R str call l)
      (panicCalls formats file line func message) (panicMessages str file line func message) := by
    have hplain : LogCall.Shows fp m R str ⟨.error, formats.plain, [.word message]⟩
        ([] ++ str message.toNat) :=
      shows_string fp _ hmessage hformats.plain (by simp) (by simp)
    exact .cons hplain (.cons (shows_string fp _ hfile hformats.file (by decide) (by simp))
      (.cons (shows_string fp _ hline hformats.line (by decide) (by simp))
      (.cons (shows_string fp _ hfunc hformats.function (by decide) (by simp))
      (.cons (shows_literal fp str _ hformats.halted (by decide) (by decide)) .nil))))
  have hstring {p : BitVec 64} (hp : StringAt m R str p) : ∀ c ∈ str p.toNat, c ≠ 0 :=
    (isString_iff.1 hp.string.string).2.2
  refine newline_run_writes hstrings hshows (fun l hl => ?_) hlive out
  simp only [panicMessages, List.mem_cons, List.not_mem_nil, or_false] at hl
  rcases hl with rfl | rfl | rfl | rfl | rfl
  · exact hstring hmessage
  · exact List.forall_mem_append.2 ⟨by decide, hstring hfile⟩
  · exact List.forall_mem_append.2 ⟨by decide, hstring hline⟩
  · exact List.forall_mem_append.2 ⟨by decide, hstring hfunc⟩
  · decide

theorem panic_writes_hi :
    ∃ m' out' N, (∀ fuel ≥ N, (⟨true, some 0, fun _ => 80, fun _ => by decide⟩ :
        Console ℕ).panic (F := Unit) (fun _ _ _ _ _ => []) logBytesStrings logBytesFormats fuel
          114 114 114 114 (memOf logBytes) [] = some (m', out')) ∧
      Writes 0 ([10] ++ (panicMessages logBytesStr 114 114 114 114).flatMap (logLine .error))
        [] out' :=
  panic_writes logBytesStrings_at logBytesFormats_at stringAt_logBytes stringAt_logBytes
    stringAt_logBytes stringAt_logBytes rfl []

end Lines

end Console

end IceKernel
