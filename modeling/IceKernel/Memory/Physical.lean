import IceKernel.Lib.WindowScan
import IceKernel.Libc.Memory
import IceKernel.Utils.Math

/-!
# `memory/physical.cpp`: the page allocator

The globals of the translation unit are one state record. The bitmap is read
as an exact bit array, `true` standing for a page in use; its byte-level code
is the subject of `IceKernel.Utils.Bitmap`. Pointers are numbers, `nullptr` is 0.
-/

namespace IceKernel.Physical
open ByteMemory Word64

/-- The globals of `physical.cpp`. `touched` is a ghost: every index handed to `bitmap.get` or
`bitmap.set` so far, the latest first. -/
structure State where
  memUsableTop : ℕ := 0
  lastIndex : ℕ := 0
  bits : ℕ → Bool := fun _ => false
  bitmapBuffer : ℕ := 0
  bitmapSize : ℕ := 0
  usableMemory : ℕ := 0
  totalMemory : ℕ := 0
  usedMemory : ℕ := 0
  memTop : ℕ := 0
  touched : List ℕ := []

/-- The number of pages below `mem_usable_top`. -/
def State.pageCount (s : State) : ℕ := s.memUsableTop / pageSize

/-- `bitmap.get(index)`. -/
def State.get (s : State) (index : ℕ) : Bool × State :=
  (s.bits index, { s with touched := index :: s.touched })

/-- `bitmap.set(index, value)`. -/
def State.set (s : State) (index : ℕ) (value : Bool) : State :=
  { s with bits := Function.update s.bits index value, touched := index :: s.touched }

/-- The marking loops of `alloc` and `free`: `n` calls of `bitmap.set` from `page` up. -/
def State.setPages (value : Bool) (s : State) (page : ℕ) : ℕ → State
  | 0 => s
  | n + 1 => (State.setPages value s page n).set (page + n) value

/-- The `while` of `inner_alloc`. The first argument after `count` is `limit - last_index`, the
rounds it may still take, and `p` is its run counter. -/
def innerAllocLoop (count : ℕ) : ℕ → ℕ → State → ℕ × State
  | 0, _, s => (0, s)
  | n + 1, p, s =>
    let (used, s) := s.get s.lastIndex
    let s := { s with lastIndex := s.lastIndex + 1 }
    if used = false then
      if p + 1 = count then
        let page := s.lastIndex - count
        (page * pageSize, s.setPages true page (s.lastIndex - page))
      else innerAllocLoop count n (p + 1) s
    else innerAllocLoop count n 0 s

def innerAlloc (count limit : ℕ) (s : State) : ℕ × State :=
  innerAllocLoop count (limit - s.lastIndex) 0 s

/-- `physical::alloc`. An error is the message `panic` halts with. -/
def alloc (hhdmOffset count : ℕ) (s : State) (m : Mem) : Except String ℕ × State × Mem :=
  if count = 0 then (.ok 0, s, m)
  else
    let i := s.lastIndex
    let (ret, s) := innerAlloc count (s.memUsableTop / pageSize) s
    let (ret, s) := if ret = 0 then innerAlloc count i { s with lastIndex := 0 } else (ret, s)
    if ret = 0 then (.error "Physical Memory Manager: Out of memory!", s, m)
    else
      (.ok ret, { s with usedMemory := wrap (s.usedMemory + wrap (count * pageSize)) },
        memset m (tohh hhdmOffset ret) 0#8 (wrap (count * pageSize)))

/-- `physical::free`. -/
def free (ptr count : ℕ) (s : State) : State :=
  if ptr = 0 then s
  else
    let page := ptr / pageSize
    let s := s.setPages false page count
    { s with
      lastIndex := min s.lastIndex page
      usedMemory := sub s.usedMemory (wrap (count * pageSize)) }

/-! ## What the bitmap loops do -/

@[simp] theorem setPages_bits (v : Bool) (s : State) (page n q : ℕ) :
    (s.setPages v page n).bits q = if page ≤ q ∧ q < page + n then v else s.bits q := by
  induction n with
  | zero => rw [State.setPages, if_neg (by omega)]
  | succ n ih =>
    simp only [State.setPages, State.set]
    by_cases hq : q = page + n
    · rw [hq, Function.update_self, if_pos (by omega)]
    · rw [Function.update_of_ne hq, ih]
      exact if_congr (by omega) rfl rfl

theorem mem_setPages_touched (v : Bool) (s : State) (page n q : ℕ) :
    q ∈ (s.setPages v page n).touched ↔ (page ≤ q ∧ q < page + n) ∨ q ∈ s.touched := by
  induction n with
  | zero =>
    have h : ¬ (page ≤ q ∧ q < page + 0) := by omega
    simp only [State.setPages, h, false_or]
  | succ n ih =>
    simp only [State.setPages, State.set, List.mem_cons, ih]
    constructor
    · rintro (h | h | h)
      · exact Or.inl (by omega)
      · exact Or.inl (by omega)
      · exact Or.inr h
    · rintro (h | h)
      · by_cases hq : q = page + n
        · exact Or.inl hq
        · exact Or.inr (Or.inl (by omega))
      · exact Or.inr (Or.inr h)

/-- The parts of the state that neither `bitmap.get` nor `bitmap.set` can change. -/
def State.fixed (s : State) : ℕ × ℕ × ℕ × ℕ × ℕ × ℕ × ℕ :=
  (s.memUsableTop, s.bitmapBuffer, s.bitmapSize, s.usableMemory, s.totalMemory, s.usedMemory,
    s.memTop)

@[simp] theorem setPages_fixed (v : Bool) (s : State) (page n : ℕ) :
    (s.setPages v page n).fixed = s.fixed := by
  induction n with
  | zero => rfl
  | succ n ih => exact ih

@[simp] theorem setPages_lastIndex (v : Bool) (s : State) (page n : ℕ) :
    (s.setPages v page n).lastIndex = s.lastIndex := by
  induction n with
  | zero => rfl
  | succ n ih => exact ih

/-! ## `inner_alloc` is a window scan -/

/-- A page counts for the scan when its bit is clear. -/
def State.clearAt (s : State) (q : ℕ) : Bool := !s.bits q

/-- The state after `k` rounds that each read one bit and found no window. -/
def State.advance : ℕ → State → State
  | 0, s => s
  | k + 1, s =>
    State.advance k { s with lastIndex := s.lastIndex + 1, touched := s.lastIndex :: s.touched }

@[simp] theorem advance_bits (k : ℕ) (s : State) : (s.advance k).bits = s.bits := by
  induction k generalizing s with
  | zero => rfl
  | succ k ih => rw [State.advance, ih]

@[simp] theorem advance_fixed (k : ℕ) (s : State) : (s.advance k).fixed = s.fixed := by
  induction k generalizing s with
  | zero => rfl
  | succ k ih => rw [State.advance, ih]; rfl

@[simp] theorem advance_lastIndex (k : ℕ) (s : State) :
    (s.advance k).lastIndex = s.lastIndex + k := by
  induction k generalizing s with
  | zero => rfl
  | succ k ih => rw [State.advance, ih]; dsimp only; omega

theorem mem_advance_touched (k : ℕ) (s : State) (q : ℕ) :
    q ∈ (s.advance k).touched ↔ (s.lastIndex ≤ q ∧ q < s.lastIndex + k) ∨ q ∈ s.touched := by
  induction k generalizing s with
  | zero =>
    have h : ¬ (s.lastIndex ≤ q ∧ q < s.lastIndex + 0) := by omega
    simp only [State.advance, h, false_or]
  | succ k ih =>
    rw [State.advance, ih]
    simp only [List.mem_cons]
    by_cases hq : q = s.lastIndex
    · simp only [hq, true_or, or_true, true_iff]
      exact Or.inl (by omega)
    · simp only [hq, false_or]
      exact or_congr_left (by omega)

/-- The loop of `inner_alloc` reads on until the scan finds its window, then marks it. -/
theorem innerAllocLoop_eq (count n p : ℕ) (s : State) :
    innerAllocLoop count n p s =
      match WindowScan.scan s.clearAt count n s.lastIndex p with
      | none => (0, s.advance n)
      | some j => ((j - count) * pageSize,
          (s.advance (j - s.lastIndex)).setPages true (j - count) (j - (j - count))) := by
  induction n generalizing p s with
  | zero => rfl
  | succ n ih =>
    let t : State :=
      { s with lastIndex := s.lastIndex + 1, touched := s.lastIndex :: s.touched }
    -- one round either finishes the window or continues from `t` with the new run counter
    have hrec (p' : ℕ) : innerAllocLoop count n p' t =
        match WindowScan.scan s.clearAt count n (s.lastIndex + 1) p' with
        | none => (0, s.advance (n + 1))
        | some j => ((j - count) * pageSize,
            (s.advance (j - s.lastIndex)).setPages true (j - count) (j - (j - count))) := by
      rw [ih p' t]
      change (match WindowScan.scan s.clearAt count n (s.lastIndex + 1) p' with
        | none => (0, t.advance n)
        | some j => ((j - count) * pageSize,
          (t.advance (j - (s.lastIndex + 1))).setPages true (j - count) (j - (j - count)))) = _
      cases hs : WindowScan.scan s.clearAt count n (s.lastIndex + 1) p' with
      | none => rfl
      | some j =>
        dsimp only
        have hj := (WindowScan.scan_bounds hs).1
        rw [show j - s.lastIndex = j - (s.lastIndex + 1) + 1 by omega]
        rfl
    by_cases hb : s.bits s.lastIndex = false
    · have hc : s.clearAt s.lastIndex = true := by simp [State.clearAt, hb]
      by_cases hp : p + 1 = count
      · simp only [innerAllocLoop, State.get, WindowScan.scan, hb, hc, hp, if_true]
        rw [show s.lastIndex + 1 - s.lastIndex = 1 by omega]
        rfl
      · simp only [innerAllocLoop, State.get, WindowScan.scan, hb, hc, hp, if_true, if_false]
        exact hrec (p + 1)
    · have hc : s.clearAt s.lastIndex = false := by simpa [State.clearAt] using hb
      simp only [innerAllocLoop, State.get, WindowScan.scan, hb, hc, if_false,
        Bool.false_eq_true]
      exact hrec 0

/-- A window of `count` clear bits below the top of usable memory. -/
def State.ClearRun (s : State) (a count : ℕ) : Prop :=
  a + count ≤ s.pageCount ∧ WindowScan.Window s.clearAt a count

theorem window_clear {s : State} {a n : ℕ} :
    WindowScan.Window s.clearAt a n ↔ ∀ q, a ≤ q → q < a + n → s.bits q = false := by
  simp [WindowScan.Window, State.clearAt]

/-- One pass, provided page 0 is in use so that success is never taken for `nullptr`. -/
theorem innerAlloc_cases {count limit : ℕ} {s : State} (hc : 0 < count)
    (h0 : s.bits 0 = true) (hle : s.lastIndex ≤ limit) :
    (innerAlloc count limit s = (0, s.advance (limit - s.lastIndex)) ∧
      ∀ a, s.lastIndex ≤ a → a + count ≤ limit → ¬ WindowScan.Window s.clearAt a count) ∨
    ∃ page, 0 < page ∧ s.lastIndex ≤ page ∧ page + count ≤ limit ∧
      WindowScan.Window s.clearAt page count ∧
      innerAlloc count limit s = (page * pageSize,
        (s.advance (page + count - s.lastIndex)).setPages true page count) := by
  rw [innerAlloc, innerAllocLoop_eq]
  cases hs : WindowScan.scan s.clearAt count (limit - s.lastIndex) s.lastIndex 0 with
  | none =>
    refine Or.inl ⟨rfl, fun a ha hl => ?_⟩
    exact WindowScan.scan_complete hc (Nat.zero_le _) hs (by omega) (by omega)
  | some j =>
    obtain ⟨hcj, hlow, hw⟩ := WindowScan.scan_sound hc (Nat.zero_le _)
      (fun q hq hlt => absurd hlt (by omega)) hs
    have hj := (WindowScan.scan_bounds hs).2
    have hpos : 0 < j - count := by
      by_contra hz
      have := window_clear.mp hw 0 (by omega) (by omega)
      rw [h0] at this
      exact Bool.noConfusion this
    refine Or.inr ⟨j - count, hpos, by omega, by omega, hw, ?_⟩
    dsimp only
    rw [show j - count + count = j by omega, show j - (j - count) = count by omega]

theorem alloc_of_first {count ret : ℕ} {s t : State} (off : ℕ) (m : Mem) (hc : 0 < count)
    (h : innerAlloc count s.pageCount s = (ret, t)) (hret : ret ≠ 0) :
    alloc off count s m =
      (.ok ret, { t with usedMemory := wrap (t.usedMemory + wrap (count * pageSize)) },
        memset m (tohh off ret) 0#8 (wrap (count * pageSize))) := by
  rw [State.pageCount] at h
  simp only [alloc, hc.ne', if_false, h, hret]

theorem alloc_of_second {count ret : ℕ} {s t u : State} (off : ℕ) (m : Mem) (hc : 0 < count)
    (h : innerAlloc count s.pageCount s = (0, t))
    (h' : innerAlloc count s.lastIndex { t with lastIndex := 0 } = (ret, u)) :
    alloc off count s m =
      if ret = 0 then (.error "Physical Memory Manager: Out of memory!", u, m)
      else (.ok ret, { u with usedMemory := wrap (u.usedMemory + wrap (count * pageSize)) },
        memset m (tohh off ret) 0#8 (wrap (count * pageSize))) := by
  rw [State.pageCount] at h
  simp only [alloc, hc.ne', if_false, h, if_true, h']

/-- `s'` is `s` with one window marked, the cursor after it, and its pages charged. -/
structure Marked (s : State) (page count : ℕ) (s' : State) : Prop where
  bits : ∀ q, s'.bits q = if page ≤ q ∧ q < page + count then true else s.bits q
  lastIndex : s'.lastIndex = page + count
  fixed : s'.fixed =
    { s with usedMemory := wrap (s.usedMemory + wrap (count * pageSize)) }.fixed

theorem fixed_usedMemory {s t : State} (h : t.fixed = s.fixed) (f : ℕ → ℕ) :
    { t with usedMemory := f t.usedMemory }.fixed =
      { s with usedMemory := f s.usedMemory }.fixed := by
  simp only [State.fixed, Prod.mk.injEq] at h ⊢
  obtain ⟨h1, h2, h3, h4, h5, h6, h7⟩ := h
  simp [h1, h2, h3, h4, h5, h6, h7]

theorem Marked.of_setPages {s t : State} {page count : ℕ} (hb : t.bits = s.bits)
    (hf : t.fixed = s.fixed) (hl : t.lastIndex = page + count) :
    Marked s page count { t.setPages true page count with
      usedMemory := wrap ((t.setPages true page count).usedMemory + wrap (count * pageSize)) } where
  bits q := by
    rw [← hb]
    exact setPages_bits true t page count q
  lastIndex := by simpa using hl
  fixed := fixed_usedMemory ((setPages_fixed true t page count).trans hf)
    fun u => wrap (u + wrap (count * pageSize))

/-- What `alloc` can do: mark one window that lies on one side of the cursor, or panic because
neither side holds one. -/
theorem alloc_cases {count : ℕ} {s : State} (off : ℕ) (m : Mem) (hc : 0 < count)
    (h0 : s.bits 0 = true) (hle : s.lastIndex ≤ s.pageCount) :
    (∃ page s', 0 < page ∧ s.ClearRun page count ∧
      (s.lastIndex ≤ page ∨ page + count ≤ s.lastIndex) ∧ Marked s page count s' ∧
      alloc off count s m = (.ok (page * pageSize), s',
        memset m (tohh off (page * pageSize)) 0#8 (wrap (count * pageSize)))) ∨
    ((∀ a, s.ClearRun a count → a < s.lastIndex ∧ s.lastIndex < a + count) ∧
      ∃ s', alloc off count s m =
        (.error "Physical Memory Manager: Out of memory!", s', m)) := by
  have hne (page : ℕ) (hpos : 0 < page) : page * pageSize ≠ 0 :=
    (Nat.mul_pos hpos (by norm_num [pageSize])).ne'
  rcases innerAlloc_cases hc h0 hle with ⟨h1, hno1⟩ | ⟨page, hpos, hlo, hhi, hw, h1⟩
  · -- nothing above the cursor: the second pass starts over from page 0
    let t : State := { s.advance (s.pageCount - s.lastIndex) with lastIndex := 0 }
    have htb : t.bits = s.bits := advance_bits _ s
    have htc : t.clearAt = s.clearAt := by
      funext q
      simp only [State.clearAt, htb]
    have htf : t.fixed = s.fixed := advance_fixed _ s
    rcases innerAlloc_cases (s := t) hc (by rw [htb]; exact h0) (Nat.zero_le s.lastIndex) with
      ⟨h2, hno2⟩ | ⟨page, hpos, -, hhi, hw, h2⟩
    · have he := alloc_of_second off m hc h1 h2
      rw [if_pos rfl] at he
      refine Or.inr ⟨fun a ha => ?_, _, he⟩
      by_contra hside
      rcases Nat.lt_or_ge a s.lastIndex with hlt | hge
      · exact hno2 a (Nat.zero_le _) (by omega) (by rw [htc]; exact ha.2)
      · exact hno1 a hge ha.1 ha.2
    · have he := alloc_of_second off m hc h1 h2
      rw [if_neg (hne page hpos)] at he
      refine Or.inl ⟨page, _, hpos, ⟨by omega, by rwa [htc] at hw⟩, Or.inr hhi, ?_, he⟩
      apply Marked.of_setPages
      · rw [advance_bits, htb]
      · rw [advance_fixed, htf]
      · rw [advance_lastIndex]
        exact Nat.zero_add _
  · have he := alloc_of_first off m hc h1 (hne page hpos)
    refine Or.inl ⟨page, _, hpos, ⟨hhi, hw⟩, Or.inl hlo, ?_, he⟩
    apply Marked.of_setPages (advance_bits _ s) (advance_fixed _ s)
    rw [advance_lastIndex]
    omega

end IceKernel.Physical
