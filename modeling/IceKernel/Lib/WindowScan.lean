import Mathlib.Tactic.Common
import Mathlib.Order.Interval.Finset.Nat

namespace WindowScan

/-- The cells `[a, a + n)` of a Boolean array all hold. -/
def Window (f : ℕ → Bool) (a n : ℕ) : Prop := ∀ q, a ≤ q → q < a + n → f q = true

/-- Scan `n` cells upwards from `i` for `count` consecutive cells that hold, `p` cells having
already been counted just below `i`. The answer is the index after the last cell counted. -/
def scan (f : ℕ → Bool) (count : ℕ) : ℕ → ℕ → ℕ → Option ℕ
  | 0, _, _ => none
  | n + 1, i, p =>
    if f i then
      if p + 1 = count then some (i + 1) else scan f count n (i + 1) (p + 1)
    else scan f count n (i + 1) 0

variable {f : ℕ → Bool} {count : ℕ}

theorem Window.extend {a n : ℕ} (h : Window f a n) (hf : f (a + n) = true) :
    Window f a (n + 1) := by
  intro q hq hlt
  rcases Nat.lt_or_ge q (a + n) with hl | hg
  · exact h q hq hl
  · obtain rfl : q = a + n := by omega
    exact hf

theorem scan_bounds {n i p j : ℕ} (h : scan f count n i p = some j) : i < j ∧ j ≤ i + n := by
  induction n generalizing i p with
  | zero => simp [scan] at h
  | succ n ih =>
    simp only [scan] at h
    split_ifs at h with hf hc
    · obtain rfl : i + 1 = j := by simpa using h
      omega
    · have := ih h
      omega
    · have := ih h
      omega

/-- A window the scan reports holds throughout, and lies above the cells it started from. -/
theorem scan_sound {n i p j : ℕ} (hp : p < count) (hpi : p ≤ i) (hw : Window f (i - p) p)
    (h : scan f count n i p = some j) :
    count ≤ j ∧ i - p ≤ j - count ∧ Window f (j - count) count := by
  induction n generalizing i p with
  | zero => simp [scan] at h
  | succ n ih =>
    by_cases hf : f i = true
    · have hw' : Window f (i + 1 - (p + 1)) (p + 1) := by
        rw [show i + 1 - (p + 1) = i - p by omega]
        exact hw.extend (by rw [show i - p + p = i by omega]; exact hf)
      by_cases hc : p + 1 = count
      · simp only [scan, hf, if_true, hc, Option.some.injEq] at h
        subst h
        rw [hc] at hw'
        exact ⟨by omega, by omega, hw'⟩
      · simp only [scan, hf, if_true, hc, if_false] at h
        obtain ⟨h1, h2, h3⟩ := ih (by omega) (by omega) hw' h
        exact ⟨h1, by omega, h3⟩
    · simp only [scan, hf] at h
      obtain ⟨h1, h2, h3⟩ := ih (by omega) (by omega)
        (fun q hq hlt => absurd hlt (by omega)) h
      exact ⟨h1, by omega, h3⟩

/-- A scan that reports nothing leaves no window inside the cells it counted or read. -/
theorem scan_complete {n i p : ℕ} (hp : p < count) (hpi : p ≤ i)
    (h : scan f count n i p = none) {a : ℕ} (ha : i - p ≤ a) (hn : a + count ≤ i + n) :
    ¬ Window f a count := by
  induction n generalizing i p with
  | zero => omega
  | succ n ih =>
    intro hw
    by_cases hf : f i = true
    · by_cases hc : p + 1 = count
      · simp [scan, hf, hc] at h
      · simp only [scan, hf, if_true, hc, if_false] at h
        exact ih (by omega) (by omega) h (by omega) (by omega) hw
    · simp only [scan, hf] at h
      -- the window cannot contain the cell just read, so it starts above it
      have hi : i < a := by
        by_contra hle
        exact hf (hw i (by omega) (by omega))
      exact ih (by omega) (by omega) h (by omega) (by omega) hw

end WindowScan
