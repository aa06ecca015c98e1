import Mathlib.Data.Option.Basic
import Mathlib.Order.Lattice
import Mathlib.Tactic.Common

namespace Run

variable {σ α ε : Type*}

/-- A finite sequence of events; it stops at the first event the step refuses. -/
def run (step : σ → ε → Option σ) : σ → List ε → Option σ
  | s, [] => some s
  | s, e :: es => (step s e).bind fun s' => run step s' es

variable {step : σ → ε → Option σ}

@[simp] theorem run_nil (s : σ) : run step s [] = some s := rfl

theorem run_cons_eq_some {s t : σ} {e : ε} {es : List ε} :
    run step s (e :: es) = some t ↔ ∃ s', step s e = some s' ∧ run step s' es = some t := by
  simp only [run, Option.bind_eq_some_iff]

/-- The simulation rule: a relation kept by every single step is kept by every run, the
abstract side performing the same events. -/
theorem run_simulates {f : α → ε → α} {R : σ → α → Prop}
    (hstep : ∀ s a e s', R s a → step s e = some s' → R s' (f a e))
    {s t : σ} {a : α} {es : List ε} (h0 : R s a) (h : run step s es = some t) :
    R t (es.foldl f a) := by
  induction es generalizing s a with
  | nil =>
    obtain rfl : s = t := by simpa using h
    exact h0
  | cons e es ih =>
    obtain ⟨s', hs, hr⟩ := run_cons_eq_some.mp h
    exact ih (hstep s a e s' h0 hs) hr

/-- The invariant rule: a simulation with nothing on the abstract side. -/
theorem run_invariant {I : σ → Prop}
    (hstep : ∀ s e s', I s → step s e = some s' → I s')
    {s t : σ} {es : List ε} (h0 : I s) (h : run step s es = some t) : I t :=
  run_simulates (a := ()) (f := fun _ _ => ()) (R := fun s _ => I s)
    (fun s _ e s' hi hs => hstep s e s' hi hs) h0 h

/-- Every event of a run meets the condition `C` at its turn. -/
def Along (step : σ → ε → Option σ) (C : σ → ε → Prop) : σ → List ε → Prop
  | _, [] => True
  | s, e :: es => C s e ∧ ∀ s', step s e = some s' → Along step C s' es

instance decidableAlong {C : σ → ε → Prop} [∀ s e, Decidable (C s e)] :
    ∀ (s : σ) (es : List ε), Decidable (Along step C s es)
  | _, [] => isTrue trivial
  | s, e :: es =>
    haveI : Decidable (∀ s', step s e = some s' → Along step C s' es) :=
      match step s e with
      | none => isTrue fun _ h => nomatch h
      | some s₁ =>
        haveI := decidableAlong (C := C) s₁ es
        decidable_of_iff (Along step C s₁ es) (by simp)
    inferInstanceAs (Decidable (C s e ∧ _))

/-- The invariant rule for runs whose events all meet a condition. -/
theorem run_invariant_along {I : σ → Prop} {C : σ → ε → Prop}
    (hstep : ∀ s e s', I s → C s e → step s e = some s' → I s')
    {s t : σ} {es : List ε} (h0 : I s) (hC : Along step C s es)
    (h : run step s es = some t) : I t := by
  induction es generalizing s with
  | nil =>
    obtain rfl : s = t := by simpa using h
    exact h0
  | cons e es ih =>
    obtain ⟨s', hs, hr⟩ := run_cons_eq_some.mp h
    exact ih (hstep s e s' h0 hC.1 hs) (hC.2 s' hs) hr

/-- The total simulation rule: where the condition makes every step succeed and keep the
relation, the run succeeds. -/
theorem run_total_along {f : α → ε → α} {R : σ → α → Prop} {C : σ → ε → Prop}
    (hstep : ∀ s a e, R s a → C s e → ∃ s', step s e = some s' ∧ R s' (f a e))
    {s : σ} {a : α} {es : List ε} (h0 : R s a) (hC : Along step C s es) :
    ∃ t, run step s es = some t ∧ R t (es.foldl f a) := by
  induction es generalizing s a with
  | nil => exact ⟨s, rfl, h0⟩
  | cons e es ih =>
    obtain ⟨s', hs, hR⟩ := hstep s a e h0 hC.1
    obtain ⟨t, ht, hRt⟩ := ih hR (hC.2 s' hs)
    exact ⟨t, run_cons_eq_some.mpr ⟨s', hs, ht⟩, hRt⟩

/-- A loop with fuel ends with one result. -/
theorem result_unique {loop : ℕ → Option α} {a b : α} (ha : ∃ N, ∀ fuel ≥ N, loop fuel = some a)
    (hb : ∃ N, ∀ fuel ≥ N, loop fuel = some b) : a = b := by
  obtain ⟨N, hN⟩ := ha
  obtain ⟨N', hN'⟩ := hb
  have hboth := (hN (max N N') (le_max_left _ _)).symm.trans (hN' _ (le_max_right _ _))
  exact Option.some.inj hboth

end Run
