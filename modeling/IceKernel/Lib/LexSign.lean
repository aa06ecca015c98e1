import Mathlib.Data.Int.Notation
import Mathlib.Data.List.Basic

namespace LexSign

variable {α : Type*}

/-- The sign of `r` says how `a` compares with `b`. -/
structure SignOf [LT α] (r : ℤ) (a b : α) : Prop where
  neg : r < 0 ↔ a < b
  zero : r = 0 ↔ a = b
  pos : 0 < r ↔ b < a

/-- Two lists agree up to the place where the one has `x` and the other `y`. -/
def FirstDiff (a b : List α) (x y : α) : Prop :=
  ∃ l a' b', a = l ++ x :: a' ∧ b = l ++ y :: b' ∧ x ≠ y

/-! ## Signs -/

section Sign

variable [LT α] {a b c : α} {r r' r'' : ℤ}

/-- Comparing the other way round turns the sign. -/
theorem SignOf.antisymm (h : SignOf r a b) (h' : SignOf r' b a) : r < 0 ↔ 0 < r' :=
  h.neg.trans h'.pos.symm

theorem SignOf.trans [Trans (α := α) (· < ·) (· < ·) (· < ·)] (h : SignOf r a b)
    (h' : SignOf r' b c) (h'' : SignOf r'' a c) (hr : r < 0) (hr' : r' < 0) : r'' < 0 := by
  have hab : a < b := h.neg.1 hr
  have hbc : b < c := h'.neg.1 hr'
  exact h''.neg.2 (Trans.trans hab hbc)

theorem signOf_zero [Std.Irrefl (α := α) (· < ·)] (a : α) : SignOf 0 a a :=
  ⟨by simp [Std.Irrefl.irrefl], by simp, by simp [Std.Irrefl.irrefl]⟩

/-- What one test returns is the sign of two different values if the test is their order. -/
theorem signOf_ite_iff [Std.Asymm (α := α) (· < ·)] [Std.Trichotomous (α := α) (· < ·)]
    (hne : a ≠ b) (p : Prop) [Decidable p] : SignOf (if p then -1 else 1) a b ↔ (p ↔ a < b) := by
  have hgt : b < a ↔ ¬ a < b :=
    ⟨fun hba => Std.Asymm.asymm _ _ hba, fun hab => by_contra fun hba =>
      hne (Std.Trichotomous.trichotomous (r := (· < ·)) a b hab hba)⟩
  constructor
  · intro h
    rw [← h.neg]
    by_cases hp : p <;> simp [hp]
  · intro h
    refine ⟨?_, iff_of_false ?_ hne, ?_⟩
    · rw [← h]
      by_cases hp : p <;> simp [hp]
    · by_cases hp : p <;> simp [hp]
    · rw [hgt, ← h]
      by_cases hp : p <;> simp [hp]

theorem signOf_congr {β : Type*} [LT β] {c d : β} (hlt : a < b ↔ c < d) (heq : a = b ↔ c = d)
    (hgt : b < a ↔ d < c) : SignOf r a b ↔ SignOf r c d := by
  constructor
  · intro h
    exact ⟨h.neg.trans hlt, h.zero.trans heq, h.pos.trans hgt⟩
  · intro h
    exact ⟨h.neg.trans hlt.symm, h.zero.trans heq.symm, h.pos.trans hgt.symm⟩

end Sign

/-! ## The first difference -/

theorem FirstDiff.symm {a b : List α} {x y : α} (h : FirstDiff a b x y) : FirstDiff b a y x := by
  obtain ⟨l, a', b', ha, hb, hne⟩ := h
  exact ⟨l, b', a', hb, ha, hne.symm⟩

theorem FirstDiff.ne {a b : List α} {x y : α} (h : FirstDiff a b x y) : x ≠ y := by
  obtain ⟨_, _, _, _, _, hne⟩ := h
  exact hne

theorem FirstDiff.cons {a b : List α} {x y : α} (c : α) (h : FirstDiff a b x y) :
    FirstDiff (c :: a) (c :: b) x y := by
  obtain ⟨l, a', b', rfl, rfl, hne⟩ := h
  exact ⟨c :: l, a', b', rfl, rfl, hne⟩

theorem FirstDiff.head {x y : α} (a b : List α) (hne : x ≠ y) :
    FirstDiff (x :: a) (y :: b) x y :=
  ⟨[], a, b, rfl, rfl, hne⟩

/-- The first difference is at the head or behind equal heads. -/
theorem firstDiff_cons {a b : List α} {c d x y : α} :
    FirstDiff (c :: a) (d :: b) x y ↔
      (c ≠ d ∧ x = c ∧ y = d) ∨ (c = d ∧ FirstDiff a b x y) := by
  constructor
  · rintro ⟨l, a', b', ha, hb, hne⟩
    cases l with
    | nil =>
      obtain ⟨rfl, -⟩ := List.cons.inj ha
      obtain ⟨rfl, -⟩ := List.cons.inj hb
      exact .inl ⟨hne, rfl, rfl⟩
    | cons e l =>
      obtain ⟨rfl, rfl⟩ := List.cons.inj ha
      obtain ⟨rfl, rfl⟩ := List.cons.inj hb
      exact .inr ⟨rfl, l, a', b', rfl, rfl, hne⟩
  · rintro (⟨hne, rfl, rfl⟩ | ⟨rfl, h⟩)
    · exact FirstDiff.head a b hne
    · exact h.cons c

/-- There is one first difference. -/
theorem FirstDiff.unique {a b : List α} {x y x' y' : α} (h : FirstDiff a b x y)
    (h' : FirstDiff a b x' y') : x = x' ∧ y = y' := by
  obtain ⟨l, a', b', rfl, rfl, hne⟩ := h
  induction l with
  | nil =>
    rcases firstDiff_cons.1 h' with ⟨-, rfl, rfl⟩ | ⟨heq, -⟩
    · exact ⟨rfl, rfl⟩
    · exact absurd heq hne
  | cons c l ih =>
    rcases firstDiff_cons.1 h' with ⟨hcc, -⟩ | ⟨-, htail⟩
    · exact absurd rfl hcc
    · exact ih htail

/-- Lists of one length that differ have a first difference. -/
theorem exists_firstDiff {a b : List α} (hlen : a.length = b.length) (hne : a ≠ b) :
    ∃ x y, FirstDiff a b x y := by
  induction a generalizing b with
  | nil => exact absurd (List.length_eq_zero_iff.1 hlen.symm).symm hne
  | cons c a ih =>
    obtain ⟨d, b, rfl⟩ := List.exists_of_length_succ b hlen.symm
    by_cases hcd : c = d
    · subst hcd
      obtain ⟨x, y, h⟩ := ih (Nat.succ.inj hlen) fun hab => hne (congrArg _ hab)
      exact ⟨x, y, h.cons c⟩
    · exact ⟨c, d, FirstDiff.head a b hcd⟩

/-- Different lists without `t` differ before or at a `t` put at their ends. -/
theorem exists_firstDiff_terminated {a b : List α} {t : α} (ha : t ∉ a) (hb : t ∉ b)
    (hne : a ≠ b) : ∃ x y, FirstDiff (a ++ [t]) (b ++ [t]) x y := by
  induction a generalizing b with
  | nil =>
    obtain ⟨d, b, rfl⟩ := List.exists_cons_of_ne_nil hne.symm
    exact ⟨t, d, FirstDiff.head [] (b ++ [t]) (List.ne_of_not_mem_cons hb)⟩
  | cons c a ih =>
    rw [List.mem_cons, not_or] at ha
    cases b with
    | nil => exact ⟨c, t, FirstDiff.head (a ++ [t]) [] (Ne.symm ha.1)⟩
    | cons d b =>
      rw [List.mem_cons, not_or] at hb
      by_cases hcd : c = d
      · subst hcd
        obtain ⟨x, y, h⟩ := ih ha.2 hb.2 fun hab => hne (congrArg _ hab)
        exact ⟨x, y, h.cons c⟩
      · exact ⟨c, d, FirstDiff.head (a ++ [t]) (b ++ [t]) hcd⟩

theorem FirstDiff.lists_ne {a b : List α} {x y : α} (h : FirstDiff a b x y) : a ≠ b := by
  rintro rfl
  obtain ⟨l, a', b', ha, hb, hne⟩ := h
  rw [ha] at hb
  exact hne (List.cons.inj (List.append_cancel_left hb)).1

section Order

variable [LT α] [Std.Asymm (α := α) (· < ·)] {a b : List α} {x y t : α}

theorem FirstDiff.lt_iff (h : FirstDiff a b x y) : a < b ↔ x < y := by
  obtain ⟨l, a', b', rfl, rfl, hne⟩ := h
  induction l with
  | nil => simp [List.cons_lt_cons_iff, hne]
  | cons c l ih => simpa using ih

/-- Lists compare as their first difference does. -/
theorem FirstDiff.signOf_iff (h : FirstDiff a b x y) {r : ℤ} : SignOf r a b ↔ SignOf r x y := by
  have hlists : a = b ↔ x = y := iff_of_false h.lists_ne h.ne
  exact signOf_congr h.lt_iff hlists h.symm.lt_iff

/-- A terminator below all that the lists hold does not change how they compare. -/
theorem terminated_lt_iff (ha : ∀ c ∈ a, t < c) (hb : ∀ c ∈ b, t < c) :
    a ++ [t] < b ++ [t] ↔ a < b := by
  induction a generalizing b with
  | nil =>
    cases b with
    | nil => simp [Std.Irrefl.irrefl]
    | cons d b => simp [List.cons_lt_cons_iff, hb d List.mem_cons_self]
  | cons c a ih =>
    have htc : t < c := ha c List.mem_cons_self
    cases b with
    | nil =>
      have hct : ¬ c < t := Std.Asymm.asymm _ _ htc
      have hne : c ≠ t := fun h => hct (h ▸ htc)
      simp [List.cons_lt_cons_iff, hct, hne]
    | cons d b =>
      rw [List.cons_append, List.cons_append, List.cons_lt_cons_iff, List.cons_lt_cons_iff,
        ih (fun e he => ha e (List.mem_cons_of_mem c he))
          fun e he => hb e (List.mem_cons_of_mem d he)]

theorem signOf_terminated_iff (ha : ∀ c ∈ a, t < c) (hb : ∀ c ∈ b, t < c) {r : ℤ} :
    SignOf r (a ++ [t]) (b ++ [t]) ↔ SignOf r a b := by
  have heq : a ++ [t] = b ++ [t] ↔ a = b := List.append_left_inj [t]
  exact signOf_congr (terminated_lt_iff ha hb) heq (terminated_lt_iff hb ha)

end Order

end LexSign
