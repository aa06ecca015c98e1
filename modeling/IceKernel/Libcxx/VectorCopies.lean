import IceKernel.Libcxx.VectorCalls

/-!
# Copies of vectors

A copy is made at any point of a history, and elements are added to it.
-/

namespace IceKernel.Libcxx
open Word64 Slots Function

namespace StdVector

variable {T : Type}

/-- The members that add elements, called on the vector `w`. -/
def AddsTo (w : ℕ) : Call T → Prop
  | .op (.pushBack v _) | .op (.emplaceBack v _) | .op (.insert v _ _) | .op (.resize v _ _)
  | .resizeTo v _ | .insertRange v _ _ => v = w
  | _ => False

/-- The call `c` makes `w` a full copy of `v`: it has the same elements, in a buffer of its
capacity. Whatever is then added to `w` stays in its buffers, and `v` does not change. -/
structure CopiesFully [Inhabited T] (s : Vectors T) (c : Call T) (v w : ℕ) (s' : Vectors T) :
    Prop where
  step : callStep s c = some s'
  elements : (s'.vec w).elements = (s.vec v).elements
  slots : (s'.vec w).ptr.length = (s'.vec w).cap
  adding : ∀ later, (∀ c ∈ later, AddsTo w c) → Run.Along callStep CallValid s' later →
    ∃ t, Run.run callStep s' later = some t ∧ (t.vec v).elements = (s.vec v).elements ∧
      (t.vec v).sz = (s.vec v).sz

section

variable [Inhabited T] {s s' t : Vectors T} {c : Call T} {v w : ℕ}

theorem AddsTo.frame (hc : AddsTo w c) (hs : callStep s c = some s') (hne : v ≠ w) :
    s'.vec v = s.vec v := by
  obtain ⟨vec, hvec, rfl⟩ := Option.map_eq_some_iff.mp hs
  have hset (x : Option (StdVector T)) (hx : x.map (update s.vec w) = some vec) :
      vec v = s.vec v := by
    obtain ⟨y, -, rfl⟩ := Option.map_eq_some_iff.mp hx
    exact update_of_ne hne _ _
  cases c with
  | op o =>
    cases o with
    | pushBack u x =>
      obtain rfl : u = w := hc
      exact hset _ hvec
    | emplaceBack u x =>
      obtain rfl : u = w := hc
      obtain ⟨r, -, rfl⟩ := Option.map_eq_some_iff.mp hvec
      exact update_of_ne hne _ _
    | insert u pos x =>
      obtain rfl : u = w := hc
      obtain ⟨r, -, rfl⟩ := Option.map_eq_some_iff.mp hvec
      exact update_of_ne hne _ _
    | resize u n x =>
      obtain rfl : u = w := hc
      exact hset _ hvec
    | _ => exact absurd hc id
  | resizeTo u n =>
    obtain rfl : u = w := hc
    exact hset _ hvec
  | insertRange u pos src =>
    obtain rfl : u = w := hc
    obtain ⟨r, -, rfl⟩ := Option.map_eq_some_iff.mp hvec
    exact update_of_ne hne _ _
  | _ => exact absurd hc id

omit [Inhabited T] in
theorem AddsTo.fullSource (hc : AddsTo w c) : FullSource s c := by
  cases c with
  | copyConstruct v other => exact absurd hc id
  | copyAssign v other => exact absurd hc id
  | _ => trivial

/-- Adding to one vector works and leaves the others alone. -/
theorem run_adding (hs : Sound s.vec) (hne : v ≠ w) {later : List (Call T)}
    (hadds : ∀ c ∈ later, AddsTo w c) (hvalid : Run.Along callStep CallValid s later) :
    ∃ t, Run.run callStep s later = some t ∧ t.vec v = s.vec v := by
  induction later generalizing s with
  | nil => exact ⟨s, rfl, rfl⟩
  | cons c later ih =>
    have hc := hadds c List.mem_cons_self
    obtain ⟨s', hs', hsound⟩ := hs.callStep hvalid.1 hc.fullSource
    obtain ⟨t, ht, hsame⟩ :=
      ih hsound (fun c hc => hadds c (List.mem_cons_of_mem _ hc)) (hvalid.2 s' hs')
    exact ⟨t, Run.run_cons_eq_some.mpr ⟨s', hs', ht⟩, hsame.trans (hc.frame hs' hne)⟩

/-- Both copies give the new vector the same three fields. -/
theorem callVec_copy (hs : Sound s.vec) (hne : v ≠ w)
    (hc : c = .copyConstruct w v ∨ c = .copyAssign w v) :
    callVec s.vec c =
      some (update s.vec w ⟨(s.vec v).elements, (s.vec v).sz, (s.vec v).cap⟩) := by
  have hcopy := (hs.holds v).1.copyConstruct
  obtain rfl | rfl := hc
  · rw [callVec, hcopy, Option.map_some]
  · have hcopy' : copyAssign (s.vec w) (s.vec v) = some _ := hcopy
    rw [callVec, if_neg hne.symm, hcopy', Option.map_some]

/-- A copy of a reached vector is full if and only if the vector itself is. -/
theorem copiesFully_iff (hs : Sound s.vec) (hne : v ≠ w)
    (hc : c = .copyConstruct w v ∨ c = .copyAssign w v) :
    (∃ s', CopiesFully s c v w s') ↔ (s.vec v).sz = (s.vec v).cap := by
  obtain ⟨hh, hcap⟩ := hs.holds v
  have hvec := callVec_copy hs hne hc
  have hstep : callStep s c = some ⟨update s.vec w ⟨(s.vec v).elements, (s.vec v).sz,
      (s.vec v).cap⟩, abandoned s c ++ s.leaked⟩ := by
    rw [callStep, hvec, Option.map_some]
  constructor
  · rintro ⟨s', hstep', -, hslots, -⟩
    obtain rfl := Option.some.inj (hstep.symm.trans hstep')
    simp only [update_self] at hslots
    rw [← hslots, hh.size]
  · intro hfull
    have hsound := hs.set w (hh.copy_holds hfull) hcap
    refine ⟨_, hstep, by simpa using (hh.copy_holds hfull).elements_eq,
      by simpa using (hh.copy_holds hfull).capacity, fun later hadds hvalid => ?_⟩
    obtain ⟨t, ht, hsame⟩ := run_adding hsound hne hadds hvalid
    have hsame' : t.vec v = s.vec v := hsame.trans (update_of_ne hne _ _)
    exact ⟨t, ht, by rw [hsame'], by rw [hsame']⟩

/-- An element added to a copy of a vector with free capacity goes past its buffer. -/
theorem pushBack_copy (hs : Sound s.vec) (hlt : (s.vec v).sz < (s.vec v).cap) (x : T) :
    (copyConstruct (s.vec v)).bind (pushBack x) = none := by
  obtain ⟨hh, -⟩ := hs.holds v
  have hne : (s.vec v).sz ≠ (s.vec v).cap := by omega
  rw [hh.copyConstruct, Option.bind_some, pushBack, grow, if_neg hne, Option.bind_some, store,
    hh.size, if_neg (Nat.lt_irrefl _), Option.map_none]

/-- In every history that copies full vectors only, copies of what it reaches are full for full
vectors, and for no others. -/
theorem run_copiesFully_iff {calls : List (Call T)}
    (hvalid : Run.Along callStep (fun s c => CallValid s c ∧ FullSource s c) Vectors.init calls) :
    ∃ s, Run.run callStep Vectors.init calls = some s ∧
      ∀ v w, v ≠ w → ∀ c, c = .copyConstruct w v ∨ c = .copyAssign w v →
        ((∃ s', CopiesFully s c v w s') ↔ (s.vec v).sz = (s.vec v).cap) := by
  obtain ⟨s, hrun, hs⟩ := sound_init.run hvalid
  exact ⟨s, hrun, fun v w hne c hc => copiesFully_iff hs hne hc⟩

end

/-- Growth by doubling, until the vector is full again. -/
theorem run_copiesFully_iff_four :
    let calls : List (Call ℕ) :=
      [.op (.pushBack 0 1), .op (.pushBack 0 2), .copyConstruct 1 0, .op (.pushBack 1 3),
        .op (.pushBack 1 4)]
    Run.Along callStep (fun s c => CallValid s c ∧ FullSource s c) Vectors.init calls ∧
      ∃ s, Run.run callStep Vectors.init calls = some s ∧
        ∀ v w, v ≠ w → ∀ c, c = .copyConstruct w v ∨ c = .copyAssign w v →
          ((∃ s', CopiesFully s c v w s') ↔ (s.vec v).sz = (s.vec v).cap) :=
  ⟨by decide, run_copiesFully_iff (by decide)⟩

/-- Three elements in four slots: the copy has three slots and says four. -/
theorem copy_of_three :
    ∃ s : Vectors ℕ, Run.run callStep Vectors.init
        [.op (.pushBack 0 1), .op (.pushBack 0 2), .op (.pushBack 0 3)] = some s ∧
      (s.vec 0).sz = 3 ∧ (s.vec 0).cap = 4 ∧ (¬ ∃ s', CopiesFully s (.copyConstruct 1 0) 0 1 s') ∧
      (¬ ∃ s', CopiesFully s (.copyAssign 1 0) 0 1 s') ∧
      (copyConstruct (s.vec 0)).bind (pushBack 4) = none := by
  refine ⟨_, rfl, rfl, rfl, ?_, ?_, rfl⟩
  all_goals
    rintro ⟨s', hstep, -, hslots, -⟩
    obtain rfl := Option.some.inj hstep
    exact absurd hslots (by decide)

end StdVector

end IceKernel.Libcxx
