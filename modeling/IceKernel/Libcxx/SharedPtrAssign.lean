import IceKernel.Libcxx.SharedPtrCascade

/-!
# Assignment in a graph of objects

The assignments release what `p` has before they read the other handle, which
that may have destroyed.
-/

namespace IceKernel.Libcxx.Graph
open Function Relation Shares FiniteRel

variable {O L : Type} [DecidableEq O] [DecidableEq L] [Fintype L]
variable {m : Layout O L} {p h : L} {s s' t : Heap O L} {fuel : ℕ}

/-- After `__delete()` in an assignment to `p`, which still has its old target. -/
structure Released (m : Layout O L) (p : L) (s s' : Heap O L) : Prop where
  cascade : Cascade m p (fun _ => 0) (fun _ => 0) [] s'
  within : Within s s'
  self : s'.handle p = s.handle p
  root : ∀ r, (∀ a, r ∉ m.members a) → s'.handle r = s.handle r

/-- Exact counts, seen as the start of a release of what `p` has. -/
theorem Exact.cascade (hs : Exact m s) (p : L) :
    Cascade m p (worth (s.handle p)) (fun _ => 0) [] s where
  refCount o := by rw [hs.refCount, others_add]
  weakCount o := by rw [hs.weakCount, hs.refCount, Nat.add_zero]
  deleted o := by rw [hs.deleted, hs.refCount]
  freed o := by rw [hs.freed, hs.weakCount]
  members o l hl := by simp [hs.members o l hl, hs.refCount]
  last _ _ _ ht := absurd ht List.not_mem_nil
  nodup := List.nodup_nil

omit [DecidableEq O] [DecidableEq L] [Fintype L] in
/-- A handle is not below what it has. -/
theorem not_below_self (hac : Acyclic (Owns m s)) {o : O} (hp : s.handle p = some (some o)) :
    ¬ Below m s o p := by
  rintro ⟨a, hoa, hpa⟩
  exact hac o (.tail' hoa ⟨p, hpa, hp⟩)

theorem delete_released (hs : Exact m s) (hac : Acyclic (Owns m s))
    (hd : delete m fuel p s = some s') : Released m p s s' := by
  have hc := hs.cascade p
  rw [delete] at hd
  split at hd
  · rename_i o ho
    have hbelow := not_below_self hac ho
    have hpend : worth (s.handle p) = plus (fun _ => 0) o := by
      funext q
      rw [ho, plus, Nat.zero_add]
    rw [hpend] at hc
    have hv : Vanish (Below m s o) s s' := releaseShared_vanish Vanish.rfl hd
    refine ⟨releaseShared_cascade Vanish.rfl hbelow hc hd, hv.mono fun _ _ => trivial, ?_,
      fun r hr => ?_⟩
    · exact (hv p).resolve_right fun hgone => hbelow hgone.2
    · refine (hv r).resolve_right fun hgone => ?_
      obtain ⟨a, -, ha⟩ := hgone.2
      exact hr a ha
  · rename_i hno
    obtain rfl := Option.some.inj hd
    have hno' : ∀ o, s.handle p ≠ some (some o) := hno
    have hpend : worth (s.handle p) = fun _ => 0 := funext fun q => by simp [worth, hno' q]
    rw [hpend] at hc
    exact ⟨hc, Vanish.rfl, rfl, fun _ _ => rfl⟩

omit [Fintype L] in
theorem delete_total [Fintype O] (hac : Acyclic (Owns m s)) (p : L) :
    ∃ n, ∀ fuel ≥ n, ∃ s', delete m fuel p s = some s' := by
  by_cases hno : ∀ o, s.handle p ≠ some (some o)
  · refine ⟨0, fun fuel _ => ⟨s, ?_⟩⟩
    rw [delete]
    split
    · rename_i o ho
      exact absurd ho (hno o)
    · rfl
  · push Not at hno
    obtain ⟨o, ho⟩ := hno
    obtain ⟨n, hn⟩ := releaseShared_total hac o
    refine ⟨n, fun fuel hfuel => ?_⟩
    obtain ⟨s', hs'⟩ := hn fuel hfuel s Vanish.rfl
    exact ⟨s', by simpa [delete, ho] using hs'⟩

/-! ## What survives -/

theorem Released.refCount_ne_zero (hr : Released m p s s') {o : O} :
    (s'.block o).refCount ≠ 0 ↔ ∃ l, l ≠ p ∧ s'.handle l = some (some o) := by
  rw [hr.cascade.refCount o, Nat.add_zero, ← Nat.pos_iff_ne_zero, others_pos]

theorem Released.member_none (hr : Released m p s s') {o : O} {l : L} (hl : l ∈ m.members o) :
    s'.handle l = none ↔ (s'.block o).refCount = 0 := by
  simpa using hr.cascade.members o l hl

/-- What is left is what is held other than through `p`. -/
theorem Released.held_iff [Finite O] (hr : Released m p s s') (hac : Acyclic (Owns m s)) (o : O) :
    Held m s p o ↔ (s'.block o).refCount ≠ 0 := by
  constructor
  · intro ho
    induction ho with
    | root hp hroot hr' => exact hr.refCount_ne_zero.mpr ⟨_, hp, by rw [hr.root _ hroot, hr']⟩
    | member _ hp hl ho ih =>
      -- its object is left, so the member is
      have halive : s'.handle _ ≠ none := fun hnone => ih ((hr.member_none hl).mp hnone)
      have hsame := (hr.within _).resolve_right fun hgone => halive hgone.1
      exact hr.refCount_ne_zero.mpr ⟨_, hp, by rw [hsame, ho]⟩
  · induction o using hac.wellFounded.induction with
    | _ o ih =>
      intro ho
      obtain ⟨l, hlp, hl⟩ := hr.refCount_ne_zero.mp ho
      have hl0 := hr.within.eq hl
      by_cases hroot : ∀ a, l ∉ m.members a
      · exact .root hlp hroot hl0
      · push Not at hroot
        obtain ⟨a, ha⟩ := hroot
        have halive : (s'.block a).refCount ≠ 0 := fun hdead => by
          have hnone := (hr.member_none ha).mpr hdead
          simp [hnone] at hl
        exact .member (ih a ⟨l, ha, hl0⟩ halive) hlp ha hl0

/-- Whether the other handle can still be read. -/
theorem Released.readable_iff [Finite O] (hr : Released m p s s') (hac : Acyclic (Owns m s))
    (hh : s.handle h ≠ none) :
    s'.handle h ≠ none ↔ ∀ a, h ∈ m.members a → Held m s p a := by
  constructor
  · intro halive a ha
    exact (hr.held_iff hac a).mpr fun hdead => halive ((hr.member_none ha).mpr hdead)
  · intro hheld
    by_cases hroot : ∀ a, h ∉ m.members a
    · rwa [hr.root h hroot]
    · push Not at hroot
      obtain ⟨a, ha⟩ := hroot
      exact fun hnone => (hr.held_iff hac a).mp (hheld a ha) ((hr.member_none ha).mp hnone)

/-! ## The new counts -/

/-- Counts are exact once `p` counts again. -/
theorem Released.exact (hr : Released m p s s') (hhandle : ∀ l, t.handle l = none ↔ s'.handle l = none)
    (href : ∀ o, (t.block o).refCount = owners t o) (hweak : ∀ o, (t.block o).weakCount = owners t o)
    (hdeleted : ∀ o, (t.block o).deleted = (s'.block o).deleted)
    (hfreed : ∀ o, (t.block o).freed = (s'.block o).freed)
    (hzero : ∀ o, owners t o = 0 ↔ (s'.block o).refCount = 0) : Exact m t where
  refCount := href
  weakCount := hweak
  deleted o := by
    rw [hdeleted, hr.cascade.deleted]
    exact if_congr (hzero o).symm rfl rfl
  freed o := by
    rw [hfreed, hr.cascade.freed, hr.cascade.weakCount, Nat.add_zero]
    exact if_congr (hzero o).symm rfl rfl
  members o l hl := by rw [hhandle, hr.member_none hl, hzero]

theorem owners_setHandle_self (s : Heap O L) (p : L) (x : Option (Option O)) (o : O) :
    owners (s.setHandle p x) o = others p s o + worth x o := by
  have hset := owners_setHandle s p x o
  have hadd := others_add p s o
  omega

omit [DecidableEq O] [Fintype L] in
theorem setHandle_none_iff {x : Option O} (hp : s.handle p ≠ none) (l : L) :
    (s.setHandle p (some x)).handle l = none ↔ s.handle l = none := by
  by_cases hl : l = p
  · subst hl
    simp [hp]
  · rw [setHandle_of_ne s hl]

theorem Released.exact_copyNull (hr : Released m p s s') (hp : s'.handle p ≠ none) :
    Exact m (s'.setHandle p (some none)) := by
  have howners (o : O) : owners (s'.setHandle p (some none)) o = (s'.block o).refCount := by
    rw [owners_setHandle_self, hr.cascade.refCount]
    rfl
  have hweak (o : O) : (s'.block o).weakCount = (s'.block o).refCount := hr.cascade.weakCount o
  exact hr.exact (setHandle_none_iff hp) (fun o => (howners o).symm)
    (fun o => (hweak o).trans (howners o).symm) (fun _ => rfl) (fun _ => rfl)
    fun o => by rw [howners]

theorem Released.exact_copy (hr : Released m p s s') (hp : s'.handle p ≠ none) {o : O}
    (hne : p ≠ h) (hh : s'.handle h = some (some o)) :
    Exact m ((s'.setHandle p (some (some o))).setBlock o (addShared (s'.block o))) := by
  have halive : (s'.block o).refCount ≠ 0 := hr.refCount_ne_zero.mpr ⟨h, hne.symm, hh⟩
  have howners (q : O) :
      owners ((s'.setHandle p (some (some o))).setBlock o (addShared (s'.block o))) q =
        (s'.block q).refCount + worth (some (some o)) q := by
    rw [hr.cascade.refCount, Nat.add_zero]
    exact owners_setHandle_self s' p _ q
  have hblock (q : O) (f : CtrlBlock → ℕ) : f (((s'.setHandle p (some (some o))).setBlock o
      (addShared (s'.block o))).block q) =
        if q = o then f (addShared (s'.block o)) else f (s'.block q) := by
    by_cases hq : q = o
    · subst hq
      simp [Heap.setBlock]
    · simp [Heap.setBlock, hq]
  refine hr.exact (setHandle_none_iff hp) (fun q => ?_) (fun q => ?_) (fun q => ?_) (fun q => ?_)
    fun q => ?_
  · rw [howners, hblock q CtrlBlock.refCount]
    by_cases hq : q = o
    · subst hq
      rw [if_pos rfl, worth_self]
      rfl
    · rw [if_neg hq, worth_of_ne hq, Nat.add_zero]
  · have hweak : (s'.block q).weakCount = (s'.block q).refCount := hr.cascade.weakCount q
    rw [howners, hblock q CtrlBlock.weakCount]
    by_cases hq : q = o
    · subst hq
      rw [if_pos rfl, worth_self, ← hweak]
      rfl
    · rw [if_neg hq, worth_of_ne hq, Nat.add_zero, hweak]
  · rw [hblock q CtrlBlock.deleted]
    split
    · rename_i hq
      rw [hq]
      rfl
    · rfl
  · rw [hblock q CtrlBlock.freed]
    split
    · rename_i hq
      rw [hq]
      rfl
    · rfl
  · rw [howners]
    by_cases hq : q = o
    · subst hq
      simp [halive]
    · rw [worth_of_ne hq, Nat.add_zero]

theorem Released.exact_move (hr : Released m p s s') (hp : s'.handle p ≠ none) {x : Option O}
    (hne : p ≠ h) (hh : s'.handle h = some x) :
    Exact m ((s'.setHandle p (some x)).setHandle h (some none)) := by
  have hsame : (s'.setHandle p (some x)).handle h = some x := by
    rw [setHandle_of_ne s' hne.symm, hh]
  have howners (o : O) : owners ((s'.setHandle p (some x)).setHandle h (some none)) o =
      (s'.block o).refCount := by
    have hgive := owners_setHandle (s'.setHandle p (some x)) h (some none) o
    have htake := owners_setHandle_self s' p (some x) o
    have hnull : worth (some none) o = 0 := rfl
    have href := hr.cascade.refCount o
    rw [hsame] at hgive
    omega
  have hweak (o : O) : (s'.block o).weakCount = (s'.block o).refCount := hr.cascade.weakCount o
  refine hr.exact (fun l => ?_) (fun o => (howners o).symm)
    (fun o => (hweak o).trans (howners o).symm) (fun _ => rfl) (fun _ => rfl)
    fun o => by rw [howners]
  rw [setHandle_none_iff (by simp [hsame]), setHandle_none_iff hp]

/-! ## The assignments -/

omit [Fintype L] in
/-- What an assignment to another handle makes of the state after `__delete()`. -/
theorem assign_eq (kind : Assignment) (hne : p ≠ h) (hd : delete m fuel p s = some s') :
    (s'.handle h = none → assign m kind fuel p h s = some .deadRead) ∧
      ∀ x, s'.handle h = some x → assign m kind fuel p h s = some (.done
        (match kind, x with
        | .copy, none => s'.setHandle p (some none)
        | .copy, some o =>
          (s'.setHandle p (some (some o))).setBlock o (addShared (s'.block o))
        | .move, x => (s'.setHandle p (some x)).setHandle h (some none))) := by
  cases kind with
  | copy =>
    refine ⟨fun hh => by simp [assign, copyAssign, hne, hd, hh], fun x hh => ?_⟩
    cases x <;> simp [assign, copyAssign, hne, hd, hh]
  | move =>
    exact ⟨fun hh => by simp [assign, moveAssign, hne, hd, hh],
      fun x hh => by simp [assign, moveAssign, hne, hd, hh]⟩

omit [DecidableEq L] in
/-- What the new owner has is not deleted. -/
theorem Exact.not_deleted (ht : Exact m t) {o : O} (hp : t.handle p = some (some o)) :
    (t.block o).deleted = 0 := by
  have hpos : owners t o ≠ 0 := (owners_pos.mpr ⟨p, hp⟩).ne'
  rw [ht.deleted, if_neg hpos]

theorem Released.assigns (hr : Released m p s s') (kind : Assignment) (hne : p ≠ h)
    (hp : s.handle p ≠ none) (hd : delete m fuel p s = some s') (halive : s'.handle h ≠ none) :
    ∃ t, assign m kind fuel p h s = some (.done t) ∧ t.handle p = s.handle h ∧
      (∀ o, s.handle h = some (some o) → (t.block o).deleted = 0) ∧ Exact m t := by
  obtain ⟨x, hx⟩ := Option.ne_none_iff_exists'.mp halive
  have hp' : s'.handle p ≠ none := by rwa [hr.self]
  have hdone := (assign_eq kind hne hd).2 x hx
  suffices hspec : ∀ t : Heap O L, t.handle p = some x → Exact m t →
      t.handle p = s.handle h ∧ (∀ o, s.handle h = some (some o) → (t.block o).deleted = 0) ∧
        Exact m t by
    cases kind with
    | copy =>
      cases x with
      | none => exact ⟨_, hdone, hspec _ (setHandle_self s' p _) (hr.exact_copyNull hp')⟩
      | some o => exact ⟨_, hdone, hspec _ (setHandle_self s' p _) (hr.exact_copy hp' hne hx)⟩
    | move =>
      refine ⟨_, hdone, hspec _ ?_ (hr.exact_move hp' hne hx)⟩
      rw [setHandle_of_ne _ hne, setHandle_self]
  intro t htp ht
  have hsame : t.handle p = s.handle h := by rw [htp, hr.within.eq hx]
  exact ⟨hsame, fun o ho => ht.not_deleted (by rw [hsame, ho]), ht⟩

/-- An assignment is safe if and only if the other handle is `p` itself, or a member of no object,
or a member of an object that is held other than through `p`. -/
theorem assignsSafely_iff [Fintype O] (hs : Exact m s) (hac : Acyclic (Owns m s))
    (hp : s.handle p ≠ none) (hh : s.handle h ≠ none) (kind : Assignment) :
    AssignsSafely m kind p h s ↔ p = h ∨ ∀ a, h ∈ m.members a → Held m s p a := by
  by_cases hne : p = h
  · subst hne
    refine iff_of_true ⟨0, fun fuel _ => ⟨s, ?_, rfl, fun o ho => hs.not_deleted ho, hs⟩⟩ (.inl rfl)
    cases kind <;> simp [assign, copyAssign, moveAssign]
  rw [or_iff_right hne]
  obtain ⟨n, hn⟩ := delete_total hac p
  constructor
  · rintro ⟨n', hsafe⟩
    obtain ⟨s', hd⟩ := hn (max n n') (le_max_left n n')
    have hr := delete_released hs hac hd
    refine (hr.readable_iff hac hh).mp fun hnone => ?_
    obtain ⟨t, ht, -⟩ := hsafe (max n n') (le_max_right n n')
    rw [(assign_eq kind hne hd).1 hnone] at ht
    simp at ht
  · intro hheld
    refine ⟨n, fun fuel hfuel => ?_⟩
    obtain ⟨s', hd⟩ := hn fuel hfuel
    have hr := delete_released hs hac hd
    exact hr.assigns kind hne hp hd ((hr.readable_iff hac hh).mpr hheld)

/-! ## A list -/

/-- The handle 0 is no member, and the object `i` has the handle `i + 1` as its `next`. -/
def listLayout : Layout (Fin 2) (Fin 3) where
  members o := [o.succ]
  nodup _ := List.nodup_singleton _
  unique _ _ _ hl hl' :=
    Fin.succ_injective 2 ((List.mem_singleton.mp hl).symm.trans (List.mem_singleton.mp hl'))

/-- A list of two objects: the handle 0 has the first one, its `next` has the second one, and the
`next` of that is null. -/
def twoList : Heap (Fin 2) (Fin 3) where
  block _ := ⟨1, 1, 0, 0⟩
  handle l := some (if h : l.val < 2 then some ⟨l.val, h⟩ else none)

theorem twoList_exact : Exact listLayout twoList :=
  ⟨by decide, by decide, by decide, by decide, by decide⟩

theorem twoList_acyclic : Acyclic (Owns listLayout twoList) := by
  refine acyclic_of_lt fun a b hab => ?_
  revert a b
  unfold Owns
  decide

theorem twoList_assignsSafely_iff :
    Exact listLayout twoList ∧ Acyclic (Owns listLayout twoList) ∧
      (AssignsSafely listLayout .move 0 1 twoList ↔
        (0 : Fin 3) = 1 ∨ ∀ a, 1 ∈ listLayout.members a → Held listLayout twoList 0 a) :=
  ⟨twoList_exact, twoList_acyclic,
    assignsSafely_iff twoList_exact twoList_acyclic (by decide) (by decide) .move⟩

/-- `p = p->next` reads `next` after its destruction. -/
theorem next_deadRead :
    Exact listLayout twoList ∧ Acyclic (Owns listLayout twoList) ∧
      twoList.handle 0 ≠ none ∧ twoList.handle 1 ≠ none ∧
      ¬ AssignsSafely listLayout .copy 0 1 twoList ∧
      ¬ AssignsSafely listLayout .move 0 1 twoList := by
  have hdead (n : ℕ) (kind : Assignment) :
      assign listLayout kind (n + 2) 0 1 twoList = some .deadRead := by
    cases kind <;> rfl
  refine ⟨twoList_exact, twoList_acyclic, by decide, by decide, ?_, ?_⟩
  all_goals
    rintro ⟨n, hsafe⟩
    obtain ⟨t, ht, -⟩ := hsafe (n + 2) (Nat.le_add_right n 2)
    rw [hdead] at ht
    simp at ht

end IceKernel.Libcxx.Graph
