import IceKernel.Libcxx.SharedPtrGraph

/-!
# Releases in a graph of objects

A release may run inside the destructors of other objects, so its invariant
has room for what those have not done yet.
-/

namespace IceKernel.Libcxx.Graph
open Function Relation Shares FiniteRel

variable {O L : Type} [DecidableEq O] [DecidableEq L]

/-! ## Counting handles -/

/-- What a handle is worth for an object. -/
def worth (x : Option (Option O)) (o : O) : ℕ := if x = some (some o) then 1 else 0

omit [DecidableEq L] in
@[simp] theorem setBlock_handle (s : Heap O L) (o : O) (c : CtrlBlock) :
    (s.setBlock o c).handle = s.handle := rfl

omit [DecidableEq O] in
@[simp] theorem setHandle_block (s : Heap O L) (l : L) (x : Option (Option O)) :
    (s.setHandle l x).block = s.block := rfl

omit [DecidableEq O] in
@[simp] theorem setHandle_self (s : Heap O L) (l : L) (x : Option (Option O)) :
    (s.setHandle l x).handle l = x := update_self _ _ _

omit [DecidableEq O] in
theorem setHandle_of_ne (s : Heap O L) {l k : L} (hne : k ≠ l) (x : Option (Option O)) :
    (s.setHandle l x).handle k = s.handle k := update_of_ne hne _ _

omit [DecidableEq L] in
@[simp] theorem subRef_handle (s : Heap O L) (o : O) : (subRef o s).handle = s.handle := rfl

theorem worth_self (o : O) : worth (some (some o)) o = 1 := if_pos rfl

theorem worth_of_ne {o q : O} (h : q ≠ o) : worth (some (some o)) q = 0 := by
  simp [worth, h.symm]

variable [Fintype L]

omit [DecidableEq L] in
theorem owners_eq_sum (s : Heap O L) (o : O) : owners s o = ∑ l, worth (s.handle l) o :=
  Finset.card_filter _ _

omit [DecidableEq L] in
theorem owners_pos {s : Heap O L} {o : O} : 0 < owners s o ↔ ∃ l, s.handle l = some (some o) := by
  simp [owners, Finset.card_pos, Finset.filter_nonempty_iff]

theorem owners_setHandle (s : Heap O L) (l : L) (x : Option (Option O)) (o : O) :
    owners (s.setHandle l x) o + worth (s.handle l) o = owners s o + worth x o := by
  rw [owners_eq_sum, owners_eq_sum]
  exact sum_update_add (fun y => worth y o) s.handle l x

/-- The handles other than `p`. -/
def others (p : L) (s : Heap O L) (o : O) : ℕ := owners (s.setHandle p none) o

@[simp] theorem others_setBlock (p : L) (s : Heap O L) (o : O) (c : CtrlBlock) :
    others p (s.setBlock o c) = others p s := rfl

@[simp] theorem others_subRef (p : L) (s : Heap O L) (o : O) :
    others p (subRef o s) = others p s := rfl

theorem others_add (p : L) (s : Heap O L) (o : O) :
    others p s o + worth (s.handle p) o = owners s o :=
  owners_setHandle s p none o

theorem others_setHandle {p l : L} (hne : l ≠ p) (s : Heap O L) (x : Option (Option O)) (o : O) :
    others p (s.setHandle l x) o + worth (s.handle l) o = others p s o + worth x o := by
  have hall := owners_setHandle s l x o
  have hbefore := others_add p s o
  have hafter := others_add p (s.setHandle l x) o
  rw [setHandle_of_ne s hne.symm] at hafter
  omega

theorem others_pos {p : L} {s : Heap O L} {o : O} :
    0 < others p s o ↔ ∃ l, l ≠ p ∧ s.handle l = some (some o) := by
  rw [others, owners_pos]
  refine exists_congr fun l => ?_
  by_cases hl : l = p
  · simp [hl]
  · simp [hl, setHandle_of_ne s hl]

/-! ## What a release keeps -/

/-- During releases: an object has `pend` releases that are yet to come and `opened` ones that have
begun, and the handles `todo` are yet to be destroyed. The handle `p` does not count. -/
structure Cascade (m : Layout O L) (p : L) (pend opened : O → ℕ) (todo : List L)
    (s : Heap O L) : Prop where
  refCount : ∀ o, (s.block o).refCount = others p s o + pend o
  weakCount : ∀ o, (s.block o).weakCount = (s.block o).refCount + opened o
  deleted : ∀ o, (s.block o).deleted = if (s.block o).refCount = 0 then 1 else 0
  freed : ∀ o, (s.block o).freed = if (s.block o).weakCount = 0 then 1 else 0
  members : ∀ o, ∀ l ∈ m.members o, s.handle l = none ↔ (s.block o).refCount = 0 ∧ l ∉ todo
  last : ∀ o, ∀ l ∈ m.members o, l ∈ todo → (s.block o).refCount = 0
  nodup : todo.Nodup

/-- One more for `o`. -/
def plus (f : O → ℕ) (o : O) : O → ℕ := fun q => f q + worth (some (some o)) q

theorem plus_self (f : O → ℕ) (o : O) : plus f o o = f o + 1 := by rw [plus, worth_self]

theorem plus_of_ne (f : O → ℕ) {o q : O} (h : q ≠ o) : plus f o q = f q := by
  rw [plus, worth_of_ne h, Nat.add_zero]

variable {m : Layout O L} {p : L} {pend opened : O → ℕ} {todo : List L} {s s' : Heap O L} {o : O}

omit [DecidableEq L] [Fintype L] in
theorem subRef_self : (subRef o s).block o =
    { s.block o with
      refCount := (s.block o).refCount - 1
      deleted := (s.block o).deleted + if (s.block o).refCount = 1 then 1 else 0 } :=
  update_self _ _ _

omit [DecidableEq L] [Fintype L] in
theorem subRef_of_ne {q : O} (h : q ≠ o) : (subRef o s).block q = s.block q := update_of_ne h _ _

omit [DecidableEq L] [Fintype L] in
/-- A release takes only the last reference of its own object. -/
theorem subRef_refCount_eq_zero_iff (hpos : (s.block o).refCount ≠ 0) {q : O} :
    ((subRef o s).block q).refCount = 0 ↔
      (s.block q).refCount = 0 ∨ q = o ∧ (s.block o).refCount = 1 := by
  by_cases hq : q = o
  · subst hq
    rw [subRef_self]
    simp only [true_and]
    omega
  · rw [subRef_of_ne hq]
    simp [hq]

omit [DecidableEq O] [DecidableEq L] [Fintype L] in
/-- The members that a release adds are those of its object. -/
theorem mem_members_append_iff {q : O} {l : L} (hl : l ∈ m.members q) (c : Prop) [Decidable c] :
    (l ∈ if c then m.members o ++ todo else todo) ↔ l ∈ todo ∨ q = o ∧ c := by
  have hqo : l ∈ m.members o ↔ q = o :=
    ⟨fun hlo => m.unique q o l hl hlo, fun hqo => hqo ▸ hl⟩
  split
  · rename_i hc
    rw [List.mem_append, hqo, or_comm, and_iff_left hc]
  · rename_i hc
    rw [or_iff_left fun h => hc h.2]

/-- The release begins. If it is the last one, all members are to be destroyed. -/
theorem Cascade.start (h : Cascade m p (plus pend o) opened todo s) :
    Cascade m p pend (plus opened o)
      (if (s.block o).refCount = 1 then m.members o ++ todo else todo) (subRef o s) := by
  have href := h.refCount o
  rw [plus_self] at href
  have hpos : (s.block o).refCount ≠ 0 := by omega
  refine ⟨fun q => ?_, fun q => ?_, fun q => ?_, fun q => ?_, fun q l hl => ?_, fun q l hl ht => ?_,
    ?_⟩
  · by_cases hq : q = o
    · subst hq
      rw [subRef_self, others_subRef]
      simp only
      omega
    · have hrefq := h.refCount q
      rw [plus_of_ne _ hq] at hrefq
      rw [subRef_of_ne hq, others_subRef, hrefq]
  · have hweak := h.weakCount q
    by_cases hq : q = o
    · subst hq
      rw [subRef_self, plus_self]
      simp only
      omega
    · rw [subRef_of_ne hq, plus_of_ne _ hq, hweak]
  · have hdel := h.deleted q
    by_cases hq : q = o
    · subst hq
      rw [subRef_self]
      simp only [hdel]
      have hne : (s.block q).refCount ≠ 0 := by omega
      rw [if_neg hne, Nat.zero_add]
      exact if_congr (by omega) rfl rfl
    · rw [subRef_of_ne hq, hdel]
  · have hfree := h.freed q
    by_cases hq : q = o
    · subst hq
      rw [subRef_self]
      exact hfree
    · rw [subRef_of_ne hq, hfree]
  · have hone : (s.block q).refCount = 0 → ¬ (q = o ∧ (s.block o).refCount = 1) := by
      rintro hq ⟨rfl, hq'⟩
      omega
    rw [subRef_refCount_eq_zero_iff hpos, mem_members_append_iff hl, subRef_handle,
      h.members q l hl]
    tauto
  · rw [subRef_refCount_eq_zero_iff hpos]
    exact ((mem_members_append_iff hl _).mp ht).imp (h.last q l hl) id
  · split
    · rename_i hone
      refine List.nodup_append.mpr ⟨m.nodup o, h.nodup, fun l hl k hk hlk => ?_⟩
      have hlast := h.last o l hl (hlk ▸ hk)
      omega
    · exact h.nodup

/-- The release ends: the block goes with its last handle. -/
theorem Cascade.finish (h : Cascade m p pend (plus opened o) todo s) :
    Cascade m p pend opened todo (s.setBlock o (Conversions.releaseWeak (s.block o))) := by
  have hblock (q : O) : (s.setBlock o (Conversions.releaseWeak (s.block o))).block q =
      if q = o then Conversions.releaseWeak (s.block o) else s.block q := by
    by_cases hq : q = o
    · subst hq
      simp [Heap.setBlock]
    · simp [Heap.setBlock, hq]
  have href (q : O) :
      ((s.setBlock o (Conversions.releaseWeak (s.block o))).block q).refCount =
        (s.block q).refCount := by
    rw [hblock]
    split
    · rename_i hq
      rw [hq]
      rfl
    · rfl
  refine ⟨fun q => ?_, fun q => ?_, fun q => ?_, fun q => ?_, fun q l hl => ?_, fun q l hl => ?_,
    h.nodup⟩
  · rw [href, h.refCount q, others_setBlock]
  · have hweak := h.weakCount q
    rw [href, hblock]
    by_cases hq : q = o
    · subst hq
      rw [plus_self] at hweak
      rw [if_pos rfl, Conversions.releaseWeak]
      simp only
      omega
    · rw [plus_of_ne _ hq] at hweak
      rw [if_neg hq, hweak]
  · rw [href, hblock]
    by_cases hq : q = o
    · subst hq
      rw [if_pos rfl, ← h.deleted q]
      rfl
    · rw [if_neg hq, h.deleted q]
  · have hfree := h.freed q
    have hweak := h.weakCount q
    rw [hblock]
    by_cases hq : q = o
    · subst hq
      rw [plus_self] at hweak
      have hne : (s.block q).weakCount ≠ 0 := by omega
      rw [if_neg hne] at hfree
      rw [if_pos rfl, Conversions.releaseWeak]
      simp only [hfree, Nat.zero_add]
      exact if_congr (by omega) rfl rfl
    · rw [if_neg hq, hfree]
  · rw [href, setBlock_handle, h.members q l hl]
  · rw [href]
    exact h.last q l hl

/-- A member is destroyed, and what it has is to be released. -/
theorem Cascade.destroy {l : L} (hlp : l ≠ p) (h : Cascade m p pend opened (l :: todo) s) :
    Cascade m p (fun o => pend o + worth (s.handle l) o) opened todo (s.setHandle l none) := by
  obtain ⟨hl, hnodup⟩ := List.nodup_cons.mp h.nodup
  refine ⟨fun o => ?_, h.weakCount, h.deleted, h.freed, fun o k hk => ?_, fun o k hk ht => ?_,
    hnodup⟩
  · have hothers := others_setHandle hlp s none o
    have href := h.refCount o
    have hnone : worth (none : Option (Option O)) o = 0 := rfl
    rw [setHandle_block]
    omega
  · rw [setHandle_block]
    by_cases hkl : k = l
    · subst hkl
      have hdead := h.last o k hk List.mem_cons_self
      simp [hl, hdead]
    · rw [setHandle_of_ne s hkl, h.members o k hk]
      simp [hkl]
  · exact h.last o k hk (List.mem_cons_of_mem _ ht)

/-! ## Runs of releases -/

section Vanish

variable {O L : Type} {P Q : L → Prop} {s s' s'' : Heap O L}

/-- From `s` to `s'` some handles with `P` are destroyed, and all others stay. -/
def Vanish (P : L → Prop) (s s' : Heap O L) : Prop :=
  ∀ l, s'.handle l = s.handle l ∨ s'.handle l = none ∧ P l

/-- A member of `o`, or of an object owned by `o`, directly or not. -/
def Below (m : Layout O L) (s : Heap O L) (o : O) (l : L) : Prop :=
  ∃ a, ReflTransGen (Owns m s) o a ∧ l ∈ m.members a

theorem Vanish.rfl : Vanish P s s := fun _ => .inl (by rfl)

theorem Vanish.trans (h : Vanish P s s') (h' : Vanish P s' s'') : Vanish P s s'' := by
  intro l
  obtain hl' | hl' := h' l
  · rw [hl']
    exact h l
  · exact .inr hl'

theorem Vanish.mono (h : Vanish P s s') (hPQ : ∀ l, P l → Q l) : Vanish Q s s' :=
  fun l => (h l).imp id fun hl => ⟨hl.1, hPQ l hl.2⟩

/-- Handles may be gone, but none has changed. -/
def Within (s₀ s : Heap O L) : Prop := Vanish (fun _ => True) s₀ s

theorem Within.trans (h : Within s s') (h' : Vanish P s' s'') : Within s s'' :=
  Vanish.trans h (h'.mono fun _ _ => trivial)

theorem Within.eq (h : Within s s') {l : L} {x : Option O} (hl : s'.handle l = some x) :
    s.handle l = some x := by
  obtain h | h := h l
  · rw [← h, hl]
  · simp [h.1] at hl

theorem vanish_drop [DecidableEq L] {l : L} (hl : P l) : Vanish P s (s.setHandle l none) := by
  intro k
  by_cases hk : k = l
  · subst hk
    exact .inr ⟨setHandle_self s k none, hl⟩
  · exact .inl (setHandle_of_ne s hk none)

end Vanish

section Runs

variable {s₀ : Heap O L} {release : O → Heap O L → Option (Heap O L)} {ls : List L} {fuel : ℕ}

omit [DecidableEq O] [DecidableEq L] [Fintype L] in
/-- What a member has, and what is below that, is below its object. -/
theorem below_member {a : O} {l : L} (hl : l ∈ m.members a) (ho : s₀.handle l = some (some o))
    {k : L} (hk : Below m s₀ o k) : Below m s₀ a k := by
  obtain ⟨b, hob, hkb⟩ := hk
  exact ⟨b, .head ⟨l, hl, ho⟩ hob, hkb⟩

omit [DecidableEq O] [Fintype L] in
theorem destroyMembers_cons {l : L} :
    destroyMembers release (l :: ls) s = some s' ↔
      (∃ o t, s.handle l = some (some o) ∧ release o (s.setHandle l none) = some t ∧
        destroyMembers release ls t = some s') ∨
      (∀ o, s.handle l ≠ some (some o)) ∧ destroyMembers release ls (s.setHandle l none) = some s' := by
  rw [destroyMembers]
  split
  · rename_i o ho
    simp [ho, Option.bind_eq_some_iff]
  · rename_i hno
    have hno' : ∀ o, s.handle l ≠ some (some o) := hno
    simp [hno']

omit [Fintype L] in
theorem releaseShared_succ :
    releaseShared m (fuel + 1) o s = some s' ↔
      ∃ t, (if (s.block o).refCount = 1 then
          destroyMembers (releaseShared m fuel) (m.members o) (subRef o s)
        else some (subRef o s)) = some t ∧
        t.setBlock o (Conversions.releaseWeak (t.block o)) = s' := by
  rw [releaseShared, Option.map_eq_some_iff]

omit [DecidableEq O] [Fintype L] in
theorem destroyMembers_vanish {a : O}
    (hrel : ∀ o s s', Within s₀ s → release o s = some s' → Vanish (Below m s₀ o) s s')
    (hls : ∀ l ∈ ls, l ∈ m.members a) (h0 : Within s₀ s)
    (h : destroyMembers release ls s = some s') : Vanish (Below m s₀ a) s s' := by
  induction ls generalizing s with
  | nil =>
    obtain rfl : s = s' := Option.some.inj h
    exact Vanish.rfl
  | cons l ls ih =>
    have hl : l ∈ m.members a := hls l List.mem_cons_self
    have hls' : ∀ k ∈ ls, k ∈ m.members a := fun k hk => hls k (List.mem_cons_of_mem _ hk)
    have hdrop : Vanish (Below m s₀ a) s (s.setHandle l none) := vanish_drop ⟨a, .refl, hl⟩
    obtain ⟨o, t, ho, ht, hrest⟩ | ⟨-, hrest⟩ := destroyMembers_cons.mp h
    · have hnested := (hrel o _ t (h0.trans hdrop) ht).mono fun _ => below_member hl (h0.eq ho)
      exact hdrop.trans (hnested.trans (ih hls' ((h0.trans hdrop).trans hnested) hrest))
    · exact hdrop.trans (ih hls' (h0.trans hdrop) hrest)

omit [Fintype L] in
/-- A release destroys only handles below the object. -/
theorem releaseShared_vanish (h0 : Within s₀ s) (h : releaseShared m fuel o s = some s') :
    Vanish (Below m s₀ o) s s' := by
  induction fuel generalizing o s s' with
  | zero => simp [releaseShared] at h
  | succ fuel ih =>
    obtain ⟨t, ht, rfl⟩ := releaseShared_succ.mp h
    split at ht
    · have hmembers : Vanish (Below m s₀ o) (subRef o s) t :=
        destroyMembers_vanish (fun _ _ _ h0 h => ih h0 h) (fun _ hl => hl) h0 ht
      exact hmembers
    · obtain rfl := Option.some.inj ht
      exact Vanish.rfl

theorem destroyMembers_cascade {a : O}
    (hrel : ∀ {o pend opened todo s s'}, Within s₀ s → ¬ Below m s₀ o p →
      Cascade m p (plus pend o) opened todo s → release o s = some s' →
      Cascade m p pend opened todo s' ∧ Within s₀ s')
    (hls : ∀ l ∈ ls, l ∈ m.members a) (hp : ¬ Below m s₀ a p) (h0 : Within s₀ s)
    (hc : Cascade m p pend opened (ls ++ todo) s)
    (h : destroyMembers release ls s = some s') : Cascade m p pend opened todo s' := by
  induction ls generalizing s with
  | nil =>
    obtain rfl : s = s' := Option.some.inj h
    exact hc
  | cons l ls ih =>
    have hl : l ∈ m.members a := hls l List.mem_cons_self
    have hls' : ∀ k ∈ ls, k ∈ m.members a := fun k hk => hls k (List.mem_cons_of_mem _ hk)
    have hlp : l ≠ p := fun hlp => hp ⟨a, .refl, hlp ▸ hl⟩
    have h1 : Within s₀ (s.setHandle l none) := h0.trans (P := fun _ => True) (vanish_drop trivial)
    have hc1 := hc.destroy hlp
    obtain ⟨o, t, ho, ht, hrest⟩ | ⟨hno, hrest⟩ := destroyMembers_cons.mp h
    · rw [ho] at hc1
      obtain ⟨hc2, h2⟩ := hrel h1 (fun hb => hp (below_member hl (h0.eq ho) hb)) hc1 ht
      exact ih hls' h2 hc2 hrest
    · have hworth : (fun o => pend o + worth (s.handle l) o) = pend :=
        funext fun o => by simp [worth, hno o]
      rw [hworth] at hc1
      exact ih hls' h1 hc1 hrest

/-- A release pays what is pending for its object, and nothing else. -/
theorem releaseShared_cascade (h0 : Within s₀ s) (hp : ¬ Below m s₀ o p)
    (hc : Cascade m p (plus pend o) opened todo s) (h : releaseShared m fuel o s = some s') :
    Cascade m p pend opened todo s' := by
  induction fuel generalizing o pend opened todo s s' with
  | zero => simp [releaseShared] at h
  | succ fuel ih =>
    obtain ⟨t, ht, rfl⟩ := releaseShared_succ.mp h
    have hc1 := hc.start
    split at ht
    · rename_i hone
      rw [if_pos hone] at hc1
      have hmembers : Cascade m p pend (plus opened o) todo t :=
        destroyMembers_cascade (s := subRef o s)
          (fun h0 hp hc h => ⟨ih h0 hp hc h, h0.trans (releaseShared_vanish h0 h)⟩)
          (fun _ hl => hl) hp h0 hc1 ht
      exact hmembers.finish
    · rename_i hone
      rw [if_neg hone] at hc1
      obtain rfl := Option.some.inj ht
      exact hc1.finish

omit [DecidableEq O] [Fintype L] in
theorem destroyMembers_total {a : O}
    (hrel : ∀ o s, Owns m s₀ a o → Within s₀ s → ∃ s', release o s = some s' ∧ Within s₀ s')
    (hls : ∀ l ∈ ls, l ∈ m.members a) (h0 : Within s₀ s) :
    ∃ s', destroyMembers release ls s = some s' := by
  induction ls generalizing s with
  | nil => exact ⟨s, rfl⟩
  | cons l ls ih =>
    have hl : l ∈ m.members a := hls l List.mem_cons_self
    have hls' : ∀ k ∈ ls, k ∈ m.members a := fun k hk => hls k (List.mem_cons_of_mem _ hk)
    have h1 : Within s₀ (s.setHandle l none) := h0.trans (P := fun _ => True) (vanish_drop trivial)
    by_cases hno : ∀ o, s.handle l ≠ some (some o)
    · obtain ⟨s', hs'⟩ := ih hls' h1
      exact ⟨s', destroyMembers_cons.mpr (.inr ⟨hno, hs'⟩)⟩
    · push Not at hno
      obtain ⟨o, ho⟩ := hno
      obtain ⟨t, ht, h2⟩ := hrel o _ ⟨l, hl, h0.eq ho⟩ h1
      obtain ⟨s', hs'⟩ := ih hls' h2
      exact ⟨s', destroyMembers_cons.mpr (.inl ⟨o, t, ho, ht, hs'⟩)⟩

omit [Fintype L] in
/-- Without cycles, releases end. -/
theorem releaseShared_total [Fintype O] (hac : Acyclic (Owns m s₀)) (o : O) :
    ∃ n, ∀ fuel ≥ n, ∀ s, Within s₀ s → ∃ s', releaseShared m fuel o s = some s' := by
  induction o using hac.swap.wellFounded.induction with
  | _ o ih =>
    have hchild (b : O) : ∃ n, Owns m s₀ o b →
        ∀ fuel ≥ n, ∀ s, Within s₀ s → ∃ s', releaseShared m fuel b s = some s' := by
      by_cases hb : Owns m s₀ o b
      · obtain ⟨n, hn⟩ := ih b hb
        exact ⟨n, fun _ => hn⟩
      · exact ⟨0, fun h => absurd h hb⟩
    choose depth hdepth using hchild
    refine ⟨Finset.univ.sup depth + 1, fun fuel hfuel s h0 => ?_⟩
    obtain ⟨fuel, rfl⟩ := Nat.exists_eq_add_of_le' (Nat.one_le_of_lt hfuel)
    have hmembers : ∃ t, destroyMembers (releaseShared m fuel) (m.members o) (subRef o s) =
        some t := by
      refine destroyMembers_total (fun b s hb h0 => ?_) (fun _ hl => hl) h0
      have hle : depth b ≤ Finset.univ.sup depth := Finset.le_sup (Finset.mem_univ b)
      obtain ⟨s', hs'⟩ := hdepth b hb fuel (by omega) s h0
      exact ⟨s', hs', h0.trans (releaseShared_vanish h0 hs')⟩
    obtain ⟨t, ht⟩ := hmembers
    by_cases hone : (s.block o).refCount = 1
    · exact ⟨_, releaseShared_succ.mpr ⟨t, by rw [if_pos hone, ht], rfl⟩⟩
    · exact ⟨_, releaseShared_succ.mpr ⟨subRef o s, by rw [if_neg hone], rfl⟩⟩

end Runs

end IceKernel.Libcxx.Graph
