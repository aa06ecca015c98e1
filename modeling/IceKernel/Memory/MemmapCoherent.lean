import IceKernel.Memory.MemmapRanges

/-!
# Pointers between pagemaps, globals and locals

As long as only pagemaps without ranges are forked, a `local` points back at
the pagemap that holds it and at the `global` that lists it, and `map_page`
reaches the pagemaps it should.
-/

namespace IceKernel.Memmap
open Word64 RadixTree Paging

variable {A : Type} {H : Host A} {k m : ℕ} {st st' : State A}

/-! ## Coherence -/

inductive Event where
  | construct
  | mapRange (m va pa length : ℕ) (prot flags : BitVec 32)
  | fork (m : ℕ)

/-- A call on a pagemap that exists. -/
def rangeStep (H : Host A) (k : ℕ) (st : State A) : Event → Option (State A)
  | .construct => (newPagemap H k st).map Prod.snd
  | .mapRange m va pa length prot flags =>
    if m < st.pagemaps.size then (mapRange H k m va pa length prot flags st).map Prod.snd else none
  | .fork m => if m < st.pagemaps.size then (fork H k m st).map Prod.snd else none

/-- Only a pagemap without ranges is forked. -/
def Event.Plain (st : State A) : Event → Prop
  | .fork m => (st.pagemaps.get m).ranges = []
  | _ => True

instance (st : State A) : ∀ e : Event, Decidable (e.Plain st)
  | .construct => isTrue trivial
  | .mapRange .. => isTrue trivial
  | .fork _ => inferInstanceAs (Decidable (_ = _))

/-- No pointer dangles, and each `local` is in one list of ranges and in one list of locals. -/
structure Tidy (st : State A) : Prop where
  held : ∀ m < st.pagemaps.size, ∀ l ∈ (st.pagemaps.get m).ranges, l < st.locals.size ∧
    (st.locals.get l).pagemap = m ∧ (st.locals.get l).global < st.globals.size ∧
    l ∈ (st.globals.get (st.locals.get l).global).locals
  listed : ∀ g < st.globals.size, ∀ l ∈ (st.globals.get g).locals, l < st.locals.size ∧
    (st.locals.get l).global = g ∧ (st.locals.get l).pagemap < st.pagemaps.size ∧
    l ∈ (st.pagemaps.get (st.locals.get l).pagemap).ranges
  shadow_lt : ∀ g < st.globals.size, (st.globals.get g).shadow < st.pagemaps.size
  alone : ∀ g < st.globals.size, ∃ l, (st.globals.get g).locals = [l]

namespace Tidy

theorem boot (k : ℕ) (paging : Paging.State A) : Tidy (boot k paging) where
  held _ _ _ hl := absurd hl List.not_mem_nil
  listed g hg := absurd hg (Nat.not_lt_zero g)
  shadow_lt g hg := absurd hg (Nat.not_lt_zero g)
  alone g hg := absurd hg (Nat.not_lt_zero g)

/-- A new pagemap has no ranges. -/
theorem newPagemap (h : Tidy st) {child : ℕ}
    (he : Memmap.newPagemap H k st = some (child, st')) : Tidy st' := by
  obtain ⟨-, topLevel, paging, -, rfl⟩ := newPagemap_eq_some he
  have hold {m : ℕ} (hm : m < st.pagemaps.size) :
      (st.pagemaps.push ⟨[], topLevel⟩).get m = st.pagemaps.get m := Arena.get_push_of_ne hm.ne
  refine ⟨fun m hm l hl => ?_, fun g hg l hl => ?_, fun g hg => ?_, h.alone⟩
  · dsimp only at hm hl
    by_cases hlast : m = st.pagemaps.size
    · rw [hlast, Arena.get_push_self] at hl
      exact absurd hl List.not_mem_nil
    · rw [Arena.size_push] at hm
      have hlt : m < st.pagemaps.size := by omega
      rw [hold hlt] at hl
      exact h.held m hlt l hl
  · obtain ⟨h1, h2, h3, h4⟩ := h.listed g hg l hl
    refine ⟨h1, h2, Nat.lt_succ_of_lt h3, ?_⟩
    dsimp only
    rw [hold h3]
    exact h4
  · exact Nat.lt_succ_of_lt (h.shadow_lt g hg)

theorem mapRange (h : Tidy st) (hm : m < st.pagemaps.size) {va pa length : ℕ}
    {prot flags : BitVec 32} {ok : Bool}
    (he : Memmap.mapRange H k m va pa length prot flags st = some (ok, st')) : Tidy st' := by
  obtain ⟨topLevel, glob, hlist, hshadow, hlocals, hglobals, hpagemaps⟩ := mapRange_objects he
  have hsize : st'.pagemaps.size = st.pagemaps.size + 1 := by rw [hpagemaps]; rfl
  have hnewLocal : st'.locals.get st.locals.size =
      rangeLocal st.globals.size m va prot flags := by rw [hlocals, Arena.get_push_self]
  have hnewGlobal : st'.globals.get st.globals.size = glob := by
    rw [hglobals, Arena.get_push_self]
  have hlocal {l : ℕ} (hl : l < st.locals.size) : st'.locals.get l = st.locals.get l := by
    rw [hlocals, Arena.get_push_of_ne hl.ne]
  have hglobal {g : ℕ} (hg : g < st.globals.size) : st'.globals.get g = st.globals.get g := by
    rw [hglobals, Arena.get_push_of_ne hg.ne]
  -- the ranges are the old ones, but for the new range of `m`
  have hranges (m' : ℕ) (hm' : m' < st'.pagemaps.size) (l : ℕ) :
      l ∈ (st'.pagemaps.get m').ranges ↔
        (m' < st.pagemaps.size ∧ l ∈ (st.pagemaps.get m').ranges) ∨
          (m' = m ∧ l = st.locals.size) := by
    rw [hpagemaps]
    by_cases hmm : m' = m
    · rw [hmm, Arena.get_set_self, Arena.get_push_of_ne hm.ne]
      simp [hm]
    · rw [Arena.get_set_of_ne hmm]
      by_cases hlast : m' = st.pagemaps.size
      · rw [hlast, Arena.get_push_self]
        simp [hm.ne']
      · have hlt : m' < st.pagemaps.size := by omega
        rw [Arena.get_push_of_ne hlast]
        simp [hlt, hmm]
  refine ⟨fun m' hm' l hl => ?_, fun g hg l hl => ?_, fun g hg => ?_, fun g hg => ?_⟩
  · rcases (hranges m' hm' l).mp hl with ⟨hlt, hl⟩ | ⟨rfl, rfl⟩
    · obtain ⟨h1, h2, h3, h4⟩ := h.held m' hlt l hl
      rw [hlocal h1, hglobal h3, hlocals, hglobals]
      exact ⟨Nat.lt_succ_of_lt h1, h2, Nat.lt_succ_of_lt h3, h4⟩
    · have hg : (st'.locals.get st.locals.size).global = st.globals.size := by rw [hnewLocal]; rfl
      rw [hg, hnewGlobal, hlist, hnewLocal, hlocals, hglobals]
      exact ⟨Nat.lt_succ_self _, rfl, Nat.lt_succ_self _, List.mem_singleton_self _⟩
  · by_cases hlast : g = st.globals.size
    · subst hlast
      rw [hnewGlobal, hlist, List.mem_singleton] at hl
      subst hl
      have hpm : (st'.locals.get st.locals.size).pagemap = m := by rw [hnewLocal]; rfl
      have hsz : m < st'.pagemaps.size := by omega
      rw [hpm]
      refine ⟨by rw [hlocals]; exact Nat.lt_succ_self _, by rw [hnewLocal]; rfl, hsz, ?_⟩
      exact (hranges m hsz _).mpr (Or.inr ⟨rfl, rfl⟩)
    · rw [hglobals, Arena.size_push] at hg
      have hlt : g < st.globals.size := by omega
      rw [hglobal hlt] at hl
      obtain ⟨h1, h2, h3, h4⟩ := h.listed g hlt l hl
      rw [hlocal h1]
      refine ⟨by rw [hlocals]; exact Nat.lt_succ_of_lt h1, h2, by omega, ?_⟩
      exact (hranges _ (by omega) l).mpr (Or.inl ⟨h3, h4⟩)
  · by_cases hlast : g = st.globals.size
    · rw [hlast, hnewGlobal, hshadow]
      omega
    · rw [hglobals, Arena.size_push] at hg
      have hlt : g < st.globals.size := by omega
      rw [hglobal hlt]
      have := h.shadow_lt g hlt
      omega
  · by_cases hlast : g = st.globals.size
    · exact ⟨st.locals.size, by rw [hlast, hnewGlobal, hlist]⟩
    · rw [hglobals, Arena.size_push] at hg
      have hlt : g < st.globals.size := by omega
      rw [hglobal hlt]
      exact h.alone g hlt

/-- The fork of a pagemap without ranges is a new pagemap. -/
theorem fork (h : Tidy st) (hm : m < st.pagemaps.size) (hnil : (st.pagemaps.get m).ranges = [])
    {child : ℕ} (he : Memmap.fork H k m st = some (child, st')) : Tidy st' := by
  obtain ⟨⟨child', st1⟩, h1, h2⟩ := Option.bind_eq_some_iff.mp he
  have htidy := h.newPagemap h1
  obtain ⟨-, topLevel, paging, -, rfl⟩ := newPagemap_eq_some h1
  dsimp only at h2
  rw [Arena.get_push_of_ne hm.ne, hnil, forkRanges, Option.map_some, Option.some.injEq,
    Prod.mk.injEq] at h2
  rwa [← h2.2]

theorem step (h : Tidy st) {e : Event} (hp : e.Plain st) (he : rangeStep H k st e = some st') :
    Tidy st' := by
  cases e with
  | construct =>
    obtain ⟨⟨child, st1⟩, h1, rfl⟩ := Option.map_eq_some_iff.mp he
    exact h.newPagemap h1
  | mapRange m va pa length prot flags =>
    simp only [rangeStep] at he
    split_ifs at he with hm
    obtain ⟨⟨ok, st1⟩, h1, rfl⟩ := Option.map_eq_some_iff.mp he
    exact h.mapRange hm h1
  | fork m =>
    simp only [rangeStep] at he
    split_ifs at he with hm
    obtain ⟨⟨child, st1⟩, h1, rfl⟩ := Option.map_eq_some_iff.mp he
    exact h.fork hm hp h1

end Tidy

/-! ## Forking a pagemap with ranges -/

def tops (st : State A) : List ℕ := (List.range st.pagemaps.size).map st.top

theorem top_mem (hm : m < st.pagemaps.size) : st.top m ∈ tops st :=
  List.mem_map_of_mem (List.mem_range.mpr hm)

/-- The page tables of all pagemaps are in order, and no two pagemaps have the same. -/
structure PageTables (H : Host A) (k : ℕ) (st : State A) : Prop where
  spaces : Spaces H.toMachine k (tops st) st.paging
  distinct : ∀ m < st.pagemaps.size, ∀ m' < st.pagemaps.size, st.top m = st.top m' → m = m'

section Install

variable {K : Machine A} {roots : List ℕ} {v pa : ℕ} {flags : BitVec 64} {cache : Caching}
  {done : ℕ → Prop} {p p' p'' : Paging.State A} {r : ℕ}

/-- The page at `v` has been mapped to `pa` in the pagemaps that are `done`, and nothing else
happened since `p`. -/
structure Installed (K : Machine A) (k : ℕ) (roots : List ℕ) (v pa : ℕ) (done : ℕ → Prop)
    (p p' : Paging.State A) : Prop where
  spaces : Spaces K k roots p'
  clear : ∀ r ∈ roots, ClearAbove K p'.mem r v 3
  mapped : ∀ r ∈ roots, done r → (leafFor K p'.mem r v 3).map getAddress = some pa
  others : ∀ r ∈ roots, ¬ done r → ∀ a d, leafFor K p'.mem r a d = leafFor K p.mem r a d

theorem Installed.map (h : Installed K k roots v pa done p p') (hr : r ∈ roots)
    (hv : LowerHalf v) (hc : (Call.map v pa flags cache).Plain) {ok : Bool}
    (he : map K r v pa flags cache p' = some (ok, p'')) :
    Installed K k roots v pa (fun s => s = r ∨ done s) p p'' := by
  have hstep : step K r p' (.map v pa flags cache) = some p'' := by
    simp only [step, if_pos hc, he, Option.map_some]
  obtain ⟨-, hedit, w, hput, hw⟩ :=
    step_edited (c := .map v pa flags cache) (h.spaces.tree r hr) (h.clear r hr) hstep
  have hothers (s : ℕ) (hs : s ∈ roots) (hsr : s ≠ r) (a d : ℕ) :
      leafFor K p''.mem s a d = leafFor K p'.mem s a d :=
    h.spaces.lower_leaves hr hv hedit hs hsr a d
  refine ⟨h.spaces.lower_edit hr hv hedit, fun s hs => ?_, fun s hs hdone => ?_,
    fun s hs hnot a d => ?_⟩
  · by_cases hsr : s = r
    · rw [hsr]
      exact (hput.clearAbove hv.canonical (Nat.le_refl 3)).mpr (h.clear r hr)
    · exact fun d hd => (hothers s hs hsr v d).trans (h.clear s hs d hd)
  · by_cases hsr : s = r
    · have hleaf : leafFor K p''.mem r v 3 = w := hput.self hv.canonical
      rw [hsr, hleaf, hw]
      rfl
    · rw [hothers s hs hsr]
      exact h.mapped s hs (hdone.resolve_left hsr)
  · rw [hothers s hs fun hsr => hnot (Or.inl hsr)]
    exact h.others s hs (fun hd => hnot (Or.inr hd)) a d

theorem Installed.congr {done' : ℕ → Prop} (h : Installed K k roots v pa done p p')
    (hd : ∀ s, done' s ↔ done s) : Installed K k roots v pa done' p p' where
  spaces := h.spaces
  clear := h.clear
  mapped r hr hdone := h.mapped r hr ((hd r).mp hdone)
  others r hr hnot := h.others r hr fun hdone => hnot ((hd r).mpr hdone)

theorem Installed.mapLocals (st : State A) {ls : List ℕ}
    (h : Installed H.toMachine k (tops st) v pa done p st.paging) (hv : LowerHalf v)
    (hc : (Call.map v pa flags defaultCaching).Plain)
    (hls : ∀ l ∈ ls, (st.locals.get l).pagemap < st.pagemaps.size)
    (he : Memmap.mapLocals H v pa flags ls st = some (true, st')) :
    Installed H.toMachine k (tops st) v pa (fun s => done s ∨
      ∃ l ∈ ls, (st.locals.get l).Covers v ∧ s = st.top (st.locals.get l).pagemap) p st'.paging := by
  induction ls generalizing st done with
  | nil =>
    simp only [Memmap.mapLocals, Option.some.injEq, Prod.mk.injEq, true_and] at he
    rw [← he]
    exact h.congr (by simp)
  | cons l ls ih =>
    have hls' : ∀ l' ∈ ls, (st.locals.get l').pagemap < st.pagemaps.size := fun l' hl' =>
      hls l' (List.mem_cons_of_mem _ hl')
    rw [Memmap.mapLocals] at he
    split_ifs at he with hcov
    · obtain ⟨⟨ok, paging⟩, h1, h2⟩ := Option.bind_eq_some_iff.mp he
      have hnext := h.map (top_mem (hls l List.mem_cons_self)) hv hc h1
      dsimp only at h2
      split_ifs at h2 with hok
      · refine (ih { st with paging := paging } hnext hls' h2).congr fun s => ?_
        rw [List.exists_mem_cons_iff]
        constructor
        · rintro (hd | ⟨-, rfl⟩ | hd)
          · exact Or.inl (Or.inr hd)
          · exact Or.inl (Or.inl rfl)
          · exact Or.inr hd
        · rintro ((rfl | hd) | hd)
          · exact Or.inr (Or.inl ⟨hcov, rfl⟩)
          · exact Or.inl hd
          · exact Or.inr (Or.inr hd)
      · simp at h2
    · refine (ih st h hls' he).congr fun s => or_congr Iff.rfl ?_
      rw [List.exists_mem_cons_iff]
      exact or_iff_right fun hd => hcov hd.1

end Install

end IceKernel.Memmap
