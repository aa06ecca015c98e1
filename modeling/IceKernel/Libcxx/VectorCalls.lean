import IceKernel.Libcxx.VectorRange

/-!
# `libs/libc++/vector`: all members

The copies, the other constructors and `resize(n)` join the calls of a
history. An assignment leaves the old buffer behind.
-/

namespace IceKernel.Libcxx
open Word64 Slots Function

namespace StdVector

variable {T : Type}

section Members

variable [Inhabited T]

/-- The constructor of `n` elements. -/
def constructSized (n : ℕ) : StdVector T := ⟨newArray n, n, n⟩

/-- The constructor from a range. -/
def constructRange (src : List T) : Option (StdVector T) :=
  (writeRange src 0 (newArray src.length)).map fun ptr => ⟨ptr, src.length, src.length⟩

/-- The copy constructor. -/
def copyConstruct (other : StdVector T) : Option (StdVector T) :=
  (copy other.ptr other.sz 0 (newArray other.sz)).map fun ptr => ⟨ptr, other.sz, other.cap⟩

/-- The copy assignment from another vector. The old buffer of this one is not deleted. -/
def copyAssign (_this other : StdVector T) : Option (StdVector T) :=
  (copy other.ptr other.sz 0 (newArray other.sz)).map fun ptr => ⟨ptr, other.sz, other.cap⟩

/-- `resize(n)`. -/
def resizeTo (n : ℕ) (v : StdVector T) : Option (StdVector T) :=
  (if n > v.cap then reserve n v else some v).map fun v => { v with sz := n }

end Members

/-- A call of any member; `v` is the vector it is made on, or the one it constructs. -/
inductive Call (T : Type) where
  | op (o : Op T)
  | constructSized (v n : ℕ)
  | constructRange (v : ℕ) (src : List T)
  | copyConstruct (v other : ℕ)
  | copyAssign (v other : ℕ)
  | resizeTo (v n : ℕ)
  | insertRange (v pos : ℕ) (src : List T)

/-- The vectors of a program, and the buffers that no vector has any more. -/
structure Vectors (T : Type) where
  vec : ℕ → StdVector T
  leaked : List (List T)

def Vectors.init : Vectors T := ⟨fun _ => ⟨[], 0, 0⟩, []⟩

/-- The buffer a call leaves behind. -/
def abandoned (s : Vectors T) : Call T → List (List T)
  | .op (.moveAssign v other) | .copyAssign v other => if v = other then [] else [(s.vec v).ptr]
  | _ => []

/-- The vectors after a call. -/
def callVec [Inhabited T] (s : ℕ → StdVector T) : Call T → Option (ℕ → StdVector T)
  | .op o => step s o
  | .constructSized v n => some (update s v (constructSized n))
  | .constructRange v src => (constructRange src).map (update s v)
  | .copyConstruct v other => (copyConstruct (s other)).map (update s v)
  | .copyAssign v other =>
    if v = other then some s else (copyAssign (s v) (s other)).map (update s v)
  | .resizeTo v n => (resizeTo n (s v)).map (update s v)
  -- if the loop ends at all, it has made at most `size() + 1` tests
  | .insertRange v pos src =>
    (insertRange ((s v).sz + 1) pos src (s v)).map fun r => update s v r.2

def callStep [Inhabited T] (s : Vectors T) (c : Call T) : Option (Vectors T) :=
  (callVec s.vec c).map fun vec => ⟨vec, abandoned s c ++ s.leaked⟩

/-- As for the other calls: positions are in range and sizes are words. The call returns. -/
def CallValid (s : Vectors T) : Call T → Prop
  | .op o => Valid s.vec o
  | .constructSized _ n => n < 2 ^ 64
  | .constructRange _ src => src.length < 2 ^ 64
  | .copyConstruct v other => v ≠ other
  | .copyAssign _ _ => True
  | .resizeTo _ n => n < 2 ^ 64
  | .insertRange v pos src =>
    pos ≤ (s.vec v).sz ∧ (s.vec v).sz + src.length < 2 ^ 64 ∧ pos + src.length ≠ 0

/-- What is copied is as large as its capacity. -/
def FullSource (s : Vectors T) : Call T → Prop
  | .copyConstruct _ other => (s.vec other).sz = (s.vec other).cap
  | .copyAssign v other => v ≠ other → (s.vec other).sz = (s.vec other).cap
  | _ => True

instance decidableCallValid (s : Vectors T) : ∀ c, Decidable (CallValid s c)
  | .op o => decidableValid s.vec o
  | .constructSized _ n => inferInstanceAs (Decidable (n < 2 ^ 64))
  | .constructRange _ src => inferInstanceAs (Decidable (src.length < 2 ^ 64))
  | .copyConstruct v other => inferInstanceAs (Decidable (v ≠ other))
  | .copyAssign _ _ => isTrue trivial
  | .resizeTo _ n => inferInstanceAs (Decidable (n < 2 ^ 64))
  | .insertRange v pos src => inferInstanceAs (Decidable
      (pos ≤ (s.vec v).sz ∧ (s.vec v).sz + src.length < 2 ^ 64 ∧ pos + src.length ≠ 0))

instance decidableFullSource (s : Vectors T) : ∀ c, Decidable (FullSource s c)
  | .copyConstruct _ other => inferInstanceAs (Decidable ((s.vec other).sz = (s.vec other).cap))
  | .copyAssign v other =>
    inferInstanceAs (Decidable (v ≠ other → (s.vec other).sz = (s.vec other).cap))
  | .op _ => isTrue trivial
  | .constructSized _ _ => isTrue trivial
  | .constructRange _ _ => isTrue trivial
  | .resizeTo _ _ => isTrue trivial
  | .insertRange _ _ _ => isTrue trivial

/-! ## Buffers of the right size -/

/-- Every buffer has the slots of its vector's capacity. -/
def Sound (s : ℕ → StdVector T) : Prop := ∃ a, Related s a

theorem Sound.holds {s : ℕ → StdVector T} (h : Sound s) (v : ℕ) :
    Holds (s v) (s v).elements ∧ (s v).cap < 2 ^ 64 := by
  obtain ⟨a, ha⟩ := h
  obtain ⟨hv, hcap⟩ := ha v
  rw [hv.elements_eq]
  exact ⟨hv, hcap⟩

theorem Sound.set {s : ℕ → StdVector T} (h : Sound s) (v : ℕ) {x : StdVector T} {l : List T}
    (hx : Holds x l) (hcap : x.cap < 2 ^ 64) : Sound (update s v x) := by
  obtain ⟨a, ha⟩ := h
  exact ⟨_, ha.set v hx hcap⟩

theorem sound_init : Sound (Vectors.init : Vectors T).vec :=
  ⟨fun _ => [], fun _ => ⟨holds_empty, by simp [Vectors.init]⟩⟩

section Steps

variable [Inhabited T] {v : StdVector T} {l : List T}

theorem holds_constructSized (n : ℕ) :
    Holds (constructSized n : StdVector T) (List.replicate n default) :=
  ⟨⟨[], (List.append_nil _).symm⟩, List.length_replicate.symm, List.length_replicate⟩

theorem holds_constructRange (src : List T) :
    ∃ v, constructRange src = some v ∧ Holds v src ∧ v.cap = src.length := by
  have hwrite := writeRange_append [] src (w := newArray src.length) [] List.length_replicate
  rw [List.length_nil, List.nil_append, List.nil_append, List.append_nil, List.append_nil] at hwrite
  exact ⟨_, by rw [constructRange, hwrite, Option.map_some], ⟨⟨[], (List.append_nil _).symm⟩, rfl,
    rfl⟩, rfl⟩

/-- The buffer of a copy has as many slots as there are elements, whatever the capacity. -/
theorem Holds.copyConstruct (h : Holds v l) :
    StdVector.copyConstruct v = some ⟨l, v.sz, v.cap⟩ := by
  have hcopy := h.copied (n := v.sz) (by rw [h.size])
  rw [StdVector.copyConstruct, hcopy, Option.map_some, h.size, Nat.sub_self]
  simp [newArray]

omit [Inhabited T] in
theorem Holds.copy_holds (h : Holds v l) (hfull : v.sz = v.cap) :
    Holds (⟨l, v.sz, v.cap⟩ : StdVector T) l :=
  ⟨⟨[], (List.append_nil _).symm⟩, h.size, by rw [← hfull, h.size]⟩

theorem Holds.resizeTo (h : Holds v l) (hcap : v.cap < 2 ^ 64) {n : ℕ} (hn : n < 2 ^ 64) :
    ∃ v' l', StdVector.resizeTo n v = some v' ∧ Holds v' l' ∧ v'.cap < 2 ^ 64 := by
  obtain ⟨v', hr, h', hle, -, hmax⟩ := h.reserve n
  rw [StdVector.resizeTo, reserve_of_test, hr, Option.map_some]
  refine ⟨_, v'.ptr.take n, rfl, ⟨⟨v'.ptr.drop n, (List.take_append_drop _ _).symm⟩, ?_,
    h'.capacity⟩, by dsimp only; omega⟩
  exact (List.length_take_of_le (by rw [h'.capacity]; exact hle)).symm

theorem Sound.callVec {s : Vectors T} (h : Sound s.vec) {c : Call T} (hvalid : CallValid s c)
    (hfull : FullSource s c) : ∃ vec, StdVector.callVec s.vec c = some vec ∧ Sound vec := by
  cases c with
  | op o =>
    obtain ⟨a, ha⟩ := h
    obtain ⟨vec, hvec, ha'⟩ := ha.step hvalid
    exact ⟨vec, hvec, _, ha'⟩
  | constructSized v n => exact ⟨_, rfl, h.set v (holds_constructSized n) hvalid⟩
  | constructRange v src =>
    obtain ⟨x, hx, hh, hcap⟩ := holds_constructRange src
    exact ⟨_, by rw [StdVector.callVec, hx, Option.map_some], h.set v hh (hcap ▸ hvalid)⟩
  | copyConstruct v other =>
    obtain ⟨hh, hcap⟩ := h.holds other
    exact ⟨_, by rw [StdVector.callVec, hh.copyConstruct, Option.map_some],
      h.set v (hh.copy_holds hfull) hcap⟩
  | copyAssign v other =>
    by_cases hself : v = other
    · exact ⟨s.vec, by rw [StdVector.callVec, if_pos hself], h⟩
    · obtain ⟨hh, hcap⟩ := h.holds other
      have hcopy : StdVector.copyAssign (s.vec v) (s.vec other) = some _ := hh.copyConstruct
      exact ⟨_, by rw [StdVector.callVec, if_neg hself, hcopy, Option.map_some],
        h.set v (hh.copy_holds (hfull hself)) hcap⟩
  | resizeTo v n =>
    obtain ⟨hh, hcap⟩ := h.holds v
    obtain ⟨x, l, hx, hh', hcap'⟩ := hh.resizeTo hcap hvalid
    exact ⟨_, by rw [StdVector.callVec, hx, Option.map_some], h.set v hh' hcap'⟩
  | insertRange v pos src =>
    obtain ⟨hh, hcap⟩ := h.holds v
    obtain ⟨hpos, hfit, hne⟩ := hvalid
    rw [hh.size] at hpos
    have hfuel : (s.vec v).elements.length < (s.vec v).sz + 1 := by
      rw [← hh.size]
      omega
    obtain ⟨x, hx, hh', hcap'⟩ := hh.insertRange hcap hpos hfit hne hfuel
    exact ⟨_, by rw [StdVector.callVec, hx, Option.map_some], h.set v hh' hcap'⟩

theorem Sound.callStep {s : Vectors T} (h : Sound s.vec) {c : Call T} (hvalid : CallValid s c)
    (hfull : FullSource s c) : ∃ s', StdVector.callStep s c = some s' ∧ Sound s'.vec := by
  obtain ⟨vec, hvec, hsound⟩ := h.callVec hvalid hfull
  exact ⟨_, by rw [StdVector.callStep, hvec, Option.map_some], hsound⟩

/-- A history that copies from full vectors only stays inside the buffers. -/
theorem Sound.run {s : Vectors T} (h : Sound s.vec) {calls : List (Call T)}
    (hvalid : Run.Along StdVector.callStep (fun s c => CallValid s c ∧ FullSource s c) s calls) :
    ∃ t, Run.run StdVector.callStep s calls = some t ∧ Sound t.vec := by
  obtain ⟨t, hrun, ht⟩ := Run.run_total_along (f := fun (_ : Unit) _ => ()) (a := ())
    (R := fun s _ => Sound s.vec) (fun s _ c hs hc => hs.callStep hc.1 hc.2) h hvalid
  exact ⟨t, hrun, ht⟩

end Steps

end StdVector

end IceKernel.Libcxx
