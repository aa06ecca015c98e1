import IceKernel.Lib.LinkedList
import IceKernel.Memory.Slab
import Mathlib.Data.List.Nodup
import Mathlib.Data.Nat.Factorization.Basic

/-!
# The page that `slab_t::init` lays out, for any object size
-/

namespace IceKernel.Slab
open ByteMemory Word64 LinkedList

variable {P : Type} {K : Kernel P} {size : ℕ}

/-! ## The header space -/

/-- `align_up` rounds 8 up to a power of two, also where its second argument is none. -/
theorem headerSpace_eq {k t : ℕ} (hk : 3 ≤ k) (hlt : 2 ^ k * (2 * t + 1) < 2 ^ 64) :
    headerSpace (2 ^ k * (2 * t + 1)) = 2 ^ k := by
  have h8 : 2 ^ 3 ≤ 2 ^ k := Nat.pow_le_pow_right (by norm_num) hk
  have hle : 2 ^ k ≤ 2 ^ k * (2 * t + 1) := Nat.le_mul_of_pos_right _ (Nat.succ_pos _)
  have hmod : 2 ^ k * (2 * t + 1) % 2 ^ 3 = 0 :=
    Nat.mod_eq_zero_of_dvd ((Nat.pow_dvd_pow 2 hk).mul_right _)
  have hseven : sub (wrap (8 + 2 ^ k * (2 * t + 1))) 1 = 2 ^ k * (2 * t + 1) + 7 := by
    unfold sub wrap
    omega
  have hone : sub (2 ^ k * (2 * t + 1)) 1 = 2 ^ k * (2 * t + 1) - 1 := sub_of_le (by omega) hlt
  rw [headerSpace, alignUp, hseven, alignDown, hone]
  exact and_compl64_pred (by omega) hlt

/-- A multiple of 8, taken apart at its lowest bit. -/
theorem exists_two_pow_mul_odd (hpos : 0 < size) (h8 : 8 ∣ size) :
    ∃ k t, 3 ≤ k ∧ size = 2 ^ k * (2 * t + 1) := by
  obtain ⟨k, q, ⟨t, rfl⟩, hsize⟩ := Nat.exists_eq_two_pow_mul_odd (Nat.pos_iff_ne_zero.1 hpos)
  refine ⟨k, t, ?_, hsize⟩
  have hcoprime : Nat.Coprime (2 ^ 3) (2 * t + 1) :=
    Nat.Coprime.pow_left 3 ((Nat.coprime_two_left).2 ⟨t, rfl⟩)
  have hdvd : 2 ^ 3 ∣ 2 ^ k := by
    rw [hsize] at h8
    exact hcoprime.dvd_of_dvd_mul_right h8
  exact (Nat.pow_dvd_pow_iff_le_right (by norm_num)).1 hdvd

/-- The header space is the largest power of two that divides the size. -/
theorem headerSpace_isGreatest (hpos : 0 < size) (h8 : 8 ∣ size) (hlt : size < 2 ^ 64) :
    IsGreatest {d | (∃ k, d = 2 ^ k) ∧ d ∣ size} (headerSpace size) := by
  obtain ⟨k, t, hk, rfl⟩ := exists_two_pow_mul_odd hpos h8
  rw [headerSpace_eq hk hlt]
  refine ⟨⟨⟨k, rfl⟩, Nat.dvd_mul_right _ _⟩, ?_⟩
  rintro d ⟨⟨j, rfl⟩, hd⟩
  have hcoprime : Nat.Coprime (2 ^ j) (2 * t + 1) :=
    Nat.Coprime.pow_left j ((Nat.coprime_two_left).2 ⟨t, rfl⟩)
  exact Nat.le_of_dvd (by positivity) (hcoprime.dvd_of_dvd_mul_right hd)

/-- There is room for the header, and no slot is lost to it that it does not need. -/
theorem headerSpace_bounds (hpos : 0 < size) (h8 : 8 ∣ size) (hlt : size < 2 ^ 64) :
    8 ≤ headerSpace size ∧ headerSpace size ≤ size ∧ headerSpace size ∣ size := by
  have hgreatest := headerSpace_isGreatest hpos h8 hlt
  have hdvd : headerSpace size ∣ size := hgreatest.1.2
  exact ⟨hgreatest.2 ⟨⟨3, rfl⟩, h8⟩, Nat.le_of_dvd hpos hdvd, hdvd⟩

/-! ## The slots of a page -/

/-- A size for which `init` finds room: whole words, and a slot behind the header space. -/
structure Fits (size : ℕ) : Prop where
  pos : 0 < size
  words : 8 ∣ size
  header : 8 ≤ headerSpace size
  room : headerSpace size + size ≤ 0x1000

def slotsPerPage (size : ℕ) : ℕ := (0x1000 - headerSpace size) / size

/-- The slots for objects of a size in the page at `page`. -/
def slotsAt (size page : ℕ) : List ℕ :=
  (List.range (slotsPerPage size)).map fun j => page + headerSpace size + j * size

namespace Fits

theorem count_pos (h : Fits size) : 1 ≤ slotsPerPage size :=
  Nat.div_pos (by have := h.room; omega) h.pos

/-- The last slot of a page also fits. -/
theorem last_fits (h : Fits size) :
    headerSpace size + (slotsPerPage size - 1) * size + size ≤ 0x1000 := by
  have hroom := h.room
  have hmul : slotsPerPage size * size ≤ 0x1000 - headerSpace size := Nat.div_mul_le_self _ _
  rw [Nat.add_assoc, ← Nat.succ_mul, Nat.succ_eq_add_one, Nat.sub_add_cancel h.count_pos]
  omega

theorem words_mul (h : Fits size) (j : ℕ) : 8 * (j * (size / 8)) = j * size := by
  rw [Nat.mul_left_comm, Nat.mul_div_cancel' h.words]

theorem mem_slotsAt {page x : ℕ} :
    x ∈ slotsAt size page ↔ ∃ j < slotsPerPage size, x = page + headerSpace size + j * size := by
  simp [slotsAt, eq_comm]

/-- A slot lies in its page, above the header space. -/
theorem slot_within (h : Fits size) {page x : ℕ} (hx : x ∈ slotsAt size page) :
    page + headerSpace size ≤ x ∧ x + size ≤ page + 0x1000 := by
  obtain ⟨j, hj, rfl⟩ := mem_slotsAt.1 hx
  have hfit := h.last_fits
  have hmul : j * size ≤ (slotsPerPage size - 1) * size := Nat.mul_le_mul_right _ (by omega)
  omega

theorem slotsAt_nodup (h : Fits size) (page : ℕ) : (slotsAt size page).Nodup := by
  refine List.Nodup.map (fun j k hjk => ?_) List.nodup_range
  exact Nat.eq_of_mul_eq_mul_right h.pos (by omega)

end Fits

/-! ## `slab_t::init` -/

theorem linkLoop_sameOutside (m : Mem) (array : ℕ) {count : ℕ} (hc : 1 ≤ count) (n : ℕ) :
    SameOutside m (linkLoop m array count n) array (8 * (n * count)) := by
  induction n with
  | zero => exact SameOutside.rfl
  | succ n ih =>
    have hmul : (n + 1) * count = n * count + count := Nat.succ_mul n count
    apply SameOutside.trans
    · exact ih.mono (Nat.le_refl _) (by omega)
    · exact (store_sameOutside _ _ _ 8).mono (by omega) (by omega)

theorem linkLoop_link (m : Mem) (array : ℕ) {count n : ℕ} (hc : 1 ≤ count)
    (hlt : array + 8 * (n * count) < 2 ^ 64) {j : ℕ} (hj : j < n) :
    load64 (linkLoop m array count n) (array + 8 * (j * count)) =
      array + 8 * ((j + 1) * count) := by
  induction n with
  | zero => omega
  | succ n ih =>
    have hmul : (n + 1) * count = n * count + count := Nat.succ_mul n count
    rw [linkLoop]
    by_cases hjn : j = n
    · subst hjn
      exact load64_store64 _ _ hlt
    · have hle : (j + 1) * count ≤ n * count := Nat.mul_le_mul_right count (by omega)
      rw [Nat.succ_mul] at hle
      refine (load_of_sameOutside (store_sameOutside _ _ _ 8) ?_).trans (ih ?_ ?_) <;> omega

namespace Fits

/-- The writes of `init` with the index arithmetic done: no step of it wraps. -/
theorem carve_eq (h : Fits size) (m : Mem) {page owner : ℕ} (hlt : page + 0x1000 ≤ 2 ^ 64) :
    carve m page owner size =
      store64 (linkLoop (store64 m page owner) (page + headerSpace size) (size / 8)
        (slotsPerPage size - 1))
        (page + headerSpace size + (slotsPerPage size - 1) * size) 0 := by
  have hroom := h.room
  have hpos := h.pos
  have havail : sub 0x1000 (headerSpace size) = 0x1000 - headerSpace size :=
    sub_of_le (by omega) (by norm_num)
  have hmax : sub ((0x1000 - headerSpace size) / size) 1 = slotsPerPage size - 1 :=
    sub_of_le h.count_pos ((Nat.div_le_self _ _).trans_lt (by omega))
  have harray : wrap (page + headerSpace size) = page + headerSpace size := wrap_of_lt (by omega)
  simp only [carve, havail, hmax, harray, h.words_mul]

/-- What `init` leaves in the page: the owner in the header and all slots linked up, in order. -/
theorem carve_layout (h : Fits size) (m : Mem) (page : ℕ) {owner : ℕ}
    (hlt : page + 0x1000 ≤ 2 ^ 64) (ho : owner < 2 ^ 64) :
    SameOutside m (carve m page owner size) page 0x1000 ∧
      load64 (carve m page owner size) page = owner ∧
      Chain 0 (load64 (carve m page owner size)) (page + headerSpace size) (slotsAt size page) := by
  have hfit := h.last_fits
  have hheader := h.header
  have hwords : 8 ≤ size := Nat.le_of_dvd h.pos h.words
  have hc : 1 ≤ size / 8 := by omega
  rw [h.carve_eq m hlt]
  generalize hL : linkLoop (store64 m page owner) (page + headerSpace size) (size / 8)
    (slotsPerPage size - 1) = L
  have hLout : SameOutside (store64 m page owner) L (page + headerSpace size)
      ((slotsPerPage size - 1) * size) := by
    have hout := linkLoop_sameOutside (store64 m page owner) (page + headerSpace size) hc
      (slotsPerPage size - 1)
    rwa [hL, h.words_mul] at hout
  -- the last store is the terminating 0
  have hlast := store_sameOutside L (page + headerSpace size + (slotsPerPage size - 1) * size) 0 8
  refine ⟨?_, ?_, ?_⟩
  · apply SameOutside.trans ((store_sameOutside m page owner 8).mono (Nat.le_refl _) (by omega))
    apply SameOutside.trans (hLout.mono (by omega) (by omega))
    exact hlast.mono (by omega) (by omega)
  · refine (load_of_sameOutside hlast (by omega)).trans ?_
    refine (load_of_sameOutside hLout (by omega)).trans ?_
    exact load64_store64 m page ho
  · have hchain := @chain_of_links ℕ 0 (load64 (store64 L
        (page + headerSpace size + (slotsPerPage size - 1) * size) 0))
      (fun j => page + headerSpace size + j * size) (slotsPerPage size - 1)
      (fun j _ => by omega) (fun j hj => ?_) (load64_store64 _ _ (by norm_num))
    · rwa [Nat.sub_add_cancel h.count_pos, Nat.zero_mul, Nat.add_zero] at hchain
    · have hle : (j + 1) * size ≤ (slotsPerPage size - 1) * size := Nat.mul_le_mul_right _ hj
      rw [Nat.succ_mul] at hle
      refine (load_of_sameOutside hlast (by omega)).trans ?_
      have hlink := linkLoop_link (store64 m page owner) (page + headerSpace size) hc
        (by rw [h.words_mul]; omega) hj
      rwa [hL, h.words_mul, h.words_mul] at hlink

end Fits

/-- The address of a run in the direct map. -/
theorem run_addr {n a : ℕ} {phys' : P} {m m' : Mem} {phys : P} (hn : 0 < n)
    (he : K.source.alloc n phys m = some (a, phys', m')) :
    tohh K.hhdm.offset a = K.hhdm.offset + a ∧ K.hhdm.offset + a + n * 0x1000 ≤ 2 ^ 64 := by
  have hwin := K.source.inWindow ((K.source.alloc_live hn he (a, n)).mpr (Or.inl rfl))
  have htop := K.hhdm.top_le
  dsimp only at hwin
  exact ⟨K.hhdm.tohh_eq (by omega), by omega⟩

theorem Kernel.slabAddr_lt (K : Kernel P) (i : Fin 10) : K.slabAddr i < 2 ^ 64 := by
  have := K.base_lt
  have := i.isLt
  unfold Kernel.slabAddr
  omega

/-- What is found in a page behind its new `head`: the slots in order, each once, and in the header
the address of the owner. -/
structure LaidOut (m : Mem) (page owner size head : ℕ) : Prop where
  chain : Chain 0 (load64 m) head (slotsAt size page)
  count : (slotsAt size page).length = (0x1000 - headerSpace size) / size
  nodup : (slotsAt size page).Nodup
  within : ∀ x ∈ slotsAt size page, page + headerSpace size ≤ x ∧ x + size ≤ page + 0x1000
  header : load64 m page = owner

theorem Fits.carve_laidOut (h : Fits size) (m : Mem) {page owner : ℕ}
    (hlt : page + 0x1000 ≤ 2 ^ 64) (ho : owner < 2 ^ 64) :
    LaidOut (carve m page owner size) page owner size (wrap (page + headerSpace size)) := by
  obtain ⟨-, hheader, hchain⟩ := h.carve_layout m page hlt ho
  have hroom := h.room
  have hpos := h.pos
  have hhead : wrap (page + headerSpace size) = page + headerSpace size := wrap_of_lt (by omega)
  rw [← hhead] at hchain
  exact ⟨hchain, by simp [slotsAt, slotsPerPage], h.slotsAt_nodup page,
    fun x hx => h.slot_within hx, hheader⟩

theorem Fits.slabInit_laidOut (h : Fits size) {i : Fin 10} {st st' : Heap P}
    (he : slabInit K i size st = some st') :
    ∃ page, LaidOut st'.mem page (K.slabAddr i) size (st'.slabs i).head := by
  obtain ⟨⟨a, phys', m'⟩, hal, rfl⟩ := Option.map_eq_some_iff.mp he
  obtain ⟨haddr, htop⟩ := run_addr Nat.one_pos hal
  refine ⟨tohh K.hhdm.offset a, ?_⟩
  dsimp only
  rw [Function.update_self]
  exact h.carve_laidOut m' (by omega) (K.slabAddr_lt i)

/-- For every object size: the header space is the largest power of two that divides it, and where
a slot fits behind, the writes of `init` lay the page out, whatever it held. -/
theorem slab_page_layout (hpos : 0 < size) (h8 : 8 ∣ size) (hlt : size < 2 ^ 64) :
    IsGreatest {d | (∃ k, d = 2 ^ k) ∧ d ∣ size} (headerSpace size) ∧
      (8 ≤ headerSpace size ∧ headerSpace size ≤ size ∧ headerSpace size ∣ size) ∧
      (headerSpace size + size ≤ 0x1000 →
        (∀ (m : Mem) (page owner : ℕ), page + 0x1000 ≤ 2 ^ 64 → owner < 2 ^ 64 →
          LaidOut (carve m page owner size) page owner size (wrap (page + headerSpace size)) ∧
          SameOutside m (carve m page owner size) page 0x1000) ∧
        ∀ (K : Kernel P) (i : Fin 10) (st st' : Heap P), slabInit K i size st = some st' →
          ∃ page, LaidOut st'.mem page (K.slabAddr i) size (st'.slabs i).head) := by
  have hbounds := headerSpace_bounds hpos h8 hlt
  refine ⟨headerSpace_isGreatest hpos h8 hlt, hbounds, fun hroom => ?_⟩
  have hfits : Fits size := ⟨hpos, h8, hbounds.1, hroom⟩
  exact ⟨fun m page owner hpage howner => ⟨hfits.carve_laidOut m hpage howner,
    (hfits.carve_layout m page hpage howner).1⟩, fun K i st st' he => hfits.slabInit_laidOut he⟩

/-- Objects of 24 bytes, in a page full of ones. -/
theorem slab_page_layout_ones :
    IsGreatest {d | (∃ k, d = 2 ^ k) ∧ d ∣ 24} (headerSpace 24) ∧
      LaidOut (carve (fun _ => 255) 0x1000 8 24) 0x1000 8 24 (wrap (0x1000 + headerSpace 24)) :=
  have hlayout := @slab_page_layout Unit 24 (by decide) (by decide) (by decide)
  ⟨hlayout.1, ((hlayout.2.2 (by decide)).1 (fun _ => 255) 0x1000 8 (by decide) (by decide)).1⟩

end IceKernel.Slab
