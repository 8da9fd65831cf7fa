import Xv6Swap.Spec.Map

/-!
# Unmapping

`uvmunmap` removes user pages, freeing the frame of a resident page and the slot of a swapped one,
and `uvmdealloc` shrinks an address space with it (`uvmunmap_spec`, `uvmdealloc_spec`).  They stop
only if a page of the range is not mapped.  `uvmclear` takes the U bit from a page
(`uvmclear_spec`).
-/

namespace Xv6Swap

open K Set

variable {σ : KState} {g : Ghost} {f r v s a b : ℕ}

/-- The pages of the table `r` from `a` up to, not including, `b`. -/
def pageRange (r a b : ℕ) : Set (ℕ × ℕ) := { p | p.1 = r ∧ a ≤ p.2 ∧ p.2 < b }

theorem mem_pageRange {a r' : ℕ} : (r', v) ∈ pageRange r a b ↔ r' = r ∧ a ≤ v ∧ v < b :=
  Iff.rfl

theorem notMem_single {w : ℕ} (h : w ≠ v) : (r, w) ∉ ({(r, v)} : Set (ℕ × ℕ)) := fun hx => by
  cases hx; exact h rfl

theorem Keeps.consRange {σ₁ σ₂ : KState} {g₁ g₂ : Ghost}
    (k₁ : Keeps { pages := {(r, v)} } σ g σ₁ g₁)
    (k₂ : Keeps { pages := pageRange r (v + 1) b } σ₁ g₁ σ₂ g₂) (hv : v < b) :
    Keeps { pages := pageRange r v b } σ g σ₂ g₂ :=
  Keeps.trans
    (k₁.mono (by rintro _ rfl; exact ⟨rfl, Nat.le_refl v, hv⟩) (fun _ hx => hx) fun _ hx => hx)
    (k₂.mono (fun _ hp => ⟨hp.1, Nat.le_of_succ_le hp.2.1, hp.2.2⟩) (fun _ hx => hx) fun _ hx => hx)

/-! ### One page -/

/-- Freeing a frame and a store outside of it commute. -/
theorem kfree_store_comm (hf : Allocatable σ.link f) (ha : a + 8 ≤ f ∨ f + 4096 ≤ a) (w : Word) :
    (do kfree f; store a w : K Unit) σ = (do store a w; kfree f : K Unit) σ := by
  rw [Run.bind_ok (kfree_apply hf)]
  simp only [store, Run.modify_apply, Run.bind_modify]
  rw [kfree_apply (σ := { σ with mem := σ.mem.store64 a w }) hf,
    Mem.store64_store64_comm _ (by omega), Mem.fill_store64_comm _ (by omega)]

/-- A page that can be read is not an interior entry. -/
theorem pteFlags_ne_pteV {e : Word} (hR : has e pteR = true) : pteFlags e ≠ pteV := by
  intro h
  have h1 := getLsbD_pteFlags e (i := 1) (by omega)
  rw [has_pteR] at hR
  rw [h, hR] at h1
  exact absurd h1 (by decide)

/-- What unmapping one page does. -/
def Unmapped (σ : KState) (g : Ghost) (r v : ℕ) (σ' : KState) : Prop :=
  ∃ g', Inv σ' g' ∧ Keeps { pages := {(r, v)} } σ g σ' g' ∧ leaf σ'.mem r v = 0

section

variable (h : Inv σ g) (hr : g.role r = .root)
include h hr

/-- A resident page is unmapped and its frame freed. -/
theorem uvmunmap_resident (hv : v < uvpn)
    (ha : entry σ.mem r (v * 4096) = some a) (hV : has (leaf σ.mem r v) pteV = true)
    (hf : pte2pa (leaf σ.mem r v) = f) : Ensures ((do
        let idx ← pa2pageidx f
        lruRemove idx
        kfree f
        store a 0 : K Unit) σ) (fun _ => Unmapped σ g r v) fun _ => False := by
  have hv27 : v < 2 ^ 27 := lt_trans hv (by decide)
  have hrole : g.role f = .user r v := (h.user_iff hr hv).2 ⟨hV, hf⟩
  have hf0 : g.role f ≠ .none := by simp [hrole]
  rw [Run.bind_ok (pa2pageidx_apply ((h.dom f).1 hf0) σ)]
  refine (lruRemove_spec h (pageIdx f)).bind ?_
  rintro - σ₁ ⟨h1, k1, -, pages', head', tail', rfl⟩
  rw [kfree_store_comm ((h1.dom f).1 hf0) (by
    have := h1.entry_apart hr ha hf0 (by rw [hrole]; rfl)
    omega)]
  simp only [store, Run.bind_modify]
  obtain ⟨h2, k2⟩ := h1.unmapEntry hr hv ha hV hf h.lru.ring.nodup.not_mem_erase
  refine (kfree_spec h2 (f := f) (Ghost.setRole_self ..)).imp ?_
  rintro - σ₃ ⟨⟨m', t', rfl⟩, h3, k3, -⟩
  rw [Ghost.setRole_setRole] at h3 k3
  have hrf : r ≠ f := by rintro rfl; rw [hr] at hrole; cases hrole
  have k13 : Keeps ⟨{(r, v)}, {f}, ∅⟩ σ g _ _ := ((k1.mono_empty _).trans k2).trans
    (k3.mono (empty_subset _) (fun _ hx => hx) fun _ hx => hx)
  refine ⟨_, h3, k13.shrinkFrames h.tree h.leaves fun x hx _ => ?_, ?_⟩
  · obtain rfl : x = f := hx
    simp [hrole]
  · refine k3.leaf_zero h2 h3 ?_ hrf (notMem_empty _) hv27 ?_
    · rw [Ghost.setRole_of_ne _ _ hrf]; exact hr
    · rw [h1.leaf_store hr hv27 ha hr hv27, setLeaf_self]

/-- A swapped page is unmapped and its slot freed. -/
theorem uvmunmap_swapped (hv : v < uvpn)
    (ha : entry σ.mem r (v * 4096) = some a) (hV : has (leaf σ.mem r v) pteV = false)
    (hS : has (leaf σ.mem r v) pteSwapped = true) (hs : pteSlot (leaf σ.mem r v) = s) :
    Ensures ((do freeSwapSlot s; store a 0 : K Unit) σ) (fun _ => Unmapped σ g r v)
      fun _ => False := by
  have hv27 : v < 2 ^ 27 := lt_trans hv (by decide)
  have hslot : g.slot s = .page r v := (h.slot_iff hr hv).2 ⟨hV, hS, hs⟩
  have hslt := h.slots.range s (by simp [hslot])
  have hbm := (h.slots.bitmap σ.swapBitmap).2 rfl
  have hap := h.entry_apart hr ha (x := σ.swapBitmap) (by simp [hbm]) (by rw [hbm]; rfl)
  rw [Run.bind_ok (freeSwapSlot_apply σ s)]
  simp only [store, Run.modify_apply]
  rw [clearSlotBit_store64 hslt (by omega)]
  obtain ⟨h1, k1⟩ := h.dropEntry hr hv ha hV hS hs
  obtain ⟨h2, k2⟩ := h1.clearSlot (s := s) (Ghost.setSlot_self ..)
  have k12 : Keeps ⟨{(r, v)}, ∅, {s}⟩ σ g _ _ := k1.trans
    (k2.mono (empty_subset _) (fun _ hx => hx) fun _ hx => hx)
  refine ⟨_, h2, k12.shrinkSlots fun x hx _ => ?_, ?_⟩
  · obtain rfl : x = s := hx
    simp [hslot]
  · refine k2.leaf_zero h1 h2 hr (notMem_empty _) (notMem_empty _) hv27 ?_
    rw [h.leaf_store hr hv27 ha hr hv27, setLeaf_self]

/-- **One iteration of `uvmunmap`** on a user page stops only if the page is not mapped. -/
theorem uvmunmapPage_spec (hv : v < uvpn) :
    Ensures (uvmunmapPage r (v * 4096) true σ) (fun _ => Unmapped σ g r v)
      fun _ => logical σ r v = none := by
  rw [uvmunmapPage, Run.bind_ok (walk_false_apply (vaddr_lt hv) σ)]
  cases ha : entry σ.mem r (v * 4096) with
  | none =>
    refine (h.leaf_eq_zero_iff hr hv).1 ?_
    rw [leaf, ha]
  | some a =>
    simp only [load, Run.bind_read, ← Tree.leaf_of_entry ha]
    cases hV : has (leaf σ.mem r v) pteV with
    | true =>
      have hR := ((h.pteOk hr hv).valid hV).2.1
      simp only [Bool.not_true, Bool.false_eq_true, if_false, if_neg (pteFlags_ne_pteV hR), if_true]
      exact (uvmunmap_resident h hr hv ha hV rfl).weaken
    | false =>
      cases hS : has (leaf σ.mem r v) pteSwapped with
      | true =>
        simp only [Bool.not_false, if_true]
        exact (uvmunmap_swapped h hr hv ha hV hS rfl).weaken
      | false => exact pageOf_eq_none_iff.2 ⟨hV, hS⟩

/-- One iteration of `uvmunmap` without freeing, on `TRAMPOLINE` or `TRAPFRAME`. -/
theorem uvmunmapPage_special_spec (hv : uvpn ≤ v) (hva : v * 4096 < maxva) :
    Ensures (uvmunmapPage r (v * 4096) false σ) (fun _ => Unmapped σ g r v)
      fun _ => leaf σ.mem r v = 0 := by
  have hv27 : v < 2 ^ 27 := by simp only [maxva] at hva; omega
  rw [uvmunmapPage, Run.bind_ok (walk_false_apply hva σ)]
  cases ha : entry σ.mem r (v * 4096) with
  | none => rw [leaf, ha]; rfl
  | some a =>
    simp only [load, Run.bind_read, ← Tree.leaf_of_entry ha]
    rcases h.leaves.special r v hr hv hv27 with h0 | ⟨hV, hR, -⟩
    · rw [h0]; exact rfl
    · simp only [hV, Bool.not_true, Bool.false_eq_true, if_false, if_neg (pteFlags_ne_pteV hR)]
      obtain ⟨h1, k1⟩ := h.setSpecial hr hv hv27 ha (e := 0) (.inl rfl)
      refine ⟨_, h1, k1, ?_⟩
      rw [h.leaf_store hr hv27 ha hr hv27, setLeaf_self]

end

/-! ### Ranges -/

theorem uvmunmapLoop_spec : ∀ (n k : ℕ) (σ : KState) (g : Ghost) (v : ℕ), n < k → Inv σ g →
    g.role r = .root → v + n ≤ uvpn → Ensures (uvmunmapLoop r ((v + n) * 4096) true k (v * 4096) σ)
      (fun _ σ' => ∃ g', Inv σ' g' ∧ Keeps { pages := pageRange r v (v + n) } σ g σ' g' ∧
        ∀ w, v ≤ w → w < v + n → leaf σ'.mem r w = 0)
      fun _ => ∃ w, v ≤ w ∧ w < v + n ∧ logical σ r w = none := by
  intro n
  induction n with
  | zero =>
    intro k σ g v hk h hr hv
    obtain ⟨k, rfl⟩ : ∃ k', k = k' + 1 := ⟨k - 1, by omega⟩
    rw [uvmunmapLoop, if_neg (by omega)]
    exact ⟨g, h, Keeps.refl .., fun w h1 h2 => absurd h2 (by omega)⟩
  | succ n ih =>
    intro k σ g v hk h hr hv
    obtain ⟨k, rfl⟩ : ∃ k', k = k' + 1 := ⟨k - 1, by omega⟩
    have hnext : (v * 4096 + pgsize) % 2 ^ 64 = (v + 1) * 4096 := by
      simp only [uvpn, trapframeVa, trampolineVa, maxva, pgsize] at *; omega
    have hlast : (v + (n + 1)) * 4096 = (v + 1 + n) * 4096 := by omega
    rw [uvmunmapLoop, if_pos (by omega), hnext, hlast]
    refine ((uvmunmapPage_spec h hr (by omega)).mono (fun _ _ hq => hq) fun e he =>
      ⟨v, le_refl _, by omega, he⟩).bind ?_
    rintro - σ₁ ⟨g₁, h1, k1, hz⟩
    have hr₁ := (k1.root r (notMem_empty _)).2 hr
    refine (ih k σ₁ g₁ (v + 1) (by omega) h1 hr₁ (by omega)).mono ?_ ?_
    · rintro - σ₂ ⟨g₂, h2, k2, hz2⟩
      rw [show v + 1 + n = v + (n + 1) by omega] at k2
      refine ⟨g₂, h2, k1.consRange k2 (by omega), fun w hw hw' => ?_⟩
      by_cases hwv : w = v
      · subst hwv
        exact k2.leaf_zero h1 h2 hr₁ (notMem_empty _)
          (fun hx => absurd (mem_pageRange.1 hx).2.1 (by omega))
          (lt_trans (by omega : w < uvpn) (by decide)) hz
      · exact hz2 w (by omega) (by omega)
    · rintro e ⟨w, hw, hw', hlog⟩
      refine ⟨w, by omega, by omega, ?_⟩
      rwa [k1.page r w hr (notMem_empty _) (by omega) (notMem_single (by omega))] at hlog

/-- **`uvmunmap` with freeing**, on a range of user pages. -/
theorem uvmunmap_spec (h : Inv σ g) (hr : g.role r = .root) {n : ℕ} (hv : v + n ≤ uvpn) :
    Ensures (uvmunmap r (v * 4096) n true σ)
      (fun _ σ' => ∃ g', Inv σ' g' ∧ Keeps { pages := pageRange r v (v + n) } σ g σ' g' ∧
        ∀ w, v ≤ w → w < v + n → leaf σ'.mem r w = 0)
      fun _ => ∃ w, v ≤ w ∧ w < v + n ∧ logical σ r w = none := by
  have hlast : (v * 4096 + n * pgsize) % 2 ^ 64 = (v + n) * 4096 := by
    simp only [uvpn, trapframeVa, trampolineVa, maxva, pgsize] at *; omega
  rw [uvmunmap, hlast]
  exact uvmunmapLoop_spec n (n + 1) σ g v (by omega) h hr hv

/-- `uvmunmap` of `TRAMPOLINE` or `TRAPFRAME`. -/
theorem uvmunmap_special_spec (h : Inv σ g) (hr : g.role r = .root) (hv : uvpn ≤ v)
    (hva : v * 4096 < maxva) : Ensures (uvmunmap r (v * 4096) 1 false σ) (fun _ => Unmapped σ g r v)
      fun _ => leaf σ.mem r v = 0 := by
  have hlast : (v * 4096 + 1 * pgsize) % 2 ^ 64 = v * 4096 + 4096 := by
    simp only [maxva, pgsize] at *; omega
  have hnext : (v * 4096 + pgsize) % 2 ^ 64 = v * 4096 + 4096 := by
    simp only [maxva, pgsize] at *; omega
  rw [uvmunmap, hlast, uvmunmapLoop, if_pos (by omega), hnext]
  refine (uvmunmapPage_special_spec h hr hv hva).bind ?_
  rintro - σ₁ hσ₁
  rw [uvmunmapLoop, if_neg (by omega)]
  exact hσ₁

/-! ### Shrinking -/

/-- The number of pages of an address space of `sz` bytes. -/
def npg (sz : ℕ) : ℕ := (sz + 4095) / 4096

theorem pgroundup_eq {sz : ℕ} (h : sz + 4095 < 2 ^ 64) : pgroundup sz = npg sz * 4096 := by
  simp only [pgroundup, npg, pgsize]
  omega

/-- **`uvmdealloc`.** -/
theorem uvmdealloc_spec (h : Inv σ g) (hr : g.role r = .root) (oldsz newsz : ℕ)
    (hold : npg oldsz ≤ uvpn) : Ensures (uvmdealloc r oldsz newsz σ)
      (fun ret σ' => ret = min oldsz newsz ∧ ∃ g', Inv σ' g' ∧
        Keeps { pages := pageRange r (npg newsz) (npg oldsz) } σ g σ' g' ∧
        ∀ w, npg newsz ≤ w → w < npg oldsz → leaf σ'.mem r w = 0)
      fun _ => ∃ w, npg newsz ≤ w ∧ w < npg oldsz ∧ logical σ r w = none := by
  have hold' : oldsz + 4095 < 2 ^ 64 := by
    simp only [uvpn, trapframeVa, trampolineVa, maxva, pgsize, npg] at hold; omega
  have hmono : ∀ {x y}, x ≤ y → npg x ≤ npg y := fun hxy => Nat.div_le_div_right (by omega)
  rw [uvmdealloc]
  split
  · rename_i hge
    refine ⟨by omega, g, h, Keeps.refl .., fun w h1 h2 => ?_⟩
    have := hmono hge
    omega
  · rename_i hlt
    rw [pgroundup_eq hold', pgroundup_eq (by omega : newsz + 4095 < 2 ^ 64)]
    split
    · rename_i hpg
      have hn : intToUint64 ((npg oldsz * 4096 - npg newsz * 4096) / pgsize) =
          npg oldsz - npg newsz := by
        have hsub : (npg oldsz * 4096 - npg newsz * 4096) / pgsize = npg oldsz - npg newsz := by
          simp only [pgsize]; omega
        rw [hsub, intToUint64, if_pos] <;>
          (simp only [uvpn, trapframeVa, trampolineVa, maxva, pgsize] at hold; omega)
      simp only [hn]
      have hsum : npg newsz + (npg oldsz - npg newsz) = npg oldsz := by omega
      have := uvmunmap_spec h hr (v := npg newsz) (n := npg oldsz - npg newsz) (by omega)
      rw [hsum] at this
      refine this.bind ?_
      rintro - σ₁ ⟨g₁, h1, k1, hz⟩
      exact ⟨by omega, g₁, h1, k1, hz⟩
    · rename_i hpg
      exact ⟨by omega, g, h, Keeps.refl .., fun w h1 h2 => by omega⟩

/-! ### uvmclear -/

/-- **`uvmclear`** takes the U bit from a page. -/
theorem uvmclear_spec (h : Inv σ g) (hr : g.role r = .root) (hv : v < uvpn) :
    Ensures (uvmclear r (v * 4096) σ) (fun _ σ' => Inv σ' g ∧ σ'.pages = σ.pages ∧
        Keeps { pages := {(r, v)} } σ g σ' g ∧ (logical σ' r v = none ↔ logical σ r v = none))
      fun _ => logical σ r v = none := by
  have hv27 : v < 2 ^ 27 := lt_trans hv (by decide)
  rw [uvmclear, Run.bind_ok (walk_false_apply (vaddr_lt hv) σ)]
  cases ha : entry σ.mem r (v * 4096) with
  | none =>
    refine (h.leaf_eq_zero_iff hr hv).1 ?_
    rw [leaf, ha]
  | some a =>
    simp only [load, Run.bind_read, ← Tree.leaf_of_entry ha, store, Run.modify_apply]
    have hbit : ∀ i < 64, i ≠ 4 →
        (leaf σ.mem r v &&& ~~~pteU).getLsbD i = (leaf σ.mem r v).getLsbD i := fun i hi hne => by
      rw [show pteU = 1#64 <<< 4 from rfl, getLsbD_and_not_one_shiftLeft _ (by omega) hi]
      simp [hne]
    have hV : has (leaf σ.mem r v &&& ~~~pteU) pteV = has (leaf σ.mem r v) pteV := by
      rw [has_pteV, has_pteV, hbit 0 (by omega) (by omega)]
    have hS : has (leaf σ.mem r v &&& ~~~pteU) pteSwapped = has (leaf σ.mem r v) pteSwapped := by
      rw [has_pteSwapped, has_pteSwapped, hbit 9 (by omega) (by omega)]
    obtain ⟨h1, k1⟩ := h.retarget hr hv ha hV hS
      (by rw [has_pteR, has_pteR, hbit 1 (by omega) (by omega)])
        (pte2pa_clear _ (k := 4) (by omega))
      fun h0 => by rw [h0]; rfl
    refine ⟨h1, rfl, k1, ?_⟩
    rw [logical, h.leaf_store hr hv27 ha hr hv27, setLeaf_self, pageOf_eq_none_iff, hV, hS,
      ← @pageOf_eq_none_iff σ.mem σ.disk]
    rfl

end Xv6Swap
