import Xv6Swap.Inv.Steps

/-!
# Steps on leaf entries

The ways the kernel replaces the entry of a user page, each with the ghost state that follows:

* `Inv.mapEntry` : a page is mapped to a frame of the kernel;
* `Inv.unmapEntry` : a resident page is unmapped, its frame goes to the kernel;
* `Inv.evictEntry` : a resident page moves to the slot that has been written for it;
* `Inv.bringEntry` : a swapped page moves to a frame of the kernel;
* `Inv.dropEntry` : a swapped page is unmapped;
* `Inv.retarget`, `Inv.reflag` : flags change, the frame or slot stays;
* `Inv.setSpecial` : the entry of `TRAMPOLINE` or `TRAPFRAME` is replaced.
-/

namespace Xv6Swap

open Function

namespace Inv

variable {σ : KState} {g : Ghost} {f r v s a x : ℕ} {e : Word}

/-! ### Who maps what -/

variable (h : Inv σ g)
include h

/-- The frames on the LRU list are user pages. -/
theorem lru_ne (hf : g.role f = .kern) : ∀ i ∈ g.lru, pageToPa i ≠ f := by
  rintro i hi rfl
  obtain ⟨-, r, v, hrole, -⟩ := h.lru.user i hi
  rw [hf] at hrole; cases hrole

/-- **The entry of `TRAMPOLINE` or `TRAPFRAME` is replaced.** -/
theorem setSpecial (hr : g.role r = .root) (hv : uvpn ≤ v) (hv' : v < 2 ^ 27)
    (ha : entry σ.mem r (v * 4096) = some a) (he : SpecialPte e) :
    Inv { σ with mem := σ.mem.store64 a e } g ∧
      Keeps ⟨{(r, v)}, ∅, ∅⟩ σ g { σ with mem := σ.mem.store64 a e } g :=
  h.storeLeaf hr hv' ha (by rintro x ⟨⟩) (fun _ _ => rfl) (by rintro x ⟨⟩) (fun _ _ => rfl)
    (fun _ _ => Set.notMem_empty _) (h.leaves.set_special hv he)

variable (hr : g.role r = .root) (hv : v < uvpn)
include hr hv

/-- The frame with the role of a page is the one its entry maps. -/
theorem user_iff :
    g.role x = .user r v ↔ has (leaf σ.mem r v) pteV = true ∧ pte2pa (leaf σ.mem r v) = x := by
  constructor
  · intro hx; exact (h.leaves.user x r v hx).2.2
  · rintro ⟨hV, rfl⟩; exact ((h.pteOk hr hv).valid hV).2.2

/-- The slot with the role of a page is the one its entry names. -/
theorem slot_iff : g.slot x = .page r v ↔ has (leaf σ.mem r v) pteV = false ∧
      has (leaf σ.mem r v) pteSwapped = true ∧ pteSlot (leaf σ.mem r v) = x := by
  constructor
  · intro hx; exact (h.leaves.slot x r v hx).2.2
  · rintro ⟨hV, hS, rfl⟩; exact ((h.pteOk hr hv).swapped hV hS).2

/-- The page has no frame any more when its frame goes to the kernel. -/
theorem not_user (hf : pte2pa (leaf σ.mem r v) = f) (x : ℕ) :
    (g.setRole f .kern).role x ≠ .user r v := by
  intro hx
  by_cases hxf : x = f
  · rw [hxf, Ghost.setRole_self] at hx; cases hx
  · rw [Ghost.setRole_of_ne _ _ hxf, h.user_iff hr hv, hf] at hx
    exact hxf hx.2.symm

/-- The page has no slot any more when its slot is taken away. -/
theorem not_slot (hs : pteSlot (leaf σ.mem r v) = s) (x : ℕ) :
    (g.setSlot s .busy).slot x ≠ .page r v := by
  intro hx
  by_cases hxs : x = s
  · rw [hxs, Ghost.setSlot_self] at hx; cases hx
  · simp only [update_of_ne hxs] at hx
    rw [h.slot_iff hr hv, hs] at hx
    exact hxs hx.2.2.symm

/-! ### Steps -/

variable (ha : entry σ.mem r (v * 4096) = some a)
include ha

/-- **A page is mapped** to the frame `f` of the kernel. -/
theorem mapEntry (h0 : leaf σ.mem r v = 0) (hf : g.role f = .kern)
    (hV : has e pteV = true) (hS : has e pteSwapped = false) (hR : has e pteR = true)
    (hpa : pte2pa e = f) : Inv { σ with mem := σ.mem.store64 a e } (g.setRole f (.user r v)) ∧
      Keeps ⟨{(r, v)}, {f}, ∅⟩ σ g { σ with mem := σ.mem.store64 a e }
        (g.setRole f (.user r v)) := by
  refine h.setEntry hr hv ha (F := {f}) (S := ∅) (by rintro x rfl; simp [hf])
    (fun x hx => update_of_ne hx ..) (by rintro x ⟨⟩) (fun _ _ => rfl)
    (fun i hi => h.lru_ne hf i hi) ⟨fun _ => ⟨hS, hR, ?_⟩, fun hV' => ?_, fun hV' => ?_⟩
    (fun x hx => ⟨hV, ?_⟩) fun x hx => ?_
  · rw [hpa, update_self]
  · rw [hV] at hV'; cases hV'
  · rw [hV] at hV'; cases hV'
  · by_cases hxf : x = f
    · rw [hpa, hxf]
    · rw [update_of_ne hxf, h.user_iff hr hv, h0, has_zero] at hx
      cases hx.1
  · rw [h.slot_iff hr hv, h0, has_zero, has_zero] at hx
    cases hx.2.1

/-- **A resident page is unmapped**; it has been taken off the LRU list. -/
theorem unmapEntry (hV : has (leaf σ.mem r v) pteV = true)
    (hf : pte2pa (leaf σ.mem r v) = f) (hoff : pageIdx f ∉ g.lru) :
    Inv { σ with mem := σ.mem.store64 a 0 } (g.setRole f .kern) ∧
      Keeps ⟨{(r, v)}, {f}, ∅⟩ σ g { σ with mem := σ.mem.store64 a 0 } (g.setRole f .kern) := by
  have hrole : g.role f = .user r v := (h.user_iff hr hv).2 ⟨hV, hf⟩
  refine h.setEntry hr hv ha (F := {f}) (S := ∅) (by rintro x rfl; simp [hrole])
    (fun x hx => update_of_ne hx ..) (by rintro x ⟨⟩) (fun _ _ => rfl)
    (fun i hi hif => hoff ?_) (PteOk.of_zero ..)
    (fun x hx => absurd hx (h.not_user hr hv hf x)) fun x hx => ?_
  · obtain rfl : pageToPa i = f := hif
    rw [pageIdx_pageToPa]; exact hi
  · rw [h.slot_iff hr hv, hV] at hx
    cases hx.1

/-- **A resident page moves to the slot `s`.** -/
theorem evictEntry (hV : has (leaf σ.mem r v) pteV = true)
    (hf : pte2pa (leaf σ.mem r v) = f) (hoff : pageIdx f ∉ g.lru) (hs : g.slot s = .busy)
    (hV' : has e pteV = false) (hS' : has e pteSwapped = true) (hR' : has e pteR = true)
    (hs' : pteSlot e = s) : Inv { σ with mem := σ.mem.store64 a e }
        ((g.setRole f .kern).setSlot s (.page r v)) ∧
      Keeps ⟨{(r, v)}, {f}, {s}⟩ σ g { σ with mem := σ.mem.store64 a e }
        ((g.setRole f .kern).setSlot s (.page r v)) := by
  have hrole : g.role f = .user r v := (h.user_iff hr hv).2 ⟨hV, hf⟩
  refine h.setEntry hr hv ha (F := {f}) (S := {s}) (by rintro x rfl; simp [hrole])
    (fun x hx => update_of_ne hx ..) (by rintro x rfl; simp [hs])
    (fun x hx => update_of_ne hx ..) (fun i hi hif => hoff ?_)
    ⟨fun hx => ?_, fun _ _ => ⟨hR', ?_⟩, fun _ hx => ?_⟩
    (fun x hx => absurd hx (h.not_user hr hv hf x)) fun x hx => ⟨hV', hS', ?_⟩
  · obtain rfl : pageToPa i = f := hif
    rw [pageIdx_pageToPa]; exact hi
  · rw [hV'] at hx; cases hx
  · rw [hs', update_self]
  · rw [hS'] at hx; cases hx
  · by_cases hxs : x = s
    · rw [hs', hxs]
    · rw [update_of_ne hxs, h.slot_iff hr hv, hV] at hx
      cases hx.1

/-- **A swapped page moves to the frame `f` of the kernel.** -/
theorem bringEntry (hV : has (leaf σ.mem r v) pteV = false)
    (hS : has (leaf σ.mem r v) pteSwapped = true) (hs : pteSlot (leaf σ.mem r v) = s)
    (hf : g.role f = .kern) (hV' : has e pteV = true) (hS' : has e pteSwapped = false)
    (hR' : has e pteR = true) (hpa : pte2pa e = f) : Inv { σ with mem := σ.mem.store64 a e }
        ((g.setRole f (.user r v)).setSlot s .busy) ∧
      Keeps ⟨{(r, v)}, {f}, {s}⟩ σ g { σ with mem := σ.mem.store64 a e }
        ((g.setRole f (.user r v)).setSlot s .busy) := by
  have hslot : g.slot s = .page r v := (h.slot_iff hr hv).2 ⟨hV, hS, hs⟩
  refine h.setEntry hr hv ha (F := {f}) (S := {s}) (by rintro x rfl; simp [hf])
    (fun x hx => update_of_ne hx ..) (by rintro x rfl; simp [hslot])
    (fun x hx => update_of_ne hx ..) (fun i hi => h.lru_ne hf i hi)
    ⟨fun _ => ⟨hS', hR', ?_⟩, fun hx => ?_, fun hx => ?_⟩ (fun x hx => ⟨hV', ?_⟩)
    fun x hx => absurd hx (h.not_slot hr hv hs x)
  · rw [hpa, Ghost.setRole_self]
  · rw [hV'] at hx; cases hx
  · rw [hV'] at hx; cases hx
  · by_cases hxf : x = f
    · rw [hpa, hxf]
    · rw [Ghost.setRole_of_ne _ _ hxf, h.user_iff hr hv, hV] at hx
      cases hx.1

/-- **A swapped page is unmapped.** -/
theorem dropEntry (hV : has (leaf σ.mem r v) pteV = false)
    (hS : has (leaf σ.mem r v) pteSwapped = true) (hs : pteSlot (leaf σ.mem r v) = s) :
    Inv { σ with mem := σ.mem.store64 a 0 } (g.setSlot s .busy) ∧
      Keeps ⟨{(r, v)}, ∅, {s}⟩ σ g { σ with mem := σ.mem.store64 a 0 } (g.setSlot s .busy) := by
  have hslot : g.slot s = .page r v := (h.slot_iff hr hv).2 ⟨hV, hS, hs⟩
  refine h.setEntry hr hv ha (F := ∅) (S := {s}) (by rintro x ⟨⟩) (fun _ _ => rfl)
    (by rintro x rfl; simp [hslot]) (fun x hx => update_of_ne hx ..)
    (fun i hi => Set.notMem_empty _) (PteOk.of_zero ..) (fun x hx => ?_) fun x hx =>
      absurd hx (h.not_slot hr hv hs x)
  rw [h.user_iff hr hv, hV] at hx; cases hx.1

/-- **Flags change**, the frame or slot stays. -/
theorem retarget (hV : has e pteV = has (leaf σ.mem r v) pteV)
    (hS : has e pteSwapped = has (leaf σ.mem r v) pteSwapped)
    (hR : has e pteR = has (leaf σ.mem r v) pteR) (hpa : pte2pa e = pte2pa (leaf σ.mem r v))
    (h0 : leaf σ.mem r v = 0 → e = 0) : Inv { σ with mem := σ.mem.store64 a e } g ∧
      Keeps ⟨{(r, v)}, ∅, ∅⟩ σ g { σ with mem := σ.mem.store64 a e } g := by
  have hok := h.pteOk hr hv
  refine h.setEntry hr hv ha (F := ∅) (S := ∅) (by rintro x ⟨⟩) (fun _ _ => rfl)
    (by rintro x ⟨⟩) (fun _ _ => rfl) (fun i hi => Set.notMem_empty _)
    ⟨fun hx => ?_, fun hx hx' => ?_, fun hx hx' => ?_⟩ (fun x hx => ?_) fun x hx => ?_
  · rw [hV] at hx
    rw [hS, hR, hpa]; exact hok.valid hx
  · rw [hV] at hx
    rw [hS] at hx'
    rw [hR, pteSlot, hpa]; exact hok.swapped hx hx'
  · rw [hV] at hx
    rw [hS] at hx'
    exact h0 (hok.zero hx hx')
  · rw [hV, hpa]; exact (h.user_iff hr hv).1 hx
  · rw [hV, hS, pteSlot, hpa]; exact (h.slot_iff hr hv).1 hx

/-- **The bits A and D change**: the page stays the same. -/
theorem reflag (hV₀ : has (leaf σ.mem r v) pteV = true)
    (hV : has e pteV = true) (hS : has e pteSwapped = has (leaf σ.mem r v) pteSwapped)
    (hR : has e pteR = has (leaf σ.mem r v) pteR) (hp : perms e = perms (leaf σ.mem r v))
    (hpa : pte2pa e = pte2pa (leaf σ.mem r v)) : Inv { σ with mem := σ.mem.store64 a e } g ∧
      Keeps {} σ g { σ with mem := σ.mem.store64 a e } g := by
  have hrole : g.role (pte2pa (leaf σ.mem r v)) = .user r v := (h.user_iff hr hv).2 ⟨hV₀, rfl⟩
  have hv27 : v < 2 ^ 27 := lt_trans hv (by decide)
  obtain ⟨h1, h2⟩ := h.retarget hr hv ha (hV.trans hV₀.symm) hS hR hpa fun h0 => by
    rw [h0, has_zero] at hV₀; cases hV₀
  have hlog : logical { σ with mem := σ.mem.store64 a e } r v = logical σ r v := by
    rw [logical, logical, h.leaf_store hr hv27 ha hr hv27, setLeaf_self, pageOf_valid hV,
      pageOf_valid hV₀, hp, hpa]
    exact congrArg some (LPage.ext rfl (frameBytes_congr (Mem.agreeOn_store64 _
      (h.entry_apart hr ha (by simp [hrole]) (by rw [hrole]; rfl)))))
  refine ⟨h1, h2.shrinkPages fun r' v' hp _ _ => ?_⟩
  obtain ⟨rfl, rfl⟩ : r' = r ∧ v' = v := by simpa using hp
  exact ⟨hv, hlog, fun f hp => ⟨hp.role, hp.off, hp.pagetable, hp.vaddr⟩⟩

end Inv

end Xv6Swap
