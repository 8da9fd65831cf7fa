import Xv6Swap.Spec.Clock

/-!
# Eviction and allocation

The specifications of the steps of `swapout` and of `kalloc`:

* `kfree_spec` : a frame of the kernel goes to the free list;
* `swapoutSelect_spec`, `swapoutSlot_spec`, `swapoutFinish_spec` : the steps between sleep points;
* `swapout_spec` : a complete `swapout` changes no logical page, whether it succeeds or not;
* `kalloc_spec` : a frame returned by `kalloc` was free, or has just been freed by the eviction of
  a page; nothing else changes.

None of them panics.
-/

namespace Xv6Swap

open Function List Ghost Set

variable {σ : KState} {g g' : Ghost} {f r v s i n : ℕ}

/-! ### kfree -/

theorem kfree_apply (hf : Allocatable σ.link f) :
    kfree f σ = .ok ((), { σ with
      mem := (σ.mem.fill f 4096 1).store64 f (BitVec.ofNat 64 σ.freelist)
      freelist := f
      trace := .kfree f :: σ.trace }) := by
  obtain ⟨h1, h2, h3⟩ := hf
  have hcond : ¬ (f % pgsize ≠ 0 ∨ f < σ.link.kend ∨ f ≥ phystop) := by
    simp only [pgsize]; omega
  rw [kfree, Run.bind_read, if_neg hcond]
  rfl

/-- **`kfree`** of a frame of the kernel. -/
theorem kfree_spec (h : Inv σ g) (hf : g.role f = .kern) :
    Ensures (kfree f σ) (fun _ σ' =>
      (∃ m' t', σ' = { σ with mem := m', freelist := f, trace := t' }) ∧
      Inv σ' (g.setRole f .free) ∧ Keeps { frames := {f} } σ g σ' (g.setRole f .free) ∧
      ∀ p, Paged σ g p → Paged σ' (g.setRole f .free) { p with free := p.free + 1 })
      fun _ => False := by
  have hf0 : g.role f ≠ .none := by simp [hf]
  rw [kfree_apply ((h.dom f).1 hf0)]
  obtain ⟨h1, k1⟩ := h.push hf
  refine ⟨⟨_, _, rfl⟩, h1, k1, fun p hp => hp.frame (f := f) h h1 ?_ hf0 (by rw [hf]; rfl)
    (by rw [setRole_self]; rfl) (fun x hx => setRole_of_ne _ _ hx) (hp.free.push (by simp [hf])) rfl
    rfl⟩
  exact (Mem.sameOutside_fill _ _ _ _).trans
    ((Mem.sameOutside_store64 _ _ _).mono (le_refl _) (by omega))

/-! ### The steps of swapout -/

/-- What the first step of `swapout` returns and does: no victim, and then the list is empty, or a
page of the list, now off it. -/
def Selected (σ : KState) (g : Ghost) (o : Option ℕ) (σ' : KState) : Prop :=
  match o with
  | none => σ' = σ ∧ g.lru = []
  | some i => i ∈ g.lru ∧ ∃ r v l', σ'.freelist = σ.freelist ∧ Inv σ' (g.setLru l') ∧
      Keeps {} σ g σ' (g.setLru l') ∧ Pinned σ' (g.setLru l') (pageToPa i) r v ∧
      ∀ p, Paged σ g p → p.next = some (r, v) ∧ Paged σ' (g.setLru l') p.unlink

/-- **The first step of `swapout`**: choose a victim and unlink it. -/
theorem swapoutSelect_spec (h : Inv σ g) :
    Ensures (swapoutSelect σ) (Selected σ g) fun _ => False := by
  rw [swapoutSelect, Run.bind_read]
  cases hhead : σ.lruHead with
  | none => exact ⟨rfl, h.lru.ring.head_eq_none_iff.1 hhead⟩
  | some head =>
    obtain ⟨i, hrun, hi⟩ := h.clockList.clock_head hhead
    have hturn := fun p hp => h.turned (p := p) hp
    obtain ⟨h1, k1, -⟩ := h.spareAll (takeWhile_append_dropWhile (p := used σ)).symm
    obtain ⟨t, ht⟩ := head?_eq_some_iff.1 hi
    obtain ⟨m', head', tail', hσ⟩ := turned_spareAll (g.lru.takeWhile (used σ)) σ
    dsimp only
    rw [Run.bind_ok hrun]
    rw [ht, hσ] at h1 k1 hturn
    rw [hσ]
    refine (lruRemove_spec h1 i).bind ?_
    rintro - σ' ⟨h2, k2, hmeta, pages', head₂, tail₂, rfl⟩
    rw [erase_cons_head] at h2 k2
    have hmem : i ∈ g.lru := by
      have hi := mem_of_mem_head? hi
      rwa [← takeWhile_append_dropWhile (p := used σ) (l := g.lru), mem_append, or_comm,
        ← mem_append]
    obtain ⟨-, r, v, hrole, hpt, hva⟩ := h.lru.user i hmem
    refine ⟨hmem, r, v, t, rfl, h2, k1.trans k2, ⟨hrole, ?_, ?_, ?_⟩, fun p hp => ?_⟩
    · rw [pageIdx_pageToPa]
      exact (nodup_cons.1 h1.lru.ring.nodup).1
    · rw [pageIdx_pageToPa]; exact ((hmeta i).1).trans hpt
    · rw [pageIdx_pageToPa]; exact ((hmeta i).2).trans hva
    · obtain ⟨hfree, hq, hused⟩ := hturn p hp
      rw [map_cons] at hq
      refine ⟨?_, hfree, ?_, hused⟩
      · rw [Pager.next, hq, head?_cons, revMap, hpt, hva, Nat.mul_div_cancel _ (by decide)]
      · rw [Pager.unlink, hq, tail_cons]
        exact map_congr_left fun j _ => by rw [revMap, revMap, (hmeta j).1, (hmeta j).2]

/-- What the second step of `swapout` returns and does, for the victim `f`, page `v` of `r`: the
victim is back on the list, or a slot is allocated. -/
def SlotTaken (σ : KState) (g : Ghost) (f r v : ℕ) (o : Option ℕ) (σ' : KState) : Prop :=
  match o with
  | none => Inv σ' (g.setLru (g.lru ++ [pageIdx f])) ∧
      Keeps { pages := {(r, v)} } σ g σ' (g.setLru (g.lru ++ [pageIdx f])) ∧
      σ'.freelist = σ.freelist ∧ σ'.mem = σ.mem ∧ σ'.disk = σ.disk
  | some s => SlotAllocated σ g (some s) σ'

/-- **The second step of `swapout`**: allocate a slot. -/
theorem swapoutSlot_spec (h : Inv σ g) (hpin : Pinned σ g f r v) :
    Ensures (swapoutSlot (pageIdx f) σ) (SlotTaken σ g f r v) fun _ => False := by
  refine (allocSwapSlot_spec h).bind ?_
  rintro (_ | s) σ' hσ'
  · obtain ⟨rfl, -⟩ := hσ'
    refine (lruAdd_spec h hpin).bind ?_
    rintro - σ'' ⟨h1, k1, pages', head', tail', rfl⟩
    exact ⟨h1, k1, rfl, rfl, rfl⟩
  · exact hσ'

/-! ### The entry of an evicted page -/

theorem isFlags_swapped (e : Word) :
    IsFlags ((pteFlags e &&& ~~~pteV &&& ~~~pteA) ||| pteSwapped) :=
  (((isFlags_pteFlags e).and_left _).and_left _).or (by rw [IsFlags]; decide)

theorem swappedPte_eq (s : ℕ) (e : Word) : swappedPte s e =
    BitVec.ofNat 64 s <<< 10 ||| ((pteFlags e &&& ~~~pteV &&& ~~~pteA) ||| pteSwapped) :=
  BitVec.or_assoc ..

theorem getLsbD_swappedPte (s : ℕ) (e : Word) (hi : i < 10) :
    (swappedPte s e).getLsbD i =
      (((e.getLsbD i && !decide (i = 0)) && !decide (i = 6)) || decide (i = 9)) := by
  rw [swappedPte_eq, getLsbD_shiftLeft_or _ _ hi, show pteSwapped = 1#64 <<< 9 from rfl,
    getLsbD_or_one_shiftLeft _ (by omega), show pteA = 1#64 <<< 6 from rfl,
    getLsbD_and_not_one_shiftLeft _ (by omega) (by omega), show pteV = 1#64 <<< 0 from rfl,
    getLsbD_and_not_one_shiftLeft _ (by omega) (by omega), getLsbD_pteFlags e hi]

theorem has_swappedPte_V (s : ℕ) (e : Word) : has (swappedPte s e) pteV = false := by
  rw [has_pteV, getLsbD_swappedPte s e (by omega)]; simp

theorem has_swappedPte_swapped (s : ℕ) (e : Word) : has (swappedPte s e) pteSwapped = true := by
  rw [has_pteSwapped, getLsbD_swappedPte s e (by omega)]; simp

theorem has_swappedPte_A (s : ℕ) (e : Word) : has (swappedPte s e) pteA = false := by
  rw [has_pteA, getLsbD_swappedPte s e (by omega)]; simp

theorem has_swappedPte_R (s : ℕ) (e : Word) : has (swappedPte s e) pteR = has e pteR := by
  rw [has_pteR, has_pteR, getLsbD_swappedPte s e (by omega)]; simp

theorem pteSlot_swappedPte {s : ℕ} (hs : s < nslots) (e : Word) :
    pteSlot (swappedPte s e) = s := by
  rw [swappedPte_eq, pteSlot_slot_or (lt_trans hs (by decide)) (isFlags_swapped e)]

theorem perms_swappedPte (s : ℕ) (e : Word) : perms (swappedPte s e) = perms e :=
  perms_congr fun i h1 h2 => by
    rw [getLsbD_swappedPte s e (by omega)]
    simp [show i ≠ 0 by omega, show i ≠ 6 by omega, show i ≠ 9 by omega]

/-- The ghost state after the eviction of the frame `f`, page `v` of `r`, to the slot `s`. -/
def Ghost.evict (g : Ghost) (f r v s : ℕ) : Ghost := (g.setRole f .free).setSlot s (.page r v)

/-- The reverse map of a frame that holds no page is cleared. -/
theorem Inv.resetMeta (h : Inv σ g) (hi : i ∉ g.lru)
    (hno : ∀ f r v, g.role f = .user r v → pageIdx f ≠ i) (p : Page)
    (hn : p.next = (σ.pages i).next) (hp : p.prev = (σ.pages i).prev) :
    Inv { σ with pages := update σ.pages i p } g ∧
      Keeps {} σ g { σ with pages := update σ.pages i p } g := by
  constructor
  · suffices hlru : LruOk (update σ.pages i p) σ.lruHead σ.lruTail g.role g.lru from h.lruStep hlru
    refine ⟨?_, fun j hj => ?_⟩
    · rw [next_update, prev_update, update_eq_self_iff.2 hn,
        update_eq_self_iff.2 hp]
      exact h.lru.ring
    · rw [update_of_ne (by rintro rfl; exact hi hj)]
      exact h.lru.user j hj
  · refine h.keepsLru (update σ.pages i p) σ.lruHead σ.lruTail g.lru ∅
      fun f r v hpin _ => ?_
    rw [update_of_ne (hno f r v hpin.role)]
    exact ⟨hpin.off, rfl, rfl⟩

/-- **The last step of `swapout`**: the page moves to the slot, the frame to the free list. -/
theorem swapoutFinish_spec (h : Inv σ g) (hpin : Pinned σ g f r v) (hs : g.slot s = .busy) :
    Ensures (swapoutFinish (pageIdx f) s σ) (fun _ σ' =>
      Inv σ' (g.evict f r v s) ∧ Keeps ⟨{(r, v)}, {f}, {s}⟩ σ g σ' (g.evict f r v s) ∧
      σ'.freelist = f ∧ σ'.disk = σ.disk ∧
      logical σ' r v = some ⟨perms (leaf σ.mem r v), slotBytes σ.disk s⟩ ∧
      ∀ p, Paged σ g p → Paged σ' (g.evict f r v s)
        { p with free := p.free + 1, used := update p.used (r, v) false }) fun _ => False := by
  have hf0 : g.role f ≠ .none := by simp [hpin.role]
  have hpa : pageToPa (pageIdx f) = f := h.role_pageToPa hf0
  have hslt : s < nslots := h.slots.range s (by simp [hs])
  obtain ⟨hr, hv, hV, hpte⟩ := h.leaves.user f r v hpin.role
  have hv27 : v < 2 ^ 27 := lt_trans hv (by decide)
  obtain ⟨a, ha⟩ := Tree.exists_entry_of_leaf_ne_zero (m := σ.mem) (r := r) (v := v) fun h0 => by
    rw [h0, has_zero] at hV; cases hV
  rw [swapoutFinish, Run.bind_read, hpin.pagetable, hpin.vaddr,
    Run.bind_ok (walk0_apply (vaddr_lt hv) σ), ha]
  simp only [K.load, Run.bind_read, ← Tree.leaf_of_entry ha, K.store, Run.bind_modify, hpa]
  obtain ⟨h1, k1⟩ := h.evictEntry hr hv ha hV hpte hpin.off hs (has_swappedPte_V s (leaf σ.mem r v))
    (has_swappedPte_swapped s _) ((has_swappedPte_R s _).trans ((h.pteOk hr hv).valid hV).2.1)
    (pteSlot_swappedPte hslt _)
  have hleaf : leaf (σ.mem.store64 a (swappedPte s (leaf σ.mem r v))) r v =
      swappedPte s (leaf σ.mem r v) := by
    rw [h.leaf_store hr hv27 ha hr hv27, setLeaf_self]
  refine (kfree_spec h1 (f := f) (update_self ..)).bind ?_
  rintro - σ₂ ⟨⟨m', t', rfl⟩, h2, k2, hp2⟩
  have hg : ((g.setRole f .kern).setSlot s (.page r v)).setRole f .free = g.evict f r v s :=
    congrArg (setSlot · s (.page r v)) (g.setRole_setRole f .kern .free)
  rw [hg] at h2 k2 hp2
  obtain ⟨h3, k3⟩ := h2.resetMeta (i := pageIdx f) hpin.off (fun f' r' v' hrole' he => by
      change (g.setRole f .free).role f' = .user r' v' at hrole'
      by_cases hff : f' = f
      · rw [hff, setRole_self] at hrole'; cases hrole'
      · rw [setRole_of_ne _ _ hff] at hrole'
        exact hff (h.pageIdx_inj hf0 (by simp [hrole']) he))
    { σ.pages (pageIdx f) with pagetable := 0, vaddr := 0 } rfl rfl
  -- the frees and the reverse map leave the evicted page alone
  have hpage := (k2.trans (k3.mono_empty _)).page r v
    ((h1.leaves.slot s r v (update_self ..)).1)
    (by rintro rfl; rw [hpin.role] at hr; cases hr) hv (notMem_empty _)
  refine ⟨h3, (k1.trans (k2.mono (empty_subset _) (fun _ hx => hx) (empty_subset _))).trans
    (k3.mono_empty _), rfl, rfl, hpage.trans ?_, fun p hp => ?_⟩
  · rw [logical, hleaf, pageOf_swapped (has_swappedPte_V s _) (has_swappedPte_swapped s _),
      perms_swappedPte, pteSlot_swappedPte hslt]
  · have hstore := hp.store h hr hv ha (swappedPte s (leaf σ.mem r v))
    rw [has_swappedPte_A] at hstore
    obtain ⟨hf1, hq1, hu1⟩ := hstore.setRole (f := f) (w := .kern)
      (by rw [hpin.role]; simp) (by simp) (by simp)
    obtain ⟨hfree, hq, hused⟩ := hp2 _ ⟨hf1, hq1, hu1⟩
    refine ⟨hfree, hq.trans (map_congr_left fun j hj => (revMap_congr ?_).symm), hused⟩
    exact update_of_ne (by rintro rfl; exact hpin.off hj) ..

/-! ### A complete swapout -/

/-- What `swapout` returns and does. -/
def Evicted (σ : KState) (g : Ghost) (ret : ℤ) (σ' : KState) : Prop :=
  (ret = -1 ∧ ∃ l', Inv σ' (g.setLru l') ∧ Keeps {} σ g σ' (g.setLru l')) ∨
  ret = 0 ∧ ∃ i r v s l', g.role (pageToPa i) = .user r v ∧ g.slot s = .free ∧
    σ'.freelist = pageToPa i ∧ Inv σ' ((g.evict (pageToPa i) r v s).setLru l') ∧
    Keeps {} σ g σ' ((g.evict (pageToPa i) r v s).setLru l') ∧
    ∀ p, Paged σ g p → p.next = some (r, v) ∧
      Paged σ' ((g.evict (pageToPa i) r v s).setLru l') { p.evict with free := p.free + 1 }

/-- **A complete `swapout`** changes no logical page, whatever it returns. -/
theorem swapout_spec (h : Inv σ g) : Ensures (swapout σ) (Evicted σ g) fun _ => False := by
  refine (swapoutSelect_spec h).bind ?_
  rintro (_ | i) σ₁ hσ₁
  · obtain ⟨rfl, hl⟩ := hσ₁
    exact .inl ⟨rfl, g.lru, h, Keeps.refl ..⟩
  · obtain ⟨hi, r, v, l₁, hfl, h1, k1, hpin, hp1⟩ := hσ₁
    have hnp : ∀ f, ¬ Pinned σ g f r v := fun f hp => by
      have hff := ((h1.user_iff ((h1.leaves.user _ r v hpin.role).1)
        (h1.leaves.user _ r v hpin.role).2.1).1 hp.role).2.symm.trans
        ((h1.user_iff ((h1.leaves.user _ r v hpin.role).1)
        (h1.leaves.user _ r v hpin.role).2.1).1 hpin.role).2
      have hoff := hp.off
      rw [hff, pageIdx_pageToPa] at hoff
      exact hoff hi
    obtain ⟨hr, hv, hV, hpte⟩ := h1.leaves.user _ r v hpin.role
    have hslot := swapoutSlot_spec h1 hpin
    rw [pageIdx_pageToPa] at hslot
    refine hslot.bind ?_
    rintro (_ | s) σ₂ hσ₂
    · -- no slot: the victim goes back
      obtain ⟨h2, k2, hfl2, hm2, hd2⟩ := hσ₂
      refine .inl ⟨rfl, _, h2, ?_⟩
      have hlog : logical σ₂ r v = logical σ r v := by
        rw [← k1.page r v hr (notMem_empty _) hv (notMem_empty _), logical, logical, hm2, hd2]
      refine ((k1.mono_empty _).trans k2).shrinkPages fun r' v' hp _ _ => ?_
      obtain ⟨rfl, rfl⟩ : r' = r ∧ v' = v := by simpa using hp
      exact ⟨hv, hlog, fun f hp => absurd hp (hnp f)⟩
    · obtain ⟨hslt, hfree, ⟨m', rfl, hm'⟩, h2, k2⟩ := hσ₂
      have hf2 : g.role (pageToPa i) ≠ .none := by rw [hpin.role]; simp
      refine (swapwrite_spec h2 (f := pageToPa i) hf2 hslt).bind ?_
      rintro - σ₃ ⟨d', n, rfl, honly, hbytes⟩
      obtain ⟨h3, k3⟩ := h2.writeSlot (s := s) (update_self ..) honly n
      have k13 := (k1.mono_empty { slots := {s} }).trans (k2.trans k3)
      have hpin3 := (k2.trans k3).pinned _ r v hpin (notMem_empty _) (notMem_empty _)
      have hfin := swapoutFinish_spec h3 hpin3 (s := s) (update_self ..)
      rw [pageIdx_pageToPa] at hfin
      refine hfin.bind ?_
      rintro - σ₄ ⟨h4, k4, hfl4, hd4, hlog4, hp4⟩
      have hg : ((g.setLru l₁).setSlot s .busy).evict (pageToPa i) r v s =
          (g.evict (pageToPa i) r v s).setLru l₁ := by
        simp only [evict, setSlot, update_idem]
      rw [hg] at h4 k4 hp4
      refine .inr ⟨rfl, i, r, v, s, l₁, hpin.role, hfree, hfl4, h4, ?_, fun p hp => ?_⟩
      swap
      · obtain ⟨hnext, hun⟩ := hp1 p hp
        have hbm := (h1.slots.bitmap σ₁.swapBitmap).2 rfl
        obtain ⟨hf2, hq2, hu2⟩ := hun.frame h1 h2 hm' (by rw [hbm]; simp) (by rw [hbm]; rfl)
          (by rw [hbm]; rfl) (fun _ _ => rfl) hun.free rfl rfl
        refine ⟨hnext, ?_⟩
        rw [Pager.evict, hnext, ← p.turn_free]
        exact hp4 p.unlink ⟨hf2, hq2, hu2⟩
      -- the page is the same, the frame was a user page and is free, the slot was free
      have hlog : logical σ₄ r v = logical σ r v := by
        rw [hlog4, ← k13.page r v hr (notMem_empty _) hv (notMem_empty _), logical,
          pageOf_valid (h3.leaves.user _ r v hpin3.role).2.2.1, hbytes,
          (h3.leaves.user _ r v hpin3.role).2.2.2]
      have k14 : Keeps ⟨{(r, v)}, {pageToPa i}, {s}⟩ σ g σ₄
          ((g.evict (pageToPa i) r v s).setLru l₁) :=
        Keeps.trans (k13.mono (empty_subset _) (empty_subset _) (fun _ hx => hx)) k4
      have k15 : Keeps ⟨∅, {pageToPa i}, {s}⟩ σ g σ₄ _ := k14.shrinkPages fun r' v' hp _ _ => by
        obtain ⟨rfl, rfl⟩ : r' = r ∧ v' = v := by simpa using hp
        exact ⟨hv, hlog, fun f hp => absurd hp (hnp f)⟩
      have k16 : Keeps ⟨∅, ∅, {s}⟩ σ g σ₄ _ := k15.shrinkFrames h.tree h.leaves fun f hf _ => by
        obtain rfl : f = pageToPa i := hf
        rw [hpin.role]
        simp [evict]
      exact k16.shrinkSlots fun x hx _ => by
        obtain rfl : x = s := hx
        rw [hfree]
        simp [evict]

/-! ### kalloc -/

/-- What `kalloc` returns and does. -/
def Allocated (σ : KState) (g : Ghost) (o : Option ℕ) (σ' : KState) : Prop :=
  ∃ g', Inv σ' g' ∧ match o with
    | none => σ.freelist = 0 ∧ g'.role = g.role ∧ Keeps {} σ g σ' g'
    | some f => g'.role = (g.setRole f .kern).role ∧
        (∀ s, g.slot s ≠ .free → g'.slot s = g.slot s) ∧ frameBytes σ'.mem f = (fun _ => 5) ∧
        Keeps { frames := {f} } σ g σ' g' ∧
        (g.role f = .free ∨ σ.freelist = 0 ∧ ∃ r v, g.role f = .user r v) ∧
        ∀ p, Paged σ g p → Paged σ' g' p.alloc ∧ ∀ x, p.victim = some x ↔ g.role f = .user x.1 x.2

/-- Every user page is in its frame, but for the victim of an allocation. -/
def FramesKept (σ : KState) (g g' : Ghost) : Prop :=
  ∀ p, Paged σ g p → ∀ f r v, g.role f = .user r v → p.victim ≠ some (r, v) → g'.role f = .user r v

theorem Allocated.framesKept {σ' : KState} (ha : Allocated σ g (some f) σ')
    (hg : ∀ y ≠ f, g'.role y = g.role y) : FramesKept σ g g' := by
  intro p hp y r v hy hne
  obtain ⟨_, -, -, -, -, -, -, hv⟩ := ha
  rw [hg y, hy]
  rintro rfl
  exact hne (((hv p hp).2 (r, v)).2 hy)

/-- `kalloc` takes the head of a non-empty free list. -/
theorem kallocLoop_pop (h : Inv σ g) (h0 : σ.freelist ≠ 0) (k : ℕ) :
    Ensures (kallocLoop (k + 1) σ) (fun o σ' => o = some σ.freelist ∧
      Inv σ' (g.setRole σ.freelist .kern) ∧ frameBytes σ'.mem σ.freelist = (fun _ => 5) ∧
      Keeps { frames := {σ.freelist} } σ g σ' (g.setRole σ.freelist .kern) ∧
      ∀ p, Paged σ g p → Paged σ' (g.setRole σ.freelist .kern) { p with free := p.free - 1 })
      fun _ => False := by
  obtain ⟨h1, k1⟩ := h.pop h0
  have hf := h.free.head h0
  rw [kallocLoop, Run.bind_read, if_pos h0]
  refine ⟨rfl, h1, funext fun k => ?_, k1, fun p hp => ?_⟩
  · exact if_pos ⟨by omega, by have := k.isLt; omega⟩
  · exact hp.frame h h1 (Mem.sameOutside_fill _ _ _ _) (by simp [hf]) (by rw [hf]; rfl)
      (by rw [setRole_self]; rfl) (fun x hx => setRole_of_ne _ _ hx) (hp.free.pop hf (by simp)) rfl
      rfl

/-- **`kalloc`** returns a frame that was free, or that it has freed by evicting its page; every
logical page is the same. -/
theorem kalloc_spec (h : Inv σ g) : Ensures (kalloc σ) (Allocated σ g) fun _ => False := by
  rw [kalloc, show npages = 32766 + 1 + 1 from rfl]
  by_cases h0 : σ.freelist = 0
  · rw [kallocLoop, Run.bind_read, if_neg (by rw [h0]; simp)]
    refine (swapout_spec h).bind ?_
    rintro ret σ₁ (⟨rfl, l', h1, k1⟩ | ⟨rfl, i, r, v, s, l', hrole, hslot, hfl, h1, k1, hp1⟩)
    · rw [if_pos (by decide)]
      exact ⟨_, h1, h0, rfl, k1⟩
    · rw [if_neg (by decide)]
      have hne : σ₁.freelist ≠ 0 := by
        rw [hfl]; exact h.ne_zero_of_role (by rw [hrole]; simp)
      refine (kallocLoop_pop h1 hne _).imp ?_
      rintro o σ₂ ⟨rfl, h2, hb, k2, hp2⟩
      rw [hfl] at h2 hb k2 hp2 ⊢
      have hslots : ∀ x, g.slot x ≠ .free → update g.slot s (.page r v) x = g.slot x :=
        fun x hx => update_of_ne (by rintro rfl; exact hx hslot) ..
      refine ⟨_, h2, update_idem .., hslots, hb, (k1.mono_empty _).trans k2, .inr ⟨h0, r, v, hrole⟩,
        fun p hp => ?_⟩
      obtain ⟨hnext, hpg⟩ := hp1 p hp
      have hfree := (h.pager_free hp).2 h0
      rw [Pager.alloc, if_pos hfree, Pager.victim, if_pos hfree, hnext, hrole]
      refine ⟨?_, fun x => ⟨by rintro ⟨⟩; rfl, by rintro ⟨⟩; rfl⟩⟩
      have hq := hp2 _ hpg
      rwa [show ({ ({ p.evict with free := p.free + 1 } : Pager _) with free := p.free + 1 - 1 }) =
        p.evict by rw [Nat.add_sub_cancel, ← p.evict_free]] at hq
  · refine (kallocLoop_pop h h0 _).imp ?_
    rintro o σ₁ ⟨rfl, h1, hb, k1, hp1⟩
    have hf := h.free.head h0
    refine ⟨_, h1, rfl, fun _ _ => rfl, hb, k1, .inl hf, fun p hp => ?_⟩
    have hfree := mt (h.pager_free hp).1 h0
    rw [Pager.alloc, if_neg hfree, Pager.victim, if_neg hfree, hf]
    exact ⟨hp1 p hp, fun x => iff_of_false (by simp) (by simp)⟩

/-! ### Enough memory -/

/-- At least `n` frames are free. -/
def HasFree (g : Ghost) (n : ℕ) : Prop :=
  ∃ l : List ℕ, l.Nodup ∧ n ≤ l.length ∧ ∀ f ∈ l, g.role f = .free

theorem FreeCount.hasFree (h : FreeCount g.role i) (hn : n ≤ i) : HasFree g n := by
  obtain ⟨s, rfl, hs⟩ := h
  exact ⟨s.toList, s.nodup_toList, by rwa [Finset.length_toList], fun f hf =>
    (hs f).1 (Finset.mem_toList.1 hf)⟩

theorem HasFree.mono {n' : ℕ} (h : HasFree g n) (hn : n' ≤ n) : HasFree g n' := by
  obtain ⟨l, hnd, hl, hf⟩ := h
  exact ⟨l, hnd, by omega, hf⟩

theorem HasFree.take {x : ℕ} (h : HasFree g (n + 1))
    (hx : ∀ f ≠ x, g.role f = .free → g'.role f = .free) : HasFree g' n := by
  obtain ⟨l, hnd, hl, hf⟩ := h
  refine ⟨l.erase x, hnd.erase x, ?_, fun f hfl => ?_⟩
  · have := length_erase (a := x) (l := l)
    split at this <;> omega
  · rw [hnd.mem_erase_iff] at hfl
    exact hx f hfl.1 (hf f hfl.2)

theorem HasFree.congr (h : HasFree g n)
    (hx : ∀ f, g.role f = .free → g'.role f = .free) : HasFree g' n := by
  obtain ⟨l, hnd, hl, hf⟩ := h
  exact ⟨l, hnd, hl, fun f hfl => hx f (hf f hfl)⟩

theorem Inv.freelist_ne_zero (h : Inv σ g) (hf : HasFree g 1) : σ.freelist ≠ 0 := by
  obtain ⟨l, -, hlen, hl⟩ := hf
  obtain ⟨c, hc, -, hmem⟩ := h.free
  obtain ⟨f, hfl⟩ := exists_mem_of_length_pos (by omega : 0 < l.length)
  have hfc := (hmem f).2 (hl f hfl)
  cases c with
  | nil => cases hfc
  | cons x c => rw [hc.1]; exact hc.2.1

/-- Every user page is in its frame. -/
def UserKept (g g' : Ghost) : Prop := ∀ f r v, g.role f = .user r v → g'.role f = .user r v

/-- `kalloc` succeeds while a frame is free, and evicts no page then. -/
theorem Allocated.hasFree {o : Option ℕ} {σ' : KState} (h : Inv σ g) (ha : Allocated σ g o σ')
    (hn : HasFree g (n + 1)) : ∃ f, o = some f ∧
      ∀ g', (∀ y ≠ f, g'.role y = g.role y) → HasFree g' n ∧ UserKept g g' := by
  have h0 := h.freelist_ne_zero (hn.mono (by omega))
  cases o with
  | none =>
    obtain ⟨g', -, h0', -⟩ := ha
    exact absurd h0' h0
  | some f =>
    obtain ⟨-, -, -, -, -, -, hf | ⟨h0', -⟩, -⟩ := ha
    · refine ⟨f, rfl, fun g' hg' => ⟨hn.take (x := f) fun y hy hfree => ?_, fun y r v hy => ?_⟩⟩
      · rw [hg' y hy, hfree]
      · rw [hg' y (by rintro rfl; rw [hf] at hy; cases hy), hy]
    · exact absurd h0' h0

end Xv6Swap
