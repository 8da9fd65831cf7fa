import Xv6Swap.Spec.Lru

/-!
# Swap slots and their blocks

`alloc_swap_slot` finds the first clear bit of the bitmap and `free_swap_slot` clears one
(`allocSwapSlot_spec`, `Inv.clearSlot`); `swapwrite` copies a frame to the four blocks of a
slot and `swapread` copies them back (`swapwrite_spec`, `swapread_spec`).  For a frame of the
allocator and a slot in range none of them panics.
-/

namespace Xv6Swap

open Function Mem Run Set

variable {σ : KState} {g : Ghost} {f r v s a i p : ℕ}

/-! ### The bitmap -/

/-- **A bit of the bitmap is written**, for a slot that keeps no page. -/
theorem Inv.setSlot (h : Inv σ g) (hs : s < nslots) {b : Byte} {t : SlotRole}
    (hold : g.slot s = .free ∨ g.slot s = .busy) (ht : t = .free ∨ t = .busy)
    (hb : b.getLsbD (s % 8) = true ↔ t ≠ .free)
    (hbo : ∀ k < 8, k ≠ s % 8 → b.getLsbD k = (slotByte σ s).getLsbD k) :
    Inv { σ with mem := update σ.mem (σ.swapBitmap + s / 8) b } (g.setSlot s t) ∧
      Keeps { slots := {s} } σ g { σ with mem := update σ.mem (σ.swapBitmap + s / 8) b }
        (g.setSlot s t) := by
  have hs' : s < 7000 := hs
  have hbm := (h.slots.bitmap σ.swapBitmap).2 rfl
  have hout : SameOutside σ.mem (update σ.mem (σ.swapBitmap + s / 8) b)
      σ.swapBitmap 4096 := (sameOutside_update _ _ _).mono (by omega) (by omega)
  have hag : ∀ x, g.role x ≠ .none → g.role x ≠ .bitmap →
      AgreeOn σ.mem (update σ.mem (σ.swapBitmap + s / 8) b) x 4096 := fun x hx hne =>
    h.agreeOn_of_sameOutside hout (by simp [hbm]) hx (by rintro rfl; exact hne hbm)
  have hpage : ∀ x r v, update g.slot s t x = .page r v ↔ g.slot x = .page r v := by
    intro x r v
    by_cases hx : x = s
    · subst hx
      rw [update_self]
      rcases hold with ho | ho <;> rcases ht with rfl | rfl <;> simp [ho]
    · rw [update_of_ne hx]
  constructor
  · refine h.withMemSlots (fun x hx _ _ hxb => hag x hx hxb) hpage
      ⟨h.slots.count, h.slots.bitmap, fun x hx => ?_, fun x hx => ?_⟩
    · by_cases hxs : x = s
      · subst hxs
        rw [update_self, update_self]; exact hb
      · rw [update_of_ne hxs, ← h.slots.bit x hx]
        by_cases hbyte : x / 8 = s / 8
        · rw [hbyte, update_self, hbo (x % 8) (by omega) (by omega), slotByte]
        · rw [update_of_ne (by omega)]
    · by_cases hxs : x = s
      · exact hxs ▸ hs
      · rw [update_of_ne hxs] at hx
        exact h.slots.range x hx
  · have htab : ∀ x, (g.role x).isTable = true →
        AgreeOn σ.mem (update σ.mem (σ.swapBitmap + s / 8) b) x 4096 := fun x hx =>
      hag x (by rintro h0; rw [h0] at hx; cases hx) (by rintro h0; rw [h0] at hx; cases hx)
    have T' : Tree _ g.role := h.tree.congr (fun _ _ => rfl) fun x hx => htab x (by
      rcases hx with hx | ⟨_, _, hx⟩ <;> rw [hx] <;> rfl)
    refine Keeps.of_agree h.leaves rfl rfl (fun _ _ hne => absurd rfl hne) (fun x _ hw => ?_)
      (fun _ _ _ hx => absurd hx (notMem_empty _)) (fun _ _ hx => absurd hx (notMem_empty _))
      (fun r v hr _ _ _ => h.tree.leaf_congr T' hr hr (fun _ _ _ => Iff.rfl)
        fun l i j hl => htab l (by rw [hl]; rfl))
      (fun x r v hp _ _ => ⟨hp.off, rfl, rfl⟩) (fun x hx => ?_) (fun _ _ _ _ => rfl) fun _ _ => rfl
    · rcases hw with hw | ⟨_, _, hw, -⟩ <;> exact hag x (by simp [hw]) (by simp [hw])
    · exact iff_of_eq (congrArg (· = _) (update_of_ne hx ..))

/-- A bit of the bitmap is clear exactly if the slot is free. -/
theorem Inv.slot_free_iff (h : Inv σ g) (hs : s < nslots) :
    slotByte σ s &&& (1#8 <<< (s % 8)) = 0 ↔ g.slot s = .free := by
  rw [and_one_shiftLeft_eq_zero _ (by omega), slotByte, ← Bool.not_eq_true, h.slots.bit s hs,
    not_not]

/-- What `alloc_swap_slot` returns and does: no slot, and then every one is in use, or a free slot
whose bit is now set. -/
def SlotAllocated (σ : KState) (g : Ghost) (o : Option ℕ) (σ' : KState) : Prop :=
  match o with
  | none => σ' = σ ∧ ∀ s < nslots, g.slot s ≠ .free
  | some s => s < nslots ∧ g.slot s = .free ∧
      (∃ m', σ' = { σ with mem := m' } ∧ SameOutside σ.mem m' σ.swapBitmap 4096) ∧
      Inv σ' (g.setSlot s .busy) ∧
      Keeps { slots := {s} } σ g σ' (g.setSlot s .busy)

theorem allocSwapSlotLoop_spec (h : Inv σ g) : ∀ n i, i + n = nslots →
    (∀ s < i, g.slot s ≠ .free) →
    Ensures (allocSwapSlotLoop n i σ) (SlotAllocated σ g) fun _ => False := by
  intro n
  induction n with
  | zero =>
    intro i hi hlt
    exact ⟨rfl, fun s hs => hlt s (by omega)⟩
  | succ n ih =>
    intro i hi hlt
    have hin : i < nslots := by omega
    rw [allocSwapSlotLoop, bind_read, Run.ite_apply]
    split
    · rename_i hz
      have hfree := (h.slot_free_iff hin).1 hz
      obtain ⟨h1, k1⟩ := h.setSlot hin (b := slotByte σ i ||| (1#8 <<< (i % 8))) (t := .busy)
        (.inl hfree) (.inr rfl) (by rw [getLsbD_or_one_shiftLeft _ (by omega)]; simp)
        (fun k hk hne => by rw [getLsbD_or_one_shiftLeft _ (by omega)]; simp [hne])
      have hin' : i < 7000 := hin
      exact ⟨hin, hfree, ⟨_, rfl, (sameOutside_update _ _ _).mono (by omega) (by omega)⟩, h1, k1⟩
    · rename_i hz
      refine ih (i + 1) (by omega) fun s hs => ?_
      by_cases hsi : s = i
      · subst hsi; exact fun hf => hz ((h.slot_free_iff hin).2 hf)
      · exact hlt s (by omega)

/-- **`alloc_swap_slot`.** -/
theorem allocSwapSlot_spec (h : Inv σ g) :
    Ensures (allocSwapSlot σ) (SlotAllocated σ g) fun _ => False := by
  rw [allocSwapSlot, bind_read]
  exact allocSwapSlotLoop_spec h _ 0 (by rw [h.slots.count]; omega) fun s hs => absurd hs (by omega)

/-- The memory after `free_swap_slot`. -/
def clearSlotBit (σ : KState) (s : ℕ) : Mem :=
  update σ.mem (σ.swapBitmap + s / 8) (slotByte σ s &&& ~~~(1#8 <<< (s % 8)))

theorem freeSwapSlot_apply (σ : KState) (s : ℕ) :
    freeSwapSlot s σ = .ok ((), { σ with mem := clearSlotBit σ s }) := rfl

/-- **The bit of a slot that no longer keeps a page is cleared.** -/
theorem Inv.clearSlot (h : Inv σ g) (hs : g.slot s = .busy) :
    Inv { σ with mem := clearSlotBit σ s } (g.setSlot s .free) ∧
      Keeps { slots := {s} } σ g { σ with mem := clearSlotBit σ s } (g.setSlot s .free) :=
  h.setSlot (h.slots.range s (by simp [hs])) (.inr hs) (.inl rfl)
    (by rw [getLsbD_and_not_one_shiftLeft _ (by omega) (by omega)]; simp)
    fun k hk hne => by rw [getLsbD_and_not_one_shiftLeft _ (by omega) hk]; simp [hne]

/-- Clearing a bit and a store outside of the bitmap commute. -/
theorem clearSlotBit_store64 (hs : s < nslots)
    (ha : a + 8 ≤ σ.swapBitmap ∨ σ.swapBitmap + 4096 ≤ a) (w : Word) :
    (clearSlotBit σ s).store64 a w = clearSlotBit { σ with mem := σ.mem.store64 a w } s := by
  have hs' : s < 7000 := hs
  have hbyte : slotByte { σ with mem := σ.mem.store64 a w } s = slotByte σ s :=
    sameOutside_store64 σ.mem a w (σ.swapBitmap + s / 8) (by omega)
  rw [clearSlotBit, clearSlotBit, hbyte, update_store64_comm _ (by omega)]

theorem clearSlotBit_load64 (hs : s < nslots)
    (ha : a + 8 ≤ σ.swapBitmap ∨ σ.swapBitmap + 4096 ≤ a) :
    (clearSlotBit σ s).load64 a = σ.mem.load64 a := by
  have hs' : s < 7000 := hs
  exact load64_congr ((sameOutside_update _ _ _).agreeOn (by omega))

/-! ### Blocks -/

theorem slotBlock_inj {s s' i' : ℕ} (hi : i < 4) (hi' : i' < 4)
    (h : slotBlock s i = slotBlock s' i') : s = s' ∧ i = i' := by
  simp only [slotBlock, blksPerPg, pgsize, bsize] at h
  omega

theorem swapbase_le_slotBlock (s i : ℕ) : swapbase ≤ slotBlock s i := by
  simp only [slotBlock]; omega

/-- The disk is changed in the blocks of the slot `s` only. -/
def OnlySlot (s : ℕ) (d d' : ℕ → ℕ → Byte) : Prop := ∀ b, (∀ i < 4, b ≠ slotBlock s i) → d' b = d b

/-- **The blocks of a slot being written change.** -/
theorem Inv.writeSlot (h : Inv σ g) (hs : g.slot s = .busy) {d' : ℕ → ℕ → Byte}
    (hd : OnlySlot s σ.disk d') (n : BitVec 32) : Inv { σ with disk := d', nrSectorsWrite := n } g ∧
      Keeps { slots := {s} } σ g { σ with disk := d', nrSectorsWrite := n } g := by
  refine ⟨⟨h.dom, h.free, h.hist, h.tree, h.leaves, h.slots, h.lru⟩,
    Keeps.of_agree h.leaves rfl rfl (fun _ _ hne => absurd rfl hne)
      (fun _ _ _ => AgreeOn.refl _ _ _) (fun _ _ _ hx => absurd hx (notMem_empty _))
      (fun _ _ hx => absurd hx (notMem_empty _)) (fun _ _ _ _ _ _ => rfl)
      (fun x r v hp _ _ => ⟨hp.off, rfl, rfl⟩) (fun _ _ => Iff.rfl) (fun s' hs' i hi => ?_)
      fun b hb => ?_⟩
  · refine hd _ fun j hj he => ?_
    obtain rfl := (slotBlock_inj hi hj he).1
    rcases hs' with ⟨-, hne⟩ | ⟨r, v, hp, -⟩
    · exact hne (mem_singleton _)
    · rw [hs] at hp; cases hp
  · exact hd b fun j _ he => by have := swapbase_le_slotBlock s j; omega

theorem Inv.frame_range (h : Inv σ g) (hf : g.role f ≠ .none) :
    kernbase ≤ f ∧ σ.link.kend ≤ f ∧ f + 4096 ≤ phystop := by
  have ha := (h.dom f).1 hf
  have h1 := ha.kernbase_le
  have h2 := ha.1
  have h3 := ha.2.2
  refine ⟨h1, ha.2.1, ?_⟩
  simp only [phystop, kernbase] at *
  omega

theorem KernelMapped.block (h : KernelMapped p 4096) (hi : i < 4) :
    (p + i * bsize) % 2 ^ 64 = p + i * 1024 ∧ KernelMapped (p + i * 1024) bsize := by
  simp only [KernelMapped, OnStack, kstack, nproc, phystop, kernbase, maxva, trampolineVa, pgsize,
    bsize] at h ⊢
  rcases h with h | h | ⟨q, hq, h⟩
  · exact ⟨Nat.mod_eq_of_lt (by omega), .inl (by omega)⟩
  · exact ⟨Nat.mod_eq_of_lt (by omega), .inr (.inl (by omega))⟩
  · exact ⟨Nat.mod_eq_of_lt (by omega), .inr (.inr ⟨q, hq, by omega⟩)⟩

theorem Inv.kernelMapped (h : Inv σ g) (hf : g.role f ≠ .none) : KernelMapped f 4096 :=
  .inl ⟨(h.frame_range hf).1, (h.frame_range hf).2.2⟩

theorem Inv.view_frame (h : Inv σ g) (hf : g.role f ≠ .none) : AgreeOn σ.mem σ.view f 4096 :=
  fun a h1 h2 => if_pos (by have := h.frame_range hf; omega)

/-- One iteration of `swapwrite`. -/
theorem swapwriteBlock_at (hp : KernelMapped p 4096) (hi : i < 4) :
    swapwriteBlock p s i σ = .ok ((), { σ with
      nrSectorsWrite := σ.nrSectorsWrite + 1, disk := update σ.disk (slotBlock s i)
        (write (σ.disk (slotBlock s i)) 0 (σ.view.bytes (p + i * 1024) 1024)) }) := by
  obtain ⟨hmod, hread⟩ := hp.block hi
  simp only [swapwriteBlock, bind_modify, hmod, eitherCopyin, kernelRead, if_pos hread,
    bind_assoc_apply, bind_read, Run.bind_pure_apply, Run.ite_apply]
  rw [if_neg (by decide)]
  rfl

theorem swapwriteBlock_apply (h : Inv σ g) (hf : g.role f ≠ .none) (hi : i < 4) :
    swapwriteBlock f s i σ = .ok ((), { σ with
      nrSectorsWrite := σ.nrSectorsWrite + 1, disk := update σ.disk (slotBlock s i)
        (write (σ.disk (slotBlock s i)) 0 (σ.mem.bytes (f + i * 1024) 1024)) }) := by
  rw [swapwriteBlock_at (h.kernelMapped hf) hi,
    bytes_congr ((h.view_frame hf).mono (by omega) (by omega))]

/-- `swapwrite` of 4096 bytes that the kernel can read. -/
theorem swapwrite_at (hp : KernelMapped p 4096) (hs : s < nslots) :
    Ensures (swapwrite p s σ) (fun _ σ' => ∃ d' n, σ' = { σ with disk := d', nrSectorsWrite := n } ∧
      OnlySlot s σ.disk d' ∧ slotBytes d' s = frameBytes σ.view p ∧
      ∀ b j, bsize ≤ j → d' b j = σ.disk b j) fun _ => False := by
  have hs' : s < 7000 := hs
  rw [swapwrite, if_neg (by
    simp only [swapmax, blksPerPg, swapbase, pgsize, bsize]; omega)]
  simp only [Int.toNat_natCast]
  refine (each_range_spec (I := fun k σ' => ∃ d' n,
    σ' = { σ with disk := d', nrSectorsWrite := n } ∧
    (∀ b, (∀ i < k, b ≠ slotBlock s i) → d' b = σ.disk b) ∧
    (∀ i < k, ∀ j < 1024, d' (slotBlock s i) j = σ.view (p + i * 1024 + j)) ∧
    ∀ b j, bsize ≤ j → d' b j = σ.disk b j) (n := 4)
    (fun k hk σ' => ?_) ⟨σ.disk, σ.nrSectorsWrite, rfl, fun _ _ => rfl, by simp,
      fun _ _ _ => rfl⟩).imp ?_
  · rintro ⟨d', n, rfl, hout, hin, hend⟩
    rw [swapwriteBlock_at hp hk]
    refine ⟨_, _, rfl, fun b hb => ?_, fun i hi j hj => ?_, fun b j hj => ?_⟩
    · rw [update_of_ne (hb k (by omega))]
      exact hout b fun i hi => hb i (by omega)
    · by_cases hik : i = k
      · subst hik
        rw [update_self, write_bytes_apply _ _ (by omega) (by omega), Nat.sub_zero]
        rfl
      · rw [update_of_ne fun he => hik (slotBlock_inj (by omega) hk he).2]
        exact hin i (by omega) j hj
    · by_cases hb : b = slotBlock s k
      · subst hb
        rw [update_self, sameOutside_write _ _ _ _ (.inr (by
          rw [length_bytes]; simp only [bsize] at hj; omega))]
        exact hend _ j hj
      · rw [update_of_ne hb]
        exact hend b j hj
  · rintro - σ' ⟨d', n, rfl, hout, hin, hend⟩
    refine ⟨d', n, rfl, hout, funext fun k => ?_, hend⟩
    have hk : k.val < 4096 := k.isLt
    simp only [slotBytes, frameBytes, bsize]
    rw [hin (k / 1024) (by omega) (k % 1024) (by omega)]
    congr 1
    omega

/-- **`swapwrite` copies a frame to a slot.** -/
theorem swapwrite_spec (h : Inv σ g) (hf : g.role f ≠ .none) (hs : s < nslots) :
    Ensures (swapwrite f s σ) (fun _ σ' => ∃ d' n, σ' = { σ with disk := d', nrSectorsWrite := n } ∧
      OnlySlot s σ.disk d' ∧ slotBytes d' s = frameBytes σ.mem f) fun _ => False :=
  (swapwrite_at (h.kernelMapped hf) hs).imp fun _ _ ⟨d', n, hσ, hd, hb, _⟩ =>
    ⟨d', n, hσ, hd, hb.trans (frameBytes_congr (h.view_frame hf))⟩

theorem Inv.sectorsRead (h : Inv σ g) (n : BitVec 32) : Inv { σ with nrSectorsRead := n } g :=
  ⟨h.dom, h.free, h.hist, h.tree, h.leaves, h.slots, h.lru⟩

theorem Keeps.sectorsRead {D : Touch} {σ' : KState} {g' : Ghost} (k : Keeps D σ g σ' g')
    (n : BitVec 32) : Keeps D σ g { σ' with nrSectorsRead := n } g' :=
  ⟨k.link, k.bitmap, k.root, k.kern, k.bytes, k.table, k.page, k.special,
    fun f r v hp hr hP => let q := k.pinned f r v hp hr hP; ⟨q.role, q.off, q.pagetable, q.vaddr⟩,
    k.busy, k.blocks, k.disk⟩

/-- One iteration of `swapread` to physical memory beyond the kernel. -/
theorem swapreadBlock_at (h1 : σ.link.kend ≤ p) (h2 : p + 4096 ≤ phystop) (hi : i < 4) :
    swapreadBlock p s i σ = .ok ((), { σ with
      nrSectorsRead := σ.nrSectorsRead + 1,
      mem := σ.mem.write (p + i * 1024) (bytes (σ.disk (slotBlock s i)) 0 1024) }) := by
  have hmod : (p + i * bsize) % 2 ^ 64 = p + i * 1024 := Nat.mod_eq_of_lt (by
    simp only [phystop, kernbase, bsize] at *; omega)
  rw [swapreadBlock, bind_modify, bind_read, hmod, eitherCopyout]
  simp only [kernelWrite, bind_read, bind_assoc_apply, ite_bind_apply,
    length_bytes, bind_modify, bind_pure_apply]
  rw [if_pos ⟨by omega, by simp only [bsize]; omega⟩]
  rfl

/-- `swapread` to 4096 bytes of physical memory beyond the kernel. -/
theorem swapread_at (h1 : σ.link.kend ≤ p) (h2 : p + 4096 ≤ phystop) (hs : s < nslots) :
    Ensures (swapread p s σ) (fun _ σ' => ∃ m' n, σ' = { σ with mem := m', nrSectorsRead := n } ∧
      SameOutside σ.mem m' p 4096 ∧ frameBytes m' p = slotBytes σ.disk s) fun _ => False := by
  have hs' : s < 7000 := hs
  rw [swapread, if_neg (by
    simp only [swapmax, blksPerPg, swapbase, pgsize, bsize]; omega)]
  simp only [Int.toNat_natCast]
  refine (each_range_spec (I := fun k σ' => ∃ m' n,
    σ' = { σ with mem := m', nrSectorsRead := n } ∧ SameOutside σ.mem m' p 4096 ∧
    ∀ j < k * 1024, m' (p + j) = σ.disk (slotBlock s (j / 1024)) (j % 1024)) (n := 4)
    (fun k hk σ' => ?_) ⟨σ.mem, σ.nrSectorsRead, rfl, fun _ _ => rfl, by simp⟩).imp ?_
  · rintro ⟨m', n, rfl, hout, hin⟩
    rw [swapreadBlock_at (σ := { σ with mem := m', nrSectorsRead := n }) h1 h2 hk]
    refine ⟨_, _, rfl, hout.trans ?_, fun j hj => ?_⟩
    · exact (sameOutside_write _ _ _).mono (by omega) (by rw [length_bytes]; omega)
    · by_cases hjk : j < k * 1024
      · exact (sameOutside_write _ _ _ _ (.inl (by omega))).trans (hin j hjk)
      · have hdiv : j / 1024 = k := by omega
        have hmod : 0 + (p + j - (p + k * 1024)) = j % 1024 := by omega
        rw [write_bytes_apply _ _ (by omega) (by omega), hdiv, hmod]
  · rintro - σ' ⟨m', n, rfl, hout, hin⟩
    exact ⟨m', n, rfl, hout, funext fun k => hin k k.isLt⟩

/-- **`swapread` copies a slot to a frame.** -/
theorem swapread_spec (h : Inv σ g) (hf : g.role f = .kern) (hs : s < nslots) :
    Ensures (swapread f s σ) (fun _ σ' => Inv σ' g ∧ Keeps { frames := {f} } σ g σ' g ∧
      frameBytes σ'.mem f = slotBytes σ.disk s ∧
      ∃ m' n, σ' = { σ with mem := m', nrSectorsRead := n } ∧ SameOutside σ.mem m' f 4096)
      fun _ => False := by
  obtain ⟨-, h2, h3⟩ := h.frame_range (by simp [hf] : g.role f ≠ .none)
  refine (swapread_at h2 h3 hs).imp ?_
  rintro - σ' ⟨m', n, rfl, hout, hin⟩
  obtain ⟨h1, k1⟩ := h.writeKern hf hout
  exact ⟨h1.sectorsRead n, k1.sectorsRead n, hin, m', n, rfl, hout⟩

end Xv6Swap
