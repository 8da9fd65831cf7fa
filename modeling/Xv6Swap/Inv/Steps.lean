import Xv6Swap.Inv.Keeps

/-!
# The elementary steps of the memory system

Every operation of the memory system is a sequence of elementary changes of the state: bytes
written to a frame of the kernel or of a user page, a frame taken from the free list or put on it,
a page-table page added, a leaf entry replaced, a bit of the swap bitmap flipped, a change of the
LRU list, a disk block written.  For each of them this file gives the ghost state that follows it
and proves two things: the invariant `Inv` holds again, and everything but the pages, frames and
slots concerned is kept (`Keeps`).
-/

namespace Xv6Swap

open Function Mem

variable {f : ℕ}

theorem pageToPa_pageIdx (h : f % 4096 = 0) (hk : kernbase ≤ f) : pageToPa (pageIdx f) = f := by
  simp only [pageToPa, pageIdx, pgsize, kernbase] at *
  omega

@[simp] theorem pageIdx_pageToPa (i : ℕ) : pageIdx (pageToPa i) = i := by
  simp only [pageToPa, pageIdx, pgsize]
  omega

theorem Allocatable.kernbase_le {L : Link} (h : Allocatable L f) : kernbase ≤ f := by
  have h2 := L.trampoline_le
  have h3 := L.etext_le
  have h4 := h.2.1
  exact le_trans L.base_le (by omega)

/-- An exchange of two values on `F` leaves the other values where they are. -/
theorem eq_iff_of_exchange {α : Type} {u w w' : α} {ρ ρ' : ℕ → α} {F : Set ℕ}
    (hF : ∀ x ∈ F, (ρ x = w ∨ ρ x = w') ∧ (ρ' x = w ∨ ρ' x = w')) (hF' : ∀ x, x ∉ F → ρ' x = ρ x)
    (h1 : u ≠ w) (h2 : u ≠ w') (x : ℕ) : ρ' x = u ↔ ρ x = u := by
  by_cases hx : x ∈ F
  · obtain ⟨hx1, hx2⟩ := hF x hx
    constructor
    · rintro rfl; rcases hx2 with h | h <;> contradiction
    · rintro rfl; rcases hx1 with h | h <;> contradiction
  · rw [hF' x hx]

namespace Inv

variable {D : Touch} {σ : KState} {g : Ghost} {f r v s a x : ℕ} {m' : Mem} {e : Word}
  {τ' : ℕ → SlotRole} {w : Role} {ρ' : ℕ → Role} {F S : Set ℕ}

variable (h : Inv σ g)
include h

theorem role_pageToPa (hf : g.role f ≠ .none) : pageToPa (pageIdx f) = f :=
  pageToPa_pageIdx ((h.dom f).1 hf).1 ((h.dom f).1 hf).kernbase_le

theorem agreeOn_of_sameOutside (hm : SameOutside σ.mem m' f 4096)
    (hf : g.role f ≠ .none) (hx : g.role x ≠ .none) (hne : x ≠ f) : AgreeOn σ.mem m' x 4096 :=
  hm.agreeOn ((h.isFrame hx).apart (h.isFrame hf) hne)

/-- Two frames with the same index are the same. -/
theorem pageIdx_inj {f' : ℕ} (hf : g.role f ≠ .none) (hf' : g.role f' ≠ .none)
    (he : pageIdx f' = pageIdx f) : f' = f := by
  rw [← h.role_pageToPa hf, ← he, h.role_pageToPa hf']

/-! ### Bytes -/

/-- Bytes of kernel and user frames and of the swap bitmap may be written. -/
theorem withMemSlots
    (hm : ∀ x, g.role x ≠ .none → g.role x ≠ .kern → (∀ r v, g.role x ≠ .user r v) →
      g.role x ≠ .bitmap → AgreeOn σ.mem m' x 4096)
    (hτ : ∀ s r v, τ' s = .page r v ↔ g.slot s = .page r v)
    (hs : SlotsOk m' σ.swapBitmap σ.swapSlots g.role τ') :
    Inv { σ with mem := m' } { g with slot := τ' } := by
  have htab : ∀ x, (g.role x).isTable = true → AgreeOn σ.mem m' x 4096 := fun x hx =>
    hm x (by rintro h0; rw [h0] at hx; cases hx) (by rintro h0; rw [h0] at hx; cases hx)
      (by rintro r v h0; rw [h0] at hx; cases hx) (by rintro h0; rw [h0] at hx; cases hx)
  have T' : Tree m' g.role := h.tree.congr (fun _ _ => rfl) fun x hx => htab x (by
    rcases hx with hx | ⟨_, _, hx⟩ <;> rw [hx] <;> rfl)
  exact {
    dom := h.dom
    free := h.free.congr (fun x hx => hm x (by simp [hx]) (by simp [hx]) (by simp [hx])
      (by simp [hx])) fun _ => Iff.rfl
    hist := h.hist
    tree := T'
    leaves := h.leaves.congr (fun r v hr _ => h.tree.leaf_congr T' hr hr (fun _ _ _ => Iff.rfl)
      fun l i j hl => htab l (by rw [hl]; rfl)) (fun _ => Iff.rfl) (fun _ _ _ => Iff.rfl) hτ
    slots := hs
    lru := h.lru }

/-- Bytes of kernel and user frames may be written. -/
theorem withMem (hm : ∀ x, g.role x ≠ .none → g.role x ≠ .kern →
      (∀ r v, g.role x ≠ .user r v) → AgreeOn σ.mem m' x 4096) : Inv { σ with mem := m' } g := by
  have hb := (h.slots.bitmap σ.swapBitmap).2 rfl
  exact h.withMemSlots (fun x h1 h2 h3 _ => hm x h1 h2 h3) (fun _ _ _ => Iff.rfl)
    (h.slots.congr (hm _ (by simp [hb]) (by simp [hb]) (by simp [hb])) (fun _ => Iff.rfl)
      fun _ => Iff.rfl)

/-- What is kept when only bytes of the kernel frames and pages of `D` are written. -/
theorem keepsMem (hk : ∀ x ∈ D.frames, g.role x = .kern)
    (hm : ∀ x, g.role x ≠ .none → x ∉ D.frames → (∀ r v, g.role x = .user r v → (r, v) ∉ D.pages) →
      AgreeOn σ.mem m' x 4096) : Keeps D σ g { σ with mem := m' } g := by
  have hno : ∀ {x w}, g.role x = w → w ≠ .kern → x ∉ D.frames := fun hx hw hD =>
    hw (hx.symm.trans (hk _ hD))
  have htab : ∀ x, (g.role x).isTable = true → AgreeOn σ.mem m' x 4096 := fun x hx =>
    hm x (by rintro h0; rw [h0] at hx; cases hx) (hno rfl (by rintro h0; rw [h0] at hx; cases hx))
      (by rintro r v h0; rw [h0] at hx; cases hx)
  have T' : Tree m' g.role := h.tree.congr (fun _ _ => rfl) fun x hx => htab x (by
    rcases hx with hx | ⟨_, _, hx⟩ <;> rw [hx] <;> rfl)
  refine Keeps.of_agree h.leaves rfl rfl (fun _ _ hne => absurd rfl hne) (fun x hx hw => ?_)
    (fun x r v hx hw => absurd hx (hno hw (by simp)))
    (fun x r hx hw => absurd hx (hno rfl (by rintro h0; rw [h0] at hw; cases hw)))
    (fun r v hr _ _ _ => h.tree.leaf_congr T' hr hr (fun _ _ _ => Iff.rfl)
      fun l i j hl => htab l (by rw [hl]; rfl))
    (fun x r v hp _ _ => ⟨hp.off, rfl, rfl⟩) (fun _ _ => Iff.rfl) (fun _ _ _ _ => rfl)
    fun _ _ => rfl
  rcases hw with hw | ⟨r, v, hw, -, hp⟩
  · exact hm x (by simp [hw]) hx (by simp [hw])
  · refine hm x (by simp [hw]) hx fun r' v' hw' => ?_
    rw [hw] at hw'; cases hw'; exact hp

/-- **Bytes are written to a frame of the kernel.** -/
theorem writeKern (hf : g.role f = .kern) (hm : SameOutside σ.mem m' f 4096) :
    Inv { σ with mem := m' } g ∧ Keeps { frames := {f} } σ g { σ with mem := m' } g := by
  have hf0 : g.role f ≠ .none := by simp [hf]
  refine ⟨h.withMem fun x hx hk _ => ?_, h.keepsMem (by rintro x rfl; exact hf) fun x hx hne _ =>
    h.agreeOn_of_sameOutside hm hf0 hx hne⟩
  exact h.agreeOn_of_sameOutside hm hf0 hx (by rintro rfl; exact hk hf)

/-- **Bytes are written to a user page.** -/
theorem writeUser (hf : g.role f = .user r v) (hm : SameOutside σ.mem m' f 4096) :
    Inv { σ with mem := m' } g ∧ Keeps { pages := {(r, v)} } σ g { σ with mem := m' } g := by
  have hf0 : g.role f ≠ .none := by simp [hf]
  refine ⟨h.withMem fun x hx _ hu => ?_, h.keepsMem (by rintro x ⟨⟩) fun x hx _ hu =>
    h.agreeOn_of_sameOutside hm hf0 hx ?_⟩
  · exact h.agreeOn_of_sameOutside hm hf0 hx (by rintro rfl; exact hu r v hf)
  · rintro rfl; exact hu r v hf rfl

/-! ### The free list -/

theorem dom_update (hf : g.role f ≠ .none) (hw : w ≠ .none) (x : ℕ) :
    update g.role f w x ≠ .none ↔ Allocatable σ.link x := by
  by_cases hx : x = f
  · subst hx
    rw [update_self]
    exact iff_of_true hw ((h.dom x).1 hf)
  · rw [update_of_ne hx]
    exact h.dom x

/-- A frame that is free or held by the kernel gets a role, and the other frames and the entries of
the tables keep their contents. -/
theorem keepsRole {fl : ℕ} {tr : List Call} (hf : g.role f = .free ∨ g.role f = .kern)
    (hm : ∀ x, g.role x ≠ .none → (g.role x).isTable = false → x ≠ f → AgreeOn σ.mem m' x 4096)
    (hlf : ∀ r v, g.role r = .root → leaf m' r v = leaf σ.mem r v) :
    Keeps { frames := {f} } σ g { σ with mem := m', freelist := fl, trace := tr }
      (g.setRole f w) := by
  refine Keeps.of_agree h.leaves rfl rfl (fun x hx hne => ?_) (fun x hx hw => ?_)
    (fun x r v hx hw => ?_) (fun x r hx hw => ?_) (fun r v hr _ _ _ => hlf r v hr)
    (fun x r v hp _ _ => ⟨hp.off, rfl, rfl⟩) (fun _ _ => Iff.rfl) (fun _ _ _ _ => rfl)
    fun _ _ => rfl
  · exact absurd (update_of_ne hx ..) hne
  · rcases hw with hw | ⟨_, _, hw, -⟩ <;> exact hm x (by simp [hw]) (by rw [hw]; rfl) hx
  · obtain rfl : x = f := hx
    rw [hw] at hf
    rcases hf with hf | hf <;> cases hf
  · obtain rfl : x = f := hx
    rcases hf with hf | hf <;> rw [hf] at hw <;> cases hw

/-- The parts of the invariant that do not concern the free list, when a frame changes between
free and held by the kernel. -/
theorem replain (hf : g.role f = .free ∨ g.role f = .kern)
    (hw : w = .free ∨ w = .kern) (hm : SameOutside σ.mem m' f 4096) {fl : ℕ} {tr : List Call}
    (hfree : FreeOk m' fl (update g.role f w)) (hhist : HistOk tr (update g.role f w)) :
    Inv { σ with mem := m', freelist := fl, trace := tr } (g.setRole f w) ∧
      Keeps { frames := {f} } σ g { σ with mem := m', freelist := fl, trace := tr }
        (g.setRole f w) := by
  have hf0 : g.role f ≠ .none := by rcases hf with hf | hf <;> simp [hf]
  have hw0 : w ≠ .none := by rcases hw with rfl | rfl <;> simp
  have hag : ∀ {x u}, g.role x = u → u ≠ .none → u ≠ .free → u ≠ .kern →
      AgreeOn σ.mem m' x 4096 := by
    rintro x u hx h1 h2 h3
    refine h.agreeOn_of_sameOutside hm hf0 (by rw [hx]; exact h1) ?_
    rintro rfl
    rcases hf with hf | hf
    exacts [h2 (hx.symm.trans hf), h3 (hx.symm.trans hf)]
  have hsame : ∀ {u}, u ≠ .free → u ≠ .kern → ∀ x,
      (update g.role f w x = u ↔ g.role x = u) := by
    intro u h1 h2 x
    by_cases hx : x = f
    · subst hx
      rw [update_self]
      constructor
      · rintro rfl; rcases hw with rfl | rfl <;> contradiction
      · intro h0; rw [h0] at hf; rcases hf with hf | hf <;> contradiction
    · rw [update_of_ne hx]
  have T' : Tree m' (update g.role f w) := by
    refine h.tree.congr (fun x hx => ?_) fun x hx => ?_
    · by_cases hxf : x = f
      · subst hxf
        rw [update_self] at hx
        rcases hx with hx | hx
        · rcases hf with hf | hf <;> rw [hf] at hx <;> cases hx
        · rcases hw with rfl | rfl <;> cases hx
      · rw [update_of_ne hxf]
    · rcases hx with hx | ⟨_, _, hx⟩ <;> exact hag hx (by simp) (by simp) (by simp)
  have hlf : ∀ r v, g.role r = .root → leaf m' r v = leaf σ.mem r v := fun r v hr =>
    h.tree.leaf_congr T' hr ((hsame (by simp) (by simp) r).2 hr)
      (fun l i j => hsame (by simp) (by simp) l)
      fun l i j hl => hag hl (by simp) (by simp) (by simp)
  constructor
  · exact {
      dom := h.dom_update hf0 hw0
      free := hfree
      hist := hhist
      tree := T'
      leaves := h.leaves.congr (fun r v hr _ => hlf r v hr) (hsame (by simp) (by simp))
        (fun x r v => hsame (by simp) (by simp) x) fun _ _ _ => Iff.rfl
      slots := h.slots.congr (hag ((h.slots.bitmap _).2 rfl) (by simp) (by simp) (by simp))
        (hsame (by simp) (by simp)) fun _ => Iff.rfl
      lru := h.lru.congr fun i _ r v hi => (hsame (by simp) (by simp) _).2 hi }
  · exact h.keepsRole hf (fun x h0 _ => h.agreeOn_of_sameOutside hm hf0 h0) hlf

theorem ne_zero_of_role (hf : g.role f ≠ .none) : f ≠ 0 := by
  have := (h.isFrame hf).2.1
  omega

/-- **A frame is taken from the free list.** -/
theorem pop (h0 : σ.freelist ≠ 0) :
    Inv { σ with mem := σ.mem.fill σ.freelist 4096 5,
                 freelist := (σ.mem.load64 σ.freelist).toNat,
                 trace := .kalloc σ.freelist :: σ.trace } (g.setRole σ.freelist .kern) ∧
      Keeps { frames := {σ.freelist} } σ g
        { σ with mem := σ.mem.fill σ.freelist 4096 5,
                 freelist := (σ.mem.load64 σ.freelist).toNat,
                 trace := .kalloc σ.freelist :: σ.trace } (g.setRole σ.freelist .kern) := by
  have hf := h.free.head h0
  exact h.replain (.inl hf) (.inr rfl) (sameOutside_fill _ _ _ _)
    (h.free.pop (fun _ hx => h.isFrame_of_eq hx (by simp)) h0 (by simp) 5) (h.hist.pop hf (by simp))

/-- **A frame of the kernel is put on the free list.** -/
theorem push (hf : g.role f = .kern) :
    Inv { σ with mem := (σ.mem.fill f 4096 1).store64 f (BitVec.ofNat 64 σ.freelist),
                 freelist := f, trace := .kfree f :: σ.trace } (g.setRole f .free) ∧
      Keeps { frames := {f} } σ g
        { σ with mem := (σ.mem.fill f 4096 1).store64 f (BitVec.ofNat 64 σ.freelist),
                 freelist := f, trace := .kfree f :: σ.trace } (g.setRole f .free) := by
  have hout : SameOutside σ.mem
      ((σ.mem.fill f 4096 1).store64 f (BitVec.ofNat 64 σ.freelist)) f 4096 :=
    (sameOutside_fill _ _ _ _).trans
      ((sameOutside_store64 _ _ _).mono (le_refl _) (by omega))
  exact h.replain (.inr hf) (.inl rfl) hout
    (h.free.push (fun _ hx => h.isFrame_of_eq hx (by simp)) (h.isFrame_of_eq hf (by simp))
      (by simp [hf]) 1) (h.hist.push (by simp [hf]))

/-! ### Page-table pages -/

/-- A frame of the kernel becomes a page-table page. -/
theorem ofKern (hf : g.role f = .kern) (hw : w.isTable = true)
    (hm : ∀ x, g.role x ≠ .none → (g.role x).isTable = false → x ≠ f → AgreeOn σ.mem m' x 4096)
    (T' : Tree m' (update g.role f w))
    (hlf : ∀ r v, g.role r = .root → leaf m' r v = leaf σ.mem r v)
    (hnew : w = .root → ∀ v, leaf m' f v = 0) : Inv { σ with mem := m' } (g.setRole f w) ∧
      Keeps { frames := {f} } σ g { σ with mem := m' } (g.setRole f w) := by
  have hsame : ∀ {u : Role}, u.isTable = false → u ≠ .kern → ∀ x,
      (update g.role f w x = u ↔ g.role x = u) := by
    intro u h1 h2 x
    by_cases hx : x = f
    · subst hx
      rw [update_self]
      constructor
      · rintro rfl; rw [h1] at hw; cases hw
      · intro h0; exact absurd (h0.symm.trans hf) h2
    · rw [update_of_ne hx]
  have hne : ∀ {x u}, g.role x = u → u ≠ .kern → x ≠ f := by
    rintro x u hx hu rfl
    exact hu (hx.symm.trans hf)
  have hold : ∀ {x}, g.role x = .root → update g.role f w x = .root := fun {x} hx => by
    rw [update_of_ne (hne hx (by simp))]; exact hx
  constructor
  · exact {
      dom := h.dom_update (by simp [hf]) (by rintro rfl; cases hw)
      free := h.free.congr (fun x hx => hm x (by simp [hx]) (by rw [hx]; rfl) (hne hx (by simp)))
        (hsame rfl (by simp))
      hist := h.hist.congr (hsame rfl (by simp))
      tree := T'
      leaves := by
        change Leaves (leaf m') (update g.role f w) g.slot
        refine ⟨fun r v hr hv => ?_, fun r v hr hv hv' => ?_, fun x r v hx => ?_,
          fun s r v hs => ?_⟩
        · by_cases hrf : r = f
          · subst hrf
            rw [hnew (by simpa using hr)]; exact PteOk.of_zero ..
          · simp only [update_of_ne hrf] at hr
            obtain ⟨h1, h2, h3⟩ := h.leaves.ok r v hr hv
            rw [hlf r v hr]
            exact ⟨fun hV => ⟨(h1 hV).1, (h1 hV).2.1,
              (hsame rfl (by simp) _).2 (h1 hV).2.2⟩, h2, h3⟩
        · by_cases hrf : r = f
          · subst hrf
            exact .inl (hnew (by simpa using hr) v)
          · simp only [update_of_ne hrf] at hr
            rw [hlf r v hr]; exact h.leaves.special r v hr hv hv'
        · obtain ⟨hr, hv, hrest⟩ := h.leaves.user x r v ((hsame rfl (by simp) x).1 hx)
          rw [hlf r v hr]; exact ⟨hold hr, hv, hrest⟩
        · obtain ⟨hr, hv, hrest⟩ := h.leaves.slot s r v hs
          rw [hlf r v hr]; exact ⟨hold hr, hv, hrest⟩
      slots := by
        have hb := (h.slots.bitmap σ.swapBitmap).2 rfl
        exact h.slots.congr (hm _ (by simp [hb]) (by rw [hb]; rfl) (hne hb (by simp)))
          (hsame rfl (by simp)) fun _ => Iff.rfl
      lru := h.lru.congr fun i _ r v hi => (hsame rfl (by simp) _).2 hi }
  · exact h.keepsRole (.inr hf) hm hlf

/-- **A page-table page is added** below a zero entry. -/
theorem insertTable {q k : ℕ} (hc : (g.role q).child q k = some w)
    (hk : k < 512) (h0 : σ.mem.load64 (q + 8 * k) = 0) (hf : g.role f = .kern) :
    Inv { σ with mem := (σ.mem.fill f 4096 0).store64 (q + 8 * k) (pde f) } (g.setRole f w) ∧
      Keeps { frames := {f} } σ g
        { σ with mem := (σ.mem.fill f 4096 0).store64 (q + 8 * k) (pde f) } (g.setRole f w) := by
  have hff := h.isFrame_of_eq hf (by simp)
  have hft : (g.role f).isTable = false := by rw [hf]; rfl
  obtain ⟨hqt, hwi⟩ := Role.isTable_of_child hc
  refine h.ofKern hf (Role.isTable_of_isInner hwi) (fun x hx hxt hne => ?_)
    (h.tree.insert hc hk h0 hff hft) (fun r v hr => h.tree.leaf_insert hc hk h0 hff hft hr)
    fun hw => by rw [hw] at hwi; cases hwi
  have hxq : x ≠ q := by rintro rfl; rw [hqt] at hxt; cases hxt
  have h1 := (h.isFrame hx).apart hff hne
  have h2 := (h.isFrame hx).apart (h.tree.frame q hqt) hxq
  exact (agreeOn_fill _ (by omega)).trans (agreeOn_store64 _ (by omega))

/-- **A page table is created.** -/
theorem insertRoot (hf : g.role f = .kern) :
    Inv { σ with mem := σ.mem.fill f 4096 0 } (g.setRole f .root) ∧
      (∀ v, leaf (σ.mem.fill f 4096 0) f v = 0) ∧
      Keeps { frames := {f} } σ g { σ with mem := σ.mem.fill f 4096 0 } (g.setRole f .root) := by
  have hff := h.isFrame_of_eq hf (by simp)
  have hft : (g.role f).isTable = false := by rw [hf]; rfl
  have hnew : ∀ v, leaf (σ.mem.fill f 4096 0) f v = 0 := fun v => by
    rw [h.tree.leaf_insert_root hff hft (.inr rfl), if_pos rfl]
  obtain ⟨h1, h2⟩ := h.ofKern hf rfl
    (fun x hx _ hne => agreeOn_fill _ (by
      have := (h.isFrame hx).apart hff hne
      omega))
    (h.tree.insert_root hff hft)
    (fun r v hr => by
      rw [h.tree.leaf_insert_root hff hft (.inl hr), if_neg]
      rintro rfl
      rw [hf] at hr; cases hr) fun _ => hnew
  exact ⟨h1, hnew, h2⟩

/-! ### Leaf entries -/

variable (hr : g.role r = .root)
include hr

/-- The entry of a page lies in a page-table page. -/
theorem entry_apart (ha : entry σ.mem r (v * 4096) = some a) (hx : g.role x ≠ .none)
    (ht : (g.role x).isTable = false) :
    x + 4096 ≤ a ∨ a + 8 ≤ x := by
  obtain ⟨l, hl, rfl⟩ := (h.tree.entry_eq_some_iff hr).1 ha
  have hk := px_lt 0 (v * 4096)
  have := (h.isFrame hx).apart (h.tree.frame_low hl) (by rintro rfl; rw [hl] at ht; cases ht)
  omega

theorem leaf_store (hv : v < 2 ^ 27)
    (ha : entry σ.mem r (v * 4096) = some a) {r' v' : ℕ} (hr' : g.role r' = .root)
    (hv' : v' < 2 ^ 27) : leaf (σ.mem.store64 a e) r' v' = setLeaf (leaf σ.mem) r v e r' v' :=
  h.tree.leaf_store hr ha hv hr' hv' e

/-- **A leaf entry is replaced**, and with it the roles of the frames `F` and the slots `S` that
concern its page. -/
theorem storeLeaf (hv : v < 2 ^ 27) (ha : entry σ.mem r (v * 4096) = some a)
    (hF : ∀ x ∈ F, (g.role x = .kern ∨ g.role x = .user r v) ∧ (ρ' x = .kern ∨ ρ' x = .user r v))
    (hF' : ∀ x, x ∉ F → ρ' x = g.role x)
    (hS : ∀ x ∈ S, (g.slot x = .busy ∨ g.slot x = .page r v) ∧ (τ' x = .busy ∨ τ' x = .page r v))
    (hS' : ∀ x, x ∉ S → τ' x = g.slot x) (hl : ∀ i ∈ g.lru, pageToPa i ∉ F)
    (hleaves : Leaves (setLeaf (leaf σ.mem) r v e) ρ' τ') :
    Inv { σ with mem := σ.mem.store64 a e } { role := ρ', slot := τ', lru := g.lru } ∧
      Keeps ⟨{(r, v)}, F, S⟩ σ g { σ with mem := σ.mem.store64 a e }
        { role := ρ', slot := τ', lru := g.lru } := by
  have hsame : ∀ {u}, u ≠ .kern → u ≠ .user r v → ∀ x, (ρ' x = u ↔ g.role x = u) :=
    eq_iff_of_exchange hF hF'
  have hag : ∀ {x}, g.role x ≠ .none → (g.role x).isTable = false →
      AgreeOn σ.mem (σ.mem.store64 a e) x 4096 := fun hx ht =>
    agreeOn_store64 _ (h.entry_apart hr ha hx ht)
  have hlf : ∀ r' v', g.role r' = .root → v' < 2 ^ 27 →
      leaf (σ.mem.store64 a e) r' v' = setLeaf (leaf σ.mem) r v e r' v' := fun r' v' hr' hv' =>
    h.leaf_store hr hv ha hr' hv'
  have T' : Tree (σ.mem.store64 a e) ρ' := by
    obtain ⟨l, hl, rfl⟩ := (h.tree.entry_eq_some_iff hr).1 ha
    refine (h.tree.store_leaf hl (px_lt _ _) e).congr (fun x hx => ?_) fun _ _ =>
      AgreeOn.refl _ _ _
    by_cases hxF : x ∈ F
    · obtain ⟨hx1, hx2⟩ := hF x hxF
      rcases hx with hx | hx
      · rcases hx1 with h | h <;> rw [h] at hx <;> cases hx
      · rcases hx2 with h | h <;> rw [h] at hx <;> cases hx
    · exact hF' x hxF
  constructor
  · exact {
      dom := fun x => by
        rw [Ne, hsame (by simp) (by simp)]; exact h.dom x
      free := h.free.congr (fun x hx => hag (by simp [hx]) (by rw [hx]; rfl))
        (hsame (by simp) (by simp))
      hist := h.hist.congr (hsame (by simp) (by simp))
      tree := T'
      leaves := hleaves.congr
        (fun r' v' hr' hv' => hlf r' v' ((hsame (by simp) (by simp) r').1 hr') hv')
        (fun _ => Iff.rfl) (fun _ _ _ => Iff.rfl) fun _ _ _ => Iff.rfl
      slots := by
        have hb := (h.slots.bitmap σ.swapBitmap).2 rfl
        exact h.slots.congr (hag (by simp [hb]) (by rw [hb]; rfl)) (hsame (by simp) (by simp))
          (eq_iff_of_exchange hS hS' (by simp) (by simp))
      lru := h.lru.congr fun i hi r' v' hx => (hF' _ (hl i hi)).trans hx }
  · refine Keeps.of_agree h.leaves rfl rfl (fun x hx hne => absurd (hF' x hx) hne)
      (fun x hx hw => ?_) (fun x r' v' hx hw => ?_) (fun x r' hx hw => ?_)
      (fun r' v' hr' _ hv' hp => ?_) (fun x r' v' hp _ _ => ⟨hp.off, rfl, rfl⟩)
      (fun x hx => iff_of_eq (congrArg (· = _) (hS' x hx))) (fun _ _ _ _ => rfl) fun _ _ => rfl
    · rcases hw with hw | ⟨_, _, hw, -⟩ <;> exact hag (by simp [hw]) (by rw [hw]; rfl)
    · rcases (hF x hx).1 with h | h
      · rw [hw] at h; cases h
      · rw [hw] at h; cases h; exact .inr rfl
    · rcases (hF x hx).1 with h | h <;> rw [h] at hw <;> cases hw
    · rw [hlf r' v' hr' hv', setLeaf_of_ne]
      rintro ⟨rfl, rfl⟩
      exact hp (Set.mem_singleton _)

/-- **The entry of a user page is replaced.** -/
theorem setEntry (hv : v < uvpn) (ha : entry σ.mem r (v * 4096) = some a)
    (hF : ∀ x ∈ F, (g.role x = .kern ∨ g.role x = .user r v) ∧ (ρ' x = .kern ∨ ρ' x = .user r v))
    (hF' : ∀ x, x ∉ F → ρ' x = g.role x)
    (hS : ∀ x ∈ S, (g.slot x = .busy ∨ g.slot x = .page r v) ∧ (τ' x = .busy ∨ τ' x = .page r v))
    (hS' : ∀ x, x ∉ S → τ' x = g.slot x)
    (hl : ∀ i ∈ g.lru, pageToPa i ∉ F) (hok : PteOk ρ' τ' r v e)
    (huback : ∀ x, ρ' x = .user r v → has e pteV = true ∧ pte2pa e = x)
    (hsback : ∀ x, τ' x = .page r v →
      has e pteV = false ∧ has e pteSwapped = true ∧ pteSlot e = x) :
    Inv { σ with mem := σ.mem.store64 a e } { role := ρ', slot := τ', lru := g.lru } ∧
      Keeps ⟨{(r, v)}, F, S⟩ σ g { σ with mem := σ.mem.store64 a e }
        { role := ρ', slot := τ', lru := g.lru } := by
  refine h.storeLeaf hr (lt_trans hv (by decide)) ha hF hF' hS hS' hl ?_
  exact h.leaves.set (eq_iff_of_exchange hF hF' (by simp) (by simp))
    (fun x r' v' hne => eq_iff_of_exchange hF hF' (by simp) (by simpa using hne) x)
    (fun x r' v' hne => eq_iff_of_exchange hS hS' (by simp) (by simpa using hne) x) hr hv hok huback
    hsback

end Inv

end Xv6Swap
