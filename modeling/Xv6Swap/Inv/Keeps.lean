import Xv6Swap.Inv.Basic
import Mathlib.Data.Set.Insert

/-!
# Logical pages, and what an operation keeps

`logical σ r v` is the user page number `v` of the page table `r`: its R, W, X and U bits and its
4096 bytes, wherever they are (a frame or a swap slot).

`Keeps D σ g σ' g'` says what is the same in two states, apart from the pages, frames and slots of
`D`: the logical pages, the entries of `TRAPFRAME` and `TRAMPOLINE`, the kernel's frames and their
bytes, the roots, the page-table pages, the slots being written, and the blocks of the file system.
The specification of an operation of the memory system is a `Keeps` together with what the
operation does to the pages and frames of its `D`.

* `Keeps.trans`, `Keeps.mono` : sequencing;
* `Keeps.shrinkPages`, `Keeps.shrinkFrames`, `Keeps.shrinkSlots` : exceptions that turned out to be
  none;
* `Keeps.of_agree` : the `Keeps` of a step, from what it does to roles, bytes and entries.
-/

namespace Xv6Swap

open Mem

variable {m m' : Mem} {d d' disk : ℕ → ℕ → Byte} {e : Word} {r v : ℕ}

/-! ### Logical pages -/

/-- The contents of a user page: the bits R, W, X and U of its entry and its bytes. -/
@[ext] structure LPage where
  perms : Word
  bytes : Fin pgsize → Byte

/-- The bytes of a frame. -/
def frameBytes (m : Mem) (f : ℕ) : Fin pgsize → Byte := fun k => m (f + k)

/-- The bytes of a swap slot: its four blocks one after the other. -/
def slotBytes (disk : ℕ → ℕ → Byte) (s : ℕ) : Fin pgsize → Byte := fun k =>
  disk (slotBlock s (k / bsize)) (k % bsize)

/-- The page that the entry `e` maps. -/
def pageOf (m : Mem) (disk : ℕ → ℕ → Byte) (e : Word) : Option LPage :=
  if has e pteV then some ⟨perms e, frameBytes m (pte2pa e)⟩
  else if has e pteSwapped then some ⟨perms e, slotBytes disk (pteSlot e)⟩
  else none

/-- **The logical page** number `v` of the table `r`. -/
def logical (σ : KState) (r v : ℕ) : Option LPage := pageOf σ.mem σ.disk (leaf σ.mem r v)

theorem frameBytes_congr {f : ℕ} (h : AgreeOn m m' f 4096) :
    frameBytes m' f = frameBytes m f := by
  funext k
  have : k.val < 4096 := k.isLt
  exact h (f + k) (by omega) (by omega)

theorem slotBytes_congr {s : ℕ}
    (h : ∀ i < 4, d' (slotBlock s i) = d (slotBlock s i)) : slotBytes d' s = slotBytes d s := by
  funext k
  have : k.val < 4096 := k.isLt
  simp only [slotBytes]
  rw [h (k / bsize) (by simp only [bsize]; omega)]

theorem pageOf_zero (m : Mem) (disk : ℕ → ℕ → Byte) : pageOf m disk 0 = none := by
  simp [pageOf]

theorem pageOf_valid (h : has e pteV = true) :
    pageOf m disk e = some ⟨perms e, frameBytes m (pte2pa e)⟩ := if_pos h

theorem pageOf_swapped (h : has e pteV = false) (hs : has e pteSwapped = true) :
    pageOf m disk e = some ⟨perms e, slotBytes disk (pteSlot e)⟩ := by
  rw [pageOf, if_neg (by rw [h]; decide), if_pos hs]

theorem pageOf_eq_none_iff :
    pageOf m disk e = none ↔ has e pteV = false ∧ has e pteSwapped = false := by
  rw [pageOf]
  cases h : has e pteV <;> cases h' : has e pteSwapped <;> simp

/-- The same entry, over a frame or a slot with the same contents. -/
theorem pageOf_congr (hm : has e pteV = true → AgreeOn m m' (pte2pa e) 4096)
    (hd : has e pteV = false → has e pteSwapped = true →
      ∀ i < 4, d' (slotBlock (pteSlot e) i) = d (slotBlock (pteSlot e) i)) :
    pageOf m' d' e = pageOf m d e := by
  cases h : has e pteV with
  | true => rw [pageOf_valid h, pageOf_valid h, frameBytes_congr (hm h)]
  | false =>
    cases hs : has e pteSwapped with
    | true => rw [pageOf_swapped h hs, pageOf_swapped h hs, slotBytes_congr (hd h hs)]
    | false => rw [pageOf_eq_none_iff.2 ⟨h, hs⟩, pageOf_eq_none_iff.2 ⟨h, hs⟩]

/-- The leaf entry is zero where there is no page. -/
theorem PteOk.eq_zero_iff {ρ : ℕ → Role} {τ : ℕ → SlotRole}
    (h : PteOk ρ τ r v e) (m : Mem) (d : ℕ → ℕ → Byte) : e = 0 ↔ pageOf m d e = none := by
  rw [pageOf_eq_none_iff]
  exact ⟨fun he => by subst he; exact ⟨has_zero _, has_zero _⟩, fun he => h.zero he.1 he.2⟩

theorem Inv.leaf_eq_zero_iff {σ : KState} {g : Ghost} (h : Inv σ g)
    (hr : g.role r = .root) (hv : v < uvpn) : leaf σ.mem r v = 0 ↔ logical σ r v = none :=
  (h.pteOk hr hv).eq_zero_iff _ _

/-! ### What an operation keeps -/

/-- The index of a frame in `pages[]`. -/
def pageIdx (f : ℕ) : ℕ := (f - kernbase) / pgsize

/-- The user page `v` of `r`, in the frame `f`, is off the LRU list and registered: no `swapout`
can choose it. -/
structure Pinned (σ : KState) (g : Ghost) (f r v : ℕ) : Prop where
  role : g.role f = .user r v
  off : pageIdx f ∉ g.lru
  pagetable : (σ.pages (pageIdx f)).pagetable = r
  vaddr : (σ.pages (pageIdx f)).vaddr = v * 4096

/-- The pages, the frames of the kernel or roots, and the slots that an operation may change. -/
structure Touch where
  pages : Set (ℕ × ℕ) := ∅
  frames : Set ℕ := ∅
  slots : Set ℕ := ∅

/-- The table a page-table page below the root belongs to. -/
def Role.tableOf : Role → Option ℕ
  | .mid r _ | .low r _ _ => some r
  | _ => Option.none

/-- **What two states share**, apart from `D`. -/
structure Keeps (D : Touch) (σ : KState) (g : Ghost) (σ' : KState) (g' : Ghost) : Prop where
  link : σ'.link = σ.link
  bitmap : σ'.swapBitmap = σ.swapBitmap
  root : ∀ f, f ∉ D.frames → (g'.role f = .root ↔ g.role f = .root)
  kern : ∀ f, f ∉ D.frames → (g'.role f = .kern ↔ g.role f = .kern)
  bytes : ∀ f, f ∉ D.frames → g.role f = .kern → AgreeOn σ.mem σ'.mem f 4096
  table : ∀ f r, (g.role f).tableOf = some r → r ∉ D.frames → g'.role f = g.role f
  page : ∀ r v, g.role r = .root → r ∉ D.frames → v < uvpn → (r, v) ∉ D.pages →
    logical σ' r v = logical σ r v
  special : ∀ r v, g.role r = .root → r ∉ D.frames → uvpn ≤ v → v < 2 ^ 27 → (r, v) ∉ D.pages →
    leaf σ'.mem r v = leaf σ.mem r v
  pinned : ∀ f r v, Pinned σ g f r v → r ∉ D.frames → (r, v) ∉ D.pages → Pinned σ' g' f r v
  busy : ∀ s, s ∉ D.slots → (g'.slot s = .busy ↔ g.slot s = .busy)
  blocks : ∀ s, s ∉ D.slots → g.slot s = .busy → ∀ i < 4,
    σ'.disk (slotBlock s i) = σ.disk (slotBlock s i)
  disk : ∀ b < swapbase, σ'.disk b = σ.disk b

namespace Keeps

variable {D D' : Touch} {σ σ' σ'' : KState} {g g' g'' : Ghost} {f r v s : ℕ} {P : Set (ℕ × ℕ)}
  {F S : Set ℕ}

theorem refl (D : Touch) (σ : KState) (g : Ghost) : Keeps D σ g σ g where
  link := rfl
  bitmap := rfl
  root _ _ := Iff.rfl
  kern _ _ := Iff.rfl
  bytes _ _ _ := AgreeOn.refl _ _ _
  table _ _ _ _ := rfl
  page _ _ _ _ _ _ := rfl
  special _ _ _ _ _ _ _ := rfl
  pinned _ _ _ h _ _ := h
  busy _ _ := Iff.rfl
  blocks _ _ _ _ _ := rfl
  disk _ _ := rfl

/-- **Sequencing.** -/
theorem trans (h : Keeps D σ g σ' g') (h' : Keeps D σ' g' σ'' g'') : Keeps D σ g σ'' g'' where
  link := h'.link.trans h.link
  bitmap := h'.bitmap.trans h.bitmap
  root f hf := (h'.root f hf).trans (h.root f hf)
  kern f hf := (h'.kern f hf).trans (h.kern f hf)
  bytes f hf hk := (h.bytes f hf hk).trans (h'.bytes f hf ((h.kern f hf).2 hk))
  table f r hf hr := by
    have h1 := h.table f r hf hr
    rw [h'.table f r (by rw [h1]; exact hf) hr, h1]
  page r v hr hd hv hp :=
    (h'.page r v ((h.root r hd).2 hr) hd hv hp).trans (h.page r v hr hd hv hp)
  special r v hr hd hv hv' hp :=
    (h'.special r v ((h.root r hd).2 hr) hd hv hv' hp).trans (h.special r v hr hd hv hv' hp)
  pinned f r v hp hr hd := h'.pinned f r v (h.pinned f r v hp hr hd) hr hd
  busy s hs := (h'.busy s hs).trans (h.busy s hs)
  blocks s hs hb i hi := (h'.blocks s hs ((h.busy s hs).2 hb) i hi).trans (h.blocks s hs hb i hi)
  disk b hb := (h'.disk b hb).trans (h.disk b hb)

theorem mono (h : Keeps D σ g σ' g') (hp : D.pages ⊆ D'.pages) (hf : D.frames ⊆ D'.frames)
    (hs : D.slots ⊆ D'.slots) : Keeps D' σ g σ' g' where
  link := h.link
  bitmap := h.bitmap
  root f hD := h.root f fun hx => hD (hf hx)
  kern f hD := h.kern f fun hx => hD (hf hx)
  bytes f hD := h.bytes f fun hx => hD (hf hx)
  table f r ht hD := h.table f r ht fun hx => hD (hf hx)
  page r v hr hD hv hP := h.page r v hr (fun hx => hD (hf hx)) hv fun hx => hP (hp hx)
  special r v hr hD hv hv' hP := h.special r v hr (fun hx => hD (hf hx)) hv hv' fun hx => hP (hp hx)
  pinned f r v hpin hD hP := h.pinned f r v hpin (fun hx => hD (hf hx)) fun hx => hP (hp hx)
  busy s hD := h.busy s fun hx => hD (hs hx)
  blocks s hD := h.blocks s fun hx => hD (hs hx)
  disk := h.disk

/-- An operation that keeps everything keeps everything but `D`. -/
theorem mono_empty (h : Keeps {} σ g σ' g') (D : Touch) : Keeps D σ g σ' g' :=
  h.mono (Set.empty_subset _) (Set.empty_subset _) (Set.empty_subset _)

/-- Pages of `D` that are the same after all, or whose table is in `D`. -/
theorem shrinkPages {P' : Set (ℕ × ℕ)} (h : Keeps ⟨P', F, S⟩ σ g σ' g')
    (hP : ∀ r v, (r, v) ∈ P' → (r, v) ∉ P → r ∉ F → v < uvpn ∧ logical σ' r v = logical σ r v ∧
      ∀ f, Pinned σ g f r v → Pinned σ' g' f r v) : Keeps ⟨P, F, S⟩ σ g σ' g' := by
  refine ⟨h.link, h.bitmap, h.root, h.kern, h.bytes, h.table, fun r v hr hF hv hp => ?_,
    fun r v hr hF hv hv' hp => ?_, fun f r v hpin hF hp => ?_, h.busy, h.blocks, h.disk⟩
  · by_cases hp' : (r, v) ∈ P'
    · exact (hP r v hp' hp hF).2.1
    · exact h.page r v hr hF hv hp'
  · exact h.special r v hr hF hv hv' fun hp' => by have := (hP r v hp' hp hF).1; omega
  · by_cases hp' : (r, v) ∈ P'
    · exact (hP r v hp' hp hF).2.2 f hpin
    · exact h.pinned f r v hpin hF hp'

/-- Frames of `D` that were neither the kernel's nor roots, and are neither now. -/
theorem shrinkFrames {F' : Set ℕ} (h : Keeps ⟨P, F', S⟩ σ g σ' g')
    (hT : Tree σ.mem g.role) (hI : Leaves (leaf σ.mem) g.role g.slot)
    (hF : ∀ f ∈ F', f ∉ F → (g.role f ≠ .kern ∧ g.role f ≠ .root) ∧
      g'.role f ≠ .kern ∧ g'.role f ≠ .root) : Keeps ⟨P, F, S⟩ σ g σ' g' := by
  have hroot : ∀ {x}, g.role x = .root → x ∉ F → x ∉ F' := fun hx hxF hx' =>
    (hF _ hx' hxF).1.2 hx
  refine ⟨h.link, h.bitmap, fun x hxF => ?_, fun x hxF => ?_,
    fun x hxF hx => h.bytes x (fun hx' => (hF x hx' hxF).1.1 hx) hx,
    fun x r hx hr => h.table x r hx (hroot ?_ hr),
    fun r v hx hr hv hP => h.page r v hx (hroot hx hr) hv hP,
    fun r v hx hr hv hv' hP => h.special r v hx (hroot hx hr) hv hv' hP,
    fun x r v hp hr hP => h.pinned x r v hp (hroot (hI.user x r v hp.role).1 hr) hP,
    h.busy, h.blocks, h.disk⟩
  · by_cases hx' : x ∈ F'
    · exact ⟨fun h => absurd h (hF x hx' hxF).2.2, fun h => absurd h (hF x hx' hxF).1.2⟩
    · exact h.root x hx'
  · by_cases hx' : x ∈ F'
    · exact ⟨fun h => absurd h (hF x hx' hxF).2.1, fun h => absurd h (hF x hx' hxF).1.1⟩
    · exact h.kern x hx'
  · cases hw : g.role x <;> rw [hw] at hx <;> simp [Role.tableOf] at hx
    · subst hx; exact (hT.midBack hw).2.1
    · subst hx; exact (hT.low_root hw).1

/-- Slots of `D` that were not being written, and are not now. -/
theorem shrinkSlots {S' : Set ℕ} (h : Keeps ⟨P, F, S'⟩ σ g σ' g')
    (hS : ∀ s ∈ S', s ∉ S → g.slot s ≠ .busy ∧ g'.slot s ≠ .busy) : Keeps ⟨P, F, S⟩ σ g σ' g' := by
  refine ⟨h.link, h.bitmap, h.root, h.kern, h.bytes, h.table, h.page, h.special, h.pinned,
    fun x hxS => ?_, fun x hxS hx => h.blocks x (fun hx' => (hS x hx' hxS).1 hx) hx, h.disk⟩
  by_cases hx' : x ∈ S'
  · exact ⟨fun h => absurd h (hS x hx' hxS).2, fun h => absurd h (hS x hx' hxS).1⟩
  · exact h.busy x hx'

/-- The roles a frame outside of `D.frames` may leave or take. -/
def Loose (D : Touch) (w : Role) : Prop :=
  w = .free ∨ (∃ r v, w = .user r v ∧ ((r, v) ∈ D.pages ∨ r ∈ D.frames)) ∨
    ∃ r, w.tableOf = some r ∧ r ∈ D.frames

/-- **The `Keeps` of a step**, from what it does to roles, bytes, entries and disk blocks. -/
theorem of_agree (hI : Leaves (leaf σ.mem) g.role g.slot) (hlink : σ'.link = σ.link)
    (hbm : σ'.swapBitmap = σ.swapBitmap)
    (hrole : ∀ f, f ∉ D.frames → g'.role f ≠ g.role f → Loose D (g.role f) ∧ Loose D (g'.role f))
    (hmem : ∀ f, f ∉ D.frames → (g.role f = .kern ∨ ∃ r v, g.role f = .user r v ∧
      r ∉ D.frames ∧ (r, v) ∉ D.pages) → AgreeOn σ.mem σ'.mem f 4096)
    (huser : ∀ f r v, f ∈ D.frames → g.role f = .user r v → r ∈ D.frames ∨ (r, v) ∈ D.pages)
    (htab : ∀ f r, f ∈ D.frames → (g.role f).tableOf = some r → r ∈ D.frames)
    (hleaf : ∀ r v, g.role r = .root → r ∉ D.frames → v < 2 ^ 27 → (r, v) ∉ D.pages →
      leaf σ'.mem r v = leaf σ.mem r v)
    (hlru : ∀ f r v, Pinned σ g f r v → r ∉ D.frames → (r, v) ∉ D.pages → pageIdx f ∉ g'.lru ∧
      (σ'.pages (pageIdx f)).pagetable = (σ.pages (pageIdx f)).pagetable ∧
      (σ'.pages (pageIdx f)).vaddr = (σ.pages (pageIdx f)).vaddr)
    (hbusy : ∀ s, s ∉ D.slots → (g'.slot s = .busy ↔ g.slot s = .busy))
    (hblk : ∀ s, (g.slot s = .busy ∧ s ∉ D.slots ∨ ∃ r v, g.slot s = .page r v ∧
      r ∉ D.frames ∧ (r, v) ∉ D.pages) → ∀ i < 4, σ'.disk (slotBlock s i) = σ.disk (slotBlock s i))
    (hdisk : ∀ b < swapbase, σ'.disk b = σ.disk b) : Keeps D σ g σ' g' := by
  -- a role that is not loose is kept
  have hkeep : ∀ {f w}, f ∉ D.frames → ¬ Loose D w → (g'.role f = w ↔ g.role f = w) := by
    intro f w hf hw
    by_cases he : g'.role f = g.role f
    · rw [he]
    · obtain ⟨h1, h2⟩ := hrole f hf he
      exact ⟨fun h => absurd (h ▸ h2) hw, fun h => absurd (h ▸ h1) hw⟩
  have hfix : ∀ {f w}, f ∉ D.frames → g.role f = w → ¬ Loose D w → g'.role f = w :=
    fun hf hw hl => (hkeep hf hl).2 hw
  have huserL : ∀ {r v}, r ∉ D.frames → (r, v) ∉ D.pages → ¬ Loose D (.user r v) := by
    rintro r v hr hp (h | ⟨r', v', h, h'⟩ | ⟨r', h, -⟩)
    · cases h
    · cases h; exact h'.elim hp hr
    · cases h
  refine ⟨hlink, hbm, fun f hf => hkeep hf ?_, fun f hf => hkeep hf ?_,
    fun f hf hk => hmem f hf (.inl hk), fun f r ht hr => ?_, fun r v hr hd hv hp => ?_,
    fun r v hr hd hv hv' hp => hleaf r v hr hd hv' hp, fun f r v hpin hr hp => ?_, hbusy,
    fun s hs hb => hblk s (.inl ⟨hb, hs⟩), hdisk⟩
  · simp [Loose, Role.tableOf]
  · simp [Loose, Role.tableOf]
  · refine hfix (fun hf => hr (htab f r hf ht)) rfl ?_
    rintro (h | ⟨r', v', h, -⟩ | ⟨r', h, h'⟩)
    · rw [h] at ht; cases ht
    · rw [h] at ht; cases ht
    · rw [ht] at h; cases h; exact hr h'
  · have hok := hI.ok r v hr hv
    rw [logical, logical, hleaf r v hr hd (lt_trans hv (by decide)) hp]
    refine pageOf_congr (fun hV => ?_) fun hV hS => ?_
    · have hf := (hok.valid hV).2.2
      refine hmem _ (fun hF => ?_) (.inr ⟨r, v, hf, hd, hp⟩)
      exact (huser _ r v hF hf).elim hd hp
    · exact hblk _ (.inr ⟨r, v, (hok.swapped hV hS).2, hd, hp⟩)
  · have hf : f ∉ D.frames := fun hF => (huser f r v hF hpin.role).elim hr hp
    obtain ⟨h1, h2, h3⟩ := hlru f r v hpin hr hp
    exact ⟨hfix hf hpin.role (huserL hr hp), h1, h2.trans hpin.pagetable, h3.trans hpin.vaddr⟩

end Keeps

end Xv6Swap
