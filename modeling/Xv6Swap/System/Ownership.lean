import Xv6Swap.System.Evict

/-!
# Who owns what

The invariant of the system, read off a reachable world without ghost state:

* `frames_owned` : every frame of the allocator is in use in exactly one way, and the allocator has
  been used well so far;
* `slots_owned` : a slot is in use if and only if exactly one page-table entry names it;
* `lru_linked` : the LRU list is circular, and its reverse map is right;
* `spaces_shaped` : the pages of a process are those below its size.
-/

namespace Xv6Swap

open World List

variable {w : World} {g : Ghost} {f r v i j a s : ℕ} {m : Mem}

/-! ### Frames -/

/-- The ways in which a frame can be in use. -/
inductive Use where
  | free
  /-- User page number `v` of the table `r`. -/
  | page (r v : ℕ)
  /-- The root of the table of a process, or of none. -/
  | root (owner : Option ℕ)
  /-- The page-table page below entry `i` of the root `r`. -/
  | mid (r i : ℕ)
  /-- The page-table page below entry `j` of the one below entry `i` of the root `r`. -/
  | low (r i j : ℕ)
  | trapframe (i : ℕ)
  /-- A kernel stack, a pipe, or a buffer for arguments. -/
  | held
  | bitmap

/-- The entry at the physical address `a` is valid and points to the frame `f`. -/
def PointsTo (m : Mem) (a f : ℕ) : Prop := has (m.load64 a) pteV = true ∧ pte2pa (m.load64 a) = f

/-- The frame `f` is in use in the given way. -/
def World.Uses (w : World) (f : ℕ) : Use → Prop
  | .free => ∃ l, Chain w.sys.k.mem w.sys.k.freelist l ∧ l.count f = 1
  | .page r v => w.IsTable r ∧ v < uvpn ∧ has (leaf w.sys.k.mem r v) pteV = true ∧
      pte2pa (leaf w.sys.k.mem r v) = f
  | .root none => w.spaces.count f = 1
  | .root (some i) => i < nproc ∧ (w.sys.proc i).pagetable ≠ 0 ∧ (w.sys.proc i).pagetable = f
  | .mid r i => w.IsTable r ∧ i < 512 ∧ PointsTo w.sys.k.mem (r + 8 * i) f
  | .low r i j => ∃ q, w.IsTable r ∧ i < 512 ∧ PointsTo w.sys.k.mem (r + 8 * i) q ∧ j < 512 ∧
      PointsTo w.sys.k.mem (q + 8 * j) f
  | .trapframe i => i < nproc ∧ (w.sys.proc i).trapframe ≠ 0 ∧ (w.sys.proc i).trapframe = f
  | .held => w.held.count f = 1
  | .bitmap => w.sys.k.swapBitmap = f

/-- The role of a frame that is used in the given way. -/
def Use.role : Use → Role
  | free => .free
  | page r v => .user r v
  | root _ => .root
  | mid r i => .mid r i
  | low r i j => .low r i j
  | trapframe _ | held => .kern
  | bitmap => .bitmap

/-- An entry that points to a page-table page. -/
theorem role_of_pointsTo {ρ : ℕ → Role} {x : Role} (he : Ent m ρ a x)
    (hfr : ∀ f, ρ f = x → IsFrame f) (hp : PointsTo m a f) : ρ f = x := by
  obtain ⟨hV, hpa⟩ := hp
  rcases he with h0 | ⟨f', he, hx⟩
  · rw [h0, has_zero] at hV; cases hV
  · rw [he, pte2pa_pde (hfr f' hx)] at hpa
    rw [← hpa, hx]

theorem pointsTo_pde (hf : IsFrame f) (h : m.load64 a = pde f) : PointsTo m a f := by
  rw [PointsTo, h]
  exact ⟨has_pde hf, pte2pa_pde hf⟩

namespace World.Acc

variable (h : w.Acc g) {u : Use}
include h

/-- A frame that is used in some way has the role that goes with it. -/
theorem role_of_uses (hu : w.Uses f u) : g.role f = u.role := by
  have hmid : ∀ {r i f}, w.IsTable r → i < 512 → PointsTo w.sys.k.mem (r + 8 * i) f →
      g.role f = .mid r i := fun hr hi hp =>
    role_of_pointsTo (h.inv.tree.rootEnt (h.isTable.1 hr) hi)
      (fun f hf => h.inv.tree.frame_mid hf) hp
  cases u with
  | free =>
    obtain ⟨l, hl, hc⟩ := hu
    obtain ⟨l', hl', -, hmem⟩ := h.inv.free
    rw [hl.unique hl'] at hc
    exact (hmem f).1 (count_pos_iff.1 (by omega))
  | page r v =>
    obtain ⟨hr, hv, hV, hpa⟩ := hu
    exact (h.inv.user_iff (h.isTable.1 hr) hv).2 ⟨hV, hpa⟩
  | root o =>
    cases o with
    | none => exact h.root.of_mem (count_pos_iff.1
      (by rw [show w.spaces.count f = 1 from hu]; omega))
    | some i =>
      obtain ⟨hi, hp, rfl⟩ := hu
      exact h.root.of_slot hi hp
  | mid r i =>
    obtain ⟨hr, hi, hp⟩ := hu
    exact hmid hr hi hp
  | low r i j =>
    obtain ⟨q, hr, hi, hq, hj, hp⟩ := hu
    exact role_of_pointsTo (h.inv.tree.midEnt (hmid hr hi hq) hj)
      (fun f hf => h.inv.tree.frame_low hf) hp
  | trapframe i =>
    obtain ⟨hi, hp, rfl⟩ := hu
    exact h.kern.of_slot hi hp
  | held =>
    exact h.kern.of_mem (count_pos_iff.1 (by rw [show w.held.count f = 1 from hu]; omega))
  | bitmap => exact (h.inv.slots.bitmap f).2 (Eq.symm hu)

theorem exists_use (hf : g.role f ≠ .none) : ∃ u, w.Uses f u := by
  cases hrole : g.role f with
  | none => exact absurd hrole hf
  | free =>
    obtain ⟨l, hl, hnd, hmem⟩ := h.inv.free
    exact ⟨.free, l, hl, count_eq_one_of_mem hnd ((hmem f).2 hrole)⟩
  | kern =>
    rcases (h.kern.iff f).1 hrole with hm | ⟨i, hi, hp, he⟩
    · exact ⟨.held, count_eq_one_of_mem h.kern.nodup hm⟩
    · exact ⟨.trapframe i, hi, hp, he⟩
  | bitmap => exact ⟨.bitmap, ((h.inv.slots.bitmap f).1 hrole).symm⟩
  | root =>
    rcases (h.root.iff f).1 hrole with hm | ⟨i, hi, hp, he⟩
    · exact ⟨.root none, count_eq_one_of_mem h.root.nodup hm⟩
    · exact ⟨.root (some i), hi, hp, he⟩
  | mid r i =>
    obtain ⟨hi, hr, he⟩ := h.inv.tree.midBack hrole
    exact ⟨.mid r i, h.isTable.2 hr, hi, pointsTo_pde (h.inv.tree.frame_mid hrole) he⟩
  | low r i j =>
    obtain ⟨hj, q, hq, he⟩ := h.inv.tree.lowBack hrole
    obtain ⟨hi, hr, hqe⟩ := h.inv.tree.midBack hq
    exact ⟨.low r i j, q, h.isTable.2 hr, hi, pointsTo_pde (h.inv.tree.frame_mid hq) hqe, hj,
      pointsTo_pde (h.inv.tree.frame_low hrole) he⟩
  | user r v =>
    obtain ⟨hr, hv, hV, hpa⟩ := h.inv.leaves.user f r v hrole
    exact ⟨.page r v, h.isTable.2 hr, hv, hV, hpa⟩

theorem use_unique {u' : Use} (hu : w.Uses f u) (hu' : w.Uses f u') : u = u' := by
  have hrole : u.role = u'.role := (h.role_of_uses hu).symm.trans (h.role_of_uses hu')
  have hmem : ∀ {l : List ℕ}, l.count f = 1 → f ∈ l := fun hc =>
    count_pos_iff.1 (by omega)
  cases u with
  | root o =>
    cases u' with
    | root o' =>
      rcases o with _ | i <;> rcases o' with _ | j
      · rfl
      · obtain ⟨hj, hp, rfl⟩ := hu'
        exact absurd (hmem hu) (h.root.apart j hj hp)
      · obtain ⟨hi, hp, rfl⟩ := hu
        exact absurd (hmem hu') (h.root.apart i hi hp)
      · obtain ⟨hi, hp, he⟩ := hu
        obtain ⟨hj, -, he'⟩ := hu'
        rw [h.root.inj i j hi hj hp (he.trans he'.symm)]
    | _ => cases hrole
  | trapframe i =>
    cases u' with
    | trapframe j =>
      obtain ⟨hi, hp, he⟩ := hu
      obtain ⟨hj, -, he'⟩ := hu'
      rw [h.kern.inj i j hi hj hp (he.trans he'.symm)]
    | held =>
      obtain ⟨hi, hp, rfl⟩ := hu
      exact absurd (hmem hu') (h.kern.apart i hi hp)
    | _ => cases hrole
  | held =>
    cases u' with
    | trapframe j =>
      obtain ⟨hj, hp, rfl⟩ := hu'
      exact absurd (hmem hu) (h.kern.apart j hj hp)
    | held => rfl
    | _ => cases hrole
  | _ => cases u' <;> first | (cases hrole; rfl) | cases hrole

end World.Acc

/-- Each frame of the allocator is in use in exactly one way. -/
theorem World.Acc.frames (h : w.Acc g) (hf : Allocatable w.sys.k.link f) : ∃! u, w.Uses f u := by
  obtain ⟨u, hu⟩ := h.exists_use ((h.inv.dom f).2 hf)
  exact ⟨u, hu, fun u' hu' => h.use_unique hu' hu⟩

/-- **Frame ownership.**  In every reachable world each frame of the allocator is in use in exactly
one way and no other frame is in use; so far `kalloc` has returned only free frames, and `kfree` has
been given only frames that were not free. -/
theorem frames_owned (hw : system.Reachable w) :
    (∀ f, Allocatable w.sys.k.link f → ∃! u, w.Uses f u) ∧
      (∀ f u, w.Uses f u → Allocatable w.sys.k.link f) ∧ WellUsed w.sys.k.trace := by
  obtain ⟨⟨g, h⟩, -⟩ := reachable_sound hw
  refine ⟨fun f => h.frames, fun f u hu => (h.inv.dom f).1 ?_, h.inv.hist.1⟩
  rw [h.role_of_uses hu]
  cases u <;> simp [Use.role]

/-- The first process has a page in memory and one in the swap area. -/
theorem frames_owned_swapped : ∃ w, system.Reachable w ∧ w.Live 0 ∧ w.sys.k.lruHead ≠ none ∧
    slotInUse w.sys.k 0 = true ∧ (∀ f, Allocatable w.sys.k.link f → ∃! u, w.Uses f u) ∧
    (∀ f u, w.Uses f u → Allocatable w.sys.k.link f) ∧ WellUsed w.sys.k.trace := by
  obtain ⟨w, hw, ht⟩ := reachable_test (n := 13) (by decide) (by decide)
    [.userinit, .sbrk 0 8192#64, .swapout]
    (t := fun w => decide (w.Live 0 ∧ w.sys.k.lruHead ≠ none ∧ slotInUse w.sys.k 0))
    (by decide +kernel)
  obtain ⟨hlive, hlru, hslot⟩ := of_decide_eq_true ht
  exact ⟨w, hw, hlive, hlru, hslot, frames_owned hw⟩

/-! ### Swap slots -/

/-- The only panics of an operation in a reachable world are those of `loadseg` and `exit`. -/
theorem reachable_no_panic (hw : system.Reachable w) {op : Op} (hok : op.Ok w) {p : Panic}
    (h1 : p ≠ .loadseg) (h2 : p ≠ .initExiting) : op.run w ≠ .error (.panic p) := by
  intro he
  have hm := reachable_stop hw hok he
  cases op <;> first
    | exact hm.elim
    | (injection hm with hm; exact h1 hm)
    | (injection hm.1 with hm; exact h2 hm)

/-- The entries that name a slot are those of the page whose slot it is. -/
theorem World.Acc.namesSlot_iff (h : w.Acc g) : NamesSlot w r v s ↔ g.slot s = .page r v := by
  constructor
  · rintro ⟨hr, hv, hV, hS, he⟩
    rcases Nat.lt_or_ge v uvpn with hu | hu
    · exact (h.inv.slot_iff (h.isTable.1 hr) hu).2 ⟨hV, hS, he⟩
    · -- the entries above the user pages are zero or valid
      rcases h.inv.leaves.special r v (h.isTable.1 hr) hu hv with h0 | ⟨hV', -⟩
      · rw [h0, has_zero] at hS; cases hS
      · rw [hV] at hV'; cases hV'
  · intro hs
    obtain ⟨hr, hv, hV, hS, he⟩ := h.inv.leaves.slot s r v hs
    exact ⟨h.isTable.2 hr, lt_trans hv (by decide), hV, hS, he⟩

/-- When no eviction is in progress, a slot is in use if and only if one entry names it. -/
theorem World.Acc.slots (h : w.Acc g) (hf : w.flight = none) (hs : s < w.sys.k.swapSlots) :
    slotInUse w.sys.k s = true ↔ ∃! p : ℕ × ℕ, NamesSlot w p.1 p.2 s := by
  rw [h.inv.slots.count] at hs
  refine (h.inv.slots.bit s hs).trans ⟨fun hne => ?_, ?_⟩
  · cases hτ : g.slot s with
    | free => exact absurd hτ hne
    | busy =>
      obtain ⟨fl, hfl, -⟩ := (h.busy s).1 hτ
      rw [hf] at hfl; cases hfl
    | page r v =>
      refine ⟨(r, v), h.namesSlot_iff.2 hτ, fun p hp => ?_⟩
      have := h.namesSlot_iff.1 hp
      rw [hτ] at this
      injection this with h1 h2
      exact Prod.ext h1.symm h2.symm
  · rintro ⟨p, hp, -⟩ h0
    have := h.namesSlot_iff.1 hp
    rw [h0] at this; cases this

/-- **Slot ownership.**  In every reachable world a bit of the swap bitmap is set if and only if
exactly one page-table entry names the slot; the slots that entries name are below `swap_slots`, and
no operation reaches the range checks of `swapread` and `swapwrite`. -/
theorem slots_owned (hw : system.Reachable w) : (∀ s, s < w.sys.k.swapSlots →
      (slotInUse w.sys.k s = true ↔ ∃! p : ℕ × ℕ, NamesSlot w p.1 p.2 s)) ∧
    (∀ r v s, NamesSlot w r v s → s < w.sys.k.swapSlots) ∧
    ∀ op : Op, op.Ok w → op.run w ≠ .error (.panic .swapreadRange) ∧
      op.run w ≠ .error (.panic .swapwriteRange) := by
  obtain ⟨⟨g, h⟩, hf⟩ := reachable_sound hw
  refine ⟨fun s => h.slots hf, fun r v s hn => ?_, fun op hok =>
    ⟨reachable_no_panic hw hok (by decide) (by decide),
      reachable_no_panic hw hok (by decide) (by decide)⟩⟩
  rw [h.inv.slots.count]
  exact h.inv.slots.range s (by rw [h.namesSlot_iff.1 hn]; simp)

/-- A world in which a page of the first process is in slot 0. -/
theorem slots_owned_swapped : ∃ w, system.Reachable w ∧ slotInUse w.sys.k 0 = true ∧
    (∀ s, s < w.sys.k.swapSlots →
      (slotInUse w.sys.k s = true ↔ ∃! p : ℕ × ℕ, NamesSlot w p.1 p.2 s)) ∧
    (∀ r v s, NamesSlot w r v s → s < w.sys.k.swapSlots) ∧
    ∀ op : Op, op.Ok w → op.run w ≠ .error (.panic .swapreadRange) ∧
      op.run w ≠ .error (.panic .swapwriteRange) := by
  obtain ⟨w, hw, ht⟩ := reachable_test (n := 13) (by decide) (by decide)
    [.userinit, .sbrk 0 4096#64, .swapout] (t := fun w => slotInUse w.sys.k 0) (by decide +kernel)
  exact ⟨w, hw, ht, slots_owned hw⟩

/-! ### The LRU list -/

/-- The reverse map of a `struct page` names an entry that maps its frame. -/
def RightlyMapped (w : World) (i : ℕ) : Prop :=
  w.IsTable (w.sys.k.pages i).pagetable ∧ ∃ a,
    entry w.sys.k.mem (w.sys.k.pages i).pagetable (w.sys.k.pages i).vaddr = some a ∧
    PointsTo w.sys.k.mem a (pageToPa i)

/-- **The LRU list and the reverse map.**  In every reachable world the pointers of `pages[]` form a
circular doubly linked list without repetition from `lru_head` to `lru_tail`, those of the pages off
the list are null, and each page on the list is mapped by the entry that its reverse map names. -/
theorem lru_linked (hw : system.Reachable w) : ∃ l : List ℕ,
    IsRing (fun i => (w.sys.k.pages i).next) (fun i => (w.sys.k.pages i).prev) w.sys.k.lruHead
      w.sys.k.lruTail l ∧ ∀ i ∈ l, i < npages ∧ RightlyMapped w i := by
  obtain ⟨⟨g, h⟩, -⟩ := reachable_sound hw
  refine ⟨g.lru, h.inv.lru.ring, fun i hi => ⟨(h.inv.lru.user i hi).1, ?_⟩⟩
  obtain ⟨r, v, a, -, hr, -, hpt, hva, ha, hload, hV, hpa⟩ := h.inv.lru_page hi
  rw [RightlyMapped, hpt, hva]
  exact ⟨h.isTable.2 hr, a, ha, by rw [hload]; exact hV, by rw [hload]; exact hpa⟩

/-- A world with three pages on the list. -/
theorem lru_linked_grown : ∃ w, system.Reachable w ∧
    w.sys.k.lruHead.bind (fun i => (w.sys.k.pages i).next) ≠ w.sys.k.lruTail ∧ ∃ l : List ℕ,
    IsRing (fun i => (w.sys.k.pages i).next) (fun i => (w.sys.k.pages i).prev) w.sys.k.lruHead
      w.sys.k.lruTail l ∧ ∀ i ∈ l, i < npages ∧ RightlyMapped w i := by
  obtain ⟨w, hw, ht⟩ := reachable_test (n := 13) (by decide) (by decide)
    [.userinit, .sbrk 0 12288#64]
    (t := fun w => w.sys.k.lruHead.bind (fun i => (w.sys.k.pages i).next) ≠ w.sys.k.lruTail)
    (by decide +kernel)
  exact ⟨w, hw, of_decide_eq_true ht, lru_linked hw⟩

/-! ### Address spaces -/

/-- The panics that the shape of an address space rules out. -/
def shapePanics : List Panic :=
  [.uvmunmapWalk, .uvmunmapNotMapped, .uvmunmapNotLeaf, .uvmcopyPte, .uvmcopyPresent,
    .mappagesRemap, .freewalkLeaf]

/-- The entries of the page table of a process of size `sz`. -/
structure SpaceShaped (m : Mem) (r sz : ℕ) : Prop where
  /-- A page below the size is resident or swapped, and not both. -/
  below : ∀ v, v < npg sz →
    (has (leaf m r v) pteV = true ∧ has (leaf m r v) pteSwapped = false ∨
      has (leaf m r v) pteV = false ∧ has (leaf m r v) pteSwapped = true)
  /-- There is nothing else but the trapframe and the trampoline. -/
  above : ∀ v, npg sz ≤ v → v < 2 ^ 27 → v ≠ trapframeVa / pgsize → v ≠ trampolineVa / pgsize →
    leaf m r v = 0

theorem Shape.spaceShaped {σ : KState} {sz : ℕ} (hs : Shape σ r (npg sz)) (h : Inv σ g)
    (hr : g.role r = .root) : SpaceShaped σ.mem r sz := by
  have hle := hs.le_uvpn h hr
  refine ⟨fun v hv => ?_, fun v hv hv27 h1 h2 => ?_⟩
  · have hmap := (hs.pages v (by omega)).2 hv
    have hok := h.pteOk hr (by omega : v < uvpn)
    cases hV : has (leaf σ.mem r v) pteV with
    | true => exact .inl ⟨rfl, (hok.valid hV).1⟩
    | false =>
      refine .inr ⟨rfl, ?_⟩
      by_contra hS
      exact hmap (pageOf_eq_none_iff.2 ⟨hV, by simpa using hS⟩)
  · rcases Nat.lt_or_ge v uvpn with hu | hu
    · exact hs.leaf_eq_zero h hr hv hu
    · have h1' : v ≠ uvpn := h1
      have h2' : v ≠ trampolineVpn := h2
      have hnext : trampolineVpn = uvpn + 1 := by decide
      exact hs.rest v (by omega) hv27

/-- **Address-space shape.**  In every reachable world the page table of every process has the pages
below its size, each resident or swapped, and nothing else but the trapframe and the trampoline; and
no operation reaches a panic that this rules out. -/
theorem spaces_shaped (hw : system.Reachable w) : (∀ i, i < nproc → (w.sys.proc i).pagetable ≠ 0 →
      SpaceShaped w.sys.k.mem (w.sys.proc i).pagetable (w.sys.proc i).sz) ∧
    ∀ op : Op, op.Ok w → ∀ p ∈ shapePanics, op.run w ≠ .error (.panic p) := by
  obtain ⟨⟨g, h⟩, -⟩ := reachable_sound hw
  refine ⟨fun i hi hp => ((h.procs i hi).shape hp).spaceShaped h.inv (h.root_pagetable hi hp),
    fun op hok p hp => reachable_no_panic hw hok ?_ ?_⟩
  · rintro rfl
    exact absurd hp (by decide)
  · rintro rfl
    exact absurd hp (by decide)

/-- A world with a process of two pages. -/
theorem spaces_shaped_grown : ∃ w, system.Reachable w ∧ (w.sys.proc 0).sz = 8192 ∧
    (∀ i, i < nproc → (w.sys.proc i).pagetable ≠ 0 →
      SpaceShaped w.sys.k.mem (w.sys.proc i).pagetable (w.sys.proc i).sz) ∧
    ∀ op : Op, op.Ok w → ∀ p ∈ shapePanics, op.run w ≠ .error (.panic p) := by
  obtain ⟨w, hw, ht⟩ := reachable_test (n := 13) (by decide) (by decide)
    [.userinit, .sbrk 0 4096#64] (t := fun w => (w.sys.proc 0).sz = 8192) (by decide +kernel)
  exact ⟨w, hw, of_decide_eq_true ht, spaces_shaped hw⟩

end Xv6Swap
