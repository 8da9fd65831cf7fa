import Xv6Swap.Lib.Ring
import Xv6Swap.Inv.PageTable

/-!
# The invariant of the memory system

A `Ghost` assigns to every frame one `Role` and to every swap slot one `SlotRole`, and lists the
pages of the LRU list.  `Inv σ g` says that the state `σ` is organised as the ghost `g` says:

* `FreeOk` : the free list threads the frames with the role `free`, each once;
* `HistOk` : so far `kalloc` has returned free frames only and `kfree` has been given frames that
  were not free, and the frames free by that account have the role `free`;
* `Tree` : the page tables;
* `Leaves` : a user page is mapped by the frame, or kept in the slot, whose role names it, and
  conversely;
* `SlotsOk` : the bits of the swap bitmap are those of the slots in use;
* `LruOk` : `pages[]` holds a circular list of user pages with their reverse map.

Since a ghost gives every frame one role and every slot one owner, two page tables can share
neither a frame nor a slot.  The parts of the invariant are stated over the components of the
state they depend on, each with a lemma that moves it to a state where those are the same.
-/

namespace Xv6Swap

open Function Mem List

variable {f : ℕ} {m m' : Mem} {l : List ℕ} {ρ ρ' : ℕ → Role} {w : Role} {t : List Call}

/-- What a swap slot is used for. -/
inductive SlotRole where
  /-- Its bit is clear. -/
  | free
  /-- Allocated by a `swapout` that has not rewritten the entry yet. -/
  | busy
  /-- It keeps page number `v` of the table `r`. -/
  | page (r v : ℕ)
  deriving DecidableEq, Repr

/-- The bookkeeping of the proofs: roles of frames and slots, and the LRU list. -/
structure Ghost where
  role : ℕ → Role
  slot : ℕ → SlotRole
  lru : List ℕ

namespace Ghost

/-- Give the frame `f` the role `w`. -/
abbrev setRole (g : Ghost) (f : ℕ) (w : Role) : Ghost :=
  { g with role := update g.role f w }

/-- Give the slot `s` the role `t`. -/
abbrev setSlot (g : Ghost) (s : ℕ) (t : SlotRole) : Ghost :=
  { g with slot := update g.slot s t }

/-- Replace the LRU list. -/
abbrev setLru (g : Ghost) (l : List ℕ) : Ghost := { g with lru := l }

theorem setRole_self (g : Ghost) (f : ℕ) (w : Role) : (g.setRole f w).role f = w :=
  update_self ..

theorem setRole_of_ne (g : Ghost) {f x : ℕ} (w : Role) (h : x ≠ f) :
    (g.setRole f w).role x = g.role x := update_of_ne h ..

theorem setRole_setRole (g : Ghost) (f : ℕ) (w w' : Role) :
    (g.setRole f w).setRole f w' = g.setRole f w' := by
  simp only [setRole, update_idem]

theorem setSlot_self (g : Ghost) (s : ℕ) (t : SlotRole) : (g.setSlot s t).slot s = t :=
  update_self ..

end Ghost

/-- The frames that `kinit` gives to the allocator. -/
def Allocatable (L : Link) (f : ℕ) : Prop := f % 4096 = 0 ∧ L.kend ≤ f ∧ f < phystop

theorem Allocatable.isFrame {L : Link} (h : Allocatable L f) : IsFrame f := by
  have h1 : kernbase ≤ L.trampoline := L.base_le
  have h2 := L.trampoline_le
  have h3 := L.etext_le
  exact ⟨h.1, lt_of_lt_of_le (by decide : 0 < kernbase) (h1.trans ((Nat.le_add_right _ _).trans
    (h2.trans (h3.trans h.2.1)))), h.2.2⟩

/-! ### The free list -/

/-- The list threaded from `head` through the first words of its frames. -/
def Chain (m : Mem) : ℕ → List ℕ → Prop
  | head, [] => head = 0
  | head, f :: l => head = f ∧ f ≠ 0 ∧ Chain m (m.load64 f).toNat l

theorem Chain.congr (hm : ∀ f ∈ l, AgreeOn m m' f 8) :
    ∀ {head}, Chain m head l → Chain m' head l := by
  induction l with
  | nil => exact fun h => h
  | cons f l ih =>
    rintro head ⟨rfl, hne, hl⟩
    refine ⟨rfl, hne, ?_⟩
    rw [load64_congr (hm head mem_cons_self)]
    exact ih (fun x hx => hm x (mem_cons_of_mem _ hx)) hl

theorem Chain.unique {l' : List ℕ} : ∀ {head}, Chain m head l → Chain m head l' → l = l' := by
  induction l generalizing l' with
  | nil =>
    rintro head rfl h'
    cases l' with
    | nil => rfl
    | cons f l' => obtain ⟨rfl, hne, -⟩ := h'; exact absurd rfl hne
  | cons f l ih =>
    rintro head ⟨rfl, hne, hl⟩ h'
    cases l' with
    | nil => exact absurd h' hne
    | cons f' l' =>
      obtain ⟨rfl, -, hl'⟩ := h'
      rw [ih hl hl']

/-- The free list holds the free frames, each once. -/
def FreeOk (m : Mem) (head : ℕ) (ρ : ℕ → Role) : Prop :=
  ∃ l, Chain m head l ∧ l.Nodup ∧ ∀ f, f ∈ l ↔ ρ f = .free

theorem FreeOk.congr {head : ℕ} (h : FreeOk m head ρ)
    (hm : ∀ f, ρ f = .free → AgreeOn m m' f 4096) (hρ : ∀ f, ρ' f = .free ↔ ρ f = .free) :
    FreeOk m' head ρ' := by
  obtain ⟨l, hl, hnd, hmem⟩ := h
  refine ⟨l, hl.congr fun f hf => (hm f ((hmem f).1 hf)).mono (Nat.le_refl _) (by omega), hnd,
    fun f => ?_⟩
  rw [hmem, hρ]

/-- The head of a non-empty free list is a free frame. -/
theorem FreeOk.head {head : ℕ} (h : FreeOk m head ρ) (h0 : head ≠ 0) : ρ head = .free := by
  obtain ⟨l, hl, -, hmem⟩ := h
  cases l with
  | nil => exact absurd hl h0
  | cons f l => rw [hl.1]; exact (hmem f).1 mem_cons_self

theorem FreeOk.pop {head : ℕ} (h : FreeOk m head ρ)
    (hframe : ∀ x, ρ x = .free → IsFrame x) (h0 : head ≠ 0) (hw : w ≠ .free) (c : Byte) :
    FreeOk (m.fill head 4096 c) (m.load64 head).toNat (update ρ head w) := by
  have hf := hframe _ (h.head h0)
  obtain ⟨l, hl, hnd, hmem⟩ := h
  cases l with
  | nil => exact absurd hl h0
  | cons f l =>
    obtain ⟨rfl, -, hl⟩ := hl
    rw [nodup_cons] at hnd
    refine ⟨l, hl.congr fun x hx => ?_, hnd.2, fun x => ?_⟩
    · have hx' := (hmem x).1 (mem_cons_of_mem _ hx)
      have hne : x ≠ head := by rintro rfl; exact hnd.1 hx
      have := (hframe x hx').apart hf hne
      exact agreeOn_fill _ (by omega)
    · by_cases hx : x = head
      · subst hx; simp [hnd.1, hw]
      · rw [update_of_ne hx, ← hmem, mem_cons]; simp [hx]

theorem FreeOk.push {head : ℕ} (h : FreeOk m head ρ)
    (hframe : ∀ x, ρ x = .free → IsFrame x) (hf : IsFrame f) (hρ : ρ f ≠ .free) (c : Byte) :
    FreeOk ((m.fill f 4096 c).store64 f (BitVec.ofNat 64 head)) f (update ρ f .free) := by
  have hlt : head < 2 ^ 64 := by
    by_cases h0 : head = 0
    · omega
    · have := (hframe _ (h.head h0)).lt
      omega
  obtain ⟨l, hl, hnd, hmem⟩ := h
  have hfl : f ∉ l := fun hx => hρ ((hmem f).1 hx)
  refine ⟨f :: l, ⟨rfl, hf.2.1.ne', ?_⟩, nodup_cons.2 ⟨hfl, hnd⟩, fun x => ?_⟩
  · rw [load64_store64_self, BitVec.toNat_ofNat, Nat.mod_eq_of_lt hlt]
    refine hl.congr fun x hx => ?_
    have := (hframe x ((hmem x).1 hx)).apart hf (by rintro rfl; exact hfl hx)
    have hfill : AgreeOn m (m.fill f 4096 c) x 8 := agreeOn_fill _ (by omega)
    exact hfill.trans (agreeOn_store64 _ (by omega))
  · by_cases hx : x = f
    · subst hx; simp
    · rw [update_of_ne hx, ← hmem, mem_cons]; simp [hx]

/-! ### The history of the allocator -/

/-- The frame is free after the calls of a history. -/
def FreeAfter : List Call → ℕ → Prop
  | [], _ => False
  | .kalloc pa :: t, f => f ≠ pa ∧ FreeAfter t f
  | .kfree pa :: t, f => f = pa ∨ FreeAfter t f

/-- Every `kalloc` of the history returned a free frame, and every `kfree` was given a frame that
was not free. -/
def WellUsed : List Call → Prop
  | [] => True
  | .kalloc pa :: t => FreeAfter t pa ∧ WellUsed t
  | .kfree pa :: t => ¬ FreeAfter t pa ∧ WellUsed t

/-- The history is in order, and its free frames are those with the role `free`. -/
def HistOk (t : List Call) (ρ : ℕ → Role) : Prop :=
  WellUsed t ∧ ∀ f, FreeAfter t f ↔ ρ f = .free

theorem HistOk.congr (h : HistOk t ρ) (hρ : ∀ f, ρ' f = .free ↔ ρ f = .free) : HistOk t ρ' :=
  ⟨h.1, fun f => (h.2 f).trans (hρ f).symm⟩

theorem HistOk.pop (h : HistOk t ρ) (hf : ρ f = .free) (hw : w ≠ .free) :
    HistOk (.kalloc f :: t) (update ρ f w) := by
  refine ⟨⟨(h.2 _).2 hf, h.1⟩, fun x => ?_⟩
  by_cases hx : x = f
  · subst hx; simp [FreeAfter, hw]
  · simp [FreeAfter, hx, h.2 x]

theorem HistOk.push (h : HistOk t ρ) (hf : ρ f ≠ .free) :
    HistOk (.kfree f :: t) (update ρ f .free) := by
  refine ⟨⟨fun hx => hf ((h.2 f).1 hx), h.1⟩, fun x => ?_⟩
  by_cases hx : x = f
  · subst hx; simp [FreeAfter]
  · simp [FreeAfter, hx, h.2 x]

/-! ### Leaf entries -/

/-- The entry `e` of page number `v` of the table `r` is one of: zero; valid, mapping a frame with
the role of that page; or swapped, naming a slot with the role of that page.  A page can be read. -/
structure PteOk (ρ : ℕ → Role) (τ : ℕ → SlotRole) (r v : ℕ) (e : Word) : Prop where
  valid : has e pteV = true →
    has e pteSwapped = false ∧ has e pteR = true ∧ ρ (pte2pa e) = .user r v
  swapped : has e pteV = false → has e pteSwapped = true →
    has e pteR = true ∧ τ (pteSlot e) = .page r v
  zero : has e pteV = false → has e pteSwapped = false → e = 0

theorem PteOk.of_zero (ρ : ℕ → Role) (τ : ℕ → SlotRole) (r v : ℕ) : PteOk ρ τ r v 0 where
  valid h := by rw [has_zero] at h; cases h
  swapped _ h := by rw [has_zero] at h; cases h
  zero _ _ := rfl

/-- The entry of `TRAMPOLINE` or `TRAPFRAME`: not for the user. -/
def SpecialPte (e : Word) : Prop :=
  e = 0 ∨ has e pteV = true ∧ has e pteR = true ∧ has e pteU = false

/-- The leaf entries `lf` and the roles agree. -/
structure Leaves (lf : ℕ → ℕ → Word) (ρ : ℕ → Role) (τ : ℕ → SlotRole) : Prop where
  ok : ∀ r v, ρ r = .root → v < uvpn → PteOk ρ τ r v (lf r v)
  special : ∀ r v, ρ r = .root → uvpn ≤ v → v < 2 ^ 27 → SpecialPte (lf r v)
  user : ∀ f r v, ρ f = .user r v →
    ρ r = .root ∧ v < uvpn ∧ has (lf r v) pteV = true ∧ pte2pa (lf r v) = f
  slot : ∀ s r v, τ s = .page r v → ρ r = .root ∧ v < uvpn ∧ has (lf r v) pteV = false ∧
    has (lf r v) pteSwapped = true ∧ pteSlot (lf r v) = s

/-- Replace one leaf entry. -/
def setLeaf (lf : ℕ → ℕ → Word) (r v : ℕ) (e : Word) : ℕ → ℕ → Word := fun r' v' =>
  if r' = r ∧ v' = v then e else lf r' v'

theorem setLeaf_self (lf : ℕ → ℕ → Word) (r v : ℕ) (e : Word) : setLeaf lf r v e r v = e :=
  if_pos ⟨rfl, rfl⟩

theorem setLeaf_of_ne (lf : ℕ → ℕ → Word) {r v r' v' : ℕ} (e : Word) (h : ¬ (r' = r ∧ v' = v)) :
    setLeaf lf r v e r' v' = lf r' v' := if_neg h

namespace Leaves

variable {lf lf' : ℕ → ℕ → Word} {ρ ρ' : ℕ → Role} {τ τ' : ℕ → SlotRole} {r v : ℕ} {e : Word}

/-- A change that leaves the roots, the user pages and the kept slots alone. -/
theorem congr (h : Leaves lf ρ τ) (hlf : ∀ r v, ρ r = .root → v < 2 ^ 27 → lf' r v = lf r v)
    (hroot : ∀ f, ρ' f = .root ↔ ρ f = .root) (huser : ∀ f r v, ρ' f = .user r v ↔ ρ f = .user r v)
    (hslot : ∀ s r v, τ' s = .page r v ↔ τ s = .page r v) : Leaves lf' ρ' τ' := by
  have hlt : ∀ {v}, v < uvpn → v < 2 ^ 27 := fun hv => lt_trans hv (by decide)
  refine ⟨fun r v hr hv => ?_, fun r v hr hv hv' => ?_, fun f r v hf => ?_, fun s r v hs => ?_⟩
  · have hr₀ := (hroot r).1 hr
    rw [hlf r v hr₀ (hlt hv)]
    obtain ⟨h1, h2, h3⟩ := h.ok r v hr₀ hv
    exact ⟨fun hV => ⟨(h1 hV).1, (h1 hV).2.1, (huser _ _ _).2 (h1 hV).2.2⟩,
      fun hV hS => ⟨(h2 hV hS).1, (hslot _ _ _).2 (h2 hV hS).2⟩, h3⟩
  · have hr₀ := (hroot r).1 hr
    rw [hlf r v hr₀ hv']
    exact h.special r v hr₀ hv hv'
  · obtain ⟨hr, hv, h1, h2⟩ := h.user f r v ((huser _ _ _).1 hf)
    rw [hlf r v hr (hlt hv)]
    exact ⟨(hroot r).2 hr, hv, h1, h2⟩
  · obtain ⟨hr, hv, h1, h2⟩ := h.slot s r v ((hslot _ _ _).1 hs)
    rw [hlf r v hr (hlt hv)]
    exact ⟨(hroot r).2 hr, hv, h1, h2⟩

/-- **The entry of one user page is replaced**, with the roles that concern this page. -/
theorem set (h : Leaves lf ρ τ) (hroot : ∀ f, ρ' f = .root ↔ ρ f = .root)
    (huser : ∀ f r' v', ¬ (r' = r ∧ v' = v) → (ρ' f = .user r' v' ↔ ρ f = .user r' v'))
    (hslot : ∀ s r' v', ¬ (r' = r ∧ v' = v) → (τ' s = .page r' v' ↔ τ s = .page r' v'))
    (hr : ρ r = .root) (hv : v < uvpn) (hok : PteOk ρ' τ' r v e)
    (huback : ∀ f, ρ' f = .user r v → has e pteV = true ∧ pte2pa e = f)
    (hsback : ∀ s, τ' s = .page r v →
      has e pteV = false ∧ has e pteSwapped = true ∧ pteSlot e = s) :
    Leaves (setLeaf lf r v e) ρ' τ' := by
  refine ⟨fun r' v' hr' hv' => ?_, fun r' v' hr' hv' hv'' => ?_, fun f r' v' hf => ?_,
    fun s r' v' hs => ?_⟩
  · by_cases hs : r' = r ∧ v' = v
    · obtain ⟨rfl, rfl⟩ := hs
      rw [setLeaf_self]; exact hok
    · rw [setLeaf_of_ne _ _ hs]
      obtain ⟨h1, h2, h3⟩ := h.ok r' v' ((hroot r').1 hr') hv'
      exact ⟨fun hV => ⟨(h1 hV).1, (h1 hV).2.1, (huser _ _ _ hs).2 (h1 hV).2.2⟩,
        fun hV hS => ⟨(h2 hV hS).1, (hslot _ _ _ hs).2 (h2 hV hS).2⟩, h3⟩
  · rw [setLeaf_of_ne _ _ fun hs => absurd hv (by omega)]
    exact h.special r' v' ((hroot r').1 hr') hv' hv''
  · by_cases hs : r' = r ∧ v' = v
    · obtain ⟨rfl, rfl⟩ := hs
      rw [setLeaf_self]
      exact ⟨(hroot _).2 hr, hv, huback f hf⟩
    · rw [setLeaf_of_ne _ _ hs]
      obtain ⟨hr', hv', hrest⟩ := h.user f r' v' ((huser _ _ _ hs).1 hf)
      exact ⟨(hroot _).2 hr', hv', hrest⟩
  · by_cases hne : r' = r ∧ v' = v
    · obtain ⟨rfl, rfl⟩ := hne
      rw [setLeaf_self]
      exact ⟨(hroot _).2 hr, hv, hsback s hs⟩
    · rw [setLeaf_of_ne _ _ hne]
      obtain ⟨hr', hv', hrest⟩ := h.slot s r' v' ((hslot _ _ _ hne).1 hs)
      exact ⟨(hroot _).2 hr', hv', hrest⟩

/-- The entry of `TRAPFRAME` or `TRAMPOLINE` is replaced. -/
theorem set_special (h : Leaves lf ρ τ) (hv : uvpn ≤ v)
    (he : SpecialPte e) : Leaves (setLeaf lf r v e) ρ τ := by
  have hne : ∀ {r' v'}, v' < uvpn → setLeaf lf r v e r' v' = lf r' v' := fun {r' v'} hv' =>
    setLeaf_of_ne _ _ fun hs => by omega
  refine ⟨fun r' v' hr' hv' => ?_, fun r' v' hr' hv' hv'' => ?_, fun f r' v' hf => ?_,
    fun s r' v' hs => ?_⟩
  · rw [hne hv']; exact h.ok r' v' hr' hv'
  · by_cases hs : r' = r ∧ v' = v
    · obtain ⟨rfl, rfl⟩ := hs
      rw [setLeaf_self]; exact he
    · rw [setLeaf_of_ne _ _ hs]; exact h.special r' v' hr' hv' hv''
  · obtain ⟨hr', hv', hrest⟩ := h.user f r' v' hf
    rw [hne hv']; exact ⟨hr', hv', hrest⟩
  · obtain ⟨hr', hv', hrest⟩ := h.slot s r' v' hs
    rw [hne hv']; exact ⟨hr', hv', hrest⟩

end Leaves

/-! ### Slots and the LRU list -/

/-- The number of swap slots. -/
abbrev nslots : ℕ := swapmax / blksPerPg

/-- The bitmap at `bm` has the bits of the slots in use. -/
structure SlotsOk (m : Mem) (bm n : ℕ) (ρ : ℕ → Role) (τ : ℕ → SlotRole) : Prop where
  count : n = nslots
  bitmap : ∀ f, ρ f = .bitmap ↔ f = bm
  bit : ∀ s < nslots, ((m (bm + s / 8)).getLsbD (s % 8) = true ↔ τ s ≠ .free)
  range : ∀ s, τ s ≠ .free → s < nslots

theorem SlotsOk.congr {bm n : ℕ} {τ τ' : ℕ → SlotRole}
    (h : SlotsOk m bm n ρ τ) (hm : AgreeOn m m' bm 4096)
    (hρ : ∀ f, ρ' f = .bitmap ↔ ρ f = .bitmap) (hτ : ∀ s, τ' s = .free ↔ τ s = .free) :
    SlotsOk m' bm n ρ' τ' := by
  refine ⟨h.count, fun f => (hρ f).trans (h.bitmap f), fun s hs => ?_, fun s hs => ?_⟩
  · have hs' : s < 7000 := hs
    rw [hm (bm + s / 8) (by omega) (by omega), h.bit s hs]
    exact not_congr (hτ s).symm
  · exact h.range s fun h0 => hs ((hτ s).2 h0)

/-- The LRU list is a circular list of user pages with their reverse map. -/
structure LruOk (pages : ℕ → Page) (head tail : Option ℕ) (ρ : ℕ → Role) (l : List ℕ) : Prop where
  ring : IsRing (fun i => (pages i).next) (fun i => (pages i).prev) head tail l
  user : ∀ i ∈ l, i < npages ∧ ∃ r v, ρ (pageToPa i) = .user r v ∧ (pages i).pagetable = r ∧
    (pages i).vaddr = v * 4096

theorem LruOk.congr {pages : ℕ → Page} {head tail : Option ℕ} (h : LruOk pages head tail ρ l)
    (hρ : ∀ i ∈ l, ∀ r v, ρ (pageToPa i) = .user r v → ρ' (pageToPa i) = .user r v) :
    LruOk pages head tail ρ' l := by
  refine ⟨h.ring, fun i hi => ?_⟩
  obtain ⟨hlt, r, v, hr, hrest⟩ := h.user i hi
  exact ⟨hlt, r, v, hρ i hi r v hr, hrest⟩

/-! ### The invariant -/

/-- **The state `σ` is organised as the ghost `g` says.** -/
structure Inv (σ : KState) (g : Ghost) : Prop where
  dom : ∀ f, g.role f ≠ .none ↔ Allocatable σ.link f
  free : FreeOk σ.mem σ.freelist g.role
  hist : HistOk σ.trace g.role
  tree : Tree σ.mem g.role
  leaves : Leaves (leaf σ.mem) g.role g.slot
  slots : SlotsOk σ.mem σ.swapBitmap σ.swapSlots g.role g.slot
  lru : LruOk σ.pages σ.lruHead σ.lruTail g.role g.lru

namespace Inv

variable {σ : KState} {g : Ghost} {f r v : ℕ}

theorem isFrame (h : Inv σ g) (hf : g.role f ≠ .none) : IsFrame f := ((h.dom f).1 hf).isFrame

theorem isFrame_of_eq (h : Inv σ g) {w : Role} (hf : g.role f = w) (hw : w ≠ .none) :
    IsFrame f := h.isFrame (by rw [hf]; exact hw)

theorem pteOk (h : Inv σ g) (hr : g.role r = .root) (hv : v < uvpn) :
    PteOk g.role g.slot r v (leaf σ.mem r v) := h.leaves.ok r v hr hv

end Inv

end Xv6Swap
