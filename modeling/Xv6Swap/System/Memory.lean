import Xv6Swap.System.Ops

/-!
# What swapping does to the contents of memory

* `swap_transparent` : no sequence of `kalloc`, `swapout` and `swapin` calls changes a logical page;
* `uvmcopy_exact_iff` : `uvmcopy` copies the parent's memory exactly if and only if no page of the
  parent is the victim of the eviction made for its own copy;
* `uvmcopy_selfEvict` : that does happen.
-/

namespace Xv6Swap

open List

variable {w : World} {σ : KState} {g : Ghost} {r : ℕ}

/-! ### Transparency -/

/-- A call of the swap system. -/
inductive SwapCall where
  | kalloc
  | swapout
  | swapin (pagetable va : ℕ)

namespace SwapCall

/-- The page table a call is made for is one. -/
def Ok : SwapCall → World → Prop
  | swapin r _, w => w.IsTable r
  | _, _ => True

/-- A call, its result not used. -/
def run : SwapCall → K Unit
  | kalloc => do let _ ← Xv6Swap.kalloc
  | swapout => do let _ ← Xv6Swap.swapout
  | swapin r va => do let _ ← Xv6Swap.swapin r va

/-- What a sequence of calls keeps: the page tables and their logical pages. -/
def Same (σ : KState) (g : Ghost) (σ' : KState) : Prop :=
  ∃ g', Inv σ' g' ∧ ∀ r, g.role r = .root → g'.role r = .root ∧
    ∀ v < uvpn, logical σ' r v = logical σ r v

theorem Same.of_keeps {σ' : KState} {g' : Ghost} (h : Inv σ' g') (k : Keeps {} σ g σ' g') :
    Same σ g σ' :=
  ⟨g', h, fun r hr => ⟨(k.root r (Set.notMem_empty _)).2 hr, fun v hv =>
    k.page r v hr (Set.notMem_empty _) hv (Set.notMem_empty _)⟩⟩

/-- `swapin` beyond the address space is caught by `walk`. -/
theorem swapin_of_le {va : ℕ} (hva : maxva ≤ va) :
    Xv6Swap.swapin r va σ = .error (.panic .walk) := by
  have hround : maxva ≤ pgrounddown va := by
    simp only [pgrounddown, maxva, pgsize] at *; omega
  rw [Xv6Swap.swapin, Run.bind_error (e := .panic .walk)]
  rw [walk, walkWith, if_pos hround]
  rfl

/-- **One call.** -/
theorem run_spec (h : Inv σ g) (c : SwapCall) (hc : ∀ r va, c = swapin r va → g.role r = .root) :
    Ensures (c.run σ) (fun _ => Same σ g) fun e => e = .panic .walk ∧
      ∃ r va, c = swapin r va ∧ maxva ≤ va := by
  cases c with
  | kalloc =>
    refine ((kalloc_spec h).weaken).bind ?_
    rintro (_ | f) σ' ha
    · obtain ⟨g', h', -, -, k⟩ := ha
      exact .of_keeps h' k
    · have hold := ha.not_table rfl
      obtain ⟨g', h', -, -, -, k, -⟩ := ha
      refine ⟨g', h', fun r hr => ?_⟩
      have hrf : r ∉ ({f} : Set ℕ) := by
        rintro rfl
        rw [hr] at hold; cases hold.1
      exact ⟨(k.root r hrf).2 hr, fun v hv => k.page r v hr hrf hv (Set.notMem_empty _)⟩
  | swapout =>
    refine ((Op.swapout_keeps h).weaken).bind ?_
    rintro _ σ' ⟨g', h', k⟩
    exact .of_keeps h' k
  | swapin r va =>
    rcases Nat.lt_or_ge va maxva with hva | hva
    · refine ((swapin_spec h (hc r va rfl) hva).weaken).bind ?_
      rintro _ σ' ⟨g', h', k, -⟩
      exact .of_keeps h' k
    · rw [run, Run.bind_error (swapin_of_le hva)]
      exact ⟨rfl, r, va, rfl, hva⟩

/-- **A sequence of calls**, by induction on the sequence. -/
theorem runAll_spec : ∀ (calls : List SwapCall) (σ : KState) (g : Ghost), Inv σ g →
    (∀ r va, swapin r va ∈ calls → g.role r = .root) →
    Ensures (Run.each run calls σ) (fun _ => Same σ g) fun e => e = .panic .walk ∧
      ∃ r va, swapin r va ∈ calls ∧ maxva ≤ va := by
  intro calls
  induction calls with
  | nil => intro σ g h _; rw [Run.each_nil]; exact .of_keeps h (Keeps.refl _ _ _)
  | cons c calls ih =>
    intro σ g h hroot
    rw [Run.each_cons]
    refine ((run_spec h c fun r va hc => hroot r va (hc ▸ mem_cons_self)).mono
      (fun _ _ hq => hq) ?_).bind ?_
    · rintro e ⟨he, r, va, rfl, hva⟩
      exact ⟨he, r, va, mem_cons_self, hva⟩
    · rintro - σ₁ ⟨g₁, h1, hsame⟩
      refine (ih σ₁ g₁ h1 fun r va hc => (hsame r (hroot r va (mem_cons_of_mem _ hc))).1).mono ?_ ?_
      · rintro - σ₂ ⟨g₂, h2, hsame'⟩
        refine ⟨g₂, h2, fun r hr => ?_⟩
        obtain ⟨hr1, hp1⟩ := hsame r hr
        obtain ⟨hr2, hp2⟩ := hsame' r hr1
        exact ⟨hr2, fun v hv => (hp2 v hv).trans (hp1 v hv)⟩
      · rintro e ⟨he, r, va, hc, hva⟩
        exact ⟨he, r, va, mem_cons_of_mem _ hc, hva⟩

end SwapCall

/-- **Swap transparency.**  In every reachable world, after any sequence of `kalloc`, `swapout` and
`swapin` calls the logical user pages of every page table are what they were.  The calls return
whatever victims they choose and whether or not they find memory; only a `swapin` of an address
beyond the address space panics. -/
theorem swap_transparent (hw : system.Reachable w) (calls : List SwapCall)
    (hc : ∀ c ∈ calls, c.Ok w) :
    Ensures (Run.each SwapCall.run calls w.sys.k) (fun _ σ' => ∀ r, w.IsTable r →
      ∀ v, v < uvpn → logical σ' r v = logical w.sys.k r v) fun e => e = .panic .walk ∧
      ∃ r va, .swapin r va ∈ calls ∧ maxva ≤ va := by
  obtain ⟨⟨g, h⟩, -⟩ := reachable_sound hw
  refine (SwapCall.runAll_spec calls _ g h.inv fun r va hm => h.isTable.1 (hc _ hm)).imp ?_
  rintro - σ' ⟨g', -, hsame⟩ r hr v hv
  exact (hsame r (h.isTable.1 hr)).2 v hv

/-- A process of two pages on the small machine. -/
theorem swap_transparent_small : ∃ w r, system.Reachable w ∧ w.IsTable r ∧
    Ensures (Run.each SwapCall.run [.swapout, .kalloc, .swapin r 4096] w.sys.k) (fun _ σ' => ∀ r,
      w.IsTable r → ∀ v, v < uvpn → logical σ' r v = logical w.sys.k r v) fun e =>
        e = .panic .walk ∧ ∃ r' va, .swapin r' va ∈ [.swapout, .kalloc, SwapCall.swapin r 4096] ∧
        maxva ≤ va := by
  obtain ⟨w, hw, ht⟩ := reachable_test (n := 13) (by decide) (by decide)
    [.userinit, .sbrk 0 4096#64] (t := fun w => w.isTable (w.sys.proc 0).pagetable)
    (by decide +kernel)
  have ht := World.IsTable.of_check ht
  refine ⟨w, _, hw, ht, swap_transparent hw _ fun c hc => ?_⟩
  simp only [mem_cons, not_mem_nil, or_false] at hc
  rcases hc with rfl | rfl | rfl
  · trivial
  · trivial
  · exact ht

/-! ### Copying the memory of a process -/

/-- The root of a table has no entries. -/
def emptyRoot (m : Mem) (r : ℕ) : Bool := (range 512).all fun k => m.load64 (r + 8 * k) = 0

theorem unmapped_of_emptyRoot (h : emptyRoot w.sys.k.mem r = true) (a b : ℕ) :
    w.Unmapped r a b := by
  intro v _ _
  have hpx : px 2 (v * 4096) < 512 := px_lt ..
  have h0 : w.sys.k.mem.load64 (r + 8 * px 2 (v * 4096)) = 0 := by
    simpa using all_eq_true.1 h _ (mem_range.2 hpx)
  have hleaf : leaf w.sys.k.mem r v = 0 := by rw [leaf, entry, h0, if_neg (by simp)]
  rw [logical, hleaf]
  exact pageOf_eq_none_iff.2 ⟨has_zero _, has_zero _⟩

/-- **`uvmcopy` copies exactly if and only if no page is evicted for its own copy.**  When it
returns 0 in a reachable world, the pages of the child are those of the parent before the call, and
the parent's are unchanged, exactly if the second-chance order of the pages, the accessed bits and
the number of free frames before the call never make a page the victim of the allocation for its own
copy, unless that page holds only 5s. -/
theorem uvmcopy_exact_iff (hw : system.Reachable w) {old new sz : ℕ} (ho : w.IsTable old)
    (hn : w.IsTable new) (hz : w.Unmapped new 0 uvpn) {σ' : KState}
    (hret : uvmcopy old new sz w.sys.k = .ok (0, σ')) :
    ((∀ v, v < npg sz → logical σ' new v = logical w.sys.k old v) ∧
        ∀ v, v < uvpn → logical σ' old v = logical w.sys.k old v) ↔
      CopiesFaithfully w.sys.k old new sz := by
  obtain ⟨⟨g, h⟩, -⟩ := reachable_sound hw
  obtain ⟨g', -, ⟨h1, -⟩ | ⟨-, hmax, k, hperm, hiff⟩⟩ :=
    (uvmcopy_spec h.inv (h.isTable.1 ho) (h.isTable.1 hn) sz fun v hv =>
      (h.inv.leaf_eq_zero_iff (h.isTable.1 hn) hv).2 (hz v (Nat.zero_le v) hv)).of_ok hret
  · cases h1
  rw [← hiff]
  refine and_iff_left_of_imp fun _ v hv => k.page old v (h.isTable.1 ho) (Set.notMem_empty _) hv ?_
  -- The parent is not the child: its pages below `sz` are mapped.
  intro hm
  obtain ⟨rfl, -, hlt⟩ := mem_pageRange.1 hm
  exact (hperm v hlt).1 (hz v (Nat.zero_le v) hv)

/-- A test of the first process, the only other page table and the outcome of copying two pages of
the one to the other. -/
def copyTest (q : ℕ → ℕ → KState → Bool) (w : World) : Bool :=
  match w.spaces with
  | [new] =>
    match uvmcopy (w.sys.proc 0).pagetable new 8192 w.sys.k with
    | .ok (0, σ') => w.isTable (w.sys.proc 0).pagetable && emptyRoot w.sys.k.mem new &&
        q (w.sys.proc 0).pagetable new σ'
    | _ => false
  | _ => false

theorem copyTest_true {q : ℕ → ℕ → KState → Bool} (h : copyTest q w = true) :
    ∃ old new σ', w.IsTable old ∧ w.IsTable new ∧ w.Unmapped new 0 uvpn ∧
      uvmcopy old new 8192 w.sys.k = .ok (0, σ') ∧ q old new σ' = true := by
  unfold copyTest at h
  split at h
  case h_2 => cases h
  case h_1 new hnew =>
    split at h
    case h_2 => cases h
    case h_1 σ' hret =>
      simp only [Bool.and_eq_true] at h
      obtain ⟨⟨h1, h2⟩, hq⟩ := h
      exact ⟨_, new, σ', .of_check h1, .inl (by simp [hnew]), unmapped_of_emptyRoot h2 _ _,
        hret, hq⟩

/-- A process of two pages is copied although the free list becomes empty on the way. -/
theorem uvmcopy_exact_small : ∃ w old new σ', system.Reachable w ∧ w.IsTable old ∧
    w.IsTable new ∧ uvmcopy old new 8192 w.sys.k = .ok (0, σ') ∧ σ'.freelist = 0 ∧
    (∀ v, v < npg 8192 → logical σ' new v = logical w.sys.k old v) ∧
      ∀ v, v < uvpn → logical σ' old v = logical w.sys.k old v := by
  obtain ⟨w, hw, ht⟩ := reachable_test (n := 14) (by decide) (by decide)
    [.userinit, .sbrk 0 4096#64, .uvmcreate] (t := fun w => copyTest (fun old new σ' =>
      σ'.freelist = 0 ∧ CopiesFaithfully w.sys.k old new 8192) w) (by decide +kernel)
  obtain ⟨old, new, σ', ho, hn, hz, hret, hq⟩ := copyTest_true ht
  obtain ⟨h0, hsafe⟩ := of_decide_eq_true hq
  exact ⟨w, old, new, σ', hw, ho, hn, hret, h0, (uvmcopy_exact_iff hw ho hn hz hret).2 hsafe⟩

/-- **A page evicted for its own copy is lost.**  On a machine of 13 frames a process of two pages
is copied.  The free list is empty when the copy of page 1 is to be allocated, and page 1 itself is
evicted: the child gets 5s where the parent has zeros. -/
theorem uvmcopy_selfEvict : ∃ w old new σ', system.Reachable w ∧ w.IsTable old ∧ w.IsTable new ∧
    w.Unmapped new 0 uvpn ∧ uvmcopy old new 8192 w.sys.k = .ok (0, σ') ∧
    ¬ ∀ v, v < npg 8192 → logical σ' new v = logical w.sys.k old v := by
  let first (p : Option LPage) : Option Byte := p.map fun p => p.bytes ⟨0, by decide⟩
  obtain ⟨w, hw, ht⟩ := reachable_test (n := 13) (by decide) (by decide)
    [.userinit, .sbrk 0 4096#64, .uvmcreate]
    (t := fun w => copyTest (fun old new σ' => first (logical σ' new 1) = some 5 ∧
      first (logical w.sys.k old 1) = some 0) w) (by decide +kernel)
  obtain ⟨old, new, σ', ho, hn, hz, hret, hq⟩ := copyTest_true ht
  obtain ⟨h5, h0⟩ := of_decide_eq_true hq
  refine ⟨w, old, new, σ', hw, ho, hn, hz, hret, fun hall => ?_⟩
  rw [hall 1 (by decide), h0] at h5
  exact absurd h5 (by decide)

end Xv6Swap
