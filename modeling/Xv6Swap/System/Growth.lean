import Xv6Swap.System.Ownership

/-!
# Growth that fails

When `uvmalloc` runs out of memory on the way, some of the new pages are in memory, some are in the
swap area, and pages of any process may have been evicted for them.

* `Undone` : what is left of such a call;
* `growth_undone` : **a growth that fails is undone**, and `sbrk` reports it;
* `growth_keeps_table` : the page-table pages that were added on the way stay in the table, with all
  entries of the range zero; `freewalk` gives them back with the table.
-/

namespace Xv6Swap

open Set

variable {w : World} {g : Ghost} {f i r v n : ℕ} {σ' : KState}

/-- The world with the memory system in the state `σ'`. -/
def World.withKernel (w : World) (σ' : KState) : World := { w with sys := { w.sys with k := σ' } }

/-- What a frame may be in use for after a call that leaves the pages of `w` and the frames of its
kernel alone: it is free, it holds a page that was there, it is a page-table page, or it is used as
it was. -/
def Use.Accounted (w : World) (f : ℕ) : Use → Prop
  | .free | .mid _ _ | .low _ _ _ => True
  | .page r v => logical w.sys.k r v ≠ none
  | u => w.Uses f u

/-- **Nothing is left of a growth of the table `r` from page `n` on.** -/
structure Undone (w w' : World) (r n : ℕ) : Prop where
  /-- The entries of the range are zero or absent, as before. -/
  range : ∀ v, n ≤ v → v < uvpn → leaf w.sys.k.mem r v = 0 ∧ leaf w'.sys.k.mem r v = 0
  /-- Every page of every table is as before. -/
  pages : ∀ r v, w.IsTable r → v < uvpn → logical w'.sys.k r v = logical w.sys.k r v
  /-- So are the entries of the trapframe, the trampoline and what lies above. -/
  special : ∀ r v, w.IsTable r → uvpn ≤ v → v < 2 ^ 27 →
    leaf w'.sys.k.mem r v = leaf w.sys.k.mem r v
  /-- Every frame is in use in one way, and none for the range. -/
  frames : ∀ f, Allocatable w.sys.k.link f → ∃! u, w'.Uses f u ∧ u.Accounted w f
  /-- A slot that is in use belongs to a page that was there before. -/
  slots : ∀ s < w'.sys.k.swapSlots, (slotInUse w'.sys.k s = true ↔
    ∃! p : ℕ × ℕ, NamesSlot w' p.1 p.2 s ∧ logical w.sys.k p.1 p.2 ≠ none)

namespace World.Acc

variable {g' : Ghost}

/-- A call that keeps every page and every frame of the kernel keeps the accounts. -/
theorem withKernel (h : w.Acc g) (hinv : Inv σ' g') (k : Keeps {} w.sys.k g σ' g') :
    (w.withKernel σ').Acc g' :=
  Accounts.keep h hinv k

/-- A use of a frame after the call is accounted for. -/
theorem accounted (h' : (w.withKernel σ').Acc g') (k : Keeps {} w.sys.k g σ' g') {u : Use}
    (hu : (w.withKernel σ').Uses f u) : u.Accounted w f := by
  cases u with
  | free | mid | low => trivial
  | page r v =>
    obtain ⟨hr, hv, hV, -⟩ := hu
    have hr : g.role r = .root := (k.root r (notMem_empty _)).1 (h'.isTable.1 hr)
    rw [Use.Accounted, ← k.page r v hr (notMem_empty _) hv (notMem_empty _)]
    exact Option.ne_none_iff_exists'.2 ⟨_, pageOf_valid hV⟩
  | root o => cases o <;> exact hu
  | trapframe | held => exact hu
  | bitmap => exact (k.bitmap.symm.trans hu :)

/-- A slot after the call belongs to a page that was there. -/
theorem slot_accounted (h' : (w.withKernel σ').Acc g') (k : Keeps {} w.sys.k g σ' g') {s : ℕ}
    (hn : NamesSlot (w.withKernel σ') r v s) : logical w.sys.k r v ≠ none := by
  obtain ⟨hr, hv, -⟩ := h'.inv.leaves.slot s r v (h'.namesSlot_iff.1 hn)
  have hr' := (k.root r (notMem_empty _)).1 hr
  rw [← k.page r v hr' (notMem_empty _) hv (notMem_empty _)]
  obtain ⟨-, -, hV, hS, -⟩ := hn
  exact Option.ne_none_iff_exists'.2 ⟨_, pageOf_swapped hV hS⟩

/-- **A call that keeps every page leaves nothing behind** above the pages of the table. -/
theorem undone (h : w.Acc g) (hf : w.flight = none) (hinv : Inv σ' g')
    (k : Keeps {} w.sys.k g σ' g') (hr : w.IsTable r)
    (hz : ∀ v, n ≤ v → v < uvpn → leaf w.sys.k.mem r v = 0) : Undone w (w.withKernel σ') r n := by
  have h' := h.withKernel hinv k
  have hD : ∀ {x : ℕ}, x ∉ (∅ : Set ℕ) := notMem_empty _
  have hP : ∀ {x : ℕ × ℕ}, x ∉ (∅ : Set (ℕ × ℕ)) := notMem_empty _
  refine ⟨fun v hn hv => ⟨hz v hn hv, ?_⟩, fun r v hr hv => ?_, fun r v hr hv hv' => ?_,
    fun f hf => ?_, fun s hs => (h'.slots hf hs).trans ?_⟩
  · exact k.leaf_zero h.inv hinv (h.isTable.1 hr) hD hP (lt_trans hv (by decide)) (hz v hn hv)
  · exact k.page r v (h.isTable.1 hr) hD hv hP
  · exact k.special r v (h.isTable.1 hr) hD hv hv' hP
  · obtain ⟨u, hu, hone⟩ := h'.frames (f := f) (by rw [← k.link] at hf; exact hf)
    exact ⟨u, ⟨hu, h'.accounted k hu⟩, fun u' hu' => hone u' hu'.1⟩
  · constructor
    · rintro ⟨p, hp, hone⟩
      exact ⟨p, ⟨hp, h'.slot_accounted k hp⟩, fun p' hp' => hone p' hp'.1⟩
    · rintro ⟨p, ⟨hp, -⟩, hone⟩
      exact ⟨p, hp, fun p' hp' => hone p' ⟨hp', h'.slot_accounted k hp'⟩⟩

/-- The table of a live process has the shape of its size. -/
theorem shape_live (h : w.Acc g) (hl : w.Live i) :
    Shape w.sys.k (w.sys.proc i).pagetable (npg (w.sys.proc i).sz) :=
  (h.procs i hl.1).shape (Op.live_frames h hl).2

theorem uvmalloc_live (h : w.Acc g) (hl : w.Live i) (newsz : ℕ) :
    Ensures (uvmalloc (w.sys.proc i).pagetable (w.sys.proc i).sz newsz pteW w.sys.k)
      (fun ret σ' => ∃ g', Inv σ' g' ∧
        ((ret = (w.sys.proc i).sz ∧ newsz < (w.sys.proc i).sz ∨ ret = 0) ∧
            Keeps {} w.sys.k g σ' g' ∨
          ret = newsz ∧ npg newsz ≤ npg (w.sys.proc i).sz + maxPages ∧
            Keeps
              { pages := pageRange (w.sys.proc i).pagetable (npg (w.sys.proc i).sz) (npg newsz) }
              w.sys.k g σ' g')) fun _ => False := by
  have hr := h.root_pagetable hl.1 (Op.live_frames h hl).2
  have hs := h.shape_live hl
  refine (uvmalloc_spec h.inv hr _ newsz ((hs.le_maxPages h.inv hr).trans (by decide))
    (by rw [IsFlags]; decide) (by decide) fun v => hs.leaf_eq_zero h.inv hr).imp ?_
  rintro ret σ' ⟨g', hinv, -, hk | ⟨hret, -, hmax, k, -⟩⟩
  · exact ⟨g', hinv, .inl hk⟩
  · exact ⟨g', hinv, .inr ⟨hret, hmax, k⟩⟩

end World.Acc

/-- When `uvmalloc` has no memory, `sbrk` returns -1 and leaves the size of the process alone. -/
theorem sysSbrk_failed {s : Sys} {a0 : Word} (hn : 0 < argint a0)
    (hrun : uvmalloc (s.proc i).pagetable (s.proc i).sz (addInt (s.proc i).sz (argint a0))
      pteW s.k =
      .ok (0, σ')) : sysSbrk i a0 s = .ok (-1, { s with k := σ' }) := by
  have hcall : P.call (uvmalloc (s.proc i).pagetable (s.proc i).sz
      (addInt (s.proc i).sz (argint a0)) pteW) s = .ok (0, { s with k := σ' }) := by
    simp only [P.call, Run.zoom, hrun]
  have hgrow : growproc i (argint a0) s = .ok (-1, { s with k := σ' }) := by
    rw [growproc, P.bind_get, Run.ite_apply, if_pos hn, Run.bind_ok hcall]
    rfl
  rw [sysSbrk, P.bind_get, Run.bind_ok hgrow]
  rfl

/-- **A growth that fails is undone.**  In every reachable world, if `uvmalloc` returns 0 when it is
to grow a process from its size to any other, then nothing is left of the call: the entries of the
range are zero or absent as before, every page of every process is the same, and no frame holds a
page of the range and no slot is in use for it.  If it was `sbrk` that called it, then it returns
-1, and the size of the process is the same. -/
theorem growth_undone (hw : system.Reachable w) (hl : w.Live i) (newsz : ℕ)
    (hrun : uvmalloc (w.sys.proc i).pagetable (w.sys.proc i).sz newsz pteW w.sys.k = .ok (0, σ')) :
    Undone w (w.withKernel σ') (w.sys.proc i).pagetable (npg (w.sys.proc i).sz) ∧
      ∀ a0, 0 < argint a0 → newsz = addInt (w.sys.proc i).sz (argint a0) →
        sysSbrk i a0 w.sys = .ok (-1, (w.withKernel σ').sys) := by
  obtain ⟨⟨g, h⟩, hf⟩ := reachable_sound hw
  have hr := h.root_pagetable hl.1 (Op.live_frames h hl).2
  refine ⟨?_, fun a0 hn he => sysSbrk_failed hn (he ▸ hrun)⟩
  obtain ⟨g', hinv, hret⟩ := (h.uvmalloc_live hl newsz).of_ok hrun
  have k : Keeps {} w.sys.k g σ' g' := by
    obtain ⟨-, k⟩ | ⟨hret, -, k⟩ := hret
    · exact k
    · -- a process of size 0 that is to grow to 0
      refine k.shrinkPages fun r v hx => ?_
      have := (mem_pageRange.1 hx).2
      simp only [npg] at this
      omega
  exact h.undone hf hinv k (h.isTable.2 hr) fun v => (h.shape_live hl).leaf_eq_zero h.inv hr

/-- A growth beyond all memory and swap space fails, after it has allocated pages. -/
theorem growth_undone_huge : ∃ w σ', system.Reachable w ∧ w.Live 0 ∧ w.sys.k.freelist ≠ 0 ∧
    uvmalloc (w.sys.proc 0).pagetable (w.sys.proc 0).sz (2 ^ 30) pteW w.sys.k = .ok (0, σ') ∧
    Undone w (w.withKernel σ') (w.sys.proc 0).pagetable (npg (w.sys.proc 0).sz) := by
  obtain ⟨w, hw, ht⟩ := reachable_test (n := 13) (by decide) (by decide) [.userinit]
    (t := fun w => decide (w.Live 0 ∧ w.sys.k.freelist ≠ 0)) (by decide +kernel)
  obtain ⟨hl, hfree⟩ := of_decide_eq_true ht
  obtain ⟨⟨g, h⟩, -⟩ := reachable_sound hw
  obtain ⟨ret, σ', hrun, g', -, hret⟩ := (h.uvmalloc_live hl (2 ^ 30)).exists_ok
  have hmax : maxPages = 39768 := rfl
  have hsz := (h.shape_live hl).le_maxPages h.inv (h.root_pagetable hl.1 (Op.live_frames h hl).2)
  simp only [npg] at hsz hret
  obtain rfl : ret = 0 := by
    obtain ⟨⟨-, hlt⟩ | h0, -⟩ | ⟨-, hle, -⟩ := hret
    · omega
    · exact h0
    · omega
  exact ⟨w, σ', hw, hl, hfree, hrun, (growth_undone hw hl _ hrun).1⟩

/-- The frames that a call has taken are free again, also those of page-table pages. -/
def Released (w w' : World) : Prop := ∀ f r i, w.Uses f .free → ¬ w'.Uses f (.mid r i)

/-- `uvmalloc` fails for the first page of the process 1, and the first entry of its page table,
which was zero, points to a frame that was free. -/
def keepsTable (w : World) : Bool :=
  let p := w.sys.proc 1
  let l := chainList w.sys.k.mem 64 w.sys.k.freelist
  match uvmalloc p.pagetable p.sz 4096 pteW w.sys.k with
  | .ok (0, σ') => decide (w.Live 1 ∧ l.length < 64 ∧
    has (σ'.mem.load64 (p.pagetable + 8 * 0)) pteV ∧
      l.count (pte2pa (σ'.mem.load64 (p.pagetable + 8 * 0))) = 1)
  | _ => false

/-- **A page-table page stays behind.**  The first process has given its only page back and forks,
so that the table of the child has no page-table pages for its first page.  The page and the first
of them can be allocated, the second cannot. -/
theorem growth_keeps_table : ∃ w σ', system.Reachable w ∧ w.Live 1 ∧
    uvmalloc (w.sys.proc 1).pagetable (w.sys.proc 1).sz 4096 pteW w.sys.k = .ok (0, σ') ∧
    ¬ Released w (w.withKernel σ') := by
  obtain ⟨w, hw, ht⟩ := reachable_test (n := 13) (by decide) (by decide)
    [.userinit, .sbrk 0 (-4096), .fork 0] (t := keepsTable) (by decide +kernel)
  unfold keepsTable at ht
  dsimp only at ht
  split at ht
  case h_2 => cases ht
  case h_1 σ' hrun =>
    obtain ⟨hl, hlen, hV, hcount⟩ := of_decide_eq_true ht
    refine ⟨w, σ', hw, hl, hrun, fun h =>
      h _ (w.sys.proc 1).pagetable 0 ⟨_, chain_chainList hlen, hcount⟩ ?_⟩
    obtain ⟨⟨g, hacc⟩, -⟩ := reachable_sound hw
    have hp := (Op.live_frames hacc hl).2
    exact ⟨.inr ⟨1, hl.1, hp, rfl⟩, by decide, hV, rfl⟩

end Xv6Swap
