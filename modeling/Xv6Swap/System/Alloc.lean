import Xv6Swap.System.Ownership
import Xv6Swap.Spec.Clock

/-!
# Replacement and allocation

* `second_chance` : the victim that `swapout` chooses, and the LRU list afterwards;
* `swapout_fails_iff` : `swapout` fails exactly if there is no page on the LRU list or no free slot;
* `kalloc_exhausted` : **in every reachable state `kalloc` fails exactly if memory is exhausted**,
  and otherwise returns a frame that nothing else uses.
-/

namespace Xv6Swap

open Run

variable {σ σ' : KState} {g : Ghost} {w : World} {l : List ℕ} {f : ℕ}

/-- **Second-chance replacement.**  In every state with the invariant of the LRU list, for the
non-empty list `l` from `lru_head` on:

* the search ends after at most one examination more than there are pages, at the first page whose
  accessed bit is clear, or at the first page of all if every bit is set;
* it clears the accessed bits of the pages before that one, or of all pages, and writes nothing
  else;
* once the victim is unlinked, the list goes on behind it, followed by the pages before it;
* if no slot is free, `swapout` returns -1 with the victim at the end of the list, mapped as before,
  and nothing is freed. -/
theorem second_chance (h : ClockList σ l) (hne : l ≠ []) :
    ∃ k victim spared head σ₁ σ₂, Chosen σ l k victim spared ∧
      σ.lruHead = some head ∧ clock (l.length + 1) head σ = .ok (victim, σ₁) ∧
      BitsCleared σ spared σ₁ ∧ swapoutSelect σ = .ok (some victim, σ₂) ∧ σ₂.mem = σ₁.mem ∧
      LruRing σ₂.pages σ₂.lruHead σ₂.lruTail (l.drop (k + 1) ++ l.take k) ∧
      (SwapFull σ → BitmapApart σ l → ∃ σ₃, swapout σ = .ok (-1, σ₃) ∧
        LruRing σ₃.pages σ₃.lruHead σ₃.lruTail (l.drop (k + 1) ++ l.take k ++ [victim]) ∧
        σ₃.mem = σ₁.mem ∧ σ₃.freelist = σ.freelist ∧ σ₃.trace = σ.trace ∧
        ∃ a, pteAddr σ₃ victim = some a ∧ has (σ₃.mem.load64 a) pteV = true ∧
          pte2pa (σ₃.mem.load64 a) = pageToPa victim) := by
  obtain ⟨head, hhead⟩ : ∃ head, σ.lruHead = some head := by
    rw [h.ring.head_eq]
    exact ⟨_, List.head?_eq_some_head hne⟩
  obtain ⟨k, v, spared, σ₁, hk, hrun, ⟨m', head', tail', hσ₁⟩, hs, h₁⟩ := clock_victim h hhead
  obtain ⟨pages₂, head₂, tail₂, hsel, hring₂, hmeta₂⟩ := swapoutSelect_victim h hhead hrun h₁
  refine ⟨k, v, spared, head, σ₁, _, hk, hhead, hrun, hs, hsel, rfl, hring₂, ?_⟩
  intro hfull hapart
  have hfull₁ : SwapFull σ₁ := hfull.cleared hs hk.subset hapart (by rw [hσ₁]) (by rw [hσ₁])
  have hv : v ∉ l.drop (k + 1) ++ l.take k := (List.nodup_cons.1 h₁.ring.nodup).1
  obtain ⟨pages₃, head₃, tail₃, hout, hring₃, hmeta₃⟩ := swapout_full hsel hring₂ hv hfull₁
  obtain ⟨a, ha, hV, hpa⟩ := h₁.mapped v List.mem_cons_self
  refine ⟨_, hout, hring₃, rfl, by rw [hσ₁], by rw [hσ₁], a, ?_, hV, hpa⟩
  rw [← ha, pteAddr, pteAddr, (hmeta₃ v).1, (hmeta₃ v).2, (hmeta₂ v).1, (hmeta₂ v).2]

/-- The first process has two pages in a swap area of two slots and has loaded from the first page
of the list: the search spares this page, and `swapout` fails. -/
theorem second_chance_full : ∃ w l k victim spared σ₃, system.Reachable w ∧
    w.sys.k.lruHead ≠ w.sys.k.lruTail ∧ SwapFull { w.sys.k with swapSlots := 2 } ∧
    Chosen { w.sys.k with swapSlots := 2 } l k victim spared ∧ spared ≠ [] ∧
    swapout { w.sys.k with swapSlots := 2 } = .ok (-1, σ₃) ∧
    LruRing σ₃.pages σ₃.lruHead σ₃.lruTail (l.drop (k + 1) ++ l.take k ++ [victim]) := by
  obtain ⟨w, hw, ht⟩ := reachable_test (n := 16) (by decide) (by decide)
    [.userinit, .sbrk 0 20480#64, .swapout, .swapout, .load 2281689088 12288]
    (t := fun w => decide (w.sys.k.lruHead ≠ w.sys.k.lruTail ∧ w.sys.k.lruHead.any (used w.sys.k) ∧
      2 ≤ w.sys.k.swapSlots ∧ ∀ s ∈ List.range 2, slotByte w.sys.k s &&& (1#8 <<< (s % 8)) ≠ 0))
    (by decide +kernel)
  obtain ⟨hpages, hused, hslots, hfull⟩ := of_decide_eq_true ht
  replace hfull : SwapFull { w.sys.k with swapSlots := 2 } := fun s hs =>
    hfull s (List.mem_range.2 hs)
  obtain ⟨⟨g, h⟩, -⟩ := reachable_sound hw
  obtain ⟨hring, hlt, hal, hrange, hmapped⟩ := h.inv.clockList
  have hne : g.lru ≠ [] := fun h0 => by
    rw [hring.head_eq_none_iff.2 h0] at hused
    cases hused
  obtain ⟨k, v, spared, -, σ₁, -, hk, -, -, -, -, -, -, hout⟩ := second_chance
    (σ := { w.sys.k with swapSlots := 2 }) ⟨hring, hlt, hal, hrange, hmapped⟩ hne
  obtain ⟨σ₃, hrun, hring₃, -⟩ := hout hfull fun i hi a ha s hs =>
    h.inv.bitmapApart i hi a ha s (lt_of_lt_of_le hs hslots)
  refine ⟨w, g.lru, k, v, spared, σ₃, hw, hpages, hfull, hk, ?_, hrun, hring₃⟩
  rcases hk.first with ⟨hv, -, hs⟩ | ⟨-, -, hs⟩
  · rintro rfl
    obtain rfl : k = 0 := (List.take_eq_nil_iff.1 hs.symm).resolve_right hne
    rw [hring.head_eq, List.head?_eq_getElem?, hk.index] at hused
    exact absurd hused (by rw [Option.any_some]; exact hv ▸ Bool.false_ne_true)
  · rwa [hs]

/-! ### When swapout fails -/

/-- **`swapout` fails exactly if there is nothing to evict or nowhere to put it.** -/
theorem swapout_fails_iff (h : Inv σ g) :
    (∃ σ', swapout σ = .ok (-1, σ')) ↔ σ.lruHead = none ∨ SwapFull σ := by
  constructor
  · rintro ⟨σ', hrun⟩
    obtain ⟨o, σ₁, hsel, hσ₁⟩ := (swapoutSelect_spec h).exists_ok
    rw [swapout, bind_ok hsel] at hrun
    cases o with
    | none => exact .inl (h.lru.ring.head_eq_none_iff.2 hσ₁.2)
    | some i =>
      obtain ⟨-, r, v, l', -, h1, -⟩ := hσ₁
      obtain ⟨o, σ₂, hslot, hσ₂⟩ := (allocSwapSlot_spec h1).exists_ok
      cases o with
      | none => exact .inr (h.swapFull_iff.2 hσ₂.2)
      | some s =>
        dsimp only at hrun
        rw [swapoutSlot, bind_assoc_apply, bind_ok hslot, bind_pure_apply] at hrun
        obtain ⟨-, σ₃, -, hrun⟩ := bind_eq_ok hrun
        obtain ⟨-, σ₄, -, hrun⟩ := bind_eq_ok hrun
        cases hrun
  · have hempty : σ.lruHead = none → ∃ σ', swapout σ = .ok (-1, σ') := fun hnone =>
      ⟨σ, by rw [swapout, swapoutSelect, bind_assoc_apply, bind_read, hnone]; rfl⟩
    rintro (hnone | hfull)
    · exact hempty hnone
    · cases hc : σ.lruHead with
      | none => exact hempty hc
      | some c => exact h.clockList.swapout_full hc hfull h.bitmapApart

/-! ### When kalloc fails -/

/-- `kalloc` gives up exactly if the free list is empty and `swapout` fails. -/
theorem kalloc_none_iff (h : Inv σ g) : (∃ σ', kalloc σ = .ok (none, σ')) ↔
    σ.freelist = 0 ∧ ∃ σ', swapout σ = .ok (-1, σ') := by
  rw [kalloc, show npages = 32766 + 1 + 1 from rfl]
  by_cases h0 : σ.freelist = 0
  · rw [kallocLoop, bind_read, if_neg (by rw [h0]; simp)]
    obtain ⟨ret, σ₁, hout, hev⟩ := (swapout_spec h).exists_ok
    rw [bind_ok hout, hout]
    rcases hev with ⟨rfl, -⟩ | ⟨rfl, i, r, v, s, l', hrole, -, hfl, h1, -⟩
    · rw [if_pos (by decide)]
      exact iff_of_true ⟨_, rfl⟩ ⟨h0, _, rfl⟩
    · rw [if_neg (by decide)]
      have hne : σ₁.freelist ≠ 0 := by
        rw [hfl]
        exact h.ne_zero_of_role (by rw [hrole]; simp)
      obtain ⟨o, σ₂, hpop, rfl, -⟩ := (kallocLoop_pop h1 hne 32766).exists_ok
      rw [hpop]
      refine iff_of_false ?_ ?_
      · rintro ⟨_, he⟩
        cases he
      · rintro ⟨-, _, he⟩
        cases he
  · obtain ⟨o, σ₂, hpop, rfl, -⟩ := (kallocLoop_pop h h0 (32766 + 1)).exists_ok
    rw [hpop]
    refine iff_of_false ?_ fun hx => h0 hx.1
    rintro ⟨_, he⟩
    cases he

/-- The page was in memory and has been written to the swap area. -/
def EvictedPage (w : World) (σ' : KState) (r v : ℕ) : Prop :=
  w.IsTable r ∧ v < uvpn ∧ has (leaf w.sys.k.mem r v) pteV = true ∧
    has (leaf σ'.mem r v) pteV = false

/-- A frame that nothing else uses. -/
structure Unused (w : World) (σ' : KState) (f : ℕ) : Prop where
  allocatable : Allocatable w.sys.k.link f
  free : ∃ l, Chain σ'.mem σ'.freelist l ∧ f ∉ l
  lru : ∃ l, LruRing σ'.pages σ'.lruHead σ'.lruTail l ∧ pageIdx f ∉ l
  mapped : ∀ r v, w.IsTable r → v < uvpn →
    ¬ (has (leaf σ'.mem r v) pteV = true ∧ pte2pa (leaf σ'.mem r v) = f)

/-- **`kalloc` fails only when memory is exhausted.**  In every reachable state it terminates, and
it returns 0 exactly if the free list is empty and the LRU list is empty or every swap slot is in
use. Otherwise it returns an allocatable frame that is neither on the free list nor on the LRU list
nor mapped by an entry of a user page, and it has evicted at most one page. -/
theorem kalloc_exhausted (hw : system.Reachable w) : ∃ o σ', kalloc w.sys.k = .ok (o, σ') ∧
    (o = none ↔ w.sys.k.freelist = 0 ∧ (w.sys.k.lruHead = none ∨ SwapFull w.sys.k)) ∧
    ∀ f, o = some f → Unused w σ' f ∧
      ∀ r v r' v', EvictedPage w σ' r v → EvictedPage w σ' r' v' → r = r' ∧ v = v' := by
  obtain ⟨⟨g, h⟩, -⟩ := reachable_sound hw
  obtain ⟨o, σ', hrun, g', h', ho⟩ := (kalloc_spec h.inv).exists_ok
  refine ⟨o, σ', hrun, ?_, ?_⟩
  · rw [← swapout_fails_iff h.inv, ← kalloc_none_iff h.inv, hrun]
    exact ⟨fun ho => ⟨σ', by rw [ho]⟩, fun ⟨_, he⟩ => by cases he; rfl⟩
  · rintro f rfl
    obtain ⟨hrole, -, -, -, hwas, -⟩ := ho
    have hf : g'.role f = .kern := by rw [hrole, Ghost.setRole_self]
    have hf0 : g.role f = .free ∨ ∃ r v, g.role f = .user r v :=
      hwas.imp_right fun hx => hx.2
    have hother : ∀ {x}, x ≠ f → g'.role x = g.role x := fun hx => by
      rw [hrole, Ghost.setRole_of_ne _ _ hx]
    have hroot : ∀ {r}, w.IsTable r → g.role r = .root ∧ g'.role r = .root := fun {r} hr => by
      have hr := h.isTable.1 hr
      have hne : r ≠ f := by
        rintro rfl
        rcases hf0 with hx | ⟨_, _, hx⟩ <;> rw [hx] at hr <;> cases hr
      exact ⟨hr, (hother hne).trans hr⟩
    refine ⟨⟨(h.inv.dom f).1 ?_, ?_, ⟨g'.lru, h'.lru.ring, fun hi => ?_⟩,
      fun r v hr hv hm => ?_⟩, ?_⟩
    · rcases hf0 with hx | ⟨_, _, hx⟩ <;> rw [hx] <;> simp
    · obtain ⟨l, hl, -, hmem⟩ := h'.free
      exact ⟨l, hl, fun hfl => by rw [(hmem f).1 hfl] at hf; cases hf⟩
    · obtain ⟨-, r, v, hu, -⟩ := h'.lru.user _ hi
      rw [h'.role_pageToPa (by rw [hf]; simp), hf] at hu
      cases hu
    · have hu := ((h'.pteOk (hroot hr).2 hv).valid hm.1).2.2
      rw [hm.2, hf] at hu
      cases hu
    · -- an evicted page was in the frame returned
      have hev : ∀ {r v}, EvictedPage w σ' r v → g.role f = .user r v := by
        rintro r v ⟨hr, hv, hV, hV'⟩
        have hu := ((h.inv.pteOk (hroot hr).1 hv).valid hV).2.2
        by_cases hx : pte2pa (leaf w.sys.k.mem r v) = f
        · rw [← hx]
          exact hu
        · have := (h'.leaves.user _ r v ((hother hx).trans hu)).2.2.1
          rw [hV'] at this
          cases this
      intro r v r' v' h1 h2
      have he := (hev h1).symm.trans (hev h2)
      cases he
      exact ⟨rfl, rfl⟩

/-- A small machine whose memory is full: a page goes to the swap area. -/
theorem kalloc_exhausted_full : ∃ w, system.Reachable w ∧ w.sys.k.freelist = 0 ∧
    w.sys.k.lruHead ≠ none ∧ ∃ o σ', kalloc w.sys.k = .ok (o, σ') ∧
      (o = none ↔ w.sys.k.freelist = 0 ∧ (w.sys.k.lruHead = none ∨ SwapFull w.sys.k)) := by
  obtain ⟨w, hw, ht⟩ := reachable_test (n := 13) (by decide) (by decide)
    [.userinit, .sbrk 0 4096#64, .kalloc, .kalloc, .kalloc, .kalloc]
    (t := fun w => w.sys.k.freelist = 0 && w.sys.k.lruHead.isSome) (by decide +kernel)
  simp only [Bool.and_eq_true, decide_eq_true_eq] at ht
  obtain ⟨o, σ', hrun, hiff, -⟩ := kalloc_exhausted hw
  exact ⟨w, hw, ht.1, fun h0 => (by rw [h0] at ht; cases ht.2), o, σ', hrun, hiff⟩

end Xv6Swap
