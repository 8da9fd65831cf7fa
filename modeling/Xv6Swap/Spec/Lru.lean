import Xv6Swap.Inv.Entry

/-!
# The LRU list

`lru_add` and `lru_remove` add a page at the end of the circular list and take one out
(`lruAdd_ensures`, `lruRemove_ensures`); on a page that is not on the list, `lru_remove` does
nothing. Neither touches the reverse map of any page.  From this follow their effects on the memory
system, `lruAdd_spec`, `lruRemove_spec` and `registerPage_spec`.
-/

namespace Xv6Swap

open Function Run List Set

/-- The pointers of `pages[]` represent the circular list `l`. -/
abbrev LruRing (pages : ℕ → Page) (head tail : Option ℕ) (l : List ℕ) : Prop :=
  IsRing (fun i => (pages i).next) (fun i => (pages i).prev) head tail l

/-- The reverse maps of two states of `pages[]` are the same. -/
def SameMeta (pages pages' : ℕ → Page) : Prop :=
  ∀ i, (pages' i).pagetable = (pages i).pagetable ∧ (pages' i).vaddr = (pages i).vaddr

theorem SameMeta.refl (pages : ℕ → Page) : SameMeta pages pages := fun _ => ⟨rfl, rfl⟩

theorem SameMeta.update {pages pages' : ℕ → Page} {i : ℕ} {q : Page} (h : SameMeta pages pages')
    (hp : q.pagetable = (pages' i).pagetable) (hv : q.vaddr = (pages' i).vaddr) :
    SameMeta pages (update pages' i q) := by
  intro j
  by_cases hj : j = i
  · subst hj
    rw [update_self]
    exact ⟨hp.trans (h j).1, hv.trans (h j).2⟩
  · rw [update_of_ne hj]; exact h j

theorem next_update (pages : ℕ → Page) (i : ℕ) (q : Page) : (fun j => (update pages i q j).next) =
      update (fun j => (pages j).next) i q.next := comp_update Page.next pages i q

theorem prev_update (pages : ℕ → Page) (i : ℕ) (q : Page) : (fun j => (update pages i q j).prev) =
      update (fun j => (pages j).prev) i q.prev := comp_update Page.prev pages i q

section

variable {σ : KState} {l : List ℕ} {pg : ℕ}

/-- **`lru_add` appends a page.** -/
theorem lruAdd_ensures (h : LruRing σ.pages σ.lruHead σ.lruTail l) (hx : pg ∉ l) :
    Ensures (lruAdd pg σ) (fun _ σ' => ∃ pages' head' tail',
      σ' = { σ with pages := pages', lruHead := head', lruTail := tail' } ∧
      LruRing pages' head' tail' (l ++ [pg]) ∧ SameMeta σ.pages pages') fun _ => False := by
  cases hl : l with
  | nil =>
    subst hl
    have hhead : σ.lruHead = none := h.head_eq
    simp only [lruAdd, bind_read, hhead, setLru, setPage, bind_modify, modify_apply]
    refine ⟨_, _, _, rfl, ?_, (SameMeta.refl _).update rfl rfl⟩
    rw [LruRing, next_update, prev_update]
    exact IsRing.add_nil h pg
  | cons a t =>
    obtain ⟨b, hb⟩ : ∃ b, l.getLast? = some b :=
      Option.isSome_iff_exists.1 (by rw [hl]; simp [getLast?_isSome])
    have hhead : σ.lruHead = some a := by rw [h.head_eq, hl]; rfl
    have htail : σ.lruTail = some b := by rw [h.tail_eq, hb]
    simp only [lruAdd, bind_read, hhead, htail, setLru, setPage, bind_modify, modify_apply]
    refine ⟨_, _, _, rfl, ?_, ?_⟩
    · have hring := (hhead ▸ htail ▸ h : LruRing σ.pages (some a) (some b) l).add hx
      rw [← hl, LruRing]
      convert hring using 1
      · rw [next_update, update_eq_self_iff.2 rfl, next_update, next_update]
      · rw [prev_update, prev_update]
        congr 1
        rw [update_eq_self_iff.2 rfl, prev_update]
    · exact SameMeta.update (SameMeta.update (SameMeta.update (SameMeta.refl _) rfl rfl) rfl rfl)
        rfl rfl

/-- **`lru_remove` takes a page out**, and does nothing if it is not on the list. -/
theorem lruRemove_ensures (h : LruRing σ.pages σ.lruHead σ.lruTail l) (pg : ℕ) :
    Ensures (lruRemove pg σ) (fun _ σ' => ∃ pages' head' tail',
      σ' = { σ with pages := pages', lruHead := head', lruTail := tail' } ∧
      LruRing pages' head' tail' (l.erase pg) ∧ SameMeta σ.pages pages') fun _ => False := by
  by_cases hx : pg ∈ l
  · obtain ⟨n, hn, hnext⟩ := h.next_mem hx
    obtain ⟨p, hp, hprev⟩ := h.prev_mem hx
    by_cases hl : l = [pg]
    · subst hl
      have hhead : σ.lruHead = some pg := h.head_eq
      have htail : σ.lruTail = some pg := h.tail_eq
      simp only [lruRemove, bind_read, hnext, hprev, hhead, htail, setLru, setPage,
        bind_modify, modify_apply, and_self, if_true]
      refine ⟨_, _, _, rfl, ?_, (SameMeta.refl _).update rfl rfl⟩
      rw [LruRing, next_update, prev_update, erase_cons_head]
      exact h.remove_single
    · have hne : ¬ (σ.lruHead = some pg ∧ σ.lruTail = some pg) := by
        rintro ⟨h1, h2⟩
        rw [h1, h2] at h
        exact hl h.eq_singleton
      simp only [lruRemove, bind_read, hnext, hprev, setLru, setPage, bind_modify,
        modify_apply, if_neg hne]
      refine ⟨_, _, _, rfl, ?_, ?_⟩
      · have hring := h.remove hx hl hnext hprev
        rw [LruRing]
        convert hring using 1
        · rw [next_update]
          congr 1
          rw [next_update, update_eq_self_iff.2 rfl, next_update]
        · rw [prev_update]
          congr 1
          rw [prev_update]
          congr 1
          rw [prev_update, update_eq_self_iff.2 rfl]
      · exact SameMeta.update (SameMeta.update (SameMeta.update (SameMeta.refl _) rfl rfl) rfl rfl)
          rfl rfl
  · obtain ⟨hnext, hprev⟩ := h.off pg hx
    simp only [lruRemove, bind_read, hnext, pure_apply]
    exact ⟨σ.pages, σ.lruHead, σ.lruTail, rfl, by rwa [erase_of_not_mem hx], SameMeta.refl _⟩

end

/-! ### Effects on the memory system -/

section

variable {σ : KState} {g : Ghost} {pg f r v : ℕ}

theorem Inv.lruStep (h : Inv σ g) {pages' : ℕ → Page} {head' tail' : Option ℕ} {l' : List ℕ}
    (hl : LruOk pages' head' tail' g.role l') :
    Inv { σ with pages := pages', lruHead := head', lruTail := tail' } (g.setLru l') :=
  ⟨h.dom, h.free, h.hist, h.tree, h.leaves, h.slots, hl⟩

/-- A change of the LRU list that puts no pinned page outside of `P` on it. -/
theorem Inv.keepsLru (h : Inv σ g) (pages' : ℕ → Page) (head' tail' : Option ℕ) (l' : List ℕ)
    (P : Set (ℕ × ℕ)) (hpin : ∀ f r v, Pinned σ g f r v → (r, v) ∉ P → pageIdx f ∉ l' ∧
      (pages' (pageIdx f)).pagetable = (σ.pages (pageIdx f)).pagetable ∧
      (pages' (pageIdx f)).vaddr = (σ.pages (pageIdx f)).vaddr) :
    Keeps ⟨P, ∅, ∅⟩ σ g { σ with pages := pages', lruHead := head', lruTail := tail' }
      (g.setLru l') :=
  Keeps.of_agree h.leaves rfl rfl (fun _ _ hne => absurd rfl hne)
    (fun _ _ _ => Mem.AgreeOn.refl _ _ _) (fun _ _ _ hx => absurd hx (notMem_empty _))
    (fun _ _ hx => absurd hx (notMem_empty _)) (fun _ _ _ _ _ _ => rfl)
    (fun f r v hp _ hP => hpin f r v hp hP) (fun _ _ => Iff.rfl) (fun _ _ _ _ => rfl)
    fun _ _ => rfl

/-- What `lru_remove` does to the memory system. -/
theorem lruRemove_spec (h : Inv σ g) (pg : ℕ) :
    Ensures (lruRemove pg σ) (fun _ σ' => Inv σ' (g.setLru (g.lru.erase pg)) ∧
      Keeps {} σ g σ' (g.setLru (g.lru.erase pg)) ∧ SameMeta σ.pages σ'.pages ∧
      ∃ pages' head' tail', σ' = { σ with pages := pages', lruHead := head', lruTail := tail' })
      fun _ => False := by
  refine (lruRemove_ensures h.lru.ring pg).imp ?_
  rintro - σ' ⟨pages', head', tail', rfl, hring, hmeta⟩
  refine ⟨h.lruStep ⟨hring, fun i hi => ?_⟩, h.keepsLru _ _ _ _ _ fun f r v hp _ => ?_, hmeta,
    _, _, _, rfl⟩
  · rw [(hmeta i).1, (hmeta i).2]
    exact h.lru.user i (mem_of_mem_erase hi)
  · exact ⟨fun hx => hp.off (mem_of_mem_erase hx), hmeta _⟩

/-- What `lru_add` does to the memory system. -/
theorem lruAdd_spec (h : Inv σ g) (hpin : Pinned σ g f r v) :
    Ensures (lruAdd (pageIdx f) σ) (fun _ σ' => Inv σ' (g.setLru (g.lru ++ [pageIdx f])) ∧
      Keeps { pages := {(r, v)} } σ g σ' (g.setLru (g.lru ++ [pageIdx f])) ∧
      ∃ pages' head' tail', σ' = { σ with pages := pages', lruHead := head', lruTail := tail' })
      fun _ => False := by
  have hf0 : g.role f ≠ .none := by simp [hpin.role]
  refine (lruAdd_ensures h.lru.ring hpin.off).imp ?_
  rintro - σ' ⟨pages', head', tail', rfl, hring, hmeta⟩
  refine ⟨h.lruStep ⟨hring, fun i hi => ?_⟩, h.keepsLru _ _ _ _ _ fun f' r' v' hp hP => ?_,
    _, _, _, rfl⟩
  · rw [(hmeta i).1, (hmeta i).2]
    rcases mem_append.1 hi with hi | hi
    · exact h.lru.user i hi
    · obtain rfl : i = pageIdx f := by simpa using hi
      refine ⟨?_, r, v, ?_, hpin.pagetable, hpin.vaddr⟩
      · have := ((h.dom f).1 hf0).2.2
        simp only [pageIdx, npages, pgsize, phystop, kernbase] at *
        omega
      · rw [h.role_pageToPa hf0]; exact hpin.role
  · refine ⟨fun hx => ?_, hmeta _⟩
    rcases mem_append.1 hx with hx | hx
    · exact hp.off hx
    · have hidx : pageIdx f' = pageIdx f := by simpa using hx
      have hff := h.pageIdx_inj hf0 (by simp [hp.role]) hidx
      have hrole := hp.role
      rw [hff, hpin.role] at hrole
      cases hrole
      exact hP (mem_singleton _)

theorem pa2pageidx_apply {L : Link} (hf : Allocatable L f) (σ : KState) :
    pa2pageidx f σ = .ok (pageIdx f, σ) := by
  have h1 := hf.kernbase_le
  have h2 := hf.2.2
  rw [pa2pageidx, if_neg (by omega)]
  rfl

/-- **A mapped page is registered** and added to the LRU list. -/
theorem registerPage_spec (h : Inv σ g) (hf : g.role f = .user r v) (hoff : pageIdx f ∉ g.lru) :
    Ensures (registerPage r (v * 4096) f σ) (fun _ σ' =>
      Inv σ' (g.setLru (g.lru ++ [pageIdx f])) ∧
      Keeps { pages := {(r, v)} } σ g σ' (g.setLru (g.lru ++ [pageIdx f])) ∧
      ∃ pages' head' tail', σ' = { σ with pages := pages', lruHead := head', lruTail := tail' })
      fun _ => False := by
  have hf0 : g.role f ≠ .none := by simp [hf]
  rw [registerPage, bind_ok (pa2pageidx_apply ((h.dom f).1 hf0) σ), setPage, bind_modify]
  -- the reverse map of a page off the list is free to change
  have hring : LruOk (update σ.pages (pageIdx f)
      { σ.pages (pageIdx f) with pagetable := r, vaddr := v * 4096 }) σ.lruHead σ.lruTail
      g.role g.lru := by
    refine ⟨?_, fun i hi => ?_⟩
    · rw [next_update, prev_update, update_eq_self_iff.2 rfl, update_eq_self_iff.2 rfl]
      exact h.lru.ring
    · rw [update_of_ne (by rintro rfl; exact hoff hi)]
      exact h.lru.user i hi
  have h1 := h.lruStep hring
  have k1 := h.keepsLru (update σ.pages (pageIdx f)
      { σ.pages (pageIdx f) with pagetable := r, vaddr := v * 4096 }) σ.lruHead σ.lruTail g.lru
      {(r, v)} fun f' r' v' hp hP => by
    have hidx : pageIdx f' ≠ pageIdx f := by
      intro hidx
      have hff := h.pageIdx_inj hf0 (by simp [hp.role]) hidx
      have hrole := hp.role
      rw [hff, hf] at hrole
      cases hrole
      exact hP (mem_singleton _)
    rw [update_of_ne hidx]
    exact ⟨hp.off, rfl, rfl⟩
  refine (lruAdd_spec h1 (f := f) (r := r) (v := v) ⟨hf, hoff, by simp, by simp⟩).imp ?_
  rintro - σ' ⟨h2, k2, pages', head', tail', rfl⟩
  exact ⟨h2, k1.trans k2, _, _, _, rfl⟩

end

end Xv6Swap
