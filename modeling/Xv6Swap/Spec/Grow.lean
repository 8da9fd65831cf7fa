import Xv6Swap.Spec.Free

/-!
# Growing an address space

* `Inv.count_le` : an address space has no more pages than there are frames and slots;
* `Held.installPage_spec` : a new frame is mapped and registered, or freed;
* `uvmalloc_spec` : the new pages are zero, or, when memory runs out, nothing has changed.
-/

namespace Xv6Swap

open Nat List Set Mem

variable {σ σ₁ σ₂ : KState} {g g₁ g₂ : Ghost} {f r v s a v₀ : ℕ} {perm xperm : Word}
  {P : Set (ℕ × ℕ)}

/-! ### Counting pages -/

/-- The largest number of pages of an address space: as many as there are frames and slots. -/
abbrev maxPages : ℕ := npages + nslots

/-- The place of a page: the index of its frame, or of its slot behind the frames. -/
def placeOf (e : Word) : ℕ := if has e pteV then pageIdx (pte2pa e) else npages + pteSlot e

theorem Inv.pageIdx_lt (h : Inv σ g) (hf : g.role f ≠ .none) : pageIdx f < npages := by
  obtain ⟨h1, -, h3⟩ := h.frame_range hf
  simp only [pageIdx, npages, pgsize, phystop, kernbase] at *
  omega

section

variable (h : Inv σ g) (hr : g.role r = .root)
include h hr

theorem Inv.placeOf_lt (hv : v < uvpn)
    (hm : logical σ r v ≠ none) : placeOf (leaf σ.mem r v) < maxPages := by
  have hok := h.pteOk hr hv
  rw [placeOf]
  cases hV : has (leaf σ.mem r v) pteV with
  | true =>
    rw [if_pos rfl]
    exact lt_of_lt_of_le (h.pageIdx_lt (by simp [(hok.valid hV).2.2])) (Nat.le_add_right ..)
  | false =>
    cases hS : has (leaf σ.mem r v) pteSwapped with
    | true =>
      have := h.slots.range _ (by rw [(hok.swapped hV hS).2]; simp)
      rw [if_neg (by decide)]
      exact Nat.add_lt_add_left this _
    | false => exact absurd (pageOf_eq_none_iff.2 ⟨hV, hS⟩) hm

/-- Two pages of a table are not in the same place. -/
theorem Inv.placeOf_inj {v' : ℕ} (hv : v < uvpn)
    (hv' : v' < uvpn) (hm : logical σ r v ≠ none) (hm' : logical σ r v' ≠ none)
    (he : placeOf (leaf σ.mem r v) = placeOf (leaf σ.mem r v')) : v = v' := by
  have hcase : ∀ {v}, v < uvpn → logical σ r v ≠ none →
      (∃ f, g.role f = .user r v ∧ placeOf (leaf σ.mem r v) = pageIdx f) ∨
      ∃ s, g.slot s = .page r v ∧ placeOf (leaf σ.mem r v) = npages + s := by
    intro v hv hm
    have hok := h.pteOk hr hv
    cases hV : has (leaf σ.mem r v) pteV with
    | true => exact .inl ⟨_, (hok.valid hV).2.2, by rw [placeOf, hV, if_pos rfl]⟩
    | false =>
      cases hS : has (leaf σ.mem r v) pteSwapped with
      | true => exact .inr ⟨_, (hok.swapped hV hS).2, by rw [placeOf, hV, if_neg (by decide)]⟩
      | false => exact absurd (pageOf_eq_none_iff.2 ⟨hV, hS⟩) hm
  rcases hcase hv hm with ⟨f, hf, hp⟩ | ⟨s, hs, hp⟩ <;>
    rcases hcase hv' hm' with ⟨f', hf', hp'⟩ | ⟨s', hs', hp'⟩ <;> rw [hp, hp'] at he
  · have hff := h.pageIdx_inj (by simp [hf']) (by simp [hf]) he
    rw [hff] at hf
    cases hf.symm.trans hf'; rfl
  · have := h.pageIdx_lt (f := f) (by simp [hf])
    omega
  · have := h.pageIdx_lt (f := f') (by simp [hf'])
    omega
  · obtain rfl : s = s' := by omega
    cases hs.symm.trans hs'; rfl

/-- **A table has at most `maxPages` mapped pages.** -/
theorem Inv.count_le {n : ℕ} (hb : a + n ≤ uvpn)
    (hm : ∀ v, a ≤ v → v < a + n → logical σ r v ≠ none) : n ≤ maxPages := by
  have hnd : ((range' a n).map fun v => placeOf (leaf σ.mem r v)).Nodup := by
    refine Nodup.map_on (fun v hv v' hv' he => ?_) nodup_range'
    rw [mem_range'_1] at hv hv'
    exact h.placeOf_inj hr (by omega) (by omega) (hm v (by omega) (by omega))
      (hm v' (by omega) (by omega)) he
  have hsub : ((range' a n).map fun v => placeOf (leaf σ.mem r v)) ⊆ range maxPages := by
    intro x hx
    obtain ⟨v, hv, rfl⟩ := mem_map.1 hx
    rw [mem_range'_1] at hv
    exact List.mem_range.2 (h.placeOf_lt hr (by omega) (hm v (by omega) (by omega)))
  simpa using (hnd.subperm hsub).length_le

end

/-! ### New pages -/

/-- Pages of `D` that were unmapped and are unmapped again. -/
theorem Keeps.dropUnmapped {σ' : KState} {g' : Ghost} {P' : Set (ℕ × ℕ)} {F S : Set ℕ}
    (k : Keeps ⟨P', F, S⟩ σ g σ' g') (h : Inv σ g) (hz : ∀ r v, (r, v) ∈ P' → (r, v) ∉ P → r ∉ F →
      v < uvpn ∧ leaf σ.mem r v = 0 ∧ leaf σ'.mem r v = 0) : Keeps ⟨P, F, S⟩ σ g σ' g' := by
  refine k.shrinkPages fun r v hP' hP hF => ?_
  obtain ⟨hv, h0, h0'⟩ := hz r v hP' hP hF
  refine ⟨hv, by rw [logical, logical, h0, h0', pageOf_zero, pageOf_zero], fun f hpin => ?_⟩
  have := (h.leaves.user f r v hpin.role).2.2.1
  rw [h0, has_zero] at this
  cases this

/-- A page that was unmapped is mapped, and then unmapped with the pages before it. -/
theorem Keeps.undoRange (k₁ : Keeps { pages := {(r, v)} } σ g σ₁ g₁)
    (k₂ : Keeps { pages := pageRange r a (v + 1) } σ₁ g₁ σ₂ g₂) (h : Inv σ g) (ha : a ≤ v)
    (hv : v < uvpn) (h0 : leaf σ.mem r v = 0) (h0' : leaf σ₂.mem r v = 0) :
    Keeps { pages := pageRange r a v } σ g σ₂ g₂ := by
  have k : Keeps { pages := pageRange r a (v + 1) } σ g σ₂ g₂ :=
    Keeps.trans (k₁.mono (by rintro _ rfl; exact ⟨rfl, ha, lt_succ_self v⟩)
      (fun _ hx => hx) fun _ hx => hx) k₂
  refine k.dropUnmapped h fun r' w hw hw' _ => ?_
  rw [mem_pageRange] at hw hw'
  obtain ⟨rfl, rfl⟩ : r' = r ∧ w = v := ⟨hw.1, by omega⟩
  exact ⟨hv, h0, h0'⟩

/-- The pager after a frame has been taken for the page `x`, and `n` more for page-table pages. -/
def addPage (x : ℕ × ℕ) (b : Bool) (n : ℕ) (p : Pager (ℕ × ℕ)) : Pager (ℕ × ℕ) :=
  ((Pager.alloc^[n] p.alloc).mark x b).push x

/-- The page `v` of `r` has the bytes `b` now, or nothing has changed; three free frames are
enough. -/
def PageAdded (σ : KState) (g : Ghost) (r v : ℕ) (perm : Word) (b : Fin pgsize → Byte) (ok : Bool)
    (σ' : KState) : Prop :=
  ∃ g', Inv σ' g' ∧ (∀ n, HasFree g (n + 3) → ok = true ∧ HasFree g' n ∧ UserKept g g') ∧
    match ok with
    | false => Keeps {} σ g σ' g'
    | true => Keeps { pages := {(r, v)} } σ g σ' g' ∧ logical σ' r v = some ⟨perms perm, b⟩ ∧
        (∀ w < 2 ^ 27, needs σ'.mem r w = touch v (needs σ.mem r) w) ∧
        ∀ p, Paged σ g p → Paged σ' g' (addPage (r, v) (has perm pteA) (needs σ.mem r v) p)

/-- The kernel holds the frame `f`, which `kalloc` has returned in `σ`, and may have filled it. -/
structure Held (σ : KState) (g : Ghost) (f : ℕ) (σ' : KState) (g' : Ghost) : Prop where
  inv : Inv σ' g'
  kern : g'.role f = .kern
  role : ∀ y ≠ f, g'.role y = g.role y
  keeps : Keeps { frames := {f} } σ g σ' g'
  table : (g.role f).isTable = false ∧ g.role f ≠ .kern
  free : ∀ n, HasFree g (n + 1) → HasFree g' n ∧ UserKept g g'
  pager : ∀ p, Paged σ g p → Paged σ' g' p.alloc

theorem Allocated.held (ha : Allocated σ g (some f) σ₁) (h : Inv σ g) :
    ∃ g₁, Held σ g f σ₁ g₁ := by
  have hfree := fun n => Allocated.hasFree h ha (n := n)
  have ht := ha.not_table rfl
  obtain ⟨g₁, h1, hrole, -, -, k1, -, hp⟩ := ha
  have hother : ∀ y ≠ f, g₁.role y = g.role y := fun y hy => by
    rw [hrole, Ghost.setRole_of_ne _ _ hy]
  refine ⟨g₁, h1, by rw [hrole, Ghost.setRole_self], hother, k1, ht, fun n hn => ?_,
    fun p hpg => (hp p hpg).1⟩
  obtain ⟨_, ⟨⟩, hg⟩ := hfree n hn
  exact hg g₁ hother

namespace Held

variable (hh : Held σ g f σ₁ g₁)
include hh

theorem fill (h2 : Inv σ₂ g₁) (k2 : Keeps { frames := {f} } σ₁ g₁ σ₂ g₁)
    (hm : SameOutside σ₁.mem σ₂.mem f 4096) (hpages : σ₂.pages = σ₁.pages) :
    Held σ g f σ₂ g₁ := by
  refine { hh with inv := h2, keeps := hh.keeps.trans k2, pager := fun p hp => ?_ }
  have hf := hh.kern
  exact (hh.pager p hp).frame hh.inv h2 hm (by simp [hf]) (by rw [hf]; rfl) (by rw [hf]; rfl)
    (fun _ _ => rfl) (hh.pager p hp).free rfl hpages

theorem root (hr : g.role r = .root) : r ≠ f := by
  rintro rfl
  have := hh.table.1
  rw [hr] at this; cases this

/-- The frame is neither the kernel's nor a root any more: it was neither before. -/
theorem drop (h : Inv σ g) (k : Keeps ⟨P, {f}, ∅⟩ σ₁ g₁ σ₂ g₂) (hk : g₂.role f ≠ .kern)
    (hroot : g₂.role f ≠ .root) : Keeps { pages := P } σ g σ₂ g₂ := by
  have k' : Keeps ⟨P, {f}, ∅⟩ σ g σ₂ g₂ :=
    Keeps.trans (hh.keeps.mono (empty_subset _) (fun _ hx => hx) fun _ hx => hx) k
  refine k'.shrinkFrames h.tree h.leaves ?_
  rintro x rfl -
  exact ⟨⟨hh.table.2, fun hx => hh.root hx rfl⟩, hk, hroot⟩

theorem inner (x : ℕ) {w : Role} (hw : w.isInner = true) : g₁.role x = w ↔ g.role x = w := by
  by_cases hx : x = f
  · subst hx
    refine iff_of_false ?_ ?_ <;> rintro rfl
    · rw [hh.kern] at hw; cases hw
    · have := hh.table.1
      rw [Role.isTable_of_isInner hw] at this; cases this
  · rw [hh.role x hx]

/-- **The frame is mapped and registered**, or freed. -/
theorem installPage_spec (h : Inv σ g) (hr : g.role r = .root) (hv : v < uvpn)
    (h0 : leaf σ.mem r v = 0) (hp : IsFlags perm) (hR : has perm pteR = true)
    (hS : has perm pteSwapped = false) : Ensures (installPage r (v * 4096) f perm σ₁)
      (PageAdded σ g r v perm (frameBytes σ₁.mem f)) fun _ => False := by
  have hrf := hh.root hr
  have hv27 : v < 2 ^ 27 := lt_trans hv (by decide)
  have hr₁ := (hh.keeps.root r hrf).2 hr
  refine (mappages_user_spec hh.inv hr₁ hv
    (hh.keeps.leaf_zero h hh.inv hr hrf (notMem_empty _) hv27 h0)
    hh.kern hp hR hS).bind ?_
  rintro ret σ₃ ⟨g₃, h3, hn, ⟨rfl, k3⟩ | ⟨rfl, hrole, hoff, k3, hway, hlog, hp3⟩⟩
  · rw [if_pos (by decide)]
    refine (kfree_spec h3 ((k3.kern f (notMem_empty _)).2 hh.kern)).bind ?_
    rintro - σ₄ ⟨-, h4, k4, -⟩
    refine ⟨_, h4, fun n hx => ?_, hh.drop h ((k3.mono_empty _).trans k4) (by simp) (by simp)⟩
    exact absurd (hn n (hh.free (n + 2) hx).1).1 (by decide)
  · rw [if_neg (by decide)]
    refine (registerPage_spec h3 hrole hoff).bind ?_
    rintro - σ₄ ⟨h4, k4, pages', head', tail', rfl⟩
    have k34 := k3.trans (k4.mono (fun _ hx => hx) (empty_subset _) fun _ hx => hx)
    have k := hh.drop h k34 (by simp [hrole]) (by simp [hrole])
    refine ⟨_, h4, fun n hx => ?_, k, hlog, fun w hw => ?_, fun p hp => ?_⟩
    · obtain ⟨hfree, hkept⟩ := hh.free (n + 2) hx
      obtain ⟨-, hfree', hkept'⟩ := hn n hfree
      exact ⟨rfl, hfree', fun y r v hy => hkept' y r v (hkept y r v hy)⟩
    · obtain ⟨a, ha⟩ := Tree.exists_entry_of_leaf_ne_zero (m := σ₃.mem) (r := r) (v := v)
        fun h0 => by
        rw [logical, h0, pageOf_zero] at hlog; cases hlog
      refine h.needs_eq h4 hr ((k.root r (notMem_empty _)).2 hr)
        (fun x hx => k.table x r hx (notMem_empty _)) (fun x hx => ?_) hv27 ha hw
      refine (hway x hx).imp_left fun he => he.trans ?_
      exact ((hh.inner x (by rw [← he]; exact hx)).1 rfl).symm
    · have hneeds := h.tree.needs_congr hh.inv.tree hr hr₁ (fun x w => hh.inner x) v
      rw [addPage, ← hneeds]
      exact (hp3 _ (hh.pager p hp)).register h3 hrole h4 rfl

end Held

/-! ### uvmalloc -/

/-- A page of zeros. -/
def zeroPage (perm : Word) : LPage := ⟨perms perm, fun _ => 0⟩

/-- The way back of `uvmalloc`: the pages it has mapped so far are unmapped. -/
theorem uvmalloc_undo (h : Inv σ g) (hr : g.role r = .root) (hv : v ≤ uvpn)
    (hm : ∀ w, v₀ ≤ w → w < v → logical σ r w ≠ none) : Ensures ((do
        let _ ← uvmdealloc r (v * 4096) (v₀ * 4096)
        pure 0 : K ℕ) σ)
      (fun ret σ' => ret = 0 ∧ ∃ g', Inv σ' g' ∧ Keeps { pages := pageRange r v₀ v } σ g σ' g' ∧
        ∀ w, v₀ ≤ w → w < v → leaf σ'.mem r w = 0) fun _ => False := by
  have hn : ∀ w, npg (w * 4096) = w := fun w => by simp only [npg]; omega
  have hu := uvmdealloc_spec h hr (v * 4096) (v₀ * 4096) (by rw [hn]; exact hv)
  rw [hn, hn] at hu
  refine (hu.mono (fun _ _ hq => hq) ?_).bind fun _ σ' hσ' => ⟨rfl, hσ'.2⟩
  rintro - ⟨w, h1, h2, h3⟩
  exact hm w h1 h2 h3

/-- One page of `uvmalloc`: the zeroed frame is mapped and registered, or freed. -/
theorem uvmalloc_page (h : Inv σ g) (ha : Allocated σ g (some f) σ₁)
    (hr : g.role r = .root) (hv : v < uvpn) (h0 : leaf σ.mem r v = 0) (hx : IsFlags xperm)
    (hS : has xperm pteSwapped = false) : Ensures ((do
        K.memset f 0
        installPage r (v * 4096) f (pteR ||| pteU ||| xperm) : K Bool) σ₁)
      (PageAdded σ g r v (pteR ||| pteU ||| xperm) fun _ => 0) fun _ => False := by
  obtain ⟨g₁, hh⟩ := ha.held h
  have hm := sameOutside_fill σ₁.mem f 4096 0
  obtain ⟨h2, k2⟩ := hh.inv.writeKern hh.kern hm
  have hbytes : frameBytes (σ₁.mem.fill f 4096 0) f = fun _ => 0 := by
    funext k
    have : k.val < 4096 := k.isLt
    simp only [frameBytes, Mem.fill]
    rw [if_pos (by omega)]
  have hins := (hh.fill h2 k2 hm rfl).installPage_spec h hr hv h0
    (IsFlags.or (by rw [IsFlags]; decide) hx : IsFlags (pteR ||| pteU ||| xperm)) ?_ ?_
  · rw [hbytes] at hins
    exact hins
  · rw [has_pteR, BitVec.getLsbD_or, show (pteR ||| pteU).getLsbD 1 = true by decide, Bool.true_or]
  · rw [has_pteSwapped] at hS ⊢
    rw [BitVec.getLsbD_or, show (pteR ||| pteU).getLsbD 9 = false by decide, hS, Bool.or_false]

/-- What `uvmalloc` returns and does, from page `v₀` to the size `newsz`; three free frames a page
are enough. -/
def Grown (σ : KState) (g : Ghost) (r v₀ v newsz : ℕ) (perm : Word) (ret : ℕ) (σ' : KState) :
    Prop :=
  ∃ g', Inv σ' g' ∧ (HasFree g (3 * (npg newsz - v)) → UserKept g g') ∧
    (ret = 0 ∧ Keeps { pages := pageRange r v₀ v } σ g σ' g' ∧
        (∀ w, v₀ ≤ w → w < v → leaf σ'.mem r w = 0) ∨
      ret = newsz ∧ npg newsz ≤ v₀ + maxPages ∧
        Keeps { pages := pageRange r v (npg newsz) } σ g σ' g' ∧
        ∀ w, v ≤ w → w < npg newsz → logical σ' r w = some (zeroPage perm))

theorem uvmallocLoop_spec (hx : IsFlags xperm) (hS : has xperm pteSwapped = false)
    {newsz : ℕ} (hv₀ : v₀ ≤ 2 ^ 25) : ∀ (k : ℕ) (σ : KState) (g : Ghost) (v : ℕ), Inv σ g →
    g.role r = .root → v₀ ≤ v → v ≤ uvpn → v ≤ npg newsz → npg newsz < v + k →
    (∀ w, v₀ ≤ w → w < v → logical σ r w ≠ none) → (∀ w, v ≤ w → w < uvpn → leaf σ.mem r w = 0) →
    Ensures (uvmallocLoop r (v₀ * 4096) newsz xperm k (v * 4096) σ)
      (Grown σ g r v₀ v newsz (pteR ||| pteU ||| xperm)) fun _ => False := by
  intro k
  induction k with
  | zero => intro σ g v _ _ _ _ h1 h2; omega
  | succ k ih =>
    intro σ g v h hr hv0 hvu hvn hk hm hz
    have hcount : v - v₀ ≤ maxPages :=
      h.count_le hr (by omega) fun w hw hw' => hm w hw (by omega)
    have hu : uvpn = 67108862 := rfl
    have hvlt : v + 1 < uvpn := by
      have h1 : maxPages = 39768 := rfl
      omega
    rw [uvmallocLoop, Run.ite_apply]
    split
    case isFalse hlt =>
      have hvn' : v = npg newsz := by simp only [npg] at *; omega
      exact ⟨g, h, fun _ _ _ _ hf => hf, .inr ⟨rfl, by omega, Keeps.refl _ _ _,
        fun w h1 h2 => by omega⟩⟩
    case isTrue hlt =>
      have hvn' : v < npg newsz := by simp only [npg] at *; omega
      have hneed : 3 * (npg newsz - (v + 1)) + 3 ≤ 3 * (npg newsz - v) := by omega
      refine (kalloc_spec h).bind ?_
      rintro (_ | f) σ₁ hσ₁
      · obtain ⟨g₁, h1, h0, hrole, k1⟩ := hσ₁
        have hrt := notMem_empty r
        refine (uvmalloc_undo h1 ((k1.root r hrt).2 hr) hvu fun w h2 h3 => ?_).imp ?_
        · rw [k1.page r w hr hrt (by omega) (notMem_empty _)]
          exact hm w h2 h3
        · rintro _ σ₂ ⟨rfl, g₂, h2, k2, hz2⟩
          exact ⟨g₂, h2, fun hn => absurd h0 (h.freelist_ne_zero (hn.mono (by omega))),
            .inl ⟨rfl, (k1.mono_empty _).trans k2, hz2⟩⟩
      · rw [← Run.bind_assoc_apply]
        refine (uvmalloc_page h hσ₁ hr (by omega) (hz v (le_refl _) (by omega)) hx hS).bind ?_
        have hrt := notMem_empty r
        rintro (_ | _) σ₂ ⟨g₂, h2, hfree, hσ₂⟩
        · refine (uvmalloc_undo h2 ((hσ₂.root r hrt).2 hr) hvu fun w h3 h4 => ?_).imp ?_
          · rw [hσ₂.page r w hr hrt (by omega) (notMem_empty _)]
            exact hm w h3 h4
          · rintro _ σ₃ ⟨rfl, g₃, h3, k3, hz3⟩
            exact ⟨g₃, h3, fun hn => Bool.noConfusion (hfree _ (hn.mono hneed)).1,
              .inl ⟨rfl, (hσ₂.mono_empty _).trans k3, hz3⟩⟩
        · obtain ⟨k2, hlog, -⟩ := hσ₂
          have ha : (v * 4096 + pgsize) % 2 ^ 64 = (v + 1) * 4096 := by
            simp only [pgsize]; omega
          rw [if_pos rfl, ha]
          refine (ih σ₂ g₂ (v + 1) h2 ((k2.root r hrt).2 hr) (by omega) (by omega) hvn' (by omega)
            (fun w h3 h4 => ?_) fun w h3 h4 => ?_).imp ?_
          · rcases Nat.lt_succ_iff_lt_or_eq.1 h4 with h4 | rfl
            · rw [k2.page r w hr hrt (by omega) (notMem_single (by omega))]
              exact hm w h3 h4
            · simp [hlog]
          · exact k2.leaf_zero h h2 hr hrt (notMem_single (by omega)) (lt_trans h4 (by decide))
              (hz w (by omega) h4)
          · rintro ret σ₃ ⟨g₃, h3, hkept, hσ₃⟩
            refine ⟨g₃, h3, fun hn y r v hy => ?_, ?_⟩
            · obtain ⟨-, hn2, hy2⟩ := hfree _ (hn.mono hneed)
              exact hkept hn2 y r v (hy2 y r v hy)
            rcases hσ₃ with ⟨rfl, k3, hz3⟩ | ⟨rfl, hmax, k3, hlog3⟩
            · exact .inl ⟨rfl, k2.undoRange k3 h hv0 (by omega) (hz v (le_refl _) (by omega))
                (hz3 v hv0 (lt_succ_self v)), fun w h4 h5 => hz3 w h4 (by omega)⟩
            · refine .inr ⟨rfl, hmax, k2.consRange k3 hvn', fun w h4 h5 => ?_⟩
              rcases eq_or_lt_of_le h4 with rfl | h4
              · rw [k3.page r v ((k2.root r hrt).2 hr) hrt (by omega) fun hp =>
                  absurd (mem_pageRange.1 hp).2.1 (by omega)]
                exact hlog
              · exact hlog3 w h4 h5

/-- **`uvmalloc`** of pages above the mapped ones: the pages from `oldsz` to `newsz` are zero, or,
when memory runs out, nothing has changed. -/
theorem uvmalloc_spec (h : Inv σ g) (hr : g.role r = .root) (oldsz newsz : ℕ)
    (hold : npg oldsz ≤ 2 ^ 25) (hx : IsFlags xperm) (hS : has xperm pteSwapped = false)
    (hz : ∀ v, npg oldsz ≤ v → v < uvpn → leaf σ.mem r v = 0) :
    Ensures (uvmalloc r oldsz newsz xperm σ) (fun ret σ' => ∃ g', Inv σ' g' ∧
      (HasFree g (3 * (npg newsz - npg oldsz)) → UserKept g g') ∧
      ((ret = oldsz ∧ newsz < oldsz ∨ ret = 0) ∧ Keeps {} σ g σ' g' ∨
        ret = newsz ∧ oldsz ≤ newsz ∧ npg newsz ≤ npg oldsz + maxPages ∧
        Keeps { pages := pageRange r (npg oldsz) (npg newsz) } σ g σ' g' ∧
        ∀ v, npg oldsz ≤ v → v < npg newsz →
          logical σ' r v = some (zeroPage (pteR ||| pteU ||| xperm)))) fun _ => False := by
  rw [uvmalloc, Run.ite_apply]
  split
  case isTrue hlt =>
    exact ⟨g, h, fun _ _ _ _ hf => hf, .inl ⟨.inl ⟨rfl, hlt⟩, Keeps.refl _ _ _⟩⟩
  case isFalse hlt =>
    have hup : pgroundup oldsz = npg oldsz * 4096 :=
      pgroundup_eq (by simp only [npg] at hold; omega)
    have hu : 2 ^ 25 < uvpn := by decide
    rw [hup]
    refine (uvmallocLoop_spec hx hS hold _ σ g (npg oldsz) h hr (le_refl _) (by omega)
      (by simp only [npg]; omega) (by simp only [npg, pgsize]; omega)
      (fun w h1 h2 => by omega) hz).imp ?_
    rintro ret σ' ⟨g', h', hkept, ⟨rfl, k, -⟩ | ⟨rfl, hmax, k, hlog⟩⟩
    · refine ⟨g', h', hkept, .inl ⟨.inr rfl, k.shrinkPages fun r' w hw => ?_⟩⟩
      have := hw.2; simp only at this; omega
    · exact ⟨g', h', hkept, .inr ⟨rfl, by omega, hmax, k, hlog⟩⟩

/-! ### uvmfirst -/

/-- **`uvmfirst`**, with three free frames, maps page 0. -/
theorem uvmfirst_spec (h : Inv σ g) (hr : g.role r = .root) (h0 : leaf σ.mem r 0 = 0)
    {src : List Byte} (hsrc : src.length < pgsize) (hfree : HasFree g 3) :
    Ensures (uvmfirst r src σ) (fun _ σ' => ∃ g', Inv σ' g' ∧
      Keeps { pages := {(r, 0)} } σ g σ' g' ∧ logical σ' r 0 ≠ none) fun _ => False := by
  have hu : 0 < uvpn := by decide
  rw [uvmfirst, if_neg (by omega)]
  refine (kalloc_spec h).bind ?_
  rintro o σ₁ ha
  obtain ⟨f, rfl, -⟩ := Allocated.hasFree h ha hfree
  obtain ⟨g₁, hh⟩ := ha.held h
  have hm := sameOutside_fill σ₁.mem f pgsize 0
  obtain ⟨h2, k2⟩ := hh.inv.writeKern hh.kern hm
  have hh2 := hh.fill h2 k2 hm rfl
  have hrf := hh.root hr
  dsimp only
  rw [K.memset, Run.bind_modify, show mappages r 0 = mappages r (0 * 4096) from rfl]
  refine (mappages_user_spec (v := 0) h2 ((hh2.keeps.root r hrf).2 hr) hu
    (hh2.keeps.leaf_zero h h2 hr hrf (notMem_empty _) (by decide) h0) hh.kern
    (by rw [IsFlags]; decide) (by decide) (by decide)).bind ?_
  rintro ret σ₃ ⟨g₃, h3, hn, ⟨rfl, k3⟩ | ⟨rfl, huser, -, k3, -⟩⟩
  · exact absurd (hn 0 (hh.free 2 hfree).1).1 (by decide)
  · obtain ⟨h4, k4⟩ := h3.writeUser huser
      ((sameOutside_write σ₃.mem f src).mono (le_refl _) (by simp only [pgsize] at hsrc; omega))
    refine ⟨g₃, h4, hh2.drop h (k3.trans (k4.mono (fun _ hx => hx) (empty_subset _) fun _ hx => hx))
      (by simp [huser]) (by simp [huser]), ?_⟩
    obtain ⟨-, -, hV, -⟩ := h4.leaves.user f r 0 huser
    rw [logical, pageOf_valid hV]
    simp

end Xv6Swap
