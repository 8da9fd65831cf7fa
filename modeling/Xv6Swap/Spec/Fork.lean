import Xv6Swap.Spec.Grow

/-!
# Copying an address space

`uvmcopy` reads the entry of a page of the parent, allocates a frame for the child and then copies
the page.  If the free list is empty, `kalloc` evicts a page; when it evicts the very page whose
frame has just been read from the entry, that frame is returned as the child's, filled with 5s, and
copied onto itself.  The pager of the state before the call tells when this happens (`CopySafe`).

* `uvmcopyPage_spec` : what one iteration copies, in both cases;
* `uvmcopy_spec` : a `uvmcopy` that returns 0 keeps every page of the parent, and the child's pages
  are the parent's if and only if no page is evicted for its own copy, or such a page held only 5s
  (`CopiesFaithfully`); one that returns -1 has changed nothing.
-/

namespace Xv6Swap

open Nat Set

variable {σ σ₁ : KState} {g : Ghost} {f r v s old new : ℕ} {p : LPage} {b : Fin pgsize → Byte}

/-! ### One page -/

/-- The bytes that a filled frame has. -/
def junk : Fin pgsize → Byte := fun _ => 5

/-- The pager after the page `v` of `old` has been copied to the table `new`, which takes `n`
page-table pages; the copy is accessed if the page was before. -/
def copyPage (old new v n : ℕ) (p : Pager (ℕ × ℕ)) : Pager (ℕ × ℕ) :=
  addPage (new, v) (p.used (old, v)) n p

/-- What one iteration of `uvmcopy` has done. -/
def PageCopied (σ : KState) (g : Ghost) (old new v : ℕ) (ok : Bool) (σ' : KState) : Prop :=
  ∃ g', Inv σ' g' ∧ match ok with
    | false => Keeps {} σ g σ' g'
    | true => Keeps { pages := {(new, v)} } σ g σ' g' ∧
        (∀ w < 2 ^ 27, needs σ'.mem new w = touch v (needs σ.mem new) w) ∧
        ∃ p b, logical σ old v = some p ∧ logical σ' new v = some ⟨p.perms, b⟩ ∧
          ∀ q, Paged σ g q → Paged σ' g' (copyPage old new v (needs σ.mem new v) q) ∧
            b = if q.victim = some (old, v) then junk else p.bytes

theorem PageAdded.copied {ok : Bool} {σ' : KState} {perm : Word}
    (h : PageAdded σ g new v perm b ok σ') (hp : logical σ old v = some p)
    (ho : g.role old = .root) (hv : v < uvpn) (hperm : perms perm = p.perms)
    (hA : has perm pteA = has (leaf σ.mem old v) pteA)
    (hb : ∀ q, Paged σ g q → b = if q.victim = some (old, v) then junk else p.bytes) :
    PageCopied σ g old new v ok σ' := by
  obtain ⟨g', h', -, hok⟩ := h
  refine ⟨g', h', ?_⟩
  cases ok with
  | false => exact hok
  | true =>
    obtain ⟨k, hlog, hneeds, hpg⟩ := hok
    rw [hperm] at hlog
    refine ⟨k, hneeds, p, b, hp, hlog, fun q hq => ⟨?_, hb q hq⟩⟩
    rw [copyPage, hq.used old v ho hv, ← hA]
    exact hpg q hq

/-- `kalloc` returns the frame of a user page exactly if that page is the victim. -/
theorem Allocated.victim_iff (ha : Allocated σ g (some f) σ₁) (h : Inv σ g)
    (hr : g.role old = .root) (hv : v < uvpn) {q : Pager (ℕ × ℕ)} (hq : Paged σ g q) :
    q.victim = some (old, v) ↔
      has (leaf σ.mem old v) pteV = true ∧ pte2pa (leaf σ.mem old v) = f := by
  obtain ⟨_, -, -, -, -, -, -, hp⟩ := ha
  rw [(hp q hq).2, h.user_iff hr hv]

theorem frameBytes_copy (m : Mem) (dst src : ℕ) :
    frameBytes (m.copy dst src 4096) dst = frameBytes m src := by
  funext k
  have : k.val < 4096 := k.isLt
  simp only [frameBytes, Mem.copy]
  rw [if_pos (by omega), Nat.add_sub_cancel_left]

/-- The bytes of the parent's resident page after `kalloc`, where they were. -/
theorem Allocated.resident_bytes (ha : Allocated σ g (some f) σ₁) (h : Inv σ g)
    (hr : g.role old = .root) (hv : v < uvpn) (hV : has (leaf σ.mem old v) pteV = true) :
    frameBytes σ₁.mem (pte2pa (leaf σ.mem old v)) = if pte2pa (leaf σ.mem old v) = f then junk
      else frameBytes σ.mem (pte2pa (leaf σ.mem old v)) := by
  have hpa := ((h.pteOk hr hv).valid hV).2.2
  have hnt := (ha.not_table rfl).1
  obtain ⟨g₁, h1, hrole, -, hjunk, k1, -⟩ := ha
  split
  case isTrue hf => rw [hf]; exact hjunk
  case isFalse hf =>
    have hrf : old ∉ ({f} : Set ℕ) := by rintro rfl; rw [hr] at hnt; cases hnt
    have hpa1 : g₁.role (pte2pa (leaf σ.mem old v)) = .user old v := by
      rw [hrole, Ghost.setRole_of_ne _ _ hf, hpa]
    obtain ⟨hV1, he⟩ := (h1.user_iff ((k1.root old hrf).2 hr) hv).1 hpa1
    have hlog := k1.page old v hr hrf hv (notMem_empty _)
    rw [logical, logical, pageOf_valid hV, pageOf_valid hV1, he] at hlog
    injection hlog with hlog
    injection hlog

/-- The bytes of the parent's swapped page after `kalloc`. -/
theorem Allocated.swapped_bytes (ha : Allocated σ g (some f) σ₁) (h : Inv σ g)
    (hr : g.role old = .root) (hv : v < uvpn) (hV : has (leaf σ.mem old v) pteV = false)
    (hS : has (leaf σ.mem old v) pteSwapped = true) :
    slotBytes σ₁.disk (pteSlot (leaf σ.mem old v)) =
      slotBytes σ.disk (pteSlot (leaf σ.mem old v)) := by
  have hs := ((h.pteOk hr hv).swapped hV hS).2
  have hnt := (ha.not_table rfl).1
  obtain ⟨g₁, h1, -, hslot, -, k1, -⟩ := ha
  have hrf : old ∉ ({f} : Set ℕ) := by rintro rfl; rw [hr] at hnt; cases hnt
  have hs1 : g₁.slot (pteSlot (leaf σ.mem old v)) = .page old v := by
    rw [hslot _ (by rw [hs]; simp), hs]
  obtain ⟨hV1, hS1, he⟩ := (h1.slot_iff ((k1.root old hrf).2 hr) hv).1 hs1
  have hlog := k1.page old v hr hrf hv (notMem_empty _)
  rw [logical, logical, pageOf_swapped hV hS, pageOf_swapped hV1 hS1, he] at hlog
  injection hlog with hlog
  injection hlog

theorem perms_pteFlags (e : Word) : perms (pteFlags e) = perms e :=
  perms_congr fun i _ h2 => getLsbD_pteFlags e (by omega)

section

variable (h : Inv σ g) (ho : g.role old = .root) (hn : g.role new = .root) (hv : v < uvpn)
  (h0 : leaf σ.mem new v = 0)
include h ho hn hv h0

theorem uvmcopy_resident (hV : has (leaf σ.mem old v) pteV = true) : Ensures ((do
        match ← kalloc with
        | none => pure false
        | some mem => do
          K.memmove mem (pte2pa (leaf σ.mem old v))
          installPage new (v * 4096) mem (pteFlags (leaf σ.mem old v)) : K Bool) σ)
      (PageCopied σ g old new v) fun _ => False := by
  obtain ⟨hS, hR, -⟩ := (h.pteOk ho hv).valid hV
  refine (kalloc_spec h).bind ?_
  rintro (_ | f) σ₁ ha
  · obtain ⟨g₁, h1, -, -, k1⟩ := ha
    exact ⟨g₁, h1, k1⟩
  · have hbytes := ha.resident_bytes h ho hv hV
    obtain ⟨g₁, hh⟩ := ha.held h
    have hm := Mem.sameOutside_copy σ₁.mem f (pte2pa (leaf σ.mem old v)) 4096
    obtain ⟨h2, k2⟩ := hh.inv.writeKern hh.kern hm
    refine ((hh.fill h2 k2 hm rfl).installPage_spec h hn hv h0 (isFlags_pteFlags _)
      (by rw [has_pteR] at hR ⊢; rw [getLsbD_pteFlags _ (by decide), hR])
      (by rw [has_pteSwapped] at hS ⊢; rw [getLsbD_pteFlags _ (by decide), hS])).imp
      fun ok σ₃ hσ₃ => hσ₃.copied (pageOf_valid hV) ho hv (perms_pteFlags _)
        (by rw [has_pteA, has_pteA, getLsbD_pteFlags _ (by decide)]) fun q hq => ?_
    rw [frameBytes_copy, hbytes]
    exact if_congr ((ha.victim_iff h ho hv hq).trans (and_iff_right hV)).symm rfl rfl

theorem uvmcopy_swapped (hV : has (leaf σ.mem old v) pteV = false)
    (hS : has (leaf σ.mem old v) pteSwapped = true) : Ensures ((do
        match ← kalloc with
        | none => pure false
        | some mem => do
          swapread mem (pteSlot (leaf σ.mem old v))
          installPage new (v * 4096) mem
            ((pteFlags (leaf σ.mem old v) &&& ~~~pteSwapped) ||| pteV) : K Bool) σ)
      (PageCopied σ g old new v) fun _ => False := by
  obtain ⟨hR, hs⟩ := (h.pteOk ho hv).swapped hV hS
  have hbit : ∀ {i}, i < 10 → ((pteFlags (leaf σ.mem old v) &&& ~~~pteSwapped) ||| pteV).getLsbD i =
      (((leaf σ.mem old v).getLsbD i && !decide (i = 9)) || decide (i = 0)) := fun {i} hi => by
    rw [BitVec.getLsbD_or, getLsbD_clearSwapped _ hi]
    rw [show pteV = 1#64 <<< 0 from rfl, getLsbD_one_shiftLeft (by decide)]
  have hperms : perms ((pteFlags (leaf σ.mem old v) &&& ~~~pteSwapped) ||| pteV) =
      perms (leaf σ.mem old v) := perms_congr fun i h1 h2 => by
    rw [hbit (by omega)]; simp [show i ≠ 9 by omega, show i ≠ 0 by omega]
  refine (kalloc_spec h).bind ?_
  rintro (_ | f) σ₁ ha
  · obtain ⟨g₁, h1, -, -, k1⟩ := ha
    exact ⟨g₁, h1, k1⟩
  · have hbytes := ha.swapped_bytes h ho hv hV hS
    obtain ⟨g₁, hh⟩ := ha.held h
    refine (swapread_spec hh.inv hh.kern (h.slots.range _ (by rw [hs]; simp))).bind ?_
    rintro - σ₂ ⟨h2, k2, hcont, m₂, n, rfl, hm⟩
    refine ((hh.fill h2 k2 hm rfl).installPage_spec h hn hv h0
      (((isFlags_pteFlags _).and_left _).or isFlags_pteV) ?_ ?_).imp fun ok σ₃ hσ₃ =>
        hσ₃.copied (pageOf_swapped hV hS) ho hv hperms ?_ fun q hq => ?_
    · rw [has_pteR] at hR ⊢
      rw [hbit (by decide), hR]; rfl
    · rw [has_pteSwapped, hbit (by decide)]; simp
    · rw [has_pteA, has_pteA, hbit (by decide)]; simp
    · rw [hcont, hbytes, if_neg]
      rw [ha.victim_iff h ho hv hq, hV]
      simp

/-- **One iteration of `uvmcopy`.** -/
theorem uvmcopyPage_spec : Ensures (uvmcopyPage old new (v * 4096) σ) (PageCopied σ g old new v)
    fun _ => logical σ old v = none := by
  rw [uvmcopyPage, Run.bind_ok (walk_false_apply (vaddr_lt hv) σ)]
  cases ha : entry σ.mem old (v * 4096) with
  | none =>
    refine (h.leaf_eq_zero_iff ho hv).1 ?_
    rw [leaf, ha]
  | some a =>
    simp only [K.load, Run.bind_read, ← Tree.leaf_of_entry ha]
    cases hV : has (leaf σ.mem old v) pteV with
    | true =>
      simp only [if_true]
      exact (uvmcopy_resident h ho hn hv h0 hV).weaken
    | false =>
      cases hS : has (leaf σ.mem old v) pteSwapped with
      | true =>
        simp only [Bool.false_eq_true, if_false, if_true]
        exact (uvmcopy_swapped h ho hn hv h0 hV hS).weaken
      | false => exact pageOf_eq_none_iff.2 ⟨hV, hS⟩

end

/-! ### The whole table -/

/-- No page is evicted for its own copy, unless it holds only 5s: `k` pages with the contents `L`
are copied from page `v` on, and the copy of page `w` takes `n w` page-table pages. -/
def CopySafe (L : ℕ → Option LPage) (old new : ℕ) : ℕ → ℕ → Pager (ℕ × ℕ) → (ℕ → ℕ) → Prop
  | 0, _, _, _ => True
  | k + 1, v, p, n => (p.victim = some (old, v) → ∀ q ∈ L v, ∀ i, q.bytes i = 5) ∧
      CopySafe L old new k (v + 1) (copyPage old new v (n v) p) (touch v n)

instance (L : ℕ → Option LPage) (old new : ℕ) : ∀ k v p n, Decidable (CopySafe L old new k v p n)
  | 0, _, _, _ => isTrue trivial
  | k + 1, v, p, n =>
    have := instDecidableCopySafe L old new k (v + 1) (copyPage old new v (n v) p) (touch v n)
    inferInstanceAs (Decidable (_ ∧ _))

/-- What the loop of `uvmcopy` returns and does, from page `v` on. -/
def TableCopied (L : ℕ → Option LPage) (n : ℕ → ℕ) (σ : KState) (g : Ghost) (old new sz v : ℕ)
    (ret : ℤ) (σ' : KState) : Prop :=
  ∃ g', Inv σ' g' ∧
    (ret = -1 ∧ Keeps { pages := pageRange new 0 v } σ g σ' g' ∧
        (∀ w < v, leaf σ'.mem new w = 0) ∨
      ret = 0 ∧ npg sz ≤ maxPages ∧ Keeps { pages := pageRange new v (npg sz) } σ g σ' g' ∧
        (∀ w, v ≤ w → w < npg sz →
          L w ≠ none ∧ (logical σ' new w).map LPage.perms = (L w).map LPage.perms) ∧
        ∀ q, Paged σ g q → ((∀ w, v ≤ w → w < npg sz → logical σ' new w = L w) ↔
          CopySafe L old new (npg sz - v) v q n))

/-- The way back of `uvmcopy`. -/
theorem uvmcopy_undo (h : Inv σ g) (hr : g.role new = .root) (hv : v ≤ uvpn)
    (hm : ∀ w < v, logical σ new w ≠ none) : Ensures ((do
        uvmunmap new 0 (v * 4096 / pgsize) true
        pure (-1) : K ℤ) σ)
      (fun ret σ' => ret = -1 ∧ ∃ g', Inv σ' g' ∧ Keeps { pages := pageRange new 0 v } σ g σ' g' ∧
        ∀ w < v, leaf σ'.mem new w = 0) fun _ => False := by
  have hu := uvmunmap_spec h hr (v := 0) (n := v) (by omega)
  rw [Nat.zero_mul, Nat.zero_add] at hu
  rw [show v * 4096 / pgsize = v from Nat.mul_div_cancel v (by decide)]
  refine (hu.mono (fun _ _ hq => hq) ?_).bind fun _ σ' ⟨g', h', k, hz⟩ =>
    ⟨rfl, g', h', k, fun w => hz w (Nat.zero_le w)⟩
  rintro - ⟨w, -, h2, h3⟩
  exact hm w h2 h3

/-- The page of one iteration is the parent's if and only if the iteration is safe. -/
theorem copied_eq_iff {o : Option LPage} {e : Prop} [Decidable e] (hp : o = some p)
    (hb : b = if e then junk else p.bytes) :
    some ⟨p.perms, b⟩ = o ↔ (e → ∀ q ∈ o, ∀ i, q.bytes i = 5) := by
  subst hp hb
  by_cases he : e
  · rw [if_pos he]
    refine ⟨fun h _ q hq i => ?_, fun h => ?_⟩
    · cases hq
      exact (congrFun (congrArg LPage.bytes (Option.some.inj h)) i).symm
    · rw [show junk = p.bytes from funext fun i => (h he p rfl i).symm]
  · simp [he]

theorem uvmcopyLoop_spec (L : ℕ → Option LPage) (sz : ℕ) :
    ∀ (k : ℕ) (σ : KState) (g : Ghost) (v : ℕ) (n : ℕ → ℕ), Inv σ g →
    g.role old = .root → g.role new = .root → v ≤ uvpn → v ≤ npg sz → npg sz < v + k →
    (∀ w < v, logical σ new w ≠ none) → (∀ w, v ≤ w → w < uvpn → leaf σ.mem new w = 0) →
    (∀ w, v ≤ w → w < uvpn → logical σ old w = L w) → (∀ w < 2 ^ 27, needs σ.mem new w = n w) →
    Ensures (uvmcopyLoop old new sz k (v * 4096) σ) (TableCopied L n σ g old new sz v)
      fun _ => ∃ w, v ≤ w ∧ w < npg sz ∧ w < uvpn ∧ L w = none := by
  intro k
  induction k with
  | zero => intro σ g v _ _ _ _ _ h1 h2; omega
  | succ k ih =>
    intro σ g v n h ho hn hvu hvn hk hm hz hL hneeds
    have hcount : v ≤ maxPages := h.count_le hn (a := 0) (by omega) fun w _ hw' => hm w (by omega)
    have hu : uvpn = 67108862 := rfl
    have hvlt : v + 1 < uvpn := by
      have h1 : maxPages = 39768 := rfl
      omega
    rw [uvmcopyLoop, Run.ite_apply]
    split
    case isFalse hlt =>
      have hvn' : v = npg sz := by simp only [npg] at *; omega
      refine ⟨g, h, .inr ⟨rfl, by omega, Keeps.refl _ _ _, fun w h1 h2 => by omega, fun q _ => ?_⟩⟩
      rw [hvn', Nat.sub_self]
      exact iff_of_true (fun w h1 h2 => by omega) trivial
    case isTrue hlt =>
      have hvn' : v < npg sz := by simp only [npg] at *; omega
      have ha : (v * 4096 + pgsize) % 2 ^ 64 = (v + 1) * 4096 := by simp only [pgsize]; omega
      have hnt := notMem_empty new
      have hv0 := hz v (le_refl _) (by omega)
      refine ((uvmcopyPage_spec h ho hn (by omega) hv0).mono (fun _ _ hq => hq) fun e he =>
        ⟨v, le_refl _, hvn', by omega, by rw [← hL v (le_refl _) (by omega)]; exact he⟩).bind ?_
      rintro (_ | _) σ₁ ⟨g₁, h1, hσ₁⟩
      · refine ((uvmcopy_undo h1 ((hσ₁.root new hnt).2 hn) hvu fun w hw => ?_).imp ?_).weaken
        · rw [hσ₁.page new w hn hnt (by omega) (notMem_empty _)]
          exact hm w hw
        · rintro _ σ₂ ⟨rfl, g₂, h2, k2, hz2⟩
          exact ⟨g₂, h2, .inl ⟨rfl, (hσ₁.mono_empty _).trans k2, hz2⟩⟩
      · obtain ⟨k1, hneeds1, p, b, hp, hlog, hq1⟩ := hσ₁
        have hn1 := (k1.root new hnt).2 hn
        rw [if_pos rfl, ha]
        refine (ih σ₁ g₁ (v + 1) (touch v n) h1 ((k1.root old (notMem_empty _)).2 ho) hn1 (by omega)
          hvn' (by omega) (fun w hw => ?_) (fun w hw hw' => ?_) (fun w hw hw' => ?_)
          fun w hw => ?_).mono ?_ ?_
        · rcases Nat.lt_succ_iff_lt_or_eq.1 hw with hw | rfl
          · rw [k1.page new w hn hnt (by omega) (notMem_single (by omega))]
            exact hm w hw
          · simp [hlog]
        · exact k1.leaf_zero h h1 hn hnt (notMem_single (by omega)) (lt_trans hw' (by decide))
            (hz w (by omega) hw')
        · rw [k1.page old w ho (notMem_empty _) hw' fun hx => by cases hx; omega]
          exact hL w (by omega) hw'
        · simp only [hneeds1 w hw, touch, hneeds w hw]
        rotate_left
        · rintro e ⟨w, h3, h4⟩
          exact ⟨w, by omega, h4⟩
        rintro ret σ₂ ⟨g₂, h2, ⟨rfl, k2, hz2⟩ | ⟨rfl, hmax, k2, hperm, hiff⟩⟩
        · exact ⟨g₂, h2, .inl ⟨rfl, k1.undoRange k2 h (zero_le v) (by omega) hv0
            (hz2 v (lt_succ_self v)), fun w hw => hz2 w (by omega)⟩⟩
        · rw [← k2.page new v hn1 hnt (by omega) fun hx =>
            absurd (mem_pageRange.1 hx).2.1 (by omega)] at hlog
          rw [hL v (le_refl _) (by omega)] at hp
          refine ⟨g₂, h2, .inr ⟨rfl, hmax, k1.consRange k2 hvn', fun w h3 h4 => ?_, fun q hq => ?_⟩⟩
          · rcases eq_or_lt_of_le h3 with rfl | h3
            · rw [hlog, hp]
              exact ⟨by simp, rfl⟩
            · exact hperm w h3 h4
          · obtain ⟨hq2, hb⟩ := hq1 q hq
            rw [hneeds v (by omega)] at hq2
            rw [show npg sz - v = npg sz - (v + 1) + 1 by omega, CopySafe, ← hiff _ hq2,
              ← copied_eq_iff hp hb, ← hlog]
            refine ⟨fun hall => ⟨hall v (le_refl _) hvn', fun w h3 h4 => hall w (by omega) h4⟩,
              fun hall w h3 h4 => ?_⟩
            rcases eq_or_lt_of_le h3 with rfl | h3
            · exact hall.1
            · exact hall.2 w h3 h4

/-- The copy made by `uvmcopy` will be faithful. -/
abbrev CopiesFaithfully (σ : KState) (old new sz : ℕ) : Prop :=
  CopySafe (logical σ old) old new (npg sz) 0 (pagerOf σ) (needs σ.mem new)

/-- **`uvmcopy`** into an empty table. -/
theorem uvmcopy_spec (h : Inv σ g) (ho : g.role old = .root) (hn : g.role new = .root) (sz : ℕ)
    (hz : ∀ v < uvpn, leaf σ.mem new v = 0) :
    Ensures (uvmcopy old new sz σ) (fun ret σ' => ∃ g', Inv σ' g' ∧ (ret = -1 ∧ Keeps {} σ g σ' g' ∨
        ret = 0 ∧ npg sz ≤ maxPages ∧ Keeps { pages := pageRange new 0 (npg sz) } σ g σ' g' ∧
        (∀ v < npg sz, logical σ old v ≠ none ∧
          (logical σ' new v).map LPage.perms = (logical σ old v).map LPage.perms) ∧
        ((∀ v < npg sz, logical σ' new v = logical σ old v) ↔ CopiesFaithfully σ old new sz)))
      fun _ => ∃ v < npg sz, v < uvpn ∧ logical σ old v = none := by
  refine (uvmcopyLoop_spec (logical σ old) sz (sz / pgsize + 2) σ g 0 (needs σ.mem new) h ho hn
    (zero_le _) (zero_le _) (by simp only [npg, pgsize]; omega) (fun w hw => absurd hw (by omega))
    (fun w _ hw => hz w hw) (fun _ _ _ => rfl) fun _ _ => rfl).mono ?_ fun e ⟨w, _, h2⟩ => ⟨w, h2⟩
  rintro ret σ' ⟨g', h', ⟨rfl, k, -⟩ | ⟨rfl, hmax, k, hperm, hiff⟩⟩
  · refine ⟨g', h', .inl ⟨rfl, k.shrinkPages fun r' w hw => ?_⟩⟩
    exact absurd (mem_pageRange.1 hw).2.2 (by omega)
  · refine ⟨g', h', .inr ⟨rfl, hmax, k, fun v => hperm v (zero_le v), ?_⟩⟩
    have hiff := hiff _ h.paged
    rw [Nat.sub_zero] at hiff
    exact ⟨fun hx => hiff.1 fun w _ => hx w, fun hx w => hiff.2 hx w (zero_le w)⟩

end Xv6Swap
