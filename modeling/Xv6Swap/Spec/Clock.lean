import Xv6Swap.Spec.Slot
import Xv6Swap.Lib.Pager
import Mathlib.Data.List.TakeWhile
import Mathlib.Data.List.Perm.Subperm
import Mathlib.Data.Finset.Card

/-!
# Second-chance replacement

The order in which `swapout` chooses its victims, from the LRU list and the reverse map alone: all
that is needed of the page tables is that `walk` looks only at the valid bit and the address of an
entry, so that clearing accessed bits misleads no later `walk`.

* `ClockList` : the invariant of the LRU list;
* `clock_chance` : the search spares the pages in front that were accessed, clears their bits and
  moves them to the end;
* `swapoutSelect_victim`, `swapout_full` : the list after the victim is unlinked, and after it has
  been put back because no slot is free;
* `Inv.clockList` : the invariant of the memory system implies it;
* `pagerOf`, `Paged` : the free frames, the list and the accessed bits are a pager.
-/

namespace Xv6Swap

open Mem List Run

variable {σ σ' σ'' : KState} {l l₁ l₂ t spared : List ℕ} {i a c r va k v : ℕ} {m : Mem} {g : Ghost}

/-- The address of the entry that the reverse map of a page names. -/
def pteAddr (σ : KState) (i : ℕ) : Option ℕ := entry σ.mem (σ.pages i).pagetable (σ.pages i).vaddr

/-- The accessed bit of a page. -/
def used (σ : KState) (i : ℕ) : Bool := (pteAddr σ i).any fun a => has (σ.mem.load64 a) pteA

/-- **The invariant of the LRU list**: the pointers form the circular list `l`, and the reverse map
of each page on it names a valid entry that maps its frame. -/
structure ClockList (σ : KState) (l : List ℕ) : Prop where
  ring : LruRing σ.pages σ.lruHead σ.lruTail l
  lt : ∀ i ∈ l, i < npages
  aligned : ∀ i ∈ l, (σ.pages i).pagetable % 8 = 0
  range : ∀ i ∈ l, (σ.pages i).vaddr < maxva
  mapped : ∀ i ∈ l, ∃ a, pteAddr σ i = some a ∧ has (σ.mem.load64 a) pteV = true ∧
    pte2pa (σ.mem.load64 a) = pageToPa i

/-- The accessed bits of the pages of `l` have been cleared, and nothing else has been written. -/
structure BitsCleared (σ : KState) (l : List ℕ) (σ' : KState) : Prop where
  bits : ∀ i ∈ l, ∀ a, pteAddr σ i = some a → σ'.mem.load64 a = σ.mem.load64 a &&& ~~~pteA
  rest : ∀ x, (∀ i ∈ l, ∀ a, pteAddr σ i = some a → x < a ∨ a + 8 ≤ x) → σ'.mem x = σ.mem x

/-! ### Walks past accessed bits -/

theorem entry_mod (h : entry m r va = some a) : a % 8 = 0 := by
  rw [entry] at h
  split at h
  · split at h
    · cases h
      have := pte2pa_mod (m.load64 (pte2pa (m.load64 (r + 8 * px 2 va)) + 8 * px 1 va))
      omega
    · cases h
  · cases h

/-- `walk` looks only at the valid bits and the addresses of the entries. -/
theorem entry_congr {m' : Mem} (hr : r % 8 = 0)
    (h : ∀ b, b % 8 = 0 → has (m'.load64 b) pteV = has (m.load64 b) pteV ∧
      pte2pa (m'.load64 b) = pte2pa (m.load64 b)) : entry m' r va = entry m r va := by
  have h2 := h (r + 8 * px 2 va) (by omega)
  have hmod := pte2pa_mod (m.load64 (r + 8 * px 2 va))
  have h1 := h (pte2pa (m.load64 (r + 8 * px 2 va)) + 8 * px 1 va) (by omega)
  rw [entry, entry, h2.1, h2.2, h1.1, h1.2]

theorem load64_clear (ha : a % 8 = 0) {b : ℕ} (hb : b % 8 = 0) :
    (m.store64 a (m.load64 a &&& ~~~pteA)).load64 b =
      if b = a then m.load64 b &&& ~~~pteA else m.load64 b := by
  split
  case isTrue h => rw [h, load64_store64_self]
  case isFalse h => exact load64_store64_of_ne _ ha hb (Ne.symm h)

theorem has_clear {e : Word} (hk : k < 64) (hne : k ≠ 6) :
    (e &&& ~~~pteA).getLsbD k = e.getLsbD k := by
  rw [show pteA = 1#64 <<< 6 from rfl, getLsbD_and_not_one_shiftLeft _ (by omega) hk]
  simp [hne]

theorem entry_clear (ha : a % 8 = 0) (hr : r % 8 = 0) :
    entry (m.store64 a (m.load64 a &&& ~~~pteA)) r va = entry m r va := by
  refine entry_congr hr fun b hb => ?_
  rw [load64_clear ha hb]
  split
  · rw [has_pteV, has_pteV, has_clear (by omega) (by omega)]
    exact ⟨rfl, pte2pa_clear _ (k := 6) (by omega)⟩
  · exact ⟨rfl, rfl⟩

/-- The page `c`, whose entry is at `a`, gets a second chance: its accessed bit is cleared, and it
goes to the end of the list. -/
def spareState (σ : KState) (c a : ℕ) : KState :=
  { σ with
    mem := σ.mem.store64 a (σ.mem.load64 a &&& ~~~pteA)
    lruHead := (σ.pages c).next
    lruTail := some c }

theorem mem_spare : (spareState σ c a).mem = σ.mem.store64 a (σ.mem.load64 a &&& ~~~pteA) := rfl

theorem pteAddr_spare (ha : pteAddr σ c = some a) (hi : (σ.pages i).pagetable % 8 = 0) :
    pteAddr (spareState σ c a) i = pteAddr σ i :=
  entry_clear (entry_mod ha) hi

namespace ClockList

theorem addr_mod (h : pteAddr σ i = some a) : a % 8 = 0 := entry_mod h

theorem addr_ne (h : ClockList σ l) {j b : ℕ} (hi : i ∈ l) (hj : j ∈ l) (hne : i ≠ j)
    (ha : pteAddr σ i = some a) (hb : pteAddr σ j = some b) : a ≠ b := by
  rintro rfl
  obtain ⟨a', ha', -, hpa⟩ := h.mapped i hi
  obtain ⟨b', hb', -, hpb⟩ := h.mapped j hj
  rw [ha] at ha'
  rw [hb] at hb'
  cases ha'
  cases hb'
  rw [hpa] at hpb
  simp only [pageToPa, pgsize] at hpb
  omega

variable (h : ClockList σ (c :: l)) (ha : pteAddr σ c = some a)
include h ha

/-- **A page is given a second chance.** -/
theorem spare : ClockList (spareState σ c a) (l ++ [c]) := by
  have hmod := addr_mod ha
  have hmem : ∀ {i}, i ∈ l ++ [c] → i ∈ c :: l := fun hi => by simpa [or_comm] using hi
  refine ⟨h.ring.rotate, fun i hi => h.lt i (hmem hi), fun i hi => h.aligned i (hmem hi),
    fun i hi => h.range i (hmem hi), fun i hi => ?_⟩
  obtain ⟨b, hb, hV, hpa⟩ := h.mapped i (hmem hi)
  refine ⟨b, (pteAddr_spare ha (h.aligned i (hmem hi))).trans hb, ?_⟩
  rw [mem_spare, load64_clear hmod (addr_mod hb)]
  split
  · rw [has_pteV, has_clear (by omega) (by omega), ← has_pteV]
    exact ⟨hV, (pte2pa_clear _ (k := 6) (by omega)).trans hpa⟩
  · exact ⟨hV, hpa⟩

theorem used_spare_self : used (spareState σ c a) c = false := by
  rw [used, pteAddr_spare ha (h.aligned c mem_cons_self), ha, Option.any_some, mem_spare,
    load64_clear (addr_mod ha) (addr_mod ha), if_pos rfl, has_pteA,
    show pteA = 1#64 <<< 6 from rfl, getLsbD_and_not_one_shiftLeft _ (by omega) (by omega)]
  simp

theorem used_spare_of_mem (hi : i ∈ l) : used (spareState σ c a) i = used σ i := by
  have hi' : i ∈ c :: l := mem_cons_of_mem _ hi
  obtain ⟨b, hb, -⟩ := h.mapped i hi'
  have hne : c ≠ i := by
    rintro rfl
    exact (nodup_cons.1 h.ring.nodup).1 hi
  rw [used, used, pteAddr_spare ha (h.aligned i hi'), hb, Option.any_some, Option.any_some,
    mem_spare, load64_clear (addr_mod ha) (addr_mod hb),
    if_neg fun he => h.addr_ne mem_cons_self hi' hne ha hb he.symm]

end ClockList

theorem BitsCleared.refl (σ : KState) : BitsCleared σ [] σ where
  bits _ hi := by cases hi
  rest _ _ := rfl

/-- One page more in front of those spared afterwards. -/
theorem BitsCleared.cons (h : ClockList σ (c :: l)) (ha : pteAddr σ c = some a)
    (ht : t ⊆ l) (hs : BitsCleared (spareState σ c a) t σ') : BitsCleared σ (c :: t) σ' := by
  have hmod := ClockList.addr_mod ha
  have hin : ∀ {i}, i ∈ t → i ∈ c :: l := fun hi => mem_cons_of_mem _ (ht hi)
  have hne : ∀ {i}, i ∈ t → c ≠ i := fun hi he =>
    (nodup_cons.1 h.ring.nodup).1 (he ▸ ht hi)
  have hσ : ∀ {i}, i ∈ t → pteAddr (spareState σ c a) i = pteAddr σ i := fun hi =>
    pteAddr_spare ha (h.aligned _ (hin hi))
  constructor
  · intro i hi b hb
    rcases mem_cons.1 hi with rfl | hi
    · obtain rfl : a = b := Option.some.inj (ha.symm.trans hb)
      have hkeep : AgreeOn (spareState σ i a).mem σ'.mem a 8 := fun x h1 h2 => by
        refine hs.rest x fun j hj d hd => ?_
        rw [hσ hj] at hd
        have hne' := h.addr_ne mem_cons_self (hin hj) (hne hj) ha hd
        have := ClockList.addr_mod hd
        omega
      rw [load64_congr hkeep, mem_spare, load64_store64_self]
    · have hne' := h.addr_ne mem_cons_self (hin hi) (hne hi) ha hb
      rw [hs.bits i hi b ((hσ hi).trans hb), mem_spare,
        load64_clear hmod (ClockList.addr_mod hb), if_neg fun he => hne' he.symm]
  · intro x hx
    rw [hs.rest x fun i hi b hb => hx i (mem_cons_of_mem _ hi) b (hσ hi ▸ hb), mem_spare]
    exact sameOutside_store64 _ _ _ x (hx c mem_cons_self a ha)

/-! ### The search -/

/-- The pages of `l` get a second chance, one after the other. -/
def spareAll (σ : KState) (l : List ℕ) : KState :=
  l.foldl (fun σ c => spareState σ c ((pteAddr σ c).getD 0)) σ

theorem spareAll_cons (ha : pteAddr σ c = some a) (l : List ℕ) :
    spareAll σ (c :: l) = spareAll (spareState σ c a) l := by
  rw [spareAll, foldl_cons, ha]
  rfl

/-- The state has turned the list and written to memory. -/
def Turned (σ σ' : KState) : Prop :=
  ∃ m' head' tail', σ' = { σ with mem := m', lruHead := head', lruTail := tail' }

theorem turned_spareAll (l : List ℕ) : ∀ σ, Turned σ (spareAll σ l) := by
  induction l with
  | nil => exact fun σ => ⟨_, _, _, rfl⟩
  | cons c l ih =>
    intro σ
    obtain ⟨m', head', tail', h⟩ := ih (spareState σ c ((pteAddr σ c).getD 0))
    exact ⟨m', head', tail', h⟩

theorem ClockList.spareAll : ∀ {l₁ l₂ : List ℕ} {σ : KState}, ClockList σ (l₁ ++ l₂) →
    ClockList (spareAll σ l₁) (l₂ ++ l₁) ∧ BitsCleared σ l₁ (spareAll σ l₁) := by
  intro l₁
  induction l₁ with
  | nil => exact fun {l₂} _ h => ⟨by rw [append_nil]; exact h, .refl _⟩
  | cons c l₁ ih =>
    intro l₂ σ h
    obtain ⟨a, ha, -⟩ := h.mapped c (by simp)
    have h1 : ClockList (spareState σ c a) (l₁ ++ (l₂ ++ [c])) := by
      rw [← append_assoc]
      exact ClockList.spare h ha
    obtain ⟨h2, hs⟩ := ih h1
    rw [spareAll_cons ha]
    exact ⟨by simpa using h2, .cons h ha (subset_append_left l₁ l₂) hs⟩

theorem takeWhile_congr {p q : ℕ → Bool} (h : ∀ i ∈ l, p i = q i) :
    l.takeWhile p = l.takeWhile q ∧ l.dropWhile p = l.dropWhile q := by
  induction l with
  | nil => exact ⟨rfl, rfl⟩
  | cons x l ih =>
    obtain ⟨h1, h2⟩ := ih fun i hi => h i (mem_cons_of_mem _ hi)
    simp only [takeWhile_cons, dropWhile_cons, h x mem_cons_self, h1, h2, and_self]

/-- **The search spares the pages in front that were accessed.**  The pages of `l₂` have been
examined before; one examination is made for each page of `l₁`, and at most one more. -/
theorem clock_chance : ∀ (l₁ l₂ : List ℕ) (σ : KState) (c : ℕ), ClockList σ (l₁ ++ l₂) →
    (∀ i ∈ l₂, used σ i = false) → (l₁ ++ l₂).head? = some c →
    ∃ v, clock (l₁.length + 1) c σ = .ok (v, spareAll σ (l₁.takeWhile (used σ))) ∧
      (l₁.dropWhile (used σ) ++ l₂ ++ l₁.takeWhile (used σ)).head? = some v := by
  intro l₁
  induction l₁ with
  | nil =>
    -- every page has been examined: the first one is the victim
    intro l₂ σ c h hun hhead
    have hmem : c ∈ [] ++ l₂ := mem_of_mem_head? hhead
    obtain ⟨a, ha, hV, -⟩ := h.mapped c hmem
    have hA : has (σ.mem.load64 a) pteA = false := by
      have := hun c (by simpa using hmem)
      rwa [used, ha] at this
    refine ⟨c, ?_, by simpa using hhead⟩
    rw [clock, bind_read, bind_ok (walk0_apply (h.range c hmem) σ), ← pteAddr, ha]
    simp only [K.load, bind_read, hV, hA, Bool.not_true, Bool.false_eq_true, if_false, pure_apply]
    rfl
  | cons d l₁ ih =>
    intro l₂ σ c h hun hhead
    obtain rfl : d = c := by simpa using hhead
    have hmem : d ∈ d :: l₁ ++ l₂ := by simp
    obtain ⟨a, ha, hV, -⟩ := h.mapped d hmem
    rw [length_cons, clock, bind_read, bind_ok (walk0_apply (h.range d hmem) σ), ← pteAddr, ha]
    simp only [K.load, bind_read, hV, Bool.not_true, Bool.false_eq_true, if_false]
    cases hA : has (σ.mem.load64 a) pteA with
    | false =>
      have hu : used σ d = false := by rw [used, ha]; exact hA
      simp only [dropWhile_cons, takeWhile_cons, hu, Bool.false_eq_true, if_false, append_nil]
      exact ⟨d, rfl, rfl⟩
    | true =>
      have hu : used σ d = true := by rw [used, ha]; exact hA
      -- second chance: the page goes to the end of the list with its bit cleared
      have h1 : ClockList (spareState σ d a) (l₁ ++ (l₂ ++ [d])) := by
        rw [← append_assoc]
        exact ClockList.spare h ha
      have hrest : ∀ i ∈ l₁ ++ l₂, used (spareState σ d a) i = used σ i := fun i hi =>
        ClockList.used_spare_of_mem h ha hi
      obtain ⟨n, -, hnext⟩ := h.ring.next_mem hmem
      have hun' : ∀ i ∈ l₂ ++ [d], used (spareState σ d a) i = false := fun i hi => by
        rcases mem_append.1 hi with hi | hi
        · rw [hrest i (mem_append_right _ hi)]
          exact hun i hi
        · obtain rfl : i = d := by simpa using hi
          exact ClockList.used_spare_self h ha
      obtain ⟨v, hrun, hv⟩ :=
        ih (l₂ ++ [d]) (spareState σ d a) n h1 hun' (h1.ring.head_eq.symm.trans hnext)
      obtain ⟨htake, hdrop⟩ := takeWhile_congr (l := l₁) (p := used (spareState σ d a))
        fun i hi => hrest i (mem_append_left _ hi)
      rw [htake] at hrun hv
      rw [hdrop] at hv
      simp only [if_true, K.store, setLru, bind_modify, hnext, dropWhile_cons, takeWhile_cons, hu,
        spareAll_cons ha]
      exact ⟨v, by rw [← hrun, spareState, hnext], by simpa using hv⟩

/-- The bound on the number of examinations does not matter to a search that ends. -/
theorem clock_mono : ∀ (k : ℕ) {c : ℕ} {σ : KState}, clock k c σ = .ok (v, σ') →
    clock (k + 1) c σ = .ok (v, σ') := by
  intro k
  induction k with
  | zero => intro c σ h; cases h
  | succ k ih =>
    intro c σ h
    rw [clock, bind_read] at h ⊢
    obtain ⟨o, σ₁, hw, h⟩ := bind_eq_ok h
    rw [bind_ok hw]
    cases o with
    | none => exact h
    | some pte =>
      simp only [K.load, bind_read, Run.ite_apply] at h ⊢
      split at h
      · rename_i hV
        rw [if_pos hV]
        split at h
        · cases h
        · exact ih h
      · rename_i hV
        rw [if_neg hV]
        split at h
        · rename_i hA
          rw [if_pos hA]
          simp only [K.store, setLru, bind_modify] at h ⊢
          split at h
          · cases h
          · exact ih h
        · rename_i hA
          rw [if_neg hA]
          exact h

theorem clock_of_le {n : ℕ} (h : clock k c σ = .ok (v, σ')) (hn : k ≤ n) :
    clock n c σ = .ok (v, σ') := by
  induction hn with
  | refl => exact h
  | step _ ih => exact clock_mono _ ih

/-! ### The victim -/

/-- What the search for a victim does to the list `l`: it ends at the page of index `k`, the first
one whose accessed bit is clear, or the first one of all if every bit is set. -/
structure Chosen (σ : KState) (l : List ℕ) (k victim : ℕ) (spared : List ℕ) : Prop where
  index : l[k]? = some victim
  first : (used σ victim = false ∧ (∀ i ∈ l.take k, used σ i = true) ∧ spared = l.take k) ∨
    (k = 0 ∧ (∀ i ∈ l, used σ i = true) ∧ spared = l)

/-- The victim in terms of positions on the list. -/
theorem exists_chosen (h₁ : ∀ i ∈ l₁, used σ i = true)
    (h₂ : ∀ i ∈ l₂.head?, used σ i = false) (hv : (l₂ ++ l₁).head? = some v) :
    ∃ k, Chosen σ (l₁ ++ l₂) k v l₁ ∧
      l₂ ++ l₁ = v :: ((l₁ ++ l₂).drop (k + 1) ++ (l₁ ++ l₂).take k) := by
  cases l₂ with
  | nil =>
    rw [nil_append] at hv
    obtain ⟨t, rfl⟩ := head?_eq_some_iff.1 hv
    rw [append_nil]
    exact ⟨0, ⟨rfl, .inr ⟨rfl, h₁, rfl⟩⟩, by simp⟩
  | cons x t =>
    obtain rfl : x = v := by simpa using hv
    refine ⟨l₁.length, ⟨by simp, .inl ⟨h₂ x rfl, ?_, ?_⟩⟩, ?_⟩
    · rw [take_left]
      exact h₁
    · rw [take_left]
    · rw [take_left, ← drop_drop, drop_left]
      rfl

/-- **The search for a victim**, from the head of the list: one examination for each page, and at
most one more. -/
theorem clock_victim (h : ClockList σ l) (hc : σ.lruHead = some c) :
    ∃ k v spared σ', Chosen σ l k v spared ∧ clock (l.length + 1) c σ = .ok (v, σ') ∧
      Turned σ σ' ∧ BitsCleared σ spared σ' ∧ ClockList σ' (v :: (l.drop (k + 1) ++ l.take k)) := by
  have hl : l ++ [] = l := append_nil l
  obtain ⟨v, hrun, hv⟩ := clock_chance l [] σ c (hl.symm ▸ h)
    nofun (by rw [hl, ← h.ring.head_eq]; exact hc)
  rw [append_nil] at hv
  have hsplit : ClockList σ (l.takeWhile (used σ) ++ l.dropWhile (used σ)) := by
    rwa [takeWhile_append_dropWhile]
  obtain ⟨h', hs⟩ := hsplit.spareAll
  have hclear : ∀ i ∈ (l.dropWhile (used σ)).head?, used σ i = false := fun i hi => by
    have := head?_dropWhile_not (used σ) l
    rw [show (l.dropWhile (used σ)).head? = some i from hi] at this
    exact this
  obtain ⟨k, hk, hlist⟩ := exists_chosen (σ := σ) (fun i hi => mem_takeWhile_imp hi) hclear hv
  rw [takeWhile_append_dropWhile] at hk hlist
  exact ⟨k, v, _, _, hk, hrun, turned_spareAll _ σ, hs, hlist ▸ h'⟩

theorem ClockList.length_le (h : ClockList σ l) : l.length ≤ npages := by
  have hsub : l ⊆ List.range npages := fun i hi => List.mem_range.2 (h.lt i hi)
  simpa using (h.ring.nodup.subperm hsub).length_le

/-- The search with the bound of `swapout`. -/
theorem ClockList.clock_head (h : ClockList σ l) (hc : σ.lruHead = some c) :
    ∃ v, clock (npages + 1) c σ = .ok (v, Xv6Swap.spareAll σ (l.takeWhile (used σ))) ∧
      (l.dropWhile (used σ) ++ l.takeWhile (used σ)).head? = some v := by
  have hl : l ++ [] = l := append_nil l
  obtain ⟨v, hrun, hv⟩ := clock_chance l [] σ c (hl.symm ▸ h) nofun
    (by rw [hl, ← h.ring.head_eq]; exact hc)
  rw [append_nil] at hv
  exact ⟨v, clock_of_le hrun (Nat.succ_le_succ h.length_le), hv⟩

/-- **The victim is unlinked.** -/
theorem swapoutSelect_victim (h : ClockList σ l) (hc : σ.lruHead = some c)
    (hrun : clock (l.length + 1) c σ = .ok (v, σ')) (h' : ClockList σ' (v :: t)) :
    ∃ pages' head' tail', swapoutSelect σ =
        .ok (some v, { σ' with pages := pages', lruHead := head', lruTail := tail' }) ∧
      LruRing pages' head' tail' t ∧ SameMeta σ'.pages pages' := by
  have hfuel := clock_of_le hrun (Nat.succ_le_succ h.length_le)
  obtain ⟨⟨⟩, σ₂, hrem, pages', head', tail', rfl, hring, hmeta⟩ :=
    (lruRemove_ensures h'.ring v).exists_ok
  rw [erase_cons_head] at hring
  refine ⟨pages', head', tail', ?_, hring, hmeta⟩
  rw [swapoutSelect, bind_read, hc]
  dsimp only
  rw [bind_ok hfuel, bind_ok hrem]
  rfl

/-! ### No slot is free -/

/-- Every bit of the swap bitmap is set. -/
def SwapFull (σ : KState) : Prop :=
  ∀ s < σ.swapSlots, slotByte σ s &&& (1#8 <<< (s % 8)) ≠ 0

theorem allocSwapSlotLoop_full : ∀ n i, (∀ s, i ≤ s → s < i + n →
    slotByte σ s &&& (1#8 <<< (s % 8)) ≠ 0) → allocSwapSlotLoop n i σ = .ok (none, σ) := by
  intro n
  induction n with
  | zero => intro i _; rfl
  | succ n ih =>
    intro i hfull
    rw [allocSwapSlotLoop, bind_read, Run.ite_apply, if_neg (hfull i (by omega) (by omega))]
    exact ih (i + 1) fun s h1 h2 => hfull s (by omega) (by omega)

theorem allocSwapSlot_full (h : SwapFull σ) : allocSwapSlot σ = .ok (none, σ) := by
  rw [allocSwapSlot, bind_read]
  exact allocSwapSlotLoop_full _ 0 fun s _ hs => h s (by omega)

/-- **Without a free slot the victim goes back**, to the end of the list. -/
theorem swapout_full (hsel : swapoutSelect σ = .ok (some v, σ'))
    (hring : LruRing σ'.pages σ'.lruHead σ'.lruTail t) (hv : v ∉ t) (hfull : SwapFull σ') :
    ∃ pages' head' tail', swapout σ =
        .ok (-1, { σ' with pages := pages', lruHead := head', lruTail := tail' }) ∧
      LruRing pages' head' tail' (t ++ [v]) ∧ SameMeta σ'.pages pages' := by
  obtain ⟨⟨⟩, σ₂, hadd, pages', head', tail', rfl, hring', hmeta⟩ :=
    (lruAdd_ensures hring hv).exists_ok
  refine ⟨pages', head', tail', ?_, hring', hmeta⟩
  rw [swapout, bind_ok hsel]
  dsimp only
  rw [swapoutSlot, bind_assoc_apply, bind_ok (allocSwapSlot_full hfull)]
  dsimp only
  rw [bind_assoc_apply, bind_ok hadd]
  rfl

/-! ### The whole round -/

/-- The entries of the pages of the list are not in the swap bitmap. -/
def BitmapApart (σ : KState) (l : List ℕ) : Prop :=
  ∀ i ∈ l, ∀ a, pteAddr σ i = some a → ∀ s < σ.swapSlots,
    σ.swapBitmap + s / 8 < a ∨ a + 8 ≤ σ.swapBitmap + s / 8

theorem SwapFull.cleared (h : SwapFull σ) (hs : BitsCleared σ spared σ')
    (hsub : spared ⊆ l) (hb : BitmapApart σ l) (hbm : σ'.swapBitmap = σ.swapBitmap)
    (hn : σ'.swapSlots = σ.swapSlots) : SwapFull σ' := by
  intro s hs'
  rw [hn] at hs'
  rw [slotByte, hbm, hs.rest _ fun i hi a ha => hb i (hsub hi) a ha s hs']
  exact h s hs'

theorem Chosen.subset (h : Chosen σ l k v spared) : spared ⊆ l := by
  rcases h.first with ⟨-, -, rfl⟩ | ⟨-, -, rfl⟩
  · exact take_subset k l
  · exact Subset.refl _

/-- The victim goes back to a list without free slots: `swapout` fails. -/
theorem ClockList.swapout_full (h : ClockList σ l) (hc : σ.lruHead = some c) (hfull : SwapFull σ)
    (hapart : BitmapApart σ l) : ∃ σ', swapout σ = .ok (-1, σ') := by
  obtain ⟨k, v, spared, σ₁, hk, hrun, ⟨m', head', tail', hσ₁⟩, hs, h₁⟩ := clock_victim h hc
  obtain ⟨pages₂, head₂, tail₂, hsel, hring₂, -⟩ := swapoutSelect_victim h hc hrun h₁
  have hfull₁ : SwapFull σ₁ := hfull.cleared hs hk.subset hapart (by rw [hσ₁]) (by rw [hσ₁])
  have hv : v ∉ l.drop (k + 1) ++ l.take k := (nodup_cons.1 h₁.ring.nodup).1
  obtain ⟨pages₃, head₃, tail₃, hout, -⟩ := Xv6Swap.swapout_full hsel hring₂ hv hfull₁
  exact ⟨_, hout⟩

theorem vaddr_lt {v : ℕ} (hv : v < uvpn) : v * 4096 < maxva := by
  simp only [uvpn, trapframeVa, trampolineVa, maxva, pgsize] at *
  omega

/-- What the list and the reverse map say about a page of the LRU list. -/
theorem Inv.lru_page (h : Inv σ g) (hi : i ∈ g.lru) :
    ∃ r v a, g.role (pageToPa i) = .user r v ∧ g.role r = .root ∧ v < uvpn ∧
      (σ.pages i).pagetable = r ∧ (σ.pages i).vaddr = v * 4096 ∧
      entry σ.mem r (v * 4096) = some a ∧ σ.mem.load64 a = leaf σ.mem r v ∧
      has (leaf σ.mem r v) pteV = true ∧ pte2pa (leaf σ.mem r v) = pageToPa i := by
  obtain ⟨-, r, v, hrole, hpt, hva⟩ := h.lru.user i hi
  obtain ⟨hr, hv, hV, hpa⟩ := h.leaves.user _ r v hrole
  obtain ⟨a, ha⟩ := Tree.exists_entry_of_leaf_ne_zero (m := σ.mem) (r := r) (v := v) fun h0 => by
    rw [h0, has_zero] at hV; cases hV
  exact ⟨r, v, a, hrole, hr, hv, hpt, hva, ha, (Tree.leaf_of_entry ha).symm, hV, hpa⟩

/-- The search clears an accessed bit: the page stays the same and keeps its place on the list. -/
theorem Inv.clearAccessed (h : Inv σ g) (hr : g.role r = .root) (hv : v < uvpn) {a : ℕ}
    (ha : entry σ.mem r (v * 4096) = some a) (hV : has (leaf σ.mem r v) pteV = true) :
    Inv { σ with mem := σ.mem.store64 a (leaf σ.mem r v &&& ~~~pteA) } g ∧
      Keeps {} σ g { σ with mem := σ.mem.store64 a (leaf σ.mem r v &&& ~~~pteA) } g := by
  have hbit : ∀ i < 64, i ≠ 6 →
      (leaf σ.mem r v &&& ~~~pteA).getLsbD i = (leaf σ.mem r v).getLsbD i := fun i hi hne => by
    rw [show pteA = 1#64 <<< 6 from rfl, getLsbD_and_not_one_shiftLeft _ (by omega) hi]
    simp [hne]
  refine h.reflag hr hv ha hV ?_ ?_ ?_ (perms_congr fun i h1 h2 => hbit i (by omega) (by omega))
    (pte2pa_clear _ (k := 6) (by omega))
  · rw [has_pteV, hbit 0 (by omega) (by omega), ← has_pteV]; exact hV
  · rw [has_pteSwapped, has_pteSwapped, hbit 9 (by omega) (by omega)]
  · rw [has_pteR, has_pteR, hbit 1 (by omega) (by omega)]

/-- The invariant of the memory system gives that of the list. -/
theorem Inv.clockList (h : Inv σ g) : ClockList σ g.lru := by
  refine ⟨h.lru.ring, fun i hi => (h.lru.user i hi).1, fun i hi => ?_, fun i hi => ?_,
    fun i hi => ?_⟩
  all_goals obtain ⟨r, v, a, -, hr, hv, hpt, hva, ha, hload, hV, hpa⟩ := h.lru_page hi
  · have := (h.tree.frame_root hr).1
    rw [hpt]
    omega
  · rw [hva]
    exact vaddr_lt hv
  · exact ⟨a, by rw [pteAddr, hpt, hva, ha], by rw [hload]; exact hV, by rw [hload]; exact hpa⟩

/-! ### The pager -/

/-- The page that the reverse map names. -/
def revMap (σ : KState) (i : ℕ) : ℕ × ℕ := ((σ.pages i).pagetable, (σ.pages i).vaddr / 4096)

theorem revMap_congr (h : σ'.pages i = σ.pages i) : revMap σ' i = revMap σ i := by
  rw [revMap, revMap, h]

/-- There are `n` free frames. -/
def FreeCount (ρ : ℕ → Role) (n : ℕ) : Prop :=
  ∃ s : Finset ℕ, s.card = n ∧ ∀ f, f ∈ s ↔ ρ f = .free

section

variable {ρ : ℕ → Role} {n f : ℕ} {w : Role}

theorem FreeCount.set (h : FreeCount ρ n) (hf : ρ f ≠ .free) (hw : w ≠ .free) :
    FreeCount (Function.update ρ f w) n := by
  obtain ⟨s, rfl, hs⟩ := h
  refine ⟨s, rfl, fun x => ?_⟩
  by_cases hx : x = f
  · simp [hx, hs, hf, hw]
  · rw [Function.update_of_ne hx, hs]

theorem FreeCount.push (h : FreeCount ρ n) (hf : ρ f ≠ .free) :
    FreeCount (Function.update ρ f .free) (n + 1) := by
  obtain ⟨s, rfl, hs⟩ := h
  refine ⟨insert f s, Finset.card_insert_of_notMem fun hx => hf ((hs f).1 hx), fun x => ?_⟩
  by_cases hx : x = f
  · simp [hx]
  · rw [Function.update_of_ne hx, Finset.mem_insert, or_iff_right hx, hs]

theorem FreeCount.pop (h : FreeCount ρ n) (hf : ρ f = .free) (hw : w ≠ .free) :
    FreeCount (Function.update ρ f w) (n - 1) := by
  obtain ⟨s, rfl, hs⟩ := h
  refine ⟨s.erase f, Finset.card_erase_of_mem ((hs f).2 hf), fun x => ?_⟩
  by_cases hx : x = f
  · simp [hx, hw]
  · rw [Function.update_of_ne hx, Finset.mem_erase, and_iff_right hx, hs]

end

/-- **The memory system is the pager `p`.** -/
structure Paged (σ : KState) (g : Ghost) (p : Pager (ℕ × ℕ)) : Prop where
  free : FreeCount g.role p.free
  queue : p.queue = g.lru.map (revMap σ)
  used : ∀ r v, g.role r = .root → v < uvpn → p.used (r, v) = has (leaf σ.mem r v) pteA

variable {p : Pager (ℕ × ℕ)} {g' : Ghost}

theorem Inv.pager_used (h : Inv σ g) (hp : Paged σ g p) (hi : i ∈ g.lru) :
    p.used (revMap σ i) = used σ i := by
  obtain ⟨r, v, a, -, hr, hv, hpt, hva, ha, hload, -⟩ := h.lru_page hi
  rw [revMap, hpt, hva, Nat.mul_div_cancel _ (by decide), hp.used r v hr hv, used, pteAddr, hpt,
    hva, ha, Option.any_some, hload]

theorem Inv.revMap_eq (h : Inv σ g) (hi : i ∈ g.lru) (hf : g.role (pageToPa i) = .user r v) :
    revMap σ i = (r, v) := by
  obtain ⟨-, r', v', hrole, hpt, hva⟩ := h.lru.user i hi
  cases hf.symm.trans hrole
  rw [revMap, hpt, hva, Nat.mul_div_cancel _ (by decide)]

theorem Paged.register {f : ℕ} (hp : Paged σ g p) (h : Inv σ g) (hf : g.role f = .user r v)
    (h' : Inv σ' (g.setLru (g.lru ++ [pageIdx f]))) (hm : σ'.mem = σ.mem) :
    Paged σ' (g.setLru (g.lru ++ [pageIdx f])) (p.push (r, v)) := by
  refine ⟨hp.free, ?_, by rw [hm]; exact hp.used⟩
  have hlast : revMap σ' (pageIdx f) = (r, v) := h'.revMap_eq (mem_append_right _ mem_cons_self)
    (by rw [h.role_pageToPa (by simp [hf])]; exact hf)
  rw [Pager.push, hp.queue, Ghost.setLru, map_append, map_singleton, hlast]
  refine congrArg (· ++ _) (map_congr_left fun i hi => ?_)
  obtain ⟨-, r', v', hrole, -⟩ := h.lru.user i hi
  rw [h.revMap_eq hi hrole, h'.revMap_eq (mem_append_left _ hi) hrole]

theorem Paged.store (hp : Paged σ g p) (h : Inv σ g) (hr : g.role r = .root) (hv : v < uvpn)
    (ha : entry σ.mem r (v * 4096) = some a) (e : Word) :
    Paged { σ with mem := σ.mem.store64 a e } g
      { p with used := Function.update p.used (r, v) (has e pteA) } where
  free := hp.free
  queue := hp.queue
  used r' v' hr' hv' := by
    rw [h.leaf_store hr (lt_trans hv (by decide)) ha hr' (lt_trans hv' (by decide))]
    dsimp only
    by_cases hs : r' = r ∧ v' = v
    · obtain ⟨rfl, rfl⟩ := hs
      rw [setLeaf_self, Function.update_self]
    · rw [setLeaf_of_ne _ _ hs, Function.update_of_ne fun he => hs (Prod.mk.inj he)]
      exact hp.used r' v' hr' hv'

/-- The list, the reverse map and the entries stay. -/
theorem Paged.congr {n : ℕ} (hp : Paged σ g p) (hn : FreeCount g'.role n) (hl : g'.lru = g.lru)
    (hpages : σ'.pages = σ.pages)
    (hu : ∀ r v, g'.role r = .root → g.role r = .root ∧ leaf σ'.mem r v = leaf σ.mem r v) :
    Paged σ' g' { p with free := n } := by
  refine ⟨hn, ?_, fun r v hr hv => ?_⟩
  · rw [hl, hp.queue]
    exact map_congr_left fun i _ => (revMap_congr (by rw [hpages])).symm
  · rw [(hu r v hr).2]
    exact hp.used r v (hu r v hr).1 hv

/-- A frame that is neither free nor a root changes its role. -/
theorem Paged.setRole {f : ℕ} {w : Role} (hp : Paged σ g p) (hf : g.role f ≠ .free)
    (hw : w ≠ .free) (hw' : w ≠ .root) : Paged σ (g.setRole f w) p := by
  refine hp.congr (hp.free.set hf hw) rfl rfl fun r v hr => ⟨?_, rfl⟩
  rwa [Ghost.setRole_of_ne] at hr
  rintro rfl
  rw [Ghost.setRole_self] at hr
  exact hw' hr

/-- The number of free frames is 0 if the list is empty. -/
theorem Inv.pager_free (h : Inv σ g) (hp : Paged σ g p) : p.free = 0 ↔ σ.freelist = 0 := by
  obtain ⟨s, hs, hmem⟩ := hp.free
  obtain ⟨l, hl, -, hlist⟩ := h.free
  have hsl : ∀ x, x ∈ s ↔ x ∈ l := fun x => (hmem x).trans (hlist x).symm
  rw [← hs, Finset.card_eq_zero]
  cases l with
  | nil => exact iff_of_true (Finset.eq_empty_of_forall_notMem fun x hx => by
    simpa using (hsl x).1 hx) hl
  | cons f l =>
    refine iff_of_false (Finset.ne_empty_of_mem ((hsl f).2 mem_cons_self)) ?_
    rw [hl.1]
    exact hl.2.1

/-- Bytes of a frame that holds no table are written, and the role of the frame may change. -/
theorem Paged.frame {f n : ℕ} (hp : Paged σ g p) (h : Inv σ g) (h' : Inv σ' g')
    (hm : SameOutside σ.mem σ'.mem f 4096) (hf : g.role f ≠ .none)
    (ht : (g.role f).isTable = false) (ht' : (g'.role f).isTable = false)
    (hρ : ∀ x ≠ f, g'.role x = g.role x) (hn : FreeCount g'.role n) (hl : g'.lru = g.lru)
    (hpages : σ'.pages = σ.pages) : Paged σ' g' { p with free := n } := by
  have htab : ∀ {x w}, w.isTable = true → (g'.role x = w ↔ g.role x = w) := by
    intro x w hw
    by_cases hx : x = f
    · subst hx
      exact iff_of_false (by rintro rfl; rw [hw] at ht'; cases ht')
        (by rintro rfl; rw [hw] at ht; cases ht)
    · rw [hρ x hx]
  refine hp.congr hn hl hpages fun r v hr => ⟨(htab rfl).1 hr, h.tree.leaf_congr h'.tree
    ((htab rfl).1 hr) hr (fun _ _ _ => htab rfl) fun l i j hl => ?_⟩
  exact h.agreeOn_of_sameOutside hm hf (by simp [hl]) (by rintro rfl; rw [hl] at ht; cases ht)

/-- A page of the list is given a second chance. -/
theorem Inv.spare (h : Inv σ g) (hl : g.lru = c :: t) (ha : pteAddr σ c = some a) :
    Inv (spareState σ c a) (g.setLru (t ++ [c])) ∧
      Keeps {} σ g (spareState σ c a) (g.setLru (t ++ [c])) ∧
      ∀ p, Paged σ g p → Paged (spareState σ c a) (g.setLru (t ++ [c])) p.spare := by
  have hmem : c ∈ g.lru := by rw [hl]; exact mem_cons_self
  obtain ⟨r, v, b, -, hr, hv, hpt, hva, hb, hload, hV, -⟩ := h.lru_page hmem
  obtain rfl : b = a := by
    rw [pteAddr, hpt, hva, hb] at ha
    exact Option.some.inj ha
  obtain ⟨h1, k1⟩ := h.clearAccessed hr hv hb hV
  have hperm : (t ++ [c]).Perm g.lru := by rw [hl]; exact perm_append_singleton ..
  have hring := h.lru.ring
  rw [hl] at hring
  rw [spareState, hload]
  refine ⟨h1.lruStep ⟨hring.rotate, fun i hi => h.lru.user i (hperm.mem_iff.1 hi)⟩,
    k1.trans (h1.keepsLru _ _ _ _ ∅ fun f r v hp _ =>
      ⟨fun hx => hp.off (hperm.mem_iff.1 hx), rfl, rfl⟩), fun p hp => ?_⟩
  have hq := hp.queue
  rw [hl, map_cons] at hq
  have hA : has (leaf σ.mem r v &&& ~~~pteA) pteA = false := by
    rw [has_pteA, show pteA = 1#64 <<< 6 from rfl,
      getLsbD_and_not_one_shiftLeft _ (by omega) (by omega)]
    simp
  obtain ⟨hfree, -, hused⟩ := hp.store h hr hv hb (leaf σ.mem r v &&& ~~~pteA)
  rw [Pager.spare, hq, revMap, hpt, hva, Nat.mul_div_cancel _ (by decide), ← hA]
  exact ⟨hfree, by simp [revMap, hpt, hva], hused⟩

theorem Inv.spareAll : ∀ {l₁ l₂ : List ℕ} {σ : KState} {g : Ghost}, Inv σ g → g.lru = l₁ ++ l₂ →
    Inv (spareAll σ l₁) (g.setLru (l₂ ++ l₁)) ∧
      Keeps {} σ g (spareAll σ l₁) (g.setLru (l₂ ++ l₁)) ∧
      ∀ p, Paged σ g p → Paged (spareAll σ l₁) (g.setLru (l₂ ++ l₁))
      (Pager.spare^[l₁.length] p) := by
  intro l₁
  induction l₁ with
  | nil =>
    intro l₂ σ g h hl
    rw [append_nil, show g.setLru l₂ = g by rw [show l₂ = g.lru from hl.symm]]
    exact ⟨h, Keeps.refl .., fun p hp => hp⟩
  | cons c l₁ ih =>
    intro l₂ σ g h hl
    obtain ⟨a, ha, -⟩ := h.clockList.mapped c (by rw [hl]; simp)
    obtain ⟨h1, k1, hp1⟩ := h.spare hl ha
    obtain ⟨h2, k2, hp2⟩ := ih h1 (append_assoc l₁ l₂ [c])
    rw [append_assoc] at h2 k2 hp2
    rw [spareAll_cons ha]
    exact ⟨h2, k1.trans k2, fun p hp => hp2 _ (hp1 p hp)⟩

/-- **The search gives the second chances of the pager.** -/
theorem Inv.turned (h : Inv σ g) (hp : Paged σ g p) :
    Paged (Xv6Swap.spareAll σ (g.lru.takeWhile (used σ)))
      (g.setLru (g.lru.dropWhile (used σ) ++ g.lru.takeWhile (used σ))) p.turn := by
  have hlen : (p.queue.takeWhile p.used).length = (g.lru.takeWhile (used σ)).length := by
    rw [hp.queue, takeWhile_map, length_map,
      (takeWhile_congr fun i hi => h.pager_used hp hi :
      g.lru.takeWhile (p.used ∘ revMap σ) = _ ∧ _).1]
  rw [Pager.turn, hlen]
  exact (h.spareAll (takeWhile_append_dropWhile ..).symm).2.2 p hp

/-- The length of the free list. -/
def freeFrames (m : Mem) : ℕ → ℕ → ℕ
  | 0, _ => 0
  | n + 1, f => if f = 0 then 0 else freeFrames m n (m.load64 f).toNat + 1

/-- The LRU list from `i` on. -/
def lruOrder (σ : KState) : ℕ → Option ℕ → List ℕ
  | n + 1, some i => i :: if (σ.pages i).next = σ.lruHead then [] else lruOrder σ n (σ.pages i).next
  | _, _ => []

/-- The pager that the memory system is. -/
def pagerOf (σ : KState) : Pager (ℕ × ℕ) where
  free := freeFrames σ.mem phystop σ.freelist
  queue := (lruOrder σ npages σ.lruHead).map (revMap σ)
  used x := has (leaf σ.mem x.1 x.2) pteA

theorem Chain.freeFrames_eq : ∀ {f n : ℕ}, Chain m f l → l.length ≤ n →
    freeFrames m n f = l.length := by
  induction l with
  | nil =>
    rintro f (_ | n) rfl -
    · rfl
    · rw [freeFrames, if_pos rfl, length_nil]
  | cons x l ih =>
    rintro f (_ | n) ⟨rfl, hne, hl⟩ hn
    · cases hn
    · rw [freeFrames, if_neg hne, ih hl (Nat.le_of_succ_le_succ hn), length_cons]

theorem lruOrder_eq : ∀ {t : List ℕ} {i n : ℕ},
    (i :: t).IsChain (Linked (fun i => (σ.pages i).next) fun i => (σ.pages i).prev) →
    (∀ a ∈ (i :: t).getLast?, (σ.pages a).next = σ.lruHead) → (∀ y ∈ t, some y ≠ σ.lruHead) →
    t.length < n → lruOrder σ n (some i) = i :: t := by
  intro t
  induction t with
  | nil =>
    rintro i (_ | n) - hclose - hn
    · cases hn
    · rw [lruOrder, if_pos (hclose i rfl)]
  | cons y t ih =>
    rintro i (_ | n) hchain hclose hne hn
    · cases hn
    · obtain ⟨⟨hy, -⟩, ht⟩ := isChain_cons_cons.1 hchain
      dsimp only at hy
      rw [lruOrder, hy, if_neg (hne y mem_cons_self),
        ih ht (fun a ha => hclose a (by simpa using ha))
        (fun z hz => hne z (mem_cons_of_mem _ hz)) (Nat.lt_of_succ_lt_succ hn)]

/-- **The memory system is the pager that is computed from it.** -/
theorem Inv.paged (h : Inv σ g) : Paged σ g (pagerOf σ) where
  free := by
    obtain ⟨l, hl, hnd, hmem⟩ := h.free
    have hlen : l.length ≤ phystop := by
      have hsub : l ⊆ List.range phystop := fun f hf => List.mem_range.2
        (h.isFrame (by simp [(hmem f).1 hf])).2.2
      simpa using (hnd.subperm hsub).length_le
    refine ⟨l.toFinset, ?_, fun f => List.mem_toFinset.trans (hmem f)⟩
    rw [List.toFinset_card_of_nodup hnd]
    exact (hl.freeFrames_eq hlen).symm
  queue := by
    have hlen := h.clockList.length_le
    have hring := h.lru.ring
    refine congrArg (List.map _) ?_
    generalize g.lru = l at hlen hring
    rw [hring.head_eq]
    cases l with
    | nil => rfl
    | cons c t =>
      refine lruOrder_eq hring.cyclic.chain (fun a ha => ?_) (fun y hy he => ?_) hlen
      · rw [hring.head_eq]
        exact (hring.cyclic.close a ha c rfl).1
      · rw [hring.head_eq] at he
        exact (nodup_cons.1 hring.nodup).1 (Option.some.inj he ▸ hy)
  used _ _ _ _ := rfl

/-- The page tables are not in the swap bitmap. -/
theorem Inv.bitmapApart (h : Inv σ g) : BitmapApart σ g.lru := by
  intro i hi b hb s hs
  obtain ⟨r, v, a, -, hr, hv, hpt, hva, ha, -⟩ := h.lru_page hi
  rw [pteAddr, hpt, hva, ha] at hb
  obtain rfl := Option.some.inj hb
  have hbm := (h.slots.bitmap σ.swapBitmap).2 rfl
  have hapart := h.entry_apart hr ha (x := σ.swapBitmap) (by rw [hbm]; simp) (by rw [hbm]; rfl)
  have hs' : s < 7000 := by rw [h.slots.count] at hs; exact hs
  omega

/-- A slot is free exactly if the bitmap is not full. -/
theorem Inv.swapFull_iff (h : Inv σ g) : SwapFull σ ↔ ∀ s < nslots, g.slot s ≠ .free := by
  rw [SwapFull, h.slots.count]
  exact forall₂_congr fun s hs => not_congr (h.slot_free_iff hs)

end Xv6Swap
