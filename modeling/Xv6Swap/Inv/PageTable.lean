import Xv6Swap.Kernel.Vm

/-!
# Page tables in memory

A page table is a tree of three levels of page-table pages that lives in physical memory.  This
file relates the bytes to the tree.

* `Role` says what a frame is used for; a role map gives every frame one role.
* `Tree m ρ` : the frames with table roles hold well-formed tables in the memory `m`: every entry
  of a root or middle page is zero or points to the page below it, and every page below is
  pointed to by the entry its role names.
* `entry m r va` is the pure content of `walk(r, va, 0)` (`walk0_apply`), and `leaf m r v` the
  entry of page number `v`, zero where there is none.

The operations on a tree are a store to a leaf entry (`Tree.store_leaf`, `leaf_store`), the
insertion of a page-table page (`Tree.insert`), a new root and the change of memory or roles that
leaves the tables alone (`Tree.congr`, `leaf_congr`).
-/

namespace Xv6Swap

open Function Mem

variable {f f' q k r i va : ℕ}

/-- What a frame is used for. -/
inductive Role where
  /-- Not a frame of the allocator. -/
  | none
  /-- On the free list. -/
  | free
  /-- Held by the kernel. -/
  | kern
  /-- The swap bitmap. -/
  | bitmap
  /-- The root of a page table. -/
  | root
  /-- The page of level 1 below entry `i` of the root `r`. -/
  | mid (r i : ℕ)
  /-- The page of level 0 below entries `i` and `j` of the table `r`. -/
  | low (r i j : ℕ)
  /-- User page number `v` of the table `r`. -/
  | user (r v : ℕ)
  deriving DecidableEq, Repr

/-- The roles of page-table pages. -/
def Role.isTable : Role → Bool
  | .root | .mid _ _ | .low _ _ _ => true
  | _ => false

/-- The entry that points to the page-table page `f`. -/
def pde (f : ℕ) : Word := pa2pte f ||| pteV

/-- A page-aligned physical address. -/
def IsFrame (f : ℕ) : Prop := f % 4096 = 0 ∧ 0 < f ∧ f < phystop

theorem IsFrame.lt (h : IsFrame f) : f < 2 ^ 56 := h.2.2.trans (by decide)

theorem isFlags_pteV : IsFlags pteV := by rw [IsFlags]; decide

theorem pte2pa_pde (h : IsFrame f) : pte2pa (pde f) = f :=
  pte2pa_pa2pte_or h.lt h.1 isFlags_pteV

theorem has_pde (h : IsFrame f) : has (pde f) pteV = true := by
  rw [has_pteV, pde, pa2pte_eq h.lt, getLsbD_shiftLeft_or _ _ (by decide)]
  decide

theorem pde_inj (h : IsFrame f) (h' : IsFrame f') (he : pde f = pde f') : f = f' := by
  rw [← pte2pa_pde h, he, pte2pa_pde h']

theorem pde_ne_zero (h : IsFrame f) : pde f ≠ 0 := by
  intro he
  have := has_pde h
  rw [he] at this
  exact absurd this (by decide)

theorem has_zero (w : Word) : has 0 w = false := by simp [has]

theorem IsFrame.apart (h : IsFrame f) (h' : IsFrame f') (hne : f ≠ f') :
    f + 4096 ≤ f' ∨ f' + 4096 ≤ f := by
  have := h.1; have := h'.1; omega

/-! ### The tree -/

/-- The word at `a` is zero or points to a page with the role `w`. -/
def Ent (m : Mem) (ρ : ℕ → Role) (a : ℕ) (w : Role) : Prop :=
  m.load64 a = 0 ∨ ∃ f, m.load64 a = pde f ∧ ρ f = w

/-- The role of the page that entry `k` of the page `q` points to. -/
def Role.child : Role → ℕ → ℕ → Option Role
  | .root, q, k => some (.mid q k)
  | .mid r i, _, k => some (.low r i k)
  | _, _, _ => Option.none

/-- The roles of page-table pages below the root. -/
def Role.isInner : Role → Bool
  | .mid _ _ | .low _ _ _ => true
  | _ => false

/-- **The frames with table roles hold page tables.** -/
structure Tree (m : Mem) (ρ : ℕ → Role) : Prop where
  frame : ∀ f, (ρ f).isTable = true → IsFrame f
  ent : ∀ q k w, (ρ q).child q k = some w → k < 512 → Ent m ρ (q + 8 * k) w
  back : ∀ f, (ρ f).isInner = true →
    ∃ q k, k < 512 ∧ (ρ q).child q k = some (ρ f) ∧ m.load64 (q + 8 * k) = pde f

theorem Role.child_eq_mid {w : Role} (h : w.child q k = some (.mid r i)) :
    w = .root ∧ q = r ∧ k = i := by
  cases w <;> simp_all [child]

theorem Role.child_eq_low {w : Role} {j : ℕ} (h : w.child q k = some (.low r i j)) :
    w = .mid r i ∧ k = j := by
  cases w <;> simp_all [child]

theorem Role.isTable_of_child {w w' : Role} (h : w.child q k = some w') :
    w.isTable = true ∧ w'.isInner = true := by
  cases w <;> simp_all [child, isTable]
  all_goals subst h; rfl

theorem Role.isTable_of_isInner {w : Role} (h : w.isInner = true) : w.isTable = true := by
  cases w <;> simp_all [isInner, isTable]

/-- The entry for `va` in the page table `r`: what `walk(r, va, 0)` finds. -/
def entry (m : Mem) (r va : ℕ) : Option ℕ :=
  if has (m.load64 (r + 8 * px 2 va)) pteV then
    if has (m.load64 (pte2pa (m.load64 (r + 8 * px 2 va)) + 8 * px 1 va)) pteV then
      some (pte2pa (m.load64 (pte2pa (m.load64 (r + 8 * px 2 va)) + 8 * px 1 va)) + 8 * px 0 va)
    else none
  else none

/-- The page-table entry of page number `v`, zero if there is no page of level 0 for it. -/
def leaf (m : Mem) (r v : ℕ) : Word :=
  match entry m r (v * 4096) with
  | none => 0
  | some a => m.load64 a

theorem walkLevel_false_apply (ka : K (Option ℕ)) (r va : ℕ) (σ : KState) :
    walkLevel ka va false 2 r σ = .ok (entry σ.mem r va, σ) := by
  simp only [walkLevel, K.load, entry, Run.bind_read, Run.ite_apply]
  split
  · split <;> rfl
  · rfl

theorem walk0_apply (h : va < maxva) (σ : KState) : walk0 r va σ = .ok (entry σ.mem r va, σ) := by
  rw [walk0, walkWith, if_neg (by omega), walkLevel_false_apply]

theorem walk_false_apply (h : va < maxva) (σ : KState) :
    walk r va false σ = .ok (entry σ.mem r va, σ) := by
  rw [walk, walkWith, if_neg (by omega), walkLevel_false_apply]

namespace Tree

variable {m m' : Mem} {ρ ρ' : ℕ → Role} {r r' i i' j j' l l' p p' v v' va k a : ℕ}

section

variable (T : Tree m ρ)
include T

theorem frame_root (h : ρ r = .root) : IsFrame r := T.frame r (by rw [h]; rfl)

theorem frame_mid (h : ρ p = .mid r i) : IsFrame p := T.frame p (by rw [h]; rfl)

theorem frame_low (h : ρ l = .low r i j) : IsFrame l := T.frame l (by rw [h]; rfl)

theorem rootEnt (hr : ρ r = .root) (hi : i < 512) :
    Ent m ρ (r + 8 * i) (.mid r i) := T.ent r i _ (by rw [hr]; rfl) hi

theorem midEnt (hp : ρ p = .mid r i) (hj : j < 512) :
    Ent m ρ (p + 8 * j) (.low r i j) := T.ent p j _ (by rw [hp]; rfl) hj

theorem midBack (hp : ρ p = .mid r i) : i < 512 ∧ ρ r = .root ∧ m.load64 (r + 8 * i) = pde p := by
  obtain ⟨q, k, hk, hc, he⟩ := T.back p (by rw [hp]; rfl)
  rw [hp] at hc
  obtain ⟨hq, rfl, rfl⟩ := Role.child_eq_mid hc
  exact ⟨hk, hq, he⟩

theorem lowBack (hl : ρ l = .low r i j) :
    j < 512 ∧ ∃ p, ρ p = .mid r i ∧ m.load64 (p + 8 * j) = pde l := by
  obtain ⟨q, k, hk, hc, he⟩ := T.back l (by rw [hl]; rfl)
  rw [hl] at hc
  obtain ⟨hq, rfl⟩ := Role.child_eq_low hc
  exact ⟨hk, q, hq, he⟩

theorem mid_unique (h : ρ p = .mid r i) (h' : ρ p' = .mid r i) : p = p' :=
  pde_inj (T.frame_mid h) (T.frame_mid h')
    ((T.midBack h).2.2.symm.trans (T.midBack h').2.2)

theorem low_unique (h : ρ l = .low r i j) (h' : ρ l' = .low r i j) : l = l' := by
  obtain ⟨-, p, hp, hl⟩ := T.lowBack h
  obtain ⟨-, p', hp', hl'⟩ := T.lowBack h'
  rw [T.mid_unique hp hp'] at hl
  exact pde_inj (T.frame_low h) (T.frame_low h') (hl.symm.trans hl')

theorem low_root (h : ρ l = .low r i j) : ρ r = .root ∧ i < 512 ∧ j < 512 := by
  obtain ⟨hj, p, hp, -⟩ := T.lowBack h
  obtain ⟨hi, hr, -⟩ := T.midBack hp
  exact ⟨hr, hi, hj⟩

/-- The entry that points to a page with a given role is unique. -/
theorem parent_unique {q q' k' : ℕ} {w : Role} (h : (ρ q).child q k = some w)
    (h' : (ρ q').child q' k' = some w) : q' = q ∧ k' = k := by
  cases w with
  | mid r i =>
    obtain ⟨-, rfl, rfl⟩ := Role.child_eq_mid h
    obtain ⟨-, rfl, rfl⟩ := Role.child_eq_mid h'
    exact ⟨rfl, rfl⟩
  | low r i j =>
    obtain ⟨hq, rfl⟩ := Role.child_eq_low h
    obtain ⟨hq', rfl⟩ := Role.child_eq_low h'
    exact ⟨T.mid_unique hq' hq, rfl⟩
  | _ => cases (Role.isTable_of_child h).2

/-- **`walk` finds the entry in the page of level 0 that the roles name.** -/
theorem entry_eq_some_iff (hr : ρ r = .root) :
    entry m r va = some a ↔ ∃ l, ρ l = .low r (px 2 va) (px 1 va) ∧ a = l + 8 * px 0 va := by
  have hlow : ∀ l, ρ l = .low r (px 2 va) (px 1 va) →
      ∃ p, m.load64 (r + 8 * px 2 va) = pde p ∧ IsFrame p ∧
        m.load64 (p + 8 * px 1 va) = pde l ∧ IsFrame l := by
    intro l hl
    obtain ⟨-, p, hp, hpl⟩ := T.lowBack hl
    exact ⟨p, (T.midBack hp).2.2, T.frame_mid hp, hpl, T.frame_low hl⟩
  constructor
  · intro h
    rw [entry] at h
    split at h
    · rename_i hV2
      obtain h0 | ⟨p, hp, hpr⟩ := T.rootEnt hr (px_lt 2 va)
      · rw [h0, has_zero] at hV2; exact absurd hV2 (by decide)
      · rw [hp, pte2pa_pde (T.frame_mid hpr)] at h
        split at h
        · rename_i hV1
          obtain h0 | ⟨l, hl, hlr⟩ := T.midEnt hpr (px_lt 1 va)
          · rw [h0, has_zero] at hV1; exact absurd hV1 (by decide)
          · rw [hl, pte2pa_pde (T.frame_low hlr)] at h
            exact ⟨l, hlr, (Option.some.inj h).symm⟩
        · cases h
    · cases h
  · rintro ⟨l, hl, rfl⟩
    obtain ⟨p, hp, fp, hpl, fl⟩ := hlow l hl
    simp only [entry, hp, has_pde fp, pte2pa_pde fp, hpl, has_pde fl, pte2pa_pde fl, if_true]

theorem entry_eq_none_iff (hr : ρ r = .root) :
    entry m r va = none ↔ ∀ l, ρ l ≠ .low r (px 2 va) (px 1 va) := by
  constructor
  · intro h l hl
    have := (T.entry_eq_some_iff hr).2 ⟨l, hl, rfl⟩
    rw [h] at this; cases this
  · intro h
    cases he : entry m r va with
    | none => rfl
    | some a =>
      obtain ⟨l, hl, -⟩ := (T.entry_eq_some_iff hr).1 he
      exact absurd hl (h l)

/-! ### Leaf entries -/

theorem leaf_eq (hl : ρ l = .low r (px 2 (v * 4096)) (px 1 (v * 4096))) :
    leaf m r v = m.load64 (l + 8 * px 0 (v * 4096)) := by
  rw [leaf, (T.entry_eq_some_iff (T.low_root hl).1).2 ⟨l, hl, rfl⟩]

theorem leaf_eq_zero (hr : ρ r = .root)
    (h : ∀ l, ρ l ≠ .low r (px 2 (v * 4096)) (px 1 (v * 4096))) : leaf m r v = 0 := by
  rw [leaf, (T.entry_eq_none_iff hr).2 h]

end

theorem leaf_of_entry (h : entry m r (v * 4096) = some a) : leaf m r v = m.load64 a := by
  rw [leaf, h]

/-- Where a leaf entry is not zero, `walk` finds it. -/
theorem exists_entry_of_leaf_ne_zero (h : leaf m r v ≠ 0) : ∃ a, entry m r (v * 4096) = some a := by
  rw [leaf] at h
  cases he : entry m r (v * 4096) with
  | none => rw [he] at h; exact absurd rfl h
  | some a => exact ⟨a, rfl⟩

/-- The page tables of `r` are the same pages with the same contents. -/
theorem leaf_congr (T : Tree m ρ) (T' : Tree m' ρ') (hr : ρ r = .root) (hr' : ρ' r = .root)
    (hlow : ∀ l i j, ρ' l = .low r i j ↔ ρ l = .low r i j)
    (hmem : ∀ l i j, ρ l = .low r i j → AgreeOn m m' l 4096) : leaf m' r v = leaf m r v := by
  by_cases h : ∃ l, ρ l = .low r (px 2 (v * 4096)) (px 1 (v * 4096))
  · obtain ⟨l, hl⟩ := h
    have hp := px_lt 0 (v * 4096)
    rw [T.leaf_eq hl, T'.leaf_eq ((hlow l _ _).2 hl)]
    exact load64_congr ((hmem l _ _ hl).mono (by omega) (by omega))
  · push Not at h
    rw [T.leaf_eq_zero hr h, T'.leaf_eq_zero hr' fun l hl => h l ((hlow l _ _).1 hl)]

/-- A change that leaves the table roles and the root and middle pages alone. -/
theorem congr (T : Tree m ρ) (hρ : ∀ f, (ρ f).isTable = true ∨ (ρ' f).isTable = true → ρ' f = ρ f)
    (hmem : ∀ f, ρ f = .root ∨ (∃ r i, ρ f = .mid r i) → AgreeOn m m' f 4096) : Tree m' ρ' := by
  have hof : ∀ {q k w}, (ρ' q).child q k = some w → (ρ q).child q k = some w ∧
      (ρ q = .root ∨ ∃ r i, ρ q = .mid r i) := by
    intro q k w hc
    have hq := hρ q (.inr (Role.isTable_of_child hc).1)
    rw [hq] at hc
    refine ⟨hc, ?_⟩
    cases hw : ρ q <;> rw [hw] at hc <;> simp [Role.child] at hc ⊢
  have hload : ∀ {f k}, ρ f = .root ∨ (∃ r i, ρ f = .mid r i) → k < 512 →
      m'.load64 (f + 8 * k) = m.load64 (f + 8 * k) := fun {f k} hf hk =>
    load64_congr ((hmem f hf).mono (by omega) (by omega))
  refine ⟨fun f hf => ?_, fun q k w hc hk => ?_, fun f hf => ?_⟩
  · exact T.frame f (by rw [← hρ f (.inr hf)]; exact hf)
  · obtain ⟨hc₀, hq⟩ := hof hc
    have hin := Role.isTable_of_isInner (Role.isTable_of_child hc).2
    rw [Ent, hload hq hk]
    exact (T.ent q k w hc₀ hk).imp id fun ⟨f, hf, hw⟩ =>
      ⟨f, hf, (hρ f (.inl (by rw [hw]; exact hin))).trans hw⟩
  · have hff := hρ f (.inr (Role.isTable_of_isInner hf))
    rw [hff] at hf
    obtain ⟨q, k, hk, hc, he⟩ := T.back f hf
    have hq := hρ q (.inl (Role.isTable_of_child hc).1)
    refine ⟨q, k, hk, by rw [hq, hff]; exact hc, ?_⟩
    rw [hload (hof (by rw [hq]; exact hc)).2 hk, he]

theorem low_ne (T : Tree m ρ) (hl : ρ l = .low r i j) {f : ℕ} (hf : ρ f ≠ .low r i j)
    (hff : IsFrame f) : f + 4096 ≤ l ∨ l + 4096 ≤ f :=
  hff.apart (T.frame_low hl) fun h => hf (h ▸ hl)

/-- A store to a leaf entry keeps the tables. -/
theorem store_leaf (T : Tree m ρ) (hl : ρ l = .low r i j) (hk : k < 512) (e : Word) :
    Tree (m.store64 (l + 8 * k) e) ρ := by
  refine T.congr (fun _ _ => rfl) fun f hf => agreeOn_store64 m ?_
  have hff : IsFrame f := by
    rcases hf with h | ⟨_, _, h⟩
    exacts [T.frame_root h, T.frame_mid h]
  have := T.low_ne hl (f := f) (by rcases hf with h | ⟨_, _, h⟩ <;> simp [h]) hff
  omega

end Tree

theorem px_two (v : ℕ) : px 2 (v * 4096) = v / 262144 % 512 := by
  rw [px_eq]; omega

theorem px_one (v : ℕ) : px 1 (v * 4096) = v / 512 % 512 := by
  rw [px_eq]; omega

theorem px_zero (v : ℕ) : px 0 (v * 4096) = v % 512 := by
  rw [px_eq]; omega

/-- The three indices determine the page number. -/
theorem px_inj {v v' : ℕ} (hv : v < 2 ^ 27) (hv' : v' < 2 ^ 27)
    (h₂ : px 2 (v * 4096) = px 2 (v' * 4096)) (h₁ : px 1 (v * 4096) = px 1 (v' * 4096))
    (h₀ : px 0 (v * 4096) = px 0 (v' * 4096)) : v = v' := by
  rw [px_two, px_two] at h₂
  rw [px_one, px_one] at h₁
  rw [px_zero, px_zero] at h₀
  omega

namespace Tree

variable {m m' : Mem} {ρ ρ' : ℕ → Role} {r r' i i' j j' l l' p p' v v' va g a k q : ℕ} {w : Role}

/-- **A store to the entry of one page is seen there and nowhere else.** -/
theorem leaf_store (T : Tree m ρ) (hr : ρ r = .root) (ha : entry m r (v * 4096) = some a)
    (hv : v < 2 ^ 27) (hr' : ρ r' = .root) (hv' : v' < 2 ^ 27) (e : Word) :
    leaf (m.store64 a e) r' v' = if r' = r ∧ v' = v then e else leaf m r' v' := by
  obtain ⟨l, hl, rfl⟩ := (T.entry_eq_some_iff hr).1 ha
  have hk := px_lt 0 (v * 4096)
  have T' := T.store_leaf hl hk e
  split_ifs with h
  · obtain ⟨rfl, rfl⟩ := h
    rw [T'.leaf_eq hl, load64_store64_self]
  · by_cases hl' : ∃ l', ρ l' = .low r' (px 2 (v' * 4096)) (px 1 (v' * 4096))
    · obtain ⟨l', hl'⟩ := hl'
      have hk' := px_lt 0 (v' * 4096)
      rw [T.leaf_eq hl', T'.leaf_eq hl']
      have hf := (T.frame_low hl).1
      have hf' := (T.frame_low hl').1
      refine load64_store64_of_ne m (by omega) (by omega) fun heq => h ?_
      have hll : l = l' := by omega
      have h0 : px 0 (v * 4096) = px 0 (v' * 4096) := by omega
      subst hll
      rw [hl] at hl'
      injection hl' with e1 e2 e3
      exact ⟨e1.symm, (px_inj hv hv' e2 e3 h0).symm⟩
    · push Not at hl'
      rw [T.leaf_eq_zero hr' hl', T'.leaf_eq_zero hr' hl']

/-- The page-table page `g`, zeroed and not in use for a table before, is put below an entry that
was zero: what other frames hold does not change. -/
theorem load64_insert (hg : IsFrame g) (ha : a % 8 = 0) {f : ℕ} (hf : IsFrame f)
    (hfg : f ≠ g) (hk : k < 512) (hne : f + 8 * k ≠ a) (w : Word) :
    ((m.fill g 4096 0).store64 a w).load64 (f + 8 * k) = m.load64 (f + 8 * k) := by
  have h1 := hf.1
  have h2 := hf.apart hg hfg
  rw [load64_store64_of_ne _ ha (by omega) (Ne.symm hne)]
  exact load64_congr (agreeOn_fill m (by omega))

theorem load64_insert_new (hg : IsFrame g) (ha : a % 8 = 0) (hk : k < 512)
    (hne : a + 8 ≤ g ∨ g + 4096 ≤ a) (w : Word) :
    ((m.fill g 4096 0).store64 a w).load64 (g + 8 * k) = 0 := by
  have h1 := hg.1
  rw [load64_store64_of_ne _ ha (by omega) (by omega)]
  exact load64_fill_zero m (by omega) (by omega)

variable (T : Tree m ρ)
include T

/-- The zeroed page `g` becomes a page-table page: the entries of the others stay, but for a zero
entry where `g` is put. -/
theorem graft (hg : IsFrame g) (hgt : (ρ g).isTable = false)
    (hnew : ∀ {k}, k < 512 → m'.load64 (g + 8 * k) = 0)
    (hold : ∀ {f k}, (ρ f).isTable = true → k < 512 → m'.load64 (f + 8 * k) = m.load64 (f + 8 * k) ∨
      (ρ f).child f k = some w ∧ m.load64 (f + 8 * k) = 0 ∧ m'.load64 (f + 8 * k) = pde g)
    (hback : w.isInner = true →
      ∃ q k, k < 512 ∧ (ρ q).child q k = some w ∧ m'.load64 (q + 8 * k) = pde g) :
    Tree m' (update ρ g w) := by
  have hne : ∀ {f}, (ρ f).isTable = true → f ≠ g := by
    rintro f hf rfl
    rw [hf] at hgt; cases hgt
  refine ⟨fun f hf => ?_, fun f k w' hc hk => ?_, fun f hf => ?_⟩
  · by_cases hfg : f = g
    · exact hfg ▸ hg
    · rw [update_of_ne hfg] at hf; exact T.frame f hf
  · by_cases hfg : f = g
    · subst hfg
      exact .inl (hnew hk)
    · rw [update_of_ne hfg] at hc
      obtain ⟨hft, hwi⟩ := Role.isTable_of_child hc
      rcases hold hft hk with he | ⟨hc', -, he⟩
      · rw [Ent, he]
        exact (T.ent f k w' hc hk).imp id fun ⟨f', hf', hw'⟩ => ⟨f', hf', by
          rw [update_of_ne (hne (by rw [hw']; exact Role.isTable_of_isInner hwi))]
          exact hw'⟩
      · rw [hc] at hc'
        exact .inr ⟨g, he, by rw [update_self]; exact (Option.some.inj hc').symm⟩
  · by_cases hfg : f = g
    · subst hfg
      rw [update_self] at hf ⊢
      obtain ⟨q, k, hk, hc, he⟩ := hback hf
      exact ⟨q, k, hk, by rw [update_of_ne (hne (Role.isTable_of_child hc).1)]; exact hc, he⟩
    · rw [update_of_ne hfg] at hf ⊢
      obtain ⟨q, k, hk, hc, he⟩ := T.back f hf
      have hqt := (Role.isTable_of_child hc).1
      refine ⟨q, k, hk, by rw [update_of_ne (hne hqt)]; exact hc, ?_⟩
      rcases hold hqt hk with h | ⟨-, h0, -⟩
      · rw [h, he]
      · rw [h0] at he
        exact absurd he.symm (pde_ne_zero (T.frame f (Role.isTable_of_isInner hf)))

/-- **A new page-table page** below a zero entry of another. -/
theorem insert (hc : (ρ q).child q k = some w) (hk : k < 512)
    (h0 : m.load64 (q + 8 * k) = 0) (hg : IsFrame g) (hgt : (ρ g).isTable = false) :
    Tree ((m.fill g 4096 0).store64 (q + 8 * k) (pde g)) (update ρ g w) := by
  have hqt := (Role.isTable_of_child hc).1
  have hqf := T.frame q hqt
  have hq8 := hqf.1
  have hmod : (q + 8 * k) % 8 = 0 := by omega
  have hne : ∀ {f}, (ρ f).isTable = true → f ≠ g := by
    rintro f hf rfl
    rw [hf] at hgt; cases hgt
  have hapart := hqf.apart hg (hne hqt)
  refine T.graft hg hgt (fun hj => load64_insert_new hg hmod hj (by omega) _)
    (fun {f j} hf hj => ?_)
    fun _ => ⟨q, k, hk, hc, load64_store64_self ..⟩
  by_cases hs : f = q ∧ j = k
  · obtain ⟨rfl, rfl⟩ := hs
    exact .inr ⟨hc, h0, load64_store64_self ..⟩
  · refine .inl (load64_insert hg hmod (T.frame f hf) (hne hf) hj (fun heq => hs ?_) _)
    have := (T.frame f hf).1
    exact ⟨by omega, by omega⟩

/-- **A new root.** -/
theorem insert_root (hg : IsFrame g) (hgt : (ρ g).isTable = false) :
    Tree (m.fill g 4096 0) (update ρ g .root) := by
  refine T.graft hg hgt (fun hk => load64_fill_zero m (by omega) (by omega)) (fun {f k} hf hk => ?_)
    nofun
  have hne : f ≠ g := by
    rintro rfl
    rw [hf] at hgt; cases hgt
  have := (T.frame f hf).apart hg hne
  exact .inl (load64_congr (agreeOn_fill m (by omega)))

/-- A new page-table page brings no leaf entries. -/
theorem leaf_insert (hc : (ρ q).child q k = some w)
    (hk : k < 512) (h0 : m.load64 (q + 8 * k) = 0) (hg : IsFrame g) (hgt : (ρ g).isTable = false)
    (hr : ρ r = .root) : leaf ((m.fill g 4096 0).store64 (q + 8 * k) (pde g)) r v = leaf m r v := by
  have T' := T.insert hc hk h0 hg hgt
  have hqf := T.frame q (Role.isTable_of_child hc).1
  have hmod : (q + 8 * k) % 8 = 0 := by have := hqf.1; omega
  have hv := px_lt 0 (v * 4096)
  have hrg : r ≠ g := by rintro rfl; rw [hr] at hgt; cases hgt
  have hr' : update ρ g w r = .root := by rw [update_of_ne hrg]; exact hr
  by_cases hl : ∃ l, ρ l = .low r (px 2 (v * 4096)) (px 1 (v * 4096))
  · obtain ⟨l, hl⟩ := hl
    have hlg : l ≠ g := by rintro rfl; rw [hl] at hgt; cases hgt
    have hlq : l ≠ q := by rintro rfl; rw [hl] at hc; cases hc
    have hlf := T.frame_low hl
    have := hlf.apart hqf hlq
    rw [T.leaf_eq hl, T'.leaf_eq (by rw [update_of_ne hlg]; exact hl)]
    exact load64_insert hg hmod hlf hlg hv (by omega) _
  · push Not at hl
    rw [T.leaf_eq_zero hr hl]
    by_cases hw : w = .low r (px 2 (v * 4096)) (px 1 (v * 4096))
    · have hqg : q ≠ g := by
        rintro rfl
        rw [(Role.isTable_of_child hc).1] at hgt; cases hgt
      have := hqf.apart hg hqg
      rw [T'.leaf_eq (l := g) (by rw [update_self]; exact hw)]
      exact load64_insert_new hg hmod hv (by omega) _
    · refine T'.leaf_eq_zero hr' fun l hl' => ?_
      by_cases hlg : l = g
      · subst hlg; rw [update_self] at hl'; exact hw hl'
      · rw [update_of_ne hlg] at hl'; exact hl l hl'

/-- A new root brings no leaf entries and leaves those of the other tables alone. -/
theorem leaf_insert_root (hg : IsFrame g) (hgt : (ρ g).isTable = false)
    (hr : ρ r = .root ∨ r = g) : leaf (m.fill g 4096 0) r v = if r = g then 0 else leaf m r v := by
  have T' := T.insert_root hg hgt
  split_ifs with h
  · subst h
    refine T'.leaf_eq_zero (update_self ..) fun l hl => ?_
    have hlg : l ≠ r := by rintro rfl; rw [update_self] at hl; cases hl
    rw [update_of_ne hlg] at hl
    rw [(T.low_root hl).1] at hgt; cases hgt
  · have hr₀ := hr.resolve_right h
    refine T.leaf_congr T' hr₀ (by rw [update_of_ne h]; exact hr₀) (fun l i j => ?_)
      fun l i j hl => agreeOn_fill m ?_
    · by_cases hlg : l = g
      · subst hlg
        rw [update_self]
        exact ⟨fun h => (by cases h), fun h => (by rw [h] at hgt; cases hgt)⟩
      · rw [update_of_ne hlg]
    · refine (T.frame_low hl).apart hg ?_
      rintro rfl; rw [hl] at hgt; cases hgt

end Tree

end Xv6Swap
