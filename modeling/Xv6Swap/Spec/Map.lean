import Xv6Swap.Spec.Swapout

/-!
# Walking with allocation, mapping a page, bringing a page back

* `walk_spec` : `walk` with `alloc` finds the entry or adds the page-table pages it needs; when
  memory runs out on the way, the pages added so far stay in the table;
* `mappages_user_spec`, `mappages_special_spec` : `mappages` of one page;
* `swapin_spec` : a complete `swapin` changes no logical page, whatever it returns.

Each of them may evict pages, through `kalloc`.
-/

namespace Xv6Swap

open K Ghost Set

variable {σ σ' : KState} {g g' : Ghost} {f r v va s d q i a : ℕ} {ρ : ℕ → Role} {D : Touch}
  {perm : Word}

/-! ### walk -/

/-- `q` is the page of the given level that holds the entry for `va` in the table `r`. -/
def AtLevel (ρ : ℕ → Role) (r va : ℕ) : ℕ → ℕ → Prop
  | 0, q => ρ q = .low r (px 2 va) (px 1 va)
  | 1, q => ρ q = .mid r (px 2 va)
  | _, q => q = r ∧ ρ r = .root

/-- The role of the page of the given level below the root. -/
def levelRole (r va : ℕ) : ℕ → Role
  | 0 => .low r (px 2 va) (px 1 va)
  | _ => .mid r (px 2 va)

theorem AtLevel.child (hd : d < 2) (h : AtLevel ρ r va (d + 1) q) :
    (ρ q).child q (px (d + 1) va) = some (levelRole r va d) := by
  match d, hd with
  | 0, _ => rw [AtLevel] at h; rw [h]; rfl
  | 1, _ =>
    obtain ⟨rfl, h⟩ := h
    rw [h]; rfl

theorem AtLevel.of_role (hd : d < 2) (h : ρ q = levelRole r va d) : AtLevel ρ r va d q := by
  match d, hd with
  | 0, _ => exact h
  | 1, _ => exact h

theorem levelRole_isInner (r va d : ℕ) : (levelRole r va d).isInner = true := by
  cases d <;> rfl

theorem levelRole_eq {va' d' : ℕ} (h : levelRole r va d = levelRole r va' d') :
    levelRole r va d = levelRole r va' d := by
  cases d <;> cases d' <;> first | exact h | cases h

/-- A frame returned by `kalloc` held no table and is the kernel's now. -/
theorem Allocated.not_table {o : Option ℕ} (h : Allocated σ g o σ') (hf : o = some f) :
    (g.role f).isTable = false ∧ g.role f ≠ .kern := by
  subst hf
  obtain ⟨g', -, -, -, -, -, hold, -⟩ := h
  rcases hold with hx | ⟨-, r, v, hx⟩ <;> rw [hx] <;> simp [Role.isTable]

/-- The number of page-table pages that `walk` adds below the page `q` of the given level. -/
def lacking (m : Mem) (va : ℕ) : ℕ → ℕ → ℕ
  | 0, _ => 0
  | d + 1, q =>
    if has (m.load64 (q + 8 * px (d + 1) va)) pteV then
      lacking m va d (pte2pa (m.load64 (q + 8 * px (d + 1) va)))
    else d + 1

/-- The number of page-table pages that `walk` adds for the page `v`. -/
def needs (m : Mem) (r v : ℕ) : ℕ := lacking m (v * 4096) 2 r

/-- The page-table pages of `g'` are those of `g` and pages on the way to `va`. -/
def OnWay (g g' : Ghost) (r va : ℕ) : Prop :=
  ∀ x, (g'.role x).isInner = true → g'.role x = g.role x ∨ ∃ d, g'.role x = levelRole r va d

/-- The page `v` is mapped: the page-table pages above it are not lacking any more. -/
def touch (v : ℕ) (n : ℕ → ℕ) (w : ℕ) : ℕ :=
  if w / 512 = v / 512 then 0 else if w / 262144 = v / 262144 then min 1 (n w) else n w

/-- What is lacking is what no frame has the role of. -/
theorem Tree.needs_cases {m : Mem} (T : Tree m ρ) (hr : ρ r = .root) (v : ℕ) :
    (∃ x, ρ x = levelRole r (v * 4096) 0) ∧ needs m r v = 0 ∨
    (¬ ∃ x, ρ x = levelRole r (v * 4096) 0) ∧
    ((∃ x, ρ x = levelRole r (v * 4096) 1) ∧ needs m r v = 1 ∨
      (¬ ∃ x, ρ x = levelRole r (v * 4096) 1) ∧ needs m r v = 2) := by
  rw [needs]
  generalize v * 4096 = va
  rcases T.rootEnt hr (px_lt 2 va) with h0 | ⟨q, hq, hmid⟩
  · have hno : ¬ ∃ x, ρ x = levelRole r va 1 := fun ⟨x, hx⟩ => by
      have hx' := (T.midBack hx).2.2
      rw [h0] at hx'
      exact pde_ne_zero (T.frame_mid hx) hx'.symm
    refine .inr ⟨fun ⟨x, hx⟩ => ?_, .inr ⟨hno, by rw [lacking, h0, has_zero]; rfl⟩⟩
    obtain ⟨-, q, hq, -⟩ := T.lowBack hx
    exact hno ⟨q, hq⟩
  · have hqf := T.frame_mid hmid
    rw [lacking, hq, has_pde hqf, if_pos rfl, pte2pa_pde hqf, lacking]
    rcases T.midEnt hmid (px_lt 1 va) with h0 | ⟨l, hl, hlow⟩
    · refine .inr ⟨fun ⟨x, hx⟩ => ?_, .inl ⟨⟨q, hmid⟩, by rw [h0, has_zero]; rfl⟩⟩
      obtain ⟨-, q', hq', hx'⟩ := T.lowBack hx
      rw [T.mid_unique hq' hmid, h0] at hx'
      exact pde_ne_zero (T.frame_low hx) hx'.symm
    · exact .inl ⟨⟨l, hlow⟩, by rw [hl, has_pde (T.frame_low hlow), if_pos rfl]; rfl⟩

theorem Tree.needs_congr {m m' : Mem} {ρ' : ℕ → Role} (T : Tree m ρ) (T' : Tree m' ρ')
    (hr : ρ r = .root) (hr' : ρ' r = .root)
    (hρ : ∀ x w, w.isInner = true → (ρ' x = w ↔ ρ x = w)) (v : ℕ) :
    needs m' r v = needs m r v := by
  have h1 := T.needs_cases hr v
  have h2 := T'.needs_cases hr' v
  simp only [hρ _ _ (levelRole_isInner ..)] at h2
  grind

/-- **The page-table pages for the page `v` are there, and no others are new.** -/
theorem Inv.needs_eq (h : Inv σ g) (h' : Inv σ' g') (hr : g.role r = .root)
    (hr' : g'.role r = .root)
    (hkeep : ∀ x, (g.role x).tableOf = some r → g'.role x = g.role x)
    (hway : OnWay g g' r (v * 4096)) (hv : v < 2 ^ 27) (ha : entry σ'.mem r (v * 4096) = some a)
    {w : ℕ} (hw : w < 2 ^ 27) : needs σ'.mem r w = touch v (needs σ.mem r) w := by
  obtain ⟨l, hl, -⟩ := (h'.tree.entry_eq_some_iff hr').1 ha
  obtain ⟨-, q, hq, -⟩ := h'.tree.lowBack hl
  have hpath : ∀ d, ∃ x, g'.role x = levelRole r (v * 4096) d
    | 0 => ⟨l, hl⟩
    | _ + 1 => ⟨q, hq⟩
  have hiff : ∀ d, (∃ x, g'.role x = levelRole r (w * 4096) d) ↔
      (∃ x, g.role x = levelRole r (w * 4096) d) ∨
        levelRole r (w * 4096) d = levelRole r (v * 4096) d := by
    refine fun d => ⟨fun ⟨x, hx⟩ => ?_, ?_⟩
    · rcases hway x (by rw [hx]; exact levelRole_isInner ..) with he | ⟨e, he⟩
      · exact .inl ⟨x, he ▸ hx⟩
      · exact .inr (levelRole_eq (hx.symm.trans he))
    · rintro (⟨x, hx⟩ | he)
      · exact ⟨x, by rw [hkeep x (by rw [hx]; cases d <;> rfl), hx]⟩
      · rw [he]; exact hpath d
  have hlow := hiff 0
  have hmid := hiff 1
  simp only [levelRole, Role.low.injEq, Role.mid.injEq, px_two, px_one, true_and] at hlow hmid
  rw [show (w / 262144 % 512 = v / 262144 % 512 ∧ w / 512 % 512 = v / 512 % 512) ↔
    w / 512 = v / 512 by omega] at hlow
  rw [show w / 262144 % 512 = v / 262144 % 512 ↔ w / 262144 = v / 262144 by omega] at hmid
  have h1 := h.tree.needs_cases hr w
  have h2 := h'.tree.needs_cases hr' w
  simp only [levelRole, px_two, px_one] at h1 h2
  rw [touch]
  grind

/-- A frame from `kalloc` becomes the page of level `d` on the way to `va`. -/
theorem Allocated.addTable (ha : Allocated σ g (some f) σ') (h : Inv σ g) (hd : d < 2)
    (hq : AtLevel g.role r va (d + 1) q) (h0 : σ.mem.load64 (q + 8 * px (d + 1) va) = 0) :
    ∃ m' g', m' = (σ'.mem.fill f 4096 0).store64 (q + 8 * px (d + 1) va) (pde f) ∧
      Inv { σ' with mem := m' } g' ∧ Keeps {} σ g { σ' with mem := m' } g' ∧
      g'.role f = levelRole r va d ∧ (∀ y ≠ f, g'.role y = g.role y) ∧
      (g.role f).isTable = false ∧ lacking m' va d f = d ∧
      ∀ p, Paged σ g p → Paged { σ' with mem := m' } g' p.alloc := by
  obtain ⟨hft, hfk⟩ := ha.not_table rfl
  obtain ⟨g₁, h1, hrole₁, -, -, k1, -, hp1⟩ := ha
  have hc := hq.child hd
  have hk := px_lt (d + 1) va
  have hinner := levelRole_isInner r va d
  have hin := Role.isTable_of_isInner hinner
  have hother : ∀ {y}, y ≠ f → g₁.role y = g.role y := fun {y} hy => by
    rw [hrole₁, setRole_of_ne _ _ hy]
  have hqf : q ≠ f := by rintro rfl; rw [(Role.isTable_of_child hc).1] at hft; cases hft
  have hff : g₁.role f = .kern := by rw [hrole₁, setRole_self]
  have hfr := h1.isFrame_of_eq hff (by simp)
  have hc₁ : (g₁.role q).child q (px (d + 1) va) = some (levelRole r va d) := by
    rw [hother hqf]; exact hc
  -- no other page has taken the place in the meantime
  have hz : σ'.mem.load64 (q + 8 * px (d + 1) va) = 0 := by
    rcases h1.tree.ent q _ _ hc₁ hk with hz | ⟨p, hp, hrole⟩
    · exact hz
    · have hpf : p ≠ f := by rintro rfl; rw [hff] at hrole; rw [← hrole] at hin; cases hin
      rw [hother hpf] at hrole
      obtain ⟨q', k', -, hc', he⟩ := h.tree.back p (by rw [hrole]; exact hinner)
      rw [hrole] at hc'
      obtain ⟨rfl, rfl⟩ := h.tree.parent_unique hc hc'
      rw [h0] at he
      exact absurd he.symm (pde_ne_zero (h.tree.frame p (by rw [hrole]; exact hin)))
  obtain ⟨h2, k2⟩ := h1.insertTable (q := q) hc₁ hk hz hff
  refine ⟨_, g₁.setRole f (levelRole r va d), rfl, h2,
    (k1.trans k2).shrinkFrames h.tree h.leaves fun y hy _ => ?_, setRole_self ..,
    fun y hy => (setRole_of_ne _ _ hy).trans (hother hy), hft, ?_, fun p hp => ?_⟩
  · obtain rfl : y = f := hy
    rw [setRole_self]
    refine ⟨⟨hfk, fun h0 => ?_⟩, fun h0 => ?_, fun h0 => ?_⟩
    · rw [h0] at hft; cases hft
    · rw [h0] at hin; cases hin
    · rw [h0] at hinner; cases hinner
  · cases d with
    | zero => rfl
    | succ d =>
      have hqr := h1.tree.frame q (Role.isTable_of_child hc₁).1
      have := hqr.1
      have := hqr.apart hfr hqf
      rw [lacking, Tree.load64_insert_new hfr (by omega) (px_lt ..) (by omega), has_zero]
      rfl
  · refine (hp1 p hp).1.congr ((hp1 p hp).1.free.set (by simp [hff]) fun h0 => ?_) rfl rfl
      fun x w hx => ?_
    · rw [h0] at hin; cases hin
    · rw [setRole_of_ne _ _ (by
        rintro rfl; rw [setRole_self] at hx; rw [hx] at hinner; cases hinner)]
        at hx
      exact ⟨hx, h1.tree.leaf_insert hc₁ hk hz hfr (by rw [hff]; rfl) hx⟩

/-- What `walk` with `alloc` returns and does from the page `q` of level `d` on; `d` free frames are
enough. -/
def Walked (σ : KState) (g : Ghost) (r va d q : ℕ) (o : Option ℕ) (σ' : KState) : Prop :=
  ∃ g', Inv σ' g' ∧ Keeps {} σ g σ' g' ∧ OnWay g g' r va ∧
    (∀ a, o = some a → entry σ'.mem r va = some a ∧
      ∀ p, Paged σ g p → Paged σ' g' (Pager.alloc^[lacking σ.mem va d q] p)) ∧
    ∀ n, HasFree g (n + d) → o ≠ none ∧ HasFree g' n ∧ UserKept g g'

theorem walkLevel_spec (d : ℕ) : ∀ (σ : KState) (g : Ghost) (q : ℕ), d ≤ 2 → Inv σ g →
    g.role r = .root → AtLevel g.role r va d q →
    Ensures (walkLevel kalloc va true d q σ) (Walked σ g r va d q) fun _ => False := by
  induction d with
  | zero =>
    intro σ g q _ h hr hq
    refine ⟨g, h, Keeps.refl .., fun _ _ => .inl rfl, fun a ha => ⟨?_, fun p hp => hp⟩,
      fun n hn => ⟨by simp, hn, fun _ _ _ hf => hf⟩⟩
    exact (h.tree.entry_eq_some_iff hr).2 ⟨q, hq, by cases ha; rfl⟩
  | succ d ih =>
    intro σ g q hd h hr hq
    have hin := Role.isTable_of_isInner (levelRole_isInner r va d)
    rw [walkLevel, load, Run.bind_read, Run.ite_apply]
    rcases h.tree.ent q _ _ (hq.child (by omega)) (px_lt (d + 1) va) with h0 | ⟨p, hp, hrole⟩
    · -- the entry is lacking: a page-table page is allocated
      rw [h0, has_zero, if_neg (by decide), if_pos rfl]
      refine (kalloc_spec h).bind ?_
      rintro (_ | x) σ₁ hσ₁ <;> have hfree := fun n => Allocated.hasFree h hσ₁ (n := n + d)
      · obtain ⟨g₁, h1, -, hrole, k1⟩ := hσ₁
        refine ⟨g₁, h1, k1, fun y _ => .inl (by rw [hrole]), by simp, fun n hn => ?_⟩
        obtain ⟨_, ⟨⟩, -⟩ := hfree n hn
      · obtain ⟨m₂, g₂, rfl, h2, k2, hx, hother, hxt, hmiss, hp2⟩ :=
          hσ₁.addTable h (by omega) hq h0
        have hr2 : g₂.role r = .root := by
          rw [hother r (by rintro rfl; rw [hr] at hxt; cases hxt)]; exact hr
        refine (ih _ _ x (by omega) h2 hr2 (AtLevel.of_role (by omega) hx)).imp ?_
        rintro o σ₃ ⟨g₃, h3, k3, hway, ho, hn3⟩
        refine ⟨g₃, h3, k2.trans k3, fun y hy => ?_, fun a ha => ⟨(ho a ha).1, fun p hp => ?_⟩,
          fun n hn => ?_⟩
        · rcases hway y hy with hy' | hy'
          · rw [hy']
            by_cases hyx : y = x
            · exact .inr ⟨d, by rw [hyx, hx]⟩
            · exact .inl (hother y hyx)
          · exact .inr hy'
        · rw [lacking, h0, has_zero, if_neg (by decide), Function.iterate_succ_apply, ← hmiss]
          exact (ho a ha).2 _ (hp2 p hp)
        · obtain ⟨_, ⟨⟩, hg⟩ := hfree n hn
          obtain ⟨h4, h5, h6⟩ := hn3 n (hg g₂ hother).1
          exact ⟨h4, h5, fun f r v hf => h6 f r v ((hg g₂ hother).2 f r v hf)⟩
    · have hpf := h.tree.frame p (by rw [hrole]; exact hin)
      rw [hp, has_pde hpf, if_pos rfl, pte2pa_pde hpf]
      refine (ih σ g p (by omega) h hr (AtLevel.of_role (by omega) hrole)).imp ?_
      rintro o σ' ⟨g', h', k', hway, ho, hn'⟩
      refine ⟨g', h', k', hway, ?_, fun n hn => hn' n (hn.mono (by omega))⟩
      rw [lacking, hp, has_pde hpf, if_pos rfl, pte2pa_pde hpf]
      exact ho

/-- **`walk` with `alloc`.** -/
theorem walk_spec (h : Inv σ g) (hr : g.role r = .root) (hva : va < maxva) :
    Ensures (walk r va true σ) (Walked σ g r va 2 r) fun _ => False := by
  rw [walk, walkWith, if_neg (by omega)]
  exact walkLevel_spec 2 σ g r (le_refl _) h hr ⟨rfl, hr⟩

/-! ### mappages -/

/-- The entry that maps a page to `pa`. -/
def leafPte (pa : ℕ) (perm : Word) : Word := pa2pte pa ||| perm ||| pteV

section

variable {perm : Word}

theorem getLsbD_leafPte (hf : f < 2 ^ 56) (perm : Word) (hi : i < 10) :
    (leafPte f perm).getLsbD i = (perm.getLsbD i || decide (i = 0)) := by
  rw [leafPte, BitVec.or_assoc, pa2pte_eq hf, getLsbD_shiftLeft_or _ _ hi,
    show pteV = 1#64 <<< 0 from rfl, getLsbD_or_one_shiftLeft _ (by omega)]

theorem has_leafPte_V (hf : f < 2 ^ 56) (perm : Word) : has (leafPte f perm) pteV = true := by
  rw [has_pteV, getLsbD_leafPte hf perm (by omega)]; simp

theorem has_leafPte_R (hf : f < 2 ^ 56) (perm : Word) :
    has (leafPte f perm) pteR = has perm pteR := by
  rw [has_pteR, has_pteR, getLsbD_leafPte hf perm (by omega)]; simp

theorem has_leafPte_U (hf : f < 2 ^ 56) (perm : Word) :
    has (leafPte f perm) pteU = has perm pteU := by
  rw [has_pteU, has_pteU, getLsbD_leafPte hf perm (by omega)]; simp

theorem has_leafPte_swapped (hf : f < 2 ^ 56) (perm : Word) :
    has (leafPte f perm) pteSwapped = has perm pteSwapped := by
  rw [has_pteSwapped, has_pteSwapped, getLsbD_leafPte hf perm (by omega)]; simp

theorem perms_leafPte (hf : f < 2 ^ 56) (perm : Word) : perms (leafPte f perm) = perms perm :=
  perms_congr fun i h1 h2 => by
    rw [getLsbD_leafPte hf perm (by omega)]; simp [show i ≠ 0 by omega]

theorem pte2pa_leafPte (hf : f < 2 ^ 56) (ha : f % 4096 = 0) (hp : IsFlags perm) :
    pte2pa (leafPte f perm) = f := by
  rw [leafPte, BitVec.or_assoc]
  exact pte2pa_pa2pte_or hf ha (hp.or isFlags_pteV)

end

theorem Keeps.leaf_zero (k : Keeps D σ g σ' g')
    (h : Inv σ g) (h' : Inv σ' g') (hr : g.role r = .root) (hD : r ∉ D.frames)
    (hP : (r, v) ∉ D.pages) (hv : v < 2 ^ 27) (h0 : leaf σ.mem r v = 0) : leaf σ'.mem r v = 0 := by
  by_cases hu : v < uvpn
  · rw [h'.leaf_eq_zero_iff ((k.root r hD).2 hr) hu, k.page r v hr hD hu hP,
      ← h.leaf_eq_zero_iff hr hu, h0]
  · rw [k.special r v hr hD (by omega) hv hP, h0]

/-- `mappages` of one page that is not mapped: the entry is found or added, then written. -/
theorem mappages_one (h : Inv σ g) (hr : g.role r = .root) (hva : v * 4096 < maxva)
    (h0 : leaf σ.mem r v = 0) (pa : ℕ) (perm : Word) :
    Ensures (mappages r (v * 4096) pgsize pa perm σ) (fun ret σ' => ∃ σ₁ g₁, Inv σ₁ g₁ ∧
      Keeps {} σ g σ₁ g₁ ∧ OnWay g g₁ r (v * 4096) ∧
      (∀ n, HasFree g (n + 2) → ret = 0 ∧ HasFree g₁ n ∧ UserKept g g₁) ∧
      (ret = -1 ∧ σ' = σ₁ ∨ ret = 0 ∧ ∃ a, entry σ₁.mem r (v * 4096) = some a ∧
        leaf σ₁.mem r v = 0 ∧ σ' = { σ₁ with mem := σ₁.mem.store64 a (leafPte pa perm) } ∧
        ∀ p, Paged σ g p → Paged σ₁ g₁ (Pager.alloc^[needs σ.mem r v] p))) fun _ => False := by
  have hv : v < 2 ^ 27 := by simp only [maxva] at hva; omega
  have hlast : (v * 4096 + pgsize - pgsize) % 2 ^ 64 = v * 4096 := by
    simp only [maxva, pgsize] at *; omega
  rw [mappages, if_neg (by simp), if_neg (by simp), if_neg (by simp), hlast,
    Nat.div_self (by decide), mappagesLoop]
  refine (walk_spec h hr hva).bind ?_
  rintro (_ | a) σ₁ ⟨g₁, h1, k1, hway, ha, hn⟩
  · exact ⟨σ₁, g₁, h1, k1, hway, fun n hf => absurd rfl (hn n hf).1, .inl ⟨rfl, rfl⟩⟩
  · have hz := k1.leaf_zero h h1 hr (notMem_empty _) (notMem_empty _) hv h0
    have hload : σ₁.mem.load64 a = 0 := by rw [← Tree.leaf_of_entry (ha a rfl).1, hz]
    simp only [load, Run.bind_read, hload, has_zero, Bool.false_eq_true, if_false, store,
      Run.bind_modify, if_true, Run.pure_apply]
    exact ⟨σ₁, g₁, h1, k1, hway, fun n hf => ⟨rfl, (hn n hf).2⟩,
      .inr ⟨rfl, a, (ha a rfl).1, hz, rfl, (ha a rfl).2⟩⟩

/-- A frame that no page of the LRU list holds. -/
theorem Inv.pageIdx_notMem (h : Inv σ g) (hf : g.role f = .kern) : pageIdx f ∉ g.lru := fun hi =>
  h.lru_ne hf _ hi (h.role_pageToPa (by simp [hf]))

/-- **`mappages` of one user page** to a frame of the kernel. -/
theorem mappages_user_spec (h : Inv σ g) (hr : g.role r = .root) (hv : v < uvpn)
    (h0 : leaf σ.mem r v = 0) (hf : g.role f = .kern) (hp : IsFlags perm)
    (hR : has perm pteR = true) (hS : has perm pteSwapped = false) :
    Ensures (mappages r (v * 4096) pgsize f perm σ) (fun ret σ' => ∃ g', Inv σ' g' ∧
      (∀ n, HasFree g (n + 2) → ret = 0 ∧ HasFree g' n ∧ UserKept g g') ∧
      (ret = -1 ∧ Keeps {} σ g σ' g' ∨ ret = 0 ∧ g'.role f = .user r v ∧ pageIdx f ∉ g'.lru ∧
        Keeps ⟨{(r, v)}, {f}, ∅⟩ σ g σ' g' ∧ OnWay g g' r (v * 4096) ∧
        logical σ' r v = some ⟨perms perm, frameBytes σ.mem f⟩ ∧
        ∀ p, Paged σ g p →
          Paged σ' g' ((Pager.alloc^[needs σ.mem r v] p).mark (r, v) (has perm pteA))))
      fun _ => False := by
  have hff := h.isFrame_of_eq hf (by simp)
  have hv27 : v < 2 ^ 27 := lt_trans hv (by decide)
  refine (mappages_one h hr (vaddr_lt hv) h0 f perm).imp ?_
  rintro ret σ' ⟨σ₁, g₁, h1, k1, hway, hn, ⟨rfl, rfl⟩ | ⟨rfl, a, ha, hz, rfl, hp1⟩⟩
  · exact ⟨g₁, h1, hn, .inl ⟨rfl, k1⟩⟩
  · have hr₁ := (k1.root r (notMem_empty _)).2 hr
    have hf₁ := (k1.kern f (notMem_empty _)).2 hf
    have hV := has_leafPte_V hff.lt perm
    have hpa := pte2pa_leafPte hff.lt hff.1 hp
    obtain ⟨h2, k2⟩ := h1.mapEntry hr₁ hv ha hz hf₁ hV
      ((has_leafPte_swapped hff.lt perm).trans hS) ((has_leafPte_R hff.lt perm).trans hR) hpa
    have hkept : ∀ {y}, g₁.role y ≠ .kern → (g₁.setRole f (.user r v)).role y = g₁.role y :=
      fun hy => setRole_of_ne _ _ (by rintro rfl; exact hy hf₁)
    refine ⟨_, h2, fun n hx => ⟨rfl, (hn n hx).2.1.congr fun y hy => ?_, fun y r' v' hy => ?_⟩,
      .inr ⟨rfl, setRole_self .., h1.pageIdx_notMem hf₁, (k1.mono_empty _).trans k2, fun y hy => ?_,
        ?_, fun p hp => ?_⟩⟩
    · rw [hkept (by simp [hy]), hy]
    · have hy := (hn n hx).2.2 y r' v' hy
      rw [hkept (by simp [hy]), hy]
    · have hyf : y ≠ f := by rintro rfl; rw [setRole_self] at hy; cases hy
      rw [setRole_of_ne _ _ hyf] at hy ⊢
      exact hway y hy
    swap
    · have hA : has (leafPte f perm) pteA = has perm pteA := by
        rw [has_pteA, has_pteA, getLsbD_leafPte hff.lt perm (by omega)]; simp
      rw [← hA]
      exact ((hp1 p hp).store h1 hr₁ hv ha _).setRole (by simp [hf₁]) (by simp) (by simp)
    have hbytes : frameBytes (σ₁.mem.store64 a (leafPte f perm)) f = frameBytes σ.mem f :=
      frameBytes_congr ((k1.bytes f (notMem_empty _) hf).trans (Mem.agreeOn_store64 _
        (h1.entry_apart hr₁ ha (by simp [hf₁]) (by rw [hf₁]; rfl))))
    rw [logical, h1.leaf_store hr₁ hv27 ha hr₁ hv27, setLeaf_self, pageOf_valid hV,
      perms_leafPte hff.lt, hpa, hbytes]

/-- **`mappages` of `TRAMPOLINE` or `TRAPFRAME`.** -/
theorem mappages_special_spec (h : Inv σ g) (hr : g.role r = .root) (hv : uvpn ≤ v)
    (hva : v * 4096 < maxva) (h0 : leaf σ.mem r v = 0) {pa : ℕ} (hpa : pa < 2 ^ 56)
    (hR : has perm pteR = true) (hU : has perm pteU = false) :
    Ensures (mappages r (v * 4096) pgsize pa perm σ) (fun ret σ' => ∃ g', Inv σ' g' ∧
      (∀ n, HasFree g (n + 2) → ret = 0 ∧ HasFree g' n) ∧ (ret = -1 ∧ Keeps {} σ g σ' g' ∨
        ret = 0 ∧ Keeps { pages := {(r, v)} } σ g σ' g' ∧ leaf σ'.mem r v = leafPte pa perm))
      fun _ => False := by
  have hv27 : v < 2 ^ 27 := by simp only [maxva] at hva; omega
  refine (mappages_one h hr hva h0 pa perm).imp ?_
  rintro ret σ' ⟨σ₁, g₁, h1, k1, -, hn, ⟨rfl, rfl⟩ | ⟨rfl, a, ha, hz, rfl, -⟩⟩
  · exact ⟨g₁, h1, fun n hf => ⟨(hn n hf).1, (hn n hf).2.1⟩, .inl ⟨rfl, k1⟩⟩
  · have hr₁ := (k1.root r (notMem_empty _)).2 hr
    obtain ⟨h2, k2⟩ := h1.setSpecial hr₁ hv hv27 ha (e := leafPte pa perm)
      (.inr ⟨has_leafPte_V hpa perm, (has_leafPte_R hpa perm).trans hR,
        (has_leafPte_U hpa perm).trans hU⟩)
    refine ⟨_, h2, fun n hf => ⟨rfl, (hn n hf).2.1⟩, .inr ⟨rfl, (k1.mono_empty _).trans k2, ?_⟩⟩
    rw [h1.leaf_store hr₁ hv27 ha hr₁ hv27, setLeaf_self]

/-! ### swapin -/

/-- The entry `swapin` stores for a page brought back to `pa`. -/
theorem swapin_entry (pa : ℕ) (e : Word) : pa2pte pa ||| (pteFlags e &&& ~~~pteSwapped) ||| pteV =
      leafPte pa (pteFlags e &&& ~~~pteSwapped) := rfl

theorem getLsbD_clearSwapped (e : Word) (hi : i < 10) :
    (pteFlags e &&& ~~~pteSwapped).getLsbD i = (e.getLsbD i && !decide (i = 9)) := by
  rw [show pteSwapped = 1#64 <<< 9 from rfl,
    getLsbD_and_not_one_shiftLeft _ (by omega) (by omega), getLsbD_pteFlags e hi]

theorem Keeps.entry (k : Keeps D σ g σ' g') (h : Inv σ g)
    (h' : Inv σ' g') (hr : g.role r = .root) (hD : r ∉ D.frames)
    (ha : entry σ.mem r va = some a) : entry σ'.mem r va = some a := by
  obtain ⟨l, hl, rfl⟩ := (h.tree.entry_eq_some_iff hr).1 ha
  refine (h'.tree.entry_eq_some_iff ((k.root r hD).2 hr)).2 ⟨l, ?_, rfl⟩
  rw [k.table l r (by rw [hl]; rfl) hD]; exact hl

/-- The end of `swapin`, from the point where the slot `s` of the page has been read to the frame
`f`: the slot is freed, the entry rewritten, the page registered. -/
theorem swapin_commit (h : Inv σ g) (hr : g.role r = .root) (hv : v < uvpn)
    (ha : entry σ.mem r (v * 4096) = some a) (hs : g.slot s = .page r v) (hf : g.role f = .kern)
    (hlog : logical σ r v = some ⟨perms (leaf σ.mem r v), frameBytes σ.mem f⟩) : Ensures ((do
        freeSwapSlot s
        let e ← load a
        store a (pa2pte f ||| (pteFlags e &&& ~~~pteSwapped) ||| pteV)
        registerPage r (v * 4096) f
        pure 0 : K ℤ) σ)
      (fun ret σ' => ret = 0 ∧ ∃ g', Inv σ' g' ∧ Keeps ⟨∅, {f}, {s}⟩ σ g σ' g' ∧
        g'.role f = .user r v ∧ g'.slot s = .free ∧ has (leaf σ'.mem r v) pteV = true ∧
        ∀ y ≠ f, g'.role y = g.role y)
      fun _ => False := by
  have hv27 : v < 2 ^ 27 := lt_trans hv (by decide)
  have hff := h.isFrame_of_eq hf (by simp)
  have hslt : s < nslots := h.slots.range s (by simp [hs])
  obtain ⟨hV, hS, hsl⟩ := (h.slot_iff hr hv).1 hs
  have hbm := (h.slots.bitmap σ.swapBitmap).2 rfl
  have hap := h.entry_apart hr ha (x := σ.swapBitmap) (by simp [hbm]) (by rw [hbm]; rfl)
  rw [Run.bind_ok (freeSwapSlot_apply σ s)]
  simp only [load, store, Run.bind_read, Run.bind_modify,
    clearSlotBit_load64 hslt (by omega : a + 8 ≤ σ.swapBitmap ∨ σ.swapBitmap + 4096 ≤ a),
    ← Tree.leaf_of_entry ha, swapin_entry]
  rw [clearSlotBit_store64 hslt (by omega)]
  -- the entry first, then the bit: the two writes commute, and this order keeps the invariant
  have hperm := (isFlags_pteFlags (leaf σ.mem r v)).and_left (~~~pteSwapped)
  have hR : has (leafPte f (pteFlags (leaf σ.mem r v) &&& ~~~pteSwapped)) pteR = true := by
    rw [has_leafPte_R hff.lt, has_pteR, getLsbD_clearSwapped _ (by omega), ← has_pteR,
      ((h.pteOk hr hv).swapped hV hS).1]
    rfl
  have hS' : has (leafPte f (pteFlags (leaf σ.mem r v) &&& ~~~pteSwapped)) pteSwapped = false := by
    rw [has_leafPte_swapped hff.lt, has_pteSwapped, getLsbD_clearSwapped _ (by omega)]; simp
  have hpe : perms (leafPte f (pteFlags (leaf σ.mem r v) &&& ~~~pteSwapped)) =
      perms (leaf σ.mem r v) := by
    rw [perms_leafPte hff.lt]
    exact perms_congr fun i _ _ => by
      rw [getLsbD_clearSwapped _ (by omega)]; simp [show i ≠ 9 by omega]
  have hV' := has_leafPte_V hff.lt (pteFlags (leaf σ.mem r v) &&& ~~~pteSwapped)
  have hpa := pte2pa_leafPte hff.lt hff.1 hperm
  generalize leafPte f (pteFlags (leaf σ.mem r v) &&& ~~~pteSwapped) = e at *
  obtain ⟨h1, k1⟩ := h.bringEntry hr hv ha hV hS hsl hf hV' hS' hR hpa
  have hlog₁ : logical { σ with mem := σ.mem.store64 a e } r v = logical σ r v := by
    have hb := frameBytes_congr (Mem.agreeOn_store64 σ.mem (w := e)
      (h.entry_apart hr ha (x := f) (by simp [hf]) (by rw [hf]; rfl)))
    rw [hlog, logical, h.leaf_store hr hv27 ha hr hv27, setLeaf_self, pageOf_valid hV', hpa, hpe,
      hb]
  obtain ⟨h2, k2⟩ := h1.clearSlot (s := s) (setSlot_self ..)
  have hr₁ : (g.setRole f (.user r v)).role r = .root := by
    rw [setRole_of_ne]
    · exact hr
    · rintro rfl; rw [hr] at hf; cases hf
  have hlog₂ := k2.page r v hr₁ (notMem_empty _) hv (notMem_empty _)
  have hrole : (g.setRole f (.user r v)).role f = .user r v := setRole_self ..
  refine (registerPage_spec h2 hrole (h.pageIdx_notMem hf)).bind ?_
  rintro - σ₃ ⟨h3, k3, pages', head', tail', rfl⟩
  refine ⟨rfl, _, h3, ?_, hrole, setSlot_self .., ((h3.user_iff hr₁ hv).1 hrole).1,
    fun y hy => setRole_of_ne _ _ hy⟩
  have k12 : Keeps ⟨{(r, v)}, {f}, {s}⟩ σ g _ _ := k1.trans
    (k2.mono (empty_subset _) (empty_subset _) fun _ hx => hx)
  have k13 := k12.trans (k3.mono (fun _ hx => hx) (empty_subset _) (empty_subset _))
  refine k13.shrinkPages fun r' v' hp _ _ => ?_
  obtain ⟨rfl, rfl⟩ : r' = r ∧ v' = v := by simpa using hp
  refine ⟨hv, hlog₂.trans hlog₁, fun f' hpin => ?_⟩
  have := ((h.user_iff hr hv).1 hpin.role).1
  rw [hV] at this; cases this

/-- **`swapin`** leaves every logical page as it is, whatever it returns. -/
theorem swapin_spec (h : Inv σ g) (hr : g.role r = .root) (hva : va < maxva) :
    Ensures (swapin r va σ) (fun ret σ' => ∃ g', Inv σ' g' ∧ Keeps {} σ g σ' g' ∧
    FramesKept σ g g' ∧
      (ret = -1 ∨ ret = 0 ∧ has (leaf σ'.mem r (va / 4096)) pteV = true)) fun _ => False := by
  have hround : pgrounddown va = va / 4096 * 4096 := rfl
  generalize hv : va / 4096 = v at *
  have hvm : v * 4096 < maxva := lt_of_le_of_lt (by omega) hva
  have hv27 : v < 2 ^ 27 := by simp only [maxva] at hvm; omega
  rw [swapin]
  simp only [hround, Run.bind_ok (walk_false_apply hvm σ)]
  have hrefl : FramesKept σ g g := fun _ _ _ _ _ hf _ => hf
  cases ha : entry σ.mem r (v * 4096) with
  | none => exact ⟨g, h, Keeps.refl .., hrefl, .inl rfl⟩
  | some a =>
    simp only [load, Run.bind_read, ← Tree.leaf_of_entry ha]
    cases hS : has (leaf σ.mem r v) pteSwapped with
    | false => exact ⟨g, h, Keeps.refl .., hrefl, .inl rfl⟩
    | true =>
      cases hV : has (leaf σ.mem r v) pteV with
      | true => exact ⟨g, h, Keeps.refl .., hrefl, .inl rfl⟩
      | false =>
        have hu : v < uvpn := by
          by_contra hge
          rcases h.leaves.special r v hr (by omega) hv27 with h0 | ⟨hV', -⟩
          · rw [h0, has_zero] at hS; cases hS
          · rw [hV] at hV'; cases hV'
        have hslot := ((h.pteOk hr hu).swapped hV hS).2
        generalize hs : pteSlot (leaf σ.mem r v) = s at *
        simp only [Bool.not_true, Bool.false_or, Bool.false_eq_true, if_false]
        refine (kalloc_spec h).bind ?_
        rintro (_ | f) σ₁ hσ₁
        · obtain ⟨g₁, h1, -, hrole, k1⟩ := hσ₁
          exact ⟨g₁, h1, k1, fun _ _ _ _ _ hf _ => by rw [hrole]; exact hf, .inl rfl⟩
        · obtain ⟨hft, hfk⟩ := hσ₁.not_table rfl
          obtain ⟨g₁, h1, hrole₁, hslots, -, k1, -⟩ := id hσ₁
          have hrf : r ∉ ({f} : Set ℕ) := by rintro rfl; rw [hr] at hft; cases hft
          have hf₁ : g₁.role f = .kern := by rw [hrole₁, setRole_self]
          have hr₁ := (k1.root r hrf).2 hr
          have hs₁ : g₁.slot s = .page r v := (hslots s (by simp [hslot])).trans hslot
          refine (swapread_spec h1 hf₁ (h1.slots.range s (by simp [hs₁]))).bind ?_
          rintro - σ₂ ⟨h2, k2, hbytes, m₂, n, rfl, -⟩
          obtain ⟨hV₂, hS₂, hs₂⟩ := (h2.slot_iff hr₁ hu).1 hs₁
          refine (swapin_commit h2 hr₁ hu ((k1.trans k2).entry h h2 hr hrf ha) hs₁ hf₁ ?_).imp ?_
          · rw [logical, pageOf_swapped hV₂ hS₂, hs₂, hbytes]
          · rintro ret σ₃ ⟨rfl, g₃, h3, k3, hrole₃, hslot₃, hV₃, hother⟩
            refine ⟨g₃, h3, ?_, hσ₁.framesKept fun y hy => ?_, .inr ⟨rfl, hV₃⟩⟩
            swap
            · rw [hother y hy, hrole₁, setRole_of_ne _ _ hy]
            have k23 : Keeps ⟨∅, {f}, {s}⟩ σ g σ₃ g₃ := Keeps.trans
              ((k1.trans k2).mono (fun _ hx => hx) (fun _ hx => hx) (empty_subset _)) k3
            have k24 : Keeps ⟨∅, ∅, {s}⟩ σ g σ₃ g₃ :=
              k23.shrinkFrames h.tree h.leaves fun x hx _ => by
                obtain rfl : x = f := hx
                refine ⟨⟨hfk, fun h0 => ?_⟩, by simp [hrole₃], by simp [hrole₃]⟩
                rw [h0] at hft; cases hft
            exact k24.shrinkSlots fun x hx _ => by
              obtain rfl : x = s := hx
              simp [hslot, hslot₃]

end Xv6Swap
