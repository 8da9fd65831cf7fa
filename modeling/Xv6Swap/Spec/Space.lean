import Xv6Swap.Kernel.Proc
import Xv6Swap.Spec.User

/-!
# The address space of a process

`Shape σ r n` : the pages of the table `r` that are mapped are those with numbers below `n`, and
`TRAPFRAME` and `TRAMPOLINE`.

* `Shape.of_keeps`, `Shape.resize` : what an operation on other tables, or on a range of pages, does
  to the shape;
* `procPagetable_spec` : `proc_pagetable` builds an empty address space, or changes nothing;
* `procFreepagetable_spec` : `proc_freepagetable` frees an address space, without a panic.
-/

namespace Xv6Swap

open Set Nat

variable {σ σ' σ₁ : KState} {g g' g₁ : Ghost} {f r v n a b oldsz : ℕ} {P : Set (ℕ × ℕ)}

/-! ### Shape -/

/-- The mapped pages of the table `r` are `0, …, n - 1`, `TRAPFRAME` and `TRAMPOLINE`. -/
structure Shape (σ : KState) (r n : ℕ) : Prop where
  pages : ∀ v < uvpn, (logical σ r v ≠ none ↔ v < n)
  trapframe : leaf σ.mem r uvpn ≠ 0
  trampoline : leaf σ.mem r trampolineVpn ≠ 0
  rest : ∀ v, trampolineVpn < v → v < 2 ^ 27 → leaf σ.mem r v = 0

section

variable (hs : Shape σ r n) (h : Inv σ g) (hr : g.role r = .root)
include hs h hr

/-- A process has no more pages than there are frames and slots. -/
theorem Shape.le_maxPages : n ≤ maxPages := by
  have hu : maxPages < uvpn := by decide
  by_contra hn
  have := h.count_le hr (a := 0) (n := maxPages + 1) (by omega) fun v _ hv =>
    (hs.pages v (by omega)).2 (by omega)
  omega

theorem Shape.le_uvpn : n ≤ uvpn :=
  (hs.le_maxPages h hr).trans (by decide)

theorem Shape.leaf_eq_zero (hv : n ≤ v) (hu : v < uvpn) : leaf σ.mem r v = 0 := by
  rw [h.leaf_eq_zero_iff hr hu]
  by_contra hne
  exact absurd ((hs.pages v hu).1 hne) (by omega)

end

/-- **A range of pages of the table changes.** -/
theorem Shape.resize {n' : ℕ} (hs : Shape σ r n) (k : Keeps { pages := pageRange r a b } σ g σ' g')
    (hr : g.role r = .root) (hb : b ≤ uvpn)
    (hin : ∀ v, a ≤ v → v < b → (logical σ' r v ≠ none ↔ v < n'))
    (hout : ∀ v < uvpn, ¬ (a ≤ v ∧ v < b) → (v < n ↔ v < n')) : Shape σ' r n' := by
  have hspecial : ∀ {v}, uvpn ≤ v → v < 2 ^ 27 → leaf σ'.mem r v = leaf σ.mem r v :=
    fun hv hv' => k.special r _ hr (notMem_empty _) hv hv' fun hp => by
      have := (mem_pageRange.1 hp).2.2; omega
  refine ⟨fun v hv => ?_, ?_, ?_, fun v hv hv' => ?_⟩
  · by_cases hv' : a ≤ v ∧ v < b
    · exact hin v hv'.1 hv'.2
    · rw [k.page r v hr (notMem_empty _) hv fun hp => hv' (mem_pageRange.1 hp).2, hs.pages v hv,
        hout v hv hv']
  · rw [hspecial (le_refl _) (by decide)]; exact hs.trapframe
  · rw [hspecial (by decide) (by decide)]; exact hs.trampoline
  · rw [hspecial ((by decide : uvpn ≤ trampolineVpn).trans hv.le) hv']; exact hs.rest v hv hv'

/-- **An operation on other tables** keeps the shape. -/
theorem Shape.of_keeps {D : Touch} (hs : Shape σ r n) (k : Keeps D σ g σ' g')
    (hr : g.role r = .root) (hD : r ∉ D.frames) (hP : ∀ v, (r, v) ∉ D.pages) : Shape σ' r n := by
  have hspecial : ∀ {v}, uvpn ≤ v → v < 2 ^ 27 → leaf σ'.mem r v = leaf σ.mem r v :=
    fun hv hv' => k.special r _ hr hD hv hv' (hP _)
  refine ⟨fun v hv => ?_, ?_, ?_, fun v hv hv' => ?_⟩
  · rw [k.page r v hr hD hv (hP v), hs.pages v hv]
  · rw [hspecial (le_refl _) (by decide)]; exact hs.trapframe
  · rw [hspecial (by decide) (by decide)]; exact hs.trampoline
  · rw [hspecial ((by decide : uvpn ≤ trampolineVpn).trans hv.le) hv']; exact hs.rest v hv hv'

theorem Shape.of_onlyBytes {r' : ℕ} (hs : Shape σ r n) (hb : OnlyBytes σ g r' σ')
    (hr : g.role r = .root) : Shape σ' r n := by
  have hleaf : ∀ {v}, v < 2 ^ 27 → leaf σ'.mem r v = leaf σ.mem r v := fun hv => hb.leaf r _ hr hv
  refine ⟨fun v hv => ?_, ?_, ?_, fun v hv hv' => ?_⟩
  · rw [hb.logical_ne_none hr (lt_trans hv (by decide)), hs.pages v hv]
  · rw [hleaf (by decide)]; exact hs.trapframe
  · rw [hleaf (by decide)]; exact hs.trampoline
  · rw [hleaf hv']; exact hs.rest v hv hv'

/-! ### A table that is being built -/

/-- The root `r` has been allocated since `σ`, and is the only change. -/
structure NewTable (σ : KState) (g : Ghost) (r : ℕ) (σ' : KState) (g' : Ghost) : Prop where
  inv : Inv σ' g'
  old : (g.role r).isTable = false ∧ g.role r ≠ .kern
  root : g'.role r = .root
  keeps : Keeps { frames := {r} } σ g σ' g'

/-- A change of pages of `r` only. -/
theorem Keeps.intoTable (k : Keeps { pages := P } σ g σ' g')
    (hP : ∀ v' r', (r', v') ∈ P → r' = r) : Keeps { frames := {r} } σ g σ' g' := by
  have k' : Keeps ⟨P, {r}, ∅⟩ σ g σ' g' :=
    k.mono (fun _ hx => hx) (empty_subset _) fun _ hx => hx
  exact k'.shrinkPages fun r' v' hp _ hr => absurd (hP v' r' hp) hr

theorem NewTable.step (t : NewTable σ g r σ₁ g₁)
    (h : Inv σ' g') (k : Keeps { pages := P } σ₁ g₁ σ' g') (hP : ∀ v' r', (r', v') ∈ P → r' = r) :
    NewTable σ g r σ' g' :=
  ⟨h, t.old, (k.root r (notMem_empty _)).2 t.root, t.keeps.trans (k.intoTable hP)⟩

/-- **The new table is freed again**: nothing has changed. -/
theorem NewTable.freed (t : NewTable σ g r σ₁ g₁) (h : Inv σ g)
    (k : Keeps { frames := {r} } σ₁ g₁ σ' g') (hr : g'.role r = .free) : Keeps {} σ g σ' g' := by
  refine (t.keeps.trans k).shrinkFrames h.tree h.leaves ?_
  rintro x rfl -
  exact ⟨⟨t.old.2, fun hx => by have := t.old.1; rw [hx] at this; cases this⟩, by simp [hr],
    by simp [hr]⟩

/-- **`uvmcreate`** makes an empty table. -/
theorem uvmcreate_spec (h : Inv σ g) : Ensures (uvmcreate σ) (fun o σ' => ∃ g', Inv σ' g' ∧
    (∀ n, HasFree g (n + 1) → o ≠ none ∧ HasFree g' n) ∧ match o with
    | none => Keeps {} σ g σ' g'
    | some r => NewTable σ g r σ' g' ∧ ∀ v, leaf σ'.mem r v = 0) fun _ => False := by
  refine (kalloc_spec h).bind ?_
  rintro (_ | r) σ₁ hσ₁
  · obtain ⟨g₁, h1, h0, -, k1⟩ := hσ₁
    exact ⟨g₁, h1, fun n hn => absurd h0 (h.freelist_ne_zero (hn.mono (by omega))), k1⟩
  · obtain ⟨g₁, hh⟩ := hσ₁.held h
    obtain ⟨h2, hz, k2⟩ := hh.inv.insertRoot hh.kern
    refine ⟨_, h2, fun n hn => ⟨by simp, (hh.free n hn).1.congr fun f hf => ?_⟩,
      ⟨h2, hh.table, Ghost.setRole_self .., hh.keeps.trans k2⟩, hz⟩
    rwa [Ghost.setRole_of_ne _ _ (by rintro rfl; rw [hh.kern] at hf; cases hf)]

theorem NewTable.uvmfree_spec (t : NewTable σ g r σ₁ g₁) (h : Inv σ g)
    (hz : ∀ v < 2 ^ 27, leaf σ₁.mem r v = 0) :
    Ensures ((do uvmfree r 0; pure none : K (Option ℕ)) σ₁) (fun o σ' => o = none ∧ ∃ g',
      Inv σ' g' ∧ Keeps {} σ g σ' g') fun _ => False := by
  refine ((Xv6Swap.uvmfree_spec t.inv t.root (by decide : npg 0 ≤ uvpn) fun v _ hv => hz v hv).mono
    (fun _ _ hq => hq) ?_).bind ?_
  · rintro - ⟨v, hv, -⟩
    exact absurd hv (by simp [npg])
  · rintro - σ₂ ⟨g₂, h2, k2, hfree⟩
    exact ⟨rfl, g₂, h2, t.freed h k2 hfree⟩

/-! ### proc_pagetable -/

/-- What `proc_pagetable` returns and does. -/
def TableBuilt (σ : KState) (g : Ghost) (o : Option ℕ) (σ' : KState) : Prop :=
  ∃ g', Inv σ' g' ∧ (∀ n, HasFree g (n + 5) → o ≠ none ∧ HasFree g' n) ∧ match o with
    | none => Keeps {} σ g σ' g'
    | some r => NewTable σ g r σ' g' ∧ Shape σ' r 0

theorem Link.trampoline_lt (L : Link) : L.trampoline < 2 ^ 56 := by
  have h2 := L.trampoline_le
  have h3 := L.etext_le
  have h4 := L.kend_le
  have h5 : phystop < 2 ^ 56 := by decide
  omega

/-- **`proc_pagetable`.** -/
theorem procPagetable_spec (h : Inv σ g) {tf : ℕ} (htf : tf < 2 ^ 56) :
    Ensures (procPagetable tf σ) (TableBuilt σ g) fun _ => False := by
  have hP : ∀ {r w : ℕ} (v' r' : ℕ), (r', v') ∈ ({(r, w)} : Set (ℕ × ℕ)) → r' = r := by
    rintro r w v' r' ⟨⟩; rfl
  refine (uvmcreate_spec h).bind ?_
  rintro (_ | r) σ₁ ⟨g₁, h1, hn1, hσ₁⟩
  · exact ⟨g₁, h1, fun n hn => absurd rfl (hn1 _ hn).1, hσ₁⟩
  obtain ⟨t1, hz1⟩ := hσ₁
  have hnt := notMem_empty r
  rw [Run.bind_read, show trampolineVa = trampolineVpn * 4096 from rfl,
    show trapframeVa = uvpn * 4096 from rfl]
  refine (mappages_special_spec h1 t1.root (v := trampolineVpn) (by decide) (by decide) (hz1 _)
    σ₁.link.trampoline_lt (by decide) (by decide)).bind ?_
  rintro ret σ₂ ⟨g₂, h2, hn2, ⟨rfl, k2⟩ | ⟨rfl, k2, hl2⟩⟩
  · rw [if_pos (by decide)]
    have t2 := t1.step h2 k2 fun _ _ hx => absurd hx (notMem_empty _)
    refine (t2.uvmfree_spec h fun v hv =>
      k2.leaf_zero h1 h2 t1.root hnt (notMem_empty _) hv (hz1 v)).imp ?_
    rintro _ σ₃ ⟨rfl, g₃, h3, k3⟩
    refine ⟨g₃, h3, fun n hn => ?_, k3⟩
    exact absurd (hn2 (n + 2) (hn1 _ hn).2).1 (by decide)
  rw [if_neg (by decide)]
  have t2 := t1.step h2 k2 hP
  have hz2 : ∀ {v}, v ≠ trampolineVpn → v < 2 ^ 27 → leaf σ₂.mem r v = 0 := fun hv hv' =>
    k2.leaf_zero h1 h2 t1.root hnt (notMem_single hv) hv' (hz1 _)
  have htr2 : leaf σ₂.mem r trampolineVpn ≠ 0 := by
    rw [hl2]
    intro h0
    have := has_leafPte_V σ₁.link.trampoline_lt (pteR ||| pteX)
    rw [h0, has_zero] at this; cases this
  refine (mappages_special_spec h2 t2.root (v := uvpn) (le_refl _) (by decide)
    (hz2 (by decide) (by decide)) htf (by decide) (by decide)).bind ?_
  rintro ret σ₃ ⟨g₃, h3, hn3, ⟨rfl, k3⟩ | ⟨rfl, k3, hl3⟩⟩
  · rw [if_pos (by decide)]
    have t3 := t2.step h3 k3 fun _ _ hx => absurd hx (notMem_empty _)
    refine ((uvmunmap_special_spec h3 t3.root (v := trampolineVpn) (by decide) (by decide)).mono
      (fun _ _ hq => hq) fun _ h0 => htr2 ?_).bind ?_
    · rwa [k3.special r _ t2.root hnt (by decide) (by decide) (notMem_empty _)] at h0
    rintro - σ₄ ⟨g₄, h4, k4, hl4⟩
    have t4 := t3.step h4 k4 hP
    refine (t4.uvmfree_spec h fun v hv => ?_).imp ?_
    · by_cases hv' : v = trampolineVpn
      · rw [hv', hl4]
      · exact k4.leaf_zero h3 h4 t3.root hnt (notMem_single hv') hv
          (k3.leaf_zero h2 h3 t2.root hnt (notMem_empty _) hv (hz2 hv' hv))
    · rintro _ σ₅ ⟨rfl, g₅, h5, k5⟩
      refine ⟨g₅, h5, fun n hn => ?_, k5⟩
      exact absurd (hn3 n (hn2 (n + 2) (hn1 _ hn).2).2).1 (by decide)
  · rw [if_neg (by decide)]
    have hz3 : ∀ {v}, v ≠ trampolineVpn → v ≠ uvpn → v < 2 ^ 27 → leaf σ₃.mem r v = 0 :=
      fun hv hv' hlt => k3.leaf_zero h2 h3 t2.root hnt (notMem_single hv') hlt (hz2 hv hlt)
    have t3 := t2.step h3 k3 hP
    refine ⟨g₃, h3, fun n hn => ⟨by simp, (hn3 n (hn2 (n + 2) (hn1 _ hn).2).2).2⟩, t3,
      fun v hv => ?_, ?_, ?_, fun v hv hv' => hz3 hv.ne' ?_ hv'⟩
    · have hlt : v < 2 ^ 27 := lt_trans hv (by decide)
      have : v ≠ trampolineVpn := (lt_trans hv (by decide)).ne
      rw [← not_iff_not, not_not, ← h3.leaf_eq_zero_iff t3.root hv]
      exact ⟨fun _ => by omega, fun _ => hz3 this hv.ne hlt⟩
    · rw [hl3]
      intro h0
      have := has_leafPte_V htf (pteR ||| pteW)
      rw [h0, has_zero] at this; cases this
    · rw [k3.special r _ t2.root hnt (by decide) (by decide) (notMem_single (by decide))]
      exact htr2
    · exact (lt_trans (by decide) hv).ne'

/-! ### proc_freepagetable -/

/-- **`proc_freepagetable`** of an address space of the right size. -/
theorem procFreepagetable_spec (h : Inv σ g) (hr : g.role r = .root) {sz : ℕ}
    (hs : Shape σ r (npg sz)) : Ensures (procFreepagetable r sz σ) (fun _ σ' => ∃ g', Inv σ' g' ∧
      Keeps { frames := {r} } σ g σ' g' ∧ g'.role r = .free) fun _ => False := by
  have hnt := notMem_empty r
  have hn := hs.le_uvpn h hr
  have hne : ∀ {v w}, v ≠ w → (r, v) ∉ ({(r, w)} : Set (ℕ × ℕ)) := notMem_single
  have huv : uvpn + 1 = trampolineVpn := by decide
  rw [procFreepagetable, show trampolineVa = trampolineVpn * 4096 from rfl,
    show trapframeVa = uvpn * 4096 from rfl]
  refine ((uvmunmap_special_spec h hr (v := trampolineVpn) (by decide) (by decide)).mono
    (fun _ _ hq => hq) fun _ h0 => hs.trampoline h0).bind ?_
  rintro - σ₁ ⟨g₁, h1, k1, hz1⟩
  have hr1 := (k1.root r hnt).2 hr
  have htf : leaf σ₁.mem r uvpn ≠ 0 := by
    rw [k1.special r _ hr hnt (le_refl _) (by decide) (hne (by decide))]
    exact hs.trapframe
  refine ((uvmunmap_special_spec h1 hr1 (v := uvpn) (le_refl _) (by decide)).mono
    (fun _ _ hq => hq) fun _ h0 => htf h0).bind ?_
  rintro - σ₂ ⟨g₂, h2, k2, hz2⟩
  have hr2 := (k2.root r hnt).2 hr1
  have hpage : ∀ {v}, v < uvpn → logical σ₂ r v = logical σ r v := fun {v} hv => by
    rw [k2.page r v hr1 hnt hv (hne hv.ne), k1.page r v hr hnt hv (hne (by omega))]
  refine ((uvmfree_spec h2 hr2 hn fun v hv hv' => ?_).mono ?_ ?_)
  · rcases lt_or_ge v uvpn with hu | hu
    · rw [h2.leaf_eq_zero_iff hr2 hu, hpage hu, ← h.leaf_eq_zero_iff hr hu]
      exact hs.leaf_eq_zero h hr hv hu
    · rcases eq_or_lt_of_le hu with rfl | hu
      · exact hz2
      rcases eq_or_lt_of_le (huv ▸ hu : trampolineVpn ≤ v) with rfl | hu
      · exact k2.leaf_zero h1 h2 hr1 hnt (hne (by decide)) hv' hz1
      · rw [k2.special r v hr1 hnt (by omega) hv' (hne (by omega)),
          k1.special r v hr hnt (by omega) hv' (hne hu.ne')]
        exact hs.rest v hu hv'
  · rintro - σ₃ ⟨g₃, h3, k3, hfree⟩
    refine ⟨g₃, h3, ?_, hfree⟩
    have hP : ∀ {w : ℕ} (v' r' : ℕ), (r', v') ∈ ({(r, w)} : Set (ℕ × ℕ)) → r' = r := by
      rintro w v' r' ⟨⟩; rfl
    exact ((k1.intoTable hP).trans (k2.intoTable hP)).trans k3
  · rintro - ⟨v, hv, hnone⟩
    have hu : v < uvpn := by omega
    rw [hpage hu] at hnone
    exact (hs.pages v hu).2 hv hnone

/-! ### Growing and shrinking -/

theorem npg_mono (h : a ≤ b) : npg a ≤ npg b := Nat.div_le_div_right (by omega)

/-- All user pages of the table `r`. -/
abbrev allPages (r : ℕ) : Set (ℕ × ℕ) := pageRange r 0 uvpn

theorem Keeps.widen {a' b' : ℕ} (k : Keeps { pages := pageRange r a b } σ g σ' g')
    (ha : a' ≤ a) (hb : b ≤ b') : Keeps { pages := pageRange r a' b' } σ g σ' g' :=
  k.mono (fun _ hp => ⟨hp.1, ha.trans hp.2.1, lt_of_lt_of_le hp.2.2 hb⟩) (fun _ hx => hx)
    fun _ hx => hx

/-- `uvmalloc` of an address space: it has the size returned, or, if that is 0, the old one. -/
theorem Shape.uvmalloc_spec {xperm : Word} (hs : Shape σ r (npg oldsz))
    (h : Inv σ g) (hr : g.role r = .root) (newsz : ℕ) (hx : IsFlags xperm)
    (hS : has xperm pteSwapped = false) :
    Ensures (uvmalloc r oldsz newsz xperm σ) (fun ret σ' => ∃ g', Inv σ' g' ∧
      Keeps { pages := pageRange r (npg oldsz) uvpn } σ g σ' g' ∧
      (HasFree g (3 * (npg newsz - npg oldsz)) → UserKept g g') ∧
      (ret = 0 ∧ Shape σ' r (npg oldsz) ∨
        (ret = newsz ∧ oldsz ≤ newsz ∨ ret = oldsz ∧ newsz < oldsz) ∧ Shape σ' r (npg ret)))
      fun _ => False := by
  have hold := hs.le_maxPages h hr
  have hmax : maxPages = 39768 := rfl
  have hu : uvpn = 67108862 := rfl
  refine (Xv6Swap.uvmalloc_spec h hr oldsz newsz (by omega) hx hS
    fun v hv hv' => hs.leaf_eq_zero h hr hv hv').imp ?_
  rintro ret σ' ⟨g', h', hkept, ⟨hret, k⟩ | ⟨rfl, hle, hmax', k, hlog⟩⟩
  · have hs' := hs.of_keeps k hr (notMem_empty _) fun _ => notMem_empty _
    refine ⟨g', h', k.mono_empty _, hkept, ?_⟩
    rcases hret with ⟨rfl, hlt⟩ | rfl
    · exact .inr ⟨.inr ⟨rfl, hlt⟩, hs'⟩
    · exact .inl ⟨rfl, hs'⟩
  · have hle' := npg_mono hle
    refine ⟨g', h', k.widen (le_refl _) (by omega), hkept, .inr ⟨.inl ⟨rfl, hle⟩, ?_⟩⟩
    refine hs.resize k hr (by omega) (fun v h1 h2 => ?_) fun v hv hout => by omega
    simp [hlog v h1 h2, h2]

/-- `uvmdealloc` of an address space: it has the size returned. -/
theorem Shape.uvmdealloc_spec (hs : Shape σ r (npg oldsz))
    (h : Inv σ g) (hr : g.role r = .root) (newsz : ℕ) :
    Ensures (uvmdealloc r oldsz newsz σ) (fun ret σ' => ∃ g', Inv σ' g' ∧
      Keeps { pages := pageRange r (npg newsz) (npg oldsz) } σ g σ' g' ∧ Shape σ' r (npg ret))
      fun _ => False := by
  have hold := hs.le_uvpn h hr
  refine (Xv6Swap.uvmdealloc_spec h hr oldsz newsz hold).mono ?_ ?_
  · rintro ret σ' ⟨rfl, g', h', k, hz⟩
    refine ⟨g', h', k, hs.resize k hr hold (fun v h1 h2 => ?_) fun v hv hout => ?_⟩
    · have hr' := (k.root r (notMem_empty _)).2 hr
      rw [← not_iff_not, not_not, ← h'.leaf_eq_zero_iff hr' (by omega)]
      have := npg_mono (min_le_right oldsz newsz)
      exact ⟨fun _ => by omega, fun _ => hz v h1 h2⟩
    · rcases le_total oldsz newsz with hle | hle
      · rw [min_eq_left hle]
      · rw [min_eq_right hle]
        have := npg_mono hle
        omega
  · rintro - ⟨w, -, h2, h3⟩
    exact (hs.pages w (by omega)).2 h2 h3

end Xv6Swap
