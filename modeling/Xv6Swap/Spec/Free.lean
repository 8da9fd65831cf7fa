import Xv6Swap.Spec.Unmap
import Mathlib.Data.Set.Disjoint

/-!
# Tearing a page table down

`freewalk` frees the page-table pages of a table without leaf entries, from the bottom up
(`freewalk_spec`), and `uvmfree` unmaps the user pages first (`uvmfree_spec`).

The proof hands all the pages of the table over to the kernel in one step (`Inv.dropTable`), with
their contents; from there on `freewalk` only frees frames of the kernel, following entries it has
not touched yet (`freewalk_node`).
-/

namespace Xv6Swap

open Mem Set

variable {σ : KState} {g : Ghost} {r q d k x i p : ℕ} {m : Mem} {ρ ρ' : ℕ → Role}

/-! ### Giving a table up -/

theorem Role.child_tableOf {w w' : Role} (h : w.child q k = some w') :
    w = .root ∧ w'.tableOf = some q ∨ w'.tableOf = w.tableOf ∧ w.tableOf ≠ Option.none := by
  cases w <;> simp [Role.child] at h <;> subst h <;> simp [Role.tableOf]

/-- Without the pages of the table `r` the others still form page tables. -/
theorem Tree.removeTable (T : Tree m ρ) (hr : ρ r = .root)
    (hin : ∀ x, x = r ∨ (ρ x).tableOf = some r → (ρ' x).isTable = false)
    (hout : ∀ x, ¬ (x = r ∨ (ρ x).tableOf = some r) → ρ' x = ρ x) : Tree m ρ' := by
  have hkeep : ∀ {x}, (ρ' x).isTable = true → ¬ (x = r ∨ (ρ x).tableOf = some r) ∧ ρ' x = ρ x := by
    intro x hx
    have hn : ¬ (x = r ∨ (ρ x).tableOf = some r) := fun h0 => by
      rw [hin x h0] at hx; cases hx
    exact ⟨hn, hout x hn⟩
  refine ⟨fun x hx => T.frame x (by rw [← (hkeep hx).2]; exact hx), fun p k w hc hk => ?_,
    fun x hx => ?_⟩
  · obtain ⟨hp, hpe⟩ := hkeep (Role.isTable_of_child hc).1
    rw [hpe] at hc
    refine (T.ent p k w hc hk).imp id fun ⟨x, hx, hw⟩ => ⟨x, hx, ?_⟩
    have hxi := (Role.isTable_of_child hc).2
    rw [hout x, hw]
    rintro (rfl | hx')
    · -- a root is not a child
      rw [← hw, hr] at hxi; cases hxi
    · rw [hw] at hx'
      rcases Role.child_tableOf hc with ⟨-, ht⟩ | ⟨ht, hne⟩
      · rw [ht] at hx'; exact hp (.inl (Option.some.inj hx'))
      · rw [ht] at hx'; exact hp (.inr hx')
  · obtain ⟨hn, he⟩ := hkeep (Role.isTable_of_isInner hx)
    rw [he] at hx
    obtain ⟨p, k, hk, hc, hload⟩ := T.back x hx
    have hp : ρ' p = ρ p := hout p fun h0 => hn (.inr ?_)
    · exact ⟨p, k, hk, by rw [hp, he]; exact hc, hload⟩
    · rcases Role.child_tableOf hc with ⟨hroot, ht⟩ | ⟨ht, hne⟩
      · rcases h0 with rfl | h0
        · exact ht
        · rw [hroot] at h0; cases h0
      · rcases h0 with rfl | h0
        · rw [hr] at hne; exact absurd rfl hne
        · rw [ht]; exact h0

/-- The frames of the page table `r`. -/
def tableFrames (g : Ghost) (r : ℕ) : Set ℕ := { x | x = r ∨ (g.role x).tableOf = some r }

/-- The frames of the table `r` are handed over to the kernel. -/
def Ghost.dropTable (g : Ghost) (r : ℕ) : Ghost :=
  { g with role := fun x => if x = r ∨ (g.role x).tableOf = some r then .kern else g.role x }

theorem Ghost.dropTable_of_mem (h : x ∈ tableFrames g r) :
    (g.dropTable r).role x = .kern := if_pos h

theorem Ghost.dropTable_of_notMem (h : x ∉ tableFrames g r) :
    (g.dropTable r).role x = g.role x := if_neg h

/-- **A table without leaf entries is given up.** -/
theorem Inv.dropTable (h : Inv σ g) (hr : g.role r = .root)
    (hz : ∀ v < 2 ^ 27, leaf σ.mem r v = 0) :
    Inv σ (g.dropTable r) ∧ Keeps { frames := tableFrames g r } σ g σ (g.dropTable r) := by
  have htab : ∀ {x}, x ∈ tableFrames g r → (g.role x).isTable = true := by
    rintro x (rfl | hx)
    · rw [hr]; rfl
    · cases hw : g.role x <;> rw [hw] at hx <;> simp [Role.tableOf] at hx <;> rfl
  have hsame : ∀ {u : Role}, u.isTable = false → u ≠ .kern → ∀ x,
      ((g.dropTable r).role x = u ↔ g.role x = u) := by
    intro u h1 h2 x
    by_cases hx : x ∈ tableFrames g r
    · rw [Ghost.dropTable_of_mem hx]
      constructor
      · intro h0; exact absurd h0.symm h2
      · intro h0
        have := htab hx
        rw [h0, h1] at this; cases this
    · rw [Ghost.dropTable_of_notMem hx]
  have hroot : ∀ {x}, g.role x = .root → x ≠ r → (g.dropTable r).role x = .root :=
    fun {x} hx hne => by
    rw [Ghost.dropTable_of_notMem]
    · exact hx
    · rintro (h0 | h0)
      · exact hne h0
      · rw [hx] at h0; cases h0
  have hroot' : ∀ {x}, (g.dropTable r).role x = .root → g.role x = .root ∧ x ≠ r := fun {x} hx => by
    by_cases hm : x ∈ tableFrames g r
    · rw [Ghost.dropTable_of_mem hm] at hx; cases hx
    · rw [Ghost.dropTable_of_notMem hm] at hx
      exact ⟨hx, fun h0 => hm (.inl h0)⟩
  have hne : ∀ {v : ℕ} {flag : Word}, v < uvpn → has (leaf σ.mem r v) flag ≠ true :=
    fun hv h0 => by
      rw [hz _ (lt_trans hv (by decide)), has_zero] at h0; cases h0
  constructor
  · refine ⟨fun x => ?_, h.free.congr (fun _ _ => AgreeOn.refl _ _ _) (hsame rfl (by simp)),
      h.hist.congr (hsame rfl (by simp)), ?_, ⟨fun r' v hr' hv => ?_, fun r' v hr' hv hv' => ?_,
        fun x r' v hx => ?_, fun s r' v hs => ?_⟩,
      h.slots.congr (AgreeOn.refl _ _ _) (hsame rfl (by simp)) fun _ => Iff.rfl,
      h.lru.congr fun i _ r' v hi => (hsame rfl (by simp) _).2 hi⟩
    · rw [Ne, hsame rfl (by simp)]; exact h.dom x
    · refine h.tree.removeTable hr (fun x hx => ?_) fun x hx => Ghost.dropTable_of_notMem hx
      rw [Ghost.dropTable_of_mem hx]; rfl
    · obtain ⟨h1, h2, h3⟩ := h.leaves.ok r' v (hroot' hr').1 hv
      exact ⟨fun hV => ⟨(h1 hV).1, (h1 hV).2.1, (hsame rfl (by simp) _).2 (h1 hV).2.2⟩, h2, h3⟩
    · exact h.leaves.special r' v (hroot' hr').1 hv hv'
    · obtain ⟨hr', hv, hV, hpa⟩ := h.leaves.user x r' v ((hsame rfl (by simp) x).1 hx)
      exact ⟨hroot hr' (by rintro rfl; exact hne hv hV), hv, hV, hpa⟩
    · obtain ⟨hr', hv, hV, hS, hsl⟩ := h.leaves.slot s r' v hs
      exact ⟨hroot hr' (by rintro rfl; exact hne hv hS), hv, hV, hS, hsl⟩
  · refine Keeps.of_agree h.leaves rfl rfl (fun x hx hne => ?_)
      (fun _ _ _ => AgreeOn.refl _ _ _) (fun x r' v hx hw => ?_) (fun x r' hx hw => ?_)
      (fun _ _ _ _ _ _ => rfl) (fun x r' v hp _ _ => ⟨hp.off, rfl, rfl⟩) (fun _ _ => Iff.rfl)
      (fun _ _ _ _ => rfl) fun _ _ => rfl
    · exact absurd (Ghost.dropTable_of_notMem hx) hne
    · have := htab hx
      rw [hw] at this; cases this
    · rcases hx with rfl | hx
      · rw [hr] at hw; cases hw
      · rw [hx] at hw; cases hw; exact .inl rfl

/-! ### freewalk -/

/-- The frames of `S` are the kernel's and hold what they held in `m₀`. -/
def Doomed (m₀ : Mem) (S : Set ℕ) (σ : KState) (g : Ghost) : Prop :=
  ∀ x ∈ S, g.role x = .kern ∧ AgreeOn m₀ σ.mem x 4096

/-- The frames of `S` have been freed. -/
def Freed (S : Set ℕ) (σ : KState) (g : Ghost) (σ' : KState) : Prop :=
  ∃ g', Inv σ' g' ∧ (∀ x ∈ S, g'.role x = .free) ∧ (∀ x, x ∉ S → g'.role x = g.role x) ∧
    Keeps { frames := S } σ g σ' g'

theorem has_pde_rwx {f : ℕ} (hf : IsFrame f) : has (pde f) (pteR ||| pteW ||| pteX) = false := by
  have hmask : ∀ i < 64, (pteR ||| pteW ||| pteX).getLsbD i = true → 1 ≤ i ∧ i ≤ 3 := by
    decide
  have hz : pde f &&& (pteR ||| pteW ||| pteX) = 0 := by
    apply BitVec.eq_of_getLsbD_eq
    intro i hi
    rw [BitVec.getLsbD_and]
    cases hb : (pteR ||| pteW ||| pteX).getLsbD i with
    | false => simp
    | true =>
      obtain ⟨h1, h2⟩ := hmask i hi hb
      rw [pde, pa2pte_eq hf.lt, getLsbD_shiftLeft_or _ _ (by omega),
        show pteV = 1#64 <<< 0 from rfl, getLsbD_one_shiftLeft (by omega)]
      simp [show i ≠ 0 by omega]
  simp [has, hz]

/-- What the loop of `freewalk` can find in entry `k` of the page `q`: no pointer; or a pointer to
a page `c` whose frames `S` the recursive call frees. -/
def EntryFreed (m₀ : Mem) (d q k : ℕ) (S : Set ℕ) : Prop :=
  has (m₀.load64 (q + 8 * k)) pteV = false ∧ S = ∅ ∨
  ∃ c, m₀.load64 (q + 8 * k) = pde c ∧ IsFrame c ∧ ∀ σ g, Inv σ g → Doomed m₀ S σ g →
    Ensures (freewalk d c σ) (fun _ => Freed S σ g) fun _ => False

/-- **`freewalk` on one page**, from what it does on the pages below. -/
theorem freewalk_node {m₀ : Mem} {S : ℕ → Set ℕ} (hent : ∀ k < 512, EntryFreed m₀ d q k (S k))
    (hdisj : ∀ k k' x, x ∈ S k → x ∈ S k' → k = k') (hq : ∀ k, q ∉ S k) (h : Inv σ g)
    (hd : Doomed m₀ { x | x = q ∨ ∃ k < 512, x ∈ S k } σ g) :
    Ensures (freewalk (d + 1) q σ) (fun _ => Freed { x | x = q ∨ ∃ k < 512, x ∈ S k } σ g)
      fun _ => False := by
  have hqk : g.role q = .kern := (hd q (.inl rfl)).1
  have hqf := h.isFrame_of_eq hqk (by simp)
  have hqm := hqf.1
  rw [freewalk]
  refine (Run.each_range_spec (n := 512) (I := fun k σ' => ∃ g', Inv σ' g' ∧ g'.role q = .kern ∧
      (∀ x k', k' < k → x ∈ S k' → g'.role x = .free) ∧
      (∀ x, (∀ k' < k, x ∉ S k') → g'.role x = g.role x) ∧
      Keeps { frames := { x | x = q ∨ ∃ k < 512, x ∈ S k } } σ g σ' g' ∧
      (∀ k', k ≤ k' → k' < 512 → σ'.mem.load64 (q + 8 * k') = m₀.load64 (q + 8 * k')) ∧
      ∀ x k', k ≤ k' → k' < 512 → x ∈ S k' → AgreeOn m₀ σ'.mem x 4096)
    (fun k hk σ' => ?_) ?_).bind ?_
  · rintro ⟨g', h', hq', hdone, hrest, k', hload, hag⟩
    simp only [K.load, Run.bind_read, hload k (le_refl _) hk]
    rcases hent k hk with ⟨hV, hS⟩ | ⟨c, hc, hcf, hspec⟩
    · simp only [hV, Bool.false_and, Bool.false_eq_true, if_false]
      refine ⟨g', h', hq', fun x j hj hx => ?_, fun x hx => hrest x fun j hj => hx j (by omega), k',
        fun j hj => hload j (by omega), fun x j hj => hag x j (by omega)⟩
      by_cases hjk : j = k
      · rw [hjk, hS] at hx; exact absurd hx (notMem_empty _)
      · exact hdone x j (by omega) hx
    · rw [hc, has_pde hcf, has_pde_rwx hcf, pte2pa_pde hcf]
      simp only [Bool.not_false, Bool.and_self, if_true]
      -- the frames below have not been touched yet
      have hnew : ∀ x ∈ S k, ∀ j < k, x ∉ S j := fun x hx j hj hxj => by
        have := hdisj j k x hxj hx; omega
      have hdk : Doomed m₀ (S k) σ' g' := fun x hx =>
        ⟨(hrest x (hnew x hx)).trans (hd x (.inr ⟨k, hk, hx⟩)).1, hag x k (le_refl _) hk hx⟩
      refine (hspec σ' g' h' hdk).bind ?_
      rintro - σ₁ ⟨g₁, h1, hfree, hother, k1⟩
      have hq₁ : g₁.role q = .kern := (hother q (hq k)).trans hq'
      obtain ⟨h2, k2⟩ := h1.writeKern hq₁
        ((sameOutside_store64 σ₁.mem (q + 8 * k) 0).mono (by omega) (by omega))
      refine ⟨g₁, h2, hq₁, fun x j hj hx => ?_, fun x hx => ?_, ?_, fun j hj hj' => ?_,
        fun x j hj hj' hx => ?_⟩
      · by_cases hjk : j = k
        · exact hfree x (hjk ▸ hx)
        · rw [hother x fun hxk => hjk (hdisj j k x hx hxk)]
          exact hdone x j (by omega) hx
      · rw [hother x (hx k (by omega))]
        exact hrest x fun j hj => hx j (by omega)
      · exact (k'.trans (k1.mono (fun _ hx => hx) (fun x hx => .inr ⟨k, hk, hx⟩)
          fun _ hx => hx)).trans (k2.mono (fun _ hx => hx) (fun x hx => .inl hx) fun _ hx => hx)
      · have hqb := k1.bytes q (hq k) hq'
        change (σ₁.mem.store64 (q + 8 * k) 0).load64 (q + 8 * j) = _
        rw [load64_store64_of_ne _ (by omega) (by omega) (by omega),
          load64_congr (hqb.mono (by omega) (by omega)), hload j (by omega) hj']
      · have hxk : x ∉ S k := fun hxk => by have := hdisj j k x hx hxk; omega
        have hx' : g'.role x = .kern := (hrest x fun i hi hxi => by
          have := hdisj i j x hxi hx; omega).trans (hd x (.inr ⟨j, hj', hx⟩)).1
        have hxq : x ≠ q := by rintro rfl; exact hq j hx
        have hap := (h'.isFrame_of_eq hx' (by simp)).apart hqf hxq
        exact ((hag x j (by omega) hj' hx).trans (k1.bytes x hxk hx')).trans
          (agreeOn_store64 _ (by omega))
  · refine ⟨g, h, hqk, fun x j hj => absurd hj (by omega), fun _ _ => rfl, Keeps.refl ..,
      fun j _ hj => ?_, fun x j _ hj hx => (hd x (.inr ⟨j, hj, hx⟩)).2⟩
    exact load64_congr ((hd q (.inl rfl)).2.mono (by omega) (by omega))
  · rintro - σ₁ ⟨g₁, h1, hq₁, hdone, hrest, k1, -, -⟩
    refine (kfree_spec h1 hq₁).imp ?_
    rintro - σ₂ ⟨-, h2, k2, -⟩
    refine ⟨_, h2, ?_, fun x hx => ?_, k1.trans (k2.mono (fun _ hx => hx) (fun x hx => .inl hx)
      fun _ hx => hx)⟩
    · rintro x (rfl | ⟨k, hk, hx⟩)
      · exact Ghost.setRole_self ..
      · rw [Ghost.setRole_of_ne _ _ (by rintro rfl; exact hq k hx)]
        exact hdone x k hk hx
    · rw [Ghost.setRole_of_ne _ _ fun h0 => hx (.inl h0)]
      exact hrest x fun k hk hxk => hx (.inr ⟨k, hk, hxk⟩)

section

variable (h : Inv σ g) (hr : g.role r = .root) (hz : ∀ v, v < 2 ^ 27 → leaf σ.mem r v = 0)

include h hz in
/-- The pages of level 0 of a table without leaf entries. -/
theorem entryFreed_low {j : ℕ} (hp : g.role p = .low r i j) (hk : k < 512) :
    EntryFreed σ.mem 0 p k ∅ := by
  obtain ⟨-, hi, hj⟩ := h.tree.low_root hp
  have hv : ∀ v, v = i * 262144 + j * 512 + k → σ.mem.load64 (p + 8 * k) = leaf σ.mem r v := by
    intro v hv
    have h2 : px 2 (v * 4096) = i := by rw [px_two]; omega
    have h1 : px 1 (v * 4096) = j := by rw [px_one]; omega
    have h0 : px 0 (v * 4096) = k := by rw [px_zero]; omega
    rw [h.tree.leaf_eq (by rw [h2, h1]; exact hp), h0]
  refine .inl ⟨?_, rfl⟩
  rw [hv _ rfl, hz _ (by omega), has_zero]

include h hz in
/-- The pages of level 1 of a table without leaf entries. -/
theorem entryFreed_mid (hp : g.role p = .mid r i) (hk : k < 512) :
    EntryFreed σ.mem 1 p k { x | g.role x = .low r i k } := by
  rcases h.tree.midEnt hp hk with h0 | ⟨l, hl, hlr⟩
  · refine .inl ⟨by rw [h0, has_zero], eq_empty_iff_forall_notMem.2 fun x hx => ?_⟩
    obtain ⟨-, p', hp', hpx⟩ := h.tree.lowBack hx
    rw [h.tree.mid_unique hp' hp, h0] at hpx
    exact pde_ne_zero (h.tree.frame_low hx) hpx.symm
  · refine .inr ⟨l, hl, h.tree.frame_low hlr, fun σ' g' h' hd => ?_⟩
    have hset : { x | x = l ∨ ∃ k' < 512, x ∈ (∅ : Set ℕ) } = { x | g.role x = .low r i k } := by
      ext x
      constructor
      · rintro (rfl | ⟨_, _, hx⟩)
        exacts [hlr, absurd hx (notMem_empty _)]
      · exact fun hx => .inl (h.tree.low_unique hx hlr)
    have := freewalk_node (S := fun _ => ∅) (fun k' hk' => entryFreed_low h hz hlr hk')
      (fun _ _ _ hx => absurd hx (notMem_empty _)) (fun _ => notMem_empty _) h' (hset ▸ hd)
    rwa [hset] at this

include h hr hz in
/-- The root of a table without leaf entries. -/
theorem entryFreed_root (hk : k < 512) : EntryFreed σ.mem 2 r k
    { x | g.role x = .mid r k ∨ ∃ j, g.role x = .low r k j } := by
  rcases h.tree.rootEnt hr hk with h0 | ⟨p, hp, hpr⟩
  · have hno : ∀ x, g.role x ≠ .mid r k := fun x hx => by
      have := (h.tree.midBack hx).2.2
      rw [h0] at this
      exact pde_ne_zero (h.tree.frame_mid hx) this.symm
    refine .inl ⟨by rw [h0, has_zero], eq_empty_iff_forall_notMem.2 ?_⟩
    rintro x (hx | ⟨j, hx⟩)
    · exact hno x hx
    · obtain ⟨-, p', hp', -⟩ := h.tree.lowBack hx
      exact hno p' hp'
  · refine .inr ⟨p, hp, h.tree.frame_mid hpr, fun σ' g' h' hd => ?_⟩
    have hset : { x | x = p ∨ ∃ j < 512, x ∈ { x | g.role x = .low r k j } } =
        { x | g.role x = .mid r k ∨ ∃ j, g.role x = .low r k j } := by
      ext x
      constructor
      · rintro (rfl | ⟨j, -, hx⟩)
        exacts [.inl hpr, .inr ⟨j, hx⟩]
      · rintro (hx | ⟨j, hx⟩)
        · exact .inl (h.tree.mid_unique hx hpr)
        · exact .inr ⟨j, (h.tree.lowBack hx).1, hx⟩
    have := freewalk_node (fun j hj => entryFreed_mid h hz hpr hj)
      (fun j j' x hx hx' => by cases hx.symm.trans hx'; rfl)
      (fun j hx => by cases hpr.symm.trans hx) h' (hset ▸ hd)
    rwa [hset] at this

include h hr hz in
/-- **`freewalk`** frees the pages of a table without leaf entries. -/
theorem freewalk_spec : Ensures (freewalk 3 r σ) (fun _ σ' => ∃ g', Inv σ' g' ∧
    Keeps { frames := {r} } σ g σ' g' ∧ g'.role r = .free) fun _ => False := by
  obtain ⟨h1, k1⟩ := h.dropTable hr hz
  have hset : { x | x = r ∨ ∃ k < 512, x ∈ { x | g.role x = .mid r k ∨
      ∃ j, g.role x = .low r k j } } = tableFrames g r := by
    ext x
    constructor
    · rintro (rfl | ⟨k, -, hx | ⟨j, hx⟩⟩)
      · exact .inl rfl
      · exact .inr (by rw [hx]; rfl)
      · exact .inr (by rw [hx]; rfl)
    · rintro (rfl | hx)
      · exact .inl rfl
      · cases hw : g.role x <;> rw [hw] at hx <;> simp [Role.tableOf] at hx <;> subst hx
        · exact .inr ⟨_, (h.tree.midBack hw).1, .inl hw⟩
        · exact .inr ⟨_, (h.tree.low_root hw).2.1, .inr ⟨_, hw⟩⟩
  have hd : Doomed σ.mem (tableFrames g r) σ (g.dropTable r) := fun x hx =>
    ⟨Ghost.dropTable_of_mem hx, AgreeOn.refl _ _ _⟩
  have := freewalk_node (fun k hk => entryFreed_root h hr hz hk) (fun k k' x hx hx' => ?_)
    (fun k hx => ?_) h1 (hset ▸ hd)
  · rw [hset] at this
    refine this.imp ?_
    rintro - σ' ⟨g', h', hfree, -, k'⟩
    refine ⟨g', h', (k1.trans k').shrinkFrames h.tree h.leaves fun x hx hne => ?_,
      hfree r (.inl rfl)⟩
    rw [hfree x hx]
    rcases hx with rfl | hx
    · exact absurd rfl hne
    · cases hw : g.role x <;> rw [hw] at hx <;> simp [Role.tableOf] at hx <;> simp
  · rcases hx with hx | ⟨j, hx⟩ <;> rcases hx' with hx' | ⟨j', hx'⟩ <;>
      cases hx.symm.trans hx' <;> rfl
  · rcases hx with hx | ⟨j, hx⟩ <;> cases hr.symm.trans hx

end

/-- **`uvmfree`** of an address space of `sz` bytes frees everything. -/
theorem uvmfree_spec (h : Inv σ g) (hr : g.role r = .root) {sz : ℕ} (hsz : npg sz ≤ uvpn)
    (hz : ∀ v, npg sz ≤ v → v < 2 ^ 27 → leaf σ.mem r v = 0) :
    Ensures (uvmfree r sz σ) (fun _ σ' => ∃ g', Inv σ' g' ∧ Keeps { frames := {r} } σ g σ' g' ∧
      g'.role r = .free) fun _ => ∃ v < npg sz, logical σ r v = none := by
  have hsz' : sz + 4095 < 2 ^ 64 := by
    simp only [uvpn, trapframeVa, trampolineVa, maxva, pgsize, npg] at hsz; omega
  rw [uvmfree]
  split
  · have hn : pgroundup sz / pgsize = npg sz := by
      rw [pgroundup_eq hsz']; exact Nat.mul_div_cancel _ (by decide)
    rw [hn, show (0 : ℕ) = 0 * 4096 from rfl]
    refine ((uvmunmap_spec h hr (v := 0) (n := npg sz) (by omega)).mono (fun _ _ hq => hq)
      fun e he => ?_).bind ?_
    · obtain ⟨w, -, hw, hlog⟩ := he
      exact ⟨w, by omega, hlog⟩
    rintro - σ₁ ⟨g₁, h1, k1, hz1⟩
    have hr₁ := (k1.root r (notMem_empty _)).2 hr
    refine (freewalk_spec h1 hr₁ fun v hv => ?_).weaken.imp ?_
    · by_cases hlt : v < npg sz
      · exact hz1 v (by omega) (by omega)
      · refine k1.leaf_zero h h1 hr (notMem_empty _) (fun hx => ?_) hv (hz v (by omega) hv)
        have := hx.2.2
        simp only at this; omega
    · rintro - σ₂ ⟨g₂, h2, k2, hfree⟩
      refine ⟨g₂, h2, ?_, hfree⟩
      have k12 : Keeps ⟨pageRange r 0 (0 + npg sz), {r}, ∅⟩ σ g σ₂ g₂ :=
        Keeps.trans (k1.mono (fun _ hx => hx) (empty_subset _) fun _ hx => hx)
          (k2.mono (empty_subset _) (fun _ hx => hx) fun _ hx => hx)
      exact k12.shrinkPages fun r' v' hp _ hr' => absurd hp.1 hr'
  · rename_i h0
    obtain rfl : sz = 0 := by omega
    exact (freewalk_spec h hr fun v hv => hz v (by simp [npg]) hv).weaken

end Xv6Swap
