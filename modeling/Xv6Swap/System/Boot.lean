import Xv6Swap.System.Accounts

/-!
# Booting

`main` of `kernel/main.c` calls `kinit` and `swapinit` before anything else of the memory system.
`boot_spec` says that they set the accounts up, from any contents of memory and disk: every frame
is free but the one of the swap bitmap.
-/

namespace Xv6Swap

open Function KState Ghost Nat

variable {a p : ℕ}

/-- The state in which `main` is entered: the variables of the kernel are zero, memory and disk
hold anything. -/
def KState.fresh (link : Link) (mem : Mem) (disk : ℕ → ℕ → Byte) : KState where
  link := link
  mem := mem
  own := mem
  freelist := 0
  pages := fun _ => ⟨none, none, 0, 0⟩
  lruHead := none
  lruTail := none
  swapBitmap := 0
  swapSlots := 0
  disk := disk
  nrSectorsRead := 0
  nrSectorsWrite := 0
  trace := []

/-- The memory system's part of `main`. -/
def boot : K Unit := do
  kinit
  swapinit

/-- The system after `main` has set up the memory system, before the first process. -/
def Sys.booted (σ : KState) : Sys where
  k := σ
  proc := fun _ => Proc.empty
  nextpid := 1
  initproc := 0

/-! ### kinit -/

/-- The roles while `freerange` runs from `a`: the frames below `p` are free. -/
def upTo (a p : ℕ) (f : ℕ) : Role := if f % 4096 = 0 ∧ a ≤ f ∧ f < p then .free else .none

theorem upTo_eq_free {f : ℕ} : upTo a p f = .free ↔ f % 4096 = 0 ∧ a ≤ f ∧ f < p := by
  rw [upTo]; split <;> simp_all

theorem upTo_succ (ha : p % 4096 = 0) (hp : a ≤ p) :
    update (upTo a p) p .free = upTo a (p + 4096) := by
  funext f
  by_cases hf : f = p
  · subst hf
    rw [update_self, eq_comm, upTo_eq_free]
    omega
  · rw [update_of_ne hf, upTo, upTo]
    have : (f % 4096 = 0 ∧ a ≤ f ∧ f < p) ↔ f % 4096 = 0 ∧ a ≤ f ∧ f < p + 4096 := by omega
    simp only [this]

/-- What `freerange` has done when it has reached `p`. -/
structure Ranged (a p : ℕ) (σ σ' : KState) : Prop where
  free : FreeOk σ'.mem σ'.freelist (upTo a p)
  hist : HistOk σ'.trace (upTo a p)
  same : ∃ m fl t, σ' = { σ with mem := m, freelist := fl, trace := t }

theorem freerange_spec {σ₀ : KState} (ha : a % 4096 = 0) (hk : σ₀.link.kend ≤ a) :
    ∀ (n p : ℕ) (σ : KState), p % 4096 = 0 → a ≤ p → p + n * 4096 ≤ phystop → Ranged a p σ₀ σ →
    Ensures (freerange n p σ) (fun _ => Ranged a (p + n * 4096) σ₀) fun _ => False := by
  have hframe : ∀ {f}, f % 4096 = 0 → a ≤ f → f < phystop → Allocatable σ₀.link f :=
    fun h1 h2 h3 => ⟨h1, hk.trans h2, h3⟩
  intro n
  induction n with
  | zero => intro p σ _ _ _ h; simpa [freerange] using h
  | succ n ih =>
    intro p σ hp hap hend h
    obtain ⟨hfree, hhist, m, fl, t, rfl⟩ := h
    have hlt : p < phystop := by omega
    have hne : upTo a p p ≠ .free := fun hx => by have := upTo_eq_free.1 hx; omega
    have hfr : ∀ x, upTo a p x = .free → IsFrame x := fun x hx => by
      obtain ⟨h1, h2, h3⟩ := upTo_eq_free.1 hx
      exact (hframe h1 h2 (by omega)).isFrame
    rw [freerange, Run.bind_ok (kfree_apply (σ := { σ₀ with mem := m, freelist := fl, trace := t })
      (hframe hp hap hlt)), show p + (n + 1) * 4096 = p + pgsize + n * 4096 by
        simp only [pgsize]; omega]
    refine ih _ _ (by simp only [pgsize]; omega) (by omega) (by simp only [pgsize]; omega)
      ⟨?_, ?_, _, _, _, rfl⟩
    · rw [← upTo_succ hp hap]
      exact hfree.push hfr (hframe hp hap hlt).isFrame hne 1
    · rw [← upTo_succ hp hap]
      exact hhist.push hne

/-- **`kinit`** puts every allocatable frame on the free list. -/
theorem kinit_spec (link : Link) (mem : Mem) (disk : ℕ → ℕ → Byte) :
    Ensures (kinit (.fresh link mem disk)) (fun _ => Ranged (npg link.kend * 4096) phystop
      (.fresh link mem disk)) fun _ => False := by
  have hk := link.kend_le
  have hp : phystop = 557056 * 4096 := by decide
  have hup : pgroundup link.kend = npg link.kend * 4096 := pgroundup_eq (by omega)
  have hle : npg link.kend ≤ 557056 := by simp only [npg]; omega
  have hstart : ∀ f, upTo (npg link.kend * 4096) (npg link.kend * 4096) f = .none := fun f => by
    rw [upTo, if_neg (by omega)]
  have hn : (phystop - npg link.kend * 4096) / pgsize = 557056 - npg link.kend := by
    simp only [pgsize]; omega
  rw [kinit, Run.bind_read, show (fresh link mem disk).link = link from rfl, hup]
  dsimp only
  rw [hn]
  have hend : npg link.kend * 4096 + (557056 - npg link.kend) * 4096 = phystop := by omega
  rw [← hend]
  refine freerange_spec (by omega) ?_ _ _ _ (by omega) (le_refl _) (by omega) ⟨?_, ?_, _, _, _, rfl⟩
  · change link.kend ≤ _
    simp only [npg]; omega
  · refine ⟨[], rfl, List.nodup_nil, fun f => ?_⟩
    rw [hstart]; simp
  · refine ⟨trivial, fun f => ?_⟩
    rw [hstart]; simp [FreeAfter, fresh]

/-! ### swapinit -/

/-- The ghost after `swapinit`: all frames are free but that of the bitmap. -/
def Ghost.booted (a bm : ℕ) : Ghost where
  role := update (upTo a phystop) bm .bitmap
  slot := fun _ => .free
  lru := []

theorem Ghost.booted_cases (a bm f : ℕ) : (booted a bm).role f = .free ∨
    (booted a bm).role f = .bitmap ∨ (booted a bm).role f = .none := by
  by_cases hf : f = bm
  · subst hf; exact .inr (.inl (update_self ..))
  · rw [show (booted a bm).role f = upTo a phystop f from update_of_ne hf .., upTo]
    split <;> simp

/-- The invariant holds of a memory system without page tables. -/
theorem Inv.booted {link : Link} (mem : Mem) {m : Mem} (disk : ℕ → ℕ → Byte) {bm fl : ℕ}
    {t : List Call}
    (hbm : upTo (npg link.kend * 4096) phystop bm = .free)
    (hfree : FreeOk m fl (update (upTo (npg link.kend * 4096) phystop) bm .bitmap))
    (hhist : HistOk t (update (upTo (npg link.kend * 4096) phystop) bm .bitmap))
    (hz : ∀ k < 4096, m (bm + k) = 0) :
    Inv { KState.fresh link mem disk with
          mem := m, freelist := fl, trace := t, swapBitmap := bm, swapSlots := nslots }
      (Ghost.booted (npg link.kend * 4096) bm) := by
  have hc := Ghost.booted_cases (npg link.kend * 4096) bm
  have hno : ∀ {f w}, (Ghost.booted (npg link.kend * 4096) bm).role f = w → w ≠ .free →
      w ≠ .bitmap → w ≠ .none → False := by
    rintro f w rfl h1 h2 h3
    rcases hc f with h | h | h <;> contradiction
  exact {
    dom := fun f => by
      have hal : upTo (npg link.kend * 4096) phystop f = .free ↔ Allocatable link f := by
        rw [upTo_eq_free, Allocatable]
        simp only [npg]
        omega
      by_cases hf : f = bm
      · subst hf
        exact ⟨fun _ => hal.1 hbm, fun _ => by simp [Ghost.booted]⟩
      · rw [show (Ghost.booted (npg link.kend * 4096) bm).role f = upTo _ phystop f from
          update_of_ne hf ..]
        refine Iff.trans ?_ hal
        rw [upTo]; split <;> simp
    free := hfree
    hist := hhist
    tree := {
      frame := fun f hf => by rcases hc f with h | h | h <;> rw [h] at hf <;> cases hf
      ent := fun q k w hw => by rcases hc q with h | h | h <;> rw [h] at hw <;> cases hw
      back := fun f hf => by rcases hc f with h | h | h <;> rw [h] at hf <;> cases hf }
    leaves := {
      ok := fun r v hr => (hno hr (by simp) (by simp) (by simp)).elim
      special := fun r v hr => (hno hr (by simp) (by simp) (by simp)).elim
      user := fun f r v hf => (hno hf (by simp) (by simp) (by simp)).elim
      slot := fun s r v hs => by cases hs }
    slots := {
      count := rfl
      bitmap := fun f => by
        by_cases hf : f = bm
        · subst hf; simp [Ghost.booted]
        · simp only [Ghost.booted, update_of_ne hf, hf, iff_false, upTo]
          split <;> simp
      bit := fun s hs => by
        have hs' : s < 7000 := hs
        dsimp only
        rw [hz (s / 8) (by omega)]
        simp [Ghost.booted]
      range := fun s hs => absurd rfl hs }
    lru := {
      ring := ⟨List.nodup_nil, ⟨.nil, nofun⟩, rfl, rfl, fun _ _ => ⟨rfl, rfl⟩⟩
      user := fun i hi => by cases hi } }

/-- **Booting** sets the accounts up, if there is room for one frame; else `swapinit` panics. -/
theorem boot_spec (link : Link) (mem : Mem) (disk : ℕ → ℕ → Byte) :
    Ensures (boot (.fresh link mem disk)) (fun _ σ => ∃ g, Accounts (.booted σ) [] [] none g)
      fun _ => phystop < npg link.kend * 4096 + 4096 := by
  refine ((kinit_spec link mem disk).weaken).bind ?_
  rintro - _ ⟨hfree, hhist, m, fl, t, rfl⟩
  rw [swapinit, kalloc, show npages = 32766 + 1 + 1 from rfl]
  by_cases h0 : fl = 0
  · -- the free list is empty and there is no page to evict
    have hk : ∀ k, kallocLoop (k + 1) { fresh link mem disk with
        mem := m, freelist := fl, trace := t } = .ok (none, { fresh link mem disk with
        mem := m, freelist := fl, trace := t }) := fun k => by
      rw [kallocLoop, Run.bind_read, if_neg (not_not.2 h0)]
      rfl
    rw [Run.bind_ok (hk _)]
    change phystop < _
    by_contra hroom
    obtain ⟨l, hl, -, hmem⟩ := hfree
    cases l with
    | nil =>
      have := (hmem (npg link.kend * 4096)).2 (upTo_eq_free.2 (by omega))
      cases this
    | cons f l => exact hl.2.1 (hl.1.symm.trans h0)
  · have hfr : ∀ x, upTo (npg link.kend * 4096) phystop x = .free → IsFrame x := fun x hx => by
      obtain ⟨h1, h2, h3⟩ := upTo_eq_free.1 hx
      exact Allocatable.isFrame (L := link) ⟨h1, by simp only [npg] at h2; omega, h3⟩
    replace hfree : FreeOk m fl _ := hfree
    have hhead := hfree.head h0
    have hfree' : FreeOk ((m.fill fl 4096 5).fill fl 4096 0) (m.load64 fl).toNat _ :=
      (hfree.pop hfr h0 (w := .bitmap) (by simp) 5).congr (fun f hf => by
        have hne : f ≠ fl := by
          rintro rfl; rw [update_self] at hf; cases hf
        rw [update_of_ne hne] at hf
        have := (hfr f hf).apart (hfr fl hhead) hne
        exact Mem.agreeOn_fill _ (by omega)) fun _ => Iff.rfl
    have hinv := Inv.booted mem disk hhead hfree'
      (HistOk.pop hhist hhead (by simp)) fun k hk => if_pos ⟨by omega, by omega⟩
    rw [kallocLoop, Run.bind_assoc_apply, Run.bind_read, if_pos h0]
    have hnone : ∀ {w : Role}, w ≠ .free → w ≠ .bitmap → w ≠ .none → Owned 0 nproc []
        (fun _ => 0) fun f => (booted (npg link.kend * 4096) fl).role f = w := by
      intro w h1 h2 h3
      refine ⟨List.nodup_nil, fun _ _ _ _ h => absurd rfl h, fun _ _ h => absurd rfl h, fun f => ?_⟩
      rcases booted_cases (npg link.kend * 4096) fl f with h | h | h <;> rw [h] <;>
        simp [h1.symm, h2.symm, h3.symm]
    exact ⟨_, hinv, fun x => by simp [booted], fun _ hf => (by cases hf),
      hnone (by simp) (by simp) (by simp), hnone (by simp) (by simp) (by simp),
      fun _ _ => ProcOk.empty _⟩

/-! ### A small machine -/

/-- A machine with `n` frames behind the kernel. -/
def Link.small (n : ℕ) (h : n ≤ 32766) : Link where
  trampoline := kernbase
  etext := kernbase + pgsize
  kend := phystop - n * pgsize
  trampoline_mod := by decide
  base_le := le_refl _
  trampoline_le := le_refl _
  etext_le := by simp only [phystop, kernbase, pgsize]; omega
  kend_le := sub_le _ _

/-- The state of the small machine after booting, over zeros; the fresh state if booting stops. -/
def KState.small (n : ℕ) (h : n ≤ 32766) : KState :=
  match boot (.fresh (.small n h) (fun _ => 0) fun _ _ => 0) with
  | .ok ((), σ) => σ
  | .error _ => .fresh (.small n h) (fun _ => 0) fun _ _ => 0

/-- The small machine boots if it has a frame. -/
theorem boot_small {n : ℕ} (h : n ≤ 32766) (h0 : 0 < n) :
    boot (.fresh (.small n h) (fun _ => 0) fun _ _ => 0) = .ok ((), .small n h) := by
  obtain ⟨⟨⟩, σ, hb, -⟩ := ((boot_spec (.small n h) (fun _ => 0) fun _ _ => 0).mono
    (fun _ _ hq => hq) fun _ hroom => by
      have hk : (Link.small n h).kend = 557056 * 4096 - n * 4096 := rfl
      have hp : phystop = 557056 * 4096 := by decide
      rw [hk] at hroom
      simp only [npg] at hroom
      omega).exists_ok
  rw [small, hb]

end Xv6Swap
