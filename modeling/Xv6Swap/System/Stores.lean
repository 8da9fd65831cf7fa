import Xv6Swap.System.Evict

/-!
# Stores to a page that is being evicted

The entry of the victim stays valid and writable until the last step of `swapout`, so its owner may
load from and store to the page between the steps.  `stores` is the machine of such accesses, with
the byte last stored at each address as a history variable.

* `stores_kept` : **no store is lost** in a run in which no store changes a block of the victim that
  has already been written to the slot;
* `stores_lost` : a store to such a block is lost.
-/

namespace Xv6Swap

open World Set Event Option Run

variable {w w' : World} {g g' : Ghost} {σ σ' : KState} {r va : ℕ} {b : Byte} {D : Touch}

/-- An access of a user, a complete call of the swap system, or a step of an eviction. -/
inductive Access where
  | load (pagetable va : ℕ)
  | store (pagetable va : ℕ) (b : Byte)
  | kalloc
  | swapout
  | swapin (pagetable va : ℕ)
  | select
  | slot
  | block
  | finish

/-- The world, and the byte that was last stored at each address of each page table. -/
structure Watched where
  world : World
  last : ℕ → ℕ → Option Byte

/-- A store has been done. -/
def Watched.record (s : Watched) (r va : ℕ) (b : Byte) : Watched :=
  { s with last := fun r' va' => if r' = r ∧ va' = va then some b else s.last r' va' }

namespace Access

/-- The event that an access is. -/
def event : Access → Event
  | load r va => .op (.load r va)
  | store r va b => .op (.store r va b)
  | kalloc => .op .kalloc
  | swapout => .op .swapout
  | swapin r va => .op (.swapin r va)
  | select => .select
  | slot => .slot
  | block => .block
  | finish => .finish

/-- A store is recorded if it did not fault. -/
def run : Access → Run Watched Stop Unit
  | store r va b => do
    let ok ← zoom Watched.world (fun w s => { s with world := w }) (call (userStore r va b))
    modify fun s => if ok then s.record r va b else s
  | a => zoom Watched.world (fun w s => { s with world := w }) a.event.run

/-- A store that would change a block already written to the slot is late. -/
def Timely : Access → Watched → Prop
  | store r va b, s => ∀ f, s.world.flight = some f → f.table = r → f.page = va / pgsize →
      va % pgsize / bsize < f.done → byteAt s.world.sys.k r va = some b
  | _, _ => True

end Access

/-- **The machine of user accesses** during evictions, from any reachable world. -/
def stores : Machine Watched Stop Access where
  init s := system.Reachable s.world ∧ s.last = fun _ _ => none
  guard a s := a.event.Ok s.world
  prog := Access.run

/-! ### The invariant -/

/-- The blocks of the victim that have been written hold what the page holds. -/
structure Copied (σ : KState) (flight : Option Flight) : Prop where
  fresh : ∀ f, flight = some f → f.slot = none → f.done = 0
  bytes : ∀ f s p, flight = some f → f.slot = some s → logical σ f.table f.page = some p →
    ∀ k : Fin pgsize, k.val / bsize < f.done → slotBytes σ.disk s k = p.bytes k

theorem Copied.none (σ : KState) : Copied σ none :=
  ⟨fun _ h => (by cases h), fun _ _ _ h => (by cases h)⟩

/-- The bytes last stored are still there. -/
def Kept (σ : KState) (g : Ghost) (last : ℕ → ℕ → Option Byte) : Prop :=
  ∀ r va b, last r va = some b → g.role r = .root ∧ va / pgsize < uvpn ∧ byteAt σ r va = some b

/-- The invariant of the runs. -/
def Watched.Good (s : Watched) : Prop :=
  ∃ g, s.world.Acc g ∧ Copied s.world.sys.k s.world.flight ∧ Kept s.world.sys.k g s.last

/-- What a call that no user can see leaves alone. -/
structure Quiet (σ : KState) (g : Ghost) (σ' : KState) (g' : Ghost) : Prop where
  root : ∀ r, g.role r = .root → g'.role r = .root
  page : ∀ r v, g.role r = .root → v < uvpn → logical σ' r v = logical σ r v

theorem Keeps.quiet (k : Keeps D σ g σ' g') (hP : ∀ x, x ∉ D.pages)
    (hF : ∀ f ∈ D.frames, g.role f ≠ .root) : Quiet σ g σ' g' :=
  ⟨fun r hr => (k.root r fun hx => hF r hx hr).2 hr, fun r v hr hv =>
    k.page r v hr (fun hx => hF r hx hr) hv (hP _)⟩

theorem Kept.quiet {last : ℕ → ℕ → Option Byte} (h : Kept σ g last) (q : Quiet σ g σ' g') :
    Kept σ' g' last := by
  intro r va b hl
  obtain ⟨hr, hv, hb⟩ := h r va b hl
  refine ⟨q.root r hr, hv, ?_⟩
  rw [byteAt, q.page r _ hr hv]
  exact hb

/-- The eviction in progress, while others run. -/
theorem Copied.quiet (h : Copied w.sys.k w.flight) (ha : w.Acc g)
    (k : Keeps D w.sys.k g σ' g') (hP : ∀ x, x ∉ D.pages) (hF : ∀ f ∈ D.frames, g.role f ≠ .root)
    (hS : ∀ x, x ∉ D.slots) : Copied σ' w.flight := by
  refine ⟨h.fresh, fun f s p hf hs hp j hj => ?_⟩
  obtain ⟨hr, hv, -⟩ := ha.flight_page hf
  rw [(k.quiet hP hF).page _ _ hr hv] at hp
  rw [slotBytes_congr (k.blocks s (hS s) ((ha.busy s).2 ⟨f, hf, hs⟩))]
  exact h.bytes f s p hf hs hp j hj

/-- What an access other than a store does. -/
def Harmless (w : World) (g : Ghost) (w' : World) : Prop :=
  ∃ g', w'.Acc g' ∧ Copied w'.sys.k w'.flight ∧ Quiet w.sys.k g w'.sys.k g'

/-- A complete call of the memory system that no user can see. -/
theorem harmless_call {α : Type} {m : K α} (h : w.Acc g) (hc : Copied w.sys.k w.flight)
    (hm : Ensures (m w.sys.k) (fun _ σ' => ∃ g', Inv σ' g' ∧ Keeps {} w.sys.k g σ' g')
      fun _ => False) :
    Ensures ((do let _ ← call m : Run World Stop Unit) w) (fun _ => Harmless w g)
      fun _ => False := by
  refine call_spec hm ?_
  rintro _ σ' ⟨g', h', k⟩
  have hnone : ∀ {α : Type} (x : α), x ∉ (∅ : Set α) := fun x => notMem_empty x
  exact ⟨g', h.keep h' k, hc.quiet h k hnone (fun f hf => absurd hf (hnone f)) hnone,
    k.quiet hnone fun f hf => absurd hf (hnone f)⟩

theorem kalloc_harmless (h : w.Acc g) (hc : Copied w.sys.k w.flight) :
    Ensures (Op.run .kalloc w) (fun _ => Harmless w g) fun _ => False := by
  have hnone : ∀ {α : Type} (x : α), x ∉ (∅ : Set α) := fun x => notMem_empty x
  refine call_spec (kalloc_spec h.inv) ?_
  rintro (_ | f) σ' ha
  · obtain ⟨g', h', -, -, k⟩ := ha
    exact ⟨g', h.keep h' k, hc.quiet h k hnone (fun f hf => absurd hf (hnone f)) hnone,
      k.quiet hnone fun f hf => absurd hf (hnone f)⟩
  · obtain ⟨hnt, -⟩ := ha.not_table rfl
    have hf : ∀ x ∈ ({f} : Set ℕ), g.role x ≠ .root := by
      rintro x rfl hx
      rw [hx] at hnt; cases hnt
    obtain ⟨g', h', -, k⟩ := h.take ha
    exact ⟨g', h', hc.quiet h k hnone hf hnone, k.quiet hnone hf⟩

/-- **An access other than a store.** -/
theorem Access.harmless (a : Access) (h : w.Acc g) (hc : Copied w.sys.k w.flight)
    (hok : a.event.Ok w) (hst : ∀ r va b, a ≠ store r va b) :
    Ensures (a.event.run w) (fun _ => Harmless w g) fun _ => False := by
  have hnone : ∀ {α : Type} (x : α), x ∉ (∅ : Set α) := fun x => notMem_empty x
  cases a with
  | load r va =>
    refine harmless_call h hc ((userLoad_spec h.inv (h.isTable.1 hok) va).imp ?_)
    rintro _ σ' ⟨h', k, -⟩
    exact ⟨g, h', k⟩
  | store r va b => exact absurd rfl (hst r va b)
  | kalloc => exact kalloc_harmless h hc
  | swapout => exact harmless_call h hc (Op.swapout_keeps h.inv)
  | swapin r va =>
    refine harmless_call h hc ((swapin_spec h.inv (h.isTable.1 hok.1) hok.2).imp ?_)
    rintro _ σ' ⟨g', h', k, -⟩
    exact ⟨g', h', k⟩
  | select =>
    refine (select_spec h hok).imp ?_
    rintro - w' ⟨g', h', k, hf⟩
    refine ⟨g', h', ⟨fun f hfl _ => (hf f hfl).2, fun f s p hfl hs => ?_⟩,
      k.quiet hnone fun f hf => absurd hf (hnone f)⟩
    rw [(hf f hfl).1] at hs
    cases hs
  | slot =>
    obtain ⟨f, hf, hs⟩ := hok
    refine (slot_spec h hf hs).imp ?_
    rintro - w' ⟨g', h', ⟨hf', hroot, hlog⟩ | ⟨s, hf', k⟩⟩
    · rw [Harmless, hf']
      exact ⟨g', h', Copied.none _, fun r => (hroot r).2, fun r v _ _ => hlog r v⟩
    · refine ⟨g', h', ?_, k.quiet hnone fun f hf => absurd hf (hnone f)⟩
      have hd := hc.fresh f hf hs
      rw [hf']
      refine ⟨fun _ hx _ => by cases hx; exact hd, fun _ _ _ hx _ _ k hk => ?_⟩
      cases hx
      dsimp only at hk
      rw [hd] at hk
      exact absurd hk (Nat.not_lt_zero _)
  | block =>
    obtain ⟨f, s, hf, hs, hd⟩ := hok
    obtain ⟨hr, hv, hV, hpa⟩ := h.flight_page hf
    refine (block_spec h hf hs hd).imp ?_
    rintro - w' ⟨g', h', hf', k, hbytes⟩
    have q := k.quiet hnone fun f hf => absurd hf (hnone f)
    refine ⟨g', h', ?_, q⟩
    rw [hf']
    refine ⟨fun _ hx hs' => ?_, fun _ s' p hx hs' hp j hj => ?_⟩ <;> cases hx
    · rw [show f.slot = none from hs'] at hs; cases hs
    · obtain rfl : s' = s := by
        rw [show f.slot = some s' from hs'] at hs
        injection hs
      rw [q.page _ _ hr hv] at hp
      rw [hbytes j]
      split
      · rw [logical, pageOf_valid hV, hpa] at hp
        injection hp with hp
        rw [← hp]
        rfl
      · rename_i hne
        simp only [bsize] at hj
        exact hc.bytes f s' p hf hs hp j (by simp only [bsize]; omega)
  | finish =>
    obtain ⟨f, s, hf, hs, hd⟩ := hok
    obtain ⟨hr, hv, hV, hpa⟩ := h.flight_page hf
    refine (finish_spec h hf hs).imp ?_
    rintro - w' ⟨g', h', hf', k, hlog⟩
    rw [Harmless, hf']
    refine ⟨g', h', Copied.none _, fun r hr => (k.root r (hnone r)).2 hr, fun r v hr' hv' => ?_⟩
    by_cases hrv : (r, v) = (f.table, f.page)
    · -- every block has been written, so the slot holds the page
      cases hrv
      have hp : logical w.sys.k f.table f.page = some _ := pageOf_valid hV
      rw [hlog, hp]
      congr 2
      funext j
      exact hc.bytes f s _ hf hs hp j (by simp only [hd, bsize, blksPerPg, pgsize]; omega)
    · exact k.page r v hr' (hnone r) hv' hrv

/-- What a store that did not fault does. -/
structure Stored (σ : KState) (g : Ghost) (r va : ℕ) (b : Byte) (σ' : KState) : Prop where
  page : va / pgsize < uvpn
  here : byteAt σ' r va = some b
  there : ∀ r' va', g.role r' = .root → va' / pgsize < uvpn → ¬ (r' = r ∧ va' = va) →
    byteAt σ' r' va' = byteAt σ r' va'

theorem Stored.of_logical (hv : va / 4096 < uvpn) (hm : logical σ r (va / 4096) ≠ none)
    (hlog : logical σ' r (va / 4096) = (logical σ r (va / 4096)).map (·.write (va % 4096) b))
    (hother : ∀ r' v', g.role r' = .root → v' < uvpn → (r', v') ≠ (r, va / 4096) →
      logical σ' r' v' = logical σ r' v') : Stored σ g r va b σ' := by
  obtain ⟨p, hp⟩ := ne_none_iff_exists'.1 hm
  refine ⟨hv, ?_, fun r' va' hr' hv' hne => ?_⟩
  · simp only [byteAt, pgsize, hlog, hp, map_some, LPage.write, if_true]
  · by_cases hpage : (r', va' / 4096) = (r, va / 4096)
    · obtain ⟨rfl, hva⟩ := Prod.mk.inj hpage
      have hmod : va' % 4096 ≠ va % 4096 := fun he => hne ⟨rfl, by omega⟩
      simp only [byteAt, pgsize, hva, hlog, hp, map_some, LPage.write, if_neg hmod]
    · simp only [byteAt, pgsize, hother r' _ hr' hv' hpage]

/-- A store that is not late keeps the blocks written so far equal to the page. -/
theorem Copied.store {flight : Option Flight} (hc : Copied σ flight)
    (hroot : ∀ f, flight = some f → g.role f.table = .root ∧ f.page < uvpn) (hd : σ'.disk = σ.disk)
    (hlog : logical σ' r (va / 4096) = (logical σ r (va / 4096)).map (·.write (va % 4096) b))
    (hother : ∀ r' v', g.role r' = .root → v' < uvpn → (r', v') ≠ (r, va / 4096) →
      logical σ' r' v' = logical σ r' v')
    (ht : ∀ f, flight = some f → f.table = r → f.page = va / pgsize →
      va % pgsize / bsize < f.done → byteAt σ r va = some b) : Copied σ' flight := by
  refine ⟨hc.fresh, fun f s p hf hs hp k hk => ?_⟩
  rw [hd]
  by_cases hpage : (f.table, f.page) = (r, va / 4096)
  · obtain ⟨h1, h2⟩ := Prod.mk.inj hpage
    rw [h1, h2, hlog] at hp
    obtain ⟨q, hq, rfl⟩ := map_eq_some_iff.1 hp
    have hold := hc.bytes f s q hf hs (by rw [h1, h2]; exact hq) k hk
    simp only [LPage.write]
    split
    · rename_i hkva
      have hb := ht f hf h1 h2 (hkva ▸ hk)
      simp only [byteAt, pgsize, hq, map_some, some.injEq] at hb
      rw [hold, ← hb]
      congr 1
      exact Fin.ext hkva
    · exact hold
  · rw [hother _ _ (hroot f hf).1 (hroot f hf).2 hpage] at hp
    exact hc.bytes f s p hf hs hp k hk

/-- **A store.** -/
theorem userStore_good (h : w.Acc g) (hc : Copied w.sys.k w.flight) (hr : w.IsTable r)
    (ht : ∀ f, w.flight = some f → f.table = r → f.page = va / pgsize →
      va % pgsize / bsize < f.done → byteAt w.sys.k r va = some b) :
    Ensures (call (userStore r va b) w) (fun ok w' => w'.Acc g ∧
      Copied w'.sys.k w'.flight ∧ if ok then Stored w.sys.k g r va b w'.sys.k
        else Quiet w.sys.k g w'.sys.k g) fun _ => False := by
  have hnone : ∀ {α : Type} (x : α), x ∉ (∅ : Set α) := fun x => notMem_empty x
  refine ((userStore_spec h.inv (h.isTable.1 hr) va b).zoom fun w : World => w.sys.k).imp ?_
  rintro ok _ ⟨σ', ⟨h', ⟨m', rfl⟩, hcase⟩, rfl⟩
  cases hf : accessFrame w.sys.k r (va / 4096) pteW with
  | none =>
    rw [hf] at hcase
    obtain ⟨rfl, k⟩ := hcase
    exact ⟨h.keep h' k, hc.quiet h k hnone (fun f hf => absurd hf (hnone f)) hnone,
      k.quiet hnone fun f hf => absurd hf (hnone f)⟩
  | some f =>
    rw [hf] at hcase
    obtain ⟨rfl, k, hlog⟩ := hcase
    have hrole := h.inv.role_userFrame (h.isTable.1 hr) (accessFrame_eq_some hf).1
    obtain ⟨-, hv, hV, -⟩ := h.inv.leaves.user f r _ hrole
    have hother : ∀ r' v', g.role r' = .root → v' < uvpn → (r', v') ≠ (r, va / 4096) →
        logical _ r' v' = logical w.sys.k r' v' := fun r' v' hr' hv' hne =>
      k.page r' v' hr' (hnone r') hv' hne
    refine ⟨h.rewrite h' k rfl (by rintro _ _ ⟨⟩; exact hv) ?_, ?_, ?_⟩
    · rintro _ _ - ⟨⟩
      rw [hlog]
      simp
    · exact hc.store (fun f hf => ⟨(h.flight_page hf).1, (h.flight_page hf).2.1⟩) rfl hlog hother ht
    · rw [if_pos rfl]
      exact .of_logical hv (by rw [logical, pageOf_valid hV]; simp) hlog hother

/-- **One access**: a run whose stores are timely keeps the invariant. -/
theorem Access.spec (a : Access) {s : Watched} (h : s.Good) (hok : a.event.Ok s.world)
    (ht : a.Timely s) : Ensures (a.run s) (fun _ s' => s'.Good) fun _ => False := by
  obtain ⟨g, h, hc, hk⟩ := h
  have hother : ∀ a : Access, a.event.Ok s.world → (∀ r va b, a ≠ store r va b) →
      Ensures (zoom Watched.world (fun w s => { s with world := w }) a.event.run s)
        (fun _ s' => s'.Good) fun _ => False := by
    intro a hok hne
    refine ((a.harmless h hc hok hne).zoom Watched.world).imp ?_
    rintro - _ ⟨w', ⟨g', h', hc', q⟩, rfl⟩
    exact ⟨g', h', hc', hk.quiet q⟩
  cases a with
  | store r va b =>
    refine ((userStore_good h hc hok ht).zoom Watched.world).bind ?_
    rintro ok _ ⟨w', ⟨h', hc', hstored⟩, rfl⟩
    cases ok with
    | false => exact ⟨g, h', hc', hk.quiet hstored⟩
    | true =>
      refine ⟨g, h', hc', fun r' va' b' hl => ?_⟩
      by_cases hx : r' = r ∧ va' = va
      · obtain ⟨rfl, rfl⟩ := hx
        simp only [if_true, Watched.record, and_self, some.injEq] at hl
        subst hl
        exact ⟨h.isTable.1 hok, hstored.page, hstored.here⟩
      · simp only [if_true, Watched.record, if_neg hx] at hl
        obtain ⟨hr', hv', hb'⟩ := hk r' va' b' hl
        exact ⟨hr', hv', (hstored.there r' va' hr' hv' hx).trans hb'⟩
  | _ => exact hother _ hok (by simp)

theorem stores_good {s : Watched} (h : (stores.restrict Access.Timely).Reachable s) : s.Good := by
  refine h.invariant ?_ ?_
  · rintro s ⟨hr, hl⟩
    obtain ⟨⟨g, h⟩, hf⟩ := reachable_sound hr
    refine ⟨g, h, ?_, fun r va b hb => ?_⟩
    · rw [hf]
      exact Copied.none _
    · rw [hl] at hb
      cases hb
  · rintro s a s' hg ⟨⟨hok, ht⟩, hrun⟩
    exact (a.spec hg hok ht).of_ok hrun

/-- **No store is lost** if no store changes a block of the page being evicted that is already
written: in every state of such a run the byte last stored at an address is the one that is there,
and the one that a load returns. -/
theorem stores_kept {s : Watched} (h : (stores.restrict Access.Timely).Reachable s)
    (hl : s.last r va = some b) : byteAt s.world.sys.k r va = some b ∧
      ∀ b' σ', userLoad r va s.world.sys.k = .ok (some b', σ') → b' = b := by
  obtain ⟨g, h, -, hk⟩ := stores_good h
  obtain ⟨hr, hv, hb⟩ := hk r va b hl
  refine ⟨hb, fun b' σ' hload => ?_⟩
  obtain ⟨h', k, ho⟩ := (userLoad_spec h.inv hr va).of_ok hload
  obtain ⟨f, hf, rfl⟩ := map_eq_some_iff.1 ho.symm
  obtain ⟨-, -, hV, hpa⟩ := h'.leaves.user f r _
    (h.inv.role_userFrame hr (accessFrame_eq_some hf).1)
  rw [byteAt, ← k.page r _ hr (notMem_empty _) hv (notMem_empty _),
    show logical σ' r (va / pgsize) = some _ from pageOf_valid hV, hpa] at hb
  injection hb

/-! ### A store that is kept and one that is lost -/

/-- A test that implies the guard of an access, and that it is timely: no block has been written. -/
def Access.check (a : Access) (s : Watched) : Bool :=
  a.event.check s.world && match a with
    | store .. => s.world.flight.all fun f => f.done = 0
    | _ => true

theorem Access.Timely.of_check (a : Access) (s : Watched) (h : a.check s = true) :
    a.event.Ok s.world ∧ a.Timely s := by
  obtain ⟨h1, h2⟩ := Bool.and_eq_true_iff.1 h
  refine ⟨Ok.of_check _ _ h1, ?_⟩
  cases a with
  | store r va b =>
    intro f hf _ _ hd
    rw [hf] at h2
    rw [show f.done = 0 from of_decide_eq_true h2] at hd
    exact absurd hd (Nat.not_lt_zero _)
  | _ => trivial

/-- The accesses `as` to the page table of the first process, with the guards that `check` tests. -/
def storesFrom (check : Access → Watched → Bool) (as : ℕ → List Access) (t : ℕ → Watched → Bool)
    (w : World) : Bool :=
  (stores.path check (as (w.sys.proc 0).pagetable) ⟨w, fun _ _ => none⟩).any
    (t (w.sys.proc 0).pagetable)

/-- The owner stores to its page after the page has been chosen as a victim, and before the first
block is written. -/
theorem stores_kept_early : ∃ s r, (stores.restrict Access.Timely).Reachable s ∧
    s.last r 4096 = some 7 ∧ byteAt s.world.sys.k r 4096 = some 7 ∧
      ∀ b' σ', userLoad r 4096 s.world.sys.k = .ok (some b', σ') → b' = 7 := by
  obtain ⟨w, hw, hs⟩ := reachable_test (n := 13) (by decide) (by decide)
    [.userinit, .sbrk 0 4096#64] (t := storesFrom Access.check
      (fun r => [.select, .slot, .store r 4096 7, .block, .block, .block, .block, .finish])
      fun r s => s.last r 4096 = some 7) (by decide +kernel)
  obtain ⟨s, hp, hl⟩ := (any_eq_true _ _).1 hs
  rw [← Machine.path_restrict] at hp
  have hr : (stores.restrict Access.Timely).Reachable s :=
    .path Access.Timely.of_check (.init ⟨hw, rfl⟩) hp
  exact ⟨s, _, hr, of_decide_eq_true hl, stores_kept hr (of_decide_eq_true hl)⟩

/-- **A store to a block already written is lost.**  The first block of the page has been written to
the slot when its owner stores 7 to the first byte; after the eviction and `swapin` the owner loads
0. -/
theorem stores_lost : ∃ s r, stores.Reachable s ∧ s.last r 4096 = some 7 ∧
    ∃ σ', userLoad r 4096 s.world.sys.k = .ok (some 0, σ') := by
  obtain ⟨w, hw, hs⟩ := reachable_test (n := 13) (by decide) (by decide)
    [.userinit, .sbrk 0 4096#64] (t := storesFrom (fun a s => a.event.check s.world)
      (fun r => [.select, .slot, .block, .store r 4096 7, .block, .block, .block, .finish,
        .swapin r 4096])
      fun r s => s.last r 4096 = some 7 &&
        (userLoad r 4096 s.world.sys.k).toOption.map Prod.fst = some (some 0)) (by decide +kernel)
  obtain ⟨s, hp, ht⟩ := (any_eq_true _ _).1 hs
  obtain ⟨hl, hload⟩ := Bool.and_eq_true_iff.1 ht
  refine ⟨s, _, .path (fun a s => Ok.of_check a.event s.world) (.init ⟨hw, rfl⟩) hp,
    of_decide_eq_true hl, ?_⟩
  have hload := of_decide_eq_true hload
  cases hq : userLoad (w.sys.proc 0).pagetable 4096 s.world.sys.k with
  | error e =>
    rw [hq] at hload
    cases hload
  | ok q =>
    rw [hq] at hload
    exact ⟨q.2, congrArg Except.ok (Prod.ext (some.inj hload) rfl)⟩

end Xv6Swap
