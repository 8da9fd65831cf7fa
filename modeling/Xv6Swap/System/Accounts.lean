import Xv6Swap.Lib.Ledger
import Xv6Swap.Spec.Exec

/-!
# The invariant of the system

`Accounts s held spaces flight g` extends the invariant of the memory system to the process table:

* the frames of the kernel are the trapframes of the processes and the frames on the list `held`,
  each once;
* the page tables are those of the processes and those on the list `spaces`, each once;
* the address space of a process has the shape of its size;
* the slot being written, if any, is the one of the eviction in progress, and its victim is off
  the LRU list.

`Accounts.update` moves it across an operation that changes pages of one table, `Accounts.kernStep`
across one that takes or gives a frame of the kernel, and `Accounts.step` across a step of an
eviction.
-/

namespace Xv6Swap

open Set Sys Function

/-- An eviction in progress: the victim's index in `pages[]` and the page it held when it was
chosen, its slot once it has one, and the number of blocks written. -/
structure Flight where
  victim : ℕ
  table : ℕ
  page : ℕ
  slot : Option ℕ
  done : ℕ
  deriving DecidableEq, Repr

/-- An entry of the process table in order. -/
structure ProcOk (σ : KState) (p : Proc) : Prop where
  unused : p.state = .unused → p.trapframe = 0 ∧ p.pagetable = 0 ∧ p.sz = 0
  inUse : p.state = .live ∨ p.state = .zombie → p.trapframe ≠ 0 ∧ p.pagetable ≠ 0
  shape : p.pagetable ≠ 0 → Shape σ p.pagetable (npg p.sz)

theorem ProcOk.empty (σ : KState) : ProcOk σ Proc.empty :=
  ⟨fun _ => ⟨rfl, rfl, rfl⟩, fun h => by simp [Proc.empty] at h, fun h => absurd rfl h⟩

/-- **The invariant of the system.** -/
structure Accounts (s : Sys) (held spaces : List ℕ) (flight : Option Flight) (g : Ghost) :
    Prop where
  inv : Inv s.k g
  busy : ∀ x, g.slot x = .busy ↔ ∃ f, flight = some f ∧ f.slot = some x
  pinned : ∀ f, flight = some f → Pinned s.k g (pageToPa f.victim) f.table f.page
  kern : Owned 0 nproc held (fun i => (s.proc i).trapframe) fun f => g.role f = .kern
  root : Owned 0 nproc spaces (fun i => (s.proc i).pagetable) fun f => g.role f = .root
  procs : ∀ i < nproc, ProcOk s.k (s.proc i)

/-- The page of the eviction in progress is not one of those that `D` allows to change. -/
def Spared (flight : Option Flight) (D : Touch) : Prop :=
  ∀ f, flight = some f → f.table ∉ D.frames ∧ (f.table, f.page) ∉ D.pages

theorem Spared.empty (flight : Option Flight) : Spared flight {} :=
  fun _ _ => ⟨notMem_empty _, notMem_empty _⟩

theorem Spared.none (D : Touch) : Spared none D := nofun

namespace Accounts

variable {s s' : Sys} {held spaces : List ℕ} {flight : Option Flight} {g g' : Ghost} {D : Touch}
  {σ' : KState} {i r : ℕ} {P : Set (ℕ × ℕ)} {p : Proc}

section

variable (h : Accounts s held spaces flight g)
include h

/-- The accounts are about the memory system and the process table. -/
theorem congr (s' : Sys) (hk : s'.k = s.k)
    (hp : s'.proc = s.proc) : Accounts s' held spaces flight g := by
  obtain ⟨k, proc, nextpid, initproc⟩ := s'
  subst hk hp
  exact ⟨h.inv, h.busy, h.pinned, h.kern, h.root, h.procs⟩

theorem root_pagetable (hi : i < nproc)
    (hp : (s.proc i).pagetable ≠ 0) : g.role (s.proc i).pagetable = .root := h.root.of_slot hi hp

theorem kern_trapframe (hi : i < nproc)
    (hp : (s.proc i).trapframe ≠ 0) : g.role (s.proc i).trapframe = .kern := h.kern.of_slot hi hp

theorem busy_of_keeps {F : Set ℕ} (k : Keeps ⟨P, F, ∅⟩ s.k g σ' g') (x : ℕ) :
    g'.slot x = .busy ↔ ∃ f, flight = some f ∧ f.slot = some x :=
  (k.busy x (notMem_empty _)).trans (h.busy x)

theorem pinned_of_keeps (k : Keeps D s.k g σ' g')
    (hsp : Spared flight D) (f : Flight) (hf : flight = some f) :
    Pinned σ' g' (pageToPa f.victim) f.table f.page :=
  k.pinned _ _ _ (h.pinned f hf) (hsp f hf).1 (hsp f hf).2

theorem procOk_of_keeps (hi : i < nproc)
    (k : Keeps D s.k g σ' g') (hF : (s.proc i).pagetable ∉ D.frames)
    (hP : ∀ v, ((s.proc i).pagetable, v) ∉ D.pages) : ProcOk σ' (s.proc i) :=
  ⟨(h.procs i hi).unused, (h.procs i hi).inUse, fun hp =>
    ((h.procs i hi).shape hp).of_keeps k (h.root_pagetable hi hp) hF hP⟩

/-- **Pages of tables change**, and entries of the process table other than the frames. -/
theorem update (hinv : Inv s'.k g')
    (k : Keeps { pages := P } s.k g s'.k g') (hsp : Spared flight { pages := P })
    (htf : ∀ i, (s'.proc i).trapframe = (s.proc i).trapframe)
    (hpt : ∀ i, (s'.proc i).pagetable = (s.proc i).pagetable)
    (hprocs : ∀ i < nproc, ProcOk s'.k (s'.proc i)) : Accounts s' held spaces flight g' := by
  refine ⟨hinv, h.busy_of_keeps k, h.pinned_of_keeps k hsp, ?_, ?_, hprocs⟩
  · rw [funext htf]
    exact h.kern.congr fun f => k.kern f (notMem_empty _)
  · rw [funext hpt]
    exact h.root.congr fun f => k.root f (notMem_empty _)

/-- **Nothing that a process can see changes.** -/
theorem keep (hinv : Inv σ' g') (k : Keeps {} s.k g σ' g') :
    Accounts { s with k := σ' } held spaces flight g' :=
  h.update hinv k (Spared.empty _) (fun _ => rfl) (fun _ => rfl) fun _ hi =>
    h.procOk_of_keeps hi k (notMem_empty _) fun _ => notMem_empty _

/-- **Pages of a table that belongs to no process change.** -/
theorem space (hinv : Inv σ' g')
    (k : Keeps { pages := P } s.k g σ' g') (hr : r ∈ spaces) (hP : ∀ v' r', (r', v') ∈ P → r' = r)
    (hsp : Spared flight { pages := P }) : Accounts { s with k := σ' } held spaces flight g' := by
  refine h.update hinv k hsp (fun _ => rfl) (fun _ => rfl) fun i hi => ?_
  by_cases hp : (s.proc i).pagetable = 0
  · exact ⟨(h.procs i hi).unused, (h.procs i hi).inUse, fun hx => absurd hp hx⟩
  · refine h.procOk_of_keeps hi k (notMem_empty _) fun v hv => h.root.apart i hi hp ?_
    rw [hP v _ hv]
    exact hr

/-- **The pages of a process change**, and its entry with them. -/
theorem proc (hinv : Inv σ' g') (k : Keeps { pages := P } s.k g σ' g') (hi : i < nproc)
    (hP : ∀ v' r', (r', v') ∈ P → r' = (s.proc i).pagetable)
    (hsp : Spared flight { pages := P }) (htf : p.trapframe = (s.proc i).trapframe)
    (hpt : p.pagetable = (s.proc i).pagetable) (hp : ProcOk σ' p) :
    Accounts { s.put i p with k := σ' } held spaces flight g' := by
  have hself : ∀ {α : Type} (f : Proc → α), f p = f (s.proc i) →
      ∀ j, f ((s.put i p).proc j) = f (s.proc j) := by
    intro α f hf j
    by_cases hj : j = i
    · subst hj; rw [put_self, hf]
    · rw [put_of_ne _ _ hj]
  refine h.update hinv k hsp (hself _ htf) (hself _ hpt) fun j hj => ?_
  dsimp only
  by_cases hji : j = i
  · subst hji; rw [put_self]; exact hp
  · rw [put_of_ne _ _ hji]
    by_cases hp0 : (s.proc j).pagetable = 0
    · exact ⟨(h.procs j hj).unused, (h.procs j hj).inUse, fun hx => absurd hp0 hx⟩
    · refine h.procOk_of_keeps hj k (notMem_empty _) fun v hv => hji ?_
      exact h.root.inj j i hj hi hp0 (hP v _ hv)

/-- **Pages change that stay mapped**, and with them the eviction in progress. -/
theorem step {flight' : Option Flight} {S : Set ℕ}
    (hinv : Inv σ' g') (k : Keeps ⟨P, ∅, S⟩ s.k g σ' g')
    (hbusy : ∀ x, g'.slot x = .busy ↔ ∃ f, flight' = some f ∧ f.slot = some x)
    (hpin : ∀ f, flight' = some f → Pinned σ' g' (pageToPa f.victim) f.table f.page)
    (hP : ∀ r v, (r, v) ∈ P → v < uvpn)
    (hmap : ∀ r v, g.role r = .root → (r, v) ∈ P →
    (logical σ' r v = none ↔ logical s.k r v = none)) :
    Accounts { s with k := σ' } held spaces flight' g' := by
  refine ⟨hinv, hbusy, hpin, h.kern.congr fun f => k.kern f (notMem_empty _),
    h.root.congr fun f => k.root f (notMem_empty _), fun i hi => ?_⟩
  refine ⟨(h.procs i hi).unused, (h.procs i hi).inUse, fun hp => ?_⟩
  have hr := h.root_pagetable hi hp
  have hs := (h.procs i hi).shape hp
  have hspecial : ∀ {v}, uvpn ≤ v → v < 2 ^ 27 → leaf σ'.mem (s.proc i).pagetable v =
      leaf s.k.mem (s.proc i).pagetable v := fun hv hv' =>
    k.special _ _ hr (notMem_empty _) hv hv' fun hx => absurd (hP _ _ hx) (by omega)
  refine ⟨fun v hv => ?_, ?_, ?_, fun v hv hv' => ?_⟩
  · rw [← hs.pages v hv]
    by_cases hx : ((s.proc i).pagetable, v) ∈ P
    · exact not_congr (hmap _ v hr hx)
    · rw [k.page _ v hr (notMem_empty _) hv hx]
  · rw [hspecial (Nat.le_refl _) (by decide)]; exact hs.trapframe
  · rw [hspecial (by decide) (by decide)]; exact hs.trampoline
  · rw [hspecial ((by decide : uvpn ≤ trampolineVpn).trans hv.le) hv']; exact hs.rest v hv hv'

/-- **Bytes or permissions of mapped pages change.** -/
theorem rewrite (hinv : Inv σ' g)
    (k : Keeps { pages := P } s.k g σ' g) (hpages : σ'.pages = s.k.pages)
    (hP : ∀ r v, (r, v) ∈ P → v < uvpn)
    (hmap : ∀ r v, g.role r = .root → (r, v) ∈ P →
    (logical σ' r v = none ↔ logical s.k r v = none)) :
    Accounts { s with k := σ' } held spaces flight g := by
  refine h.step hinv k h.busy (fun f hf => ?_) hP hmap
  obtain ⟨h1, h2, h3, h4⟩ := h.pinned f hf
  exact ⟨h1, h2, by rwa [hpages], by rwa [hpages]⟩

/-- Bytes of pages of one table are written. -/
theorem onlyBytes (hb : OnlyBytes s.k g r σ') : Accounts { s with k := σ' } held spaces flight g :=
  h.rewrite hb.inv hb.keeps hb.pages (fun _ _ hx => (mem_pageRange.1 hx).2.2) fun _ _ hr hx =>
    not_iff_not.1 (hb.logical_ne_none hr (lt_trans (mem_pageRange.1 hx).2.2 (by decide)))

end

/-! ### Frames that change hands -/

variable {f : ℕ} {held' spaces' : List ℕ}

section

variable (h : Accounts s held spaces flight g)
include h

/-- The page being evicted is a page of a table, and it is mapped. -/
theorem flight_page {fl : Flight} (hfl : flight = some fl) :
    g.role fl.table = .root ∧ fl.page < uvpn ∧ has (leaf s.k.mem fl.table fl.page) pteV = true ∧
      pte2pa (leaf s.k.mem fl.table fl.page) = pageToPa fl.victim :=
  h.inv.leaves.user _ _ _ (h.pinned fl hfl).role

/-- A frame that is not a root is not the table of the page being evicted. -/
theorem spared (hf : g.role f ≠ .root) : Spared flight { frames := {f} } := fun _ hfl =>
  ⟨fun hx => hf (mem_singleton_iff.1 hx ▸ (h.flight_page hfl).1), notMem_empty _⟩

/-- Pages that are not mapped are not the page being evicted. -/
theorem spared_unmapped
    (hP : ∀ r v, (r, v) ∈ P → logical s.k r v = none) : Spared flight { pages := P } := by
  refine fun fl hfl => ⟨notMem_empty _, fun hx => ?_⟩
  obtain ⟨-, -, hV, -⟩ := h.flight_page hfl
  have h0 := (pageOf_eq_none_iff.1 (hP _ _ hx)).1
  rw [hV] at h0
  cases h0

/-- A process whose table is not the frame `f`. -/
theorem procOk_of_frame (hi : i < nproc) (k : Keeps { frames := {f} } s.k g σ' g')
    (hne : (s.proc i).pagetable ≠ 0 → (s.proc i).pagetable ≠ f) : ProcOk σ' (s.proc i) := by
  by_cases hp : (s.proc i).pagetable = 0
  · exact ⟨(h.procs i hi).unused, (h.procs i hi).inUse, fun hx => absurd hp hx⟩
  · exact h.procOk_of_keeps hi k (hne hp) fun _ => notMem_empty _

theorem pagetable_ne (hi : i < nproc)
    (hf : g.role f ≠ .root) (hp : (s.proc i).pagetable ≠ 0) : (s.proc i).pagetable ≠ f :=
  fun he => hf (he ▸ h.root_pagetable hi hp)

/-- **A frame changes hands** between the kernel and the rest of the system. -/
theorem kernStep (hinv : Inv σ' g')
    (k : Keeps { frames := {f} } s.k g σ' g') (hf : g.role f ≠ .root) (hf' : g'.role f ≠ .root)
    (hkern : Owned 0 nproc held' (fun i => (s.proc i).trapframe) fun f => g'.role f = .kern) :
    Accounts { s with k := σ' } held' spaces flight g' :=
  ⟨hinv, h.busy_of_keeps k, h.pinned_of_keeps k (h.spared hf), hkern,
    h.root.congr (iff_same (a := f) (fun x hx => k.root x hx) (by simp [hf, hf'])),
    fun _ hi => h.procOk_of_frame hi k (h.pagetable_ne hi hf)⟩

/-- The kernel takes a frame from `kalloc`. -/
theorem take (ha : Allocated s.k g (some f) σ') :
    ∃ g', Accounts { s with k := σ' } (f :: held) spaces flight g' ∧
      g'.role = (g.setRole f .kern).role ∧ Keeps { frames := {f} } s.k g σ' g' := by
  obtain ⟨hnt, hnk⟩ := ha.not_table rfl
  obtain ⟨g', h', hrole, -, -, k, -⟩ := ha
  have hf' : g'.role f = .kern := by rw [hrole, Ghost.setRole_self]
  refine ⟨g', h.kernStep h' k (fun hx => by rw [hx] at hnt; cases hnt) (by simp [hf'])
    (h.kern.push hnk (iff_insert (fun x hx => k.kern x hx) hf')), hrole, k⟩

/-- The kernel gives a frame back with `kfree`. -/
theorem give (hf : f ∈ held) : Ensures (kfree f s.k) (fun _ σ' =>
      Accounts { s with k := σ' } (held.erase f) spaces flight (g.setRole f .free) ∧
      Keeps { frames := {f} } s.k g σ' (g.setRole f .free)) fun _ => False := by
  have hk : g.role f = .kern := h.kern.of_mem hf
  refine (kfree_spec h.inv hk).imp ?_
  rintro - σ' ⟨-, h', k, -⟩
  exact ⟨h.kernStep h' k (by simp [hk]) (by simp) (h.kern.erase hf
    (iff_remove (fun x hx => k.kern x hx) (by simp))), k⟩

/-- Bytes of a frame of the kernel are written. -/
theorem writeKern (hf : g.role f = .kern) {m' : Mem} (hm : Mem.SameOutside s.k.mem m' f 4096) :
    Accounts { s with k := { s.k with mem := m' } } held spaces flight g := by
  obtain ⟨h', k⟩ := h.inv.writeKern hf hm
  exact h.kernStep h' k (by simp [hf]) (by simp [hf]) h.kern

theorem storeKern (hf : g.role f = .kern) {o : ℕ} (ho : o + 8 ≤ 4096) (w : Word) :
    Ensures (K.store (f + o) w s.k) (fun _ σ' => Accounts { s with k := σ' } held spaces flight g ∧
      Keeps { frames := {f} } s.k g σ' g) fun _ => False := by
  have hm := (Mem.sameOutside_store64 s.k.mem (f + o) w).mono (Nat.le_add_right f o)
    (by omega : f + o + 8 ≤ f + 4096)
  exact ⟨h.writeKern hf hm, (h.inv.writeKern hf hm).2⟩

/-- **A new page table** that belongs to no process yet. -/
theorem addSpace (t : NewTable s.k g r σ' g') :
    Accounts { s with k := σ' } held (r :: spaces) flight g' := by
  have hnr : g.role r ≠ .root := fun hx => by have := t.old.1; rw [hx] at this; cases this
  exact ⟨t.inv, h.busy_of_keeps t.keeps, h.pinned_of_keeps t.keeps (h.spared hnr),
    h.kern.congr (iff_same (a := r) (fun x hx => t.keeps.kern x hx) (by simp [t.root, t.old.2])),
    h.root.push hnr (iff_insert (fun x hx => t.keeps.root x hx) t.root),
    fun _ hi => h.procOk_of_frame hi t.keeps (h.pagetable_ne hi hnr)⟩

/-- **A page table that belongs to no process is freed.** -/
theorem dropSpace (hr : r ∈ spaces) (hinv : Inv σ' g')
    (k : Keeps { frames := {r} } s.k g σ' g') (hfree : g'.role r = .free)
    (hsp : Spared flight { frames := {r} }) :
    Accounts { s with k := σ' } held (spaces.erase r) flight g' := by
  have hroot : g.role r = .root := h.root.of_mem hr
  exact ⟨hinv, h.busy_of_keeps k, h.pinned_of_keeps k hsp,
    h.kern.congr (iff_same (a := r) (fun x hx => k.kern x hx) (by simp [hroot, hfree])),
    h.root.erase hr (iff_remove (fun x hx => k.root x hx) (by simp [hfree])),
    fun i hi => h.procOk_of_frame hi k fun hp he => h.root.apart i hi hp (he ▸ hr)⟩

end

/-! ### Entries of the process table -/

theorem trapframe_put (s : Sys) (i : ℕ) (p : Proc) : (fun j => ((s.put i p).proc j).trapframe) =
      Function.update (fun j => (s.proc j).trapframe) i p.trapframe :=
  comp_update Proc.trapframe s.proc i p

theorem pagetable_put (s : Sys) (i : ℕ) (p : Proc) : (fun j => ((s.put i p).proc j).pagetable) =
      Function.update (fun j => (s.proc j).pagetable) i p.pagetable :=
  comp_update Proc.pagetable s.proc i p

/-- An entry is written whose new contents are in order, with the frames as the ledgers say. -/
theorem setProc (h : Accounts s held spaces flight g)
    (hkern : Owned 0 nproc held' (Function.update (fun j => (s.proc j).trapframe) i p.trapframe)
      fun f => g.role f = .kern)
    (hroot : Owned 0 nproc spaces' (Function.update (fun j => (s.proc j).pagetable) i p.pagetable)
      fun f => g.role f = .root)
    (hp : ProcOk s.k p) : Accounts (s.put i p) held' spaces' flight g := by
  refine ⟨h.inv, h.busy, h.pinned, ?_, ?_, fun j hj => ?_⟩
  · rw [trapframe_put]; exact hkern
  · rw [pagetable_put]; exact hroot
  · by_cases hji : j = i
    · subst hji; rw [put_self]; exact hp
    · rw [put_of_ne _ _ hji]; exact h.procs j hj

/-- An entry is written, but not its frames. -/
theorem setFields (h : Accounts s held spaces flight g)
    (htf : p.trapframe = (s.proc i).trapframe) (hpt : p.pagetable = (s.proc i).pagetable)
    (hp : ProcOk s.k p) : Accounts (s.put i p) held spaces flight g := by
  refine h.setProc ?_ ?_ hp
  · rw [htf, update_eq_self]; exact h.kern
  · rw [hpt, update_eq_self]; exact h.root

/-- A frame of the kernel becomes the trapframe of an entry. -/
theorem setTrapframe (h : Accounts s (f :: held) spaces flight g) (hi : i < nproc)
    (h0 : (s.proc i).trapframe = 0) (hf : f ≠ 0)
    (hok : ProcOk s.k { s.proc i with trapframe := f }) :
    Accounts (s.put i { s.proc i with trapframe := f }) held spaces flight g := by
  refine h.setProc (h.kern.toSlot hi h0 hf) ?_ hok
  rw [update_eq_self]; exact h.root

/-- A table that belongs to no process becomes that of an entry. -/
theorem setPagetable (h : Accounts s held (r :: spaces) flight g) (hi : i < nproc)
    (h0 : (s.proc i).pagetable = 0) (hr : r ≠ 0)
    (hok : ProcOk s.k { s.proc i with pagetable := r }) :
    Accounts (s.put i { s.proc i with pagetable := r }) held spaces flight g := by
  refine h.setProc ?_ (h.root.toSlot hi h0 hr) hok
  rw [update_eq_self]; exact h.kern

end Accounts

end Xv6Swap
