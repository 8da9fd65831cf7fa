import Xv6Swap.System.Accounts

/-!
# Operations of processes keep the accounts

One specification for each function of `kernel/proc.c` and `kernel/exec.c`: from accounts in order
it returns with accounts in order, whatever eviction is in progress, provided that the page of that
eviction is not unmapped by the operation (`Spared`).

* `freeproc_spec`, `allocproc_spec` : an entry of the process table given back, or taken;
* `growproc_spec`, `fork_spec`, `wait_spec`, `usertrap_spec`, `userinit_spec` : what a process does
  to its own address space or to that of its child;
* `exec_spec`, `sysExec_spec` : a new image, which may stop with a panic of `loadseg` only.
-/

namespace Xv6Swap

open P Sys List

variable {s s' : Sys} {held spaces : List ℕ} {flight : Option Flight} {g g' : Ghost} {i r : ℕ}
  {β : Type}

/-- A call of the memory system leaves the process table alone. -/
theorem P.call_spec {α : Type} {m : K α} {k : α → P β} {Q : α → KState → Prop}
    {E : Stop → Prop} {R : β → Sys → Prop} (h : Ensures (m s.k) Q E)
    (hk : ∀ a σ', Q a σ' → Ensures (k a { s with k := σ' }) R E) :
    Ensures ((call m >>= k) s) R E := by
  refine (h.zoom Sys.k).bind ?_
  rintro a _ ⟨σ', hq, rfl⟩
  exact hk a σ' hq

theorem P.bind_get (k : Proc → P β) : (get i >>= k) s = k (s.proc i) s := rfl

theorem P.bind_set (f : Proc → Proc) (k : Unit → P β) :
    (set i f >>= k) s = k () (s.put i (f (s.proc i))) := rfl

theorem P.bind_set_get (f : Proc → Proc) (k : Proc → P β) :
    (set i f >>= fun _ => get i >>= k) s = k (f (s.proc i)) (s.put i (f (s.proc i))) := by
  rw [bind_set, bind_get, put_self]

theorem P.set_put {p : Proc} (f : Proc → Proc) : set i f (s.put i p) = .ok ((), s.put i (f p)) := by
  change Except.ok ((), (s.put i p).put i (f ((s.put i p).proc i))) = _
  rw [put_put, put_self]

/-! ### Entries of the process table -/

/-- A frame of the kernel is given back, if there is one. -/
theorem Accounts.freeFrame {f : ℕ}
    (h : Accounts s (if f = 0 then held else f :: held) spaces flight g) :
    Ensures ((if f ≠ 0 then kfree f else pure () : K Unit) s.k) (fun _ σ' => ∃ g',
      Accounts { s with k := σ' } held spaces flight g' ∧
      ∀ r n, g.role r = .root → Shape s.k r n → Shape σ' r n) fun _ => False := by
  by_cases hf : f = 0
  · rw [if_pos hf] at h
    rw [if_neg (not_not.2 hf)]
    exact ⟨g, h, fun _ _ _ hs => hs⟩
  · rw [if_neg hf] at h
    rw [if_pos hf]
    have hk : g.role f = .kern := h.kern.of_mem mem_cons_self
    refine (h.give mem_cons_self).imp ?_
    rintro - σ' ⟨h', k⟩
    rw [erase_cons_head] at h'
    refine ⟨_, h', fun r n hr hs => hs.of_keeps k hr ?_ fun _ => Set.notMem_empty _⟩
    rintro rfl
    rw [hr] at hk; cases hk

/-- An address space is given back, if there is one. -/
theorem Accounts.freeTable {sz : ℕ}
    (h : Accounts s held (if r = 0 then spaces else r :: spaces) flight g)
    (hs : r ≠ 0 → Shape s.k r (npg sz)) (hsp : Spared flight { frames := {r} }) :
    Ensures ((if r ≠ 0 then procFreepagetable r sz else pure () : K Unit) s.k) (fun _ σ' => ∃ g',
      Accounts { s with k := σ' } held spaces flight g') fun _ => False := by
  by_cases hr : r = 0
  · rw [if_pos hr] at h
    rw [if_neg (not_not.2 hr)]
    exact ⟨g, h⟩
  · rw [if_neg hr] at h
    rw [if_pos hr]
    refine (procFreepagetable_spec h.inv (h.root.of_mem mem_cons_self) (hs hr)).imp ?_
    rintro - σ' ⟨g', h', k, hfree⟩
    have h1 := h.dropSpace mem_cons_self h' k hfree hsp
    rw [erase_cons_head] at h1
    exact ⟨g', h1⟩

/-- **`freeproc`** gives the frames of an entry back. -/
theorem freeproc_spec (h : Accounts s held spaces flight g) (hi : i < nproc)
    (hsp : Spared flight { frames := {(s.proc i).pagetable} }) :
    Ensures (freeproc i s) (fun _ s' => (∃ σ', s' = { s.put i Proc.empty with k := σ' }) ∧
      ∃ g', Accounts s' held spaces flight g') fun _ => False := by
  -- the accounts with the frames of the entry on the two lists
  have h0 := h.setProc (p := Proc.empty) (h.kern.unslot hi) (h.root.unslot hi) (ProcOk.empty _)
  rw [freeproc, bind_get]
  refine call_spec h0.freeFrame ?_
  rintro - σ₁ ⟨g₁, h1, hs1⟩
  rw [bind_set_get]
  refine call_spec (h1.freeTable (fun hr => hs1 _ _ (h.root_pagetable hi hr)
    ((h.procs i hi).shape hr)) hsp) ?_
  rintro - σ₂ ⟨g₂, h2⟩
  have he := set_put (s := { s with k := σ₂ }) (i := i)
    (p := { s.proc i with trapframe := 0 }) fun _ => Proc.empty
  exact (congrArg (Ensures · _ _) he).mpr ⟨⟨σ₂, rfl⟩, g₂, h2⟩

/-- The way out of `allocproc` when there is no memory. -/
theorem freeproc_none (h : Accounts s held spaces flight g) (hi : i < nproc)
    (hpt : (s.proc i).pagetable = 0) :
    Ensures ((do freeproc i; pure none : P (Option ℕ)) s) (fun o s' => o = none ∧
      ∃ g', Accounts s' held spaces flight g') fun _ => False := by
  refine (freeproc_spec h hi (h.spared ?_)).bind ?_
  · exact fun hr => h.inv.ne_zero_of_role (by simp [hr]) hpt
  · rintro - s' ⟨-, g', h'⟩
    exact ⟨rfl, g', h'⟩

/-- The entry `i` that `allocproc` has set up: the others are as in `s`. -/
structure Taken (s : Sys) (flight : Option Flight) (i : ℕ) (s' : Sys) : Prop where
  state : (s'.proc i).state = .used
  sz : (s'.proc i).sz = 0
  pagetable : (s'.proc i).pagetable ≠ 0
  trapframe : (s'.proc i).trapframe ≠ 0
  other : ∀ j ≠ i, s'.proc j = s.proc j
  spared : Spared flight { frames := {(s'.proc i).pagetable} }

theorem allocprocFrames_spec (h : Accounts s held spaces flight g) (hi : i < nproc)
    (hst : (s.proc i).state = .used) (htf : (s.proc i).trapframe = 0)
    (hpt : (s.proc i).pagetable = 0) (hsz : (s.proc i).sz = 0) :
    Ensures (allocprocFrames i s) (fun o s' => ∃ g', Accounts s' held spaces flight g' ∧
      (∀ n, HasFree g (n + 6) → o ≠ none ∧ HasFree g' n) ∧
      ∀ j, o = some j → j = i ∧ Taken s flight i s') fun _ => False := by
  rw [allocprocFrames]
  refine call_spec (kalloc_spec h.inv) ?_
  rintro (_ | f) σ₁ ha <;> have hfree := fun n => Allocated.hasFree h.inv ha (n := n)
  · obtain ⟨g₁, h1, -, -, k1⟩ := ha
    refine (freeproc_none (h.keep h1 k1) hi hpt).imp ?_
    rintro _ s' ⟨rfl, g', h'⟩
    refine ⟨g', h', fun n hn => ?_, fun j hj => by cases hj⟩
    obtain ⟨_, ⟨⟩, -⟩ := hfree (n + 5) hn
  obtain ⟨g₁, h1, hrole, -⟩ := h.take ha
  replace hfree : ∀ n, HasFree g (n + 1) → HasFree g₁ n := fun n hn => by
    obtain ⟨_, ⟨⟩, hg⟩ := hfree n hn
    exact (hg g₁ fun y hy => by rw [hrole, Ghost.setRole_of_ne _ _ hy]).1
  have hf : g₁.role f = .kern := by rw [hrole, Ghost.setRole_self]
  have hf0 : f ≠ 0 := h1.inv.ne_zero_of_role (by simp [hf])
  have h2 := h1.setTrapframe hi htf hf0 ⟨fun hx => by simp [hst] at hx,
    fun hx => by simp [hst] at hx, fun hx => absurd hpt hx⟩
  dsimp only
  rw [bind_set]
  have hp2 : (({ s with k := σ₁ } : Sys).put i { s.proc i with trapframe := f }).proc i =
    { s.proc i with trapframe := f } := put_self ..
  have ho2 : ∀ j ≠ i, (({ s with k := σ₁ } : Sys).put i { s.proc i with trapframe := f }).proc j =
    s.proc j := fun j hj => put_of_ne _ _ hj
  revert h2 hp2 ho2
  generalize ({ s with k := σ₁ } : Sys).put i { s.proc i with trapframe := f } = s₂
  intro h2 hp2 ho2
  refine call_spec (procPagetable_spec h2.inv (h2.inv.isFrame (by simp [hf])).lt) ?_
  rintro (_ | r) σ₂ ⟨g₂, h3, hn3, hb⟩
  · refine (freeproc_none (h2.keep h3 hb) hi (by rw [hp2]; exact hpt)).imp ?_
    rintro _ s' ⟨rfl, g', h'⟩
    exact ⟨g', h', fun n hn => absurd rfl (hn3 n (hfree (n + 5) hn)).1, fun j hj => by cases hj⟩
  obtain ⟨t, hs⟩ := hb
  have hr0 : r ≠ 0 := t.inv.ne_zero_of_role (by simp [t.root])
  have hspare : Spared flight { frames := {r} } := h2.spared fun hx => by
    have := t.old.1; rw [hx] at this; cases this
  have h5 := (h2.addSpace t).setPagetable hi (by rw [hp2]; exact hpt) hr0
    ⟨fun hx => by simp [hp2, hst] at hx, fun hx => by simp [hp2, hst] at hx, fun _ => by
      simpa [hp2, hsz, npg] using hs⟩
  refine ⟨g₂, h5, fun n hn => ⟨by simp, (hn3 n (hfree (n + 5) hn)).2⟩, ?_⟩
  · rintro _ ⟨⟩
    have hp5 : (({ s₂ with k := σ₂ } : Sys).put i { s₂.proc i with pagetable := r }).proc i =
        { s.proc i with trapframe := f, pagetable := r } := by rw [put_self, hp2]
    refine ⟨rfl, ?_, ?_, ?_, ?_, fun j hj => (put_of_ne _ _ hj).trans (ho2 j hj), ?_⟩
    all_goals dsimp only; rw [hp5]
    · exact hst
    · exact hsz
    · exact hr0
    · exact hf0
    · exact hspare

/-- **`allocproc`** takes an unused entry and gives it a trapframe and an empty address space. -/
theorem allocproc_spec (h : Accounts s held spaces flight g) :
    Ensures (allocproc s) (fun o s' => ∃ g', Accounts s' held spaces flight g' ∧
      (∀ n, HasFree g (n + 6) → (∃ j < nproc, (s.proc j).state = .unused) →
        o ≠ none ∧ HasFree g' n) ∧
      ∀ i, o = some i → i < nproc ∧ (s.proc i).state = .unused ∧ Taken s flight i s')
      fun _ => False := by
  rw [allocproc, Run.bind_read]
  cases hfind : (range nproc).find? fun i => decide ((s.proc i).state = .unused) with
  | none =>
    refine ⟨g, h, fun n _ ⟨j, hj, hst⟩ => ?_, fun i hi => by cases hi⟩
    exact absurd hst (by simpa using find?_eq_none.1 hfind j (mem_range.2 hj))
  | some i =>
    have hi : i < nproc := mem_range.1 (mem_of_find?_eq_some hfind)
    have hst : (s.proc i).state = .unused := by simpa using find?_some hfind
    obtain ⟨htf0, hpt0, hsz0⟩ := (h.procs i hi).unused hst
    have h1 := h.setFields (i := i)
      (p := { s.proc i with pid := s.nextpid, state := .used }) rfl rfl
      ⟨fun hx => (by cases hx), fun hx => (by simp at hx), fun hx => absurd hpt0 hx⟩
    have h2 := h1.congr (({ s with nextpid := s.nextpid + 1 } : Sys).put i
      { s.proc i with pid := s.nextpid, state := .used }) rfl rfl
    refine (allocprocFrames_spec h2 hi ?_ ?_ ?_ ?_).imp ?_
    all_goals try rw [put_self]
    · exact htf0
    · exact hpt0
    · exact hsz0
    · rintro o s' ⟨g', h', hn, ho⟩
      refine ⟨g', h', fun n hf _ => hn n hf, fun j hj => ?_⟩
      obtain ⟨rfl, ht⟩ := ho j hj
      exact ⟨hi, hst, { ht with other := fun k hk => (ht.other k hk).trans (put_of_ne _ _ hk) }⟩

/-! ### Growing, copying and reaping -/

/-- The pages that `growproc` unmaps. -/
def shrunkPages (p : Proc) (n : ℤ) : Set (ℕ × ℕ) :=
  if n < 0 then pageRange p.pagetable (npg (addInt p.sz n)) (npg p.sz) else ∅

/-- **`growproc`** with any `int`. -/
theorem growproc_spec (h : Accounts s held spaces flight g) (hi : i < nproc)
    (hp : (s.proc i).pagetable ≠ 0) (n : ℤ)
    (hsp : Spared flight { pages := shrunkPages (s.proc i) n }) :
    Ensures (growproc i n s) (fun _ s' => ∃ g', Accounts s' held spaces flight g' ∧ (0 ≤ n →
      Keeps { pages := pageRange (s.proc i).pagetable (npg (s.proc i).sz) uvpn } s.k g s'.k g' ∧
      (HasFree g (3 * (npg (addInt (s.proc i).sz n) - npg (s.proc i).sz)) → UserKept g g')))
      fun _ => False := by
  have hok := h.procs i hi
  have hs := hok.shape hp
  have hr := h.root_pagetable hi hp
  have hP : ∀ {r a b : ℕ} (v' r' : ℕ), (r', v') ∈ pageRange r a b → r' = r := fun _ _ hx =>
    (mem_pageRange.1 hx).1
  have hnew : ∀ {σ' : KState} {sz : ℕ}, Shape σ' (s.proc i).pagetable (npg sz) →
      ProcOk σ' { s.proc i with sz := sz } := fun hs' =>
    ⟨fun hx => absurd ((hok.unused hx).2.1) hp, hok.inUse, fun _ => hs'⟩
  rw [growproc, P.bind_get, Run.ite_apply]
  split
  case isTrue hn =>
    refine P.call_spec (hs.uvmalloc_spec h.inv hr (addInt (s.proc i).sz n)
      (by rw [IsFlags]; decide) (by decide)) ?_
    rintro sz σ' ⟨g', h', k, hkept, hret⟩
    have hspare := h.spared_unmapped (P := pageRange (s.proc i).pagetable (npg (s.proc i).sz) uvpn)
      fun r v hx => by
        obtain ⟨rfl, h1, h2⟩ := mem_pageRange.1 hx
        by_contra hne
        exact absurd ((hs.pages v h2).1 hne) (by omega)
    rw [Run.ite_apply]
    split
    case isTrue h0 =>
      have hs' : Shape σ' (s.proc i).pagetable (npg (s.proc i).sz) := by
        rcases hret with ⟨-, hs'⟩ | ⟨hsz, hs'⟩
        · exact hs'
        · rw [show (s.proc i).sz = sz by omega]; exact hs'
      have h1 := h.proc h' k hi hP hspare (p := s.proc i) rfl rfl
        ⟨hok.unused, hok.inUse, fun _ => hs'⟩
      rw [Sys.put_eq_self] at h1
      exact ⟨g', h1, fun _ => ⟨k, hkept⟩⟩
    case isFalse h0 =>
      obtain ⟨rfl, -⟩ | ⟨-, hs'⟩ := hret
      · exact absurd rfl h0
      · exact ⟨g', h.proc h' k hi hP hspare (p := { s.proc i with sz := sz }) rfl rfl (hnew hs'),
          fun _ => ⟨k, hkept⟩⟩
  case isFalse =>
    rw [Run.ite_apply]
    split
    case isTrue hn =>
      refine P.call_spec (hs.uvmdealloc_spec h.inv hr (addInt (s.proc i).sz n)) ?_
      rintro sz σ' ⟨g', h', k, hs'⟩
      rw [shrunkPages, if_pos hn] at hsp
      exact ⟨g', h.proc h' k hi hP hsp (p := { s.proc i with sz := sz }) rfl rfl (hnew hs'),
        fun h0 => absurd hn (not_lt.2 h0)⟩
    case isFalse => exact ⟨g, h, fun _ => ⟨Keeps.refl .., fun _ _ _ _ hf => hf⟩⟩

theorem Spared.ofTable {a b : ℕ} (h : Spared flight { frames := {r} }) :
    Spared flight { pages := pageRange r a b } := fun f hf =>
  ⟨Set.notMem_empty _, fun hx => (h f hf).1 (mem_pageRange.1 hx).1⟩

/-- The last steps of `fork`: the trapframe is copied and the child is let run. -/
theorem forkFinish_spec (h : Accounts s held spaces flight g) (hi : i < nproc)
    (hp : (s.proc i).pagetable ≠ 0) {tf : ℕ} (htf : (s.proc i).trapframe = tf) (htf0 : tf ≠ 0)
    (src pid : ℕ) : Ensures ((do
      call (Run.modify fun σ => { σ with mem := σ.mem.copy tf src trapframeSize })
      call (K.store (tf + tfA0) 0)
      set i fun np => { np with state := .live }
      pure (pid : ℤ) : P ℤ) s) (fun _ s' => ∃ g', Accounts s' held spaces flight g')
      fun _ => False := by
  subst htf
  have hk := h.kern_trapframe hi htf0
  refine call_spec (Q := fun _ σ' => Accounts { s with k := σ' } held spaces flight g) ?_ ?_
  · exact h.writeKern hk ((Mem.sameOutside_copy _ _ _ trapframeSize).mono (Nat.le_refl _)
      (Nat.add_le_add_left (by decide) _))
  rintro - σ₁ h1
  refine call_spec (h1.storeKern hk (by decide) 0) ?_
  rintro - σ₂ ⟨h2, -⟩
  exact ⟨g, h2.setFields rfl rfl ⟨fun hx => (by cases hx), fun _ => ⟨htf0, hp⟩,
    (h2.procs i hi).shape⟩⟩

/-- **`fork`.** -/
theorem fork_spec (h : Accounts s held spaces flight g) (hi : i < nproc)
    (hp : (s.proc i).pagetable ≠ 0) :
    Ensures (fork i s) (fun _ s' => ∃ g', Accounts s' held spaces flight g') fun _ => False := by
  refine (allocproc_spec h).bind ?_
  rintro (_ | c) s₁ ⟨g₁, h1, -, ht⟩
  · exact ⟨g₁, h1⟩
  obtain ⟨hc, hunused, ht⟩ := ht c rfl
  have hne : i ≠ c := by rintro rfl; exact hp ((h.procs i hi).unused hunused).2.1
  have hpi := ht.other i hne
  have hri := h1.root_pagetable hi (by rwa [hpi])
  have hrc := h1.root_pagetable hc ht.pagetable
  have hsi := (h1.procs i hi).shape (by rwa [hpi])
  have hsc := (h1.procs c hc).shape ht.pagetable
  dsimp only
  rw [bind_get, bind_get]
  refine call_spec ((uvmcopy_spec h1.inv hri hrc (s₁.proc i).sz ?_).mono (fun _ _ hq => hq) ?_) ?_
  · exact fun v hv => hsc.leaf_eq_zero h1.inv hrc (by rw [ht.sz]; simp [npg]) hv
  · rintro - ⟨v, hv, hu, hnone⟩
    exact (hsi.pages v hu).2 hv hnone
  rintro ret σ₂ ⟨g₂, h2, ⟨rfl, k⟩ | ⟨rfl, hmax, k, hperm, -⟩⟩
  · rw [if_pos (by decide)]
    refine (freeproc_spec (h1.keep h2 k) hc ht.spared).bind ?_
    rintro - s₃ ⟨-, g₃, h3⟩
    exact ⟨g₃, h3⟩
  · rw [if_neg (by decide), bind_set]
    have hu : maxPages ≤ uvpn := by decide
    have hs' : Shape σ₂ (s₁.proc c).pagetable (npg (s₁.proc i).sz) := by
      refine hsc.resize k hrc (by omega) (fun v _ hv => ?_) fun v hv hout => ?_
      · refine ⟨fun _ => hv, fun _ hnone => ?_⟩
        obtain ⟨hlog, hmap⟩ := hperm v hv
        rw [hnone] at hmap
        exact hlog (by simpa using hmap.symm)
      · rw [ht.sz]
        simp only [npg] at hout ⊢
        omega
    have h3 := h1.proc h2 k hc (fun _ _ hx => (mem_pageRange.1 hx).1) ht.spared.ofTable
      (p := { s₁.proc c with sz := (s₁.proc i).sz }) rfl rfl
      ⟨fun hx => by simp [ht.state] at hx, fun hx => by simp [ht.state] at hx, fun _ => hs'⟩
    exact forkFinish_spec h3 hc (by rw [put_self]; exact ht.pagetable)
      (congrArg Proc.trapframe (put_self ..)) ht.trapframe _ _

/-- The panic of `exit`, which is that of the first process. -/
def ExitPanic (s : Sys) (i : ℕ) (e : Stop) : Prop := e = .panic .initExiting ∧ i = s.initproc

variable (h : Accounts s held spaces flight g)
include h

/-- **`exit`.** -/
theorem exit_spec (hi : i < nproc) (hst : (s.proc i).state = .live) (status : BitVec 32) :
    Ensures (exit i status s) (fun _ s' => ∃ g', Accounts s' held spaces flight g')
      (ExitPanic s i) := by
  rw [exit, Run.bind_read, Run.ite_apply]
  split
  case isTrue h => exact ⟨rfl, h⟩
  case isFalse =>
    exact ⟨g, h.setFields rfl rfl ⟨fun hx => (by cases hx),
      fun _ => (h.procs i hi).inUse (.inl hst), (h.procs i hi).shape⟩⟩

/-- **A page fault.** -/
theorem usertrap_spec (hi : i < nproc) (hst : (s.proc i).state = .live) (va : ℕ) :
    Ensures (usertrap i va s) (fun _ s' => ∃ g', Accounts s' held spaces flight g')
      (ExitPanic s i) := by
  have hr := h.root_pagetable hi ((h.procs i hi).inUse (.inl hst)).2
  have hfault : Ensures (usertrapFault (s.proc i).pagetable va s.k) (fun _ σ' => ∃ g', Inv σ' g' ∧
      Keeps {} s.k g σ' g') fun _ => False := by
    rw [usertrapFault, Run.ite_apply]
    split
    · exact ⟨g, h.inv, Keeps.refl ..⟩
    · refine (swapin_spec h.inv hr (by omega)).bind ?_
      rintro ret σ' ⟨g', h', k, -⟩
      exact ⟨g', h', k⟩
  rw [usertrap, bind_get]
  refine call_spec hfault.weaken ?_
  rintro ok σ' ⟨g', h', k⟩
  have h1 := h.keep h' k
  cases ok with
  | true => exact ⟨g', h1⟩
  | false => exact exit_spec h1 hi hst (-1)

/-- **`wait`** of the process `i` for its child `j`. -/
theorem wait_spec {j : ℕ} (hi : i < nproc)
    (hp : (s.proc i).pagetable ≠ 0) (hj : j < nproc) (addr : ℕ)
    (hsp : Spared flight { frames := {(s.proc j).pagetable} }) :
    Ensures (wait i j addr s) (fun _ s' => ∃ g', Accounts s' held spaces flight g')
      fun _ => False := by
  have hcopy : Ensures ((if addr ≠ 0 then copyout (s.proc i).pagetable addr
      (intBytes (s.proc j).xstate) else pure 0 : K ℤ) s.k) (fun _ =>
      OnlyBytes s.k g (s.proc i).pagetable) fun _ => False := by
    rw [Run.ite_apply]
    split
    · exact copyout_spec h.inv (h.root_pagetable hi hp) _ _
    · exact OnlyBytes.refl h.inv _
  rw [wait, P.bind_get, P.bind_get]
  refine P.call_spec hcopy ?_
  rintro ret σ₁ hb
  have h1 := h.onlyBytes hb
  rw [Run.ite_apply]
  split
  · exact ⟨g, h1⟩
  · refine (freeproc_spec h1 hj hsp).bind ?_
    rintro - s₂ ⟨-, g₂, h2⟩
    exact ⟨g₂, h2⟩

/-- **`userinit`**, with nine free frames and an unused entry. -/
theorem userinit_spec (hfree : HasFree g 9)
    (hunused : ∃ j < nproc, (s.proc j).state = .unused) :
    Ensures (userinit s) (fun _ s' => ∃ g', Accounts s' held spaces flight g') fun _ => False := by
  refine (allocproc_spec h).bind ?_
  rintro o s₁ ⟨g₁, h1, hn, ht⟩
  obtain ⟨ho, hfree1⟩ := hn 3 hfree hunused
  obtain ⟨i, rfl⟩ := Option.ne_none_iff_exists'.1 ho
  obtain ⟨hi, -, ht⟩ := ht i rfl
  have hr := h1.root_pagetable hi ht.pagetable
  have hs := (h1.procs i hi).shape ht.pagetable
  rw [ht.sz] at hs
  have h1' := h1.congr { s₁ with initproc := i } rfl rfl
  dsimp only
  rw [Run.bind_modify, bind_get]
  refine call_spec (uvmfirst_spec h1.inv hr (hs.leaf_eq_zero h1.inv hr (by simp [npg]) (by decide))
    (by decide) hfree1) ?_
  rintro - σ₂ ⟨g₂, h2, k, hmap⟩
  rw [bind_set]
  have k' : Keeps { pages := pageRange (s₁.proc i).pagetable 0 1 } s₁.k g₁ σ₂ g₂ :=
    k.mono (by rintro _ rfl; exact ⟨rfl, Nat.zero_le _, Nat.one_pos⟩) (fun _ hx => hx)
      fun _ hx => hx
  have hs' : Shape σ₂ (s₁.proc i).pagetable (npg pgsize) := by
    refine hs.resize k' hr (by decide) (fun v _ hv => ?_) fun v _ hout => ?_
    · obtain rfl : v = 0 := by omega
      exact ⟨fun _ => by decide, fun _ => hmap⟩
    · rw [show npg pgsize = 1 by decide, show npg 0 = 0 by decide]; omega
  have h3 := h1'.proc h2 k' hi (fun _ _ hx => (mem_pageRange.1 hx).1) ht.spared.ofTable
    (p := { s₁.proc i with sz := pgsize }) rfl rfl
    ⟨fun hx => by simp [ht.state] at hx, fun hx => by simp [ht.state] at hx, fun _ => hs'⟩
  have hk : g₂.role (s₁.proc i).trapframe = .kern :=
    (k.kern _ (Set.notMem_empty _)).2 (h1.kern_trapframe hi ht.trapframe)
  refine call_spec (h3.storeKern hk (by decide) _) ?_
  rintro - σ₄ ⟨h4, -⟩
  refine call_spec (h4.storeKern hk (by decide) _) ?_
  rintro - σ₅ ⟨h5, -⟩
  refine ⟨g₂, h5.setFields rfl rfl ⟨fun hx => (by cases hx), fun _ => ?_, (h5.procs i hi).shape⟩⟩
  dsimp only
  rw [put_self]
  exact ⟨ht.trapframe, ht.pagetable⟩

end Xv6Swap
