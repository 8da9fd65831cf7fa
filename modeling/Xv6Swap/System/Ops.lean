import Xv6Swap.System.World

/-!
# The complete operations keep the accounts

`Op.spec` is assembled from one lemma for each kind of operation: calls of the memory system that
no process can see, calls that build or tear down a page table that belongs to no process, accesses
of users, and calls of processes.  `reachable_sound` carries it to every reachable world.
-/

namespace Xv6Swap

open World List Bool Nat

variable {w : World} {g : Ghost} {r v f n : ℕ}

/-- A frame of the kernel becomes a user page of a table that belongs to no process. -/
theorem World.Acc.mapHeld (h : w.Acc g) {σ' : KState} {g' : Ghost} (hinv : Inv σ' g')
    (k : Keeps ⟨{(r, v)}, {f}, ∅⟩ w.sys.k g σ' g') (hr : r ∈ w.spaces) (hf : f ∈ w.held)
    (hnone : logical w.sys.k r v = none) (hrole : g'.role f = .user r v) :
    Accounts { w.sys with k := σ' } (w.held.erase f) w.spaces w.flight g' := by
  have hk : g.role f = .kern := h.kern.of_mem hf
  have hsp : Spared w.flight ⟨{(r, v)}, {f}, ∅⟩ := fun fl hfl =>
    ⟨(h.spared (by simp [hk]) fl hfl).1, (h.spared_unmapped (P := {(r, v)})
      (by rintro _ _ ⟨⟩; exact hnone) fl hfl).2⟩
  refine ⟨hinv, h.busy_of_keeps k, h.pinned_of_keeps k hsp,
    h.kern.erase hf (iff_remove (fun x hx => k.kern x hx) (by simp [hrole])),
    h.root.congr (iff_same (a := f) (fun x hx => k.root x hx) (by simp [hk, hrole])),
    fun i hi => ?_⟩
  by_cases hp : (w.sys.proc i).pagetable = 0
  · exact ⟨(h.procs i hi).unused, (h.procs i hi).inUse, fun hx => absurd hp hx⟩
  · refine h.procOk_of_keeps hi k (h.pagetable_ne hi (by simp [hk]) hp) ?_
    rintro v' ⟨⟩
    exact h.root.apart i hi hp hr

theorem table_of_range {r a b : ℕ} (v' r' : ℕ) (hx : (r', v') ∈ pageRange r a b) : r' = r :=
  (mem_pageRange.1 hx).1

namespace Op

variable {va oldsz newsz sz i : ℕ}

/-- The operation returns and keeps the accounts. -/
abbrev Returns (op : Op) (w : World) : Prop := Ensures (op.run w) (Carried w) fun _ => False

/-! ### The memory system -/

theorem kalloc_ok (h : w.Acc g) : kalloc.Returns w := by
  refine call_spec (kalloc_spec h.inv) ?_
  rintro (_ | f) σ' ha
  · obtain ⟨g', h', -, -, k⟩ := ha
    exact ⟨⟨g', h.keep h' k⟩, rfl⟩
  · obtain ⟨g', h', -⟩ := h.take ha
    exact ⟨⟨g', h'⟩, rfl⟩

theorem kfree_ok (h : w.Acc g) (hf : f ∈ w.held) : (kfree f).Returns w :=
  call_spec (h.give hf) fun _ _ hq => ⟨⟨_, hq.1⟩, rfl⟩

theorem write_ok (h : w.Acc g) {data : List Byte} (hf : f ∈ w.held) (hd : data.length ≤ pgsize) :
    (write f data).Returns w :=
  carried_call (m := Run.modify _) ⟨g, h.writeKern (h.kern.of_mem hf)
    ((Mem.sameOutside_write _ f data).mono (Nat.le_refl _) (Nat.add_le_add_left hd _))⟩

/-- A call after which everything a process can see is the same. -/
theorem keeps_ok {α : Type} {m : K α} (h : w.Acc g)
    (hm : Ensures (m w.sys.k) (fun _ σ' => ∃ g', Inv σ' g' ∧ Keeps {} w.sys.k g σ' g')
      fun _ => False) :
    Ensures ((do let _ ← call m : Run World Stop Unit) w) (Carried w) fun _ => False := by
  refine carried_call_ignore (hm.imp ?_)
  rintro _ σ' ⟨g', h', k⟩
  exact ⟨g', h.keep h' k⟩

theorem walk_ok (h : w.Acc g) (hr : w.IsTable r) (hva : va < maxva) : (walk r va).Returns w := by
  refine keeps_ok h ((walk_spec h.inv (h.isTable.1 hr) hva).imp ?_)
  rintro _ σ' ⟨g', h', k, -⟩
  exact ⟨g', h', k⟩

theorem swapout_keeps {σ : KState} (h : Inv σ g) : Ensures (Xv6Swap.swapout σ) (fun _ σ' =>
    ∃ g', Inv σ' g' ∧ Keeps {} σ g σ' g') fun _ => False := by
  refine (swapout_spec h).imp ?_
  rintro _ σ' (⟨-, l, h', k⟩ | ⟨-, i, r, v, s, l, -, -, -, h', k, -⟩)
  · exact ⟨_, h', k⟩
  · exact ⟨_, h', k⟩

section

variable (h : w.Acc g)
include h

theorem swapin_ok (hr : w.IsTable r) (hva : va < maxva) : (swapin r va).Returns w := by
  refine keeps_ok h ((swapin_spec h.inv (h.isTable.1 hr) hva).imp ?_)
  rintro _ σ' ⟨g', h', k, -⟩
  exact ⟨g', h', k⟩

/-! ### Page tables that belong to no process -/

theorem mappages_ok {perm : Word} (hok : (mappages r v f perm).Ok w) :
    (mappages r v f perm).Returns w := by
  obtain ⟨hr, hv, hnone, hf, hp, hR, hS⟩ := hok
  have hroot := h.root.of_mem hr
  refine call_spec (mappages_user_spec h.inv hroot hv
    ((h.inv.leaf_eq_zero_iff hroot hv).2 hnone) (h.kern.of_mem hf) hp hR hS) ?_
  rintro ret σ' ⟨g', h', -, ⟨rfl, k⟩ | ⟨rfl, hrole, -, k, -⟩⟩
  · exact ⟨⟨g', h.keep h' k⟩, rfl⟩
  · exact ⟨⟨g', h.mapHeld h' k hr hf hnone hrole⟩, rfl⟩

theorem uvmcreate_ok : uvmcreate.Returns w := by
  refine call_spec (uvmcreate_spec h.inv) ?_
  rintro (_ | r) σ' ⟨g', h', -, hσ'⟩
  · exact ⟨⟨g', h.keep h' hσ'⟩, rfl⟩
  · exact ⟨⟨g', h.addSpace hσ'.1⟩, rfl⟩

theorem uvmalloc_ok {xperm : Word} (hok : (uvmalloc r oldsz newsz xperm).Ok w) :
    (uvmalloc r oldsz newsz xperm).Returns w := by
  obtain ⟨hr, hold, hx, hS, hun⟩ := hok
  have hroot := h.root.of_mem hr
  refine carried_call_ignore ((uvmalloc_spec h.inv hroot _ _ hold hx hS fun v h1 h2 =>
    (h.inv.leaf_eq_zero_iff hroot h2).2 (hun v h1 h2)).imp ?_)
  rintro ret σ' ⟨g', h', -, ⟨-, k⟩ | ⟨-, -, hmax, k, -⟩⟩
  · exact ⟨g', h.keep h' k⟩
  · have hm : maxPages = 39768 := rfl
    have hu : uvpn = 67108862 := rfl
    refine ⟨g', h.space h' k hr table_of_range (h.spared_unmapped fun r' v hx => ?_)⟩
    obtain ⟨rfl, h1, h2⟩ := mem_pageRange.1 hx
    exact hun v h1 (by omega)

theorem uvmdealloc_ok (hok : (uvmdealloc r oldsz newsz).Ok w)
    (hsp : Spared w.flight ((uvmdealloc r oldsz newsz).unmaps w)) :
    (uvmdealloc r oldsz newsz).Returns w := by
  obtain ⟨hr, hold, hmap⟩ := hok
  refine carried_call_ignore ((uvmdealloc_spec h.inv (h.root.of_mem hr) _ _ hold).mono ?_ ?_)
  · rintro ret σ' ⟨-, g', h', k, -⟩
    exact ⟨g', h.space h' k hr table_of_range hsp⟩
  · rintro - ⟨v, h1, h2, hnone⟩
    exact hmap v h1 h2 hnone

theorem uvmunmap_ok {n : ℕ} (hok : (uvmunmap r v n).Ok w)
    (hsp : Spared w.flight ((uvmunmap r v n).unmaps w)) : (uvmunmap r v n).Returns w := by
  obtain ⟨hr, hv, hmap⟩ := hok
  refine carried_call ((uvmunmap_spec h.inv (h.root.of_mem hr) hv).mono ?_ ?_)
  · rintro - σ' ⟨g', h', k, -⟩
    exact ⟨g', h.space h' k hr table_of_range hsp⟩
  · rintro - ⟨v', h1, h2, hnone⟩
    exact hmap v' h1 h2 hnone

theorem uvmclear_ok (hok : (uvmclear r v).Ok w) : (uvmclear r v).Returns w := by
  obtain ⟨hr, hv, hmap⟩ := hok
  refine carried_call ((uvmclear_spec h.inv (h.root.of_mem hr) hv).mono ?_ fun _ hn => hmap hn)
  rintro - σ' ⟨h', hpages, k, hiff⟩
  exact ⟨g, h.rewrite h' k hpages (by rintro _ _ ⟨⟩; exact hv) (by rintro _ _ - ⟨⟩; exact hiff)⟩

theorem uvmcopy_ok {old new : ℕ} (hok : (uvmcopy old new sz).Ok w) :
    (uvmcopy old new sz).Returns w := by
  obtain ⟨ho, hn, hun, hmap⟩ := hok
  have hroot := h.root.of_mem hn
  refine carried_call_ignore ((uvmcopy_spec h.inv (h.isTable.1 ho) hroot _ fun v hv =>
    (h.inv.leaf_eq_zero_iff hroot hv).2 (hun v (zero_le _) hv)).mono ?_ ?_)
  · rintro ret σ' ⟨g', h', ⟨-, k⟩ | ⟨-, hmax, k, -⟩⟩
    · exact ⟨g', h.keep h' k⟩
    · have hm : maxPages = 39768 := rfl
      have hu : uvpn = 67108862 := rfl
      refine ⟨g', h.space h' k hn table_of_range (h.spared_unmapped fun r' v hx => ?_)⟩
      obtain ⟨rfl, h1, h2⟩ := mem_pageRange.1 hx
      exact hun v h1 (by omega)
  · rintro - ⟨v, h1, h2, hnone⟩
    exact hmap v (zero_le _) (lt_min h1 h2) hnone

theorem uvmfree_ok (hok : (uvmfree r sz).Ok w) (hsp : Spared w.flight ((uvmfree r sz).unmaps w)) :
    (uvmfree r sz).Returns w := by
  obtain ⟨hr, hsz, hmap, hz⟩ := hok
  refine call_spec ((uvmfree_spec h.inv (h.root.of_mem hr) hsz hz).mono (fun _ _ hq => hq) ?_) ?_
  · rintro - ⟨v, hv, hnone⟩
    exact hmap v (zero_le _) hv hnone
  · rintro - σ' ⟨g', h', k, hfree⟩
    exact ⟨⟨g', h.dropSpace hr h' k hfree hsp⟩, rfl⟩

/-! ### Accesses of users -/

theorem load_ok (hr : w.IsTable r) : (load r va).Returns w := by
  refine keeps_ok h ((userLoad_spec h.inv (h.isTable.1 hr) va).imp ?_)
  rintro _ σ' ⟨h', k, -⟩
  exact ⟨g, h', k⟩

theorem store_ok {b : Byte} (hr : w.IsTable r) : (store r va b).Returns w := by
  refine carried_call_ignore ((userStore_spec h.inv (h.isTable.1 hr) va b).imp ?_)
  rintro ok σ' ⟨h', ⟨m', rfl⟩, hcase⟩
  cases hf : accessFrame w.sys.k r (va / 4096) pteW with
  | none => rw [hf] at hcase; exact ⟨g, h.keep h' hcase.2⟩
  | some f =>
    rw [hf] at hcase
    obtain ⟨-, k, hlog⟩ := hcase
    have hrole := h.inv.role_userFrame (h.isTable.1 hr) (accessFrame_eq_some hf).1
    have hv := (h.inv.leaves.user f r _ hrole).2.1
    refine ⟨g, h.rewrite h' k rfl (by rintro _ _ ⟨⟩; exact hv) ?_⟩
    rintro _ _ - ⟨⟩
    rw [hlog]
    simp

theorem copyout_ok {dstva : ℕ} {src : List Byte} (hr : w.IsTable r) :
    (copyout r dstva src).Returns w := by
  refine carried_call_ignore ((copyout_spec h.inv (h.isTable.1 hr) dstva src).imp ?_)
  rintro _ σ' hb
  exact ⟨g, h.onlyBytes hb⟩

/-! ### Processes -/

theorem live_frames (hl : w.Live i) : (w.sys.proc i).trapframe ≠ 0 ∧ (w.sys.proc i).pagetable ≠ 0 :=
  (h.procs i hl.1).inUse (.inl hl.2)

theorem userinit_ok (hok : userinit.Ok w) : userinit.Returns w := by
  obtain ⟨hun, l, hl, hlen⟩ := hok
  exact carried_psys (userinit_spec h ((h.hasFree hl).mono hlen) ⟨0, by decide, hun 0 (by decide)⟩)

theorem sbrk_ok {a0 : Word} (hl : w.Live i) (hsp : Spared w.flight ((sbrk i a0).unmaps w)) :
    (sbrk i a0).Returns w := by
  refine carried_psys_ignore (m := sysSbrk i a0) ?_
  rw [sysSbrk, P.bind_get]
  refine (growproc_spec h hl.1 (live_frames h hl).2 (argint a0) hsp).bind ?_
  rintro ret s' ⟨g', h', -⟩
  rw [Run.ite_apply]
  split <;> exact ⟨g', h'⟩

end

/-- **Every operation keeps the accounts**, if it does not unmap the page of the eviction in
progress, and stops only as `MayStop` says. -/
theorem spec (op : Op) (h : w.Sound) (hok : op.Ok w) (hsp : Spared w.flight (op.unmaps w)) :
    Ensures (op.run w) (Carried w) (op.MayStop w) := by
  obtain ⟨g, h⟩ := h
  cases op with
  | kalloc => exact kalloc_ok h
  | kfree pa => exact kfree_ok h hok
  | write pa data => exact write_ok h hok.1 hok.2
  | walk r va => exact walk_ok h hok.1 hok.2
  | mappages r v pa perm => exact mappages_ok h hok
  | uvmcreate => exact uvmcreate_ok h
  | uvmalloc r oldsz newsz xperm => exact uvmalloc_ok h hok
  | uvmdealloc r oldsz newsz => exact uvmdealloc_ok h hok hsp
  | uvmunmap r v n => exact uvmunmap_ok h hok hsp
  | uvmclear r v => exact uvmclear_ok h hok
  | uvmcopy old new sz => exact uvmcopy_ok h hok
  | uvmfree r sz => exact uvmfree_ok h hok hsp
  | swapout => exact keeps_ok h (swapout_keeps h.inv)
  | swapin r va => exact swapin_ok h hok.1 hok.2
  | load r va => exact load_ok h hok
  | store r va b => exact store_ok h hok
  | copyout r dstva src => exact copyout_ok h hok
  | userinit => exact userinit_ok h hok
  | sbrk i a0 => exact sbrk_ok h hok hsp
  | fork i => exact carried_psys_ignore (fork_spec h hok.1 (live_frames h hok).2)
  | exec namei i a0 a1 =>
    exact carried_psys_ignore (sysExec_spec h hok.1 hok.2 namei a0 a1 hsp)
  | fault i va => exact carried_psys (usertrap_spec h hok.1 hok.2 va)
  | exit i status => exact carried_psys (exit_spec h hok.1 hok.2 status)
  | wait i j addr =>
    exact carried_psys_ignore (wait_spec h hok.1.1 (live_frames h hok.1).2 hok.2.1 addr hsp)

end Op

/-! ### Reachable worlds -/

/-- The worlds after `main` has set up the memory system. -/
def World.Booted (w : World) : Prop :=
  ∃ link mem disk σ, boot (.fresh link mem disk) = .ok ((), σ) ∧ w = ⟨.booted σ, [], [], none⟩

theorem World.Booted.sound (h : w.Booted) : w.Sound := by
  obtain ⟨link, mem, disk, σ, hb, rfl⟩ := h
  exact (boot_spec link mem disk).of_ok hb

/-- **The machine of the complete operations.** -/
def system : Machine World Stop Op where
  init := Booted
  guard := Op.Ok
  prog := Op.run

/-- **The accounts of every reachable world are in order**, and no eviction is in progress. -/
theorem reachable_sound (h : system.Reachable w) : w.Sound ∧ w.flight = none := by
  refine h.invariant (I := fun w => w.Sound ∧ w.flight = none) ?_ ?_
  · intro w hw
    refine ⟨hw.sound, ?_⟩
    obtain ⟨link, mem, disk, σ, -, rfl⟩ := hw
    rfl
  · rintro w op w' ⟨hs, hf⟩ ⟨hok, hrun⟩
    have hc := (op.spec hs hok (by rw [hf]; exact Spared.none _)).of_ok hrun
    exact ⟨hc.1, hc.2.trans hf⟩

/-- An operation taken in a reachable world returns, or stops as `MayStop` says. -/
theorem reachable_stop (h : system.Reachable w) {op : Op} (hok : op.Ok w) {e : Stop}
    (he : op.run w = .error e) : op.MayStop w e := by
  obtain ⟨hs, hf⟩ := reachable_sound h
  exact (op.spec hs hok (by rw [hf]; exact Spared.none _)).of_error he

/-- **What can stop an operation**: in every reachable world it returns, unless `loadseg` panics in
an `exec`, or the first process exits. -/
theorem operations_return (hw : system.Reachable w) (op : Op) (hok : op.Ok w) :
    (∃ w', op.run w = .ok ((), w')) ∨
      (∃ namei i a0 a1, op = .exec namei i a0 a1) ∧ op.run w = .error (.panic .loadseg) ∨
      ((∃ va, op = .fault w.sys.initproc va) ∨ ∃ status, op = .exit w.sys.initproc status) ∧
        op.run w = .error (.panic .initExiting) := by
  cases hrun : op.run w with
  | ok q => exact .inl ⟨q.2, rfl⟩
  | error e =>
    have hstop := reachable_stop hw hok hrun
    cases op with
    | exec namei i a0 a1 => exact .inr (.inl ⟨⟨_, _, _, _, rfl⟩, congrArg _ hstop⟩)
    | fault i va =>
      obtain ⟨he, rfl⟩ := hstop
      exact .inr (.inr ⟨.inl ⟨va, rfl⟩, congrArg _ he⟩)
    | exit i status =>
      obtain ⟨he, rfl⟩ := hstop
      exact .inr (.inr ⟨.inr ⟨status, rfl⟩, congrArg _ he⟩)
    | _ => exact hstop.elim

/-! ### Runs that can be computed -/

/-- The list threaded from `head`, as far as `fuel` goes. -/
def chainList (m : Mem) : ℕ → ℕ → List ℕ
  | 0, _ => []
  | fuel + 1, head => if head = 0 then [] else head :: chainList m fuel (m.load64 head).toNat

theorem chain_chainList {m : Mem} : ∀ {fuel head : ℕ}, (chainList m fuel head).length < fuel →
    Chain m head (chainList m fuel head)
  | 0, _, h => absurd h (not_lt_zero _)
  | fuel + 1, head, h => by
    rw [chainList] at h ⊢
    split
    · assumption
    · rename_i h0
      rw [if_neg h0, length_cons] at h
      exact ⟨rfl, h0, chain_chainList (by omega)⟩

instance (w : World) (i : ℕ) : Decidable (w.Live i) :=
  inferInstanceAs (Decidable (i < nproc ∧ (w.sys.proc i).state = .live))

/-- `r` is a page table, as far as it can be computed. -/
def World.isTable (w : World) (r : ℕ) : Bool :=
  w.spaces.contains r || (range nproc).any fun i =>
    (w.sys.proc i).pagetable ≠ 0 ∧ (w.sys.proc i).pagetable = r

theorem World.IsTable.of_check (h : w.isTable r = true) : w.IsTable r := by
  rw [isTable, or_eq_true, any_eq_true] at h
  rcases h with h | ⟨i, hi, h⟩
  · exact .inl (by simpa using h)
  · exact .inr ⟨i, mem_range.1 hi, by simpa using h⟩

/-- A test that implies what the caller promises; `false` where it cannot be computed. -/
def Op.check : Op → World → Bool
  | kalloc, _ | swapout, _ | uvmcreate, _ => true
  | kfree pa, w => w.held.contains pa
  | swapin r va, w | walk r va, w => w.isTable r && decide (va < maxva)
  | load r _, w | store r _ _, w | copyout r _ _, w => w.isTable r
  | userinit, w => (range nproc).all (fun i => (w.sys.proc i).state = .unused) &&
      decide (9 ≤ (chainList w.sys.k.mem 64 w.sys.k.freelist).length) &&
      decide ((chainList w.sys.k.mem 64 w.sys.k.freelist).length < 64)
  | sbrk i _, w | fork i, w | exec _ i _ _, w | fault i _, w | exit i _, w => decide (w.Live i)
  | wait i j _, w => decide (w.Live i) && decide (j < nproc) &&
      decide ((w.sys.proc j).state = .zombie)
  | _, _ => false

theorem Op.Ok.of_check (op : Op) (w : World) (h : op.check w = true) : op.Ok w := by
  cases op with
  | kalloc | swapout | uvmcreate => exact trivial
  | kfree pa => exact contains_iff_mem.1 h
  | swapin r va | walk r va =>
    obtain ⟨h1, h2⟩ := and_eq_true_iff.1 h
    exact ⟨.of_check h1, of_decide_eq_true h2⟩
  | load r va | store r va b | copyout r va src => exact IsTable.of_check h
  | userinit =>
    obtain ⟨h12, h3⟩ := and_eq_true_iff.1 h
    obtain ⟨h1, h2⟩ := and_eq_true_iff.1 h12
    refine ⟨fun i hi => ?_, _, chain_chainList (of_decide_eq_true h3), of_decide_eq_true h2⟩
    simpa using all_eq_true.1 h1 i (mem_range.2 hi)
  | sbrk i a0 | fork i | exec namei i a0 a1 | fault i va | exit i status =>
    exact (of_decide_eq_true h : w.Live i)
  | wait i j addr =>
    obtain ⟨h12, h3⟩ := and_eq_true_iff.1 h
    obtain ⟨h1, h2⟩ := and_eq_true_iff.1 h12
    exact ⟨of_decide_eq_true h1, of_decide_eq_true h2, of_decide_eq_true h3⟩
  | _ => cases h

/-- The world of the small machine after booting. -/
def World.small (n : ℕ) (h : n ≤ 32766) : World := ⟨.booted (.small n h), [], [], none⟩

theorem reachable_small (h : n ≤ 32766) (h0 : 0 < n) :
    system.Reachable (small n h) := .init ⟨_, _, _, _, boot_small h h0, rfl⟩

/-- A list of operations after which the small machine passes a test. -/
theorem reachable_test (h : n ≤ 32766) (h0 : 0 < n) (ops : List Op) {t : World → Bool}
    (ht : (system.path Op.check ops (small n h)).any t = true) :
    ∃ w, system.Reachable w ∧ t w = true :=
  (reachable_small h h0).test Op.Ok.of_check ops ht

theorem live_first : ∃ w, system.Reachable w ∧ w.Live 0 := by
  obtain ⟨w, hw, ht⟩ := reachable_test (n := 13) (by decide) (by decide) [.userinit]
    (t := fun w => decide (w.Live 0)) (by decide +kernel)
  exact ⟨w, hw, of_decide_eq_true ht⟩

/-- The first process grows. -/
theorem operations_return_sbrk : ∃ w w', system.Reachable w ∧ w.Live 0 ∧
    Op.run (.sbrk 0 4096#64) w = .ok ((), w') := by
  obtain ⟨w, hw, hl⟩ := live_first
  obtain ⟨w', h⟩ | ⟨⟨_, _, _, _, h⟩, -⟩ | ⟨⟨_, h⟩ | ⟨_, h⟩, -⟩ :=
    operations_return hw (.sbrk 0 4096#64) hl
  · exact ⟨w, w', hw, hl, h⟩
  all_goals cases h

end Xv6Swap
