import Xv6Swap.Kernel.Virtio
import Xv6Swap.Lib.Window
import Mathlib.Tactic.SplitIfs

/-!
# The disk driver and the device agree

The invariant of `Kernel/Virtio.lean`, in three parts: the descriptors in use are those of the calls
in flight, in chains of three (`Chains`); the two rings hold what is published and not yet taken,
and what is reported and not yet handled (`Rings`); and the requests on their way, from
`disk.avail->idx += 1` to the interrupt handler, have different chain heads and a thread that waits
for each of them (`Flying`).  As there are only `NUM` heads, at most `NUM` requests are on their
way, and neither ring is overrun, also when its 16-bit index wraps.

* `allocDesc_spec`, `freeDesc_ok`, `alloc3Desc_spec` : the allocation of descriptors;
* `Sound.launch`, `Sound.publish`, `finish_spec`, `handle_spec`, `Sound.take`, `Sound.complete` :
  the steps of the threads and of the device keep the invariant;
* `Sound.next` : every event that can happen returns, and keeps it;
* `driver_protocol` : what follows for every run.
-/

namespace Xv6Swap

open Function VdCall List VdReq VdPc Nat Option

variable {f : VdCall} {pc : VdPc}

/-- The descriptors of a call. -/
def VdCall.chain (f : VdCall) : List ℕ := [f.i0, f.i1, f.i2]

theorem VdCall.mem_chain {i : ℕ} :
    i ∈ f.chain ↔ i = f.i0 ∨ i = f.i1 ∨ i = f.i2 := by
  simp only [chain, mem_cons, not_mem_nil, or_false]

theorem VdCall.update_of_notMem {α : Type} {i : ℕ} (g : ℕ → α) (a b c : α) (h : i ∉ f.chain) :
    update (update (update g f.i0 a) f.i1 b) f.i2 c i = g i := by
  rw [mem_chain] at h
  rw [update_of_ne fun e => h (.inr (.inr e)), update_of_ne fun e => h (.inr (.inl e)),
    update_of_ne fun e => h (.inl e)]

theorem VdCall.update_of_mem {α : Type} {i : ℕ} (g : ℕ → α) (a : α) (h : i ∈ f.chain) :
    update (update (update g f.i0 a) f.i1 a) f.i2 a i = a := by
  simp only [update_apply]
  rcases mem_chain.1 h with rfl | rfl | rfl <;> simp only [if_true, ite_self]

/-- The thread holds `vdisk_lock`. -/
def VdPc.Holds : VdPc → Prop
  | .ready _ | .check _ | .loop => True
  | .idle | .rw _ _ | .asleep _ | .intr => False

/-- The thread waits for the completion of its request. -/
def VdPc.Waits (pc : VdPc) (f : VdCall) : Prop := pc = .check f ∨ pc = .asleep f

theorem VdPc.buf_of_call (h : pc.call = some f) : pc.buf = some f.b := by
  cases pc <;> cases h <;> rfl

theorem VdPc.Waits.call (h : pc.Waits f) : pc.call = some f := by
  rcases h with rfl | rfl <;> rfl

namespace Vdisk

variable {nt i t u n : ℕ} {s s' : Vdisk} {free : ℕ → Bool} {r : VdReq} {f : VdCall} {pc : VdPc}
  {l : Option ℕ} {write : Bool} {desc : ℕ → VdDesc}

/-! ### Allocation of descriptors -/

theorem allocDesc_spec (s : Vdisk) (free : ℕ → Bool) :
    allocDesc { s with free } = .ok (none, { s with free }) ∨
    ∃ i < vnum, free i = true ∧
      allocDesc { s with free } = .ok (some i, { s with free := update free i false }) := by
  cases h : (range vnum).find? fun i => free i with
  | none =>
    left
    simp only [allocDesc, Run.bind_read, h]
    rfl
  | some i =>
    refine .inr ⟨i, mem_range.1 (mem_of_find?_eq_some h), ?_, ?_⟩
    · exact find?_some h
    · simp only [allocDesc, Run.bind_read, h]
      rfl

theorem freeDesc_ok (s : Vdisk) (desc : ℕ → VdDesc) (hi : i < vnum)
    (hf : free i = false) : freeDesc i { s with desc, free } = .ok ((), { s with
      desc := update desc i ⟨.null, 0, 0⟩
      free := update free i true }) := by
  have hge : ¬ i ≥ vnum := by omega
  simp only [freeDesc, Run.bind_read, if_neg hge, hf, Bool.false_eq_true, if_false,
    Run.modify_apply]

/-- A failed `alloc3_desc` leaves the set of free descriptors as it was, and clears only free
descriptors; one that succeeds returns three of them. -/
theorem alloc3Desc_spec (s : Vdisk) :
    (∃ d, alloc3Desc s = .ok (none, { s with desc := d }) ∧
      ∀ i, s.free i = false → d i = s.desc i) ∨
    ∃ i0 i1 i2, alloc3Desc s = .ok (some (i0, i1, i2), { s with
        free := update (update (update s.free i0 false) i1 false) i2 false }) ∧
      (i0 < vnum ∧ i1 < vnum ∧ i2 < vnum) ∧ (i0 ≠ i1 ∧ i0 ≠ i2 ∧ i1 ≠ i2) ∧
      s.free i0 = true ∧ s.free i1 = true ∧ s.free i2 = true := by
  rcases allocDesc_spec s s.free with h0 | ⟨i0, hi0, hf0, h0⟩
  · refine .inl ⟨s.desc, ?_, fun _ _ => rfl⟩
    simp only [alloc3Desc, Run.bind_ok h0]
    rfl
  · rcases allocDesc_spec s (update s.free i0 false) with h1 | ⟨i1, hi1, hf1, h1⟩
    · refine .inl ⟨update s.desc i0 ⟨.null, 0, 0⟩, ?_, fun i hi => ?_⟩
      · simp only [alloc3Desc, Run.bind_ok h0, Run.bind_ok h1]
        rw [Run.bind_ok (freeDesc_ok s s.desc hi0 (update_self ..))]
        simp only [Run.pure_apply, update_idem, ← hf0, update_eq_self]
      · refine update_of_ne ?_ ..
        rintro rfl
        rw [hf0] at hi
        cases hi
    · have h10 : i1 ≠ i0 := by
        rintro rfl
        rw [update_self] at hf1
        cases hf1
      rw [update_of_ne h10] at hf1
      rcases allocDesc_spec s (update (update s.free i0 false) i1 false) with
        h2 | ⟨i2, hi2, hf2, h2⟩
      · refine .inl ⟨update (update s.desc i0 ⟨.null, 0, 0⟩) i1 ⟨.null, 0, 0⟩, ?_, fun i hi => ?_⟩
        · simp only [alloc3Desc, Run.bind_ok h0, Run.bind_ok h1, Run.bind_ok h2]
          rw [Run.bind_ok (freeDesc_ok s s.desc hi0 (by
              rw [update_of_ne h10.symm, update_self])),
            Run.bind_ok (freeDesc_ok s _ hi1 (by
              rw [update_of_ne h10, update_self]))]
          have hfree : update (update (update (update s.free
              i0 false) i1 false) i0 true) i1 true = s.free := by
            funext i
            simp only [update_apply]
            split_ifs with h h'
            · rw [h, hf1]
            · rw [h', hf0]
            · rfl
          simp only [Run.pure_apply, hfree]
        · rw [update_of_ne, update_of_ne]
          · rintro rfl
            rw [hf0] at hi
            cases hi
          · rintro rfl
            rw [hf1] at hi
            cases hi
      · have h21 : i2 ≠ i1 := by
          rintro rfl
          rw [update_self] at hf2
          cases hf2
        rw [update_of_ne h21] at hf2
        have h20 : i2 ≠ i0 := by
          rintro rfl
          rw [update_self] at hf2
          cases hf2
        rw [update_of_ne h20] at hf2
        refine .inr ⟨i0, i1, i2, ?_, ⟨hi0, hi1, hi2⟩, ⟨h10.symm, h20.symm, h21.symm⟩, hf0, hf1, hf2⟩
        simp only [alloc3Desc, Run.bind_ok h0, Run.bind_ok h1, Run.bind_ok h2]
        rfl

/-! ### The invariant -/

/-- The requests that the device knows about, or that it has reported and the interrupt handler
has not read. -/
def pending (s : Vdisk) : List VdReq :=
  s.posts.drop s.consumed ++ s.taken ++ s.reports.drop s.processed.length

/-- The chain of a call is what `virtio_disk_rw` has made it. -/
structure Formed (s : Vdisk) (f : VdCall) : Prop where
  lt : f.i0 < vnum ∧ f.i1 < vnum ∧ f.i2 < vnum
  ne : f.i0 ≠ f.i1 ∧ f.i0 ≠ f.i2 ∧ f.i1 ≠ f.i2
  inUse : ∀ i ∈ f.chain, s.free i = false
  desc0 : (s.desc f.i0).flags &&& descNext ≠ 0 ∧ (s.desc f.i0).next = f.i1
  desc1 : (s.desc f.i1).flags &&& descNext ≠ 0 ∧ (s.desc f.i1).next = f.i2
  desc2 : (s.desc f.i2).flags &&& descNext = 0 ∧ (s.desc f.i2).addr = .status f.i0
  info : (s.info f.i0).b = some f.b

/-- The descriptors and the calls. -/
structure Chains (nt : ℕ) (s : Vdisk) : Prop where
  idle : ∀ t, nt ≤ t → s.thread t = .idle
  formed : ∀ t f, (s.thread t).call = some f → s.Formed f
  disjoint : ∀ t u f g i, (s.thread t).call = some f → (s.thread u).call = some g →
    i ∈ f.chain → i ∈ g.chain → t = u
  owned : ∀ i < vnum, s.free i = false → ∃ t f, (s.thread t).call = some f ∧ i ∈ f.chain
  bufs : ∀ t u b, (s.thread t).buf = some b → (s.thread u).buf = some b → t = u
  holder : ∀ t, (s.thread t).Holds → s.lock = some t
  old : ∀ t f, (s.thread t).call = some f → f.id < s.calls

/-- The rings and their counters. -/
structure Rings (s : Vdisk) : Prop where
  availIdx : s.availIdx = BitVec.ofNat 16 s.posts.length
  devIdx : s.devIdx = BitVec.ofNat 16 s.consumed
  consumed : s.consumed ≤ s.posts.length
  avail : Window vnum s.availRing (s.posts.map head) s.consumed
  next : ∀ t f, s.thread t = .ready f → s.availRing (s.posts.length % vnum) = f.i0
  usedIdx : s.usedIdx = BitVec.ofNat 16 s.reports.length
  seenIdx : s.seenIdx = BitVec.ofNat 16 s.processed.length
  processed : s.processed = (s.reports.take s.processed.length).map head
  used : Window vnum s.usedRing (s.reports.map head) s.processed.length

/-- The requests on their way, and the flags of their buffers. -/
structure Flying (s : Vdisk) : Prop where
  nodup : (s.pending.map head).Nodup
  waiting : ∀ r ∈ s.pending, ∃ t f, (s.thread t).Waits f ∧ f.id = r.id ∧ f.i0 = r.head ∧
    s.busy f.b = true
  status : ∀ r ∈ s.reports.drop s.processed.length, (s.info r.head).status = 0
  flying : ∀ t f, (s.thread t).Waits f → s.busy f.b = true → ⟨f.id, f.i0⟩ ∈ s.pending
  done : ∀ t f, (s.thread t).call = some f → s.busy f.b = false →
    ∃ r ∈ s.reports.take s.processed.length, r.id = f.id ∧ r.head = f.i0
  ready : ∀ t f, s.thread t = .ready f → s.busy f.b = true

structure Sound (nt : ℕ) (s : Vdisk) : Prop where
  chains : s.Chains nt
  rings : s.Rings
  flying : s.Flying

/-- Every request on its way has a chain of its own. -/
theorem Sound.pending_lt (hi : s.Sound nt) (hr : r ∈ s.pending) : r.head < vnum := by
  obtain ⟨t, f, hw, -, hh, -⟩ := hi.flying.waiting r hr
  rw [← hh]
  exact (hi.chains.formed t f hw.call).lt.1

theorem Sound.pending_length (hi : s.Sound nt) : s.pending.length ≤ vnum := by
  have := length_le_of_nodup hi.flying.nodup (n := vnum) fun i h => by
    obtain ⟨r, hr, rfl⟩ := mem_map.1 h
    exact hi.pending_lt hr
  rwa [length_map] at this

theorem pending_length_eq (s : Vdisk) : s.pending.length =
    (s.posts.length - s.consumed) + s.taken.length +
      (s.reports.length - s.processed.length) := by
  simp only [pending, length_append, length_drop]

theorem Rings.processed_le (h : s.Rings) : s.processed.length ≤ s.reports.length := by
  have := congrArg length h.processed
  rw [length_map, length_take] at this
  omega

/-- A call without a request on its way, for a chain that is not among those in use. -/
theorem Sound.notMem_pending (hi : s.Sound nt) (hf : s.free i = true) :
    i ∉ s.pending.map head := by
  intro h
  obtain ⟨r, hr, rfl⟩ := mem_map.1 h
  obtain ⟨t, f, hw, -, hh, -⟩ := hi.flying.waiting r hr
  have := (hi.chains.formed t f hw.call).inUse f.i0 (mem_chain.2 (.inl rfl))
  rw [hh, hf] at this
  cases this

theorem Formed.congr (h : s.Formed f) (hfree : ∀ i ∈ f.chain, s'.free i = s.free i)
    (hdesc : ∀ i ∈ f.chain, s'.desc i = s.desc i)
    (hinfo : (s'.info f.i0).b = (s.info f.i0).b) : s'.Formed f := by
  have h0 := hdesc f.i0 (mem_chain.2 (.inl rfl))
  have h1 := hdesc f.i1 (mem_chain.2 (.inr (.inl rfl)))
  have h2 := hdesc f.i2 (mem_chain.2 (.inr (.inr rfl)))
  refine ⟨h.lt, h.ne, fun i hi => ?_, ?_, ?_, ?_, ?_⟩
  · rw [hfree i hi]
    exact h.inUse i hi
  · rw [h0]
    exact h.desc0
  · rw [h1]
    exact h.desc1
  · rw [h2]
    exact h.desc2
  · rw [hinfo]
    exact h.info

theorem goto_self (s : Vdisk) (t : ℕ) (pc : VdPc) : (s.goto t pc).thread t = pc :=
  update_self ..

theorem goto_ne (s : Vdisk) (pc : VdPc) (h : u ≠ t) :
    (s.goto t pc).thread u = s.thread u := update_of_ne h ..

theorem Chains.congr (h : s.Chains nt) (hthread : s'.thread = s.thread) (hfree : s'.free = s.free)
    (hdesc : s'.desc = s.desc) (hinfo : ∀ i, (s'.info i).b = (s.info i).b)
    (hlock : s'.lock = s.lock) (hcalls : s'.calls = s.calls) : s'.Chains nt := by
  obtain ⟨h1, h2, h3, h4, h5, h6, h7⟩ := h
  refine ⟨?_, ?_, ?_, ?_, ?_, ?_, ?_⟩ <;> simp only [hthread, hfree, hlock, hcalls]
  · exact h1
  · exact fun t f h => (h2 t f h).congr (fun i _ => by rw [hfree]) (fun i _ => by rw [hdesc])
      (hinfo f.i0)
  · exact h3
  · exact h4
  · exact h5
  · exact h6
  · exact h7

/-! ### Threads that move -/

theorem goto_call (hcall : pc.call = (s.thread t).call) (u : ℕ) :
    ((s.goto t pc).thread u).call = (s.thread u).call := by
  rcases eq_or_ne u t with rfl | h
  · rw [goto_self, hcall]
  · rw [goto_ne s pc h]

/-- The thread `t` moves to `pc`, gives up its chain, or gets one that no other thread has. -/
theorem Chains.step (hi : s.Chains nt) (ht : t < nt) (hthread : s'.thread = update s.thread t pc)
    (hcalls : s.calls ≤ s'.calls)
    (hlock : ∀ u ≠ t, (s.thread u).Holds → s'.lock = some u) (hown : pc.Holds → s'.lock = some t)
    (hbuf : ∀ b, pc.buf = some b → ∀ u ≠ t, (s.thread u).buf ≠ some b)
    (hnew : ∀ f, pc.call = some f → s'.Formed f ∧ f.id < s'.calls ∧
      ∀ u ≠ t, ∀ g, (s.thread u).call = some g → ∀ i ∈ f.chain, i ∉ g.chain)
    (hkeep : ∀ u ≠ t, ∀ g, (s.thread u).call = some g →
      (∀ i ∈ g.chain, s'.free i = s.free i ∧ s'.desc i = s.desc i) ∧
      (s'.info g.i0).b = (s.info g.i0).b)
    (howned : ∀ i < vnum, s'.free i = false → (∃ f, pc.call = some f ∧ i ∈ f.chain) ∨
      s.free i = false ∧ ∀ f, (s.thread t).call = some f → i ∉ f.chain) : s'.Chains nt := by
  have hself : s'.thread t = pc := by rw [hthread, update_self]
  have hother : ∀ u ≠ t, s'.thread u = s.thread u := fun u hu => by rw [hthread, update_of_ne hu]
  refine ⟨fun u hu => ?_, fun u g h => ?_, fun u v f g i h h' hm hm' => ?_, fun i hlt hfree => ?_,
    fun u v b h h' => ?_, fun u hu => ?_, fun u g h => ?_⟩
  · rw [hother u (by omega)]
    exact hi.idle u hu
  · rcases eq_or_ne u t with rfl | hu
    · exact (hnew g (hself ▸ h)).1
    · rw [hother u hu] at h
      obtain ⟨hk, hinfo⟩ := hkeep u hu g h
      exact (hi.formed u g h).congr (fun i hm => (hk i hm).1) (fun i hm => (hk i hm).2) hinfo
  · rw [hthread] at h h'
    refine sole_update (R := fun (pc : VdPc) i => ∃ f, pc.call = some f ∧ i ∈ f.chain) ?_ ?_ u v i
      ⟨f, h, hm⟩ ⟨g, h', hm'⟩
    · rintro u v i ⟨f, hf, hm⟩ ⟨g, hg, hm'⟩
      exact hi.disjoint u v f g i hf hg hm hm'
    · rintro i ⟨f, hf, hm⟩ u hu ⟨g, hg, hm'⟩
      exact (hnew f hf).2.2 u hu g hg i hm hm'
  · obtain ⟨f, hf, hm⟩ | ⟨hf, hnot⟩ := howned i hlt hfree
    · exact ⟨t, f, by rwa [hself], hm⟩
    · obtain ⟨u, g, h, hm⟩ := hi.owned i hlt hf
      have hu : u ≠ t := by
        rintro rfl
        exact hnot g h hm
      exact ⟨u, g, by rwa [hother u hu], hm⟩
  · rw [hthread] at h h'
    exact sole_update (R := fun (pc : VdPc) b => pc.buf = some b) hi.bufs hbuf u v b h h'
  · rcases eq_or_ne u t with rfl | hut
    · exact hown (hself ▸ hu)
    · rw [hother u hut] at hu
      exact hlock u hut hu
  · rcases eq_or_ne u t with rfl | hu
    · exact (hnew g (hself ▸ h)).2.1
    · rw [hother u hu] at h
      exact lt_of_lt_of_le (hi.old u g h) hcalls

/-- A thread moves, without a change to its chain, and may take or give up the lock. -/
theorem Chains.move (hi : s.Chains nt) (ht : t < nt)
    (hcall : pc.call = (s.thread t).call)
    (hbuf : ∀ b, pc.buf = some b → (s.thread t).buf = some b ∨ ∀ u, (s.thread u).buf ≠ some b)
    (hlock : ∀ u ≠ t, (s.thread u).Holds → l = some u) (hown : pc.Holds → l = some t) :
    ({ s.goto t pc with lock := l } : Vdisk).Chains nt := by
  refine hi.step ht rfl le_rfl hlock hown (fun b h u hu hub => ?_) (fun f h => ?_)
    (fun u _ g _ => ⟨fun _ _ => ⟨rfl, rfl⟩, rfl⟩) fun i hlt hf => ?_
  · rcases hbuf b h with h | h
    · exact hu (hi.bufs u t b hub h)
    · exact h u hub
  · rw [hcall] at h
    exact ⟨(hi.formed t f h).congr (fun _ _ => rfl) (fun _ _ => rfl) rfl, hi.old t f h,
      fun u hu g hg i hm hm' => hu (hi.disjoint u t g f i hg h hm' hm)⟩
  · rw [hcall]
    by_cases hm : ∃ f, (s.thread t).call = some f ∧ i ∈ f.chain
    · exact .inl hm
    · exact .inr ⟨hf, fun f hc hmem => hm ⟨f, hc, hmem⟩⟩

/-- The same for the requests on their way, which stay the same. -/
theorem Flying.step (hi : s.Flying) (hthread : s'.thread = update s.thread t pc)
    (hpend : s'.pending = s.pending) (hreports : s'.reports = s.reports)
    (hprocessed : s'.processed = s.processed)
    (hstatus : ∀ r ∈ s.reports.drop s.processed.length, (s'.info r.head).status = 0)
    (hbusy : ∀ u ≠ t, ∀ f, (s.thread u).call = some f → s'.busy f.b = s.busy f.b)
    (hwait : ∀ f, (s.thread t).Waits f → s.busy f.b = true → pc.Waits f ∧ s'.busy f.b = true)
    (hwaits : ∀ f, pc.Waits f → (s.thread t).Waits f ∧ s'.busy f.b = s.busy f.b)
    (hcall : ∀ f, pc.call = some f → s'.busy f.b = false →
      (s.thread t).call = some f ∧ s.busy f.b = false)
    (hready : ∀ u f, s'.thread u = .ready f → s'.busy f.b = true) : s'.Flying := by
  have hself : s'.thread t = pc := by rw [hthread, update_self]
  have hother : ∀ u ≠ t, s'.thread u = s.thread u := fun u hu => by rw [hthread, update_of_ne hu]
  refine ⟨by rw [hpend]; exact hi.nodup, fun r hr => ?_, by rwa [hreports, hprocessed],
    fun u f hw hb => ?_, fun u f hc hb => ?_, hready⟩
  · rw [hpend] at hr
    obtain ⟨u, f, hw, hid, hh, hb⟩ := hi.waiting r hr
    rcases eq_or_ne u t with rfl | hu
    · obtain ⟨hw', hb'⟩ := hwait f hw hb
      exact ⟨u, f, by rwa [hself], hid, hh, hb'⟩
    · exact ⟨u, f, by rwa [hother u hu], hid, hh, by rwa [hbusy u hu f hw.call]⟩
  · rw [hpend]
    rcases eq_or_ne u t with rfl | hu
    · obtain ⟨hw, he⟩ := hwaits f (hself ▸ hw)
      exact hi.flying u f hw (he ▸ hb)
    · rw [hother u hu] at hw
      exact hi.flying u f hw (hbusy u hu f hw.call ▸ hb)
  · rw [hreports, hprocessed]
    rcases eq_or_ne u t with rfl | hu
    · obtain ⟨hc, hb⟩ := hcall f (hself ▸ hc) hb
      exact hi.done u f hc hb
    · rw [hother u hu] at hc
      exact hi.done u f hc (hbusy u hu f hc ▸ hb)

/-- A thread moves, without a change to its call, and may take or give up the lock. -/
theorem Sound.move (hi : s.Sound nt) (ht : t < nt)
    (hcall : pc.call = (s.thread t).call)
    (hbuf : ∀ b, pc.buf = some b → (s.thread t).buf = some b ∨ ∀ u, (s.thread u).buf ≠ some b)
    (hwaits : ∀ f, pc.Waits f ↔ (s.thread t).Waits f) (hready : ∀ f, pc ≠ .ready f)
    (hlock : ∀ u ≠ t, (s.thread u).Holds → l = some u) (hown : pc.Holds → l = some t) :
    ({ s.goto t pc with lock := l } : Vdisk).Sound nt := by
  have hr : ∀ u f, (s.goto t pc).thread u = .ready f → s.thread u = .ready f := by
    intro u f h
    rcases eq_or_ne u t with rfl | hu
    · rw [goto_self] at h
      exact absurd h (hready f)
    · rwa [goto_ne s pc hu] at h
  refine ⟨hi.chains.move ht hcall hbuf hlock hown, ?_, ?_⟩
  · exact ⟨hi.rings.availIdx, hi.rings.devIdx, hi.rings.consumed, hi.rings.avail,
      fun u f h => hi.rings.next u f (hr u f h), hi.rings.usedIdx, hi.rings.seenIdx,
      hi.rings.processed, hi.rings.used⟩
  · exact hi.flying.step rfl rfl rfl rfl hi.flying.status (fun _ _ _ _ => rfl)
      (fun f hw hb => ⟨(hwaits f).2 hw, hb⟩) (fun f hw => ⟨(hwaits f).1 hw, rfl⟩)
      (fun f hc hb => ⟨hcall ▸ hc, hb⟩) fun u f h => hi.flying.ready u f (hr u f h)

/-- No thread holds the lock while it is free. -/
theorem Chains.not_holds (h : s.Chains nt) (hl : s.lock = none) (u : ℕ) : ¬ (s.thread u).Holds := by
  intro hu
  have := h.holder u hu
  rw [hl] at this
  cases this

theorem Chains.holds_eq (h : s.Chains nt) (ht : (s.thread t).Holds)
    (hu : (s.thread u).Holds) : u = t := by
  have h1 := h.holder t ht
  rw [h.holder u hu] at h1
  exact some.inj h1

/-! ### `virtio_disk_rw` -/

theorem Sound.clear {d : ℕ → VdDesc} (hi : s.Sound nt)
    (hd : ∀ i, s.free i = false → d i = s.desc i) : ({ s with desc := d } : Vdisk).Sound nt := by
  obtain ⟨⟨h1, h2, h3, h4, h5, h6, h7⟩, ⟨r1, r2, r3, r4, r5, r6, r7, r8, r9⟩,
    ⟨f1, f2, f3, f4, f5, f6⟩⟩ := hi
  exact ⟨⟨h1, fun t f h => (h2 t f h).congr (fun _ _ => rfl)
      (fun i hmem => hd i ((h2 t f h).inUse i hmem)) rfl, h3, h4, h5, h6, h7⟩,
    ⟨r1, r2, r3, r4, r5, r6, r7, r8, r9⟩, ⟨f1, f2, f3, f4, f5, f6⟩⟩

/-- A call in progress, in the fields of the state that its chain uses. -/
theorem formed_format (s : Vdisk) (write : Bool)
    (hlt : f.i0 < vnum ∧ f.i1 < vnum ∧ f.i2 < vnum)
    (hne : f.i0 ≠ f.i1 ∧ f.i0 ≠ f.i2 ∧ f.i1 ≠ f.i2) (hfree : ∀ i ∈ f.chain, free i = false) :
    (({ s with free } : Vdisk).format f write).Formed f := by
  obtain ⟨h01, h02, h12⟩ := hne
  refine ⟨hlt, ⟨h01, h02, h12⟩, hfree, ?_, ?_, ?_, ?_⟩ <;>
    simp only [format, update_self, update_of_ne h01, update_of_ne h02, update_of_ne h12]
  · exact ⟨by decide, trivial⟩
  · refine ⟨?_, trivial⟩
    cases write <;> decide
  · exact ⟨by decide, trivial⟩

/-- The descriptors that a call gets are free, and the ring has room for its request. -/
theorem Sound.room (hi : s.Sound nt) (hlt : i < vnum) (hf : s.free i = true) :
    s.posts.length < s.consumed + vnum := by
  have hnodup : (i :: s.pending.map head).Nodup :=
    nodup_cons.2 ⟨hi.notMem_pending hf, hi.flying.nodup⟩
  have hlen := length_le_of_nodup (n := vnum) hnodup fun j hj => by
    rcases mem_cons.1 hj with rfl | hj
    · exact hlt
    · obtain ⟨r, hr, rfl⟩ := mem_map.1 hj
      exact hi.pending_lt hr
  rw [length_cons, length_map, pending_length_eq] at hlen
  have := hi.rings.consumed
  omega

/-- `virtio_disk_rw` gets its descriptors. -/
theorem Sound.launch (hi : s.Sound nt) (free : ℕ → Bool)
    (ht : t < nt) (hpc : s.thread t = .rw f.b write) (hl : s.lock = none) (hid : f.id = s.calls)
    (hlt : f.i0 < vnum ∧ f.i1 < vnum ∧ f.i2 < vnum)
    (hne : f.i0 ≠ f.i1 ∧ f.i0 ≠ f.i2 ∧ f.i1 ≠ f.i2)
    (hwas : ∀ i ∈ f.chain, s.free i = true) (hnow : ∀ i ∈ f.chain, free i = false)
    (hrest : ∀ i, i ∉ f.chain → free i = s.free i) :
    (({ s with free } : Vdisk).launch t f write).Sound nt := by
  -- the chains and the buffers of the other calls are not touched
  have hother : ∀ u g, (s.thread u).call = some g → ∀ i ∈ g.chain, i ∉ f.chain := by
    intro u g h i hg hf
    have := (hi.chains.formed u g h).inUse i hg
    rw [hwas i hf] at this
    cases this
  have hcallt : ∀ {g}, (s.thread t).call ≠ some g := by
    rw [hpc]
    exact nofun
  have hmem0 : f.i0 ∈ f.chain := mem_chain.2 (.inl rfl)
  have hbuf : ∀ u ≠ t, (s.thread u).buf ≠ some f.b := by
    intro u hu h
    exact hu (hi.chains.bufs u t f.b h (by rw [hpc]; rfl))
  have hidx : s.availIdx.toNat % vnum = s.posts.length % vnum := by
    rw [hi.rings.availIdx]
    exact toNat_ofNat_mod (by decide)
  -- no other thread is at its entry of the ring
  have hready : ∀ u g, (({ s with free } : Vdisk).launch t f write).thread u = .ready g →
      g = f := by
    intro u g h
    rcases eq_or_ne u t with rfl | hu
    · cases (update_self ..).symm.trans h
      rfl
    · rw [show (({ s with free } : Vdisk).launch t f write).thread u = s.thread u from
        update_of_ne hu ..] at h
      exact absurd (by rw [h]; trivial) (hi.chains.not_holds hl u)
  refine ⟨hi.chains.step ht rfl (le_add_right _ _)
    (fun u _ h => absurd h (hi.chains.not_holds hl u))
      (fun _ => rfl) (fun b h => ?_) (fun g h => ?_) (fun u _ g h => ⟨fun i hmem => ?_, ?_⟩)
      (fun i _ hfree => ?_),
    ⟨hi.rings.availIdx, hi.rings.devIdx, hi.rings.consumed, ?_, fun u g h => ?_, hi.rings.usedIdx,
      hi.rings.seenIdx, hi.rings.processed, hi.rings.used⟩,
    hi.flying.step rfl rfl rfl rfl (fun r hr => ?_) (fun u hu g h => ?_)
      (fun g hw => absurd hw.call hcallt) (fun g hw => by rcases hw with h | h <;> cases h)
      (fun g h hb => ?_) fun u g h => ?_⟩
  · cases h
    exact hbuf
  · cases h
    refine ⟨(formed_format s write hlt hne hnow).congr (fun _ _ => rfl) (fun _ _ => rfl) rfl, ?_,
      fun u _ g h i hm hm' => hother u g h i hm' hm⟩
    rw [hid]
    exact lt_succ_self _
  · have hnot := hother u g h i hmem
    exact ⟨hrest i hnot, VdCall.update_of_notMem _ _ _ _ hnot⟩
  · change (update s.info f.i0 _ g.i0).b = _
    rw [update_of_ne]
    rintro e
    exact hother u g h g.i0 (mem_chain.2 (.inl rfl)) (e ▸ hmem0)
  · by_cases hmem : i ∈ f.chain
    · exact .inl ⟨f, rfl, hmem⟩
    · exact .inr ⟨(hrest i hmem).symm.trans hfree, fun g h => absurd h hcallt⟩
  · change Window vnum (update s.availRing (s.availIdx.toNat % vnum) f.i0) _ _
    have hroom := hi.room hlt.1 (hwas f.i0 hmem0)
    have hw := hi.rings.avail.write (by rw [length_map]; exact hroom) f.i0
    rwa [length_map, ← hidx] at hw
  · rw [hready u g h]
    change update s.availRing (s.availIdx.toNat % vnum) f.i0 _ = _
    rw [hidx]
    exact update_self ..
  · change (update s.info f.i0 _ r.head).status = 0
    rw [update_of_ne]
    · exact hi.flying.status r hr
    · intro e
      exact hi.notMem_pending (hwas f.i0 hmem0) (mem_map.2 ⟨r, mem_append_right _ hr, e⟩)
  · refine update_of_ne (fun e => hbuf u hu ?_) ..
    rw [← e]
    exact buf_of_call h
  · cases h
    cases (update_self ..).symm.trans hb
  · rw [hready u g h]
    exact update_self ..

theorem rw_spec {b : ℕ} (hi : s.Sound nt) (ht : t < nt)
    (hpc : s.thread t = .rw b write) (hl : s.lock = none) :
    ∃ s', rw t b write s = .ok ((), s') ∧ s'.Sound nt := by
  rcases alloc3Desc_spec s with ⟨d, hrun, hd⟩ | ⟨i0, i1, i2, hrun, hlt, hne, h0, h1, h2⟩
  · refine ⟨_, ?_, hi.clear hd⟩
    rw [rw, Run.bind_ok hrun]
    rfl
  · refine ⟨_, ?_, hi.launch (f := ⟨s.calls, b, i0, i1, i2⟩) (update (update
      (update s.free i0 false) i1 false) i2 false) ht hpc hl rfl hlt hne ?_
      (fun i => VdCall.update_of_mem _ _) fun i => VdCall.update_of_notMem _ _ _ _⟩
    · rw [rw, Run.bind_ok hrun]
      rfl
    · intro i hmem
      rcases mem_chain.1 hmem with rfl | rfl | rfl
      · exact h0
      · exact h1
      · exact h2

theorem Sound.publish (hi : s.Sound nt) (ht : t < nt)
    (hpc : s.thread t = .ready f) : (s.publish t f).Sound nt := by
  have hholds : (s.thread t).Holds := by
    rw [hpc]
    trivial
  have hl := hi.chains.holder t hholds
  have hcall : (check f).call = (s.thread t).call := by rw [hpc]; rfl
  have hthread : ∀ u ≠ t, (s.publish t f).thread u = s.thread u := fun u hu =>
    goto_ne s _ hu
  have hself : (s.publish t f).thread t = .check f := goto_self ..
  have hready : ∀ u g, (s.publish t f).thread u ≠ .ready g := by
    intro u g h
    rcases eq_or_ne u t with rfl | hu
    · rw [hself] at h
      cases h
    · rw [hthread u hu] at h
      exact hu (hi.chains.holds_eq hholds (by rw [h]; trivial))
  have hpending : (s.publish t f).pending = s.posts.drop s.consumed ++ [⟨f.id, f.i0⟩] ++ s.taken ++
      s.reports.drop s.processed.length := by
    change (s.posts ++ [_]).drop s.consumed ++ s.taken ++ _ = _
    rw [drop_append_of_le_length hi.rings.consumed]
    rfl
  have hperm : (s.publish t f).pending.Perm (⟨f.id, f.i0⟩ :: s.pending) := by
    rw [hpending, pending]
    simp only [append_assoc, cons_append]
    exact perm_middle
  have hnot : f.i0 ∉ s.pending.map head := by
    intro h
    obtain ⟨r, hr, hrh⟩ := mem_map.1 h
    obtain ⟨u, g, hw, -, hgh, -⟩ := hi.flying.waiting r hr
    have hut : u = t := hi.chains.disjoint u t g f f.i0 hw.call (by rw [hpc]; rfl)
      (mem_chain.2 (.inl (by rw [hgh, hrh]))) (mem_chain.2 (.inl rfl))
    rw [hut, hpc] at hw
    rcases hw with h | h <;> cases h
  refine ⟨?_, ⟨?_, hi.rings.devIdx, ?_, ?_, fun u g h => absurd h (hready u g), hi.rings.usedIdx,
    hi.rings.seenIdx, hi.rings.processed, hi.rings.used⟩, ⟨?_, ?_, hi.flying.status, ?_, ?_,
    fun u g h => absurd h (hready u g)⟩⟩
  · have hmove := hi.chains.move (l := some t) ht hcall (fun b h => .inl ?_) (fun u hu h => ?_)
      fun _ => rfl
    · exact hmove.congr rfl rfl rfl (fun _ => rfl) hl rfl
    · rw [hpc]
      exact h
    · exact absurd (hi.chains.holds_eq hholds h) hu
  · change s.availIdx + 1 = BitVec.ofNat 16 (s.posts ++ [_]).length
    rw [hi.rings.availIdx, length_append, length_singleton]
    exact ofNat_succ
  · change s.consumed ≤ (s.posts ++ [_]).length
    rw [length_append]
    exact Nat.le_trans hi.rings.consumed (Nat.le_add_right ..)
  · change Window vnum s.availRing ((s.posts ++ [_]).map head) s.consumed
    rw [map_append, map_singleton]
    refine hi.rings.avail.append ?_
    rw [length_map]
    exact hi.rings.next t f hpc
  · rw [(hperm.map head).nodup_iff, map_cons, nodup_cons]
    exact ⟨hnot, hi.flying.nodup⟩
  · intro r hr
    rcases mem_cons.1 (hperm.mem_iff.1 hr) with rfl | hr
    · exact ⟨t, f, .inl hself, rfl, rfl, hi.flying.ready t f hpc⟩
    · obtain ⟨u, g, hw, hrest⟩ := hi.flying.waiting r hr
      refine ⟨u, g, ?_, hrest⟩
      rw [hthread u]
      · exact hw
      · rintro rfl
        rw [hpc] at hw
        rcases hw with h | h <;> cases h
  · intro u g hw hgb
    rw [hperm.mem_iff]
    rcases eq_or_ne u t with rfl | hu
    · rw [hself] at hw
      rcases hw with h | h <;> cases h
      exact mem_cons_self ..
    · rw [hthread u hu] at hw
      exact mem_cons_of_mem _ (hi.flying.flying u g hw hgb)
  · intro u g h hgb
    rw [show ((s.publish t f).thread u).call = (s.thread u).call from goto_call hcall u] at h
    exact hi.flying.done u g h hgb

theorem freeChain_next (s : Vdisk) {j : ℕ}
    (hi : i < vnum) (hf : free i = false) (hflag : (desc i).flags &&& descNext ≠ 0)
    (hnext : (desc i).next = j) : freeChain (n + 1) i { s with desc, free } =
      freeChain n j { s with
        desc := update desc i ⟨.null, 0, 0⟩
        free := update free i true } := by
  rw [freeChain, Run.bind_read, Run.bind_ok (freeDesc_ok s desc hi hf)]
  simp only [if_pos hflag, hnext]

theorem freeChain_last (s : Vdisk)
    (hi : i < vnum) (hf : free i = false) (hflag : (desc i).flags &&& descNext = 0) :
    freeChain (n + 1) i { s with desc, free } = .ok ((), { s with
      desc := update desc i ⟨.null, 0, 0⟩
      free := update free i true }) := by
  rw [freeChain, Run.bind_read, Run.bind_ok (freeDesc_ok s desc hi hf)]
  simp only [hflag, ne_eq, not_true_eq_false, if_false]
  rfl

theorem freeChain_ok (h : s.Formed f) (info : ℕ → VdInfo) : ∃ desc free,
    freeChain (vnum + 1) f.i0 { s with info } = .ok ((), { s with info, desc, free }) ∧
      (∀ i, i ∉ f.chain → desc i = s.desc i ∧ free i = s.free i) ∧
      ∀ i ∈ f.chain, free i = true := by
  obtain ⟨⟨hlt0, hlt1, hlt2⟩, ⟨h01, h02, h12⟩, hfree, ⟨hf0, hn0⟩, ⟨hf1, hn1⟩, ⟨hf2, -⟩, -⟩ := h
  refine ⟨update (update (update s.desc f.i0 ⟨.null, 0, 0⟩) f.i1
    ⟨.null, 0, 0⟩) f.i2 ⟨.null, 0, 0⟩, update (update (update s.free
    f.i0 true) f.i1 true) f.i2 true, ?_,
    fun i hi => ⟨VdCall.update_of_notMem _ _ _ _ hi, VdCall.update_of_notMem _ _ _ _ hi⟩,
    fun i => VdCall.update_of_mem _ _⟩
  have hfr0 := hfree f.i0 (mem_chain.2 (.inl rfl))
  have hfr1 := hfree f.i1 (mem_chain.2 (.inr (.inl rfl)))
  have hfr2 := hfree f.i2 (mem_chain.2 (.inr (.inr rfl)))
  have hfree1 : update s.free f.i0 true f.i1 = false := by
    rw [update_of_ne h01.symm, hfr1]
  have hdesc1 : update s.desc f.i0 ⟨.null, 0, 0⟩ f.i1 = s.desc f.i1 :=
    update_of_ne h01.symm ..
  have hfree2 : update (update s.free f.i0 true) f.i1 true f.i2 = false := by
    rw [update_of_ne h12.symm, update_of_ne h02.symm, hfr2]
  have hdesc2 : update (update s.desc f.i0 ⟨.null, 0, 0⟩) f.i1 ⟨.null, 0, 0⟩
      f.i2 = s.desc f.i2 := by
    rw [update_of_ne h12.symm, update_of_ne h02.symm]
  calc freeChain (vnum + 1) f.i0 { s with info }
      = freeChain vnum f.i1 _ := freeChain_next { s with info } hlt0 hfr0 hf0 hn0
    _ = freeChain 7 f.i2 _ := freeChain_next { s with info } hlt1 hfree1
        (by rw [hdesc1]; exact hf1) (by rw [hdesc1]; exact hn1)
    _ = _ := freeChain_last { s with info } hlt2 hfree2 (by rw [hdesc2]; exact hf2)

/-- The end of `virtio_disk_rw`. -/
theorem finish_spec (hi : s.Sound nt) (ht : t < nt) (hpc : s.thread t = .check f)
    (hb : s.busy f.b = false) : ∃ s', finish t f s = .ok ((), s') ∧ s'.Sound nt := by
  have hcall : (s.thread t).call = some f := by rw [hpc]; rfl
  have hholds : (s.thread t).Holds := by
    rw [hpc]
    trivial
  have hformed := hi.chains.formed t f hcall
  have hmem0 : f.i0 ∈ f.chain := mem_chain.2 (.inl rfl)
  have hother : ∀ u g, u ≠ t → (s.thread u).call = some g → ∀ i ∈ g.chain, i ∉ f.chain :=
    fun u g hu h i hg hf => hu (hi.chains.disjoint u t g f i h hcall hg hf)
  obtain ⟨desc, free, hrun, hrest, hnow⟩ := freeChain_ok hformed
    (update s.info f.i0 { s.info f.i0 with b := none })
  have hok : finish t f s = .ok ((), { ({ s with
      info := update s.info f.i0 { s.info f.i0 with b := none }
      desc, free } : Vdisk).goto t .idle with lock := none }) := by
    rw [finish, Run.bind_modify, Run.bind_ok hrun]
    rfl
  refine ⟨_, hok, ?_⟩
  have hnotready : ∀ u g, update s.thread t .idle u ≠ .ready g := by
    intro u g h
    rcases eq_or_ne u t with rfl | hu
    · cases (update_self ..).symm.trans h
    · rw [update_of_ne hu] at h
      exact hu (hi.chains.holds_eq hholds (by rw [h]; trivial))
  refine ⟨hi.chains.step ht rfl le_rfl (fun u hu h => absurd (hi.chains.holds_eq hholds h) hu)
      (fun h => h.elim) nofun nofun (fun u hu g h => ⟨fun i hm => ?_, ?_⟩) (fun i _ hfree => ?_),
    ⟨hi.rings.availIdx, hi.rings.devIdx, hi.rings.consumed, hi.rings.avail,
      fun u g h => absurd h (hnotready u g), hi.rings.usedIdx, hi.rings.seenIdx,
      hi.rings.processed, hi.rings.used⟩,
    hi.flying.step rfl rfl rfl rfl (fun r hr => ?_) (fun _ _ _ _ => rfl) (fun g hw hgb => ?_)
      (fun g hw => by rcases hw with h | h <;> cases h) nofun
      fun u g h => absurd h (hnotready u g)⟩
  · exact (hrest i (hother u g hu h i hm)).symm
  · change (update s.info f.i0 _ g.i0).b = _
    rw [update_of_ne]
    intro e
    exact hother u g hu h g.i0 (mem_chain.2 (.inl rfl)) (e ▸ hmem0)
  · have hnot : i ∉ f.chain := by
      intro hm
      cases (hnow i hm).symm.trans hfree
    refine .inr ⟨(hrest i hnot).2.symm.trans hfree, fun g hg => ?_⟩
    cases hcall.symm.trans hg
    exact hnot
  · change (update s.info f.i0 _ r.head).status = 0
    rw [update_apply]
    split_ifs with h
    · rw [← h]
      exact hi.flying.status r hr
    · exact hi.flying.status r hr
  · cases hcall.symm.trans hw.call
    cases hb.symm.trans hgb

/-! ### The interrupt handler -/

/-- The completion that the handler reads next. -/
theorem Sound.report (hi : s.Sound nt) (h : s.processed.length < s.reports.length) :
    ∃ r u f, s.reports[s.processed.length]? = some r ∧
      s.usedRing (s.seenIdx.toNat % vnum) = r.head ∧ (s.info r.head).status = 0 ∧
      (s.thread u).Waits f ∧ f.id = r.id ∧ f.i0 = r.head ∧ (s.info r.head).b = some f.b := by
  obtain ⟨r, hr⟩ : ∃ r, s.reports[s.processed.length]? = some r :=
    ⟨_, getElem?_eq_getElem h⟩
  have hdrop : r ∈ s.reports.drop s.processed.length :=
    mem_of_getElem? (i := 0) (by rw [getElem?_drop, add_zero, hr])
  obtain ⟨u, f, hw, hid, hh, -⟩ := hi.flying.waiting r (mem_append_right _ hdrop)
  refine ⟨r, u, f, hr, ?_, hi.flying.status r hdrop, hw, hid, hh, ?_⟩
  · rw [hi.rings.seenIdx, toNat_ofNat_mod (by decide)]
    exact hi.rings.used _ _ (le_refl _) (by rw [getElem?_map, hr]; rfl)
  · rw [← hh]
    exact (hi.chains.formed u f hw.call).info

theorem handle_spec (hi : s.Sound nt) (h : s.processed.length < s.reports.length) :
    ∃ s', handle s = .ok ((), s') ∧ s'.Sound nt := by
  obtain ⟨r, u, f, hr, hring, hstatus, hw, hid, hh, hinfo⟩ := hi.report h
  have hok : handle s = .ok ((), { s with
      busy := update s.busy f.b false
      seenIdx := s.seenIdx + 1
      processed := s.processed ++ [r.head] }) := by
    simp only [handle, Run.bind_read, hring, hstatus, ne_eq, not_true_eq_false, if_false, hinfo]
    rfl
  refine ⟨_, hok, ?_⟩
  have htake : s.reports.take (s.processed ++ [r.head]).length =
      s.reports.take s.processed.length ++ [r] := by
    rw [length_append, length_singleton, take_add_one, hr]
    rfl
  have hdrop : s.reports.drop s.processed.length =
      r :: s.reports.drop (s.processed ++ [r.head]).length := by
    rw [length_append, length_singleton]
    obtain ⟨hlt, hget⟩ := List.getElem?_eq_some_iff.1 hr
    rw [drop_eq_getElem_cons hlt, hget]
  -- another call has another buffer
  have hother : ∀ v g, (s.thread v).call = some g → g.b = f.b → v = u ∧ g = f := by
    intro v g hg e
    have hvu := hi.chains.bufs v u f.b (e ▸ buf_of_call hg) (buf_of_call hw.call)
    subst hvu
    rw [hw.call] at hg
    exact ⟨rfl, (some.inj hg).symm⟩
  have hperm : s.pending.Perm (r :: (s.posts.drop s.consumed ++ s.taken ++
      s.reports.drop (s.processed ++ [r.head]).length)) := by
    rw [pending, hdrop]
    exact perm_middle
  have hnodup := (hperm.map head).nodup_iff.1 hi.flying.nodup
  rw [map_cons, nodup_cons] at hnodup
  refine ⟨hi.chains.congr rfl rfl rfl (fun _ => rfl) rfl rfl, ⟨hi.rings.availIdx, hi.rings.devIdx,
    hi.rings.consumed, hi.rings.avail, hi.rings.next, hi.rings.usedIdx, ?_, ?_, ?_⟩,
    ⟨hnodup.2, ?_, ?_, ?_, ?_, ?_⟩⟩
  · change s.seenIdx + 1 = BitVec.ofNat 16 (s.processed ++ [_]).length
    rw [hi.rings.seenIdx, length_append, length_singleton]
    exact ofNat_succ
  · change s.processed ++ [r.head] = (s.reports.take (s.processed ++ [_]).length).map head
    rw [htake, map_append, map_singleton, ← hi.rings.processed]
  · change Window vnum s.usedRing _ (s.processed ++ [_]).length
    rw [length_append, length_singleton]
    exact hi.rings.used.advance
  · intro q hq
    obtain ⟨v, g, hwg, hgid, hgh, hgb⟩ := hi.flying.waiting q
      (hperm.mem_iff.2 (mem_cons_of_mem _ hq))
    refine ⟨v, g, hwg, hgid, hgh, ?_⟩
    change update s.busy f.b false g.b = true
    rw [update_of_ne]
    · exact hgb
    · intro e
      obtain ⟨-, rfl⟩ := hother v g hwg.call e
      exact hnodup.1 (mem_map.2 ⟨q, hq, by rw [← hgh, hh]⟩)
  · intro q hq
    refine hi.flying.status q ?_
    rw [hdrop]
    exact mem_cons_of_mem _ hq
  · intro v g hwg hgb
    change update s.busy f.b false g.b = true at hgb
    have hne : g.b ≠ f.b := by
      intro e
      rw [e, update_self] at hgb
      cases hgb
    rw [update_of_ne hne] at hgb
    rcases mem_cons.1 (hperm.mem_iff.1 (hi.flying.flying v g hwg hgb)) with e | hm
    · have hi0 : g.i0 = f.i0 := by rw [hh, ← e]
      have hvu := hi.chains.disjoint v u g f g.i0 hwg.call hw.call
        (mem_chain.2 (.inl rfl)) (mem_chain.2 (.inl hi0))
      have hc := hwg.call
      rw [hvu, hw.call] at hc
      exact absurd (congrArg b (some.inj hc)).symm hne
    · exact hm
  · intro v g hg hgb
    dsimp only
    rw [htake]
    by_cases e : g.b = f.b
    · obtain ⟨-, rfl⟩ := hother v g hg e
      exact ⟨r, mem_append_right _ (mem_singleton_self r), hid.symm, hh.symm⟩
    · change update s.busy f.b false g.b = false at hgb
      rw [update_of_ne e] at hgb
      obtain ⟨q, hq, hqr⟩ := hi.flying.done v g hg hgb
      exact ⟨q, mem_append_left _ hq, hqr⟩
  · intro v g hg
    change update s.busy f.b false g.b = true
    rw [update_of_ne]
    · exact hi.flying.ready v g hg
    · intro e
      obtain ⟨rfl, -⟩ := hother v g (by rw [hg]; rfl) e
      rw [hg] at hw
      rcases hw with h | h <;> cases h

/-! ### The device -/

theorem Flying.repack (h : s.Flying) (hthread : s'.thread = s.thread) (hbusy : s'.busy = s.busy)
    (hperm : s'.pending.Perm s.pending)
    (hstatus : ∀ r ∈ s'.reports.drop s'.processed.length, (s'.info r.head).status = 0)
    (hdone : s'.reports.take s'.processed.length = s.reports.take s.processed.length) :
    s'.Flying := by
  refine ⟨?_, fun r hr => ?_, hstatus, ?_, ?_, ?_⟩
  · rw [(hperm.map head).nodup_iff]
    exact h.nodup
  · rw [hthread, hbusy]
    exact h.waiting r (hperm.mem_iff.1 hr)
  · rw [hthread, hbusy]
    exact fun t f hw hb => hperm.mem_iff.2 (h.flying t f hw hb)
  · rw [hthread, hbusy, hdone]
    exact h.done
  · rw [hthread, hbusy]
    exact h.ready

section

variable (hi : s.Sound nt)
include hi

theorem Sound.take (hne : s.devIdx ≠ s.availIdx) : s.take.Sound nt := by
  have hlt : s.consumed < s.posts.length := by
    have hlen := hi.pending_length
    rw [pending_length_eq] at hlen
    have hle := hi.rings.consumed
    refine Nat.lt_of_le_of_ne hle fun e => hne ?_
    rw [hi.rings.devIdx, hi.rings.availIdx, e]
  obtain ⟨r, hr⟩ : ∃ r, s.posts[s.consumed]? = some r := ⟨_, getElem?_eq_getElem hlt⟩
  have hhead : s.availRing (s.devIdx.toNat % vnum) = r.head := by
    rw [hi.rings.devIdx, toNat_ofNat_mod (by decide)]
    exact hi.rings.avail _ _ (le_refl _) (by rw [getElem?_map, hr]; rfl)
  have htaken : s.take.taken = s.taken ++ [r] := by
    simp only [Vdisk.take, hr, hhead, map_some, getD_some]
  refine ⟨hi.chains.congr rfl rfl rfl (fun _ => rfl) rfl rfl, ⟨hi.rings.availIdx, ?_, hlt,
    hi.rings.avail.advance, hi.rings.next, hi.rings.usedIdx, hi.rings.seenIdx, hi.rings.processed,
    hi.rings.used⟩, hi.flying.repack rfl rfl ?_ hi.flying.status rfl⟩
  · change s.devIdx + 1 = BitVec.ofNat 16 (s.consumed + 1)
    rw [hi.rings.devIdx]
    exact ofNat_succ
  · obtain ⟨_, hget⟩ := List.getElem?_eq_some_iff.1 hr
    have hdrop : s.posts.drop s.consumed = r :: s.posts.drop (s.consumed + 1) := by
      rw [drop_eq_getElem_cons hlt, hget]
    change (s.posts.drop (s.consumed + 1) ++ s.take.taken ++ _).Perm _
    rw [htaken, pending, hdrop, ← append_assoc, append_assoc (_ ++ s.taken) [r], singleton_append]
    exact perm_middle

/-- The device writes the status of a request where the driver reads it. -/
theorem Sound.writeStatus (hr : r ∈ s.pending) :
    s.writeStatus r.head = { s with
      info := update s.info r.head { s.info r.head with status := 0 } } := by
  obtain ⟨u, f, hw, -, hh, -⟩ := hi.flying.waiting r hr
  have hf := hi.chains.formed u f hw.call
  simp only [Vdisk.writeStatus, ← hh, hf.desc0.2, hf.desc1.2, hf.desc2.2]

theorem Sound.complete (hr : r ∈ s.taken) :
    (s.complete r).Sound nt := by
  have hpend : r ∈ s.pending := mem_append_left _ (mem_append_right _ hr)
  have hle := hi.rings.processed_le
  have hroom : s.reports.length < s.processed.length + vnum := by
    have hlen := hi.pending_length
    rw [pending_length_eq] at hlen
    have := length_pos_of_mem hr
    omega
  have hidx : s.usedIdx.toNat % vnum = s.reports.length % vnum := by
    rw [hi.rings.usedIdx]
    exact toNat_ofNat_mod (by decide)
  have hdrop : (s.reports ++ [r]).drop s.processed.length =
      s.reports.drop s.processed.length ++ [r] := drop_append_of_le_length hle
  have htake : (s.reports ++ [r]).take s.processed.length =
      s.reports.take s.processed.length := take_append_of_le_length hle
  rw [Vdisk.complete, hi.writeStatus hpend]
  refine ⟨hi.chains.congr rfl rfl rfl (fun i => ?_) rfl rfl, ⟨hi.rings.availIdx, hi.rings.devIdx,
    hi.rings.consumed, hi.rings.avail, hi.rings.next, ?_, hi.rings.seenIdx, ?_, ?_⟩,
    hi.flying.repack rfl rfl ?_ (fun q hq => ?_) htake⟩
  · change (update s.info r.head _ i).b = _
    rw [update_apply]
    split_ifs with h
    · rw [h]
    · rfl
  · change s.usedIdx + 1 = BitVec.ofNat 16 (s.reports ++ [_]).length
    rw [hi.rings.usedIdx, length_append, length_singleton]
    exact ofNat_succ
  · change s.processed = ((s.reports ++ [r]).take s.processed.length).map head
    rw [htake]
    exact hi.rings.processed
  · change Window vnum (update s.usedRing (s.usedIdx.toNat % vnum) r.head)
      ((s.reports ++ [r]).map head) s.processed.length
    rw [hidx, map_append, map_singleton]
    have hw := hi.rings.used.write (by rw [length_map]; exact hroom) r.head
    rw [length_map] at hw
    refine hw.append ?_
    rw [length_map]
    exact update_self ..
  · change (s.posts.drop s.consumed ++ s.taken.erase r ++
      (s.reports ++ [r]).drop s.processed.length).Perm _
    rw [hdrop, pending, ← append_assoc]
    have h1 : (s.posts.drop s.consumed ++ s.taken.erase r ++ s.reports.drop s.processed.length ++
        [r]).Perm (r :: (s.posts.drop s.consumed ++ s.taken.erase r ++
          s.reports.drop s.processed.length)) := perm_append_singleton ..
    have h2 : (r :: (s.posts.drop s.consumed ++ s.taken.erase r)).Perm
        (s.posts.drop s.consumed ++ s.taken) :=
      (perm_middle.symm).trans ((perm_cons_erase hr).symm.append_left _)
    exact h1.trans (by rw [← cons_append]; exact h2.append_right _)
  · change (update s.info r.head _ q.head).status = 0
    rw [update_apply]
    split_ifs with h
    · rfl
    · change q ∈ (s.reports ++ [r]).drop s.processed.length at hq
      rw [hdrop] at hq
      rcases mem_append.1 hq with hq | hq
      · exact hi.flying.status q hq
      · rw [mem_singleton.1 hq] at h
        exact absurd rfl h

/-! ### Runs -/

/-- A thread in a call gives up the lock to sleep, or takes it again. -/
theorem Sound.nap (ht : t < nt)
    (hold : (s.thread t).Waits f) (hnew : pc.Waits f)
    (hlock : ∀ u ≠ t, ¬ (s.thread u).Holds) (hown : pc.Holds → l = some t) :
    ({ s.goto t pc with lock := l } : Vdisk).Sound nt := by
  have hcall : pc.call = (s.thread t).call := by rw [hold.call, hnew.call]
  refine hi.move ht hcall (fun b h => .inl ?_) (fun g => ?_) (fun g h => ?_)
    (fun u hu h => absurd h (hlock u hu)) hown
  · rw [buf_of_call hnew.call] at h
    rw [buf_of_call hold.call, h]
  · constructor
    · intro h
      have := h.call
      rw [hnew.call] at this
      cases this
      exact hold
    · intro h
      have := h.call
      rw [hold.call] at this
      cases this
      exact hnew
  · rw [h] at hnew
    rcases hnew with h | h <;> cases h

theorem Sound.drift (ht : t < nt)
    (hold : (s.thread t).call = none) (hnew : pc.call = none)
    (hbuf : ∀ b, pc.buf = some b → ∀ u, (s.thread u).buf ≠ some b)
    (hlock : ∀ u ≠ t, (s.thread u).Holds → l = some u) (hown : pc.Holds → l = some t) :
    ({ s.goto t pc with lock := l } : Vdisk).Sound nt := by
  refine hi.move ht (hnew.trans hold.symm) (fun b h => .inr (hbuf b h)) (fun g => ?_)
    (fun g h => ?_)
    hlock hown
  · constructor
    · intro h
      rw [h.call] at hnew
      cases hnew
    · intro h
      rw [h.call] at hold
      cases hold
  · rw [h] at hnew
    cases hnew

theorem step_spec (ht : t < nt) (hr : s.Ready t) :
    ∃ s', step t s = .ok ((), s') ∧ s'.Sound nt := by
  unfold Ready at hr
  cases hpc : s.thread t with
  | idle =>
    rw [hpc] at hr
    exact hr.elim
  | rw b write =>
    rw [hpc] at hr
    obtain ⟨s', hrun, hs'⟩ := rw_spec hi ht hpc hr
    refine ⟨s', ?_, hs'⟩
    simp only [step, Run.bind_read, hpc]
    exact hrun
  | ready f =>
    refine ⟨_, ?_, hi.publish ht hpc⟩
    simp only [step, Run.bind_read, hpc]
    rfl
  | check f =>
    have hholds : (s.thread t).Holds := by
      rw [hpc]
      trivial
    cases hb : s.busy f.b with
    | true =>
      have hnap : ({ s.goto t (.asleep f) with lock := none } : Vdisk).Sound nt :=
        hi.nap ht (.inl hpc) (.inr rfl) (fun u hu h => hu (hi.chains.holds_eq hholds h))
          fun h => h.elim
      refine ⟨_, ?_, hnap⟩
      simp only [step, Run.bind_read, hpc, hb, if_true]
      rfl
    | false =>
      obtain ⟨s', hrun, hs'⟩ := finish_spec hi ht hpc hb
      refine ⟨s', ?_, hs'⟩
      simp only [step, Run.bind_read, hpc, hb, Bool.false_eq_true, if_false]
      exact hrun
  | asleep f =>
    rw [hpc] at hr
    have hnap : ({ s.goto t (.check f) with lock := some t } : Vdisk).Sound nt :=
      hi.nap ht (.inr hpc) (.inl rfl) (fun u _ => hi.chains.not_holds hr u) fun _ => rfl
    refine ⟨_, ?_, hnap⟩
    simp only [step, Run.bind_read, hpc]
    rfl
  | intr =>
    rw [hpc] at hr
    have hdrift : ({ s.goto t .loop with lock := some t } : Vdisk).Sound nt :=
      hi.drift ht (by rw [hpc]; rfl) rfl (fun b h => by cases h)
        (fun u _ h => absurd h (hi.chains.not_holds hr u)) fun _ => rfl
    refine ⟨_, ?_, hdrift⟩
    simp only [step, Run.bind_read, hpc]
    rfl
  | loop =>
    have hholds : (s.thread t).Holds := by
      rw [hpc]
      trivial
    by_cases hmore : s.seenIdx ≠ s.usedIdx
    · have hlt : s.processed.length < s.reports.length := by
        refine Nat.lt_of_le_of_ne hi.rings.processed_le fun e => hmore ?_
        rw [hi.rings.seenIdx, hi.rings.usedIdx, e]
      obtain ⟨s', hrun, hs'⟩ := handle_spec hi hlt
      refine ⟨s', ?_, hs'⟩
      simp only [step, Run.bind_read, hpc]
      rw [if_pos (decide_eq_true hmore)]
      exact hrun
    · have hdrift : ({ s.goto t .idle with lock := none } : Vdisk).Sound nt :=
        hi.drift ht (by rw [hpc]; rfl) rfl (fun b h => by cases h)
          (fun u hu h => absurd (hi.chains.holds_eq hholds h) hu) fun h => h.elim
      refine ⟨_, ?_, hdrift⟩
      simp only [step, Run.bind_read, hpc]
      rw [if_neg (fun h => hmore (of_decide_eq_true h))]
      rfl

/-- Every event that can happen returns, and keeps the invariant. -/
theorem Sound.next {e : VdEvent} (hok : e.Ok nt s) :
    ∃ s', e.run s = .ok ((), s') ∧ s'.Sound nt := by
  cases e with
  | call t b write =>
    obtain ⟨ht, hpc, hbuf⟩ := hok
    have hdrift : ({ s.goto t (.rw b write) with lock := s.lock } : Vdisk).Sound nt := by
      refine hi.drift ht (by rw [hpc]; rfl) rfl (fun c h u hu => ?_)
        (fun u _ h => hi.chains.holder u h) fun h => h.elim
      cases h
      rcases lt_or_ge u nt with hlt | hge
      · exact hbuf u hlt hu
      · rw [hi.chains.idle u hge] at hu
        cases hu
    exact ⟨_, rfl, hdrift⟩
  | interrupt t =>
    obtain ⟨ht, hpc⟩ := hok
    have hdrift : ({ s.goto t .intr with lock := s.lock } : Vdisk).Sound nt :=
      hi.drift ht (by rw [hpc]; rfl) rfl (fun c h => by cases h)
        (fun u _ h => hi.chains.holder u h) fun h => h.elim
    exact ⟨_, rfl, hdrift⟩
  | step t => exact step_spec hi hok.1 hok.2
  | take => exact ⟨_, rfl, hi.take hok⟩
  | complete r => exact ⟨_, rfl, hi.complete hok⟩

end

theorem start_sound : Vdisk.start.Sound nt := by
  refine ⟨⟨fun _ _ => rfl, nofun, nofun, ?_, nofun, fun _ h => h.elim, nofun⟩,
    ⟨rfl, rfl, le_refl _, nofun, nofun, rfl, rfl, rfl, nofun⟩,
    ⟨.nil, nofun, nofun, ?_, nofun, nofun⟩⟩
  · intro i hi h
    simp only [Vdisk.start, hi, decide_true] at h
    cases h
  · rintro t f (h | h) <;> cases h

theorem sound_of_reachable (h : (vdisk nt).Reachable s) : s.Sound nt := by
  refine h.invariant ?_ ?_
  · rintro s rfl
    exact start_sound
  · rintro s e s' hi ⟨hok, hs⟩
    obtain ⟨t, hrun, ht⟩ := hi.next hok
    change e.run s = _ at hs
    rw [hrun] at hs
    cases hs
    exact ht

/-! ### The main result -/

/-- What the driver guarantees. -/
structure Protocol (nt : ℕ) (s : Vdisk) : Prop where
  /-- The descriptors of different requests are different. -/
  disjoint : ∀ t u f g, t ≠ u → (s.thread t).call = some f → (s.thread u).call = some g →
    ∀ i ∈ f.chain, i ∉ g.chain
  /-- A descriptor is free or in the chain of exactly one request. -/
  partition : ∀ i < vnum,
    (s.free i = true ∧ ∀ t f, (s.thread t).call = some f → i ∉ f.chain) ∨
    (s.free i = false ∧ ∃ t f, (s.thread t).call = some f ∧ i ∈ f.chain ∧
      ∀ u g, (s.thread u).call = some g → i ∈ g.chain → u = t)
  /-- The flag of a buffer is cleared only after the device has completed its request. -/
  flag : ∀ t f, (s.thread t).call = some f → s.busy f.b = false →
    ∃ r ∈ s.reports, r.id = f.id ∧ r.head = f.i0
  /-- The handler has read the completions in order and each of them once, and its loop ends when
  it has read all of them. -/
  processed : s.processed = (s.reports.take s.processed.length).map head ∧
    (s.seenIdx = s.usedIdx ↔ s.processed.length = s.reports.length)
  /-- An entry of the avail ring that the device has not taken is as it was published, and a call
  that can get a descriptor does not write to such an entry. -/
  avail : (∀ k r, s.consumed ≤ k → s.posts[k]? = some r → s.availRing (k % vnum) = r.head) ∧
    ∀ i < vnum, s.free i = true → s.posts.length < s.consumed + vnum
  /-- A failed `alloc3_desc` leaves the set of free descriptors as it was. -/
  alloc : ∀ s', alloc3Desc s = .ok (none, s') → s'.free = s.free
  /-- No panic is reached. -/
  safe : ∀ e : VdEvent, e.Ok nt s → ∃ s', e.run s = .ok ((), s')

/-- **The disk driver protocol.**  In every state that the threads and the device reach together,
the descriptors are shared out among the requests in flight, the flag of a buffer goes down only
for the buffer's own request, each completion is handled once, no entry of the avail ring is
overwritten too early, and nothing that can happen next panics. -/
theorem driver_protocol (h : (vdisk nt).Reachable s) : s.Protocol nt := by
  have hi := sound_of_reachable h
  refine ⟨?_, ?_, ?_, ⟨hi.rings.processed, ?_⟩, ⟨?_, ?_⟩, ?_, ?_⟩
  · intro t u f g htu hf hg i hif hig
    exact htu (hi.chains.disjoint t u f g i hf hg hif hig)
  · intro i hlt
    cases hfree : s.free i with
    | true =>
      refine .inl ⟨rfl, fun t f hf hm => ?_⟩
      have := (hi.chains.formed t f hf).inUse i hm
      rw [hfree] at this
      cases this
    | false =>
      obtain ⟨t, f, hf, hm⟩ := hi.chains.owned i hlt hfree
      exact .inr ⟨rfl, t, f, hf, hm, fun u g hg hm' => hi.chains.disjoint u t g f i hg hf hm' hm⟩
  · intro t f hf hb
    obtain ⟨r, hr, hrest⟩ := hi.flying.done t f hf hb
    exact ⟨r, mem_of_mem_take hr, hrest⟩
  · -- at most eight completions wait, so that equal indices mean equal counts
    have hlen := hi.pending_length
    rw [pending_length_eq] at hlen
    have hlt : s.reports.length < s.processed.length + 2 ^ 16 := by
      have : vnum < 2 ^ 16 := by decide
      omega
    rw [hi.rings.seenIdx, hi.rings.usedIdx]
    exact ofNat_eq_ofNat_iff hi.rings.processed_le hlt
  · intro k r hk hr
    exact hi.rings.avail k r.head hk (by rw [getElem?_map, hr]; rfl)
  · exact fun i hlt hfree => hi.room hlt hfree
  · intro s' hs'
    rcases alloc3Desc_spec s with ⟨d, hrun, -⟩ | ⟨i0, i1, i2, hrun, -⟩
    · rw [hrun] at hs'
      cases hs'
      rfl
    · rw [hrun] at hs'
      cases hs'
  · intro e he
    obtain ⟨s', hrun, -⟩ := hi.next he
    exact ⟨s', hrun⟩

/-- A request is made, taken and completed, and the interrupt handler clears the flag. -/
theorem driver_protocol_completed : ∃ s, (vdisk 2).Reachable s ∧ s.Protocol 2 ∧
    s.thread 0 = .check ⟨0, 5, 0, 1, 2⟩ ∧ s.busy 5 = false ∧ s.reports = [⟨0, 0⟩] := by
  obtain ⟨s, hs, ht⟩ := Machine.Reachable.test (M := vdisk 2)
    (fun e s => of_decide_eq_true (p := e.Ok 2 s)) (.init rfl)
    [.call 0 5 true, .step 0, .step 0, .take, .step 0, .complete ⟨0, 0⟩, .interrupt 1, .step 1,
      .step 1, .step 1, .step 0]
    (t := fun s => decide (s.thread 0 = .check ⟨0, 5, 0, 1, 2⟩ ∧ s.busy 5 = false ∧
      s.reports = [⟨0, 0⟩]))
    (by decide +kernel)
  exact ⟨s, hs, driver_protocol hs, of_decide_eq_true ht⟩

end Vdisk

end Xv6Swap
