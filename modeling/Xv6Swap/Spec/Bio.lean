import Xv6Swap.Kernel.Bio
import Mathlib.Data.List.Nodup
import Mathlib.Data.List.Perm.Subperm
import Mathlib.Tactic.Common

/-!
# What the buffer cache guarantees

The file system reaches the blocks below `SWAPBASE` under `ROOTDEV` and swapping the others under
device 0: `devOf` is the device under which a block is accessed.  As long as every access keeps to
this, the cache is a faithful window on the disk although the driver ignores the device.  `Bio.Ok`
says so: with `ref b` references to the block `b`, every cached copy of a block shows the same
contents `view b`, a referenced block is in the cache, and an unreferenced one is on disk as it is
seen, so that its buffer may be recycled.

* `bread_spec`, `bset_spec`, `bwrite_spec`, `brelse_spec`, `bpin_spec`, `bunpin_spec` : the effect
  of the operations on `ref`, `view` and the disk;
* `Bio.Ok.exists_unused` : there is a buffer to recycle as long as fewer than `NBUF` blocks are
  referenced.
-/

namespace Xv6Swap

open Function List Run Nat

/-- The device under which a block is accessed. -/
def devOf (b : ℕ) : ℕ := if b < swapbase then rootdev else swapdev

/-- The buffer holds a block under the device that belongs to it. -/
def Buf.Own (b : Buf) : Prop := b.valid = true ∧ b.dev = devOf b.blockno

namespace Bio

variable {j c : ℕ} {f : Buf → Buf}

/-- The buffer `i` holds the block `b`. -/
structure Holds (s : Bio) (i b : ℕ) : Prop where
  mem : i ∈ s.order
  own : (s.buf i).Own
  blockno : (s.buf i).blockno = b

/-- The cache with `ref b` references to the block `b`, whose contents are `view b`. -/
structure Ok (s : Bio) (ref : ℕ → ℕ) (view : ℕ → Mem) : Prop where
  nodup : s.order.Nodup
  length : s.order.length = nbuf
  own : ∀ i ∈ s.order, (s.buf i).Own ∨
    (s.buf i).refcnt = 0 ∧ (s.buf i).dev ≠ devOf (s.buf i).blockno
  uniq : ∀ i j b, s.Holds i b → s.Holds j b → i = j
  refcnt : ∀ i b, s.Holds i b → (s.buf i).refcnt = ref b
  data : ∀ i b, s.Holds i b → (s.buf i).data = view b
  held : ∀ b, 0 < ref b → ∃ i, s.Holds i b
  dropped : ∀ b, ref b = 0 → view b = s.disk b

variable {s s' : Bio} {ref : ℕ → ℕ} {view : ℕ → Mem} {i j b n : ℕ}

theorem setBuf_buf_self (s : Bio) (i : ℕ) (f : Buf → Buf) : (s.setBuf i f).buf i = f (s.buf i) :=
  update_self ..

theorem setBuf_buf_of_ne (s : Bio) {i : ℕ} (f : Buf → Buf) (h : j ≠ i) :
    (s.setBuf i f).buf j = s.buf j := update_of_ne h ..

@[simp] theorem setBuf_disk (s : Bio) (i : ℕ) (f : Buf → Buf) : (s.setBuf i f).disk = s.disk := rfl

theorem holds_setBuf_of_ne (h : j ≠ i) : (s.setBuf i f).Holds j c ↔ s.Holds j c := by
  have hbuf := setBuf_buf_of_ne s f h
  exact ⟨fun ⟨h1, h2, h3⟩ => ⟨h1, hbuf ▸ h2, hbuf ▸ h3⟩,
    fun ⟨h1, h2, h3⟩ => ⟨h1, hbuf.symm ▸ h2, hbuf.symm ▸ h3⟩⟩

/-- A change of a buffer that leaves its block alone leaves every block where it is. -/
theorem holds_setBuf (hv : (f (s.buf i)).valid = (s.buf i).valid)
    (hd : (f (s.buf i)).dev = (s.buf i).dev) (hb : (f (s.buf i)).blockno = (s.buf i).blockno) :
    (s.setBuf i f).Holds j c ↔ s.Holds j c := by
  by_cases h : j = i
  · subst h
    constructor
    · rintro ⟨h1, h2, h3⟩
      rw [setBuf_buf_self] at h2 h3
      exact ⟨h1, by rwa [Buf.Own, hv, hd, hb] at h2, by rwa [hb] at h3⟩
    · rintro ⟨h1, h2, h3⟩
      refine ⟨h1, ?_, ?_⟩ <;> rw [setBuf_buf_self]
      · rwa [Buf.Own, hv, hd, hb]
      · rwa [hb]
  · exact holds_setBuf_of_ne h

namespace Ok

variable (h : s.Ok ref view) {ref' : ℕ → ℕ}
include h

theorem of_ref (hr : ∀ c, ref c = ref' c) : s.Ok ref' view :=
  (funext hr : ref = ref') ▸ h

/-- A buffer changes its count or its data: only what concerns its block changes. -/
theorem alter {f : Buf → Buf} {view' : ℕ → Mem} (hi : s.Holds i b)
    (hv : (f (s.buf i)).valid = (s.buf i).valid) (hd : (f (s.buf i)).dev = (s.buf i).dev)
    (hb : (f (s.buf i)).blockno = (s.buf i).blockno) (hr : (f (s.buf i)).refcnt = ref' b)
    (hr' : ∀ c ≠ b, ref' c = ref c) (hx : (f (s.buf i)).data = view' b)
    (hx' : ∀ c ≠ b, view' c = view c) (h0 : ref' b = 0 → view' b = s.disk b) :
    (s.setBuf i f).Ok ref' view' where
  nodup := h.nodup
  length := h.length
  own j hj := by
    by_cases hji : j = i
    · subst hji
      rw [setBuf_buf_self, Buf.Own, hv, hd, hb]
      exact .inl hi.own
    · rw [setBuf_buf_of_ne _ _ hji]; exact h.own j hj
  uniq j k c hj hk := by
    rw [holds_setBuf hv hd hb] at hj hk
    exact h.uniq j k c hj hk
  refcnt j c hj := by
    rw [holds_setBuf hv hd hb] at hj
    by_cases hji : j = i
    · subst hji
      rw [setBuf_buf_self, hr, ← hj.blockno, hi.blockno]
    · have hcb : c ≠ b := fun he => hji (h.uniq j i b (he ▸ hj) hi)
      rw [setBuf_buf_of_ne _ _ hji, hr' c hcb, h.refcnt j c hj]
  data j c hj := by
    rw [holds_setBuf hv hd hb] at hj
    by_cases hji : j = i
    · subst hji
      rw [setBuf_buf_self, hx, ← hj.blockno, hi.blockno]
    · have hcb : c ≠ b := fun he => hji (h.uniq j i b (he ▸ hj) hi)
      rw [setBuf_buf_of_ne _ _ hji, hx' c hcb, h.data j c hj]
  held c hc := by
    by_cases hcb : c = b
    · exact ⟨i, (holds_setBuf hv hd hb).2 (hcb ▸ hi)⟩
    · rw [hr' c hcb] at hc
      obtain ⟨j, hj⟩ := h.held c hc
      exact ⟨j, (holds_setBuf hv hd hb).2 hj⟩
  dropped c hc := by
    by_cases hcb : c = b
    · subst hcb; exact h0 hc
    · rw [hx' c hcb]
      exact h.dropped c (hr' c hcb ▸ hc)

theorem setRefcnt (hi : s.Holds i b) (hn : n = 0 → view b = s.disk b) :
    (s.setBuf i fun x => { x with refcnt := n }).Ok (update ref b n) view :=
  h.alter hi rfl rfl rfl (by rw [update_self]) (fun _ hc => update_of_ne hc ..) (h.data i b hi)
    (fun _ _ => rfl) fun h0 => hn (by rwa [update_self] at h0)

theorem setData (hi : s.Holds i b) (hb : 0 < ref b) (data : Mem) :
    (s.setBuf i fun x => { x with data }).Ok ref (update view b data) :=
  h.alter hi rfl rfl rfl (h.refcnt i b hi) (fun _ _ => rfl) (by rw [update_self])
    (fun _ hc => update_of_ne hc ..) fun h0 => absurd h0 hb.ne'

theorem reorder {order : List ℕ} (hp : s.order.Perm order) :
    ({ s with order } : Bio).Ok ref view := by
  have hh : ∀ {j c}, ({ s with order } : Bio).Holds j c ↔ s.Holds j c := fun {j c} =>
    ⟨fun hj => ⟨hp.mem_iff.2 hj.mem, hj.own, hj.blockno⟩,
      fun hj => ⟨hp.mem_iff.1 hj.mem, hj.own, hj.blockno⟩⟩
  exact ⟨hp.nodup h.nodup, hp.length_eq ▸ h.length, fun j hj => h.own j (hp.mem_iff.2 hj),
    fun j k c hj hk => h.uniq j k c (hh.1 hj) (hh.1 hk), fun j c hj => h.refcnt j c (hh.1 hj),
    fun j c hj => h.data j c (hh.1 hj), fun c hc => (h.held c hc).imp fun j hj => hh.2 hj,
    h.dropped⟩

end Ok

theorem holds_of_cached (h : s.Ok ref view) (hc : s.cached (devOf b) b = some i) : s.Holds i b := by
  have hmem := mem_of_find?_eq_some hc
  have hkey := find?_some hc
  simp only [decide_eq_true_eq] at hkey
  refine ⟨hmem, (h.own i hmem).resolve_right fun hno => hno.2 ?_, hkey.2⟩
  rw [hkey.1, hkey.2]

theorem not_holds_of_cached (hc : s.cached (devOf b) b = none) (i : ℕ) : ¬ s.Holds i b := by
  intro hi
  have hno := find?_eq_none.1 hc i hi.mem
  simp only [decide_eq_true_eq] at hno
  exact hno ⟨by rw [hi.own.2, hi.blockno], hi.blockno⟩

/-- The buffer of an unreferenced block may be recycled. -/
theorem Ok.recycle (h : s.Ok ref view) (hc : s.cached (devOf b) b = none)
    (hi : i ∈ s.order) (h0 : (s.buf i).refcnt = 0) (x : Mem) (hx : x = s.disk b) :
    (s.setBuf i fun _ => ⟨true, devOf b, b, 1, x⟩).Ok (update ref b 1) view ∧
      (s.setBuf i fun _ => ⟨true, devOf b, b, 1, x⟩).Holds i b ∧
      ∀ j c, s.Holds j c → 0 < ref c →
        (s.setBuf i fun _ => ⟨true, devOf b, b, 1, x⟩).Holds j c := by
  subst hx
  have hnot := not_holds_of_cached hc
  have href : ref b = 0 := by
    by_contra hne
    obtain ⟨j, hj⟩ := h.held b (pos_of_ne_zero hne)
    exact hnot j hj
  have hself : ∀ {c}, (s.setBuf i fun _ => ⟨true, devOf b, b, 1, s.disk b⟩).Holds i c → c = b := by
    intro c hc
    rw [← hc.blockno, setBuf_buf_self]
  have hnew : (s.setBuf i fun _ => ⟨true, devOf b, b, 1, s.disk b⟩).Holds i b :=
    ⟨hi, by rw [setBuf_buf_self]; exact ⟨rfl, rfl⟩, by rw [setBuf_buf_self]⟩
  have hkeep : ∀ j c, s.Holds j c → 0 < ref c → j ≠ i := by
    rintro j c hj hpos rfl
    rw [← h.refcnt j c hj] at hpos
    omega
  refine ⟨⟨h.nodup, h.length, ?_, ?_, ?_, ?_, ?_, ?_⟩, hnew,
    fun j c hj hpos => (holds_setBuf_of_ne (hkeep j c hj hpos)).2 hj⟩
  · intro j hj
    by_cases hji : j = i
    · subst hji; exact .inl hnew.own
    · rw [setBuf_buf_of_ne _ _ hji]; exact h.own j hj
  · intro j k c hj hk
    by_cases hji : j = i <;> by_cases hki : k = i
    · rw [hji, hki]
    · subst hji; obtain rfl := hself hj; exact (hnot k ((holds_setBuf_of_ne hki).1 hk)).elim
    · subst hki; obtain rfl := hself hk; exact (hnot j ((holds_setBuf_of_ne hji).1 hj)).elim
    · exact h.uniq j k c ((holds_setBuf_of_ne hji).1 hj) ((holds_setBuf_of_ne hki).1 hk)
  · intro j c hj
    by_cases hji : j = i
    · subst hji; obtain rfl := hself hj; rw [setBuf_buf_self, update_self]
    · have hjc := (holds_setBuf_of_ne hji).1 hj
      have hcb : c ≠ b := fun he => hnot j (he ▸ hjc)
      rw [setBuf_buf_of_ne _ _ hji, update_of_ne hcb, h.refcnt j c hjc]
  · intro j c hj
    by_cases hji : j = i
    · subst hji; obtain rfl := hself hj; rw [setBuf_buf_self]; exact (h.dropped c href).symm
    · rw [setBuf_buf_of_ne _ _ hji]; exact h.data j c ((holds_setBuf_of_ne hji).1 hj)
  · intro c hc
    by_cases hcb : c = b
    · exact ⟨i, hcb ▸ hnew⟩
    · rw [update_of_ne hcb] at hc
      obtain ⟨j, hj⟩ := h.held c hc
      exact ⟨j, (holds_setBuf_of_ne (hkeep j c hj hc)).2 hj⟩
  · intro c hc
    by_cases hcb : c = b
    · subst hcb; rw [update_self] at hc; cases hc
    · rw [update_of_ne hcb] at hc; exact h.dropped c hc

/-- There is a buffer to recycle as long as the referenced blocks do not fill the cache. -/
theorem Ok.exists_unused (h : s.Ok ref view) {l : List ℕ} (hl : ∀ b, 0 < ref b → b ∈ l)
    (hlen : l.length < nbuf) : ∃ i, s.unused = some i := by
  by_contra hno
  have hnone : s.unused = none := by
    cases hu : s.unused with
    | none => rfl
    | some i => exact (hno ⟨i, hu⟩).elim
  have hpos : ∀ i ∈ s.order, (s.buf i).refcnt ≠ 0 := by
    intro i hi
    have := find?_eq_none.1 hnone i (mem_reverse.2 hi)
    simpa using this
  have hholds : ∀ i ∈ s.order, s.Holds i (s.buf i).blockno := fun i hi =>
    ⟨hi, (h.own i hi).resolve_right fun hno => hpos i hi hno.1, rfl⟩
  have hnodup : (s.order.map fun i => (s.buf i).blockno).Nodup := by
    refine Nodup.map_on (fun i hi j hj he => ?_) h.nodup
    exact h.uniq i j _ (hholds i hi) (he ▸ hholds j hj)
  have hsub : (s.order.map fun i => (s.buf i).blockno) ⊆ l := by
    intro b hb
    obtain ⟨i, hi, rfl⟩ := mem_map.1 hb
    refine hl _ ?_
    rw [← h.refcnt i _ (hholds i hi)]
    exact pos_of_ne_zero (hpos i hi)
  have hle := (hnodup.subperm hsub).length_le
  rw [length_map, h.length] at hle
  omega

theorem ok_binit (disk : ℕ → Mem) : (binit disk).Ok (fun _ => 0) disk := by
  have hnot : ∀ i b, ¬ (binit disk).Holds i b := fun i b hi => by cases hi.own.1
  have hdev : (0 : ℕ) ≠ devOf 0 := by decide
  exact ⟨nodup_reverse.2 nodup_range, by simp [binit], fun i _ => .inr ⟨rfl, hdev⟩,
    fun i _ b hi => (hnot i b hi).elim, fun i b hi => (hnot i b hi).elim,
    fun i b hi => (hnot i b hi).elim, fun b hb => (lt_irrefl 0 hb).elim, fun _ _ => rfl⟩

end Bio

open Bio

variable {s : Bio} {ref : ℕ → ℕ} {view : ℕ → Mem} {i j b c : ℕ}

/-! ### The operations -/

variable (h : s.Ok ref view)
include h

/-- `bread` returns the buffer of the block, which gains a reference.  Referenced blocks stay in
their buffers. -/
theorem bread_spec (b : ℕ) :
    Ensures (bread (devOf b) b s) (fun i s' => s'.Ok (update ref b (ref b + 1)) view ∧
        s'.Holds i b ∧ s'.disk = s.disk ∧ ∀ j c, s.Holds j c → 0 < ref c → s'.Holds j c)
      fun e => e = .bgetNoBuffers ∧ s.cached (devOf b) b = none ∧ s.unused = none := by
  simp only [bread, bget, bind_assoc_apply, bind_read, id]
  cases hc : s.cached (devOf b) b with
  | some i =>
    have hi := holds_of_cached h hc
    have hok := h.setRefcnt hi (n := ref b + 1) (by omega)
    have hset : (s.setBuf i fun x => { x with refcnt := x.refcnt + 1 }) =
        s.setBuf i fun x => { x with refcnt := ref b + 1 } := by
      simp only [setBuf, h.refcnt i b hi]
    have hvalid : ((s.setBuf i fun x => { x with refcnt := ref b + 1 }).buf i).valid = true := by
      rw [setBuf_buf_self]; exact hi.own.1
    simp only [bind_assoc_apply, bind_modify, bind_pure_apply, bind_read, hset,
      hvalid, if_true, pure_apply, Ensures.ok_iff]
    exact ⟨hok, (holds_setBuf (by rfl) (by rfl) (by rfl)).2 hi, rfl,
      fun j c hj _ => (holds_setBuf (by rfl) (by rfl) (by rfl)).2 hj⟩
  | none =>
    cases hu : s.unused with
    | none => exact ⟨rfl, rfl, rfl⟩
    | some i =>
      have hmem : i ∈ s.order := mem_reverse.1 (mem_of_find?_eq_some hu)
      have h0 : (s.buf i).refcnt = 0 := by simpa using find?_some hu
      obtain ⟨hok, hi, hkeep⟩ := h.recycle hc hmem h0 (s.disk b) rfl
      have href : ref b = 0 := by
        by_contra hne
        obtain ⟨j, hj⟩ := h.held b (pos_of_ne_zero hne)
        exact not_holds_of_cached hc j hj
      simp only [bind_assoc_apply, bind_modify, bind_pure_apply, bind_read,
        setBuf_buf_self, Bool.false_eq_true, if_false, pure_apply, Ensures.ok_iff, setBuf_disk,
        href, zero_add]
      have hset : ((s.setBuf i fun x => { x with
            dev := devOf b, blockno := b, valid := false, refcnt := 1 }).setBuf i
          fun x => { x with data := s.disk x.blockno, valid := true }) =
          s.setBuf i fun _ => ⟨true, devOf b, b, 1, s.disk b⟩ := by
        simp only [setBuf, update_self, update_idem]
      rw [hset]
      exact ⟨hok, hi, trivial, hkeep⟩

variable (hi : s.Holds i b)
include hi

/-- A held buffer's data may be overwritten. -/
theorem bset_spec (hb : 0 < ref b) (data : Mem) :
    ∃ s', bset i data s = .ok ((), s') ∧ s'.Ok ref (update view b data) ∧
      s'.disk = s.disk ∧ ∀ j c, s.Holds j c → s'.Holds j c :=
  ⟨_, rfl, h.setData hi hb data, rfl, fun _ _ hj => (holds_setBuf (by rfl) (by rfl) (by rfl)).2 hj⟩

/-- `bwrite` brings the disk up to date with what is seen of a block. -/
theorem bwrite_spec : ∃ s', bwrite i s = .ok ((), s') ∧ s'.Ok ref view ∧
      s'.disk = update s.disk b (view b) ∧ ∀ j c, s.Holds j c → s'.Holds j c := by
  have hdisk : update s.disk (s.buf i).blockno (s.buf i).data =
      update s.disk b (view b) := by rw [hi.blockno, h.data i b hi]
  have hh : ∀ {j c d}, ({ s with disk := d } : Bio).Holds j c ↔ s.Holds j c := fun {_ _ _} =>
    ⟨fun hj => ⟨hj.mem, hj.own, hj.blockno⟩, fun hj => ⟨hj.mem, hj.own, hj.blockno⟩⟩
  refine ⟨_, rfl, ⟨h.nodup, h.length, h.own, fun j k c hj hk => h.uniq j k c (hh.1 hj) (hh.1 hk),
    fun j c hj => h.refcnt j c (hh.1 hj), fun j c hj => h.data j c (hh.1 hj),
    fun c hc => (h.held c hc).imp fun j hj => hh.2 hj, fun c hc => ?_⟩, hdisk,
    fun j c hj => hh.2 hj⟩
  change view c = update s.disk (s.buf i).blockno (s.buf i).data c
  rw [hdisk]
  by_cases hcb : c = b
  · rw [hcb, update_self]
  · rw [update_of_ne hcb]; exact h.dropped c hc

/-- `brelse` gives a reference back; the last one only if the disk is up to date. -/
theorem brelse_spec (hlast : ref b - 1 = 0 → view b = s.disk b) :
    ∃ s', brelse i s = .ok ((), s') ∧ s'.Ok (update ref b (ref b - 1)) view ∧
      s'.disk = s.disk ∧ ∀ j c, s.Holds j c → s'.Holds j c := by
  have hok := h.setRefcnt hi hlast
  have hset : (s.setBuf i fun x => { x with refcnt := x.refcnt - 1 }) =
      s.setBuf i fun x => { x with refcnt := ref b - 1 } := by
    simp only [setBuf, h.refcnt i b hi]
  have hkeep : ∀ j c, s.Holds j c →
      (s.setBuf i fun x => { x with refcnt := ref b - 1 }).Holds j c :=
    fun _ _ hj => (holds_setBuf (by rfl) (by rfl) (by rfl)).2 hj
  have hperm := perm_cons_erase hi.mem
  simp only [brelse, bind_modify, bind_read, hset, setBuf_buf_self, Run.ite_apply,
    modify_apply, pure_apply]
  split
  · exact ⟨_, rfl, hok.reorder hperm, rfl, fun j c hj =>
      ⟨hperm.mem_iff.1 (hkeep j c hj).mem, (hkeep j c hj).own, (hkeep j c hj).blockno⟩⟩
  · exact ⟨_, rfl, hok, rfl, hkeep⟩

theorem bpin_spec :
    ∃ s', bpin i s = .ok ((), s') ∧ s'.Ok (update ref b (ref b + 1)) view ∧
      s'.disk = s.disk ∧ ∀ j c, s.Holds j c → s'.Holds j c := by
  have hset : (s.setBuf i fun x => { x with refcnt := x.refcnt + 1 }) =
      s.setBuf i fun x => { x with refcnt := ref b + 1 } := by
    simp only [setBuf, h.refcnt i b hi]
  refine ⟨_, congrArg (fun t => Except.ok ((), t)) hset, h.setRefcnt hi (by omega), rfl,
    fun _ _ hj => (holds_setBuf (by rfl) (by rfl) (by rfl)).2 hj⟩

theorem bunpin_spec (hlast : ref b - 1 = 0 → view b = s.disk b) :
    ∃ s', bunpin i s = .ok ((), s') ∧ s'.Ok (update ref b (ref b - 1)) view ∧
      s'.disk = s.disk ∧ ∀ j c, s.Holds j c → s'.Holds j c := by
  have hset : (s.setBuf i fun x => { x with refcnt := x.refcnt - 1 }) =
      s.setBuf i fun x => { x with refcnt := ref b - 1 } := by
    simp only [setBuf, h.refcnt i b hi]
  exact ⟨_, congrArg (fun t => Except.ok ((), t)) hset, h.setRefcnt hi hlast, rfl,
    fun _ _ hj => (holds_setBuf (by rfl) (by rfl) (by rfl)).2 hj⟩

end Xv6Swap
