import Xv6Swap.Kernel.Bcache
import Xv6Swap.Lib.Tally
import Mathlib.Data.Finset.Range

/-!
# The buffer cache refines the disk

The invariant of `Kernel/Bcache.lean`.  The buffers in use have different blocks (`Catalog`), the
counts are the numbers of references (`refs`), and each process can rely on the buffers that it
holds or refers to (`At`).  The buffers never used need care: they all carry the name of block 0 of
device 0, and the first loop of `bget` would take one of them for this block; but they never move
in the list, so that a buffer that really caches it stays in front of them (`Order`).

* `Sound.change` : the frame rule for a step of one process on one buffer; `Sound.recount` and
  `Sound.hold` are its cases for a count and for a process that holds the buffer;
* `Sound.hit`, `Sound.recycle`, `bget_spec` : lookup, where a buffer changes its block;
* `Sound.next` : every event keeps the invariant, and the blocks of the buffers in use;
* `cache_refines` : what follows for every run.
-/

namespace Xv6Swap

open Function BcPc Finset List BcEvent Nat

/-- The process has a reference to the buffer without its lock. -/
def BcPc.Refs (i : ℕ) : BcPc → Prop
  | .lock _ j | .release j => j = i
  | .idle | .bget _ | .read _ _ _ | .filled _ _ | .returned _ _ | .write _ _ => False

instance (i : ℕ) : DecidablePred (Refs i) := fun pc => by
  cases pc <;> unfold Refs <;> infer_instance

/-- The process reads the block of the buffer from the disk. -/
def BcPc.Reads (i : ℕ) : BcPc → Prop
  | .read _ j _ | .filled _ j => j = i
  | .idle | .bget _ | .lock _ _ | .returned _ _ | .write _ _ | .release _ => False

theorem diskPlace_eq {b : ℕ} (h : b < 2 ^ 31) : diskPlace b = b := by
  unfold diskPlace
  omega

namespace Bcache

variable {D : Type} {dev : ℕ → ℕ} {s s' : Bcache D} {l : List ℕ} {t i place : ℕ} {pc : BcPc}
  {n : BitVec 32} {r : BcReq} {b : BcBuf D}

/-- The buffer caches this block. -/
def Names (s : Bcache D) (i : ℕ) (r : BcReq) : Prop :=
  (s.buf i).dev = r.dev ∧ (s.buf i).blockno = r.blockno

/-- The buffer has data, or a reference. -/
def Used (s : Bcache D) (i : ℕ) : Prop := (s.buf i).valid = true ∨ (s.buf i).refcnt ≠ 0

/-- The references to a buffer: its holder, the processes on their way to its lock or back from it,
and the pins. -/
def refs (s : Bcache D) (i : ℕ) : ℤ :=
  ind ((s.buf i).lock ≠ none) + tally (range nproc) (fun t => (s.pc t).Refs i) + s.pins i

/-- The list of the buffers.  Those never used are all named block 0 of device 0; one that really
caches this block stands before all of them. -/
structure Order (s : Bcache D) (l : List ℕ) : Prop where
  loop : s.links.Loop bhead l
  perm : l.Perm (range nbuf)
  fresh : l.Pairwise fun a b => ¬ s.Used a → s.Names b ⟨0, 0⟩ → ¬ s.Used b

/-- The names of the buffers. -/
structure Catalog (dev : ℕ → ℕ) (s : Bcache D) : Prop where
  fresh : ∀ i < nbuf, ¬ s.Used i → s.Names i ⟨0, 0⟩
  named : ∀ i < nbuf, s.Used i →
    (s.buf i).dev = dev (s.buf i).blockno ∧ (s.buf i).blockno < 2 ^ 31
  inj : ∀ i < nbuf, ∀ j < nbuf, s.Used i → s.Used j → (s.buf i).blockno = (s.buf j).blockno → i = j
  listed : ∃ l, s.Order l

/-- What a process can rely on. -/
def At (dev : ℕ → ℕ) (s : Bcache D) (t : ℕ) : BcPc → Prop
  | .idle => True
  | .bget r => r.dev = dev r.blockno ∧ r.blockno < 2 ^ 31
  | .lock r i => i < nbuf ∧ s.Names i r
  | .read r i place => s.Names i r ∧ (s.buf i).lock = some t ∧ (s.buf i).valid = false ∧
      place = r.blockno
  | .filled r i => s.Names i r ∧ (s.buf i).lock = some t ∧ (s.buf i).valid = false ∧
      (s.buf i).data = s.disk r.blockno
  | .returned r i => s.Names i r ∧ (s.buf i).lock = some t ∧ (s.buf i).valid = true ∧
      (s.buf i).data = (s.left r.blockno).getD (s.disk r.blockno)
  | .write i place => (s.buf i).lock = some t ∧ (s.buf i).valid = true ∧
      place = (s.buf i).blockno
  | .release i => i < nbuf ∧ (s.buf i).valid = true

structure Sound (dev : ℕ → ℕ) (s : Bcache D) : Prop where
  catalog : s.Catalog dev
  count : ∀ i, ((s.buf i).refcnt.toNat : ℤ) = s.refs i
  bound : ∀ i, s.pins i ≤ logsize
  idle : ∀ t, nproc ≤ t → s.pc t = .idle
  pos : ∀ t, s.At dev t (s.pc t)
  locked : ∀ i t, (s.buf i).lock = some t →
    i < nbuf ∧ ((s.buf i).valid = true ∨ (s.pc t).Reads i)
  pinned : ∀ i, 0 < s.pins i → i < nbuf ∧ (s.buf i).valid = true
  /-- A buffer that nobody holds has the data that was left. -/
  kept : ∀ i < nbuf, (s.buf i).lock = none → (s.buf i).valid = true →
    s.left (s.buf i).blockno = some (s.buf i).data
  /-- Nothing was left for a block that is still to be read. -/
  cold : ∀ i < nbuf, (s.buf i).valid = false → s.Used i → s.left (s.buf i).blockno = none
  warm : ∀ b d, s.left b = some d → ∃ i < nbuf, (s.buf i).valid = true ∧ (s.buf i).blockno = b

@[simp] theorem goto_pc_self (t : ℕ) (pc : BcPc) : (s.goto t pc).pc t = pc := update_self ..

@[simp] theorem setBuf_buf_self (i : ℕ) (f : BcBuf D → BcBuf D) :
    (s.setBuf i f).buf i = f (s.buf i) := update_self ..

@[simp] theorem goto_buf (t : ℕ) (pc : BcPc) : (s.goto t pc).buf = s.buf := rfl

@[simp] theorem goto_pins (t : ℕ) (pc : BcPc) : (s.goto t pc).pins = s.pins := rfl

@[simp] theorem setBuf_pins (i : ℕ) (f : BcBuf D → BcBuf D) : (s.setBuf i f).pins = s.pins := rfl

/-- A process in a call, and what it can rely on. -/
theorem Sound.here (hi : s.Sound dev) (hpc : s.pc t = pc) (hne : pc ≠ .idle) :
    t < nproc ∧ s.At dev t pc :=
  ⟨Nat.lt_of_not_le fun hle => hne (hpc.symm.trans (hi.idle t hle)), hpc ▸ hi.pos t⟩

/-! ### Reference counts -/

theorem refs_of_lock (h : (s.buf i).lock ≠ none) : 1 ≤ s.refs i := by
  have := tally_nonneg (range nproc) fun t => (s.pc t).Refs i
  rw [refs, ind_true h]
  omega

theorem refs_of_pin (h : 0 < s.pins i) : 1 ≤ s.refs i := by
  have h1 := tally_nonneg (range nproc) fun t => (s.pc t).Refs i
  have h2 := ind_nonneg ((s.buf i).lock ≠ none)
  rw [refs]
  omega

theorem refs_of_pc (ht : t < nproc) (h : (s.pc t).Refs i) : 1 ≤ s.refs i := by
  have h1 := tally_pos (P := fun t => (s.pc t).Refs i) (mem_range.2 ht) h
  have h2 := ind_nonneg ((s.buf i).lock ≠ none)
  rw [refs]
  omega

section

variable (hi : s.Sound dev)
include hi

/-- A buffer with a reference has a count that is not zero. -/
theorem Sound.refcnt_ne (h : 1 ≤ s.refs i) : (s.buf i).refcnt ≠ 0 := by
  intro e
  have hc := hi.count i
  have h0 : (0 : BitVec 32).toNat = 0 := rfl
  rw [e, h0] at hc
  omega

theorem Sound.refs_lt (i : ℕ) : s.refs i < 1000 := by
  have h1 := tally_le_card (range nproc) fun t => (s.pc t).Refs i
  have h2 : ind ((s.buf i).lock ≠ none) ≤ 1 := by
    unfold ind
    split <;> decide
  have h3 := hi.bound i
  have h4 : logsize = 30 := rfl
  rw [card_range] at h1
  have h5 : nproc = 64 := rfl
  rw [refs]
  omega

/-- A process with a reference, at any position. -/
theorem Sound.refcnt_of_pc (h : (s.pc t).Refs i) : (s.buf i).refcnt ≠ 0 := by
  refine hi.refcnt_ne (refs_of_pc (hi.here rfl fun e => ?_).1 h)
  simp [e, Refs] at h

theorem Sound.refcnt_of_lock (h : (s.buf i).lock = some t) : (s.buf i).refcnt ≠ 0 :=
  hi.refcnt_ne (refs_of_lock (by simp [h]))

theorem Sound.refcnt_lt (i : ℕ) : (s.buf i).refcnt.toNat < 1000 := by
  have h1 := hi.refs_lt i
  have h2 := hi.count i
  omega

end

theorem toNat_add_one (h : n.toNat < 1000) : (n + 1).toNat = n.toNat + 1 := by
  have h1 : (1 : BitVec 32).toNat = 1 := rfl
  rw [BitVec.toNat_add, h1]
  omega

theorem toNat_sub_one (h : n ≠ 0) : ((n - 1).toNat : ℤ) = n.toNat - 1 := by
  have h0 : n.toNat ≠ 0 := fun e => h (BitVec.eq_of_toNat_eq (by simpa using e))
  have h1 : (1 : BitVec 32).toNat = 1 := rfl
  have := n.isLt
  rw [BitVec.toNat_sub, h1]
  omega

/-! ### Frames -/

/-- A process keeps what it relies on if the others leave alone the names and the data of the
buffers that it refers to, and everything of those that it holds. -/
theorem At.frame (h : s.At dev t pc) (hrefs : ∀ i, pc.Refs i → (s'.buf i).dev = (s.buf i).dev ∧
      (s'.buf i).blockno = (s.buf i).blockno ∧ ((s.buf i).valid = true → (s'.buf i).valid = true))
    (hheld : ∀ i, (s.buf i).lock = some t → (s'.buf i).dev = (s.buf i).dev ∧
      (s'.buf i).blockno = (s.buf i).blockno ∧ (s'.buf i).valid = (s.buf i).valid ∧
      (s'.buf i).lock = (s.buf i).lock ∧ (s'.buf i).data = (s.buf i).data ∧
      s'.left (s.buf i).blockno = s.left (s.buf i).blockno ∧
      s'.disk (s.buf i).blockno = s.disk (s.buf i).blockno) : s'.At dev t pc := by
  cases pc with
  | idle => trivial
  | bget r => exact h
  | lock r i =>
    obtain ⟨hd, hb, -⟩ := hrefs i rfl
    exact ⟨h.1, hd.trans h.2.1, hb.trans h.2.2⟩
  | read r i place =>
    obtain ⟨⟨h1, h2⟩, h3, h4, h5⟩ := h
    obtain ⟨hd, hb, hv, hl, -⟩ := hheld i h3
    exact ⟨⟨hd.trans h1, hb.trans h2⟩, hl.trans h3, hv.trans h4, h5⟩
  | filled r i =>
    obtain ⟨⟨h1, h2⟩, h3, h4, h5⟩ := h
    obtain ⟨hd, hb, hv, hl, hx, -, hk⟩ := hheld i h3
    rw [h2] at hk
    exact ⟨⟨hd.trans h1, hb.trans h2⟩, hl.trans h3, hv.trans h4, by rw [hx, hk, h5]⟩
  | returned r i =>
    obtain ⟨⟨h1, h2⟩, h3, h4, h5⟩ := h
    obtain ⟨hd, hb, hv, hl, hx, hf, hk⟩ := hheld i h3
    rw [h2] at hf hk
    exact ⟨⟨hd.trans h1, hb.trans h2⟩, hl.trans h3, hv.trans h4, by rw [hx, hf, hk, h5]⟩
  | write i place =>
    obtain ⟨h1, h2, h3⟩ := h
    obtain ⟨-, hb, hv, hl, -⟩ := hheld i h1
    exact ⟨hl.trans h1, hv.trans h2, h3.trans hb.symm⟩
  | release i =>
    obtain ⟨-, -, hv⟩ := hrefs i rfl
    exact ⟨h.1, hv h.2⟩

theorem Names.unique {r' : BcReq} (h : s.Names i r) (h' : s.Names i r') : r = r' := by
  cases r
  cases r'
  exact BcReq.mk.injEq .. ▸ ⟨h.1.symm.trans h'.1, h.2.symm.trans h'.2⟩

theorem Names.congr (hd : (s'.buf i).dev = (s.buf i).dev)
    (hb : (s'.buf i).blockno = (s.buf i).blockno) : s'.Names i r ↔ s.Names i r := by
  unfold Names
  rw [hd, hb]

theorem Catalog.congr (h : s.Catalog dev) (hd : ∀ i, (s'.buf i).dev = (s.buf i).dev)
    (hb : ∀ i, (s'.buf i).blockno = (s.buf i).blockno) (hu : ∀ i, s'.Used i ↔ s.Used i)
    (hl : s'.links = s.links) : s'.Catalog dev := by
  refine ⟨fun i hn hi => ?_, fun i hn hi => ?_, fun i hn j hm hi hj e => ?_, ?_⟩
  · exact (Names.congr (hd i) (hb i)).2 (h.fresh i hn (mt (hu i).2 hi))
  · rw [hd, hb]
    exact h.named i hn ((hu i).1 hi)
  · rw [hb, hb] at e
    exact h.inj i hn j hm ((hu i).1 hi) ((hu j).1 hj) e
  · obtain ⟨l, hloop, hperm, hfresh⟩ := h.listed
    refine ⟨l, hl ▸ hloop, hperm, hfresh.imp fun {a b} hab ha hn hb' => ?_⟩
    exact hab (mt (hu a).2 ha) ((Names.congr (hd b) (hb b)).1 hn) ((hu b).1 hb')

/-- A used buffer moves to the head of the list. -/
theorem Catalog.front (h : s.Catalog dev) (hn : i < nbuf) (hu : s.Used i) :
    ({ s with links := (s.links.unlink i).push bhead i } : Bcache D).Catalog dev := by
  refine ⟨h.fresh, h.named, h.inj, ?_⟩
  obtain ⟨l, hloop, hperm, hfresh⟩ := h.listed
  have hmem : i ∈ l := hperm.mem_iff.2 (List.mem_range.2 hn)
  have hnd := (nodup_cons.1 hloop.nodup).2
  refine ⟨i :: l.erase i, (hloop.unlink hmem).push ?_, (perm_cons_erase hmem).symm.trans hperm,
    pairwise_cons.2 ⟨fun b _ hi => absurd hu hi, hfresh.sublist erase_sublist⟩⟩
  rintro hi
  rcases mem_cons.1 hi with h | h
  · exact Nat.ne_of_lt hn h
  · exact hnd.not_mem_erase h

/-! ### One buffer and one process -/

/-- The effect of a change of one position, one lock and one number of pins on the references. -/
theorem refs_change (i : ℕ) (ht : t < nproc) (hpc : ∀ u ≠ t, s'.pc u = s.pc u) :
    s'.refs i = s.refs i + ind ((s'.buf i).lock ≠ none) - ind ((s.buf i).lock ≠ none) +
      ind ((s'.pc t).Refs i) - ind ((s.pc t).Refs i) + s'.pins i - s.pins i := by
  have := tally_change (P := fun u => (s.pc u).Refs i) (Q := fun u => (s'.pc u).Refs i)
    (mem_range.2 ht) fun u _ hu => by rw [hpc u hu]
  rw [refs, refs, this]
  omega

/-- **The frame rule.**  A process moves, the buffer `i` becomes `b`, and the data that is on the
disk or was left in the cache changes for its block only. -/
theorem Sound.change (hi : s.Sound dev) (ht : t < nproc) (hn : i < nbuf)
    (hbuf : s'.buf = update s.buf i b) (hpc : ∀ u ≠ t, s'.pc u = s.pc u)
    (hpins : ∀ j ≠ i, s'.pins j = s.pins j)
    (hleft : ∀ k, s'.left k = s.left k ∨ s.Used i ∧ k = (s.buf i).blockno)
    (hdisk : ∀ k, s'.disk k = s.disk k ∨ s.Used i ∧ k = (s.buf i).blockno)
    (hcat : s'.Catalog dev) (hpos : s'.At dev t (s'.pc t))
    (hcount : (b.refcnt.toNat : ℤ) = (s.buf i).refcnt.toNat + ind (b.lock ≠ none) -
      ind ((s.buf i).lock ≠ none) + ind ((s'.pc t).Refs i) - ind ((s.pc t).Refs i) +
      s'.pins i - s.pins i)
    (hrefs : ∀ j ≠ i, ((s'.pc t).Refs j ↔ (s.pc t).Refs j)) (hreads : ∀ j ≠ i, ¬ (s.pc t).Reads j)
    (hbound : s'.pins i ≤ logsize)
    (hothers : ∀ u ≠ t, (s.pc u).Refs i → b.dev = (s.buf i).dev ∧
      b.blockno = (s.buf i).blockno ∧ ((s.buf i).valid = true → b.valid = true))
    (hheld : ∀ u ≠ t, (s.buf i).lock = some u → (∃ n, b = { s.buf i with refcnt := n }) ∧
      s'.left (s.buf i).blockno = s.left (s.buf i).blockno ∧
      s'.disk (s.buf i).blockno = s.disk (s.buf i).blockno)
    (hlocked : ∀ u, b.lock = some u → b.valid = true ∨ (s'.pc u).Reads i)
    (hpin : 0 < s'.pins i → b.valid = true)
    (hkept : b.lock = none → b.valid = true → s'.left b.blockno = some b.data)
    (hcold : b.valid = false → s'.Used i → s'.left b.blockno = none)
    (hwarm : ∀ k d, s'.left k = some d → b.valid = true ∧ b.blockno = k ∨
      s.left k = some d ∧ ¬ ((s.buf i).valid = true ∧ (s.buf i).blockno = k)) : s'.Sound dev := by
  have hself : s'.buf i = b := hbuf ▸ update_self ..
  have hother : ∀ j ≠ i, s'.buf j = s.buf j := fun j hj => hbuf ▸ update_of_ne hj ..
  -- the other buffers in use have other blocks
  have hsep : ∀ j < nbuf, j ≠ i → s.Used j → ¬ (s.Used i ∧ (s.buf j).blockno = (s.buf i).blockno) :=
    fun j hj hji hu h => hji (hi.catalog.inj j hj i hn hu h.1 h.2)
  refine ⟨hcat, fun j => ?_, fun j => ?_, fun u hu => ?_, fun u => ?_, fun j u hl => ?_,
    fun j hj => ?_, fun j hj hl hv => ?_, fun j hj hv hu => ?_, fun k d hk => ?_⟩
  · rw [refs_change j ht hpc]
    have hc := hi.count j
    rcases eq_or_ne j i with rfl | hj
    · rw [hself]
      omega
    · have : ind ((s'.pc t).Refs j) = ind ((s.pc t).Refs j) := if_congr (hrefs j hj) rfl rfl
      rw [hother j hj, hpins j hj]
      omega
  · rcases eq_or_ne j i with rfl | hj
    · exact hbound
    · rw [hpins j hj]
      exact hi.bound j
  · rw [hpc u fun e => Nat.not_lt.2 hu (e ▸ ht)]
    exact hi.idle u hu
  · rcases eq_or_ne u t with rfl | hu
    · exact hpos
    · rw [hpc u hu]
      refine (hi.pos u).frame (fun j hr => ?_) fun j hl => ?_ <;> rcases eq_or_ne j i with rfl | hji
      · rw [hself]
        exact hothers u hu hr
      · rw [hother j hji]
        exact ⟨rfl, rfl, id⟩
      · obtain ⟨⟨n, rfl⟩, h1, h2⟩ := hheld u hu hl
        rw [hself]
        exact ⟨rfl, rfl, rfl, rfl, rfl, h1, h2⟩
      · have hne := hsep j (hi.locked j u hl).1 hji (.inr (hi.refcnt_of_lock hl))
        rw [hother j hji]
        exact ⟨rfl, rfl, rfl, rfl, rfl, (hleft _).resolve_right hne, (hdisk _).resolve_right hne⟩
  · rcases eq_or_ne j i with rfl | hji
    · rw [hself] at hl ⊢
      exact ⟨hn, hlocked u hl⟩
    · rw [hother j hji] at hl ⊢
      obtain ⟨hlt, hor⟩ := hi.locked j u hl
      refine ⟨hlt, hor.imp_right fun hrd => ?_⟩
      rwa [hpc u]
      rintro rfl
      exact hreads j hji hrd
  · rcases eq_or_ne j i with rfl | hji
    · rw [hself]
      exact ⟨hn, hpin hj⟩
    · rw [hpins j hji] at hj
      rw [hother j hji]
      exact hi.pinned j hj
  · rcases eq_or_ne j i with rfl | hji
    · rw [hself] at hl hv ⊢
      exact hkept hl hv
    · rw [hother j hji] at hl hv ⊢
      rw [(hleft _).resolve_right (hsep j hj hji (.inl hv))]
      exact hi.kept j hj hl hv
  · rcases eq_or_ne j i with rfl | hji
    · rw [hself] at hv ⊢
      exact hcold hv hu
    · unfold Used at hu
      rw [hother j hji] at hv hu ⊢
      rw [(hleft _).resolve_right (hsep j hj hji hu)]
      exact hi.cold j hj hv hu
  · obtain ⟨hv, hb⟩ | ⟨hk, hne⟩ := hwarm k d hk
    · exact ⟨i, hn, hself ▸ hv, hself ▸ hb⟩
    · obtain ⟨j, hj, hvj, hbj⟩ := hi.warm k d hk
      have hji : j ≠ i := by
        rintro rfl
        exact hne ⟨hvj, hbj⟩
      exact ⟨j, hj, by rwa [hother j hji], by rwa [hother j hji]⟩

theorem same_of_update (hbuf : s'.buf = update s.buf i { s.buf i with refcnt := n }) (j : ℕ) :
    (s'.buf j).dev = (s.buf j).dev ∧ (s'.buf j).blockno = (s.buf j).blockno ∧
      (s'.buf j).valid = (s.buf j).valid ∧ (s'.buf j).lock = (s.buf j).lock ∧
      (s'.buf j).data = (s.buf j).data := by
  rcases eq_or_ne j i with rfl | hj <;> simp [*]

/-- Only the count of one buffer, its pins, the position of one process and the list change. -/
theorem Sound.recount (hi : s.Sound dev) (ht : t < nproc) (hn : i < nbuf)
    (hbuf : s'.buf = update s.buf i { s.buf i with refcnt := n })
    (hdisk : s'.disk = s.disk) (hleft : s'.left = s.left)
    (hpc : ∀ u ≠ t, s'.pc u = s.pc u) (hpins : ∀ j ≠ i, s'.pins j = s.pins j)
    (hcount : (n.toNat : ℤ) = (s.buf i).refcnt.toNat +
      ind ((s'.pc t).Refs i) - ind ((s.pc t).Refs i) + s'.pins i - s.pins i)
    (hrefs : ∀ j ≠ i, ((s'.pc t).Refs j ↔ (s.pc t).Refs j))
    (hreads : ∀ j, ¬ (s.pc t).Reads j) (hbound : s'.pins i ≤ logsize)
    (hpin : 0 < s'.pins i → (s.buf i).valid = true)
    (hcold : (s.buf i).valid = false → s'.Used i → s.left (s.buf i).blockno = none)
    (hcat : s'.Catalog dev) (hpos : s'.At dev t (s'.pc t)) : s'.Sound dev := by
  refine hi.change ht hn hbuf hpc hpins (fun k => .inl (by rw [hleft]))
    (fun k => .inl (by rw [hdisk]))
    hcat hpos (by dsimp only; omega) hrefs (fun j _ => hreads j) hbound
    (fun _ _ _ => ⟨rfl, rfl, id⟩) (fun _ _ _ => ⟨⟨n, rfl⟩, by rw [hleft], by rw [hdisk]⟩)
    (fun u hl => ?_) hpin (fun hl hv => ?_) (fun hv hu => ?_) fun k d hk => ?_
  · refine (hi.locked i u hl).2.imp_right fun hr => ?_
    rwa [hpc u]
    rintro rfl
    exact hreads i hr
  · rw [hleft]
    exact hi.kept i hn hl hv
  · rw [hleft]
    exact hcold hv hu
  · rw [hleft] at hk
    by_cases h : (s.buf i).valid = true ∧ (s.buf i).blockno = k
    · exact .inl h
    · exact .inr ⟨hk, h⟩

/-- A count goes up or down and the buffer stays in use. -/
theorem Catalog.recount (h : s.Catalog dev)
    (hbuf : s'.buf = update s.buf i { s.buf i with refcnt := n })
    (hlinks : s'.links = s.links) (hu : s.Used i)
    (hu' : (s.buf i).valid = true ∨ n ≠ 0) : s'.Catalog dev := by
  have hsame := same_of_update hbuf
  refine h.congr (fun j => (hsame j).1) (fun j => (hsame j).2.1) (fun j => ?_) hlinks
  unfold Used
  rcases eq_or_ne j i with rfl | hj
  · rw [hbuf, update_self]
    exact ⟨fun _ => hu, fun _ => hu'⟩
  · rw [hbuf, update_of_ne hj]

theorem Sound.bpin (hi : s.Sound dev) (hold : Holds s t i)
    (hpins : s.pins i < logsize) : (s.bpin i).Sound dev := by
  obtain ⟨ht, hpc, hl⟩ := hold
  obtain ⟨hn, hor⟩ := hi.locked i t hl
  have hv : (s.buf i).valid = true := by simpa [hpc, Reads] using hor
  have hself : (s.bpin i).pins i = s.pins i + 1 := update_self ..
  refine hi.recount ht hn rfl rfl rfl (fun _ _ => rfl) (fun j hj => update_of_ne hj ..) ?_
    (fun _ _ => Iff.rfl) (by simp [hpc, Reads]) (by omega) (fun _ => hv) (by simp [hv])
    (hi.catalog.recount rfl rfl (.inl hv) (.inl hv)) ?_
  · rw [toNat_add_one (hi.refcnt_lt i), hself]
    change _ = _ + ind ((s.pc t).Refs i) - _ + _ - _
    omega
  · change At dev (s.bpin i) t (s.pc t)
    rw [hpc]
    trivial

theorem Sound.bunpin (hi : s.Sound dev) (ht : t < nproc) (hpc : s.pc t = .idle)
    (hpins : 0 < s.pins i) : (s.bunpin i).Sound dev := by
  obtain ⟨hn, hv⟩ := hi.pinned i hpins
  have hbound := hi.bound i
  have hself : (s.bunpin i).pins i = s.pins i - 1 := update_self ..
  refine hi.recount ht hn rfl rfl rfl (fun _ _ => rfl) (fun j hj => update_of_ne hj ..) ?_
    (fun _ _ => Iff.rfl) (by simp [hpc, Reads]) (by omega) (fun _ => hv) (by simp [hv])
    (hi.catalog.recount rfl rfl (.inl hv) (.inl hv)) ?_
  · rw [toNat_sub_one (hi.refcnt_ne (refs_of_pin hpins)), hself]
    change _ = _ + ind ((s.pc t).Refs i) - _ + _ - _
    omega
  · change At dev (s.bunpin i) t (s.pc t)
    rw [hpc]
    trivial

theorem Sound.brelse (hi : s.Sound dev) (hpc : s.pc t = .release i) : (s.brelse t i).Sound dev := by
  obtain ⟨ht, hn, hv⟩ := hi.here hpc nofun
  have hne : (s.buf i).refcnt ≠ 0 := hi.refcnt_of_pc (t := t) (by simp [hpc, Refs])
  have hlow : ((s.setBuf i fun b => { b with refcnt := b.refcnt - 1 }).goto t .idle).Catalog dev :=
    hi.catalog.recount rfl rfl (.inl hv) (.inl hv)
  have key : ∀ l, ({ (s.setBuf i fun b => { b with refcnt := b.refcnt - 1 }).goto t .idle with
      links := l } : Bcache D).Catalog dev →
      ({ (s.setBuf i fun b => { b with refcnt := b.refcnt - 1 }).goto t .idle with
        links := l } : Bcache D).Sound dev := by
    intro l hcat
    refine hi.recount ht hn rfl rfl rfl (fun u hu => update_of_ne hu ..) (fun _ _ => rfl) ?_ ?_
      (by simp [hpc, Reads]) (hi.bound i) (fun _ => hv) (by simp [hv]) hcat (by simp [At])
    · rw [toNat_sub_one hne]
      simp [hpc, Refs]
    · intro j hj
      simp [hpc, Refs, hj.symm]
  unfold Bcache.brelse
  dsimp only
  split
  · exact key _ (hlow.front hn (.inl (by simpa using hv)))
  · exact key _ hlow

/-! ### Lookup -/

theorem Order.length (h : s.Order l) : l.length < nbuf + 1 := by
  rw [h.perm.length_eq, length_range]
  exact lt_succ_self _

theorem Order.mem (h : s.Order l) : i ∈ l ↔ i < nbuf := by
  rw [h.perm.mem_iff, List.mem_range]

theorem Order.findCached (h : s.Order l) (r : BcReq) : s.findCached r =
    some (l.find? fun i => decide ((s.buf i).dev = r.dev ∧ (s.buf i).blockno = r.blockno)) :=
  h.loop.seek_next h.length

theorem Order.findUnused (h : s.Order l) : s.findUnused =
    some (l.reverse.find? fun i => decide ((s.buf i).refcnt = 0)) :=
  h.loop.seek_prev h.length

theorem pairwise_find? {p : ℕ → Bool} {x : ℕ} (hnd : l.Nodup) (h : l.find? p = some x) :
    l.Pairwise fun a b => b = x → p a = false := by
  induction l with
  | nil => exact .nil
  | cons c l ih =>
    obtain ⟨hc, hnd⟩ := nodup_cons.1 hnd
    rw [find?_cons] at h
    cases hp : p c with
    | true =>
      rw [hp] at h
      cases h
      refine pairwise_cons.2 ⟨fun b hb e => absurd (e ▸ hb) hc, ?_⟩
      refine (pairwise_of_forall fun a b => trivial : l.Pairwise fun _ _ => True).imp_of_mem ?_
      exact fun _ hb _ e => absurd (e ▸ hb) hc
    | false =>
      rw [hp] at h
      exact pairwise_cons.2 ⟨fun _ _ _ => hp, ih hnd h⟩

/-- A buffer that nobody uses gets a name that no other buffer in use has. -/
theorem Catalog.claim (h : s.Catalog dev) (hl : s.Order l) (hn : i < nbuf)
    (hr : r.dev = dev r.blockno ∧ r.blockno < 2 ^ 31)
    (hname : s'.Names i r) (hu : s'.Used i) (hother : ∀ j ≠ i, s'.buf j = s.buf j)
    (hlinks : s'.links = s.links) (hno : ∀ j < nbuf, j ≠ i → s.Used j → ¬ s.Names j r)
    (hbefore : l.Pairwise fun a b => b = i → r = ⟨0, 0⟩ → s.Used a) : s'.Catalog dev := by
  have huse : ∀ j ≠ i, (s'.Used j ↔ s.Used j) := fun j hj => by
    unfold Used
    rw [hother j hj]
  have hne : ∀ j < nbuf, j ≠ i → s'.Used j → (s'.buf j).blockno ≠ (s'.buf i).blockno := by
    intro j hj hji huj e
    have hus := (huse j hji).1 huj
    rw [hother j hji, hname.2] at e
    refine hno j hj hji hus ⟨?_, e⟩
    rw [(h.named j hj hus).1, e, hr.1]
  refine ⟨fun j hj hf => ?_, fun j hj huj => ?_, fun j hj k hk huj huk e => ?_, l, ?_⟩
  · have hji : j ≠ i := by
      rintro rfl
      exact hf hu
    unfold Names
    rw [hother j hji]
    exact h.fresh j hj (mt (huse j hji).2 hf)
  · by_cases hji : j = i
    · rw [hji, hname.1, hname.2]
      exact hr
    · rw [hother j hji]
      exact h.named j hj ((huse j hji).1 huj)
  · by_cases hji : j = i <;> by_cases hki : k = i
    · rw [hji, hki]
    · rw [hji] at e
      exact absurd e.symm (hne k hk hki huk)
    · rw [hki] at e
      exact absurd e (hne j hj hji huj)
    · rw [hother j hji, hother k hki] at e
      exact h.inj j hj k hk ((huse j hji).1 huj) ((huse k hki).1 huk) e
  · refine ⟨hlinks ▸ hl.loop, hl.perm, (hl.fresh.and hbefore).imp fun {a b} hab ha hb hub => ?_⟩
    have hai : a ≠ i := by
      rintro rfl
      exact ha hu
    have hua := mt (huse a hai).2 ha
    by_cases hbi : b = i
    · subst hbi
      exact hua (hab.2 rfl (hname.unique hb))
    · refine hab.1 hua ?_ ((huse b hbi).1 hub)
      unfold Names at hb ⊢
      rwa [hother b hbi] at hb

/-- The first loop of `bget` finds a buffer. -/
theorem Sound.hit (hi : s.Sound dev) (hl : s.Order l) (hpc : s.pc t = .bget r)
    (hf : (l.find? fun i => decide ((s.buf i).dev = r.dev ∧ (s.buf i).blockno = r.blockno)) =
      some i) :
    ((s.setBuf i fun b => { b with refcnt := b.refcnt + 1 }).goto t (.lock r i)).Sound dev := by
  obtain ⟨ht, hr⟩ := hi.here hpc nofun
  have hname : s.Names i r := by simpa [Names] using find?_some hf
  have hn : i < nbuf := hl.mem.1 (mem_of_find?_eq_some hf)
  have hnd := (nodup_cons.1 hl.loop.nodup).2
  have hlt := hi.refcnt_lt i
  have hplus : (s.buf i).refcnt + 1 ≠ 0 := by
    intro e
    have := toNat_add_one hlt
    rw [e] at this
    cases this
  -- if the buffer was never used, no other one is in use for block 0 of device 0
  have hfresh : ¬ s.Used i → r = ⟨0, 0⟩ ∧ ∀ j < nbuf, s.Used j → ¬ s.Names j r := by
    intro hu
    obtain ⟨h0d, h0b⟩ := hi.catalog.fresh i hn hu
    have hr0 : r = ⟨0, 0⟩ := hname.unique ⟨h0d, h0b⟩
    refine ⟨hr0, fun j hj huj hnj => ?_⟩
    obtain ⟨-, l₁, l₂, rfl, hbefore⟩ := find?_eq_some_iff_append.1 hf
    rcases mem_append.1 (hl.mem.2 hj) with hm | hm
    · have := hbefore j hm
      rw [Bool.not_eq_true', decide_eq_false_iff_not] at this
      exact this hnj
    · rcases mem_cons.1 hm with rfl | hm
      · exact hu huj
      · have := (pairwise_append.1 hl.fresh).2.1
        exact (pairwise_cons.1 this).1 j hm hu (hr0 ▸ hnj) huj
  refine hi.recount ht hn rfl rfl rfl (fun u hu => update_of_ne hu ..) (fun _ _ => rfl)
    ?_ ?_ ?_ (hi.bound i) (fun h => (hi.pinned i h).2) ?_ ?_ ?_
  · rw [toNat_add_one hlt]
    simp [hpc, Refs]
  · intro j hj
    simp [hpc, Refs, hj.symm]
  · simp [hpc, Reads]
  · intro hv _
    by_cases hu : s.Used i
    · exact hi.cold i hn hv hu
    · cases hleft : s.left (s.buf i).blockno with
      | none => rfl
      | some d =>
        obtain ⟨j, hj, hvj, hbj⟩ := hi.warm _ d hleft
        have huj : s.Used j := .inl hvj
        refine absurd ⟨?_, hbj.trans hname.2⟩ ((hfresh hu).2 j hj huj)
        rw [(hi.catalog.named j hj huj).1, hbj, hname.2, hr.1]
  · by_cases hu : s.Used i
    · exact hi.catalog.recount rfl rfl hu (.inr hplus)
    · obtain ⟨hr0, hno⟩ := hfresh hu
      refine hi.catalog.claim hl hn hr (by simpa [Names] using hname) (.inr (by simpa using hplus))
        (fun j hj => update_of_ne hj ..) rfl (fun j hj _ => hno j hj) ?_
      · refine (pairwise_find? hnd hf).imp_of_mem fun {a b} ha _ hab e _ => ?_
        by_contra hua
        have := hab e
        rw [decide_eq_false_iff_not] at this
        exact this (hr0 ▸ hi.catalog.fresh a (hl.mem.1 ha) hua)
  · simpa [At, Names] using ⟨hn, hname⟩

/-- The second loop of `bget` finds a buffer. -/
theorem Sound.recycle (hi : s.Sound dev) (hl : s.Order l) (hpc : s.pc t = .bget r)
    (hf : (l.find? fun i => decide ((s.buf i).dev = r.dev ∧ (s.buf i).blockno = r.blockno)) = none)
    (hg : (l.reverse.find? fun i => decide ((s.buf i).refcnt = 0)) = some i) :
    ((s.recycle r i).goto t (.lock r i)).Sound dev := by
  obtain ⟨ht, hr⟩ := hi.here hpc nofun
  have hn : i < nbuf := hl.mem.1 (mem_reverse.1 (mem_of_find?_eq_some hg))
  have hzero : (s.buf i).refcnt = 0 := by simpa using find?_some hg
  have hmiss : ∀ j < nbuf, ¬ s.Names j r := fun j hj hname =>
    find?_eq_none.1 hf j (hl.mem.2 hj) (decide_eq_true hname)
  have hrefs0 : s.refs i = 0 := by
    have := hi.count i
    rw [hzero] at this
    exact this.symm
  have hlock : (s.buf i).lock = none := by
    by_contra h
    have := refs_of_lock h
    omega
  have hpins : s.pins i = 0 := by
    by_contra h
    have := refs_of_pin (pos_of_ne_zero h)
    omega
  have hrefs : ∀ u, ¬ (s.pc u).Refs i := fun u h => hi.refcnt_of_pc h hzero
  have hself : ((s.recycle r i).goto t (.lock r i)).buf i = { s.buf i with
      dev := r.dev, blockno := r.blockno, valid := false, refcnt := 1 } := update_self ..
  -- what was left for the old block is forgotten
  have hleft : ∀ k, ((s.recycle r i).goto t (.lock r i)).left k = s.left k ∧
      ¬ ((s.buf i).valid = true ∧ (s.buf i).blockno = k) ∨
      ((s.recycle r i).goto t (.lock r i)).left k = none ∧ s.Used i ∧ k = (s.buf i).blockno := by
    intro k
    change (if (s.buf i).valid then update s.left (s.buf i).blockno none else s.left) k = _ ∧ _ ∨
      (if (s.buf i).valid then update s.left (s.buf i).blockno none else s.left) k = _ ∧ _
    split
    case isTrue hv =>
      rcases eq_or_ne k (s.buf i).blockno with rfl | hk
      · exact .inr ⟨update_self .., .inl hv, rfl⟩
      · exact .inl ⟨update_of_ne hk .., fun h => hk h.2.symm⟩
    case isFalse hv => exact .inl ⟨rfl, fun h => hv h.1⟩
  refine hi.change (i := i) ht hn rfl (fun u hu => update_of_ne hu ..) (fun _ _ => rfl)
    (fun k => (hleft k).imp (fun h => h.1) fun h => h.2) (fun _ => .inl rfl) ?_ ?_ ?_
    (fun j hj => by simp [hpc, Refs, hj.symm]) (by simp [hpc, Reads]) (hi.bound i)
    (fun u _ h => absurd h (hrefs u)) (by simp [hlock]) (by simp [hlock])
    (fun h => absurd hpins (Nat.ne_of_gt h)) nofun (fun _ _ => ?_) fun k d hk => ?_
  · refine hi.catalog.claim hl hn hr ?_ (.inr ?_) (fun j hj => update_of_ne hj ..) rfl
      (fun j hj _ _ => hmiss j hj) ?_
    · simp [Names, hself]
    · simp [hself]
    · refine hl.fresh.imp_of_mem fun {a b} ha _ _ _ hr0 => ?_
      by_contra hua
      exact hmiss a (hl.mem.1 ha) (hr0 ▸ hi.catalog.fresh a (hl.mem.1 ha) hua)
  · simpa [At, Names, hself] using hn
  · change ((1 : BitVec 32).toNat : ℤ) = _ + _ - _ + _ - _ + (s.pins i : ℤ) - s.pins i
    simp [hzero, hpc, Refs]
  · -- the block of the request is not in the cache
    dsimp only
    cases hb : ((s.recycle r i).goto t (.lock r i)).left r.blockno with
    | none => rfl
    | some d =>
      obtain ⟨h, -⟩ | ⟨h, -⟩ := hleft r.blockno
      · obtain ⟨k, hk, hvk, hbk⟩ := hi.warm _ d (h.symm.trans hb)
        refine absurd ⟨?_, hbk⟩ (hmiss k hk)
        rw [(hi.catalog.named k hk (.inl hvk)).1, hbk, hr.1]
      · cases h.symm.trans hb
  · obtain ⟨h, hne⟩ | ⟨h, -⟩ := hleft k
    · exact .inr ⟨h.symm.trans hk, hne⟩
    · cases h.symm.trans hk

/-- The names of the buffers in use stay. -/
def Keeps (s s' : Bcache D) : Prop :=
  ∀ i, (s.buf i).refcnt ≠ 0 →
    (s'.buf i).dev = (s.buf i).dev ∧ (s'.buf i).blockno = (s.buf i).blockno

theorem keeps_update (hbuf : s'.buf = update s.buf i b)
    (hname : b.dev = (s.buf i).dev ∧ b.blockno = (s.buf i).blockno) : s.Keeps s' := by
  intro j _
  rw [hbuf]
  by_cases hj : j = i
  · rw [hj, update_self]
    exact hname
  · rw [update_of_ne hj]
    exact ⟨rfl, rfl⟩

theorem keeps_of_eq (hbuf : s'.buf = s.buf) : s.Keeps s' := by
  intro j _
  rw [hbuf]
  exact ⟨rfl, rfl⟩

theorem bget_spec (hi : s.Sound dev) (hpc : s.pc t = .bget r) :
    (∃ s', bget t r s = .ok ((), s') ∧ s'.Sound dev ∧
      s.Keeps s') ∨ bget t r s = .error .noBuffers := by
  obtain ⟨l, hl⟩ := hi.catalog.listed
  have h1 := hl.findCached r
  have h2 := hl.findUnused
  cases hf : l.find? fun i => decide ((s.buf i).dev = r.dev ∧ (s.buf i).blockno = r.blockno) with
  | some i =>
    rw [hf] at h1
    refine .inl ⟨_, ?_, hi.hit hl hpc hf, keeps_update (i := i) rfl ⟨rfl, rfl⟩⟩
    simp only [bget, Run.bind_read, h1]
    rfl
  | none =>
    rw [hf] at h1
    cases hg : l.reverse.find? fun i => decide ((s.buf i).refcnt = 0) with
    | some i =>
      rw [hg] at h2
      refine .inl ⟨_, ?_, hi.recycle hl hpc hf hg, fun j hne => ?_⟩
      · simp only [bget, Run.bind_read, h1, h2]
        rfl
      · have hzero : (s.buf i).refcnt = 0 := by simpa using find?_some hg
        have hj : j ≠ i := by
          rintro rfl
          exact hne hzero
        have : ((s.recycle r i).goto t (.lock r i)).buf j = s.buf j := update_of_ne hj ..
        rw [this]
        exact ⟨rfl, rfl⟩
    | none =>
      rw [hg] at h2
      right
      simp only [bget, Run.bind_read, h1, h2]
      rfl

/-! ### Steps of the holder -/

/-- A process moves, and nothing else changes. -/
theorem Sound.move (hi : s.Sound dev) (ht : t < nproc)
    (hrefs : ∀ j, pc.Refs j ↔ (s.pc t).Refs j) (hreads : ∀ j, ¬ (s.pc t).Reads j)
    (hpos : s.At dev t pc) : (s.goto t pc).Sound dev := by
  refine hi.recount (n := (s.buf 0).refcnt) ht (by decide : 0 < nbuf) (update_eq_self 0 s.buf).symm
    rfl rfl (fun u hu => update_of_ne hu ..) (fun _ _ => rfl) ?_ (fun j _ => by simp [hrefs]) hreads
    (hi.bound 0) (fun h => (hi.pinned 0 h).2) (fun hv hu => hi.cold 0 (by decide) hv hu)
    (hi.catalog.congr (fun _ => rfl) (fun _ => rfl) (fun _ => Iff.rfl) rfl) ?_
  · have : ind (pc.Refs 0) = ind ((s.pc t).Refs 0) := if_congr (hrefs 0) rfl rfl
    simp [this]
  · rw [goto_pc_self]
    exact hpos.frame (fun _ _ => ⟨rfl, rfl, id⟩) fun _ _ => ⟨rfl, rfl, rfl, rfl, rfl, rfl, rfl⟩

/-- A process changes a buffer in use that no other process holds, and the data that is on the disk
or was left in the cache for its block. -/
theorem Sound.hold (hi : s.Sound dev) (ht : t < nproc) (hn : i < nbuf)
    (hbuf : s'.buf = update s.buf i b) (hlinks : s'.links = s.links)
    (hpins : s'.pins = s.pins) (hpc : ∀ u ≠ t, s'.pc u = s.pc u)
    (hname : b.dev = (s.buf i).dev ∧ b.blockno = (s.buf i).blockno)
    (hcnt : b.refcnt = (s.buf i).refcnt) (hne : (s.buf i).refcnt ≠ 0)
    (hvalid : (s.buf i).valid = true → b.valid = true)
    (hmine : ∀ u, (s.buf i).lock = some u → u = t) (hmine' : ∀ u, b.lock = some u → u = t)
    (hleft : ∀ k ≠ (s.buf i).blockno, s'.left k = s.left k)
    (hdisk : ∀ k ≠ (s.buf i).blockno, s'.disk k = s.disk k)
    (hrefs : ind (b.lock ≠ none) + ind ((s'.pc t).Refs i) =
      ind ((s.buf i).lock ≠ none) + ind ((s.pc t).Refs i))
    (hrefs' : ∀ j ≠ i, ((s'.pc t).Refs j ↔ (s.pc t).Refs j))
    (hreads : ∀ j, (s.pc t).Reads j → j = i)
    (hlocked : b.lock = some t → b.valid = true ∨ (s'.pc t).Reads i)
    (hkept : b.lock = none → b.valid = true → s'.left (s.buf i).blockno = some b.data)
    (hcold : b.valid = false → s'.left (s.buf i).blockno = none)
    (hpos : s'.At dev t (s'.pc t)) : s'.Sound dev := by
  have hself : s'.buf i = b := hbuf ▸ update_self ..
  have hother : ∀ j ≠ i, s'.buf j = s.buf j := fun j hj => hbuf ▸ update_of_ne hj ..
  have hat : ∀ k, k ≠ (s.buf i).blockno ∨ s.Used i ∧ k = (s.buf i).blockno := fun k =>
    (ne_or_eq k _).imp_right fun hk => ⟨.inr hne, hk⟩
  refine hi.change ht hn hbuf hpc (fun j _ => by rw [hpins]) (fun k => (hat k).imp_left (hleft k))
    (fun k => (hat k).imp_left (hdisk k)) (hi.catalog.congr (fun j => ?_) (fun j => ?_)
      (fun j => ?_) hlinks) hpos
    (by rw [hcnt, hpins]; omega) hrefs' (fun j hj hr => hj (hreads j hr))
    (by rw [hpins]; exact hi.bound i) (fun _ _ _ => ⟨hname.1, hname.2, hvalid⟩)
    (fun u hu hl => absurd (hmine u hl) hu) (fun u hl => ?_)
    (fun h => hvalid (hi.pinned i (hpins ▸ h)).2) (by rwa [hname.2])
    (fun hv _ => by rw [hname.2]; exact hcold hv) fun k d hk => ?_
  · rcases eq_or_ne j i with rfl | hj
    · rw [hself, hname.1]
    · rw [hother j hj]
  · rcases eq_or_ne j i with rfl | hj
    · rw [hself, hname.2]
    · rw [hother j hj]
  · unfold Used
    rcases eq_or_ne j i with rfl | hj
    · rw [hself, hcnt]
      exact iff_of_true (.inr hne) (.inr hne)
    · rw [hother j hj]
  · obtain rfl := hmine' u hl
    exact hlocked hl
  · by_cases hb : k = (s.buf i).blockno
    · refine .inl ⟨?_, hname.2.trans hb.symm⟩
      by_contra h
      rw [hb, hcold (Bool.eq_false_iff.2 h)] at hk
      cases hk
    · exact .inr ⟨hleft k hb ▸ hk, fun h => hb h.2.symm⟩

/-- The process that holds a buffer and is in no call: the buffer has data. -/
theorem Sound.holds (hi : s.Sound dev) (h : Holds s t i) :
    i < nbuf ∧ (s.buf i).valid = true ∧ (s.buf i).refcnt ≠ 0 ∧ (s.buf i).blockno < 2 ^ 31 := by
  obtain ⟨-, hpc, hl⟩ := h
  obtain ⟨hn, hor⟩ := hi.locked i t hl
  have hv : (s.buf i).valid = true := by simpa [hpc, Reads] using hor
  exact ⟨hn, hv, hi.refcnt_of_lock hl, (hi.catalog.named i hn (.inl hv)).2⟩

theorem lock_mine {u : ℕ} {l : Option ℕ} (h : l = some t) (hu : l = some u) : u = t := by
  rw [h] at hu
  exact (Option.some.inj hu).symm

section

variable (hi : s.Sound dev)
include hi

theorem Sound.modify (hold : Holds s t i) (data : D) :
    (s.setBuf i fun b => { b with data }).Sound dev := by
  obtain ⟨hn, hv, hne, -⟩ := hi.holds hold
  obtain ⟨ht, hpc, hl⟩ := hold
  refine hi.hold ht hn rfl rfl rfl (fun _ _ => rfl) ⟨rfl, rfl⟩ rfl hne id (fun u => lock_mine hl)
    (fun u => lock_mine hl) (fun _ _ => rfl) (fun _ _ => rfl) rfl (fun _ _ => Iff.rfl)
    (by simp [hpc, Reads]) (fun _ => .inl hv) (by simp [hl]) (by simp [hv]) ?_
  change At dev _ t (s.pc t)
  rw [hpc]
  trivial

theorem Sound.released (hold : Holds s t i) : (s.released t i).Sound dev := by
  obtain ⟨hn, hv, hne, -⟩ := hi.holds hold
  obtain ⟨ht, hpc, hl⟩ := hold
  have hthread : (s.released t i).pc t = .release i := update_self ..
  have hself : (s.released t i).buf i = { s.buf i with lock := none } := update_self ..
  refine hi.hold ht hn rfl rfl rfl (fun u hu => update_of_ne hu ..) ⟨rfl, rfl⟩ rfl hne id
    (fun u => lock_mine hl) nofun (fun k hk => update_of_ne hk ..) (fun _ _ => rfl) ?_ ?_ ?_ nofun
    (fun _ _ => update_self ..) (by simp [hv]) ?_
  · simp [hthread, hpc, hl, Refs]
  · intro j hj
    simp [hthread, hpc, Refs, hj.symm]
  · simp [hpc, Reads]
  · simpa [hthread, At, hself] using ⟨hn, hv⟩

theorem Sound.acquired (hpc : s.pc t = .lock r i)
    (hl : (s.buf i).lock = none) : (s.acquired t r i).Sound dev := by
  obtain ⟨ht, hn, hname⟩ := hi.here hpc nofun
  have hne : (s.buf i).refcnt ≠ 0 := hi.refcnt_of_pc (t := t) (by simp [hpc, Refs])
  have hself : (s.acquired t r i).buf i = { s.buf i with lock := some t } := update_self ..
  have hthread : (s.acquired t r i).pc t =
      if (s.buf i).valid then .returned r i else .read r i (diskPlace (s.buf i).blockno) :=
    update_self ..
  have hno : ∀ j, ¬ ((s.acquired t r i).pc t).Refs j := by
    intro j
    rw [hthread]
    split <;> exact id
  refine hi.hold ht hn rfl rfl rfl (fun u hu => update_of_ne hu ..) ⟨rfl, rfl⟩ rfl hne id
    (by simp [hl]) (fun u h => (Option.some.inj h).symm) (fun _ _ => rfl) (fun _ _ => rfl) ?_ ?_
    (by simp [hpc, Reads]) ?_ nofun (fun h => hi.cold i hn h (.inr hne)) ?_
  · rw [ind_false (hno i), hpc, hl]
    simp [Refs]
  · intro j hj
    rw [hpc]
    exact iff_of_false (hno j) hj.symm
  · intro _
    rw [hthread]
    split
    · exact .inl (by assumption)
    · exact .inr rfl
  · rw [hthread]
    cases hv : (s.buf i).valid with
    | true =>
      have hleft := hi.kept i hn hl hv
      rw [hname.2] at hleft
      refine ⟨by simpa [Names, hself] using hname, by simp [hself], by simpa [hself] using hv, ?_⟩
      rw [hself]
      change _ = (s.left r.blockno).getD _
      rw [hleft]
      rfl
    | false =>
      refine ⟨by simpa [Names, hself] using hname, by simp [hself], by simpa [hself] using hv, ?_⟩
      rw [diskPlace_eq (hi.catalog.named i hn (.inr hne)).2]
      exact hname.2

theorem Sound.fill (hpc : s.pc t = .read r i place) :
    ((s.setBuf i fun b => { b with data := s.disk place }).goto t (.filled r i)).Sound dev := by
  obtain ⟨ht, hname, hl, hv, rfl⟩ := hi.here hpc nofun
  have hne := hi.refcnt_of_lock hl
  have hn := (hi.locked i t hl).1
  refine hi.hold ht hn rfl rfl rfl (fun u hu => update_of_ne hu ..) ⟨rfl, rfl⟩ rfl hne id
    (fun u => lock_mine hl) (fun u => lock_mine hl) (fun _ _ => rfl) (fun _ _ => rfl)
    (by simp [hpc, Refs]) (by simp [hpc, Refs]) (by simp [hpc, Reads, eq_comm])
    (by simp [Reads]) (by simp [hl])
    (fun h => hi.cold i hn h (.inr hne)) ?_
  simpa [At, Names] using ⟨hname, hl, hv, rfl⟩

/-- `b->valid = 1`. -/
theorem Sound.validate (hpc : s.pc t = .filled r i) :
    ((s.setBuf i fun b => { b with valid := true }).goto t (.returned r i)).Sound dev := by
  obtain ⟨ht, hname, hl, hv, hd⟩ := hi.here hpc nofun
  have hne := hi.refcnt_of_lock hl
  have hn := (hi.locked i t hl).1
  refine hi.hold ht hn rfl rfl rfl (fun u hu => update_of_ne hu ..) ⟨rfl, rfl⟩ rfl hne
    (fun _ => rfl) (fun u => lock_mine hl) (fun u => lock_mine hl) (fun _ _ => rfl)
    (fun _ _ => rfl) (by simp [hpc, Refs]) (by simp [hpc, Refs])
    (by simp [hpc, Reads, eq_comm]) (fun _ => .inl rfl) (by simp [hl]) nofun ?_
  have hcold := hi.cold i hn hv (.inr hne)
  rw [hname.2] at hcold
  have hdata : (s.buf i).data = (s.left r.blockno).getD (s.disk r.blockno) := by
    rw [hcold, hd]
    rfl
  simpa [At, Names] using ⟨hname, hl, hdata⟩

theorem Sound.store (hpc : s.pc t = .write i place) :
    ({ s.goto t .idle with
      disk := update s.disk place (s.buf i).data } : Bcache D).Sound dev := by
  obtain ⟨ht, hl, hv, rfl⟩ := hi.here hpc nofun
  have hne := hi.refcnt_of_lock hl
  have hn := (hi.locked i t hl).1
  exact hi.hold (b := s.buf i) ht hn (update_eq_self i s.buf).symm rfl rfl
    (fun u hu => update_of_ne hu ..) ⟨rfl, rfl⟩ rfl hne id (fun u => lock_mine hl)
    (fun u => lock_mine hl) (fun _ _ => rfl) (fun k hk => update_of_ne hk ..)
    (by simp [hpc, Refs]) (by simp [hpc, Refs]) (by simp [hpc, Reads])
    (fun _ => .inl hv) (by simp [hl]) (by simp [hv]) (by simp [At])

/-! ### Runs -/

theorem step_spec (ht : t < nproc) (hr : s.Ready t) :
    (∃ s', step t s = .ok ((), s') ∧ s'.Sound dev ∧ s.Keeps s') ∨ step t s = .error .noBuffers := by
  unfold Ready at hr
  cases hpc : s.pc t with
  | idle =>
    rw [hpc] at hr
    exact hr.elim
  | bget r =>
    have hstep : step t s = bget t r s := by
      simp only [step, Run.bind_read, hpc]
    rw [hstep]
    exact bget_spec hi hpc
  | lock r i =>
    rw [hpc] at hr
    refine .inl ⟨_, ?_, hi.acquired hpc hr, keeps_update (i := i) rfl ⟨rfl, rfl⟩⟩
    simp only [step, Run.bind_read, hpc]
    rfl
  | read r i place =>
    refine .inl ⟨_, ?_, hi.fill hpc, keeps_update (i := i) rfl ⟨rfl, rfl⟩⟩
    simp only [step, Run.bind_read, hpc]
    rfl
  | filled r i =>
    refine .inl ⟨_, ?_, hi.validate hpc, keeps_update (i := i) rfl ⟨rfl, rfl⟩⟩
    simp only [step, Run.bind_read, hpc]
    rfl
  | returned r i =>
    have hmove : (s.goto t .idle).Sound dev :=
      hi.move ht (by simp [hpc, Refs]) (by simp [hpc, Reads]) trivial
    refine .inl ⟨_, ?_, hmove, keeps_of_eq rfl⟩
    simp only [step, Run.bind_read, hpc]
    rfl
  | write i place =>
    refine .inl ⟨_, ?_, hi.store hpc, keeps_of_eq rfl⟩
    simp only [step, Run.bind_read, hpc]
    rfl
  | release i =>
    refine .inl ⟨_, ?_, hi.brelse hpc, keeps_update (i := i)
      (b := { s.buf i with refcnt := (s.buf i).refcnt - 1 }) ?_ ⟨rfl, rfl⟩⟩
    · simp only [step, Run.bind_read, hpc]
      rfl
    · unfold Bcache.brelse
      dsimp only
      split <;> rfl

/-- **One event.**  It returns and keeps the invariant and the names of the buffers in use, or it
is a `bget` that finds no buffer. -/
theorem Sound.next {e : BcEvent D} (hok : e.Ok dev s) :
    (∃ s', e.run s = .ok ((), s') ∧ s'.Sound dev ∧ s.Keeps s') ∨ e.run s = .error .noBuffers := by
  cases e with
  | bread t r =>
    obtain ⟨ht, hpc, hr⟩ := hok
    have hmove : (s.goto t (.bget r)).Sound dev :=
      hi.move ht (by simp [hpc, Refs]) (by simp [hpc, Reads]) hr
    exact .inl ⟨_, rfl, hmove, keeps_of_eq rfl⟩
  | modify t i data => exact .inl ⟨_, rfl, hi.modify hok data, keeps_update (i := i) rfl ⟨rfl, rfl⟩⟩
  | bwrite t i =>
    obtain ⟨-, hv, -, hb⟩ := hi.holds hok
    obtain ⟨ht, hpc, hl⟩ := hok
    have hmove : (s.goto t (.write i (diskPlace (s.buf i).blockno))).Sound dev :=
      hi.move ht (by simp [hpc, Refs]) (by simp [hpc, Reads]) ⟨hl, hv, diskPlace_eq hb⟩
    refine .inl ⟨_, ?_, hmove, keeps_of_eq rfl⟩
    simp only [run, bwrite, Run.bind_read, hl, ne_eq, not_true_eq_false, if_false]
    rfl
  | brelse t i =>
    refine .inl ⟨_, ?_, hi.released hok, keeps_update (i := i) rfl ⟨rfl, rfl⟩⟩
    simp only [run, brelseCall, Run.bind_read, hok.2.2, ne_eq, not_true_eq_false, if_false]
    rfl
  | bpin t i => exact .inl ⟨_, rfl, hi.bpin hok.1 hok.2, keeps_update (i := i) rfl ⟨rfl, rfl⟩⟩
  | bunpin t i =>
    exact .inl ⟨_, rfl, hi.bunpin hok.1 hok.2.1 hok.2.2, keeps_update (i := i) rfl ⟨rfl, rfl⟩⟩
  | step t => exact step_spec hi hok.1 hok.2

end

theorem binit_sound (disk : ℕ → D) (zero : D) : (binit disk zero).Sound dev := by
  have hfresh : ∀ i, ¬ (binit disk zero).Used i := by
    rintro i (h | h)
    · cases h
    · exact h rfl
  refine ⟨⟨fun _ _ _ => ⟨rfl, rfl⟩, fun i _ h => absurd h (hfresh i),
    fun i _ _ _ h => absurd h (hfresh i), (List.range nbuf).reverse, ?_, List.reverse_perm _, ?_⟩,
    fun i => ?_, fun _ => zero_le _, fun _ _ => rfl, fun _ => trivial, nofun, nofun, nofun,
    fun i _ _ h => absurd h (hfresh i), nofun⟩
  · have hnil : (⟨fun _ => bhead, fun _ => bhead⟩ : Links ℕ).Loop bhead [] :=
      ⟨nodup_singleton _, rfl, rfl⟩
    have := hnil.foldl_push (m := range nbuf) nodup_range
      (fun h => Nat.lt_irrefl _ (List.mem_range.1 h)) fun _ _ => List.not_mem_nil
    rwa [append_nil] at this
  · exact pairwise_of_forall fun _ b _ _ => hfresh b
  · have htally : tally (range nproc)
        (fun t => ((binit disk zero).pc t).Refs i) = 0 := tally_eq_zero fun _ _ => id
    rw [refs, htally]
    rfl

theorem sound_of_reachable (h : (bcache D dev).Reachable s) : s.Sound dev := by
  refine h.invariant ?_ ?_
  · rintro s ⟨disk, zero, rfl⟩
    exact binit_sound disk zero
  · rintro s e s' hi ⟨hok, hs⟩
    change e.run s = _ at hs
    rcases hi.next hok with ⟨t, hrun, ht, -⟩ | hrun
    · rw [hrun] at hs
      cases hs
      exact ht
    · rw [hrun] at hs
      cases hs

/-! ### The main result -/

/-- What the buffer cache guarantees. -/
structure Refines (dev : ℕ → ℕ) (s : Bcache D) : Prop where
  /-- The links form one circle of the head and each buffer once. -/
  ring : ∃ l, s.links.Loop bhead l ∧ l.Perm (range nbuf)
  /-- No two buffers that are valid or in use have the same block. -/
  unique : ∀ i < nbuf, ∀ j < nbuf, s.Used i → s.Used j → (s.buf i).dev = (s.buf j).dev →
    (s.buf i).blockno = (s.buf j).blockno → i = j
  /-- A buffer that is held, waited for or pinned has a count that is not zero ... -/
  counted : ∀ i, ((s.buf i).lock ≠ none ∨ (∃ t, (s.pc t).Refs i) ∨ 0 < s.pins i) →
    (s.buf i).refcnt ≠ 0
  /-- ... and whatever happens next, it keeps its block. -/
  stable : ∀ (e : BcEvent D) s', e.Ok dev s → e.run s = .ok ((), s') → s.Keeps s'
  /-- When `bread` returns, the process holds a buffer of the block with the data last left in the
  cache, or else with that of the disk. -/
  returns : ∀ t r i, s.pc t = .returned r i → s.Names i r ∧ (s.buf i).lock = some t ∧
    (s.buf i).data = (s.left r.blockno).getD (s.disk r.blockno)
  /-- The only panic is that of a `bget` with all buffers in use. -/
  safe : ∀ e : BcEvent D, e.Ok dev s → (∃ s', e.run s = .ok ((), s')) ∨
    e.run s = .error .noBuffers

/-- **The buffer cache refines the disk**, in every state that the processes reach. -/
theorem cache_refines (h : (bcache D dev).Reachable s) : s.Refines dev := by
  have hi := sound_of_reachable h
  refine ⟨?_, ?_, ?_, ?_, ?_, ?_⟩
  · obtain ⟨l, hl⟩ := hi.catalog.listed
    exact ⟨l, hl.loop, hl.perm⟩
  · intro i hi' j hj hui huj _ hb
    exact hi.catalog.inj i hi' j hj hui huj hb
  · rintro i (hl | ⟨t, ht⟩ | hp)
    · exact hi.refcnt_ne (refs_of_lock hl)
    · exact hi.refcnt_of_pc ht
    · exact hi.refcnt_ne (refs_of_pin hp)
  · intro e s' hok hs
    rcases hi.next hok with ⟨t, hrun, -, hk⟩ | hrun
    · rw [hrun] at hs
      cases hs
      exact hk
    · rw [hrun] at hs
      cases hs
  · intro t r i hpc
    have hpos := hi.pos t
    rw [hpc] at hpos
    obtain ⟨hname, hl, -, hd⟩ := hpos
    exact ⟨hname, hl, hd⟩
  · intro e hok
    exact (hi.next hok).imp_left fun ⟨s', hrun, _⟩ => ⟨s', hrun⟩

/-- One process changes a block and releases it, and another one gets the change. -/
theorem cache_refines_changed : ∃ s, (bcache ℕ fun _ => 1).Reachable s ∧
    s.Refines (fun _ => 1) ∧ s.pc 1 = .returned ⟨1, 7⟩ 0 ∧ (s.buf 0).data = 5 ∧ s.disk 7 = 0 := by
  obtain ⟨s, hs, ht⟩ := Machine.Reachable.test (M := bcache ℕ fun _ => 1)
    (fun e s => of_decide_eq_true (p := e.Ok (fun _ => 1) s)) (.init ⟨fun _ => 0, 0, rfl⟩)
    [.bread 0 ⟨1, 7⟩, .step 0, .step 0, .step 0, .step 0, .step 0, .modify 0 0 5, .bread 1 ⟨1, 7⟩,
      .step 1, .brelse 0 0, .step 1]
    (t := fun s => decide (s.pc 1 = .returned ⟨1, 7⟩ 0 ∧ (s.buf 0).data = 5 ∧ s.disk 7 = 0))
    (by decide +kernel)
  exact ⟨s, hs, cache_refines hs, of_decide_eq_true ht⟩

end Bcache

end Xv6Swap
