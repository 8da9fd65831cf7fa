import Xv6Swap.Spec.Blocks

/-!
# The block allocator

What `balloc` does to the disk, and the vocabulary for programs that work on one inode:

* `Fs.Moves k s s'` : nothing has changed but blocks, the log and the copy of the disk inode in the
  entry `k` of `itable`;
* `Fs.logWrite_spec`, `Fs.bzero_spec` : a block is replaced, unless the log stops the call
  (`Fs.LogStop`);
* `Fs.balloc_spec` : **a free block is marked and zeroed**, or there is none below the swap area.
-/

namespace Xv6Swap

open Function Nat List

namespace Superblock

variable (sb : Superblock) {b i : ℕ}

/-- The blocks below are those that `balloc` may hand out. -/
def limit : ℕ := min swapbase sb.size

theorem limit_le : sb.limit ≤ swapbase := min_le_left ..

theorem bmapstart_le_bblock (b : ℕ) : sb.bmapstart ≤ sb.bblock b := Nat.le_add_left ..

theorem bblock_lt (h : b < sb.limit) : sb.bblock b < sb.nmeta := by
  have hsize : b ≤ sb.size := (lt_of_lt_of_le h (min_le_right ..)).le
  have hdiv : b / bpb ≤ sb.size / bpb := Nat.div_le_div_right hsize
  have hmeta := sb.nmeta_ge
  rw [bblock]
  omega

theorem iblock_lt (h : i < sb.ninodes) : sb.iblock i < sb.bmapstart := by
  have hdiv : i / ipb ≤ sb.ninodes / ipb := Nat.div_le_div_right h.le
  have hmap := sb.bmapstart_ge
  rw [iblock]
  omega

theorem bmapstart_lt : sb.bmapstart < sb.nmeta :=
  Nat.lt_of_lt_of_le (Nat.lt_add_of_pos_right (Nat.succ_pos _)) sb.nmeta_ge

theorem nmeta_pos : 0 < sb.nmeta := lt_of_le_of_lt (zero_le _) sb.bmapstart_lt

theorem iblock_lt_swapbase (h : i < sb.ninodes) : sb.iblock i < swapbase :=
  (sb.iblock_lt h).trans (lt_of_lt_of_le sb.bmapstart_lt sb.nmeta_le)

theorem bblock_lt_swapbase (h : b < sb.limit) : sb.bblock b < swapbase :=
  lt_of_lt_of_le (sb.bblock_lt h) sb.nmeta_le

end Superblock

namespace Fs

open Run

variable {sb : Superblock} {s s' s'' : Fs} {b c k bi : ℕ} {data : Mem}

/-! ### One block at a time -/

/-- The stops of the log. -/
def LogStop (e : FsStop) : Prop := e = .panic .tooBig ∨ e = .panic .outsideOfTrans

/-- The buffer of a block is locked. -/
def reading (s : Fs) (b : ℕ) : Fs := { s with held := b :: s.held, touched := b :: s.touched }

/-- A block has been read. -/
def saw (s : Fs) (b : ℕ) : Fs := { s with touched := b :: s.touched }

/-- A block has been replaced in the log. -/
def logged (s : Fs) (b : ℕ) (data : Mem) : Fs :=
  { s with disk := update s.disk b data, lh := if b ∈ s.lh then s.lh else s.lh ++ [b] }

/-- A block has been read and replaced. -/
def wrote (s : Fs) (b : ℕ) (data : Mem) : Fs := (s.saw b).logged b data

theorem bread_ok (h : b ∉ s.held) : bread b s = .ok (s.disk b, s.reading b) := by
  rw [bread, bind_read, id, if_neg h]
  rfl

theorem bread_held (h : b ∈ s.held) : bread b s = .error .deadlock := by
  rw [bread, bind_read, id, if_pos h]
  rfl

theorem brelse_reading : brelse b (s.reading b) = .ok ((), s.saw b) := by
  rw [brelse, modify_apply, reading]
  simp only [erase_cons_head]
  rfl

theorem brelse_logged : brelse b ((s.reading b).logged b data) = .ok ((), s.wrote b data) := by
  rw [brelse, modify_apply, logged, reading]
  simp only [erase_cons_head]
  rfl

theorem logWrite_spec (sb : Superblock) (s : Fs) (b : ℕ) (data : Mem) :
    Ensures (logWrite sb b data s) (fun _ s' => s' = s.logged b data) LogStop := by
  simp only [logWrite, bind_read, id]
  split
  · exact .inl rfl
  split
  · exact .inr rfl
  · exact rfl

theorem logWrite_ok (h₁ : s.lh.length < logsize) (h₂ : s.lh.length < sb.nlog - 1)
    (h₃ : 1 ≤ s.outstanding) : logWrite sb b data s = .ok ((), s.logged b data) := by
  rw [logWrite, bind_read, id, if_neg (by omega), if_neg (by omega)]
  rfl

theorem bzero_spec (h : b ∉ s.held) : Ensures (bzero sb b s)
    (fun _ s' => s' = s.wrote b ((s.disk b).fill 0 bsize 0)) LogStop := by
  rw [bzero, bind_ok (bread_ok h)]
  refine (logWrite_spec sb _ b _).bind ?_
  rintro _ t rfl
  rw [brelse_logged]
  exact rfl

theorem mem_lh_logged_iff : c ∈ (s.logged b data).lh ↔ c ∈ s.lh ∨ c = b := by
  rw [logged]
  dsimp only
  split
  case isTrue hb => exact ⟨.inl, fun h => h.elim id fun hc => hc ▸ hb⟩
  case isFalse => simp

theorem mem_lh_wrote_iff : c ∈ (s.wrote b data).lh ↔ c ∈ s.lh ∨ c = b := mem_lh_logged_iff

theorem mem_lh_logged : b ∈ (s.logged b data).lh := mem_lh_logged_iff.2 (.inr rfl)

theorem subset_lh_logged : s.lh ⊆ (s.logged b data).lh := fun _ hc => mem_lh_logged_iff.2 (.inl hc)

theorem subset_lh_wrote : s.lh ⊆ (s.wrote b data).lh := subset_lh_logged (s := s.saw b)

/-! ### What changes -/

/-- All blocks that have been read or logged lie below the swap area. -/
structure Low (s : Fs) : Prop where
  touched : ∀ b ∈ s.touched, b < swapbase
  lh : ∀ b ∈ s.lh, b < swapbase

/-- Nothing has changed but blocks, the log and the copy of the disk inode in the entry `k`. -/
structure Moves (k : ℕ) (s s' : Fs) : Prop where
  file : s'.file = s.file
  proc : s'.proc = s.proc
  outstanding : s'.outstanding = s.outstanding
  held : s'.held = s.held
  inode : s'.inode = update s.inode k { s.inode k with d := (s'.inode k).d }
  low : s.Low → s'.Low
  lh : s.lh ⊆ s'.lh

/-- The blocks that have changed are in the log. -/
def Pinned (s s' : Fs) : Prop := ∀ b, b ∉ s'.lh → s'.disk b = s.disk b

namespace Moves

theorem refl (k : ℕ) (s : Fs) : Moves k s s :=
  ⟨rfl, rfl, rfl, rfl, (update_eq_self ..).symm, id, Subset.refl _⟩

theorem trans (h : Moves k s s') (h' : Moves k s' s'') : Moves k s s'' where
  file := h'.file.trans h.file
  proc := h'.proc.trans h.proc
  outstanding := h'.outstanding.trans h.outstanding
  held := h'.held.trans h.held
  inode := by
    refine h'.inode.trans ?_
    rw [h.inode, update_idem, update_self]
  low := fun hl => h'.low (h.low hl)
  lh := fun _ hb => h'.lh (h.lh hb)

theorem saw (k : ℕ) (s : Fs) (hb : b < swapbase) : Moves k s (s.saw b) where
  file := rfl
  proc := rfl
  outstanding := rfl
  held := rfl
  inode := (update_eq_self ..).symm
  low := fun hl => ⟨forall_mem_cons.2 ⟨hb, hl.touched⟩, hl.lh⟩
  lh := Subset.refl _

theorem logged (k : ℕ) (s : Fs) (hb : b < swapbase) : Moves k s (s.logged b data) where
  file := rfl
  proc := rfl
  outstanding := rfl
  held := rfl
  inode := (update_eq_self ..).symm
  low := fun hl => by
    refine ⟨hl.touched, ?_⟩
    rw [Fs.logged]
    dsimp only
    split
    · exact hl.lh
    · exact forall_mem_append.2 ⟨hl.lh, by simpa using hb⟩
  lh := subset_lh_logged

theorem wrote (k : ℕ) (s : Fs) (hb : b < swapbase) : Moves k s (s.wrote b data) :=
  (saw k s hb).trans (logged k _ hb)

theorem setDisk (k : ℕ) (s : Fs) (disk : ℕ → Mem) : Moves k s { s with disk } :=
  ⟨rfl, rfl, rfl, rfl, (update_eq_self ..).symm, fun hl => ⟨hl.touched, hl.lh⟩, Subset.refl _⟩

theorem setDinode (k : ℕ) (s : Fs) (f : Dinode → Dinode) :
    Moves k s (s.setInode k fun i => { i with d := f i.d }) where
  file := rfl
  proc := rfl
  outstanding := rfl
  held := rfl
  inode := by simp [setInode]
  low := fun hl => ⟨hl.touched, hl.lh⟩
  lh := Subset.refl _

/-- The buffer that has been locked before is released. -/
theorem release (h : Moves k (s.reading b) s') (hb : b < swapbase) :
    Moves k s { s' with held := s'.held.erase b } where
  file := h.file
  proc := h.proc
  outstanding := h.outstanding
  held := by
    rw [h.held, reading]
    exact erase_cons_head ..
  inode := h.inode
  low := fun hl => by
    have hl' := h.low ⟨forall_mem_cons.2 ⟨hb, hl.touched⟩, hl.lh⟩
    exact ⟨hl'.touched, hl'.lh⟩
  lh := h.lh

theorem inode_self (h : Moves k s s') : s'.inode k = { s.inode k with d := (s'.inode k).d } :=
  (congrFun h.inode k).trans (update_self ..)

theorem inum (h : Moves k s s') : (s'.inode k).inum = (s.inode k).inum := by rw [h.inode_self]

end Moves

namespace Pinned

theorem refl (s : Fs) : Pinned s s := fun _ _ => rfl

theorem trans (h : Pinned s s') (h' : Pinned s' s'') (hlh : s'.lh ⊆ s''.lh) : Pinned s s'' :=
  fun b hb => (h' b hb).trans (h b fun hb' => hb (hlh hb'))

theorem logged (s : Fs) : Pinned s (s.logged b data) := by
  intro c hc
  refine update_of_ne ?_ ..
  rintro rfl
  exact hc mem_lh_logged

theorem wrote (s : Fs) : Pinned s (s.wrote b data) := logged (s.saw b)

end Pinned

/-- No marked data block has entered the log but `c`. -/
def Spared (sb : Superblock) (c : ℕ) (s s' : Fs) : Prop :=
  ∀ b, sb.nmeta ≤ b → b < sb.limit → bitAt sb s.disk b = true → b ≠ c → b ∈ s'.lh → b ∈ s.lh

theorem Spared.refl (sb : Superblock) (c : ℕ) (s : Fs) : Spared sb c s s := fun _ _ _ _ _ => id

/-- Block 0 is no data block. -/
theorem Spared.weaken (h : Spared sb 0 s s') (c : ℕ) : Spared sb c s s' := fun b hge hlt hbit _ =>
  h b hge hlt hbit (lt_of_lt_of_le sb.nmeta_pos hge).ne'

/-! ### Allocating -/

/-- The disk after a block has been marked and zeroed. -/
def taken (sb : Superblock) (disk : ℕ → Mem) (b : ℕ) : ℕ → Mem :=
  update (update disk (sb.bblock b) (orBit (disk (sb.bblock b)) b)) b
    ((disk b).fill 0 bsize 0)

/-- The block is free, and one that `balloc` may hand out. -/
structure Free (sb : Superblock) (disk : ℕ → Mem) (b : ℕ) : Prop where
  ge : sb.nmeta ≤ b
  lt : b < sb.limit
  bit : bitAt sb disk b = false

/-- The state after a block has been handed out. -/
def handed (sb : Superblock) (s : Fs) (b : ℕ) : Fs :=
  (s.wrote (sb.bblock b) (orBit (s.disk (sb.bblock b)) b)).wrote b ((s.disk b).fill 0 bsize 0)

theorem handed_disk (sb : Superblock) (s : Fs) (b : ℕ) : (s.handed sb b).disk = taken sb s.disk b :=
  rfl

theorem pinned_handed (sb : Superblock) (s : Fs) (b : ℕ) : Pinned s (s.handed sb b) :=
  (Pinned.wrote s).trans (Pinned.wrote _) subset_lh_wrote

namespace Free

variable {disk : ℕ → Mem}

theorem moves (h : Free sb s.disk b) (k : ℕ) : Moves k s (s.handed sb b) :=
  (Moves.wrote k s (sb.bblock_lt_swapbase h.lt)).trans
    (Moves.wrote k _ (lt_of_lt_of_le h.lt sb.limit_le))

theorem ne_bblock (h : Free sb disk b) : b ≠ sb.bblock b :=
  (lt_of_lt_of_le (sb.bblock_lt h.lt) h.ge).ne'

theorem wrote_disk (h : Free sb s.disk b) : (s.wrote (sb.bblock b) data).disk b = s.disk b :=
  update_of_ne h.ne_bblock ..

theorem pos (h : Free sb disk b) : 0 < b := lt_of_lt_of_le sb.nmeta_pos h.ge

theorem spared (h : Free sb s.disk b) : Spared sb 0 s (s.handed sb b) := by
  intro c hge _ hbit _ hc
  rw [handed, mem_lh_wrote_iff, mem_lh_wrote_iff] at hc
  rcases hc with (hc | rfl) | rfl
  · exact hc
  · exact absurd hge (not_le.2 (sb.bblock_lt h.lt))
  · exact absurd (hbit.symm.trans h.bit) (by decide)

end Free

/-- No block below the limit is free. -/
def Full (sb : Superblock) (disk : ℕ → Mem) : Prop := ∀ b < sb.limit, bitAt sb disk b = true

/-- Blocks have been read. -/
structure Looked (s s' : Fs) : Prop where
  eq : s' = { s with touched := s'.touched }
  low : s.Low → s'.Low

namespace Looked

theorem refl (s : Fs) : Looked s s := ⟨rfl, id⟩

variable (h : Looked s s')
include h

theorem saw (hb : b < swapbase) : Looked s (s'.saw b) where
  eq := by rw [Fs.saw, h.eq]
  low := fun hl => (Moves.saw 0 s' hb).low (h.low hl)

theorem trans (h' : Looked s' s'') : Looked s s'' where
  eq := by rw [h'.eq, h.eq]
  low := fun hl => h'.low (h.low hl)

theorem disk : s'.disk = s.disk := by rw [h.eq]

theorem held : s'.held = s.held := by rw [h.eq]

theorem moves (k : ℕ) : Moves k s s' := by
  refine ⟨?_, ?_, ?_, ?_, ?_, h.low, ?_⟩
  all_goals rw [h.eq]
  · exact (update_eq_self ..).symm
  · exact Subset.refl _

end Looked

/-- What the allocator needs: the metadata is marked, and no buffer is locked but those of allocated
data blocks. -/
structure Ready (sb : Superblock) (s : Fs) : Prop where
  marked : ∀ b < sb.nmeta, b < sb.limit → bitAt sb s.disk b = true
  held : ∀ b ∈ s.held, sb.nmeta ≤ b ∧ bitAt sb s.disk b = true

theorem Ready.looked (h : Ready sb s) (hl : Looked s s') : Ready sb s' := by
  refine ⟨?_, ?_⟩
  · rw [hl.disk]
    exact h.marked
  · rw [hl.disk, hl.held]
    exact h.held

theorem bblock_add (c : ℕ) (h : bi < bpb) : sb.bblock (c * bpb + bi) = sb.bblock (c * bpb) := by
  simp only [Superblock.bblock, bpb, bsize] at h ⊢
  omega

/-- The bit of a block, in the block of the free map that starts with `c * bpb`. -/
theorem mapBit_bblock (c : ℕ) (h : bi < bpb) (disk : ℕ → Mem) :
    mapBit (disk (sb.bblock (c * bpb))) (c * bpb + bi) = bitAt sb disk (c * bpb + bi) := by
  rw [bitAt, bblock_add c h]

theorem ballocLoop_spec (h : Ready sb s) (cs : List ℕ) (hcs : ∀ c ∈ cs, c * bpb < sb.limit) :
    Ensures (ballocLoop sb sb.limit cs s) (fun b s' => ∃ t, Looked s t ∧
      ((b = 0 ∧ s' = t ∧ ∀ c ∈ cs, ∀ x < sb.limit, x / bpb = c → bitAt sb s.disk x = true) ∨
        (Free sb s.disk b ∧ s' = t.handed sb b))) LogStop := by
  induction cs generalizing s with
  | nil => exact ⟨s, .refl s, .inl ⟨rfl, rfl, nofun⟩⟩
  | cons c cs ih =>
    have hc := hcs c mem_cons_self
    have hfree : sb.bblock (c * bpb) ∉ s.held := fun hmem =>
      lt_irrefl _ (lt_of_lt_of_le (sb.bblock_lt hc) (h.held _ hmem).1)
    rw [ballocLoop, bind_ok (bread_ok hfree)]
    split
    case h_1 bi hfind =>
      have hlt := mem_range.1 (mem_of_find?_eq_some hfind)
      have hbpb : bi < bpb := lt_of_lt_of_le hlt (min_le_left ..)
      have hbit := find?_some hfind
      rw [mapBit_bblock c hbpb, Bool.not_eq_true'] at hbit
      rw [← bblock_add c hbpb] at hfree ⊢
      obtain ⟨x, hx⟩ : ∃ x, x = c * bpb + bi := ⟨_, rfl⟩
      rw [← hx] at hbit hfree ⊢
      have hfr : Free sb s.disk x := by
        refine ⟨?_, by omega, hbit⟩
        by_contra hlow
        simp [h.marked x (by omega) (by omega)] at hbit
      refine (logWrite_spec sb _ _ _).bind ?_
      rintro _ t rfl
      rw [bind_ok brelse_logged]
      have hheld : x ∉ (s.wrote (sb.bblock x) (orBit (s.disk (sb.bblock x)) x)).held :=
        fun hmem => by
        simp [(h.held x hmem).2] at hbit
      refine (bzero_spec hheld).bind ?_
      rintro _ t rfl
      refine ⟨s, .refl s, .inr ⟨hfr, ?_⟩⟩
      rw [handed, hfr.wrote_disk]
    case h_2 hfind =>
      rw [bind_ok brelse_reading]
      have hl := (Looked.refl s).saw (sb.bblock_lt_swapbase hc)
      refine (ih (h.looked hl) fun d hd => hcs d (mem_cons_of_mem _ hd)).imp ?_
      rintro b s' ⟨t, ht, hres⟩
      refine ⟨t, hl.trans ht, hres.imp_left ?_⟩
      rintro ⟨rfl, rfl, hset⟩
      refine ⟨rfl, rfl, forall_mem_cons.2 ⟨?_, hset⟩⟩
      rintro x hx rfl
      have hdiv := div_add_mod' x bpb
      have hmod := mod_lt x (by decide : 0 < bpb)
      have hnone := find?_eq_none.1 hfind (x % bpb) (mem_range.2 (by omega))
      rw [mapBit_bblock _ hmod, hdiv] at hnone
      simpa using hnone

/-- **Allocating a block**: a free block is marked and zeroed, or there is none. -/
theorem balloc_spec (h : Ready sb s) (k : ℕ) : Ensures (balloc sb s) (fun b s' =>
    Moves k s s' ∧ s'.inode = s.inode ∧ Pinned s s' ∧ Spared sb 0 s s' ∧
      ((b = 0 ∧ Full sb s.disk ∧ s'.disk = s.disk) ∨
        (Free sb s.disk b ∧ s'.disk = taken sb s.disk b ∧ b ∈ s'.lh))) LogStop := by
  have hcs : ∀ c ∈ range ((sb.limit + (bpb - 1)) / bpb), c * bpb < sb.limit := by
    intro c hc
    have hc := mem_range.1 hc
    simp only [bpb, bsize] at hc ⊢
    omega
  refine (ballocLoop_spec h _ hcs).imp ?_
  rintro b s' ⟨t, ht, ⟨rfl, rfl, hset⟩ | ⟨hfr, rfl⟩⟩
  · refine ⟨ht.moves k, by rw [ht.eq], fun b _ => by rw [ht.disk], ?_, .inl ⟨rfl, ?_, ht.disk⟩⟩
    · rw [ht.eq]
      exact .refl sb 0 s
    intro x hx
    refine hset (x / bpb) (mem_range.2 ?_) x hx rfl
    simp only [bpb, bsize]
    omega
  · have hfr' : Free sb t.disk b := by rwa [ht.disk]
    refine ⟨(ht.moves k).trans (hfr'.moves k), ?_, ?_, ?_, .inr ⟨hfr, ?_, mem_lh_logged⟩⟩
    · change t.inode = s.inode
      rw [ht.eq]
    · have hpin : Pinned s t := fun c _ => by rw [ht.disk]
      exact hpin.trans (pinned_handed sb t b) (hfr'.moves k).lh
    · have hsp := hfr'.spared
      rw [Spared, ht.disk] at hsp
      intro c hge hlt hbit hne hc
      have hmem := hsp c hge hlt hbit hne hc
      rwa [ht.eq] at hmem
    · rw [handed_disk, ht.disk]

end Fs

end Xv6Swap
