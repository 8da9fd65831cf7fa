import Xv6Swap.Spec.Owned
import Mathlib.Data.Finset.Card

/-!
# The block map of an inode

`Fs.Holds sb s D k i` says that the entry `k` of `itable` has the copy `D i` of the inode `i`, that
the blocks are owned and that no buffer is locked.  On such a state:

* `Got` : the three outcomes of looking up one place of an inode, that the block is there, that a
  new one is put there, or that the disk is full;
* `GrownFile` : what they have in common, **no file changes and ownership is kept**;
* `Fs.bmap_spec` : `bmap` looks up at most two places; `Mapped.room` counts the free blocks.
-/

namespace Xv6Swap

open Finset

variable {sb : Superblock} {disk disk' disk'' : ℕ → Mem} {D D' D'' : ℕ → Dinode}
  {i j f g a b c bn : ℕ} {lh : List ℕ}

open Fs (Free Full taken)

/-! ### More blocks, the same files -/

/-- The inode `i` may have got new blocks. -/
structure GrownFile (sb : Superblock) (i : ℕ) (disk disk' : ℕ → Mem) (D D' : ℕ → Dinode) :
    Prop where
  owned : OwnedBlocks sb disk' D'
  inodes : ∀ j ≠ i, D' j = D j
  attrs : D' i = { D i with addrs := (D' i).addrs }
  below : ∀ c < sb.bmapstart, disk' c = disk c
  byte : ∀ j < sb.ninodes, ∀ x, (D' j).byte disk' x = (D j).byte disk x
  ref : ∀ j < sb.ninodes, ∀ g < nplaces, (D j).ref disk g ≠ 0 →
    (D' j).ref disk' g = (D j).ref disk g
  tight : Tight sb disk D → Tight sb disk' D'

theorem OwnedBlocks.grown (h : OwnedBlocks sb disk D) (i : ℕ) : GrownFile sb i disk disk D D :=
  ⟨h, fun _ _ => rfl, rfl, fun _ _ => rfl, fun _ _ _ => rfl, fun _ _ _ _ _ => rfl, id⟩

theorem Fresh.grown (h : Fresh sb i f b disk disk' D D') (ho : OwnedBlocks sb disk D) :
    GrownFile sb i disk disk' D D' :=
  ⟨h.owned ho, h.inodes, h.attrs, h.below, fun _ hj x => h.byte ho hj x,
    fun _ hj _ hg h0 => h.ref hj hg h0, h.tight⟩

theorem GrownFile.trans (h : GrownFile sb i disk disk' D D')
    (h' : GrownFile sb i disk' disk'' D' D'') :
    GrownFile sb i disk disk'' D D'' where
  owned := h'.owned
  inodes := fun j hj => (h'.inodes j hj).trans (h.inodes j hj)
  attrs := by rw [h'.attrs, h.attrs]
  below := fun c hc => (h'.below c hc).trans (h.below c hc)
  byte := fun j hj x => (h'.byte j hj x).trans (h.byte j hj x)
  ref := fun j hj g hg h0 => by
    have h1 := h.ref j hj g hg h0
    rw [h'.ref j hj g hg (by rwa [h1]), h1]
  tight := fun ht => h'.tight (h.tight ht)

/-! ### Counting -/

/-- The number of blocks that `balloc` can hand out. -/
def freeCount (sb : Superblock) (disk : ℕ → Mem) : ℕ :=
  ((range sb.limit).filter fun b => bitAt sb disk b = false).card

/-- The number of places of `W` at which an inode has no block. -/
def missing (disk : ℕ → Mem) (d : Dinode) (W : Finset ℕ) : ℕ :=
  (W.filter fun f => d.ref disk f = 0).card

/-- There are enough free blocks for the places of `W`. -/
def HasRoom (sb : Superblock) (disk : ℕ → Mem) (d : Dinode) (W : Finset ℕ) : Prop :=
  missing disk d W ≤ freeCount sb disk

theorem Fresh.freeCount (h : Fresh sb i f b disk disk' D D') :
    freeCount sb disk' + 1 = freeCount sb disk := by
  have hmem : b ∈ (range sb.limit).filter fun c => bitAt sb disk c = false :=
    mem_filter.2 ⟨mem_range.2 h.free.lt, h.free.bit⟩
  have herase : ((range sb.limit).filter fun c => bitAt sb disk' c = false) =
      ((range sb.limit).filter fun c => bitAt sb disk c = false).erase b := by
    ext c
    simp only [mem_filter, mem_range, mem_erase]
    refine ⟨fun ⟨hlt, hbit⟩ => ?_, fun ⟨hne, hlt, hbit⟩ => ⟨hlt, ?_⟩⟩
    · rw [h.bits c hlt, Bool.or_eq_false_iff, decide_eq_false_iff_not] at hbit
      exact ⟨hbit.2, hlt, hbit.1⟩
    · rw [h.bits c hlt, hbit, decide_eq_false hne]
      rfl
  rw [Xv6Swap.freeCount, herase, card_erase_add_one hmem]
  rfl

theorem Fresh.missing (h : Fresh sb i f b disk disk' D D') {W : Finset ℕ}
    (hW : ∀ g ∈ W, g < nplaces)
    (hf : f ∈ W) : missing disk' (D' i) W + 1 = missing disk (D i) W := by
  have hmem : f ∈ W.filter fun g => (D i).ref disk g = 0 := mem_filter.2 ⟨hf, h.none⟩
  have herase : (W.filter fun g => (D' i).ref disk' g = 0) =
      (W.filter fun g => (D i).ref disk g = 0).erase f := by
    ext g
    simp only [mem_filter, mem_erase]
    by_cases hgf : g = f
    · subst hgf
      simp [h.ne_zero]
    · constructor
      · rintro ⟨hg, h0⟩
        rw [h.other i h.lt g (hW g hg) fun e => hgf e.2] at h0
        exact ⟨hgf, hg, h0⟩
      · rintro ⟨-, hg, h0⟩
        rw [h.other i h.lt g (hW g hg) fun e => hgf e.2]
        exact ⟨hg, h0⟩
  rw [Xv6Swap.missing, herase, card_erase_add_one hmem]
  rfl

theorem freeCount_eq_zero (h : Full sb disk) : freeCount sb disk = 0 := by
  rw [freeCount, card_eq_zero, filter_eq_empty_iff]
  intro b hb
  simp [h b (mem_range.1 hb)]

/-! ### One place -/

/-- The outcome `a` of looking up the place `f` of the inode `i`. -/
inductive Got (sb : Superblock) (i f a : ℕ) (lh : List ℕ) (disk disk' : ℕ → Mem)
    (D D' : ℕ → Dinode) : Prop where
  | found : a ≠ 0 → (D i).ref disk f = a → disk' = disk → D' = D → Got sb i f a lh disk disk' D D'
  | full : a = 0 → (D i).ref disk f = 0 → Full sb disk → disk' = disk → D' = D →
      Got sb i f a lh disk disk' D D'
  | fresh : Fresh sb i f a disk disk' D D' → a ∈ lh → Got sb i f a lh disk disk' D D'

namespace Got

variable (h : Got sb i f a lh disk disk' D D')
include h

theorem grown (ho : OwnedBlocks sb disk D) : GrownFile sb i disk disk' D D' := by
  cases h with
  | found _ _ hd hD => subst hd hD; exact ho.grown i
  | full _ _ _ hd hD => subst hd hD; exact ho.grown i
  | fresh h _ => exact h.grown ho

theorem ref : (D' i).ref disk' f = a := by
  cases h with
  | found _ hr hd hD => subst hd hD; exact hr
  | full h0 hr _ hd hD => subst hd hD; rw [hr, h0]
  | fresh h _ => exact h.self

theorem other (hi : i < sb.ninodes) (hg : g < nplaces) (hne : g ≠ f) :
    (D' i).ref disk' g = (D i).ref disk g := by
  cases h with
  | found _ _ hd hD => rw [hd, hD]
  | full _ _ _ hd hD => rw [hd, hD]
  | fresh h _ => exact h.other i hi g hg fun e => hne e.2

theorem full_of_zero (h0 : a = 0) : Full sb disk' := by
  cases h with
  | found hne => exact absurd h0 hne
  | full _ _ hf hd => subst hd; exact hf
  | fresh h _ => exact absurd h0 h.free.pos.ne'

theorem of_ref (h0 : (D i).ref disk f ≠ 0) : disk' = disk ∧ D' = D := by
  cases h with
  | found _ _ hd hD => exact ⟨hd, hD⟩
  | full _ hr => exact absurd hr h0
  | fresh h _ => exact absurd h.none h0

theorem bit (hlt : c < sb.limit) (hbit : bitAt sb disk c = true) : bitAt sb disk' c = true := by
  cases h with
  | found _ _ hd => rwa [hd]
  | full _ _ _ hd => rwa [hd]
  | fresh h _ => rw [h.bits c hlt, hbit, Bool.true_or]

theorem ne_of_bit (hbit : bitAt sb disk c = true) (hne : c ≠ (D i).ref disk f) : c ≠ a := by
  cases h with
  | found _ hr => rwa [← hr]
  | full h0 hr => rwa [h0, ← hr]
  | fresh h _ =>
    rintro rfl
    exact absurd (hbit.symm.trans h.free.bit) (by decide)

theorem mem_lh (hi : i < sb.ninodes) (hg : g < nplaces) (hr : (D i).ref disk g = 0)
    (h0 : (D' i).ref disk' g ≠ 0) : (D' i).ref disk' g ∈ lh := by
  by_cases hgf : g = f
  · subst hgf
    rw [h.ref] at h0 ⊢
    cases h with
    | found _ hr' => exact absurd (hr'.symm.trans hr) h0
    | full h0' => exact absurd h0' h0
    | fresh _ hm => exact hm
  · exact absurd ((h.other hi hg hgf).trans hr) h0

/-- A lookup succeeds if there is room, and then there is room for the rest. -/
theorem room {W : Finset ℕ} (hW : ∀ g ∈ W, g < nplaces) (hf : f ∈ W) :
    HasRoom sb disk (D i) W ↔ a ≠ 0 ∧ HasRoom sb disk' (D' i) W := by
  unfold HasRoom
  cases h with
  | found hne _ hd hD => subst hd hD; simp [hne]
  | full h0 hr hfull hd hD =>
    subst hd hD
    have hpos : 0 < Xv6Swap.missing disk' (D' i) W :=
      card_pos.2 ⟨f, mem_filter.2 ⟨hf, hr⟩⟩
    rw [freeCount_eq_zero hfull]
    simp [h0, hpos.ne']
  | fresh h _ =>
    have h1 := h.freeCount
    have h2 := h.missing hW hf
    have h3 := h.free.pos
    omega

end Got

/-! ### `bmap` -/

/-- The places that `bmap` looks up for a block. -/
def placesOf (bn : ℕ) : Finset ℕ := if bn < ndirect then {bn} else {ndirect, bn + 1}

/-- The outcome `a` of `bmap` for the block `bn` of the inode `i`. -/
structure Mapped (sb : Superblock) (i bn a : ℕ) (lh : List ℕ) (disk disk' : ℕ → Mem)
    (D D' : ℕ → Dinode) : Prop where
  grown : GrownFile sb i disk disk' D D'
  ref : (D' i).ref disk' (blockPlace bn) = a
  full : a = 0 → Full sb disk'
  found : (D i).ref disk (blockPlace bn) ≠ 0 → disk' = disk ∧ D' = D
  new : ∀ g < nplaces, (D i).ref disk g = 0 → (D' i).ref disk' g ≠ 0 → (D' i).ref disk' g ∈ lh
  room : ∀ W : Finset ℕ, (∀ g ∈ W, g < nplaces) → placesOf bn ⊆ W →
    (HasRoom sb disk (D i) W ↔ a ≠ 0 ∧ HasRoom sb disk' (D' i) W)

namespace Fs

open Run

variable {s s' : Fs} {k : ℕ}

/-- The entry `k` of `itable` has the copy `D i` of the inode `i`; the blocks are owned and no
buffer is locked. -/
structure Holds (sb : Superblock) (s : Fs) (D : ℕ → Dinode) (k i : ℕ) : Prop where
  lt : i < sb.ninodes
  copy : (s.inode k).d = D i
  owned : OwnedBlocks sb s.disk D
  held : s.held = []

variable (h : Holds sb s D k i)
include h

theorem Holds.ready : Ready sb s :=
  ⟨h.owned.marked, by simp [h.held]⟩

theorem bmapAddr_spec (hf : f ≤ ndirect) :
    Ensures (bmapAddr sb k f s) (fun a s' => ∃ D', Holds sb s' D' k i ∧ Moves k s s' ∧ Pinned s s' ∧
      Spared sb 0 s s' ∧ Got sb i f a s'.lh s.disk s'.disk D D') LogStop := by
  rw [bmapAddr, bind_read, h.copy, Run.ite_apply]
  have hdir : (D i).ref s.disk f = (D i).addr f := Dinode.ref_direct hf
  split
  case isFalse h0 =>
    exact ⟨D, h, .refl k s, .refl s, .refl sb 0 s, .found h0 hdir rfl rfl⟩
  case isTrue h0 =>
    refine (balloc_spec h.ready k).bind ?_
    rintro b t ⟨hm, hin, hpin, hsp, ⟨rfl, hfull, hd⟩ | ⟨hfree, hd, hlh⟩⟩
    · rw [if_pos rfl]
      refine ⟨D, ⟨h.lt, by rw [hin, h.copy], by rw [hd]; exact h.owned, hm.held.trans h.held⟩, hm,
        hpin, hsp, .full rfl (hdir.trans h0) hfull hd rfl⟩
    · rw [if_neg hfree.pos.ne', modifyDinode, modifyInode, bind_modify]
      have hfresh := h.owned.freshAddr h.lt hf hfree h0
      rw [← hd] at hfresh
      refine ⟨_, ⟨h.lt, ?_, hfresh.owned h.owned, hm.held.trans h.held⟩,
        hm.trans (Moves.setDinode k t fun d => d.setAddr f b), hpin, hsp, .fresh hfresh hlh⟩
      simp [setInode, hin, h.copy]

theorem bmapIndirect_spec {j : ℕ} (hj : j < nindirect) (ha : (D i).addr ndirect ≠ 0) :
    Ensures (bmapIndirect sb ((D i).addr ndirect) j s) (fun a s' => ∃ D', Holds sb s' D' k i ∧
      Moves k s s' ∧ Pinned s s' ∧ Spared sb ((D i).addr ndirect) s s' ∧
      Got sb i (ndirect + 1 + j) a s'.lh s.disk s'.disk D D') LogStop := by
  have hlt : ndirect < ndirect + 1 + j := by omega
  have hplace : ndirect + 1 + j < nplaces := by simp only [nplaces]; omega
  have href : (D i).ref s.disk (ndirect + 1 + j) = indAt (s.disk ((D i).addr ndirect)) j := by
    rw [Dinode.ref_entry hlt ha, Nat.add_sub_cancel_left]
  obtain ⟨hge, hlim, hbit⟩ : sb.nmeta ≤ (D i).addr ndirect ∧ (D i).addr ndirect < sb.limit ∧
      bitAt sb s.disk ((D i).addr ndirect) = true := by
    have hdir : (D i).ref s.disk ndirect = (D i).addr ndirect := Dinode.ref_direct (Nat.le_refl _)
    rw [← hdir] at ha ⊢
    exact h.owned.area i h.lt ndirect (by decide) ha
  have hlow : (D i).addr ndirect < swapbase := Nat.lt_of_lt_of_le hlim sb.limit_le
  have hready : Ready sb (s.reading ((D i).addr ndirect)) := by
    refine ⟨h.owned.marked, ?_⟩
    rw [reading, h.held]
    simpa using ⟨hge, hbit⟩
  rw [bmapIndirect, bind_ok (bread_ok (by rw [h.held]; exact List.not_mem_nil)), Run.ite_apply,
    ← href]
  split
  case isFalse h0 =>
    rw [bind_ok brelse_reading]
    exact ⟨D, ⟨h.lt, h.copy, h.owned, h.held⟩, .saw k s hlow, .refl s, .refl sb _ s,
      .found h0 rfl rfl rfl⟩
  case isTrue h0 =>
    refine (balloc_spec hready k).bind ?_
    rintro b t ⟨hm, hin, hpin, hsp, ⟨rfl, hfull, hd⟩ | ⟨hfree, hd, hlh⟩⟩
    · rw [if_pos rfl]
      dsimp only
      rw [brelse, bind_modify]
      refine ⟨D, ⟨h.lt, ?_, ?_, (hm.release hlow).held.trans h.held⟩, hm.release hlow, hpin,
        hsp.weaken _, .full rfl h0 hfull hd rfl⟩
      · change (t.inode k).d = D i
        rw [hin]
        exact h.copy
      · change OwnedBlocks sb t.disk D
        rw [hd]
        exact h.owned
    · rw [if_neg hfree.pos.ne']
      dsimp only
      refine (logWrite_spec sb t _ _).bind ?_
      rintro _ u rfl
      rw [brelse, bind_modify]
      have hfresh := h.owned.freshEntry h.lt hlt hplace hfree ha h0
      rw [Nat.add_sub_cancel_left] at hfresh
      have hlog : Moves k t (t.logged ((D i).addr ndirect)
          (putInd (s.disk ((D i).addr ndirect)) j b)) := Moves.logged k t hlow
      have hm' := (hm.trans hlog).release hlow
      have hdisk : (t.logged ((D i).addr ndirect) (putInd (s.disk ((D i).addr ndirect)) j b)).disk =
          Function.update (taken sb s.disk b) ((D i).addr ndirect)
            (putInd (s.disk ((D i).addr ndirect)) j b) := by
        rw [logged, hd]
        rfl
      rw [← hdisk] at hfresh
      have hsub : t.lh ⊆ (t.logged ((D i).addr ndirect)
          (putInd (s.disk ((D i).addr ndirect)) j b)).lh := subset_lh_logged
      refine ⟨D, ⟨h.lt, ?_, hfresh.owned h.owned, hm'.held.trans h.held⟩, hm', ?_, ?_,
        .fresh hfresh (hsub hlh)⟩
      · change (t.inode k).d = D i
        rw [hin]
        exact h.copy
      · exact hpin.trans (Pinned.logged t) hsub
      · intro c hge hlt hbit hne hc
        have hlogged : c ∈ (t.logged ((D i).addr ndirect)
            (putInd (s.disk ((D i).addr ndirect)) j b)).lh := hc
        have hmem := (mem_lh_logged_iff.1 hlogged).resolve_right hne
        exact hsp.weaken _ c hge hlt hbit hne hmem

/-- **The block map**: the block of the file, a new one if there was none, or 0 if the disk is
full. -/
theorem bmap_spec (hbn : bn < maxfile) :
    Ensures (bmap sb k bn s) (fun a s' => ∃ D', Holds sb s' D' k i ∧ Moves k s s' ∧ Pinned s s' ∧
      Spared sb ((D i).ref s.disk ndirect) s s' ∧
      Mapped sb i bn a s'.lh s.disk s'.disk D D') LogStop := by
  rw [bmap, Run.ite_apply]
  split
  case isTrue hdir =>
    have hplace : blockPlace bn = bn := if_pos hdir
    refine (bmapAddr_spec h (f := bn) (by omega)).imp ?_
    rintro a s' ⟨D', h', hm, hpin, hsp, hgot⟩
    refine ⟨D', h', hm, hpin, hsp.weaken _, hgot.grown h.owned, ?_, hgot.full_of_zero, ?_,
      fun g hg => hgot.mem_lh h.lt hg, fun W hW hsub => ?_⟩
    · rw [hplace, hgot.ref]
    · rw [hplace]; exact hgot.of_ref
    · refine hgot.room hW (hsub ?_)
      simp [placesOf, hdir]
  case isFalse hdir =>
    have hplace : blockPlace bn = ndirect + 1 + (bn - ndirect) := by
      rw [blockPlace, if_neg hdir]
      omega
    have hind : bn - ndirect < nindirect := by simp only [maxfile] at hbn; omega
    have hsub₁ : ndirect ∈ placesOf bn := by simp [placesOf, hdir]
    have hsub₂ : ndirect + 1 + (bn - ndirect) ∈ placesOf bn := by
      rw [placesOf, if_neg hdir, Finset.mem_insert, Finset.mem_singleton]
      omega
    rw [if_pos hind]
    refine (bmapAddr_spec h (Nat.le_refl ndirect)).bind ?_
    rintro a t ⟨D₁, h₁, hm₁, hpin₁, hsp₁, hgot₁⟩
    rw [Run.ite_apply]
    split
    case isTrue h0 =>
      -- no indirect block
      have hz : (D₁ i).ref t.disk (blockPlace bn) = 0 := by
        rw [hplace]
        refine Dinode.ref_none (by omega) ?_
        have hind : (D₁ i).ref t.disk ndirect = (D₁ i).addr ndirect :=
          Dinode.ref_direct (Nat.le_refl _)
        rw [← hind, hgot₁.ref, h0]
      refine ⟨D₁, h₁, hm₁, hpin₁, hsp₁.weaken _, hgot₁.grown h.owned, hz,
        fun _ => hgot₁.full_of_zero h0, ?_, fun g hg => hgot₁.mem_lh h.lt hg, fun W hW hsub => ?_⟩
      · intro hne
        refine absurd ?_ hne
        rw [← (hgot₁.grown h.owned).ref i h.lt _ (blockPlace_lt hbn) hne, hz]
      · rw [hgot₁.room hW (hsub hsub₁)]
        simp [h0]
    case isFalse h0 =>
      have ha : a = (D₁ i).addr ndirect := by
        rw [← hgot₁.ref, Dinode.ref_direct (Nat.le_refl _)]
      rw [ha]
      refine (bmapIndirect_spec h₁ hind (ha ▸ h0)).imp ?_
      rintro a' u ⟨D₂, h₂, hm₂, hpin₂, hsp₂, hgot₂⟩
      have hg₁ := hgot₁.grown h.owned
      have hsp : Spared sb ((D i).ref s.disk ndirect) s u := by
        intro c hge hlt hbit hne hc
        have hne' : c ≠ (D₁ i).addr ndirect := by
          rw [← ha]
          exact hgot₁.ne_of_bit hbit hne
        exact hsp₁.weaken _ c hge hlt hbit hne (hsp₂ c hge hlt (hgot₁.bit hlt hbit) hne' hc)
      refine ⟨D₂, h₂, hm₁.trans hm₂, hpin₁.trans hpin₂ hm₂.lh, hsp,
        hg₁.trans (hgot₂.grown h₁.owned), ?_, hgot₂.full_of_zero, ?_, ?_, fun W hW hsub => ?_⟩
      · rw [hplace, hgot₂.ref]
      · rw [hplace]
        intro hne
        have hne' : (D i).ref s.disk ndirect ≠ 0 := by
          rw [Dinode.ref_direct (Nat.le_refl _)]
          exact Dinode.addr_ndirect_ne (by omega) hne
        obtain ⟨hd₁, hD₁⟩ := hgot₁.of_ref hne'
        rw [← hd₁, ← hD₁] at hne ⊢
        exact hgot₂.of_ref hne
      · intro g hg hz hne
        by_cases hz₁ : (D₁ i).ref t.disk g = 0
        · exact hgot₂.mem_lh h.lt hg hz₁ hne
        · rw [(hgot₂.grown h₁.owned).ref i h.lt g hg hz₁]
          exact hm₂.lh (hgot₁.mem_lh h.lt hg hz hz₁)
      · rw [hgot₁.room hW (hsub hsub₁), hgot₂.room hW (hsub hsub₂)]
        simp [h0]

end Fs

end Xv6Swap
