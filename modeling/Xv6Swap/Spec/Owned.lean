import Xv6Swap.Spec.Alloc

/-!
# Ownership of blocks and the contents of files

`OwnedBlocks sb disk D` relates the free map and the inodes `D i`: every block that an inode refers
to is a marked data block below the limit, no block is referred to twice, and the metadata is
marked. `Tight sb disk D` adds that every marked data block is referred to.

`Dinode.byte disk d x` is the byte `x` of a file, zero where the file has no block.

* `Fresh` : a place of an inode gets a free block; `OwnedBlocks.freshAddr` and
  `OwnedBlocks.freshEntry` are the two ways in which `bmap` does this;
* `Fresh.owned`, `Fresh.tight`, `Fresh.byte` : **ownership is kept, and no file changes**;
* `OwnedBlocks.write` : writing a block of a file changes that part of that file only.
-/

namespace Xv6Swap

open Function Dinode Nat Mem

/-- The byte `x` of a file; zero where it has no block. -/
def Dinode.byte (disk : ℕ → Mem) (d : Dinode) (x : ℕ) : Byte :=
  if x / bsize < maxfile ∧ d.ref disk (blockPlace (x / bsize)) ≠ 0 then
    disk (d.ref disk (blockPlace (x / bsize))) (x % bsize)
  else 0

/-- Block ownership. -/
structure OwnedBlocks (sb : Superblock) (disk : ℕ → Mem) (D : ℕ → Dinode) : Prop where
  refs : BlockOwned disk D sb.ninodes fun i f => (D i).ref disk f ≠ 0
  area : ∀ i < sb.ninodes, ∀ f < nplaces, (D i).ref disk f ≠ 0 →
    sb.nmeta ≤ (D i).ref disk f ∧ (D i).ref disk f < sb.limit ∧
      bitAt sb disk ((D i).ref disk f) = true
  marked : ∀ b < sb.nmeta, b < sb.limit → bitAt sb disk b = true

/-- Every marked data block is referred to. -/
def Tight (sb : Superblock) (disk : ℕ → Mem) (D : ℕ → Dinode) : Prop :=
  ∀ b, sb.nmeta ≤ b → b < sb.limit → bitAt sb disk b = true →
    ∃ i < sb.ninodes, ∃ f < nplaces, (D i).ref disk f = b

variable {sb : Superblock} {disk disk' : ℕ → Mem} {D D' : ℕ → Dinode} {i j f g b c bn : ℕ}

open Fs (Free taken)

/-! ### Marking a block -/

theorem taken_self : taken sb disk b b = (disk b).fill 0 bsize 0 := update_self ..

theorem taken_of_ne (h : c ≠ b) (h' : c ≠ sb.bblock b) : taken sb disk b c = disk c := by
  rw [taken, update_of_ne h, update_of_ne h']

theorem taken_below (hf : Free sb disk b) (h : c < sb.bmapstart) : taken sb disk b c = disk c := by
  have hmap := sb.bmapstart_le_bblock b
  have hmeta := sb.bmapstart_lt
  have hge := hf.ge
  exact taken_of_ne (by omega) (by omega)

theorem taken_data (hf : Free sb disk b) (h : sb.nmeta ≤ c) (hne : c ≠ b) :
    taken sb disk b c = disk c := by
  have hmap := sb.bblock_lt hf.lt
  exact taken_of_ne hne (by omega)

theorem bitAt_taken (hf : Free sb disk b) (h : c < sb.limit) :
    bitAt sb (taken sb disk b) c = (bitAt sb disk c || decide (c = b)) := by
  have hlt := sb.bblock_lt h
  have hge := hf.ge
  rw [taken, bitAt_update _ (by omega), bitAt_orBit]

theorem fill_zero_indAt (m : Mem) {k : ℕ} (hk : k < nindirect) :
    indAt (m.fill 0 bsize 0) k = 0 := by
  have hz : ∀ n a, a + n ≤ bsize → loadLE (m.fill 0 bsize 0) n a = 0 := by
    intro n
    induction n with
    | zero => exact fun _ _ => rfl
    | succ n ih =>
      intro a ha
      rw [loadLE, ih _ (by omega), fill, if_pos (by omega)]
      rfl
  refine hz 4 (4 * k) ?_
  simp only [nindirect, bsize] at hk ⊢
  omega

/-! ### A place gets a block -/

/-- The place `f` of the inode `i` gets the block `b`, which was free. -/
structure Fresh (sb : Superblock) (i f b : ℕ) (disk disk' : ℕ → Mem) (D D' : ℕ → Dinode) :
    Prop where
  free : Free sb disk b
  lt : i < sb.ninodes
  place : f < nplaces
  none : (D i).ref disk f = 0
  refs : BlockOwned disk' D' sb.ninodes fun j g => (D j).ref disk g ≠ 0 ∨ (j = i ∧ g = f)
  self : (D' i).ref disk' f = b
  other : ∀ j < sb.ninodes, ∀ g < nplaces, ¬ (j = i ∧ g = f) →
    (D' j).ref disk' g = (D j).ref disk g
  bits : ∀ c < sb.limit, bitAt sb disk' c = (bitAt sb disk c || decide (c = b))
  inodes : ∀ j ≠ i, D' j = D j
  attrs : D' i = { D i with addrs := (D' i).addrs }
  below : ∀ c < sb.bmapstart, disk' c = disk c
  data : ∀ c, sb.nmeta ≤ c → c ≠ b → (D i).addr ndirect ≠ c → disk' c = disk c
  zero : ∀ x < bsize, disk' b x = 0

namespace OwnedBlocks

variable (h : OwnedBlocks sb disk D)
include h

theorem inj (hi : i < sb.ninodes) (hj : j < sb.ninodes) (hf : f < nplaces) (hg : g < nplaces)
    (h0 : (D i).ref disk f ≠ 0) (he : (D i).ref disk f = (D j).ref disk g) : i = j ∧ f = g :=
  h.refs.inj i hi j hj f hf g hg h0 he

section

variable (hf : Free sb disk b)
include hf

theorem unref : Unref disk D sb.ninodes b := by
  rintro i hi f hlt rfl
  have hbit := (h.area i hi f hlt hf.pos.ne').2.2
  rw [hf.bit] at hbit
  cases hbit

theorem unref_taken (hj : j < sb.ninodes) : (D j).ref (taken sb disk b) g = (D j).ref disk g := by
  refine ref_congr (fun _ _ => rfl) fun h0 => ?_
  -- the indirect block is neither the new block nor a block of the free map
  have hdir : (D j).ref disk ndirect = (D j).addr ndirect := ref_direct (le_refl _)
  have harea := h.area j hj ndirect (by decide) (by rwa [hdir])
  have hne := h.unref hf j hj ndirect (by decide)
  rw [hdir] at harea hne
  exact taken_data hf harea.1 hne

/-- Ownership does not depend on the mark of a free block. -/
theorem refs_taken : BlockOwned (taken sb disk b) D sb.ninodes fun i f => (D i).ref disk f ≠ 0 :=
  h.refs.congr (fun _ hj _ _ => h.unref_taken hf hj) fun _ _ _ _ => Iff.rfl

theorem unref_after : Unref (taken sb disk b) D sb.ninodes b := by
  intro i hi f hlt
  rw [h.unref_taken hf hi]
  exact h.unref hf i hi f hlt

end

/-- A free entry of `addrs[]` gets a block. -/
theorem freshAddr (hi : i < sb.ninodes) (hf : f ≤ ndirect) (hb : Free sb disk b)
    (h0 : (D i).addr f = 0) :
    Fresh sb i f b disk (taken sb disk b) D (update D i ((D i).setAddr f b)) := by
  have hlt : b < 2 ^ 32 := (lt_of_lt_of_le hb.lt sb.limit_le).trans (by decide)
  have hz : f = ndirect → ∀ k < nindirect, indAt (taken sb disk b b) k = 0 := fun _ k hk => by
    rw [taken_self, fill_zero_indAt _ hk]
  refine ⟨hb, hi, lt_of_le_of_lt hf (by decide), by rwa [ref_direct hf],
    (h.refs_taken hb).assign hi hf hb.pos.ne' hlt (h.unref_after hb) h0 hz, ?_, ?_,
    fun c hc => bitAt_taken hb hc, fun j hj => update_of_ne hj .., ?_,
    fun c hc => taken_below hb hc, fun c hc hne _ => taken_data hb hc hne, fun x hx => ?_⟩
  · rw [update_self, ref_setAddr_self hf hlt]
  · intro j hj g hg hjg
    rw [← h.unref_taken hb hj]
    by_cases hji : j = i
    · subst hji
      have hgf : g ≠ f := fun e => hjg ⟨rfl, e⟩
      rw [update_self]
      by_cases hfn : f = ndirect
      · subst hfn
        exact ref_setAddr_ndirect hgf hg hlt h0 (hz rfl)
      · exact ref_setAddr_of_ne hgf hfn
    · rw [update_of_ne hji]
  · rw [update_self, setAddr]
    split <;> rfl
  · rw [taken_self, fill, if_pos (by omega)]

/-- A free entry of an indirect block gets a block. -/
theorem freshEntry (hi : i < sb.ninodes) (hf : ndirect < f) (hlt' : f < nplaces)
    (hb : Free sb disk b) (ha : (D i).addr ndirect ≠ 0) (h0 : (D i).ref disk f = 0) :
    Fresh sb i f b disk (update (taken sb disk b) ((D i).addr ndirect)
      (putInd (disk ((D i).addr ndirect)) (f - (ndirect + 1)) b)) D D := by
  have hlt : b < 2 ^ 32 := (lt_of_lt_of_le hb.lt sb.limit_le).trans (by decide)
  have hdir : (D i).ref disk ndirect = (D i).addr ndirect := ref_direct (le_refl _)
  have harea := h.area i hi ndirect (by decide) (by rwa [hdir])
  have hne := h.unref hb i hi ndirect (by decide)
  rw [hdir] at harea hne
  have hsame : taken sb disk b ((D i).addr ndirect) = disk ((D i).addr ndirect) :=
    taken_data hb harea.1 hne
  rw [← hsame]
  have hnew := (h.refs_taken hb).assignEntry hi hf hlt' hb.pos.ne' hlt (h.unref_after hb) ha
  refine ⟨hb, hi, hlt', h0, hnew, ref_putInd_self hf hlt ha, ?_, ?_, fun _ _ => rfl, rfl, ?_,
    ?_, ?_⟩
  · intro j hj g hg hjg
    rw [← h.unref_taken hb hj]
    by_cases hji : j = i
    · subst hji
      exact ref_putInd_of_ne (fun e => hjg ⟨rfl, e⟩) hf ha
    · exact ref_update _ ((h.refs_taken hb).indirect_ne hi hj hji)
  · intro c hc
    have hmap := sb.bblock_lt hc
    rw [bitAt_update _ (by omega), bitAt_taken hb hc]
  · intro c hc
    have hmeta := sb.bmapstart_lt
    rw [update_of_ne (by omega), taken_below hb hc]
  · intro c hc hcb hca
    rw [update_of_ne hca.symm, taken_data hb hc hcb]
  · intro x hx
    rw [update_of_ne hne.symm, taken_self, fill, if_pos (by omega)]

end OwnedBlocks

namespace Fresh

variable (h : Fresh sb i f b disk disk' D D')
include h

theorem ne_zero : (D' i).ref disk' f ≠ 0 := by
  rw [h.self]
  exact h.free.pos.ne'

/-- **A new block keeps ownership.** -/
theorem owned (ho : OwnedBlocks sb disk D) : OwnedBlocks sb disk' D' := by
  refine ⟨?_, ?_, ?_⟩
  · refine ⟨fun _ _ _ _ => Iff.rfl, fun j hj k hk g hg q hq h0 he =>
      h.refs.inj j hj k hk g hg q hq h0 he⟩
  · intro j hj g hg h0
    by_cases hjg : j = i ∧ g = f
    · obtain ⟨rfl, rfl⟩ := hjg
      rw [h.self, h.bits b h.free.lt]
      exact ⟨h.free.ge, h.free.lt, by simp⟩
    · rw [h.other j hj g hg hjg] at h0 ⊢
      obtain ⟨h1, h2, h3⟩ := ho.area j hj g hg h0
      rw [h.bits _ h2, h3]
      exact ⟨h1, h2, rfl⟩
  · intro c hc hlim
    rw [h.bits c hlim, ho.marked c hc hlim]
    rfl

theorem tight (ht : Tight sb disk D) : Tight sb disk' D' := by
  intro c hge hlt hbit
  by_cases hcb : c = b
  · exact ⟨i, h.lt, f, h.place, by rw [h.self, hcb]⟩
  · rw [h.bits c hlt, decide_eq_false hcb, Bool.or_false] at hbit
    obtain ⟨j, hj, g, hg, hr⟩ := ht c hge hlt hbit
    refine ⟨j, hj, g, hg, ?_⟩
    rw [h.other j hj g hg, hr]
    rintro ⟨rfl, rfl⟩
    have := sb.nmeta_pos
    rw [h.none] at hr
    omega

theorem ref (hj : j < sb.ninodes) (hg : g < nplaces) (h0 : (D j).ref disk g ≠ 0) :
    (D' j).ref disk' g = (D j).ref disk g := by
  refine h.other j hj g hg ?_
  rintro ⟨rfl, rfl⟩
  exact h0 h.none

/-- **A new block changes no file**: it reads as zeros, as the hole before. -/
theorem byte (ho : OwnedBlocks sb disk D) (hj : j < sb.ninodes) (x : ℕ) :
    (D' j).byte disk' x = (D j).byte disk x := by
  unfold Dinode.byte
  by_cases hx : x / bsize < maxfile
  · have hp := blockPlace_lt hx
    by_cases hjf : j = i ∧ blockPlace (x / bsize) = f
    · obtain ⟨rfl, rfl⟩ := hjf
      rw [if_pos ⟨hx, h.ne_zero⟩, if_neg (fun hc => hc.2 h.none), h.self,
        h.zero _ (mod_lt _ (by decide))]
    · rw [h.other j hj _ hp hjf]
      by_cases h0 : (D j).ref disk (blockPlace (x / bsize)) = 0
      · rw [if_neg (fun hc => hc.2 h0), if_neg (fun hc => hc.2 h0)]
      · rw [if_pos ⟨hx, h0⟩, if_pos ⟨hx, h0⟩,
          h.data _ (ho.area j hj _ hp h0).1 (ho.unref h.free j hj _ hp) fun he => ?_]
        have hdir : (D i).ref disk ndirect = (D i).addr ndirect := ref_direct (le_refl _)
        exact blockPlace_ne _ (ho.inj hj h.lt hp (by decide) h0 (by rw [hdir, he])).2
  · rw [if_neg fun hc => hx hc.1, if_neg fun hc => hx hc.1]

end Fresh

/-! ### Writing a block of a file -/

namespace OwnedBlocks

variable (h : OwnedBlocks sb disk D) (hi : i < sb.ninodes) (hbn : bn < maxfile)
include h hi hbn

theorem ref_write (data : Mem) (hj : j < sb.ninodes) :
    (D j).ref (update disk ((D i).ref disk (blockPlace bn)) data) g = (D j).ref disk g :=
  ref_update data (h.refs.not_indirect hi (blockPlace_lt hbn) (blockPlace_ne bn) hj)

variable (h0 : (D i).ref disk (blockPlace bn) ≠ 0)
include h0

theorem bit_write (data : Mem) (hc : c < sb.limit) :
    bitAt sb (update disk ((D i).ref disk (blockPlace bn)) data) c = bitAt sb disk c := by
  have hge := (h.area i hi _ (blockPlace_lt hbn) h0).1
  have hlt := sb.bblock_lt hc
  exact bitAt_update _ (by omega)

/-- Writing a block of a file keeps ownership. -/
theorem write (data : Mem) :
    OwnedBlocks sb (update disk ((D i).ref disk (blockPlace bn)) data) D := by
  refine ⟨h.refs.congr (fun j hj g _ => h.ref_write hi hbn data hj) fun j hj g _ => ?_,
    fun j hj g hg hr => ?_, fun c hc hlim => ?_⟩
  · rw [h.ref_write hi hbn data hj]
  · rw [h.ref_write hi hbn data hj] at hr ⊢
    obtain ⟨h1, h2, h3⟩ := h.area j hj g hg hr
    exact ⟨h1, h2, by rw [h.bit_write hi hbn h0 data h2, h3]⟩
  · rw [h.bit_write hi hbn h0 data hlim, h.marked c hc hlim]

theorem tight_write (data : Mem) (ht : Tight sb disk D) :
    Tight sb (update disk ((D i).ref disk (blockPlace bn)) data) D := by
  intro c hge hlt hbit
  rw [h.bit_write hi hbn h0 data hlt] at hbit
  obtain ⟨j, hj, g, hg, hr⟩ := ht c hge hlt hbit
  exact ⟨j, hj, g, hg, by rw [h.ref_write hi hbn data hj, hr]⟩

/-- **Writing a block changes this part of this file only.** -/
theorem byte_write (data : Mem) (hj : j < sb.ninodes) (x : ℕ) :
    (D j).byte (update disk ((D i).ref disk (blockPlace bn)) data) x =
      if j = i ∧ x / bsize = bn then data (x % bsize) else (D j).byte disk x := by
  unfold byte
  rw [h.ref_write hi hbn data hj]
  split
  case isTrue hx =>
    split
    case isTrue hji =>
      obtain ⟨rfl, rfl⟩ := hji
      rw [update_self]
    case isFalse hji =>
      rw [update_of_ne]
      intro he
      obtain ⟨rfl, hp⟩ := h.inj hj hi (blockPlace_lt hx.1) (blockPlace_lt hbn) hx.2 he
      exact hji ⟨rfl, blockPlace_inj hp⟩
  case isFalse hx =>
    rw [if_neg]
    rintro ⟨rfl, rfl⟩
    exact hx ⟨hbn, h0⟩

end OwnedBlocks

end Xv6Swap
