import Xv6Swap.Mkfs.Area
import Xv6Swap.Spec.Content

/-!
# The image as the kernel sees it

The image of `mkfs` is a file system in the sense of the kernel: its blocks are owned and its files
have the bytes of the arguments.

* `Mk.Image.owned` : every reference is to a marked data block of its own;
* `Mk.Image.byte` : the bytes of the files;
* `Mk.noHoles_iff` : the image has no holes **unless the number of entries of the root directory is
  a multiple of the entries per block**;
* `Mk.Image.root_hole` : if the entries of the root directory fill their blocks, the root **has a
  hole**, because `mkfs` rounds its size up to the next block.
-/

namespace Xv6Swap.Mk

open Nat Fs List

variable {s : Mk} {args : List MkArg} {j f x : ℕ}

theorem limit_mkfs : sb.limit = swapbase := by decide

namespace Image

variable (h : Image args s)
include h

theorem bit_iff {b : ℕ} (hb : b < sb.limit) : bitAt sb s.disk b = true ↔ b < s.freeblock := by
  rw [h.bits b (hb.trans (by decide)), decide_eq_true_iff]

/-- **Block ownership** of the image, if it stays below the swap area. -/
theorem owned (hfree : s.freeblock ≤ swapbase) : OwnedBlocks sb s.disk (dinodeAt sb s.disk) := by
  have hlt : ∀ {j}, j < sb.ninodes → j < inodeSlots := fun hj => hj.trans (by decide)
  refine ⟨⟨fun _ _ _ _ => Iff.rfl, fun i hi j hj => ?_⟩, fun j hj g hg h0 => ?_,
    fun b hb hlim => ?_⟩
  · exact h.tree.base.owned.inj i (hlt hi) j (hlt hj)
  · obtain ⟨hge, hfb⟩ := h.tree.base.range j (hlt hj) g hg h0
    have hlim : (dinodeAt sb s.disk j).ref s.disk g < sb.limit := by
      rw [limit_mkfs]
      exact lt_of_lt_of_le hfb hfree
    exact ⟨hge, hlim, (h.bit_iff hlim).2 hfb⟩
  · exact (h.bit_iff hlim).2 (lt_of_lt_of_le hb h.tree.base.nmeta_le)

theorem ref_ne_iff (hj : j < inodeSlots) (hf : f < nplaces) :
    (dinodeAt sb s.disk j).ref s.disk f ≠ 0 ↔ Filled (files args j).length f :=
  h.tree.base.owned.used j hj f hf

/-- **The bytes of the files.** -/
theorem byte (hj : j < inodeSlots) (hx : x < (files args j).length) :
    (dinodeAt sb s.disk j).byte s.disk x = (files args j).getD x 0 := by
  have hfit := h.tree.fits j hj
  have hbn : x / bsize < maxfile := by
    simp only [bsize] at hfit ⊢
    omega
  have h0 : (dinodeAt sb s.disk j).ref s.disk (blockPlace (x / bsize)) ≠ 0 := by
    rw [h.ref_ne_iff hj (blockPlace_lt hbn), filled_blockPlace]
    exact lt_of_le_of_lt (div_mul_le_self ..) hx
  rw [Dinode.byte_of_ref hbn h0, h.tree.data j hj x hx]

/-- **A hole in the root directory**: where its entries fill their blocks, its size is that of one
block more. -/
theorem root_hole (hfull : bsize ∣ direntSize * (args.length + 2))
    (hlt : direntSize * (args.length + 2) < maxfile * bsize) :
    direntSize * (args.length + 2) < (dinodeAt sb s.disk rootino).size.toNat ∧
    (dinodeAt sb s.disk rootino).ref s.disk
      (blockPlace (direntSize * (args.length + 2) / bsize)) = 0 := by
  obtain ⟨n, hn⟩ := hfull
  have hdiv : bsize * n / bsize = n := Nat.mul_div_cancel_left n (by decide)
  have hbn : n < maxfile := by
    simp only [hn, bsize] at hlt
    omega
  rw [h.root, length_rootBytes, hn, hdiv]
  refine ⟨?_, ?_⟩
  · simp only [bsize]
    omega
  · by_contra h0
    rw [← ne_eq, h.ref_ne_iff (by decide) (blockPlace_lt hbn), filled_blockPlace, files_root,
      length_rootBytes, hn, mul_comm] at h0
    exact lt_irrefl _ h0

theorem freeblock_eq (hn : args.length + 1 < inodeSlots) :
    s.freeblock = sb.nmeta + blocksNeeded args := by
  rw [← total_files hn]
  exact h.tree.count

/-- A file that is not the root has all its blocks. -/
theorem whole_file (hj : j < inodeSlots) (hne : j ≠ rootino) :
    Whole s.disk (dinodeAt sb s.disk j) := by
  rw [whole_iff_backed]
  intro x _ hx
  rw [zero_add, h.size j hj hne] at hx
  have hfit := h.tree.fits j hj
  have hbn : x / bsize < maxfile := by
    simp only [bsize] at hfit ⊢
    omega
  refine ⟨hbn, (h.ref_ne_iff hj (blockPlace_lt hbn)).2 (filled_blockPlace.2 ?_)⟩
  exact lt_of_le_of_lt (div_mul_le_self ..) hx

/-- The root has all its blocks exactly if its entries do not fill them. -/
theorem whole_root (hlt : direntSize * (args.length + 2) < maxfile * bsize) :
    Whole s.disk (dinodeAt sb s.disk rootino) ↔ ¬ bsize ∣ direntSize * (args.length + 2) := by
  constructor
  · intro hw hfull
    obtain ⟨hsize, h0⟩ := h.root_hole hfull hlt
    refine (hw _ ?_).2 h0
    simp only [bsize] at hsize ⊢
    omega
  · intro hno
    rw [whole_iff_backed]
    intro x _ hx
    rw [zero_add, h.root, length_rootBytes] at hx
    have hx' : x / bsize * bsize < direntSize * (args.length + 2) := by
      rw [dvd_iff_mod_eq_zero] at hno
      simp only [bsize] at hx hno ⊢
      omega
    have hbn : x / bsize < maxfile := by
      simp only [bsize] at hx' hlt ⊢
      omega
    refine ⟨hbn, (h.ref_ne_iff (by decide) (blockPlace_lt hbn)).2 (filled_blockPlace.2 ?_)⟩
    rwa [files_root, length_rootBytes]

end Image

/-! ### Holes -/

/-- Every allocated inode of the image has all its blocks, and the kernel reads it without
allocating. -/
def NoHoles (s : Mk) : Prop :=
  ∀ j < ninodes, (dinodeAt sb s.disk j).type ≠ 0 → Whole s.disk (dinodeAt sb s.disk j) ∧
    ∀ (t : Fs) (k room off n : ℕ), t.disk = s.disk → t.held = [] →
      (t.inode k).d = dinodeAt sb s.disk j → off ≤ (dinodeAt sb s.disk j).size.toNat →
      off + n < 2 ^ 32 → n ≤ room → ∃ r u, Fs.readi sb k room off n t = .ok (r, u) ∧ Looked t u

/-- **Fresh images have no holes** exactly if the entries of the root directory do not fill their
blocks. -/
theorem noHoles_iff (hn : args.length + 1 < ninodes) (hb : blocksNeeded args ≤ swapbase - sb.nmeta)
    (hrun : main args start = .ok ((), s)) :
    NoHoles s ↔ (args.length + 2) % (bsize / direntSize) ≠ 0 := by
  have hslots : args.length + 1 < inodeSlots := hn.trans (by decide)
  have h := (main_spec hslots).of_ok hrun
  have hfree : s.freeblock ≤ swapbase := by
    have hmeta : sb.nmeta ≤ swapbase := by decide
    rw [h.freeblock_eq hslots]
    omega
  have hlt : direntSize * (args.length + 2) < maxfile * bsize := by
    simp only [direntSize, ninodes, maxfile, ndirect, nindirect, bsize] at hn ⊢
    omega
  have hdvd : bsize ∣ direntSize * (args.length + 2) ↔
      (args.length + 2) % (bsize / direntSize) = 0 := by
    rw [dvd_iff_mod_eq_zero]
    simp only [direntSize, bsize]
    omega
  rw [ne_eq, ← hdvd, ← h.whole_root hlt]
  constructor
  · intro hall
    refine (hall rootino (by decide) ?_).1
    rw [h.type rootino (by decide)]
    exact (by decide : tDir ≠ 0)
  · intro hroot j hj _
    have hw : Whole s.disk (dinodeAt sb s.disk j) := by
      by_cases hjr : j = rootino
      · rwa [hjr]
      · exact h.whole_file (hj.trans (by decide)) hjr
    refine ⟨hw, fun t k room off n hd hheld hcopy hoff hwrap hroom => ?_⟩
    have hh : Holds sb t (dinodeAt sb s.disk) k j :=
      ⟨hj, hcopy, by rw [hd]; exact h.owned hfree, hheld⟩
    rw [whole_iff_backed] at hw
    obtain ⟨u, hu, hl⟩ := readi_exact hh hoff hwrap hroom fun x _ hx => by
      rw [hd]
      exact hw x (zero_le _) (by omega)
    exact ⟨_, u, hu, hl⟩

/-- The image of seven files of the largest size. -/
theorem noHoles_iff_seven : ∃ s, main (replicate 7 largeFile) start = .ok ((), s) ∧ NoHoles s := by
  obtain ⟨s, hs⟩ := main_large (n := 7) (by decide) (by decide)
  refine ⟨s, hs, (noHoles_iff ?_ ?_ hs).2 ?_⟩
  · rw [length_replicate]
    decide
  · rw [blocksNeeded_large]
    decide
  · rw [length_replicate]
    decide

/-- Sixty-two empty files: their entries and the two of the root itself fill one block. -/
def fullBlock : List MkArg :=
  ofFn fun i : Fin 62 => ⟨[97, .ofNat 8 (65 + i)], some [], by revert i; decide⟩

theorem fullBlock_fine : ∀ a ∈ fullBlock, Fine a ∧ (content a).length ≤ maxfile * bsize := by
  intro a ha
  obtain ⟨i, rfl⟩ := mem_ofFn.1 ha
  refine ⟨⟨?_, by simp, ?_⟩, zero_le _⟩
  · clear ha; revert i; decide
  · clear ha; revert i; decide

theorem blocksNeeded_fullBlock : blocksNeeded fullBlock = 1 := by decide

/-- **An image with a hole**: with 62 files the size of the root directory is that of two blocks,
and it has one. -/
theorem fullBlock_hole : ∃ s, main fullBlock start = .ok ((), s) ∧
    fullBlock.length + 1 < ninodes ∧ blocksNeeded fullBlock ≤ swapbase - sb.nmeta ∧
    ¬ NoHoles s := by
  have hlen : fullBlock.length = 62 := length_ofFn
  have hn : fullBlock.length + 1 < inodeSlots := by rw [hlen]; decide
  obtain ⟨s, hs⟩ := main_ok hn fullBlock_fine (by rw [blocksNeeded_fullBlock]; decide)
  have h := (main_spec hn).of_ok hs
  refine ⟨s, hs, by rw [hlen]; decide, by rw [blocksNeeded_fullBlock]; decide, fun hall => ?_⟩
  have hroot :=
    (hall rootino (by decide) (by rw [h.type rootino (by decide)]; exact (by decide : tDir ≠ 0))).1
  refine (h.whole_root ?_).1 hroot ?_ <;>
  · rw [hlen]
    decide

end Xv6Swap.Mk
