import Xv6Swap.Mkfs.Image

/-!
# Where the image lies

`mkfs` hands out inodes and blocks from two counters.  It checks neither against the limits that it
writes to the superblock: `balloc` only asserts that the blocks fit into one block of the free map,
and `ialloc` asserts nothing.  So an image that `mkfs` completes can reach into the swap area of the
kernel, or have more inodes than `NINODES`.

* `Mk.Inside` : the image stays inside the file-system area;
* `Mk.blocksNeeded` : the blocks that the files need, from their lengths;
* `Mk.inside_iff` : exactly the files that respect both limits give an image inside it;
* `Mk.swap_overlap` : eight files of the largest size do not.
-/

namespace Xv6Swap.Mk

open Function List Nat Dirent

variable {s : Mk} {args : List MkArg}

/-- The image stays inside the file-system area. -/
structure Inside (s : Mk) : Prop where
  /-- The inodes are below `NINODES`, and stored in the inode blocks. -/
  inums : ∀ i ∈ s.inums, i < ninodes ∧ sb.inodestart ≤ sb.iblock i ∧ sb.iblock i < sb.bmapstart ∧
    (dinodeAt sb s.disk i).type ≠ 0
  /-- No block is handed out twice. -/
  once : s.blocks.Nodup
  /-- The blocks are data blocks below the swap area, and marked. -/
  blocks : ∀ b ∈ s.blocks, sb.nmeta ≤ b ∧ b < swapbase ∧ bitAt sb s.disk b = true

/-- The blocks that the files need: those of the root directory, and those of each file. -/
def blocksNeeded (args : List MkArg) : ℕ :=
  need (direntSize * (args.length + 2)) + (args.map fun a => need (content a).length).sum

theorem total_update (c : ℕ → List Byte) (l : List Byte) {i : ℕ} (hi : i < inodeSlots) :
    total (update c i l) + need (c i).length = total c + need l.length := by
  have := sum_need_update c l hi
  unfold total
  omega

section

variable (hn : args.length + 1 < inodeSlots)
include hn

theorem total_files : total (files args) = sb.nmeta + blocksNeeded args := by
  induction args using reverseRecOn with
  | nil =>
    have h0 : total (fun _ => []) = sb.nmeta := by
      have hneed : need ([] : List Byte).length = 0 := rfl
      rw [total, Finset.sum_congr rfl fun _ _ => hneed, Finset.sum_const_zero, add_zero]
    have h1 := total_update (fun _ => []) ([] ++ bytes ⟨rootino, [46]⟩ ++
      bytes ⟨rootino, [46, 46]⟩) (by decide : rootino < inodeSlots)
    have h2 : blocksNeeded [] = 1 := by decide
    have h3 : need (([] : List Byte) ++ bytes ⟨rootino, [46]⟩ ++
      bytes ⟨rootino, [46, 46]⟩).length = 1 := by decide
    have h4 : need ([] : List Byte).length = 0 := rfl
    rw [files_nil_eq, update_idem]
    omega
  | append_singleton pre a ih =>
    rw [length_append, length_singleton] at hn
    have h0 := ih (by omega)
    have hroot : pre.length + 2 ≠ rootino := by
      simp only [rootino]
      omega
    have h1 := total_update (files pre) (rootBytes pre ++
      bytes ⟨pre.length + 2, shortName a⟩) (by decide : rootino < inodeSlots)
    have h2 := total_update (update (files pre) rootino
      (rootBytes pre ++ bytes ⟨pre.length + 2, shortName a⟩)) (content a)
      (i := pre.length + 2) (by omega)
    rw [← files_concat, update_of_ne hroot, files_new] at h2
    rw [← rootBytes_concat, files_root, length_rootBytes, length_rootBytes] at h1
    have hnil : need ([] : List Byte).length = 0 := rfl
    rw [rootBytes_concat] at h1
    simp only [blocksNeeded, length_append, length_singleton, map_append,
      map_cons, map_nil, sum_append_nat, sum_cons, sum_nil] at h0 h1 ⊢
    omega

/-- `mkfs` completes an image of files that can be opened and have names that fit, as long as the
free map of one block is enough. -/
theorem main_ok (hfine : ∀ a ∈ args, Fine a ∧ (content a).length ≤ maxfile * bsize)
    (hblocks : sb.nmeta + blocksNeeded args < bpb) : ∃ s, main args start = .ok ((), s) := by
  have htotal := total_files hn
  have hfits : Fits args := by
    refine ⟨fun j hj => ?_, ?_⟩
    · unfold files
      split
      · exact zero_le _
      split
      · rw [length_rootBytes]
        simp only [direntSize, inodeSlots, maxfile, ndirect, nindirect, bsize] at hn ⊢
        omega
      · cases ha : args[j - 2]? with
        | none => exact zero_le _
        | some a => exact (hfine a (mem_of_getElem? ha)).2
    · have : bpb + 2 ≤ fssize := by decide
      omega
  have hspec : Ensures (main args start) (fun _ => Image args) fun _ => False := by
    refine (main_spec hn).mono (fun _ _ h => h) fun _ he => ?_
    rcases he with he | he | he
    · exact he fun a ha => (hfine a ha).1
    · exact he hfits
    · omega
  obtain ⟨_, s, hs, -⟩ := hspec.exists_ok
  exact ⟨s, hs⟩

/-- If the files need more blocks than there are below the swap area, the last block handed out lies
in the swap area. -/
theorem not_inside_of_large (h : main args start = .ok ((), s))
    (hgt : swapbase - sb.nmeta < blocksNeeded args) : ¬ Inside s := by
  intro hin
  have himg := (main_spec hn).of_ok h
  have hcount : s.freeblock = total (files args) := himg.tree.count
  rw [total_files hn] at hcount
  have hlast : s.freeblock - 1 ∈ s.blocks := by
    rw [himg.tree.base.blocks, mem_range'_1]
    omega
  have := (hin.blocks _ hlast).2.1
  omega

end

/-- **The image stays inside the file-system area** exactly if there are fewer than `NINODES` inodes
and the blocks that the files need are there below the swap area. -/
theorem inside_iff (h : main args start = .ok ((), s)) :
    Inside s ↔ args.length + 1 < ninodes ∧ blocksNeeded args ≤ swapbase - sb.nmeta := by
  have hinums : s.inums = range' 1 (args.length + 1) := ((main_handed args).of_ok h).2
  have hmem : ∀ i, i ∈ s.inums ↔ 1 ≤ i ∧ i < args.length + 2 := by
    intro i
    rw [hinums, mem_range'_1]
    omega
  constructor
  · intro hin
    have hlt : args.length + 1 < ninodes := (hin.inums _ ((hmem _).2 ⟨by omega, by omega⟩)).1
    have hn : args.length + 1 < inodeSlots := lt_trans hlt (by decide)
    exact ⟨hlt, Nat.le_of_not_lt fun hgt => not_inside_of_large hn h hgt hin⟩
  · rintro ⟨hlt, hle⟩
    have hn : args.length + 1 < inodeSlots := lt_trans hlt (by decide)
    have himg := (main_spec hn).of_ok h
    have hcount : s.freeblock = total (files args) := himg.tree.count
    have hblocks := himg.tree.base.blocks
    rw [total_files hn] at hcount
    refine ⟨fun i hi => ?_, ?_, fun b hb => ?_⟩
    · obtain ⟨h1, h2⟩ := (hmem i).1 hi
      have hslot : i < inodeSlots := by omega
      refine ⟨by omega, le_add_left _ _, iblock_lt hslot, ?_⟩
      rw [himg.type i hslot, types, if_neg (by omega)]
      split
      · decide
      · rw [if_pos]
        · decide
        · rename_i hroot
          simp only [rootino] at hroot
          omega
    · rw [hblocks]
      exact nodup_range'
    · rw [hblocks, mem_range'_1] at hb
      have hused := himg.used
      refine ⟨hb.1, by omega, ?_⟩
      rw [himg.bits b (by omega)]
      exact decide_eq_true (by omega)

/-- A file of the largest size, named `a`. -/
def largeFile : MkArg := ⟨[97], some [replicate (maxfile * bsize) 0], by decide⟩

theorem length_largeFile : (content largeFile).length = maxfile * bsize := by
  rw [content, largeFile, Option.getD_some, flatten_singleton, length_replicate]

theorem blocksNeeded_large (n : ℕ) : blocksNeeded (replicate n largeFile) =
    need (direntSize * (n + 2)) + n * need (maxfile * bsize) := by
  rw [blocksNeeded, map_replicate, length_largeFile, length_replicate, sum_replicate_nat]

theorem main_large {n : ℕ} (hn : n + 1 < inodeSlots)
    (hb : sb.nmeta + (need (direntSize * (n + 2)) + n * need (maxfile * bsize)) < bpb) :
    ∃ s, main (replicate n largeFile) start = .ok ((), s) := by
  refine main_ok (by rwa [length_replicate]) (fun a ha => ?_) (by rwa [blocksNeeded_large])
  obtain rfl := eq_of_mem_replicate ha
  refine ⟨⟨?_, nofun, ?_⟩, le_of_eq length_largeFile⟩
  · change Fs.slash ∉ stripUser [97]
    decide
  · change (stripUnderscore (stripUser [97])).length ≤ dirsiz
    decide

/-- Seven files of the largest size. -/
theorem inside_iff_seven : ∃ s, main (replicate 7 largeFile) start = .ok ((), s) ∧ Inside s := by
  obtain ⟨s, hs⟩ := main_large (n := 7) (by decide) (by decide)
  exact ⟨s, hs, (inside_iff hs).2
    ⟨by rw [length_replicate]; decide, by rw [blocksNeeded_large]; decide⟩⟩

/-- **The image overlaps the swap area**: `mkfs` completes an image of eight files of the largest
size, and it does not stay inside the file-system area. -/
theorem swap_overlap : ∃ s, main (replicate 8 largeFile) start = .ok ((), s) ∧ ¬ Inside s := by
  obtain ⟨s, hs⟩ := main_large (n := 8) (by decide) (by decide)
  exact ⟨s, hs, not_inside_of_large (by rw [length_replicate]; decide) hs
    (by rw [blocksNeeded_large]; decide)⟩

end Xv6Swap.Mk
