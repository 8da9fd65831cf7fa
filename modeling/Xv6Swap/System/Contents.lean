import Xv6Swap.Mkfs.Kernel
import Xv6Swap.Spec.Writei
import Xv6Swap.System.Refs

/-!
# Files as arrays of bytes

What `readi` and `writei` do to the contents of a file, seen as an array of bytes.

* `ArrayWrite`, `ArrayRead` : the two functions act on an array of bytes;
* `bmap_absent` : outside of an operation of the log **no block is added to a file**;
* `byteArray_iff` : a file is an array of bytes, whatever the log holds, **exactly if it has no hole
  below its size**;
* `root_not_byteArray` : `mkfs` writes a root directory that has one.

Writing is right for every file.  It is `readi` that fails at a hole: `bmap` wants to allocate the
missing block, and the calls that read are not inside an operation.
-/

namespace Xv6Swap

open List Fs Nat

namespace Fs

open Run

variable {sb : Superblock} {s s' t : Fs} {D D' : ℕ → Dinode} {k i bn off n x : ℕ}

/-! ### Outside of an operation -/

/-- Outside of an operation `balloc` finds no block, if it returns. -/
theorem balloc_outside (hout : s.outstanding < 1) :
    Ensures (balloc sb s) (fun a _ => a = 0) fun _ => True := by
  have hloop : ∀ (l : List ℕ) (limit : ℕ) (s : Fs), s.outstanding < 1 →
      Ensures (ballocLoop sb limit l s) (fun a _ => a = 0) fun _ => True := by
    intro l limit
    induction l with
    | nil => exact fun s _ => rfl
    | cons c l ih =>
      intro s hout
      rw [ballocLoop]
      by_cases hheld : sb.bblock (c * bpb) ∈ s.held
      · rw [bind_error (bread_held hheld)]
        exact trivial
      · rw [bind_ok (bread_ok hheld)]
        cases (range (min bpb (limit - c * bpb))).find? fun bi =>
            !mapBit (s.disk (sb.bblock (c * bpb))) (c * bpb + bi) with
        | none => exact ih _ hout
        | some bi =>
          have hlog : ∃ e, logWrite sb (sb.bblock (c * bpb))
              (orBit (s.disk (sb.bblock (c * bpb))) (c * bpb + bi))
              (s.reading (sb.bblock (c * bpb))) = .error e := by
            rw [logWrite, bind_read, id, Run.ite_apply]
            split
            · exact ⟨_, rfl⟩
            · rw [if_pos (show (s.reading (sb.bblock (c * bpb))).outstanding < 1 from hout)]
              exact ⟨_, rfl⟩
          obtain ⟨e, he⟩ := hlog
          dsimp only
          rw [bind_error he]
          exact trivial
  exact hloop _ _ s hout

/-- **No block is added to a file** outside of an operation: at a hole `bmap` finds no block, if it
returns. -/
theorem bmap_absent (hout : s.outstanding < 1)
    (h0 : ¬ (bn < maxfile ∧ (s.inode k).d.ref s.disk (blockPlace bn) ≠ 0)) :
    Ensures (bmap sb k bn s) (fun a _ => a = 0) fun _ => True := by
  have haddr : ∀ f, (s.inode k).d.addr f = 0 →
      Ensures (bmapAddr sb k f s) (fun a _ => a = 0) fun _ => True := by
    intro f hf
    rw [bmapAddr, bind_read, Run.ite_apply, if_pos hf]
    refine (balloc_outside hout).bind ?_
    rintro a t rfl
    exact rfl
  rw [bmap, Run.ite_apply]
  split
  case isTrue hdir =>
    have hplace : blockPlace bn = bn := if_pos hdir
    refine haddr bn (by_contra fun hne => h0 ⟨by simp only [maxfile]; omega, ?_⟩)
    rwa [hplace, Dinode.ref_direct (by omega)]
  case isFalse hdir =>
    rw [Run.ite_apply]
    split
    case isTrue hind =>
      have hlt : ndirect < blockPlace bn := by rw [blockPlace, if_neg hdir]; omega
      by_cases ha : (s.inode k).d.addr ndirect = 0
      · refine (haddr ndirect ha).bind ?_
        rintro a t rfl
        exact rfl
      · have hfound : bmapAddr sb k ndirect s = .ok ((s.inode k).d.addr ndirect, s) := by
          rw [bmapAddr, bind_read, Run.ite_apply, if_neg ha]
          rfl
        have hentry : indAt (s.disk ((s.inode k).d.addr ndirect)) (bn - ndirect) = 0 := by
          refine by_contra fun hne => h0 ⟨by simp only [maxfile]; omega, ?_⟩
          rwa [Dinode.ref_entry hlt ha, blockPlace, if_neg hdir, Nat.add_sub_add_right]
        rw [bind_ok hfound, if_neg ha, bmapIndirect]
        by_cases hheld : (s.inode k).d.addr ndirect ∈ s.held
        · rw [bind_error (bread_held hheld)]
          exact trivial
        · rw [bind_ok (bread_ok hheld), Run.ite_apply, if_pos hentry]
          refine Ensures.bind (balloc_outside (s := s.reading _) hout) ?_
          rintro a t rfl
          exact rfl
    case isFalse => exact trivial

/-! ### Arrays of bytes -/

/-- The effect of `m` bytes of `src` written at `off` to the file in the entry `k`. -/
structure WroteBytes (sb : Superblock) (D : ℕ → Dinode) (k : ℕ) (src : List Byte) (off m : ℕ)
    (s s' : Fs) : Prop where
  byte : ∀ x, (s'.inode k).d.byte s'.disk x =
    if off ≤ x ∧ x < off + m then src.getD (x - off) 0 else (s.inode k).d.byte s.disk x
  size : (s'.inode k).d.size.toNat = max (s.inode k).d.size.toNat (off + m)
  others : ∀ j < sb.ninodes, j ≠ (s.inode k).inum →
    dinodeAt sb s'.disk j = dinodeAt sb s.disk j ∧ ∀ x, (D j).byte s'.disk x = (D j).byte s.disk x

/-- `writei` writes to an array of bytes: fewer bytes than asked for only if the disk is full, and
none at all if the range is not one of a file. -/
def ArrayWrite (sb : Superblock) (D : ℕ → Dinode) (k : ℕ) (s : Fs) : Prop :=
  ∀ (src : List Byte) (off n : ℕ), off < 2 ^ 32 → n < 2 ^ 32 → n ≤ src.length →
    if (s.inode k).d.size.toNat < off ∨ 2 ^ 32 ≤ off + n ∨ maxfile * bsize < off + n then
      writei sb k src off n s = .ok (-1, s)
    else Ensures (writei sb k src off n s) (fun r s' => ∃ m : ℕ, r = m ∧ m ≤ n ∧
      (m < n → Full sb s'.disk) ∧ WroteBytes sb D k src off m s s') LogStop

/-- The number of bytes that a read of `n` bytes at `off` gives. -/
def readLength (size off n : ℕ) : ℕ :=
  if size < off ∨ 2 ^ 32 ≤ off + n then 0 else min n (size - off)

/-- `readi` returns the bytes of an array. -/
def ArrayRead (sb : Superblock) (k : ℕ) (s : Fs) : Prop :=
  ∀ room off n : ℕ, off < 2 ^ 32 → n < 2 ^ 32 → n ≤ room →
    ∃ s', readi sb k room off n s =
      .ok (((readLength (s.inode k).d.size.toNat off n : ℕ),
        (s.inode k).d.bytes s.disk off (readLength (s.inode k).d.size.toNat off n)), s')

/-- The same blocks and inodes, with whatever state of the log. -/
structure SameFiles (s t : Fs) : Prop where
  disk : t.disk = s.disk
  inode : t.inode = s.inode
  held : t.held = s.held

theorem Holds.same (h : Holds sb s D k i) (hs : SameFiles s t) : Holds sb t D k i where
  lt := h.lt
  copy := by rw [hs.inode, h.copy]
  owned := by rw [hs.disk]; exact h.owned
  held := hs.held.trans h.held

/-- **Writing** is writing to an array of bytes, with holes or without. -/
theorem arrayWrite (h : Holds sb s D k (s.inode k).inum) : ArrayWrite sb D k s := by
  intro src off n hoff hn hsrc
  split
  case isTrue hbad =>
    refine writei_refused h.copy ?_
    rw [← h.copy]
    omega
  case isFalse hgood =>
    simp only [not_or, Nat.not_lt, not_le] at hgood
    obtain ⟨hsize, hwrap, hmax⟩ := hgood
    rw [h.copy] at hsize
    refine (writei_spec h rfl hsize hwrap hmax).imp ?_
    rintro r s' ⟨m, l, D', rfl, hmn, -, -, hs, hl⟩
    obtain ⟨rfl, -, hfull⟩ := hl hsrc
    have hlen : (src.take m).length = m := by
      rw [length_take]
      omega
    refine ⟨m, rfl, hmn, hfull, ?_, ?_, ?_⟩
    · intro x
      rw [hs.holds.copy, hs.byte _ h.lt x, hlen, h.copy]
      by_cases hx : off ≤ x ∧ x < off + m
      · rw [if_pos ⟨rfl, hx⟩, if_pos hx, getD_eq_getElem?_getD,
          getElem?_take_of_lt (by omega), ← getD_eq_getElem?_getD]
      · rw [if_neg fun hc => hx hc.2, if_neg hx]
    · rw [hs.holds.copy, hs.size, h.copy]
    · intro j hj hne
      refine ⟨hs.others j hj hne, fun x => ?_⟩
      rw [← hs.inodes j hne, hs.byte j hj x, if_neg fun hc => hne hc.1, hs.inodes j hne]

/-- **Reading** a file without holes is reading an array of bytes. -/
theorem arrayRead (h : Holds sb s D k i)
    (hb : Backed s.disk (s.inode k).d 0 (s.inode k).d.size.toNat) : ArrayRead sb k s := by
  intro room off n hoff hn hroom
  rw [readLength]
  split
  case isTrue hbad =>
    refine ⟨s, ?_⟩
    rw [readi, bind_read, Run.ite_apply, if_pos (by omega)]
    rfl
  case isFalse hgood =>
    rw [h.copy] at hb hgood ⊢
    obtain ⟨t, ht, -⟩ := readi_exact h (by omega) (by omega : off + n < 2 ^ 32) hroom
      fun x hlo hhi => hb x (zero_le _) (by omega)
    exact ⟨t, ht⟩

/-- Outside of an operation one byte in a hole cannot be read. -/
theorem readi_hole (h : Holds sb s D k i) (hout : s.outstanding < 1) (hx : x < (D i).size.toNat)
    (h0 : ¬ (x / bsize < maxfile ∧ (D i).ref s.disk (blockPlace (x / bsize)) ≠ 0)) :
    Ensures (readi sb k 1 x 1 s) (fun r _ => r = (0, [])) fun _ => True := by
  rw [← h.copy] at h0
  rw [readi, bind_read, h.copy, Run.ite_apply, if_neg (by omega)]
  dsimp only
  rw [if_neg (by omega), readiLoop, Run.ite_apply, if_neg Nat.one_ne_zero]
  refine (bmap_absent hout h0).bind ?_
  rintro a s' rfl
  exact rfl

/-- A hole shows outside of an operation. -/
theorem not_arrayRead (h : Holds sb s D k i) (hout : s.outstanding < 1) (hx : x < (D i).size.toNat)
    (h0 : ¬ (x / bsize < maxfile ∧ (D i).ref s.disk (blockPlace (x / bsize)) ≠ 0)) :
    ¬ ArrayRead sb k s := by
  intro hread
  obtain ⟨s', hs'⟩ := hread 1 x 1 (by omega) (by decide) (le_refl _)
  have hlen : readLength (s.inode k).d.size.toNat x 1 = 1 := by
    rw [readLength, h.copy, if_neg (by omega)]
    omega
  have hr := (readi_hole h hout hx h0).of_ok hs'
  rw [hlen] at hr
  have hone : ((1 : ℕ) : ℤ) = 0 := congrArg Prod.fst hr
  exact absurd hone (by decide)

/-- **Files are arrays of bytes** exactly as far as they have no holes below their size. -/
theorem byteArray_iff (h : Holds sb s D k (s.inode k).inum) :
    (∀ t, SameFiles s t → ArrayWrite sb D k t ∧ ArrayRead sb k t) ↔
      Backed s.disk (s.inode k).d 0 (s.inode k).d.size.toNat := by
  constructor
  · intro hall x _ hx
    by_contra h0
    have hs : SameFiles s { s with lh := [], outstanding := 0 } := ⟨rfl, rfl, rfl⟩
    rw [h.copy] at h0 hx
    exact not_arrayRead (h.same hs) (by decide : (0 : ℤ) < 1) (by omega) h0 (hall _ hs).2
  · intro hb t hs
    have ht := h.same hs
    rw [← hs.inode] at ht
    refine ⟨arrayWrite ht, arrayRead ht ?_⟩
    rw [hs.disk, hs.inode]
    exact hb

/-- `ilock` of an inode that is to be read from the disk. -/
theorem ilock_read (hheld : s.held = []) (href : 1 ≤ (s.inode k).ref)
    (hlocked : (s.inode k).locked = false) (hv : (s.inode k).valid = false) :
    ilock sb k s = if (dinodeAt sb s.disk (s.inode k).inum).type = 0 then
      .error (.panic .ilockNoType)
      else .ok ((), ((s.setInode k fun i => { i with locked := true }).saw
        (sb.iblock (s.inode k).inum)).setInode k fun i =>
          { i with d := dinodeAt sb s.disk (s.inode k).inum, valid := true }) := by
  have hread : sb.iblock (s.inode k).inum ∉
      (s.setInode k fun i => { i with locked := true }).held := by
    rw [show (s.setInode k fun i => { i with locked := true }).held = [] from hheld]
    exact List.not_mem_nil
  rw [ilock, bind_read, Run.ite_apply, if_neg (by omega), Run.ite_apply, hlocked,
    if_neg Bool.false_ne_true, modifyInode, bind_modify, Run.ite_apply, hv,
    if_neg Bool.false_ne_true, bind_ok (bread_ok hread), bind_ok brelse_reading, modifyInode,
    bind_modify, Run.ite_apply]
  rfl

/-! ### The root directory of an image -/

end Fs

namespace Mk

open Run

variable {args : List MkArg} {img : Mk}

/-- The state in which the first process has locked the root directory. -/
def rootLocked (disk : ℕ → Mem) : Fs :=
  ((Fs.start disk).saw (sb.iblock rootino)).setInode 0 fun i =>
    { i with locked := true, valid := true, d := dinodeAt sb disk rootino }

/-- `ilock` reads the root directory. -/
theorem Image.ilock_root (h : Image args img) :
    ilock sb 0 (Fs.start img.disk) = .ok ((), rootLocked img.disk) := by
  have htype : (dinodeAt sb img.disk rootino).type ≠ 0 := by
    rw [h.type rootino (by decide)]
    exact (by decide : tDir ≠ 0)
  have hinum : ((Fs.start img.disk).inode 0).inum = rootino := rfl
  have hdisk : (Fs.start img.disk).disk = img.disk := rfl
  rw [ilock_read rfl (by decide : (1 : ℤ) ≤ 1) rfl rfl, hinum, hdisk, if_neg htype, rootLocked,
    setInode, setInode, setInode]
  simp only [saw, Function.update_idem, Function.update_self]

theorem Image.holds_root (h : Image args img) (hfree : img.freeblock ≤ swapbase) :
    Holds sb (rootLocked img.disk) (dinodeAt sb img.disk) 0 rootino where
  lt := by decide
  copy := rfl
  owned := h.owned hfree
  held := rfl

/-- **The root directory that `mkfs` writes is no array of bytes**: with 62 files its second block
is below its size and missing. -/
theorem root_not_byteArray : ∃ img, main fullBlock start = .ok ((), img) ∧
    ilock sb 0 (Fs.start img.disk) = .ok ((), rootLocked img.disk) ∧
    Holds sb (rootLocked img.disk) (dinodeAt sb img.disk) 0 rootino ∧
    ¬ ArrayRead sb 0 (rootLocked img.disk) := by
  have hlen : fullBlock.length = 62 := length_ofFn
  have hn : fullBlock.length + 1 < inodeSlots := by rw [hlen]; decide
  obtain ⟨img, himg⟩ := main_ok hn fullBlock_fine (by rw [blocksNeeded_fullBlock]; decide)
  have h := (main_spec hn).of_ok himg
  have hfree : img.freeblock ≤ swapbase := by
    rw [show img.freeblock = total (files fullBlock) from h.tree.count, total_files hn,
      blocksNeeded_fullBlock]
    decide
  have hroot := h.holds_root hfree
  obtain ⟨hlt, h0⟩ := h.root_hole (by rw [hlen]; decide) (by rw [hlen]; decide)
  rw [hlen] at hlt h0
  exact ⟨img, himg, h.ilock_root, hroot,
    not_arrayRead hroot (by decide : (0 : ℤ) < 1) hlt fun hb => hb.2 h0⟩

/-- The root directory of the image without files. -/
theorem byteArray_iff_empty : ∃ img, main [] start = .ok ((), img) ∧
    Holds sb (rootLocked img.disk) (dinodeAt sb img.disk) 0 rootino ∧
    ∀ t, SameFiles (rootLocked img.disk) t →
      ArrayWrite sb (dinodeAt sb img.disk) 0 t ∧ ArrayRead sb 0 t := by
  have hn : ([] : List MkArg).length + 1 < inodeSlots := by decide
  obtain ⟨img, himg⟩ := main_ok hn (fun a ha => absurd ha not_mem_nil) (by decide)
  have h := (main_spec hn).of_ok himg
  have hfree : img.freeblock ≤ swapbase := by
    rw [show img.freeblock = total (files []) from h.tree.count, total_files hn]
    decide
  have hroot := h.holds_root hfree
  refine ⟨img, himg, hroot, (byteArray_iff hroot).2 fun x _ hx => ?_⟩
  have hsize : (dinodeAt sb img.disk rootino).size.toNat = 1024 := by
    rw [h.root, length_rootBytes]
    decide
  have hx : x < 1024 := by
    rw [hroot.copy, hsize] at hx
    omega
  have hbn : x / bsize = 0 := div_eq_of_lt hx
  rw [hbn]
  refine ⟨by decide, ?_⟩
  rw [hroot.copy]
  refine (h.ref_ne_iff (by decide) (by decide)).2 (filled_blockPlace.2 ?_)
  rw [files_root, length_rootBytes]
  decide

end Mk

end Xv6Swap
