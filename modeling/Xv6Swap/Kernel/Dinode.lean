import Xv6Swap.Kernel.Layout
import Xv6Swap.Lib.Words

/-!
# The on-disk formats of the file system

`struct dinode` and `struct dirent` of `kernel/fs.h`, the bits of the free map and the entries of an
indirect block, as they lie in the bytes of a block, with their round trips and with what a change
leaves alone.

* `Dinode.load_store` : what is stored is what is loaded;
* `dinodeAt_setDinode_self`, `bitAt_orBit` : the same for a whole disk, with the other bits;
* `dinodeAt_update`, `bitAt_update` : a change of another block is not seen.
-/

namespace Xv6Swap

open Function List Mem Nat

/-! ### Inodes -/

/-- `struct dinode`: the fields of an inode that live on disk. -/
@[ext]
structure Dinode where
  type : BitVec 16
  major : BitVec 16
  minor : BitVec 16
  nlink : BitVec 16
  size : BitVec 32
  addrs : Fin (ndirect + 1) → BitVec 32

/-- `T_DIR`. -/
abbrev tDir : BitVec 16 := 1

/-- `T_FILE`. -/
abbrev tFile : BitVec 16 := 2

/-- `T_DEVICE`. -/
abbrev tDevice : BitVec 16 := 3

namespace Dinode

/-- The inode whose bytes are all zero. -/
def zero : Dinode := ⟨0, 0, 0, 0, 0, fun _ => 0⟩

/-- The fields before `addrs`, in the order in which they are stored. -/
def header (d : Dinode) : List (ℕ × ℕ) :=
  [(2, d.type.toNat), (2, d.major.toNat), (2, d.minor.toNat), (2, d.nlink.toNat), (4, d.size.toNat)]

/-- The inode at an offset of a block. -/
def load (m : Mem) (o : ℕ) : Dinode where
  type := .ofNat 16 (m.loadLE 2 o)
  major := .ofNat 16 (m.loadLE 2 (o + 2))
  minor := .ofNat 16 (m.loadLE 2 (o + 4))
  nlink := .ofNat 16 (m.loadLE 2 (o + 6))
  size := .ofNat 32 (m.loadLE 4 (o + 8))
  addrs j := .ofNat 32 (m.loadLE 4 (o + (12 + 4 * j)))

/-- Store an inode at an offset of a block. -/
def store (m : Mem) (o : ℕ) (d : Dinode) : Mem :=
  (m.storeFields o d.header).storeWords 4 (o + 12) (ofFn fun j => (d.addrs j).toNat)

theorem sameOutside_store (m : Mem) (o : ℕ) (d : Dinode) :
    m.SameOutside (d.store m o) o dinodeSize := by
  have hheader := sameOutside_storeFields m o d.header
  refine (hheader.mono (le_refl o) (by simp [header, dinodeSize])).trans ?_
  refine (sameOutside_storeWords _ 4 (o + 12) _).mono (by omega) ?_
  rw [length_ofFn]
  simp only [dinodeSize, ndirect]
  omega

theorem load_congr {m m' : Mem} {o : ℕ} (h : m.AgreeOn m' o dinodeSize) : load m' o = load m o := by
  have hfield : ∀ k n, k + n ≤ dinodeSize → m'.loadLE n (o + k) = m.loadLE n (o + k) :=
    fun k n hk => loadLE_congr (h.mono (by omega) (by omega))
  have haddr : ∀ j : Fin (ndirect + 1),
      m'.loadLE 4 (o + (12 + 4 * j)) = m.loadLE 4 (o + (12 + 4 * j)) := by
    intro j
    have hj := j.isLt
    simp only [ndirect] at hj
    exact hfield (12 + 4 * j) 4 (by simp only [dinodeSize]; omega)
  have h0 : m'.loadLE 2 o = m.loadLE 2 o := hfield 0 2 (by decide)
  simp only [load, h0, hfield 2 2 (by decide), hfield 4 2 (by decide), hfield 6 2 (by decide),
    hfield 8 4 (by decide), haddr]

theorem ofNat_mod_eq {w n : ℕ} (v : BitVec w) (h : 256 ^ n = 2 ^ w) :
    BitVec.ofNat w (v.toNat % 256 ^ n) = v := by
  rw [h, mod_eq_of_lt v.isLt, BitVec.ofNat_toNat, BitVec.setWidth_eq]

/-- **Round trip.** -/
theorem load_store (m : Mem) (o : ℕ) (d : Dinode) : load (d.store m o) o = d := by
  -- the block addresses lie behind the header
  have hskip : ∀ k n, k + n ≤ 12 →
      (d.store m o).loadLE n (o + k) = (m.storeFields o d.header).loadLE n (o + k) := fun k n hk =>
    loadLE_of_sameOutside (sameOutside_storeWords _ 4 (o + 12) _) (.inl (by omega))
  have hload : ∀ i (h : i < 5), _ := loadLE_storeFields m o d.header
  have haddr : ∀ j : Fin (ndirect + 1), (d.store m o).loadLE 4 (o + (12 + 4 * j)) =
      (d.addrs j).toNat % 256 ^ 4 := by
    intro j
    have hj := loadLE_storeWords (m.storeFields o d.header) 4 (o + 12)
      (ofFn fun j => (d.addrs j).toNat) j (by rw [length_ofFn]; exact j.isLt)
    rwa [List.getElem_ofFn, add_assoc] at hj
  refine Dinode.ext ?_ ?_ ?_ ?_ ?_ (funext fun j => ?_)
  · exact (congrArg (BitVec.ofNat 16) ((hskip 0 2 (by decide)).trans (hload 0 (by decide)))).trans
      (ofNat_mod_eq d.type rfl)
  · exact (congrArg (BitVec.ofNat 16) ((hskip 2 2 (by decide)).trans (hload 1 (by decide)))).trans
      (ofNat_mod_eq d.major rfl)
  · exact (congrArg (BitVec.ofNat 16) ((hskip 4 2 (by decide)).trans (hload 2 (by decide)))).trans
      (ofNat_mod_eq d.minor rfl)
  · exact (congrArg (BitVec.ofNat 16) ((hskip 6 2 (by decide)).trans (hload 3 (by decide)))).trans
      (ofNat_mod_eq d.nlink rfl)
  · exact (congrArg (BitVec.ofNat 32) ((hskip 8 4 (by decide)).trans (hload 4 (by decide)))).trans
      (ofNat_mod_eq d.size rfl)
  · exact (congrArg (BitVec.ofNat 32) (haddr j)).trans (ofNat_mod_eq (d.addrs j) rfl)

end Dinode

section Disk

variable (sb : Superblock)

/-- The inode with a number, on disk. -/
def dinodeAt (disk : ℕ → Mem) (inum : ℕ) : Dinode :=
  Dinode.load (disk (sb.iblock inum)) (inum % ipb * dinodeSize)

/-- The block of an inode with the inode replaced. -/
def putDinode (data : Mem) (inum : ℕ) (d : Dinode) : Mem := d.store data (inum % ipb * dinodeSize)

/-- The disk with an inode replaced. -/
def setDinode (disk : ℕ → Mem) (inum : ℕ) (d : Dinode) : ℕ → Mem :=
  update disk (sb.iblock inum) (putDinode (disk (sb.iblock inum)) inum d)

variable {sb} {disk : ℕ → Mem} {i j b c : ℕ}

theorem dinodeAt_update (data : Mem) (h : b ≠ sb.iblock i) :
    dinodeAt sb (update disk b data) i = dinodeAt sb disk i := by
  rw [dinodeAt, update_of_ne h.symm]
  rfl

@[simp] theorem dinodeAt_setDinode_self (d : Dinode) :
    dinodeAt sb (setDinode sb disk i d) i = d := by
  rw [dinodeAt, setDinode, update_self, putDinode, Dinode.load_store]

theorem dinodeAt_setDinode_of_ne (d : Dinode) (h : j ≠ i) :
    dinodeAt sb (setDinode sb disk i d) j = dinodeAt sb disk j := by
  by_cases hb : sb.iblock i = sb.iblock j
  · -- two slots of one block
    have hslot : j % ipb ≠ i % ipb := by
      simp only [Superblock.iblock, ipb, bsize, dinodeSize] at hb ⊢
      omega
    rw [dinodeAt, setDinode, hb, update_self]
    refine Dinode.load_congr ((Dinode.sameOutside_store _ _ d).agreeOn ?_)
    simp only [dinodeSize]
    omega
  · exact dinodeAt_update _ hb

theorem setDinode_of_ne (d : Dinode) (h : b ≠ sb.iblock i) : setDinode sb disk i d b = disk b :=
  update_of_ne h ..

end Disk

/-! ### The free map -/

section Bitmap

/-- The bit of a block in its block of the free map: `bp->data[bi/8] & (1 << (bi % 8))`. -/
def mapBit (data : Mem) (b : ℕ) : Bool := (data (b % bpb / 8)).getLsbD (b % bpb % 8)

/-- The block of the free map with a bit set. -/
def orBit (data : Mem) (b : ℕ) : Mem :=
  update data (b % bpb / 8) (data (b % bpb / 8) ||| 1#8 <<< (b % bpb % 8))

/-- The block of the free map with a bit cleared. -/
def clearBit (data : Mem) (b : ℕ) : Mem :=
  update data (b % bpb / 8) (data (b % bpb / 8) &&& ~~~(1#8 <<< (b % bpb % 8)))

theorem mapBit_orBit (data : Mem) (b c : ℕ) :
    mapBit (orBit data b) c = (mapBit data c || decide (c % bpb = b % bpb)) := by
  have hlt : b % bpb % 8 < 8 := mod_lt _ (by decide)
  unfold mapBit orBit
  by_cases hbyte : c % bpb / 8 = b % bpb / 8
  · rw [hbyte, update_self, getLsbD_or_one_shiftLeft _ hlt]
    congr 2
    exact propext ⟨fun h => by omega, fun h => by rw [h]⟩
  · have hne : c % bpb ≠ b % bpb := fun h => hbyte (by rw [h])
    rw [update_of_ne hbyte, decide_eq_false hne, Bool.or_false]

variable (sb : Superblock)

/-- The bit of a block in the free map on disk. -/
def bitAt (disk : ℕ → Mem) (b : ℕ) : Bool := mapBit (disk (sb.bblock b)) b

variable {sb} {disk : ℕ → Mem} {b c : ℕ}

theorem bitAt_update (data : Mem) (h : b ≠ sb.bblock c) :
    bitAt sb (update disk b data) c = bitAt sb disk c := by
  rw [bitAt, update_of_ne h.symm]
  rfl

theorem eq_of_bblock (h : sb.bblock c = sb.bblock b) (h' : c % bpb = b % bpb) : c = b := by
  simp only [Superblock.bblock] at h
  rw [← div_add_mod c bpb, ← div_add_mod b bpb, h', add_right_cancel h]

theorem bitAt_orBit : bitAt sb (update disk (sb.bblock b) (orBit (disk (sb.bblock b)) b)) c =
      (bitAt sb disk c || decide (c = b)) := by
  by_cases hb : sb.bblock b = sb.bblock c
  · have hiff : c % bpb = b % bpb ↔ c = b := ⟨eq_of_bblock hb.symm, fun h => by rw [h]⟩
    rw [bitAt, ← hb, update_self, mapBit_orBit, bitAt, ← hb]
    congr 2
    exact propext hiff
  · have hne : c ≠ b := fun h => hb (by rw [h])
    rw [bitAt_update _ hb, decide_eq_false hne, Bool.or_false]

end Bitmap

/-! ### Indirect blocks -/

/-- The entry `k` of an indirect block. -/
def indAt (data : Mem) (k : ℕ) : ℕ := data.loadLE 4 (4 * k)

/-- An indirect block with an entry replaced. -/
def putInd (data : Mem) (k v : ℕ) : Mem := data.storeLE 4 (4 * k) v

theorem indAt_putInd_self (data : Mem) (k : ℕ) {v : ℕ} (h : v < 2 ^ 32) :
    indAt (putInd data k v) k = v := by
  rw [indAt, putInd, loadLE_storeLE_self, mod_eq_of_lt (by omega)]

theorem indAt_putInd_of_ne (data : Mem) {j k : ℕ} (v : ℕ) (h : j ≠ k) :
    indAt (putInd data k v) j = indAt data j :=
  loadLE_of_sameOutside (sameOutside_storeLE data 4 (4 * k) v) (by omega)

/-! ### Directory entries -/

/-- `DIRSIZ`. -/
abbrev dirsiz : ℕ := 14

/-- The size of `struct dirent`. -/
abbrev direntSize : ℕ := 16

/-- The string that starts a list of bytes. -/
def cstr (l : List Byte) : List Byte := l.takeWhile fun c => c ≠ 0

/-- `struct dirent`, with the name as the string it holds. -/
structure Dirent where
  inum : ℕ
  name : List Byte
  deriving DecidableEq, Repr

namespace Dirent

/-- A directory entry taken out of its bytes. -/
def ofBytes (l : List Byte) : Dirent where
  inum := (l.getD 0 0).toNat + 256 * (l.getD 1 0).toNat
  name := cstr ((l.drop 2).take dirsiz)

/-- The bytes of a directory entry: `de.inum = inum`, `strncpy(de.name, name, DIRSIZ)`. -/
def bytes (de : Dirent) : List Byte :=
  [BitVec.ofNat 8 de.inum, BitVec.ofNat 8 (de.inum / 256)] ++
    (de.name.take dirsiz ++ replicate (dirsiz - de.name.length) 0)

@[simp] theorem length_bytes (de : Dirent) : de.bytes.length = direntSize := by
  simp only [bytes, length_append, length_cons, length_nil, length_take,
    length_replicate, dirsiz, direntSize]
  omega

end Dirent

end Xv6Swap
