import Xv6Swap.Spec.Bmap

/-!
# Reading and writing files

The bytes of a file, on a state in which the blocks are owned.

* `Fs.readi_exact` : where the file has blocks `readi` returns its bytes, and nothing can stop it;
* `Written sb i off l` : the bytes `l` are written to the file `i` at `off`, and **no other byte of
  any file changes**.
-/

namespace Xv6Swap

open List Nat Dinode

variable {sb : Superblock} {disk disk' disk'' : ℕ → Mem} {D D' D'' : ℕ → Dinode}
  {i j f g a b c bn off m n x : ℕ} {l l' : List Byte}

open Fs (Free Full)

/-- `n` bytes of a file at `off`. -/
def Dinode.bytes (disk : ℕ → Mem) (d : Dinode) (off n : ℕ) : List Byte :=
  (range n).map fun x => d.byte disk (off + x)

namespace Dinode

variable {d : Dinode}

@[simp] theorem length_bytes : (d.bytes disk off n).length = n := by simp [bytes]

theorem bytes_append (d : Dinode) (disk : ℕ → Mem) (off m n : ℕ) :
    d.bytes disk off (m + n) = d.bytes disk off m ++ d.bytes disk (off + m) n := by
  simp only [bytes, range_add, map_append, map_map]
  congr 1
  exact map_congr_left fun x _ => by rw [Function.comp_apply, add_assoc]

theorem byte_of_ref (hx : x / bsize < maxfile) (h0 : d.ref disk (blockPlace (x / bsize)) ≠ 0) :
    d.byte disk x = disk (d.ref disk (blockPlace (x / bsize))) (x % bsize) := if_pos ⟨hx, h0⟩

theorem bytes_eq (hx : off / bsize < maxfile) (h0 : d.ref disk (blockPlace (off / bsize)) ≠ 0)
    (hm : m ≤ bsize - off % bsize) : d.bytes disk off m =
      (disk (d.ref disk (blockPlace (off / bsize)))).bytes (off % bsize) m := by
  refine map_congr_left fun x hxm => ?_
  have hlt := mem_range.1 hxm
  have hdiv : (off + x) / bsize = off / bsize := by simp only [bsize] at hm ⊢; omega
  have hmod : (off + x) % bsize = off % bsize + x := by simp only [bsize] at hm ⊢; omega
  rw [byte_of_ref (by rwa [hdiv]) (by rwa [hdiv]), hdiv, hmod]

end Dinode

/-! ### Blocks that hold no data -/

namespace OwnedBlocks

variable (h : OwnedBlocks sb disk D) (hd : ∀ c, sb.bmapstart ≤ c → disk' c = disk c)
include h hd

theorem ref_above (hj : j < sb.ninodes) : (D j).ref disk' g = (D j).ref disk g := by
  refine ref_congr (fun _ _ => rfl) fun h0 => hd _ ?_
  have hdir : (D j).ref disk ndirect = (D j).addr ndirect := ref_direct (le_refl _)
  have hge := (h.area j hj ndirect (by decide) (by rwa [hdir])).1
  rw [hdir] at hge
  exact sb.bmapstart_lt.le.trans hge

omit h in
theorem bit_above (b : ℕ) : bitAt sb disk' b = bitAt sb disk b := by
  rw [bitAt, hd _ (sb.bmapstart_le_bblock b), bitAt]

/-- Ownership does not depend on the blocks before the free map. -/
theorem above : OwnedBlocks sb disk' D := by
  refine ⟨h.refs.congr (fun j hj g _ => h.ref_above hd hj) fun j hj g _ => ?_,
    fun j hj g hg hr => ?_, fun c hc hlim => ?_⟩
  · rw [h.ref_above hd hj]
  · rw [h.ref_above hd hj] at hr ⊢
    rw [bit_above hd]
    exact h.area j hj g hg hr
  · rw [bit_above hd]
    exact h.marked c hc hlim

theorem tight_above (ht : Tight sb disk D) : Tight sb disk' D := by
  intro c hge hlt hbit
  rw [bit_above hd] at hbit
  obtain ⟨j, hj, g, hg, hr⟩ := ht c hge hlt hbit
  exact ⟨j, hj, g, hg, by rw [h.ref_above hd hj, hr]⟩

theorem byte_above (hj : j < sb.ninodes) (x : ℕ) : (D j).byte disk' x = (D j).byte disk x := by
  unfold byte
  rw [h.ref_above hd hj]
  split
  case isTrue hx =>
    have hge := (h.area j hj _ (blockPlace_lt hx.1) hx.2).1
    rw [hd _ (sb.bmapstart_lt.le.trans hge)]
  case isFalse => rfl

end OwnedBlocks

theorem OwnedBlocks.congr_refs (h : OwnedBlocks sb disk D)
    (hr : ∀ j g, (D' j).ref disk g = (D j).ref disk g) :
    OwnedBlocks sb disk D' := by
  refine ⟨h.refs.congr (fun j _ g _ => hr j g) fun j _ g _ => by rw [hr], fun j hj g hg h0 => ?_,
    h.marked⟩
  rw [hr] at h0 ⊢
  exact h.area j hj g hg h0

theorem Tight.congr_refs (h : Tight sb disk D) (hr : ∀ j g, (D' j).ref disk g = (D j).ref disk g) :
    Tight sb disk D' := by
  intro b hge hlt hbit
  obtain ⟨j, hj, g, hg, he⟩ := h b hge hlt hbit
  exact ⟨j, hj, g, hg, by rw [hr, he]⟩

/-! ### Bytes written to a file -/

/-- The bytes `l` have been written to the file `i` at `off`; it may have got new blocks. -/
structure Written (sb : Superblock) (i off : ℕ) (l : List Byte) (disk disk' : ℕ → Mem)
    (D D' : ℕ → Dinode) : Prop where
  owned : OwnedBlocks sb disk' D'
  inodes : ∀ j ≠ i, D' j = D j
  attrs : D' i = { D i with addrs := (D' i).addrs }
  below : ∀ c < sb.bmapstart, disk' c = disk c
  byte : ∀ j < sb.ninodes, ∀ x, (D' j).byte disk' x =
    if j = i ∧ off ≤ x ∧ x < off + l.length then l.getD (x - off) 0 else (D j).byte disk x
  ref : ∀ j < sb.ninodes, ∀ g < nplaces, (D j).ref disk g ≠ 0 →
    (D' j).ref disk' g = (D j).ref disk g
  tight : Tight sb disk D → Tight sb disk' D'

theorem GrownFile.written (h : GrownFile sb i disk disk' D D') (off : ℕ) :
    Written sb i off [] disk disk' D D' := by
  refine ⟨h.owned, h.inodes, h.attrs, h.below, fun j hj x => ?_, h.ref, h.tight⟩
  rw [if_neg (by simp only [length_nil]; omega), h.byte j hj x]

theorem Written.trans (hm : l.length = m) (h : Written sb i off l disk disk' D D')
    (h' : Written sb i (off + m) l' disk' disk'' D' D'') :
    Written sb i off (l ++ l') disk disk'' D D'' where
  owned := h'.owned
  inodes := fun j hj => (h'.inodes j hj).trans (h.inodes j hj)
  attrs := by rw [h'.attrs, h.attrs]
  below := fun c hc => (h'.below c hc).trans (h.below c hc)
  byte := fun j hj x => by
    rw [h'.byte j hj x, h.byte j hj x, length_append, hm]
    by_cases hji : j = i
    · by_cases hlo : off ≤ x
      · by_cases hmid : x < off + m
        · rw [if_neg (by omega), if_pos ⟨hji, hlo, hmid⟩, if_pos ⟨hji, hlo, by omega⟩,
            getD_append _ _ _ _ (by omega)]
        · by_cases hhi : x < off + m + l'.length
          · rw [if_pos ⟨hji, by omega, hhi⟩, if_pos ⟨hji, hlo, by omega⟩,
              getD_append_right _ _ _ _ (by omega)]
            congr 1
            omega
          · rw [if_neg (by omega), if_neg (by omega), if_neg (by omega)]
      · rw [if_neg (by omega), if_neg (by omega), if_neg (by omega)]
    · rw [if_neg (fun hc => hji hc.1), if_neg (fun hc => hji hc.1), if_neg (fun hc => hji hc.1)]
  ref := fun j hj g hg h0 => by
    have h1 := h.ref j hj g hg h0
    rw [h'.ref j hj g hg (by rwa [h1]), h1]
  tight := fun ht => h'.tight (h.tight ht)

theorem OwnedBlocks.written (h : OwnedBlocks sb disk D) (hi : i < sb.ninodes)
    (hbn : off / bsize < maxfile)
    (h0 : (D i).ref disk (blockPlace (off / bsize)) ≠ 0) (hl : l.length ≤ bsize - off % bsize) :
    Written sb i off l disk (Function.update disk ((D i).ref disk (blockPlace (off / bsize)))
      ((disk ((D i).ref disk (blockPlace (off / bsize)))).write (off % bsize) l)) D D where
  owned := h.write hi hbn h0 _
  inodes := fun _ _ => rfl
  attrs := rfl
  below := fun c hc => by
    have hge := (h.area i hi _ (blockPlace_lt hbn) h0).1
    have hmeta := sb.bmapstart_lt
    exact Function.update_of_ne (by omega) ..
  byte := fun j hj x => by
    rw [h.byte_write hi hbn h0 _ hj]
    have hb : (x / bsize = off / bsize ∧ off % bsize ≤ x % bsize ∧
        x % bsize < off % bsize + l.length) ↔ (off ≤ x ∧ x < off + l.length) := by
      simp only [bsize] at hl ⊢
      omega
    by_cases hx : j = i ∧ x / bsize = off / bsize
    · obtain ⟨rfl, hdiv⟩ := hx
      rw [if_pos ⟨rfl, hdiv⟩, Mem.write]
      by_cases hin : off % bsize ≤ x % bsize ∧ x % bsize < off % bsize + l.length
      · rw [if_pos hin, if_pos ⟨rfl, hb.1 ⟨hdiv, hin⟩⟩]
        congr 1
        simp only [bsize] at hdiv hin ⊢
        omega
      · rw [if_neg hin, if_neg (fun hc => hin (hb.2 hc.2).2),
          byte_of_ref (by rwa [hdiv]) (by rwa [hdiv]), hdiv]
    · rw [if_neg hx, if_neg (fun hc => hx ⟨hc.1, (hb.2 hc.2).1⟩)]
  ref := fun j hj g _ _ => h.ref_write hi hbn _ hj
  tight := h.tight_write hi hbn h0 _

namespace Fs

open Run

variable {s s' : Fs} {k fuel tot : ℕ}

/-! ### Reading -/

/-- A block that is there is found without the log; the indirect block may be read for it. -/
theorem bmap_present (sb : Superblock) (hheld : s.held = []) (hbn : bn < maxfile)
    (h0 : (s.inode k).d.ref s.disk (blockPlace bn) ≠ 0) :
    ∃ t, bmap sb k bn s = .ok ((s.inode k).d.ref s.disk (blockPlace bn), t) ∧
      (t = s ∨ (s.inode k).d.addr ndirect ≠ 0 ∧ t = s.saw ((s.inode k).d.addr ndirect)) := by
  have haddr : ∀ f, (s.inode k).d.addr f ≠ 0 →
      bmapAddr sb k f s = .ok ((s.inode k).d.addr f, s) := by
    intro f hf
    rw [bmapAddr, bind_read, Run.ite_apply, if_neg hf]
    rfl
  rw [bmap, Run.ite_apply]
  split
  case isTrue hdir =>
    rw [blockPlace, if_pos hdir, Dinode.ref_direct (by omega)] at h0 ⊢
    exact ⟨s, haddr bn h0, .inl rfl⟩
  case isFalse hdir =>
    have hind : bn - ndirect < nindirect := by simp only [maxfile] at hbn; omega
    have hlt : ndirect < blockPlace bn := by rw [blockPlace, if_neg hdir]; omega
    have ha := Dinode.addr_ndirect_ne hlt h0
    have href : (s.inode k).d.ref s.disk (blockPlace bn) =
        indAt (s.disk ((s.inode k).d.addr ndirect)) (bn - ndirect) := by
      rw [Dinode.ref_entry hlt ha, blockPlace, if_neg hdir, Nat.add_sub_add_right]
    rw [href] at h0 ⊢
    rw [if_pos hind, bind_ok (haddr ndirect ha), if_neg ha, bmapIndirect,
      bind_ok (bread_ok (by rw [hheld]; exact List.not_mem_nil)), Run.ite_apply, if_neg h0,
      bind_ok brelse_reading]
    exact ⟨_, rfl, .inr ⟨ha, rfl⟩⟩

theorem bmap_found (h : Holds sb s D k i) (hbn : bn < maxfile)
    (h0 : (D i).ref s.disk (blockPlace bn) ≠ 0) :
    ∃ t, bmap sb k bn s = .ok ((D i).ref s.disk (blockPlace bn), t) ∧ Looked s t := by
  rw [← h.copy] at h0 ⊢
  obtain ⟨t, ht, rfl | ⟨ha, rfl⟩⟩ := bmap_present sb h.held hbn h0
  · exact ⟨t, ht, .refl t⟩
  · refine ⟨_, ht, (Looked.refl s).saw ?_⟩
    have hdir : (D i).ref s.disk ndirect = (D i).addr ndirect := ref_direct (le_refl _)
    rw [h.copy, ← hdir] at ha ⊢
    exact lt_of_lt_of_le (h.owned.area i h.lt ndirect (by decide) ha).2.1 sb.limit_le

theorem Looked.holds (h : Looked s s') (hh : Holds sb s D k i) : Holds sb s' D k i :=
  ⟨hh.lt, by rw [h.eq]; exact hh.copy, by rw [h.disk]; exact hh.owned, h.held.trans hh.held⟩

/-- The block that `bmap` has found can be read. -/
theorem Holds.read (h : Holds sb s D k i) (hbn : bn < maxfile)
    (h0 : (D i).ref s.disk (blockPlace bn) ≠ 0) :
    bread ((D i).ref s.disk (blockPlace bn)) s = .ok (s.disk ((D i).ref s.disk (blockPlace bn)),
      s.reading ((D i).ref s.disk (blockPlace bn))) ∧ (D i).ref s.disk (blockPlace bn) < swapbase :=
  ⟨bread_ok (by rw [h.held]; exact not_mem_nil),
    lt_of_lt_of_le (h.owned.area i h.lt _ (blockPlace_lt hbn) h0).2.1 sb.limit_le⟩

/-- The file has blocks for `n` bytes at `off`. -/
def Backed (disk : ℕ → Mem) (d : Dinode) (off n : ℕ) : Prop :=
  ∀ x, off ≤ x → x < off + n → x / bsize < maxfile ∧ d.ref disk (blockPlace (x / bsize)) ≠ 0

/-- The file has a block for each index below the number of blocks of its size. -/
def Whole (disk : ℕ → Mem) (d : Dinode) : Prop :=
  ∀ bn < (d.size.toNat + (bsize - 1)) / bsize,
    bn < maxfile ∧ d.ref disk (blockPlace bn) ≠ 0

theorem whole_iff_backed (disk : ℕ → Mem) (d : Dinode) :
    Whole disk d ↔ Backed disk d 0 d.size.toNat := by
  constructor
  · intro h x _ hx
    refine h (x / bsize) ?_
    simp only [bsize]
    omega
  · intro h bn hbn
    have hb := h (bn * bsize) (zero_le _) (by simp only [bsize] at hbn ⊢; omega)
    rwa [Nat.mul_div_cancel _ (by decide)] at hb

/-- **Where the file has blocks**, the loop of `readi` returns its bytes. -/
theorem readiLoop_exact (room : ℕ) (acc : List Byte) (h : Holds sb s D k i)
    (hb : Backed s.disk (D i) off n) (hroom : acc.length + n ≤ room) (hfuel : n < fuel) :
    ∃ t, readiLoop sb k room fuel off n acc s =
      .ok (((acc.length + n : ℕ), acc ++ (D i).bytes s.disk off n), t) ∧ Looked s t := by
  induction fuel generalizing s off n acc with
  | zero => omega
  | succ fuel ih =>
    rw [readiLoop, Run.ite_apply]
    split
    case isTrue hn =>
      subst hn
      exact ⟨s, by simp [bytes], .refl s⟩
    case isFalse hn =>
      obtain ⟨hbn, h0⟩ := hb off (le_refl _) (by omega)
      obtain ⟨t, hmap, ht⟩ := bmap_found h hbn h0
      have h₁ := ht.holds h
      rw [bind_ok hmap, Run.ite_apply, if_neg h0]
      rw [← ht.disk] at h0 ⊢
      obtain ⟨hread, hlow⟩ := h₁.read hbn h0
      rw [bind_ok hread, bind_ok brelse_reading, Run.ite_apply]
      obtain ⟨m, hm⟩ : ∃ m, m = min n (bsize - off % bsize) := ⟨_, rfl⟩
      have hmod : off % bsize < bsize := mod_lt _ (by decide)
      rw [← hm, if_neg (by omega)]
      have hl := ht.saw hlow
      have hb' : Backed (t.saw ((D i).ref t.disk (blockPlace (off / bsize)))).disk (D i) (off + m)
          (n - m) := by
        rw [hl.disk]
        exact fun x hx hx' => hb x (by omega) (by omega)
      obtain ⟨u, hu, hlu⟩ := ih (acc ++ (D i).bytes t.disk off m) (hl.holds h) hb'
        (by simp only [length_append, length_bytes]; omega) (by omega)
      refine ⟨u, ?_, hl.trans hlu⟩
      rw [← bytes_eq hbn h0 (by omega), hu, hl.disk, ht.disk, append_assoc,
        ← bytes_append, length_append, length_bytes, add_assoc,
        Nat.add_sub_cancel' (by omega : m ≤ n)]

/-- **Where the file has blocks**, `readi` returns its bytes up to its end. -/
theorem readi_exact {room : ℕ} (h : Holds sb s D k i) (hoff : off ≤ (D i).size.toNat)
    (hwrap : off + n < 2 ^ 32) (hroom : n ≤ room)
    (hb : Backed s.disk (D i) off (min n ((D i).size.toNat - off))) : ∃ t, readi sb k room off n s =
      .ok (((min n ((D i).size.toNat - off) : ℕ),
        (D i).bytes s.disk off (min n ((D i).size.toNat - off))), t) ∧ Looked s t := by
  have hlen : (if (off + n) % 2 ^ 32 > (D i).size.toNat then (D i).size.toNat - off else n) =
      min n ((D i).size.toNat - off) := by
    rw [Nat.mod_eq_of_lt hwrap]
    split <;> omega
  rw [readi, bind_read, h.copy, Run.ite_apply, if_neg (by rw [Nat.mod_eq_of_lt hwrap]; omega)]
  dsimp only
  rw [hlen]
  obtain ⟨t, ht, hl⟩ := readiLoop_exact room [] h hb
    (by rw [List.length_nil]; omega) (Nat.lt_succ_self _)
  refine ⟨t, ?_, hl⟩
  rw [ht, List.length_nil, Nat.zero_add, List.nil_append]

end Fs

end Xv6Swap
