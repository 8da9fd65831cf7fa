import Xv6Swap.Spec.Content

/-!
# Writing to a file

The loop of `writei`, block by block.

* `Fs.Progress` : a part of the source has been written, with new blocks where the file had none;
  every block that has changed is in the log;
* `Fs.WriteEnd`, `Fs.writeiLoop_spec` : the three ways in which the loop ends, with everything
  written, with a full disk, or with a source that cannot be read, which **leaves bytes in a buffer
  that need not be in the log**;
* `Fs.writei_spec` : the size and the inode on disk afterwards.
-/

namespace Xv6Swap.Fs

open Function List Nat

open Run

variable {sb : Superblock} {s s' s'' s₁ : Fs} {D D' D'' D₁ : ℕ → Dinode}
  {k i off cov cov' n tot fuel m : ℕ} {l l' src : List Byte} {r : ℕ × ℕ}

/-- The bytes `l` have been written to the file `i` at `off`; the file has blocks for `cov`
bytes. -/
structure Progress (sb : Superblock) (k i off cov : ℕ) (l : List Byte) (s s' : Fs)
    (D D' : ℕ → Dinode) : Prop where
  holds : Holds sb s' D' k i
  moves : Moves k s s'
  pinned : Pinned s s'
  written : Written sb i off l s.disk s'.disk D D'
  backed : Backed s'.disk (D' i) off cov
  new : ∀ g < nplaces, (D i).ref s.disk g = 0 → (D' i).ref s'.disk g ≠ 0 →
    (D' i).ref s'.disk g ∈ s'.lh
  old : ∀ g < nplaces, g ≠ ndirect → (D i).ref s.disk g ≠ 0 → (D i).ref s.disk g ∈ s'.lh →
    (D i).ref s.disk g ∈ s.lh ∨ ∃ x, off ≤ x ∧ x < off + l.length ∧ g = blockPlace (x / bsize)
  room : ∀ W : Finset ℕ, (∀ g ∈ W, g < nplaces) →
    (∀ x, off ≤ x → x < off + cov → placesOf (x / bsize) ⊆ W) →
    (HasRoom sb s.disk (D i) W ↔ HasRoom sb s'.disk (D' i) W)

theorem Holds.progress (h : Holds sb s D k i) (off : ℕ) : Progress sb k i off 0 [] s s D D :=
  ⟨h, .refl k s, .refl s, (h.owned.grown i).written off, fun _ _ _ => by omega,
    fun _ _ h0 h1 => absurd h0 h1, fun _ _ _ _ => .inl, fun _ _ _ => Iff.rfl⟩

theorem Progress.trans (hl : l.length = cov) (h : Progress sb k i off cov l s s' D D')
    (h' : Progress sb k i (off + cov) cov' l' s' s'' D' D'') :
    Progress sb k i off (cov + cov') (l ++ l') s s'' D D'' where
  holds := h'.holds
  moves := h.moves.trans h'.moves
  pinned := h.pinned.trans h'.pinned h'.moves.lh
  written := .trans hl h.written h'.written
  backed := fun x hlo hhi => by
    by_cases hx : x < off + cov
    · obtain ⟨hbn, h0⟩ := h.backed x hlo hx
      exact ⟨hbn, by rwa [h'.written.ref i h.holds.lt _ (blockPlace_lt hbn) h0]⟩
    · exact h'.backed x (by omega) (by omega)
  new := fun g hg h0 h1 => by
    by_cases hmid : (D' i).ref s'.disk g = 0
    · exact h'.new g hg hmid h1
    · rw [h'.written.ref i h.holds.lt g hg hmid]
      exact h'.moves.lh (h.new g hg h0 hmid)
  old := fun g hg hne h0 hmem => by
    have hr := h.written.ref i h.holds.lt g hg h0
    rw [← hr] at hmem
    rw [length_append, hl]
    rcases h'.old g hg hne (by rwa [hr]) hmem with hmem' | ⟨x, hlo, hhi, hx⟩
    · rw [hr] at hmem'
      refine (h.old g hg hne h0 hmem').imp_right ?_
      rintro ⟨x, hlo, hhi, hx⟩
      exact ⟨x, hlo, by omega, hx⟩
    · exact .inr ⟨x, by omega, by omega, hx⟩
  room := fun W hW hsub =>
    (h.room W hW fun x h1 h2 => hsub x h1 (by omega)).trans
      (h'.room W hW fun x h1 h2 => hsub x (by omega) (by omega))

/-- A block that `bmap` has found or allocated. -/
theorem Progress.map {a : ℕ} (h : Holds sb s D k i) (h' : Holds sb s' D' k i) (hm : Moves k s s')
    (hp : Pinned s s') (hsp : Spared sb ((D i).ref s.disk ndirect) s s')
    (hmap : Mapped sb i (off / bsize) a s'.lh s.disk s'.disk D D') (ha : a ≠ 0)
    (hbn : off / bsize < maxfile) : Progress sb k i off 1 [] s s' D D' where
  holds := h'
  moves := hm
  pinned := hp
  written := hmap.grown.written off
  backed := fun x h1 h2 => by
    obtain rfl : x = off := by omega
    exact ⟨hbn, by rwa [hmap.ref]⟩
  new := hmap.new
  old := fun g hg hne h0 hmem => by
    obtain ⟨hge, hlt, hbit⟩ := h.owned.area i h.lt g hg h0
    refine .inl (hsp _ hge hlt hbit (fun e => hne ?_) hmem)
    exact (h.owned.refs.inj i h.lt i h.lt g hg ndirect (by decide) h0 e).2
  room := fun W hW hsub => by
    rw [hmap.room W hW (hsub off (le_refl _) (by omega))]
    exact and_iff_right ha

/-- Free blocks and places are not affected by what is written into a file. -/
theorem hasRoom_write {bn : ℕ} {disk : ℕ → Mem} (h : OwnedBlocks sb disk D) (hi : i < sb.ninodes)
    (hbn : bn < maxfile) (h0 : (D i).ref disk (blockPlace bn) ≠ 0) (data : Mem) (W : Finset ℕ) :
    HasRoom sb (update disk ((D i).ref disk (blockPlace bn)) data) (D i) W ↔
      HasRoom sb disk (D i) W := by
  have hm : missing (update disk ((D i).ref disk (blockPlace bn)) data) (D i) W =
      missing disk (D i) W := by
    unfold missing
    simp only [h.ref_write hi hbn data hi]
  have hc : freeCount sb (update disk ((D i).ref disk (blockPlace bn)) data) =
      freeCount sb disk := by
    unfold freeCount
    congr 1
    exact Finset.filter_congr fun c hc => by
      rw [h.bit_write hi hbn h0 data (Finset.mem_range.1 hc)]
  rw [HasRoom, hm, hc, HasRoom]

/-- Part of the block at `off` is written and logged. -/
theorem Progress.write (h : Progress sb k i off 1 [] s s' D D')
    (hl : l.length ≤ bsize - off % bsize)
    (hpos : 0 < l.length) : Progress sb k i off l.length l s
      (s'.wrote ((D' i).ref s'.disk (blockPlace (off / bsize)))
        ((s'.disk ((D' i).ref s'.disk (blockPlace (off / bsize)))).write (off % bsize) l))
        D D' := by
  obtain ⟨hbn, h0⟩ := h.backed off (le_refl _) (by omega)
  have hi := h.holds.lt
  have ho := h.holds.owned
  have hlow := (h.holds.read hbn h0).2
  have hwr := ho.written hi hbn h0 hl
  have hsame : ∀ x, off ≤ x → x < off + l.length → x / bsize = off / bsize := fun x h1 h2 => by
    simp only [bsize] at hl ⊢
    omega
  have hdisk : (s'.wrote ((D' i).ref s'.disk (blockPlace (off / bsize)))
      ((s'.disk ((D' i).ref s'.disk (blockPlace (off / bsize)))).write (off % bsize) l)).disk =
        update s'.disk ((D' i).ref s'.disk (blockPlace (off / bsize)))
          ((s'.disk ((D' i).ref s'.disk (blockPlace (off / bsize)))).write (off % bsize) l) := rfl
  have href : ∀ g, (D' i).ref (update s'.disk ((D' i).ref s'.disk (blockPlace (off / bsize)))
      ((s'.disk ((D' i).ref s'.disk (blockPlace (off / bsize)))).write (off % bsize) l)) g =
        (D' i).ref s'.disk g := fun g => ho.ref_write hi hbn _ hi
  refine ⟨⟨hi, h.holds.copy, hwr.owned, h.holds.held⟩, h.moves.trans (.wrote k s' hlow),
    h.pinned.trans (.wrote s') subset_lh_wrote, ?_, ?_, ?_, ?_, ?_⟩
  · exact .trans rfl h.written hwr
  · intro x h1 h2
    rw [hdisk, href, hsame x h1 h2]
    exact ⟨hbn, h0⟩
  · intro g hg hz
    rw [hdisk, href]
    exact fun hne => subset_lh_wrote (h.new g hg hz hne)
  · intro g hg hne hz hmem
    rcases mem_lh_wrote_iff.1 hmem with hmem | heq
    · refine (h.old g hg hne hz hmem).imp_right ?_
      rintro ⟨x, hlo, hhi, -⟩
      rw [length_nil] at hhi
      omega
    · rw [← h.written.ref i hi g hg hz] at heq hz
      have hg' := (ho.refs.inj i hi i hi g hg _ (blockPlace_lt hbn) hz heq).2
      exact .inr ⟨off, le_refl _, by omega, hg'⟩
  · intro W hW hsub
    rw [hdisk, hasRoom_write ho hi hbn h0, h.room W hW fun x h1 h2 => ?_]
    exact hsub x h1 (by omega)

/-- How the loop of `writei` ends when it starts at `off` with `tot` bytes written. -/
inductive WriteEnd (sb : Superblock) (k i : ℕ) (src : List Byte) (n off tot : ℕ) (s s' : Fs)
    (D : ℕ → Dinode) : ℕ × ℕ → Prop where
  /-- Everything has been written. -/
  | done (D' : ℕ → Dinode) : n ≤ src.length →
      Progress sb k i off (n - tot) ((src.drop tot).take (n - tot)) s s' D D' →
      WriteEnd sb k i src n off tot s s' D (off + (n - tot), n)
  /-- There is no block for the next byte. -/
  | full (m : ℕ) (D' : ℕ → Dinode) : tot + m < n → tot + m ≤ src.length → Holds sb s' D' k i →
      Moves k s s' → Pinned s s' →
      Written sb i off ((src.drop tot).take m) s.disk s'.disk D D' → Full sb s'.disk →
      (∀ W : Finset ℕ, (∀ g ∈ W, g < nplaces) →
        (∀ x, off ≤ x → x ≤ off + m → placesOf (x / bsize) ⊆ W) → ¬ HasRoom sb s.disk (D i) W) →
      WriteEnd sb k i src n off tot s s' D (off + m, tot + m)
  /-- The source of the next block cannot be read to its end. -/
  | fault (m : ℕ) (s₁ : Fs) (D' : ℕ → Dinode) : m = 0 ∨ (off + m) % bsize = 0 →
      tot + m ≤ src.length →
      src.length < tot + m + min (n - (tot + m)) (bsize - (off + m) % bsize) →
      Progress sb k i off (m + 1) ((src.drop tot).take m) s s₁ D D' →
      s'.disk = update s₁.disk ((D' i).ref s₁.disk (blockPlace ((off + m) / bsize)))
        ((s₁.disk ((D' i).ref s₁.disk (blockPlace ((off + m) / bsize)))).write ((off + m) % bsize)
          (src.drop (tot + m))) →
      s'.lh = s₁.lh → Moves k s₁ s' → (s'.inode k).d = D' i →
      WriteEnd sb k i src n off tot s s' D (off + m, tot + m)

theorem take_drop_append (src : List Byte) (tot m m' : ℕ) :
    (src.drop tot).take m ++ (src.drop (tot + m)).take m' = (src.drop tot).take (m + m') := by
  rw [take_add, drop_drop]

/-- The loop has written `m` bytes before. -/
theorem WriteEnd.prepend (h : WriteEnd sb k i src n (off + m) (tot + m) s₁ s' D₁ r)
    (hp : Progress sb k i off m ((src.drop tot).take m) s s₁ D D₁) (hm : tot + m ≤ src.length)
    (hn : tot + m ≤ n) (hblock : tot + m = n ∨ (off + m) % bsize = 0) :
    WriteEnd sb k i src n off tot s s' D r := by
  have hlen : ((src.drop tot).take m).length = m := by
    rw [length_take, length_drop]
    omega
  cases h with
  | done D' hsrc h =>
    have h := Progress.trans hlen hp h
    rw [take_drop_append] at h
    have hsum : m + (n - (tot + m)) = n - tot := by omega
    rw [hsum] at h
    rw [add_assoc, hsum]
    exact .done D' hsrc h
  | full m' D' hlt hle hh hmv hpin hw hfull hroom =>
    have hw := Written.trans hlen hp.written hw
    rw [take_drop_append] at hw
    rw [add_assoc] at hlt hle
    rw [add_assoc, add_assoc]
    refine .full (m + m') D' hlt hle hh (hp.moves.trans hmv)
      (hp.pinned.trans hpin hmv.lh) hw hfull ?_
    intro W hW hsub
    rw [hp.room W hW fun x h1 h2 => hsub x h1 (by omega)]
    exact hroom W hW fun x h1 h2 => hsub x (by omega) (by omega)
  | fault m' s₂ D' hal hle hlt h hd hlh hmv hcopy =>
    have h := Progress.trans hlen hp h
    rw [take_drop_append] at h
    have hal' : (off + (m + m')) % bsize = 0 := by
      rw [← add_assoc]
      rcases hal with rfl | hal
      · rw [add_zero]
        exact hblock.resolve_left fun e => by omega
      · exact hal
    simp only [add_assoc] at hle hlt h hd ⊢
    exact .fault (m + m') s₂ D' (.inr hal') hle (by simpa only [add_assoc] using hlt) h
      (by simpa only [add_assoc] using hd) hlh hmv hcopy

/-- **The loop of `writei`.** -/
theorem writeiLoop_spec (h : Holds sb s D k i) (hfit : off + (n - tot) ≤ maxfile * bsize)
    (htot : tot ≤ n) (hsrc : tot ≤ src.length) (hfuel : n - tot < fuel) :
    Ensures (writeiLoop sb k src n fuel off tot s)
      (fun r s' => WriteEnd sb k i src n off tot s s' D r) LogStop := by
  induction fuel generalizing s D off tot with
  | zero => omega
  | succ fuel ih =>
    rw [writeiLoop, Run.ite_apply]
    split
    case isTrue hn =>
      obtain rfl : n = tot := by omega
      have h0 := h.progress off
      have hend : WriteEnd sb k i src n off n s s D (off + (n - n), n) := by
        refine .done D hsrc ?_
        simpa using h0
      simpa using hend
    case isFalse hn =>
      have hbn : off / bsize < maxfile := by
        simp only [bsize] at hfit ⊢
        omega
      refine (bmap_spec h hbn).bind ?_
      rintro a t ⟨D₁, h₁, hm₁, hpin₁, hsp₁, hmap⟩
      rw [Run.ite_apply]
      split
      case isTrue ha =>
        refine .full 0 D₁ (by omega) hsrc h₁ hm₁ hpin₁ ?_ (hmap.full ha) fun W hW hsub => ?_
        · simpa using hmap.grown.written off
        · rw [hmap.room W hW (hsub off (le_refl _) (le_refl _))]
          exact fun hc => hc.1 ha
      case isFalse ha =>
        have hp := Progress.map h h₁ hm₁ hpin₁ hsp₁ hmap ha hbn
        obtain rfl := hmap.ref
        obtain ⟨hread, hlow⟩ := h₁.read hbn ha
        rw [bind_ok hread]
        dsimp only
        obtain ⟨m, hm⟩ : ∃ m, m = min (n - tot) (bsize - off % bsize) := ⟨_, rfl⟩
        have hmod : off % bsize < bsize := mod_lt _ (by decide)
        rw [← hm, Run.ite_apply]
        split
        case isTrue hf =>
          rw [bind_modify, brelse, bind_modify]
          refine .fault 0 t D₁ (.inl rfl) hsrc ?_ (by simpa using hp) rfl rfl ?_ h₁.copy
          · rw [hm] at hf
            simpa using hf
          · exact (Moves.setDisk k (t.reading _) _).release hlow
        case isFalse hf =>
          refine (logWrite_spec sb _ _ _).bind ?_
          rintro _ u rfl
          rw [bind_ok brelse_logged]
          have hlen : ((src.drop tot).take m).length = m := by
            rw [length_take, length_drop]
            omega
          have hw := hp.write (l := (src.drop tot).take m) (by omega) (by omega)
          rw [hlen] at hw
          have hnext := ih hw.holds (by omega : off + m + (n - (tot + m)) ≤ maxfile * bsize)
            (by omega) (by omega) (by omega)
          refine hnext.imp fun r s' he => ?_
          refine he.prepend hw (by omega) (by omega) ?_
          simp only [bsize] at hm hmod ⊢
          omega

/-! ### The inode -/

/-- **The copy of the inode goes to disk.** -/
theorem iupdate_spec (hin : (s.inode k).inum = i) (hheld : s.held = []) :
    Ensures (iupdate sb k s) (fun _ s' => s' = s.wrote (sb.iblock i)
      (putDinode (s.disk (sb.iblock i)) i (s.inode k).d)) LogStop := by
  rw [iupdate, bind_read, hin, bind_ok (bread_ok (by rw [hheld]; exact not_mem_nil))]
  refine (logWrite_spec sb _ _ _).bind ?_
  rintro _ t rfl
  rw [brelse_logged]
  exact rfl

/-- The inode block lies before the free map. -/
theorem setDinode_above (hi : i < sb.ninodes) (d : Dinode) (disk : ℕ → Mem) :
    ∀ c, sb.bmapstart ≤ c → setDinode sb disk i d c = disk c := fun _ hc =>
  setDinode_of_ne d (lt_of_lt_of_le (sb.iblock_lt hi) hc).ne'

/-- What `writei` has done: `l` has been written at `off`, and the file reaches at least to
`off + len`. -/
structure Saved (sb : Superblock) (k i off len : ℕ) (l : List Byte) (s s' : Fs)
    (D D' : ℕ → Dinode) : Prop where
  holds : Holds sb s' D' k i
  moves : Moves k s s'
  inodes : ∀ j ≠ i, D' j = D j
  attrs : D' i = { D i with addrs := (D' i).addrs, size := (D' i).size }
  size : (D' i).size.toNat = max (D i).size.toNat (off + len)
  byte : ∀ j < sb.ninodes, ∀ x, (D' j).byte s'.disk x =
    if j = i ∧ off ≤ x ∧ x < off + l.length then l.getD (x - off) 0 else (D j).byte s.disk x
  ref : ∀ j < sb.ninodes, ∀ g < nplaces, (D j).ref s.disk g ≠ 0 →
    (D' j).ref s'.disk g = (D j).ref s.disk g
  stored : dinodeAt sb s'.disk i = D' i
  others : ∀ j < sb.ninodes, j ≠ i → dinodeAt sb s'.disk j = dinodeAt sb s.disk j
  tight : Tight sb s.disk D → Tight sb s'.disk D'

/-- `if(off > ip->size) ip->size = off`. -/
def grownTo (d : Dinode) (off : ℕ) : Dinode :=
  if off > d.size.toNat then { d with size := .ofNat 32 off } else d

theorem grownTo_attrs (d : Dinode) (off : ℕ) :
    grownTo d off = { d with size := (grownTo d off).size } := by
  unfold grownTo
  split <;> rfl

theorem size_grownTo (d : Dinode) {off : ℕ} (h : off < 2 ^ 32) :
    (grownTo d off).size.toNat = max d.size.toNat off := by
  unfold grownTo
  split
  · rw [BitVec.toNat_ofNat, mod_eq_of_lt h]
    omega
  · omega

/-- The disk inode with its size and the copy of it go to disk. -/
theorem saved_of_written {t : Fs} {len : ℕ} (h : Holds sb t D₁ k i)
    (hin : (t.inode k).inum = i) (hm : Moves k s t) (hw : Written sb i off l s.disk t.disk D D₁)
    (hlen : off + len < 2 ^ 32) :
    Ensures ((modifyDinode k (grownTo · (off + len)) >>= fun _ => iupdate sb k) t)
      (fun _ s' => Saved sb k i off len l s s' D (update D₁ i (grownTo (D₁ i) (off + len))) ∧
        t.lh ⊆ s'.lh ∧ (∀ b ∈ s'.lh, b ∈ t.lh ∨ b < sb.nmeta) ∧ Pinned t s' ∧
        (Full sb t.disk → Full sb s'.disk)) LogStop := by
  have hi := h.lt
  rw [modifyDinode, modifyInode, bind_modify]
  obtain ⟨t₁, ht₁⟩ : ∃ t₁, t₁ = t.setInode k fun x => { x with d := grownTo x.d (off + len) } :=
    ⟨_, rfl⟩
  have hself : t₁.inode k = { t.inode k with d := grownTo (D₁ i) (off + len) } := by
    rw [ht₁, setInode, ← h.copy]
    exact update_self ..
  have hdisk : t₁.disk = t.disk := by rw [ht₁]; rfl
  have hmv : Moves k t t₁ := ht₁ ▸ Moves.setDinode k t _
  rw [← ht₁]
  refine (iupdate_spec (i := i) (by rw [hself, hin]) (hmv.held.trans h.held)).imp ?_
  rintro _ s' rfl
  rw [hself, hdisk]
  have hD' : ∀ j, update D₁ i (grownTo (D₁ i) (off + len)) j =
      { D₁ j with size := (update D₁ i (grownTo (D₁ i) (off + len)) j).size } := by
    intro j
    by_cases hji : j = i
    · subst hji
      rw [update_self]
      exact grownTo_attrs ..
    · rw [update_of_ne hji]
  obtain ⟨D', hDeq⟩ : ∃ D', D' = update D₁ i (grownTo (D₁ i) (off + len)) := ⟨_, rfl⟩
  have hDi : D' i = grownTo (D₁ i) (off + len) := by rw [hDeq, update_self]
  rw [← hDeq] at hD' ⊢
  have hr : ∀ j g disk, (D' j).ref disk g = (D₁ j).ref disk g := fun j g disk => by rw [hD' j]; rfl
  have hb : ∀ j x disk, (D' j).byte disk x = (D₁ j).byte disk x :=
    fun j x disk => by rw [hD' j]; rfl
  have habove := setDinode_above hi (grownTo (D₁ i) (off + len)) t.disk
  have hs : (t₁.wrote (sb.iblock i) (putDinode (t.disk (sb.iblock i)) i
      (grownTo (D₁ i) (off + len)))).disk = setDinode sb t.disk i (grownTo (D₁ i) (off + len)) := by
    rw [wrote, logged, saw, hdisk]
    rfl
  have hlow := sb.iblock_lt_swapbase hi
  refine ⟨⟨⟨hi, ?_, ?_, hmv.held.trans h.held⟩, (hm.trans hmv).trans (.wrote k t₁ hlow), ?_, ?_,
    ?_, ?_, ?_, ?_, ?_, ?_⟩, ?_, ?_, ?_, ?_⟩
  · rw [hDi]
    exact congrArg Inode.d hself
  · rw [hs]
    exact (h.owned.above habove).congr_refs fun j g => hr j g _
  · intro j hj
    rw [hDeq, update_of_ne hj, hw.inodes j hj]
  · rw [hD' i, hw.attrs]
  · rw [hDi, size_grownTo _ hlen, hw.attrs]
  · intro j hj x
    rw [hs, hb, h.owned.byte_above habove hj, hw.byte j hj x]
  · intro j hj g hg h0
    rw [hs, hr, h.owned.ref_above habove hj, hw.ref j hj g hg h0]
  · rw [hs, dinodeAt_setDinode_self, hDi]
  · intro j hj hne
    rw [hs, dinodeAt_setDinode_of_ne _ hne, dinodeAt, hw.below _ (sb.iblock_lt hj)]
    rfl
  · intro ht
    rw [hs]
    exact (h.owned.tight_above habove (hw.tight ht)).congr_refs fun j g => hr j g _
  · exact fun _ hb => (Moves.wrote k t₁ hlow).lh (hmv.lh hb)
  · intro c hc
    rcases mem_lh_wrote_iff.1 hc with hc | rfl
    · exact .inl (by rwa [ht₁] at hc)
    · exact .inr ((sb.iblock_lt hi).trans sb.bmapstart_lt)
  · intro c hc
    rw [Pinned.wrote t₁ c hc, hdisk]
  · intro hfull c hc
    rw [hs, OwnedBlocks.bit_above habove, hfull c hc]

/-- A source that cannot be read to its end: all the bytes before the fault are in buffers. -/
theorem fault_written (hp : Progress sb k i off (m + 1) (src.take m) s s₁ D D')
    (hle : m ≤ src.length) (hlt : src.length < m + (bsize - (off + m) % bsize))
    (hd : s'.disk = update s₁.disk ((D' i).ref s₁.disk (blockPlace ((off + m) / bsize)))
      ((s₁.disk ((D' i).ref s₁.disk (blockPlace ((off + m) / bsize)))).write ((off + m) % bsize)
        (src.drop m))) : Written sb i off src s.disk s'.disk D D' := by
  obtain ⟨hbn, h0⟩ := hp.backed (off + m) (Nat.le_add_right ..) (by omega)
  have hlen : (src.take m).length = m := by
    rw [length_take]
    omega
  have hrest : (src.drop m).length ≤ bsize - (off + m) % bsize := by
    rw [length_drop]
    omega
  have hw := hp.holds.owned.written hp.holds.lt hbn h0 hrest
  rw [← hd] at hw
  have hwr := Written.trans hlen hp.written hw
  rwa [take_append_drop] at hwr

/-- What the three ends have in common. -/
theorem WriteEnd.facts (h : WriteEnd sb k i src n off 0 s s' D r) :
    ∃ m l D', r = (off + m, m) ∧ m ≤ n ∧ m ≤ l.length ∧ l.length ≤ n ∧ Holds sb s' D' k i ∧
      Moves k s s' ∧ Written sb i off l s.disk s'.disk D D' ∧
      (n ≤ src.length → l = src.take m ∧ Pinned s s' ∧ (m < n → Full sb s'.disk)) := by
  cases h with
  | done D' hsrc hp =>
    rw [Nat.sub_zero, List.drop_zero] at hp
    refine ⟨n, src.take n, D', rfl, le_refl _, ?_, ?_, hp.holds, hp.moves, hp.written,
      fun _ => ⟨rfl, hp.pinned, fun h => absurd h (lt_irrefl _)⟩⟩ <;>
    · rw [length_take]
      omega
  | full m D' hlt hle hh hm hpin hw hfull _ =>
    rw [drop_zero] at hw
    rw [zero_add] at hlt hle ⊢
    refine ⟨m, src.take m, D', rfl, hlt.le, ?_, ?_, hh, hm, hw, fun _ =>
      ⟨rfl, hpin, fun _ => hfull⟩⟩ <;>
    · rw [length_take]
      omega
  | fault m s₁ D' _ hle hlt hp hd hlh hm hcopy =>
    rw [drop_zero] at hp
    rw [zero_add] at hle hlt hd ⊢
    have hwr := fault_written hp hle (by omega) hd
    refine ⟨m, src, D', rfl, by omega, hle, by omega,
      ⟨hp.holds.lt, hcopy, hwr.owned, hm.held.trans hp.holds.held⟩, hp.moves.trans hm, hwr,
      fun hn => ?_⟩
    omega

/-- `writei` refuses a range that starts behind the end of the file or wraps. -/
theorem writei_refused (hcopy : (s.inode k).d = D i)
    (h : (D i).size.toNat < off ∨ (off + n) % 2 ^ 32 < off ∨ maxfile * bsize < (off + n) % 2 ^ 32) :
    writei sb k src off n s = .ok (-1, s) := by
  rw [writei, bind_read, hcopy, Run.ite_apply]
  split
  case isTrue => rfl
  case isFalse hno =>
    rw [Run.ite_apply, if_pos (by omega)]
    rfl

/-- **Writing** to a file whose range fits. -/
theorem writei_spec (h : Holds sb s D k i) (hin : (s.inode k).inum = i)
    (hoff : off ≤ (D i).size.toNat) (hwrap : off + n < 2 ^ 32) (hmax : off + n ≤ maxfile * bsize) :
    Ensures (writei sb k src off n s) (fun r s' => ∃ (m : ℕ) (l : List Byte) (D' : ℕ → Dinode),
      r = m ∧ m ≤ n ∧ m ≤ l.length ∧ l.length ≤ n ∧ Saved sb k i off m l s s' D D' ∧
      (n ≤ src.length → l = src.take m ∧ Pinned s s' ∧ (m < n → Full sb s'.disk))) LogStop := by
  rw [writei, bind_read, h.copy, Run.ite_apply,
    if_neg (by rw [Nat.mod_eq_of_lt hwrap]; omega), Run.ite_apply,
    if_neg (by rw [Nat.mod_eq_of_lt hwrap]; omega)]
  refine (writeiLoop_spec h (by omega) (Nat.zero_le n) (Nat.zero_le _) (by omega)).bind ?_
  rintro r t hend
  obtain ⟨m, l, D₁, rfl, hmn, hml, hln, hh, hm, hw, hfull⟩ := hend.facts
  have hin' : (t.inode k).inum = i := hm.inum.trans hin
  have hsave := saved_of_written hh hin' hm hw (by omega : off + m < 2 ^ 32)
  rw [← bind_assoc_apply]
  refine hsave.bind ?_
  rintro _ s' ⟨hs, hlh, -, hpin, hf⟩
  refine ⟨m, l, _, rfl, hmn, hml, hln, hs, fun hn => ?_⟩
  obtain ⟨h1, h2, h3⟩ := hfull hn
  exact ⟨h1, h2.trans hpin hlh, fun hlt => hf (h3 hlt)⟩

/-- `writei` is its loop, after which only the inode and its size change. -/
theorem writei_end (h : Holds sb s D k i) (hin : (s.inode k).inum = i)
    (hoff : off ≤ (D i).size.toNat) (hwrap : off + n < 2 ^ 32) (hmax : off + n ≤ maxfile * bsize) :
    Ensures (writei sb k src off n s) (fun r s' => ∃ (m : ℕ) (t : Fs) (D₁ D' : ℕ → Dinode),
      r = m ∧ WriteEnd sb k i src n off 0 s t D (off + m, m) ∧ Holds sb t D₁ k i ∧
      D₁ i = (t.inode k).d ∧
      Saved sb k i off m [] t s' D₁ D' ∧ t.lh ⊆ s'.lh ∧ (∀ b ∈ s'.lh, b ∈ t.lh ∨ b < sb.nmeta) ∧
      Pinned t s') LogStop := by
  rw [writei, bind_read, h.copy, Run.ite_apply,
    if_neg (by rw [Nat.mod_eq_of_lt hwrap]; omega), Run.ite_apply,
    if_neg (by rw [Nat.mod_eq_of_lt hwrap]; omega)]
  refine (writeiLoop_spec h (by omega) (Nat.zero_le n) (Nat.zero_le _) (by omega)).bind ?_
  rintro r t hend
  obtain ⟨m, l, D₁, rfl, hmn, -, -, hh, hm, -, -⟩ := hend.facts
  have hin' : (t.inode k).inum = i := hm.inum.trans hin
  have hsave := saved_of_written hh hin' (.refl k t) ((hh.owned.grown i).written off)
    (by omega : off + m < 2 ^ 32)
  rw [← bind_assoc_apply]
  refine hsave.bind ?_
  rintro _ s' ⟨hs, hlh, hnew, hpin, -⟩
  exact ⟨m, t, D₁, _, rfl, hend, hh, hh.copy.symm, hs, hlh, hnew, hpin⟩

end Xv6Swap.Fs
