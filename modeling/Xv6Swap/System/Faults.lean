import Xv6Swap.System.Contents
import Mathlib.Order.Interval.Finset.Nat

/-!
# Writes whose source cannot be read

`either_copyin` copies straight into the buffer of a block.  If it fails in the middle, `writei`
releases the buffer without `log_write`: the bytes copied so far stay in the cache.

* `Clean` : the buffers that the log does not hold have the data of the disk;
* `FailSafe` : what a write should leave behind, whether it fails or not;
* `Harmless` : a condition on the state before the write;
* `failSafe_iff` : **a write is fail-safe exactly if it is harmless**: if the source can be read, if
  the write does not get that far, or if the bytes before the fault change nothing that can be seen.

The block of the fault is the only one in question: all the earlier ones are in the log.
-/

namespace Xv6Swap

open Function Finset Nat List Dinode Fs

namespace Fs

open Run

variable {sb : Superblock} {s s' s₁ t : Fs} {D D' : ℕ → Dinode} {k i off m n x : ℕ}
  {l src : List Byte}

/-- The buffers that the log does not hold have the data of the disk. -/
def Clean (platter : ℕ → Mem) (s : Fs) : Prop := ∀ b, b ∉ s.lh → s.disk b = platter b

/-- What a write at `off` that returns `r` leaves behind. -/
structure FailSafe (k off : ℕ) (r : ℤ) (s s' : Fs) : Prop where
  clean : ∀ platter, Clean platter s → Clean platter s'
  beyond : ∀ x, off + r.toNat ≤ x → x < (s'.inode k).d.size.toNat →
    (s'.inode k).d.byte s'.disk x = (s.inode k).d.byte s.disk x

/-- The range is not one of a file. -/
def Refused (d : Dinode) (off n : ℕ) : Prop :=
  d.size.toNat < off ∨ 2 ^ 32 ≤ off + n ∨ maxfile * bsize < off + n

/-- The places of an inode for the bytes from `off` to `off + n`. -/
def placesTo (off n : ℕ) : Finset ℕ :=
  (Icc (off / bsize) ((off + n) / bsize)).biUnion placesOf

/-- The bytes of the source before the fault, in the block of the fault, are there already, or they
are behind the end of the file in a block that the log holds or that is new. -/
def Unseen (s : Fs) (k : ℕ) (src : List Byte) (off : ℕ) : Prop :=
  ∀ x, off ≤ x → x < off + src.length → x / bsize = (off + src.length) / bsize →
    src.getD (x - off) 0 = (s.inode k).d.byte s.disk x ∨
    (s.inode k).d.size.toNat ≤ x ∧
      ((s.inode k).d.ref s.disk (blockPlace (x / bsize)) = 0 ∨
        (s.inode k).d.ref s.disk (blockPlace (x / bsize)) ∈ s.lh)

/-- A write that leaves nothing behind that it should not: it is refused, its source can be read,
the disk is full before the fault, or the bytes before the fault are not seen. -/
def Harmless (sb : Superblock) (s : Fs) (k : ℕ) (src : List Byte) (off n : ℕ) : Prop :=
  Refused (s.inode k).d off n ∨ n ≤ src.length ∨
    ¬ HasRoom sb s.disk (s.inode k).d (placesTo off src.length) ∨ Unseen s k src off

theorem clean_iff_pinned (hlh : s.lh ⊆ s'.lh) :
    (∀ platter, Clean platter s → Clean platter s') ↔ Pinned s s' := by
  constructor
  · exact fun h => h s.disk fun _ _ => rfl
  · intro h platter hc b hb
    rw [h b hb, hc b fun hb' => hb (hlh hb')]

/-! ### The block of the fault -/

theorem div_eq_of_fault (hle : m ≤ src.length)
    (hlt : src.length < m + (bsize - (off + m) % bsize)) :
    (off + src.length) / bsize = (off + m) / bsize := by
  simp only [bsize] at hlt ⊢
  omega

theorem fault_range (hal : m = 0 ∨ (off + m) % bsize = 0) (hle : m ≤ src.length)
    (hlt : src.length < m + (bsize - (off + m) % bsize)) (hlo : off ≤ x)
    (hhi : x < off + src.length) : x / bsize = (off + src.length) / bsize ↔ off + m ≤ x := by
  simp only [bsize] at hal hlt ⊢
  omega

section Fault

variable (h : Holds sb s D k i) (hp : Progress sb k i off (m + 1) (src.take m) s s₁ D D')
  (hal : m = 0 ∨ (off + m) % bsize = 0) (hle : m ≤ src.length)
  (hlt : src.length < m + (bsize - (off + m) % bsize))

include h hp hal hle

/-- The log holds the block of the fault if it held it before, or if it is new. -/
theorem fault_mem_lh : (D' i).ref s₁.disk (blockPlace ((off + m) / bsize)) ∈ s₁.lh ↔
    (D i).ref s.disk (blockPlace ((off + m) / bsize)) = 0 ∨
      (D i).ref s.disk (blockPlace ((off + m) / bsize)) ∈ s.lh := by
  obtain ⟨hbn, hne⟩ := hp.backed (off + m) (Nat.le_add_right ..) (by omega)
  by_cases h0 : (D i).ref s.disk (blockPlace ((off + m) / bsize)) = 0
  · exact iff_of_true (hp.new _ (blockPlace_lt hbn) h0 hne) (.inl h0)
  rw [hp.written.ref i h.lt _ (blockPlace_lt hbn) h0]
  refine ⟨fun hmem => .inr ?_, fun hmem => hp.moves.lh (hmem.resolve_left h0)⟩
  refine (hp.old _ (blockPlace_lt hbn) (blockPlace_ne _) h0 hmem).resolve_right ?_
  rintro ⟨x, hlo, hhi, hx⟩
  have hdiv := blockPlace_inj hx
  rw [length_take] at hhi
  simp only [bsize] at hdiv hal
  omega

include hlt

/-- The blocks that have changed are in the log, unless the bytes before the fault change one. -/
theorem fault_pinned
    (hd : t.disk = update s₁.disk ((D' i).ref s₁.disk (blockPlace ((off + m) / bsize)))
      ((s₁.disk ((D' i).ref s₁.disk (blockPlace ((off + m) / bsize)))).write ((off + m) % bsize)
        (src.drop m))) (hlh : t.lh = s₁.lh) :
    Pinned s t ↔ (D' i).ref s₁.disk (blockPlace ((off + m) / bsize)) ∈ t.lh ∨
      ∀ x, off + m ≤ x → x < off + src.length → src.getD (x - off) 0 = (D i).byte s.disk x := by
  obtain ⟨hbn, hne⟩ := hp.backed (off + m) (Nat.le_add_right ..) (by omega)
  have hwr := fault_written hp hle hlt hd
  have hdiv : ∀ x, off + m ≤ x → x < off + src.length → x / bsize = (off + m) / bsize := by
    intro x hlo hhi
    rw [← div_eq_of_fault hle hlt]
    exact (fault_range hal hle hlt (by omega) hhi).2 hlo
  obtain ⟨B, hB⟩ : ∃ B, B = (D' i).ref s₁.disk (blockPlace ((off + m) / bsize)) := ⟨_, rfl⟩
  -- a block that the log does not hold is an old one
  have hold : B ∉ t.lh → (D i).ref s.disk (blockPlace ((off + m) / bsize)) = B ∧ B ≠ 0 := by
    intro hmem
    rw [hlh, hB, fault_mem_lh h hp hal hle, not_or] at hmem
    rw [hB, hp.written.ref i h.lt _ (blockPlace_lt hbn) hmem.1]
    exact ⟨rfl, hmem.1⟩
  rw [← hB] at hd hne ⊢
  constructor
  · intro hpin
    by_contra hcon
    rw [not_or] at hcon
    obtain ⟨hmem, hx⟩ := hcon
    refine hx fun x hlo hhi => ?_
    obtain ⟨hr, hB0⟩ := hold hmem
    have hbyte := hwr.byte i h.lt x
    rw [if_pos ⟨rfl, by omega, hhi⟩] at hbyte
    have hr' := hwr.ref i h.lt _ (blockPlace_lt hbn) (by rwa [hr])
    rw [← hbyte, byte_of_ref (by rwa [hdiv x hlo hhi]) (by rwa [hdiv x hlo hhi, hr', hr]),
      byte_of_ref (by rwa [hdiv x hlo hhi]) (by rwa [hdiv x hlo hhi, hr]), hdiv x hlo hhi,
      hr', hr, hpin B hmem]
  · rintro hcase b hb
    by_cases hbB : b = B
    case neg =>
      rw [hd, update_of_ne hbB]
      exact hp.pinned b (by rwa [← hlh])
    subst hbB
    have hsame := hcase.resolve_left hb
    obtain ⟨hr, hB0⟩ := hold hb
    rw [hd, update_self, hp.pinned b (by rwa [← hlh])]
    funext y
    by_cases hy : (off + m) % bsize ≤ y ∧ y < (off + m) % bsize + (src.drop m).length
    case neg =>
      refine Mem.sameOutside_write _ _ _ y ?_
      omega
    rw [length_drop] at hy
    obtain ⟨z, rfl⟩ := Nat.exists_eq_add_of_le hy.1
    have hx := hsame (off + m + z) (by omega) (by omega)
    have hxd := hdiv (off + m + z) (by omega) (by omega)
    have hmod : (off + m + z) % bsize = (off + m) % bsize + z := by
      simp only [bsize] at hlt hy ⊢
      omega
    rw [byte_of_ref (by rwa [hxd]) (by rwa [hxd, hr]), hxd, hr, hmod] at hx
    rw [← hx, Mem.write, length_drop, if_pos (by omega), getD_eq_getElem?_getD,
      getElem?_drop, ← getD_eq_getElem?_getD]
    congr 1
    omega

theorem fault_unseen
    (hd : t.disk = update s₁.disk ((D' i).ref s₁.disk (blockPlace ((off + m) / bsize)))
      ((s₁.disk ((D' i).ref s₁.disk (blockPlace ((off + m) / bsize)))).write ((off + m) % bsize)
        (src.drop m))) (hlh : t.lh = s₁.lh) (hcopy : (t.inode k).d = D' i) :
    (Pinned s t ∧ ∀ x, off + m ≤ x → x < (s.inode k).d.size.toNat →
      (t.inode k).d.byte t.disk x = (s.inode k).d.byte s.disk x) ↔ Unseen s k src off := by
  have hwr := fault_written hp hle hlt hd
  have hmem := fault_mem_lh h hp hal hle
  have hdiv := div_eq_of_fault hle hlt
  have hrange : ∀ x, off ≤ x → x < off + src.length →
      (x / bsize = (off + src.length) / bsize ↔ off + m ≤ x) := fun x =>
    fault_range hal hle hlt
  rw [fault_pinned h hp hal hle hlt hd hlh, hlh, hmem, Unseen, h.copy, hcopy]
  constructor
  · rintro ⟨hpin, hbyte⟩ x hlo hhi hblock
    have hxm := (hrange x hlo hhi).1 hblock
    rw [hblock, hdiv]
    by_cases hx : x < (D i).size.toNat
    · have hb := hbyte x hxm hx
      rw [hwr.byte i h.lt x, if_pos ⟨rfl, hlo, hhi⟩] at hb
      exact .inl hb
    · exact hpin.symm.imp (fun hsame => hsame x hxm hhi) fun hlog => ⟨Nat.le_of_not_lt hx, hlog⟩
  · intro hun
    have hun' : ∀ x, off + m ≤ x → x < off + src.length →
        src.getD (x - off) 0 = (D i).byte s.disk x ∨ (D i).size.toNat ≤ x ∧
          ((D i).ref s.disk (blockPlace ((off + m) / bsize)) = 0 ∨
            (D i).ref s.disk (blockPlace ((off + m) / bsize)) ∈ s.lh) := by
      intro x hxm hhi
      have hblock := (hrange x (by omega) hhi).2 hxm
      have hcase := hun x (by omega) hhi hblock
      rwa [hblock, hdiv] at hcase
    refine ⟨?_, fun x hxm hx => ?_⟩
    · by_contra hno
      rw [not_or] at hno
      exact hno.2 fun x hxm hhi => (hun' x hxm hhi).resolve_right fun hc => hno.1 hc.2
    · rw [hwr.byte i h.lt x]
      by_cases hhi : x < off + src.length
      · rw [if_pos ⟨rfl, by omega, hhi⟩]
        exact (hun' x hxm hhi).resolve_right fun hc => by omega
      · rw [if_neg fun hc => hhi hc.2.2]

end Fault

/-- The places up to the block of the fault have blocks when the fault happens. -/
theorem fault_hasRoom (hp : Progress sb k i off (m + 1) l s s₁ D D')
    (hdiv : (off + n) / bsize = (off + m) / bsize) : HasRoom sb s.disk (D i) (placesTo off n) := by
  have hW : ∀ g ∈ placesTo off n, g < nplaces ∧ (D' i).ref s₁.disk g ≠ 0 := by
    intro g hg
    obtain ⟨bn, hbn, hg⟩ := mem_biUnion.1 hg
    rw [mem_Icc, hdiv] at hbn
    obtain ⟨x, hx⟩ : ∃ x, x = max off (bn * bsize) := ⟨_, rfl⟩
    have hxbn : x / bsize = bn := by
      simp only [bsize] at hbn hx ⊢
      omega
    have hxm : x < off + (m + 1) := by
      simp only [bsize] at hbn hx
      omega
    obtain ⟨hlt, hne⟩ := hp.backed x (by omega) hxm
    rw [hxbn] at hlt hne
    rw [placesOf] at hg
    split at hg
    case isTrue hdir =>
      rw [Finset.mem_singleton] at hg
      rw [blockPlace, if_pos hdir] at hne
      subst hg
      exact ⟨by simp only [nplaces]; omega, hne⟩
    case isFalse hdir =>
      rw [Finset.mem_insert, Finset.mem_singleton] at hg
      rw [blockPlace, if_neg hdir] at hne
      rcases hg with rfl | rfl
      · refine ⟨by decide, ?_⟩
        rw [ref_direct (le_refl _)]
        exact addr_ndirect_ne (by omega) hne
      · exact ⟨by simp only [maxfile, nplaces] at hlt ⊢; omega, hne⟩
  rw [hp.room _ (fun g hg => (hW g hg).1) fun x hlo hhi => ?_, HasRoom]
  · have hnone : missing s₁.disk (D' i) (placesTo off n) = 0 := by
      rw [missing, Finset.card_eq_zero, filter_eq_empty_iff]
      exact fun g hg => (hW g hg).2
    omega
  · refine subset_biUnion_of_mem placesOf (mem_Icc.2 ?_)
    simp only [bsize] at hdiv ⊢
    omega

/-! ### The whole write -/

/-- If the loop ends without a fault nothing is left behind. -/
theorem WriteEnd.calm_or_fault (h : WriteEnd sb k i src n off 0 s t D (off + m, m))
    (hfit : off + n ≤ maxfile * bsize) :
    (Pinned s t ∧ (∃ D₁, (t.inode k).d = D₁ i ∧ Written sb i off (src.take m) s.disk t.disk D D₁) ∧
      m ≤ src.length ∧ (n ≤ src.length ∨ ¬ HasRoom sb s.disk (D i) (placesTo off src.length))) ∨
    ∃ s₁ D', (m = 0 ∨ (off + m) % bsize = 0) ∧ m ≤ src.length ∧ src.length < n ∧
      src.length < m + (bsize - (off + m) % bsize) ∧
      Progress sb k i off (m + 1) (src.take m) s s₁ D D' ∧
      t.disk = update s₁.disk ((D' i).ref s₁.disk (blockPlace ((off + m) / bsize)))
        ((s₁.disk ((D' i).ref s₁.disk (blockPlace ((off + m) / bsize)))).write ((off + m) % bsize)
          (src.drop m)) ∧ t.lh = s₁.lh ∧ (t.inode k).d = D' i := by
  generalize hr : (off + m, m) = r at h
  cases h with
  | done D' hsrc hp =>
    obtain rfl : m = n := congrArg Prod.snd hr
    rw [Nat.sub_zero, List.drop_zero] at hp
    exact .inl ⟨hp.pinned, ⟨D', hp.holds.copy, hp.written⟩, hsrc, .inl hsrc⟩
  | full m' D' hlt hle hh hm hpin hw hfull hroom =>
    obtain rfl : m = m' := (congrArg Prod.snd hr).trans (zero_add _)
    rw [zero_add] at hlt hle
    rw [drop_zero] at hw
    refine .inl ⟨hpin, ⟨D', hh.copy, hw⟩, hle, ?_⟩
    by_cases hsrc : n ≤ src.length
    · exact .inl hsrc
    refine .inr (hroom _ ?_ fun x hlo hhi => ?_)
    · intro g hg
      obtain ⟨bn, hbn, hg⟩ := mem_biUnion.1 hg
      rw [mem_Icc] at hbn
      have hmax : bn < maxfile := by
        simp only [bsize] at hbn hfit
        omega
      rw [placesOf] at hg
      simp only [maxfile] at hmax
      split at hg
      · rw [Finset.mem_singleton] at hg
        simp only [nplaces]
        omega
      · rw [Finset.mem_insert, Finset.mem_singleton] at hg
        simp only [nplaces]
        omega
    · refine subset_biUnion_of_mem placesOf (mem_Icc.2 ?_)
      simp only [bsize]
      omega
  | fault m' s₁ D' hal hle hlt hp hd hlh hm hcopy =>
    obtain rfl : m = m' := (congrArg Prod.snd hr).trans (zero_add _)
    rw [drop_zero] at hp
    rw [zero_add] at hle hlt hd
    exact .inr ⟨s₁, D', hal, hle, by omega, by omega, hp, hd, hlh, hcopy⟩

/-- What is left behind, in the state `t` at the end of the loop. -/
theorem Saved.safe_iff {D₁ : ℕ → Dinode} (hs : Saved sb k i off m [] t s' D₁ D')
    (hcopy : D₁ i = (t.inode k).d) (hsame : (t.inode k).d.size = (s.inode k).d.size)
    (hlh : s.lh ⊆ s'.lh) : FailSafe k off m s s' ↔ Pinned s s' ∧
      ∀ x, off + m ≤ x → x < (s.inode k).d.size.toNat →
        (t.inode k).d.byte t.disk x = (s.inode k).d.byte s.disk x := by
  have hbyte : ∀ x, (s'.inode k).d.byte s'.disk x = (t.inode k).d.byte t.disk x := by
    intro x
    rw [hs.holds.copy, hs.byte i hs.holds.lt x, if_neg (by rw [length_nil]; omega), hcopy]
  have hsize : (s'.inode k).d.size.toNat = max (s.inode k).d.size.toNat (off + m) := by
    rw [hs.holds.copy, hs.size, hcopy, hsame]
  constructor
  · intro hf
    refine ⟨(clean_iff_pinned hlh).1 hf.clean, fun x hlo hhi => ?_⟩
    rw [← hbyte x]
    exact hf.beyond x hlo (by omega)
  · rintro ⟨hpin, hb⟩
    refine ⟨(clean_iff_pinned hlh).2 hpin, fun x hlo hhi => ?_⟩
    rw [hbyte x]
    refine hb x hlo ?_
    rw [Int.toNat_natCast] at hlo
    omega

/-- **A write is fail-safe exactly if it is harmless.** -/
theorem failSafe_iff (h : Holds sb s D k (s.inode k).inum) (hoff : off < 2 ^ 32) (hn : n < 2 ^ 32)
    {r : ℤ} (hrun : writei sb k src off n s = .ok (r, s')) :
    FailSafe k off r s s' ↔ Harmless sb s k src off n := by
  by_cases hbad : Refused (s.inode k).d off n
  · have href : writei sb k src off n s = .ok (-1, s) :=
      writei_refused h.copy (by rw [Refused, h.copy] at hbad; omega)
    rw [hrun] at href
    obtain ⟨rfl, rfl⟩ : r = -1 ∧ s' = s := by simpa using href
    exact iff_of_true ⟨fun _ hc => hc, fun _ _ _ => rfl⟩ (.inl hbad)
  have hgood := hbad
  rw [Refused, h.copy] at hgood
  simp only [not_or, Nat.not_lt, not_le] at hgood
  obtain ⟨hsize, hwrap, hmax⟩ := hgood
  obtain ⟨m, t, D₁, D', rfl, hend, ht, hcopy, hs, hlh, hnew, hpin⟩ :=
    (writei_end h rfl hsize hwrap hmax).of_ok hrun
  have hi := h.lt
  obtain ⟨-, -, -, -, -, -, -, -, hmoves, -, -⟩ := hend.facts
  have hsub : s.lh ⊆ s'.lh := fun b hb => hlh (hmoves.lh hb)
  rcases hend.calm_or_fault hmax with ⟨hpinned, ⟨D₂, hcopy₂, hw⟩, hle, hcase⟩ |
    ⟨s₁, D₂, hal, hle, hsrc, hlt, hp, hd, hlh₁, hcopy₂⟩
  · have hsame : (t.inode k).d.size = (s.inode k).d.size := by rw [hcopy₂, hw.attrs, h.copy]
    refine iff_of_true ((hs.safe_iff hcopy hsame hsub).2 ⟨hpinned.trans hpin hlh, ?_⟩)
      (.inr (hcase.imp_right fun hno => .inl (by rwa [h.copy])))
    intro x hlo _
    rw [hcopy₂, h.copy, hw.byte _ hi x, if_neg fun hc => ?_]
    have := hc.2.2
    rw [length_take] at this
    omega
  · have hwr := fault_written hp hle hlt hd
    have hsame : (t.inode k).d.size = (s.inode k).d.size := by rw [hcopy₂, hwr.attrs, h.copy]
    have hdiv := div_eq_of_fault hle hlt
    have hroom := fault_hasRoom hp hdiv
    -- the inode block that `iupdate` logs is not the block of the fault
    have hmeta : ∀ b, b < sb.nmeta → b ∉ t.lh → t.disk b = s.disk b := by
      intro b hb hmem
      obtain ⟨hbn, h0⟩ := hp.backed (off + m) (Nat.le_add_right ..) (by omega)
      have hge := (hp.holds.owned.area _ hi _ (blockPlace_lt hbn) h0).1
      rw [hd, update_of_ne (by omega)]
      exact hp.pinned b (by rwa [← hlh₁])
    have hpins : Pinned s s' ↔ Pinned s t := by
      refine ⟨fun hps b hb => ?_, fun hps => hps.trans hpin hlh⟩
      by_cases hb' : b ∈ s'.lh
      · exact hmeta b ((hnew b hb').resolve_left hb) hb
      · rw [← hpin b hb', hps b hb']
    rw [hs.safe_iff hcopy hsame hsub, hpins, fault_unseen h hp hal hle hlt hd hlh₁ hcopy₂, Harmless]
    refine ⟨fun hun => .inr (.inr (.inr hun)), ?_⟩
    rintro (hc | hc | hc | hc)
    · exact absurd hc hbad
    · omega
    · exact absurd (by rwa [h.copy]) hc
    · exact hc

/-! ### A fault in the first block -/

/-- A write that faults in its first block returns 0; only the inode is logged. -/
theorem writei_first_fault (src : List Byte) (n : ℕ) (h : Holds sb s D k i)
    (hin : (s.inode k).inum = i) (hoff : off ≤ (D i).size.toNat) (hwrap : off + n < 2 ^ 32)
    (hmax : off + n ≤ maxfile * bsize)
    (h0 : (D i).ref s.disk (blockPlace (off / bsize)) ≠ 0)
    (hsrc : src.length < min n (bsize - off % bsize)) (hlh : s.lh = []) (hout : 1 ≤ s.outstanding)
    (hnlog : 1 < sb.nlog) : ∃ s', writei sb k src off n s = .ok (0, s') ∧ s'.lh = [sb.iblock i] ∧
      s'.disk ((D i).ref s.disk (blockPlace (off / bsize))) =
        (s.disk ((D i).ref s.disk (blockPlace (off / bsize)))).write (off % bsize) src := by
  have hbn : off / bsize < maxfile := by
    simp only [bsize] at hmax hsrc ⊢
    omega
  obtain ⟨t, hmap, ht⟩ := bmap_found h hbn h0
  have ht' := ht.holds h
  obtain ⟨hread, -⟩ := ht'.read hbn (by rwa [ht.disk])
  rw [ht.disk] at hread
  obtain ⟨B, hB⟩ : ∃ B, B = (D i).ref s.disk (blockPlace (off / bsize)) := ⟨_, rfl⟩
  have hge := (h.owned.area i h.lt _ (blockPlace_lt hbn) h0).1
  rw [← hB] at h0 hmap hread hge ⊢
  obtain ⟨u, hu⟩ : ∃ u : Fs, u = { t.saw B with
      disk := update t.disk B ((s.disk B).write (off % bsize) src) } := ⟨_, rfl⟩
  have hloop : writeiLoop sb k src n (n + 1) off 0 s = .ok ((off, 0), u) := by
    rw [writeiLoop, Run.ite_apply, if_neg (by omega), bind_ok hmap, Run.ite_apply, if_neg h0,
      bind_ok hread]
    dsimp only
    rw [Run.ite_apply, if_pos (by omega), bind_modify, brelse, bind_modify, pure_apply, hu,
      reading, List.drop_zero]
    simp only [List.erase_cons_head]
    rfl
  have huh : u.held = [] := by rw [hu]; exact ht'.held
  have hul : u.lh = [] := by rw [hu]; exact (by rw [ht.eq]; exact hlh : t.lh = [])
  have huo : 1 ≤ u.outstanding := by rw [hu]; exact (by rw [ht.eq]; exact hout : 1 ≤ t.outstanding)
  have hui : u.inode = s.inode := by rw [hu]; exact (by rw [ht.eq] : t.inode = s.inode)
  rw [writei, bind_read, h.copy, Run.ite_apply,
    if_neg (by rw [Nat.mod_eq_of_lt hwrap]; omega), Run.ite_apply,
    if_neg (by rw [Nat.mod_eq_of_lt hwrap]; omega), bind_ok hloop, modifyDinode, modifyInode,
    bind_modify]
  obtain ⟨v, hv⟩ : ∃ v, v = u.setInode k fun j => { j with
    d := if off > j.d.size.toNat then { j.d with size := .ofNat 32 off } else j.d } := ⟨_, rfl⟩
  have hvi : (v.inode k).inum = i := by
    have hinum : (v.inode k).inum = (u.inode k).inum := by
      rw [hv, setInode]
      dsimp only
      rw [update_self]
    rw [hinum, hui, hin]
  have hvd : v.disk B = (s.disk B).write (off % bsize) src := by
    rw [hv, hu]
    exact update_self ..
  have hvl : v.lh = [] := by rw [hv]; exact hul
  rw [← hv, iupdate, bind_assoc_apply, bind_read, hvi, bind_assoc_apply,
    bind_ok (bread_ok (by rw [hv]; exact huh ▸ List.not_mem_nil)), bind_assoc_apply,
    bind_ok (logWrite_ok (by rw [hv]; exact hul ▸ by decide)
      (by rw [hv]; exact hul ▸ (by simp only [List.length_nil]; omega)) (by rw [hv]; exact huo)),
    bind_ok brelse_logged]
  refine ⟨_, rfl, ?_, ?_⟩
  · rw [wrote, logged]
    dsimp only
    rw [if_neg (by rw [saw, hvl]; exact List.not_mem_nil), saw, hvl]
    rfl
  · have hlt := (sb.iblock_lt h.lt).trans sb.bmapstart_lt
    rw [← hvd]
    exact update_of_ne (by omega) ..

end Fs

namespace Mk

variable {args : List MkArg} {img : Mk}

/-- One file of one byte. -/
def oneByte : List MkArg := [{ largeFile with chunks := some [[0]] }]

/-- The state in which the first process has opened the file with the inode 2 for writing and locked
it, in an operation. -/
def fileLocked (disk : ℕ → Mem) : Fs := { Fs.start disk with
  outstanding := 1
  inode := update (Fs.start disk).inode 1 ⟨2, 1, true, true, dinodeAt sb disk 2⟩ }

theorem Image.holds_file (h : Image args img) (hfree : img.freeblock ≤ swapbase) :
    Holds sb (fileLocked img.disk) (dinodeAt sb img.disk) 1 2 where
  lt := by decide
  copy := rfl
  owned := h.owned hfree
  held := rfl

/-- The image of one file of one byte, and what is in it. -/
theorem oneByte_image : ∃ img, main oneByte start = .ok ((), img) ∧
    Holds sb (fileLocked img.disk) (dinodeAt sb img.disk) 1 2 ∧
    (dinodeAt sb img.disk 2).size.toNat = 1 ∧
    (dinodeAt sb img.disk 2).ref img.disk (blockPlace (0 / bsize)) ≠ 0 ∧
    (dinodeAt sb img.disk 2).byte img.disk 0 = 0 := by
  have hn : oneByte.length + 1 < inodeSlots := by decide
  have hneed : blocksNeeded oneByte = 2 := by decide
  have hfile : files oneByte 2 = [0] := rfl
  have hfine : ∀ a ∈ oneByte, Fine a ∧ (content a).length ≤ maxfile * bsize := by
    intro a ha
    obtain rfl := List.mem_singleton.1 ha
    exact ⟨⟨by decide, by decide, by decide⟩, by decide⟩
  obtain ⟨img, himg⟩ := main_ok hn hfine (by rw [hneed]; decide)
  have h := (main_spec hn).of_ok himg
  have hfree : img.freeblock ≤ swapbase := by
    rw [show img.freeblock = total (files oneByte) from h.tree.count, total_files hn, hneed]
    decide
  refine ⟨img, himg, h.holds_file hfree, ?_, ?_, ?_⟩
  · rw [h.size 2 (by decide) (by decide), hfile]
    rfl
  · rw [h.ref_ne_iff (by decide) (by decide), hfile, filled_blockPlace]
    decide
  · rw [h.byte (by decide) (by rw [hfile]; decide), hfile]
    rfl

/-- **A write that fails changes the file**: two bytes are to be written to the file, of which only
the first can be read.  `writei` returns 0, the first byte of the file in the cache has changed, and
the log does not hold its block. -/
theorem write_not_failSafe : ∃ img s', main oneByte start = .ok ((), img) ∧
    Holds sb (fileLocked img.disk) (dinodeAt sb img.disk) 1 2 ∧
    writei sb 1 [1] 0 2 (fileLocked img.disk) = .ok (0, s') ∧
    ¬ FailSafe 1 0 0 (fileLocked img.disk) s' := by
  obtain ⟨img, himg, hh, hsize, hne, hzero⟩ := oneByte_image
  obtain ⟨s', hrun, hlh, hd⟩ := writei_first_fault [1] 2 hh rfl (zero_le _) (by decide)
    (by decide) hne (by decide) rfl (Int.le_refl 1) (by decide)
  refine ⟨img, s', himg, hh, hrun, fun hf => ?_⟩
  have hge : sb.nmeta ≤ (dinodeAt sb img.disk 2).ref img.disk (blockPlace (0 / bsize)) :=
    (hh.owned.area 2 hh.lt _ (blockPlace_lt (by decide)) hne).1
  rw [Dinode.byte_of_ref (by decide) hne] at hzero
  have hd' : s'.disk ((dinodeAt sb img.disk 2).ref img.disk (blockPlace (0 / bsize))) 0 = 1 :=
    congrFun hd 0
  have hmem : (dinodeAt sb img.disk 2).ref img.disk (blockPlace (0 / bsize)) ∉ s'.lh := by
    rw [hlh, List.mem_singleton]
    intro e
    rw [e] at hge
    exact absurd hge (by decide)
  have hclean := congrFun (hf.clean img.disk (fun _ _ => rfl) _ hmem) 0
  rw [hd'] at hclean
  exact absurd (hclean.trans hzero) (by decide)

/-- The same write with the byte that is there already. -/
theorem failSafe_iff_same : ∃ img s', main oneByte start = .ok ((), img) ∧
    Holds sb (fileLocked img.disk) (dinodeAt sb img.disk) 1 2 ∧
    writei sb 1 [0] 0 2 (fileLocked img.disk) = .ok (0, s') ∧
    FailSafe 1 0 0 (fileLocked img.disk) s' := by
  obtain ⟨img, himg, hh, hsize, hne, hzero⟩ := oneByte_image
  obtain ⟨s', hrun, -, -⟩ := writei_first_fault [0] 2 hh rfl (zero_le _) (by decide)
    (by decide) hne (by decide) rfl (Int.le_refl 1) (by decide)
  refine ⟨img, s', himg, hh, hrun, ?_⟩
  refine (failSafe_iff hh (by decide) (by decide) hrun).2 (.inr (.inr (.inr ?_)))
  intro x _ hx _
  obtain rfl : x = 0 := by
    rw [length_singleton] at hx
    omega
  exact .inl hzero.symm

end Mk

end Xv6Swap
