import Xv6Swap.Kernel.Log
import Xv6Swap.Spec.Bio

/-!
# What the functions of the log do

The logged blocks are pinned in the cache: `Log.Ok l pinned view` says that the cache holds
exactly the blocks of `pinned`, once each, and shows the contents `view`.  Each function of the log
makes at most one disk write, and its specification says which:

* `logUpdate_spec` : an operation changes a block; nothing reaches the disk;
* `writeLogBlock_spec`, `writeHead_spec`, `installBlock_spec` : the writes of a commit;
* `readHead_spec` : the header is read back (`headDecode_headEncode`).
-/

namespace Xv6Swap

open Function Run Ensures Nat List

open Bio Log

variable {l : List ℕ} {b tail : ℕ} {s : Bio}

/-- One reference for each block of a list. -/
def pins (l : List ℕ) (b : ℕ) : ℕ := if b ∈ l then 1 else 0

theorem pins_pos : 0 < pins l b ↔ b ∈ l := by
  unfold pins; split <;> simp [*]

theorem pins_append (l : List ℕ) (hb : b ∉ l) : pins (l ++ [b]) = update (pins l) b 1 := by
  funext c
  by_cases hc : c = b
  · subst hc; simp [pins]
  · simp [pins, hc]

theorem pins_tail (hb : b ∉ l) : pins l = update (pins (b :: l)) b 0 := by
  funext c
  by_cases hc : c = b
  · subst hc; simp [pins, hb]
  · simp [pins, hc]

theorem devOf_of_lt (h : b < swapbase) : devOf b = rootdev := if_pos h

/-- The cache below the log holds the blocks of `pinned` and shows the contents `view`. -/
def Log.Ok (l : Log) (pinned : List ℕ) (view : ℕ → Mem) : Prop := l.bio.Ok (pins pinned) view

/-- Everything of the log but the cache and the disk. -/
def Log.SameMem (l l' : Log) : Prop :=
  l'.lh = l.lh ∧ l'.outstanding = l.outstanding ∧ l'.committing = l.committing

section Steps

variable {α β : Type} {l : Log} {ref : ℕ → ℕ} {view : ℕ → Mem} {b : ℕ}

theorem onBio_ok {m : Run Bio FsPanic α} {a : α} (h : m l.bio = .ok (a, s)) :
    onBio m l = .ok (a, { l with bio := s }) := by
  simp only [onBio, Run.zoom, h]

theorem onBio_bind {m : Run Bio FsPanic α} {k : α → Run Log FsPanic β} {a : α}
    (h : m l.bio = .ok (a, s)) : (onBio m >>= k) l = k a { l with bio := s } :=
  bind_ok (onBio_ok h)

theorem Log.SameMem.trans {l l' l'' : Log} (h : l.SameMem l') (h' : l'.SameMem l'') :
    l.SameMem l'' :=
  ⟨h'.1.trans h.1, h'.2.1.trans h.2.1, h'.2.2.trans h.2.2⟩

/-- Programs of the cache do not touch the rest of the log. -/
theorem onBio_same (m : Run Bio FsPanic α) (l : Log) :
    Ensures (onBio m l) (fun _ l' => l.SameMem l') fun _ => True := by
  have hany : Ensures (m l.bio) (fun _ _ => True) fun _ => True := by
    cases m l.bio <;> trivial
  refine (zoom bio hany).imp ?_
  rintro _ _ ⟨s, -, rfl⟩
  exact ⟨rfl, rfl, rfl⟩

/-- A program that starts by reading a block of the file system. -/
theorem ensures_bread (h : l.bio.Ok ref view) (hb : b < swapbase)
    {k : ℕ → Run Log FsPanic β} {Q : β → Log → Prop} {E : FsPanic → Prop}
    (herr : l.bio.cached rootdev b = none → l.bio.unused = none → E .bgetNoBuffers)
    (hk : ∀ i s, s.Ok (update ref b (ref b + 1)) view → s.Holds i b →
      s.disk = l.bio.disk → (∀ j c, l.bio.Holds j c → 0 < ref c → s.Holds j c) →
      Ensures (k i { l with bio := s }) Q E) : Ensures ((onBio (bread rootdev b) >>= k) l) Q E := by
  have hspec := bread_spec h b
  rw [devOf_of_lt hb] at hspec
  refine bind (zoom bio (hspec.mono (fun i s hs => hs) ?_)) ?_
  · rintro e ⟨rfl, hc, hu⟩; exact herr hc hu
  · rintro i _ ⟨s, ⟨h1, h2, h3, h4⟩, rfl⟩
    exact hk i s h1 h2 h3 h4

end Steps

variable {sb : Superblock} {l : Log} {pinned : List ℕ} {view : ℕ → Mem} {b : ℕ}

/-! ### Changing blocks in the cache -/

/-- What an operation does with a block: `bread`, change the data, `log_write`, `brelse`. -/
def logUpdate (sb : Superblock) (b : ℕ) (data : Mem) : Run Log FsPanic Unit := do
  let i ← onBio (bread rootdev b)
  onBio (bset i data)
  logWrite sb i
  onBio (brelse i)

/-- The log has no room for one more `log_write`. -/
def Log.Full (sb : Superblock) (l : Log) : Prop := logsize ≤ l.lh.length ∨ sb.nlog - 1 ≤ l.lh.length

/-- **An operation changes a block**: the change is in the cache, the block is on the list. -/
theorem logUpdate_spec (h : l.Ok l.lh view) (hb : b < swapbase) (data : Mem) :
    Ensures (logUpdate sb b data l) (fun _ l' => l'.Ok l'.lh (update view b data) ∧
        l'.lh = (if b ∈ l.lh then l.lh else l.lh ++ [b]) ∧ l'.outstanding = l.outstanding ∧
        l'.committing = l.committing ∧ l'.bio.disk = l.bio.disk ∧ ¬ l.Full sb ∧ 0 < l.outstanding)
      fun e => e = .tooBig ∧ l.Full sb ∨ e = .outsideOfTrans ∧ l.outstanding = 0 ∨
        e = .bgetNoBuffers ∧ nbuf ≤ l.lh.length := by
  rw [logUpdate]
  refine ensures_bread h hb (fun _ hu => ?_) fun i s₁ h1 hi1 hd1 _ => ?_
  · -- with fewer than NBUF blocks pinned there is a buffer left
    refine .inr (.inr ⟨rfl, ?_⟩)
    by_contra hlt
    obtain ⟨i, hi⟩ := h.exists_unused (fun b => pins_pos.1) (Nat.lt_of_not_le hlt)
    rw [hu] at hi
    cases hi
  have hpos : 0 < update (pins l.lh) b (pins l.lh b + 1) b := by
    rw [update_self]; omega
  obtain ⟨s₂, hr2, h2, hd2, hk2⟩ := bset_spec h1 hi1 hpos data
  have hi2 := hk2 _ _ hi1
  rw [onBio_bind hr2]
  simp only [logWrite, bind_assoc_apply, bind_read, id]
  rw [ite_bind_apply]
  split
  case isTrue hfull => exact .inl ⟨rfl, hfull⟩
  case isFalse hfull =>
  rw [ite_bind_apply]
  split
  case isTrue hout => exact .inr (.inl ⟨rfl, lt_one_iff.1 hout⟩)
  case isFalse hout =>
  rw [hi2.blockno, ite_bind_apply]
  split
  case isTrue hmem =>
    -- absorbed: the block has been pinned before
    have href : update (pins l.lh) b (pins l.lh b + 1) b - 1 ≠ 0 := by
      have := pins_pos.2 hmem; rw [update_self]; omega
    obtain ⟨s₃, hr3, h3, hd3, _⟩ := brelse_spec h2 hi2 fun h0 => (href h0).elim
    rw [bind_pure_apply, onBio_ok hr3]
    refine ⟨?_, by simp, rfl, rfl, hd3.trans (hd2.trans hd1), hfull, by omega⟩
    simpa [Log.Ok] using h3
  case isFalse hmem =>
    obtain ⟨s₃, hr3, h3, hd3, hk3⟩ := bpin_spec h2 hi2
    have hpins : pins l.lh b = 0 := by
      have := mt pins_pos.1 hmem; omega
    obtain ⟨s₄, hr4, h4, hd4, _⟩ := brelse_spec h3 (hk3 _ _ hi2) (by simp [hpins])
    rw [bind_assoc_apply, onBio_bind hr3, bind_modify, onBio_ok hr4]
    refine ⟨?_, by simp, rfl, rfl, ?_, hfull, by omega⟩
    · rw [Log.Ok, pins_append _ hmem]
      simpa [hpins] using h4
    · exact hd4.trans (hd3.trans (hd2.trans hd1))

theorem read_spec (h : l.Ok pinned view) (b : ℕ) :
    Ensures (onBio (bread (devOf b) b >>= brelse) l) (fun _ l' => l'.Ok pinned view ∧
        l.SameMem l' ∧ l'.bio.disk = l.bio.disk) fun e => e = .bgetNoBuffers := by
  have hprog : Ensures ((bread (devOf b) b >>= brelse) l.bio)
      (fun _ s => s.Ok (pins pinned) view ∧ s.disk = l.bio.disk) fun e => e = .bgetNoBuffers := by
    refine bind (mono (bread_spec h b) (fun i s hs => hs) fun e he => he.1) ?_
    rintro i s₁ ⟨h1, hi1, hd1, _⟩
    obtain ⟨s₂, hr2, h2, hd2, _⟩ := brelse_spec h1 hi1 fun h0 => by
      rw [update_self, Nat.add_sub_cancel] at h0
      rw [hd1]; exact h.dropped b h0
    rw [hr2]
    refine ⟨?_, hd2.trans hd1⟩
    simpa using h2
  refine (zoom bio hprog).imp ?_
  rintro _ _ ⟨s, ⟨hok, hdisk⟩, rfl⟩
  exact ⟨hok, ⟨rfl, rfl, rfl⟩, hdisk⟩

/-- Swapping writes a block of the swap area through the cache. -/
def swapBlock (b : ℕ) (data : Mem) : Run Bio FsPanic Unit := do
  let i ← bread swapdev b
  bset i data
  bwrite i
  brelse i

theorem swapBlock_spec (h : l.Ok pinned view) (hb : swapbase ≤ b) (data : Mem) :
    Ensures (onBio (swapBlock b data) l) (fun _ l' => l'.Ok pinned (update view b data) ∧
        l.SameMem l' ∧ l'.bio.disk = update l.bio.disk b data) fun e => e = .bgetNoBuffers := by
  have hdev : devOf b = swapdev := if_neg (Nat.not_lt.2 hb)
  have hprog : Ensures (swapBlock b data l.bio)
      (fun _ s => s.Ok (pins pinned) (update view b data) ∧
        s.disk = update l.bio.disk b data) fun e => e = .bgetNoBuffers := by
    have hread := bread_spec h b
    rw [hdev] at hread
    refine bind (mono hread (fun i s hs => hs) fun e he => he.1) ?_
    rintro i s₁ ⟨h1, hi1, hd1, _⟩
    obtain ⟨s₂, hr2, h2, hd2, hk2⟩ := bset_spec h1 hi1 (by simp) data
    obtain ⟨s₃, hr3, h3, hd3, hk3⟩ := bwrite_spec h2 (hk2 _ _ hi1)
    obtain ⟨s₄, hr4, h4, hd4, _⟩ := brelse_spec h3 (hk3 _ _ (hk2 _ _ hi1)) (by simp [hd3])
    rw [bind_ok hr2, bind_ok hr3, hr4]
    refine ⟨?_, ?_⟩
    · simpa using h4
    · rw [hd4, hd3, hd2, hd1]; simp
  refine (zoom bio hprog).imp ?_
  rintro _ _ ⟨s, ⟨hok, hdisk⟩, rfl⟩
  exact ⟨hok, ⟨rfl, rfl, rfl⟩, hdisk⟩

theorem endOpBegin_apply (h : l.committing = false) : endOpBegin l =
    .ok (decide (l.outstanding - 1 = 0), { l with
      outstanding := l.outstanding - 1, committing := decide (l.outstanding - 1 = 0) }) := by
  simp only [endOpBegin, bind_modify, bind_read, id, h, Bool.false_eq_true, if_false, Run.ite_apply]
  split
  case isTrue h0 => simp [h0]
  case isFalse h0 => simp [h0]

/-! ### The writes of a commit and of recovery -/

theorem writeLogBlock_same (sb : Superblock) (tail : ℕ) (l : Log) :
    Ensures (writeLogBlock sb tail l) (fun _ l' => l.SameMem l') fun _ => True := by
  simp only [writeLogBlock, bind_read]
  refine (onBio_same _ _).bind fun dst l₁ h1 => (onBio_same _ _).bind fun src l₂ h2 => ?_
  rw [bind_read]
  refine (onBio_same _ _).bind fun _ l₃ h3 => (onBio_same _ _).bind fun _ l₄ h4 =>
    (onBio_same _ _).bind fun _ l₅ h5 => (onBio_same _ _).imp fun _ l₆ h6 => ?_
  exact h1.trans (h2.trans (h3.trans (h4.trans (h5.trans h6))))

theorem installBlock_same (sb : Superblock) (recovering : Bool) (tail : ℕ) (l : Log) :
    Ensures (installBlock sb recovering tail l) (fun _ l' => l.SameMem l') fun _ => True := by
  simp only [installBlock, bind_read]
  refine (onBio_same _ _).bind fun lbuf l₁ h1 => (onBio_same _ _).bind fun dbuf l₂ h2 => ?_
  rw [bind_read]
  refine (onBio_same _ _).bind fun _ l₃ h3 => (onBio_same _ _).bind fun _ l₄ h4 => ?_
  have hrelse : ∀ l₅, l₄.SameMem l₅ → Ensures ((onBio (brelse lbuf) >>= fun _ =>
      onBio (brelse dbuf)) l₅) (fun _ l' => l.SameMem l') fun _ => True := by
    intro l₅ h5
    refine (onBio_same _ _).bind fun _ l₆ h6 => (onBio_same _ _).imp fun _ l₇ h7 => ?_
    exact h1.trans (h2.trans (h3.trans (h4.trans (h5.trans (h6.trans h7)))))
  cases recovering
  · exact (onBio_same _ _).bind fun _ l₅ h5 => hrelse l₅ h5
  · exact hrelse l₄ ⟨rfl, rfl, rfl⟩

theorem writeHead_same (sb : Superblock) (l : Log) :
    Ensures (writeHead sb l) (fun _ l' => l.SameMem l') fun _ => True := by
  simp only [writeHead, bind_read]
  refine (onBio_same _ _).bind fun buf l₁ h1 => ?_
  rw [bind_read]
  refine (onBio_same _ _).bind fun _ l₂ h2 => (onBio_same _ _).bind fun _ l₃ h3 =>
    (onBio_same _ _).imp fun _ l₄ h4 => ?_
  exact h1.trans (h2.trans (h3.trans h4))

theorem headDecode_headEncode (data : Mem) {lh : List ℕ} (hlen : lh.length < 2 ^ 31)
    (hlt : ∀ b ∈ lh, b < 2 ^ 32) : headDecode (headEncode data lh) = lh := by
  have hn : (headEncode data lh).loadLE 4 0 = lh.length := by
    have := Mem.loadLE_storeWords data 4 0 (lh.length :: lh) 0 (by simp)
    simp only [mul_zero, add_zero, getElem_cons_zero] at this
    rw [headEncode, this, mod_eq_of_lt (by omega)]
  rw [headDecode, hn, if_pos hlen]
  refine ext_getElem (by simp) fun i h₁ h₂ => ?_
  simp only [Mem.loadWords, getElem_map, getElem_range]
  have hword := Mem.loadLE_storeWords data 4 0 (lh.length :: lh) (i + 1) (by simpa using h₂)
  have hmem := hlt _ (getElem_mem h₂)
  rw [show 4 + 4 * i = 0 + 4 * (i + 1) by ring, headEncode, hword, getElem_cons_succ,
    mod_eq_of_lt (by omega)]

variable (h : l.Ok pinned view)
include h

theorem writeHead_spec : Ensures (writeHead sb l) (fun _ l' =>
        l'.Ok pinned (update view sb.logstart (headEncode (view sb.logstart) l.lh)) ∧
        l.SameMem l' ∧ l'.bio.disk =
          update l.bio.disk sb.logstart (headEncode (view sb.logstart) l.lh))
      fun e => e = .bgetNoBuffers := by
  have hlt : sb.logstart < swapbase := by
    have := sb.log_le; have := sb.nlog_pos
    omega
  simp only [writeHead, bind_read, id]
  refine ensures_bread h hlt (fun _ _ => rfl) fun i s₁ h1 hi1 hd1 _ => ?_
  simp only [bind_read, h1.data i _ hi1]
  obtain ⟨s₂, hr2, h2, hd2, hk2⟩ := bset_spec h1 hi1 (by simp)
    (headEncode (view sb.logstart) l.lh)
  obtain ⟨s₃, hr3, h3, hd3, hk3⟩ := bwrite_spec h2 (hk2 _ _ hi1)
  obtain ⟨s₄, hr4, h4, hd4, _⟩ := brelse_spec h3 (hk3 _ _ (hk2 _ _ hi1)) (by simp [hd3])
  rw [onBio_bind hr2, onBio_bind hr3, onBio_ok hr4]
  refine ⟨?_, ⟨rfl, rfl, rfl⟩, ?_⟩
  · simpa [Log.Ok] using h4
  · rw [hd4, hd3, hd2, hd1]; simp

theorem readHead_spec (hstart : sb.logstart ∉ pinned) :
    Ensures (readHead sb l) (fun _ l' => l'.Ok pinned view ∧
        l'.lh = headDecode (view sb.logstart) ∧ l'.outstanding = l.outstanding ∧
        l'.committing = l.committing ∧ l'.bio.disk = l.bio.disk) fun e => e = .bgetNoBuffers := by
  have hlt : sb.logstart < swapbase := by
    have := sb.log_le; have := sb.nlog_pos
    omega
  have h0 : pins pinned sb.logstart = 0 := by
    have := mt pins_pos.1 hstart; omega
  simp only [readHead]
  refine ensures_bread h hlt (fun _ _ => rfl) fun i s₁ h1 hi1 hd1 _ => ?_
  simp only [bind_read, bind_modify, h1.data i _ hi1]
  obtain ⟨s₂, hr2, h2, hd2, _⟩ := brelse_spec h1 hi1 fun _ => by
    rw [hd1]; exact h.dropped _ h0
  rw [onBio_ok hr2]
  refine ⟨?_, rfl, rfl, rfl, hd2.trans hd1⟩
  simpa [Log.Ok] using h2

/-- A logged block is copied from the cache to the log. -/
theorem writeLogBlock_spec (htail : l.lh[tail]? = some b)
    (hb : b ∈ pinned) (hb' : b < swapbase) (hslot : sb.logstart + tail + 1 ∉ pinned)
    (hslot' : sb.logstart + tail + 1 < swapbase) : Ensures (writeLogBlock sb tail l) (fun _ l' =>
        l'.Ok pinned (update view (sb.logstart + tail + 1) (view b)) ∧ l.SameMem l' ∧
        l'.bio.disk = update l.bio.disk (sb.logstart + tail + 1) (view b))
      fun e => e = .bgetNoBuffers := by
  have hget : l.lh.getD tail 0 = b := by simp [getD_eq_getElem?_getD, htail]
  have hne : b ≠ sb.logstart + tail + 1 := fun he => hslot (he ▸ hb)
  simp only [writeLogBlock, bind_read, id, hget]
  generalize sb.logstart + tail + 1 = a at *
  have h0 : pins pinned a = 0 := by
    have := mt pins_pos.1 hslot; omega
  have hb1 : pins pinned b = 1 := if_pos hb
  refine ensures_bread h hslot' (fun _ _ => rfl) fun dst s₁ h1 hi1 hd1 _ => ?_
  refine ensures_bread h1 hb' (fun _ _ => rfl) fun src s₂ h2 hi2 hd2 hk2 => ?_
  have hdst := hk2 _ _ hi1 (by simp)
  simp only [bind_read, h2.data _ _ hi2]
  obtain ⟨s₃, hr3, h3, hd3, hk3⟩ := bset_spec h2 hdst (by simp [hne.symm]) (view b)
  obtain ⟨s₄, hr4, h4, hd4, hk4⟩ := bwrite_spec h3 (hk3 _ _ hdst)
  obtain ⟨s₅, hr5, h5, hd5, hk5⟩ := brelse_spec h4 (hk4 _ _ (hk3 _ _ hi2)) (by simp [hne, hb1])
  have hd2' : s₂.disk = l.bio.disk := hd2.trans hd1
  obtain ⟨s₆, hr6, h6, hd6, _⟩ := brelse_spec h5 (hk5 _ _ (hk4 _ _ (hk3 _ _ hdst)))
    (by simp [hne.symm, hd5, hd4])
  rw [onBio_bind hr3, onBio_bind hr4, onBio_bind hr5, onBio_ok hr6]
  refine ⟨?_, ⟨rfl, rfl, rfl⟩, ?_⟩
  · refine h6.of_ref fun c => ?_
    by_cases hca : c = a
    · subst hca; simp [hne.symm]
    · by_cases hcb : c = b
      · subst hcb; simp [hca]
      · simp [hca]
  · rw [hd6, hd5, hd4, hd3, hd2']; simp

/-- A block is copied from the log to its home.  A commit gives up the pin of the block. -/
theorem installBlock_spec {recovering : Bool} {pinned' : List ℕ} (htail : l.lh[tail]? = some b)
    (hb : b < swapbase)
    (hslot : sb.logstart + tail + 1 ∉ pinned) (hslot' : sb.logstart + tail + 1 < swapbase)
    (hne : b ≠ sb.logstart + tail + 1)
    (hpin : pinned = if recovering then pinned' else b :: pinned') (hb' : b ∉ pinned') :
    Ensures (installBlock sb recovering tail l) (fun _ l' =>
        l'.Ok pinned' (update view b (view (sb.logstart + tail + 1))) ∧ l.SameMem l' ∧
        l'.bio.disk = update l.bio.disk b (view (sb.logstart + tail + 1)))
      fun e => e = .bgetNoBuffers := by
  have hget : l.lh.getD tail 0 = b := by simp [getD_eq_getElem?_getD, htail]
  simp only [installBlock, bind_read, id, hget]
  generalize sb.logstart + tail + 1 = a at *
  have h0 : pins pinned a = 0 := by
    have := mt pins_pos.1 hslot; omega
  refine ensures_bread h hslot' (fun _ _ => rfl) fun lbuf s₁ h1 hi1 hd1 _ => ?_
  refine ensures_bread h1 hb (fun _ _ => rfl) fun dbuf s₂ h2 hi2 hd2 hk2 => ?_
  have hl := hk2 _ _ hi1 (by simp)
  simp only [bind_read, h2.data _ _ hl]
  obtain ⟨s₃, hr3, h3, hd3, hk3⟩ := bset_spec h2 hi2 (by simp) (view a)
  obtain ⟨s₄, hr4, h4, hd4, hk4⟩ := bwrite_spec h3 (hk3 _ _ hi2)
  have hl4 := hk4 _ _ (hk3 _ _ hl)
  have hi4 := hk4 _ _ (hk3 _ _ hi2)
  have hdisk : s₄.disk = update l.bio.disk b (view a) := by
    rw [hd4, hd3, hd2, hd1, update_self]
  have ha : view a = l.bio.disk a := h.dropped a h0
  rw [onBio_bind hr3, onBio_bind hr4]
  cases recovering with
  | true =>
    obtain ⟨s₅, hr5, h5, hd5, hk5⟩ := brelse_spec h4 hl4 (by simp [hne.symm, hdisk, ha])
    obtain ⟨s₆, hr6, h6, hd6, _⟩ := brelse_spec h5 (hk5 _ _ hi4) (by simp [hd5, hdisk])
    simp only [if_true] at hpin ⊢
    rw [onBio_bind hr5, onBio_ok hr6]
    refine ⟨h6.of_ref fun c => ?_, ⟨rfl, rfl, rfl⟩, by rw [hd6, hd5, hdisk]⟩
    by_cases hca : c = a
    · subst hca; simp [hne.symm, hpin]
    · by_cases hcb : c = b
      · subst hcb; simp [hca, hpin]
      · simp [hca, hcb, hpin]
  | false =>
    obtain ⟨s₅, hr5, h5, hd5, hk5⟩ := bunpin_spec h4 hi4 (by simp [hdisk])
    obtain ⟨s₆, hr6, h6, hd6, hk6⟩ := brelse_spec h5 (hk5 _ _ hl4)
      (by simp [hne.symm, hd5, hdisk, ha])
    obtain ⟨s₇, hr7, h7, hd7, _⟩ := brelse_spec h6 (hk6 _ _ (hk5 _ _ hi4))
      (by simp [hd6, hd5, hdisk])
    simp only [Bool.false_eq_true, if_false] at hpin ⊢
    rw [onBio_bind hr5, onBio_bind hr6, onBio_ok hr7]
    refine ⟨h7.of_ref fun c => ?_, ⟨rfl, rfl, rfl⟩, by rw [hd7, hd6, hd5, hdisk]⟩
    rw [pins_tail hb', ← hpin]
    by_cases hca : c = a
    · subst hca; simp [hne.symm]
    · by_cases hcb : c = b
      · have hb1 : pins pinned b = 1 := if_pos (hpin ▸ mem_cons_self)
        subst hcb; simp [hca, hb1]
      · simp [hcb]

end Xv6Swap
