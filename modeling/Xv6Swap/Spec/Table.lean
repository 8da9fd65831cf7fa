import Xv6Swap.Kernel.Sysfile
import Xv6Swap.Lib.Along

/-!
# The tables of the file system

`Fs.tab` forgets the disk and what the entries of `itable` say of it, and keeps the counts, the
locks and who points where.  The functions of `kernel/fs.c` act on it as a few simple operations,
whatever the disk holds:

* `Still`, `still_bread`, ..., `still_writei` : the functions on blocks and on the contents of a
  file leave it alone;
* `iget_tab`, `iput_tab`, `ilock_tab`, `iunlock_tab` : `Tab.get`, `Tab.put` and `Tab.setLock`;
* `namex_tab`, `create_tab` : **lookup and creation give out the references they return, and no
  others**.

The stops that these statements leave open are `Benign`.
-/

namespace Xv6Swap

open Function List

open Run

/-- The counts and locks of the inode table, and what refers to its entries and to each other. -/
@[ext] structure Tab where
  file : ℕ → File
  proc : ℕ → FsProc
  outstanding : ℤ
  ref : ℕ → ℤ
  lock : ℕ → Bool

namespace Tab

variable {t : Tab} {k n : ℕ} {b c : Bool}

/-- One reference more to an inode. -/
def get (t : Tab) (k : ℕ) : Tab := { t with ref := update t.ref k (t.ref k + 1) }

/-- One reference less to an inode. -/
def put (t : Tab) (k : ℕ) : Tab := { t with ref := update t.ref k (t.ref k - 1) }

/-- Set the lock of an inode. -/
def setLock (t : Tab) (k : ℕ) (b : Bool) : Tab := { t with lock := update t.lock k b }

/-- The current directory of a process. -/
def Cwd (t : Tab) (p k : ℕ) : Prop := (t.proc p).cwd = some k ∧ k < ninode ∧ 1 ≤ t.ref k

@[simp] theorem put_get : (t.get k).put k = t := by
  simp [get, put]

@[simp] theorem get_put : (t.put k).get k = t := by
  simp [get, put]

theorem put_comm : (t.put k).put n = (t.put n).put k := by
  rcases eq_or_ne k n with rfl | h
  · rfl
  · simp [put, h, h.symm, update_comm h]

theorem get_comm : (t.get k).get n = (t.get n).get k := by
  rcases eq_or_ne k n with rfl | h
  · rfl
  · simp [get, h, h.symm, update_comm h]

@[simp] theorem setLock_get : (t.get n).setLock k b = (t.setLock k b).get n := rfl

@[simp] theorem setLock_setLock : (t.setLock k b).setLock k c = t.setLock k c := by
  simp [setLock]

theorem setLock_comm (h : k ≠ n) : (t.setLock k b).setLock n c = (t.setLock n c).setLock k b := by
  simp [setLock, update_comm h]

@[simp] theorem setLock_self (h : t.lock k = b) : t.setLock k b = t := by
  simp [setLock, ← h]

@[simp] theorem lock_setLock : (t.setLock k b).lock k = b := by simp [setLock]

theorem lock_setLock_of_ne (h : n ≠ k) : (t.setLock k b).lock n = t.lock n := by
  simp [setLock, h]

@[simp] theorem lock_get : (t.get k).lock = t.lock := rfl

@[simp] theorem ref_setLock : (t.setLock k b).ref = t.ref := rfl

@[simp] theorem ref_get : (t.get k).ref k = t.ref k + 1 := by simp [get]

@[simp] theorem ref_put : (t.put k).ref k = t.ref k - 1 := by simp [put]

theorem ref_le_get : t.ref n ≤ (t.get k).ref n := by
  rcases eq_or_ne n k with rfl | h
  · simp
  · simp [get, h]

theorem ref_get_of_ne (h : n ≠ k) : (t.get k).ref n = t.ref n := by simp [get, h]

theorem ref_put_of_ne (h : n ≠ k) : (t.put k).ref n = t.ref n := by simp [put, h]

end Tab

namespace Fs

variable {p c n m dp ip : ℕ} {f : Inode → Inode} {s u : Fs} {t t' : Tab}

/-- The tables of a state. -/
def tab (s : Fs) : Tab where
  file := s.file
  proc := s.proc
  outstanding := s.outstanding
  ref k := (s.inode k).ref
  lock k := (s.inode k).locked

@[simp] theorem tab_ref (s : Fs) (k : ℕ) : s.tab.ref k = (s.inode k).ref := rfl

@[simp] theorem tab_lock (s : Fs) (k : ℕ) : s.tab.lock k = (s.inode k).locked := rfl

@[simp] theorem tab_file (s : Fs) : s.tab.file = s.file := rfl

@[simp] theorem tab_proc (s : Fs) : s.tab.proc = s.proc := rfl

/-- The stops that are no fault in the counting of references. -/
def Benign (e : FsStop) : Prop := e ≠ .panic .filedup ∧ e ≠ .panic .fileclose ∧ e ≠ .panic .iunlock
  deriving Decidable

variable {s s' : Fs} {sb : Superblock} {k : ℕ}

/-! ### Functions that leave the tables alone -/

/-- Nothing has changed but the contents of blocks and the copies of disk inodes. -/
structure Still (s s' : Fs) : Prop where
  tab : s'.tab = s.tab
  inum : ∀ k, (s'.inode k).inum = (s.inode k).inum
  valid : ∀ k, (s'.inode k).valid = (s.inode k).valid

/-- The function leaves the tables alone. -/
abbrev Stays {α : Type} (m : F α) : Prop := Along Still Benign m

theorem still_panic {α : Type} {p : FsPanic} (h : Benign (.panic p)) :
    Stays (panic p : F α) := .stop h

instance : Std.Refl Still := ⟨fun _ => ⟨rfl, fun _ => rfl, fun _ => rfl⟩⟩

instance : IsTrans Fs Still := ⟨fun _ _ _ h h' => ⟨h'.tab.trans h.tab,
  fun k => (h'.inum k).trans (h.inum k), fun k => (h'.valid k).trans (h.valid k)⟩⟩

theorem still_bread (b : ℕ) : Stays (bread b) := by
  refine .bind (.read _) fun s => .ite (fun _ => .stop (by decide)) fun _ => ?_
  exact .bind (.modify fun _ => ⟨rfl, fun _ => rfl, fun _ => rfl⟩) fun _ => .pure _

theorem still_brelse (b : ℕ) : Stays (brelse b) :=
  .modify fun _ => ⟨rfl, fun _ => rfl, fun _ => rfl⟩

theorem still_logWrite (b : ℕ) (data : Mem) : Stays (logWrite sb b data) := by
  refine .bind (.read _) fun s => .ite (fun _ => still_panic (by decide)) fun _ => ?_
  exact .ite (fun _ => still_panic (by decide)) fun _ =>
    .modify fun _ => ⟨rfl, fun _ => rfl, fun _ => rfl⟩

theorem still_bzero (b : ℕ) : Stays (bzero sb b) :=
  .bind (still_bread b) fun _ => .bind (still_logWrite b _) fun _ => still_brelse b

theorem still_ballocLoop (limit : ℕ) (cs : List ℕ) : Stays (ballocLoop sb limit cs) := by
  induction cs with
  | nil => exact .pure 0
  | cons c cs ih =>
    refine .bind (still_bread _) fun data => ?_
    split
    · exact .bind (still_logWrite _ _) fun _ => .bind (still_brelse _) fun _ =>
        .bind (still_bzero _) fun _ => .pure _
    · exact .bind (still_brelse _) fun _ => ih

theorem still_balloc : Stays (balloc sb) := still_ballocLoop _ _

theorem still_bfree (b : ℕ) : Stays (bfree sb b) := by
  refine .bind (still_bread _) fun data => .ite (fun _ => ?_) fun _ => still_panic (by decide)
  exact .bind (still_logWrite _ _) fun _ => still_brelse _

theorem still_modifyDinode (k : ℕ) (f : Dinode → Dinode) : Stays (modifyDinode k f) := by
  refine .modify fun s => ⟨?_, fun n => ?_, fun n => ?_⟩
  · refine Tab.ext rfl rfl rfl (funext fun n => ?_) (funext fun n => ?_) <;>
    · rcases eq_or_ne n k with rfl | h <;> simp [tab, setInode, *]
  · rcases eq_or_ne n k with rfl | h <;> simp [setInode, *]
  · rcases eq_or_ne n k with rfl | h <;> simp [setInode, *]

theorem still_iupdate (k : ℕ) : Stays (iupdate sb k) :=
  .bind (.read _) fun _ => .bind (still_bread _) fun _ => .bind (still_logWrite _ _) fun _ =>
    still_brelse _

theorem still_bmapAddr (k j : ℕ) : Stays (bmapAddr sb k j) := by
  refine .bind (.read _) fun i => .ite (fun _ => .bind still_balloc fun addr => ?_) fun _ => .pure _
  exact .ite (fun _ => .pure _) fun _ => .bind (still_modifyDinode _ _) fun _ => .pure _

theorem still_bmapIndirect (ind j : ℕ) : Stays (bmapIndirect sb ind j) := by
  have hrel : ∀ v : ℕ, Stays (brelse ind >>= fun _ => pure v) := fun v =>
    .bind (still_brelse _) fun _ => .pure _
  refine .bind (still_bread _) fun a => .ite (fun _ => ?_) fun _ => hrel _
  refine .bind still_balloc fun addr => .ite (fun _ => hrel _) fun _ => ?_
  exact .bind (still_logWrite _ _) fun _ => hrel _

theorem still_bmap (k bn : ℕ) : Stays (bmap sb k bn) := by
  refine .ite (fun _ => still_bmapAddr _ _) fun _ => .ite (fun _ => ?_) fun _ =>
    still_panic (by decide)
  exact .bind (still_bmapAddr _ _) fun ind => .ite (fun _ => .pure _) fun _ =>
    still_bmapIndirect _ _

theorem still_itrunc (k : ℕ) : Stays (itrunc sb k) := by
  have hdirect : ∀ j, Stays (itruncDirect sb k j) := fun j =>
    .bind (.read _) fun _ => .ite (fun _ => .pure _) fun _ =>
      .bind (still_bfree _) fun _ => still_modifyDinode _ _
  have hentry : ∀ a j, Stays (itruncEntry sb a j) := fun a j =>
    .ite (fun _ => .pure _) fun _ => still_bfree _
  refine .bind (.each fun j _ => hdirect j) fun _ => .bind (.read _) fun i => ?_
  have hrest : Stays (modifyDinode k (fun d => { d with size := 0 }) >>= fun _ =>
      iupdate sb k) := .bind (still_modifyDinode _ _) fun _ => still_iupdate k
  refine .ite (fun _ => hrest) fun _ => ?_
  exact .bind (still_bread _) fun a => .bind (.each fun j _ => hentry a j) fun _ =>
    .bind (still_brelse _) fun _ => .bind (still_bfree _) fun _ =>
    .bind (still_modifyDinode _ _) fun _ => hrest

theorem still_readiLoop (k room fuel off n : ℕ) (acc : List Byte) :
    Stays (readiLoop sb k room fuel off n acc) := by
  induction fuel generalizing off n acc with
  | zero => exact .pure _
  | succ fuel ih =>
    refine .ite (fun _ => .pure _) fun _ => .bind (still_bmap _ _) fun addr => ?_
    refine .ite (fun _ => .pure _) fun _ => .bind (still_bread _) fun data => ?_
    exact .bind (still_brelse _) fun _ => .ite (fun _ => .pure _) fun _ => ih _ _ _

theorem still_readi (k room off n : ℕ) : Stays (readi sb k room off n) :=
  .bind (.read _) fun _ => .ite (fun _ => .pure _) fun _ => still_readiLoop _ _ _ _ _ _

theorem still_writeiLoop (k : ℕ) (src : List Byte) (n fuel off tot : ℕ) :
    Stays (writeiLoop sb k src n fuel off tot) := by
  induction fuel generalizing off tot with
  | zero => exact .pure _
  | succ fuel ih =>
    refine .ite (fun _ => .pure _) fun _ => .bind (still_bmap _ _) fun addr => ?_
    refine .ite (fun _ => .pure _) fun _ => .bind (still_bread _) fun data => ?_
    refine .ite (fun _ => ?_) fun _ => ?_
    · exact .bind (.modify fun _ => ⟨rfl, fun _ => rfl, fun _ => rfl⟩) fun _ =>
        .bind (still_brelse _) fun _ => .pure _
    · exact .bind (still_logWrite _ _) fun _ => .bind (still_brelse _) fun _ => ih _ _

theorem still_writei (k : ℕ) (src : List Byte) (off n : ℕ) : Stays (writei sb k src off n) := by
  refine .bind (.read _) fun _ => .ite (fun _ => .pure _) fun _ =>
    .ite (fun _ => .pure _) fun _ => ?_
  exact .bind (still_writeiLoop _ _ _ _ _ _) fun _ => .bind (still_modifyDinode _ _) fun _ =>
    .bind (still_iupdate _) fun _ => .pure _

theorem still_readDirent (k j : ℕ) : Stays (readDirent sb k j) :=
  .bind (still_readi _ _ _ _) fun _ => .pure _

theorem still_dirlinkLoop (k last : ℕ) (js : List ℕ) : Stays (dirlinkLoop sb k last js) := by
  induction js with
  | nil => exact .pure _
  | cons j js ih =>
    refine .bind (still_readDirent k j) fun de => ?_
    cases de with
    | none => exact still_panic (by decide)
    | some de => exact .ite (fun _ => .pure _) fun _ => ih

theorem still_isdiremptyLoop (k : ℕ) (js : List ℕ) : Stays (isdiremptyLoop sb k js) := by
  induction js with
  | nil => exact .pure _
  | cons j js ih =>
    refine .bind (still_readDirent k j) fun de => ?_
    cases de with
    | none => exact still_panic (by decide)
    | some de => exact .ite (fun _ => .pure _) fun _ => ih

theorem still_isdirempty (k : ℕ) : Stays (isdirempty sb k) :=
  .bind (.read _) fun _ => still_isdiremptyLoop _ _

/-! ### The inode table -/

theorem tab_setInode_ref (h : (f (s.inode k)).locked = (s.inode k).locked) :
    (s.setInode k f).tab = { s.tab with
      ref := update s.tab.ref k (f (s.inode k)).ref } := by
  refine Tab.ext rfl rfl rfl (funext fun n => ?_) (funext fun n => ?_) <;>
  · rcases eq_or_ne n k with rfl | hn <;> simp [tab, setInode, *]

theorem tab_setInode_lock (h : (f (s.inode k)).ref = (s.inode k).ref) :
    (s.setInode k f).tab = s.tab.setLock k (f (s.inode k)).locked := by
  refine Tab.ext rfl rfl rfl (funext fun n => ?_) (funext fun n => ?_) <;>
  · rcases eq_or_ne n k with rfl | hn <;> simp [tab, Tab.setLock, setInode, *]

/-- The call leaves the tables like this. -/
abbrev Leaves {α : Type} (r : Except FsStop (α × Fs)) (t : Tab) : Prop :=
  Ensures r (fun _ s' => s'.tab = t) Benign

/-- The reference to `n` that a function has given out. -/
structure Gives (t t' : Tab) (n : ℕ) : Prop where
  eq : t' = t.get n
  pos : 1 ≤ t'.ref n
  lt : n < ninode

theorem iget_tab (inum : ℕ) (s : Fs) :
    Ensures (iget inum s) (fun k s' => Gives s.tab s'.tab k) Benign := by
  simp only [iget, bind_read, id]
  cases hf : s.itableFind inum with
  | some k =>
    have hk := find?_some hf
    have hlt := mem_range.1 (mem_of_find?_eq_some hf)
    simp only [decide_eq_true_eq] at hk
    have htab : (s.setInode k fun i => { i with ref := i.ref + 1 }).tab = s.tab.get k :=
      tab_setInode_ref rfl
    refine ⟨htab, ?_, hlt⟩
    rw [htab, Tab.ref_get, tab_ref]
    omega
  | none =>
    cases he : s.itableEmpty with
    | some k =>
      have hk := find?_some he
      have hlt := mem_range.1 (mem_of_find?_eq_some he)
      simp only [decide_eq_true_eq] at hk
      have htab : (s.setInode k fun i => { i with inum, ref := 1, valid := false }).tab =
          s.tab.get k := by
        rw [tab_setInode_ref rfl, Tab.get, tab_ref, hk]
        rfl
      refine ⟨htab, ?_, hlt⟩
      rw [htab, Tab.ref_get, tab_ref]
      omega
    | none => exact (by decide : Benign (.panic .igetNoInodes))

theorem idup_tab (s : Fs) : Ensures (idup k s) (fun n s' => n = k ∧ s'.tab = s.tab.get k) Benign :=
  ⟨rfl, tab_setInode_ref rfl⟩

theorem ilock_tab (s : Fs) : Ensures (ilock sb k s)
    (fun _ s' => s'.tab = s.tab.setLock k true ∧ s.tab.lock k = false ∧ 1 ≤ s.tab.ref k)
    Benign := by
  simp only [ilock, bind_read]
  split
  · exact (by decide : Benign (.panic .ilock))
  rename_i hr
  split
  · exact (by decide : Benign .deadlock)
  rename_i hl
  have hfacts : s.tab.lock k = false ∧ 1 ≤ s.tab.ref k :=
    ⟨by simpa using hl, by simpa using hr⟩
  have hlock : (s.setInode k fun i => { i with locked := true }).tab = s.tab.setLock k true :=
    tab_setInode_lock rfl
  simp only [modifyInode, bind_modify, Run.ite_apply]
  split
  · exact ⟨hlock, hfacts⟩
  · refine (still_bread _ _).bind fun data t ht => (still_brelse _ t).bind fun _ u hu => ?_
    rw [bind_modify]
    have htab : ∀ d : Dinode, (u.setInode k fun i => { i with d, valid := true }).tab =
        s.tab.setLock k true := fun d => by
      rw [tab_setInode_ref rfl, ← hlock, ← ht.tab, ← hu.tab]
      simp only [← tab_ref, update_eq_self]
    split
    · exact (by decide : Benign (.panic .ilockNoType))
    · exact ⟨htab _, hfacts⟩

theorem iunlock_tab (hl : s.tab.lock k = true) (hr : 1 ≤ s.tab.ref k) :
    Leaves (iunlock k s) (s.tab.setLock k false) := by
  simp only [iunlock, bind_read]
  have hok : ¬ ((!(s.inode k).locked) = true ∨ (s.inode k).ref < 1) := by
    simp_all
  rw [if_neg hok]
  exact tab_setInode_lock rfl

theorem iputFree_tab (s : Fs) : Leaves (iputFree sb k s) s.tab := by
  simp only [iputFree, bind_read]
  split
  · exact (by decide : Benign .deadlock)
  rename_i hl
  have hl : s.tab.lock k = false := by simpa using hl
  rw [modifyInode, bind_modify]
  refine (still_itrunc k _).bind fun _ t ht => (still_modifyDinode k _ t).bind fun _ u hu =>
    (still_iupdate k u).bind fun _ v hv => ?_
  change (v.setInode k fun i => { i with valid := false, locked := false }).tab = s.tab
  rw [tab_setInode_lock rfl, hv.tab, hu.tab, ht.tab, tab_setInode_lock rfl, Tab.setLock_setLock,
    Tab.setLock_self hl]

theorem iput_tab (s : Fs) : Leaves (iput sb k s) (s.tab.put k) := by
  have hdec : ∀ t : Fs, t.tab = s.tab →
      (t.setInode k fun i => { i with ref := i.ref - 1 }).tab = s.tab.put k := fun t ht => by
    rw [← ht, tab_setInode_ref rfl]
    rfl
  simp only [iput, bind_read]
  split
  · exact (iputFree_tab s).bind fun _ t ht => hdec t ht
  · exact hdec s rfl

theorem iunlockput_tab (hl : s.tab.lock k = true) (hr : 1 ≤ s.tab.ref k) :
    Leaves (iunlockput sb k s) ((s.tab.setLock k false).put k) :=
  (iunlock_tab hl hr).bind fun _ t ht => ht ▸ iput_tab t

/-- What a lookup has given out: nothing, or a reference to what it returns. -/
def Lookup (t t' : Tab) : Option ℕ → Prop
  | none => t' = t
  | some n => Gives t t' n

theorem iallocLoop_tab (type : BitVec 16) (is : List ℕ) (s : Fs) :
    Ensures (iallocLoop sb type is s) (fun r s' => Lookup s.tab s'.tab r) Benign := by
  induction is generalizing s with
  | nil => exact rfl
  | cons i is ih =>
    refine (still_bread _ s).bind fun data t ht => ?_
    rw [Run.ite_apply]
    split
    · refine (still_logWrite _ _ t).bind fun _ u hu => (still_brelse _ u).bind fun _ v hv => ?_
      refine (iget_tab i v).bind fun k w hw => ?_
      exact (hv.tab.trans (hu.tab.trans ht.tab)) ▸ hw
    · refine (still_brelse _ t).bind fun _ u hu => ?_
      exact (hu.tab.trans ht.tab) ▸ ih u

theorem ialloc_tab (type : BitVec 16) (s : Fs) :
    Ensures (ialloc sb type s) (fun r s' => Lookup s.tab s'.tab r) Benign := iallocLoop_tab _ _ s

/-! ### Directories and paths -/

theorem dirlookupLoop_tab (name : List Byte) (js : List ℕ) (s : Fs) :
    Ensures (dirlookupLoop sb k name js s) (fun r s' => Lookup s.tab s'.tab (r.map Prod.fst))
      Benign := by
  induction js generalizing s with
  | nil => exact rfl
  | cons j js ih =>
    refine (still_readDirent k j s).bind fun de t ht => ?_
    cases de with
    | none => exact (by decide : Benign (.panic .dirlookupRead))
    | some de =>
      dsimp only
      split
      · refine (iget_tab de.inum t).bind fun n u hu => ?_
        exact ht.tab ▸ hu
      · exact ht.tab ▸ ih t

theorem dirlookup_tab (name : List Byte) (s : Fs) :
    Ensures (dirlookup sb k name s) (fun r s' => Lookup s.tab s'.tab (r.map Prod.fst)) Benign := by
  simp only [dirlookup, bind_read]
  split
  · exact (by decide : Benign (.panic .dirlookupNotDir))
  · exact dirlookupLoop_tab name _ s

theorem dirlink_tab (name : List Byte) (inum : ℕ) (s : Fs) :
    Leaves (dirlink sb k name inum s) s.tab := by
  refine (dirlookup_tab name s).bind fun r t ht => ?_
  cases r with
  | some r =>
    refine (iput_tab t).bind fun _ u hu => ?_
    change u.tab = s.tab
    rw [hu, Gives.eq ht, Tab.put_get]
  | none =>
    simp only [bind_read]
    refine (still_dirlinkLoop k _ _ t).bind fun off u hu => ?_
    refine (still_writei k _ _ _ u).bind fun r v hv => ?_
    exact hv.tab.trans (hu.tab.trans ht)

theorem namexLoop_tab (parent : Bool) (fuel : ℕ) (name path : List Byte) (hlt : k < ninode)
    (hr : 1 ≤ s.tab.ref k) : Ensures (namexLoop sb parent fuel k name path s)
      (fun r s' => Lookup (s.tab.put k) s'.tab (r.map Prod.fst)) Benign := by
  induction fuel generalizing s k name path with
  | zero => exact ⟨Tab.get_put.symm, hr, hlt⟩
  | succ fuel ih =>
    rw [namexLoop]
    cases skipelem path with
    | none =>
      dsimp only
      split
      · exact (iput_tab s).bind fun _ t ht => ht
      · exact ⟨Tab.get_put.symm, hr, hlt⟩
    | some e =>
      obtain ⟨name, path⟩ := e
      dsimp only
      refine (ilock_tab s).bind fun _ t ⟨ht, hfree, _⟩ => ?_
      have hback : t.tab.setLock k false = s.tab := by
        rw [ht, Tab.setLock_setLock, Tab.setLock_self hfree]
      have hlk : t.tab.lock k = true := by rw [ht, Tab.lock_setLock]
      have hrt : 1 ≤ t.tab.ref k := by rwa [ht]
      simp only [bind_read]
      split
      · refine (iunlockput_tab hlk hrt).bind fun _ u hu => ?_
        exact hu.trans (by rw [hback])
      split
      · refine (iunlock_tab hlk hrt).bind fun _ u hu => ?_
        rw [hback] at hu
        exact ⟨by rw [hu, Tab.get_put], by rwa [hu], hlt⟩
      refine (dirlookup_tab name t).bind fun r u hu => ?_
      cases r with
      | none =>
        have hu : u.tab = t.tab := hu
        refine (iunlockput_tab (hu ▸ hlk) (hu ▸ hrt)).bind fun _ v hv => ?_
        exact hv.trans (by rw [hu, hback])
      | some r =>
        have hlku : u.tab.lock k = true := by rw [Gives.eq hu, Tab.lock_get, hlk]
        have hru : 1 ≤ u.tab.ref k := by
          rw [Gives.eq hu]
          exact hrt.trans Tab.ref_le_get
        refine (iunlockput_tab hlku hru).bind fun _ v hv => ?_
        rw [Gives.eq hu, Tab.setLock_get, hback] at hv
        have hv1 : 1 ≤ v.tab.ref r.1 := by
          rw [hv]
          rcases eq_or_ne r.1 k with h | h
          · rwa [h, Tab.put_get]
          · rw [Tab.ref_put_of_ne h]
            have := Gives.pos hu
            rwa [Gives.eq hu, Tab.ref_get, ht, Tab.ref_setLock, ← Tab.ref_get] at this
        have hput : v.tab.put r.1 = s.tab.put k := by
          rw [hv, Tab.put_comm, Tab.put_get]
        exact hput ▸ ih name path hu.lt hv1

/-- **A lookup gives out a reference to the inode it returns, and no other.** -/
theorem namex_tab (path : List Byte) (parent : Bool) (hc : s.tab.Cwd p c) :
    Ensures (namex sb p path parent s) (fun r s' => Lookup s.tab s'.tab (r.map Prod.fst))
      Benign := by
  obtain ⟨hcwd, hlt, hr⟩ := hc
  have hcwd : (s.proc p).cwd = some c := hcwd
  simp only [namex, bind_read, id]
  have hloop : ∀ k t, Gives s.tab t.tab k → Ensures (namexLoop sb parent (path.length + 1) k []
      path t) (fun r s' => Lookup s.tab s'.tab (r.map Prod.fst)) Benign := fun k t ht => by
    refine (namexLoop_tab parent (path.length + 1) [] path ht.lt ht.pos).imp fun r s' hs' => ?_
    rwa [ht.eq, Tab.put_get] at hs'
  split
  · exact (iget_tab rootino s).bind hloop
  · rw [hcwd, Option.getD_some]
    refine (idup_tab s).bind fun k t ⟨hk, ht⟩ => hloop k t ?_
    subst hk
    exact ⟨ht, by rw [ht, Tab.ref_get]; omega, hlt⟩

theorem namei_tab (path : List Byte) (hc : s.tab.Cwd p c) :
    Ensures (namei sb p path s) (fun r s' => Lookup s.tab s'.tab r) Benign :=
  (namex_tab path false hc).bind fun _ _ h => h

/-! ### Creation -/

/-- The reference to `n` that a function has given out together with the lock. -/
structure GivesLocked (t t' : Tab) (n : ℕ) : Prop where
  eq : t' = (t.get n).setLock n true
  free : t.lock n = false
  pos : 1 ≤ t'.ref n
  lt : n < ninode

theorem Gives.ilock (h : Gives t s.tab n) :
    Ensures (ilock sb n s) (fun _ s' => GivesLocked t s'.tab n) Benign :=
  (ilock_tab s).imp fun _ _ hl =>
    ⟨by rw [hl.1, h.eq], by simpa [h.eq] using hl.2.1, by rw [hl.1]; exact hl.2.2, h.lt⟩

theorem GivesLocked.lock (h : GivesLocked t t' n) : t'.lock n = true := by
  rw [h.eq, Tab.lock_setLock]

theorem GivesLocked.unlock (h : GivesLocked t t' n) : t'.setLock n false = t.get n := by
  rw [h.eq, Tab.setLock_setLock, Tab.setLock_self (by simpa using h.free)]

/-- Unlock and put give back what was given out. -/
theorem GivesLocked.iunlockput (h : GivesLocked t s.tab n) : Leaves (Fs.iunlockput sb n s) t :=
  (iunlockput_tab h.lock h.pos).imp fun _ _ hs' => by rw [hs', h.unlock, Tab.put_get]

/-- Unlock and put when another reference has been given out since. -/
theorem GivesLocked.iunlockput_of_gives (h : GivesLocked t u.tab m) (hn : Gives u.tab s.tab n) :
    Ensures (Fs.iunlockput sb m s) (fun _ s' => Gives t s'.tab n) Benign := by
  have hlock : s.tab.lock m = true := by rw [hn.eq, Tab.lock_get, h.lock]
  have hpos : 1 ≤ s.tab.ref m := by
    rw [hn.eq]
    exact h.pos.trans Tab.ref_le_get
  refine (iunlockput_tab hlock hpos).imp fun _ s' hs' => ?_
  have heq : s'.tab = t.get n := by
    rw [hs', hn.eq, Tab.setLock_get, h.unlock, Tab.get_comm, Tab.put_get]
  refine ⟨heq, ?_, hn.lt⟩
  rw [heq]
  rcases eq_or_ne n m with rfl | hne
  · have := h.pos
    rwa [h.eq] at this
  · have := hn.pos
    rwa [hn.eq, h.eq, ← Tab.setLock_get, Tab.ref_setLock, Tab.get_comm,
      Tab.ref_get_of_ne hne] at this

/-- Two locked inodes are different, and each can be released first. -/
theorem GivesLocked.swap {t₁ t₂ : Tab} (hm : GivesLocked t t₁ m)
    (hn : GivesLocked t₁ t₂ n) : ∃ t₃, GivesLocked t t₃ n ∧ GivesLocked t₃ t₂ m := by
  have hne : n ≠ m := by
    rintro rfl
    simpa [hm.lock] using hn.free
  have hfree : t.lock n = false := by
    have := hn.free
    rwa [hm.eq, Tab.lock_setLock_of_ne hne] at this
  refine ⟨(t.get n).setLock n true, ⟨rfl, hfree, ?_, hn.lt⟩, ?_, ?_, ?_, hm.lt⟩
  · have := hn.pos
    simp only [hn.eq, hm.eq, Tab.ref_setLock, Tab.ref_get, Tab.ref_get_of_ne hne] at this ⊢
    exact this
  · rw [hn.eq, hm.eq, ← Tab.setLock_get, Tab.get_comm, Tab.setLock_comm hne.symm]
    rfl
  · rw [Tab.lock_setLock_of_ne hne.symm]
    exact hm.free
  · have := hm.pos
    rw [hn.eq, Tab.ref_setLock, Tab.ref_get_of_ne hne.symm]
    exact this

theorem createFail_tab {t₁ : Fs} (hd : GivesLocked t t₁.tab dp) (hi : GivesLocked t₁.tab s.tab ip) :
    Ensures (createFail sb dp ip s) (fun r s' => r = none ∧ s'.tab = t) Benign := by
  refine (still_modifyDinode ip _ s).bind fun _ u hu => (still_iupdate ip u).bind fun _ v hv => ?_
  have hi : GivesLocked t₁.tab v.tab ip := by rwa [hv.tab, hu.tab]
  refine hi.iunlockput.bind fun _ w hw => ?_
  exact (GivesLocked.iunlockput (hw ▸ hd)).bind fun _ x hx => ⟨rfl, hx⟩

theorem createDots_tab (type : BitVec 16) (s : Fs) : Leaves (createDots sb dp ip type s) s.tab := by
  rw [createDots, Run.ite_apply]
  split
  · simp only [bind_read]
    refine (dirlink_tab dot _ s).bind fun ok t ht => ?_
    split
    · simp only [bind_read]
      exact (dirlink_tab dotdot _ t).imp fun _ _ h => h.trans ht
    · exact ht
  · exact rfl

theorem still_addLink (k : ℕ) : Stays (addLink sb k) :=
  .bind (still_modifyDinode _ _) fun _ => still_iupdate _

theorem still_dropLink (k : ℕ) : Stays (dropLink sb k) :=
  .bind (still_modifyDinode _ _) fun _ => still_iupdate _

theorem still_createParent (dp : ℕ) (type : BitVec 16) : Stays (createParent sb dp type) :=
  .ite (fun _ => still_addLink dp) fun _ => .pure _

/-- What `create` has given out: nothing, or a reference to the inode it returns, locked. -/
def Created (t t' : Tab) : Option ℕ → Prop
  | none => t' = t
  | some n => GivesLocked t t' n

theorem createNew_tab (name : List Byte)
    (type major minor : BitVec 16) (hd : GivesLocked t u.tab dp) (hi : Gives u.tab s.tab ip) :
    Ensures (createNew sb dp ip name type major minor s) (fun r s' => Created t s'.tab r)
      Benign := by
  refine hi.ilock.bind fun _ x hi => ?_
  have hfail : ∀ y : Fs, y.tab = x.tab → Ensures (createFail sb dp ip y)
      (fun r s' => Created t s'.tab r) Benign := fun y hy =>
    (createFail_tab hd (hy ▸ hi)).imp fun r s' ⟨hr, hs'⟩ => hr ▸ hs'
  refine (still_modifyDinode ip _ x).bind fun _ y hy => (still_iupdate ip y).bind fun _ z hz => ?_
  refine (createDots_tab type z).bind fun ok v hv => ?_
  have hv : v.tab = x.tab := hv.trans (hz.tab.trans hy.tab)
  rw [Run.ite_apply]
  split
  · exact hfail v hv
  simp only [bind_read]
  refine (dirlink_tab name _ v).bind fun ok w hw => ?_
  have hw := hw.trans hv
  rw [Run.ite_apply]
  split
  · exact hfail w hw
  refine (still_createParent dp type w).bind fun _ w' hw' => ?_
  -- the new inode keeps its lock, the parent gives up its own
  obtain ⟨t₃, hi', hd'⟩ := hd.swap hi
  rw [← hw, ← hw'.tab] at hd'
  refine hd'.iunlockput.bind fun _ y hy => ?_
  change GivesLocked t y.tab ip
  rwa [hy]

/-- **Creation gives out a reference to the inode it returns, and no other.** -/
theorem create_tab (path : List Byte) (type major minor : BitVec 16)
    (hc : s.tab.Cwd p c) : Ensures (create sb p path type major minor s)
      (fun r s' => Created s.tab s'.tab r) Benign := by
  refine (namex_tab path true hc).bind fun r t ht => ?_
  cases r with
  | none => exact ht
  | some r =>
    obtain ⟨dp, name⟩ := r
    have ht : Gives s.tab t.tab dp := ht
    refine ht.ilock.bind fun _ u hd => ?_
    refine (dirlookup_tab name u).bind fun r v hv => ?_
    cases r with
    | some r =>
      obtain ⟨ip, off⟩ := r
      have hv : Gives u.tab v.tab ip := hv
      refine (hd.iunlockput_of_gives hv).bind fun _ w hw => ?_
      refine hw.ilock.bind fun _ x hi => ?_
      simp only [bind_read]
      split
      · exact hi
      · exact hi.iunlockput.bind fun _ y hy => hy
    | none =>
      have hv : v.tab = u.tab := hv
      refine (ialloc_tab type v).bind fun r w hw => ?_
      cases r with
      | none =>
        have hw : w.tab = v.tab := hw
        rw [← hv, ← hw] at hd
        exact hd.iunlockput.bind fun _ x hx => hx
      | some ip =>
        rw [← hv] at hd
        exact createNew_tab name type major minor hd hw

end Fs

end Xv6Swap
