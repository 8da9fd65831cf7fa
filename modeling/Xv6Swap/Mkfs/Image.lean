import Xv6Swap.Mkfs.Append
import Xv6Swap.Lib.Along

/-!
# The image

The whole of `mkfs`: which files the image holds (`Mk.files`), and that it holds them.

* `main_handed` : the inode numbers handed out, for any arguments;
* `ialloc_good`, `addFile_spec` : one argument;
* `Mk.Image`, `main_spec` : the image of the arguments, as long as the inodes lie in the inode
  blocks; `mkfs` fails only if an argument is not fine, or a file or the image is too large.
-/

namespace Xv6Swap.Mk

open Function List Nat Dirent Dinode

variable {s s' : Mk} {type : ℕ → BitVec 16} {c : ℕ → List Byte} {args pre : List MkArg} {i n : ℕ}

/-! ### The counter of inodes -/

/-- No inode is handed out. -/
def Quiet (s s' : Mk) : Prop := s'.freeinode = s.freeinode ∧ s'.inums = s.inums

instance : Std.Refl Quiet := ⟨fun _ => ⟨rfl, rfl⟩⟩

instance : IsTrans Mk Quiet := ⟨fun _ _ _ h h' => ⟨h'.1.trans h.1, h'.2.trans h.2⟩⟩

open Run in
theorem quiet_rsect (sec : ℕ) : Along Quiet (fun _ => True) (rsect sec) :=
  .ite (fun _ => .stop trivial) fun _ => .read _

open Run in
theorem quiet_wsect (sec : ℕ) (buf : Mem) : Along Quiet (fun _ => True) (wsect sec buf) :=
  .modify fun _ => ⟨rfl, rfl⟩

open Run in
theorem quiet_winode (inum : ℕ) (d : Dinode) : Along Quiet (fun _ => True) (winode inum d) :=
  .bind (quiet_rsect _) fun _ => quiet_wsect _ _

open Run in
theorem quiet_rinode (inum : ℕ) : Along Quiet (fun _ => True) (rinode inum) :=
  .bind (quiet_rsect _) fun _ => .pure _

open Run in
theorem quiet_newBlock : Along Quiet (fun _ => True) newBlock :=
  .bind (.read _) fun _ => .bind (.modify fun _ => ⟨rfl, rfl⟩) fun _ => .pure _

open Run in
theorem quiet_addrBlock (d : Dinode) (j : ℕ) : Along Quiet (fun _ => True) (addrBlock d j) :=
  .ite (fun _ => .bind quiet_newBlock fun _ => .pure _) fun _ => .pure _

open Run in
theorem quiet_entryBlock (ind j : ℕ) : Along Quiet (fun _ => True) (entryBlock ind j) :=
  .bind (quiet_rsect _) fun _ => .ite
    (fun _ => .bind quiet_newBlock fun _ => .bind (quiet_wsect _ _) fun _ => .pure _)
    fun _ => .pure _

open Run in
theorem quiet_fileBlock (d : Dinode) (fbn : ℕ) : Along Quiet (fun _ => True) (fileBlock d fbn) :=
  .ite (fun _ => .bind (quiet_addrBlock _ _) fun _ => .pure _) fun _ =>
    .bind (quiet_addrBlock _ _) fun _ => .bind (quiet_entryBlock _ _) fun _ => .pure _

open Run in
theorem quiet_iappendLoop (fuel : ℕ) : ∀ (d : Dinode) (off : ℕ) (p : List Byte),
    Along Quiet (fun _ => True) (iappendLoop fuel d off p) := by
  induction fuel with
  | zero => exact fun _ _ _ => .pure _
  | succ fuel ih =>
    intro d off p
    rw [iappendLoop]
    exact .ite (fun _ => .pure _) fun _ => .ite (fun _ => .stop trivial) fun _ =>
      .bind (quiet_fileBlock _ _) fun _ => .bind (quiet_rsect _) fun _ =>
        .bind (quiet_wsect _ _) fun _ => ih _ _ _

open Run in
theorem quiet_iappend (inum : ℕ) (p : List Byte) : Along Quiet (fun _ => True) (iappend inum p) :=
  .bind (quiet_rinode _) fun _ => .bind (quiet_iappendLoop _ _ _ _) fun _ => quiet_winode _ _

/-- The inode numbers handed out are those below `freeinode`. -/
def Handed (n : ℕ) (s : Mk) : Prop := s.freeinode = n + 1 ∧ s.inums = range' 1 n

theorem Handed.quiet {α : Type} {m : MkProg α} (h : Handed n s)
    (hm : Run.Along Quiet (fun _ => True) m) : Ensures (m s) (fun _ => Handed n) fun _ => True :=
  (hm s).imp fun _ _ hq => ⟨hq.1.trans h.1, hq.2.trans h.2⟩

theorem ialloc_handed (h : Handed n s) (t : BitVec 16) :
    Ensures (ialloc t s) (fun inum s' => inum = n + 1 ∧ Handed (n + 1) s') fun _ => True := by
  rw [ialloc, Run.bind_read, Run.bind_modify]
  have hnew : Handed (n + 1) { s with
      freeinode := s.freeinode + 1, inums := s.inums ++ [s.freeinode] } := by
    refine ⟨congrArg (· + 1) h.1, ?_⟩
    dsimp only
    rw [h.1, h.2, range'_concat (Nat.add_comm ..)]
  exact (hnew.quiet (quiet_winode _ _)).bind fun _ _ hs => ⟨h.1, hs⟩

theorem addFile_handed (h : Handed n s) (a : MkArg) :
    Ensures (addFile a s) (fun _ => Handed (n + 1)) fun _ => True := by
  unfold addFile
  split
  · trivial
  · split
    · trivial
    · split
      · trivial
      · refine (ialloc_handed h _).bind fun inum s₁ h₁ => ?_
        refine (h₁.2.quiet (quiet_iappend _ _)).bind fun _ s₂ h₂ => ?_
        exact h₂.quiet (.each fun _ _ => quiet_iappend _ _)

theorem each_addFile_handed (h : Handed n s) (args : List MkArg) :
    Ensures (Run.each addFile args s) (fun _ => Handed (n + args.length)) fun _ => True := by
  induction args generalizing s n with
  | nil =>
    rw [Run.each_nil]
    exact h
  | cons a args ih =>
    rw [Run.each_cons]
    refine (addFile_handed h a).bind fun _ s₁ h₁ => (ih h₁).imp fun _ _ h₂ => ?_
    rwa [length_cons, add_comm args.length, ← add_assoc]

/-- **The inode numbers** are 1, 2 and so on, one for the root and one for each file. -/
theorem main_handed (args : List MkArg) :
    Ensures (main args start) (fun _ => Handed (args.length + 1)) fun _ => True := by
  have h0 : Handed 0 start := ⟨rfl, rfl⟩
  rw [main]
  refine (h0.quiet (quiet_wsect _ _)).bind fun _ s₁ h₁ =>
    (ialloc_handed h₁ _).bind fun r s₂ h₂ => ?_
  split
  · trivial
  · refine (h₂.2.quiet (quiet_iappend _ _)).bind fun _ s₃ h₃ =>
      (h₃.quiet (quiet_iappend _ _)).bind fun _ s₄ h₄ =>
      (each_addFile_handed h₄ args).bind fun _ s₅ h₅ => ?_
    rw [Nat.add_comm 1] at h₅
    refine (h₅.quiet (.bind (quiet_rinode _) fun _ => quiet_winode _ _)).bind fun _ s₆ h₆ => ?_
    exact h₆.quiet (.bind (.read _) fun _ => .ite (fun _ => .stop trivial) fun _ => quiet_wsect _ _)

/-! ### The files -/

/-- The contents of the file of an argument. -/
def content (a : MkArg) : List Byte := (a.chunks.getD []).flatten

/-- The entries of the root directory. -/
def dirents (args : List MkArg) : List Dirent :=
  ⟨rootino, [46]⟩ :: ⟨rootino, [46, 46]⟩ :: args.mapIdx fun k a => ⟨k + 2, shortName a⟩

/-- The contents of the root directory. -/
def rootBytes (args : List MkArg) : List Byte := (dirents args).flatMap bytes

/-- The files of the image. -/
def files (args : List MkArg) (i : ℕ) : List Byte :=
  if i = 0 then [] else if i = rootino then rootBytes args
  else ((args[i - 2]?).map content).getD []

/-- The types of the inodes. -/
def types (args : List MkArg) (i : ℕ) : BitVec 16 :=
  if i = 0 then 0 else if i = rootino then tDir else if i - 2 < args.length then tFile else 0

theorem dirents_concat (pre : List MkArg) (a : MkArg) :
    dirents (pre ++ [a]) = dirents pre ++ [⟨pre.length + 2, shortName a⟩] := by
  simp only [dirents, mapIdx_append, mapIdx_cons, mapIdx_nil, cons_append, zero_add]

theorem rootBytes_concat (pre : List MkArg) (a : MkArg) : rootBytes (pre ++ [a]) =
    rootBytes pre ++ bytes ⟨pre.length + 2, shortName a⟩ := by
  rw [rootBytes, dirents_concat, flatMap_append, flatMap_singleton]
  rfl

theorem length_rootBytes (args : List MkArg) :
    (rootBytes args).length = direntSize * (args.length + 2) := by
  have : ∀ l : List Dirent, (l.flatMap bytes).length = direntSize * l.length := by
    intro l
    induction l with
    | nil => rfl
    | cons de l ih =>
      rw [flatMap_cons, length_append, ih, length_bytes, length_cons, mul_succ, add_comm]
  rw [rootBytes, this, dirents, length_cons, length_cons, length_mapIdx]

theorem files_root (args : List MkArg) : files args rootino = rootBytes args := rfl

theorem files_concat (pre : List MkArg) (a : MkArg) : files (pre ++ [a]) =
    update (update (files pre) rootino
      (rootBytes pre ++ bytes ⟨pre.length + 2, shortName a⟩)) (pre.length + 2) (content a) := by
  funext i
  by_cases hi : i = pre.length + 2
  · subst hi
    rw [update_self, files, if_neg (by omega), if_neg (by simp only [rootino]; omega),
      Nat.add_sub_cancel, List.getElem?_concat_length]
    rfl
  rw [update_of_ne hi]
  by_cases hr : i = rootino
  · subst hr
    rw [update_self, files_root, rootBytes_concat]
  · rw [update_of_ne hr, files, files, if_neg hr, if_neg hr]
    split
    · rfl
    · rcases lt_or_ge (i - 2) pre.length with h | h
      · rw [getElem?_append_left h]
      · have hlen : (pre ++ [a]).length ≤ i - 2 := by
          rw [length_append, length_singleton]
          simp only [rootino] at *
          omega
        rw [getElem?_eq_none hlen, getElem?_eq_none h]

theorem types_concat (pre : List MkArg) (a : MkArg) :
    types (pre ++ [a]) = update (types pre) (pre.length + 2) tFile := by
  funext i
  by_cases hi : i = pre.length + 2
  · subst hi
    rw [update_self, types, if_neg (by omega), if_neg (by simp only [rootino]; omega),
      if_pos (by simp)]
  · rw [update_of_ne hi, types, types]
    have : i ≠ 0 → i ≠ rootino → (i - 2 < (pre ++ [a]).length ↔ i - 2 < pre.length) := by
      intro h0 h1
      simp only [length_append, length_singleton, rootino] at *
      omega
    split
    · rfl
    · split
      · rfl
      · rename_i h0 h1
        rw [if_congr (this h0 h1) rfl rfl]

theorem files_new (args : List MkArg) : files args (args.length + 2) = [] := by
  rw [files, if_neg (by omega), if_neg (by simp only [rootino]; omega), Nat.add_sub_cancel,
    getElem?_eq_none (le_refl _)]
  rfl

theorem total_mono {c' : ℕ → List Byte} (h : ∀ j, (c j).length ≤ (c' j).length) :
    total c ≤ total c' :=
  Nat.add_le_add_left (Finset.sum_le_sum fun j _ => need_mono (h j)) _

/-! ### One file -/

/-- The state after `ialloc`. -/
def withInode (s : Mk) (t : BitVec 16) : Mk :=
  { s with
    disk := setDinode sb s.disk s.freeinode { Dinode.zero with type := t, nlink := 1 }
    freeinode := s.freeinode + 1
    inums := s.inums ++ [s.freeinode] }

theorem ialloc_ok (hn : s.freeinode < inodeSlots) (t : BitVec 16) :
    ialloc t s = .ok (s.freeinode, s.withInode t) := by
  rw [ialloc, Run.bind_read, Run.bind_modify, Run.bind_ok (winode_ok hn _)]
  rfl

theorem ialloc_good (h : Good s type c) (hn : s.freeinode < inodeSlots) (hc : c s.freeinode = [])
    (t : BitVec 16) : Good (s.withInode t) (update type s.freeinode t) c := by
  have hz : ∀ f ≤ ndirect, (dinodeAt sb s.disk s.freeinode).addr f = 0 := by
    intro f hf
    have hused := h.tree.base.owned.used _ hn f (lt_of_le_of_lt hf (by decide))
    rw [hc, Dinode.ref_direct hf] at hused
    by_contra h0
    exact not_lt_zero _ (hused.1 h0)
  have hzero : ∀ f ≤ ndirect, ({ Dinode.zero with type := t, nlink := 1 } : Dinode).addr f = 0 := by
    intro f hf
    rw [Dinode.addr, dif_pos (lt_succ_of_le hf)]
    rfl
  refine ⟨h.tree.store (fun b hb => ?_) (fun j hj f hf => ?_) rfl rfl, fun j hj => ?_,
    fun j hj => ?_⟩
  · have := iblock_lt hn
    have hmeta : sb.bmapstart < sb.nmeta := by decide
    exact setDinode_of_ne _ (by omega)
  · dsimp only [withInode]
    by_cases hj : j = s.freeinode
    · rw [hj, dinodeAt_setDinode_self, hz f hf, hzero f hf]
    · rw [dinodeAt_setDinode_of_ne _ hj]
  · dsimp only [withInode]
    by_cases hji : j = s.freeinode
    · rw [hji, dinodeAt_setDinode_self, hc]
      rfl
    · rw [dinodeAt_setDinode_of_ne _ hji]
      exact h.size j hj
  · dsimp only [withInode]
    by_cases hji : j = s.freeinode
    · rw [hji, dinodeAt_setDinode_self, update_self]
    · rw [dinodeAt_setDinode_of_ne _ hji, update_of_ne hji]
      exact h.type j hj

/-- The chunks of a file are appended one after the other. -/
theorem each_iappend_spec (h : Good s type c) (hi : i < inodeSlots) (chunks : List (List Byte)) :
    Ensures (Run.each (iappend i) chunks s)
      (fun _ s' => Good s' type (update c i (c i ++ chunks.flatten)) ∧ s'.freeinode = s.freeinode ∧
        ∀ b < sb.nmeta, (∀ j < inodeSlots, b ≠ sb.iblock j) → s'.disk b = s.disk b)
      (fun _ => maxfile * bsize < (c i).length + chunks.flatten.length ∨
        fssize < total (update c i (c i ++ chunks.flatten)) + 2) := by
  induction chunks generalizing s c with
  | nil =>
    rw [Run.each_nil]
    refine ⟨?_, rfl, fun _ _ _ => rfl⟩
    rwa [flatten_nil, append_nil, update_eq_self]
  | cons p chunks ih =>
    rw [Run.each_cons, flatten_cons]
    have hmono : total (update c i (c i ++ p)) ≤
        total (update c i (c i ++ (p ++ chunks.flatten))) := by
      refine total_mono fun j => ?_
      by_cases hj : j = i
      · subst hj
        simp only [update_self, length_append]
        omega
      · rw [update_of_ne hj, update_of_ne hj]
    have happ := Ensures.mono (iappend_spec h hi p) (fun _ _ hs => hs)
      fun _ (he : maxfile * bsize < (c i).length + p.length ∨ _) =>
        (by
          rw [length_append]
          omega : maxfile * bsize < (c i).length + (p ++ chunks.flatten).length ∨
            fssize < total (update c i (c i ++ (p ++ chunks.flatten))) + 2)
    refine happ.bind fun _ s₁ ⟨h₁, hf, _, hb⟩ => ?_
    have hnext := ih h₁
    rw [update_self, update_idem, append_assoc, length_append, add_assoc, ← length_append] at hnext
    exact hnext.imp fun _ s₂ ⟨h₂, hf₂, hb₂⟩ => ⟨h₂, hf₂.trans hf, fun b hlt hne =>
      (hb₂ b hlt hne).trans (hb b hlt hne)⟩

/-- `mkfs` has added the files of these arguments. -/
structure Built (args : List MkArg) (s : Mk) : Prop where
  good : Good s (types args) (files args)
  freeinode : s.freeinode = args.length + 2
  super : s.disk 1 = Mem.storeWords (fun _ => 0) 4 0 superWords

/-- The argument names a file that can be opened, and its name fits. -/
def Fine (a : MkArg) : Prop :=
  Fs.slash ∉ stripUser a.name ∧ a.chunks ≠ none ∧ (shortName a).length ≤ dirsiz

/-- The files and the image are not too large. -/
def Fits (args : List MkArg) : Prop :=
  (∀ j < inodeSlots, (files args j).length ≤ maxfile * bsize) ∧ total (files args) + 2 ≤ fssize

theorem length_files_concat (pre : List MkArg) (a : MkArg) (j : ℕ) :
    (files pre j).length ≤ (files (pre ++ [a]) j).length := by
  rw [files_concat]
  by_cases hj : j = pre.length + 2
  · rw [hj, files_new]
    exact zero_le _
  rw [update_of_ne hj]
  by_cases hr : j = rootino
  · rw [hr, update_self, files_root, length_append]
    exact le_add_right _ _
  · rw [update_of_ne hr]

theorem length_files_append (pre args : List MkArg) (j : ℕ) :
    (files pre j).length ≤ (files (pre ++ args) j).length := by
  induction args generalizing pre with
  | nil => rw [append_nil]
  | cons a args ih =>
    have := ih (pre ++ [a])
    rw [append_assoc, singleton_append] at this
    exact (length_files_concat pre a j).trans this

theorem Fits.of_append {args : List MkArg} (h : Fits (pre ++ args)) : Fits pre := by
  refine ⟨fun j hj => (length_files_append pre args j).trans (h.1 j hj), ?_⟩
  have := total_mono (length_files_append pre args)
  have := h.2
  omega

theorem iblock_ne_one (j : ℕ) : 1 ≠ sb.iblock j := by
  have h : sb.inodestart ≤ sb.iblock j := le_add_left _ _
  exact Nat.ne_of_lt (Nat.lt_of_lt_of_le (by decide) h)

theorem withInode_disk_one (s : Mk) (t : BitVec 16) : (s.withInode t).disk 1 = s.disk 1 := by
  dsimp only [withInode]
  exact setDinode_of_ne _ (iblock_ne_one _)

theorem addFile_spec {a : MkArg} (h : Built pre s) (hn : pre.length + 2 < inodeSlots) :
    Ensures (addFile a s) (fun _ s' => Built (pre ++ [a]) s' ∧ Fine a)
      (fun _ => ¬ Fine a ∨ ¬ Fits (pre ++ [a])) := by
  obtain ⟨hgood, hfree, hsuper⟩ := h
  unfold addFile
  split
  · rename_i hs
    exact .inl fun h => h.1 hs
  rename_i hslash
  split
  · rename_i hc
    exact .inl fun h => h.2.1 hc
  rename_i chunks hc
  split
  · rename_i hl
    exact .inl fun h => Nat.not_lt.2 h.2.2 hl
  rename_i hlen
  have hfine : Fine a := ⟨hslash, by rw [hc]; exact nofun, Nat.le_of_not_lt hlen⟩
  have hcontent : content a = chunks.flatten := by
    rw [content, hc]
    rfl
  have hroot : pre.length + 2 ≠ rootino := by
    simp only [rootino]
    omega
  have hfi : s.freeinode < inodeSlots := by omega
  have h₁ := ialloc_good hgood hfi (by rw [hfree]; exact files_new pre) tFile
  have hmod : s.freeinode % 2 ^ 16 = pre.length + 2 := by
    rw [hfree]
    simp only [inodeSlots] at hn
    omega
  rw [Run.bind_ok (ialloc_ok hfi tFile), hmod]
  rw [hfree, ← types_concat pre a] at h₁
  have hlen1 := files_concat pre a
  have hrootlen : (files (pre ++ [a]) rootino).length = (files pre rootino).length +
      (Dirent.bytes ⟨pre.length + 2, shortName a⟩).length := by
    rw [hlen1, update_of_ne hroot.symm, update_self, List.length_append, files_root]
  have happ := Ensures.mono (iappend_spec h₁ (by decide : rootino < inodeSlots)
    (Dirent.bytes ⟨pre.length + 2, shortName a⟩)) (fun _ _ hs => hs)
    fun _ he => (.inr ?_ : ¬ Fine a ∨ ¬ Fits (pre ++ [a]))
  · refine happ.bind fun _ s₂ ⟨h₂, hf₂, _, hb₂⟩ => ?_
    have hempty : update (files pre) rootino (files pre rootino ++
        Dirent.bytes ⟨pre.length + 2, shortName a⟩) (pre.length + 2) = [] := by
      rw [update_of_ne hroot, files_new]
    have heach := each_iappend_spec h₂ (i := pre.length + 2) hn chunks
    rw [hempty, List.nil_append, ← hcontent, files_root, ← hlen1] at heach
    rw [hfree]
    refine heach.mono (fun _ s₃ ⟨h₃, hf₃, hb₃⟩ => ⟨⟨h₃, ?_, ?_⟩, hfine⟩) fun _ he => .inr ?_
    · rw [hf₃, hf₂, List.length_append, List.length_singleton]
      change s.freeinode + 1 = _
      omega
    · rw [hb₃ 1 (by decide) fun j _ => iblock_ne_one j,
        hb₂ 1 (by decide) fun j _ => iblock_ne_one j, ← hsuper]
      exact withInode_disk_one s tFile
    · intro hfit
      have h1 := hfit.1 _ hn
      have h2 := hfit.2
      rw [hlen1, update_self] at h1
      rcases he with he | he
      · rw [List.length_nil, Nat.zero_add] at he
        exact Nat.not_lt.2 h1 he
      · omega
  · intro hfit
    have h1 := hfit.1 rootino (by decide)
    have h2 := hfit.2
    rcases he with he | he
    · rw [hrootlen] at h1
      exact Nat.not_lt.2 h1 he
    · have hmono : total (update (files pre) rootino
          (files pre rootino ++ Dirent.bytes ⟨pre.length + 2, shortName a⟩)) ≤
          total (files (pre ++ [a])) := by
        refine total_mono fun j => ?_
        by_cases hj : j = rootino
        · subst hj
          rw [update_self, hrootlen, List.length_append]
        · rw [update_of_ne hj]
          exact length_files_concat pre a j
      omega

/-- The loop of `main` over the arguments. -/
theorem each_addFile_spec (h : Built pre s) (args : List MkArg)
    (hn : pre.length + args.length + 1 < inodeSlots) : Ensures (Run.each addFile args s)
      (fun _ s' => Built (pre ++ args) s' ∧ ∀ a ∈ args, Fine a)
      (fun _ => ¬ (∀ a ∈ args, Fine a) ∨ ¬ Fits (pre ++ args)) := by
  induction args generalizing pre s with
  | nil =>
    rw [Run.each_nil, append_nil]
    exact ⟨h, nofun⟩
  | cons a args ih =>
    rw [length_cons] at hn
    rw [Run.each_cons]
    have hadd := Ensures.mono (addFile_spec (a := a) h (by omega)) (fun _ _ hs => hs)
      fun _ he => (?_ : ¬ (∀ b ∈ a :: args, Fine b) ∨ ¬ Fits (pre ++ a :: args))
    · refine hadd.bind fun _ s₁ ⟨h₁, hfine⟩ => ?_
      have hnext := ih h₁ (by rw [length_append, length_singleton]; omega)
      rw [append_assoc, singleton_append] at hnext
      refine hnext.mono (fun _ s₂ ⟨h₂, hall⟩ => ⟨h₂, ?_⟩) fun _ he => he.imp_left fun he hall => ?_
      · exact forall_mem_cons.2 ⟨hfine, hall⟩
      · exact he fun b hb => hall b (mem_cons_of_mem _ hb)
    · refine he.imp (fun he hall => he (hall a mem_cons_self)) fun he hfit => he ?_
      rw [← singleton_append, ← append_assoc] at hfit
      exact hfit.of_append

/-! ### The whole program -/

theorem dinodeAt_zero {disk : ℕ → Mem} {j : ℕ} (h : disk (sb.iblock j) = fun _ => 0) :
    dinodeAt sb disk j = Dinode.zero := by
  have hz : ∀ n a, Mem.loadLE (fun _ => 0) n a = 0 := by
    intro n
    induction n with
    | zero => exact fun _ => rfl
    | succ n ih =>
      intro a
      rw [Mem.loadLE, ih]
      rfl
  rw [dinodeAt, h, load]
  simp only [hz]
  rfl

/-- The image with nothing but the superblock. -/
def empty : Mk :=
  { start with disk := update start.disk 1 (Mem.storeWords (fun _ => 0) 4 0 superWords) }

theorem empty_good : Good empty (fun _ => 0) fun _ => [] := by
  have hdisk : ∀ b ≠ 1, empty.disk b = fun _ => 0 := by
    intro b hb
    unfold empty
    exact update_of_ne hb ..
  have hzero : ∀ j, dinodeAt sb empty.disk j = Dinode.zero := fun j =>
    dinodeAt_zero (hdisk _ (iblock_ne_one j).symm)
  have haddr : ∀ f, zero.addr f = 0 := by
    intro f
    unfold addr
    split <;> rfl
  have href : ∀ j f, (dinodeAt sb empty.disk j).ref empty.disk f = 0 := by
    intro j f
    rw [hzero]
    by_cases hf : f ≤ ndirect
    · rw [ref_direct hf, haddr]
    · exact ref_none (Nat.lt_of_not_le hf) (haddr _)
  refine ⟨⟨⟨⟨fun j _ f _ => ?_, fun j _ _ _ f _ _ _ h => absurd (href j f) h⟩,
    fun j _ f _ h => absurd (href j f) h, fun b hb => ?_, le_refl _, rfl⟩, fun _ _ => by decide,
    fun _ _ _ h => absurd h (not_lt_zero _), ?_, by decide⟩, fun j _ => ?_, fun j _ => ?_⟩
  · rw [href]
    exact ⟨fun h => absurd rfl h, fun h => absurd h (not_lt_zero _)⟩
  · have hne : b ≠ 1 := by
      rintro rfl
      exact absurd hb (by decide)
    exact hdisk b hne
  · have hneed : need ([] : List Byte).length = 0 := rfl
    rw [Finset.sum_congr rfl fun _ _ => hneed, Finset.sum_const_zero]
    rfl
  · rw [hzero]
    rfl
  · rw [hzero]
    rfl

theorem files_nil (j : ℕ) (h : j ≠ rootino) : files [] j = [] := by
  rw [files, if_neg h]
  split
  · rfl
  · rfl

theorem files_nil_eq : files [] = update
    (update (fun _ => []) rootino ([] ++ bytes ⟨rootino, [46]⟩)) rootino
    ([] ++ bytes ⟨rootino, [46]⟩ ++ bytes ⟨rootino, [46, 46]⟩) := by
  funext j
  rw [update_idem]
  by_cases hj : j = rootino
  · rw [hj, update_self]
    rfl
  · rw [update_of_ne hj, files_nil j hj]

theorem types_nil_eq : types [] = update (fun _ => 0) rootino tDir := by
  funext j
  by_cases hj : j = rootino
  · rw [hj, update_self]
    rfl
  · have hno : ¬ j - 2 < ([] : List MkArg).length := not_lt_zero _
    rw [update_of_ne hj, types, if_neg hj, if_neg hno]
    split <;> rfl

/-- The image that `mkfs` leaves. -/
structure Image (args : List MkArg) (s : Mk) : Prop where
  tree : Tree s (dinodeAt sb s.disk) (files args)
  size : ∀ j < inodeSlots, j ≠ rootino → (dinodeAt sb s.disk j).size.toNat = (files args j).length
  root : (dinodeAt sb s.disk rootino).size.toNat = ((rootBytes args).length / bsize + 1) * bsize
  type : ∀ j < inodeSlots, (dinodeAt sb s.disk j).type = types args j
  bits : ∀ b < bpb, bitAt sb s.disk b = decide (b < s.freeblock)
  used : s.freeblock < bpb
  super : s.disk 1 = Mem.storeWords (fun _ => 0) 4 0 superWords
  fine : ∀ a ∈ args, Fine a

theorem mapBit_foldl (l : List ℕ) (data : Mem) (b : ℕ) (hb : b < bpb) (hl : ∀ x ∈ l, x < bpb) :
    mapBit (l.foldl orBit data) b = (mapBit data b || decide (b ∈ l)) := by
  induction l generalizing data with
  | nil => simp
  | cons x l ih =>
    have hx := hl x mem_cons_self
    rw [foldl_cons, ih _ fun y hy => hl y (mem_cons_of_mem _ hy), mapBit_orBit,
      mod_eq_of_lt hb, mod_eq_of_lt hx, Bool.or_assoc]
    congr 1
    simp only [mem_cons, Bool.decide_or]

/-- The end of `main`. -/
theorem finish_spec (h : Built args s) (hfine : ∀ a ∈ args, Fine a) :
    Ensures ((fixRoot >>= fun _ => Run.read (fun s => s.freeblock) >>= fun used => balloc used) s)
      (fun _ => Image args) (fun _ => bpb ≤ total (files args)) := by
  obtain ⟨hgood, -, hsuper⟩ := h
  have hroot : rootino < inodeSlots := by decide
  have hlen := hgood.tree.fits rootino hroot
  rw [files_root] at hlen
  have hsize := hgood.size rootino hroot
  rw [files_root] at hsize
  have hfix : fixRoot s = .ok ((), { s with
      disk := setDinode sb s.disk rootino { dinodeAt sb s.disk rootino with
        size := .ofNat 32 (((rootBytes args).length / bsize + 1) * bsize) } }) := by
    rw [fixRoot, Run.bind_ok (rinode_ok hroot), winode_ok hroot, hsize]
  rw [Run.bind_ok hfix, Run.bind_read]
  dsimp only
  unfold balloc
  split
  · rename_i hle
    rwa [← show s.freeblock = total (files args) from hgood.tree.count]
  rename_i hlt
  have hlt := Nat.lt_of_not_le hlt
  rw [wsect_ok (by decide)]
  have hbm : ∀ j < inodeSlots, sb.bmapstart ≠ sb.iblock j := fun j hj => Nat.ne_of_gt (iblock_lt hj)
  have hself : dinodeAt sb (setDinode sb s.disk rootino { dinodeAt sb s.disk rootino with
      size := .ofNat 32 (((rootBytes args).length / bsize + 1) * bsize) }) rootino =
      { dinodeAt sb s.disk rootino with
        size := .ofNat 32 (((rootBytes args).length / bsize + 1) * bsize) } :=
    dinodeAt_setDinode_self _
  have hmeta : sb.bmapstart < sb.nmeta := by decide
  refine ⟨hgood.tree.store (fun b hb => ?_) (fun j hj f _ => ?_) rfl rfl, fun j hj hne => ?_, ?_,
    fun j hj => ?_, fun b hb => ?_, hlt, ?_, hfine⟩
  · have := iblock_lt hroot
    dsimp only
    rw [update_of_ne (by omega)]
    exact setDinode_of_ne _ (by omega)
  · dsimp only
    rw [dinodeAt_update _ (hbm j hj)]
    by_cases hji : j = rootino
    · rw [hji, hself]
      rfl
    · rw [dinodeAt_setDinode_of_ne _ hji]
  · dsimp only
    rw [dinodeAt_update _ (hbm j hj), dinodeAt_setDinode_of_ne _ hne]
    exact hgood.size j hj
  · dsimp only
    rw [dinodeAt_update _ (hbm rootino hroot), hself]
    dsimp only
    rw [BitVec.toNat_ofNat, mod_eq_of_lt]
    simp only [maxfile, ndirect, nindirect, bsize] at hlen ⊢
    omega
  · dsimp only
    rw [dinodeAt_update _ (hbm j hj)]
    by_cases hji : j = rootino
    · rw [hji, hself]
      exact hgood.type rootino hroot
    · rw [dinodeAt_setDinode_of_ne _ hji]
      exact hgood.type j hj
  · have hblock : sb.bblock b = sb.bmapstart := by
      rw [Superblock.bblock, div_eq_of_lt hb, zero_add]
    rw [bitAt, hblock]
    dsimp only
    rw [update_self, mapBit_foldl _ _ b hb fun x hx =>
      lt_trans (mem_range.1 hx) hlt]
    have hz : mapBit (fun _ => 0) b = false := by
      unfold mapBit
      exact BitVec.getLsbD_zero
    rw [hz, Bool.false_or]
    exact decide_eq_decide.2 mem_range
  · dsimp only
    rw [update_of_ne (by decide), setDinode_of_ne _ (iblock_ne_one _), hsuper]

/-- **`mkfs`** builds the image of the files, unless they do not fit. -/
theorem main_spec (hn : args.length + 1 < inodeSlots) : Ensures (main args start)
    (fun _ => Image args)
    (fun _ => ¬ (∀ a ∈ args, Fine a) ∨ ¬ Fits args ∨ bpb ≤ total (files args)) := by
  have hfree : empty.freeinode = rootino := rfl
  have hroot : rootino < inodeSlots := by decide
  have h₁ := ialloc_good empty_good (by decide : empty.freeinode < inodeSlots) rfl tDir
  rw [hfree, ← types_nil_eq] at h₁
  have hnil : ∀ (c : ℕ → List Byte), (∀ j, (c j).length ≤ (files [] j).length) →
      ∀ n ≤ (files [] rootino).length, maxfile * bsize < n ∨ fssize < total c + 2 →
      ¬ Fits args := by
    intro c hc n hle he hfit
    have hfit : Fits [] := (show Fits ([] ++ args) from hfit).of_append
    have hmono := total_mono hc
    have h1 := hfit.1 rootino hroot
    have h2 := hfit.2
    rcases he with he | he
    · exact absurd (Nat.lt_of_lt_of_le he (hle.trans h1)) (Nat.lt_irrefl _)
    · omega
  rw [main, Run.bind_ok (wsect_ok (by decide) _)]
  change Ensures ((ialloc tDir >>= _) empty) _ _
  rw [Run.bind_ok (ialloc_ok (by decide) tDir), if_neg (by rw [hfree]; exact not_not.2 rfl)]
  have hfirst := Ensures.mono (iappend_spec h₁ hroot (Dirent.bytes ⟨rootino, [46]⟩))
    (fun _ _ hs => hs) fun _ he =>
      (.inr (.inl (hnil _ (fun j => ?_) _ ?_ he)) : ¬ (∀ a ∈ args, Fine a) ∨ ¬ Fits args ∨
        bpb ≤ total (files args))
  · refine hfirst.bind fun _ s₂ ⟨h₂, hf₂, _, hb₂⟩ => ?_
    have hsecond := Ensures.mono (iappend_spec h₂ hroot (Dirent.bytes ⟨rootino, [46, 46]⟩))
      (fun _ _ hs => hs) fun _ he =>
        (.inr (.inl (hnil _ (fun j => ?_) _ ?_ he)) : ¬ (∀ a ∈ args, Fine a) ∨ ¬ Fits args ∨
          bpb ≤ total (files args))
    · refine hsecond.bind fun _ s₃ ⟨h₃, hf₃, _, hb₃⟩ => ?_
      rw [update_self, ← files_nil_eq] at h₃
      have hbuilt : Built [] s₃ := by
        refine ⟨h₃, by rw [hf₃, hf₂]; rfl, ?_⟩
        rw [hb₃ 1 (by decide) fun j _ => iblock_ne_one j,
          hb₂ 1 (by decide) fun j _ => iblock_ne_one j, withInode_disk_one]
        rfl
      have hall := each_addFile_spec hbuilt args (by rw [List.length_nil]; omega)
      rw [List.nil_append] at hall
      refine (hall.mono (fun _ _ hs => hs) fun _ he => he.imp_right .inl).bind
        fun _ s₄ ⟨h₄, hfine⟩ => ?_
      exact (finish_spec h₄ hfine).mono (fun _ _ hs => hs) fun _ he => .inr (.inr he)
    · rw [update_self, ← files_nil_eq]
    · rw [update_self]
      decide
  · by_cases hj : j = rootino
    · rw [hj, update_self]
      decide
    · rw [update_of_ne hj]
      exact Nat.zero_le _
  · decide

end Xv6Swap.Mk
