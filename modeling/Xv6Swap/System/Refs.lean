import Xv6Swap.Lib.Machine
import Xv6Swap.Spec.Calls

/-!
# Reference counts over whole runs

The system calls on files, made one after the other by any processes from the state in which the
kernel starts the first of them, on any disk.

* `fsCalls` : the machine whose actions are complete system calls;
* `refs_exact` : **between calls every count is the number of pointers**, no inode is locked, no
  operation of the log is open, and the panics that guard the counts cannot happen.
-/

namespace Xv6Swap

/-- The state in which the first process starts: its current directory is the root, which
`userinit` has looked up. -/
def Fs.start (disk : ℕ → Mem) : Fs where
  disk
  held := []
  lh := []
  outstanding := 0
  inode k := ⟨if k = 0 then rootino else 0, if k = 0 then 1 else 0, false, false, .zero⟩
  file _ := ⟨.none, 0, false, false, 0, 0, 0⟩
  proc p := ⟨fun _ => none, if p = 0 then some 0 else none⟩
  touched := []

/-- The system calls on files, with the calling process first. -/
inductive FsCall where
  | open (p : ℕ) (path : Option (List Byte)) (omode : BitVec 32)
  | close (p : ℕ) (fd : ℤ)
  | dup (p : ℕ) (fd : ℤ)
  | read (p : ℕ) (fd : ℤ) (room : ℕ) (n : BitVec 32)
  | write (p : ℕ) (fd : ℤ) (src : List Byte) (n : BitVec 32)
  | pipe (p : ℕ) (mem copied : Bool)
  | fork (p c : ℕ) (mem : Bool)
  | exec (p : ℕ) (path : Option (List Byte)) (reads : List (ℕ × ℕ))
  | chdir (p : ℕ) (path : Option (List Byte))
  | link (p : ℕ) (old new : Option (List Byte))
  | unlink (p : ℕ) (path : Option (List Byte))
  | mkdir (p : ℕ) (path : Option (List Byte))
  | mknod (p : ℕ) (path : Option (List Byte)) (major minor : BitVec 16)
  | exit (p : ℕ)

namespace FsCall

/-- The calling process. -/
def caller : FsCall → ℕ
  | .open p _ _ | .close p _ | .dup p _ | .read p _ _ _ | .write p _ _ _ | .pipe p _ _
  | .fork p _ _ | .exec p _ _ | .chdir p _ | .link p _ _ | .unlink p _ | .mkdir p _
  | .mknod p _ _ _ | .exit p => p

/-- A call is made by a process that is there; `fork` finds a free slot for the child. -/
def Ok (c : FsCall) (s : Fs) : Prop :=
  c.caller < nproc ∧ (s.proc c.caller).cwd.isSome ∧ match c with
    | .fork _ c _ => c < nproc ∧ (s.proc c).cwd = none
    | _ => True

instance (c : FsCall) (s : Fs) : Decidable (c.Ok s) := by
  unfold Ok
  cases c <;> infer_instance

/-- Make the call. -/
def run (sb : Superblock) : FsCall → F Unit
  | .open p path omode => Fs.sysOpen sb p path omode >>= fun _ => pure ()
  | .close p fd => Fs.sysClose sb p fd >>= fun _ => pure ()
  | .dup p fd => Fs.sysDup p fd >>= fun _ => pure ()
  | .read p fd room n => Fs.sysRead sb p fd room n >>= fun _ => pure ()
  | .write p fd src n => Fs.sysWrite sb p fd src n >>= fun _ => pure ()
  | .pipe p mem copied => Fs.sysPipe sb p mem copied >>= fun _ => pure ()
  | .fork p c mem => Fs.sysFork p c mem
  | .exec p path reads => Fs.sysExec sb p path reads
  | .chdir p path => Fs.sysChdir sb p path >>= fun _ => pure ()
  | .link p old new => Fs.sysLink sb p old new >>= fun _ => pure ()
  | .unlink p path => Fs.sysUnlink sb p path >>= fun _ => pure ()
  | .mkdir p path => Fs.sysMkdir sb p path >>= fun _ => pure ()
  | .mknod p path major minor => Fs.sysMknod sb p path major minor >>= fun _ => pure ()
  | .exit p => Fs.sysExit sb p

end FsCall

/-- Complete system calls, one after the other, from a disk image that satisfies `image`. -/
def fsCalls (sb : Superblock) (image : (ℕ → Mem) → Prop) : Machine Fs FsStop FsCall where
  init s := ∃ disk, image disk ∧ s = Fs.start disk
  guard := FsCall.Ok
  prog := FsCall.run sb

namespace Fs

variable {sb : Superblock} {s : Fs}

theorem start_idle (disk : ℕ → Mem) : (Fs.start disk).tab.Idle where
  counted := {
    ref := fun k _ => by
      have hcwds : (start disk).tab.cwds k = ind (0 = k) := by
        refine (tally_eq_ind (x := 0) (by decide) fun p _ hp => ?_).trans ?_
        · simp [start, tab, hp]
        · simp [start, tab, ind]
      have htargets : (start disk).tab.targets k = 0 :=
        tally_eq_zero fun f _ => by simp [start, tab, File.target]
      rw [Tab.holders, hcwds, htargets]
      by_cases hk : k = 0
      · simp [hk, start, ind]
      · simp [hk, start, ind, Ne.symm hk]
    file := fun f _ => by
      have hslots : (start disk).tab.slots f = 0 := tally_eq_zero fun x _ => by simp [start, tab]
      rw [hslots]
      rfl
    ofile_lt := fun p _ fd _ f hf => by cases hf
    cwd_lt := fun p _ k hk => by
      by_cases hp : p = 0
      · simp only [tab, start, hp, if_true, Option.some.injEq] at hk
        exact hk ▸ (by decide : 0 < ninode)
      · simp [tab, start, hp] at hk
    target_lt := fun f _ k hk => by simp [tab, start, File.target] at hk
    free := fun _ _ _ => rfl }
  lock := rfl
  outstanding := rfl
  gone := fun _ _ _ _ _ _ => rfl

/-- Every call keeps the tables idle, and stops only for other reasons than a wrong count. -/
theorem run_idle (c : FsCall) (h : s.tab.Idle) (hc : c.Ok s) : EndsIdle (c.run sb s) := by
  obtain ⟨hp, hcwd, hfork⟩ := hc
  obtain ⟨k, hk⟩ := Option.isSome_iff_exists.1 hcwd
  have hne : (s.tab.proc c.caller).cwd ≠ none := by rw [tab_proc, hk]; simp
  have same : ∀ {m : F ℤ}, Leaves (m s) s.tab →
      EndsIdle ((m >>= fun _ => pure ()) s) := fun hm =>
    hm.bind fun _ _ hs' => by
      change Tab.Idle _
      rwa [hs']
  cases c with
  | «open» p path omode => exact (sysOpen_idle h hp hk).bind fun _ _ hs' => hs'
  | close p fd => exact (sysClose_idle h hp).bind fun _ _ hs' => hs'
  | dup p fd => exact (sysDup_idle h hp hne).bind fun _ _ hs' => hs'
  | read p fd room n => exact (sysRead_idle h hp).bind fun _ _ hs' => hs'
  | write p fd src n => exact (sysWrite_idle h hp).bind fun _ _ hs' => hs'
  | pipe p mem copied => exact (sysPipe_idle h hp hne).bind fun _ _ hs' => hs'
  | fork p c mem => exact sysFork_idle h hp hk hfork.1 hfork.2
  | exec p path reads => exact (sysExec_tab (h.cwd hp hk)).imp fun _ _ hs' => hs' ▸ h
  | chdir p path => exact (sysChdir_idle h hp hk).bind fun _ _ hs' => hs'
  | link p old new => exact same (sysLink_tab (h.cwd hp hk))
  | unlink p path => exact same (sysUnlink_tab (h.cwd hp hk))
  | mkdir p path => exact same (sysMake_tab (h.cwd hp hk))
  | mknod p path major minor => exact same (sysMake_tab (h.cwd hp hk))
  | exit p => exact sysExit_idle h hp hk

end Fs

open Fs in
theorem idle_of_reachable {sb : Superblock} {image : (ℕ → Mem) → Prop} {s : Fs}
    (h : (fsCalls sb image).Reachable s) : s.tab.Idle :=
  h.invariant (fun _ ⟨disk, _, hs⟩ => hs ▸ start_idle disk) fun _ c _ hi ⟨hc, hrun⟩ =>
    (run_idle c hi hc).of_ok hrun

/-- **Reference counts are exact.**  Between calls, whatever the disk holds and however the calls
before have returned: the count of a file is the number of descriptors that point to it, the count
of an inode the number of current directories and live files that point to it, no inode is locked
and no operation of the log is open; and no call can stop with one of the panics that guard the
counts. -/
theorem refs_exact {sb : Superblock} {image : (ℕ → Mem) → Prop} {s : Fs}
    (h : (fsCalls sb image).Reachable s) : (∀ f < nfile, (s.file f).ref = s.tab.slots f) ∧
    (∀ k < ninode, (s.inode k).ref = s.tab.holders k) ∧
    (∀ k, (s.inode k).locked = false) ∧ s.outstanding = 0 ∧
    ∀ (c : FsCall) (e : FsStop), c.Ok s → c.run sb s = .error e →
      e ≠ .panic .filedup ∧ e ≠ .panic .fileclose ∧ e ≠ .panic .iunlock := by
  have hidle := idle_of_reachable h
  refine ⟨fun f hf => ?_, fun k hk => ?_, fun k => congrFun hidle.lock k, hidle.outstanding,
    fun c e hc he => (Fs.run_idle c hidle hc).of_error he⟩
  · simpa using hidle.counted.file f hf
  · simpa using hidle.counted.ref k hk

/-- The first process opens a pipe and forks, and the child duplicates the read end. -/
theorem refs_exact_shared : ∃ s, (fsCalls .mkfs fun _ => True).Reachable s ∧
    (s.file 0).ref = 3 ∧ s.tab.slots 0 = 3 ∧ (s.inode 0).ref = 2 ∧ s.tab.holders 0 = 2 := by
  obtain ⟨s, hs, ht⟩ := Machine.Reachable.test (M := fsCalls .mkfs fun _ => True)
    (fun c s => of_decide_eq_true (p := c.Ok s)) (.init ⟨fun _ _ => 0, trivial, rfl⟩)
    [.pipe 0 true true, .fork 0 1 true, .dup 1 0]
    (t := fun s => (s.file 0).ref = 3 ∧ (s.inode 0).ref = 2) (by decide +kernel)
  simp only [decide_eq_true_eq] at ht
  obtain ⟨hf, hi, -⟩ := refs_exact hs
  exact ⟨s, hs, ht.1, (hf 0 (by decide)).symm.trans ht.1, ht.2, (hi 0 (by decide)).symm.trans ht.2⟩

end Xv6Swap
