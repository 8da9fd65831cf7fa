import Xv6Swap.Kernel.Proc
import Xv6Swap.Lib.Tally
import Xv6Swap.Spec.Table

/-!
# Who holds the references

`Tab.Counted t di df` says that the counts of the tables are the numbers of pointers into them, up
to `di` for inodes and `df` for files: the references that the running call holds itself, or has
given up before it cleared the pointer.

* `Counted.get`, `Counted.put`, `Counted.setOfile`, `Counted.setCwd`, `Counted.setFile` : how the
  difference changes with each operation;
* `fileclose_open`, `filealloc_open`, `fdalloc_tab` : the functions on open files;
* `Tab.Idle` : between two calls the difference is 0, no lock is held and no operation is open;
* `sysOpen_idle`, ..., `sysExit_idle` : **every call keeps that, on every exit**.
-/

namespace Xv6Swap

open Function File Tab List

open Run

variable {x : File}

/-- The inode that a file refers to. -/
def File.target (x : File) : Option ℕ :=
  if 0 < x.ref ∧ (x.type = .inode ∨ x.type = .device) then some x.ip else none

theorem File.target_eq_none (h : x.type = .none ∨ x.type = .pipe) : x.target = none := by
  rcases h with h | h <;> simp [target, h]

theorem File.target_eq_some (hr : 0 < x.ref) (h : x.type = .inode ∨ x.type = .device) :
    x.target = some x.ip := if_pos ⟨hr, h⟩

/-- One reference to what the pointer points to. -/
def give (o : Option ℕ) (k : ℕ) : ℤ := ind (o = some k)

@[simp] theorem give_none (k : ℕ) : give none k = 0 := ind_false (by simp)

theorem give_nonneg (o : Option ℕ) (k : ℕ) : 0 ≤ give o k := ind_nonneg _

@[simp] theorem give_self (k : ℕ) : give (some k) k = 1 := ind_true rfl

theorem give_of_ne {k n : ℕ} (h : n ≠ k) : give (some k) n = 0 :=
  ind_false (by simpa using h.symm)

namespace Tab

variable {t : Tab} {di df : ℕ → ℤ} {k f p fd : ℕ} {v b : Option ℕ}

/-- The `ofile` slots of all processes. -/
def fdSlots : Finset (ℕ × ℕ) := Finset.range nproc ×ˢ Finset.range nofile

theorem mem_fdSlots : (p, fd) ∈ fdSlots ↔ p < nproc ∧ fd < nofile :=
  Finset.mem_product.trans (and_congr Finset.mem_range Finset.mem_range)

attribute [irreducible] fdSlots

/-- The number of `ofile` slots that point to a file. -/
def slots (t : Tab) (f : ℕ) : ℤ := tally fdSlots fun x => (t.proc x.1).ofile x.2 = some f

/-- The number of `cwd` fields that point to an inode. -/
def cwds (t : Tab) (k : ℕ) : ℤ := tally (Finset.range nproc) fun p => (t.proc p).cwd = some k

/-- The number of live files that point to an inode. -/
def targets (t : Tab) (k : ℕ) : ℤ := tally (Finset.range nfile) fun f => (t.file f).target = some k

/-- The number of `cwd` fields and of live files that point to an inode. -/
def holders (t : Tab) (k : ℕ) : ℤ := t.cwds k + t.targets k

/-- The counts of the tables are the numbers of pointers, up to `di` and `df`. -/
structure Counted (t : Tab) (di df : ℕ → ℤ) : Prop where
  ref : ∀ k < ninode, t.ref k = t.holders k + di k
  file : ∀ f < nfile, (t.file f).ref = t.slots f + df f
  ofile_lt : ∀ p < nproc, ∀ fd < nofile, ∀ f, (t.proc p).ofile fd = some f → f < nfile
  cwd_lt : ∀ p < nproc, ∀ k, (t.proc p).cwd = some k → k < ninode
  target_lt : ∀ f < nfile, ∀ k, (t.file f).target = some k → k < ninode
  free : ∀ f < nfile, (t.file f).ref = 0 → (t.file f).type = .none

theorem slots_nonneg (t : Tab) (f : ℕ) : 0 ≤ t.slots f := tally_nonneg _ _

theorem holders_nonneg (t : Tab) (k : ℕ) : 0 ≤ t.holders k :=
  add_nonneg (tally_nonneg _ _) (tally_nonneg _ _)

theorem slots_pos (hp : p < nproc) (hfd : fd < nofile) (h : (t.proc p).ofile fd = some f) :
    1 ≤ t.slots f := tally_pos (mem_fdSlots.2 ⟨hp, hfd⟩) h

theorem holders_pos_of_cwd (hp : p < nproc) (h : (t.proc p).cwd = some k) : 1 ≤ t.holders k :=
  le_add_of_le_of_nonneg (tally_pos (Finset.mem_range.2 hp) h) (tally_nonneg _ _)

/-- Open or close operations of the log. -/
def op (t : Tab) (n : ℤ) : Tab := { t with outstanding := t.outstanding + n }

/-- Set a descriptor. -/
def setOfile (t : Tab) (p fd : ℕ) (v : Option ℕ) : Tab := { t with
  proc := update t.proc p
    { t.proc p with ofile := update (t.proc p).ofile fd v } }

/-- Set a current directory. -/
def setCwd (t : Tab) (p : ℕ) (v : Option ℕ) : Tab := { t with
  proc := update t.proc p { t.proc p with cwd := v } }

/-- Set an entry of `ftable`. -/
def setFile (t : Tab) (f : ℕ) (x : File) : Tab := { t with file := update t.file f x }

theorem setOfile_ofile (q e : ℕ) : ((t.setOfile p fd v).proc q).ofile e =
    if q = p ∧ e = fd then v else (t.proc q).ofile e := by
  rcases eq_or_ne q p with rfl | hq
  · rcases eq_or_ne e fd with rfl | he <;> simp [setOfile, *]
  · simp [setOfile, hq]

theorem setOfile_cwd (q : ℕ) : ((t.setOfile p fd v).proc q).cwd = (t.proc q).cwd := by
  rcases eq_or_ne q p with rfl | hq <;> simp [setOfile, *]

theorem setCwd_cwd (q : ℕ) : ((t.setCwd p v).proc q).cwd = if q = p then v else (t.proc q).cwd := by
  rcases eq_or_ne q p with rfl | hq <;> simp [setCwd, *]

theorem setCwd_ofile (q e : ℕ) : ((t.setCwd p v).proc q).ofile e = (t.proc q).ofile e := by
  rcases eq_or_ne q p with rfl | hq <;> simp [setCwd, *]

@[simp] theorem op_op : (t.op 1).op (-1) = t := by simp [op]

namespace Counted

variable (h : t.Counted di df) {v : Option ℕ}
include h

theorem congr {di' df' : ℕ → ℤ} (hi : ∀ k, di k = di' k)
    (hf : ∀ f, df f = df' f) : t.Counted di' df' := by
  rwa [← funext hi, ← funext hf]

theorem get (k : ℕ) : (t.get k).Counted (di + give (some k)) df := by
  refine ⟨fun n hn => ?_, h.file, h.ofile_lt, h.cwd_lt, h.target_lt, h.free⟩
  have := h.ref n hn
  rcases eq_or_ne n k with rfl | hne
  · rw [ref_get, this, Pi.add_apply, give_self, add_assoc]
    rfl
  · rw [ref_get_of_ne hne, this, Pi.add_apply, give_of_ne hne, add_zero]
    rfl

theorem put (k : ℕ) : (t.put k).Counted (di - give (some k)) df := by
  refine ⟨fun n hn => ?_, h.file, h.ofile_lt, h.cwd_lt, h.target_lt, h.free⟩
  have := h.ref n hn
  rcases eq_or_ne n k with rfl | hne
  · rw [ref_put, this, Pi.sub_apply, give_self, add_sub_assoc]
    rfl
  · rw [ref_put_of_ne hne, this, Pi.sub_apply, give_of_ne hne, sub_zero]
    rfl

theorem setLock (k : ℕ) (b : Bool) : (t.setLock k b).Counted di df :=
  ⟨h.ref, h.file, h.ofile_lt, h.cwd_lt, h.target_lt, h.free⟩

theorem op (n : ℤ) : (t.op n).Counted di df :=
  ⟨h.ref, h.file, h.ofile_lt, h.cwd_lt, h.target_lt, h.free⟩

theorem setOfile (hp : p < nproc) (hfd : fd < nofile) (hv : ∀ f, v = some f → f < nfile) :
    (t.setOfile p fd v).Counted di (df + give ((t.proc p).ofile fd) - give v) := by
  refine ⟨fun n hn => ?_, fun f hf => ?_, fun q hq e he f hf => ?_, fun q hq k hk => ?_,
    h.target_lt, h.free⟩
  · rw [holders, cwds]
    simp only [setOfile_cwd]
    exact h.ref n hn
  · have hch : (t.setOfile p fd v).slots f =
        t.slots f + give v f - give ((t.proc p).ofile fd) f := by
      refine (tally_change (P := fun y => (t.proc y.1).ofile y.2 = some f)
        (mem_fdSlots.2 ⟨hp, hfd⟩) fun y _ hy => ?_).trans ?_
      · rw [setOfile_ofile, if_neg fun hc => hy (Prod.ext hc.1 hc.2)]
      · rw [setOfile_ofile, if_pos ⟨rfl, rfl⟩]
        rfl
    have hfile := h.file f hf
    change (t.file f).ref = _
    rw [hch, hfile]
    simp only [Pi.add_apply, Pi.sub_apply]
    omega
  · rw [setOfile_ofile] at hf
    split at hf
    · exact hv f hf
    · exact h.ofile_lt q hq e he f hf
  · rw [setOfile_cwd] at hk
    exact h.cwd_lt q hq k hk

theorem setCwd (hp : p < nproc) (hv : ∀ k, v = some k → k < ninode) :
    (t.setCwd p v).Counted (di + give (t.proc p).cwd - give v) df := by
  refine ⟨fun n hn => ?_, fun f hf => ?_, fun q hq e he f hf => ?_, fun q hq k hk => ?_,
    h.target_lt, h.free⟩
  · have hch : (t.setCwd p v).cwds n = t.cwds n + give v n - give (t.proc p).cwd n := by
      refine (tally_change (P := fun q => (t.proc q).cwd = some n) (Finset.mem_range.2 hp)
        fun q _ hq => ?_).trans ?_
      · rw [setCwd_cwd, if_neg hq]
      · rw [setCwd_cwd, if_pos rfl]
        rfl
    have href : t.ref n = t.cwds n + t.targets n + di n := h.ref n hn
    change t.ref n = (t.setCwd p v).cwds n + t.targets n + _
    rw [hch, href]
    simp only [Pi.add_apply, Pi.sub_apply]
    omega
  · rw [slots]
    simp only [setCwd_ofile]
    exact h.file f hf
  · rw [setCwd_ofile] at hf
    exact h.ofile_lt q hq e he f hf
  · rw [setCwd_cwd] at hk
    split at hk
    · exact hv k hk
    · exact h.cwd_lt q hq k hk

/-- A change of a file moves the reference to its inode. -/
theorem setFile (hf : f < nfile) {x : File}
    (hx : ∀ k, x.target = some k → k < ninode) (hfree : x.ref = 0 → x.type = .none) :
    (t.setFile f x).Counted (di + give (t.file f).target - give x.target)
      (fun g => df g + if g = f then x.ref - (t.file f).ref else 0) := by
  have hfile : ∀ g, (t.setFile f x).file g = if g = f then x else t.file g := fun g => by
    rcases eq_or_ne g f with rfl | hg <;> simp [Tab.setFile, *]
  refine ⟨fun n hn => ?_, fun g hg => ?_, h.ofile_lt, h.cwd_lt, fun g hg k hk => ?_,
    fun g hg hr => ?_⟩
  · have hch : (t.setFile f x).targets n =
        t.targets n + give x.target n - give (t.file f).target n := by
      refine (tally_change (P := fun g => (t.file g).target = some n) (Finset.mem_range.2 hf)
        fun g _ hg => ?_).trans ?_
      · rw [hfile, if_neg hg]
      · rw [hfile, if_pos rfl]
        rfl
    have href : t.ref n = t.cwds n + t.targets n + di n := h.ref n hn
    change t.ref n = t.cwds n + (t.setFile f x).targets n + _
    rw [hch, href]
    simp only [Pi.add_apply, Pi.sub_apply]
    omega
  · have hg' := h.file g hg
    change _ = t.slots g + _
    rw [hfile]
    split
    · subst_vars
      omega
    · rw [hg', add_zero]
  · rw [hfile] at hk
    split at hk
    · exact hx k hk
    · exact h.target_lt g hg k hk
  · rw [hfile] at hr ⊢
    split_ifs at hr ⊢
    · exact hfree hr
    · exact h.free g hg hr

end Counted

/-- The tables in the course of a call: the references it holds, the locks and the open
operations. -/
structure Open (t : Tab) (di df : ℕ → ℤ) (held : ℕ → Bool) (n : ℤ) : Prop where
  counted : t.Counted di df
  lock : t.lock = held
  outstanding : t.outstanding = n

/-- A process that is gone has no open files; `b` is one that is being made. -/
def Gone (t : Tab) (b : Option ℕ) : Prop :=
  ∀ p < nproc, b ≠ some p → (t.proc p).cwd = none → ∀ fd < nofile, (t.proc p).ofile fd = none

/-- The tables between two calls. -/
structure Idle (t : Tab) : Prop extends t.Open 0 0 (fun _ => false) 0 where
  gone : t.Gone none

namespace Open

variable {held : ℕ → Bool} {n : ℤ} {di' df' : ℕ → ℤ} {v : Option ℕ}

variable (h : t.Open di df held n)
include h

theorem congr (hi : ∀ k, di k = di' k) (hf : ∀ f, df f = df' f) : t.Open di' df' held n :=
  ⟨h.counted.congr hi hf, h.lock, h.outstanding⟩

theorem get (k : ℕ) : (t.get k).Open (di + give (some k)) df held n :=
  ⟨h.counted.get k, h.lock, h.outstanding⟩

theorem put (k : ℕ) : (t.put k).Open (di - give (some k)) df held n :=
  ⟨h.counted.put k, h.lock, h.outstanding⟩

theorem setLock (k : ℕ) (b : Bool) : (t.setLock k b).Open di df (update held k b) n :=
  ⟨h.counted.setLock k b, by rw [Tab.setLock, h.lock], h.outstanding⟩

theorem op (m : ℤ) : (t.op m).Open di df held (n + m) :=
  ⟨h.counted.op m, h.lock, by rw [Tab.op, h.outstanding]⟩

section

variable (hp : p < nproc) (hfd : fd < nofile)
include hp hfd

theorem setOfile (hv : ∀ f, v = some f → f < nfile) :
    (t.setOfile p fd v).Open di (df + give ((t.proc p).ofile fd) - give v) held n :=
  ⟨h.counted.setOfile hp hfd hv, h.lock, h.outstanding⟩

/-- A free descriptor takes over a reference of the call. -/
theorem assign (hfree : (t.proc p).ofile fd = none) (hf : f < nfile) :
    (t.setOfile p fd (some f)).Open di (df - give (some f)) held n :=
  (h.setOfile hp hfd fun _ hg => Option.some.inj hg ▸ hf).congr (fun _ => rfl) fun g => by
    rw [hfree]
    simp

/-- The call takes over the reference of a descriptor. -/
theorem clear (hf : (t.proc p).ofile fd = some f) :
    (t.setOfile p fd none).Open di (df + give (some f)) held n :=
  (h.setOfile hp hfd fun _ hg => by cases hg).congr (fun _ => rfl) fun g => by
    rw [hf]
    simp

end

theorem setCwd (hp : p < nproc) (hv : ∀ k, v = some k → k < ninode) :
    (t.setCwd p v).Open (di + give (t.proc p).cwd - give v) df held n :=
  ⟨h.counted.setCwd hp hv, h.lock, h.outstanding⟩

/-- A change of a file that points to `a` before and to `b` after. -/
theorem setFile (hf : f < nfile) {x : File} {a b : Option ℕ}
    (ha : (t.file f).target = a) (hb : x.target = b) (hlt : ∀ k, b = some k → k < ninode)
    (hfree : x.ref = 0 → x.type = .none) (hi : ∀ k, di k + give a k - give b k = di' k)
    (hd : ∀ g, df g + (x.ref - (t.file f).ref) * give (some f) g = df' g) :
    (t.setFile f x).Open di' df' held n := by
  subst ha hb
  refine ⟨(h.counted.setFile hf hlt hfree).congr hi fun g => ?_, h.lock, h.outstanding⟩
  rw [← hd g]
  rcases eq_or_ne g f with rfl | hg
  · simp
  · simp [hg, give_of_ne hg]

/-- A file that stays open changes its count. -/
theorem recount (hf : f < nfile) {m : ℤ} {df' : ℕ → ℤ} (hr : 0 < (t.file f).ref) (hm : 0 < m)
    (hd : ∀ g, df g + (m - (t.file f).ref) * give (some f) g = df' g) :
    (t.setFile f { t.file f with ref := m }).Open di df' held n := by
  have htarget : ({ t.file f with ref := m } : File).target = (t.file f).target := by
    simp only [target, hm, hr, true_and]
  exact h.setFile hf rfl htarget (h.counted.target_lt f hf) (fun h0 => absurd h0 hm.ne')
    (fun k => by ring) hd

/-- An inode to which the call holds a reference. -/
theorem ref_pos (hk : k < ninode) (hd : 1 ≤ di k) : 1 ≤ t.ref k := by
  have := h.counted.ref k hk
  have := t.holders_nonneg k
  omega

end Open

theorem Gone.setOfile (h : t.Gone b) (fd : ℕ) (v : Option ℕ)
    (hp : b = some p ∨ (t.proc p).cwd ≠ none ∨ v = none) : (t.setOfile p fd v).Gone b := by
  intro q hq hb hc e he
  rw [setOfile_cwd] at hc
  rw [setOfile_ofile]
  split
  · rename_i hqe
    rcases hp with hp | hp | hp
    · exact absurd (hqe.1 ▸ hp) hb
    · exact absurd (hqe.1 ▸ hc) hp
    · exact hp
  · exact h q hq hb hc e he

theorem Gone.setCwd (h : t.Gone b) (k : ℕ) :
    (t.setCwd p (some k)).Gone (if b = some p then none else b) := by
  intro q hq hb hc e he
  rw [setCwd_cwd] at hc
  rw [setCwd_ofile]
  split at hc
  · cases hc
  · rename_i hqp
    refine h q hq (fun hbq => hb ?_) hc e he
    rw [if_neg (by rw [hbq]; simpa using hqp), hbq]

theorem Gone.congr {t' : Tab} (h : t.Gone b) (hp : t'.proc = t.proc) : t'.Gone b := by
  unfold Gone at h ⊢
  rwa [hp]

theorem Counted.file_pos (h : t.Counted di df) (hp : p < nproc) (hfd : fd < nofile)
    (hf : (t.proc p).ofile fd = some f) (hd : 0 ≤ df f) : f < nfile ∧ 1 ≤ (t.file f).ref := by
  have hlt := h.ofile_lt p hp fd hfd f hf
  have hfile := h.file f hlt
  have hpos := slots_pos hp hfd hf
  exact ⟨hlt, by omega⟩

theorem Idle.cwd (h : t.Idle) (hp : p < nproc) (hc : (t.proc p).cwd = some k) : t.Cwd p k := by
  have hk := h.counted.cwd_lt p hp k hc
  have href := h.counted.ref k hk
  have hpos := holders_pos_of_cwd hp hc
  exact ⟨hc, hk, by simp only [Pi.zero_apply] at href; omega⟩

end Tab

namespace Fs

variable {sb : Superblock} {s u : Fs} {t : Tab} {di df : ℕ → ℤ} {held : ℕ → Bool} {n v : ℤ}
  {k f p fd ip c : ℕ} {α : Type} {m omode : BitVec 32} {path : Option (List Byte)} {mem : Bool}

/-! ### The log -/

/-- The call leaves no lock held and no operation open. -/
abbrev EndsIdle {α : Type} (r : Except FsStop (α × Fs)) : Prop :=
  Ensures r (fun _ s' => s'.tab.Idle) Benign

theorem beginOp_tab (s : Fs) : Leaves (beginOp s) (s.tab.op 1) := by
  simp only [beginOp, bind_read, id]
  split
  · exact (by decide : Benign .deadlock)
  · exact rfl

theorem endOp_tab (s : Fs) : Leaves (endOp sb s) (s.tab.op (-1)) := by
  simp only [endOp, bind_modify, bind_read, id]
  split <;> exact rfl

/-- The end of a call that has given everything back. -/
theorem finish_tab {v : α} (h : s.tab = t.op 1) : Leaves ((endOp sb >>= fun _ => pure v) s) t :=
  (endOp_tab s).bind fun _ s' hs' => hs'.trans (by rw [h, op_op])

/-- The end of a call that still holds a locked inode. -/
theorem release_tab {v : α} (h : GivesLocked (t.op 1) s.tab ip) :
    Leaves ((iunlockput sb ip >>= fun _ => endOp sb >>= fun _ => pure v) s) t :=
  h.iunlockput.bind fun _ _ hs' => finish_tab hs'

theorem finish_idle {v : α} (hi : t.Idle) (h : s.tab = t.op 1) :
    EndsIdle ((endOp sb >>= fun _ => pure v) s) :=
  (finish_tab h).imp fun _ _ hs' => hs' ▸ hi

theorem release_idle {v : α} (hi : t.Idle) (h : GivesLocked (t.op 1) s.tab ip) :
    EndsIdle ((iunlockput sb ip >>= fun _ => endOp sb >>= fun _ => pure v) s) :=
  (release_tab h).imp fun _ _ hs' => hs' ▸ hi

/-! ### `file.c` -/

theorem filealloc_open (h : s.tab.Open di df held n) :
    Ensures (filealloc s) (fun r s' => match r with
    | none => s'.tab = s.tab
    | some f => f < nfile ∧ s'.tab.Open di (df + give (some f)) held n ∧ s'.tab.proc = s.tab.proc ∧
        (s'.tab.file f).ref = 1 ∧ (s'.tab.file f).type = .none ∧
        ∀ g, (s.tab.file g).ref ≠ 0 → s'.tab.file g = s.tab.file g) Benign := by
  simp only [filealloc, bind_read, id]
  cases hf : (range nfile).find? fun f => (s.file f).ref = 0 with
  | none => exact rfl
  | some f =>
    have hlt := mem_range.1 (mem_of_find?_eq_some hf)
    have hr : (s.tab.file f).ref = 0 := by simpa using find?_some hf
    have hty : (s.tab.file f).type = .none := h.counted.free f hlt hr
    refine ⟨hlt, ?_, rfl, by simp [setFile, tab], by simpa [setFile, tab] using hty, fun g hg => ?_⟩
    · refine h.setFile hlt (target_eq_none (.inl hty)) (target_eq_none (.inl hty))
        (fun k hk => by cases hk) (fun h1 => by cases h1) (fun k => by simp) (fun g => ?_)
      rw [hr, Pi.add_apply]
      change df g + (1 - 0) * _ = _
      ring
    · have hne : g ≠ f := by
        rintro rfl
        exact hg hr
      simp [setFile, tab, hne]

theorem filedup_open (h : s.tab.Open di df held n) (hf : f < nfile) (hr : 1 ≤ (s.tab.file f).ref) :
    Ensures (filedup f s) (fun _ s' => s'.tab.Open di (df + give (some f)) held n ∧
      s'.tab.proc = s.tab.proc) Benign := by
  have hr' : ¬ (s.file f).ref < 1 := not_lt.2 hr
  simp only [filedup, bind_read, if_neg hr']
  refine ⟨h.recount hf hr (by omega : 0 < (s.file f).ref + 1) fun g => ?_, rfl⟩
  change df g + ((s.file f).ref + 1 - (s.file f).ref) * _ = _
  rw [Pi.add_apply]
  ring

theorem fileclose_open (h : s.tab.Open di df held n) (hf : f < nfile)
    (hr : 1 ≤ (s.tab.file f).ref) :
    Ensures (fileclose sb f s) (fun _ s' => s'.tab.Open di (df - give (some f)) held n ∧
      s'.tab.proc = s.tab.proc) Benign := by
  have hr' : ¬ (s.file f).ref < 1 := not_lt.2 hr
  simp only [fileclose, bind_read, if_neg hr']
  split
  · rename_i hmore
    refine ⟨h.recount hf hr (by omega : 0 < (s.file f).ref - 1) fun g => ?_, rfl⟩
    change df g + ((s.file f).ref - 1 - (s.file f).ref) * _ = _
    rw [Pi.sub_apply]
    ring
  · rename_i hlast
    have hone : (s.file f).ref = 1 := by omega
    rw [modifyFile, bind_modify]
    -- the reference of the file to its inode is the call's now
    have hclosed : (s.setFile f fun x => { x with ref := 0, type := .none }).tab.Open
        (di + give (s.tab.file f).target) (df - give (some f)) held n := by
      refine h.setFile hf rfl (target_eq_none (.inl rfl)) (fun k hk => by cases hk)
        (fun _ => rfl) (fun k => by simp) (fun g => ?_)
      change df g + (0 - (s.file f).ref) * _ = _
      rw [Pi.sub_apply, hone]
      ring
    have hinode : (s.file f).type = .inode ∨ (s.file f).type = .device → ∀ u : Fs,
        u.tab.Open (di + give (s.tab.file f).target) (df - give (some f)) held n →
        u.tab.proc = s.tab.proc →
        Ensures ((beginOp >>= fun _ => iput sb (s.file f).ip >>= fun _ => endOp sb) u)
          (fun _ s' => s'.tab.Open di (df - give (some f)) held n ∧ s'.tab.proc = s.tab.proc)
          Benign := fun hty u hu hp => by
      refine (beginOp_tab u).bind fun _ v hv => (iput_tab v).bind fun _ w hw =>
        (endOp_tab w).imp fun _ x hx => ?_
      have htarget : (s.tab.file f).target = some (s.file f).ip :=
        target_eq_some (by change 0 < (s.file f).ref; omega) hty
      have hxt : x.tab = u.tab.put (s.file f).ip := by
        rw [hx, hw, hv]
        exact (op_op (t := u.tab.put (s.file f).ip))
      rw [hxt]
      refine ⟨(hu.put _).congr (fun k => ?_) (fun g => rfl), hp⟩
      rw [htarget]
      simp
    have hother : (s.file f).type = .none ∨ (s.file f).type = .pipe → ∀ u : Fs,
        u.tab.Open (di + give (s.tab.file f).target) (df - give (some f)) held n →
        u.tab.Open di (df - give (some f)) held n := fun hty u hu =>
      hu.congr (fun k => by rw [Pi.add_apply, tab_file, target_eq_none hty]; simp) fun g => rfl
    cases hty : (s.file f).type with
    | inode => exact hinode (.inl hty) _ hclosed rfl
    | device => exact hinode (.inr hty) _ hclosed rfl
    | pipe => exact ⟨hother (.inr hty) _ hclosed, rfl⟩
    | none => exact ⟨hother (.inl hty) _ hclosed, rfl⟩

theorem fdalloc_tab (f : ℕ) (s : Fs) : Ensures (fdalloc p f s) (fun r s' => match r with
    | none => s'.tab = s.tab
    | some fd => fd < nofile ∧ (s.tab.proc p).ofile fd = none ∧
        s'.tab = s.tab.setOfile p fd (some f)) Benign := by
  simp only [fdalloc, bind_read, id]
  cases hf : (range nofile).find? fun fd => (s.proc p).ofile fd = none with
  | none => exact rfl
  | some fd =>
    refine ⟨mem_range.1 (mem_of_find?_eq_some hf), ?_, rfl⟩
    simpa using find?_some hf

theorem argfd_eq_some (h : (if v < 0 ∨ v ≥ nofile then none else
    (s.proc p).ofile v.toNat) = some f) :
    v.toNat < nofile ∧ (s.tab.proc p).ofile v.toNat = some f := by
  split at h
  · cases h
  · rename_i hv
    exact ⟨by omega, h⟩

/-! ### The calls on descriptors -/

theorem sysDup_idle (h : s.tab.Idle) (hp : p < nproc) (hc : (s.tab.proc p).cwd ≠ none) :
    EndsIdle (sysDup p v s) := by
  simp only [sysDup, argfd, bind_read]
  split
  · exact h
  rename_i f hf
  obtain ⟨hv, hfd⟩ := argfd_eq_some hf
  obtain ⟨hlt, hpos⟩ := h.counted.file_pos hp hv hfd le_rfl
  refine (fdalloc_tab f s).bind fun r u hu => ?_
  cases r with
  | none =>
    change u.tab.Idle
    rwa [hu]
  | some fd' =>
    obtain ⟨hfd', hfree, hu⟩ := hu
    have hset := h.toOpen.assign hp hfd' hfree hlt
    have hgone := h.gone.setOfile fd' (some f) (.inr (.inl hc))
    rw [← hu] at hset hgone
    refine (filedup_open hset hlt (by rw [hu]; exact hpos)).bind fun _ w ⟨hw, hproc⟩ => ?_
    exact ⟨hw.congr (fun k => rfl) (fun g => by simp), hgone.congr hproc⟩

theorem sysClose_idle (h : s.tab.Idle) (hp : p < nproc) : EndsIdle (sysClose sb p v s) := by
  simp only [sysClose, argfd, bind_read]
  split
  · exact h
  rename_i f hf
  obtain ⟨hv, hfd⟩ := argfd_eq_some hf
  obtain ⟨hlt, hpos⟩ := h.counted.file_pos hp hv hfd le_rfl
  have hset := h.toOpen.clear hp hv hfd
  have hgone := h.gone.setOfile (p := p) v.toNat none (.inr (.inr rfl))
  rw [setOfile, bind_modify]
  refine (fileclose_open (s := s.setProc p fun x =>
    { x with ofile := update x.ofile v.toNat none }) hset hlt hpos).bind
    fun _ w ⟨hw, hproc⟩ => ?_
  exact ⟨hw.congr (fun k => rfl) (fun g => by simp), hgone.congr hproc⟩

theorem moveOff_open (h : s.tab.Open di df held n) (hf : f < nfile) (r : ℤ) :
    Ensures (moveOff f r s) (fun _ s' => s'.tab.Open di df held n ∧ s'.tab.proc = s.tab.proc ∧
      s'.tab.ref = s.tab.ref) Benign := by
  rw [moveOff, Run.ite_apply]
  split
  · refine ⟨?_, rfl, rfl⟩
    refine h.setFile hf (a := (s.tab.file f).target) (b := (s.tab.file f).target) rfl rfl
      (h.counted.target_lt f hf) (h.counted.free f hf) (fun k => by ring) (fun e => ?_)
    change df e + ((s.file f).ref - (s.file f).ref) * _ = _
    ring
  · exact ⟨h, rfl, rfl⟩

/-- The last part of a transfer: the offset moves and the inode is unlocked. -/
theorem transfer_open (r : ℤ) (h : s.tab.Open di df (update held k true) n)
    (hf : f < nfile) (hfree : held k = false) (hr : 1 ≤ s.tab.ref k) :
    Ensures ((moveOff f r >>= fun _ => iunlock k) s)
      (fun _ s' => s'.tab.Open di df held n ∧ s'.tab.proc = s.tab.proc) Benign := by
  refine (moveOff_open h hf r).bind fun _ u ⟨hu, hp, href⟩ => ?_
  refine (iunlock_tab (by rw [hu.lock]; simp) (by rwa [href])).imp fun _ w hw => ?_
  have hlock := hu.setLock k false
  rw [← hw, update_idem, ← hfree, update_eq_self] at hlock
  exact ⟨hlock, by rw [hw]; exact hp⟩

theorem sysRead_idle {room : ℕ} (h : s.tab.Idle) (hp : p < nproc) :
    EndsIdle (sysRead sb p v room m s) := by
  simp only [sysRead, argfd, bind_read]
  split
  · exact h
  rename_i f hf
  obtain ⟨hv, hfd⟩ := argfd_eq_some hf
  obtain ⟨hlt, -⟩ := h.counted.file_pos hp hv hfd le_rfl
  simp only [bind_read]
  split
  · exact h
  split
  · refine (ilock_tab s).bind fun _ t ⟨ht, hfree, hr⟩ => ?_
    refine (still_readi _ _ _ _ t).bind fun r u hu => ?_
    have hopen := h.toOpen.setLock (s.file f).ip true
    rw [← ht, ← hu.tab] at hopen
    have hmove := transfer_open r.1 hopen hlt rfl (by rw [hu.tab, ht]; exact hr)
    rw [← bind_assoc_apply]
    refine hmove.bind fun _ w ⟨hw, hproc⟩ => ?_
    exact ⟨hw, h.gone.congr (by rw [hproc, hu.tab, ht]; rfl)⟩
  · exact h

theorem filewriteLoop_idle (src : List Byte) (m fuel i : ℕ) (hf : f < nfile) (h : s.tab.Idle) :
    EndsIdle (filewriteLoop sb f src m fuel i s) := by
  induction fuel generalizing i s with
  | zero => exact h
  | succ fuel ih =>
    rw [filewriteLoop, Run.ite_apply]
    split
    · exact h
    refine (beginOp_tab s).bind fun _ t ht => ?_
    simp only [bind_read]
    refine (ilock_tab t).bind fun _ u ⟨hu, hfree, hr⟩ => ?_
    refine (still_writei _ _ _ _ u).bind fun r w hw => ?_
    have hopen := (h.toOpen.op 1).setLock (t.file f).ip true
    rw [← ht, ← hu, ← hw.tab] at hopen
    have hmove := transfer_open r hopen hf rfl (by rw [hw.tab, hu]; exact hr)
    rw [← bind_assoc_apply]
    refine hmove.bind fun _ x ⟨hx, hproc⟩ => ?_
    refine (endOp_tab x).bind fun _ y hy => ?_
    have hidle : y.tab.Idle := by
      refine ⟨?_, h.gone.congr ?_⟩
      · have := hx.op (-1)
        rwa [← hy] at this
      · rw [hy]
        exact hproc.trans (by rw [hw.tab, hu, ht]; rfl)
    rw [Run.ite_apply]
    split
    · exact ih _ hidle
    · exact hidle

theorem sysWrite_idle {src : List Byte} (h : s.tab.Idle) (hp : p < nproc) :
    EndsIdle (sysWrite sb p v src m s) := by
  simp only [sysWrite, argfd, bind_read]
  split
  · exact h
  rename_i f hf
  obtain ⟨hv, hfd⟩ := argfd_eq_some hf
  obtain ⟨hlt, -⟩ := h.counted.file_pos hp hv hfd le_rfl
  simp only [bind_read]
  split
  · exact h
  split
  · split
    · exact h
    · exact filewriteLoop_idle src _ _ _ hlt h
  · exact h

/-! ### The calls on paths -/

theorem linkBad_tab (h : Gives (t.op 1) s.tab ip) : Leaves (linkBad sb ip s) t := by
  refine h.ilock.bind fun _ u hi => (still_dropLink ip u).bind fun _ w hw => ?_
  rw [← hw.tab] at hi
  exact release_tab hi

theorem linkEnter_tab {inum : ℕ} (new : List Byte) (h : Gives (t.op 1) s.tab ip)
    (hc : t.Cwd p c) : Leaves (linkEnter sb p ip inum new s) t := by
  have hcs : s.tab.Cwd p c := by
    rw [h.eq]
    exact ⟨hc.1, hc.2.1, hc.2.2.trans ref_le_get⟩
  refine (namex_tab new true hcs).bind fun r u hu => ?_
  cases r with
  | none =>
    have hu : u.tab = s.tab := hu
    exact linkBad_tab (hu ▸ h)
  | some r =>
    obtain ⟨dp, name⟩ := r
    have hu : Gives s.tab u.tab dp := hu
    refine hu.ilock.bind fun _ v hd => (dirlink_tab name inum v).bind fun ok w hw => ?_
    rw [← hw] at hd
    refine hd.iunlockput.bind fun _ x hx => ?_
    rw [Run.ite_apply]
    split
    · refine (iput_tab x).bind fun _ y hy => ?_
      exact finish_tab (by rw [hy, hx, h.eq, put_get])
    · exact linkBad_tab (hx ▸ h)

theorem sysLink_tab {old new : Option (List Byte)} (hc : s.tab.Cwd p c) :
    Leaves (sysLink sb p old new s) s.tab := by
  unfold sysLink
  split
  · rename_i old new
    refine (beginOp_tab s).bind fun _ t ht => ?_
    refine (namei_tab (s := t) (p := p) (c := c) old (by rw [ht]; exact hc)).bind fun r u hu => ?_
    cases r with
    | none => exact finish_tab (hu.trans ht)
    | some ip =>
      have hu : Gives t.tab u.tab ip := hu
      rw [ht] at hu
      refine hu.ilock.bind fun _ v hi => ?_
      simp only [bind_read]
      split
      · exact release_tab hi
      · refine (still_addLink ip v).bind fun _ w hw => ?_
        rw [← hw.tab] at hi
        refine (iunlock_tab hi.lock hi.pos).bind fun _ x hx => ?_
        have hx : Gives (s.tab.op 1) x.tab ip :=
          ⟨hx.trans hi.unlock, by rw [hx]; exact hi.pos, hi.lt⟩
        exact linkEnter_tab new hx hc
  · exact rfl

theorem still_removable (k : ℕ) : Stays (removable sb k) :=
  .bind (.read _) fun _ => .ite (fun _ => still_isdirempty k) fun _ => .pure _

theorem unlinkEntry_tab {dp : ℕ} (off : ℕ) (hd : GivesLocked (t.op 1) u.tab dp)
    (hi : Gives u.tab s.tab ip) : Leaves (unlinkEntry sb dp ip off s) t := by
  refine hi.ilock.bind fun _ v hi => ?_
  simp only [bind_read]
  split
  · exact (by decide : Benign (.panic .unlinkNlink))
  refine (still_removable ip v).bind fun ok w hw => ?_
  rw [← hw.tab] at hi
  rw [Run.ite_apply]
  split
  · refine hi.iunlockput.bind fun _ x hx => ?_
    exact release_tab (hx ▸ hd)
  refine (still_writei dp _ _ _ w).bind fun r x hx => ?_
  rw [Run.ite_apply]
  split
  · exact (by decide : Benign (.panic .unlinkWritei))
  have hrest : ∀ y : Fs, y.tab = w.tab → Leaves ((iunlockput sb dp >>= fun _ => dropLink sb ip >>=
      fun _ => iunlockput sb ip >>= fun _ => endOp sb >>= fun _ => pure (0 : ℤ)) y) t :=
      fun y hy => by
    -- the parent is released before the inode
    obtain ⟨t₃, hi', hd'⟩ := hd.swap hi
    rw [← hy] at hd'
    refine hd'.iunlockput.bind fun _ z hz => (still_dropLink ip z).bind fun _ z' hz' => ?_
    rw [← hz, ← hz'.tab] at hi'
    exact release_tab hi'
  rw [Run.ite_apply]
  split
  · exact (still_dropLink dp x).bind fun _ y hy => hrest y (hy.tab.trans hx.tab)
  · exact hrest x hx.tab

theorem sysUnlink_tab (hc : s.tab.Cwd p c) : Leaves (sysUnlink sb p path s) s.tab := by
  cases path with
  | none => exact rfl
  | some path =>
    refine (beginOp_tab s).bind fun _ t ht => ?_
    refine (namex_tab (s := t) (p := p) (c := c) path true (by rw [ht]; exact hc)).bind
      fun r u hu => ?_
    cases r with
    | none => exact finish_tab (hu.trans ht)
    | some r =>
      obtain ⟨dp, name⟩ := r
      have hu : Gives t.tab u.tab dp := hu
      rw [ht] at hu
      refine hu.ilock.bind fun _ v hd => ?_
      rw [Run.ite_apply]
      split
      · exact release_tab hd
      refine (dirlookup_tab name v).bind fun r w hw => ?_
      cases r with
      | none =>
        have hw : w.tab = v.tab := hw
        exact release_tab (hw ▸ hd)
      | some r => exact unlinkEntry_tab r.2 hd hw

theorem sysMake_tab {type major minor : BitVec 16} (hc : s.tab.Cwd p c) :
    Leaves (sysMake sb p path type major minor s) s.tab := by
  refine (beginOp_tab s).bind fun _ t ht => ?_
  cases path with
  | none => exact finish_tab ht
  | some path =>
    refine (create_tab (s := t) (p := p) (c := c) path type major minor (by rw [ht]; exact hc)).bind
      fun r u hu => ?_
    cases r with
    | none => exact finish_tab (hu.trans ht)
    | some ip =>
      have hu : GivesLocked t.tab u.tab ip := hu
      exact release_tab (ht ▸ hu)

theorem sysExec_tab {reads : List (ℕ × ℕ)} (hc : s.tab.Cwd p c) :
    Leaves (sysExec sb p path reads s) s.tab := by
  cases path with
  | none => exact rfl
  | some path =>
    refine (beginOp_tab s).bind fun _ t ht => ?_
    refine (namei_tab (s := t) (p := p) (c := c) path (by rw [ht]; exact hc)).bind fun r u hu => ?_
    cases r with
    | none =>
      refine (endOp_tab u).imp fun _ v hv => ?_
      rw [hv, show u.tab = t.tab from hu, ht, op_op]
    | some ip =>
      have hu : Gives t.tab u.tab ip := hu
      refine hu.ilock.bind fun _ v hi => ?_
      have hreads : Stays (each (fun r : ℕ × ℕ => readi sb ip r.2 r.1 r.2 >>=
          fun _ => pure ()) reads) := .each fun r _ => .bind (still_readi _ _ _ _) fun _ => .pure _
      refine (hreads v).bind fun _ w hw => ?_
      rw [← hw.tab] at hi
      refine hi.iunlockput.bind fun _ x hx => (endOp_tab x).imp fun _ y hy => ?_
      rw [hy, hx, ht, op_op]

theorem sysChdir_idle (h : s.tab.Idle) (hp : p < nproc) (hc : (s.tab.proc p).cwd = some c) :
    EndsIdle (sysChdir sb p path s) := by
  have hcwd := h.cwd hp hc
  refine (beginOp_tab s).bind fun _ t ht => ?_
  cases path with
  | none => exact finish_idle h ht
  | some path =>
    refine (namei_tab (s := t) (p := p) (c := c) path (by rw [ht]; exact hcwd)).bind
      fun r u hu => ?_
    cases r with
    | none => exact finish_idle h (Eq.trans hu ht)
    | some ip =>
      have hu : Gives t.tab u.tab ip := hu
      rw [ht] at hu
      refine hu.ilock.bind fun _ v hi => ?_
      simp only [bind_read]
      split
      · exact release_idle h hi
      refine (iunlock_tab hi.lock hi.pos).bind fun _ w hw => ?_
      have hproc : (w.proc p).cwd = some c := by
        have : w.tab.proc = s.tab.proc := by rw [hw, hi.unlock]; rfl
        rw [← tab_proc, this, hc]
      simp only [bind_read, hproc, Option.getD_some]
      refine (iput_tab w).bind fun _ x hx => (endOp_tab x).bind fun _ y hy => ?_
      have hy : y.tab = (s.tab.get ip).put c := by
        rw [hy, hx, hw, hi.unlock]
        exact op_op (t := (s.tab.get ip).put c)
      have hopen := ((h.toOpen.get ip).put c).setCwd hp (v := some ip)
        fun k hk => Option.some.inj hk ▸ hi.lt
      have hgone := Gone.setCwd (p := p) (t := (s.tab.get ip).put c) h.gone ip
      rw [← hy] at hopen hgone
      refine ⟨hopen.congr (fun k => ?_) (fun g => rfl), hgone⟩
      have : (y.tab.proc p).cwd = some c := by rw [hy]; exact hc
      rw [this]
      simp only [Pi.add_apply, Pi.sub_apply, Pi.zero_apply]
      ring

/-- The end of `sys_open` that gives up the inode, after other tables have changed. -/
theorem openFail_open (h : s.tab.Open (give (some ip)) 0 (update (fun _ => false) ip true) 1)
    (hip : ip < ninode) (hgone : s.tab.Gone none) : EndsIdle (openFail sb ip s) := by
  have hlock : s.tab.lock ip = true := by rw [h.lock]; simp
  have hpos : 1 ≤ s.tab.ref ip := h.ref_pos hip (by simp)
  refine (iunlockput_tab hlock hpos).bind fun _ u hu => (endOp_tab u).bind fun _ w hw => ?_
  have hopen := ((h.setLock ip false).put ip).op (-1)
  rw [← hu, ← hw] at hopen
  refine ⟨⟨hopen.counted.congr (fun k => by simp) fun g => rfl, ?_, hopen.outstanding⟩, ?_⟩
  · rw [hopen.lock, update_idem]
    simp
  · exact hgone.congr (by rw [hw, hu]; rfl)

/-- The end of `sys_open`: from here the file holds the reference to the inode. -/
theorem openFile_open (h : s.tab.Open (give (some ip)) 0 (update (fun _ => false) ip true) 1)
    (hip : ip < ninode) (hgone : s.tab.Gone none) (hf : f < nfile) (hone : (s.tab.file f).ref = 1)
    (htype : (s.tab.file f).type = .none) : EndsIdle (openFile sb ip f fd omode s) := by
  have hr : 1 ≤ s.tab.ref ip := h.ref_pos hip (by simp)
  simp only [openFile, modifyFile, bind_read, bind_modify]
  generalize (s.inode ip).d = d
  have hfill : (fillFile d ip omode (s.file f)).target = some ip := by
    refine File.target_eq_some ?_ ?_
    · change 0 < (s.tab.file f).ref
      omega
    · simp only [fillFile]
      split
      · exact .inr rfl
      · exact .inl rfl
  have hopen : (s.setFile f (fillFile d ip omode)).tab.Open 0 0
      (update (fun _ => false) ip true) 1 := by
    refine h.setFile hf (File.target_eq_none (.inl htype)) hfill
      (fun k hk => Option.some.inj hk ▸ hip) (fun h0 => ?_) (fun k => by simp) (fun g => ?_)
    · change (s.tab.file f).ref = 0 at h0
      omega
    · change (0 : ℤ) + ((s.file f).ref - (s.file f).ref) * _ = 0
      ring
  have hrest : ∀ w : Fs, w.tab = (s.setFile f (fillFile d ip omode)).tab →
      EndsIdle ((iunlock ip >>= fun _ => endOp sb >>= fun _ => pure (fd : ℤ)) w) := fun w hw => by
    rw [← hw] at hopen
    refine (iunlock_tab (by rw [hopen.lock]; simp) (by rw [hw]; exact hr)).bind fun _ y hy =>
      (endOp_tab y).bind fun _ z hz => ?_
    have hz' := (hopen.setLock ip false).op (-1)
    rw [← hy, ← hz] at hz'
    refine ⟨⟨hz'.counted, ?_, hz'.outstanding⟩, hgone.congr (by rw [hz, hy, hw]; rfl)⟩
    rw [hz'.lock, update_idem]
    simp
  rw [Run.ite_apply]
  split
  · exact (still_itrunc ip _).bind fun _ w hw => hrest w hw.tab
  · exact hrest _ rfl

theorem openInode_idle (h : t.Idle) (hp : p < nproc)
    (hc : (t.proc p).cwd ≠ none) (hi : GivesLocked (t.op 1) s.tab ip) :
    EndsIdle (openInode sb p ip omode s) := by
  have hgone : s.tab.Gone none := h.gone.congr (by rw [hi.eq]; rfl)
  have hopen : s.tab.Open (give (some ip)) 0 (update (fun _ => false) ip true) 1 := by
    have := ((h.toOpen.op 1).get ip).setLock ip true
    rw [← hi.eq] at this
    exact this.congr (fun k => by simp) fun g => rfl
  simp only [openInode, bind_read]
  split
  · exact openFail_open hopen hi.lt hgone
  refine (filealloc_open hopen).bind fun r u hu => ?_
  cases r with
  | none =>
    have hu : u.tab = s.tab := hu
    exact openFail_open (hu ▸ hopen) hi.lt (hu ▸ hgone)
  | some f =>
    obtain ⟨hf, hu, hproc, hone, htype, -⟩ := hu
    refine (fdalloc_tab f u).bind fun r v hv => ?_
    cases r with
    | none =>
      have hv : v.tab = u.tab := hv
      rw [← hv] at hu hone
      refine (fileclose_open hu hf hone.ge).bind fun _ w ⟨hw, hwp⟩ => ?_
      refine openFail_open (hw.congr (fun k => rfl) fun g => by simp) hi.lt (hgone.congr ?_)
      rw [hwp, hv, hproc]
    | some fd =>
      obtain ⟨hfd, hfree, hv⟩ := hv
      have hset := hu.assign hp hfd hfree hf
      have hcwd : (u.tab.proc p).cwd ≠ none := by
        rw [hproc, hi.eq]
        exact hc
      have hgone' := (hgone.congr hproc).setOfile fd (some f) (.inr (.inl hcwd))
      rw [← hv] at hset hgone'
      exact openFile_open (hset.congr (fun k => rfl) fun g => by simp) hi.lt hgone' hf
        (by rw [hv]; exact hone) (by rw [hv]; exact htype)

theorem sysOpen_idle (h : s.tab.Idle) (hp : p < nproc) (hc : (s.tab.proc p).cwd = some c) :
    EndsIdle (sysOpen sb p path omode s) := by
  have hcwd := h.cwd hp hc
  have hne : (s.tab.proc p).cwd ≠ none := by rw [hc]; simp
  cases path with
  | none => exact h
  | some path =>
    refine (beginOp_tab s).bind fun _ t ht => ?_
    have hct : t.tab.Cwd p c := by rw [ht]; exact hcwd
    rw [Run.ite_apply]
    split
    · refine (create_tab path tFile 0 0 hct).bind fun r u hu => ?_
      cases r with
      | none => exact finish_idle h (Eq.trans hu ht)
      | some ip =>
        have hu : GivesLocked t.tab u.tab ip := hu
        exact openInode_idle h hp hne (ht ▸ hu)
    · refine (namei_tab path hct).bind fun r u hu => ?_
      cases r with
      | none => exact finish_idle h (Eq.trans hu ht)
      | some ip =>
        have hu : Gives t.tab u.tab ip := hu
        rw [ht] at hu
        refine hu.ilock.bind fun _ v hi => ?_
        simp only [bind_read]
        split
        · exact release_idle h hi
        · exact openInode_idle h hp hne hi

/-! ### Pipes -/

theorem Tab.Open.setPipe (h : t.Open di df held n) (hf : f < nfile) {x : File}
    (hr : (t.file f).ref = 1) (ht : (t.file f).type = .none) (hxr : x.ref = 1)
    (hx : x.type = .pipe) :
    (t.setFile f x).Open di df held n :=
  h.setFile hf (target_eq_none (.inl ht)) (target_eq_none (.inr hx))
    (fun k hk => by cases hk) (fun h0 => by omega) (fun k => by simp)
    (fun g => by rw [hxr, hr]; simp)

/-- Two files that the call holds are closed. -/
theorem closeBoth_open {rf wf : ℕ} (h : s.tab.Open di (give (some rf) + give (some wf)) held n)
    (hrf : rf < nfile) (hwf : wf < nfile) :
    Ensures ((fileclose sb rf >>= fun _ => fileclose sb wf) s)
      (fun _ s' => s'.tab.Open di 0 held n ∧ s'.tab.proc = s.tab.proc) Benign := by
  have hpos : ∀ {u : Tab} {df : ℕ → ℤ} {g : ℕ}, u.Open di df held n → g < nfile → 1 ≤ df g →
      1 ≤ (u.file g).ref := fun {u df g} hu hg hd => by
    have := hu.counted.file g hg
    have := u.slots_nonneg g
    omega
  have hr : 1 ≤ (give (some rf) + give (some wf) : ℕ → ℤ) rf := by
    have := give_nonneg (some wf) rf
    simp only [Pi.add_apply, give_self]
    omega
  refine (fileclose_open h hrf (hpos h hrf hr)).bind fun _ u ⟨hu, hup⟩ => ?_
  have hu : u.tab.Open di (give (some wf)) held n := hu.congr (fun k => rfl) fun g => by simp
  refine (fileclose_open hu hwf (hpos hu hwf (by simp))).imp fun _ w ⟨hw, hwp⟩ => ?_
  exact ⟨hw.congr (fun k => rfl) (fun g => by simp), hwp.trans hup⟩

theorem pipealloc_open (h : s.tab.Open 0 0 held n) :
    Ensures (pipealloc sb mem s) (fun r s' => s'.tab.proc = s.tab.proc ∧ match r with
      | none => s'.tab.Open 0 0 held n
      | some (rf, wf) => rf < nfile ∧ wf < nfile ∧
          s'.tab.Open 0 (give (some rf) + give (some wf)) held n) Benign := by
  refine (filealloc_open h).bind fun r u hu => ?_
  cases r with
  | none =>
    have hu : u.tab = s.tab := hu
    exact ⟨by rw [hu], hu ▸ h⟩
  | some f0 =>
    obtain ⟨hf0, hu, hup, hone0, htype0, -⟩ := hu
    refine (filealloc_open hu).bind fun r v hv => ?_
    cases r with
    | none =>
      have hv : v.tab = u.tab := hv
      rw [← hv] at hu hone0 hup
      refine (fileclose_open hu hf0 hone0.ge).bind fun _ w ⟨hw, hwp⟩ => ?_
      exact ⟨hwp.trans hup, hw.congr (fun k => rfl) fun g => by simp⟩
    | some f1 =>
      obtain ⟨hf1, hv, hvp, hone1, htype1, hkeep⟩ := hv
      have hkeep0 : v.tab.file f0 = u.tab.file f0 := hkeep f0 (by rw [hone0]; decide)
      have hv : v.tab.Open 0 (give (some f0) + give (some f1)) held n :=
        hv.congr (fun k => rfl) fun g => by simp
      dsimp only
      rw [Run.ite_apply]
      split
      · have hne : f1 ≠ f0 := by
          rintro rfl
          have hcount := hv.counted.file f1 hf1
          have := v.tab.slots_nonneg f1
          rw [hone1] at hcount
          simp only [Pi.add_apply, give_self] at hcount
          omega
        simp only [modifyFile, bind_modify]
        refine ⟨hvp.trans hup, hf0, hf1, ?_⟩
        have h0 := Tab.Open.setPipe hv hf0 (by rw [hkeep0, hone0]) (by rw [hkeep0, htype0])
          (x := { v.file f0 with type := .pipe, readable := true, writable := false })
          (by rw [← tab_file, hkeep0, hone0]) rfl
        have hf1' : (v.tab.setFile f0 { v.file f0 with
            type := .pipe, readable := true, writable := false }).file f1 = v.tab.file f1 := by
          simp [Tab.setFile, hne]
        refine Tab.Open.setPipe h0 hf1 (by rw [hf1', hone1]) (by rw [hf1', htype1]) ?_ rfl
        change ((v.tab.setFile f0 _).file f1).ref = 1
        rw [hf1', hone1]
      · rw [← bind_assoc_apply]
        refine (closeBoth_open hv hf0 hf1).bind fun _ w ⟨hw, hwp⟩ => ?_
        exact ⟨hwp.trans (hvp.trans hup), hw⟩

theorem sysPipe_idle {copied : Bool} (h : s.tab.Idle) (hp : p < nproc)
    (hc : (s.tab.proc p).cwd ≠ none) : EndsIdle (sysPipe sb p mem copied s) := by
  refine (pipealloc_open h.toOpen).bind fun r u ⟨hup, hu⟩ => ?_
  cases r with
  | none => exact ⟨hu, h.gone.congr hup⟩
  | some r =>
    obtain ⟨rf, wf⟩ := r
    obtain ⟨hrf, hwf, hu⟩ := hu
    have hgone : u.tab.Gone none := h.gone.congr hup
    have hclose : ∀ w : Fs, w.tab.Open 0 (give (some rf) + give (some wf)) (fun _ => false) 0 →
        w.tab.Gone none → EndsIdle ((fileclose sb rf >>= fun _ => fileclose sb wf >>= fun _ =>
          pure (-1 : ℤ)) w) := fun w hw hg => by
      rw [← bind_assoc_apply]
      exact (closeBoth_open hw hrf hwf).bind fun _ x ⟨hx, hxp⟩ => ⟨hx, hg.congr hxp⟩
    refine (fdalloc_tab rf u).bind fun r v hv => ?_
    cases r with
    | none =>
      have hv : v.tab = u.tab := hv
      exact hclose v (hv ▸ hu) (hv ▸ hgone)
    | some fd0 =>
      obtain ⟨hfd0, hfree0, hv⟩ := hv
      have hset0 := hu.assign hp hfd0 hfree0 hrf
      have hgone0 := hgone.setOfile fd0 (some rf) (.inr (.inl (by rwa [hup])))
      have hfd0' : (v.tab.proc p).ofile fd0 = some rf := by
        rw [hv, setOfile_ofile, if_pos ⟨rfl, rfl⟩]
      rw [← hv] at hset0 hgone0
      have hclear0 : ∀ w : Fs, (w.tab.proc p).ofile fd0 = some rf →
          w.tab.Open 0 (give (some wf)) (fun _ => false) 0 → w.tab.Gone none →
          (w.tab.setOfile p fd0 none).Open 0 (give (some rf) + give (some wf)) (fun _ => false) 0 ∧
            (w.tab.setOfile p fd0 none).Gone none := fun w hof hw hg =>
        ⟨(hw.clear hp hfd0 hof).congr (fun k => rfl) fun g => by simp only [Pi.add_apply]; ring,
          hg.setOfile _ _ (.inr (.inr rfl))⟩
      have hset0 : v.tab.Open 0 (give (some wf)) (fun _ => false) 0 :=
        hset0.congr (fun k => rfl) fun g => by simp
      refine (fdalloc_tab wf v).bind fun r w hw => ?_
      cases r with
      | none =>
        have hw : w.tab = v.tab := hw
        rw [← hw] at hset0 hgone0 hfd0'
        obtain ⟨hopen, hg⟩ := hclear0 w hfd0' hset0 hgone0
        dsimp only
        rw [setOfile, bind_modify]
        exact hclose (w.setProc p fun x => { x with ofile := update x.ofile fd0 none }) hopen hg
      | some fd1 =>
        obtain ⟨hfd1, hfree1, hw⟩ := hw
        have hset1 := hset0.assign hp hfd1 hfree1 hwf
        have hcv : (v.tab.proc p).cwd ≠ none := by rwa [hv, setOfile_cwd, hup]
        have hgone1 := hgone0.setOfile fd1 (some wf) (.inr (.inl hcv))
        rw [← hw] at hset1 hgone1
        dsimp only
        rw [Run.ite_apply]
        split
        · exact ⟨hset1.congr (fun k => rfl) fun g => by simp, hgone1⟩
        · have hne : fd1 ≠ fd0 := by
            rintro rfl
            rw [hfd0'] at hfree1
            cases hfree1
          have hw0 : (w.tab.proc p).ofile fd0 = some rf := by
            rw [hw, setOfile_ofile, if_neg fun h => hne h.2.symm, hfd0']
          have hw1 : ((w.tab.setOfile p fd0 none).proc p).ofile fd1 = some wf := by
            rw [setOfile_ofile, if_neg fun h => hne h.2, hw, setOfile_ofile, if_pos ⟨rfl, rfl⟩]
          have hopen := (hset1.clear hp hfd0 hw0).clear hp hfd1 hw1
          have hg : ((w.tab.setOfile p fd0 none).setOfile p fd1 none).Gone none :=
            (hgone1.setOfile _ _ (.inr (.inr rfl))).setOfile _ _ (.inr (.inr rfl))
          simp only [setOfile, bind_modify]
          refine hclose ((w.setProc p fun x => { x with ofile := update x.ofile fd0 none
            }).setProc p fun x => { x with ofile := update x.ofile fd1 none })
            (hopen.congr (fun k => rfl) fun g => ?_) hg
          simp

/-! ### `proc.c` -/

/-- The state of `fork` before the round `fd` of its loop: the child `c` has the files of the
descriptors below. -/
structure Forking (s u : Fs) (p c fd : ℕ) : Prop where
  opened : u.tab.Open 0 0 (fun _ => false) 0
  gone : u.tab.Gone (some c)
  parent : u.tab.proc p = s.tab.proc p
  cwd : (u.tab.proc c).cwd = none
  free : ∀ e, fd ≤ e → e < nofile → (u.tab.proc c).ofile e = none

theorem forkFile_forking (hp : p < nproc) (hc : c < nproc) (hpc : p ≠ c)
    (hfd : fd < nofile) (h : Forking s u p c fd) :
    Ensures (forkFile p c fd u) (fun _ u' => Forking s u' p c (fd + 1)) Benign := by
  simp only [forkFile, bind_read]
  split
  · rename_i f hf
    obtain ⟨hlt, hpos⟩ := h.opened.counted.file_pos hp hfd hf le_rfl
    refine (filedup_open h.opened hlt hpos).bind fun _ v ⟨hv, hvp⟩ => ?_
    have hset := hv.assign hc hfd (by rw [hvp]; exact h.free fd le_rfl hfd) hlt
    refine ⟨hset.congr (fun k => rfl) fun g => by simp, (h.gone.congr hvp).setOfile _ _ (.inl rfl),
      ?_, ?_, fun e he helt => ?_⟩
    · rw [← h.parent, ← hvp]
      simp [setProc, tab, hpc]
    · change ((v.tab.setOfile c fd (some f)).proc c).cwd = none
      rw [setOfile_cwd, hvp, h.cwd]
    · change ((v.tab.setOfile c fd (some f)).proc c).ofile e = none
      rw [setOfile_ofile, if_neg fun h => by omega, hvp]
      exact h.free e (by omega) helt
  · exact ⟨h.opened, h.gone, h.parent, h.cwd, fun e he => h.free e (by omega)⟩

/-- `fork` into the free slot `c`. -/
theorem sysFork_idle (h : s.tab.Idle) (hp : p < nproc)
    (hk : (s.tab.proc p).cwd = some k) (hc : c < nproc) (hfree : (s.tab.proc c).cwd = none) :
    EndsIdle (sysFork p c mem s) := by
  have hpc : p ≠ c := by
    rintro rfl
    rw [hk] at hfree
    cases hfree
  rw [sysFork, Run.ite_apply]
  split
  · have h0 : Forking s s p c 0 := ⟨h.toOpen, fun q hq _ => h.gone q hq (by simp), rfl, hfree,
      fun e _ he => h.gone c hc (by simp) hfree e he⟩
    refine (Run.each_range_spec (I := fun fd u => Forking s u p c fd)
      (fun fd hfd u hu => forkFile_forking hp hc hpc hfd hu) h0).bind fun _ u hu => ?_
    have hcwd : (u.proc p).cwd = some k := by rw [← tab_proc, hu.parent, hk]
    simp only [bind_read, hcwd, Option.getD_some]
    have hklt := h.counted.cwd_lt p hp k hk
    refine (idup_tab u).bind fun m v ⟨hm, hv⟩ => ?_
    subst hm
    have hopen := (hu.opened.get m).setCwd hc (v := some m) fun j hj => Option.some.inj hj ▸ hklt
    have hgone := Tab.Gone.setCwd (p := c) (t := u.tab.get m) hu.gone m
    rw [if_pos rfl] at hgone
    rw [← hv] at hopen hgone
    refine ⟨hopen.congr (fun j => ?_) (fun g => rfl), hgone⟩
    rw [show (v.tab.proc c).cwd = none by rw [hv]; exact hu.cwd]
    simp
  · exact h

/-- The state of `exit` before the round `fd` of its loop. -/
structure Exiting (s u : Fs) (p fd : ℕ) : Prop where
  opened : u.tab.Open 0 0 (fun _ => false) 0
  gone : u.tab.Gone none
  cwd : (u.tab.proc p).cwd = (s.tab.proc p).cwd
  closed : ∀ e < fd, (u.tab.proc p).ofile e = none

theorem exitFile_exiting (hp : p < nproc) (hfd : fd < nofile) (h : Exiting s u p fd) :
    Ensures (exitFile sb p fd u) (fun _ u' => Exiting s u' p (fd + 1)) Benign := by
  simp only [exitFile, bind_read]
  split
  · rename_i f hf
    obtain ⟨hlt, hpos⟩ := h.opened.counted.file_pos hp hfd hf le_rfl
    refine (fileclose_open h.opened hlt hpos).bind fun _ v ⟨hv, hvp⟩ => ?_
    have hset := hv.clear hp hfd (by rw [hvp]; exact hf)
    refine ⟨hset.congr (fun k => rfl) fun g => by simp,
      (h.gone.congr hvp).setOfile _ _ (.inr (.inr rfl)), ?_, fun e he => ?_⟩
    · change ((v.tab.setOfile p fd none).proc p).cwd = _
      rw [setOfile_cwd, hvp, h.cwd]
    · change ((v.tab.setOfile p fd none).proc p).ofile e = none
      rw [setOfile_ofile, hvp]
      split
      · rfl
      · exact h.closed e (by omega)
  · rename_i hnone
    refine ⟨h.opened, h.gone, h.cwd, fun e he => ?_⟩
    rcases Nat.lt_succ_iff_lt_or_eq.1 he with he | rfl
    · exact h.closed e he
    · exact hnone

theorem sysExit_idle (h : s.tab.Idle) (hp : p < nproc) (hk : (s.tab.proc p).cwd = some k) :
    EndsIdle (sysExit sb p s) := by
  have h0 : Exiting s s p 0 := ⟨h.toOpen, h.gone, rfl, fun e he => absurd he (by omega)⟩
  refine (each_range_spec (I := fun fd u => Exiting s u p fd)
    (fun fd hfd u hu => exitFile_exiting hp hfd hu) h0).bind fun _ u hu => ?_
  refine (beginOp_tab u).bind fun _ v hv => ?_
  have hcwd : (v.proc p).cwd = some k := by
    rw [← tab_proc, hv, ← hk, ← hu.cwd]
    rfl
  simp only [bind_read, hcwd, Option.getD_some]
  refine (iput_tab v).bind fun _ w hw => (endOp_tab w).bind fun _ x hx => ?_
  have hx : x.tab = u.tab.put k := by
    rw [hx, hw, hv]
    exact op_op (t := u.tab.put k)
  have hopen := (hu.opened.put k).setCwd hp (v := none) fun j hj => by cases hj
  rw [← hx] at hopen
  refine ⟨hopen.congr (fun j => ?_) (fun g => rfl), fun q hq _ hc e he => ?_⟩
  · rw [show (x.tab.proc p).cwd = some k by rw [hx, ← hk, ← hu.cwd]; rfl]
    simp
  · change ((x.tab.setCwd p none).proc q).ofile e = none
    change ((x.tab.setCwd p none).proc q).cwd = none at hc
    rw [setCwd_ofile]
    rw [setCwd_cwd] at hc
    rw [hx] at hc ⊢
    split at hc
    · subst_vars
      exact hu.closed e he
    · exact hu.gone q hq (by simp) hc e he

end Fs

end Xv6Swap
