import Xv6Swap.System.Ops
import Xv6Swap.System.Pipe

/-!
# Copies to and from the memory of a process

* `user_copies` : **the copies between the kernel and the user are byte-exact**, for every page
  table, address and length;
* `PipeSys.unread_take` : the bytes in a pipe after one has been taken;
* `pipereadLoop_spec` : what the loop of `piperead` takes from the pipe and what it stores;
* `piperead_delivers_iff` : a read delivers the bytes that it takes **exactly if all of its
  destination can be written**; otherwise one byte is lost.
-/

namespace Xv6Swap

open List Nat PipeSys PipeMem Run BitVec

variable {σ : KState} {g : Ghost} {r p addr va np : ℕ} {n : ℤ} {s : PipeSys} {t t' : PipeMem KState}

/-- **User copies are byte-exact across pages**, for every address and every length: they succeed
exactly if the pages of the range may be accessed, transfer exactly the bytes before the first page
that may not, and what was copied out is copied in again. -/
theorem user_copies (h : Inv σ g) (hr : g.role r = .root) (va : ℕ) :
    (∀ src, Ensures (copyout r va src σ) (CopyoutExact σ r va src) fun _ => False) ∧
    (∀ len, Ensures (copyin r va len σ) (fun q σ' => σ' = σ ∧ CopyinExact σ r va len q.1 q.2)
      fun _ => False) ∧
    ∀ max, Ensures (copyinstr r va max σ) (fun q σ' => σ' = σ ∧ CopyinstrExact σ r va max q.1 q.2)
      fun _ => False :=
  ⟨copyout_exact h hr va, copyin_exact h hr va, copyinstr_exact h hr va⟩

/-- The first process has one page of memory. -/
theorem first_page : ∃ w r g, system.Reachable w ∧ (w.sys.proc 0).pagetable = r ∧ Inv w.sys.k g ∧
    g.role r = .root ∧ Writable w.sys.k r 0 ∧ ¬ Writable w.sys.k r 1 := by
  obtain ⟨w, hw, ht⟩ := reachable_test (n := 13) (by decide) (by decide) [.userinit]
    (t := fun w => w.isTable (w.sys.proc 0).pagetable &&
      decide (Writable w.sys.k (w.sys.proc 0).pagetable 0 ∧
        ¬ Writable w.sys.k (w.sys.proc 0).pagetable 1)) (by decide +kernel)
  obtain ⟨ht, hW⟩ := Bool.and_eq_true_iff.1 ht
  obtain ⟨⟨g, h⟩, -⟩ := reachable_sound hw
  exact ⟨w, _, g, hw, rfl, h.inv, h.isTable.1 (.of_check ht), of_decide_eq_true hW⟩

/-- Two bytes are copied to the end of the memory of the first process: only the first is. -/
theorem user_copies_end : ∃ w q σ', system.Reachable w ∧
    copyout (w.sys.proc 0).pagetable 4095 [1, 2] w.sys.k = .ok (q, σ') ∧ q = -1 ∧
    CopyoutExact w.sys.k (w.sys.proc 0).pagetable 4095 [1, 2] q σ' := by
  obtain ⟨w, _, g, hw, rfl, h, hr, -, hW⟩ := first_page
  obtain ⟨q, σ', hrun, he⟩ := ((user_copies h hr 4095).1 [1, 2]).exists_ok
  refine ⟨w, q, σ', hw, hrun, he.result.resolve_left fun h0 => ?_, he⟩
  exact hW (he.zero_iff.1 h0 4096 (by decide) (by decide))

/-! ### Reading from a pipe -/

namespace PipeSys

variable {s : PipeSys}

theorem length_unread : s.unread.length = (s.nwrite - s.nread).toNat := by
  rw [unread, length_map, length_range]

theorem unread_eq_nil_iff : s.unread = [] ↔ s.Empty := by
  rw [← length_eq_zero_iff, length_unread, Empty]
  constructor
  · intro h
    have := eq_of_toNat_eq (y := 0#32) h
    exact (BitVec.sub_eq_iff_eq_add.1 this).symm ▸ (BitVec.zero_add _).symm
  · intro h
    rw [h, BitVec.sub_self]
    rfl

/-- **The bytes in the pipe** are the next one and those behind it. -/
theorem unread_take (h : ¬ s.Empty) :
    s.unread = s.data (s.nread.toNat % pipesize) :: s.take.unread := by
  have hne : (s.nwrite - s.nread).toNat ≠ 0 := fun h0 =>
    h (unread_eq_nil_iff.1 (length_eq_zero_iff.1 (length_unread.trans h0)))
  have hlen : (s.nwrite - s.nread).toNat = (s.take.nwrite - s.take.nread).toNat + 1 := by
    simp only [take]
    bv_omega
  rw [unread, hlen, range_succ_eq_map, map_cons, map_map, add_zero]
  refine congrArg _ (map_congr_left fun j _ => congrArg s.data ?_)
  have hnext : s.take.nread.toNat = (s.nread.toNat + 1) % 2 ^ 32 := by
    simp only [take, toNat_add]
    rfl
  simp only [hnext, pipesize]
  omega

end PipeSys

/-- A round of the loop of `piperead` that is the last: nothing more is wanted, or the copy has
failed. -/
theorem PipeSys.readRound_stop {ok : Bool} (h : ¬ (((s.proc p).i : ℤ) < n ∧ ¬ s.Empty)) :
    s.readRound p n ok = s.goto p (.wake .nwrite 0 (.ret (s.proc p).i)) := if_neg h

theorem PipeSys.readRound_false (h : ((s.proc p).i : ℤ) < n ∧ ¬ s.Empty) :
    s.readRound p n false = s.take.goto p (.wake .nwrite 0 (.ret (s.proc p).i)) := if_pos h

theorem PipeSys.readRound_true (h : ((s.proc p).i : ℤ) < n ∧ ¬ s.Empty) :
    s.readRound p n true = s.take.setProc p { s.proc p with i := (s.proc p).i + 1 } := if_pos h

/-- `copyout` of one byte. -/
theorem copyout_one (h : Inv σ g) (hr : g.role r = .root) (va : ℕ) (b : Byte) :
    Ensures (copyout r va [b] σ) (fun q σ' => Inv σ' g ∧
      if Writable σ r (va / pgsize) then q = 0 ∧ StoredAt σ r va [b] 1 σ'
      else q = -1 ∧ StoredAt σ r va [b] 0 σ') fun _ => False := by
  obtain ⟨q, σ', hrun, hb⟩ := (copyout_spec h hr va [b]).exists_ok
  obtain ⟨hq, hs⟩ := (copyoutLoop_exact hr _ σ va [b] h (le_refl _)).of_ok hrun
  rw [hrun]
  refine ⟨hb.inv, ?_⟩
  have hone : reach (Writable σ r) va [b].length = if Writable σ r (va / pgsize) then 1 else 0 :=
    rfl
  rw [hone] at hq hs
  split
  case isTrue hW =>
    rw [if_pos hW] at hq hs
    exact ⟨hq, hs⟩
  case isFalse hW =>
    rw [if_neg hW] at hq hs
    exact ⟨hq, hs⟩

/-- The page of an address that can be written is below `MAXVA`. -/
theorem Writable.lt (h : Writable σ r (va / pgsize)) : va + 1 < 2 ^ 64 := by
  have := h.1.1
  simp only [pgsize, maxva] at this
  omega

/-- The number of bytes that a read of up to `n` bytes by `p` is still to move. -/
def PipeMem.wanted (t : PipeMem KState) (p : ℕ) (n : ℤ) : ℕ :=
  min (n - (t.pipe.proc p).i).toNat t.pipe.unread.length

/-- What the loop of `piperead` has done when it moved `c` bytes to `va`: if it was to move more,
one has been taken and not stored. -/
structure ReadEnd (t : PipeMem KState) (p r va c wanted : ℕ) (t' : PipeMem KState) : Prop where
  pc : (t'.pipe.proc p).pc = .wake .nwrite 0 (.ret ((t.pipe.proc p).i + c : ℕ))
  nread : t'.pipe.nread = t.pipe.nread + BitVec.ofNat 32 (if c < wanted then c + 1 else c)
  stored : StoredAt t.mem r va t.pipe.unread c t'.mem
  nwrite : t'.pipe.nwrite = t.pipe.nwrite
  data : t'.pipe.data = t.pipe.data

/-- The pipe and the memory after one byte has been moved. -/
def PipeMem.moved (t : PipeMem KState) (p : ℕ) (σ' : KState) : PipeMem KState :=
  ⟨t.pipe.take.setProc p { t.pipe.proc p with i := (t.pipe.proc p).i + 1 }, σ'⟩

theorem PipeMem.moved_i (t : PipeMem KState) (p : ℕ) (σ' : KState) :
    ((t.moved p σ').pipe.proc p).i = (t.pipe.proc p).i + 1 := by
  rw [moved, proc_setProc_self]

theorem PipeMem.wanted_moved (hi : ((t.pipe.proc p).i : ℤ) < n) (he : ¬ t.pipe.Empty)
    (σ' : KState) : t.wanted p n = (t.moved p σ').wanted p n + 1 := by
  have hlen : t.pipe.unread.length = (t.moved p σ').pipe.unread.length + 1 :=
    congrArg length (unread_take he)
  rw [wanted, wanted, moved_i, hlen]
  omega

/-- A byte is moved, and then the loop goes on. -/
theorem ReadEnd.cons {c w : ℕ} {σ' : KState} (h : Inv t.mem g)
    (hr : g.role r = .root) (he : ¬ t.pipe.Empty)
    (hs : StoredAt t.mem r va [t.pipe.data (t.pipe.nread.toNat % pipesize)] 1 σ')
    (hok : ∀ i < 1 + c, Readable t.mem r ((va + i) / pgsize))
    (hend : ReadEnd (t.moved p σ') p r (va + 1) c w t') : ReadEnd t p r va (1 + c) (w + 1) t' := by
  refine ⟨?_, ?_, ?_, hend.nwrite, hend.data⟩
  · rw [hend.pc, PipeMem.moved_i, Nat.add_assoc]
  · have hnread : (t.moved p σ').pipe.nread = t.pipe.nread + 1 := rfl
    rw [hend.nread, hnread, BitVec.add_assoc]
    refine congrArg (t.pipe.nread + ·) ?_
    rw [show (1 : BitVec 32) = BitVec.ofNat 32 1 from rfl, ← BitVec.ofNat_add]
    refine congrArg (BitVec.ofNat 32) ?_
    split_ifs <;> omega
  · rw [PipeSys.unread_take he]
    exact hs.append h hr hend.stored rfl hok

/-- **The loop of `piperead`** moves the bytes before the first page that cannot be written. -/
theorem pipereadLoop_spec (hr : g.role r = .root) : ∀ (fuel : ℕ) (t : PipeMem KState), Inv t.mem g →
    (n - (t.pipe.proc p).i).toNat < fuel → addr + (t.pipe.proc p).i < 2 ^ 64 →
    Ensures (pipereadLoop (copyoutByte r addr) p n fuel t) (fun _ t' =>
      ReadEnd t p r (addr + (t.pipe.proc p).i)
        (reach (Writable t.mem r) (addr + (t.pipe.proc p).i) (t.wanted p n)) (t.wanted p n) t')
      fun _ => False := by
  intro fuel
  induction fuel with
  | zero => intro t _ hf; exact absurd hf (not_lt_zero _)
  | succ fuel ih =>
    intro t h hf haddr
    rw [pipereadLoop, bind_read, Run.ite_apply]
    split
    case isTrue hgo =>
      obtain ⟨q, σ', hrun, hinv, hq⟩ := (copyout_one h hr (addr + (t.pipe.proc p).i)
        (t.pipe.data (t.pipe.nread.toNat % pipesize))).exists_ok
      have hw := wanted_moved hgo.1 hgo.2 σ'
      have hcopy : copyoutByte r addr (t.pipe.proc p).i
        (t.pipe.data (t.pipe.nread.toNat % pipesize))
          t.mem = .ok (q, σ') := by rw [copyoutByte, copyoutAt, mod_eq_of_lt haddr, hrun]
      rw [bind_ok (Run.zoom_ok hcopy), bind_modify, Run.ite_apply]
      split at hq
      case isTrue hW =>
        obtain ⟨rfl, hs⟩ := hq
        rw [if_neg (by decide), show decide ((0 : ℤ) ≠ -1) = true from rfl, readRound_true hgo]
        have hnext := ih (t.moved p σ') hinv (by rw [moved_i]; omega)
          (by rw [moved_i]; have := hW.lt; omega)
        have hreach : reach (Writable t.mem r) (addr + (t.pipe.proc p).i) (t.wanted p n) =
            1 + reach (Writable (t.moved p σ').mem r) (addr + (t.pipe.proc p).i + 1)
              ((t.moved p σ').wanted p n) := by
          have hk : (t.moved p σ').mem = σ' := rfl
          rw [hw, reach, if_pos hW, add_comm, hk, reach_congr (writable_congr hs.leaf)]
        rw [moved_i, ← add_assoc] at hnext
        refine hnext.imp fun _ t' hend => ?_
        have hok : ∀ i < reach (Writable t.mem r) (addr + (t.pipe.proc p).i) (t.wanted p n),
            Readable t.mem r ((addr + (t.pipe.proc p).i + i) / pgsize) :=
          fun i hi => (ok_of_lt_reach hi).1
        rw [hreach] at hok ⊢
        rw [hw]
        exact .cons h hr hgo.2 hs hok hend
      case isFalse hW =>
        obtain ⟨rfl, hs⟩ := hq
        rw [if_pos rfl, show decide ((-1 : ℤ) ≠ -1) = false from rfl, readRound_false hgo,
          reach_of_not hW, hw]
        refine ⟨by simp, rfl, ?_, rfl, rfl⟩
        rw [unread_take hgo.2]
        exact hs.extend _
    case isFalse hstop =>
      have hw : t.wanted p n = 0 := by
        rw [wanted]
        by_cases hi : ((t.pipe.proc p).i : ℤ) < n
        · have he : t.pipe.Empty := by
            by_contra hne
            exact hstop ⟨hi, hne⟩
          rw [unread_eq_nil_iff.2 he]
          exact min_zero _
        · omega
      rw [modify_apply, readRound_stop hstop, hw]
      exact ⟨by simp [reach], (BitVec.add_zero _).symm, .zero .., rfl, rfl⟩

/-- What a call of `piperead` does that does not wait. -/
theorem piperead_spec (h : Inv t.mem g) (hr : g.role r = .root)
    (hi : (t.pipe.proc p).i = 0) (haddr : addr < 2 ^ 64)
    (hgo : ¬ (t.pipe.Empty ∧ t.pipe.writeopen = true)) :
    Ensures (piperead (copyoutByte r addr) p n t) (fun _ t' =>
      ReadEnd t p r addr (reach (Writable t.mem r) addr (min n.toNat t.pipe.unread.length))
        (min n.toNat t.pipe.unread.length) t') fun _ => False := by
  have hwait : t.pipe.readWait p = t.pipe.goto p .copy := if_neg hgo
  have hi' : ((t.pipe.goto p .copy).proc p).i = 0 := by rw [proc_goto_self]; exact hi
  rw [piperead, bind_modify, hwait, bind_read, proc_goto_self, if_pos rfl]
  refine (pipereadLoop_spec hr _ ⟨t.pipe.goto p .copy, t.mem⟩ h (by dsimp only; omega)
    (by dsimp only; omega)).imp fun _ t' hend => ?_
  have hw : wanted ⟨t.pipe.goto p .copy, t.mem⟩ p n = min n.toNat t.pipe.unread.length := by
    rw [wanted, hi', Int.natCast_zero, Int.sub_zero]
    rfl
  rw [hw, hi', add_zero] at hend
  refine ⟨?_, hend.nread, hend.stored, hend.nwrite, hend.data⟩
  rw [hend.pc, hi', hi]

/-- A call of `piperead` that waits leaves the memory as it is, and returns only if killed. -/
theorem piperead_wait (hgo : t.pipe.Empty ∧ t.pipe.writeopen = true) :
    Ensures (piperead (copyoutByte r addr) p n t) (fun _ t' => ∀ i : ℕ,
      (t'.pipe.proc p).pc ≠ .wake .nwrite 0 (.ret i)) fun _ => False := by
  rw [piperead, bind_modify, bind_read, readWait, if_pos hgo]
  by_cases hk : (t.pipe.proc p).killed = true
  · have hpc : ((t.pipe.ret p (-1)).proc p).pc = .idle := by simp [ret]
    rw [if_pos hk, hpc, if_neg (by decide)]
    intro i
    rw [hpc]
    exact PipePc.noConfusion
  · have hpc : ((t.pipe.release.goto p (.slept .nread)).proc p).pc = .slept .nread := by simp
    rw [if_neg hk, hpc, if_neg (by decide)]
    intro i
    rw [hpc]
    exact PipePc.noConfusion

/-- **A read delivers what it takes**: if it returns `i ≥ 0`, it has advanced `nread` by `i` and
stored exactly these `i` bytes, and the others are still in the pipe. -/
def Delivers (p : ℕ) (n : ℤ) (r addr : ℕ) (t : PipeMem KState) : Prop :=
  Ensures (piperead (copyoutByte r addr) p n t) (fun _ t' => ∀ i : ℕ,
    (t'.pipe.proc p).pc = .wake .nwrite 0 (.ret i) →
    t'.pipe.nread = t.pipe.nread + BitVec.ofNat 32 i ∧
    StoredAt t.mem r addr t.pipe.unread i t'.mem ∧
    t'.pipe.unread = t.pipe.unread.drop i) fun _ => False

/-- The bytes in a pipe after `i` have been taken. -/
theorem PipeSys.unread_drop {s' : PipeSys} {i : ℕ} (hle : i ≤ s.unread.length)
    (hd : s'.data = s.data) (hw : s'.nwrite = s.nwrite)
    (hn : s'.nread = s.nread + BitVec.ofNat 32 i) : s'.unread = s.unread.drop i := by
  rw [length_unread] at hle
  have hlen : (s'.nwrite - s'.nread).toNat = (s.nwrite - s.nread).toNat - i := by
    rw [hw, hn]
    bv_omega
  refine ext_getElem (by rw [length_unread, length_drop, length_unread, hlen]) ?_
  intro j _ _
  simp only [unread, getElem_drop, getElem_map, getElem_range, hd, hn, pipesize,
    toNat_add, toNat_ofNat]
  refine congrArg s.data ?_
  omega

/-- If a byte of its destination cannot be written, a read takes a byte that it does not store. -/
theorem not_delivers (h : Inv t.mem g) (hr : g.role r = .root)
    (hi : (t.pipe.proc p).i = 0) (haddr : addr < 2 ^ 64)
    (hlt : reach (Writable t.mem r) addr (min n.toNat t.pipe.unread.length) <
      min n.toNat t.pipe.unread.length) : ¬ Delivers p n r addr t := by
  intro hall
  have hne : ¬ t.pipe.Empty := fun he => by
    rw [unread_eq_nil_iff.2 he, length_nil] at hlt
    omega
  obtain ⟨⟨⟩, t', hrun, hend⟩ := (piperead_spec h hr hi haddr fun hgo => hne hgo.1).exists_ok
  have hret := hend.pc
  rw [hi, zero_add] at hret
  rw [Delivers, hrun, Ensures.ok_iff] at hall
  have hnread := (hall _ hret).1
  rw [hend.nread, if_pos hlt] at hnread
  bv_omega

/-- **A failing read loses a byte**: a read delivers what it takes exactly if all bytes of its
destination can be written, as many as it asks for and the pipe holds. -/
theorem piperead_delivers_iff {t : PipeMem KState} (h : Inv t.mem g) (hr : g.role r = .root)
    (hi : (t.pipe.proc p).i = 0) (haddr : addr < 2 ^ 64) :
    Delivers p n r addr t ↔ ∀ x, addr ≤ x → x < addr + min n.toNat t.pipe.unread.length →
      Writable t.mem r (x / pgsize) := by
  rw [← reach_eq_iff]
  constructor
  · intro hall
    by_contra hne
    exact not_delivers h hr hi haddr (Nat.lt_of_le_of_ne reach_le hne) hall
  · intro hall
    by_cases hgo : t.pipe.Empty ∧ t.pipe.writeopen = true
    · exact (piperead_wait hgo).imp fun _ t' hne i hpc => absurd hpc (hne i)
    · refine (piperead_spec h hr hi haddr hgo).imp fun _ t' hend i hpc => ?_
      have hret := hend.pc
      have hnread := hend.nread
      have hstored := hend.stored
      rw [hpc, hi, zero_add] at hret
      rw [if_neg (by omega)] at hnread
      cases hret
      exact ⟨hnread, hstored, unread_drop (by omega) hend.data hend.nwrite hnread⟩

/-- A reader that holds the lock of a pipe with a byte in it. -/
theorem pipe_byte : ∃ s, (pipes 2).Reachable s ∧ (s.proc 0).pc = .loop ∧ (s.proc 0).i = 0 ∧
    s.unread = [5] := by
  obtain ⟨s, hs, ht⟩ := Machine.Reachable.test (M := pipes 2)
    (fun e s => of_decide_eq_true (p := e.Ok 2 s))
    (.init (s := .new 0) ⟨rfl, rfl, rfl, rfl, rfl, fun _ => rfl, rfl, rfl, rfl⟩)
    ([.invoke 1 (.write (fun _ => 5) 1), .invoke 0 (.read 1)] ++
      replicate 6 (.step 1 true) ++ [.step 0 true])
    (t := fun s => (s.proc 0).pc = .loop ∧ (s.proc 0).i = 0 ∧ s.unread = [5])
    (by decide +kernel)
  exact ⟨s, hs, of_decide_eq_true ht⟩

/-- **The byte is lost** when the first process reads it to the address where its memory ends. -/
theorem piperead_loses : ∃ w s, system.Reachable w ∧ (pipes 2).Reachable s ∧
    (s.proc 0).pc = .loop ∧ s.unread = [5] ∧
    ¬ Delivers 0 1 (w.sys.proc 0).pagetable 4096 ⟨s, w.sys.k⟩ := by
  obtain ⟨s, hs, hpc, hi, hu⟩ := pipe_byte
  obtain ⟨w, _, g, hw, rfl, h, hr, -, hW⟩ := first_page
  refine ⟨w, s, hw, hs, hpc, hu, not_delivers h hr hi (by decide) ?_⟩
  dsimp only
  rw [hu, reach_of_not hW]
  decide

/-- The byte is delivered when it is read to the first byte of the memory. -/
theorem piperead_delivers_first : ∃ w s, system.Reachable w ∧ (pipes 2).Reachable s ∧
    (s.proc 0).pc = .loop ∧ s.unread = [5] ∧
    Delivers 0 1 (w.sys.proc 0).pagetable 0 ⟨s, w.sys.k⟩ := by
  obtain ⟨s, hs, hpc, hi, hu⟩ := pipe_byte
  obtain ⟨w, _, g, hw, rfl, h, hr, hW, -⟩ := first_page
  refine ⟨w, s, hw, hs, hpc, hu, (piperead_delivers_iff h hr hi (by decide)).2 fun x _ hx => ?_⟩
  dsimp only at hx
  rw [hu] at hx
  obtain rfl : x = 0 := lt_one_iff.1 hx
  exact hW

end Xv6Swap
