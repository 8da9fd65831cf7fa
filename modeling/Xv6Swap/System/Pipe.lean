import Xv6Swap.Kernel.Pipe

/-!
# A pipe is a queue

* `PipeSys.Stepped` : everything that a step of a process can be;
* `PipeSys.Locked` : a process inside the critical section holds the lock, so there is at most one;
* `PipeSys.Queue` : the counters count the bytes taken and stored, modulo `2 ^ 32`, and the buffer
  holds the bytes in between;
* `pipe_fifo` : **in every run the bytes taken are a prefix of the bytes stored**, and the rest of
  those is what the buffer holds.
-/

namespace Xv6Swap

open List Nat

/-- The positions at which a process holds the lock of the pipe. -/
def PipePc.Holds : PipePc → Prop
  | .loop | .copy | .wake _ _ _ => True
  | _ => False

namespace PipeSys

variable {np base : ℕ} {s s' : PipeSys} {p q : ℕ} {ok : Bool} {x y : PipeProc} {pc : PipePc}

/-! ### The steps -/

/-- What a step of the process `p` can be, with the conditions under which it is taken. -/
inductive Stepped (np : ℕ) (s : PipeSys) (p : ℕ) (ok : Bool) : PipeSys → Prop where
  | enter (hpc : (s.proc p).pc = .acquire) (hlock : s.lock = none)
      (hcall : ∀ w, (s.proc p).call ≠ .close w) :
      Stepped np s p ok ({ s with lock := some p }.setProc p
        { s.proc p with pc := .loop, since := (s.proc p).i })
  | closeEnd {w : Bool} (hpc : (s.proc p).pc = .acquire) (hlock : s.lock = none)
      (hcall : (s.proc p).call = .close w) :
      Stepped np s p ok ({ s with lock := some p }.closeEnd p w)
  | giveUp {src : ℕ → Byte} {n : ℤ} (hpc : (s.proc p).pc = .loop)
      (hcall : (s.proc p).call = .write src n) (hi : (s.proc p).i < n)
      (hend : s.readopen = false ∨ (s.proc p).killed) : Stepped np s p ok (s.ret p (-1))
  | full {src : ℕ → Byte} {n : ℤ} (hpc : (s.proc p).pc = .loop)
      (hcall : (s.proc p).call = .write src n) (hi : (s.proc p).i < n)
      (hend : s.readopen = true) (hfull : s.Full) :
      Stepped np s p ok (s.goto p (.wake .nread 0 (.sleep .nwrite)))
  | store {src : ℕ → Byte} {n : ℤ} (hpc : (s.proc p).pc = .loop)
      (hcall : (s.proc p).call = .write src n) (hi : (s.proc p).i < n)
      (hend : s.readopen = true ∧ (s.proc p).killed = false) (hfull : ¬ s.Full) :
      Stepped np s p ok (s.store p (src (s.proc p).i))
  | doneWrite {src : ℕ → Byte} {n : ℤ} (hpc : (s.proc p).pc = .loop)
      (hcall : (s.proc p).call = .write src n) :
      Stepped np s p ok (s.goto p (.wake .nread 0 (.ret (s.proc p).i)))
  | quit {n : ℤ} (hpc : (s.proc p).pc = .loop) (hcall : (s.proc p).call = .read n) :
      Stepped np s p ok (s.ret p (-1))
  | wait {n : ℤ} (hpc : (s.proc p).pc = .loop) (hcall : (s.proc p).call = .read n)
      (hempty : s.Empty) (hopen : s.writeopen = true) :
      Stepped np s p ok (s.release.goto p (.slept .nread))
  | copy {n : ℤ} (hpc : (s.proc p).pc = .loop) (hcall : (s.proc p).call = .read n)
      (hready : ¬ (s.Empty ∧ s.writeopen = true)) : Stepped np s p ok (s.goto p .copy)
  | take {n : ℤ} (hpc : (s.proc p).pc = .copy) (hcall : (s.proc p).call = .read n)
      (hi : (s.proc p).i < n) (hempty : ¬ s.Empty) :
      Stepped np s p ok (s.take.setProc p { s.proc p with i := (s.proc p).i + 1 })
  | lose {n : ℤ} (hpc : (s.proc p).pc = .copy) (hcall : (s.proc p).call = .read n)
      (hempty : ¬ s.Empty) (hok : ok = false) :
      Stepped np s p ok (s.take.goto p (.wake .nwrite 0 (.ret (s.proc p).i)))
  | doneRead {n : ℤ} (hpc : (s.proc p).pc = .copy) (hcall : (s.proc p).call = .read n)
      (hend : ¬ ((s.proc p).i < n ∧ ¬ s.Empty)) :
      Stepped np s p ok (s.goto p (.wake .nwrite 0 (.ret (s.proc p).i)))
  | wake {c : Chan} {j : ℕ} {next : PipeNext} (hpc : (s.proc p).pc = .wake c j next) (hj : j < np)
      (hfree : j = p ∨ ¬ s.InSleep j) :
      Stepped np s p ok ((s.wakeOne p c j).goto p (.wake c (j + 1) next))
  | sleep {c c' : Chan} {j : ℕ} (hpc : (s.proc p).pc = .wake c j (.sleep c')) (hj : ¬ j < np) :
      Stepped np s p ok (s.release.goto p (.slept c'))
  | ret {c : Chan} {j : ℕ} {r : ℤ} (b : Bool) (hpc : (s.proc p).pc = .wake c j (.ret r))
      (hj : ¬ j < np) : Stepped np s p ok { s.ret p r with freed := b }
  | nod {c : Chan} (hpc : (s.proc p).pc = .slept c) : Stepped np s p ok (s.goto p (.asleep c))
  | stuck : Stepped np s p ok s

theorem step_stepped (h : s.Ready np p) : Stepped np s p ok (s.step np p ok) := by
  unfold Ready at h
  cases hpc : (s.proc p).pc with
  | idle => rw [hpc] at h; exact h.elim
  | asleep c => rw [hpc] at h; exact h.elim
  | acquire =>
    rw [hpc] at h
    simp only [step, hpc, enter]
    split
    · rename_i w hcall
      exact .closeEnd hpc h hcall
    · rename_i hcall
      exact .enter hpc h hcall
  | loop =>
    cases hcall : (s.proc p).call with
    | write src n =>
      simp only [step, hpc, hcall, writeRound]
      split_ifs with hi hend hfull hok
      · exact .giveUp hpc hcall hi hend
      · simp only [not_or, Bool.not_eq_false, Bool.not_eq_true] at hend
        exact .full hpc hcall hi hend.1 hfull
      · simp only [not_or, Bool.not_eq_false, Bool.not_eq_true] at hend
        exact .store hpc hcall hi hend hfull
      · exact .doneWrite hpc hcall
      · exact .doneWrite hpc hcall
    | read n =>
      simp only [step, hpc, hcall, readWait]
      split_ifs with hwait hk
      · exact .quit hpc hcall
      · exact .wait hpc hcall hwait.1 hwait.2
      · exact .copy hpc hcall hwait
    | close w =>
      simp only [step, hpc, hcall]
      exact .stuck
  | copy =>
    cases hcall : (s.proc p).call with
    | read n =>
      have hstep : s.step np p ok = s.readRound p n ok := by simp only [step, hpc, hcall]
      rw [hstep, readRound]
      split_ifs with hi hok
      · exact .take hpc hcall hi.1 hi.2
      · exact .lose hpc hcall hi.2 (by simpa using hok)
      · exact .doneRead hpc hcall hi
    | write src n =>
      simp only [step, hpc, hcall]
      exact .stuck
    | close w =>
      simp only [step, hpc, hcall]
      exact .stuck
  | wake c j next =>
    rw [hpc] at h
    simp only at h
    simp only [step, hpc]
    split_ifs at h ⊢ with hj
    · exact .wake hpc hj h
    · cases next with
      | sleep c' => exact .sleep hpc hj
      | ret r =>
        simp only [PipeSys.next]
        split
        · exact .ret _ hpc hj
        · exact .ret s.freed hpc hj
  | slept c =>
    simp only [step, hpc]
    exact .nod hpc

/-! ### What a step leaves alone -/

@[simp] theorem proc_setProc_self (x : PipeProc) : (s.setProc p x).proc p = x := by
  simp [setProc]

theorem proc_setProc_of_ne (x : PipeProc) (h : q ≠ p) : (s.setProc p x).proc q = s.proc q := by
  simp [setProc, h]

@[simp] theorem release_proc : s.release.proc = s.proc := rfl

@[simp] theorem proc_goto_self (pc : PipePc) : (s.goto p pc).proc p = { s.proc p with pc } := by
  simp [goto]

theorem proc_goto_of_ne (pc : PipePc) (h : q ≠ p) : (s.goto p pc).proc q = s.proc q :=
  proc_setProc_of_ne _ h

/-- A process stays where it is, or is woken; its call is the same. -/
structure Woken (x y : PipeProc) : Prop where
  id : y.id = x.id
  call : y.call = x.call
  i : y.i = x.i
  pc : y.pc = x.pc ∨ ∃ c, x.pc = .asleep c ∧ y.pc = .acquire

theorem Woken.refl (x : PipeProc) : Woken x x := ⟨rfl, rfl, rfl, .inl rfl⟩

theorem Woken.of_eq (h : y = x) : Woken x y := h ▸ .refl x

theorem Woken.holds (h : Woken x y) (hy : y.pc.Holds) : y.pc = x.pc := by
  rcases h.pc with h | ⟨c, -, hc⟩
  · exact h
  · rw [hc] at hy
    exact hy.elim

theorem Woken.idle (h : Woken x y) : y.pc = .idle ↔ x.pc = .idle := by
  rcases h.pc with h | ⟨c, hc, hy⟩
  · rw [h]
  · simp [hc, hy]

theorem wakeOne_other (c : Chan) (j : ℕ) : Woken (s.proc q) ((s.wakeOne p c j).proc q) := by
  unfold wakeOne
  split
  · rename_i hj
    rcases eq_or_ne q j with rfl | hq
    · rw [proc_goto_self]
      exact ⟨rfl, rfl, rfl, .inr ⟨c, hj.2, rfl⟩⟩
    · exact .of_eq (proc_goto_of_ne _ hq)
  · exact .refl _

theorem wakeOne_self (c : Chan) (j : ℕ) : (s.wakeOne p c j).proc p = s.proc p := by
  unfold wakeOne
  split
  · rename_i hj
    exact proc_goto_of_ne _ (Ne.symm hj.1)
  · rfl

theorem closeEnd_other (w : Bool) (h : q ≠ p) : (s.closeEnd p w).proc q = s.proc q := by
  cases w <;> exact proc_goto_of_ne _ h

theorem Stepped.other (h : Stepped np s p ok s') (hq : q ≠ p) : Woken (s.proc q) (s'.proc q) := by
  cases h with
  | enter => exact .of_eq (proc_setProc_of_ne _ hq)
  | closeEnd => exact .of_eq (closeEnd_other _ hq)
  | wake => rw [proc_goto_of_ne _ hq]; exact wakeOne_other _ _
  | stuck => exact .refl _
  | store | take => exact .of_eq (proc_setProc_of_ne _ hq)
  | ret | giveUp | quit => exact .of_eq (proc_goto_of_ne _ hq)
  | full | doneWrite | wait | copy | lose | doneRead | sleep | nod =>
    exact .of_eq (proc_goto_of_ne _ hq)

/-! ### Mutual exclusion -/

/-- A process inside the critical section holds the lock. -/
def Locked (s : PipeSys) : Prop := ∀ p, (s.proc p).pc.Holds → s.lock = some p

theorem locked_of (hs : s.Locked) (hl : s.lock = some p ∨ s.lock = none)
    (hother : ∀ q ≠ p, Woken (s.proc q) (s'.proc q))
    (hself : (s'.proc p).pc.Holds → s'.lock = some p) : s'.Locked := by
  intro q hq
  rcases eq_or_ne q p with rfl | hne
  · exact hself hq
  · -- another holder would have held the lock before
    rw [(hother q hne).holds hq] at hq
    have := hs q hq
    rcases hl with hl | hl
    · rw [hl] at this
      exact absurd (Option.some.inj this).symm hne
    · rw [hl] at this
      cases this

theorem closeEnd_self (w : Bool) : ((s.closeEnd p w).proc p) =
    { s.proc p with pc := .wake (if w then .nread else .nwrite) 0 (.ret 0) } := by
  cases w <;> simp [closeEnd]

theorem closeEnd_lock (w : Bool) : (s.closeEnd p w).lock = s.lock := by
  cases w <;> rfl

theorem Stepped.locked (h : Stepped np s p ok s') (hs : s.Locked) : s'.Locked := by
  have hold : ∀ {pc : PipePc}, (s.proc p).pc = pc → pc.Holds → s.lock = some p := fun hpc hh =>
    hs p (hpc ▸ hh)
  have hother : ∀ q ≠ p, Woken (s.proc q) (s'.proc q) := fun q hq => h.other hq
  cases h with
  | enter hpc hlock => exact locked_of hs (.inr hlock) hother fun _ => rfl
  | closeEnd hpc hlock => exact locked_of hs (.inr hlock) hother fun _ => closeEnd_lock _
  | giveUp hpc | quit hpc =>
    exact locked_of hs (.inl (hold hpc trivial)) hother fun hh => by
      simp [PipeSys.ret, PipePc.Holds] at hh
  | ret b hpc =>
    exact locked_of hs (.inl (hold hpc trivial)) hother fun hh => by
      simp [PipeSys.ret, PipePc.Holds] at hh
  | wait hpc | sleep hpc =>
    exact locked_of hs (.inl (hold hpc trivial)) hother fun hh => by simp [PipePc.Holds] at hh
  | full hpc | store hpc | doneWrite hpc | copy hpc | take hpc | lose hpc | doneRead hpc =>
    exact locked_of hs (.inl (hold hpc trivial)) hother fun _ => hold hpc trivial
  | @wake c j next hpc =>
    refine locked_of hs (.inl (hold hpc trivial)) hother fun _ => ?_
    have hl : (s.wakeOne p c j).lock = s.lock := by
      unfold wakeOne
      split <;> rfl
    exact hl.trans (hold hpc trivial)
  | nod hpc =>
    intro q hq
    rcases eq_or_ne q p with rfl | hne
    · simp [PipePc.Holds] at hq
    · rw [proc_goto_of_ne _ hne] at hq
      exact hs q hq
  | stuck => exact hs

/-! ### The buffer -/

/-- The counters count the bytes from `base` on, modulo `2 ^ 32`; the buffer holds the bytes stored
and not yet taken. -/
structure Buffered (s : PipeSys) (base : ℕ) : Prop where
  nread : s.nread = BitVec.ofNat 32 (base + s.taken.length)
  nwrite : s.nwrite = BitVec.ofNat 32 (base + s.stored.length)
  le : s.taken.length ≤ s.stored.length
  room : s.stored.length ≤ s.taken.length + pipesize
  taken : s.taken = (s.stored.map Prod.snd).take s.taken.length
  data : ∀ j (hj : j < s.stored.length), s.taken.length ≤ j →
    s.data ((base + j) % pipesize) = s.stored[j].2

namespace Buffered

variable {base : ℕ}

theorem empty_iff (h : s.Buffered base) : s.Empty ↔ s.taken.length = s.stored.length := by
  have hle := h.le
  have hroom := h.room
  simp only [pipesize] at hroom
  rw [Empty, h.nread, h.nwrite, ← BitVec.toNat_inj, BitVec.toNat_ofNat, BitVec.toNat_ofNat]
  omega

theorem full_iff (h : s.Buffered base) : s.Full ↔ s.stored.length = s.taken.length + pipesize := by
  have hle := h.le
  have hroom := h.room
  rw [Full, h.nread, h.nwrite, ← BitVec.toNat_inj, BitVec.toNat_add, BitVec.toNat_ofNat,
    BitVec.toNat_ofNat, BitVec.toNat_ofNat]
  simp only [pipesize] at hroom ⊢
  omega

theorem congr (h : s.Buffered base) (hd : s'.data = s.data) (hr : s'.nread = s.nread)
    (hw : s'.nwrite = s.nwrite) (hs : s'.stored = s.stored) (ht : s'.taken = s.taken) :
    s'.Buffered base := by
  obtain ⟨h1, h2, h3, h4, h5, h6⟩ := h
  constructor
  · rw [hr, ht, h1]
  · rw [hw, hs, h2]
  · rwa [hs, ht]
  · rwa [hs, ht]
  · rwa [hs, ht]
  · simpa only [hd, hs, ht] using h6

theorem slot (n : ℕ) : (BitVec.ofNat 32 n).toNat % pipesize = n % pipesize := by
  rw [BitVec.toNat_ofNat, pipesize]
  omega

/-- A byte goes into the slot after the last one: no slot in use has the same index. -/
theorem store (h : s.Buffered base) (hfull : ¬ s.Full) (ch : Byte) :
    (s.store p ch).Buffered base := by
  have hlt : s.stored.length < s.taken.length + pipesize :=
    lt_of_le_of_ne h.room fun he => hfull (h.full_iff.2 he)
  have hle := h.le
  refine ⟨h.nread, ?_, ?_, ?_, ?_, ?_⟩
  · change s.nwrite + 1 = BitVec.ofNat 32 (base + (s.stored ++ [_]).length)
    rw [h.nwrite, length_append, length_singleton, ← add_assoc]
    exact (BitVec.ofNat_add _ _).symm
  · change s.taken.length ≤ (s.stored ++ [_]).length
    rw [length_append]
    omega
  · change (s.stored ++ [_]).length ≤ s.taken.length + pipesize
    rw [length_append, length_singleton]
    omega
  · change s.taken = ((s.stored ++ [_]).map Prod.snd).take s.taken.length
    rw [map_append, take_append_of_le_length (by simpa using hle)]
    exact h.taken
  · intro j hj htj
    change j < (s.stored ++ [_]).length at hj
    change s.taken.length ≤ j at htj
    change Function.update s.data (s.nwrite.toNat % pipesize) ch ((base + j) % pipesize) =
      ((s.stored ++ [((s.proc p).id, ch)]).get ⟨j, hj⟩).2
    rw [h.nwrite, slot]
    rw [length_append, length_singleton] at hj
    rcases Nat.lt_succ_iff_lt_or_eq.1 hj with hj' | rfl
    · have hne : (base + j) % pipesize ≠ (base + s.stored.length) % pipesize := by
        simp only [pipesize] at hlt ⊢
        omega
      rw [Function.update_of_ne hne, h.data j hj' htj]
      simp [getElem_append_left hj']
    · simp

/-- The next byte to be taken is the first one not yet taken. -/
theorem head (h : s.Buffered base) (hempty : ¬ s.Empty) : ∃ hlt : s.taken.length < s.stored.length,
      s.data (s.nread.toNat % pipesize) = (s.stored[s.taken.length]).2 := by
  have hlt : s.taken.length < s.stored.length :=
    lt_of_le_of_ne h.le fun he => hempty (h.empty_iff.2 he)
  refine ⟨hlt, ?_⟩
  rw [h.nread, slot]
  exact h.data _ hlt le_rfl

theorem take (h : s.Buffered base) (hempty : ¬ s.Empty) : s.take.Buffered base := by
  obtain ⟨hlt, hhead⟩ := h.head hempty
  have hroom := h.room
  have hlen : s.take.taken.length = s.taken.length + 1 := by simp [PipeSys.take]
  refine ⟨?_, h.nwrite, ?_, ?_, ?_, fun j hj htj => ?_⟩
  · rw [hlen, ← add_assoc]
    change s.nread + 1 = _
    rw [h.nread]
    exact (BitVec.ofNat_add _ _).symm
  · rw [hlen]
    exact hlt
  · rw [hlen]
    change s.stored.length ≤ _
    omega
  · rw [hlen, take_add_one]
    change s.taken ++ [s.data (s.nread.toNat % pipesize)] =
      (s.stored.map Prod.snd).take s.taken.length ++ (s.stored.map Prod.snd)[s.taken.length]?.toList
    rw [← h.taken, hhead]
    simp [hlt]
  · rw [hlen] at htj
    exact h.data j hj (by omega)

end Buffered

/-- The bytes in the buffer. -/
def unread (s : PipeSys) : List Byte :=
  (range (s.nwrite - s.nread).toNat).map fun j => s.data ((s.nread.toNat + j) % pipesize)

theorem Buffered.count (h : s.Buffered base) :
    (s.nwrite - s.nread).toNat = s.stored.length - s.taken.length := by
  have hle := h.le
  have hroom := h.room
  simp only [pipesize] at hroom
  rw [h.nread, h.nwrite, BitVec.toNat_sub, BitVec.toNat_ofNat, BitVec.toNat_ofNat]
  omega

theorem Buffered.unread_eq (h : s.Buffered base) :
    s.unread = (s.stored.map Prod.snd).drop s.taken.length := by
  have hlen : s.unread.length = ((s.stored.map Prod.snd).drop s.taken.length).length := by
    simp [unread, h.count]
  refine ext_getElem hlen fun j hj hj' => ?_
  have hlt : s.taken.length + j < s.stored.length := by
    simp only [length_drop, length_map] at hj'
    omega
  simp only [unread, getElem_map, getElem_range, getElem_drop]
  rw [← h.data _ hlt (le_add_right _ _), h.nread, BitVec.toNat_ofNat]
  congr 1
  simp only [pipesize]
  omega

theorem Buffered.taken_append_unread (h : s.Buffered base) :
    s.taken ++ s.unread = s.stored.map Prod.snd := by
  rw [h.unread_eq]
  nth_rewrite 1 [h.taken]
  exact take_append_drop _ _

/-! ### The calls -/

/-- The bytes stored by a call. -/
def bytesOf (s : PipeSys) (id : ℕ) : List Byte :=
  (s.stored.filter fun e => e.1 = id).map Prod.snd

/-- What is known of a process from the call that it is in: a writer has stored the first `i` bytes
of its buffer, a reader that has taken nothing is about to return with the pipe empty and closed. -/
def Good (s : PipeSys) (x : PipeProc) : Prop :=
  match x.call with
  | .write src _ => s.bytesOf x.id = (range x.i).map src ∧
      ∀ c j r, x.pc = .wake c j (.ret r) → r = x.i
  | .read n => (x.pc = .acquire ∨ x.pc = .loop ∨ (∃ c, x.pc = .slept c ∨ x.pc = .asleep c) →
        x.i = 0) ∧
      (x.pc = .copy → x.i = 0 → ¬ (s.Empty ∧ s.writeopen = true)) ∧
      (∀ c j r, x.pc = .wake c j (.ret r) → 0 < n → r = 0 → s.Empty ∧ s.writeopen = false) ∧
      ∀ c j c', x.pc ≠ .wake c j (.sleep c')
  | .close _ => True

/-- What a call that has returned has done. -/
def Returned (s : PipeSys) (r : PipeRet) : Prop :=
  match r.call with
  | .write src _ => 0 ≤ r.result → s.bytesOf r.id = (range r.result.toNat).map src
  | .read n => 0 < n → r.result = 0 → r.empty = true ∧ r.closed = true
  | .close _ => True

theorem Good.mono (h : s.Good x) (hb : s'.bytesOf x.id = s.bytesOf x.id)
    (hh : x.pc.Holds → (s'.Empty ↔ s.Empty) ∧ s'.writeopen = s.writeopen) : s'.Good x := by
  unfold Good at h ⊢
  split
  · rename_i hcall
    rw [hcall] at h
    rwa [hb]
  · rename_i n hcall
    rw [hcall] at h
    refine ⟨h.1, fun hpc hi => ?_, fun c j r hpc hn hr => ?_, h.2.2.2⟩
    · obtain ⟨he, hw⟩ := hh (by rw [hpc]; trivial)
      rw [he, hw]
      exact h.2.1 hpc hi
    · obtain ⟨he, hw⟩ := hh (by rw [hpc]; trivial)
      rw [he, hw]
      exact h.2.2.1 c j r hpc hn hr
  · trivial

theorem Good.woken (h : s.Good x) (hw : Woken x y) : s.Good y := by
  have hpc : ∀ pc : PipePc, y.pc = pc → pc ≠ .acquire → x.pc = pc := fun pc hy hne => by
    rcases hw.pc with h' | ⟨c, -, hc⟩
    · exact h' ▸ hy
    · exact absurd (hy.symm.trans hc) hne
  unfold Good at h ⊢
  rw [hw.call, hw.id, hw.i]
  split
  · rename_i hcall
    rw [hcall] at h
    exact ⟨h.1, fun c j r hy => h.2 c j r (hpc _ hy (by simp))⟩
  · rename_i n hcall
    rw [hcall] at h
    refine ⟨fun hy => h.1 ?_, fun hy => h.2.1 (hpc _ hy (by simp)),
      fun c j r hy => h.2.2.1 c j r (hpc _ hy (by simp)),
      fun c j c' hy => h.2.2.2 c j c' (hpc _ hy (by simp))⟩
    rcases hw.pc with hy' | ⟨c, hc, -⟩
    · rwa [hy'] at hy
    · exact .inr (.inr ⟨c, .inr hc⟩)
  · trivial

/-- The invariant of the runs in which copies succeed. -/
structure Queue (s : PipeSys) : Prop where
  locked : s.Locked
  buffered : ∃ base, s.Buffered base
  good : ∀ p, (s.proc p).pc ≠ .idle → s.Good (s.proc p)
  id_lt : ∀ p, (s.proc p).pc ≠ .idle → (s.proc p).id < s.calls
  id_inj : ∀ p q, (s.proc p).pc ≠ .idle → (s.proc q).pc ≠ .idle → (s.proc p).id = (s.proc q).id →
    p = q
  stored_lt : ∀ e ∈ s.stored, e.1 < s.calls
  ret_lt : ∀ r ∈ s.rets, r.id < s.calls
  ret_ne : ∀ r ∈ s.rets, ∀ p, (s.proc p).pc ≠ .idle → (s.proc p).id ≠ r.id
  returned : ∀ r ∈ s.rets, s.Returned r

theorem Locked.not_holds (h : s.Locked) (hl : s.lock = some p ∨ s.lock = none) (hq : q ≠ p) :
    ¬ (s.proc q).pc.Holds := by
  intro hh
  have := h q hh
  rcases hl with hl | hl
  · exact hq (Option.some.inj (this.symm.trans hl))
  · exact absurd (this.symm.trans hl) (by simp)

theorem bytesOf_append {l : List (ℕ × Byte)} {id : ℕ} (hs : s'.stored = s.stored ++ l)
    (hl : ∀ e ∈ l, e.1 ≠ id) : s'.bytesOf id = s.bytesOf id := by
  have hnil : (l.filter fun e => e.1 = id) = [] := by
    simpa [filter_eq_nil_iff] using hl
  rw [bytesOf, hs, filter_append, hnil, append_nil, bytesOf]

/-- What a process has to show for its step: the rest of the invariant concerns other calls. -/
theorem Queue.of_step (h : s.Queue) (hl : s'.Locked) (hb : ∃ base, s'.Buffered base)
    (hother : ∀ q ≠ p, Woken (s.proc q) (s'.proc q)) (hbusy : (s.proc p).pc ≠ .idle)
    (hid : (s'.proc p).id = (s.proc p).id) (hcalls : s'.calls = s.calls)
    (hstored : ∃ l, s'.stored = s.stored ++ l ∧ ∀ e ∈ l, e.1 = (s.proc p).id)
    (hshared : ∀ q ≠ p, (s.proc q).pc.Holds → (s'.Empty ↔ s.Empty) ∧ s'.writeopen = s.writeopen)
    (hgood : (s'.proc p).pc ≠ .idle → s'.Good (s'.proc p))
    (hrets : s'.rets = s.rets ∨ (s'.proc p).pc = .idle ∧ ∃ r, s'.rets = s.rets ++ [r] ∧
      r.id = (s.proc p).id ∧ s'.Returned r) : s'.Queue := by
  obtain ⟨l, hstored, hlid⟩ := hstored
  have hbusy' : ∀ q, (s'.proc q).pc ≠ .idle → (s.proc q).pc ≠ .idle ∧
    (s'.proc q).id = (s.proc q).id := fun q hq => by
      rcases eq_or_ne q p with rfl | hne
      · exact ⟨hbusy, hid⟩
      · exact ⟨fun hi => hq ((hother q hne).idle.2 hi), (hother q hne).id⟩
  have hbytes : ∀ id ≠ (s.proc p).id, s'.bytesOf id = s.bytesOf id := fun id hne =>
    bytesOf_append hstored fun e he heq => hne (heq ▸ hlid e he)
  have hold : ∀ r ∈ s.rets, s'.Returned r := fun r hr => by
    have hret := h.returned r hr
    unfold Returned at hret ⊢
    rwa [hbytes _ (h.ret_ne r hr p hbusy).symm]
  refine ⟨hl, hb, fun q hq => ?_, fun q hq => ?_, fun q q' hq hq' hqq => ?_, fun e he => ?_,
    fun r hr => ?_, fun r hr q hq => ?_, fun r hr => ?_⟩
  · rcases eq_or_ne q p with rfl | hne
    · exact hgood hq
    · have hsq := (hbusy' q hq).1
      refine Good.woken ?_ (hother q hne)
      refine (h.good q hsq).mono (hbytes _ fun heq => hne (h.id_inj q p hsq hbusy heq))
        (hshared q hne)
  · rw [(hbusy' q hq).2, hcalls]
    exact h.id_lt q (hbusy' q hq).1
  · rw [(hbusy' q hq).2, (hbusy' q' hq').2] at hqq
    exact h.id_inj q q' (hbusy' q hq).1 (hbusy' q' hq').1 hqq
  · rw [hcalls]
    rw [hstored, mem_append] at he
    rcases he with he | he
    · exact h.stored_lt e he
    · rw [hlid e he]
      exact h.id_lt p hbusy
  · rw [hcalls]
    rcases hrets with hrets | ⟨-, r', hrets, hr', -⟩
    · exact h.ret_lt r (hrets ▸ hr)
    · rw [hrets, mem_append, mem_singleton] at hr
      rcases hr with hr | rfl
      · exact h.ret_lt r hr
      · rw [hr']
        exact h.id_lt p hbusy
  · rw [(hbusy' q hq).2]
    rcases hrets with hrets | ⟨hidle, r', hrets, hr', -⟩
    · exact h.ret_ne r (hrets ▸ hr) q (hbusy' q hq).1
    · rw [hrets, mem_append, mem_singleton] at hr
      rcases hr with hr | rfl
      · exact h.ret_ne r hr q (hbusy' q hq).1
      · intro heq
        rw [hr'] at heq
        have hqp := h.id_inj q p (hbusy' q hq).1 hbusy heq
        exact hq (hqp ▸ hidle)
  · rcases hrets with hrets | ⟨-, r', hrets, -, hr'⟩
    · exact hold r (hrets ▸ hr)
    · rw [hrets, mem_append, mem_singleton] at hr
      rcases hr with hr | rfl
      · exact hold r hr
      · exact hr'

/-! ### One step -/

theorem wakeOne_eq (c : Chan) (j : ℕ) : ∃ q x, s.wakeOne p c j = s.setProc q x := by
  unfold wakeOne
  split
  · exact ⟨j, _, rfl⟩
  · exact ⟨p, s.proc p, by simp [setProc]⟩

theorem Stepped.buffered (h : Stepped np s p true s') (hb : s.Buffered base) :
    s'.Buffered base := by
  cases h with
  | store _ _ _ _ hfull => exact hb.store hfull _
  | take _ _ _ hempty => exact (hb.take hempty).congr rfl rfl rfl rfl rfl
  | lose _ _ _ hok => cases hok
  | @closeEnd w => cases w <;> exact hb.congr rfl rfl rfl rfl rfl
  | @wake c j =>
    obtain ⟨q, x, hx⟩ := wakeOne_eq (s := s) (p := p) c j
    exact hx ▸ hb.congr rfl rfl rfl rfl rfl
  | _ => exact hb.congr rfl rfl rfl rfl rfl

/-- The calls keep their numbers, and a process stores bytes in its own name. -/
theorem Stepped.numbers (h : Stepped np s p ok s') : s'.calls = s.calls ∧
    (s'.proc p).id = (s.proc p).id ∧
    ∃ l, s'.stored = s.stored ++ l ∧ ∀ e ∈ l, e.1 = (s.proc p).id := by
  have hnil : ∃ l, s.stored = s.stored ++ l ∧ ∀ e ∈ l, e.1 = (s.proc p).id :=
    ⟨[], (append_nil _).symm, nofun⟩
  cases h with
  | store => exact ⟨rfl, by simp [PipeSys.store, setProc], _, rfl, by simp⟩
  | @closeEnd w => exact ⟨by cases w <;> rfl, by rw [closeEnd_self], by cases w <;> exact hnil⟩
  | @wake c j =>
    have hself := wakeOne_self (s := s) (p := p) c j
    obtain ⟨q, x, hx⟩ := wakeOne_eq (s := s) (p := p) c j
    rw [hx] at hself ⊢
    exact ⟨rfl, by rw [proc_goto_self, hself], hnil⟩
  | stuck => exact ⟨rfl, rfl, hnil⟩
  | _ => exact ⟨rfl, by simp [PipeSys.ret, release, PipeSys.take], hnil⟩

/-- What another holder of the lock relies on does not change. -/
theorem Stepped.shared (h : Stepped np s p ok s') (hl : s.Locked) (hq : q ≠ p)
    (hh : (s.proc q).pc.Holds) : (s'.Empty ↔ s.Empty) ∧ s'.writeopen = s.writeopen := by
  have hlock := hl q hh
  have hother : ∀ {pc : PipePc}, (s.proc p).pc = pc → ¬ pc.Holds := fun hpc hp =>
    hq (Option.some.inj (hlock.symm.trans (hl p (hpc ▸ hp))))
  cases h with
  | closeEnd _ hfree => cases hlock.symm.trans hfree
  | store hpc | take hpc | lose hpc => exact absurd trivial (hother hpc)
  | wake hpc => exact absurd trivial (hother hpc)
  | _ => exact ⟨Iff.rfl, rfl⟩

theorem bytesOf_store (ch : Byte) :
    (s.store p ch).bytesOf (s.proc p).id = s.bytesOf (s.proc p).id ++ [ch] := by
  simp [bytesOf, store]

/-- A process goes on to another place without copying, whatever its call is. -/
theorem Good.move (h : s.Good x) (hcall : y.call = x.call) (hid : y.id = x.id) (hi : y.i = x.i)
    (hb : s'.bytesOf x.id = s.bytesOf x.id) (he : s'.Empty ↔ s.Empty)
    (hw : s'.writeopen = s.writeopen) (hcopy : y.pc ≠ .copy)
    (hearly : x.pc = .acquire ∨ x.pc = .loop ∨ (∃ c, x.pc = .slept c ∨ x.pc = .asleep c) ∨
      ∃ c j next, x.pc = .wake c j next ∧
        ((∃ c', next = .sleep c') ∨ y.pc = .wake c (j + 1) next))
    (hnext : ∀ c j next, y.pc = .wake c j next → ∃ j', x.pc = .wake c j' next) : s'.Good y := by
  unfold Good at h ⊢
  rw [hcall, hid, hi, hb, he, hw]
  cases hx : x.call with
  | write src n =>
    rw [hx] at h
    exact ⟨h.1, fun c j r hy => (hnext c j _ hy).elim fun j' hj => h.2 c j' r hj⟩
  | read n =>
    rw [hx] at h
    refine ⟨fun hy => ?_, fun hy => absurd hy hcopy,
      fun c j r hy => (hnext c j _ hy).elim fun j' hj => h.2.2.1 c j' r hj,
      fun c j c' hy => (hnext c j _ hy).elim fun j' hj => h.2.2.2 c j' c' hj⟩
    obtain hx | hx | hx | ⟨c, j, next, hx, ⟨c', rfl⟩ | hj⟩ := hearly
    · exact h.1 (.inl hx)
    · exact h.1 (.inr (.inl hx))
    · exact h.1 (.inr (.inr hx))
    · exact absurd hx (h.2.2.2 c j c')
    · simp [hj] at hy
  | close w => trivial

/-- **What a process knows after its step.** -/
theorem Stepped.good (h : Stepped np s p true s') (hg : s.Good (s.proc p))
    (hbusy : (s'.proc p).pc ≠ .idle) : s'.Good (s'.proc p) := by
  cases h with
  | enter hpc =>
    rw [proc_setProc_self]
    exact hg.move rfl rfl rfl rfl Iff.rfl rfl nofun (.inl hpc) nofun
  | @closeEnd w _ _ hcall =>
    rw [closeEnd_self]
    simp only [Good, hcall]
  | giveUp | quit | ret => simp [PipeSys.ret] at hbusy
  | full _ hcall =>
    simp only [Good, proc_goto_self, hcall] at hg ⊢
    exact ⟨hg.1, nofun⟩
  | @store src n hpc hcall =>
    have hself : (s.store p (src (s.proc p).i)).proc p =
        { s.proc p with i := (s.proc p).i + 1 } := proc_setProc_self _
    simp only [Good, hself, hcall, hpc] at hg ⊢
    refine ⟨?_, nofun⟩
    rw [bytesOf_store, hg.1, range_succ, map_append]
    rfl
  | doneWrite _ hcall =>
    simp only [Good, proc_goto_self, hcall] at hg ⊢
    refine ⟨hg.1, fun _ _ _ hpc => ?_⟩
    cases hpc
    rfl
  | wait hpc =>
    rw [proc_goto_self]
    exact hg.move rfl rfl rfl rfl Iff.rfl rfl nofun (.inr (.inl hpc)) nofun
  | copy _ hcall hready =>
    simp only [Good, proc_goto_self, hcall]
    exact ⟨fun hpc => by simp at hpc, fun _ _ => hready, nofun, nofun⟩
  | take hpc hcall =>
    simp only [Good, proc_setProc_self, hcall, hpc]
    exact ⟨fun hpc => by simp at hpc, fun _ h0 => by omega, nofun, nofun⟩
  | lose _ _ _ hok => cases hok
  | doneRead hpc hcall hend =>
    simp only [Good, proc_goto_self, hcall] at hg ⊢
    refine ⟨fun hpc => by simp at hpc, nofun, fun c j r hw hn hr => ?_, nofun⟩
    cases hw
    have hi : (s.proc p).i = 0 := by omega
    have hempty : s.Empty := by
      by_contra he
      exact hend ⟨by omega, he⟩
    have := hg.2.1 hpc hi
    simp only [hempty, true_and, Bool.not_eq_true] at this
    exact ⟨hempty, this⟩
  | @wake c j next hpc =>
    have hself := wakeOne_self (s := s) (p := p) c j
    obtain ⟨q, x, hx⟩ := wakeOne_eq (s := s) (p := p) c j
    rw [hx] at hself ⊢
    rw [proc_goto_self, hself]
    exact hg.move rfl rfl rfl rfl Iff.rfl rfl nofun
      (.inr (.inr (.inr ⟨c, j, next, hpc, .inr rfl⟩))) fun _ _ _ hy => by cases hy; exact ⟨j, hpc⟩
  | sleep hpc =>
    rw [proc_goto_self]
    exact hg.move rfl rfl rfl rfl Iff.rfl rfl nofun
      (.inr (.inr (.inr ⟨_, _, _, hpc, .inl ⟨_, rfl⟩⟩))) nofun
  | nod hpc =>
    rw [proc_goto_self]
    exact hg.move rfl rfl rfl rfl Iff.rfl rfl nofun (.inr (.inr (.inl ⟨_, .inl hpc⟩))) nofun
  | stuck => exact hg

theorem Good.returned {c : Chan} {j : ℕ} {r : ℤ} (h : s.Good x) (hpc : x.pc = .wake c j (.ret r)) :
    s.Returned ⟨x.id, x.call, r, decide s.Empty, !s.writeopen⟩ := by
  unfold Good at h
  unfold Returned
  dsimp only
  cases hc : x.call with
  | write src n =>
    rw [hc] at h
    intro _
    rw [h.2 _ _ _ hpc]
    exact h.1
  | read n =>
    rw [hc] at h
    intro hn hr
    simpa using h.2.2.1 _ _ _ hpc hn hr
  | close w => trivial

theorem Stepped.rets (h : Stepped np s p true s') (hg : s.Good (s.proc p)) :
    s'.rets = s.rets ∨ (s'.proc p).pc = .idle ∧ ∃ r, s'.rets = s.rets ++ [r] ∧
      r.id = (s.proc p).id ∧ s'.Returned r := by
  cases h with
  | giveUp _ hcall | quit _ hcall =>
    refine .inr ⟨by simp [PipeSys.ret], _, rfl, rfl, ?_⟩
    simp only [Returned, hcall]
    omega
  | ret b hpc => exact .inr ⟨by simp [PipeSys.ret], _, rfl, rfl, hg.returned hpc⟩
  | @closeEnd w => cases w <;> exact .inl rfl
  | @wake c j =>
    obtain ⟨q, x, hx⟩ := wakeOne_eq (s := s) (p := p) c j
    exact .inl (by rw [hx]; rfl)
  | _ => exact .inl rfl

theorem Stepped.busy (h : Stepped np s p ok s') : s' = s ∨ (s.proc p).pc ≠ .idle := by
  cases h with
  | stuck => exact .inl rfl
  | _ => exact .inr (by simp [*])

theorem Stepped.queue (hstep : Stepped np s p true s') (h : s.Queue) : s'.Queue := by
  obtain rfl | hbusy := hstep.busy
  · exact h
  obtain ⟨base, hb⟩ := h.buffered
  have hg := h.good p hbusy
  obtain ⟨hcalls, hid, hstored⟩ := hstep.numbers
  exact h.of_step (hstep.locked h.locked) ⟨base, hstep.buffered hb⟩ (fun q hq => hstep.other hq)
    hbusy hid hcalls hstored (fun q hq => hstep.shared h.locked hq) (hstep.good hg) (hstep.rets hg)

theorem kill_woken (q : ℕ) : Woken (s.proc q) ((s.kill p).proc q) := by
  rcases eq_or_ne q p with rfl | hq
  · simp only [PipeSys.kill, proc_setProc_self]
    refine ⟨rfl, rfl, rfl, ?_⟩
    dsimp only
    split
    · rename_i c hc
      exact .inr ⟨c, hc, rfl⟩
    · exact .inl rfl
  · exact .of_eq (proc_setProc_of_ne _ hq)

theorem Queue.kill (h : s.Queue) : (s.kill p).Queue := by
  have hw := kill_woken (s := s) (p := p)
  have hbusy : ∀ q, ((s.kill p).proc q).pc ≠ .idle → (s.proc q).pc ≠ .idle := fun q hq hi =>
    hq ((hw q).idle.2 hi)
  obtain ⟨base, hb⟩ := h.buffered
  refine ⟨fun q hq => ?_, ⟨base, hb.congr rfl rfl rfl rfl rfl⟩, fun q hq => ?_, fun q hq => ?_,
    fun q q' hq hq' hqq => ?_, h.stored_lt, h.ret_lt, fun r hr q hq => ?_, h.returned⟩
  · exact h.locked q ((hw q).holds hq ▸ hq)
  · exact Good.woken ((h.good q (hbusy q hq)).mono rfl fun _ => ⟨Iff.rfl, rfl⟩) (hw q)
  · rw [(hw q).id]
    exact h.id_lt q (hbusy q hq)
  · rw [(hw q).id, (hw q').id] at hqq
    exact h.id_inj q q' (hbusy q hq) (hbusy q' hq') hqq
  · rw [(hw q).id]
    exact h.ret_ne r hr q (hbusy q hq)

theorem bytesOf_eq_nil (h : ∀ e ∈ s.stored, e.1 < s.calls) : s.bytesOf s.calls = [] := by
  have : (s.stored.filter fun e => e.1 = s.calls) = [] := by
    simp only [filter_eq_nil_iff, decide_eq_true_eq]
    exact fun e he => (h e he).ne
  rw [bytesOf, this, map_nil]

theorem Queue.invoke (h : s.Queue) (c : PipeCall) (hidle : (s.proc p).pc = .idle) :
    (s.invoke p c).Queue := by
  have hself : (s.invoke p c).proc p =
      { s.proc p with pc := .acquire, call := c, i := 0, id := s.calls, since := 0 } :=
    proc_setProc_self _
  have hother : ∀ q ≠ p, (s.invoke p c).proc q = s.proc q := fun q hq =>
    proc_setProc_of_ne _ hq
  obtain ⟨base, hb⟩ := h.buffered
  refine ⟨fun q hq => ?_, ⟨base, hb.congr rfl rfl rfl rfl rfl⟩, fun q hq => ?_, fun q hq => ?_,
    fun q q' hq hq' hqq => ?_, fun e he => ?_, fun r hr => ?_, fun r hr q hq => ?_, h.returned⟩
  · rcases eq_or_ne q p with rfl | hne
    · rw [hself] at hq
      exact hq.elim
    · rw [hother q hne] at hq
      exact h.locked q hq
  · rcases eq_or_ne q p with rfl | hne
    · rw [hself]
      unfold Good
      dsimp only
      split
      · exact ⟨bytesOf_eq_nil h.stored_lt, nofun⟩
      · exact ⟨fun _ => rfl, nofun, nofun, nofun⟩
      · trivial
    · rw [hother q hne] at hq ⊢
      exact (h.good q hq).mono rfl fun _ => ⟨Iff.rfl, rfl⟩
  · rcases eq_or_ne q p with rfl | hne
    · rw [hself]
      exact lt_succ_self _
    · rw [hother q hne] at hq ⊢
      exact lt_succ_of_lt (h.id_lt q hq)
  · -- the number of the new call is larger than all others
    refine sole_update (R := fun (x : PipeProc) n => x.pc ≠ .idle ∧ x.id = n) (f := s.proc)
      (fun q q' n hn hn' => h.id_inj q q' hn.1 hn'.1 (hn.2.trans hn'.2.symm)) ?_ q q' _ ⟨hq, hqq⟩
      ⟨hq', rfl⟩
    rintro n ⟨-, rfl⟩ r - ⟨hr, hid⟩
    exact absurd hid (h.id_lt r hr).ne
  · exact lt_succ_of_lt (h.stored_lt e he)
  · exact lt_succ_of_lt (h.ret_lt r hr)
  · rcases eq_or_ne q p with rfl | hne
    · rw [hself]
      exact (h.ret_lt r hr).ne'
    · rw [hother q hne] at hq ⊢
      exact h.ret_ne r hr q hq

theorem Start.queue (h : s.Start) : s.Queue := by
  have hbusy : ∀ q, ¬ (s.proc q).pc ≠ .idle := fun q hq => hq (h.idle q)
  have hst := h.stored
  have hta := h.taken
  refine ⟨fun q hq => ?_, ⟨s.nread.toNat, ?_, ?_, ?_, ?_, ?_, ?_⟩, fun q hq => absurd hq (hbusy q),
    fun q hq => absurd hq (hbusy q), fun q _ hq => absurd hq (hbusy q), ?_, ?_, ?_, ?_⟩
  · rw [h.idle q] at hq
    exact hq.elim
  all_goals simp [hst, hta, h.rets, ← h.counters]

end PipeSys

/-- The event is not a failed copy from or to user memory. -/
def PipeEvent.Copies : PipeEvent → Prop
  | .step _ ok => ok = true
  | _ => True

instance (e : PipeEvent) : Decidable e.Copies :=
  match e with
  | .step _ ok => inferInstanceAs (Decidable (ok = true))
  | .invoke _ _ | .kill _ => .isTrue trivial

open PipeSys in
/-- **A pipe is a queue**, for any number of concurrent calls and any initial value of the
counters: it holds at most `PIPESIZE` bytes; the bytes taken by the readers are a prefix of the
bytes stored by the writers, and the rest of those are in the buffer, in order; a write that returns
`r ≥ 0` has stored exactly the first `r` bytes of its buffer, in order; a read of `n > 0` bytes
returns 0 only with the pipe empty and closed for writing. -/
theorem pipe_fifo {np : ℕ} {s : PipeSys}
    (h : ((pipes np).restrict fun e _ => e.Copies).Reachable s) :
    (s.nwrite - s.nread).toNat ≤ pipesize ∧
    s.taken <+: s.stored.map Prod.snd ∧ s.taken ++ s.unread = s.stored.map Prod.snd ∧
    ∀ r ∈ s.rets, s.Returned r := by
  have hq : s.Queue := by
    refine h.invariant (fun s hs => Start.queue hs) fun s e s' hs ⟨⟨hok, hc⟩, hrun⟩ => ?_
    cases e with
    | invoke p c =>
      cases hrun
      exact hs.invoke c hok.2.1
    | step p ok =>
      cases hrun
      obtain rfl : ok = true := hc
      exact (step_stepped hok.2).queue hs
    | kill p =>
      cases hrun
      exact hs.kill
  obtain ⟨base, hb⟩ := hq.buffered
  have hroom := hb.room
  refine ⟨by rw [hb.count]; omega, ⟨s.unread, hb.taken_append_unread⟩, hb.taken_append_unread,
    hq.returned⟩

/-- An unused pipe whose counters are both `v`. -/
def PipeSys.new (v : BitVec 32) : PipeSys :=
  ⟨fun _ => 0, v, v, true, true, none, false, fun _ => ⟨.idle, .read 0, 0, false, 0, 0⟩,
    0, [], [], []⟩

/-- Two bytes are stored across the wrap of the counter and one is taken. -/
theorem pipe_fifo_wrapped : ∃ s, ((pipes 2).restrict fun e _ => e.Copies).Reachable s ∧
    s.nwrite = 1 ∧ s.taken = [5] ∧ s.unread = [6] ∧ s.stored.map Prod.snd = [5, 6] := by
  obtain ⟨s, hs, ht⟩ := Machine.Reachable.test (M := (pipes 2).restrict fun e _ => e.Copies)
    (fun e s => of_decide_eq_true (p := e.Ok 2 s ∧ e.Copies))
    (.init (s := .new (-1)) ⟨rfl, rfl, rfl, rfl, rfl, fun _ => rfl, rfl, rfl, rfl⟩)
    ([.invoke 0 (.write (fun i => if i = 0 then 5 else 6) 2), .invoke 1 (.read 1)] ++
      replicate 7 (.step 0 true) ++ replicate 3 (.step 1 true))
    (t := fun s => s.nwrite = 1 ∧ s.taken = [5] ∧ s.stored.map Prod.snd = [5, 6])
    (by decide +kernel)
  simp only [decide_eq_true_eq] at ht
  obtain ⟨hw, htaken, hstored⟩ := ht
  obtain ⟨-, -, hall, -⟩ := pipe_fifo hs
  rw [htaken, hstored] at hall
  exact ⟨s, hs, hw, htaken, by simpa using hall, hstored⟩

end Xv6Swap
