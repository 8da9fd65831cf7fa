import Xv6Swap.System.LogRun

/-!
# What the log relies on

At any moment the disk stands for the first `done` transactions (`LogSys.Durable`), whatever phase
of a commit or of recovery has been reached; `LogSys.Phase` says what each phase relies on in
addition.  This file shows that operations keep this invariant:

* `LogSys.Inv.other` : reading blocks and swapping do not concern the log;
* `LogSys.inv_begin`, `LogSys.inv_update`, `LogSys.inv_endOp` : the calls of an operation.
-/

namespace Xv6Swap

open Function List Nat Run

open Log

/-! ### The invariant -/

section Inv

variable (sb : Superblock) (disk₀ : ℕ → Mem)

/-- The log block of the entry `j` of the header. -/
def logSlot (j : ℕ) : ℕ := sb.logstart + j + 1

/-- A header that fits into the log and lists home blocks, each once. -/
structure GoodHead (lh : List ℕ) : Prop where
  nodup : lh.Nodup
  home : ∀ b ∈ lh, sb.Home b
  length : lh.length ≤ sb.nlog - 1

namespace LogSys

/-- The header on disk. -/
def head (s : LogSys) : List ℕ := headDecode (s.log.bio.disk sb.logstart)

/-- The disk stands for the first `done` transactions, among them all that have returned. -/
structure Durable (s : LogSys) : Prop where
  good : GoodHead sb (s.head sb)
  restores : Restores sb.Home (logSlot sb) (s.head sb) (contents disk₀ (s.begun.take s.done))
    s.log.bio.disk
  returned : s.returned ≤ s.done
  done : s.done ≤ s.begun.length

/-- Transactions have no operation in common, and running operations have committed nothing. -/
structure OpsApart (s : LogSys) : Prop where
  apart : (s.begun ++ [s.cur]).Pairwise fun t t' => ∀ u ∈ t, ∀ u' ∈ t', u.op ≠ u'.op
  active : ∀ op ∈ s.active, ∀ u ∈ s.begun.flatten, u.op ≠ op
  active_lt : ∀ op ∈ s.active, op < s.next
  begun_lt : ∀ u ∈ s.begun.flatten, u.op < s.next
  cur_lt : ∀ u ∈ s.cur, u.op < s.next

/-- A commit is in progress: every operation has ended. -/
structure Committing (s : LogSys) : Prop where
  committing : s.log.committing = true
  outstanding : s.log.outstanding = 0
  active : s.active = []
  cur : s.cur = []

/-- The kernel has not come up yet. -/
structure Down (s : LogSys) : Prop where
  committing : s.log.committing = false
  outstanding : s.log.outstanding = 0
  active : s.active = []

/-- The first `n` entries of the header have been copied to their homes. -/
def Installed (s : LogSys) (n : ℕ) : Prop := ∀ j b, j < n → s.log.lh[j]? = some b →
  s.log.bio.disk b = contents disk₀ (s.begun.take s.done) b

/-- Operations run: their changes are in the cache, and every changed block is on the list. -/
structure Running (s : LogSys) (view : ℕ → Mem) : Prop where
  ok : s.log.Ok s.log.lh view
  head : s.head sb = []
  committing : s.log.committing = false
  outstanding : s.log.outstanding = s.active.length
  done : s.done = s.begun.length
  listed : ∀ b, b ∈ s.log.lh ↔ ∃ u ∈ s.cur, u.block = b
  view : ∀ b, sb.Home b → view b = contents disk₀ (s.begun ++ [s.cur]) b

/-- The last transaction is being written to the log; `n` of its blocks are there. -/
structure Logging (s : LogSys) (view : ℕ → Mem) (n : ℕ) : Prop where
  ok : s.log.Ok s.log.lh view
  head : s.head sb = []
  committing : s.Committing
  done : s.done + 1 = s.begun.length
  view : ∀ b ∈ s.log.lh, view b = contents disk₀ s.begun b
  same : ∀ b, b ∉ s.log.lh → contents disk₀ s.begun b = contents disk₀ (s.begun.take s.done) b
  written : ∀ j b, j < n → s.log.lh[j]? = some b →
    s.log.bio.disk (logSlot sb j) = contents disk₀ s.begun b

/-- The last transaction is being installed; `n` of its blocks are in place. -/
structure Installing (s : LogSys) (view : ℕ → Mem) (n : ℕ) : Prop where
  ok : s.log.Ok (s.log.lh.drop n) view
  head : s.head sb = s.log.lh
  committing : s.Committing
  done : s.done = s.begun.length
  installed : s.Installed disk₀ n

/-- A committed transaction is being redone. -/
structure Redoing (s : LogSys) (view : ℕ → Mem) (n : ℕ) : Prop where
  ok : s.log.Ok [] view
  head : s.head sb = s.log.lh
  down : s.Down
  installed : s.Installed disk₀ n

/-- The log is empty, on disk and in memory. -/
structure Cleared (s : LogSys) (view : ℕ → Mem) : Prop where
  ok : s.log.Ok [] view
  head : s.head sb = []
  lh : s.log.lh = []

/-- What each phase of a commit and of a recovery can rely on. -/
def Phase (s : LogSys) (view : ℕ → Mem) : Prop :=
  match s.pc with
  | .run => s.Running sb disk₀ view
  | .writeLog tail => tail < s.log.lh.length ∧ s.Logging sb disk₀ view tail
  | .writeHead => 0 < s.log.lh.length ∧ s.Logging sb disk₀ view s.log.lh.length
  | .install tail => tail < s.log.lh.length ∧ s.Installing sb disk₀ view tail
  | .clear => s.Installing sb disk₀ view s.log.lh.length
  | .finish => s.Cleared sb view ∧ s.Committing ∧ s.done = s.begun.length
  | .boot => s.log.Ok [] view ∧ s.log.lh = [] ∧ s.Down
  | .recover tail => tail < s.log.lh.length ∧ s.Redoing sb disk₀ view tail
  | .recClear => s.Redoing sb disk₀ view s.log.lh.length
  | .recovered => s.Cleared sb view ∧ s.Down

/-- The invariant of the log. -/
structure Inv (s : LogSys) : Prop where
  durable : s.Durable sb disk₀
  good : GoodHead sb s.log.lh
  ops : s.OpsApart
  phase : ∃ view, s.Phase sb disk₀ view

end LogSys

end Inv

/-! ### Lemmas about the history and the layout -/

variable {sb : Superblock} {disk₀ : ℕ → Mem} {s s' : LogSys} {l : Log} {b j : ℕ} {lh : List ℕ}

section

variable (d : ℕ → Mem) (ts : List Txn)
include d ts

theorem contents_append_nil : contents d (ts ++ [[]]) = contents d ts := by
  simp [contents]

theorem contents_concat (t : Txn) (u : Update) :
    contents d (ts ++ [t ++ [u]]) = update (contents d (ts ++ [t])) u.block u.data := by
  simp only [contents, flatten_append, flatten_cons, flatten_nil, append_nil,
    map_append, map_cons, map_nil, ← append_assoc, replay_concat]

/-- A transaction changes only the blocks that it updates. -/
theorem contents_of_notMem {t : Txn} (h : ∀ u ∈ t, u.block ≠ b) :
    contents d (ts ++ [t]) b = contents d ts b := by
  simp only [contents, flatten_append, flatten_cons, flatten_nil, append_nil,
    map_append, replay_append]
  refine replay_of_notMem fun u hu => ?_
  obtain ⟨v, hv, rfl⟩ := mem_map.1 hu
  exact h v hv

end

theorem GoodHead.inLog (h : GoodHead sb lh) (hj : lh[j]? = some b) : sb.InLog (logSlot sb j) := by
  have hlt := (List.getElem?_eq_some_iff.1 hj).1
  have hlen := h.length
  exact ⟨by unfold logSlot; omega, by unfold logSlot; omega⟩

theorem inLog_lt (h : sb.InLog b) : b < swapbase := h.2.trans_le sb.log_le

theorem inLog_logstart : sb.InLog sb.logstart := ⟨le_refl _, by have := sb.nlog_pos; omega⟩

theorem GoodHead.nil : GoodHead sb [] :=
  ⟨nodup_nil, fun _ h => (not_mem_nil h).elim, zero_le _⟩

theorem GoodHead.decode (h : GoodHead sb lh) (data : Mem) :
    headDecode (headEncode data lh) = lh := by
  refine headDecode_headEncode data ?_ fun b hb => ?_
  · have := h.length; have := sb.log_le
    simp only [swapbase] at this
    omega
  · have := (h.home b hb).1
    simp only [swapbase] at this
    omega

theorem headDecode_empty (data : Mem) : headDecode (headEncode data []) = [] :=
  headDecode_headEncode data (by decide) fun _ h => (not_mem_nil h).elim

namespace LogSys

variable {op : ℕ}

theorem onLog_ok {α : Type} {m : Run Log FsPanic α} {a : α} (h : onLog m s = .ok (a, s')) :
    ∃ l, m s.log = .ok (a, l) ∧ s' = { s with log := l } := by
  simp only [onLog, zoom] at h
  split at h
  · rename_i a' l hm
    cases h
    exact ⟨l, hm, rfl⟩
  · cases h

/-- A step that runs a function of the log and then records what it has done. -/
theorem onLog_then {m : Run Log FsPanic Unit} {f : LogSys → LogSys}
    (h : (onLog m >>= fun _ => modify f) s = .ok ((), s')) :
    ∃ l, m s.log = .ok ((), l) ∧ s' = f { s with log := l } := by
  obtain ⟨_, t, hlog, hmod⟩ := bind_eq_ok h
  obtain ⟨l, hl, rfl⟩ := onLog_ok hlog
  cases hmod
  exact ⟨l, hl, rfl⟩

/-! What a step of a commit or of a recovery leaves alone. -/

section Frame

variable {pc : LogPc} {d r : ℕ}

theorem OpsApart.frame (h : s.OpsApart) :
    ({ s with log := l, pc := pc, done := d, returned := r } : LogSys).OpsApart :=
  ⟨h.apart, h.active, h.active_lt, h.begun_lt, h.cur_lt⟩

theorem Committing.frame (h : s.Committing) (hmem : s.log.SameMem l) :
    ({ s with log := l, pc := pc, done := d } : LogSys).Committing :=
  ⟨hmem.2.2.trans h.committing, hmem.2.1.trans h.outstanding, h.active, h.cur⟩

theorem Down.frame (h : s.Down) (hmem : s.log.SameMem l) :
    ({ s with log := l, pc := pc } : LogSys).Down :=
  ⟨hmem.2.2.trans h.committing, hmem.2.1.trans h.outstanding, h.active⟩

theorem Durable.goto (h : s.Durable sb disk₀) : ({ s with pc := pc } : LogSys).Durable sb disk₀ :=
  ⟨h.good, h.restores, h.returned, h.done⟩

theorem Logging.goto {view : ℕ → Mem} {n : ℕ} (h : s.Logging sb disk₀ view n) :
    ({ s with pc := pc } : LogSys).Logging sb disk₀ view n :=
  ⟨h.ok, h.head, h.committing.frame ⟨rfl, rfl, rfl⟩, h.done, h.view, h.same, h.written⟩

end Frame

variable (h : s.Inv sb disk₀)
include h

/-- Only while no commit is in progress do operations run. -/
theorem Inv.pc_of_active (ha : s.active ≠ []) : s.pc = .run := by
  obtain ⟨view, hp⟩ := h.phase
  unfold Phase at hp
  split at hp
  case h_1 hpc => exact hpc
  case h_2 => exact (ha hp.2.committing.active).elim
  case h_3 => exact (ha hp.2.committing.active).elim
  case h_4 => exact (ha hp.2.committing.active).elim
  case h_5 => exact (ha hp.committing.active).elim
  case h_6 => exact (ha hp.2.1.active).elim
  case h_7 => exact (ha hp.2.2.active).elim
  case h_8 => exact (ha hp.2.down.active).elim
  case h_9 => exact (ha hp.down.active).elim
  case h_10 => exact (ha hp.2.active).elim

theorem Inv.exists_ok : ∃ pinned view, s.log.Ok pinned view := by
  obtain ⟨view, hp⟩ := h.phase
  unfold Phase at hp
  split at hp
  case h_1 => exact ⟨_, _, hp.ok⟩
  case h_2 => exact ⟨_, _, hp.2.ok⟩
  case h_3 => exact ⟨_, _, hp.2.ok⟩
  case h_4 => exact ⟨_, _, hp.2.ok⟩
  case h_5 => exact ⟨_, _, hp.ok⟩
  case h_6 => exact ⟨_, _, hp.1.ok⟩
  case h_7 => exact ⟨_, _, hp.1⟩
  case h_8 => exact ⟨_, _, hp.2.ok⟩
  case h_9 => exact ⟨_, _, hp.ok⟩
  case h_10 => exact ⟨_, _, hp.1.ok⟩

/-- What other processes do to the cache, and what they do to the swap area, is nothing to the
log. -/
theorem Inv.other (hmem : s.log.SameMem l) (hdisk : ∀ b < swapbase, l.bio.disk b = s.log.bio.disk b)
    (hok : ∀ pinned view, s.log.Ok pinned view →
      ∃ view', l.Ok pinned view' ∧ ∀ b < swapbase, view' b = view b) :
    ({ s with log := l } : LogSys).Inv sb disk₀ := by
  obtain ⟨hlh, hout, hcom⟩ := id hmem
  have hhead : ({ s with log := l } : LogSys).head sb = s.head sb := by
    simp only [head, hdisk _ (inLog_lt inLog_logstart)]
  have hhome : ∀ b, sb.Home b → l.bio.disk b = s.log.bio.disk b := fun b hb => hdisk b hb.1
  have hgood : GoodHead sb l.lh := hlh ▸ h.good
  have hinst : ∀ n, s.Installed disk₀ n → ({ s with log := l } : LogSys).Installed disk₀ n := by
    intro n hn j b hj hb
    rw [hhome b (hgood.home b (mem_of_getElem? hb))]
    exact hn j b hj (hlh ▸ hb)
  refine ⟨⟨hhead ▸ h.durable.good, ?_, h.durable.returned, h.durable.done⟩, hgood, h.ops.frame, ?_⟩
  · rw [hhead]
    refine h.durable.restores.congr (fun j b hj => ?_) hhome
    exact hdisk _ (inLog_lt (h.durable.good.inLog hj))
  · obtain ⟨view, hp⟩ := h.phase
    -- every phase pins some list; the view of it carries over
    have hlog : ∀ n, s.Logging sb disk₀ view n →
        ∃ view', ({ s with log := l } : LogSys).Logging sb disk₀ view' n := by
      intro n hl
      obtain ⟨view', hok', hview⟩ := hok _ _ hl.ok
      refine ⟨view', hlh.symm ▸ hok', hhead.trans hl.head, hl.committing.frame hmem, hl.done,
        ?_, ?_, ?_⟩
      · intro b hb
        rw [hview b (hgood.home b hb).1]
        exact hl.view b (hlh ▸ hb)
      · exact fun b hb => hl.same b (hlh ▸ hb)
      · intro j b hj hb
        rw [hdisk _ (inLog_lt (hgood.inLog hb))]
        exact hl.written j b hj (hlh ▸ hb)
    have hins : ∀ n, s.Installing sb disk₀ view n →
        ∃ view', ({ s with log := l } : LogSys).Installing sb disk₀ view' n := by
      intro n hi
      obtain ⟨view', hok', -⟩ := hok _ _ hi.ok
      exact ⟨view', hlh.symm ▸ hok', (hhead.trans hi.head).trans hlh.symm, hi.committing.frame hmem,
        hi.done, hinst n hi.installed⟩
    have hredo : ∀ n, s.Redoing sb disk₀ view n →
        ∃ view', ({ s with log := l } : LogSys).Redoing sb disk₀ view' n := by
      intro n hi
      obtain ⟨view', hok', -⟩ := hok _ _ hi.ok
      exact ⟨view', hok', (hhead.trans hi.head).trans hlh.symm, hi.down.frame hmem,
        hinst n hi.installed⟩
    have hclear : s.Cleared sb view →
        ∃ view', ({ s with log := l } : LogSys).Cleared sb view' := by
      intro hc
      obtain ⟨view', hok', -⟩ := hok _ _ hc.ok
      exact ⟨view', hok', hhead.trans hc.head, hlh.trans hc.lh⟩
    have hlen : l.lh.length = s.log.lh.length := by rw [hlh]
    unfold Phase at hp ⊢
    simp only [hlen]
    split at hp
    case h_1 =>
      obtain ⟨view', hok', hview⟩ := hok _ _ hp.ok
      refine ⟨view', hlh.symm ▸ hok', hhead.trans hp.head, hcom.trans hp.committing,
        hout.trans hp.outstanding, hp.done, fun b => hlh ▸ hp.listed b, fun b hb => ?_⟩
      rw [hview b hb.1]
      exact hp.view b hb
    case h_2 => obtain ⟨view', h'⟩ := hlog _ hp.2; exact ⟨view', hp.1, h'⟩
    case h_3 => obtain ⟨view', h'⟩ := hlog _ hp.2; exact ⟨view', hp.1, h'⟩
    case h_4 => obtain ⟨view', h'⟩ := hins _ hp.2; exact ⟨view', hp.1, h'⟩
    case h_5 => obtain ⟨view', h'⟩ := hins _ hp; exact ⟨view', h'⟩
    case h_6 => obtain ⟨view', h'⟩ := hclear hp.1; exact ⟨view', h', hp.2.1.frame hmem, hp.2.2⟩
    case h_7 =>
      obtain ⟨view', hok', -⟩ := hok _ _ hp.1
      exact ⟨view', hok', hlh.trans hp.2.1, hp.2.2.frame hmem⟩
    case h_8 => obtain ⟨view', h'⟩ := hredo _ hp.2; exact ⟨view', hp.1, h'⟩
    case h_9 => obtain ⟨view', h'⟩ := hredo _ hp; exact ⟨view', h'⟩
    case h_10 => obtain ⟨view', h'⟩ := hclear hp.1; exact ⟨view', h', hp.2.frame hmem⟩

/-! ### Operations -/

theorem inv_begin (hg : LogEvent.begin.Ok sb s)
    (hrun : LogEvent.begin.run sb s = .ok ((), s')) : s'.Inv sb disk₀ := by
  obtain ⟨hup, hcan⟩ := hg
  have hnc : s.log.committing = false := by
    simp only [canBegin, Bool.and_eq_true, Bool.not_eq_true'] at hcan
    exact hcan.1
  cases hrun
  obtain ⟨view, hp⟩ := h.phase
  have hpc : s.pc = .run := by
    unfold Phase at hp
    split at hp
    case h_1 hpc => exact hpc
    case h_2 => exact absurd (hnc.symm.trans hp.2.committing.committing) (by decide)
    case h_3 => exact absurd (hnc.symm.trans hp.2.committing.committing) (by decide)
    case h_4 => exact absurd (hnc.symm.trans hp.2.committing.committing) (by decide)
    case h_5 => exact absurd (hnc.symm.trans hp.committing.committing) (by decide)
    case h_6 => exact absurd (hnc.symm.trans hp.2.1.committing) (by decide)
    all_goals rename_i hpc; rw [hpc] at hup; cases hup
  simp only [Phase, hpc] at hp
  refine ⟨⟨h.durable.good, h.durable.restores, h.durable.returned, h.durable.done⟩, h.good,
    ⟨h.ops.apart, ?_, ?_, ?_, ?_⟩, view, ?_⟩
  · intro op hop u hu
    rcases mem_cons.1 hop with rfl | hop
    · exact Nat.ne_of_lt (h.ops.begun_lt u hu)
    · exact h.ops.active op hop u hu
  · intro op hop
    rcases mem_cons.1 hop with rfl | hop
    · exact lt_succ_self _
    · exact (h.ops.active_lt op hop).trans (lt_succ_self _)
  · exact fun u hu => (h.ops.begun_lt u hu).trans (lt_succ_self _)
  · exact fun u hu => (h.ops.cur_lt u hu).trans (lt_succ_self _)
  · simp only [Phase, hpc]
    refine ⟨hp.ok, hp.head, hp.committing, ?_, hp.done, hp.listed, hp.view⟩
    change s.log.outstanding + 1 = (s.next :: s.active).length
    rw [hp.outstanding, length_cons]

theorem inv_update {data : Mem} (hg : (LogEvent.update op b data).Ok sb s)
    (hrun : (LogEvent.update op b data).run sb s = .ok ((), s')) : s'.Inv sb disk₀ := by
  obtain ⟨hop, hb⟩ := hg
  have hpc := h.pc_of_active (ne_nil_of_mem hop)
  obtain ⟨view, hp⟩ := h.phase
  simp only [Phase, hpc] at hp
  obtain ⟨_, t, hlog, hmod⟩ := bind_eq_ok hrun
  obtain ⟨l, hl, rfl⟩ := onLog_ok hlog
  cases hmod
  obtain ⟨hok, hlh, hout, hcom, hdisk, hfull, -⟩ :=
    (logUpdate_spec hp.ok hb.1 data).of_ok hl
  have hgood : GoodHead sb l.lh := by
    rw [hlh]
    split
    case isTrue => exact h.good
    case isFalse hmem =>
      refine ⟨nodup_append.2 ⟨h.good.nodup, nodup_singleton b, ?_⟩, ?_, ?_⟩
      · rintro c hc d hd rfl
        exact hmem (mem_singleton.1 hd ▸ hc)
      · intro c hc
        rcases mem_append.1 hc with hc | hc
        · exact h.good.home c hc
        · rw [mem_singleton.1 hc]; exact hb
      · have hroom := not_or.1 hfull
        rw [length_append, length_singleton]
        omega
  refine ⟨⟨?_, ?_, h.durable.returned, h.durable.done⟩, hgood,
    ⟨?_, h.ops.active, h.ops.active_lt, h.ops.begun_lt, ?_⟩, update view b data, ?_⟩
  · change GoodHead sb (headDecode (l.bio.disk sb.logstart))
    rw [hdisk]; exact h.durable.good
  · change Restores sb.Home (logSlot sb) (headDecode (l.bio.disk sb.logstart)) _ l.bio.disk
    rw [hdisk]; exact h.durable.restores
  · obtain ⟨hb1, -, hb3⟩ := pairwise_append.1 h.ops.apart
    refine pairwise_append.2 ⟨hb1, pairwise_singleton _ _, ?_⟩
    intro t ht t' ht' u hu u' hu'
    rw [mem_singleton.1 ht'] at hu'
    rcases mem_append.1 hu' with hu' | hu'
    · exact hb3 t ht s.cur (mem_singleton_self _) u hu u' hu'
    · rw [mem_singleton.1 hu']
      exact h.ops.active op hop u (mem_flatten_of_mem ht hu)
  · intro u hu
    rcases mem_append.1 hu with hu | hu
    · exact h.ops.cur_lt u hu
    · rw [mem_singleton.1 hu]; exact h.ops.active_lt op hop
  · simp only [Phase, hpc]
    refine ⟨hok, ?_, hcom.trans hp.committing, hout.trans hp.outstanding, hp.done, ?_, ?_⟩
    · change headDecode (l.bio.disk sb.logstart) = []
      rw [hdisk]; exact hp.head
    · intro c
      have hmem : c ∈ l.lh ↔ c ∈ s.log.lh ∨ c = b := by
        rw [hlh]
        split
        case isTrue hb' => exact ⟨.inl, fun hc => hc.elim id fun he => he ▸ hb'⟩
        case isFalse => rw [mem_append, mem_singleton]
      rw [hmem, hp.listed c]
      constructor
      · rintro (⟨u, hu, rfl⟩ | rfl)
        · exact ⟨u, mem_append_left _ hu, rfl⟩
        · exact ⟨_, mem_append_right _ (mem_singleton_self _), rfl⟩
      · rintro ⟨u, hu, rfl⟩
        rcases mem_append.1 hu with hu | hu
        · exact .inl ⟨u, hu, rfl⟩
        · rw [mem_singleton.1 hu]; exact .inr rfl
    · intro c hc
      change update view b data c = contents disk₀ (s.begun ++ [s.cur ++ [⟨op, b, data⟩]]) c
      rw [contents_concat]
      by_cases hcb : c = b
      · rw [hcb, update_self, update_self]
      · rw [update_of_ne hcb, update_of_ne hcb]
        exact hp.view c hc

theorem inv_endOp (hop : op ∈ s.active)
    (hrun : (LogEvent.endOp op).run sb s = .ok ((), s')) : s'.Inv sb disk₀ := by
  have hpc := h.pc_of_active (ne_nil_of_mem hop)
  obtain ⟨view, hp⟩ := h.phase
  simp only [Phase, hpc] at hp
  have hlen := length_erase_of_mem hop
  have herase : ∀ o ∈ s.active.erase op, o ∈ s.active := fun o ho => mem_of_mem_erase ho
  have hout := hp.outstanding
  obtain ⟨c, t, hlog, hmod⟩ := bind_eq_ok hrun
  obtain ⟨l, hl, rfl⟩ := onLog_ok hlog
  rw [endOpBegin_apply hp.committing] at hl
  cases hl
  have hops : ∀ o ∈ s.active.erase op, ∀ u ∈ s.begun.flatten, u.op ≠ o :=
    fun o ho => h.ops.active o (herase o ho)
  by_cases h1 : s.log.outstanding - 1 = 0
  case neg =>
    simp only [h1, decide_false, bind_modify, Bool.false_eq_true, if_false, pure_apply] at hmod
    cases hmod
    refine ⟨⟨h.durable.good, h.durable.restores, h.durable.returned, h.durable.done⟩, h.good,
      ⟨h.ops.apart, hops, fun o ho => h.ops.active_lt o (herase o ho), h.ops.begun_lt,
        h.ops.cur_lt⟩, view, ?_⟩
    simp only [Phase, hpc]
    exact ⟨hp.ok, hp.head, rfl, by rw [hlen, ← hout], hp.done, hp.listed, hp.view⟩
  case pos =>
    have hnil : s.active.erase op = [] := length_eq_zero_iff.1 (by omega)
    simp only [h1, decide_true, bind_modify, if_true, modify_apply] at hmod
    cases hmod
    have hsame : ∀ b ∉ s.log.lh,
        contents disk₀ (s.begun ++ [s.cur]) b = contents disk₀ s.begun b := fun b hb =>
      contents_of_notMem disk₀ s.begun fun u hu he => hb ((hp.listed b).2 ⟨u, hu, he⟩)
    have htake : (s.begun ++ [s.cur]).take s.done = s.begun.take s.done :=
      take_append_of_le_length (le_of_eq hp.done)
    have hall : s.begun.take s.done = s.begun := take_of_length_le (le_of_eq hp.done.symm)
    have hlen' : (s.begun ++ [s.cur]).length = s.done + 1 := by
      rw [length_append, length_singleton, hp.done]
    have hapart : OpsApart { s with
        active := s.active.erase op, begun := s.begun ++ [s.cur], cur := [] } := by
      refine ⟨?_, by rw [hnil]; exact fun _ ho => (not_mem_nil ho).elim,
        fun o ho => h.ops.active_lt o (herase o ho), ?_, fun _ hu => (not_mem_nil hu).elim⟩
      · refine pairwise_append.2 ⟨h.ops.apart, pairwise_singleton _ _, ?_⟩
        intro t _ t' ht' u _ u' hu'
        rw [mem_singleton.1 ht'] at hu'
        exact (not_mem_nil hu').elim
      · intro u hu
        rw [flatten_append, flatten_cons, flatten_nil, append_nil] at hu
        exact (mem_append.1 hu).elim (h.ops.begun_lt u) (h.ops.cur_lt u)
    have hcom : ({ s with
        log := { s.log with outstanding := 0, committing := true }
        active := s.active.erase op, begun := s.begun ++ [s.cur], cur := [] } :
          LogSys).Committing := ⟨rfl, rfl, hnil, rfl⟩
    by_cases h0 : 0 < s.log.lh.length
    case pos =>
      simp only [h0, if_true]
      refine ⟨⟨h.durable.good, ?_, h.durable.returned, ?_⟩, h.good,
        ⟨hapart.apart, hapart.active, hapart.active_lt, hapart.begun_lt, hapart.cur_lt⟩, view, ?_⟩
      · simp only [htake]
        exact h.durable.restores
      · simp only [hlen']; omega
      · simp only [Phase]
        refine ⟨h0, hp.ok, hp.head, ⟨hcom.1, hcom.2, hcom.3, hcom.4⟩, hlen'.symm, ?_, ?_, ?_⟩
        · exact fun b hb => hp.view b (h.good.home b hb)
        · intro b hb
          rw [htake, hall]
          exact hsame b hb
        · exact fun j b hj => (not_lt_zero j hj).elim
    case neg =>
      have hlh : s.log.lh = [] := length_eq_zero_iff.1 (by omega)
      have hcur : s.cur = [] := eq_nil_iff_forall_not_mem.2 fun u hu => by
        have := (hp.listed u.block).2 ⟨u, hu, rfl⟩
        rw [hlh] at this
        cases this
      have htake' : (s.begun ++ [s.cur]).take (s.done + 1) = s.begun ++ [s.cur] :=
        take_of_length_le (le_of_eq hlen')
      have hcont : contents disk₀ (s.begun ++ [s.cur]) = contents disk₀ (s.begun.take s.done) := by
        rw [hcur, contents_append_nil, hall]
      simp only [h0, if_false]
      refine ⟨⟨h.durable.good, ?_, h.durable.returned.trans (le_succ _),
        le_of_eq hlen'.symm⟩, h.good,
        ⟨hapart.apart, hapart.active, hapart.active_lt, hapart.begun_lt, hapart.cur_lt⟩, view, ?_⟩
      · simp only [htake', hcont]
        exact h.durable.restores
      · simp only [Phase]
        exact ⟨⟨by simpa only [Ok, hlh] using hp.ok, hp.head, hlh⟩,
          ⟨hcom.1, hcom.2, hcom.3, hcom.4⟩, hlen'.symm⟩

end LogSys

end Xv6Swap
