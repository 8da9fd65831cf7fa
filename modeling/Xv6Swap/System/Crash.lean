import Xv6Swap.System.LogInv

/-!
# Crashes

The steps of a commit and of a recovery keep the invariant of the log, and so does a crash, because
the disk alone stands for the committed transactions.

* `LogSys.Logging.writeHead` : the commit point, the one write that adds a transaction;
* `LogSys.Inv.install` : installing a block changes nothing of what the disk stands for;
* `LogSys.inv_reachable` : the invariant holds in every run;
* `crash_atomic` : **after recovery the home blocks are those of a prefix of the transactions**,
  which contains all those whose `end_op` has returned, and of each operation all updates or none;
* `write_ahead` : no update reaches its home block before it is committed, and reads see them all.
-/

namespace Xv6Swap

open Function Log List Nat

variable {sb : Superblock} {disk₀ : ℕ → Mem} {s s' : LogSys} {l : Log} {b j : ℕ}

namespace LogSys

variable {tail : ℕ}

/-! ### The steps of a commit -/

section Commit

variable {view : ℕ → Mem} {tail : ℕ}

theorem logSlot_ne (j : ℕ) : logSlot sb j ≠ sb.logstart := by unfold logSlot; omega

variable (h : s.Inv sb disk₀)
include h

theorem Logging.writeLogBlock (hl : s.Logging sb disk₀ view tail)
    (htail : tail < s.log.lh.length) (hrun : writeLogBlock sb tail s.log = .ok ((), l)) :
    l.lh = s.log.lh ∧ ({ s with log := l } : LogSys).Durable sb disk₀ ∧
      ∃ view', ({ s with log := l } : LogSys).Logging sb disk₀ view' (tail + 1) := by
  obtain ⟨b, hb⟩ : ∃ b, s.log.lh[tail]? = some b := ⟨_, getElem?_eq_getElem htail⟩
  have hmem := mem_of_getElem? hb
  have hin := h.good.inLog hb
  have hnot : logSlot sb tail ∉ s.log.lh := fun hm => (h.good.home _ hm).2 hin
  obtain ⟨hok, hsame, hdisk⟩ := (writeLogBlock_spec hl.ok hb hmem
    (h.good.home b hmem).1 hnot (inLog_lt hin)).of_ok hrun
  have hlh := hsame.1
  change l.Ok _ (update view (logSlot sb tail) (view b)) at hok
  change l.bio.disk = update s.log.bio.disk (logSlot sb tail) (view b) at hdisk
  have hhead : ({ s with log := l } : LogSys).head sb = [] := by
    simp only [LogSys.head, hdisk, update_of_ne (logSlot_ne tail).symm]
    exact hl.head
  have hhome : ∀ c, sb.Home c → l.bio.disk c = s.log.bio.disk c := by
    intro c hc
    have hne : c ≠ logSlot sb tail := fun he => hc.2 (he ▸ hin)
    rw [hdisk, update_of_ne hne]
  refine ⟨hlh, ⟨hhead ▸ .nil, ?_, h.durable.returned, h.durable.done⟩,
    update view (logSlot sb tail) (view b), hlh.symm ▸ hok, hhead, hl.committing.frame hsame,
    hl.done, ?_, ?_, ?_⟩
  · rw [hhead]
    refine .nil fun c hc => ?_
    rw [hhome c hc]
    exact h.durable.restores.rest c hc (by rw [hl.head]; exact not_mem_nil)
  · intro c hc
    rw [hlh] at hc
    have hne : c ≠ logSlot sb tail := fun he => hnot (he ▸ hc)
    rw [update_of_ne hne]
    exact hl.view c hc
  · exact fun c hc => hl.same c (hlh ▸ hc)
  · intro j c hj hc
    rw [hlh] at hc
    rw [hdisk]
    by_cases hjt : j = tail
    · subst hjt
      rw [update_self, hl.view b hmem]
      rw [hb] at hc
      cases hc
      rfl
    · rw [update_of_ne (by unfold logSlot; omega)]
      exact hl.written j c (by omega) hc

/-- **The commit point**: with the header written the disk stands for one transaction more. -/
theorem Logging.writeHead (hl : s.Logging sb disk₀ view s.log.lh.length)
    (hrun : Xv6Swap.writeHead sb s.log = .ok ((), l)) :
    l.lh = s.log.lh ∧ ({ s with log := l, done := s.done + 1 } : LogSys).Durable sb disk₀ ∧
      ∃ view', ({ s with log := l, done := s.done + 1 } : LogSys).Installing sb disk₀ view' 0 := by
  obtain ⟨hok, hsame, hdisk⟩ := (writeHead_spec hl.ok).of_ok hrun
  have hlh := hsame.1
  have hhead : headDecode (l.bio.disk sb.logstart) = s.log.lh := by
    rw [hdisk, update_self, h.good.decode]
  have htake : s.begun.take (s.done + 1) = s.begun :=
    take_of_length_le (le_of_eq hl.done.symm)
  refine ⟨hlh, ⟨?_, ⟨?_, ?_⟩, h.durable.returned.trans (le_succ _), le_of_eq hl.done⟩,
    update view sb.logstart (headEncode (view sb.logstart) s.log.lh), ?_,
    hhead.trans hlh.symm, hl.committing.frame hsame, hl.done, fun j _ hj => (not_lt_zero j hj).elim⟩
  · change GoodHead sb (headDecode (l.bio.disk sb.logstart))
    rw [hhead]; exact h.good
  · intro j b hj
    change (headDecode (l.bio.disk sb.logstart))[j]? = some b at hj
    rw [hhead] at hj
    simp only [htake, hdisk, update_of_ne (logSlot_ne j)]
    exact hl.written j b (List.getElem?_eq_some_iff.1 hj).1 hj
  · intro b hb hn
    change b ∉ headDecode (l.bio.disk sb.logstart) at hn
    rw [hhead] at hn
    have hne : b ≠ sb.logstart := fun he => hb.2 (he ▸ inLog_logstart)
    simp only [htake, hdisk, update_of_ne hne]
    rw [hl.same b hn]
    exact h.durable.restores.rest b hb (by rw [hl.head]; exact not_mem_nil)
  · rw [drop_zero]
    exact hlh.symm ▸ hok

variable (hhead : s.head sb = s.log.lh)
include hhead

/-- What installing a block does to the disk, in a commit and in recovery. -/
theorem Inv.install
    (hin : s.Installed disk₀ tail) (hb : s.log.lh[tail]? = some b) (hlh : l.lh = s.log.lh)
    (hdisk : l.bio.disk = update s.log.bio.disk b (s.log.bio.disk (logSlot sb tail))) :
    ({ s with log := l } : LogSys).head sb = l.lh ∧
      ({ s with log := l } : LogSys).Durable sb disk₀ ∧
      ({ s with log := l } : LogSys).Installed disk₀ (tail + 1) := by
  have hmem := mem_of_getElem? hb
  have hhb := h.good.home b hmem
  have hne : sb.logstart ≠ b := fun he => hhb.2 (he ▸ inLog_logstart)
  have hhead' : ({ s with log := l } : LogSys).head sb = s.log.lh := by
    simp only [head, hdisk, update_of_ne hne]
    exact hhead
  have hrest := h.durable.restores
  rw [hhead] at hrest
  have hslot : ∀ i c, s.log.lh[i]? = some c → ¬ sb.Home (logSlot sb i) := fun i c hi hh =>
    hh.2 (h.good.inLog hi)
  refine ⟨hhead'.trans hlh.symm, ⟨hhead' ▸ h.good, ?_, h.durable.returned, h.durable.done⟩, ?_⟩
  · rw [hhead', hdisk]
    exact hrest.install hslot hhb hb
  · intro j c hj hc
    simp only [hlh] at hc
    simp only [hdisk]
    by_cases hcb : c = b
    · subst hcb
      exact hrest.installed hb
    · rw [update_of_ne hcb]
      have hjt : j ≠ tail := fun he => hcb (by rw [he, hb] at hc; exact (Option.some.inj hc).symm)
      exact hin j c (by omega) hc

/-- One step of `install_trans`, in a commit and in recovery. -/
theorem Inv.installBlock {recovering : Bool} {pinned pinned' : List ℕ}
    (hin : s.Installed disk₀ tail) (hok : s.log.Ok pinned view)
    (hrun : Xv6Swap.installBlock sb recovering tail s.log = .ok ((), l))
    (hb : s.log.lh[tail]? = some b) (hsub : ∀ c ∈ pinned, c ∈ s.log.lh)
    (hpin : pinned = if recovering then pinned' else b :: pinned') (hnot : b ∉ pinned') :
    (∃ view', l.Ok pinned' view') ∧ s.log.SameMem l ∧
      ({ s with log := l } : LogSys).head sb = l.lh ∧
      ({ s with log := l } : LogSys).Durable sb disk₀ ∧
      ({ s with log := l } : LogSys).Installed disk₀ (tail + 1) := by
  have hlog := h.good.inLog hb
  have hhb := h.good.home _ (mem_of_getElem? hb)
  have hslot : logSlot sb tail ∉ pinned := fun hm => (h.good.home _ (hsub _ hm)).2 hlog
  obtain ⟨hok', hsame, hdisk⟩ := (installBlock_spec hok hb hhb.1 hslot (inLog_lt hlog)
    (fun he => hhb.2 (he ▸ hlog)) hpin hnot).of_ok hrun
  have hview : view (logSlot sb tail) = s.log.bio.disk (logSlot sb tail) :=
    hok.dropped _ (if_neg hslot)
  change l.bio.disk = update s.log.bio.disk _ (view (logSlot sb tail)) at hdisk
  rw [hview] at hdisk
  exact ⟨⟨_, hok'⟩, hsame, h.install hhead hin hb hsame.1 hdisk⟩

/-- With every block in place the header may be cleared. -/
theorem Inv.clear
    (hin : s.Installed disk₀ s.log.lh.length) (hok : s.log.Ok [] view)
    (hrun : (clearHead >>= fun _ => Xv6Swap.writeHead sb) s.log = .ok ((), l)) :
    ({ s.log with lh := [] } : Log).SameMem l ∧ ({ s with log := l } : LogSys).Durable sb disk₀ ∧
      ∃ view', ({ s with log := l } : LogSys).Cleared sb view' := by
  rw [clearHead, Run.bind_modify] at hrun
  have hempty : ({ s.log with lh := [] } : Log).Ok [] view := hok
  obtain ⟨hok', hsame, hdisk⟩ := (writeHead_spec hempty).of_ok hrun
  have hhead' : ({ s with log := l } : LogSys).head sb = [] := by
    simp only [head, hdisk, update_self, headDecode_empty]
  have hrest := h.durable.restores
  rw [hhead] at hrest
  refine ⟨hsame, ⟨hhead' ▸ .nil, ?_, h.durable.returned, h.durable.done⟩, _, hok', hhead', hsame.1⟩
  rw [hhead']
  refine .nil fun b hb => ?_
  have hne : b ≠ sb.logstart := fun he => hb.2 (he ▸ inLog_logstart)
  simp only [hdisk, update_of_ne hne]
  refine hrest.rest_of_installed (fun c hc => ?_) b hb
  obtain ⟨j, hj, hjc⟩ := getElem_of_mem hc
  exact hin j c hj (by rw [getElem?_eq_getElem hj, hjc])

end Commit

section

variable (h : s.Inv sb disk₀)
include h

section

variable (hrun : advance sb s = .ok ((), s'))
include hrun

theorem inv_writeLog (hpc : s.pc = .writeLog tail) : s'.Inv sb disk₀ := by
  obtain ⟨view, hp⟩ := h.phase
  simp only [advance, Run.bind_read, id, hpc] at hrun
  simp only [Phase, hpc] at hp
  obtain ⟨htail, hl⟩ := hp
  obtain ⟨l, hl', rfl⟩ := onLog_then hrun
  obtain ⟨hlh, hdur, view', hl''⟩ := hl.writeLogBlock h htail hl'
  refine ⟨hdur.goto, hlh.symm ▸ h.good, h.ops.frame, view', ?_⟩
  simp only [Phase]
  by_cases hlt : tail + 1 < l.lh.length
  · simp only [hlt, if_true]
    exact ⟨trivial, hl''.goto⟩
  · have htl : tail + 1 = l.lh.length := by rw [hlh] at hlt ⊢; omega
    simp only [hlt, if_false]
    exact ⟨by omega, htl ▸ hl''.goto⟩

theorem inv_writeHead (hpc : s.pc = .writeHead) : s'.Inv sb disk₀ := by
  obtain ⟨view, hp⟩ := h.phase
  simp only [advance, Run.bind_read, id, hpc] at hrun
  simp only [Phase, hpc] at hp
  obtain ⟨hpos, hl⟩ := hp
  obtain ⟨l, hl', rfl⟩ := onLog_then hrun
  obtain ⟨hlh, hdur, view', hi⟩ := hl.writeHead h hl'
  refine ⟨hdur.goto, hlh.symm ▸ h.good, h.ops.frame, view', ?_⟩
  simp only [Phase, hlh]
  exact ⟨hpos, hi.ok, hi.head, hi.committing.frame ⟨rfl, rfl, rfl⟩, hi.done, hi.installed⟩

theorem inv_install (hpc : s.pc = .install tail) : s'.Inv sb disk₀ := by
  obtain ⟨view, hp⟩ := h.phase
  simp only [advance, Run.bind_read, id, hpc] at hrun
  simp only [Phase, hpc] at hp
  obtain ⟨htail, hi⟩ := hp
  obtain ⟨l, hl', rfl⟩ := onLog_then hrun
  have hdrop : s.log.lh.drop tail = s.log.lh[tail] :: s.log.lh.drop (tail + 1) :=
    drop_eq_getElem_cons htail
  have hnodup : s.log.lh[tail] ∉ s.log.lh.drop (tail + 1) := by
    have := h.good.nodup.sublist (drop_sublist tail _)
    rw [hdrop] at this
    exact (nodup_cons.1 this).1
  obtain ⟨⟨view', hok⟩, hsame, hhead, hdur, hinst⟩ := h.installBlock hi.head hi.installed hi.ok
    hl' (getElem?_eq_getElem htail) (fun _ => mem_of_mem_drop) hdrop hnodup
  have hlh := hsame.1
  refine ⟨hdur.goto, hlh.symm ▸ h.good, h.ops.frame, view', ?_⟩
  simp only [Phase]
  by_cases hlt : tail + 1 < l.lh.length
  · simp only [hlt, if_true]
    exact ⟨trivial, hlh.symm ▸ hok, hhead, hi.committing.frame hsame, hi.done, hinst⟩
  · have htl : tail + 1 = l.lh.length := by rw [hlh] at hlt ⊢; omega
    simp only [hlt, if_false]
    refine ⟨?_, hhead, hi.committing.frame hsame, hi.done, htl ▸ hinst⟩
    rw [← htl, hlh]
    exact hok

theorem inv_clear (hpc : s.pc = .clear) : s'.Inv sb disk₀ := by
  obtain ⟨view, hp⟩ := h.phase
  simp only [advance, Run.bind_read, id, hpc] at hrun
  simp only [Phase, hpc] at hp
  obtain ⟨l, hl', rfl⟩ := onLog_then hrun
  have hok : s.log.Ok [] view := by
    have := hp.ok
    rwa [drop_length] at this
  obtain ⟨⟨hlh, hout, hcom⟩, hdur, view', hc⟩ := h.clear hp.head hp.installed hok hl'
  refine ⟨hdur.goto, hlh.symm ▸ .nil, h.ops.frame, view', ?_⟩
  simp only [Phase]
  exact ⟨⟨hc.ok, hc.head, hc.lh⟩, ⟨hcom.trans hp.committing.committing,
    hout.trans hp.committing.outstanding, hp.committing.active, hp.committing.cur⟩, hp.done⟩

theorem inv_finish (hpc : s.pc = .finish) : s'.Inv sb disk₀ := by
  obtain ⟨view, hp⟩ := h.phase
  simp only [advance, Run.bind_read, id, hpc] at hrun
  simp only [Phase, hpc] at hp
  obtain ⟨hc, hcm, hdone⟩ := hp
  obtain ⟨l, hl', rfl⟩ := onLog_then hrun
  cases hl'
  refine ⟨⟨h.durable.good, h.durable.restores, le_of_eq hdone.symm, h.durable.done⟩, h.good,
    h.ops.frame, view, ?_⟩
  simp only [Phase]
  refine ⟨by rw [Ok, hc.lh]; exact hc.ok, hc.head, rfl, ?_, hdone, ?_, ?_⟩
  · rw [hcm.outstanding, hcm.active]; rfl
  · simp [hc.lh, hcm.cur]
  · intro b hb
    rw [hcm.cur, contents_append_nil]
    have hrest := h.durable.restores.rest b hb (by rw [hc.head]; exact not_mem_nil)
    rw [take_of_length_le (le_of_eq hdone.symm)] at hrest
    rw [← hrest]
    exact hc.ok.dropped b rfl

theorem inv_boot (hpc : s.pc = .boot) : s'.Inv sb disk₀ := by
  obtain ⟨view, hp⟩ := h.phase
  simp only [advance, Run.bind_read, id, hpc] at hrun
  simp only [Phase, hpc] at hp
  obtain ⟨hok, hlh0, hdown⟩ := hp
  obtain ⟨l, hl', rfl⟩ := onLog_then hrun
  obtain ⟨hok', hlh, hout, hcom, hdisk⟩ := (readHead_spec hok not_mem_nil).of_ok hl'
  have hview : view sb.logstart = s.log.bio.disk sb.logstart := hok.dropped _ rfl
  rw [hview] at hlh
  have hhead : headDecode (l.bio.disk sb.logstart) = l.lh := by rw [hdisk, hlh]
  refine ⟨⟨?_, ?_, h.durable.returned, h.durable.done⟩, hlh.symm ▸ h.durable.good, h.ops.frame,
    view, ?_⟩
  · change GoodHead sb (headDecode (l.bio.disk sb.logstart))
    rw [hdisk]; exact h.durable.good
  · change Restores sb.Home (logSlot sb) (headDecode (l.bio.disk sb.logstart)) _ l.bio.disk
    rw [hdisk]; exact h.durable.restores
  · have hdown' : s.Down := hdown
    simp only [Phase]
    by_cases hlt : 0 < l.lh.length
    · simp only [hlt, if_true]
      exact ⟨trivial, hok', hhead, ⟨hcom.trans hdown'.1, hout.trans hdown'.2, hdown'.3⟩,
        fun j _ hj => (not_lt_zero j hj).elim⟩
    · simp only [hlt, if_false]
      exact ⟨hok', hhead, ⟨hcom.trans hdown'.1, hout.trans hdown'.2, hdown'.3⟩,
        fun j _ hj => (hlt (zero_lt_of_lt hj)).elim⟩

theorem inv_recover (hpc : s.pc = .recover tail) : s'.Inv sb disk₀ := by
  obtain ⟨view, hp⟩ := h.phase
  simp only [advance, Run.bind_read, id, hpc] at hrun
  simp only [Phase, hpc] at hp
  obtain ⟨htail, hi⟩ := hp
  obtain ⟨l, hl', rfl⟩ := onLog_then hrun
  obtain ⟨⟨view', hok⟩, hsame, hhead, hdur, hinst⟩ := h.installBlock hi.head hi.installed hi.ok
    hl' (getElem?_eq_getElem htail) (fun _ hm => (not_mem_nil hm).elim) rfl
    not_mem_nil
  have hlh := hsame.1
  refine ⟨hdur.goto, hlh.symm ▸ h.good, h.ops.frame, view', ?_⟩
  simp only [Phase]
  by_cases hlt : tail + 1 < l.lh.length
  · simp only [hlt, if_true]
    exact ⟨trivial, hok, hhead, hi.down.frame hsame, hinst⟩
  · have htl : tail + 1 = l.lh.length := by rw [hlh] at hlt ⊢; omega
    simp only [hlt, if_false]
    exact ⟨hok, hhead, hi.down.frame hsame, htl ▸ hinst⟩

theorem inv_recClear (hpc : s.pc = .recClear) : s'.Inv sb disk₀ := by
  obtain ⟨view, hp⟩ := h.phase
  simp only [advance, Run.bind_read, id, hpc] at hrun
  simp only [Phase, hpc] at hp
  obtain ⟨l, hl', rfl⟩ := onLog_then hrun
  obtain ⟨⟨hlh, hout, hcom⟩, hdur, view', hc⟩ := h.clear hp.head hp.installed hp.ok hl'
  refine ⟨hdur.goto, hlh.symm ▸ .nil, h.ops.frame, view', ?_⟩
  simp only [Phase]
  exact ⟨⟨hc.ok, hc.head, hc.lh⟩, ⟨hcom.trans hp.down.committing,
    hout.trans hp.down.outstanding, hp.down.active⟩⟩

theorem inv_recovered (hpc : s.pc = .recovered) : s'.Inv sb disk₀ := by
  obtain ⟨view, hp⟩ := h.phase
  simp only [advance, Run.bind_read, id, hpc] at hrun
  simp only [Phase, hpc] at hp
  obtain ⟨hc, hdown⟩ := hp
  cases hrun
  have hlen : (s.begun.take s.done).length = s.done := by
    rw [length_take]; have := h.durable.done; omega
  have htake : (s.begun.take s.done).take s.done = s.begun.take s.done := by
    rw [take_take, min_self]
  have hsub : (s.begun.take s.done).Sublist s.begun := take_sublist _ _
  have hflat : ∀ u ∈ (s.begun.take s.done).flatten, u ∈ s.begun.flatten := by
    intro u hu
    obtain ⟨t, ht, hut⟩ := mem_flatten.1 hu
    exact mem_flatten_of_mem (hsub.subset ht) hut
  refine ⟨⟨h.durable.good, ?_, le_refl _, le_of_eq hlen.symm⟩, h.good,
    ⟨?_, ?_, h.ops.active_lt, ?_, fun _ hu => (not_mem_nil hu).elim⟩, view, ?_⟩
  · simp only [htake]
    exact h.durable.restores
  · refine pairwise_append.2 ⟨?_, pairwise_singleton _ _, ?_⟩
    · exact (pairwise_append.1 h.ops.apart).1.sublist hsub
    · intro t _ t' ht' u _ u' hu'
      rw [mem_singleton.1 ht'] at hu'
      exact (not_mem_nil hu').elim
  · exact fun op hop u hu => h.ops.active op hop u (hflat u hu)
  · exact fun u hu => h.ops.begun_lt u (hflat u hu)
  · have hdown' : s.Down := hdown
    simp only [Phase]
    refine ⟨by rw [Ok, hc.lh]; exact hc.ok, hc.head, hdown'.1, ?_, hlen.symm,
      fun b => by simp [hc.lh], ?_⟩
    · rw [hdown'.2, hdown'.3]; rfl
    · intro b hb
      have hrest := h.durable.restores.rest b hb (by rw [hc.head]; exact not_mem_nil)
      rw [contents_append_nil, ← hrest]
      exact hc.ok.dropped b rfl

theorem inv_advance : s'.Inv sb disk₀ := by
  cases hpc : s.pc with
  | run =>
    simp only [advance, Run.bind_read, id, hpc] at hrun
    cases hrun
    exact h
  | writeLog tail => exact inv_writeLog h hrun hpc
  | writeHead => exact inv_writeHead h hrun hpc
  | install tail => exact inv_install h hrun hpc
  | clear => exact inv_clear h hrun hpc
  | finish => exact inv_finish h hrun hpc
  | boot => exact inv_boot h hrun hpc
  | recover tail => exact inv_recover h hrun hpc
  | recClear => exact inv_recClear h hrun hpc
  | recovered => exact inv_recovered h hrun hpc

end

theorem inv_crash : s.reboot.Inv sb disk₀ :=
  ⟨⟨h.durable.good, h.durable.restores, h.durable.returned, h.durable.done⟩, .nil,
    ⟨h.ops.apart, fun _ ho => (not_mem_nil ho).elim, fun _ ho => (not_mem_nil ho).elim,
      h.ops.begun_lt, h.ops.cur_lt⟩, s.log.bio.disk, Bio.ok_binit _, rfl, rfl, rfl, rfl⟩

/-- **Every step keeps the invariant.** -/
theorem inv_step {e : LogEvent} (hs : (logs sb disk₀).Step s e s') : s'.Inv sb disk₀ := by
  obtain ⟨hg, hrun⟩ := hs
  cases e with
  | begin => exact inv_begin h hg hrun
  | update op b data => exact inv_update h hg hrun
  | endOp op => exact inv_endOp h hg hrun
  | step => exact inv_advance h hrun
  | crash => cases hrun; exact inv_crash h
  | read b =>
    obtain ⟨l, hl, rfl⟩ := onLog_ok hrun
    obtain ⟨pinned, view, hok⟩ := h.exists_ok
    obtain ⟨-, hmem, hdisk⟩ := (read_spec hok b).of_ok hl
    refine h.other hmem (fun b _ => by rw [hdisk]) fun pinned view hok => ?_
    exact ⟨view, ((read_spec hok b).of_ok hl).1, fun _ _ => rfl⟩
  | swap b data =>
    obtain ⟨l, hl, rfl⟩ := onLog_ok hrun
    obtain ⟨pinned, view, hok⟩ := h.exists_ok
    have hb : swapbase ≤ b := hg.2
    have hne : ∀ c < swapbase, c ≠ b := fun c hc => Nat.ne_of_lt (hc.trans_le hb)
    obtain ⟨-, hmem, hdisk⟩ := (swapBlock_spec hok hb data).of_ok hl
    refine h.other hmem (fun c hc => ?_) fun pinned view hok => ?_
    · rw [hdisk, update_of_ne (hne c hc)]
    · exact ⟨_, ((swapBlock_spec hok hb data).of_ok hl).1, fun c hc =>
        update_of_ne (hne c hc) ..⟩

end

theorem inv_reachable (h : (logs sb disk₀).Reachable s) : s.Inv sb disk₀ := by
  refine h.invariant ?_ fun _ _ _ hi hs => inv_step hi hs
  rintro _ ⟨hempty, rfl⟩
  refine ⟨⟨?_, ?_, le_refl _, le_refl _⟩, .nil, ⟨?_, ?_, ?_, ?_, ?_⟩, disk₀,
    Bio.ok_binit _, rfl, rfl, rfl, rfl⟩
  · change GoodHead sb (headDecode (disk₀ sb.logstart))
    rw [hempty]; exact .nil
  · change Restores sb.Home (logSlot sb) (headDecode (disk₀ sb.logstart)) _ disk₀
    rw [hempty]; exact .nil fun _ _ => rfl
  · exact pairwise_singleton _ _
  all_goals exact fun _ h => (not_mem_nil h).elim

end LogSys

/-- **Crash atomicity.**  Whenever recovery has completed, after any number of crashes, the home
blocks hold what some prefix of the transactions made of them.  The prefix contains every
transaction whose `end_op` has returned, and of every operation all updates or none. -/
theorem crash_atomic (h : (logs sb disk₀).Reachable s) (hpc : s.pc = .recovered) :
    ∃ k, s.returned ≤ k ∧ k ≤ s.begun.length ∧
      (∀ b, sb.Home b → s.log.bio.disk b = contents disk₀ (s.begun.take k) b) ∧
      ∀ op, (∀ u ∈ (s.begun.take k).flatten, u.op ≠ op) ∨
        ∀ u ∈ (s.begun.drop k ++ [s.cur]).flatten, u.op ≠ op := by
  have hi := LogSys.inv_reachable h
  obtain ⟨view, hp⟩ := hi.phase
  simp only [LogSys.Phase, hpc] at hp
  refine ⟨s.done, hi.durable.returned, hi.durable.done, fun b hb => ?_, fun op => ?_⟩
  · exact hi.durable.restores.rest b hb (by rw [hp.1.head]; exact not_mem_nil)
  · by_contra hno
    obtain ⟨hn1, hn2⟩ := not_or.1 hno
    push Not at hn1 hn2
    obtain ⟨u, hu, huop⟩ := hn1
    obtain ⟨v, hv, hvop⟩ := hn2
    obtain ⟨t, ht, hut⟩ := mem_flatten.1 hu
    obtain ⟨t', ht', hvt⟩ := mem_flatten.1 hv
    have hsplit : s.begun ++ [s.cur] = s.begun.take s.done ++ (s.begun.drop s.done ++ [s.cur]) := by
      rw [← append_assoc, take_append_drop]
    have hap := hi.ops.apart
    rw [hsplit] at hap
    exact (pairwise_append.1 hap).2.2 t ht t' ht' u hut v hvt (huop.trans hvop.symm)

/-- An operation changes block 100 and commits; the machine stops after the header has been written
and again while the block is being installed.  The update survives. -/
theorem crash_atomic_install : ∃ s, (logs .mkfs fun _ _ => 0).Reachable s ∧ s.pc = .recovered ∧
    s.begun.length = 1 ∧ ∃ k, s.returned ≤ k ∧ k ≤ s.begun.length ∧ (∀ b, Superblock.mkfs.Home b →
        s.log.bio.disk b = contents (fun _ _ => 0) (s.begun.take k) b) ∧
      ∀ op, (∀ u ∈ (s.begun.take k).flatten, u.op ≠ op) ∨
        ∀ u ∈ (s.begun.drop k ++ [s.cur]).flatten, u.op ≠ op := by
  obtain ⟨s, hs, ht⟩ := Machine.Reachable.test (M := logs .mkfs fun _ _ => 0)
    (fun e s => of_decide_eq_true (p := e.Ok .mkfs s))
    (.init ⟨by decide, rfl⟩) [.step, .step, .step, .begin, .update 0 100 fun _ => 7, .endOp 0,
      .step, .step, .crash, .step, .step, .crash, .step, .step, .step]
    (t := fun s => s.pc = .recovered ∧ s.begun.length = 1) (by decide +kernel)
  obtain ⟨hpc, hlen⟩ := of_decide_eq_true ht
  exact ⟨s, hs, hpc, hlen, crash_atomic hs hpc⟩

/-- **The log writes ahead.**  While no commit is in progress, the home blocks on disk are those of
the committed transactions, and a `bread` gets all updates since then, too, unless it panics because
every buffer is in use. -/
theorem write_ahead (h : (logs sb disk₀).Reachable s) (hpc : s.pc = .run) (hb : sb.Home b) :
    s.log.bio.disk b = contents disk₀ s.begun b ∧
      Ensures (bread rootdev b s.log.bio) (fun i t =>
        (t.buf i).data = contents disk₀ (s.begun ++ [s.cur]) b) fun e => e = .bgetNoBuffers := by
  have hi := LogSys.inv_reachable h
  obtain ⟨view, hp⟩ := hi.phase
  simp only [LogSys.Phase, hpc] at hp
  constructor
  · have hrest := hi.durable.restores.rest b hb (by rw [hp.head]; exact not_mem_nil)
    rwa [hp.done, take_length] at hrest
  · have hspec := bread_spec hp.ok b
    rw [devOf_of_lt hb.1] at hspec
    refine hspec.mono (fun i t ht => ?_) fun e he => he.1
    rw [ht.1.data i b ht.2.1, hp.view b hb]

/-- An operation has changed block 100 and has not ended. -/
theorem write_ahead_changed : ∃ s, (logs .mkfs fun _ _ => 0).Reachable s ∧ s.pc = .run ∧
    s.cur.length = 1 ∧ s.log.bio.disk 100 = contents (fun _ _ => 0) s.begun 100 ∧
      Ensures (bread rootdev 100 s.log.bio) (fun i t =>
        (t.buf i).data = contents (fun _ _ => 0) (s.begun ++ [s.cur]) 100)
        fun e => e = .bgetNoBuffers := by
  obtain ⟨s, hs, ht⟩ := Machine.Reachable.test (M := logs .mkfs fun _ _ => 0)
    (fun e s => of_decide_eq_true (p := e.Ok .mkfs s))
    (.init ⟨by decide, rfl⟩) [.step, .step, .step, .begin, .update 0 100 fun _ => 7]
    (t := fun s => s.pc = .run ∧ s.cur.length = 1) (by decide +kernel)
  obtain ⟨hpc, hlen⟩ := of_decide_eq_true ht
  exact ⟨s, hs, hpc, hlen, write_ahead hs hpc (by decide)⟩

end Xv6Swap
