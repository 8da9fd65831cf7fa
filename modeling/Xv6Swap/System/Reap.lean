import Xv6Swap.System.Family

/-!
# Exited children are reaped once

The history of the process table: who has exited, and who was returned by which call of `wait`.

* `Ptable.Recorded` : the history agrees with the table;
* `Ptable.Quiet`, `Ptable.Recorded.quiet` : most steps create, end and reap nobody;
* `Ptable.Recorded.parent` : **the parent pointer of a process names the process that created it,
  or `init` once that one has exited**, even though entries of the table are used again;
* `Ptable.reaping` : **every process that exits is a zombie until one call of `wait`, made by its
  parent at that time, returns its pid and status.**

A process in `exit` gives its children to `init` before it is a zombie itself.  In between its
children have the parent `init` while their creator has not exited yet; as it holds `wait_lock`,
no call of `wait` sees this.
-/

namespace Xv6Swap

open Function PtSlot Ptable List

/-- In `exit`, with `wait_lock` held. -/
def PtPc.Exiting : PtPc → Prop
  | .reparent _ _ | .leave _ => True
  | _ => False

namespace Ptable

variable {np k p j c : ℕ} {s s' : Ptable} {α : Type} {x : PtSlot} {pc : PtPc} {status : BitVec 32}

/-- The history agrees with the table. -/
structure Recorded (s : Ptable) : Prop where
  lt : ∀ k, (s.slot k).state ≠ .unused → (s.slot k).birth < s.births
  inj : ∀ k l, (s.slot k).state ≠ .unused → (s.slot l).state ≠ .unused →
    (s.slot k).birth = (s.slot l).birth → k = l
  fresh : ∀ i, s.births ≤ i → s.exits i = none
  alive : ∀ k, (s.slot k).state ≠ .unused → (s.slot k).state ≠ .zombie →
    s.exits (s.slot k).birth = none
  zombie : ∀ k, (s.slot k).state = .zombie →
    s.exits (s.slot k).birth = some ((s.slot k).pid, (s.slot k).xstate)
  kept : ∀ i, s.exits i ≠ none →
    (∃ k, (s.slot k).state = .zombie ∧ (s.slot k).birth = i) ∨ ∃ r ∈ s.reaps, r.birth = i
  reaped : ∀ r ∈ s.reaps, s.exits r.birth = some (r.pid, r.status)
  waiter : ∀ r ∈ s.reaps, r.waiter = if r.orphan then 0 else r.mother
  once : (s.reaps.map PtReap.birth).Nodup
  out : ∀ r ∈ s.reaps, ∀ k, (s.slot k).state ≠ .unused → (s.slot k).birth ≠ r.birth
  root : (s.slot 0).birth = 0
  mother : ∀ k p, (s.slot k).parent = some p → (s.slot p).birth = (s.slot k).mother ∨
    p = 0 ∧ (s.exits (s.slot k).mother ≠ none ∨
      ∃ q, (s.slot q).state.Live ∧ (s.slot q).birth = (s.slot k).mother ∧ (s.slot q).pc.Exiting)
  child : ∀ p c, (s.slot p).state.Live → (s.slot p).pc.child = some c →
    (s.slot c).mother = (s.slot p).birth

/-- A step that creates, ends and reaps no process, and changes no parent. -/
structure Quiet (s s' : Ptable) : Prop where
  birth : ∀ k, (s'.slot k).birth = (s.slot k).birth
  mother : ∀ k, (s'.slot k).mother = (s.slot k).mother
  pid : ∀ k, (s'.slot k).pid = (s.slot k).pid
  xstate : ∀ k, (s'.slot k).xstate = (s.slot k).xstate
  parent : ∀ k, (s'.slot k).parent = (s.slot k).parent
  unused : ∀ k, (s'.slot k).state = .unused ↔ (s.slot k).state = .unused
  zombie : ∀ k, (s'.slot k).state = .zombie ↔ (s.slot k).state = .zombie
  births : s'.births = s.births
  exits : s'.exits = s.exits
  reaps : s'.reaps = s.reaps
  exiting : ∀ q, (s.slot q).state.Live → (s.slot q).pc.Exiting →
    (s'.slot q).state.Live ∧ (s'.slot q).pc.Exiting
  child : ∀ p c, (s'.slot p).state.Live → (s'.slot p).pc.child = some c →
    (s.slot p).state.Live ∧ (s.slot p).pc.child = some c ∨
      (s.slot c).mother = (s.slot p).birth

theorem Recorded.quiet (hi : s.Recorded) (h : Quiet s s') : s'.Recorded where
  lt k := by
    rw [h.birth, h.births, ne_eq, h.unused]
    exact hi.lt k
  inj k l := by
    rw [h.birth, h.birth, ne_eq, ne_eq, h.unused, h.unused]
    exact hi.inj k l
  fresh := by
    rw [h.births, h.exits]
    exact hi.fresh
  alive k := by
    rw [h.birth, h.exits, ne_eq, ne_eq, h.unused, h.zombie]
    exact hi.alive k
  zombie k := by
    rw [h.birth, h.exits, h.zombie, h.pid, h.xstate]
    exact hi.zombie k
  kept i := by
    simp only [h.exits, h.reaps, h.birth, h.zombie]
    exact hi.kept i
  reaped := by
    rw [h.exits, h.reaps]
    exact hi.reaped
  waiter := by
    rw [h.reaps]
    exact hi.waiter
  once := by
    rw [h.reaps]
    exact hi.once
  out := by
    simp only [h.reaps, h.birth, ne_eq, h.unused]
    exact hi.out
  root := by
    rw [h.birth]
    exact hi.root
  mother k p hk := by
    rw [h.parent] at hk
    rw [h.birth, h.mother, h.exits]
    refine (hi.mother k p hk).imp_right fun ⟨hp, hq⟩ => ⟨hp, hq.imp_right ?_⟩
    rintro ⟨q, hl, hb, he⟩
    exact ⟨q, (h.exiting q hl he).1, by rw [h.birth, hb], (h.exiting q hl he).2⟩
  child p c hp hc := by
    rw [h.mother, h.birth]
    rcases h.child p c hp hc with ⟨hp, hc⟩ | h
    · exact hi.child p c hp hc
    · exact h

theorem ite_slot (f : PtSlot → α) {q : ℕ} :
    (if q = k then f (s.slot k) else f (s.slot q)) = f (s.slot q) := by
  split_ifs with h
  · rw [h]
  · rfl

theorem Quiet.goto (he : (s.slot p).pc.Exiting → pc.Exiting)
    (hc : ∀ c, pc.child = some c → (s.slot p).pc.child = some c ∨
      (s.slot c).mother = (s.slot p).birth) : Quiet s (s.goto p pc) := by
  have hst := (same_goto s p pc).state
  refine ⟨set_field PtSlot.birth rfl, set_field PtSlot.mother rfl, set_field PtSlot.pid rfl,
    set_field PtSlot.xstate rfl, (same_goto s p pc).parent, fun k => by rw [hst],
    fun k => by rw [hst], rfl, rfl, rfl, ?_, ?_⟩
  · intro q hq hx
    rw [hst]
    rcases eq_or_ne q p with rfl | hqp
    · rw [goto_pc_self]
      exact ⟨hq, he hx⟩
    · rw [goto_pc_ne s pc hqp]
      exact ⟨hq, hx⟩
  · intro q c hq hx
    rw [hst] at hq
    rcases eq_or_ne q p with rfl | hqp
    · rw [goto_pc_self] at hx
      exact (hc c hx).imp_left fun h => ⟨hq, h⟩
    · rw [goto_pc_ne s pc hqp] at hx
      exact .inl ⟨hq, hx⟩

theorem Quiet.trans {s'' : Ptable} (h : Quiet s s') (h' : Quiet s' s'') : Quiet s s'' where
  birth k := (h'.birth k).trans (h.birth k)
  mother k := (h'.mother k).trans (h.mother k)
  pid k := (h'.pid k).trans (h.pid k)
  xstate k := (h'.xstate k).trans (h.xstate k)
  parent k := (h'.parent k).trans (h.parent k)
  unused k := (h'.unused k).trans (h.unused k)
  zombie k := (h'.zombie k).trans (h.zombie k)
  births := h'.births.trans h.births
  exits := h'.exits.trans h.exits
  reaps := h'.reaps.trans h.reaps
  exiting q hl he := h'.exiting q (h.exiting q hl he).1 (h.exiting q hl he).2
  child p c hp hc := by
    rcases h'.child p c hp hc with ⟨hp, hc⟩ | h1
    · exact h.child p c hp hc
    · rw [h.mother, h.birth] at h1
      exact .inr h1

theorem Quiet.lock (s : Ptable) (w : Option ℕ) : Quiet s { s with waitLock := w } :=
  ⟨fun _ => rfl, fun _ => rfl, fun _ => rfl, fun _ => rfl, fun _ => rfl, fun _ => Iff.rfl,
    fun _ => Iff.rfl, rfl, rfl, rfl, fun _ h h' => ⟨h, h'⟩, fun _ _ h h' => .inl ⟨h, h'⟩⟩

/-- The state of a process changes, but not whether it is in use or has exited. -/
theorem Quiet.set (hb : x.birth = (s.slot k).birth)
    (hm : x.mother = (s.slot k).mother) (hp : x.pid = (s.slot k).pid)
    (hx : x.xstate = (s.slot k).xstate) (hpar : x.parent = (s.slot k).parent)
    (hu : x.state = .unused ↔ (s.slot k).state = .unused)
    (hz : x.state = .zombie ↔ (s.slot k).state = .zombie)
    (hl : (s.slot k).state.Live → (s.slot k).pc.Exiting → x.state.Live ∧ x.pc.Exiting)
    (hc : ∀ c, x.state.Live → x.pc.child = some c →
      (s.slot k).state.Live ∧ (s.slot k).pc.child = some c) : Quiet s (s.set k x) := by
  refine ⟨set_field PtSlot.birth hb, set_field PtSlot.mother hm, set_field PtSlot.pid hp,
    set_field PtSlot.xstate hx, set_field PtSlot.parent hpar,
    fun q => iff_of_eq (set_field (fun y => y.state = .unused) (propext hu) q),
    fun q => iff_of_eq (set_field (fun y => y.state = .zombie) (propext hz) q),
    rfl, rfl, rfl, ?_, ?_⟩
  · intro q hq he
    rw [set_state, set_pc]
    split_ifs with h
    · subst h
      exact hl hq he
    · exact ⟨hq, he⟩
  · intro q c hq he
    rw [set_state] at hq
    rw [set_pc] at he
    split_ifs at hq he with h
    · subst h
      exact .inl (hc c hq he)
    · exact .inl ⟨hq, he⟩

/-- A process changes its state, its position or its flags. -/
theorem Quiet.restate {state : PtState} {killed asked : Bool}
    (hst : state = (s.slot k).state ∨ (s.slot k).state.Live ∧ state.Live)
    (he : (s.slot k).pc.Exiting → pc.Exiting)
    (hc : ∀ c, pc.child = some c → (s.slot k).pc.child = some c) :
    Quiet s (s.set k { s.slot k with state, pc, killed, asked }) := by
  refine Quiet.set rfl rfl rfl rfl rfl ?_ ?_ (fun hl h => ⟨?_, he h⟩) fun c hl h => ⟨?_, hc c h⟩
  · change state = .unused ↔ _
    rcases hst with h | ⟨h, h'⟩
    · rw [h]
    · exact ⟨fun e => by rw [e] at h'; exact h'.elim, fun e => by rw [e] at h; exact h.elim⟩
  · change state = .zombie ↔ _
    rcases hst with h | ⟨h, h'⟩
    · rw [h]
    · exact ⟨fun e => by rw [e] at h'; exact h'.elim, fun e => by rw [e] at h; exact h.elim⟩
  · rcases hst with h | ⟨-, h⟩
    · rwa [h]
    · exact h
  · rcases hst with h | ⟨h, -⟩
    · rwa [← h]
    · exact h

/-! ### Steps that change the family -/

section

variable (hi : s.Recorded)
include hi

theorem Recorded.claim (hf : s.Family np)
    (hp : (s.slot p).state.Live) (hu : (s.slot j).state = .unused) : (s.claim p j).Recorded := by
  have hpj : p ≠ j := by
    rintro rfl
    rw [hu] at hp
    exact hp
  have hj : ∀ {k}, (s.slot k).state.Live → k ≠ j := by
    rintro k hk rfl
    rw [hu] at hk
    exact hk
  constructor <;> simp only [Ptable.claim, set_state, set_birth, set_exits, set_pid, set_xstate,
    set_reaps, set_parent, set_mother, set_pc]
  · intro k hk
    split_ifs at hk ⊢
    · omega
    · have := hi.lt k hk
      omega
  · intro k l hk hl h
    split_ifs at hk hl h with h1 h2 h2
    · rw [h1, h2]
    · have := hi.lt l hl
      omega
    · have := hi.lt k hk
      omega
    · exact hi.inj k l hk hl h
  · exact fun i h => hi.fresh i (by omega)
  · intro k hk hz
    split_ifs at hk hz ⊢
    · exact hi.fresh _ (Nat.le_refl _)
    · exact hi.alive k hk hz
  · intro k hz
    split_ifs at hz ⊢
    exact hi.zombie k hz
  · intro i h
    rcases hi.kept i h with ⟨k, hk, hb⟩ | h
    · have hkj : k ≠ j := by
        rintro rfl
        rw [hu] at hk
        cases hk
      exact .inl ⟨k, by rw [if_neg hkj]; exact hk, by rw [if_neg hkj]; exact hb⟩
    · exact .inr h
  · exact hi.reaped
  · exact hi.waiter
  · exact hi.once
  · intro r hr k hk
    split_ifs at hk ⊢
    · intro h
      have := hi.fresh r.birth (by omega)
      rw [hi.reaped r hr] at this
      cases this
    · exact hi.out r hr k hk
  · rw [if_neg (hj hf.init)]
    exact hi.root
  · intro k q hk
    split_ifs at hk with hkj
    · rw [hf.unused j hu] at hk
      cases hk
    · rw [if_neg (hj (hf.parent k q hk)), if_neg hkj]
      refine (hi.mother k q hk).imp_right fun h => ⟨h.1, h.2.imp_right ?_⟩
      rintro ⟨r, hl, hb, he⟩
      refine ⟨r, ?_, ?_, ?_⟩
      · rwa [if_neg (hj hl)]
      · rwa [if_neg (hj hl)]
      · rwa [if_neg (hj hl)]
  · intro q c hq hc
    rcases eq_or_ne q j with rfl | hqj
    · rw [if_pos rfl] at hq
      exact hq.elim
    · rw [if_neg hqj] at hq hc
      have hcj : c ≠ j := by
        rintro rfl
        have := (hf.pos q hq).used hc
        rw [hu] at this
        cases this
      rw [if_neg hqj, if_neg hcj]
      exact hi.child q c hq hc

/-- An entry is freed, and what it held is in the history if its process had exited. -/
theorem Recorded.free {rs : List PtReap} (hf : s.Family np)
    (hc : ¬ (s.slot c).state.Live) (hcu : (s.slot c).state ≠ .unused)
    (hkept : s.exits (s.slot c).birth ≠ none → ∃ r ∈ rs, r.birth = (s.slot c).birth)
    (hsub : ∀ r ∈ s.reaps, r ∈ rs) (hnew : ∀ r ∈ rs, r ∈ s.reaps ∨ r.birth = (s.slot c).birth ∧
      s.exits r.birth = some (r.pid, r.status) ∧ r.waiter = if r.orphan then 0 else r.mother)
    (honce : (rs.map PtReap.birth).Nodup) : { s.freeproc c with reaps := rs }.Recorded := by
  have hne : ∀ {k}, (s.slot k).state.Live → k ≠ c := by
    rintro k hk rfl
    exact hc hk
  constructor <;> simp only [freeproc, set_state, set_birth, set_exits, set_pid, set_xstate,
    set_parent, set_mother, set_pc, set_births]
  · intro k hk
    split_ifs at hk ⊢ with h
    · exact absurd rfl hk
    · exact hi.lt k hk
  · intro k l hk hl h
    split_ifs at hk hl h with h1 h2 h2
    · rw [h1, h2]
    · exact absurd rfl hk
    · exact absurd rfl hl
    · exact hi.inj k l hk hl h
  · exact hi.fresh
  · intro k hk hz
    split_ifs at hk hz ⊢
    · exact absurd rfl hk
    · exact hi.alive k hk hz
  · intro k hz
    split_ifs at hz ⊢
    exact hi.zombie k hz
  · intro i h
    rcases hi.kept i h with ⟨k, hk, hb⟩ | ⟨r, hr, hb⟩
    · rcases eq_or_ne k c with rfl | hkc
      · subst hb
        exact .inr (hkept h)
      · exact .inl ⟨k, by rw [if_neg hkc]; exact hk, by rw [if_neg hkc]; exact hb⟩
    · exact .inr ⟨r, hsub r hr, hb⟩
  · intro r hr
    rcases hnew r hr with h | ⟨-, h, -⟩
    · exact hi.reaped r h
    · exact h
  · intro r hr
    rcases hnew r hr with h | ⟨-, -, h⟩
    · exact hi.waiter r h
    · exact h
  · exact honce
  · intro r hr k hk
    split_ifs at hk ⊢ with h
    · exact absurd rfl hk
    · rcases hnew r hr with h' | ⟨h', -, -⟩
      · exact hi.out r h' k hk
      · rw [h']
        exact fun e => h (hi.inj k c hk hcu e)
  · rw [if_neg (hne hf.init)]
    exact hi.root
  · intro k q hk
    split_ifs at hk with hkc
    rw [if_neg (hne (hf.parent k q hk)), if_neg hkc]
    refine (hi.mother k q hk).imp_right fun h => ⟨h.1, h.2.imp_right ?_⟩
    rintro ⟨r, hl, hb, he⟩
    refine ⟨r, ?_, ?_, ?_⟩
    · rwa [if_neg (hne hl)]
    · rwa [if_neg (hne hl)]
    · rwa [if_neg (hne hl)]
  · intro q d hq hd
    rcases eq_or_ne q c with rfl | hqc
    · rw [if_pos rfl] at hq
      exact hq.elim
    · rw [if_neg hqc] at hq hd
      rw [if_neg hqc, ← hi.child q d hq hd, ite_slot PtSlot.mother]

/-- The parent of an entry changes, to the process that created it or to `init` after the one that
created it has begun to exit. -/
theorem Recorded.setParent (hm : (s.slot p).birth = (s.slot c).mother ∨ p = 0 ∧
      ∃ q, (s.slot q).state.Live ∧ (s.slot q).birth = (s.slot c).mother ∧ (s.slot q).pc.Exiting) :
    (s.set c { s.slot c with parent := some p }).Recorded := by
  have hfield : ∀ {α : Type} (f : PtSlot → α) (_ : f { s.slot c with parent := some p } =
      f (s.slot c)) (q : ℕ), f ((s.set c { s.slot c with parent := some p }).slot q) =
        f (s.slot q) := fun f hf q => set_field f hf q
  have hbirth := hfield birth rfl
  have hmother := hfield PtSlot.mother rfl
  have hstate := hfield state rfl
  have hpc := hfield pc rfl
  constructor <;> simp only [hbirth, hmother, hstate, hpc, hfield pid rfl, hfield xstate rfl]
  · exact hi.lt
  · exact hi.inj
  · exact hi.fresh
  · exact hi.alive
  · exact hi.zombie
  · exact hi.kept
  · exact hi.reaped
  · exact hi.waiter
  · exact hi.once
  · exact hi.out
  · exact hi.root
  · intro k q hk
    rw [set_parent] at hk
    split_ifs at hk with h
    · cases hk
      rw [h]
      exact hm.imp_right fun ⟨hp, hq⟩ => ⟨hp, .inr hq⟩
    · exact hi.mother k q hk
  · exact hi.child

theorem Recorded.leave (hp : (s.slot p).state.Live) : (s.leave p status).Recorded := by
  have hpu : (s.slot p).state ≠ .unused := by
    intro h
    rw [h] at hp
    exact hp
  have hother : ∀ k, (s.slot k).state ≠ .unused → k ≠ p → (s.slot k).birth ≠ (s.slot p).birth :=
    fun k hk h e => h (hi.inj k p hk hpu e)
  have hgrow : ∀ i, s.exits i ≠ none → update s.exits (s.slot p).birth
      (some ((s.slot p).pid, status)) i ≠ none := by
    intro i h
    rw [update_apply]
    split_ifs
    · exact fun h => by cases h
    · exact h
  constructor <;> simp only [Ptable.leave, set_state, set_birth, set_pid, set_xstate,
    set_parent, set_mother, set_pc, set_births, set_reaps]
  · intro k hk
    split_ifs at hk ⊢ with h
    · exact hi.lt p hpu
    · exact hi.lt k hk
  · intro k l hk hl h
    split_ifs at hk hl h with h1 h2 h2
    · rw [h1, h2]
    · rw [h1]
      exact hi.inj p l hpu hl h
    · rw [h2]
      exact hi.inj k p hk hpu h
    · exact hi.inj k l hk hl h
  · intro i h
    have := hi.lt p hpu
    rw [update_of_ne (by omega)]
    exact hi.fresh i h
  · intro k hk hz
    split_ifs at hk hz ⊢ with h
    · exact absurd rfl hz
    · rw [update_of_ne (hother k hk h)]
      exact hi.alive k hk hz
  · intro k hz
    split_ifs at hz ⊢ with h
    · rw [update_self]
    · rw [update_of_ne (hother k (by rw [hz]; exact fun h => by cases h) h)]
      exact hi.zombie k hz
  · intro i h
    rcases eq_or_ne i (s.slot p).birth with rfl | hip
    · exact .inl ⟨p, by rw [if_pos rfl], by rw [if_pos rfl]⟩
    · rw [update_of_ne hip] at h
      refine (hi.kept i h).imp_left ?_
      rintro ⟨k, hk, hb⟩
      refine ⟨k, ?_, ?_⟩
      · split_ifs
        · rfl
        · exact hk
      · rw [ite_slot birth]
        exact hb
  · intro r hr
    rw [update_of_ne (hi.out r hr p hpu).symm]
    exact hi.reaped r hr
  · exact hi.waiter
  · exact hi.once
  · intro r hr k hk
    split_ifs at hk ⊢
    · exact hi.out r hr p hpu
    · exact hi.out r hr k hk
  · rw [ite_slot birth]
    exact hi.root
  · intro k q hk
    rw [ite_slot parent] at hk
    rw [ite_slot PtSlot.birth, ite_slot PtSlot.mother]
    refine (hi.mother k q hk).imp_right fun h => ⟨h.1, ?_⟩
    rcases h.2 with h | ⟨r, hl, hb, he⟩
    · exact .inl (hgrow _ h)
    · rcases eq_or_ne r p with h | hrp
      · rw [← hb, h, update_self]
        exact .inl fun h => by cases h
      · refine .inr ⟨r, ?_, ?_, ?_⟩
        · rwa [if_neg hrp]
        · rwa [if_neg hrp]
        · rwa [if_neg hrp]
  · intro q c hq hc
    rcases eq_or_ne q p with rfl | hqp
    · rw [if_pos rfl] at hq
      exact hq.elim
    · rw [if_neg hqp] at hq hc
      rw [if_neg hqp, ← hi.child q c hq hc, ite_slot PtSlot.mother]

/-- A process moves in the code, and may take or give up the lock. -/
theorem Recorded.goto (w : Option ℕ) (he : (s.slot p).pc.Exiting → pc.Exiting)
    (hc : ∀ c, pc.child = some c → (s.slot p).pc.child = some c) :
    { s.goto p pc with waitLock := w }.Recorded :=
  hi.quiet ((Quiet.goto he fun c h => .inl (hc c h)).trans (.lock _ w))

/-- A process returns from `kill`. -/
theorem Recorded.killRet {ret : ℤ} (hx : ¬ (s.slot p).pc.Exiting) : (s.killRet p ret).Recorded := by
  have hset : Quiet s (s.set p { s.slot p with ret }) :=
    .set rfl rfl rfl rfl rfl .rfl .rfl (fun h h' => ⟨h, h'⟩) fun _ h h' => ⟨h, h'⟩
  refine (hi.quiet hset).goto s.waitLock (fun h => ?_) fun d h => by cases h
  rw [set_pc, ite_slot pc] at h
  exact absurd h hx

/-- The parent of a process that waits for it is the process that created it, or `init`. -/
theorem Recorded.parent (hf : s.Family np)
    (hk : (s.slot k).parent = some p) (hw : s.waitLock = some p) (hx : ¬ (s.slot p).pc.Exiting) :
    (s.slot p).birth = if (s.exits (s.slot k).mother).isSome then 0 else (s.slot k).mother := by
  have hp := hf.parent k p hk
  rcases hi.mother k p hk with h | ⟨rfl, h | ⟨q, hl, -, he⟩⟩
  · have : s.exits (s.slot p).birth = none := by
      refine hi.alive p ?_ ?_ <;> intro h <;> rw [h] at hp <;> exact hp
    rw [← h, this]
    rfl
  · rw [if_pos (Option.isSome_iff_ne_none.2 h), hi.root]
  · -- a process that exits holds the lock
    have hq : s.waitLock = some q := by
      have hat := hf.pos q hl
      cases hpc : (s.slot q).pc with
      | reparent j status =>
        rw [hpc] at hat
        exact hat.2.1
      | leave status =>
        rw [hpc] at hat
        exact hat.2.1
      | _ =>
        rw [hpc] at he
        exact he.elim
    rw [hw] at hq
    cases hq
    exact absurd he hx

theorem Recorded.reap {kid : Bool} (hf : s.Family np)
    (hp : (s.slot p).state.Live) (hpc : (s.slot p).pc = .scan j kid)
    (hj : (s.slot j).parent = some p) (hz : (s.slot j).state = .zombie) :
    (s.reap p j).Recorded := by
  have hat := hf.pos p hp
  rw [hpc] at hat
  have hju : (s.slot j).state ≠ .unused := by
    rw [hz]
    exact nofun
  have hex := hi.zombie j hz
  have hwaiter := hi.parent hf hj hat.1 (by rw [hpc]; exact fun h => h)
  have hfree : { s.freeproc j with
      reaps := s.reaps ++ [PtReap.mk (s.slot j).birth (s.slot j).pid (s.slot j).xstate
        (s.slot j).mother (s.exits (s.slot j).mother).isSome (s.slot p).birth] }.Recorded := by
    refine hi.free hf (by rw [hz]; exact fun h => h) hju (fun _ => ⟨_, mem_append_right _
      (mem_singleton_self _), rfl⟩) (fun r hr => mem_append_left _ hr) ?_ ?_
    · intro r hr
      rcases mem_append.1 hr with hr | hr
      · exact .inl hr
      · rw [mem_singleton.1 hr]
        exact .inr ⟨rfl, hex, hwaiter⟩
    · rw [map_append, nodup_append]
      refine ⟨hi.once, Pairwise.cons nofun .nil, ?_⟩
      intro a ha b hb
      obtain ⟨r, hr, rfl⟩ := mem_map.1 ha
      rw [map_singleton, mem_singleton] at hb
      rw [hb]
      exact (hi.out r hr j hju).symm
  have hpj : p ≠ j := by
    rintro rfl
    rw [hz] at hp
    exact hp
  refine hfree.goto none (fun h => ?_) fun c h => by cases h
  rw [freeproc, set_pc, if_neg hpj, hpc] at h
  exact h

end

theorem Stepped.recorded (h : Stepped np s p s') (hi : s.Recorded) (hf : s.Family np)
    (hp : (s.slot p).state.Live) : s'.Recorded := by
  have hat := hf.pos p hp
  cases h with
  | skipUsed j hpc | noSlot j hpc | killMiss pid j since hpc hj =>
    exact hi.goto s.waitLock (by rw [hpc]; exact fun h => h.elim) fun c h => by cases h
  | claim j hpc hj hu =>
    have hpj : p ≠ j := by
      rintro rfl
      rw [hu] at hp
      exact hp
    refine (hi.claim hf hp hu).quiet (.goto (fun h => ?_) fun c h => .inr ?_)
    · simp only [Ptable.claim, set_pc, if_neg hpj, hpc] at h
      exact h
    · cases h
      simp only [Ptable.claim, set_mother, set_birth, if_neg hpj, if_true]
  | framed c hpc | copied c hpc =>
    exact hi.goto s.waitLock (by rw [hpc]; exact fun h => h.elim) fun d h => by rw [hpc]; exact h
  | undo c hpc =>
    have hc : (s.slot p).pc.child = some c := by rcases hpc with h | h <;> rw [h] <;> rfl
    have hx : ¬ (s.slot p).pc.Exiting := by
      rcases hpc with h | h <;> rw [h] <;> exact fun h => h
    have hused := hat.used hc
    have hcp : p ≠ c := by
      rintro rfl
      rw [hused] at hp
      exact hp
    have hfree : (s.freeproc c).Recorded := by
      refine hi.free hf (by rw [hused]; exact fun h => h) ?_ (fun h => absurd ?_ h)
        (fun r hr => hr) (fun r hr => .inl hr) hi.once
      · rw [hused]
        exact fun h => by cases h
      · refine hi.alive c ?_ ?_ <;> rw [hused] <;> exact fun h => by cases h
    refine hfree.goto s.waitLock (fun h => ?_) fun d h => by cases h
    rw [freeproc, set_pc, if_neg hcp] at h
    exact absurd h hx
  | adopt c hpc hw =>
    rw [hpc] at hat
    have hcp : p ≠ c := by
      rintro rfl
      rw [hat.1] at hp
      exact hp
    have hm := hi.child p c hp (by rw [hpc]; rfl)
    refine (hi.setParent (.inl hm.symm)).goto s.waitLock (fun h => ?_) fun d h => ?_
    · rw [set_pc, if_neg hcp, hpc] at h
      exact h.elim
    · rw [set_pc, if_neg hcp, hpc]
      exact h
  | publish c hpc =>
    rw [hpc] at hat
    have hcp : p ≠ c := by
      rintro rfl
      rw [hat.1] at hp
      exact hp
    have hset : Quiet s (s.set c { s.slot c with state := .runnable, pc := .user }) := by
      refine Quiet.set rfl rfl rfl rfl rfl ?_ ?_ (fun h => ?_) fun d _ h => by cases h
      · simp only [hat.1, reduceCtorEq]
      · simp only [hat.1, reduceCtorEq]
      · rw [hat.1] at h
        exact h.elim
    refine (hi.quiet hset).goto s.waitLock (fun h => ?_) fun d h => by cases h
    rw [set_pc, if_neg hcp, hpc] at h
    exact h
  | exit status hpc hw =>
    exact hi.goto (some p) (fun _ => trivial) fun c h => by cases h
  | reparent j status hpc hj =>
    rw [hpc] at hat
    have hm : (s.slot p).birth = (s.slot j).mother := by
      rcases hi.mother j p hj with h | ⟨h, -⟩
      · exact h
      · exact absurd h hat.1
    refine (hi.setParent (.inr ⟨rfl, p, hp, hm, by rw [hpc]; trivial⟩)).goto s.waitLock
      (fun _ => trivial) fun d h => by cases h
  | skipOther j status hpc hj | reparented j status hpc hj =>
    exact hi.goto s.waitLock (fun _ => trivial) fun c h => by cases h
  | leave status hpc => exact hi.leave hp
  | wait hpc hw =>
    exact hi.goto (some p) (by rw [hpc]; exact fun h => h.elim) fun c h => by cases h
  | scanned j havekids kid hpc hk =>
    exact hi.goto s.waitLock (by rw [hpc]; exact fun h => h.elim) fun c h => by cases h
  | reap j havekids hpc hj hz => exact hi.reap hf hp hpc hj hz
  | waitRet j havekids hpc =>
    exact hi.goto none (by rw [hpc]; exact fun h => h.elim) fun c h => by cases h
  | waitSleep j havekids hpc =>
    have hset : Quiet s (s.set p { s.slot p with state := .sleeping, pc := .wait }) :=
      .restate (.inr ⟨hp, trivial⟩) (by rw [hpc]; exact fun h => h.elim) fun c h => by cases h
    exact hi.quiet (hset.trans (.lock _ none))
  | killHit pid j since hpc hj =>
    have hhit : Quiet s (s.hit j) := by
      refine Quiet.restate ?_ (fun h => h) fun c h => h
      by_cases h : (s.slot j).state = .sleeping
      · rw [if_pos h, h]
        exact .inr ⟨trivial, trivial⟩
      · rw [if_neg h]
        exact .inl rfl
    refine (hi.quiet hhit).killRet fun h => ?_
    rw [hit, set_pc, ite_slot pc, hpc] at h
    exact h
  | killNone pid j since hpc => exact hi.killRet (by rw [hpc]; exact fun h => h)

theorem Recorded.next {e : PtEvent} (hi : s.Recorded) (hf : s.Family np) (hok : e.Ok np s) :
    (e.next np s).Recorded := by
  cases e with
  | call p c =>
    refine hi.goto s.waitLock ?_ fun d h => by cases c <;> cases h
    rw [hok.2.2.1]
    exact fun h => h.elim
  | step p ok =>
    refine (step_stepped ok hok.2).recorded hi hf ?_
    rw [hok.2.1]
    trivial
  | resched p state =>
    exact hi.quiet (.restate (.inr ⟨hok.2.1, hok.2.2.1⟩) (fun h => h) fun c h => h)
  | fault p => exact hi.quiet (.restate (.inl rfl) (fun h => h) fun c h => h)
  | switched p =>
    refine hi.goto s.waitLock ?_ fun d h => by cases h
    rw [hok.2.2]
    exact fun h => h.elim

theorem start_recorded : start.Recorded := by
  have hslot : ∀ k, k ≠ 0 → start.slot k = .empty := by
    intro k hk
    simp only [start, update_of_ne hk]
  have hz : ∀ k, (start.slot k).state ≠ .unused → k = 0 := by
    intro k hk
    by_contra h0
    rw [hslot k h0] at hk
    exact hk rfl
  constructor
  · intro k hk
    rw [hz k hk]
    exact Nat.one_pos
  · intro k l hk hl _
    rw [hz k hk, hz l hl]
  · exact fun _ _ => rfl
  · exact fun _ _ _ => rfl
  · intro k hk
    rw [hz k (by rw [hk]; exact fun h => by cases h)] at hk
    cases hk
  · exact fun i h => absurd rfl h
  · exact fun r hr => by cases hr
  · exact fun r hr => by cases hr
  · exact .nil
  · exact fun r hr => by cases hr
  · rfl
  · intro k p hk
    rcases eq_or_ne k 0 with rfl | h0
    · cases hk
    · rw [hslot k h0] at hk
      cases hk
  · intro p c _ hc
    rcases eq_or_ne p 0 with rfl | h0
    · cases hc
    · rw [hslot p h0] at hc
      cases hc

theorem recorded_of_reachable (h : (ptable np).Reachable s) : s.Recorded := by
  refine (h.invariant (I := fun s => s.Recorded ∧ s.Family np) ?_ ?_).1
  · rintro s ⟨rfl, h⟩
    exact ⟨start_recorded, start_family h⟩
  · rintro s e s' ⟨hi, hf⟩ ⟨hok, hs⟩
    cases hs
    exact ⟨hi.next hf hok, hf.next hok⟩

/-! ### The main result -/

theorem filter_eq_singleton {β : Type} [DecidableEq β] {f : α → β} {l : List α} {a : α}
    (hl : (l.map f).Nodup) (ha : a ∈ l) : l.filter (fun x => f x = f a) = [a] := by
  induction l with
  | nil => cases ha
  | cons b l ih =>
    obtain ⟨hb, hl⟩ := pairwise_cons.1 hl
    rcases mem_cons.1 ha with rfl | ha
    · rw [filter_cons_of_pos (by simp), filter_eq_nil_iff.2]
      intro x hx
      have := hb (f x) (mem_map_of_mem hx)
      simpa using this.symm
    · have := hb (f a) (mem_map_of_mem ha)
      rw [filter_cons_of_neg (by simpa using this), ih hl ha]

/-- What `fork`, `exit` and `wait` guarantee. -/
structure Reaping (np : ℕ) (s : Ptable) : Prop where
  /-- While `wait_lock` is free, every process but `init` has a parent that has not exited. -/
  parent : s.waitLock = none → ∀ k, k ≠ 0 →
    (s.slot k).state.Live ∨ (s.slot k).state = .zombie →
      ∃ p, (s.slot k).parent = some p ∧
        (s.slot p).state ≠ .unused ∧ (s.slot p).state ≠ .zombie
  /-- A process that has exited is a `ZOMBIE` with its pid and status, or one call of `wait` has
  returned that pid and status. -/
  exited : ∀ i pid status, s.exits i = some (pid, status) →
    (∃ k, (s.slot k).birth = i ∧ (s.slot k).state = .zombie ∧ (s.slot k).pid = pid ∧
      (s.slot k).xstate = status ∧ ∀ r ∈ s.reaps, r.birth ≠ i) ∨
    ∃ r, s.reaps.filter (fun r => r.birth = i) = [r] ∧ r.pid = pid ∧ r.status = status
  /-- Only processes that have exited are returned, to the process that created them, or to
  `init` if that one had exited. -/
  waiter : ∀ r ∈ s.reaps, s.exits r.birth = some (r.pid, r.status) ∧
    r.waiter = if r.orphan then 0 else r.mother
  /-- A failed `copyout` leaves the zombie in place. -/
  copyout : ∀ p j k kid ok, (s.slot p).pc = .scan j kid → s.scan np p j kid ok = .copyout k →
    (s.slot k).state = .zombie ∧ (s.slot k).parent = some p ∧
      ((s.slot p).state = .running → (s.step np p ok).slot k = s.slot k)
  /-- `wait` finds no children only if there are none. -/
  nokids : ∀ p j kid ok, (s.slot p).state = .running → (s.slot p).pc = .scan j kid →
    s.scan np p j kid ok = .nokids → ∀ k, (s.slot k).parent ≠ some p

theorem Recorded.exited (hi : s.Recorded) {i : ℕ} {pid : BitVec 32}
    (h : s.exits i = some (pid, status)) :
    (∃ k, (s.slot k).birth = i ∧ (s.slot k).state = .zombie ∧ (s.slot k).pid = pid ∧
      (s.slot k).xstate = status ∧ ∀ r ∈ s.reaps, r.birth ≠ i) ∨
    ∃ r, s.reaps.filter (fun r => r.birth = i) = [r] ∧ r.pid = pid ∧ r.status = status := by
  rcases hi.kept i (by rw [h]; exact nofun) with ⟨k, hk, rfl⟩ | ⟨r, hr, rfl⟩
  · rw [hi.zombie k hk] at h
    cases h
    refine .inl ⟨k, rfl, hk, rfl, rfl, fun r hr => (hi.out r hr k ?_).symm⟩
    rw [hk]
    exact nofun
  · rw [hi.reaped r hr] at h
    cases h
    refine .inr ⟨r, ?_, rfl, rfl⟩
    exact filter_eq_singleton hi.once hr

/-- **Exited children are reaped exactly once.** -/
theorem reaping (h : (ptable np).Reachable s) : s.Reaping np := by
  have hf := family_of_reachable h
  have hi := recorded_of_reachable h
  refine ⟨?_, fun i pid status => hi.exited, fun r hr => ⟨hi.reaped r hr, hi.waiter r hr⟩, ?_, ?_⟩
  · intro _ k hk0 hk
    cases hp : (s.slot k).parent with
    | none =>
      rcases hf.orphan k hp with h | h | h
      · rw [h] at hk
        rcases hk with hk | hk
        · exact hk.elim
        · cases hk
      · rw [h] at hk
        rcases hk with hk | hk
        · exact hk.elim
        · cases hk
      · exact absurd h hk0
    | some p =>
      have hl := hf.parent k p hp
      exact ⟨p, rfl, fun h => by rw [h] at hl; exact hl, fun h => by rw [h] at hl; exact hl⟩
  · intro p j k kid ok hpc hs
    have hstep : s.step np p ok = s.waitRet p := by simp only [step, hpc, hs]
    simp only [scan] at hs
    split_ifs at hs with _ hp hz
    cases hs
    refine ⟨hz, hp, fun hr => ?_⟩
    have hkp : j ≠ p := by
      rintro rfl
      rw [hz] at hr
      cases hr
    rw [hstep]
    exact goto_slot_ne s .user hkp
  · intro p j kid ok hp hpc hs k e
    have hat := hf.pos p (by rw [hp]; trivial)
    rw [hpc] at hat
    by_cases hj : j < np
    · simp only [scan, if_pos hj] at hs
      split_ifs at hs
    · have hkid : kid = false := by
        simp only [scan, if_neg hj] at hs
        split_ifs at hs with h
        exact h
      have hk : k < np := by
        refine hf.lt k fun hu => ?_
        rw [hf.unused k hu] at e
        cases e
      exact hat.2 hkid k (by omega) e

/-- `init` creates a process, which exits with status 5, and waits for it. -/
theorem reaping_child : ∃ s, (ptable 2).Reachable s ∧
    s.reaps = [⟨1, 2, 5, 0, false, 0⟩] ∧ s.Reaping 2 := by
  obtain ⟨s, hs, ht⟩ := Machine.Reachable.test (M := ptable 2)
    (fun e s => of_decide_eq_true (p := e.Ok 2 s)) (.init ⟨rfl, by decide⟩)
    ([.resched 0 .running, .call 0 .fork] ++ replicate 6 (.step 0 true) ++
      [.resched 1 .running, .call 1 (.exit 5)] ++ replicate 5 (.step 1 true) ++
      [.switched 1, .call 0 .wait] ++ replicate 3 (.step 0 true))
    (t := fun s => decide (s.reaps = [⟨1, 2, 5, 0, false, 0⟩])) (by decide +kernel)
  exact ⟨s, hs, of_decide_eq_true ht, reaping hs⟩

end Ptable

end Xv6Swap
