import Xv6Swap.System.Memory
import Xv6Swap.System.Ownership

/-!
# Loading a program while others allocate

`loadseg` keeps the physical address of a page while it waits for the disk.  `loads` is the machine
in which others evict and allocate meanwhile.

* `Event.Avoids` : the page is not the one that a step of another process would evict, by the state
  before the step;
* `loads_ownFrames` : **in every run in which the others avoid the page being read**, a load stores
  only to the frame that the new page table maps at the address, and the frame has no other use;
* `loads_astray` : a page that is evicted meanwhile is stored to on the free list.
-/

namespace Xv6Swap

open World List Bool Run Nat Option

variable {w : World} {g : Ghost} {r pa tot : ℕ} {α : Type} {m : K α}

/-! ### The steps of a load -/

/-- A call of `loadseg`, and where it is. -/
structure Load where
  table : ℕ
  va : ℕ
  file : List Byte
  offset : ℕ
  sz : ℕ
  i : ℕ
  /-- In `readi`: the address that `walkaddr` has returned, and the number of bytes read. -/
  reading : Option (ℕ × ℕ)

namespace Load

/-- The virtual address of the page. -/
def addr (l : Load) : ℕ := (l.va + l.i) % 2 ^ 64

/-- The number of bytes to be read to the page. -/
def n (l : Load) : ℕ := if l.sz - l.i < pgsize then l.sz - l.i else pgsize

/-- The bytes that `readi` reads to the page. -/
def data (l : Load) : List Byte := readi l.file ((l.offset + l.i) % 2 ^ 32) l.n

/-- The number of bytes that `readi` copies from one block, after `tot` bytes. -/
def chunk (l : Load) (tot : ℕ) : ℕ :=
  min (l.data.length - tot) (bsize - ((l.offset + l.i) % 2 ^ 32 + tot) % bsize)

end Load

/-- The world with a call of `loadseg` in progress. -/
structure Loader where
  world : World
  load : Option Load
  /-- The result of the last call that has returned. -/
  ret : ℤ

namespace Loader

/-- Call a function of the memory system. -/
def call {α : Type} (m : K α) : Run Loader Stop α :=
  zoom (fun s => s.world.sys.k)
    (fun σ s => { s with world := { s.world with sys := { s.world.sys with k := σ } } }) m

/-- The load goes on from `load`. -/
def setLoad (load : Option Load) : Run Loader Stop Unit := modify fun s => { s with load }

/-- `loadseg` returns. -/
def finish (ret : ℤ) : Run Loader Stop Unit := modify fun s => { s with load := none, ret }

/-- **`loadseg` up to its next sleep point**: it looks a page up, copies the bytes of one block, or
goes on to the next page. -/
def step : Run Loader Stop Unit := do
  match ← read Loader.load with
  | none => pure ()
  | some l =>
    match l.reading with
    | none =>
      if l.i < l.sz then do
        let pa ← call (walkaddr l.table l.addr)
        if pa = 0 then stop (.panic .loadseg)
        else setLoad (some { l with reading := some (pa, 0) })
      else finish 0
    | some (pa, tot) =>
      if tot < l.data.length then do
        call (kernelWrite (pa + tot) ((l.data.drop tot).take (l.chunk tot)))
        setLoad (some { l with reading := some (pa, tot + l.chunk tot) })
      else if l.data.length ≠ l.n then finish (-1)
      else setLoad (some { l with i := (l.i + pgsize) % 2 ^ 32, reading := none })

end Loader

/-- A step of a load, or of others meanwhile. -/
inductive LoadEvent where
  /-- `exec` calls `loadseg`. -/
  | begin (table va : ℕ) (file : List Byte) (offset sz : ℕ)
  | step
  | other (e : Event)

/-- An operation of another process that allocates memory, or a step of an eviction. -/
def Event.Allocates : Event → Prop
  | op .kalloc | op .swapout | op (.swapin ..) | op (.uvmalloc ..) => True
  | op (.sbrk _ a0) => 0 ≤ argint a0
  | op _ => False
  | select | slot | block | finish => True

/-- The step of another process does not evict the page `x`: an allocation finds a frame free or has
another victim, the next page to be evicted is another one, or there are three free frames for each
page that is added. -/
def Event.Avoids (x : ℕ × ℕ) : Event → World → Prop
  | op .kalloc, w | op (.swapin ..), w => (pagerOf w.sys.k).victim ≠ some x
  | op .swapout, w => (pagerOf w.sys.k).next ≠ some x
  | op (.uvmalloc _ oldsz newsz _), w =>
    3 * (npg newsz - npg oldsz) ≤ (pagerOf w.sys.k).free
  | op (.sbrk i a0), w =>
    3 * (npg (addInt (w.sys.proc i).sz (argint a0)) - npg (w.sys.proc i).sz) ≤
      (pagerOf w.sys.k).free
  | finish, w => ∀ f, w.flight = some f → (f.table, f.page) ≠ x
  | _, _ => True

namespace LoadEvent

def Ok : LoadEvent → Loader → Prop
  | begin table va _ _ _, s => s.load = none ∧ table ∈ s.world.spaces ∧ va % pgsize = 0
  | step, _ => True
  | other e, s => e.Ok s.world ∧ e.Allocates

def run : LoadEvent → Run Loader Stop Unit
  | begin table va file offset sz =>
    Loader.setLoad (some ⟨table, va, file, offset % 2 ^ 32, sz % 2 ^ 32, 0, none⟩)
  | step => Loader.step
  | other e => zoom Loader.world (fun w s => { s with world := w }) e.run

/-- **The others avoid the page being read.** -/
def Undisturbed : LoadEvent → Loader → Prop
  | other e, s => ∀ l q, s.load = some l → l.reading = some q →
      e.Avoids (l.table, l.addr / pgsize) s.world
  | _, _ => True

end LoadEvent

/-- **The machine of loads**, from any reachable world. -/
def loads : Machine Loader Stop LoadEvent where
  init s := system.Reachable s.world ∧ s.load = none
  guard := LoadEvent.Ok
  prog := LoadEvent.run

/-- The step of a load that is not in `readi`. -/
theorem Loader.step_look {s : Loader} {l : Load} (hl : s.load = some l) (hq : l.reading = none) :
    step s = (if l.i < l.sz then do
        let pa ← call (walkaddr l.table l.addr)
        if pa = 0 then stop (.panic .loadseg)
        else setLoad (some { l with reading := some (pa, 0) })
      else finish 0) s := by
  rw [step, bind_read, hl]
  dsimp only
  rw [hq]

/-- The step of a load in `readi`. -/
theorem Loader.step_read {s : Loader} {l : Load} (hl : s.load = some l)
    (hq : l.reading = some (pa, tot)) : step s = (if tot < l.data.length then do
        call (kernelWrite (pa + tot) ((l.data.drop tot).take (l.chunk tot)))
        setLoad (some { l with reading := some (pa, tot + l.chunk tot) })
      else if l.data.length ≠ l.n then finish (-1)
      else setLoad (some { l with i := (l.i + pgsize) % 2 ^ 32, reading := none })) s := by
  rw [step, bind_read, hl]
  dsimp only
  rw [hq]

/-! ### The invariant -/

/-- A load reads to the frame that the page table maps at the address. -/
structure Load.Good (l : Load) (w : World) : Prop where
  table : l.table ∈ w.spaces
  aligned : l.va % pgsize = 0 ∧ l.i % pgsize = 0
  frame : ∀ pa tot, l.reading = some (pa, tot) →
    userFrame w.sys.k l.table (l.addr / pgsize) = some pa ∧ tot ≤ l.data.length

/-- The invariant of the runs. -/
def Loader.Good (s : Loader) : Prop := s.world.Sound ∧ ∀ l, s.load = some l → l.Good s.world

theorem Load.Good.addr_mod {l : Load} (h : l.Good w) : l.addr / pgsize * 4096 = l.addr := by
  obtain ⟨h1, h2⟩ := h.aligned
  simp only [Load.addr, pgsize] at *
  omega

theorem Load.Good.walkaddr_addr {l : Load} (h : l.Good w) (ha : w.Acc g) :
    walkaddr l.table l.addr w.sys.k =
      .ok ((userFrame w.sys.k l.table (l.addr / pgsize)).getD 0, w.sys.k) := by
  have := walkaddr_apply ha.inv (ha.root.of_mem h.table) (l.addr / pgsize)
  rwa [h.addr_mod] at this

theorem Load.length_data_le (l : Load) : l.data.length ≤ 4096 := by
  refine (length_readi_le _ _ _).trans ?_
  rw [n]
  simp only [pgsize]
  split <;> omega

theorem Load.chunk_le (l : Load) (h : tot ≤ l.data.length) :
    tot + ((l.data.drop tot).take (l.chunk tot)).length ≤ l.data.length := by
  rw [length_take, length_drop]
  omega

theorem Loader.call_spec {β : Type} {k : α → Run Loader Stop β}
    {Q : α → KState → Prop} {E : Stop → Prop} {R : β → Loader → Prop} {s : Loader}
    (h : Ensures (m s.world.sys.k) Q E) (hk : ∀ a σ', Q a σ' → Ensures (k a { s with
      world := { s.world with sys := { s.world.sys with k := σ' } } }) R E) :
    Ensures ((call m >>= k) s) R E := by
  refine (h.zoom fun s : Loader => s.world.sys.k).bind ?_
  rintro a _ ⟨σ', hq, rfl⟩
  exact hk a σ' hq

section

variable {s : Loader} {l : Load} (h : s.Good) (hl : s.load = some l)
include h hl

theorem Loader.look_spec (hq : l.reading = none) :
    Ensures (step s) (fun _ s' => s'.Good) LoadsegPanic := by
  obtain ⟨⟨g, ha⟩, hload⟩ := h
  have hg := hload l hl
  rw [step_look hl hq, Run.ite_apply]
  split
  case isTrue =>
    refine call_spec (Q := fun pa σ' => pa =
      (userFrame s.world.sys.k l.table (l.addr / pgsize)).getD 0 ∧ σ' = s.world.sys.k)
      (by rw [hg.walkaddr_addr ha]; exact ⟨rfl, rfl⟩) ?_
    rintro pa _ ⟨hpa, rfl⟩
    rw [Run.ite_apply]
    split
    case isTrue => exact rfl
    case isFalse hne =>
      refine ⟨⟨g, ha⟩, ?_⟩
      rintro _ ⟨⟩
      refine ⟨hg.table, hg.aligned, ?_⟩
      rintro _ tot ⟨⟩
      refine ⟨?_, Nat.zero_le _⟩
      cases hf : userFrame s.world.sys.k l.table (l.addr / pgsize) with
      | none => rw [hf] at hpa; exact absurd hpa hne
      | some f => rw [hpa, hf]; exact hf
  case isFalse =>
    refine ⟨⟨g, ha⟩, ?_⟩
    rintro _ ⟨⟩

/-- **The step that stores** the bytes of a block, to the frame that is mapped. -/
theorem Loader.read_spec (hq : l.reading = some (pa, tot)) :
    Ensures (step s) (fun _ s' => s'.Good ∧ ∀ a,
      s'.world.sys.k.mem a ≠ s.world.sys.k.mem a → pa + tot ≤ a ∧ a < pa + pgsize)
      fun _ => False := by
  obtain ⟨⟨g, ha⟩, hload⟩ := h
  have hg := hload l hl
  have hroot := ha.root.of_mem hg.table
  obtain ⟨hf, htot⟩ := hg.frame pa tot hq
  rw [step_read hl hq, Run.ite_apply]
  split
  case isTrue =>
    have hle := (l.chunk_le htot).trans l.length_data_le
    have hnext : tot + l.chunk tot ≤ l.data.length := by rw [Load.chunk]; omega
    generalize (l.data.drop tot).take (l.chunk tot) = data at *
    have hwrite := kernelWrite_apply ha.inv (ha.inv.role_userFrame hroot hf) hle
    refine call_spec (Q := fun _ σ' => σ' = _) (by rw [hwrite]; exact rfl) ?_
    rintro - _ rfl
    refine ⟨⟨⟨g, ha.onlyBytes ((OnlyBytes.refl ha.inv _).write hroot hf hle)⟩, ?_⟩, fun a hne => ?_⟩
    · rintro _ ⟨⟩
      refine ⟨hg.table, hg.aligned, ?_⟩
      rintro _ _ ⟨⟩
      exact ⟨(userFrame_write ha.inv hroot hf hle _).trans hf, hnext⟩
    · by_contra hout
      refine hne (Mem.sameOutside_write _ _ _ a ?_)
      simp only [pgsize] at hout
      omega
  case isFalse =>
    rw [Run.ite_apply]
    split
    · refine ⟨⟨⟨g, ha⟩, ?_⟩, fun a hne => absurd rfl hne⟩
      rintro _ ⟨⟩
    · refine ⟨⟨⟨g, ha⟩, ?_⟩, fun a hne => absurd rfl hne⟩
      rintro _ ⟨⟩
      obtain ⟨h1, h2⟩ := hg.aligned
      refine ⟨hg.table, ⟨h1, ?_⟩, ?_⟩
      · simp only [pgsize] at *; omega
      · rintro _ _ ⟨⟩

end

theorem Loader.step_spec {s : Loader} (h : s.Good) :
    Ensures (step s) (fun _ s' => s'.Good) LoadsegPanic := by
  cases hl : s.load with
  | none =>
    rw [step, bind_read, hl]
    exact h
  | some l =>
    cases hq : l.reading with
    | none => exact look_spec h hl hq
    | some q => exact (read_spec h hl hq).mono (fun _ _ hs => hs.1) fun _ he => he.elim

/-! ### The others -/

theorem World.call_spaces (m : K α) :
    Ensures (call m w) (fun _ w' => w'.spaces = w.spaces) fun _ => True := by
  have hm : Ensures (m w.sys.k) (fun _ _ => True) fun _ => True := by
    cases m w.sys.k <;> trivial
  refine (hm.zoom fun w : World => w.sys.k).imp ?_
  rintro a _ ⟨σ', -, rfl⟩
  rfl

section

variable {σ σ' : KState} {g' : Ghost} {D : Touch} {t v : ℕ} (h : Inv σ g) (ht : g.role t = .root)
  (hpa : userFrame σ t v = some pa)
include ht hpa

theorem userFrame_keeps (h' : Inv σ' g') (k : Keeps D σ g σ' g') (hF : t ∉ D.frames)
    (hP : (t, v) ∉ D.pages) (hrole : g'.role pa = .user t v) : userFrame σ' t v = some pa := by
  obtain ⟨hv, hV, hU, hf⟩ := userFrame_eq_some_iff.1 hpa
  obtain ⟨-, -, hV', hf'⟩ := h'.leaves.user pa t v hrole
  have hlog := k.page t v ht hF hv hP
  rw [logical, logical, pageOf_valid hV, pageOf_valid hV'] at hlog
  have hperm := congrArg LPage.perms (Option.some.inj hlog)
  exact userFrame_eq_some_iff.2 ⟨hv, hV', (has_of_perms hperm).1.trans hU, hf'⟩

include h

theorem kalloc_avoids (hx : (pagerOf σ).victim ≠ some (t, v)) :
    Ensures (kalloc σ) (fun _ σ' => userFrame σ' t v = some pa) fun _ => True := by
  have hrole := h.role_userFrame ht hpa
  refine ((kalloc_spec h).imp ?_).weaken
  rintro (_ | f) σ' ha
  · obtain ⟨g', h', -, he, k⟩ := ha
    exact userFrame_keeps ht hpa h' k (Set.notMem_empty _) (Set.notMem_empty _) (by rw [he, hrole])
  · obtain ⟨g', hh⟩ := ha.held h
    exact userFrame_keeps ht hpa hh.inv hh.keeps (hh.root ht) (Set.notMem_empty _)
      (ha.framesKept hh.role _ h.paged pa t v hrole hx)

theorem swapout_avoids (hx : (pagerOf σ).next ≠ some (t, v)) :
    Ensures (swapout σ) (fun _ σ' => userFrame σ' t v = some pa) fun _ => True := by
  have hrole := h.role_userFrame ht hpa
  refine ((swapout_spec h).imp ?_).weaken
  rintro _ σ' (⟨-, l, h', k⟩ | ⟨-, i, r, u, s, l, hi, -, -, h', k, hp⟩)
  · exact userFrame_keeps ht hpa h' k (Set.notMem_empty _) (Set.notMem_empty _) hrole
  · refine userFrame_keeps ht hpa h' k (Set.notMem_empty _) (Set.notMem_empty _) ?_
    refine (Ghost.setRole_of_ne _ _ ?_).trans hrole
    rintro rfl
    cases hi.symm.trans hrole
    exact hx (hp _ h.paged).1

end

namespace Event

/-- Evictions and allocations leave the page tables being built to their owners. -/
theorem run_spaces (e : Event) (he : e.Allocates) :
    Ensures (e.run w) (fun _ w' => w'.spaces = w.spaces) fun _ => True := by
  have hcall : ∀ {α : Type} (m : K α),
      Ensures ((do let _ ← call m : Run World Stop Unit) w)
        (fun _ w' => w'.spaces = w.spaces) fun _ => True :=
    fun m => (call_spaces m).bind fun _ _ hw => hw
  cases e with
  | op o =>
    cases o with
    | kalloc =>
      refine (call_spaces _).bind ?_
      rintro (_ | pa) w' hw <;> exact hw
    | swapout => exact hcall _
    | swapin r va => exact hcall _
    | uvmalloc r oldsz newsz xperm => exact hcall _
    | sbrk i a0 =>
      have hm : Ensures (sysSbrk i a0 w.sys) (fun _ _ => True) fun _ => True := by
        cases sysSbrk i a0 w.sys <;> trivial
      exact psys_spec hm fun _ _ _ => rfl
    | _ => exact he.elim
  | select =>
    refine (call_spaces _).bind ?_
    rintro (_ | i) w' hw <;> exact hw
  | slot =>
    rw [run, bind_read]
    cases w.flight with
    | none => exact rfl
    | some f =>
      refine (call_spaces _).bind ?_
      rintro (_ | s) w' hw <;> exact hw
  | block =>
    rw [run, bind_read]
    split
    · exact (call_spaces _).bind fun _ _ hw => hw
    · exact rfl
  | finish =>
    rw [run, bind_read]
    split
    · exact (call_spaces _).bind fun _ _ hw => hw
    · exact rfl

/-- Evictions and allocations unmap nothing. -/
theorem Allocates.spares {e : Event} (he : e.Allocates) : e.Spares w := by
  cases e with
  | op o =>
    cases o with
    | sbrk i a0 =>
      have hpos : ¬ argint a0 < 0 := not_lt.2 he
      rw [Spares, Op.unmaps, shrunkPages, if_neg hpos]
      exact .empty _
    | kalloc | swapout | swapin | uvmalloc => exact .empty _
    | _ => exact he.elim
  | _ => exact trivial

/-- **A step that avoids a page leaves it in its frame.** -/
theorem run_avoids {t v : ℕ} (e : Event) (h : w.Acc g) (hok : e.Ok w) (he : e.Allocates)
    (ht : g.role t = .root) (hpa : userFrame w.sys.k t v = some pa) (hx : e.Avoids (t, v) w) :
    Ensures (e.run w) (fun _ w' => userFrame w'.sys.k t v = some pa) fun _ => True := by
  have hrole := h.inv.role_userFrame ht hpa
  have hmapped : logical w.sys.k t v ≠ none := by
    obtain ⟨-, hV, -⟩ := userFrame_eq_some_iff.1 hpa
    rw [logical, pageOf_valid hV]; simp
  have hempty : (t, v) ∉ (∅ : Set (ℕ × ℕ)) := Set.notMem_empty _
  have hframes := Set.notMem_empty t
  have hfree : ∀ {n}, n ≤ (pagerOf w.sys.k).free → HasFree g n := h.inv.paged.free.hasFree
  have hcall : ∀ {α : Type} {m : K α}, Ensures (m w.sys.k) (fun _ σ' => userFrame σ' t v = some pa)
      (fun _ => True) → Ensures ((do let _ ← call m : Run World Stop Unit) w)
        (fun _ w' => userFrame w'.sys.k t v = some pa) fun _ => True :=
    fun hm => call_spec hm fun _ _ hq => hq
  cases e with
  | op o =>
    cases o with
    | kalloc =>
      refine call_spec (kalloc_avoids h.inv ht hpa hx) ?_
      rintro (_ | f) σ' hσ' <;> exact hσ'
    | swapout => exact hcall (swapout_avoids h.inv ht hpa hx)
    | swapin r va =>
      refine hcall (((swapin_spec h.inv (h.isTable.1 hok.1) hok.2).imp ?_).weaken)
      rintro _ σ' ⟨g', h', k, hkept, -⟩
      exact userFrame_keeps ht hpa h' k hframes hempty (hkept _ h.inv.paged pa t v hrole hx)
    | uvmalloc r oldsz newsz xperm =>
      obtain ⟨hr, hold, hxp, hS, hun⟩ := hok
      have hroot := h.root.of_mem hr
      refine hcall (((uvmalloc_spec h.inv hroot _ _ hold hxp hS fun v h1 h2 =>
        (h.inv.leaf_eq_zero_iff hroot h2).2 (hun v h1 h2)).imp ?_).weaken)
      rintro ret σ' ⟨g', h', hkept, ⟨-, k⟩ | ⟨-, -, hmax, k, -⟩⟩
      · exact userFrame_keeps ht hpa h' k hframes hempty (hkept (hfree hx) pa t v hrole)
      · refine userFrame_keeps ht hpa h' k hframes (fun hm => ?_) (hkept (hfree hx) pa t v hrole)
        obtain ⟨rfl, h1, -⟩ := mem_pageRange.1 hm
        exact hmapped (hun v h1 (userFrame_eq_some_iff.1 hpa).1)
    | sbrk i a0 =>
      have hp := (Op.live_frames h hok).2
      have hm : Ensures (sysSbrk i a0 w.sys) (fun _ s' => userFrame s'.k t v = some pa)
          fun _ => True := by
        rw [sysSbrk, P.bind_get]
        refine (growproc_spec h hok.1 hp (argint a0) he.spares).weaken.bind ?_
        rintro ret s' ⟨g', h', hgrow⟩
        obtain ⟨k, hkept⟩ := hgrow he
        have hstay := userFrame_keeps ht hpa h'.inv k hframes (fun hm => ?_)
          (hkept (hfree hx) pa t v hrole)
        · rw [Run.ite_apply]
          split <;> exact hstay
        · obtain ⟨rfl, h1, h2⟩ := mem_pageRange.1 hm
          exact absurd ((((h.procs i hok.1).shape hp).pages v h2).1 hmapped) (by omega)
      exact psys_spec hm fun _ _ hq => hq
    | _ => exact he.elim
  | select =>
    refine call_spec (swapoutSelect_spec h.inv).weaken ?_
    rintro (_ | i) σ' hσ'
    · rw [hσ'.1]; exact hpa
    · obtain ⟨-, r, u, l, -, h', k, -⟩ := hσ'
      exact userFrame_keeps ht hpa h' k hframes hempty hrole
  | slot =>
    obtain ⟨f, hf, -⟩ := hok
    have hslot := (swapoutSlot_spec h.inv (h.pinned f hf)).weaken (E := fun _ => True)
    rw [pageIdx_pageToPa] at hslot
    rw [run, bind_read, hf]
    refine call_spec hslot ?_
    rintro (_ | s) σ' hσ'
    · exact (show userFrame σ' t v = _ by rw [userFrame, hσ'.2.2.2.1]; exact hpa)
    · obtain ⟨-, -, -, h', k⟩ := hσ'
      exact userFrame_keeps ht hpa h' k hframes hempty hrole
  | block =>
    obtain ⟨⟨victim, table, page, slot, done⟩, s, hf, rfl, hd⟩ := hok
    have hwrite := swapwriteBlock_apply (s := s) h.inv
      (by rw [(h.pinned _ hf).role]; simp : g.role (pageToPa victim) ≠ .none) (hd : done < 4)
    rw [run, bind_read, hf]
    refine call_spec (Q := fun _ σ' => σ'.mem = w.sys.k.mem) (by rw [hwrite]; exact rfl) ?_
    exact fun _ σ' hm => (show userFrame σ' t v = _ by rw [userFrame, hm]; exact hpa)
  | finish =>
    obtain ⟨⟨victim, table, page, slot, done⟩, s, hf, rfl, -⟩ := hok
    have hpin := h.pinned _ hf
    have hfin := (swapoutFinish_spec h.inv hpin ((h.busy s).2 ⟨_, hf, rfl⟩)).weaken
      (E := fun _ => True)
    rw [pageIdx_pageToPa] at hfin
    rw [run, bind_read, hf]
    refine call_spec hfin ?_
    rintro - σ' ⟨h', k, -⟩
    refine userFrame_keeps ht hpa h' k (fun he => ?_) (fun he => hx _ hf he.symm)
      ((Ghost.setRole_of_ne _ _ ?_).trans hrole)
    · rw [show t = pageToPa victim from he, hpin.role] at ht; cases ht
    · rintro rfl
      cases hpin.role.symm.trans hrole
      exact hx _ hf rfl

end Event

/-- **An event of the machine** keeps the invariant, if nobody evicts the page being read. -/
theorem LoadEvent.spec {s s' : Loader} (e : LoadEvent) (h : s.Good) (hok : e.Ok s)
    (hun : e.Undisturbed s) (hrun : e.run s = .ok ((), s')) : s'.Good := by
  cases e with
  | begin table va file offset sz =>
    obtain ⟨-, ht, hva⟩ := hok
    cases hrun
    refine ⟨h.1, ?_⟩
    rintro _ ⟨⟩
    exact ⟨ht, ⟨hva, rfl⟩, nofun⟩
  | step => exact (Loader.step_spec h).of_ok hrun
  | other e =>
    obtain ⟨hok, he⟩ := hok
    have hboth : Ensures (e.run s.world) (fun _ w' => w'.Sound ∧ w'.spaces = s.world.spaces ∧
        e.run s.world = .ok ((), w')) fun _ => True := by
      have h1 := e.spec h.1 hok he.spares
      have h2 := e.run_spaces (w := s.world) he
      cases hx : e.run s.world with
      | error _ => trivial
      | ok q =>
        rw [hx] at h1 h2
        exact ⟨h1, h2, rfl⟩
    obtain ⟨w', ⟨hsound, hspaces, hw'⟩, rfl⟩ := (hboth.zoom Loader.world).of_ok hrun
    refine ⟨hsound, fun l hl => ?_⟩
    have hg := h.2 l hl
    refine ⟨by rw [hspaces]; exact hg.table, hg.aligned, fun pa tot hq => ?_⟩
    obtain ⟨hpa, htot⟩ := hg.frame pa tot hq
    obtain ⟨⟨g, ha⟩, -⟩ := h
    exact ⟨(e.run_avoids ha hok he (ha.root.of_mem hg.table) hpa (hun l _ hl hq)).of_ok hw', htot⟩

theorem loads_good {s : Loader} (h : (loads.restrict LoadEvent.Undisturbed).Reachable s) :
    s.Good := by
  refine h.invariant ?_ ?_
  · rintro s ⟨hw, hl⟩
    refine ⟨(reachable_sound hw).1, fun l hx => ?_⟩
    rw [hl] at hx
    cases hx
  · rintro s e s' hs ⟨⟨hok, hun⟩, hrun⟩
    exact e.spec hs hok hun hrun

/-- **What a load in `readi` is about to store to**, at the physical address `pa`. -/
structure LoadSafe (s : Loader) (l : Load) (pa tot : ℕ) : Prop where
  /-- The new page table maps the frame at the address of the page. -/
  mapped : userFrame s.world.sys.k l.table (l.addr / pgsize) = some pa
  /-- The frame is nobody else's memory, no page-table page and not on the free list. -/
  sole : ∀ u, s.world.Uses pa u → u = .page l.table (l.addr / pgsize)
  /-- The next step stores only to the frame, from the byte after those already read on. -/
  stores : ∀ s', Loader.step s = .ok ((), s') → ∀ a,
    s'.world.sys.k.mem a ≠ s.world.sys.k.mem a → pa + tot ≤ a ∧ a < pa + pgsize

/-- **Loading a program writes only its own frames**, in every run in which nobody evicts the page
that is being read. -/
theorem loads_ownFrames {s : Loader} (h : (loads.restrict LoadEvent.Undisturbed).Reachable s)
    {l : Load} {pa tot : ℕ} (hl : s.load = some l) (hq : l.reading = some (pa, tot)) :
    LoadSafe s l pa tot := by
  have hgood := loads_good h
  obtain ⟨⟨g, ha⟩, hload⟩ := hgood
  have hg := hload l hl
  obtain ⟨hf, -⟩ := hg.frame pa tot hq
  obtain ⟨hv, hV, -, hpa⟩ := userFrame_eq_some_iff.1 hf
  refine ⟨hf, fun u hu => ?_, fun s' hs' => ((Loader.read_spec (loads_good h) hl hq).of_ok hs').2⟩
  exact ha.use_unique hu ⟨.inl hg.table, hv, hV, hpa⟩

/-! ### A load that is left alone and one that goes astray -/

/-- A test that implies the guard of the events used below. -/
def LoadEvent.check : LoadEvent → Loader → Bool
  | begin table va _ _ _, s => s.load.isNone && s.world.spaces.contains table &&
      decide (va % pgsize = 0)
  | step, _ | other (.op .swapout), _ => true
  | other (.op (.uvmalloc r 0 _ xperm)), s => s.world.spaces.contains r &&
      emptyRoot s.world.sys.k.mem r && decide (xperm = pteW)
  | other _, _ => false

theorem LoadEvent.Ok.of_check (e : LoadEvent) (s : Loader) (h : e.check s = true) : e.Ok s := by
  unfold LoadEvent.check at h
  split at h
  · obtain ⟨h12, h3⟩ := and_eq_true_iff.1 h
    obtain ⟨h1, h2⟩ := and_eq_true_iff.1 h12
    exact ⟨isNone_iff_eq_none.1 h1, contains_iff_mem.1 h2, of_decide_eq_true h3⟩
  · trivial
  · exact ⟨trivial, trivial⟩
  · obtain ⟨h12, h3⟩ := and_eq_true_iff.1 h
    obtain ⟨h1, h2⟩ := and_eq_true_iff.1 h12
    obtain rfl := of_decide_eq_true h3
    exact ⟨⟨contains_iff_mem.1 h1, by decide, by rw [IsFlags]; decide, by decide,
      unmapped_of_emptyRoot h2 _ _⟩, trivial⟩
  · cases h

/-- The events `es` for the page table that has been created last. -/
def loadsFrom (check : LoadEvent → Loader → Bool) (es : ℕ → List LoadEvent)
    (t : Loader → Load → ℕ → ℕ → Bool) (w : World) : Bool :=
  (loads.path check (es (w.spaces.headD 0)) ⟨w, none, 0⟩).any fun s => s.load.any fun l =>
    l.reading.any fun q => t s l q.1 q.2

theorem loadsFrom_true {check : LoadEvent → Loader → Bool} {es : ℕ → List LoadEvent}
    {t : Loader → Load → ℕ → ℕ → Bool} (h : loadsFrom check es t w = true) :
    ∃ s l pa tot, loads.path check (es (w.spaces.headD 0)) ⟨w, none, 0⟩ = some s ∧ s.load = some l ∧
      l.reading = some (pa, tot) ∧ t s l pa tot = true := by
  obtain ⟨s, hp, hs⟩ := (any_eq_true _ _).1 h
  obtain ⟨l, hl, hq⟩ := (any_eq_true _ _).1 hs
  obtain ⟨⟨pa, tot⟩, hr, ht⟩ := (any_eq_true _ _).1 hq
  exact ⟨s, l, pa, tot, hp, hl, hr, ht⟩

/-- A test that implies that the page being read is avoided. -/
def LoadEvent.quiet : LoadEvent → Loader → Bool
  | other (.op .swapout), s =>
    s.load.all fun l => (pagerOf s.world.sys.k).next ≠ some (l.table, l.addr / pgsize)
  | other _, s => s.load.isNone
  | _, _ => true

theorem LoadEvent.Undisturbed.of_quiet (e : LoadEvent) (s : Loader) (h : e.quiet s = true) :
    e.Undisturbed s := by
  unfold LoadEvent.quiet at h
  split at h
  · intro l q hl _
    rw [hl] at h
    exact (of_decide_eq_true h : (pagerOf _).next ≠ _)
  · intro l q hl _
    rw [hl] at h
    cases h
  · rename_i hne
    cases e with
    | other e => exact absurd rfl (hne e)
    | _ => trivial

/-- A page is being read while another page is evicted. -/
theorem loads_ownFrames_busy : ∃ s l pa tot, (loads.restrict LoadEvent.Undisturbed).Reachable s ∧
    s.load = some l ∧ l.reading = some (pa, tot) ∧ s.world.sys.k.freelist ≠ 0 ∧
    LoadSafe s l pa tot := by
  obtain ⟨w, hw, ht⟩ := reachable_test (n := 13) (by decide) (by decide)
    [.userinit, .sbrk 0 4096#64, .uvmcreate]
    (t := loadsFrom (fun e s => e.check s && e.quiet s)
      (fun r => [.other (.op (.uvmalloc r 0 4096 pteW)), .begin r 0 [7] 0 1, .step,
        .other (.op .swapout)])
      fun s _ _ _ => s.world.sys.k.freelist ≠ 0) (by decide +kernel)
  obtain ⟨s, l, pa, tot, hp, hl, hq, h0⟩ := loadsFrom_true ht
  rw [← Machine.path_restrict] at hp
  have hr : (loads.restrict LoadEvent.Undisturbed).Reachable s := by
    refine .path (fun e s he => ?_) (.init ⟨hw, rfl⟩) hp
    obtain ⟨h1, h2⟩ := and_eq_true_iff.1 he
    exact ⟨.of_check e s h1, .of_quiet e s h2⟩
  exact ⟨s, l, pa, tot, hr, hl, hq, of_decide_eq_true h0, loads_ownFrames hr hl hq⟩

/-- **A load goes astray**: the page is evicted after it has been looked up, and the byte of the
program is stored to a frame at the head of the free list. -/
theorem loads_astray : ∃ s l pa tot, loads.Reachable s ∧ s.load = some l ∧
    l.reading = some (pa, tot) ∧ ¬ LoadSafe s l pa tot ∧ s.world.sys.k.freelist = pa ∧
    ∃ s', Loader.step s = .ok ((), s') ∧ s'.world.sys.k.mem pa ≠ s.world.sys.k.mem pa := by
  obtain ⟨w, hw, ht⟩ := reachable_test (n := 13) (by decide) (by decide) [.userinit, .uvmcreate]
    (t := loadsFrom LoadEvent.check
      (fun r => [.other (.op (.uvmalloc r 0 4096 pteW)), .begin r 0 [7] 0 1, .step,
        .other (.op .swapout)])
      fun s l pa _ => decide (userFrame s.world.sys.k l.table (l.addr / pgsize) = none) &&
        decide (s.world.sys.k.freelist = pa) && match Loader.step s with
          | .ok (_, s') => decide (s'.world.sys.k.mem pa ≠ s.world.sys.k.mem pa)
          | .error _ => false) (by decide +kernel)
  obtain ⟨s, l, pa, tot, hp, hl, hq, ht⟩ := loadsFrom_true ht
  obtain ⟨h12, h3⟩ := and_eq_true_iff.1 ht
  obtain ⟨h1, h2⟩ := and_eq_true_iff.1 h12
  refine ⟨s, l, pa, tot, .path LoadEvent.Ok.of_check (.init ⟨hw, rfl⟩) hp, hl, hq, fun hsafe => ?_,
    of_decide_eq_true h2, ?_⟩
  · rw [hsafe.mapped] at h1
    cases of_decide_eq_true h1
  · split at h3
    · rename_i s' hs'
      exact ⟨s', hs', of_decide_eq_true h3⟩
    · cases h3

end Xv6Swap
