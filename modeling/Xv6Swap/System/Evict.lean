import Xv6Swap.System.Ops

/-!
# Evictions that others interrupt

`swapout` sleeps while it waits for the disk.  `Event` splits it at its sleep points: the victim is
chosen and unlinked (`select`), a slot is allocated (`slot`), each of the four blocks is written
(`block`), and the entry is rewritten and the frame freed (`finish`).  Between these steps the other
processes take complete operations.

* `events_eq_swapout` : the steps of an eviction one after the other are `swapout`;
* `Event.spec` : every event keeps the accounts, if it does not unmap the page being evicted;
* `evictions_safe` : **in every run of such events** no frame is on the free list twice, the entry
  that `finish` rewrites maps the victim and belongs to a page table, and every slot in use is
  named by an entry or is the one being written;
* `evictions_unsafe` : a process that shrinks while its page is being evicted has it freed twice.
-/

namespace Xv6Swap

open Function Run Set List Option Nat

open World

variable {w : World} {g : Ghost} {α : Type} {m : K α}

/-- A step of an eviction, or a complete operation of another process. -/
inductive Event where
  | op (o : Op)
  | select
  | slot
  | block
  | finish

/-- The eviction of the page that the frame of index `i` holds, just begun. -/
def Flight.begun (σ : KState) (i : ℕ) : Flight where
  victim := i
  table := (σ.pages i).pagetable
  page := (σ.pages i).vaddr / pgsize
  slot := none
  done := 0

namespace Event

variable {f : Flight} {s : ℕ}

/-- Operations may be taken at any time; the steps of the eviction follow each other. -/
def Ok : Event → World → Prop
  | op o, w => o.Ok w
  | select, w => w.flight = none
  | slot, w => ∃ f, w.flight = some f ∧ f.slot = none
  | block, w => ∃ f s, w.flight = some f ∧ f.slot = some s ∧ f.done < blksPerPg
  | finish, w => ∃ f s, w.flight = some f ∧ f.slot = some s ∧ f.done = blksPerPg

/-- An event as a program; a step without its eviction does nothing. -/
def run : Event → Run World Stop Unit
  | op o => o.run
  | select => do
    match ← call swapoutSelect with
    | none => pure ()
    | some i => modify fun w => { w with flight := some (.begun w.sys.k i) }
  | slot => do
    match ← read flight with
    | none => pure ()
    | some f => do
      match ← call (swapoutSlot f.victim) with
      | none => modify fun w => { w with flight := none }
      | some s => modify fun w => { w with flight := some { f with slot := some s } }
  | block => do
    match ← read flight with
    | some ⟨victim, table, page, some s, done⟩ => do
      call (swapwriteBlock (pageToPa victim) s done)
      modify fun w => { w with flight := some ⟨victim, table, page, some s, done + 1⟩ }
    | _ => pure ()
  | finish => do
    match ← read flight with
    | some ⟨victim, _, _, some s, _⟩ => do
      call (swapoutFinish victim s)
      modify fun w => { w with flight := none }
    | _ => pure ()

/-- The event does not unmap the page being evicted, nor free its page table. -/
def Spares : Event → World → Prop
  | op o, w => Spared w.flight (o.unmaps w)
  | _, _ => True

/-- How an event may stop. -/
def MayStop : Event → World → Stop → Prop
  | op o, w => o.MayStop w
  | _, _ => fun _ => False

/-! ### The steps of an eviction keep the accounts -/

theorem select_spec (h : w.Acc g) (hf : w.flight = none) :
    Ensures (select.run w) (fun _ w' => ∃ g', w'.Acc g' ∧ Keeps {} w.sys.k g w'.sys.k g' ∧
      ∀ f, w'.flight = some f → f.slot = none ∧ f.done = 0) fun _ => False := by
  have hnone : ∀ x, g.slot x ≠ .busy := fun x hx => by
    obtain ⟨f, hf', -⟩ := (h.busy x).1 hx
    rw [hf] at hf'; cases hf'
  refine call_spec (swapoutSelect_spec h.inv) ?_
  rintro (_ | i) σ' hsel
  · obtain ⟨rfl, -⟩ := hsel
    exact ⟨g, h, Keeps.refl .., fun f hf' => by rw [hf] at hf'; cases hf'⟩
  · obtain ⟨-, r, v, l', -, h1, k1, hpin, -⟩ := hsel
    have hpt : (σ'.pages i).pagetable = r := by simpa only [pageIdx_pageToPa] using hpin.pagetable
    have hva : (σ'.pages i).vaddr / pgsize = v := by
      have := hpin.vaddr
      rw [pageIdx_pageToPa] at this
      rw [this]
      exact Nat.mul_div_cancel v (by decide)
    refine ⟨g.setLru l', h.step h1 k1 (fun x => ?_) ?_ (fun _ _ hx => absurd hx
      (notMem_empty _)) (fun _ _ _ hx => absurd hx (notMem_empty _)), k1, ?_⟩
    · refine ⟨fun hx => absurd hx (hnone x), ?_⟩
      rintro ⟨f, ⟨⟩, hx⟩
      cases hx
    · rintro f ⟨⟩
      simp only [Flight.begun, hpt, hva]
      exact hpin
    · rintro f ⟨⟩
      exact ⟨rfl, rfl⟩

theorem slot_spec (h : w.Acc g) (hf : w.flight = some f) (hs : f.slot = none) :
    Ensures (slot.run w) (fun _ w' => ∃ g', w'.Acc g' ∧
      ((w'.flight = none ∧ (∀ x, g'.role x = .root ↔ g.role x = .root) ∧
          ∀ r v, logical w'.sys.k r v = logical w.sys.k r v) ∨
        ∃ s, w'.flight = some { f with slot := some s } ∧
          Keeps { slots := {s} } w.sys.k g w'.sys.k g')) fun _ => False := by
  have hnone : ∀ x, g.slot x ≠ .busy := fun x hx => by
    obtain ⟨f', hf', hx'⟩ := (h.busy x).1 hx
    rw [hf] at hf'; cases hf'
    rw [hs] at hx'; cases hx'
  have hpin := h.pinned f hf
  have hslot := swapoutSlot_spec h.inv hpin
  rw [pageIdx_pageToPa] at hslot
  rw [run, bind_read, hf]
  refine call_spec hslot ?_
  rintro (_ | s) σ' hσ'
  · obtain ⟨h1, k1, -, hm, hd⟩ := hσ'
    have hlog : ∀ r v, logical σ' r v = logical w.sys.k r v := fun r v => by
      rw [logical, logical, hm, hd]
    refine ⟨_, h.step h1 k1 (fun x => ⟨fun hx => absurd hx (hnone x), ?_⟩) ?_ ?_ ?_,
      .inl ⟨rfl, fun x => k1.root x (notMem_empty _), hlog⟩⟩
    · rintro ⟨_, ⟨⟩, -⟩
    · rintro _ ⟨⟩
    · rintro r v ⟨⟩
      exact (h.flight_page hf).2.1
    · intro r v _ _
      rw [hlog]
  · obtain ⟨-, hfree, ⟨m', rfl, -⟩, h1, k1⟩ := hσ'
    refine ⟨_, h.step h1 k1 (fun x => ?_) ?_ (fun _ _ hx => absurd hx (notMem_empty _))
      (fun _ _ _ hx => absurd hx (notMem_empty _)), .inr ⟨s, rfl, k1⟩⟩
    · by_cases hx : x = s
      · subst hx
        exact ⟨fun _ => ⟨_, rfl, rfl⟩, fun _ => update_self ..⟩
      · rw [show (g.setSlot s .busy).slot x = g.slot x from update_of_ne hx ..]
        refine ⟨fun hb => absurd hb (hnone x), ?_⟩
        rintro ⟨_, ⟨⟩, hb⟩
        cases hb
        exact absurd rfl hx
    · rintro _ ⟨⟩
      exact k1.pinned _ _ _ hpin (notMem_empty _) (notMem_empty _)

/-- The bytes of a slot after one of its blocks has been written. -/
theorem slotBytes_update {i : ℕ} (d : ℕ → ℕ → Byte) (m : Mem) (a : ℕ) (hi : i < 4)
    (k : Fin pgsize) :
    slotBytes (update d (slotBlock s i)
        (Mem.write (d (slotBlock s i)) 0 (m.bytes (a + i * 1024) 1024))) s k =
      if k.val / 1024 = i then m (a + k) else slotBytes d s k := by
  have hk : k.val < 4096 := k.isLt
  simp only [slotBytes, bsize]
  split
  · rename_i hki
    rw [hki, update_self, Mem.write_bytes_apply _ _ (by omega) (by omega)]
    congr 1
    omega
  · rename_i hki
    rw [update_of_ne fun he => hki (slotBlock_inj (by omega) hi he).2]

theorem block_spec (h : w.Acc g) (hf : w.flight = some f)
    (hs : f.slot = some s) (hd : f.done < blksPerPg) :
    Ensures (block.run w) (fun _ w' => ∃ g', w'.Acc g' ∧
      w'.flight = some { f with done := f.done + 1 } ∧
      Keeps { slots := {s} } w.sys.k g w'.sys.k g' ∧ ∀ k : Fin pgsize, slotBytes w'.sys.k.disk s k =
        if k.val / 1024 = f.done then w.sys.k.mem (pageToPa f.victim + k)
        else slotBytes w.sys.k.disk s k) fun _ => False := by
  have hpin := h.pinned f hf
  have hbusy : g.slot s = .busy := (h.busy s).2 ⟨f, hf, hs⟩
  have hrole : g.role (pageToPa f.victim) ≠ .none := by rw [hpin.role]; simp
  obtain ⟨victim, table, page, slot, done⟩ := f
  obtain rfl : slot = some s := hs
  have hd4 : done < 4 := hd
  rw [run, bind_read, hf]
  dsimp only
  have hcall : swapwriteBlock (pageToPa victim) s done w.sys.k = _ :=
    swapwriteBlock_apply h.inv hrole hd4
  have honly : OnlySlot s w.sys.k.disk (update w.sys.k.disk (slotBlock s done)
      (Mem.write (w.sys.k.disk (slotBlock s done)) 0
        (w.sys.k.mem.bytes (pageToPa victim + done * 1024) 1024))) :=
    fun b hb => update_of_ne (hb done hd4) ..
  obtain ⟨h1, k1⟩ := h.inv.writeSlot hbusy honly (w.sys.k.nrSectorsWrite + 1)
  refine call_spec (Q := fun _ σ' => _ = σ') (by rw [hcall]; exact rfl) ?_
  rintro - _ rfl
  refine ⟨g, h.step h1 k1 (fun x => ?_) ?_ (fun _ _ hx => absurd hx (notMem_empty _))
    (fun _ _ _ hx => absurd hx (notMem_empty _)), rfl, k1, fun k => ?_⟩
  · rw [h.busy x, hf]
    constructor <;> rintro ⟨_, ⟨⟩, hx⟩ <;> exact ⟨_, rfl, hx⟩
  · rintro _ ⟨⟩
    exact k1.pinned _ _ _ hpin (notMem_empty _) (notMem_empty _)
  · exact slotBytes_update _ _ _ hd4 k

theorem finish_spec (h : w.Acc g) (hf : w.flight = some f) (hs : f.slot = some s) :
    Ensures (finish.run w) (fun _ w' => ∃ g', w'.Acc g' ∧ w'.flight = none ∧
      Keeps ⟨{(f.table, f.page)}, ∅, {s}⟩ w.sys.k g w'.sys.k g' ∧ logical w'.sys.k f.table f.page =
        some ⟨perms (leaf w.sys.k.mem f.table f.page), slotBytes w.sys.k.disk s⟩)
      fun _ => False := by
  have hpin := h.pinned f hf
  have hbusy : g.slot s = .busy := (h.busy s).2 ⟨f, hf, hs⟩
  obtain ⟨hr, hv, hV, -⟩ := h.flight_page hf
  have hfin := swapoutFinish_spec h.inv hpin hbusy
  rw [pageIdx_pageToPa] at hfin
  obtain ⟨victim, table, page, slot, done⟩ := f
  obtain rfl : slot = some s := hs
  dsimp only at hpin hr hv hV hfin ⊢
  rw [run, bind_read, hf]
  dsimp only
  refine call_spec hfin ?_
  rintro - σ' ⟨h1, k1, -, -, hlog, -⟩
  have k2 : Keeps ⟨{(table, page)}, ∅, {s}⟩ w.sys.k g σ' _ :=
    k1.shrinkFrames h.inv.tree h.inv.leaves fun x hx _ => by
      obtain rfl : x = pageToPa victim := hx
      rw [hpin.role]
      simp [Ghost.evict]
  refine ⟨_, h.step h1 k2 (fun x => ?_) ?_ ?_ ?_, rfl, k2, hlog⟩
  · constructor
    · intro hx
      by_cases hxs : x = s
      · subst hxs
        rw [show (g.evict (pageToPa victim) table page x).slot x = .page table page from
          update_self ..] at hx
        cases hx
      · rw [show (g.evict (pageToPa victim) table page s).slot x = g.slot x from
          update_of_ne hxs .., h.busy x, hf] at hx
        obtain ⟨_, ⟨⟩, hx'⟩ := hx
        cases hx'
        exact absurd rfl hxs
    · rintro ⟨_, ⟨⟩, -⟩
  · rintro _ ⟨⟩
  · rintro r v ⟨⟩
    exact hv
  · rintro r v - ⟨⟩
    rw [hlog, logical, pageOf_valid hV]
    simp

/-- **Every event keeps the accounts**, if it spares the page being evicted. -/
theorem spec (e : Event) (h : w.Sound) (hok : e.Ok w) (hsp : e.Spares w) :
    Ensures (e.run w) (fun _ w' => w'.Sound) (e.MayStop w) := by
  cases e with
  | op o => exact (o.spec h hok hsp).imp fun _ _ hq => hq.1
  | select =>
    obtain ⟨g, h⟩ := h
    exact (select_spec h hok).imp fun _ _ ⟨g', h', _⟩ => ⟨g', h'⟩
  | slot =>
    obtain ⟨g, h⟩ := h
    obtain ⟨f, hf, hs⟩ := hok
    exact (slot_spec h hf hs).imp fun _ _ ⟨g', h', _⟩ => ⟨g', h'⟩
  | block =>
    obtain ⟨g, h⟩ := h
    obtain ⟨f, s, hf, hs, hd⟩ := hok
    exact (block_spec h hf hs hd).imp fun _ _ ⟨g', h', _⟩ => ⟨g', h'⟩
  | finish =>
    obtain ⟨g, h⟩ := h
    obtain ⟨f, s, hf, hs, -⟩ := hok
    exact (finish_spec h hf hs).imp fun _ _ ⟨g', h', _⟩ => ⟨g', h'⟩

end Event

/-! ### The steps together -/

theorem World.call_ok {a : α} {σ' : KState} (h : m w.sys.k = .ok (a, σ')) :
    call m w = .ok (a, { w with sys := { w.sys with k := σ' } }) := by
  unfold call zoom
  dsimp only
  rw [h]

theorem World.call_error {e : Stop} (h : m w.sys.k = .error e) : call m w = .error e := by
  unfold call zoom
  dsimp only
  rw [h]

/-- Without an eviction in progress its later steps do nothing. -/
theorem Event.each_idle (hf : w.flight = none) : ∀ es : List Event,
    (∀ e ∈ es, e = .slot ∨ e = .block ∨ e = .finish) → each run es w = .ok ((), w)
  | [], _ => by rw [each_nil]; rfl
  | e :: es, he => by
    have hrun : e.run w = .ok ((), w) := by
      rcases he e mem_cons_self with rfl | rfl | rfl <;>
        rw [run, bind_read, hf] <;> rfl
    rw [each_cons, bind_ok hrun]
    exact each_idle hf es fun x hx => he x (mem_cons_of_mem _ hx)

/-- The blocks from `done` on, each a step of its own, are those that `swapwrite` writes. -/
theorem Event.each_block {victim table page s : ℕ} (es : List Event) : ∀ (n : ℕ) {done : ℕ}
    {w : World}, w.flight = some ⟨victim, table, page, some s, done⟩ →
    each run (replicate n .block ++ es) w =
      (do call (each (swapwriteBlock (pageToPa victim) s) (range' done n))
          modify fun w => { w with flight := some ⟨victim, table, page, some s, done + n⟩ }
          each run es) w
  | 0, done, w, hf => by
    have hcall : call (each (swapwriteBlock (pageToPa victim) s) []) w = .ok ((), w) :=
      call_ok (by rw [each_nil]; rfl)
    rw [range'_zero, bind_ok hcall, bind_modify, add_zero, ← hf]
    rfl
  | n + 1, done, w, hf => by
    rw [replicate_succ, cons_append, each_cons, range'_succ, run,
      bind_assoc_apply, bind_read, hf]
    dsimp only
    cases hb : swapwriteBlock (pageToPa victim) s done w.sys.k with
    | error e =>
      have hall : each (swapwriteBlock (pageToPa victim) s) (done :: range' (done + 1) n)
          w.sys.k = .error e := by rw [each_cons, bind_error hb]
      rw [bind_assoc_apply, bind_error (call_error hb), bind_error (call_error hall)]
    | ok q =>
      obtain ⟨⟨⟩, σ₁⟩ := q
      have hall : each (swapwriteBlock (pageToPa victim) s) (done :: range' (done + 1) n)
          w.sys.k = each (swapwriteBlock (pageToPa victim) s) (range' (done + 1) n) σ₁ := by
        rw [each_cons, bind_ok hb]
      rw [bind_assoc_apply, bind_ok (call_ok hb), bind_modify, each_block es n rfl]
      cases hr : each (swapwriteBlock (pageToPa victim) s) (range' (done + 1) n) σ₁ with
      | error e =>
        rw [bind_error (call_error hr), bind_error (call_error (hall.trans hr))]
      | ok q =>
        obtain ⟨⟨⟩, σ₂⟩ := q
        rw [bind_ok (call_ok hr), bind_ok (call_ok (hall.trans hr)),
          add_right_comm, add_assoc done n 1]
        rfl

/-- **The steps of an eviction, one after the other, are `swapout`.** -/
theorem events_eq_swapout (h : w.Sound) (hf : w.flight = none) :
    each Event.run [.select, .slot, .block, .block, .block, .block, .finish] w =
      Op.run .swapout w := by
  obtain ⟨g, h⟩ := h
  obtain ⟨o, σ₁, hsel, hσ₁⟩ := (swapoutSelect_spec h.inv).exists_ok
  rw [each_cons, Event.run, bind_assoc_apply, bind_ok (call_ok hsel), Op.run]
  cases o with
  | none =>
    have hout : swapout w.sys.k = .ok (-1, σ₁) := by rw [swapout, bind_ok hsel]; rfl
    rw [bind_ok (call_ok hout)]
    refine Event.each_idle ?_ _ (by simp)
    exact hf
  | some i =>
    obtain ⟨-, r, v, l', -, h1, -, hpin, -⟩ := hσ₁
    have hslot := swapoutSlot_spec h1 hpin
    rw [pageIdx_pageToPa] at hslot
    obtain ⟨o, σ₂, hsl, hσ₂⟩ := hslot.exists_ok
    rw [bind_modify, each_cons, Event.run, bind_assoc_apply, bind_read]
    dsimp only
    rw [bind_assoc_apply, bind_ok (call_ok hsl)]
    cases o with
    | none =>
      have hout : swapout w.sys.k = .ok (-1, σ₂) := by
        rw [swapout, bind_ok hsel]; dsimp only; rw [bind_ok hsl]; rfl
      rw [bind_ok (call_ok hout), hf]
      dsimp only
      rw [bind_modify]
      exact Event.each_idle (w := ⟨{ w.sys with k := σ₂ }, w.held, w.spaces, none⟩) rfl _ (by simp)
    | some s =>
      obtain ⟨hs, -⟩ := hσ₂
      have hrange : ¬ ((s : ℤ) < 0 ∨ (s : ℤ) ≥ (swapmax / blksPerPg : ℕ)) := by
        simp only [nslots, swapmax, blksPerPg, pgsize, bsize] at *
        omega
      have hwrite : swapwrite (pageToPa i) s =
          each (swapwriteBlock (pageToPa i) s) (range' 0 4) := by
        rw [swapwrite, if_neg hrange, Int.toNat_natCast, blksPerPg, range_eq_range']
        rfl
      have hout : swapout w.sys.k = (do
          each (swapwriteBlock (pageToPa i) s) (range' 0 4)
          swapoutFinish i s
          pure 0) σ₂ := by
        rw [swapout, bind_ok hsel]; dsimp only; rw [bind_ok hsl]; dsimp only; rw [hwrite]
      dsimp only
      rw [bind_modify]
      refine (Event.each_block [.finish] 4 rfl).trans ?_
      cases hb : each (swapwriteBlock (pageToPa i) s) (range' 0 4) σ₂ with
      | error e =>
        rw [bind_error hb] at hout
        rw [bind_error (call_error hout)]
        exact bind_error (call_error hb)
      | ok q =>
        obtain ⟨⟨⟩, σ₃⟩ := q
        rw [bind_ok hb] at hout
        refine (bind_ok (call_ok hb)).trans ?_
        rw [bind_modify, each_cons, Event.run, bind_assoc_apply, bind_read]
        dsimp only [Flight.begun]
        cases hfin : swapoutFinish i s σ₃ with
        | error e =>
          rw [bind_error hfin] at hout
          rw [bind_error (call_error hout), bind_assoc_apply]
          exact bind_error (call_error hfin)
        | ok q =>
          obtain ⟨⟨⟩, σ₄⟩ := q
          rw [bind_ok hfin] at hout
          rw [bind_ok (call_ok hout), bind_assoc_apply]
          refine (bind_ok (call_ok hfin)).trans ?_
          rw [bind_modify, each_nil, ← hf]

/-- A page of the first process. -/
theorem events_eq_swapout_page : ∃ w, w.Sound ∧ w.flight = none ∧ w.sys.k.lruHead ≠ none ∧
    each Event.run [.select, .slot, .block, .block, .block, .block, .finish] w =
      Op.run .swapout w := by
  obtain ⟨w, hw, ht⟩ := reachable_test (n := 13) (by decide) (by decide)
    [.userinit, .sbrk 0 4096#64] (t := fun w => decide (w.sys.k.lruHead ≠ none)) (by decide +kernel)
  obtain ⟨hs, hf⟩ := reachable_sound hw
  exact ⟨w, hs, hf, of_decide_eq_true ht, events_eq_swapout hs hf⟩

/-! ### Runs -/

/-- **The machine of evictions in steps**, interleaved with complete operations. -/
def evictions : Machine World Stop Event where
  init := Booted
  guard := Event.Ok
  prog := Event.run

/-- Runs that spare the page being evicted keep the accounts. -/
theorem evictions_sound (h : (evictions.restrict Event.Spares).Reachable w) : w.Sound := by
  refine h.invariant (fun w hw => hw.sound) ?_
  rintro w e w' hs ⟨⟨hok, hsp⟩, hrun⟩
  exact (e.spec hs hok hsp).of_ok hrun

/-- The bit of a slot in the swap bitmap. -/
def slotInUse (σ : KState) (s : ℕ) : Bool := (slotByte σ s).getLsbD (s % 8)

/-- Page `v` of the table `r` is in the slot `s`. -/
def NamesSlot (w : World) (r v s : ℕ) : Prop :=
  w.IsTable r ∧ v < 2 ^ 27 ∧ has (leaf w.sys.k.mem r v) pteV = false ∧
    has (leaf w.sys.k.mem r v) pteSwapped = true ∧ pteSlot (leaf w.sys.k.mem r v) = s

/-- **What evictions must not break.** -/
structure EvictionSafe (w : World) : Prop where
  /-- The free list ends and has no frame twice. -/
  freelist : ∃ l, Chain w.sys.k.mem w.sys.k.freelist l ∧ l.Nodup
  /-- `kfree` was never given a free frame, `kalloc` never returned one in use. -/
  trace : WellUsed w.sys.k.trace
  /-- The entry that the reverse map gives for the victim belongs to a page table and maps it. -/
  victim : ∀ f, w.flight = some f → w.IsTable (w.sys.k.pages f.victim).pagetable ∧
    has (leaf w.sys.k.mem (w.sys.k.pages f.victim).pagetable
      ((w.sys.k.pages f.victim).vaddr / pgsize)) pteV = true ∧
    pte2pa (leaf w.sys.k.mem (w.sys.k.pages f.victim).pagetable
      ((w.sys.k.pages f.victim).vaddr / pgsize)) = pageToPa f.victim
  /-- A slot in use is named by an entry, or is the one being written. -/
  slots : ∀ s < nslots, slotInUse w.sys.k s = true →
    (∃ r v, NamesSlot w r v s) ∨ ∃ f, w.flight = some f ∧ f.slot = some s

theorem World.Sound.evictionSafe (h : w.Sound) : EvictionSafe w := by
  obtain ⟨g, h⟩ := h
  obtain ⟨l, hl, hnd, -⟩ := h.inv.free
  refine ⟨⟨l, hl, hnd⟩, h.inv.hist.1, fun f hf => ?_, fun s hs hb => ?_⟩
  · obtain ⟨hr, hv, hV, hpa⟩ := h.flight_page hf
    have hpin := h.pinned f hf
    have hpt := hpin.pagetable
    have hva := hpin.vaddr
    rw [pageIdx_pageToPa] at hpt hva
    rw [hpt, hva, show f.page * 4096 / pgsize = f.page from Nat.mul_div_cancel _ (by decide)]
    exact ⟨h.isTable.2 hr, hV, hpa⟩
  · have hne := (h.inv.slots.bit s hs).1 hb
    cases hτ : g.slot s with
    | free => exact absurd hτ hne
    | busy => exact .inr ((h.busy s).1 hτ)
    | page r v =>
      obtain ⟨hr, hv, hV, hS, he⟩ := h.inv.leaves.slot s r v hτ
      exact .inl ⟨r, v, h.isTable.2 hr, lt_trans hv (by decide), hV, hS, he⟩

/-- **Evictions are safe as long as nobody unmaps the victim.**  In every run in which no operation
unmaps the page being evicted or frees its page table before the eviction is finished, the free list
has no frame twice, the entry to be rewritten maps the victim, and no slot is lost. -/
theorem evictions_safe (h : (evictions.restrict Event.Spares).Reachable w) : EvictionSafe w :=
  (evictions_sound h).evictionSafe

/-- A test that implies the guard of an event; a step that finds no eviction does not pass. -/
def Event.check : Event → World → Bool
  | op o, w => o.check w
  | select, w => w.flight.isNone
  | slot, w => w.flight.any fun f => f.slot.isNone
  | block, w => w.flight.any fun f => f.slot.isSome && decide (f.done < blksPerPg)
  | finish, w => w.flight.any fun f => f.slot.isSome && decide (f.done = blksPerPg)

theorem Event.Ok.of_check (e : Event) (w : World) (h : e.check w = true) : e.Ok w := by
  cases e with
  | op o => exact Op.Ok.of_check o w h
  | select => exact isNone_iff_eq_none.1 h
  | slot =>
    obtain ⟨f, hf, hs⟩ := (any_eq_true _ _).1 h
    exact ⟨f, hf, isNone_iff_eq_none.1 hs⟩
  | block | finish =>
    obtain ⟨f, hf, hq⟩ := (any_eq_true _ _).1 h
    obtain ⟨h1, h2⟩ := Bool.and_eq_true_iff.1 hq
    obtain ⟨s, hs⟩ := isSome_iff_exists.1 h1
    exact ⟨f, s, hf, hs, of_decide_eq_true h2⟩

/-- A list of events after which the small machine passes a test. -/
theorem evictions_test {n : ℕ} (h : n ≤ 32766) (h0 : 0 < n) (es : List Event) {t : World → Bool}
    (ht : (evictions.path Event.check es (small n h)).any t = true) :
    ∃ w, evictions.Reachable w ∧ t w = true :=
  Machine.Reachable.test (M := evictions) Event.Ok.of_check
    (.init ⟨_, _, _, _, boot_small h h0, rfl⟩) es ht

/-- The page by which the first process has grown is being evicted, with two of its blocks
written. -/
theorem evictions_safe_small : ∃ w f, (evictions.restrict Event.Spares).Reachable w ∧
    w.flight = some f ∧ f.done = 2 ∧ EvictionSafe w := by
  have hrun : ((evictions.restrict Event.Spares).path (fun e w => e.check w && match e with
      | .op _ => w.flight.isNone
      | _ => true) [.op .userinit, .op (.sbrk 0 4096#64), .select, .slot, .block, .block]
      (small 13 (by decide))).any (fun w => w.flight.any fun f => f.done = 2) = true := by
    decide +kernel
  obtain ⟨w, hp, hw⟩ := (any_eq_true _ _).1 hrun
  obtain ⟨f, hf, hd⟩ := (any_eq_true _ _).1 hw
  have hr : (evictions.restrict Event.Spares).Reachable w := by
    refine .path (fun e w he => ?_) (.init ⟨_, _, _, _, boot_small _ (by decide), rfl⟩) hp
    obtain ⟨h1, h2⟩ := Bool.and_eq_true_iff.1 he
    refine ⟨Event.Ok.of_check e w h1, ?_⟩
    cases e with
    | op o =>
      rw [Event.Spares, isNone_iff_eq_none.1 h2]
      exact Spared.none _
    | _ => trivial
  exact ⟨w, f, hr, hf, of_decide_eq_true hd, evictions_safe hr⟩

def freedTwice : List Call → Bool
  | .kfree pa :: .kfree pa' :: _ => pa = pa'
  | _ => false

/-- **A page that its process gives up while it is being evicted is freed twice.**  The first
process grows by a page, the page is chosen and written to its slot, the process shrinks again, and
the eviction frees the frame once more. -/
theorem evictions_unsafe : ∃ w, evictions.Reachable w ∧ ¬ EvictionSafe w := by
  obtain ⟨w, hw, ht⟩ := evictions_test (n := 13) (by decide) (by decide)
    [.op .userinit, .op (.sbrk 0 4096#64), .select, .slot, .block, .block, .block, .block,
      .op (.sbrk 0 (-4096#64)), .finish]
    (t := fun w => freedTwice w.sys.k.trace) (by decide +kernel)
  refine ⟨w, hw, fun hs => ?_⟩
  have hu := hs.trace
  unfold freedTwice at ht
  split at ht
  · rename_i pa pa' t htr
    obtain rfl : pa = pa' := of_decide_eq_true ht
    rw [htr] at hu
    exact hu.1 (.inl rfl)
  · cases ht

end Xv6Swap
