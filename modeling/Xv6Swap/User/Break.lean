import Xv6Swap.System.Ops
import Xv6Swap.User.Heap

/-!
# malloc on top of sys_sbrk

`brk` is what `sys_sbrk` does to the size of a process, with any `int` (`sysSbrk_brk`).  With it
behind the allocator:

* `malloc_usable` : **in every run whose requests fit a positive `int`, `malloc` returns memory that
  the program has**;
* `malloc_wrapped` : a request for 2^32 - 1 bytes gets 16.
-/

namespace Xv6Swap

open Nat List Run

variable {w : World} {i : ℕ}

/-- What `sys_sbrk` does to the size of a process: an address or -1, and the new size.  `grant` says
whether there is memory to grow. -/
def brk (grant : Bool) (n : ℤ) (sz : ℕ) : Option ℕ × ℕ :=
  if 0 < n then
    if grant ∧ npg (addInt sz n) ≤ maxPages then (some sz, addInt sz n) else (none, sz)
  else if n < 0 then (some sz, min sz (addInt sz n))
  else (some sz, sz)

theorem argint_lt (a : Word) : argint a < 2 ^ 31 := by
  have := (a.setWidth 32).toInt_lt
  exact this

theorem call_eq {α : Type} {m : K α} {s : Sys} {a : α} {σ' : KState} (h : m s.k = .ok (a, σ')) :
    P.call m s = .ok (a, { s with k := σ' }) := by
  simp only [P.call, zoom, h]

/-- A size plus an `int` that is not negative. -/
theorem addInt_of_nonneg {n : ℤ} {sz : ℕ} (h0 : 0 ≤ n) (h1 : n < 2 ^ 31)
    (hsz : npg sz ≤ maxPages) : addInt sz n = sz + n.toNat := by
  have hmax : maxPages = 39768 := rfl
  simp only [npg] at hsz
  rw [addInt, Int.emod_eq_of_lt (by omega) (by omega)]
  omega

section

variable {s : Sys} {held spaces : List ℕ} {flight : Option Flight} {g : Ghost} {n : ℤ}

/-- `growproc` moves the break as `brk` says. -/
theorem growproc_brk (h : Accounts s held spaces flight g) (hi : i < nproc)
    (hp : (s.proc i).pagetable ≠ 0) (hn : n < 2 ^ 31) :
    ∃ grant r s', growproc i n s = .ok (r, s') ∧ brk grant n (s.proc i).sz =
      (if r < 0 then none else some (s.proc i).sz, (s'.proc i).sz) := by
  have hr := h.root_pagetable hi hp
  have hs := (h.procs i hi).shape hp
  have hmax := hs.le_maxPages h.inv hr
  rw [growproc, P.bind_get, Run.ite_apply]
  split
  case isTrue h0 =>
    have hadd := addInt_of_nonneg h0.le hn hmax
    obtain ⟨ret, σ', hrun, g', h', k, -, hret⟩ :=
      (hs.uvmalloc_spec h.inv hr (addInt (s.proc i).sz n)
      (by rw [IsFlags]; decide : IsFlags pteW) (by decide)).exists_ok
    rw [bind_ok (call_eq hrun), Run.ite_apply]
    rcases hret with ⟨rfl, -⟩ | ⟨hret, hs'⟩
    · refine ⟨false, -1, _, rfl, ?_⟩
      rw [brk, if_pos h0, if_neg (by simp)]
      rfl
    · obtain rfl : ret = addInt (s.proc i).sz n := by omega
      rw [if_neg (by omega)]
      refine ⟨true, 0, _, rfl, ?_⟩
      have hr' := (k.root _ (Set.notMem_empty _)).2 hr
      rw [brk, if_pos h0, if_pos ⟨rfl, hs'.le_maxPages h' hr'⟩]
      simp [Sys.put_self]
  case isFalse h0 =>
    rw [Run.ite_apply]
    split
    case isTrue hneg =>
      obtain ⟨ret, σ', hrun, -⟩ := (hs.uvmdealloc_spec h.inv hr (addInt (s.proc i).sz n)).exists_ok
      obtain ⟨rfl, -⟩ := (uvmdealloc_spec h.inv hr _ _ (hs.le_uvpn h.inv hr)).of_ok hrun
      rw [bind_ok (call_eq hrun)]
      refine ⟨true, 0, _, rfl, ?_⟩
      rw [brk, if_neg h0, if_pos hneg]
      simp [Sys.put_self]
    case isFalse hneg =>
      refine ⟨true, 0, s, rfl, ?_⟩
      rw [brk, if_neg h0, if_neg hneg]
      rfl

end

/-- **`sys_sbrk` moves the break as `brk` says.** -/
theorem sysSbrk_brk (hw : system.Reachable w) (hl : w.Live i) (a0 : Word) :
    ∃ grant r s', sysSbrk i a0 w.sys = .ok (r, s') ∧ brk grant (argint a0) (w.sys.proc i).sz =
        (if r < 0 then none else some r.toNat, (s'.proc i).sz) := by
  obtain ⟨⟨g, h⟩, -⟩ := reachable_sound hw
  obtain ⟨grant, r, s', hrun, hbrk⟩ := growproc_brk h hl.1 (Op.live_frames h hl).2 (argint_lt a0)
  rw [sysSbrk, P.bind_get, bind_ok hrun, Run.ite_apply]
  by_cases hneg : r < 0
  · refine ⟨grant, -1, s', by rw [if_pos hneg]; rfl, ?_⟩
    rw [hbrk, if_pos hneg, if_pos (by decide)]
  · refine ⟨grant, (w.sys.proc i).sz, s', by rw [if_neg hneg]; rfl, ?_⟩
    rw [hbrk, if_neg hneg, if_neg (by omega)]
    rfl

/-- A page for the first process. -/
theorem sysSbrk_brk_page : ∃ w, system.Reachable w ∧ w.Live 0 ∧ ∃ grant r s',
    sysSbrk 0 4096#64 w.sys = .ok (r, s') ∧ brk grant (argint 4096#64) (w.sys.proc 0).sz =
      (if r < 0 then none else some r.toNat, (s'.proc 0).sz) := by
  obtain ⟨w, hw, hl⟩ := live_first
  exact ⟨w, hw, hl, sysSbrk_brk hw hl _⟩

namespace Umalloc

variable {base lo n k sz : ℕ}

/-- The break of a process, and whether there will be memory for each request to come. -/
structure Break where
  sz : ℕ
  grants : ℕ → Bool
  le : npg sz ≤ maxPages

theorem brk_le (grant : Bool) (n : ℤ) (h : npg sz ≤ maxPages) :
    npg (brk grant n sz).2 ≤ maxPages := by
  rw [brk]
  split
  · split
    · exact And.right ‹_›
    · exact h
  · split
    · exact (npg_mono (min_le_left _ _)).trans h
    · exact h

/-- `sbrk` of a process. -/
def kernelSbrk : Sbrk Break := fun n e =>
  ((brk (e.grants 0) n e.sz).1,
    ⟨(brk (e.grants 0) n e.sz).2, fun i => e.grants (i + 1), brk_le _ _ e.le⟩)

/-- A request that is granted moves the break by as much. -/
theorem brk_pos (grant : Bool) {n : ℤ} (h0 : 0 < n) (h1 : n < 2 ^ 31) (hsz : npg sz ≤ maxPages) :
    brk grant n sz = (none, sz) ∨ brk grant n sz = (some sz, sz + n.toNat) := by
  rw [brk, if_pos h0, addInt_of_nonneg h0.le h1 hsz]
  split
  · exact .inr rfl
  · exact .inl rfl

def kernelFresh : Fresh kernelSbrk where
  top e := e.sz
  grant n e p e' h0 h1 hos := by
    rcases brk_pos (e.grants 0) h0 h1 e.le with hb | hb <;>
      · simp only [kernelSbrk, hb] at hos
        cases hos
        try exact ⟨le_refl _, le_refl _⟩
  refuse n e e' h0 h1 hos := by
    rcases brk_pos (e.grants 0) h0 h1 e.le with hb | hb <;>
      · simp only [kernelSbrk, hb] at hos
        cases hos
        try exact le_refl _

/-! ### Memory that the program has -/

/-- The regions that `sbrk` has given are what lies between `lo` and the break. -/
structure Spans (lo : ℕ) (e : Break) (got : List Region) : Prop where
  cover : ∀ x, lo ≤ x → x < e.sz → ∃ r ∈ got, r.addr ≤ x ∧ x < r.addr + r.bytes
  units : lo + unit * gotUnits got ≤ e.sz

theorem spans_holds (hfits : Fits n) : Holds kernelSbrk n (Spans lo) := by
  intro e got h
  rcases brk_pos (e.grants 0) hfits.pos hfits.lt e.le with hb | hb
  · refine ⟨fun e' hos => ?_, fun p e' hos => ?_⟩ <;>
      simp only [kernelSbrk, hb] at hos <;> cases hos
    exact ⟨h.cover, h.units⟩
  · refine ⟨fun e' hos => ?_, fun p e' hos => ?_⟩ <;>
      simp only [kernelSbrk, hb] at hos <;> cases hos
    have hbytes : (toInt (coreUnits n * unit)).toNat = coreUnits n * unit := by
      rw [toInt_of_lt hfits]; rfl
    simp only [hbytes]
    refine ⟨fun x h1 h2 => ?_, ?_⟩
    · by_cases hx : x < e.sz
      · obtain ⟨r, hr, hx⟩ := h.cover x h1 hx
        exact ⟨r, mem_cons_of_mem _ hr, hx⟩
      · exact ⟨_, mem_cons_self, by simp only; omega, h2⟩
    · have hunits := h.units
      have hone : coreUnits n * unit / unit = coreUnits n := Nat.mul_div_cancel _ (by decide)
      rw [gotUnits, map_cons, sum_cons, ← gotUnits, hone, mul_add]
      simp only
      rw [mul_comm (coreUnits n)]
      omega

/-- The process has fewer units than a size can count. -/
theorem Spans.few {e : Break} {got : List Region} (h : Spans lo e got) : gotUnits got < 2 ^ 32 := by
  have hmax : maxPages = 39768 := rfl
  have hle := e.le
  have hunits := h.units
  simp only [npg, unit] at hle hunits
  omega

/-- A place where a header stands: on the free list, from `base` on, or before a live block. -/
def Prog.HasHeader (base : ℕ) (s : Prog Break) (a : ℕ) : Prop :=
  (∃ j, (fun p => (s.heap.mem p).ptr)^[j] base = a) ∨ a ∈ s.headers

/-- **Every live block is memory that the program has.** -/
structure Usable (base : ℕ) (s : Prog Break) : Prop where
  /-- Its bytes are from `sbrk` and below the break. -/
  inside : ∀ b ∈ s.live, b.addr + b.bytes ≤ s.heap.env.sz ∧ ∀ x, b.addr ≤ x →
    x < b.addr + b.bytes → ∃ r ∈ s.heap.got, r.addr ≤ x ∧ x < r.addr + r.bytes
  /-- No two blocks overlap. -/
  apart : s.live.Pairwise fun b b' => b.addr + b.bytes ≤ b'.addr ∨ b'.addr + b'.bytes ≤ b.addr
  /-- No header stands in a block. -/
  headers : ∀ b ∈ s.live, ∀ a, s.HasHeader base a → b.Misses a

/-- The break of a program is above its static data when it starts. -/
def Above (base : ℕ) (e : Break) : Prop := base + unit ≤ e.sz

variable {s s' : Prog Break}

/-- The regions along a run from the break `lo`. -/
theorem spans_of_reachable
    (hs : ((machine kernelSbrk base fun e => e.sz = lo).restrict Event.Fits).Reachable s) :
    Spans lo s.heap.env s.heap.got := by
  refine hs.invariant (I := fun s => Spans lo s.heap.env s.heap.got) ?_ ?_
  · rintro s ⟨-, rfl, hgot, -⟩
    rw [hgot]
    exact ⟨fun x h1 h2 => by omega, le_refl _⟩
  · rintro s e s' h ⟨⟨-, hfits⟩, hrun⟩
    cases e with
    | malloc k n =>
      obtain ⟨p, s₁, h1, h2⟩ := bind_eq_ok hrun
      obtain ⟨t, hcall, rfl⟩ := call_ok h1
      cases h2
      have ht := malloc_holds hfits (spans_holds hfits) h hcall
      split <;> exact ht
    | free k ap =>
      obtain ⟨u, s₁, h1, h2⟩ := bind_eq_ok hrun
      obtain ⟨t, hcall, rfl⟩ := call_ok h1
      cases h2
      simp only [(free_env hcall).1, (free_env hcall).2]
      exact h
    | write m =>
      cases hrun
      exact h

theorem Blocks.iterate_mem {top total : ℕ} {m : ℕ → Header} {nodes live : List ℕ}
    (h : Blocks base lo top m nodes live total) (j : ℕ) :
    (fun p => (m p).ptr)^[j] base ∈ nodes := by
  induction j with
  | zero => exact h.base_mem
  | succ j ih =>
    rw [Function.iterate_succ_apply']
    exact h.next_mem ih

theorem exists_start
    (hs : ((machine kernelSbrk base (Above base)).restrict Event.Fits).Reachable s) :
    ∃ lo, base + unit ≤ lo ∧
      ((machine kernelSbrk base fun e => e.sz = lo).restrict Event.Fits).Reachable s := by
  induction hs with
  | init hi => exact ⟨_, hi.2.1, .init ⟨hi.1, rfl, hi.2.2⟩⟩
  | step _ hstep ih =>
    obtain ⟨lo, hlo, hr⟩ := ih
    exact ⟨lo, hlo, .step hr hstep⟩

/-- **`malloc` returns memory that the program has.**  In every run of `malloc`, with sizes whose
byte request to `sbrk` fits a positive `int`, of `free` of live blocks and of writes to them, every
live block lies in memory obtained from `sbrk` and below the break, and it overlaps no other live
block and no header. -/
theorem malloc_usable (hbase : 0 < base)
    (hs : ((machine kernelSbrk base (Above base)).restrict Event.Fits).Reachable s) :
    Usable base s := by
  obtain ⟨lo, hlo, hr⟩ := exists_start hs
  have hspan := spans_of_reachable hr
  have h := progOk_of_reachable (F := kernelFresh) hbase hlo (fun e he => he.ge) hr hspan.few
  rcases h.ready with ⟨-, hl, -⟩ | ⟨nodes, hok⟩
  · have hl : s.live = [] := map_eq_nil_iff.1 hl
    refine ⟨?_, ?_, ?_⟩ <;> rw [hl]
    · exact nofun
    · exact .nil
    · exact nofun
  have hmem : ∀ {b}, b ∈ s.live → b.header ∈ s.headers := fun hb => mem_map_of_mem hb
  have hend : ∀ {b}, b ∈ s.live → b.addr + b.bytes ≤ s.heap.env.sz := fun hb =>
    (h.live _ hb).end_le.trans (hok.blocks.used _ (hmem hb)).2.2
  refine ⟨fun b hb => ⟨hend hb, fun x h1 h2 => ?_⟩, ?_, fun b hb a ha => ?_⟩
  · have h3 := (hok.blocks.used _ (hmem hb)).1
    have h4 := (h.live b hb).1
    have h5 := hend hb
    exact hspan.cover x (by omega) (by omega)
  · refine (pairwise_map.1 hok.blocks.live_apart).imp_of_mem fun {b b'} hb hb' hap => ?_
    have h1 := (h.live b hb).end_le
    have h2 := (h.live b' hb').end_le
    have h3 := (h.live b hb).1
    have h4 := (h.live b' hb').1
    rcases hap with hap | hap <;> omega
  · rcases ha with ⟨j, rfl⟩ | ha
    · exact h.misses hok (.inl (hok.blocks.iterate_mem j)) hb
    · exact h.misses hok (.inr ha) hb

/-- A process of one page to which all memory is granted. -/
def onePage : Break := ⟨4096, fun _ => true, by decide⟩

/-- Two blocks. -/
theorem malloc_usable_two :
    ∃ s, ((machine kernelSbrk 16 (Above 16)).restrict Event.Fits).Reachable s ∧
      s.live.length = 2 ∧ Usable 16 s := by
  obtain ⟨s, hs, ht⟩ := Machine.Reachable.test
    (M := (machine kernelSbrk 16 (Above 16)).restrict Event.Fits) (fun e s => Event.ok_of_check)
    (.init (s := fresh onePage) ⟨rfl, by rw [Above]; decide, rfl, rfl⟩)
    [.malloc 4 100, .malloc 4 100000] (t := fun s => s.live.length = 2) (by decide +kernel)
  exact ⟨s, hs, of_decide_eq_true ht, malloc_usable (by decide) hs⟩

/-- The event is a call of `malloc` with a `uint`. -/
def Event.isMalloc : Event → Bool
  | .malloc _ n => n < 2 ^ 32
  | _ => false

theorem guard_of_malloc {e : Event} {s : Prog Break} (h : e.isMalloc = true) :
    (machine kernelSbrk 16 (Above 16)).guard e s := by
  cases e with
  | malloc k n => exact of_decide_eq_true (p := n < 2 ^ 32) h
  | _ => cases h

/-- **A request for 2^32 - 1 bytes**: `morecore` asks `sbrk` for 2^32 + 16 bytes, which is 16 as an
`int`, and `malloc` returns the break. -/
theorem malloc_wrapped : ∃ s, (machine kernelSbrk 16 (Above 16)).Reachable s ∧
    s.live = [⟨4112, 2 ^ 32 - 1⟩] ∧ s.heap.env.sz = 4112 ∧ ¬ Usable 16 s := by
  obtain ⟨s, hs, ht⟩ := Machine.Reachable.test (M := machine kernelSbrk 16 (Above 16))
    (fun _ _ => guard_of_malloc)
    (.init (s := fresh onePage) ⟨rfl, by rw [Above]; decide, rfl, rfl⟩)
    [.malloc 4 (2 ^ 32 - 1)]
    (t := fun s => decide (s.live = [⟨4112, 2 ^ 32 - 1⟩] ∧ s.heap.env.sz = 4112))
    (by decide +kernel)
  obtain ⟨hl, hsz⟩ := of_decide_eq_true ht
  refine ⟨s, hs, hl, hsz, fun h => ?_⟩
  have hin := (h.inside ⟨4112, 2 ^ 32 - 1⟩ (by rw [hl]; simp)).1
  rw [hsz] at hin
  simp only at hin
  omega

end Umalloc

end Xv6Swap
