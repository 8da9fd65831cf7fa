import Xv6Swap.User.Malloc

/-!
# The heap of a program

Every program that calls `malloc` and `free` and writes to its blocks keeps the blocks in order, as
long as its requests fit what `sbrk` can be asked for and `sbrk` has given fewer than 2^32 units,
the number of units that the size field of a header can count.

* `HeapSound` : the invariant that a reader of `umalloc.c` expects;
* `heap_sound` : **it holds in every run, and the loops of `malloc` and `free` end**;
* `heap_overflow` : with more units the size of a merged block wraps around.
-/

namespace Xv6Swap.Umalloc

open Block Nat Prog List
open Circular (Seg)

variable {E : Type} {os : Sbrk E} {F : Fresh os} {start : E → Prop} {s s' : Prog E}
  {base lo n k : ℕ} {nodes live : List ℕ} {m : ℕ → Header} {b : Block} {e : Event}

/-- The headers of the live blocks. -/
def Prog.headers (s : Prog E) : List ℕ := s.live.map header

/-- A live block is what its header says. -/
def Block.Ok (m : ℕ → Header) (b : Block) : Prop :=
  b.addr = b.header + unit ∧ b.bytes < 2 ^ 32 ∧ (m b.header).size = units b.bytes

/-- **The heap of a program is in order.** -/
structure ProgOk (F : Fresh os) (base lo : ℕ) (s : Prog E) : Prop where
  ready : Ready F base lo s.heap s.headers
  live : ∀ b ∈ s.live, b.Ok s.heap.mem

theorem Block.Ok.end_le (h : b.Ok m) : b.addr + b.bytes ≤ endOf m b.header := by
  obtain ⟨h1, h2, h3⟩ := h
  rw [units_eq h2] at h3
  simp only [endOf, unit] at h1 ⊢
  omega

theorem Block.Ok.congr {m' : ℕ → Header} (h : b.Ok m)
    (hm : m' b.header = m b.header) : b.Ok m' := by
  rw [Ok, hm]
  exact h

theorem Block.header_add (q n : ℕ) : (Block.mk (q + unit) n).header = q := Nat.add_sub_cancel ..

/-- The condition on the sizes: the byte request to `sbrk` fits a positive `int`. -/
def Event.Fits : Event → Prog E → Prop
  | malloc _ nbytes, _ => Umalloc.Fits (units nbytes)
  | _, _ => True

/-! ### One step -/

theorem call_ok {α : Type} {m : M E α} {a : α} (h : call m s = .ok (a, s')) :
    ∃ t, m s.heap = .ok (a, t) ∧ s' = { s with heap := t } := by
  simp only [call, Run.zoom] at h
  split at h
  · cases h
    exact ⟨_, ‹_›, rfl⟩
  · cases h

/-- A call with more rounds: a result that it has given, or would give, is this one. -/
theorem ProgOk.malloc (h : ProgOk F base lo s) (hbase : 0 < base) (hn : n < 2 ^ 32)
    (hfits : Fits (units n)) {p : ℕ} {t : Heap E} (hrun : malloc os base k n s.heap = .ok (p, t))
    (hgot : gotUnits s.heap.got < 2 ^ 32) (ht : gotUnits t.got < 2 ^ 32) :
    ProgOk F base lo (if p = 0 then { s with heap := t } else ⟨t, ⟨p, n⟩ :: s.live⟩) := by
  obtain ⟨k₀, hk₀⟩ := malloc_spec h.ready hbase hgot hn hfits
  have hrun' := malloc_mono (le_max_left k k₀) hrun
  have hlive : ∀ {m : ℕ → Header}, (∀ x ∈ s.headers, m x = s.heap.mem x) → ∀ b ∈ s.live,
      b.Ok m := fun hm b hb => (h.live b hb).congr (hm b.header (mem_map_of_mem hb))
  rcases hk₀ (max k k₀) (le_max_right k k₀) with ⟨s', ⟨hr, nodes', h'⟩ | ⟨q, hr, h'⟩⟩ | ⟨-, hbig⟩
  · cases hrun'.symm.trans hr
    rw [if_pos rfl]
    exact ⟨.inr ⟨nodes', h'.ok⟩, hlive h'.same⟩
  · cases hrun'.symm.trans hr
    rw [if_neg (by simp only [unit]; omega)]
    refine ⟨.inr ?_, fun b hb => ?_⟩
    · rw [headers, map_cons, header_add]
      exact h'.ok
    · rcases mem_cons.1 hb with rfl | hb
      · rw [Block.Ok, Block.header_add]
        exact ⟨rfl, hn, h'.size⟩
      · exact hlive h'.same b hb
  · exact absurd (hbig p t hrun') (by omega)

theorem ProgOk.heapOk (h : ProgOk F base lo s) (hb : b ∈ s.live) :
    ∃ nodes, HeapOk F base lo s.heap nodes s.headers := by
  rcases h.ready with ⟨-, hl, -⟩ | hok
  · rw [headers, map_eq_nil_iff] at hl
    rw [hl] at hb
    cases hb
  · exact hok

theorem Blocks.live_nodup {top total : ℕ}
    (h : Blocks base lo top m nodes live total) : live.Nodup := by
  refine h.live_apart.imp_of_mem ?_
  rintro a b ha - hab rfl
  have := (h.used a ha).2.1
  simp only [Apart, endOf, unit] at hab
  omega

section

variable (h : ProgOk F base lo s)
include h

/-- The live block at an address, and the others. -/
theorem ProgOk.split (hb : b ∈ s.live) :
    s.headers.Perm (b.header :: (s.live.filter fun b' => b'.addr ≠ b.addr).map header) := by
  obtain ⟨nodes, hok⟩ := h.heapOk hb
  have hnd : (s.live.map header).Nodup := hok.blocks.live_nodup
  have hfilter : (s.live.filter fun b' => b'.addr ≠ b.addr) = s.live.erase b := by
    rw [(Nodup.of_map _ hnd).erase_eq_filter]
    refine filter_congr fun b' hb' => ?_
    -- live blocks at the same address are the same
    have hiff : b'.addr = b.addr ↔ b' = b := by
      refine ⟨fun he => inj_on_of_nodup_map hnd hb' hb ?_, fun he => by rw [he]⟩
      rw [header, header, he]
    by_cases he : b' = b
    · simp [he]
    · simp [hiff, he]
  rw [hfilter]
  exact (perm_cons_erase hb).map header

/-- `free` keeps the heap in order, and returns. -/
theorem ProgOk.free (hgot : gotUnits s.heap.got < 2 ^ 32)
    (hb : b ∈ s.live) : ∃ k₀ t, (∀ k, k₀ ≤ k → free k b.addr s.heap = .ok ((), t)) ∧
      ProgOk F base lo ⟨t, s.live.filter fun b' => b'.addr ≠ b.addr⟩ := by
  obtain ⟨nodes, hok⟩ := h.heapOk hb
  have hblocks := hok.blocks.perm (h.split hb)
  obtain ⟨m', c, nodes', hrun, h', hc, hsame, -⟩ := free_spec (k := nodes.length) hblocks hgot
    hok.freep (le_refl _)
  rw [← (h.live b hb).1] at hrun
  refine ⟨nodes.length, _, fun k hk => free_mono hk hrun, .inr ⟨nodes', h', hc, hok.lo_top⟩, ?_⟩
  intro b' hb'
  exact (h.live b' (mem_of_mem_filter hb')).congr
    (hsame b'.header (mem_map_of_mem hb'))

/-- No header stands in the bytes of a live block. -/
theorem ProgOk.misses (hok : HeapOk F base lo s.heap nodes s.headers)
    {a : ℕ} (ha : a ∈ nodes ∨ a ∈ s.headers) (hb : b ∈ s.live) : b.Misses a := by
  have hmem : b.header ∈ s.headers := mem_map_of_mem hb
  have haddr := (h.live b hb).1
  suffices hside : a + unit ≤ b.addr ∨ endOf s.heap.mem b.header ≤ a from
    hside.imp_right fun hle => (h.live _ hb).end_le.trans hle
  have hapart : 0 < (s.heap.mem a).size → Apart s.heap.mem a b.header →
      a + unit ≤ b.addr ∨ endOf s.heap.mem b.header ≤ a := fun hpos hap =>
    hap.imp_left fun hle => by simp only [endOf, unit] at hle haddr ⊢; omega
  rcases ha with ha | ha
  · have hlo := hok.blocks.base_lo
    have hblo := (hok.blocks.used _ hmem).1
    rcases hok.blocks.node a ha with rfl | ⟨-, hpos, -⟩
    · exact .inl (by omega)
    · exact hapart hpos (hok.blocks.apart a ha _ hmem)
  · by_cases he : a = b.header
    · exact .inl (by omega)
    · exact hapart (hok.blocks.used _ ha).2.1 (hok.blocks.live_apart.forall ha hmem he)

/-- What a program writes to its blocks does not touch a header. -/
theorem ProgOk.write (hm : ∀ a, (∀ b ∈ s.live, b.Misses a) → m a = s.heap.mem a) :
    ProgOk F base lo { s with heap := { s.heap with mem := m } } := by
  rcases h.ready with hnew | ⟨nodes, hok⟩
  · refine ⟨.inl hnew, fun b hb => ?_⟩
    have hl : s.live = [] := map_eq_nil_iff.1 hnew.2.1
    rw [hl] at hb
    cases hb
  have hlive : ∀ a ∈ s.headers, m a = s.heap.mem a := fun a ha =>
    hm a fun b hb => h.misses hok (.inr ha) hb
  have hnode : ∀ a ∈ nodes, m a = s.heap.mem a := fun a ha =>
    hm a fun b hb => h.misses hok (.inl ha) hb
  refine ⟨.inr ⟨nodes, hok.blocks.congr hnode hlive, hok.freep, hok.lo_top⟩, fun b hb => ?_⟩
  exact (h.live b hb).congr (hlive _ (mem_map_of_mem hb))

end

/-! ### Runs -/

/-- **One step** that leaves fewer than 2^32 units keeps the heap in order. -/
theorem ProgOk.step (hbase : 0 < base) (h : gotUnits s.heap.got < 2 ^ 32 → ProgOk F base lo s)
    (hs : ((machine os base start).restrict Event.Fits).Step s e s')
    (ht : gotUnits s'.heap.got < 2 ^ 32) : ProgOk F base lo s' := by
  obtain ⟨⟨hok, hfits⟩, hrun⟩ := hs
  cases e with
  | malloc k n =>
    obtain ⟨p, s₁, h1, h2⟩ := Run.bind_eq_ok hrun
    obtain ⟨t, hcall, rfl⟩ := call_ok h1
    cases h2
    have hgot : gotUnits s.heap.got < 2 ^ 32 := by
      refine lt_of_le_of_lt (malloc_holds hfits (gotUnits_holds _) (le_refl _) hcall) ?_
      split at ht <;> exact ht
    refine (h hgot).malloc hbase hok hfits hcall hgot ?_
    split at ht <;> exact ht
  | free k ap =>
    obtain ⟨u, s₁, h1, h2⟩ := Run.bind_eq_ok hrun
    obtain ⟨t, hcall, rfl⟩ := call_ok h1
    cases h2
    obtain ⟨b, hb, rfl⟩ := hok
    have hgot : gotUnits s.heap.got < 2 ^ 32 := by
      rw [← (free_env hcall).2]
      exact ht
    obtain ⟨k₀, t', hfree, h'⟩ := (h hgot).free hgot hb
    cases (free_mono (le_max_left k k₀) hcall).symm.trans (hfree _ (le_max_right k k₀))
    exact h'
  | write m =>
    cases hrun
    exact (h ht).write hok

/-- **In every run** the heap is in order, as long as there are fewer than 2^32 units. -/
theorem progOk_of_reachable (hbase : 0 < base) (hlo : base + unit ≤ lo)
    (hstart : ∀ e, start e → lo ≤ F.top e)
    (hs : ((machine os base start).restrict Event.Fits).Reachable s)
    (ht : gotUnits s.heap.got < 2 ^ 32) : ProgOk F base lo s := by
  refine hs.invariant (I := fun s => gotUnits s.heap.got < 2 ^ 32 → ProgOk F base lo s) ?_ ?_ ht
  · rintro s ⟨hf, he, hgot, hl⟩ -
    refine ⟨.inl ⟨hf, ?_, hgot, hlo, hstart _ he⟩, fun b hb => ?_⟩
    · rw [headers, hl]
      rfl
    · rw [hl] at hb
      cases hb
  · exact fun s e s' h hs => ProgOk.step hbase h hs

/-- **The free list of the allocator**, with the blocks `l` behind `base`. -/
structure HeapSound (base : ℕ) (s : Prog E) (l : List ℕ) : Prop where
  /-- The list is circular through `base`. -/
  circle : Seg (fun p => (s.heap.mem p).ptr) base (base :: l) base
  freep : s.heap.freep ∈ base :: l
  /-- The addresses increase up to the single wrap. -/
  increasing : (base :: l).Pairwise (· < ·)
  /-- A free block ends before the next one begins, and does not touch it. -/
  gaps : l.Pairwise fun a b => endOf s.heap.mem a < b
  /-- Free blocks and live blocks do not overlap. -/
  apart : ∀ a ∈ l, ∀ b ∈ s.live, Apart s.heap.mem a b.header
  live : s.headers.Pairwise (Apart s.heap.mem)
  /-- No unit is lost or counted twice. -/
  units : sizes s.heap.mem l + sizes s.heap.mem s.headers = gotUnits s.heap.got

theorem HeapOk.sound (h : HeapOk F base lo s.heap nodes s.headers) : ∃ l, HeapSound base s l := by
  obtain ⟨l, rfl⟩ : ∃ l, nodes = base :: l := by
    cases nodes with
    | nil => cases h.blocks.head
    | cons a l => exact ⟨l, by rw [Option.some.inj h.blocks.head]⟩
  have hsum := h.blocks.sum
  rw [sizes_cons, h.blocks.base_size, zero_add] at hsum
  exact ⟨l, h.blocks.circle, h.freep, h.blocks.sorted, (pairwise_cons.1 h.blocks.order).2,
    fun a ha b hb => h.blocks.apart a (mem_cons_of_mem _ ha) _ (mem_map_of_mem hb),
    h.blocks.live_apart, hsum⟩

/-- **The heap is sound in every run** in which `sbrk` has given fewer than 2^32 units, whatever it
answers, as long as its regions lie above all earlier ones and above `base`: before the first call
there is nothing, and then the list is sound.  The loop of `free` ends for every live block, and
that of `malloc` for every size whose request fits, unless `sbrk` would exceed the limit. -/
theorem heap_sound (F : Fresh os) (hbase : 0 < base) (hstart : ∀ e, start e → base + unit ≤ F.top e)
    (hs : ((machine os base start).restrict Event.Fits).Reachable s)
    (ht : gotUnits s.heap.got < 2 ^ 32) :
    (s.heap.freep = 0 ∧ s.live = [] ∧ s.heap.got = [] ∨ ∃ l, HeapSound base s l) ∧
    (∀ b ∈ s.live, ∃ k₀, ∀ k, k₀ ≤ k → ∃ t, free k b.addr s.heap = .ok ((), t)) ∧
    ∀ n, n < 2 ^ 32 → Fits (units n) → Room os s.heap (units n) →
      ∃ k₀, ∀ k, k₀ ≤ k → ∃ p t, malloc os base k n s.heap = .ok (p, t) := by
  have h := progOk_of_reachable hbase (le_refl _) hstart hs ht
  refine ⟨h.ready.imp (fun hnew => ⟨hnew.1, map_eq_nil_iff.1 hnew.2.1, hnew.2.2.1⟩)
    fun ⟨_, hok⟩ => hok.sound, fun b hb => ?_, fun n hn hfits hroom => ?_⟩
  · obtain ⟨k₀, t, hfree, -⟩ := h.free ht hb
    exact ⟨k₀, fun k hk => ⟨t, hfree k hk⟩⟩
  · obtain ⟨k₀, hmalloc⟩ := malloc_spec h.ready hbase ht hn hfits
    refine ⟨k₀, fun k hk => ?_⟩
    rcases hmalloc k hk with ⟨t, ⟨hr, -⟩ | ⟨q, hr, -⟩⟩ | ⟨hno, -⟩
    · exact ⟨0, t, hr⟩
    · exact ⟨q + unit, t, hr⟩
    · exact absurd hroom hno

/-! ### A machine with much memory -/

/-- A break that only rises, and that any request moves. -/
def rising : Sbrk ℕ := fun n e => (some e, e + n.toNat)

def risingFresh : Fresh rising where
  top e := e
  grant := by
    rintro n e p e' - - ⟨⟩
    exact ⟨le_refl _, le_refl _⟩
  refuse := by
    rintro n e e' - - ⟨⟩

/-- The guard of an event, to be evaluated; a program that writes to no block. -/
def Event.check : Event → Prog E → Bool
  | malloc _ n, _ => n < 2 ^ 32 && decide (Umalloc.Fits (units n))
  | free _ ap, s => s.live.any fun b => b.addr = ap
  | write _, _ => false

theorem Event.ok_of_check (h : e.check s = true) : e.Ok s ∧ e.Fits s := by
  cases e with
  | malloc k n =>
    rw [check, Bool.and_eq_true, decide_eq_true_eq, decide_eq_true_eq] at h
    exact h
  | free k ap =>
    obtain ⟨b, hb, he⟩ := any_eq_true.1 h
    exact ⟨⟨b, hb, of_decide_eq_true he⟩, trivial⟩
  | write m => cases h

/-- The program before its first call. -/
def fresh (e : E) : Prog E := ⟨⟨fun _ => ⟨0, 0⟩, 0, e, []⟩, []⟩

/-- Two blocks of which one has been freed. -/
theorem heap_sound_freed : ∃ s, ((machine rising 16 (· = 4096)).restrict Event.Fits).Reachable s ∧
    gotUnits s.heap.got < 2 ^ 32 ∧ s.live.length = 1 ∧ ∃ l, HeapSound 16 s l := by
  obtain ⟨s, hs, ht⟩ := Machine.Reachable.test
    (M := (machine rising 16 (· = 4096)).restrict Event.Fits) (fun e s => Event.ok_of_check)
    (.init (s := fresh 4096) ⟨rfl, rfl, rfl, rfl⟩)
    [.malloc 4 100, .malloc 4 200, .free 4 (4096 + 16 * 4089)]
    (t := fun s => decide (gotUnits s.heap.got < 2 ^ 32) && decide (s.live.length = 1)
      && decide (s.heap.freep ≠ 0)) (by decide +kernel)
  simp only [Bool.and_eq_true, decide_eq_true_eq] at ht
  refine ⟨s, hs, ht.1.1, ht.1.2, ?_⟩
  exact (heap_sound risingFresh (by decide) (by rintro e rfl; decide) hs ht.1.1).1.resolve_left
    fun h => ht.2 h.1

/-- 33 blocks of almost 2^31 bytes each, allocated one after the other and freed again. -/
def manyBlocks : List Event :=
  (range 33).map (fun _ => .malloc 4 (2 ^ 31 - 32)) ++
    (range 33).map fun i => .free 4 (4096 + i * (2 ^ 31 - 16) + 16)

/-- **Too many units.**  The size of the block into which they are merged wraps around. -/
theorem heap_overflow : ∃ s, ((machine rising 16 (· = 4096)).restrict Event.Fits).Reachable s ∧
    s.heap.freep ≠ 0 ∧ ¬ ∃ l, HeapSound 16 s l := by
  obtain ⟨s, hs, ht⟩ := Machine.Reachable.test
    (M := (machine rising 16 (· = 4096)).restrict Event.Fits) (fun e s => Event.ok_of_check)
    (.init (s := fresh 4096) ⟨rfl, rfl, rfl, rfl⟩) manyBlocks
    (t := fun s => decide (s.heap.freep = 4096 ∧ (s.heap.mem 16).ptr = 4096 ∧
      s.heap.mem 4096 = ⟨16, 2 ^ 27 - 33⟩ ∧ s.live = [] ∧
      gotUnits s.heap.got = 33 * (2 ^ 27 - 1))) (by decide +kernel)
  obtain ⟨hf, h1, h2, hl, hgot⟩ := of_decide_eq_true ht
  refine ⟨s, hs, by omega, ?_⟩
  rintro ⟨l, h⟩
  have hunits := h.units
  rw [headers, hl, hgot] at hunits
  cases l with
  | nil =>
    have hself : (s.heap.mem 16).ptr = 16 := h.circle.2
    omega
  | cons y l =>
    obtain ⟨-, hy, hseg⟩ := h.circle
    obtain rfl : 4096 = y := h1.symm.trans hy
    cases l with
    | nil =>
      simp [sizes, h2] at hunits
    | cons z l =>
      -- the list comes back to `base` behind the only block
      have hz : (s.heap.mem 4096).ptr = z := hseg.1
      rw [h2] at hz
      have := (pairwise_cons.1 h.increasing).1 z (by simp)
      simp only at hz
      omega

end Xv6Swap.Umalloc
