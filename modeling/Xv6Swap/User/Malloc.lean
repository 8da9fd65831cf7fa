import Xv6Swap.User.FreeList

/-!
# malloc

What `malloc` does to the blocks of the allocator when `sbrk` gives regions above all earlier ones.

* `Fresh` : the promise of `sbrk`;
* `HeapOk` : the blocks are in order below the highest address given so far;
* `morecore_spec`, `scan`, `malloc_spec` : the search ends after at most two rounds, with a block,
  or without one if `sbrk` refuses;
* `free_mono`, `malloc_mono` : more rounds than needed make no difference.
-/

namespace Xv6Swap.Umalloc

open Function List Nat Run

open Circular (Seg)

variable {E : Type} {os : Sbrk E} {m m' : ℕ → Header} {s s' : Heap E}
  {base lo top total a b c p q bp n k j r k' : ℕ} {nodes live L : List ℕ} {e : E}

/-- **`sbrk` answers -1 or with a region above all earlier ones**: nothing above `top` is in use. -/
structure Fresh (os : Sbrk E) where
  top : E → ℕ
  grant : ∀ n e p e', 0 < n → n < 2 ^ 31 → os n e = (some p, e') →
    top e ≤ p ∧ p + n.toNat ≤ top e'
  refuse : ∀ n e e', 0 < n → n < 2 ^ 31 → os n e = (none, e') → top e ≤ top e'

/-- The units in the regions that `sbrk` has given. -/
def gotUnits (got : List Region) : ℕ := (got.map fun r => r.bytes / unit).sum

/-- The allocator is in order, with the nodes of the free list and the headers of the blocks in
use. -/
structure HeapOk (F : Fresh os) (base lo : ℕ) (s : Heap E) (nodes live : List ℕ) : Prop where
  blocks : Blocks base lo (F.top s.env) s.mem nodes live (gotUnits s.got)
  freep : s.freep ∈ nodes
  lo_top : lo ≤ F.top s.env

/-! ### New blocks -/

namespace Blocks

variable (h : Blocks base lo top m nodes live total) {top' : ℕ}
include h

theorem mono (ht : top ≤ top') : Blocks base lo top' m nodes live total :=
  { h with
    node := fun a ha => (h.node a ha).imp_right fun hn => ⟨hn.1, hn.2.1, hn.2.2.trans ht⟩
    used := fun a ha => ⟨(h.used a ha).1, (h.used a ha).2.1, (h.used a ha).2.2.trans ht⟩ }

theorem congr (hn : ∀ a ∈ nodes, m' a = m a) (hl : ∀ a ∈ live, m' a = m a) :
    Blocks base lo top m' nodes live total where
  head := h.head
  circle := h.circle.congr fun a ha => by rw [hn a ha]
  order := h.order.imp_of_mem fun ha _ hab => by rwa [endOf, hn _ ha]
  base_size := by rw [hn base h.base_mem, h.base_size]
  base_lo := h.base_lo
  node a ha := by rw [endOf, hn a ha]; exact h.node a ha
  used a ha := by rw [endOf, hl a ha]; exact h.used a ha
  apart a ha b hb := by rw [Apart, endOf, endOf, hn a ha, hl b hb]; exact h.apart a ha b hb
  live_apart := h.live_apart.imp_of_mem fun ha hb hab => by
    rwa [Apart, endOf, endOf, hl _ ha, hl _ hb]
  sum := by
    rw [sizes_congr fun a ha => congrArg _ (hn a ha), sizes_congr fun a ha => congrArg _ (hl a ha)]
    exact h.sum

/-- The order of the blocks in use does not matter. -/
theorem perm {live' : List ℕ} (hp : live.Perm live') : Blocks base lo top m nodes live' total :=
  { h with
    used := fun a ha => h.used a (hp.mem_iff.2 ha)
    apart := fun a ha b hb => h.apart a ha b (hp.mem_iff.2 hb)
    live_apart := (hp.pairwise_iff fun {_ _} hab => Or.symm hab).1 h.live_apart
    sum := by rw [sizes, sizes, ← (hp.map _).sum_eq]; exact h.sum }

/-- **A block above all others.** -/
theorem grow (hlo : lo ≤ p) (hp : top ≤ p) (hn : 0 < n) (ht : p + unit * n ≤ top') :
    Blocks base lo top' (update m p ⟨(m p).ptr, n⟩) nodes (p :: live) (total + n) := by
  have hbase : base < p := by
    have := h.base_lo
    simp only [unit] at this
    omega
  have hnode : ∀ a ∈ nodes, endOf m a ≤ p := by
    intro a ha
    rcases h.node a ha with rfl | ⟨-, -, hat⟩
    · rw [endOf, h.base_size]
      exact hbase.le
    · exact hat.trans hp
  have hlive : ∀ a ∈ live, endOf m a ≤ p := fun a ha => (h.used a ha).2.2.trans hp
  have hne : ∀ {a}, 0 < (m a).size → endOf m a ≤ p → a ≠ p := by
    rintro a h1 h2 rfl
    simp only [endOf, unit] at h2
    omega
  have hn' : ∀ a ∈ nodes, update m p ⟨(m p).ptr, n⟩ a = m a := by
    intro a ha
    refine update_of_ne ?_ ..
    rcases h.node a ha with rfl | ⟨-, hpos, -⟩
    · exact hbase.ne
    · exact hne hpos (hnode a ha)
  have hl' : ∀ a ∈ live, update m p ⟨(m p).ptr, n⟩ a = m a := fun a ha =>
    update_of_ne (hne (h.used a ha).2.1 (hlive a ha)) ..
  have h' := (h.congr hn' hl').mono (by omega : top ≤ top')
  refine { h' with used := ?_, apart := ?_, live_apart := ?_, sum := ?_ }
  · rintro a ha
    rcases mem_cons.1 ha with rfl | ha
    · rw [endOf, update_self]
      exact ⟨hlo, hn, ht⟩
    · exact h'.used a ha
  · intro a ha b hb
    rcases mem_cons.1 hb with rfl | hb
    · rw [Apart, endOf, hn' a ha]
      exact .inl (hnode a ha)
    · exact h'.apart a ha b hb
  · refine pairwise_cons.2 ⟨fun a ha => ?_, h'.live_apart⟩
    rw [Apart, endOf, endOf, hl' a ha]
    exact .inr (hlive a ha)
  · have := h'.sum
    rw [sizes_cons, update_self]
    simp only
    omega

end Blocks

/-! ### morecore -/

theorem toInt_of_lt (h : n < 2 ^ 31) : toInt n = n := by
  rw [toInt, BitVec.toInt_eq_toNat_of_lt]
  · rw [BitVec.toNat_ofNat, mod_eq_of_lt (by omega)]
  · rw [BitVec.toNat_ofNat, mod_eq_of_lt (by omega)]
    omega

theorem le_coreUnits (n : ℕ) : n ≤ coreUnits n ∧ 0 < coreUnits n := by
  rw [coreUnits]
  split <;> omega

/-- The request of `morecore` fits a positive `int`. -/
def Fits (nunits : ℕ) : Prop := coreUnits nunits * unit < 2 ^ 31

instance : DecidablePred Fits := fun n => inferInstanceAs (Decidable (coreUnits n * unit < 2 ^ 31))

/-- What `sbrk` may give for a block of so many units leaves fewer than 2^32 units in all. -/
def Room (os : Sbrk E) (s : Heap E) (nunits : ℕ) : Prop :=
  ∀ p e, os (toInt (coreUnits nunits * unit)) s.env = (some p, e) →
    gotUnits s.got + coreUnits nunits < 2 ^ 32

/-- The allocator has become `s'`, and the blocks `live` are as they were. -/
structure Kept (F : Fresh os) (base lo : ℕ) (s s' : Heap E) (nodes live : List ℕ) : Prop where
  ok : HeapOk F base lo s' nodes live
  same : ∀ x ∈ live, s'.mem x = s.mem x
  bound : gotUnits s'.got < 2 ^ 32

/-- The state once `sbrk` has given the region at `p` for a block of `n` units. -/
def granted (s : Heap E) (n p : ℕ) (e : E) : Heap E :=
  ⟨update s.mem p ⟨(s.mem p).ptr, coreUnits n⟩, s.freep, e, ⟨p, coreUnits n * unit⟩ :: s.got⟩

theorem gotUnits_granted (s : Heap E) (n p : ℕ) (e : E) :
    gotUnits (granted s n p e).got = gotUnits s.got + coreUnits n := by
  rw [granted, gotUnits, map_cons, sum_cons, add_comm]
  congr 1
  exact Nat.mul_div_cancel _ (by decide)

theorem Fits.pos (h : Fits n) : 0 < toInt (coreUnits n * unit) := by
  have := (le_coreUnits n).2
  rw [toInt_of_lt h, unit]
  omega

theorem Fits.lt (h : Fits n) : toInt (coreUnits n * unit) < 2 ^ 31 := by
  rw [toInt_of_lt h]
  exact_mod_cast h

theorem morecore_granted (h : Fits n) (hos : os (toInt (coreUnits n * unit)) s.env = (some p, e)) :
    morecore os k n s = (free k (p + unit) >>= fun _ => getFreep) (granted s n p e) := by
  have hbytes : (toInt (coreUnits n * unit)).toNat = coreUnits n * unit := by
    rw [toInt_of_lt h]; rfl
  have hmod : coreUnits n % 4294967296 = coreUnits n := mod_eq_of_lt (by
    simp only [Fits, unit] at h
    omega)
  simp [morecore, sbrk, hos, h.pos, hbytes, setSize, hmod, granted]

theorem morecore_refused (hos : os (toInt (coreUnits n * unit)) s.env = (none, e)) :
    morecore os k n s = .ok (0, { s with env := e }) := by
  simp [morecore, sbrk, hos]

/-- **`morecore`** returns 0, or puts a block that is large enough on the list. -/
theorem morecore_spec {F : Fresh os} (h : HeapOk F base lo s nodes live)
    (ht : gotUnits s.got < 2 ^ 32) (hfits : Fits n) (hroom : Room os s n) (hk : nodes.length ≤ k) :
    ∃ s' nodes', Kept F base lo s s' nodes' live ∧ nodes'.length ≤ nodes.length + 1 ∧
      (morecore os k n s = .ok (0, s') ∨
        morecore os k n s = .ok (s'.freep, s') ∧ ∃ y ∈ nodes', n ≤ (s'.mem y).size) := by
  obtain ⟨hle, hpos⟩ := le_coreUnits n
  cases hos : os (toInt (coreUnits n * unit)) s.env with
  | mk answer e =>
    cases answer with
    | none =>
      have htop := F.refuse _ _ _ hfits.pos hfits.lt hos
      exact ⟨{ s with env := e }, nodes, ⟨⟨h.blocks.mono htop, h.freep, h.lo_top.trans htop⟩,
        fun _ _ => rfl, ht⟩, le_succ _, .inl (morecore_refused hos)⟩
    | some p =>
      obtain ⟨hp, htop⟩ := F.grant _ _ _ _ hfits.pos hfits.lt hos
      have hroom' := hroom p e hos
      rw [← gotUnits_granted s n p e] at hroom'
      rw [toInt_of_lt hfits, Int.toNat_natCast, mul_comm] at htop
      have hgrow := h.blocks.grow (h.lo_top.trans hp) hp hpos htop
      rw [← gotUnits_granted s n p e] at hgrow
      obtain ⟨m', c, nodes', hfree, h', hc, hsame, hlen, y, hy, hlarge⟩ := free_spec
        (s := granted s n p e) hgrow hroom' h.freep hk
      have hlive : ∀ x ∈ live, (granted s n p e).mem x = s.mem x := fun x hx => by
        have hx' := h.blocks.used x hx
        refine update_of_ne ?_ ..
        simp only [endOf, unit] at hx'
        omega
      have hsize : ((granted s n p e).mem p).size = coreUnits n := by simp [granted]
      refine ⟨⟨m', c, e, (granted s n p e).got⟩, nodes', ⟨⟨h', hc, ?_⟩, fun x hx =>
        (hsame x hx).trans (hlive x hx), hroom'⟩, hlen, .inr ⟨?_, y, hy, hle.trans ?_⟩⟩
      · exact h.lo_top.trans (hp.trans ((le_add_right _ _).trans htop))
      · rw [morecore_granted hfits hos, bind_ok hfree]
        rfl
      · rw [hsize] at hlarge
        exact hlarge

/-! ### The loop of malloc -/

/-- What the loop does when it has come round to `freep`. -/
def more (os : Sbrk E) (k nunits j : ℕ) : M E ℕ := do
  let p ← morecore os k nunits
  if p = 0 then pure 0
  else do
    let next ← ptr p
    mallocLoop os k nunits j p next

theorem mallocLoop_succ : mallocLoop os k n (j + 1) a p s = if n ≤ (s.mem p).size then take n a p s
    else if p = s.freep then more os k n j s else mallocLoop os k n j p (s.mem p).ptr s := by
  by_cases hfit : n ≤ (s.mem p).size
  · simp [mallocLoop, size, hfit]
  · by_cases hf : p = s.freep
    · subst hf
      simp [mallocLoop, size, getFreep, hfit, more]
    · simp [mallocLoop, size, getFreep, hfit, hf, ptr]

/-- **One round of the search**, from `p` on through the nodes of `L` to `freep`: a block is found
behind a node, or none is large enough. -/
theorem scan (hseg : Seg (fun p => (s.mem p).ptr) p L s.freep)
    (hL : ∀ y ∈ L, y ∈ nodes ∧ y ≠ s.freep) (ha : a ∈ nodes) (hp : (s.mem a).ptr = p)
    (hj : L.length < j) :
    (∃ a' ∈ nodes, n ≤ (s.mem (s.mem a').ptr).size ∧
      mallocLoop os k n j a p s = take n a' (s.mem a').ptr s) ∨
    (∀ y ∈ s.freep :: L, (s.mem y).size < n) ∧
      mallocLoop os k n j a p s = more os k n (j - L.length - 1) s := by
  induction L generalizing a p j with
  | nil =>
    obtain ⟨j, rfl⟩ : ∃ j', j = j' + 1 := ⟨j - 1, by simp only [length_nil] at hj; omega⟩
    obtain rfl : p = s.freep := hseg
    rw [mallocLoop_succ]
    by_cases hfit : n ≤ (s.mem s.freep).size
    · refine .inl ⟨a, ha, by rw [hp]; exact hfit, ?_⟩
      rw [if_pos hfit, hp]
    · refine .inr ⟨by simpa using hfit, ?_⟩
      rw [if_neg hfit, if_pos rfl]
      rfl
  | cons y L ih =>
    obtain ⟨j, rfl⟩ : ∃ j', j = j' + 1 := ⟨j - 1, by simp only [length_cons] at hj; omega⟩
    obtain ⟨rfl, hseg⟩ := hseg
    obtain ⟨hpn, hne⟩ := hL p (by simp)
    rw [mallocLoop_succ]
    by_cases hfit : n ≤ (s.mem p).size
    · refine .inl ⟨a, ha, by rw [hp]; exact hfit, ?_⟩
      rw [if_pos hfit, hp]
    · rw [if_neg hfit, if_neg hne]
      refine (ih hseg (fun z hz => hL z (by simp [hz])) hpn rfl (by simpa using hj)).imp_right ?_
      rintro ⟨hsmall, hrun⟩
      refine ⟨fun z hz => ?_, ?_⟩
      · simp only [mem_cons] at hz
        rcases hz with rfl | rfl | hz
        · exact hsmall _ (by simp)
        · omega
        · exact hsmall z (by simp [hz])
      · rw [hrun, length_cons, Nat.add_sub_add_right]

/-- One round from `freep` on. -/
theorem scan_round {F : Fresh os} (h : HeapOk F base lo s nodes live) (hj : nodes.length ≤ j) :
    (∃ a' ∈ nodes, n ≤ (s.mem (s.mem a').ptr).size ∧
      mallocLoop os k n j s.freep (s.mem s.freep).ptr s = take n a' (s.mem a').ptr s) ∨
    (∀ y ∈ nodes, (s.mem y).size < n) ∧
      mallocLoop os k n j s.freep (s.mem s.freep).ptr s = more os k n (j - nodes.length) s := by
  obtain ⟨l₁, l₂, hl⟩ := append_of_mem h.freep
  have hcircle := h.blocks.circle
  have hnodup := h.blocks.nodup
  rw [hl] at hcircle hnodup
  have hperm : nodes.Perm (s.freep :: (l₂ ++ l₁)) := by
    rw [hl]
    exact perm_append_comm.trans (by simp)
  have hlen : nodes.length = (l₂ ++ l₁).length + 1 := by rw [hperm.length_eq, length_cons]
  have hL : ∀ y ∈ l₂ ++ l₁, y ∈ nodes ∧ y ≠ s.freep := by
    intro y hy
    refine ⟨hperm.mem_iff.2 (mem_cons_of_mem _ hy), ?_⟩
    rintro rfl
    exact (nodup_cons.1 (hperm.nodup_iff.1 h.blocks.nodup)).1 hy
  refine (scan hcircle.rotate hL h.freep rfl (by omega)).imp_right ?_
  rintro ⟨hsmall, hrun⟩
  refine ⟨fun y hy => hsmall y (hperm.mem_iff.1 hy), ?_⟩
  rw [hrun, hlen]
  congr 1

/-- A block has been taken: its header is `q`. -/
structure Taken (F : Fresh os) (base lo : ℕ) (s s' : Heap E) (live : List ℕ) (n q : ℕ) : Prop where
  ok : ∃ nodes, HeapOk F base lo s' nodes (q :: live)
  size : (s'.mem q).size = n
  same : ∀ x ∈ live, s'.mem x = s.mem x

theorem HeapOk.take {F : Fresh os} (h : HeapOk F base lo s nodes live)
    (ht : gotUnits s.got < 2 ^ 32) (ha : a ∈ nodes) (hn : 0 < n)
    (hfit : n ≤ (s.mem (s.mem a).ptr).size) :
    ∃ s' q, Umalloc.take n a (s.mem a).ptr s = .ok (q + unit, s') ∧
      Taken F base lo s s' live n q := by
  obtain ⟨m', q, nodes', hrun, h', ha', hq, hsame⟩ := take_spec h.blocks ht ha hn hfit
  exact ⟨_, q, hrun, ⟨nodes', h', ha', h.lo_top⟩, hq, hsame⟩

/-! ### The regions -/

theorem free_env {u : Unit} (h : free k a s = .ok (u, s')) : s'.env = s.env ∧ s'.got = s.got := by
  rw [free, bind_read] at h
  split at h
  · cases h
  · simp only [size, ptr, bind_read, setSize, setPtr, setFreep] at h
    split at h <;> simp only [bind_modify, bind_read] at h <;> split at h <;>
      · cases h
        exact ⟨rfl, rfl⟩

theorem take_env (h : take n a p s = .ok (r, s')) : s'.env = s.env ∧ s'.got = s.got := by
  simp only [take, size, ptr, bind_read, setSize, setPtr, setFreep] at h
  split at h <;>
    · cases h
      exact ⟨rfl, rfl⟩

/-- `morecore` returns with the region that `sbrk` gives for it. -/
theorem morecore_env (hfits : Fits n) (h : morecore os k n s = .ok (r, s')) :
    (∃ e, os (toInt (coreUnits n * unit)) s.env = (none, e) ∧ s'.env = e ∧ s'.got = s.got) ∨
    ∃ p e, os (toInt (coreUnits n * unit)) s.env = (some p, e) ∧ s'.env = e ∧
      s'.got = ⟨p, coreUnits n * unit⟩ :: s.got := by
  cases hos : os (toInt (coreUnits n * unit)) s.env with
  | mk answer e =>
    cases answer with
    | none =>
      rw [morecore_refused hos] at h
      cases h
      exact .inl ⟨e, rfl, rfl, rfl⟩
    | some p =>
      rw [morecore_granted hfits hos] at h
      obtain ⟨u, t, h1, h2⟩ := bind_eq_ok h
      cases h2
      exact .inr ⟨p, e, rfl, free_env h1⟩

/-- What holds of the system and the regions, and goes on when `sbrk` answers. -/
def Holds (os : Sbrk E) (n : ℕ) (I : E → List Region → Prop) : Prop :=
  ∀ e got, I e got → (∀ e', os (toInt (coreUnits n * unit)) e = (none, e') → I e' got) ∧
    ∀ p e', os (toInt (coreUnits n * unit)) e = (some p, e') →
      I e' (⟨p, coreUnits n * unit⟩ :: got)

variable {I : E → List Region → Prop}

theorem morecore_holds (hfits : Fits n) (hI : Holds os n I) (hs : I s.env s.got)
    (h : morecore os k n s = .ok (r, s')) : I s'.env s'.got := by
  obtain ⟨e, hos, he, hg⟩ | ⟨p, e, hos, he, hg⟩ := morecore_env hfits h
  · rw [he, hg]
    exact (hI _ _ hs).1 e hos
  · rw [he, hg]
    exact (hI _ _ hs).2 p e hos

theorem mallocLoop_holds (hfits : Fits n) (hI : Holds os n I) :
    ∀ {j a p : ℕ} {s : Heap E}, I s.env s.got → mallocLoop os k n j a p s = .ok (r, s') →
      I s'.env s'.got := by
  intro j
  induction j with
  | zero => intro a p s _ h; cases h
  | succ j ih =>
    intro a p s hs h
    rw [mallocLoop_succ] at h
    split at h
    · rw [(take_env h).1, (take_env h).2]
      exact hs
    · split at h
      · obtain ⟨q, t, h1, h2⟩ := bind_eq_ok h
        have ht := morecore_holds hfits hI hs h1
        split at h2
        · cases h2
          exact ht
        · exact ih ht h2
      · exact ih hs h

theorem gotUnits_holds (N : ℕ) : Holds os n fun _ got => N ≤ gotUnits got := by
  intro e got h
  refine ⟨fun _ _ => h, fun p e' _ => h.trans ?_⟩
  rw [gotUnits, gotUnits, map_cons, sum_cons]
  exact le_add_left _ _

/-- When `sbrk` gives too much, there are too many units at the end. -/
theorem more_got (hfits : Fits n) (hroom : ¬ Room os s n)
    (h : more os k n j s = .ok (r, s')) : 2 ^ 32 ≤ gotUnits s'.got := by
  obtain ⟨q, t, h1, h2⟩ := bind_eq_ok h
  have ht : 2 ^ 32 ≤ gotUnits t.got := by
    obtain ⟨e, hos, -, -⟩ | ⟨p, e, hos, -, hg⟩ := morecore_env hfits h1
    · exact absurd (fun p e' he => by rw [hos] at he; cases he) hroom
    · refine Nat.le_of_not_lt fun hlt => hroom fun p' e' _ => ?_
      rw [← gotUnits_granted s n p e]
      rw [hg] at hlt
      exact hlt
  split at h2
  · cases h2
    exact ht
  · exact mallocLoop_holds hfits (gotUnits_holds _) ht h2

/-- The loops of a call of `malloc` for `n` units have ended: there is no memory, or a block is
taken. -/
def Ended (F : Fresh os) (base lo : ℕ) (s : Heap E) (live : List ℕ) (n : ℕ)
    (x : Except Halt (ℕ × Heap E)) : Prop :=
  ∃ s', (x = .ok (0, s') ∧ ∃ nodes', Kept F base lo s s' nodes' live) ∨
    ∃ q, x = .ok (q + unit, s') ∧ Taken F base lo s s' live n q

/-- `sbrk` would give too much for this call. -/
def TooMuch (os : Sbrk E) (s : Heap E) (n : ℕ) (x : Except Halt (ℕ × Heap E)) : Prop :=
  ¬ Room os s n ∧ ∀ r s', x = .ok (r, s') → 2 ^ 32 ≤ gotUnits s'.got

/-- **The loop of `malloc` ends** after two rounds at most. -/
theorem mallocLoop_spec {F : Fresh os} (h : HeapOk F base lo s nodes live) (hbase : 0 < base)
    (ht : gotUnits s.got < 2 ^ 32) (hn : 0 < n) (hfits : Fits n)
    (hj : 2 * nodes.length + 1 ≤ j) (hk : nodes.length ≤ k) :
    Ended F base lo s live n (mallocLoop os k n j s.freep (s.mem s.freep).ptr s) ∨
      TooMuch os s n (mallocLoop os k n j s.freep (s.mem s.freep).ptr s) := by
  rcases scan_round (n := n) (k := k) h (j := j) (by omega) with ⟨a, ha, hfit, hrun⟩ | ⟨-, hrun⟩
  · obtain ⟨s', q, htake, h'⟩ := h.take ht ha hn hfit
    exact .inl ⟨s', .inr ⟨q, hrun.trans htake, h'⟩⟩
  by_cases hroom : Room os s n
  · refine .inl ?_
    obtain ⟨s₁, nodes₁, h₁, hlen, hmore | ⟨hmore, y, hy, hlarge⟩⟩ := morecore_spec h ht hfits
      hroom hk
    · refine ⟨s₁, .inl ⟨?_, nodes₁, h₁⟩⟩
      rw [hrun, more, bind_ok hmore]
      rfl
    · have hfreep : s₁.freep ≠ 0 := by
        have := h₁.ok.blocks.base_le h₁.ok.freep
        omega
      have hrun₁ : mallocLoop os k n j s.freep (s.mem s.freep).ptr s =
          mallocLoop os k n (j - nodes.length) s₁.freep (s₁.mem s₁.freep).ptr s₁ := by
        rw [hrun, more, bind_ok hmore, if_neg hfreep]
        rfl
      rcases scan_round (n := n) (k := k) h₁.ok (j := j - nodes.length) (by omega) with
        ⟨a, ha, hfit, hrun₂⟩ | ⟨hsmall, -⟩
      · obtain ⟨s', q, htake, h'⟩ := h₁.ok.take h₁.bound ha hn hfit
        refine ⟨s', .inr ⟨q, hrun₁.trans (hrun₂.trans htake), h'.ok, h'.size, fun x hx => ?_⟩⟩
        rw [h'.same x hx, h₁.same x hx]
      · exact absurd (hsmall y hy) (by omega)
  · refine .inr ⟨hroom, fun r s' hr => ?_⟩
    rw [hrun] at hr
    exact more_got hfits hroom hr

/-! ### malloc -/

theorem units_eq (h : n < 2 ^ 32) : units n = (n + 15) / 16 + 1 := by
  rw [units, unit]
  exact mod_eq_of_lt (by omega)

theorem malloc_holds (hfits : Fits (units n)) (hI : Holds os (units n) I)
    (hs : I s.env s.got) (h : malloc os base k n s = .ok (r, s')) : I s'.env s'.got := by
  by_cases hf : s.freep = 0
  · simp only [malloc, getFreep, hf, bind_read, if_pos, setPtr, setFreep, setSize, ptr,
      bind_modify] at h
    refine mallocLoop_holds hfits hI ?_ h
    exact hs
  · simp only [malloc, getFreep, hf, bind_read, ptr] at h
    exact mallocLoop_holds hfits hI hs h

/-- Before the first call, or in order. -/
def Ready (F : Fresh os) (base lo : ℕ) (s : Heap E) (live : List ℕ) : Prop :=
  s.freep = 0 ∧ live = [] ∧ s.got = [] ∧ base + unit ≤ lo ∧ lo ≤ F.top s.env ∨
    ∃ nodes, HeapOk F base lo s nodes live

/-- The first call of `malloc` makes a list of `base` alone. -/
theorem HeapOk.first {F : Fresh os} (hb : base + unit ≤ lo) (hlo : lo ≤ F.top s.env)
    (hgot : s.got = []) : HeapOk F base lo
      { s with mem := update s.mem base ⟨base, 0⟩, freep := base } [base] [] := by
  have hself : update s.mem base ⟨base, 0⟩ base = ⟨base, 0⟩ := update_self ..
  refine ⟨⟨rfl, ⟨rfl, ?_⟩, pairwise_singleton _ _, ?_, hb, ?_, nofun, nofun, .nil, ?_⟩,
    mem_singleton_self _, hlo⟩
  · simp only [hself]
    rfl
  · simp only [hself]
  · exact fun a ha => .inl (mem_singleton.1 ha)
  · simp [sizes, gotUnits, hgot]

/-- **`malloc` returns**: 0 with the allocator in order, or a block; unless `sbrk` gives too
much. -/
theorem malloc_spec {F : Fresh os} (h : Ready F base lo s live) (hbase : 0 < base)
    (ht : gotUnits s.got < 2 ^ 32) (hn : n < 2 ^ 32) (hfits : Fits (units n)) :
    ∃ k₀, ∀ k, k₀ ≤ k → Ended F base lo s live (units n) (malloc os base k n s) ∨
      TooMuch os s (units n) (malloc os base k n s) := by
  have hpos : 0 < units n := by
    rw [units_eq hn]
    omega
  rcases h with ⟨hf, rfl, hgot, hb, hlo⟩ | ⟨nodes, h⟩
  · obtain ⟨s₁, hs₁⟩ : ∃ s₁ : Heap E,
        s₁ = ⟨update s.mem base ⟨base, 0⟩, base, s.env, s.got⟩ := ⟨_, rfl⟩
    have h₁ : HeapOk F base lo s₁ [base] [] := by
      rw [hs₁]
      exact HeapOk.first hb hlo hgot
    have hgot₁ : s₁.got = s.got := by rw [hs₁]
    have henv₁ : s₁.env = s.env := by rw [hs₁]
    refine ⟨3, fun k hk => ?_⟩
    have hrun : malloc os base k n s =
        mallocLoop os k (units n) k s₁.freep (s₁.mem s₁.freep).ptr s₁ := by
      rw [hs₁]
      simp [malloc, getFreep, hf, setPtr, setFreep, setSize, ptr]
    rw [hrun]
    refine (mallocLoop_spec h₁ hbase (by rw [hgot₁]; exact ht) hpos hfits
      (show 2 * [base].length + 1 ≤ k from hk)
      (show [base].length ≤ k from le_trans (by simp) hk)).imp ?_ ?_
    · rintro ⟨s', ⟨hr, nodes', h'⟩ | ⟨q, hr, h'⟩⟩
      · exact ⟨s', .inl ⟨hr, nodes', h'.ok, by simp, h'.bound⟩⟩
      · exact ⟨s', .inr ⟨q, hr, h'.ok, h'.size, by simp⟩⟩
    · rintro ⟨hroom, hr⟩
      rw [Room, henv₁, hgot₁] at hroom
      exact ⟨hroom, hr⟩
  · refine ⟨2 * nodes.length + 1, fun k hk => ?_⟩
    have hf : s.freep ≠ 0 := by
      have := h.blocks.base_le h.freep
      omega
    have hrun : malloc os base k n s =
        mallocLoop os k (units n) k s.freep (s.mem s.freep).ptr s := by
      simp [malloc, getFreep, hf, ptr]
    rw [hrun]
    exact mallocLoop_spec h hbase ht hpos hfits hk (by omega)

/-! ### More rounds -/

variable (hk : k ≤ k')
include hk

theorem seek_mono {ι : Type} {next : ι → ι} {stop : ι → Bool} {x : ι} :
    ∀ {a : ι}, Circular.seek next stop k a = some x → Circular.seek next stop k' a = some x := by
  induction k generalizing k' with
  | zero => intro a h; cases h
  | succ k ih =>
    intro a h
    obtain ⟨k', rfl⟩ : ∃ j, k' = j + 1 := ⟨k' - 1, by omega⟩
    rw [Circular.seek] at h ⊢
    split at h
    · rwa [if_pos ‹_›]
    · rw [if_neg ‹_›]
      exact ih (by omega) h

theorem free_mono {r : Unit × Heap E} (h : free k a s = .ok r) :
    free k' a s = .ok r := by
  rw [free, bind_read] at h ⊢
  cases hs : Circular.seek (fun p => (s.mem p).ptr) (Spot s.mem (a - unit)) k s.freep with
  | none => rw [hs] at h; cases h
  | some p =>
    rw [hs] at h
    rw [seek_mono hk hs]
    exact h

theorem morecore_mono {r : ℕ × Heap E} (h : morecore os k n s = .ok r) :
    morecore os k' n s = .ok r := by
  obtain ⟨b, t, h1, h2⟩ := bind_eq_ok (show _ = Except.ok (r.1, r.2) from h)
  rw [morecore, bind_ok h1]
  cases b with
  | none => exact h2
  | some p =>
    obtain ⟨u, t₁, h3, h4⟩ := bind_eq_ok h2
    obtain ⟨v, t₂, h5, h6⟩ := bind_eq_ok h4
    refine (bind_ok h3).trans ?_
    rw [bind_ok (free_mono hk h5)]
    exact h6

theorem mallocLoop_mono {r : ℕ × Heap E} : ∀ {j j' a p : ℕ} {s : Heap E},
    j ≤ j' → mallocLoop os k n j a p s = .ok r → mallocLoop os k' n j' a p s = .ok r := by
  intro j
  induction j with
  | zero => intro j' a p s _ h; cases h
  | succ j ih =>
    intro j' a p s hj h
    obtain ⟨j', rfl⟩ : ∃ i, j' = i + 1 := ⟨j' - 1, by omega⟩
    rw [mallocLoop_succ] at h ⊢
    split at h
    · rwa [if_pos ‹_›]
    · rw [if_neg ‹_›]
      split at h
      · rw [if_pos ‹_›]
        obtain ⟨q, t, h1, h2⟩ := bind_eq_ok (show _ = Except.ok (r.1, r.2) from h)
        rw [more, bind_ok (morecore_mono hk h1)]
        split at h2
        · rw [if_pos ‹_›]
          exact h2
        · rw [if_neg ‹_›]
          exact ih (by omega) h2
      · rw [if_neg ‹_›]
        exact ih (by omega) h

theorem malloc_mono {r : ℕ × Heap E} (h : malloc os base k n s = .ok r) :
    malloc os base k' n s = .ok r := by
  by_cases hf : s.freep = 0
  · simp only [malloc, getFreep, hf, bind_read, if_pos] at h ⊢
    exact mallocLoop_mono hk hk h
  · simp only [malloc, getFreep, hf, bind_read] at h ⊢
    exact mallocLoop_mono hk hk h

end Xv6Swap.Umalloc
