import Xv6Swap.Spec.User

/-!
# The copies between the kernel and the user, byte by byte

`copyout`, `copyin` and `copyinstr` of `kernel/vm.c` cut a range of user addresses at the boundaries
of pages.  Here the range is taken byte by byte: `reach` counts the bytes before the first page that
the copy may not use, and `physAddr` is where the page table puts a byte.

* `copyout_exact` : the bytes that are reached are stored, no other byte of memory changes, and the
  result is 0 exactly if all are reached;
* `copyin_exact`, `copyinstr_exact` : the bytes that are reached are read.
-/

namespace Xv6Swap

open List Nat

variable {σ σ' : KState} {g : Ghost} {r v va len c i n : ℕ} {ok : ℕ → Prop} [DecidablePred ok]
  {src l : List Byte} {b : Byte}

/-! ### Ranges of user addresses -/

/-- The kernel may read the page number `v` of the table `r`: it is below `MAXVA`, with V and U. -/
def Readable (σ : KState) (r v : ℕ) : Prop :=
  v * pgsize < maxva ∧ has (leaf σ.mem r v) pteV = true ∧ has (leaf σ.mem r v) pteU = true

/-- The kernel may write the page: it also has W. -/
def Writable (σ : KState) (r v : ℕ) : Prop :=
  Readable σ r v ∧ has (leaf σ.mem r v) pteW = true

instance (σ : KState) (r v : ℕ) : Decidable (Readable σ r v) := by unfold Readable; infer_instance

instance (σ : KState) (r v : ℕ) : Decidable (Writable σ r v) := by unfold Writable; infer_instance

/-- The physical address of the byte at `va`. -/
def physAddr (σ : KState) (r va : ℕ) : ℕ := pte2pa (leaf σ.mem r (va / pgsize)) + va % pgsize

/-- The `n` bytes at `va`. -/
def userBytes (σ : KState) (r va n : ℕ) : List Byte :=
  (range n).map fun i => σ.mem (physAddr σ r (va + i))

/-- The number of the `len` bytes at `va` that come before the first page that is not `ok`. -/
def reach (ok : ℕ → Prop) [DecidablePred ok] (va : ℕ) : ℕ → ℕ
  | 0 => 0
  | len + 1 => if ok (va / pgsize) then reach ok (va + 1) len + 1 else 0

theorem reach_le : reach ok va len ≤ len := by
  induction len generalizing va with
  | zero => exact le_refl 0
  | succ len ih =>
    rw [reach]
    split
    · exact succ_le_succ ih
    · exact zero_le _

theorem reach_of_not (h : ¬ ok (va / pgsize)) : reach ok va len = 0 := by
  cases len with
  | zero => rfl
  | succ len => rw [reach, if_neg h]

/-- The first bytes are reached if their pages are `ok`. -/
theorem reach_add (h : ∀ i < c, ok ((va + i) / pgsize)) (hc : c ≤ len) :
    reach ok va len = c + reach ok (va + c) (len - c) := by
  induction c generalizing va len with
  | zero => rw [Nat.zero_add, Nat.add_zero, Nat.sub_zero]
  | succ c ih =>
    obtain ⟨l, rfl⟩ : ∃ l, len = l + 1 := ⟨len - 1, by omega⟩
    have hrest : ∀ i < c, ok ((va + 1 + i) / pgsize) := fun i hi => by
      rw [add_assoc, add_comm 1 i]
      exact h (i + 1) (by omega)
    have hfirst : ok (va / pgsize) := h 0 (succ_pos c)
    rw [reach, if_pos hfirst, ih hrest (le_of_succ_le_succ hc),
      Nat.add_sub_add_right, add_assoc va 1 c, add_comm 1 c]
    omega

/-- The pages of the bytes that are reached are `ok`. -/
theorem ok_of_lt_reach (hi : i < reach ok va len) : ok ((va + i) / pgsize) := by
  induction len generalizing va i with
  | zero => exact absurd hi (not_lt_zero i)
  | succ len ih =>
    rw [reach] at hi
    split at hi
    case isTrue h =>
      cases i with
      | zero => exact h
      | succ i =>
        rw [add_comm i 1, ← add_assoc]
        exact ih (lt_of_succ_lt_succ hi)
    case isFalse => exact absurd hi (not_lt_zero i)

/-- **All bytes are reached** exactly if every page that meets the range is `ok`. -/
theorem reach_eq_iff : reach ok va len = len ↔ ∀ x, va ≤ x → x < va + len → ok (x / pgsize) := by
  constructor
  · intro h x hx hlt
    obtain ⟨i, rfl⟩ := Nat.exists_eq_add_of_le hx
    have hi : i < reach ok va len := by omega
    exact ok_of_lt_reach hi
  · intro h
    have hall := reach_add (c := len) (fun i hi => h (va + i) (by omega) (by omega)) (le_refl len)
    rwa [Nat.sub_self] at hall

theorem reach_congr {ok' : ℕ → Prop} [DecidablePred ok'] (h : ∀ v, ok' v ↔ ok v) :
    reach ok' va len = reach ok va len := by
  obtain rfl : ok' = ok := funext fun v => propext (h v)
  congr

/-! ### One page -/

section

variable (h : Inv σ g) (hr : g.role r = .root)
include h hr

theorem userFrame_eq (v : ℕ) :
    userFrame σ r v = if Readable σ r v then some (pte2pa (leaf σ.mem r v)) else none := by
  split
  case isTrue hv =>
    have hlt : v < 2 ^ 27 := by
      have := hv.1
      simp only [pgsize, maxva] at this
      omega
    exact userFrame_eq_some_iff.2 ⟨h.lt_uvpn hr hlt hv.2.2, hv.2.1, hv.2.2, rfl⟩
  case isFalse hv =>
    refine if_neg fun ⟨hlt, hV, hU⟩ => hv ⟨?_, hV, hU⟩
    exact vaddr_lt hlt

theorem readable_iff : Readable σ r v ↔ userFrame σ r v ≠ none := by
  rw [userFrame_eq h hr]
  split <;> simp [*]

theorem accessFrame_eq (v : ℕ) :
    accessFrame σ r v pteW = if Writable σ r v then some (pte2pa (leaf σ.mem r v)) else none := by
  rw [accessFrame, userFrame_eq h hr]
  by_cases hW : has (leaf σ.mem r v) pteW = true
  · simp only [Writable, hW, and_true, if_true]
  · simp only [Writable, hW, and_false, if_false, Bool.false_eq_true]

end

theorem Readable.userFrame (hv : Readable σ r v) (h : Inv σ g) (hr : g.role r = .root) :
    userFrame σ r v = some (pte2pa (leaf σ.mem r v)) := by
  rw [userFrame_eq h hr, if_pos hv]

/-- The page is the one of a byte in the first chunk of a copy. -/
theorem div_of_lt_chunk (hi : i < chunk va len) : (va + i) / 4096 = va / 4096 := by
  have := chunk_add_le va len
  omega

theorem mod_of_lt_chunk (hi : i < chunk va len) : (va + i) % 4096 = va % 4096 + i := by
  have := chunk_add_le va len
  omega

/-- After the first chunk a copy goes on with the next page, or it is done. -/
theorem chunk_next (h : chunk va len < len) : va + chunk va len = (va / 4096 + 1) * 4096 := by
  rw [chunk] at h ⊢
  omega

/-- `reach`, page by page. -/
theorem reach_chunk (h : ok (va / 4096)) : reach ok va len =
      chunk va len + reach ok ((va / 4096 + 1) * 4096) (len - chunk va len) := by
  rw [reach_add (c := chunk va len) (fun i hi => by rwa [pgsize, div_of_lt_chunk hi])
    (chunk_le va len)]
  rcases lt_or_ge (chunk va len) len with hlt | hge
  · rw [chunk_next hlt]
  · rw [Nat.sub_eq_zero_of_le hge]
    rfl

/-! ### Two bytes -/

/-- Bytes at different addresses are at different places. -/
theorem physAddr_ne (h : Inv σ g) (hr : g.role r = .root) {x y : ℕ}
    (hx : Readable σ r (x / pgsize)) (hy : Readable σ r (y / pgsize)) (hne : x ≠ y) :
    physAddr σ r x ≠ physAddr σ r y := by
  have hfx := h.role_userFrame hr (hx.userFrame h hr)
  have hfy := h.role_userFrame hr (hy.userFrame h hr)
  have hax := pte2pa_mod (leaf σ.mem r (x / 4096))
  have hay := pte2pa_mod (leaf σ.mem r (y / 4096))
  intro heq
  simp only [physAddr, pgsize] at heq hfx hfy
  have hframe : pte2pa (leaf σ.mem r (x / 4096)) = pte2pa (leaf σ.mem r (y / 4096)) := by omega
  rw [hframe, hfy] at hfx
  have hpage := (Role.user.inj hfx).2
  omega

section

variable (hl : ∀ v < 2 ^ 27, leaf σ'.mem r v = leaf σ.mem r v)
include hl

/-- The entries of the pages tell where the bytes are and what may be done with them. -/
theorem physAddr_congr (hv : Readable σ r (va / pgsize)) : physAddr σ' r va = physAddr σ r va := by
  have hlt := hv.1
  rw [physAddr, physAddr, hl]
  simp only [pgsize, maxva] at hlt ⊢
  omega

theorem readable_congr (v : ℕ) : Readable σ' r v ↔ Readable σ r v := by
  refine and_congr_right fun hlt => ?_
  rw [hl v (by simp only [pgsize, maxva] at hlt; omega)]

theorem writable_congr (v : ℕ) : Writable σ' r v ↔ Writable σ r v := by
  rw [Writable, Writable, readable_congr hl]
  refine and_congr_right fun hv => ?_
  rw [hl v (by have := hv.1; simp only [pgsize, maxva] at this; omega)]

end

/-! ### copyout -/

/-- The first `n` of the bytes `src` are stored at `va`, and nothing else is changed. -/
structure StoredAt (σ : KState) (r va : ℕ) (src : List Byte) (n : ℕ) (σ' : KState) : Prop where
  bytes : ∀ i < n, src[i]? = some (σ'.mem (physAddr σ r (va + i)))
  other : ∀ x, (∀ i < n, x ≠ physAddr σ r (va + i)) → σ'.mem x = σ.mem x
  rest : ∃ m, σ' = { σ with mem := m }
  leaf : ∀ v < 2 ^ 27, leaf σ'.mem r v = leaf σ.mem r v

theorem StoredAt.zero (σ : KState) (r va : ℕ) (src : List Byte) : StoredAt σ r va src 0 σ :=
  ⟨fun _ hi => absurd hi (not_lt_zero _), fun _ _ => rfl, ⟨_, rfl⟩, fun _ _ => rfl⟩

/-- Where nothing is stored, the address does not matter. -/
theorem StoredAt.move {va' : ℕ} (h : StoredAt σ r va src n σ')
    (hva : n = 0 ∨ va = va') : StoredAt σ r va' src n σ' := by
  rcases hva with rfl | rfl
  · exact ⟨fun _ hi => absurd hi (not_lt_zero _), fun x _ =>
      h.other x fun _ hi => absurd hi (not_lt_zero _), h.rest, h.leaf⟩
  · exact h

/-- Bytes behind those that are stored do not matter. -/
theorem StoredAt.extend (h : StoredAt σ r va src n σ') (src' : List Byte) :
    StoredAt σ r va (src ++ src') n σ' := by
  refine ⟨fun i hi => ?_, h.other, h.rest, h.leaf⟩
  have hb := h.bytes i hi
  rw [List.getElem?_append_left (List.getElem?_eq_some_iff.1 hb).1, hb]

/-- Two stores, the second right after the first. -/
theorem StoredAt.append {σ₁ : KState} {src' : List Byte} {n' : ℕ} (h : Inv σ g)
    (hr : g.role r = .root) (h₁ : StoredAt σ r va src n σ₁) (h₂ : StoredAt σ₁ r (va + n) src' n' σ')
    (hn : n = src.length) (hok : ∀ i < n + n', Readable σ r ((va + i) / pgsize)) :
    StoredAt σ r va (src ++ src') (n + n') σ' := by
  have hplace : ∀ i < n', physAddr σ₁ r (va + n + i) = physAddr σ r (va + (n + i)) := fun i hi => by
    rw [add_assoc]
    exact physAddr_congr h₁.leaf (hok _ (by omega))
  refine ⟨fun i hi => ?_, fun x hx => ?_, ?_, fun v hv => (h₂.leaf v hv).trans (h₁.leaf v hv)⟩
  · rcases lt_or_ge i n with hlt | hge
    · have hold := h₂.other (physAddr σ r (va + i)) fun j hj => by
        rw [hplace j hj]
        exact physAddr_ne h hr (hok i hi) (hok (n + j) (by omega)) (by omega)
      rw [getElem?_append_left (by omega), h₁.bytes i hlt, hold]
    · obtain ⟨j, rfl⟩ := Nat.exists_eq_add_of_le hge
      have hj : j < n' := by omega
      rw [List.getElem?_append_right (by omega), ← hn, Nat.add_sub_cancel_left, h₂.bytes j hj,
        hplace j hj]
  · rw [h₂.other x fun j hj => by rw [hplace j hj]; exact hx _ (by omega),
      h₁.other x fun i hi => hx i (by omega)]
  · obtain ⟨m, rfl⟩ := h₁.rest
    obtain ⟨m', rfl⟩ := h₂.rest
    exact ⟨m', rfl⟩

/-- The state after one chunk. -/
def putChunk (σ : KState) (r va : ℕ) (src : List Byte) : KState :=
  { σ with
    mem := σ.mem.write (pte2pa (leaf σ.mem r (va / 4096)) + va % 4096)
      (src.take (chunk va src.length)) }

theorem length_take_chunk (va : ℕ) (src : List Byte) :
    (src.take (chunk va src.length)).length = chunk va src.length := by
  rw [length_take, min_eq_left (chunk_le ..)]

theorem onlyBytes_putChunk (h : Inv σ g) (hr : g.role r = .root) (hv : Readable σ r (va / 4096))
    (src : List Byte) : OnlyBytes σ g r (putChunk σ r va src) := by
  refine (OnlyBytes.refl h r).write hr (hv.userFrame h hr) ?_
  rw [length_take_chunk]
  exact chunk_add_le va src.length

theorem stored_putChunk (h : Inv σ g) (hr : g.role r = .root) (hv : Readable σ r (va / 4096))
    (src : List Byte) :
    StoredAt σ r va (src.take (chunk va src.length)) (chunk va src.length)
      (putChunk σ r va src) := by
  have hlen := length_take_chunk va src
  have hplace : ∀ i < chunk va src.length, physAddr σ r (va + i) =
      pte2pa (leaf σ.mem r (va / 4096)) + va % 4096 + i := fun i hi => by
    rw [physAddr, pgsize, div_of_lt_chunk hi, mod_of_lt_chunk hi, add_assoc]
  refine ⟨fun i hi => ?_, fun x hx => ?_, ⟨_, rfl⟩, fun v =>
    (onlyBytes_putChunk h hr hv src).leaf r v hr⟩
  · have hin : i < (src.take (chunk va src.length)).length := by omega
    simp only [putChunk, Mem.write]
    rw [hplace i hi, if_pos (by omega), Nat.add_sub_cancel_left, List.getD_eq_getElem?_getD,
      getElem?_eq_getElem hin]
    rfl
  · refine if_neg fun hin => ?_
    obtain ⟨i, rfl⟩ := Nat.exists_eq_add_of_le hin.1
    exact hx i (by omega) (hplace i (by omega)).symm

/-- The loop of `copyout` stores the bytes that it reaches. -/
theorem copyoutLoop_exact (hr : g.role r = .root) : ∀ (k : ℕ) (σ : KState) (va : ℕ)
    (src : List Byte), Inv σ g → src.length ≤ k → Ensures (copyoutLoop r k va src σ) (fun q σ' =>
      q = (if reach (Writable σ r) va src.length = src.length then 0 else -1) ∧
      StoredAt σ r va src (reach (Writable σ r) va src.length) σ') fun _ => False := by
  intro k
  induction k with
  | zero =>
    intro σ va src h hk
    obtain rfl := length_eq_zero_iff.1 (le_zero.1 hk)
    exact ⟨rfl, .zero σ r va []⟩
  | succ k ih =>
    intro σ va src h hk
    by_cases hsrc : src = []
    · subst hsrc
      exact ⟨rfl, .zero σ r va []⟩
    have hpos := length_pos_iff.2 hsrc
    rw [copyoutLoop_cons h hr k va hsrc, accessFrame_eq h hr]
    by_cases hW : Writable σ r (va / 4096)
    · have hb := onlyBytes_putChunk h hr hW.1 src
      have hs := stored_putChunk h hr hW.1 src
      have hchunk := chunk_pos va hpos
      have hle := chunk_le va src.length
      have hreach : reach (Writable σ r) va src.length = chunk va src.length +
          reach (Writable (putChunk σ r va src) r) ((va / 4096 + 1) * 4096)
            (src.drop (chunk va src.length)).length := by
        rw [reach_congr (writable_congr hs.leaf), length_drop, ← reach_chunk hW]
      have hdrop := length_drop (l := src) (i := chunk va src.length)
      rw [if_pos hW]
      refine (ih (putChunk σ r va src) ((va / 4096 + 1) * 4096) (src.drop (chunk va src.length))
        hb.inv (by omega)).imp fun q σ' ⟨hq, hs'⟩ => ⟨?_, ?_⟩
      · rw [hq]
        exact if_congr (by omega) rfl rfl
      · have hok : ∀ i < reach (Writable σ r) va src.length, Readable σ r ((va + i) / pgsize) :=
          fun i hi => (ok_of_lt_reach hi).1
        have hmove : reach (Writable (putChunk σ r va src) r) ((va / 4096 + 1) * 4096)
            (src.drop (chunk va src.length)).length = 0 ∨
            (va / 4096 + 1) * 4096 = va + chunk va src.length := by
          rcases lt_or_ge (chunk va src.length) src.length with hlt | hge
          · exact .inr (chunk_next hlt).symm
          · exact .inl (le_zero.1 (reach_le.trans (by omega)))
        rw [hreach] at hok ⊢
        have hall := hs.append h hr (hs'.move hmove) (length_take_chunk va src).symm hok
        rwa [take_append_drop] at hall
    · rw [if_neg hW, reach_of_not hW, if_neg (by omega)]
      exact ⟨rfl, .zero σ r va src⟩

/-! ### copyin -/

theorem length_userBytes (σ : KState) (r va n : ℕ) : (userBytes σ r va n).length = n := by
  simp [userBytes]

theorem getElem?_userBytes (σ : KState) (r va : ℕ) (hi : i < n) :
    (userBytes σ r va n)[i]? = some (σ.mem (physAddr σ r (va + i))) := by
  simp [userBytes, hi]

theorem userBytes_add (σ : KState) (r va n n' : ℕ) :
    userBytes σ r va (n + n') = userBytes σ r va n ++ userBytes σ r (va + n) n' := by
  simp only [userBytes, range_add, map_append, map_map, Function.comp_def, add_assoc]

theorem userBytes_chunk (σ : KState) (r va len : ℕ) : userBytes σ r va (chunk va len) =
    σ.mem.bytes (pte2pa (leaf σ.mem r (va / 4096)) + va % 4096) (chunk va len) := by
  refine map_congr_left fun i hi => ?_
  have hi := mem_range.1 hi
  rw [physAddr, pgsize, div_of_lt_chunk hi, mod_of_lt_chunk hi, add_assoc]

/-- The bytes that are reached, page by page. -/
theorem userBytes_reach (h : ok (va / 4096)) :
    userBytes σ r va (reach ok va len) = userBytes σ r va (chunk va len) ++
      userBytes σ r ((va / 4096 + 1) * 4096)
        (reach ok ((va / 4096 + 1) * 4096) (len - chunk va len)) := by
  rw [reach_chunk h, userBytes_add]
  rcases lt_or_ge (chunk va len) len with hlt | hge
  · rw [chunk_next hlt]
  · simp only [Nat.sub_eq_zero_of_le hge, reach, userBytes, range_zero, map_nil]

/-- The loop of `copyin` reads the bytes that it reaches. -/
theorem copyinLoop_exact (h : Inv σ g) (hr : g.role r = .root) : ∀ k va len : ℕ, len ≤ k →
    copyinLoop r k va len σ = .ok ((if reach (Readable σ r) va len = len then 0 else -1,
      userBytes σ r va (reach (Readable σ r) va len)), σ) := by
  intro k
  induction k with
  | zero => rintro va _ ⟨⟩; rfl
  | succ k ih =>
    intro va len hk
    cases len with
    | zero => rfl
    | succ l =>
      rw [copyinLoop_succ h hr, userFrame_eq h hr]
      by_cases hR : Readable σ r (va / 4096)
      · have hpos := chunk_pos va (by omega : 0 < l + 1)
        have hle := chunk_le va (l + 1)
        rw [if_pos hR]
        dsimp only
        rw [Run.bind_ok (ih _ _ (by omega)), userBytes_reach hR, userBytes_chunk, Run.pure_apply,
          reach_chunk hR]
        congr 3
        exact if_congr (by omega) rfl rfl
      · rw [if_neg hR, reach_of_not hR, if_neg (by omega)]
        rfl

/-! ### copyinstr -/

theorem scanNull_zero_cons (l : List Byte) : scanNull (0 :: l) = ([0], true) := if_pos rfl

theorem scanNull_cons (hb : b ≠ 0) (l : List Byte) :
    scanNull (b :: l) = (b :: (scanNull l).1, (scanNull l).2) := if_neg hb

theorem zero_mem_cons (hb : b ≠ 0) : 0 ∈ b :: l ↔ 0 ∈ l := by
  rw [mem_cons, or_iff_right (Ne.symm hb)]

theorem scanNull_snd (l : List Byte) : (scanNull l).2 = decide (0 ∈ l) := by
  induction l with
  | nil => rfl
  | cons b l ih =>
    by_cases hb : b = 0
    · subst hb
      rw [scanNull_zero_cons]
      exact (decide_eq_true mem_cons_self).symm
    · rw [scanNull_cons hb, ih]
      exact decide_eq_decide.2 (zero_mem_cons hb).symm

theorem scanNull_of_notMem (h : 0 ∉ l) : (scanNull l).1 = l := by
  induction l with
  | nil => rfl
  | cons b l ih =>
    have hb : b ≠ 0 := fun hb => h (hb ▸ mem_cons_self)
    rw [scanNull_cons hb, ih fun hl => h (mem_cons_of_mem b hl)]

theorem scanNull_append (l l' : List Byte) : (scanNull (l ++ l')).1 =
    if 0 ∈ l then (scanNull l).1 else (scanNull l).1 ++ (scanNull l').1 := by
  induction l with
  | nil => rfl
  | cons b l ih =>
    rw [cons_append]
    by_cases hb : b = 0
    · subst hb
      rw [scanNull_zero_cons, scanNull_zero_cons, if_pos mem_cons_self]
    · rw [scanNull_cons hb, scanNull_cons hb, ih]
      simp only [zero_mem_cons hb]
      split <;> rfl

/-- The string that is found ends at the first 0. -/
theorem scanNull_split (h : 0 ∈ l) :
    ∃ k, l[k]? = some 0 ∧ (∀ i < k, l[i]? ≠ some 0) ∧ (scanNull l).1 = l.take (k + 1) := by
  induction l with
  | nil => cases h
  | cons b l ih =>
    by_cases hb : b = 0
    · subst hb
      exact ⟨0, rfl, fun i hi => absurd hi (not_lt_zero i), by rw [scanNull_zero_cons]; rfl⟩
    · obtain ⟨k, hk, hfirst, hstr⟩ := ih ((zero_mem_cons hb).1 h)
      refine ⟨k + 1, hk, fun i hi => ?_, ?_⟩
      · cases i with
        | zero => simpa using hb
        | succ i => exact hfirst i (lt_of_succ_lt_succ hi)
      · rw [scanNull_cons hb, hstr]
        rfl

theorem scanNull_prefix (l : List Byte) : (scanNull l).1 <+: l := by
  by_cases h : (0 : Byte) ∈ l
  · obtain ⟨k, -, -, hk⟩ := scanNull_split h
    rw [hk]
    exact take_prefix ..
  · exact ⟨[], by rw [scanNull_of_notMem h, append_nil]⟩

/-- The loop of `copyinstr` reads the bytes that it reaches up to the first 0. -/
theorem copyinstrLoop_exact (h : Inv σ g) (hr : g.role r = .root) : ∀ k va max : ℕ, max ≤ k →
    copyinstrLoop r k va max σ =
      .ok ((if 0 ∈ userBytes σ r va (reach (Readable σ r) va max) then 0 else -1,
        (scanNull (userBytes σ r va (reach (Readable σ r) va max))).1), σ) := by
  intro k
  induction k with
  | zero => rintro va _ ⟨⟩; rfl
  | succ k ih =>
    intro va max hk
    cases max with
    | zero => rfl
    | succ l =>
      rw [copyinstrLoop_succ h hr, userFrame_eq h hr]
      by_cases hR : Readable σ r (va / 4096)
      · have hpos := chunk_pos va (by omega : 0 < l + 1)
        rw [if_pos hR]
        dsimp only
        rw [userBytes_reach hR, ← userBytes_chunk, scanNull_snd, scanNull_append]
        simp only [mem_append]
        by_cases h0 : (0 : Byte) ∈ userBytes σ r va (chunk va (l + 1))
        · simp only [h0, decide_true, if_true, true_or]
        · simp only [h0, decide_false, if_false, false_or, Bool.false_eq_true]
          rw [Run.bind_ok (ih _ _ (by omega)), Run.pure_apply]
      · rw [if_neg hR, reach_of_not hR]
        rfl

/-! ### The three copies -/

/-- What `copyout` of the bytes `src` to `va` is to do. -/
structure CopyoutExact (σ : KState) (r va : ℕ) (src : List Byte) (q : ℤ) (σ' : KState) : Prop where
  result : q = 0 ∨ q = -1
  zero_iff : q = 0 ↔ ∀ x, va ≤ x → x < va + src.length → Writable σ r (x / pgsize)
  stored : StoredAt σ r va src (reach (Writable σ r) va src.length) σ'
  copyin : q = 0 → copyin r va src.length σ' = .ok ((0, src), σ')

/-- What `copyin` of `len` bytes at `va` is to return. -/
structure CopyinExact (σ : KState) (r va len : ℕ) (q : ℤ) (dst : List Byte) : Prop where
  result : q = 0 ∨ q = -1
  zero_iff : q = 0 ↔ ∀ x, va ≤ x → x < va + len → Readable σ r (x / pgsize)
  dst : dst = userBytes σ r va (reach (Readable σ r) va len)

/-- What `copyinstr` of at most `max` bytes at `va` is to return. -/
structure CopyinstrExact (σ : KState) (r va max : ℕ) (q : ℤ) (dst : List Byte) : Prop where
  result : q = 0 ∨ q = -1
  zero_iff : q = 0 ↔ ∃ k < max, σ.mem (physAddr σ r (va + k)) = 0 ∧
    ∀ x, va ≤ x → x ≤ va + k → Readable σ r (x / pgsize)
  string : q = 0 → ∃ k < max, dst = userBytes σ r va (k + 1) ∧
    σ.mem (physAddr σ r (va + k)) = 0 ∧ ∀ i < k, σ.mem (physAddr σ r (va + i)) ≠ 0
  pre : dst <+: userBytes σ r va (reach (Readable σ r) va max)
  length : dst.length ≤ max

theorem ite_eq_zero_iff {c : Prop} [Decidable c] : (if c then 0 else -1 : ℤ) = 0 ↔ c := by
  split
  case isTrue h => exact ⟨fun _ => h, fun _ => rfl⟩
  case isFalse h => exact ⟨fun h0 => absurd h0 (by decide), fun hc => absurd hc h⟩

theorem ite_result (c : Prop) [Decidable c] :
    (if c then 0 else -1 : ℤ) = 0 ∨ (if c then 0 else -1 : ℤ) = -1 := by
  split
  · exact .inl rfl
  · exact .inr rfl

theorem copyin_exact (h : Inv σ g) (hr : g.role r = .root) (va len : ℕ) :
    Ensures (copyin r va len σ) (fun q σ' => σ' = σ ∧ CopyinExact σ r va len q.1 q.2)
      fun _ => False := by
  rw [copyin, copyinLoop_exact h hr len va len (le_refl len)]
  exact ⟨rfl, ite_result _, ite_eq_zero_iff.trans reach_eq_iff, rfl⟩

theorem copyout_exact (h : Inv σ g) (hr : g.role r = .root) (va : ℕ) (src : List Byte) :
    Ensures (copyout r va src σ) (CopyoutExact σ r va src) fun _ => False := by
  have hspec := copyout_spec h hr va src
  obtain ⟨q, σ', hrun, hb⟩ := hspec.exists_ok
  obtain ⟨rfl, hs⟩ := (copyoutLoop_exact hr _ σ va src h (le_refl _)).of_ok hrun
  rw [hrun]
  refine ⟨ite_result _, ite_eq_zero_iff.trans reach_eq_iff, hs, fun h0 => ?_⟩
  have hall := ite_eq_zero_iff.1 h0
  have hR : reach (Readable σ' r) va src.length = src.length :=
    reach_eq_iff.2 fun x hx hlt => (readable_congr hs.leaf _).2 (reach_eq_iff.1 hall x hx hlt).1
  rw [copyin, copyinLoop_exact hb.inv hr _ va _ (le_refl _), hR, if_pos rfl]
  congr 3
  refine ext_getElem? fun i => ?_
  rcases lt_or_ge i src.length with hi | hi
  · rw [getElem?_userBytes σ' r va hi, hs.bytes i (by omega), physAddr_congr hs.leaf]
    exact (reach_eq_iff.1 hall (va + i) (by omega) (by omega)).1
  · rw [getElem?_eq_none (by rwa [length_userBytes]), getElem?_eq_none hi]

theorem zero_mem_userBytes :
    0 ∈ userBytes σ r va n ↔ ∃ k < n, σ.mem (physAddr σ r (va + k)) = 0 := by
  simp only [userBytes, mem_map, mem_range]

theorem lt_reach_iff {k : ℕ} :
    k < reach ok va len ↔ k < len ∧ ∀ x, va ≤ x → x ≤ va + k → ok (x / pgsize) := by
  constructor
  · intro hk
    refine ⟨hk.trans_le reach_le, fun x hx hle => ?_⟩
    obtain ⟨i, rfl⟩ := Nat.exists_eq_add_of_le hx
    exact ok_of_lt_reach (lt_of_le_of_lt (by omega : i ≤ k) hk)
  · rintro ⟨hk, hall⟩
    rw [reach_add (fun i (hi : i < k + 1) => hall (va + i) (by omega) (by omega)) hk]
    omega

variable (h : Inv σ g) (hr : g.role r = .root)
include h hr

theorem copyinstr_exact (va max : ℕ) :
    Ensures (copyinstr r va max σ) (fun q σ' => σ' = σ ∧ CopyinstrExact σ r va max q.1 q.2)
      fun _ => False := by
  rw [copyinstr, copyinstrLoop_exact h hr max va max (le_refl max)]
  have hpre := scanNull_prefix (userBytes σ r va (reach (Readable σ r) va max))
  refine ⟨rfl, ite_result _, ite_eq_zero_iff.trans ?_, fun h0 => ?_, hpre, ?_⟩
  · simp only [zero_mem_userBytes, lt_reach_iff, and_assoc]
    exact exists_congr fun k => and_congr_right fun _ => and_comm
  · obtain ⟨k, hk, hfirst, hstr⟩ := scanNull_split (ite_eq_zero_iff.1 h0)
    have hlt : k < reach (Readable σ r) va max := by
      have := (List.getElem?_eq_some_iff.1 hk).1
      rwa [length_userBytes] at this
    rw [getElem?_userBytes σ r va hlt] at hk
    refine ⟨k, hlt.trans_le reach_le, ?_, Option.some.inj hk, fun i hi hzero => ?_⟩
    · rw [hstr, ← Nat.add_sub_cancel' hlt, userBytes_add, take_left' (length_userBytes σ r va _)]
    · refine hfirst i hi ?_
      rw [getElem?_userBytes σ r va (hi.trans hlt), hzero]
  · have := hpre.length_le
    rw [length_userBytes] at this
    exact this.trans reach_le

/-! ### The arguments of system calls -/

theorem fetchaddr_spec (sz addr : ℕ) :
    Ensures (fetchaddr r sz addr σ) (fun _ σ' => σ' = σ) fun _ => False := by
  rw [fetchaddr, Run.ite_apply]
  split
  · exact rfl
  · refine (copyin_exact h hr _ _).bind fun q σ' hσ' => ?_
    rw [Run.ite_apply]
    split <;> exact hσ'.1

theorem fetchstr_spec (addr max : ℕ) :
    Ensures (fetchstr r addr max σ) (fun q σ' => σ' = σ ∧ q.2.length ≤ max) fun _ => False := by
  refine (copyinstr_exact h hr _ _).bind fun q σ' hσ' => ?_
  rw [Run.ite_apply]
  split <;> exact ⟨hσ'.1, hσ'.2.length⟩

end Xv6Swap
