import Xv6Swap.Kernel.Console
import Xv6Swap.Lib.Window

/-!
# The line discipline of the console

The ring of the console is a window on a growing list: `Cons.View s l a b` says that the indices
`r`, `w` and `e` are `a`, `b` and the length of `l`, modulo `2 ^ 32`, and that the characters from
`a` on are in the ring.  The discipline itself is about lists:

* `Lines.step`, `edited` : what typing makes of the lines that are complete and of the line being
  edited;
* `readChars` : what a reader makes of the characters that are available;
* `consoleintr_view`, `consolereadLoop_view` : the code does this to its ring;
* `console_discipline` : **the console delivers what was typed**, line by line.
-/

namespace Xv6Swap

open Function List Nat ConsOut

variable {killed : Bool} {target : ℕ} {call : ConsCall} {out : ConsOut}

/-! ### The discipline on lists -/

/-- The characters that were made available, and the line being edited. -/
structure Lines where
  done : List Byte
  line : List Byte
  deriving DecidableEq

/-- Typing: a line is complete with a newline, with `^D`, or when the buffer is full. -/
def Lines.step (x : Lines) : Typed → Lines
  | .char c full =>
    if c = newline ∨ c = ctrlD ∨ full then ⟨x.done ++ x.line ++ [c], []⟩
    else ⟨x.done, x.line ++ [c]⟩
  | .erase => ⟨x.done, x.line.dropLast⟩
  | .kill => ⟨x.done, []⟩

/-- The lines after a sequence of input. -/
def edited (l : List Typed) : Lines := l.foldl Lines.step ⟨[], []⟩

/-- Reading: the bytes that are delivered, the characters that are left, and how it ends. -/
def readChars (killed : Bool) (target : ℕ) : ℕ → List Byte → List Byte × List Byte × ConsOut
  | 0, q => ([], q, .ret target)
  | n + 1, [] => ([], [], if killed then .ret (-1) else .sleep (n + 1))
  | n + 1, c :: q =>
    if c = ctrlD then
      ([], if n + 1 < target then c :: q else q, .ret (target - (n + 1) : ℕ))
    else if c = newline then ([c], q, .ret (target - n : ℕ))
    else
      let x := readChars killed target n q
      (c :: x.1, x.2)

/-! ### The ring -/

namespace Cons

variable {s : Cons} {l : List Byte} {a b : ℕ} {c : Byte}

/-- The characters of `n` cells, from an index on. -/
def cells (s : Cons) (i : BitVec 32) (n : ℕ) : List Byte :=
  (range n).map fun j => s.buf ((i.toNat + j) % inputBufSize)

/-- The characters that are available to readers. -/
def unread (s : Cons) : List Byte := s.cells s.r (s.w - s.r).toNat

/-- The line being edited. -/
def line (s : Cons) : List Byte := s.cells s.w (s.e - s.w).toNat

/-- The indices of the ring are `a`, `b` and the length of `l`, and the characters from `a` on are
in it. -/
structure View (s : Cons) (l : List Byte) (a b : ℕ) : Prop where
  window : Window inputBufSize s.buf l a
  r : s.r = BitVec.ofNat 32 a
  w : s.w = BitVec.ofNat 32 b
  e : s.e = BitVec.ofNat 32 l.length
  le : a ≤ b
  le' : b ≤ l.length
  room : l.length ≤ a + inputBufSize

theorem toNat_sub_ofNat {x y : ℕ} (h : x ≤ y) (hlt : y < x + 2 ^ 32) :
    (BitVec.ofNat 32 y - BitVec.ofNat 32 x).toNat = y - x := by
  rw [BitVec.toNat_sub, BitVec.toNat_ofNat, BitVec.toNat_ofNat]
  omega

namespace View

variable (h : s.View l a b) {k : ℕ}

include h

theorem lt_pow : l.length < a + 2 ^ 32 := lt_of_le_of_lt h.room (by simp only [inputBufSize]; omega)

theorem toNat_used : (s.e - s.r).toNat = l.length - a := by
  rw [h.e, h.r]
  exact toNat_sub_ofNat (h.le.trans h.le') h.lt_pow

theorem toNat_line : (s.e - s.w).toNat = l.length - b := by
  have := h.lt_pow
  have := h.le
  rw [h.e, h.w]
  exact toNat_sub_ofNat h.le' (by omega)

theorem toNat_unread : (s.w - s.r).toNat = b - a := by
  have := h.lt_pow
  have := h.le'
  rw [h.w, h.r]
  exact toNat_sub_ofNat h.le (by omega)

/-- The indices are equal modulo `2 ^ 32` only if they are equal. -/
theorem e_ne_w : s.e ≠ s.w ↔ b < l.length := by
  have := h.lt_pow
  have := h.le
  have := h.le'
  rw [h.e, h.w, ne_eq, eq_comm, ofNat_eq_ofNat_iff h.le' (by omega)]
  omega

theorem r_eq_w : s.r = s.w ↔ a = b := by
  have := h.lt_pow
  have := h.le'
  rw [h.r, h.w, ofNat_eq_ofNat_iff h.le (by omega)]

theorem char_eq (hk : a ≤ k) (hc : l[k]? = some c) : s.char (BitVec.ofNat 32 k) = c := by
  rw [char, toNat_ofNat_mod (by decide)]
  exact h.window k c hk hc

theorem cells_eq {n : ℕ} (hk : a ≤ k) (hn : k + n ≤ l.length) :
    s.cells (BitVec.ofNat 32 k) n = (l.drop k).take n := by
  have hlen : ((l.drop k).take n).length = n := by
    rw [length_take, length_drop]
    omega
  refine ext_getElem (by rw [hlen, cells, length_map, length_range]) ?_
  intro j hj _
  rw [cells, length_map, length_range] at hj
  simp only [cells, getElem_map, getElem_range, getElem_take, getElem_drop]
  have hcell : ((BitVec.ofNat 32 k).toNat + j) % inputBufSize = (k + j) % inputBufSize := by
    rw [add_mod, toNat_ofNat_mod (by decide), ← add_mod]
  rw [hcell]
  exact h.window (k + j) _ (by omega) (getElem?_eq_getElem (by omega))

theorem unread_eq : s.unread = (l.take b).drop a := by
  have := h.le
  have := h.le'
  rw [unread, h.toNat_unread, h.r, h.cells_eq (le_refl a) (by omega), drop_take]

theorem line_eq : s.line = l.drop b := by
  have := h.le'
  rw [line, h.toNat_line, h.w, h.cells_eq h.le (by omega), take_of_length_le]
  rw [length_drop]

theorem e_sub_one (hl : b < l.length) : s.e - 1 = BitVec.ofNat 32 (l.length - 1) := by
  rw [h.e]
  bv_omega

/-- The last character of the line being edited is dropped. -/
theorem dropLast (hl : b < l.length) : View { s with e := s.e - 1 } l.dropLast a b := by
  have := h.room
  refine ⟨fun k c hk hc => h.window k c hk ?_, h.r, h.w, ?_, h.le, ?_, ?_⟩
  · rw [getElem?_dropLast] at hc
    split at hc
    · exact hc
    · cases hc
  · rw [length_dropLast]
    exact h.e_sub_one hl
  · rw [length_dropLast]
    omega
  · rw [length_dropLast]
    omega

/-- A character is added to the line being edited. -/
theorem put (hroom : l.length < a + inputBufSize) (c : Byte) : View (s.put c) (l ++ [c]) a b := by
  have hcell : s.e.toNat % inputBufSize = l.length % inputBufSize := by
    rw [h.e, toNat_ofNat_mod (by decide)]
  have hlen : (l ++ [c]).length = l.length + 1 := by simp
  refine ⟨?_, h.r, h.w, ?_, h.le, by rw [hlen]; exact le_succ_of_le h.le', by omega⟩
  · simp only [Cons.put, hcell]
    exact (h.window.write hroom c).append (update_self ..)
  · rw [hlen, ← ofNat_succ, ← h.e]
    rfl

/-- The line being edited is made available. -/
theorem commit : View { s with w := s.e } l a l.length :=
  ⟨h.window, h.r, h.e, h.e, h.le.trans h.le', le_refl _, h.room⟩

theorem take (hlt : a < b) : View { s with r := s.r + 1 } l (a + 1) b := by
  have := h.room
  refine ⟨h.window.advance, ?_, h.w, h.e, hlt, h.le', by omega⟩
  rw [← ofNat_succ, ← h.r]
  rfl

omit h in
/-- **`^U`** drops the line being edited, if it has no newline. -/
theorem killLine : ∀ (fuel : ℕ) {s : Cons} {l : List Byte}, s.View l a b → l.length ≤ b + fuel →
    newline ∉ l.drop b → (killLine fuel s).View (l.take b) a b := by
  intro fuel
  induction fuel with
  | zero =>
    intro s l h hf _
    have hall : l.take b = l := take_of_length_le hf
    rwa [Cons.killLine, hall]
  | succ fuel ih =>
    intro s l h hf hnl
    rw [Cons.killLine]
    by_cases hl : b < l.length
    · have hlast : l[l.length - 1]? = some l[l.length - 1] := getElem?_eq_getElem _
      have hchar : s.char (s.e - 1) = l[l.length - 1] := by
        rw [h.e_sub_one hl]
        exact h.char_eq (by have := h.le; omega) hlast
      have hne : s.char (s.e - 1) ≠ newline := fun heq => hnl (by
        rw [← heq, hchar]
        exact mem_drop_iff_getElem.2 ⟨l.length - 1 - b, by omega, by congr 1; omega⟩)
      rw [if_pos ⟨h.e_ne_w.2 hl, hne⟩]
      have hrest := ih (h.dropLast hl) (by rw [length_dropLast]; omega) fun hmem => hnl (by
        rw [dropLast_eq_take, drop_take] at hmem
        exact mem_of_mem_take hmem)
      rwa [dropLast_eq_take, take_take, min_eq_left (by omega)] at hrest
    · rw [if_neg fun hc => hl (h.e_ne_w.1 hc.1), take_of_length_le (by omega)]
      exact h

end View

end Cons

/-- Typing keeps newlines out of the line being edited. -/
theorem Lines.newline_notMem {x : Lines} (h : newline ∉ x.line) (o : Option Typed) :
    newline ∉ (o.toList.foldl step x).line := by
  rcases o with _ | t
  · exact h
  change newline ∉ (x.step t).line
  cases t with
  | char c full =>
    rw [step]
    split
    · exact List.not_mem_nil
    · rename_i hc
      rw [List.mem_append, List.mem_singleton, not_or]
      exact ⟨h, fun heq => hc (.inl heq.symm)⟩
  | erase => exact fun hm => h (List.mem_of_mem_dropLast hm)
  | kill => exact List.not_mem_nil

/-- Typing adds to the characters that are available, and takes none away. -/
theorem Lines.done_prefix (x : Lines) (o : Option Typed) :
    x.done <+: (o.toList.foldl step x).done := by
  rcases o with _ | t
  · exact prefix_refl _
  change x.done <+: (x.step t).done
  cases t with
  | char c full =>
    rw [step]
    split
    · exact ⟨x.line ++ [c], (List.append_assoc ..).symm⟩
    · exact prefix_refl _
  | erase | kill => exact prefix_refl _

/-- **`consoleintr` edits the lines** as `Lines.step` does. -/
theorem consoleintr_view {s : Cons} {x : Lines} {a : ℕ}
    (h : s.View (x.done ++ x.line) a x.done.length)
    (hnl : newline ∉ x.line) (c : Byte) : let x' := (s.typed c).toList.foldl Lines.step x
    (consoleintr c s).View (x'.done ++ x'.line) a x'.done.length := by
  have hlen : (x.done ++ x.line).length = x.done.length + x.line.length := List.length_append
  have hused : s.e - s.r < BitVec.ofNat 32 inputBufSize ↔
      (x.done ++ x.line).length < a + inputBufSize := by
    have := h.le
    have := h.le'
    rw [BitVec.lt_def, h.toNat_used]
    simp only [inputBufSize, BitVec.toNat_ofNat]
    omega
  simp only [consoleintr, Cons.typed]
  by_cases hP : c = ctrlP
  · simp only [hP, if_true, Option.toList_none, List.foldl_nil]
    exact h
  by_cases hU : c = ctrlU
  · have hk := Cons.View.killLine (s.e - s.w).toNat h (by rw [h.toNat_line]; omega)
      (by rwa [List.drop_left])
    rw [List.take_left] at hk
    simp only [hU, show ctrlU ≠ ctrlP by decide, if_true, if_false, Option.toList_some,
      List.foldl_cons, List.foldl_nil, Lines.step, List.append_nil]
    exact hk
  by_cases hH : c = ctrlH ∨ c = del
  · simp only [hP, hU, hH, if_true, if_false, Option.toList_some, List.foldl_cons, List.foldl_nil,
      Lines.step]
    by_cases hl : x.line = []
    · have hstop : ¬ s.e ≠ s.w := fun hne => by
        have := h.e_ne_w.1 hne
        rw [hl, List.append_nil] at this
        exact Nat.lt_irrefl _ this
      rw [if_neg hstop, hl, List.dropLast_nil]
      rwa [hl] at h
    · have hpos := List.length_pos_iff.2 hl
      have hlt : x.done.length < (x.done ++ x.line).length := by omega
      have hd := h.dropLast hlt
      rw [if_pos (h.e_ne_w.2 hlt)]
      rwa [List.dropLast_append_of_ne_nil hl] at hd
  by_cases hroom : c ≠ 0 ∧ s.e - s.r < BitVec.ofNat 32 inputBufSize
  · have hput := h.put (hused.1 hroom.2) (stored c)
    have he : (s.put (stored c)).e = s.e + 1 := rfl
    have hr : (s.put (stored c)).r = s.r := rfl
    simp only [hP, hU, hH, hroom, if_true, if_false, Option.toList_some, List.foldl_cons,
      List.foldl_nil, Lines.step, ne_eq, not_false_eq_true, and_self, decide_eq_true_eq, he, hr]
    by_cases hc : stored c = newline ∨ stored c = ctrlD ∨
        s.e + 1 - s.r = BitVec.ofNat 32 inputBufSize
    · rw [if_pos hc, if_pos hc, List.append_nil]
      exact hput.commit
    · rw [if_neg hc, if_neg hc, ← List.append_assoc]
      exact hput
  · simp only [hP, hU, hH, hroom, if_false, Option.toList_none, List.foldl_nil]
    exact h

/-! ### Readers -/

section Loop

variable {killed : Bool} {target n id : ℕ} {t : ConsMem (List (ℕ × Byte))} {c : Byte}
  {q : List Byte}

/-- The state after the character at `r` has been taken, and the bytes `d` delivered. -/
def ConsMem.next (t : ConsMem (List (ℕ × Byte))) (id : ℕ) (d : List Byte) :
    ConsMem (List (ℕ × Byte)) :=
  ⟨{ t.cons with r := t.cons.r + 1 }, t.mem ++ d.map (Prod.mk id)⟩

theorem consolereadLoop_empty (h : t.cons.r = t.cons.w) :
    consolereadLoop (record id) killed target (n + 1) t =
      .ok (if killed then .ret (-1) else .sleep (n + 1), t) := by
  rw [consolereadLoop, Run.bind_read, Run.ite_apply, if_pos h]
  cases killed <;> rfl

/-- `^D` is kept for the next call, unless it is the first character of the call. -/
theorem consolereadLoop_ctrlD (h : t.cons.r ≠ t.cons.w) (hc : t.cons.char t.cons.r = ctrlD) :
    consolereadLoop (record id) killed target (n + 1) t =
      .ok (.ret (target - (n + 1) : ℕ), if n + 1 < target then t else t.next id []) := by
  have hback : t.cons.r + 1 - 1 = t.cons.r := BitVec.add_sub_cancel ..
  rw [consolereadLoop, Run.bind_read, Run.ite_apply, if_neg h, hc, Run.bind_modify, if_pos rfl]
  by_cases hn : n + 1 < target
  · rw [if_pos hn, if_pos hn, Run.bind_modify, hback]
    rfl
  · rw [if_neg hn, if_neg hn, ConsMem.next, List.map_nil, List.append_nil]
    rfl

/-- Another character is delivered; after a newline the call returns. -/
theorem consolereadLoop_char (h : t.cons.r ≠ t.cons.w) (hc : t.cons.char t.cons.r = c)
    (hD : c ≠ ctrlD) : consolereadLoop (record id) killed target (n + 1) t =
      if c = newline then .ok (.ret (target - n : ℕ), t.next id [c])
      else consolereadLoop (record id) killed target n (t.next id [c]) := by
  have hcopy : Run.zoom ConsMem.mem (fun m t => { t with mem := m })
      (record id (target - (n + 1)) c) { t with cons := { t.cons with r := t.cons.r + 1 } } =
      .ok (0, t.next id [c]) := rfl
  rw [consolereadLoop, Run.bind_read, Run.ite_apply, if_neg h, hc, Run.bind_modify, if_neg hD,
    Run.bind_ok hcopy, if_neg (by decide : ¬ (0 : ℤ) = -1), Run.ite_apply]
  rfl

theorem readChars_ctrlD : readChars killed target (n + 1) (ctrlD :: q) =
    ([], if n + 1 < target then ctrlD :: q else q, .ret (target - (n + 1) : ℕ)) := if_pos rfl

theorem readChars_char (hD : c ≠ ctrlD) : readChars killed target (n + 1) (c :: q) =
    if c = newline then ([c], q, .ret (target - n : ℕ))
    else (c :: (readChars killed target n q).1, (readChars killed target n q).2) := if_neg hD

end Loop

/-- **`consoleread` reads the characters** as `readChars` does. -/
theorem consolereadLoop_view {l : List Byte} {b : ℕ} (id target : ℕ) (killed : Bool) :
    ∀ (n : ℕ) (t : ConsMem (List (ℕ × Byte))) (a : ℕ), t.cons.View l a b →
    let x := readChars killed target n ((l.take b).drop a)
    ∃ a' t', consolereadLoop (record id) killed target n t = .ok (x.2.2, t') ∧ t'.cons.View l a' b ∧
      (l.take b).drop a' = x.2.1 ∧ t'.mem = t.mem ++ x.1.map (Prod.mk id) := by
  intro n
  induction n with
  | zero => exact fun t a h => ⟨a, t, rfl, h, rfl, (append_nil _).symm⟩
  | succ n ih =>
    intro t a h
    by_cases hab : a = b
    · have hnil : (l.take b).drop a = [] := by
        rw [drop_eq_nil_iff, length_take]
        omega
      rw [consolereadLoop_empty (h.r_eq_w.2 hab), hnil, readChars]
      exact ⟨a, t, rfl, h, hnil, (append_nil _).symm⟩
    · have hlt : a < b := Nat.lt_of_le_of_ne h.le hab
      have hle := h.le'
      have hne : t.cons.r ≠ t.cons.w := fun heq => hab (h.r_eq_w.1 heq)
      obtain ⟨c, hc⟩ : ∃ c, l[a]? = some c := ⟨_, getElem?_eq_getElem (by omega)⟩
      have hhead : (l.take b).drop a = c :: (l.take b).drop (a + 1) := by
        rw [drop_eq_getElem?_toList_append, getElem?_take_of_lt hlt, hc]
        rfl
      have hchar : t.cons.char t.cons.r = c := by
        rw [h.r]
        exact h.char_eq (le_refl a) hc
      rw [hhead]
      by_cases hD : c = ctrlD
      · subst hD
        rw [consolereadLoop_ctrlD hne hchar, readChars_ctrlD]
        by_cases hn : n + 1 < target
        · rw [if_pos hn, if_pos hn]
          exact ⟨a, t, rfl, h, hhead, (append_nil _).symm⟩
        · rw [if_neg hn, if_neg hn]
          exact ⟨a + 1, _, rfl, h.take hlt, rfl, rfl⟩
      · rw [consolereadLoop_char hne hchar hD, readChars_char hD]
        by_cases hN : c = newline
        · rw [if_pos hN, if_pos hN]
          exact ⟨a + 1, _, rfl, h.take hlt, rfl, rfl⟩
        · rw [if_neg hN, if_neg hN]
          obtain ⟨a', t', hrun, hview, hrest, hmem⟩ := ih (t.next id [c]) (a + 1) (h.take hlt)
          refine ⟨a', t', hrun, hview, hrest, ?_⟩
          rw [hmem, ConsMem.next, append_assoc]
          rfl

/-- What a reader takes, the bytes that it delivers and a `^D` that it finds first, and how it
ends. -/
structure ReadSpec (target n : ℕ) (q taken : List Byte) (x : List Byte × List Byte × ConsOut) :
    Prop where
  split : q = taken ++ x.2.1
  bytes : taken.filter (· ≠ ctrlD) = x.1
  count : taken.count ctrlD = if x.2.2 = .ret 0 ∧ 0 < target then 1 else 0
  ret : ∀ v, x.2.2 = .ret v → v = -1 ∨ v = (target - n + x.1.length : ℕ)
  sleep : ∀ m, x.2.2 = .sleep m → 0 < m ∧ m + x.1.length = n

theorem readChars_spec : ∀ {n : ℕ} {q : List Byte}, n ≤ target →
    ∃ taken, ReadSpec target n q taken (readChars killed target n q) := by
  intro n
  induction n with
  | zero =>
    intro q hn
    refine ⟨[], rfl, rfl, ?_, fun v hv => ?_, fun m hm => by cases hm⟩
    · refine (if_neg fun hc => ?_).symm
      have := ret.inj hc.1
      omega
    · cases hv
      exact .inr rfl
  | succ n ih =>
    intro q hn
    cases q with
    | nil =>
      cases killed with
      | true =>
        refine ⟨[], rfl, rfl, (if_neg fun hc => by cases hc.1).symm, fun v hv => ?_, fun m hm => ?_⟩
        · cases hv
          exact .inl rfl
        · cases hm
      | false =>
        refine ⟨[], rfl, rfl, (if_neg fun hc => by cases hc.1).symm, fun v hv => ?_, fun m hm => ?_⟩
        · cases hv
        · cases hm
          exact ⟨succ_pos n, rfl⟩
    | cons c q =>
      by_cases hD : c = ctrlD
      · subst hD
        rw [readChars_ctrlD]
        by_cases hlt : n + 1 < target
        · rw [if_pos hlt]
          refine ⟨[], rfl, rfl, ?_, fun v hv => ?_, fun m hm => by cases hm⟩
          · refine (if_neg fun hc => ?_).symm
            have := ret.inj hc.1
            omega
          · cases hv
            exact .inr rfl
        · rw [if_neg hlt]
          refine ⟨[ctrlD], rfl, rfl, ?_, fun v hv => ?_, fun m hm => by cases hm⟩
          · have h0 : target - (n + 1) = 0 := by omega
            rw [h0]
            exact (if_pos ⟨rfl, by omega⟩).symm
          · cases hv
            exact .inr rfl
      · rw [readChars_char hD]
        by_cases hN : c = newline
        · subst hN
          rw [if_pos rfl]
          refine ⟨[newline], rfl, rfl, ?_, fun v hv => ?_, fun m hm => by cases hm⟩
          · refine (if_neg fun hc => ?_).symm
            have := ret.inj hc.1
            omega
          · cases hv
            refine .inr ?_
            rw [length_singleton]
            omega
        · rw [if_neg hN]
          obtain ⟨taken, hs⟩ := ih (q := q) (by omega)
          refine ⟨c :: taken, ?_, ?_, ?_, fun v hv => ?_, fun m hm => ?_⟩
          · rw [cons_append, ← hs.split]
          · rw [filter_cons_of_pos (by simpa using hD), hs.bytes]
          · rw [count_cons_of_ne hD, hs.count]
          · refine (hs.ret v hv).imp_right fun h => ?_
            rw [h, length_cons]
            omega
          · refine (hs.sleep m hm).imp_right fun h => ?_
            rw [length_cons]
            omega

/-- `^D` ends a read. -/
theorem readChars_eof {q : List Byte} : ∀ {n : ℕ} {l : List Byte},
    ctrlD ∉ l → newline ∉ l → l.length < n → n ≤ target →
    readChars killed target n (l ++ ctrlD :: q) =
      (l, if target - n + l.length = 0 then q else ctrlD :: q,
        .ret (target - n + l.length : ℕ)) := by
  intro n
  induction n with
  | zero => intro l _ _ hlt; exact absurd hlt (not_lt_zero _)
  | succ n ih =>
    intro l hD hN hlt hn
    cases l with
    | nil =>
      rw [nil_append, readChars_ctrlD]
      simp only [length_nil, add_zero]
      by_cases hc : n + 1 < target
      · rw [if_pos hc, if_neg (by omega)]
      · rw [if_neg hc, if_pos (by omega)]
    | cons c l =>
      rw [mem_cons, not_or] at hD hN
      rw [length_cons] at hlt
      have hlen : target - n + l.length = target - (n + 1) + (l.length + 1) := by omega
      rw [cons_append, readChars_char (Ne.symm hD.1), if_neg (Ne.symm hN.1),
        ih hD.2 hN.2 (by omega) (by omega), length_cons, hlen]

/-! ### Runs -/

theorem ConsOut.waiting_eq_some {c : ConsCall}
    (h : out.waiting call = some c) : ∃ m, out = .sleep m ∧ { call with n := m } = c := by
  cases out with
  | ret q => cases h
  | sleep m => exact ⟨m, rfl, Option.some.inj h⟩

theorem ConsOut.mem_rets {y : ConsRet}
    (h : y ∈ out.rets call) : ∃ q, out = .ret q ∧ y = ⟨call.id, call.target, q⟩ := by
  cases out with
  | ret q => exact ⟨q, rfl, mem_singleton.1 h⟩
  | sleep m => cases h

namespace ConsSys

variable {s : ConsSys} {a p : ℕ} {call : ConsCall}

/-- The number of bytes delivered to a call. -/
def count (s : ConsSys) (id : ℕ) : ℕ := s.delivered.countP (·.1 = id)

/-- The number of calls for at least one byte that returned 0. -/
def zeros (s : ConsSys) : ℕ := s.rets.countP fun x => x.result = 0 ∧ 0 < x.target

/-- What holds in every state of a run, with `a` characters taken from the buffer. -/
structure Good (s : ConsSys) (a : ℕ) : Prop where
  view : s.cons.View ((edited s.typed).done ++ (edited s.typed).line) a
    (edited s.typed).done.length
  newline : newline ∉ (edited s.typed).line
  delivered : s.delivered.map Prod.snd = ((edited s.typed).done.take a).filter (· ≠ ctrlD)
  zeros : s.zeros = ((edited s.typed).done.take a).count ctrlD
  ids : ∀ x ∈ s.delivered, x.1 < s.calls
  waiting : ∀ p call, s.waiting p = some call → call.id < s.calls ∧ call.n ≤ call.target ∧
    s.count call.id = call.target - call.n
  distinct : ∀ p q c c', s.waiting p = some c → s.waiting q = some c' → c.id = c'.id → p = q
  rets : ∀ x ∈ s.rets, x.id < s.calls ∧ (∀ p call, s.waiting p = some call → call.id ≠ x.id) ∧
    (x.result = -1 ∨ x.result = s.count x.id)

/-- The call can go on: it is not one that has returned or that another process is in. -/
structure CanRead (s : ConsSys) (p : ℕ) (call : ConsCall) : Prop where
  lt : call.id < s.calls
  le : call.n ≤ call.target
  count : s.count call.id = call.target - call.n
  other : ∀ q c, q ≠ p → s.waiting q = some c → c.id ≠ call.id
  ret : ∀ x ∈ s.rets, x.id ≠ call.id

/-- What a part of a call changes, apart from the console. -/
structure ReadStep (s : ConsSys) (p : ℕ) (call : ConsCall) (x : List Byte × List Byte × ConsOut)
    (s' : ConsSys) : Prop where
  typed : s'.typed = s.typed
  calls : s'.calls = s.calls
  delivered : s'.delivered = s.delivered ++ x.1.map (Prod.mk call.id)
  waiting : s'.waiting = update s.waiting p (x.2.2.waiting call)
  rets : s'.rets = s.rets ++ x.2.2.rets call

namespace ReadStep

variable {s' : ConsSys} {x : List Byte × List Byte × ConsOut} (h : s.ReadStep p call x s')

include h

theorem count (id : ℕ) : s'.count id = s.count id + if call.id = id then x.1.length else 0 := by
  rw [ConsSys.count, ConsSys.count, h.delivered, countP_append, countP_map]
  congr 1
  split
  case isTrue hid => exact countP_eq_length.2 fun _ _ => by simpa using hid
  case isFalse hid => exact countP_eq_zero.2 fun _ _ => by simpa using hid

theorem count_of_ne {id : ℕ} (hid : id ≠ call.id) : s'.count id = s.count id := by
  rw [h.count, if_neg hid.symm, add_zero]

/-- The calls that sleep afterwards: this one, or another one that slept before. -/
theorem waiting_cases {q : ℕ} {c : ConsCall} (hq : s'.waiting q = some c) :
    (q = p ∧ ∃ m, x.2.2 = .sleep m ∧ { call with n := m } = c) ∨
    (q ≠ p ∧ s.waiting q = some c) := by
  rw [h.waiting] at hq
  by_cases hqp : q = p
  · rw [hqp, update_self] at hq
    exact .inl ⟨hqp, waiting_eq_some hq⟩
  · rw [update_of_ne hqp] at hq
    exact .inr ⟨hqp, hq⟩

end ReadStep

/-- A part of a call, on the list of the characters that were made available. -/
theorem Good.read_spec (h : s.Good a) (hle : call.n ≤ call.target) :
    ∃ a' taken x, ReadSpec call.target call.n ((edited s.typed).done.drop a) taken x ∧
      (s.read p call).cons.View ((edited s.typed).done ++ (edited s.typed).line) a'
        (edited s.typed).done.length ∧
      (edited s.typed).done.take a' = (edited s.typed).done.take a ++ taken ∧
      s.ReadStep p call x (s.read p call) := by
  obtain ⟨a', t, hrun, hview, hrest, hmem⟩ := consolereadLoop_view call.id call.target (s.killed p)
    call.n ⟨s.cons, s.delivered⟩ a h.view
  rw [take_left] at hrun hrest hmem
  obtain ⟨taken, hspec⟩ : ∃ taken, ReadSpec call.target call.n ((edited s.typed).done.drop a) taken
    (readChars (s.killed p) call.target call.n ((edited s.typed).done.drop a)) := readChars_spec hle
  generalize readChars (s.killed p) call.target call.n ((edited s.typed).done.drop a) = x
    at hrun hrest hmem hspec
  have hread : s.read p call = { s with
      cons := t.cons
      delivered := t.mem
      waiting := update s.waiting p (x.2.2.waiting call)
      rets := s.rets ++ x.2.2.rets call } := by rw [ConsSys.read, hrun]
  rw [hread]
  refine ⟨a', taken, x, hspec, hview, ?_, ⟨rfl, rfl, hmem, rfl, rfl⟩⟩
  have hsplit := hspec.split
  rw [← hrest] at hsplit
  have hlen := congrArg length hsplit
  rw [length_append, length_drop, length_drop] at hlen
  have hle' := hview.le
  have hall : (edited s.typed).done =
      ((edited s.typed).done.take a ++ taken) ++ (edited s.typed).done.drop a' := by
    rw [append_assoc, ← hsplit, take_append_drop]
  nth_rewrite 1 [hall]
  refine take_left' ?_
  rw [length_append, length_take]
  omega

/-- The calls that return 0 are those that take a `^D`. -/
theorem countP_rets {taken q : List Byte} {x : List Byte × List Byte × ConsOut} {n : ℕ}
    (h : ReadSpec call.target n q taken x) :
    (x.2.2.rets call).countP (fun y => y.result = 0 ∧ 0 < y.target) = taken.count ctrlD := by
  rw [h.count]
  cases x.2.2 with
  | ret v => simp [ConsOut.rets, List.countP_cons]
  | sleep m => simp [ConsOut.rets]

/-- **A part of a call** keeps the invariant. -/
theorem Good.read (h : s.Good a) (hc : s.CanRead p call) : ∃ a', (s.read p call).Good a' := by
  obtain ⟨a', taken, x, hspec, hview, htake, hstep⟩ := h.read_spec hc.le
  have hle := hc.le
  refine ⟨a', by rwa [hstep.typed], by rw [hstep.typed]; exact h.newline, ?_, ?_, ?_, ?_, ?_, ?_⟩
  · rw [hstep.delivered, hstep.typed, map_append, h.delivered, htake, filter_append,
      hspec.bytes, map_map]
    simp
  · rw [ConsSys.zeros, hstep.rets, hstep.typed, countP_append, countP_rets hspec, htake,
      count_append, ← h.zeros, ConsSys.zeros]
  · intro y hy
    rw [hstep.delivered, mem_append] at hy
    rw [hstep.calls]
    rcases hy with hy | hy
    · exact h.ids y hy
    · obtain ⟨c, -, rfl⟩ := mem_map.1 hy
      exact hc.lt
  · intro q c hq
    rw [hstep.calls]
    rcases hstep.waiting_cases hq with ⟨rfl, m, hm, rfl⟩ | ⟨hne, hq⟩
    · obtain ⟨-, hsum⟩ := hspec.sleep m hm
      refine ⟨hc.lt, by dsimp only; omega, ?_⟩
      dsimp only
      rw [hstep.count, if_pos rfl, hc.count]
      omega
    · rw [hstep.count_of_ne (hc.other q c hne hq)]
      exact h.waiting q c hq
  · intro q q' c c' hq hq' hid
    rcases hstep.waiting_cases hq with ⟨rfl, m, -, rfl⟩ | ⟨hne, hold⟩
    · rcases hstep.waiting_cases hq' with ⟨rfl, -⟩ | ⟨hne', hold'⟩
      · rfl
      · exact absurd hid.symm (hc.other q' c' hne' hold')
    · rcases hstep.waiting_cases hq' with ⟨rfl, m, -, rfl⟩ | ⟨-, hold'⟩
      · exact absurd hid (hc.other q c hne hold)
      · exact h.distinct q q' c c' hold hold' hid
  · intro y hy
    rw [hstep.rets, mem_append] at hy
    rw [hstep.calls]
    rcases hy with hy | hy
    · obtain ⟨hlt, hother, hres⟩ := h.rets y hy
      rw [hstep.count_of_ne (hc.ret y hy)]
      refine ⟨hlt, fun q c hq => ?_, hres⟩
      rcases hstep.waiting_cases hq with ⟨-, m, -, rfl⟩ | ⟨-, hq⟩
      · exact (hc.ret y hy).symm
      · exact hother q c hq
    · obtain ⟨v, hv, rfl⟩ := mem_rets hy
      refine ⟨hc.lt, fun q c hq => ?_, (hspec.ret v hv).imp_right fun hres => ?_⟩
      · rcases hstep.waiting_cases hq with ⟨-, m, hm, -⟩ | ⟨hne, hq⟩
        · rw [hv] at hm
          cases hm
        · exact hc.other q c hne hq
      · dsimp only
        rw [hres, hstep.count, if_pos rfl, hc.count]

theorem Good.effect (h : s.Good a) (e : ConsEvent) (hok : e.Ok s) : ∃ a', (e.effect s).Good a' := by
  cases e with
  | intr c =>
    have hed : edited (s.typed ++ (s.cons.typed c).toList) =
        (s.cons.typed c).toList.foldl Lines.step (edited s.typed) := foldl_append
    have hdone := Lines.done_prefix (edited s.typed) (s.cons.typed c)
    have htake : ((s.cons.typed c).toList.foldl Lines.step (edited s.typed)).done.take a =
        (edited s.typed).done.take a := by
      obtain ⟨l, hl⟩ := hdone
      rw [← hl, take_append_of_le_length h.view.le]
    refine ⟨a, ?_, ?_, ?_, ?_, h.ids, h.waiting, h.distinct, h.rets⟩
    · simp only [ConsEvent.effect, hed]
      exact consoleintr_view h.view h.newline c
    · simp only [ConsEvent.effect, hed]
      exact Lines.newline_notMem h.newline _
    · simp only [ConsEvent.effect, hed, htake]
      exact h.delivered
    · simp only [ConsEvent.effect, hed, htake]
      exact h.zeros
  | read p n =>
    have hs : ({ s with calls := s.calls + 1 } : ConsSys).Good a :=
      ⟨h.view, h.newline, h.delivered, h.zeros, fun x hx => lt_succ_of_lt (h.ids x hx),
        fun p c hp => ⟨lt_succ_of_lt (h.waiting p c hp).1, (h.waiting p c hp).2⟩, h.distinct,
        fun x hx => ⟨lt_succ_of_lt (h.rets x hx).1, (h.rets x hx).2⟩⟩
    refine hs.read ⟨lt_succ_self _, le_refl _, ?_, fun q c _ hq => ?_, fun x hx => ?_⟩
    · rw [Nat.sub_self]
      exact countP_eq_zero.2 fun x hx => by
        simpa using Nat.ne_of_lt (h.ids x hx)
    · exact Nat.ne_of_lt (h.waiting q c hq).1
    · exact Nat.ne_of_lt (h.rets x hx).1
  | resume p =>
    obtain ⟨call, hcall⟩ := Option.ne_none_iff_exists'.1 hok
    simp only [ConsEvent.effect, hcall]
    obtain ⟨hlt, hle, hcount⟩ := h.waiting p call hcall
    refine h.read ⟨hlt, hle, hcount, fun q c hq hc hid => ?_, fun x hx hid => ?_⟩
    · exact hq (h.distinct q p c call hc hcall hid)
    · exact (h.rets x hx).2.1 p call hcall hid.symm
  | kill p => exact ⟨a, h.view, h.newline, h.delivered, h.zeros, h.ids, h.waiting,
    h.distinct, h.rets⟩

theorem good_of_reachable (h : consoles.Reachable s) : ∃ a, s.Good a := by
  refine h.invariant (I := fun s => ∃ a, s.Good a) ?_ ?_
  · rintro s rfl
    have hview : start.cons.View [] 0 0 :=
      ⟨fun _ _ _ hc => (nomatch hc), rfl, rfl, rfl, le_refl _, le_refl _, zero_le _⟩
    exact ⟨0, hview, not_mem_nil, rfl, rfl, fun _ hx => (nomatch hx),
      fun _ _ hc => (nomatch hc), fun _ _ _ _ hc => (nomatch hc), fun _ hx => (nomatch hx)⟩
  · rintro s e s' ⟨a, hs⟩ ⟨hok, hrun⟩
    cases hrun
    exact hs.effect e hok

/-- The line discipline, in a state of the console. -/
structure Discipline (s : ConsSys) : Prop where
  /-- `r ≤ w ≤ e ≤ r + INPUT_BUF_SIZE`, modulo `2 ^ 32`. -/
  order : (s.cons.w - s.cons.r).toNat + (s.cons.e - s.cons.w).toNat = (s.cons.e - s.cons.r).toNat ∧
    (s.cons.e - s.cons.r).toNat ≤ inputBufSize
  /-- No input changes or removes a character before `w`. -/
  kept : ∀ c, s.cons.unread <+: (consoleintr c s.cons).unread
  /-- The lines that were typed are those taken by the readers and those available, then the line
  being edited; the readers got the characters other than `^D`, and there is one call that returned
  0 for each `^D` taken. -/
  lines : ∃ taken, edited s.typed = ⟨taken ++ s.cons.unread, s.cons.line⟩ ∧
    s.delivered.map Prod.snd = taken.filter (· ≠ ctrlD) ∧ s.zeros = taken.count ctrlD
  /-- A call that was not killed returns the number of bytes it got. -/
  rets : ∀ x ∈ s.rets, x.result = -1 ∨ x.result = s.count x.id
  /-- `^D` ends a read, and is kept for the next one unless it is the first character. -/
  eof : ∀ (id target n : ℕ) (killed : Bool) (l q : List Byte) (mem : List (ℕ × Byte)),
    s.cons.unread = l ++ ctrlD :: q → ctrlD ∉ l → newline ∉ l → l.length < n → n ≤ target →
    ∃ t, consolereadLoop (record id) killed target n ⟨s.cons, mem⟩ =
        .ok (.ret (target - n + l.length : ℕ), t) ∧
      t.mem = mem ++ l.map (Prod.mk id) ∧
      t.cons.unread = if target - n + l.length = 0 then q else ctrlD :: q

/-- **Console line discipline**, for every sequence of characters and calls: the indices stay in
order, no character before `w` is changed or removed, and the bytes delivered to the readers are
those that were typed, line by line, with `^D` ending a read. -/
theorem console_discipline (h : consoles.Reachable s) : s.Discipline := by
  obtain ⟨a, hg⟩ := good_of_reachable h
  have hle := hg.view.le
  have hle' := hg.view.le'
  have hunread : s.cons.unread = (edited s.typed).done.drop a := by
    rw [hg.view.unread_eq, take_left]
  have hline : s.cons.line = (edited s.typed).line := by rw [hg.view.line_eq, drop_left]
  refine ⟨⟨?_, ?_⟩, fun c => ?_, ⟨(edited s.typed).done.take a, ?_, hg.delivered, hg.zeros⟩,
    fun x hx => (hg.rets x hx).2.2, ?_⟩
  · rw [hg.view.toNat_unread, hg.view.toNat_line, hg.view.toNat_used]
    omega
  · have := hg.view.room
    rw [hg.view.toNat_used]
    omega
  · have hview := consoleintr_view hg.view hg.newline c
    obtain ⟨l, hl⟩ := Lines.done_prefix (edited s.typed) (s.cons.typed c)
    rw [hview.unread_eq, take_left, hunread, ← hl, drop_append_of_le_length hle]
    exact prefix_append ..
  · rw [hunread, take_append_drop, hline]
  · intro id target n killed l q mem hq hD hN hlt hn
    obtain ⟨a', t, hrun, hview, hrest, hmem⟩ := consolereadLoop_view id target killed n
      ⟨s.cons, mem⟩ a hg.view
    rw [take_left, ← hunread, hq, readChars_eof hD hN hlt hn] at hrun hrest hmem
    exact ⟨t, hrun, hmem, by rw [hview.unread_eq, take_left, hrest]⟩

/-- "ab", a backspace, "c" and `^D` are typed, and read by two calls. -/
theorem console_discipline_eof : ∃ s, consoles.Reachable s ∧ s.Discipline ∧
    s.delivered = [(0, 97), (0, 99)] ∧ s.rets = [⟨0, 10, 2⟩, ⟨1, 10, 0⟩] := by
  obtain ⟨s, hs, ht⟩ := Machine.Reachable.test (M := consoles)
    (fun e s => of_decide_eq_true (p := e.Ok s)) (.init rfl)
    [.read 0 10, .intr 97, .intr 98, .intr ctrlH, .resume 0, .intr 99, .intr ctrlD, .resume 0,
      .read 1 10]
    (t := fun s => s.delivered = [(0, 97), (0, 99)] ∧ s.rets = [⟨0, 10, 2⟩, ⟨1, 10, 0⟩])
    (by decide +kernel)
  exact ⟨s, hs, console_discipline hs, of_decide_eq_true ht⟩

end ConsSys

end Xv6Swap
