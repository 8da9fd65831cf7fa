import Mathlib.Data.List.TakeWhile
import Xv6Swap.User.Grammar

/-!
# The strings of a command

`nulterminate` of `user/sh.c` writes a NUL behind every word of a command, into the line that all
the words point into.  A word ends where a blank or a symbol stands, or the NUL of the line, and has
none of them in it: so no terminator falls into a word, whatever command the words belong to.

* `nulterminate_eq` : the terminators of the whole tree, one after the other;
* `nulterminate_words` : **every word is a string with the text of its token.**
-/

namespace Xv6Swap.Sh

open List Cmd

/-- The words of a command, in the order in which they are terminated. -/
def Cmd.words : Cmd → List Word
  | exec argv => argv
  | redir cmd file _ _ => cmd.words ++ [file]
  | pipe left right | list left right => left.words ++ right.words
  | back cmd => cmd.words

/-- The bytes of a word. -/
def Word.text (w : Word) (buf : List Byte) : List Byte :=
  (range (w.stop - w.start)).map fun j => buf.getD (w.start + j) 0

/-- The string at an index of a line. -/
def stringAt (line : List Byte) (i : ℕ) : List Byte := (line.drop i).takeWhile (· ≠ 0)

variable {buf : List Byte} {w : Word} {ts : List Token} {rs : List (Byte × Word)} {r : Rule}
  {c : Cmd} {i k : ℕ}

/-! ### The words are tokens -/

theorem Redirs.word (h : Redirs ts rs) : ∀ p ∈ rs, ⟨ch 'a', p.2⟩ ∈ ts := by
  induction h with
  | nil => nofun
  | cons _ _ ih =>
    refine forall_mem_cons.2 ⟨by simp, fun p hp => ?_⟩
    exact mem_cons_of_mem _ (mem_cons_of_mem _ (ih p hp))

theorem Args.word {ws : List Word} (h : Args ts ws rs) :
    (∀ w ∈ ws, ⟨ch 'a', w⟩ ∈ ts) ∧ ∀ p ∈ rs, ⟨ch 'a', p.2⟩ ∈ ts := by
  induction h with
  | nil => exact ⟨nofun, nofun⟩
  | cons hr _ ih =>
    have hr := hr.word
    simp only [mem_cons, mem_append]
    constructor
    · rintro w (rfl | hw)
      · exact .inl rfl
      · exact .inr (.inr (ih.1 w hw))
    · rintro p (hp | hp)
      · exact .inr (.inl (hr p hp))
      · exact .inr (.inr (ih.2 p hp))

theorem mem_words_redircmd {tok : Byte} {f : Word} (h : w ∈ (redircmd c tok f).words) :
    w ∈ c.words ∨ w = f := by
  unfold redircmd at h
  split_ifs at h <;> simp_all [words]

theorem mem_words_wrap (h : w ∈ (wrap rs c).words) : w ∈ c.words ∨ ∃ p ∈ rs, w = p.2 := by
  induction rs generalizing c with
  | nil => exact .inl h
  | cons p rs ih =>
    rcases ih h with hw | ⟨q, hq, rfl⟩
    · rcases mem_words_redircmd hw with hw | rfl
      · exact .inl hw
      · exact .inr ⟨p, mem_cons_self, rfl⟩
    · exact .inr ⟨q, mem_cons_of_mem _ hq, rfl⟩

theorem words_back (n : ℕ) (c : Cmd) : (back^[n] c).words = c.words := by
  induction n generalizing c with
  | zero => rfl
  | succ n ih => exact ih (.back c)

/-- Every word of a command is one of the tokens that it derives from. -/
theorem Derives.word (h : Derives r ts c) : ∀ w ∈ c.words, ⟨ch 'a', w⟩ ∈ ts := by
  induction h with
  | line _ _ ih =>
    intro w hw
    rw [words_back] at hw
    exact mem_append_left _ (ih w hw)
  | list _ _ _ _ ih ih' =>
    intro w hw
    rw [words, words_back, mem_append] at hw
    rcases hw with hw | hw
    · exact mem_append_left _ (mem_append_left _ (ih w hw))
    · exact mem_append_right _ (mem_cons_of_mem _ (ih' w hw))
  | one _ ih => exact ih
  | pipe _ _ _ ih ih' =>
    intro w hw
    rcases mem_append.1 hw with hw | hw
    · exact mem_append_left _ (ih w hw)
    · exact mem_append_right _ (mem_cons_of_mem _ (ih' w hw))
  | block _ _ _ hr ih =>
    intro w hw
    refine mem_cons_of_mem _ ?_
    rcases mem_words_wrap hw with hw | ⟨p, hp, rfl⟩
    · exact mem_append_left _ (ih w hw)
    · exact mem_append_right _ (mem_cons_of_mem _ (hr.word p hp))
  | simple hr ha _ =>
    intro w hw
    rcases mem_words_wrap hw with hw | ⟨p, hp, rfl⟩
    · exact mem_append_right _ (ha.word.1 w hw)
    · rcases mem_append.1 hp with hp | hp
      · exact mem_append_left _ (hr.word p hp)
      · exact mem_append_right _ (ha.word.2 p hp)

/-! ### The words of a line -/

/-- The bytes of the word are those of a word, and the one behind it is not. -/
structure IsWord (buf : List Byte) (w : Word) : Prop where
  le : w.start ≤ w.stop
  le_length : w.stop ≤ buf.length
  inside : ∀ j, w.start ≤ j → j < w.stop → inWord (buf.getD j 0) = true
  stops : w.stop < buf.length → inWord (buf.getD w.stop 0) = false

theorem inside_spanEnd {p : Byte → Bool} {j : ℕ} (hj : i ≤ j) (hlt : j < spanEnd p buf i) :
    p (buf.getD j 0) = true := by
  obtain ⟨m, rfl⟩ := Nat.exists_eq_add_of_le hj
  have hm : m < ((buf.drop i).takeWhile p).length := Nat.lt_of_add_lt_add_left hlt
  have hpre := takeWhile_prefix p (l := buf.drop i)
  have hp := mem_takeWhile_imp (getElem_mem hm)
  have hlen : i + m < buf.length := by
    have := hpre.length_le
    rw [length_drop] at this
    omega
  rw [getD_eq_getElem _ _ hlen]
  rwa [hpre.getElem hm, getElem_drop] at hp

theorem isWord_cut (hi : i ≤ buf.length) (hkind : (cut buf i).1 = ch 'a') :
    IsWord buf ⟨i, (cut buf i).2⟩ := by
  have hcut : (cut buf i).2 = spanEnd inWord buf i := by
    revert hkind
    simp only [cut]
    split_ifs with h0 hsym hgt hgg <;> intro h <;> dsimp only at h
    · rw [h] at h0
      exact absurd h0 (by decide)
    · rw [h] at hsym
      exact absurd hsym (by decide)
    · exact absurd h (by decide)
    · rw [h] at hgt
      exact absurd hgt (by decide)
    · rfl
  rw [hcut]
  exact ⟨le_spanEnd, spanEnd_le hi, fun j => inside_spanEnd, spanEnd_stop⟩

theorem Toks.isWord (h : Toks buf i ts) : ∀ t ∈ ts, t.kind = ch 'a' → IsWord buf t.word := by
  induction h with
  | nil => nofun
  | cons hi hrun _ _ ih =>
    refine forall_mem_cons.2 ⟨fun hkind => ?_, ih⟩
    rw [gettoken_eq hi] at hrun
    cases hrun
    exact isWord_cut (spanEnd_le hi) hkind

/-! ### The terminators -/

theorem nulterminate_eq (c : Cmd) (buf : List Byte) :
    nulterminate c buf = c.words.foldl (fun b w => b.set w.stop 0) buf := by
  induction c generalizing buf with
  | exec argv => rfl
  | redir cmd file mode fd ih => rw [nulterminate, ih, words, foldl_append]; rfl
  | pipe left right ih ih' => rw [nulterminate, ih, ih', words, foldl_append]
  | list left right ih ih' => rw [nulterminate, ih, ih', words, foldl_append]
  | back cmd ih => exact ih buf

/-- A byte of the line after all terminators. -/
theorem getD_terminated (ws : List Word) (buf : List Byte) (i : ℕ) :
    (ws.foldl (fun b w => b.set w.stop 0) buf).getD i 0 =
      if ∃ w ∈ ws, w.stop = i then 0 else buf.getD i 0 := by
  induction ws generalizing buf with
  | nil => simp
  | cons w ws ih =>
    have hset : (buf.set w.stop 0).getD i 0 = if w.stop = i then 0 else buf.getD i 0 := by
      simp only [getD_eq_getElem?_getD, getElem?_set]
      split <;> [split; skip] <;> rfl
    rw [foldl_cons, ih, hset]
    by_cases hw : w.stop = i <;> by_cases hws : ∃ v ∈ ws, v.stop = i <;>
      simp only [mem_cons, exists_eq_or_imp, hw, hws, if_true, if_false, true_or, false_or]

theorem takeWhile_nul {l : List Byte} {n : ℕ} (h : ∀ j < n, l.getD j 0 ≠ 0)
    (hn : l.getD n 0 = 0) : l.takeWhile (· ≠ 0) = (range n).map fun j => l.getD j 0 := by
  induction n generalizing l with
  | zero =>
    cases l with
    | nil => rfl
    | cons b l => exact takeWhile_cons_of_neg (by simpa using hn)
  | succ n ih =>
    cases l with
    | nil => exact absurd rfl (h 0 n.succ_pos)
    | cons b l =>
      rw [takeWhile_cons_of_pos (by simpa using h 0 n.succ_pos), range_succ_eq_map,
        map_cons, map_map, ih (fun j hj => h (j + 1) (by omega)) hn]
      rfl

/-- **The words of a command survive the terminators**: in the line that `parsecmd` leaves behind,
the string at every word is the text that its token has in the input, and no terminator has been
written into a word. -/
theorem nulterminate_words (hbuf : 0 ∉ buf) (hk : 4 * buf.length + 4 ≤ k) {line : List Byte}
    (h : parsecmd k buf = .ok (c, line)) : ∀ w ∈ c.words, ⟨ch 'a', w⟩ ∈ tokens buf ∧
      stringAt line w.start = w.text buf ∧
      ∀ v ∈ c.words, ¬ (w.start ≤ v.stop ∧ v.stop < w.stop) := by
  obtain ⟨hd, rfl⟩ := derives_of_parsecmd hbuf hk h
  have hword : ∀ w ∈ c.words, IsWord buf w := fun w hw =>
    (toks_tokens buf).1.isWord _ (hd.word w hw) rfl
  have happart : ∀ w ∈ c.words, ∀ v ∈ c.words, ¬ (w.start ≤ v.stop ∧ v.stop < w.stop) := by
    rintro w hw v hv ⟨h1, h2⟩
    have hlt := Nat.lt_of_lt_of_le h2 (hword w hw).le_length
    have hin := (hword w hw).inside _ h1 h2
    rw [(hword v hv).stops hlt] at hin
    cases hin
  refine fun w hw => ⟨hd.word w hw, ?_, happart w hw⟩
  have hle := (hword w hw).le
  have hlen := (hword w hw).le_length
  have hget : ∀ j, ((nulterminate c buf).drop w.start).getD j 0 =
      if ∃ v ∈ c.words, v.stop = w.start + j then 0 else buf.getD (w.start + j) 0 := fun j => by
    rw [← getD_terminated, ← nulterminate_eq]
    simp only [getD_eq_getElem?_getD, getElem?_drop]
  have hkeep : ∀ j < w.stop - w.start,
      ((nulterminate c buf).drop w.start).getD j 0 = buf.getD (w.start + j) 0 := fun j hj => by
    rw [hget, if_neg]
    rintro ⟨v, hv, hstop⟩
    exact happart w hw v hv (by omega)
  rw [stringAt, takeWhile_nul (n := w.stop - w.start)]
  · exact map_congr_left fun j hj => hkeep j (mem_range.1 hj)
  · intro j hj h0
    rw [hkeep j hj, getD_eq_getElem _ _ (by omega)] at h0
    exact hbuf (h0 ▸ getElem_mem _)
  · rw [hget, if_pos ⟨w, hw, by omega⟩]

/-- The words of a pipe and a redirection that only symbols separate. -/
theorem nulterminate_words_pipe : 0 ∉ pipeLine ∧ 4 * pipeLine.length + 4 ≤ 24 ∧
    ∃ c line, parsecmd 24 pipeLine = .ok (c, line) ∧ c.words = [⟨0, 1⟩, ⟨2, 3⟩, ⟨4, 5⟩] ∧
      ∀ w ∈ c.words, ⟨ch 'a', w⟩ ∈ tokens pipeLine ∧ stringAt line w.start = w.text pipeLine ∧
        ∀ v ∈ c.words, ¬ (w.start ≤ v.stop ∧ v.stop < w.stop) :=
  ⟨by decide, by decide, _, _, rfl, rfl, nulterminate_words (k := 24) (by decide) (by decide) rfl⟩

end Xv6Swap.Sh
