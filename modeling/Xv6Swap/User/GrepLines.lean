import Xv6Swap.User.Grep

/-!
# The lines that grep prints

The loop of `grep` of `user/grep.c`.  Its buffer has 1024 bytes, of which the last is for the NUL;
a line that has not been read to its end is moved to the front, and the next `read` asks for as
many bytes as there is room for.  A `read` may return fewer bytes than asked for, but at least one
if it is asked for any and the file has any left.

* `grep_iff` : however the file is cut into pieces, the lines that match are printed, whole and in
  order, up to the first line that does not fit into the buffer.  For that line `read` is asked for
  no byte at all, and `grep` takes the answer for the end of the file.
-/

namespace Xv6Swap.Grep

open List

variable {s t rest : List Byte}
open Sh (ch)

/-- The size of `buf`. -/
def bufsize : ℕ := 1024

/-- The inner loop: `strchr` walks over the bytes `s`, and `line` has the bytes from `p` on that are
behind it.  The bytes written, and those from `p` on when there is no newline left. -/
def grepLines (re : List Byte) : List Byte → List Byte → List Byte × List Byte
  | line, [] => ([], line)
  | line, c :: s =>
    if c = ch '\n' then
      let r := grepLines re [] s
      ((if match' re line then line ++ [ch '\n'] else []) ++ r.1, r.2)
    else grepLines re (line ++ [c]) s

/-- `grep` with the rest of the file and the bytes in the buffer: the bytes written.  The `k`-th
`read` returns `sizes k + 1` bytes, or as many as it can. -/
def grep (re : List Byte) (sizes : ℕ → ℕ) (k : ℕ) (file buf : List Byte) : List Byte :=
  let n := min (sizes k + 1) (min (bufsize - buf.length - 1) file.length)
  if 0 < n then
    let r := grepLines re [] (buf ++ file.take n)
    r.1 ++ grep re sizes (k + 1) (file.drop n) r.2
  else []
termination_by file.length
decreasing_by rw [length_drop]; omega

/-! ### Lines -/

variable {re : List Byte} {ls : List (List Byte)}

/-- A file of lines. -/
def unlines (ls : List (List Byte)) : List Byte := ls.flatMap (· ++ [ch '\n'])

/-- The line and its newline fit into the buffer. -/
def fits (l : List Byte) : Bool := l.length + 1 < bufsize

theorem unlines_cons (l : List Byte) : unlines (l :: ls) = l ++ ch '\n' :: unlines ls := by
  simp [unlines]

theorem unlines_append (ls ls' : List (List Byte)) :
    unlines (ls ++ ls') = unlines ls ++ unlines ls' := flatMap_append

/-- What has no newline is in the first line. -/
theorem exists_line_eq {l u : List Byte} (hs : ch '\n' ∉ s)
    (h : s ++ t = l ++ ch '\n' :: u) : ∃ a, l = s ++ a ∧ t = a ++ ch '\n' :: u := by
  rcases append_eq_append_iff.1 h with h | ⟨b, rfl, hb⟩
  · exact h
  · cases b with
    | nil => exact ⟨[], by simp, hb.symm⟩
    | cons c b =>
      obtain ⟨rfl, -⟩ := cons.inj hb
      exact absurd (mem_append_right l mem_cons_self) hs

theorem eq_cons_of_unlines (hls : ∀ l ∈ ls, ch '\n' ∉ l) (hs : ch '\n' ∉ s)
    (h : s ++ ch '\n' :: t = unlines ls) : ∃ ls', ls = s :: ls' ∧ t = unlines ls' := by
  cases ls with
  | nil => exact absurd h (append_ne_nil_of_right_ne_nil _ (cons_ne_nil _ _))
  | cons l ls =>
    rw [unlines_cons] at h
    obtain ⟨_ | ⟨c, a⟩, rfl, ht⟩ := exists_line_eq hs h
    · exact ⟨ls, by rw [append_nil], (cons.inj ht).2⟩
    · obtain ⟨rfl, -⟩ := cons.inj ht
      exact absurd (mem_append_right s mem_cons_self) (hls _ mem_cons_self)

/-- The inner loop prints the lines that end in the buffer, and leaves the beginning of the next. -/
theorem grepLines_spec (re : List Byte) {line : List Byte} (hls : ∀ l ∈ ls, ch '\n' ∉ l)
    (hline : ch '\n' ∉ line) (h : line ++ s ++ rest = unlines ls) :
    ∃ done todo, ls = done ++ todo ∧ (∀ l ∈ done, l.length < (line ++ s).length) ∧
      (grepLines re line s).1 = unlines (done.filter (match' re)) ∧
      ch '\n' ∉ (grepLines re line s).2 ∧ (grepLines re line s).2 ++ rest = unlines todo ∧
      (grepLines re line s).2.length ≤ (line ++ s).length := by
  induction s generalizing line ls with
  | nil =>
    rw [append_nil] at h ⊢
    exact ⟨[], ls, rfl, nofun, rfl, hline, h, Nat.le_refl _⟩
  | cons c s ih =>
    by_cases hc : c = ch '\n'
    · subst hc
      rw [append_assoc, cons_append] at h
      obtain ⟨ls', rfl, h'⟩ := eq_cons_of_unlines hls hline h
      obtain ⟨done, todo, rfl, hlen, hout, hnl, hrest, hle⟩ :=
        ih (fun l hl => hls l (mem_cons_of_mem _ hl)) not_mem_nil h'
      rw [nil_append] at hlen hle
      simp only [grepLines, if_true, length_append, length_cons]
      refine ⟨line :: done, todo, rfl, ?_, ?_, hnl, hrest, by omega⟩
      · rintro l (_ | ⟨_, hl⟩)
        · omega
        · have := hlen l hl
          omega
      · rw [hout, filter_cons]
        split
        · rw [unlines_cons, append_assoc]
          rfl
        · rfl
    · have hline' : ch '\n' ∉ line ++ [c] := by
        rw [mem_append, mem_singleton]
        exact not_or.2 ⟨hline, Ne.symm hc⟩
      rw [append_cons] at h ⊢
      rw [grepLines, if_neg hc]
      exact ih hls hline' h

/-! ### The file -/

/-- A beginning without a newline that fills the buffer is one of a line that does not fit. -/
theorem takeWhile_fits_of_full {buf : List Byte} (hbuf : ch '\n' ∉ buf)
    (hfull : bufsize ≤ buf.length + 1) (h : buf ++ rest = unlines ls) : ls.takeWhile fits = [] := by
  cases ls with
  | nil => rfl
  | cons l ls =>
    rw [unlines_cons] at h
    obtain ⟨a, rfl, -⟩ := exists_line_eq hbuf h
    refine takeWhile_cons_of_neg ?_
    rw [fits, decide_eq_true_eq, length_append]
    omega

/-- What `grep` writes: the lines that match, up to the first that does not fit. -/
theorem grep_eq (re : List Byte) (sizes : ℕ → ℕ) (k : ℕ) (file buf : List Byte)
    (hls : ∀ l ∈ ls, ch '\n' ∉ l) (hbuf : ch '\n' ∉ buf) (hlen : buf.length < bufsize)
    (h : buf ++ file = unlines ls) :
    grep re sizes k file buf = unlines ((ls.takeWhile fits).filter (match' re)) := by
  induction hn : file.length using Nat.strong_induction_on generalizing k file buf ls with
  | _ m ih =>
    rw [grep]
    dsimp only
    generalize hcut : min (sizes k + 1) (min (bufsize - buf.length - 1) file.length) = n
    split
    case isTrue hpos =>
      rw [← take_append_drop n file, ← append_assoc, ← nil_append (buf ++ _)] at h
      obtain ⟨done, todo, rfl, hdone, hout, hnl, hrest, hle⟩ :=
        grepLines_spec re hls not_mem_nil h
      have hread : ([] ++ (buf ++ file.take n)).length < bufsize := by
        rw [nil_append, length_append, length_take]
        omega
      have hfit : ∀ l ∈ done, fits l = true := fun l hl => by
        have := hdone l hl
        exact decide_eq_true (by omega)
      rw [hout, ih _ (by rw [length_drop]; omega) _ _ _
        (fun l hl => hls l (mem_append_right _ hl)) hnl (by omega) hrest rfl,
        takeWhile_append_of_pos hfit, filter_append, unlines_append]
    case isFalse hzero =>
      -- the file is read to its end, or there is no room left in the buffer
      rcases Nat.eq_zero_or_pos file.length with hend | hmore
      · rw [length_eq_zero_iff.1 hend, append_nil] at h
        cases ls with
        | nil => rfl
        | cons l ls =>
          rw [unlines_cons] at h
          exact absurd (h ▸ mem_append_right l mem_cons_self) hbuf
      · rw [takeWhile_fits_of_full hbuf (by omega) h]
        rfl

theorem grep_unlines (re : List Byte) (sizes : ℕ → ℕ) (hls : ∀ l ∈ ls, ch '\n' ∉ l) :
    grep re sizes 0 (unlines ls) [] = unlines ((ls.takeWhile fits).filter (match' re)) :=
  grep_eq re sizes 0 (unlines ls) [] hls not_mem_nil (by decide) (nil_append _)

/-- **The lines that `grep` prints** are those that match, however the file is cut into pieces,
exactly if no line matches from the first one on that does not fit into the buffer. -/
theorem grep_iff (re : List Byte) (sizes : ℕ → ℕ) (ls : List (List Byte))
    (hls : ∀ l ∈ ls, ch '\n' ∉ l) :
    grep re sizes 0 (unlines ls) [] = unlines (ls.filter (match' re)) ↔
      ∀ l ∈ ls.dropWhile fits, match' re l = false := by
  rw [grep_unlines re sizes hls]
  nth_rewrite 2 [← takeWhile_append_dropWhile (p := fits) (l := ls)]
  rw [filter_append, unlines_append, self_eq_append_right, unlines, flatMap_eq_nil_iff]
  simp

/-- Two short lines, read byte by byte. -/
theorem grep_iff_short : (∀ l ∈ [[ch 'a'], [ch 'b']], ch '\n' ∉ l) ∧
    (grep [ch 'b'] (fun _ => 0) 0 (unlines [[ch 'a'], [ch 'b']]) [] =
        unlines ([[ch 'a'], [ch 'b']].filter (match' [ch 'b'])) ↔
      ∀ l ∈ [[ch 'a'], [ch 'b']].dropWhile fits, match' [ch 'b'] l = false) :=
  ⟨by decide, grep_iff _ _ _ (by decide)⟩

/-- **A line that does not fit is lost**: the pattern `a` and a line of 1023 times this letter. -/
theorem grep_loses_line : match' [ch 'a'] (replicate 1023 (ch 'a')) = true ∧
    grep [ch 'a'] (fun _ => 0) 0 (unlines [replicate 1023 (ch 'a')]) [] = [] := by
  have hline : ch '\n' ∉ replicate 1023 (ch 'a') := fun h =>
    absurd (eq_of_mem_replicate h) (by decide)
  have hfull : fits (replicate 1023 (ch 'a')) = false := by
    rw [fits, length_replicate]
    rfl
  refine ⟨rfl, ?_⟩
  rw [grep_unlines _ _ fun l hl => mem_singleton.1 hl ▸ hline,
    takeWhile_cons_of_neg (by rw [hfull]; exact Bool.false_ne_true)]
  rfl

end Xv6Swap.Grep
