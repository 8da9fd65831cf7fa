import Xv6Swap.Lib.Simulate
import Xv6Swap.User.Sh

/-!
# The tokens of a line

* `gettoken_eq` : what `gettoken` cuts at an index, and that it reads nothing behind the NUL;
* `tokens` : the tokens of a line, as `gettoken` cuts them;
* `scans_tokens` : the parser on a line does what it does on the list of its tokens.
-/

namespace Xv6Swap.Sh

open Nat List Run

variable {buf set : List Byte} {p : Byte → Bool} {i j k n : ℕ} {ts : List Token}

/-! ### Loops over the bytes -/

/-- The end of the bytes from `i` on that pass the test. -/
def spanEnd (p : Byte → Bool) (buf : List Byte) (i : ℕ) : ℕ := i + ((buf.drop i).takeWhile p).length

theorem le_spanEnd : i ≤ spanEnd p buf i := le_add_right _ _

theorem spanEnd_le (h : i ≤ buf.length) : spanEnd p buf i ≤ buf.length := by
  have := (takeWhile_sublist (l := buf.drop i) p).length_le
  rw [length_drop] at this
  rw [spanEnd]
  omega

theorem spanEnd_of_ge (h : buf.length ≤ i) : spanEnd p buf i = i := by
  rw [spanEnd, drop_of_length_le h]
  rfl

theorem spanEnd_of_lt (h : i < buf.length) :
    spanEnd p buf i = if p (buf.getD i 0) then spanEnd p buf (i + 1) else i := by
  rw [spanEnd, drop_eq_getElem_cons h, takeWhile_cons, getD_eq_getElem _ _ h]
  split
  · rw [length_cons, spanEnd]
    omega
  · rfl

theorem skip_eq (hi : i ≤ buf.length) (hk : buf.length < i + k) :
    skip buf p k i = .ok ((), spanEnd p buf i) := by
  induction k generalizing i with
  | zero => omega
  | succ k ih =>
    by_cases hlt : i < buf.length
    · have hd : deref buf i = .ok (buf.getD i 0, i) := by rw [deref]; simp [hi]
      rw [spanEnd_of_lt hlt, skip, show cursor = read id from rfl, bind_read,
        if_pos (by simpa using hlt), bind_ok hd]
      by_cases hp : p (buf.getD i 0) = true
      · rw [if_pos hp, if_pos hp]
        exact ih (i := i + 1) hlt (by omega)
      · rw [if_neg hp, if_neg hp]
        rfl
    · rw [spanEnd_of_ge (by omega), skip, show cursor = read id from rfl, bind_read,
        if_neg (by simpa using hlt)]
      rfl

/-- The byte at which the loop ends does not pass the test. -/
theorem spanEnd_stop (h : spanEnd p buf i < buf.length) :
    p (buf.getD (spanEnd p buf i) 0) = false := by
  induction hn : buf.length - i generalizing i with
  | zero =>
    rw [spanEnd_of_ge (by omega)] at h
    omega
  | succ n ih =>
    have hlt : i < buf.length := by omega
    rw [spanEnd_of_lt hlt] at h ⊢
    split at h
    · rw [if_pos ‹_›]
      exact ih h (by omega)
    · rw [if_neg ‹_›]
      simpa using ‹¬ p (buf.getD i 0) = true›

theorem spanEnd_idem (h : i ≤ buf.length) : spanEnd p buf (spanEnd p buf i) = spanEnd p buf i := by
  rcases (spanEnd_le (p := p) h).eq_or_lt with he | hlt
  · exact spanEnd_of_ge he.ge
  · rw [spanEnd_of_lt hlt, spanEnd_stop hlt]
    rfl

/-! ### gettoken -/

/-- White space. -/
def blank (c : Byte) : Bool := whitespace.contains c

/-- A byte of a word. -/
def inWord (c : Byte) : Bool := !whitespace.contains c && !symbols.contains c

/-- The kind of the token that begins at `q`, and its end. -/
def cut (buf : List Byte) (q : ℕ) : Byte × ℕ :=
  let c := buf.getD q 0
  if c = 0 then (c, q)
  else if c ∈ [ch '|', ch '(', ch ')', ch ';', ch '&', ch '<'] then (c, q + 1)
  else if c = ch '>' then
    if buf.getD (q + 1) 0 = ch '>' then (ch '+', q + 2) else (c, q + 1)
  else (ch 'a', spanEnd inWord buf q)

theorem deref_eq (h : i ≤ buf.length) : deref buf i = .ok (buf.getD i 0, i) := by
  rw [deref]
  exact if_pos h

/-- Before the NUL there is none. -/
theorem lt_of_getD_ne (h : buf.getD i 0 ≠ 0) : i < buf.length := by
  by_contra hge
  exact h (getD_eq_default _ _ (by omega))

section

variable (h : i ≤ buf.length)
include h

theorem cut_le : i ≤ (cut buf i).2 ∧ (cut buf i).2 ≤ buf.length := by
  simp only [cut]
  split
  · exact ⟨le_refl _, h⟩
  · have hlt := lt_of_getD_ne ‹_›
    split
    · exact ⟨le_succ _, hlt⟩
    · split
      · split
        · have h2 : buf.getD (i + 1) 0 ≠ 0 := by rw [‹buf.getD (i + 1) 0 = ch '>'›]; decide
          have := lt_of_getD_ne h2
          exact ⟨by simp only; omega, by simp only; omega⟩
        · exact ⟨le_succ _, hlt⟩
      · exact ⟨le_spanEnd, spanEnd_le h⟩

theorem skipBlank_eq : skipBlank buf i = .ok ((), spanEnd blank buf i) :=
  skip_eq h (by omega)

theorem tokenKind_eq : tokenKind buf (buf.getD i 0) i = .ok ((cut buf i).1, (cut buf i).2) := by
  rw [tokenKind, cut]
  simp only [Run.ite_apply]
  split
  · rfl
  · have hlt := lt_of_getD_ne ‹_›
    split
    · rfl
    · split
      · have hd : deref buf (i + 1) = .ok (buf.getD (i + 1) 0, i + 1) := deref_eq hlt
        rw [show advance = modify (· + 1) from rfl, bind_modify, bind_ok hd]
        split
        · rfl
        · rfl
      · rw [bind_ok (skip_eq h (by omega))]
        rfl

/-- **What `gettoken` does**: it reads nothing behind the NUL. -/
theorem gettoken_eq : gettoken buf i =
    .ok (⟨(cut buf (spanEnd blank buf i)).1,
      ⟨spanEnd blank buf i, (cut buf (spanEnd blank buf i)).2⟩⟩,
      spanEnd blank buf (cut buf (spanEnd blank buf i)).2) := by
  have hq := spanEnd_le (p := blank) h
  rw [gettoken, bind_ok (skipBlank_eq h), show cursor = read id from rfl, bind_read,
    bind_ok (deref_eq hq), bind_ok (tokenKind_eq hq), bind_read,
    bind_ok (skipBlank_eq (cut_le hq).2)]
  rfl

/-- `peek` moves over the white space and looks at the byte there. -/
theorem peek_eq (set : List Byte) : peek buf set i =
    .ok (buf.getD (spanEnd blank buf i) 0 ≠ 0 && set.contains (buf.getD (spanEnd blank buf i) 0),
      spanEnd blank buf i) := by
  rw [peek, bind_ok (skipBlank_eq h), bind_ok (deref_eq (spanEnd_le h))]
  rfl

end

theorem lt_cut (h0 : buf.getD (spanEnd blank buf i) 0 ≠ 0) :
    spanEnd blank buf i < (cut buf (spanEnd blank buf i)).2 := by
  have hlt := lt_of_getD_ne h0
  have hblank := spanEnd_stop hlt
  obtain ⟨q, hq⟩ : ∃ q, q = spanEnd blank buf i := ⟨_, rfl⟩
  rw [← hq] at hlt hblank h0 ⊢
  simp only [cut, if_neg h0]
  split
  · exact lt_succ_self _
  · split
    · split
      · simp only; omega
      · exact lt_succ_self _
    · -- the first byte of a word is neither white space nor a symbol
      have hword : inWord (buf.getD q 0) = true := by
        simp only [blank] at hblank
        simp only [inWord, hblank, Bool.not_false, Bool.true_and, Bool.not_eq_true',
          contains_eq_mem, decide_eq_false_iff_not]
        simp only [symbols, mem_cons, not_mem_nil, or_false] at *
        tauto
      simp only
      rw [spanEnd_of_lt hlt, if_pos hword]
      exact le_spanEnd

theorem cut_kind_iff : (cut buf i).1 = 0 ↔ buf.getD i 0 = 0 := by
  simp only [cut]
  split
  · simp
  · split
    · rfl
    · split
      · split
        · simp only [‹buf.getD i 0 = ch '>'›]
          decide
        · rfl
      · simp only [‹¬ buf.getD i 0 = 0›, iff_false]
        decide

/-! ### The tokens of a line -/

/-- The tokens from the index `i` on, at most so many. -/
def tokensFrom (buf : List Byte) : ℕ → ℕ → List Token
  | 0, _ => []
  | k + 1, i =>
    match gettoken buf i with
    | .ok (tok, j) => if tok.kind = 0 then [] else tok :: tokensFrom buf k j
    | .error _ => []

/-- **The tokens of a line**, as `gettoken` cuts them. -/
def tokens (buf : List Byte) : List Token := tokensFrom buf (buf.length + 1) 0

/-- The line from the index `i` on consists of these tokens. -/
inductive Toks (buf : List Byte) : ℕ → List Token → Prop where
  | nil {i j : ℕ} {tok : Token} : i ≤ buf.length → gettoken buf i = .ok (tok, j) → tok.kind = 0 →
      Toks buf i []
  | cons {i j : ℕ} {tok : Token} {ts : List Token} : i ≤ buf.length →
      gettoken buf i = .ok (tok, j) → tok.kind ≠ 0 → Toks buf j ts → Toks buf i (tok :: ts)

theorem Toks.le (h : Toks buf i ts) : i ≤ buf.length := by
  cases h <;> assumption

theorem Toks.kind_ne (h : Toks buf i ts) : ∀ t ∈ ts, t.kind ≠ 0 := by
  induction h with
  | nil => nofun
  | cons _ _ hk _ ih => exact forall_mem_cons.2 ⟨hk, ih⟩

/-- There are tokens from everywhere on, no more than bytes. -/
theorem toks_tokensFrom (hi : i ≤ buf.length) (hk : buf.length < i + k) :
    Toks buf i (tokensFrom buf k i) ∧ (tokensFrom buf k i).length ≤ buf.length - i := by
  induction k generalizing i with
  | zero => omega
  | succ k ih =>
    have hrun := gettoken_eq hi
    have hq := spanEnd_le (p := blank) hi
    have hle : i ≤ spanEnd blank buf i := le_spanEnd
    rw [tokensFrom, hrun]
    dsimp only
    split
    · exact ⟨.nil hi hrun ‹_›, zero_le _⟩
    · have hlt := lt_cut (mt cut_kind_iff.2 ‹_›)
      have hj := spanEnd_le (p := blank) (cut_le hq).2
      have hjle : (cut buf (spanEnd blank buf i)).2 ≤
          spanEnd blank buf (cut buf (spanEnd blank buf i)).2 := le_spanEnd
      obtain ⟨h1, h2⟩ := ih hj (by omega)
      refine ⟨.cons hi hrun ‹_› h1, ?_⟩
      rw [length_cons]
      omega

theorem toks_tokens (buf : List Byte) : Toks buf 0 (tokens buf) ∧
    (tokens buf).length ≤ buf.length :=
  toks_tokensFrom (zero_le _) (by omega)

/-! ### The parser on tokens -/

/-- The byte with which a token of this kind begins; that of a word is no symbol. -/
def Token.first (tok : Token) : Byte := if tok.kind = ch '+' then ch '>' else tok.kind

/-- `peek` and `gettoken` on a list of tokens, with what is at the end of it. -/
def tokenScanner (eof : Token) : Scanner (List Token) where
  peek set := read fun ts =>
    match ts with
    | [] => false
    | t :: _ => set.contains t.first
  gettoken := ⟨fun ts =>
    match ts with
    | [] => .ok (eof, [])
    | t :: ts => .ok (t, ts)⟩

/-- What `gettoken` returns at the end of a line. -/
def eofToken (buf : List Byte) : Token := ⟨0, ⟨buf.length, buf.length⟩⟩

/-- The first byte of a token, as far as symbols go. -/
theorem first_cut (hset : ∀ c ∈ set, c ∈ symbols) (h0 : buf.getD i 0 ≠ 0)
    {w : Word} : set.contains (Token.mk (cut buf i).1 w).first = set.contains (buf.getD i 0) := by
  have hno : ∀ {c : Byte}, c ∉ symbols → set.contains c = false := fun hc => by
    simpa using fun hmem => hc (hset _ hmem)
  simp only [cut, if_neg h0, Token.first]
  split
  case isTrue hmem =>
    rw [if_neg]
    intro he
    simp only at he
    rw [he] at hmem
    revert hmem
    decide
  case isFalse hsym =>
    split
    case isTrue hgt =>
      split
      · simp only [if_true, hgt]
      · simp only [hgt]
        rfl
    case isFalse hgt =>
      rw [hno (c := buf.getD i 0), hno]
      · simp only
        decide
      · simp only [symbols, mem_cons, not_mem_nil, or_false] at hsym ⊢
        tauto

/-- The tokens are the same behind white space. -/
theorem Toks.skip (h : Toks buf i ts) : Toks buf (spanEnd blank buf i) ts := by
  have hq := spanEnd_le (p := blank) h.le
  have he : gettoken buf (spanEnd blank buf i) = gettoken buf i := by
    rw [gettoken_eq hq, gettoken_eq h.le, spanEnd_idem h.le]
  cases h with
  | nil hi hrun hk => exact .nil hq (he.trans hrun) hk
  | cons hi hrun hk hts => exact .cons hq (he.trans hrun) hk hts

/-- **Looking at a line is looking at its tokens.** -/
theorem peek_sim (hset : ∀ c ∈ set, c ∈ symbols) (eof : Token) :
    Sim (Toks buf) (peek buf set) ((tokenScanner eof).peek set) := by
  intro i ts h
  refine ⟨?_, nofun⟩
  rintro b ts' ⟨⟩
  rw [peek_eq h.le]
  refine ⟨_, ?_, h.skip⟩
  congr 2
  cases h with
  | nil hi hrun hk =>
    cases (gettoken_eq hi).symm.trans hrun
    rw [cut_kind_iff.1 hk]
    rfl
  | cons hi hrun hk hts =>
    cases (gettoken_eq hi).symm.trans hrun
    have h0 := mt cut_kind_iff.2 hk
    simp only [first_cut hset h0]
    rw [decide_eq_true h0, Bool.true_and]

theorem eq_length_of_getD (hbuf : 0 ∉ buf) (hi : i ≤ buf.length) (h : buf.getD i 0 = 0) :
    i = buf.length := by
  by_contra hne
  have hlt : i < buf.length := lt_of_le_of_ne hi hne
  rw [getD_eq_getElem _ _ hlt] at h
  exact hbuf (h ▸ getElem_mem hlt)

/-- There is no token left exactly when only blanks are. -/
theorem Toks.eq_nil_iff (hbuf : 0 ∉ buf) (h : Toks buf i ts) :
    spanEnd blank buf i = buf.length ↔ ts = [] := by
  have hq := spanEnd_le (p := blank) h.le
  have hget : buf.getD (spanEnd blank buf i) 0 = 0 ↔ spanEnd blank buf i = buf.length := by
    refine ⟨eq_length_of_getD hbuf hq, fun he => ?_⟩
    rw [he, getD_eq_default _ _ le_rfl]
  rw [← hget, ← cut_kind_iff]
  cases h with
  | nil hi hrun hk =>
    rw [gettoken_eq hi] at hrun
    cases hrun
    simpa using hk
  | cons hi hrun hk =>
    rw [gettoken_eq hi] at hrun
    cases hrun
    simpa using hk

/-- **Cutting a token** off a line is cutting it off its tokens. -/
theorem gettoken_sim (hbuf : 0 ∉ buf) :
    Sim (Toks buf) (gettoken buf) (tokenScanner (eofToken buf)).gettoken := by
  intro i ts h
  cases h with
  | nil hi hrun hk =>
    refine ⟨?_, nofun⟩
    rintro tok ts' ⟨⟩
    cases (gettoken_eq hi).symm.trans hrun
    have h0 := cut_kind_iff.1 hk
    have hq := eq_length_of_getD hbuf (spanEnd_le hi) h0
    have hcut : cut buf buf.length = (0, buf.length) := by
      rw [hq] at h0
      simp only [cut, h0, if_true]
    have hend : spanEnd blank buf buf.length = buf.length := spanEnd_of_ge (le_refl _)
    have hlast : gettoken buf buf.length = .ok (eofToken buf, buf.length) := by
      rw [gettoken_eq (le_refl _), hend, hcut, hend]
      rfl
    refine ⟨buf.length, ?_, .nil (le_refl _) hlast rfl⟩
    rw [hrun, hq, hcut, hend]
    rfl
  | cons hi hrun hk hts =>
    refine ⟨?_, nofun⟩
    rintro tok ts' ⟨⟩
    exact ⟨_, hrun, hts⟩

/-! ### The parser -/

/-- A scanner that does what another one does, for the bytes that the parser looks for. -/
structure Scans {σ τ : Type} (R : σ → τ → Prop) (sc : Scanner σ) (sc' : Scanner τ) : Prop where
  peek : ∀ set : List Byte, (∀ c ∈ set, c ∈ symbols) → Sim R (sc.peek set) (sc'.peek set)
  gettoken : Sim R sc.gettoken sc'.gettoken

theorem scans_tokens (hbuf : 0 ∉ buf) :
    Scans (Toks buf) (scanner buf) (tokenScanner (eofToken buf)) :=
  ⟨fun _ hset => peek_sim hset _, gettoken_sim hbuf⟩

namespace Scans

variable {σ τ : Type} {R : σ → τ → Prop} {sc : Scanner σ} {sc' : Scanner τ} (h : Scans R sc sc')
include h

theorem parseredirs (n : ℕ) (cmd : Cmd) : Sim R (parseredirs sc n cmd) (parseredirs sc' n cmd) := by
  induction n generalizing cmd with
  | zero => exact .stop _
  | succ n ih =>
    rw [Sh.parseredirs, Sh.parseredirs]
    refine (h.peek _ (by decide)).bind fun b => .ite ?_ (.pure _)
    refine h.gettoken.bind fun tok => h.gettoken.bind fun file => .ite (.stop _) (ih _)

theorem parseargs (n argc : ℕ) (cmd : Cmd) :
    Sim R (parseargs sc n argc cmd) (parseargs sc' n argc cmd) := by
  induction n generalizing argc cmd with
  | zero => exact .stop _
  | succ n ih =>
    rw [Sh.parseargs, Sh.parseargs]
    refine (h.peek _ (by decide)).bind fun b => .ite (.pure _) ?_
    refine h.gettoken.bind fun tok => .ite (.pure _) (.ite (.stop _) (.ite (.stop _) ?_))
    exact (h.parseredirs _ _).bind fun ret => ih _ _

theorem parseback (n : ℕ) (cmd : Cmd) : Sim R (parseback sc n cmd) (parseback sc' n cmd) := by
  induction n generalizing cmd with
  | zero => exact .stop _
  | succ n ih =>
    rw [Sh.parseback, Sh.parseback]
    refine (h.peek _ (by decide)).bind fun b => .ite ?_ (.pure _)
    exact h.gettoken.bind fun tok => ih _

/-- **The parser on a scanner does what it does on the other.** -/
theorem parse (n k : ℕ) : Sim R (parseline sc n k) (parseline sc' n k) ∧
    Sim R (parsepipe sc n k) (parsepipe sc' n k) ∧ Sim R (parseblock sc n k) (parseblock sc' n k) ∧
    Sim R (parseexec sc n k) (parseexec sc' n k) := by
  induction k with
  | zero =>
    refine ⟨?_, ?_, ?_, ?_⟩
    · rw [parseline, parseline]; exact .stop _
    · rw [parsepipe, parsepipe]; exact .stop _
    · rw [parseblock, parseblock]; exact .stop _
    · rw [parseexec, parseexec]; exact .stop _
  | succ k ih =>
    obtain ⟨hline, hpipe, hblock, hexec⟩ := ih
    refine ⟨?_, ?_, ?_, ?_⟩
    · rw [parseline, parseline]
      refine hpipe.bind fun cmd => (h.parseback _ _).bind fun cmd => ?_
      refine (h.peek _ (by decide)).bind fun b => .ite ?_ (.pure _)
      exact h.gettoken.bind fun _ => hline.bind fun right => .pure _
    · rw [parsepipe, parsepipe]
      refine hexec.bind fun cmd => (h.peek _ (by decide)).bind fun b => .ite ?_ (.pure _)
      exact h.gettoken.bind fun _ => hpipe.bind fun right => .pure _
    · rw [parseblock, parseblock]
      refine (h.peek _ (by decide)).bind fun b => .ite ?_ (.stop _)
      refine h.gettoken.bind fun _ => hline.bind fun cmd => ?_
      refine (h.peek _ (by decide)).bind fun b => .ite ?_ (.stop _)
      exact h.gettoken.bind fun _ => h.parseredirs _ _
    · rw [parseexec, parseexec]
      refine (h.peek _ (by decide)).bind fun b => .ite hblock ?_
      exact (h.parseredirs _ _).bind fun ret => h.parseargs _ _ _

end Scans

end Xv6Swap.Sh
