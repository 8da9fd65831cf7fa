import Mathlib.Logic.Function.Iterate
import Xv6Swap.User.ShScan

/-!
# The grammar of the shell

The language of the shell over the tokens that `gettoken` cuts, and that the parser accepts it:

    line  ::= pipe '&'* [';' line]
    pipe  ::= exec ['|' pipe]
    exec  ::= '(' line ')' redir* | redir* (word redir*)*
    redir ::= ('<' | '>' | '>>') word

* `Derives` : a list of tokens derives from a rule, with the command that the derivation determines;
* `parse_sound` : what the parser takes off a list of tokens derives from its rule, and every other
  list ends in a panic;
* `parse_complete` : what derives from a rule is taken off;
* `parsecmd_grammar` : **`parsecmd` accepts exactly the grammar.**
-/

namespace Xv6Swap.Sh

open List Run

variable {set' : List Byte} {t : Token} {b : Byte}

/-- The redirections of a list, wrapped around a command in this order. -/
def wrap (rs : List (Byte × Word)) (cmd : Cmd) : Cmd :=
  rs.foldl (fun c r => redircmd c r.1 r.2) cmd

/-- `redir*`; the kind of `>>` is `+`. -/
inductive Redirs : List Token → List (Byte × Word) → Prop where
  | nil : Redirs [] []
  | cons {k : Byte} {w f : Word} {ts : List Token} {rs : List (Byte × Word)} :
      k ∈ [ch '<', ch '>', ch '+'] → Redirs ts rs →
      Redirs (⟨k, w⟩ :: ⟨ch 'a', f⟩ :: ts) ((k, f) :: rs)

/-- `(word redir*)*` -/
inductive Args : List Token → List Word → List (Byte × Word) → Prop where
  | nil : Args [] [] []
  | cons {w : Word} {ts us : List Token} {ws : List Word} {rs rs' : List (Byte × Word)} :
      Redirs ts rs → Args us ws rs' → Args (⟨ch 'a', w⟩ :: (ts ++ us)) (w :: ws) (rs ++ rs')

/-- The rules of the grammar. -/
inductive Rule where
  | line
  | pipe
  | exec

/-- **The grammar**, with the command of each derivation. -/
inductive Derives : Rule → List Token → Cmd → Prop where
  | line {ts amps : List Token} {c : Cmd} : Derives .pipe ts c → (∀ t ∈ amps, t.kind = ch '&') →
      Derives .line (ts ++ amps) (Cmd.back^[amps.length] c)
  | list {ts amps us : List Token} {t : Token} {c d : Cmd} : Derives .pipe ts c →
      (∀ t ∈ amps, t.kind = ch '&') → t.kind = ch ';' → Derives .line us d →
      Derives .line (ts ++ amps ++ t :: us) (.list (Cmd.back^[amps.length] c) d)
  | one {ts : List Token} {c : Cmd} : Derives .exec ts c → Derives .pipe ts c
  | pipe {ts us : List Token} {t : Token} {c d : Cmd} : Derives .exec ts c → t.kind = ch '|' →
      Derives .pipe us d → Derives .pipe (ts ++ t :: us) (.pipe c d)
  | block {ts us : List Token} {t t' : Token} {c : Cmd} {rs : List (Byte × Word)} :
      t.kind = ch '(' → Derives .line ts c → t'.kind = ch ')' → Redirs us rs →
      Derives .exec (t :: (ts ++ t' :: us)) (wrap rs c)
  | simple {ts us : List Token} {ws : List Word} {rs rs' : List (Byte × Word)} :
      Redirs ts rs → Args us ws rs' → ws.length < maxargs →
      Derives .exec (ts ++ us) (wrap (rs ++ rs') (.exec ws))

variable {eof : Token} {ts us rest : List Token} {rs rs' : List (Byte × Word)} {ws : List Word}
  {c cmd : Cmd} {k n argc : ℕ} {set : List Byte} {r : Rule}

/-! ### Reading tokens -/

section

variable (t : Token)

@[simp] theorem gettoken_nil : (tokenScanner eof).gettoken [] = .ok (eof, []) := rfl

@[simp] theorem gettoken_cons : (tokenScanner eof).gettoken (t :: ts) = .ok (t, ts) := rfl

end

/-- The list is empty or begins with one of these. -/
def Follow (set : List Byte) (ts : List Token) : Prop := ∀ t ∈ ts.head?, t.first ∈ set

/-- The scanner sees one of the bytes, or it does not. -/
def sees (set : List Byte) : List Token → Bool
  | [] => false
  | t :: _ => set.contains t.first

theorem peek_tokens : (tokenScanner eof).peek set ts = .ok (sees set ts, ts) := by
  cases ts <;> rfl

theorem exists_of_sees (h : sees set ts = true) : ∃ t us, ts = t :: us ∧ t.first ∈ set := by
  cases ts with
  | nil => cases h
  | cons t us => exact ⟨t, us, rfl, by simpa [sees] using h⟩

theorem Follow.not_sees (h : Follow set' ts) (hd : ∀ c ∈ set', c ∉ set) : sees set ts = false := by
  cases ts with
  | nil => rfl
  | cons t us => simpa [sees] using hd _ (h t rfl)

theorem Follow.sees (h : Follow set (t :: ts)) : sees set (t :: ts) = true := by
  simpa [Sh.sees] using h t rfl

theorem Follow.mono (h : Follow set ts) (hs : ∀ c ∈ set, c ∈ set') :
    Follow set' ts := fun t ht => hs _ (h t ht)

/-- A symbol other than `>` begins with itself. -/
theorem kind_of_sees (h : sees [b] ts = true) (hb : b ≠ ch '>') :
    ∃ t us, ts = t :: us ∧ t.kind = b := by
  obtain ⟨t, us, hts, ht⟩ := exists_of_sees h
  replace ht := mem_singleton.1 ht
  rw [Token.first] at ht
  split at ht
  · exact absurd ht.symm hb
  · exact ⟨t, us, hts, ht⟩

/-! ### Redirections -/

theorem wrap_append : wrap (rs ++ rs') c = wrap rs' (wrap rs c) := foldl_append

theorem addArg_redircmd (b : Byte) (w f : Word) :
    (redircmd c b f).addArg w = redircmd (c.addArg w) b f := by
  simp only [redircmd]
  split
  · rfl
  · split
    · rfl
    · split <;> rfl

/-- An argument goes under the redirections. -/
theorem addArg_wrap (w : Word) : (wrap rs c).addArg w = wrap rs (c.addArg w) := by
  induction rs generalizing c with
  | nil => rfl
  | cons r rs ih =>
    rw [wrap, foldl_cons, ← wrap, ih, addArg_redircmd]
    rfl

/-- The reason for a stop is a panic. -/
def IsPanic (e : Stop) : Prop := ∃ msg, e = .panic msg

/-- `parseredirs` takes redirections off, or panics. -/
theorem parseredirs_sound (he : eof.kind = 0) (hn : ts.length < n) :
    Ensures (parseredirs (tokenScanner eof) n cmd ts) (fun c rest => ∃ us rs, ts = us ++ rest ∧
      Redirs us rs ∧ c = wrap rs cmd) IsPanic := by
  induction n generalizing ts cmd with
  | zero => omega
  | succ n ih =>
    rw [parseredirs, bind_ok peek_tokens]
    split
    case isFalse => exact ⟨[], [], rfl, .nil, rfl⟩
    case isTrue hs =>
      obtain ⟨t, us, rfl, ht⟩ := exists_of_sees hs
      rw [bind_ok (gettoken_cons t)]
      cases us with
      | nil =>
        rw [bind_ok gettoken_nil, if_pos (by rw [he]; decide)]
        exact ⟨_, rfl⟩
      | cons f us =>
        rw [bind_ok (gettoken_cons f)]
        split
        case isTrue => exact ⟨_, rfl⟩
        case isFalse hf =>
          have hf : f.kind = ch 'a' := not_not.1 hf
          have hk : t.kind ∈ [ch '<', ch '>', ch '+'] := by
            rw [Token.first] at ht
            split at ht
            · simp [‹t.kind = ch '+'›]
            · simp only [mem_cons, not_mem_nil, or_false] at ht ⊢
              tauto
          simp only [length_cons] at hn
          refine (ih (by omega : us.length < n)).imp ?_
          rintro c rest ⟨vs, rs, rfl, hrs, rfl⟩
          refine ⟨t :: f :: vs, (t.kind, f.word) :: rs, rfl, ?_, rfl⟩
          obtain ⟨fk, fw⟩ := f
          obtain rfl : fk = ch 'a' := hf
          exact .cons hk hrs

theorem parseredirs_complete (h : Redirs us rs) (hn : us.length < n)
    (hrest : sees [ch '<', ch '>'] rest = false) :
    parseredirs (tokenScanner eof) n cmd (us ++ rest) = .ok (wrap rs cmd, rest) := by
  induction h generalizing n cmd with
  | nil =>
    obtain _ | n := n
    · omega
    rw [parseredirs, nil_append, bind_ok peek_tokens, hrest]
    rfl
  | @cons k w f ts rs hk _ ih =>
    obtain _ | n := n
    · omega
    have hs : sees [ch '<', ch '>'] (⟨k, w⟩ :: ⟨ch 'a', f⟩ :: (ts ++ rest)) = true := by
      simp only [mem_cons, not_mem_nil, or_false] at hk
      rcases hk with rfl | rfl | rfl <;> rfl
    rw [parseredirs, cons_append, cons_append, bind_ok peek_tokens, if_pos hs,
      bind_ok (gettoken_cons _), bind_ok (gettoken_cons _), if_neg (by simp)]
    exact ih (by simp only [length_cons] at hn; omega)

/-! ### Arguments -/

/-- The bytes behind which a command ends. -/
def stops : List Byte := [ch '|', ch ')', ch '&', ch ';']

/-- The loop of `parseexec` takes words and redirections off, or panics. -/
theorem parseargs_sound (he : eof.kind = 0) (hts : ∀ t ∈ ts, t.kind ≠ 0) (hn : ts.length < n)
    (hargc : argc < maxargs) :
    Ensures (parseargs (tokenScanner eof) n argc (wrap rs (.exec ws)) ts) (fun c rest =>
      ∃ us vs rs', ts = us ++ rest ∧ Args us vs rs' ∧ argc + vs.length < maxargs ∧
        c = wrap (rs ++ rs') (.exec (ws ++ vs))) IsPanic := by
  induction n generalizing ts argc rs ws with
  | zero => omega
  | succ n ih =>
    have hend : ∃ us vs rs', ts = us ++ ts ∧ Args us vs rs' ∧ argc + vs.length < maxargs ∧
        wrap rs (.exec ws) = wrap (rs ++ rs') (.exec (ws ++ vs)) :=
      ⟨[], [], [], rfl, .nil, hargc, by simp only [append_nil]⟩
    rw [parseargs, bind_ok peek_tokens]
    split
    case isTrue => exact hend
    case isFalse =>
      cases ts with
      | nil =>
        rw [bind_ok gettoken_nil, if_pos he]
        exact hend
      | cons t us =>
        rw [bind_ok (gettoken_cons t), if_neg (hts t (by simp))]
        split
        case isTrue => exact ⟨_, rfl⟩
        case isFalse hk =>
          split
          case isTrue => exact ⟨_, rfl⟩
          case isFalse hmax =>
            rw [addArg_wrap]
            simp only [length_cons] at hn
            refine (parseredirs_sound he (by omega : us.length < n + 1)).bind ?_
            rintro c mid ⟨vs, rs₁, rfl, hrs, rfl⟩
            rw [← wrap_append]
            refine (ih (fun x hx => hts x (by simp [hx])) ?_ (by omega)).imp ?_
            · rw [length_append] at hn; omega
            rintro c rest ⟨us', vs', rs', rfl, hargs, hlen, rfl⟩
            refine ⟨t :: (vs ++ us'), t.word :: vs', rs₁ ++ rs', by simp, ?_, ?_, ?_⟩
            · obtain ⟨tk, tw⟩ := t
              obtain rfl : tk = ch 'a' := not_not.1 hk
              exact .cons hrs hargs
            · rw [length_cons]; omega
            · rw [append_assoc, append_assoc]
              rfl

theorem parseargs_complete (h : Args us ws rs') (he : eof.kind = 0) {ws₀ : List Word}
    (hn : us.length < n) (hargc : argc + ws.length < maxargs) (hrest : Follow stops rest) :
    parseargs (tokenScanner eof) n argc (wrap rs (.exec ws₀)) (us ++ rest) =
      .ok (wrap (rs ++ rs') (.exec (ws₀ ++ ws)), rest) := by
  induction h generalizing n argc rs ws₀ with
  | nil =>
    obtain _ | n := n
    · omega
    rw [parseargs, nil_append, bind_ok peek_tokens, append_nil, append_nil]
    cases rest with
    | nil =>
      rw [if_neg (by simp [sees]), bind_ok gettoken_nil, if_pos he]
      rfl
    | cons t us =>
      rw [if_pos]
      · rfl
      · simpa [sees, stops] using hrest t rfl
  | @cons w ts us ws rs₁ rs' hrs hargs ih =>
    obtain _ | n := n
    · omega
    simp only [length_cons, length_append] at hn hargc
    have hword : ¬ sees stops (⟨ch 'a', w⟩ :: (ts ++ us ++ rest)) = true := by
      rw [sees]
      exact (by decide : ¬ stops.contains (ch 'a') = true)
    -- behind the redirections there is a word or the end of the command
    have hnext : sees [ch '<', ch '>'] (us ++ rest) = false := by
      cases hargs with
      | nil => exact hrest.not_sees (by decide)
      | cons => rfl
    rw [parseargs, ← stops, cons_append, bind_ok peek_tokens, if_neg hword,
      bind_ok (gettoken_cons _), if_neg (show ch 'a' ≠ 0 by decide), if_neg (not_not.2 rfl),
      if_neg (by omega),
      addArg_wrap, append_assoc, bind_ok (parseredirs_complete hrs (by omega) hnext),
      ← wrap_append]
    refine (ih (by omega) (by omega)).trans ?_
    simp only [append_assoc, singleton_append]

/-! ### Background -/

theorem parseback_sound (hn : ts.length < n) :
    Ensures (parseback (tokenScanner eof) n cmd ts) (fun c rest => ∃ amps, ts = amps ++ rest ∧
      (∀ t ∈ amps, t.kind = ch '&') ∧ c = Cmd.back^[amps.length] cmd) IsPanic := by
  induction n generalizing ts cmd with
  | zero => omega
  | succ n ih =>
    rw [parseback, bind_ok peek_tokens]
    split
    case isFalse => exact ⟨[], rfl, by simp, rfl⟩
    case isTrue hs =>
      obtain ⟨t, us, rfl, hk⟩ := kind_of_sees hs (by decide)
      rw [bind_ok (gettoken_cons t)]
      simp only [length_cons] at hn
      refine (ih (by omega : us.length < n)).imp ?_
      rintro c rest ⟨amps, rfl, hamps, rfl⟩
      exact ⟨t :: amps, rfl, forall_mem_cons.2 ⟨hk, hamps⟩, rfl⟩

theorem parseback_complete {amps : List Token} (h : ∀ t ∈ amps, t.kind = ch '&')
    (hn : amps.length < n) (hrest : sees [ch '&'] rest = false) :
    parseback (tokenScanner eof) n cmd (amps ++ rest) = .ok (Cmd.back^[amps.length] cmd, rest) := by
  induction amps generalizing n cmd with
  | nil =>
    obtain _ | n := n
    · omega
    rw [parseback, nil_append, bind_ok peek_tokens, hrest]
    rfl
  | cons t amps ih =>
    obtain _ | n := n
    · omega
    have hs : sees [ch '&'] (t :: (amps ++ rest)) = true := by
      simp only [sees, Token.first, h t (by simp)]
      decide
    rw [parseback, cons_append, bind_ok peek_tokens, if_pos hs, bind_ok (gettoken_cons _)]
    exact ih (fun x hx => h x (by simp [hx])) (by simp only [length_cons] at hn; omega)

/-! ### The whole grammar -/

/-- A first part of the tokens has been taken off, and derives from the rule. -/
def Parsed (r : Rule) (ts : List Token) (c : Cmd) (rest : List Token) : Prop :=
  ∃ us, ts = us ++ rest ∧ Derives r us c

/-- **What the parser takes off derives from the rule**, and every other list ends in a panic.  The
recursion is no deeper than there are functions for each token. -/
theorem parse_sound (he : eof.kind = 0) (hts : ∀ t ∈ ts, t.kind ≠ 0) (hn : ts.length < n) :
    (4 * ts.length + 4 ≤ k →
      Ensures (parseline (tokenScanner eof) n k ts) (Parsed .line ts) IsPanic) ∧
    (4 * ts.length + 3 ≤ k →
      Ensures (parsepipe (tokenScanner eof) n k ts) (Parsed .pipe ts) IsPanic) ∧
    (4 * ts.length + 1 ≤ k →
      Ensures (parseblock (tokenScanner eof) n k ts) (Parsed .exec ts) IsPanic) ∧
    (4 * ts.length + 2 ≤ k →
      Ensures (parseexec (tokenScanner eof) n k ts) (Parsed .exec ts) IsPanic) := by
  induction k generalizing ts with
  | zero => exact ⟨by omega, by omega, by omega, by omega⟩
  | succ k ih =>
    refine ⟨fun hk => ?_, fun hk => ?_, fun hk => ?_, fun hk => ?_⟩
    · rw [parseline]
      refine ((ih hts hn).2.1 (by omega)).bind ?_
      rintro c mid ⟨us, rfl, hc⟩
      simp only [length_append] at hn hk
      refine (parseback_sound (by omega : mid.length < n)).bind ?_
      rintro d mid' ⟨amps, rfl, hamps, rfl⟩
      rw [bind_ok peek_tokens]
      split
      case isFalse => exact ⟨us ++ amps, by simp, .line hc hamps⟩
      case isTrue hs =>
        obtain ⟨t, vs, rfl, ht⟩ := kind_of_sees hs (by decide)
        rw [bind_ok (gettoken_cons t)]
        simp only [length_append, length_cons] at hn hk
        have hvs : ∀ x ∈ vs, x.kind ≠ 0 := fun x hx => hts x (by simp [hx])
        refine ((ih hvs (by omega)).1 (by omega)).bind ?_
        rintro d rest ⟨vs', rfl, hd⟩
        exact ⟨us ++ amps ++ t :: vs', by simp, .list hc hamps ht hd⟩
    · rw [parsepipe]
      refine ((ih hts hn).2.2.2 (by omega)).bind ?_
      rintro c mid ⟨us, rfl, hc⟩
      rw [bind_ok peek_tokens]
      split
      case isFalse => exact ⟨us, rfl, .one hc⟩
      case isTrue hs =>
        obtain ⟨t, vs, rfl, ht⟩ := kind_of_sees hs (by decide)
        rw [bind_ok (gettoken_cons t)]
        simp only [length_append, length_cons] at hn hk
        have hvs : ∀ x ∈ vs, x.kind ≠ 0 := fun x hx => hts x (by simp [hx])
        refine ((ih hvs (by omega)).2.1 (by omega)).bind ?_
        rintro d rest ⟨vs', rfl, hd⟩
        exact ⟨us ++ t :: vs', by simp, .pipe hc ht hd⟩
    · rw [parseblock, bind_ok peek_tokens]
      split
      case isFalse => exact ⟨_, rfl⟩
      case isTrue hs =>
        obtain ⟨t, us, rfl, ht⟩ := kind_of_sees hs (by decide)
        rw [bind_ok (gettoken_cons t)]
        simp only [length_cons] at hn hk
        have hus : ∀ x ∈ us, x.kind ≠ 0 := fun x hx => hts x (by simp [hx])
        refine ((ih hus (by omega)).1 (by omega)).bind ?_
        rintro c mid ⟨vs, rfl, hc⟩
        rw [bind_ok peek_tokens]
        split
        case isFalse => exact ⟨_, rfl⟩
        case isTrue hs' =>
          obtain ⟨t', us', rfl, ht'⟩ := kind_of_sees hs' (by decide)
          rw [bind_ok (gettoken_cons t')]
          simp only [length_append, length_cons] at hn
          refine (parseredirs_sound he (by omega)).imp ?_
          rintro d rest ⟨xs, rs, rfl, hrs, rfl⟩
          exact ⟨t :: (vs ++ t' :: xs), by simp, .block ht hc ht' hrs⟩
    · rw [parseexec, bind_ok peek_tokens]
      split
      case isTrue => exact (ih hts hn).2.2.1 (by omega)
      case isFalse =>
        refine (parseredirs_sound he hn).bind ?_
        rintro c mid ⟨us, rs, rfl, hrs, rfl⟩
        simp only [length_append] at hn
        have hmid : ∀ x ∈ mid, x.kind ≠ 0 := fun x hx => hts x (by simp [hx])
        refine (parseargs_sound he hmid (by omega) (by decide)).imp ?_
        rintro d rest ⟨vs, ws, rs', rfl, hargs, hlen, rfl⟩
        exact ⟨us ++ vs, by simp, .simple hrs hargs (by simpa using hlen)⟩

/-- The bytes that may stand behind a command of a rule. -/
def Rule.follow : Rule → List Byte
  | .line => [ch ')']
  | .pipe => [ch '&', ch ';', ch ')']
  | .exec => stops

/-- The function of a rule. -/
def Rule.parse {σ : Type} (sc : Scanner σ) (n k : ℕ) : Rule → Run σ Stop Cmd
  | .line => parseline sc n k
  | .pipe => parsepipe sc n k
  | .exec => parseexec sc n k

/-- How deep the recursion of a rule goes beyond its tokens. -/
def Rule.depth : Rule → ℕ
  | .line => 4
  | .pipe => 3
  | .exec => 2

theorem follow_nil : Follow set [] := nofun

theorem follow_cons (h : t.kind = b) (hb : b ∈ set) (hne : b ≠ ch '+') : Follow set (t :: ts) := by
  rintro _ ⟨⟩
  rw [Token.first, if_neg (by rw [h]; exact hne), h]
  exact hb

/-- **What derives from a rule is taken off**, in front of a token that may stand behind it. -/
theorem parse_complete (h : Derives r us c) (he : eof.kind = 0) (hn : us.length < n)
    (hk : 4 * us.length + r.depth ≤ k) (hrest : Follow r.follow rest) :
    r.parse (tokenScanner eof) n k (us ++ rest) = .ok (c, rest) := by
  induction h generalizing k rest with
  | @line ts amps c hc hamps ih =>
    obtain _ | k := k
    · simp only [Rule.depth] at hk; omega
    simp only [length_append, Rule.depth, Rule.parse] at hn hk ih
    have hback : Follow (Rule.pipe).follow (amps ++ rest) := by
      cases amps with
      | nil => exact hrest.mono (by decide)
      | cons t amps => exact follow_cons (hamps t (by simp)) (by decide) (by decide)
    rw [Rule.parse, parseline, append_assoc, bind_ok (ih (by omega) (by omega) hback),
      bind_ok (parseback_complete hamps (by omega) (hrest.not_sees (by decide))),
      bind_ok peek_tokens, if_neg (by rw [hrest.not_sees (by decide)]; decide)]
    rfl
  | @list ts amps us t c d hc hamps ht hd ihc ihd =>
    obtain _ | k := k
    · simp only [Rule.depth] at hk; omega
    simp only [length_append, length_cons, Rule.depth, Rule.parse] at hn hk ihc ihd
    have hsemi : Follow [ch ';'] (t :: (us ++ rest)) := follow_cons ht (by decide) (by decide)
    have hback : Follow (Rule.pipe).follow (amps ++ t :: (us ++ rest)) := by
      cases amps with
      | nil => exact hsemi.mono (by decide)
      | cons t amps => exact follow_cons (hamps t (by simp)) (by decide) (by decide)
    rw [Rule.parse, parseline, append_assoc, append_assoc, cons_append,
      bind_ok (ihc (by omega) (by omega) hback),
      bind_ok (parseback_complete hamps (by omega) (hsemi.not_sees (by decide))),
      bind_ok peek_tokens, if_pos hsemi.sees, bind_ok (gettoken_cons t),
      bind_ok (ihd (by omega) (by omega) hrest)]
    rfl
  | @one ts c hc ih =>
    obtain _ | k := k
    · simp only [Rule.depth] at hk; omega
    simp only [Rule.depth, Rule.parse] at hk ih
    rw [Rule.parse, parsepipe, bind_ok (ih hn (by omega) (hrest.mono (by decide))),
      bind_ok peek_tokens, if_neg (by rw [hrest.not_sees (by decide)]; decide)]
    rfl
  | @pipe ts us t c d hc ht hd ihc ihd =>
    obtain _ | k := k
    · simp only [Rule.depth] at hk; omega
    simp only [length_append, length_cons, Rule.depth, Rule.parse] at hn hk ihc ihd
    have hbar : Follow [ch '|'] (t :: (us ++ rest)) := follow_cons ht (by decide) (by decide)
    rw [Rule.parse, parsepipe, append_assoc, cons_append,
      bind_ok (ihc (by omega) (by omega) (hbar.mono (by decide))),
      bind_ok peek_tokens, if_pos hbar.sees, bind_ok (gettoken_cons t),
      bind_ok (ihd (by omega) (by omega) hrest)]
    rfl
  | @block ts us t t' c rs ht hc ht' hrs ih =>
    obtain ⟨k, rfl⟩ : ∃ m, k = m + 2 := ⟨k - 2, by simp only [Rule.depth] at hk; omega⟩
    simp only [length_append, length_cons, Rule.depth, Rule.parse] at hn hk ih
    have hopen : Follow [ch '('] (t :: (ts ++ t' :: (us ++ rest))) :=
      follow_cons ht (by decide) (by decide)
    have hclose : Follow [ch ')'] (t' :: (us ++ rest)) := follow_cons ht' (by decide) (by decide)
    rw [Rule.parse, parseexec, cons_append, append_assoc, cons_append,
      bind_ok peek_tokens, if_pos hopen.sees, parseblock, bind_ok peek_tokens,
      if_pos hopen.sees, bind_ok (gettoken_cons t), bind_ok (ih (by omega) (by omega) hclose),
      bind_ok peek_tokens, if_pos hclose.sees, bind_ok (gettoken_cons t')]
    exact parseredirs_complete hrs (by omega) (hrest.not_sees (by decide))
  | @simple ts us ws rs rs' hrs hargs hlen =>
    obtain _ | k := k
    · simp only [Rule.depth] at hk; omega
    simp only [length_append] at hn
    -- a simple command begins with a redirection or a word, or is empty
    have hopen : sees [ch '('] (ts ++ us ++ rest) = false := by
      cases hrs with
      | @cons k =>
        simp only [mem_cons, not_mem_nil, or_false] at *
        rcases ‹k = _ ∨ _› with rfl | rfl | rfl <;> rfl
      | nil =>
        cases hargs with
        | nil => exact hrest.not_sees (by decide)
        | cons => rfl
    have hredir : sees [ch '<', ch '>'] (us ++ rest) = false := by
      cases hargs with
      | nil => exact hrest.not_sees (by decide)
      | cons => rfl
    rw [Rule.parse, parseexec, bind_ok peek_tokens, if_neg (by rw [hopen]; decide),
      append_assoc, bind_ok (parseredirs_complete hrs (by omega) hredir)]
    exact parseargs_complete hargs he (by omega) (by omega) hrest

/-! ### Lines -/

variable {buf : List Byte}

/-- What follows `parseline` in `parsecmd`: nothing but blanks may be left. -/
theorem parse_end (hbuf : 0 ∉ buf)
    (hrun : parseline (scanner buf) (buf.length + 1) k 0 = .ok (c, i))
    (hrest : Toks buf i rest) : (rest = [] → ∃ j, parse k buf 0 = .ok (c, j)) ∧
    (rest ≠ [] → parse k buf 0 = .error (.panic "syntax")) := by
  have hend := hrest.eq_nil_iff hbuf
  rw [parse, bind_ok hrun, bind_ok (peek_eq hrest.le _),
    show cursor = read id from rfl, bind_read, id]
  refine ⟨fun he => ⟨spanEnd blank buf i, ?_⟩, fun hne => ?_⟩
  · rw [if_neg (not_not.2 (hend.2 he))]
    rfl
  · rw [if_pos (mt hend.1 hne)]
    rfl

section

variable (hbuf : 0 ∉ buf) (hk : 4 * buf.length + 4 ≤ k)
include hbuf hk

/-- `parse` returns what derives from the tokens of the line, and panics on every other line. -/
theorem parse_line :
    Ensures (parse k buf 0) (fun cmd _ => Derives .line (tokens buf) cmd) IsPanic := by
  obtain ⟨htoks, hlen⟩ := toks_tokens buf
  have hsim := ((scans_tokens hbuf).parse (buf.length + 1) k).1 0 _ htoks
  have hsound := (parse_sound (show (eofToken buf).kind = 0 from rfl) htoks.kind_ne
    (n := buf.length + 1) (k := k) (by omega)).1 (by omega)
  cases hrun : parseline (tokenScanner (eofToken buf)) (buf.length + 1) k (tokens buf) with
  | error e =>
    rw [hrun] at hsound
    rw [parse, bind_error (hsim.2 e hrun)]
    exact hsound
  | ok p =>
    rw [hrun] at hsound
    obtain ⟨us, htoks', hd⟩ := hsound
    obtain ⟨i, hparse, hrest⟩ := hsim.1 _ _ hrun
    obtain ⟨hnil, hcons⟩ := parse_end hbuf hparse hrest
    by_cases he : p.2 = []
    · obtain ⟨j, hok⟩ := hnil he
      rw [hok, htoks', he, append_nil]
      exact hd
    · rw [hcons he]
      exact ⟨_, rfl⟩

/-- `parse` returns the command of each derivation. -/
theorem parse_of_derives (h : Derives .line (tokens buf) c) : ∃ j, parse k buf 0 = .ok (c, j) := by
  obtain ⟨htoks, hlen⟩ := toks_tokens buf
  have hrun := parse_complete (n := buf.length + 1) (k := k) h
    (show (eofToken buf).kind = 0 from rfl) (by omega) (by simp only [Rule.depth]; omega) follow_nil
  rw [append_nil] at hrun
  obtain ⟨i, hparse, hrest⟩ :=
    (((scans_tokens hbuf).parse (buf.length + 1) k).1 0 _ htoks).1 _ _ hrun
  exact (parse_end hbuf hparse hrest).1 rfl

/-- What `parsecmd` returns. -/
theorem derives_of_parsecmd {line : List Byte} (h : parsecmd k buf = .ok (c, line)) :
    Derives .line (tokens buf) c ∧ line = nulterminate c buf := by
  have hline := parse_line hbuf hk
  rw [parsecmd] at h
  split at h
  case h_1 hrun =>
    rw [hrun] at hline
    cases h
    exact ⟨hline, rfl⟩
  case h_2 => cases h

end

/-- **The shell accepts exactly its grammar.**  On a line without a NUL in it, with room for the
recursion, `parsecmd` returns a command if and only if the tokens of the line derive it, and it ends
in a panic on every other line: it neither runs on nor reads behind the terminating NUL. -/
theorem parsecmd_grammar (hbuf : 0 ∉ buf) (hk : 4 * buf.length + 4 ≤ k) :
    (∀ cmd line, parsecmd k buf = .ok (cmd, line) ↔
      Derives .line (tokens buf) cmd ∧ line = nulterminate cmd buf) ∧
    ((∀ cmd, ¬ Derives .line (tokens buf) cmd) → ∃ msg, parsecmd k buf = .error (.panic msg)) := by
  have hline := parse_line hbuf hk
  refine ⟨fun cmd line => ⟨derives_of_parsecmd hbuf hk, ?_⟩, fun hno => ?_⟩
  · rintro ⟨hd, rfl⟩
    obtain ⟨j, hrun⟩ := parse_of_derives hbuf hk hd
    rw [parsecmd, hrun]
  · rw [parsecmd]
    split
    case h_1 hrun =>
      rw [hrun] at hline
      exact absurd hline (hno _)
    case h_2 hrun =>
      rw [hrun] at hline
      obtain ⟨msg, rfl⟩ := hline
      exact ⟨msg, rfl⟩

/-- The line `a|b>f`. -/
def pipeLine : List Byte := [ch 'a', ch '|', ch 'b', ch '>', ch 'f']

/-- A pipe whose right side has a redirection. -/
theorem parsecmd_grammar_pipe : 0 ∉ pipeLine ∧ 4 * pipeLine.length + 4 ≤ 24 ∧
    Derives .line (tokens pipeLine)
      (.pipe (.exec [⟨0, 1⟩]) (redircmd (.exec [⟨2, 3⟩]) (ch '>') ⟨4, 5⟩)) := by
  refine ⟨by decide, by decide, ?_⟩
  have h := (parsecmd_grammar (k := 24) (show 0 ∉ pipeLine by decide) (by decide)).1
  exact ((h _ [ch 'a', 0, ch 'b', 0, ch 'f']).1 rfl).1

end Xv6Swap.Sh
