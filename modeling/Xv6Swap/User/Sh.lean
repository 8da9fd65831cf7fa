import Xv6Swap.Lib.ByteMem
import Xv6Swap.Lib.Run

/-!
# The parser of the shell

`gettoken`, `peek` and the functions from `parsecmd` to `nulterminate` of `user/sh.c`.

The input is the list of the bytes before the terminating NUL.  The state of a program is the cursor
`*ps`, an index into the input; the index `es` behind the last byte is that of the NUL, and a read
beyond it stops the program.  The words of a command are pairs of indices, as `argv` and `eargv`,
`file` and `efile` are pairs of pointers into the line.  The functions above `gettoken` and `peek`
read the line only through these two, and are written over any `Scanner` that has them.
-/

namespace Xv6Swap.Sh

open Run

/-- The byte of a character. -/
def ch (c : Char) : Byte := BitVec.ofNat 8 c.toNat

/-- `whitespace`; the last one is the vertical tab. -/
def whitespace : List Byte := [ch ' ', ch '\t', ch '\r', ch '\n', 11#8]

def symbols : List Byte := [ch '<', ch '|', ch '>', ch '&', ch ';', ch '(', ch ')']

def maxargs : ℕ := 10

/-- `O_RDONLY`, `O_WRONLY`, `O_CREATE` and `O_TRUNC`. -/
def oRdonly : ℕ := 0x000

@[inherit_doc oRdonly] def oWronly : ℕ := 0x001

@[inherit_doc oRdonly] def oCreate : ℕ := 0x200

@[inherit_doc oRdonly] def oTrunc : ℕ := 0x400

/-- A word of the line: the index of its first byte and the one behind its last. -/
structure Word where
  start : ℕ
  stop : ℕ
  deriving DecidableEq, Repr

/-- `struct cmd` and what it stands for. -/
inductive Cmd where
  | exec (argv : List Word)
  | redir (cmd : Cmd) (file : Word) (mode fd : ℕ)
  | pipe (left right : Cmd)
  | list (left right : Cmd)
  | back (cmd : Cmd)
  deriving DecidableEq, Repr

/-- Why a program stops: `panic`, a read behind the NUL, or a loop that has not ended. -/
inductive Stop where
  | panic (msg : String)
  | overread
  | timeout
  deriving DecidableEq, Repr

/-- Programs that move the cursor. -/
abbrev M := Run ℕ Stop

/-! ### Tokens -/

section

variable (buf : List Byte)

/-- `*s` -/
def deref : M Byte :=
  ⟨fun i => if i ≤ buf.length then .ok (buf.getD i 0, i) else .error .overread⟩

/-- `s++` -/
def advance : M Unit := modify (· + 1)

def cursor : M ℕ := read id

/-- `while(s < es && p(*s)) s++`, with at most so many rounds. -/
def skip (p : Byte → Bool) : ℕ → M Unit
  | 0 => stop .timeout
  | k + 1 => do
    let s ← cursor
    if s < buf.length then do
      let c ← deref buf
      if p c then do
        advance
        skip p k
      else pure ()
    else pure ()

/-- Skip the white space. -/
def skipBlank : M Unit := skip buf (fun c => whitespace.contains c) (buf.length + 1)

/-- What `gettoken` returns: the kind of the token, and its first and last index. -/
structure Token where
  kind : Byte
  word : Word
  deriving DecidableEq, Repr

/-- The switch of `gettoken`, at the byte `c`: the kind of the token. -/
def tokenKind (c : Byte) : M Byte :=
  if c = 0 then pure c
  else if c ∈ [ch '|', ch '(', ch ')', ch ';', ch '&', ch '<'] then do
    advance
    pure c
  else if c = ch '>' then do
    advance
    let c' ← deref buf
    if c' = ch '>' then do
      advance
      pure (ch '+')
    else pure c
  else do
    skip buf (fun c => !whitespace.contains c && !symbols.contains c) (buf.length + 1)
    pure (ch 'a')

def gettoken : M Token := do
  skipBlank buf
  let q ← cursor
  let c ← deref buf
  let ret ← tokenKind buf c
  let eq ← cursor
  skipBlank buf
  pure ⟨ret, q, eq⟩

def peek (toks : List Byte) : M Bool := do
  skipBlank buf
  let c ← deref buf
  pure (c ≠ 0 && toks.contains c)

end

/-- What the parser uses to read the line. -/
structure Scanner (σ : Type) where
  peek : List Byte → Run σ Stop Bool
  gettoken : Run σ Stop Token

/-- `peek` and `gettoken` on a line. -/
def scanner (buf : List Byte) : Scanner ℕ := ⟨peek buf, gettoken buf⟩

/-! ### Commands -/

/-- The argument goes to the EXEC node under the redirections. -/
def Cmd.addArg (w : Word) : Cmd → Cmd
  | exec argv => exec (argv ++ [w])
  | redir cmd file mode fd => redir (cmd.addArg w) file mode fd
  | cmd => cmd

/-- The redirection of `cmd` that the token `tok` stands for. -/
def redircmd (cmd : Cmd) (tok : Byte) (file : Word) : Cmd :=
  if tok = ch '<' then .redir cmd file oRdonly 0
  else if tok = ch '>' then .redir cmd file (oWronly ||| oCreate ||| oTrunc) 1
  else if tok = ch '+' then .redir cmd file (oWronly ||| oCreate) 1
  else cmd

section

variable {σ : Type} (sc : Scanner σ)

def panic {α : Type} (msg : String) : Run σ Stop α := stop (.panic msg)

/-- `parseredirs`, with at most so many rounds. -/
def parseredirs : ℕ → Cmd → Run σ Stop Cmd
  | 0, _ => stop .timeout
  | n + 1, cmd => do
    if ← sc.peek [ch '<', ch '>'] then do
      let tok ← sc.gettoken
      let file ← sc.gettoken
      if file.kind ≠ ch 'a' then panic "missing file for redirection"
      else parseredirs n (redircmd cmd tok.kind file.word)
    else pure cmd

/-- The loop of `parseexec`, with at most so many rounds. -/
def parseargs : ℕ → ℕ → Cmd → Run σ Stop Cmd
  | 0, _, _ => stop .timeout
  | n + 1, argc, ret => do
    if ← sc.peek [ch '|', ch ')', ch '&', ch ';'] then pure ret
    else do
      let tok ← sc.gettoken
      if tok.kind = 0 then pure ret
      else if tok.kind ≠ ch 'a' then panic "syntax"
      else if argc + 1 ≥ maxargs then panic "too many args"
      else do
        let ret ← parseredirs sc (n + 1) (ret.addArg tok.word)
        parseargs n (argc + 1) ret

/-- The loop of `parseline`, with at most so many rounds. -/
def parseback : ℕ → Cmd → Run σ Stop Cmd
  | 0, _ => stop .timeout
  | n + 1, cmd => do
    if ← sc.peek [ch '&'] then do
      let _ ← sc.gettoken
      parseback n (.back cmd)
    else pure cmd

variable (n : ℕ)

-- The recursion goes at most as deep as the argument says; `n` bounds the loops.
mutual

def parseline : ℕ → Run σ Stop Cmd
  | 0 => stop .timeout
  | k + 1 => do
    let cmd ← parsepipe k
    let cmd ← parseback sc n cmd
    if ← sc.peek [ch ';'] then do
      let _ ← sc.gettoken
      let right ← parseline k
      pure (.list cmd right)
    else pure cmd

def parsepipe : ℕ → Run σ Stop Cmd
  | 0 => stop .timeout
  | k + 1 => do
    let cmd ← parseexec k
    if ← sc.peek [ch '|'] then do
      let _ ← sc.gettoken
      let right ← parsepipe k
      pure (.pipe cmd right)
    else pure cmd

def parseblock : ℕ → Run σ Stop Cmd
  | 0 => stop .timeout
  | k + 1 => do
    if ← sc.peek [ch '('] then do
      let _ ← sc.gettoken
      let cmd ← parseline k
      if ← sc.peek [ch ')'] then do
        let _ ← sc.gettoken
        parseredirs sc n cmd
      else panic "syntax - missing )"
    else panic "parseblock"

def parseexec : ℕ → Run σ Stop Cmd
  | 0 => stop .timeout
  | k + 1 => do
    if ← sc.peek [ch '('] then parseblock k else do
      let ret ← parseredirs sc n (.exec [])
      parseargs sc n 0 ret

end

end

/-- `nulterminate`: the line with a NUL behind each word of the command. -/
def nulterminate : Cmd → List Byte → List Byte
  | .exec argv, buf => argv.foldl (fun b w => b.set w.stop 0) buf
  | .redir cmd file _ _, buf => (nulterminate cmd buf).set file.stop 0
  | .pipe left right, buf | .list left right, buf => nulterminate right (nulterminate left buf)
  | .back cmd, buf => nulterminate cmd buf

/-- `parsecmd` up to `nulterminate`, with the cursor at the first byte. -/
def parse (k : ℕ) (buf : List Byte) : M Cmd := do
  let cmd ← parseline (scanner buf) (buf.length + 1) k
  let _ ← peek buf []
  let s ← cursor
  if s ≠ buf.length then panic "syntax"
  else pure cmd

/-- `parsecmd`: the command and the line it points into.  The recursion goes at most `k` deep. -/
def parsecmd (k : ℕ) (buf : List Byte) : Except Stop (Cmd × List Byte) :=
  match parse k buf 0 with
  | .ok (cmd, _) => .ok (cmd, nulterminate cmd buf)
  | .error e => .error e

end Xv6Swap.Sh
