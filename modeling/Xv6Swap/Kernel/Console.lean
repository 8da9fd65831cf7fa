import Xv6Swap.Kernel.State
import Xv6Swap.Lib.Machine

/-!
# The console

The input side of `kernel/console.c`: a ring of `INPUT_BUF_SIZE` characters with three indices that
wrap around.  `consoleintr` edits the characters from `w` on and lets the readers have a line by
moving `w`; `consoleread` takes characters at `r`.  Both hold `cons.lock` from their beginning to
their end, except while a reader sleeps.

* `consoleintr` : the interrupt handler, for one character;
* `consolereadLoop` : `consoleread` up to its end or to the next `sleep`.  The copy of a character
  to the caller is a parameter, so that the copies can be those to user memory or just be recorded;
* `consoles` : the machine of all interleavings of characters with the calls of any number of
  readers.

The echo and the list of processes that `^P` prints are left out.  A sleeping reader may go on at
any time: it tests `r == w` again, so that it does not matter whether `wakeup` has been called.
-/

namespace Xv6Swap

open Run

/-- `INPUT_BUF_SIZE`. -/
abbrev inputBufSize : ℕ := 128

/-- `C('D')`: end of file. -/
abbrev ctrlD : Byte := 4

/-- `C('H')`: backspace. -/
abbrev ctrlH : Byte := 8

/-- `C('P')`: print the list of processes. -/
abbrev ctrlP : Byte := 16

/-- `C('U')`: kill the line. -/
abbrev ctrlU : Byte := 21

/-- The delete key. -/
abbrev del : Byte := 127

/-- The newline character. -/
abbrev newline : Byte := 10

/-- The carriage return. -/
abbrev carriageReturn : Byte := 13

/-- `cons`. -/
structure Cons where
  buf : ℕ → Byte
  r : BitVec 32
  w : BitVec 32
  e : BitVec 32

namespace Cons

/-- The character at an index. -/
def char (s : Cons) (i : BitVec 32) : Byte := s.buf (i.toNat % inputBufSize)

/-- The loop of `^U`: as long as there is a line being edited and its last character is not a
newline, drop that character.  The first argument bounds the number of iterations. -/
def killLine : ℕ → Cons → Cons
  | 0, s => s
  | fuel + 1, s =>
    if s.e ≠ s.w ∧ s.char (s.e - 1) ≠ newline then killLine fuel { s with e := s.e - 1 } else s

/-- `cons.buf[cons.e++ % INPUT_BUF_SIZE] = c`. -/
def put (s : Cons) (c : Byte) : Cons :=
  { s with buf := Function.update s.buf (s.e.toNat % inputBufSize) c, e := s.e + 1 }

end Cons

/-- The character that is stored: the carriage return becomes a newline. -/
def stored (c : Byte) : Byte := if c = carriageReturn then newline else c

/-- `consoleintr`. -/
def consoleintr (c : Byte) (s : Cons) : Cons :=
  if c = ctrlP then s
  else if c = ctrlU then Cons.killLine (s.e - s.w).toNat s
  else if c = ctrlH ∨ c = del then
    if s.e ≠ s.w then { s with e := s.e - 1 } else s
  else if c ≠ 0 ∧ s.e - s.r < BitVec.ofNat 32 inputBufSize then
    let s := s.put (stored c)
    if stored c = newline ∨ stored c = ctrlD ∨ s.e - s.r = BitVec.ofNat 32 inputBufSize then
      { s with w := s.e }
    else s
  else s

/-! ### Readers -/

/-- How a part of `consoleread` ends: with the result, or in `sleep` with `n` bytes still to be
read. -/
inductive ConsOut where
  | ret (result : ℤ)
  | sleep (n : ℕ)
  deriving DecidableEq, Repr

/-- The console, and what the characters are copied to. -/
structure ConsMem (σ : Type) where
  cons : Cons
  mem : σ

section Read

variable {σ ε : Type} (copy : ℕ → Byte → Run σ ε ℤ)

/-- The loop of `consoleread`, with `n` of `target` bytes still to be read, up to its end or to
`sleep`; `copy i` copies a character to `dst + i`, and -1 is its failure. -/
def consolereadLoop (killed : Bool) (target : ℕ) : ℕ → Run (ConsMem σ) ε ConsOut
  | 0 => pure (.ret target)
  | n + 1 => do
    let s ← read ConsMem.cons
    if s.r = s.w then
      if killed then pure (.ret (-1)) else pure (.sleep (n + 1))
    else do
      let c := s.char s.r
      modify fun t => { t with cons := { t.cons with r := t.cons.r + 1 } }
      if c = ctrlD then do
        if n + 1 < target then
          -- keep it for the next call
          modify fun t => { t with cons := { t.cons with r := t.cons.r - 1 } }
        pure (.ret (target - (n + 1) : ℕ))
      else do
        let q ← zoom ConsMem.mem (fun m t => { t with mem := m }) (copy (target - (n + 1)) c)
        if q = -1 then pure (.ret (target - (n + 1) : ℕ))
        else if c = newline then pure (.ret (target - n : ℕ))
        else consolereadLoop killed target n

end Read

/-! ### Runs -/

/-- What a character does to the line being edited: it is added, and is the last one that there is
space for; it drops a character; it drops the line. -/
inductive Typed where
  | char (c : Byte) (full : Bool)
  | erase
  | kill
  deriving DecidableEq, Repr

/-- What `consoleintr` makes of a character, `none` if the character is ignored. -/
def Cons.typed (s : Cons) (c : Byte) : Option Typed :=
  if c = ctrlP then none
  else if c = ctrlU then some .kill
  else if c = ctrlH ∨ c = del then some .erase
  else if c ≠ 0 ∧ s.e - s.r < BitVec.ofNat 32 inputBufSize then
    some (.char (stored c) (s.e + 1 - s.r = BitVec.ofNat 32 inputBufSize))
  else none

/-- A call of `consoleread` that sleeps. -/
structure ConsCall where
  /-- The number of the call. -/
  id : ℕ
  target : ℕ
  n : ℕ
  deriving DecidableEq, Repr

/-- A call of `consoleread` that has returned. -/
structure ConsRet where
  id : ℕ
  target : ℕ
  result : ℤ
  deriving DecidableEq, Repr

/-- The console and its readers.  The last four fields are history. -/
structure ConsSys where
  cons : Cons
  /-- The calls that sleep, by process. -/
  waiting : ℕ → Option ConsCall
  killed : ℕ → Bool
  /-- The number of calls made. -/
  calls : ℕ
  /-- What has been typed and not ignored. -/
  typed : List Typed
  /-- The bytes copied to the readers, with the number of the call. -/
  delivered : List (ℕ × Byte)
  rets : List ConsRet

/-- A copy that is recorded as one of the call `id`. -/
def record (id _i : ℕ) (c : Byte) : Run (List (ℕ × Byte)) Empty ℤ := do
  modify fun l => l ++ [(id, c)]
  pure 0

/-- The call after a part of it: it sleeps, or it has returned. -/
def ConsOut.waiting (call : ConsCall) : ConsOut → Option ConsCall
  | .ret _ => none
  | .sleep n => some { call with n }

/-- The record of a call that returns. -/
def ConsOut.rets (call : ConsCall) : ConsOut → List ConsRet
  | .ret q => [⟨call.id, call.target, q⟩]
  | .sleep _ => []

/-- Run a part of a call of `p`, and note how it ends. -/
def ConsSys.read (s : ConsSys) (p : ℕ) (call : ConsCall) : ConsSys :=
  match consolereadLoop (record call.id) (s.killed p) call.target call.n ⟨s.cons, s.delivered⟩ with
  | .error e => e.elim
  | .ok (out, t) =>
    { s with
      cons := t.cons
      delivered := t.mem
      waiting := Function.update s.waiting p (out.waiting call)
      rets := s.rets ++ out.rets call }

/-- What can happen to the console. -/
inductive ConsEvent where
  /-- A character arrives. -/
  | intr (c : Byte)
  /-- A process calls `consoleread`. -/
  | read (p : ℕ) (n : ℤ)
  /-- A process returns from `sleep`. -/
  | resume (p : ℕ)
  | kill (p : ℕ)

namespace ConsEvent

/-- When it can happen. -/
def Ok : ConsEvent → ConsSys → Prop
  | .read p _, s => s.waiting p = none
  | .resume p, s => s.waiting p ≠ none
  | _, _ => True

instance (e : ConsEvent) (s : ConsSys) : Decidable (e.Ok s) := by
  cases e <;> unfold Ok <;> infer_instance

/-- Its effect. -/
def effect : ConsEvent → ConsSys → ConsSys
  | .intr c, s =>
    { s with cons := consoleintr c s.cons, typed := s.typed ++ (s.cons.typed c).toList }
  | .read p n, s => { s with calls := s.calls + 1 }.read p ⟨s.calls, n.toNat, n.toNat⟩
  | .resume p, s => match s.waiting p with
    | some call => s.read p call
    | none => s
  | .kill p, s => { s with killed := Function.update s.killed p true }

end ConsEvent

/-- The console after booting. -/
def ConsSys.start : ConsSys :=
  ⟨⟨fun _ => 0, 0, 0, 0⟩, fun _ => none, fun _ => false, 0, [], [], []⟩

/-- The runs of the console. -/
def consoles : Machine ConsSys Empty ConsEvent where
  init := (· = ConsSys.start)
  guard := ConsEvent.Ok
  prog e := modify e.effect

end Xv6Swap
