import Mathlib.Data.List.Basic

/-!
# printf

`printint`, `printptr` and `printf` of `kernel/printf.c`.  `user/printf.c` has the same functions
with two differences, which are parameters here: the table of digits, and the width of the number
that `printint` takes.

A program stops when `printint` stores a character outside its buffer, or when it fetches an
argument of a type that was not passed.
-/

namespace Xv6Swap.Printf

/-- Why a program stops. -/
inductive Stop where
  | overflow
  | badArg
  deriving DecidableEq

/-- An argument of `printf`; the null pointer is no string. -/
inductive Arg where
  | int (v : BitVec 32)
  | long (v : BitVec 64)
  | str (s : Option (List Char))

/-- The size of `buf` in `printint`. -/
def bufsize : ℕ := 16

section

variable (digits : List Char)

/-- The loop of `printint`, with `room` bytes of the buffer left: the characters stored. -/
def putDigits (base : ℕ) : (room x : ℕ) → Except Stop (List Char)
  | 0, _ => .error .overflow
  | room + 1, x => do
    let rest ← if x / base = 0 then pure [] else putDigits base room (x / base)
    pure (digits.getD (x % base) ' ' :: rest)

/-- `printint`; the buffer is printed from its end. -/
def printint {w : ℕ} (xx : BitVec w) (base : ℕ) (sign : Bool) : Except Stop (List Char) := do
  let neg := sign && xx.msb
  let x := if neg then -xx else xx
  let buf ← putDigits digits base bufsize x.toNat
  if !neg then pure buf.reverse
  else if buf.length < bufsize then pure (buf ++ ['-']).reverse
  else .error .overflow

/-- The loop of `printptr`, with `n` digits to go. -/
def ptrDigits : ℕ → BitVec 64 → List Char
  | 0, _ => []
  | n + 1, x => digits.getD (x >>> 60).toNat ' ' :: ptrDigits n (x <<< 4)

def printptr (x : BitVec 64) : List Char := ['0', 'x'] ++ ptrDigits digits 16 x

end

/-- What a `%` and the characters behind it ask for. -/
inductive Directive where
  | num (long : Bool) (base : ℕ) (sign : Bool)
  | ptr
  | str
  | percent
  | unknown (c : Char)

/-- The tests of `printf` on the characters behind a `%`, and the format behind those it uses;
`none` at the end of the format. -/
def directive : List Char → Option (Directive × List Char)
  | [] => none
  | 'd' :: fmt => some (.num false 10 true, fmt)
  | 'l' :: 'd' :: fmt | 'l' :: 'l' :: 'd' :: fmt => some (.num true 10 true, fmt)
  | 'u' :: fmt => some (.num false 10 false, fmt)
  | 'l' :: 'u' :: fmt | 'l' :: 'l' :: 'u' :: fmt => some (.num true 10 false, fmt)
  | 'x' :: fmt => some (.num false 16 false, fmt)
  | 'l' :: 'x' :: fmt | 'l' :: 'l' :: 'x' :: fmt => some (.num true 16 false, fmt)
  | 'p' :: fmt => some (.ptr, fmt)
  | 's' :: fmt => some (.str, fmt)
  | '%' :: fmt => some (.percent, fmt)
  | c :: fmt => some (.unknown c, fmt)

theorem directive_length {fmt fmt' : List Char} {d : Directive}
    (h : directive fmt = some (d, fmt')) : fmt'.length < fmt.length := by
  unfold directive at h
  split at h <;> cases h <;> simp +arith

/-- The characters that a directive prints, and the arguments behind the one it fetches.  The
number goes to `printint` as one of `w` bits. -/
def convert (digits : List Char) (w : ℕ) : Directive → List Arg → Except Stop (List Char × List Arg)
  | .num false base sign, .int v :: args => do
    pure (← printint digits (v.signExtend w) base sign, args)
  | .num true base sign, .long v :: args => do
    pure (← printint digits (v.signExtend w) base sign, args)
  | .ptr, .long v :: args => pure (printptr digits v, args)
  | .str, .str s :: args => pure (s.getD "(null)".toList, args)
  | .percent, args => pure (['%'], args)
  | .unknown c, args => pure (['%', c], args)
  | _, _ => .error .badArg

/-- `digits` of `kernel/printf.c`. -/
def kernelDigits : List Char := "0123456789abcdef".toList

/-- `printf` of the kernel, whose numbers are of the type `long long`: the characters that go to
the console. -/
def printf (fmt : List Char) (args : List Arg) : Except Stop (List Char) :=
  match fmt with
  | [] => pure []
  | cx :: fmt =>
    if cx ≠ '%' then do pure (cx :: (← printf fmt args))
    else match _h : directive fmt with
      | none => pure []
      | some (d, fmt') => do
        let (s, args) ← convert kernelDigits 64 d args
        pure (s ++ (← printf fmt' args))
termination_by fmt.length
decreasing_by
  · exact Nat.lt_succ_self _
  · have := directive_length _h
    rw [List.length_cons]
    omega

end Xv6Swap.Printf
