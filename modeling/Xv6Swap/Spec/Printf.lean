import Mathlib.Data.Nat.Digits.Defs
import Mathlib.Tactic.NormNum
import Xv6Swap.Kernel.Printf

/-!
# Numbers in printf

A number is printed as its numeral if that fits into the buffer of `printint`, of 16 characters.
The kernel passes an `int` to `printint` with its sign, also where the conversion is for an unsigned
number, and `printint` has no more room for numbers of 64 bits.

* `printint_eq` : what `printint` prints, for any width;
* `printf_num_iff` : the arguments that the kernel's `printf` prints as their numerals.
-/

namespace Xv6Swap.Printf

open Nat BitVec List

variable {w : ℕ}

/-! ### Numerals -/

/-- The numeral of a number, with a sign if it is negative. -/
def numeral (base : ℕ) (n : ℤ) : List Char :=
  (if n < 0 then ['-'] else []) ++ toDigits base n.natAbs

/-- A machine number, read with or without a sign. -/
def value {w : ℕ} (sign : Bool) (x : BitVec w) : ℤ := if sign then x.toInt else x.toNat

@[simp] theorem value_true (x : BitVec w) : value true x = x.toInt := rfl

@[simp] theorem value_false (x : BitVec w) : value false x = x.toNat := rfl

/-- The table has the digits of the base, in the form that `f` gives them. -/
def IsTable (digits : List Char) (base : ℕ) (f : Char → Char) : Prop :=
  ∀ n < base, digits.getD n ' ' = f n.digitChar

section

variable {digits : List Char} {base : ℕ} {f : Char → Char}

theorem putDigits_eq (hb : 1 < base) (ht : IsTable digits base f) (room x : ℕ) :
    putDigits digits base room x = if (toDigits base x).length ≤ room then
      .ok ((toDigits base x).reverse.map f) else .error .overflow := by
  induction room generalizing x with
  | zero => rw [if_neg (not_le.2 length_toDigits_pos)]; rfl
  | succ room ih =>
    have hdigit := ht (x % base) (mod_lt x (by omega))
    rw [putDigits, toDigits_eq_if hb, hdigit]
    rcases lt_or_ge x base with hlt | hge
    · rw [if_pos (div_eq_of_lt hlt), if_pos hlt, mod_eq_of_lt hlt]
      simp [pure, Except.pure, bind, Except.bind]
    · have hpos : x / base ≠ 0 := (div_pos hge (by omega)).ne'
      rw [if_neg hpos, if_neg (Nat.not_lt.2 hge), ih]
      split
      case isTrue h => simp [h, pure, Except.pure, bind, Except.bind]
      case isFalse h => simp [h, bind, Except.bind]

theorem value_neg_iff (sign : Bool) (x : BitVec w) : value sign x < 0 ↔ (sign && x.msb) = true := by
  cases sign <;> simp [value, msb_eq_toInt]

theorem natAbs_value (sign : Bool) (x : BitVec w) :
    (value sign x).natAbs = (if sign && x.msb then -x else x).toNat := by
  split
  case isTrue h =>
    have hneg := (value_neg_iff sign x).2 h
    rw [Bool.and_eq_true] at h
    rw [value, if_pos h.1] at hneg ⊢
    rw [toInt_eq_toNat_cond] at hneg ⊢
    rw [toNat_neg, mod_eq_of_lt (by omega)]
    split at hneg <;> omega
  case isFalse h =>
    have hneg := mt (value_neg_iff sign x).1 h
    rw [value] at hneg ⊢
    split at hneg
    case isTrue hs =>
      rw [if_pos hs]
      rw [toInt_eq_toNat_cond] at hneg ⊢
      split at hneg <;> omega
    case isFalse hs => rw [if_neg hs, Int.natAbs_natCast]

/-- **`printint`** prints the numeral, if there is room for it. -/
theorem printint_eq (hb : 1 < base) (ht : IsTable digits base f) (hf : f '-' = '-')
    (x : BitVec w) (sign : Bool) :
    printint digits x base sign = if (numeral base (value sign x)).length ≤ bufsize then
      .ok ((numeral base (value sign x)).map f) else .error .overflow := by
  rw [printint, numeral, natAbs_value, putDigits_eq hb ht]
  generalize toDigits base _ = ds
  by_cases hneg : value sign x < 0
  · rw [(value_neg_iff sign x).1 hneg, if_pos hneg]
    rcases Nat.lt_trichotomy ds.length bufsize with hlt | heq | hgt
    · simp [hlt, hlt.le, succ_le_of_lt hlt, hf, bind, Except.bind, pure, Except.pure]
    · simp [heq, bind, Except.bind]
    · simp [hgt.not_ge, (lt_succ_of_lt hgt).not_ge, bind, Except.bind]
  · have hmsb : (sign && x.msb) = false := by
      rwa [value_neg_iff, Bool.not_eq_true] at hneg
    rw [hmsb, if_neg hneg]
    by_cases hfit : ds.length ≤ bufsize
    · simp [hfit, bind, Except.bind, pure, Except.pure]
    · simp [hfit, bind, Except.bind]

end

/-- Numbers with the same digits are the same. -/
theorem toDigits_inj {b n m : ℕ} {f : Char → Char} (hb : 1 < b)
    (hf : ∀ i < b, ∀ j < b, f i.digitChar = f j.digitChar → i = j)
    (h : (toDigits b n).map f = (toDigits b m).map f) : n = m := by
  induction n using Nat.strong_induction_on generalizing m with
  | _ n ih =>
    have hne : ∀ x, (toDigits b x).map f ≠ [] := fun x =>
      mt map_eq_nil_iff.1 toDigits_ne_nil
    rw [toDigits_eq_if hb, toDigits_eq_if (n := m) hb] at h
    split at h <;> split at h <;> simp only [map_append, map_singleton] at h
    case isTrue.isTrue hn hm => exact hf n hn m hm (cons.inj h).1
    case isTrue.isFalse => exact absurd (append_inj' ((nil_append _).trans h) rfl).1.symm (hne _)
    case isFalse.isTrue => exact absurd (append_inj' (h.trans (nil_append _).symm) rfl).1 (hne _)
    case isFalse.isFalse hn hm =>
      obtain ⟨hdiv, hmod⟩ := append_inj' h rfl
      have hdiv := ih (n / b) (div_lt_self (by omega) hb) hdiv
      have hmod := hf _ (mod_lt n (by omega)) _ (mod_lt m (by omega)) (cons.inj hmod).1
      rw [← div_add_mod n b, hdiv, hmod, div_add_mod]

/-- The numbers whose numerals have at most so many characters. -/
theorem numeral_length_le_iff {base k : ℕ} {n : ℤ} (hb : 1 < base) (hk : 0 < k) :
    (numeral base n).length ≤ k + 1 ↔ -(base ^ k : ℕ) < n ∧ n < (base ^ (k + 1) : ℕ) := by
  have hpos : 0 < base ^ k := Nat.pow_pos (by omega)
  rw [numeral]
  split
  case isTrue h =>
    rw [length_append, length_singleton, add_comm, succ_le_succ_iff, length_toDigits_le_iff hb hk]
    omega
  case isFalse h =>
    rw [nil_append, length_toDigits_le_iff hb (add_one_pos k)]
    omega

/-! ### Conversions of numbers -/

/-- The letter of a conversion. -/
inductive Kind where
  | d
  | u
  | x

def Kind.char : Kind → Char
  | d => 'd'
  | u => 'u'
  | x => 'x'

def Kind.base : Kind → ℕ
  | d | u => 10
  | x => 16

def Kind.sign : Kind → Bool
  | d => true
  | u | x => false

/-- A conversion with its argument: an `int`, or with one or two letters `l` a number of 64 bits. -/
inductive Num where
  | int (kind : Kind) (v : BitVec 32)
  | long (kind : Kind) (two : Bool) (v : BitVec 64)

namespace Num

variable {n : ℕ}

def kind : Num → Kind
  | int kind _ | long kind _ _ => kind

def fmt : Num → List Char
  | int kind _ => [kind.char]
  | long kind two _ => (if two then ['l', 'l'] else ['l']) ++ [kind.char]

def arg : Num → Arg
  | int _ v => .int v
  | long _ _ v => .long v

/-- The argument, read as the conversion says. -/
def meaning : Num → ℤ
  | int kind v => value kind.sign v
  | long kind _ v => value kind.sign v

/-- The argument as it goes to a `printint` for numbers of `w` bits. -/
def param (w : ℕ) : Num → BitVec w
  | int _ v => v.signExtend w
  | long _ _ v => v.signExtend w

theorem directive_fmt (n : Num) (rest : List Char) :
    ∃ d, directive (n.fmt ++ rest) = some (d, rest) ∧
    ∀ digits w args, convert digits w d (n.arg :: args) =
      (do pure (← printint digits (n.param w) n.kind.base n.kind.sign, args)) := by
  rcases n with ⟨_ | _ | _, v⟩ | ⟨_ | _ | _, _ | _, v⟩ <;> exact ⟨_, rfl, fun _ _ _ => rfl⟩

/-- The kernel's `printf` has the argument right and has room for its numeral. -/
def KernelFits : Num → Prop
  | int .d _ => True
  | int .u v | int .x v => v.toNat < 2 ^ 31
  | long .d _ v => -10 ^ 15 < v.toInt ∧ v.toInt < 10 ^ 16
  | long .u _ v => v.toNat < 10 ^ 16
  | long .x _ _ => True

theorem isTable_kernelDigits (k : Kind) : IsTable kernelDigits k.base id := by
  unfold IsTable
  cases k <;> decide

theorem one_lt_base (k : Kind) : 1 < k.base := by cases k <;> decide

theorem printf_percent {fmt rest : List Char} {d : Directive} {args : List Arg}
    (h : directive fmt = some (d, rest)) : printf ('%' :: fmt) args = (do
      let (s, args) ← convert kernelDigits 64 d args
      pure (s ++ (← printf rest args))) := by
  rw [printf, if_neg (not_not.2 rfl)]
  split
  · rename_i h'
    rw [h] at h'
    cases h'
  · rename_i h'
    rw [h] at h'
    cases h'
    rfl

theorem printf_num (n : Num) : printf ('%' :: n.fmt) [n.arg] =
    if (numeral n.kind.base (value n.kind.sign (n.param 64))).length ≤ bufsize then
      .ok (numeral n.kind.base (value n.kind.sign (n.param 64))) else .error .overflow := by
  obtain ⟨d, hd, hconv⟩ := directive_fmt n []
  rw [append_nil] at hd
  rw [printf_percent hd, hconv,
    printint_eq (one_lt_base _) (isTable_kernelDigits _) rfl (n.param 64) n.kind.sign, map_id]
  split <;> simp [printf, bind, Except.bind, pure, Except.pure]

/-- An `int` that is not negative is passed as it is, and a negative one as a large number. -/
theorem toNat_param (v : BitVec 32) : (v.signExtend 64).toNat =
    if v.toNat < 2 ^ 31 then v.toNat else v.toNat + (2 ^ 64 - 2 ^ 32) := by
  rw [toNat_signExtend, msb_eq_decide, toNat_setWidth]
  have := v.isLt
  split <;> split <;> simp_all <;> omega

theorem toInt_param (v : BitVec 32) : (v.signExtend 64).toInt = v.toInt :=
  toInt_signExtend_of_le (by decide)

theorem printf_num_ok_iff (n : Num) :
    printf ('%' :: n.fmt) [n.arg] = .ok (numeral n.kind.base n.meaning) ↔
      (numeral n.kind.base (value n.kind.sign (n.param 64))).length ≤ bufsize ∧
        numeral n.kind.base (value n.kind.sign (n.param 64)) = numeral n.kind.base n.meaning := by
  rw [printf_num]
  split <;> simp [*]

theorem decimal_fits_iff {n : ℤ} :
    (numeral 10 n).length ≤ bufsize ↔ -10 ^ 15 < n ∧ n < 10 ^ 16 := by
  rw [bufsize, numeral_length_le_iff (by decide) (by decide)]
  norm_num

theorem hex_fits_iff : (numeral 16 n).length ≤ bufsize ↔ n < 2 ^ 64 := by
  rw [bufsize, numeral_length_le_iff (by decide) (by decide)]
  norm_num
  omega

theorem hex_inj {m : ℕ} (h : numeral 16 n = numeral 16 m) : n = m := by
  have hlen : ∀ x : ℕ, numeral 16 x = (toDigits 16 x).map id := fun x => by
    rw [map_id, numeral, if_neg (by omega), nil_append, Int.natAbs_natCast]
  rw [hlen, hlen] at h
  exact toDigits_inj (by decide) (by decide) h

/-- **What the kernel prints for a number** is its numeral exactly for these arguments; for the
others it prints another number, or the numeral runs over the buffer. -/
theorem printf_num_iff (n : Num) :
    printf ('%' :: n.fmt) [n.arg] = .ok (numeral n.kind.base n.meaning) ↔ n.KernelFits := by
  rw [printf_num_ok_iff]
  rcases n with ⟨_ | _ | _, v⟩ | ⟨_ | _ | _, two, v⟩ <;> have hv := v.isLt <;>
    simp only [kind, param, meaning, Kind.sign, Kind.base, KernelFits, value_true, value_false,
      signExtend_eq, and_true]
  case int.d =>
    have hint := toInt_eq_toNat_cond v
    rw [toInt_param, decimal_fits_iff]
    exact iff_of_true ⟨by split at hint <;> omega, rfl⟩ trivial
  case int.u =>
    rw [toNat_param, decimal_fits_iff]
    split
    case isTrue hlt => exact iff_of_true ⟨by omega, rfl⟩ hlt
    case isFalse hlt => exact iff_of_false (fun h => by omega) hlt
  case int.x =>
    rw [hex_fits_iff, toNat_param]
    split
    case isTrue hlt => exact iff_of_true ⟨by omega, rfl⟩ hlt
    case isFalse hlt => exact iff_of_false (fun h => by have := hex_inj h.2; omega) hlt
  case long.d => exact decimal_fits_iff
  case long.u => rw [decimal_fits_iff]; omega
  case long.x => exact iff_of_true (hex_fits_iff.2 hv) trivial

/-- **A negative register**: the largest `unsigned int` runs over the buffer with `%u`, and has
twice its digits with `%x`. -/
theorem printf_overflows : printf "%u".toList [.int 0xffffffff#32] = .error .overflow ∧
      printf "%x".toList [.int 0xffffffff#32] = .ok "ffffffffffffffff".toList :=
  ⟨printf_num (int .u 0xffffffff#32), printf_num (int .x 0xffffffff#32)⟩

end Num

end Xv6Swap.Printf
