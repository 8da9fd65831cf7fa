import Mathlib.Data.BitVec
import Xv6Swap.Spec.Printf

/-!
# printf for user programs

`vprintf` of `user/printf.c`.  It has the directives of the kernel's `printf`, but its `printint`
takes an `int`, also for the arguments of 64 bits.

* `vprintf_iff` : the output is the text with every directive replaced by what it stands for,
  exactly if every argument of 64 bits is also a number of 32 bits.
-/

namespace Xv6Swap.Printf

open Nat List BitVec

/-- `digits` of `user/printf.c`. -/
def userDigits : List Char := "0123456789ABCDEF".toList

/-- The loop of `vprintf`; the state says whether the last character was a `%`. -/
def vprintf (state : Bool) (fmt : List Char) (args : List Arg) : Except Stop (List Char) :=
  match fmt with
  | [] => pure []
  | c0 :: rest =>
    if !state then
      if c0 = '%' then vprintf true rest args
      else do pure (c0 :: (← vprintf false rest args))
    else match _h : directive (c0 :: rest) with
      | none => pure []
      | some (d, fmt') => do
        let (s, args) ← convert userDigits 32 d args
        pure (s ++ (← vprintf false fmt' args))
termination_by fmt.length
decreasing_by
  · exact lt_succ_self _
  · exact lt_succ_self _
  · exact directive_length _h

/-! ### Formats -/

/-- A piece of a format, with its argument. -/
inductive Piece where
  | text (c : {c : Char // c ≠ '%'})
  | num (n : Num)
  | ptr (v : BitVec 64)
  | str (s : List Char)
  | percent

/-- The hexadecimal digits are capital letters. -/
def Kind.form : Kind → Char → Char
  | d | u => id
  | x => Char.toUpper

/-- The numeral of a number, as a conversion shows it. -/
def Kind.numeral (k : Kind) (n : ℤ) : List Char := (Printf.numeral k.base n).map k.form

/-- The number that `printint` gets for an argument. -/
def Num.cut (n : Num) : ℤ := value n.kind.sign (n.param 32)

namespace Piece

def fmt : Piece → List Char
  | text c => [c]
  | num n => '%' :: n.fmt
  | ptr _ => ['%', 'p']
  | str _ => ['%', 's']
  | percent => ['%', '%']

def args : Piece → List Arg
  | text _ | percent => []
  | num n => [n.arg]
  | ptr v => [.long v]
  | str s => [.str (some s)]

/-- What a piece stands for: a number for its numeral, and an address for its sixteen digits. -/
def shown : Piece → List Char
  | text c => [c]
  | num n => n.kind.numeral n.meaning
  | ptr v => ['0', 'x'] ++ (range 16).map fun i =>
      (v.toNat / 16 ^ (15 - i) % 16).digitChar.toUpper
  | str s => s
  | percent => ['%']

/-- The piece has no number that `printint` cuts off. -/
def Fits : Piece → Prop
  | num (.long .d _ v) => -2 ^ 31 ≤ v.toInt ∧ v.toInt < 2 ^ 31
  | num (.long _ _ v) => v.toNat < 2 ^ 32
  | _ => True

/-- What `vprintf` prints for a piece. -/
def printed : Piece → List Char
  | num n => n.kind.numeral n.cut
  | p => p.shown

end Piece

/-! ### The loop -/

theorem vprintf_percent {fmt rest : List Char} {d : Directive} {args : List Arg}
    (h : directive fmt = some (d, rest)) : vprintf false ('%' :: fmt) args = (do
      let (s, args) ← convert userDigits 32 d args
      pure (s ++ (← vprintf false rest args))) := by
  rw [vprintf]
  cases fmt with
  | nil => cases h
  | cons c fmt =>
    rw [vprintf]
    simp only [Bool.not_false, Bool.not_true, if_true, Bool.false_eq_true, if_false]
    split
    · rename_i h'
      rw [h] at h'
      cases h'
    · rename_i h'
      rw [h] at h'
      cases h'
      rfl

theorem isTable_userDigits (k : Kind) : IsTable userDigits k.base k.form := by
  unfold IsTable
  cases k <;> decide

/-- A number of 32 bits always fits into the buffer. -/
theorem printint_user (n : Num) :
    printint userDigits (n.param 32) n.kind.base n.kind.sign = .ok (Piece.num n).printed := by
  have hf : n.kind.form '-' = '-' := by cases n.kind <;> rfl
  rw [printint_eq (Num.one_lt_base _) (isTable_userDigits _) hf, if_pos]
  · rfl
  · have hlt := (n.param 32).isLt
    have hint := toInt_eq_toNat_cond (n.param 32)
    cases n.kind with
    | d =>
      rw [Kind.base, Num.decimal_fits_iff, Kind.sign, value_true]
      split at hint <;> omega
    | u =>
      rw [Kind.base, Num.decimal_fits_iff, Kind.sign, value_false]
      omega
    | x =>
      rw [Kind.base, Kind.sign, value_false, Num.hex_fits_iff]
      omega

/-- A shift to the left moves the digits of an address by one place. -/
theorem digit_shift (x : ℕ) {e : ℕ} (he : e < 15) :
    x * 16 % 2 ^ 64 / 16 ^ (e + 1) % 16 = x / 16 ^ e % 16 := by
  have hpow : (2 : ℕ) ^ 60 = 16 ^ e * 16 ^ (15 - e) := by
    rw [← Nat.pow_add, Nat.add_sub_cancel' he.le]
    norm_num
  rw [show (2 : ℕ) ^ 64 = 2 ^ 60 * 16 by norm_num, mul_mod_mul_right, pow_succ 16 e,
    Nat.mul_div_mul_right _ _ (by decide), hpow, Nat.mod_mul_right_div_self,
    mod_mod_of_dvd _ (dvd_pow_self 16 (by omega))]

/-- The digits of an address, `n` of them. -/
theorem ptrDigits_eq (n : ℕ) (x : BitVec 64) (hn : n ≤ 16) : ptrDigits userDigits n x =
    (range n).map fun i => (x.toNat / 16 ^ (15 - i) % 16).digitChar.toUpper := by
  induction n generalizing x with
  | zero => rfl
  | succ n ih =>
    have htop : (x >>> 60).toNat = x.toNat / 16 ^ 15 % 16 := by
      have := x.isLt
      rw [toNat_ushiftRight, shiftRight_eq_div_pow]
      omega
    have hdigit : userDigits.getD (x.toNat / 16 ^ 15 % 16) ' ' =
        (x.toNat / 16 ^ 15 % 16).digitChar.toUpper :=
      isTable_userDigits .x _ (mod_lt _ (by decide))
    rw [ptrDigits, ih _ (by omega), range_succ_eq_map, map_cons, map_map, htop, hdigit]
    refine congrArg _ (map_congr_left fun i hi => ?_)
    have hi := mem_range.1 hi
    rw [BitVec.toNat_shiftLeft, Nat.shiftLeft_eq, show 15 - i = 14 - i + 1 by omega,
      digit_shift _ (by omega), Function.comp_apply, succ_eq_add_one,
      show 15 - (i + 1) = 14 - i by omega]

theorem vprintf_piece (p : Piece) (fmt : List Char) (args : List Arg) :
    vprintf false (p.fmt ++ fmt) (p.args ++ args) =
      (do pure (p.printed ++ (← vprintf false fmt args))) := by
  cases p with
  | text c =>
    rw [Piece.fmt, singleton_append, vprintf]
    simp only [Bool.not_false, if_true, if_neg c.2]
    rfl
  | num n =>
    obtain ⟨d, hd, hconv⟩ := n.directive_fmt fmt
    rw [Piece.fmt, List.cons_append, vprintf_percent hd, Piece.args, List.singleton_append, hconv,
      printint_user]
    rfl
  | ptr v =>
    have hd : directive ('p' :: fmt) = some (.ptr, fmt) := rfl
    have hv : (Piece.ptr v).printed = printptr userDigits v := by
      rw [printptr, ptrDigits_eq 16 v (Nat.le_refl _)]
      rfl
    rw [hv]
    exact vprintf_percent hd
  | str s =>
    have hd : directive ('s' :: fmt) = some (.str, fmt) := rfl
    exact vprintf_percent hd
  | percent =>
    have hd : directive ('%' :: fmt) = some (.percent, fmt) := rfl
    exact vprintf_percent hd

/-- **The output of `vprintf`.** -/
theorem vprintf_eq (ps : List Piece) :
    vprintf false (ps.flatMap Piece.fmt) (ps.flatMap Piece.args) =
      .ok (ps.flatMap Piece.printed) := by
  induction ps with
  | nil => rw [flatMap_nil, vprintf]; rfl
  | cons p ps ih =>
    rw [flatMap_cons, flatMap_cons, vprintf_piece, ih, flatMap_cons]
    rfl

/-! ### Numerals that are cut off -/

theorem mem_toDigits {b n : ℕ} {c : Char} (hb : 1 < b) (h : c ∈ toDigits b n) :
    ∃ k < b, c = k.digitChar := by
  induction n using Nat.strong_induction_on with
  | _ n ih =>
    rw [toDigits_eq_if hb] at h
    split at h
    case isTrue hlt => exact ⟨n, hlt, mem_singleton.1 h⟩
    case isFalse hge =>
      rcases mem_append.1 h with h | h
      · exact ih _ (div_lt_self (by omega) hb) h
      · exact ⟨n % b, mod_lt _ (by omega), mem_singleton.1 h⟩

theorem length_toDigits_mono {b m n : ℕ} (hb : 1 < b) (h : m ≤ n) :
    (toDigits b m).length ≤ (toDigits b n).length := by
  have hpos : 0 < (toDigits b n).length := length_toDigits_pos
  rw [length_toDigits_le_iff hb hpos]
  exact lt_of_le_of_lt h ((length_toDigits_le_iff hb hpos).1 (Nat.le_refl _))

section

variable {k : Kind} {m n : ℤ}

/-- The digits of a numeral, without its sign. -/
def Kind.digits (k : Kind) (n : ℤ) : List Char := (toDigits k.base n.natAbs).map k.form

theorem Kind.numeral_eq (k : Kind) (n : ℤ) :
    k.numeral n = (if n < 0 then ['-'] else []) ++ k.digits n := by
  rw [numeral, Printf.numeral, map_append, digits]
  cases k <;> split <;> rfl

theorem Kind.sign_notMem (k : Kind) (n : ℤ) : '-' ∉ k.digits n := by
  have hform : ∀ i < k.base, k.form i.digitChar ≠ '-' := by cases k <;> decide
  intro h
  obtain ⟨c, hc, hsign⟩ := mem_map.1 h
  obtain ⟨i, hi, rfl⟩ := mem_toDigits (Num.one_lt_base k) hc
  exact hform i hi hsign

theorem Kind.digits_ne_nil (k : Kind) (n : ℤ) : k.digits n ≠ [] :=
  mt map_eq_nil_iff.1 toDigits_ne_nil

theorem Kind.count_numeral (k : Kind) (n : ℤ) :
    (k.numeral n).countP (· ≠ '-') = (k.digits n).length := by
  have hdigits : (k.digits n).countP (· ≠ '-') = (k.digits n).length :=
    countP_eq_length.2 fun c hc => decide_eq_true fun hs => k.sign_notMem n (hs ▸ hc)
  rw [numeral_eq, countP_append, hdigits]
  split <;> simp

/-- Two numerals with the same number of digits, before other text. -/
theorem Kind.numeral_cancel {x y : List Char} (hlen : (k.digits m).length = (k.digits n).length)
    (h : k.numeral m ++ x = k.numeral n ++ y) : (m < 0 ↔ n < 0) ∧ k.digits m = k.digits n ∧
    x = y := by
  have hm := k.sign_notMem m
  have hn := k.sign_notMem n
  have hm' := k.digits_ne_nil m
  have hn' := k.digits_ne_nil n
  rw [numeral_eq, numeral_eq] at h
  generalize k.digits m = a, k.digits n = b at *
  split at h <;> split at h
  case isTrue.isTrue hm hn =>
    rw [List.append_assoc, List.append_assoc, List.append_cancel_left_eq] at h
    exact ⟨iff_of_true hm hn, append_inj h hlen⟩
  case isTrue.isFalse =>
    obtain ⟨c, b, rfl⟩ := exists_cons_of_ne_nil hn'
    obtain ⟨rfl, -⟩ := cons.inj h
    exact absurd mem_cons_self hn
  case isFalse.isTrue =>
    obtain ⟨c, a, rfl⟩ := exists_cons_of_ne_nil hm'
    obtain ⟨rfl, -⟩ := cons.inj h
    exact absurd mem_cons_self hm
  case isFalse.isFalse hm hn => exact ⟨iff_of_false hm hn, append_inj h hlen⟩

theorem Kind.numeral_inj (h : k.numeral m = k.numeral n) : m = n := by
  have hform : ∀ i < k.base, ∀ j < k.base, k.form i.digitChar = k.form j.digitChar → i = j := by
    cases k <;> decide
  have hlen : (k.digits m).length = (k.digits n).length := by
    rw [← count_numeral, h, count_numeral]
  obtain ⟨hsign, hdigits, -⟩ := numeral_cancel hlen (congrArg (· ++ []) h)
  have habs : m.natAbs = n.natAbs := toDigits_inj (Num.one_lt_base k) hform hdigits
  omega

end

/-- `printint` gets the whole argument exactly if it fits, and never a larger number. -/
theorem Num.cut_spec (n : Num) :
    (n.cut = n.meaning ↔ (Piece.num n).Fits) ∧ n.cut.natAbs ≤ n.meaning.natAbs := by
  rcases n with ⟨k, v⟩ | ⟨k, two, v⟩
  · have hsame : Num.cut (.int k v) = Num.meaning (.int k v) := by
      simp only [cut, meaning, kind, param, signExtend_eq]
    exact ⟨iff_of_true hsame trivial, le_of_eq (congrArg _ hsame)⟩
  · have hv := v.isLt
    cases k with
    | d =>
      have hcut : (v.signExtend 32).toInt = v.toInt.bmod (2 ^ 32) := toInt_signExtend v
      simp only [cut, meaning, kind, param, Kind.sign, value_true, Piece.Fits, hcut, Int.bmod_def]
      split <;> omega
    | _ =>
      have hcut : (v.signExtend 32).toNat = v.toNat % 2 ^ 32 := by
        rw [signExtend_eq_setWidth_of_le v (by decide), toNat_setWidth]
      simp only [cut, meaning, kind, param, Kind.sign, value_false, Piece.Fits, hcut]
      omega

/-! ### The whole output -/

theorem Piece.count_printed_le (p : Piece) :
    p.printed.countP (· ≠ '-') ≤ p.shown.countP (· ≠ '-') := by
  cases p with
  | num n =>
    simp only [printed, shown, Kind.count_numeral, Kind.digits, length_map]
    exact length_toDigits_mono (Num.one_lt_base _) n.cut_spec.2
  | _ => exact Nat.le_refl _

theorem Piece.printed_cancel (p : Piece) {x y : List Char}
    (hcount : p.printed.countP (· ≠ '-') = p.shown.countP (· ≠ '-'))
    (h : p.printed ++ x = p.shown ++ y) : p.printed = p.shown ∧ x = y := by
  cases p with
  | num n =>
    simp only [printed, shown, Kind.count_numeral] at hcount h ⊢
    obtain ⟨hsign, hdigits, hxy⟩ := Kind.numeral_cancel hcount h
    rw [Kind.numeral_eq, Kind.numeral_eq, hdigits]
    exact ⟨by simp only [hsign], hxy⟩
  | _ => exact ⟨rfl, append_cancel_left h⟩

theorem Piece.printed_eq_iff (p : Piece) : p.printed = p.shown ↔ p.Fits := by
  cases p with
  | num n => exact ⟨fun h => n.cut_spec.1.1 (Kind.numeral_inj h), fun h =>
      congrArg n.kind.numeral (n.cut_spec.1.2 h)⟩
  | _ => exact iff_of_true rfl trivial

/-- The pieces of the output are right if the whole is: no numeral is printed with more digits than
it has, so that none makes up for another. -/
theorem printed_eq_of_flatMap {ps : List Piece}
    (h : ps.flatMap Piece.printed = ps.flatMap Piece.shown) : ∀ p ∈ ps, p.printed = p.shown := by
  have hle : ∀ ps : List Piece, (ps.flatMap Piece.printed).countP (· ≠ '-') ≤
      (ps.flatMap Piece.shown).countP (· ≠ '-') := fun ps => by
    induction ps with
    | nil => exact Nat.le_refl _
    | cons p ps ih =>
      simp only [flatMap_cons, countP_append]
      exact Nat.add_le_add p.count_printed_le ih
  induction ps with
  | nil => nofun
  | cons p ps ih =>
    rw [flatMap_cons, flatMap_cons] at h
    have htotal := congrArg (countP (· ≠ '-')) h
    rw [countP_append, countP_append] at htotal
    have hp := p.count_printed_le
    have hps := hle ps
    obtain ⟨heq, hrest⟩ := p.printed_cancel (by omega) h
    rintro q (_ | ⟨_, hq⟩)
    · exact heq
    · exact ih hrest q hq

/-- **The output of `vprintf`** is the text with every directive replaced by what it stands for,
exactly if no argument of 64 bits is cut off. -/
theorem vprintf_iff (ps : List Piece) :
    vprintf false (ps.flatMap Piece.fmt) (ps.flatMap Piece.args) = .ok (ps.flatMap Piece.shown) ↔
      ∀ p ∈ ps, p.Fits := by
  rw [vprintf_eq, Except.ok.injEq]
  constructor
  · intro h p hp
    exact p.printed_eq_iff.1 (printed_eq_of_flatMap h p hp)
  · intro h
    exact flatMap_congr fun p hp => p.printed_eq_iff.2 (h p hp)

/-- **An argument is cut off**: the number 2³² is printed as 0. -/
theorem vprintf_cuts : vprintf false "%ld".toList [.long (2 ^ 32)] = .ok ['0'] :=
  vprintf_eq [.num (.long .d false (2 ^ 32))]

end Xv6Swap.Printf
